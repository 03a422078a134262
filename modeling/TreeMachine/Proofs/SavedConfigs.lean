import Mathlib
import TreeMachine.Command.Config
import TreeMachine.Proofs.Decimals
import TreeMachine.Proofs.WrittenFiles

/-!
# Saved configurations

The file of a configuration has a line for every field. Such an object is read as its fields,
a flag or a number as what it was written from, so that a configuration that was saved is the
one that is loaded, up to what loading settles.
-/

open List

namespace TreeMachine.Document.Json

/-- A character that stands for itself in a string. -/
def isPlain (c : Char) : Bool :=
  0x20 ≤ c.toNat && c != '\\' && c != '\x22'

lemma pieces?_plain {name : List Char} (h : name.all isPlain = true) (cs : List Char)
    (pos : Nat) : pieces? (name ++ '\x22' :: cs) pos =
      some (name.map .char, ⟨cs, pos + name.length + 1⟩) := by
  induction name generalizing pos with
  | nil => rfl
  | cons c name ih =>
    rw [all_cons, Bool.and_eq_true] at h
    simp only [isPlain, Bool.and_eq_true, decide_eq_true_eq, bne_iff_ne] at h
    rw [cons_append, pieces?]
    · simp [ih h.2, h.1, Nat.not_lt.2 h.1.1.1]
      omega
    all_goals simp_all

lemma assemble_chars (cs : List Char) : assemble (cs.map .char) = cs := by
  induction cs with
  | nil => rfl
  | cons c cs ih => rw [map_cons, assemble, ih]

lemma value?_bool (b : Bool) (fuel depth : Nat) (rest : List Char) (pos : Nat) :
    value? (fuel + 1) depth ⟨(if b then "true" else "false").toList ++ rest, pos⟩ =
      some (.bool b, ⟨rest, pos + (if b then "true" else "false").toList.length⟩) := by
  cases b <;> rfl

/-! ### Numbers -/

/-- What can stand after a value in an object with a line for every field. -/
def Ends (rest : List Char) : Prop :=
  ∃ c cs, rest = c :: cs ∧ (c = ',' ∨ c = '\n')

variable {rest : List Char}

/-- The first digit of a number is zero only if the number is. -/
lemma head_toDigits (n : Nat) :
    ∃ d ds, Nat.toDigits 10 n = d :: ds ∧ d.isDigit = true ∧ (d = '0' → n = 0) := by
  induction n using Nat.strong_induction_on with
  | _ n ih =>
    rw [Nat.toDigits_eq_if (by decide)]
    split_ifs with hlt
    · refine ⟨_, [], rfl, ?_⟩
      interval_cases n <;> decide
    · obtain ⟨d, ds, heq, hd, hzero⟩ := ih (n / 10) (by omega)
      exact ⟨d, _, by rw [heq]; rfl, hd, fun h => by have := hzero h; omega⟩

lemma integer?_toDigits (n : Nat) (hrest : Ends rest) :
    integer? (Nat.toDigits 10 n ++ rest) = some (Nat.toDigits 10 n, rest) := by
  have hdigits : ∀ c ∈ Nat.toDigits 10 n, c.isDigit = true := fun c hc =>
    Nat.isDigit_of_mem_toDigits (by decide) le_rfl hc
  obtain ⟨d, ds, heq, -, hzero⟩ := head_toDigits n
  by_cases hd : d = '0'
  · rw [hzero hd]
    rfl
  · rw [integer?]
    · obtain ⟨c, cs, rfl, hc⟩ := hrest
      have hc : c.isDigit = false := by rcases hc with rfl | rfl <;> rfl
      rw [digits?, span_eq_takeWhile_dropWhile, takeWhile_append_of_pos hdigits,
        dropWhile_append_of_pos hdigits]
      simp [hc, heq]
    · rw [heq]
      exact fun cs hcs => hd (List.cons.inj hcs).1

lemma number?_toString (n : Int) (hrest : Ends rest) :
    number? ((toString n).toList ++ rest) = some ((toString n).toList, rest) := by
  have hafter : fraction? rest = some ([], rest) ∧ exponent? rest = some ([], rest) := by
    obtain ⟨c, cs, rfl, rfl | rfl⟩ := hrest <;> exact ⟨rfl, rfl⟩
  rw [Int.toString_eq_repr]
  cases n with
  | ofNat n =>
    rw [show (Int.ofNat n).repr = n.repr from rfl, number?]
    · simp [integer?_toDigits n hrest, hafter]
    · obtain ⟨d, ds, heq, hd, -⟩ := head_toDigits n
      rw [Nat.repr_eq_ofList_toDigits, String.toList_ofList, heq]
      rintro cs hcs
      rw [(List.cons.inj hcs).1] at hd
      cases hd
  | negSucc n =>
    rw [show (Int.negSucc n).repr = "-" ++ (n + 1).repr from rfl, String.toList_append]
    simp [number?, integer?_toDigits (n + 1) hrest, hafter]

lemma head_toString (n : Int) :
    ∃ c cs, (toString n).toList = c :: cs ∧ (c = '+' ∨ c = '-' ∨ c.isDigit) := by
  have hspells := Decimal.spells_toString n
  cases htext : (toString n).toList with
  | nil => exact absurd htext hspells.not_blank.1
  | cons c cs => exact ⟨c, cs, rfl, hspells.mem (htext ▸ mem_cons_self)⟩

lemma value?_int (n : Int) (hrest : Ends rest) (fuel depth pos : Nat) :
    value? (fuel + 1) depth ⟨(toString n).toList ++ rest, pos⟩ =
      some (.num (toString n), ⟨rest, pos + (toString n).toList.length⟩) := by
  have hnumber := number?_toString n hrest
  obtain ⟨c, cs, hcs, hc⟩ := head_toString n
  have hmark : c ∉ ['{', '[', '\x22', 't', 'f', 'n'] := by
    rintro hmem
    fin_cases hmem <;> rcases hc with h | h | h <;> cases h
  rw [value?]
  · rw [hnumber]
    simp
  all_goals
    intro cs' heq
    rw [hcs] at heq
    rw [(List.cons.inj heq).1] at hmark
    exact hmark (by decide)

/-! ### Objects -/

/-- A field of an object, with the text of its value. -/
structure Line where
  name : String
  text : String
  value : Json

/-- A field whose value is read from its text, whatever follows in the object. -/
structure Line.Valid (l : Line) : Prop where
  plain : l.name.toList.all isPlain = true ∧ keepsText l.name = false
  starts : ∃ c cs, l.text.toList = c :: cs ∧ isSpace c = false
  reads : ∀ fuel depth rest pos, Ends rest →
    value? (fuel + 1) depth ⟨l.text.toList ++ rest, pos⟩ =
      some (l.value, ⟨rest, pos + l.text.toList.length⟩)

/-- What stands between a field and the further ones, or the end. -/
def linesEnd : List Line → List Char
  | [] => ['\n', '}']
  | _ :: _ => [',', '\n', ' ', ' ']

/-- The text of an object after its opening brace and the white space there. -/
def linesText : List Line → List Char
  | [] => []
  | l :: ls => '\x22' :: (l.name.toList ++ '\x22' :: ':' :: ' ' :: (l.text.toList ++
      (linesEnd ls ++ linesText ls)))

lemma string?_plain {name : String} (h : name.toList.all isPlain = true) (cs : List Char)
    (pos : Nat) : string? (name.toList ++ '\x22' :: cs) pos =
      some (name, ⟨cs, pos + name.toList.length + 1⟩) := by
  simp [string?, pieces?_plain h, assemble_chars]

lemma Line.Valid.skip {l : Line} (h : l.Valid) (rest : List Char) (pos : Nat) :
    skip (' ' :: (l.text.toList ++ rest)) pos = ⟨l.text.toList ++ rest, pos + 1⟩ := by
  obtain ⟨c, cs, htext, hc⟩ := h.starts
  rw [htext]
  simp [Json.skip, hc, show isSpace ' ' = true from rfl]

lemma fields?_linesText {ls : List Line} (hne : ls ≠ []) (hls : ∀ l ∈ ls, l.Valid) (fuel : Nat)
    (hfuel : ls.length < fuel) (depth pos : Nat) :
    ∃ pos', fields? fuel depth ⟨linesText ls, pos⟩ =
      some (ls.map fun l => (l.name, "", l.value), ⟨[], pos'⟩) := by
  induction ls generalizing fuel pos with
  | nil => exact absurd rfl hne
  | cons l ls ih =>
    obtain ⟨hl, hls⟩ := forall_mem_cons.1 hls
    obtain ⟨fuel, rfl⟩ : ∃ k, fuel = k + 2 := ⟨fuel - 2, by simp at hfuel; omega⟩
    have hends : Ends (linesEnd ls ++ linesText ls) := by
      cases ls with
      | nil => exact ⟨_, _, rfl, .inr rfl⟩
      | cons => exact ⟨_, _, rfl, .inl rfl⟩
    have hcolon : ∀ cs pos, skip (':' :: cs) pos = ⟨':' :: cs, pos⟩ := fun _ _ => rfl
    rw [linesText, fields?, string?_plain hl.plain.1]
    simp only [Option.bind_eq_bind, Option.bind_some, hcolon, hl.skip, hl.reads _ _ _ _ hends,
      hl.plain.2, Bool.false_eq_true, if_false]
    cases ls with
    | nil => exact ⟨_, rfl⟩
    | cons l' ls =>
      have hskip : ∀ pos, skip ('\n' :: ' ' :: ' ' :: linesText (l' :: ls)) pos =
          ⟨linesText (l' :: ls), pos + 3⟩ := fun _ => rfl
      have hcomma : ∀ pos, skip (linesEnd (l' :: ls) ++ linesText (l' :: ls)) pos =
          ⟨',' :: '\n' :: ' ' :: ' ' :: linesText (l' :: ls), pos⟩ := fun _ => rfl
      simp only [hcomma, hskip]
      obtain ⟨pos', h⟩ := ih (cons_ne_nil _ _) hls (fuel + 1) (Nat.lt_of_succ_lt_succ hfuel) _
      exact ⟨pos', by rw [h]; rfl⟩

/-- An object with a line for every field is read as its fields. -/
lemma read?_lines {s : String} {ls : List Line} (hne : ls ≠ []) (hls : ∀ l ∈ ls, l.Valid)
    (hs : s.toList = "\x7b\n  ".toList ++ linesText ls) :
    read? s = some (.obj (ls.map fun l => (l.name, "", l.value))) := by
  have hlength : ls.length ≤ (linesText ls).length := by
    clear hne hls hs
    induction ls with
    | nil => exact le_rfl
    | cons l ls ih => simp [linesText]; omega
  obtain ⟨pos, hfields⟩ := fields?_linesText hne hls (2 * s.toList.length + 1)
    (by rw [hs, length_append]; omega) (maxDepth - 1) 4
  have hvalue : value? (2 * s.toList.length + 2) maxDepth (skip s.toList 0) =
      some (.obj (ls.map fun l => (l.name, "", l.value)), ⟨[], pos⟩) := by
    obtain ⟨l, ls, rfl⟩ := exists_cons_of_ne_nil hne
    have hskip : skip (s.toList) 0 = ⟨'{' :: ("\n  ".toList ++ linesText (l :: ls)), 0⟩ := by
      rw [hs]; rfl
    have hskip' : skip ("\n  ".toList ++ linesText (l :: ls)) (0 + 1) =
        ⟨linesText (l :: ls), 4⟩ := rfl
    rw [hskip, value?, if_neg (by decide), hskip']
    exact congrArg (Option.bind · fun r => some (Json.obj r.1, r.2)) hfields
  rw [read?, readFirst?, hvalue]
  rfl

end TreeMachine.Document.Json

namespace TreeMachine.Command.Config

open Document (Json)

/-- The fields of a configuration file. -/
def lines (c : Config) : List Json.Line :=
  let flag (name : String) (b : Bool) : Json.Line :=
    ⟨name, if b then "true" else "false", .bool b⟩
  let number (name : String) (n : Int) : Json.Line := ⟨name, toString n, .num (toString n)⟩
  [flag "verbose" c.verbose, flag "debug" c.debug, number "heap_size" c.heapSize.toInt,
    number "max_call_depth" c.maxCallDepth.toInt, flag "lower" c.lower,
    number "seed" c.seed.toNat]

variable {name : String}

lemma valid_flag (hname : name.toList.all Json.isPlain = true ∧ Json.keepsText name = false)
    (b : Bool) : Json.Line.Valid ⟨name, if b then "true" else "false", .bool b⟩ where
  plain := hname
  starts := by
    cases b with
    | false => exact ⟨'f', ['a', 'l', 's', 'e'], by simp, rfl⟩
    | true => exact ⟨'t', ['r', 'u', 'e'], by simp, rfl⟩
  reads fuel depth rest pos _ := Json.value?_bool b fuel depth rest pos

lemma valid_number (hname : name.toList.all Json.isPlain = true ∧ Json.keepsText name = false)
    (n : Int) : Json.Line.Valid ⟨name, toString n, .num (toString n)⟩ where
  plain := hname
  starts := by
    obtain ⟨c, cs, htext, hc⟩ := Json.head_toString n
    refine ⟨c, cs, htext, Bool.eq_false_iff.2 fun hspace => ?_⟩
    simp only [Json.isSpace, Bool.or_eq_true, beq_iff_eq] at hspace
    rcases hspace with ((rfl | rfl) | rfl) | rfl <;> rcases hc with h | h | h <;> cases h
  reads fuel depth rest pos hrest := Json.value?_int n hrest fuel depth pos

lemma valid_lines (c : Config) : ∀ l ∈ c.lines, l.Valid := by
  simp only [lines, forall_mem_cons]
  exact ⟨valid_flag (by decide) _, valid_flag (by decide) _, valid_number (by decide) _,
    valid_number (by decide) _, valid_flag (by decide) _, valid_number (by decide) _, by simp⟩

lemma text_eq (c : Config) : c.text.toList = "\x7b\n  ".toList ++ Json.linesText c.lines := by
  have hseed : toString (c.seed.toNat : Int) = toString c.seed.toNat := rfl
  simp [text, lines, hseed, Json.linesText, Json.linesEnd, String.intercalate_cons_cons]

lemma int64?_toString (n : Int64) : int64? (toString n.toInt) = some n := by
  have hread := Decimal.readInt_eq_some_iff.2 (Decimal.spells_toString n.toInt)
  have hbounds : Int64.minValue.toInt ≤ n.toInt ∧ n.toInt ≤ Int64.maxValue.toInt :=
    ⟨Int64.minValue_le_toInt n, Int64.toInt_le n⟩
  simp only [int64?, Json.intIn?, hread, if_pos hbounds, Option.map_some, Int64.ofInt_toInt]

lemma seed?_toString (n : UInt64) : seed? (toString (n.toNat : Int)) = some n := by
  have hread : Decimal.readNat (toString (n.toNat : Int)).toList = some n.toNat := by
    obtain ⟨hne, hall, hvalue⟩ := Decimal.digits_repr n.toNat
    exact Decimal.readNat_eq_some_iff.2 ⟨hne, hall, hvalue.symm⟩
  simp only [seed?, hread, if_pos n.toNat_lt, UInt64.ofNat_toNat]

/-- The file of a configuration is read as the configuration. -/
lemma ofJson?_text (c : Config) : (Json.read? c.text).bind ofJson? = some c := by
  have hflags : ∀ (c : Config) b, c.put? "verbose" (.bool b) = some { c with verbose := b } ∧
      c.put? "debug" (.bool b) = some { c with debug := b } ∧
      c.put? "lower" (.bool b) = some { c with lower := b } := fun _ _ => ⟨rfl, rfl, rfl⟩
  have hnumbers : ∀ (c : Config) t,
      c.put? "heap_size" (.num t) = (int64? t).map (fun n => { c with heapSize := n }) ∧
      c.put? "max_call_depth" (.num t) = (int64? t).map (fun n => { c with maxCallDepth := n }) ∧
      c.put? "seed" (.num t) = (seed? t).map fun n => { c with seed := n } :=
    fun _ _ => ⟨rfl, rfl, rfl⟩
  rw [Json.read?_lines (cons_ne_nil _ _) c.valid_lines c.text_eq]
  simp only [Option.bind_some, ofJson?, map_cons, map_nil, foldlM_cons,
    foldlM_nil, hflags, hnumbers, int64?_toString, seed?_toString, Option.map_some]
  rfl

/-- What is written is read, as far as it is used. -/
lemma load_of_save {c : Config} {fs fs' : Files} {path : String}
    (h : c.save fs path = .ok fs') : load fs' path = c.settle.mapError .reason := by
  rw [save] at h
  split at h
  next fs1 hwrite =>
    cases h
    obtain ⟨hempty, hopen⟩ := Files.open?_write hwrite
    rw [load]
    simp only [hempty, hopen, Bool.false_eq_true, if_false, Content.toText, parse, ofJson?_text]
  next => cases h

lemma settle_of_settle {c c' : Config} (h : c.settle = .ok c') : c'.settle = .ok c' := by
  rw [settle] at h
  split_ifs at h <;> cases h <;> simp [settle, *]

/-- Settings that were saved are loaded again unless the heap size is negative. A missing heap
size or call depth is replaced by its default, and after that nothing is replaced. -/
theorem load_save {c : Config} {fs fs' : Files} {path : String} (h : c.save fs path = .ok fs') :
    ((∃ e, load fs' path = .error e) ↔ c.heapSize < 0) ∧
      (¬c.heapSize < 0 → load fs' path = .ok { c with
        heapSize := if c.heapSize = 0 then 33554432 else c.heapSize
        maxCallDepth := if c.maxCallDepth ≤ 0 then 100000 else c.maxCallDepth }) ∧
      ∀ c', load fs' path = .ok c' → ∀ fs1 fs2 path', c'.save fs1 path' = .ok fs2 →
        load fs2 path' = .ok c' := by
  have hload := load_of_save h
  refine ⟨?_, fun hheap => ?_, fun c' hc' fs1 fs2 path' hsave => ?_⟩
  · rw [hload, settle]
    split_ifs with hheap <;> simp [hheap, Except.mapError]
  · rw [hload, settle, if_neg hheap]
    rfl
  · rw [hload] at hc'
    cases hsettle : c.settle with
    | error => rw [hsettle] at hc'; cases hc'
    | ok c1 =>
      rw [hsettle] at hc'
      cases hc'
      rw [load_of_save hsave, settle_of_settle hsettle]
      rfl

/-- The extreme values of all fields. -/
theorem load_save_extremes :
    let c : Config := ⟨true, true, 9223372036854775807, -9223372036854775808, true,
      18446744073709551615⟩
    ∃ fs', c.save {} "irvm.json" = .ok fs' ∧
      load fs' "irvm.json" = .ok { c with maxCallDepth := 100000 } := by
  intro c
  have hok : (c.save {} "irvm.json").isOk = true := by decide +kernel
  cases hsave : c.save {} "irvm.json" with
  | error e => rw [hsave] at hok; cases hok
  | ok fs' => exact ⟨fs', rfl, (load_save hsave).2.1 (by decide)⟩

end TreeMachine.Command.Config
