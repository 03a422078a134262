import TreeMachine.Proofs.LoweredCalls
import TreeMachine.Proofs.Registers
import TreeMachine.Proofs.Safety

/-!
# Both forms of a program behave alike

A call of a function is evaluated once, and the machine for the structured form and the machine
for the flat form both follow this evaluation. So they end with the same outcome and in the
same world, or both go on. The budget of the evaluation is chosen larger than the number of
steps of a run that ends.

The forms differ in two points, for which the run of the structured form is asked: whether it
takes the value of a register that has none, and whether it cannot read the word that a store
is to overwrite.
-/

namespace TreeMachine.Machine

open Structured
open Flat (SameWorld lowering SavesUnset)
open Linear

/-! ### Ends of runs -/

section

variable {M : Setup} {n : Nat} {s : State} {r : EStateM.Result Stop World (List Int32)}

lemma Settles.both (hcare : care ≠ .reads) (h : Settles M (faithful M.program care) n s r)
    (h' : Settles M' (lowering care) n s' r)
    (hunset : care = .takes → ∀ t, Reaches M s t → ¬TakesUnset M.program t)
    (htarget : ∀ {t src c t'}, Reaches M s t → ReadsTarget M.program src t →
      step M t = .error c t' → src.Calm) :
    (∀ fuel ≤ n, run M fuel s = none ∧ run M' fuel s' = none) ∨
      ∃ r fuel fuel' t t', run M fuel s = some (r, t) ∧ run M' fuel' s' = some (r, t') ∧
        SameWorld care t.world t'.world := by
  cases r with
  | ok vs w =>
    obtain ⟨fuel, t, hrun, rfl⟩ := h
    obtain ⟨fuel', t', hrun', hw⟩ := h'
    exact .inr ⟨_, fuel, fuel', t, t', hrun, hrun', hw⟩
  | error e w =>
    cases e with
    | fault c =>
      obtain ⟨fuel, _, t, hrun, ⟨rfl, -⟩, rfl⟩ := h
      obtain ⟨fuel', _, t', hrun', rfl, hw⟩ := h'
      exact .inr ⟨_, fuel, fuel', t, t', hrun, hrun', hw⟩
    | target c src =>
      obtain ⟨s1, _, t, hreach, hreads, hstep, ⟨rfl, -⟩, rfl⟩ := h trivial
      obtain ⟨s1', _, t', hreach', -, hstep', rfl, hw⟩ := h' (htarget hreach hreads hstep)
      obtain ⟨fuel, hrun⟩ := run_of_reaches hreach hstep
      obtain ⟨fuel', hrun'⟩ := run_of_reaches hreach' hstep'
      exact .inr ⟨_, fuel, fuel', t, t', hrun, hrun', hw⟩
    | unset =>
      obtain ⟨s1, hreach, hfills, htakes⟩ := h
      have htakes' : care = .takes := by
        cases care with
        | fills => exact absurd rfl hfills
        | takes => rfl
        | reads => exact absurd rfl hcare
      exact absurd (htakes htakes') (hunset htakes' s1 hreach)
    | exhausted => exact .inl fun fuel hle => ⟨h fuel hle, h' fuel hle⟩
    | goto l => exact h.elim
    | leave vs => exact h.elim

end

/-! ### Calls -/

/-- Two machines answer a call alike: it ends on one just if it ends on the other, with the same
outcome, and in worlds that are related. -/
structure AnswerAlike (R : World → World → Prop) (m m' : Machine) (name : String)
    (args : List Int32) : Prop where
  there : ∀ {r m1}, m.EndsWith name args (r, m1) →
    ∃ m1', m'.EndsWith name args (r, m1') ∧ R m1.world m1'.world
  back : ∀ {r m1'}, m'.EndsWith name args (r, m1') →
    ∃ m1, m.EndsWith name args (r, m1) ∧ R m1.world m1'.world

section

variable {care : Care} {m m' : Machine} {name : String} {args : List Int32}

lemma settle_alike (h : SameWorld care m.world m'.world) (outcome : Except Error (List Int32)) :
    (m'.settle outcome).1 = (m.settle outcome).1 ∧
      SameWorld care (m.settle outcome).2.world (m'.settle outcome).2.world := by
  obtain ⟨filler, hflush, hw⟩ := h.act World.tame_flush
  unfold settle
  rw [hflush]
  cases hf : World.flush m.world with
  | ok _ w =>
    rw [hf] at hw
    cases outcome <;> exact ⟨rfl, hw⟩
  | error c w =>
    rw [hf] at hw
    cases outcome <;> exact ⟨rfl, hw⟩

variable (name) in
lemma conclude_alike (hdepth : m'.depth = m.depth) (h : SameWorld care t.world t'.world)
    (r : Except Fault (List Int32)) :
    (m'.conclude name r t').1 = (m.conclude name r t).1 ∧
      SameWorld care (m.conclude name r t).2.world (m'.conclude name r t').2.world := by
  unfold conclude
  rw [hdepth]
  by_cases hm : m.depth = 0
  · simp only [hm, if_true]
    refine settle_alike ?_ _
    cases r <;> exact h
  · simp only [hm, if_false, true_and]
    cases r <;> exact h

lemma alike_of_runs (hl : m.setup.program.labels[name]? = some addr)
    (hs : m.start name addr args = .ok s) (hl' : m'.setup.program.labels[name]? = some addr')
    (hs' : m'.start name addr' args = .ok s') (hdepth : m'.depth = m.depth)
    (h : ∀ n, (∀ fuel ≤ n, run m.setup fuel s = none ∧ run m'.setup fuel s' = none) ∨
      ∃ r fuel fuel' t t', run m.setup fuel s = some (r, t) ∧
        run m'.setup fuel' s' = some (r, t') ∧ SameWorld care t.world t'.world) :
    AnswerAlike (SameWorld care) m m' name args := by
  refine ⟨fun {r0 m1} hends => ?_, fun {r0 m1'} hends => ?_⟩
  · obtain ⟨n, r, t, hrun, hr⟩ := run_of_endsWith hl hs hends
    rcases h n with hnone | ⟨r', fuel, fuel', t1, t', hrun1, hrun', hw⟩
    · rw [(hnone n (le_refl n)).1] at hrun
      cases hrun
    · obtain ⟨rfl, rfl⟩ := Prod.mk.inj (run_unique hrun hrun1)
      obtain ⟨hsame, hworld⟩ := conclude_alike name hdepth hw r
      rw [hr] at hsame hworld
      have hends' := endsWith_of_run hl' hs' hrun'
      rw [← Prod.eta (m'.conclude name r t'), hsame] at hends'
      exact ⟨_, hends', hworld⟩
  · obtain ⟨n, r, t', hrun', hr⟩ := run_of_endsWith hl' hs' hends
    rcases h n with hnone | ⟨r', fuel, fuel', t, t1, hrun, hrun1, hw⟩
    · rw [(hnone n (le_refl n)).2] at hrun'
      cases hrun'
    · obtain ⟨rfl, rfl⟩ := Prod.mk.inj (run_unique hrun' hrun1)
      obtain ⟨hsame, hworld⟩ := conclude_alike name hdepth hw r
      rw [hr] at hsame hworld
      have hends' := endsWith_of_run hl hs hrun
      rw [← Prod.eta (m.conclude name r t), ← hsame] at hends'
      exact ⟨_, hends', hworld⟩

lemma alike_of_callAll (h : ∀ fuel, m.callAll fuel name args = some e)
    (h' : ∀ fuel, m'.callAll fuel name args = some e') (hr : e'.1 = e.1)
    (hw : R e.2.world e'.2.world) : AnswerAlike R m m' name args := by
  have hends : m.EndsWith name args e :=
    ⟨⟨0, h 0⟩, fun fuel e1 he1 => Option.some.inj (he1.symm.trans (h fuel))⟩
  have hends' : m'.EndsWith name args e' :=
    ⟨⟨0, h' 0⟩, fun fuel e1 he1 => Option.some.inj (he1.symm.trans (h' fuel))⟩
  obtain ⟨r, m1⟩ := e
  obtain ⟨r', m1'⟩ := e'
  obtain rfl : r' = r := hr
  refine ⟨fun {r0 m0} h0 => ?_, fun {r0 m0} h0 => ?_⟩
  · obtain ⟨fuel, h0⟩ := h0.1
    obtain ⟨rfl, rfl⟩ := Prod.mk.inj (hends.2 fuel _ h0)
    exact ⟨m1', hends', hw⟩
  · obtain ⟨fuel, h0⟩ := h0.1
    obtain ⟨rfl, rfl⟩ := Prod.mk.inj (hends'.2 fuel _ h0)
    exact ⟨m1, hends, hw⟩

lemma alike_of_invoke (h : ∀ fuel, m.invoke fuel name args = some (r, after))
    (h' : ∀ fuel, m'.invoke fuel name args = some (r, after')) (hdepth : m'.depth = m.depth)
    (hw : SameWorld care after.world after'.world) :
    AnswerAlike (SameWorld care) m m' name args := by
  refine alike_of_callAll (fun fuel => callAll_of_invoke (h fuel))
    (fun fuel => callAll_of_invoke (h' fuel)) ?_ ?_
  · rw [hdepth]
    by_cases hm : m.depth = 0
    · rw [if_pos hm, if_pos hm]
      exact (settle_alike hw _).1
    · rw [if_neg hm, if_neg hm]
  · rw [hdepth]
    by_cases hm : m.depth = 0
    · rw [if_pos hm, if_pos hm]
      exact (settle_alike hw _).2
    · rw [if_neg hm, if_neg hm]
      exact hw

lemma alike_of_routine (hl : m.setup.program.labels[name]? = none)
    (hl' : m'.setup.program.labels[name]? = none) (hdepth : m'.depth = m.depth)
    (h : SameWorld care m.world m'.world) : AnswerAlike (SameWorld care) m m' name args := by
  cases hr : Routine.ofName? name with
  | none =>
    refine alike_of_invoke (r := .error (.unresolvedName name)) (fun fuel => ?_) (fun fuel => ?_)
      hdepth h
    · simp only [invoke, hl, hr]
    · simp only [invoke, hl', hr]
  | some r =>
    obtain ⟨filler, hrun', hw⟩ := h.act (Routine.tame_run rootName args r)
    cases hrun : r.run rootName args m.world with
    | ok results w =>
      rw [hrun] at hrun' hw
      refine alike_of_invoke
        (fun fuel => (?_ : _ = some (Except.ok results, { m with world := w })))
        (fun fuel => (?_ : _ = some (_, { m' with world := w.refill filler }))) hdepth hw
      · simp only [invoke, hl, hr, hrun]
      · simp only [invoke, hl', hr, hrun']
        rfl
    | error c w =>
      rw [hrun] at hrun' hw
      refine alike_of_invoke (fun fuel => (?_ : _ = some (Except.error c, { m with world := w })))
        (fun fuel => (?_ : _ = some (_, { m' with world := w.refill filler }))) hdepth hw
      · simp only [invoke, hl, hr, hrun]
      · simp only [invoke, hl', hr, hrun']
        rfl

end

/-! ### Machines for both forms -/

/-- Machines for the two forms of a confined unit, with no call active and in the same world. -/
structure Twins (care : Care) (u : Structured.CodeUnit) (l : Flat.CodeUnit) (m m' : Machine) :
    Prop where
  program : Program.ofUnit u = .ok m.setup.program
  lowered : Flat.CodeUnit.ofStructured u = .ok l
  flat : Program.ofUnit l.lift = .ok m'.setup.program
  confined : ∀ f ∈ u.functions, f.Confined (Callable u)
  named : "" ∉ u.temps
  idle : m.depth = 0
  idle' : m'.depth = 0
  limit : m'.setup.maxDepth = m.setup.maxDepth
  positive : 0 < m.setup.maxDepth
  world : SameWorld care m.world m'.world

section

variable {care : Care} {u : CodeUnit} {l : Flat.CodeUnit} {m m' : Machine}
  {r : Range} {name : String} {args : List Int32}

lemma Twins.settles_flat (h : Twins care u l m m') (hcare : care ≠ .reads) (hf : f ∈ u.functions)
    (hfg : Flat.Lowered (Std.TreeSet.ofList u.temps) (Callable u) f g)
    (hh : Program.Holds m'.setup.program g.lift r)
    (hsaves : care = .fills → ∀ t, Reaches m'.setup (m'.opening r args) t →
      ¬SavesUnset m'.setup.program (Std.TreeSet.ofList u.temps) t) (n : Nat) :
    Settles m'.setup (lowering care) n (m'.opening r args)
      (outerCall u care m.setup.maxDepth n f args m.world) := by
  have hl := Flat.lowered_of_ofStructured h.confined h.lowered
  -- no run from here on saves a register without a value
  refine Lands.settles (Q := fun s => care = .fills → ∀ t, Reaches m'.setup s t →
    ¬SavesUnset m'.setup.program (Std.TreeSet.ofList u.temps) t) ?_ rfl
  have hkeep : ∀ {s s'}, (care = .fills → ∀ t, Reaches m'.setup s t →
      ¬SavesUnset m'.setup.program (Std.TreeSet.ofList u.temps) t) →
      step m'.setup s = .ok .running s' → care = .fills → ∀ t, Reaches m'.setup s' t →
      ¬SavesUnset m'.setup.program (Std.TreeSet.ofList u.temps) t :=
    fun hq hstep hc t ht => hq hc t (Path.head trivial hstep ht)
  have hdepth : (m'.opening r args).depth = 1 := congrArg (· + 1) h.idle'
  have hstrict : (Mode.mk care false).lax = false := rfl
  have hcalls := Flat.lowered_calls hl h.flat h.program h.confined h.named hstrict hcare hkeep
    (fun hc _ hq => hq hc _ (Path.refl _)) n 1 f.name
  have hrun := Flat.lowered_entered hl h.flat h.program h.confined h.named hstrict hcare hkeep
    (fun hc _ hq => hq hc _ (Path.refl _)) (m'.opening r args) args m.world hfg hf hh rfl hsaves
    h.world (by rw [hdepth]; exact hcalls)
  rw [hdepth, h.limit] at hrun
  exact hrun

variable (h : Twins care u l m m') (hcare : care ≠ .reads)
  (hunset : care = .takes → ∀ s, m.During name args s → ¬TakesUnset m.setup.program s)
  (htarget : ∀ {s src c t}, m.During name args s → ReadsTarget m.setup.program src s →
    step m.setup s = .error c t → src.Calm)
  (hsaves : care = .fills → ∀ s, m'.During name args s →
    ¬SavesUnset m'.setup.program (Std.TreeSet.ofList u.temps) s)

include h hcare hunset htarget hsaves

lemma Twins.call_function (hf : u.lookup name = some f) :
    AnswerAlike (SameWorld care) m m' name args := by
  have hl := Flat.lowered_of_ofStructured h.confined h.lowered
  obtain ⟨hmem, rfl⟩ := mem_of_lookup hf
  obtain ⟨f', g, hf', hg, hfg⟩ : ∃ f' g, u.lookup f.name = some f' ∧
      l.lift.lookup f.name = some g.lift ∧ Flat.Lowered _ _ f' g := by
    rcases Flat.lookup_lift hl f.name with ⟨hnone, -⟩ | hboth
    · rw [hf] at hnone
      cases hnone
    · exact hboth
  obtain rfl : f = f' := Option.some.inj (hf.symm.trans hf')
  obtain ⟨hgmem, hgname⟩ := mem_of_lookup hg
  obtain ⟨r, hh, hstart⟩ := start_of_holds args h.program hmem (by rw [h.idle]; exact h.positive)
  obtain ⟨r', hh', hstart'⟩ := start_of_holds args h.flat hgmem
    (by rw [h.idle', h.limit]; exact h.positive)
  have hlabel' := hh'.label
  rw [hgname] at hstart' hlabel'
  refine alike_of_runs hh.label hstart hlabel' hstart' (h.idle'.trans h.idle.symm) fun n => ?_
  refine Settles.both hcare (settles_of_unit h.program h.confined h.idle hmem hh n)
    (h.settles_flat hcare hmem hfg hh' ?_ n)
    (fun hc t ht => hunset hc t ⟨_, _, hh.label, hstart, ht⟩)
    fun ht => htarget ⟨_, _, hh.label, hstart, ht⟩
  exact fun hc t ht => hsaves hc t ⟨_, _, hlabel', hstart', ht⟩

/-- Both machines answer a call alike, be it of a function, of a library routine or of nothing. -/
lemma Twins.call (hname : (u.lookup name).isSome ∨ name ∉ Program.unitNames u) :
    AnswerAlike (SameWorld care) m m' name args := by
  rcases hname with hsome | hnot
  · obtain ⟨f, hf⟩ := Option.isSome_iff_exists.1 hsome
    exact h.call_function hcare hunset htarget hsaves hf
  · have hl := Flat.lowered_of_ofStructured h.confined h.lowered
    have hnone : ∀ {v : CodeUnit} {p : Program}, Program.ofUnit v = .ok p →
        name ∉ Program.unitNames v → p.labels[name]? = none := by
      intro v p hp hn
      rw [← Option.not_isSome_iff_eq_none, ← Program.mem_labels_iff_isSome,
        Program.mem_labels_iff hp]
      exact hn
    exact alike_of_routine (hnone h.program hnot)
      (hnone h.flat (by rwa [Flat.unitNames_lift hl])) (h.idle'.trans h.idle.symm) h.world

end

section

variable {u : CodeUnit} {o : Options} {m : Machine}
  (hconf : ∀ f ∈ u.functions, f.Confined (Callable u)) (hm : ofUnit? (some u) o = .ok m)

include hconf hm

lemma exists_flat : ∃ l m', Flat.CodeUnit.ofStructured u = .ok l ∧ ofFlat? (some l) o = .ok m' := by
  obtain ⟨l, hl⟩ := Flat.ofStructured_succeeds hconf
  have hn : (Program.unitNames l.lift).Nodup := by
    rw [Flat.unitNames_lift (Flat.lowered_of_ofStructured hconf hl)]
    exact Program.nodup_of_ofUnit (program_of_ofUnit? hm)
  obtain ⟨p, hp, hlink⟩ := linked_of_confined hn (Flat.confined_lift hconf hl)
  obtain ⟨m', hm', -⟩ := ofProgram_of_link hlink o
  refine ⟨l, m', hl, ?_⟩
  show (Program.ofUnit l.lift >>= fun p => ofProgram p o) = .ok m'
  rw [hp]
  exact hm'

lemma twins_of_setup (hnamed : "" ∉ u.temps) (hl : Flat.CodeUnit.ofStructured u = .ok l)
    (hm' : ofFlat? (some l) o = .ok m') (care : Care) : Twins care u l m m' := by
  have hp := program_of_ofUnit? hm
  have hp' := program_of_ofFlat? hm'
  have hpos := o.depthLimit_pos
  obtain ⟨p, -, hm⟩ := Except.bind_eq_ok hm
  obtain ⟨_, -, hm⟩ := Except.bind_eq_ok hm
  obtain ⟨p', -, hm'⟩ := Except.bind_eq_ok hm'
  obtain ⟨_, -, hm'⟩ := Except.bind_eq_ok hm'
  cases hm
  cases hm'
  exact ⟨hp, hl, hp', hconf, hnamed, rfl, rfl, rfl, by simpa using hpos, .refl care _⟩

end

lemma AnswerAlike.agree (h : AnswerAlike R m m' name args) (r : Except Error (List Int32)) :
    ((∃ m1, m.EndsWith name args (r, m1)) ↔ ∃ m2, m'.EndsWith name args (r, m2)) ∧
      ∀ m1 m2, m.EndsWith name args (r, m1) → m'.EndsWith name args (r, m2) →
        R m1.world m2.world := by
  refine ⟨⟨fun hex => ?_, fun hex => ?_⟩, fun m1 m2 h1 h2 => ?_⟩
  · obtain ⟨m1, h1⟩ := hex
    obtain ⟨m2, h2, -⟩ := h.there h1
    exact ⟨m2, h2⟩
  · obtain ⟨m2, h2⟩ := hex
    obtain ⟨m1, h1, -⟩ := h.back h2
    exact ⟨m1, h1⟩
  · obtain ⟨m2', h2', hw⟩ := h.there h1
    obtain ⟨fuel, hfuel⟩ := h2'.1
    obtain ⟨-, rfl⟩ := Prod.mk.inj (h2.2 fuel _ hfuel)
    exact hw

/-! ### Outcomes -/

/-- Lowering keeps what a program does. As long as a call of the structured form takes no value of
a register that has none and can read the word that each store is to overwrite, it ends with
an outcome just if the call of the flat form does, with the same output, input and heap. -/
theorem outcomes_agree {p q : Tree.Program} {u : Structured.CodeUnit} {o : Options} {m : Machine}
    (hp : p.resolve = .ok q) (hu : Structured.CodeUnit.ofTree q = .ok u)
    (hnames : ∀ f ∈ q.functions, "" ∉ Structured.Compile.declaredNames f)
    (hm : ofUnit? (some u) o = .ok m) :
    ∃ l m', Flat.CodeUnit.ofStructured u = .ok l ∧ ofFlat? (some l) o = .ok m' ∧
      ∀ name args, (u.lookup name).isSome ∨ name ∉ Program.unitNames u →
        (∀ s, m.During name args s → ¬TakesUnset m.setup.program s) →
        (∀ s src c t, m.During name args s → ReadsTarget m.setup.program src s →
          step m.setup s ≠ .error c t) →
        ∀ r, ((∃ m1, m.EndsWith name args (r, m1)) ↔ ∃ m2, m'.EndsWith name args (r, m2)) ∧
          ∀ m1 m2, m.EndsWith name args (r, m1) → m'.EndsWith name args (r, m2) →
            m2.world.output = m1.world.output ∧ m2.world.input = m1.world.input ∧
              m2.world.heap = m1.world.heap := by
  have hconf := confined_of_ofTree hp hu
  obtain ⟨l, m', hl, hm'⟩ := exists_flat hconf hm
  refine ⟨l, m', hl, hm', fun name args hname hunset htarget r => ?_⟩
  have htwins := twins_of_setup hconf hm (temps_ne_empty hu hnames) hl hm' .takes
  obtain ⟨hiff, hworlds⟩ := (htwins.call (by simp) (fun _ => hunset)
    (fun hs hr hstep => absurd hstep (htarget _ _ _ _ hs hr)) (fun hc => by cases hc) hname).agree r
  refine ⟨hiff, fun m1 m2 h1 h2 => ?_⟩
  have halike := (hworlds m1 m2 h1 h2).alike
  exact ⟨halike.output, halike.input, halike.heap⟩

/-- A program that stores a difference of two calls in an array. -/
def spilling : Tree.Program where
  name := "spilling"
  functions := [
    { name := "twice"
      params := [{ name := "x", type := some .int }]
      returns := [.int]
      body := some { stmts := [.ret {}
        [.binary {} none .add (.ident { name := "x" }) (.ident { name := "x" })]] } },
    { name := "main"
      returns := [.int]
      body := some {
        stmts := [
          .array {} "a" (some (.array .int)) [] [.int {} 5],
          .assign {} (.index {} none (.ident { name := "a" }) (.int {} 0))
            (.binary {} none .sub (.call {} none "twice" [.int {} 3])
              (.call {} none "twice" [.int {} 1])),
          .ret {} [.index {} none (.ident { name := "a" }) (.int {} 0)]] } }]

theorem outcomes_agree_spilling : ∃ q u l m m', spilling.resolve = .ok q ∧
    Structured.CodeUnit.ofTree q = .ok u ∧ Flat.CodeUnit.ofStructured u = .ok l ∧
    ofUnit? (some u) {} = .ok m ∧ ofFlat? (some l) {} = .ok m' ∧
      ∃ m1 m2, m.EndsWith "main" [] (.ok [4], m1) ∧ m'.EndsWith "main" [] (.ok [4], m2) ∧
        m2.world.heap = m1.world.heap := by
  have hrun : (spilling.resolve.toOption.bind fun q =>
    (CodeUnit.ofTree q).toOption.bind fun u =>
    (ofUnit? (some u) {}).toOption.map fun m =>
      decide (∀ f ∈ q.functions, "" ∉ Compile.declaredNames f) &&
        (u.lookup "main").isSome &&
        m.checkCall 100 "main" []
          (fun states => states.all fun s => !decide (TakesUnset m.setup.program s))
          fun r _ => decide (r.toOption = some [4])) = some true := by
    decide +kernel
  simp only [Except.bind_eq_some, Except.map_eq_some] at hrun
  obtain ⟨q, hq, u, hu, m, hm, hrun⟩ := hrun
  simp only [Bool.and_eq_true, decide_eq_true_eq] at hrun
  obtain ⟨⟨hnames, hmain⟩, hrun⟩ := hrun
  obtain ⟨r, m1, states, hends, hr, hway, hduring⟩ := exists_of_checkCall hrun
  obtain rfl := Except.eq_ok_of_toOption (of_decide_eq_true hr)
  obtain ⟨l, m', hl, hm', hagree⟩ := outcomes_agree hq hu hnames hm
  obtain ⟨hiff, hsame⟩ := hagree "main" [] (.inl hmain)
    (fun s hs => by simpa using List.all_eq_true.1 hway s ((hduring s).1 hs))
    (fun s src c t hs _ => step_ne_error hends hs) (.ok [4])
  obtain ⟨m2, hends'⟩ := hiff.1 ⟨_, hends⟩
  exact ⟨q, u, l, m, m', hq, hu, hl, hm, hm', m1, m2, hends, hends', (hsame _ _ hends hends').2.2⟩

/-! ### Stores that fail -/

/-- Stores that cannot read the word they are to overwrite. Where the source has neither calls
nor statements in it, the calls of both forms fail with the same error, after the same output;
as long as the structured form takes no value of a register that has none, or the flat form
saves none. -/
theorem failing_stores_agree {u : Structured.CodeUnit} {o : Options} {m : Machine}
    (hconf : ∀ f ∈ u.functions, f.Confined (Callable u)) (hnamed : "" ∉ u.temps)
    (hm : ofUnit? (some u) o = .ok m) :
    ∃ l m', Flat.CodeUnit.ofStructured u = .ok l ∧ ofFlat? (some l) o = .ok m' ∧
      ∀ name args s c t, (u.lookup name).isSome → m.During name args s →
        (∃ src, ReadsTarget m.setup.program src s) → step m.setup s = .error c t →
        (∀ src, ReadsTarget m.setup.program src s → src.Calm) →
        ((∀ s, m.During name args s → ¬TakesUnset m.setup.program s) ∨
          ∀ s, m'.During name args s →
            ¬SavesUnset m'.setup.program (Std.TreeSet.ofList u.temps) s) →
        ∃ e m1 m2, m.EndsWith name args (.error e, m1) ∧ m'.EndsWith name args (.error e, m2) ∧
          e.code = c.code ∧ m2.world.output = m1.world.output ∧
          m2.world.input = m1.world.input ∧ m2.world.heap = m1.world.heap := by
  obtain ⟨l, m', hl, hm'⟩ := exists_flat hconf hm
  refine ⟨l, m', hl, hm', fun name args s c t hname hs _ hstep hcalm hunset => ?_⟩
  obtain ⟨e, m1, hends, hcode⟩ := failsWith_of_during hs hstep
  -- the call has no other step that fails
  have htarget : ∀ {s1 src c1 t1}, m.During name args s1 → ReadsTarget m.setup.program src s1 →
      step m.setup s1 = .error c1 t1 → src.Calm := by
    intro s1 src c1 t1 hs1 hreads hstep1
    obtain ⟨addr, s0, haddr, hs0, hreach⟩ := hs
    obtain ⟨addr', s0', haddr', hs0', hreach1⟩ := hs1
    obtain rfl : addr = addr' := Option.some.inj (haddr.symm.trans haddr')
    obtain rfl : s0 = s0' := Except.ok.inj (hs0.symm.trans hs0')
    obtain rfl := eq_of_fails hreach hreach1 hstep hstep1
    exact hcalm src hreads
  have hanswer : ∃ care, AnswerAlike (SameWorld care) m m' name args := by
    rcases hunset with htakes | hsaves
    · exact ⟨.takes, (twins_of_setup hconf hm hnamed hl hm' .takes).call (by simp)
        (fun _ => htakes) htarget (fun hc => by cases hc) (.inl hname)⟩
    · exact ⟨.fills, (twins_of_setup hconf hm hnamed hl hm' .fills).call (by simp)
        (fun hc => by cases hc) htarget (fun _ => hsaves) (.inl hname)⟩
  obtain ⟨care, hanswer⟩ := hanswer
  obtain ⟨m2, hends', hw⟩ := hanswer.there hends
  exact ⟨e, m1, m2, hends, hends', hcode, hw.alike.output, hw.alike.input, hw.alike.heap⟩

lemma calm_of_readsTarget (hp : Program.ofUnit u = .ok p)
    (hcalm : ∀ n ∈ u.functions.flatMap fun f => nodes (itemsOf f.body),
      ∀ addr src, n = .stmt (.move (.mem addr) src) → src.Calm) (h : ReadsTarget p src s) :
    src.Calm := by
  obtain ⟨-, addr, -, hmove⟩ := h
  refine hcalm _ ?_ addr src rfl
  rw [← Program.code_of_ofUnit hp]
  exact Array.mem_toList_iff.2 (Array.mem_of_getElem? hmove)

/-- Prints a text of one letter, and then stores the address of the text at the address that a
function gives. -/
def storing : Structured.CodeUnit where
  name := "storing"
  functions := [
    { name := "nowhere", params := [], body := .seq [.ret [.const 2]] },
    { name := "main"
      params := []
      body := .seq [
        .move (.temp "a") (.call (.name "malloc") [.const 8]),
        .move (.mem (.temp "a")) (.const 1),
        .move (.mem (.binop .add (.temp "a") (.const 4))) (.const 65),
        .exp (.call (.name "print") [.binop .add (.temp "a") (.const 4)]),
        .move (.mem (.call (.name "nowhere") [])) (.binop .add (.temp "a") (.const 4))] }]

theorem failing_stores_agree_storing : ∃ l m m', Flat.CodeUnit.ofStructured storing = .ok l ∧
    ofUnit? (some storing) {} = .ok m ∧ ofFlat? (some l) {} = .ok m' ∧
      ∃ e m1 m2, m.EndsWith "main" [] (.error e, m1) ∧ m'.EndsWith "main" [] (.error e, m2) ∧
        e.code = "BAD_ADDRESS" ∧ m1.world.output.sink.delivered.toList = [65] ∧
        m2.world.output = m1.world.output := by
  have hconf : ∀ f ∈ storing.functions, f.Confined (Callable storing) := by
    have hprint : Callable storing "print" := .inr (by decide)
    have hmalloc : Callable storing "malloc" := .inr (by decide)
    have hnowhere : Callable storing "nowhere" := .inl (by decide)
    rintro f hf
    simp only [storing, List.mem_cons, List.not_mem_nil, or_false] at hf
    rcases hf with rfl | rfl
    · refine Function.confined_of_seq rfl ?_
      simp [Stmt.ConfinedAll, Stmt.Confined, Expr.ConfinedAll,
        Expr.Confined]
    · refine Function.confined_of_seq rfl ?_
      simp [Stmt.ConfinedAll, Stmt.Confined, Expr.ConfinedAll,
        Expr.Confined, hprint, hmalloc, hnowhere, BinOp.defined]
  have hcalm : ∀ n ∈ storing.functions.flatMap fun f => nodes (itemsOf f.body),
      ∀ addr src, n = .stmt (.move (.mem addr) src) → src.Calm := by
    rintro _ hn addr src rfl
    simp [storing, nodes, itemsOf, itemsOfAll, itemsOfExpr,
      itemsOfExprs] at hn
    rcases hn with ⟨-, rfl⟩ | ⟨-, rfl⟩ | ⟨-, rfl⟩ <;> simp [Expr.Calm]
  have hrun : ((ofUnit? (some storing) {}).toOption.map fun m =>
    m.checkCall 100 "main" []
      (fun states => (states.all fun s => !decide (TakesUnset m.setup.program s)) &&
        states.any fun s => decide (s.frame.ip = 26 ∧ 26 < s.frame.fn.stop) &&
          decide ((fault? m.setup s).map Fault.code = some "BAD_ADDRESS"))
      fun _ m1 => decide (m1.world.output.sink.delivered.toList = [65])) = some true := by
    decide +kernel
  obtain ⟨m, hm, hrun⟩ := Except.map_eq_some.1 hrun
  obtain ⟨r, m1, states, hends, hout, hway, hduring⟩ := exists_of_checkCall hrun
  obtain ⟨hunset, hfails⟩ := Bool.and_eq_true_iff.1 hway
  obtain ⟨s, hs, hfails⟩ := List.any_eq_true.1 hfails
  obtain ⟨hip, hfails⟩ := Bool.and_eq_true_iff.1 hfails
  obtain ⟨hip, hstop⟩ := of_decide_eq_true hip
  obtain ⟨c, hc, hcode⟩ := Option.map_eq_some_iff.1 (of_decide_eq_true hfails)
  obtain ⟨t, hstep⟩ := step_of_fault? hc
  have hp := program_of_ofUnit? hm
  have hreads : ReadsTarget m.setup.program (.binop .add (.temp "a") (.const 4)) s := by
    refine ⟨by rw [hip]; exact_mod_cast hstop, .call (.name "nowhere") [], ?_, ?_⟩
    · rw [hip, ← Array.getElem?_toList, Program.code_of_ofUnit hp]
      rfl
    · rw [hip, ← Array.getElem?_toList, Program.code_of_ofUnit hp]
      rfl
  obtain ⟨l, m', hl, hm', hagree⟩ := failing_stores_agree hconf (by decide +kernel) hm
  obtain ⟨e, m1', m2, hends1, hends2, hcode', hsame, -⟩ := hagree "main" [] s c t (by decide)
    ((hduring s).2 hs) ⟨_, hreads⟩ hstep (fun src => calm_of_readsTarget hp hcalm)
    (.inl fun s hs => by simpa using List.all_eq_true.1 hunset s ((hduring s).1 hs))
  obtain ⟨fuel, hfuel⟩ := hends.1
  obtain ⟨-, rfl⟩ := Prod.mk.inj (hends1.2 fuel _ hfuel)
  exact ⟨l, m, m', hl, hm, hm', e, m1, m2, hends1, hends2, hcode'.trans hcode,
    of_decide_eq_true hout, hsame⟩

/-- A function that divides by zero, and a store at address zero of what it gives. -/
def stores : Structured.CodeUnit where
  name := "stores"
  functions := [
    { name := "fail", params := [], body := .ret [.binop .div (.const 1) (.const 0)] },
    { name := "main"
      params := []
      body := .seq [.move (.mem (.const 0)) (.call (.name "fail") [])] }]

/-- Lowering moves the calls of a source in front of the read of the target. -/
theorem faults_differ : ∃ l m m', Flat.CodeUnit.ofStructured stores = .ok l ∧
    ofUnit? (some stores) {} = .ok m ∧ ofFlat? (some l) {} = .ok m' ∧
      m.FailsWith "main" [] "NULL_POINTER" ∧ m'.FailsWith "main" [] "DIVISION_BY_ZERO" := by
  have hrun : ((Flat.CodeUnit.ofStructured stores).toOption.bind fun l =>
    (ofUnit? (some stores) {}).toOption.bind fun m =>
    (ofFlat? (some l) {}).toOption.map fun m' =>
      m.checkCall 100 "main" [] (fun _ => true)
        (fun r _ => decide (errorCode? r = some "NULL_POINTER")) &&
      m'.checkCall 100 "main" [] (fun _ => true)
        (fun r _ => decide (errorCode? r = some "DIVISION_BY_ZERO"))) = some true := by
    decide +kernel
  simp only [Except.bind_eq_some, Except.map_eq_some] at hrun
  obtain ⟨l, hl, m, hm, m', hm', hrun⟩ := hrun
  obtain ⟨hcheck, hcheck'⟩ := Bool.and_eq_true_iff.1 hrun
  exact ⟨l, m, m', hl, hm, hm', failsWith_of_checkCall hcheck, failsWith_of_checkCall hcheck'⟩

/-! ### Fillers -/

/-- Both forms fill registers that have no value alike, as long as the flat form never saves such
a register, and the source of a store whose target cannot be read has neither calls nor
statements in it: calls end with the same outcome and in the same world, with the same source
of fillers. -/
theorem fillers_agree {p q : Tree.Program} {u : Structured.CodeUnit} {o : Options} {m : Machine}
    (hp : p.resolve = .ok q) (hu : Structured.CodeUnit.ofTree q = .ok u)
    (hnames : ∀ f ∈ q.functions, "" ∉ Structured.Compile.declaredNames f)
    (hm : ofUnit? (some u) o = .ok m) :
    ∃ l m', Flat.CodeUnit.ofStructured u = .ok l ∧ ofFlat? (some l) o = .ok m' ∧
      ∀ name args, (u.lookup name).isSome ∨ name ∉ Program.unitNames u →
        (∀ s, m'.During name args s →
          ¬SavesUnset m'.setup.program (Std.TreeSet.ofList u.temps) s) →
        (∀ s src c t, m.During name args s → ReadsTarget m.setup.program src s →
          step m.setup s = .error c t → src.Calm) →
        ∀ r, ((∃ m1, m.EndsWith name args (r, m1)) ↔ ∃ m2, m'.EndsWith name args (r, m2)) ∧
          ∀ m1 m2, m.EndsWith name args (r, m1) → m'.EndsWith name args (r, m2) →
            m2.world = m1.world := by
  have hconf := confined_of_ofTree hp hu
  obtain ⟨l, m', hl, hm'⟩ := exists_flat hconf hm
  refine ⟨l, m', hl, hm', fun name args hname hsaves htarget r => ?_⟩
  have htwins := twins_of_setup hconf hm (temps_ne_empty hu hnames) hl hm' .fills
  obtain ⟨hiff, hworlds⟩ := (htwins.call (by simp) (fun hc => by cases hc)
    (fun hs hr hstep => htarget _ _ _ _ hs hr hstep) (fun _ => hsaves) hname).agree r
  exact ⟨hiff, fun m1 m2 h1 h2 => (hworlds m1 m2 h1 h2).filler rfl⟩

/-- A function that gives a variable without a value, and one with a variable of its own that has
none. -/
def drawing (value : Tree.Expr) : Tree.Program where
  name := "drawing"
  functions := [
    { name := "draw"
      returns := [.int]
      body := some { stmts := [
        .var {} "y" (some .int) none,
        .ret {} [.ident { name := "y" }]] } },
    { name := "main"
      returns := [.int]
      body := some { stmts := [
        .var {} "x" (some .int) none,
        .ret {} [value]] } }]

def drawnFirst : Tree.Expr :=
  .binary {} none .sub (.call {} none "draw" []) (.ident { name := "x" })

theorem fillers_agree_drawing : ∃ q u l m m', (drawing drawnFirst).resolve = .ok q ∧
    Structured.CodeUnit.ofTree q = .ok u ∧ Flat.CodeUnit.ofStructured u = .ok l ∧
    ofUnit? (some u) {} = .ok m ∧ ofFlat? (some l) {} = .ok m' ∧
      ∃ m1 m2, m.EndsWith "main" [] (.ok [-554842202], m1) ∧
        m'.EndsWith "main" [] (.ok [-554842202], m2) ∧ m2.world = m1.world := by
  have hrun : ((drawing drawnFirst).resolve.toOption.bind fun q =>
    (CodeUnit.ofTree q).toOption.bind fun u =>
    (Flat.CodeUnit.ofStructured u).toOption.bind fun l =>
    (ofUnit? (some u) {}).toOption.bind fun m =>
    (ofFlat? (some l) {}).toOption.map fun m' =>
      decide (∀ f ∈ q.functions, "" ∉ Compile.declaredNames f) &&
        (u.lookup "main").isSome &&
        (m.checkCall 100 "main" [] (fun _ => true)
          fun r _ => decide (r.toOption = some [-554842202])) &&
        m'.checkCall 100 "main" []
          (fun states => states.all fun s =>
            !decide (SavesUnset m'.setup.program (Std.TreeSet.ofList u.temps) s))
          fun _ _ => true) = some true := by
    decide +kernel
  simp only [Except.bind_eq_some, Except.map_eq_some] at hrun
  obtain ⟨q, hq, u, hu, l, hl, m, hm, m', hm', hrun⟩ := hrun
  simp only [Bool.and_eq_true, decide_eq_true_eq] at hrun
  obtain ⟨⟨⟨hnames, hmain⟩, hcheck⟩, hcheck'⟩ := hrun
  obtain ⟨r, m1, -, hends, hr, -, -⟩ := exists_of_checkCall hcheck
  obtain rfl := Except.eq_ok_of_toOption (of_decide_eq_true hr)
  obtain ⟨-, -, states, -, -, hway, hduring⟩ := exists_of_checkCall hcheck'
  obtain ⟨l0, m0, hl0, hm0, hagree⟩ := fillers_agree hq hu hnames hm
  obtain rfl : l = l0 := Except.ok.inj (hl.symm.trans hl0)
  obtain rfl : m' = m0 := Except.ok.inj (hm'.symm.trans hm0)
  obtain ⟨hiff, hsame⟩ := hagree "main" [] (.inl hmain)
    (fun s hs => by simpa using List.all_eq_true.1 hway s ((hduring s).1 hs))
    (fun s src c t hs _ hstep => absurd hstep (step_ne_error hends hs)) (.ok [-554842202])
  obtain ⟨m2, hends'⟩ := hiff.1 ⟨_, hends⟩
  exact ⟨q, u, l, m, m', hq, hu, hl, hm, hm', m1, m2, hends, hends', hsame _ _ hends hends'⟩

/-- The variable is read, but its value is taken after the call; unless it is saved. -/
def drawnLast : Tree.Expr :=
  .binary {} none .sub (.ident { name := "x" }) (.call {} none "draw" [])

/-- Lowering saves the variable before the call, so it takes the first filler there. -/
theorem fillers_differ : ∃ q u l m m', (drawing drawnLast).resolve = .ok q ∧
    Structured.CodeUnit.ofTree q = .ok u ∧ Flat.CodeUnit.ofStructured u = .ok l ∧
    ofUnit? (some u) {} = .ok m ∧ ofFlat? (some l) {} = .ok m' ∧
      (∃ m1, m.EndsWith "main" [] (.ok [554842202], m1)) ∧
      ∃ m2, m'.EndsWith "main" [] (.ok [-554842202], m2) := by
  have hrun : ((drawing drawnLast).resolve.toOption.bind fun q =>
    (CodeUnit.ofTree q).toOption.bind fun u =>
    (Flat.CodeUnit.ofStructured u).toOption.bind fun l =>
    (ofUnit? (some u) {}).toOption.bind fun m =>
    (ofFlat? (some l) {}).toOption.map fun m' =>
      (m.checkCall 100 "main" [] (fun _ => true)
        fun r _ => decide (r.toOption = some [554842202])) &&
      m'.checkCall 100 "main" [] (fun _ => true)
        fun r _ => decide (r.toOption = some [-554842202])) = some true := by
    decide +kernel
  simp only [Except.bind_eq_some, Except.map_eq_some] at hrun
  obtain ⟨q, hq, u, hu, l, hl, m, hm, m', hm', hrun⟩ := hrun
  obtain ⟨hcheck, hcheck'⟩ := Bool.and_eq_true_iff.1 hrun
  obtain ⟨r, m1, -, hends, hr, -, -⟩ := exists_of_checkCall hcheck
  obtain ⟨r', m2, -, hends', hr', -, -⟩ := exists_of_checkCall hcheck'
  rw [Except.eq_ok_of_toOption (of_decide_eq_true hr)] at hends
  rw [Except.eq_ok_of_toOption (of_decide_eq_true hr')] at hends'
  exact ⟨q, u, l, m, m', hq, hu, hl, hm, hm', ⟨m1, hends⟩, m2, hends'⟩

end TreeMachine.Machine
