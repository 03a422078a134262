import TreeMachine.Proofs.Following

/-!
# The machine follows whole calls

A function of a unit runs as the evaluation of its body says, and so, by induction on the
budget, do all calls. What a call from outside gives is then what the evaluation gives.

The states that a run leaves are `Proper`: the running frame is inside its function, the
operand stack is as high as the code says, and the next node finds the operands it takes
above the frame's base.
-/

open List

namespace TreeMachine.Machine

open Structured
open Linear

/-! ### Proper states -/

/-- An address is in the trap of a function: at its label or after it, where nothing jumps. -/
def InTrap (p : Program) (r : Range) (a : Nat) : Prop :=
  ∃ b, p.labels[trapOf r.name]? = some b ∧ b ≤ a ∧ ∀ {a' n}, b ≤ a' → a' < r.stop →
    p.code[a']? = some n → ¬Linear.IsJump n

lemma InTrap.le (h : InTrap p r a) (hle : a ≤ a') : InTrap p r a' := by
  obtain ⟨b, hb, hba, hcalm⟩ := h
  exact ⟨b, hb, le_trans hba hle, hcalm⟩

/-- The running frame is in order. Only a jump to the trap may leave operands behind, and then
the frame does not leave the trap. -/
structure Proper (p : Program) (care : Care) (s : State) : Prop where
  start_le : (s.frame.fn.start : Int) ≤ s.frame.ip
  le_stop : s.frame.ip ≤ s.frame.fn.stop
  level : ∃ junk : Nat, (s.operands.height : Int) =
      s.frame.base + junk + (p.level s.frame.ip.toNat - p.level s.frame.fn.start) ∧
    (junk = 0 ∨ InTrap p s.frame.fn s.frame.ip.toNat)
  base_le : s.frame.base ≤ s.operands.height
  pops_le : s.frame.ip < s.frame.fn.stop → ∀ {n}, p.code[s.frame.ip.toNat]? = some n →
    s.frame.base + pops n ≤ s.operands.height
  clean : care ≠ .fills → ¬TakesUnset p s

section

variable {M : Setup} {Q : State → Prop} {cx : Context} {ok : String → Prop} {s0 : State}
  {f : Function} {r : Range} {args : List Int32}

/-- A state of a frame that was entered in `s0` is proper if its stack is at the level of its
address. -/
lemma proper_of_level (hbase : s0.frame.base = s0.operands.height) (hlo : s0.frame.fn.start ≤ lo)
    (hground : s0.operands.items <:+ G.items)
    (hjunk : G = s0.operands ∨ InTrap M.program s0.frame.fn lo) (ha : lo ≤ a)
    (hstop : a ≤ s0.frame.fn.stop) (hl : Level M.program s0 G a S)
    (hpops : a < s0.frame.fn.stop → ∀ {n}, M.program.code[a]? = some n →
      G.height + pops n ≤ S.height)
    (hclean : care ≠ .fills → a < s0.frame.fn.stop → ∀ {n}, M.program.code[a]? = some n →
      ∀ name, .reg name none ∉ S.items.take (takes n)) :
    Proper M.program care (s0.stand a ρ S t) := by
  have hle := Operands.height_le_of_suffix hground
  have hh := hl.height
  refine ⟨?_, ?_, ⟨G.height - s0.operands.height, ?_, ?_⟩, ?_, ?_, ?_⟩
  · simp only [State.stand_fn, State.stand_ip]; omega
  · simp only [State.stand_fn, State.stand_ip]; omega
  · simp only [State.stand_operands, State.stand_ip, State.stand_fn, Int.toNat_natCast]
    show (S.height : Int) = s0.frame.base + _ + _
    omega
  · rcases hjunk with rfl | htrap
    · exact .inl (Nat.sub_self _)
    · exact .inr (htrap.le (by simpa only [State.stand_ip, Int.toNat_natCast] using ha))
  · have := hl.le
    show s0.frame.base ≤ S.height
    omega
  · intro hlt n hn
    simp only [State.stand_ip, State.stand_fn, Int.toNat_natCast] at hlt hn
    have := hpops (by omega) hn
    show s0.frame.base + pops n ≤ S.height
    omega
  · rintro hc ⟨hlt, n, name, hn, hm⟩
    simp only [State.stand_ip, State.stand_fn, Int.toNat_natCast] at hlt hn
    exact hclean hc (by omega) hn name hm

/-- What holds while a function runs, from the state in which it was entered. -/
structure Entry (M : Setup) (Q : State → Prop) (cx : Context) (ok : String → Prop) (r : Range)
    (s0 : State) : Prop where
  strict : cx.mode.lax = false
  watch : ∀ {s}, Proper M.program cx.mode.care s → Q s
  fn : s0.frame.fn = r
  base : s0.frame.base = s0.operands.height
  calls : Calls M Q (faithful M.program cx.mode.care) cx.budget ok r.name s0.depth cx.call

lemma Entry.scene (h : Entry M Q cx ok r s0) (hlo : r.start ≤ lo)
    (hground : s0.operands.items <:+ G.items) (hjunk : G = s0.operands ∨ InTrap M.program r lo) :
    Scene M Q cx ok s0 G lo := by
  obtain ⟨hstrict, hwatch, rfl, hbase, hcalls⟩ := h
  refine ⟨hstrict, hlo, hground, ?_, hcalls⟩
  intro a ρ S t n hle hlt hn hl hpops hclean
  refine hwatch (proper_of_level hbase hlo hground hjunk hle (le_of_lt hlt) hl ?_ ?_)
  · intro _ m hm
    obtain rfl := Option.some.inj (hn.symm.trans hm)
    exact hpops
  · intro hc _ m hm
    obtain rfl := Option.some.inj (hn.symm.trans hm)
    exact hclean hc

/-- The positions in the list of a function's statements. The stack is as it was on entry; in
the trap there may be more on it. -/
def Along (p : Program) (s0 : State) (a len : Nat) (all : List Stmt) (i : Nat) (ρ : Env)
    (s : State) : Prop :=
  ∃ S t, s = s0.stand (a + extent (itemsOfAll (all.take i))) ρ S t ∧
    (S = s0.operands ∨ len ≤ i ∧ s0.operands.items <:+ S.items ∧
      InTrap p s0.frame.fn (a + extent (itemsOfAll (all.take i))))

lemma extent_take_le {ss : List Stmt} (h : i ≤ j) :
    extent (itemsOfAll (ss.take i)) ≤ extent (itemsOfAll (ss.take j)) := by
  obtain ⟨k, rfl⟩ := Nat.exists_eq_add_of_le h
  rw [take_add, itemsOfAll_append, extent_append]
  omega

section

variable {ss ts : List Stmt} {esc : List String} {a : Nat}
  (h : Entry M Q cx ok r s0) (ha : a = r.start)
  (hs : Site M.program s0 a a (itemsOfAll (ss ++ ts)))

include h ha hs

lemma Entry.before (hss : Stmt.ConfinedAll ok esc (labelsIn ss) ss)
    (hesc : ∀ l ∈ esc, (M.program.labels[l]?).isSome) (hi : (ss ++ ts)[i]? = some st)
    (hlt : i < ss.length) :
    Lands M Q cx.budget (leaving M Q cx.mode.care s0 esc (labelsIn ss) s0.operands)
      (fun _ => Along M.program s0 a ss.length (ss ++ ts) (i + 1))
      (s0.stand (a + extent (itemsOfAll ((ss ++ ts).take i))) ρ s0.operands t)
      (st.eval cx ρ) := by
  obtain ⟨hst, hbefore, hext⟩ := hs.nth hi
  have hmem : st ∈ ss := by
    rw [List.getElem?_append_left hlt] at hi
    exact mem_of_getElem? hi
  have sc : Scene M Q cx ok s0 s0.operands a :=
    h.scene (le_of_eq ha.symm) (suffix_refl _) (.inl rfl)
  have hl : Level M.program s0 s0.operands a s0.operands :=
    ⟨suffix_refl _, by rw [h.fn, ha]; omega⟩
  refine (follows_stmts sc hesc ss hss (fun l hl => ?_) st hmem hst (hl.stmts hbefore)).imp
    (.refl _) ?_
  · refine isSome_of_mem_labelsIn hs.placed ?_
    rw [labelsIn_append]
    exact mem_append_left _ hl
  · rintro _ ρ' _ - ⟨t', rfl⟩
    exact ⟨_, t', by rw [hext, add_assoc], .inl rfl⟩

lemma Entry.trap (hg : ok g) (hts : ts = trapEnd r.name g)
    (hin : InTrap M.program r (a + extent (itemsOfAll ((ss ++ ts).take ss.length))))
    (hS : s0.operands.items <:+ S.items) :
    Lands M Q cx.budget (leaving M Q cx.mode.care s0 esc (labelsIn ss) s0.operands)
      (fun _ => Along M.program s0 a ss.length (ss ++ ts) (ss.length + 2))
      (s0.stand (a + extent (itemsOfAll ((ss ++ ts).take (ss.length + 1)))) ρ S t)
      (Stmt.eval cx (.exp (.call (.name g) [])) ρ) := by
  have hi : (ss ++ ts)[ss.length + 1]? = some (.exp (.call (.name g) [])) := by
    simp [hts, trapEnd]
  have hlabel : (ss ++ ts)[ss.length]? = some (.label (trapOf r.name)) := by simp [hts, trapEnd]
  obtain ⟨hst, hbefore, hext⟩ := hs.nth hi
  have hsame : extent (itemsOfAll ((ss ++ ts).take (ss.length + 1))) =
      extent (itemsOfAll ((ss ++ ts).take ss.length)) := by
    rw [(hs.nth hlabel).2.2]
    rfl
  generalize hb : a + extent (itemsOfAll ((ss ++ ts).take (ss.length + 1))) = b at *
  have hb_in : InTrap M.program r b := hin.le (by omega)
  have sc : Scene M Q cx ok s0 S b := h.scene (by omega) hS (.inr hb_in)
  have hl : Level M.program s0 S b S := by
    refine ⟨suffix_refl _, ?_⟩
    have := hbefore.level
    rw [gain_itemsOfAll, hb] at this
    rw [h.fn, ← ha]
    omega
  have hrun : FollowsStmt M Q cx s0 S b [] [] (.exp (.call (.name g) [])) :=
    sc.exp (sc.callExpr hg Scene.nil)
  refine (hrun ⟨hst.placed, le_refl b, hst.le_stop⟩ hl).imp ⟨?_, id, id, id, id⟩ ?_
  · rintro l ρ' _ ⟨_, _, _, _, _, ⟨hl, -⟩ | ⟨hl, -⟩⟩ <;> simp at hl
  · rintro _ ρ' _ - ⟨t', rfl⟩
    refine ⟨S, t', by rw [hext, ← add_assoc, hb], .inr ⟨by omega, hS, ?_⟩⟩
    rw [h.fn, hext, ← add_assoc, hb]
    exact hb_in.le (Nat.le_add_right _ _)

lemma Entry.passes (hss : Stmt.ConfinedAll ok esc (labelsIn ss) ss)
    (hts : esc = [] ∧ ts = [] ∨ ∃ g, ok g ∧ esc = [trapOf r.name] ∧ ts = trapEnd r.name g ∧
      trapOf r.name ∉ labelsIn ss)
    (hin : ts ≠ [] → InTrap M.program r (a + extent (itemsOfAll ((ss ++ ts).take ss.length)))) :
    Passes M Q cx cx.budget (leaving M Q cx.mode.care s0 esc (labelsIn ss) s0.operands) (ss ++ ts)
      (Along M.program s0 a ss.length (ss ++ ts)) := by
  have htrap : ∀ l ∈ esc, l = trapOf r.name := by
    rcases hts with ⟨rfl, -⟩ | ⟨g, -, rfl, -⟩ <;> simp
  have hesc : ∀ l ∈ esc, l ∉ labelsIn ss ∧ (M.program.labels[l]?).isSome := by
    rcases hts with ⟨rfl, -⟩ | ⟨g, -, rfl, rfl, hnot⟩
    · simp
    · intro l hl
      obtain rfl := List.mem_singleton.1 hl
      exact ⟨hnot, isSome_of_mem_labelsIn hs.placed (by simp [mem_labelsIn, trapEnd])⟩
  refine ⟨?_, ?_⟩
  · rintro i st ρ _ hi ⟨S, t, rfl, hS⟩
    by_cases hlt : i < ss.length
    · obtain rfl := hS.resolve_right fun h => by omega
      exact h.before ha hs hss (fun l hl => (hesc l hl).2) hi hlt
    · rcases hts with ⟨rfl, rfl⟩ | ⟨g, hg, rfl, hts, -⟩
      · rw [List.append_nil] at hi
        exact absurd (List.getElem?_eq_some_iff.1 hi).1 hlt
      · have hsuf : s0.operands.items <:+ S.items :=
          hS.elim (fun h => h ▸ List.suffix_refl _) (·.2.1)
        rw [List.getElem?_append_right (by omega), hts] at hi
        match hj : i - ss.length with
        | 0 =>
          obtain rfl : st = .label (trapOf r.name) := by simpa [hj, trapEnd] using hi.symm
          obtain rfl : i = ss.length := by omega
          have hlabel : (ss ++ ts)[ss.length]? = some (.label (trapOf r.name)) := by
            simp [hts, trapEnd]
          have hext := (hs.nth hlabel).2.2
          refine .done ⟨S, t, by rw [hext]; rfl, .inr ⟨by omega, hsuf, ?_⟩⟩
          rw [h.fn]
          exact (hin (by simp [hts, trapEnd])).le (by omega)
        | 1 =>
          obtain rfl : st = .exp (.call (.name g) []) := by simpa [hj, trapEnd] using hi.symm
          obtain rfl : i = ss.length + 1 := by omega
          exact h.trap ha hs hg hts (hin (by simp [hts, trapEnd])) hsuf
        | j + 2 => simp [hj, trapEnd] at hi
  · rintro i l ρ _ hi ⟨b, S, t, hb, rfl, hor⟩
    have haddr := address_of_label hs.placed hi
    rw [haddr] at hb
    obtain rfl := Option.some.inj hb
    refine ⟨S, t, rfl, hor.imp (·.2) fun ⟨hl, hS⟩ => ?_⟩
    -- the label is the trap's, so it does not stand before the trap
    have hle : ss.length ≤ i := by
      refine Nat.le_of_not_lt fun hlt => (hesc l hl).1 ?_
      rw [List.getElem?_append_left hlt] at hi
      exact mem_labelsIn.2 (List.mem_of_getElem? hi)
    have hne : ts ≠ [] := by
      rintro rfl
      rw [List.append_nil] at hi
      have := (List.getElem?_eq_some_iff.1 hi).1
      omega
    refine ⟨hle, hS, ?_⟩
    rw [h.fn]
    refine (hin hne).le (Nat.add_le_add_left ?_ a)
    exact extent_take_le hle

end

lemma Entry.body (h : Entry M Q cx ok r s0) (hf : f.Confined ok)
    (hh : Program.Holds M.program f r) :
    Lands M Q cx.budget
      { leaving M Q cx.mode.care s0 [] [] s0.operands with go := fun _ _ _ => False }
      (fun _ ρ' s => Q s ∧ ∃ S t, s = s0.stand r.stop ρ' S t ∧ s0.operands.items <:+ S.items)
      (s0.stand r.start ρ s0.operands s0.trace) (f.body.eval cx ρ) := by
  obtain ⟨ss, esc, ts, hbody, hss, hts⟩ := hf
  rw [← hh.name] at hts
  have hsite : Site M.program s0 r.start r.start (itemsOf (.seq (ss ++ ts))) :=
    ⟨hbody ▸ hh.placed, le_rfl, by simp only [h.fn, hh.stop, hbody, le_refl]⟩
  have hstop : r.stop = r.start + extent (itemsOfAll (ss ++ ts)) + 1 := by
    rw [hh.stop, hbody, itemsOf, extent_append]
    rfl
  rw [itemsOf] at hsite
  obtain ⟨hs1, hs2⟩ := hsite.append
  have hin : ts ≠ [] → InTrap M.program r
      (r.start + extent (itemsOfAll ((ss ++ ts).take ss.length))) := by
    intro hne
    obtain ⟨g, -, -, rfl, -⟩ := hts.resolve_left fun h => hne h.2
    rw [take_left]
    have hplaced := hsite.placed
    rw [itemsOfAll_append, append_assoc] at hplaced
    have hlabel : (ss ++ trapEnd r.name g)[ss.length]? = some (.label (trapOf r.name)) := by
      simp [trapEnd]
    have haddr := address_of_label hs1.placed hlabel
    rw [take_left] at haddr
    refine ⟨_, haddr, le_rfl, fun {a' n} hle hlt hn => ?_⟩
    have hmem := hplaced.append.2.mem_nodes hle (by
      rw [hstop, itemsOfAll_append, extent_append] at hlt
      rw [extent_append]
      simp only [extent]
      omega) hn
    simp only [trapEnd, itemsOfAll, itemsOf, itemsOfExpr, itemsOfExprs,
      nodes, nil_append, cons_append, List.append_nil, mem_cons,
      not_mem_nil, or_false] at hmem
    rcases hmem with rfl | rfl | rfl | rfl <;> simp [IsJump]
  rw [hbody]
  refine ((h.passes rfl hs1 hss hts hin).seq ?_ ⟨id, id, id, id, id⟩ le_rfl
    ⟨s0.operands, s0.trace, by simp [itemsOfAll, extent], .inl rfl⟩).andThen (.refl _) ?_
  · -- every label that can be gone to stands in the list
    rintro l ρ _ hl ⟨b, S, t, hb, rfl, hor⟩
    rw [labelsIn_append, mem_append, not_or] at hl
    rcases hor with ⟨hmem, -⟩ | ⟨hmem, -⟩
    · exact hl.1 hmem
    · rcases hts with ⟨rfl, -⟩ | ⟨g, -, rfl, rfl, -⟩
      · simp at hmem
      · refine hl.2 ?_
        rw [mem_singleton.1 hmem]
        simp [mem_labelsIn, trapEnd]
  · rintro _ ρ' _ - ⟨S, t, rfl, hS⟩
    rw [take_length] at hS ⊢
    have hsuf : s0.operands.items <:+ S.items := hS.elim (fun h => h ▸ suffix_refl _) (·.2.1)
    have hjunk : S = s0.operands ∨ InTrap M.program s0.frame.fn
        (r.start + extent (itemsOfAll (ss ++ ts))) := hS.imp id (·.2.2)
    have sc : Scene M Q cx ok s0 S (r.start + extent (itemsOfAll (ss ++ ts))) :=
      h.scene (Nat.le_add_right _ _) hsuf (h.fn ▸ hjunk)
    have hs2' : Site M.program s0 (r.start + extent (itemsOfAll (ss ++ ts)))
        (r.start + extent (itemsOfAll (ss ++ ts))) [.node (.stmt (.seq (ss ++ ts)))] :=
      ⟨hs2.placed, le_rfl, hs2.le_stop⟩
    have hl : Level M.program s0 S (r.start + extent (itemsOfAll (ss ++ ts))) S := by
      refine ⟨suffix_refl _, ?_⟩
      have := hs1.placed.level
      rw [gain_itemsOfAll] at this
      rw [h.fn]
      omega
    have hl' : Level M.program s0 S r.stop S := by
      refine ⟨suffix_refl _, ?_⟩
      have := Program.level_succ hs2.code
      have hh := hl.height
      rw [hstop, this]
      simp only [effect, pushes, pops]
      omega
    refine sc.next hs2' (sc.watched hs2' hl hl.le (by simp [takes])) exec_seq (.done ?_)
    rw [← hstop]
    have hlo : s0.frame.fn.start ≤ r.start + extent (itemsOfAll (ss ++ ts)) := by rw [h.fn]; omega
    have hend : r.stop = s0.frame.fn.stop := by rw [h.fn]
    refine ⟨h.watch (proper_of_level h.base hlo hsuf hjunk (by omega)
      (le_of_eq hend) hl' (fun hlt => absurd hend (ne_of_lt hlt)) fun _ hlt =>
        absurd hend (ne_of_lt hlt)), S, t, rfl, hsuf⟩

lemma stand_of_newFrame (hframe : s0.frame = newFrame r r.start args s0.operands.height) :
    s0.stand r.start { regs := Registers.setAll {} argReg 1 args, world := s0.world }
      s0.operands s0.trace = s0 := by
  obtain ⟨world, operands, frame, waiting, depth, trace⟩ := s0
  obtain rfl : frame = newFrame r r.start args operands.height := hframe
  rfl

/-- The machine follows the run of a confined function. -/
lemma follows_function (h : Entry M Q cx ok r s0) (hf : f.Confined ok)
    (hh : Program.Holds M.program f r)
    (hframe : s0.frame = newFrame r r.start args s0.operands.height) :
    Lands M Q cx.budget (outside M Q (faithful M.program cx.mode.care))
      (Returns M Q (faithful M.program cx.mode.care) s0) s0 (f.run cx args s0.world) := by
  obtain ⟨k, s, hsteps, hm⟩ := h.body hf hh
    (ρ := { regs := Registers.setAll {} argReg 1 args, world := s0.world })
  rw [stand_of_newFrame hframe] at hsteps
  refine ⟨k, s, hsteps, ?_⟩
  unfold Function.run
  split
  · next hr =>
    rw [hr] at hm
    obtain ⟨hq, S, t, rfl, hS⟩ := hm
    exact ⟨hq, _, step_stop (by rw [h.fn]), rfl, rfl, rfl, h.base, hS⟩
  · next hr =>
    rw [hr] at hm
    obtain ⟨hq, b, S, t, hstep, hS⟩ := hm
    exact ⟨hq, _, hstep, rfl, rfl, rfl, h.base, hS⟩
  · next stop ρ' hne hr =>
    rw [hr] at hm
    cases stop with
    | leave vs => exact absurd rfl (hne vs)
    | goto l => exact hm.2.elim
    | fault c => exact hm
    | target c src => exact fun _ => hm
    | unset => exact hm
    | exhausted => exact hm

/-! ### Units -/

/-- What the code of a unit may call: its functions, and the routines that no function or label
of the unit hides. -/
def Callable (u : CodeUnit) (f : String) : Prop :=
  (u.lookup f).isSome ∨ (Routine.ofName? f).isSome ∧ f ∉ Linear.Program.unitNames u

lemma mem_of_lookup {u : CodeUnit} {g : Function} (h : u.lookup name = some g) :
    g ∈ u.functions ∧ g.name = name := by
  unfold CodeUnit.lookup at h
  exact ⟨List.mem_of_find?_eq_some h, by simpa using List.find?_some h⟩

lemma mem_unitNames (h : g ∈ u.functions) : g.name ∈ Program.unitNames u :=
  mem_flatMap.2 ⟨g, h, mem_cons_self⟩

section

variable {u : CodeUnit} {name : String} (hp : Program.ofUnit u = .ok M.program)

include hp

lemma Callable.function (h : Callable u name) (hl : M.program.labels[name]? = some addr) :
    ∃ g r, u.lookup name = some g ∧ g ∈ u.functions ∧ Program.Holds M.program g r ∧
      r.start = addr ∧ callee M.program name addr = .ok r := by
  have hmem : name ∈ Program.unitNames u :=
    (Program.mem_labels_iff hp name).1 ((Program.mem_labels_iff_isSome _ _).2 (by simp [hl]))
  obtain ⟨g, hg⟩ := Option.isSome_iff_exists.1 (h.resolve_right fun h => h.2 hmem)
  obtain ⟨hgm, rfl⟩ := mem_of_lookup hg
  obtain ⟨r, hr, hh⟩ := Program.holds_of_ofUnit hp hgm
  have haddr : r.start = addr := Option.some.inj (hh.label.symm.trans hl)
  exact ⟨g, r, hg, hgm, hh, haddr, by simp [callee, hr, haddr]⟩

lemma Callable.routine (h : Callable u name) (hl : M.program.labels[name]? = none) :
    u.lookup name = none ∧ ∃ r, Routine.ofName? name = some r := by
  have hnone : u.lookup name = none := by
    cases hg : u.lookup name with
    | none => rfl
    | some g =>
      obtain ⟨hgm, rfl⟩ := mem_of_lookup hg
      obtain ⟨r, -, hh⟩ := Program.holds_of_ofUnit hp hgm
      rw [hh.label] at hl
      cases hl
  refine ⟨hnone, Option.isSome_iff_exists.1 (h.resolve_left (by simp [hnone])).1⟩

lemma calls_of_enter {mode : Mode} {budget depth : Nat} {caller : String}
    (henter : ∀ {g r s s1 vs}, g ∈ u.functions → Program.Holds M.program g r → Q s1 →
      step M s1 = .ok .running (entered M s r r.start vs) → s.depth = depth →
      u.lookup g.name = some g → depth < M.maxDepth →
      Lands M Q budget (outside M Q (faithful M.program mode.care))
        (Returns M Q (faithful M.program mode.care) (entered M s r r.start vs)) s1
        (u.call mode M.maxDepth budget depth caller g.name vs s.world)) :
    Calls M Q (faithful M.program mode.care) budget (Callable u) caller depth
      (u.call mode M.maxDepth budget depth caller) where
  routine := by
    rintro f w _ vs hf hl rfl
    obtain ⟨hnone, r, hr⟩ := hf.routine hp hl
    refine ⟨r, hr, ?_⟩
    rw [CodeUnit.call]
    simp only [hnone, callRoutine, hr]
    cases hrun : r.run caller vs w with
    | ok results w1 => exact ⟨w1, rfl, rfl⟩
    | error c w1 => exact ⟨c, w1, rfl, ⟨rfl, Routine.expected_of_run hrun⟩, rfl⟩
  entry := by
    intro f addr hf hl
    obtain ⟨g, r, -, -, -, -, hr⟩ := hf.function hp hl
    exact ⟨r, hr⟩
  deep := by
    intro f addr vs w hf hl hdeep
    obtain ⟨g, r, hg, -⟩ := hf.function hp hl
    refine ⟨⟨rfl, trivial⟩, ?_⟩
    rw [CodeUnit.call]
    simp only [hg, hdeep, if_true]
    rfl
  enter := by
    rintro f vs _ addr fn s s1 hf hl hfn hdepth hs rfl hq hstep
    obtain ⟨g, r, hg, hgm, hh, rfl, hr⟩ := hf.function hp hl
    obtain rfl : fn = r := Except.ok.inj (hfn.symm.trans hr)
    obtain ⟨-, rfl⟩ := mem_of_lookup hg
    exact henter hgm hh hq hstep hs hg hdepth

/-- The machine follows the calls of a confined unit. Entering a function is a step, so each
call pays for the unit of budget that it uses. -/
lemma calls_of_unit (hconf : ∀ f ∈ u.functions, f.Confined (Callable u))
    (hstrict : mode.lax = false) (hQ : ∀ {s}, Proper M.program mode.care s → Q s) (budget : Nat) :
    ∀ depth caller, Calls M Q (faithful M.program mode.care) budget (Callable u) caller depth
      (u.call mode M.maxDepth budget depth caller) := by
  induction budget with
  | zero =>
    refine fun depth caller => calls_of_enter hp ?_
    intro g r s s1 vs _ _ _ _ _ hg hdepth
    have hnd : ¬M.maxDepth ≤ depth := by omega
    rw [CodeUnit.call]
    simp only [hg, hnd, if_false]
    exact .now (le_refl 0)
  | succ budget ih =>
    refine fun depth caller => calls_of_enter hp ?_
    rintro g r s s1 vs hgm hh hq hstep rfl hg hdepth
    have hnd : ¬M.maxDepth ≤ s.depth := by omega
    rw [CodeUnit.call]
    simp only [hg, hnd, if_false]
    refine Lands.later (.head hq hstep (.refl _)) ?_
    refine follows_function (r := r) ⟨hstrict, hQ, rfl, rfl, ?_⟩ (hconf g hgm) hh rfl
    rw [hh.name]
    exact ih (s.depth + 1) g.name

end

end

end TreeMachine.Machine
