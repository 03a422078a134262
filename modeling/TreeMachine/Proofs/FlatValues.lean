import TreeMachine.Proofs.Confined
import TreeMachine.Proofs.Courses
import TreeMachine.Proofs.Inversion

/-!
# Values of flat expressions

A flat expression does nothing but read, and fill registers that it takes the value of. Here
the evaluation of an expression without effects is compared with that of its flat form in an
environment that `Tracks` the first one: it has the same values where there are any, and
where registers are filled it has no others. An operand of the flat side `Stands` for one of
the other, and a whole result `Follows` another one.

Both sides may be the same flat expression. That is how values are handled that are evaluated
later than their place in the code says.
-/

namespace TreeMachine.Flat

open Structured

/-! ### Expressions -/

/-- The expression is one that lowering gives: it names no labels, its operators are defined,
and its registers are as they should be. -/
def Expr.Fits (known : String → Prop) : Expr → Prop
  | .const _ => True
  | .temp r => known r
  | .mem addr => addr.Fits known
  | .name _ => False
  | .binop op left right =>
    op ∈ Structured.BinOp.defined ∧ left.Fits known ∧ right.Fits known
  | .unop _ x => x.Fits known

lemma Expr.Fits.imp (h : ∀ r, known r → known' r) {x : Expr} (hx : x.Fits known) :
    x.Fits known' := by
  induction x with
  | const v => trivial
  | temp r => exact h r hx
  | name l => exact hx
  | mem addr ih => exact ih hx
  | unop op x ih => exact ih hx
  | binop op l r ihl ihr => exact ⟨hx.1, ihl hx.2.1, ihr hx.2.2⟩

lemma Expr.Fits.confined (ok : String → Prop) (esc : List String) {x : Expr} (hx : x.Fits known) :
    x.lift.Confined ok esc := by
  induction x with
  | const v => trivial
  | temp r => trivial
  | name l => exact hx.elim
  | mem addr ih => exact ih hx
  | unop op x ih => exact ih hx
  | binop op l r ihl ihr => exact ⟨hx.1, ihl hx.2.1, ihr hx.2.2⟩

lemma confinedAll_lift (ok : String → Prop) (esc : List String) {xs : List Expr}
    (hxs : ∀ x ∈ xs, x.Fits known) : Structured.Expr.ConfinedAll ok esc (xs.map Expr.lift) := by
  rw [Structured.Expr.confinedAll_iff]
  intro y hy
  obtain ⟨x, hx, rfl⟩ := List.mem_map.1 hy
  exact (hxs x hx).confined ok esc

/-! ### Environments -/

/-- Two worlds are the same, up to the source of fillers if no register is filled. -/
structure SameWorld (care : Care) (w w' : World) : Prop where
  alike : w.Alike w'
  filler : care = .fills → w' = w

lemma SameWorld.refl (care : Care) (w : World) : SameWorld care w w := ⟨.refl w, fun _ => rfl⟩

lemma SameWorld.trans (h : SameWorld care w w1) (h' : SameWorld care w1 w2) : SameWorld care w w2 :=
  ⟨h.alike.trans h'.alike, fun hc => (h'.filler hc).trans (h.filler hc)⟩

lemma SameWorld.act {α : Type} {a : Act α} (h : SameWorld care w w') (ha : a.Tame) :
    ∃ f, a w' = refilled f (a w) ∧ SameWorld care (endOf (a w)) (endOf (refilled f (a w))) := by
  obtain ⟨f, rfl⟩ := h.alike
  refine ⟨f, ha.blind w f, ⟨f, by cases a w <;> rfl⟩, fun hc => ?_⟩
  have hw := ha.blind w f
  rw [h.filler hc] at hw
  rw [← hw]

/-- Registers that are known have the same values in both environments, where they have any.
Where registers are filled, both have the same ones unset. -/
structure Tracks (care : Care) (known : String → Prop) (ρ σ : Env) : Prop where
  world : SameWorld care ρ.world σ.world
  regs : ∀ {r v}, known r → ρ.regs.get? r = some v → σ.regs.get? r = some v
  unset : care = .fills → ∀ {r}, known r → ρ.regs.get? r = none → σ.regs.get? r = none

namespace Tracks

variable {care : Care} {known known' : String → Prop} {ρ σ τ : Env}

lemma refl (ρ : Env) : Tracks care known ρ ρ :=
  ⟨.refl _ _, fun _ h => h, fun _ _ _ h => h⟩

lemma trans (h : Tracks care known ρ σ) (h' : Tracks care known' σ τ)
    (hk : ∀ r, known r → known' r) : Tracks care known ρ τ where
  world := h.world.trans h'.world
  regs hr hv := h'.regs (hk _ hr) (h.regs hr hv)
  unset hc _ hr hv := h'.unset hc (hk _ hr) (h.unset hc hr hv)

lemma set (h : Tracks care known ρ σ) (r : String) (v : Int32) :
    Tracks care known { ρ with regs := ρ.regs.set r v } { σ with regs := σ.regs.set r v } where
  world := h.world
  regs {m w} hm hw := by
    rw [Registers.get?_set] at hw ⊢
    split
    · next he => rwa [if_pos he] at hw
    · next he => rw [if_neg he] at hw; exact h.regs hm hw
  unset hc m hm hw := by
    rw [Registers.get?_set] at hw ⊢
    split
    · next he => rwa [if_pos he] at hw
    · next he => rw [if_neg he] at hw; exact h.unset hc hm hw

lemma withWorld (h : Tracks care known ρ σ) (hw : SameWorld care w w') :
    Tracks care known { ρ with world := w } { σ with world := w' } :=
  ⟨hw, h.regs, h.unset⟩

lemma setOwn (h : Tracks care known ρ σ) (hr : ¬known r) (v : Int32) :
    Tracks care known ρ { σ with regs := σ.regs.set r v } where
  world := h.world
  regs {m w} hm hw := by
    have hne : m ≠ r := fun he => hr (he ▸ hm)
    exact (Registers.get?_set_of_ne _ _ hne).trans (h.regs hm hw)
  unset hc m hm hw := by
    have hne : m ≠ r := fun he => hr (he ▸ hm)
    exact (Registers.get?_set_of_ne _ _ hne).trans (h.unset hc hm hw)

lemma setAll (h : Tracks care known ρ σ) (name : Nat → String) (i : Nat) (vs : List Int32) :
    Tracks care known { ρ with regs := ρ.regs.setAll name i vs }
      { σ with regs := σ.regs.setAll name i vs } := by
  induction vs generalizing ρ σ i with
  | nil => exact h
  | cons v vs ih => exact ih (h.set (name i) v) (i + 1)

end Tracks

/-- Registers have been filled, and nothing else has been done to them. -/
structure Refills (known : String → Prop) (σ σ' : Env) : Prop where
  keeps : ∀ {r v}, σ.regs.get? r = some v → σ'.regs.get? r = some v
  other : ∀ {r}, ¬known r → σ'.regs.get? r = σ.regs.get? r

lemma Refills.refl (σ : Env) : Refills known σ σ := ⟨id, fun _ => rfl⟩

lemma Refills.trans (h : Refills known σ σ1) (h' : Refills known σ1 σ2) : Refills known σ σ2 :=
  ⟨h'.keeps ∘ h.keeps, fun hr => (h'.other hr).trans (h.other hr)⟩

lemma Refills.fill (hr : known r) (hn : σ.regs.get? r = none) (v : Int32) :
    Refills known σ { regs := σ.regs.set r v, world := w } where
  keeps {m u} hu := by
    rw [Registers.get?_set_of_ne _ _ (fun he => by rw [he, hn] at hu; cases hu)]
    exact hu
  other hm := Registers.get?_set_of_ne _ _ fun he => hm (he ▸ hr)

/-- One operand stands for another: it has its word if that has one. If it has none itself it
is the same register, and where registers are filled it has none if the other has none. -/
structure Stands (care : Care) (known : String → Prop) (o o' : Operand) : Prop where
  word : ∀ {v}, o.word? = some v → o'.word? = some v
  known : ∀ {r}, o = .reg r none → known r
  back : ∀ {r}, o' = .reg r none → o = .reg r none
  unset : care = .fills → ∀ {r}, o = .reg r none → o' = .reg r none

namespace Stands

variable {care : Care} {known known' : String → Prop} {o o' o1 : Operand}

lemma of_word {v : Int32} (h : o.word? = some v) (h' : o'.word? = some v) :
    Stands care known o o' where
  word hv := by rwa [h', ← h]
  known hr := by rw [hr] at h; cases h
  back hr := by rw [hr] at h'; cases h'
  unset _ _ hr := by rw [hr] at h; cases h

lemma trans (h : Stands care known o o1) (h' : Stands care known' o1 o') : Stands care known o o' :=
  ⟨h'.word ∘ h.word, h.known, h.back ∘ h'.back, fun hc _ hr => h'.unset hc (h.unset hc hr)⟩

end Stands

/-! ### Results -/

def after {ε σ α β : Type} (r : EStateM.Result ε σ α) (f : α → EStateM ε σ β) :
    EStateM.Result ε σ β :=
  match r with
  | .ok x s => f x s
  | .error e s => .error e s

section

variable {ε σ α β γ : Type}

lemma bind_eq_after (m : EStateM ε σ α) (f : α → EStateM ε σ β) (s : σ) :
    (m >>= f) s = after (m s) f := by
  show EStateM.bind m f s = _
  unfold EStateM.bind after
  cases m s <;> rfl

lemma after_after (r : EStateM.Result ε σ α) (f : α → EStateM ε σ β) (g : β → EStateM ε σ γ) :
    after (after r f) g = after r fun x => f x >>= g := by
  cases r with
  | ok x s => exact (bind_eq_after (f x) g s).symm
  | error e s => rfl

lemma after_pure (r : EStateM.Result ε σ α) : after r pure = r := by
  cases r <;> rfl

end

/-- The result of flat code follows another result. Values are related by `R`, and `F` is asked
of the environment in which the flat code goes on; `out` says whether the code may be left
other than by a fault. Nothing is said where a register without a value was used in a way
that is not allowed. -/
def Follows {α β : Type} (care : Care) (known : String → Prop) (out : Prop) (R : α → β → Prop)
    (F : Env → Prop) : EStateM.Result Stop Env α → EStateM.Result Stop Env β → Prop
  | .ok x ρ, r => ∃ y σ, r = .ok y σ ∧ R x y ∧ Tracks care known ρ σ ∧ F σ
  | .error (.fault c) ρ, r => ∃ σ, r = .error (.fault c) σ ∧ SameWorld care ρ.world σ.world
  | .error (.target c _) ρ, r =>
    out ∧ ∃ src σ, r = .error (.target c src) σ ∧ SameWorld care ρ.world σ.world
  | .error (.goto l) ρ, r => out ∧ ∃ σ, r = .error (.goto l) σ ∧ Tracks care known ρ σ ∧ F σ
  | .error (.leave vs) ρ, r =>
    out ∧ ∃ σ, r = .error (.leave vs) σ ∧ SameWorld care ρ.world σ.world
  | .error .unset _, _ => True
  | .error .exhausted _, _ => False

section

variable {α β γ δ : Type} {care : Care} {known : String → Prop} {out : Prop} {R : α → β → Prop}
  {S : γ → δ → Prop} {F : Env → Prop} {ρ σ : Env}

/-- Code that is left in no other way fails by a fault, or by using a register without a value. -/
lemma Follows.of_error (h : Follows care known False R F (.error e ρ) r) :
    (∃ c σ, e = .fault c ∧ r = .error (.fault c) σ ∧ SameWorld care ρ.world σ.world) ∨
      e = .unset := by
  cases e with
  | fault c =>
    obtain ⟨σ, hr, hw⟩ := h
    exact .inl ⟨c, σ, rfl, hr, hw⟩
  | target c src => exact h.1.elim
  | goto l => exact h.1.elim
  | leave vs => exact h.1.elim
  | unset => exact .inr rfl
  | exhausted => exact h.elim

lemma Follows.ok (hR : R x y) (h : Tracks care known ρ σ) (hF : F σ) :
    Follows care known out R F (.ok x ρ) (.ok y σ) :=
  ⟨y, σ, rfl, hR, h, hF⟩

/-- Comparisons of parts make up a comparison of the whole. -/
lemma Follows.bind {r : EStateM.Result Stop Env α} {r' : EStateM.Result Stop Env β}
    {f : α → Eval γ} {g : β → Eval δ} (h : Follows care known False R F r r')
    (hf : ∀ {x y ρ σ}, R x y → Tracks care known ρ σ → F σ →
      Follows care known out S F (f x ρ) (g y σ)) :
    Follows care known out S F (after r f) (after r' g) := by
  cases r with
  | ok x ρ =>
    obtain ⟨y, σ, rfl, hR, ht, hF⟩ := h
    exact hf hR ht hF
  | error e ρ =>
    obtain ⟨c, σ, rfl, rfl, hw⟩ | rfl := h.of_error
    · exact ⟨σ, rfl, hw⟩
    · trivial

lemma Follows.andThen {m : Eval α} {m' : Eval β} {f : α → Eval γ} {g : β → Eval δ}
    (h : Follows care known False R F (m ρ) (m' σ))
    (hf : ∀ {x y ρ σ}, R x y → Tracks care known ρ σ → F σ →
      Follows care known out S F (f x ρ) (g y σ)) :
    Follows care known out S F ((m >>= f) ρ) ((m' >>= g) σ) := by
  rw [bind_eq_after, bind_eq_after]
  exact h.bind hf

lemma Follows.imp (h : Follows care known False R F r r') (hR : ∀ {x y}, R x y → R' x y)
    (hF : ∀ {σ}, F σ → F' σ) : Follows care known out R' F' r r' := by
  cases r with
  | ok x ρ =>
    obtain ⟨y, σ, rfl, hxy, ht, hf⟩ := h
    exact ⟨y, σ, rfl, hR hxy, ht, hF hf⟩
  | error e ρ =>
    obtain ⟨c, σ, rfl, rfl, hw⟩ | rfl := h.of_error
    · exact ⟨σ, rfl, hw⟩
    · trivial

end

/-! ### Parts of an evaluation -/

/-- How flat code treats registers without a value: as the code it comes from, or as the
machine does. -/
def Grants (care care' : Care) : Prop :=
  care' = care ∨ care' = .fills

section

variable {care care' : Care} {known : String → Prop} {F : Env → Prop} {ρ σ : Env} {o o' : Operand}
  (hc : Grants care care') (hF : ∀ {σ σ'}, F σ → Refills known σ σ' → F σ')
  (h : Tracks care known ρ σ) (hσ : F σ)

include h hσ

include hF in
lemma follows_fill (hcare : care = .fills) (hr : known r) :
    Follows care known False Eq F (Eval.fill r ρ) (Eval.fill r σ) := by
  cases hv : ρ.regs.get? r with
  | some v =>
    rw [fill_of_some hv, fill_of_some (h.regs hr hv)]
    exact .ok rfl h hσ
  | none =>
    have hn := h.unset hcare hr hv
    have hdraw := World.drawFiller_eq ρ.world
    -- the generator is kept closed
    generalize ρ.world.filler.nextInt32 = d at hdraw
    have hdraw' : World.drawFiller σ.world = .ok d.1 (ρ.world.refill d.2) := by
      rw [h.world.filler hcare, hdraw]
    rw [fill_of_none hv hdraw, fill_of_none hn hdraw']
    have hset := (h.withWorld (.refl care (ρ.world.refill d.2))).set r d.1
    exact .ok rfl hset (hF hσ (.fill hr hn d.1))

include hc hF in
lemma follows_take (ho : Stands care known o o') :
    Follows care known False Eq F (Eval.take care o ρ) (Eval.take care' o' σ) := by
  cases hw : o.word? with
  | some v =>
    rw [take_of_word hw, take_of_word (ho.word hw)]
    exact .ok rfl h hσ
  | none =>
    obtain ⟨r, rfl⟩ := exists_reg_of_word? hw
    by_cases hcare : care = .fills
    · have hcare' : care' = .fills := hc.elim (fun he => he.trans hcare) id
      rw [ho.unset hcare rfl]
      simp only [Eval.take, hcare, hcare', if_true]
      subst hcare
      exact follows_fill hF h hσ rfl (ho.known rfl)
    · simp only [Eval.take, hcare, if_false]
      trivial

include hc hF in
lemma follows_takeAll (ho : List.Forall₂ (Stands care known) os os') :
    Follows care known False Eq F (Eval.takeAll care os ρ) (Eval.takeAll care' os' σ) := by
  induction ho generalizing ρ σ with
  | nil => exact .ok rfl h hσ
  | cons ho _ ih =>
    refine (follows_take hc hF h hσ ho).andThen ?_
    rintro v _ ρ1 σ1 rfl h1 hσ1
    refine (ih h1 hσ1).andThen ?_
    rintro vs _ ρ2 σ2 rfl h2 hσ2
    exact .ok rfl h2 hσ2

lemma follows_read (hc : Grants care care') (hr : known r) :
    Follows care known False (Stands care known) F (Eval.readRegister care r ρ)
      (Eval.readRegister care' r σ) := by
  unfold Eval.readRegister
  cases hv : ρ.regs.get? r with
  | some v =>
    rw [h.regs hr hv]
    exact .ok (.of_word rfl rfl) h hσ
  | none =>
    by_cases hcare : care = .reads
    · simp only [hcare, if_true]
      trivial
    · have hcare' : care' ≠ .reads := by
        rcases hc with rfl | rfl
        · exact hcare
        · simp
      simp only [hcare, hcare', if_false]
      have hs : Stands care known (.reg r none) (.reg r (σ.regs.get? r)) := by
        refine ⟨fun hw => (by cases hw), ?_, ?_, ?_⟩
        · rintro _ ⟨⟩
          exact hr
        · intro m he
          injection he with he _
          rw [he]
        · rintro hf _ ⟨⟩
          rw [h.unset hf hr hv]
      cases hw : σ.regs.get? r with
      | some v =>
        rw [hw] at hs
        exact .ok hs h hσ
      | none =>
        rw [hw] at hs
        exact .ok hs h hσ

omit hσ in
lemma follows_onWorld {α : Type} {a : Act α} (ha : a.Tame) (hF : ∀ w, F { σ with world := w }) :
    Follows care known False Eq F (Eval.onWorld a ρ) (Eval.onWorld a σ) := by
  obtain ⟨f, hw, hsame⟩ := h.world.act ha
  unfold Eval.onWorld
  rw [hw]
  cases hr : a ρ.world with
  | ok x w =>
    rw [hr] at hsame
    exact .ok rfl (h.withWorld hsame) (hF _)
  | error c w =>
    rw [hr] at hsame
    exact ⟨_, rfl, hsame⟩

lemma follows_load (a : Int32) : Follows care known False Eq F (Eval.load a ρ) (Eval.load a σ) := by
  have hheap := h.world.alike.heap
  cases hv : ρ.world.heap.load a with
  | ok v =>
    have hload : ∀ τ : Env, τ.world.heap = ρ.world.heap → Eval.load a τ = .ok v τ := by
      intro τ hτ
      simp only [Eval.load, Eval.onWorld, World.inspect, hτ, hv]
    rw [hload ρ rfl, hload σ hheap]
    exact .ok rfl h hσ
  | error c =>
    have hload : ∀ τ : Env, τ.world.heap = ρ.world.heap → Eval.load a τ = .error (.fault c) τ := by
      intro τ hτ
      simp only [Eval.load, Eval.onWorld, World.inspect, hτ, hv]
    rw [hload ρ rfl, hload σ hheap]
    exact ⟨σ, rfl, h.world⟩

end

/-! ### Expressions without effects -/

def Idle (s : Structured.Stmt) : Prop :=
  ∀ (cx : Context) (ρ : Env), cx.mode.care ≠ .reads → s.eval cx ρ = .ok () ρ

/-- An expression without effects, and its flat form. -/
inductive Plain (known : String → Prop) : Structured.Expr → Expr → Prop where
  | const (v : Int32) : Plain known (.const v) (.const v)
  | temp {r : String} : known r → Plain known (.temp r) (.temp r)
  | mem {e : Structured.Expr} {x : Expr} : Plain known e x → Plain known (.mem e) (.mem x)
  | unop {op : Structured.UnOp} {e : Structured.Expr} {x : Expr} : Plain known e x →
    Plain known (.unop op e) (.unop op x)
  | binop {op : Structured.BinOp} {l r : Structured.Expr} {x y : Expr} :
    op ∈ Structured.BinOp.defined → Plain known l x → Plain known r y →
    Plain known (.binop op l r) (.binop op x y)
  | eseq {s : Structured.Stmt} {e : Structured.Expr} {x : Expr} : Idle s → Plain known e x →
    Plain known (.eseq s e) x

lemma Plain.fits (h : Plain known e x) : x.Fits known := by
  induction h with
  | const v => trivial
  | temp hr => exact hr
  | mem _ ih => exact ih
  | unop _ ih => exact ih
  | binop hop _ _ ihl ihr => exact ⟨hop, ihl, ihr⟩
  | eseq _ _ ih => exact ih

lemma Expr.Fits.plain (h : x.Fits known) : Plain known x.lift x := by
  induction x with
  | const v => exact .const v
  | temp r => exact .temp h
  | name l => exact h.elim
  | mem addr ih => exact .mem (ih h)
  | unop op x ih => exact .unop (ih h)
  | binop op l r ihl ihr => exact .binop h.1 (ihl h.2.1) (ihr h.2.2)

/-- An expression without effects and its flat form have the same value. -/
lemma follows_plain (cx' : Context) (hc : Grants cx.mode.care cx'.mode.care)
    (hread : cx.mode.care ≠ .reads) (hF : ∀ {σ σ'}, F σ → Refills known σ σ' → F σ')
    (he : Plain known e x) (h : Tracks cx.mode.care known ρ σ) (hσ : F σ) :
    Follows cx.mode.care known False (Stands cx.mode.care known) F (e.eval cx ρ)
      (x.lift.eval cx' σ) := by
  induction he generalizing ρ σ with
  | const v => exact .ok (.of_word rfl rfl) h hσ
  | temp hr => exact follows_read h hσ hc hr
  | mem _ ih =>
    rw [Expr.lift, Structured.Expr.eval, Structured.Expr.eval]
    refine (ih h hσ).andThen fun ho h1 hσ1 => (follows_take hc hF h1 hσ1 ho).andThen ?_
    rintro a _ ρ2 σ2 rfl h2 hσ2
    refine (follows_load h2 hσ2 a).andThen ?_
    rintro v _ ρ3 σ3 rfl h3 hσ3
    exact .ok (.of_word rfl rfl) h3 hσ3
  | unop _ ih =>
    rw [Expr.lift, Structured.Expr.eval, Structured.Expr.eval]
    refine (ih h hσ).andThen fun ho h1 hσ1 => (follows_take hc hF h1 hσ1 ho).andThen ?_
    rintro v _ ρ2 σ2 rfl h2 hσ2
    exact .ok (.of_word rfl rfl) h2 hσ2
  | @binop op _ _ _ _ _ _ _ ihl ihr =>
    rw [Expr.lift, Structured.Expr.eval, Structured.Expr.eval]
    refine (ihl h hσ).andThen fun ho h1 hσ1 => (ihr h1 hσ1).andThen fun ho' h2 hσ2 =>
      (follows_take hc hF h2 hσ2 ho).andThen ?_
    rintro v _ ρ3 σ3 rfl h3 hσ3
    refine (follows_take hc hF h3 hσ3 ho').andThen ?_
    rintro w _ ρ4 σ4 rfl h4 hσ4
    cases Word.binop op v w with
    | ok u => exact .ok (.of_word rfl rfl) h4 hσ4
    | error c => exact ⟨_, rfl, h4.world⟩
  | eseq hs _ ih =>
    rw [Structured.Expr.eval, bind_ok (hs cx ρ hread)]
    exact ih h hσ

lemma unset_of_eval {x : Expr} {σ σ' : Env} (h : x.lift.eval cx σ = .ok (.reg r none) σ') :
    x = .temp r ∧ σ' = σ ∧ σ.regs.get? r = none := by
  cases x with
  | temp m =>
    rw [Expr.lift, Structured.Expr.eval, Eval.readRegister] at h
    cases hv : σ.regs.get? m with
    | some v => rw [hv] at h; cases h
    | none =>
      rw [hv] at h
      by_cases hc : cx.mode.care = .reads
      · simp only [hc, if_true] at h
        cases h
      · simp only [hc, if_false] at h
        cases h
        exact ⟨rfl, rfl, hv⟩
  | const v => cases h
  | name l => cases h
  | mem addr =>
    rw [Expr.lift, Structured.Expr.eval] at h
    obtain ⟨o, σ1, -, h⟩ := bind_eq_ok h
    obtain ⟨a, σ2, -, h⟩ := bind_eq_ok h
    obtain ⟨v, σ3, -, h⟩ := bind_eq_ok h
    cases h
  | unop op x =>
    rw [Expr.lift, Structured.Expr.eval] at h
    obtain ⟨o, σ1, -, h⟩ := bind_eq_ok h
    obtain ⟨v, σ2, -, h⟩ := bind_eq_ok h
    cases h
  | binop op left right =>
    rw [Expr.lift, Structured.Expr.eval] at h
    obtain ⟨o, σ1, -, h⟩ := bind_eq_ok h
    obtain ⟨o', σ2, -, h⟩ := bind_eq_ok h
    obtain ⟨v, σ3, -, h⟩ := bind_eq_ok h
    obtain ⟨w, σ4, -, h⟩ := bind_eq_ok h
    cases hw : Word.binop op v w with
    | ok | error => rw [hw] at h; cases h

end TreeMachine.Flat
