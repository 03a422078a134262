import TreeMachine.Proofs.Balance
import TreeMachine.Proofs.Nodes

/-!
# What lies below a frame

All frames share one operand stack, and no node looks at the base of its frame. A node that
finds the operands it takes does the same whatever lies below them, leaves what lies below
alone, and does not touch the frames that wait. `Takes` says this of an action, and
`takes_exec` says it of every node.
-/

namespace TreeMachine

open Structured
open Linear

/-! ### Stacks on stacks -/

namespace Operands

def atop (s B : Operands) : Operands where
  items := s.items ++ B.items
  height := s.height + B.height
  height_eq := by simp [s.height_eq, B.height_eq]

@[simp] lemma items_atop (s B : Operands) : (s.atop B).items = s.items ++ B.items := rfl

@[simp] lemma height_atop (s B : Operands) : (s.atop B).height = s.height + B.height := rfl

lemma push_atop (s B : Operands) (o : Operand) : (s.atop B).push o = (s.push o).atop B :=
  ext_items rfl

lemma popMany_of_le {s : Operands} (h : k ≤ s.height) (operation : String) :
    s.popMany operation k = .ok ((s.items.take k).reverse, s.below k) := by
  rw [popMany, if_neg (by omega)]

lemma pop_of_le {s : Operands} (h : 1 ≤ s.height) (operation : String) :
    ∃ o, s.items = o :: (s.below 1).items ∧ s.pop operation = .ok (o, s.below 1) := by
  obtain ⟨items, height, hs⟩ := s
  cases items with
  | nil => simp at hs h; omega
  | cons o rest => exact ⟨o, rfl, by simp [pop, below]⟩

lemma below_atop {s B : Operands} (h : k ≤ s.height) : (s.atop B).below k = (s.below k).atop B :=
  ext_items (List.drop_append_of_le_length (by rw [← s.height_eq]; exact h))

lemma truncate_atop (s B : Operands) (n : Nat) :
    (s.atop B).truncate (n + B.height) = (s.truncate n).atop B := by
  refine ext_items ?_
  by_cases h : n < s.height
  · have hlen : s.height - n ≤ s.items.length := by rw [← s.height_eq]; omega
    have hsub : s.height + B.height - (n + B.height) = s.height - n := by omega
    simp only [truncate, height_atop, Nat.add_lt_add_iff_right, h, dif_pos, items_atop, hsub]
    exact List.drop_append_of_le_length hlen
  · have h' : ¬n + B.height < s.height + B.height := by omega
    have hcut : (s.atop B).truncate (n + B.height) = s.atop B := dif_neg h'
    have hcut' : s.truncate n = s := dif_neg h
    rw [hcut, hcut']

end Operands

namespace Machine

def Frame.raise (f : Frame) (k : Nat) : Frame :=
  { f with base := f.base + k }

/-- The state on top of other operands, waiting frames and recorded calls. -/
def State.atop (s : State) (B : Operands) (W : List Frame) (t : List Called) : State :=
  { s with
    operands := s.operands.atop B
    frame := s.frame.raise B.height
    waiting := s.waiting.map (·.raise B.height) ++ W
    trace := s.trace ++ t }

/-- A result on top of other operands, waiting frames and recorded calls. -/
def atop {α : Type} (B : Operands) (W : List Frame) (t : List Called) :
    EStateM.Result Fault State α → EStateM.Result Fault State α
  | .ok x s => .ok x (s.atop B W t)
  | .error c s => .error c (s.atop B W t)

/-- Nothing but world, operands and registers differ. -/
structure SameFrames (s s' : State) : Prop where
  fn : s'.frame.fn = s.frame.fn
  ip : s'.frame.ip = s.frame.ip
  base : s'.frame.base = s.frame.base
  waiting : s'.waiting = s.waiting
  depth : s'.depth = s.depth

lemma SameFrames.refl (s : State) : SameFrames s s := ⟨rfl, rfl, rfl, rfl, rfl⟩

lemma SameFrames.trans (h : SameFrames s1 s2) (g : SameFrames s2 s3) : SameFrames s1 s3 :=
  ⟨g.fn.trans h.fn, g.ip.trans h.ip, g.base.trans h.base, g.waiting.trans h.waiting,
    g.depth.trans h.depth⟩

/-- The action takes the `k` topmost operands and leaves `j` when it gives a value. It does not
depend on what lies below, and keeps the frames. -/
structure Takes {α : Type} (m : Exec α) (k : Nat) (j : α → Nat) : Prop where
  atop : ∀ {s : State}, k ≤ s.operands.height → ∀ B W t, m (s.atop B W t) = atop B W t (m s)
  ok : ∀ {s : State} {x s'}, k ≤ s.operands.height → m s = .ok x s' →
    SameFrames s s' ∧ ∃ os : List Operand, os.length = j x ∧
      s'.operands.items = os ++ s.operands.items.drop k
  error : ∀ {s : State} {c s'}, k ≤ s.operands.height → m s = .error c s' →
    s.operands.items.drop k <:+ s'.operands.items

namespace Takes

variable {α β : Type} {m : Exec α} {k l : Nat}

lemma pure (x : α) : Takes (Pure.pure x : Exec α) 0 fun _ => 0 where
  atop _ _ _ _ := rfl
  ok := by
    rintro s _ _ - h
    cases h
    exact ⟨.refl s, [], rfl, rfl⟩
  error := by rintro s c s' - h; cases h

lemma throw (c : Fault) (i : α → Nat) : Takes (throw c : Exec α) 0 i where
  atop _ _ _ _ := rfl
  ok := by rintro s _ _ - h; cases h
  error := by
    rintro s _ _ - h
    cases h
    exact List.suffix_refl _

lemma onWorld (a : Act α) : Takes (onWorld a) 0 fun _ => 0 where
  atop {s} _ B W t := by
    show Machine.onWorld a (s.atop B W t) = Machine.atop B W t (Machine.onWorld a s)
    simp only [Machine.onWorld, State.atop]
    cases a s.world <;> rfl
  ok := by
    rintro s x s' - h
    simp only [Machine.onWorld] at h
    cases hw : a s.world with
    | ok y w => rw [hw] at h; cases h; exact ⟨⟨rfl, rfl, rfl, rfl, rfl⟩, [], rfl, rfl⟩
    | error c w => rw [hw] at h; cases h
  error := by
    rintro s c s' - h
    simp only [Machine.onWorld] at h
    cases hw : a s.world with
    | ok y w => rw [hw] at h; cases h
    | error c w => rw [hw] at h; cases h; exact List.suffix_refl _

lemma le_height (hm : Takes m k fun _ => 0) (hle : k + l ≤ s.operands.height) (h : m s = .ok x s') :
    l ≤ s'.operands.height ∧ SameFrames s s' ∧ s'.operands.items = s.operands.items.drop k := by
  obtain ⟨hsame, os, hos, hitems⟩ := hm.ok (by omega) h
  obtain rfl := List.length_eq_zero_iff.1 hos
  refine ⟨?_, hsame, hitems⟩
  rw [s'.operands.height_eq, hitems, List.nil_append, List.length_drop, ← s.operands.height_eq]
  omega

lemma bind {f : α → Exec β} {i : β → Nat} (hm : Takes m k fun _ => 0)
    (hf : ∀ {s x s'}, m s = .ok x s' → Takes (f x) l i) : Takes (m >>= f) (k + l) i where
  atop {s} hle B W t := by
    have hov := hm.atop (s := s) (by omega) B W t
    cases hr : m s with
    | ok x s1 =>
      rw [hr] at hov
      rw [bind_ok hr, bind_ok hov]
      exact (hf hr).atop (hm.le_height hle hr).1 B W t
    | error c s1 =>
      rw [hr] at hov
      rw [bind_error hr, bind_error hov]
      rfl
  ok := by
    intro s y s' hle h
    obtain ⟨x, s1, hr, h⟩ := bind_eq_ok h
    obtain ⟨hle1, hsame, hitems⟩ := hm.le_height hle hr
    obtain ⟨hsame', os, hos, hitems'⟩ := (hf hr).ok hle1 h
    refine ⟨hsame.trans hsame', os, hos, ?_⟩
    rw [hitems', hitems, List.drop_drop]
  error := by
    intro s c s' hle h
    obtain hr | ⟨x, s1, hr, h⟩ := bind_eq_error h
    · refine List.IsSuffix.trans ?_ (hm.error (s := s) (by omega) hr)
      rw [← List.drop_drop]
      exact List.drop_suffix _ _
    · obtain ⟨hle1, -, hitems⟩ := hm.le_height hle hr
      have := (hf hr).error hle1 h
      rwa [hitems, List.drop_drop] at this

lemma first (hm : Takes m k fun _ => 0) (hf : ∀ x, Takes (f x) 0 i) : Takes (m >>= f) k i :=
  hm.bind fun {_ x _} _ => hf x

end Takes

/-- How many operands are left where `j` are left at the next address. -/
def leftAt (j : Nat) : Flow → Nat
  | .next => j
  | _ => 0

lemma Takes.flow {j : Nat} {r : Flow} (h : leftAt j r = 0) :
    Takes (Pure.pure r : Exec Flow) 0 (leftAt j) where
  atop _ _ _ _ := rfl
  ok := by
    rintro s _ _ - h
    cases h
    exact ⟨.refl s, [], h.symm, rfl⟩
  error := by rintro s c s' - h; cases h

lemma Takes.next {m : Exec Unit} {k j : Nat} (hm : Takes m k fun _ => j) :
    Takes (m >>= fun _ => Pure.pure Flow.next) k (leftAt j) where
  atop {s} hle B W t := by
    have hov := hm.atop hle B W t
    cases hr : m s with
    | ok x s1 => rw [hr] at hov; rw [bind_ok hr, bind_ok hov]; rfl
    | error c s1 => rw [hr] at hov; rw [bind_error hr, bind_error hov]; rfl
  ok := by
    intro s z s' hle h
    obtain ⟨x, s1, hr, h⟩ := bind_eq_ok h
    cases h
    exact hm.ok hle hr
  error := by
    intro s c s' hle h
    exact hm.error hle (error_of_bind_pure h)

/-! ### Operands -/

lemma takes_push (o : Operand) : Takes (push o) 0 fun _ => 1 where
  atop {s} _ B W t := by
    show EStateM.Result.ok _ { s.atop B W t with operands := (s.operands.atop B).push o } = _
    rw [Operands.push_atop]
    rfl
  ok := by
    rintro s _ _ - h
    cases h
    exact ⟨⟨rfl, rfl, rfl, rfl, rfl⟩, [o], rfl, rfl⟩
  error := by rintro s c s' - h; cases h

lemma takes_popMany (operation : String) (k : Nat) : Takes (popMany operation k) k fun _ => 0 where
  atop {s} hle B W t := by
    have hle' : k ≤ (s.operands.atop B).height := by simp only [Operands.height_atop]; omega
    have htake : (s.operands.atop B).items.take k = s.operands.items.take k :=
      List.take_append_of_le_length (by rw [← s.operands.height_eq]; exact hle)
    simp only [popMany, State.atop, Operands.popMany_of_le hle, Operands.popMany_of_le hle', htake,
      Operands.below_atop hle]
    rfl
  ok := by
    intro s x s' hle h
    simp only [popMany, Operands.popMany_of_le hle] at h
    cases h
    exact ⟨⟨rfl, rfl, rfl, rfl, rfl⟩, [], rfl, rfl⟩
  error := by
    intro s c s' hle h
    simp only [popMany, Operands.popMany_of_le hle] at h
    cases h

lemma takes_pop (operation : String) : Takes (pop operation) 1 fun _ => 0 where
  atop {s} hle B W t := by
    obtain ⟨o, hitems, hpop⟩ := Operands.pop_of_le hle operation
    obtain ⟨o', hitems', hpop'⟩ := Operands.pop_of_le (s := s.operands.atop B)
      (by simp only [Operands.height_atop]; omega) operation
    obtain rfl : o' = o := by
      rw [Operands.items_atop, hitems] at hitems'
      exact (List.cons.inj hitems').1.symm
    simp only [pop, State.atop, hpop, hpop', Operands.below_atop hle]
    rfl
  ok := by
    intro s x s' hle h
    obtain ⟨o, -, hpop⟩ := Operands.pop_of_le hle operation
    simp only [pop, hpop] at h
    cases h
    exact ⟨⟨rfl, rfl, rfl, rfl, rfl⟩, [], rfl, rfl⟩
  error := by
    intro s c s' hle h
    obtain ⟨o, -, hpop⟩ := Operands.pop_of_le hle operation
    simp only [pop, hpop] at h
    cases h

lemma takes_setRegister (name : String) (v : Int32) : Takes (setRegister name v) 0 fun _ => 0 where
  atop _ _ _ _ := rfl
  ok := by
    rintro s _ _ - h
    cases h
    exact ⟨⟨rfl, rfl, rfl, rfl, rfl⟩, [], rfl, rfl⟩
  error := by rintro s c s' - h; cases h

lemma Takes.ofFrame {α β : Type} {k : Nat} {i : β → Nat} (g : State → α)
    (hg : ∀ s B W t, g (s.atop B W t) = g s) {f : α → Exec β} (hf : ∀ x, Takes (f x) k i) :
    Takes (get >>= fun s => f (g s)) k i where
  atop {s} hle B W t := by
    show f (g (s.atop B W t)) (s.atop B W t) = Machine.atop B W t (f (g s) s)
    rw [hg]
    exact (hf (g s)).atop hle B W t
  ok {s} _ _ hle h := (hf (g s)).ok hle h
  error {s} _ _ hle h := (hf (g s)).error hle h

/-- The value that a register was found to have, or else a filler that it then keeps. -/
def filled (name : String) : Option Int32 → Exec Int32
  | some v => pure v
  | none => do
    let v ← onWorld World.drawFiller
    setRegister name v
    return v

lemma fill_eq_filled (name : String) :
    fill name = get >>= fun s => filled name (s.frame.regs.get? name) := by
  unfold fill filled
  rfl

lemma takes_fill (name : String) : Takes (fill name) 0 fun _ => 0 := by
  rw [fill_eq_filled]
  refine Takes.ofFrame (fun s => s.frame.regs.get? name) (fun _ _ _ _ => rfl) fun v? => ?_
  cases v? with
  | some v => exact .pure v
  | none => exact (Takes.onWorld _).first fun v => (takes_setRegister name v).first fun _ => .pure v

lemma takes_valueOf (o : Operand) : Takes (valueOf o) 0 fun _ => 0 := by
  match o with
  | .value v | .mem _ v | .reg _ (some v) => exact .pure v
  | .reg name none => exact takes_fill name
  | .symbol _ (some addr) => exact .pure _
  | .symbol _ none => exact .pure _

lemma takes_valuesOf (os : List Operand) : Takes (valuesOf os) 0 fun _ => 0 := by
  induction os with
  | nil => exact .pure []
  | cons o os ih => exact (takes_valueOf o).first fun v => ih.first fun vs => .pure (v :: vs)

lemma takes_popValue (operation : String) : Takes (popValue operation) 1 fun _ => 0 :=
  (takes_pop operation).first takes_valueOf

lemma takes_popValues (operation : String) (k : Nat) : Takes (popValues operation k) k fun _ => 0 :=
  (takes_popMany operation k).first takes_valuesOf

/-! ### Calls -/

def delivers : Node → Nat
  | .stmt (.call _ _ _) => 0
  | _ => 1

lemma takes_deliver (n : Node) (results : List Int32) :
    Takes (deliver n results) 0 fun _ => delivers n := by
  have hset : Takes (modify fun s => { s with
      frame := { s.frame with regs := s.frame.regs.setAll retReg 1 results } }) 0
      fun _ => 0 := by
    refine ⟨fun _ _ _ _ => rfl, ?_, ?_⟩
    · rintro s _ _ - h
      cases h
      exact ⟨⟨rfl, rfl, rfl, rfl, rfl⟩, [], rfl, rfl⟩
    · rintro s _ _ - h
      cases h
  unfold deliver
  refine hset.first fun _ => ?_
  split
  · split
    · exact .throw _ _
    · exact .pure ()
  · next hn =>
    have hone : delivers n = 1 := by
      unfold delivers
      split
      · exact absurd rfl (hn _ _ _)
      · rfl
    rw [hone]
    exact takes_push _

lemma takes_dispatch (p : Program) (target : Operand) (args : List Int32) :
    Takes (dispatch p target args) 0 fun _ => 0 := by
  have henter : ∀ name addr, Takes (dispatch.enterAt p name addr) 0 fun _ => 0 := by
    intro name addr
    unfold dispatch.enterAt
    cases callee p name addr with
    | ok r => exact .pure _
    | error c => exact .throw c _
  match target with
  | .symbol name none =>
    cases hr : Routine.ofName? name with
    | none =>
      simp only [dispatch, hr]
      exact .throw _ _
    | some r =>
      simp only [dispatch, hr]
      exact Takes.ofFrame (fun s => s.frame.fn.name) (fun _ _ _ _ => rfl) fun caller =>
        (Takes.onWorld (r.run caller args)).first fun results => .pure (Sum.inl results)
  | .symbol name (some addr) => exact henter name addr
  | .value v => exact henter "" v.toInt
  | .mem _ _ | .reg _ _ => exact .throw _ _

lemma takes_call (p : Program) (n : Node) (operation : String) (argc : Nat) :
    Takes (call p n operation argc) (argc + 1) (leftAt (delivers n)) := by
  refine (takes_popValues operation argc).bind fun {_ args _} _ =>
    (takes_pop operation).first fun target => (takes_dispatch p target args).first fun r => ?_
  cases r with
  | inl results => exact (takes_deliver n results).next
  | inr r => exact .flow rfl

lemma takes_assign (target : Operand) (v : Int32) : Takes (assign target v) 0 fun _ => 0 := by
  match target with
  | .reg name _ => exact takes_setRegister name v
  | .mem addr _ => exact .onWorld _
  | .value _ | .symbol _ _ => exact .throw _ _

/-! ### Nodes -/

lemma length_of_valuesOf (h : valuesOf os s = .ok vs s') : vs.length = os.length := by
  induction os generalizing s vs with
  | nil => cases h; rfl
  | cons o os ih =>
    rw [valuesOf] at h
    obtain ⟨v, s1, ho, h⟩ := bind_eq_ok h
    obtain ⟨ws, s2, hos, h⟩ := bind_eq_ok h
    cases h
    simp [ih hos]

lemma length_of_popValues (h : popValues operation k s = .ok vs s') : vs.length = k := by
  by_cases hle : k ≤ s.operands.height
  · have hpop : popMany operation k s =
        .ok (s.operands.items.take k).reverse { s with operands := s.operands.below k } := by
      simp only [popMany, Operands.popMany_of_le hle]
    rw [popValues, bind_ok hpop] at h
    rw [length_of_valuesOf h, List.length_reverse, List.length_take, ← s.operands.height_eq]
    omega
  · have hlt : s.operands.height < k := by omega
    have hpop : ∃ c, popMany operation k s = .error c s := by
      simp only [popMany, Operands.popMany, hlt, if_true]
      exact ⟨_, rfl⟩
    obtain ⟨c, hpop⟩ := hpop
    rw [popValues, bind_error hpop] at h
    cases h

lemma takes_binop (p : Program) (op : BinOp) (x y : Expr) :
    Takes (exec p (.expr (.binop op x y))) 2 (leftAt 1) := by
  refine (takes_popValues op.text 2).bind (l := 0) fun {s vs s'} h => ?_
  obtain ⟨l, r, rfl⟩ := List.length_eq_two.1 (length_of_popValues h)
  dsimp only
  cases Word.binop op l r with
  | ok v => exact (takes_push _).next
  | error c => exact .throw c _

/-- Every node takes and leaves as many operands as its kind says. -/
lemma takes_exec (p : Program) (n : Node) : Takes (exec p n) (pops n) (leftAt (pushes n)) := by
  match n with
  | .expr (.const v) => exact (takes_push _).next
  | .expr (.temp name) =>
    exact Takes.ofFrame (i := leftAt 1) (fun s => s.frame.regs.get? name) (fun _ _ _ _ => rfl)
      fun v => (takes_push (.reg name v)).next
  | .expr (.name label) => exact (takes_push _).next
  | .expr (.mem _) =>
    exact (takes_popValue "mem").first fun addr =>
      (Takes.onWorld (World.inspect (·.load addr))).first fun v => (takes_push (.mem addr v)).next
  | .expr (.binop op x y) => exact takes_binop p op x y
  | .expr (.unop op _) =>
    exact (takes_popValue op.text).first fun v => (takes_push (.value (Word.unop op v))).next
  | .expr (.call x args) => exact takes_call p _ "call" args.length
  | .expr (.eseq _ _) => exact .flow rfl
  | .stmt (.seq _) => exact (Takes.pure ()).next
  | .stmt (.move _ _) =>
    exact (takes_popValue "move").bind fun {_ v _} _ => (takes_pop "move").first fun target =>
      (takes_assign target v).next
  | .stmt (.exp _) => exact (takes_pop "exp").first fun _ => .flow rfl
  | .stmt (.jump _) =>
    refine (takes_pop "jump").first fun target => ?_
    match target with
    | .symbol name none => exact .throw _ _
    | .symbol _ (some addr) => exact .flow rfl
    | .value _ | .mem _ _ | .reg _ _ => exact (takes_valueOf _).first fun v => .flow rfl
  | .stmt (.cjump _ yes no) => exact (takes_popValue "cjump").first fun v => .flow rfl
  | .stmt (.ret values) => exact (takes_popValues "return" values.length).first fun vs => .flow rfl
  | .stmt (.call returns x args) => exact takes_call p _ "callstmt" args.length
  | .stmt (.label _) => exact (Takes.pure ()).next
  | .stmt .skip => exact (Takes.pure ()).next

/-! ### Where a node leads -/

/-- Every value that an action gives has a property. -/
def Gives {α : Type} (m : Exec α) (P : α → Prop) : Prop :=
  ∀ s x s', m s = .ok x s' → P x

lemma Gives.bind {α β : Type} {m : Exec α} {f : α → Exec β} {P : β → Prop}
    (h : ∀ x, Gives (f x) P) : Gives (m >>= f) P := by
  intro s y s' hr
  obtain ⟨x, s1, hm, hr⟩ := bind_eq_ok hr
  exact h x _ _ _ hr

lemma Gives.pure {α : Type} {P : α → Prop} {x : α} (h : P x) : Gives (Pure.pure x : Exec α) P := by
  rintro s _ _ hr
  cases hr
  exact h

lemma Gives.throw {α : Type} {P : α → Prop} (c : Fault) : Gives (throw c : Exec α) P := by
  rintro s _ _ hr
  cases hr

/-- Jumps lead anywhere, calls into functions of the program, and all other nodes to the next
address or out of the function. -/
def Leads (p : Program) (n : Node) : Flow → Prop
  | .next => True
  | .goto _ => IsJump n
  | .leave _ => ∃ xs, n = .stmt (.ret xs)
  | .enter fn addr _ => pushes n = delivers n ∧ ∃ name, callee p name addr = .ok fn

lemma leads_call (hn : pushes n = delivers n) : Gives (call p n operation argc) (Leads p n) := by
  refine .bind fun args => .bind fun target => ?_
  have henter : ∀ name addr, Gives (dispatch.enterAt p name addr)
      fun r => ∀ fn a, r = .inr (fn, a) → ∃ name, callee p name a = .ok fn := by
    intro name addr
    unfold dispatch.enterAt
    cases hc : callee p name addr with
    | error c => exact .throw c
    | ok r =>
      refine .pure ?_
      rintro fn a he
      cases he
      exact ⟨name, hc⟩
  have hd : Gives (dispatch p target args)
      fun r => ∀ fn a, r = .inr (fn, a) → ∃ name, callee p name a = .ok fn := by
    match target with
    | .symbol name none =>
      cases hr : Routine.ofName? name with
      | none => simp only [dispatch, hr]; exact .throw _
      | some r =>
        simp only [dispatch, hr]
        exact .bind fun _ => .bind fun _ => .pure (by rintro fn a ⟨⟩)
    | .symbol name (some addr) => exact henter name addr
    | .value v => exact henter "" v.toInt
    | .mem _ _ | .reg _ _ => exact .throw _
  intro s fl s' hr
  obtain ⟨r, s1, hdr, hr⟩ := bind_eq_ok hr
  cases r with
  | inl results =>
    have : Gives (deliver n results >>= fun _ => pure Flow.next) (Leads p n) :=
      .bind fun _ => .pure trivial
    exact this _ _ _ hr
  | inr r =>
    cases hr
    exact ⟨hn, hd _ _ _ hdr _ _ rfl⟩

lemma leads_exec (p : Program) (n : Node) : Gives (exec p n) (Leads p n) := by
  match n with
  | .expr (.const _) => exact .bind fun _ => .pure trivial
  | .expr (.temp _) => exact .bind fun _ => .bind fun _ => .pure trivial
  | .expr (.name _) => exact .bind fun _ => .pure trivial
  | .expr (.mem _) => exact .bind fun _ => .bind fun _ => .bind fun _ => .pure trivial
  | .expr (.binop op _ _) =>
    refine .bind fun vs => ?_
    split
    · split
      · exact .bind fun _ => .pure trivial
      · exact .throw _
    · exact .pure trivial
  | .expr (.unop _ _) => exact .bind fun _ => .bind fun _ => .pure trivial
  | .expr (.call _ args) => exact leads_call rfl
  | .expr (.eseq _ _) => exact .pure trivial
  | .stmt (.seq _) => exact .pure trivial
  | .stmt (.move _ _) => exact .bind fun _ => .bind fun _ => .bind fun _ => .pure trivial
  | .stmt (.exp _) => exact .bind fun _ => .pure trivial
  | .stmt (.jump x) =>
    refine .bind fun target => ?_
    cases target with
    | symbol name addr =>
      cases addr with
      | none => exact .throw _
      | some addr => exact .pure (.inl ⟨x, rfl⟩)
    | value _ | mem _ _ | reg _ _ => exact .bind fun _ => .pure (.inl ⟨x, rfl⟩)
  | .stmt (.cjump x yes no) => exact .bind fun _ => .pure (.inr ⟨x, yes, no, rfl⟩)
  | .stmt (.ret xs) => exact .bind fun _ => .pure ⟨xs, rfl⟩
  | .stmt (.call _ _ _) => exact leads_call rfl
  | .stmt (.label _) => exact .pure trivial
  | .stmt .skip => exact .pure trivial

/-! ### Steps -/

/-- The next node finds the operands it takes above the base of the running frame. -/
structure Fed (p : Program) (s : State) : Prop where
  base_le : s.frame.base ≤ s.operands.height
  pops_le : s.frame.ip < s.frame.fn.stop → ∀ {n}, p.code[s.frame.ip.toNat]? = some n →
    s.frame.base + pops n ≤ s.operands.height

/-- The operands that were there when the running frame was entered. -/
def State.floor (s : State) : List Operand :=
  s.operands.items.drop (s.operands.height - s.frame.base)

lemma truncate_floor {s s1 : State} (hle : s.frame.base + k ≤ s.operands.height)
    (h : s1.operands.items = s.operands.items.drop k) :
    (s1.operands.truncate s.frame.base).items = s.floor := by
  have hh : s1.operands.height = s.operands.height - k := by
    rw [s1.operands.height_eq, h, List.length_drop, ← s.operands.height_eq]
  unfold Operands.truncate State.floor
  split
  · show s1.operands.items.drop (s1.operands.height - s.frame.base) = _
    rw [h, hh, List.drop_drop]
    congr 1
    omega
  · next hge =>
    rw [h]
    congr 1
    omega

/-- What a step does to frames and operands when the run goes on. -/
inductive Moves (p : Program) (s s' : State) : Prop where
  /-- The running frame goes on. -/
  | along (n : Node) (os : List Operand) (code : p.code[s.frame.ip.toNat]? = some n)
    (ip : (s.frame.fn.start : Int) ≤ s.frame.ip ∧ s.frame.ip < s.frame.fn.stop)
    (fn : s'.frame.fn = s.frame.fn) (base : s'.frame.base = s.frame.base)
    (waiting : s'.waiting = s.waiting) (depth : s'.depth = s.depth)
    (items : s'.operands.items = os ++ s.operands.items.drop (pops n))
    (leads : os.length = pushes n ∧ s'.frame.ip = s.frame.ip + 1 ∨
      os = [] ∧ IsJump n)
  /-- A function is entered. -/
  | enter (n : Node) (w : Frame) (code : p.code[s.frame.ip.toNat]? = some n)
    (ip : (s.frame.fn.start : Int) ≤ s.frame.ip ∧ s.frame.ip < s.frame.fn.stop)
    (calls : pushes n = delivers n)
    (callee : ∃ name addr, callee p name addr = .ok s'.frame.fn)
    (base : s'.frame.base = s.operands.height - pops n)
    (waiting : s'.waiting = w :: s.waiting) (depth : s'.depth = s.depth + 1)
    (waits : w.fn = s.frame.fn ∧ w.ip = s.frame.ip ∧ w.base = s.frame.base)
    (items : s'.operands.items = s.operands.items.drop (pops n))
  /-- The running frame is left. -/
  | leave (n : Node) (w : Frame) (os : List Operand) (waited : s.waiting = w :: s'.waiting)
    (code : p.code[w.ip.toNat]? = some n)
    (resumes : s'.frame.fn = w.fn ∧ s'.frame.ip = w.ip + 1 ∧ s'.frame.base = w.base)
    (depth : s'.depth = s.depth - 1)
    (delivered : os.length = delivers n) (items : s'.operands.items = os ++ s.floor)

/-- However a step ends, the frame finds below its base what was there before. -/
def Orderly (p : Program) (s : State) : EStateM.Result Fault State Signal → Prop
  | .ok .running s' => Moves p s s'
  | .ok (.finished _) s' => s.waiting = [] ∧ s'.depth = s.depth - 1 ∧ s'.operands.items = s.floor
  | .error _ s' => s.floor <:+ s'.operands.items

section

variable {M : Setup} {p : Program} {s s1 : State} {k : Nat}

lemma floor_suffix (hle : s.frame.base + k ≤ s.operands.height) :
    s.floor <:+ s.operands.items.drop k := by
  unfold State.floor
  rw [show s.operands.height - s.frame.base = k + (s.operands.height - s.frame.base - k) by omega,
    ← List.drop_drop]
  exact List.drop_suffix _ _

lemma leave_of_nil (h : s.waiting = []) : leave p results s = .ok (.finished results)
      { s with operands := s.operands.truncate s.frame.base, depth := s.depth - 1 } := by
  simp only [leave, bind, EStateM.bind, modify_eq, get_eq, h]
  rfl

lemma leave_of_cons {results w W n} (h : s.waiting = w :: W) (hn : p.code[w.ip.toNat]? = some n) :
    leave p results s = returned n results { s with
        operands := s.operands.truncate s.frame.base
        depth := s.depth - 1
        frame := w
        waiting := W } := by
  simp only [leave, bind, EStateM.bind, modify_eq, get_eq, h, set, EStateM.set, hn]
  rfl

lemma orderly_leave {results : List Int32} (hw : ∀ w ∈ s.waiting, (p.code[w.ip.toNat]?).isSome)
    (hsame : SameFrames s s1) (hle : s.frame.base + k ≤ s.operands.height)
    (hitems : s1.operands.items = s.operands.items.drop k) :
    Orderly p s (leave p results s1) := by
  have hcut := truncate_floor hle hitems
  rw [← hsame.base] at hcut
  cases hwait : s.waiting with
  | nil =>
    rw [leave_of_nil (hsame.waiting.trans hwait)]
    exact ⟨hwait, congrArg (· - 1) hsame.depth, hcut⟩
  | cons w W =>
    obtain ⟨n, hn⟩ := Option.isSome_iff_exists.1 (hw w (by rw [hwait]; exact List.mem_cons_self))
    rw [leave_of_cons (hsame.waiting.trans hwait) hn]
    generalize hs2 : ({ s1 with
        operands := s1.operands.truncate s1.frame.base, depth := s1.depth - 1
        frame := w, waiting := W } : State) = s2
    unfold returned
    have hitems2 : s2.operands.items = s.floor := by rw [← hs2]; exact hcut
    cases hd : deliver n results s2 with
    | error c s3 =>
      rw [bind_error hd]
      show s.floor <:+ s3.operands.items
      rw [← hitems2]
      exact (takes_deliver n results).error (Nat.zero_le _) hd
    | ok x s3 =>
      rw [bind_ok hd]
      obtain ⟨hsame3, os, hos, hitems3⟩ := (takes_deliver n results).ok (Nat.zero_le _) hd
      refine .leave n w os ?_ hn ⟨?_, ?_, ?_⟩ ?_ hos (by rw [← hitems2]; exact hitems3)
      · rw [hwait]
        exact congrArg (w :: ·) (by rw [hsame3.waiting, ← hs2])
      · exact hsame3.fn.trans (by rw [← hs2])
      · show s3.frame.ip + 1 = _
        rw [hsame3.ip, ← hs2]
      · exact hsame3.base.trans (by rw [← hs2])
      · refine hsame3.depth.trans ?_
        rw [← hs2, ← hsame.depth]

lemma orderly_step (hfed : Fed M.program s)
    (hw : ∀ w ∈ s.waiting, (M.program.code[w.ip.toNat]?).isSome) :
    Orderly M.program s (step M s) := by
  have hfloor : s.floor <:+ s.operands.items := floor_suffix (k := 0) hfed.base_le
  unfold step
  rw [bind_ok (get_eq _)]
  by_cases hstop : s.frame.ip = s.frame.fn.stop
  · simp only [hstop, if_true]
    exact orderly_leave hw (.refl s) (k := 0) hfed.base_le rfl
  by_cases hout : s.frame.ip < s.frame.fn.start ∨ (s.frame.fn.stop : Int) < s.frame.ip
  · simp only [hstop, hout, if_true, if_false]
    exact hfloor
  have hip : (s.frame.fn.start : Int) ≤ s.frame.ip ∧ s.frame.ip < s.frame.fn.stop := by omega
  cases hn : M.program.code[s.frame.ip.toNat]? with
  | none =>
    simp only [hstop, hout, if_false, hn]
    exact hfloor
  | some n =>
  simp only [hstop, hout, if_false, hn]
  have hle := hfed.pops_le hip.2 hn
  cases he : exec M.program n s with
  | error c s1 =>
    rw [bind_error he]
    exact (floor_suffix hle).trans ((takes_exec _ n).error (by omega) he)
  | ok fl s1 =>
    rw [bind_ok he]
    obtain ⟨hsame, os, hos, hitems⟩ := (takes_exec _ n).ok (by omega) he
    have hleads := leads_exec _ n _ _ _ he
    cases fl with
    | next =>
      refine .along n os hn hip hsame.fn hsame.base hsame.waiting hsame.depth hitems
        (.inl ⟨hos, ?_⟩)
      show s1.frame.ip + 1 = _
      rw [hsame.ip]
    | goto addr =>
      obtain rfl := List.length_eq_zero_iff.1 hos
      show Orderly _ _ (goto _ _ _)
      unfold goto
      split
      · exact orderly_leave hw hsame hle hitems
      · exact .along n [] hn hip hsame.fn hsame.base hsame.waiting hsame.depth hitems
          (.inr ⟨rfl, hleads⟩)
    | leave results =>
      obtain rfl := List.length_eq_zero_iff.1 hos
      exact orderly_leave hw hsame hle hitems
    | enter fn addr args =>
      obtain rfl := List.length_eq_zero_iff.1 hos
      have hheight : s1.operands.height = s.operands.height - pops n := by
        rw [s1.operands.height_eq, hitems, List.nil_append, List.length_drop,
          ← s.operands.height_eq]
      by_cases hdeep : M.maxDepth ≤ s1.depth
      · have hent : enter M fn addr args s1 = .error (.callDepthExceeded s1.depth) s1 := by
          simp only [enter, bind, EStateM.bind, get_eq, hdeep, if_true]
          rfl
        show Orderly _ _ ((enter M fn addr args >>= fun _ => pure Signal.running) s1)
        rw [bind_error hent]
        show s.floor <:+ s1.operands.items
        rw [hitems]
        exact floor_suffix hle
      · have hent : enter M fn addr args s1 = .ok () { s1 with
            frame := newFrame fn addr args s1.operands.height
            waiting := s1.frame :: s1.waiting
            depth := s1.depth + 1
            trace := if M.traced then ⟨fn.name, args, s1.depth + 1⟩ :: s1.trace
              else s1.trace } := by
          simp only [enter, bind, EStateM.bind, get_eq, hdeep, if_false]
          rfl
        show Orderly _ _ ((enter M fn addr args >>= fun _ => pure Signal.running) s1)
        rw [bind_ok hent]
        obtain ⟨hcall, name, hcallee⟩ := hleads
        exact .enter n s1.frame hn hip hcall ⟨name, addr, hcallee⟩ hheight
          (congrArg (s1.frame :: ·) hsame.waiting) (congrArg (· + 1) hsame.depth)
          ⟨hsame.fn, hsame.ip, hsame.base⟩ hitems

end

/-! ### Frames that wait -/

def Waits (p : Program) (s : State) : Prop :=
  ∀ w ∈ s.waiting, 0 ≤ w.ip ∧ ∃ n, p.code[w.ip.toNat]? = some n ∧ pushes n = delivers n

lemma Waits.isSome (h : Waits p s) : ∀ w ∈ s.waiting, (p.code[w.ip.toNat]?).isSome := by
  intro w hw
  obtain ⟨-, n, hn, -⟩ := h w hw
  simp [hn]

lemma Waits.moves (h : Waits p s) (hm : Moves p s s') : Waits p s' := by
  cases hm with
  | along n os _ _ _ _ hwait => rw [Waits, hwait]; exact h
  | enter n w hn hip hcall _ _ hwait _ hw =>
    rw [Waits, hwait]
    intro w' hmem
    rcases List.mem_cons.1 hmem with rfl | hmem
    · rw [hw.2.1]
      exact ⟨by omega, n, hn, hcall⟩
    · exact h w' hmem
  | leave n w os hwait =>
    intro w' hmem
    exact h w' (by rw [hwait]; exact List.mem_cons_of_mem _ hmem)

end Machine

end TreeMachine
