import Mathlib
import TreeMachine.Error

/-!
# Taking computations apart

A computation that succeeds did so in each of its parts. These are the two monads that
resolving, compiling and lowering use.
-/

namespace TreeMachine

variable {ε σ α β : Type}

lemma Except.bind_eq_ok {m : Except ε α} {f : α → Except ε β} {b : β} (h : m >>= f = .ok b) :
    ∃ a, m = .ok a ∧ f a = .ok b := by
  cases m with
  | error e => cases h
  | ok a => exact ⟨a, rfl, h⟩

lemma Except.eq_ok_of_toOption {x : Except ε α} (h : x.toOption = some a) : x = .ok a := by
  cases x with
  | error e => cases h
  | ok b => cases h; rfl

lemma Except.bind_eq_some {x : Except ε α} {f : α → Option β} {b : β} :
    x.toOption.bind f = some b ↔ ∃ a, x = .ok a ∧ f a = some b := by
  cases x <;> simp [Except.toOption]

lemma Except.map_eq_some {x : Except ε α} {f : α → β} {b : β} :
    x.toOption.map f = some b ↔ ∃ a, x = .ok a ∧ f a = b := by
  cases x <;> simp [Except.toOption]

lemma StateT.ok_of_bind {m : StateT σ (Except ε) α} {f : α → StateT σ (Except ε) β} {s : σ}
    {r : β × σ} (h : (m >>= f) s = .ok r) : ∃ a s', m s = .ok (a, s') ∧ f a s' = .ok r := by
  obtain ⟨⟨a, s'⟩, ha, hf⟩ := Except.bind_eq_ok (m := m s) (f := fun p => f p.1 p.2) h
  exact ⟨a, s', ha, hf⟩

lemma StateT.pure_eq_ok (h : (pure a : StateT σ (Except ε) α) s = .ok (b, s')) :
    a = b ∧ s = s' := by
  cases h
  exact ⟨rfl, rfl⟩

lemma StateT.bind_pure_eq_ok {m : StateT σ (Except ε) α} {f : α → β} {s s' : σ} {b : β}
    (h : (m >>= fun a => pure (f a)) s = .ok (b, s')) : ∃ a, m s = .ok (a, s') ∧ f a = b := by
  obtain ⟨a, s1, ha, h⟩ := StateT.ok_of_bind h
  cases h
  exact ⟨a, ha, rfl⟩

lemma Error.of_wrap_eq_ok (h : Error.wrap context m = .ok a) : m = .ok a := by
  cases m with
  | error e => cases h
  | ok b => exact h

end TreeMachine
