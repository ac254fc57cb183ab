import Mathlib.Data.List.Basic

/-!
# Statements about an outcome

What holds of the value of a computation, if it has one, can be decided by
running it.
-/

namespace MiniDbms

variable {ε α : Type}

instance decidableForallOk (r : Except ε α) (p : α → Prop) [∀ a, Decidable (p a)] :
    Decidable (∀ a, r = .ok a → p a) :=
  match r with
  | .ok a => decidable_of_iff (p a) ⟨fun h _ heq => Except.ok.inj heq ▸ h, fun h => h a rfl⟩
  | .error _ => isTrue fun _ h => nomatch h

instance decidableForallSome (o : Option α) (p : α → Prop) [∀ a, Decidable (p a)] :
    Decidable (∀ a, o = some a → p a) :=
  match o with
  | some a => decidable_of_iff (p a) ⟨fun h _ heq => Option.some.inj heq ▸ h, fun h => h a rfl⟩
  | none => isTrue fun _ h => nomatch h

/-- Whether a computation ends with a given error. -/
instance decidableEqError [DecidableEq ε] (r : Except ε α) (e : ε) :
    Decidable (r = .error e) :=
  match r with
  | .ok _ => isFalse fun h => nomatch h
  | .error e' => decidable_of_iff (e' = e) ⟨fun h => h ▸ rfl, fun h => Except.error.inj h⟩

theorem bind_ok {β : Type} {r : Except ε α} {f : α → Except ε β} {b : β} :
    r >>= f = .ok b ↔ ∃ a, r = .ok a ∧ f a = .ok b := by
  cases r with
  | error e => simp [bind, Except.bind]
  | ok a => simp [bind, Except.bind]

/-- The computation ends in a value that passes the test. -/
def okAnd (r : Except ε α) (test : α → Bool) : Bool :=
  match r with
  | .ok a => test a
  | .error _ => false

theorem exists_of_okAnd {r : Except ε α} {test : α → Bool} (h : okAnd r test = true) :
    ∃ a, r = .ok a ∧ test a = true := by
  unfold okAnd at h
  split at h
  · exact ⟨_, rfl, h⟩
  · cases h

end MiniDbms
