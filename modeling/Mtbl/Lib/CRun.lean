import Mathlib.Tactic

/-! Runs of C code. A run either returns a value or stops on a fault: a failed assertion, a read
outside its object, a dereferenced null pointer, a use of freed memory. Loops are written with a
fuel argument; `Fault.fuel` marks a loop that used it up, so that termination is a statement
about the run and not a side condition. -/
namespace CRun
universe u

/-- Why a run of C code stops before it returns. -/
inductive Fault
  | assertion
  | outOfBounds
  | nullDeref
  | useAfterFree
  | fuel
  deriving DecidableEq, Repr

abbrev Run (α : Type*) := Except Fault α

instance {α : Type*} [DecidableEq α] : DecidableEq (Run α)
  | .ok a, .ok b => decidable_of_iff (a = b) ⟨fun h => h ▸ rfl,fun h => Except.ok.inj h⟩
  | .error a, .error b =>
    decidable_of_iff (a = b) ⟨fun h => h ▸ rfl,fun h => Except.error.inj h⟩
  | .ok _, .error _ => isFalse (fun h => by cases h)
  | .error _, .ok _ => isFalse (fun h => by cases h)

/-- The C `assert`. -/
def check (p : Prop) [Decidable p] : Run Unit := if p then .ok () else .error .assertion

variable {α β : Type u}

@[simp] theorem pure_eq_ok (a : α) : (pure a : Run α) = .ok a := rfl

@[simp] theorem ok_bind (a : α) (f : α → Run β) : ((.ok a : Run α) >>= f) = f a := rfl

@[simp] theorem error_bind (e : Fault) (f : α → Run β) :
    ((.error e : Run α) >>= f) = .error e := rfl

@[simp] theorem throw_eq_error (e : Fault) : (throw e : Run α) = .error e := rfl

/-- Peels one step off a run that returns. -/
theorem bind_eq_ok {x : Run α} {f : α → Run β} {b : β} :
    (x >>= f) = .ok b ↔ ∃ a, x = .ok a ∧ f a = .ok b := by
  cases x with
  | ok a => simp
  | error e => simp

/-- What holds of the result, if there is one, can be decided by running. -/
instance {x : Run α} {P : α → Prop} [∀ a, Decidable (P a)] : Decidable (∀ a, x = .ok a → P a) :=
  match x with
  | .ok a => decidable_of_iff (P a) ⟨fun h b hb => Except.ok.inj hb ▸ h,fun h => h a rfl⟩
  | .error _ => isTrue (fun _ h => by cases h)

theorem check_of {p : Prop} [Decidable p] (h : p) : check p = .ok () := if_pos h

@[simp] theorem check_true : check True = .ok () := if_pos trivial

@[simp] theorem check_eq_ok {p : Prop} [Decidable p] {u : Unit} : check p = .ok u ↔ p := by
  by_cases h : p <;> simp [check,h]

end CRun
