/-!
# Checked arithmetic

Integers are mathematical integers. Where a machine word holds a value, the exact value is computed
first and then checked against the word's range; a value outside it is a failure. A computation
therefore either fails or has its exact mathematical result, and no value ever wraps around.

In the modules of definitions, `Spec guidance` gives sections of the requirements document, and a
name in parentheses after a description is that of the type or operation described.
-/

namespace LoopKernel

/-- Why a computation has no result: a value left its machine range, or a cause of kind `ε`. -/
inductive Failure (ε : Type) where
  | overflow
  | cause (error : ε)
deriving DecidableEq, Repr

/-- A computation that may fail, by overflow or for a cause of kind `ε`. -/
abbrev Attempt (ε α : Type) := Except (Failure ε) α

/-- A computation whose only failure is overflow. -/
abbrev Checked (α : Type) := Attempt Empty α

namespace Attempt

variable {ε δ α : Type}

/-- Overflow, whatever the kind of the other causes. -/
def overflow : Attempt ε α := .error .overflow

/-- Failure for a stated cause. -/
def fail (e : ε) : Attempt ε α := .error (.cause e)

/-- A checked computation seen as one that could also fail for a cause. -/
def ofChecked : Checked α → Attempt ε α
  | .ok a => .ok a
  | .error .overflow => .error .overflow

instance : MonadLift (Except (Failure Empty)) (Except (Failure ε)) where
  monadLift := ofChecked

/-- Change the cause of a failure; overflow and results stay. -/
def mapCause (f : ε → δ) : Attempt ε α → Attempt δ α
  | .ok a => .ok a
  | .error .overflow => .error .overflow
  | .error (.cause e) => .error (.cause (f e))

/-- Turn a cause into a value; overflow still fails. -/
def caught : Attempt ε α → Checked (Except ε α)
  | .ok a => .ok (.ok a)
  | .error .overflow => .error .overflow
  | .error (.cause e) => .ok (.error e)

/-- The result, or `none` for a cause; overflow still fails. -/
def toOption (x : Attempt ε α) : Checked (Option α) :=
  match x with
  | .ok a => .ok (some a)
  | .error .overflow => .error .overflow
  | .error (.cause _) => .ok none

/-- A bound computation succeeds exactly when both of its parts do. -/
theorem bind_eq_ok {β : Type} {x : Attempt ε α} {f : α → Attempt ε β} {b : β} :
    (x >>= f) = .ok b ↔ ∃ a, x = .ok a ∧ f a = .ok b := by
  cases x <;> simp [bind, Except.bind]

/-- Lifting keeps results. -/
@[simp] theorem ofChecked_eq_ok {x : Checked α} {a : α} :
    (ofChecked x : Attempt ε α) = .ok a ↔ x = .ok a := by
  rcases x with (_ | e) | _
  · simp [ofChecked]
  · exact e.elim
  · simp [ofChecked]

end Attempt

/-! ## Machine ranges -/

/-- The integers of a machine word, as an inclusive interval. -/
structure WordRange where
  least : Int
  greatest : Int
deriving DecidableEq, Repr

namespace WordRange

/-- Signed 32-bit words. -/
def signed32 : WordRange := ⟨-(1 <<< 31), 1 <<< 31 - 1⟩

/-- Signed 64-bit words. -/
def signed64 : WordRange := ⟨-(1 <<< 63), 1 <<< 63 - 1⟩

/-- Signed 128-bit words. -/
def signed128 : WordRange := ⟨-(1 <<< 127), 1 <<< 127 - 1⟩

/-- Unsigned 32-bit words. -/
def unsigned32 : WordRange := ⟨0, 1 <<< 32 - 1⟩

/-- Membership of an integer in the range. -/
def Holds (r : WordRange) (n : Int) : Prop := r.least ≤ n ∧ n ≤ r.greatest

instance (r : WordRange) (n : Int) : Decidable (r.Holds n) :=
  inferInstanceAs (Decidable (_ ∧ _))

/-- The integer itself when the word can hold it. -/
def check (r : WordRange) (n : Int) : Checked Int :=
  if r.Holds n then .ok n else .error .overflow

/-- The integer when the word can hold it, as an option. -/
def fit? (r : WordRange) (n : Int) : Option Int :=
  if r.Holds n then some n else none

/-- The nearest integer of the range. -/
def clamp (r : WordRange) (n : Int) : Int := max r.least (min r.greatest n)

/-- A check passes exactly on the range, with the integer unchanged. -/
theorem check_eq_ok {r : WordRange} {n m : Int} : r.check n = .ok m ↔ r.Holds n ∧ n = m := by
  unfold check
  split <;> simp [*]

end WordRange

/-- Check against signed 64-bit words. -/
abbrev check64 (n : Int) : Checked Int := WordRange.signed64.check n

/-- Check against signed 128-bit words. -/
abbrev check128 (n : Int) : Checked Int := WordRange.signed128.check n

/-- Check a natural number against unsigned words of the given number of bits. -/
def checkUnsigned (bits n : Nat) : Checked Nat :=
  if n < 1 <<< bits then .ok n else .error .overflow

/-- An unsigned check passes exactly below the limit. -/
theorem checkUnsigned_eq_ok {bits n m : Nat} :
    checkUnsigned bits n = .ok m ↔ n < 1 <<< bits ∧ n = m := by
  unfold checkUnsigned
  split <;> simp [*]

end LoopKernel
