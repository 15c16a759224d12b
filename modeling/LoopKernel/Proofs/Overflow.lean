import LoopKernel.Proofs.Checked
import Mathlib.Algebra.Ring.Nat

/-!
# Computations that do not overflow

A computation is safe if it does not overflow. It may still fail for a cause. A loop is safe if its
steps are. Of a computation of a value that may not exist, it is said at once that it is safe and of
which kind the value is.
-/

namespace LoopKernel

namespace Attempt

variable {ε δ α β ι : Type} {x : Attempt ε α}

/-- Whether a computation does not overflow. -/
def Safe (x : Attempt ε α) : Prop := x ≠ .error .overflow

instance : (x : Attempt ε α) → Decidable x.Safe
  | .ok _ => .isTrue nofun
  | .error (.cause _) => .isTrue nofun
  | .error .overflow => .isFalse fun h => h rfl

@[simp] theorem safe_ok (a : α) : Safe (.ok a : Attempt ε α) := nofun

@[simp] theorem safe_pure (a : α) : (pure a : Attempt ε α).Safe := nofun

@[simp] theorem safe_fail (e : ε) : (fail e : Attempt ε α).Safe := nofun

/-- A computation goes on safely if it does so with every result of its first part. -/
theorem Safe.bind {f : α → Attempt ε β} (hx : x.Safe) (hf : ∀ a, x = .ok a → (f a).Safe) :
    (x >>= f).Safe := by
  rcases x with (_ | e) | a
  · exact absurd rfl hx
  · nofun
  · exact hf a rfl

/-- What goes on safely is safe up to there and from there on. -/
theorem safe_bind {f : α → Attempt ε β} :
    (x >>= f).Safe ↔ x.Safe ∧ ∀ a, x = .ok a → (f a).Safe := by
  refine ⟨fun h => ?_, fun h => h.1.bind h.2⟩
  rcases x with (_ | e) | a
  · exact absurd rfl h
  · exact ⟨nofun, nofun⟩
  · exact ⟨nofun, fun b hb => Except.ok.inj hb ▸ h⟩

@[simp] theorem safe_ofChecked {x : Checked α} : (ofChecked x : Attempt ε α).Safe ↔ x.Safe := by
  rcases x with (_ | e) | a
  · simp [Safe, ofChecked]
  · exact e.elim
  · simp [Safe, ofChecked]

/-- Lifting a computation keeps it safe. -/
@[simp] theorem safe_liftM {x : Checked α} : (liftM x : Attempt ε α).Safe ↔ x.Safe :=
  safe_ofChecked

/-- Catching causes keeps a computation safe. -/
@[simp] theorem safe_caught : x.caught.Safe ↔ x.Safe := by
  rcases x with (_ | e) | a <;> simp [Safe, caught]

/-- Forgetting causes keeps a computation safe. -/
@[simp] theorem safe_toOption : x.toOption.Safe ↔ x.Safe := by
  rcases x with (_ | e) | a <;> simp [Safe, toOption]

/-- What a computation gives when causes are forgotten is its result. -/
theorem toOption_eq_some {a : α} : x.toOption = .ok (some a) ↔ x = .ok a := by
  rcases x with (_ | e) | a <;> simp [toOption]

/-- A loop is safe if each step is, where the loop comes to it. -/
theorem Safe.foldlM {f : α → ι → Attempt ε α} {l : List ι} (P : α → Prop) {a : α} (ha : P a)
    (hf : ∀ a i, i ∈ l → P a → (f a i).Safe ∧ ∀ b, f a i = .ok b → P b) : (l.foldlM f a).Safe := by
  induction l generalizing a with
  | nil => exact safe_pure a
  | cons i rest ih =>
    rw [List.foldlM_cons]
    obtain ⟨hsafe, hnext⟩ := hf a i List.mem_cons_self ha
    exact hsafe.bind fun b hb =>
      ih (hnext b hb) fun a j hj => hf a j (List.mem_cons_of_mem i hj)

/-! ## Failures for a cause -/

/-- Whether overflow is the only way for a computation to fail. -/
def Causeless (x : Attempt ε α) : Prop := ∀ e, x ≠ .error (.cause e)

theorem causeless_pure (a : α) : (pure a : Attempt ε α).Causeless := nofun

/-- A result is no failure for a cause. -/
theorem causeless_of_eq_ok {a : α} (h : x = .ok a) : x.Causeless := fun e he => by
  rw [h] at he
  cases he

theorem causeless_liftM (x : Checked α) : (liftM x : Attempt ε α).Causeless := by
  rcases x with (_ | e) | a
  · nofun
  · exact e.elim
  · nofun

/-- A computation goes on without cause for failure if it does so with every result of its first
part. -/
theorem Causeless.bind {f : α → Attempt ε β} (hx : x.Causeless)
    (hf : ∀ a, x = .ok a → (f a).Causeless) : (x >>= f).Causeless := by
  rcases x with (_ | e) | a
  · nofun
  · exact absurd rfl (hx e)
  · exact hf a rfl

/-- A loop has no cause for failure if none of its steps has one. -/
theorem Causeless.foldlM {f : α → ι → Attempt ε α} {l : List ι} {a : α}
    (hf : ∀ a, ∀ i ∈ l, (f a i).Causeless) : (l.foldlM f a).Causeless := by
  induction l generalizing a with
  | nil => exact causeless_pure a
  | cons i rest ih =>
    rw [List.foldlM_cons]
    exact (hf a i List.mem_cons_self).bind fun b _ =>
      ih fun a j hj => hf a j (List.mem_cons_of_mem i hj)

/-- What can only fail by overflow has a result unless it overflows. -/
theorem Causeless.exists_eq_ok (hx : x.Causeless) (hsafe : x.Safe) : ∃ a, x = .ok a := by
  rcases x with (_ | e) | a
  · exact absurd rfl hsafe
  · exact absurd rfl (hx e)
  · exact ⟨a, rfl⟩

/-- A checked computation that does not overflow has a result. -/
theorem exists_eq_ok_of_safe {x : Checked α} (hsafe : Safe x) : ∃ a, x = .ok a :=
  Causeless.exists_eq_ok (fun e => e.elim) hsafe

/-- A checked loop is safe exactly if all its steps are, when it depends on their items alone which
of them are. -/
theorem safe_foldlM_iff {f : α → ι → Checked α} {P : ι → Prop} {l : List ι}
    (h : ∀ a, ∀ i ∈ l, Safe (f a i) ↔ P i) (a : α) : Safe (l.foldlM f a) ↔ ∀ i ∈ l, P i := by
  induction l generalizing a with
  | nil => simp
  | cons i rest ih =>
    have hi := h a i List.mem_cons_self
    have hrest := ih fun b j hj => h b j (List.mem_cons_of_mem i hj)
    rw [List.foldlM_cons, safe_bind, List.forall_mem_cons, hi]
    refine and_congr_right fun hP => ?_
    obtain ⟨b, hb⟩ := exists_eq_ok_of_safe (hi.mpr hP)
    exact ⟨fun hall => (hrest b).mp (hall b hb), fun hall c _ => (hrest c).mpr hall⟩

/-- Whether every cause for which a computation fails is of some kind. -/
def FailsOnly (x : Attempt ε α) (K : ε → Prop) : Prop := ∀ e, x = .error (.cause e) → K e

section FailsOnly

variable {K : ε → Prop}

theorem failsOnly_pure (a : α) : (pure a : Attempt ε α).FailsOnly K := nofun

theorem failsOnly_overflow : (overflow : Attempt ε α).FailsOnly K := nofun

theorem failsOnly_fail {e : ε} (h : K e) : (fail e : Attempt ε α).FailsOnly K := fun _ he => by
  cases he
  exact h

theorem failsOnly_liftM (x : Checked α) : (liftM x : Attempt ε α).FailsOnly K :=
  fun e he => absurd he (causeless_liftM x e)

/-- A changed cause is of the kind that the change gives. -/
theorem failsOnly_mapCause {f : δ → ε} (h : ∀ e, K (f e)) (x : Attempt δ α) :
    (x.mapCause f).FailsOnly K := by
  rcases x with (_ | e) | a
  · nofun
  · exact failsOnly_fail (h e)
  · nofun

/-- A computation goes on with causes of a kind if it does so with every result of its first
part. -/
theorem FailsOnly.bind {f : α → Attempt ε β} (hx : x.FailsOnly K)
    (hf : ∀ a, x = .ok a → (f a).FailsOnly K) : (x >>= f).FailsOnly K := by
  rcases x with (_ | e) | a
  · nofun
  · exact failsOnly_fail (hx e rfl)
  · exact hf a rfl

/-- A loop fails for causes of a kind if its steps do. -/
theorem FailsOnly.foldlM {f : α → ι → Attempt ε α} {l : List ι} {a : α}
    (hf : ∀ a, ∀ i ∈ l, (f a i).FailsOnly K) : (l.foldlM f a).FailsOnly K := by
  induction l generalizing a with
  | nil => exact failsOnly_pure a
  | cons i rest ih =>
    rw [List.foldlM_cons]
    exact (hf a i List.mem_cons_self).bind fun b _ =>
      ih fun a j hj => hf a j (List.mem_cons_of_mem i hj)

end FailsOnly

/-! ## Values that may not exist -/

variable {P Q : α → Prop}

/-- Whether a value that may not exist is computed, and is of a kind if it exists. -/
def Gives (x : Checked (Option α)) (P : α → Prop) : Prop := x.Safe ∧ ∀ a, x = .ok (some a) → P a

theorem gives_pure {o : Option α} (h : ∀ a, o = some a → P a) : Gives (pure o) P :=
  ⟨safe_pure _, fun a ha => h a (by cases ha; rfl)⟩

theorem gives_none : Gives (pure none) P := gives_pure nofun

theorem gives_some {a : α} (h : P a) : Gives (pure (some a)) P :=
  gives_pure fun b hb => by
    cases hb
    exact h

theorem Gives.mono {x : Checked (Option α)} (h : Gives x P) (hPQ : ∀ a, P a → Q a) : Gives x Q :=
  ⟨h.1, fun a ha => hPQ a (h.2 a ha)⟩

/-- A computation goes on with a value, if it is computed without overflow. -/
theorem gives_bind {R : β → Prop} {x : Checked α} {next : α → Checked (Option β)} :
    Gives (x >>= next) R ↔ x.Safe ∧ ∀ a, x = .ok a → Gives (next a) R := by
  rcases x with (_ | e) | a
  · simp [Gives, Safe, bind, Except.bind]
  · exact e.elim
  · simp [bind, Except.bind]

/-- What goes on only with a value has a value exactly if both parts do. -/
theorem bind_option_eq_some {x : Checked (Option α)} {next : Option α → Checked (Option β)} {b : β}
    (hnone : next none = pure none) :
    (x >>= next) = .ok (some b) ↔ ∃ a, x = .ok (some a) ∧ next (some a) = .ok (some b) := by
  rcases x with e | (_ | a)
  · simp [bind, Except.bind]
  · change next none = _ ↔ _
    simp [hnone]
  · simp [bind, Except.bind]

/-- What goes on only with a value is safe up to there and with every value from there on. -/
theorem safe_bind_option {x : Checked (Option α)} {next : Option α → Checked (Option β)}
    (hnone : next none = pure none) :
    (x >>= next).Safe ↔ x.Safe ∧ ∀ a, x = .ok (some a) → (next (some a)).Safe := by
  rcases x with (_ | e) | (_ | a)
  · simp [Safe, bind, Except.bind]
  · exact e.elim
  · change (next none).Safe ↔ _
    simp [hnone]
  · simp [bind, Except.bind]

/-- A computation that goes on only with a value that exists. -/
theorem gives_bind_option {R : β → Prop} {x : Checked (Option α)}
    {next : Option α → Checked (Option β)} (hnone : next none = pure none) :
    Gives (x >>= next) R ↔ Gives x fun a => Gives (next (some a)) R := by
  rcases x with (_ | e) | (_ | a)
  · simp [Gives, Safe, bind, Except.bind]
  · exact e.elim
  · change Gives (next none) R ↔ _
    rw [hnone]
    exact iff_of_true gives_none gives_none
  · simp [bind, Except.bind, Gives]

end Attempt

/-! ## Checks -/

/-- A check of an integer is safe exactly on the range. -/
theorem WordRange.safe_check {r : WordRange} {n : Int} : (r.check n).Safe ↔ r.Holds n := by
  unfold WordRange.check
  split <;> simp [*, Attempt.Safe]

/-- Words hold all integers of a smaller absolute value than the least one. -/
theorem safe_check64 {n : Int} (h : n.natAbs < 2 ^ 63) : (check64 n).Safe := by
  rw [WordRange.safe_check]
  change -9223372036854775808 ≤ n ∧ n ≤ 9223372036854775807
  omega

/-- Words hold what fits. -/
theorem WordRange.holds_of_fit? {r : WordRange} {n m : Int} (h : r.fit? n = some m) :
    r.Holds m := by
  unfold WordRange.fit? at h
  split at h
  · next hn =>
    cases h
    exact hn
  · cases h

end LoopKernel
