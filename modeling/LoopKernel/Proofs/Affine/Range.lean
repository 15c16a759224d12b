import LoopKernel.Proofs.Affine.Constraint
import LoopKernel.Proofs.Overflow

/-!
# Ranges of affine forms

Bounds on the coefficients and the constant of affine forms, and what follows for the operations:
they do not overflow while the bounds stay within words.
-/

namespace LoopKernel

namespace Affine

variable {f g s : Affine} {k : Int} {A B : Option String → Nat}

/-- The coefficient of a variable, or the constant. -/
def part (f : Affine) : Option String → Int
  | none => f.constant
  | some name => f.coeff name

/-- Whether the coefficients and the constant have absolute values within bounds. -/
def Within (f : Affine) (bound : Option String → Nat) : Prop :=
  ∀ p, (f.part p).natAbs ≤ bound p

/-- The constant is the value where all variables are zero. -/
theorem value_zero (f : Affine) : f.value 0 = f.constant := by
  have hzero : f.coeffs.entries.map (fun e => e.2 * (0 : String → Int) e.1) =
      f.coeffs.entries.map fun _ => 0 := by simp
  unfold value
  rw [hzero]
  simp

/-- Parts of a sum are sums of the parts. -/
theorem part_add (h : f.add g = .ok s) (p : Option String) : s.part p = f.part p + g.part p := by
  cases p with
  | none =>
    have hvalue := value_add 0 h
    simpa only [part, value_zero] using hvalue
  | some name => exact coeff_add h name

/-- Parts of a multiple are multiples of the parts. -/
theorem part_scale (h : f.scale k = .ok g) (p : Option String) : g.part p = f.part p * k := by
  cases p with
  | none =>
    have hvalue := value_scale 0 h
    simpa only [part, value_zero] using hvalue
  | some name => exact coeff_scale h name

/-- Parts of a difference are differences of the parts. -/
theorem part_sub (h : f.sub g = .ok s) (p : Option String) : s.part p = f.part p - g.part p := by
  cases p with
  | none =>
    have hvalue := value_sub 0 h
    simpa only [part, value_zero] using hvalue
  | some name => exact coeff_sub h name

/-- Entries are coefficients. -/
theorem coeff_of_mem_entries {e : String × Int} (h : e ∈ f.coeffs.entries) :
    f.coeff e.1 = e.2 := by
  unfold coeff SortedMap.getD
  rw [SortedMap.mem_entries.mp h, Option.getD_some]

namespace Within

/-- Larger bounds hold too. -/
theorem mono (h : f.Within A) (hAB : ∀ p, A p ≤ B p) : f.Within B :=
  fun p => (h p).trans (hAB p)

/-- A constant is within bounds for constants. -/
theorem const {c : Int} (h : c.natAbs ≤ B none) : (Affine.const c).Within B := by
  rintro (_ | name)
  · exact h
  · exact Nat.zero_le _

/-- A variable is within bounds that allow its coefficient. -/
theorem var {name : String} (h : 1 ≤ B (some name)) : (Affine.var name).Within B := by
  rintro (_ | other)
  · exact Nat.zero_le _
  · by_cases hother : other = name
    · subst hother
      simpa [part, coeff, Affine.var, term, SortedMap.getD, SortedMap.get?_insert] using h
    · simp [part, coeff, Affine.var, term, SortedMap.getD, SortedMap.get?_insert, hother]

theorem add (hf : f.Within A) (hg : g.Within B) (h : f.add g = .ok s) :
    s.Within fun p => A p + B p := by
  intro p
  rw [part_add h]
  exact (Int.natAbs_add_le _ _).trans (Nat.add_le_add (hf p) (hg p))

theorem sub (hf : f.Within A) (hg : g.Within B) (h : f.sub g = .ok s) :
    s.Within fun p => A p + B p := by
  intro p
  rw [part_sub h]
  exact (Int.natAbs_sub_le _ _).trans (Nat.add_le_add (hf p) (hg p))

theorem scale (hf : f.Within A) (h : f.scale k = .ok g) : g.Within fun p => A p * k.natAbs := by
  intro p
  rw [part_scale h, Int.natAbs_mul]
  exact Nat.mul_le_mul_right _ (hf p)

end Within

/-- Multiples within words are computed. -/
theorem safe_scale (hf : f.Within A) (hA : ∀ p, A p * k.natAbs < 2 ^ 63) : (f.scale k).Safe := by
  have hpart : ∀ p, (f.part p * k).natAbs < 2 ^ 63 := by
    intro p
    rw [Int.natAbs_mul]
    exact (Nat.mul_le_mul_right _ (hf p)).trans_lt (hA p)
  unfold scale
  split
  · exact Attempt.safe_pure _
  · refine Attempt.Safe.bind ?_ fun _ _ => Attempt.Safe.bind (safe_check64 (hpart none)) fun _ _ =>
      Attempt.safe_pure _
    unfold scaleCoeffs
    rw [if_pos]
    · exact Attempt.safe_pure _
    · rw [List.all_eq_true]
      intro e he
      have hword := hpart (some e.1)
      rw [part, coeff_of_mem_entries he] at hword
      simpa [WordRange.safe_check] using safe_check64 hword

/-- Adding to one coefficient leaves the others alone. -/
theorem getD_addTerm {coeffs next : SortedMap String Int} {name other : String} {c : Int}
    (h : addTerm coeffs name c = .ok next) (hother : other ≠ name) :
    next.getD other 0 = coeffs.getD other 0 := by
  unfold addTerm at h
  simp only [Attempt.bind_eq_ok, Attempt.pure_eq_ok] at h
  obtain ⟨total, -, rfl⟩ := h
  split
  · rw [SortedMap.getD, SortedMap.get?_erase, if_neg hother, SortedMap.getD]
  · rw [SortedMap.getD_insert, if_neg hother]

/-- Coefficients for different variables are added when each sum is within words. -/
theorem safe_addTerms {l : List (String × Int)} {coeffs : SortedMap String Int}
    (hnodup : (l.map Prod.fst).Nodup)
    (h : ∀ e ∈ l, (coeffs.getD e.1 0 + e.2).natAbs < 2 ^ 63) :
    (l.foldlM (fun coeffs e => addTerm coeffs e.1 e.2) coeffs).Safe := by
  induction l generalizing coeffs with
  | nil => exact Attempt.safe_pure _
  | cons e rest ih =>
    rw [List.map_cons, List.nodup_cons] at hnodup
    rw [List.foldlM_cons]
    refine Attempt.Safe.bind ?_ fun next hnext => ih hnodup.2 fun other hother => ?_
    · exact Attempt.Safe.bind (safe_check64 (h e List.mem_cons_self)) fun _ _ => Attempt.safe_pure _
    · have hne : other.1 ≠ e.1 := fun he => hnodup.1 (he ▸ List.mem_map_of_mem hother)
      rw [getD_addTerm hnext hne]
      exact h other (List.mem_cons_of_mem e hother)

/-- Sums within words are computed. -/
theorem safe_add (hf : f.Within A) (hg : g.Within B) (hAB : ∀ p, A p + B p < 2 ^ 63) :
    (f.add g).Safe := by
  have hpart : ∀ p, (f.part p + g.part p).natAbs < 2 ^ 63 := fun p =>
    ((Int.natAbs_add_le _ _).trans (Nat.add_le_add (hf p) (hg p))).trans_lt (hAB p)
  unfold add
  refine Attempt.Safe.bind (safe_addTerms g.coeffs.nodup_keys fun e he => ?_) fun _ _ =>
    Attempt.Safe.bind (safe_check64 (hpart none)) fun _ _ => Attempt.safe_pure _
  have hword := hpart (some e.1)
  rwa [part, part, coeff_of_mem_entries he] at hword

/-- Differences within words are computed. -/
theorem safe_sub (hf : f.Within A) (hg : g.Within B) (hAB : ∀ p, A p + B p < 2 ^ 63) :
    (f.sub g).Safe := by
  unfold sub
  refine Attempt.Safe.bind (safe_scale hg fun p => ?_) fun negated hnegated =>
    safe_add hf (hg.scale hnegated) fun p => ?_
  · exact (Nat.le_add_left _ _).trans_lt (by simpa using hAB p)
  · simpa using hAB p

/-- The common divisor of coefficients that have absolute values is computed. -/
theorem safe_content (hf : f.Within A) (hA : ∀ p, A p < 2 ^ 63) : f.content.Safe := by
  unfold content
  refine Attempt.Safe.foldlM (fun _ => True) trivial fun g c hc _ => ⟨?_, fun _ _ => trivial⟩
  obtain ⟨name, hname⟩ := SortedMap.mem_values.mp hc
  have hcoeff : f.part (some name) = c :=
    coeff_of_mem_entries (SortedMap.mem_entries.mpr hname)
  refine Attempt.Safe.bind (safe_check64 ?_) fun _ _ => Attempt.safe_pure _
  rw [Int.natAbs_natCast, ← hcoeff]
  exact (hf (some name)).trans_lt (hA (some name))

end Affine

namespace Constraint

variable {c d : Constraint} {f g : Affine} {A B : Option String → Nat}

/-- Dividing coefficients leaves a form within its bounds. -/
theorem within_divideCoeffs (hf : f.Within A) (n : Nat) :
    (divideCoeffs f n (f.constant / n)).Within A := by
  rintro (_ | name)
  · exact (Int.natAbs_ediv_le_natAbs _ _).trans (hf none)
  · refine le_trans ?_ (hf (some name))
    simp only [Affine.part, Affine.coeff, divideCoeffs, SortedMap.getD, SortedMap.get?_mapValues]
    cases f.coeffs.get? name with
    | none => exact le_rfl
    | some c => exact Int.natAbs_ediv_le_natAbs c n

/-- An equality in lowest terms stays within its bounds. -/
theorem within_reduce (hf : f.Within A) (n : Nat) : (reduce f n).Within A := by
  unfold reduce
  split
  · exact within_divideCoeffs hf n
  · exact hf

/-- Orienting an equality within words does not overflow. -/
theorem safe_orient (hf : f.Within A) (hA : ∀ p, A p < 2 ^ 63) : (orient f).Safe := by
  unfold orient
  split
  · split
    · exact Affine.safe_scale hf (by simpa using hA)
    · exact Attempt.safe_pure _
  · exact Attempt.safe_pure _

/-- Normalizing a constraint within words does not overflow, and leaves it within its bounds. -/
theorem within_normalize (hc : c.form.Within A) (hA : ∀ p, A p < 2 ^ 63) :
    c.normalize.Safe ∧ ∀ d, c.normalize = .ok d → d.form.Within A := by
  constructor
  · unfold normalize
    refine Attempt.Safe.bind (Affine.safe_content hc hA) fun n _ => ?_
    cases c.relation with
    | inequality => exact Attempt.safe_pure _
    | equality =>
      exact Attempt.Safe.bind (safe_orient (within_reduce hc n) hA) fun _ _ => Attempt.safe_pure _
  · intro d hd
    refine forms_of_normalize (P := fun f => f.Within A)
      (fun f n hf _ => within_divideCoeffs hf n) (fun f g hf hg => ?_) hc hd
    simpa using hf.scale hg

/-- Requiring something of a difference within words does not overflow. -/
theorem within_normalize_sub (relation : Relation) (hf : f.Within A) (hg : g.Within B)
    (hAB : ∀ p, A p + B p < 2 ^ 63) :
    (f.sub g >>= fun s => normalize ⟨relation, s⟩).Safe ∧
      ∀ d, (f.sub g >>= fun s => normalize ⟨relation, s⟩) = .ok d →
        d.form.Within fun p => A p + B p := by
  constructor
  · exact Attempt.Safe.bind (Affine.safe_sub hf hg hAB) fun s hs =>
      (within_normalize (hf.sub hg hs) hAB).1
  · intro d hd
    rw [Attempt.bind_eq_ok] at hd
    obtain ⟨s, hs, hd⟩ := hd
    exact (within_normalize (hf.sub hg hs) hAB).2 d hd

/-- Comparing two forms whose difference is within words does not overflow. -/
theorem within_ge (hf : f.Within A) (hg : g.Within B) (hAB : ∀ p, A p + B p < 2 ^ 63) :
    (ge f g).Safe ∧ ∀ d, ge f g = .ok d → d.form.Within fun p => A p + B p :=
  within_normalize_sub .inequality hf hg hAB

theorem within_eq (hf : f.Within A) (hg : g.Within B) (hAB : ∀ p, A p + B p < 2 ^ 63) :
    (eq f g).Safe ∧ ∀ d, eq f g = .ok d → d.form.Within fun p => A p + B p :=
  within_normalize_sub .equality hf hg hAB

/-- The one that a strict comparison takes from the constant. -/
def one : Option String → Nat
  | none => 1
  | some _ => 0

/-- Comparing two forms strictly whose difference, less one, is within words does not overflow. -/
theorem within_lt (hf : f.Within A) (hg : g.Within B)
    (hAB : ∀ p, A p + B p + one p < 2 ^ 63) :
    (lt f g).Safe ∧ ∀ d, lt f g = .ok d → d.form.Within fun p => A p + B p + one p := by
  have hsub : ∀ s, g.sub f = .ok s → s.Within fun p => A p + B p := fun s hs =>
    (hg.sub hf hs).mono fun p => (Nat.add_comm _ _).le
  have hone : (Affine.const 1).Within one := .const le_rfl
  constructor
  · refine Attempt.Safe.bind (Affine.safe_sub hg hf fun p => ?_) fun s hs =>
      Attempt.Safe.bind (Affine.safe_sub (hsub s hs) hone hAB) fun t ht =>
        (within_normalize ((hsub s hs).sub hone ht) hAB).1
    rw [Nat.add_comm]
    exact (Nat.le_add_right _ _).trans_lt (hAB p)
  · intro d hd
    unfold lt at hd
    simp only [Attempt.bind_eq_ok] at hd
    obtain ⟨s, hs, t, ht, hd⟩ := hd
    exact (within_normalize ((hsub s hs).sub hone ht) hAB).2 d hd

end Constraint

end LoopKernel
