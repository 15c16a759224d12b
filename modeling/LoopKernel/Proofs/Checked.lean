import LoopKernel.Checked

/-!
# Checked loops

What a loop of a computation that may fail has done when it gives a result.
-/

namespace LoopKernel.Attempt

variable {ε α β ι : Type}

/-- A result is that of a computation of this result alone. -/
@[simp] theorem pure_eq_ok {a b : α} : (pure a : Attempt ε α) = .ok b ↔ a = b := by
  simp [pure, Except.pure]

/-- Failing gives no result. -/
@[simp] theorem fail_ne_ok {e : ε} {a : α} : (fail e : Attempt ε α) ≠ .ok a := by
  simp [fail]

/-- Overflow gives no result. -/
@[simp] theorem overflow_ne_ok {a : α} : (overflow : Attempt ε α) ≠ .ok a := by
  simp [overflow]

/-- Lifting a computation keeps its results. -/
@[simp] theorem liftM_eq_ok {x : Checked α} {a : α} :
    (liftM x : Attempt ε α) = .ok a ↔ x = .ok a := ofChecked_eq_ok

/-- Changing the cause of failures keeps the results. -/
@[simp] theorem mapCause_eq_ok {δ : Type} {f : ε → δ} {x : Attempt ε α} {a : α} :
    x.mapCause f = .ok a ↔ x = .ok a := by
  rcases x with (_ | e) | _ <;> simp [mapCause]

/-- A caught result is that of the computation. -/
theorem caught_eq_ok {x : Attempt ε α} {a : α} : x.caught = .ok (.ok a) ↔ x = .ok a := by
  rcases x with (_ | e) | _ <;> simp [caught]

/-- A computation that is found to have a result has one. -/
theorem exists_eq_ok {x : Attempt ε α} (h : x.isOk = true) : ∃ a, x = .ok a := by
  cases x with
  | ok a => exact ⟨a, rfl⟩
  | error e => cases h

/-- Whether a computation has a result with some property is found by running it. -/
instance {P : α → Prop} [DecidablePred P] :
    (x : Attempt ε α) → Decidable (∃ a, x = .ok a ∧ P a)
  | .ok a => decidable_of_iff (P a) ⟨fun h => ⟨a, rfl, h⟩, by rintro ⟨_, ⟨⟩, h⟩; exact h⟩
  | .error _ => .isFalse (by rintro ⟨_, ⟨⟩, _⟩)

/-- What holds before a loop and is kept by each step holds after it. The invariant may speak of the
items that the loop has gone through. -/
theorem foldlM_induction {P : List ι → α → Prop} {f : α → ι → Attempt ε α} {l : List ι} {a b : α}
    (hstart : P [] a)
    (hstep : ∀ done a i b, i ∈ l → P done a → f a i = .ok b → P (done ++ [i]) b)
    (h : l.foldlM f a = .ok b) : P l b := by
  have general : ∀ (rest done : List ι) (a : α), (∀ i ∈ rest, i ∈ l) → P done a →
      rest.foldlM f a = .ok b → P (done ++ rest) b := by
    intro rest
    induction rest with
    | nil =>
      intro done a _ hp h
      rw [List.foldlM_nil, pure_eq_ok] at h
      rw [List.append_nil, ← h]
      exact hp
    | cons i rest ih =>
      intro done a hmem hp h
      rw [List.foldlM_cons, bind_eq_ok] at h
      obtain ⟨c, hc, h⟩ := h
      have hnext := hstep done a i c (hmem i List.mem_cons_self) hp hc
      have := ih (done ++ [i]) c (fun j hj => hmem j (List.mem_cons_of_mem i hj)) hnext h
      rwa [List.append_assoc] at this
  exact general l [] a (fun _ h => h) hstart h

/-- Every result of a computation for each item of a list comes from an item. -/
theorem exists_of_mem_mapM {f : ι → Attempt ε α} {l : List ι} {results : List α}
    (h : l.mapM f = .ok results) {a : α} (ha : a ∈ results) : ∃ i ∈ l, f i = .ok a := by
  induction l generalizing results with
  | nil =>
    rw [List.mapM_nil, pure_eq_ok] at h
    rw [← h] at ha
    cases ha
  | cons i rest ih =>
    simp only [List.mapM_cons, bind_eq_ok, pure_eq_ok] at h
    obtain ⟨b, hb, others, hothers, rfl⟩ := h
    rcases List.mem_cons.mp ha with rfl | ha
    · exact ⟨i, List.mem_cons_self, hb⟩
    · obtain ⟨j, hj, hja⟩ := ih hothers ha
      exact ⟨j, List.mem_cons_of_mem i hj, hja⟩

/-- A computation for each item of a list has a result when the one for each item has. -/
theorem exists_mapM_iff {f : ι → Attempt ε α} {l : List ι} :
    (∃ results, l.mapM f = .ok results) ↔ ∀ i ∈ l, ∃ a, f i = .ok a := by
  induction l with
  | nil => simp
  | cons i rest ih =>
    simp only [List.mapM_cons, bind_eq_ok, pure_eq_ok, List.forall_mem_cons, ← ih]
    constructor
    · rintro ⟨_, a, ha, results, hresults, -⟩
      exact ⟨⟨a, ha⟩, results, hresults⟩
    · rintro ⟨⟨a, ha⟩, results, hresults⟩
      exact ⟨_, a, ha, results, hresults, rfl⟩

/-- A computation that gives each item of a list itself gives the list. -/
theorem mapM_eq_self {f : ι → Attempt ε ι} {l : List ι} (h : ∀ i ∈ l, f i = .ok i) :
    l.mapM f = .ok l := by
  induction l with
  | nil => rfl
  | cons i rest ih =>
    rw [List.forall_mem_cons] at h
    rw [List.mapM_cons, h.1, ih h.2]
    rfl

/-- What each computation for an item keeps of it is kept of the list. -/
theorem map_of_mapM {β : Type} {f : ι → Attempt ε α} {g : ι → β} {g' : α → β}
    (hf : ∀ i a, f i = .ok a → g' a = g i) {l : List ι} {results : List α}
    (h : l.mapM f = .ok results) : results.map g' = l.map g := by
  induction l generalizing results with
  | nil =>
    rw [List.mapM_nil, pure_eq_ok] at h
    rw [← h, List.map_nil, List.map_nil]
  | cons i rest ih =>
    simp only [List.mapM_cons, bind_eq_ok, pure_eq_ok] at h
    obtain ⟨a, ha, others, hothers, rfl⟩ := h
    rw [List.map_cons, List.map_cons, hf i a ha, ih hothers]

/-- A test of all items that comes out true came out true for each. -/
theorem of_allM_true {f : ι → Attempt ε Bool} {l : List ι} (h : l.allM f = .ok true) :
    ∀ i ∈ l, f i = .ok true := by
  induction l with
  | nil => simp
  | cons i rest ih =>
    rw [List.allM, bind_eq_ok] at h
    obtain ⟨b, hb, h⟩ := h
    cases b with
    | false => simp at h
    | true =>
      intro j hj
      rcases List.mem_cons.mp hj with rfl | hj
      · exact hb
      · exact ih h j hj

/-- A test of all items that comes out false came out false for one. -/
theorem of_allM_false {f : ι → Attempt ε Bool} {l : List ι} (h : l.allM f = .ok false) :
    ∃ i ∈ l, f i = .ok false := by
  induction l with
  | nil => simp at h
  | cons i rest ih =>
    rw [List.allM, bind_eq_ok] at h
    obtain ⟨b, hb, h⟩ := h
    cases b with
    | false => exact ⟨i, List.mem_cons_self, hb⟩
    | true =>
      obtain ⟨j, hj, hf⟩ := ih h
      exact ⟨j, List.mem_cons_of_mem i hj, hf⟩

/-- A search for an item that comes out true came out true for one. -/
theorem of_anyM_true {f : ι → Attempt ε Bool} {l : List ι} (h : l.anyM f = .ok true) :
    ∃ i ∈ l, f i = .ok true := by
  induction l with
  | nil => simp at h
  | cons i rest ih =>
    rw [List.anyM, bind_eq_ok] at h
    obtain ⟨b, hb, h⟩ := h
    cases b with
    | true => exact ⟨i, List.mem_cons_self, hb⟩
    | false =>
      obtain ⟨j, hj, ht⟩ := ih h
      exact ⟨j, List.mem_cons_of_mem i hj, ht⟩

/-- A search for an item that comes out false came out false for each. -/
theorem of_anyM_false {f : ι → Attempt ε Bool} {l : List ι} (h : l.anyM f = .ok false) :
    ∀ i ∈ l, f i = .ok false := by
  induction l with
  | nil => simp
  | cons i rest ih =>
    rw [List.anyM, bind_eq_ok] at h
    obtain ⟨b, hb, h⟩ := h
    cases b with
    | true => simp at h
    | false =>
      intro j hj
      rcases List.mem_cons.mp hj with rfl | hj
      · exact hb
      · exact ih h j hj

/-- A selection by a test that may fail keeps items of the list, and leaves out only items for which
the test came out false. -/
theorem of_filterM {f : ι → Attempt ε Bool} {l out : List ι}
    (h : l.filterM f = .ok out) :
    (∀ i ∈ out, i ∈ l) ∧ ∀ i ∈ l, i ∈ out ∨ f i = .ok false := by
  have general : ∀ (l acc : List ι) {out : List ι}, l.filterAuxM f acc = .ok out →
      (∀ i ∈ out, i ∈ l ∨ i ∈ acc) ∧ (∀ i ∈ acc, i ∈ out) ∧
        ∀ i ∈ l, i ∈ out ∨ f i = .ok false := by
    intro l
    induction l with
    | nil =>
      intro acc out h
      rw [List.filterAuxM, pure_eq_ok] at h
      subst h
      simp
    | cons i rest ih =>
      intro acc out h
      rw [List.filterAuxM, bind_eq_ok] at h
      obtain ⟨b, hb, h⟩ := h
      obtain ⟨hout, hacc, hrest⟩ := ih _ h
      cases b with
      | true =>
        simp only [cond_true, List.mem_cons, forall_eq_or_imp] at hout hacc ⊢
        refine ⟨fun j hj => ?_, hacc.2, .inl hacc.1, hrest⟩
        rcases hout j hj with h | h | h
        · exact .inl (.inr h)
        · exact .inl (.inl h)
        · exact .inr h
      | false =>
        simp only [cond_false, List.mem_cons, forall_eq_or_imp] at hout hacc ⊢
        exact ⟨fun j hj => (hout j hj).imp_left .inr, hacc, .inr hb, hrest⟩
  rw [List.filterM, bind_eq_ok] at h
  obtain ⟨reversed, hreversed, h⟩ := h
  rw [pure_eq_ok] at h
  obtain ⟨hout, -, hleft⟩ := general l [] hreversed
  subst h
  simp only [List.mem_reverse]
  exact ⟨fun i hi => (hout i hi).resolve_right List.not_mem_nil, hleft⟩

/-- A selection is empty exactly if the test comes out false for each item. -/
theorem filterM_eq_nil_iff {f : ι → Attempt ε Bool} {l : List ι} :
    l.filterM f = .ok [] ↔ ∀ i ∈ l, f i = .ok false := by
  constructor
  · intro h i hi
    exact ((of_filterM h).2 i hi).resolve_left List.not_mem_nil
  · intro h
    have hnone : l.filterAuxM f [] = .ok [] := by
      induction l with
      | nil => rfl
      | cons i rest ih =>
        rw [List.forall_mem_cons] at h
        rw [List.filterAuxM, h.1]
        exact ih h.2
    rw [List.filterM, hnone]
    rfl

end LoopKernel.Attempt
