import LoopKernel.Proofs.Execution.Run

/-!
# Accumulating instructions

An instruction that combines what a cell holds with one more value, at point after point. In the end
each cell holds the fold over the points that lead to it, in the order in which they came.
-/

namespace LoopKernel.Instruction

variable {V W : Type} {insn : Instruction} {M : Machine V} (start : Memory V) {m : Memory V}
  {name : String} {l : List Point} (index : Point → List V) (cell : Point → Point)

open Classical in
/-- What an accumulating instruction leaves in a cell. -/
theorem writeAll_storesFrom_accumulates (combine : V → W → V) (value : Point → W)
    (h : ∀ now : Memory V, (∀ n, n ≠ name → now n = m n) → ∀ p ∈ l,
      insn.storeAt M start now p =
        ⟨name, index p, cell p, combine (now name (index p) (cell p)) (value p)⟩)
    (i : List V) (c : Point) :
    m.writeAll (insn.storesFrom M start m l) name i c =
      (l.filter fun p => index p = i ∧ cell p = c).foldl (fun t p => combine t (value p))
        (m name i c) := by
  induction l generalizing m with
  | nil => rfl
  | cons p rest ih =>
    have hstore := h m (fun _ _ => rfl) p List.mem_cons_self
    have hoff : ∀ n, n ≠ name → m.write (insn.storeAt M start m p) n = m n := by
      intro n hn
      apply m.write_other_name
      rw [hstore]
      exact hn
    have hrest := ih (m := m.write (insn.storeAt M start m p)) fun now hnow q hq =>
      h now (fun n hn => (hnow n hn).trans (hoff n hn)) q (List.mem_cons_of_mem p hq)
    rw [storesFrom]
    change (m.write _).writeAll _ name i c = _
    rw [hrest, hstore]
    by_cases hp : index p = i ∧ cell p = c
    · rw [List.filter_cons_of_pos (by simpa using hp), List.foldl_cons, ← hp.1, ← hp.2]
      congr 1
      exact m.write_same ⟨name, index p, cell p, _⟩
    · rw [List.filter_cons_of_neg (by simpa using hp)]
      congr 1
      rw [Memory.write, if_neg]
      rintro ⟨-, hi, hc⟩
      exact hp ⟨hi.symm, hc.symm⟩

/-- What an instruction leaves in a cell that stores one value everywhere. -/
theorem writeAll_storesFrom_const (v : V)
    (h : ∀ now : Memory V, (∀ n, n ≠ name → now n = m n) → ∀ p ∈ l,
      insn.storeAt M start now p = ⟨name, index p, cell p, v⟩) {p : Point} (hp : p ∈ l) :
    m.writeAll (insn.storesFrom M start m l) name (index p) (cell p) = v := by
  classical
  have hconst : ∀ rest : List Point, rest.foldl (fun _ _ => v) v = v := by
    intro rest
    induction rest with
    | nil => rfl
    | cons _ rest ih => exact ih
  rw [writeAll_storesFrom_accumulates start index cell (fun _ _ => v) (fun _ => ()) h]
  have hmem : p ∈ l.filter fun q => index q = index p ∧ cell q = cell p := by simp [hp]
  obtain ⟨q, rest, hsplit⟩ := List.exists_cons_of_ne_nil (List.ne_nil_of_mem hmem)
  rw [hsplit, List.foldl_cons, hconst]

end LoopKernel.Instruction
