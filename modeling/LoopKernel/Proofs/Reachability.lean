import LoopKernel.Reachability
import Mathlib.Data.List.TakeWhile

/-!
# Reachability is exact

Depth-first search lists exactly the nodes that a path inside the graph leads to.
-/

namespace LoopKernel.Reachability

variable {α : Type}

/-- A path inside a list of nodes leads from one of the start nodes to a node. -/
inductive Reaches (next : α → List α) (nodes start : List α) : α → Prop where
  | start {a : α} : a ∈ nodes → a ∈ start → Reaches next nodes start a
  | step {a b : α} : Reaches next nodes start a → b ∈ nodes → b ∈ next a →
      Reaches next nodes start b

namespace Reaches

variable {next : α → List α} {nodes start : List α} {a b : α}

/-- Paths stay inside the nodes. -/
theorem mem_nodes (h : Reaches next nodes start a) : a ∈ nodes := by
  cases h with
  | start ha _ => exact ha
  | step _ ha _ => exact ha

/-- More nodes and more start nodes reach more. -/
theorem mono {nodes' start' : List α} (hn : ∀ c ∈ nodes, c ∈ nodes')
    (hs : ∀ c ∈ nodes, c ∈ start → Reaches next nodes' start' c)
    (h : Reaches next nodes start a) : Reaches next nodes' start' a := by
  induction h with
  | start ha hst => exact hs _ ha hst
  | step _ hb hnext ih => exact .step ih (hn _ hb) hnext

/-- Without a start node among the nodes nothing is reached. -/
theorem not_of_forall (hnone : ∀ c ∈ start, c ∉ nodes) : ¬Reaches next nodes start b := by
  intro h
  induction h with
  | start hb hst => exact hnone _ hst hb
  | step _ _ _ ih => exact ih

end Reaches

variable [BEq α] {next : α → List α}

/-- What is reached without a node, from its successors as well, is reached with it. -/
private theorem reaches_of_erase {nodes pending rest : List α} {s b : α} (hs : s ∈ nodes)
    (hp : s ∈ pending) (hrest : ∀ c ∈ rest, c ∈ pending)
    (h : Reaches next (nodes.erase s) (next s ++ rest) b) : Reaches next nodes pending b := by
  refine h.mono (fun c hc => List.mem_of_mem_erase hc) ?_
  intro c hc hm
  have hcn : c ∈ nodes := List.mem_of_mem_erase hc
  rcases List.mem_append.mp hm with hnext | hr
  · exact .step (.start hs hp) hcn hnext
  · exact .start hcn (hrest c hr)

variable [LawfulBEq α]

/-- What is reached apart from a node is reached without it, from its successors as well. -/
private theorem erase_of_reaches {nodes pending rest : List α} {s b : α}
    (hrest : ∀ c ∈ pending, c ∈ nodes → c = s ∨ c ∈ rest)
    (h : Reaches next nodes pending b) (hne : b ≠ s) :
    Reaches next (nodes.erase s) (next s ++ rest) b := by
  induction h with
  | start hb hp =>
    have hb' := (List.mem_erase_of_ne hne).mpr hb
    rcases hrest _ hp hb with rfl | hr
    · exact False.elim (hne rfl)
    · exact .start hb' (List.mem_append_right _ hr)
  | @step a b _ hb hnext ih =>
    have hb' := (List.mem_erase_of_ne hne).mpr hb
    by_cases ha : a = s
    · subst a
      exact .start hb' (List.mem_append_left _ hnext)
    · exact .step (ih ha) hb' hnext

/-- The first pending node that is unvisited, with those after it: the pending nodes before it are
all visited. -/
private theorem of_dropWhile_visited {unvisited pending rest : List α} {s : α}
    (h : (pending.dropWhile fun a => !unvisited.contains a) = s :: rest) :
    s ∈ unvisited ∧ s ∈ pending ∧ (∀ c ∈ rest, c ∈ pending) ∧
      ∀ c ∈ pending, c ∈ unvisited → c = s ∨ c ∈ rest := by
  have hsuffix : (s :: rest) <:+ pending := h ▸ List.dropWhile_suffix _
  refine ⟨?_, hsuffix.subset List.mem_cons_self,
    fun c hc => hsuffix.subset (List.mem_cons_of_mem _ hc), fun c hc hu => ?_⟩
  · have hhead := List.head?_dropWhile_not (fun a => !unvisited.contains a) pending
    rw [h] at hhead
    simpa using hhead
  · rw [← List.takeWhile_append_dropWhile (p := fun a => !unvisited.contains a) (l := pending),
      h] at hc
    rcases List.mem_append.mp hc with ht | ht
    · have hvisited := List.mem_takeWhile_imp ht
      simp [hu] at hvisited
    · exact List.mem_cons.mp ht

/-- A search with as many steps as there are unvisited nodes finds what paths lead to. -/
theorem mem_visit_iff {steps : Nat} {unvisited pending : List α} {b : α}
    (hsteps : unvisited.length ≤ steps) :
    b ∈ visit next steps unvisited pending ↔ Reaches next unvisited pending b := by
  induction steps generalizing unvisited pending with
  | zero =>
    obtain rfl : unvisited = [] := List.eq_nil_of_length_eq_zero (by omega)
    exact iff_of_false List.not_mem_nil fun h => List.not_mem_nil h.mem_nodes
  | succ steps ih =>
    unfold visit
    split
    · next hd =>
      have hnone : ∀ c ∈ pending, c ∉ unvisited := by
        simpa using List.dropWhile_eq_nil_iff.mp hd
      exact iff_of_false List.not_mem_nil (Reaches.not_of_forall hnone)
    · next s rest hd =>
      obtain ⟨hs, hp, hrest, hskip⟩ := of_dropWhile_visited hd
      -- Every step visits a node, so the steps that are left still suffice.
      have hlen : (unvisited.erase s).length ≤ steps := by
        have := List.length_erase_of_mem hs
        omega
      rw [List.mem_cons, ih hlen]
      constructor
      · rintro (rfl | h)
        · exact .start hs hp
        · exact reaches_of_erase hs hp hrest h
      · intro h
        by_cases hb : b = s
        · exact .inl hb
        · exact .inr (erase_of_reaches hskip h hb)

/-- A node is listed as reachable exactly when a path leads to it. -/
theorem mem_reachable_iff {nodes start : List α} {b : α} :
    b ∈ reachable nodes next start ↔ Reaches next nodes start b :=
  mem_visit_iff (Nat.le_refl _)

end LoopKernel.Reachability
