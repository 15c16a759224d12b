import LoopKernel.Proofs.Execution.Meaning

/-!
# Running instructions

Memory holds a value for each variable, index and private cell. An instruction runs over a list of
points in order and stores once at each of them; a list of instructions runs one after the other.
Reductions in an instruction are taken over the memory that the instruction starts with.
-/

namespace LoopKernel

/-- What every variable holds: by name, by index, and by the loop indices it is private to. -/
abbrev Memory (V : Type) := String → List V → Point → V

/-- One store of a run. -/
structure Store (V : Type) where
  name : String
  index : List V
  cell : Point
  value : V

/-- What a run depends on, apart from its instructions and the memory it starts with. -/
structure Machine (V : Type) where
  arithmetic : Arithmetic V
  /-- The points that an instruction runs over, in order, for its loop indices. -/
  points : NameSet → List Point
  /-- The loop indices that a variable has a cell of its own for each valuation of. -/
  privateTo : String → NameSet

namespace Memory

variable {V : Type}

open Classical in
/-- Memory after a store. -/
noncomputable def write (m : Memory V) (s : Store V) : Memory V := fun name index cell =>
  if name = s.name ∧ index = s.index ∧ cell = s.cell then s.value else m name index cell

/-- Memory after several stores. -/
noncomputable def writeAll (m : Memory V) (stores : List (Store V)) : Memory V :=
  stores.foldl write m

/-- Memory as an expression sees it, when variables are private to some loop indices. -/
def reader (m : Memory V) (privateTo : String → NameSet) : Reader V := fun p name index =>
  m name index (p.restrict (privateTo name))

/-- A store is seen where it went. -/
theorem write_same (m : Memory V) (s : Store V) : m.write s s.name s.index s.cell = s.value := by
  simp [write]

/-- A store to one variable is not seen in another. -/
theorem write_other_name (m : Memory V) (s : Store V) {name : String} (h : name ≠ s.name) :
    m.write s name = m name := by
  funext index cell
  simp [write, h]

/-- The same store twice is one store. -/
theorem write_write_same (m : Memory V) (s : Store V) : (m.write s).write s = m.write s := by
  funext name index cell
  simp only [write]
  split <;> rfl

/-- Stores one after the other. -/
theorem writeAll_append (m : Memory V) (a b : List (Store V)) :
    m.writeAll (a ++ b) = (m.writeAll a).writeAll b := List.foldl_append

/-- Stores to other variables are not seen. -/
theorem writeAll_other_name (m : Memory V) {stores : List (Store V)} {name : String}
    (h : ∀ s ∈ stores, s.name ≠ name) : m.writeAll stores name = m name := by
  induction stores generalizing m with
  | nil => rfl
  | cons s rest ih =>
    change (m.write s).writeAll rest name = m name
    rw [ih _ fun t ht => h t (List.mem_cons_of_mem _ ht),
      write_other_name m s (h s List.mem_cons_self).symm]

end Memory

namespace Instruction

variable {V : Type}

/-- The store of an instruction at a point. Its reductions see the memory `start`. -/
def storeAt (insn : Instruction) (M : Machine V) (start now : Memory V) (p : Point) : Store V where
  name := insn.target
  index := Expr.meaningAll M.arithmetic M.points (start.reader M.privateTo)
    (now.reader M.privateTo) p insn.targetIndex
  cell := p.restrict (M.privateTo insn.target)
  value := insn.expression.meaning M.arithmetic M.points (start.reader M.privateTo)
    (now.reader M.privateTo) p

/-- Memory after an instruction has run at a single point. -/
noncomputable def executeAt (insn : Instruction) (M : Machine V) (m : Memory V) (p : Point) :
    Memory V :=
  m.write (insn.storeAt M m m p)

/-- The stores of an instruction at a list of points, one point after the other. -/
noncomputable def storesFrom (insn : Instruction) (M : Machine V) (start : Memory V) :
    (now : Memory V) → List Point → List (Store V)
  | _, [] => []
  | now, p :: rest =>
    insn.storeAt M start now p ::
      insn.storesFrom M start (now.write (insn.storeAt M start now p)) rest

/-- The stores of an instruction over all points of some loop indices. -/
noncomputable def stores (insn : Instruction) (M : Machine V) (inames : NameSet) (m : Memory V) :
    List (Store V) :=
  insn.storesFrom M m m (M.points inames)

/-- Every store of an instruction goes to its target. -/
theorem name_of_mem_storesFrom {insn : Instruction} {M : Machine V} {start now : Memory V}
    {l : List Point} {s : Store V} (h : s ∈ insn.storesFrom M start now l) :
    s.name = insn.target := by
  induction l generalizing now with
  | nil => cases h
  | cons p rest ih =>
    rw [storesFrom, List.mem_cons] at h
    rcases h with rfl | h
    · rfl
    · exact ih h

end Instruction

namespace Kernel

variable {V : Type}

/-- The stores of a list of instructions, one instruction after the other. -/
noncomputable def storesOf (k : Kernel) (M : Machine V) :
    Memory V → List Instruction → List (Store V)
  | _, [] => []
  | m, insn :: rest =>
    insn.stores M (k.insnInames insn) m ++
      k.storesOf M (m.writeAll (insn.stores M (k.insnInames insn) m)) rest

/-- The stores of a run of a kernel. -/
noncomputable def stores (k : Kernel) (M : Machine V) (m : Memory V) : List (Store V) :=
  k.storesOf M m k.instructions

/-- A run of two lists of instructions is a run of the first and then of the second. -/
theorem storesOf_append (k : Kernel) (M : Machine V) (m : Memory V) (a b : List Instruction) :
    k.storesOf M m (a ++ b) =
      k.storesOf M m a ++ k.storesOf M (m.writeAll (k.storesOf M m a)) b := by
  induction a generalizing m with
  | nil => rfl
  | cons insn rest ih =>
    rw [List.cons_append, storesOf, storesOf, ih, Memory.writeAll_append, List.append_assoc]

/-- Every store of a run goes to the target of one of the instructions. -/
theorem name_of_mem_storesOf {k : Kernel} {M : Machine V} {m : Memory V} {l : List Instruction}
    {s : Store V} (h : s ∈ k.storesOf M m l) : ∃ insn ∈ l, s.name = insn.target := by
  induction l generalizing m with
  | nil => cases h
  | cons insn rest ih =>
    rw [storesOf, List.mem_append] at h
    rcases h with h | h
    · exact ⟨insn, List.mem_cons_self, Instruction.name_of_mem_storesFrom h⟩
    · obtain ⟨other, ho, hn⟩ := ih h
      exact ⟨other, List.mem_cons_of_mem _ ho, hn⟩

end Kernel

end LoopKernel
