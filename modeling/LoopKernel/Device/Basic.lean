/-!
# Devices

The facts about a device that kernels are laid out for: the size and kind of its local memory, the
banks that serve it, and the number of lanes that access it together.
Spec guidance: `SPEC_FULL.md` §10.3 (`Device`).
-/

namespace LoopKernel

/-- How a device implements local memory (`LocalMemKind`). -/
inductive MemoryKind where
  /-- A dedicated memory with banks. -/
  | dedicated
  /-- A part of global memory. -/
  | emulated
  | unknown
deriving DecidableEq, Repr

namespace MemoryKind

/-- The name of a kind. -/
def name : MemoryKind → String
  | .dedicated => "local"
  | .emulated => "global"
  | .unknown => "unknown"

/-- The kind of a name. -/
def ofName? : String → Option MemoryKind
  | "local" => some .dedicated
  | "global" => some .emulated
  | "unknown" => some .unknown
  | _ => none

end MemoryKind

/-- A device. Sizes are in bytes. -/
structure Device where
  name : String
  localMemory : Nat
  /-- Bytes of local memory that kernels cannot use. -/
  reserved : Nat
  memoryKind : MemoryKind
  bankCount : Nat
  /-- Bytes that one bank serves in one access. -/
  bankWidth : Nat
  /-- Lanes that access local memory together. -/
  lanes : Nat
deriving DecidableEq, Repr

namespace Device

/-- A graphics processor with 48 KB of banked local memory (`nvidia_fermi`). -/
def fermi : Device := ⟨"nvidia-fermi", 48 * 1024, 0, .dedicated, 32, 4, 32⟩

/-- A processor whose local memory is a part of global memory (`generic_cpu`). -/
def genericCpu : Device := ⟨"generic-cpu", 32 * 1024, 0, .emulated, 1, 4, 1⟩

/-- Bytes of local memory that a kernel can use (`usable_local_mem_size`). -/
def usableMemory (d : Device) : Nat := d.localMemory - d.reserved

end Device

end LoopKernel
