import LoopKernel.Device.Basic
import LoopKernel.Json.Reading

/-!
# Devices from text

A device is described by a JSON object with one member for each of its facts, or by an array of the
facts in their order. Only the reserved memory can be left out of an object; other members are
ignored.
Spec guidance: `SPEC_FULL.md` §10.3.
-/

namespace LoopKernel.Device

/-- A string. -/
def readString? : JsonValue → Option String
  | .string s => s
  | _ => none

/-- A natural number of at most so many bits. -/
def readNatural? (bits : Nat) : JsonValue → Option Nat
  | .number n => do
    let value ← n.natural?
    if value < 1 <<< bits then some value else none
  | _ => none

/-- A kind of memory: its name, or an object with its name as the only member, which is null. -/
def readKind? : JsonValue → Option MemoryKind
  | .string (some name) => MemoryKind.ofName? name
  | .object [(some name, .null)] => MemoryKind.ofName? name
  | _ => none

/-- The names of the facts, in order. -/
def factNames : List String :=
  ["name", "local_mem_size", "reserved_local_mem", "local_mem_kind", "bank_count",
    "bank_granularity",
    "simd_group_size"]

/-- The device of its facts in order. -/
def ofFacts? : List JsonValue → Option Device
  | [name, size, reserved, kind, banks, width, lanes] => do
    pure {
      name := ← readString? name
      localMemory := ← readNatural? 64 size
      reserved := ← readNatural? 64 reserved
      memoryKind := ← readKind? kind
      bankCount := ← readNatural? 32 banks
      bankWidth := ← readNatural? 32 width
      lanes := ← readNatural? 32 lanes }
  | _ => none

/-- The only member with a name. There is none when the name is missing or repeated. -/
def member? (name : String) (members : List (Option String × JsonValue)) : Option JsonValue :=
  match members.filter fun m => m.1 == some name with
  | [m] => some m.2
  | _ => none

/-- A fact of an object; without a member for it, no memory is reserved. -/
def fact? (members : List (Option String × JsonValue)) (name : String) : Option JsonValue :=
  if name == "reserved_local_mem" && !members.any fun m => m.1 == some name then
    some (.number ⟨false, 0, 0, true⟩)
  else member? name members

/-- The device of a value. -/
def ofJson? : JsonValue → Option Device
  | .array facts => ofFacts? facts
  | .object members =>
    if members.all fun m => m.1.isSome then do ofFacts? (← factNames.mapM (fact? members)) else none
  | _ => none

/-- The device that a text describes (`from_json`). -/
def ofText? (text : String) : Option Device := do ofJson? (← JsonValue.ofText? text)

end LoopKernel.Device
