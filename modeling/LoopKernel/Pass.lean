/-!
# Preprocessing passes

The passes that take a kernel from its source form to the form code is generated from: what each one
needs before it, which parts of the kernel it changes, and what it guarantees.
Spec guidance: `SPEC_FULL.md` §16 (`PassId`).
-/

namespace LoopKernel

/-- A preprocessing pass (`PassId`). -/
inductive Pass where
  | markLocal
  | duplicateInames
  | realizeReduction
  | assignAxes
  | inferDependencies
  | limitBoostability
  | adjustStorage
deriving DecidableEq, Repr

/-- A part of a kernel that a pass changes (`FacetId`). -/
inductive Facet where
  | locality
  | domain
  | instructions
  | temporaries
  | tags
  | dependencies
  | boostability
  | boostTargets
  | storageShapes
deriving DecidableEq, Repr

/-- The name of a part. -/
def Facet.name : Facet → String
  | .locality => "Locality"
  | .domain => "Domain"
  | .instructions => "Instructions"
  | .temporaries => "Temporaries"
  | .tags => "Tags"
  | .dependencies => "InsnDeps"
  | .boostability => "Boostability"
  | .boostTargets => "BoostTargets"
  | .storageShapes => "StorageShapes"

namespace Pass

/-- All passes, in the order in which they run. -/
def all : List Pass :=
  [.markLocal, .duplicateInames, .realizeReduction, .assignAxes, .inferDependencies,
    .limitBoostability, .adjustStorage]

/-- The name of a pass. -/
def name : Pass → String
  | .markLocal => "mark_local"
  | .duplicateInames => "duplicate_inames"
  | .realizeReduction => "realize_reduction"
  | .assignAxes => "assign_axes"
  | .inferDependencies => "infer_dependencies"
  | .limitBoostability => "limit_boostability"
  | .adjustStorage => "adjust_storage"

/-- The pass of a name. -/
def ofName? (name : String) : Option Pass := all.find? fun p => p.name == name

/-- The pass that must run just before. -/
def predecessor? : Pass → Option Pass
  | .markLocal => none
  | .duplicateInames => some .markLocal
  | .realizeReduction => some .duplicateInames
  | .assignAxes => some .realizeReduction
  | .inferDependencies => some .assignAxes
  | .limitBoostability => some .inferDependencies
  | .adjustStorage => some .limitBoostability

/-- The passes whose results a pass uses. -/
def inputs (p : Pass) : List Pass := p.predecessor?.toList

/-- The parts of a kernel that a pass changes. -/
def outputs : Pass → List Facet
  | .markLocal => [.locality]
  | .duplicateInames => [.domain, .instructions, .tags]
  | .realizeReduction => [.instructions, .temporaries]
  | .assignAxes => [.tags, .domain, .instructions]
  | .inferDependencies => [.dependencies, .boostability]
  | .limitBoostability => [.boostTargets]
  | .adjustStorage => [.storageShapes]

/-- What a pass guarantees, in words. -/
def invariant : Pass → String
  | .markLocal => "temporaries written through local-axis indices are local"
  | .duplicateInames => "no reduction iname carries a duplication marker"
  | .realizeReduction => "no reduction node remains"
  | .assignAxes => "no automatic local tag remains and no instruction uses a local axis twice"
  | .inferDependencies => "every instruction has determined boostability"
  | .limitBoostability => "boost targets are disjoint from own inames"
  | .adjustStorage => "padded local memory stays below the usable size"

/-- The place of a pass in the order. -/
def position : Pass → Nat
  | .markLocal => 0
  | .duplicateInames => 1
  | .realizeReduction => 2
  | .assignAxes => 3
  | .inferDependencies => 4
  | .limitBoostability => 5
  | .adjustStorage => 6

/-- The passes needed to reach a pass, itself last (`required_passes`). Each pass needs the one
before it and through it all earlier ones. -/
def required (terminal : Pass) : List Pass := all.take (terminal.position + 1)

end Pass

end LoopKernel
