import LoopKernel.Kernel.Lengths
import LoopKernel.Reduction.Realization

/-!
# Certificates

After a pass, a certificate lists what is wrong in its result, and says for each of its obligations
whether the result meets it.
Spec guidance: `SPEC_FULL.md` §§4.3/16 (`StageCert`).
-/

namespace LoopKernel

/-- A property that the result of a pass must have, and whether it does. -/
structure Obligation where
  name : String
  holds : Bool
deriving DecidableEq, Repr

/-- The instructions in which a reduction is left (`ReductionCert`). -/
structure ReductionCertificate where
  remaining : List String
deriving DecidableEq, Repr

namespace ReductionCertificate

/-- The certificate of a kernel. -/
def ofKernel (k : Kernel) : ReductionCertificate := ⟨k.unrealized.map Instruction.id⟩

/-- What it must show. -/
def obligations (c : ReductionCertificate) : List Obligation :=
  [⟨"no reduction node survives realization", c.remaining.isEmpty⟩]

end ReductionCertificate

/-- What is wrong with the local axes of a kernel (`AxisCert`): indices whose axis is still open,
indices too long for their axis, and instructions that use an axis twice. -/
structure AxisCertificate where
  remainingAuto : List String
  oversized : List String
  sharedAxis : List String
deriving DecidableEq, Repr

namespace AxisCertificate

/-- Whether an index with a local axis is no longer than the axis. -/
def fits (k : Kernel) (lengths : List Int) (iname : String) (axis : Nat) : Checked Bool := do
  let length ← (k.inameLength iname).toOption
  match lengths[axis]?, length with
  | some available, some length => pure (decide (length ≤ available))
  | _, _ => pure false

/-- Whether an index has a local axis for which it is too long. -/
def isOversized (k : Kernel) (lengths : List Int) (iname : String) (tag : IndexTag) :
    Checked Bool := do
  match tag with
  | .localAxis axis => pure (!(← fits k lengths iname axis))
  | _ => pure false

/-- Whether a number occurs twice in a list. -/
def hasRepetition : List Nat → Bool
  | [] => false
  | n :: rest => rest.contains n || hasRepetition rest

/-- Whether an instruction runs over two indices with the same local axis. -/
def sharesAxis (k : Kernel) (insn : Instruction) : Bool :=
  hasRepetition ((k.insnInames insn).toList.filterMap fun i => (k.tag i).localAxis?)

/-- The certificate of a kernel for axes of given lengths. -/
def ofKernel (k : Kernel) (lengths : List Int) : Checked AxisCertificate := do
  let oversized ← k.tags.entries.filterM fun (iname, tag) => isOversized k lengths iname tag
  pure ⟨(k.tags.entries.filter fun e => e.2.isAuto).map Prod.fst, oversized.map Prod.fst,
    (k.instructions.filter (sharesAxis k)).map Instruction.id⟩

/-- What it must show. -/
def obligations (c : AxisCertificate) : List Obligation :=
  [⟨"no automatic local tag remains", c.remainingAuto.isEmpty⟩,
    ⟨"local inames fit their axis", c.oversized.isEmpty⟩,
    ⟨"no instruction uses a local axis twice", c.sharedAxis.isEmpty⟩]

end AxisCertificate

/-- What is wrong with the boost information of a kernel (`BoostCert`): instructions about which
nothing is known, and instructions whose indices for extra runs are missing or wrong. -/
structure BoostCertificate where
  undetermined : List String
  badLimits : List String
  limited : Bool
deriving DecidableEq, Repr

namespace BoostCertificate

/-- Whether the indices for extra runs of an instruction are as they must be. -/
def hasGoodLimit (k : Kernel) (insn : Instruction) : Bool :=
  match insn.boostableInto, insn.boostable with
  | some into, some false => into.isEmpty
  | some into, some true => !into.toList.any (k.insnInames insn).contains
  | _, _ => false

/-- The certificate of a kernel. The indices for extra runs are looked at only where `limited`. -/
def ofKernel (k : Kernel) (limited : Bool) : BoostCertificate :=
  let bad := if limited then k.instructions.filter fun insn => !hasGoodLimit k insn else []
  ⟨(k.instructions.filter fun insn => insn.boostable.isNone).map Instruction.id,
    bad.map Instruction.id, limited⟩

/-- What it must show. -/
def obligations (c : BoostCertificate) : List Obligation :=
  ⟨"boostability determined", c.undetermined.isEmpty⟩ ::
    if c.limited then [⟨"boost targets exclude own inames", c.badLimits.isEmpty⟩] else []

end BoostCertificate

/-- The layouts of a kernel (`StorageCert`): temporaries without one, whether a local one is padded,
and the bytes of local memory used and usable. -/
structure StorageCertificate where
  missing : List String
  padded : Bool
  localBytes : Nat
  usableBytes : Nat
deriving DecidableEq, Repr

namespace StorageCertificate

/-- The certificate of a kernel. -/
def ofKernel (k : Kernel) : Checked StorageCertificate := do
  let temporaries := k.temporaries.values
  pure ⟨(temporaries.filter fun t => t.storageShape.isNone).map Temporary.name,
    temporaries.any fun t => t.isLocal && t.layout != t.shape,
    ← k.localBytes, k.device.usableMemory⟩

/-- What it must show. -/
def obligations (c : StorageCertificate) : List Obligation :=
  [⟨"every temporary has a storage shape", c.missing.isEmpty⟩,
    ⟨"padding stays within the local memory budget", !c.padded || c.localBytes < c.usableBytes⟩]

end StorageCertificate

end LoopKernel
