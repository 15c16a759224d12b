import LoopKernel.Digest.Sha256
import LoopKernel.Kernel.Json

/-!
# Fingerprints

The fingerprint of a kernel is the digest of its exchange text. A record of a run holds the
fingerprints of the kernel that went in and of the one that came out.
Spec guidance: `SPEC_FULL.md` §10.4.
-/

namespace LoopKernel

/-- The digest of the exchange text of a kernel (`kernel_fingerprint`). -/
def Kernel.fingerprint (k : Kernel) : String := Sha256.ofText k.toJson.text

/-- What a run started from and what it gave. -/
structure Provenance where
  input : String
  output : String
deriving DecidableEq, Repr

namespace Provenance

/-- The version written into records. -/
def version : String := "0.3.0"

/-- The record for an input and an output kernel (`compute_provenance`). -/
def ofKernels (input output : Kernel) : Provenance := ⟨input.fingerprint, output.fingerprint⟩

/-- The record as JSON text, one field on a line. -/
def text (p : Provenance) : String :=
  "\x7b\n  \"input_fingerprint\": \"" ++ p.input ++
    "\",\n  \"output_fingerprint\": \"" ++ p.output ++
    "\",\n  \"compiler_version\": \"" ++ version ++ "\"\n\x7d\n"

end Provenance

end LoopKernel
