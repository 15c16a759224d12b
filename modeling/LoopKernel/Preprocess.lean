import LoopKernel.Axis.Assignment
import LoopKernel.Boost.Inference
import LoopKernel.Boost.Limits
import LoopKernel.Certificate.Basic
import LoopKernel.Kernel.Fingerprint
import LoopKernel.Reduction.Duplication
import LoopKernel.Storage.Locality
import LoopKernel.Storage.Padding

/-!
# Preprocessing

A kernel is taken through the passes up to a given one. After each pass the certificate of its
result can be checked. The run stops at the first pass that fails or whose result does not meet its
obligations.
Spec guidance: `SPEC_FULL.md` §16.
-/

namespace LoopKernel

namespace Pass

/-- A pass that reports nothing. -/
def quiet (result : Attempt Diagnostic Kernel) : Attempt Diagnostic (Kernel × List Diagnostic) := do
  pure (← result, [])

/-- Run a pass (`run_pass`). -/
def run (p : Pass) (k : Kernel) : Attempt Diagnostic (Kernel × List Diagnostic) :=
  match p with
  | .markLocal => pure (k.markLocalTemporaries, [])
  | .duplicateInames => quiet k.duplicateReductionInames
  | .realizeReduction => quiet k.realizeReduction
  | .assignAxes => quiet k.assignAutomaticAxes
  | .inferDependencies => pure k.inferDependencies
  | .limitBoostability => quiet k.limitBoostability
  | .adjustStorage => k.adjustStorage

/-- The obligations of a pass that took one kernel to another. -/
def obligations (p : Pass) (before after : Kernel) : Checked (List Obligation) :=
  match p with
  | .markLocal | .duplicateInames => pure []
  | .realizeReduction => pure (ReductionCertificate.ofKernel after).obligations
  | .assignAxes => do
    let lengths := (← before.localAxisLengths.toOption).getD []
    pure (← AxisCertificate.ofKernel after lengths).obligations
  | .inferDependencies => pure (BoostCertificate.ofKernel after false).obligations
  | .limitBoostability => pure (BoostCertificate.ofKernel after true).obligations
  | .adjustStorage => do pure (← StorageCertificate.ofKernel after).obligations

/-- The error of a pass whose result does not meet its obligations. -/
def certify (p : Pass) (before after : Kernel) : Checked (List Diagnostic) := do
  match (← p.obligations before after).filter fun o => !o.holds with
  | [] => pure []
  | failed => pure [.about .kernel (.certificateFailed p (failed.map Obligation.name))]

end Pass

/-- Which pass to run last, and whether to check certificates. -/
structure PreprocessOptions where
  terminal : Pass
  checkCertificates : Bool
deriving DecidableEq, Repr

/-- All passes, with certificates. -/
def PreprocessOptions.default : PreprocessOptions := ⟨.adjustStorage, true⟩

/-- What a pass reported. -/
structure PassReport where
  pass : Pass
  diagnostics : List Diagnostic
deriving DecidableEq, Repr

/-- What a run gave: a kernel, or the pass it stopped at. The reports of all passes run come along.
-/
structure Preprocessing where
  outcome : Except Pass Kernel
  reports : List PassReport

namespace Preprocessing

/-- All diagnostics, in the order of the passes. -/
def diagnostics (p : Preprocessing) : List Diagnostic := p.reports.flatMap PassReport.diagnostics

/-- The wording of a stop at a pass: the first error. -/
def failureText (p : Preprocessing) (stoppedAt : Pass) : String :=
  stoppedAt.name ++ " failed" ++
    match p.diagnostics.find? Diagnostic.isError with
    | some d => ": " ++ d.text
    | none => ""

/-- A run with one more report in front. -/
def cons (report : PassReport) (p : Preprocessing) : Preprocessing :=
  { p with reports := report :: p.reports }

/-- The result of a pass, with all that it reports. No kernel comes out of a pass that fails. -/
def runPass (checkCertificates : Bool) (p : Pass) (k : Kernel) :
    Checked (Option Kernel × List Diagnostic) := do
  match ← (p.run k).caught with
  | .error d => pure (none, [d])
  | .ok (after, diagnostics) =>
    let failures ← if checkCertificates then p.certify k after else pure []
    pure (some after, diagnostics ++ failures)

/-- Run several passes. -/
def runPasses (checkCertificates : Bool) : List Pass → Kernel → Checked Preprocessing
  | [], k => pure ⟨.ok k, []⟩
  | p :: rest, k => do
    match ← runPass checkCertificates p k with
    | (none, diagnostics) => pure ⟨.error p, [⟨p, diagnostics⟩]⟩
    | (some after, diagnostics) =>
      if diagnostics.any Diagnostic.isError then pure ⟨.error p, [⟨p, diagnostics⟩]⟩
      else do pure ((← runPasses checkCertificates rest after).cons ⟨p, diagnostics⟩)

end Preprocessing

/-- Take a kernel through the passes up to the last one wanted (`preprocess_kernel`). -/
def Kernel.preprocess (k : Kernel) (options : PreprocessOptions) : Checked Preprocessing :=
  Preprocessing.runPasses options.checkCertificates options.terminal.required k

end LoopKernel
