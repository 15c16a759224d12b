import LoopKernel.Device.Conflicts
import LoopKernel.IndexTag
import LoopKernel.Pass
import LoopKernel.Polyhedron.Basic
import LoopKernel.Source.Span

/-!
# Diagnostics

What can be wrong with a kernel or its source, where, and in which words. Each problem has a stable
code, and is either an error or a warning.
Spec guidance: `SPEC_FULL.md` §§10.1/11.
-/

namespace LoopKernel

/-- What a diagnostic is about. -/
inductive Subject where
  | kernel
  | insn (id : String)
  | var (name : String)
  | iname (name : String)
  | source (span : Span)
  /-- The source as a whole. -/
  | wholeSource
deriving DecidableEq, Repr

/-- Text of a subject. -/
def Subject.text : Subject → String
  | .kernel => "kernel"
  | .insn id => "insn '" ++ id ++ "'"
  | .var name => "variable '" ++ name ++ "'"
  | .iname name => "iname '" ++ name ++ "'"
  | .source span => toString span.start ++ ".." ++ toString span.stop
  | .wholeSource => "source"

/-- What is wrong. -/
inductive Problem where
  | syntaxError
  | unexpectedCharacter (quoted : String)
  | unknownTag (name : String)
  | tagOnOtherName
  | repeatedDimension (name : String)
  | repeatedName
  | nonAffineConstraint
  | repeatedInstructionId
  | unknownDependency (id : String)
  | runsOverOtherName
  | unknownSetting (name : String)
  | invalidSetting (name : String)
  | missingDomain
  | repeatedDomain
  | reductionOverOtherName
  | unknownDtype (name : String)
  | badExtent (name : String)
  | reductionSurvived
  | fixedTag (tag : IndexTag)
  | undeterminedBoostability
  | nonConstantLength (cause : PolyhedronError)
  | uncountableDomain (cause : PolyhedronError)
  | missingParameter (cause : MissingParameter)
  | certificateFailed (pass : Pass) (obligations : List String)
  | notADimension
  | nonPositiveLength (length : Int)
  | domainChange (cause : PolyhedronError)
  | neverWritten
  | severalWriters (reader : String)
  | bankConflict (conflict : Option Conflict) (increment : Option Int) (overBudget : Bool)
  | unknownMemoryKind (device : String)
  | unrealizedReduction
deriving DecidableEq, Repr

namespace Problem

/-- The stable code of a problem (`DiagCode`). -/
def code : Problem → String
  | .syntaxError | .unexpectedCharacter _ | .unknownTag _ => "E0100"
  | .tagOnOtherName | .runsOverOtherName => "E0101"
  | .repeatedDimension _ | .repeatedName => "E0102"
  | .nonAffineConstraint => "E0103"
  | .repeatedInstructionId => "E0104"
  | .unknownDependency _ => "E0105"
  | .unknownSetting _ | .invalidSetting _ => "E0106"
  | .missingDomain | .repeatedDomain => "E0107"
  | .reductionOverOtherName => "E0108"
  | .unknownDtype _ | .badExtent _ => "E0109"
  | .reductionSurvived => "E0700"
  | .fixedTag _ => "E0701"
  | .undeterminedBoostability => "E0702"
  | .nonConstantLength _ => "E0703"
  | .uncountableDomain _ | .missingParameter _ => "E0704"
  | .certificateFailed _ _ => "E0705"
  | .notADimension | .nonPositiveLength _ | .domainChange _ => "E0706"
  | .neverWritten => "W0700"
  | .severalWriters _ => "W0701"
  | .bankConflict _ _ _ => "W0702"
  | .unknownMemoryKind _ => "W0703"
  | .unrealizedReduction => "W0704"

/-- Whether a problem is only a warning. -/
def isWarning : Problem → Bool
  | .neverWritten | .severalWriters _ | .bankConflict _ _ _ | .unknownMemoryKind _
  | .unrealizedReduction => true
  | _ => false

/-- The reason given for a bank conflict. -/
def conflictReason (conflict : Option Conflict) (overBudget : Bool) : String :=
  (match conflict with
    | some c => c.text
    | none => "unknown") ++
    if overBudget then "; a better padding does not fit in local memory" else ""

/-- The wording of a problem. -/
def message : Problem → String
  | .syntaxError => "syntax error"
  | .unexpectedCharacter quoted => "unexpected character: " ++ quoted
  | .unknownTag name => "unknown iname tag '" ++ name ++ "'"
  | .tagOnOtherName => "tag on a name that is not a domain dimension"
  | .repeatedDimension name => "dimension '" ++ name ++ "' is listed twice"
  | .repeatedName => "name is already defined"
  | .nonAffineConstraint => "domain constraint is not affine"
  | .repeatedInstructionId => "instruction id is used twice"
  | .unknownDependency id => "depends on unknown instruction '" ++ id ++ "'"
  | .runsOverOtherName => "inames(...) names something that is not a domain dimension"
  | .unknownSetting name => "unknown setting '" ++ name ++ "'"
  | .invalidSetting name => "invalid value for setting '" ++ name ++ "'"
  | .missingDomain => "kernel has no domain"
  | .repeatedDomain => "kernel domain is given more than once"
  | .reductionOverOtherName => "reduction over a name that is not a domain dimension"
  | .unknownDtype name => "unknown dtype '" ++ name ++ "'"
  | .badExtent name => "temporary '" ++ name ++ "' needs positive constant extents"
  | .reductionSurvived => "reduction survived realization"
  | .fixedTag tag => "cannot re-tag iname with fixed tag '" ++ tag.text ++ "'"
  | .undeterminedBoostability => "instruction has undetermined boostability"
  | .nonConstantLength cause => "trip count is not a compile-time constant: " ++ cause.message
  | .uncountableDomain cause => "cannot count the iteration domain: " ++ cause.message
  | .missingParameter cause => cause.message
  | .certificateFailed pass obligations =>
    "verification failed after " ++ pass.name ++ ": " ++ ", ".intercalate obligations
  | .notADimension => "not a dimension of the kernel domain"
  | .nonPositiveLength length => "cannot split by non-positive length " ++ toString length
  | .domainChange cause => cause.message
  | .neverWritten => "read, but never written"
  | .severalWriters reader =>
    "written from more than one place, but instruction '" ++ reader ++
      "' (which reads it) does not depend on any of the writers"
  | .bankConflict conflict increment overBudget =>
    "could not find a conflict-free local memory layout (currently: " ++
      toString (conflictMultiplier conflict) ++ "x conflict, increment: " ++
      (match increment with
        | some n => toString n
        | none => "none") ++
      ", reason: " ++ conflictReason conflict overBudget ++ ")"
  | .unknownMemoryKind device => "unknown type of local memory on device '" ++ device ++ "'"
  | .unrealizedReduction => "flop count of an unrealized reduction is taken as zero"

/-- Advice on how to mend a problem. -/
def hint? : Problem → Option String
  | .nonAffineConstraint => some "use sums of integer multiples of names and constants"
  | .unknownSetting _ => some "known settings: local_mem, banks, local_mem_kind"
  | .missingDomain => some "add a line like `domain [i] : 0 <= i < n`"
  | .unknownDtype _ => some "use int32, int64, float32 or float64"
  | .undeterminedBoostability =>
    some "run dependency inference before limiting boostability"
  | .nonConstantLength _ => some "bound the iname by constants, or split it first"
  | .missingParameter _ => some "provide a value for every size parameter"
  | .certificateFailed pass _ => some (pass.name ++ " must guarantee: " ++ pass.invariant)
  | .severalWriters _ => some "add one of the writers to the instruction's deps(...)"
  | .bankConflict _ _ _ => some "reduce local memory use or change the tile shape"
  | .unrealizedReduction => some "realize reductions before estimating flops"
  | _ => none

end Problem

/-- Another place that a diagnostic points to. -/
structure Related where
  subject : Subject
  label : String
deriving DecidableEq, Repr

/-- A problem with its place. -/
structure Diagnostic where
  problem : Problem
  subject : Subject
  related : List Related
deriving DecidableEq, Repr

namespace Diagnostic

/-- A problem at a place. -/
def about (subject : Subject) (problem : Problem) : Diagnostic := ⟨problem, subject, []⟩

/-- The diagnostic with one more related place. -/
def relatedTo (d : Diagnostic) (subject : Subject) (label : String) : Diagnostic :=
  { d with related := d.related ++ [⟨subject, label⟩] }

/-- Whether the diagnostic is an error (`is_error`). -/
def isError (d : Diagnostic) : Bool := !d.problem.isWarning

/-- Text of a diagnostic. -/
def text (d : Diagnostic) : String :=
  (if d.isError then "error[" else "warning[") ++ d.problem.code ++ "]: " ++ d.subject.text ++
    ": " ++ d.problem.message ++
    (match d.problem.hint? with
      | some hint => "\n  hint: " ++ hint
      | none => "")

end Diagnostic

end LoopKernel
