import EmbeddedExpr.Json.Document
import EmbeddedExpr.Program.Basic

/-!
# Outcomes

What an application is told: a result, or a problem of one of ten kinds with its
wording.  The problems of compiling, of decoding host values and of evaluating are
all told this way.
-/

namespace EmbeddedExpr

/-- The kinds of problems. -/
inductive ProblemKind
  /-- The source is no expression. -/
  | notAnExpression
  | noOverload
  | unknownIdentifier
  | unknownFunction
  | unknownProgram
  | functionFailed
  | wrongArity
  /-- A value is not accepted where it stands. -/
  | unacceptedValue
  /-- An operation has no result for its operands. -/
  | noResult
  /-- A bound of the evaluation was reached. -/
  | exhausted
  deriving DecidableEq, Repr

namespace ProblemKind

/-- The name of a kind. -/
def name : ProblemKind → String
  | notAnExpression => "SyntaxError"
  | noOverload => "TypeError"
  | unknownIdentifier => "UnknownIdentifier"
  | unknownFunction => "UnknownFunction"
  | unknownProgram => "UnknownProgram"
  | functionFailed => "FunctionError"
  | wrongArity => "ArityMismatch"
  | unacceptedValue => "ValueError"
  | noResult => "RuntimeError"
  | exhausted => "ResourceExceeded"

def all : List ProblemKind :=
  [notAnExpression, noOverload, unknownIdentifier, unknownFunction, unknownProgram,
    functionFailed, wrongArity, unacceptedValue, noResult, exhausted]

/-- The kind of the problem that a runtime fault is. -/
def ofFault : Eval.Fault → ProblemKind
  | .noOverload _ _ => noOverload
  | .unknownIdentifier _ => unknownIdentifier
  | .unknownFunction _ => unknownFunction
  | .wrongArity _ _ _ => wrongArity
  | .functionFailed _ _ => functionFailed
  | .invalidArgument _ _ => unacceptedValue
  | .tooDeep _ _ | .tooManyIterations _ => exhausted
  | .divisionByZero | .moduloByZero | .overflow _ | .indexOutOfBounds _ _ | .noSuchKey _
  | .duplicateKey _ => noResult

end ProblemKind

/-- A kind with its wording. -/
structure Problem where
  kind : ProblemKind
  message : String
  deriving DecidableEq, Repr

namespace Problem

/-- The kind and the wording on one line. -/
def display (p : Problem) : String := p.kind.name ++ ": " ++ p.message

def ofCompileError (e : CompileError) : Problem := ⟨.notAnExpression, e.message⟩

def ofCodecError (e : CodecError) : Problem := ⟨.unacceptedValue, e.message⟩

def ofFailure (e : Eval.Failure) : Problem := ⟨.ofFault e.fault, e.message⟩

/-- No program is stored under the name. -/
def unknownProgram (name : String) : Problem :=
  ⟨.unknownProgram, "no program named '" ++ name ++ "'"⟩

/-- The fields of a problem in a document. -/
def fields (p : Problem) : List (String × Json) :=
  [("kind", .text p.kind.name), ("message", .text p.message)]

end Problem

/-- A result or a problem. -/
abbrev Outcome (α : Type) := Except Problem α

namespace Outcome

variable {α : Type}

def isSuccess : Outcome α → Bool
  | .ok _ => true
  | .error _ => false

def value? : Outcome α → Option α
  | .ok a => some a
  | .error _ => none

def problem? : Outcome α → Option Problem
  | .ok _ => none
  | .error p => some p

/-- The result, or the complaint of an operation that insists on one. -/
def demand (operation : String) : Outcome α → Except String α
  | .ok a => .ok a
  | .error p => .error ("called `" ++ operation ++ "` on a failure: " ++ p.display)

/-- The problem, or the complaint of an operation that insists on one. -/
def demandProblem (operation : String) : Outcome α → Except String Problem
  | .ok _ => .error ("called `" ++ operation ++ "` on a success")
  | .error p => .ok p

end Outcome

/-- What an analysis tells about a program. -/
structure ProgramDetails where
  source : String
  params : List String
  deriving DecidableEq, Repr

namespace ProgramDetails

/-- The fields of details in a document. -/
def fields (d : ProgramDetails) : List (String × Json) :=
  [("source", .text d.source), ("params", .array (d.params.map Json.text))]

def toJson (d : ProgramDetails) : Json := .object d.fields

end ProgramDetails

/-- The details of a program. -/
def Program.details (p : Program) : ProgramDetails := ⟨p.source, p.params⟩

/-- The document of the outcome of an analysis. -/
def Outcome.detailsToJson : Outcome ProgramDetails → Json
  | .ok details => .object (("status", .text "success") :: details.fields)
  | .error problem => .object (("status", .text "failure") :: problem.fields)

end EmbeddedExpr
