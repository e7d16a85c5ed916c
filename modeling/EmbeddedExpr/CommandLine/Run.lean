import EmbeddedExpr.CommandLine.Settings
import EmbeddedExpr.Program.Context
import EmbeddedExpr.Report.Dump
import EmbeddedExpr.Report.Lines
import EmbeddedExpr.Text.Split

/-!
# Runs of the command line

A run evaluates the expression of its arguments, or each line of its input, and
prints every value as a document.  A failing line does not end the run, but it
decides the exit code.
-/

namespace EmbeddedExpr.CommandLine

/-- What a run prints, what it complains about and how it exits. -/
structure Answer where
  code : Nat
  output : String
  complaints : List String
  deriving DecidableEq, Repr

namespace Answer

/-- A successful run that prints nothing. -/
def silent : Answer := ⟨0, "", []⟩

/-- One answer after another; the greater exit code stays. -/
def andThen (a b : Answer) : Answer :=
  ⟨max a.code b.code, a.output ++ b.output, a.complaints ++ b.complaints⟩

/-- The arguments are malformed. -/
def malformed : Answer := ⟨2, "", ["malformed arguments"]⟩

end Answer

/-! ### Bindings -/

/-- Why the variables of the arguments cannot be bound. -/
inductive BindingFault
  | noEquals (text : String)
  | notJson (name : String)
  | noFile (path : String)
  | notAnObject (path : String)
  | codec (name : String) (error : CodecError)
  deriving DecidableEq

def BindingFault.message : BindingFault → String
  | noEquals text => "invalid binding '" ++ text ++ "', expected NAME=JSON"
  | notJson name => "invalid JSON for binding '" ++ name ++ "'"
  | noFile path => "cannot read bindings file " ++ path
  | notAnObject path => "bindings file " ++ path ++ " must contain a JSON object"
  | codec name error => "cannot bind '" ++ name ++ "': " ++ error.message

/-- Binds a variable to a host value. -/
def bindHost (b : Bindings) (name : String) (value : HostValue) : Except BindingFault Bindings :=
  (b.bindHost name value).mapError (.codec name)

/-- Binds the fields of the object in the text of a file. -/
def bindFile (b : Bindings) (path : String) (text : Option String) :
    Except BindingFault Bindings :=
  match text with
  | none => .error (.noFile path)
  | some text =>
    match Json.ofText? text.toList with
    | none => .error (.notJson path)
    | some document =>
      match (HostValue.ofJson document).fields? with
      | none => .error (.notAnObject path)
      | some fields => fields.foldlM (fun b (field : String × HostValue) =>
          bindHost b field.1 field.2) b

/-- Binds a variable given as a name, an equals sign and a document. -/
def bindText (b : Bindings) (text : String) : Except BindingFault Bindings :=
  let name := String.ofList (text.toList.takeWhile (· != '='))
  match text.toList.dropWhile (· != '=') with
  | [] => .error (.noEquals text)
  | _ :: document =>
    match Json.ofText? document with
    | none => .error (.notJson name)
    | some value => bindHost b name (HostValue.ofJson value)

/-- The variables of a run: those of the file, then those of the arguments. -/
def bindAll (s : Settings) (file : Option String) : Except BindingFault Bindings := do
  let fromFile ← match s.bindingsFile with
    | some path => bindFile .empty path file
    | none => .ok .empty
  s.bindings.foldlM bindText fromFile

/-! ### Evaluation -/

/-- The context that the settings ask for. -/
def context (s : Settings) : Context :=
  .withLimits (s.maxDepth.getD Grammar.defaultBound) { Eval.Limits.default with
    maxIterations := s.maxIterations }

/-- The answer to one source. -/
def interpret (s : Settings) (bindings : Bindings) (source : String) : Answer :=
  match (context s).compileOnly source with
  | .error e => ⟨1, "", e.lines⟩
  | .ok p =>
    let dump := if s.dumps then "=== Parsed AST ===\n" ++ p.expr.dump ++ "\n\n" else ""
    if s.analyzes then ⟨0, dump ++ p.details.toJson.pretty 0 ++ "\n", []⟩
    else
      match p.execute bindings (context s).limits with
      | .ok value => ⟨0, dump ++ value.encode.toJson.write ++ "\n", []⟩
      | .error e => ⟨1, dump, e.lines source⟩

/-- A line without the carriage return before its terminator. -/
def dropReturn (line : List Char) : List Char :=
  if line.getLast? = some '\r' then line.dropLast else line

/-- The lines of an input.  Nothing after the last terminator is no line. -/
def inputLines (input : List Char) : List (List Char) :=
  let parts := Text.split ['\n'] input
  parts.dropLast.map dropReturn ++ parts.getLast?.toList.filter (!·.isEmpty)

/-- The sources of a run: the expression of the arguments, else the lines of the
input that are not blank. -/
def sources (s : Settings) (input : String) : List String :=
  match s.expression with
  | some source => [source]
  | none =>
    ((inputLines input.toList).filter fun line => !(Text.trim line).isEmpty).map String.ofList

/-- The answer of a run, given the text of the file with bindings, if there is one, and
the input. -/
def run (s : Settings) (file : Option String) (input : String) : Answer :=
  match bindAll s file with
  | .error fault => ⟨1, "", [fault.message]⟩
  | .ok bindings =>
    (sources s input).foldl (fun answer source => answer.andThen (interpret s bindings source))
      .silent

end EmbeddedExpr.CommandLine
