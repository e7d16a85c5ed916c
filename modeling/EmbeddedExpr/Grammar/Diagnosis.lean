import EmbeddedExpr.Syntax.Postorder
import EmbeddedExpr.Text.Escape

/-!
# Why a source is no expression

A fault with its span becomes one diagnostic: a severity, a message, a code and
possibly a hint.  The wording of all of them is here.
-/

namespace EmbeddedExpr

/-- Why a macro is misused. -/
inductive MacroFault
  /-- `has` takes one argument. -/
  | hasArity
  /-- `has` takes the selection of a field. -/
  | hasArgument
  /-- An iteration takes a variable and a body, and possibly a filter. -/
  | arity (filterAllowed : Bool)
  /-- The first argument of an iteration is a name. -/
  | variable
  deriving DecidableEq, Repr

def MacroFault.message : MacroFault → String
  | hasArity => "expects exactly one argument"
  | hasArgument => "argument must be a field selection like a.b"
  | arity true => "expects 2 or 3 arguments"
  | arity false => "expects 2 arguments"
  | «variable» => "first argument must be a simple identifier"

/-- Why a text is no serialized program. -/
inductive ProgramFault
  /-- The text is no document of the form of a program. -/
  | unreadable
  /-- The nodes make no tree. -/
  | nodes (error : PostorderError)
  deriving DecidableEq, Repr

def ProgramFault.message : ProgramFault → String
  | unreadable => "not the document of a program"
  | nodes error => error.message

/-- Why a source is no expression. -/
inductive ParseFault
  /-- Something else stands where one of the expected concepts is needed. -/
  | unexpected (expected : List String) (found : Option Char)
  | unclosed (delimiter : Char)
  | invalidNumber (text : String)
  | tooDeep (depth bound : Nat)
  | invalidLiteral (error : Text.UnescapeError)
  | invalidMacro (name : String) (fault : MacroFault)
  | invalidProgram (fault : ProgramFault)
  deriving DecidableEq, Repr

/-- A fault and where it is. -/
structure ParseError where
  fault : ParseFault
  span : Span
  deriving DecidableEq, Repr

/-! ### Diagnostics -/

inductive Severity
  | error | warning | info
  deriving DecidableEq, Repr

def Severity.name : Severity → String
  | error => "error"
  | warning => "warning"
  | info => "info"

/-- A report about a source. -/
structure Diagnostic where
  severity : Severity
  message : String
  span : Span
  help : List String
  code : Option String
  deriving DecidableEq, Repr

/-- Concepts as an enumeration. -/
def enumerate : List String → String
  | [] => "something else"
  | [concept] => concept
  | concepts => ", ".intercalate concepts.dropLast ++ " or " ++ concepts.getLastD ""

namespace ParseFault

/-- The wording of a fault. -/
def message : ParseFault → String
  | unexpected expected found =>
    "Expected " ++ enumerate expected ++ ", found " ++
      (match found with
        | some c => "'" ++ String.ofList [c] ++ "'"
        | none => "end of input")
  | unclosed delimiter => "Unclosed delimiter '" ++ String.ofList [delimiter] ++ "'"
  | invalidNumber text => "Invalid number literal '" ++ text ++ "'"
  | tooDeep _ bound =>
    "Expression nesting depth exceeds maximum of " ++ toString bound ++ " levels"
  | invalidLiteral error => "Invalid literal: " ++ error.message
  | invalidMacro name fault => "Invalid use of '" ++ name ++ "': " ++ fault.message
  | invalidProgram fault => "Invalid serialized program: " ++ fault.message

def code : ParseFault → String
  | unexpected _ _ => "P001"
  | unclosed _ => "P002"
  | invalidNumber _ => "P003"
  | tooDeep _ _ => "P004"
  | invalidLiteral _ => "P005"
  | invalidMacro _ _ => "P006"
  | invalidProgram _ => "P007"

def help : ParseFault → List String
  | unclosed _ => ["Add the missing closing delimiter"]
  | invalidNumber _ => ["Check the number format and range"]
  | tooDeep _ _ => ["Reduce nesting or simplify the expression"]
  | invalidProgram _ => ["Serialize the program again with Program::to_json"]
  | unexpected _ _ | invalidLiteral _ | invalidMacro _ _ => []

end ParseFault

namespace ParseError

def diagnostic (e : ParseError) : Diagnostic :=
  ⟨.error, e.fault.message, e.span, e.fault.help, some e.fault.code⟩

/-- The error on its own: severity, message, code, then a line for each hint. -/
def display (e : ParseError) : String :=
  let d := e.diagnostic
  d.severity.name ++ ": " ++ d.message ++ " [" ++ e.fault.code ++ "]" ++
    String.join (d.help.map fun h => "\nhelp: " ++ h)

end ParseError

end EmbeddedExpr
