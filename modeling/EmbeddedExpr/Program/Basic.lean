import EmbeddedExpr.Eval.Evaluate
import EmbeddedExpr.Grammar.Build
import EmbeddedExpr.Syntax.FreeNames

/-!
# Programs

A program is an expression together with the text it came from.  Its parameters
are the free names of the expression.
-/

namespace EmbeddedExpr

/-- A source that could not be compiled, with reports about it. -/
structure CompileError where
  source : String
  diagnostics : List Diagnostic
  deriving DecidableEq, Repr

namespace CompileError

def ofParseError (source : String) (e : ParseError) : CompileError :=
  ⟨source, [e.diagnostic]⟩

/-- The number of diagnostics that are errors. -/
def errorCount (e : CompileError) : Nat :=
  (e.diagnostics.filter fun d => d.severity == .error).length

/-- The first diagnostic with its place. -/
def message (e : CompileError) : String :=
  match e.diagnostics with
  | [] => "compilation failed"
  | d :: _ => d.message ++ " at " ++ toString d.span.start ++ ".." ++ toString d.span.stop

/-- The count of errors and a line for each diagnostic. -/
def display (e : CompileError) : String :=
  "Compilation failed with " ++ toString e.errorCount ++ " error(s)" ++
    String.join (e.diagnostics.map fun d =>
      "\n" ++ d.severity.name ++ ": " ++ d.message ++
        (match d.code with
          | some code => " [" ++ code ++ "]"
          | none => ""))

end CompileError

/-- A compiled expression. -/
structure Program where
  source : String
  expr : Expr

namespace Program

/-- The names that the program needs from outside. -/
def params (p : Program) : List String := p.expr.freeNames

/-- Reads a source whose nesting is bounded. -/
def parse (bound : Nat) (source : String) : Except ParseError Program :=
  (Grammar.parse bound source.toList).map fun expr => ⟨source, expr⟩

/-- Compiles a source. -/
def compile (bound : Nat) (source : String) : Except CompileError Program :=
  match parse bound source with
  | .ok p => .ok p
  | .error e => .error (.ofParseError source e)

/-- Evaluates the program. -/
def execute (p : Program) (bindings : Bindings) (limits : Eval.Limits) :
    Except Eval.Failure Value :=
  Eval.evaluate p.expr bindings limits

/-- Whether two programs have one source and trees of one shape. -/
def same (p q : Program) : Bool := p.source == q.source && p.expr.sameShape q.expr

end Program

end EmbeddedExpr
