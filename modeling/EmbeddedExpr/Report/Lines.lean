import EmbeddedExpr.Program.Basic

/-!
# Reports as lines

A diagnostic is reported as a headline and an excerpt: the place in the source and
a line for each hint.  The place is a line and a column, both counted from one; the
offsets of a span count as characters, and a span that is not inside the source by
that count has no place.  Without a place there is no excerpt, hence no hint.
-/

namespace EmbeddedExpr.Report

/-! ### Lines of a source -/

/-- Whether a line ends after `c` when `rest` follows it.  A carriage return with a
line feed behind it ends no line, the line feed does. -/
def endsLine (c : Char) (rest : List Char) : Bool :=
  if c = '\r' then rest.head? != some '\n'
  else
    let n := c.toNat
    decide ((0x0A ≤ n ∧ n ≤ 0x0C) ∨ n = 0x85 ∨ n = 0x2028 ∨ n = 0x2029)

/-- The offsets in `text`, which starts at `offset`, where a further line starts.
Nothing after the last terminator is no line. -/
def furtherStarts (offset : Nat) : List Char → List Nat
  | [] => []
  | c :: rest =>
    if endsLine c rest ∧ rest ≠ [] then (offset + 1) :: furtherStarts (offset + 1) rest
    else furtherStarts (offset + 1) rest

/-- The offsets where the lines of a source start. -/
def lineStarts (source : List Char) : List Nat := 0 :: furtherStarts 0 source

/-- A line and a column, counted from one. -/
structure Place where
  line : Nat
  column : Nat
  deriving DecidableEq, Repr

/-- The place of an offset: the last line that starts no later. -/
def placeOf (source : List Char) (offset : Nat) : Place :=
  let starts := (lineStarts source).filter fun start => start ≤ offset
  ⟨starts.length, offset - starts.getLastD 0 + 1⟩

/-- Whether a span lies inside a source of so many characters; its start may be the
end of the source. -/
def inside (length : Nat) (span : Span) : Bool :=
  decide (span.start ≤ length ∧ (span.start < span.stop → span.stop - 1 ≤ length))

/-- The place of a span inside a source. -/
def place? (source : List Char) (span : Span) : Option Place :=
  if inside source.length span then some (placeOf source span.start) else none

/-! ### Diagnostics -/

def Place.text (p : Place) : String :=
  "╭─[ <expr>:" ++ toString p.line ++ ":" ++ toString p.column ++ " ]"

/-- How a severity is announced. -/
def heading : Severity → String
  | .error => "Error"
  | .warning => "Warning"
  | .info => "Advice"

/-- The first line of a diagnostic.  A message that goes on after a line feed is cut
there. -/
def headline (d : Diagnostic) : String :=
  let code := match d.code with
    | some code => "[" ++ code ++ "] "
    | none => ""
  String.ofList ((code ++ heading d.severity ++ ": " ++ d.message).toList.takeWhile (· != '\n'))

/-- The place of a diagnostic and the hints under it. -/
def excerpt (source : String) (d : Diagnostic) : List String :=
  match place? source.toList d.span with
  | some place => place.text :: d.help.map fun hint => "│ Help: " ++ hint
  | none => []

/-- The lines of a diagnostic about a source. -/
def lines (source : String) (d : Diagnostic) : List String :=
  headline d :: excerpt source d

end EmbeddedExpr.Report

namespace EmbeddedExpr

/-- The report lines of a source that cannot be compiled. -/
def CompileError.lines (e : CompileError) : List String :=
  e.diagnostics.flatMap fun d => Report.lines e.source d

namespace Eval.Failure

/-- Whether a bound of the evaluation was reached. -/
def isResource (e : Failure) : Bool := e.fault.isResource

/-- A runtime error as a diagnostic.  It has no code. -/
def diagnostic (e : Failure) : Diagnostic :=
  ⟨.error, e.fault.message, e.span,
    if e.isResource then ["raise the limit in ExecutionOptions if this input is expected"] else [],
    none⟩

/-- The report lines of a runtime error in a source. -/
def lines (source : String) (e : Failure) : List String := Report.lines source e.diagnostic

end Eval.Failure

end EmbeddedExpr
