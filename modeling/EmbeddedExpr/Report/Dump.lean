import EmbeddedExpr.Number.Layout
import EmbeddedExpr.Syntax.Expr
import EmbeddedExpr.Text.Hex
import EmbeddedExpr.Text.Shapeless

/-!
# Dumps of trees

A dump shows a tree with every node and span, one part a line, each level
indented by four blanks.
-/

namespace EmbeddedExpr.Report

/-- The parts that a dump is made of. -/
inductive Dump
  | atom (text : String)
  /-- A name with its parts in parentheses.  Parts without a name are a pair. -/
  | tuple (name : String) (parts : List Dump)
  /-- A name with its named parts in braces. -/
  | record (name : String) (parts : List (String × Dump))
  | list (items : List Dump)

namespace Dump

/-- The blanks of a level. -/
def margin (level : Nat) : String := String.ofList (List.replicate (4 * level) ' ')

mutual

/-- The text of a part that starts at a level. -/
def write (level : Nat) : Dump → String
  | atom text => text
  | tuple name parts =>
    name ++ "(\n" ++ writeParts (level + 1) parts ++ margin level ++ ")"
  | record name parts =>
    name ++ " \x7b\n" ++ writeNamed (level + 1) parts ++ margin level ++ "\x7d"
  | list [] => "[]"
  | list items => "[\n" ++ writeParts (level + 1) items ++ margin level ++ "]"

/-- Parts, one a line. -/
def writeParts (level : Nat) : List Dump → String
  | [] => ""
  | part :: rest => margin level ++ write level part ++ ",\n" ++ writeParts level rest

def writeNamed (level : Nat) : List (String × Dump) → String
  | [] => ""
  | (name, part) :: rest =>
    margin level ++ name ++ ": " ++ write level part ++ ",\n" ++ writeNamed level rest

end

/-! ### Leaves -/

/-- A character between quotation marks. -/
def quoteChar (c : Char) : List Char :=
  if c = '\x00' then ['\\', '0']
  else if c = '\t' then ['\\', 't']
  else if c = '\r' then ['\\', 'r']
  else if c = '\n' then ['\\', 'n']
  else if c = '\\' then ['\\', '\\']
  else if c = '"' then ['\\', '"']
  else if Text.isShapeless c then
    ['\\', 'u', '\x7b'] ++ Text.hexDigits 1 c.toNat ++ ['\x7d']
  else [c]

/-- A text between quotation marks. -/
def quote (s : String) : String :=
  String.ofList ('"' :: s.toList.flatMap quoteChar ++ ['"'])

def ofText (s : String) : Dump := atom (quote s)

def ofSpan (s : Span) : Dump :=
  tuple "Span" [atom (toString s.start ++ ".." ++ toString s.stop)]

def ofDouble (x : Double) : String :=
  if x.isFinite then Number.Layout.dump.write x else Number.doubleText x

def ofLiteral : Literal → Dump
  | .null => atom "Null"
  | .bool b => tuple "Bool" [atom (if b then "true" else "false")]
  | .int i => tuple "Int" [atom (toString i.toInt)]
  | .uint u => tuple "Uint" [atom (toString u.toNat)]
  | .double x => tuple "Float" [atom (ofDouble x)]
  | .text s => tuple "Str" [ofText s]
  | .bytes bs => tuple "Bytes" [list (bs.map fun b => atom (toString b.toNat))]

def ofUnary : UnaryOp → Dump
  | .neg => atom "Neg"
  | .not => atom "Not"

def ofArith : ArithOp → Dump
  | .add => atom "Add"
  | .sub => atom "Sub"
  | .mul => atom "Mul"
  | .div => atom "Div"
  | .rem => atom "Rem"

def ofLogic : LogicOp → Dump
  | .and => atom "And"
  | .or => atom "Or"

def ofRelation : RelationOp → Dump
  | .eq => atom "Eq"
  | .ne => atom "Neq"
  | .lt => atom "Lt"
  | .le => atom "Le"
  | .gt => atom "Gt"
  | .ge => atom "Ge"
  | .mem => atom "In"

def ofIteration : IterationKind → Dump
  | .all => atom "All"
  | .exists => atom "Exists"
  | .existsOne => atom "ExistsOne"
  | .map => atom "Map"
  | .filter => atom "Filter"

/-! ### Expressions -/

/-- A node with its span. -/
def node (span : Span) (kind : Dump) : Dump :=
  record "Expr" [("kind", kind), ("span", ofSpan span)]

/-- An operator between two operands. -/
def operation (name : String) (op left right : Dump) : Dump :=
  record name [("op", op), ("left", left), ("right", right)]

/-- A call; the receiver is there or not. -/
def callOf (function : String) (target args : Dump) : Dump :=
  record "Call" [("function", ofText function), ("target", target), ("args", args)]

def absent : Dump := atom "None"

def present (part : Dump) : Dump := tuple "Some" [part]

/-- An iteration. -/
def iterationOf (kind : IterationKind) (range : Dump) (var : String) (filter body : Dump) : Dump :=
  tuple "Comprehension" [record "Comprehension" [("kind", ofIteration kind), ("range", range),
    ("var", ofText var), ("filter", filter), ("body", body)]]

mutual

/-- The parts of an expression. -/
def ofExpr : Expr → Dump
  | .literal s value => node s (tuple "Literal" [ofLiteral value])
  | .ident s name => node s (tuple "Ident" [ofText name])
  | .list s items => node s (tuple "List" [list (ofItems items)])
  | .map s entries => node s (tuple "Map" [list (ofEntries entries)])
  | .unary s op operand =>
    node s (record "Unary" [("op", ofUnary op), ("expr", ofExpr operand)])
  | .arith s op left right =>
    node s (operation "Binary" (ofArith op) (ofExpr left) (ofExpr right))
  | .logic s op left right =>
    node s (operation "Boolean" (ofLogic op) (ofExpr left) (ofExpr right))
  | .relation s op left right =>
    node s (operation "Comparison" (ofRelation op) (ofExpr left) (ofExpr right))
  | .ternary s condition whenTrue whenFalse =>
    node s (record "Ternary" [("cond", ofExpr condition), ("then_branch", ofExpr whenTrue),
      ("else_branch", ofExpr whenFalse)])
  | .field s target name =>
    node s (record "Field" [("value", ofExpr target), ("field", ofText name)])
  | .index s target position =>
    node s (record "Index" [("value", ofExpr target), ("index", ofExpr position)])
  | .call s function args => node s (callOf function absent (list (ofItems args)))
  | .method s target function args =>
    node s (callOf function (present (ofExpr target)) (list (ofItems args)))
  | .has s target name =>
    node s (record "Has" [("value", ofExpr target), ("field", ofText name)])
  | .iterate s kind range var none body =>
    node s (iterationOf kind (ofExpr range) var absent (ofExpr body))
  | .iterate s kind range var (some filter) body =>
    node s (iterationOf kind (ofExpr range) var (present (ofExpr filter)) (ofExpr body))

def ofItems : List Expr → List Dump
  | [] => []
  | item :: rest => ofExpr item :: ofItems rest

def ofEntries : List (Expr × Expr) → List Dump
  | [] => []
  | (key, value) :: rest => tuple "" [ofExpr key, ofExpr value] :: ofEntries rest

end

end Dump

end EmbeddedExpr.Report

namespace EmbeddedExpr

/-- The dump of an expression. -/
def Expr.dump (e : Expr) : String := (Report.Dump.ofExpr e).write 0

end EmbeddedExpr
