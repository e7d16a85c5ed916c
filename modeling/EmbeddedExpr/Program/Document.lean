import EmbeddedExpr.Json.Reader
import EmbeddedExpr.Json.Writer
import EmbeddedExpr.Program.Basic
import EmbeddedExpr.Syntax.Postorder

/-!
# Programs as JSON documents

A program is written as an object with its source, its parameters and the nodes
of its tree in postorder.  Reading takes an object, in which fields it does not
know are passed over, or an array of the fields in their order; the parameters
are not read but found again in the tree.  The same holds of a node, whose first
field is its tag, and of a span, in which an unknown field is a fault.
-/

namespace EmbeddedExpr

/-! ### Writing -/

/-- A constant under its tag. -/
def Literal.toJson : Literal → Json
  | null => .text "null"
  | bool b => .object [("bool", .bool b)]
  | int i => .object [("int", (Json.ofInt? i.toInt).getD .null)]
  | uint u => .object [("uint", (Json.ofInt? u.toNat).getD .null)]
  | double x => .object [("float", (Json.ofDouble? x).getD .null)]
  | text s => .object [("str", .text s)]
  | bytes bs => .object [("bytes", .array (bs.map Json.ofByte))]

def Span.toJson (s : Span) : Json :=
  .object [("start", .ofNat s.start), ("end", .ofNat s.stop)]

namespace Node

/-- The tag of a node. -/
def tag : Node → String
  | literal _ _ => "literal"
  | ident _ _ => "ident"
  | list _ _ => "list"
  | map _ _ => "map"
  | unary _ _ => "unary"
  | arith _ _ => "binary"
  | logic _ _ => "boolean"
  | relation _ _ => "comparison"
  | ternary _ => "ternary"
  | field _ _ => "field"
  | index _ => "index"
  | call _ _ _ _ => "call"
  | has _ _ => "has"
  | iterate _ _ _ _ => "comprehension"

/-- The fields of a node between its tag and its span. -/
def ownFields : Node → List (String × Json)
  | literal _ value => [("value", value.toJson)]
  | ident _ name => [("name", .text name)]
  | list _ count => [("len", .ofNat count)]
  | map _ count => [("len", .ofNat count)]
  | unary _ op => [("op", .text op.tag)]
  | arith _ op => [("op", .text op.tag)]
  | logic _ op => [("op", .text op.tag)]
  | relation _ op => [("op", .text op.tag)]
  | ternary _ => []
  | field _ name => [("field", .text name)]
  | index _ => []
  | call _ function hasTarget args =>
    [("function", .text function), ("has_target", .bool hasTarget), ("args", .ofNat args)]
  | has _ name => [("field", .text name)]
  | iterate _ kind var hasFilter =>
    [("kind", .text kind.name), ("var", .text var), ("has_filter", .bool hasFilter)]

def span : Node → Span
  | literal s _ | ident s _ | list s _ | map s _ | unary s _ | arith s _ | logic s _
  | relation s _ | ternary s | field s _ | index s | call s _ _ _ | has s _ | iterate s _ _ _ => s

def toJson (node : Node) : Json :=
  .object (("node", .text node.tag) :: node.ownFields ++ [("span", node.span.toJson)])

end Node

/-- The document of a program. -/
def Program.toJson (p : Program) : Json :=
  .object [("source", .text p.source), ("params", .array (p.params.map Json.text)),
    ("ast", .array (p.expr.nodes.map Node.toJson))]

/-- The text of a program. -/
def Program.serialize (p : Program) : String := p.toJson.write

/-! ### Reading -/

namespace Json

/-- The only value under a name. -/
def only? {α β : Type} [DecidableEq α] (fields : List (α × β)) (name : α) : Option β :=
  match fields.filter fun field => field.1 = name with
  | [(_, value)] => some value
  | _ => none

/-- The values of the named fields: those of an object, each there once, or those of
an array of just as many. -/
def fieldValues? (names : List String) : Json → Option (List Json)
  | array items => if items.length = names.length then some items else none
  | object fields => names.mapM fun name => only? fields name
  | _ => none

def text? : Json → Option String
  | text s => some s
  | _ => none

def bool? : Json → Option Bool
  | bool b => some b
  | _ => none

def items? : Json → Option (List Json)
  | array items => some items
  | _ => none

/-- A whole number. -/
def int? : Json → Option Int
  | number (.whole n _) => some n
  | _ => none

/-- A whole number that is not negative. -/
def nat? (j : Json) : Option Nat :=
  match j.int? with
  | some n => if 0 ≤ n then some n.toNat else none
  | none => none

/-- A number of either sort, as a double. -/
def double? : Json → Option Double
  | number (.whole n _) => some (Double.ofInt n)
  | number (.real x _) => some x
  | _ => none

/-- A byte. -/
def byte? (j : Json) : Option UInt8 :=
  match j.nat? with
  | some n => if n < 256 then some (UInt8.ofNat n) else none
  | none => none

/-- A value that stands for nothing but its presence. -/
def isUnit : Json → Bool
  | null | object [] => true
  | _ => false

/-- A tag: its name, or an object with nothing under its name. -/
def tag? : Json → Option String
  | text s => some s
  | object [(name, value)] => if value.isUnit then some name else none
  | _ => none

/-- The choice whose tag is given. -/
def tagged? {α : Type} (choices : List α) (tag : α → String) (j : Json) : Option α :=
  j.tag?.bind fun name => choices.find? fun choice => tag choice == name

end Json

/-- A constant from its document. -/
def Literal.ofJson? (j : Json) : Option Literal :=
  match j.tag? with
  | some "null" => some .null
  | _ =>
    match j with
    | .object [("bool", value)] => value.bool?.map .bool
    | .object [("int", value)] => (value.int?.bind Number.int64?).map .int
    | .object [("uint", value)] => (value.int?.bind Number.uint64?).map .uint
    | .object [("float", value)] => value.double?.map .double
    | .object [("str", value)] => value.text?.map .text
    | .object [("bytes", value)] => (value.items?.bind (List.mapM Json.byte?)).map .bytes
    | _ => none

/-- A span from its document. -/
def Span.ofJson? (j : Json) : Option Span := do
  match j with
  | .object fields => guard (fields.length = 2)
  | _ => pure ()
  match ← j.fieldValues? ["start", "end"] with
  | [start, stop] => some ⟨← start.nat?, ← stop.nat?⟩
  | _ => none

namespace Node

/-- A node from its tag and its other fields, which are those of an object or an
array. -/
def ofFields? (tag : String) (body : Json) : Option Node := do
  let values (names : List String) : Option (List Json) := body.fieldValues? (names ++ ["span"])
  match tag with
  | "literal" => match ← values ["value"] with
    | [value, span] => some (.literal (← Span.ofJson? span) (← Literal.ofJson? value))
    | _ => none
  | "ident" => match ← values ["name"] with
    | [name, span] => some (.ident (← Span.ofJson? span) (← name.text?))
    | _ => none
  | "list" => match ← values ["len"] with
    | [count, span] => some (.list (← Span.ofJson? span) (← count.nat?))
    | _ => none
  | "map" => match ← values ["len"] with
    | [count, span] => some (.map (← Span.ofJson? span) (← count.nat?))
    | _ => none
  | "unary" => match ← values ["op"] with
    | [op, span] => some (.unary (← Span.ofJson? span) (← op.tagged? UnaryOp.all UnaryOp.tag))
    | _ => none
  | "binary" => match ← values ["op"] with
    | [op, span] => some (.arith (← Span.ofJson? span) (← op.tagged? ArithOp.all ArithOp.tag))
    | _ => none
  | "boolean" => match ← values ["op"] with
    | [op, span] => some (.logic (← Span.ofJson? span) (← op.tagged? LogicOp.all LogicOp.tag))
    | _ => none
  | "comparison" => match ← values ["op"] with
    | [op, span] =>
      some (.relation (← Span.ofJson? span) (← op.tagged? RelationOp.all RelationOp.tag))
    | _ => none
  | "ternary" => match ← values [] with
    | [span] => some (.ternary (← Span.ofJson? span))
    | _ => none
  | "field" => match ← values ["field"] with
    | [name, span] => some (.field (← Span.ofJson? span) (← name.text?))
    | _ => none
  | "index" => match ← values [] with
    | [span] => some (.index (← Span.ofJson? span))
    | _ => none
  | "call" => match ← values ["function", "has_target", "args"] with
    | [function, hasTarget, args, span] =>
      some (.call (← Span.ofJson? span) (← function.text?) (← hasTarget.bool?) (← args.nat?))
    | _ => none
  | "has" => match ← values ["field"] with
    | [name, span] => some (.has (← Span.ofJson? span) (← name.text?))
    | _ => none
  | "comprehension" => match ← values ["kind", "var", "has_filter"] with
    | [kind, var, hasFilter, span] =>
      some (.iterate (← Span.ofJson? span)
        (← kind.tagged? IterationKind.values IterationKind.name) (← var.text?) (← hasFilter.bool?))
    | _ => none
  | _ => none

/-- A node from its document. -/
def ofJson? : Json → Option Node
  | .array (.text tag :: rest) => ofFields? tag (.array rest)
  | .object fields =>
    match Json.only? fields "node" with
    | some (.text tag) => ofFields? tag (.object (fields.filter fun field => field.1 ≠ "node"))
    | _ => none
  | _ => none

end Node

namespace Program

/-- The source and the nodes in the tree of a text.  Fields with other names may hold
what no document holds. -/
def parts? : Json.Tree → Option (String × List Node)
  | .array [source, nodes] => partsOf? source nodes
  | .object fields => do
    guard (fields.all fun field => field.1.isSome)
    let source ← Json.only? fields (some "source")
    let nodes ← Json.only? fields (some "ast")
    partsOf? source nodes
  | _ => none
where
  partsOf? (source nodes : Json.Tree) : Option (String × List Node) := do
    let source ← (← source.document? 1).text?
    let nodes ← (← (← nodes.document? 1).items?).mapM Node.ofJson?
    some (source, nodes)

/-- A program from the text of its document, if its tree is at most `bound` high. -/
def read (bound : Nat) (text : String) : Except ProgramFault Program :=
  match (Json.Tree.ofText? text.toList).bind parts? with
  | none => .error .unreadable
  | some (source, nodes) =>
    match Expr.ofNodes bound nodes with
    | .ok expr => .ok ⟨source, expr⟩
    | .error e => .error (.nodes e)

/-- Loads a program from the text of its document. -/
def load (bound : Nat) (text : String) : Except CompileError Program :=
  match read bound text with
  | .ok p => .ok p
  | .error fault => .error (.ofParseError text ⟨.invalidProgram fault, ⟨0, 0⟩⟩)

end Program

end EmbeddedExpr
