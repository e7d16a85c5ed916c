import EmbeddedExpr.Syntax.Expr

/-!
# Trees in postorder

A tree is written as the list of its nodes, each after its operands, so that the
written form is flat.  Reading keeps a stack of finished trees with their
heights; a node takes its operands from the top.
-/

namespace EmbeddedExpr

/-- A node without its operands. -/
inductive Node
  | literal (span : Span) (value : Literal)
  | ident (span : Span) (name : String)
  | list (span : Span) (count : Nat)
  /-- The operands are `count` keys, each before its value. -/
  | map (span : Span) (count : Nat)
  | unary (span : Span) (op : UnaryOp)
  | arith (span : Span) (op : ArithOp)
  | logic (span : Span) (op : LogicOp)
  | relation (span : Span) (op : RelationOp)
  | ternary (span : Span)
  | field (span : Span) (name : String)
  | index (span : Span)
  /-- The receiver, if there is one, comes before the arguments. -/
  | call (span : Span) (function : String) (hasTarget : Bool) (args : Nat)
  | has (span : Span) (name : String)
  /-- The range, the filter if there is one, and the body. -/
  | iterate (span : Span) (kind : IterationKind) (var : String) (hasFilter : Bool)
  deriving DecidableEq

/-- Why a list of nodes is no tree. -/
inductive PostorderError
  /-- A map whose operands cannot be counted in a word. -/
  | mapTooLarge (count : Nat)
  /-- A call whose operands cannot be counted in a word. -/
  | tooManyArguments (function : String)
  | missingOperands (expected found : Nat)
  | tooDeep (bound : Nat)
  | empty
  /-- More than one tree is left. -/
  | noParent (count : Nat)
  deriving DecidableEq, Repr

def PostorderError.message : PostorderError → String
  | mapTooLarge count => "map with " ++ toString count ++ " entries is too large"
  | tooManyArguments function => "call to '" ++ function ++ "' has too many arguments"
  | missingOperands expected found =>
    "node expects " ++ toString expected ++ " operands, found " ++ toString found
  | tooDeep bound => "expression nesting exceeds maximum of " ++ toString bound ++ " levels"
  | empty => "expression is empty"
  | noParent count => toString count ++ " nodes have no parent"

namespace Expr

mutual

/-- The nodes of a tree in postorder. -/
def nodes : Expr → List Node
  | literal s value => [.literal s value]
  | ident s name => [.ident s name]
  | list s items => itemNodes items ++ [.list s items.length]
  | map s entries => entryNodes entries ++ [.map s entries.length]
  | unary s op operand => nodes operand ++ [.unary s op]
  | arith s op left right => nodes left ++ nodes right ++ [.arith s op]
  | logic s op left right => nodes left ++ nodes right ++ [.logic s op]
  | relation s op left right => nodes left ++ nodes right ++ [.relation s op]
  | ternary s c t f => nodes c ++ nodes t ++ nodes f ++ [.ternary s]
  | field s target name => nodes target ++ [.field s name]
  | index s target position => nodes target ++ nodes position ++ [.index s]
  | call s function args => itemNodes args ++ [.call s function false args.length]
  | method s target function args =>
    nodes target ++ itemNodes args ++ [.call s function true args.length]
  | has s target name => nodes target ++ [.has s name]
  | iterate s kind range var none body =>
    nodes range ++ nodes body ++ [.iterate s kind var false]
  | iterate s kind range var (some filter) body =>
    nodes range ++ nodes filter ++ nodes body ++ [.iterate s kind var true]

def itemNodes : List Expr → List Node
  | [] => []
  | item :: rest => nodes item ++ itemNodes rest

def entryNodes : List (Expr × Expr) → List Node
  | [] => []
  | (key, value) :: rest => nodes key ++ nodes value ++ entryNodes rest

end

end Expr

namespace Node

/-- The number of operands of a node. -/
def operandCount : Node → Nat
  | literal _ _ | ident _ _ => 0
  | list _ count => count
  | map _ count => 2 * count
  | unary _ _ | field _ _ | has _ _ => 1
  | arith _ _ | logic _ _ | relation _ _ | index _ => 2
  | ternary _ => 3
  | call _ _ hasTarget args => args + (if hasTarget then 1 else 0)
  | iterate _ _ _ hasFilter => if hasFilter then 3 else 2

/-- Keys with the values after them. -/
def pairs : List Expr → List (Expr × Expr)
  | key :: value :: rest => (key, value) :: pairs rest
  | _ => []

/-- The tree of a node and its operands, if they are as many as it takes. -/
def assemble? : Node → List Expr → Option Expr
  | literal s value, [] => some (.literal s value)
  | ident s name, [] => some (.ident s name)
  | list s count, items => if items.length = count then some (.list s items) else none
  | map s count, items =>
    if items.length = 2 * count then some (.map s (pairs items)) else none
  | unary s op, [operand] => some (.unary s op operand)
  | arith s op, [left, right] => some (.arith s op left right)
  | logic s op, [left, right] => some (.logic s op left right)
  | relation s op, [left, right] => some (.relation s op left right)
  | ternary s, [c, t, f] => some (.ternary s c t f)
  | field s name, [target] => some (.field s target name)
  | index s, [target, position] => some (.index s target position)
  | call s function false args, items =>
    if items.length = args then some (.call s function items) else none
  | call s function true args, target :: items =>
    if items.length = args then some (.method s target function items) else none
  | has s name, [target] => some (.has s target name)
  | iterate s kind var false, [range, body] => some (.iterate s kind range var none body)
  | iterate s kind var true, [range, filter, body] =>
    some (.iterate s kind range var (some filter) body)
  | _, _ => none

/-- Whether a node has no operands by its kind. -/
def isLeaf : Node → Bool
  | literal _ _ | ident _ _ => true
  | _ => false

/-- The fault of a node that finds too few operands. -/
def shortage (node : Node) (found : Nat) : PostorderError :=
  match node with
  | map _ count =>
    if 0x10000000000000000 ≤ 2 * count then .mapTooLarge count else .missingOperands (2 * count) found
  | call _ function hasTarget args =>
    if hasTarget ∧ 0x10000000000000000 ≤ args + 1 then .tooManyArguments function
    else .missingOperands node.operandCount found
  | _ => .missingOperands node.operandCount found

/-- A finished tree and its height. -/
abbrev Finished := Expr × Nat

/-- The height of a node above its operands. -/
def heightAbove (node : Node) (operands : List Finished) : Nat :=
  if node.isLeaf then 0 else (operands.map Prod.snd).foldl max 0 + 1

/-- Adds a node to a stack of finished trees, whose top is its head. -/
def push (bound : Nat) (stack : List Finished) (node : Node) :
    Except PostorderError (List Finished) :=
  let count := node.operandCount
  if stack.length < count then .error (node.shortage stack.length)
  else
    let operands := (stack.take count).reverse
    let height := node.heightAbove operands
    if bound < height then .error (.tooDeep bound)
    else
      match node.assemble? (operands.map Prod.fst) with
      | some tree => .ok ((tree, height) :: stack.drop count)
      | none => .error (.missingOperands count stack.length)

end Node

namespace Expr

/-- The tree that nodes spell in postorder, if it is at most `bound` high. -/
def ofNodes (bound : Nat) (nodes : List Node) : Except PostorderError Expr :=
  match nodes.foldlM (Node.push bound) [] with
  | .error e => .error e
  | .ok [] => .error .empty
  | .ok [(tree, _)] => .ok tree
  | .ok stack => .error (.noParent stack.length)

end Expr

end EmbeddedExpr
