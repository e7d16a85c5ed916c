import EmbeddedExpr.Grammar.Nesting
import EmbeddedExpr.Grammar.Phrase
import EmbeddedExpr.Number.Word

/-!
# From phrases to expressions

Building reads the literals, expands the macros `has` and the iterations, and
bounds the height of the tree.  The magnitude of the least signed integer is no
signed integer itself; it is accepted directly after a minus sign, with which it
is one literal.
-/

namespace EmbeddedExpr.Grammar

/-- A built tree. -/
structure Built where
  expr : Expr
  /-- The height that counts against the bound; leaves have height 0. -/
  height : Nat
  /-- The text of a literal that only a minus sign makes an integer. -/
  minMagnitude : Option (List Char)

namespace Built

def leaf (expr : Expr) : Built := ⟨expr, 0, none⟩

/-- A literal. -/
def constant (span : Span) (value : Literal) : Built := leaf (.literal span value)

/-- An inner node above trees of at most a height. -/
def node (bound : Nat) (expr : Expr) (below : Nat) : Except ParseError Built :=
  if bound < below + 1 then .error ⟨.tooDeep (below + 1) bound, expr.span⟩
  else .ok ⟨expr, below + 1, none⟩

/-- The tree as an operand of anything but a minus sign. -/
def settle (b : Built) : Except ParseError Built :=
  match b.minMagnitude with
  | none => .ok b
  | some text => .error ⟨.invalidNumber (String.ofList text), b.expr.span⟩

/-- The trees as operands. -/
def settleAll : List Built → Except ParseError (List Built)
  | [] => .ok []
  | b :: rest => do
    let b ← b.settle
    let rest ← settleAll rest
    .ok (b :: rest)

/-- The greatest height of trees. -/
def greatest (bs : List Built) : Nat := (bs.map height).foldl max 0

/-! ### Literals -/

/-- The fault of a number that does not fit. -/
def invalidNumber (span : Span) (text : List Char) : Except ParseError Built :=
  .error ⟨.invalidNumber (String.ofList text), span⟩

/-- The number that digits spell. -/
def magnitude? (hex : Bool) (digits : List Char) : Option Nat :=
  if hex then Number.readHex? digits else Number.readNat? digits

/-- A literal or a name. -/
def ofToken (span : Span) : Token → Except ParseError Built
  | .null => .ok (constant span .null)
  | .bool b => .ok (constant span (.bool b))
  | .name text => .ok (leaf (.ident span (String.ofList text)))
  | .int hex digits text =>
    match magnitude? hex digits with
    | some n =>
      match Number.int64? n with
      | some i => .ok (constant span (.int i))
      | none =>
        if n = 0x8000000000000000 then .ok ⟨.literal span (.int (Int64.ofInt (-0x8000000000000000))), 0, some text⟩
        else invalidNumber span text
    | none => invalidNumber span text
  | .uint hex digits text =>
    match (magnitude? hex digits).bind fun n => Number.uint64? n with
    | some u => .ok (constant span (.uint u))
    | none => invalidNumber span text
  | .double text =>
    match Number.readDouble? text with
    | some x => if x.isFinite then .ok (constant span (.double x)) else invalidNumber span text
    | none => invalidNumber span text
  | .text raw body =>
    if raw then .ok (constant span (.text (String.ofList body)))
    else
      match Text.unescapeText body with
      | .ok s => .ok (constant span (.text (String.ofList s)))
      | .error e => .error ⟨.invalidLiteral e, span⟩
  | .bytes raw body =>
    if raw then .ok (constant span (.bytes (Text.utf8 body)))
    else
      match Text.unescapeBytes body with
      | .ok bs => .ok (constant span (.bytes bs))
      | .error e => .error ⟨.invalidLiteral e, span⟩

/-! ### Operators and macros -/

/-- A sign before a tree. -/
def signed (bound start : Nat) (op : UnaryOp) (operand : Built) : Except ParseError Built :=
  let span : Span := ⟨start, operand.expr.span.stop⟩
  if op = .neg ∧ operand.minMagnitude.isSome then
    .ok (constant span (.int (Int64.ofInt (-0x8000000000000000))))
  else do
    let operand ← operand.settle
    node bound (.unary span op operand.expr) operand.height

/-- The tree of an infix operator. -/
def infixExpr (span : Span) (op : InfixOp) (left right : Expr) : Expr :=
  match op with
  | .logic op => .logic span op left right
  | .relation op => .relation span op left right
  | .arith op => .arith span op left right

/-- The name of a macro and its misuse. -/
def misuse (span : Span) (name : String) (fault : MacroFault) : Except ParseError Built :=
  .error ⟨.invalidMacro name fault, span⟩

/-- The macro `has`, whose argument counts as a level of its own. -/
def has (bound : Nat) (span : Span) (args : List Expr) (below : Nat) : Except ParseError Built :=
  match args with
  | [.field _ target name] => node bound (.has span target name) below
  | [_] => misuse span "has" .hasArgument
  | _ => misuse span "has" .hasArity

/-- An iteration over a range. -/
def iteration (bound : Nat) (span : Span) (kind : IterationKind) (range : Expr)
    (args : List Expr) (below : Nat) : Except ParseError Built :=
  let build (var : Expr) (filter : Option Expr) (body : Expr) : Except ParseError Built :=
    match var with
    | .ident _ name => node bound (.iterate span kind range name filter body) below
    | _ => misuse span kind.name .variable
  match args with
  | [var, body] => build var none body
  | [var, filter, body] =>
    if kind = .map then build var (some filter) body else misuse span kind.name (.arity false)
  | _ => misuse span kind.name (.arity (decide (kind = .map)))

/-- A call without a receiver. -/
def call (bound : Nat) (span : Span) (function : String) (args : List Expr) (below : Nat) :
    Except ParseError Built :=
  if function = "has" then has bound span args below
  else node bound (.call span function args) below

/-- A call with a receiver. -/
def method (bound : Nat) (span : Span) (target : Expr) (function : String) (args : List Expr)
    (below : Nat) : Except ParseError Built :=
  match IterationKind.ofName? function with
  | some kind => iteration bound span kind target args below
  | none => node bound (.method span target function args) below

end Built

namespace Phrase

mutual

/-- The tree of a phrase, or the first fault in it. -/
def build (bound : Nat) : Phrase → Except ParseError Built
  | atom span token => Built.ofToken span token
  | group inner => do
    let b ← build bound inner
    b.settle
  | list span items => do
    let built ← buildItems bound items
    let items ← Built.settleAll built
    Built.node bound (.list span (items.map Built.expr)) (Built.greatest items)
  | map span entries => do
    let entries ← buildEntries bound entries
    Built.node bound (.map span (entries.map fun (k, v) => (k.expr, v.expr)))
      (Built.greatest (entries.flatMap fun (k, v) => [k, v]))
  | call span function args => do
    let built ← buildItems bound args
    let args ← Built.settleAll built
    Built.call bound span (String.ofList function) (args.map Built.expr) (Built.greatest args)
  | sign start op operand => do
    let operand ← build bound operand
    Built.signed bound start op operand
  | field target name stop => do
    let built ← build bound target
    let target ← built.settle
    Built.node bound (.field ⟨target.expr.span.start, stop⟩ target.expr (String.ofList name))
      target.height
  | method target name args stop => do
    let built ← build bound target
    let target ← built.settle
    let built ← buildItems bound args
    let args ← Built.settleAll built
    Built.method bound ⟨target.expr.span.start, stop⟩ target.expr (String.ofList name)
      (args.map Built.expr) (max target.height (Built.greatest args))
  | index target position stop => do
    let built ← build bound target
    let target ← built.settle
    let built ← build bound position
    let position ← built.settle
    Built.node bound (.index ⟨target.expr.span.start, stop⟩ target.expr position.expr)
      (max target.height position.height)
  | infixed op left right => do
    let left ← build bound left
    let left ← left.settle
    let right ← build bound right
    let right ← right.settle
    let span : Span := ⟨left.expr.span.start, right.expr.span.stop⟩
    Built.node bound (Built.infixExpr span op left.expr right.expr) (max left.height right.height)
  | choice condition whenTrue whenFalse => do
    let condition ← build bound condition
    let condition ← condition.settle
    let whenFalse ← build bound whenFalse
    let whenFalse ← whenFalse.settle
    let whenTrue ← build bound whenTrue
    let whenTrue ← whenTrue.settle
    let span : Span := ⟨condition.expr.span.start, whenFalse.expr.span.stop⟩
    Built.node bound (.ternary span condition.expr whenTrue.expr whenFalse.expr)
      (max (max condition.height whenFalse.height) whenTrue.height)

def buildItems (bound : Nat) : List Phrase → Except ParseError (List Built)
  | [] => .ok []
  | item :: rest => do
    let b ← build bound item
    let bs ← buildItems bound rest
    .ok (b :: bs)

/-- Each key and each value is settled before the next one is built. -/
def buildEntries (bound : Nat) : List (Phrase × Phrase) → Except ParseError (List (Built × Built))
  | [] => .ok []
  | (key, value) :: rest => do
    let key ← build bound key
    let key ← key.settle
    let value ← build bound value
    let value ← value.settle
    let more ← buildEntries bound rest
    .ok ((key, value) :: more)

end

end Phrase

/-- The error of a source that is no phrase. -/
def unexpected (text : List Char) : ParseError :=
  let a := attempts text
  ⟨.unexpected a.concepts (((Text.dropBytes? a.offset text).getD []).head?),
    ⟨a.offset, a.offset⟩⟩

/-- The expression that a source is. -/
def parse (bound : Nat) (source : List Char) : Except ParseError Expr := do
  Nesting.check bound source
  match Phrase.read? source with
  | none => .error (unexpected source)
  | some phrase => do
    let built ← phrase.build bound
    let built ← built.settle
    .ok built.expr

/-- The nesting allowed where nothing else is said. -/
def defaultBound : Nat := 256

end EmbeddedExpr.Grammar
