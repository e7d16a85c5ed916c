import EmbeddedExpr.Number.Double
import EmbeddedExpr.Syntax.Operator

/-!
# Expressions

An expression tree carries on every node the span of source bytes it was read
from.  Two trees have the same shape if they differ in spans only.  The height
of a tree counts the nodes above a leaf; leaves are literals and names.
-/

namespace EmbeddedExpr

/-- A range of byte offsets of a source, `start` inclusive and `stop` exclusive. -/
structure Span where
  start : Nat
  stop : Nat
  deriving DecidableEq, Repr

/-- A constant. -/
inductive Literal
  | null
  | bool (b : Bool)
  | int (i : Int64)
  | uint (u : UInt64)
  | double (x : Double)
  | text (s : String)
  | bytes (bs : List UInt8)
  deriving DecidableEq

/-- Equality of constants.  The two zeros are equal and a NaN differs from itself. -/
def Literal.same : Literal → Literal → Bool
  | double a, double b => Double.order? a b == some .eq
  | a, b => decide (a = b)

/-- The iterations over a list or the keys of a map. -/
inductive IterationKind
  | all | exists | existsOne | map | filter
  deriving DecidableEq, Repr

namespace IterationKind

/-- The name of the member function that spells an iteration. -/
def name : IterationKind → String
  | all => "all"
  | «exists» => "exists"
  | existsOne => "exists_one"
  | map => "map"
  | filter => "filter"

def values : List IterationKind := [all, «exists», existsOne, map, filter]

def ofName? (name : String) : Option IterationKind :=
  values.find? fun kind => kind.name == name

end IterationKind

/-- An expression. -/
inductive Expr
  | literal (span : Span) (value : Literal)
  | ident (span : Span) (name : String)
  | list (span : Span) (items : List Expr)
  | map (span : Span) (entries : List (Expr × Expr))
  | unary (span : Span) (op : UnaryOp) (operand : Expr)
  | arith (span : Span) (op : ArithOp) (left right : Expr)
  | logic (span : Span) (op : LogicOp) (left right : Expr)
  | relation (span : Span) (op : RelationOp) (left right : Expr)
  | ternary (span : Span) (condition whenTrue whenFalse : Expr)
  | field (span : Span) (target : Expr) (name : String)
  | index (span : Span) (target position : Expr)
  | call (span : Span) (function : String) (args : List Expr)
  /-- A call with a receiver, which is the first argument of the function. -/
  | method (span : Span) (target : Expr) (function : String) (args : List Expr)
  /-- Whether a field is there. -/
  | has (span : Span) (target : Expr) (name : String)
  /-- An iteration with its variable; the filter selects items before the body
  transforms them. -/
  | iterate (span : Span) (kind : IterationKind) (range : Expr) (var : String)
      (filter : Option Expr) (body : Expr)

namespace Expr

/-- The span of the node. -/
def span : Expr → Span
  | literal s _ | ident s _ | list s _ | map s _ | unary s _ _ | arith s _ _ _ | logic s _ _ _
  | relation s _ _ _ | ternary s _ _ _ | field s _ _ | index s _ _ | call s _ _ | method s _ _ _
  | has s _ _ | iterate s _ _ _ _ _ => s

mutual

/-- The number of nodes above a leaf on the longest path. -/
def height : Expr → Nat
  | literal _ _ => 0
  | ident _ _ => 0
  | list _ items => heightItems items + 1
  | map _ entries => heightEntries entries + 1
  | unary _ _ operand => height operand + 1
  | arith _ _ left right => max (height left) (height right) + 1
  | logic _ _ left right => max (height left) (height right) + 1
  | relation _ _ left right => max (height left) (height right) + 1
  | ternary _ c t f => max (height c) (max (height t) (height f)) + 1
  | field _ target _ => height target + 1
  | index _ target position => max (height target) (height position) + 1
  | call _ _ args => heightItems args + 1
  | method _ target _ args => max (height target) (heightItems args) + 1
  | has _ target _ => height target + 1
  | iterate _ _ range _ none body => max (height range) (height body) + 1
  | iterate _ _ range _ (some filter) body =>
    max (height range) (max (height filter) (height body)) + 1

/-- The greatest height of expressions; zero if there are none. -/
def heightItems : List Expr → Nat
  | [] => 0
  | item :: rest => max (height item) (heightItems rest)

def heightEntries : List (Expr × Expr) → Nat
  | [] => 0
  | (key, value) :: rest => max (max (height key) (height value)) (heightEntries rest)

end

mutual

/-- Whether two trees differ in their spans only. -/
def sameShape : Expr → Expr → Bool
  | literal _ a, literal _ b => a.same b
  | ident _ a, ident _ b => a == b
  | list _ as, list _ bs => sameItems as bs
  | map _ as, map _ bs => sameEntries as bs
  | unary _ p a, unary _ q b => p == q && sameShape a b
  | arith _ p a c, arith _ q b d => p == q && sameShape a b && sameShape c d
  | logic _ p a c, logic _ q b d => p == q && sameShape a b && sameShape c d
  | relation _ p a c, relation _ q b d => p == q && sameShape a b && sameShape c d
  | ternary _ a c e, ternary _ b d f => sameShape a b && sameShape c d && sameShape e f
  | field _ a m, field _ b n => sameShape a b && m == n
  | index _ a c, index _ b d => sameShape a b && sameShape c d
  | call _ f as, call _ g bs => f == g && sameItems as bs
  | method _ a f as, method _ b g bs => sameShape a b && f == g && sameItems as bs
  | has _ a m, has _ b n => sameShape a b && m == n
  | iterate _ j a x none c, iterate _ k b y none d =>
    j == k && sameShape a b && x == y && sameShape c d
  | iterate _ j a x (some p) c, iterate _ k b y (some q) d =>
    j == k && sameShape a b && x == y && sameShape p q && sameShape c d
  | _, _ => false

def sameItems : List Expr → List Expr → Bool
  | [], [] => true
  | a :: as, b :: bs => sameShape a b && sameItems as bs
  | _, _ => false

def sameEntries : List (Expr × Expr) → List (Expr × Expr) → Bool
  | [], [] => true
  | (a, c) :: as, (b, d) :: bs => sameShape a b && sameShape c d && sameEntries as bs
  | _, _ => false

end

end Expr

end EmbeddedExpr
