import EmbeddedExpr.Number.Word
import EmbeddedExpr.Value.Entries

/-!
# Comparing values

Numbers of any kinds compare as numbers: two integers exactly, an integer and a
double after the integer has been rounded to a double.  Equality of the language
extends this to lists and maps, where a key finds the numerically equal key of
another kind; values of unrelated kinds are unequal.  `Value.identical` is the
finer equality that also tells kinds apart.
-/

namespace EmbeddedExpr

/-- The outcome of comparing two values. -/
inductive Comparison
  /-- The kinds have no common order. -/
  | incomparable
  /-- One of the numbers is NaN. -/
  | unordered
  | ordered (o : Ordering)
  deriving DecidableEq, Repr

namespace Comparison

def ofOrder? : Option Ordering → Comparison
  | none => unordered
  | some o => ordered o

/-- Whether the comparison found the two sides equal. -/
def isEqual : Comparison → Bool
  | ordered .eq => true
  | _ => false

end Comparison

namespace Value

/-- Two numbers of any kinds, compared as numbers. -/
def numericOrder : Value → Value → Comparison
  | int a, int b => .ordered (compare a.toInt b.toInt)
  | uint a, uint b => .ordered (compare a.toNat b.toNat)
  | int a, uint b => .ordered (compare a.toInt (b.toNat : Int))
  | uint a, int b => .ordered (compare (a.toNat : Int) b.toInt)
  | double a, double b => .ofOrder? (Double.order? a b)
  | int a, double b => .ofOrder? (Double.order? (Double.ofInt a.toInt) b)
  | uint a, double b => .ofOrder? (Double.order? (Double.ofInt a.toNat) b)
  | double a, int b => .ofOrder? (Double.order? a (Double.ofInt b.toInt))
  | double a, uint b => .ofOrder? (Double.order? a (Double.ofInt b.toNat))
  | _, _ => .incomparable

/-- The order of the relational operators. -/
def order (left right : Value) : Comparison :=
  match numericOrder left right with
  | .incomparable =>
    match left, right with
    | bool a, bool b => .ordered (compare a b)
    | text a, text b => .ordered (compareText a b)
    | bytes a, bytes b => .ordered (compareBytes a b)
    | timestamp a, timestamp b => .ordered (compare a b)
    | duration a, duration b => .ordered (compare a b)
    | _, _ => .incomparable
  | comparison => comparison

/-- The keys of other kinds that are numerically equal to a value, in the order
in which they are tried. -/
def alternativeKeys : Value → List MapKey
  | int i => (Number.uint64? i.toInt).toList.map .uint
  | uint u => (Number.int64? u.toNat).toList.map .int
  | double x =>
    if x.isIntegral then
      (Number.int64? x.truncate).toList.map .int ++ (Number.uint64? x.truncate).toList.map .uint
    else []
  | _ => []

/-- The value under a key of a map, or under a numerically equal key. -/
def lookup (entries : List (MapKey × Value)) (key : Value) : Option Value :=
  ((MapKey.ofValue? key).toList ++ alternativeKeys key).findSome? fun k => Entries.get? entries k

mutual

/-- Equality of the language. -/
def equals (left right : Value) : Bool :=
  match left, right with
  | null, null => true
  | bool a, bool b => a == b
  | text a, text b => a == b
  | bytes a, bytes b => a == b
  | timestamp a, timestamp b => decide (a = b)
  | duration a, duration b => decide (a = b)
  | list as, list bs => equalItems as bs
  | map as, map bs => as.length == bs.length && equalEntries as bs
  | function a _, function b _ => a == b
  | a, b => (numericOrder a b).isEqual

/-- Lists of one length with equal items. -/
def equalItems : List Value → List Value → Bool
  | [], [] => true
  | a :: as, b :: bs => equals a b && equalItems as bs
  | _, _ => false

/-- Whether each entry finds an equal value under its key. -/
def equalEntries : List (MapKey × Value) → List (MapKey × Value) → Bool
  | [], _ => true
  | (key, a) :: as, bs =>
    (match lookup bs key.toValue with
      | some b => equals a b
      | none => false) && equalEntries as bs

end

mutual

/-- Equality that keeps kinds apart.  A NaN differs from itself and the two zeros
are equal. -/
def identical (left right : Value) : Bool :=
  match left, right with
  | null, null => true
  | bool a, bool b => a == b
  | int a, int b => a == b
  | uint a, uint b => a == b
  | double a, double b => Double.order? a b == some .eq
  | text a, text b => a == b
  | bytes a, bytes b => a == b
  | list as, list bs => identicalItems as bs
  | map as, map bs => identicalEntries as bs
  | timestamp a, timestamp b => decide (a = b)
  | duration a, duration b => decide (a = b)
  | function a m, function b n => a == b && m == n
  | _, _ => false

def identicalItems : List Value → List Value → Bool
  | [], [] => true
  | a :: as, b :: bs => identical a b && identicalItems as bs
  | _, _ => false

def identicalEntries : List (MapKey × Value) → List (MapKey × Value) → Bool
  | [], [] => true
  | (j, a) :: as, (k, b) :: bs => decide (j = k) && identical a b && identicalEntries as bs
  | _, _ => false

end

/-- Whether a list holds an equal item or a map an equal key; other values contain
nothing. -/
def contains? (container element : Value) : Option Bool :=
  match container with
  | list items => some (items.any fun item => equals item element)
  | map entries => some (lookup entries element).isSome
  | _ => none

end Value

end EmbeddedExpr
