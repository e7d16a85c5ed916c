import EmbeddedExpr.Number.Double
import EmbeddedExpr.Value.Entries

/-!
# JSON documents

A document keeps its object fields in the order of the text, repeated ones
included; a document is canonical when the names of every object strictly
ascend.  A number is a whole number of 64 bits, signed or not, or a finite
double.
-/

namespace EmbeddedExpr.Json

/-- The whole numbers that fit a signed or an unsigned 64-bit word. -/
def WholeRange (n : Int) : Prop := -0x8000000000000000 ≤ n ∧ n < 0x10000000000000000

instance (n : Int) : Decidable (WholeRange n) := inferInstanceAs (Decidable (_ ∧ _))

/-- A number of a document. -/
inductive Numeral
  | whole (n : Int) (inRange : WholeRange n)
  | real (x : Double) (isFinite : x.isFinite = true)
  deriving DecidableEq

end EmbeddedExpr.Json

namespace EmbeddedExpr

/-- A JSON document. -/
inductive Json
  | null
  | bool (b : Bool)
  | number (n : Json.Numeral)
  | text (s : String)
  | array (items : List Json)
  | object (fields : List (String × Json))

namespace Json

/-- A whole number as a document, if it fits. -/
def ofInt? (n : Int) : Option Json :=
  if h : WholeRange n then some (number (.whole n h)) else none

/-- A double as a document, if it is finite. -/
def ofDouble? (x : Double) : Option Json :=
  if h : x.isFinite = true then some (number (.real x h)) else none

/-- A count as a document. -/
def ofNat (n : Nat) : Json := (ofInt? n).getD null

/-- A byte as a document. -/
def ofByte (b : UInt8) : Json :=
  number (.whole b.toNat (by have := b.toNat_lt; unfold WholeRange; omega))

mutual

/-- Whether the names of every object strictly ascend. -/
def isCanonical : Json → Bool
  | array items => allCanonical items
  | object fields => fieldsCanonical none fields
  | _ => true

def allCanonical : List Json → Bool
  | [] => true
  | item :: rest => isCanonical item && allCanonical rest

/-- Canonical fields, all of whose names come after `previous`. -/
def fieldsCanonical (previous : Option String) : List (String × Json) → Bool
  | [] => true
  | (name, value) :: rest =>
    (match previous with
      | none => true
      | some p => compareText p name == .lt) &&
    isCanonical value && fieldsCanonical (some name) rest

end

end Json

end EmbeddedExpr
