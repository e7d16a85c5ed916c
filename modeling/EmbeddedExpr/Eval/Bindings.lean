import EmbeddedExpr.Host.Document
import EmbeddedExpr.Host.Function

/-!
# Bindings

The variables and functions that an expression is evaluated with.  A variable and
a function may share a name; binding a name again replaces what it was bound to.
-/

namespace EmbeddedExpr

/-- Variables and functions by name. -/
structure Bindings where
  values : Entries String Value
  functions : Entries String BoundFunction

namespace Bindings

def empty : Bindings := ⟨[], []⟩

def value? (b : Bindings) (name : String) : Option Value :=
  Entries.get? b.values name

def function? (b : Bindings) (name : String) : Option BoundFunction :=
  Entries.get? b.functions name

/-- Binds a variable to a runtime value. -/
def bindValue (b : Bindings) (name : String) (value : Value) : Bindings :=
  { b with values := b.values.insert compareText name value }

/-- Binds a variable to a host value, if that has a runtime value. -/
def bindHost (b : Bindings) (name : String) (value : HostValue) : Except CodecError Bindings :=
  value.decode.map fun v => b.bindValue name v

/-- Binds a variable to a document. -/
def bindJson (b : Bindings) (name : String) (value : Json) : Except CodecError Bindings :=
  b.bindHost name (HostValue.ofJson value)

def bindFunction (b : Bindings) (name : String) (f : BoundFunction) : Bindings :=
  { b with functions := b.functions.insert compareText name f }

/-- The bound variables in the order of their names. -/
def variableNames (b : Bindings) : List String := b.values.keys

/-- The bound functions in the order of their names. -/
def functionNames (b : Bindings) : List String := b.functions.keys

def isEmpty (b : Bindings) : Bool := b.values.isEmpty && b.functions.isEmpty

end Bindings

end EmbeddedExpr
