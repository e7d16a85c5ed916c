import EmbeddedExpr.Host.Codec

/-!
# Functions of the application

The application supplies functions on runtime values or on its own values.  A
call may refuse its arguments or break off; a function on host values can also
return one that no runtime value stands for.
-/

namespace EmbeddedExpr

/-- Why a supplied function gave no result. -/
inductive CallFault
  /-- The function refused its arguments. -/
  | refused (message : String)
  /-- The function broke off, with a message if it left one. -/
  | brokeOff (message : Option String)
  deriving DecidableEq, Repr

def CallFault.message : CallFault → String
  | refused message => message
  | brokeOff (some message) => message
  | brokeOff none => "function panicked"

/-- A function on runtime values with a fixed number of arguments. -/
structure BoundFunction where
  arity : Nat
  call : List Value → Except CallFault Value

/-- A function on host values. -/
structure HostFunction where
  handle : FunctionHandle
  call : List HostValue → Except CallFault HostValue

namespace HostFunction

/-- Two functions are the same if they have one identity. -/
def isSame (f g : HostFunction) : Bool := f.handle == g.handle

/-- A function as dumps show it. -/
def dump (f : HostFunction) : String :=
  "HostFunction \x7b arity: " ++ toString f.handle.arity ++ ", .. \x7d"

/-- The function on runtime values: its arguments are encoded and its result is
decoded. -/
def toBound (f : HostFunction) : BoundFunction :=
  ⟨f.handle.arity, fun args =>
    match f.call (args.map Value.encode) with
    | .error fault => .error fault
    | .ok result =>
      match result.decode with
      | .ok value => .ok value
      | .error e => .error (.refused ("invalid return value: " ++ e.message))⟩

end HostFunction

end EmbeddedExpr
