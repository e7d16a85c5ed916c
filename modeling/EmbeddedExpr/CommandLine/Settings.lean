import EmbeddedExpr.Number.Reading

/-!
# Settings of the command line

The arguments are options, each with a value or without, and at most one
expression.  A value follows its option as the next argument or after an equals
sign.  Two hyphens end the options; before them an argument that begins with a
hyphen is an option, unless the hyphen is all of it.
-/

namespace EmbeddedExpr.CommandLine

/-- The options that take a value. -/
inductive ValueOption
  /-- A variable as a name, an equals sign and a document. -/
  | bind
  /-- A file with an object whose fields are variables. -/
  | bindings
  | maxDepth
  | maxIterations
  deriving DecidableEq, Repr

/-- The options without a value. -/
inductive FlagOption
  /-- Tell the parameters instead of evaluating. -/
  | analyze
  /-- Show the tree first. -/
  | debugParse
  deriving DecidableEq, Repr

def ValueOption.ofName? (name : String) : Option ValueOption :=
  if name = "bind" then some bind
  else if name = "bindings" then some bindings
  else if name = "max-depth" then some maxDepth
  else if name = "max-iterations" then some maxIterations
  else none

def FlagOption.ofName? (name : String) : Option FlagOption :=
  if name = "analyze" then some analyze
  else if name = "debug-parse" then some debugParse
  else none

/-- What the arguments ask for. -/
structure Settings where
  /-- The variables to bind, in the order of the arguments. -/
  bindings : List String
  bindingsFile : Option String
  analyzes : Bool
  dumps : Bool
  maxDepth : Option Nat
  maxIterations : Option Nat
  expression : Option String
  deriving DecidableEq, Repr

namespace Settings

/-- The settings of no arguments. -/
def empty : Settings := ⟨[], none, false, false, none, none, none⟩

/-- A count of 64 bits. -/
def count? (value : String) : Option Nat :=
  (Number.readInt? 0 (0x10000000000000000) value.toList).map Int.toNat

/-- Takes the value of an option.  Only variables are given more than once. -/
def give (s : Settings) (opt : ValueOption) (value : String) : Option Settings :=
  match opt with
  | .bind => some { s with bindings := s.bindings ++ [value] }
  | .bindings =>
    if s.bindingsFile.isNone ∧ value ≠ "" then some { s with bindingsFile := some value } else none
  | .maxDepth =>
    if s.maxDepth.isNone then (count? value).map fun n => { s with maxDepth := some n } else none
  | .maxIterations =>
    if s.maxIterations.isNone then (count? value).map fun n => { s with maxIterations := some n }
    else none

/-- Takes an option without a value, at most once. -/
def raise (s : Settings) : FlagOption → Option Settings
  | .analyze => if s.analyzes then none else some { s with analyzes := true }
  | .debugParse => if s.dumps then none else some { s with dumps := true }

/-- Takes the expression, at most once. -/
def place (s : Settings) (value : String) : Option Settings :=
  if s.expression.isNone then some { s with expression := some value } else none

/-- Whether an argument before the end of the options is one of them. -/
def isOption (arg : String) : Bool :=
  match arg.toList with
  | '-' :: rest => !rest.isEmpty
  | _ => false

/-- The name of a long option and the value after its equals sign. -/
def split? (arg : String) : Option (String × Option String) :=
  match arg.toList with
  | '-' :: '-' :: rest =>
    let name := String.ofList (rest.takeWhile (· != '='))
    match rest.dropWhile (· != '=') with
    | _ :: value => some (name, some (String.ofList value))
    | [] => some (name, none)
  | _ => none

/-- Takes the remaining arguments; they must be well formed. -/
def take? (s : Settings) : List String → Option Settings
  | [] => some s
  | arg :: rest =>
    if arg = "--" then rest.foldlM place s
    else if isOption arg then
      match split? arg with
      | none => none
      | some (name, attached) =>
        match ValueOption.ofName? name, FlagOption.ofName? name, attached with
        | some opt, _, some value => (s.give opt value).bind fun s => take? s rest
        | some opt, _, none =>
          match rest with
          | [] => none
          | value :: rest =>
            if isOption value then none else (s.give opt value).bind fun s => take? s rest
        | none, some flag, none => (s.raise flag).bind fun s => take? s rest
        | none, _, _ => none
    else (s.place arg).bind fun s => take? s rest

/-- The settings that well-formed arguments spell. -/
def ofArgs? (args : List String) : Option Settings := empty.take? args

end Settings

end EmbeddedExpr.CommandLine
