import EmbeddedExpr.Builtin.Table
import EmbeddedExpr.Eval.Bindings
import EmbeddedExpr.Eval.Run

/-!
# Evaluation

An expression is evaluated from left to right.  A name means the innermost
iteration variable, else a bound variable, else a bound function, else a
builtin.  The lazy operators and the quantifiers absorb errors of operands that
the other operands make irrelevant, but never an exhausted bound.
-/

namespace EmbeddedExpr.Eval

/-- What an evaluation is done with. -/
structure Environment where
  bindings : Bindings
  limits : Limits

/-- Iteration variables, the innermost first. -/
abbrev Scope := List (String × Value)

/-- The value of a constant. -/
def literalValue : Literal → Value
  | .null => .null
  | .bool b => .bool b
  | .int i => .int i
  | .uint u => .uint u
  | .double x => .double x
  | .text s => .text s
  | .bytes bs => .bytes bs

/-- The value of a name. -/
def resolve (bindings : Bindings) (scope : Scope) (name : String) : Except Fault Value :=
  match scope.find? fun entry => entry.1 == name with
  | some (_, value) => .ok value
  | none =>
    match bindings.value? name with
    | some value => .ok value
    | none =>
      match bindings.function? name with
      | some f => .ok (.function name (some f.arity))
      | none =>
        match Builtin.find? name with
        | some b => .ok (.function name b.arity.fixed?)
        | none => .error (.unknownIdentifier name)

/-- Calls a bound function or, failing that, a builtin. -/
def invoke (bindings : Bindings) (name : String) (args : List Value) : Except Fault Value :=
  match bindings.function? name with
  | some f =>
    if f.arity = args.length then
      match f.call args with
      | .ok value => .ok value
      | .error fault => .error (.functionFailed name fault.message)
    else .error (.wrongArity name (Arity.exactly f.arity) args.length)
  | none =>
    match Builtin.find? name with
    | some b =>
      if b.arity.accepts args.length then b.body args
      else .error (.wrongArity name b.arity args.length)
    | none => .error (.unknownFunction name)

/-- A Boolean operand of an operation. -/
def asBool (operation : String) (span : Span) : Value → Run Bool
  | .bool b => .done b
  | value => .throw ⟨.noOverloadFor operation [value], span⟩

/-! ### Lazy operators -/

/-- `&&` and `||`: the decisive operand on either side settles the result; else the
error of the left side counts before that of the right side. -/
def lazily (op : LogicOp) (left right : Run Bool) : Run Value := do
  match ← left.outcome with
  | .ok b =>
    if b = op.decisive then pure (.bool b)
    else do
      let b ← right
      pure (.bool b)
  | .error e =>
    if e.fault.isResource then Run.throw e
    else do
      match ← right.outcome with
      | .ok b => if b = op.decisive then pure (.bool b) else Run.throw e
      | .error e' => if e'.fault.isResource then Run.throw e' else Run.throw e

/-! ### Iterations -/

/-- The items that an iteration runs over: those of a list or the keys of a map. -/
def rangeItems (kind : IterationKind) (span : Span) : Value → Run (List Value)
  | .list items => .done items
  | .map entries => .done (entries.map fun entry => entry.1.toValue)
  | value => .throw ⟨.noOverloadFor kind.name [value], span⟩

/-- Whether a test gives the decisive answer for an item.  The first error counts if
no item does. -/
def anyDecisive (step : Run Unit) (decisive : Bool) (test : Value → Run Bool)
    (deferred : Option Failure) : List Value → Run Bool
  | [] =>
    match deferred with
    | none => pure (!decisive)
    | some e => .throw e
  | item :: rest => do
    step
    match ← (test item).outcome with
    | .ok b => if b = decisive then pure decisive else anyDecisive step decisive test deferred rest
    | .error e =>
      if e.fault.isResource then Run.throw e
      else anyDecisive step decisive test (some (deferred.getD e)) rest

/-- The items that pass a test. -/
def passing (step : Run Unit) (test : Value → Run Bool) : List Value → Run (List Value)
  | [] => pure []
  | item :: rest => do
    step
    let b ← test item
    let more ← passing step test rest
    pure (if b then item :: more else more)

/-- The images of the items that pass a test. -/
def images (step : Run Unit) (test : Option (Value → Run Bool)) (image : Value → Run Value) :
    List Value → Run (List Value)
  | [] => pure []
  | item :: rest => do
    step
    let selected ← match test with
      | none => pure true
      | some test => test item
    if selected then
      let value ← image item
      let more ← images step test image rest
      pure (value :: more)
    else images step test image rest

/-- An iteration over items, given its body on an item both as it is and as a test.
Only `map` heeds a filter. -/
def iterateOver (kind : IterationKind) (step : Run Unit) (filter : Option (Value → Run Bool))
    (body : Value → Run Value) (test : Value → Run Bool) (items : List Value) : Run Value := do
  match kind with
  | .all => return .bool (← anyDecisive step false test none items)
  | .exists => return .bool (← anyDecisive step true test none items)
  | .existsOne => return .bool ((← passing step test items).length == 1)
  | .map => return .list (← images step filter body items)
  | .filter => return .list (← passing step test items)

/-! ### Expressions -/

mutual

/-- The value of an expression at a depth of nesting. -/
def eval (env : Environment) (scope : Scope) (depth : Nat) : Expr → Run Value
  | .literal span value => Run.nested env.limits depth span (pure (literalValue value))
  | .ident span name =>
    Run.nested env.limits depth span (Run.lift span (resolve env.bindings scope name))
  | .list span items => Run.nested env.limits depth span do
    let values ← evalItems env scope (depth + 1) items
    pure (.list values)
  | .map span entries => Run.nested env.limits depth span do
    let entries ← evalEntries env scope (depth + 1) [] entries
    pure (.map entries)
  | .unary span op operand => Run.nested env.limits depth span do
    let value ← eval env scope (depth + 1) operand
    Run.lift span (applyUnary op value)
  | .arith span op left right => Run.nested env.limits depth span do
    let l ← eval env scope (depth + 1) left
    let r ← eval env scope (depth + 1) right
    Run.lift span (applyArith op l r)
  | .relation span op left right => Run.nested env.limits depth span do
    let l ← eval env scope (depth + 1) left
    let r ← eval env scope (depth + 1) right
    let b ← Run.lift span (applyRelation op l r)
    pure (.bool b)
  | .logic span op left right =>
    Run.nested env.limits depth span <|
      lazily op
        (do
          let l ← eval env scope (depth + 1) left
          asBool op.operandName left.span l)
        (do
          let r ← eval env scope (depth + 1) right
          asBool op.operandName right.span r)
  | .ternary span condition whenTrue whenFalse => Run.nested env.limits depth span do
    let c ← eval env scope (depth + 1) condition
    let b ← asBool "_?_:_" condition.span c
    if b then eval env scope (depth + 1) whenTrue else eval env scope (depth + 1) whenFalse
  | .field span target name => Run.nested env.limits depth span do
    let value ← eval env scope (depth + 1) target
    Run.lift span (applyField value name)
  | .index span target position => Run.nested env.limits depth span do
    let value ← eval env scope (depth + 1) target
    let index ← eval env scope (depth + 1) position
    Run.lift span (applyIndex value index)
  | .has span target name => Run.nested env.limits depth span do
    let value ← eval env scope (depth + 1) target
    Run.lift span (applyHas value name)
  | .call span function args => Run.nested env.limits depth span do
    let values ← evalItems env scope (depth + 1) args
    Run.lift span (invoke env.bindings function values)
  | .method span target function args => Run.nested env.limits depth span do
    let value ← eval env scope (depth + 1) target
    let values ← evalItems env scope (depth + 1) args
    Run.lift span (invoke env.bindings function (value :: values))
  | .iterate span kind range var none body => Run.nested env.limits depth span do
    let value ← eval env scope (depth + 1) range
    let items ← rangeItems kind range.span value
    iterateOver kind (Run.tick env.limits body.span) none
      (fun item => eval env ((var, item) :: scope) (depth + 1) body)
      (fun item => do
        let value ← eval env ((var, item) :: scope) (depth + 1) body
        asBool kind.name body.span value)
      items
  | .iterate span kind range var (some filter) body => Run.nested env.limits depth span do
    let value ← eval env scope (depth + 1) range
    let items ← rangeItems kind range.span value
    iterateOver kind (Run.tick env.limits body.span)
      (some fun item => do
        let value ← eval env ((var, item) :: scope) (depth + 1) filter
        asBool kind.name filter.span value)
      (fun item => eval env ((var, item) :: scope) (depth + 1) body)
      (fun item => do
        let value ← eval env ((var, item) :: scope) (depth + 1) body
        asBool kind.name body.span value)
      items

/-- The values of expressions. -/
def evalItems (env : Environment) (scope : Scope) (depth : Nat) : List Expr → Run (List Value)
  | [] => pure []
  | item :: rest => do
    let value ← eval env scope depth item
    let values ← evalItems env scope depth rest
    pure (value :: values)

/-- The entries of a map literal added to those before them.  A key is a scalar that
is not among the keys so far. -/
def evalEntries (env : Environment) (scope : Scope) (depth : Nat)
    (before : List (MapKey × Value)) : List (Expr × Expr) → Run (List (MapKey × Value))
  | [] => pure before
  | (keyExpr, valueExpr) :: rest => do
    let keyValue ← eval env scope depth keyExpr
    match MapKey.ofValue? keyValue with
    | none => Run.throw ⟨.noOverloadFor "map key" [keyValue], keyExpr.span⟩
    | some key =>
      let value ← eval env scope depth valueExpr
      if (Entries.get? before key).isSome then
        Run.throw ⟨.duplicateKey key.display, keyExpr.span⟩
      else evalEntries env scope depth (Entries.insert MapKey.cmp key value before) rest

end

/-- The value of an expression, or the error that ends its evaluation. -/
def evaluate (expr : Expr) (bindings : Bindings) (limits : Limits) : Except Failure Value :=
  (eval ⟨bindings, limits⟩ [] 0 expr 0).1

end EmbeddedExpr.Eval
