import EmbeddedExpr.Proofs.Eval.Faults
import EmbeddedExpr.Proofs.Syntax.Operands

/-!
# Two evaluations of one tree

Several properties of the evaluator compare two evaluations of one expression: under
other bindings, under another bound, or with itself.  All of them go down the tree in
the same way.  A `Simulation` is a relation between the runs on the left and those on
the right that everything an evaluation is built from keeps: results, known failures,
sequencing, and the one way in which errors are absorbed.  `Simulation.eval` then says
that the evaluations correspond as soon as they do so at each node on its own
(`Simulation.At`).  A node together with its operands is a `Simulation.Node`, with one
lemma for each shape of node that does more than evaluate its operands in a row.

Errors are absorbed by looking at the outcome of a run and going on.  Whatever goes on
after an exhausted bound raises it again (`Rethrows`); this is the only fact about the
lazy operators and the quantifiers that a relation may use.
-/

namespace EmbeddedExpr.Eval

/-! ### Runs on a count of steps -/

namespace Run

variable {α β : Type} {r : Run α} {steps after : Nat}

theorem bind_of_ok {a : α} (h : r steps = (.ok a, after)) (next : α → Run β) :
    (r >>= next) steps = next a after := by
  change Run.andThen r next steps = _
  rw [Run.andThen, h]

theorem bind_of_error {e : Failure} (h : r steps = (.error e, after)) (next : α → Run β) :
    (r >>= next) steps = (.error e, after) := by
  change Run.andThen r next steps = _
  rw [Run.andThen, h]

/-- Whatever follows an outcome is given it, be it a result or a failure. -/
theorem outcome_bind {result : Except Failure α} (h : r steps = (result, after))
    (next : Except Failure α → Run β) : (r.outcome >>= next) steps = next result after := by
  refine bind_of_ok ?_ next
  rw [outcome, h]

/-- Too deep a run does not even begin. -/
theorem nested_of_le {limits : Limits} {depth : Nat} (h : limits.maxDepth ≤ depth) (span : Span)
    (r : Run α) : nested limits depth span r = throw ⟨.tooDeep depth limits.maxDepth, span⟩ :=
  funext fun _ => if_pos h

theorem nested_of_not_le {limits : Limits} {depth : Nat} (h : ¬ limits.maxDepth ≤ depth)
    (span : Span) (r : Run α) : nested limits depth span r = r :=
  funext fun _ => if_neg h

/-- The run takes no step back. -/
def Counts (r : Run α) : Prop := ∀ steps, steps ≤ (r steps).2

theorem Counts.bind {next : α → Run β} (h : r.Counts) (hnext : ∀ a, (next a).Counts) :
    (r >>= next).Counts := by
  intro steps
  have hfirst := h steps
  cases hrun : r steps with
  | mk outcome middle =>
    rw [hrun] at hfirst
    cases outcome with
    | ok a =>
        rw [bind_of_ok hrun]
        exact Nat.le_trans hfirst (hnext a middle)
    | error e =>
        rw [bind_of_error hrun]
        exact hfirst

theorem Counts.outcome (h : r.Counts) : r.outcome.Counts := h

/-- A step counts one, be it allowed or not. -/
theorem tick_steps (limits : Limits) (span : Span) (steps : Nat) :
    (tick limits span steps).2 = steps + 1 := by
  unfold tick
  split
  · split <;> rfl
  · rfl

theorem Counts.tick (limits : Limits) (span : Span) : (tick limits span).Counts := by
  intro steps
  rw [tick_steps]
  exact Nat.le_succ steps

end Run

/-- What follows an outcome passes exhausted bounds on. -/
def Rethrows {α β : Type} (next : Except Failure α → Run β) : Prop :=
  ∀ e : Failure, e.fault.isResource = true → next (.error e) = Run.throw e

/-- A relation of runs that evaluation keeps. -/
structure Simulation where
  /-- How a run on the left corresponds to one on the right. -/
  Rel {α : Type} (left right : Run α) : Prop
  /-- The failures that may be raised. -/
  Known : Failure → Prop
  pure {α : Type} (a : α) : Rel (Pure.pure a : Run α) (Pure.pure a)
  throw {α : Type} {e : Failure} : Known e → Rel (Run.throw e : Run α) (Run.throw e)
  bind {α β : Type} {r r' : Run α} {next next' : α → Run β} :
    Rel r r' → (∀ a, Rel (next a) (next' a)) → Rel (r >>= next) (r' >>= next')
  recover {α β : Type} {r r' : Run α} {next next' : Except Failure α → Run β} :
    Rel r r' → Rethrows next → Rethrows next' →
      (∀ a, Rel (next (.ok a)) (next' (.ok a))) →
      (∀ e, Known e → Rel (next (.error e)) (next' (.error e))) →
      Rel (r.outcome >>= next) (r'.outcome >>= next')

namespace Simulation

variable (sim : Simulation)

theorem lift {α : Type} {span : Span} {result : Except Fault α}
    (h : ∀ fault, result = .error fault → sim.Known ⟨fault, span⟩) :
    sim.Rel (Run.lift span result) (Run.lift span result) := by
  cases result with
  | ok a => exact sim.pure a
  | error fault => exact sim.throw (h fault rfl)

/-- Every ordinary fault may be raised at a span. -/
def Ordinarily (span : Span) : Prop :=
  ∀ fault : Fault, fault.isOrdinary = true → sim.Known ⟨fault, span⟩

variable {sim} in
theorem Ordinarily.lift {α : Type} {span : Span} (h : sim.Ordinarily span)
    {result : Except Fault α} (hresult : Ordinary result) :
    sim.Rel (Run.lift span result) (Run.lift span result) :=
  sim.lift fun fault heq => h fault (hresult fault heq)

variable {sim} in
theorem Ordinarily.asBool {span : Span} (h : sim.Ordinarily span) (operation : String)
    (value : Value) : sim.Rel (asBool operation span value) (asBool operation span value) := by
  unfold Eval.asBool
  split
  · exact sim.pure _
  · exact sim.throw (h _ rfl)

variable {sim} in
theorem Ordinarily.rangeItems {span : Span} (h : sim.Ordinarily span) (kind : IterationKind)
    (value : Value) : sim.Rel (rangeItems kind span value) (rangeItems kind span value) := by
  unfold Eval.rangeItems
  split
  · exact sim.pure _
  · exact sim.pure _
  · exact sim.throw (h _ rfl)

/-! ### Lazy operators -/

theorem rethrows_lazily_inner (op : LogicOp) (e : Failure) :
    Rethrows fun o : Except Failure Bool => (match o with
      | .ok b => if b = op.decisive then Pure.pure (.bool b) else Run.throw e
      | .error e' => if e'.fault.isResource then Run.throw e' else Run.throw e : Run Value) := by
  intro e' he'
  simp [he']

theorem lazily (op : LogicOp) {l l' r r' : Run Bool} (hl : sim.Rel l l') (hr : sim.Rel r r') :
    sim.Rel (lazily op l r) (lazily op l' r') := by
  unfold Eval.lazily
  refine sim.recover hl (fun e he => by simp [he]) (fun e he => by simp [he]) ?_ ?_
  · intro b
    simp only
    split
    · exact sim.pure _
    · exact sim.bind hr fun b => sim.pure _
  · -- the left side failed, so only a decisive right side gives a result
    intro e he
    simp only
    split
    · exact sim.throw he
    · refine sim.recover hr (rethrows_lazily_inner op e) (rethrows_lazily_inner op e) ?_ ?_
      · intro b
        simp only
        split
        · exact sim.pure _
        · exact sim.throw he
      · intro e' he'
        simp only
        split
        · exact sim.throw he'
        · exact sim.throw he

/-! ### Iterations -/

section Iterations

variable {step step' : Run Unit} {test test' : Value → Run Bool}

theorem anyDecisive (hstep : sim.Rel step step') (htest : ∀ v, sim.Rel (test v) (test' v))
    (decisive : Bool) (deferred : Option Failure) (hdeferred : ∀ e ∈ deferred, sim.Known e)
    (items : List Value) :
    sim.Rel (anyDecisive step decisive test deferred items)
      (anyDecisive step' decisive test' deferred items) := by
  induction items generalizing deferred with
  | nil =>
      cases deferred with
      | none => exact sim.pure _
      | some e => exact sim.throw (hdeferred e rfl)
  | cons item rest ih =>
      refine sim.bind hstep fun _ => ?_
      refine sim.recover (htest item) (fun e he => by simp [he]) (fun e he => by simp [he]) ?_ ?_
      · intro b
        simp only
        split
        · exact sim.pure _
        · exact ih deferred hdeferred
      · intro e he
        simp only
        split
        · exact sim.throw he
        · -- the earliest failure stays the deferred one
          refine ih _ fun first hfirst => ?_
          cases deferred with
          | none => cases hfirst; exact he
          | some d => cases hfirst; exact hdeferred d rfl

theorem passing (hstep : sim.Rel step step') (htest : ∀ v, sim.Rel (test v) (test' v))
    (items : List Value) : sim.Rel (passing step test items) (passing step' test' items) := by
  induction items with
  | nil => exact sim.pure _
  | cons item rest ih =>
      refine sim.bind hstep fun _ => sim.bind (htest item) fun b => ?_
      exact sim.bind ih fun more => sim.pure _

theorem images {image image' : Value → Run Value} {filter filter' : Option (Value → Run Bool)}
    (hstep : sim.Rel step step') (himage : ∀ v, sim.Rel (image v) (image' v))
    (hfilter : Option.Rel (fun f f' => ∀ v, sim.Rel (f v) (f' v)) filter filter')
    (items : List Value) :
    sim.Rel (images step filter image items) (images step' filter' image' items) := by
  induction items with
  | nil => exact sim.pure _
  | cons item rest ih =>
      have hselected (selected : Bool) :
          sim.Rel
            (if selected then do
              let v ← image item
              let more ← Eval.images step filter image rest
              Pure.pure (v :: more)
            else Eval.images step filter image rest)
            (if selected then do
              let v ← image' item
              let more ← Eval.images step' filter' image' rest
              Pure.pure (v :: more)
            else Eval.images step' filter' image' rest) := by
        split
        · exact sim.bind (himage item) fun v => sim.bind ih fun more => sim.pure _
        · exact ih
      refine sim.bind hstep fun _ => ?_
      cases hfilter with
      | none => exact sim.bind (sim.pure true) hselected
      | some h => exact sim.bind (h item) hselected

theorem iterateOver (kind : IterationKind) {body body' : Value → Run Value}
    {filter filter' : Option (Value → Run Bool)}
    (hstep : sim.Rel step step') (hbody : ∀ v, sim.Rel (body v) (body' v))
    (htest : ∀ v, sim.Rel (test v) (test' v))
    (hfilter : Option.Rel (fun f f' => ∀ v, sim.Rel (f v) (f' v)) filter filter')
    (items : List Value) :
    sim.Rel (iterateOver kind step filter body test items)
      (iterateOver kind step' filter' body' test' items) := by
  cases kind with
  | all | «exists» =>
      exact sim.bind (sim.anyDecisive hstep htest _ none nofun items) fun b => sim.pure _
  | existsOne | filter => exact sim.bind (sim.passing hstep htest items) fun b => sim.pure _
  | map => exact sim.bind (sim.images hstep hbody hfilter items) fun b => sim.pure _

end Iterations

/-! ### Expressions -/

variable {env env' : Environment}

/-- The two evaluations correspond at a node on its own: in what the node does apart
from evaluating its operands.  The one on the left is `shift` levels deeper. -/
structure At (shift : Nat) (env env' : Environment) (p : Place) : Prop where
  faults : sim.Ordinarily p.expr.span
  nested {r r' : Run Value} : sim.Rel r r' →
    sim.Rel (Run.nested env.limits (p.depth + shift) p.expr.span r)
      (Run.nested env'.limits p.depth p.expr.span r')
  tick : sim.Rel (Run.tick env.limits p.expr.span) (Run.tick env'.limits p.expr.span)
  name {name : String} {scope : Scope} : p.expr.name? = some name →
    scope.map Prod.fst = p.vars →
    sim.Rel (Run.lift p.expr.span (resolve env.bindings scope name))
      (Run.lift p.expr.span (resolve env'.bindings scope name))
  call {function : String} : p.expr.callee? = some function →
    invoke env.bindings function = invoke env'.bindings function

variable {sim}

theorem evalItems {scope : Scope} {deeper depth : Nat} {items : List Expr}
    (hitems : ∀ item ∈ items, sim.Rel (eval env scope deeper item) (eval env' scope depth item)) :
    sim.Rel (evalItems env scope deeper items) (evalItems env' scope depth items) := by
  induction items with
  | nil => exact sim.pure _
  | cons item rest ih =>
      refine sim.bind (hitems item (List.mem_cons_self ..)) fun v => ?_
      have hrest := ih fun other h => hitems other (List.mem_cons_of_mem _ h)
      exact sim.bind hrest fun vs => sim.pure _

theorem evalEntries {scope : Scope} {deeper depth : Nat} {entries : List (Expr × Expr)}
    (hentries : ∀ entry ∈ entries,
      sim.Ordinarily entry.1.span ∧
        sim.Rel (eval env scope deeper entry.1) (eval env' scope depth entry.1) ∧
        sim.Rel (eval env scope deeper entry.2) (eval env' scope depth entry.2))
    (before : List (MapKey × Value)) :
    sim.Rel (evalEntries env scope deeper before entries)
      (evalEntries env' scope depth before entries) := by
  induction entries generalizing before with
  | nil => exact sim.pure _
  | cons entry rest ih =>
      obtain ⟨key, value⟩ := entry
      obtain ⟨hfaults, hkey, hvalue⟩ := hentries _ (List.mem_cons_self ..)
      refine sim.bind hkey fun k => ?_
      split
      · exact sim.throw (hfaults _ rfl)
      · refine sim.bind hvalue fun v => ?_
        split
        · exact sim.throw (hfaults _ rfl)
        · exact ih (fun other h => hentries other (List.mem_cons_of_mem _ h)) _

/-- A body under an iteration variable, as a test. -/
theorem bodyAsBool (kind : IterationKind) {var : String} {scope : Scope} {deeper depth : Nat}
    {e : Expr} (hfaults : sim.Ordinarily e.span)
    (he : ∀ item, sim.Rel (eval env ((var, item) :: scope) deeper e)
      (eval env' ((var, item) :: scope) depth e)) (item : Value) :
    sim.Rel
      (do
        let value ← eval env ((var, item) :: scope) deeper e
        asBool kind.name e.span value)
      (do
        let value ← eval env' ((var, item) :: scope) depth e
        asBool kind.name e.span value) :=
  sim.bind (he item) fun value => hfaults.asBool kind.name value

/-! ### Nodes -/

/-- The two evaluations correspond at a node, both on its own and at its operands. -/
structure Node (sim : Simulation) (shift : Nat) (env env' : Environment) (scope : Scope)
    (p : Place) : Prop where
  here : sim.At shift env env' p
  names : scope.map Prod.fst = p.vars
  faults {o : List String × Expr} : o ∈ p.expr.operands → sim.Ordinarily o.2.span
  tick {o : List String × Expr} : o ∈ p.expr.operands →
    sim.Rel (Run.tick env.limits o.2.span) (Run.tick env'.limits o.2.span)
  sub {sub : Expr} : ([], sub) ∈ p.expr.operands →
    sim.Rel (eval env scope (p.depth + shift + 1) sub) (eval env' scope (p.depth + 1) sub)
  under {var : String} {sub : Expr} : ([var], sub) ∈ p.expr.operands → ∀ item,
    sim.Rel (eval env ((var, item) :: scope) (p.depth + shift + 1) sub)
      (eval env' ((var, item) :: scope) (p.depth + 1) sub)

namespace Node

section Operands

variable {shift : Nat} {scope : Scope} {p : Place} {operand : Expr}
  (node : sim.Node shift env env' scope p)

include node

theorem asBool (h : ([], operand) ∈ p.expr.operands) (operation : String) :
    sim.Rel
      (do
        let value ← eval env scope (p.depth + shift + 1) operand
        asBool operation operand.span value)
      (do
        let value ← eval env' scope (p.depth + 1) operand
        asBool operation operand.span value) :=
  sim.bind (node.sub h) fun value => (node.faults h).asBool operation value

theorem test {var : String} (h : ([var], operand) ∈ p.expr.operands) (kind : IterationKind)
    (item : Value) :
    sim.Rel
      (do
        let value ← eval env ((var, item) :: scope) (p.depth + shift + 1) operand
        Eval.asBool kind.name operand.span value)
      (do
        let value ← eval env' ((var, item) :: scope) (p.depth + 1) operand
        Eval.asBool kind.name operand.span value) :=
  bodyAsBool kind (node.faults h) (node.under h) item

theorem args {args : List Expr} (h : ∀ arg ∈ args, ([], arg) ∈ p.expr.operands) :
    sim.Rel (Eval.evalItems env scope (p.depth + shift + 1) args)
      (Eval.evalItems env' scope (p.depth + 1) args) :=
  evalItems fun arg harg => node.sub (h arg harg)

end Operands

section Shapes

variable {shift depth : Nat} {scope : Scope} {vars : List String} {span : Span}

theorem map {entries : List (Expr × Expr)}
    (node : sim.Node shift env env' scope ⟨vars, depth, .map span entries⟩) :
    sim.Rel (eval env scope (depth + shift) (.map span entries))
      (eval env' scope depth (.map span entries)) := by
  refine node.here.nested (sim.bind (evalEntries (fun entry h => ?_) []) fun map => sim.pure _)
  have hkey : ([], entry.1) ∈ Expr.operands (.map span entries) :=
    List.mem_flatMap.mpr ⟨entry, h, by simp⟩
  have hvalue : ([], entry.2) ∈ Expr.operands (.map span entries) :=
    List.mem_flatMap.mpr ⟨entry, h, by simp⟩
  exact ⟨node.faults hkey, node.sub hkey, node.sub hvalue⟩

theorem logic {op : LogicOp} {left right : Expr}
    (node : sim.Node shift env env' scope ⟨vars, depth, .logic span op left right⟩) :
    sim.Rel (eval env scope (depth + shift) (.logic span op left right))
      (eval env' scope depth (.logic span op left right)) := by
  have hleft : ([], left) ∈ Expr.operands (.logic span op left right) := by
    simp [Expr.operands]
  have hright : ([], right) ∈ Expr.operands (.logic span op left right) := by
    simp [Expr.operands]
  exact node.here.nested
    (sim.lazily op (node.asBool hleft op.operandName) (node.asBool hright op.operandName))

theorem ternary {c t f : Expr}
    (node : sim.Node shift env env' scope ⟨vars, depth, .ternary span c t f⟩) :
    sim.Rel (eval env scope (depth + shift) (.ternary span c t f))
      (eval env' scope depth (.ternary span c t f)) := by
  have hc : ([], c) ∈ Expr.operands (.ternary span c t f) := by simp [Expr.operands]
  refine node.here.nested (sim.bind (node.sub hc) fun v => ?_)
  refine sim.bind ((node.faults hc).asBool _ v) fun b => ?_
  split
  · exact node.sub (by simp [Expr.operands])
  · exact node.sub (by simp [Expr.operands])

theorem call {function : String} {args : List Expr}
    (node : sim.Node shift env env' scope ⟨vars, depth, .call span function args⟩) :
    sim.Rel (eval env scope (depth + shift) (.call span function args))
      (eval env' scope depth (.call span function args)) := by
  have hargs := node.args fun arg h => List.mem_map.mpr ⟨arg, h, rfl⟩
  refine node.here.nested (sim.bind hargs fun values => ?_)
  rw [node.here.call rfl]
  exact node.here.faults.lift (invoke_ordinary env'.bindings function values)

theorem method {target : Expr} {function : String} {args : List Expr}
    (node : sim.Node shift env env' scope ⟨vars, depth, .method span target function args⟩) :
    sim.Rel (eval env scope (depth + shift) (.method span target function args))
      (eval env' scope depth (.method span target function args)) := by
  have hargs := node.args fun arg h => List.mem_cons_of_mem _ (List.mem_map.mpr ⟨arg, h, rfl⟩)
  refine node.here.nested (sim.bind (node.sub (by simp [Expr.operands])) fun value => ?_)
  refine sim.bind hargs fun values => ?_
  rw [node.here.call rfl]
  exact node.here.faults.lift (invoke_ordinary env'.bindings function (value :: values))

theorem iterate {kind : IterationKind} {range body : Expr} {var : String} {filter : Option Expr}
    (node : sim.Node shift env env' scope
      ⟨vars, depth, .iterate span kind range var filter body⟩) :
    sim.Rel (eval env scope (depth + shift) (.iterate span kind range var filter body))
      (eval env' scope depth (.iterate span kind range var filter body)) := by
  have hrange : ([], range) ∈ Expr.operands (.iterate span kind range var filter body) := by
    cases filter <;> simp [Expr.operands]
  have hbody : ([var], body) ∈ Expr.operands (.iterate span kind range var filter body) := by
    cases filter <;> simp [Expr.operands]
  have htick := node.tick hbody
  have htest := node.test hbody kind
  cases filter with
  | none =>
      refine node.here.nested (sim.bind (node.sub hrange) fun value => ?_)
      refine sim.bind ((node.faults hrange).rangeItems kind value) fun items => ?_
      exact sim.iterateOver kind htick (node.under hbody) htest .none items
  | some filter =>
      have hfilter : ([var], filter) ∈
          Expr.operands (.iterate span kind range var (some filter) body) := by
        simp [Expr.operands]
      refine node.here.nested (sim.bind (node.sub hrange) fun value => ?_)
      refine sim.bind ((node.faults hrange).rangeItems kind value) fun items => ?_
      exact sim.iterateOver kind htick (node.under hbody) htest (.some (node.test hfilter kind))
        items

/-- At whatever node the evaluations correspond, they do so from there on. -/
theorem eval {e : Expr} (node : sim.Node shift env env' scope ⟨vars, depth, e⟩) :
    sim.Rel (eval env scope (depth + shift) e) (eval env' scope depth e) := by
  have here := node.here
  cases e with
  | literal => exact here.nested (sim.pure _)
  | ident => exact here.nested (here.name rfl node.names)
  | list span items =>
      have hitems := node.args fun item h => List.mem_map.mpr ⟨item, h, rfl⟩
      exact here.nested (sim.bind hitems fun values => sim.pure _)
  | map => exact node.map
  | unary span op operand =>
      refine here.nested (sim.bind (node.sub (by simp [Expr.operands])) fun value => ?_)
      exact here.faults.lift (applyUnary_ordinary op value)
  | arith span op left right =>
      refine here.nested (sim.bind (node.sub (by simp [Expr.operands])) fun l => ?_)
      refine sim.bind (node.sub (by simp [Expr.operands])) fun r => ?_
      exact here.faults.lift (applyArith_ordinary op l r)
  | relation span op left right =>
      refine here.nested (sim.bind (node.sub (by simp [Expr.operands])) fun l => ?_)
      refine sim.bind (node.sub (by simp [Expr.operands])) fun r => ?_
      exact sim.bind (here.faults.lift (applyRelation_ordinary op l r)) fun b => sim.pure _
  | logic => exact node.logic
  | ternary => exact node.ternary
  | field span target name =>
      refine here.nested (sim.bind (node.sub (by simp [Expr.operands])) fun value => ?_)
      exact here.faults.lift (applyField_ordinary value name)
  | index span target position =>
      refine here.nested (sim.bind (node.sub (by simp [Expr.operands])) fun value => ?_)
      refine sim.bind (node.sub (by simp [Expr.operands])) fun index => ?_
      exact here.faults.lift (applyIndex_ordinary value index)
  | has span target name =>
      refine here.nested (sim.bind (node.sub (by simp [Expr.operands])) fun value => ?_)
      exact here.faults.lift (applyHas_ordinary value name)
  | call => exact node.call
  | method => exact node.method
  | iterate => exact node.iterate

end Shapes

end Node

/-! ### Trees -/

variable (sim) in
/-- Evaluations that correspond at every node of a tree correspond. -/
theorem eval {e : Expr} {vars : List String} {shift depth : Nat}
    (hat : ∀ p, Place.Reaches ⟨vars, depth, e⟩ p → sim.At shift env env' p)
    {scope : Scope} (hscope : scope.map Prod.fst = vars) :
    sim.Rel (eval env scope (depth + shift) e) (eval env' scope depth e) := by
  -- by induction on the tree; the body of an iteration is under one more variable
  induction e using Expr.induct generalizing vars depth scope with
  | step e ih =>
      have hlevel : depth + 1 + shift = depth + shift + 1 := Nat.add_right_comm depth 1 shift
      have hplace {o : List String × Expr} (ho : o ∈ e.operands) :
          (⟨o.1 ++ vars, depth + 1, o.2⟩ : Place) ∈ Place.operands ⟨vars, depth, e⟩ :=
        List.mem_map.mpr ⟨o, ho, rfl⟩
      have hoperand {o : List String × Expr} (ho : o ∈ e.operands) :
          sim.At shift env env' ⟨o.1 ++ vars, depth + 1, o.2⟩ :=
        hat _ (.down (hplace ho) (.refl _))
      have hsub {sub : Expr} (h : ([], sub) ∈ e.operands) :
          sim.Rel (Eval.eval env scope (depth + shift + 1) sub)
            (Eval.eval env' scope (depth + 1) sub) :=
        hlevel ▸ ih _ h (fun p hp => hat p (.down (hplace h) hp)) hscope
      have hunder {var : String} {sub : Expr} (h : ([var], sub) ∈ e.operands) (item : Value) :
          sim.Rel (Eval.eval env ((var, item) :: scope) (depth + shift + 1) sub)
            (Eval.eval env' ((var, item) :: scope) (depth + 1) sub) :=
        hlevel ▸ ih _ h (fun p hp => hat p (.down (hplace h) hp))
          (by rw [List.map_cons, hscope, List.singleton_append])
      have node : sim.Node shift env env' scope ⟨vars, depth, e⟩ := {
        here := hat _ (.refl _)
        names := hscope
        faults := fun ho => (hoperand ho).faults
        tick := fun ho => (hoperand ho).tick
        sub := hsub
        under := hunder }
      exact node.eval

/-- Evaluations that correspond at every node of a whole tree correspond. -/
theorem eval_root (sim : Simulation) {env env' : Environment} {e : Expr}
    (hat : ∀ p, (Place.root e).Reaches p → sim.At 0 env env' p) :
    sim.Rel (Eval.eval env [] 0 e) (Eval.eval env' [] 0 e) :=
  sim.eval hat rfl

end Simulation

end EmbeddedExpr.Eval
