import EmbeddedExpr.Proofs.Eval.Settled
import EmbeddedExpr.Proofs.Value.Members

/-!
# Logic that absorbs errors

The lazy operators and the quantifiers `all` and `exists` look for the decisive answer.  Where
an operand or an item gives it, the errors of the others do not matter; where none does, the
first error is that of the whole.  `combine` is this rule for two outcomes.  It says what a lazy
operator makes of its operands (`outcome_logic`), and folded from the right what a quantifier
makes of the items (`outcome_quantifier`), so that the loop with its deferred error is a chain
of lazy operators.

The deferred error is what carries the induction: to go on with an error in hand is to combine
the error with what the remaining items give (`anyDecisive_settles`).

All outcomes are taken at one point of an evaluation, under its limits.  Nothing is said where
the whole exhausts a bound; an operand that is passed over may exhaust one.
-/

namespace EmbeddedExpr.Eval

/-- The outcomes of two Boolean operands combined: the decisive answer of either, else the error
of the first that fails. -/
def combine (op : LogicOp) : Except Failure Bool → Except Failure Bool → Except Failure Bool
  | .ok b, right => if b = op.decisive then .ok b else right
  | .error e, .ok b => if b = op.decisive then .ok b else .error e
  | .error e, .error _ => .error e

section Combine

variable {op : LogicOp} {left right : Except Failure Bool}

theorem combine_eq_decisive_iff :
    combine op left right = .ok op.decisive ↔
      left = .ok op.decisive ∨ right = .ok op.decisive := by
  rcases left with e | b
  · rcases right with e' | b'
    · simp [combine]
    · by_cases h : b' = op.decisive <;> simp [combine, h]
  · by_cases h : b = op.decisive <;> simp [combine, h]

theorem combine_eq_indecisive_iff :
    combine op left right = .ok (!op.decisive) ↔
      left = .ok (!op.decisive) ∧ right = .ok (!op.decisive) := by
  rcases left with e | b
  · rcases right with e' | b'
    · simp [combine]
    · by_cases h : b' = op.decisive <;> simp [combine, h]
  · by_cases h : b = op.decisive
    · simp [combine, h]
    · simp [combine, Bool.eq_not_of_ne h]

/-- The error of the first operand stays where the second one is not decisive. -/
theorem combine_error {e : Failure} (h : right ≠ .ok op.decisive) :
    combine op (.error e) right = .error e := by
  rcases right with e' | b
  · rfl
  · exact if_neg fun hb => h (congrArg _ hb)

/-- The second operand has its say where the first one holds back. -/
theorem combine_indecisive : combine op (.ok !op.decisive) right = right :=
  if_neg (by simp)

theorem combine_error_error (e e' : Failure) :
    combine op (.error e) (combine op (.error e') right) = combine op (.error e) right := by
  by_cases h : right = .ok op.decisive
  · have hinner : combine op (.error e') right = .ok op.decisive :=
      combine_eq_decisive_iff.mpr (.inr h)
    rw [hinner, h]
  · rw [combine_error h, combine_error h]
    rfl

theorem eq_decisive_or (op : LogicOp) (b : Bool) : b = op.decisive ∨ b = !op.decisive := by
  cases b <;> cases op.decisive <;> simp

/-- Operands that give a result give it in either order. -/
theorem combine_comm_of_eq_ok {b : Bool} (h : combine op left right = .ok b) :
    combine op right left = .ok b := by
  rcases eq_decisive_or op b with rfl | rfl
  · exact combine_eq_decisive_iff.mpr (combine_eq_decisive_iff.mp h).symm
  · exact combine_eq_indecisive_iff.mpr (combine_eq_indecisive_iff.mp h).symm

end Combine

/-! ### Operands as Booleans -/

/-- An outcome as the operand of an operation on Booleans: any other result is a failure. -/
def asTruth (operation : String) (span : Span) : Except Failure Value → Except Failure Bool
  | .ok (.bool b) => .ok b
  | .ok value => .error ⟨.noOverloadFor operation [value], span⟩
  | .error e => .error e

theorem asTruth_eq_ok_iff {operation : String} {span : Span} {outcome : Except Failure Value}
    {b : Bool} : asTruth operation span outcome = .ok b ↔ outcome = .ok (.bool b) := by
  rcases outcome with e | v
  · simp [asTruth]
  · cases v <;> simp [asTruth]

/-- What an expression gives as an operand of an operation on Booleans. -/
def Point.truth (p : Point) (operation : String) (e : Expr) : Except Failure Bool :=
  asTruth operation e.span (p.outcome e)

theorem Point.truth_settles (p : Point) (operation : String) (e : Expr) :
    (do
      let value ← eval p.env p.scope (p.depth + 1) e
      asBool operation e.span value).Settles p.steps (p.truth operation e) := by
  have h := p.eval_settles e
  rw [truth]
  rcases houtcome : p.outcome e with failure | v
  · rw [houtcome] at h
    exact h.bind_error _
  · rw [houtcome] at h
    refine h.bind ?_
    cases v with
    | bool b => exact .pure b
    | _ => exact .throw _

/-! ### Lazy operators -/

/-- The result of a combination, as a value. -/
def answer (outcome : Except Failure Bool) : Except Failure Value := outcome.map Value.bool

@[simp] theorem answer_ok (b : Bool) : answer (.ok b) = .ok (.bool b) := rfl

@[simp] theorem answer_error (e : Failure) : answer (.error e) = .error e := rfl

theorem answer_eq_ok_iff {outcome : Except Failure Bool} {b : Bool} :
    answer outcome = .ok (.bool b) ↔ outcome = .ok b := by
  cases outcome <;> simp [answer, Except.map]

theorem exists_of_answer_eq_ok {outcome : Except Failure Bool} {v : Value}
    (h : answer outcome = .ok v) : ∃ b, v = .bool b ∧ outcome = .ok b := by
  cases outcome with
  | error e => cases h
  | ok b => cases h; exact ⟨b, rfl, rfl⟩

theorem lazily_settles (op : LogicOp) {steps : Nat} {l r : Run Bool}
    {left right : Except Failure Bool} (hl : l.Settles steps left) (hr : r.Settles steps right) :
    (lazily op l r).Settles steps (answer (combine op left right)) := by
  refine hl.recover (fun e he => by simp [he]) ?_
  cases left with
  | ok b =>
      rcases eq_decisive_or op b with rfl | rfl
      · simpa [combine] using Run.Settles.pure _
      · rw [combine_indecisive]
        simp only [Bool.not_eq_eq_eq_not, Bool.eq_not_self, if_false]
        cases right with
        | ok b' => exact hr.bind (.pure _)
        | error e => exact hr.bind_error _
  | error e =>
      simp only
      split
      · rename_i hresource
        exact .exhausted hresource _
      · refine hr.recover (Simulation.rethrows_lazily_inner op e) ?_
        cases right with
        | ok b =>
            rcases eq_decisive_or op b with rfl | rfl
            · simpa [combine] using Run.Settles.pure _
            · rw [combine_error (by simp)]
              simpa using Run.Settles.throw e
        | error e' =>
            simp only
            split
            · rename_i hresource
              exact .exhausted hresource _
            · exact .throw e

/-- A lazy operator combines what its operands give. -/
theorem outcome_logic (p : Point) (op : LogicOp) (s : Span) (l r : Expr)
    (hclear : ¬ Exhausted (p.outcome (.logic s op l r))) :
    p.outcome (.logic s op l r) =
      answer (combine op (p.truth op.operandName l) (p.truth op.operandName r)) := by
  rw [Point.outcome, eval] at hclear ⊢
  have hlazily := lazily_settles op (p.truth_settles op.operandName l)
    (p.truth_settles op.operandName r)
  exact hlazily.nested.eq_outcome hclear

/-! ### Quantifiers -/

/-- The quantifier that chains the items with an operator. -/
def quantifier : LogicOp → IterationKind
  | .and => .all
  | .or => .exists

/-- The outcomes of items chained by an operator from the right, ended by the answer that
decides nothing. -/
def chained (op : LogicOp) (instances : List (Except Failure Bool)) : Except Failure Bool :=
  instances.foldr (combine op) (.ok !op.decisive)

section Chained

variable {op : LogicOp} {instances : List (Except Failure Bool)}

theorem chained_eq_decisive_iff :
    chained op instances = .ok op.decisive ↔ .ok op.decisive ∈ instances := by
  induction instances with
  | nil => simp [chained]
  | cons first rest ih =>
      rw [chained] at ih
      rw [chained, List.foldr_cons, combine_eq_decisive_iff, ih, List.mem_cons, eq_comm]

theorem chained_eq_indecisive_iff :
    chained op instances = .ok (!op.decisive) ↔
      ∀ o ∈ instances, o = .ok (!op.decisive) := by
  induction instances with
  | nil => simp [chained]
  | cons first rest ih =>
      rw [chained] at ih
      rw [chained, List.foldr_cons, combine_eq_indecisive_iff, ih, List.forall_mem_cons]

/-- Whether a chain gives a result, and which, does not depend on the order. -/
theorem chained_eq_ok_of_perm {instances' : List (Except Failure Bool)}
    (hperm : instances.Perm instances') {b : Bool} (h : chained op instances = .ok b) :
    chained op instances' = .ok b := by
  rcases eq_decisive_or op b with rfl | rfl
  · rw [chained_eq_decisive_iff] at h ⊢
    exact hperm.mem_iff.mp h
  · rw [chained_eq_indecisive_iff] at h ⊢
    exact fun o ho => h o (hperm.mem_iff.mpr ho)

end Chained

/-- The loop of a quantifier with the error in hand, if there is one. -/
theorem anyDecisive_settles (op : LogicOp) {steps : Nat} {step : Run Unit}
    {test : Value → Run Bool} {gives : Value → Except Failure Bool}
    (hstep : step.Settles steps (.ok ()))
    (htest : ∀ item, (test item).Settles steps (gives item)) (deferred : Option Failure)
    (items : List Value) :
    (anyDecisive step op.decisive test deferred items).Settles steps
      (deferred.elim (chained op (items.map gives))
        fun e => combine op (.error e) (chained op (items.map gives))) := by
  induction items generalizing deferred with
  | nil =>
      cases deferred with
      | none => exact .pure _
      | some e =>
          have hfirst : combine op (.error e) (chained op []) = .error e :=
            combine_error (by simp [chained])
          rw [Option.elim_some, List.map_nil, hfirst]
          exact .throw e
  | cons item rest ih =>
      refine hstep.bind ((htest item).recover (fun e he => by simp [he]) ?_)
      rw [List.map_cons, chained, List.foldr_cons, ← chained]
      cases gives item with
      | ok b =>
          rcases eq_decisive_or op b with rfl | rfl
          · -- the decisive answer prevails over an error in hand
            have hprevails : ∀ e, combine op (.error e)
                (combine op (.ok op.decisive) (chained op (rest.map gives))) =
                  .ok op.decisive := fun e =>
              combine_eq_decisive_iff.mpr (.inr (combine_eq_decisive_iff.mpr (.inl rfl)))
            cases deferred with
            | none => simpa [combine] using Run.Settles.pure _
            | some e => simpa [hprevails e] using Run.Settles.pure _
          · rw [combine_indecisive]
            simpa using ih deferred
      | error e =>
          simp only
          split
          · rename_i hresource
            exact .exhausted hresource _
          · -- of two errors the earlier one is kept
            have hrest := ih (some (deferred.getD e))
            cases deferred with
            | none => exact hrest
            | some first =>
                rw [Option.elim_some, combine_error_error]
                exact hrest

/-- What the body of an iteration gives for the items. -/
def Point.instances (p : Point) (kind : IterationKind) (var : String) (body : Expr)
    (items : List Value) : List (Except Failure Bool) :=
  items.map fun item => (p.under var item).truth kind.name body

/-- A quantifier chains what its test is known to give for the items. -/
theorem quantified_settles (op : LogicOp) {steps : Nat} {step : Run Unit}
    {test : Value → Run Bool} {gives : Value → Except Failure Bool}
    (hstep : step.Settles steps (.ok ())) (htest : ∀ item, (test item).Settles steps (gives item))
    (filter : Option (Value → Run Bool)) (image : Value → Run Value) (items : List Value) :
    (iterateOver (quantifier op) step filter image test items).Settles steps
      (answer (chained op (items.map gives))) := by
  have hloop := anyDecisive_settles op hstep htest none items
  cases op with
  | and | or =>
      rw [Option.elim_none] at hloop
      cases hchained : chained _ (items.map _) with
      | ok b => rw [hchained] at hloop; exact hloop.bind (.pure _)
      | error e => rw [hchained] at hloop; exact hloop.bind_error _

theorem iterateOver_settles (p : Point) (op : LogicOp) (var : String) (body : Expr)
    (filter : Option (Value → Run Bool)) (image : Value → Run Value) (items : List Value) :
    (iterateOver (quantifier op) (Run.tick p.env.limits body.span) filter image
      (fun item => do
        let value ← eval p.env ((var, item) :: p.scope) (p.depth + 1) body
        asBool (quantifier op).name body.span value)
      items).Settles p.steps
        (answer (chained op (p.instances (quantifier op) var body items))) :=
  quantified_settles op (Run.Settles.tick p.env.limits body.span)
    (fun item => (p.under var item).truth_settles (quantifier op).name body) filter image items

/-- A quantifier chains what its body gives for the items. -/
theorem outcome_quantifier (p : Point) (op : LogicOp) (s : Span) (range : Expr) (var : String)
    (filter : Option Expr) (body : Expr) {value : Value} {items : List Value}
    (hrange : p.outcome range = .ok value) (hitems : value.elements? = some items)
    (hclear : ¬ Exhausted (p.outcome (.iterate s (quantifier op) range var filter body))) :
    p.outcome (.iterate s (quantifier op) range var filter body) =
      answer (chained op (p.instances (quantifier op) var body items)) := by
  have hvalue := p.eval_settles range
  rw [hrange] at hvalue
  have hrangeItems : (rangeItems (quantifier op) range.span value).Settles p.steps (.ok items) := by
    cases value <;> try cases hitems
    all_goals exact .pure _
  cases filter <;>
  · rw [Point.outcome, eval] at hclear ⊢
    exact (hvalue.bind (hrangeItems.bind
      (iterateOver_settles p op var body _ _ items))).nested.eq_outcome hclear

/-! ### The rule of the language -/

/-- A lazy operator has the decisive answer if either operand has, the other answer if both
have it, and otherwise the error of the first operand that fails; a result does not depend on
the order of the operands.  A quantifier chains its items with the operator from the right, so
that a result does not depend on the order of the range either. -/
theorem logic_absorbs_errors (p : Point) (op : LogicOp) :
    (∀ (s : Span) (l r : Expr), ¬ Exhausted (p.outcome (.logic s op l r)) →
      (p.outcome (.logic s op l r) = .ok (.bool op.decisive) ↔
        p.outcome l = .ok (.bool op.decisive) ∨ p.outcome r = .ok (.bool op.decisive)) ∧
      (p.outcome (.logic s op l r) = .ok (.bool !op.decisive) ↔
        p.outcome l = .ok (.bool !op.decisive) ∧ p.outcome r = .ok (.bool !op.decisive)) ∧
      (∀ e, p.truth op.operandName l = .error e → p.outcome r ≠ .ok (.bool op.decisive) →
        p.outcome (.logic s op l r) = .error e) ∧
      (∀ e, p.outcome l = .ok (.bool !op.decisive) → p.truth op.operandName r = .error e →
        p.outcome (.logic s op l r) = .error e) ∧
      (∀ (s' : Span) (v : Value), ¬ Exhausted (p.outcome (.logic s' op r l)) →
        p.outcome (.logic s op l r) = .ok v → p.outcome (.logic s' op r l) = .ok v)) ∧
    (∀ (s : Span) (range : Expr) (var : String) (filter : Option Expr) (body : Expr)
      (value : Value) (items : List Value),
      p.outcome range = .ok value → value.elements? = some items →
      ¬ Exhausted (p.outcome (.iterate s (quantifier op) range var filter body)) →
      p.outcome (.iterate s (quantifier op) range var filter body) =
        answer (chained op (p.instances (quantifier op) var body items)) ∧
      ∀ (s' : Span) (range' : Expr) (value' : Value) (items' : List Value) (v : Value),
        p.outcome range' = .ok value' → value'.elements? = some items' → items.Perm items' →
        ¬ Exhausted (p.outcome (.iterate s' (quantifier op) range' var filter body)) →
        p.outcome (.iterate s (quantifier op) range var filter body) = .ok v →
        p.outcome (.iterate s' (quantifier op) range' var filter body) = .ok v) := by
  constructor
  · intro s l r hclear
    have hlogic := outcome_logic p op s l r hclear
    refine ⟨?decisive, ?indecisive, ?first, ?second, ?swapped⟩
    case decisive =>
      rw [hlogic, answer_eq_ok_iff, combine_eq_decisive_iff, Point.truth, Point.truth,
        asTruth_eq_ok_iff, asTruth_eq_ok_iff]
    case indecisive =>
      rw [hlogic, answer_eq_ok_iff, combine_eq_indecisive_iff, Point.truth, Point.truth,
        asTruth_eq_ok_iff, asTruth_eq_ok_iff]
    case first =>
      intro e hl hr
      have hright : p.truth op.operandName r ≠ .ok op.decisive := fun h =>
        hr (asTruth_eq_ok_iff.mp h)
      rw [hlogic, hl, combine_error hright, answer_error]
    case second =>
      intro e hl hr
      have hleft : p.truth op.operandName l = .ok !op.decisive := asTruth_eq_ok_iff.mpr hl
      rw [hlogic, hleft, combine_indecisive, hr, answer_error]
    case swapped =>
      intro s' v hclear' hv
      rw [hlogic] at hv
      obtain ⟨b, rfl, hb⟩ := exists_of_answer_eq_ok hv
      rw [outcome_logic p op s' r l hclear', combine_comm_of_eq_ok hb, answer_ok]
  · intro s range var filter body value items hrange hitems hclear
    have hquantifier := outcome_quantifier p op s range var filter body hrange hitems hclear
    refine ⟨hquantifier, ?_⟩
    intro s' range' value' items' v hrange' hitems' hperm hclear' hv
    rw [hquantifier] at hv
    obtain ⟨b, rfl, hb⟩ := exists_of_answer_eq_ok hv
    have hinstances : (p.instances (quantifier op) var body items).Perm
        (p.instances (quantifier op) var body items') := hperm.map _
    rw [outcome_quantifier p op s' range' var filter body hrange' hitems' hclear',
      chained_eq_ok_of_perm hinstances hb, answer_ok]

theorem not_exhausted_of_ok {α : Type} {outcome : Except Failure α} {a : α}
    (h : outcome = .ok a) : ¬ Exhausted outcome := by
  rw [h]
  exact nofun

/-- `1 / x > 1`, which has no value where `x` is zero and is false where it is one. -/
private def reciprocalExceedsOne : Expr :=
  let at0 : Span := ⟨0, 0⟩
  .relation at0 .gt
    (.arith at0 .div (.literal at0 (.int 1)) (.ident at0 "x")) (.literal at0 (.int 1))

/-- The division by zero is passed over on either side of an `&&` with `false`, and in an `all`
whether it comes before the item that decides or after it. -/
theorem logic_absorbs_division_by_zero :
    let at0 : Span := ⟨0, 0⟩
    let p := (Point.start .empty .default).under "x" (.int 0)
    let never : Expr := .literal at0 (.bool false)
    let list (i j : Int64) : Expr := .list at0 [.literal at0 (.int i), .literal at0 (.int j)]
    p.outcome (.logic at0 .and reciprocalExceedsOne never) = .ok (.bool false) ∧
      p.outcome (.logic at0 .and never reciprocalExceedsOne) = .ok (.bool false) ∧
      p.outcome (.iterate at0 .all (list 0 1) "x" none reciprocalExceedsOne) =
        .ok (.bool false) ∧
      p.outcome (.iterate at0 .all (list 1 0) "x" none reciprocalExceedsOne) =
        .ok (.bool false) := by
  intro at0 p never list
  obtain ⟨hlogic, hall⟩ := logic_absorbs_errors p .and
  have hfailing : p.outcome (.logic at0 .and reciprocalExceedsOne never) = .ok (.bool false) := rfl
  have hfirst : p.outcome (.logic at0 .and never reciprocalExceedsOne) = .ok (.bool false) := rfl
  have hafter : p.outcome (.iterate at0 .all (list 0 1) "x" none reciprocalExceedsOne) =
      .ok (.bool false) := rfl
  have hbefore : p.outcome (.iterate at0 .all (list 1 0) "x" none reciprocalExceedsOne) =
      .ok (.bool false) := rfl
  obtain ⟨-, -, -, -, hswapped⟩ := hlogic at0 reciprocalExceedsOne never
    (not_exhausted_of_ok hfailing)
  obtain ⟨-, hpermuted⟩ := hall at0 (list 0 1) "x" none reciprocalExceedsOne
    (.list [.int 0, .int 1]) [.int 0, .int 1] rfl rfl (not_exhausted_of_ok hafter)
  exact ⟨hfailing, hswapped at0 _ (not_exhausted_of_ok hfirst) hfailing, hafter,
    hpermuted at0 (list 1 0) (.list [.int 1, .int 0]) [.int 1, .int 0] _ rfl rfl
      (.swap _ _ _) (not_exhausted_of_ok hbefore) hafter⟩

end EmbeddedExpr.Eval
