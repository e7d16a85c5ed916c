import EmbeddedExpr.Proofs.Eval.Logic
import EmbeddedExpr.Proofs.Eval.Preservation
import Mathlib.Data.List.Forall2

/-!
# Laws of comprehensions

A comprehension goes through the items of its range, which are those of a list or the keys of a map
(`Point.Ranges`).  The loops of `filter`, `map` and `exists_one` end with the first error: all three
are `collect`, which succeeds just if the test decides on every item and the items that pass have
images (`collect_eq_ok_iff`).  The quantifiers absorb errors; `Logic` says how they chain what their
test gives.

What the loops settle on is said of the outcomes of tests and bodies where the comprehension stands,
not where they are evaluated, which is deeper and later.  So the same outcomes appear on both sides
of a law, although the one side nests what the other one does not (`comprehension_laws`).  That the
keys of a map are gone through in ascending order is kept by evaluation (`Preservation`).
-/

namespace EmbeddedExpr.Eval

/-! ### Loops that end with the first error -/

/-- The images of the items that pass a test, or the first error. -/
def collect (test : Value → Except Failure Bool) (image : Value → Except Failure Value) :
    List Value → Except Failure (List Value)
  | [] => .ok []
  | item :: rest => do
    let selected ← test item
    if selected then
      let value ← image item
      let more ← collect test image rest
      .ok (value :: more)
    else collect test image rest

/-- The test lets an item pass. -/
def passes : Except Failure Bool → Bool
  | .ok b => b
  | .error _ => false

theorem bind_eq_ok_iff {α β : Type} {outcome : Except Failure α} {next : α → Except Failure β}
    {b : β} : (outcome >>= next) = .ok b ↔ ∃ a, outcome = .ok a ∧ next a = .ok b := by
  cases outcome <;> simp [bind, Except.bind]

section Collect

variable {test : Value → Except Failure Bool} {image : Value → Except Failure Value}
  {items values : List Value}

/-- The loop succeeds just if the test decides on every item and those that pass have images. -/
theorem collect_eq_ok_iff :
    collect test image items = .ok values ↔
      (∀ item ∈ items, ∃ b, test item = .ok b) ∧
        List.Forall₂ (fun item value => image item = .ok value)
          (items.filter fun item => passes (test item)) values := by
  induction items generalizing values with
  | nil => simp [collect, eq_comm]
  | cons item rest ih =>
      rw [collect, bind_eq_ok_iff, List.forall_mem_cons, List.filter_cons]
      rcases htest : test item with e | _ | _
      case error => simp
      case ok.false => simpa [passes] using ih
      case ok.true =>
          simp only [Except.ok.injEq, exists_eq_left', if_true, bind_eq_ok_iff, ih, passes,
            exists_eq', true_and, List.forall₂_cons_left_iff]
          constructor
          · rintro ⟨value, himage, more, ⟨hdecides, hall⟩, rfl⟩
            exact ⟨hdecides, value, more, himage, hall, rfl⟩
          · rintro ⟨hdecides, value, more, himage, hall, rfl⟩
            exact ⟨value, himage, more, ⟨hdecides, hall⟩, rfl⟩

variable {steps : Nat} {step : Run Unit}

theorem images_settles (testRun : Option (Value → Run Bool)) {imageRun : Value → Run Value}
    (hstep : step.Settles steps (.ok ()))
    (htest : ∀ item, (testRun.elim (pure true) fun run => run item).Settles steps (test item))
    (himage : ∀ item, (imageRun item).Settles steps (image item)) (items : List Value) :
    (images step testRun imageRun items).Settles steps (collect test image items) := by
  induction items with
  | nil => exact .pure _
  | cons item rest ih =>
      have hunfold : images step testRun imageRun (item :: rest) = (do
          step
          let selected ← testRun.elim (pure true) fun run => run item
          if selected then
            let value ← imageRun item
            let more ← images step testRun imageRun rest
            pure (value :: more)
          else images step testRun imageRun rest) := by
        cases testRun <;> rfl
      rw [hunfold, collect]
      refine hstep.bind ((htest item).andThen fun selected _ => ?_)
      cases selected with
      | false => exact ih
      | true => exact (himage item).andThen fun value _ => ih.andThen fun more _ => .pure _

theorem passing_settles {testRun : Value → Run Bool} (hstep : step.Settles steps (.ok ()))
    (htest : ∀ item, (testRun item).Settles steps (test item)) (items : List Value) :
    (passing step testRun items).Settles steps (collect test .ok items) := by
  induction items with
  | nil => exact .pure _
  | cons item rest ih =>
      rw [passing, collect]
      refine hstep.bind ((htest item).andThen fun selected _ => ?_)
      cases selected with
      | false =>
          have hrest := ih.andThen fun more _ => Run.Settles.pure more
          have hsame : (collect test .ok rest >>= Except.ok) = collect test .ok rest := bind_pure _
          rwa [hsame] at hrest
      | true => exact ih.andThen fun more _ => .pure _

end Collect

/-! ### Comprehensions at a point -/

/-- The comprehension that keeps the items of a range which pass a test. -/
def selection (s : Span) (range : Expr) (var : String) (test : Expr) : Expr :=
  .iterate s .filter range var none test

/-- A value as a range: its items, or the error that it has none. -/
def asRange (kind : IterationKind) (span : Span) (value : Value) :
    Except Failure (List Value) :=
  value.elements?.elim (.error ⟨.noOverloadFor kind.name [value], span⟩) .ok

theorem asRange_eq_ok_iff {kind : IterationKind} {span : Span} {value : Value}
    {items : List Value} :
    asRange kind span value = .ok items ↔ value.elements? = some items := by
  rw [asRange]
  cases value.elements? <;> simp

theorem rangeItems_settles (kind : IterationKind) (span : Span) (steps : Nat) (value : Value) :
    (rangeItems kind span value).Settles steps (asRange kind span value) := by
  cases value with
  | list items => exact .pure items
  | map entries => exact .pure _
  | _ => exact .throw _

namespace Point

/-- The range of a comprehension has the items. -/
def Ranges (p : Point) (range : Expr) (items : List Value) : Prop :=
  ∃ value, p.outcome range = .ok value ∧ value.elements? = some items

/-- The expression is true at the point. -/
def holds (p : Point) (e : Expr) : Bool :=
  match p.outcome e with
  | .ok (.bool b) => b
  | _ => false

/-- A test is either true or false of each item. -/
def Decides (p : Point) (var : String) (test : Expr) (items : List Value) : Prop :=
  ∀ item ∈ items, ∃ b, (p.under var item).outcome test = .ok (.bool b)

/-- The items of which a test is true. -/
def kept (p : Point) (var : String) (test : Expr) (items : List Value) : List Value :=
  items.filter fun item => (p.under var item).holds test

theorem passes_truth (p : Point) (operation : String) (e : Expr) :
    passes (p.truth operation e) = p.holds e := by
  rw [truth, holds]
  rcases p.outcome e with failure | v
  · rfl
  · cases v <;> rfl

theorem truth_eq_ok_iff {p : Point} {operation : String} {e : Expr} {b : Bool} :
    p.truth operation e = .ok b ↔ p.outcome e = .ok (.bool b) :=
  asTruth_eq_ok_iff

variable {p : Point} {s : Span} {range : Expr} {var : String} {items : List Value}

theorem collect_truth_eq_ok_iff {operation : String} {test : Expr}
    {image : Value → Except Failure Value} {values : List Value} :
    collect (fun item => (p.under var item).truth operation test) image items = .ok values ↔
      p.Decides var test items ∧
        List.Forall₂ (fun item value => image item = .ok value) (p.kept var test items) values := by
  simp only [collect_eq_ok_iff, truth_eq_ok_iff, passes_truth, Decides, kept]

theorem Ranges.unique {items' : List Value} (h : p.Ranges range items)
    (h' : p.Ranges range items') : items = items' := by
  obtain ⟨value, hvalue, hitems⟩ := h
  obtain ⟨value', hvalue', hitems'⟩ := h'
  rw [hvalue] at hvalue'
  cases hvalue'
  rw [hitems] at hitems'
  exact Option.some.inj hitems'

/-- A comprehension has a value just if its range has items on which the loop ends with it. -/
theorem outcome_iterate_eq_ok_iff {kind : IterationKind} {filter : Option Expr} {body : Expr}
    {result : List Value → Except Failure Value} {v : Value}
    (hloop : ∀ items, (iterateOver kind (Run.tick p.env.limits body.span)
      (filter.map fun test item => do
        let value ← eval p.env ((var, item) :: p.scope) (p.depth + 1) test
        asBool kind.name test.span value)
      (fun item => eval p.env ((var, item) :: p.scope) (p.depth + 1) body)
      (fun item => do
        let value ← eval p.env ((var, item) :: p.scope) (p.depth + 1) body
        asBool kind.name body.span value)
      items).Settles p.steps (result items))
    (hclear : ¬ Exhausted (p.outcome (.iterate s kind range var filter body))) :
    p.outcome (.iterate s kind range var filter body) = .ok v ↔
      ∃ items, p.Ranges range items ∧ result items = .ok v := by
  have hsettled : p.outcome (.iterate s kind range var filter body) = (do
      let value ← p.outcome range
      let items ← asRange kind range.span value
      result items) := by
    cases filter <;>
    · rw [outcome, eval] at hclear ⊢
      exact ((p.eval_settles range).andThen fun value _ =>
        (rangeItems_settles kind range.span p.steps value).andThen fun items _ =>
          hloop items).nested.eq_outcome hclear
  simp only [hsettled, bind_eq_ok_iff, asRange_eq_ok_iff, Ranges]
  constructor
  · rintro ⟨value, hvalue, items, hitems, hresult⟩
    exact ⟨items, ⟨value, hvalue, hitems⟩, hresult⟩
  · rintro ⟨items, ⟨value, hvalue, hitems⟩, hresult⟩
    exact ⟨value, hvalue, items, hitems, hresult⟩

theorem not_exhausted_range {kind : IterationKind} {filter : Option Expr} {body : Expr}
    (hclear : ¬ Exhausted (p.outcome (.iterate s kind range var filter body))) :
    ¬ Exhausted (p.outcome range) := by
  rintro ⟨e, he, hresource⟩
  have hrange := p.eval_settles range
  rw [he] at hrange
  have hwhole : p.outcome (.iterate s kind range var filter body) = .error e := by
    cases filter <;>
    · rw [outcome, eval] at hclear ⊢
      exact (hrange.bind_error _).nested.eq_outcome hclear
  exact hclear ⟨e, hwhole, hresource⟩

section FailFast

variable {test : Expr} {v : Value}

/-- The items of which the test is true, where it decides on all of them. -/
theorem outcome_selection_eq_ok_iff
    (hclear : ¬ Exhausted (p.outcome (selection s range var test))) :
    p.outcome (selection s range var test) = .ok v ↔
      ∃ items, p.Ranges range items ∧ p.Decides var test items ∧
        v = .list (p.kept var test items) := by
  rw [selection] at hclear ⊢
  have hloop := fun items : List Value =>
    (passing_settles (.tick p.env.limits test.span)
      (fun item => (p.under var item).truth_settles "filter" test) items).andThen
      fun kept _ => Run.Settles.pure (Value.list kept)
  rw [outcome_iterate_eq_ok_iff hloop hclear]
  simp only [bind_eq_ok_iff, collect_truth_eq_ok_iff, Except.ok.injEq, List.forall₂_eq_eq_eq]
  constructor
  · rintro ⟨items, hranges, _, ⟨hdecides, rfl⟩, rfl⟩
    exact ⟨items, hranges, hdecides, rfl⟩
  · rintro ⟨items, hranges, hdecides, rfl⟩
    exact ⟨items, hranges, _, ⟨hdecides, rfl⟩, rfl⟩

/-- Whether the test is true of exactly one item, where it decides on all of them. -/
theorem outcome_existsOne_eq_ok_iff
    (hclear : ¬ Exhausted (p.outcome (.iterate s .existsOne range var none test))) :
    p.outcome (.iterate s .existsOne range var none test) = .ok v ↔
      ∃ items, p.Ranges range items ∧ p.Decides var test items ∧
        v = .bool ((p.kept var test items).length == 1) := by
  have hloop := fun items : List Value =>
    (passing_settles (.tick p.env.limits test.span)
      (fun item => (p.under var item).truth_settles "exists_one" test) items).andThen
      fun kept _ => Run.Settles.pure (Value.bool (kept.length == 1))
  rw [outcome_iterate_eq_ok_iff hloop hclear]
  simp only [bind_eq_ok_iff, collect_truth_eq_ok_iff, Except.ok.injEq, List.forall₂_eq_eq_eq]
  constructor
  · rintro ⟨items, hranges, _, ⟨hdecides, rfl⟩, rfl⟩
    exact ⟨items, hranges, hdecides, rfl⟩
  · rintro ⟨items, hranges, hdecides, rfl⟩
    exact ⟨items, hranges, _, ⟨hdecides, rfl⟩, rfl⟩

/-- The body has the values for the items, one after the other. -/
def Images (p : Point) (var : String) (body : Expr) (items values : List Value) : Prop :=
  List.Forall₂ (fun item value => (p.under var item).outcome body = .ok value) items values

/-- The values of the body for all items. -/
theorem outcome_map_eq_ok_iff {body : Expr}
    (hclear : ¬ Exhausted (p.outcome (.iterate s .map range var none body))) :
    p.outcome (.iterate s .map range var none body) = .ok v ↔
      ∃ items values, p.Ranges range items ∧ p.Images var body items values ∧
        v = .list values := by
  have hloop := fun items : List Value =>
    (images_settles none (.tick p.env.limits body.span)
      (fun _ => Run.Settles.pure true)
      (fun item => (p.under var item).eval_settles body) items).andThen
      fun values _ => Run.Settles.pure (Value.list values)
  rw [outcome_iterate_eq_ok_iff hloop hclear]
  simp only [bind_eq_ok_iff, collect_eq_ok_iff, passes, List.filter_true, Except.ok.injEq,
    exists_eq', implies_true, true_and, Images]
  constructor
  · rintro ⟨items, hranges, values, himages, rfl⟩
    exact ⟨items, values, hranges, himages, rfl⟩
  · rintro ⟨items, values, hranges, himages, rfl⟩
    exact ⟨items, hranges, values, himages, rfl⟩

/-- The values of the body for the items of which the test is true. -/
theorem outcome_map_where_eq_ok_iff {body : Expr}
    (hclear : ¬ Exhausted (p.outcome (.iterate s .map range var (some test) body))) :
    p.outcome (.iterate s .map range var (some test) body) = .ok v ↔
      ∃ items values, p.Ranges range items ∧ p.Decides var test items ∧
        p.Images var body (p.kept var test items) values ∧ v = .list values := by
  have hloop := fun items : List Value =>
    (images_settles (some _) (.tick p.env.limits body.span)
      (fun item => (p.under var item).truth_settles "map" test)
      (fun item => (p.under var item).eval_settles body) items).andThen
      fun values _ => Run.Settles.pure (Value.list values)
  rw [outcome_iterate_eq_ok_iff hloop hclear]
  simp only [bind_eq_ok_iff, collect_truth_eq_ok_iff, Except.ok.injEq]
  constructor
  · rintro ⟨items, hranges, values, ⟨hdecides, himages⟩, rfl⟩
    exact ⟨items, values, hranges, hdecides, himages, rfl⟩
  · rintro ⟨items, values, hranges, hdecides, himages, rfl⟩
    exact ⟨items, hranges, values, ⟨hdecides, himages⟩, rfl⟩

end FailFast

/-! ### Quantifiers over a negated test -/

/-- The outcome of a test denied by `!`. -/
def denial (p : Point) (s : Span) (test : Expr) : Except Failure Bool :=
  match p.outcome test with
  | .ok (.bool b) => .ok !b
  | .ok value => .error ⟨.noOverloadFor UnaryOp.not.symbol [value], s⟩
  | .error e => .error e

theorem denial_eq_ok_iff {test : Expr} {b : Bool} :
    p.denial s test = .ok b ↔ p.outcome test = .ok (.bool !b) := by
  rw [denial]
  rcases p.outcome test with e | v
  · simp
  · cases v <;> simp [Bool.not_eq_eq_eq_not]

/-- A denied test stands one level deeper than the test and has the opposite answer. -/
theorem denial_settles (p : Point) (operation : String) (s : Span) (test : Expr) :
    (do
      let value ← eval p.env p.scope (p.depth + 1) (.unary s .not test)
      asBool operation s value).Settles p.steps (p.denial s test) := by
  have h := p.eval_settles_deeper 2 test
  rw [denial, eval]
  rcases houtcome : p.outcome test with e | v
  · rw [houtcome] at h
    exact (h.bind_error _).nested.bind_error _
  · rw [houtcome] at h
    cases v with
    | bool b =>
        have hvalue : (Run.lift s (applyUnary .not (.bool b))).Settles p.steps (.ok (.bool !b)) :=
          .pure _
        exact (h.bind hvalue).nested.bind (Run.Settles.pure !b)
    | _ => exact (h.bind (.throw _)).nested.bind_error _

end Point

/-- Where each item has the opposite answers, so have the chains of the two operators. -/
theorem chained_dual {op op' : LogicOp} (hop : op'.decisive = !op.decisive)
    {gives gives' : Value → Except Failure Bool}
    (hdual : ∀ item b, gives item = .ok b ↔ gives' item = .ok !b) (items : List Value)
    (b : Bool) :
    chained op (items.map gives) = .ok b ↔ chained op' (items.map gives') = .ok !b := by
  rcases eq_decisive_or op b with rfl | rfl
  · simp only [chained_eq_decisive_iff, ← hop, List.mem_map, hdual]
  · have hindecisive : (!!op.decisive) = !op'.decisive := congrArg _ hop.symm
    rw [hindecisive]
    simp only [chained_eq_indecisive_iff, List.forall_mem_map, hdual, hindecisive]

/-- A quantifier has a result just if the other quantifier has the opposite one for the denied
test. -/
theorem outcome_quantifier_dual {p : Point} (op op' : LogicOp) (hop : op'.decisive = !op.decisive)
    {s s' n : Span} {range : Expr} {var : String} {test : Expr} {b : Bool}
    (hclear : ¬ Exhausted (p.outcome (.iterate s (quantifier op) range var none test)))
    (hclear' : ¬ Exhausted (p.outcome
      (.iterate s' (quantifier op') range var none (.unary n .not test)))) :
    p.outcome (.iterate s (quantifier op) range var none test) = .ok (.bool b) ↔
      p.outcome (.iterate s' (quantifier op') range var none (.unary n .not test)) =
        .ok (.bool !b) := by
  have hloop' := quantified_settles op' (Run.Settles.tick p.env.limits n)
    (fun item => (p.under var item).denial_settles (quantifier op').name n test)
    none (fun item => eval p.env ((var, item) :: p.scope) (p.depth + 1) (.unary n .not test))
  rw [Point.outcome_iterate_eq_ok_iff (iterateOver_settles p op var test none _) hclear,
    Point.outcome_iterate_eq_ok_iff hloop' hclear']
  have hopposite : ∀ item b, (p.under var item).truth (quantifier op).name test = .ok b ↔
      (p.under var item).denial n test = .ok !b := fun item b => by
    rw [Point.truth_eq_ok_iff, Point.denial_eq_ok_iff, Bool.not_not]
  simp only [answer_eq_ok_iff, Point.instances, chained_dual hop hopposite]

/-! ### The laws -/

section Laws

variable {p : Point} {s : Span} {range : Expr} {var : String} {test : Expr}

/-- A `map` with a test is the `map` of what the test selects. -/
theorem outcome_map_where_eq_ok_iff_selection {s₁ s₂ : Span} {image : Expr}
    (hclear : ¬ Exhausted (p.outcome (.iterate s₁ .map range var (some test) image)))
    (hclear' : ¬ Exhausted (p.outcome
      (.iterate s₂ .map (selection s range var test) var none image))) (v : Value) :
    p.outcome (.iterate s₁ .map range var (some test) image) = .ok v ↔
      p.outcome (.iterate s₂ .map (selection s range var test) var none image) = .ok v := by
  have hselection := fun selected => Point.outcome_selection_eq_ok_iff (v := selected)
    (Point.not_exhausted_range hclear')
  rw [Point.outcome_map_where_eq_ok_iff hclear, Point.outcome_map_eq_ok_iff hclear']
  constructor
  · rintro ⟨items, values, hranges, hdecides, himages, rfl⟩
    have hkept := (hselection _).mpr ⟨items, hranges, hdecides, rfl⟩
    exact ⟨_, values, ⟨_, hkept, rfl⟩, himages, rfl⟩
  · rintro ⟨kept, values, ⟨value, hvalue, hkept⟩, himages, rfl⟩
    obtain ⟨items, hranges, hdecides, rfl⟩ := (hselection value).mp hvalue
    cases hkept
    exact ⟨items, values, hranges, hdecides, himages, rfl⟩

/-- `exists_one` counts what is selected. -/
theorem outcome_existsOne_of_selection {s₁ : Span}
    (hclear : ¬ Exhausted (p.outcome (selection s range var test)))
    (hclear' : ¬ Exhausted (p.outcome (.iterate s₁ .existsOne range var none test))) {v : Value}
    (hv : p.outcome (selection s range var test) = .ok v) :
    ∃ kept, v = .list kept ∧
      p.outcome (.iterate s₁ .existsOne range var none test) = .ok (.bool (kept.length == 1)) := by
  obtain ⟨items, hranges, hdecides, rfl⟩ := (Point.outcome_selection_eq_ok_iff hclear).mp hv
  exact ⟨_, rfl, (Point.outcome_existsOne_eq_ok_iff hclear').mpr ⟨items, hranges, hdecides, rfl⟩⟩

/-- Where `exists_one` has an answer there is a selection. -/
theorem exists_selection_of_existsOne {s₁ : Span}
    (hclear : ¬ Exhausted (p.outcome (selection s range var test))) {v : Value}
    (hv : p.outcome (.iterate s₁ .existsOne range var none test) = .ok v) :
    ∃ selected, p.outcome (selection s range var test) = .ok selected := by
  obtain ⟨items, hranges, hdecides, -⟩ :=
    (Point.outcome_existsOne_eq_ok_iff (not_exhausted_of_ok hv)).mp hv
  exact ⟨_, (Point.outcome_selection_eq_ok_iff hclear).mpr ⟨items, hranges, hdecides, rfl⟩⟩

/-- What is selected of a map are keys of it, in their order. -/
theorem outcome_selection_of_map (hclear : ¬ Exhausted (p.outcome (selection s range var test)))
    {entries : List (MapKey × Value)} {v : Value} (hrange : p.outcome range = .ok (.map entries))
    (hp : p.WellFormed) (hv : p.outcome (selection s range var test) = .ok v) :
    ∃ keys : List MapKey,
      keys = (entries.map Prod.fst).filter (fun key => (p.under var key.toValue).holds test) ∧
      keys.Pairwise (fun j k => MapKey.cmp j k = .lt) ∧
      v = .list (keys.map MapKey.toValue) := by
  obtain ⟨items, hranges, -, rfl⟩ := (Point.outcome_selection_eq_ok_iff hclear).mp hv
  obtain rfl := hranges.unique ⟨_, hrange, rfl⟩
  have hkeys : (entries.map Prod.fst).Pairwise fun j k => MapKey.cmp j k = .lt :=
    List.pairwise_map.mpr (Point.wellFormed_of_outcome hp hrange).here
  refine ⟨_, rfl, hkeys.filter _, ?_⟩
  have hitems : (entries.map fun entry => entry.1.toValue) =
      (entries.map Prod.fst).map MapKey.toValue := by
    rw [List.map_map, Function.comp_def]
  rw [Point.kept, hitems, List.filter_map]
  rfl

end Laws

/-- Without an exhausted bound, `map` with a test is the `map` of what `filter` keeps; `exists_one`
has an answer just if `filter` has a value, and it is whether one item is kept; `exists` has an
answer just if `all` has the opposite one for the denied test; and `filter` keeps the items of
which the test is true, in their order, where the test is true or false of every item.  Of a map it
keeps keys, in ascending order. -/
theorem comprehension_laws (p : Point) (s : Span) (range : Expr) (var : String) (test : Expr) :
    (∀ (s₁ s₂ : Span) (image : Expr) (v : Value),
      ¬ Exhausted (p.outcome (.iterate s₁ .map range var (some test) image)) →
      ¬ Exhausted (p.outcome (.iterate s₂ .map (selection s range var test) var none image)) →
      (p.outcome (.iterate s₁ .map range var (some test) image) = .ok v ↔
        p.outcome (.iterate s₂ .map (selection s range var test) var none image) = .ok v)) ∧
    (∀ s₁ : Span,
      ¬ Exhausted (p.outcome (selection s range var test)) →
      ¬ Exhausted (p.outcome (.iterate s₁ .existsOne range var none test)) →
      ((∃ v, p.outcome (.iterate s₁ .existsOne range var none test) = .ok v) ↔
        ∃ v, p.outcome (selection s range var test) = .ok v) ∧
      ∀ v, p.outcome (selection s range var test) = .ok v → ∃ kept, v = .list kept ∧
        p.outcome (.iterate s₁ .existsOne range var none test) =
          .ok (.bool (kept.length == 1))) ∧
    (∀ (s₁ s₂ s₃ : Span) (b : Bool),
      ¬ Exhausted (p.outcome (.iterate s₁ .exists range var none test)) →
      ¬ Exhausted (p.outcome (.iterate s₂ .all range var none (.unary s₃ .not test))) →
      (p.outcome (.iterate s₁ .exists range var none test) = .ok (.bool b) ↔
        p.outcome (.iterate s₂ .all range var none (.unary s₃ .not test)) = .ok (.bool !b))) ∧
    (¬ Exhausted (p.outcome (selection s range var test)) → ∀ v : Value,
      (p.outcome (selection s range var test) = .ok v ↔ ∃ items, p.Ranges range items ∧
        p.Decides var test items ∧ v = .list (p.kept var test items)) ∧
      ∀ entries : List (MapKey × Value), p.WellFormed → p.outcome range = .ok (.map entries) →
        p.outcome (selection s range var test) = .ok v →
        ∃ keys : List MapKey,
          keys = (entries.map Prod.fst).filter (fun key =>
            (p.under var key.toValue).holds test) ∧
          keys.Pairwise (fun j k => MapKey.cmp j k = .lt) ∧
          v = .list (keys.map MapKey.toValue)) := by
  refine ⟨?mapped, ?one, ?dual, ?selected⟩
  case mapped =>
    exact fun s₁ s₂ image v hclear hclear' =>
      outcome_map_where_eq_ok_iff_selection hclear hclear' v
  case one =>
    refine fun s₁ hclear hclear' => ⟨⟨?_, ?_⟩, ?_⟩
    · rintro ⟨v, hv⟩
      exact exists_selection_of_existsOne hclear hv
    · rintro ⟨v, hv⟩
      obtain ⟨kept, -, hone⟩ := outcome_existsOne_of_selection hclear hclear' hv
      exact ⟨_, hone⟩
    · exact fun v hv => outcome_existsOne_of_selection hclear hclear' hv
  case dual =>
    exact fun s₁ s₂ s₃ b hclear hclear' => outcome_quantifier_dual .or .and rfl hclear hclear'
  case selected =>
    exact fun hclear v => ⟨Point.outcome_selection_eq_ok_iff hclear,
      fun entries hp hrange hv => outcome_selection_of_map hclear hrange hp hv⟩

/-- Of the keys of `{3: null, 1: null, 0: null}` the positive ones are kept, in ascending order. -/
theorem comprehension_laws_positive_keys :
    let at0 : Span := ⟨0, 0⟩
    let p := Point.start .empty .default
    let int (i : Int64) : Expr := .literal at0 (.int i)
    let x : Expr := .ident at0 "x"
    let range : Expr := .map at0 ([3, 1, 0].map fun i => (int i, .literal at0 .null))
    let positive : Expr := .relation at0 .gt x (int 0)
    let doubled : Expr := .arith at0 .mul x (int 2)
    (∃ keys : List MapKey, keys.Pairwise (fun j k => MapKey.cmp j k = .lt) ∧
        p.outcome (selection at0 range "x" positive) = .ok (.list (keys.map MapKey.toValue))) ∧
      p.outcome (.iterate at0 .map range "x" (some positive) doubled) =
        .ok (.list [.int 2, .int 6]) ∧
      p.outcome (.iterate at0 .existsOne range "x" none positive) = .ok (.bool false) ∧
      p.outcome (.iterate at0 .all range "x" none (.unary at0 .not positive)) =
        .ok (.bool false) := by
  intro at0 p int x range positive doubled
  obtain ⟨hmapped, hone, hdual, hselected⟩ := comprehension_laws p at0 range "x" positive
  have hselection : p.outcome (selection at0 range "x" positive) =
      .ok (.list [.int 1, .int 3]) := rfl
  have hmap : p.outcome (.iterate at0 .map (selection at0 range "x" positive) "x" none doubled) =
      .ok (.list [.int 2, .int 6]) := rfl
  have hwhere : p.outcome (.iterate at0 .map range "x" (some positive) doubled) =
      .ok (.list [.int 2, .int 6]) := rfl
  have hcount : p.outcome (.iterate at0 .existsOne range "x" none positive) =
      .ok (.bool false) := rfl
  have hany : p.outcome (.iterate at0 .exists range "x" none positive) = .ok (.bool true) := rfl
  have hevery : p.outcome (.iterate at0 .all range "x" none (.unary at0 .not positive)) =
      .ok (.bool false) := rfl
  have hp : p.WellFormed := ⟨Bindings.wellFormed_empty, List.forall_mem_nil _⟩
  refine ⟨?_, ?_, ?_, ?_⟩
  · obtain ⟨keys, -, hascending, hkeys⟩ :=
      (hselected (not_exhausted_of_ok hselection) _).2 _ hp rfl hselection
    exact ⟨keys, hascending, hkeys ▸ hselection⟩
  · exact (hmapped at0 at0 doubled _ (not_exhausted_of_ok hwhere)
      (not_exhausted_of_ok hmap)).mpr hmap
  · obtain ⟨-, hcounted⟩ := hone at0 (not_exhausted_of_ok hselection) (not_exhausted_of_ok hcount)
    obtain ⟨kept, hkept, hanswer⟩ := hcounted _ hselection
    cases hkept
    exact hanswer
  · exact (hdual at0 at0 at0 true (not_exhausted_of_ok hany) (not_exhausted_of_ok hevery)).mp hany

end EmbeddedExpr.Eval
