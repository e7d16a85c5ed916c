import EmbeddedExpr.Proofs.Grammar.Build
import EmbeddedExpr.Proofs.Syntax.Shape

/-!
# Phrases without their places

Only spans come from where a phrase stands in its source.  So what is built of a phrase without its
offsets (`Phrase.shape`) is what is built of the phrase, up to the spans in that: a tree of the same
shape, or a fault of the same kind (`Phrase.build_shape`).  Putting phrases together and every step
of building keep to this.
-/

namespace EmbeddedExpr

/-- The error with its span at the beginning of the source. -/
def ParseError.shape (e : ParseError) : ParseError := ⟨e.fault, ⟨0, 0⟩⟩

namespace Grammar

/-! ### Phrases -/

namespace Phrase

mutual

/-- The phrase with every offset at the beginning of the source. -/
def shape : Phrase → Phrase
  | atom _ token => atom ⟨0, 0⟩ token
  | group inner => group (shape inner)
  | list _ items => list ⟨0, 0⟩ (shapeItems items)
  | map _ entries => map ⟨0, 0⟩ (shapeEntries entries)
  | call _ function args => call ⟨0, 0⟩ function (shapeItems args)
  | sign _ op operand => sign 0 op (shape operand)
  | field target name _ => field (shape target) name 0
  | method target name args _ => method (shape target) name (shapeItems args) 0
  | index target position _ => index (shape target) (shape position) 0
  | infixed op left right => infixed op (shape left) (shape right)
  | choice condition whenTrue whenFalse =>
    choice (shape condition) (shape whenTrue) (shape whenFalse)

def shapeItems : List Phrase → List Phrase
  | [] => []
  | item :: rest => shape item :: shapeItems rest

def shapeEntries : List (Phrase × Phrase) → List (Phrase × Phrase)
  | [] => []
  | (key, value) :: rest => (shape key, shape value) :: shapeEntries rest

end

theorem shapeItems_eq_map (items : List Phrase) : shapeItems items = items.map shape := by
  induction items with
  | nil => rfl
  | cons item rest ih => rw [shapeItems, ih, List.map_cons]

theorem shapeEntries_eq_map (entries : List (Phrase × Phrase)) :
    shapeEntries entries = entries.map (Prod.map shape shape) := by
  induction entries with
  | nil => rfl
  | cons entry rest ih => rw [shapeEntries, ih, List.map_cons, Prod.map]

end Phrase

/-- The selection with every offset at the beginning of the source. -/
def Selection.shape : Selection → Selection
  | field name _ => field name 0
  | method name args _ => method name (args.map Phrase.shape) 0
  | index position _ => index position.shape 0

/-- The link with every offset at the beginning of the source. -/
def Link.shape : Link → Link
  | .op infixOp => .op infixOp
  | .choice whenTrue => .choice whenTrue.shape

namespace Phrase

theorem shape_select (target : Phrase) (selection : Selection) :
    (target.select selection).shape = target.shape.select selection.shape := by
  cases selection with
  | field | index => simp only [select, Selection.shape, shape]
  | method => simp only [select, Selection.shape, shape, shapeItems_eq_map]

theorem shape_foldl_select (base : Phrase) (selections : List Selection) :
    (selections.foldl select base).shape =
      (selections.map Selection.shape).foldl select base.shape := by
  induction selections generalizing base with
  | nil => rfl
  | cons selection rest ih => rw [List.foldl_cons, ih, shape_select, List.map_cons, List.foldl_cons]

theorem shape_signed (signs : List (Nat × UnaryOp)) (operand : Phrase) :
    (signed signs operand).shape = signed (signs.map fun s => (0, s.2)) operand.shape := by
  induction signs with
  | nil => rfl
  | cons sign rest ih =>
      simp only [signed, List.foldr_cons, List.map_cons, shape] at ih ⊢
      rw [ih]

theorem shape_attachOp (op : InfixOp) (right phrase : Phrase) :
    (attachOp op right phrase).shape = attachOp op right.shape phrase.shape := by
  fun_induction attachOp op right phrase with
  | case1 p left last hlevel ih => rw [shape, ih, shape, attachOp, if_pos hlevel]
  | case2 p left last hlevel => simp only [shape, attachOp, if_neg hlevel]
  | case3 c t f ih => rw [shape, ih, shape, attachOp]
  | case4 phrase hinfixed hchoice =>
      cases phrase with
      | infixed p left last => exact absurd rfl (hinfixed p left last)
      | choice c t f => exact absurd rfl (hchoice c t f)
      | _ => simp only [shape, attachOp]

theorem shape_attachChoice (whenTrue right phrase : Phrase) :
    (attachChoice whenTrue right phrase).shape =
      attachChoice whenTrue.shape right.shape phrase.shape := by
  fun_induction attachChoice whenTrue right phrase with
  | case1 c t f ih => rw [shape, ih, shape, attachChoice]
  | case2 phrase hchoice =>
      cases phrase with
      | choice c t f => exact absurd rfl (hchoice c t f)
      | _ => simp only [shape, attachChoice]

theorem shape_chain (first : Phrase) (links : List (Link × Phrase)) :
    (chain first links).shape = chain first.shape (links.map (Prod.map Link.shape shape)) := by
  induction links generalizing first with
  | nil => rfl
  | cons entry rest ih =>
      obtain ⟨link, right⟩ := entry
      have hattach :
          (attach first (link, right)).shape = attach first.shape (link.shape, right.shape) := by
        cases link with
        | op op => exact shape_attachOp op right first
        | choice whenTrue => exact shape_attachChoice whenTrue right first
      simp only [chain, List.foldl_cons, List.map_cons, Prod.map] at ih ⊢
      rw [ih, hattach]

end Phrase

/-! ### Building -/

section Results

variable {α β α' β' : Type} {view : α → α'} {view' : β → β'}

/-- A result without spans, as far as the view takes them off. -/
def shapeResult (view : α → α') : Except ParseError α → Except ParseError α'
  | .ok a => .ok (view a)
  | .error e => .error e.shape

theorem shapeResult_bind {result : Except ParseError α} {next : α → Except ParseError β}
    {further : Except ParseError α'} {next' : α' → Except ParseError β'}
    (h : shapeResult view result = further)
    (hnext : ∀ a, shapeResult view' (next a) = next' (view a)) :
    shapeResult view' (result >>= next) = further >>= next' := by
  subst h
  cases result with
  | error e => rfl
  | ok a => exact hnext a

theorem eq_ok_of_shapeResult {result : Except ParseError α} {b : α'}
    (h : shapeResult view result = .ok b) : ∃ a, result = .ok a ∧ view a = b := by
  cases result with
  | error e => cases h
  | ok a => exact ⟨a, rfl, Except.ok.inj h⟩

end Results

namespace Built

variable {bound : Nat}

/-- The built tree without its spans. -/
def shape (b : Built) : Built := ⟨b.expr.shape, b.height, b.minMagnitude⟩

@[simp] theorem shape_expr (b : Built) : b.shape.expr = b.expr.shape := rfl
@[simp] theorem shape_height (b : Built) : b.shape.height = b.height := rfl

theorem settle_shape (b : Built) : shapeResult shape b.settle = b.shape.settle := by
  obtain ⟨expr, height, minMagnitude⟩ := b
  cases minMagnitude with
  | none => rfl
  | some text => simp only [settle, shape, shapeResult, ParseError.shape, Expr.shape_span]

theorem settleAll_shape (bs : List Built) :
    shapeResult (List.map shape) (settleAll bs) = settleAll (bs.map shape) := by
  induction bs with
  | nil => rfl
  | cons b rest ih =>
      exact shapeResult_bind b.settle_shape fun first => shapeResult_bind ih fun others => rfl

theorem node_shape (expr : Expr) (below : Nat) :
    shapeResult shape (node bound expr below) = node bound expr.shape below := by
  unfold node
  split
  · simp only [shapeResult, ParseError.shape, Expr.shape_span]
  · rfl

theorem greatest_shape (bs : List Built) : greatest (bs.map shape) = greatest bs := by
  rw [greatest, List.map_map]
  rfl

theorem map_expr_shape (bs : List Built) :
    (bs.map shape).map expr = (bs.map expr).map Expr.shape := by
  rw [List.map_map, List.map_map]
  rfl

theorem ofToken_shape (span : Span) (token : Token) :
    shapeResult shape (ofToken span token) = ofToken ⟨0, 0⟩ token := by
  cases token with
  | null | bool | name => rfl
  | int hex digits text =>
      -- hidden from the kernel, which would compute with the bounds of words
      obtain ⟨word?, hword⟩ : ∃ word?, word? = Number.int64? := ⟨_, rfl⟩
      rw [ofToken, ofToken, ← hword]
      split
      · split
        · rfl
        · split <;> rfl
      · rfl
  | uint hex digits text =>
      rw [ofToken, ofToken]
      split <;> rfl
  | double text =>
      rw [ofToken, ofToken]
      split
      · split <;> rfl
      · rfl
  | text raw body | bytes raw body =>
      simp only [ofToken]
      split
      · rfl
      · split <;> rfl

theorem signed_shape (start : Nat) (op : UnaryOp) (operand : Built) :
    shapeResult shape (signed bound start op operand) = signed bound 0 op operand.shape := by
  by_cases hmin : op = .neg ∧ operand.minMagnitude.isSome
  · have hmin' : op = .neg ∧ operand.shape.minMagnitude.isSome := hmin
    simp only [signed, if_pos hmin, if_pos hmin', shape_expr, Expr.shape_span]
    rfl
  · have hmin' : ¬(op = .neg ∧ operand.shape.minMagnitude.isSome) := hmin
    simp only [signed, if_neg hmin, if_neg hmin']
    refine shapeResult_bind operand.settle_shape fun settled => ?_
    rw [node_shape, Expr.shape, shape_expr, Expr.shape_span, shape_expr, shape_height]

theorem infixExpr_shape (span : Span) (op : InfixOp) (left right : Expr) :
    (infixExpr span op left right).shape = infixExpr ⟨0, 0⟩ op left.shape right.shape := by
  cases op <;> rfl

/-- What `has` and the iterations look for in their arguments is there without spans. -/
theorem has_shape (span : Span) (args : List Expr) (below : Nat) :
    shapeResult shape (has bound span args below) =
      has bound ⟨0, 0⟩ (args.map Expr.shape) below := by
  unfold has
  match args with
  | [] => rfl
  | [arg] =>
    cases arg with
    | field _ target name => exact node_shape _ below
    | _ => rfl
  | arg :: _ :: _ => cases arg <;> rfl

theorem iteration_shape (span : Span) (kind : IterationKind) (range : Expr) (args : List Expr)
    (below : Nat) : shapeResult shape (iteration bound span kind range args below) =
      iteration bound ⟨0, 0⟩ kind range.shape (args.map Expr.shape) below := by
  unfold iteration
  match args with
  | [] => rfl
  | [_] => rfl
  | [var, body] =>
    cases var with
    | ident _ name => exact node_shape _ below
    | _ => rfl
  | [var, filter, body] =>
    by_cases hkind : kind = .map
    · simp only [List.map_cons, if_pos hkind]
      cases var with
      | ident _ name => exact node_shape _ below
      | _ => rfl
    · simp only [List.map_cons, if_neg hkind]
      rfl
  | _ :: _ :: _ :: _ :: _ => rfl

theorem call_shape (span : Span) (function : String) (args : List Expr) (below : Nat) :
    shapeResult shape (call bound span function args below) =
      call bound ⟨0, 0⟩ function (args.map Expr.shape) below := by
  unfold call
  split
  · exact has_shape span args below
  · rw [node_shape, Expr.shape, Expr.shapeItems_eq_map]

theorem method_shape (span : Span) (target : Expr) (function : String) (args : List Expr)
    (below : Nat) : shapeResult shape (method bound span target function args below) =
      method bound ⟨0, 0⟩ target.shape function (args.map Expr.shape) below := by
  unfold method
  split
  · exact iteration_shape span _ target args below
  · rw [node_shape, Expr.shape, Expr.shapeItems_eq_map]

end Built

namespace Phrase

variable {bound : Nat}

/-- A phrase that is built and settled before the next step. -/
theorem shapeResult_settled {α α' : Type} {view : α → α'} {phrase : Phrase}
    (h : shapeResult Built.shape (phrase.build bound) = phrase.shape.build bound)
    {next : Built → Except ParseError α} {next' : Built → Except ParseError α'}
    (hnext : ∀ b, shapeResult view (next b) = next' b.shape) :
    shapeResult view (phrase.build bound >>= fun b => b.settle >>= next) =
      phrase.shape.build bound >>= fun b => b.settle >>= next' :=
  shapeResult_bind h fun b => shapeResult_bind b.settle_shape hnext

mutual

/-- What is built of a phrase without its offsets is what is built of the phrase, without spans. -/
theorem build_shape (bound : Nat) :
    ∀ phrase : Phrase, shapeResult Built.shape (phrase.build bound) = phrase.shape.build bound
  | atom span token => Built.ofToken_shape span token
  | group inner => shapeResult_bind (build_shape bound inner) Built.settle_shape
  | list span items => by
      refine shapeResult_bind (buildItems_shape bound items) fun built =>
        shapeResult_bind (Built.settleAll_shape built) fun items => ?_
      rw [Built.node_shape, Expr.shape, Expr.shapeItems_eq_map, Built.map_expr_shape,
        Built.greatest_shape]
  | map span entries => by
      refine shapeResult_bind (buildEntries_shape bound entries) fun entries => ?_
      have htrees : (entries.map (Prod.map Built.shape Built.shape)).map
          (fun (k, v) => (k.expr, v.expr)) =
          Expr.shapeEntries (entries.map fun (k, v) => (k.expr, v.expr)) := by
        rw [Expr.shapeEntries_eq_map, List.map_map, List.map_map]
        rfl
      have hheights : Built.greatest ((entries.map (Prod.map Built.shape Built.shape)).flatMap
          fun (k, v) => [k, v]) = Built.greatest (entries.flatMap fun (k, v) => [k, v]) := by
        rw [← Built.greatest_shape (entries.flatMap _), List.map_flatMap, List.flatMap_map]
        rfl
      rw [Built.node_shape, Expr.shape, htrees, hheights]
  | call span function args => by
      refine shapeResult_bind (buildItems_shape bound args) fun built =>
        shapeResult_bind (Built.settleAll_shape built) fun args => ?_
      rw [Built.call_shape, Built.map_expr_shape, Built.greatest_shape]
  | sign start op operand =>
      shapeResult_bind (build_shape bound operand) fun operand =>
        Built.signed_shape start op operand
  | field target name stop => by
      refine shapeResult_settled (build_shape bound target) fun target => ?_
      simp only [Built.node_shape, Expr.shape, Built.shape_expr, Built.shape_height,
        Expr.shape_span]
  | method target name args stop => by
      refine shapeResult_settled (build_shape bound target) fun target =>
        shapeResult_bind (buildItems_shape bound args) fun built =>
          shapeResult_bind (Built.settleAll_shape built) fun args => ?_
      simp only [Built.method_shape, Built.map_expr_shape, Built.greatest_shape, Built.shape_expr,
        Built.shape_height, Expr.shape_span]
  | index target position stop => by
      refine shapeResult_settled (build_shape bound target) fun target =>
        shapeResult_settled (build_shape bound position) fun position => ?_
      simp only [Built.node_shape, Expr.shape, Built.shape_expr, Built.shape_height,
        Expr.shape_span]
  | infixed op left right => by
      refine shapeResult_settled (build_shape bound left) fun left =>
        shapeResult_settled (build_shape bound right) fun right => ?_
      simp only [Built.node_shape, Built.infixExpr_shape, Built.shape_expr, Built.shape_height,
        Expr.shape_span]
  | choice condition whenTrue whenFalse => by
      refine shapeResult_settled (build_shape bound condition) fun condition =>
        shapeResult_settled (build_shape bound whenFalse) fun whenFalse =>
          shapeResult_settled (build_shape bound whenTrue) fun whenTrue => ?_
      simp only [Built.node_shape, Expr.shape, Built.shape_expr, Built.shape_height,
        Expr.shape_span]

theorem buildItems_shape (bound : Nat) : ∀ items : List Phrase,
    shapeResult (List.map Built.shape) (buildItems bound items) =
      buildItems bound (shapeItems items)
  | [] => rfl
  | item :: rest =>
      shapeResult_bind (build_shape bound item) fun _ =>
        shapeResult_bind (buildItems_shape bound rest) fun _ => rfl

theorem buildEntries_shape (bound : Nat) : ∀ entries : List (Phrase × Phrase),
    shapeResult (List.map (Prod.map Built.shape Built.shape)) (buildEntries bound entries) =
      buildEntries bound (shapeEntries entries)
  | [] => rfl
  | (key, value) :: rest =>
      shapeResult_settled (build_shape bound key) fun _ =>
        shapeResult_settled (build_shape bound value) fun _ =>
          shapeResult_bind (buildEntries_shape bound rest) fun _ => rfl

end

end Phrase

end Grammar

end EmbeddedExpr
