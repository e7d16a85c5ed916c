import EmbeddedExpr.Proofs.Grammar.Layout
import EmbeddedExpr.Proofs.Grammar.Parts
import EmbeddedExpr.Proofs.Grammar.Rereading

/-!
# What the span of a node delimits

The lexemes of a phrase, cut out of the source, are read as a phrase of the same shape again, so
every node has a text around its span that is a source with the node as its tree.  The span leaves
out parentheses at the ends of that text only (`Expr.Extent`), and where it leaves out one of a pair
the other stands without it.  So the text at the span itself is a source just if the brackets in it
are matched, and then its tree is the node, but for the spans (`Expr.Named`).

A bound as great as a text is long does not stop the scan of the nesting in it, so the bound of the
source and the length of the text together suffice for the text of a node.
-/

namespace EmbeddedExpr

/-! ### Slices -/

namespace Text

theorem dropBytes?_append (before rest : List Char) :
    dropBytes? (byteLength before) (before ++ rest) = some rest := by
  induction before with
  | nil => cases rest <;> rfl
  | cons c before ih =>
      have hpos := c.utf8Size_pos
      obtain ⟨n, hn⟩ : ∃ n, c.utf8Size + byteLength before = n + 1 :=
        Nat.exists_eq_add_one_of_ne_zero (by omega)
      rw [byteLength_cons, List.cons_append, hn, dropBytes?, if_pos (by omega)]
      have hrest : n + 1 - c.utf8Size = byteLength before := by omega
      rw [hrest, ih]

/-- The slice between two places is what stands between them. -/
theorem slice_append (before text after : List Char) :
    slice (before ++ (text ++ after)) (byteLength before)
      (byteLength before + byteLength text) = text := by
  have hbehind : dropBytes? (byteLength before + byteLength text) (before ++ (text ++ after)) =
      some after := by
    rw [← byteLength_append, ← List.append_assoc]
    exact dropBytes?_append _ _
  simp only [slice, dropBytes?_append, hbehind, Option.getD_some, List.length_append,
    Nat.add_sub_cancel, List.take_left]

end Text

namespace Grammar

variable {bound : Nat} {source : List Char}

/-! ### Bounds that suffice -/

namespace Nesting

/-- A step adds at most one to what counts against the bound, and blames the depth only if that is
more than the bound. -/
theorem step_weight (bound : Nat) (n : Nesting) (offset : Nat) (c : Char) :
    n.step bound offset c = .settled ∨
      (∃ n', n.step bound offset c = .going n' ∧ n'.weight ≤ n.weight + 1) ∨
        ∃ depth, n.step bound offset c = .exceeded depth ∧ bound < depth ∧
          depth ≤ n.weight + 1 := by
  cases hopening : isOpening c with
  | true =>
      right
      refine (step_opening_or hopening bound n offset).imp_left ?_
      rintro ⟨n', hstep, -, hle⟩
      exact ⟨n', hstep, hle⟩
  | false =>
      cases hclosing : opening? c with
      | none =>
          right
          refine (step_unbracketed_or hopening hclosing bound n offset).imp_left ?_
          rintro ⟨n', hstep, -, hle⟩
          exact ⟨n', hstep, hle⟩
      | some opening =>
          simp only [step, hopening, hclosing, closeBracket, Bool.false_eq_true, if_false]
          split
          · rename_i hbrackets
            split
            · refine .inr (.inl ⟨_, rfl, ?_⟩)
              simp only [weight, hbrackets, List.length_cons]
              omega
            · exact .inl rfl
          · exact .inl rfl

/-- There are not enough characters to exceed the bound. -/
theorem not_tooDeep_scan (mode : Mode) (passed : Nat) {n : Nesting} (offset : Nat)
    {text : List Char} (h : n.weight + text.length ≤ bound) :
    ¬TooDeep (scan bound mode passed n offset text) := by
  induction text generalizing mode passed n offset with
  | nil =>
      rintro ⟨depth, bound', span, hdeep⟩
      simp only [scan, finish] at hdeep
      split at hdeep <;> cases hdeep
  | cons c rest ih =>
      rw [List.length_cons] at h
      rcases scan_cons_cases mode passed c rest with ⟨mode', passed', after, hafter, hscan⟩ | hscan
      · rw [hscan]
        have hweight : (after n).weight ≤ n.weight := by
          rcases hafter with rfl | rfl
          · exact Nat.le_refl _
          · simp only [weight, endSigns]
            omega
        exact ih _ _ _ (by omega)
      · rw [hscan]
        rcases step_weight bound n offset c with hstep | ⟨n', hstep, hweight⟩ |
          ⟨depth, hstep, hbound, hdepth⟩
        · rw [hstep]
          rintro ⟨depth, bound', span, hdeep⟩
          cases hdeep
        · rw [hstep]
          exact ih _ _ _ (by omega)
        · omega

end Nesting

/-- A bound as great as the text is long suffices for the scan of a phrase. -/
theorem check_of_length {text : List Char} {phrase : Phrase} (h : Phrase.read? text = some phrase)
    (hbound : text.length ≤ bound) : Nesting.check bound text = .ok () := by
  refine (check_of_read? h bound).resolve_right (Nesting.not_tooDeep_scan _ _ _ ?_)
  simpa [Nesting.weight, Nesting.start] using hbound

theorem Phrase.Builds.widen {p : Phrase} {b : Built} {wide : Nat} (h : p.Builds bound b)
    (hle : bound ≤ wide) : p.Builds wide b := by
  rcases Phrase.build_widened hle p with ⟨depth, bound', span, hdeep⟩ | hsame
  · cases h.build_eq.symm.trans hdeep
  · exact ⟨hsame.trans h.build_eq, h.settle_eq⟩

/-- A text that is read as a phrase of the same shape has the same tree, but for the spans in it. -/
theorem parse_of_shape {p q : Phrase} {b : Built} {text : List Char} {wide : Nat}
    (h : p.Builds bound b) (hread : Phrase.read? text = some q) (hshape : q.shape = p.shape)
    (hbound : bound ≤ wide) (hlength : text.length ≤ wide) :
    ∃ e, parse wide text = .ok e ∧ e.shape = b.expr.shape := by
  have hbuilds := h.widen hbound
  have htree := tree_shape wide q
  rw [hshape, ← tree_shape wide p, bind_of_ok hbuilds.build_eq, bind_of_ok hbuilds.settle_eq]
    at htree
  obtain ⟨e, he, heq⟩ := eq_ok_of_shapeResult htree
  refine ⟨e, ?_, heq⟩
  rw [parse, bind_of_ok (check_of_length hread hlength), hread]
  exact he

/-! ### Texts of runs -/

namespace Cursor.Run

variable {c d : Cursor} {xs : List Lexeme}

theorem start_skip (h : c.Run xs d) (hne : xs ≠ []) : c.skip.Run xs d := by
  cases h with
  | nil => exact absurd rfl hne
  | layout h => exact h
  | cons hx h => exact .cons (hx.congr c.skip_skip.symm) h

theorem skip (h : c.Run xs d) : c.skip.Run xs d.skip := by
  induction h with
  | nil => exact .nil _
  | layout _ ih => rwa [skip_skip] at ih
  | @cons c _ _ _ _ hx h _ =>
      have hend := h.append (.layout (.nil _))
      rw [List.append_nil] at hend
      exact .cons (hx.congr c.skip_skip.symm) hend

theorem offset_le (h : c.Run xs d) : c.offset ≤ d.offset := by
  obtain ⟨text, -, hoffset, -⟩ := h.exists_slice
  rw [hoffset]
  exact Nat.le_add_right _ _

/-- The slice between two places is the run between them. -/
theorem lexed_slice (h : c.Run xs d) (hc : c.In source) :
    Lexed (Text.slice source c.offset d.offset) xs := by
  obtain ⟨text, hrest, hoffset, htext⟩ := h.exists_slice
  obtain ⟨before, hsource, hbefore⟩ := hc
  rw [hoffset, hbefore, hsource, hrest, Text.slice_append]
  exact htext

/-- With blanks between them, the lexemes of a run are the same lexemes. -/
theorem lexed_spaced (h : c.Run xs d) : Lexed (spaced (xs.map Lexeme.text)) xs := by
  induction h with
  | nil => exact .nil rfl
  | layout _ ih => exact ih
  | @cons c d e x xs hx _ ih =>
      have hlexeme := hx.lexeme_spaced (xs.map Lexeme.text)
      refine .cons (by rw [List.map_cons, settled_of_lexeme hlexeme, hlexeme]) (ih.congr ?_)
      rcases trailing_eq (xs.map Lexeme.text) with ⟨hnil, htrailing⟩ | htrailing
      · rw [hnil, htrailing]
        rfl
      · rw [htrailing, behindLayout_blank rfl]

end Cursor.Run

/-! ### Texts of phrases -/

/-- A text of the lexemes that spell a phrase is read as a phrase of the same shape. -/
theorem read?_of_lexed {p : Phrase} {text : List Char} {xs : List Lexeme} {c d : Cursor}
    (h : p.Spelled c xs d) (htext : Lexed text xs) :
    ∃ q, Phrase.read? text = some q ∧ q.shape = p.shape := by
  obtain ⟨q, hq, hshape⟩ := read?_spelled h
  obtain ⟨ys, hys⟩ := laid_of_read? hq
  obtain rfl : ys = xs := hys.lexed.unique h.run.lexed_spaced
  have hcongr := read?_congr (hys.of_lexed htext) hys
  rw [hq, Option.map_some] at hcongr
  obtain ⟨q', hq', hshape'⟩ := Option.map_eq_some_iff.mp hcongr
  exact ⟨q', hq', hshape'.trans hshape⟩

theorem Matched.of_parse {text : List Char} {e : Expr} (h : parse bound text = .ok e) :
    Matched text := by
  obtain ⟨phrase, _, hread, _⟩ := parse_eq_ok h
  obtain ⟨xs, hxs⟩ := laid_of_read? hread
  exact hxs.matched

/-- The text consists of marks of this kind. -/
def Repeats (mark : Char) (text : List Char) : Prop :=
  ∃ xs, Lexed text xs ∧ ∀ x ∈ xs, x = .mark [mark]

/-- Around the span of a phrase are the text of its lexemes and, between the two, parentheses.  If
brackets are matched in the slice at the span, there are none between. -/
theorem Phrase.Spelled.exists_extent {p : Phrase} {xs : List Lexeme} {c d : Cursor}
    (h : p.Spelled c xs d) (hgroup : ¬p.IsGroup) (hc : c.In source) :
    ∃ extent : Span, extent.start ≤ p.span.start ∧ p.span.stop ≤ extent.stop ∧
      Repeats '(' (Text.slice source extent.start p.span.start) ∧
      Repeats ')' (Text.slice source p.span.stop extent.stop) ∧
      Lexed (Text.slice source extent.start extent.stop) xs ∧
      (Matched (Text.slice source p.span.start p.span.stop) → extent = p.span) := by
  obtain ⟨skipped, c', ys, d', left, ⟨hskipped, hopening⟩, hrun, ⟨hleft, hclosing⟩, hspan,
    hwhole⟩ := h.trims_span hgroup
  rw [hspan]
  have hc' := hskipped.isIn hc
  refine ⟨⟨c.skip.offset, d.offset⟩, hskipped.skip.offset_le, hleft.offset_le,
    ⟨skipped, hskipped.skip.lexed_slice hc.skip, hopening⟩,
    ⟨left, hleft.lexed_slice (hrun.isIn hc'), hclosing⟩,
    (h.run.start_skip h.ne_nil).lexed_slice hc.skip, ?_⟩
  rintro ⟨zs, hzs, hnest⟩
  -- a part without lexemes would be the whole phrase
  have hne : ys ≠ [] := by
    rintro rfl
    exact h.ne_nil (hwhole rfl).2.1.symm
  obtain rfl := hzs.unique ((hrun.start_skip hne).lexed_slice hc'.skip)
  obtain ⟨rfl, -, rfl⟩ := hwhole hnest
  rfl

end Grammar

/-! ### Nodes -/

open Grammar

namespace Expr

/-- The tree of the text is the node but for the spans, under all bounds from some one on. -/
def ReadsAs (text : List Char) (e : Expr) : Prop :=
  ∃ limit, ∀ wide, limit ≤ wide →
    ∃ e', parse wide text = .ok e' ∧ e'.shape = e.shape ∧ e'.sameShape e = true

/-- The text between two offsets has the node as its tree.  Between them and the ends of the span
of the node there are parentheses only. -/
structure Extent (source : List Char) (e : Expr) (extent : Span) : Prop where
  start_le : extent.start ≤ e.span.start
  le_stop : e.span.stop ≤ extent.stop
  opening : Repeats '(' (Text.slice source extent.start e.span.start)
  closing : Repeats ')' (Text.slice source e.span.stop extent.stop)
  readsAs : e.ReadsAs (Text.slice source extent.start extent.stop)

/-- The text at the span of the node is a source just if the brackets in it are matched, and then
its tree is the node.  A text around the span always has the node as its tree. -/
structure Named (source : List Char) (e : Expr) : Prop where
  readsAs : Matched (Text.slice source e.span.start e.span.stop) →
    e.ReadsAs (Text.slice source e.span.start e.span.stop)
  matched : ∀ bound e', parse bound (Text.slice source e.span.start e.span.stop) = .ok e' →
    Matched (Text.slice source e.span.start e.span.stop)
  extent : ∃ extent, e.Extent source extent

end Expr

namespace Grammar

variable {bound : Nat} {source : List Char}

/-- A text of the lexemes of a phrase has the tree of the phrase. -/
theorem readsAs_of_lexed {p : Phrase} {b : Built} {text : List Char} {xs : List Lexeme}
    {c d : Cursor} (h : p.Builds bound b) (hp : p.Spelled c xs d) (htext : Lexed text xs) :
    b.expr.ReadsAs text := by
  obtain ⟨q, hq, hshape⟩ := read?_of_lexed hp htext
  refine ⟨max bound text.length, ?_⟩
  intro wide hwide
  obtain ⟨hbound, hlength⟩ := max_le_iff.mp hwide
  obtain ⟨e, he, heq⟩ := parse_of_shape h hq hshape hbound hlength
  refine ⟨e, he, heq, Expr.sameShape_of_shape ?_ heq⟩
  exact (parse_fits he).2.mono fun _ hnode => Expr.reflexive_of_isFinite hnode.finite

theorem named_of_spelled {p : Phrase} {b : Built} (hspelled : p.SpelledIn source)
    (hplaced : p.Placed source) (hgroup : ¬p.IsGroup) (h : p.Builds bound b) :
    b.expr.Named source := by
  obtain ⟨c, xs, d, hc, hp⟩ := hspelled
  have hspan : b.expr.span = p.span := by
    have hlocated := Phrase.located_build hplaced bound
    rw [h.build_eq] at hlocated
    exact hlocated.1
  obtain ⟨extent, hstart, hstop, hopening, hclosing, hlexed, heq⟩ :=
    hp.exists_extent hgroup hc
  rw [← hspan] at hstart hstop hopening hclosing heq
  have hreads := readsAs_of_lexed h hp hlexed
  refine ⟨fun hmatched => ?_, fun _ _ => Matched.of_parse,
    extent, hstart, hstop, hopening, hclosing, hreads⟩
  rwa [heq hmatched] at hreads

/-- Every node of the tree of a source is named by its span. -/
theorem all_named_of_parse {e : Expr} (h : parse bound source = .ok e) :
    e.All (Expr.Named source) := by
  refine all_of_parse (fun p hspelled hplaced hgroup b h => ?_) h
  exact named_of_spelled hspelled hplaced hgroup h

end Grammar

end EmbeddedExpr
