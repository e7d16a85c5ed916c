import EmbeddedExpr.Proofs.Grammar.DepthBound
import EmbeddedExpr.Proofs.Grammar.Tracking
import EmbeddedExpr.Proofs.Grammar.Weight

/-!
# The spans of trees and of errors

Building gives a tree the span of its phrase, whatever becomes of the parentheses, so the order of
the parts of a phrase is that of the operands of its tree (`Expr.Placed`).  Every error is about a
node that is being built, a literal or an offset at which a reader has been, or about one character
that the scan of the nesting looks at; all of these are parts of the source.

A result is `Located` if either its value is as it should be or its error is about a part of the
source.
-/

namespace EmbeddedExpr

open Text (IsBoundary)

variable {source : List Char}

/-- A node covers a part of the source, in which its operands stand one behind the other. -/
structure Expr.Placed (source : List Char) (e : Expr) : Prop where
  covers : e.span.Covers source
  encloses : e.span.Encloses (e.operands.map fun o => o.2.span)

theorem Span.Encloses.singleton {outer s : Span} (hstart : outer.start ≤ s.start)
    (hstop : s.stop ≤ outer.stop) : outer.Encloses [s] :=
  ⟨List.forall_mem_singleton.mpr ⟨hstart, hstop⟩, List.pairwise_singleton _ _⟩

/-- A part of the source, and what is enclosed behind it. -/
theorem Span.Covers.encloses_cons {s : Span} {lo hi : Nat} {rest : List Span}
    (hs : s.Covers source) (hlo : lo ≤ s.start) (hhi : s.stop ≤ hi)
    (h : (⟨s.stop, hi⟩ : Span).Encloses rest) : (⟨lo, hi⟩ : Span).Encloses (s :: rest) :=
  h.cons ⟨hlo, Nat.le_refl _⟩ (Nat.le_refl _) (Nat.le_trans hlo (Nat.le_of_lt hs.nonempty)) hhi

theorem Span.Encloses.sublist {outer : Span} {inner fewer : List Span} (h : outer.Encloses inner)
    (hfewer : fewer.Sublist inner) : outer.Encloses fewer :=
  ⟨fun s hs => h.inside s (hfewer.subset hs), h.ordered.sublist hfewer⟩

namespace Grammar

variable {bound : Nat}

/-- A value as `good` says, or an error about a part of the source. -/
def Located {α : Type} (source : List Char) (good : α → Prop) : Except ParseError α → Prop
  | .ok a => good a
  | .error e => e.span.Fits source

theorem Located.bind {α β : Type} {good : α → Prop} {better : β → Prop}
    {result : Except ParseError α} {next : α → Except ParseError β}
    (h : Located source good result) (hnext : ∀ a, good a → Located source better (next a)) :
    Located source better (result >>= next) := by
  cases result with
  | error e => exact h
  | ok a => exact hnext a h

theorem Located.mono {α : Type} {good better : α → Prop} {result : Except ParseError α}
    (h : Located source good result) (himp : ∀ a, good a → better a) :
    Located source better result := by
  cases result with
  | error e => exact h
  | ok a => exact himp a h

/-! ### Building -/

namespace Built

/-- A built tree with this span, all nodes of which are in their place. -/
def Spans (source : List Char) (span : Span) (b : Built) : Prop :=
  b.expr.span = span ∧ b.expr.All (Expr.Placed source)

variable {span : Span}

theorem Spans.covers {b : Built} (h : b.Spans source span) : span.Covers source :=
  h.1 ▸ h.2.here.covers

theorem located_settle {b : Built} (h : b.Spans source span) :
    Located source (· = b) b.settle := by
  unfold settle
  split
  · exact rfl
  · exact h.2.here.covers.fits

theorem located_settleAll {bs : List Built} (h : ∀ b ∈ bs, b.expr.All (Expr.Placed source)) :
    Located source (· = bs) (settleAll bs) := by
  induction bs with
  | nil => exact rfl
  | cons b rest ih =>
      obtain ⟨hb, hrest⟩ := List.forall_mem_cons.mp h
      have hspans : b.Spans source b.expr.span := ⟨rfl, hb⟩
      refine (located_settle hspans).bind fun c hc => (ih hrest).bind fun cs hcs => ?_
      rw [hc, hcs]
      exact rfl

theorem located_node {expr : Expr} (below : Nat) (hcovers : expr.span.Covers source)
    (hencloses : expr.span.Encloses (expr.operands.map fun o => o.2.span))
    (hoperands : ∀ o ∈ expr.operands, o.2.All (Expr.Placed source)) :
    Located source (Spans source expr.span) (node bound expr below) := by
  unfold node
  split
  · exact hcovers.fits
  · exact ⟨rfl, .node ⟨hcovers, hencloses⟩ hoperands⟩

theorem spans_leaf {expr : Expr} (hleaf : expr.operands = []) (hcovers : expr.span.Covers source)
    (minMagnitude : Option (List Char)) :
    (⟨expr, 0, minMagnitude⟩ : Built).Spans source expr.span := by
  refine ⟨rfl, .node ⟨hcovers, ?_⟩ ?_⟩
  · rw [hleaf]
    exact Span.encloses_nil _
  · rw [hleaf]
    nofun

theorem located_ofToken {span : Span} (hspan : span.Covers source) (token : Token) :
    Located source (Spans source span) (ofToken span token) := by
  have hconstant (value : Literal) (minMagnitude : Option (List Char)) :
      (⟨.literal span value, 0, minMagnitude⟩ : Built).Spans source span :=
    spans_leaf rfl hspan minMagnitude
  have hleaf := ofToken_leaf span token
  generalize ofToken span token = result at hleaf ⊢
  cases hleaf with
  | name => exact spans_leaf rfl hspan none
  | null | bool | int | least | uint | double | text | bytes => exact hconstant _ _
  | fault => exact hspan.fits

theorem located_signed {start : Nat} (op : UnaryOp) {operand : Built}
    (hstart : IsBoundary source start) (hle : start ≤ span.start)
    (h : operand.Spans source span) :
    Located source (Spans source ⟨start, span.stop⟩) (signed bound start op operand) := by
  have hcovers : (⟨start, span.stop⟩ : Span).Covers source :=
    ⟨Nat.lt_of_le_of_lt hle h.covers.nonempty, hstart, h.covers.stop⟩
  simp only [signed, h.1]
  split
  · exact spans_leaf rfl hcovers none
  · refine (located_settle h).bind fun settled hsettled => ?_
    obtain rfl := hsettled
    exact located_node _ hcovers (.singleton (h.1 ▸ hle) (h.1 ▸ Nat.le_refl _))
      (List.forall_mem_singleton.mpr h.2)

theorem located_infixExpr {left right : Built} (op : InfixOp) (below : Nat)
    (hspan : span.Covers source) (hencloses : span.Encloses [left.expr.span, right.expr.span])
    (hleft : left.expr.All (Expr.Placed source)) (hright : right.expr.All (Expr.Placed source)) :
    Located source (Spans source span)
      (node bound (infixExpr span op left.expr right.expr) below) := by
  have hoperands : ∀ o ∈ [(([] : List String), left.expr), ([], right.expr)],
      o.2.All (Expr.Placed source) :=
    List.forall_mem_cons.mpr ⟨hleft, List.forall_mem_singleton.mpr hright⟩
  cases op with
  | logic | relation | arith => exact located_node below hspan hencloses hoperands

/-- The parts of a call stand one behind the other inside the call. -/
theorem located_expands {below : Nat} {target : Option Expr} {args : List Expr}
    {build : Nat → Except ParseError Built} {result : Except ParseError Built}
    (h : Expands span below target args build) (hbuild : build bound = result)
    (hcovers : span.Covers source)
    (hencloses : span.Encloses ((target.toList ++ args).map Expr.span))
    (hplaced : ∀ part ∈ target.toList ++ args, part.All (Expr.Placed source)) :
    Located source (Spans source span) result := by
  subst hbuild
  cases h with
  | misuse => exact hcovers.fits
  | has fieldSpan target name =>
      -- the target of the field is inside the argument
      have hfield := hplaced _ (List.mem_singleton.mpr rfl)
      have htarget : target.All (Expr.Placed source) :=
        hfield.operands _ (List.mem_singleton.mpr rfl)
      obtain ⟨hstart, hstop⟩ := hencloses.inside fieldSpan (List.mem_singleton.mpr rfl)
      obtain ⟨hstart', hstop'⟩ :=
        hfield.here.encloses.inside target.span (List.mem_singleton.mpr rfl)
      exact located_node below hcovers
        (.singleton (Nat.le_trans hstart hstart') (Nat.le_trans hstop' hstop))
        (List.forall_mem_singleton.mpr htarget)
  | @node _ _ expr hexpr _ _ hoperands =>
      subst hexpr
      have hkept := hencloses.sublist (hoperands.map Expr.span)
      rw [List.map_map] at hkept
      exact located_node below hcovers hkept fun o ho =>
        hplaced o.2 (hoperands.subset (List.mem_map_of_mem ho))

end Built

/-! ### Phrases -/

namespace Phrase

theorem located_buildItems {items : List Phrase}
    (h : ∀ item ∈ items, Located source (Built.Spans source item.span) (item.build bound)) :
    Located source (fun bs => bs.map (·.expr.span) = items.map span ∧
      ∀ b ∈ bs, b.expr.All (Expr.Placed source)) (buildItems bound items) := by
  induction items with
  | nil => exact ⟨rfl, nofun⟩
  | cons item rest ih =>
      obtain ⟨hitem, hrest⟩ := List.forall_mem_cons.mp h
      refine hitem.bind fun b hb => (ih hrest).bind fun bs hbs => ?_
      refine ⟨?_, List.forall_mem_cons.mpr ⟨hb.2, hbs.2⟩⟩
      rw [List.map_cons, List.map_cons, hb.1, hbs.1]

/-- A phrase that is built and settled before the next step. -/
theorem located_settled {α : Type} {good : α → Prop} {result : Except ParseError Built}
    {span : Span} {next : Built → Except ParseError α}
    (h : Located source (Built.Spans source span) result)
    (hnext : ∀ b : Built, b.Spans source span → Located source good (next b)) :
    Located source good (result >>= fun b => b.settle >>= next) := by
  refine h.bind fun b hb => (Built.located_settle hb).bind fun c hc => ?_
  obtain rfl := hc
  exact hnext c hb

/-- Arguments that are built and settled before the next step. -/
theorem located_arguments {α : Type} {good : α → Prop} {items : List Phrase}
    {next : List Built → Except ParseError α}
    (h : ∀ item ∈ items, Located source (Built.Spans source item.span) (item.build bound))
    (hnext : ∀ bs : List Built, (bs.map Built.expr).map Expr.span = items.map span →
      (∀ arg ∈ bs.map Built.expr, arg.All (Expr.Placed source)) → Located source good (next bs)) :
    Located source good (buildItems bound items >>= fun bs => Built.settleAll bs >>= next) := by
  refine (located_buildItems h).bind fun bs hbs => ?_
  refine (Built.located_settleAll hbs.2).bind fun settled hsettled => ?_
  obtain rfl := hsettled
  refine hnext settled ?_ (List.forall_mem_map.mpr hbs.2)
  rw [List.map_map]
  exact hbs.1

theorem located_buildEntries {entries : List (Phrase × Phrase)}
    (hkeys : ∀ e ∈ entries, Located source (Built.Spans source e.1.span) (e.1.build bound))
    (hvalues : ∀ e ∈ entries, Located source (Built.Spans source e.2.span) (e.2.build bound)) :
    Located source (fun built =>
      (built.flatMap fun e => [e.1.expr.span, e.2.expr.span]) =
          (entries.flatMap fun e => [e.1.span, e.2.span]) ∧
        ∀ e ∈ built, e.1.expr.All (Expr.Placed source) ∧ e.2.expr.All (Expr.Placed source))
      (buildEntries bound entries) := by
  induction entries with
  | nil => exact ⟨rfl, nofun⟩
  | cons entry rest ih =>
      obtain ⟨hkey, hkeys⟩ := List.forall_mem_cons.mp hkeys
      obtain ⟨hvalue, hvalues⟩ := List.forall_mem_cons.mp hvalues
      refine located_settled hkey fun k hk => located_settled hvalue fun v hv => ?_
      refine (ih hkeys hvalues).bind fun built hbuilt => ?_
      refine ⟨?_, List.forall_mem_cons.mpr ⟨⟨hk.2, hv.2⟩, hbuilt.2⟩⟩
      rw [List.flatMap_cons, List.flatMap_cons, hbuilt.1, hk.1, hv.1]

/-- The tree of a phrase has the span of the phrase and all nodes in their place, or the error is
about a part of the source. -/
theorem located_build {phrase : Phrase} (h : phrase.Placed source) (bound : Nat) :
    Located source (Built.Spans source phrase.span) (phrase.build bound) := by
  induction h with
  | atom hspan => exact Built.located_ofToken hspan _
  | group _ ih =>
      exact ih.bind fun b hb => (Built.located_settle hb).mono fun c hc => hc ▸ hb
  | list hspan hencloses _ ih =>
      refine located_arguments ih fun bs hspans hplaced => ?_
      refine Built.located_node _ hspan ?_ (List.forall_mem_map.mpr hplaced)
      rw [Expr.operands, List.map_map]
      exact hspans ▸ hencloses
  | map hspan hencloses _ _ ihkey ihvalue =>
      refine (located_buildEntries ihkey ihvalue).bind fun built hbuilt => ?_
      refine Built.located_node _ hspan ?_ ?_
      · simp only [Expr.operands, List.flatMap_map, List.map_flatMap, List.map_cons, List.map_nil]
        exact hbuilt.1 ▸ hencloses
      · simp only [Expr.operands, List.flatMap_map]
        exact Expr.forall_mem_flatMap_pair.mpr hbuilt.2
  | call hspan hencloses _ ih =>
      refine located_arguments ih fun bs hspans hplaced => ?_
      exact Built.located_expands (Built.call_expands ..) rfl hspan (hspans ▸ hencloses) hplaced
  | sign hstart hle _ ih => exact ih.bind fun operand ho => Built.located_signed _ hstart hle ho
  | @field target name stop htarget hle hstop ih =>
      have hcovers : (field target name stop).span.Covers source :=
        (Placed.field htarget hle hstop).covers
      refine located_settled ih fun t ht => ?_
      rw [ht.1]
      exact Built.located_node _ hcovers (.singleton (ht.1 ▸ Nat.le_refl _) (ht.1 ▸ hle))
        (List.forall_mem_singleton.mpr ht.2)
  | @method target name args stop htarget hle hencloses hargs hstop ihtarget ihargs =>
      have hcovers : (method target name args stop).span.Covers source :=
        (Placed.method htarget hle hencloses hargs hstop).covers
      refine located_settled ihtarget fun t ht => ?_
      refine located_arguments ihargs fun bs hspans hplaced => ?_
      rw [ht.1]
      refine Built.located_expands (Built.method_expands ..) rfl hcovers ?_
        (List.forall_mem_cons.mpr ⟨ht.2, hplaced⟩)
      rw [Option.toList_some, List.singleton_append, List.map_cons, hspans, ht.1]
      exact htarget.covers.encloses_cons (Nat.le_refl _) hle hencloses
  | index htarget hle hposition hle' hstop ihtarget ihposition =>
      have hcovers := (Placed.index htarget hle hposition hle' hstop).covers
      refine located_settled ihtarget fun target ht => ?_
      refine located_settled ihposition fun position hp => ?_
      have hbetween := Nat.le_of_lt hposition.covers.nonempty
      have hbehind := Nat.le_trans hle (Nat.le_trans hbetween hle')
      rw [ht.1]
      refine Built.located_node _ hcovers ?_
        (List.forall_mem_cons.mpr ⟨ht.2, List.forall_mem_singleton.mpr hp.2⟩)
      simp only [Expr.operands, List.map_cons, List.map_nil, ht.1, hp.1]
      exact htarget.covers.encloses_cons (Nat.le_refl _) hbehind (.singleton hle hle')
  | @infixed op left right hleft hle hright ihleft ihright =>
      have hcovers : (infixed op left right).span.Covers source :=
        (Placed.infixed hleft hle hright).covers
      refine located_settled ihleft fun l hl => ?_
      refine located_settled ihright fun r hr => ?_
      have hbetween := Nat.le_of_lt hright.covers.nonempty
      rw [hl.1, hr.1]
      refine Built.located_infixExpr _ _ hcovers ?_ hl.2 hr.2
      rw [hl.1, hr.1]
      exact hleft.covers.encloses_cons (Nat.le_refl _) (Nat.le_trans hle hbetween)
        (.singleton hle (Nat.le_refl _))
  | choice hc hct ht htf hf ihc iht ihf =>
      -- the branches are built in the other order than they are written
      have hcovers := (Placed.choice hc hct ht htf hf).covers
      refine located_settled ihc fun condition hcondition => ?_
      refine located_settled ihf fun whenFalse hfalse => ?_
      refine located_settled iht fun whenTrue htrue => ?_
      have hbetween := Nat.le_of_lt ht.covers.nonempty
      have hbehind := Nat.le_trans htf (Nat.le_of_lt hf.covers.nonempty)
      have hfirst := Nat.le_trans hct (Nat.le_trans hbetween hbehind)
      rw [hcondition.1, hfalse.1]
      refine Built.located_node _ hcovers ?_ (List.forall_mem_cons.mpr ⟨hcondition.2,
        List.forall_mem_cons.mpr ⟨htrue.2, List.forall_mem_singleton.mpr hfalse.2⟩⟩)
      simp only [Expr.operands, List.map_cons, List.map_nil, hcondition.1, htrue.1, hfalse.1]
      refine hc.covers.encloses_cons (Nat.le_refl _) hfirst ?_
      exact ht.covers.encloses_cons hct hbehind (.singleton htf (Nat.le_refl _))

end Phrase

/-! ### The scan of the nesting -/

namespace Nesting

/-- The open brackets are characters of the source, one byte long. -/
def Open (source : List Char) (n : Nesting) : Prop :=
  ∀ b ∈ n.brackets, (⟨b.2, b.2 + 1⟩ : Span).Fits source

theorem utf8Size_of_isOpening {c : Char} (h : isOpening c = true) : c.utf8Size = 1 := by
  simp only [isOpening, Bool.or_eq_true, beq_iff_eq] at h
  rcases h with (rfl | rfl) | rfl <;> rfl

/-- A bracket that is open behind a character was open before it, or is the character. -/
theorem mem_brackets_of_step {n n' : Nesting} {offset : Nat} {c : Char}
    (h : n.step bound offset c = .going n') : ∀ b ∈ n'.brackets,
      b ∈ n.brackets ∨ b = (c, offset) ∧ c.utf8Size = 1 := by
  intro b hb
  cases hopening : isOpening c with
  | true =>
      rcases step_opening_or hopening bound n offset with ⟨m, hstep, hbrackets, -⟩ | ⟨_, hstep, -⟩
      · cases h.symm.trans hstep
        rw [hbrackets] at hb
        rcases List.mem_cons.mp hb with rfl | hb
        · exact .inr ⟨rfl, utf8Size_of_isOpening hopening⟩
        · exact .inl hb
      · cases h.symm.trans hstep
  | false =>
      cases hclosing : opening? c with
      | none =>
          rcases step_unbracketed_or hopening hclosing bound n offset with
            ⟨m, hstep, hsame, -⟩ | ⟨_, hstep, -⟩
          · cases h.symm.trans hstep
            exact .inl (hsame ▸ hb)
          · cases h.symm.trans hstep
      | some opening =>
          simp only [step, hopening, hclosing, closeBracket, Bool.false_eq_true, if_false] at h
          split at h
          · rename_i hbrackets
            split at h
            · cases h
              exact .inl (hbrackets ▸ List.mem_cons_of_mem _ hb)
            · cases h
          · cases h

/-- The depth is blamed at characters of one byte only. -/
theorem utf8Size_of_exceeded {n : Nesting} {offset depth : Nat} {c : Char}
    (h : n.step bound offset c = .exceeded depth) : c.utf8Size = 1 := by
  unfold step at h
  split at h
  · rename_i hopening
    exact utf8Size_of_isOpening hopening
  split at h
  · unfold closeBracket at h
    split at h
    · split at h <;> cases h
    · cases h
  split at h
  · rename_i hquestion
    rw [hquestion]
    rfl
  split at h
  · unfold closeChoices at h
    split at h <;> cases h
  split at h
  · rename_i hsign
    rcases hsign with rfl | rfl <;> rfl
  split at h <;> cases h

theorem located_scan (mode : Mode) (passed : Nat) {n : Nesting} {offset : Nat} {text : List Char}
    (h : (⟨offset, text⟩ : Cursor).In source) (hn : n.Open source) :
    Located source (fun _ => True) (scan bound mode passed n offset text) := by
  induction text generalizing mode passed n offset with
  | nil =>
      simp only [scan, finish]
      split
      · exact trivial
      · rename_i c start brackets hbrackets
        exact hn (c, start) (hbrackets ▸ List.mem_cons_self)
  | cons c rest ih =>
      have hnext : (⟨offset + c.utf8Size, rest⟩ : Cursor).In source :=
        h.advance (List.singleton_append (x := c) (l := rest))
      have hone (hsize : c.utf8Size = 1) : (⟨offset, offset + 1⟩ : Span).Fits source :=
        ⟨Nat.le_succ _, h.isBoundary, hsize ▸ hnext.isBoundary⟩
      rcases scan_cons_cases mode passed c rest with ⟨mode', passed', after, hafter, hscan⟩ | hscan
      · rw [hscan]
        refine ih _ _ hnext ?_
        rcases hafter with rfl | rfl <;> exact hn
      · rw [hscan]
        cases hstep : n.step bound offset c with
        | going n' =>
            refine ih _ _ hnext fun b hb => ?_
            rcases mem_brackets_of_step hstep b hb with hold | ⟨rfl, hsize⟩
            · exact hn b hold
            · exact hone hsize
        | settled => exact trivial
        | exceeded depth => exact hone (utf8Size_of_exceeded hstep)

theorem located_check (bound : Nat) (source : List Char) :
    Located source (fun _ => True) (check bound source) :=
  located_scan .code 0 ⟨[], rfl, rfl⟩ nofun

end Nesting

/-! ### Sources -/

theorem located_parse (bound : Nat) (source : List Char) :
    Located source (·.All (Expr.Placed source)) (parse bound source) := by
  refine (Nesting.located_check bound source).bind fun _ _ => ?_
  split
  · have hboundary := isBoundary_attempts source
    exact ⟨Nat.le_refl _, hboundary, hboundary⟩
  · rename_i phrase hphrase
    have hplaced := Phrase.placed_of_read? hphrase
    exact Phrase.located_settled (Phrase.located_build hplaced bound) fun b hb => hb.2

/-- Every node of the tree of a source covers a part of the source, with at least one character,
in which its operands stand one behind the other; and an error is about a part of the source. -/
theorem parse_spans (bound : Nat) (source : List Char) :
    (∀ e, parse bound source = .ok e → e.All (Expr.Placed source)) ∧
      ∀ err, parse bound source = .error err → err.span.start ≤ err.span.stop ∧
        err.span.stop ≤ Text.byteLength source ∧
          IsBoundary source err.span.start ∧ IsBoundary source err.span.stop := by
  have hlocated := located_parse bound source
  refine ⟨fun e h => ?_, fun err h => ?_⟩
  · rw [h] at hlocated
    exact hlocated
  · rw [h] at hlocated
    exact ⟨hlocated.ordered, hlocated.stop.le_byteLength, hlocated.start, hlocated.stop⟩

/-- The spans of a sum leave out the comment and the outer parentheses; the bracket that is not
closed behind a literal with a character of two bytes is at the offset 7. -/
theorem parse_spans_sum :
    let sum : Expr := .arith ⟨6, 16⟩ .add (.ident ⟨6, 7⟩ "c")
      (.field ⟨12, 16⟩ (.ident ⟨12, 13⟩ "a") "b")
    parse 9 "//é\n(c) + (a).b".toList = .ok sum ∧ sum.All (Expr.Placed "//é\n(c) + (a).b".toList) ∧
      parse 9 "'é' + (".toList = .error ⟨.unclosed '(', ⟨7, 8⟩⟩ ∧
        7 ≤ 8 ∧ 8 ≤ Text.byteLength "'é' + (".toList ∧ IsBoundary "'é' + (".toList 7 ∧
          IsBoundary "'é' + (".toList 8 := by
  intro sum
  have hparse : parse 9 "//é\n(c) + (a).b".toList = .ok sum := rfl
  have hunclosed : parse 9 "'é' + (".toList = .error ⟨.unclosed '(', ⟨7, 8⟩⟩ := rfl
  have hplaced := (parse_spans 9 "//é\n(c) + (a).b".toList).1 sum hparse
  exact ⟨hparse, hplaced, hunclosed, (parse_spans 9 "'é' + (".toList).2 _ hunclosed⟩

end Grammar

end EmbeddedExpr
