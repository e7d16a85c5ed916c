import EmbeddedExpr.Proofs.Grammar.Extent

/-!
# Where phrases stand in their source

The span of a phrase reaches from its first to its last token, except that the parentheses around a
phrase are no part of it.  The parts of a phrase have their spans in the order of the source
(`Phrase.Placed`).

A phrase that takes its share of the source from the offset `lo` to the offset `hi` has its span
between the two (`Phrase.Lies`).  What is put together from parts with shares in turn lies between
the first and the last of these offsets, wherever the precedence of operators puts the parts in the
tree (`Phrase.Lies.chain`).
-/

namespace EmbeddedExpr

/-! ### Offsets between characters -/

/-- A character of the text begins at the offset, or the text ends there. -/
def Text.IsBoundary (text : List Char) (offset : Nat) : Prop :=
  ∃ before after, text = before ++ after ∧ offset = Text.byteLength before

open Text (IsBoundary)

variable {source : List Char}

theorem Text.IsBoundary.le_byteLength {offset : Nat} (h : IsBoundary source offset) :
    offset ≤ Text.byteLength source := by
  obtain ⟨before, after, rfl, rfl⟩ := h
  rw [Text.byteLength_append]
  exact Nat.le_add_right _ _

namespace Span

/-- A part of the source, possibly an empty one. -/
structure Fits (source : List Char) (s : Span) : Prop where
  ordered : s.start ≤ s.stop
  start : IsBoundary source s.start
  stop : IsBoundary source s.stop

/-- A part of the source with at least one character. -/
structure Covers (source : List Char) (s : Span) : Prop where
  nonempty : s.start < s.stop
  start : IsBoundary source s.start
  stop : IsBoundary source s.stop

/-- The spans are inside this one, each behind the one before it. -/
structure Encloses (outer : Span) (inner : List Span) : Prop where
  inside : ∀ s ∈ inner, outer.start ≤ s.start ∧ s.stop ≤ outer.stop
  ordered : inner.Pairwise fun s t => s.stop ≤ t.start

theorem Covers.fits {s : Span} (h : s.Covers source) : s.Fits source :=
  ⟨Nat.le_of_lt h.nonempty, h.start, h.stop⟩

theorem encloses_nil (outer : Span) : outer.Encloses [] := ⟨nofun, .nil⟩

theorem Encloses.cons {lo mid start hi : Nat} {s : Span} {rest : List Span}
    (hs : lo ≤ s.start ∧ s.stop ≤ mid) (hmid : mid ≤ start) (hlo : lo ≤ start)
    (hhi : s.stop ≤ hi) (h : (⟨start, hi⟩ : Span).Encloses rest) :
    (⟨lo, hi⟩ : Span).Encloses (s :: rest) := by
  refine ⟨List.forall_mem_cons.mpr ⟨⟨hs.1, hhi⟩, fun t ht => ?_⟩,
    List.pairwise_cons.mpr ⟨fun t ht => ?_, h.ordered⟩⟩
  · exact ⟨Nat.le_trans hlo (h.inside t ht).1, (h.inside t ht).2⟩
  · exact Nat.le_trans (Nat.le_trans hs.2 hmid) (h.inside t ht).1

end Span

namespace Grammar

/-! ### Phrases and their spans -/

/-- The part of the source between the first and the last token of a phrase that leave a trace in
its tree. -/
def Phrase.span : Phrase → Span
  | atom span _ | list span _ | map span _ | call span _ _ => span
  | group inner => inner.span
  | sign start _ operand => ⟨start, operand.span.stop⟩
  | field target _ stop | method target _ _ stop | index target _ stop =>
    ⟨target.span.start, stop⟩
  | infixed _ left right => ⟨left.span.start, right.span.stop⟩
  | choice condition _ whenFalse => ⟨condition.span.start, whenFalse.span.stop⟩

/-- The parts of a phrase stand one behind the other in the source. -/
inductive Phrase.Placed (source : List Char) : Phrase → Prop
  | atom {span : Span} {token : Token} : span.Covers source → Placed source (.atom span token)
  | group {inner : Phrase} : Placed source inner → Placed source (.group inner)
  | list {span : Span} {items : List Phrase} : span.Covers source →
      span.Encloses (items.map Phrase.span) → (∀ item ∈ items, Placed source item) →
      Placed source (.list span items)
  | map {span : Span} {entries : List (Phrase × Phrase)} : span.Covers source →
      span.Encloses (entries.flatMap fun entry => [entry.1.span, entry.2.span]) →
      (∀ entry ∈ entries, Placed source entry.1) → (∀ entry ∈ entries, Placed source entry.2) →
      Placed source (.map span entries)
  | call {span : Span} {function : List Char} {args : List Phrase} : span.Covers source →
      span.Encloses (args.map Phrase.span) → (∀ arg ∈ args, Placed source arg) →
      Placed source (.call span function args)
  | sign {start : Nat} {op : UnaryOp} {operand : Phrase} : IsBoundary source start →
      start ≤ operand.span.start → Placed source operand → Placed source (.sign start op operand)
  | field {target : Phrase} {name : List Char} {stop : Nat} : Placed source target →
      target.span.stop ≤ stop → IsBoundary source stop → Placed source (.field target name stop)
  | method {target : Phrase} {name : List Char} {args : List Phrase} {stop : Nat} :
      Placed source target → target.span.stop ≤ stop →
      (⟨target.span.stop, stop⟩ : Span).Encloses (args.map Phrase.span) →
      (∀ arg ∈ args, Placed source arg) → IsBoundary source stop →
      Placed source (.method target name args stop)
  | index {target position : Phrase} {stop : Nat} : Placed source target →
      target.span.stop ≤ position.span.start → Placed source position →
      position.span.stop ≤ stop → IsBoundary source stop →
      Placed source (.index target position stop)
  | infixed {op : InfixOp} {left right : Phrase} : Placed source left →
      left.span.stop ≤ right.span.start → Placed source right →
      Placed source (.infixed op left right)
  | choice {c t f : Phrase} : Placed source c → c.span.stop ≤ t.span.start → Placed source t →
      t.span.stop ≤ f.span.start → Placed source f → Placed source (.choice c t f)

/-- The span of a phrase is part of the source and not empty. -/
theorem Phrase.Placed.covers {p : Phrase} (h : p.Placed source) : p.span.Covers source := by
  induction h with
  | atom hspan | list hspan | map hspan | call hspan => exact hspan
  | group _ ih => exact ih
  | sign hstart hle _ ih => exact ⟨Nat.lt_of_le_of_lt hle ih.nonempty, hstart, ih.stop⟩
  | field _ hle hstop ih =>
      exact ⟨Nat.lt_of_lt_of_le ih.nonempty hle, ih.start, hstop⟩
  | method _ hle _ _ hstop ih => exact ⟨Nat.lt_of_lt_of_le ih.nonempty hle, ih.start, hstop⟩
  | index _ hle _ hle' hstop ih ihposition =>
      have hnonempty := ih.nonempty
      have hposition := ihposition.nonempty
      refine ⟨?_, ih.start, hstop⟩
      simp only [Phrase.span]
      omega
  | infixed _ hle _ ihleft ihright =>
      have hleft := ihleft.nonempty
      have hright := ihright.nonempty
      refine ⟨?_, ihleft.start, ihright.stop⟩
      simp only [Phrase.span]
      omega
  | choice _ hle _ hle' _ ihc iht ihf =>
      have hc := ihc.nonempty
      have ht := iht.nonempty
      have hf := ihf.nonempty
      refine ⟨?_, ihc.start, ihf.stop⟩
      simp only [Phrase.span]
      omega

/-- The phrase has its span between two offsets, and its parts are in order. -/
structure Phrase.Lies (source : List Char) (lo : Nat) (p : Phrase) (hi : Nat) : Prop where
  placed : p.Placed source
  le_start : lo ≤ p.span.start
  stop_le : p.span.stop ≤ hi

/-- The phrases in a link have their spans between two offsets. -/
def Link.Lies (source : List Char) (lo : Nat) (link : Link) (hi : Nat) : Prop :=
  match link with
  | .op _ => True
  | .choice whenTrue => whenTrue.Lies source lo hi

/-- The phrases in a selection have their spans between two offsets, in front of its end. -/
def Selection.Lies (source : List Char) (lo : Nat) (selection : Selection) (hi : Nat) : Prop :=
  match selection with
  | .field _ stop => lo ≤ stop ∧ stop ≤ hi ∧ IsBoundary source stop
  | .method _ args stop => lo ≤ stop ∧ stop ≤ hi ∧ IsBoundary source stop ∧
      (⟨lo, stop⟩ : Span).Encloses (args.map Phrase.span) ∧ ∀ arg ∈ args, arg.Placed source
  | .index position stop => stop ≤ hi ∧ IsBoundary source stop ∧ position.Lies source lo stop

/-- Each element keeps to its own share of the offsets between two. -/
inductive InTurn {α : Type} (lies : Nat → α → Nat → Prop) : Nat → List α → Nat → Prop
  | nil {lo hi : Nat} : lo ≤ hi → InTurn lies lo [] hi
  | cons {lo start mid hi : Nat} {a : α} {rest : List α} : lo ≤ start → start ≤ mid →
      lies start a mid → InTurn lies mid rest hi → InTurn lies lo (a :: rest) hi

namespace InTurn

variable {α : Type} {lies : Nat → α → Nat → Prop} {xs : List α} {lo hi further : Nat}

theorem le (h : InTurn lies lo xs hi) : lo ≤ hi := by
  induction h with
  | nil hle => exact hle
  | cons hlo hmid _ _ ih => exact Nat.le_trans (Nat.le_trans hlo hmid) ih

theorem widen {less : Nat} (h : InTurn lies lo xs hi) (hless : less ≤ lo) (hle : hi ≤ further) :
    InTurn lies less xs further := by
  induction h generalizing less with
  | nil hlo => exact .nil (Nat.le_trans hless (Nat.le_trans hlo hle))
  | cons hlo hmid ha _ ih =>
      exact .cons (Nat.le_trans hless hlo) hmid ha (ih (Nat.le_refl _) hle)

/-- Phrases in turn have their spans in order. -/
theorem encloses {ps : List Phrase} (h : InTurn (Phrase.Lies source) lo ps hi) :
    (⟨lo, hi⟩ : Span).Encloses (ps.map Phrase.span) ∧ ∀ p ∈ ps, p.Placed source := by
  induction h with
  | nil => exact ⟨Span.encloses_nil _, nofun⟩
  | cons hlo hmid hp hrest ih =>
      have hle := hrest.le
      refine ⟨.cons ⟨Nat.le_trans hlo hp.le_start, hp.stop_le⟩ (Nat.le_refl _)
        (Nat.le_trans hlo hmid) (Nat.le_trans hp.stop_le hle) ih.1, ?_⟩
      exact List.forall_mem_cons.mpr ⟨hp.placed, ih.2⟩

/-- Entries in turn have the spans of their keys and values in order. -/
theorem encloses_entries {es : List (Phrase × Phrase)}
    (h : InTurn (fun lo e hi => ∃ mid, lo ≤ mid ∧ mid ≤ hi ∧ e.1.Lies source lo mid ∧
      e.2.Lies source mid hi) lo es hi) :
    (⟨lo, hi⟩ : Span).Encloses (es.flatMap fun e => [e.1.span, e.2.span]) ∧
      (∀ e ∈ es, e.1.Placed source) ∧ ∀ e ∈ es, e.2.Placed source := by
  induction h with
  | nil => exact ⟨Span.encloses_nil _, nofun, nofun⟩
  | cons hlo hmid hentry hrest ih =>
      obtain ⟨between, hle, hle', hkey, hvalue⟩ := hentry
      have hend := hrest.le
      have hvalues : Span.Encloses ⟨between, _⟩ _ :=
        .cons ⟨hvalue.le_start, hvalue.stop_le⟩ (Nat.le_refl _) hle'
          (Nat.le_trans hvalue.stop_le hend) ih.1
      refine ⟨.cons ⟨Nat.le_trans hlo hkey.le_start, hkey.stop_le⟩ (Nat.le_refl _)
        (Nat.le_trans hlo hle) ?_ hvalues, ?_, ?_⟩
      · exact Nat.le_trans hkey.stop_le (Nat.le_trans hle' hend)
      · exact List.forall_mem_cons.mpr ⟨hkey.placed, ih.2.1⟩
      · exact List.forall_mem_cons.mpr ⟨hvalue.placed, ih.2.2⟩

end InTurn

namespace Phrase

variable {lo mid hi : Nat}

theorem Lies.widen {p : Phrase} {less further : Nat} (h : p.Lies source lo hi) (hless : less ≤ lo)
    (hle : hi ≤ further) : p.Lies source less further :=
  ⟨h.placed, Nat.le_trans hless h.le_start, Nat.le_trans h.stop_le hle⟩

theorem Lies.select {target : Phrase} {selection : Selection} (h : target.Lies source lo mid)
    (hselection : selection.Lies source mid hi) : (target.select selection).Lies source lo hi := by
  have htarget := h.stop_le
  cases selection with
  | field name stop =>
      obtain ⟨hle, hhi, hstop⟩ := hselection
      exact ⟨.field h.placed (Nat.le_trans htarget hle) hstop, h.le_start, hhi⟩
  | method name args stop =>
      obtain ⟨hle, hhi, hstop, hargs, hplaced⟩ := hselection
      refine ⟨.method h.placed (Nat.le_trans htarget hle) ⟨fun s hs => ?_, hargs.ordered⟩ hplaced
        hstop, h.le_start, hhi⟩
      exact ⟨Nat.le_trans htarget (hargs.inside s hs).1, (hargs.inside s hs).2⟩
  | index position stop =>
      obtain ⟨hhi, hstop, hposition⟩ := hselection
      exact ⟨.index h.placed (Nat.le_trans htarget hposition.le_start) hposition.placed
        hposition.stop_le hstop, h.le_start, hhi⟩

theorem Lies.selectAll {target : Phrase} {selections : List Selection}
    (h : target.Lies source lo mid)
    (hselections : InTurn (Selection.Lies source) mid selections hi) :
    (selections.foldl Phrase.select target).Lies source lo hi := by
  induction hselections generalizing target with
  | nil hle => exact h.widen (Nat.le_refl _) hle
  | cons hlo _ hselection _ ih => exact ih ((h.widen (Nat.le_refl _) hlo).select hselection)

theorem Lies.signed {signs : List (Nat × UnaryOp)} {operand : Phrase}
    (hsigns : InTurn (fun lo s hi => lo ≤ s.1 ∧ s.1 ≤ hi ∧ IsBoundary source s.1) lo signs mid)
    (h : operand.Lies source mid hi) : (Phrase.signed signs operand).Lies source lo hi := by
  induction hsigns with
  | nil hle => exact h.widen hle (Nat.le_refl _)
  | cons hlo _ hsign _ ih =>
      obtain ⟨hle, hle', hstart⟩ := hsign
      have hinner := ih h
      exact ⟨.sign hstart (Nat.le_trans hle' hinner.le_start) hinner.placed,
        Nat.le_trans hlo hle, hinner.stop_le⟩

theorem span_attachOp (op : InfixOp) (right p : Phrase) :
    (attachOp op right p).span = ⟨p.span.start, right.span.stop⟩ := by
  fun_induction attachOp op right p with
  | case1 p left last hlevel ih => rw [span, ih]; rfl
  | case2 p left last hlevel => rfl
  | case3 c t f ih => rw [span, ih]; rfl
  | case4 p => rfl

theorem span_attachChoice (whenTrue right p : Phrase) :
    (attachChoice whenTrue right p).span = ⟨p.span.start, right.span.stop⟩ := by
  fun_induction attachChoice whenTrue right p with
  | case1 c t f ih => rw [span, ih]; rfl
  | case2 p => rfl

theorem Placed.attachOp {p right : Phrase} (op : InfixOp) (h : p.Placed source)
    (hle : p.span.stop ≤ right.span.start) (hright : right.Placed source) :
    (attachOp op right p).Placed source := by
  fun_induction Phrase.attachOp op right p with
  | case1 p left last hlevel ih =>
      cases h with
      | infixed hleft hmid hlast =>
          refine .infixed hleft ?_ (ih hlast hle)
          rw [span_attachOp]
          exact hmid
  | case2 p left last hlevel => exact .infixed h hle hright
  | case3 c t f ih =>
      cases h with
      | choice hc hct ht htf hf =>
          refine .choice hc hct ht ?_ (ih hf hle)
          rw [span_attachOp]
          exact htf
  | case4 p => exact .infixed h hle hright

theorem Placed.attachChoice {p whenTrue right : Phrase} (h : p.Placed source)
    (hle : p.span.stop ≤ whenTrue.span.start) (htrue : whenTrue.Placed source)
    (hle' : whenTrue.span.stop ≤ right.span.start) (hright : right.Placed source) :
    (attachChoice whenTrue right p).Placed source := by
  fun_induction Phrase.attachChoice whenTrue right p with
  | case1 c t f ih =>
      cases h with
      | choice hc hct ht htf hf =>
          refine .choice hc hct ht ?_ (ih hf hle)
          rw [span_attachChoice]
          exact htf
  | case2 p => exact .choice h hle htrue hle' hright

/-- A link and the operand behind it, one after the other. -/
def Linked (source : List Char) (lo : Nat) (l : Link × Phrase) (hi : Nat) : Prop :=
  ∃ mid, lo ≤ mid ∧ mid ≤ hi ∧ l.1.Lies source lo mid ∧ l.2.Lies source mid hi

theorem Lies.chain {first : Phrase} {links : List (Link × Phrase)} (h : first.Lies source lo mid)
    (hlinks : InTurn (Linked source) mid links hi) :
    (Phrase.chain first links).Lies source lo hi := by
  induction hlinks generalizing first with
  | nil hle => exact h.widen (Nat.le_refl _) hle
  | @cons _ start _ _ next _ hlo _ hnext _ ih =>
      obtain ⟨link, right⟩ := next
      obtain ⟨between, hbetween, -, hlink, hright⟩ := hnext
      refine ih ?_
      have hfirst := h.stop_le
      have hstart : between ≤ right.span.start := hright.le_start
      cases link with
      | op op =>
          refine ⟨.attachOp op h.placed (by omega) hright.placed, ?_, ?_⟩
          · exact (span_attachOp op right first).symm ▸ h.le_start
          · exact (span_attachOp op right first).symm ▸ hright.stop_le
      | choice whenTrue =>
          have hle : start ≤ whenTrue.span.start := hlink.le_start
          have hle' : whenTrue.span.stop ≤ between := hlink.stop_le
          refine ⟨.attachChoice h.placed (by omega) hlink.placed (by omega) hright.placed, ?_, ?_⟩
          · exact (span_attachChoice whenTrue right first).symm ▸ h.le_start
          · exact (span_attachChoice whenTrue right first).symm ▸ hright.stop_le

end Phrase

end Grammar

end EmbeddedExpr
