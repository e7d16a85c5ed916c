import EmbeddedExpr.Grammar.Reader
import EmbeddedExpr.Proofs.Grammar.Scanner

/-!
# Readers stay inside their source

A reader moves its cursor along one source, so the offset of the end of that source never
changes (`Cursor.stop`) and bounds every offset that a reader can note.  `Yields` says this of
a reader, together with what is known of its results; it is proved here combinator by
combinator.
-/

namespace EmbeddedExpr

/-- A span is within a limit if both its ends are. -/
def Span.Within (limit : Nat) (s : Span) : Prop := s.start ≤ limit ∧ s.stop ≤ limit

end EmbeddedExpr

namespace EmbeddedExpr.Grammar

/-- The offset of the end of the source that a cursor stands in. -/
def Cursor.stop (c : Cursor) : Nat := c.offset + Text.byteLength c.rest

theorem Cursor.offset_le_stop (c : Cursor) : c.offset ≤ c.stop := Nat.le_add_right _ _

theorem Cursor.stop_advance {c : Cursor} {taken rest : List Char} (h : taken ++ rest = c.rest) :
    (c.advance taken rest).stop = c.stop := by
  simp [Cursor.stop, Cursor.advance, ← h, Nat.add_assoc]

/-- Skipping layout is taking it. -/
theorem Cursor.skipFrom_eq_advance (inComment : Bool) (offset : Nat) (text : List Char) :
    ∃ skipped rest, skipped ++ rest = text ∧
      Cursor.skipFrom inComment offset text = (⟨offset, text⟩ : Cursor).advance skipped rest := by
  fun_induction Cursor.skipFrom inComment offset text with
  | case1 => exact ⟨[], [], rfl, rfl⟩
  | case2 inComment offset text ih =>
      obtain ⟨skipped, rest, rfl, hskip⟩ := ih
      refine ⟨'/' :: '/' :: skipped, rest, rfl, ?_⟩
      have hslash : '/'.utf8Size = 1 := rfl
      simp only [hskip, Cursor.advance, Text.byteLength_cons, hslash, Cursor.mk.injEq, and_true]
      omega
  | case3 offset c text _ ih =>
      obtain ⟨skipped, rest, rfl, hskip⟩ := ih
      refine ⟨c :: skipped, rest, rfl, ?_⟩
      simp only [hskip, Cursor.advance, Text.byteLength_cons, Nat.add_assoc]
  | case4 inComment offset c text _ _ hblank ih =>
      obtain ⟨skipped, rest, rfl, hskip⟩ := ih
      have hsize : c.utf8Size = 1 := by
        simp only [Cursor.isBlank, Bool.or_eq_true, beq_iff_eq] at hblank
        rcases hblank with ((rfl | rfl) | rfl) | rfl <;> rfl
      refine ⟨c :: skipped, rest, rfl, ?_⟩
      simp only [hskip, Cursor.advance, Text.byteLength_cons, hsize, Nat.add_assoc]
  | case5 => exact ⟨[], _, rfl, rfl⟩

theorem Cursor.stop_skipFrom (inComment : Bool) (offset : Nat) (text : List Char) :
    (Cursor.skipFrom inComment offset text).stop = offset + Text.byteLength text := by
  obtain ⟨skipped, rest, happend, hskip⟩ := Cursor.skipFrom_eq_advance inComment offset text
  rw [hskip, Cursor.stop_advance happend]
  rfl

/-! ### Readers -/

namespace Reader

variable {α β : Type} {stop : Nat}

/-- In a source that ends at `stop`, what a reader yields is as `good` says, and it stays
in the source. -/
def Yields (stop : Nat) (good : α → Prop) (r : Reader α) : Prop :=
  ∀ c a c', c.stop = stop → (r c).outcome = some (a, c') → c'.stop = stop ∧ good a

theorem Yields.mono {good better : α → Prop} {r : Reader α} (h : Yields stop good r)
    (himp : ∀ a, good a → better a) : Yields stop better r :=
  fun c a c' hc heq => ⟨(h c a c' hc heq).1, himp a (h c a c' hc heq).2⟩

theorem yields_pure {good : α → Prop} {a : α} (h : good a) :
    Yields stop good (pure a : Reader α) := by
  intro c b c' hc heq
  cases heq
  exact ⟨hc, h⟩

theorem yields_fail {good : α → Prop} : Yields stop good (fail : Reader α) := nofun

theorem Yields.bind {good : α → Prop} {better : β → Prop} {r : Reader α} {next : α → Reader β}
    (h : Yields stop good r) (hnext : ∀ a, good a → Yields stop better (next a)) :
    Yields stop better (r >>= next) := by
  intro c b c' hc heq
  change (Reader.andThen r next c).outcome = some (b, c') at heq
  simp only [Reader.andThen] at heq
  cases hfirst : (r c).outcome with
  | none => simp [hfirst] at heq
  | some pair =>
      obtain ⟨a, middle⟩ := pair
      simp only [hfirst] at heq
      obtain ⟨hmiddle, ha⟩ := h c a middle hc hfirst
      exact hnext a ha middle b c' hmiddle heq

theorem Yields.orElse {good : α → Prop} {p q : Reader α} (hp : Yields stop good p)
    (hq : Yields stop good q) : Yields stop good (Reader.orElse p q) := by
  intro c a c' hc heq
  simp only [Reader.orElse] at heq
  cases hfirst : (p c).outcome with
  | none =>
      simp only [hfirst] at heq
      exact hq c a c' hc heq
  | some pair =>
      simp only [hfirst] at heq
      exact hp c a c' hc (hfirst.trans heq)

theorem yields_oneOf {good : α → Prop} {readers : List (Reader α)}
    (h : ∀ r ∈ readers, Yields stop good r) : Yields stop good (oneOf readers) := by
  induction readers with
  | nil => exact yields_fail
  | cons r rest ih =>
      exact (h r (List.mem_cons_self ..)).orElse
        (ih fun other hother => h other (List.mem_cons_of_mem _ hother))

theorem Yields.optional {good : α → Prop} {r : Reader α} (h : Yields stop good r) :
    Yields stop (fun found => ∀ a ∈ found, good a) (Reader.optional r) := by
  refine Yields.orElse (h.bind fun a ha => yields_pure ?_) (yields_pure nofun)
  intro b hb
  cases hb
  exact ha

theorem yields_layout : Yields stop (fun _ => True) layout := by
  intro c a c' hc heq
  cases heq
  exact ⟨(Cursor.stop_skipFrom false c.offset c.rest).trans hc, trivial⟩

theorem yields_offset : Yields stop (· ≤ stop) offset := by
  intro c a c' hc heq
  cases heq
  exact ⟨hc, hc ▸ c.offset_le_stop⟩

theorem yields_expect (text : List Char) : Yields stop (fun _ => True) (expect text) := by
  intro c a c' hc heq
  unfold expect at heq
  split at heq
  · rename_i htext
    cases heq
    obtain ⟨tail, htail⟩ := List.isPrefixOf_iff_prefix.mp htext
    refine ⟨(Cursor.stop_advance ?_).trans hc, trivial⟩
    rw [← htail, List.drop_left]
  · cases heq

theorem yields_scan {scanner : Scanner α} (h : Scanner.Splits scanner) :
    Yields stop (fun _ => True) (scan scanner) := by
  intro c a c' hc heq
  unfold scan at heq
  split at heq
  · rename_i hscan
    cases heq
    exact ⟨(Cursor.stop_advance (h _ _ _ _ hscan)).trans hc, trivial⟩
  · cases heq

theorem Yields.tried {good : α → Prop} {r : Reader α} (h : Yields stop good r)
    (construct : Construct) : Yields stop good (Reader.tried construct r) := by
  intro c a c' hc heq
  simp only [Reader.tried] at heq
  cases hfirst : (r c).outcome with
  | none => simp [hfirst] at heq
  | some pair =>
      simp only [hfirst] at heq
      exact h c a c' hc (hfirst.trans heq)

theorem Yields.spanned {good : α → Prop} {r : Reader α} (h : Yields stop good r) :
    Yields stop (fun found => found.1.Within stop ∧ good found.2) (Reader.spanned r) :=
  yields_offset.bind fun _ hstart => h.bind fun _ ha => yields_offset.bind fun _ hstop =>
    yields_pure ⟨⟨hstart, hstop⟩, ha⟩

theorem Yields.following {good : α → Prop} {r : Reader α} (h : Yields stop good r)
    (fuel : Nat) :
    Yields stop (fun found => (∀ a ∈ found, good a) ∧ found.length ≤ fuel)
      (Reader.following r fuel) := by
  induction fuel with
  | zero => exact yields_pure ⟨nofun, Nat.le_refl 0⟩
  | succ fuel ih =>
      refine Yields.orElse ?_ (yields_pure ⟨nofun, Nat.zero_le _⟩)
      refine yields_layout.bind fun _ _ => h.bind fun a ha => ih.bind fun more hmore => ?_
      exact yields_pure ⟨List.forall_mem_cons.mpr ⟨ha, hmore.1⟩, Nat.succ_le_succ hmore.2⟩

theorem Yields.many {good : α → Prop} {r : Reader α} (h : Yields stop good r) (fuel : Nat) :
    Yields stop (fun found => (∀ a ∈ found, good a) ∧ found.length ≤ fuel + 1)
      (Reader.many r fuel) := by
  refine Yields.orElse ?_ (yields_pure ⟨nofun, Nat.zero_le _⟩)
  refine h.bind fun a ha => (h.following fuel).bind fun more hmore => ?_
  exact yields_pure ⟨List.forall_mem_cons.mpr ⟨ha, hmore.1⟩, Nat.succ_le_succ hmore.2⟩

end Reader

end EmbeddedExpr.Grammar
