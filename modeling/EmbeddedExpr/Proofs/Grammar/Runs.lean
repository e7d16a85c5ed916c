import EmbeddedExpr.Proofs.Grammar.Balance
import EmbeddedExpr.Proofs.Grammar.Spelling
import EmbeddedExpr.Proofs.Grammar.Tracking

/-!
# Runs of lexemes

Between two places of a source there may stand a run of lexemes (`Cursor.Run`).  Cut out of the
source, its characters are the same lexemes (`Cursor.Run.exists_slice`): a lexeme ends where its
scanner says, and what is cut off behind a run does not go on with its last one.

A spelled phrase is a run in which every bracket is closed by its counterpart.  The span of the
phrase leaves out parentheses at its ends, one of a pair without the other; so the brackets between
its ends are matched just where none of the phrase is left out (`Phrase.Spelled.trims_span`).
-/

namespace EmbeddedExpr.Grammar

open Scanner (lexeme Ends)

/-! ### The lexemes of a text -/

/-- The text consists of the lexemes, with layout in front of each and behind the last. -/
inductive Lexed : List Char → List Lexeme → Prop
  | nil {text : List Char} : behindLayout text = [] → Lexed text []
  | cons {text rest : List Char} {x : Lexeme} {xs : List Lexeme} :
      lexeme (behindLayout text) = some (x, rest) → Lexed rest xs → Lexed text (x :: xs)

/-- The brackets that are open behind the lexemes, if each one closes only the last. -/
def Lexeme.nestAll? (brackets : List Char) (xs : List Lexeme) : Option (List Char) :=
  xs.foldlM (fun brackets x => x.nest? brackets) brackets

/-- Every bracket in the text is closed by its counterpart. -/
def Matched (text : List Char) : Prop := ∃ xs, Lexed text xs ∧ Lexeme.nestAll? [] xs = some []

section Texts

variable {text text' : List Char} {xs ys : List Lexeme} {stage : Stage} {brackets : List Char}

theorem Lexed.congr (h : Lexed text xs) (heq : behindLayout text' = behindLayout text) :
    Lexed text' xs := by
  cases h with
  | nil hend => exact .nil (heq.trans hend)
  | cons hlexeme hrest => exact .cons (heq ▸ hlexeme) hrest

theorem lexeme_nil : lexeme [] = none := rfl

theorem Lexed.unique (h : Lexed text xs) (h' : Lexed text ys) : xs = ys := by
  induction h generalizing ys with
  | nil hend =>
      cases h' with
      | nil => rfl
      | cons hlexeme => rw [hend, lexeme_nil] at hlexeme; cases hlexeme
  | cons hlexeme _ ih =>
      cases h' with
      | nil hend => rw [hend, lexeme_nil] at hlexeme; cases hlexeme
      | cons hlexeme' hrest' =>
          rw [hlexeme] at hlexeme'
          cases hlexeme'
          rw [ih hrest']

theorem Laid.lexed (h : Laid stage brackets text xs) : Lexed text xs := by
  induction h with
  | nil hend => exact .nil hend
  | cons hlexeme _ _ _ ih => exact .cons hlexeme ih

theorem Laid.of_lexed (h : Laid stage brackets text xs) (h' : Lexed text' xs) :
    Laid stage brackets text' xs := by
  induction h generalizing text' with
  | nil =>
      cases h' with
      | nil hend => exact .nil hend
  | cons _ hadmits hnest _ ih =>
      cases h' with
      | cons hlexeme hrest => exact .cons hlexeme hadmits hnest (ih hrest)

theorem Laid.nestAll?_eq (h : Laid stage brackets text xs) :
    Lexeme.nestAll? brackets xs = some [] := by
  induction h with
  | nil => rfl
  | cons _ _ hnest _ ih =>
      rw [Lexeme.nestAll?, List.foldlM_cons, hnest]
      exact ih

theorem Laid.matched (h : Laid stage [] text xs) : Matched text := ⟨xs, h.lexed, h.nestAll?_eq⟩

end Texts

/-! ### Texts cut short -/

section Short

variable {before after : List Char}

theorem Scanner.Ends.of_append (h : Ends (before ++ after)) : Ends before := by
  have hhead {text : List Char} : ∀ c ∈ text.head?, c ∈ (text ++ after).head? := by
    intro c hc
    rw [List.head?_append, hc]
    rfl
  refine ⟨fun c hc => h.head c (hhead c hc), ?_⟩
  unfold Scanner.fraction
  split
  · rename_i rest
    have hdigits := Option.map_eq_none_iff.mp (show (Scanner.digits (rest ++ after)).map _ = none
      from h.fraction)
    rw [Scanner.digits_eq_none_iff.mpr fun c hc =>
      Scanner.digits_eq_none_iff.mp hdigits c (hhead c hc), Option.map_none]
  · rfl

/-- A lexeme stays what it is if a text is cut short behind it. -/
theorem Scanner.lexeme_short {x : Lexeme} {text : List Char}
    (h : lexeme text = some (x, before ++ after))
    (hends : (∀ m, x ≠ .mark m) → Ends (before ++ after)) :
    lexeme (x.text ++ before) = some (x, before) := by
  refine lexeme_continued h (fun c hc => .inl ?_) fun hx => (hends hx).of_append
  rw [List.head?_append, hc]
  rfl

theorem skipFrom_short (inComment : Bool) (offset : Nat) (text : List Char) :
    ∃ skipped, text = skipped ++ (Cursor.skipFrom inComment offset text).rest ∧
      ∀ before after, (Cursor.skipFrom inComment offset text).rest = before ++ after →
        ∀ offset', (Cursor.skipFrom inComment offset' (skipped ++ before)).rest =
          behindLayout before := by
  fun_induction Cursor.skipFrom inComment offset text with
  | case1 inComment offset =>
      refine ⟨[], rfl, fun before after heq offset' => ?_⟩
      obtain ⟨rfl, rfl⟩ := List.append_eq_nil_iff.mp heq.symm
      rfl
  | case2 inComment offset rest ih =>
      obtain ⟨skipped, hrest, hshort⟩ := ih
      refine ⟨'/' :: '/' :: skipped, ?_, fun before after heq _ => hshort before after heq _⟩
      rw [List.cons_append, List.cons_append, ← hrest]
  | case3 offset c rest hslash ih =>
      obtain ⟨skipped, hrest, hshort⟩ := ih
      refine ⟨c :: skipped, by rw [List.cons_append, ← hrest], fun before after heq offset' => ?_⟩
      rw [List.cons_append, Cursor.skipFrom, if_pos rfl]
      · exact hshort before after heq _
      · -- two slashes would stand in the whole text as well
        intro more hc hmore
        refine hslash (more ++ after) hc ?_
        rw [hrest, heq, ← List.append_assoc, hmore, List.cons_append]
  | case4 inComment offset c rest hslash hcomment hblank ih =>
      obtain ⟨skipped, hrest, hshort⟩ := ih
      refine ⟨c :: skipped, by rw [List.cons_append, ← hrest], fun before after heq offset' => ?_⟩
      rw [List.cons_append, Cursor.skipFrom, if_neg hcomment, if_pos hblank]
      · exact hshort before after heq _
      · intro more hc hmore
        refine hslash (more ++ after) hc ?_
        rw [hrest, heq, ← List.append_assoc, hmore, List.cons_append]
  | case5 inComment offset c rest hslash hcomment hblank =>
      obtain rfl := Bool.eq_false_iff.mpr hcomment
      exact ⟨[], rfl, fun before after _ offset' => Cursor.rest_skipFrom _ _ _ _⟩

/-- The layout in front of a text is in front of what the text is cut short to. -/
theorem behindLayout_short {skipped : List Char}
    (h : behindLayout (skipped ++ (before ++ after)) = before ++ after) :
    behindLayout (skipped ++ before) = behindLayout before := by
  obtain ⟨skipped', heq, hshort⟩ := skipFrom_short false 0 (skipped ++ (before ++ after))
  have hrest : (Cursor.skipFrom false 0 (skipped ++ (before ++ after))).rest = before ++ after := h
  rw [hrest] at heq
  obtain rfl := List.append_cancel_right heq
  exact hshort before after hrest 0

end Short

/-! ### Runs in a source -/

namespace Cursor

/-- The lexemes that stand between two places, one behind the other. -/
inductive Run : Cursor → List Lexeme → Cursor → Prop
  | nil (c : Cursor) : Run c [] c
  | layout {c d : Cursor} {xs : List Lexeme} : Run c.skip xs d → Run c xs d
  | cons {c d e : Cursor} {x : Lexeme} {xs : List Lexeme} : c.Next x d → Run d xs e →
      Run c (x :: xs) e

variable {c d e : Cursor} {x : Lexeme} {xs ys : List Lexeme} {source : List Char}

theorem Next.run (h : c.Next x d) : c.Run [x] d := .cons h (.nil d)

theorem Next.run_skip (h : c.Next x d) : c.Run [x] d.skip := .cons h (.layout (.nil _))

theorem Run.append (h : c.Run xs d) (h' : d.Run ys e) : c.Run (xs ++ ys) e := by
  induction h with
  | nil => exact h'
  | layout _ ih => exact .layout (ih h')
  | cons hx _ ih => exact .cons hx (ih h')

/-- Layout in front of a text that stands behind the cursor is skipped in front of the text alone
as well. -/
theorem exists_skipped {text after : List Char} (h : c.skip.rest = text ++ after) :
    ∃ skipped, c.rest = skipped ++ (text ++ after) ∧
      c.skip.offset = c.offset + Text.byteLength skipped ∧
      behindLayout (skipped ++ text) = behindLayout text := by
  obtain ⟨skipped, rest, happend, heq⟩ := skipFrom_eq_advance false c.offset c.rest
  obtain rfl : rest = text ++ after := by
    rw [← h, skip, heq]
    rfl
  refine ⟨skipped, happend.symm, by rw [skip, heq]; rfl, ?_⟩
  have hbehind : behindLayout (skipped ++ (text ++ after)) = text ++ after := by
    rw [happend, ← c.rest_skip, h]
  exact behindLayout_short hbehind

theorem Run.exists_next (h : c.Run xs d) (hx : x ∈ xs) : ∃ e f : Cursor, e.Next x f := by
  induction h with
  | nil => cases hx
  | layout _ ih => exact ih hx
  | cons hnext _ ih =>
      rcases List.mem_cons.mp hx with rfl | hrest
      · exact ⟨_, _, hnext⟩
      · exact ih hrest

/-- The characters of a run are its lexemes. -/
theorem Run.exists_slice (h : c.Run xs d) : ∃ text, c.rest = text ++ d.rest ∧
    d.offset = c.offset + Text.byteLength text ∧ Lexed text xs := by
  have hskip {c d : Cursor} {text : List Char} {xs : List Lexeme}
      (hrest : c.skip.rest = text ++ d.rest)
      (hoffset : d.offset = c.skip.offset + Text.byteLength text) (htext : Lexed text xs) :
      ∃ text, c.rest = text ++ d.rest ∧ d.offset = c.offset + Text.byteLength text ∧
        Lexed text xs := by
    obtain ⟨skipped, hskipped, hstart, hbehind⟩ := exists_skipped hrest
    refine ⟨skipped ++ text, by rw [List.append_assoc, hskipped], ?_, htext.congr hbehind⟩
    rw [hoffset, hstart, Text.byteLength_append, Nat.add_assoc]
  induction h with
  | nil c => exact ⟨[], rfl, rfl, .nil rfl⟩
  | layout _ ih =>
      obtain ⟨text, hrest, hoffset, htext⟩ := ih
      exact hskip hrest hoffset htext
  | @cons c d e x xs hx _ ih =>
      obtain ⟨text, hrest, hoffset, htext⟩ := ih
      have happend := Scanner.append_of_lexeme hx.lexeme_eq
      have hlexeme := hx.lexeme_eq
      rw [hrest] at hlexeme
      have hshort := Scanner.lexeme_short hlexeme fun hmark => hrest ▸ hx.ends hmark
      have htaken : Lexed (x.text ++ text) (x :: xs) :=
        .cons (by rw [settled_of_lexeme hshort, hshort]) htext
      refine hskip ?_ ?_ htaken
      · rw [← happend, hrest, List.append_assoc]
      · rw [hoffset, hx.offset_eq, Text.byteLength_append, Nat.add_assoc]

theorem Run.isIn (h : c.Run xs d) (hc : c.In source) : d.In source := by
  obtain ⟨text, hrest, hoffset, -⟩ := h.exists_slice
  obtain ⟨before, hsource, hbefore⟩ := hc
  refine ⟨before ++ text, ?_, ?_⟩
  · rw [hsource, hrest, List.append_assoc]
  · rw [hoffset, hbefore, Text.byteLength_append]

theorem In.skip (h : c.In source) : c.skip.In source := Run.isIn (.layout (.nil c.skip)) h

end Cursor

/-- A run to the end of a text is all of its lexemes. -/
theorem Lexed.of_run {c d : Cursor} {xs : List Lexeme} (h : c.Run xs d)
    (hend : behindLayout d.rest = []) : Lexed c.rest xs := by
  induction h with
  | nil => exact .nil hend
  | layout _ ih => exact (ih hend).congr (by rw [Cursor.rest_skip, behindLayout_behindLayout])
  | @cons c d e x xs hx _ ih =>
      refine .cons ?_ (ih hend)
      rw [← Cursor.rest_skip]
      exact hx.lexeme_eq

/-! ### Matched brackets -/

namespace Lexeme

variable {xs ys : List Lexeme} {x : Lexeme} {brackets : List Char}

theorem nestAll?_append (brackets : List Char) (xs ys : List Lexeme) :
    nestAll? brackets (xs ++ ys) = (nestAll? brackets xs).bind fun nested => nestAll? nested ys :=
  List.foldlM_append

theorem nestAll?_cons (brackets : List Char) (x : Lexeme) (xs : List Lexeme) :
    nestAll? brackets (x :: xs) = (x.nest? brackets).bind fun nested => nestAll? nested xs :=
  List.foldlM_cons

/-- The lexemes close all brackets that they open, and no others. -/
def Closed (xs : List Lexeme) : Prop := ∀ brackets, nestAll? brackets xs = some brackets

theorem closed_nil : Closed [] := fun _ => rfl

theorem Closed.append (h : Closed xs) (h' : Closed ys) : Closed (xs ++ ys) := by
  intro brackets
  rw [nestAll?_append, h brackets]
  exact h' brackets

theorem Closed.cons (hx : ∀ brackets, x.nest? brackets = some brackets) (h : Closed xs) :
    Closed (x :: xs) := by
  intro brackets
  rw [nestAll?_cons, hx brackets]
  exact h brackets

theorem nest?_opening {opening closing : Char} (h : Nesting.opening? closing = some opening)
    (brackets : List Char) : (mark [opening]).nest? brackets = some (opening :: brackets) :=
  if_pos (Nesting.brackets_spec h).1

theorem nest?_closing {opening closing : Char} (h : Nesting.opening? closing = some opening)
    (brackets : List Char) :
    (mark [closing]).nest? (opening :: brackets) = some brackets := by
  simp [nest?, (Nesting.brackets_spec h).2.1, h]

theorem Closed.enclosed {opening closing : Char} (h : Closed xs)
    (hclosing : Nesting.opening? closing = some opening) :
    Closed (mark [opening] :: (xs ++ [mark [closing]])) := by
  intro brackets
  rw [nestAll?_cons, nest?_opening hclosing, Option.bind_some, nestAll?_append, h, Option.bind_some,
    nestAll?_cons, nest?_closing hclosing]
  rfl

theorem nest?_infix (op : InfixOp) (brackets : List Char) :
    (mark op.symbol).nest? brackets = some brackets := by
  cases op with
  | logic op | relation op | arith op => cases op <;> rfl

theorem nest?_sign (op : UnaryOp) (brackets : List Char) :
    (mark op.symbol.toList).nest? brackets = some brackets := by
  cases op <;> rfl

theorem nest?_token {token : Token} (hx : x.token? = some token) (brackets : List Char) :
    x.nest? brackets = some brackets := by
  cases x with
  | literal | name => rfl
  | mark => cases hx

end Lexeme

/-! ### Runs of phrases -/

open Cursor (Run)
open Lexeme (Closed nestAll? nestAll?_cons nestAll?_append)

section Rows

variable {α : Type} {pieces : List (Piece α)} {x : Lexeme} {xs : List Lexeme} {c d : Cursor}
  {opening closing : Char}

theorem Row.run (h : Row pieces c xs d)
    (hpieces : ∀ piece ∈ pieces, piece.start.Run piece.lexemes piece.stop) :
    c.Run xs d ∧ ∀ piece ∈ pieces, ∃ ys, c.Run ys piece.start := by
  induction h with
  | nil c => exact ⟨.nil c, nofun⟩
  | last piece =>
      exact ⟨hpieces piece (List.mem_singleton.mpr rfl),
        List.forall_mem_singleton.mpr ⟨[], .nil _⟩⟩
  | cons hcomma _ ih =>
      obtain ⟨hpiece, hpieces⟩ := List.forall_mem_cons.mp hpieces
      obtain ⟨hrun, hstarts⟩ := ih hpieces
      refine ⟨hpiece.append (.cons hcomma (.layout hrun)),
        List.forall_mem_cons.mpr ⟨⟨[], .nil _⟩, fun piece hmem => ?_⟩⟩
      obtain ⟨ys, hys⟩ := hstarts piece hmem
      exact ⟨_, hpiece.append (.cons hcomma (.layout hys))⟩

theorem Boxed.run (h : Boxed opening closing pieces c xs d)
    (hpieces : ∀ piece ∈ pieces, piece.start.Run piece.lexemes piece.stop) :
    c.Run xs d ∧ ∀ piece ∈ pieces, ∃ ys, c.Run ys piece.start := by
  obtain ⟨hfirst, hrow, hlast⟩ := h
  obtain ⟨hrun, hstarts⟩ := hrow.run hpieces
  refine ⟨.cons hfirst (.layout (hrun.append hlast.run)), fun piece hmem => ?_⟩
  obtain ⟨ys, hys⟩ := hstarts piece hmem
  exact ⟨_, .cons hfirst (.layout hys)⟩

theorem Row.mem_lexemes (h : Row pieces c xs d) (hx : x ∈ xs) :
    x = .mark [','] ∨ ∃ piece ∈ pieces, x ∈ piece.lexemes := by
  induction h with
  | nil => cases hx
  | last piece => exact .inr ⟨piece, List.mem_singleton.mpr rfl, hx⟩
  | @cons piece _ _ _ _ _ _ ih =>
      rcases List.mem_append.mp hx with hpiece | hrest
      · exact .inr ⟨piece, List.mem_cons_self, hpiece⟩
      rcases List.mem_cons.mp hrest with rfl | hrest
      · exact .inl rfl
      · exact (ih hrest).imp_right fun ⟨piece, hmem, hin⟩ =>
          ⟨piece, List.mem_cons_of_mem _ hmem, hin⟩

/-- What is no mark stands in one of the pieces. -/
theorem Boxed.mem_lexemes (h : Boxed opening closing pieces c xs d) (hx : x ∈ xs)
    (hmark : ∀ m, x ≠ .mark m) : ∃ piece ∈ pieces, x ∈ piece.lexemes := by
  obtain ⟨-, hrow, -⟩ := h
  rcases List.mem_cons.mp hx with rfl | hx
  · exact absurd rfl (hmark _)
  rcases List.mem_append.mp hx with hx | hx
  · exact (hrow.mem_lexemes hx).resolve_left (hmark _)
  · exact absurd (List.mem_singleton.mp hx) (hmark _)

/-- A key, the colon behind it and the value are one run. -/
theorem Piece.run_entry {β : Type} {entry : Piece α × Piece β}
    (hcolon : ∃ f, entry.1.stop.Next (.mark [':']) f ∧ entry.2.start = f.skip)
    (hkey : entry.1.start.Run entry.1.lexemes entry.1.stop)
    (hvalue : entry.2.start.Run entry.2.lexemes entry.2.stop) :
    (Piece.entry entry).start.Run (Piece.entry entry).lexemes (Piece.entry entry).stop ∧
      ∃ ys, entry.1.start.Run ys entry.2.start := by
  obtain ⟨f, hnext, hstart⟩ := hcolon
  rw [hstart] at hvalue ⊢
  exact ⟨hkey.append (.cons hnext (.layout hvalue)), _, hkey.append hnext.run_skip⟩

theorem Row.closed (h : Row pieces c xs d) (hpieces : ∀ piece ∈ pieces, Closed piece.lexemes) :
    Closed xs := by
  induction h with
  | nil => exact Lexeme.closed_nil
  | last piece => exact hpieces piece (List.mem_singleton.mpr rfl)
  | cons _ _ ih =>
      obtain ⟨hpiece, hpieces⟩ := List.forall_mem_cons.mp hpieces
      exact hpiece.append (.cons (fun _ => rfl) (ih hpieces))

theorem Boxed.closed (h : Boxed opening closing pieces c xs d)
    (hclosing : Nesting.opening? closing = some opening)
    (hpieces : ∀ piece ∈ pieces, Closed piece.lexemes) : Closed xs := by
  obtain ⟨-, hrow, -⟩ := h
  exact (hrow.closed hpieces).enclosed hclosing

end Rows

/-! ### What spans leave out -/

/-- The offset is that of the first lexeme of the run, or of a later one behind parentheses.  Then
a bracket closes in the rest of the run that is not opened there. -/
def OpensAt (start : Nat) (c : Cursor) (xs : List Lexeme) (d : Cursor) : Prop :=
  ∃ skipped c' ys, c.Run skipped c' ∧ (∀ x ∈ skipped, x = .mark ['(']) ∧ c'.Run ys d ∧
    start = c'.skip.offset ∧ (c' = c ∧ ys = xs ∨ nestAll? [] ys = none)

/-- The offset is that behind the run, or behind an earlier lexeme in front of parentheses.  Then a
parenthesis is open there that was not open before the run. -/
def StopsAt (stop : Nat) (c : Cursor) (xs : List Lexeme) (d : Cursor) : Prop :=
  ∃ ys d' left, c.Run ys d' ∧ d'.Run left d ∧ (∀ x ∈ left, x = .mark [')']) ∧ stop = d'.offset ∧
    (ys = xs ∧ d' = d ∨ ∀ brackets, ∃ nested, nestAll? brackets ys = some ('(' :: nested))

/-- The span is that of a part of the run, which leaves out parentheses only.  Every bracket in the
part is closed by its counterpart just if it is the whole run. -/
def Trims (span : Span) (c : Cursor) (xs : List Lexeme) (d : Cursor) : Prop :=
  ∃ skipped c' ys d' left, (c.Run skipped c' ∧ ∀ x ∈ skipped, x = .mark ['(']) ∧ c'.Run ys d' ∧
    (d'.Run left d ∧ ∀ x ∈ left, x = .mark [')']) ∧ span = ⟨c'.skip.offset, d'.offset⟩ ∧
      (nestAll? [] ys = some [] → c' = c ∧ ys = xs ∧ d' = d)

section Ends

variable {offset : Nat} {xs ys : List Lexeme} {c d e f : Cursor}

theorem OpensAt.whole (h : c.Run xs d) (hstart : offset = c.skip.offset) :
    OpensAt offset c xs d :=
  ⟨[], c, xs, .nil c, List.forall_mem_nil _, h, hstart, .inl ⟨rfl, rfl⟩⟩

theorem OpensAt.append (h : OpensAt offset c xs d) (hmore : d.Run ys e) :
    OpensAt offset c (xs ++ ys) e := by
  obtain ⟨skipped, c', zs, hskipped, hmarks, hrun, hstart, hends⟩ := h
  refine ⟨skipped, c', zs ++ ys, hskipped, hmarks, hrun.append hmore, hstart, ?_⟩
  rcases hends with ⟨rfl, rfl⟩ | hnone
  · exact .inl ⟨rfl, rfl⟩
  · exact .inr (by rw [nestAll?_append, hnone]; rfl)

theorem OpensAt.parenthesized (h : OpensAt offset d.skip xs e) (hfirst : c.Next (.mark ['(']) d)
    (hclosed : Closed xs) (hlast : e.Next (.mark [')']) f) :
    OpensAt offset c (.mark ['('] :: (xs ++ [.mark [')']])) f := by
  obtain ⟨skipped, c', ys, hskipped, hmarks, hrun, hstart, hends⟩ := h
  refine ⟨_, c', ys ++ [.mark [')']], .cons hfirst (.layout hskipped),
    List.forall_mem_cons.mpr ⟨rfl, hmarks⟩, hrun.append hlast.run, hstart, .inr ?_⟩
  rw [nestAll?_append]
  rcases hends with ⟨-, rfl⟩ | hnone
  · rw [hclosed]
    rfl
  · rw [hnone]
    rfl

theorem StopsAt.whole (h : c.Run xs d) (hstop : offset = d.offset) : StopsAt offset c xs d :=
  ⟨xs, d, [], h, .nil d, List.forall_mem_nil _, hstop, .inl ⟨rfl, rfl⟩⟩

theorem StopsAt.prepend (h : StopsAt offset d ys e) (hrun : c.Run xs d) (hclosed : Closed xs) :
    StopsAt offset c (xs ++ ys) e := by
  obtain ⟨zs, e', left, hzs, hleft, hmarks, hstop, hends⟩ := h
  refine ⟨xs ++ zs, e', left, hrun.append hzs, hleft, hmarks, hstop, ?_⟩
  rcases hends with ⟨rfl, rfl⟩ | hopen
  · exact .inl ⟨rfl, rfl⟩
  · right
    intro brackets
    rw [nestAll?_append, hclosed]
    exact hopen brackets

theorem StopsAt.parenthesized (h : StopsAt offset d.skip xs e) (hfirst : c.Next (.mark ['(']) d)
    (hclosed : Closed xs) (hlast : e.Next (.mark [')']) f) :
    StopsAt offset c (.mark ['('] :: (xs ++ [.mark [')']])) f := by
  obtain ⟨ys, e', left, hys, hleft, hmarks, hstop, hends⟩ := h
  refine ⟨.mark ['('] :: ys, e', left ++ [.mark [')']], .cons hfirst (.layout hys),
    hleft.append hlast.run, List.forall_mem_append.mpr ⟨hmarks, List.forall_mem_singleton.mpr rfl⟩,
    hstop, .inr ?_⟩
  intro brackets
  rw [nestAll?_cons, show (Lexeme.mark ['(']).nest? brackets = some ('(' :: brackets) from rfl,
    Option.bind_some]
  rcases hends with ⟨rfl, -⟩ | hopen
  · exact ⟨brackets, hclosed _⟩
  · exact hopen _

theorem Trims.whole (h : c.Run xs d) : Trims ⟨c.skip.offset, d.offset⟩ c xs d :=
  ⟨[], c, xs, d, [], ⟨.nil c, List.forall_mem_nil _⟩, h, ⟨.nil d, List.forall_mem_nil _⟩, rfl,
    fun _ => ⟨rfl, rfl, rfl⟩⟩

/-- A part in which brackets are matched begins with the first run and ends with the last. -/
theorem OpensAt.trims {stop : Nat} {zs : List Lexeme} (h : OpensAt offset c xs d)
    (hclosed : Closed xs) (hmiddle : d.Run ys e) (hclosed' : Closed ys) (h' : StopsAt stop e zs f) :
    Trims ⟨offset, stop⟩ c (xs ++ (ys ++ zs)) f := by
  obtain ⟨skipped, c', front, hskipped, hmarks, hfront, rfl, hstart⟩ := h
  obtain ⟨back, f', left, hback, hleft, hmarks', rfl, hstop⟩ := h'
  refine ⟨skipped, c', front ++ (ys ++ back), f', left, ⟨hskipped, hmarks⟩,
    hfront.append (hmiddle.append hback), ⟨hleft, hmarks'⟩, rfl, ?_⟩
  intro hmatched
  rw [nestAll?_append] at hmatched
  rcases hstart with ⟨rfl, rfl⟩ | hnone
  · rw [hclosed, Option.bind_some, nestAll?_append, hclosed', Option.bind_some] at hmatched
    rcases hstop with ⟨rfl, rfl⟩ | hopen
    · exact ⟨rfl, rfl, rfl⟩
    · obtain ⟨nested, hnested⟩ := hopen []
      cases hnested.symm.trans hmatched
  · -- the bracket that is not opened in the front keeps the part from being matched
    rw [hnone] at hmatched
    cases hmatched

end Ends

namespace Phrase.Spelled

variable {p : Phrase} {xs : List Lexeme} {c d : Cursor}

theorem run (h : p.Spelled c xs d) : c.Run xs d := by
  induction h with
  | atom hx => exact hx.run
  | group hfirst _ hlast ih => exact .cons hfirst (.layout (ih.append hlast.run))
  | list hboxed _ ih => exact (hboxed.run ih).1
  | map hboxed hcolons _ _ ihkey ihvalue =>
      refine (hboxed.run (List.forall_mem_map.mpr fun e he => ?_)).1
      exact (Piece.run_entry (hcolons e he) (ihkey e he) (ihvalue e he)).1
  | call hname hboxed _ ih => exact .cons hname (.layout (hboxed.run ih).1)
  | sign hsign _ _ ih => exact .cons hsign (.layout ih)
  | field _ _ hpoint hname ih =>
      exact ih.append (.cons hpoint (.cons hname (.layout (.nil _))))
  | method _ _ hpoint hname hboxed _ ih ihargs =>
      exact ih.append (.cons hpoint (.cons hname (.layout (hboxed.run ihargs).1)))
  | index _ _ hfirst _ hlast ih ihposition =>
      exact ih.append (.cons hfirst (.layout (ihposition.append hlast.run)))
  | infixed _ hop _ _ _ ihleft ihright => exact ihleft.append (.cons hop (.layout ihright))
  | choice _ hquestion _ hcolon _ _ ihc iht ihf =>
      exact ihc.append (.cons hquestion (.layout (iht.append (.cons hcolon (.layout ihf)))))

theorem closed (h : p.Spelled c xs d) : Closed xs := by
  induction h with
  | atom _ htoken => exact .cons (Lexeme.nest?_token htoken) Lexeme.closed_nil
  | group _ _ _ ih => exact ih.enclosed rfl
  | list hboxed _ ih => exact hboxed.closed rfl ih
  | map hboxed _ _ _ ihkey ihvalue =>
      exact hboxed.closed rfl (List.forall_mem_map.mpr fun e he =>
        (ihkey e he).append (.cons (fun _ => rfl) (ihvalue e he)))
  | call _ hboxed _ ih => exact .cons (fun _ => rfl) (hboxed.closed rfl ih)
  | @sign op _ _ _ _ _ _ _ _ ih => exact .cons (Lexeme.nest?_sign op) ih
  | field _ _ _ _ ih =>
      exact ih.append (.cons (fun _ => rfl) (.cons (fun _ => rfl) Lexeme.closed_nil))
  | method _ _ _ _ hboxed _ ih ihargs =>
      exact ih.append (.cons (fun _ => rfl) (.cons (fun _ => rfl) (hboxed.closed rfl ihargs)))
  | index _ _ _ _ _ ih ihposition => exact ih.append (ihposition.enclosed rfl)
  | @infixed op _ _ _ _ _ _ _ _ _ _ _ _ _ ihleft ihright =>
      exact ihleft.append (.cons (Lexeme.nest?_infix op) ihright)
  | choice _ _ _ _ _ _ ihc iht ihf =>
      exact ihc.append (.cons (fun _ => rfl) (iht.append (.cons (fun _ => rfl) ihf)))

/-- What stands between the condition of a choice and its last branch. -/
theorem between {e f g : Cursor} (h : p.Spelled e.skip xs f) (hquestion : c.Next (.mark ['?']) e)
    (hcolon : f.Next (.mark [':']) g) :
    c.Run (.mark ['?'] :: (xs ++ [.mark [':']])) g.skip ∧
      Closed (.mark ['?'] :: (xs ++ [.mark [':']])) :=
  ⟨.cons hquestion (.layout (h.run.append hcolon.run_skip)),
    .cons (fun _ => rfl) (h.closed.append (.cons (fun _ => rfl) Lexeme.closed_nil))⟩

/-- The span of a phrase begins with the phrase, or behind a parenthesis.  Then one closes behind
it that was opened before. -/
theorem opensAt_start (h : p.Spelled c xs d) : OpensAt p.span.start c xs d := by
  induction h with
  | atom hx htoken => exact .whole (run (.atom hx htoken)) rfl
  | list hboxed hitems => exact .whole (run (.list hboxed hitems)) rfl
  | map hboxed hcolons hkeys hvalues => exact .whole (run (.map hboxed hcolons hkeys hvalues)) rfl
  | call hname hboxed hargs => exact .whole (run (.call hname hboxed hargs)) rfl
  | sign hsign hoperand hlevel => exact .whole (run (.sign hsign hoperand hlevel)) rfl
  | group hfirst hinner hlast ih => exact ih.parenthesized hfirst hinner.closed hlast
  | field _ _ hpoint hname ih => exact ih.append (.cons hpoint (hname.run_skip))
  | method _ _ hpoint hname hboxed hargs ih =>
      have hrun := (hboxed.run fun arg harg => (hargs arg harg).run).1
      exact ih.append (.cons hpoint (.cons hname (.layout hrun)))
  | index _ _ hfirst hposition hlast ih =>
      exact ih.append (.cons hfirst (.layout (hposition.run.append hlast.run)))
  | infixed _ hop hright _ _ ih => exact ih.append (.cons hop (.layout hright.run))
  | choice _ hquestion ht hcolon hf _ ih =>
      exact ih.append
        (.cons hquestion (.layout (ht.run.append (.cons hcolon (.layout hf.run)))))

/-- The span of a phrase ends with the phrase, or in front of a parenthesis.  Then one opens in it
that is not closed. -/
theorem stopsAt_stop (h : p.Spelled c xs d) : StopsAt p.span.stop c xs d := by
  induction h with
  | atom hx htoken => exact .whole (run (.atom hx htoken)) rfl
  | list hboxed hitems => exact .whole (run (.list hboxed hitems)) rfl
  | map hboxed hcolons hkeys hvalues => exact .whole (run (.map hboxed hcolons hkeys hvalues)) rfl
  | call hname hboxed hargs => exact .whole (run (.call hname hboxed hargs)) rfl
  | field htarget ht hpoint hname => exact .whole (run (.field htarget ht hpoint hname)) rfl
  | method htarget ht hpoint hname hboxed hargs =>
      exact .whole (run (.method htarget ht hpoint hname hboxed hargs)) rfl
  | index htarget ht hfirst hposition hlast =>
      exact .whole (run (.index htarget ht hfirst hposition hlast)) rfl
  | group hfirst hinner hlast ih => exact ih.parenthesized hfirst hinner.closed hlast
  | @sign op _ _ _ _ _ hsign _ _ ih =>
      exact ih.prepend hsign.run_skip (.cons (Lexeme.nest?_sign op) Lexeme.closed_nil)
  | @infixed op _ _ _ _ _ _ _ _ hleft hop _ _ _ _ ih =>
      exact (ih.prepend hop.run_skip (.cons (Lexeme.nest?_infix op) Lexeme.closed_nil)).prepend
        hleft.run hleft.closed
  | choice hcondition hquestion ht hcolon _ _ _ _ ih =>
      obtain ⟨hmiddle, hclosed⟩ := ht.between hquestion hcolon
      have hstop := (ih.prepend hmiddle hclosed).prepend hcondition.run hcondition.closed
      rwa [List.cons_append, List.append_assoc] at hstop

/-- The span of a phrase other than a group leaves out parentheses at its ends only, and nothing
where the brackets in it are matched. -/
theorem trims_span (h : p.Spelled c xs d) (hgroup : ¬p.IsGroup) :
    Trims p.span c xs d := by
  cases h with
  | group => exact absurd trivial hgroup
  | atom hx htoken => exact .whole (run (.atom hx htoken))
  | list hboxed hitems => exact .whole (run (.list hboxed hitems))
  | map hboxed hcolons hkeys hvalues => exact .whole (run (.map hboxed hcolons hkeys hvalues))
  | call hname hboxed hargs => exact .whole (run (.call hname hboxed hargs))
  | @sign op _ _ _ _ _ hsign hoperand =>
      exact (OpensAt.whole hsign.run_skip rfl).trims
        (.cons (Lexeme.nest?_sign op) Lexeme.closed_nil) (.nil _) Lexeme.closed_nil
        hoperand.stopsAt_stop
  | field htarget _ hpoint hname =>
      exact htarget.opensAt_start.trims htarget.closed (.nil _) Lexeme.closed_nil
        (.whole (.cons hpoint hname.run_skip) rfl)
  | method htarget _ hpoint hname hboxed hargs =>
      have hrun := (hboxed.run fun arg harg => (hargs arg harg).run).1
      exact htarget.opensAt_start.trims htarget.closed (.nil _) Lexeme.closed_nil
        (.whole (.cons hpoint (.cons hname (.layout hrun))) rfl)
  | index htarget _ hfirst hposition hlast =>
      exact htarget.opensAt_start.trims htarget.closed (.nil _) Lexeme.closed_nil
        (.whole (.cons hfirst (.layout (hposition.run.append hlast.run))) rfl)
  | @infixed op _ _ _ _ _ _ _ _ hleft hop hright =>
      exact hleft.opensAt_start.trims hleft.closed hop.run_skip
        (.cons (Lexeme.nest?_infix op) Lexeme.closed_nil) hright.stopsAt_stop
  | choice hcondition hquestion ht hcolon hf =>
      obtain ⟨hmiddle, hclosed⟩ := ht.between hquestion hcolon
      have htrims := hcondition.opensAt_start.trims hcondition.closed hmiddle hclosed
        hf.stopsAt_stop
      rwa [List.cons_append, List.append_assoc] at htrims

end Phrase.Spelled

end EmbeddedExpr.Grammar
