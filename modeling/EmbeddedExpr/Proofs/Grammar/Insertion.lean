import EmbeddedExpr.Proofs.Grammar.Laid

/-!
# Layout between lexemes

Layout that is put between two lexemes of a text (`Cut`) changes neither of them: blanks, and
comments up to the end of their lines (`Filler`).  Only a comment directly behind a slash would, for
the slash would begin it.  So the text stays the same sequence of lexemes (`Laid.insert`).  Every
two lexemes that follow each other have such a place between them (`Laid.exists_cut`).
-/

namespace EmbeddedExpr.Grammar

open Scanner (lexeme Resumes)

/-- Blanks, and comments each of which its line ends. -/
inductive Filler : List Char → Prop
  | nil : Filler []
  | blank {c : Char} {rest : List Char} : Cursor.isBlank c = true → Filler rest → Filler (c :: rest)
  | comment {line rest : List Char} : '\n' ∉ line → Filler rest →
      Filler ('/' :: '/' :: (line ++ '\n' :: rest))

/-- The two parts of a text meet between two of its lexemes, or at one of its ends: the first one is
made up of lexemes, blanks and comments. -/
inductive Cut : List Char → List Char → Prop
  | here {after : List Char} : Cut [] after
  | blank {c : Char} {before after : List Char} : Cursor.isBlank c = true → Cut before after →
      Cut (c :: before) after
  | comment {line before after : List Char} : '\n' ∉ line →
      (∀ c ∈ (before ++ after).head?, c = '\n') → Cut before after →
      Cut ('/' :: '/' :: (line ++ before)) after
  | lexeme {x : Lexeme} {before after : List Char} :
      lexeme (x.text ++ (before ++ after)) = some (x, before ++ after) → Cut before after →
      Cut (x.text ++ before) after

/-! ### Layout in front -/

/-- A text that begins inside a comment, without that and the layout behind it. -/
def behindComment (text : List Char) : List Char := (Cursor.skipFrom true 0 text).rest

section Layout

variable {c : Char} {line filler text : List Char}

theorem behindLayout_comment (text : List Char) :
    behindLayout ('/' :: '/' :: text) = behindComment text :=
  Cursor.rest_skipFrom true 2 text 0

theorem behindComment_newline (text : List Char) :
    behindComment ('\n' :: text) = behindLayout text := by
  rw [behindComment, Cursor.skipFrom, if_pos rfl]
  · exact Cursor.rest_skipFrom false _ text 0
  · exact fun _ hslash _ => absurd hslash (by decide)

theorem behindComment_cons (h : c ≠ '\n') (text : List Char) :
    behindComment (c :: text) = behindComment text := by
  induction text generalizing c with
  | nil =>
      rw [behindComment, Cursor.skipFrom, if_pos rfl]
      · rfl
      · exact fun _ _ heq => absurd heq (List.cons_ne_nil _ _).symm
  | cons d text ih =>
      by_cases hslash : c = '/' ∧ d = '/'
      · obtain ⟨rfl, rfl⟩ := hslash
        -- the two slashes are skipped together
        rw [ih (by decide)]
        exact Cursor.rest_skipFrom true 2 text 0
      · have hcomment : (c != '\n') = true := by simpa using h
        rw [behindComment, Cursor.skipFrom, if_pos rfl, hcomment]
        · exact Cursor.rest_skipFrom true _ _ 0
        · rintro rest rfl heq
          exact hslash ⟨rfl, (List.cons.inj heq).1⟩

theorem behindComment_append (h : '\n' ∉ line) (text : List Char) :
    behindComment (line ++ text) = behindComment text := by
  induction line with
  | nil => rfl
  | cons c line ih =>
      obtain ⟨hc, hline⟩ := not_or.mp (mt List.mem_cons.mpr h)
      rw [List.cons_append, behindComment_cons (Ne.symm hc), ih hline]

/-- A comment lasts up to the end of its line. -/
theorem behindComment_of_head (h : ∀ c ∈ text.head?, c = '\n') :
    behindComment text = behindLayout text := by
  cases text with
  | nil => rfl
  | cons c text =>
      obtain rfl := h c rfl
      rw [behindComment_newline, behindLayout_blank (by decide)]

theorem Filler.behindLayout_append (h : Filler filler) (text : List Char) :
    behindLayout (filler ++ text) = behindLayout text := by
  induction h with
  | nil => rfl
  | blank hc _ ih => rw [List.cons_append, behindLayout_blank hc, ih]
  | comment hline _ ih =>
      rw [List.cons_append, List.cons_append, behindLayout_comment, List.append_assoc,
        behindComment_append hline, List.cons_append, behindComment_newline, ih]

/-- Layout at the end of a comment is part of it up to the end of the line. -/
theorem Filler.behindComment_append (h : Filler filler) (htext : ∀ c ∈ text.head?, c = '\n') :
    behindComment (filler ++ text) = behindLayout text := by
  induction h with
  | nil => exact behindComment_of_head htext
  | @blank c rest hc hrest ih =>
      by_cases hnewline : c = '\n'
      · subst hnewline
        rw [List.cons_append, behindComment_newline, hrest.behindLayout_append]
      · rw [List.cons_append, behindComment_cons hnewline, ih]
  | comment hline hrest _ =>
      rw [List.cons_append, List.cons_append, behindComment_cons (by decide),
        behindComment_cons (by decide), List.append_assoc, Grammar.behindComment_append hline,
        List.cons_append, behindComment_newline, hrest.behindLayout_append]

/-- Layout begins with a blank or a slash. -/
theorem Filler.head (h : Filler filler) :
    ∀ c ∈ filler.head?, Cursor.isBlank c = true ∨ c = '/' := by
  cases h with
  | nil => nofun
  | blank hc _ =>
      rintro _ ⟨⟩
      exact .inl hc
  | comment =>
      rintro _ ⟨⟩
      exact .inr rfl

end Layout

/-! ### Where lexemes meet -/

/-- Layout in front of a cut belongs to it; of a comment that has begun before, only what stands
behind its line. -/
theorem Cut.behind_layout {before after : List Char} (h : Cut before after) (inComment : Bool)
    (offset : Nat) (text : List Char)
    (heq : (Cursor.skipFrom inComment offset text).rest = before ++ after) :
    ∃ line skipped, text = line ++ skipped ++ (before ++ after) ∧ '\n' ∉ line ∧
      Cut (skipped ++ before) after ∧ (inComment = false → line = []) ∧
        (inComment = true → ∀ c ∈ (skipped ++ (before ++ after)).head?, c = '\n') := by
  fun_induction Cursor.skipFrom inComment offset text with
  | case1 =>
      obtain ⟨rfl, rfl⟩ := List.append_eq_nil_iff.mp heq.symm
      exact ⟨[], [], rfl, List.not_mem_nil, h, fun _ => rfl,
        by simp⟩
  | case2 inComment offset rest ih =>
      obtain ⟨line, skipped, rfl, hline, hcut, -, hend⟩ := ih heq
      cases inComment with
      | true =>
          exact ⟨'/' :: '/' :: line, skipped, rfl, by simpa using hline, hcut,
            by simp, hend⟩
      | false =>
          refine ⟨[], '/' :: '/' :: (line ++ skipped), by simp, List.not_mem_nil, ?_, fun _ => rfl,
            by simp⟩
          have hcomment := Cut.comment hline (by simpa using hend rfl) hcut
          simpa using hcomment
  | case3 offset c rest hslash ih =>
      obtain ⟨line, skipped, rfl, hline, hcut, hempty, hend⟩ := ih heq
      by_cases hnewline : c = '\n'
      · subst hnewline
        obtain rfl := hempty rfl
        exact ⟨[], '\n' :: skipped, rfl, List.not_mem_nil, .blank rfl hcut,
          by simp, fun _ => by simp⟩
      · have hcomment : (c != '\n') = true := bne_iff_ne.mpr hnewline
        exact ⟨c :: line, skipped, rfl, by simp [hline, Ne.symm hnewline], hcut,
          by simp, fun _ => hend hcomment⟩
  | case4 inComment offset c rest hslash hcomment hblank ih =>
      obtain rfl := Bool.eq_false_iff.mpr hcomment
      obtain ⟨line, skipped, rfl, -, hcut, hempty, -⟩ := ih heq
      obtain rfl := hempty rfl
      exact ⟨[], c :: skipped, rfl, List.not_mem_nil, .blank hblank hcut, fun _ => rfl,
        by simp⟩
  | case5 inComment offset c rest hslash hcomment hblank =>
      exact ⟨[], [], heq, List.not_mem_nil, h, fun _ => rfl, fun hin => absurd hin hcomment⟩

/-- Between any two lexemes of a sequence there is a cut. -/
theorem Laid.exists_cut {stage : Stage} {brackets text : List Char} {xs ys : List Lexeme}
    (h : Laid stage brackets text (xs ++ ys)) : ∃ before after, text = before ++ after ∧
      Cut before after ∧ ∃ stage brackets, Laid stage brackets after ys := by
  induction xs generalizing stage brackets text with
  | nil => exact ⟨[], text, rfl, .here, stage, brackets, h⟩
  | cons x xs ih =>
      cases h with
      | cons hlexeme _ _ hrest =>
          obtain ⟨before, after, rfl, hcut, hys⟩ := ih hrest
          have happend := Scanner.append_of_lexeme hlexeme
          rw [← happend] at hlexeme
          rw [← List.append_assoc] at happend
          obtain ⟨line, skipped, htext, -, hlaid, hempty, -⟩ :=
            (Cut.lexeme hlexeme hcut).behind_layout false 0 text happend.symm
          obtain rfl := hempty rfl
          exact ⟨skipped ++ (x.text ++ before), after, by simpa using htext, hlaid, hys⟩

/-! ### Layout inside -/

section Insertion

variable {stage : Stage} {brackets before after filler : List Char} {xs : List Lexeme} {x : Lexeme}

/-- What stands behind a lexeme begins as before, or with layout. -/
theorem Filler.resumes (h : Filler filler)
    (hslash : '/' ∈ filler.head? → '/' ∉ (x.text ++ before).getLast?) :
    Resumes x (before ++ after) (before ++ filler ++ after) := by
  intro c hc
  cases before with
  | cons d before => exact .inl hc
  | nil =>
      cases filler with
      | nil => exact .inl hc
      | cons d filler =>
          cases hc
          rcases h.head c rfl with hblank | rfl
          · exact .inr (.inl hblank)
          · refine .inr (.inr ⟨rfl, ?_⟩)
            rintro rfl
            exact hslash rfl rfl

/-- A text with layout put between two of its lexemes is the same sequence of lexemes. -/
theorem Laid.insert (h : Laid stage brackets (before ++ after) xs) (hcut : Cut before after)
    (hfiller : Filler filler) (hslash : '/' ∈ filler.head? → '/' ∉ before.getLast?) :
    Laid stage brackets (before ++ filler ++ after) xs := by
  have hkept (text : List Char) {before : List Char} (h : '/' ∈ before.getLast?) :
      '/' ∈ (text ++ before).getLast? := List.mem_getLast?_append_of_mem_getLast? h
  induction hcut generalizing stage brackets xs with
  | here => exact h.congr (hfiller.behindLayout_append _)
  | @blank c before after hc hcut ih =>
      have hrest := ih (h.congr (behindLayout_blank hc _).symm) fun hhead hlast =>
        hslash hhead (hkept [c] hlast)
      exact hrest.congr (behindLayout_blank hc _)
  | @comment line before after hline hend hcut ih =>
      -- what is put behind the comment before its line ends belongs to the comment
      have hskip (text : List Char) :
          behindLayout ('/' :: '/' :: (line ++ text)) = behindComment text := by
        rw [behindLayout_comment, behindComment_append hline]
      have htext := (hskip (before ++ after)).trans (behindComment_of_head hend)
      have hrest := ih (h.congr ?_) fun hhead hlast =>
        hslash hhead (hkept ('/' :: '/' :: line) hlast)
      · refine hrest.congr ?_
        simp only [List.cons_append, List.append_assoc]
        rw [hskip]
        cases before with
        | nil =>
            exact (hfiller.behindComment_append hend).trans (hfiller.behindLayout_append after).symm
        | cons d before => exact behindComment_of_head hend
      · simp only [List.cons_append, List.append_assoc]
        exact htext.symm
  | @lexeme x before after hlexeme hcut ih =>
      rw [List.append_assoc] at h
      cases h with
      | nil hend =>
          -- a lexeme is not the end of a text
          have hnone : lexeme [] = none := rfl
          rw [settled_of_lexeme hlexeme] at hend
          rw [hend, hnone] at hlexeme
          cases hlexeme
      | cons hfound hadmits hnest hrest =>
          -- the lexeme is the same, for the rest as changed does not continue it
          rw [settled_of_lexeme hlexeme, hlexeme] at hfound
          cases hfound
          have hinserted := ih hrest fun hhead hlast => hslash hhead (hkept x.text hlast)
          have hcontinued := Scanner.lexeme_continued hlexeme
            (hfiller.resumes fun hhead => hslash hhead) hinserted.ends_after
          refine .cons ?_ hadmits hnest hinserted
          rw [List.append_assoc, List.append_assoc, ← List.append_assoc before,
            settled_of_lexeme hcontinued, hcontinued]

end Insertion

end EmbeddedExpr.Grammar
