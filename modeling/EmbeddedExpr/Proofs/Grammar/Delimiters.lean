import EmbeddedExpr.Proofs.Grammar.DepthBound
import EmbeddedExpr.Proofs.Grammar.Sequence
import EmbeddedExpr.Proofs.Grammar.Weight

/-!
# The scan of the nesting blames no phrase

The scan of the nesting has its own idea of where literals and comments end.  It is the same as
that of the grammar: layout is passed over (`verdict_behindLayout`), and of a literal between marks
no more is seen than the first mark (`Lexeme.visible`).  So the scan goes from lexeme to lexeme
(`verdict_lexeme`), and sees the same in every text with the same ones (`verdict_congr`).

In a sequence of lexemes a closing bracket always meets its counterpart, so the scan can only blame
the depth (`verdict_laid`).  Since a phrase is such a sequence, the scan changes nothing else about
what is parsed (`parse_scan_harmless`).
-/

namespace EmbeddedExpr.Grammar

open Scanner (lexeme isNameChar)
open Number (isDigit isHexDigit)

/-! ### Places do not matter -/

/-- What is open, without where it was opened. -/
def Nesting.blind (n : Nesting) : Nesting :=
  ⟨n.brackets.map fun bracket => (bracket.1, 0), n.choices, n.choiceTotal, n.signs⟩

/-- A step, without where brackets were opened. -/
def Progress.blind : Progress → Progress
  | .going n => .going n.blind
  | .settled => .settled
  | .exceeded depth => .exceeded depth

/-- What a step means for the scan of the rest. -/
def Progress.conclude (bound : Nat) (next : Nesting → Except ParseFault Unit) :
    Progress → Except ParseFault Unit
  | .going n => next n
  | .settled => .ok ()
  | .exceeded depth => .error (.tooDeep depth bound)

namespace Nesting

/-- The steps of the characters of a text that has neither literals between marks nor comments. -/
def walk (bound : Nat) (n : Nesting) : List Char → Progress
  | [] => .going n
  | c :: rest =>
    match n.step bound 0 c with
    | .going n => walk bound n rest
    | progress => progress

variable {bound passed : Nat} {mode : Mode} {n m : Nesting} {c : Char} {text rest : List Char}

theorem blind_step (n : Nesting) (offset : Nat) (c : Char) :
    (n.step bound offset c).blind = (n.blind.step bound 0 c).blind := by
  unfold step
  split
  · simp only [openBracket, blind, List.length_cons, List.length_map]
    split <;> simp [Progress.blind, blind]
  split
  · simp only [closeBracket, blind]
    cases n.brackets with
    | nil => rfl
    | cons bracket brackets =>
        simp only [List.map_cons]
        split <;> simp [Progress.blind, blind]
  split
  · simp only [openChoice, blind, List.length_map]
    split <;> simp [Progress.blind, blind]
  split
  · simp only [closeChoices, blind]
    split <;> simp [Progress.blind, blind]
  split
  · simp only [openSign, blind, List.length_map]
    split <;> simp [Progress.blind, blind]
  split <;> simp [Progress.blind, blind, endSigns]

/-- What the scan of a text finds, without where. -/
def verdict (bound : Nat) (mode : Mode) (passed : Nat) (n : Nesting) (text : List Char) :
    Except ParseFault Unit :=
  (scan bound mode passed n 0 text).mapError ParseError.fault

/-- What the scan finds depends neither on where the text begins nor on where brackets were
opened. -/
theorem mapError_scan (h : n.blind = m.blind) (offset : Nat) :
    (scan bound mode passed n offset text).mapError ParseError.fault =
      verdict bound mode passed m text := by
  have hsame (offset' : Nat) : (scan bound mode passed n offset text).mapError ParseError.fault =
      (scan bound mode passed m offset' text).mapError ParseError.fault := by
    induction text generalizing mode passed n m offset offset' with
    | nil =>
        have hbrackets := congrArg Nesting.brackets h
        simp only [blind] at hbrackets
        simp only [scan, finish]
        cases hn : n.brackets with
        | nil =>
            rw [hn, List.map_nil, eq_comm, List.map_eq_nil_iff] at hbrackets
            simp [hbrackets]
        | cons bracket brackets =>
            rw [hn] at hbrackets
            cases hm : m.brackets with
            | nil => rw [hm] at hbrackets; cases hbrackets
            | cons bracket' brackets' =>
                rw [hm] at hbrackets
                obtain ⟨hfirst, -⟩ := List.cons.inj hbrackets
                simp only [Except.mapError, (Prod.mk.inj hfirst).1]
    | cons c rest ih =>
        rcases scan_cons_cases mode passed c rest with
          ⟨mode', passed', after, hafter, hscan⟩ | hscan
        · rw [hscan, hscan]
          refine ih ?_ _ _
          rcases hafter with rfl | rfl
          · exact h
          · simp only [blind, Nesting.mk.injEq] at h
            simp only [blind, endSigns, h]
        · rw [hscan, hscan]
          have hstep : (n.step bound offset c).blind = (m.step bound offset' c).blind := by
            rw [blind_step, blind_step m, h]
          cases hn : n.step bound offset c <;> cases hm : m.step bound offset' c <;>
            simp only [hn, hm, Progress.blind, Progress.going.injEq, Progress.exceeded.injEq,
              reduceCtorEq] at hstep
          · exact ih hstep _ _
          · rfl
          · simp only [Progress.resume, Except.mapError, hstep]
  exact hsame 0

/-! ### Characters and layout -/

/-- A character that begins neither a literal nor a comment is one step. -/
theorem verdict_cons (hquote : c ∉ ['"', '\'']) (hslash : c = '/' → '/' ∉ rest.head?) :
    verdict bound .code 0 n (c :: rest) =
      (n.step bound 0 c).conclude bound fun n => verdict bound .code 0 n rest := by
  have hcomment : ¬(c = '/' ∧ ['/'].isPrefixOf rest = true) := by
    rintro ⟨hc, hrest⟩
    obtain ⟨tail, rfl⟩ := List.isPrefixOf_iff_prefix.mp hrest
    exact hslash hc rfl
  have hnot : ¬(c = '"' ∨ c = '\'') := by simpa using hquote
  rw [verdict, scan, if_neg hnot, if_neg hcomment]
  cases n.step bound 0 c with
  | going n' => exact mapError_scan rfl _
  | settled => rfl
  | exceeded depth => rfl

theorem verdict_append (h : ∀ c ∈ text, c ∉ ['"', '\'', '/']) :
    verdict bound .code 0 n (text ++ rest) =
      (walk bound n text).conclude bound fun n => verdict bound .code 0 n rest := by
  induction text generalizing n with
  | nil => rfl
  | cons c text ih =>
      obtain ⟨hc, htext⟩ := List.forall_mem_cons.mp h
      have hquote : c ∉ ['"', '\''] := mt (List.mem_append_left ['/']) hc
      have hslash : c = '/' → '/' ∉ (text ++ rest).head? := by
        rintro rfl
        exact absurd (by decide) hc
      rw [List.cons_append, verdict_cons hquote hslash, walk]
      cases n.step bound 0 c with
      | going n' => exact ih htext
      | settled => rfl
      | exceeded depth => rfl

theorem verdict_skipFrom (inComment : Bool) (offset : Nat) (text : List Char) :
    verdict bound (if inComment then .comment else .code) 0 n text =
      verdict bound .code 0 n (Cursor.skipFrom inComment offset text).rest := by
  fun_induction Cursor.skipFrom inComment offset text with
  | case1 inComment => cases inComment <;> rfl
  | case2 inComment offset rest ih =>
      rw [← ih]
      cases inComment with
      | false =>
          rw [if_neg Bool.false_ne_true, verdict, scan, if_neg (by decide), if_pos ⟨rfl, rfl⟩, scan,
            if_neg (by decide)]
          exact mapError_scan rfl _
      | true =>
          rw [if_pos rfl, verdict, scan, if_neg (by decide), scan, if_neg (by decide)]
          exact mapError_scan rfl _
  | case3 offset c rest hslash ih =>
      rw [← ih, if_pos rfl, verdict, scan]
      by_cases hc : c = '\n'
      · simp only [hc, if_true, bne_self_eq_false, Bool.false_eq_true, if_false]
        exact mapError_scan rfl _
      · have hne : (c != '\n') = true := by simpa using hc
        simp only [hc, if_false, hne, if_true]
        exact mapError_scan rfl _
  | case4 inComment offset c rest hslash hcomment hblank ih =>
      rw [← ih, if_neg hcomment, if_neg Bool.false_ne_true]
      have hstep : c ∉ ['"', '\''] ∧ c ≠ '/' ∧ n.step bound 0 c = .going n := by
        have hmem := Cursor.isBlank_iff.mp hblank
        simp only [List.mem_cons, List.not_mem_nil, or_false] at hmem
        rcases hmem with rfl | rfl | rfl | rfl <;> exact ⟨by decide, by decide, rfl⟩
      obtain ⟨hquote, hne, hstep⟩ := hstep
      rw [verdict_cons hquote fun hc => absurd hc hne, hstep]
      rfl
  | case5 inComment offset c rest hslash hcomment hblank => rw [if_neg hcomment]

theorem verdict_behindLayout (text : List Char) :
    verdict bound .code 0 n text = verdict bound .code 0 n (behindLayout text) :=
  verdict_skipFrom false 0 text

/-! ### Literals between marks -/

theorem verdict_quoted {mark : Char} {body : List Char} (hmark : mark ≠ '\\')
    (h : Scanner.bodyToMark mark text = some (body, rest)) :
    verdict bound (.quoted mark) 0 n text = verdict bound .code 0 n rest := by
  fun_induction Scanner.bodyToMark mark text generalizing body rest with
  | case1 => cases h
  | case2 c text ih =>
      obtain ⟨⟨inner, after⟩, hinner, heq⟩ := Option.map_eq_some_iff.mp h
      cases heq
      rw [← ih hinner, verdict, scan, if_pos rfl, scan]
      exact mapError_scan rfl _
  | case3 text =>
      cases h
      rw [verdict, scan, if_neg hmark, if_pos (.inl rfl)]
      exact mapError_scan rfl _
  | case4 => cases h
  | case5 c text hescape hc hline ih =>
      obtain ⟨⟨inner, after⟩, hinner, heq⟩ := Option.map_eq_some_iff.mp h
      cases heq
      have hplain : c ≠ '\\' := Scanner.ne_backslash (by rintro rfl; cases hinner) hescape
      rw [← ih hinner, verdict, scan, if_neg hplain, if_neg (not_or.mpr ⟨hc, hline⟩)]
      exact mapError_scan rfl _

theorem verdict_tripled {mark : Char} {body : List Char} (hmark : mark ≠ '\\')
    (h : Scanner.bodyToMarks mark text = some (body, rest)) :
    verdict bound (.tripled mark) 0 n text = verdict bound .code 0 n rest := by
  fun_induction Scanner.bodyToMarks mark text generalizing body rest with
  | case1 => cases h
  | case2 c text ih =>
      obtain ⟨⟨inner, after⟩, hinner, heq⟩ := Option.map_eq_some_iff.mp h
      cases heq
      rw [← ih hinner, verdict, scan, if_pos rfl, scan]
      exact mapError_scan rfl _
  | case3 c text hescape hmarks =>
      cases h
      obtain ⟨rfl, hbegins⟩ := hmarks
      obtain ⟨tail, rfl⟩ := List.isPrefixOf_iff_prefix.mp hbegins
      rw [verdict, scan, if_neg hmark, if_pos ⟨rfl, hbegins⟩]
      -- the other two marks are passed over
      exact mapError_scan rfl (0 + c.utf8Size + c.utf8Size + c.utf8Size)
  | case4 c text hescape hmarks ih =>
      obtain ⟨⟨inner, after⟩, hinner, heq⟩ := Option.map_eq_some_iff.mp h
      cases heq
      have hplain : c ≠ '\\' := Scanner.ne_backslash (by rintro rfl; cases hinner) hescape
      rw [← ih hinner, verdict, scan, if_neg hplain, if_neg hmarks]
      exact mapError_scan rfl _

/-- A literal between marks only ends the signs in a row. -/
theorem verdict_quotedBy {mark : Char} {body taken : List Char} (hmark : mark ∈ ['"', '\''])
    (h : Scanner.quotedBy mark text = some (body, taken, rest)) (hrest : mark ∉ rest.head?) :
    verdict bound .code 0 n text = verdict bound .code 0 n.endSigns rest := by
  have hescape : mark ≠ '\\' := by
    rintro rfl
    exact absurd hmark (by decide)
  have hquote : mark = '"' ∨ mark = '\'' := List.mem_pair.mp hmark
  simp only [Scanner.quotedBy] at h
  split at h
  · rename_i inner after hlong
    cases h
    split at hlong
    · rename_i hbegins
      obtain ⟨tail, rfl⟩ := List.isPrefixOf_iff_prefix.mp hbegins
      have htripled : verdict bound (.tripled mark) 0 n.endSigns tail =
          verdict bound .code 0 n.endSigns _ := verdict_tripled hescape hlong
      rw [← htripled, List.cons_append, List.cons_append, List.cons_append, List.nil_append,
        verdict, scan, if_pos hquote, if_pos (by simp), scan, scan]
      exact mapError_scan rfl _
    · cases hlong
  · split at h
    · rename_i c after
      split at h
      · rename_i hnone hc
        subst hc
        obtain ⟨⟨inner, tail⟩, hshort, heq⟩ := Option.map_eq_some_iff.mp h
        cases heq
        have happend := Scanner.append_of_bodyToMark hshort
        have hsingle := Scanner.not_tripled_of_bodyToMark hescape hshort hrest
        rw [happend] at hsingle
        rw [← verdict_quoted hescape hshort, verdict, scan, if_pos hquote, hsingle,
          if_neg Bool.false_ne_true]
        exact mapError_scan rfl _
      · cases h
    · cases h

theorem verdict_quotedLiteral {body taken : List Char}
    (h : Scanner.quoted text = some (body, taken, rest))
    (hrest : ∀ c ∈ rest.head?, c ∉ ['"', '\'']) :
    verdict bound .code 0 n text = verdict bound .code 0 n.endSigns rest := by
  unfold Scanner.quoted at h
  split at h
  · rename_i hquoted
    cases h
    exact verdict_quotedBy (by decide) hquoted fun hmem => hrest _ hmem (by decide)
  · exact verdict_quotedBy (by decide) h fun hmem => hrest _ hmem (by decide)

end Nesting

/-! ### Lexemes -/

/-- The characters of a lexeme that the scan makes a step for, or as many of them as show all
steps. -/
def Lexeme.visible : Lexeme → List Char
  | literal (.text _ _) _ | literal (.bytes _ _) _ => ['"']
  | x => x.text

/-- The characters of numbers and words. -/
def IsWordChar (c : Char) : Prop := isNameChar c = true ∨ c ∈ ['.', '+', '-']

theorem IsWordChar.not_mem {c : Char} {others : List Char} (h : IsWordChar c)
    (hothers : ∀ d ∈ others, isNameChar d = false ∧ d ∉ ['.', '+', '-']) : c ∉ others := by
  rcases h with h | h
  · exact Scanner.not_mem_of_isNameChar (fun d hd => (hothers d hd).1) h
  · exact fun hmem => (hothers c hmem).2 h

theorem IsWordChar.unmarked {c : Char} (h : IsWordChar c) : c ∉ ['"', '\'', '/'] :=
  h.not_mem (by decide)

theorem IsWordChar.unbracketed {c : Char} (h : IsWordChar c) :
    Nesting.isOpening c = false ∧ Nesting.opening? c = none :=
  Nesting.unbracketed (h.not_mem (by decide))

namespace Scanner

variable {text run taken rest : List Char}

theorem isWordChar_of_isHexDigit {c : Char} (h : isHexDigit c = true) : IsWordChar c := by
  have hletter (low high : Char) (hlow : 'a' ≤ low ∧ high ≤ 'z' ∨ 'A' ≤ low ∧ high ≤ 'Z')
      (hc : low ≤ c ∧ c ≤ high) : isLetter c = true := by
    simp only [isLetter, Bool.or_eq_true, Bool.and_eq_true, decide_eq_true_iff]
    rcases hlow with ⟨hge, hle⟩ | ⟨hge, hle⟩
    · exact .inl ⟨Char.le_trans hge hc.1, Char.le_trans hc.2 hle⟩
    · exact .inr ⟨Char.le_trans hge hc.1, Char.le_trans hc.2 hle⟩
  left
  simp only [isHexDigit, Number.hexValue?] at h
  split at h
  · rename_i hdigit
    simp [isNameChar, isDigit, Number.digitValue?, hdigit]
  split at h
  · rename_i hlower
    simp [isNameChar, hletter 'a' 'f' (by decide) hlower]
  split at h
  · rename_i hupper
    simp [isNameChar, hletter 'A' 'F' (by decide) hupper]
  · cases h

theorem isWordChar_of_isDigit {c : Char} (h : isDigit c = true) : IsWordChar c :=
  .inl (by simp [isNameChar, h])

theorem isWordChar_of_digits (h : digits text = some (run, rest)) : ∀ c ∈ run, IsWordChar c :=
  fun c hc => isWordChar_of_isDigit ((digits_spec h).1 c hc)

theorem isWordChar_of_fraction (h : fraction text = some (run, rest)) :
    ∀ c ∈ run, IsWordChar c := by
  unfold fraction at h
  split at h
  · obtain ⟨⟨part, after⟩, hdigits, heq⟩ := Option.map_eq_some_iff.mp h
    cases heq
    exact List.forall_mem_cons.mpr ⟨.inr (by decide), isWordChar_of_digits hdigits⟩
  · cases h

theorem isWordChar_of_exponent (h : exponent text = some (run, rest)) :
    ∀ c ∈ run, IsWordChar c := by
  unfold exponent at h
  split at h
  · split at h
    · rename_i mark _ hmark
      have hname : IsWordChar mark := by
        simp only [Bool.or_eq_true, beq_iff_eq] at hmark
        rcases hmark with rfl | rfl <;> exact .inl rfl
      split at h
      · split at h
        · rename_i sign after hsign
          have hsign : IsWordChar sign := by
            simp only [Bool.or_eq_true, beq_iff_eq] at hsign
            rcases hsign with rfl | rfl <;> exact .inr (by decide)
          obtain ⟨⟨part, after⟩, hdigits, heq⟩ := Option.map_eq_some_iff.mp h
          cases heq
          exact List.forall_mem_cons.mpr ⟨hname,
            List.forall_mem_cons.mpr ⟨hsign, isWordChar_of_digits hdigits⟩⟩
        · obtain ⟨⟨part, after⟩, hdigits, heq⟩ := Option.map_eq_some_iff.mp h
          cases heq
          exact List.forall_mem_cons.mpr ⟨hname, isWordChar_of_digits hdigits⟩
      · cases h
    · cases h
  · cases h

theorem isWordChar_of_optionalExponent (text : List Char) :
    ∀ c ∈ (optionalExponent text).1, IsWordChar c := by
  unfold optionalExponent
  cases h : exponent text with
  | none => nofun
  | some pair => exact isWordChar_of_exponent h

theorem isWordChar_of_doubleText (h : doubleText text = some (taken, rest)) :
    ∀ c ∈ taken, IsWordChar c := by
  unfold doubleText at h
  split at h
  · rename_i hdigits
    split at h
    · rename_i hfraction
      cases h
      refine List.forall_mem_append.mpr ⟨List.forall_mem_append.mpr ⟨isWordChar_of_digits hdigits,
        isWordChar_of_fraction hfraction⟩, isWordChar_of_optionalExponent _⟩
    · obtain ⟨⟨power, after⟩, hpower, heq⟩ := Option.map_eq_some_iff.mp h
      cases heq
      exact List.forall_mem_append.mpr ⟨isWordChar_of_digits hdigits, isWordChar_of_exponent hpower⟩
  · obtain ⟨⟨part, after⟩, hpart, heq⟩ := Option.map_eq_some_iff.mp h
    cases heq
    exact List.forall_mem_append.mpr
      ⟨isWordChar_of_fraction hpart, isWordChar_of_optionalExponent _⟩

theorem isWordChar_of_magnitude {hex : Bool} (h : magnitude text = some (hex, run, taken, rest)) :
    ∀ c ∈ taken, IsWordChar c := by
  unfold magnitude at h
  split at h
  · rename_i hhex
    cases h
    obtain ⟨mark, hmark, rfl, -, hrun⟩ := hexDigits_spec hhex
    refine List.forall_mem_cons.mpr ⟨.inl rfl, List.forall_mem_cons.mpr ⟨?_, fun c hc => ?_⟩⟩
    · rcases List.mem_pair.mp hmark with rfl | rfl <;> exact .inl rfl
    · exact isWordChar_of_isHexDigit (hrun c hc)
  · obtain ⟨⟨part, after⟩, hdigits, heq⟩ := Option.map_eq_some_iff.mp h
    cases heq
    exact isWordChar_of_digits hdigits

/-! ### How literals are written

Numbers and words are made of characters of words, and all of them are visible.  Of the others the
marks in front and a text between marks are taken. -/

section Written

variable {token : Token}

theorem isWordChar_of_keyword {w : List Char} (hw : w ∈ keywords)
    (h : word w text = some ((), taken, rest)) : ∀ c ∈ taken, IsWordChar c := by
  obtain ⟨rfl, -, -⟩ := word_spec h
  exact fun c hc => .inl (isNameChar_of_mem_keyword hw c hc)

/-- A literal is written with the characters of words, or between marks behind some of them. -/
theorem literal_written (h : literal text = some (token, taken, rest)) :
    (Lexeme.literal token taken).visible = taken ∧ (∀ c ∈ taken, IsWordChar c) ∨
      (Lexeme.literal token taken).visible = ['"'] ∧ ∃ marks after body found,
        text = marks ++ after ∧ (∀ c ∈ marks, isNameChar c = true) ∧
          quoted after = some (body, found, rest) := by
  cases scanned_of_literal h with
  | double hdouble => exact .inl ⟨rfl, isWordChar_of_doubleText hdouble⟩
  | uint hmagnitude hmark =>
      refine .inl ⟨rfl, List.forall_mem_append.mpr
        ⟨isWordChar_of_magnitude hmagnitude, List.forall_mem_singleton.mpr (.inl ?_)⟩⟩
      rcases List.mem_pair.mp hmark with rfl | rfl <;> rfl
  | int hmagnitude => exact .inl ⟨rfl, isWordChar_of_magnitude hmagnitude⟩
  | null hw hword | bool _ hw hword => exact .inl ⟨rfl, isWordChar_of_keyword hw hword⟩
  | bytes _ hmarks hchars hquoted | text _ hmarks hchars hquoted =>
      exact .inr ⟨rfl, _, _, _, _, hmarks, hchars, hquoted⟩

end Written

end Scanner

namespace Nesting

variable {bound : Nat} {n : Nesting} {text rest : List Char} {x : Lexeme}

theorem isOrdinary_of_isNameChar {c : Char} (h : isNameChar c = true) :
    IsOrdinary c ∧ c ≠ ',' ∧ Cursor.isBlank c = false := by
  refine ⟨Scanner.not_mem_of_isNameChar (by decide) h, ?_, ?_⟩
  · rintro rfl
    cases h
  · rw [Bool.eq_false_iff]
    exact mt Cursor.isBlank_iff.mp (Scanner.not_mem_of_isNameChar (by decide) h)

/-- The characters of words only end the signs in a row. -/
theorem walk_nameChars (h : ∀ c ∈ text, isNameChar c = true) :
    ∃ n', walk bound n text = .going n' ∧ n'.endSigns = n.endSigns := by
  induction text generalizing n with
  | nil => exact ⟨n, rfl, rfl⟩
  | cons c text ih =>
      obtain ⟨hc, htext⟩ := List.forall_mem_cons.mp h
      obtain ⟨hordinary, hcomma, hblank⟩ := isOrdinary_of_isNameChar hc
      have hstep : n.step bound 0 c = .going n.endSigns := by
        rw [step_ordinary n hordinary hcomma, if_neg]
        simpa [Cursor.isBlank, and_assoc] using hblank
      obtain ⟨n', hwalk, hsame⟩ := ih (n := n.endSigns) htext
      exact ⟨n', by rw [walk, hstep]; exact hwalk, hsame⟩

/-- The scan of a lexeme is a walk over what is visible of it. -/
theorem verdict_lexeme (h : lexeme text = some (x, rest))
    (hquote : (∀ m, x ≠ .mark m) → ∀ c ∈ rest.head?, c ∉ ['"', '\'']) :
    verdict bound .code 0 n text =
      (n.walk bound x.visible).conclude bound fun n => verdict bound .code 0 n rest := by
  have happend := Scanner.append_of_lexeme h
  rcases Scanner.lexeme_cases h with ⟨token, taken, rfl, hliteral⟩ | ⟨token, taken, rfl, -, hname⟩ |
    ⟨m, rfl, -, -, hmark, -⟩
  · rcases Scanner.literal_written hliteral with ⟨hvisible, hchars⟩ |
      ⟨hvisible, marks, after, body, found, rfl, hmarks, hquoted⟩
    · rw [hvisible, ← happend]
      exact verdict_append fun c hc => (hchars c hc).unmarked
    · -- the letters in front of the first mark end the signs as the mark does
      obtain ⟨n', hwalk, hsame⟩ : ∃ n', walk bound n marks = .going n' ∧ n'.endSigns = n.endSigns :=
        walk_nameChars hmarks
      have hplain : ∀ c ∈ marks, c ∉ ['"', '\'', '/'] := fun c hc =>
        IsWordChar.unmarked (.inl (hmarks c hc))
      rw [hvisible, verdict_append hplain, hwalk]
      exact (verdict_quotedLiteral hquoted (hquote nofun)).trans (hsame ▸ rfl)
  · obtain ⟨-, hchars, -⟩ := Scanner.name_spec hname
    rw [← happend]
    exact verdict_append fun c hc => IsWordChar.unmarked (.inl (hchars c hc))
  · have hplain : ∀ m ∈ Scanner.marks, m = ['/'] ∨ ∀ c ∈ m, c ∉ ['"', '\'', '/'] := by decide
    rw [← happend]
    rcases (Scanner.mark_spec hmark).1 with hm | ⟨rfl, -⟩
    · rcases hplain m hm with rfl | hchars
      · have hparted := (Scanner.lexeme_mark_iff hm).mp (happend ▸ h)
        exact verdict_cons (by decide) fun _ => hparted.slash rfl
      · exact verdict_append hchars
    · exact verdict_append (by decide)

/-! ### Sequences of lexemes -/

theorem walk_unbracketed (h : ∀ c ∈ text, isOpening c = false ∧ opening? c = none) (n : Nesting) :
    (∃ n', n.walk bound text = .going n' ∧ n'.brackets = n.brackets) ∨
      ∃ depth, n.walk bound text = .exceeded depth := by
  induction text generalizing n with
  | nil => exact .inl ⟨n, rfl, rfl⟩
  | cons c text ih =>
      obtain ⟨⟨hopening, hclosing⟩, htext⟩ := List.forall_mem_cons.mp h
      rcases step_unbracketed_or hopening hclosing bound n 0 with
        ⟨n', hstep, hsame, -⟩ | ⟨depth, hstep, -⟩
      · rcases ih htext n' with ⟨n'', hwalk, hsame'⟩ | ⟨depth, hwalk⟩
        · exact .inl ⟨n'', by rw [walk, hstep]; exact hwalk, hsame'.trans hsame⟩
        · exact .inr ⟨depth, by rw [walk, hstep]; exact hwalk⟩
      · exact .inr ⟨depth, by rw [walk, hstep]⟩

/-- A step opens or closes the bracket that the character is as a mark, or blames the depth. -/
theorem step_nested {c : Char} {brackets nested : List Char}
    (hnest : (Lexeme.mark [c]).nest? brackets = some nested)
    (hn : n.brackets.map Prod.fst = brackets) :
    (∃ n', n.step bound 0 c = .going n' ∧ n'.brackets.map Prod.fst = nested) ∨
      ∃ depth, n.step bound 0 c = .exceeded depth := by
  simp only [Lexeme.nest?] at hnest
  cases hopening : isOpening c with
  | true =>
      -- an opening bracket goes on the stack unless it is too deep
      simp only [hopening, if_true, Option.some.injEq] at hnest
      rcases step_opening_or hopening bound n 0 with ⟨n', hstep, hsame, -⟩ | ⟨depth, hstep, -⟩
      · exact .inl ⟨n', hstep, by rw [hsame, List.map_cons, hn, hnest]⟩
      · exact .inr ⟨depth, hstep⟩
  | false =>
      simp only [hopening, Bool.false_eq_true, if_false] at hnest
      split at hnest
      · rename_i hclosing
        cases hnest
        rcases step_unbracketed_or hopening hclosing bound n 0 with
          ⟨n', hstep, hsame, -⟩ | ⟨depth, hstep, -⟩
        · exact .inl ⟨n', hstep, by rw [hsame, hn]⟩
        · exact .inr ⟨depth, hstep⟩
      · -- a closing bracket finds its counterpart on the stack
        rename_i opening hclosing
        split at hnest
        · rename_i hhead
          cases hnest
          cases hbrackets : n.brackets with
          | nil =>
              rw [← hn, hbrackets] at hhead
              cases hhead
          | cons bracket below =>
              obtain ⟨_, start⟩ := bracket
              rw [← hn, hbrackets] at hhead
              cases hhead
              obtain ⟨n', hstep, hbelow, -⟩ := step_closing hclosing hbrackets bound 0
              exact .inl ⟨n', hstep, by rw [hbelow, ← hn, hbrackets]; rfl⟩
        · cases hnest

/-- The walk over a lexeme opens or closes the same brackets as the lexeme does, or blames the
depth. -/
theorem walk_nested {brackets nested : List Char} (h : lexeme text = some (x, rest))
    (hnest : x.nest? brackets = some nested) (hn : n.brackets.map Prod.fst = brackets) :
    (∃ n', n.walk bound x.visible = .going n' ∧ n'.brackets.map Prod.fst = nested) ∨
      ∃ depth, n.walk bound x.visible = .exceeded depth := by
  have hplain (hchars : ∀ c ∈ x.visible, isOpening c = false ∧ opening? c = none)
      (hsame : nested = brackets) :
      (∃ n', n.walk bound x.visible = .going n' ∧ n'.brackets.map Prod.fst = nested) ∨
        ∃ depth, n.walk bound x.visible = .exceeded depth := by
    refine (walk_unbracketed hchars n).imp_left ?_
    rintro ⟨n', hwalk, hbrackets⟩
    exact ⟨n', hwalk, by rw [hbrackets, hn, hsame]⟩
  rcases Scanner.lexeme_cases h with ⟨token, taken, rfl, hliteral⟩ | ⟨token, taken, rfl, -, hname⟩ |
    ⟨m, rfl, -, -, hmark, -⟩
  · refine hplain ?_ (Option.some.inj hnest).symm
    rcases Scanner.literal_written hliteral with ⟨hvisible, hchars⟩ | ⟨hvisible, -⟩
    · rw [hvisible]
      exact fun c hc => (hchars c hc).unbracketed
    · rw [hvisible]
      exact List.forall_mem_singleton.mpr ⟨rfl, rfl⟩
  · obtain ⟨-, hchars, -⟩ := Scanner.name_spec hname
    exact hplain (fun c hc => IsWordChar.unbracketed (.inl (hchars c hc)))
      (Option.some.inj hnest).symm
  · have hpair : ∀ m ∈ Scanner.marks, m.length = 2 →
        ∀ c ∈ m, isOpening c = false ∧ opening? c = none := by decide
    rcases (Scanner.mark_spec hmark).1 with hm | ⟨rfl, -⟩
    · rcases Scanner.marks_spec m hm with ⟨c, rfl⟩ | ⟨a, b, -, rfl⟩
      · have hwalk : n.walk bound [c] = n.step bound 0 c := by
          rw [walk]
          cases n.step bound 0 c <;> rfl
        simp only [Lexeme.visible, Lexeme.text, hwalk]
        exact step_nested hnest hn
      · exact hplain (hpair _ hm rfl) (Option.some.inj hnest).symm
    · exact hplain (by decide) (Option.some.inj hnest).symm

/-- In front of a sequence of lexemes, the scan goes over the first one. -/
theorem verdict_cons_laid {nested : List Char} {xs : List Lexeme}
    (h : lexeme (behindLayout text) = some (x, rest)) (hrest : Laid x.after nested rest xs) :
    verdict bound .code 0 n text =
      (n.walk bound x.visible).conclude bound fun n => verdict bound .code 0 n rest := by
  rw [verdict_behindLayout]
  exact verdict_lexeme h fun hx => (hrest.ends_after hx).unquoted

/-- The scan of a sequence of lexemes finds nothing but that the nesting is too deep. -/
theorem verdict_laid {stage : Stage} {brackets : List Char} {xs : List Lexeme}
    (h : Laid stage brackets text xs) (hn : n.brackets.map Prod.fst = brackets) :
    verdict bound .code 0 n text = .ok () ∨
      ∃ depth, verdict bound .code 0 n text = .error (.tooDeep depth bound) := by
  induction h generalizing n with
  | nil hend =>
      rw [List.map_eq_nil_iff] at hn
      rw [verdict_behindLayout, hend, verdict, scan, finish, hn]
      exact .inl rfl
  | cons hlexeme hadmits hnest hrest ih =>
      rw [verdict_cons_laid hlexeme hrest]
      rcases walk_nested hlexeme hnest hn with ⟨n', hwalk, hn'⟩ | ⟨depth, hwalk⟩
      · rw [hwalk]
        exact ih hn'
      · rw [hwalk]
        exact .inr ⟨depth, rfl⟩

/-- The scan finds the same in every text that is the same sequence of lexemes. -/
theorem verdict_congr {stage : Stage} {brackets text' : List Char} {xs : List Lexeme}
    (h : Laid stage brackets text xs) (h' : Laid stage brackets text' xs) :
    verdict bound .code 0 n text = verdict bound .code 0 n text' := by
  induction h generalizing n text' with
  | nil hend =>
      cases h' with
      | nil hend' => rw [verdict_behindLayout, verdict_behindLayout text', hend, hend']
  | cons hlexeme hadmits hnest hrest ih =>
      cases h' with
      | cons hlexeme' hadmits' hnest' hrest' =>
          rw [verdict_cons_laid hlexeme hrest, verdict_cons_laid hlexeme' hrest']
          obtain rfl := Option.some.inj (hnest.symm.trans hnest')
          exact congrArg (Progress.conclude bound · _) (funext fun n => ih hrest')

end Nesting

/-! ### Sources -/

/-- The expression that a source is, if its nesting is not scanned before it is read. -/
def parseUnscanned (bound : Nat) (source : List Char) : Except ParseError Expr :=
  match Phrase.read? source with
  | none => .error (unexpected source)
  | some phrase => do
    let built ← phrase.build bound
    let built ← built.settle
    .ok built.expr

theorem check_of_read? {source : List Char} {phrase : Phrase}
    (h : Phrase.read? source = some phrase) (bound : Nat) :
    Nesting.check bound source = .ok () ∨ TooDeep (Nesting.check bound source) := by
  obtain ⟨xs, hxs⟩ := laid_of_read? h
  have hverdict : (Nesting.check bound source).mapError ParseError.fault = .ok () ∨
      ∃ depth, (Nesting.check bound source).mapError ParseError.fault =
        .error (.tooDeep depth bound) :=
    Nesting.verdict_laid hxs rfl
  cases hresult : Nesting.check bound source with
  | ok u => exact .inl rfl
  | error e =>
      rw [hresult] at hverdict
      rcases hverdict with hok | ⟨depth, hdeep⟩
      · cases hok
      · obtain ⟨fault, span⟩ := e
        cases hdeep
        exact .inr ⟨depth, bound, span, rfl⟩

/-- The scan of the nesting blames nothing but the depth of a source that is a phrase.  So unless
the depth is blamed, the sources that are parsed are those that are parsed without the scan, to the
same trees. -/
theorem parse_scan_harmless (bound : Nat) (source : List Char) :
    ((Phrase.read? source).isSome → Nesting.check bound source = .ok () ∨
      TooDeep (Nesting.check bound source)) ∧
    (¬TooDeep (parse bound source) →
      ∀ e, parse bound source = .ok e ↔ parseUnscanned bound source = .ok e) := by
  have hparse : parse bound source =
      (Nesting.check bound source >>= fun _ => parseUnscanned bound source) := rfl
  refine ⟨fun h => ?_, fun hdeep e => ?_⟩
  · obtain ⟨phrase, hphrase⟩ := Option.isSome_iff_exists.mp h
    exact check_of_read? hphrase bound
  · rw [hparse] at hdeep ⊢
    constructor
    · intro h
      obtain ⟨u, -, h⟩ := of_bind_eq_ok h
      exact h
    · intro h
      cases hread : Phrase.read? source with
      | none =>
          unfold parseUnscanned at h
          rw [hread] at h
          cases h
      | some phrase =>
          rcases check_of_read? hread bound with hok | ⟨depth, bound', span, htooDeep⟩
          · rw [bind_of_ok hok]
            exact h
          · exact absurd ⟨depth, bound', span, by rw [htooDeep]; rfl⟩ hdeep

/-- Brackets in literals and comments are not counted: a source that is two levels deep is parsed
with the scan as without it under the bound 2, and its depth is blamed under the bound 1. -/
theorem parse_scan_harmless_quotedBrackets :
    let source := "f(r'(', [\"]\\\"\"]) // \x7d".toList
    (Phrase.read? source).isSome ∧ TooDeep (Nesting.check 1 source) ∧
      (Nesting.check 2 source = .ok () ∨ TooDeep (Nesting.check 2 source)) ∧
        ¬TooDeep (parse 2 source) ∧
          ∃ e, parse 2 source = .ok e ∧ parseUnscanned 2 source = .ok e := by
  intro source
  have hphrase : (Phrase.read? source).isSome := by decide +kernel
  have hdeep : Nesting.check 1 source = .error ⟨.tooDeep 2 1, ⟨8, 9⟩⟩ := by decide +kernel
  have hsome : (parse 2 source).toOption.isSome := by decide +kernel
  obtain ⟨e, he⟩ : ∃ e, parse 2 source = .ok e := by
    cases hresult : parse 2 source with
    | ok e => exact ⟨e, rfl⟩
    | error err => rw [hresult] at hsome; cases hsome
  have hclear : ¬TooDeep (parse 2 source) := by
    rintro ⟨depth, bound, span, hresult⟩
    cases he.symm.trans hresult
  exact ⟨hphrase, ⟨2, 1, ⟨8, 9⟩, hdeep⟩, (parse_scan_harmless 2 source).1 hphrase, hclear, e, he,
    ((parse_scan_harmless 2 source).2 hclear e).mp he⟩

end EmbeddedExpr.Grammar
