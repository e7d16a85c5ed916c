import EmbeddedExpr.Grammar.Nesting
import EmbeddedExpr.Proofs.Grammar.Munch
import EmbeddedExpr.Proofs.Grammar.Tracking

/-!
# Sources as sequences of lexemes

A source of the grammar is a sequence of lexemes with layout between them (`Laid`).  Where the next
lexeme begins is found by skipping layout, and where it ends by its scanner alone; what may follow
depends on the lexeme only (`Stage`), and a closing bracket on the brackets that are open.  So the
text behind an operand never continues a literal (`Laid.ends`), and it does not matter how much
layout there is in front of a lexeme (`Laid.congr`).
-/

namespace EmbeddedExpr.Grammar

open Scanner (lexeme Ends)

/-! ### Layout -/

/-- A text without the blanks and comments in front. -/
def behindLayout (text : List Char) : List Char := (Cursor.skipFrom false 0 text).rest

namespace Cursor

theorem isBlank_iff {c : Char} : isBlank c = true ↔ c ∈ [' ', '\t', '\r', '\n'] := by
  simp [isBlank, or_assoc]

theorem rest_skipFrom (inComment : Bool) (offset : Nat) (text : List Char) :
    ∀ offset', (skipFrom inComment offset text).rest = (skipFrom inComment offset' text).rest := by
  fun_induction skipFrom inComment offset text with
  | case1 => exact fun _ => rfl
  | case2 inComment offset text ih =>
      intro offset'
      rw [skipFrom]
      exact ih _
  | case3 offset c text hslash ih =>
      intro offset'
      rw [skipFrom, if_pos rfl]
      · exact ih _
      · exact hslash
  | case4 inComment offset c text hslash hcomment hblank ih =>
      intro offset'
      rw [skipFrom, if_neg hcomment, if_pos hblank]
      · exact ih _
      · exact hslash
  | case5 inComment offset c text hslash hcomment hblank =>
      intro offset'
      rw [skipFrom, if_neg hcomment, if_neg hblank]
      exact hslash

theorem rest_skip (c : Cursor) : c.skip.rest = behindLayout c.rest := rest_skipFrom _ _ _ _

end Cursor

section Layout

variable {c : Char} {text rest : List Char}

theorem behindLayout_blank (h : Cursor.isBlank c = true) (text : List Char) :
    behindLayout (c :: text) = behindLayout text := by
  have hslash : ∀ rest, c = '/' → text = '/' :: rest → False := by
    rintro rest rfl -
    cases h
  rw [behindLayout, Cursor.skipFrom, if_neg Bool.false_ne_true, if_pos h, Cursor.rest_skipFrom]
  · rfl
  · exact hslash

theorem behindLayout_of_head (hblank : ∀ c ∈ text.head?, Cursor.isBlank c = false)
    (hcomment : ['/', '/'].isPrefixOf text = false) : behindLayout text = text := by
  unfold behindLayout Cursor.skipFrom
  split
  · rfl
  · cases hcomment
  · rename_i c rest _
    rw [if_neg Bool.false_ne_true, if_neg (by simp [hblank c rfl])]

/-- Layout in front of a text begins with a blank or a slash. -/
theorem behindLayout_eq_or (text : List Char) :
    behindLayout text = text ∨ ∃ c ∈ text.head?, Cursor.isBlank c = true ∨ c = '/' := by
  unfold behindLayout Cursor.skipFrom
  split
  · exact .inl rfl
  · exact .inr ⟨'/', rfl, .inr rfl⟩
  · rename_i c rest _
    by_cases hblank : Cursor.isBlank c = true
    · exact .inr ⟨c, rfl, .inl hblank⟩
    · rw [if_neg Bool.false_ne_true, if_neg hblank]
      exact .inl rfl

theorem length_skipFrom_le (inComment : Bool) (offset : Nat) (text : List Char) :
    (Cursor.skipFrom inComment offset text).rest.length ≤ text.length := by
  obtain ⟨skipped, rest, rfl, hskip⟩ := Cursor.skipFrom_eq_advance inComment offset text
  rw [hskip, List.length_append]
  exact Nat.le_add_left _ _

/-- What stands behind layout does not begin a comment. -/
theorem not_comment_of_settled {rest : List Char} (h : behindLayout ('/' :: rest) = '/' :: rest) :
    '/' ∉ rest.head? := by
  intro hc
  obtain ⟨tail, rfl⟩ := List.head?_eq_some_iff.mp hc
  have hle := length_skipFrom_le true 2 tail
  have hskip : (Cursor.skipFrom true 2 tail).rest = '/' :: '/' :: tail := h
  rw [hskip, List.length_cons, List.length_cons] at hle
  omega

theorem behindLayout_behindLayout (text : List Char) :
    behindLayout (behindLayout text) = behindLayout text := by
  have hrest (inComment : Bool) (offset : Nat) (text : List Char) :
      behindLayout (Cursor.skipFrom inComment offset text).rest =
        (Cursor.skipFrom inComment offset text).rest := by
    fun_induction Cursor.skipFrom inComment offset text with
    | case1 => rfl
    | case2 inComment offset text ih => exact ih
    | case3 offset c text _ ih => exact ih
    | case4 inComment offset c text _ _ _ ih => exact ih
    | case5 inComment offset c text hslash hcomment hblank =>
        rw [behindLayout, Cursor.skipFrom, if_neg Bool.false_ne_true, if_neg hblank]
        exact hslash
  exact hrest false 0 text

/-- Neither a literal nor a name begins with layout, a sign or an opening bracket. -/
theorem no_token_of_head {c : Char}
    (hc : c ∈ [' ', '\t', '\r', '\n', '/', '-', '!', '(', '[', '\x7b']) (more : List Char) :
    Scanner.literal (c :: more) = none ∧ Scanner.name (c :: more) = none := by
  have hplain : ∀ c ∈ [' ', '\t', '\r', '\n', '/', '-', '!', '(', '[', '\x7b'],
      Number.isDigit c = false ∧ c ∉ ['.', 'n', 't', 'f', 'b', 'B', 'r', 'R', '"', '\''] ∧
        Scanner.isNameChar c = false := by
    decide
  obtain ⟨hdigit, hc, hname⟩ := hplain c hc
  exact ⟨List.findSome?_eq_none_iff.mpr (Scanner.literals_none hdigit hc more),
    Scanner.name_none hname more⟩

/-- No layout stands in front of a lexeme. -/
theorem settled_of_lexeme {x : Lexeme} (h : lexeme text = some (x, rest)) :
    behindLayout text = text := by
  apply behindLayout_of_head
  · intro c hc
    by_contra hnot
    have hblank : Cursor.isBlank c = true := Bool.not_eq_false _ ▸ hnot
    have hmem := Cursor.isBlank_iff.mp hblank
    obtain ⟨more, rfl⟩ : ∃ more, text = c :: more := by
      cases text with
      | nil => cases hc
      | cons d more => cases hc; exact ⟨more, rfl⟩
    obtain ⟨hliteral, hname⟩ := no_token_of_head (List.mem_append_left _ hmem) more
    rcases Scanner.lexeme_cases h with ⟨token, taken, rfl, hfound⟩ |
      ⟨token, taken, rfl, -, hfound⟩ | ⟨m, rfl, -, -, hmark, -⟩
    · exact absurd (hliteral.symm.trans hfound) nofun
    · exact absurd (hname.symm.trans hfound) nofun
    · have hhead : c ∈ m.head? := Scanner.head_of_mark hmark ▸ hc
      rcases (Scanner.mark_spec hmark).1 with hm | ⟨rfl, -⟩
      · exact hnot (Scanner.marks_head m hm c hhead).2.2.2
      · cases hhead
        cases hblank
  · rw [Bool.eq_false_iff]
    intro hcomment
    obtain ⟨tail, rfl⟩ := List.isPrefixOf_iff_prefix.mp hcomment
    obtain ⟨hliteral, hname⟩ := no_token_of_head (c := '/') (by decide) ('/' :: tail)
    rw [List.cons_append, List.singleton_append] at h
    simp [lexeme, hliteral, hname, Scanner.mark] at h

end Layout

/-! ### Sequences of lexemes -/

/-- What may stand at a place of a source: an operand, what follows one, the name of a member, or
the bracket that ends a list. -/
inductive Stage
  | operand | operator | member | closing
  /-- An operand or what follows one. -/
  | either
  /-- An operand that is no literal. -/
  | nonliteral
  deriving DecidableEq

namespace Stage

/-- The marks in front of an operand, and the brackets that may close before any. -/
def operandMarks : List (List Char) :=
  [['-'], ['!'], ['('], ['['], ['\x7b'], [')'], [']'], ['\x7d']]

/-- The marks behind an operand. -/
def operatorMarks : List (List Char) :=
  [[')'], [']'], ['\x7d'], ['.'], [','], [':'], ['('], ['[']] ++ linkers

def closingMarks : List (List Char) := [[')'], [']'], ['\x7d']]

/-- Whether a lexeme may stand at a place. -/
def admits : Stage → Lexeme → Bool
  | operand, .literal _ _ | operand, .name _ | nonliteral, .name _ | member, .name _ => true
  | operand, .mark m | nonliteral, .mark m => operandMarks.contains m
  | operator, .mark m => operatorMarks.contains m
  | closing, .mark m => closingMarks.contains m
  | either, .literal _ _ | either, .name _ => true
  | either, .mark m => operandMarks.contains m || operatorMarks.contains m
  | _, _ => false

end Stage

namespace Lexeme

/-- What stands behind a lexeme. -/
def after : Lexeme → Stage
  | literal _ _ | name _ => .operator
  | mark m =>
    if m = ['.'] then .member else if Stage.closingMarks.contains m then .operator else .operand

/-- The brackets that are open behind a lexeme, if it closes only the last one. -/
def nest? (x : Lexeme) (brackets : List Char) : Option (List Char) :=
  match x with
  | mark [c] =>
    if Nesting.isOpening c then some (c :: brackets)
    else
      match Nesting.opening? c with
      | none => some brackets
      | some opening => if brackets.head? = some opening then some brackets.tail else none
  | _ => some brackets

end Lexeme

/-- A text is a sequence of lexemes with layout in front of each and behind the last.  The first
one stands where the stage says, behind open brackets, all of which are closed in the text. -/
inductive Laid : Stage → List Char → List Char → List Lexeme → Prop
  | nil {stage : Stage} {text : List Char} : behindLayout text = [] → Laid stage [] text []
  | cons {stage : Stage} {brackets nested text rest : List Char} {x : Lexeme} {xs : List Lexeme} :
      lexeme (behindLayout text) = some (x, rest) → stage.admits x = true →
      x.nest? brackets = some nested → Laid x.after nested rest xs →
      Laid stage brackets text (x :: xs)

namespace Laid

variable {stage : Stage} {brackets text text' : List Char} {xs : List Lexeme}

/-- Layout in front of a text does not matter. -/
theorem congr (h : Laid stage brackets text xs) (heq : behindLayout text' = behindLayout text) :
    Laid stage brackets text' xs := by
  cases h with
  | nil hend => exact .nil (heq.trans hend)
  | cons hlexeme hadmits hnest hrest => exact .cons (heq ▸ hlexeme) hadmits hnest hrest

/-- The stage only says what the first lexeme may be. -/
theorem restage {other : Stage} (h : Laid stage brackets text xs)
    (hother : ∀ x ∈ xs.head?, other.admits x = true) : Laid other brackets text xs := by
  cases h with
  | nil hend => exact .nil hend
  | cons hlexeme hadmits hnest hrest => exact .cons hlexeme (hother _ rfl) hnest hrest

theorem mono {wider : Stage} (h : Laid stage brackets text xs)
    (hwider : ∀ x, stage.admits x = true → wider.admits x = true) :
    Laid wider brackets text xs := by
  refine h.restage fun x hx => ?_
  cases h with
  | nil => cases hx
  | cons _ hadmits _ _ => cases hx; exact hwider _ hadmits

end Laid

/-- A lexeme has at least one character. -/
theorem text_ne_nil_of_lexeme {x : Lexeme} {text rest : List Char}
    (h : lexeme text = some (x, rest)) : x.text ≠ [] := by
  rcases Scanner.lexeme_cases h with ⟨token, taken, rfl, hliteral⟩ | ⟨token, taken, rfl, -, hname⟩ |
    ⟨m, rfl, -, -, hmark, -⟩
  · obtain ⟨entry, hmem, hfound⟩ := List.exists_of_findSome?_eq_some hliteral
    exact Reader.advances_of_mem_literals entry hmem _ _ _ _ hfound
  · exact Scanner.name_advances _ _ _ _ hname
  · exact Scanner.ne_nil_of_mark hmark

/-- There are no more lexemes than characters. -/
theorem Laid.length_le {stage : Stage} {brackets text : List Char} {xs : List Lexeme}
    (h : Laid stage brackets text xs) : xs.length ≤ text.length := by
  induction h with
  | nil => exact Nat.zero_le _
  | @cons _ _ _ text rest x xs hlexeme _ _ _ ih =>
      have htext := List.length_pos_iff.mpr (text_ne_nil_of_lexeme hlexeme)
      have hskip : (behindLayout text).length ≤ text.length := length_skipFrom_le false 0 text
      rw [← Scanner.append_of_lexeme hlexeme, List.length_append] at hskip
      rw [List.length_cons]
      omega

/-- Only marks stand behind an operand. -/
theorem Stage.mark_of_operator {x : Lexeme} (h : Stage.operator.admits x = true) :
    ∃ m ∈ Stage.operatorMarks, x = .mark m := by
  cases x with
  | literal | name => cases h
  | mark m => exact ⟨m, List.contains_iff_mem.mp h, rfl⟩

theorem Stage.either_of_operand (x : Lexeme) (h : Stage.operand.admits x = true) :
    Stage.either.admits x = true := by
  cases x with
  | literal | name => rfl
  | mark m => exact Bool.or_eq_true_iff.mpr (.inl h)

theorem Stage.either_of_operator (x : Lexeme) (h : Stage.operator.admits x = true) :
    Stage.either.admits x = true := by
  obtain ⟨m, -, rfl⟩ := Stage.mark_of_operator h
  exact Bool.or_eq_true_iff.mpr (.inr h)

/-- A bracket that closes a list stands where an operand could, and behind one. -/
theorem Stage.admits_of_closing {x : Lexeme} (h : Stage.closing.admits x = true) :
    Stage.operand.admits x = true ∧ Stage.operator.admits x = true := by
  have hmarks : ∀ m ∈ closingMarks, operandMarks.contains m = true ∧
      operatorMarks.contains m = true := by decide
  cases x with
  | literal | name => cases h
  | mark m => exact hmarks m (List.contains_iff_mem.mp h)

namespace Laid

variable {stage : Stage} {brackets text : List Char} {xs : List Lexeme}

/-- A text begins with layout or with its first lexeme. -/
theorem head (h : Laid stage brackets text xs) : ∀ c ∈ text.head?,
    c ∈ [' ', '\t', '\r', '\n', '/'] ∨
      ∃ x rest, lexeme text = some (x, rest) ∧ stage.admits x = true := by
  intro c hc
  rcases behindLayout_eq_or text with hsettled | ⟨d, hd, hcase⟩
  · cases h with
    | nil hend =>
        rw [← hsettled, hend] at hc
        cases hc
    | cons hlexeme hadmits hnest hrest =>
        rw [hsettled] at hlexeme
        exact .inr ⟨_, _, hlexeme, hadmits⟩
  · obtain rfl : d = c := Option.some.inj (hd.symm.trans hc)
    refine .inl ?_
    rcases hcase with hblank | rfl
    · exact List.mem_append_left ['/'] (Cursor.isBlank_iff.mp hblank)
    · decide

/-- No literal goes on with what stands behind an operand. -/
theorem ends (h : Laid .operator brackets text xs) : Ends text := by
  have hmarks : ∀ m ∈ Stage.operatorMarks, m ≠ [] ∧ ∀ c ∈ m.head?,
      Number.isHexDigit c = false ∧ c ∉ ['x', 'X', 'u', 'U', '"', '\''] := by decide
  have hlayout : ∀ c ∈ [' ', '\t', '\r', '\n', '/'],
      Number.isHexDigit c = false ∧ c ∉ ['x', 'X', 'u', 'U', '"', '\''] := by decide
  constructor
  · intro c hc
    rcases h.head c hc with hmem | ⟨x, rest, hlexeme, hadmits⟩
    · exact hlayout c hmem
    · obtain ⟨m, hm, rfl⟩ := Stage.mark_of_operator hadmits
      obtain ⟨hne, hhead⟩ := hmarks m hm
      rw [← Scanner.append_of_lexeme hlexeme, Lexeme.text, List.head?_append_of_ne_nil _ hne] at hc
      exact hhead c hc
  · by_contra hfraction
    have hpoint : '.' ∈ text.head? := by
      by_contra hpoint
      exact hfraction (Scanner.fraction_none hpoint)
    rcases h.head '.' hpoint with hmem | ⟨x, rest, hlexeme, hadmits⟩
    · exact absurd hmem (by decide)
    · obtain ⟨m, -, rfl⟩ := Stage.mark_of_operator hadmits
      obtain ⟨hliteral, -⟩ := Scanner.mark_of_lexeme hlexeme
      exact hfraction (Scanner.fraction_none_of_literal hliteral)

theorem ends_after {x : Lexeme} (h : Laid x.after brackets text xs) (hx : ∀ m, x ≠ .mark m) :
    Ends text := by
  cases x with
  | literal | name => exact h.ends
  | mark m => exact absurd rfl (hx m)

/-- The name of a member begins with no digit. -/
theorem not_digit (h : Laid .member brackets text xs) :
    ∀ c ∈ text.head?, Number.isDigit c = false := by
  have hlayout : ∀ c ∈ [' ', '\t', '\r', '\n', '/'], Number.isDigit c = false := by decide
  intro c hc
  rcases h.head c hc with hmem | ⟨x, rest, hlexeme, hadmits⟩
  · exact hlayout c hmem
  · rcases Scanner.lexeme_cases hlexeme with ⟨_, _, rfl, -⟩ | ⟨_, _, rfl, -, hname⟩ |
      ⟨_, rfl, -⟩
    · cases hadmits
    · obtain ⟨-, -, -, ⟨d, more, rfl, hfirst⟩, -⟩ := Scanner.name_spec hname
      rw [← Scanner.append_of_lexeme hlexeme] at hc
      cases hc
      rcases hfirst with hletter | rfl
      · exact Scanner.isDigit_eq_false_of_isLetter hletter
      · rfl
    · cases hadmits

/-- No operand begins with the second character of a mark. -/
theorem not_equals (h : Laid .operand brackets text xs) : '=' ∉ text.head? := by
  intro hc
  rcases h.head '=' hc with hmem | ⟨x, rest, hlexeme, hadmits⟩
  · exact absurd hmem (by decide)
  · obtain ⟨tail, rfl⟩ := List.head?_eq_some_iff.mp hc
    have hliteral : Scanner.literal ('=' :: tail) = none :=
      List.findSome?_eq_none_iff.mpr (Scanner.literals_none (by decide) (by decide) tail)
    have hname : Scanner.name ('=' :: tail) = none := Scanner.name_none (by decide) tail
    rcases Scanner.lexeme_cases hlexeme with ⟨_, _, rfl, hfound⟩ | ⟨_, _, rfl, -, hfound⟩ |
      ⟨m, rfl, -, -, -, happend⟩
    · cases hliteral.symm.trans hfound
    · cases hname.symm.trans hfound
    · have hheads : ∀ m ∈ Stage.operandMarks, m ≠ [] ∧ m.head? ≠ some '=' := by decide
      obtain ⟨hne, hhead⟩ := hheads m (List.contains_iff_mem.mp hadmits)
      rw [← happend, List.head?_append_of_ne_nil _ hne] at hc
      exact hhead hc

end Laid

end EmbeddedExpr.Grammar
