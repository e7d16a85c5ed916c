import EmbeddedExpr.Proofs.Grammar.Continuation
import EmbeddedExpr.Proofs.Grammar.Extent
import EmbeddedExpr.Proofs.Grammar.Lexemes

/-!
# The token at the front of a text

A lexeme is a token with the characters it takes: a literal, a name, or a mark.  Which lexeme a
text begins with (`lexeme`) is found by the scanners of the grammar: those of literals first, then
that of names, then the longest mark.  The same lexeme is found in front of every text that does
not continue it (`lexeme_continued`).
-/

namespace EmbeddedExpr.Grammar

open Number (isDigit)

/-- A token with the characters it takes. -/
inductive Lexeme
  | literal (token : Token) (text : List Char)
  | name (text : List Char)
  | mark (text : List Char)
  deriving DecidableEq

/-- The characters of a lexeme. -/
def Lexeme.text : Lexeme → List Char
  | literal _ text | name text | mark text => text

namespace Scanner

/-- The first scanner of literals that accepts the text. -/
def literal : Scanner Token := fun text =>
  Reader.literals.findSome? fun entry => entry.2 text

/-- The marks other than words, each behind those that begin with it. -/
def marks : List (List Char) :=
  [['|', '|'], ['&', '&'], ['=', '='], ['!', '='], ['<', '='], ['>', '='], ['<'], ['>'], ['?'],
    [':'], [','], ['.'], ['('], [')'], ['['], [']'], ['\x7b'], ['\x7d'], ['+'], ['-'], ['*'], ['/'],
    ['%'], ['!']]

/-- A mark.  Two slashes are none; they begin a comment. -/
def mark (text : List Char) : Option (List Char) :=
  if ['/', '/'].isPrefixOf text then none
  else
    match marks.find? (·.isPrefixOf text) with
    | some m => some m
    | none => (word ['i', 'n'] text).map fun (_, taken, _) => taken

/-- The lexeme with which a text begins, and the rest. -/
def lexeme (text : List Char) : Option (Lexeme × List Char) :=
  match literal text with
  | some (token, taken, rest) => some (.literal token taken, rest)
  | none =>
    match name text with
    | some (_, taken, rest) => some (.name taken, rest)
    | none => (mark text).map fun m => (.mark m, text.drop m.length)
/-! ### Literals -/

section Lexemes

variable {text taken rest rest' : List Char}

/-- What the literal in front of a text is, kind by kind: the token, the characters and the rest. -/
inductive Scanned (text : List Char) : Token → List Char → List Char → Prop
  | double {taken rest : List Char} : doubleText text = some (taken, rest) →
      Scanned text (.double taken) taken rest
  | uint {hex : Bool} {run body rest : List Char} {mark : Char} :
      magnitude text = some (hex, run, body, mark :: rest) → mark ∈ ['u', 'U'] →
      Scanned text (.uint hex run (body ++ [mark])) (body ++ [mark]) rest
  | int {hex : Bool} {run taken rest : List Char} :
      magnitude text = some (hex, run, taken, rest) → Scanned text (.int hex run taken) taken rest
  | null {w taken rest : List Char} : w ∈ keywords → word w text = some ((), taken, rest) →
      Scanned text .null taken rest
  | bool (b : Bool) {w taken rest : List Char} : w ∈ keywords →
      word w text = some ((), taken, rest) → Scanned text (.bool b) taken rest
  | bytes (raw : Bool) {marks after body found rest : List Char} : text = marks ++ after →
      (∀ c ∈ marks, isNameChar c = true) → quoted after = some (body, found, rest) →
      Scanned text (.bytes raw body) (marks ++ found) rest
  | text (raw : Bool) {marks after body found rest : List Char} : text = marks ++ after →
      (∀ c ∈ marks, isNameChar c = true) → quoted after = some (body, found, rest) →
      Scanned text (.text raw body) (marks ++ found) rest

theorem scanned_of_literal {token : Token} (h : literal text = some (token, taken, rest)) :
    Scanned text token taken rest := by
  obtain ⟨entry, hmem, hfound⟩ := List.exists_of_findSome?_eq_some h
  simp only [Reader.literals, List.mem_cons, List.not_mem_nil, or_false] at hmem
  rcases hmem with rfl | rfl | rfl | rfl | rfl | rfl | rfl
  case inl =>
    obtain ⟨_, hdouble, heq⟩ := Option.map_eq_some_iff.mp hfound
    cases heq
    exact .double hdouble
  case inr.inl =>
    simp only [uint] at hfound
    split at hfound
    · rename_i hmagnitude
      split at hfound
      · rename_i hmark
        cases hfound
        exact .uint hmagnitude (by simpa using hmark)
      · cases hfound
    · cases hfound
  case inr.inr.inl =>
    obtain ⟨_, hmagnitude, heq⟩ := Option.map_eq_some_iff.mp hfound
    cases heq
    exact .int hmagnitude
  case inr.inr.inr.inl =>
    obtain ⟨_, hnull, heq⟩ := Option.map_eq_some_iff.mp hfound
    cases heq
    exact .null (by decide) hnull
  case inr.inr.inr.inr.inl =>
    simp only [bool] at hfound
    split at hfound
    · rename_i htrue
      cases hfound
      exact .bool true (by decide) htrue
    · obtain ⟨_, hfalse, heq⟩ := Option.map_eq_some_iff.mp hfound
      cases heq
      exact .bool false (by decide) hfalse
  case inr.inr.inr.inr.inr.inl =>
    simp only [bytes] at hfound
    split at hfound
    · rename_i hmarks
      obtain ⟨_, hquoted, heq⟩ := Option.map_eq_some_iff.mp hfound
      cases heq
      exact .bytes _ (append_of_bytesMarks hmarks).symm (allNameChars_of_bytesMarks hmarks) hquoted
    · cases hfound
  case inr.inr.inr.inr.inr.inr =>
    simp only [Scanner.text] at hfound
    split at hfound
    · rename_i c after
      split at hfound
      · rename_i hraw
        obtain ⟨_, hquoted, heq⟩ := Option.map_eq_some_iff.mp hfound
        cases heq
        have hmarks : c :: after = [c] ++ after := rfl
        exact .text true hmarks
          (List.forall_mem_singleton.mpr (isNameChar_of_isRawMark hraw)) hquoted
      · obtain ⟨_, hquoted, heq⟩ := Option.map_eq_some_iff.mp hfound
        cases heq
        have hmarks : c :: after = [] ++ (c :: after) := rfl
        exact .text false hmarks (List.forall_mem_nil _) hquoted
    · cases hfound

/-- What begins with neither a digit nor a point is no number, and the literals of numbers are the
first three. -/
theorem literal_eq_of_number_none {c : Char} (hdigit : isDigit c = false) (hpoint : c ≠ '.')
    (rest : List Char) : literal (c :: rest) =
      (Reader.literals.drop 3).findSome? fun entry => entry.2 (c :: rest) := by
  obtain ⟨hdouble, huint, hint⟩ := number_none hdigit hpoint rest
  simp [literal, Reader.literals, hdouble, huint, hint]

/-- What the scanner of one kind of literals takes is a literal in front of every text that does
not continue it. -/
theorem literal_of_entry {entry : Construct × Scanner Token} {token : Token}
    (hmem : entry ∈ Reader.literals) (hfound : entry.2 text = some (token, taken, rest))
    (hends : Ends rest') (hrest : startsName rest = false → startsName rest' = false) :
    literal (taken ++ rest') = some (token, taken, rest') := by
  have hquote := hends.unquoted
  simp only [Reader.literals, List.mem_cons, List.not_mem_nil, or_false] at hmem
  -- the scanners in front of that of the kind find nothing there, as in the other text
  rcases hmem with rfl | rfl | rfl | rfl | rfl | rfl | rfl
  case inl => simp [literal, Reader.literals, double_continued hfound hends]
  case inr.inl =>
    obtain ⟨hdouble, huint⟩ := uint_continued hfound rest'
    simp [literal, Reader.literals, hdouble, huint]
  case inr.inr.inl =>
    obtain ⟨hdouble, huint, hint⟩ := int_continued hfound hends
    simp [literal, Reader.literals, hdouble, huint, hint]
  case inr.inr.inr.inl =>
    obtain ⟨hnull, more, rfl⟩ := null_continued hfound hrest
    rw [List.cons_append] at hnull ⊢
    rw [literal_eq_of_number_none (by decide) (by decide)]
    simp [Reader.literals, hnull]
  case inr.inr.inr.inr.inl =>
    obtain ⟨hbool, c, more, hc, rfl⟩ := bool_continued hfound hrest
    have hdigit : ∀ c ∈ ['t', 'f'], isDigit c = false ∧ c ≠ '.' ∧ c ≠ 'n' := by decide
    obtain ⟨hdigit, hpoint, hn⟩ := hdigit c hc
    rw [List.cons_append] at hbool ⊢
    rw [literal_eq_of_number_none hdigit hpoint]
    simp [Reader.literals, hbool, null_none hn]
  case inr.inr.inr.inr.inr.inl =>
    -- marks of bytes are no letters of `null`, `true` and `false`
    obtain ⟨hbytes, c, more, hc, rfl⟩ := bytes_continued hfound hquote
    have hdigit : ∀ c ∈ ['b', 'B', 'r', 'R'], isDigit c = false ∧ c ≠ '.' ∧ c ≠ 'n' ∧ c ≠ 't' ∧
        c ≠ 'f' := by decide
    obtain ⟨hdigit, hpoint, hn, ht, hf⟩ := hdigit c hc
    rw [List.cons_append] at hbytes ⊢
    rw [literal_eq_of_number_none hdigit hpoint]
    simp [Reader.literals, hbytes, null_none hn, bool_none ht hf]
  case inr.inr.inr.inr.inr.inr =>
    obtain ⟨htext, hbytes, c, more, hc, rfl⟩ := text_continued hfound hquote
    have hdigit : ∀ c ∈ ['r', 'R', '"', '\''], isDigit c = false ∧ c ≠ '.' ∧ c ≠ 'n' ∧ c ≠ 't' ∧
        c ≠ 'f' := by decide
    obtain ⟨hdigit, hpoint, hn, ht, hf⟩ := hdigit c hc
    rw [List.cons_append] at htext hbytes ⊢
    rw [literal_eq_of_number_none hdigit hpoint]
    simp [Reader.literals, htext, hbytes, null_none hn, bool_none ht hf]

/-- No literal begins where there is a name. -/
theorem literal_none_of_name {token : Token} (h : name text = some (token, taken, rest))
    (hname : startsName rest' = false) (hquote : ∀ c ∈ rest'.head?, c ∉ ['"', '\'']) :
    literal (taken ++ rest') = none := by
  obtain ⟨-, hchars, -, ⟨c, more, hcons, hfirst⟩, hkeyword⟩ := name_spec h
  obtain ⟨htake, hdrop⟩ := Text.takeWhile_append_stop hchars (head_of_startsName hname)
  have hunquoted : Unquoted (taken ++ rest') := by
    intro d hd
    rw [hdrop] at hd
    simpa using hquote d hd
  have hword : ∀ w ∈ keywords, word w (taken ++ rest') = none := by
    intro w hw
    cases hfound : word w (taken ++ rest') with
    | none => rfl
    | some found =>
        have heq := takeWhile_of_word (isNameChar_of_mem_keyword hw) hfound
        rw [htake] at heq
        exact absurd (heq ▸ hw) hkeyword
  have hnull : null (taken ++ rest') = none := by
    rw [null, hword _ (by decide), Option.map_none]
  have hbool : bool (taken ++ rest') = none := by
    simp only [bool, hword ['t', 'r', 'u', 'e'] (by decide),
      hword ['f', 'a', 'l', 's', 'e'] (by decide), Option.map_none]
  have hdigit : isDigit c = false := by
    rcases hfirst with hletter | rfl
    · exact isDigit_eq_false_of_isLetter hletter
    · rfl
  have hpoint : c ≠ '.' := IsName.ne_head hfirst (by decide)
  obtain ⟨hdouble, huint, hint⟩ := number_none hdigit hpoint (more ++ rest')
  rw [← List.cons_append, ← hcons] at hdouble huint hint
  simp [literal, Reader.literals, hdouble, huint, hint, hnull, hbool, hunquoted.bytes_none,
    hunquoted.text_none]

/-! ### Marks -/

theorem digits_eq_none_iff : digits rest = none ↔ ∀ c ∈ rest.head?, isDigit c = false := by
  cases rest with
  | nil => exact ⟨fun _ => nofun, fun _ => rfl⟩
  | cons c rest =>
      constructor
      · rintro h _ ⟨⟩
        by_contra hdigit
        have hc : isDigit c = true := Bool.not_eq_false _ ▸ hdigit
        simp [digits, hc] at h
      · exact fun h => digits_none (h c rfl) rest

/-- A point is a mark if no digit follows it. -/
theorem literal_point (rest : List Char) :
    literal ('.' :: rest) = none ↔ ∀ c ∈ rest.head?, isDigit c = false := by
  have hdigits : digits ('.' :: rest) = none := digits_none (by decide) rest
  have hhex : hexDigits ('.' :: rest) = none := rfl
  have hdouble : double ('.' :: rest) = none ↔ ∀ c ∈ rest.head?, isDigit c = false := by
    simp [double, doubleText, hdigits, fraction, digits_eq_none_iff]
  have hnumbers : uint ('.' :: rest) = none ∧ int ('.' :: rest) = none := by
    simp [uint, int, magnitude, hhex, hdigits]
  have hnull : null ('.' :: rest) = none := null_none (by decide) rest
  have hbool : bool ('.' :: rest) = none := bool_none (by decide) (by decide) rest
  have hbytes : bytes ('.' :: rest) = none := bytes_none rfl rfl rest
  have htext : Scanner.text ('.' :: rest) = none := text_none rfl (by decide) (by decide) rest
  rw [← hdouble]
  simp [literal, Reader.literals, hnumbers, hnull, hbool, hbytes, htext]

/-- A fraction is a literal on its own. -/
theorem fraction_none_of_literal (h : literal text = none) : fraction text = none := by
  unfold fraction
  split
  · rw [digits_eq_none_iff.mpr ((literal_point _).mp h), Option.map_none]
  · rfl

/-- A mark is one of those in the list, or a word behind which no further character of a name
stands. -/
theorem mark_spec {m : List Char} (h : mark text = some m) :
    (m ∈ marks ∨ m = ['i', 'n'] ∧ startsName (text.drop m.length) = false) ∧
      m ++ text.drop m.length = text := by
  unfold mark at h
  split at h
  · cases h
  · split at h
    · rename_i found hfind
      cases h
      have hbegins := List.find?_some hfind
      obtain ⟨tail, rfl⟩ := List.isPrefixOf_iff_prefix.mp hbegins
      exact ⟨.inl (List.mem_of_find?_eq_some hfind), by rw [List.drop_left]⟩
    · obtain ⟨⟨u, taken, rest⟩, hword, heq⟩ := Option.map_eq_some_iff.mp h
      cases heq
      obtain ⟨rfl, rfl, hstop⟩ := word_spec hword
      exact ⟨.inr ⟨rfl, by rwa [List.drop_left]⟩, by rw [List.drop_left]⟩

theorem ne_nil_of_mark {m : List Char} (h : mark text = some m) : m ≠ [] := by
  rcases (mark_spec h).1 with hm | ⟨rfl, -⟩
  · rintro rfl
    exact absurd hm (by decide)
  · exact List.cons_ne_nil _ _

/-- A text begins like its mark. -/
theorem head_of_mark {m : List Char} (h : mark text = some m) : text.head? = m.head? := by
  have hhead : (m ++ text.drop m.length).head? = m.head? :=
    List.head?_append_of_ne_nil _ (ne_nil_of_mark h)
  rwa [(mark_spec h).2] at hhead

theorem find?_eq_some_of_imp {α : Type} {p q : α → Bool} {xs : List α} {a : α}
    (h : xs.find? p = some a) (ha : q a = true) (himp : ∀ b ∈ xs, q b = true → p b = true) :
    xs.find? q = some a := by
  induction xs with
  | nil => cases h
  | cons b xs ih =>
      rw [List.find?_cons] at h ⊢
      cases hq : q b with
      | true =>
          rw [himp b List.mem_cons_self hq] at h
          exact h
      | false =>
          cases hp : p b with
          | true =>
              rw [hp] at h
              cases h
              exact absurd ha (by simp [hq])
          | false =>
              rw [hp] at h
              exact ih h fun c hc => himp c (List.mem_cons_of_mem _ hc)

/-- A mark has one character or two, of which the second is one of three. -/
theorem marks_spec : ∀ m ∈ marks, (∃ a, m = [a]) ∨ ∃ a, ∃ b ∈ ['|', '&', '='], m = [a, b] := by
  simp [marks]

/-- No literal and no name begins with the first character of a mark, unless that is a point. -/
theorem marks_head : ∀ m ∈ marks, ∀ c ∈ m.head?, isNameChar c = false ∧ isDigit c = false ∧
    c ∉ ['n', 't', 'f', 'b', 'B', 'r', 'R', '"', '\''] ∧ Cursor.isBlank c = false := by
  decide

/-- The first characters of a text that are a mark are parted from what stands behind them: they
begin neither a fraction, a longer mark nor a comment. -/
structure Parted (m rest : List Char) : Prop where
  point : m = ['.'] → ∀ c ∈ rest.head?, isDigit c = false
  second : m ∈ [['<'], ['>'], ['!']] → '=' ∉ rest.head?
  slash : m = ['/'] → '/' ∉ rest.head?

/-- A mark that begins the text begins its first mark. -/
theorem isPrefixOf_of_parted {m m' : List Char} (hm : m ∈ marks) (hm' : m' ∈ marks)
    (h : Parted m rest) (hbegins : m'.isPrefixOf (m ++ rest) = true) : m'.isPrefixOf m = true := by
  have hlonger : ∀ m' ∈ marks, ∀ m ∈ marks, m'.length = 2 → m'.take 1 = m →
      m ∈ [['<'], ['>'], ['!']] ∧ m'.drop 1 = ['='] := by decide
  rcases marks_spec m hm with ⟨c, rfl⟩ | ⟨c, d, -, rfl⟩ <;>
    rcases marks_spec m' hm' with ⟨a, rfl⟩ | ⟨a, b, -, rfl⟩
  · simpa using hbegins
  · -- the second character would stand behind the mark
    cases rest with
    | nil => simp at hbegins
    | cons d rest =>
        simp only [List.cons_append, List.nil_append, List.isPrefixOf, Bool.and_true,
          Bool.and_eq_true, beq_iff_eq] at hbegins
        obtain ⟨rfl, rfl⟩ := hbegins
        obtain ⟨hmem, hequals⟩ := hlonger _ hm' _ hm rfl rfl
        cases hequals
        exact absurd rfl (h.second hmem)
  · simpa using hbegins
  · simpa using hbegins

theorem mark_append {m : List Char} (hm : m ∈ marks) (h : Parted m rest) :
    mark (m ++ rest) = some m := by
  have hfind : marks.find? (·.isPrefixOf (m ++ rest)) = some m := by
    have hself : ∀ m ∈ marks, marks.find? (·.isPrefixOf m) = some m := by decide
    exact find?_eq_some_of_imp (hself m hm) (by simp) fun m' hm' => isPrefixOf_of_parted hm hm' h
  have hcomment : ¬['/', '/'].isPrefixOf (m ++ rest) = true := by
    intro hbegins
    have hsingle : ∀ m ∈ marks, m.head? = some '/' → m = ['/'] := by decide
    obtain ⟨tail, htail⟩ := List.isPrefixOf_iff_prefix.mp hbegins
    have hhead : m.head? = some '/' := by
      rcases marks_spec m hm with ⟨a, rfl⟩ | ⟨a, b, -, rfl⟩ <;> cases htail <;> rfl
    obtain rfl := hsingle m hm hhead
    obtain rfl : '/' :: tail = rest := (List.cons.inj htail).2
    exact h.slash rfl rfl
  rw [mark, if_neg hcomment, hfind]

/-- The word among the marks is found where no longer word begins. -/
theorem mark_in (h : startsName rest = false) : mark (['i', 'n'] ++ rest) = some ['i', 'n'] := by
  have hnone : marks.find? (·.isPrefixOf ('i' :: 'n' :: rest)) = none := by
    rw [List.find?_eq_none]
    intro m hm
    rcases marks_spec m hm with ⟨a, rfl⟩ | ⟨a, b, -, rfl⟩ <;>
      · have ha : a ≠ 'i' := by
          rintro rfl
          exact absurd (marks_head _ hm 'i' rfl).1 (by decide)
        simp [ha]
  have hword : word ['i', 'n'] ('i' :: 'n' :: rest) = some ((), ['i', 'n'], rest) :=
    word_continued h
  simp [mark, hnone, hword]

/-! ### Lexemes -/

variable {x : Lexeme}

theorem lexeme_cases (h : lexeme text = some (x, rest)) :
    (∃ token taken, x = .literal token taken ∧ literal text = some (token, taken, rest)) ∨
      (∃ token taken, x = .name taken ∧ literal text = none ∧
        name text = some (token, taken, rest)) ∨
      ∃ m, x = .mark m ∧ literal text = none ∧ name text = none ∧ mark text = some m ∧
        m ++ rest = text := by
  unfold lexeme at h
  split at h
  · rename_i hliteral
    cases h
    exact .inl ⟨_, _, rfl, hliteral⟩
  · rename_i hliteral
    split at h
    · rename_i hname
      cases h
      exact .inr (.inl ⟨_, _, rfl, hliteral, hname⟩)
    · rename_i hname
      obtain ⟨m, hmark, heq⟩ := Option.map_eq_some_iff.mp h
      cases heq
      exact .inr (.inr ⟨m, rfl, hliteral, hname, hmark, (mark_spec hmark).2⟩)

theorem literal_of_lexeme {token : Token} (h : lexeme text = some (.literal token taken, rest)) :
    literal text = some (token, taken, rest) := by
  rcases lexeme_cases h with ⟨_, _, heq, hliteral⟩ | ⟨_, _, heq, -⟩ | ⟨_, heq, -⟩ <;> cases heq
  exact hliteral

theorem name_of_lexeme (h : lexeme text = some (.name taken, rest)) :
    literal text = none ∧ name text = some (.name taken, taken, rest) := by
  rcases lexeme_cases h with ⟨_, _, heq, -⟩ | ⟨_, _, heq, hliteral, hname⟩ | ⟨_, heq, -⟩ <;>
    cases heq
  obtain ⟨rfl, -⟩ := name_spec hname
  exact ⟨hliteral, hname⟩

theorem mark_of_lexeme {m : List Char} (h : lexeme text = some (.mark m, rest)) :
    literal text = none ∧ mark text = some m ∧ m ++ rest = text := by
  rcases lexeme_cases h with ⟨_, _, heq, -⟩ | ⟨_, _, heq, -⟩ |
    ⟨_, heq, hliteral, -, hmark, happend⟩ <;> cases heq
  exact ⟨hliteral, hmark, happend⟩

theorem literal_splits : Splits literal := by
  intro text a taken rest h
  obtain ⟨entry, hmem, hfound⟩ := List.exists_of_findSome?_eq_some h
  exact Reader.Level.splits_of_mem_literals entry hmem _ _ _ _ hfound

theorem append_of_lexeme (h : lexeme text = some (x, rest)) : x.text ++ rest = text := by
  rcases lexeme_cases h with ⟨token, taken, rfl, hliteral⟩ | ⟨token, taken, rfl, -, hname⟩ |
    ⟨m, rfl, -, -, -, happend⟩
  · exact literal_splits _ _ _ _ hliteral
  · exact name_splits _ _ _ _ hname
  · exact happend

/-- The text begins like `rest`, or with layout that does not run together with the lexeme. -/
def Resumes (x : Lexeme) (rest rest' : List Char) : Prop :=
  ∀ c ∈ rest'.head?, c ∈ rest.head? ∨ Cursor.isBlank c = true ∨ c = '/' ∧ x ≠ .mark ['/']

/-- What is said of the first character behind the lexeme, and not of layout, stays true. -/
theorem Resumes.keeps (h : Resumes x rest rest') {p : Char → Bool}
    (hlayout : ∀ c ∈ [' ', '\t', '\r', '\n', '/'], p c = false)
    (hrest : ∀ c ∈ rest.head?, p c = false) : ∀ c ∈ rest'.head?, p c = false := by
  intro c hc
  rcases h c hc with hc | hc | ⟨rfl, -⟩
  · exact hrest c hc
  · simp only [Cursor.isBlank, Bool.or_eq_true, beq_iff_eq] at hc
    rcases hc with ((rfl | rfl) | rfl) | rfl <;> exact hlayout _ (by decide)
  · exact hlayout _ (by decide)

theorem Resumes.startsName (h : Resumes x rest rest') (hrest : startsName rest = false) :
    startsName rest' = false := by
  have hchars := h.keeps (by decide) (head_of_startsName hrest)
  cases rest' with
  | nil => rfl
  | cons c rest' => exact hchars c rfl

/-- A mark of the list is a lexeme if and only if it is parted from what stands behind it. -/
theorem lexeme_mark_iff {m : List Char} (hm : m ∈ marks) :
    lexeme (m ++ rest) = some (.mark m, rest) ↔ Parted m rest := by
  constructor
  · intro h
    obtain ⟨hliteral, hmark, -⟩ := mark_of_lexeme h
    refine ⟨?_, fun hmem hhead => ?_, ?_⟩
    · rintro rfl
      exact (literal_point rest).mp hliteral
    · obtain ⟨tail, rfl⟩ : ∃ tail, rest = '=' :: tail := List.head?_eq_some_iff.mp hhead
      simp only [List.mem_cons, List.not_mem_nil, or_false] at hmem
      rcases hmem with rfl | rfl | rfl <;> simp [mark, marks] at hmark
    · rintro rfl hhead
      obtain ⟨tail, rfl⟩ : ∃ tail, rest = '/' :: tail := List.head?_eq_some_iff.mp hhead
      simp [mark] at hmark
  · intro h
    obtain ⟨c, more, rfl⟩ : ∃ c more, m = c :: more := by
      rcases marks_spec m hm with ⟨a, rfl⟩ | ⟨a, b, -, rfl⟩ <;> exact ⟨_, _, rfl⟩
    obtain ⟨hname, hdigit, hc, -⟩ := marks_head _ hm c rfl
    have hliteral : literal (c :: (more ++ rest)) = none := by
      by_cases hpoint : c = '.'
      · -- a digit behind the point would make it a literal
        subst hpoint
        have hsingle : ∀ m ∈ marks, m.head? = some '.' → m = ['.'] := by decide
        obtain ⟨-, rfl⟩ := List.cons.inj (hsingle _ hm rfl)
        exact (literal_point rest).mpr (h.point rfl)
      · have hfirst := mt List.mem_cons.mp (not_or.mpr ⟨hpoint, hc⟩)
        exact List.findSome?_eq_none_iff.mpr (literals_none hdigit hfirst _)
    have hmark := mark_append hm h
    rw [List.cons_append] at hmark ⊢
    simp only [lexeme, hliteral, name_none hname, hmark, Option.map_some]
    rw [← List.cons_append, List.drop_left]

theorem lexeme_in (h : startsName rest = false) :
    lexeme (['i', 'n'] ++ rest) = some (.mark ['i', 'n'], rest) := by
  have hliteral : literal (['i', 'n'] ++ rest) = none :=
    List.findSome?_eq_none_iff.mpr (literals_none (by decide) (by decide) _)
  simp only [lexeme, hliteral, name_none_of_keyword (w := ['i', 'n']) (by decide) h, mark_in h,
    Option.map_some]
  rfl

/-- The same lexeme is found in front of every text that does not continue it. -/
theorem lexeme_continued (h : lexeme text = some (x, rest)) (hresumes : Resumes x rest rest')
    (hends : (∀ m, x ≠ .mark m) → Ends rest') : lexeme (x.text ++ rest') = some (x, rest') := by
  rcases lexeme_cases h with ⟨token, taken, rfl, hliteral⟩ | ⟨token, taken, rfl, -, hname⟩ |
    ⟨m, rfl, -, -, hmark, rfl⟩
  · obtain ⟨entry, hmem, hfound⟩ := List.exists_of_findSome?_eq_some hliteral
    have hcontinued := literal_of_entry hmem hfound (hends nofun) hresumes.startsName
    simp only [Lexeme.text, lexeme, hcontinued]
  · obtain ⟨-, -, hstop, -, -⟩ := name_spec hname
    have hstop' := hresumes.startsName hstop
    have hliteral := literal_none_of_name hname hstop' (hends nofun).unquoted
    simp only [Lexeme.text, lexeme, hliteral, name_continued hname hstop']
  · have hkind := (mark_spec hmark).1
    rw [List.drop_left] at hkind
    rcases hkind with hm | ⟨rfl, hstop⟩
    · refine (lexeme_mark_iff hm).mpr ?_
      have hparted := (lexeme_mark_iff hm).mp h
      refine ⟨fun hpoint => hresumes.keeps (by decide) (hparted.point hpoint),
        fun hsecond hmem => ?_, fun hslash hmem => ?_⟩
      · have hequals : ∀ c ∈ rest.head?, (c == '=') = false := fun c hc =>
          beq_eq_false_iff_ne.mpr fun heq => hparted.second hsecond (heq ▸ hc)
        cases hresumes.keeps (p := (· == '=')) (by decide) hequals '=' hmem
      · rcases hresumes '/' hmem with hrest | hblank | ⟨-, hne⟩
        · exact hparted.slash hslash hrest
        · cases hblank
        · exact hne (hslash ▸ rfl)
    · exact lexeme_in (hresumes.startsName hstop)

end Lexemes

end Scanner

end EmbeddedExpr.Grammar
