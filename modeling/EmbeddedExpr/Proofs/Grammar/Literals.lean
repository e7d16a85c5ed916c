import EmbeddedExpr.Proofs.Grammar.Reading
import EmbeddedExpr.Proofs.Number.Digits
import EmbeddedExpr.Proofs.Text.Escape
import EmbeddedExpr.Proofs.Text.Run

/-!
# What the scanners make of literals

Each literal as it is written is accepted whole by its scanner, and refused by the scanners tried
before it.  Two things could go wrong.  The literal could go on behind its end: digits with a
point, an exponent or a mark, a word with more letters, a pair of quotation marks with a third.
Each lemma asks for the weakest condition on what stands behind, and all of them hold of what
closes a literal.  Or an earlier scanner could accept a part of it: what begins with another
character than all literals of a kind is none of this kind.
-/

namespace EmbeddedExpr.Grammar

open Number (isDigit AllDigits)

namespace Scanner

/-! ### Numbers -/

/-- The text does not go on with a number that stands before it. -/
def EndsDigits (text : List Char) : Prop :=
  ∀ c ∈ text.head?, isDigit c = false ∧ c ∉ ['.', 'e', 'E', 'x', 'X']

section Digits

variable {run rest : List Char}

theorem digits_append (hrun : AllDigits run) (hne : run ≠ [])
    (hrest : ∀ c ∈ rest.head?, isDigit c = false) : digits (run ++ rest) = some (run, rest) := by
  obtain ⟨htake, hdrop⟩ := Text.takeWhile_append_stop hrun hrest
  simp [digits, htake, hdrop, hne]

/-- Digits with neither a fraction nor an exponent behind them are no double. -/
theorem double_none_of_digits (hrun : AllDigits run) (hne : run ≠ [])
    (hrest : ∀ c ∈ rest.head?, isDigit c = false) (hfraction : fraction rest = none)
    (hexponent : exponent rest = none) : double (run ++ rest) = none := by
  simp only [double, doubleText, digits_append hrun hne hrest, hfraction, hexponent,
    Option.map_none]

theorem fraction_none (h : '.' ∉ rest.head?) : fraction rest = none := by
  unfold fraction
  split
  · exact absurd rfl h
  · rfl

theorem exponent_none (h : ∀ c ∈ rest.head?, c ∉ ['e', 'E']) : exponent rest = none := by
  unfold exponent
  split
  · rename_i mark rest
    have hmark := h mark rfl
    rw [if_neg]
    simp only [List.mem_cons, not_or] at hmark
    simp [hmark]
  · rfl

theorem double_digits (hrun : AllDigits run) (hne : run ≠ []) (hrest : EndsDigits rest) :
    double (run ++ rest) = none := by
  refine double_none_of_digits hrun hne (fun c hc => (hrest c hc).1) (fraction_none fun hpoint => ?_)
    (exponent_none fun c hc hmark => (hrest c hc).2 ?_)
  · exact absurd (hrest '.' hpoint).2 (by decide)
  · rcases List.mem_pair.mp hmark with rfl | rfl <;> decide

theorem magnitude_digits (hrun : AllDigits run) (hne : run ≠ [])
    (hrest : ∀ c ∈ rest.head?, isDigit c = false ∧ c ∉ ['x', 'X']) :
    magnitude (run ++ rest) = some (false, run, run, rest) := by
  have hhex : hexDigits (run ++ rest) = none := by
    unfold hexDigits
    split
    · rename_i mark tail heq
      -- the mark is another digit or stands behind the digits
      have hmark : (mark == 'x' || mark == 'X') = false := by
        rcases run with _ | ⟨c, _ | ⟨d, run⟩⟩
        · exact absurd rfl hne
        · obtain ⟨rfl, rfl⟩ : c = '0' ∧ rest = mark :: tail := by simpa using heq
          have hx := (hrest mark rfl).2
          simp only [List.mem_cons, not_or] at hx
          simp [hx]
        · obtain ⟨rfl, rfl, -⟩ : c = '0' ∧ d = mark ∧ run ++ rest = tail := by simpa using heq
          have hd := hrun d (by simp)
          by_contra hx
          simp only [Bool.not_eq_false, Bool.or_eq_true, beq_iff_eq] at hx
          rcases hx with rfl | rfl <;> cases hd
      simp only [hmark, Bool.false_and, Bool.false_eq_true, if_false]
    · rfl
  simp only [magnitude, hhex, digits_append hrun hne fun c hc => (hrest c hc).1, Option.map_some]

theorem EndsDigits.unmarked (h : EndsDigits rest) :
    ∀ c ∈ rest.head?, isDigit c = false ∧ c ∉ ['x', 'X'] := by
  refine fun c hc => ⟨(h c hc).1, fun hmark => (h c hc).2 ?_⟩
  rcases List.mem_pair.mp hmark with rfl | rfl <;> decide

theorem int_digits (hrun : AllDigits run) (hne : run ≠ []) (hrest : EndsDigits rest) :
    int (run ++ rest) = some (.int false run run, run, rest) := by
  simp only [int, magnitude_digits hrun hne hrest.unmarked, Option.map_some]

theorem endsDigits_of_closes (h : Closes rest) : EndsDigits rest :=
  h.forall_head (by simp [Number.isDigit_eq])

theorem uint_digits (hrun : AllDigits run) (hne : run ≠ []) (hrest : Closes rest) :
    uint (run ++ rest) = none := by
  have hmagnitude := magnitude_digits hrun hne (endsDigits_of_closes hrest).unmarked
  have hmark : ∀ c ∈ rest.head?, (c == 'u' || c == 'U') = false := hrest.forall_head (by simp)
  cases rest with
  | nil => simp only [uint, hmagnitude]
  | cons c rest => simp only [uint, hmagnitude, hmark c rfl, Bool.false_eq_true, if_false]

theorem uint_digits_mark (hrun : AllDigits run) (hne : run ≠ []) :
    uint (run ++ 'u' :: rest) = some (.uint false run (run ++ ['u']), run ++ ['u'], rest) := by
  have hends : EndsDigits ('u' :: rest) := by
    rintro _ ⟨⟩
    decide
  simp only [uint, magnitude_digits hrun hne hends.unmarked]
  rfl

end Digits

/-- What begins with neither a digit nor a point is no number. -/
theorem number_none {c : Char} (hdigit : isDigit c = false) (hpoint : c ≠ '.') (rest : List Char) :
    double (c :: rest) = none ∧ uint (c :: rest) = none ∧ int (c :: rest) = none := by
  have hdigits : digits (c :: rest) = none := by simp [digits, hdigit]
  have hfraction : fraction (c :: rest) = none := by
    unfold fraction
    split
    · rename_i heq
      cases heq
      exact absurd rfl hpoint
    · rfl
  have hhex : hexDigits (c :: rest) = none := by
    unfold hexDigits
    split
    · rename_i heq
      cases heq
      cases hdigit
    · rfl
  simp [double, doubleText, uint, int, magnitude, hdigits, hfraction, hhex]

/-! ### Words -/

theorem startsName_of_closes {rest : List Char} (h : Closes rest) : startsName rest = false := by
  have hhead : ∀ c ∈ rest.head?, isNameChar c = false :=
    h.forall_head (by simp [isNameChar, isLetter, Number.isDigit_eq])
  cases rest with
  | nil => rfl
  | cons c rest => exact hhead c rfl

theorem word_append (w : List Char) {rest : List Char} (h : Closes rest) :
    word w (w ++ rest) = some ((), w, rest) := by
  simp [word, startsName_of_closes h]

theorem word_none {c d : Char} (h : c ≠ d) (w rest : List Char) :
    word (c :: w) (d :: rest) = none := by
  simp [word, h]

theorem null_none {c : Char} (h : c ≠ 'n') (rest : List Char) : null (c :: rest) = none := by
  rw [null, word_none h.symm, Option.map_none]

theorem bool_none {c : Char} (htrue : c ≠ 't') (hfalse : c ≠ 'f') (rest : List Char) :
    bool (c :: rest) = none := by
  simp only [bool, word_none htrue.symm, word_none hfalse.symm, Option.map_none]

theorem null_append {rest : List Char} (h : Closes rest) :
    null (['n', 'u', 'l', 'l'] ++ rest) = some (.null, ['n', 'u', 'l', 'l'], rest) := by
  rw [null, word_append _ h, Option.map_some]

theorem bool_append (b : Bool) {rest : List Char} (h : Closes rest) :
    bool ((if b then ['t', 'r', 'u', 'e'] else ['f', 'a', 'l', 's', 'e']) ++ rest) =
      some (.bool b, if b then ['t', 'r', 'u', 'e'] else ['f', 'a', 'l', 's', 'e'], rest) := by
  cases b with
  | false =>
      have hother : word ['t', 'r', 'u', 'e'] (['f', 'a', 'l', 's', 'e'] ++ rest) = none :=
        word_none (by decide) _ _
      simp only [bool, Bool.false_eq_true, if_false, hother, word_append _ h, Option.map_some]
  | true => simp only [bool, if_true, word_append _ h]

theorem name_none {c : Char} (h : isNameChar c = false) (rest : List Char) :
    name (c :: rest) = none := by
  rw [name, List.takeWhile_cons_of_neg (by simp [h])]

/-! ### Quoted literals -/

section Quoted

open Text (Quotable)

variable {body rest : List Char}

theorem bodyToMark_append (h : Quotable body) (rest : List Char) :
    bodyToMark '"' (body ++ '"' :: rest) = some (body, rest) := by
  induction h with
  | nil => simp [bodyToMark]
  | plain hc _ ih =>
      rw [List.cons_append, bodyToMark, if_neg hc.1, if_neg hc.2.2, ih]
      · rfl
      · exact fun _ _ h _ => hc.2.1 h
  | escape _ ih => rw [List.cons_append, List.cons_append, bodyToMark, ih]; rfl

/-- A body on one line is not taken for the beginning of a literal between three marks. -/
theorem not_tripled (h : Quotable body) (hrest : '"' ∉ rest.head?) :
    ['"', '"'].isPrefixOf (body ++ '"' :: rest) = false := by
  cases h with
  | nil =>
      cases rest with
      | nil => rfl
      | cons c rest =>
          have hne : ('"' == c) = false := by
            rw [beq_eq_false_iff_ne]
            rintro rfl
            exact hrest rfl
          simp only [List.nil_append, List.isPrefixOf, hne, Bool.false_and, Bool.and_false]
  | plain hc =>
      have hne : ('"' == _) = false := beq_eq_false_iff_ne.mpr hc.1.symm
      rw [List.cons_append, List.isPrefixOf, hne, Bool.false_and]
  | escape => rfl

theorem quoted_append (h : Quotable body) (hrest : '"' ∉ rest.head?) :
    quoted ('"' :: (body ++ '"' :: rest)) = some (body, '"' :: (body ++ ['"']), rest) := by
  have htripled : ['"', '"', '"'].isPrefixOf ('"' :: (body ++ '"' :: rest)) = false := by
    rw [List.isPrefixOf, not_tripled h hrest, Bool.and_false]
  simp only [quoted, quotedBy, htripled, Bool.false_eq_true, if_false, if_true,
    bodyToMark_append h, Option.map_some]
  rfl

theorem text_quoted (h : Quotable body) (hrest : '"' ∉ rest.head?) :
    text ('"' :: (body ++ '"' :: rest)) =
      some (.text false body, '"' :: (body ++ ['"']), rest) := by
  simp only [text, quoted_append h hrest]
  rfl

theorem bytes_quoted (h : Quotable body) (hrest : '"' ∉ rest.head?) :
    bytes ('b' :: '"' :: (body ++ '"' :: rest)) =
      some (.bytes false body, 'b' :: '"' :: (body ++ ['"']), rest) := by
  have hmarks : bytesMarks ('b' :: '"' :: (body ++ '"' :: rest)) =
      some (false, ['b'], '"' :: (body ++ '"' :: rest)) := rfl
  simp only [bytes, hmarks, quoted_append h hrest]
  rfl

end Quoted

theorem bytes_none {c : Char} (hbytes : isBytesMark c = false) (hraw : isRawMark c = false)
    (rest : List Char) : bytes (c :: rest) = none := by
  cases rest <;> simp [bytes, bytesMarks, hbytes, hraw]

theorem text_none {c : Char} (hraw : isRawMark c = false) (hquote : c ≠ '"') (hmark : c ≠ '\'')
    (rest : List Char) : text (c :: rest) = none := by
  simp [text, hraw, quoted, quotedBy, hquote, hmark, hquote.symm, hmark.symm]

/-- A character with which no literal begins. -/
theorem literals_none {c : Char} (hdigit : isDigit c = false)
    (hc : c ∉ ['.', 'n', 't', 'f', 'b', 'B', 'r', 'R', '"', '\'']) (rest : List Char) :
    ∀ entry ∈ Reader.literals, entry.2 (c :: rest) = none := by
  simp only [List.mem_cons, List.not_mem_nil, or_false, not_or] at hc
  obtain ⟨hpoint, hnull, htrue, hfalse, hbytes, hbytes', hraw, hraw', hquote, hmark⟩ := hc
  have hisBytes : isBytesMark c = false := by simp [isBytesMark, hbytes, hbytes']
  have hisRaw : isRawMark c = false := by simp [isRawMark, hraw, hraw']
  obtain ⟨hdouble, huint, hint⟩ := number_none hdigit hpoint rest
  simp [Reader.literals, hdouble, huint, hint, null_none hnull, bool_none htrue hfalse,
    bytes_none hisBytes hisRaw, text_none hisRaw hquote hmark]

end Scanner

end EmbeddedExpr.Grammar
