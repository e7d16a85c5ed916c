import EmbeddedExpr.Proofs.Grammar.Slices
import EmbeddedExpr.Proofs.Number.Numeral

/-!
# Numerals in a source

A numeral is a run of decimal digits, or of hexadecimal ones behind `0x` (`Number.Spells`).  A
lexeme is a signed integer just if its text is a numeral, and an unsigned one if a mark follows the
numeral; its digits are then read as the number that the numeral denotes.  An integer is written as
a numeral (`WritesUint`, `WritesInt`), but for the least signed one, whose magnitude is no signed
integer and stands behind a minus.
-/

namespace EmbeddedExpr

/-! ### Numerals -/

namespace Number

variable {text : List Char} {n m : ℕ}

/-- The text is a numeral of the number, in decimal digits or in hexadecimal ones behind `0x`. -/
inductive Spells : List Char → ℕ → Prop
  | decimal {digits : List Char} : digits ≠ [] → AllDigits digits →
      Spells digits (numeral 10 digits)
  | hexadecimal {mark : Char} {digits : List Char} : mark ∈ ['x', 'X'] → digits ≠ [] →
      (∀ c ∈ digits, isHexDigit c = true) → Spells ('0' :: mark :: digits) (numeral 16 digits)

theorem not_allDigits_of_mark {mark : Char} (h : mark ∈ ['x', 'X']) (digits : List Char) :
    ¬AllDigits ('0' :: mark :: digits) := by
  intro hall
  have hdigit := hall mark (by simp)
  rcases List.mem_pair.mp h with rfl | rfl <;> cases hdigit

/-- A numeral is of one number. -/
theorem Spells.unique (h : Spells text n) (h' : Spells text m) : n = m := by
  cases h with
  | decimal _ hdigits =>
      cases h' with
      | decimal => rfl
      | hexadecimal hmark => exact absurd hdigits (not_allDigits_of_mark hmark _)
  | hexadecimal hmark =>
      cases h' with
      | decimal _ hdigits => exact absurd hdigits (not_allDigits_of_mark hmark _)
      | hexadecimal => rfl

theorem spells_decimal_iff (hne : text ≠ []) (hdigits : AllDigits text) :
    Spells text n ↔ numeral 10 text = n := by
  constructor
  · exact fun h => (Spells.decimal hne hdigits).unique h
  · rintro rfl
    exact .decimal hne hdigits

theorem spells_hexadecimal_iff {mark : Char} {digits : List Char} (hmark : mark ∈ ['x', 'X'])
    (hne : digits ≠ []) (hdigits : ∀ c ∈ digits, isHexDigit c = true) :
    Spells ('0' :: mark :: digits) n ↔ numeral 16 digits = n := by
  constructor
  · exact fun h => (Spells.hexadecimal hmark hne hdigits).unique h
  · rintro rfl
    exact .hexadecimal hmark hne hdigits

theorem Spells.minus_notMem_head? (h : Spells text n) : '-' ∉ text.head? := by
  intro hminus
  cases h with
  | decimal hne hdigits => exact absurd (hdigits _ (List.mem_of_mem_head? hminus)) (by decide)
  | hexadecimal => cases hminus

end Number

open Number (AllDigits Spells isHexDigit)

namespace Grammar

open Scanner (lexeme)

/-! ### Numerals as lexemes -/

namespace Scanner

variable {text run taken rest : List Char} {hex : Bool} {n : Nat}

theorem magnitude?_eq_some_iff (h : magnitude text = some (hex, run, taken, rest)) :
    Built.magnitude? hex run = some n ↔ Spells taken n := by
  unfold magnitude at h
  split at h
  · rename_i hhex
    cases h
    obtain ⟨mark, hmark, rfl, hne, hrun⟩ := hexDigits_spec hhex
    rw [Built.magnitude?, if_pos rfl, Number.readHex?_eq_some_iff,
      Number.spells_hexadecimal_iff hmark hne hrun, and_iff_right hne, and_iff_right hrun]
  · obtain ⟨⟨part, after⟩, hdigits, heq⟩ := Option.map_eq_some_iff.mp h
    cases heq
    obtain ⟨hrun, hne, -⟩ := digits_spec hdigits
    rw [Built.magnitude?, if_neg Bool.false_ne_true, Number.readNat?_eq_some_iff,
      Number.spells_decimal_iff hne hrun, and_iff_right hne, and_iff_right hrun]

/-- A numeral is scanned as one up to a character that does not continue it. -/
theorem exists_magnitude (h : Spells text n)
    (hrest : ∀ c ∈ rest.head?, isHexDigit c = false ∧ c ∉ ['x', 'X']) :
    ∃ hex run, magnitude (text ++ rest) = some (hex, run, text, rest) := by
  cases h with
  | decimal hne hdigits =>
      exact ⟨_, _, magnitude_digits hdigits hne fun c hc =>
        ⟨isDigit_eq_false (hrest c hc).1, (hrest c hc).2⟩⟩
  | @hexadecimal mark digits hmark hne hdigits =>
      obtain ⟨htake, hdrop⟩ := Text.takeWhile_append_stop hdigits fun c hc => (hrest c hc).1
      have hmarked : (mark == 'x' || mark == 'X') = true := by simpa using hmark
      exact ⟨true, digits, by simp [magnitude, hexDigits, htake, hdrop, hmarked, hne]⟩

/-- A numeral is a signed integer. -/
theorem lexeme_of_spells (h : Spells text n) :
    ∃ hex run, lexeme text = some (.literal (.int hex run text) text, []) ∧
      Built.magnitude? hex run = some n := by
  obtain ⟨hex, run, hmagnitude⟩ : ∃ hex run, magnitude (text ++ []) = some (hex, run, text, []) :=
    exists_magnitude h nofun
  rw [List.append_nil] at hmagnitude
  have hint : int text = some (.int hex run text, text, []) := by
    simp only [int, hmagnitude, Option.map_some]
  have hends : Ends [] := ⟨nofun, rfl⟩
  obtain ⟨hdouble, huint, hint⟩ := int_continued hint hends
  rw [List.append_nil] at hdouble huint hint
  have hliteral : literal text = some (.int hex run text, text, []) := by
    simp only [literal, Reader.literals, List.findSome?, hdouble, huint, hint]
  exact ⟨hex, run, by rw [lexeme, hliteral], (magnitude?_eq_some_iff hmagnitude).mpr h⟩

/-- A numeral with a mark behind it is an unsigned integer. -/
theorem lexeme_of_spells_marked {mark : Char} (h : Spells text n) (hmark : mark ∈ ['u', 'U']) :
    ∃ hex run, lexeme (text ++ [mark]) =
        some (.literal (.uint hex run (text ++ [mark])) (text ++ [mark]), []) ∧
      Built.magnitude? hex run = some n := by
  have hstop : ∀ c ∈ [mark].head?, isHexDigit c = false ∧ c ∉ ['x', 'X'] := by
    rintro _ ⟨⟩
    rcases List.mem_pair.mp hmark with rfl | rfl <;> decide
  obtain ⟨hex, run, hmagnitude⟩ := exists_magnitude h hstop
  have hmarked : (mark == 'u' || mark == 'U') = true := by simpa using hmark
  have huint : uint (text ++ [mark]) =
      some (.uint hex run (text ++ [mark]), text ++ [mark], []) := by
    simp only [uint, hmagnitude, hmarked, if_true]
  obtain ⟨hdouble, huint⟩ := uint_continued huint []
  rw [List.append_nil] at hdouble huint
  have hliteral : literal (text ++ [mark]) =
      some (.uint hex run (text ++ [mark]), text ++ [mark], []) := by
    simp only [literal, Reader.literals, List.findSome?, hdouble, huint]
  exact ⟨hex, run, by rw [lexeme, hliteral], (magnitude?_eq_some_iff hmagnitude).mpr h⟩

end Scanner

/-! ### Lexemes in a source -/

namespace Cursor.Next

variable {source text : List Char} {c d : Cursor} {x : Lexeme} {n : Nat}

theorem slice_eq (h : c.Next x d) (hc : c.In source) :
    Text.slice source c.skip.offset d.offset = x.text := by
  obtain ⟨before, hsource, hbefore⟩ := hc.skip
  rw [h.offset_eq, hbefore, hsource, ← Scanner.append_of_lexeme h.lexeme_eq, Text.slice_append]

/-- The text of a lexeme is the lexeme by itself. -/
theorem lexeme_text (h : c.Next x d) : lexeme x.text = some (x, []) := by
  have hshort : lexeme (x.text ++ []) = some (x, []) := Scanner.lexeme_short h.lexeme_eq h.ends
  rwa [List.append_nil] at hshort

theorem int_of_spells (h : c.Next x d) (hx : Spells x.text n) :
    ∃ hex run, x = .literal (.int hex run x.text) x.text ∧ Built.magnitude? hex run = some n := by
  obtain ⟨hex, run, hlexeme, hmagnitude⟩ := Scanner.lexeme_of_spells hx
  rw [h.lexeme_text] at hlexeme
  exact ⟨hex, run, congrArg Prod.fst (Option.some.inj hlexeme), hmagnitude⟩

theorem uint_of_spells {mark : Char} (h : c.Next x d) (htext : x.text = text ++ [mark])
    (hmark : mark ∈ ['u', 'U']) (hx : Spells text n) :
    ∃ hex run, x = .literal (.uint hex run x.text) x.text ∧ Built.magnitude? hex run = some n := by
  obtain ⟨hex, run, hlexeme, hmagnitude⟩ := Scanner.lexeme_of_spells_marked hx hmark
  rw [← htext, h.lexeme_text] at hlexeme
  exact ⟨hex, run, congrArg Prod.fst (Option.some.inj hlexeme), hmagnitude⟩

end Cursor.Next

/-! ### Integers as written -/

/-- The text is how the integer is written: a numeral of it, or in front of the magnitude of the
least integer, which is no integer itself, a minus. -/
inductive WritesInt : List Char → Int64 → Prop
  | numeral {text : List Char} {n : Nat} {i : Int64} : Spells text n → i.toInt = n →
      WritesInt text i
  | least {rest : List Char} : Spells (behindLayout rest) 0x8000000000000000 →
      WritesInt ('-' :: rest) Int64.minValue

/-- The text is how the unsigned integer is written: a numeral of it and a mark. -/
inductive WritesUint : List Char → UInt64 → Prop
  | marked {text : List Char} {mark : Char} {u : UInt64} : Spells text u.toNat →
      mark ∈ ['u', 'U'] → WritesUint (text ++ [mark]) u

section Written

variable {text : List Char}

theorem WritesInt.unique {i j : Int64} (h : WritesInt text i) (h' : WritesInt text j) : i = j := by
  cases h with
  | numeral hn hvalue =>
      cases h' with
      | numeral hm hvalue' =>
          obtain rfl := hn.unique hm
          exact Int64.toInt_inj.mp (hvalue.trans hvalue'.symm)
      | least => exact absurd rfl hn.minus_notMem_head?
  | least =>
      cases h' with
      | numeral hn => exact absurd rfl hn.minus_notMem_head?
      | least => rfl

theorem WritesUint.unique {u v : UInt64} (h : WritesUint text u) (h' : WritesUint text v) :
    u = v := by
  obtain ⟨hu, -⟩ := h
  generalize htext : _ ++ [_] = text at h'
  obtain ⟨hv, -⟩ := h'
  obtain ⟨rfl, -⟩ := List.append_inj' htext rfl
  exact UInt64.toNat_inj.mp (hu.unique hv)

theorem WritesInt.minus_iff {i : Int64} (h : WritesInt text i) :
    text.head? = some '-' ↔ i = Int64.minValue := by
  cases h with
  | numeral hn hvalue =>
      constructor
      · exact fun hminus => absurd hminus hn.minus_notMem_head?
      · rintro rfl
        rw [Int64.toInt_minValue] at hvalue
        omega
  | least => simp

end Written

end Grammar

end EmbeddedExpr
