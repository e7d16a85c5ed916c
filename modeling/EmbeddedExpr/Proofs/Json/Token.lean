import EmbeddedExpr.Json.Reader
import EmbeddedExpr.Json.Writer
import EmbeddedExpr.Proofs.Number.Layout
import EmbeddedExpr.Proofs.Text.Run

/-!
# Strings and numbers of documents as text

Each character of a quoted text spells one code unit, or several that join to it, so a
string is read back up to its closing mark.  A number is written as a `Spelling` with a sign
before it; what follows a number in a text ends it (`EndsNumber`), so the reader takes the
whole spelling and no more.
-/

namespace EmbeddedExpr.Json

open Number

/-! ### Strings -/

theorem readHex?_control : ∀ n < 32, ∃ a b c d,
    Text.hexDigits 4 n = [a, b, c, d] ∧ readHex? [a, b, c, d] = some n := by
  intro n hn
  refine ⟨(Text.hexDigits 4 n)[0]!, (Text.hexDigits 4 n)[1]!, (Text.hexDigits 4 n)[2]!,
    (Text.hexDigits 4 n)[3]!, ?_⟩
  revert n
  decide

/-- A character is quoted as a mark, as four hexadecimal digits or as itself. -/
theorem quoteChar_cases (c : Char) :
    (∃ mark, quoteChar c = ['\\', mark] ∧ mark ≠ 'u' ∧ unescapeLetter? mark = some c.toNat) ∨
      (∃ p q r s, quoteChar c = ['\\', 'u', p, q, r, s] ∧
        readHex? [p, q, r, s] = some c.toNat) ∨
      (quoteChar c = [c] ∧ c ≠ '"' ∧ c ≠ '\\' ∧ ¬ c.toNat < 0x20) := by
  by_cases hmark : c ∈ ['"', '\\', '\x08', '\x0c', '\n', '\r', '\t']
  · simp only [List.mem_cons, List.not_mem_nil, or_false] at hmark
    rcases hmark with rfl | rfl | rfl | rfl | rfl | rfl | rfl <;>
      exact .inl ⟨_, rfl, by decide, rfl⟩
  · -- none of the short escapes applies
    simp only [List.mem_cons, List.not_mem_nil, or_false, not_or] at hmark
    obtain ⟨h₁, h₂, h₃, h₄, h₅, h₆, h₇⟩ := hmark
    rw [quoteChar, if_neg h₁, if_neg h₂, if_neg h₃, if_neg h₄, if_neg h₅, if_neg h₆, if_neg h₇]
    by_cases hcontrol : c.toNat < 0x20
    · obtain ⟨p, q, r, s, hdigits, hread⟩ := readHex?_control c.toNat hcontrol
      rw [if_pos hcontrol, hdigits]
      exact .inr (.inl ⟨p, q, r, s, rfl, hread⟩)
    · rw [if_neg hcontrol]
      exact .inr (.inr ⟨rfl, h₁, h₂, hcontrol⟩)

/-- Each character of a quoted text is read back as its own code unit. -/
theorem stringUnits_quoteChar (c : Char) (rest : List Char) :
    stringUnits (quoteChar c ++ rest) =
      (stringUnits rest).map fun r => (c.toNat :: r.1, r.2) := by
  rcases quoteChar_cases c with ⟨mark, hquote, hu, hunit⟩ | ⟨p, q, r, s, hquote, hunit⟩ |
    ⟨hquote, hmark, hslash, hplain⟩
  · rw [hquote, List.cons_append, List.cons_append, List.nil_append, stringUnits]
    · rw [hunit]
      cases stringUnits rest <;> rfl
    · rintro _ _ _ _ _ rfl
      exact absurd rfl hu
  · rw [hquote]
    simp only [List.cons_append, List.nil_append]
    rw [stringUnits, hunit]
    cases stringUnits rest <;> rfl
  · rw [hquote, List.cons_append, List.nil_append, stringUnits]
    · rw [if_neg (by simp [hplain, hslash])]
      cases stringUnits rest <;> rfl
    · exact hmark
    · exact fun _ _ _ _ _ h => absurd h hslash
    · exact fun _ _ h => absurd h hslash

theorem stringUnits_quoted (cs rest : List Char) :
    stringUnits (cs.flatMap quoteChar ++ '"' :: rest) = some (cs.map Char.toNat, rest) := by
  induction cs with
  | nil => rw [List.flatMap_nil, List.nil_append, stringUnits, List.map_nil]
  | cons c cs ih =>
      rw [List.flatMap_cons, List.append_assoc, stringUnits_quoteChar, ih]
      rfl

theorem joinSurrogates_cons {n : Nat} (h : ¬ (0xD800 ≤ n ∧ n < 0xE000)) (rest : List Nat) :
    joinSurrogates (n :: rest) = (joinSurrogates rest).map (Char.ofNat n :: ·) := by
  cases rest with
  | nil =>
      rw [joinSurrogates, joinSurrogates, if_neg h]
      rfl
  | cons low rest => rw [joinSurrogates, if_neg (by omega), if_neg (by omega)]

/-- No character is half of a surrogate pair. -/
theorem joinSurrogates_toNat (cs : List Char) : joinSurrogates (cs.map Char.toNat) = some cs := by
  induction cs with
  | nil => rfl
  | cons c rest ih =>
      have hvalid : c.toNat < 0xD800 ∨ (0xDFFF < c.toNat ∧ c.toNat < 0x110000) := c.valid
      rw [List.map_cons, joinSurrogates_cons (by omega), ih, Char.ofNat_toNat]
      rfl

/-- A text is read back from its quotation. -/
theorem readString_quote (s : String) (rest : List Char) :
    ∃ body, (quote s).toList = '"' :: body ∧ readString (body ++ rest) = some (some s, rest) := by
  refine ⟨s.toList.flatMap quoteChar ++ ['"'], String.toList_ofList, ?_⟩
  rw [List.append_assoc, List.singleton_append, readString, stringUnits_quoted]
  show some ((joinSurrogates (s.toList.map Char.toNat)).map String.ofList, rest) = _
  rw [joinSurrogates_toNat, Option.map_some, String.ofList_toList]

/-! ### Numbers -/

/-- A text that does not continue a run of digits. -/
def EndsDigits (rest : List Char) : Prop := ∀ c ∈ rest.head?, isDigit c = false

/-- A text that does not continue a number. -/
def EndsNumber (rest : List Char) : Prop :=
  ∀ c ∈ rest.head?, isDigit c = false ∧ c ≠ '.' ∧ c ≠ 'e' ∧ c ≠ 'E'

theorem EndsNumber.endsDigits {rest : List Char} (h : EndsNumber rest) : EndsDigits rest :=
  fun c hc => (h c hc).1

theorem endsDigits_cons {c : Char} (h : isDigit c = false) (rest : List Char) :
    EndsDigits (c :: rest) := by
  rintro _ ⟨⟩
  exact h

theorem digitRun_append {run rest : List Char} (hrun : AllDigits run) (hne : run ≠ [])
    (hrest : EndsDigits rest) : digitRun (run ++ rest) = some (run, rest) := by
  obtain ⟨htake, hdrop⟩ := Text.takeWhile_append_stop hrun hrest
  unfold digitRun
  rw [htake, hdrop, if_neg (by simpa using hne)]

variable {s : Spelling} {rest : List Char}

theorem wholePart_append (h : s.WellFormed) (hrest : EndsDigits rest) :
    wholePart (s.whole ++ rest) = some (s.whole, rest) := by
  have hzero : ¬ (s.whole.head? = some '0' ∧ 1 < s.whole.length) := by
    rintro ⟨hhead, hlength⟩
    have hone := h.noNeedlessZero hhead
    omega
  rw [wholePart, digitRun_append h.whole h.whole_ne_nil hrest]
  show (if _ then none else some (s.whole, rest)) = _
  rw [if_neg hzero]

theorem fractionPart_append (h : s.WellFormed) (hrest : EndsDigits rest)
    (hpoint : ∀ c ∈ rest.head?, c ≠ '.') :
    fractionPart (Spelling.fractionText s.fraction ++ rest) = some (s.fraction, rest) := by
  cases hfraction : s.fraction with
  | none =>
      cases rest with
      | nil => rfl
      | cons c rest =>
          have hc : c ≠ '.' := hpoint c rfl
          show fractionPart (c :: rest) = some (none, c :: rest)
          rw [fractionPart]
          intro _ hcons
          exact hc (List.cons.inj hcons).1
  | some digits =>
      obtain ⟨hall, hne⟩ := h.fraction digits hfraction
      show (digitRun (digits ++ rest)).map _ = _
      rw [digitRun_append hall hne hrest]
      rfl

theorem exponentPart_append (exponent : Option ℤ) (hrest : EndsNumber rest) :
    exponentPart (Spelling.exponentText exponent ++ rest) = some (exponent, rest) := by
  cases exponent with
  | none =>
      cases rest with
      | nil => rfl
      | cons c rest =>
          obtain ⟨-, -, hlower, hupper⟩ := hrest c rfl
          show (if c = 'e' ∨ c = 'E' then _ else some (none, c :: rest)) = some (none, c :: rest)
          rw [if_neg (by simp [hlower, hupper])]
  | some e =>
      have hrun := digitRun_append (allDigits_toDigits e.natAbs) Nat.toDigits_ne_nil
        hrest.endsDigits
      have hread := readNat?_toDigits e.natAbs
      rw [Spelling.exponentText]
      by_cases he : 0 ≤ e
      · rw [if_pos he]
        show ((digitRun (Nat.toDigits 10 e.natAbs ++ rest)).bind fun r =>
          some (some (((readNat? r.1).getD 0 : ℕ) : ℤ), r.2)) = _
        rw [hrun, Option.bind_some, hread, Option.getD_some, Int.natAbs_of_nonneg he]
      · rw [if_neg he]
        show ((digitRun (Nat.toDigits 10 e.natAbs ++ rest)).bind fun r =>
          some (some (-(((readNat? r.1).getD 0 : ℕ) : ℤ)), r.2)) = _
        rw [hrun, Option.bind_some, hread, Option.getD_some, Int.ofNat_natAbs_of_nonpos (by omega),
          neg_neg]

/-- The sign of a number before its spelling. -/
def signText (negative : Bool) : List Char := if negative then ['-'] else []

/-- The parts of a number behind its sign. -/
def readUnsigned (negative : Bool) (input : List Char) : Option (Option Numeral × List Char) :=
  (wholePart input).bind fun r => (fractionPart r.2).bind fun q => (exponentPart q.2).bind fun p =>
    some (numberOf? negative r.1 q.1 p.1, p.2)

theorem readNumber_minus (input : List Char) :
    readNumber ('-' :: input) = readUnsigned true input := by
  unfold readNumber readUnsigned
  rfl

theorem readNumber_unsigned {c : Char} (hc : c ≠ '-') (input : List Char) :
    readNumber (c :: input) = readUnsigned false (c :: input) := by
  unfold readNumber
  split
  rename_i negative unsigned heq
  split at heq
  · rename_i h
    exact absurd (List.cons.inj h).1 hc
  · cases heq
    rfl

theorem readUnsigned_append (h : s.WellFormed) (negative : Bool) (hrest : EndsNumber rest) :
    readUnsigned negative (s.text ++ rest) =
      some (numberOf? negative s.whole s.fraction s.exponent, rest) := by
  have hexponent : ∀ c ∈ (Spelling.exponentText s.exponent ++ rest).head?,
      isDigit c = false ∧ c ≠ '.' := by
    cases s.exponent with
    | none => exact fun c hc => ⟨(hrest c hc).1, (hrest c hc).2.1⟩
    | some e =>
        rintro _ ⟨⟩
        decide
  have hfraction : EndsDigits (Spelling.fractionText s.fraction ++
      (Spelling.exponentText s.exponent ++ rest)) := by
    cases s.fraction with
    | none => exact fun c hc => (hexponent c hc).1
    | some digits => exact endsDigits_cons (by decide) _
  rw [readUnsigned, Spelling.text, List.append_assoc, List.append_assoc,
    wholePart_append h hfraction, Option.bind_some,
    fractionPart_append h (fun c hc => (hexponent c hc).1) (fun c hc => (hexponent c hc).2),
    Option.bind_some, exponentPart_append _ hrest, Option.bind_some]

/-- A number is read up to its end. -/
theorem readNumber_append (h : s.WellFormed) (negative : Bool) (hrest : EndsNumber rest) :
    readNumber (signText negative ++ s.text ++ rest) =
      some (numberOf? negative s.whole s.fraction s.exponent, rest) := by
  rw [← readUnsigned_append h negative hrest]
  cases negative with
  | true => exact readNumber_minus (s.text ++ rest)
  | false =>
      obtain ⟨c, more, hwhole⟩ := List.exists_cons_of_ne_nil h.whole_ne_nil
      have hc : c ≠ '-' := by
        rintro rfl
        exact absurd (h.whole '-' (hwhole ▸ List.mem_cons_self ..)) (by decide)
      rw [Spelling.text, hwhole]
      exact readNumber_unsigned hc _

/-- A spelling with a point or an exponent is read as a double. -/
theorem numberOf?_real {x : Double} (hfinite : x.isFinite = true) {negative : Bool}
    (hreal : s.IsReal) (h : (s.decimal negative).toDouble = x) :
    numberOf? negative s.whole s.fraction s.exponent = some (.real x hfinite) := by
  subst h
  obtain ⟨whole, fraction, exponent⟩ := s
  cases fraction with
  | some digits => exact dif_pos hfinite
  | none =>
      cases exponent with
      | some e => exact dif_pos hfinite
      | none => simp [Spelling.IsReal] at hreal

/-- Digits alone are read as a whole number, but for minus zero. -/
theorem numberOf?_whole {n : ℤ} (inRange : WholeRange n) :
    numberOf? (decide (n < 0)) (Nat.toDigits 10 n.natAbs) none none =
      some (.whole n inRange) := by
  have hsigned : (if decide (n < 0) then -(n.natAbs : ℤ) else n.natAbs) = n := by
    by_cases hnegative : n < 0
    · rw [if_pos (decide_eq_true hnegative)]
      omega
    · rw [if_neg (by simpa using hnegative)]
      omega
  have hzero : (decide (n < 0) && n.natAbs == 0) = false := by
    rw [Bool.and_eq_false_iff, decide_eq_false_iff_not, beq_eq_false_iff_ne]
    omega
  unfold numberOf?
  simp only [readNat?_toDigits, Option.getD_some, hsigned, hzero]
  rw [dif_pos inRange]
  rfl

/-- The text of a number is a spelling from which the number is found again. -/
theorem Numeral.write_spelling (n : Numeral) :
    ∃ (negative : Bool) (s : Spelling), s.WellFormed ∧
      n.write.toList = signText negative ++ s.text ∧
      numberOf? negative s.whole s.fraction s.exponent = some n := by
  cases n with
  | whole n inRange =>
      refine ⟨decide (n < 0), ⟨Nat.toDigits 10 n.natAbs, none, none⟩,
        ⟨allDigits_toDigits _, Nat.toDigits_ne_nil, ?_, ?_⟩, ?_, numberOf?_whole inRange⟩
      · intro hhead
        show (Nat.toDigits 10 n.natAbs).length = 1
        by_cases hzero : n.natAbs = 0
        · rw [hzero]
          rfl
        · obtain ⟨c, digits, hdigits⟩ := List.exists_cons_of_ne_nil
            (Nat.toDigits_ne_nil (b := 10) (n := n.natAbs))
          have hhead : (Nat.toDigits 10 n.natAbs).head? = some '0' := hhead
          rw [hdigits] at hhead
          exact absurd (Option.some.inj hhead) (head_toDigits hzero hdigits)
      · rintro digits ⟨⟩
      · show (toString n).toList =
          signText (decide (n < 0)) ++ (Nat.toDigits 10 n.natAbs ++ [] ++ [])
        rw [Int.toString_eq_repr, Int.repr_eq_if, List.append_nil, List.append_nil]
        by_cases hnegative : n < 0
        · have habs : (-n).toNat = n.natAbs := by omega
          rw [if_neg (by omega), decide_eq_true hnegative, String.toList_append, Nat.toList_repr,
            habs]
          rfl
        · have habs : n.toNat = n.natAbs := by omega
          rw [if_pos (by omega), decide_eq_false hnegative, Nat.toList_repr, habs]
          rfl
  | real x isFinite =>
      obtain ⟨s, hwell, hreal, htext, hread⟩ := Number.write_spelling isFinite
      exact ⟨x.isNegative, s, hwell, htext, numberOf?_real isFinite hreal hread⟩

theorem readNumber_write (n : Numeral) {rest : List Char} (hrest : EndsNumber rest) :
    readNumber (n.write.toList ++ rest) = some (some n, rest) := by
  obtain ⟨negative, s, hwell, htext, hnumber⟩ := n.write_spelling
  rw [htext, readNumber_append hwell negative hrest, hnumber]

/-- The text of a number starts with a sign or a digit. -/
theorem Numeral.head_write (n : Numeral) :
    ∃ c more, n.write.toList = c :: more ∧ (c = '-' ∨ isDigit c = true) := by
  obtain ⟨negative, s, hwell, htext, -⟩ := n.write_spelling
  cases negative with
  | true => exact ⟨'-', s.text, htext, .inl rfl⟩
  | false =>
      obtain ⟨c, more, hwhole⟩ := List.exists_cons_of_ne_nil hwell.whole_ne_nil
      refine ⟨c, more ++ Spelling.fractionText s.fraction ++ Spelling.exponentText s.exponent, ?_,
        .inr (hwell.whole c (hwhole ▸ List.mem_cons_self ..))⟩
      rw [htext, Spelling.text, hwhole]
      rfl

end EmbeddedExpr.Json
