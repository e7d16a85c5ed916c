import EmbeddedExpr.Grammar.Token

/-!
# Scanners split the text

Every scanner takes characters from the front of a text: what it took followed by what it
left is the text (`Splits`), and it took at least one (`Advances`).  The scanners of literals
are made of smaller ones, so this is said of each of those first.
-/

namespace EmbeddedExpr.Grammar.Scanner

/-! ### Deciding about characters

What is said of the characters in a list is decided one by one, not by going through all characters
there are. -/

section Deciding

variable {p : Char → Prop} [DecidablePred p]

instance (priority := 2000) decidableForallMem (text : List Char) : Decidable (∀ c ∈ text, p c) :=
  List.decidableBAll p text

instance (priority := 2000) decidableForallMemOption (found : Option Char) :
    Decidable (∀ c ∈ found, p c) :=
  decidable_of_iff (∀ c ∈ found.toList, p c) (by simp)

end Deciding

/-- What a scanner takes and what it leaves make up the text. -/
def Splits {α : Type} (scanner : Scanner α) : Prop :=
  ∀ text a taken rest, scanner text = some (a, taken, rest) → taken ++ rest = text

/-! ### Words -/

theorem word_splits (w : List Char) : Splits (word w) := by
  intro text a taken rest h
  unfold word at h
  split at h
  · rename_i hword
    simp only [Option.some.injEq, Prod.mk.injEq] at h
    obtain ⟨-, rfl, rfl⟩ := h
    obtain ⟨tail, rfl⟩ := List.isPrefixOf_iff_prefix.mp (Bool.and_eq_true_iff.mp hword).1
    rw [List.drop_left]
  · cases h

theorem name_splits : Splits name := by
  intro text a taken rest h
  simp only [name] at h
  split at h
  · cases h
  · split at h
    · simp only [Option.some.injEq, Prod.mk.injEq] at h
      obtain ⟨-, rfl, rfl⟩ := h
      exact List.takeWhile_append_dropWhile
    · cases h

theorem null_splits : Splits null := by
  intro text a taken rest h
  simp only [null, Option.map_eq_some_iff] at h
  obtain ⟨⟨u, word, after⟩, hword, heq⟩ := h
  cases heq
  exact word_splits _ _ _ _ _ hword

theorem bool_splits : Splits bool := by
  intro text a taken rest h
  unfold bool at h
  split at h
  · rename_i hword
    cases h
    exact word_splits _ _ _ _ _ hword
  · simp only [Option.map_eq_some_iff] at h
    obtain ⟨⟨u, word, after⟩, hword, heq⟩ := h
    cases heq
    exact word_splits _ _ _ _ _ hword

/-! ### Numbers -/

theorem append_of_digits {text run rest : List Char} (h : digits text = some (run, rest)) :
    run ++ rest = text := by
  simp only [digits] at h
  split at h
  · cases h
  · cases h
    exact List.takeWhile_append_dropWhile

theorem append_of_hexDigits {text run taken rest : List Char}
    (h : hexDigits text = some (run, taken, rest)) : taken ++ rest = text := by
  unfold hexDigits at h
  split at h
  · simp only at h
    split at h
    · cases h
      simp [List.takeWhile_append_dropWhile]
    · cases h
  · cases h

theorem append_of_exponent {text power rest : List Char}
    (h : exponent text = some (power, rest)) : power ++ rest = text := by
  unfold exponent at h
  split at h
  · split at h
    · split at h
      · split at h
        all_goals
          simp only [Option.map_eq_some_iff] at h
          obtain ⟨⟨run, after⟩, hdigits, heq⟩ := h
          cases heq
          simp [append_of_digits hdigits]
      · cases h
    · cases h
  · cases h

theorem append_optionalExponent (text : List Char) :
    (optionalExponent text).1 ++ (optionalExponent text).2 = text := by
  unfold optionalExponent
  cases h : exponent text with
  | none => rfl
  | some split => exact append_of_exponent h

theorem append_of_fraction {text part rest : List Char}
    (h : fraction text = some (part, rest)) : part ++ rest = text := by
  unfold fraction at h
  split at h
  · simp only [Option.map_eq_some_iff] at h
    obtain ⟨⟨run, after⟩, hdigits, heq⟩ := h
    cases heq
    simp [append_of_digits hdigits]
  · cases h

theorem append_of_doubleText {text taken rest : List Char}
    (h : doubleText text = some (taken, rest)) : taken ++ rest = text := by
  unfold doubleText at h
  split at h
  · rename_i whole afterWhole hdigits
    have hwhole := append_of_digits hdigits
    split at h
    · rename_i part afterPart hfraction
      simp only [Option.some.injEq, Prod.mk.injEq] at h
      obtain ⟨rfl, rfl⟩ := h
      rw [List.append_assoc, List.append_assoc, append_optionalExponent,
        append_of_fraction hfraction, hwhole]
    · simp only [Option.map_eq_some_iff] at h
      obtain ⟨⟨power, after⟩, hexponent, heq⟩ := h
      cases heq
      rw [List.append_assoc, append_of_exponent hexponent, hwhole]
  · simp only [Option.map_eq_some_iff] at h
    obtain ⟨⟨part, after⟩, hfraction, heq⟩ := h
    simp only [Prod.mk.injEq] at heq
    obtain ⟨rfl, rfl⟩ := heq
    rw [List.append_assoc, append_optionalExponent, append_of_fraction hfraction]

theorem double_splits : Splits double := by
  intro text a taken rest h
  simp only [double, Option.map_eq_some_iff] at h
  obtain ⟨⟨taken, after⟩, hdouble, heq⟩ := h
  cases heq
  exact append_of_doubleText hdouble

theorem append_of_magnitude {text run taken rest : List Char} {hex : Bool}
    (h : magnitude text = some (hex, run, taken, rest)) : taken ++ rest = text := by
  unfold magnitude at h
  split at h
  · rename_i hhex
    cases h
    exact append_of_hexDigits hhex
  · simp only [Option.map_eq_some_iff] at h
    obtain ⟨⟨digits, after⟩, hdigits, heq⟩ := h
    cases heq
    exact append_of_digits hdigits

theorem int_splits : Splits int := by
  intro text a taken rest h
  simp only [int, Option.map_eq_some_iff] at h
  obtain ⟨⟨hex, run, taken, after⟩, hmagnitude, heq⟩ := h
  cases heq
  exact append_of_magnitude hmagnitude

theorem uint_splits : Splits uint := by
  intro text a taken rest h
  unfold uint at h
  split at h
  · rename_i hmagnitude
    split at h
    · cases h
      have happend := append_of_magnitude hmagnitude
      simpa using happend
    · cases h
  · cases h

/-! ### Quoted literals -/

theorem append_of_bodyToMark {mark : Char} {text body rest : List Char}
    (h : bodyToMark mark text = some (body, rest)) : body ++ mark :: rest = text := by
  fun_induction bodyToMark mark text generalizing body rest with
  | case1 => cases h
  | case2 c text ih =>
      -- a backslash takes the character after it along, also a mark
      simp only [Option.map_eq_some_iff] at h
      obtain ⟨⟨inner, after⟩, hinner, heq⟩ := h
      cases heq
      rw [List.cons_append, List.cons_append, ih hinner]
  | case3 => cases h; rfl
  | case4 => cases h
  | case5 c text _ _ _ ih =>
      simp only [Option.map_eq_some_iff] at h
      obtain ⟨⟨inner, after⟩, hinner, heq⟩ := h
      cases heq
      rw [List.cons_append, ih hinner]

theorem append_of_bodyToMarks {mark : Char} {text body rest : List Char}
    (h : bodyToMarks mark text = some (body, rest)) :
    body ++ [mark, mark, mark] ++ rest = text := by
  fun_induction bodyToMarks mark text generalizing body rest with
  | case1 => cases h
  | case2 c text ih =>
      simp only [Option.map_eq_some_iff] at h
      obtain ⟨⟨inner, after⟩, hinner, heq⟩ := h
      cases heq
      rw [List.cons_append, List.cons_append, List.cons_append, List.cons_append, ih hinner]
  | case3 c text _ hmark =>
      cases h
      obtain ⟨rfl, hmarks⟩ := hmark
      obtain ⟨tail, rfl⟩ := List.isPrefixOf_iff_prefix.mp hmarks
      rfl
  | case4 c text _ _ ih =>
      simp only [Option.map_eq_some_iff] at h
      obtain ⟨⟨inner, after⟩, hinner, heq⟩ := h
      cases heq
      rw [List.cons_append, List.cons_append, ih hinner]

theorem quotedBy_splits (mark : Char) : Splits (quotedBy mark) := by
  intro text a taken rest h
  simp only [quotedBy] at h
  split at h
  · rename_i body after hlong
    cases h
    split at hlong
    · rename_i hmarks
      obtain ⟨tail, rfl⟩ := List.isPrefixOf_iff_prefix.mp hmarks
      have hbody := append_of_bodyToMarks hlong
      simpa using hbody
    · cases hlong
  · split at h
    · split at h
      · rename_i hmark
        simp only [Option.map_eq_some_iff] at h
        obtain ⟨⟨body, after⟩, hbody, heq⟩ := h
        cases heq
        have happend := append_of_bodyToMark hbody
        simpa [hmark] using happend
      · cases h
    · cases h

theorem quoted_splits : Splits quoted := by
  intro text a taken rest h
  unfold quoted at h
  split at h
  · rename_i hquoted
    cases h
    exact quotedBy_splits _ _ _ _ _ hquoted
  · exact quotedBy_splits _ _ _ _ _ h

theorem append_of_bytesMarks {text marks rest : List Char} {raw : Bool}
    (h : bytesMarks text = some (raw, marks, rest)) : marks ++ rest = text := by
  unfold bytesMarks at h
  split at h
  · split at h
    · split at h <;> cases h <;> rfl
    · split at h
      · cases h; rfl
      · cases h
  · cases h

theorem bytes_splits : Splits bytes := by
  intro text a taken rest h
  unfold bytes at h
  split at h
  · rename_i hmarks
    simp only [Option.map_eq_some_iff] at h
    obtain ⟨⟨body, literal, after⟩, hquoted, heq⟩ := h
    cases heq
    rw [List.append_assoc, quoted_splits _ _ _ _ hquoted, append_of_bytesMarks hmarks]
  · cases h

theorem text_splits : Splits text := by
  intro input a taken rest h
  unfold text at h
  split at h
  · split at h
    all_goals
      simp only [Option.map_eq_some_iff] at h
      obtain ⟨⟨body, literal, after⟩, hquoted, heq⟩ := h
      cases heq
      simp [← quoted_splits _ _ _ _ hquoted]
  · cases h

/-! ### Something is taken -/

/-- What a scanner takes has at least one character. -/
def Advances {α : Type} (scanner : Scanner α) : Prop :=
  ∀ text a taken rest, scanner text = some (a, taken, rest) → taken ≠ []

theorem word_advances {w : List Char} (h : w ≠ []) : Advances (word w) := by
  intro text a taken rest heq
  unfold word at heq
  split at heq
  · cases heq
    exact h
  · cases heq

theorem name_advances : Advances name := by
  intro text a taken rest h
  simp only [name] at h
  split at h
  · cases h
  · rename_i htaken
    split at h
    · cases h
      simp [htaken]
    · cases h

theorem null_advances : Advances null := by
  intro text a taken rest h
  obtain ⟨⟨u, taken, after⟩, hword, heq⟩ := Option.map_eq_some_iff.mp h
  cases heq
  exact word_advances (by decide) _ _ _ _ hword

theorem bool_advances : Advances bool := by
  intro text a taken rest h
  unfold bool at h
  split at h
  · rename_i hword
    cases h
    exact word_advances (by decide) _ _ _ _ hword
  · obtain ⟨⟨u, taken, after⟩, hword, heq⟩ := Option.map_eq_some_iff.mp h
    cases heq
    exact word_advances (by decide) _ _ _ _ hword

theorem ne_nil_of_digits {text run rest : List Char} (h : digits text = some (run, rest)) :
    run ≠ [] := by
  simp only [digits] at h
  split at h
  · cases h
  · rename_i hrun
    cases h
    rintro hnil
    exact hrun (List.isEmpty_iff.mpr hnil)

theorem ne_nil_of_doubleText {text taken rest : List Char}
    (h : doubleText text = some (taken, rest)) : taken ≠ [] := by
  unfold doubleText at h
  split at h
  · rename_i hdigits
    have hwhole := ne_nil_of_digits hdigits
    split at h
    · cases h
      simp [hwhole]
    · obtain ⟨⟨power, after⟩, -, heq⟩ := Option.map_eq_some_iff.mp h
      cases heq
      simp [hwhole]
  · obtain ⟨⟨part, after⟩, hpart, heq⟩ := Option.map_eq_some_iff.mp h
    cases heq
    unfold fraction at hpart
    split at hpart
    · obtain ⟨⟨run, after⟩, -, heq⟩ := Option.map_eq_some_iff.mp hpart
      cases heq
      simp
    · cases hpart

theorem double_advances : Advances double := by
  intro text a taken rest h
  obtain ⟨⟨taken, after⟩, hdouble, heq⟩ := Option.map_eq_some_iff.mp h
  cases heq
  exact ne_nil_of_doubleText hdouble

theorem ne_nil_of_magnitude {text run taken rest : List Char} {hex : Bool}
    (h : magnitude text = some (hex, run, taken, rest)) : taken ≠ [] := by
  unfold magnitude at h
  split at h
  · rename_i hhex
    cases h
    unfold hexDigits at hhex
    split at hhex
    · simp only at hhex
      split at hhex
      · cases hhex
        exact List.cons_ne_nil _ _
      · cases hhex
    · cases hhex
  · obtain ⟨⟨run, after⟩, hdigits, heq⟩ := Option.map_eq_some_iff.mp h
    cases heq
    exact ne_nil_of_digits hdigits

theorem int_advances : Advances int := by
  intro text a taken rest h
  obtain ⟨⟨hex, run, taken, after⟩, hmagnitude, heq⟩ := Option.map_eq_some_iff.mp h
  cases heq
  exact ne_nil_of_magnitude hmagnitude

theorem uint_advances : Advances uint := by
  intro text a taken rest h
  unfold uint at h
  split at h
  · split at h
    · cases h
      simp
    · cases h
  · cases h

theorem quotedBy_advances (mark : Char) : Advances (quotedBy mark) := by
  intro text a taken rest h
  simp only [quotedBy] at h
  split at h
  · cases h
    simp
  · split at h
    · split at h
      · obtain ⟨⟨body, after⟩, -, heq⟩ := Option.map_eq_some_iff.mp h
        cases heq
        simp
      · cases h
    · cases h

theorem quoted_advances : Advances quoted := by
  intro text a taken rest h
  unfold quoted at h
  split at h
  · rename_i hquoted
    cases h
    exact quotedBy_advances _ _ _ _ _ hquoted
  · exact quotedBy_advances _ _ _ _ _ h

theorem bytes_advances : Advances bytes := by
  intro text a taken rest h
  unfold bytes at h
  split at h
  · obtain ⟨⟨body, literal, after⟩, hquoted, heq⟩ := Option.map_eq_some_iff.mp h
    cases heq
    simp [quoted_advances _ _ _ _ hquoted]
  · cases h

theorem text_advances : Advances text := by
  intro input a taken rest h
  unfold text at h
  split at h
  · split at h
    · obtain ⟨⟨body, literal, after⟩, -, heq⟩ := Option.map_eq_some_iff.mp h
      cases heq
      exact List.cons_ne_nil _ _
    · obtain ⟨⟨body, literal, after⟩, hquoted, heq⟩ := Option.map_eq_some_iff.mp h
      cases heq
      exact quoted_advances _ _ _ _ hquoted
  · cases h

end EmbeddedExpr.Grammar.Scanner
