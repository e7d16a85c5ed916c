import EmbeddedExpr.Proofs.Grammar.Literals
import EmbeddedExpr.Proofs.Grammar.Scanner
import EmbeddedExpr.Proofs.Text.Run

/-!
# How far scanners look

A scanner may look behind the characters that it takes, but never far: a number goes on with a
digit, a point or a letter, a word with another character of a name, a literal between marks with a
mark.  So what it takes from one text it takes from every other text that goes on differently
(the lemmas whose names end in `_continued`).
-/

namespace EmbeddedExpr.Grammar.Scanner

open Number (isDigit isHexDigit AllDigits)

/-! ### Numbers -/

/-- The text continues no literal that stands before it. -/
structure Ends (text : List Char) : Prop where
  head : ∀ c ∈ text.head?, isHexDigit c = false ∧ c ∉ ['x', 'X', 'u', 'U', '"', '\'']
  fraction : fraction text = none

section Numbers

variable {text run taken rest rest' : List Char}

theorem isDigit_eq_false {c : Char} (h : isHexDigit c = false) : isDigit c = false := by
  simp only [isHexDigit, Number.hexValue?] at h
  simp only [isDigit, Number.digitValue?]
  split
  · rename_i hc
    rw [if_pos hc] at h
    exact h
  · rfl

theorem Ends.digit (h : Ends rest) : ∀ c ∈ rest.head?, isDigit c = false :=
  fun c hc => isDigit_eq_false (h.head c hc).1

/-- No mark of hexadecimal digits stands at the front. -/
theorem Ends.decimal (h : Ends rest) :
    ∀ c ∈ rest.head?, isHexDigit c = false ∧ c ∉ ['x', 'X'] :=
  fun c hc => ⟨(h.head c hc).1, mt (List.mem_append_left ['u', 'U', '"', '\'']) (h.head c hc).2⟩

theorem Ends.unquoted (h : Ends rest) : ∀ c ∈ rest.head?, c ∉ ['"', '\''] :=
  fun c hc => mt (List.mem_append_right ['x', 'X', 'u', 'U']) (h.head c hc).2

theorem Ends.exponent (h : Ends rest) : exponent rest = none := by
  refine exponent_none fun c hc hmark => ?_
  have hhex := (h.head c hc).1
  rcases List.mem_pair.mp hmark with rfl | rfl <;> exact absurd hhex (by decide)

theorem digits_spec (h : digits text = some (run, rest)) :
    AllDigits run ∧ run ≠ [] ∧ ∀ c ∈ rest.head?, isDigit c = false := by
  have hne := ne_nil_of_digits h
  simp only [digits] at h
  split at h
  · cases h
  · cases h
    exact ⟨fun _ hc => List.mem_takeWhile_imp hc, hne, Text.head_dropWhile⟩

theorem digits_continued (h : digits text = some (run, rest))
    (hrest : ∀ c ∈ rest'.head?, isDigit c = false) : digits (run ++ rest') = some (run, rest') := by
  obtain ⟨hrun, hne, -⟩ := digits_spec h
  exact digits_append hrun hne hrest

theorem digits_none {c : Char} (h : isDigit c = false) (rest : List Char) :
    digits (c :: rest) = none := by
  simp [digits, h]

theorem fraction_continued (h : fraction text = some (run, rest))
    (hrest : ∀ c ∈ rest'.head?, isDigit c = false) :
    fraction (run ++ rest') = some (run, rest') := by
  unfold fraction at h
  split at h
  · obtain ⟨⟨part, after⟩, hdigits, heq⟩ := Option.map_eq_some_iff.mp h
    cases heq
    simp only [List.cons_append, fraction, digits_continued hdigits hrest, Option.map_some]
  · cases h

theorem exponent_continued (h : exponent text = some (run, rest))
    (hrest : ∀ c ∈ rest'.head?, isDigit c = false) :
    exponent (run ++ rest') = some (run, rest') := by
  unfold exponent at h
  split at h
  · split at h
    · rename_i mark _ hmark
      split at h
      · split at h
        · rename_i sign after hsign
          obtain ⟨⟨part, after⟩, hdigits, heq⟩ := Option.map_eq_some_iff.mp h
          cases heq
          simp only [List.cons_append, exponent, hmark, hsign, if_true,
            digits_continued hdigits hrest, Option.map_some]
        · rename_i sign after hsign
          obtain ⟨⟨part, after⟩, hdigits, heq⟩ := Option.map_eq_some_iff.mp h
          cases heq
          -- the first digit is no sign
          have happend := append_of_digits hdigits
          have hcontinued := digits_continued hdigits hrest
          cases part with
          | nil => exact absurd rfl (ne_nil_of_digits hdigits)
          | cons d part =>
              obtain ⟨rfl, -⟩ := List.cons.inj happend
              simp only [List.cons_append] at hcontinued ⊢
              simp only [exponent, hmark, hsign, if_true, hcontinued, Option.map_some]
              rfl
      · cases h
    · cases h
  · cases h

/-- A fraction begins with a point and an exponent with a letter. -/
theorem head_fraction (h : fraction text = some (run, rest)) : run.head? = some '.' := by
  unfold fraction at h
  split at h
  · obtain ⟨⟨part, after⟩, -, heq⟩ := Option.map_eq_some_iff.mp h
    cases heq
    rfl
  · cases h

theorem head_exponent (h : exponent text = some (run, rest)) :
    ∃ mark ∈ ['e', 'E'], run.head? = some mark := by
  unfold exponent at h
  split at h
  · split at h
    · rename_i mark _ hmark
      have hmem : mark ∈ ['e', 'E'] := by simpa using hmark
      split at h
      · split at h <;>
          · obtain ⟨⟨part, after⟩, -, heq⟩ := Option.map_eq_some_iff.mp h
            cases heq
            exact ⟨mark, hmem, rfl⟩
      · cases h
    · cases h
  · cases h

theorem optionalExponent_continued (h : Ends rest') (text : List Char) :
    optionalExponent ((optionalExponent text).1 ++ rest') = ((optionalExponent text).1, rest') ∧
      ∀ c ∈ ((optionalExponent text).1 ++ rest').head?, isDigit c = false := by
  unfold optionalExponent
  cases hexponent : exponent text with
  | none =>
      simp only [Option.getD_none]
      rw [List.nil_append, h.exponent]
      exact ⟨rfl, h.digit⟩
  | some pair =>
      simp only [Option.getD_some]
      refine ⟨by rw [exponent_continued hexponent h.digit, Option.getD_some], ?_⟩
      obtain ⟨mark, hmem, hhead⟩ := head_exponent hexponent
      rw [List.head?_append, hhead]
      rintro _ ⟨⟩
      rcases List.mem_pair.mp hmem with rfl | rfl <;> decide

theorem doubleText_continued (h : doubleText text = some (taken, rest)) (hrest : Ends rest') :
    doubleText (taken ++ rest') = some (taken, rest') := by
  unfold doubleText at h
  split at h
  · rename_i whole afterWhole hwhole
    split at h
    · rename_i part afterPart hpart
      simp only [Option.some.injEq, Prod.mk.injEq] at h
      obtain ⟨rfl, rfl⟩ := h
      obtain ⟨hpower, hhead⟩ := optionalExponent_continued hrest afterPart
      have hpoint : ∀ c ∈ (part ++ ((optionalExponent afterPart).1 ++ rest')).head?,
          isDigit c = false := by
        rw [List.head?_append, head_fraction hpart]
        rintro _ ⟨⟩
        decide
      rw [List.append_assoc, List.append_assoc]
      simp only [doubleText, digits_continued hwhole hpoint, fraction_continued hpart hhead, hpower,
        List.append_assoc]
    · obtain ⟨⟨power, after⟩, hpower, heq⟩ := Option.map_eq_some_iff.mp h
      cases heq
      obtain ⟨mark, hmark, hhead⟩ := head_exponent hpower
      have hfirst : (power ++ rest').head? = some mark := by rw [List.head?_append, hhead]; rfl
      have hdigit : ∀ c ∈ (power ++ rest').head?, isDigit c = false := by
        rw [hfirst]
        rintro _ ⟨⟩
        rcases List.mem_pair.mp hmark with rfl | rfl <;> decide
      have hpoint : '.' ∉ (power ++ rest').head? := by
        rw [hfirst]
        rintro ⟨⟩
        exact absurd hmark (by decide)
      rw [List.append_assoc]
      simp only [doubleText, digits_continued hwhole hdigit, fraction_none hpoint,
        exponent_continued hpower hrest.digit, Option.map_some]
  · obtain ⟨⟨part, after⟩, hpart, heq⟩ := Option.map_eq_some_iff.mp h
    simp only [Prod.mk.injEq] at heq
    obtain ⟨rfl, rfl⟩ := heq
    obtain ⟨hpower, hhead⟩ := optionalExponent_continued hrest after
    obtain ⟨tail, rfl⟩ : ∃ tail, part = '.' :: tail := by
      have hpoint := head_fraction hpart
      cases part with
      | nil => cases hpoint
      | cons c tail => cases hpoint; exact ⟨tail, rfl⟩
    have hnone : digits ('.' :: tail ++ ((optionalExponent after).1 ++ rest')) = none :=
      digits_none (by decide) _
    rw [List.append_assoc]
    simp only [doubleText, hnone, fraction_continued hpart hhead, hpower, Option.map_some]

/-- A number with a mark of hexadecimal digits is no double. -/
theorem hexDigits_spec (h : hexDigits text = some (run, taken, rest)) :
    ∃ mark, mark ∈ ['x', 'X'] ∧ taken = '0' :: mark :: run ∧ run ≠ [] ∧
      ∀ c ∈ run, isHexDigit c = true := by
  unfold hexDigits at h
  split at h
  · rename_i mark after
    simp only at h
    split at h
    · rename_i hcond
      cases h
      obtain ⟨hmark, hne⟩ := Bool.and_eq_true_iff.mp hcond
      refine ⟨mark, by simpa using hmark, rfl, ?_, fun _ hc => List.mem_takeWhile_imp hc⟩
      rintro hnil
      rw [hnil] at hne
      cases hne
    · cases h
  · cases h

theorem magnitude_continued {hex : Bool} (h : magnitude text = some (hex, run, taken, rest))
    (hrest : ∀ c ∈ rest'.head?, isHexDigit c = false ∧ c ∉ ['x', 'X']) :
    magnitude (taken ++ rest') = some (hex, run, taken, rest') := by
  unfold magnitude at h
  split at h
  · rename_i hhex
    cases h
    obtain ⟨mark, hmark, rfl, hne, hrun⟩ := hexDigits_spec hhex
    obtain ⟨htake, hdrop⟩ := Text.takeWhile_append_stop hrun fun c hc => (hrest c hc).1
    have hmarked : (mark == 'x' || mark == 'X') = true := by simpa using hmark
    simp [magnitude, hexDigits, htake, hdrop, hmarked, hne]
  · obtain ⟨⟨part, after⟩, hdigits, heq⟩ := Option.map_eq_some_iff.mp h
    cases heq
    obtain ⟨hrun, hne, -⟩ := digits_spec hdigits
    exact magnitude_digits hrun hne fun c hc => ⟨isDigit_eq_false (hrest c hc).1, (hrest c hc).2⟩

/-- The digits of an integer, in either base, are not the beginning of a double. -/
theorem double_none_of_magnitude {hex : Bool} (h : magnitude text = some (hex, run, taken, rest))
    (hdigit : ∀ c ∈ rest'.head?, isDigit c = false) (hfraction : fraction rest' = none)
    (hexponent : hex = false → exponent rest' = none) : double (taken ++ rest') = none := by
  unfold magnitude at h
  split at h
  · rename_i hhex
    cases h
    obtain ⟨mark, hmark, rfl, -, -⟩ := hexDigits_spec hhex
    -- the mark behind the zero ends the digits
    have hzero : AllDigits ['0'] := List.forall_mem_singleton.mpr (by decide)
    change double (['0'] ++ mark :: (run ++ rest')) = none
    refine double_none_of_digits hzero (List.cons_ne_nil _ _) ?_ (fraction_none ?_)
      (exponent_none ?_)
    · rintro _ ⟨⟩
      rcases List.mem_pair.mp hmark with rfl | rfl <;> decide
    · rintro ⟨⟩
      exact absurd hmark (by decide)
    · rintro _ ⟨⟩
      rcases List.mem_pair.mp hmark with rfl | rfl <;> decide
  · obtain ⟨⟨part, after⟩, hdigits, heq⟩ := Option.map_eq_some_iff.mp h
    cases heq
    obtain ⟨hrun, hne, -⟩ := digits_spec hdigits
    exact double_none_of_digits hrun hne hdigit hfraction (hexponent rfl)

theorem double_continued {token : Token} (h : double text = some (token, taken, rest))
    (hrest : Ends rest') : double (taken ++ rest') = some (token, taken, rest') := by
  obtain ⟨⟨run, after⟩, hdouble, heq⟩ := Option.map_eq_some_iff.mp h
  cases heq
  simp only [double, doubleText_continued hdouble hrest, Option.map_some]

theorem int_continued {token : Token} (h : int text = some (token, taken, rest))
    (hrest : Ends rest') : double (taken ++ rest') = none ∧ uint (taken ++ rest') = none ∧
      int (taken ++ rest') = some (token, taken, rest') := by
  obtain ⟨⟨hex, run, digits, after⟩, hmagnitude, heq⟩ := Option.map_eq_some_iff.mp h
  cases heq
  have hcontinued := magnitude_continued hmagnitude hrest.decimal
  refine ⟨double_none_of_magnitude hmagnitude hrest.digit hrest.fraction fun _ => hrest.exponent,
    ?_, by simp only [int, hcontinued, Option.map_some]⟩
  unfold uint
  rw [hcontinued]
  cases rest' with
  | nil => rfl
  | cons c rest' =>
      have hc := (hrest.head c rfl).2
      simp only [List.mem_cons, not_or] at hc
      simp [hc]

theorem uint_continued {token : Token} (h : uint text = some (token, taken, rest))
    (rest' : List Char) : double (taken ++ rest') = none ∧
      uint (taken ++ rest') = some (token, taken, rest') := by
  unfold uint at h
  split at h
  · rename_i hex run digits mark after hmagnitude
    split at h
    · rename_i hmark
      cases h
      -- the mark of unsigned integers ends the digits
      have hmem : mark ∈ ['u', 'U'] := by simpa using hmark
      have hhead : ∀ c ∈ (mark :: rest').head?, isHexDigit c = false ∧ c ∉ ['x', 'X'] := by
        rintro _ ⟨⟩
        rcases List.mem_pair.mp hmem with rfl | rfl <;> decide
      have hpoint : '.' ∉ (mark :: rest').head? := by
        rintro ⟨⟩
        exact absurd hmem (by decide)
      have hexponent : ∀ c ∈ (mark :: rest').head?, c ∉ ['e', 'E'] := by
        rintro _ ⟨⟩
        rcases List.mem_pair.mp hmem with rfl | rfl <;> decide
      rw [List.append_assoc, List.singleton_append]
      refine ⟨double_none_of_magnitude hmagnitude (fun c hc => isDigit_eq_false (hhead c hc).1)
        (fraction_none hpoint) fun _ => exponent_none hexponent, ?_⟩
      simp only [uint, magnitude_continued hmagnitude hhead, hmark, if_true]
    · cases h
  · cases h

end Numbers

/-! ### Words -/

section Words

variable {text w taken rest rest' : List Char}

theorem word_spec {u : Unit} (h : word w text = some (u, taken, rest)) :
    taken = w ∧ text = w ++ rest ∧ startsName rest = false := by
  have happend := word_splits w _ _ _ _ h
  unfold word at h
  split at h
  · rename_i hword
    cases h
    exact ⟨rfl, happend.symm, by simpa using (Bool.and_eq_true_iff.mp hword).2⟩
  · cases h

theorem word_continued (h : startsName rest' = false) :
    word w (w ++ rest') = some ((), w, rest') := by
  simp [word, h]

theorem head_of_startsName (h : startsName rest = false) :
    ∀ c ∈ rest.head?, isNameChar c = false := by
  cases rest with
  | nil => nofun
  | cons c rest =>
      rintro _ ⟨⟩
      exact h

/-- A word is all that the text begins with of a name. -/
theorem takeWhile_of_word {u : Unit} (hw : ∀ c ∈ w, isNameChar c = true)
    (h : word w text = some (u, taken, rest)) : text.takeWhile isNameChar = w := by
  obtain ⟨-, rfl, hrest⟩ := word_spec h
  exact (Text.takeWhile_append_stop hw (head_of_startsName hrest)).1

theorem null_continued {token : Token} (h : null text = some (token, taken, rest))
    (hrest : startsName rest = false → startsName rest' = false) :
    null (taken ++ rest') = some (token, taken, rest') ∧ ∃ more, taken = 'n' :: more := by
  obtain ⟨⟨u, found, after⟩, hword, heq⟩ := Option.map_eq_some_iff.mp h
  cases heq
  obtain ⟨rfl, -, hstop⟩ := word_spec hword
  exact ⟨by rw [null, word_continued (hrest hstop), Option.map_some], _, rfl⟩

theorem bool_continued {token : Token} (h : bool text = some (token, taken, rest))
    (hrest : startsName rest = false → startsName rest' = false) :
    bool (taken ++ rest') = some (token, taken, rest') ∧
      ∃ c more, c ∈ ['t', 'f'] ∧ taken = c :: more := by
  unfold bool at h
  split at h
  · rename_i hword
    cases h
    obtain ⟨rfl, -, hstop⟩ := word_spec hword
    refine ⟨?_, 't', _, by decide, rfl⟩
    simp only [bool, word_continued (hrest hstop)]
  · obtain ⟨⟨u, found, after⟩, hword, heq⟩ := Option.map_eq_some_iff.mp h
    cases heq
    obtain ⟨rfl, -, hstop⟩ := word_spec hword
    have htrue : word ['t', 'r', 'u', 'e'] (['f', 'a', 'l', 's', 'e'] ++ rest') = none :=
      word_none (by decide) _ _
    refine ⟨?_, 'f', _, by decide, rfl⟩
    simp only [bool, htrue, word_continued (hrest hstop), Option.map_some]

theorem name_spec {token : Token} (h : name text = some (token, taken, rest)) :
    token = .name taken ∧ (∀ c ∈ taken, isNameChar c = true) ∧ startsName rest = false ∧
      (∃ c more, taken = c :: more ∧ (isLetter c = true ∨ c = '_')) ∧ taken ∉ keywords := by
  simp only [name] at h
  split at h
  · cases h
  · rename_i c more htaken
    split at h
    · rename_i hcond
      cases h
      obtain ⟨hfirst, hkeyword⟩ := Bool.and_eq_true_iff.mp hcond
      refine ⟨rfl, fun _ hc => List.mem_takeWhile_imp hc, ?_,
        ⟨c, more, htaken, by simpa using hfirst⟩, by simpa using hkeyword⟩
      cases hdrop : text.dropWhile isNameChar with
      | nil => rfl
      | cons d after => exact Text.head_dropWhile d (by rw [hdrop]; rfl)
    · cases h

theorem isNameChar_of_mem_keyword {w : List Char} (h : w ∈ keywords) :
    ∀ c ∈ w, isNameChar c = true := by
  have hletters : ∀ w ∈ keywords, w.all isNameChar = true := by decide
  exact List.all_eq_true.mp (hletters w h)

/-- A text that begins with a keyword has no name there. -/
theorem name_none_of_keyword (hw : w ∈ keywords) (h : startsName rest = false) :
    name (w ++ rest) = none := by
  have htake := Text.takeWhile_append_stop (isNameChar_of_mem_keyword hw) (head_of_startsName h)
  simp only [name, htake.1]
  split
  · rfl
  · simp [hw]

theorem name_continued {token : Token} (h : name text = some (token, taken, rest))
    (hrest : startsName rest' = false) : name (taken ++ rest') = some (token, taken, rest') := by
  obtain ⟨rfl, hchars, -, ⟨c, more, rfl, hfirst⟩, hkeyword⟩ := name_spec h
  obtain ⟨htake, hdrop⟩ := Text.takeWhile_append_stop hchars (head_of_startsName hrest)
  have hcond : (isLetter c || c == '_') = true := by simpa using hfirst
  have hcontains : keywords.contains (c :: more) = false := by simpa using hkeyword
  simp only [name, htake, hdrop, hcond, hcontains, Bool.not_false, Bool.and_true, if_true]

end Words

/-! ### Quoted literals -/

section Quoted

variable {mark : Char} {text body taken rest rest' : List Char}

/-- A character that does not take along what stands behind it is no backslash. -/
theorem ne_backslash {c : Char} (htext : text ≠ [])
    (hescape : ∀ d tail, c = '\\' → text = d :: tail → False) : c ≠ '\\' := by
  rintro rfl
  obtain ⟨d, tail, rfl⟩ := List.exists_cons_of_ne_nil htext
  exact hescape d tail rfl rfl

theorem bodyToMark_continued (hmark : mark ≠ '\\') (h : bodyToMark mark text = some (body, rest))
    (rest' : List Char) : bodyToMark mark (body ++ mark :: rest') = some (body, rest') := by
  fun_induction bodyToMark mark text generalizing body rest with
  | case1 => cases h
  | case2 c text ih =>
      obtain ⟨⟨inner, after⟩, hinner, heq⟩ := Option.map_eq_some_iff.mp h
      cases heq
      rw [List.cons_append, List.cons_append, bodyToMark, ih hinner]
      rfl
  | case3 text =>
      cases h
      rw [List.nil_append, bodyToMark, if_pos rfl]
      exact fun _ _ heq _ => hmark heq
  | case4 => cases h
  | case5 c text hescape hc hline ih =>
      obtain ⟨⟨inner, after⟩, hinner, heq⟩ := Option.map_eq_some_iff.mp h
      cases heq
      have hplain : c ≠ '\\' := ne_backslash (by rintro rfl; cases hinner) hescape
      rw [List.cons_append, bodyToMark, if_neg hc, if_neg hline, ih hinner]
      · rfl
      · exact fun _ _ heq _ => hplain heq

/-- Two marks in front of a text stand in front of each text with the same first characters. -/
theorem isPrefixOf_pair_append {run : List Char} (h : 2 ≤ run.length) (rest rest' : List Char) :
    [mark, mark].isPrefixOf (run ++ rest) = [mark, mark].isPrefixOf (run ++ rest') := by
  match run, h with
  | a :: b :: run, _ => rfl

theorem bodyToMarks_continued (hmark : mark ≠ '\\') (h : bodyToMarks mark text = some (body, rest))
    (rest' : List Char) :
    bodyToMarks mark (body ++ [mark, mark, mark] ++ rest') = some (body, rest') := by
  fun_induction bodyToMarks mark text generalizing body rest with
  | case1 => cases h
  | case2 c text ih =>
      obtain ⟨⟨inner, after⟩, hinner, heq⟩ := Option.map_eq_some_iff.mp h
      cases heq
      rw [List.cons_append, List.cons_append, List.cons_append, List.cons_append, bodyToMarks,
        ih hinner]
      rfl
  | case3 c text _ hmarks =>
      cases h
      obtain ⟨rfl, -⟩ := hmarks
      have hpair : c = c ∧ [c, c].isPrefixOf (c :: c :: rest') = true := ⟨rfl, by simp⟩
      rw [List.nil_append, List.cons_append, List.cons_append, List.cons_append, List.nil_append,
        bodyToMarks, if_pos hpair]
      · rfl
      · exact fun _ _ heq _ => hmark heq
  | case4 c text hescape hmarks ih =>
      obtain ⟨⟨inner, after⟩, hinner, heq⟩ := Option.map_eq_some_iff.mp h
      cases heq
      have hplain : c ≠ '\\' := ne_backslash (by rintro rfl; cases hinner) hescape
      have happend := append_of_bodyToMarks hinner
      have hlength : 2 ≤ (inner ++ [mark, mark, mark]).length := by simp
      rw [List.cons_append, List.cons_append, bodyToMarks, if_neg, ih hinner]
      · rfl
      · rwa [isPrefixOf_pair_append hlength rest' rest, happend]
      · exact fun _ _ heq _ => hplain heq

/-- The body of a literal up to the next mark does not begin with the mark. -/
theorem not_mem_head_body (hmark : mark ≠ '\\') (h : bodyToMark mark text = some (body, rest)) :
    mark ∉ body.head? := by
  unfold bodyToMark at h
  split at h
  · cases h
  · obtain ⟨⟨inner, after⟩, -, heq⟩ := Option.map_eq_some_iff.mp h
    cases heq
    rintro ⟨⟩
    exact hmark rfl
  · rename_i c text _
    split at h
    · cases h
      nofun
    · rename_i hc
      split at h
      · cases h
      · obtain ⟨⟨inner, after⟩, -, heq⟩ := Option.map_eq_some_iff.mp h
        cases heq
        rintro ⟨⟩
        exact hc rfl

theorem not_tripled_of_bodyToMark (hmark : mark ≠ '\\')
    (h : bodyToMark mark text = some (body, rest)) (hrest : mark ∉ rest'.head?) :
    [mark, mark].isPrefixOf (body ++ mark :: rest') = false := by
  have hne {c : Char} {tail : List Char} (hhead : mark ∉ (c :: tail).head?) :
      (mark == c) = false := by
    rw [beq_eq_false_iff_ne]
    rintro rfl
    exact hhead rfl
  cases hbody : body with
  | nil =>
      cases rest' with
      | nil => simp [List.isPrefixOf]
      | cons c rest' => simp [List.isPrefixOf, hne hrest]
  | cons c more =>
      have hhead := not_mem_head_body hmark h
      rw [hbody] at hhead
      rw [List.cons_append, List.isPrefixOf, hne hhead, Bool.false_and]

theorem quotedBy_spec (h : quotedBy mark text = some (body, taken, rest)) :
    ∃ more, taken = mark :: more ∧ text = mark :: (more ++ rest) := by
  have happend := quotedBy_splits mark _ _ _ _ h
  simp only [quotedBy] at h
  split at h
  · cases h
    exact ⟨_, rfl, happend.symm⟩
  · split at h
    · split at h
      · obtain ⟨⟨inner, after⟩, -, heq⟩ := Option.map_eq_some_iff.mp h
        cases heq
        exact ⟨_, rfl, happend.symm⟩
      · cases h
    · cases h

theorem quotedBy_continued (hmark : mark ≠ '\\')
    (h : quotedBy mark text = some (body, taken, rest)) (hrest : mark ∉ rest'.head?) :
    quotedBy mark (taken ++ rest') = some (body, taken, rest') := by
  simp only [quotedBy] at h
  split at h
  · rename_i inner after hlong
    cases h
    split at hlong
    · have hcontinued := bodyToMarks_continued hmark hlong rest'
      have hbegins : [mark, mark, mark].isPrefixOf
          ([mark, mark, mark] ++ body ++ [mark, mark, mark] ++ rest') = true := by simp
      have hdrop : ([mark, mark, mark] ++ body ++ [mark, mark, mark] ++ rest').drop 3 =
          body ++ [mark, mark, mark] ++ rest' := by simp
      simp only [quotedBy, hbegins, if_true, hdrop, hcontinued]
    · cases hlong
  · split at h
    · rename_i c after
      split at h
      · obtain ⟨⟨inner, tail⟩, hshort, heq⟩ := Option.map_eq_some_iff.mp h
        cases heq
        have htripled := not_tripled_of_bodyToMark hmark hshort hrest
        have hbegins :
            [mark, mark, mark].isPrefixOf (mark :: (inner ++ mark :: rest')) = false := by
          rw [List.isPrefixOf, htripled, Bool.and_false]
        have hcontinued := bodyToMark_continued hmark hshort rest'
        have htext : [mark] ++ inner ++ [mark] ++ rest' = mark :: (inner ++ mark :: rest') := by
          simp
        rw [htext]
        simp only [quotedBy, hbegins, Bool.false_eq_true, if_false, if_true, hcontinued,
          Option.map_some]
      · cases h
    · cases h

/-- What a scanner of literals between marks takes begins with one of the marks. -/
theorem quoted_spec (h : quoted text = some (body, taken, rest)) :
    ∃ mark more, mark ∈ ['"', '\''] ∧ taken = mark :: more := by
  unfold quoted at h
  split at h
  · rename_i hquoted
    cases h
    obtain ⟨more, rfl, -⟩ := quotedBy_spec hquoted
    exact ⟨'"', more, by decide, rfl⟩
  · obtain ⟨more, rfl, -⟩ := quotedBy_spec h
    exact ⟨'\'', more, by decide, rfl⟩

theorem quoted_continued (h : quoted text = some (body, taken, rest))
    (hrest : ∀ c ∈ rest'.head?, c ∉ ['"', '\'']) :
    quoted (taken ++ rest') = some (body, taken, rest') := by
  have hhead : ∀ mark ∈ ['"', '\''], mark ∉ rest'.head? := fun mark hmark hmem =>
    hrest mark hmem hmark
  unfold quoted at h
  split at h
  · rename_i hquoted
    cases h
    simp only [quoted, quotedBy_continued (by decide) hquoted (hhead _ (by decide))]
  · obtain ⟨more, rfl, -⟩ := quotedBy_spec h
    have hnone : quotedBy '"' ('\'' :: more ++ rest') = none := by
      simp [quotedBy]
    simp only [quoted, hnone, quotedBy_continued (by decide) h (hhead _ (by decide))]

/-- A quotation mark or an apostrophe begins no literal but one between such marks. -/
theorem bytesMarks_none (hmark : mark ∈ ['"', '\'']) (text : List Char) :
    bytesMarks (mark :: text) = none := by
  cases text with
  | nil => rfl
  | cons c text => rcases List.mem_pair.mp hmark with rfl | rfl <;> rfl

theorem bytesMarks_continued {raw : Bool} {marks : List Char}
    (h : bytesMarks text = some (raw, marks, mark :: rest)) (hmark : mark ∈ ['"', '\''])
    (more : List Char) :
    bytesMarks (marks ++ mark :: more) = some (raw, marks, mark :: more) := by
  unfold bytesMarks at h
  split at h
  · rename_i a b after
    split at h
    · rename_i ha
      split at h
      · rename_i hb
        cases h
        simp [bytesMarks, ha, hb]
      · cases h
        rcases List.mem_pair.mp hmark with rfl | rfl <;> simp [bytesMarks, ha, isRawMark]
    · rename_i ha
      split at h
      · rename_i hboth
        cases h
        simp only [List.cons_append, List.nil_append, bytesMarks, ha, hboth, if_true]
        rfl
      · cases h
  · cases h

theorem head_bytesMarks {raw : Bool} {marks : List Char}
    (h : bytesMarks text = some (raw, marks, rest)) :
    ∃ c more, c ∈ ['b', 'B', 'r', 'R'] ∧ marks = c :: more := by
  unfold bytesMarks at h
  split at h
  · rename_i a b after
    split at h
    · rename_i ha
      have hmem : a ∈ ['b', 'B'] := by simpa [isBytesMark] using ha
      split at h <;>
        · cases h
          exact ⟨a, _, List.mem_append_left ['r', 'R'] hmem, rfl⟩
    · split at h
      · rename_i hboth
        cases h
        have hmem : a ∈ ['r', 'R'] := by
          simpa [isRawMark] using (Bool.and_eq_true_iff.mp hboth).1
        exact ⟨a, _, List.mem_append_right ['b', 'B'] hmem, rfl⟩
      · cases h
  · cases h

theorem bytes_continued {token : Token} (h : bytes text = some (token, taken, rest))
    (hrest : ∀ c ∈ rest'.head?, c ∉ ['"', '\'']) :
    bytes (taken ++ rest') = some (token, taken, rest') ∧
      ∃ c more, c ∈ ['b', 'B', 'r', 'R'] ∧ taken = c :: more := by
  unfold bytes at h
  split at h
  · rename_i raw marks after hmarks
    obtain ⟨⟨inner, found, tail⟩, hquoted, heq⟩ := Option.map_eq_some_iff.mp h
    cases heq
    obtain ⟨mark, more, hmark, rfl⟩ := quoted_spec hquoted
    have happend := quoted_splits _ _ _ _ hquoted
    rw [← happend, List.cons_append] at hmarks
    have hcontinued := bytesMarks_continued hmarks hmark (more ++ rest')
    obtain ⟨c, tail, hc, rfl⟩ := head_bytesMarks hmarks
    refine ⟨?_, c, _, hc, rfl⟩
    rw [List.append_assoc, show mark :: more ++ rest' = mark :: (more ++ rest') from rfl]
    simp only [bytes, hcontinued]
    rw [← List.cons_append, quoted_continued hquoted hrest, Option.map_some]
  · cases h

theorem text_continued {token : Token} (h : Scanner.text text = some (token, taken, rest))
    (hrest : ∀ c ∈ rest'.head?, c ∉ ['"', '\'']) :
    Scanner.text (taken ++ rest') = some (token, taken, rest') ∧ bytes (taken ++ rest') = none ∧
      ∃ c more, c ∈ ['r', 'R', '"', '\''] ∧ taken = c :: more := by
  unfold Scanner.text at h
  split at h
  · rename_i c after
    split at h
    · rename_i hraw
      obtain ⟨⟨inner, found, tail⟩, hquoted, heq⟩ := Option.map_eq_some_iff.mp h
      cases heq
      obtain ⟨mark, more, hmark, rfl⟩ := quoted_spec hquoted
      have hmem : c ∈ ['r', 'R'] := by simpa [isRawMark] using hraw
      refine ⟨?_, ?_, c, _, List.mem_append_left ['"', '\''] hmem, rfl⟩
      · rw [List.cons_append]
        simp only [Scanner.text, hraw, if_true, quoted_continued hquoted hrest, Option.map_some]
      · have hmarks : bytesMarks (c :: mark :: (more ++ rest')) = none := by
          rcases List.mem_pair.mp hmem with rfl | rfl <;>
            rcases List.mem_pair.mp hmark with rfl | rfl <;> rfl
        simp only [List.cons_append, bytes, hmarks]
    · obtain ⟨⟨inner, found, tail⟩, hquoted, heq⟩ := Option.map_eq_some_iff.mp h
      cases heq
      obtain ⟨mark, more, hmark, rfl⟩ := quoted_spec hquoted
      have hcontinued := quoted_continued hquoted hrest
      have hraw : isRawMark mark = false := by
        rcases List.mem_pair.mp hmark with rfl | rfl <;> rfl
      refine ⟨?_, ?_, mark, more, List.mem_append_right ['r', 'R'] hmark, rfl⟩
      · rw [List.cons_append] at hcontinued ⊢
        simp only [Scanner.text, hraw, Bool.false_eq_true, if_false, hcontinued, Option.map_some]
      · simp only [List.cons_append, bytes, bytesMarks_none hmark]
  · cases h

end Quoted

end EmbeddedExpr.Grammar.Scanner
