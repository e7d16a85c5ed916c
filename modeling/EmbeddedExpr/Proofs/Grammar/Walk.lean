import EmbeddedExpr.Proofs.Grammar.Delimiters

/-!
# Walks of the scan to a depth

The walk over a text comes to a depth, and behind the text to a state if the bound allows the depth
(`Nesting.Reaches`).  One walk after the other comes to the greater depth (`Reaches.append`), so
that walks over texts are put together from those over characters.

Brackets, question marks and signs come to the depth of what is open with them.  All other
characters only end the signs in a row, so that the scan comes no deeper in a literal, except at the
minus of an exponent, which it takes for a sign (`Scanner.reaches_literal`).
-/

namespace EmbeddedExpr.Grammar

open Scanner (isNameChar)

namespace Nesting

variable {bound depth depth' : Nat} {n m l : Nesting} {text text' : List Char} {c : Char}

/-! ### Walks to a depth -/

/-- The walk comes to a depth, and to the other state unless the bound is less than the depth. -/
structure Reaches (bound : Nat) (n : Nesting) (text : List Char) (depth : Nat) (m : Nesting) :
    Prop where
  within : depth ≤ bound → walk bound n text = .going m
  beyond : bound < depth → ∃ deep, walk bound n text = .exceeded deep

theorem walk_append (n : Nesting) (text text' : List Char) :
    walk bound n (text ++ text') =
      match walk bound n text with
      | .going m => walk bound m text'
      | progress => progress := by
  induction text generalizing n with
  | nil => rfl
  | cons c text ih =>
      rw [List.cons_append, walk, walk]
      cases n.step bound 0 c with
      | going m => exact ih m
      | settled => rfl
      | exceeded deep => rfl

theorem Reaches.append (h : Reaches bound n text depth m)
    (h' : depth ≤ bound → Reaches bound m text' depth' l) :
    Reaches bound n (text ++ text') (max depth depth') l := by
  constructor
  · intro hle
    have hdepth := Nat.le_trans (Nat.le_max_left _ _) hle
    rw [walk_append, h.within hdepth]
    exact (h' hdepth).within (Nat.le_trans (Nat.le_max_right _ _) hle)
  · intro hlt
    by_cases hdepth : depth ≤ bound
    · obtain ⟨deep, hdeep⟩ := (h' hdepth).beyond (by omega)
      exact ⟨deep, by rw [walk_append, h.within hdepth]; exact hdeep⟩
    · obtain ⟨deep, hdeep⟩ := h.beyond (Nat.lt_of_not_le hdepth)
      exact ⟨deep, by rw [walk_append, hdeep]⟩

theorem Reaches.of_walk (h : walk bound n text = .going m) (hle : depth ≤ bound) :
    Reaches bound n text depth m :=
  ⟨fun _ => h, fun hlt => absurd hle (Nat.not_le_of_lt hlt)⟩

theorem Reaches.of_eq (h : Reaches bound n text depth m) (hdepth : depth = depth') :
    Reaches bound n text depth' m :=
  hdepth ▸ h

theorem walk_singleton (n : Nesting) (c : Char) : walk bound n [c] = n.step bound 0 c := by
  rw [walk]
  cases n.step bound 0 c <;> rfl

theorem Reaches.of_step
    (h : n.step bound 0 c = if bound < depth then .exceeded depth else .going m) :
    Reaches bound n [c] depth m := by
  constructor
  · intro hle
    rw [walk_singleton, h, if_neg (Nat.not_lt_of_le hle)]
  · intro hlt
    exact ⟨depth, by rw [walk_singleton, h, if_pos hlt]⟩

/-! ### Characters -/

/-- All that is open apart from signs. -/
def base (n : Nesting) : Nat := n.brackets.length + n.choiceTotal

/-- What is open behind an opening bracket. -/
def inside (n : Nesting) (c : Char) : Nesting :=
  ⟨(c, 0) :: n.brackets, 0 :: n.choices, n.choiceTotal, 0⟩

theorem base_inside (n : Nesting) (c : Char) : (n.inside c).base = n.base + 1 := by
  simp only [base, inside, List.length_cons]
  omega

/-- What is open, with a number of signs directly in front. -/
def withSigns (n : Nesting) (signs : Nat) : Nesting :=
  ⟨n.brackets, n.choices, n.choiceTotal, signs⟩

/-- What is open behind a phrase with a number of question marks. -/
def behind (n : Nesting) (marks : Nat) : Nesting :=
  ⟨n.brackets, n.choices.modifyHead (· + marks), n.choiceTotal + marks, 0⟩

theorem base_withSigns (n : Nesting) (signs : Nat) : (n.withSigns signs).base = n.base := rfl

theorem signs_withSigns (n : Nesting) (signs : Nat) : (n.withSigns signs).signs = signs := rfl

theorem behind_withSigns (n : Nesting) (signs marks : Nat) :
    (n.withSigns signs).behind marks = n.behind marks := rfl

theorem weight_withSigns (n : Nesting) (signs : Nat) :
    (n.withSigns signs).weight = n.base + signs := rfl

theorem behind_behind (n : Nesting) (marks more : Nat) :
    (n.behind marks).behind more = n.behind (marks + more) := by
  obtain ⟨brackets, _ | ⟨level, choices⟩, total, signs⟩ := n <;> simp [behind, Nat.add_assoc]

theorem behind_zero (n : Nesting) : n.behind 0 = n.endSigns := by
  obtain ⟨brackets, _ | ⟨level, choices⟩, total, signs⟩ := n <;> rfl

theorem signs_behind (n : Nesting) (marks : Nat) : (n.behind marks).signs = 0 := rfl

theorem weight_behind (n : Nesting) (marks : Nat) :
    (n.behind marks).weight = n.base + marks := by
  simp only [weight, behind, base, Nat.add_zero, Nat.add_assoc]

theorem base_behind (n : Nesting) (marks : Nat) : (n.behind marks).base = n.base + marks := by
  simp only [base, behind, Nat.add_assoc]

/-- The character only ends the signs in a row. -/
def IsPlain (c : Char) : Prop := ∀ bound n, step bound n 0 c = .going n.endSigns

theorem isPlain_of_not_mem
    (h : c ∉ ['(', '[', '\x7b', ')', ']', '\x7d', '?', ',', '!', '-', ' ', '\t', '\r', '\n']) :
    IsPlain c := by
  intro bound n
  have hbracket : c ∉ ['(', '[', '\x7b', ')', ']', '\x7d'] := fun hmem =>
    h (List.mem_append_left ['?', ',', '!', '-', ' ', '\t', '\r', '\n'] hmem)
  obtain ⟨hopening, hclosing⟩ := unbracketed hbracket
  simp only [List.mem_cons, List.not_mem_nil, or_false, not_or] at h
  simp [step, hopening, hclosing, h]

theorem isPlain_of_isNameChar (h : isNameChar c = true) : IsPlain c :=
  isPlain_of_not_mem (Scanner.not_mem_of_isNameChar (by decide) h)

theorem isPlain_of_isWordChar (h : IsWordChar c) (hsign : c ≠ '-') : IsPlain c := by
  rcases h with hname | hmark
  · exact isPlain_of_isNameChar hname
  · simp only [List.mem_cons, List.not_mem_nil, or_false] at hmark
    rcases hmark with rfl | rfl | rfl
    · exact isPlain_of_not_mem (by decide)
    · exact isPlain_of_not_mem (by decide)
    · exact absurd rfl hsign

theorem walk_plain (hne : text ≠ []) (h : ∀ c ∈ text, IsPlain c) :
    walk bound n text = .going n.endSigns := by
  induction text generalizing n with
  | nil => exact absurd rfl hne
  | cons c text ih =>
      obtain ⟨hc, htext⟩ := List.forall_mem_cons.mp h
      rw [walk, hc bound n]
      cases text with
      | nil => rfl
      | cons d text => exact ih (List.cons_ne_nil _ _) htext

theorem reaches_plain (hne : text ≠ []) (h : ∀ c ∈ text, IsPlain c) (hle : depth ≤ bound) :
    Reaches bound n text depth n.endSigns :=
  .of_walk (walk_plain hne h) hle

/-- Without question marks the phrase only ends the signs in front of it. -/
theorem Reaches.quiet (h : Reaches bound n text depth n.endSigns) :
    Reaches bound n text depth (n.behind 0) := by
  rwa [behind_zero]

theorem reaches_opening (bound : Nat) (hc : isOpening c = true) (n : Nesting) :
    Reaches bound n [c] (n.base + n.signs + 1) (n.inside c) := by
  have hdepth : ((c, 0) :: n.brackets).length + n.choiceTotal + n.signs =
      n.base + n.signs + 1 := by
    simp only [base, List.length_cons]
    omega
  refine .of_step ?_
  simp only [step, hc, if_true, openBracket, hdepth, inside]

/-- A closing bracket leaves no question mark that is inside the brackets. -/
theorem reaches_closing {opening : Char} (hc : opening? c = some opening) (n : Nesting)
    (marks : Nat) (hle : depth ≤ bound) :
    Reaches bound ((n.inside opening).behind marks) [c] depth n.endSigns := by
  obtain ⟨-, hopening, -⟩ := brackets_spec hc
  refine .of_walk ?_ hle
  simp [walk_singleton, step, hopening, hc, closeBracket, inside, behind, endSigns]

/-- Nor does a comma. -/
theorem reaches_comma (opening : Char) (n : Nesting) (marks : Nat) (hle : depth ≤ bound) :
    Reaches bound ((n.inside opening).behind marks) [','] depth (n.inside opening) := by
  refine .of_walk ?_ hle
  have hstep : ((n.inside opening).behind marks).step bound 0 ',' =
      ((n.inside opening).behind marks).closeChoices := rfl
  rw [walk_singleton, hstep]
  simp [closeChoices, inside, behind]

theorem reaches_question (bound : Nat) (n : Nesting) :
    Reaches bound n ['?'] (n.base + 1) (n.behind 1) := by
  refine .of_step ?_
  obtain ⟨brackets, _ | ⟨level, choices⟩, total, signs⟩ := n <;> rfl

theorem reaches_sign (bound : Nat) (hc : c = '!' ∨ c = '-') (n : Nesting) :
    Reaches bound n [c] (n.base + n.signs + 1) (n.withSigns (n.signs + 1)) := by
  refine .of_step ?_
  rcases hc with rfl | rfl <;> rfl

/-! ### Literals -/

/-- Plain characters, between which there may be one minus. -/
inductive OneSign : List Char → Prop
  | plain {text : List Char} : (∀ c ∈ text, IsPlain c) → OneSign text
  | minus {before after : List Char} : before ≠ [] → (∀ c ∈ before, IsPlain c) → after ≠ [] →
      (∀ c ∈ after, IsPlain c) → OneSign (before ++ '-' :: after)

theorem OneSign.append (h : OneSign text) (hfront : ∀ c ∈ text', IsPlain c) :
    OneSign (text' ++ text) := by
  cases h with
  | plain htext => exact .plain (List.forall_mem_append.mpr ⟨hfront, htext⟩)
  | minus hbefore hplain hafter hplain' =>
      rw [← List.append_assoc]
      exact .minus (List.append_ne_nil_of_right_ne_nil _ hbefore)
        (List.forall_mem_append.mpr ⟨hfront, hplain⟩) hafter hplain'

theorem not_isPlain_minus : ¬ IsPlain '-' := by
  intro h
  have hstep := h 0 start
  cases hstep

theorem OneSign.reaches (h : OneSign text) (hne : text ≠ []) (hle : n.base ≤ bound) :
    Reaches bound n text (n.base + if '-' ∈ text then 1 else 0) n.endSigns := by
  cases h with
  | plain htext =>
      have hminus : '-' ∉ text := fun hmem => not_isPlain_minus (htext _ hmem)
      rw [if_neg hminus]
      exact reaches_plain hne htext hle
  | @minus before after hbefore hplain hafter hplain' =>
      have hfront : Reaches bound n before n.base n.endSigns := reaches_plain hbefore hplain hle
      have hminus : Reaches bound n.endSigns ['-'] (n.base + 1) (n.withSigns 1) :=
        reaches_sign bound (.inr rfl) n.endSigns
      have hback : n.base + 1 ≤ bound → Reaches bound (n.withSigns 1) after 0 n.endSigns :=
        fun _ => reaches_plain hafter hplain' (Nat.zero_le _)
      have hall := hfront.append fun _ => hminus.append hback
      have hmem : '-' ∈ before ++ '-' :: after := by simp
      have hdepth : max n.base (max (n.base + 1) 0) = n.base + 1 := by omega
      rw [if_pos hmem]
      rwa [hdepth] at hall

end Nesting

/-- The signs in a literal, of which there is at most one, in the exponent of a double. -/
def Token.signs : Token → Nat
  | .double written => if '-' ∈ written then 1 else 0
  | _ => 0

namespace Scanner

open Number (isDigit isHexDigit)
open Nesting (IsPlain OneSign Reaches)

variable {text run taken rest : List Char}

theorem isPlain_of_digits (h : digits text = some (run, rest)) : ∀ c ∈ run, IsPlain c := by
  intro c hc
  refine Nesting.isPlain_of_isWordChar (isWordChar_of_digits h c hc) ?_
  rintro rfl
  exact absurd ((digits_spec h).1 _ hc) (by decide)

theorem isPlain_of_fraction (h : fraction text = some (run, rest)) :
    run ≠ [] ∧ ∀ c ∈ run, IsPlain c := by
  unfold fraction at h
  split at h
  · obtain ⟨⟨part, after⟩, hdigits, heq⟩ := Option.map_eq_some_iff.mp h
    cases heq
    exact ⟨List.cons_ne_nil _ _,
      List.forall_mem_cons.mpr ⟨fun _ _ => rfl, isPlain_of_digits hdigits⟩⟩
  · cases h

theorem oneSign_of_exponent (h : exponent text = some (run, rest)) : OneSign run := by
  unfold exponent at h
  split at h
  · split at h
    · rename_i mark _ hmark
      have hmark : IsPlain mark := by
        simp only [Bool.or_eq_true, beq_iff_eq] at hmark
        rcases hmark with rfl | rfl <;> exact fun _ _ => rfl
      split at h
      · split at h
        · rename_i sign after hsign
          obtain ⟨⟨part, after⟩, hdigits, heq⟩ := Option.map_eq_some_iff.mp h
          cases heq
          have hpart := isPlain_of_digits hdigits
          simp only [Bool.or_eq_true, beq_iff_eq] at hsign
          rcases hsign with rfl | rfl
          · exact .plain (List.forall_mem_cons.mpr ⟨hmark,
              List.forall_mem_cons.mpr ⟨fun _ _ => rfl, hpart⟩⟩)
          · exact .minus (List.cons_ne_nil mark []) (List.forall_mem_singleton.mpr hmark)
              (ne_nil_of_digits hdigits) hpart
        · obtain ⟨⟨part, after⟩, hdigits, heq⟩ := Option.map_eq_some_iff.mp h
          cases heq
          exact .plain (List.forall_mem_cons.mpr ⟨hmark, isPlain_of_digits hdigits⟩)
      · cases h
    · cases h
  · cases h

theorem oneSign_of_optionalExponent (text : List Char) : OneSign (optionalExponent text).1 := by
  unfold optionalExponent
  cases h : exponent text with
  | none => exact .plain (List.forall_mem_nil _)
  | some pair => exact oneSign_of_exponent h

theorem oneSign_of_doubleText (h : doubleText text = some (taken, rest)) : OneSign taken := by
  unfold doubleText at h
  split at h
  · rename_i hdigits
    have hwhole := isPlain_of_digits hdigits
    split at h
    · rename_i hfraction
      cases h
      exact (oneSign_of_optionalExponent _).append
        (List.forall_mem_append.mpr ⟨hwhole, (isPlain_of_fraction hfraction).2⟩)
    · obtain ⟨⟨power, after⟩, hpower, heq⟩ := Option.map_eq_some_iff.mp h
      cases heq
      exact (oneSign_of_exponent hpower).append hwhole
  · obtain ⟨⟨part, after⟩, hpart, heq⟩ := Option.map_eq_some_iff.mp h
    cases heq
    exact (oneSign_of_optionalExponent _).append (isPlain_of_fraction hpart).2

theorem isPlain_of_magnitude {hex : Bool} (h : magnitude text = some (hex, run, taken, rest)) :
    ∀ c ∈ taken, IsPlain c := by
  have hminus : '-' ∉ taken := by
    unfold magnitude at h
    split at h
    · rename_i hhex
      cases h
      obtain ⟨mark, hmark, rfl, -, hrun⟩ := hexDigits_spec hhex
      intro hmem
      rcases List.mem_cons.mp hmem with hzero | hmem
      · exact absurd hzero (by decide)
      rcases List.mem_cons.mp hmem with rfl | hmem
      · exact absurd hmark (by decide)
      · exact absurd (hrun _ hmem) (by decide)
    · obtain ⟨⟨part, after⟩, hdigits, heq⟩ := Option.map_eq_some_iff.mp h
      cases heq
      exact fun hmem => absurd ((digits_spec hdigits).1 _ hmem) (by decide)
  intro c hc
  exact Nesting.isPlain_of_isWordChar (isWordChar_of_magnitude h c hc)
    fun heq => hminus (heq ▸ hc)

theorem isPlain_of_keyword {w : List Char} (hw : w ∈ keywords)
    (h : word w text = some ((), taken, rest)) : ∀ c ∈ taken, IsPlain c := by
  obtain ⟨rfl, -, -⟩ := word_spec h
  exact fun c hc => Nesting.isPlain_of_isNameChar (isNameChar_of_mem_keyword hw c hc)

/-- The scan of a literal comes one deeper at the sign of an exponent. -/
theorem reaches_literal {bound : Nat} {n : Nesting} {token : Token}
    (h : literal text = some (token, taken, rest)) (hle : n.base ≤ bound) :
    Reaches bound n (Lexeme.literal token taken).visible (n.base + token.signs) n.endSigns := by
  -- of a literal between marks the first one is visible
  have hquote : Reaches bound n ['"'] n.base n.endSigns :=
    Nesting.reaches_plain (List.cons_ne_nil _ _)
      (List.forall_mem_singleton.mpr fun _ _ => rfl) hle
  have hplain (hne : taken ≠ []) (htaken : ∀ c ∈ taken, IsPlain c) :
      Reaches bound n taken n.base n.endSigns := Nesting.reaches_plain hne htaken hle
  have hlexeme : lexeme text = some (.literal token taken, rest) := by rw [lexeme, h]
  have hne : taken ≠ [] := text_ne_nil_of_lexeme hlexeme
  cases scanned_of_literal h with
  | double hdouble => exact (oneSign_of_doubleText hdouble).reaches hne hle
  | uint hmagnitude hmark =>
      refine hplain hne (List.forall_mem_append.mpr
        ⟨isPlain_of_magnitude hmagnitude, List.forall_mem_singleton.mpr ?_⟩)
      rcases List.mem_pair.mp hmark with rfl | rfl <;> exact fun _ _ => rfl
  | int hmagnitude => exact hplain hne (isPlain_of_magnitude hmagnitude)
  | null hw hword | bool _ hw hword => exact hplain hne (isPlain_of_keyword hw hword)
  | bytes | text => exact hquote

end Scanner

end EmbeddedExpr.Grammar
