import EmbeddedExpr.Grammar.Nesting
import EmbeddedExpr.Proofs.Grammar.Literals

/-!
# Texts that the nesting scan passes over

Between the parts of a literal the scan has nothing open but brackets (`calm`): no choice, and no
signs directly before.  `Skips bound brackets text rest` says that the scan gets from `text` to
`rest` and is calm with the same brackets again.  Skipping is transitive, so that the scan of a
literal is put together from the scans of its parts; the bound is only looked at where a bracket
or a sign begins.
-/

namespace EmbeddedExpr.Grammar.Nesting

open Text (Quotable)

/-- Only brackets are open. -/
def calm (brackets : List (Char × Nat)) : Nesting :=
  ⟨brackets, List.replicate (brackets.length + 1) 0, 0, 0⟩

/-- The scan gets over the text up to `rest`, with no more brackets open there than here. -/
def Skips (bound : Nat) (brackets : List (Char × Nat)) (text rest : List Char) : Prop :=
  ∀ offset, ∃ stop, scan bound .code 0 (calm brackets) offset text =
    scan bound .code 0 (calm brackets) stop rest

variable {bound : Nat} {brackets : List (Char × Nat)} {text middle rest : List Char} {c : Char}

theorem Skips.refl (text : List Char) : Skips bound brackets text text :=
  fun offset => ⟨offset, rfl⟩

theorem Skips.trans (h : Skips bound brackets text middle)
    (hnext : Skips bound brackets middle rest) : Skips bound brackets text rest := by
  intro offset
  obtain ⟨between, hfirst⟩ := h offset
  obtain ⟨stop, hsecond⟩ := hnext between
  exact ⟨stop, hfirst.trans hsecond⟩

/-- A text that is skipped to its end keeps within the bound. -/
theorem check_of_skips (h : Skips bound [] text []) : check bound text = .ok () := by
  obtain ⟨stop, hscan⟩ := h 0
  exact hscan

/-! ### Single characters -/

/-- The character neither opens nor closes anything, or it is a comma. -/
def IsOrdinary (c : Char) : Prop :=
  c ∉ ['(', '[', '\x7b', ')', ']', '\x7d', '?', '!', '-', '"', '\'', '/']

instance : DecidablePred IsOrdinary := fun _ => inferInstanceAs (Decidable (¬_ ∈ List.cons _ _))

/-- A character that is no bracket. -/
theorem unbracketed (h : c ∉ ['(', '[', '\x7b', ')', ']', '\x7d']) :
    isOpening c = false ∧ opening? c = none := by
  simp only [List.mem_cons, List.not_mem_nil, or_false, not_or] at h
  refine ⟨by simp [isOpening, h], ?_⟩
  unfold opening?
  split <;> simp_all

/-- The scan of a character that begins neither a quoted literal nor a comment. -/
theorem scan_code_cons {n n' : Nesting} {offset : Nat} (hquote : c ≠ '"' ∧ c ≠ '\'')
    (hslash : c ≠ '/' ∨ ['/'].isPrefixOf rest = false)
    (hstep : n.step bound offset c = .going n') :
    scan bound .code 0 n offset (c :: rest) =
      scan bound .code 0 n' (offset + c.utf8Size) rest := by
  have hcomment : ¬(c = '/' ∧ ['/'].isPrefixOf rest = true) := by
    rintro ⟨hc, hrest⟩
    exact hslash.elim (absurd hc) fun hnone => Bool.false_ne_true (hnone.symm.trans hrest)
  rw [scan, if_neg (by simp [hquote]), if_neg hcomment, hstep]

/-- An ordinary character other than a comma only ends the signs in a row, and a blank not even
these. -/
theorem step_ordinary (n : Nesting) (h : IsOrdinary c) (hcomma : c ≠ ',') (offset : Nat) :
    n.step bound offset c =
      if c = ' ' ∨ c = '\t' ∨ c = '\r' ∨ c = '\n' then .going n else .going n.endSigns := by
  simp only [IsOrdinary, List.mem_cons, not_or] at h
  have hclosing : opening? c = none := by
    unfold opening?
    split <;> simp_all
  simp only [step, isOpening, hclosing]
  simp [h, hcomma]

theorem step_calm (h : IsOrdinary c) (offset : Nat) :
    (calm brackets).step bound offset c = .going (calm brackets) := by
  by_cases hcomma : c = ','
  · subst hcomma
    rfl
  · rw [step_ordinary _ h hcomma]
    exact ite_self _

theorem skips_ordinary (h : IsOrdinary c) : Skips bound brackets (c :: rest) rest := by
  intro offset
  have hc := h
  simp only [IsOrdinary, List.mem_cons, not_or] at hc
  exact ⟨_, scan_code_cons (by simp [hc]) (.inl (by simp [hc])) (step_calm h offset)⟩

theorem skips_all (h : ∀ c ∈ text, IsOrdinary c) : Skips bound brackets (text ++ rest) rest := by
  induction text with
  | nil => exact .refl _
  | cons c text ih =>
      exact (skips_ordinary (h c List.mem_cons_self)).trans
        (ih fun d hd => h d (List.mem_cons_of_mem _ hd))

theorem isOrdinary_of_isDigit (h : Number.isDigit c = true) : IsOrdinary c := by
  have hdigits : ∀ d ∈ ['(', '[', '\x7b', ')', ']', '\x7d', '?', '!', '-', '"', '\'', '/'],
      Number.isDigit d = false := by
    simp [Number.isDigit_eq]
  exact fun hmem => Number.ne_of_isDigit h (hdigits c hmem) rfl

/-- A sign before a digit: the digit ends the signs in a row. -/
theorem skips_minus (hbound : brackets.length < bound) (h : Number.isDigit c = true) :
    Skips bound brackets ('-' :: c :: rest) rest := by
  intro offset
  have hord := isOrdinary_of_isDigit h
  -- between the two characters the sign counts as a level
  have hsign : (calm brackets).step bound offset '-' =
      .going ⟨brackets, (calm brackets).choices, 0, 1⟩ := by
    have hdepth : ¬bound < brackets.length + 0 + (0 + 1) := by omega
    exact if_neg hdepth
  have hdigit (offset : Nat) :
      step bound ⟨brackets, (calm brackets).choices, 0, 1⟩ offset c = .going (calm brackets) := by
    rw [step_ordinary _ hord (Number.ne_of_isDigit h (by decide)), if_neg]
    · rfl
    · rintro (heq | heq | heq | heq) <;> exact Number.ne_of_isDigit h (by decide) heq
  simp only [IsOrdinary, List.mem_cons, not_or] at hord
  exact ⟨_, (scan_code_cons (by decide) (.inl (by decide)) hsign).trans
    (scan_code_cons (by simp [hord]) (.inl (by simp [hord])) (hdigit _))⟩

/-! ### Brackets -/

/-- Brackets that belong together begin neither quoted literals nor comments. -/
theorem brackets_spec {opening closing : Char} (h : opening? closing = some opening) :
    isOpening opening = true ∧ isOpening closing = false ∧
      ∀ c ∈ [opening, closing], (c ≠ '"' ∧ c ≠ '\'') ∧ c ≠ '/' := by
  have hpair : (opening, closing) ∈ [('(', ')'), ('[', ']'), ('\x7b', '\x7d')] := by
    unfold opening? at h
    split at h <;> cases h <;> decide
  have hplain : ∀ pair ∈ [('(', ')'), ('[', ']'), ('\x7b', '\x7d')],
      isOpening pair.1 = true ∧ isOpening pair.2 = false ∧
        ∀ c ∈ [pair.1, pair.2], (c ≠ '"' ∧ c ≠ '\'') ∧ c ≠ '/' := by
    simp [isOpening]
  exact hplain _ hpair

/-- An enclosed text is skipped if it is skipped inside the bracket. -/
theorem skips_enclosed {opening : Char} (closing : Char)
    (hclosing : opening? closing = some opening) (hbound : brackets.length < bound)
    (h : ∀ offset, Skips bound ((opening, offset) :: brackets) text (closing :: rest)) :
    Skips bound brackets (opening :: text) rest := by
  intro offset
  obtain ⟨hopening, hnot, hchars⟩ := brackets_spec hclosing
  have hopen : (calm brackets).step bound offset opening =
      .going (calm ((opening, offset) :: brackets)) := by
    have hdepth : ¬bound < brackets.length + 1 + 0 + 0 := by omega
    rw [step, hopening, if_pos rfl]
    exact if_neg hdepth
  have hclose (stop : Nat) : (calm ((opening, offset) :: brackets)).step bound stop closing =
      .going (calm brackets) := by
    rw [step, hnot, if_neg Bool.false_ne_true, hclosing]
    exact if_pos rfl
  obtain ⟨hquote, hslash⟩ := hchars opening (by simp)
  obtain ⟨hquote', hslash'⟩ := hchars closing (by simp)
  obtain ⟨stop, hinside⟩ := h offset (offset + opening.utf8Size)
  exact ⟨_, (scan_code_cons hquote (.inl hslash) hopen).trans
    (hinside.trans (scan_code_cons hquote' (.inl hslash') (hclose stop)))⟩

/-! ### Quoted literals -/

theorem scan_quoted {body : List Char} (h : Quotable body) (n : Nesting) (offset : Nat) :
    ∃ stop, scan bound (.quoted '"') 0 n offset (body ++ '"' :: rest) =
      scan bound .code 0 n stop rest := by
  induction h generalizing offset with
  | nil => exact ⟨_, rfl⟩
  | plain hc _ ih =>
      obtain ⟨stop, hscan⟩ := ih (offset + _)
      refine ⟨stop, ?_⟩
      rw [List.cons_append, scan, if_neg hc.2.1, if_neg (not_or.mpr ⟨hc.1, hc.2.2⟩), hscan]
  | escape _ ih =>
      obtain ⟨stop, hscan⟩ := ih (offset + _ + _)
      exact ⟨stop, hscan⟩

/-- A quoted literal that no further mark follows is skipped whatever it says. -/
theorem skips_quoted {body : List Char} (h : Quotable body) (hrest : '"' ∉ rest.head?) :
    Skips bound brackets ('"' :: (body ++ '"' :: rest)) rest := by
  intro offset
  obtain ⟨stop, hscan⟩ := scan_quoted h (calm brackets) (offset + '"'.utf8Size)
  refine ⟨stop, ?_⟩
  rw [scan, if_pos (Or.inl rfl), Scanner.not_tripled h hrest]
  exact hscan

/-! ### Items -/

section Items

variable {α : Type} {shown : α → List Char} {xs : List α}

theorem skips_following
    (h : ∀ x ∈ xs, ∀ rest, Closes rest → Skips bound brackets (shown x ++ rest) rest)
    (hrest : Closes rest) :
    Skips bound brackets (xs.flatMap (fun x => ',' :: ' ' :: shown x) ++ rest) rest := by
  induction xs with
  | nil => exact .refl _
  | cons x xs ih =>
      rw [List.flatMap_cons, List.append_assoc]
      refine (skips_ordinary (by decide)).trans ((skips_ordinary (by decide)).trans ?_)
      refine (h x List.mem_cons_self _ (closes_following shown hrest xs)).trans ?_
      exact ih fun y hy => h y (List.mem_cons_of_mem _ hy)

/-- Texts with commas between them are skipped if each of them is. -/
theorem skips_joined
    (h : ∀ x ∈ xs, ∀ rest, Closes rest → Skips bound brackets (shown x ++ rest) rest)
    (hrest : Closes rest) : Skips bound brackets (joined (xs.map shown) ++ rest) rest := by
  cases xs with
  | nil => exact .refl _
  | cons x xs =>
      rw [List.map_cons, joined, List.flatMap_map, List.append_assoc]
      refine (h x List.mem_cons_self _ (closes_following shown hrest xs)).trans ?_
      exact skips_following (fun y hy => h y (List.mem_cons_of_mem _ hy)) hrest

end Items

end EmbeddedExpr.Grammar.Nesting
