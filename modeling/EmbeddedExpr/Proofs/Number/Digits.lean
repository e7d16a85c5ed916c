import EmbeddedExpr.Number.Reading
import EmbeddedExpr.Number.Shortest
import Mathlib.Algebra.Order.Ring.Nat

/-!
# Runs of digits

Reading a run of decimal digits gives the number that the core library assigns to it
(`ofDigits_eq`), so what is known there of the digits of a number carries over.
-/

namespace EmbeddedExpr.Number

/-! ### Characters -/

theorem digitValue?_eq (c : Char) :
    digitValue? c = if c.isDigit then some (c.toNat - '0'.toNat) else none := by
  have hdigit : ('0' ≤ c ∧ c ≤ '9') ↔ c.isDigit = true := by
    simp only [Char.isDigit, Bool.and_eq_true, decide_eq_true_eq]
    exact Iff.rfl
  unfold digitValue?
  simp only [hdigit]

theorem isDigit_eq (c : Char) : isDigit c = c.isDigit := by
  rw [isDigit, digitValue?_eq]
  cases c.isDigit <;> rfl

theorem isDigit_of_mem_toDigits {n : Nat} {c : Char} (h : c ∈ Nat.toDigits 10 n) :
    isDigit c = true := by
  rw [isDigit_eq]
  exact Nat.isDigit_of_mem_toDigits (by decide) (by decide) h

theorem toNat_of_isDigit {c : Char} (h : isDigit c = true) : 48 ≤ c.toNat ∧ c.toNat ≤ 57 := by
  rw [isDigit_eq, Char.isDigit, Bool.and_eq_true, decide_eq_true_iff, decide_eq_true_iff] at h
  exact h

/-- A digit is the character of its value. -/
theorem ne_of_isDigit {c d : Char} (hc : isDigit c = true) (hd : isDigit d = false) : c ≠ d := by
  rintro rfl
  rw [hd] at hc
  cases hc

theorem digitChar_toNat {c : Char} (h : isDigit c = true) :
    Nat.digitChar (c.toNat - '0'.toNat) = c := by
  obtain ⟨hlow, hhigh⟩ := toNat_of_isDigit h
  have hvalue : c.toNat - '0'.toNat = c.toNat - 48 := rfl
  apply Char.toNat_inj.mp
  rw [hvalue, Nat.toNat_digitChar_of_lt_ten (by omega)]
  omega

/-! ### Runs -/

/-- A text of digits only. -/
def AllDigits (text : List Char) : Prop := ∀ c ∈ text, isDigit c = true

instance (text : List Char) : Decidable (AllDigits text) :=
  inferInstanceAs (Decidable (∀ c ∈ text, isDigit c = true))

theorem AllDigits.append {first second : List Char} (hfirst : AllDigits first)
    (hsecond : AllDigits second) : AllDigits (first ++ second) := by
  intro c hc
  rcases List.mem_append.mp hc with hc | hc
  · exact hfirst c hc
  · exact hsecond c hc

theorem allDigits_zeros (n : Nat) : AllDigits (List.replicate n '0') := by
  intro c hc
  rw [List.eq_of_mem_replicate hc]
  rfl

theorem allDigits_toDigits (n : Nat) : AllDigits (Nat.toDigits 10 n) :=
  fun _ => isDigit_of_mem_toDigits

theorem ofDigits_eq {text : List Char} (h : AllDigits text) (acc : Nat) :
    ofDigits 10 digitValue? acc text = some (Nat.ofDigitChars 10 text acc) := by
  induction text generalizing acc with
  | nil => rfl
  | cons c rest ih =>
      obtain ⟨hc, hrest⟩ := List.forall_mem_cons.mp h
      have hvalue : digitValue? c = some (c.toNat - '0'.toNat) := by
        rw [digitValue?_eq, if_pos (isDigit_eq c ▸ hc)]
      rw [ofDigits, hvalue, Nat.ofDigitChars_cons, Nat.mul_comm]
      exact ih hrest _

theorem readNat?_eq {text : List Char} (h : AllDigits text) (hne : text ≠ []) :
    readNat? text = some (Nat.ofDigitChars 10 text 0) := by
  rw [readNat?, if_neg (by simpa using hne), ofDigits_eq h]

theorem readNat?_toDigits (n : Nat) : readNat? (Nat.toDigits 10 n) = some n := by
  rw [readNat?_eq (allDigits_toDigits n) Nat.toDigits_ne_nil, Nat.ofDigitChars_ten_toDigits]

/-- A run of digits spells less than the power of its length. -/
theorem ofDigitChars_lt {text : List Char} (h : AllDigits text) :
    Nat.ofDigitChars 10 text 0 < 10 ^ text.length := by
  induction text with
  | nil => exact Nat.one_pos
  | cons c rest ih =>
      obtain ⟨hc, hrest⟩ := List.forall_mem_cons.mp h
      have hlt := ih hrest
      have hdigit : c.toNat - '0'.toNat ≤ 9 := by
        show c.toNat - 48 ≤ 9
        have hbounds := toNat_of_isDigit hc
        omega
      rw [Nat.ofDigitChars_cons, Nat.ofDigitChars_eq_ofDigitChars_zero, List.length_cons,
        Nat.pow_succ]
      have hmul : 10 ^ rest.length * (10 * 0 + (c.toNat - '0'.toNat)) ≤ 10 ^ rest.length * 9 :=
        Nat.mul_le_mul_left _ (by omega)
      omega

theorem ofDigitChars_dropZeros (text : List Char) :
    Nat.ofDigitChars 10 (text.dropWhile (· == '0')) 0 = Nat.ofDigitChars 10 text 0 := by
  induction text with
  | nil => rfl
  | cons c rest ih =>
      by_cases hzero : c = '0'
      · subst hzero
        rw [List.dropWhile_cons_of_pos rfl, ih, Nat.ofDigitChars_cons]
        rfl
      · rw [List.dropWhile_cons_of_neg (by simpa using hzero)]

/-- A run without a leading zero spells at least the power below its length. -/
theorem pow_le_ofDigitChars {c : Char} {rest : List Char} (h : AllDigits (c :: rest))
    (hzero : c ≠ '0') : 10 ^ rest.length ≤ Nat.ofDigitChars 10 (c :: rest) 0 := by
  have hpos : 1 ≤ 10 * 0 + (c.toNat - '0'.toNat) := by
    have hbounds := toNat_of_isDigit (h c (List.mem_cons_self ..))
    have hne : c.toNat ≠ 48 := fun heq => hzero (Char.toNat_inj.mp heq)
    show 1 ≤ 10 * 0 + (c.toNat - 48)
    omega
  rw [Nat.ofDigitChars_cons, Nat.ofDigitChars_eq_ofDigitChars_zero]
  exact Nat.le_trans (Nat.le_mul_of_pos_right _ hpos) (Nat.le_add_right _ _)

/-- The digits of a positive number do not start with a zero. -/
theorem head_toDigits {n : Nat} (hn : n ≠ 0) {c : Char} {rest : List Char}
    (h : Nat.toDigits 10 n = c :: rest) : c ≠ '0' := by
  rintro rfl
  have hdigits : AllDigits rest := fun d hd =>
    isDigit_of_mem_toDigits (h ▸ List.mem_cons_of_mem _ hd)
  have hvalue : n = Nat.ofDigitChars 10 rest 0 := by
    rw [← @Nat.ofDigitChars_ten_toDigits n, h]
    rfl
  have hlt : n < 10 ^ rest.length := hvalue ▸ ofDigitChars_lt hdigits
  cases rest with
  | nil => exact hn hvalue
  | cons d more =>
      have hlength := (Nat.length_toDigits_le_iff (by decide) (Nat.succ_pos _)).mpr hlt
      rw [h] at hlength
      simp only [List.length_cons] at hlength
      omega

/-! ### Trailing zeros -/

/-- Dropping copies of an element from the end of a list drops nothing else. -/
theorem reverse_dropWhile_append {α : Type} [BEq α] [LawfulBEq α] (a : α) (l : List α) :
    ∃ k, (l.reverse.dropWhile (· == a)).reverse ++ List.replicate k a = l := by
  have hsplit := List.takeWhile_append_dropWhile (p := (· == a)) (l := l.reverse)
  have hcopies : ∀ b ∈ l.reverse.takeWhile (· == a), b = a := by
    intro b hb
    have hall := List.all_eq_true.mp (List.all_takeWhile (p := (· == a)) (l := l.reverse)) b hb
    exact beq_iff_eq.mp hall
  refine ⟨(l.reverse.takeWhile (· == a)).length, ?_⟩
  rw [← List.reverse_replicate, ← List.eq_replicate_of_mem hcopies, ← List.reverse_append, hsplit,
    List.reverse_reverse]

end EmbeddedExpr.Number
