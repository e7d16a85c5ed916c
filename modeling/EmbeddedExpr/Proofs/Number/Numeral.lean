import EmbeddedExpr.Proofs.Number.Digits
import Mathlib.Data.Nat.Digits.Defs

/-!
# What numerals denote

A digit denotes its place among the digits of the bases up to sixteen, and a run of digits the
number that it is in a base (`numeral`).  A run is read just if there is a digit in it and no other
character, and then as the number that it denotes (`readNat?_eq_some_iff`,
`readHex?_eq_some_iff`).
-/

namespace EmbeddedExpr.Number

variable {base n : ℕ} {text : List Char} {c : Char}

/-- The digits of the bases up to sixteen in the order of their values. -/
def digitSigns : List Char :=
  ['0', '1', '2', '3', '4', '5', '6', '7', '8', '9', 'a', 'b', 'c', 'd', 'e', 'f']

/-- The value of a digit of either case. -/
def digitOf (c : Char) : ℕ := digitSigns.idxOf c.toLower

/-- The number that digits denote in a base. -/
def numeral (base : ℕ) (digits : List Char) : ℕ := Nat.ofDigits base (digits.map digitOf).reverse

/-! ### Digits -/

theorem mem_range_of_le {low high : Char} (h : low ≤ c ∧ c ≤ high) :
    c ∈ (List.range' low.toNat (high.toNat + 1 - low.toNat)).map Char.ofNat := by
  have hlow : low.toNat ≤ c.toNat := h.1
  have hhigh : c.toNat ≤ high.toNat := h.2
  exact List.mem_map.mpr ⟨c.toNat, List.mem_range'_1.mpr ⟨hlow, by omega⟩, Char.ofNat_toNat c⟩

theorem digitValue?_eq_digitOf (h : isDigit c = true) :
    digitValue? c = some (digitOf c) ∧ digitOf c < 10 := by
  have hall : ∀ c ∈ (List.range' 48 10).map Char.ofNat,
      digitValue? c = some (digitOf c) ∧ digitOf c < 10 := by decide
  have hrange : '0' ≤ c ∧ c ≤ '9' := by
    by_contra hnot
    simp [isDigit, digitValue?, hnot] at h
  exact hall c (mem_range_of_le hrange)

theorem hexValue?_eq_digitOf (h : isHexDigit c = true) :
    hexValue? c = some (digitOf c) ∧ digitOf c < 16 := by
  have hall : ∀ first ∈ [(48, 10), (97, 6), (65, 6)],
      ∀ c ∈ (List.range' first.1 first.2).map Char.ofNat,
        hexValue? c = some (digitOf c) ∧ digitOf c < 16 := by decide
  have hrange : ('0' ≤ c ∧ c ≤ '9') ∨ ('a' ≤ c ∧ c ≤ 'f') ∨ ('A' ≤ c ∧ c ≤ 'F') := by
    by_contra hnone
    simp only [not_or] at hnone
    simp [isHexDigit, hexValue?, hnone] at h
  rcases hrange with hc | hc | hc
  · exact hall (48, 10) (by decide) c (mem_range_of_le hc)
  · exact hall (97, 6) (by decide) c (mem_range_of_le hc)
  · exact hall (65, 6) (by decide) c (mem_range_of_le hc)

/-! ### Runs -/

/-- A run is read if all its characters are digits, and continues the number in front of it. -/
theorem ofDigits_eq_some_iff {value? : Char → Option ℕ}
    (hvalue : ∀ c, (value? c).isSome → value? c = some (digitOf c)) (acc : ℕ) :
    ofDigits base value? acc text = some n ↔
      (∀ c ∈ text, (value? c).isSome) ∧ acc * base ^ text.length + numeral base text = n := by
  induction text generalizing acc with
  | nil => simp [ofDigits, numeral]
  | cons c rest ih =>
      rw [ofDigits]
      cases hc : value? c with
      | none => simp [hc]
      | some d =>
          obtain rfl : d = digitOf c := Option.some.inj (hc.symm.trans (hvalue c (by rw [hc]; rfl)))
          have hsplit : (acc * base + digitOf c) * base ^ rest.length + numeral base rest =
              acc * base ^ (c :: rest).length + numeral base (c :: rest) := by
            simp only [numeral, List.map_cons, List.reverse_cons, Nat.ofDigits_append,
              Nat.ofDigits_singleton, List.length_reverse, List.length_map, List.length_cons,
              Nat.pow_succ]
            ring
          simp only [ih, hsplit, List.forall_mem_cons, hc, Option.isSome_some, true_and]

theorem readNat?_eq_some_iff :
    readNat? text = some n ↔ text ≠ [] ∧ AllDigits text ∧ numeral 10 text = n := by
  have hread : ofDigits 10 digitValue? 0 text = some n ↔
      AllDigits text ∧ 0 * 10 ^ text.length + numeral 10 text = n :=
    ofDigits_eq_some_iff (fun c hc => (digitValue?_eq_digitOf hc).1) 0
  rw [readNat?]
  split
  · simp_all
  · rename_i hne
    rw [hread, Nat.zero_mul, Nat.zero_add]
    exact (and_iff_right (by simpa using hne)).symm

theorem readHex?_eq_some_iff : readHex? text = some n ↔
    text ≠ [] ∧ (∀ c ∈ text, isHexDigit c = true) ∧ numeral 16 text = n := by
  have hread : ofDigits 16 hexValue? 0 text = some n ↔
      (∀ c ∈ text, isHexDigit c = true) ∧ 0 * 16 ^ text.length + numeral 16 text = n :=
    ofDigits_eq_some_iff (fun c hc => (hexValue?_eq_digitOf hc).1) 0
  rw [readHex?]
  split
  · simp_all
  · rename_i hne
    rw [hread, Nat.zero_mul, Nat.zero_add]
    exact (and_iff_right (by simpa using hne)).symm

/-- A run of digits denotes less than the power of its length. -/
theorem numeral_lt (h : AllDigits text) : numeral 10 text < 10 ^ text.length := by
  have hdigits : ∀ d ∈ (text.map digitOf).reverse, d < 10 := by
    intro d hd
    obtain ⟨c, hc, rfl⟩ := List.mem_map.mp (List.mem_reverse.mp hd)
    exact (digitValue?_eq_digitOf (h c hc)).2
  simpa [numeral] using Nat.ofDigits_lt_base_pow_length (by decide) hdigits

end EmbeddedExpr.Number
