/-!
# Integers of bounded width

The integers that fit a signed or an unsigned 64-bit word, and those that fit a
signed word of 128 bits.
-/

namespace EmbeddedExpr.Number

/-- An integer as a signed word, if it fits. -/
def int64? (n : Int) : Option Int64 :=
  if -0x8000000000000000 ≤ n ∧ n < 0x8000000000000000 then some (Int64.ofInt n) else none

/-- An integer as an unsigned word, if it fits. -/
def uint64? (n : Int) : Option UInt64 :=
  if 0 ≤ n ∧ n < 0x10000000000000000 then some (UInt64.ofNat n.toNat) else none

/-- The least integer of 128 bits. -/
def leastInt128 : Int := -0x80000000000000000000000000000000

/-- The bound above the integers of 128 bits. -/
def boundInt128 : Int := 0x80000000000000000000000000000000

/-- An integer, if it fits a signed word of 128 bits. -/
def int128? (n : Int) : Option Int :=
  if leastInt128 ≤ n ∧ n < boundInt128 then some n else none

theorem int64?_eq_some_iff {n : Int} {w : Int64} : int64? n = some w ↔ w.toInt = n := by
  unfold int64?
  constructor
  · split
    · rename_i h
      rintro ⟨⟩
      exact Int64.toInt_ofInt_of_le h.1 h.2
    · intro h; cases h
  · rintro rfl
    have hlo := w.le_toInt
    have hhi := w.toInt_lt
    rw [if_pos ⟨hlo, hhi⟩, Int64.ofInt_toInt]

theorem uint64?_eq_some_iff {n : Int} {w : UInt64} : uint64? n = some w ↔ (w.toNat : Int) = n := by
  unfold uint64?
  constructor
  · split
    · rename_i h
      rintro ⟨⟩
      rw [UInt64.toNat_ofNat_of_lt' (by have := h.2; simp only [UInt64.size]; omega)]
      omega
    · intro h; cases h
  · rintro rfl
    have := w.toNat_lt
    rw [if_pos (by omega), Int.toNat_natCast, UInt64.ofNat_toNat]

end EmbeddedExpr.Number
