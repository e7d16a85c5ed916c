import EmbeddedExpr.Eval.Operators
import Mathlib.Data.Int.Notation
import Mathlib.Logic.Basic

/-!
# Arithmetic on integers

An integer of either kind is an integer in a range (`Value.integer?`, `Kind.Holds`).  On two of
one kind an operator gives the exact result where the kind holds it, and the overflow where it
does not (`Exact`), so nothing wraps.  Quotient and remainder exist for the same operands: the
remainder overflows with its quotient, and quotients and remainders together give the dividend
back by operations that do not overflow on the way.
-/

namespace EmbeddedExpr

namespace Kind

/-- Whether an integer is in the range of a kind. -/
def Holds : Kind → ℤ → Prop
  | int, n => -0x8000000000000000 ≤ n ∧ n < 0x8000000000000000
  | uint, n => 0 ≤ n ∧ n < 0x10000000000000000
  | _, _ => False

variable {kind : Kind} {m n : ℤ}

/-- The range of a kind has no gaps towards zero. -/
theorem Holds.between (h : kind.Holds m) (hbetween : 0 ≤ n ∧ n ≤ m ∨ m ≤ n ∧ n ≤ 0) :
    kind.Holds n := by
  cases kind <;> try exact h.elim
  all_goals
    obtain ⟨hlow, hhigh⟩ := h
    constructor <;> omega

end Kind

namespace Value

/-- The integer that a value of either kind of integers is. -/
def integer? : Value → Option ℤ
  | int i => some i.toInt
  | uint u => some u.toNat
  | _ => none

/-- The value of a kind that an integer is. -/
def ofInteger? (kind : Kind) (n : ℤ) : Option Value :=
  match kind with
  | .int => (Number.int64? n).map int
  | .uint => (Number.uint64? n).map uint
  | _ => none

variable {kind : Kind} {n : ℤ} {v w : Value}

theorem ofInteger?_eq_some_iff :
    ofInteger? kind n = some v ↔ v.kind = kind ∧ v.integer? = some n := by
  cases kind <;> cases v <;>
    simp [ofInteger?, integer?, Value.kind, Number.int64?_eq_some_iff, Number.uint64?_eq_some_iff]

theorem isSome_ofInteger?_iff : (ofInteger? kind n).isSome = true ↔ kind.Holds n := by
  cases kind <;> simp [ofInteger?, Kind.Holds, Number.int64?, Number.uint64?]

theorem ofInteger?_eq_none_iff : ofInteger? kind n = none ↔ ¬ kind.Holds n := by
  rw [← isSome_ofInteger?_iff, Bool.not_eq_true, Option.isSome_eq_false_iff,
    Option.isNone_iff_eq_none]

theorem holds_of_integer? (h : v.integer? = some n) : v.kind.Holds n := by
  rw [← isSome_ofInteger?_iff, ofInteger?_eq_some_iff.mpr ⟨rfl, h⟩]
  rfl

/-- A kind has one value for an integer. -/
theorem eq_of_integer? (hkind : v.kind = w.kind) (hv : v.integer? = some n)
    (hw : w.integer? = some n) : v = w := by
  have hfirst := ofInteger?_eq_some_iff.mpr ⟨hkind, hv⟩
  have hsecond := ofInteger?_eq_some_iff.mpr ⟨rfl, hw⟩
  exact Option.some.inj (hfirst.symm.trans hsecond)

end Value

namespace Eval

/-- Whether an outcome is an exact result as a value of its kind, or the overflow of the
operation where the kind does not hold the result. -/
def Exact (kind : Kind) (operation : String) (result : ℤ) (outcome : Except Fault Value) : Prop :=
  (kind.Holds result →
    ∃ value, outcome = .ok value ∧ value.kind = kind ∧ value.integer? = some result) ∧
  (¬ kind.Holds result → outcome = .error (.overflow operation))

section Quotients

variable {kind : Kind} {m n : ℤ}

theorem tmod_between (m n : ℤ) : 0 ≤ m.tmod n ∧ m.tmod n ≤ m ∨ m ≤ m.tmod n ∧ m.tmod n ≤ 0 := by
  have hsize : (m.tmod n).natAbs ≤ m.natAbs := by
    rw [Int.natAbs_tmod]
    exact Nat.mod_le _ _
  rcases Int.le_total 0 m with hm | hm
  · have hsign := Int.tmod_nonneg n hm
    omega
  · have hsign := Int.tmod_nonneg n (Int.neg_nonneg_of_nonpos hm)
    rw [Int.neg_tmod] at hsign
    omega

theorem holds_tmod (hm : kind.Holds m) : kind.Holds (m.tmod n) :=
  hm.between (tmod_between m n)

/-- The multiple of the divisor that a quotient gives is on the way from zero to the dividend. -/
theorem holds_tdiv_mul (hm : kind.Holds m) : kind.Holds (m.tdiv n * n) := by
  have hsum := Int.tdiv_mul_add_tmod m n
  have hbetween := tmod_between m n
  refine hm.between ?_
  omega

/-- A divisor other than `1` and `-1` leaves half of the dividend at most. -/
theorem natAbs_tdiv_le_half (hone : n ≠ 1) (hminus : n ≠ -1) :
    (m.tdiv n).natAbs ≤ m.natAbs / 2 := by
  rcases eq_or_ne n 0 with rfl | hzero
  · rw [Int.tdiv_zero]
    exact Nat.zero_le _
  · rw [Int.natAbs_tdiv]
    exact Nat.div_le_div_left (by omega) (by decide)

/-- The least signed integer has no quotient by `-1`; all others do not overflow. -/
theorem holds_tdiv_iff (hm : kind.Holds m) (hn : kind.Holds n) :
    kind.Holds (m.tdiv n) ↔ ¬ (kind = .int ∧ m = -0x8000000000000000 ∧ n = -1) := by
  cases kind <;> try exact hm.elim
  case int =>
    obtain ⟨hlow, hhigh⟩ := hm
    simp only [Kind.Holds, true_and]
    rcases eq_or_ne n (-1) with rfl | hminus
    · rw [Int.tdiv_neg, Int.tdiv_one]
      omega
    rcases eq_or_ne n 1 with rfl | hone
    · rw [Int.tdiv_one]
      omega
    have hhalf : (m.tdiv n).natAbs ≤ m.natAbs / 2 := natAbs_tdiv_le_half hone hminus
    omega
  case uint =>
    have hle : (m.tdiv n).natAbs ≤ m.natAbs := Int.natAbs_tdiv_le_natAbs m n
    have hsign : 0 ≤ m.tdiv n := Int.tdiv_nonneg hm.1 hn.1
    simp only [Kind.Holds, reduceCtorEq, false_and, not_false_eq_true, iff_true]
    obtain ⟨hlow, hhigh⟩ := hm
    omega

end Quotients

variable {a b : Value} {m n r : ℤ} {op : ArithOp}

theorem exact_orOverflow (kind : Kind) (operation : String) (r : ℤ) :
    Exact kind operation r (orOverflow operation (Value.ofInteger? kind r)) := by
  constructor
  · intro hholds
    obtain ⟨value, hvalue⟩ := Option.isSome_iff_exists.mp (Value.isSome_ofInteger?_iff.mpr hholds)
    rw [hvalue]
    exact ⟨value, rfl, Value.ofInteger?_eq_some_iff.mp hvalue⟩
  · intro hout
    rw [Value.ofInteger?_eq_none_iff.mpr hout]
    rfl

/-- Arithmetic on two integers of one kind is that of the integers, up to overflow. -/
theorem applyArith_eq_of_integers (ha : a.integer? = some m) (hb : b.integer? = some n)
    (hkind : a.kind = b.kind) :
    applyArith op a b =
      match integerResult op m n with
      | .error fault => .error fault
      | .ok r =>
        if op = .rem ∧ Value.ofInteger? a.kind (m.tdiv n) = none then .error (.overflow op.noun)
        else orOverflow op.noun (Value.ofInteger? a.kind r) := by
  have hbounds := Value.holds_of_integer? ha
  have hbounds' := Value.holds_of_integer? hb
  cases a <;> cases ha <;> cases b <;> cases hb <;> try cases hkind
  case int i j =>
    change signedArith op i j = _
    rw [signedArith]
    cases integerResult op i.toInt j.toInt with
    | error fault => rfl
    | ok r => exact if_congr (and_congr_right fun _ => Option.map_eq_none_iff.symm) rfl rfl
  case uint u v =>
    -- A quotient of unsigned integers is one, so the remainder never overflows with it.
    have hquotient : Kind.uint.Holds ((u.toNat : ℤ).tdiv v.toNat) :=
      (holds_tdiv_iff hbounds hbounds').mpr fun h => nomatch h.1
    change unsignedArith op u v = _
    rw [unsignedArith]
    cases integerResult op u.toNat v.toNat with
    | error fault => rfl
    | ok r => exact (if_neg fun h => Value.ofInteger?_eq_none_iff.mp h.2 hquotient).symm

theorem exact_applyArith (op : ArithOp) (ha : a.integer? = some m) (hb : b.integer? = some n)
    (hkind : a.kind = b.kind) (hresult : integerResult op m n = .ok r)
    (hquotient : op = .rem → a.kind.Holds (m.tdiv n)) :
    Exact a.kind op.noun r (applyArith op a b) := by
  rw [applyArith_eq_of_integers ha hb hkind, hresult]
  dsimp only
  rw [if_neg fun h => Value.ofInteger?_eq_none_iff.mp h.2 (hquotient h.1)]
  exact exact_orOverflow a.kind op.noun r

/-- Division by zero is no result, whatever the dividend. -/
theorem applyArith_zero (ha : a.integer? = some m) (hb : b.integer? = some 0)
    (hkind : a.kind = b.kind) :
    applyArith .div a b = .error .divisionByZero ∧ applyArith .rem a b = .error .moduloByZero :=
  ⟨applyArith_eq_of_integers ha hb hkind, applyArith_eq_of_integers ha hb hkind⟩

/-- Where the quotient does not fit, the remainder overflows with it. -/
theorem applyArith_overflow (ha : a.integer? = some m) (hb : b.integer? = some n)
    (hkind : a.kind = b.kind) (hn : n ≠ 0) (hquotient : ¬ a.kind.Holds (m.tdiv n)) :
    applyArith .div a b = .error (.overflow ArithOp.div.noun) ∧
      applyArith .rem a b = .error (.overflow ArithOp.rem.noun) := by
  constructor
  · exact (exact_applyArith .div ha hb hkind (if_neg hn) nofun).2 hquotient
  · rw [applyArith_eq_of_integers ha hb hkind, integerResult, if_neg hn]
    dsimp only
    rw [if_pos ⟨rfl, Value.ofInteger?_eq_none_iff.mpr hquotient⟩]

/-- Quotient and remainder give the dividend back. -/
theorem exists_quotient_remainder (ha : a.integer? = some m) (hb : b.integer? = some n)
    (hkind : a.kind = b.kind) (hn : n ≠ 0) (hquotient : a.kind.Holds (m.tdiv n)) :
    ∃ quotient remainder product, applyArith .div a b = .ok quotient ∧
      applyArith .rem a b = .ok remainder ∧ applyArith .mul quotient b = .ok product ∧
      applyArith .add product remainder = .ok a ∧ remainder.integer? = some (m.tmod n) := by
  have hm := Value.holds_of_integer? ha
  obtain ⟨quotient, hdiv, hqkind, hq⟩ :=
    (exact_applyArith .div ha hb hkind (if_neg hn) nofun).1 hquotient
  obtain ⟨remainder, hrem, hrkind, hr⟩ :=
    (exact_applyArith .rem ha hb hkind (if_neg hn) fun _ => hquotient).1 (holds_tmod hm)
  obtain ⟨product, hmul, hpkind, hp⟩ :=
    (exact_applyArith .mul hq hb (hqkind.trans hkind) rfl nofun).1
      (hqkind ▸ holds_tdiv_mul hm)
  obtain ⟨sum, hadd, hskind, hs⟩ :=
    (exact_applyArith .add hp hr (hpkind.trans (hqkind.trans hrkind.symm)) rfl nofun).1
      (by rw [hpkind, hqkind, Int.tdiv_mul_add_tmod]; exact hm)
  rw [Int.tdiv_mul_add_tmod] at hs
  rw [Value.eq_of_integer? (hskind.trans (hpkind.trans hqkind)) hs ha] at hadd
  exact ⟨quotient, remainder, product, hdiv, hrem, hmul, hadd, hr⟩

theorem applyUnary_neg (ha : a.integer? = some m) (hkind : a.kind = .int) :
    Exact .int "negation" (-m) (applyUnary .neg a) := by
  cases a <;> cases hkind
  cases ha
  exact exact_orOverflow .int "negation" _

/-- An integer does not meet a value of another kind in arithmetic. -/
theorem applyArith_of_other_kind {c : Value} (ha : a.integer? = some m) (hc : c.kind ≠ a.kind) :
    applyArith op a c = .error (.noOverloadFor op.symbol [a, c]) ∧
      applyArith op c a = .error (.noOverloadFor op.symbol [c, a]) := by
  cases a <;> cases ha
  all_goals
    cases c <;> first | exact absurd rfl hc | cases op <;> exact ⟨rfl, rfl⟩

/-- Arithmetic on two integers of one kind gives the exact result or the overflow.  Quotient and
remainder are missing for the same operands, a zero divisor or the least signed integer by `-1`,
and otherwise give the dividend back, with a remainder that is smaller than the divisor and on
the side of the dividend.  Negation fails for the least signed integer alone, and no value of
another kind is accepted. -/
theorem integer_arithmetic_exact (ha : a.integer? = some m) (hb : b.integer? = some n)
    (hkind : a.kind = b.kind) :
    Exact a.kind "addition" (m + n) (applyArith .add a b) ∧
    Exact a.kind "subtraction" (m - n) (applyArith .sub a b) ∧
    Exact a.kind "multiplication" (m * n) (applyArith .mul a b) ∧
    (n = 0 →
      applyArith .div a b = .error .divisionByZero ∧
      applyArith .rem a b = .error .moduloByZero) ∧
    (a.kind = .int ∧ m = -0x8000000000000000 ∧ n = -1 →
      applyArith .div a b = .error (.overflow "division") ∧
      applyArith .rem a b = .error (.overflow "modulus")) ∧
    (n ≠ 0 → ¬ (a.kind = .int ∧ m = -0x8000000000000000 ∧ n = -1) →
      ∃ quotient remainder product k, applyArith .div a b = .ok quotient ∧
        applyArith .rem a b = .ok remainder ∧ applyArith .mul quotient b = .ok product ∧
        applyArith .add product remainder = .ok a ∧
        remainder.integer? = some k ∧ k.natAbs < n.natAbs ∧ (k = 0 ∨ (0 < k ↔ 0 < m))) ∧
    (a.kind = .int →
      (m ≠ -0x8000000000000000 →
        ∃ c, applyUnary .neg a = .ok c ∧ c.kind = .int ∧ c.integer? = some (-m)) ∧
      (m = -0x8000000000000000 → applyUnary .neg a = .error (.overflow "negation"))) ∧
    ∀ op c, c.kind ≠ a.kind →
      applyArith op a c = .error (.noOverloadFor op.symbol [a, c]) ∧
      applyArith op c a = .error (.noOverloadFor op.symbol [c, a]) := by
  have hm := Value.holds_of_integer? ha
  have hquotient := holds_tdiv_iff hm (hkind ▸ Value.holds_of_integer? hb)
  refine ⟨exact_applyArith .add ha hb hkind rfl nofun, exact_applyArith .sub ha hb hkind rfl nofun,
    exact_applyArith .mul ha hb hkind rfl nofun, ?zero, ?least, ?otherwise, ?negation,
    fun op c hc => applyArith_of_other_kind ha hc⟩
  case zero =>
    rintro rfl
    exact applyArith_zero ha hb hkind
  case least =>
    intro hleast
    have hn : n ≠ 0 := by omega
    exact applyArith_overflow ha hb hkind hn fun h => hquotient.mp h hleast
  case otherwise =>
    intro hn hother
    obtain ⟨quotient, remainder, product, hdiv, hrem, hmul, hadd, hr⟩ :=
      exists_quotient_remainder ha hb hkind hn (hquotient.mpr hother)
    have hsize : (m.tmod n).natAbs < n.natAbs := by
      rw [Int.natAbs_tmod]
      exact Nat.mod_lt _ (Int.natAbs_pos.mpr hn)
    have hside := tmod_between m n
    exact ⟨quotient, remainder, product, _, hdiv, hrem, hmul, hadd, hr, hsize, by omega⟩
  case negation =>
    intro hint
    obtain ⟨hfits, hoverflows⟩ := applyUnary_neg ha hint
    obtain ⟨hlow, hhigh⟩ : Kind.int.Holds m := hint ▸ hm
    constructor
    · intro hne
      exact hfits ⟨by omega, by omega⟩
    · rintro rfl
      exact hoverflows fun h => absurd h.2 (by decide)

/-- The integer `-7` by `2`: the quotient is `-3` and the remainder `-1`. -/
theorem integer_arithmetic_negative :
    (∃ quotient remainder product k, applyArith .div (.int (-7)) (.int 2) = .ok quotient ∧
      applyArith .rem (.int (-7)) (.int 2) = .ok remainder ∧
      applyArith .mul quotient (.int 2) = .ok product ∧
      applyArith .add product remainder = .ok (.int (-7)) ∧
      remainder.integer? = some k ∧ k.natAbs < 2 ∧ (k = 0 ∨ (0 < k ↔ 0 < (-7 : ℤ)))) ∧
    applyArith .add (.int (-7)) (.uint 2) =
      .error (.noOverloadFor "+" [.int (-7), .uint 2]) := by
  obtain ⟨-, -, -, -, -, hdivides, -, hmixed⟩ :=
    integer_arithmetic_exact (a := .int (-7)) (b := .int 2) (m := -7) (n := 2) rfl rfl rfl
  exact ⟨hdivides (by decide) (by decide), (hmixed .add (.uint 2) nofun).1⟩

end Eval

end EmbeddedExpr
