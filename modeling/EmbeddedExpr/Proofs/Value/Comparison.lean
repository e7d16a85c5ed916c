import EmbeddedExpr.Eval.Operators
import EmbeddedExpr.Proofs.Number.Integers

/-!
# Comparing numbers of different kinds

A number of any kind but NaN has an exact value (`Value.number?`).  Two integers and two
doubles are compared by these values.  An integer and a double are compared after the integer
has been rounded, which makes the two equal where the double is the one nearest to the integer
(`Value.blurred`); such an integer is beyond `2 ^ 53`.  This is the only way in which the order
of numbers departs from that of their values (`numericOrder_eq`), and the only way in which the
relations of the language fail to be transitive on numbers.
-/

namespace EmbeddedExpr.Value

/-- The exact value of a number; NaN is none. -/
def number? : Value → Option Extended
  | int i => some (.ofRat i.toInt)
  | uint u => some (.ofRat (u.toNat : ℤ))
  | double x => if x.isNaN then none else some x.value
  | _ => none

/-- Whether an integer and a double differ, but rounding the integer gives the double. -/
def blurs (n : ℤ) (x : Double) : Bool :=
  decide ((Double.ofInt n).value = x.value ∧ x.value ≠ .ofRat n)

/-- Whether two numbers are an integer and a double that only rounding makes equal. -/
def blurred : Value → Value → Bool
  | int i, double x | double x, int i => blurs i.toInt x
  | uint u, double x | double x, uint u => blurs u.toNat x
  | _, _ => false

/-! ### Integers against doubles -/

theorem natAbs_toInt_lt (i : Int64) : i.toInt.natAbs < 0x20000000000000000 := by
  have hlow := i.le_toInt
  have hhigh := i.toInt_lt
  omega

theorem natAbs_toNat_lt (u : UInt64) : (u.toNat : ℤ).natAbs < 0x20000000000000000 := by
  have hhigh := u.toNat_lt
  omega

section Integer

variable {n : ℤ} {x : Double}

/-- An integer compares with a double as the numbers do, or the two are blurred. -/
theorem order?_ofInt_left (hlt : n.natAbs < 0x20000000000000000) (hnan : x.isNaN = false) :
    Double.order? (Double.ofInt n) x =
      some (if blurs n x then .eq else cmp (.ofRat n) x.value) := by
  rw [Double.order?_ofInt hlt hnan]
  by_cases hrounded : (Double.ofInt n).value = x.value
  · by_cases hexact : x.value = .ofRat n
    · rw [if_pos hrounded, hexact, cmp_self_eq_eq, ite_self]
    · rw [if_pos hrounded, blurs, decide_eq_true ⟨hrounded, hexact⟩, if_pos rfl]
  · rw [if_neg hrounded, blurs, decide_eq_false (fun h => hrounded h.1), if_neg nofun]

theorem order?_swap (x y : Double) :
    Double.order? x y = (Double.order? y x).map Ordering.swap := by
  rw [Double.order?, Double.order?, Bool.or_comm]
  split
  · rfl
  · rw [Option.map_some, ← cmp_eq_compare, ← cmp_eq_compare, cmp_swap]

theorem order?_ofInt_right (hlt : n.natAbs < 0x20000000000000000) (hnan : x.isNaN = false) :
    Double.order? x (Double.ofInt n) =
      some (if blurs n x then .eq else cmp x.value (.ofRat n)) := by
  rw [order?_swap, order?_ofInt_left hlt hnan, Option.map_some]
  split
  · rfl
  · rw [cmp_swap]

end Integer

/-! ### The order of numbers -/

variable {a b c : Value}

theorem number?_double_eq_some_iff {x : Double} {p : Extended} :
    (double x).number? = some p ↔ x.isNaN = false ∧ x.value = p := by
  rw [number?]
  cases x.isNaN <;> simp

/-- Numbers compare as their exact values do, unless they are blurred: then they are equal. -/
theorem numericOrder_eq {p q : Extended} (ha : a.number? = some p) (hb : b.number? = some q) :
    numericOrder a b = .ordered (if blurred a b then .eq else cmp p q) := by
  cases a <;> try cases ha
  case int i =>
    cases b <;> try cases hb
    case int j => rw [Extended.cmp_ofRat_intCast]; rfl
    case uint u => rw [Extended.cmp_ofRat_intCast]; rfl
    case double x =>
      obtain ⟨hnan, rfl⟩ := number?_double_eq_some_iff.mp hb
      rw [numericOrder, order?_ofInt_left (natAbs_toInt_lt i) hnan]
      rfl
  case uint u =>
    cases b <;> try cases hb
    case int j => rw [Extended.cmp_ofRat_intCast]; rfl
    case uint v =>
      rw [Extended.cmp_ofRat_intCast, numericOrder, ← cmp_eq_compare, ← cmp_eq_compare]
      exact congrArg _ (StrictMono.cmp_map_eq Nat.strictMono_cast _ _).symm
    case double x =>
      obtain ⟨hnan, rfl⟩ := number?_double_eq_some_iff.mp hb
      rw [numericOrder, order?_ofInt_left (natAbs_toNat_lt u) hnan]
      rfl
  case double x =>
    obtain ⟨hnan, rfl⟩ := number?_double_eq_some_iff.mp ha
    cases b <;> try cases hb
    case int j =>
      rw [numericOrder, order?_ofInt_right (natAbs_toInt_lt j) hnan]
      rfl
    case uint u =>
      rw [numericOrder, order?_ofInt_right (natAbs_toNat_lt u) hnan]
      rfl
    case double y =>
      obtain ⟨hynan, rfl⟩ := number?_double_eq_some_iff.mp hb
      rw [numericOrder, Double.order?_eq hnan hynan]
      rfl

/-- Blurred numbers differ. -/
theorem ne_of_blurred {p q : Extended} (ha : a.number? = some p) (hb : b.number? = some q)
    (h : blurred a b = true) : p ≠ q := by
  cases a <;> try cases ha
  case int i =>
    cases b <;> try cases h
    case double x =>
      obtain ⟨-, rfl⟩ := number?_double_eq_some_iff.mp hb
      exact (of_decide_eq_true h).2.symm
  case uint u =>
    cases b <;> try cases h
    case double x =>
      obtain ⟨-, rfl⟩ := number?_double_eq_some_iff.mp hb
      exact (of_decide_eq_true h).2.symm
  case double x =>
    obtain ⟨-, rfl⟩ := number?_double_eq_some_iff.mp ha
    cases b <;> try cases hb
    case int j => exact (of_decide_eq_true h).2
    case uint u => exact (of_decide_eq_true h).2
    case double y => cases h

/-- Rounding changes no integer up to `2 ^ 53`. -/
theorem blurs_eq_false {n : ℤ} (h : n.natAbs ≤ 0x20000000000000) (x : Double) :
    blurs n x = false := by
  apply decide_eq_false
  rintro ⟨hrounded, hne⟩
  exact hne (hrounded.symm.trans (Double.value_ofInt h))

/-! ### The relations of the language -/

theorem equals_of_number {p q : Extended} (ha : a.number? = some p) (hb : b.number? = some q) :
    equals a b = (numericOrder a b).isEqual := by
  cases a <;> try cases ha
  all_goals
    cases b <;> try cases hb
    all_goals simp only [equals]

end EmbeddedExpr.Value

namespace EmbeddedExpr.Eval

open Value

variable {a b c : Value}

/-- Where equality agrees with the order, every relation goes by the order. -/
theorem applyRelation_of_order {op : RelationOp} (hop : op ≠ .mem) {o : Ordering}
    (horder : order a b = .ordered o) (hequals : equals a b = (o == .eq)) :
    applyRelation op a b = .ok (satisfies op o) := by
  have happly (op : RelationOp) : applyOrder op a b = .ok (satisfies op o) := by
    rw [applyOrder, horder]
  cases op with
  | mem => exact absurd rfl hop
  | eq => rw [applyRelation, hequals, satisfies]
  | ne =>
      rw [applyRelation, hequals, satisfies]
      rfl
  | lt | le | gt | ge => exact happly _

/-- Of two numbers that are not blurred every relation holds as it holds of their values. -/
theorem applyRelation_eq_satisfies {op : RelationOp} (hop : op ≠ .mem) {p q : Extended}
    (ha : a.number? = some p) (hb : b.number? = some q) (hclear : blurred a b = false) :
    applyRelation op a b = .ok (satisfies op (cmp p q)) := by
  have hnumeric : numericOrder a b = .ordered (cmp p q) := by
    rw [numericOrder_eq ha hb, hclear, if_neg nofun]
  have hordered : order a b = .ordered (cmp p q) := by
    unfold order
    rw [hnumeric]
  refine applyRelation_of_order hop hordered ?_
  rw [equals_of_number ha hb, hnumeric]
  cases cmp p q <;> rfl

theorem satisfies_trans {op : RelationOp} (hop : op ≠ .ne) {p q r : Extended}
    (hpq : satisfies op (cmp p q) = true) (hqr : satisfies op (cmp q r) = true) :
    satisfies op (cmp p r) = true := by
  cases op with
  | ne => exact absurd rfl hop
  | mem => cases hpq
  | eq =>
      simp only [satisfies, beq_iff_eq, cmp_eq_eq_iff] at *
      exact hpq.trans hqr
  | lt =>
      simp only [satisfies, beq_iff_eq, cmp_eq_lt_iff] at *
      exact hpq.trans hqr
  | le =>
      simp only [satisfies, bne_iff_ne, ne_eq, cmp_eq_gt_iff, not_lt] at *
      exact hpq.trans hqr
  | gt =>
      simp only [satisfies, beq_iff_eq, cmp_eq_gt_iff] at *
      exact hqr.trans hpq
  | ge =>
      simp only [satisfies, bne_iff_ne, ne_eq, cmp_eq_lt_iff, not_lt] at *
      exact hqr.trans hpq

/-- Numbers of all kinds compare as their exact values do, unless they are an integer and a
double that only rounding makes equal; then they are found equal.  Without such a pair among
them the relations are transitive, and integers up to `2 ^ 53` are in no such pair. -/
theorem numericOrder_exact_unless_blurred {p q : Extended} (ha : a.number? = some p)
    (hb : b.number? = some q) :
    numericOrder a b = .ordered (if blurred a b then .eq else cmp p q) ∧
    (∀ op c, op ∈ [RelationOp.eq, .lt, .le, .gt, .ge] → c.number?.isSome = true →
      blurred a b = false → blurred b c = false → blurred a c = false →
      applyRelation op a b = .ok true → applyRelation op b c = .ok true →
      applyRelation op a c = .ok true) ∧
    ∀ n x, n.natAbs ≤ 0x20000000000000 → blurs n x = false := by
  refine ⟨numericOrder_eq ha hb, ?_, fun n x h => blurs_eq_false h x⟩
  intro op c hop hc hab hbc hac hleft hright
  obtain ⟨r, hr⟩ := Option.isSome_iff_exists.mp hc
  have hmem : op ≠ .mem := by rintro rfl; simp at hop
  have hne : op ≠ .ne := by rintro rfl; simp at hop
  rw [applyRelation_eq_satisfies hmem ha hb hab, Except.ok.injEq] at hleft
  rw [applyRelation_eq_satisfies hmem hb hr hbc, Except.ok.injEq] at hright
  rw [applyRelation_eq_satisfies hmem ha hr hac, satisfies_trans hne hleft hright]

/-- The double `2 ^ 53`, the nearest to the integer after it. -/
def twoPow53 : Double := Float.ofBits 0x4340000000000000

theorem value_twoPow53 : twoPow53.value = .ofRat (9007199254740992 : ℤ) := by decide +kernel

/-- The unsigned `1` is below the integer `2`, which is below the double `2 ^ 53`. -/
theorem numericOrder_exact_small :
    numericOrder (uint 1) (double twoPow53) =
        .ordered (if blurred (uint 1) (double twoPow53) then .eq
          else cmp (Extended.ofRat (1 : ℤ)) twoPow53.value) ∧
      applyRelation .lt (uint 1) (double twoPow53) = .ok true ∧
      blurs 2 twoPow53 = false := by
  have hone : (uint 1).number? = some (Extended.ofRat (1 : ℤ)) := rfl
  have htwo : (int 2).number? = some (Extended.ofRat (2 : ℤ)) := rfl
  have hlarge : (double twoPow53).number? = some twoPow53.value := by decide +kernel
  obtain ⟨hvalues, -, hsmall⟩ := numericOrder_exact_unless_blurred hone hlarge
  obtain ⟨-, hrelations, -⟩ := numericOrder_exact_unless_blurred hone htwo
  refine ⟨hvalues, ?_, hsmall 2 _ (by decide)⟩
  exact hrelations .lt (double twoPow53) (by decide) (by rw [hlarge]; rfl) rfl
    (hsmall 2 _ (by decide)) (hsmall 1 _ (by decide)) (by decide +kernel) (by decide +kernel)

/-- The integer after `2 ^ 53` is found equal to the double `2 ^ 53`, though it is greater, and
by way of this double it is equal to the integer `2 ^ 53`. -/
theorem numericOrder_not_exact :
    (∃ a b p q, a.number? = some p ∧ b.number? = some q ∧ cmp p q = .gt ∧
      numericOrder a b = .ordered .eq) ∧
    ∃ a b c, a.number?.isSome = true ∧ b.number?.isSome = true ∧ c.number?.isSome = true ∧
      applyRelation .eq a b = .ok true ∧ applyRelation .eq b c = .ok true ∧
      applyRelation .eq a c = .ok false := by
  have hnumber : (double twoPow53).number? = some twoPow53.value := by decide +kernel
  refine ⟨⟨int 9007199254740993, double twoPow53, _, _, rfl, hnumber, ?_, by decide +kernel⟩,
    ⟨int 9007199254740993, double twoPow53, int 9007199254740992, rfl, by rw [hnumber]; rfl, rfl,
      by decide +kernel, by decide +kernel, by decide +kernel⟩⟩
  rw [value_twoPow53, Extended.cmp_ofRat_intCast]
  decide

end EmbeddedExpr.Eval
