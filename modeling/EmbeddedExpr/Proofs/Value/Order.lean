import EmbeddedExpr.Proofs.Time.Fields
import EmbeddedExpr.Proofs.Value.Entries
import EmbeddedExpr.Proofs.Value.Symmetry

/-!
# The order of values

The relational operators decide equality and order on their own: numbers are compared as numbers
for both, texts and bytes by their characters, timestamps and durations by the words they are kept
in.  That the two fit together comes from the orders: each is turned around by exchanging the sides
(`order_swap`) and finds only those equal that are (`order_cases`).  What is left are kinds without
a common order, which every relation but equality refuses, and NaNs, for which every relation but
inequality is false.
-/

namespace EmbeddedExpr

/-! ### The order of bytes -/

theorem compareBytes_eq_compare (a b : List UInt8) : compareBytes a b = compare a b := by
  induction a generalizing b with
  | nil => cases b <;> rfl
  | cons c cs ih =>
      cases b with
      | nil => rfl
      | cons d ds => rw [compareBytes, ih, List.compare_cons_cons]

instance : Std.OrientedCmp compareBytes where
  eq_swap {a b} := by
    rw [compareBytes_eq_compare, compareBytes_eq_compare]
    exact Std.OrientedOrd.eq_swap

instance : Std.LawfulEqCmp compareBytes where
  compare_self {a} := Std.ReflCmp.compare_self
  eq_of_compare {a b} h := by
    rw [compareBytes_eq_compare] at h
    exact Std.LawfulEqCmp.eq_of_compare h

/-! ### The orders of times -/

instance : Std.OrientedOrd Time.Timestamp where
  eq_swap {t u} := by
    change Ordering.then _ _ = (Ordering.then _ _).swap
    rw [Ordering.swap_then, ← Std.OrientedOrd.eq_swap, ← Std.OrientedOrd.eq_swap]

instance : Std.OrientedOrd Time.Duration where
  eq_swap {a b} := (Std.OrientedOrd.eq_swap : compare a.total b.total = _)

/-- The words that durations are kept in tell them apart. -/
theorem Time.Duration.fields_inj {d e : Time.Duration} : d.fields = e.fields ↔ d = e := by
  rw [Fields.eq_fields_iff, and_iff_right d.normalized_fields, Fields.exact_fields,
    ← Int.compare_eq_eq, ← compare_eq_compare_total, compare_eq_eq_iff]

/-! ### Kinds with an order -/

namespace Kind

def isNumeric : Kind → Bool
  | int | uint | double => true
  | _ => false

/-- The kinds other than numbers that have an order. -/
def isOrdered : Kind → Bool
  | bool | text | bytes | timestamp | duration => true
  | _ => false

/-- Whether values of two kinds have a common order: numbers of any kinds, and values of one
other kind that has an order. -/
def comparable (k l : Kind) : Bool := k.isNumeric && l.isNumeric || k == l && k.isOrdered

end Kind

theorem beq_eq_of_cmp {α : Type} [BEq α] [LawfulBEq α] {cmp : α → α → Ordering}
    [Std.LawfulEqCmp cmp] (x y : α) : (x == y) = (cmp x y == .eq) := by
  rw [Bool.eq_iff_iff, beq_iff_eq, beq_iff_eq, Std.LawfulEqCmp.compare_eq_iff_eq]

namespace Value

open Time (Timestamp Duration)

/-- Whether a value is a NaN. -/
def isNaN : Value → Bool
  | double x => x.isNaN
  | _ => false

variable {a b : Value}

theorem order_of_numericOrder {c : Comparison} (h : numericOrder a b = c) (hc : c ≠ .incomparable) :
    order a b = c := by
  unfold order
  rw [h]
  cases c <;> first | exact absurd rfl hc | rfl

/-- Exchanging the sides turns the order around. -/
theorem order_swap (a b : Value) : order a b = (order b a).swap := by
  unfold order
  rw [numericOrder_swap a b]
  cases numericOrder b a with
  | unordered => rfl
  | ordered o => rfl
  | incomparable =>
      cases a <;> cases b <;> first
        | rfl
        | exact congrArg Comparison.ordered Std.OrientedOrd.eq_swap
        | exact congrArg Comparison.ordered Std.OrientedCmp.eq_swap

/-! ### Which values are ordered -/

theorem numericOrder_eq_ordered_iff {o : Ordering} :
    numericOrder a b = .ordered o ↔ numericOrder b a = .ordered o.swap := by
  rw [numericOrder_swap]
  cases numericOrder b a with
  | ordered p => cases o <;> cases p <;> simp [Comparison.swap]
  | _ => simp [Comparison.swap]

theorem exists_number? (hkind : a.kind.isNumeric = true) (hnan : a.isNaN = false) :
    ∃ p, a.number? = some p := by
  cases a <;> try cases hkind
  case int i => exact ⟨_, rfl⟩
  case uint u => exact ⟨_, rfl⟩
  case double x => exact ⟨_, number?_double_eq_some_iff.mpr ⟨hnan, rfl⟩⟩

/-- Numbers have an order unless one of them is a NaN. -/
theorem numericOrder_of_isNumeric (ha : a.kind.isNumeric = true) (hb : b.kind.isNumeric = true) :
    ((a.isNaN = true ∨ b.isNaN = true) ∧ numericOrder a b = .unordered) ∨
      (a.isNaN = false ∧ b.isNaN = false) ∧ ∃ o, numericOrder a b = .ordered o := by
  by_cases hnan : a.isNaN = true ∨ b.isNaN = true
  · refine .inl ⟨hnan, ?_⟩
    cases a <;> first | cases ha; done | skip
    all_goals
      cases b <;> first | cases hb; done | skip
      all_goals
        simp_all [isNaN, numericOrder, Double.order?, Comparison.ofOrder?]
  · simp only [not_or, Bool.not_eq_true] at hnan
    obtain ⟨p, hp⟩ := exists_number? ha hnan.1
    obtain ⟨q, hq⟩ := exists_number? hb hnan.2
    exact .inr ⟨hnan, _, numericOrder_eq hp hq⟩

theorem equals_of_isNumeric (ha : a.kind.isNumeric = true) (hb : b.kind.isNumeric = true) :
    equals a b = (numericOrder a b).isEqual := by
  cases a <;> first | cases ha; done | skip
  all_goals
    cases b <;> first | cases hb; done | skip
    all_goals simp only [equals]

theorem not_nan_of_isOrdered (hkind : a.kind = b.kind) (h : a.kind.isOrdered = true) :
    a.isNaN = false ∧ b.isNaN = false := by
  cases a <;> try cases h
  all_goals
    cases b <;> try cases hkind
    all_goals exact ⟨rfl, rfl⟩

/-- Other values of one kind are ordered by their own order, which finds no two of them equal
that are not. -/
theorem order_of_isOrdered (hkind : a.kind = b.kind) (h : a.kind.isOrdered = true) :
    ∃ o, order a b = .ordered o ∧ equals a b = (o == .eq) := by
  cases a <;> try cases h
  all_goals
    cases b <;> try cases hkind
  case bool x y => exact ⟨compare x y, rfl, beq_eq_of_cmp x y⟩
  case text s t => exact ⟨compareText s t, rfl, beq_eq_of_cmp s t⟩
  case bytes s t => exact ⟨compareBytes s t, rfl, beq_eq_of_cmp s t⟩
  case timestamp t u => exact ⟨compare t u, rfl, Eval.decide_eq_beq Timestamp.compare_eq_eq_iff⟩
  case duration d e => exact ⟨compare d e, rfl, Eval.decide_eq_beq Duration.compare_eq_eq_iff⟩

theorem order_of_not_comparable (h : a.kind.comparable b.kind = false) :
    order a b = .incomparable := by
  cases a <;> cases b <;> first | rfl | cases h

/-- Two values have no common order, or one is a NaN among numbers, or they have an order that
equality goes by. -/
theorem order_cases (a b : Value) :
    (a.kind.comparable b.kind = false ∧ order a b = .incomparable) ∨
    (a.kind.comparable b.kind = true ∧ (a.isNaN = true ∨ b.isNaN = true) ∧
      order a b = .unordered ∧ equals a b = false) ∨
    (a.kind.comparable b.kind = true ∧ (a.isNaN = false ∧ b.isNaN = false) ∧
      ∃ o, order a b = .ordered o ∧ equals a b = (o == .eq)) := by
  cases hcomparable : a.kind.comparable b.kind with
  | false => exact .inl ⟨rfl, order_of_not_comparable hcomparable⟩
  | true =>
      right
      simp only [Kind.comparable, Bool.or_eq_true, Bool.and_eq_true, beq_iff_eq] at hcomparable
      rcases hcomparable with ⟨ha, hb⟩ | ⟨hkind, h⟩
      · have hequals := equals_of_isNumeric ha hb
        rcases numericOrder_of_isNumeric ha hb with ⟨hnan, horder⟩ | ⟨hnan, o, horder⟩
        · rw [horder] at hequals
          exact .inl ⟨rfl, hnan, order_of_numericOrder horder nofun, hequals⟩
        · rw [horder, Comparison.isEqual_ordered] at hequals
          exact .inr ⟨rfl, hnan, o, order_of_numericOrder horder nofun, hequals⟩
      · exact .inr ⟨rfl, not_nan_of_isOrdered hkind h, order_of_isOrdered hkind h⟩

end Value

namespace Eval

variable {a b : Value}

/-- The relations that go by the order of values. -/
def orderRelations : List RelationOp := [.lt, .le, .gt, .ge]

theorem applyRelation_eq_applyOrder {op : RelationOp} (hop : op ∈ orderRelations) :
    applyRelation op a b = applyOrder op a b := by
  simp only [orderRelations, List.mem_cons, List.not_mem_nil, or_false] at hop
  rcases hop with rfl | rfl | rfl | rfl <;> rfl

theorem relations_of_incomparable (h : Value.order a b = .incomparable) {op : RelationOp}
    (hop : op ∈ orderRelations) :
    applyRelation op a b = .error (.noOverloadFor op.symbol [a, b]) ∧
      applyRelation op b a = .error (.noOverloadFor op.symbol [b, a]) := by
  have hswapped : Value.order b a = .incomparable := by
    rw [Value.order_swap, h]
    rfl
  constructor <;> rw [applyRelation_eq_applyOrder hop, applyOrder]
  · rw [h]
  · rw [hswapped]

theorem relations_of_unordered (h : Value.order a b = .unordered) {op : RelationOp}
    (hop : op ∈ orderRelations) : applyRelation op a b = .ok false := by
  rw [applyRelation_eq_applyOrder hop, applyOrder, h]

theorem relations_of_ordered {o : Ordering} (h : Value.order a b = .ordered o)
    (hequals : Value.equals a b = (o == .eq)) :
    ∃ below same above : Bool,
      applyRelation .lt a b = .ok below ∧ applyRelation .eq a b = .ok same ∧
      applyRelation .gt a b = .ok above ∧ [below, same, above].count true = 1 ∧
      applyRelation .le a b = .ok !above ∧ applyRelation .ge a b = .ok !below ∧
      applyRelation .gt b a = .ok below := by
  have hrelation (op : RelationOp) (hop : op ≠ .mem) :
      applyRelation op a b = .ok (satisfies op o) := applyRelation_of_order hop h hequals
  have hswapped : applyRelation .gt b a = .ok (satisfies .gt o.swap) := by
    rw [applyRelation, applyOrder, Value.order_swap, h]
    rfl
  refine ⟨_, _, _, hrelation .lt (by decide), hrelation .eq (by decide),
    hrelation .gt (by decide), ?_⟩
  rw [hrelation .le (by decide), hrelation .ge (by decide), hswapped]
  cases o <;> exact ⟨rfl, rfl, rfl, rfl⟩

/-- The relations of two values are coherent: without a common order the order relations fail
either way round; with a NaN all of them and equality are false; and otherwise just one of less,
equal and greater holds, which decides the others.  Durations are equal when the words that they
are kept in are, and the order of these words is that of durations. -/
theorem relations_coherent (a b : Value) :
    ((a.kind.comparable b.kind = false ∧ ∀ op ∈ orderRelations,
        applyRelation op a b = .error (.noOverloadFor op.symbol [a, b]) ∧
        applyRelation op b a = .error (.noOverloadFor op.symbol [b, a])) ∨
      (a.kind.comparable b.kind = true ∧ (a.isNaN = true ∨ b.isNaN = true) ∧
        applyRelation .eq a b = .ok false ∧
        ∀ op ∈ orderRelations, applyRelation op a b = .ok false) ∨
      (a.kind.comparable b.kind = true ∧ (a.isNaN = false ∧ b.isNaN = false) ∧
        ∃ below same above : Bool,
          applyRelation .lt a b = .ok below ∧ applyRelation .eq a b = .ok same ∧
          applyRelation .gt a b = .ok above ∧ [below, same, above].count true = 1 ∧
          applyRelation .le a b = .ok !above ∧ applyRelation .ge a b = .ok !below ∧
          applyRelation .gt b a = .ok below)) ∧
    ∀ d e : Time.Duration,
      applyRelation .eq (.duration d) (.duration e) = .ok (decide (d.fields = e.fields)) ∧
      d.fields.order e.fields = .ok (compare d e) := by
  refine ⟨?values, fun d e => ⟨?_, Time.Duration.Fields.order_fields d e⟩⟩
  case values =>
    rcases Value.order_cases a b with ⟨hkinds, horder⟩ | ⟨hkinds, hnan, horder, hequals⟩ |
      ⟨hkinds, hnan, o, horder, hequals⟩
    · exact .inl ⟨hkinds, fun op hop => relations_of_incomparable horder hop⟩
    · exact .inr (.inl ⟨hkinds, hnan, congrArg Except.ok hequals,
        fun op hop => relations_of_unordered horder hop⟩)
    · exact .inr (.inr ⟨hkinds, hnan, relations_of_ordered horder hequals⟩)
  rw [applyRelation, Value.equals, decide_eq_decide.mpr Time.Duration.fields_inj]

end Eval

end EmbeddedExpr
