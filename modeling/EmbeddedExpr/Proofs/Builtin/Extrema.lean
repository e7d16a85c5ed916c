import EmbeddedExpr.Builtin.Math
import EmbeddedExpr.Proofs.Eval.Arithmetic
import EmbeddedExpr.Proofs.Eval.Preservation
import EmbeddedExpr.Proofs.Value.Order

/-!
# The least and the greatest number

Numbers are gone through from the left, and a number replaces the best one so far if it comes
before it.  No earlier number comes before the new best one, since less is transitive
(`numericOrder_lt_trans`).  Equality is not transitive where an integer and a double are equal only
by rounding; but rounding keeps the order of integers, so that a number is less than another just
if it is rounded to less, or both are integers that are rounded to the same
(`numericOrder_eq_lt_iff`).

A NaN comes before no number and no number before it.  So a NaN replaces nothing and is replaced by
nothing: it is left out, unless it comes first, and then it is the extremum (`extrema_select`).
-/

namespace EmbeddedExpr

namespace Value

open Builtin (asDouble?)

variable {a b c : Value} {x y z : Double} {m n : ℤ} {keep : Ordering}

/-! ### Numbers in their order -/

/-- A value is a number other than NaN, and this is the double that it is rounded to. -/
def RoundsTo (v : Value) (x : Double) : Prop := asDouble? v = some x ∧ x.isNaN = false

theorem natAbs_lt_of_integer? (h : a.integer? = some n) : n.natAbs < 0x20000000000000000 := by
  cases a <;> cases h
  · exact natAbs_toInt_lt _
  · exact natAbs_toNat_lt _

theorem asDouble?_of_integer? (h : a.integer? = some n) : asDouble? a = some (Double.ofInt n) := by
  cases a <;> cases h <;> rfl

/-- Integers of both kinds are compared as they are. -/
theorem numericOrder_of_integers (ha : a.integer? = some m) (hb : b.integer? = some n) :
    numericOrder a b = .ordered (compare m n) := by
  cases a <;> try cases ha
  all_goals
    cases b <;> try cases hb
  case uint.refl.uint.refl u v =>
    rw [numericOrder, ← cmp_eq_compare, ← cmp_eq_compare]
    exact congrArg Comparison.ordered (StrictMono.cmp_map_eq Nat.strictMono_cast _ _).symm
  all_goals rfl

/-- Any other numbers are compared as they are rounded. -/
theorem numericOrder_of_double (h : a.integer? = none ∨ b.integer? = none) (ha : RoundsTo a x)
    (hb : RoundsTo b y) : numericOrder a b = .ordered (compare x.scaled y.scaled) := by
  obtain ⟨ha, hx⟩ := ha
  obtain ⟨hb, hy⟩ := hb
  have horder : Comparison.ofOrder? (Double.order? x y) =
      .ordered (compare x.scaled y.scaled) := by
    rw [Double.order?, hx, hy]
    rfl
  rw [← horder]
  cases a <;> cases ha <;> cases b <;> cases hb <;> first | rfl | cases h <;> contradiction

/-- A number is less than another if it is rounded to less, or if both are integers that rounding
makes equal. -/
theorem numericOrder_eq_lt_iff (ha : RoundsTo a x) (hb : RoundsTo b y) :
    numericOrder a b = .ordered .lt ↔ x.scaled < y.scaled ∨
      x.scaled = y.scaled ∧ ∃ m n, a.integer? = some m ∧ b.integer? = some n ∧ m < n := by
  cases hm : a.integer? with
  | none =>
      rw [numericOrder_of_double (.inl hm) ha hb, Comparison.ordered.injEq, Int.compare_eq_lt]
      simp
  | some m =>
      cases hn : b.integer? with
      | none =>
          rw [numericOrder_of_double (.inr hn) ha hb, Comparison.ordered.injEq, Int.compare_eq_lt]
          simp
      | some n =>
          obtain rfl := Option.some.inj ((asDouble?_of_integer? hm).symm.trans ha.1)
          obtain rfl := Option.some.inj ((asDouble?_of_integer? hn).symm.trans hb.1)
          have hup : m ≤ n → _ := Double.scaled_ofInt_mono (natAbs_lt_of_integer? hm)
            (natAbs_lt_of_integer? hn)
          have hdown : n ≤ m → _ := Double.scaled_ofInt_mono (natAbs_lt_of_integer? hn)
            (natAbs_lt_of_integer? hm)
          rw [numericOrder_of_integers hm hn, Comparison.ordered.injEq, Int.compare_eq_lt]
          simp only [Option.some.injEq, exists_and_left, exists_eq_left']
          omega

theorem exists_roundsTo (hkind : a.kind.isNumeric = true) (hnan : a.isNaN = false) :
    ∃ x, RoundsTo a x := by
  cases a <;> try cases hkind
  case int i =>
    exact ⟨_, rfl, Double.isNaN_of_finite (Double.isFinite_ofInt (natAbs_toInt_lt i))⟩
  case uint u =>
    exact ⟨_, rfl, Double.isNaN_of_finite (Double.isFinite_ofInt (natAbs_toNat_lt u))⟩
  case double x => exact ⟨x, rfl, hnan⟩

/-- Numbers that have an order are not NaN. -/
theorem roundsTo_of_ordered {o : Ordering} (h : numericOrder a b = .ordered o) :
    (∃ x, RoundsTo a x) ∧ ∃ y, RoundsTo b y := by
  have hnumeric : a.kind.isNumeric = true ∧ b.kind.isNumeric = true := by
    cases a <;> cases b <;> first | exact ⟨rfl, rfl⟩ | cases h
  rcases numericOrder_of_isNumeric hnumeric.1 hnumeric.2 with ⟨-, hnan⟩ | ⟨hnan, -⟩
  · rw [h] at hnan
    cases hnan
  · exact ⟨exists_roundsTo hnumeric.1 hnan.1, exists_roundsTo hnumeric.2 hnan.2⟩

/-- Less is transitive on numbers of all kinds, although equality is not. -/
theorem numericOrder_lt_trans (hab : numericOrder a b = .ordered .lt)
    (hbc : numericOrder b c = .ordered .lt) : numericOrder a c = .ordered .lt := by
  obtain ⟨⟨x, hx⟩, y, hy⟩ := roundsTo_of_ordered hab
  obtain ⟨-, z, hz⟩ := roundsTo_of_ordered hbc
  rw [numericOrder_eq_lt_iff hx hy] at hab
  rw [numericOrder_eq_lt_iff hy hz] at hbc
  rw [numericOrder_eq_lt_iff hx hz]
  rcases hab with hab | ⟨hab, k, m, hk, hm, hkm⟩
  · rcases hbc with hbc | ⟨hbc, -⟩
    · exact .inl (hab.trans hbc)
    · exact .inl (hbc ▸ hab)
  · rcases hbc with hbc | ⟨hbc, m', n, hm', hn, hmn⟩
    · exact .inl (hab ▸ hbc)
    · obtain rfl := Option.some.inj (hm.symm.trans hm')
      exact .inr ⟨hab.trans hbc, k, n, hk, hn, hkm.trans hmn⟩

theorem numericOrder_trans (hkeep : keep ≠ .eq) (hab : numericOrder a b = .ordered keep)
    (hbc : numericOrder b c = .ordered keep) : numericOrder a c = .ordered keep := by
  cases keep with
  | lt => exact numericOrder_lt_trans hab hbc
  | eq => exact absurd rfl hkeep
  | gt =>
      rw [numericOrder_eq_ordered_iff] at hab hbc ⊢
      exact numericOrder_lt_trans hbc hab

theorem numericOrder_self_ne (hkeep : keep ≠ .eq) : numericOrder a a ≠ .ordered keep := by
  intro h
  have hswapped := numericOrder_eq_ordered_iff.mp h
  rw [h] at hswapped
  cases keep <;> cases hswapped
  exact hkeep rfl

end Value

namespace Builtin

open Value (numericOrder int double)

variable {keep : Ordering}

/-! ### One step -/

/-- The better of two numbers is one of them, and no number that did not come before the best one
comes before it.  It is a NaN just if the best one was. -/
structure Improves (keep : Ordering) (best candidate next : Value) : Prop where
  eq_or_eq : next = best ∨ next = candidate
  isNaN_eq : next.isNaN = best.isNaN
  candidate_not_before : numericOrder candidate next ≠ .ordered keep
  not_before : ∀ v, numericOrder v best ≠ .ordered keep → numericOrder v next ≠ .ordered keep

theorem exists_better? (hkeep : keep ≠ .eq) {best candidate : Value}
    (hbest : best.kind.isNumeric = true) (hcandidate : candidate.kind.isNumeric = true) :
    ∃ next, better? keep best candidate = some next ∧ Improves keep best candidate next := by
  unfold better?
  rcases Value.numericOrder_of_isNumeric hcandidate hbest with ⟨-, h⟩ | ⟨hnan, o, h⟩ <;> rw [h]
  · exact ⟨best, rfl, .inl rfl, rfl, by rw [h]; nofun, fun _ => id⟩
  · by_cases ho : o = keep
    · subst ho
      refine ⟨candidate, by simp, .inr rfl, hnan.1.trans hnan.2.symm,
        Value.numericOrder_self_ne hkeep, ?_⟩
      -- what comes before the candidate comes before the best one
      exact fun v hv hbefore => hv (Value.numericOrder_trans hkeep hbefore h)
    · refine ⟨best, by simp [ho], .inl rfl, rfl, ?_, fun _ => id⟩
      rw [h]
      exact fun heq => ho (Comparison.ordered.inj heq)

theorem better?_eq_none {best candidate : Value} (h : candidate.kind.isNumeric = false) :
    better? keep best candidate = none := by
  unfold better?
  cases candidate <;> first | rfl | cases h

/-! ### A run -/

theorem exists_foldlM_better? (hkeep : keep ≠ .eq) {first : Value} {rest : List Value}
    (hfirst : first.kind.isNumeric = true) (hrest : ∀ v ∈ rest, v.kind.isNumeric = true) :
    ∃ best, rest.foldlM (better? keep) first = some best ∧ best.isNaN = first.isNaN ∧
      (∀ v, numericOrder v first ≠ .ordered keep → numericOrder v best ≠ .ordered keep) ∧
      ∀ v ∈ rest, numericOrder v best ≠ .ordered keep := by
  induction rest generalizing first with
  | nil => exact ⟨first, rfl, rfl, fun _ => id, nofun⟩
  | cons candidate rest ih =>
      rw [List.forall_mem_cons] at hrest
      obtain ⟨next, hnext, himproves⟩ := exists_better? hkeep hfirst hrest.1
      have hnumeric : next.kind.isNumeric = true := by
        rcases himproves.eq_or_eq with rfl | rfl
        · exact hfirst
        · exact hrest.1
      obtain ⟨best, hbest, hnan, hbefore, hlater⟩ := ih hnumeric hrest.2
      refine ⟨best, ?_, hnan.trans himproves.isNaN_eq, ?_, ?_⟩
      · rw [List.foldlM_cons, hnext]
        exact hbest
      · exact fun v hv => hbefore v (himproves.not_before v hv)
      · rw [List.forall_mem_cons]
        exact ⟨hbefore _ himproves.candidate_not_before, hlater⟩

theorem foldlM_better?_eq_none {first : Value} {rest : List Value}
    (h : ∃ v ∈ rest, v.kind.isNumeric = false) : rest.foldlM (better? keep) first = none := by
  induction rest generalizing first with
  | nil => simp at h
  | cons candidate rest ih =>
      rw [List.foldlM_cons]
      rcases List.exists_mem_cons_iff .. |>.mp h with hcandidate | hrest
      · rw [better?_eq_none hcandidate]
        rfl
      · cases better? keep first candidate with
        | none => rfl
        | some next => exact ih hrest

/-! ### Selections -/

/-- A value is selected from a sequence of numbers: it is one of them, none comes before it, and it
is a NaN just if the first one is. -/
structure Selected (keep : Ordering) (first : Value) (rest : List Value) (best : Value) : Prop where
  mem : best ∈ first :: rest
  isNaN_eq : best.isNaN = first.isNaN
  not_before : ∀ v ∈ first :: rest, numericOrder v best ≠ .ordered keep

theorem isNumeric_eq (v : Value) : isNumeric v = v.kind.isNumeric := by
  cases hkind : v.kind.isNumeric with
  | false => cases v <;> first | rfl | cases hkind
  | true =>
      unfold isNumeric
      rcases Value.numericOrder_of_isNumeric hkind hkind with ⟨-, h⟩ | ⟨-, o, h⟩ <;> rw [h]

theorem extremum_selected (name : String) (hkeep : keep ≠ .eq) {first : Value} {rest : List Value}
    (hnumeric : ∀ v ∈ first :: rest, v.kind.isNumeric = true) :
    ∃ best, Selected keep first rest best ∧ extremum name keep (first :: rest) = .ok best ∧
      extremum name keep [.list (first :: rest)] = .ok best := by
  have hfirst := hnumeric first List.mem_cons_self
  obtain ⟨best, hbest, hnan, hbefore, hlater⟩ := exists_foldlM_better? hkeep hfirst
    fun v hv => hnumeric v (List.mem_cons_of_mem _ hv)
  have hselected : Selected keep first rest best :=
    ⟨mem_of_foldlM_better? hbest, hnan,
      List.forall_mem_cons.mpr ⟨hbefore first (Value.numericOrder_self_ne hkeep), hlater⟩⟩
  refine ⟨best, hselected, ?_, ?_⟩
  · unfold extremum
    cases first <;> try cases hfirst
    all_goals simp [isNumeric_eq, Value.kind, Kind.isNumeric, hbest]
  · simp [extremum, isNumeric_eq, hfirst, hbest]

theorem extremum_mismatch (name : String) {first : Value} {rest : List Value}
    (h : ∃ v ∈ first :: rest, v.kind.isNumeric = false) :
    extremum name keep [.list (first :: rest)] = mismatch name [.list (first :: rest)] := by
  simp only [extremum, isNumeric_eq]
  rcases List.exists_mem_cons_iff .. |>.mp h with hfirst | hrest
  · rw [hfirst]
    rfl
  · rw [foldlM_better?_eq_none hrest]
    split <;> rfl

/-- Two numbers are equal, or both are NaN. -/
def Same (a b : Value) : Prop :=
  numericOrder a b = .ordered .eq ∨ a.isNaN = true ∧ b.isNaN = true

/-- What is selected from the same numbers in two orders is the same, unless a NaN comes first in
only one of them. -/
theorem Selected.same_iff {first first' best best' : Value} {rest rest' : List Value}
    (hkeep : keep ≠ .eq) (h : Selected keep first rest best)
    (h' : Selected keep first' rest' best') (hperm : (first :: rest).Perm (first' :: rest'))
    (hnumeric : ∀ v ∈ first :: rest, v.kind.isNumeric = true) :
    Same best best' ↔ first.isNaN = first'.isNaN := by
  have hmem : best' ∈ first :: rest := hperm.mem_iff.mpr h'.mem
  rw [← h.isNaN_eq, ← h'.isNaN_eq]
  rcases Value.numericOrder_of_isNumeric (hnumeric best h.mem) (hnumeric best' hmem) with
    ⟨hnan, horder⟩ | ⟨⟨hleft, hright⟩, o, horder⟩
  · have hunequal : numericOrder best best' ≠ .ordered .eq := by rw [horder]; nofun
    rw [Same, or_iff_right hunequal]
    cases hleft : best.isNaN <;> cases hright : best'.isNaN <;> simp_all
  · have hbefore : numericOrder best best' ≠ .ordered keep :=
      h'.not_before best (hperm.mem_iff.mp h.mem)
    have hafter : numericOrder best' best ≠ .ordered keep := h.not_before best' hmem
    have hequal : o = .eq := by
      rw [ne_eq, Value.numericOrder_eq_ordered_iff, horder, Comparison.ordered.injEq] at hafter
      rw [horder, ne_eq, Comparison.ordered.injEq] at hbefore
      cases o <;> cases keep <;> simp_all
    rw [hleft, hright, Same, horder, hequal]
    simp

/-- A function selects from one or more values, given one by one or as a list. -/
structure Selects (f : Body) (name : String) (keep : Ordering) (first : Value)
    (rest : List Value) : Prop where
  /-- Of numbers one is selected, the same for a list of them. -/
  selected : (∀ v ∈ first :: rest, v.kind.isNumeric = true) →
    ∃ best, Selected keep first rest best ∧ f (first :: rest) = .ok best ∧
      f [.list (first :: rest)] = .ok best
  /-- The order of the numbers does not matter, unless it decides whether a NaN comes first. -/
  same_iff : (∀ v ∈ first :: rest, v.kind.isNumeric = true) →
    ∀ first' rest', (first :: rest).Perm (first' :: rest') →
      ∃ best best', f (first :: rest) = .ok best ∧ f (first' :: rest') = .ok best' ∧
        (Same best best' ↔ first.isNaN = first'.isNaN)
  /-- A list is refused just if a value in it is no number, wherever this value is. -/
  refused_iff :
    f [.list (first :: rest)] = .error (.noOverloadFor name [.list (first :: rest)]) ↔
      ∃ v ∈ first :: rest, v.kind.isNumeric = false

theorem extremum_selects (name : String) (hkeep : keep ≠ .eq) (first : Value)
    (rest : List Value) : Selects (extremum name keep) name keep first rest where
  selected hnumeric := extremum_selected name hkeep hnumeric
  same_iff hnumeric first' rest' hperm := by
    have hnumeric' : ∀ v ∈ first' :: rest', v.kind.isNumeric = true :=
      fun v hv => hnumeric v (hperm.mem_iff.mpr hv)
    obtain ⟨best, hselected, hbest, -⟩ := extremum_selected name hkeep hnumeric
    obtain ⟨best', hselected', hbest', -⟩ := extremum_selected name hkeep hnumeric'
    exact ⟨best, best', hbest, hbest', hselected.same_iff hkeep hselected' hperm hnumeric⟩
  refused_iff := by
    refine ⟨fun hrefused => ?_, extremum_mismatch name⟩
    by_contra hnone
    have hnumeric : ∀ v ∈ first :: rest, v.kind.isNumeric = true := by
      simpa only [not_exists, not_and, Bool.not_eq_false] using hnone
    obtain ⟨best, -, -, hbest⟩ := extremum_selected name hkeep hnumeric
    rw [hbest] at hrefused
    cases hrefused

/-- The extrema of numbers of all kinds are numbers that no other is less, or greater, than, and
do not depend on the order of the numbers but for one thing: it decides whether a NaN comes first,
which is then the extremum, or is left out. -/
theorem extrema_select (first : Value) (rest : List Value) :
    Selects Builtin.min "min" .lt first rest ∧ Selects Builtin.max "max" .gt first rest := by
  have hless : Ordering.lt ≠ .eq := nofun
  have hgreater : Ordering.gt ≠ .eq := nofun
  exact ⟨extremum_selects "min" hless first rest, extremum_selects "max" hgreater first rest⟩

/-- The least of a NaN and `1` is the NaN, that of `1` and a NaN is `1`. -/
theorem min_depends_on_order :
    ∃ values values' : List Value, values.Perm values' ∧
      (∀ v ∈ values, v.kind.isNumeric = true) ∧
      ∃ best best', Builtin.min values = .ok best ∧ Builtin.min values' = .ok best' ∧
        ¬ Same best best' := by
  refine ⟨[double Double.nan, int 1], [int 1, double Double.nan], .swap .., by decide,
    double Double.nan, int 1, rfl, rfl, ?_⟩
  rintro (hequal | ⟨-, hone⟩)
  · have hunordered : numericOrder (double Double.nan) (int 1) = .unordered := by decide +kernel
    rw [hunordered] at hequal
    cases hequal
  · cases hone

end Builtin

end EmbeddedExpr
