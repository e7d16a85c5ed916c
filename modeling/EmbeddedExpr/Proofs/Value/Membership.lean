import EmbeddedExpr.Proofs.Eval.Yields
import EmbeddedExpr.Proofs.Value.Comparison
import EmbeddedExpr.Proofs.Value.Members

/-!
# Membership and iteration

A value is looked up in a map under the keys that it may be written as (`Value.keys`).  These
are the keys that it is equal to, except for those it is blurred with (`mem_keys_iff`): looking
up never rounds, whereas equality does.  So a value is in a container exactly if an iteration
over the container finds an equal item, unless a key of the container is blurred with the value.
-/

namespace EmbeddedExpr.Value

/-- The keys under which a value is looked up. -/
def keys (x : Value) : List MapKey := (MapKey.ofValue? x).toList ++ alternativeKeys x

/-! ### The keys of a number -/

theorem ofRat_intCast_inj {m n : ℤ} : Extended.ofRat m = Extended.ofRat n ↔ m = n := by
  rw [Extended.ofRat_inj, Int.cast_inj]

theorem int_mem_keys_double_iff {x : Double} {i : Int64} :
    .int i ∈ (double x).keys ↔ x.value = .ofRat i.toInt := by
  rw [← Double.isIntegral_and_truncate_iff, eq_comm (a := x.truncate), ← Number.int64?_eq_some_iff]
  cases h : x.isIntegral <;> simp [keys, MapKey.ofValue?, alternativeKeys, h]

theorem uint_mem_keys_double_iff {x : Double} {u : UInt64} :
    .uint u ∈ (double x).keys ↔ x.value = .ofRat (u.toNat : ℤ) := by
  rw [← Double.isIntegral_and_truncate_iff, eq_comm (a := x.truncate), ← Number.uint64?_eq_some_iff]
  cases h : x.isIntegral <;> simp [keys, MapKey.ofValue?, alternativeKeys, h]

/-- A number is looked up under the keys with its value. -/
theorem mem_keys_iff_of_number {x : Value} {q : Extended} (hx : x.number? = some q) {k : MapKey} :
    k ∈ x.keys ↔ k.toValue.number? = some q := by
  cases x <;> try cases hx
  case int i =>
    cases k <;> simp [keys, MapKey.ofValue?, alternativeKeys, MapKey.toValue, number?,
      ofRat_intCast_inj, Number.uint64?_eq_some_iff, Int64.toInt_inj, -Int.cast_natCast]
  case uint u =>
    cases k <;> simp [keys, MapKey.ofValue?, alternativeKeys, MapKey.toValue, number?,
      ofRat_intCast_inj, Number.int64?_eq_some_iff, UInt64.toNat_inj, -Int.cast_natCast]
  case double x =>
    obtain ⟨-, rfl⟩ := number?_double_eq_some_iff.mp hx
    cases k with
    | int i => simp [int_mem_keys_double_iff, MapKey.toValue, number?, eq_comm]
    | uint u => simp [uint_mem_keys_double_iff, MapKey.toValue, number?, eq_comm]
    | bool b => simp [keys, MapKey.ofValue?, alternativeKeys, MapKey.toValue, number?]
    | text s => simp [keys, MapKey.ofValue?, alternativeKeys, MapKey.toValue, number?]

/-! ### The keys of a value -/

/-- Numbers have one value if they are equal without being blurred. -/
theorem number?_eq_iff {a b : Value} {p q : Extended} (ha : a.number? = some p)
    (hb : b.number? = some q) : p = q ↔ equals a b = true ∧ blurred a b = false := by
  rw [equals_of_number ha hb, numericOrder_eq ha hb]
  cases hblurred : blurred a b with
  | false =>
      rw [if_neg nofun, ← cmp_eq_eq_iff]
      cases cmp p q <;> simp [Comparison.isEqual]
  | true => simpa using ne_of_blurred ha hb hblurred

/-- A key that is no number is equal to no number. -/
theorem equals_number_of_key {k : MapKey} (hk : k.toValue.number? = none) {x : Value}
    {q : Extended} (hx : x.number? = some q) : equals k.toValue x = false := by
  cases k with
  | int i => cases hk
  | uint u => cases hk
  | bool b =>
      cases x <;>
        simp [MapKey.toValue, equals, numericOrder, Comparison.isEqual, number?] at hx ⊢
  | text s =>
      cases x <;>
        simp [MapKey.toValue, equals, numericOrder, Comparison.isEqual, number?] at hx ⊢

theorem equals_of_nan {a : Value} {x : Double} (hnan : x.isNaN = true) :
    equals a (double x) = false := by
  cases a <;> simp [equals, numericOrder, Double.order?, hnan, Comparison.ofOrder?,
    Comparison.isEqual]

theorem isNaN_of_number? {x : Double} (h : (double x).number? = none) : x.isNaN = true := by
  by_contra hnumber
  rw [number?, if_neg hnumber] at h
  cases h

theorem keys_of_nan {x : Double} (hnan : x.isNaN = true) : (double x).keys = [] := by
  have hinfinite : x.isFinite = false := by
    simp only [Double.isNaN, Bool.and_eq_true, beq_iff_eq] at hnan
    simp [Double.isFinite, hnan.1]
  have hintegral : x.isIntegral = false := by rw [Double.isIntegral, hinfinite, Bool.false_and]
  rw [keys, alternativeKeys, hintegral]
  rfl

/-- A value that is no number is looked up as it is, if at all. -/
theorem mem_keys_iff_of_scalar {x : Value} (hx : x.number? = none) {k : MapKey} :
    k ∈ x.keys ↔ equals k.toValue x = true ∧ blurred k.toValue x = false := by
  cases x with
  | int i => cases hx
  | uint u => cases hx
  | double x =>
      have hnan := isNaN_of_number? hx
      simp [keys_of_nan hnan, equals_of_nan hnan]
  | _ => cases k <;> simp [keys, MapKey.ofValue?, alternativeKeys, MapKey.toValue, equals,
      numericOrder, blurred, Comparison.isEqual]

/-- A value is looked up under the keys that it is equal to and not blurred with. -/
theorem mem_keys_iff {x : Value} {k : MapKey} :
    k ∈ x.keys ↔ equals k.toValue x = true ∧ blurred k.toValue x = false := by
  rcases hx : x.number? with _ | q
  · exact mem_keys_iff_of_scalar hx
  · rw [mem_keys_iff_of_number hx]
    rcases hk : k.toValue.number? with _ | p
    · simp [equals_number_of_key hk hx]
    · rw [Option.some.injEq, number?_eq_iff hk hx]

/-! ### Looking up -/

theorem lookup_isSome_iff_mem_keys {entries : List (MapKey × Value)} {x : Value} :
    (lookup entries x).isSome = true ↔ ∃ k ∈ x.keys, k ∈ entries.map Prod.fst := by
  simp only [lookup, keys, List.findSome?_isSome_iff, Entries.get?_isSome_iff]

/-- A value is found in a map if it is equal to one of the keys, other than by being blurred. -/
theorem lookup_isSome_iff {entries : List (MapKey × Value)} {x : Value} :
    (lookup entries x).isSome = true ↔
      ∃ k ∈ entries.map Prod.fst, equals k.toValue x = true ∧ blurred k.toValue x = false := by
  rw [lookup_isSome_iff_mem_keys]
  simp only [mem_keys_iff, and_comm]

/-- Whether a container is a map with a key that is blurred with a value. -/
def blursKey (c x : Value) : Bool :=
  match c with
  | map entries => entries.any fun entry => blurred entry.1.toValue x
  | _ => false

/-- A value is in a container if it is equal to an element, unless it is blurred with a key. -/
theorem contains?_eq {c x : Value} {elements : List Value} (hc : c.elements? = some elements)
    (hclear : blursKey c x = false) :
    contains? c x = some (elements.any fun element => equals element x) := by
  cases c <;> try cases hc
  case list => rfl
  case map entries =>
    rw [contains?, Option.some.injEq, Bool.eq_iff_iff, lookup_isSome_iff]
    simp only [blursKey, List.any_eq_false, Bool.not_eq_true] at hclear
    simp only [List.any_map, List.any_eq_true, List.mem_map, Function.comp_apply]
    constructor
    · rintro ⟨-, ⟨entry, hmem, rfl⟩, hequal, -⟩
      exact ⟨entry, hmem, hequal⟩
    · rintro ⟨entry, hmem, hequal⟩
      exact ⟨entry.1, ⟨entry, hmem, rfl⟩, hequal, hclear entry hmem⟩

end EmbeddedExpr.Value

namespace EmbeddedExpr.Eval

open Value
open Run (Yields)

variable {c x : Value}

/-- An index into a map finds a value if the map contains the index. -/
theorem applyIndex_map_ok_iff {entries : List (MapKey × Value)} :
    contains? (map entries) x = some true ↔ ∃ v, applyIndex (map entries) x = .ok v := by
  rw [contains?, Option.some.injEq]
  cases x with
  | bool _ | int _ | uint _ | double _ | text _ =>
      cases hfound : lookup entries _ <;> simp [applyIndex, MapKey.ofValue?, hfound]
  | null | bytes _ | list _ | map _ | timestamp _ | duration _ | function _ _ =>
      simp [applyIndex, MapKey.ofValue?, lookup, alternativeKeys]

/-! ### Evaluation -/

section

variable {bindings : Bindings} {limits : Limits} {cname xname : String} {s t u v w : Span}

theorem evaluate_mem (hdepth : 1 < limits.maxDepth) (hc : resolve bindings [] cname = .ok c)
    (hx : resolve bindings [] xname = .ok x) {b : Bool} (h : contains? c x = some b) :
    evaluate (.relation s .mem (.ident t xname) (.ident u cname)) bindings limits =
      .ok (.bool b) := by
  apply evaluate_of_yields
  rw [eval]
  refine .nested (by exact Nat.lt_of_succ_lt hdepth) ?_
  refine .bind (eval_ident_yields hdepth hx) (.bind (eval_ident_yields hdepth hc) ?_)
  refine .bind (.lift ?_) (.pure _)
  rw [applyRelation, h]

theorem evaluate_exists (hdepth : 2 < limits.maxDepth) (hfree : limits.maxIterations = none)
    (hc : resolve bindings [] cname = .ok c) (hx : resolve bindings [] xname = .ok x)
    {var : String} (hvar : var ≠ xname) {elements : List Value}
    (h : c.elements? = some elements) :
    evaluate (.iterate s .exists (.ident t cname) var none
      (.relation u .eq (.ident v var) (.ident w xname))) bindings limits =
        .ok (.bool (elements.any fun element => equals element x)) := by
  apply evaluate_of_yields
  rw [eval]
  refine .nested (by exact Nat.lt_trans Nat.two_pos hdepth) ?_
  have hrange : (rangeItems .exists t c).Yields elements := by
    cases c <;> try cases h
    all_goals exact .pure _
  refine .bind (eval_ident_yields (Nat.lt_of_succ_lt hdepth) hc) (.bind hrange ?_)
  have htest (item : Value) :
      (do
        let value ← eval ⟨bindings, limits⟩ [(var, item)] 1
          (.relation u .eq (.ident v var) (.ident w xname))
        asBool IterationKind.exists.name u value).Yields (equals item x) := by
    have hxitem : resolve bindings [(var, item)] xname = .ok x := by
      rw [resolve_cons_of_ne _ _ hvar, hx]
    refine .bind (a := .bool (equals item x)) ?_ (.pure _)
    rw [eval]
    refine .nested (Nat.lt_of_succ_lt hdepth) ?_
    refine .bind (eval_ident_yields hdepth (resolve_cons_self _ _ _ _)) ?_
    exact .bind (eval_ident_yields hdepth hxitem) (.bind (.lift rfl) (.pure _))
  have htick : (Run.tick limits u).Yields () := .tick hfree
  have hany := anyDecisive_yields htick true fun item (_ : item ∈ elements) => htest item
  refine .bind hany ?_
  have hanswer : (if elements.any (fun item => equals item x == true) then true else !true) =
      elements.any fun item => equals item x := by
    simp only [beq_true]
    cases elements.any fun item => equals item x <;> rfl
  rw [hanswer]
  exact .pure _

end

/-- Whether a value is in a container is whether an iteration over the container finds an equal
item, unless the container is a map with a key that is blurred with the value.  A value is in a
map exactly if the map has something at this index. -/
theorem mem_agrees_with_exists_unless_blurred (c x : Value) :
    (∀ elements, c.elements? = some elements → blursKey c x = false →
      contains? c x = some (elements.any fun element => equals element x) ∧
      ∀ (bindings : Bindings) (limits : Limits) (cname xname var : String)
        (s s' t t' u u' v w : Span), 2 < limits.maxDepth → limits.maxIterations = none →
        var ≠ xname → resolve bindings [] cname = .ok c → resolve bindings [] xname = .ok x →
        evaluate (.relation s .mem (.ident t xname) (.ident u cname)) bindings limits =
          evaluate (.iterate s' .exists (.ident t' cname) var none
            (.relation u' .eq (.ident v var) (.ident w xname))) bindings limits) ∧
    ∀ entries, c = map entries →
      (contains? c x = some true ↔ ∃ v, applyIndex c x = .ok v) := by
  refine ⟨fun elements hc hclear => ⟨contains?_eq hc hclear, ?_⟩,
    fun entries hmap => hmap ▸ applyIndex_map_ok_iff⟩
  intro bindings limits cname xname var s s' t t' u u' v w hdepth hfree hvar hresolvec hresolvex
  rw [evaluate_mem (Nat.lt_of_succ_lt hdepth) hresolvec hresolvex (contains?_eq hc hclear),
    evaluate_exists hdepth hfree hresolvec hresolvex hvar hc]

/-- The unsigned `1` is found under the key `1` of a map, whichever way it is looked for. -/
theorem mem_agrees_with_exists_uint :
    contains? (map [(.int 1, .null)]) (uint 1) = some true ∧
      (∃ v, applyIndex (map [(.int 1, .null)]) (uint 1) = .ok v) ∧
      evaluate (.relation ⟨0, 6⟩ .mem (.ident ⟨0, 1⟩ "x") (.ident ⟨5, 6⟩ "c"))
          ⟨[("c", map [(.int 1, .null)]), ("x", uint 1)], []⟩ .default =
        evaluate (.iterate ⟨0, 19⟩ .exists (.ident ⟨0, 1⟩ "c") "k" none
          (.relation ⟨12, 18⟩ .eq (.ident ⟨12, 13⟩ "k") (.ident ⟨17, 18⟩ "x")))
          ⟨[("c", map [(.int 1, .null)]), ("x", uint 1)], []⟩ .default := by
  obtain ⟨hagree, hindex⟩ :=
    mem_agrees_with_exists_unless_blurred (map [(.int 1, .null)]) (uint 1)
  obtain ⟨hcontains, hevaluate⟩ := hagree [int 1] rfl (by decide +kernel)
  have hmem : contains? (map [(.int 1, .null)]) (uint 1) = some true := by
    rw [hcontains]
    decide +kernel
  exact ⟨hmem, (hindex _ rfl).mp hmem,
    hevaluate _ _ _ _ _ _ _ _ _ _ _ _ _ (by decide) rfl (by decide) rfl rfl⟩

/-- The double `2 ^ 53` is not in a map with the next integer as its key, though an iteration
over the map finds this key equal to it. -/
theorem mem_disagrees_with_exists :
    ∃ c x elements, c.elements? = some elements ∧ contains? c x = some false ∧
      (elements.any fun element => equals element x) = true ∧
      evaluate (.relation ⟨0, 6⟩ .mem (.ident ⟨0, 1⟩ "x") (.ident ⟨5, 6⟩ "c"))
          ⟨[("c", c), ("x", x)], []⟩ .default = .ok (.bool false) ∧
      evaluate (.iterate ⟨0, 19⟩ .exists (.ident ⟨0, 1⟩ "c") "k" none
          (.relation ⟨12, 18⟩ .eq (.ident ⟨12, 13⟩ "k") (.ident ⟨17, 18⟩ "x")))
          ⟨[("c", c), ("x", x)], []⟩ .default = .ok (.bool true) := by
  have hcontains : contains? (map [(.int 9007199254740993, .null)]) (double twoPow53) =
      some false := by decide +kernel
  have hequal : ([int 9007199254740993].any fun element => equals element (double twoPow53)) =
      true := by decide +kernel
  have helements : elements? (map [(.int 9007199254740993, .null)]) =
      some [int 9007199254740993] := rfl
  refine ⟨map [(.int 9007199254740993, .null)], double twoPow53, _, helements, hcontains, hequal,
    evaluate_mem (by decide) rfl rfl hcontains, ?_⟩
  rw [evaluate_exists (by decide) rfl rfl rfl (by decide) helements, hequal]

end EmbeddedExpr.Eval
