import EmbeddedExpr.Proofs.Value.Membership

/-!
# Symmetry of equality

Numbers are equal either way round, and so are lists of such values.  A map is equal to another
of the same size if each of its entries finds an equal one, and two keys may find the same entry:
an integer and an unsigned integer that stand for one number.  A map without two such keys finds
different entries with its keys, and therefore all of them, so that the other map finds its
entries in turn (`equals_comm_of_distinct_keys`).
-/

namespace EmbeddedExpr

/-! ### What keys stand for -/

/-- What a key stands for: a number, of whichever kind, or a scalar of another kind. -/
def MapKey.meaning : MapKey → ℤ ⊕ Bool ⊕ String
  | int i => .inl i.toInt
  | uint u => .inl u.toNat
  | bool b => .inr (.inl b)
  | text s => .inr (.inr s)

namespace Comparison

/-- The outcome with the two sides exchanged. -/
def swap : Comparison → Comparison
  | ordered o => ordered o.swap
  | comparison => comparison

theorem isEqual_ordered (o : Ordering) : (ordered o).isEqual = (o == .eq) := by
  cases o <;> rfl

theorem isEqual_swap (c : Comparison) : c.swap.isEqual = c.isEqual := by
  cases c with
  | ordered o => cases o <;> rfl
  | _ => rfl

end Comparison

namespace Value

/-- A key is looked up under the keys that stand for the same. -/
theorem mem_keys_toValue_iff {j k : MapKey} : j ∈ k.toValue.keys ↔ j.meaning = k.meaning := by
  cases k <;> cases j <;>
    simp [keys, MapKey.toValue, MapKey.ofValue?, alternativeKeys, MapKey.meaning,
      Number.int64?_eq_some_iff, Number.uint64?_eq_some_iff, Int64.toInt_inj, UInt64.toNat_inj]

/-- The keys of a map stand for different things. -/
def DistinctKeys : Value → Prop
  | map entries => (entries.map fun entry => entry.1.meaning).Nodup
  | _ => True

section Lookup

variable {entries : List (MapKey × Value)} {j k : MapKey} {v : Value}

theorem mem_of_lookup_eq_some (h : lookup entries k.toValue = some v) :
    ∃ j, j.meaning = k.meaning ∧ (j, v) ∈ entries := by
  obtain ⟨j, hj, hget⟩ := List.exists_of_findSome?_eq_some h
  exact ⟨j, mem_keys_toValue_iff.mp hj, Entries.mem_of_get?_eq_some hget⟩

theorem eq_of_mem_of_meaning (hdistinct : (map entries).DistinctKeys) {w : Value}
    (hj : (j, v) ∈ entries) (hk : (k, w) ∈ entries) (h : j.meaning = k.meaning) :
    (j, v) = (k, w) :=
  List.inj_on_of_nodup_map hdistinct hj hk h

/-- A key finds the only entry whose key stands for the same. -/
theorem lookup_eq_some_of_mem (hdistinct : (map entries).DistinctKeys) (hmem : (j, v) ∈ entries)
    (h : j.meaning = k.meaning) : lookup entries k.toValue = some v := by
  have hfound : (lookup entries k.toValue).isSome = true :=
    lookup_isSome_iff_mem_keys.mpr ⟨j, mem_keys_toValue_iff.mpr h, List.mem_map_of_mem hmem⟩
  obtain ⟨w, hw⟩ := Option.isSome_iff_exists.mp hfound
  obtain ⟨i, hi, himem⟩ := mem_of_lookup_eq_some hw
  have hsame := eq_of_mem_of_meaning hdistinct hmem himem (h.trans hi.symm)
  rw [hw, (Prod.mk.inj hsame).2]

end Lookup

/-! ### Equality of numbers -/

theorem ofOrder?_swap (o : Option Ordering) :
    Comparison.ofOrder? (o.map Ordering.swap) = (Comparison.ofOrder? o).swap := by
  cases o <;> rfl

theorem numericOrder_swap (a b : Value) : numericOrder a b = (numericOrder b a).swap := by
  cases a <;> cases b <;> first
    | rfl
    | exact congrArg Comparison.ordered Std.OrientedOrd.eq_swap
    | (rw [numericOrder, numericOrder, order?_swap]; exact ofOrder?_swap _)

theorem isEqual_numericOrder_comm (a b : Value) :
    (numericOrder a b).isEqual = (numericOrder b a).isEqual := by
  rw [numericOrder_swap, Comparison.isEqual_swap]

/-! ### Equality of containers -/

theorem equalItems_iff {as bs : List Value} :
    equalItems as bs = true ↔ List.Forall₂ (fun a b => equals a b = true) as bs := by
  induction as generalizing bs with
  | nil => cases bs <;> simp [equalItems]
  | cons a as ih => cases bs <;> simp [equalItems, ih]

theorem equalEntries_iff {as bs : List (MapKey × Value)} :
    equalEntries as bs = true ↔
      ∀ entry ∈ as, ∃ b, lookup bs entry.1.toValue = some b ∧ equals entry.2 b = true := by
  induction as with
  | nil => simp [equalEntries]
  | cons entry as ih =>
      obtain ⟨k, a⟩ := entry
      rw [equalEntries, Bool.and_eq_true, ih, List.forall_mem_cons]
      cases lookup bs k.toValue <;> simp

/-- A list of values that are equal either way round is equal to another either way round. -/
theorem equalItems_symm {as bs : List Value}
    (ih : ∀ a ∈ as, ∀ b, equals a b = true → equals b a = true) (h : equalItems as bs = true) :
    equalItems bs as = true := by
  rw [equalItems_iff] at h ⊢
  induction h with
  | nil => exact .nil
  | cons hab _ ihrest =>
      exact .cons (ih _ List.mem_cons_self _ hab)
        (ihrest fun a hmem => ih a (List.mem_cons_of_mem _ hmem))

/-- If the keys of a map stand for different things and each finds an entry in a map of the same
size, then the keys of both stand for the same. -/
theorem perm_meaning {as bs : List (MapKey × Value)} (hdistinct : (map as).DistinctKeys)
    (hlength : as.length = bs.length) (h : equalEntries as bs = true) :
    (as.map fun entry => entry.1.meaning).Perm (bs.map fun entry => entry.1.meaning) := by
  have hsubset : (as.map fun entry => entry.1.meaning) ⊆ bs.map fun entry => entry.1.meaning := by
    intro meaning hmem
    obtain ⟨entry, hentry, rfl⟩ := List.mem_map.mp hmem
    obtain ⟨b, hlookup, -⟩ := equalEntries_iff.mp h entry hentry
    obtain ⟨k, hk, hkmem⟩ := mem_of_lookup_eq_some hlookup
    exact hk ▸ List.mem_map_of_mem hkmem
  exact (hdistinct.subperm hsubset).perm_of_length_le (by simp [hlength])

theorem equalEntries_symm {as bs : List (MapKey × Value)} (hdistinct : (map as).DistinctKeys)
    (ih : ∀ entry ∈ as, ∀ b, equals entry.2 b = true → equals b entry.2 = true)
    (hlength : as.length = bs.length) (h : equalEntries as bs = true) :
    equalEntries bs as = true := by
  have hperm := perm_meaning hdistinct hlength h
  have hdistinct' : (map bs).DistinctKeys := hperm.nodup_iff.mp hdistinct
  rw [equalEntries_iff]
  rintro ⟨k, b⟩ hmem
  -- some key of `as` stands for the same as `k`, so the entry that it finds is this one
  obtain ⟨⟨j, a⟩, hja, hmeaning⟩ := List.mem_map.mp (hperm.mem_iff.mpr (List.mem_map_of_mem hmem))
  obtain ⟨b', hlookup, hequal⟩ := equalEntries_iff.mp h (j, a) hja
  obtain ⟨k', hk', hmem'⟩ := mem_of_lookup_eq_some hlookup
  obtain ⟨-, rfl⟩ := Prod.mk.inj
    (eq_of_mem_of_meaning hdistinct' hmem' hmem (hk'.trans hmeaning))
  exact ⟨a, lookup_eq_some_of_mem hdistinct hja hmeaning, ih _ hja _ hequal⟩

theorem equals_comm_of_scalar {a : Value} (ha : a.kind ≠ .list ∧ a.kind ≠ .map) (b : Value) :
    equals a b = equals b a := by
  cases a <;> cases b <;> simp only [equals] <;> first
    | exact isEqual_numericOrder_comm _ _
    | exact BEq.comm
    | exact decide_eq_decide.mpr eq_comm
    | simp [kind] at ha

/-- Equality with a value without two keys that stand for the same holds either way round. -/
theorem equals_symm {a : Value} (ha : a.Throughout DistinctKeys) {b : Value}
    (h : equals a b = true) : equals b a = true := by
  induction a using Value.induct generalizing b with
  | step a ih =>
      cases a with
      | list as =>
          cases b <;> simp only [equals, numericOrder] at h ⊢ <;> try cases h
          exact equalItems_symm (fun a hmem b => ih a hmem (ha.member hmem)) h
      | map as =>
          cases b <;> simp only [equals, numericOrder] at h ⊢ <;> try cases h
          rw [Bool.and_eq_true, beq_iff_eq] at h ⊢
          refine ⟨h.1.symm, equalEntries_symm ha.here (fun entry hmem b => ?_) h.1 h.2⟩
          have hmember := List.mem_map_of_mem (f := Prod.snd) hmem
          exact ih entry.2 hmember (ha.member hmember)
      | _ => rwa [← equals_comm_of_scalar (by simp [kind])]

/-- Equality holds either way round, if no map in the value on the left has two keys that stand
for the same; it is symmetric between values without such maps. -/
theorem equals_comm_of_distinct_keys {a b : Value} (ha : a.Throughout DistinctKeys) :
    (equals a b = true → equals b a = true) ∧
      (b.Throughout DistinctKeys → equals a b = equals b a) := by
  refine ⟨fun h => equals_symm ha h, fun hb => ?_⟩
  rw [Bool.eq_iff_iff]
  exact ⟨equals_symm ha, equals_symm hb⟩

/-- The maps `{1: null}` and `{1u: null}` are equal either way round. -/
theorem equals_comm_singletons :
    equals (map [(.int 1, null)]) (map [(.uint 1, null)]) = true ∧
      equals (map [(.uint 1, null)]) (map [(.int 1, null)]) = true ∧
      equals (map [(.int 1, null)]) (map [(.uint 1, null)]) =
        equals (map [(.uint 1, null)]) (map [(.int 1, null)]) := by
  have hsingleton (k : MapKey) : Throughout DistinctKeys (map [(k, null)]) := by
    refine .intro (List.nodup_singleton _) fun m hm => ?_
    obtain rfl : m = null := by simpa [members] using hm
    exact .intro trivial nofun
  have hequal : equals (map [(.int 1, null)]) (map [(.uint 1, null)]) = true := by decide +kernel
  obtain ⟨hsymm, hcomm⟩ := equals_comm_of_distinct_keys (b := map [(.uint 1, null)])
    (hsingleton (.int 1))
  exact ⟨hequal, hsymm hequal, hcomm (hsingleton (.uint 1))⟩

/-- The maps `{1: null, 1u: null}` and `{1: null, 2: null}` are equal one way round: both keys
of the first find the entry of the first key of the second. -/
theorem equals_not_symmetric :
    ∃ a b : Value, a.WellFormed ∧ b.WellFormed ∧ equals a b = true ∧ equals b a = false := by
  have hwellFormed {j k : MapKey} (h : MapKey.cmp j k = .lt) :
      WellFormed (map [(j, null), (k, null)]) := by
    refine .intro (List.pairwise_pair.mpr h) fun m hm => ?_
    obtain rfl : m = null := by simpa [members] using hm
    exact .intro trivial nofun
  exact ⟨map [(.int 1, null), (.uint 1, null)], map [(.int 1, null), (.int 2, null)],
    hwellFormed (by decide), hwellFormed (by decide), by decide +kernel, by decide +kernel⟩

end Value

end EmbeddedExpr
