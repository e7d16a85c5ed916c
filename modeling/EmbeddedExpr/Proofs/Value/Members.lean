import EmbeddedExpr.Value.Entries

/-!
# Values and their members

The members of a list are its items and those of a map the values of its entries.  What passes
from the members of a value to the value holds of all values (`Value.induct`), and a property
holds throughout a value if it holds of the value and throughout its members
(`Value.Throughout`).

The maps of the language have their entries in strictly ascending order of the keys
(`Value.WellFormed`), so that no key occurs twice.
-/

namespace EmbeddedExpr

/-! ### The order of keys -/

instance : Std.OrientedCmp compareChars where
  eq_swap {a b} := by
    induction a generalizing b with
    | nil => cases b <;> rfl
    | cons c cs ih =>
        cases b with
        | nil => rfl
        | cons d ds =>
            rw [compareChars, compareChars, Ordering.swap_then, ← ih, ← Std.OrientedCmp.eq_swap]

instance : Std.OrientedCmp compareText where
  eq_swap {s t} :=
    (Std.OrientedCmp.eq_swap : compareChars s.toList t.toList = (compareChars t.toList s.toList).swap)

instance : Std.OrientedCmp MapKey.cmp where
  eq_swap {a b} := by
    cases a <;> cases b <;> first | rfl | skip
    case bool.bool a b => exact Std.OrientedOrd.eq_swap
    case int.int i j => exact Std.OrientedOrd.eq_swap
    case uint.uint u v => exact Std.OrientedOrd.eq_swap
    case text.text s t =>
      exact (Std.OrientedCmp.eq_swap : compareText s t = (compareText t s).swap)

namespace Entries

variable {α : Type} {entries rest : Entries MapKey α} {k : MapKey} {v : α}

/-- The keys of the entries ascend. -/
def Ascending (entries : Entries MapKey α) : Prop :=
  entries.Pairwise fun a b => MapKey.cmp a.1 b.1 = .lt

instance (entries : Entries MapKey α) : Decidable (Ascending entries) :=
  inferInstanceAs (Decidable (entries.Pairwise fun a b => MapKey.cmp a.1 b.1 = .lt))

theorem ne_of_cmp_eq_lt {j k : MapKey} (h : MapKey.cmp j k = .lt) : j ≠ k := by
  rintro rfl
  have hself : MapKey.cmp j j = .eq := Std.ReflCmp.compare_self
  rw [hself] at h
  cases h

theorem mem_of_get?_eq_some (h : entries.get? k = some v) : (k, v) ∈ entries := by
  induction entries with
  | nil => cases h
  | cons entry rest ih =>
      rw [get?] at h
      split at h
      · rename_i hkey
        cases h
        rw [← hkey]
        exact List.mem_cons_self
      · exact List.mem_cons_of_mem _ (ih h)

theorem get?_isSome_iff {κ : Type} [DecidableEq κ] {entries : Entries κ α} {k : κ} :
    (entries.get? k).isSome = true ↔ k ∈ entries.map Prod.fst := by
  induction entries with
  | nil => simp [get?]
  | cons entry rest ih =>
      rw [get?, List.map_cons, List.mem_cons]
      split
      · simp_all
      · rename_i hne
        rw [ih, or_iff_right (Ne.symm hne)]

section Insertion

variable {κ : Type} {cmp : κ → κ → Ordering} [Std.OrientedCmp cmp] {entries : Entries κ α} {k : κ}

/-- An entry whose key is above all others is put at the end. -/
theorem insert_eq_append (h : ∀ entry ∈ entries, cmp entry.1 k = .lt) :
    entries.insert cmp k v = entries ++ [(k, v)] := by
  induction entries with
  | nil => rfl
  | cons first rest ih =>
      have hgreater : cmp k first.1 = .gt :=
        Std.OrientedCmp.gt_iff_lt.mpr (h first List.mem_cons_self)
      rw [insert, hgreater]
      simp only [ih fun entry hentry => h entry (List.mem_cons_of_mem _ hentry), List.cons_append]

theorem foldl_insert_eq_append (before : Entries κ α)
    (h : (before ++ entries).Pairwise fun a b => cmp a.1 b.1 = .lt) :
    entries.foldl (fun acc entry => acc.insert cmp entry.1 entry.2) before = before ++ entries := by
  induction entries generalizing before with
  | nil => exact (List.append_nil before).symm
  | cons first rest ih =>
      have hbelow : ∀ entry ∈ before, cmp entry.1 first.1 = .lt := fun entry hentry =>
        (List.pairwise_append.mp h).2.2 entry hentry first List.mem_cons_self
      rw [List.append_cons] at h
      rw [List.foldl_cons, insert_eq_append hbelow, ih _ h, ← List.append_cons]

/-- Entries whose keys ascend stay as they are when they are inserted one after the other. -/
theorem ofList_eq_self (h : entries.Pairwise fun a b => cmp a.1 b.1 = .lt) :
    ofList cmp entries = entries :=
  foldl_insert_eq_append [] h

end Insertion

end Entries

namespace Value

/-! ### Members -/

/-- The values that an iteration over a container runs over. -/
def elements? : Value → Option (List Value)
  | list items => some items
  | map entries => some (entries.map fun entry => entry.1.toValue)
  | _ => none

/-- The items of a list and the values of the entries of a map. -/
def members : Value → List Value
  | list items => items
  | map entries => entries.map Prod.snd
  | _ => []

theorem sizeOf_lt_of_mem_members {m v : Value} (h : m ∈ v.members) : sizeOf m < sizeOf v := by
  cases v with
  | list items =>
      have hlt : sizeOf m < sizeOf items := List.sizeOf_lt_of_mem h
      simp only [list.sizeOf_spec]
      omega
  | map entries =>
      obtain ⟨⟨k, m⟩, hmem, rfl⟩ := List.mem_map.mp h
      have hlt := List.sizeOf_lt_of_mem hmem
      simp only [map.sizeOf_spec, Prod.mk.sizeOf_spec] at hlt ⊢
      omega
  | _ => cases h

/-- What passes from the members of a value to the value holds of all values. -/
theorem induct {motive : Value → Prop} (step : ∀ v, (∀ m ∈ v.members, motive m) → motive v)
    (v : Value) : motive v :=
  step v fun m h =>
    have := sizeOf_lt_of_mem_members h
    induct step m
termination_by sizeOf v

/-- The property holds of a value, its members, their members, and so on. -/
inductive Throughout (good : Value → Prop) : Value → Prop
  | intro {v : Value} (here : good v) (members : ∀ m ∈ v.members, Throughout good m) :
      Throughout good v

namespace Throughout

variable {good : Value → Prop} {v m : Value}

theorem here (h : Throughout good v) : good v := by
  cases h
  assumption

theorem member (h : Throughout good v) (hm : m ∈ v.members) : Throughout good m := by
  cases h with
  | intro _ hmembers => exact hmembers m hm

end Throughout

theorem throughout_iff {good : Value → Prop} {v : Value} :
    Throughout good v ↔ good v ∧ ∀ m ∈ v.members, Throughout good m :=
  ⟨fun h => ⟨h.here, fun _ => h.member⟩, fun h => .intro h.1 h.2⟩

/-- The keys of a map ascend. -/
def Sorted : Value → Prop
  | map entries => Entries.Ascending entries
  | _ => True

/-- The keys of every map in a value ascend. -/
def WellFormed (v : Value) : Prop := Throughout Sorted v

end Value

end EmbeddedExpr
