import EmbeddedExpr.Proofs.Value.Members
import Mathlib.Data.List.Induction

/-!
# Entries under insertion and removal

Insertion finds the place of a key by the order, looking up compares keys for equality.  The two
fit together since keys that the order cannot tell apart are equal, as texts are: their order is
that of the lists of their code points.

Of entries with one key the last to be inserted stays (`get?_ofList`).  Entries with different keys
are all kept, and since they end up in the order of their keys, it does not matter in which order
they are inserted (`ofList_eq_of_perm`).
-/

namespace EmbeddedExpr

/-! ### The order of texts -/

theorem compareChars_eq_compare (a b : List Char) :
    compareChars a b = compare (a.map Char.toNat) (b.map Char.toNat) := by
  induction a generalizing b with
  | nil => cases b <;> rfl
  | cons c cs ih =>
      cases b with
      | nil => rfl
      | cons d ds => rw [compareChars, ih, List.map_cons, List.map_cons, List.compare_cons_cons]

instance : Std.TransCmp compareText where
  isLE_trans {r s t} hrs hst := by
    simp only [compareText, compareChars_eq_compare] at hrs hst ⊢
    exact Std.TransCmp.isLE_trans hrs hst

instance : Std.LawfulEqCmp compareText where
  compare_self := Std.ReflCmp.compare_self
  eq_of_compare {s t} h := by
    rw [compareText, compareChars_eq_compare] at h
    have hcodes : s.toList.map Char.toNat = t.toList.map Char.toNat :=
      Std.LawfulEqCmp.eq_of_compare h
    exact String.toList_inj.mp
      (List.map_inj_right (fun c d => Char.toNat_inj.mp) |>.mp hcodes)

theorem compareText_eq_lt_iff {s t : String} : compareText s t = .lt ↔ s < t := by
  rw [String.lt_iff, compareText]
  generalize s.toList = a
  generalize t.toList = b
  induction a generalizing b with
  | nil => cases b <;> simp [compareChars]
  | cons c cs ih =>
      cases b with
      | nil => simp [compareChars]
      | cons d ds =>
          rw [compareChars, Ordering.then_eq_lt, ih, Nat.compare_eq_lt, Nat.compare_eq_eq,
            List.cons_lt_cons_iff, Char.toNat_inj]
          exact Iff.rfl

/-! ### The order of keys -/

instance : Std.TransCmp MapKey.cmp where
  isLE_trans {j k l} hjk hkl := by
    -- kinds are ordered by their ranks, so only keys of one kind are left to compare
    cases j <;> cases k <;> cases l <;>
      first | rfl | (cases hjk; done) | cases hkl | skip
    case bool.bool.bool => exact Std.TransOrd.isLE_trans (α := Bool) hjk hkl
    case int.int.int => exact Std.TransOrd.isLE_trans (α := Int) hjk hkl
    case uint.uint.uint => exact Std.TransOrd.isLE_trans (α := Nat) hjk hkl
    case text.text.text r s t =>
      have hrs : (compareText r s).isLE = true := hjk
      have hst : (compareText s t).isLE = true := hkl
      have hrt : (compareText r t).isLE = true := Std.TransCmp.isLE_trans hrs hst
      exact hrt

instance : Std.LawfulEqCmp MapKey.cmp where
  compare_self := Std.ReflCmp.compare_self
  eq_of_compare {j k} h := by
    cases j <;> cases k <;> first | cases h | skip
    case bool.bool a b =>
      have heq : compare a b = .eq := h
      rw [Std.LawfulEqCmp.eq_of_compare heq]
    case int.int a b =>
      have heq : compare a.toInt b.toInt = .eq := h
      rw [Int64.toInt_inj.mp (Std.LawfulEqCmp.eq_of_compare heq)]
    case uint.uint a b =>
      have heq : compare a.toNat b.toNat = .eq := h
      rw [UInt64.toNat_inj.mp (Std.LawfulEqCmp.eq_of_compare heq)]
    case text.text s t =>
      have heq : compareText s t = .eq := h
      rw [Std.LawfulEqCmp.eq_of_compare heq]

namespace Entries

variable {κ α : Type} {cmp : κ → κ → Ordering} {entries : Entries κ α} {k : κ} {v : α}

theorem ofList_append_singleton (entries : List (κ × α)) (entry : κ × α) :
    ofList cmp (entries ++ [entry]) = (ofList cmp entries).insert cmp entry.1 entry.2 := by
  rw [ofList, List.foldl_append]
  rfl

/-! ### Looking up -/

section Lookup

variable [DecidableEq κ]

theorem get?_insert [Std.LawfulEqCmp cmp] (entries : Entries κ α) (k : κ) (v : α) (j : κ) :
    (entries.insert cmp k v).get? j = if j = k then some v else entries.get? j := by
  induction entries with
  | nil =>
      by_cases hj : j = k
      · simp [insert, get?, hj]
      · simp [insert, get?, hj, Ne.symm hj]
  | cons entry rest ih =>
      rw [insert]
      cases hcmp : cmp k entry.1 with
      | lt =>
          by_cases hj : j = k
          · simp [get?, hj]
          · simp [get?, hj, Ne.symm hj]
      | eq =>
          obtain rfl := Std.LawfulEqCmp.eq_of_compare hcmp
          by_cases hj : j = entry.1
          · simp [get?, hj]
          · simp [get?, hj, Ne.symm hj]
      | gt =>
          -- the key of this entry is another one, as the order tells them apart
          have hne : entry.1 ≠ k := by
            rintro rfl
            have hself : cmp entry.1 entry.1 = .eq := Std.ReflCmp.compare_self
            rw [hself] at hcmp
            cases hcmp
          simp only [get?, ih]
          by_cases hj : j = k
          · simp [hj, hne]
          · simp [hj]

theorem get?_erase (entries : Entries κ α) (k j : κ) :
    (entries.erase k).get? j = if j = k then none else entries.get? j := by
  induction entries with
  | nil => simp [erase, get?]
  | cons entry rest ih =>
      rw [erase] at ih ⊢
      rw [List.filter_cons]
      by_cases hkey : entry.1 = k
      · simp only [hkey, ne_eq, not_true_eq_false, decide_false, Bool.false_eq_true, if_false, ih,
          get?]
        by_cases hj : j = k
        · simp [hj]
        · simp [hj, Ne.symm hj]
      · simp only [hkey, ne_eq, not_false_eq_true, decide_true, if_true, ih, get?]
        by_cases hj : j = k
        · simp [hj, hkey]
        · simp [hj]

/-- Of the entries with one key the last to be inserted stays. -/
theorem get?_ofList [Std.LawfulEqCmp cmp] (entries : List (κ × α)) (k : κ) :
    (ofList cmp entries).get? k = get? entries.reverse k := by
  induction entries using List.reverseRecOn with
  | nil => rfl
  | append_singleton entries entry ih =>
      rw [ofList_append_singleton, get?_insert, ih, List.reverse_concat, get?]
      simp only [eq_comm (a := k)]

end Lookup

/-! ### The order of the keys -/

theorem mem_insert {entry : κ × α} (h : entry ∈ entries.insert cmp k v) :
    entry = (k, v) ∨ entry ∈ entries := by
  induction entries with
  | nil => exact .inl (List.mem_singleton.mp h)
  | cons first rest ih =>
      rw [insert] at h
      split at h
      · exact List.mem_cons.mp h
      · exact (List.mem_cons.mp h).imp_right (List.mem_cons_of_mem _)
      · rcases List.mem_cons.mp h with rfl | hrest
        · exact .inr List.mem_cons_self
        · exact (ih hrest).imp_right (List.mem_cons_of_mem _)

theorem insert_ascending [Std.TransCmp cmp] [Std.LawfulEqCmp cmp]
    (h : entries.Pairwise fun a b => cmp a.1 b.1 = .lt) :
    (entries.insert cmp k v).Pairwise fun a b => cmp a.1 b.1 = .lt := by
  induction entries with
  | nil => exact List.pairwise_singleton _ _
  | cons first rest ih =>
      obtain ⟨hfirst, hrest⟩ := List.pairwise_cons.mp h
      rw [insert]
      cases hcmp : cmp k first.1 with
      | lt =>
          refine List.pairwise_cons.mpr ⟨List.forall_mem_cons.mpr ⟨hcmp, fun entry hentry => ?_⟩, h⟩
          exact Std.TransCmp.lt_trans hcmp (hfirst entry hentry)
      | eq =>
          obtain rfl := Std.LawfulEqCmp.eq_of_compare hcmp
          exact List.pairwise_cons.mpr ⟨hfirst, hrest⟩
      | gt =>
          refine List.pairwise_cons.mpr ⟨fun entry hentry => ?_, ih hrest⟩
          rcases mem_insert hentry with rfl | hold
          · exact Std.OrientedCmp.gt_iff_lt.mp hcmp
          · exact hfirst entry hold

/-- The entries of any list stand in the order of their keys. -/
theorem ofList_ascending [Std.TransCmp cmp] [Std.LawfulEqCmp cmp] (entries : List (κ × α)) :
    (ofList cmp entries).Pairwise fun a b => cmp a.1 b.1 = .lt :=
  List.foldlRecOn entries _ List.Pairwise.nil fun _ hbefore _ _ => insert_ascending hbefore

theorem erase_ascending [DecidableEq κ] (h : entries.Pairwise fun a b => cmp a.1 b.1 = .lt) :
    (entries.erase k).Pairwise fun a b => cmp a.1 b.1 = .lt :=
  h.sublist List.filter_sublist

/-! ### The order of insertion -/

/-- An entry with a new key joins the others. -/
theorem insert_perm [Std.LawfulEqCmp cmp] {entries : Entries κ α} (h : k ∉ entries.map Prod.fst) :
    (entries.insert cmp k v).Perm ((k, v) :: entries) := by
  induction entries with
  | nil => exact .refl _
  | cons entry rest ih =>
      rw [List.map_cons, List.mem_cons, not_or] at h
      rw [insert]
      split
      · exact .refl _
      · rename_i hcmp
        exact absurd (Std.LawfulEqCmp.eq_of_compare hcmp) h.1
      · exact ((ih h.2).cons entry).trans (.swap _ _ _)

/-- Entries with different keys are all kept. -/
theorem ofList_perm [Std.LawfulEqCmp cmp] {entries : List (κ × α)}
    (h : (entries.map Prod.fst).Nodup) : (ofList cmp entries).Perm entries := by
  induction entries using List.reverseRecOn with
  | nil => exact .refl _
  | append_singleton entries entry ih =>
      rw [List.map_append, List.nodup_append] at h
      have hbefore : (ofList cmp entries).Perm entries := ih h.1
      have hnew : entry.1 ∉ (ofList cmp entries).map Prod.fst := by
        rw [(hbefore.map Prod.fst).mem_iff]
        exact fun hmem => h.2.2 _ hmem _ (List.mem_singleton_self _) rfl
      rw [ofList_append_singleton]
      exact (insert_perm hnew).trans
        ((hbefore.cons entry).trans (List.perm_append_singleton entry entries).symm)

/-- Entries with different keys are put in the same order, however they are inserted. -/
theorem ofList_eq_of_perm [Std.TransCmp cmp] [Std.LawfulEqCmp cmp] {given entries : List (κ × α)}
    (hsorted : entries.Pairwise fun a b => cmp a.1 b.1 = .lt) (h : given.Perm entries) :
    ofList cmp given = entries := by
  have hdistinct : (given.map Prod.fst).Nodup := by
    rw [(h.map Prod.fst).nodup_iff]
    refine List.pairwise_map.mpr (hsorted.imp fun {a b} hlt heq => ?_)
    have hself : cmp b.1 b.1 = .eq := Std.ReflCmp.compare_self
    rw [heq, hself] at hlt
    cases hlt
  have hperm : (ofList cmp given).Perm entries := (ofList_perm hdistinct).trans h
  refine hperm.eq_of_pairwise (fun a b _ _ hab hba => ?_) (ofList_ascending given) hsorted
  have hswapped : cmp b.1 a.1 = (cmp a.1 b.1).swap := Std.OrientedCmp.eq_swap
  rw [hba, hab] at hswapped
  cases hswapped

end Entries

end EmbeddedExpr
