import EmbeddedExpr.Proofs.Host.RoundTrip
import EmbeddedExpr.Proofs.Value.Entries

/-!
# Maps as records

The application has records, whose fields have names.  A map is encoded as the record of the texts
of its keys, and keys of different kinds may have one text: `1`, `1u` and `"1"`, or `true` and
`"true"`.  Such a field is written once for each of these keys, in the order of the keys, so that
the last one stays.  That order goes by kinds first, and within a kind different keys have
different texts (`MapKey.eq_of_display_eq`).  Of the keys with one text it is therefore the one of
the highest kind whose value is kept (`encode_map_by_rank`).
-/

namespace EmbeddedExpr

namespace MapKey

variable {j k : MapKey}

theorem rank_le_of_cmp_eq_lt (h : cmp j k = .lt) : j.rank ≤ k.rank := by
  cases j <;> cases k <;> first
    | exact Nat.le_refl _
    | exact (Nat.compare_eq_lt.mp h).le

/-- Keys of one kind with one text are equal. -/
theorem eq_of_display_eq (hrank : j.rank = k.rank) (h : j.display = k.display) : j = k := by
  cases j <;> cases k <;> try cases hrank
  case bool.bool a b => cases a <;> cases b <;> first | rfl | exact absurd h (by decide)
  case int.int a b => rw [Int64.toInt_inj.mp (Int.repr_inj.mp h)]
  case uint.uint a b => rw [UInt64.toNat_inj.mp (Nat.repr_inj.mp h)]
  case text.text s t => exact congrArg text h

/-- Among the keys, none with the same text is of a higher kind. -/
def Prevails (key : MapKey) (keys : List MapKey) : Prop :=
  ∀ other ∈ keys, other.display = key.display → other.rank ≤ key.rank

instance (key : MapKey) (keys : List MapKey) : Decidable (key.Prevails keys) :=
  inferInstanceAs (Decidable (∀ other ∈ keys, _ → _))

end MapKey

namespace Value

variable {entries : List (MapKey × Value)}

/-- With the greatest key first, the first field with a name is from the key of the highest kind. -/
theorem get?_descendingFields_eq_some_iff
    (hsorted : entries.Pairwise fun a b => MapKey.cmp b.1 a.1 = .lt) {name : String}
    {host : HostValue} :
    Entries.get? (encodeEntries entries) name = some host ↔
      ∃ entry ∈ entries, entry.1.display = name ∧ entry.1.Prevails (entries.map Prod.fst) ∧
        entry.2.encode = host := by
  induction entries with
  | nil => simp [encodeEntries, Entries.get?]
  | cons first rest ih =>
      obtain ⟨hfirst, hrest⟩ := List.pairwise_cons.mp hsorted
      rw [encodeEntries, Entries.get?]
      by_cases hname : first.1.display = name
      · rw [if_pos hname, Option.some.injEq]
        constructor
        · rintro rfl
          refine ⟨first, List.mem_cons_self, hname, List.forall_mem_cons.mpr ⟨fun _ => le_rfl, ?_⟩,
            rfl⟩
          intro other hother _
          obtain ⟨entry, hentry, rfl⟩ := List.mem_map.mp hother
          exact MapKey.rank_le_of_cmp_eq_lt (hfirst entry hentry)
        · rintro ⟨entry, hentry, hsame, hprevails, rfl⟩
          rcases List.mem_cons.mp hentry with rfl | hrest
          · rfl
          · -- a key further down is smaller, so it has the text only if it is of a lower kind
            have hlt := hfirst entry hrest
            have hle : first.1.rank ≤ entry.1.rank :=
              hprevails first.1 List.mem_cons_self (hname.trans hsame.symm)
            have hrank := le_antisymm (MapKey.rank_le_of_cmp_eq_lt hlt) hle
            exact absurd (MapKey.eq_of_display_eq hrank (hsame.trans hname.symm))
              (Entries.ne_of_cmp_eq_lt hlt)
      · rw [if_neg hname, ih hrest]
        constructor
        · rintro ⟨entry, hentry, rfl, hprevails, rfl⟩
          exact ⟨entry, List.mem_cons_of_mem _ hentry, rfl,
            List.forall_mem_cons.mpr ⟨fun h => absurd h hname, hprevails⟩, rfl⟩
        · rintro ⟨entry, hentry, rfl, hprevails, rfl⟩
          rcases List.mem_cons.mp hentry with rfl | hentry
          · exact absurd rfl hname
          · exact ⟨entry, hentry, rfl, (List.forall_mem_cons.mp hprevails).2, rfl⟩

/-- The fields of the encoding of a map. -/
theorem get?_encodedEntries_eq_some_iff (hsorted : Entries.Ascending entries) {name : String}
    {host : HostValue} :
    Entries.get? (Entries.ofList compareText (encodeEntries entries)) name = some host ↔
      ∃ entry ∈ entries, entry.1.display = name ∧ entry.1.Prevails (entries.map Prod.fst) ∧
        entry.2.encode = host := by
  have hreverse : (encodeEntries entries).reverse = encodeEntries entries.reverse := by
    rw [encodeEntries_eq, encodeEntries_eq, List.map_reverse]
  have hkeys (key : MapKey) :
      key.Prevails (entries.reverse.map Prod.fst) ↔ key.Prevails (entries.map Prod.fst) := by
    simp only [MapKey.Prevails, List.map_reverse, List.mem_reverse]
  rw [Entries.get?_ofList, hreverse,
    get?_descendingFields_eq_some_iff (List.pairwise_reverse.mpr hsorted)]
  simp only [List.mem_reverse, hkeys]

/-- A map is encoded as a record with the texts of its keys as names.  Of several keys with one
text the field is that of the one of the highest kind, texts before unsigned integers, integers
and Booleans, and it does not matter in which order the entries were inserted. -/
theorem encode_map_by_rank (hsorted : Entries.Ascending entries) :
    ∃ fields, (map entries).encode = .record fields ∧
      (fields.Pairwise fun a b => compareText a.1 b.1 = .lt) ∧
      (∀ name, name ∈ fields.map Prod.fst ↔ ∃ key ∈ entries.map Prod.fst, key.display = name) ∧
      (∀ name host, Entries.get? fields name = some host ↔
        ∃ entry ∈ entries, entry.1.display = name ∧ entry.1.Prevails (entries.map Prod.fst) ∧
          entry.2.encode = host) ∧
      ∀ given, given.Perm entries → (ofEntries given).encode = .record fields := by
  refine ⟨Entries.ofList compareText (encodeEntries entries), rfl, Entries.ofList_ascending _, ?_,
    fun _ _ => get?_encodedEntries_eq_some_iff hsorted, fun given hperm => ?_⟩
  · intro name
    rw [← Entries.get?_isSome_iff, Entries.get?_ofList, Entries.get?_isSome_iff, encodeEntries_eq]
    simp
  · rw [ofEntries, Entries.ofList_eq_of_perm hsorted hperm]
    rfl

/-- The keys `1` and `1u`, and `true` and `"true"`, inserted from the highest to the lowest. -/
theorem encode_map_by_rank_descending :
    let entries := [(.bool true, uint 4), (.int 1, int 3), (.uint 1, null), (.text "true", int 5)]
    Entries.Ascending entries ∧ entries.reverse.Perm entries ∧
      ∃ fields, (ofEntries entries.reverse).encode = .record fields ∧
        Entries.get? fields "1" = some .null ∧ Entries.get? fields "true" = some (.bigint 5) := by
  intro entries
  have hsorted : Entries.Ascending entries := by decide
  have hperm : entries.reverse.Perm entries := List.reverse_perm entries
  obtain ⟨fields, -, -, -, hvalues, hinserted⟩ := encode_map_by_rank hsorted
  refine ⟨hsorted, hperm, fields, hinserted _ hperm, ?_, ?_⟩
  · refine (hvalues "1" .null).mpr ⟨(.uint 1, null), ?_, by decide, by decide, rfl⟩
    simp [entries]
  · refine (hvalues "true" (.bigint 5)).mpr ⟨(.text "true", int 5), ?_, by decide, by decide, rfl⟩
    simp [entries]

end Value

end EmbeddedExpr
