import EmbeddedExpr.Host.Codec
import EmbeddedExpr.Proofs.Number.Integers
import EmbeddedExpr.Proofs.Value.Members

/-!
# Values that come back from the application

Encoding forgets some kinds of values and decoding guesses them: a number without a fraction
becomes an integer, and a record with the fields of a pun or of a duration becomes what these
stand for.  `Value.ComesBack` says of a value which guesses go right at its top, in terms of the
value alone.  A value is decoded from its encoding just if this holds of it and its members are
decoded from theirs (`decode_encode_step`), so it is what holds throughout the values that
survive the round trip: `decode_encode_eq_ok_iff`.

Decoding never gives a function, and no unsigned integer except by a pun, so that a guess at a
member of these kinds never goes right and need not be looked at one level up.
-/

namespace EmbeddedExpr

/-! ### Doubles that are integers -/

namespace Double

variable {x : Double} {n : ℤ}

/-- There is no double between `10 ^ 30` and the double nearest to it. -/
theorem natAbs_lt_wholeBound_iff (h : x.value = .ofRat n) :
    n.natAbs < HostValue.wholeBound ↔ n.natAbs < 10 ^ 30 := by
  have hbound : HostValue.wholeBound = 1000000000000000019884624838656 := by decide +kernel
  rw [hbound]
  constructor
  · intro hlt
    by_contra hge
    have hdvd : 2 ^ (46 + 1) ∣ n.natAbs := dvd_natAbs_of_value_eq h (by omega)
    omega
  · omega

end Double

/-! ### Values that decoding does not take for others -/

namespace Value

/-- An integer, or a double that is one and less than `10 ^ 30`. -/
def IsWhole : Value → Prop
  | int _ => True
  | double x => ∃ n : ℤ, x.value = .ofRat n ∧ n.natAbs < 10 ^ 30
  | _ => False

/-- The entries are seconds and nanoseconds, and both are whole. -/
def StatesDuration (entries : List (MapKey × Value)) : Prop :=
  (∀ key, key ∈ entries.map Prod.fst ↔
    key = .text HostValue.secondsField ∨ key = .text HostValue.nanosField) ∧
    ∀ entry ∈ entries, entry.2.IsWhole

/-- The encoding of the value is not decoded to something else, whatever its members are. -/
def ComesBack : Value → Prop
  | uint _ | function _ _ => False
  | double x => ¬ ∃ n : ℤ, x.value = .ofRat n ∧ -0x8000000000000000 ≤ n ∧ n < 0x8000000000000000
  | map entries =>
    (∀ key ∈ entries.map Prod.fst, ∃ name, key = .text name) ∧
      (∀ pun : HostValue.Pun, .text pun.field ∉ entries.map Prod.fst) ∧
      ¬ StatesDuration entries
  | _ => True

end Value

namespace HostValue

/-! ### Numbers -/

theorem decodeNumber_eq_double_iff {x : Double} :
    decodeNumber x = .double x ↔ (Value.double x).ComesBack := by
  simp only [Value.ComesBack, ← Double.isIntegral_and_truncate_iff]
  unfold decodeNumber Number.int64?
  by_cases hintegral : x.isIntegral = true
  · rw [if_pos hintegral]
    split
    · rename_i i hi
      refine iff_of_false nofun fun hnone => ?_
      split at hi
      case isTrue hrange => exact hnone ⟨x.truncate, ⟨hintegral, rfl⟩, hrange⟩
      case isFalse => cases hi
    · rename_i hi
      refine iff_of_true rfl ?_
      rintro ⟨n, ⟨-, rfl⟩, hrange⟩
      rw [if_pos hrange] at hi
      cases hi
  · rw [if_neg hintegral]
    exact iff_of_true rfl fun ⟨_, ⟨h, _⟩, _⟩ => hintegral h

/-- A member that comes back is whole just if its encoding is. -/
theorem isSome_whole?_encode {v : Value} (h : v.encode.decode = .ok v) :
    (whole? v.encode).isSome = true ↔ v.IsWhole := by
  cases v with
  | uint u =>
      rw [Value.encode, decode] at h
      split at h <;> cases h
  | double x =>
      rw [Value.encode, whole?, Option.isSome_ite]
      simp only [Value.IsWhole, ← Double.isIntegral_and_truncate_iff]
      have hbound (hintegral : x.isIntegral = true) := Double.natAbs_lt_wholeBound_iff
        (Double.isIntegral_and_truncate_iff.mp ⟨hintegral, rfl⟩)
      constructor
      · rintro ⟨hintegral, hlt⟩
        exact ⟨x.truncate, ⟨hintegral, rfl⟩, (hbound hintegral).mp hlt⟩
      · rintro ⟨n, ⟨hintegral, rfl⟩, hlt⟩
        exact ⟨hintegral, (hbound hintegral).mpr hlt⟩
  | int i => exact iff_of_true rfl trivial
  | _ => exact iff_of_false nofun nofun

/-- A duration is what its seconds and nanoseconds state. -/
theorem duration?_parts (d : Time.Duration) : duration? d.seconds d.nanos = some d := by
  have hrange := d.inRange
  have hsum : d.seconds * Time.nanosPerSecond + d.nanos = d.total :=
    Int.tdiv_mul_add_tmod d.total Time.nanosPerSecond
  have hfits : Number.int128? (d.seconds * Time.nanosPerSecond) =
      some (d.seconds * Time.nanosPerSecond) := by
    refine if_pos ?_
    unfold Time.DurationRange at hrange
    unfold Number.leastInt128 Number.boundInt128 Time.Duration.seconds
    simp only [Time.nanosPerSecond] at hrange ⊢
    omega
  rw [duration?, hfits, Option.bind_some, hsum]
  exact Time.Duration.ofNanos?_eq_some_iff.mpr rfl

/-! ### Items and fields -/

theorem decodeItems_eq_ok_iff {items : List HostValue} {values : List Value} :
    decodeItems items = .ok values ↔
      List.Forall₂ (fun item value => item.decode = .ok value) items values := by
  induction items generalizing values with
  | nil => cases values <;> simp [decodeItems]
  | cons item rest ih =>
      rw [decodeItems]
      cases values with
      | nil => cases item.decode <;> cases decodeItems rest <;> simp [Except.map]
      | cons value values =>
          rw [List.forall₂_cons, ← ih]
          cases item.decode <;> cases decodeItems rest <;> simp [Except.map]

theorem decodeFields_eq_ok_iff {fields : List (String × HostValue)}
    {entries : List (MapKey × Value)} :
    decodeFields fields = .ok entries ↔
      List.Forall₂ (fun field entry => entry.1 = .text field.1 ∧ field.2.decode = .ok entry.2)
        fields entries := by
  induction fields generalizing entries with
  | nil => cases entries <;> simp [decodeFields]
  | cons field rest ih =>
      obtain ⟨name, item⟩ := field
      rw [decodeFields]
      cases entries with
      | nil => cases item.decode <;> cases decodeFields rest <;> simp [Except.map]
      | cons entry entries =>
          obtain ⟨key, value⟩ := entry
          rw [List.forall₂_cons, ← ih]
          cases item.decode <;> cases decodeFields rest <;>
            simp [Except.map, eq_comm, and_assoc]

theorem keys_of_decodeFields {fields : List (String × HostValue)}
    {entries : List (MapKey × Value)} (h : decodeFields fields = .ok entries) :
    ∀ key ∈ entries.map Prod.fst, ∃ name, key = .text name := by
  replace h := decodeFields_eq_ok_iff.mp h
  induction h with
  | nil => nofun
  | cons hfield _ ih => exact List.forall_mem_cons.mpr ⟨⟨_, hfield.1⟩, ih⟩

/-! ### Records -/

theorem decodePun_ne_map (pun : Pun) (value : HostValue) (entries : List (MapKey × Value)) :
    decodePun pun value ≠ .ok (.map entries) := by
  cases pun with
  | int | uint =>
      rw [decodePun]
      cases wholePayload _ _ _ value <;> simp [Except.map]
  | double =>
      rw [decodePun]
      split <;> nofun

theorem isSome_durationParts?_iff {fields : List (String × HostValue)} :
    (durationParts? fields).isSome = true ↔
      fields.length = 2 ∧ ∃ seconds nanos,
        Entries.get? fields secondsField = some seconds ∧
          Entries.get? fields nanosField = some nanos ∧
          (whole? seconds).isSome = true ∧ (whole? nanos).isSome = true := by
  rw [durationParts?]
  split
  · rename_i hlength
    cases Entries.get? fields secondsField with
    | none => simp
    | some seconds =>
        cases Entries.get? fields nanosField with
        | none => simp
        | some nanos =>
            cases hs : whole? seconds <;> cases hn : whole? nanos <;> simp [hs, hn, hlength]
  · rename_i hlength
    simp [hlength]

/-- Only a record without a meaning of its own becomes a map. -/
theorem decode_record_eq_map_iff {fields : List (String × HostValue)}
    {entries : List (MapKey × Value)} :
    (record fields).decode = .ok (.map entries) ↔
      pun? fields = none ∧ durationParts? fields = none ∧ decodeFields fields = .ok entries := by
  rw [decode]
  cases pun? fields with
  | some found =>
      obtain ⟨pun, value⟩ := found
      refine iff_of_false ?_ nofun
      simp only
      split
      · exact decodePun_ne_map pun value entries
      · nofun
  | none =>
      cases durationParts? fields with
      | some parts =>
          refine iff_of_false ?_ nofun
          simp only
          split <;> nofun
      | none =>
          cases decodeFields fields <;> simp [Except.map]

end HostValue

namespace Value

open HostValue (decode)

theorem encodeItems_eq (items : List Value) : encodeItems items = items.map encode := by
  induction items with
  | nil => rfl
  | cons item rest ih => rw [encodeItems, ih, List.map_cons]

theorem encodeEntries_eq (entries : List (MapKey × Value)) :
    encodeEntries entries = entries.map fun entry => (entry.1.display, entry.2.encode) := by
  induction entries with
  | nil => rfl
  | cons entry rest ih => rw [encodeEntries, ih, List.map_cons]

section Entries

variable {entries : List (MapKey × Value)}

/-- Fields with the texts of text keys in the order of the keys stay in this order. -/
theorem ofFields_encodeEntries (hsorted : Entries.Ascending entries)
    (htext : ∀ key ∈ entries.map Prod.fst, ∃ name, key = .text name) :
    HostValue.ofFields (encodeEntries entries) =
      .record (entries.map fun entry => (entry.1.display, entry.2.encode)) := by
  rw [HostValue.ofFields, encodeEntries_eq]
  refine congrArg HostValue.record (Entries.ofList_eq_self (List.pairwise_map.mpr ?_))
  refine hsorted.imp_of_mem fun {a b} ha hb hlt => ?_
  obtain ⟨name, hname⟩ := htext a.1 (List.mem_map_of_mem ha)
  obtain ⟨name', hname'⟩ := htext b.1 (List.mem_map_of_mem hb)
  rw [hname, hname'] at hlt ⊢
  exact hlt

theorem get?_encodedFields (htext : ∀ key ∈ entries.map Prod.fst, ∃ name, key = .text name)
    (name : String) :
    Entries.get? (entries.map fun entry => (entry.1.display, entry.2.encode)) name =
      (Entries.get? entries (.text name)).map encode := by
  induction entries with
  | nil => rfl
  | cons entry rest ih =>
      obtain ⟨⟨name', hname'⟩, hrest⟩ := List.forall_mem_cons.mp htext
      rw [List.map_cons, Entries.get?, Entries.get?, ih hrest, hname']
      by_cases hsame : name' = name <;> simp [MapKey.display, hsame]

/-- The fields of a record pin a kind just if the keys of the entries do. -/
theorem pun?_encodedFields_eq_none_iff
    (htext : ∀ key ∈ entries.map Prod.fst, ∃ name, key = .text name) :
    HostValue.pun? (entries.map fun entry => (entry.1.display, entry.2.encode)) = none ↔
      ∀ pun : HostValue.Pun, .text pun.field ∉ entries.map Prod.fst := by
  have hnone (pun : HostValue.Pun) :
      Entries.get? (entries.map fun entry => (entry.1.display, entry.2.encode)) pun.field = none ↔
        .text pun.field ∉ entries.map Prod.fst := by
    rw [get?_encodedFields htext, Option.map_eq_none_iff, ← Entries.get?_isSome_iff,
      Option.not_isSome_iff_eq_none]
  simp only [HostValue.pun?, List.findSome?_eq_none_iff, Option.map_eq_none_iff, hnone]
  refine ⟨fun h pun => h pun (by cases pun <;> decide), fun h pun _ => h pun⟩

/-- There are two entries where the keys are those of a duration. -/
theorem StatesDuration.length_eq (hsorted : Entries.Ascending entries) (h : StatesDuration entries) :
    entries.length = 2 := by
  have hnodup : (entries.map Prod.fst).Nodup :=
    List.pairwise_map.mpr (hsorted.imp Entries.ne_of_cmp_eq_lt)
  have hperm : (entries.map Prod.fst).Perm
      [.text HostValue.secondsField, .text HostValue.nanosField] :=
    (List.perm_ext_iff_of_nodup hnodup (by decide)).mpr fun key => by simp [h.1]
  simpa using hperm.length_eq

theorem statesDuration_of_mem {seconds nanos : Value} (hlength : entries.length = 2)
    (hseconds : (.text HostValue.secondsField, seconds) ∈ entries)
    (hnanos : (.text HostValue.nanosField, nanos) ∈ entries) (hs : seconds.IsWhole)
    (hn : nanos.IsWhole) : StatesDuration entries := by
  have hne : (MapKey.text HostValue.secondsField, seconds) ≠ (.text HostValue.nanosField, nanos) :=
    fun h => absurd (Prod.mk.inj h).1 (by decide)
  have hall : ∀ entry ∈ entries, entry = (.text HostValue.secondsField, seconds) ∨
      entry = (.text HostValue.nanosField, nanos) := by
    obtain ⟨a, b, rfl⟩ := List.length_eq_two.mp hlength
    grind
  refine ⟨fun key => ⟨fun hkey => ?_, ?_⟩, fun entry hentry => ?_⟩
  · obtain ⟨entry, hentry, rfl⟩ := List.mem_map.mp hkey
    exact (hall entry hentry).imp (congrArg Prod.fst) (congrArg Prod.fst)
  · rintro (rfl | rfl)
    · exact List.mem_map_of_mem (f := Prod.fst) hseconds
    · exact List.mem_map_of_mem (f := Prod.fst) hnanos
  · rcases hall entry hentry with rfl | rfl
    · exact hs
    · exact hn

/-- The fields of a record state a duration just if the entries do. -/
theorem durationParts?_encodedFields_eq_none_iff (hsorted : Entries.Ascending entries)
    (htext : ∀ key ∈ entries.map Prod.fst, ∃ name, key = .text name)
    (hmembers : ∀ entry ∈ entries, entry.2.encode.decode = .ok entry.2) :
    HostValue.durationParts? (entries.map fun entry => (entry.1.display, entry.2.encode)) = none ↔
      ¬ StatesDuration entries := by
  rw [← Option.not_isSome_iff_eq_none, not_iff_not, HostValue.isSome_durationParts?_iff,
    List.length_map, get?_encodedFields htext, get?_encodedFields htext]
  have hwhole {key : MapKey} {v : Value} (h : (key, v) ∈ entries) :
      (HostValue.whole? v.encode).isSome = true ↔ v.IsWhole :=
    HostValue.isSome_whole?_encode (hmembers _ h)
  constructor
  · rintro ⟨hlength, _, _, hfirst, hsecond, hs, hn⟩
    obtain ⟨seconds, hseconds, rfl⟩ := Option.map_eq_some_iff.mp hfirst
    obtain ⟨nanos, hnanos, rfl⟩ := Option.map_eq_some_iff.mp hsecond
    have hseconds := Entries.mem_of_get?_eq_some hseconds
    have hnanos := Entries.mem_of_get?_eq_some hnanos
    exact statesDuration_of_mem hlength hseconds hnanos ((hwhole hseconds).mp hs)
      ((hwhole hnanos).mp hn)
  · intro h
    obtain ⟨seconds, hseconds⟩ := Option.isSome_iff_exists.mp
      (Entries.get?_isSome_iff.mpr ((h.1 (.text HostValue.secondsField)).mpr (.inl rfl)))
    obtain ⟨nanos, hnanos⟩ := Option.isSome_iff_exists.mp
      (Entries.get?_isSome_iff.mpr ((h.1 (.text HostValue.nanosField)).mpr (.inr rfl)))
    have hs := Entries.mem_of_get?_eq_some hseconds
    have hn := Entries.mem_of_get?_eq_some hnanos
    refine ⟨h.length_eq hsorted, seconds.encode, nanos.encode, ?_, ?_, (hwhole hs).mpr (h.2 _ hs),
      (hwhole hn).mpr (h.2 _ hn)⟩
    · rw [hseconds, Option.map_some]
    · rw [hnanos, Option.map_some]

/-- A map is decoded from its encoding if nothing speaks against it and its members are. -/
theorem decode_encode_map (hsorted : Entries.Ascending entries) :
    (map entries).encode.decode = .ok (map entries) ↔
      (map entries).ComesBack ∧ ∀ m ∈ (map entries).members, m.encode.decode = .ok m := by
  have hencode : (map entries).encode =
      .record (Entries.ofList compareText (encodeEntries entries)) := rfl
  rw [hencode, HostValue.decode_record_eq_map_iff]
  by_cases htext : ∀ key ∈ entries.map Prod.fst, ∃ name, key = .text name
  case neg =>
    exact iff_of_false (fun h => htext (HostValue.keys_of_decodeFields h.2.2)) fun h => htext h.1.1
  have hfields := HostValue.record.inj (ofFields_encodeEntries hsorted htext)
  rw [hfields, HostValue.decodeFields_eq_ok_iff, List.forall₂_map_left_iff, List.forall₂_same,
    pun?_encodedFields_eq_none_iff htext]
  have hduration := durationParts?_encodedFields_eq_none_iff hsorted htext
  constructor
  · rintro ⟨hpuns, hparts, hmembers⟩
    have hmembers : ∀ entry ∈ entries, entry.2.encode.decode = .ok entry.2 := fun entry hentry =>
      (hmembers entry hentry).2
    exact ⟨⟨htext, hpuns, (hduration hmembers).mp hparts⟩, List.forall_mem_map.mpr hmembers⟩
  · rintro ⟨⟨-, hpuns, hstates⟩, hmembers⟩
    have hmembers := List.forall_mem_map.mp hmembers
    refine ⟨hpuns, (hduration hmembers).mpr hstates, fun entry hentry => ⟨?_, hmembers _ hentry⟩⟩
    obtain ⟨name, hname⟩ := htext entry.1 (List.mem_map_of_mem hentry)
    rw [hname]
    rfl

end Entries

/-- One level of a value that comes back. -/
theorem decode_encode_step {v : Value} (hsorted : v.Sorted) :
    v.encode.decode = .ok v ↔
      v.ComesBack ∧ ∀ m ∈ v.members, m.encode.decode = .ok m := by
  cases v with
  | int i =>
      have hint : Number.int64? i.toInt = some i := Number.int64?_eq_some_iff.mpr rfl
      refine iff_of_true ?_ ⟨trivial, nofun⟩
      rw [encode, decode, hint]
  | uint u =>
      refine iff_of_false ?_ nofun
      rw [encode, decode]
      split <;> nofun
  | double x =>
      have hdecode : (double x).encode.decode = .ok (HostValue.decodeNumber x) := rfl
      rw [hdecode, Except.ok.injEq, HostValue.decodeNumber_eq_double_iff]
      exact (and_iff_left nofun).symm
  | list items =>
      rw [encode, decode, encodeItems_eq]
      have hitems : HostValue.decodeItems (items.map encode) = .ok items ↔
          ∀ item ∈ items, item.encode.decode = .ok item := by
        rw [HostValue.decodeItems_eq_ok_iff, List.forall₂_map_left_iff, List.forall₂_same]
      refine Iff.trans ?_ (and_iff_right trivial).symm
      rw [members, ← hitems]
      cases HostValue.decodeItems _ <;> simp [Except.map]
  | map entries =>
      exact decode_encode_map hsorted
  | duration d =>
      refine iff_of_true ?_ ⟨trivial, nofun⟩
      have hpun : HostValue.pun? [(HostValue.nanosField, .bigint d.nanos),
          (HostValue.secondsField, .bigint d.seconds)] = none := rfl
      have hparts : HostValue.durationParts? [(HostValue.nanosField, .bigint d.nanos),
          (HostValue.secondsField, .bigint d.seconds)] = some (d.seconds, d.nanos) := rfl
      rw [encode, HostValue.ofDuration, decode, hpun]
      simp only [hparts, HostValue.duration?_parts]
  | function name arity =>
      refine iff_of_false ?_ nofun
      obtain ⟨count, hencode⟩ : ∃ count, (function name arity).encode =
          .record [("arity", count), ("function", .text name)] := ⟨_, rfl⟩
      have hpun : HostValue.pun? [("arity", count), ("function", .text name)] = none := rfl
      have hparts : HostValue.durationParts? [("arity", count), ("function", .text name)] =
          none := rfl
      rw [hencode, decode, hpun]
      simp only [hparts]
      cases HostValue.decodeFields _ <;> nofun
  | _ => exact iff_of_true rfl ⟨trivial, nofun⟩

/-- The values that are decoded from their encodings are those in which, at any depth, nothing is
taken for something else. -/
theorem decode_encode_eq_ok_iff {v : Value} (hsorted : v.WellFormed) :
    v.encode.decode = .ok v ↔ v.Throughout ComesBack := by
  induction v using induct with
  | step v ih =>
      rw [decode_encode_step hsorted.here, throughout_iff]
      exact and_congr_right fun _ => forall₂_congr fun m hm => ih m hm (hsorted.member hm)

/-- Seconds with a text as nanoseconds stay a map, with an integer they become a duration. -/
theorem decode_encode_seconds :
    let record (nanos : Value) := map [(.text "nsec", nanos), (.text "sec", .int 1)]
    (record (.text "0")).WellFormed ∧ (record (.int 0)).WellFormed ∧
      (record (.text "0")).Throughout ComesBack ∧
      (record (.int 0)).encode.decode ≠ .ok (record (.int 0)) := by
  intro record
  have hsorted (nanos : Value) (hnanos : nanos.WellFormed) : (record nanos).WellFormed := by
    have hkeys : MapKey.cmp (.text "nsec") (.text "sec") = .lt := by decide +kernel
    refine .intro (List.pairwise_pair.mpr hkeys) ?_
    exact List.forall_mem_cons.mpr ⟨hnanos, List.forall_mem_cons.mpr ⟨.intro trivial nofun, nofun⟩⟩
  have htext := hsorted (.text "0") (.intro trivial nofun)
  have hint := hsorted (.int 0) (.intro trivial nofun)
  refine ⟨htext, hint, (decode_encode_eq_ok_iff htext).mp rfl, ?_⟩
  rw [ne_eq, decode_encode_eq_ok_iff hint]
  intro h
  refine h.here.2.2 ⟨fun key => ?_, ?_⟩
  · simp [HostValue.secondsField, HostValue.nanosField, or_comm]
  · exact List.forall_mem_cons.mpr ⟨trivial, List.forall_mem_cons.mpr ⟨trivial, nofun⟩⟩

end Value

end EmbeddedExpr
