import EmbeddedExpr.Proofs.Host.Members
import EmbeddedExpr.Proofs.Host.RoundTrip

/-!
# What decoding and encoding leave of a host value

Decoding guesses the kinds of numbers and durations, and encoding writes them in one way only.
What comes out of both is the normal form of what went in (`normalize`): a number that is a signed
word has become a big integer, and a record that states a duration has the seconds and nanoseconds
of one sign that the duration is written with.  Nothing else changes, unless a field pins a kind
(`Unpinned`).

The normal form is defined without decoding.  `encode_of_decode` says that it is what is encoded,
and `decode_normalize` that it is decoded to the same value again; both go by induction on the
host value, whose members are those of the decoded value (`decode_array`, `decode_record`).  For
the second, normalizing must not turn a record into one that states a duration, or the other way
round: a value is an integer just if its normal form is (`integer?_normalize`).
-/

namespace EmbeddedExpr

/-! ### Normal forms -/

namespace Double

/-- The integer that a double is, if it is one. -/
def toInt? (x : Double) : Option ℤ := if x.isIntegral then some x.truncate else none

theorem toInt?_eq_some_iff {x : Double} {n : ℤ} : x.toInt? = some n ↔ x.value = .ofRat n := by
  rw [← isIntegral_and_truncate_iff, toInt?, Option.ite_none_right_eq_some, Option.some_inj]

end Double

namespace HostValue

/-- The integer that a big integer is, or a number below `10 ^ 30`. -/
def integer? : HostValue → Option ℤ
  | bigint n => some n
  | number x => x.toInt?.filter fun n => n.natAbs < 10 ^ 30
  | _ => none

/-- The nanoseconds that seconds and nanoseconds are together, where there are no other fields and
both are integers. -/
def statedNanos? : List (String × HostValue) → Option ℤ
  | [(first, nanos), (second, seconds)] =>
    if first = nanosField ∧ second = secondsField then do
      some ((← seconds.integer?) * 1000000000 + (← nanos.integer?))
    else none
  | _ => none

mutual

/-- The host value with a big integer in place of each number that is a signed word, and with the
seconds and nanoseconds of each duration made unique. -/
def normalize : HostValue → HostValue
  | number x =>
    match x.toInt?.filter fun n => -0x8000000000000000 ≤ n ∧ n < 0x8000000000000000 with
    | some n => bigint n
    | none => number x
  | array items => array (normalizeItems items)
  | record fields =>
    match statedNanos? fields with
    | some total => ofDuration (total.tdiv 1000000000) (total.tmod 1000000000)
    | none => record (normalizeFields fields)
  | h => h

def normalizeItems : List HostValue → List HostValue
  | [] => []
  | item :: rest => normalize item :: normalizeItems rest

def normalizeFields : List (String × HostValue) → List (String × HostValue)
  | [] => []
  | (name, value) :: rest => (name, normalize value) :: normalizeFields rest

end

theorem normalizeItems_eq (items : List HostValue) :
    normalizeItems items = items.map normalize := by
  induction items with
  | nil => rfl
  | cons item rest ih => rw [normalizeItems, ih, List.map_cons]

theorem normalizeFields_eq (fields : List (String × HostValue)) :
    normalizeFields fields = fields.map fun field => (field.1, field.2.normalize) := by
  induction fields with
  | nil => rfl
  | cons field rest ih => rw [normalizeFields, ih, List.map_cons]

/-- No field pins a kind. -/
def Unpinned : HostValue → Prop
  | record fields => ∀ pun : Pun, pun.field ∉ fields.map Prod.fst
  | _ => True

/-! ### Records of durations -/

theorem whole?_eq_integer? (h : HostValue) : whole? h = h.integer? := by
  cases h with
  | number x =>
      by_cases hintegral : x.isIntegral = true
      · have hvalue : x.toInt? = some x.truncate := if_pos hintegral
        -- the bound that the reader compares with is the double next to `10 ^ 30`
        have hbound := Double.natAbs_lt_wholeBound_iff (Double.toInt?_eq_some_iff.mp hvalue)
        simp only [whole?, integer?, hvalue, hintegral, true_and, Option.filter_some,
          decide_eq_true_eq, hbound]
      · have hvalue : x.toInt? = none := if_neg hintegral
        simp [whole?, integer?, hvalue, hintegral]
  | _ => rfl

variable {fields : List (String × HostValue)}

/-- In the order of the names, the nanoseconds are the first of the two fields. -/
theorem statedNanos?_eq (hsorted : (record fields).Sorted) :
    statedNanos? fields = (durationParts? fields).map fun parts =>
      parts.1 * 1000000000 + parts.2 := by
  match fields with
  | [] | [_] | _ :: _ :: _ :: _ => rfl
  | [(first, a), (second, b)] =>
      have hlt : compareText first second = .lt :=
        (List.pairwise_cons.mp hsorted).1 (second, b) List.mem_cons_self
      have hne : nanosField ≠ secondsField := by decide
      unfold statedNanos? durationParts?
      simp only [List.length_cons, List.length_nil, whole?_eq_integer?, Entries.get?, if_true]
      by_cases hfirst : first = nanosField
      · subst hfirst
        by_cases hsecond : second = secondsField
        · subst hsecond
          cases hb : b.integer? <;> cases ha : a.integer? <;> simp [hne, ha, hb]
        · simp [hne, hsecond]
      · by_cases hsecond : second = nanosField
        · -- the seconds would have to stand before the nanoseconds
          have hseconds : first ≠ secondsField := by
            rintro rfl
            rw [hsecond] at hlt
            exact absurd hlt (by decide +kernel)
          subst hsecond
          simp [hfirst, hseconds, hne]
        · simp [hfirst, hsecond]

/-! ### Encoding what was decoded -/

/-- A record states what the duration that it is decoded to counts. -/
theorem total_of_duration? {seconds nanos : Int} {d : Time.Duration}
    (h : duration? seconds nanos = some d) : d.total = seconds * 1000000000 + nanos := by
  unfold duration? Number.int128? at h
  split at h
  · exact Time.Duration.ofNanos?_eq_some_iff.mp h
  · cases h

theorem pun?_eq_none (h : (record fields).Unpinned) : pun? fields = none := by
  have hnone (pun : Pun) : Entries.get? fields pun.field = none := by
    rw [← Option.not_isSome_iff_eq_none, Entries.get?_isSome_iff]
    exact h pun
  simp [pun?, hnone]

theorem decode_array {items : List HostValue} {v : Value} (h : (array items).decode = .ok v) :
    ∃ values, List.Forall₂ (fun item value => item ∈ items ∧ item.decode = .ok value) items values ∧
      v = .list values := by
  rw [decode] at h
  cases hvalues : decodeItems items with
  | error e =>
      rw [hvalues] at h
      cases h
  | ok values =>
      rw [hvalues] at h
      cases h
      exact ⟨values, (List.forall₂_and_left _ _).mpr
        ⟨fun _ hitem => hitem, decodeItems_eq_ok_iff.mp hvalues⟩, rfl⟩

/-- A record without a pinned kind is a duration or a map. -/
theorem decode_record {v : Value} (hplain : (record fields).Unpinned)
    (h : (record fields).decode = .ok v) :
    (∃ parts d, durationParts? fields = some parts ∧ duration? parts.1 parts.2 = some d ∧
      v = .duration d) ∨
    durationParts? fields = none ∧ ∃ entries,
      List.Forall₂ (fun field entry => field ∈ fields ∧ entry.1 = .text field.1 ∧
        field.2.decode = .ok entry.2) fields entries ∧ v = .map entries := by
  rw [decode, pun?_eq_none hplain] at h
  cases hparts : durationParts? fields with
  | some parts =>
      obtain ⟨seconds, nanos⟩ := parts
      rw [hparts] at h
      simp only at h
      split at h
      · rename_i d hd
        cases h
        exact .inl ⟨_, d, rfl, hd, rfl⟩
      · cases h
  | none =>
      rw [hparts] at h
      simp only at h
      cases hentries : decodeFields fields with
      | error e =>
          rw [hentries] at h
          cases h
      | ok entries =>
          rw [hentries] at h
          cases h
          exact .inr ⟨rfl, entries, (List.forall₂_and_left _ _).mpr
            ⟨fun _ hfield => hfield, decodeFields_eq_ok_iff.mp hentries⟩, rfl⟩

theorem encode_decodeNumber (x : Double) : (decodeNumber x).encode = (number x).normalize := by
  unfold decodeNumber normalize Double.toInt?
  by_cases hintegral : x.isIntegral = true
  · simp only [hintegral, if_true, Option.filter_some, decide_eq_true_eq]
    cases hword : Number.int64? x.truncate with
    | some i =>
        have hvalue := Number.int64?_eq_some_iff.mp hword
        have hlow := i.le_toInt
        have hhigh := i.toInt_lt
        rw [if_pos (by omega), ← hvalue]
        rfl
    | none =>
        unfold Number.int64? at hword
        split at hword
        · cases hword
        · rename_i hrange
          rw [if_neg hrange]
          rfl
  · simp only [hintegral]
    rfl

/-- A host value without pinned kinds is encoded again as its normal form. -/
theorem encode_of_decode {h : HostValue} {v : Value} (hsorted : h.WellFormed)
    (hplain : h.Throughout Unpinned) (hdecode : h.decode = .ok v) : v.encode = h.normalize := by
  induction h using induct generalizing v with
  | step h ih =>
      cases h with
      | number x =>
          cases hdecode
          exact encode_decodeNumber x
      | bigint n =>
          -- only a signed word is decoded, and that is encoded as it was
          rw [decode] at hdecode
          split at hdecode
          · rename_i i hi
            cases hdecode
            rw [Value.encode, Number.int64?_eq_some_iff.mp hi]
            rfl
          · cases hdecode
      | array items =>
          obtain ⟨values, hvalues, rfl⟩ := decode_array hdecode
          rw [Value.encode, normalize, Value.encodeItems_eq, normalizeItems_eq, array.injEq,
            ← List.forall₂_eq_eq_eq, List.forall₂_map_left_iff, List.forall₂_map_right_iff]
          exact (hvalues.imp fun item value hitem =>
            ih item hitem.1 (hsorted.member hitem.1) (hplain.member hitem.1) hitem.2).flip
      | record fields =>
          rw [normalize, statedNanos?_eq hsorted.here]
          obtain ⟨parts, d, hparts, hd, rfl⟩ | ⟨hparts, entries, hentries, rfl⟩ :=
            decode_record hplain.here hdecode
          · rw [hparts, Option.map_some, ← total_of_duration? hd]
            rfl
          · -- the keys are the names of the fields, so that the fields of the encoding ascend too
            have hfields : Value.encodeEntries entries = normalizeFields fields := by
              rw [Value.encodeEntries_eq, normalizeFields_eq, ← List.forall₂_eq_eq_eq,
                List.forall₂_map_left_iff, List.forall₂_map_right_iff]
              refine (hentries.imp fun field entry hfield => ?_).flip
              have hmember : field.2 ∈ (record fields).members := List.mem_map_of_mem hfield.1
              show (entry.1.display, entry.2.encode) = (field.1, field.2.normalize)
              rw [hfield.2.1, ih field.2 hmember (hsorted.member hmember) (hplain.member hmember)
                hfield.2.2]
              rfl
            have hascending : (normalizeFields fields).Pairwise
                fun a b => compareText a.1 b.1 = .lt := by
              rw [normalizeFields_eq]
              exact List.pairwise_map.mpr hsorted.here
            rw [hparts, Option.map_none, Value.encode, hfields, ofFields,
              Entries.ofList_eq_self hascending]
      | function f => cases hdecode
      | _ =>
          cases hdecode
          rfl

/-! ### Decoding a normal form -/

theorem integer?_normalize (h : HostValue) : h.normalize.integer? = h.integer? := by
  cases h with
  | number x =>
      rw [normalize]
      cases hword : x.toInt?.filter fun n => -0x8000000000000000 ≤ n ∧ n < 0x8000000000000000 with
      | none => rfl
      | some n =>
          obtain ⟨hvalue, hrange⟩ := Option.filter_eq_some_iff.mp hword
          rw [decide_eq_true_iff] at hrange
          have hbound : n.natAbs < 10 ^ 30 := by omega
          rw [integer?, integer?, hvalue, Option.filter_some, if_pos (by simpa using hbound)]
  | record fields =>
      rw [normalize]
      split <;> rfl
  | _ => rfl

theorem get?_normalizeFields (name : String) :
    Entries.get? (normalizeFields fields) name = (Entries.get? fields name).map normalize := by
  induction fields with
  | nil => rfl
  | cons field rest ih =>
      rw [normalizeFields, Entries.get?, Entries.get?, ih]
      split <;> rfl

theorem durationParts?_normalizeFields :
    durationParts? (normalizeFields fields) = durationParts? fields := by
  have hlength : (normalizeFields fields).length = fields.length := by
    rw [normalizeFields_eq, List.length_map]
  unfold durationParts?
  rw [hlength, get?_normalizeFields, get?_normalizeFields]
  cases Entries.get? fields secondsField <;> cases Entries.get? fields nanosField <;>
    simp [whole?_eq_integer?, integer?_normalize]

theorem unpinned_normalizeFields (h : (record fields).Unpinned) :
    (record (normalizeFields fields)).Unpinned := by
  have hnames : (normalizeFields fields).map Prod.fst = fields.map Prod.fst := by
    rw [normalizeFields_eq, List.map_map]
    rfl
  show ∀ pun : Pun, pun.field ∉ (normalizeFields fields).map Prod.fst
  rwa [hnames]

theorem decode_encode_decodeNumber (x : Double) :
    (decodeNumber x).encode.decode = .ok (decodeNumber x) := by
  have hkinds : decodeNumber x = .double x ∨ ∃ i, decodeNumber x = .int i := by
    unfold decodeNumber
    split
    · exact .inr ⟨_, rfl⟩
    · exact .inl rfl
  obtain hdouble | ⟨i, hint⟩ := hkinds
  · have hdecode : (Value.double x).encode.decode = .ok (decodeNumber x) := rfl
    rw [hdouble] at hdecode ⊢
    exact hdecode
  · rw [hint]
    exact (Value.decode_encode_step (v := .int i) trivial).mpr ⟨trivial, nofun⟩

theorem decode_ofDuration (d : Time.Duration) :
    (ofDuration d.seconds d.nanos).decode = .ok (.duration d) :=
  (Value.decode_encode_step (v := .duration d) trivial).mpr ⟨trivial, nofun⟩

/-- The normal form is decoded to the same value. -/
theorem decode_normalize {h : HostValue} {v : Value} (hsorted : h.WellFormed)
    (hplain : h.Throughout Unpinned) (hdecode : h.decode = .ok v) :
    h.normalize.decode = .ok v := by
  induction h using induct generalizing v with
  | step h ih =>
      cases h with
      | number x =>
          cases hdecode
          rw [← encode_decodeNumber, decode_encode_decodeNumber]
      | array items =>
          obtain ⟨values, hvalues, rfl⟩ := decode_array hdecode
          have hitems : decodeItems (items.map normalize) = .ok values := by
            rw [decodeItems_eq_ok_iff, List.forall₂_map_left_iff]
            exact hvalues.imp fun item value hitem =>
              ih item hitem.1 (hsorted.member hitem.1) (hplain.member hitem.1) hitem.2
          rw [normalize, normalizeItems_eq, decode, hitems]
          rfl
      | record fields =>
          rw [normalize, statedNanos?_eq hsorted.here]
          obtain ⟨parts, d, hparts, hd, rfl⟩ | ⟨hparts, entries, hentries, rfl⟩ :=
            decode_record hplain.here hdecode
          · rw [hparts, Option.map_some, ← total_of_duration? hd]
            exact decode_ofDuration d
          · -- normalized fields state a duration just if the fields did, so this is a map again
            have hfields : decodeFields (normalizeFields fields) = .ok entries := by
              rw [normalizeFields_eq, decodeFields_eq_ok_iff, List.forall₂_map_left_iff]
              refine hentries.imp fun field entry hfield => ⟨hfield.2.1, ?_⟩
              have hmember : field.2 ∈ (record fields).members := List.mem_map_of_mem hfield.1
              exact ih field.2 hmember (hsorted.member hmember) (hplain.member hmember) hfield.2.2
            rw [hparts, Option.map_none]
            exact decode_record_eq_map_iff.mpr
              ⟨pun?_eq_none (unpinned_normalizeFields hplain.here),
                durationParts?_normalizeFields.trans hparts, hfields⟩
      | _ => exact hdecode

/-- A decoded value is encoded as the normal form of what it was decoded from, where no kinds are
pinned, so that it comes back from its encoding. -/
theorem encode_eq_normalize {h : HostValue} {v : Value} (hsorted : h.WellFormed)
    (hplain : h.Throughout Unpinned) (hdecode : h.decode = .ok v) :
    v.encode = h.normalize ∧ v.encode.decode = .ok v := by
  have hencode := encode_of_decode hsorted hplain hdecode
  refine ⟨hencode, ?_⟩
  rw [hencode]
  exact decode_normalize hsorted hplain hdecode

/-- The number two, and half a second more than minus two seconds. -/
theorem encode_eq_normalize_pair :
    let two : Double := Float.ofBits 0x4000000000000000
    let minusTwo : Double := Float.ofBits 0xc000000000000000
    let wait := [(nanosField, bigint 500000000), (secondsField, number minusTwo)]
    let h := array [number two, record wait]
    let v := Value.list [.int 2, .duration ⟨-1500000000, by decide⟩]
    h.WellFormed ∧ h.Throughout Unpinned ∧ h.decode = .ok v ∧
      h.normalize = array [bigint 2, ofDuration (-1) (-500000000)] ∧
      v.encode = h.normalize ∧ v.encode.decode = .ok v := by
  intro two minusTwo wait h v
  have hthroughout (good : HostValue → Prop) (harray : good h) (hrecord : good (record wait))
      (hbigint : ∀ n, good (bigint n)) (hnumber : ∀ x, good (number x)) : h.Throughout good := by
    have hwait : (record wait).Throughout good := .intro hrecord <|
      List.forall_mem_cons.mpr ⟨.intro (hbigint _) nofun,
        List.forall_mem_singleton.mpr (.intro (hnumber _) nofun)⟩
    exact .intro harray <| List.forall_mem_cons.mpr ⟨.intro (hnumber two) nofun,
      List.forall_mem_singleton.mpr hwait⟩
  have hsorted : h.WellFormed := hthroughout Sorted trivial
    (List.pairwise_pair.mpr (by decide +kernel)) (fun _ => trivial) fun _ => trivial
  have hplain : h.Throughout Unpinned := hthroughout Unpinned trivial
    (fun pun => by cases pun <;> decide) (fun _ => trivial) fun _ => trivial
  have htwo : two.isIntegral = true ∧ two.truncate = 2 := by decide +kernel
  have hparts : durationParts? wait = some (-2, 500000000) := by decide +kernel
  have htotal : statedNanos? wait = some (-1500000000) := by decide +kernel
  have hdecode : h.decode = .ok v := by
    simp only [h, decode, decodeItems, decodeNumber, htwo, hparts]
    rfl
  have hnormal : h.normalize = array [bigint 2, ofDuration (-1) (-500000000)] := by
    simp only [h, normalize, normalizeItems, Double.toInt?, htwo, htotal, if_true]
    rfl
  exact ⟨hsorted, hplain, hdecode, hnormal, encode_eq_normalize hsorted hplain hdecode⟩

end HostValue

end EmbeddedExpr
