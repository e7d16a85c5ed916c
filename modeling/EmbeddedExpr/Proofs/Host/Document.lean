import EmbeddedExpr.Host.Document
import EmbeddedExpr.Proofs.Host.Members
import EmbeddedExpr.Proofs.Host.RoundTrip
import EmbeddedExpr.Proofs.Value.Entries

/-!
# Host values as documents and back

Every document comes back from its host value, since what a document becomes is written as it was
read (`HostValue.toJson_ofJson`).  In the other direction there are two obstacles: a document
cannot hold all host values (`HostValue.Portable`), and it has to keep the order of the fields, as
they are sorted when they are read (`fieldsCanonical_ascending`).  Without them a host value comes
back from its document (`HostValue.ofJson_toJson`).

So runtime values survive the way through a document if their encodings do and are sorted and
portable.  The first is a question about the codec alone, and the others follow from properties of
the value (`Value.encode_portable`): its seconds, nanoseconds and words fit into the whole numbers
of documents, and the fields of an encoded map ascend.
-/

namespace EmbeddedExpr

namespace HostValue

open Json (isCanonical allCanonical fieldsCanonical)

/-! ### Documents as host values -/

theorem fieldsCanonical_cons_iff {previous : Option String} {name : String} {value : Json}
    {rest : List (String × Json)} :
    fieldsCanonical previous ((name, value) :: rest) = true ↔
      (∀ earlier ∈ previous, compareText earlier name = .lt) ∧ isCanonical value = true ∧
        fieldsCanonical (some name) rest = true := by
  cases previous <;> simp [fieldsCanonical, and_assoc]

theorem fieldsCanonical_ascending {previous : Option String} {fields : List (String × Json)}
    (h : fieldsCanonical previous fields = true) :
    (∀ earlier ∈ previous, ∀ field ∈ fields, compareText earlier field.1 = .lt) ∧
      fields.Pairwise fun a b => compareText a.1 b.1 = .lt := by
  induction fields generalizing previous with
  | nil => exact ⟨fun _ _ => nofun, .nil⟩
  | cons field rest ih =>
      obtain ⟨hprevious, -, hrest⟩ := fieldsCanonical_cons_iff.mp h
      obtain ⟨hlater, hascending⟩ := ih hrest
      refine ⟨fun earlier hearlier => ?_, List.pairwise_cons.mpr ⟨hlater field.1 rfl, hascending⟩⟩
      have hlt := hprevious earlier hearlier
      exact List.forall_mem_cons.mpr ⟨hlt, fun later hmem =>
        Std.TransCmp.lt_trans hlt (hlater field.1 rfl later hmem)⟩

theorem ofJsonFields_eq (fields : List (String × Json)) :
    ofJsonFields fields = fields.map fun field => (field.1, ofJson field.2) := by
  induction fields with
  | nil => rfl
  | cons field rest ih => rw [ofJsonFields, ih, List.map_cons]

mutual

/-- A document comes back from its host value. -/
theorem toJson_ofJson {j : Json} (h : j.isCanonical = true) : (ofJson j).toJson = j := by
  cases j with
  | null | bool | text => rfl
  | number n =>
      cases n with
      | whole n hrange =>
          rw [ofJson, toJson, Json.ofInt?, dif_pos hrange]
          rfl
      | real x hfinite =>
          rw [ofJson, toJson, Json.ofDouble?, dif_pos hfinite]
          rfl
  | array items =>
      rw [ofJson, toJson, toJsonItems_ofJsonItems h]
  | object fields =>
      -- the fields are sorted when they become a record, but they already were
      have hascending : (ofJsonFields fields).Pairwise fun a b => compareText a.1 b.1 = .lt := by
        rw [ofJsonFields_eq]
        exact List.pairwise_map.mpr (fieldsCanonical_ascending h).2
      rw [ofJson, ofFields, Entries.ofList_eq_self hascending, toJson, toJsonFields_ofJsonFields h]

theorem toJsonItems_ofJsonItems {items : List Json} (h : allCanonical items = true) :
    toJsonItems (ofJsonItems items) = items := by
  cases items with
  | nil => rfl
  | cons item rest =>
      rw [allCanonical, Bool.and_eq_true] at h
      rw [ofJsonItems, toJsonItems, toJson_ofJson h.1, toJsonItems_ofJsonItems h.2]

theorem toJsonFields_ofJsonFields {previous : Option String} {fields : List (String × Json)}
    (h : fieldsCanonical previous fields = true) : toJsonFields (ofJsonFields fields) = fields := by
  cases fields with
  | nil => rfl
  | cons field rest =>
      obtain ⟨-, hvalue, hrest⟩ := fieldsCanonical_cons_iff.mp h
      rw [ofJsonFields, toJsonFields, toJson_ofJson hvalue, toJsonFields_ofJsonFields hrest]

end

/-! ### Host values as documents -/

/-- A document can hold the value as it is. -/
def Portable : HostValue → Prop
  | number x => x.isFinite = true
  | bigint n => Json.WholeRange n
  | bytes _ | date _ | function _ => False
  | _ => True

theorem ofJsonItems_toJsonItems {items : List HostValue}
    (h : ∀ item ∈ items, ofJson item.toJson = item) : ofJsonItems (toJsonItems items) = items := by
  induction items with
  | nil => rfl
  | cons item rest ih =>
      obtain ⟨hitem, hrest⟩ := List.forall_mem_cons.mp h
      rw [toJsonItems, ofJsonItems, hitem, ih hrest]

theorem ofJsonFields_toJsonFields {fields : List (String × HostValue)}
    (h : ∀ value ∈ fields.map Prod.snd, ofJson value.toJson = value) :
    ofJsonFields (toJsonFields fields) = fields := by
  induction fields with
  | nil => rfl
  | cons field rest ih =>
      obtain ⟨hfield, hrest⟩ := List.forall_mem_cons.mp h
      rw [toJsonFields, ofJsonFields, hfield, ih hrest]

/-- A value that a document can hold comes back from it. -/
theorem ofJson_toJson {h : HostValue} (hsorted : h.WellFormed) (hportable : h.Throughout Portable) :
    ofJson h.toJson = h := by
  induction h using induct with
  | step h ih =>
      have hhere := hportable.here
      have hmembers : ∀ m ∈ h.members, ofJson m.toJson = m := fun m hm =>
        ih m hm (hsorted.member hm) (hportable.member hm)
      cases h with
      | null | bool | text => rfl
      | number x =>
          have hfinite : x.isFinite = true := hhere
          rw [toJson, Json.ofDouble?, dif_pos hfinite]
          rfl
      | bigint n =>
          have hrange : Json.WholeRange n := hhere
          rw [toJson, Json.ofInt?, dif_pos hrange]
          rfl
      | array items =>
          have hitems : ofJsonItems (toJsonItems items) = items := ofJsonItems_toJsonItems hmembers
          rw [toJson, ofJson, hitems]
      | record fields =>
          have hfields : ofJsonFields (toJsonFields fields) = fields :=
            ofJsonFields_toJsonFields hmembers
          rw [toJson, ofJson, hfields, ofFields, Entries.ofList_eq_self hsorted.here]
      | bytes | date | function => exact hhere.elim

end HostValue

namespace Value

/-- A document can hold what the value is encoded as. -/
def Portable : Value → Prop
  | double x => x.isFinite = true
  | bytes _ | timestamp _ => False
  | _ => True

theorem wholeRange_toInt (i : Int64) : Json.WholeRange i.toInt := by
  have hlow := i.le_toInt
  have hhigh := i.toInt_lt
  unfold Json.WholeRange
  omega

theorem wholeRange_parts (d : Time.Duration) :
    Json.WholeRange d.seconds ∧ Json.WholeRange d.nanos := by
  obtain ⟨hlow, hhigh⟩ := d.inRange
  have hnanos := Int.natAbs_tmod d.total Time.nanosPerSecond
  have hbound := Nat.mod_lt d.total.natAbs (by decide : 0 < Time.nanosPerSecond.natAbs)
  unfold Json.WholeRange Time.Duration.seconds Time.Duration.nanos
  unfold Time.nanosPerSecond at *
  omega

/-- What a value that comes back is encoded as can be held by a document if the value can. -/
theorem encode_portable {v : Value} (hsorted : v.WellFormed) (hback : v.encode.decode = .ok v)
    (hportable : v.Throughout Portable) :
    v.encode.WellFormed ∧ v.encode.Throughout HostValue.Portable := by
  induction v using induct with
  | step v ih =>
      obtain ⟨hcomes, hmembersBack⟩ := (decode_encode_step hsorted.here).mp hback
      have hhere := hportable.here
      have hmembers : ∀ m ∈ v.members,
          m.encode.WellFormed ∧ m.encode.Throughout HostValue.Portable := fun m hm =>
        ih m hm (hsorted.member hm) (hmembersBack m hm) (hportable.member hm)
      cases v with
      | null | bool | text => exact ⟨.leaf trivial rfl, .leaf trivial rfl⟩
      | int i => exact ⟨.leaf trivial rfl, .leaf (wholeRange_toInt i) rfl⟩
      | double x => exact ⟨.leaf trivial rfl, .leaf hhere rfl⟩
      | list items =>
          rw [encode, encodeItems_eq]
          exact ⟨.intro trivial (List.forall_mem_map.mpr fun item hitem => (hmembers item hitem).1),
            .intro trivial (List.forall_mem_map.mpr fun item hitem => (hmembers item hitem).2)⟩
      | map entries =>
          -- all keys are texts, so that no two of them are encoded as the same name
          have hfields := ofFields_encodeEntries hsorted.here hcomes.1
          have hascending : (entries.map fun entry => (entry.1.display, entry.2.encode)).Pairwise
              fun a b => compareText a.1 b.1 = .lt := by
            rw [← HostValue.record.inj hfields]
            exact Entries.ofList_ascending _
          rw [encode, hfields]
          constructor <;> refine .intro ?_ (List.forall_mem_map.mpr (List.forall_mem_map.mpr ?_))
          · exact hascending
          · exact fun entry hentry => (hmembers entry.2 (List.mem_map_of_mem hentry)).1
          · exact trivial
          · exact fun entry hentry => (hmembers entry.2 (List.mem_map_of_mem hentry)).2
      | duration d =>
          obtain ⟨hseconds, hnanos⟩ := wholeRange_parts d
          have hnames : compareText HostValue.nanosField HostValue.secondsField = .lt := by
            decide +kernel
          exact ⟨.intro (List.pairwise_pair.mpr hnames) (List.forall_mem_cons.mpr
              ⟨.leaf trivial rfl, List.forall_mem_singleton.mpr (.leaf trivial rfl)⟩),
            .intro trivial (List.forall_mem_cons.mpr
              ⟨.leaf hnanos rfl, List.forall_mem_singleton.mpr (.leaf hseconds rfl)⟩)⟩
      | uint | function => exact hcomes.elim
      | bytes | timestamp => exact hhere.elim

/-- Nothing is lost between documents and host values, nor between runtime values and documents
where the host knows the value and a document can hold it: a document comes back from its host
value, and a value that is decoded from its encoding is also decoded when the encoding has been a
document in between. -/
theorem document_lossless :
    (∀ j : Json, j.isCanonical = true → (HostValue.ofJson j).toJson = j) ∧
      ∀ v : Value, v.WellFormed → v.encode.decode = .ok v → v.Throughout Portable →
        (HostValue.ofJson v.encode.toJson).decode = .ok v := by
  refine ⟨fun j hcanonical => HostValue.toJson_ofJson hcanonical, ?_⟩
  intro v hsorted hback hportable
  obtain ⟨hencoded, hheld⟩ := encode_portable hsorted hback hportable
  rw [HostValue.ofJson_toJson hencoded hheld, hback]

/-- The greatest unsigned word and one half in a document, and a negative duration beside the
least integer in a value. -/
theorem document_lossless_extremes :
    let half : Double := Float.ofBits 0x3fe0000000000000
    let j := Json.object [("half", .number (.real half (by decide +kernel))),
      ("word", .array [.number (.whole 18446744073709551615 (by decide))])]
    let v := map [(.text "least", .int (-9223372036854775808)),
      (.text "wait", .list [.duration ⟨-1500000000, by decide⟩, .double half])]
    j.isCanonical = true ∧ (HostValue.ofJson j).toJson = j ∧
      v.encode.decode = .ok v ∧ (HostValue.ofJson v.encode.toJson).decode = .ok v := by
  intro half j v
  have hcanonical : j.isCanonical = true := by decide +kernel
  have hthroughout (good : Value → Prop) (hmap : good v) (hlist : ∀ items, good (.list items))
      (hint : ∀ i, good (.int i)) (hduration : ∀ d, good (.duration d))
      (hdouble : good (.double half)) : v.Throughout good := by
    refine .intro hmap (List.forall_mem_cons.mpr ⟨.intro (hint _) nofun,
      List.forall_mem_singleton.mpr (.intro (hlist _) ?_)⟩)
    exact List.forall_mem_cons.mpr ⟨.intro (hduration _) nofun,
      List.forall_mem_singleton.mpr (.intro hdouble nofun)⟩
  have hsorted : v.WellFormed := hthroughout Sorted (List.pairwise_pair.mpr (by decide +kernel))
    (fun _ => trivial) (fun _ => trivial) (fun _ => trivial) trivial
  have hportable : v.Throughout Portable := hthroughout Portable trivial
    (fun _ => trivial) (fun _ => trivial) (fun _ => trivial)
    (by decide +kernel : half.isFinite = true)
  have hhalf : (Value.double half).ComesBack := by
    rintro ⟨n, hvalue, -⟩
    exact absurd (Double.isIntegral_and_truncate_iff.mpr hvalue).1 (by decide +kernel)
  have hlist {items : List Value} (h : ∀ item ∈ items, item.encode.decode = .ok item) :
      (list items).encode.decode = .ok (list items) :=
    (decode_encode_step (v := .list items) trivial).mpr ⟨trivial, h⟩
  have hleaf {leaf : Value} (hsorted : leaf.Sorted) (h : leaf.ComesBack)
      (hnone : leaf.members = []) : leaf.encode.decode = .ok leaf :=
    (decode_encode_step hsorted).mpr ⟨h, by simp [hnone]⟩
  have hback : v.encode.decode = .ok v := by
    refine (decode_encode_step hsorted.here).mpr ⟨⟨?_, ?_, ?_⟩, ?_⟩
    · exact List.forall_mem_cons.mpr ⟨⟨_, rfl⟩, List.forall_mem_singleton.mpr ⟨_, rfl⟩⟩
    · exact fun pun => by cases pun <;> decide
    · exact fun hstates => absurd (hstates.2 _ (List.mem_cons_of_mem _ List.mem_cons_self)) id
    · exact List.forall_mem_cons.mpr ⟨hleaf trivial trivial rfl, List.forall_mem_singleton.mpr
        (hlist (List.forall_mem_cons.mpr ⟨hleaf trivial trivial rfl,
          List.forall_mem_singleton.mpr (hleaf trivial hhalf rfl)⟩))⟩
  exact ⟨hcanonical, document_lossless.1 j hcanonical, hback,
    document_lossless.2 v hsorted hback hportable⟩

end Value

end EmbeddedExpr
