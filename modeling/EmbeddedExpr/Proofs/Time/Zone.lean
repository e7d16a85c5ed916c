import EmbeddedExpr.Builtin.Table
import EmbeddedExpr.Proofs.Number.Numeral
import EmbeddedExpr.Proofs.Time.Quantities

/-!
# What the name of a zone denotes

A zone is named in letters or by an offset, which is spelled as a mark, hours, a colon and minutes
(`Spelling`).  Hours and minutes take two characters each, but they are read as integers, so that a
sign may take the place of the first digit (`Field`).  The texts that are read are the three names
and the spellings with minutes below 60 whose offset is less than a day (`ofText?_eq_some_iff`).

Where no field has a sign of its own, this is the form `±HH:MM` with hours up to 23 and minutes up
to 59 (`Spelling.accepted_iff`), and nothing else than that is meant by a zone (`Names`).  So a text
is read as it should be unless it has such a sign and is read all the same
(`zones_exact_unless_signed`).
-/

namespace EmbeddedExpr

namespace Time.Zone

open Duration (Sign)
open Number (AllDigits isDigit numeral)

/-! ### Integers with a sign -/

theorem readInt?_signed {lo hi : ℤ} (hlo : lo < 0) (sign : Sign) {digits : List Char}
    (hne : digits ≠ []) (hdigits : AllDigits digits) :
    Number.readInt? lo hi (sign.text ++ digits) =
      (some (sign.apply (numeral 10 digits))).filter fun i => decide (lo ≤ i ∧ i < hi) := by
  have hread := Number.readNat?_eq_some_iff.mpr ⟨hne, hdigits, rfl⟩
  refine congrArg (Option.filter _) ?_
  cases sign with
  | plus => simp only [Sign.text, List.cons_append, List.nil_append, hread]; rfl
  | minus => simp only [Sign.text, List.cons_append, List.nil_append, hread, if_pos hlo]; rfl
  | none =>
      simp only [Sign.text, List.nil_append]
      split
      · exact absurd (hdigits '+' List.mem_cons_self) (by decide)
      · exact absurd (hdigits '-' List.mem_cons_self) (by decide)
      · rw [hread]
        rfl

/-- A text is read as an integer if it is a run of digits behind at most one sign, and then as what
the digits denote, with the sign. -/
theorem readInt?_eq_some_iff {lo hi i : ℤ} (hlo : lo < 0) {text : List Char} :
    Number.readInt? lo hi text = some i ↔ (lo ≤ i ∧ i < hi) ∧ ∃ (sign : Sign) (digits : List Char),
      sign.text ++ digits = text ∧ digits ≠ [] ∧ AllDigits digits ∧
        sign.apply (numeral 10 digits) = i := by
  constructor
  · intro h
    obtain ⟨hread, hrange⟩ := Option.filter_eq_some_iff.mp h
    refine ⟨decide_eq_true_iff.mp hrange, ?_⟩
    have hspelled (sign : Sign) {run : List Char} {m : ℕ} (hm : Number.readNat? run = some m) :
        ∃ (sign' : Sign) (digits : List Char), sign'.text ++ digits = sign.text ++ run ∧
          digits ≠ [] ∧ AllDigits digits ∧ sign'.apply (numeral 10 digits) = sign.apply m := by
      obtain ⟨hne, hdigits, rfl⟩ := Number.readNat?_eq_some_iff.mp hm
      exact ⟨sign, run, rfl, hne, hdigits, rfl⟩
    split at hread
    · obtain ⟨m, hm, rfl⟩ := Option.map_eq_some_iff.mp hread
      exact hspelled .plus hm
    · rename_i run
      rw [if_pos hlo] at hread
      cases hm : Number.readNat? run with
      | none => rw [hm] at hread; cases hread
      | some m =>
          rw [hm] at hread
          cases hread
          exact hspelled .minus hm
    · obtain ⟨m, hm, rfl⟩ := Option.map_eq_some_iff.mp hread
      exact hspelled .none hm
  · rintro ⟨hrange, sign, digits, rfl, hne, hdigits, rfl⟩
    rw [readInt?_signed hlo sign hne hdigits, Option.filter_some, if_pos (decide_eq_true hrange)]

/-! ### Fields -/

/-- A field as it is written: two characters, digits but for a sign in front. -/
structure Field where
  sign : Sign
  digits : List Char
  allDigits : AllDigits digits
  hasDigit : digits ≠ []
  width : (sign.text ++ digits).length = 2

namespace Field

def text (f : Field) : List Char := f.sign.text ++ f.digits

/-- The integer that the field is read as. -/
def value (f : Field) : ℤ := f.sign.apply (numeral 10 f.digits)

/-- Both characters are digits. -/
def Unsigned (f : Field) : Prop := AllDigits f.text

variable {f : Field}

theorem natAbs_value_lt (f : Field) : f.value.natAbs < 100 := by
  have hdigits : numeral 10 f.digits < 10 ^ f.digits.length := Number.numeral_lt f.allDigits
  have hwidth : 10 ^ f.digits.length ≤ 10 ^ 2 := by
    have hlength := f.width
    rw [List.length_append] at hlength
    exact Nat.pow_le_pow_right (by decide) (by omega)
  have habs : f.value.natAbs = numeral 10 f.digits := by
    cases hsign : f.sign <;> simp [value, hsign, Sign.apply]
  omega

theorem nonneg_of_unsigned (h : f.Unsigned) : 0 ≤ f.value := by
  cases hsign : f.sign with
  | minus =>
      have hmem : '-' ∈ f.text := by simp [text, hsign, Sign.text]
      exact absurd (h _ hmem) (by decide)
  | _ => simp [value, hsign, Sign.apply]

theorem colon_not_mem (f : Field) : ':' ∉ f.text := by
  have hsign : ':' ∉ f.sign.text := by cases f.sign <;> decide
  exact List.not_mem_append hsign fun hmem => absurd (f.allDigits _ hmem) (by decide)

end Field

theorem field?_eq_some_iff {text : List Char} {n : ℤ} :
    field? text = some n ↔ ∃ f : Field, f.text = text ∧ f.value = n := by
  constructor
  · intro h
    unfold field? at h
    split at h
    · rename_i hwidth
      obtain ⟨-, sign, digits, rfl, hne, hdigits, hvalue⟩ := (readInt?_eq_some_iff (by decide)).mp h
      exact ⟨⟨sign, digits, hdigits, hne, hwidth⟩, rfl, hvalue⟩
    · cases h
  · rintro ⟨f, rfl, rfl⟩
    have hlt := f.natAbs_value_lt
    have hwidth : f.text.length = 2 := f.width
    rw [field?, if_pos hwidth]
    exact (readInt?_eq_some_iff (by decide)).mpr
      ⟨by omega, f.sign, f.digits, rfl, f.hasDigit, f.allDigits, rfl⟩

/-! ### Offsets -/

/-- An offset as it is written: a mark, hours, a colon and minutes. -/
structure Spelling where
  /-- The mark is a minus. -/
  west : Bool
  hours : Field
  minutes : Field

namespace Spelling

def text (s : Spelling) : List Char :=
  (if s.west then '-' else '+') :: (s.hours.text ++ ':' :: s.minutes.text)

/-- The seconds that the offset is read as. -/
def offset (s : Spelling) : ℤ :=
  (if s.west then -1 else 1) * (s.hours.value * 3600 + s.minutes.value * 60)

/-- The form `±HH:MM` with four digits. -/
def Unsigned (s : Spelling) : Prop := s.hours.Unsigned ∧ s.minutes.Unsigned

/-- The offset is read. -/
def Accepted (s : Spelling) : Prop :=
  s.minutes.value < 60 ∧ -86400 < s.offset ∧ s.offset < 86400

variable {s s' : Spelling}

/-- With four digits the offset is less than a day just up to 23 hours. -/
theorem accepted_iff (h : s.Unsigned) :
    s.Accepted ↔ s.hours.value ≤ 23 ∧ s.minutes.value ≤ 59 := by
  have hhours := Field.nonneg_of_unsigned h.1
  have hminutes := Field.nonneg_of_unsigned h.2
  unfold Accepted offset
  cases s.west <;> simp only [Bool.false_eq_true, if_false, if_true] <;> omega

theorem fields_text (s : Spelling) :
    (s.hours.text ++ ':' :: s.minutes.text).takeWhile (· != ':') = s.hours.text ∧
      (s.hours.text ++ ':' :: s.minutes.text).dropWhile (· != ':') = ':' :: s.minutes.text := by
  refine Text.takeWhile_append_stop (fun c hc => ?_) (by simp)
  rw [bne_iff_ne]
  rintro rfl
  exact s.hours.colon_not_mem hc

theorem unsigned_of_text_eq (htext : s.text = s'.text) (h : s'.Unsigned) : s.Unsigned := by
  have hfields := (List.cons.inj htext).2
  have hhours : s.hours.text = s'.hours.text := by
    rw [← s.fields_text.1, hfields, s'.fields_text.1]
  have hminutes : ':' :: s.minutes.text = ':' :: s'.minutes.text := by
    rw [← s.fields_text.2, hfields, s'.fields_text.2]
  unfold Unsigned Field.Unsigned at h ⊢
  rwa [hhours, (List.cons.inj hminutes).2]

end Spelling

/-- The names of the zone without an offset. -/
def utcNames : List (List Char) := [['U', 'T', 'C'], ['Z'], ['z']]

theorem Spelling.text_not_mem_utcNames (s : Spelling) : s.text ∉ utcNames := by
  cases hwest : s.west <;> simp [text, utcNames, hwest]

theorem ofOffset?_eq_some_iff {sign hours minutes : ℤ} {z : Zone} :
    ofOffset? sign hours minutes = some z ↔
      minutes < 60 ∧ z.offset = sign * (hours * 3600 + minutes * 60) := by
  obtain ⟨offset, hinDay⟩ := z
  simp only [ofOffset?]
  split
  · rename_i hoffset
    simp only [Option.some.injEq, mk.injEq, hoffset.1, true_and]
    exact eq_comm
  · rename_i hoffset
    refine iff_of_false nofun ?_
    rintro ⟨hminutes, rfl⟩
    exact hoffset ⟨hminutes, hinDay⟩

/-- The texts that are read as zones. -/
theorem ofText?_eq_some_iff {text : List Char} {z : Zone} :
    ofText? text = some z ↔ text ∈ utcNames ∧ z.offset = 0 ∨
      ∃ s : Spelling, s.text = text ∧ s.minutes.value < 60 ∧ z.offset = s.offset := by
  constructor
  · intro h
    unfold ofText? at h
    split at h
    · rename_i hname
      cases h
      exact .inl ⟨by simpa [utcNames] using hname, rfl⟩
    · right
      split at h
      · cases h
      · rename_i mark fields _
        split at h
        · rename_i hmark
          have hsplit := List.takeWhile_append_dropWhile (p := (· != ':')) (l := fields)
          split at h
          · cases h
          · rename_i colon minutes hdrop
            obtain ⟨h₁, hhours, h⟩ := Option.bind_eq_some_iff.mp h
            obtain ⟨h₂, hminutes, h⟩ := Option.bind_eq_some_iff.mp h
            obtain ⟨hours, htext, rfl⟩ := field?_eq_some_iff.mp hhours
            obtain ⟨minutes', rfl, rfl⟩ := field?_eq_some_iff.mp hminutes
            have hcolon : colon = ':' := by
              have hhead : ∀ c ∈ (fields.dropWhile (· != ':')).head?, (c != ':') = false :=
                Text.head_dropWhile
              rw [hdrop] at hhead
              simpa using hhead colon rfl
            rw [hdrop, hcolon, ← htext] at hsplit
            obtain ⟨hlt, hoffset⟩ := ofOffset?_eq_some_iff.mp h
            refine ⟨⟨mark = '-', hours, minutes'⟩, ?_, hlt, ?_⟩
            · rcases hmark with rfl | rfl <;> rw [← hsplit] <;> rfl
            · rcases hmark with rfl | rfl <;> exact hoffset
        · cases h
  · rintro (⟨hname, hoffset⟩ | ⟨s, rfl, hlt, hoffset⟩)
    · have hz : utc = z := by
        obtain ⟨offset, hinDay⟩ := z
        cases hoffset
        rfl
      unfold ofText?
      rw [if_pos (by simpa [utcNames] using hname), hz]
    · have hread (f : Field) : field? f.text = some f.value := field?_eq_some_iff.mpr ⟨f, rfl, rfl⟩
      obtain ⟨hhours, hminutes⟩ := s.fields_text
      have hzone := ofOffset?_eq_some_iff.mpr ⟨hlt, hoffset⟩
      unfold ofText? Spelling.text
      cases hwest : s.west <;>
        simpa [hhours, hminutes, hread, hwest] using hzone

/-- The zone is what the text should name: `UTC`, `Z` and `z` are no offset, and `±HH:MM` with
digits, hours up to 23 and minutes up to 59 is this offset. -/
def Names (text : List Char) (z : Zone) : Prop :=
  text ∈ utcNames ∧ z.offset = 0 ∨
    ∃ s : Spelling, s.text = text ∧ s.Unsigned ∧ s.hours.value ≤ 23 ∧ s.minutes.value ≤ 59 ∧
      z.offset = s.offset

theorem ofText?_of_names {text : List Char} {z : Zone} (h : Names text z) :
    ofText? text = some z := by
  refine ofText?_eq_some_iff.mpr (h.imp_right ?_)
  rintro ⟨s, htext, -, -, hminutes, hoffset⟩
  exact ⟨s, htext, by omega, hoffset⟩

/-- What is read is what should be, unless a field has a sign of its own. -/
theorem names_of_ofText? {text : List Char} {z : Zone} (h : ofText? text = some z)
    (hunsigned : ∀ s : Spelling, s.text = text → s.Unsigned) : Names text z := by
  refine (ofText?_eq_some_iff.mp h).imp_right ?_
  rintro ⟨s, htext, hlt, hoffset⟩
  have haccepted : s.Accepted := ⟨hlt, hoffset ▸ z.inDay⟩
  obtain ⟨hhours, hminutes⟩ := (Spelling.accepted_iff (hunsigned s htext)).mp haccepted
  exact ⟨s, htext, hunsigned s htext, hhours, hminutes, hoffset⟩

end Time.Zone

/-! ### Fields of timestamps -/

namespace Builtin

open Time (LocalTime Timestamp Zone)
open Time.Zone (Names Spelling)

/-- The functions of a timestamp and the fields of the local time that they give. -/
def timestampFields : List (String × (LocalTime → ℤ)) := [
  ("getFullYear", fun t => t.date.year),
  ("getMonth", fun t => t.date.month - 1),
  ("getDayOfMonth", fun t => t.date.day - 1),
  ("getDate", fun t => t.date.day),
  ("getDayOfWeek", fun t => Time.Date.weekday t.days),
  ("getDayOfYear", fun t => t.date.dayOfYear),
  ("getHours", LocalTime.hour),
  ("getMinutes", LocalTime.minute),
  ("getSeconds", LocalTime.second),
  ("getMilliseconds", LocalTime.millisecond)]

/-- A function of a timestamp blames a text that is no zone, and gives its field in a zone. -/
theorem body_timestamp {entry : String × (LocalTime → ℤ)} (h : entry ∈ timestampFields) :
    ∃ b, find? entry.1 = some b ∧ ∀ (t : Timestamp) (name : String),
      b.body [.timestamp t, .text name] =
        match Zone.ofText? name.toList with
        | some z => .ok (.int (Int64.ofInt (entry.2 (.ofTimestamp t z))))
        | none => .error (.invalidArgument entry.1
            ("unknown time zone '" ++ (Value.text name).display ++ "'")) := by
  have hcalendar (name : String) (field : LocalTime → ℤ) (t : Timestamp) (zone : String) :
      calendarField name field [.timestamp t, .text zone] =
        match Zone.ofText? zone.toList with
        | some z => .ok (.int (Int64.ofInt (field (.ofTimestamp t z))))
        | none => .error (.invalidArgument name
            ("unknown time zone '" ++ (Value.text zone).display ++ "'")) := by
    simp only [calendarField, localTime]
    cases Zone.ofText? zone.toList <;> rfl
  simp only [timestampFields, List.mem_cons, List.not_mem_nil, or_false] at h
  rcases h with rfl | rfl | rfl | rfl | rfl | rfl | rfl | rfl | rfl | rfl <;>
    exact ⟨_, rfl, hcalendar _ _⟩

/-- The texts that are read as zones, for every text: the names without an offset, and the offsets
with minutes below 60 that are less than a day.  What a text should name it does; it names nothing
else if and only if no field has a sign of its own or the text is refused.  A function of a
timestamp blames the texts that are refused and goes by the zone otherwise. -/
theorem zones_exact_unless_signed (name : String) :
    (∀ z, Zone.ofText? name.toList = some z ↔ name.toList ∈ Zone.utcNames ∧ z.offset = 0 ∨
      ∃ s : Spelling, s.text = name.toList ∧ s.minutes.value < 60 ∧ z.offset = s.offset) ∧
    (∀ z, Names name.toList z → Zone.ofText? name.toList = some z) ∧
    ((∀ z, Zone.ofText? name.toList = some z ↔ Names name.toList z) ↔
      ∀ s : Spelling, s.text = name.toList → s.Unsigned ∨ Zone.ofText? name.toList = none) ∧
    ∀ entry ∈ timestampFields, ∃ b, find? entry.1 = some b ∧ ∀ t : Timestamp,
      b.body [.timestamp t, .text name] =
        match Zone.ofText? name.toList with
        | some z => .ok (.int (Int64.ofInt (entry.2 (.ofTimestamp t z))))
        | none => .error (.invalidArgument entry.1
            ("unknown time zone '" ++ (Value.text name).display ++ "'")) := by
  refine ⟨fun z => Zone.ofText?_eq_some_iff, fun z => Zone.ofText?_of_names, ⟨?_, ?_⟩, ?_⟩
  · intro hexact s htext
    cases hread : Zone.ofText? name.toList with
    | none => exact .inr rfl
    | some z =>
        rcases (hexact z).mp hread with ⟨hname, -⟩ | ⟨s', htext', hunsigned, -⟩
        · exact absurd (htext ▸ hname) s.text_not_mem_utcNames
        · exact .inl (Spelling.unsigned_of_text_eq (htext.trans htext'.symm) hunsigned)
  · intro hsigns z
    refine ⟨fun hread => ?_, Zone.ofText?_of_names⟩
    refine Zone.names_of_ofText? hread fun s htext => ?_
    exact (hsigns s htext).resolve_right (by simp [hread])
  · intro entry hentry
    obtain ⟨b, hfind, hbody⟩ := body_timestamp hentry
    exact ⟨b, hfind, fun t => hbody t name⟩

/-- `-05:30` is five and a half hours to the west, where the epoch was at 18 o'clock. -/
theorem zones_exact_west :
    let epoch : Timestamp := ⟨0, 0, by decide⟩
    (∃ z, Zone.ofText? "-05:30".toList = some z ∧ z.offset = -19800) ∧
      ∃ b, find? "getHours" = some b ∧
        b.body [.timestamp epoch, .text "-05:30"] = .ok (.int 18) := by
  intro epoch
  obtain ⟨hread, -, -, hfields⟩ := zones_exact_unless_signed "-05:30"
  have hzone : Zone.ofText? "-05:30".toList = some ⟨-19800, by decide⟩ :=
    (hread _).mpr (.inr ⟨⟨true, ⟨.none, ['0', '5'], by decide, by decide, rfl⟩,
      ⟨.none, ['3', '0'], by decide, by decide, rfl⟩⟩, rfl, by decide, by decide⟩)
  obtain ⟨b, hfind, hbody⟩ := hfields ("getHours", LocalTime.hour) (by simp [timestampFields])
  refine ⟨⟨_, hzone, rfl⟩, b, hfind, ?_⟩
  rw [hbody epoch, hzone]
  rfl

/-- `+-5:30` names a zone to the west, though it is no offset with two digits for the hours. -/
theorem zones_not_exact :
    ∃ z, Zone.ofText? "+-5:30".toList = some z ∧ z.offset = -16200 ∧ ¬ Names "+-5:30".toList z := by
  let s : Spelling := ⟨false, ⟨.minus, ['5'], by decide, by decide, rfl⟩,
    ⟨.none, ['3', '0'], by decide, by decide, rfl⟩⟩
  refine ⟨⟨-16200, by decide⟩, ?_, rfl, ?_⟩
  · exact Zone.ofText?_eq_some_iff.mpr (.inr ⟨s, rfl, by decide, by decide⟩)
  · rintro (⟨hname, -⟩ | ⟨s', htext, hunsigned, -⟩)
    · exact absurd hname (by decide)
    · have hsigned : s.Unsigned := Spelling.unsigned_of_text_eq htext.symm hunsigned
      exact absurd (hsigned.1 '-' List.mem_cons_self) (by decide)

end Builtin

end EmbeddedExpr
