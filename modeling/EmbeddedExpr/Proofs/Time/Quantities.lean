import EmbeddedExpr.Proofs.Number.Digits
import EmbeddedExpr.Proofs.Text.Run
import EmbeddedExpr.Time.Duration
import Mathlib.Algebra.Order.Floor.Semifield
import Mathlib.Data.Rat.Floor
import Mathlib.Tactic.Linarith
import Mathlib.Tactic.Positivity
import Mathlib.Tactic.Ring

/-!
# What the text of a duration denotes

A `Spelling` is a text as its writer means it: a sign and quantities, each a decimal with a unit,
or a zero where there are none.  The decimal is an exact number of nanoseconds (`Quantity.exact`),
of which only the whole ones count (`Quantity.nanos`).

Reading agrees with that up to a cut.  A component goes as far as a quantity does
(`Quantity.split_text`) and nothing but a quantity is a component (`Quantity.exists_of_split`), so
that the texts that are read are the spellings, by induction on the quantities in one direction
(`componentSum?_flatMap_text`) and on the length of the text in the other (`exists_quantities`).
But a component has the value of the quantity with at most eighteen digits behind the point
(`Quantity.nanos?_eq`, `Spelling.ofText?_text`).

The digits that are cut off are worth less than one step of the eighteenth.  Where a
nanosecond is a whole number of such steps, they never matter (`div_of_dropped_of_dvd`).  It is for
seconds and what is smaller, but not for hours and minutes, which may lose one nanosecond
(`div_of_dropped`, `Quantity.nanos_cutOff`).  As nothing is ever gained, a sum is exact only if no
quantity in it loses anything (`sum_cutOff`), which settles for each text whether it is read as
what it says (`ofText?_exact_unless_cut`).
-/

namespace EmbeddedExpr.Time.Duration

open Number (AllDigits isDigit)

/-! ### Quantities -/

/-- The names of the units and their nanoseconds. -/
def unitSizes : List (List Char × ℕ) :=
  [(['h'], 3600000000000), (['m'], 60000000000), (['s'], 1000000000), (['m', 's'], 1000000),
    (['u', 's'], 1000), (['\u00b5', 's'], 1000), (['n', 's'], 1)]

/-- A decimal with a unit as it is written. -/
structure Quantity where
  whole : List Char
  /-- The digits behind the point, if there is a point. -/
  fraction : Option (List Char)
  unit : List Char
  /-- The nanoseconds of the unit. -/
  size : ℕ
  allDigits : AllDigits (whole ++ fraction.getD [])
  hasDigit : whole ++ fraction.getD [] ≠ []
  isUnit : (unit, size) ∈ unitSizes

namespace Quantity

/-- The digits behind the point. -/
def places (q : Quantity) : List Char := q.fraction.getD []

def text (q : Quantity) : List Char :=
  q.whole ++ (q.fraction.elim [] ('.' :: ·) ++ q.unit)

/-- The decimal in nanoseconds. -/
def exact (q : Quantity) : ℚ :=
  (Nat.ofDigitChars 10 q.whole 0 +
    Nat.ofDigitChars 10 q.places 0 / 10 ^ q.places.length) * q.size

/-- The whole nanoseconds of a quantity. -/
def nanos (q : Quantity) : ℕ := ⌊q.exact⌋₊

/-- The quantity with at most eighteen digits behind the point. -/
def cutOff (q : Quantity) : Quantity where
  __ := q
  fraction := q.fraction.map (List.take 18)
  allDigits := by
    intro c hc
    refine q.allDigits c ?_
    cases hfraction : q.fraction with
    | none => simpa [hfraction] using hc
    | some digits =>
        have hsublist : (q.whole ++ digits.take 18).Sublist (q.whole ++ digits) :=
          (List.take_sublist 18 digits).append_left q.whole
        rw [hfraction] at hc
        exact hsublist.subset hc
  hasDigit := by
    have hdigit := q.hasDigit
    cases hfraction : q.fraction with
    | none => simpa [hfraction] using hdigit
    | some digits => simpa [hfraction, List.take_eq_nil_iff] using hdigit

end Quantity

/-- A sign as it is written. -/
inductive Sign
  | none | plus | minus

namespace Sign

def text : Sign → List Char
  | none => []
  | plus => ['+']
  | minus => ['-']

def apply : Sign → ℕ → ℤ
  | none, n | plus, n => n
  | minus, n => -n

end Sign

/-- A sign and quantities as they are written.  Without quantities a zero stands alone. -/
structure Spelling where
  sign : Sign
  quantities : List Quantity

namespace Spelling

def body : List Quantity → List Char
  | [] => ['0']
  | quantities => quantities.flatMap Quantity.text

def text (s : Spelling) : List Char := s.sign.text ++ body s.quantities

/-- The nanoseconds of the quantities, with the sign. -/
def nanos (s : Spelling) : ℤ := s.sign.apply (s.quantities.map Quantity.nanos).sum

/-- The spelling with at most eighteen digits behind each point. -/
def cutOff (s : Spelling) : Spelling := ⟨s.sign, s.quantities.map Quantity.cutOff⟩

end Spelling

/-! ### Units -/

theorem unitNanos?_eq_some_iff {unit : List Char} {size : ℕ} :
    unitNanos? unit = some size ↔ (unit, size) ∈ unitSizes := by
  constructor
  · intro h
    unfold unitNanos? at h
    split at h <;> cases h <;> decide
  · intro h
    have hall : ∀ entry ∈ unitSizes, unitNanos? entry.1 = some entry.2 := by decide
    exact hall _ h

namespace Quantity

variable {q : Quantity} {rest : List Char}

theorem unit_spec (q : Quantity) : q.unit ≠ [] ∧ ∀ c ∈ q.unit, inUnit c = true := by
  have hall : ∀ entry ∈ unitSizes, entry.1 ≠ [] ∧ ∀ c ∈ entry.1, inUnit c = true := by
    simp [unitSizes, inUnit, isDigit, Number.digitValue?]
  exact hall _ q.isUnit

theorem head_unit {c : Char} (h : c ∈ (q.unit ++ rest).head?) : isDigit c = false ∧ c ≠ '.' := by
  obtain ⟨d, unit, hunit⟩ := List.exists_cons_of_ne_nil q.unit_spec.1
  have hinUnit := q.unit_spec.2 d (by rw [hunit]; exact List.mem_cons_self)
  rw [hunit] at h
  obtain rfl : d = c := Option.some.inj h
  simpa [inUnit] using hinUnit

/-- A component goes up to the next digit or point behind its unit. -/
theorem split_text (hrest : ∀ c ∈ rest.head?, inUnit c = false) :
    Component.split (q.text ++ rest) = ⟨q.whole, q.places, q.unit, rest⟩ := by
  have hdigits := q.allDigits
  have hstop : ∀ c ∈ (q.unit ++ rest).head?, isDigit c = false := fun c hc => (head_unit hc).1
  obtain ⟨hunit, hafter⟩ := Text.takeWhile_append_stop q.unit_spec.2 hrest
  unfold text places Component.split
  cases hfraction : q.fraction with
  | none =>
      obtain ⟨hwhole, hbehind⟩ := Text.takeWhile_append_stop
        (fun c hc => hdigits c (List.mem_append_left _ hc)) hstop
      simp only [Option.elim_none, List.nil_append, List.append_assoc, hwhole, hbehind]
      split
      · -- the unit would have to begin with the point
        rename_i after heq
        exact absurd rfl (head_unit (by rw [heq]; rfl)).2
      · simp only [hunit, hafter, Option.getD_none]
  | some digits =>
      have hpoint : ∀ c ∈ ('.' :: (digits ++ (q.unit ++ rest))).head?, isDigit c = false := by
        rintro _ ⟨⟩
        rfl
      obtain ⟨hwhole, hbehind⟩ := Text.takeWhile_append_stop
        (fun c hc => hdigits c (List.mem_append_left _ hc)) hpoint
      have hplaces : ∀ c ∈ digits, isDigit c = true := fun c hc =>
        hdigits c (List.mem_append_right _ (by rwa [hfraction]))
      obtain ⟨htake, hdrop⟩ := Text.takeWhile_append_stop hplaces hstop
      simp only [Option.elim_some, List.cons_append, List.append_assoc, hwhole, hbehind, htake,
        hdrop, hunit, hafter, Option.getD_some]

/-- The parts of a component make up the text. -/
theorem split_spec (text : List Char) : ∃ fraction : Option (List Char),
    text = (Component.split text).whole ++ (fraction.elim [] ('.' :: ·) ++
      ((Component.split text).unit ++ (Component.split text).rest)) ∧
    fraction.getD [] = (Component.split text).fraction ∧
    AllDigits ((Component.split text).whole ++ (Component.split text).fraction) ∧
    ∀ c ∈ (Component.split text).rest.head?, inUnit c = false := by
  have hdigits (run : List Char) : AllDigits (run.takeWhile isDigit) :=
    fun _ hc => List.mem_takeWhile_imp hc
  have htext := List.takeWhile_append_dropWhile (p := isDigit) (l := text)
  unfold Component.split
  split
  rename_i fraction after heq
  have hafter := List.takeWhile_append_dropWhile (p := inUnit) (l := after)
  dsimp only
  rw [hafter]
  split at heq
  · rename_i tail hpoint
    cases heq
    have htail := List.takeWhile_append_dropWhile (p := isDigit) (l := tail)
    refine ⟨some (tail.takeWhile isDigit), ?_, rfl, (hdigits text).append (hdigits tail),
      Text.head_dropWhile⟩
    rw [Option.elim_some, List.cons_append, htail, ← hpoint, htext]
  · cases heq
    refine ⟨none, htext.symm, rfl, ?_, Text.head_dropWhile⟩
    rw [List.append_nil]
    exact hdigits text

/-- What is read as a component is a quantity. -/
theorem exists_of_split {text : List Char} (h : (Component.split text).nanos? ≠ none) :
    ∃ q : Quantity, ∃ rest, text = q.text ++ rest ∧ ∀ c ∈ rest.head?, inUnit c = false := by
  obtain ⟨fraction, htext, hfraction, hdigits, hrest⟩ := split_spec text
  unfold Component.nanos? at h
  split at h
  · exact absurd rfl h
  rename_i hempty
  cases hunit : unitNanos? (Component.split text).unit with
  | none => exact absurd (by rw [hunit, Option.map_none]) h
  | some size =>
      refine ⟨⟨(Component.split text).whole, fraction, _, size, ?_, ?_,
        unitNanos?_eq_some_iff.mp hunit⟩, _, ?_, hrest⟩
      · rwa [hfraction]
      · rw [hfraction]
        simpa using hempty
      · simpa only [Quantity.text, List.append_assoc] using htext

theorem nanos_eq (q : Quantity) :
    q.nanos = Nat.ofDigitChars 10 q.whole 0 * q.size +
      Nat.ofDigitChars 10 q.places 0 * q.size / 10 ^ q.places.length := by
  have hsum : q.exact = ((Nat.ofDigitChars 10 q.places 0 * q.size : ℕ) : ℚ) /
      ((10 ^ q.places.length : ℕ) : ℚ) + ((Nat.ofDigitChars 10 q.whole 0 * q.size : ℕ) : ℚ) := by
    rw [exact]
    push_cast
    ring
  rw [nanos, hsum, Nat.floor_add_natCast (by positivity), Nat.floor_div_eq_div, Nat.add_comm]

theorem places_cutOff (q : Quantity) : q.cutOff.places = q.places.take fractionDigits := by
  show (q.fraction.map (List.take 18)).getD [] = (q.fraction.getD []).take 18
  cases q.fraction <;> rfl

/-- A component is read as the quantity with its fraction cut off. -/
theorem nanos?_eq (q : Quantity) :
    Component.nanos? ⟨q.whole, q.places, q.unit, rest⟩ = some q.cutOff.nanos := by
  have hempty : ¬ (q.whole.isEmpty = true ∧ q.places.isEmpty = true) := by
    have hdigit := q.hasDigit
    simpa [places] using hdigit
  have hwhole : AllDigits q.whole := fun c hc => q.allDigits c (List.mem_append_left _ hc)
  have hplaces : AllDigits (q.places.take fractionDigits) := fun c hc =>
    q.allDigits c (List.mem_append_right _ (List.mem_of_mem_take hc))
  rw [Component.nanos?, if_neg hempty, unitNanos?_eq_some_iff.mpr q.isUnit, nanos_eq,
    places_cutOff]
  simp only [Option.map_some, Number.ofDigits_eq hwhole, Number.ofDigits_eq hplaces,
    Option.getD_some, Nat.pow_eq]
  rfl

/-- A fraction of at most eighteen digits is not cut off. -/
theorem nanos_cutOff_of_short {q : Quantity} (h : q.places.length ≤ 18) :
    q.cutOff.nanos = q.nanos := by
  have hplaces : q.cutOff.places = q.places := by
    rw [places_cutOff]
    exact List.take_of_length_le h
  rw [nanos_eq, nanos_eq, hplaces]
  rfl

/-- The characters of a quantity. -/
theorem mem_text {q : Quantity} {c : Char} (h : c ∈ q.text) :
    isDigit c = true ∨ c = '.' ∨ c ∈ q.unit := by
  have hdigits := q.allDigits
  unfold text at h
  cases hfraction : q.fraction with
  | none =>
      rw [hfraction, Option.elim_none, List.nil_append, List.mem_append] at h
      exact h.imp (fun hwhole => hdigits c (List.mem_append_left _ hwhole)) .inr
  | some digits =>
      rw [hfraction, Option.elim_some, List.mem_append, List.mem_append, List.mem_cons] at h
      rw [hfraction, Option.getD_some] at hdigits
      obtain hwhole | (hpoint | hplace) | hunit := h
      · exact .inl (hdigits c (List.mem_append_left _ hwhole))
      · exact .inr (.inl hpoint)
      · exact .inl (hdigits c (List.mem_append_right _ hplace))
      · exact .inr (.inr hunit)

theorem text_ne_nil (q : Quantity) : q.text ≠ [] := by
  simp [text, q.unit_spec.1]

/-- A quantity starts with a digit or a point. -/
theorem head_text {c : Char} (h : c ∈ q.text.head?) : inUnit c = false := by
  have hdigits := q.allDigits
  unfold text at h
  cases hwhole : q.whole with
  | cons d whole =>
      rw [hwhole] at h hdigits
      obtain rfl : d = c := Option.some.inj h
      have hdigit : isDigit d = true := hdigits d List.mem_cons_self
      rw [inUnit, hdigit]
      rfl
  | nil =>
      cases hfraction : q.fraction with
      | none => exact absurd (by rw [hwhole, hfraction]; rfl) q.hasDigit
      | some digits =>
          rw [hwhole, hfraction] at h
          obtain rfl : '.' = c := Option.some.inj h
          rfl

end Quantity

/-! ### Sums -/

theorem head_flatMap_text {quantities : List Quantity} {c : Char}
    (h : c ∈ (quantities.flatMap Quantity.text).head?) : inUnit c = false := by
  cases quantities with
  | nil => cases h
  | cons q rest =>
      refine Quantity.head_text (q := q) ?_
      rwa [List.flatMap_cons, List.head?_append_of_ne_nil _ q.text_ne_nil] at h

theorem componentSum?_append {q : Quantity} {rest : List Char}
    (hrest : ∀ c ∈ rest.head?, inUnit c = false) :
    componentSum? (q.text ++ rest) = (componentSum? rest).map (q.cutOff.nanos + ·) := by
  have hsplit := Quantity.split_text (q := q) hrest
  rw [componentSum?, if_neg (by simp [q.text_ne_nil])]
  split
  · rename_i hnone
    rw [hsplit, q.nanos?_eq] at hnone
    cases hnone
  · rename_i amount hamount
    rw [hsplit, q.nanos?_eq] at hamount
    cases hamount
    simp only [hsplit]

theorem componentSum?_flatMap_text (quantities : List Quantity) :
    componentSum? (quantities.flatMap Quantity.text) =
      some (quantities.map fun q => q.cutOff.nanos).sum := by
  induction quantities with
  | nil => rw [List.flatMap_nil, componentSum?]; rfl
  | cons q rest ih =>
      rw [List.flatMap_cons, componentSum?_append fun _ => head_flatMap_text, ih, List.map_cons,
        List.sum_cons, Option.map_some]

theorem exists_quantities (text : List Char) (h : componentSum? text ≠ none) :
    ∃ quantities : List Quantity, quantities.flatMap Quantity.text = text := by
  by_cases hempty : text = []
  · exact ⟨[], hempty.symm⟩
  · have hsplit : (Component.split text).nanos? ≠ none := by
      intro hnone
      apply h
      rw [componentSum?, if_neg (by simpa using hempty)]
      split
      · rfl
      · rename_i hsome
        rw [hnone] at hsome
        cases hsome
    obtain ⟨q, rest, htext, hrest⟩ := Quantity.exists_of_split hsplit
    have hlength : rest.length < text.length := by
      have hpos := List.length_pos_iff.mpr q.text_ne_nil
      rw [htext, List.length_append]
      omega
    have hsum : componentSum? rest ≠ none := by
      rw [htext, componentSum?_append hrest] at h
      simpa using h
    obtain ⟨quantities, hquantities⟩ := exists_quantities rest hsum
    exact ⟨q :: quantities, by rw [List.flatMap_cons, hquantities, htext]⟩
termination_by text.length

/-- What the text behind a sign adds up to. -/
def bodySum? (body : List Char) : Option ℕ :=
  if body = ['0'] then some 0 else if body.isEmpty then none else componentSum? body

theorem body_ne_zero {quantities : List Quantity} (h : quantities ≠ []) :
    Spelling.body quantities = quantities.flatMap Quantity.text ∧
      quantities.flatMap Quantity.text ≠ ['0'] := by
  obtain ⟨q, rest, rfl⟩ := List.exists_cons_of_ne_nil h
  obtain ⟨c, unit, hunit⟩ := List.exists_cons_of_ne_nil q.unit_spec.1
  refine ⟨rfl, fun hzero => ?_⟩
  -- the unit has a character that is no digit
  have hmem : c ∈ (q :: rest).flatMap Quantity.text :=
    List.mem_flatMap.mpr ⟨q, List.mem_cons_self, by simp [Quantity.text, hunit]⟩
  have hinUnit := q.unit_spec.2 c (by rw [hunit]; exact List.mem_cons_self)
  rw [hzero, List.mem_singleton] at hmem
  rw [hmem] at hinUnit
  cases hinUnit

theorem bodySum?_eq_some_iff {body : List Char} {n : ℕ} :
    bodySum? body = some n ↔ ∃ quantities : List Quantity, Spelling.body quantities = body ∧
      (quantities.map fun q => q.cutOff.nanos).sum = n := by
  unfold bodySum?
  constructor
  · intro h
    split at h
    · rename_i hzero
      exact ⟨[], hzero.symm, Option.some.inj h⟩
    split at h
    · cases h
    rename_i hempty
    obtain ⟨quantities, rfl⟩ := exists_quantities body (by rw [h]; exact Option.some_ne_none n)
    rw [componentSum?_flatMap_text] at h
    refine ⟨quantities, (body_ne_zero ?_).1, Option.some.inj h⟩
    rintro rfl
    exact hempty rfl
  · rintro ⟨quantities, rfl, rfl⟩
    by_cases hnil : quantities = []
    · rw [hnil]
      rfl
    · obtain ⟨q, rest, rfl⟩ := List.exists_cons_of_ne_nil hnil
      rw [(body_ne_zero hnil).1, if_neg (body_ne_zero hnil).2,
        if_neg (by simp [q.text_ne_nil]), componentSum?_flatMap_text]

/-! ### Signs -/

/-- Without a sign, the text does not start with one. -/
def Sign.Fits (sign : Sign) (body : List Char) : Prop :=
  sign = .none → ∀ c ∈ body.head?, c ≠ '-' ∧ c ≠ '+'

theorem fits_body (sign : Sign) (quantities : List Quantity) :
    sign.Fits (Spelling.body quantities) := by
  intro _ c hc
  cases quantities with
  | nil =>
      obtain rfl : '0' = c := Option.some.inj hc
      decide
  | cons q rest =>
      have hunit := head_flatMap_text hc
      constructor <;> rintro rfl <;> cases hunit

theorem exists_sign (text : List Char) :
    ∃ (sign : Sign) (body : List Char), text = sign.text ++ body ∧ sign.Fits body := by
  by_cases hplus : ∃ body, text = '+' :: body
  · obtain ⟨body, rfl⟩ := hplus
    exact ⟨.plus, body, rfl, nofun⟩
  by_cases hminus : ∃ body, text = '-' :: body
  · obtain ⟨body, rfl⟩ := hminus
    exact ⟨.minus, body, rfl, nofun⟩
  refine ⟨.none, text, rfl, fun _ c hc => ?_⟩
  obtain ⟨body, rfl⟩ := List.head?_eq_some_iff.mp hc
  constructor <;> rintro rfl <;> simp at hplus hminus

/-- What the text behind a sign denotes. -/
def signedBody? (negative : Bool) (body : List Char) : Option Duration :=
  if body = ['0'] then some zero
  else if body.isEmpty then none
  else
    match componentSum? body with
    | none => none
    | some total => ofNanos? (if negative then -(total : Int) else total)

theorem signedBody?_eq (negative : Bool) (body : List Char) :
    signedBody? negative body =
      (bodySum? body).bind fun n => ofNanos? (if negative then -(n : Int) else n) := by
  unfold signedBody? bodySum?
  split
  · cases negative <;> rfl
  · split
    · rfl
    · cases componentSum? body <;> rfl

theorem ofText?_append {sign : Sign} {body : List Char} (h : sign.Fits body) :
    ofText? (sign.text ++ body) = (bodySum? body).bind fun n => ofNanos? (sign.apply n) := by
  cases sign with
  | minus => exact signedBody?_eq true body
  | plus => exact signedBody?_eq false body
  | none =>
      have hhead := h rfl
      refine Eq.trans ?_ (signedBody?_eq false body)
      cases body with
      | nil => rfl
      | cons c rest =>
          -- the first character is no sign, so that the text is its own body
          obtain ⟨hminus, hplus⟩ := hhead c rfl
          cases hsum : componentSum? (c :: rest) <;>
            simp [Sign.text, ofText?, signedBody?, hminus, hplus, hsum]

namespace Spelling

/-- A spelled text is read as what its quantities add up to when their fractions are cut off. -/
theorem ofText?_text (s : Spelling) : ofText? s.text = ofNanos? s.cutOff.nanos := by
  rw [text, ofText?_append (fits_body s.sign s.quantities),
    bodySum?_eq_some_iff.mpr ⟨s.quantities, rfl, rfl⟩, Option.bind_some, nanos, cutOff,
    List.map_map]
  rfl

end Spelling

/-- What is read is spelled by a sign and quantities. -/
theorem exists_spelling {text : List Char} {d : Duration} (h : ofText? text = some d) :
    ∃ s : Spelling, s.text = text := by
  obtain ⟨sign, body, rfl, hfits⟩ := exists_sign text
  rw [ofText?_append hfits, Option.bind_eq_some_iff] at h
  obtain ⟨n, hsum, -⟩ := h
  obtain ⟨quantities, rfl, -⟩ := bodySum?_eq_some_iff.mp hsum
  exact ⟨⟨sign, quantities⟩, rfl⟩

/-! ### What is cut off -/

/-- Digits that are dropped from the end of a fraction make less than one step of the last digit
that stays, so that the whole part of a multiple grows by at most one. -/
theorem div_of_dropped {a b size scale power : ℕ} (hb : b < power) (hsize : size ≤ scale)
    (hscale : 0 < scale) :
    a * size / scale ≤ (power * a + b) * size / (scale * power) ∧
      (power * a + b) * size / (scale * power) ≤ a * size / scale + 1 := by
  have hpower : 0 < power := by omega
  constructor
  · calc a * size / scale = a * size * power / (scale * power) :=
          (Nat.mul_div_mul_right _ _ hpower).symm
      _ ≤ (power * a + b) * size / (scale * power) := by
          refine Nat.div_le_div_right ?_
          nlinarith
  · calc (power * a + b) * size / (scale * power)
        ≤ (a * size + size) * power / (scale * power) := by
          refine Nat.div_le_div_right ?_
          nlinarith
      _ = (a * size + size) / scale := Nat.mul_div_mul_right _ _ hpower
      _ ≤ (a * size + scale) / scale := Nat.div_le_div_right (by omega)
      _ = a * size / scale + 1 := Nat.add_div_right _ hscale

/-- Nothing is lost where one is a whole number of steps of the last digit that stays. -/
theorem div_of_dropped_of_dvd {a b size scale power : ℕ} (hb : b < power) (hsize : size ∣ scale)
    (hscale : 0 < scale) :
    (power * a + b) * size / (scale * power) = a * size / scale := by
  obtain ⟨parts, rfl⟩ := hsize
  have hpos : 0 < size := Nat.pos_of_mul_pos_right hscale
  calc (power * a + b) * size / (size * parts * power)
      = size * (power * a + b) / (size * (power * parts)) := by
        rw [Nat.mul_comm _ size, Nat.mul_assoc size, Nat.mul_comm parts]
    _ = (power * a + b) / power / parts := by
        rw [Nat.mul_div_mul_left _ _ hpos, Nat.div_div_eq_div_mul]
    _ = a / parts := by
        rw [Nat.mul_add_div (by omega), Nat.div_eq_of_lt hb, Nat.add_zero]
    _ = a * size / (size * parts) := by
        rw [Nat.mul_comm a, Nat.mul_div_mul_left _ _ hpos]

namespace Quantity

theorem size_spec (q : Quantity) :
    q.size ≤ 10 ^ 18 ∧ (q.unit ∈ [['h'], ['m']] ∨ q.size ∣ 10 ^ 18) := by
  have hall : ∀ entry ∈ unitSizes,
      entry.2 ≤ 10 ^ 18 ∧ (entry.1 ∈ [['h'], ['m']] ∨ entry.2 ∣ 10 ^ 18) := by
    decide +kernel
  exact hall _ q.isUnit

/-- The value of a quantity and that of its cut off one, as they are computed from the digits. -/
theorem exists_dropped {q : Quantity} (h : 18 < q.places.length) :
    ∃ a b power, b < power ∧
      q.nanos = Nat.ofDigitChars 10 q.whole 0 * q.size +
        (power * a + b) * q.size / (10 ^ 18 * power) ∧
      q.cutOff.nanos = Nat.ofDigitChars 10 q.whole 0 * q.size + a * q.size / 10 ^ 18 := by
  have hdropped : AllDigits (q.places.drop 18) := fun c hc =>
    q.allDigits c (List.mem_append_right _ (List.mem_of_mem_drop hc))
  refine ⟨Nat.ofDigitChars 10 (q.places.take 18) 0, Nat.ofDigitChars 10 (q.places.drop 18) 0,
    10 ^ (q.places.drop 18).length, Number.ofDigitChars_lt hdropped, ?_, ?_⟩
  · have hvalue : Nat.ofDigitChars 10 q.places 0 =
        10 ^ (q.places.drop 18).length * Nat.ofDigitChars 10 (q.places.take 18) 0 +
          Nat.ofDigitChars 10 (q.places.drop 18) 0 := by
      rw [← Nat.ofDigitChars_eq_ofDigitChars_zero, ← Nat.ofDigitChars_append,
        List.take_append_drop]
    have hlength : q.places.length = 18 + (q.places.drop 18).length := by
      rw [List.length_drop]
      omega
    rw [nanos_eq, hvalue, hlength, Nat.pow_add]
  · have hlength : (q.places.take 18).length = 18 := by
      rw [List.length_take]
      omega
    rw [nanos_eq, places_cutOff, fractionDigits, hlength]
    rfl

/-- Cutting off a fraction loses nothing, unless it has more than eighteen digits of an hour or a
minute; then it loses one nanosecond at most. -/
theorem nanos_cutOff (q : Quantity) :
    q.nanos = q.cutOff.nanos ∨
      q.unit ∈ [['h'], ['m']] ∧ 18 < q.places.length ∧ q.nanos = q.cutOff.nanos + 1 := by
  obtain ⟨hsize, hunit⟩ := q.size_spec
  by_cases hlong : 18 < q.places.length
  · obtain ⟨a, b, power, hb, hnanos, hcut⟩ := exists_dropped hlong
    rcases hunit with hunit | hdvd
    · obtain ⟨hlow, hhigh⟩ := div_of_dropped (a := a) hb hsize (by decide)
      rcases hlow.eq_or_lt with hsame | hless
      · left
        rw [hnanos, hcut, hsame]
      · have hone := Nat.le_antisymm hhigh hless
        exact .inr ⟨hunit, hlong, by rw [hnanos, hcut, hone, Nat.add_assoc]⟩
    · left
      rw [hnanos, hcut, div_of_dropped_of_dvd hb hdvd (by decide)]
  · exact .inl (nanos_cutOff_of_short (Nat.not_lt.mp hlong)).symm

end Quantity

/-- Cut off quantities never have a greater sum, and the same one just if none of them loses
anything. -/
theorem sum_cutOff (quantities : List Quantity) :
    (quantities.map fun q => q.cutOff.nanos).sum ≤ (quantities.map Quantity.nanos).sum ∧
      ((quantities.map fun q => q.cutOff.nanos).sum = (quantities.map Quantity.nanos).sum ↔
        ∀ q ∈ quantities, q.nanos = q.cutOff.nanos) := by
  induction quantities with
  | nil => simp
  | cons q rest ih =>
      obtain ⟨hle, hsame⟩ := ih
      simp only [List.map_cons, List.sum_cons, List.forall_mem_cons, ← hsame]
      rcases q.nanos_cutOff with hkept | ⟨-, -, hlost⟩ <;> omega

theorem Sign.apply_inj (sign : Sign) {m n : ℕ} : sign.apply m = sign.apply n ↔ m = n := by
  cases sign <;> simp [apply]

theorem Spelling.nanos_cutOff_eq_iff (s : Spelling) :
    s.cutOff.nanos = s.nanos ↔ ∀ q ∈ s.quantities, q.nanos = q.cutOff.nanos := by
  rw [← (sum_cutOff s.quantities).2, ← s.sign.apply_inj, nanos, nanos, cutOff,
    List.map_map]
  rfl

/-- A text is read just if a sign and quantities spell it and their sum, with at most eighteen
digits behind each point, is representable; it is read as this sum.  That is the exact sum, and the
text is read just if this is representable, if and only if the eighteen digits suffice for the
whole nanoseconds of each quantity, or neither of the sums is representable.  They always suffice
but for longer fractions of an hour or a minute, which may lose one nanosecond. -/
theorem ofText?_exact_unless_cut (text : List Char) :
    (∀ d, ofText? text = some d ↔ ∃ s : Spelling, s.text = text ∧ s.cutOff.nanos = d.total) ∧
    ∀ s : Spelling, s.text = text →
      ((∀ d, ofText? text = some d ↔ s.nanos = d.total) ↔
        (∀ q ∈ s.quantities, q.nanos = q.cutOff.nanos) ∨
          ¬ DurationRange s.nanos ∧ ¬ DurationRange s.cutOff.nanos) ∧
      ∀ q ∈ s.quantities, q.nanos = q.cutOff.nanos ∨
        q.unit ∈ [['h'], ['m']] ∧ 18 < q.places.length ∧ q.nanos = q.cutOff.nanos + 1 := by
  have hread (s : Spelling) (d : Duration) :
      ofText? s.text = some d ↔ s.cutOff.nanos = d.total := by
    rw [s.ofText?_text, ofNanos?_eq_some_iff, eq_comm]
  constructor
  · intro d
    constructor
    · intro h
      obtain ⟨s, rfl⟩ := exists_spelling h
      exact ⟨s, rfl, (hread s d).mp h⟩
    · rintro ⟨s, rfl, htotal⟩
      exact (hread s d).mpr htotal
  · rintro s rfl
    refine ⟨?_, fun q _ => q.nanos_cutOff⟩
    rw [← s.nanos_cutOff_eq_iff]
    simp only [hread]
    constructor
    · intro hexact
      -- a sum that is representable is the other one
      by_cases hrange : DurationRange s.nanos
      · exact .inl ((hexact ⟨_, hrange⟩).mpr rfl)
      by_cases hcut : DurationRange s.cutOff.nanos
      · exact .inl ((hexact ⟨_, hcut⟩).mp rfl).symm
      · exact .inr ⟨hrange, hcut⟩
    · rintro (hsame | ⟨hrange, hcut⟩) d
      · rw [hsame]
      · exact iff_of_false (fun h => hcut (h ▸ d.inRange)) fun h => hrange (h ▸ d.inRange)

/-- An hour and half a minute before, written without the zero before the point. -/
theorem ofText?_exact_hourBefore :
    let s : Spelling := ⟨.minus,
      [⟨['1'], none, ['h'], 3600000000000, by decide, by decide, by decide⟩,
        ⟨[], some ['5'], ['m'], 60000000000, by decide, by decide, by decide⟩]⟩
    s.text = "-1h.5m".toList ∧ ofText? s.text = some ⟨-3630000000000, by decide⟩ := by
  intro s
  have hnanos : s.nanos = -3630000000000 := by decide +kernel
  have hkept : ∀ q ∈ s.quantities, q.nanos = q.cutOff.nanos := by decide +kernel
  obtain ⟨hexact, -⟩ := (ofText?_exact_unless_cut s.text).2 s rfl
  exact ⟨rfl, (hexact.mpr (.inl hkept) _).mpr hnanos⟩

/-- Nineteen digits of an hour reach a nanosecond and eighteen fall short of it, so that it is not
read. -/
theorem ofText?_not_exact :
    ∃ (s : Spelling) (d : Duration), s.text = "0.0000000000002777778h".toList ∧
      ofText? s.text = some d ∧ s.nanos = 1 ∧ d.total = 0 := by
  let s : Spelling := ⟨.none, [⟨['0'], some "0000000000002777778".toList, ['h'], 3600000000000,
    by decide, by decide, by decide⟩]⟩
  have hcut : s.cutOff.nanos = zero.total := by decide +kernel
  refine ⟨s, zero, rfl, ?_, by decide +kernel, rfl⟩
  rw [s.ofText?_text, ofNanos?_eq_some_iff, hcut]

end EmbeddedExpr.Time.Duration
