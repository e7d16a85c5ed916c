import EmbeddedExpr.Grammar.Phrase
import Mathlib.Data.List.Forall2

/-!
# What readers make of a text

`Reads r text rest good` says that the reader takes the text up to `rest`, wherever in a source
the text stands, and yields a result as `good` says; `Refuses r text` says that it fails.  Both
are proved here combinator by combinator.

What stands behind a literal in a source is the end, a comma, a colon or a closing bracket
(`Closes`).  Nothing that could continue the literal begins like this.
-/

namespace EmbeddedExpr.Grammar

/-! ### What may stand behind a text -/

/-- The end of a source, or a text that ends what stands before it. -/
inductive Closes : List Char → Prop
  | nil : Closes []
  | cons {c : Char} {rest : List Char} : c ∈ [',', ':', ')', ']', '\x7d'] → Closes (c :: rest)

/-- A text that begins with neither layout nor a slash. -/
def Solid (text : List Char) : Prop :=
  ∀ c ∈ text.head?, Cursor.isBlank c = false ∧ c ≠ '/'

theorem Solid.cons {c : Char} {rest : List Char} (hblank : Cursor.isBlank c = false)
    (hslash : c ≠ '/') : Solid (c :: rest) := by
  rintro d ⟨⟩
  exact ⟨hblank, hslash⟩

/-- A property of the five marks is one of whatever begins a text behind a literal. -/
theorem Closes.forall_head {rest : List Char} (h : Closes rest) {p : Char → Prop}
    (hp : ∀ c ∈ [',', ':', ')', ']', '\x7d'], p c) : ∀ c ∈ rest.head?, p c := by
  cases h with
  | nil => nofun
  | cons hc =>
      rintro _ ⟨⟩
      exact hp _ hc

theorem Closes.not_mem_head {rest : List Char} (h : Closes rest) {c : Char}
    (hc : c ∉ [',', ':', ')', ']', '\x7d']) : c ∉ rest.head? :=
  fun hmem => h.forall_head (fun _ hd => hd) c hmem |> hc

theorem Closes.solid {rest : List Char} (h : Closes rest) : Solid rest :=
  h.forall_head (by simp [Cursor.isBlank])

namespace Reader

variable {α β γ : Type} {text middle rest : List Char}

/-- The reader takes the text up to `rest` and yields a result as `good` says. -/
def Reads (r : Reader α) (text rest : List Char) (good : α → Prop) : Prop :=
  ∀ offset, ∃ a stop, (r ⟨offset, text⟩).outcome = some (a, ⟨stop, rest⟩) ∧ good a

/-- The reader fails on the text. -/
def Refuses (r : Reader α) (text : List Char) : Prop :=
  ∀ offset, (r ⟨offset, text⟩).outcome = none

/-! ### Sequences -/

theorem reads_pure {good : α → Prop} {a : α} (h : good a) :
    Reads (pure a : Reader α) text text good :=
  fun offset => ⟨a, offset, rfl, h⟩

theorem Reads.mono {r : Reader α} {good better : α → Prop} (h : Reads r text rest good)
    (himp : ∀ a, good a → better a) : Reads r text rest better := by
  intro offset
  obtain ⟨a, stop, hr, ha⟩ := h offset
  exact ⟨a, stop, hr, himp a ha⟩

theorem outcome_bind {r : Reader α} {next : α → Reader β} {c c' : Cursor} {a : α}
    (h : (r c).outcome = some (a, c')) : ((r >>= next) c).outcome = (next a c').outcome := by
  change (Reader.andThen r next c).outcome = _
  simp only [Reader.andThen, h]

theorem Reads.bind {r : Reader α} {next : α → Reader β} {good : α → Prop} {better : β → Prop}
    (h : Reads r text middle good) (hnext : ∀ a, good a → Reads (next a) middle rest better) :
    Reads (r >>= next) text rest better := by
  intro offset
  obtain ⟨a, between, hr, ha⟩ := h offset
  obtain ⟨b, stop, hb, hgood⟩ := hnext a ha between
  exact ⟨b, stop, by rw [outcome_bind hr, hb], hgood⟩

theorem Reads.bind_refuses {r : Reader α} {next : α → Reader β} {good : α → Prop}
    (h : Reads r text middle good) (hnext : ∀ a, good a → Refuses (next a) middle) :
    Refuses (r >>= next) text := by
  intro offset
  obtain ⟨a, between, hr, ha⟩ := h offset
  rw [outcome_bind hr]
  exact hnext a ha between

theorem Refuses.bind {r : Reader α} (h : Refuses r text) (next : α → Reader β) :
    Refuses (r >>= next) text := by
  intro offset
  change (Reader.andThen r next _).outcome = none
  simp only [Reader.andThen, h offset]

/-! ### Choices -/

theorem Reads.orElse {p : Reader α} {good : α → Prop} (h : Reads p text rest good)
    (q : Reader α) : Reads (Reader.orElse p q) text rest good := by
  intro offset
  obtain ⟨a, stop, hp, ha⟩ := h offset
  exact ⟨a, stop, by simp only [Reader.orElse, hp], ha⟩

theorem Refuses.orElse_reads {p q : Reader α} {good : α → Prop} (hp : Refuses p text)
    (hq : Reads q text rest good) : Reads (Reader.orElse p q) text rest good := by
  intro offset
  obtain ⟨a, stop, hr, ha⟩ := hq offset
  exact ⟨a, stop, by simp only [Reader.orElse, hp offset, hr], ha⟩

theorem Refuses.orElse {p q : Reader α} (hp : Refuses p text) (hq : Refuses q text) :
    Refuses (Reader.orElse p q) text := by
  intro offset
  simp only [Reader.orElse, hp offset, hq offset]

theorem refuses_oneOf {readers : List (Reader α)} (h : ∀ r ∈ readers, Refuses r text) :
    Refuses (oneOf readers) text := by
  induction readers with
  | nil => exact fun _ => rfl
  | cons r readers ih =>
      exact (h r List.mem_cons_self).orElse (ih fun q hq => h q (List.mem_cons_of_mem _ hq))

/-- The first reader that does not refuse the text reads it. -/
theorem reads_oneOf {before after : List (Reader α)} {r : Reader α} {good : α → Prop}
    (hbefore : ∀ q ∈ before, Refuses q text) (h : Reads r text rest good) :
    Reads (oneOf (before ++ r :: after)) text rest good := by
  induction before with
  | nil => exact h.orElse _
  | cons q before ih =>
      exact (hbefore q List.mem_cons_self).orElse_reads
        (ih fun p hp => hbefore p (List.mem_cons_of_mem _ hp))

theorem Reads.optional {r : Reader α} {good : α → Prop} (h : Reads r text rest good) :
    Reads (optional r) text rest (fun found => ∃ a, found = some a ∧ good a) :=
  Reads.orElse (h.bind fun a ha => reads_pure ⟨a, rfl, ha⟩) _

theorem Refuses.optional {r : Reader α} (h : Refuses r text) :
    Reads (optional r) text text (· = none) :=
  Refuses.orElse_reads (h.bind _) (reads_pure rfl)

/-! ### Layout and marks -/

theorem skipFrom_of_solid (h : Solid text) (offset : Nat) :
    Cursor.skipFrom false offset text = ⟨offset, text⟩ := by
  unfold Cursor.skipFrom
  split
  · rfl
  · exact absurd rfl (h '/' rfl).2
  · rename_i c rest _
    rw [if_neg nofun, if_neg (by simp [(h c rfl).1])]

theorem reads_layout (h : Solid text) : Reads layout text text (fun _ => True) :=
  fun offset => ⟨(), offset, by rw [layout, Cursor.skip, skipFrom_of_solid h], trivial⟩

theorem reads_layout_space (h : Solid text) :
    Reads layout (' ' :: text) text (fun _ => True) := by
  intro offset
  have hskip : Cursor.skipFrom false offset (' ' :: text) = ⟨offset + 1, text⟩ := by
    rw [Cursor.skipFrom, if_neg nofun, if_pos (by decide), skipFrom_of_solid h]
    nofun
  exact ⟨(), offset + 1, by rw [layout, Cursor.skip, hskip], trivial⟩

theorem reads_offset : Reads offset text text (fun _ => True) :=
  fun start => ⟨start, start, rfl, trivial⟩

theorem reads_expect (mark rest : List Char) :
    Reads (expect mark) (mark ++ rest) rest (fun _ => True) := by
  intro offset
  refine ⟨(), offset + Text.byteLength mark, ?_, trivial⟩
  rw [expect, if_pos (by simp), List.drop_left]
  rfl

/-- A mark is refused where the text does not begin with its first character. -/
theorem refuses_expect {c : Char} {mark : List Char} (hc : c ∈ mark.head?) (h : c ∉ text.head?) :
    Refuses (expect mark) text := by
  intro offset
  have hprefix : mark.isPrefixOf text = false := by
    cases mark with
    | nil => cases hc
    | cons d mark =>
        cases hc
        cases text with
        | nil => rfl
        | cons d text =>
            have hne : (c == d) = false := by
              rw [beq_eq_false_iff_ne]
              rintro rfl
              exact h rfl
            rw [List.isPrefixOf, hne, Bool.false_and]
  simp only [expect, hprefix, Bool.false_eq_true, if_false]

theorem reads_scan {scanner : Scanner α} {a : α} {taken : List Char}
    (h : scanner text = some (a, taken, rest)) : Reads (scan scanner) text rest (· = a) :=
  fun _ => ⟨a, _, by simp only [scan, h]; rfl, rfl⟩

theorem refuses_scan {scanner : Scanner α} (h : scanner text = none) :
    Refuses (scan scanner) text :=
  fun _ => by simp only [scan, h]

theorem Reads.tried {r : Reader α} {good : α → Prop} (h : Reads r text rest good)
    (construct : Construct) : Reads (tried construct r) text rest good := by
  intro offset
  obtain ⟨a, stop, hr, ha⟩ := h offset
  exact ⟨a, stop, by simp only [Reader.tried, hr], ha⟩

theorem Refuses.tried {r : Reader α} (h : Refuses r text) (construct : Construct) :
    Refuses (tried construct r) text := by
  intro offset
  simp only [Reader.tried, h offset]

theorem Reads.spanned {r : Reader α} {good : α → Prop} (h : Reads r text rest good) :
    Reads (spanned r) text rest (fun found => good found.2) :=
  reads_offset.bind fun _ _ => h.bind fun _ ha => reads_offset.bind fun _ _ => reads_pure ha

theorem Refuses.spanned {r : Reader α} (h : Refuses r text) : Refuses (spanned r) text :=
  reads_offset.bind_refuses fun _ _ => h.bind _

/-! ### Repetitions -/

theorem Refuses.many {r : Reader α} (h : Refuses r text) (fuel : Nat) :
    Reads (many r fuel) text text (· = []) :=
  Refuses.orElse_reads (h.bind _) (reads_pure rfl)

theorem Refuses.following {r : Reader α} (hsolid : Solid text) (h : Refuses r text) (fuel : Nat) :
    Reads (following r fuel) text text (· = []) := by
  cases fuel with
  | zero => exact reads_pure rfl
  | succ fuel =>
      refine Refuses.orElse_reads ?_ (reads_pure rfl)
      exact (reads_layout hsolid).bind_refuses fun _ _ => h.bind _

section Items

variable {r : Reader α} {shown : γ → List Char} {good : γ → α → Prop} {xs : List γ} {fuel : Nat}

/-- A text that each of the readers of a list begins after is again one behind a literal. -/
theorem closes_flatMap (hshown : ∀ x, ∃ tail, shown x = ',' :: tail) (hrest : Closes rest)
    (xs : List γ) : Closes (xs.flatMap shown ++ rest) := by
  cases xs with
  | nil => exact hrest
  | cons x xs =>
      obtain ⟨tail, htail⟩ := hshown x
      rw [List.flatMap_cons, htail]
      exact .cons (by decide)

/-- Texts that begin with commas are read one after the other. -/
theorem reads_following (hshown : ∀ x, ∃ tail, shown x = ',' :: tail)
    (h : ∀ x ∈ xs, ∀ rest, Closes rest → Reads r (shown x ++ rest) rest (good x))
    (hrest : Closes rest) (hstop : Refuses r rest) (hfuel : xs.length ≤ fuel) :
    Reads (following r fuel) (xs.flatMap shown ++ rest) rest (List.Forall₂ good xs) := by
  induction xs generalizing fuel with
  | nil =>
      exact (hstop.following hrest.solid fuel).mono fun _ hnil => hnil ▸ .nil
  | cons x xs ih =>
      cases fuel with
      | zero => exact absurd hfuel (Nat.not_succ_le_zero _)
      | succ fuel =>
          have hmore := closes_flatMap hshown hrest xs
          have hsolid := (closes_flatMap hshown hrest (x :: xs)).solid
          rw [following]
          refine Reads.orElse ((reads_layout hsolid).bind fun _ _ => ?_) _
          rw [List.flatMap_cons, List.append_assoc]
          refine (h x List.mem_cons_self _ hmore).bind fun a ha => ?_
          refine (ih (fun y hy => h y (List.mem_cons_of_mem _ hy))
            (Nat.le_of_succ_le_succ hfuel)).bind fun as has => ?_
          exact reads_pure (.cons ha has)

theorem reads_many (hshown : ∀ x, ∃ tail, shown x = ',' :: tail)
    (h : ∀ x ∈ xs, ∀ rest, Closes rest → Reads r (shown x ++ rest) rest (good x))
    (hrest : Closes rest) (hstop : Refuses r rest) (hfuel : xs.length ≤ fuel) :
    Reads (many r fuel) (xs.flatMap shown ++ rest) rest (List.Forall₂ good xs) := by
  cases xs with
  | nil => exact (hstop.many fuel).mono fun _ hnil => hnil ▸ .nil
  | cons x xs =>
      have hmore := closes_flatMap hshown hrest xs
      rw [many, List.flatMap_cons, List.append_assoc]
      refine Reads.orElse ((h x List.mem_cons_self _ hmore).bind fun a ha => ?_) _
      refine (reads_following hshown (fun y hy => h y (List.mem_cons_of_mem _ hy)) hrest hstop
        (Nat.le_of_succ_le hfuel)).bind fun as has => ?_
      exact reads_pure (.cons ha has)

end Items

end Reader

/-! ### Items between brackets -/

/-- Texts with a comma and a blank between them. -/
def joined : List (List Char) → List Char
  | [] => []
  | text :: texts => text ++ texts.flatMap fun text => ',' :: ' ' :: text

theorem length_le_length_joined {text : List Char} {texts : List (List Char)} (h : text ∈ texts) :
    text.length ≤ (joined texts).length := by
  cases texts with
  | nil => cases h
  | cons first rest =>
      rw [joined, List.length_append]
      rcases List.mem_cons.mp h with rfl | h
      · exact Nat.le_add_right _ _
      · obtain ⟨before, after, rfl⟩ := List.append_of_mem h
        simp only [List.flatMap_append, List.flatMap_cons, List.length_append, List.length_cons]
        omega

/-- Between the texts there are enough characters to count them by. -/
theorem length_le_length_joined_succ (texts : List (List Char)) :
    texts.length ≤ (joined texts).length + 1 := by
  have hrest : ∀ rest : List (List Char),
      rest.length ≤ (rest.flatMap fun text => ',' :: ' ' :: text).length := by
    intro rest
    induction rest with
    | nil => exact Nat.le_refl _
    | cons text rest ih =>
        simp only [List.flatMap_cons, List.length_append, List.length_cons]
        omega
  cases texts with
  | nil => exact Nat.zero_le _
  | cons first rest =>
      have hle := hrest rest
      rw [joined, List.length_append, List.length_cons]
      omega

/-- What stands behind the first of the texts closes it. -/
theorem closes_following {γ : Type} (shown : γ → List Char) {rest : List Char}
    (hrest : Closes rest) (xs : List γ) :
    Closes (xs.flatMap (fun x => ',' :: ' ' :: shown x) ++ rest) :=
  Reader.closes_flatMap (fun _ => ⟨_, rfl⟩) hrest xs

namespace Reader

variable {α γ : Type} {item : Reader α} {shown : γ → List Char} {good : γ → α → Prop}
  {xs : List γ} {fuel : Nat}

/-- The item reads each text, which is solid, up to what closes it. -/
def ReadsEach (item : Reader α) (shown : γ → List Char) (good : γ → α → Prop) (xs : List γ) :
    Prop :=
  ∀ x ∈ xs, ∀ rest, Closes rest →
    Solid (shown x ++ rest) ∧ Reads item (shown x ++ rest) rest (good x)

theorem reads_commaSeparated {x : γ} {rest : List Char} (h : ReadsEach item shown good (x :: xs))
    (hrest : Closes rest) (hcomma : ',' ∉ rest.head?) (hfuel : xs.length ≤ fuel) :
    Reads (commaSeparated item fuel) (joined ((x :: xs).map shown) ++ rest) rest
      (List.Forall₂ good (x :: xs)) := by
  have hnext : ∀ y ∈ xs, ∀ rest, Closes rest →
      Reads (do expect [',']; layout; item) (',' :: ' ' :: shown y ++ rest) rest (good y) := by
    intro y hy rest hrest
    obtain ⟨hsolid, hread⟩ := h y (List.mem_cons_of_mem _ hy) rest hrest
    exact (reads_expect [','] _).bind fun _ _ => (reads_layout_space hsolid).bind fun _ _ => hread
  have hmore := closes_following shown hrest xs
  obtain ⟨-, hfirst⟩ := h x List.mem_cons_self _ hmore
  have hstop : Refuses (do expect [',']; layout; item) rest := (refuses_expect rfl hcomma).bind _
  rw [List.map_cons, joined, List.flatMap_map, List.append_assoc]
  refine hfirst.bind fun a ha => (reads_layout hmore.solid).bind fun _ _ => ?_
  refine (reads_many (fun _ => ⟨_, rfl⟩) hnext hrest hstop hfuel).bind fun as has => ?_
  refine (reads_layout hrest.solid).bind fun _ _ => ?_
  exact (refuses_expect rfl hcomma).optional.bind fun _ _ => reads_pure (.cons ha has)

/-- Items are read between their brackets, if no item is read at the closing one. -/
theorem reads_enclosed (opening closing : Char) {rest : List Char}
    (hclosing : closing ∈ [')', ']', '\x7d']) (hitem : Refuses item (closing :: rest))
    (h : ReadsEach item shown good xs) (hfuel : xs.length ≤ fuel) :
    Reads (enclosed opening closing item fuel)
      (opening :: (joined (xs.map shown) ++ closing :: rest)) rest (List.Forall₂ good xs) := by
  have hcloses : Closes (closing :: rest) :=
    .cons (List.mem_cons_of_mem _ (List.mem_cons_of_mem _ hclosing))
  have hcomma : ',' ∉ (closing :: rest).head? := by
    rintro ⟨⟩
    revert hclosing
    decide
  refine (reads_expect [opening] _).bind fun _ _ => ?_
  cases xs with
  | nil =>
      -- the first item is looked for in vain
      refine (reads_layout hcloses.solid).bind fun _ _ => ?_
      have hnone : Refuses (commaSeparated item fuel) (closing :: rest) := hitem.bind _
      refine hnone.optional.bind fun found hfound => (reads_layout hcloses.solid).bind fun _ _ => ?_
      refine (reads_expect [closing] rest).bind fun _ _ => reads_pure ?_
      exact hfound ▸ .nil
  | cons x xs =>
      have hsolid : Solid (joined ((x :: xs).map shown) ++ closing :: rest) := by
        rw [List.map_cons, joined, List.flatMap_map, List.append_assoc]
        exact (h x List.mem_cons_self _ (closes_following shown hcloses xs)).1
      refine (reads_layout hsolid).bind fun _ _ => ?_
      have hsome := reads_commaSeparated h hcloses hcomma (Nat.le_of_succ_le hfuel)
      refine hsome.optional.bind fun found hfound => (reads_layout hcloses.solid).bind fun _ _ => ?_
      refine (reads_expect [closing] rest).bind fun _ _ => reads_pure ?_
      obtain ⟨as, rfl, has⟩ := hfound
      exact has

end Reader

end EmbeddedExpr.Grammar
