import EmbeddedExpr.Proofs.Grammar.Balance
import EmbeddedExpr.Proofs.Value.Denotation
import EmbeddedExpr.Value.Literal

/-!
# The characters of the text of a value

`spelling` is the text of a value as a list of characters, which is what the scan and the readers
of a source go through.  There is one equation for each kind, with whatever stands behind the
value; the texts of items and entries are `joined` by commas.

The nesting scan passes over such a text if the value is nested below the bound
(`skips_spelling`).  A negative integer and a duration need one level more than their nesting,
which is none: the one for its sign, the other for the parentheses of its call.
-/

namespace EmbeddedExpr

open Text (escapeBody escapeBytes)
open Number (AllDigits)
open Grammar (joined Closes Solid)

namespace Value

/-- The characters of the text of a value. -/
def spelling (v : Value) : List Char := v.display.toList

/-- The characters of the text of an entry. -/
def entrySpelling (entry : MapKey × Value) : List Char :=
  entry.1.toValue.spelling ++ ':' :: ' ' :: entry.2.spelling

theorem spelling_null : null.spelling = ['n', 'u', 'l', 'l'] := rfl

theorem spelling_bool (b : Bool) :
    (bool b).spelling = if b then ['t', 'r', 'u', 'e'] else ['f', 'a', 'l', 's', 'e'] := by
  cases b <;> rfl

theorem spelling_int_of_nonneg {i : Int64} (h : 0 ≤ i.toInt) :
    (int i).spelling = Nat.toDigits 10 i.toInt.natAbs := by
  change (toString i.toInt).toList = _
  rw [Int.toString_eq_repr, Int.repr_eq_if, if_pos h, Nat.toList_repr]
  congr 1
  omega

theorem spelling_int_of_neg {i : Int64} (h : i.toInt < 0) :
    (int i).spelling = '-' :: Nat.toDigits 10 i.toInt.natAbs := by
  change (toString i.toInt).toList = _
  rw [Int.toString_eq_repr, Int.repr_eq_if, if_neg (Int.not_le.mpr h)]
  have hmagnitude : (-i.toInt).toNat = i.toInt.natAbs := by omega
  simp [hmagnitude]

section Append

variable (rest : List Char)

theorem spelling_uint (u : UInt64) :
    (uint u).spelling ++ rest = Nat.toDigits 10 u.toNat ++ 'u' :: rest := by
  change (toString u.toNat ++ "u").toList ++ rest = _
  rw [String.toList_append, Nat.toString_eq_repr, Nat.toList_repr, List.append_assoc]
  rfl

theorem spelling_text (s : String) :
    (text s).spelling ++ rest = '"' :: (escapeBody s.toList ++ '"' :: rest) := by
  change (Text.escapeText s).toList ++ rest = _
  simp [Text.escapeText]

theorem spelling_bytes (bs : List UInt8) :
    (bytes bs).spelling ++ rest = 'b' :: '"' :: (escapeBytes bs ++ '"' :: rest) := by
  change ("b\"" ++ String.ofList (escapeBytes bs) ++ "\"").toList ++ rest = _
  simp

/-- A text in which nothing is escaped as the argument of a call. -/
theorem joined_argument {s : String} (h : escapeBody s.toList = s.toList) :
    joined [(text s).spelling] = '"' :: (s.toList ++ ['"']) := by
  have hargument := spelling_text [] s
  rw [List.append_nil, h] at hargument
  rw [hargument]
  simp [joined]

/-- A duration is spelled as a call with its text as the argument. -/
theorem spelling_duration (d : Time.Duration) :
    (duration d).spelling ++ rest =
      ['d', 'u', 'r', 'a', 't', 'i', 'o', 'n'] ++ '(' :: (joined [(text d.text).spelling] ++
        ')' :: rest) := by
  change ("duration(\"" ++ d.text ++ "\")").toList ++ rest = _
  rw [joined_argument d.escapeBody_text]
  simp

end Append

/-! ### Items and entries -/

theorem joined_cons_cons (first second : List Char) (rest : List (List Char)) :
    joined (first :: second :: rest) = first ++ ',' :: ' ' :: joined (second :: rest) := by
  simp [joined]

theorem toList_displayItems (items : List Value) :
    (displayItems items).toList = joined (items.map spelling) := by
  induction items with
  | nil => rfl
  | cons item rest ih =>
      cases rest with
      | nil =>
          change item.spelling = joined [item.spelling]
          simp [joined]
      | cons next rest =>
          rw [List.map_cons, List.map_cons, joined_cons_cons, ← List.map_cons, ← ih]
          change (display item ++ ", " ++ displayItems (next :: rest)).toList = _
          simp [spelling]

theorem spelling_list (items : List Value) (rest : List Char) :
    (list items).spelling ++ rest = '[' :: (joined (items.map spelling) ++ ']' :: rest) := by
  change ("[" ++ displayItems items ++ "]").toList ++ rest = _
  simp [toList_displayItems]

/-- A key is spelled as the value that it is. -/
theorem toList_displayEntry (entry : MapKey × Value) :
    (displayKey entry.1 ++ ": " ++ display entry.2).toList = entrySpelling entry := by
  have hkey : displayKey entry.1 = entry.1.toValue.display := by
    cases entry.1 <;> rfl
  simp [hkey, entrySpelling, spelling]

theorem toList_displayEntries (entries : List (MapKey × Value)) :
    (displayEntries entries).toList = joined (entries.map entrySpelling) := by
  induction entries with
  | nil => rfl
  | cons entry rest ih =>
      have hentry := toList_displayEntry entry
      cases rest with
      | nil =>
          change (displayKey entry.1 ++ ": " ++ display entry.2).toList = joined [_]
          rw [hentry]
          simp [joined]
      | cons next rest =>
          rw [List.map_cons, List.map_cons, joined_cons_cons, ← List.map_cons, ← ih, ← hentry]
          change (displayKey entry.1 ++ ": " ++ display entry.2 ++ ", " ++
            displayEntries (next :: rest)).toList = _
          simp

theorem spelling_map (entries : List (MapKey × Value)) (rest : List Char) :
    (map entries).spelling ++ rest =
      '\x7b' :: (joined (entries.map entrySpelling) ++ '\x7d' :: rest) := by
  change ("\x7b" ++ displayEntries entries ++ "\x7d").toList ++ rest = _
  simp [toList_displayEntries]

/-! ### Nesting -/

/-- The kinds of values whose texts are read back exactly. -/
def HasExactText : Value → Prop
  | double _ | timestamp _ | function .. => False
  | _ => True

open Grammar.Nesting

section Skips

variable {bound : Nat} {brackets : List (Char × Nat)} {rest : List Char}

theorem skips_digits {run : List Char} (hrun : AllDigits run) :
    Skips bound brackets (run ++ rest) rest :=
  skips_all fun c hc => isOrdinary_of_isDigit (hrun c hc)

theorem skips_int (hbound : brackets.length < bound) (i : Int64) :
    Skips bound brackets ((int i).spelling ++ rest) rest := by
  have hdigits := Number.allDigits_toDigits i.toInt.natAbs
  by_cases h : i.toInt < 0
  · rw [spelling_int_of_neg h]
    obtain ⟨c, tail, htoDigits⟩ : ∃ c tail, Nat.toDigits 10 i.toInt.natAbs = c :: tail :=
      List.exists_cons_of_ne_nil Nat.toDigits_ne_nil
    rw [htoDigits] at hdigits ⊢
    exact (skips_minus hbound (hdigits c List.mem_cons_self)).trans
      (skips_digits fun d hd => hdigits d (List.mem_cons_of_mem _ hd))
  · rw [spelling_int_of_nonneg (Int.not_lt.mp h)]
    exact skips_digits hdigits

theorem skips_text (s : String) (hrest : '"' ∉ rest.head?) :
    Skips bound brackets ((text s).spelling ++ rest) rest := by
  rw [spelling_text]
  exact skips_quoted (Text.quotable_escapeBody s.toList) hrest

theorem skips_bool (b : Bool) : Skips bound brackets ((bool b).spelling ++ rest) rest := by
  refine skips_all ?_
  rw [spelling_bool]
  cases b <;> simp [IsOrdinary]

theorem skips_uint (u : UInt64) : Skips bound brackets ((uint u).spelling ++ rest) rest := by
  rw [spelling_uint]
  exact (skips_digits (Number.allDigits_toDigits u.toNat)).trans (skips_ordinary (by decide))

theorem skips_bytes (bs : List UInt8) (hrest : '"' ∉ rest.head?) :
    Skips bound brackets ((bytes bs).spelling ++ rest) rest := by
  rw [spelling_bytes]
  exact (skips_ordinary (by decide)).trans (skips_quoted (Text.quotable_escapeBytes bs) hrest)

theorem skips_call {name : List Char} (hname : ∀ c ∈ name, IsOrdinary c)
    (hbound : brackets.length < bound) (s : String) :
    Skips bound brackets (name ++ '(' :: (joined [(text s).spelling] ++ ')' :: rest)) rest := by
  refine (skips_all hname).trans (skips_enclosed ')' rfl hbound fun offset => ?_)
  rw [joined, List.flatMap_nil, List.append_nil]
  exact skips_text s (by simp)

theorem skips_duration (hbound : brackets.length < bound) (d : Time.Duration) :
    Skips bound brackets ((duration d).spelling ++ rest) rest := by
  rw [spelling_duration]
  exact skips_call (by simp [IsOrdinary]) hbound d.text

/-- Keys take up no nesting but the sign of a negative integer. -/
theorem skips_key (hbound : brackets.length < bound) (k : MapKey) (hrest : '"' ∉ rest.head?) :
    Skips bound brackets (k.toValue.spelling ++ rest) rest := by
  cases k with
  | bool b => exact skips_bool b
  | int i => exact skips_int hbound i
  | uint u => exact skips_uint u
  | text s => exact skips_text s hrest

theorem skips_entry {entry : MapKey × Value} (hbound : brackets.length < bound)
    (h : Skips bound brackets (entry.2.spelling ++ rest) rest) :
    Skips bound brackets (entrySpelling entry ++ rest) rest := by
  rw [entrySpelling, List.append_assoc]
  refine (skips_key hbound entry.1 (by simp)).trans ?_
  exact (skips_ordinary (by decide)).trans ((skips_ordinary (by decide)).trans h)

/-- The nesting scan passes over the text of a value that is nested below the bound. -/
theorem skips_spelling {v : Value} (hkinds : v.Throughout HasExactText)
    (hbound : brackets.length + v.nesting < bound) (hrest : Closes rest) :
    Skips bound brackets (v.spelling ++ rest) rest := by
  -- the members are scanned inside one more bracket and nested one level less
  induction v using Value.induct generalizing brackets rest with
  | step v ih =>
      have hquote : '"' ∉ rest.head? := hrest.not_mem_head (by decide)
      have hhere := hkinds.here
      have hdeeper : brackets.length < bound := by omega
      cases v with
      | null => exact skips_all (by simp [spelling_null, IsOrdinary])
      | bool b => exact skips_bool b
      | int i => exact skips_int hdeeper i
      | uint u => exact skips_uint u
      | double => exact hhere.elim
      | text s => exact skips_text s hquote
      | bytes bs => exact skips_bytes bs hquote
      | list items =>
          rw [nesting] at hbound
          rw [spelling_list]
          refine skips_enclosed ']' rfl hdeeper fun offset => ?_
          refine skips_joined (fun item hitem rest hrest => ?_) (.cons (by decide))
          have hnesting := nesting_le_nestingItems hitem
          have hinside : (('[', offset) :: brackets).length + item.nesting < bound := by
            rw [List.length_cons]
            omega
          exact ih item hitem (hkinds.member hitem) hinside hrest
      | map entries =>
          rw [nesting] at hbound
          rw [spelling_map]
          refine skips_enclosed '\x7d' rfl hdeeper fun offset => ?_
          refine skips_joined (fun entry hentry rest hrest => ?_) (.cons (by decide))
          have hnesting := nesting_le_nestingEntries hentry
          have hmember : entry.2 ∈ (map entries).members := List.mem_map_of_mem hentry
          have hinside : (('\x7b', offset) :: brackets).length + entry.2.nesting < bound := by
            rw [List.length_cons]
            omega
          exact skips_entry (Nat.lt_of_le_of_lt (Nat.le_add_right _ _) hinside)
            (ih _ hmember (hkinds.member hmember) hinside hrest)
      | timestamp => exact hhere.elim
      | duration d => exact skips_duration hdeeper d
      | function => exact hhere.elim

end Skips

end Value

end EmbeddedExpr
