import EmbeddedExpr.Json.Document
import EmbeddedExpr.Number.Reading

/-!
# Reading documents

A text is first read as a `Tree`, which only its spelling decides: a number may
be too large for a double and a string may hold half of a surrogate pair.  A
tree is a document if none of this occurs and at most 127 arrays and objects
are nested.  Readers that skip a part of a text skip a tree, whatever it holds.
-/

namespace EmbeddedExpr.Json

/-- The structure of a text.  A number or a string that no document can hold is
missing. -/
inductive Tree
  | null
  | bool (b : Bool)
  | number (n : Option Numeral)
  | text (s : Option String)
  | array (items : List Tree)
  | object (fields : List (Option String × Tree))

/-! ### Strings -/

/-- The characters that code units spell, if each half of a surrogate pair has its
partner. -/
def joinSurrogates : List Nat → Option (List Char)
  | [] => some []
  | high :: low :: rest =>
    if 0xD800 ≤ high ∧ high < 0xDC00 then
      if 0xDC00 ≤ low ∧ low < 0xE000 then
        (joinSurrogates rest).map
          (Char.ofNat (0x10000 + (high - 0xD800) * 0x400 + (low - 0xDC00)) :: ·)
      else none
    else if 0xDC00 ≤ high ∧ high < 0xE000 then none
    else (joinSurrogates (low :: rest)).map (Char.ofNat high :: ·)
  | [unit] => if 0xD800 ≤ unit ∧ unit < 0xE000 then none else some [Char.ofNat unit]

/-- The character that an escape of one letter or mark stands for. -/
def unescapeLetter? (c : Char) : Option Nat :=
  match c with
  | '"' => some 0x22
  | '\\' => some 0x5C
  | '/' => some 0x2F
  | 'b' => some 0x08
  | 'f' => some 0x0C
  | 'n' => some 0x0A
  | 'r' => some 0x0D
  | 't' => some 0x09
  | _ => none

/-- The code units of a string up to its closing mark, and the text after it. -/
def stringUnits : List Char → Option (List Nat × List Char)
  | [] => none
  | '"' :: rest => some ([], rest)
  | '\\' :: 'u' :: a :: b :: c :: d :: rest => do
    let unit ← Number.readHex? [a, b, c, d]
    let (units, rest) ← stringUnits rest
    some (unit :: units, rest)
  | '\\' :: c :: rest => do
    let unit ← unescapeLetter? c
    let (units, rest) ← stringUnits rest
    some (unit :: units, rest)
  | c :: rest =>
    if c.toNat < 0x20 ∨ c = '\\' then none
    else do
      let (units, rest) ← stringUnits rest
      some (c.toNat :: units, rest)

/-- A string after its opening mark. -/
def readString (input : List Char) : Option (Option String × List Char) := do
  let (units, rest) ← stringUnits input
  some ((joinSurrogates units).map String.ofList, rest)

/-! ### Numbers -/

/-- A nonempty run of digits. -/
def digitRun (input : List Char) : Option (List Char × List Char) :=
  let run := input.takeWhile Number.isDigit
  if run.isEmpty then none else some (run, input.dropWhile Number.isDigit)

/-- The digits before the point, without needless zeros. -/
def wholePart (input : List Char) : Option (List Char × List Char) := do
  let (run, rest) ← digitRun input
  if run.head? = some '0' ∧ 1 < run.length then none else some (run, rest)

/-- The digits after a point, if there is one. -/
def fractionPart (input : List Char) : Option (Option (List Char) × List Char) :=
  match input with
  | '.' :: rest => (digitRun rest).map fun (run, rest) => (some run, rest)
  | rest => some (none, rest)

/-- The exponent, if there is one. -/
def exponentPart (input : List Char) : Option (Option Int × List Char) :=
  let read (negative : Bool) (input : List Char) : Option (Option Int × List Char) := do
    let (run, rest) ← digitRun input
    let n := (Number.readNat? run).getD 0
    some (some (if negative then -(n : Int) else n), rest)
  match input with
  | mark :: rest =>
    if mark = 'e' ∨ mark = 'E' then
      match rest with
      | '+' :: rest => read false rest
      | '-' :: rest => read true rest
      | rest => read false rest
    else some (none, mark :: rest)
  | [] => some (none, [])

/-- The number a text spells: a whole number where it has neither point nor
exponent and fits, else the nearest double if it is finite.  Minus zero is a
double. -/
def numberOf? (negative : Bool) (whole : List Char) (fraction : Option (List Char))
    (exponent : Option Int) : Option Numeral :=
  let real : Option Numeral :=
    let x := Number.DecimalText.toDouble
      ⟨negative, whole, fraction.getD [], exponent.getD 0⟩
    if h : x.isFinite = true then some (.real x h) else none
  match fraction, exponent with
  | none, none =>
    let magnitude := (Number.readNat? whole).getD 0
    let n : Int := if negative then -(magnitude : Int) else magnitude
    if h : WholeRange n then (if negative && magnitude == 0 then real else some (.whole n h))
    else real
  | _, _ => real

/-- A number of the text. -/
def readNumber (input : List Char) : Option (Option Numeral × List Char) := do
  let (negative, input) := match input with
    | '-' :: rest => (true, rest)
    | rest => (false, rest)
  let (whole, input) ← wholePart input
  let (fraction, input) ← fractionPart input
  let (exponent, input) ← exponentPart input
  some (numberOf? negative whole fraction exponent, input)

/-! ### Trees -/

/-- The characters between tokens. -/
def isSeparatorBlank (c : Char) : Bool :=
  c == ' ' || c == '\t' || c == '\r' || c == '\n'

def skipBlanks (input : List Char) : List Char := input.dropWhile isSeparatorBlank

/-- The items of an array after its opening bracket, at least one. -/
def itemsFrom (read : List Char → Option (Tree × List Char)) :
    Nat → List Char → Option (List Tree × List Char)
  | 0, _ => none
  | fuel + 1, input => do
    let (item, rest) ← read input
    match skipBlanks rest with
    | ',' :: rest =>
      let (items, rest) ← itemsFrom read fuel rest
      some (item :: items, rest)
    | ']' :: rest => some ([item], rest)
    | _ => none

/-- The fields of an object after its opening brace, at least one. -/
def fieldsFrom (read : List Char → Option (Tree × List Char)) :
    Nat → List Char → Option (List (Option String × Tree) × List Char)
  | 0, _ => none
  | fuel + 1, input =>
    match skipBlanks input with
    | '"' :: rest => do
      let (name, rest) ← readString rest
      match skipBlanks rest with
      | ':' :: rest =>
        let (value, rest) ← read rest
        match skipBlanks rest with
        | ',' :: rest =>
          let (fields, rest) ← fieldsFrom read fuel rest
          some ((name, value) :: fields, rest)
        | '\x7d' :: rest => some ([(name, value)], rest)
        | _ => none
      | _ => none
    | _ => none

/-- A tree at the start of a text.  The fuel bounds the nesting and the length of
each array and object; the length of the text is enough. -/
def readTree : Nat → List Char → Option (Tree × List Char)
  | 0, _ => none
  | fuel + 1, input =>
    match skipBlanks input with
    | 'n' :: 'u' :: 'l' :: 'l' :: rest => some (.null, rest)
    | 't' :: 'r' :: 'u' :: 'e' :: rest => some (.bool true, rest)
    | 'f' :: 'a' :: 'l' :: 's' :: 'e' :: rest => some (.bool false, rest)
    | '"' :: rest => (readString rest).map fun (s, rest) => (.text s, rest)
    | '[' :: rest =>
      match skipBlanks rest with
      | ']' :: rest => some (.array [], rest)
      | rest => (itemsFrom (readTree fuel) fuel rest).map fun (items, rest) => (.array items, rest)
    | '\x7b' :: rest =>
      match skipBlanks rest with
      | '\x7d' :: rest => some (.object [], rest)
      | rest =>
        (fieldsFrom (readTree fuel) fuel rest).map fun (fields, rest) => (.object fields, rest)
    | rest => (readNumber rest).map fun (n, rest) => (.number n, rest)

/-- The tree that a whole text spells. -/
def Tree.ofText? (input : List Char) : Option Tree := do
  let (tree, rest) ← readTree (input.length + 1) input
  if (skipBlanks rest).isEmpty then some tree else none

/-! ### Documents -/

mutual

/-- How many arrays and objects are nested. -/
def Tree.depth : Tree → Nat
  | .array items => Tree.itemsDepth items + 1
  | .object fields => Tree.fieldsDepth fields + 1
  | _ => 0

def Tree.itemsDepth : List Tree → Nat
  | [] => 0
  | item :: rest => max (Tree.depth item) (Tree.itemsDepth rest)

def Tree.fieldsDepth : List (Option String × Tree) → Nat
  | [] => 0
  | (_, value) :: rest => max (Tree.depth value) (Tree.fieldsDepth rest)

end

mutual

/-- The document of a tree whose numbers and strings are all there. -/
def Tree.complete? : Tree → Option Json
  | .null => some .null
  | .bool b => some (.bool b)
  | .number n => n.map Json.number
  | .text s => s.map Json.text
  | .array items => (Tree.completeItems? items).map Json.array
  | .object fields => (Tree.completeFields? fields).map Json.object

def Tree.completeItems? : List Tree → Option (List Json)
  | [] => some []
  | item :: rest =>
    match Tree.complete? item, Tree.completeItems? rest with
    | some j, some js => some (j :: js)
    | _, _ => none

def Tree.completeFields? : List (Option String × Tree) → Option (List (String × Json))
  | [] => some []
  | (name, value) :: rest =>
    match name, Tree.complete? value, Tree.completeFields? rest with
    | some n, some j, some js => some ((n, j) :: js)
    | _, _, _ => none

end

/-- The greatest nesting of a document. -/
def deepest : Nat := 127

/-- The document of a tree that stands inside `outer` arrays and objects. -/
def Tree.document? (outer : Nat) (tree : Tree) : Option Json :=
  if outer + tree.depth ≤ deepest then tree.complete? else none

/-- The document that a text spells. -/
def ofText? (input : List Char) : Option Json := do
  let tree ← Tree.ofText? input
  tree.document? 0

end EmbeddedExpr.Json
