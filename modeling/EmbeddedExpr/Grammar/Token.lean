import EmbeddedExpr.Number.Reading

/-!
# Tokens

The scanners of literals and names.  A scanner takes characters from the front of
a text and splits it into the characters taken and the rest.
-/

namespace EmbeddedExpr.Grammar

/-- A literal or a name as written. -/
inductive Token
  | double (text : List Char)
  /-- The digits of an unsigned integer, without the mark that ends it. -/
  | uint (hex : Bool) (digits text : List Char)
  | int (hex : Bool) (digits text : List Char)
  | null
  | bool (b : Bool)
  /-- The body of a string literal; a raw one has no escapes. -/
  | text (raw : Bool) (body : List Char)
  | bytes (raw : Bool) (body : List Char)
  | name (text : List Char)
  deriving DecidableEq, Repr

/-- A scanner: what the characters mean, the characters, and the rest. -/
abbrev Scanner (α : Type) := List Char → Option (α × List Char × List Char)

namespace Scanner

open Number (isDigit isHexDigit)

/-! ### Words -/

def isLetter (c : Char) : Bool :=
  ('a' ≤ c && c ≤ 'z') || ('A' ≤ c && c ≤ 'Z')

/-- The characters of a name after its first. -/
def isNameChar (c : Char) : Bool := isLetter c || isDigit c || c == '_'

/-- Whether a text begins with a character of a name. -/
def startsName : List Char → Bool
  | [] => false
  | c :: _ => isNameChar c

/-- A word that is not the beginning of a longer one. -/
def word (w : List Char) : Scanner Unit := fun text =>
  if w.isPrefixOf text && !startsName (text.drop w.length) then some ((), w, text.drop w.length)
  else none

/-- The words that are no names. -/
def keywords : List (List Char) :=
  [['t', 'r', 'u', 'e'], ['f', 'a', 'l', 's', 'e'], ['n', 'u', 'l', 'l'], ['i', 'n']]

/-- A letter or underscore and all characters of a name after it, except a keyword. -/
def name : Scanner Token := fun text =>
  let taken := text.takeWhile isNameChar
  match taken with
  | [] => none
  | c :: _ =>
    if (isLetter c || c == '_') && !keywords.contains taken then
      some (.name taken, taken, text.dropWhile isNameChar)
    else none

def null : Scanner Token := fun text =>
  (word ['n', 'u', 'l', 'l'] text).map fun (_, taken, rest) => (.null, taken, rest)

def bool : Scanner Token := fun text =>
  match word ['t', 'r', 'u', 'e'] text with
  | some (_, taken, rest) => some (.bool true, taken, rest)
  | none =>
    (word ['f', 'a', 'l', 's', 'e'] text).map fun (_, taken, rest) => (.bool false, taken, rest)

/-! ### Numbers -/

/-- A nonempty run of digits. -/
def digits (text : List Char) : Option (List Char × List Char) :=
  let run := text.takeWhile isDigit
  if run.isEmpty then none else some (run, text.dropWhile isDigit)

/-- The mark `0x` and a nonempty run of hexadecimal digits; yields the digits, the
characters taken and the rest. -/
def hexDigits (text : List Char) : Option (List Char × List Char × List Char) :=
  match text with
  | '0' :: mark :: rest =>
    let run := rest.takeWhile isHexDigit
    if (mark == 'x' || mark == 'X') && !run.isEmpty then
      some (run, '0' :: mark :: run, rest.dropWhile isHexDigit)
    else none
  | _ => none

/-- An exponent: its mark, an optional sign, digits. -/
def exponent (text : List Char) : Option (List Char × List Char) :=
  match text with
  | mark :: rest =>
    if mark == 'e' || mark == 'E' then
      match rest with
      | sign :: after =>
        if sign == '+' || sign == '-' then
          (digits after).map fun (run, rest) => (mark :: sign :: run, rest)
        else (digits rest).map fun (run, rest) => (mark :: run, rest)
      | [] => none
    else none
  | [] => none

/-- An exponent if there is one. -/
def optionalExponent (text : List Char) : List Char × List Char :=
  (exponent text).getD ([], text)

/-- A point and digits. -/
def fraction (text : List Char) : Option (List Char × List Char) :=
  match text with
  | '.' :: rest => (digits rest).map fun (run, rest) => ('.' :: run, rest)
  | _ => none

/-- The characters of a double: digits with a fraction, an exponent or both, or a
fraction alone. -/
def doubleText (text : List Char) : Option (List Char × List Char) :=
  match digits text with
  | some (whole, rest) =>
    match fraction rest with
    | some (part, rest) =>
      let (power, rest) := optionalExponent rest
      some (whole ++ part ++ power, rest)
    | none => (exponent rest).map fun (power, rest) => (whole ++ power, rest)
  | none =>
    (fraction text).map fun (part, rest) =>
      let (power, rest) := optionalExponent rest
      (part ++ power, rest)

def double : Scanner Token := fun text =>
  (doubleText text).map fun (taken, rest) => (.double taken, taken, rest)

/-- The digits of an integer in either base: whether they are hexadecimal, the
digits, the characters taken, the rest. -/
def magnitude (text : List Char) : Option (Bool × List Char × List Char × List Char) :=
  match hexDigits text with
  | some (run, taken, rest) => some (true, run, taken, rest)
  | none => (digits text).map fun (run, rest) => (false, run, run, rest)

def int : Scanner Token := fun text =>
  (magnitude text).map fun (hex, run, taken, rest) => (.int hex run taken, taken, rest)

/-- An integer with the mark of unsigned integers. -/
def uint : Scanner Token := fun text =>
  match magnitude text with
  | some (hex, run, taken, mark :: rest) =>
    if mark == 'u' || mark == 'U' then
      some (.uint hex run (taken ++ [mark]), taken ++ [mark], rest)
    else none
  | _ => none

/-! ### Quoted literals -/

/-- The body of a literal up to a closing mark on the same line.  A backslash takes
the character after it along. -/
def bodyToMark (mark : Char) : List Char → Option (List Char × List Char)
  | [] => none
  | '\\' :: c :: rest => (bodyToMark mark rest).map fun (body, rest) => ('\\' :: c :: body, rest)
  | c :: rest =>
    if c = mark then some ([], rest)
    else if c = '\n' then none
    else (bodyToMark mark rest).map fun (body, rest) => (c :: body, rest)

/-- The body of a literal up to three closing marks. -/
def bodyToMarks (mark : Char) : List Char → Option (List Char × List Char)
  | [] => none
  | '\\' :: c :: rest => (bodyToMarks mark rest).map fun (body, rest) => ('\\' :: c :: body, rest)
  | c :: rest =>
    if c = mark ∧ [mark, mark].isPrefixOf rest then some ([], rest.drop 2)
    else (bodyToMarks mark rest).map fun (body, rest) => (c :: body, rest)

/-- A literal between three marks or, failing that, between single ones: its body,
the characters taken, and the rest. -/
def quotedBy (mark : Char) : Scanner (List Char) := fun text =>
  let long := if [mark, mark, mark].isPrefixOf text then bodyToMarks mark (text.drop 3) else none
  match long with
  | some (body, rest) =>
    some (body, [mark, mark, mark] ++ body ++ [mark, mark, mark], rest)
  | none =>
    match text with
    | c :: after =>
      if c = mark then
        (bodyToMark mark after).map fun (body, rest) => (body, [mark] ++ body ++ [mark], rest)
      else none
    | [] => none

/-- A literal between quotation marks or apostrophes. -/
def quoted : Scanner (List Char) := fun text =>
  match quotedBy '"' text with
  | some result => some result
  | none => quotedBy '\'' text

def isRawMark (c : Char) : Bool := c == 'r' || c == 'R'

def isBytesMark (c : Char) : Bool := c == 'b' || c == 'B'

/-- The marks before a bytes literal: whether it is raw, the marks, and the rest. -/
def bytesMarks (text : List Char) : Option (Bool × List Char × List Char) :=
  match text with
  | a :: b :: rest =>
    if isBytesMark a then
      if isRawMark b then some (true, [a, b], rest) else some (false, [a], b :: rest)
    else if isRawMark a && isBytesMark b then some (true, [a, b], rest)
    else none
  | _ => none

def bytes : Scanner Token := fun text =>
  match bytesMarks text with
  | some (raw, marks, rest) =>
    (quoted rest).map fun (body, taken, rest) => (.bytes raw body, marks ++ taken, rest)
  | none => none

def text : Scanner Token := fun text =>
  match text with
  | c :: rest =>
    if isRawMark c then
      (quoted rest).map fun (body, taken, rest) => (.text true body, c :: taken, rest)
    else (quoted (c :: rest)).map fun (body, taken, rest) => (.text false body, taken, rest)
  | [] => none

end Scanner

end EmbeddedExpr.Grammar
