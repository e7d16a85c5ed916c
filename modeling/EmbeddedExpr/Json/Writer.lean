import EmbeddedExpr.Json.Document
import EmbeddedExpr.Number.Layout
import EmbeddedExpr.Text.Hex

/-!
# Documents as text

The compact form has no blanks; the indented form has one field or item a line
and two blanks for each level.  Only the quotation mark, the backslash and the
characters below the blank are escaped.
-/

namespace EmbeddedExpr.Json

/-- One character of a quoted text. -/
def quoteChar (c : Char) : List Char :=
  if c = '"' then ['\\', '"']
  else if c = '\\' then ['\\', '\\']
  else if c = '\x08' then ['\\', 'b']
  else if c = '\x0c' then ['\\', 'f']
  else if c = '\n' then ['\\', 'n']
  else if c = '\r' then ['\\', 'r']
  else if c = '\t' then ['\\', 't']
  else if c.toNat < 0x20 then '\\' :: 'u' :: Text.hexDigits 4 c.toNat
  else [c]

/-- A text with its quotation marks. -/
def quote (s : String) : String :=
  String.ofList ('"' :: s.toList.flatMap quoteChar ++ ['"'])

def Numeral.write : Numeral → String
  | .whole n _ => toString n
  | .real x _ => Number.Layout.document.write x

mutual

/-- The compact text of a document. -/
def write : Json → String
  | null => "null"
  | bool b => if b then "true" else "false"
  | number n => n.write
  | text s => quote s
  | array items => "[" ++ writeItems items ++ "]"
  | object fields => "\x7b" ++ writeFields fields ++ "\x7d"

def writeItems : List Json → String
  | [] => ""
  | [item] => write item
  | item :: rest => write item ++ "," ++ writeItems rest

def writeFields : List (String × Json) → String
  | [] => ""
  | [(name, value)] => quote name ++ ":" ++ write value
  | (name, value) :: rest => quote name ++ ":" ++ write value ++ "," ++ writeFields rest

end

/-- The blanks of a level. -/
def indent (level : Nat) : String := String.ofList (List.replicate (2 * level) ' ')

mutual

/-- The indented text of a document that stands at a level. -/
def pretty (level : Nat) : Json → String
  | array [] => "[]"
  | array items => "[\n" ++ prettyItems (level + 1) items ++ "\n" ++ indent level ++ "]"
  | object [] => "\x7b\x7d"
  | object fields =>
    "\x7b\n" ++ prettyFields (level + 1) fields ++ "\n" ++ indent level ++ "\x7d"
  | null => "null"
  | bool b => if b then "true" else "false"
  | number n => n.write
  | text s => quote s

def prettyItems (level : Nat) : List Json → String
  | [] => ""
  | [item] => indent level ++ pretty level item
  | item :: rest => indent level ++ pretty level item ++ ",\n" ++ prettyItems level rest

def prettyFields (level : Nat) : List (String × Json) → String
  | [] => ""
  | [(name, value)] => indent level ++ quote name ++ ": " ++ pretty level value
  | (name, value) :: rest =>
    indent level ++ quote name ++ ": " ++ pretty level value ++ ",\n" ++ prettyFields level rest

end

end EmbeddedExpr.Json
