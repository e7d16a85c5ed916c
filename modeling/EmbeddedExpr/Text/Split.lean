/-!
# Parts of a text

Occurrences of one text in another, and the parts between the occurrences of a
separator, taken from left to right.
-/

namespace EmbeddedExpr.Text

/-- Whether a text occurs in another. -/
def occursIn (needle : List Char) : List Char → Bool
  | [] => needle.isEmpty
  | c :: rest => needle.isPrefixOf (c :: rest) || occursIn needle rest

/-- The parts of a text after `skip` more characters of a separator; `part` holds
the characters of the current part backwards. -/
def splitFrom (separator : List Char) (skip : Nat) (part : List Char) :
    List Char → List (List Char)
  | [] => [part.reverse]
  | c :: rest =>
    match skip with
    | n + 1 => splitFrom separator n part rest
    | 0 =>
      if separator.isPrefixOf (c :: rest) then
        part.reverse :: splitFrom separator (separator.length - 1) [] rest
      else splitFrom separator 0 (c :: part) rest

/-- The parts between separators; an empty separator separates all characters. -/
def split (separator text : List Char) : List (List Char) :=
  if separator.isEmpty then text.map fun c => [c] else splitFrom separator 0 [] text

end EmbeddedExpr.Text
