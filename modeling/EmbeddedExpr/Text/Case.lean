import EmbeddedExpr.Text.CaseTable

/-!
# Lower and upper case

The full case mappings: a character may become several, and a capital sigma that
ends a word becomes the final form.  A word ends where the nearest character that
is not ignorable is cased before the sigma and not cased after it.
-/

namespace EmbeddedExpr.Text

/-- The image of a character under sequences and ranges; a character in none stays
itself. -/
def mapCase (sequences : List (Nat × List Nat)) (ranges : List CaseRange) (c : Char) : List Char :=
  match sequences.find? fun entry => entry.1 == c.toNat with
  | some (_, images) => images.map Char.ofNat
  | none =>
    match ranges.findSome? fun r => r.map? c.toNat with
    | some n => [Char.ofNat n]
    | none => [c]

def lowerChar (c : Char) : List Char := mapCase lowerSequences lowerRanges c

def upperChar (c : Char) : List Char := mapCase upperSequences upperRanges c

/-- Whether the first character that is not ignorable is cased. -/
def startsCased (text : List Char) : Bool :=
  match text.dropWhile fun c => inRanges caseIgnorableRanges c.toNat with
  | [] => false
  | c :: _ => inRanges casedRanges c.toNat

/-- Lower case of a text that follows `before`, which is given backwards. -/
def lowerFrom (before : List Char) : List Char → List Char
  | [] => []
  | c :: rest =>
    let image :=
      if c = 'Σ' then (if startsCased before && !startsCased rest then ['ς'] else ['σ'])
      else lowerChar c
    image ++ lowerFrom (c :: before) rest

def lower (text : List Char) : List Char := lowerFrom [] text

def upper (text : List Char) : List Char := text.flatMap upperChar

end EmbeddedExpr.Text
