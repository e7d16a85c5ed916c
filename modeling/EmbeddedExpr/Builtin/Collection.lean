import EmbeddedExpr.Builtin.Conversion
import EmbeddedExpr.Text.Case
import EmbeddedExpr.Text.Split

/-!
# Texts and collections

Sizes, and the functions on texts.
-/

namespace EmbeddedExpr.Builtin

open Value (int text bytes list map)

/-- The number of characters, bytes, items or entries. -/
def size : Body
  | [text s] => .ok (int (Int64.ofNat s.toList.length))
  | [bytes bs] => .ok (int (Int64.ofNat bs.length))
  | [list items] => .ok (int (Int64.ofNat items.length))
  | [map entries] => .ok (int (Int64.ofNat entries.length))
  | args => mismatch "size" args

def containsText : Body
  | [text s, text needle] => .ok (.bool (Text.occursIn needle.toList s.toList))
  | args => mismatch "contains" args

def startsWith : Body
  | [text s, text start] => .ok (.bool (start.toList.isPrefixOf s.toList))
  | args => mismatch "startsWith" args

def endsWith : Body
  | [text s, text ending] => .ok (.bool (ending.toList.isSuffixOf s.toList))
  | args => mismatch "endsWith" args

def toLower : Body
  | [text s] => .ok (text (String.ofList (Text.lower s.toList)))
  | args => mismatch "toLower" args

def toUpper : Body
  | [text s] => .ok (text (String.ofList (Text.upper s.toList)))
  | args => mismatch "toUpper" args

def trimText : Body
  | [text s] => .ok (text (String.ofList (Text.trim s.toList)))
  | args => mismatch "trim" args

/-- The parts of a text between separators. -/
def splitText : Body
  | [text s, text separator] =>
    .ok (list ((Text.split separator.toList s.toList).map fun part => text (String.ofList part)))
  | args => mismatch "split" args

end EmbeddedExpr.Builtin
