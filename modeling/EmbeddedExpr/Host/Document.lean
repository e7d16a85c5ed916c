import EmbeddedExpr.Host.Value
import EmbeddedExpr.Json.Document
import EmbeddedExpr.Time.Rfc3339

/-!
# Host values as JSON documents

Whole numbers of a document are big integers and all others numbers.  Back, a
big integer beyond 64 bits is written as text, bytes as an array, a date as
text, and what no document can hold as null.
-/

namespace EmbeddedExpr

namespace HostValue

mutual

/-- The host value of a document. -/
def ofJson : Json → HostValue
  | .null => null
  | .bool b => bool b
  | .number (.whole n _) => bigint n
  | .number (.real x _) => number x
  | .text s => text s
  | .array items => array (ofJsonItems items)
  | .object fields => ofFields (ofJsonFields fields)

def ofJsonItems : List Json → List HostValue
  | [] => []
  | item :: rest => ofJson item :: ofJsonItems rest

def ofJsonFields : List (String × Json) → List (String × HostValue)
  | [] => []
  | (name, value) :: rest => (name, ofJson value) :: ofJsonFields rest

end

mutual

/-- The document of a host value. -/
def toJson : HostValue → Json
  | null => .null
  | bool b => .bool b
  | number x => (Json.ofDouble? x).getD .null
  | bigint n => (Json.ofInt? n).getD (.text (toString n))
  | text s => .text s
  | bytes bs => .array (bs.map Json.ofByte)
  | array items => .array (toJsonItems items)
  | record fields => .object (toJsonFields fields)
  | date t => .text (Time.Rfc3339.write t)
  | function _ => .null

def toJsonItems : List HostValue → List Json
  | [] => []
  | item :: rest => toJson item :: toJsonItems rest

def toJsonFields : List (String × HostValue) → List (String × Json)
  | [] => []
  | (name, value) :: rest => (name, toJson value) :: toJsonFields rest

end

end HostValue

end EmbeddedExpr
