/-!
# Constructs of the grammar

The constructs that a reader can try at a place of a source, and what a failed
reading says about them.  A failed reading reports the place furthest into the
source at which something was tried, and the concepts of the constructs tried
there.

A reading keeps a `Log` of its failed tries in the order in which they happened,
with what was tried inside each of them.  Replaying the log gives the report.
Of a construct and the parts tried at the place where it began, the construct
stands for its parts, unless there is exactly one part, which then stands for
itself.
-/

namespace EmbeddedExpr.Grammar

/-- What can be tried, in the order in which reports list it. -/
inductive Construct
  | endOfInput | source | expression | ternary | or | and | eq | ne | le | lt | ge | gt | mem
  | add | sub | mul | div | rem | neg | not | member | index | arguments | group | list | map
  | entry | call | double | uint | int | null | bool | bytes | text | name
  deriving DecidableEq, Repr

namespace Construct

/-- All constructs in the order of reports. -/
def all : List Construct :=
  [endOfInput, source, expression, ternary, or, and, eq, ne, le, lt, ge, gt, mem, add, sub, mul,
    div, rem, neg, not, member, index, arguments, group, list, map, entry, call, double, uint, int,
    null, bool, bytes, text, name]

/-- The concept that a report names for a construct. -/
def concept : Construct → String
  | endOfInput => "end of input"
  | ternary | or | and | eq | ne | le | lt | ge | gt | mem | add | sub | mul | div | rem =>
    "operator"
  | member | index | arguments => "'.', '[' or '('"
  | double | uint | int | null | bool | bytes | text => "literal"
  | name => "identifier"
  | source | expression | neg | not | group | list | map | entry | call => "expression"

end Construct

/-- The failed tries of a reading. -/
inductive Log
  | silent
  | both (first second : Log)
  /-- A construct failed at an offset after the tries inside it. -/
  | failed (construct : Construct) (offset : Nat) (inner : Log)

namespace Log

/-- One log after another. -/
def append : Log → Log → Log
  | silent, second => second
  | first, silent => first
  | first, second => both first second

end Log

/-- The constructs tried furthest into the source, in the order of the tries. -/
structure Attempts where
  offset : Nat
  tried : List Construct
  deriving DecidableEq, Repr

namespace Attempts

def none : Attempts := ⟨0, []⟩

/-- The number of tries kept for an offset. -/
def countAt (a : Attempts) (offset : Nat) : Nat :=
  if a.offset = offset then a.tried.length else 0

/-- Keeps a failed try at an offset, given how many tries were kept there when it
began.  It replaces those made since then, unless there is exactly one. -/
def note (a : Attempts) (construct : Construct) (offset before : Nat) : Attempts :=
  if a.countAt offset = before + 1 then a
  else if a.offset = offset then ⟨offset, a.tried.take before ++ [construct]⟩
  else if a.offset < offset then ⟨offset, [construct]⟩
  else a

/-- The attempts after those of a log. -/
def replay (a : Attempts) : Log → Attempts
  | .silent => a
  | .both first second => (a.replay first).replay second
  | .failed construct offset inner =>
    (a.replay inner).note construct offset (a.countAt offset)

/-- The concepts of the constructs tried, each once. -/
def concepts (a : Attempts) : List String :=
  ((Construct.all.filter fun c => a.tried.contains c).map Construct.concept).eraseDups

end Attempts

end EmbeddedExpr.Grammar
