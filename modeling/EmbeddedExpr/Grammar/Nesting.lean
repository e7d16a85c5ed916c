import EmbeddedExpr.Grammar.Diagnosis

/-!
# Nesting of a source

Before a source is read its brackets are matched and its nesting is bounded.
Open brackets, signs in a row and choices nest; every question mark nests inside
the ones before it at its bracket level until a comma begins a sibling.  Quoted
literals and comments are passed over.  A bracket that closes another kind than
the last one opened ends the scan; the grammar reports it.
-/

namespace EmbeddedExpr.Grammar

/-- What is open at a place of a source. -/
structure Nesting where
  /-- The open brackets with their offsets, the innermost first. -/
  brackets : List (Char × Nat)
  /-- The question marks of each bracket level since its last comma, the innermost
  level first. -/
  choices : List Nat
  /-- The question marks of all levels. -/
  choiceTotal : Nat
  /-- The signs in a row up to here. -/
  signs : Nat
  deriving DecidableEq, Repr

/-- What a character does to the scan. -/
inductive Progress
  | going (n : Nesting)
  /-- The rest of the source needs no scan. -/
  | settled
  /-- The nesting has reached a depth beyond the bound. -/
  | exceeded (depth : Nat)

namespace Nesting

def start : Nesting := ⟨[], [0], 0, 0⟩

/-- The bracket that a closing bracket closes. -/
def opening? (c : Char) : Option Char :=
  match c with
  | ')' => some '('
  | ']' => some '['
  | '}' => some '{'
  | _ => none

def isOpening (c : Char) : Bool := c == '(' || c == '[' || c == '{'

/-- One more open bracket. -/
def openBracket (bound : Nat) (n : Nesting) (offset : Nat) (c : Char) : Progress :=
  let brackets := (c, offset) :: n.brackets
  let depth := brackets.length + n.choiceTotal + n.signs
  if bound < depth then .exceeded depth
  else .going ⟨brackets, 0 :: n.choices, n.choiceTotal, 0⟩

/-- A closing bracket, with the bracket it closes. -/
def closeBracket (n : Nesting) (expected : Char) : Progress :=
  match n.brackets with
  | (c, _) :: brackets =>
    if c = expected then
      .going ⟨brackets, n.choices.tail, n.choiceTotal - n.choices.headD 0, 0⟩
    else .settled
  | [] => .settled

/-- A question mark. -/
def openChoice (bound : Nat) (n : Nesting) : Progress :=
  let choices := match n.choices with
    | level :: rest => (level + 1) :: rest
    | [] => []
  let depth := n.brackets.length + (n.choiceTotal + 1)
  if bound < depth then .exceeded depth
  else .going ⟨n.brackets, choices, n.choiceTotal + 1, 0⟩

/-- A comma. -/
def closeChoices (n : Nesting) : Progress :=
  match n.choices with
  | level :: rest => .going ⟨n.brackets, 0 :: rest, n.choiceTotal - level, 0⟩
  | [] => .going ⟨n.brackets, [], n.choiceTotal, 0⟩

/-- A sign. -/
def openSign (bound : Nat) (n : Nesting) : Progress :=
  let depth := n.brackets.length + n.choiceTotal + (n.signs + 1)
  if bound < depth then .exceeded depth
  else .going ⟨n.brackets, n.choices, n.choiceTotal, n.signs + 1⟩

/-- No sign directly before the next character. -/
def endSigns (n : Nesting) : Nesting := ⟨n.brackets, n.choices, n.choiceTotal, 0⟩

/-- A character outside literals and comments. -/
def step (bound : Nat) (n : Nesting) (offset : Nat) (c : Char) : Progress :=
  if isOpening c then n.openBracket bound offset c
  else
    match opening? c with
    | some expected => n.closeBracket expected
    | none =>
      if c = '?' then n.openChoice bound
      else if c = ',' then n.closeChoices
      else if c = '!' ∨ c = '-' then n.openSign bound
      else if c = ' ' ∨ c = '\t' ∨ c = '\r' ∨ c = '\n' then .going n
      else .going n.endSigns

/-- The end of the source. -/
def finish (n : Nesting) : Except ParseError Unit :=
  match n.brackets with
  | [] => .ok ()
  | (c, offset) :: _ => .error ⟨.unclosed c, ⟨offset, offset + 1⟩⟩

/-- What the scan passes over. -/
inductive Mode
  | code
  | comment
  /-- A literal up to a closing mark or the end of its line. -/
  | quoted (mark : Char)
  /-- A literal up to three closing marks. -/
  | tripled (mark : Char)
  deriving DecidableEq, Repr

/-- Scans a source from an offset.  The first `passed` characters belong to a mark
that was recognized before them. -/
def scan (bound : Nat) (mode : Mode) (passed : Nat) (n : Nesting) (offset : Nat) :
    List Char → Except ParseError Unit
  | [] => n.finish
  | c :: rest =>
    let next := offset + c.utf8Size
    match passed with
    | more + 1 => scan bound mode more n next rest
    | 0 =>
      match mode with
      | .comment => scan bound (if c = '\n' then .code else .comment) 0 n next rest
      | .quoted mark =>
        if c = '\\' then scan bound (.quoted mark) 1 n next rest
        else if c = mark ∨ c = '\n' then scan bound .code 0 n next rest
        else scan bound (.quoted mark) 0 n next rest
      | .tripled mark =>
        if c = '\\' then scan bound (.tripled mark) 1 n next rest
        else if c = mark ∧ [mark, mark].isPrefixOf rest then scan bound .code 2 n next rest
        else scan bound (.tripled mark) 0 n next rest
      | .code =>
        if c = '"' ∨ c = '\'' then
          if [c, c].isPrefixOf rest then scan bound (.tripled c) 2 n.endSigns next rest
          else scan bound (.quoted c) 0 n.endSigns next rest
        else if c = '/' ∧ ['/'].isPrefixOf rest then scan bound .comment 0 n next rest
        else
          match n.step bound offset c with
          | .going n => scan bound .code 0 n next rest
          | .settled => .ok ()
          | .exceeded depth => .error ⟨.tooDeep depth bound, ⟨offset, offset + 1⟩⟩

/-- Matches the brackets of a source and bounds its nesting. -/
def check (bound : Nat) (text : List Char) : Except ParseError Unit :=
  scan bound .code 0 start 0 text

end Nesting

end EmbeddedExpr.Grammar
