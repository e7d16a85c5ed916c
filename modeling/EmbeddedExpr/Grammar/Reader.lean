import EmbeddedExpr.Grammar.Construct
import EmbeddedExpr.Syntax.Expr
import EmbeddedExpr.Text.Utf8

/-!
# Readers

A reader looks at a cursor and either yields a result and the cursor after it, or
fails; either way it leaves a log of failed tries.  The result never depends on
the log.
-/

namespace EmbeddedExpr.Grammar

/-- A place in a source: its byte offset and the text from there on. -/
structure Cursor where
  offset : Nat
  rest : List Char
  deriving DecidableEq, Repr

/-- The result of a reader at a cursor. -/
structure Step (α : Type) where
  log : Log
  outcome : Option (α × Cursor)

/-- Readers of a type. -/
def Reader (α : Type) := Cursor → Step α

namespace Cursor

/-- The cursor after a text that stands here. -/
def advance (c : Cursor) (consumed rest : List Char) : Cursor :=
  ⟨c.offset + Text.byteLength consumed, rest⟩

/-! ### Layout -/

/-- The blanks of a source. -/
def isBlank (c : Char) : Bool :=
  c == ' ' || c == '\t' || c == '\r' || c == '\n'

/-- Skips blanks and comments.  A comment lasts to the end of its line; `inComment`
says whether the text begins inside one. -/
def skipFrom (inComment : Bool) (offset : Nat) : List Char → Cursor
  | [] => ⟨offset, []⟩
  | '/' :: '/' :: rest => skipFrom true (offset + 2) rest
  | c :: rest =>
    if inComment then skipFrom (c != '\n') (offset + c.utf8Size) rest
    else if isBlank c then skipFrom false (offset + 1) rest
    else ⟨offset, c :: rest⟩

/-- The cursor after blanks and comments. -/
def skip (c : Cursor) : Cursor := skipFrom false c.offset c.rest

end Cursor

namespace Reader

variable {α β : Type}

/-- Succeeds without reading. -/
def done (a : α) : Reader α := fun c => ⟨.silent, some (a, c)⟩

/-- Fails without a trace. -/
def fail : Reader α := fun _ => ⟨.silent, none⟩

/-- Reads with one reader and goes on with another. -/
def andThen (p : Reader α) (f : α → Reader β) : Reader β := fun c =>
  let first := p c
  match first.outcome with
  | none => ⟨first.log, none⟩
  | some (a, next) =>
    let second := f a next
    ⟨first.log.append second.log, second.outcome⟩

instance : Monad Reader where
  pure := done
  bind := andThen

/-- Reads with the second reader where the first one fails. -/
def orElse (p q : Reader α) : Reader α := fun c =>
  let first := p c
  match first.outcome with
  | some _ => first
  | none =>
    let second := q c
    ⟨first.log.append second.log, second.outcome⟩

/-- The first of several readers that succeeds. -/
def oneOf : List (Reader α) → Reader α
  | [] => fail
  | p :: ps => orElse p (oneOf ps)

/-- Reads if possible. -/
def optional (p : Reader α) : Reader (Option α) :=
  orElse (p.andThen fun a => done (some a)) (done none)

/-- Blanks and comments, if there are any. -/
def layout : Reader Unit := fun c => ⟨.silent, some ((), c.skip)⟩

/-- Where the cursor is. -/
def offset : Reader Nat := fun c => ⟨.silent, some (c.offset, c)⟩

/-- A given text. -/
def expect (text : List Char) : Reader Unit := fun c =>
  if text.isPrefixOf c.rest then
    ⟨.silent, some ((), c.advance text (c.rest.drop text.length))⟩
  else ⟨.silent, none⟩

/-- What a scanner finds at the cursor.  A scanner splits off the characters it
takes and what they mean. -/
def scan (scanner : List Char → Option (α × List Char × List Char)) : Reader α := fun c =>
  match scanner c.rest with
  | some (a, consumed, rest) => ⟨.silent, some (a, c.advance consumed rest)⟩
  | none => ⟨.silent, none⟩

/-- A construct: a failure is noted at the offset where the construct began. -/
def tried (construct : Construct) (p : Reader α) : Reader α := fun c =>
  let step := p c
  match step.outcome with
  | some _ => step
  | none => ⟨.failed construct c.offset step.log, none⟩

/-- The result of a reader with the span it read. -/
def spanned (p : Reader α) : Reader (Span × α) := do
  let start ← offset
  let a ← p
  let stop ← offset
  pure (⟨start, stop⟩, a)

/-- Results each of which follows layout, at most as many as the fuel says. -/
def following (p : Reader α) : Nat → Reader (List α)
  | 0 => done []
  | fuel + 1 =>
    orElse
      (do
        layout
        let a ← p
        let more ← following p fuel
        pure (a :: more))
      (done [])

/-- Any number of results with layout between them. -/
def many (p : Reader α) (fuel : Nat) : Reader (List α) :=
  orElse
    (do
      let a ← p
      let more ← following p fuel
      pure (a :: more))
    (done [])

end Reader

end EmbeddedExpr.Grammar
