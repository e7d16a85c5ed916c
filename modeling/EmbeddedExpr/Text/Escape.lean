import EmbeddedExpr.Number.Reading
import EmbeddedExpr.Text.Blank
import EmbeddedExpr.Text.Hex
import EmbeddedExpr.Text.Utf8

/-!
# Escapes in string and bytes literals

Writing chooses one spelling for each character or byte.  Reading walks over the
body of a literal once and yields *pieces*, which are written down as bytes.  The
two kinds of literals differ in the code below 256 that a `\x` or octal escape
names: a text has the character with that number, which is written in UTF-8, and
a byte string the byte itself.
-/

namespace EmbeddedExpr.Text

/-! ### Writing -/

/-- One character inside double quotes. -/
def escapeChar (c : Char) : List Char :=
  if c = '"' then ['\\', '"']
  else if c = '\\' then ['\\', '\\']
  else if c = '\n' then ['\\', 'n']
  else if c = '\r' then ['\\', 'r']
  else if c = '\t' then ['\\', 't']
  else if isControl c then '\\' :: 'u' :: hexDigits 4 c.toNat
  else [c]

/-- The body of a string literal. -/
def escapeBody (text : List Char) : List Char :=
  text.flatMap escapeChar

/-- A text as a string literal. -/
def escapeText (text : String) : String :=
  String.ofList ('"' :: escapeBody text.toList ++ ['"'])

/-- One byte inside double quotes. -/
def escapeByte (b : UInt8) : List Char :=
  let c := Char.ofNat b.toNat
  if c = '"' then ['\\', '"']
  else if c = '\\' then ['\\', '\\']
  else if c = '\n' then ['\\', 'n']
  else if c = '\r' then ['\\', 'r']
  else if c = '\t' then ['\\', 't']
  else if 0x20 ≤ b ∧ b ≤ 0x7E then [c]
  else '\\' :: 'x' :: hexDigits 2 b.toNat

/-- The body of a bytes literal. -/
def escapeBytes (bytes : List UInt8) : List Char :=
  bytes.flatMap escapeByte

/-! ### Reading -/

/-- Why the body of a literal cannot be read.  The position is the byte offset of
the backslash. -/
inductive UnescapeError
  /-- No escape begins like this. -/
  | invalidEscape (position : Nat) (spelling : String)
  /-- A digit of a numeric escape is none. -/
  | invalidHexDigit (position : Nat) (spelling : String)
  /-- The body ends, or another character follows, before the last digit. -/
  | incompleteEscape (position expected got : Nat)
  /-- The number names no character. -/
  | invalidUnicodeScalar (position value : Nat)
  deriving DecidableEq, Repr

/-- The wording of an error. -/
def UnescapeError.message : UnescapeError → String
  | invalidEscape position spelling =>
    "invalid escape sequence '" ++ spelling ++ "' at position " ++ toString position
  | invalidHexDigit position spelling =>
    "invalid hex digit in '" ++ spelling ++ "' at position " ++ toString position
  | incompleteEscape position expected got =>
    "incomplete escape at position " ++ toString position ++ ": expected " ++ toString expected ++
      " digits, got " ++ toString got
  | invalidUnicodeScalar position value =>
    "invalid Unicode scalar value U+" ++ upperHex value ++ " at position " ++ toString position

/-- The kinds of literals. -/
inductive LiteralKind
  | text | bytes
  deriving DecidableEq, Repr

/-- What a literal body is made of. -/
inductive Piece
  | char (c : Char)
  /-- A byte that need not be part of a character. -/
  | byte (value : UInt8)
  deriving DecidableEq, Repr

/-- The bytes of a piece. -/
def Piece.toBytes : Piece → List UInt8
  | char c => String.utf8EncodeChar c
  | byte value => [value]

/-- The character with a number. -/
def scalarPiece (start value : Nat) : Except UnescapeError Piece :=
  if value.isValidChar then .ok (.char (Char.ofNat value))
  else .error (.invalidUnicodeScalar start value)

/-- What a code below 256 stands for: the byte, or the character with this number. -/
def LiteralKind.codePiece (kind : LiteralKind) (start value : Nat) :
    Except UnescapeError Piece :=
  match kind with
  | bytes => .ok (.byte (UInt8.ofNat value))
  | text => scalarPiece start value

/-- The numeric escapes with a fixed count of hexadecimal digits. -/
inductive HexForm
  /-- `\x` and two digits, a code. -/
  | code
  /-- `\u` and four digits, a character. -/
  | short
  /-- `\U` and eight digits, a character. -/
  | long
  deriving DecidableEq, Repr

namespace HexForm

def width : HexForm → Nat
  | code => 2
  | short => 4
  | long => 8

/-- The escape before its digits, as error messages show it. -/
def opening : HexForm → String
  | code => "\\x"
  | short => "\\u"
  | long => "\\U"

/-- The piece that a complete escape stands for. -/
def piece (form : HexForm) (kind : LiteralKind) (start value : Nat) :
    Except UnescapeError Piece :=
  match form with
  | code => kind.codePiece start value
  | short | long => scalarPiece start value

end HexForm

/-- What has been read of the escape at hand. -/
inductive Pending
  | nothing
  /-- The backslash at `start`. -/
  | backslash (start : Nat)
  | hex (start : Nat) (form : HexForm) (value got : Nat)
  | octal (start : Nat) (value got : Nat)
  deriving DecidableEq, Repr

/-- The escapes of a single letter or mark. -/
def simpleEscape? (c : Char) : Option Char :=
  match c with
  | 'a' => some '\x07'
  | 'b' => some '\x08'
  | 'f' => some '\x0c'
  | 'n' => some '\n'
  | 'r' => some '\r'
  | 't' => some '\t'
  | 'v' => some '\x0b'
  | '\\' => some '\\'
  | '"' => some '"'
  | '\'' => some '\''
  | '\x60' => some '\x60'
  | '?' => some '?'
  | _ => none

/-- The forms that a letter opens. -/
def hexForm? (c : Char) : Option HexForm :=
  match c with
  | 'x' | 'X' => some .code
  | 'u' => some .short
  | 'U' => some .long
  | _ => none

/-- The value of an octal digit. -/
def octalValue? (c : Char) : Option Nat :=
  if '0' ≤ c ∧ c ≤ '7' then some (c.toNat - '0'.toNat) else none

/-- Reads a character that belongs to no escape begun before it. -/
def beginPiece (position : Nat) (c : Char) : List Piece × Pending :=
  if c = '\\' then ([], .backslash position) else ([.char c], .nothing)

/-- The character after a backslash. -/
def openEscape (start : Nat) (c : Char) : Except UnescapeError (List Piece × Pending) :=
  match simpleEscape? c, hexForm? c with
  | some plain, _ => .ok ([.char plain], .nothing)
  | none, some form => .ok ([], .hex start form 0 0)
  | none, none =>
    if '0' ≤ c ∧ c ≤ '3' then .ok ([], .octal start (c.toNat - '0'.toNat) 1)
    else .error (.invalidEscape start (String.ofList ['\\', c]))

/-- The piece that ends an escape. -/
def closeEscape (piece : Except UnescapeError Piece) :
    Except UnescapeError (List Piece × Pending) :=
  piece.map fun piece => ([piece], .nothing)

/-- One more character of a literal body: the pieces it completes and what is
pending after it.  An octal escape ends at the first character that is no octal
digit; ended early it is only allowed as `\0`. -/
def stepPiece (kind : LiteralKind) (position : Nat) (pending : Pending) (c : Char) :
    Except UnescapeError (List Piece × Pending) :=
  match pending with
  | .nothing => .ok (beginPiece position c)
  | .backslash start => openEscape start c
  | .hex start form value got =>
    match Number.hexValue? c with
    | none => .error (.invalidHexDigit start (form.opening ++ String.ofList [c]))
    | some d =>
      if got + 1 = form.width then closeEscape (form.piece kind start (value * 16 + d))
      else .ok ([], .hex start form (value * 16 + d) (got + 1))
  | .octal start value got =>
    match octalValue? c with
    | some d =>
      if got + 1 = 3 then closeEscape (kind.codePiece start (value * 8 + d))
      else .ok ([], .octal start (value * 8 + d) (got + 1))
    | none =>
      if got = 1 ∧ value = 0 then
        let (pieces, next) := beginPiece position c
        .ok (.char '\x00' :: pieces, next)
      else .error (.incompleteEscape start 3 got)

/-- What is pending at the end of a literal body. -/
def endPieces : Pending → Except UnescapeError (List Piece)
  | .nothing => .ok []
  | .backslash start => .error (.invalidEscape start "\\")
  | .hex start form _ got => .error (.incompleteEscape start form.width got)
  | .octal start value got =>
    if got = 1 ∧ value = 0 then .ok [.char '\x00'] else .error (.incompleteEscape start 3 got)

/-- The pieces of a literal body, from a byte offset and what is pending there. -/
def piecesFrom (kind : LiteralKind) (position : Nat) (pending : Pending) :
    List Char → Except UnescapeError (List Piece)
  | [] => endPieces pending
  | c :: rest =>
    match stepPiece kind position pending c with
    | .error e => .error e
    | .ok (pieces, next) =>
      match piecesFrom kind (position + c.utf8Size) next rest with
      | .error e => .error e
      | .ok more => .ok (pieces ++ more)

/-- The pieces of a literal body. -/
def pieces (kind : LiteralKind) (body : List Char) : Except UnescapeError (List Piece) :=
  piecesFrom kind 0 .nothing body

/-- The bytes that a literal body stands for. -/
def unescape (kind : LiteralKind) (body : List Char) : Except UnescapeError (List UInt8) :=
  (pieces kind body).map fun ps => ps.flatMap Piece.toBytes

/-- The text that the body of a string literal stands for.  A body without a backslash
is its own text; else the text is that of the bytes, should they be well formed. -/
def unescapeText (body : List Char) : Except UnescapeError (List Char) :=
  if '\\' ∈ body then
    match unescape .text body with
    | .error e => .error e
    | .ok bytes =>
      match ofUtf8? bytes with
      | some text => .ok text.toList
      | none => .error (.invalidEscape 0 (String.ofList body))
  else .ok body

/-- The bytes that the body of a bytes literal stands for. -/
def unescapeBytes (body : List Char) : Except UnescapeError (List UInt8) :=
  unescape .bytes body

end EmbeddedExpr.Text
