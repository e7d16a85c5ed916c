import EmbeddedExpr.Grammar.Reader
import EmbeddedExpr.Grammar.Token

/-!
# Phrases

A phrase is the structure of a source as written: parentheses are kept, macros are
not expanded, literals are not yet read.  `Phrase.read?` recognizes the phrases of
the language; a choice binds loosest and to the right, the other infix operators
to the left in five levels, signs tighter, and selections tightest.
-/

namespace EmbeddedExpr.Grammar

/-- An infix operator other than the choice. -/
inductive InfixOp
  | logic (op : LogicOp)
  | relation (op : RelationOp)
  | arith (op : ArithOp)
  deriving DecidableEq, Repr

/-- How tightly an infix operator binds. -/
def InfixOp.level : InfixOp → Nat
  | logic .or => 1
  | logic .and => 2
  | relation _ => 3
  | arith .add | arith .sub => 4
  | arith .mul | arith .div | arith .rem => 5

/-- The structure of a source. -/
inductive Phrase
  | atom (span : Span) (token : Token)
  | group (inner : Phrase)
  | list (span : Span) (items : List Phrase)
  | map (span : Span) (entries : List (Phrase × Phrase))
  | call (span : Span) (function : List Char) (args : List Phrase)
  /-- A sign before its operand. -/
  | sign (start : Nat) (op : UnaryOp) (operand : Phrase)
  | field (target : Phrase) (name : List Char) (stop : Nat)
  | method (target : Phrase) (name : List Char) (args : List Phrase) (stop : Nat)
  | index (target position : Phrase) (stop : Nat)
  | infixed (op : InfixOp) (left right : Phrase)
  | choice (condition whenTrue whenFalse : Phrase)

/-- What stands between two operands. -/
inductive Link
  | op (op : InfixOp)
  /-- A question mark, the phrase for the true case, and a colon. -/
  | choice (whenTrue : Phrase)

/-- What stands after an operand and selects from it. -/
inductive Selection
  | field (name : List Char) (stop : Nat)
  | method (name : List Char) (args : List Phrase) (stop : Nat)
  | index (position : Phrase) (stop : Nat)

namespace Phrase

/-- A selection from a phrase. -/
def select (target : Phrase) : Selection → Phrase
  | .field name stop => field target name stop
  | .method name args stop => method target name args stop
  | .index position stop => index target position stop

/-- A phrase with the signs before it; the last sign is the innermost. -/
def signed (signs : List (Nat × UnaryOp)) (operand : Phrase) : Phrase :=
  signs.foldr (fun (start, op) inner => sign start op inner) operand

/-- Appends an operator and its right operand to a phrase: at the end of its right
operand where that binds tighter, above the whole phrase otherwise. -/
def attachOp (op : InfixOp) (right : Phrase) : Phrase → Phrase
  | infixed p left last =>
    if p.level < op.level then infixed p left (attachOp op right last)
    else infixed op (infixed p left last) right
  | choice c t f => choice c t (attachOp op right f)
  | phrase => infixed op phrase right

/-- Appends a choice to a phrase: to the false case of a choice, above the whole
phrase otherwise. -/
def attachChoice (whenTrue right : Phrase) : Phrase → Phrase
  | choice c t f => choice c t (attachChoice whenTrue right f)
  | phrase => choice phrase whenTrue right

/-- Appends a link and the operand after it. -/
def attach (phrase : Phrase) : Link × Phrase → Phrase
  | (.op op, right) => attachOp op right phrase
  | (.choice whenTrue, right) => attachChoice whenTrue right phrase

/-- The phrase of an operand and the links after it. -/
def chain (first : Phrase) (links : List (Link × Phrase)) : Phrase :=
  links.foldl attach first

end Phrase

/-! ### The grammar -/

namespace Reader

/-- A token as a construct. -/
def token (construct : Construct) (scanner : Scanner Token) : Reader Token :=
  tried construct (scan scanner)

/-- A name. -/
def name : Reader (List Char) := do
  match ← token .name Scanner.name with
  | .name text => pure text
  | _ => fail

/-- A fixed text as a construct. -/
def mark (construct : Construct) (text : List Char) : Reader Unit :=
  tried construct (expect text)

/-- Phrases separated by commas, at least one; a comma may stand after the last. -/
def commaSeparated {α : Type} (item : Reader α) (fuel : Nat) : Reader (List α) := do
  let first ← item
  layout
  let more ← many (do expect [',']; layout; item) fuel
  layout
  let _ ← optional (expect [','])
  pure (first :: more)

/-- Items between an opening and a closing mark. -/
def enclosed {α : Type} (opening closing : Char) (item : Reader α) (fuel : Nat) :
    Reader (List α) := do
  expect [opening]
  layout
  let items ← optional (commaSeparated item fuel)
  layout
  expect [closing]
  pure (items.getD [])

/-- Arguments in parentheses. -/
def arguments (phrase : Reader Phrase) (fuel : Nat) : Reader (List Phrase) :=
  tried .arguments (enclosed '(' ')' phrase fuel)

/-- The question mark, the true case and the colon of a choice. -/
def choiceLink (phrase : Reader Phrase) : Reader Link :=
  tried .ternary do
    expect ['?']
    layout
    let whenTrue ← phrase
    layout
    expect [':']
    pure (.choice whenTrue)

/-- The infix operators in the order in which they are tried. -/
def infixMarks : List (Construct × List Char × InfixOp) := [
  (.or, ['|', '|'], .logic .or),
  (.and, ['&', '&'], .logic .and),
  (.eq, ['=', '='], .relation .eq),
  (.ne, ['!', '='], .relation .ne),
  (.le, ['<', '='], .relation .le),
  (.lt, ['<'], .relation .lt),
  (.ge, ['>', '='], .relation .ge),
  (.gt, ['>'], .relation .gt)]

/-- The arithmetic operators in the order in which they are tried. -/
def arithMarks : List (Construct × List Char × InfixOp) := [
  (.add, ['+'], .arith .add),
  (.sub, ['-'], .arith .sub),
  (.mul, ['*'], .arith .mul),
  (.div, ['/'], .arith .div),
  (.rem, ['%'], .arith .rem)]

/-- An operator by its mark. -/
def marked (entry : Construct × List Char × InfixOp) : Reader Link := do
  mark entry.1 entry.2.1
  pure (.op entry.2.2)

/-- The operator that is a word. -/
def membership : Reader Link := do
  tried .mem (scan (Scanner.word ['i', 'n']))
  pure (.op (.relation .mem))

/-- What links two operands. -/
def link (phrase : Reader Phrase) : Reader Link :=
  oneOf (choiceLink phrase :: infixMarks.map marked ++ membership :: arithMarks.map marked)

/-- A sign and where it stands. -/
def sign : Reader (Nat × UnaryOp) := do
  let start ← offset
  let op ← orElse (do mark .neg ['-']; pure UnaryOp.neg) (do mark .not ['!']; pure UnaryOp.not)
  pure (start, op)

/-- A field or a member call.  Layout after the name of a field belongs to it. -/
def member (phrase : Reader Phrase) (fuel : Nat) : Reader Selection := do
  let (name, args) ← tried .member do
    expect ['.']
    layout
    let name ← name
    layout
    let args ← optional (arguments phrase fuel)
    pure (name, args)
  let stop ← offset
  match args with
  | some args => pure (.method name args stop)
  | none => pure (.field name stop)

/-- An index in brackets. -/
def index (phrase : Reader Phrase) : Reader Selection := do
  let position ← tried .index do
    expect ['[']
    layout
    let position ← phrase
    layout
    expect [']']
    pure position
  let stop ← offset
  pure (.index position stop)

/-- A phrase in parentheses. -/
def group (phrase : Reader Phrase) : Reader Phrase :=
  tried .group do
    expect ['(']
    layout
    let inner ← phrase
    layout
    expect [')']
    pure (.group inner)

/-- A list literal. -/
def list (phrase : Reader Phrase) (fuel : Nat) : Reader Phrase := do
  let (span, items) ← spanned (tried .list (enclosed '[' ']' phrase fuel))
  pure (.list span items)

/-- A key and its value. -/
def entry (phrase : Reader Phrase) : Reader (Phrase × Phrase) :=
  tried .entry do
    let key ← phrase
    layout
    expect [':']
    layout
    let value ← phrase
    pure (key, value)

/-- A map literal. -/
def map (phrase : Reader Phrase) (fuel : Nat) : Reader Phrase := do
  let (span, entries) ← spanned (tried .map (enclosed '{' '}' (entry phrase) fuel))
  pure (.map span entries)

/-- The literals in the order in which they are tried. -/
def literals : List (Construct × Scanner Token) := [
  (.double, Scanner.double), (.uint, Scanner.uint), (.int, Scanner.int), (.null, Scanner.null),
  (.bool, Scanner.bool), (.bytes, Scanner.bytes), (.text, Scanner.text)]

/-- A token as a phrase. -/
def atom (construct : Construct) (scanner : Scanner Token) : Reader Phrase := do
  let (span, token) ← spanned (token construct scanner)
  pure (.atom span token)

/-- A call of a function by name. -/
def call (phrase : Reader Phrase) (fuel : Nat) : Reader Phrase := do
  let (span, name, args) ← spanned <| tried .call do
    let name ← name
    layout
    let args ← arguments phrase fuel
    pure (name, args)
  pure (.call span name args)

/-- What an operand selects from. -/
def primary (phrase : Reader Phrase) (fuel : Nat) : Reader Phrase :=
  oneOf ([group phrase, list phrase fuel, map phrase fuel] ++
    literals.map (fun entry => atom entry.1 entry.2) ++
    [call phrase fuel, atom .name Scanner.name])

/-- Signs, a primary phrase and selections. -/
def operand (phrase : Reader Phrase) (fuel : Nat) : Reader Phrase := do
  let signs ← many sign fuel
  layout
  let base ← primary phrase fuel
  layout
  let selections ← many (orElse (member phrase fuel) (index phrase)) fuel
  pure (Phrase.signed signs (selections.foldl Phrase.select base))

/-- Operands and the links between them. -/
def linked (phrase : Reader Phrase) (fuel : Nat) : Reader Phrase :=
  tried .expression do
    let first ← operand phrase fuel
    layout
    let links ← many (do
      let link ← link phrase
      layout
      let right ← operand phrase fuel
      pure (link, right)) fuel
    pure (Phrase.chain first links)

/-- A phrase.  The fuel bounds the nesting and the length of every repetition; it is
enough if it exceeds the number of characters that are left. -/
def phrase : Nat → Reader Phrase
  | 0 => fail
  | fuel + 1 => linked (phrase fuel) fuel

/-- The end of the source. -/
def endOfInput : Reader Unit :=
  tried .endOfInput fun c => ⟨.silent, if c.rest.isEmpty then some ((), c) else none⟩

/-- A whole source. -/
def source (fuel : Nat) : Reader Phrase :=
  tried .source do
    layout
    let phrase ← phrase fuel
    layout
    endOfInput
    pure phrase

end Reader

/-- Reads a whole source. -/
def readSource (text : List Char) : Step Phrase :=
  Reader.source (text.length + 1) ⟨0, text⟩

/-- The phrase that a source is, if it is one. -/
def Phrase.read? (text : List Char) : Option Phrase :=
  (readSource text).outcome.map Prod.fst

/-- How far a source that is no phrase was tried, and for what. -/
def attempts (text : List Char) : Attempts :=
  Attempts.none.replay (readSource text).log

end EmbeddedExpr.Grammar
