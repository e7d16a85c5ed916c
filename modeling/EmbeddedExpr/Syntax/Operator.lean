/-!
# Operators

The operators of expressions, with the symbol each is written with and the tag
that serialized trees use.
-/

namespace EmbeddedExpr

inductive UnaryOp
  | neg | not
  deriving DecidableEq, Repr

inductive ArithOp
  | add | sub | mul | div | rem
  deriving DecidableEq, Repr

/-- The lazy operators. -/
inductive LogicOp
  | and | or
  deriving DecidableEq, Repr

inductive RelationOp
  | eq | ne | lt | le | gt | ge
  /-- Membership in a list or among the keys of a map. -/
  | mem
  deriving DecidableEq, Repr

namespace UnaryOp

def symbol : UnaryOp → String
  | neg => "-"
  | not => "!"

def tag : UnaryOp → String
  | neg => "neg"
  | not => "not"

def all : List UnaryOp := [neg, not]

end UnaryOp

namespace ArithOp

def symbol : ArithOp → String
  | add => "+"
  | sub => "-"
  | mul => "*"
  | div => "/"
  | rem => "%"

def tag : ArithOp → String
  | add => "add"
  | sub => "sub"
  | mul => "mul"
  | div => "div"
  | rem => "rem"

/-- The name of the operation in messages about overflow. -/
def noun : ArithOp → String
  | add => "addition"
  | sub => "subtraction"
  | mul => "multiplication"
  | div => "division"
  | rem => "modulus"

def all : List ArithOp := [add, sub, mul, div, rem]

end ArithOp

namespace LogicOp

def symbol : LogicOp → String
  | and => "&&"
  | or => "||"

def tag : LogicOp → String
  | and => "and"
  | or => "or"

def all : List LogicOp := [and, or]

/-- The name of the operator in messages about its operands. -/
def operandName : LogicOp → String
  | and => "_&&_"
  | or => "_||_"

/-- The operand that settles the result whatever the other one is. -/
def decisive : LogicOp → Bool
  | and => false
  | or => true

end LogicOp

namespace RelationOp

def symbol : RelationOp → String
  | eq => "=="
  | ne => "!="
  | lt => "<"
  | le => "<="
  | gt => ">"
  | ge => ">="
  | mem => "in"

def tag : RelationOp → String
  | eq => "eq"
  | ne => "neq"
  | lt => "lt"
  | le => "le"
  | gt => "gt"
  | ge => "ge"
  | mem => "in"

def all : List RelationOp := [eq, ne, lt, le, gt, ge, mem]

end RelationOp

end EmbeddedExpr
