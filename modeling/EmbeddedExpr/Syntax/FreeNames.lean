import EmbeddedExpr.Syntax.Expr

/-!
# Free names

The names that an expression needs from outside: identifiers other than the
variables of enclosing iterations, in order of first occurrence from left to
right.  Names of called functions and fields are not among them.
-/

namespace EmbeddedExpr.Expr

/-- Adds a name unless an iteration binds it or it was found before. -/
def noteName (bound found : List String) (name : String) : List String :=
  if bound.contains name || found.contains name then found else found ++ [name]

mutual

/-- The names found so far, with those of an expression whose enclosing iterations
bind `bound`. -/
def collectNames (bound found : List String) : Expr → List String
  | literal _ _ => found
  | ident _ name => noteName bound found name
  | list _ items => collectItems bound found items
  | map _ entries => collectEntries bound found entries
  | unary _ _ operand => collectNames bound found operand
  | arith _ _ left right => collectNames bound (collectNames bound found left) right
  | logic _ _ left right => collectNames bound (collectNames bound found left) right
  | relation _ _ left right => collectNames bound (collectNames bound found left) right
  | ternary _ c t f =>
    collectNames bound (collectNames bound (collectNames bound found c) t) f
  | field _ target _ => collectNames bound found target
  | index _ target position => collectNames bound (collectNames bound found target) position
  | call _ _ args => collectItems bound found args
  | method _ target _ args => collectItems bound (collectNames bound found target) args
  | has _ target _ => collectNames bound found target
  | iterate _ _ range var none body =>
    collectNames (var :: bound) (collectNames bound found range) body
  | iterate _ _ range var (some filter) body =>
    collectNames (var :: bound)
      (collectNames (var :: bound) (collectNames bound found range) filter) body

def collectItems (bound found : List String) : List Expr → List String
  | [] => found
  | item :: rest => collectItems bound (collectNames bound found item) rest

def collectEntries (bound found : List String) : List (Expr × Expr) → List String
  | [] => found
  | (key, value) :: rest =>
    collectEntries bound (collectNames bound (collectNames bound found key) value) rest

end

/-- The free names of an expression, each once. -/
def freeNames (e : Expr) : List String := collectNames [] [] e

end EmbeddedExpr.Expr
