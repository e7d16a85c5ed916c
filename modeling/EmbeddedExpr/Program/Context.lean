import EmbeddedExpr.Program.Document
import EmbeddedExpr.Program.Outcome

/-!
# Stores of programs

A context keeps compiled programs by name and evaluates them under its own
bounds.  Storing under a name replaces the program there; a source that cannot
be compiled leaves the store as it is.
-/

namespace EmbeddedExpr

/-- Named programs and the bounds they are compiled and evaluated under. -/
structure Context where
  /-- How high the trees of programs may be. -/
  bound : Nat
  limits : Eval.Limits
  programs : Entries String Program

namespace Context

/-- An empty store under the given bounds. -/
def withLimits (bound : Nat) (limits : Eval.Limits) : Context := ⟨bound, limits, []⟩

def empty : Context := withLimits Grammar.defaultBound .default

/-! ### The store -/

/-- The program under a name. -/
def program? (c : Context) (name : String) : Option Program := Entries.get? c.programs name

/-- The names of all programs in ascending order. -/
def names (c : Context) : List String := c.programs.keys

def details? (c : Context) (name : String) : Option ProgramDetails :=
  (c.program? name).map Program.details

/-- Puts a program under a name. -/
def add (c : Context) (name : String) (p : Program) : Context :=
  { c with programs := c.programs.insert compareText name p }

/-- Takes the program under a name away. -/
def remove (c : Context) (name : String) : Context :=
  { c with programs := c.programs.erase name }

/-- Compiles a source under the bound of the context. -/
def compileOnly (c : Context) (source : String) : Except CompileError Program :=
  Program.compile c.bound source

/-- Compiles a source and puts the program under a name. -/
def compile (c : Context) (name source : String) : Except CompileError Context :=
  (c.compileOnly source).map fun p => c.add name p

/-- Loads a program from its document and puts it under a name. -/
def load (c : Context) (name text : String) : Except CompileError Context :=
  (Program.load c.bound text).map fun p => c.add name p

/-! ### Evaluation -/

/-- Evaluates a program that need not be in the store. -/
def execute (c : Context) (p : Program) (bindings : Bindings) : Outcome Value :=
  (p.execute bindings c.limits).mapError Problem.ofFailure

/-- Evaluates the program under a name. -/
def executeNamed (c : Context) (name : String) (bindings : Bindings) : Outcome Value :=
  match c.program? name with
  | some p => c.execute p bindings
  | none => .error (.unknownProgram name)

/-- Compiles and evaluates a source. -/
def eval (c : Context) (source : String) (bindings : Bindings) : Outcome Value :=
  match c.compileOnly source with
  | .ok p => c.execute p bindings
  | .error e => .error (.ofCompileError e)

/-- The details of the program of a source. -/
def analyze (c : Context) (source : String) : Outcome ProgramDetails :=
  match c.compileOnly source with
  | .ok p => .ok p.details
  | .error e => .error (.ofCompileError e)

end Context

end EmbeddedExpr
