import EmbeddedExpr.Proofs.Json.Text
import EmbeddedExpr.Proofs.Program.Compile
import EmbeddedExpr.Proofs.Program.Node

/-!
# Programs are read back from their documents

The document of a program nests five levels, however deep its tree is: the object of the
program, the array of its nodes, the object of a node, that of a constant and its bytes.  It
is read as the tree of the document (`Json.ofText?_write`), each node of it as the node
(`Expr.mapM_ofJson?_nodes`), and the nodes in postorder build the tree under the bound that
the parser kept (`Expr.ofNodes_nodes`).
-/

namespace EmbeddedExpr

open Json

/-! ### Nesting -/

theorem Span.shallow_toJson (n : ℕ) (s : Span) : Shallow (n + 1) s.toJson := by
  rw [Span.toJson]
  exact shallow_object (.cons (shallow_ofNat n s.start) (.single (shallow_ofNat n s.stop)))

theorem Literal.shallow_toJson (value : Literal) : Shallow 2 value.toJson := by
  cases value with
  | null => exact shallow_text 2 "null"
  | bool b => exact shallow_object (.single (shallow_bool 1 b))
  | int i => exact shallow_object (.single (shallow_ofInt 1 i.toInt))
  | uint u => exact shallow_object (.single (shallow_ofInt 1 u.toNat))
  | double x => exact shallow_object (.single (shallow_ofDouble 1 x))
  | text s => exact shallow_object (.single (shallow_text 1 s))
  | bytes bs =>
      apply shallow_object
      apply ShallowFields.single
      apply shallow_array
      intro j hj
      obtain ⟨b, -, rfl⟩ := List.mem_map.mp hj
      exact shallow_number 0 _

theorem Node.shallow_ownFields (node : Node) : ShallowFields 2 node.ownFields := by
  cases node with
  | literal s value => exact .single value.shallow_toJson
  | list s count | map s count => exact .single (shallow_ofNat 2 count)
  | ident | unary | arith | logic | relation | field | has => exact .single (shallow_text 2 _)
  | ternary | index => exact .nil 2
  | call s function hasTarget args =>
      exact .cons (shallow_text 2 _) (.cons (shallow_bool 2 _) (.single (shallow_ofNat 2 args)))
  | iterate =>
      exact .cons (shallow_text 2 _) (.cons (shallow_text 2 _) (.single (shallow_bool 2 _)))

theorem Node.shallow_toJson (node : Node) : Shallow 3 node.toJson :=
  shallow_object (.append (.cons (shallow_text 2 _) node.shallow_ownFields)
    (.single (node.span.shallow_toJson 1)))

namespace Program

/-! ### Reading a program back -/

theorem parts?_object (source params ast : Tree) :
    parts? (.object [(some "source", source), (some "params", params), (some "ast", ast)]) =
      parts?.partsOf? source ast := rfl

theorem partsOf?_eq_some {source ast : Tree} {text : String} {docs : List Json}
    {nodes : List Node} (hsource : source.document? 1 = some (.text text))
    (hast : ast.document? 1 = some (.array docs)) (hnodes : docs.mapM Node.ofJson? = some nodes) :
    parts?.partsOf? source ast = some (text, nodes) := by
  rw [parts?.partsOf?, hsource, hast]
  show (docs.mapM Node.ofJson?).bind (fun nodes => some (text, nodes)) = _
  rw [hnodes, Option.bind_some]

/-- The source and the nodes of a program are found in the tree of its document. -/
theorem parts?_toJson {p : Program} {limit : ℕ} (h : p.expr.All (Expr.NodeWithin limit))
    (hlimit : limit < 0x10000000000000000) :
    parts? (Tree.ofJson p.toJson) = some (p.source, p.expr.nodes) := by
  have hshallow : Shallow 4 (.array (p.expr.nodes.map Node.toJson)) := by
    apply shallow_array
    intro j hj
    obtain ⟨node, -, rfl⟩ := List.mem_map.mp hj
    exact node.shallow_toJson
  have hsource : (Tree.ofJson (.text p.source)).document? 1 = some (.text p.source) :=
    document?_ofJson (shallow_text 0 p.source) (by decide)
  have hast : (Tree.ofJson (.array (p.expr.nodes.map Node.toJson))).document? 1 =
      some (.array (p.expr.nodes.map Node.toJson)) := document?_ofJson hshallow (by decide)
  have htree : Tree.ofJson p.toJson = .object [(some "source", Tree.ofJson (.text p.source)),
      (some "params", Tree.ofJson (.array (p.params.map Json.text))),
      (some "ast", Tree.ofJson (.array (p.expr.nodes.map Node.toJson)))] := rfl
  rw [htree, parts?_object]
  exact partsOf?_eq_some hsource hast (Expr.mapM_ofJson?_nodes h hlimit)

/-- A program whose tree fits its bound and whose offsets fit a word is read back. -/
theorem load_serialize_of_fits {p : Program} {limit bound : ℕ} (h : p.expr.Fits limit bound)
    (hlimit : limit < 0x10000000000000000) : load bound p.serialize = .ok p := by
  have hparts : (Tree.ofText? p.serialize.toList).bind parts? = some (p.source, p.expr.nodes) := by
    rw [serialize, ofText?_write, Option.bind_some, parts?_toJson h.2 hlimit]
  have hread : read bound p.serialize = .ok p := by
    rw [read, hparts]
    simp only [Expr.ofNodes_nodes h.1]
  rw [load, hread]

/-- A compiled program is read back from its text, under the bound that it was compiled with:
with its source, its parameters and its tree, spans included, so that every run of it ends the
same way.  Offsets are words of 64 bits, and no text in memory has `2 ^ 63` bytes. -/
theorem load_serialize {bound : ℕ} {source : String} {p : Program}
    (hsize : Text.byteLength source.toList < 0x8000000000000000)
    (h : compile bound source = .ok p) :
    ∃ q, load bound p.serialize = .ok q ∧ q.source = p.source ∧ q.params = p.params ∧
      q.expr = p.expr ∧
      ∀ bindings limits, q.execute bindings limits = p.execute bindings limits := by
  have hload := load_serialize_of_fits (expr_fits h) (by omega)
  exact ⟨p, hload, rfl, rfl, rfl, fun _ _ => rfl⟩

/-- A source with two macros and the least integer, which is folded, three nodes high. -/
def macroSource : String := "has(a.b) ? [1].map(x, x > 0, -x) : -9223372036854775808"

theorem load_serialize_macroSource :
    Text.byteLength macroSource.toList < 0x8000000000000000 ∧
      ∃ p q, compile 3 macroSource = .ok p ∧ load 3 p.serialize = .ok q ∧ q.source = p.source ∧
        q.params = p.params ∧ q.expr = p.expr := by
  have hsize : Text.byteLength macroSource.toList < 0x8000000000000000 := by decide
  have hcompiles : (compile 3 macroSource).isOk = true := by decide +kernel
  cases hp : compile 3 macroSource with
  | error e =>
      rw [hp] at hcompiles
      cases hcompiles
  | ok p =>
      obtain ⟨q, hload, hsource, hparams, hexpr, -⟩ := load_serialize hsize hp
      exact ⟨hsize, p, q, rfl, hload, hsource, hparams, hexpr⟩

end Program

end EmbeddedExpr
