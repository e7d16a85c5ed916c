import EmbeddedExpr.Program.Document
import EmbeddedExpr.Proofs.Grammar.Build
import EmbeddedExpr.Proofs.Syntax.Postorder

/-!
# Nodes and their documents

The document of a node names its fields, and reading asks for the same names, so each kind
of node is read back once its numbers are.  Offsets and counts fit a word and doubles are
finite in every node of a parsed tree (`Expr.NodeWithin`); this is all that reading a node
back needs (`ofJson?_topNode`).
-/

namespace EmbeddedExpr

theorem mapM_map_eq_some {α β : Type} {write : α → β} {read : β → Option α} {as : List α}
    (h : ∀ a ∈ as, read (write a) = some a) : (as.map write).mapM read = some as := by
  induction as with
  | nil => rfl
  | cons a rest ih =>
      obtain ⟨ha, hrest⟩ := List.forall_mem_cons.mp h
      rw [List.map_cons, List.mapM_cons, ha, ih hrest]
      rfl

namespace Json

/-! ### Numbers -/

theorem int?_ofInt {n : Int} (h : WholeRange n) : ((ofInt? n).getD .null).int? = some n := by
  rw [ofInt?, dif_pos h]
  rfl

theorem nat?_eq_some {j : Json} {n : Nat} (h : j.int? = some (n : Int)) : j.nat? = some n := by
  rw [nat?, h]
  show (if (0 : Int) ≤ n then some (n : Int).toNat else none) = some n
  rw [if_pos (Int.natCast_nonneg n), Int.toNat_natCast]

theorem nat?_ofNat {n : Nat} (h : n < 0x10000000000000000) : (ofNat n).nat? = some n := by
  have hrange : WholeRange n := by
    unfold WholeRange
    omega
  exact nat?_eq_some (int?_ofInt hrange)

theorem byte?_ofByte (b : UInt8) : (ofByte b).byte? = some b := by
  have hnat : (ofByte b).nat? = some b.toNat := nat?_eq_some rfl
  rw [byte?, hnat]
  show (if b.toNat < 256 then some (UInt8.ofNat b.toNat) else none) = some b
  rw [if_pos b.toNat_lt, UInt8.ofNat_toNat]

end Json

theorem Span.ofJson?_object (start stop : Json) :
    Span.ofJson? (.object [("start", start), ("end", stop)]) =
      start.nat?.bind fun first => stop.nat?.bind fun last => some ⟨first, last⟩ := rfl

theorem Span.ofJson?_toJson {s : Span} {limit : Nat} (h : s.Within limit)
    (hlimit : limit < 0x10000000000000000) : Span.ofJson? s.toJson = some s := by
  have hstart : (Json.ofNat s.start).nat? = some s.start :=
    Json.nat?_ofNat (Nat.lt_of_le_of_lt h.1 hlimit)
  have hstop : (Json.ofNat s.stop).nat? = some s.stop :=
    Json.nat?_ofNat (Nat.lt_of_le_of_lt h.2 hlimit)
  rw [Span.toJson, Span.ofJson?_object, hstart, hstop]
  rfl

/-! ### Literals -/

namespace Literal

theorem ofJson?_int (n : Int) (h : Json.WholeRange n) :
    ofJson? (.object [("int", .number (.whole n h))]) = (Number.int64? n).map .int := rfl

theorem ofJson?_uint (n : Int) (h : Json.WholeRange n) :
    ofJson? (.object [("uint", .number (.whole n h))]) = (Number.uint64? n).map .uint := rfl

theorem ofJson?_bytes (items : List Json) :
    ofJson? (.object [("bytes", .array items)]) = (items.mapM Json.byte?).map .bytes := rfl

theorem ofJson?_toJson {value : Literal} {span : Span}
    (h : (Expr.literal span value).isFinite = true) : ofJson? value.toJson = some value := by
  cases value with
  | null | bool | text => rfl
  | int i =>
      have hrange : Json.WholeRange i.toInt := by
        have hlow := i.le_toInt
        have hhigh := i.toInt_lt
        unfold Json.WholeRange
        omega
      rw [toJson, Json.ofInt?, dif_pos hrange]
      show ofJson? (.object [("int", .number (.whole i.toInt hrange))]) = _
      rw [ofJson?_int, Number.int64?_eq_some_iff.mpr rfl]
      rfl
  | uint u =>
      have hrange : Json.WholeRange u.toNat := by
        have hhigh := u.toNat_lt
        unfold Json.WholeRange
        omega
      rw [toJson, Json.ofInt?, dif_pos hrange]
      show ofJson? (.object [("uint", .number (.whole u.toNat hrange))]) = _
      rw [ofJson?_uint, Number.uint64?_eq_some_iff.mpr rfl]
      rfl
  | double x =>
      have hfinite : x.isFinite = true := h
      rw [toJson, Json.ofDouble?, dif_pos hfinite]
      rfl
  | bytes bs =>
      rw [toJson, ofJson?_bytes, mapM_map_eq_some fun b _ => Json.byte?_ofByte b]
      rfl

end Literal

/-! ### Nodes -/

namespace Node

theorem ofJson?_toJson_eq (node : Node) :
    ofJson? node.toJson =
      ofFields? node.tag (.object (node.ownFields ++ [("span", node.span.toJson)])) := by
  cases node <;> rfl

/-- The number of operands that the document of a node spells out. -/
def count : Node → Nat
  | list _ count | map _ count | call _ _ _ count => count
  | _ => 0

theorem ofFields?_call (function hasTarget args span : Json) :
    ofFields? "call" (.object [("function", function), ("has_target", hasTarget), ("args", args),
      ("span", span)]) =
      (Span.ofJson? span).bind fun s => function.text?.bind fun name =>
        hasTarget.bool?.bind fun target => args.nat?.bind fun n =>
          some (call s name target n) := rfl

/-- The constant of a node can be read back, if it has one. -/
def HasReadableLiteral : Node → Prop
  | literal _ value => Literal.ofJson? value.toJson = some value
  | _ => True

/-- The fields of a node give the node, whatever document stands for its span. -/
theorem ofFields?_ownFields (node : Node) {span : Json}
    (hspan : Span.ofJson? span = some node.span)
    (hcount : (Json.ofNat node.count).nat? = some node.count)
    (hliteral : node.HasReadableLiteral) :
    ofFields? node.tag (.object (node.ownFields ++ [("span", span)])) = some node := by
  cases node with
  | literal s value =>
      have hvalue : Literal.ofJson? value.toJson = some value := hliteral
      show ((Span.ofJson? span).bind fun s => (Literal.ofJson? value.toJson).bind fun v =>
        some (literal s v)) = _
      rw [hspan, hvalue]
      rfl
  | ident s name =>
      show ((Span.ofJson? span).bind fun s => some (ident s name)) = _
      rw [hspan]
      rfl
  | list s count =>
      have hnat : (Json.ofNat count).nat? = some count := hcount
      show ((Span.ofJson? span).bind fun s => (Json.ofNat count).nat?.bind fun n =>
        some (list s n)) = _
      rw [hspan, hnat]
      rfl
  | map s count =>
      have hnat : (Json.ofNat count).nat? = some count := hcount
      show ((Span.ofJson? span).bind fun s => (Json.ofNat count).nat?.bind fun n =>
        some (map s n)) = _
      rw [hspan, hnat]
      rfl
  | unary s op =>
      show ((Span.ofJson? span).bind fun s =>
        (Json.tagged? UnaryOp.all UnaryOp.tag (.text op.tag)).bind fun op =>
          some (unary s op)) = _
      rw [hspan]
      cases op <;> rfl
  | arith s op =>
      show ((Span.ofJson? span).bind fun s =>
        (Json.tagged? ArithOp.all ArithOp.tag (.text op.tag)).bind fun op =>
          some (arith s op)) = _
      rw [hspan]
      cases op <;> rfl
  | logic s op =>
      show ((Span.ofJson? span).bind fun s =>
        (Json.tagged? LogicOp.all LogicOp.tag (.text op.tag)).bind fun op =>
          some (logic s op)) = _
      rw [hspan]
      cases op <;> rfl
  | relation s op =>
      show ((Span.ofJson? span).bind fun s =>
        (Json.tagged? RelationOp.all RelationOp.tag (.text op.tag)).bind fun op =>
          some (relation s op)) = _
      rw [hspan]
      cases op <;> rfl
  | ternary s =>
      show ((Span.ofJson? span).bind fun s => some (ternary s)) = _
      rw [hspan]
      rfl
  | index s =>
      show ((Span.ofJson? span).bind fun s => some (index s)) = _
      rw [hspan]
      rfl
  | field s name =>
      show ((Span.ofJson? span).bind fun s => some (field s name)) = _
      rw [hspan]
      rfl
  | call s function hasTarget args =>
      have hnat : (Json.ofNat args).nat? = some args := hcount
      rw [tag, ownFields, List.cons_append, List.cons_append, List.cons_append, List.nil_append,
        ofFields?_call, hspan, hnat]
      rfl
  | has s name =>
      show ((Span.ofJson? span).bind fun s => some (has s name)) = _
      rw [hspan]
      rfl
  | iterate s kind var hasFilter =>
      show ((Span.ofJson? span).bind fun s =>
        (Json.tagged? IterationKind.values IterationKind.name (.text kind.name)).bind fun kind =>
          some (iterate s kind var hasFilter)) = _
      rw [hspan]
      cases kind <;> rfl

end Node

namespace Expr

variable {limit : Nat}

/-- The node at the top of a tree is read back if its numbers fit a word. -/
theorem ofJson?_topNode {e : Expr} (h : e.NodeWithin limit)
    (hlimit : limit < 0x10000000000000000) : Node.ofJson? e.topNode.toJson = some e.topNode := by
  have hspanEq : e.topNode.span = e.span := by cases e <;> rfl
  have hcountEq : e.topNode.count = e.listLength := by cases e <;> rfl
  rw [Node.ofJson?_toJson_eq]
  apply Node.ofFields?_ownFields
  · rw [hspanEq]
    exact Span.ofJson?_toJson h.span hlimit
  · rw [hcountEq]
    exact Json.nat?_ofNat (Nat.lt_of_le_of_lt h.listLength hlimit)
  · cases e with
    | literal s value => exact Literal.ofJson?_toJson h.finite
    | _ => trivial

/-- Every node of a tree is the top of a tree inside it. -/
theorem forall_mem_nodes {P : Expr → Prop} {e : Expr} (h : e.All P) :
    ∀ node ∈ e.nodes, ∃ sub : Expr, P sub ∧ node = sub.topNode := by
  induction h with
  | @node e hnode _ ih =>
      intro node hmem
      rw [nodes_eq, List.mem_append, List.mem_flatMap] at hmem
      rcases hmem with ⟨o, ho, hmem⟩ | hmem
      · exact ih o ho node hmem
      · exact ⟨e, hnode, List.mem_singleton.mp hmem⟩

/-- The nodes of a tree are read back from their documents. -/
theorem mapM_ofJson?_nodes {e : Expr} (h : e.All (NodeWithin limit))
    (hlimit : limit < 0x10000000000000000) :
    (e.nodes.map Node.toJson).mapM Node.ofJson? = some e.nodes := by
  apply mapM_map_eq_some
  intro node hnode
  obtain ⟨sub, hsub, rfl⟩ := forall_mem_nodes h node hnode
  exact ofJson?_topNode hsub hlimit

end Expr

end EmbeddedExpr
