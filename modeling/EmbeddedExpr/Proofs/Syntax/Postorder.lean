import EmbeddedExpr.Proofs.Syntax.Operands
import EmbeddedExpr.Syntax.Postorder

/-!
# Writing a tree in postorder and building it again

In postorder a node stands after the nodes of its operands, whatever its kind
(`nodes_eq`).  So the stack of the rebuilder always ends in the operands of the node that
is next, and the node finds as many as it takes, puts itself above them and computes the
height that the tree has (`push_topNode`).  Building is therefore the inverse of writing up
to the bound on the height: `ofNodes_nodes`.
-/

namespace EmbeddedExpr

namespace Expr

/-- The node at the top of a tree without its operands. -/
def topNode : Expr → Node
  | literal s value => .literal s value
  | ident s name => .ident s name
  | list s items => .list s items.length
  | map s entries => .map s entries.length
  | unary s op _ => .unary s op
  | arith s op _ _ => .arith s op
  | logic s op _ _ => .logic s op
  | relation s op _ _ => .relation s op
  | ternary s _ _ _ => .ternary s
  | field s _ name => .field s name
  | index s _ _ => .index s
  | call s function args => .call s function false args.length
  | method s _ function args => .call s function true args.length
  | has s _ name => .has s name
  | iterate s kind _ var filter _ => .iterate s kind var filter.isSome

/-! ### A tree is its operands and its top -/

theorem itemNodes_eq (items : List Expr) : itemNodes items = items.flatMap nodes := by
  induction items with
  | nil => rfl
  | cons item rest ih => rw [itemNodes, ih, List.flatMap_cons]

theorem entryNodes_eq (entries : List (Expr × Expr)) :
    entryNodes entries = entries.flatMap fun entry => nodes entry.1 ++ nodes entry.2 := by
  induction entries with
  | nil => rfl
  | cons entry rest ih => rw [entryNodes, ih, List.flatMap_cons]

theorem nodes_eq (e : Expr) : e.nodes = (e.operands.flatMap fun o => o.2.nodes) ++ [e.topNode] := by
  cases e with
  | list _ items | call _ _ items =>
      simp only [nodes, operands, topNode, itemNodes_eq, List.flatMap_map]
  | map _ entries =>
      simp only [nodes, operands, topNode, entryNodes_eq, List.flatMap_assoc, List.flatMap_cons,
        List.flatMap_nil, List.append_nil]
  | method _ target _ args =>
      simp only [nodes, operands, topNode, itemNodes_eq, List.flatMap_cons, List.flatMap_map]
  | iterate _ _ range var filter body => cases filter <;> simp [nodes, operands, topNode]
  | _ => simp [nodes, operands, topNode]

theorem length_flatMap_pair {α β : Type} (entries : List α) (key value : α → β) :
    (entries.flatMap fun entry => [key entry, value entry]).length = 2 * entries.length := by
  induction entries with
  | nil => rfl
  | cons entry rest ih =>
      rw [List.flatMap_cons, List.length_append, ih]
      show 2 + 2 * rest.length = 2 * (rest.length + 1)
      omega

theorem operandCount_topNode (e : Expr) : e.topNode.operandCount = e.operands.length := by
  cases e with
  | map _ entries => exact (length_flatMap_pair entries _ _).symm
  | iterate _ _ range var filter body => cases filter <;> rfl
  | _ => simp [topNode, Node.operandCount, operands]

theorem pairs_flatMap (entries : List (Expr × Expr)) :
    Node.pairs (entries.flatMap fun entry => [entry.1, entry.2]) = entries := by
  induction entries with
  | nil => rfl
  | cons entry rest ih =>
      rw [List.flatMap_cons]
      exact congrArg (entry :: ·) ih

theorem map_snd_unbound (items : List Expr) :
    (items.map fun item => (([] : List String), item)).map Prod.snd = items := by
  rw [List.map_map]
  exact List.map_id items

theorem assemble?_topNode (e : Expr) :
    e.topNode.assemble? (e.operands.map Prod.snd) = some e := by
  cases e with
  | map s entries =>
      have hflat : (operands (map s entries)).map Prod.snd =
          entries.flatMap fun entry => [entry.1, entry.2] := List.map_flatMap
      rw [hflat, topNode, Node.assemble?, if_pos (length_flatMap_pair entries _ _), pairs_flatMap]
  | list _ items | call _ _ items | method _ _ _ items =>
      simp only [topNode, operands, Node.assemble?, List.map_cons, map_snd_unbound, if_true]
  | iterate _ _ range var filter body => cases filter <;> rfl
  | _ => rfl

theorem height_pos_of_not_leaf {e : Expr} (h : ¬ e.topNode.isLeaf) : 0 < e.height := by
  cases e with
  | literal | ident => exact absurd rfl h
  | iterate _ _ range var filter body => cases filter <;> exact Nat.succ_pos _
  | _ => exact Nat.succ_pos _

/-- A finished tree with the height it has. -/
def finished (e : Expr) : Node.Finished := (e, e.height)

/-- The height that a node has above its operands is the one the tree has. -/
theorem heightAbove_topNode (e : Expr) :
    e.topNode.heightAbove (e.operands.map fun o => o.2.finished) = e.height := by
  have hheights : (e.operands.map fun o => o.2.finished).map Prod.snd =
      e.operands.map fun o => o.2.height := List.map_map
  rw [Node.heightAbove, hheights]
  by_cases hleaf : e.topNode.isLeaf
  · rw [if_pos hleaf]
    cases e <;> first | rfl | exact absurd hleaf Bool.false_ne_true
  · rw [if_neg hleaf]
    apply Nat.le_antisymm
    · have hpos := height_pos_of_not_leaf hleaf
      have hgreatest : (e.operands.map fun o => o.2.height).foldl max 0 ≤ e.height - 1 := by
        refine foldl_max_le_iff.mpr ⟨Nat.zero_le _, List.forall_mem_map.mpr fun o ho => ?_⟩
        exact Nat.le_sub_one_of_lt (height_operand_lt ho)
      omega
    · -- no operand is higher than the greatest of them
      apply height_le_succ
      intro o ho
      exact (foldl_max_le_iff.mp (Nat.le_refl _)).2 _ (List.mem_map.mpr ⟨o, ho, rfl⟩)

/-! ### Building -/

variable {bound : Nat}

/-- A node above its operands takes them from the stack and leaves the tree. -/
theorem push_topNode {e : Expr} (h : e.height ≤ bound) (stack : List Node.Finished) :
    Node.push bound ((e.operands.map fun o => o.2.finished).reverse ++ stack) e.topNode =
      .ok (e.finished :: stack) := by
  have hcount : e.topNode.operandCount = (e.operands.map fun o => o.2.finished).reverse.length := by
    rw [operandCount_topNode, List.length_reverse, List.length_map]
  have htrees : (e.operands.map fun o => o.2.finished).map Prod.fst = e.operands.map Prod.snd :=
    List.map_map
  rw [Node.push]
  simp only [hcount, List.take_left, List.drop_left, List.reverse_reverse]
  rw [if_neg (by simp), heightAbove_topNode, if_neg (Nat.not_lt.mpr h), htrees, assemble?_topNode]
  rfl

/-- The nodes of operands leave the operands on the stack, the last on top. -/
theorem foldlM_operands {operands : List (List String × Expr)}
    (h : ∀ o ∈ operands, ∀ stack, o.2.nodes.foldlM (Node.push bound) stack =
      .ok (o.2.finished :: stack)) (stack : List Node.Finished) :
    (operands.flatMap fun o => o.2.nodes).foldlM (Node.push bound) stack =
      .ok ((operands.map fun o => o.2.finished).reverse ++ stack) := by
  induction operands generalizing stack with
  | nil => rfl
  | cons o rest ih =>
      obtain ⟨ho, hrest⟩ := List.forall_mem_cons.mp h
      rw [List.flatMap_cons, List.foldlM_append, ho stack, List.map_cons, List.reverse_cons,
        List.append_assoc]
      exact ih hrest (o.2.finished :: stack)

theorem foldlM_nodes {e : Expr} (h : e.height ≤ bound) (stack : List Node.Finished) :
    e.nodes.foldlM (Node.push bound) stack = .ok (e.finished :: stack) := by
  induction e using induct generalizing stack with
  | step e ih =>
      -- first the operands are pushed, then the node on top takes them off the stack
      have hoperands := foldlM_operands (fun o ho =>
        ih o ho (Nat.le_trans (Nat.le_of_lt (height_operand_lt ho)) h)) stack
      rw [nodes_eq, List.foldlM_append, hoperands]
      show ([e.topNode].foldlM (Node.push bound) _ : Except _ _) = _
      rw [List.foldlM_cons, push_topNode h]
      rfl

/-- A tree within the bound is built again from its nodes. -/
theorem ofNodes_nodes {e : Expr} (h : e.height ≤ bound) : ofNodes bound e.nodes = .ok e := by
  rw [ofNodes, foldlM_nodes h]
  rfl

end Expr

end EmbeddedExpr
