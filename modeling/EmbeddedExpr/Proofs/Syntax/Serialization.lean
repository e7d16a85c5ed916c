import EmbeddedExpr.Proofs.Syntax.Postorder

/-!
# The lists of nodes that are trees

Building a tree from nodes accepts nothing but trees in postorder.  The stack carries the
proof: whatever the nodes, it holds finished trees with the heights they have, and the nodes
of these trees, from the bottom of the stack to its top, are the nodes read so far
(`foldlM_push_eq_ok`).  A node that is pushed finds its operands among the trees on top, or
building fails (`push_eq_ok`).  In the end one tree is left, so its nodes are all that there
were.

With `ofNodes_nodes`, which is the way back, trees within the bound and the lists that
building accepts are the same thing in two forms: `ofNodes_eq_ok_iff_nodes`.
-/

namespace EmbeddedExpr

/-! ### A node above given operands -/

theorem Node.pairs_spec {count : Nat} {items : List Expr} (h : items.length = 2 * count) :
    (pairs items).length = count ∧
      ((pairs items).flatMap fun entry => [entry.1, entry.2]) = items := by
  induction count generalizing items with
  | zero =>
      obtain rfl := List.eq_nil_of_length_eq_zero h
      exact ⟨rfl, rfl⟩
  | succ count ih =>
      match items with
      | [] | [_] => simp at h; try omega
      | key :: value :: rest =>
          have hcount : rest.length = 2 * count := by
            simp only [List.length_cons] at h
            omega
          obtain ⟨hlength, hrest⟩ := ih hcount
          exact ⟨congrArg (· + 1) hlength, congrArg (key :: value :: ·) hrest⟩

/-- What a node makes of operands has the node on top and the operands under it. -/
theorem Node.assemble?_eq_some {node : Node} {trees : List Expr} {e : Expr}
    (h : node.assemble? trees = some e) :
    e.topNode = node ∧ e.operands.map Prod.snd = trees := by
  unfold assemble? at h
  split at h
  case h_4 span count =>
    split at h
    case isTrue hlength =>
      obtain ⟨hcount, hflat⟩ := pairs_spec hlength
      cases h
      exact ⟨congrArg (Node.map span) hcount, List.map_flatMap.trans hflat⟩
    case isFalse => cases h
  case h_3 | h_12 | h_13 =>
    split at h
    case isTrue hlength =>
      cases h
      simp only [Expr.topNode, Expr.operands, hlength, List.map_cons, Expr.map_snd_unbound,
        and_self]
    case isFalse => cases h
  all_goals
    cases h
    try exact ⟨rfl, rfl⟩

namespace Expr

variable {bound : Nat}

/-! ### What a step does to the stack -/

/-- A node that is pushed takes the trees that are its operands from the stack and puts one tree
in their place. -/
theorem push_eq_ok {trees : List Expr} {node : Node} {stack : List Node.Finished}
    (h : Node.push bound (trees.map finished) node = .ok stack) :
    ∃ e rest, e.topNode = node ∧ e.height ≤ bound ∧
      trees = (e.operands.map Prod.snd).reverse ++ rest ∧ stack = (e :: rest).map finished := by
  unfold Node.push at h
  simp only [List.length_map] at h
  split at h
  case isTrue => cases h
  case isFalse hcount =>
    have hoperands : ((trees.map finished).take node.operandCount).reverse =
        ((trees.take node.operandCount).reverse).map finished := by
      rw [← List.map_take, List.map_reverse]
    rw [hoperands] at h
    split at h
    case isTrue => cases h
    case isFalse hheight =>
      split at h
      case h_2 => cases h
      case h_1 e hassembled =>
        have htrees : (((trees.take node.operandCount).reverse).map finished).map Prod.fst =
            (trees.take node.operandCount).reverse := by
          rw [List.map_map]
          exact List.map_id _
        rw [htrees] at hassembled
        obtain ⟨rfl, hbelow⟩ := Node.assemble?_eq_some hassembled
        have hfinished : e.operands.map (fun o => o.2.finished) =
            ((trees.take e.topNode.operandCount).reverse).map finished := by
          rw [← hbelow, List.map_map]
          rfl
        rw [← hfinished, heightAbove_topNode] at hheight h
        cases h
        refine ⟨e, trees.drop e.topNode.operandCount, rfl, Nat.le_of_not_lt hheight, ?_, ?_⟩
        · rw [hbelow, List.reverse_reverse, List.take_append_drop]
        · rw [List.map_cons, ← List.map_drop]
          rfl

/-! ### What a whole list of nodes leaves -/

/-- The stack holds finished trees within the bound, and their nodes are the nodes that were
there before with the nodes read. -/
theorem foldlM_push_eq_ok {trees : List Expr} {nodes : List Node} {stack : List Node.Finished}
    (htrees : ∀ e ∈ trees, e.height ≤ bound)
    (h : nodes.foldlM (Node.push bound) (trees.map finished) = .ok stack) :
    ∃ trees' : List Expr, stack = trees'.map finished ∧ (∀ e ∈ trees', e.height ≤ bound) ∧
      trees'.reverse.flatMap Expr.nodes = trees.reverse.flatMap Expr.nodes ++ nodes := by
  induction nodes generalizing trees with
  | nil =>
      cases h
      exact ⟨trees, rfl, htrees, (List.append_nil _).symm⟩
  | cons node rest ih =>
      rw [List.foldlM_cons] at h
      cases hpush : Node.push bound (trees.map finished) node with
      | error fault => rw [hpush] at h; cases h
      | ok pushed =>
      rw [hpush] at h
      obtain ⟨e, below, rfl, hheight, rfl, rfl⟩ := push_eq_ok hpush
      have hbelow : ∀ e ∈ below, e.height ≤ bound := fun e he =>
        htrees e (List.mem_append_right _ he)
      obtain ⟨trees', rfl, hbounds, hnodes⟩ :=
        ih (List.forall_mem_cons.mpr ⟨hheight, hbelow⟩) h
      refine ⟨trees', rfl, hbounds, ?_⟩
      have hoperands : (e.operands.map Prod.snd).flatMap Expr.nodes =
          e.operands.flatMap fun o => o.2.nodes := List.flatMap_map ..
      rw [hnodes, List.reverse_cons, List.reverse_append, List.reverse_reverse,
        List.flatMap_append, List.flatMap_append, List.flatMap_singleton, nodes_eq e, hoperands]
      simp only [List.append_assoc, List.cons_append, List.nil_append]

/-- What building gives has the nodes it was given and is within the bound. -/
theorem nodes_of_ofNodes {nodes : List Node} {e : Expr} (h : ofNodes bound nodes = .ok e) :
    nodes = e.nodes ∧ e.height ≤ bound := by
  unfold ofNodes at h
  split at h
  case h_3 tree height hstack =>
    have hnone : ∀ e ∈ ([] : List Expr), e.height ≤ bound := nofun
    obtain ⟨trees, hfinished, hbounds, hnodes⟩ := foldlM_push_eq_ok hnone hstack
    cases h
    match trees with
    | [e'] =>
        obtain ⟨rfl, -⟩ := Prod.mk.inj (List.cons.inj hfinished).1
        refine ⟨?_, hbounds _ (List.mem_singleton_self _)⟩
        simpa using hnodes.symm
    | [] | _ :: _ :: _ => simp at hfinished
  all_goals cases h

/-- Building from nodes gives a tree just if the nodes are those of this tree and it is within
the bound; it fails on every other list of nodes, whatever numbers of operands they state. -/
theorem ofNodes_eq_ok_iff_nodes (bound : Nat) (nodes : List Node) :
    (∀ e, ofNodes bound nodes = .ok e ↔ nodes = e.nodes ∧ e.height ≤ bound) ∧
      ((∃ fault, ofNodes bound nodes = .error fault) ↔
        ∀ e : Expr, ¬ (nodes = e.nodes ∧ e.height ≤ bound)) := by
  have hok : ∀ e, ofNodes bound nodes = .ok e ↔ nodes = e.nodes ∧ e.height ≤ bound := fun e =>
    ⟨nodes_of_ofNodes, fun ⟨hnodes, hheight⟩ => hnodes ▸ ofNodes_nodes hheight⟩
  refine ⟨hok, ?_⟩
  cases hresult : ofNodes bound nodes with
  | ok e =>
      refine iff_of_false nofun fun hnone => hnone e ((hok e).mp hresult)
  | error fault =>
      refine iff_of_true ⟨fault, rfl⟩ fun e he => ?_
      rw [(hok e).mpr he] at hresult
      cases hresult

end Expr

end EmbeddedExpr
