import EmbeddedExpr.Proofs.Eval.Yields
import EmbeddedExpr.Proofs.Syntax.Names
import EmbeddedExpr.Proofs.Syntax.Postorder

/-!
# Trees that evaluate alike, node by node

A node looks at its operands through their evaluation and their spans only.  So two trees with
the same node on top evaluate alike as soon as their operands do, each under whatever values the
variables have that the node binds for it (`eval_eq_of_operands`); the variables themselves may be
called otherwise (`eval_iterate_alike`).  A part of a tree can therefore be replaced by one that
evaluates alike (`Replaced.eval_eq`), and the same holds of the names that a tree needs
(`Replaced.collectNames_eq`).
-/

namespace EmbeddedExpr

namespace Eval

variable {env : Environment} {scope scope' : Scope} {depth : Nat}

/-- The operands evaluate alike, whatever values the variables have that are bound for them. -/
def Alike (env : Environment) (scope scope' : Scope) (depth : Nat) (o o' : List String × Expr) :
    Prop :=
  o.2.span = o'.2.span ∧ ∀ values : List Value, values.length = o.1.length →
    eval env (o.1.zip values ++ scope) depth o.2 = eval env (o'.1.zip values ++ scope') depth o'.2

namespace Alike

variable {e e' : Expr} {x y : String}

theorem unbound (h : Alike env scope scope' depth ([], e) ([], e')) :
    eval env scope depth e = eval env scope' depth e' := h.2 [] rfl

theorem bound (h : Alike env scope scope' depth ([x], e) ([y], e')) (item : Value) :
    eval env ((x, item) :: scope) depth e = eval env ((y, item) :: scope') depth e' :=
  h.2 [item] rfl

end Alike

theorem evalItems_alike {items items' : List Expr} (hlength : items.length = items'.length)
    (h : ∀ p ∈ (items.map fun item => (([] : List String), item)).zip
      (items'.map fun item => ([], item)), Alike env scope scope' depth p.1 p.2) :
    evalItems env scope depth items = evalItems env scope' depth items' := by
  induction items generalizing items' with
  | nil =>
      obtain rfl := List.eq_nil_of_length_eq_zero hlength.symm
      rfl
  | cons item rest ih =>
      cases items' with
      | nil => cases hlength
      | cons item' rest' =>
          obtain ⟨hitem, hrest⟩ := List.forall_mem_cons.mp h
          rw [evalItems, evalItems, hitem.unbound, ih (Nat.succ.inj hlength) hrest]

theorem evalEntries_alike {entries entries' : List (Expr × Expr)}
    (hlength : entries.length = entries'.length)
    (h : ∀ p ∈ (entries.flatMap fun entry => [(([] : List String), entry.1), ([], entry.2)]).zip
      (entries'.flatMap fun entry => [([], entry.1), ([], entry.2)]),
        Alike env scope scope' depth p.1 p.2) (before : List (MapKey × Value)) :
    evalEntries env scope depth before entries = evalEntries env scope' depth before entries' := by
  induction entries generalizing entries' before with
  | nil =>
      obtain rfl := List.eq_nil_of_length_eq_zero hlength.symm
      rfl
  | cons entry rest ih =>
      cases entries' with
      | nil => cases hlength
      | cons entry' rest' =>
          obtain ⟨hkey, hmore⟩ := List.forall_mem_cons.mp h
          obtain ⟨hvalue, hrest⟩ := List.forall_mem_cons.mp hmore
          have hspan : entry.1.span = entry'.1.span := hkey.1
          rw [evalEntries, evalEntries, hkey.unbound, hvalue.unbound, hspan]
          simp only [ih (Nat.succ.inj hlength) hrest]

/-- Comprehensions evaluate alike if their parts do, whatever their variables are called. -/
theorem eval_iterate_alike {span : Span} {kind : IterationKind} {range range' body body' : Expr}
    {x y : String} {filter filter' : Option Expr}
    (hrange : Alike env scope scope' (depth + 1) ([], range) ([], range'))
    (hfilter : Option.Rel
      (fun f f' => Alike env scope scope' (depth + 1) ([x], f) ([y], f')) filter filter')
    (hbody : Alike env scope scope' (depth + 1) ([x], body) ([y], body')) :
    eval env scope depth (.iterate span kind range x filter body) =
      eval env scope' depth (.iterate span kind range' y filter' body') := by
  have hrangeSpan : range.span = range'.span := hrange.1
  have hbodySpan : body.span = body'.span := hbody.1
  cases hfilter with
  | none => simp only [eval, hrange.unbound, hrangeSpan, hbodySpan, hbody.bound]
  | some hfilter =>
      have hfilterSpan := hfilter.1
      simp only at hfilterSpan
      simp only [eval, hrange.unbound, hrangeSpan, hbodySpan, hbody.bound, hfilterSpan,
        hfilter.bound]

theorem eval_iterate_of_operands {span : Span} {kind : IterationKind}
    {range range' body body' : Expr} {x y : String} {filter filter' : Option Expr}
    (hfilters : filter.isSome = filter'.isSome)
    (h : ∀ p ∈ (Expr.iterate span kind range x filter body).operands.zip
      (Expr.iterate span kind range' y filter' body').operands,
        Alike env scope scope' (depth + 1) p.1 p.2) :
    eval env scope depth (.iterate span kind range x filter body) =
      eval env scope' depth (.iterate span kind range' y filter' body') := by
  cases filter with
  | none => cases filter' with
    | none =>
        obtain ⟨hrange, hmore⟩ := List.forall_mem_cons.mp h
        obtain ⟨hbody, -⟩ := List.forall_mem_cons.mp hmore
        exact eval_iterate_alike hrange .none hbody
    | some => cases hfilters
  | some f => cases filter' with
    | none => cases hfilters
    | some f' =>
        obtain ⟨hrange, hmore⟩ := List.forall_mem_cons.mp h
        obtain ⟨hfilter, hmore⟩ := List.forall_mem_cons.mp hmore
        obtain ⟨hbody, -⟩ := List.forall_mem_cons.mp hmore
        exact eval_iterate_alike hrange (.some hfilter) hbody

/-- Trees with the same node on top evaluate alike if their operands do. -/
theorem eval_eq_of_operands {e e' : Expr} (htop : e.topNode = e'.topNode)
    (hname : ∀ name, e.name? = some name →
      resolve env.bindings scope name = resolve env.bindings scope' name)
    (h : ∀ p ∈ e.operands.zip e'.operands, Alike env scope scope' (depth + 1) p.1 p.2) :
    eval env scope depth e = eval env scope' depth e' := by
  cases e with
  | literal s value =>
      cases e' <;> cases htop
      rfl
  | ident s name =>
      cases e' <;> cases htop
      rw [eval, eval, hname name rfl]
  | list s items => cases e' with
    | list s' items' =>
        obtain ⟨rfl, hlength⟩ := Node.list.inj htop
        rw [eval, eval, evalItems_alike hlength h]
    | _ => cases htop
  | map s entries => cases e' with
    | map s' entries' =>
        obtain ⟨rfl, hlength⟩ := Node.map.inj htop
        rw [eval, eval, evalEntries_alike hlength h]
    | _ => cases htop
  | unary s op operand =>
      cases e' <;> cases htop
      have hoperand := h _ List.mem_cons_self
      rw [eval, eval, hoperand.unbound]
  | arith s op left right | relation s op left right =>
      cases e' <;> cases htop
      obtain ⟨hleft, hmore⟩ := List.forall_mem_cons.mp h
      obtain ⟨hright, -⟩ := List.forall_mem_cons.mp hmore
      rw [eval, eval, hleft.unbound, hright.unbound]
  | logic s op left right => cases e' with
    | logic s' op' left' right' =>
        cases htop
        obtain ⟨hleft, hmore⟩ := List.forall_mem_cons.mp h
        obtain ⟨hright, -⟩ := List.forall_mem_cons.mp hmore
        have hspans : left.span = left'.span ∧ right.span = right'.span := ⟨hleft.1, hright.1⟩
        rw [eval, eval, hleft.unbound, hright.unbound, hspans.1, hspans.2]
    | _ => cases htop
  | ternary s c t f => cases e' with
    | ternary s' c' t' f' =>
        cases htop
        obtain ⟨hc, hmore⟩ := List.forall_mem_cons.mp h
        obtain ⟨ht, hmore⟩ := List.forall_mem_cons.mp hmore
        obtain ⟨hf, -⟩ := List.forall_mem_cons.mp hmore
        have hspan : c.span = c'.span := hc.1
        rw [eval, eval, hc.unbound, ht.unbound, hf.unbound, hspan]
    | _ => cases htop
  | field s target name | has s target name =>
      cases e' <;> cases htop
      have htarget := h _ List.mem_cons_self
      rw [eval, eval, htarget.unbound]
  | index s target position =>
      cases e' <;> cases htop
      obtain ⟨htarget, hmore⟩ := List.forall_mem_cons.mp h
      obtain ⟨hposition, -⟩ := List.forall_mem_cons.mp hmore
      rw [eval, eval, htarget.unbound, hposition.unbound]
  | call s function args => cases e' with
    | call s' function' args' =>
        obtain ⟨rfl, rfl, -, hlength⟩ := Node.call.inj htop
        rw [eval, eval, evalItems_alike hlength h]
    | _ => cases htop
  | method s target function args => cases e' with
    | method s' target' function' args' =>
        obtain ⟨rfl, rfl, -, hlength⟩ := Node.call.inj htop
        obtain ⟨htarget, hargs⟩ := List.forall_mem_cons.mp h
        rw [eval, eval, htarget.unbound, evalItems_alike hlength hargs]
    | _ => cases htop
  | iterate s kind range var filter body => cases e' with
    | iterate s' kind' range' var' filter' body' =>
        obtain ⟨rfl, rfl, rfl, hfilters⟩ := Node.iterate.inj htop
        exact eval_iterate_of_operands hfilters h
    | _ => cases htop

end Eval

/-! ### Names -/

namespace Expr

variable {e e' : Expr}

theorem name?_eq_of_topNode (h : e.topNode = e'.topNode) : e.name? = e'.name? := by
  cases e with
  | ident =>
      cases e' <;> cases h
      rfl
  | _ =>
      cases e' with
      | ident => cases h
      | _ => rfl

theorem length_operands_of_topNode (h : e.topNode = e'.topNode) :
    e.operands.length = e'.operands.length := by
  rw [← operandCount_topNode, ← operandCount_topNode, h]

theorem collectOperands_congr {bound bound' : List String} {os os' : List (List String × Expr)}
    (hlength : os.length = os'.length)
    (h : ∀ p ∈ os.zip os', ∀ found,
      collectNames (p.1.1 ++ bound) found p.1.2 = collectNames (p.2.1 ++ bound') found p.2.2)
    (found : List String) : collectOperands bound found os = collectOperands bound' found os' := by
  induction os generalizing os' found with
  | nil =>
      obtain rfl := List.eq_nil_of_length_eq_zero hlength.symm
      rfl
  | cons o rest ih =>
      cases os' with
      | nil => cases hlength
      | cons o' rest' =>
          obtain ⟨ho, hrest⟩ := List.forall_mem_cons.mp h
          have hfirst : collectNames (o.1 ++ bound) found o.2 =
              collectNames (o'.1 ++ bound') found o'.2 := ho found
          rw [collectOperands, collectOperands, List.foldl_cons, List.foldl_cons, hfirst]
          exact ih (Nat.succ.inj hlength) hrest _

/-! ### Replacing a part of a tree -/

/-- The second tree is the first one with `part` replaced by `part'` at any number of places. -/
inductive Replaced (part part' : Expr) : Expr → Expr → Prop
  | same (t : Expr) : Replaced part part' t t
  | here : Replaced part part' part part'
  | inside {t t' : Expr} : t.topNode = t'.topNode →
      (∀ p ∈ t.operands.zip t'.operands, p.1.1 = p.2.1) →
      (∀ p ∈ t.operands.zip t'.operands, Replaced part part' p.1.2 p.2.2) → Replaced part part' t t'

namespace Replaced

open Eval

variable {part part' t t' : Expr}

theorem span_eq (h : Replaced part part' t t') (hspan : part.span = part'.span) :
    t.span = t'.span := by
  cases h with
  | same => rfl
  | here => exact hspan
  | inside htop =>
      cases t <;> cases t' <;> injection htop

/-- A tree evaluates as it did when a part of it is replaced by one that evaluates alike. -/
theorem eval_eq (h : Replaced part part' t t') (hspan : part.span = part'.span)
    {env : Environment}
    (hpart : ∀ scope depth, eval env scope depth part = eval env scope depth part')
    (scope : Scope) (depth : Nat) : eval env scope depth t = eval env scope depth t' := by
  induction h generalizing scope depth with
  | same => rfl
  | here => exact hpart scope depth
  | inside htop hvars hoperands ih =>
      refine eval_eq_of_operands htop (fun _ _ => rfl) fun p hp => ?_
      refine ⟨(hoperands p hp).span_eq hspan, fun values _ => ?_⟩
      rw [← hvars p hp]
      exact ih p hp _ _

/-- A tree needs the names that it did when a part of it is replaced by one that needs the same
ones. -/
theorem collectNames_eq (h : Replaced part part' t t')
    (hpart : ∀ bound found, collectNames bound found part = collectNames bound found part')
    (bound found : List String) : collectNames bound found t = collectNames bound found t' := by
  induction h generalizing bound found with
  | same => rfl
  | here => exact hpart bound found
  | inside htop hvars hoperands ih =>
      rw [Expr.collectNames_eq, Expr.collectNames_eq, name?_eq_of_topNode htop]
      refine collectOperands_congr (length_operands_of_topNode htop) (fun p hp found => ?_) _
      rw [← hvars p hp]
      exact ih p hp _ _

end Replaced

end Expr

end EmbeddedExpr
