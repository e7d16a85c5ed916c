import EmbeddedExpr.Proofs.Syntax.Operands
import EmbeddedExpr.Syntax.FreeNames

/-!
# The names that a tree needs

`Expr.freeNames` is collected by one walk that carries the bound variables and the
names found so far.  Read node by node the walk says: a name is needed by a node if
the node is that identifier and no variable around it is called so, or if one of the
operands needs it under the variables that the node binds for it
(`mem_collectNames_iff`).  So the names that any place inside a tree needs are needed
by the whole tree (`Reaches.free_subset`), and the same holds of the functions that
are called (`Reaches.called_subset`).
-/

namespace EmbeddedExpr

namespace Expr

/-! ### Called functions -/

mutual

/-- The functions that an expression calls, with and without a receiver. -/
def calledNames : Expr → List String
  | literal _ _ | ident _ _ => []
  | list _ items => calledByItems items
  | map _ entries => calledByEntries entries
  | unary _ _ operand => calledNames operand
  | arith _ _ left right => calledNames left ++ calledNames right
  | logic _ _ left right => calledNames left ++ calledNames right
  | relation _ _ left right => calledNames left ++ calledNames right
  | ternary _ c t f => calledNames c ++ calledNames t ++ calledNames f
  | field _ target _ => calledNames target
  | index _ target position => calledNames target ++ calledNames position
  | call _ function args => function :: calledByItems args
  | method _ target function args => function :: calledNames target ++ calledByItems args
  | has _ target _ => calledNames target
  | iterate _ _ range _ none body => calledNames range ++ calledNames body
  | iterate _ _ range _ (some filter) body =>
    calledNames range ++ calledNames filter ++ calledNames body

def calledByItems : List Expr → List String
  | [] => []
  | item :: rest => calledNames item ++ calledByItems rest

def calledByEntries : List (Expr × Expr) → List String
  | [] => []
  | (key, value) :: rest => calledNames key ++ calledNames value ++ calledByEntries rest

end

theorem mem_calledByItems {name : String} {item : Expr} {items : List Expr}
    (hitem : item ∈ items) (hname : name ∈ item.calledNames) : name ∈ calledByItems items := by
  induction items with
  | nil => cases hitem
  | cons first rest ih =>
      rw [calledByItems, List.mem_append]
      rcases List.mem_cons.mp hitem with rfl | hrest
      · exact Or.inl hname
      · exact Or.inr (ih hrest)

theorem mem_calledByEntries {name : String} {entry : Expr × Expr} {entries : List (Expr × Expr)}
    (hentry : entry ∈ entries) (hname : name ∈ entry.1.calledNames ++ entry.2.calledNames) :
    name ∈ calledByEntries entries := by
  induction entries with
  | nil => cases hentry
  | cons first rest ih =>
      obtain ⟨key, value⟩ := first
      rw [calledByEntries, List.mem_append]
      rcases List.mem_cons.mp hentry with rfl | hrest
      · exact Or.inl hname
      · exact Or.inr (ih hrest)

/-- What an operand calls its node calls. -/
theorem mem_calledNames_of_operand {name : String} {e : Expr} {o : List String × Expr}
    (ho : o ∈ e.operands) (hname : name ∈ o.2.calledNames) : name ∈ e.calledNames := by
  cases e with
  | literal | ident => cases ho
  | list _ items =>
      obtain ⟨item, hitem, rfl⟩ := List.mem_map.mp ho
      exact mem_calledByItems hitem hname
  | map _ entries =>
      obtain ⟨entry, hentry, ho⟩ := List.mem_flatMap.mp ho
      refine mem_calledByEntries hentry (List.mem_append.mpr ?_)
      simp only [List.mem_cons, List.not_mem_nil, or_false] at ho
      rcases ho with rfl | rfl
      · exact Or.inl hname
      · exact Or.inr hname
  | call _ function args =>
      obtain ⟨arg, harg, rfl⟩ := List.mem_map.mp ho
      exact List.mem_cons_of_mem _ (mem_calledByItems harg hname)
  | method _ target function args =>
      refine List.mem_append.mpr ?_
      rcases List.mem_cons.mp ho with rfl | ho
      · exact Or.inl (List.mem_cons_of_mem _ hname)
      · obtain ⟨arg, harg, rfl⟩ := List.mem_map.mp ho
        exact Or.inr (mem_calledByItems harg hname)
  | iterate _ _ range var filter body =>
      cases filter <;> simp only [operands, List.mem_cons, List.not_mem_nil, or_false] at ho <;>
        rcases ho with rfl | rfl | rfl <;> simp [calledNames, hname]
  | _ =>
      simp only [operands, List.mem_cons, List.not_mem_nil, or_false] at ho
      rcases ho with rfl | rfl | rfl <;> simp [calledNames, hname]

theorem callee_mem_calledNames {e : Expr} {function : String} (h : e.callee? = some function) :
    function ∈ e.calledNames := by
  cases e <;> simp_all [callee?, calledNames]

/-! ### Free names -/

/-- The walk over operands one after the other. -/
def collectOperands (bound found : List String) (operands : List (List String × Expr)) :
    List String :=
  operands.foldl (fun found o => collectNames (o.1 ++ bound) found o.2) found

theorem collectItems_eq (bound found : List String) (items : List Expr) :
    collectItems bound found items =
      collectOperands bound found (items.map fun item => ([], item)) := by
  induction items generalizing found with
  | nil => rfl
  | cons item rest ih => exact ih _

theorem collectEntries_eq (bound found : List String) (entries : List (Expr × Expr)) :
    collectEntries bound found entries =
      collectOperands bound found
        (entries.flatMap fun entry => [([], entry.1), ([], entry.2)]) := by
  induction entries generalizing found with
  | nil => rfl
  | cons entry rest ih => exact ih _

/-- The walk notes the name of a node and goes on with its operands. -/
theorem collectNames_eq (bound found : List String) (e : Expr) :
    collectNames bound found e =
      collectOperands bound (e.name?.elim found (noteName bound found)) e.operands := by
  cases e with
  | list _ items | call _ _ items => exact collectItems_eq bound found items
  | map _ entries => exact collectEntries_eq bound found entries
  | method _ target _ args => exact collectItems_eq bound (collectNames bound found target) args
  | iterate _ _ range var filter body => cases filter <;> rfl
  | _ => rfl

theorem mem_noteName_iff {bound found : List String} {name other : String} :
    name ∈ noteName bound found other ↔ name ∈ found ∨ (name = other ∧ name ∉ bound) := by
  unfold noteName
  split
  · rename_i h
    simp only [Bool.or_eq_true, List.contains_iff_mem] at h
    constructor
    · exact Or.inl
    · rintro (hfound | ⟨rfl, hbound⟩)
      · exact hfound
      · exact h.resolve_left hbound
  · rename_i h
    simp only [Bool.or_eq_true, List.contains_iff_mem, not_or] at h
    rw [List.mem_append, List.mem_singleton]
    constructor
    · rintro (hfound | rfl)
      · exact Or.inl hfound
      · exact Or.inr ⟨rfl, h.1⟩
    · rintro (hfound | ⟨rfl, _⟩)
      · exact Or.inl hfound
      · exact Or.inr rfl

theorem mem_collectOperands_iff {name : String} {bound : List String}
    {operands : List (List String × Expr)}
    (hacc : ∀ o ∈ operands, ∀ found,
      name ∈ collectNames (o.1 ++ bound) found o.2 ↔
        name ∈ found ∨ name ∈ collectNames (o.1 ++ bound) [] o.2)
    (found : List String) :
    name ∈ collectOperands bound found operands ↔
      name ∈ found ∨ ∃ o ∈ operands, name ∈ collectNames (o.1 ++ bound) [] o.2 := by
  induction operands generalizing found with
  | nil => simp [collectOperands]
  | cons o rest ih =>
      have hrest := ih (fun p hp => hacc p (List.mem_cons_of_mem _ hp))
      rw [collectOperands, List.foldl_cons, ← collectOperands, hrest,
        hacc o (List.mem_cons_self ..), or_assoc]
      simp

/-- The names found before an expression stay, and what it adds does not depend on them. -/
theorem mem_collectNames_acc {name : String} (e : Expr) (bound found : List String) :
    name ∈ collectNames bound found e ↔ name ∈ found ∨ name ∈ collectNames bound [] e := by
  induction e using Expr.induct generalizing bound found with
  | step e ih =>
      have hoperands (found : List String) : name ∈ collectOperands bound found e.operands ↔
          name ∈ found ∨ ∃ o ∈ e.operands, name ∈ collectNames (o.1 ++ bound) [] o.2 :=
        mem_collectOperands_iff (fun o ho found => ih o ho (o.1 ++ bound) found) found
      rw [collectNames_eq bound found, collectNames_eq bound [], hoperands, hoperands, ← or_assoc]
      cases e.name? with
      | none => simp
      | some other => simp [mem_noteName_iff]

/-- A node needs the name it is, unless a variable around it is called so, and what its
operands need. -/
theorem mem_collectNames_iff {name : String} {bound : List String} {e : Expr} :
    name ∈ collectNames bound [] e ↔
      (e.name? = some name ∧ name ∉ bound) ∨
        ∃ o ∈ e.operands, name ∈ collectNames (o.1 ++ bound) [] o.2 := by
  rw [collectNames_eq, mem_collectOperands_iff fun o _ found => mem_collectNames_acc o.2 _ found]
  cases e.name? with
  | none => simp
  | some other => simp [mem_noteName_iff, eq_comm]

end Expr

namespace Place

/-- The names that the expression at a place needs from outside of all variables bound
around it. -/
def free (p : Place) : List String := Expr.collectNames p.vars [] p.expr

theorem Reaches.free_subset {p q : Place} (h : p.Reaches q) : q.free ⊆ p.free := by
  induction h with
  | refl => exact List.Subset.refl _
  | down hq _ ih =>
      obtain ⟨o, ho, rfl⟩ := List.mem_map.mp hq
      intro name hname
      exact Expr.mem_collectNames_iff.mpr (Or.inr ⟨o, ho, ih hname⟩)

/-- An identifier inside a tree is a variable bound around it or free in the tree. -/
theorem Reaches.mem_free {p q : Place} (h : p.Reaches q) {name : String}
    (hname : q.expr.name? = some name) (hvars : name ∉ q.vars) : name ∈ p.free :=
  h.free_subset (Expr.mem_collectNames_iff.mpr (Or.inl ⟨hname, hvars⟩))

theorem Reaches.called_subset {p q : Place} (h : p.Reaches q) :
    q.expr.calledNames ⊆ p.expr.calledNames := by
  induction h with
  | refl => exact List.Subset.refl _
  | down hq _ ih =>
      obtain ⟨o, ho, rfl⟩ := List.mem_map.mp hq
      intro name hname
      exact Expr.mem_calledNames_of_operand ho (ih hname)

end Place

end EmbeddedExpr
