import EmbeddedExpr.Syntax.Expr

/-!
# Trees by their operands

The sixteen shapes of nodes differ in what they do with their operands, but most
facts about trees only follow the operands down.  This file gives every node the
list of its operands, each with the variables that the node binds for it
(`Expr.operands`), and derives from it

* `Expr.induct`: what holds of a node whenever it holds of its operands holds of
  every tree;
* `Place.Reaches`: which nodes stand inside a tree, under which variables and how
  far down.

An operand is strictly lower than its node (`height_operand_lt`), which is what the
induction goes down on.
-/

namespace EmbeddedExpr

namespace Expr

/-- The operands of a node from left to right, each with the variables that the node
binds for it. -/
def operands : Expr → List (List String × Expr)
  | literal _ _ | ident _ _ => []
  | list _ items => items.map fun item => ([], item)
  | map _ entries => entries.flatMap fun entry => [([], entry.1), ([], entry.2)]
  | unary _ _ operand => [([], operand)]
  | arith _ _ left right | logic _ _ left right | relation _ _ left right =>
    [([], left), ([], right)]
  | ternary _ c t f => [([], c), ([], t), ([], f)]
  | field _ target _ | has _ target _ => [([], target)]
  | index _ target position => [([], target), ([], position)]
  | call _ _ args => args.map fun arg => ([], arg)
  | method _ target _ args => ([], target) :: args.map fun arg => ([], arg)
  | iterate _ _ range var none body => [([], range), ([var], body)]
  | iterate _ _ range var (some filter) body => [([], range), ([var], filter), ([var], body)]

/-- The name that a node itself refers to. -/
def name? : Expr → Option String
  | ident _ name => some name
  | _ => none

/-- The function that a node itself calls. -/
def callee? : Expr → Option String
  | call _ function _ => some function
  | method _ _ function _ => some function
  | _ => none

theorem forall_mem_flatMap_pair {α β : Type} {entries : List α} {key value : α → β} {P : β → Prop} :
    (∀ b ∈ entries.flatMap fun entry => [key entry, value entry], P b) ↔
      ∀ entry ∈ entries, P (key entry) ∧ P (value entry) := by
  induction entries with
  | nil => simp
  | cons first rest ih =>
      simp only [List.flatMap_cons, List.cons_append, List.nil_append, List.forall_mem_cons, ih,
        and_assoc]

/-! ### Operands are lower than their node -/

theorem height_le_heightItems {item : Expr} {items : List Expr} (hitem : item ∈ items) :
    item.height ≤ heightItems items := by
  induction items with
  | nil => cases hitem
  | cons first rest ih =>
      rw [heightItems]
      rcases List.mem_cons.mp hitem with rfl | hrest
      · exact Nat.le_max_left _ _
      · exact Nat.le_trans (ih hrest) (Nat.le_max_right _ _)

theorem height_le_heightEntries {entry : Expr × Expr} {entries : List (Expr × Expr)}
    (hentry : entry ∈ entries) :
    max entry.1.height entry.2.height ≤ heightEntries entries := by
  induction entries with
  | nil => cases hentry
  | cons first rest ih =>
      obtain ⟨key, value⟩ := first
      rw [heightEntries]
      rcases List.mem_cons.mp hentry with rfl | hrest
      · exact Nat.le_max_left _ _
      · exact Nat.le_trans (ih hrest) (Nat.le_max_right _ _)

theorem height_operand_lt {e : Expr} {o : List String × Expr} (ho : o ∈ e.operands) :
    o.2.height < e.height := by
  cases e with
  | literal | ident => cases ho
  | list _ items | call _ _ items =>
      obtain ⟨item, hitem, rfl⟩ := List.mem_map.mp ho
      exact Nat.lt_succ_of_le (height_le_heightItems hitem)
  | map _ entries =>
      obtain ⟨entry, hentry, ho⟩ := List.mem_flatMap.mp ho
      have hle := height_le_heightEntries hentry
      rw [height]
      simp only [List.mem_cons, List.not_mem_nil, or_false] at ho
      rcases ho with rfl | rfl <;> simp only <;> omega
  | method _ target _ args =>
      rw [height]
      rcases List.mem_cons.mp ho with rfl | ho
      · simp only; omega
      · obtain ⟨arg, harg, rfl⟩ := List.mem_map.mp ho
        have hle := height_le_heightItems harg
        simp only; omega
  | iterate _ _ range var filter body =>
      cases filter <;> simp only [operands, List.mem_cons, List.not_mem_nil, or_false] at ho <;>
        rw [height] <;> rcases ho with rfl | rfl | rfl <;> simp only <;> omega
  | _ =>
      simp only [operands, List.mem_cons, List.not_mem_nil, or_false] at ho
      rw [height]
      rcases ho with rfl | rfl | rfl <;> simp only <;> omega

/-- Induction on trees by their operands. -/
theorem induct {motive : Expr → Prop}
    (step : ∀ e : Expr, (∀ o ∈ e.operands, motive o.2) → motive e) (e : Expr) : motive e :=
  step e fun o ho =>
    have := height_operand_lt ho
    induct step o.2
termination_by e.height

/-- `e.All P` says that every node of `e` is as `P` says. -/
inductive All (P : Expr → Prop) : Expr → Prop
  | node {e : Expr} : P e → (∀ o ∈ e.operands, All P o.2) → All P e

theorem All.here {P : Expr → Prop} {e : Expr} (h : e.All P) : P e := by
  cases h
  assumption

theorem All.operands {P : Expr → Prop} {e : Expr} (h : e.All P) : ∀ o ∈ e.operands, o.2.All P := by
  cases h
  assumption

theorem All.mono {P Q : Expr → Prop} {e : Expr} (h : e.All P) (himp : ∀ e, P e → Q e) :
    e.All Q := by
  induction h with
  | node hnode _ ih => exact .node (himp _ hnode) ih

/-! ### Bounding heights -/

theorem foldl_max_le_iff {heights : List Nat} {start bound : Nat} :
    heights.foldl max start ≤ bound ↔ start ≤ bound ∧ ∀ height ∈ heights, height ≤ bound := by
  induction heights generalizing start with
  | nil => simp
  | cons first rest ih =>
      rw [List.foldl_cons, ih, Nat.max_le, List.forall_mem_cons, and_assoc]

theorem heightItems_le {items : List Expr} {bound : Nat} (h : ∀ item ∈ items, item.height ≤ bound) :
    heightItems items ≤ bound := by
  induction items with
  | nil => exact Nat.zero_le _
  | cons first rest ih =>
      obtain ⟨hfirst, hrest⟩ := List.forall_mem_cons.mp h
      exact Nat.max_le.mpr ⟨hfirst, ih hrest⟩

theorem heightEntries_le {entries : List (Expr × Expr)} {bound : Nat}
    (h : ∀ entry ∈ entries, entry.1.height ≤ bound ∧ entry.2.height ≤ bound) :
    heightEntries entries ≤ bound := by
  induction entries with
  | nil => exact Nat.zero_le _
  | cons first rest ih =>
      obtain ⟨hfirst, hrest⟩ := List.forall_mem_cons.mp h
      exact Nat.max_le.mpr ⟨Nat.max_le.mpr hfirst, ih hrest⟩

/-- A node is at most one higher than its operands are. -/
theorem height_le_succ {e : Expr} {below : Nat} (h : ∀ o ∈ e.operands, o.2.height ≤ below) :
    e.height ≤ below + 1 := by
  cases e with
  | literal | ident => exact Nat.zero_le _
  | list _ items | call _ _ items =>
      have hitems : heightItems items ≤ below :=
        heightItems_le fun item hitem => h _ (List.mem_map.mpr ⟨item, hitem, rfl⟩)
      exact Nat.succ_le_succ hitems
  | map _ entries =>
      exact Nat.succ_le_succ (heightEntries_le (forall_mem_flatMap_pair.mp h))
  | method _ target _ args =>
      obtain ⟨htarget, hargs⟩ := List.forall_mem_cons.mp h
      have hitems : heightItems args ≤ below :=
        heightItems_le fun arg harg => hargs _ (List.mem_map.mpr ⟨arg, harg, rfl⟩)
      exact Nat.succ_le_succ (Nat.max_le.mpr ⟨htarget, hitems⟩)
  | iterate _ _ range var filter body =>
      cases filter <;>
        simp only [operands, List.forall_mem_cons, List.not_mem_nil, false_implies, implies_true,
          and_true] at h <;>
        simp only [height] <;> omega
  | _ =>
      simp only [operands, List.forall_mem_cons, List.not_mem_nil, false_implies, implies_true,
        and_true] at h
      simp only [height]
      omega

end Expr

/-! ### Where nodes stand -/

/-- An expression where it stands: the variables bound around it, the innermost first,
and the number of nodes above it. -/
structure Place where
  vars : List String
  depth : Nat
  expr : Expr

namespace Place

/-- A whole tree. -/
def root (e : Expr) : Place := ⟨[], 0, e⟩

/-- The places of the operands of a place. -/
def operands (p : Place) : List Place :=
  p.expr.operands.map fun o => ⟨o.1 ++ p.vars, p.depth + 1, o.2⟩

/-- `p.Reaches q` says that `q` is `p` or stands inside it. -/
inductive Reaches : Place → Place → Prop
  | refl (p : Place) : Reaches p p
  | down {p q r : Place} : q ∈ p.operands → Reaches q r → Reaches p r

/-- Going down a path loses at least as much height as it gains depth. -/
theorem Reaches.depth_add_height_le {p q : Place} (h : p.Reaches q) :
    q.depth + q.expr.height ≤ p.depth + p.expr.height := by
  induction h with
  | refl => exact Nat.le_refl _
  | down hq _ ih =>
      obtain ⟨o, ho, rfl⟩ := List.mem_map.mp hq
      have hlt := Expr.height_operand_lt ho
      simp only at ih
      omega

/-- What holds of every node of a tree holds of every node of the trees inside it. -/
theorem Reaches.all {P : Expr → Prop} {p q : Place} (h : p.Reaches q)
    (hall : p.expr.All P) : q.expr.All P := by
  induction h with
  | refl => exact hall
  | down hq _ ih =>
      obtain ⟨o, ho, rfl⟩ := List.mem_map.mp hq
      exact ih (hall.operands o ho)

end Place

end EmbeddedExpr
