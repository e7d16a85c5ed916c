import EmbeddedExpr.Proofs.Syntax.Operands

/-!
# Trees without their spans

`Expr.shape` takes the spans off a tree.  Trees with equal shapes differ in their spans only, also
for the comparison of trees that programs are compared by (`sameShape_of_shape`); that one compares
numbers as numbers, so no constant may be a NaN.
-/

namespace EmbeddedExpr

namespace Expr

mutual

/-- The tree with every span at the beginning of the source. -/
def shape : Expr → Expr
  | literal _ value => literal ⟨0, 0⟩ value
  | ident _ name => ident ⟨0, 0⟩ name
  | list _ items => list ⟨0, 0⟩ (shapeItems items)
  | map _ entries => map ⟨0, 0⟩ (shapeEntries entries)
  | unary _ op operand => unary ⟨0, 0⟩ op (shape operand)
  | arith _ op left right => arith ⟨0, 0⟩ op (shape left) (shape right)
  | logic _ op left right => logic ⟨0, 0⟩ op (shape left) (shape right)
  | relation _ op left right => relation ⟨0, 0⟩ op (shape left) (shape right)
  | ternary _ c t f => ternary ⟨0, 0⟩ (shape c) (shape t) (shape f)
  | field _ target name => field ⟨0, 0⟩ (shape target) name
  | index _ target position => index ⟨0, 0⟩ (shape target) (shape position)
  | call _ function args => call ⟨0, 0⟩ function (shapeItems args)
  | method _ target function args => method ⟨0, 0⟩ (shape target) function (shapeItems args)
  | has _ target name => has ⟨0, 0⟩ (shape target) name
  | iterate _ kind range var filter body =>
    iterate ⟨0, 0⟩ kind (shape range) var (shapeFilter filter) (shape body)

def shapeItems : List Expr → List Expr
  | [] => []
  | item :: rest => shape item :: shapeItems rest

def shapeEntries : List (Expr × Expr) → List (Expr × Expr)
  | [] => []
  | (key, value) :: rest => (shape key, shape value) :: shapeEntries rest

def shapeFilter : Option Expr → Option Expr
  | none => none
  | some filter => some (shape filter)

end

theorem shapeItems_eq_map (items : List Expr) : shapeItems items = items.map shape := by
  induction items with
  | nil => rfl
  | cons item rest ih => rw [shapeItems, ih, List.map_cons]

theorem shapeEntries_eq_map (entries : List (Expr × Expr)) :
    shapeEntries entries = entries.map (Prod.map shape shape) := by
  induction entries with
  | nil => rfl
  | cons entry rest ih => rw [shapeEntries, ih, List.map_cons, Prod.map]

@[simp] theorem shape_span (e : Expr) : e.shape.span = ⟨0, 0⟩ := by
  unfold shape
  split <;> rfl

/-! ### Comparing trees -/

/-- The constant that a node is, if it is one, equals itself. -/
def Reflexive : Expr → Prop
  | literal _ value => value.same value = true
  | _ => True

theorem sameItems_of_shape {as bs : List Expr} (h : shapeItems as = shapeItems bs)
    (ih : ∀ a ∈ as, ∀ b, a.shape = b.shape → a.sameShape b = true) : sameItems as bs = true := by
  induction as generalizing bs with
  | nil =>
      cases bs with
      | nil => rfl
      | cons => cases h
  | cons a as iha =>
      cases bs with
      | nil => cases h
      | cons b bs =>
          obtain ⟨hab, hrest⟩ := List.cons.inj h
          rw [sameItems, ih a List.mem_cons_self b hab,
            iha hrest fun c hc => ih c (List.mem_cons_of_mem _ hc), Bool.and_self]

theorem sameEntries_of_shape {as bs : List (Expr × Expr)} (h : shapeEntries as = shapeEntries bs)
    (ih : ∀ a ∈ as, (∀ b, a.1.shape = b.shape → a.1.sameShape b = true) ∧
      ∀ b, a.2.shape = b.shape → a.2.sameShape b = true) : sameEntries as bs = true := by
  induction as generalizing bs with
  | nil =>
      cases bs with
      | nil => rfl
      | cons => cases h
  | cons a as iha =>
      cases bs with
      | nil => cases h
      | cons b bs =>
          obtain ⟨hab, hrest⟩ := List.cons.inj h
          obtain ⟨hkey, hvalue⟩ := Prod.mk.inj hab
          obtain ⟨ihkey, ihvalue⟩ := ih a List.mem_cons_self
          rw [sameEntries, ihkey _ hkey, ihvalue _ hvalue,
            iha hrest fun c hc => ih c (List.mem_cons_of_mem _ hc)]
          rfl

/-- Trees with equal shapes compare as equal. -/
theorem sameShape_of_shape {a b : Expr} (hall : a.All Reflexive) (h : a.shape = b.shape) :
    a.sameShape b = true := by
  induction a using Expr.induct generalizing b with
  | step a ih =>
      replace ih : ∀ o ∈ a.operands, ∀ b, o.2.shape = b.shape → o.2.sameShape b = true :=
        fun o ho b => ih o ho (hall.operands o ho)
      have hhere := hall.here
      -- nodes of different kinds are different without their spans too
      cases a <;> cases b <;> try contradiction
      case literal.literal =>
        cases h
        exact hhere
      case ident.ident =>
        cases h
        exact beq_self_eq_true _
      case list.list =>
        obtain ⟨-, hitems⟩ := list.inj h
        exact sameItems_of_shape hitems (List.forall_mem_map.mp ih)
      case map.map =>
        obtain ⟨-, hentries⟩ := map.inj h
        exact sameEntries_of_shape hentries (forall_mem_flatMap_pair.mp ih)
      case call.call =>
        obtain ⟨-, rfl, hargs⟩ := call.inj h
        rw [sameShape, sameItems_of_shape hargs (List.forall_mem_map.mp ih), beq_self_eq_true]
        rfl
      case method.method =>
        obtain ⟨-, htarget, rfl, hargs⟩ := method.inj h
        obtain ⟨ihtarget, ihargs⟩ := List.forall_mem_cons.mp ih
        rw [sameShape, ihtarget _ htarget, beq_self_eq_true,
          sameItems_of_shape hargs (List.forall_mem_map.mp ihargs)]
        rfl
      case iterate.iterate _ _ _ _ filter _ _ _ _ _ filter' _ =>
        cases filter <;> cases filter' <;>
          simp only [shape, shapeFilter, iterate.injEq, Option.some.injEq, reduceCtorEq, true_and,
            false_and, and_false] at h <;>
          simp only [operands, List.forall_mem_cons] at ih <;>
          simp [sameShape, h, ih]
      all_goals
        simp only [operands, List.forall_mem_cons] at ih
        simp only [shape, unary.injEq, arith.injEq, logic.injEq, relation.injEq, ternary.injEq,
          field.injEq, index.injEq, has.injEq, true_and] at h
        simp [sameShape, h, ih]

end Expr

end EmbeddedExpr
