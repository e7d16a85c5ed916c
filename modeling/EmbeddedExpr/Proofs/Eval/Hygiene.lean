import EmbeddedExpr.Proofs.Eval.Congruence
import Mathlib.Logic.Function.Basic

/-!
# Renaming the variable of a comprehension

Names are looked up while an expression is evaluated, the innermost variable first, so it takes
a proof that the name of a variable does not matter.  It does not matter if the new name occurs
nowhere in the filter and the body (`Expr.Avoids`): it is then meant by no name that was there
before, and no variable inside captures it.

What the induction carries is that every name of a tree means in one scope what its new name
means in the other (`Expr.Carries`).  A variable inside the tree shields its name from the
renaming, and both scopes grow by the same entry (`Carries.under`).  Whether a name means a value
or is bound by a comprehension makes no difference to this, so evaluation (`eval_rename`) and the
search for the free names (`collectNames_rename`) go the same way.
-/

namespace EmbeddedExpr

namespace Expr

/-! ### Renaming -/

mutual

/-- The tree with its free names renamed.  The variable of a comprehension shields its name in
the filter and the body. -/
def rename (f : String → String) : Expr → Expr
  | literal s value => literal s value
  | ident s name => ident s (f name)
  | list s items => list s (renameItems f items)
  | map s entries => map s (renameEntries f entries)
  | unary s op operand => unary s op (rename f operand)
  | arith s op left right => arith s op (rename f left) (rename f right)
  | logic s op left right => logic s op (rename f left) (rename f right)
  | relation s op left right => relation s op (rename f left) (rename f right)
  | ternary s c t e => ternary s (rename f c) (rename f t) (rename f e)
  | field s target name => field s (rename f target) name
  | index s target position => index s (rename f target) (rename f position)
  | call s function args => call s function (renameItems f args)
  | method s target function args => method s (rename f target) function (renameItems f args)
  | has s target name => has s (rename f target) name
  | iterate s kind range var none body =>
    iterate s kind (rename f range) var none (rename (Function.update f var var) body)
  | iterate s kind range var (some filter) body =>
    iterate s kind (rename f range) var (some (rename (Function.update f var var) filter))
      (rename (Function.update f var var) body)

def renameItems (f : String → String) : List Expr → List Expr
  | [] => []
  | item :: rest => rename f item :: renameItems f rest

def renameEntries (f : String → String) : List (Expr × Expr) → List (Expr × Expr)
  | [] => []
  | (key, value) :: rest => (rename f key, rename f value) :: renameEntries f rest

end

/-- The tree with `y` for the free occurrences of `x`. -/
def renameTo (x y : String) (e : Expr) : Expr := e.rename (Function.update id x y)

/-- The variable that a node itself binds. -/
def var? : Expr → Option String
  | iterate _ _ _ var _ _ => some var
  | _ => none

/-- The name is neither an identifier nor a variable of the tree. -/
def Avoids (name : String) (e : Expr) : Prop :=
  e.All fun node => node.name? ≠ some name ∧ node.var? ≠ some name

/-- A renaming that leaves the names of variables to themselves. -/
def shield (f : String → String) (vars : List String) : String → String :=
  vars.foldr (fun var f => Function.update f var var) f

variable {f : String → String} {e : Expr}

theorem renameItems_eq_map (items : List Expr) : renameItems f items = items.map (rename f) := by
  induction items with
  | nil => rfl
  | cons item rest ih => rw [renameItems, ih, List.map_cons]

theorem renameEntries_eq_map (entries : List (Expr × Expr)) :
    renameEntries f entries = entries.map (Prod.map (rename f) (rename f)) := by
  induction entries with
  | nil => rfl
  | cons entry rest ih => rw [renameEntries, ih, List.map_cons, Prod.map]

theorem rename_span (f : String → String) (e : Expr) : (e.rename f).span = e.span := by
  unfold rename
  split <;> rfl

theorem rename_operands (f : String → String) (e : Expr) :
    (e.rename f).operands = e.operands.map fun o => (o.1, o.2.rename (shield f o.1)) := by
  cases e with
  | list | call | method =>
      simp only [rename, operands, renameItems_eq_map, List.map_map, List.map_cons]
      rfl
  | map =>
      simp only [rename, operands, renameEntries_eq_map, List.map_flatMap, List.flatMap_map]
      rfl
  | iterate _ _ _ _ filter _ => cases filter <;> rfl
  | _ => rfl

theorem rename_name? (f : String → String) (e : Expr) : (e.rename f).name? = e.name?.map f := by
  cases e with
  | iterate _ _ _ _ filter _ => cases filter <;> rfl
  | _ => rfl

theorem rename_topNode (h : e.name? = none) : (e.rename f).topNode = e.topNode := by
  cases e with
  | ident => cases h
  | list | map | call | method =>
      simp only [rename, topNode, renameItems_eq_map, renameEntries_eq_map, List.length_map]
  | iterate _ _ _ _ filter _ => cases filter <;> rfl
  | _ => rfl

/-- A node binds its variable for an operand, or nothing. -/
theorem vars_operand {o : List String × Expr} (ho : o ∈ e.operands) :
    o.1 = [] ∨ ∃ var, e.var? = some var ∧ o.1 = [var] := by
  cases e with
  | literal | ident => cases ho
  | list | call =>
      obtain ⟨item, -, rfl⟩ := List.mem_map.mp ho
      exact .inl rfl
  | map =>
      obtain ⟨entry, -, ho⟩ := List.mem_flatMap.mp ho
      simp only [List.mem_cons, List.not_mem_nil, or_false] at ho
      rcases ho with rfl | rfl <;> exact .inl rfl
  | method =>
      rcases List.mem_cons.mp ho with rfl | ho
      · exact .inl rfl
      · obtain ⟨item, -, rfl⟩ := List.mem_map.mp ho
        exact .inl rfl
  | iterate _ _ _ _ filter _ =>
      cases filter <;> simp only [operands, List.mem_cons, List.not_mem_nil, or_false] at ho <;>
        rcases ho with rfl | rfl | rfl <;> simp [var?]
  | _ =>
      simp only [operands, List.mem_cons, List.not_mem_nil, or_false] at ho
      rcases ho with rfl | rfl | rfl <;> exact .inl rfl

/-! ### Names that mean the same -/

/-- Every name in the tree means the same as its new name, and no name is renamed to a variable
inside the tree. -/
def Carries (f : String → String) (same : String → String → Prop) (e : Expr) : Prop :=
  e.All fun node => (∀ name, node.name? = some name → same name (f name)) ∧
    ∀ var, node.var? = some var → ∀ name, f name = var → name = var

variable {same same' : String → String → Prop}

theorem Carries.operand (h : e.Carries f same) {o : List String × Expr} (ho : o ∈ e.operands) :
    o.2.Carries f same := All.operands h o ho

/-- Under one more variable, which is not renamed, names mean the same as before if they are not
called so. -/
theorem Carries.under {var : String} (h : e.Carries f same)
    (hvar : ∀ name, f name = var → name = var) (hself : same' var var)
    (hother : ∀ name name', name ≠ var → name' ≠ var → same name name' → same' name name') :
    e.Carries (Function.update f var var) same' := by
  refine h.mono fun node ⟨hname, hvars⟩ => ⟨fun name heq => ?_, fun inner heq name hrenamed => ?_⟩
  · by_cases hshielded : name = var
    · rwa [hshielded, Function.update_self]
    · rw [Function.update_of_ne hshielded]
      exact hother _ _ hshielded (fun h => hshielded (hvar name h)) (hname name heq)
  · by_cases hshielded : name = var
    · rw [hshielded, Function.update_self] at hrenamed
      rw [hshielded, hrenamed]
    · rw [Function.update_of_ne hshielded] at hrenamed
      exact hvars inner heq name hrenamed

/-- A fresh name may stand for a variable, if it means what the variable meant and all other names
mean what they did. -/
theorem Avoids.carries {x y : String} (h : e.Avoids y) (hxy : same x y)
    (hother : ∀ name, name ≠ x → name ≠ y → same name name) :
    e.Carries (Function.update id x y) same := by
  refine h.mono fun node ⟨hname, hvars⟩ => ⟨fun name heq => ?_, fun var heq name hrenamed => ?_⟩
  · by_cases hx : name = x
    · rwa [hx, Function.update_self]
    · rw [Function.update_of_ne hx]
      exact hother name hx fun hy => hname (hy ▸ heq)
  · by_cases hx : name = x
    · rw [hx, Function.update_self] at hrenamed
      exact absurd (hrenamed ▸ heq) hvars
    · rwa [Function.update_of_ne hx] at hrenamed

theorem forall_mem_zip_map {α β : Type} {as : List α} {g : α → β} {P : α × β → Prop}
    (h : ∀ a ∈ as, P (a, g a)) : ∀ p ∈ as.zip (as.map g), P p := by
  intro p hp
  rw [← List.map_id as, List.map_map, List.zip_map'] at hp
  obtain ⟨a, ha, rfl⟩ := List.mem_map.mp hp
  exact h a ha

/-! ### The search for free names -/

theorem noteName_cons_self (bound found : List String) (name : String) :
    noteName (name :: bound) found name = found := by
  simp [noteName]

theorem noteName_cons_of_ne (bound found : List String) {var name : String} (hne : name ≠ var) :
    noteName (var :: bound) found name = noteName bound found name := by
  simp [noteName, hne]

/-- The same names are found in a renamed tree, if each name is noted as its new name is. -/
theorem collectNames_rename {bound bound' : List String}
    (h : e.Carries f fun name name' => ∀ found,
      noteName bound found name = noteName bound' found name') (found : List String) :
    collectNames bound found e = collectNames bound' found (e.rename f) := by
  induction e using Expr.induct generalizing f bound bound' found with
  | step e ih =>
      rw [collectNames_eq, collectNames_eq, rename_name?, rename_operands]
      have hname : e.name?.elim found (noteName bound found) =
          (e.name?.map f).elim found (noteName bound' found) := by
        cases hnode : e.name? with
        | none => rfl
        | some name => exact h.here.1 name hnode found
      rw [hname]
      refine collectOperands_congr (List.length_map _).symm (forall_mem_zip_map fun o ho => ?_) _
      intro found
      rcases vars_operand ho with hvars | ⟨var, hvar, hvars⟩
      · rw [hvars]
        exact ih o ho (h.operand ho) found
      · have hunder : o.2.Carries (Function.update f var var) fun name name' => ∀ found,
            noteName (var :: bound) found name = noteName (var :: bound') found name' := by
          refine (h.operand ho).under (h.here.2 var hvar) (fun found => ?_) ?_
          · rw [noteName_cons_self, noteName_cons_self]
          · intro name name' hname hname' hsame found
            rw [noteName_cons_of_ne _ _ hname, noteName_cons_of_ne _ _ hname', hsame]
        rw [hvars]
        exact ih o ho hunder found

end Expr

namespace Eval

variable {env : Environment} {f : String → String} {e : Expr}

/-! ### Evaluation -/

/-- A renamed tree evaluates as the tree does, if each name has the value of its new name. -/
theorem eval_rename {scope scope' : Scope} {depth : Nat}
    (h : e.Carries f fun name name' =>
      resolve env.bindings scope name = resolve env.bindings scope' name') :
    eval env scope depth e = eval env scope' depth (e.rename f) := by
  induction e using Expr.induct generalizing f scope scope' depth with
  | step e ih =>
      cases hnode : e.name? with
      | some name =>
          cases e with
          | ident s name' => rw [Expr.rename, eval, eval, h.here.1 name' rfl]
          | _ => cases hnode
      | none =>
          refine eval_eq_of_operands (Expr.rename_topNode hnode).symm (by simp [hnode]) ?_
          rw [Expr.rename_operands]
          refine Expr.forall_mem_zip_map fun o ho => ⟨(Expr.rename_span _ _).symm, ?_⟩
          intro values hvalues
          rcases Expr.vars_operand ho with hvars | ⟨var, hvar, hvars⟩
          · rw [hvars]
            exact ih o ho (h.operand ho)
          · rw [hvars] at hvalues ⊢
            obtain ⟨value, rfl⟩ := List.length_eq_one_iff.mp hvalues
            have hunder : o.2.Carries (Function.update f var var) fun name name' =>
                resolve env.bindings ((var, value) :: scope) name =
                  resolve env.bindings ((var, value) :: scope') name' := by
              refine (h.operand ho).under (h.here.2 var hvar) ?_ ?_
              · rw [resolve_cons_self, resolve_cons_self]
              · intro name name' hname hname' hsame
                rw [resolve_cons_of_ne _ _ hname.symm, resolve_cons_of_ne _ _ hname'.symm, hsame]
            exact ih o ho hunder

/-- The filter or the body of a comprehension under its variable, and under a fresh one. -/
theorem alike_renameTo {x y : String} (h : e.Avoids y) (scope : Scope) (depth : Nat) :
    Alike env scope scope depth ([x], e) ([y], e.renameTo x y) := by
  refine ⟨(Expr.rename_span _ _).symm, fun values hvalues => ?_⟩
  obtain ⟨value, rfl⟩ := List.length_eq_one_iff.mp hvalues
  have hcarries : e.Carries (Function.update id x y) fun name name' =>
      resolve env.bindings ((x, value) :: scope) name =
        resolve env.bindings ((y, value) :: scope) name' := by
    refine h.carries ?_ fun name hx hy => ?_
    · rw [resolve_cons_self, resolve_cons_self]
    · rw [resolve_cons_of_ne _ _ (Ne.symm hx), resolve_cons_of_ne _ _ (Ne.symm hy)]
  exact eval_rename hcarries

theorem collectNames_renameTo {x y : String} (h : e.Avoids y) (bound found : List String) :
    Expr.collectNames (x :: bound) found e =
      Expr.collectNames (y :: bound) found (e.renameTo x y) := by
  refine Expr.collectNames_rename (h.carries (fun found => ?_) fun name hx hy found => ?_) found
  · rw [Expr.noteName_cons_self, Expr.noteName_cons_self]
  · rw [Expr.noteName_cons_of_ne _ _ hx, Expr.noteName_cons_of_ne _ _ hy]

/-- The variable of a comprehension may have any name that occurs in neither its filter nor its
body.  The evaluation stays the same in every scope, at every depth and from every count of steps,
whatever the bindings make of the two names; so do the names that the comprehension needs, and
both hold of every tree that the comprehension is a part of. -/
theorem iterate_rename (span : Span) (kind : IterationKind) (range : Expr) (x y : String)
    (filter : Option Expr) (body : Expr) (hfilter : ∀ e ∈ filter, e.Avoids y)
    (hbody : body.Avoids y) :
    let e : Expr := .iterate span kind range x filter body
    let e' : Expr := .iterate span kind range y (filter.map (Expr.renameTo x y)) (body.renameTo x y)
    (∀ env scope depth, eval env scope depth e' = eval env scope depth e) ∧
      (∀ bound found, Expr.collectNames bound found e' = Expr.collectNames bound found e) ∧
      ∀ whole whole', Expr.Replaced e e' whole whole' →
        (∀ bindings limits, evaluate whole' bindings limits = evaluate whole bindings limits) ∧
          whole'.freeNames = whole.freeNames := by
  intro e e'
  have heval (env : Environment) (scope : Scope) (depth : Nat) :
      eval env scope depth e = eval env scope depth e' := by
    refine eval_iterate_alike ⟨rfl, fun values hvalues => ?_⟩ ?_ (alike_renameTo hbody _ _)
    · obtain rfl := List.eq_nil_of_length_eq_zero hvalues
      rfl
    · cases filter with
      | none => exact .none
      | some filter => exact .some (alike_renameTo (hfilter filter rfl) _ _)
  have hnames (bound found : List String) :
      Expr.collectNames bound found e = Expr.collectNames bound found e' := by
    cases filter with
    | none =>
        exact collectNames_renameTo hbody bound (Expr.collectNames bound found range)
    | some filter =>
        simp only [e, e', Option.map_some, Expr.collectNames,
          collectNames_renameTo (hfilter filter rfl) bound, collectNames_renameTo hbody bound]
  refine ⟨fun _ _ _ => (heval _ _ _).symm, fun _ _ => (hnames _ _).symm, ?_⟩
  intro whole whole' hreplaced
  refine ⟨fun bindings limits => ?_, (hreplaced.collectNames_eq hnames [] []).symm⟩
  rw [evaluate, evaluate, hreplaced.eval_eq rfl (heval _) [] 0]

/-- `[1, 2].map(v, [v].exists(x, x == z))[x]`, where the name `x` is used outside of the
comprehension and for a variable inside. -/
def nestedExample (v : String) : Expr :=
  let at0 : Span := ⟨0, 0⟩
  .index at0
    (.iterate at0 .map (.list at0 [.literal at0 (.int 1), .literal at0 (.int 2)]) v none
      (.iterate at0 .exists (.list at0 [.ident at0 v]) "x" none
        (.relation at0 .eq (.ident at0 "x") (.ident at0 "z"))))
    (.ident at0 "x")

/-- The outer variable may be called `y` as well as `x`, though `x` and `y` are bound. -/
theorem iterate_rename_nested :
    let b := ((Bindings.empty.bindValue "x" (.int 1)).bindValue "y" (.int 0)).bindValue "z" (.int 2)
    evaluate (nestedExample "y") b .default = evaluate (nestedExample "x") b .default ∧
      (nestedExample "y").freeNames = (nestedExample "x").freeNames ∧
        evaluate (nestedExample "x") b .default = .ok (.bool true) := by
  intro b
  have hident (name : String) (h : name ≠ "y") : (Expr.ident ⟨0, 0⟩ name).Avoids "y" :=
    .node ⟨fun heq => h (Option.some.inj heq), nofun⟩ nofun
  have hbody : Expr.Avoids "y" (.iterate ⟨0, 0⟩ .exists (.list ⟨0, 0⟩ [.ident ⟨0, 0⟩ "x"]) "x" none
      (.relation ⟨0, 0⟩ .eq (.ident ⟨0, 0⟩ "x") (.ident ⟨0, 0⟩ "z"))) := by
    refine .node ⟨nofun, by simp [Expr.var?]⟩ (List.forall_mem_cons.mpr ⟨?_,
      List.forall_mem_singleton.mpr ?_⟩)
    · exact .node ⟨nofun, nofun⟩ (List.forall_mem_singleton.mpr (hident "x" (by decide)))
    · exact .node ⟨nofun, nofun⟩ (List.forall_mem_cons.mpr ⟨hident "x" (by decide),
        List.forall_mem_singleton.mpr (hident "z" (by decide))⟩)
  have hwhole := (iterate_rename ⟨0, 0⟩ .map
    (.list ⟨0, 0⟩ [.literal ⟨0, 0⟩ (.int 1), .literal ⟨0, 0⟩ (.int 2)]) "x" "y" none _
    nofun hbody).2.2 (nestedExample "x") (nestedExample "y") (.inside rfl (by decide) ?_)
  · exact ⟨hwhole.1 b .default, hwhole.2, rfl⟩
  · intro p hp
    simp only [nestedExample, Expr.operands, List.zip_cons_cons, List.zip_nil_right, List.mem_cons,
      List.not_mem_nil, or_false] at hp
    rcases hp with rfl | rfl
    · exact .here
    · exact .same _

end Eval

end EmbeddedExpr
