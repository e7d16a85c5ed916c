import EmbeddedExpr.Proofs.Eval.Faults
import EmbeddedExpr.Proofs.Eval.Settled
import EmbeddedExpr.Proofs.Value.Entries

/-!
# Maps stay in the order of their keys

A map has no order of its own: it is looked up and iterated over in the order of its keys, however
it was written.  Only map literals and the functions of an application make maps, and a literal puts
each entry in its place.  So where the values that are bound have their maps in this order, and the
functions that are bound give such values for such values, all values of an evaluation have
(`Point.wellFormed_of_outcome`).

What the operators and the builtins give is a scalar, a list of texts, or put together from the
members of their operands (`Kept`); what runs give is followed through the tree (`Run.Gives`).
-/

namespace EmbeddedExpr

/-! ### Well-formed values -/

namespace Value

@[simp] theorem wellFormed_null : null.WellFormed := .intro trivial (List.forall_mem_nil _)

@[simp] theorem wellFormed_bool (b : Bool) : (bool b).WellFormed :=
  .intro trivial (List.forall_mem_nil _)

@[simp] theorem wellFormed_int (i : Int64) : (int i).WellFormed :=
  .intro trivial (List.forall_mem_nil _)

@[simp] theorem wellFormed_uint (u : UInt64) : (uint u).WellFormed :=
  .intro trivial (List.forall_mem_nil _)

@[simp] theorem wellFormed_double (x : Double) : (double x).WellFormed :=
  .intro trivial (List.forall_mem_nil _)

@[simp] theorem wellFormed_text (s : String) : (text s).WellFormed :=
  .intro trivial (List.forall_mem_nil _)

@[simp] theorem wellFormed_bytes (bs : List UInt8) : (bytes bs).WellFormed :=
  .intro trivial (List.forall_mem_nil _)

@[simp] theorem wellFormed_timestamp (t : Time.Timestamp) : (timestamp t).WellFormed :=
  .intro trivial (List.forall_mem_nil _)

@[simp] theorem wellFormed_duration (d : Time.Duration) : (duration d).WellFormed :=
  .intro trivial (List.forall_mem_nil _)

@[simp] theorem wellFormed_function (name : String) (arity : Option Nat) :
    (function name arity).WellFormed :=
  .intro trivial (List.forall_mem_nil _)

theorem wellFormed_list_iff {items : List Value} :
    (list items).WellFormed ↔ ∀ item ∈ items, item.WellFormed :=
  throughout_iff.trans (and_iff_right trivial)

theorem wellFormed_map_iff {entries : List (MapKey × Value)} :
    (map entries).WellFormed ↔
      Entries.Ascending entries ∧ ∀ entry ∈ entries, entry.2.WellFormed :=
  throughout_iff.trans (and_congr_right fun _ => List.forall_mem_map)

theorem wellFormed_toValue (k : MapKey) : k.toValue.WellFormed := by
  cases k <;> simp [MapKey.toValue]

end Value

namespace Eval

open Value (WellFormed)

/-! ### Operators -/

/-- The result of an operation, if it has one, is well-formed. -/
inductive Kept : Except Fault Value → Prop
  | ok {v : Value} : v.WellFormed → Kept (.ok v)
  | error (fault : Fault) : Kept (.error fault)

namespace Kept

@[simp] theorem ok_iff {v : Value} : Kept (.ok v) ↔ v.WellFormed :=
  ⟨fun h => by cases h; assumption, .ok⟩

attribute [simp] error

theorem of_map {α : Type} {result : Except Fault α} {f : α → Value}
    (h : ∀ a, (f a).WellFormed) : Kept (result.map f) := by
  cases result with
  | ok a => exact ok (h a)
  | error fault => exact error fault

@[simp] theorem orOverflow_iff {operation : String} {value : Option Value} :
    Kept (Eval.orOverflow operation value) ↔ ∀ v ∈ value, v.WellFormed := by
  cases value <;> simp [Eval.orOverflow]

@[simp] theorem mismatch (function : String) (args : List Value) :
    Kept (Builtin.mismatch function args) := error _

@[simp] theorem refuse (function message : String) : Kept (Builtin.refuse function message) :=
  error _

@[simp] theorem orRefuse_iff {function message : String} {value : Option Value} :
    Kept (Builtin.orRefuse function message value) ↔ ∀ v ∈ value, v.WellFormed := by
  cases value <;> simp [Builtin.orRefuse]

end Kept

theorem applyUnary_kept (op : UnaryOp) (operand : Value) : Kept (applyUnary op operand) := by
  unfold applyUnary
  split <;> simp

theorem applyArith_kept (op : ArithOp) {left right : Value} (hleft : left.WellFormed)
    (hright : right.WellFormed) : Kept (applyArith op left right) := by
  unfold applyArith
  split
  case h_1 =>
    unfold signedArith
    split
    · exact .error _
    · split <;> simp
  case h_2 =>
    unfold unsignedArith
    split <;> simp
  case h_9 a b =>
    refine .ok (Value.wellFormed_list_iff.mpr fun item hitem => ?_)
    rcases List.mem_append.mp hitem with ha | hb
    · exact Value.wellFormed_list_iff.mp hleft item ha
    · exact Value.wellFormed_list_iff.mp hright item hb
  all_goals simp

theorem applyField_kept {target : Value} (htarget : target.WellFormed) (name : String) :
    Kept (applyField target name) := by
  unfold applyField
  split
  · split
    · rename_i hget
      exact .ok ((Value.wellFormed_map_iff.mp htarget).2 _ (Entries.mem_of_get?_eq_some hget))
    · exact .error _
  · exact .error _

theorem applyHas_kept (target : Value) (name : String) : Kept (applyHas target name) := by
  unfold applyHas
  split <;> simp

theorem applyIndex_kept {target : Value} (htarget : target.WellFormed) (index : Value) :
    Kept (applyIndex target index) := by
  unfold applyIndex
  split
  · split
    · exact .error _
    · split
      · rename_i hitem
        obtain ⟨i, -, hi⟩ := Option.bind_eq_some_iff.mp hitem
        exact .ok (Value.wellFormed_list_iff.mp htarget _ (List.mem_of_getElem? hi))
      · exact .error _
  · rename_i entries
    have hentry {v : Value} (h : Value.lookup entries index = some v) : v.WellFormed := by
      obtain ⟨key, -, hget⟩ := List.exists_of_findSome?_eq_some h
      exact (Value.wellFormed_map_iff.mp htarget).2 _ (Entries.mem_of_get?_eq_some hget)
    split
    · split
      · exact .ok (hentry ‹_›)
      · exact .error _
    · split
      · exact .ok (hentry ‹_›)
      · exact .error _
    · exact .error _
  · exact .error _

end Eval

/-! ### Builtins -/

namespace Builtin

open Eval (Kept)
open Value (WellFormed)

theorem calendarField_kept (name : String) (field : Time.LocalTime → Int) (args : List Value) :
    Kept (calendarField name field args) :=
  .of_map fun _ => Value.wellFormed_int _

theorem clockField_kept (name : String) (field : Time.LocalTime → Int)
    (measure : Time.Duration → Int) (args : List Value) :
    Kept (clockField name field measure args) := by
  unfold clockField
  split
  · simp
  · exact calendarField_kept name field args

theorem onDouble_kept (name : String) (f : Double → Double) (args : List Value) :
    Kept (onDouble name f args) := by
  unfold onDouble
  split
  · split <;> simp
  · simp

theorem pow_kept (args : List Value) : Kept (pow args) := by
  unfold pow
  split
  · split <;> simp
  · simp

theorem toTimestamp_kept (args : List Value) : Kept (toTimestamp args) := by
  unfold toTimestamp
  split
  · simp
  · split <;> simp
  · simp
  · simp

theorem splitText_kept (args : List Value) : Kept (splitText args) := by
  unfold splitText
  split
  · refine .ok (Value.wellFormed_list_iff.mpr (List.forall_mem_map.mpr fun _ _ => ?_))
    simp
  · simp

theorem identity_kept {args : List Value} (h : ∀ arg ∈ args, arg.WellFormed) :
    Kept (identity args) := by
  unfold identity
  split
  · exact .ok (h _ List.mem_cons_self)
  · simp

/-- The better of two values is one of them. -/
theorem better?_eq_some {keep : Ordering} {best candidate v : Value}
    (h : better? keep best candidate = some v) : v = best ∨ v = candidate := by
  unfold better? at h
  split at h
  · cases h
  · cases h
    exact .inl rfl
  · cases h
    split
    · exact .inr rfl
    · exact .inl rfl

theorem mem_of_foldlM_better? {keep : Ordering} {rest : List Value} {first v : Value}
    (h : rest.foldlM (better? keep) first = some v) : v ∈ first :: rest := by
  induction rest generalizing first with
  | nil =>
      cases h
      exact List.mem_cons_self
  | cons candidate rest ih =>
      obtain ⟨best, hbest, h⟩ := Option.bind_eq_some_iff.mp h
      rcases List.mem_cons.mp (ih h) with rfl | hrest
      · rcases better?_eq_some hbest with rfl | rfl
        · exact List.mem_cons_self
        · exact List.mem_cons_of_mem _ List.mem_cons_self
      · exact List.mem_cons_of_mem _ (List.mem_cons_of_mem _ hrest)

theorem extremum_kept (name : String) (keep : Ordering) {args : List Value}
    (h : ∀ arg ∈ args, arg.WellFormed) : Kept (extremum name keep args) := by
  have hlisted {items : List Value} (hargs : args = [.list items]) :
      ∀ item ∈ items, item.WellFormed :=
    Value.wellFormed_list_iff.mp (h _ (hargs ▸ List.mem_cons_self))
  unfold extremum
  simp only
  split
  · simp
  · rename_i first rest heq
    have hcandidates : ∀ v ∈ first :: rest, v.WellFormed := by
      rw [← heq]
      split
      · exact hlisted rfl
      · exact h
    split
    · split
      · rename_i hbest
        exact .ok (hcandidates _ (mem_of_foldlM_better? hbest))
      · simp
    · simp

/-- Every builtin gives well-formed values for well-formed values. -/
theorem body_kept : ∀ b ∈ table, ∀ args, (∀ arg ∈ args, arg.WellFormed) → Kept (b.body args) := by
  simp only [table, List.forall_mem_cons]
  refine ⟨?int, ?uint, ?double, ?string, ?bytes, ?bool, ?dyn, ?type, ?timestamp, ?duration,
    ?size, ?contains, ?startsWith, ?endsWith, ?toLower, ?toUpper, ?trim, ?split, ?abs, ?ceil,
    ?floor, ?round, ?sqrt, ?pow, ?min, ?max, ?year, ?month, ?dayOfMonth, ?date, ?dayOfWeek,
    ?dayOfYear, ?hours, ?minutes, ?seconds, ?milliseconds, List.forall_mem_nil _⟩
  case dyn => exact fun _ => identity_kept
  case min | max => exact fun _ => extremum_kept _ _
  case split => exact fun args _ => splitText_kept args
  case timestamp => exact fun args _ => toTimestamp_kept args
  case pow => exact fun args _ => pow_kept args
  case ceil | floor | round | sqrt => exact fun args _ => onDouble_kept _ _ args
  case year | month | dayOfMonth | date | dayOfWeek | dayOfYear =>
    exact fun args _ => calendarField_kept _ _ args
  case hours | minutes | seconds | milliseconds => exact fun args _ => clockField_kept _ _ _ args
  -- every other body is one match on its arguments and gives a scalar
  case int | uint | double | string | bytes | bool | type | duration | size | contains |
      startsWith | endsWith | toLower | toUpper | trim | abs =>
    intro args _
    simp only [toInt.eq_def, toUint.eq_def, toDouble.eq_def, toText.eq_def, toBytes.eq_def,
      toBool.eq_def, kindOf.eq_def, toDuration.eq_def, size.eq_def, containsText.eq_def,
      startsWith.eq_def, endsWith.eq_def, toLower.eq_def, toUpper.eq_def, trimText.eq_def,
      abs.eq_def]
    split <;> simp [or_imp, forall_and]

end Builtin

/-! ### Names -/

/-- The values that are bound are well-formed, and the functions that are bound give well-formed
values for well-formed values. -/
structure Bindings.WellFormed (b : Bindings) : Prop where
  value : ∀ name v, b.value? name = some v → v.WellFormed
  call : ∀ name f, b.function? name = some f → ∀ args v, (∀ arg ∈ args, arg.WellFormed) →
    f.call args = .ok v → v.WellFormed

theorem Bindings.wellFormed_empty : Bindings.empty.WellFormed := ⟨nofun, nofun⟩

namespace Eval

open Value (WellFormed)

/-- The values of the variables are well-formed. -/
def Scope.WellFormed (scope : Scope) : Prop := ∀ entry ∈ scope, entry.2.WellFormed

variable {bindings : Bindings} {scope : Scope}

theorem Scope.WellFormed.cons (h : Scope.WellFormed scope) (var : String) {item : Value}
    (hitem : item.WellFormed) : Scope.WellFormed ((var, item) :: scope) :=
  List.forall_mem_cons.mpr ⟨hitem, h⟩

theorem resolve_kept (hbindings : bindings.WellFormed) (hscope : Scope.WellFormed scope)
    (name : String) : Kept (resolve bindings scope name) := by
  unfold resolve
  split
  · rename_i hentry
    exact .ok (hscope _ (List.mem_of_find?_eq_some hentry))
  · split
    · rename_i hvalue
      exact .ok (hbindings.value name _ hvalue)
    · split
      · simp
      · split <;> simp

theorem invoke_kept (hbindings : bindings.WellFormed) (name : String) {args : List Value}
    (hargs : ∀ arg ∈ args, arg.WellFormed) : Kept (invoke bindings name args) := by
  unfold invoke
  split
  · rename_i f hfunction
    split
    · split
      · rename_i hcall
        exact .ok (hbindings.call name f hfunction args _ hargs hcall)
      · simp
    · simp
  · split
    · rename_i b hfind
      split
      · exact Builtin.body_kept b (List.mem_of_find?_eq_some hfind) args hargs
      · simp
    · simp

/-! ### Runs -/

namespace Run

variable {α β : Type}

/-- Every result of the run is good. -/
def Gives (good : α → Prop) (r : Run α) : Prop := ∀ steps a, (r steps).1 = .ok a → good a

namespace Gives

variable {good : α → Prop} {r : Run α} {span : Span}

theorem pure {a : α} (h : good a) : Gives good (Pure.pure a) := by
  rintro steps _ ⟨⟩
  exact h

theorem throw (e : Failure) : Gives good (Run.throw e) := nofun

theorem anything (r : Run α) : Gives (fun _ => True) r := fun _ _ _ => trivial

theorem bind {better : β → Prop} {next : α → Run β} (h : r.Gives good)
    (hnext : ∀ a, good a → (next a).Gives better) : (r >>= next).Gives better := by
  intro steps b hb
  rcases hr : r steps with ⟨result, after⟩
  cases result with
  | ok a =>
      rw [bind_of_ok hr] at hb
      exact hnext a (h steps a (by rw [hr])) after b hb
  | error e =>
      rw [bind_of_error hr] at hb
      cases hb

theorem lift {result : Except Fault Value} (h : Kept result) :
    (Run.lift span result).Gives Value.WellFormed := by
  cases h with
  | ok hv => exact pure hv
  | error fault => exact throw _

theorem nested {limits : Limits} {depth : Nat} (h : r.Gives good) :
    (Run.nested limits depth span r).Gives good := by
  intro steps a ha
  rw [Run.nested] at ha
  split at ha
  · cases ha
  · exact h steps a ha

end Gives

end Run

open Run (Gives)

theorem lazily_gives (op : LogicOp) (left right : Run Bool) :
    (lazily op left right).Gives WellFormed := by
  unfold lazily
  refine (Gives.anything _).bind fun outcome _ => ?_
  cases outcome with
  | ok b =>
      simp only
      split
      · exact .pure (by simp)
      · exact (Gives.anything right).bind fun b _ => .pure (by simp)
  | error e =>
      simp only
      split
      · exact .throw e
      · refine (Gives.anything _).bind fun outcome _ => ?_
        cases outcome with
        | ok b =>
            simp only
            split
            · exact .pure (by simp)
            · exact .throw e
        | error e' =>
            simp only
            split
            · exact .throw e'
            · exact .throw e

theorem rangeItems_gives (kind : IterationKind) (span : Span) {value : Value}
    (h : value.WellFormed) :
    (rangeItems kind span value).Gives fun items => ∀ item ∈ items, item.WellFormed := by
  cases value with
  | list items => exact .pure (Value.wellFormed_list_iff.mp h)
  | map entries =>
      exact .pure (List.forall_mem_map.mpr fun entry _ => Value.wellFormed_toValue entry.1)
  | _ => exact .throw _

section Iterations

variable {step : Run Unit} {test : Value → Run Bool} {items : List Value}

/-- What passes is among what is tested. -/
theorem passing_gives (hitems : ∀ item ∈ items, item.WellFormed) :
    (passing step test items).Gives fun kept => ∀ item ∈ kept, item.WellFormed := by
  induction items with
  | nil => exact .pure hitems
  | cons item rest ih =>
      obtain ⟨hitem, hrest⟩ := List.forall_mem_cons.mp hitems
      refine (Gives.anything step).bind fun _ _ => (Gives.anything (test item)).bind fun b _ => ?_
      refine (ih hrest).bind fun more hmore => .pure ?_
      split
      · exact List.forall_mem_cons.mpr ⟨hitem, hmore⟩
      · exact hmore

theorem images_gives {filter : Option (Value → Run Bool)} {image : Value → Run Value}
    (himage : ∀ item, item.WellFormed → (image item).Gives WellFormed)
    (hitems : ∀ item ∈ items, item.WellFormed) :
    (images step filter image items).Gives fun values => ∀ v ∈ values, v.WellFormed := by
  induction items with
  | nil => exact .pure hitems
  | cons item rest ih =>
      obtain ⟨hitem, hrest⟩ := List.forall_mem_cons.mp hitems
      have hselected (selected : Bool) :
          (if selected then do
            let value ← image item
            let more ← images step filter image rest
            Pure.pure (value :: more)
          else images step filter image rest).Gives fun values => ∀ v ∈ values, v.WellFormed := by
        split
        · refine (himage item hitem).bind fun value hvalue => (ih hrest).bind fun more hmore => ?_
          exact .pure (List.forall_mem_cons.mpr ⟨hvalue, hmore⟩)
        · exact ih hrest
      refine (Gives.anything step).bind fun _ _ => ?_
      cases filter with
      | none => exact (Gives.anything (Pure.pure true)).bind fun b _ => hselected b
      | some test => exact (Gives.anything (test item)).bind fun b _ => hselected b

theorem iterateOver_gives (kind : IterationKind) {filter : Option (Value → Run Bool)}
    {body : Value → Run Value}
    (hbody : ∀ item, item.WellFormed → (body item).Gives WellFormed)
    (hitems : ∀ item ∈ items, item.WellFormed) :
    (iterateOver kind step filter body test items).Gives WellFormed := by
  cases kind with
  | all | «exists» | existsOne => exact (Gives.anything _).bind fun b _ => .pure (by simp)
  | map =>
      exact (images_gives hbody hitems).bind fun values h =>
        .pure (Value.wellFormed_list_iff.mpr h)
  | filter =>
      exact (passing_gives hitems).bind fun kept h => .pure (Value.wellFormed_list_iff.mpr h)

end Iterations

/-! ### Expressions -/

variable {env : Environment} {depth : Nat}

theorem evalItems_gives {items : List Expr}
    (hitems : ∀ item ∈ items, (eval env scope depth item).Gives WellFormed) :
    (evalItems env scope depth items).Gives fun values => ∀ v ∈ values, v.WellFormed := by
  induction items with
  | nil => exact .pure (List.forall_mem_nil _)
  | cons item rest ih =>
      obtain ⟨hitem, hrest⟩ := List.forall_mem_cons.mp hitems
      refine hitem.bind fun value hvalue => (ih hrest).bind fun values hvalues => ?_
      exact .pure (List.forall_mem_cons.mpr ⟨hvalue, hvalues⟩)

/-- Every entry of a literal is put in its place among those before it. -/
theorem evalEntries_gives {entries : List (Expr × Expr)}
    (hentries : ∀ entry ∈ entries, (eval env scope depth entry.1).Gives WellFormed ∧
      (eval env scope depth entry.2).Gives WellFormed)
    {before : List (MapKey × Value)} (hbefore : (Value.map before).WellFormed) :
    (evalEntries env scope depth before entries).Gives fun found =>
      (Value.map found).WellFormed := by
  induction entries generalizing before with
  | nil => exact .pure hbefore
  | cons entry rest ih =>
      obtain ⟨⟨hkey, hvalue⟩, hrest⟩ := List.forall_mem_cons.mp hentries
      refine hkey.bind fun keyValue _ => ?_
      split
      · exact .throw _
      · refine hvalue.bind fun value hv => ?_
        split
        · exact .throw _
        · obtain ⟨hsorted, hvalues⟩ := Value.wellFormed_map_iff.mp hbefore
          refine ih hrest (Value.wellFormed_map_iff.mpr ⟨Entries.insert_ascending hsorted, ?_⟩)
          intro found hfound
          rcases Entries.mem_insert hfound with rfl | hold
          · exact hv
          · exact hvalues found hold

/-- Every value of an expression is well-formed. -/
theorem eval_gives (hbindings : env.bindings.WellFormed) (e : Expr)
    (hscope : Scope.WellFormed scope) : (eval env scope depth e).Gives WellFormed := by
  -- by induction on the tree; the body of an iteration is under one more variable
  induction e using Expr.induct generalizing scope depth with
  | step e ih =>
      have hsub {depth : Nat} {sub : Expr} (h : ([], sub) ∈ e.operands) :
          (eval env scope depth sub).Gives WellFormed := ih _ h hscope
      have hunder {depth : Nat} {var : String} {sub : Expr} (h : ([var], sub) ∈ e.operands)
          (item : Value) (hitem : item.WellFormed) :
          (eval env ((var, item) :: scope) depth sub).Gives WellFormed :=
        ih _ h (hscope.cons var hitem)
      cases e with
      | literal span value => exact .nested (.pure (by cases value <;> simp [literalValue]))
      | ident span name => exact .nested (.lift (resolve_kept hbindings hscope name))
      | list span items =>
          refine .nested ((evalItems_gives fun item h => ?_).bind fun values hvalues => ?_)
          · exact hsub (List.mem_map.mpr ⟨item, h, rfl⟩)
          · exact .pure (Value.wellFormed_list_iff.mpr hvalues)
      | map span entries =>
          have hempty : (Value.map []).WellFormed :=
            Value.wellFormed_map_iff.mpr ⟨.nil, List.forall_mem_nil _⟩
          refine .nested ((evalEntries_gives (fun entry h => ?_) hempty).bind fun _ h => .pure h)
          have hoperands := Expr.forall_mem_flatMap_pair (P := fun o : List String × Expr =>
            o ∈ Expr.operands (.map span entries)) |>.mp (fun _ ho => ho) entry h
          exact ⟨hsub hoperands.1, hsub hoperands.2⟩
      | unary span op operand =>
          refine .nested ((Gives.anything _).bind fun value _ => ?_)
          exact .lift (applyUnary_kept op value)
      | arith span op left right =>
          refine .nested ((hsub (by simp [Expr.operands])).bind fun l hl => ?_)
          refine (hsub (by simp [Expr.operands])).bind fun r hr => ?_
          exact .lift (applyArith_kept op hl hr)
      | relation span op left right =>
          refine .nested ((Gives.anything _).bind fun l _ => (Gives.anything _).bind fun r _ => ?_)
          exact (Gives.anything _).bind fun b _ => .pure (by simp)
      | logic span op left right => exact .nested (lazily_gives op _ _)
      | ternary span c t f =>
          refine .nested ((Gives.anything _).bind fun v _ => (Gives.anything _).bind fun b _ => ?_)
          split
          · exact hsub (by simp [Expr.operands])
          · exact hsub (by simp [Expr.operands])
      | field span target name =>
          refine .nested ((hsub (by simp [Expr.operands])).bind fun value hvalue => ?_)
          exact .lift (applyField_kept hvalue name)
      | index span target position =>
          refine .nested ((hsub (by simp [Expr.operands])).bind fun value hvalue => ?_)
          exact (Gives.anything _).bind fun index _ => .lift (applyIndex_kept hvalue index)
      | has span target name =>
          exact .nested ((Gives.anything _).bind fun value _ => .lift (applyHas_kept value name))
      | call span function args =>
          refine .nested ((evalItems_gives fun arg h => ?_).bind fun values hvalues => ?_)
          · exact hsub (List.mem_map.mpr ⟨arg, h, rfl⟩)
          · exact .lift (invoke_kept hbindings function hvalues)
      | method span target function args =>
          refine .nested ((hsub (by simp [Expr.operands])).bind fun value hvalue => ?_)
          refine (evalItems_gives fun arg h => ?_).bind fun values hvalues => ?_
          · exact hsub (List.mem_cons_of_mem _ (List.mem_map.mpr ⟨arg, h, rfl⟩))
          · exact .lift (invoke_kept hbindings function
              (List.forall_mem_cons.mpr ⟨hvalue, hvalues⟩))
      | iterate span kind range var filter body =>
          have hrange : ([], range) ∈ Expr.operands (.iterate span kind range var filter body) := by
            cases filter <;> simp [Expr.operands]
          have hbody :
              ([var], body) ∈ Expr.operands (.iterate span kind range var filter body) := by
            cases filter <;> simp [Expr.operands]
          cases filter <;>
          · refine .nested ((hsub hrange).bind fun value hvalue => ?_)
            refine (rangeItems_gives kind _ hvalue).bind fun items hitems => ?_
            exact iterateOver_gives kind (hunder hbody) hitems

/-- What an evaluation begins with at the point is well-formed. -/
structure Point.WellFormed (p : Point) : Prop where
  bindings : p.env.bindings.WellFormed
  scope : Scope.WellFormed p.scope

/-- So is every value of an expression there. -/
theorem Point.wellFormed_of_outcome {p : Point} (hp : p.WellFormed) {e : Expr} {v : Value}
    (h : p.outcome e = .ok v) : v.WellFormed :=
  eval_gives hp.bindings e hp.scope p.steps v h

end Eval

end EmbeddedExpr
