import EmbeddedExpr.Eval.Evaluate

/-!
# Which faults operations give up for

Three causes of runtime errors belong to the evaluator itself: a name without a
meaning and the two exhausted bounds.  All others are ordinary.  The operators, the
bound functions and every builtin fail for ordinary causes only
(`invoke_ordinary`), so that an error of one of the three kinds always comes from where
the evaluator raises it.
-/

namespace EmbeddedExpr.Eval

/-- Whether a cause is none of those that the evaluator itself raises for a name or an
exhausted bound. -/
def Fault.isOrdinary : Fault → Bool
  | unknownIdentifier _ | tooDeep _ _ | tooManyIterations _ => false
  | _ => true

/-- An operation that fails, if it does, for an ordinary cause. -/
def Ordinary {α : Type} (result : Except Fault α) : Prop :=
  ∀ fault, result = .error fault → fault.isOrdinary = true

namespace Ordinary

variable {α β : Type}

@[simp] theorem ok (a : α) : Ordinary (.ok a : Except Fault α) := nofun

@[simp] theorem error_iff {fault : Fault} :
    Ordinary (.error fault : Except Fault α) ↔ fault.isOrdinary = true :=
  ⟨fun h => h fault rfl, fun h _ heq => by cases heq; exact h⟩

/-- The lack of an overload is an ordinary cause. -/
@[simp high] theorem noOverloadFor (operation : String) (operands : List Value) :
    Ordinary (.error (.noOverloadFor operation operands) : Except Fault α) := error_iff.mpr rfl

theorem map {result : Except Fault α} (h : Ordinary result) (f : α → β) :
    Ordinary (result.map f) := by
  cases result with
  | ok a => exact ok (f a)
  | error fault => exact error_iff.mpr (h fault rfl)

@[simp] theorem orOverflow (operation : String) (value : Option Value) :
    Ordinary (Eval.orOverflow operation value) := by
  cases value with
  | none => exact error_iff.mpr rfl
  | some value => exact ok value

@[simp] theorem mismatch (function : String) (args : List Value) :
    Ordinary (Builtin.mismatch function args) := error_iff.mpr rfl

@[simp] theorem refuse (function message : String) :
    Ordinary (Builtin.refuse function message) := error_iff.mpr rfl

@[simp] theorem orRefuse (function message : String) (value : Option Value) :
    Ordinary (Builtin.orRefuse function message value) := by
  cases value with
  | none => exact refuse function message
  | some value => exact ok value

end Ordinary

/-! ### Operators -/

theorem applyUnary_ordinary (op : UnaryOp) (operand : Value) :
    Ordinary (applyUnary op operand) := by
  unfold applyUnary
  split <;> simp

theorem integerResult_ordinary (op : ArithOp) (a b : Int) : Ordinary (integerResult op a b) := by
  cases op <;> simp only [integerResult, Ordinary.ok] <;> split <;> simp [Fault.isOrdinary]

theorem applyArith_ordinary (op : ArithOp) (left right : Value) :
    Ordinary (applyArith op left right) := by
  unfold applyArith
  split
  case h_1 a b =>
    have h := integerResult_ordinary op a.toInt b.toInt
    unfold signedArith
    split
    · rename_i fault heq; exact Ordinary.error_iff.mpr (h fault heq)
    · split <;> simp [Fault.isOrdinary]
  case h_2 a b =>
    have h := integerResult_ordinary op a.toNat b.toNat
    unfold unsignedArith
    split
    · rename_i fault heq; exact Ordinary.error_iff.mpr (h fault heq)
    · simp
  all_goals simp

theorem applyOrder_ordinary (op : RelationOp) (left right : Value) :
    Ordinary (applyOrder op left right) := by
  unfold applyOrder
  split <;> simp

theorem applyRelation_ordinary (op : RelationOp) (left right : Value) :
    Ordinary (applyRelation op left right) := by
  cases op <;> simp only [applyRelation, Ordinary.ok, applyOrder_ordinary]
  split <;> simp

theorem applyIndex_ordinary (target index : Value) : Ordinary (applyIndex target index) := by
  unfold applyIndex
  split
  · split
    · simp [indexMismatch]
    · split <;> simp [Fault.isOrdinary]
  · split
    · split <;> simp [Fault.isOrdinary]
    · split <;> simp [Fault.isOrdinary]
    · simp [indexMismatch]
  · simp [indexMismatch]

theorem applyField_ordinary (target : Value) (name : String) :
    Ordinary (applyField target name) := by
  unfold applyField
  split
  · split <;> simp [Fault.isOrdinary]
  · simp

theorem applyHas_ordinary (target : Value) (name : String) : Ordinary (applyHas target name) := by
  unfold applyHas
  split <;> simp

end EmbeddedExpr.Eval

/-! ### Builtins -/

namespace EmbeddedExpr.Builtin

open Eval (Fault Ordinary)

theorem localTime_ordinary (name : String) (args : List Value) :
    Ordinary (localTime name args) := by
  unfold localTime
  split
  · simp
  · split <;> simp [Fault.isOrdinary]
  · simp

theorem calendarField_ordinary (name : String) (field : Time.LocalTime → Int)
    (args : List Value) : Ordinary (calendarField name field args) :=
  (localTime_ordinary name args).map _

theorem clockField_ordinary (name : String) (field : Time.LocalTime → Int)
    (measure : Time.Duration → Int) (args : List Value) :
    Ordinary (clockField name field measure args) := by
  unfold clockField
  split
  · simp
  · exact calendarField_ordinary name field args

theorem onDouble_ordinary (name : String) (f : Double → Double) (args : List Value) :
    Ordinary (onDouble name f args) := by
  unfold onDouble
  split
  · split <;> simp
  · simp

theorem extremum_ordinary (name : String) (keep : Ordering) (args : List Value) :
    Ordinary (extremum name keep args) := by
  unfold extremum
  simp only
  split
  · simp
  · split
    · split <;> simp
    · simp

theorem pow_ordinary (args : List Value) : Ordinary (pow args) := by
  unfold pow
  split
  · split <;> simp
  · simp

theorem toTimestamp_ordinary (args : List Value) : Ordinary (toTimestamp args) := by
  unfold toTimestamp
  split
  · simp
  · split <;> simp
  · simp
  · simp

/-- Every builtin fails for ordinary causes only. -/
theorem body_ordinary : ∀ b ∈ table, ∀ args, Ordinary (b.body args) := by
  simp only [table, List.forall_mem_cons]
  refine ⟨?int, ?uint, ?double, ?string, ?bytes, ?bool, ?dyn, ?type, ?timestamp, ?duration,
    ?size, ?contains, ?startsWith, ?endsWith, ?toLower, ?toUpper, ?trim, ?split, ?abs, ?ceil,
    ?floor, ?round, ?sqrt, ?pow, ?min, ?max, ?year, ?month, ?dayOfMonth, ?date, ?dayOfWeek,
    ?dayOfYear, ?hours, ?minutes, ?seconds, ?milliseconds, nofun⟩
  case timestamp => exact toTimestamp_ordinary
  case pow => exact pow_ordinary
  case ceil | floor | round | sqrt => exact onDouble_ordinary _ _
  case min | max => exact extremum_ordinary _ _
  case year | month | dayOfMonth | date | dayOfWeek | dayOfYear => exact calendarField_ordinary _ _
  case hours | minutes | seconds | milliseconds => exact clockField_ordinary _ _ _
  -- every other body is one match on its arguments
  case int | uint | double | string | bytes | bool | dyn | type | duration | size | contains |
      startsWith | endsWith | toLower | toUpper | trim | split | abs =>
    intro args
    simp only [toInt.eq_def, toUint.eq_def, toDouble.eq_def, toText.eq_def, toBytes.eq_def,
      toBool.eq_def, identity.eq_def, kindOf.eq_def, toDuration.eq_def, size.eq_def,
      containsText.eq_def, startsWith.eq_def, endsWith.eq_def, toLower.eq_def, toUpper.eq_def,
      trimText.eq_def, splitText.eq_def, abs.eq_def]
    split <;> simp

end EmbeddedExpr.Builtin

namespace EmbeddedExpr.Eval

/-! ### Names -/

/-- A call fails for ordinary causes only, whatever the bound function does. -/
theorem invoke_ordinary (bindings : Bindings) (name : String) (args : List Value) :
    Ordinary (invoke bindings name args) := by
  unfold invoke
  split
  · split
    · split <;> simp [Fault.isOrdinary]
    · simp [Fault.isOrdinary]
  · split
    · rename_i b hfind
      split
      · exact Builtin.body_ordinary b (List.mem_of_find?_eq_some hfind) args
      · simp [Fault.isOrdinary]
    · simp [Fault.isOrdinary]

theorem notMem_of_find?_eq_none {scope : Scope} {name : String}
    (h : (scope.find? fun entry => entry.1 == name) = none) : name ∉ scope.map Prod.fst := by
  intro hmem
  obtain ⟨entry, hentry, rfl⟩ := List.mem_map.mp hmem
  simpa using List.find?_eq_none.mp h entry hentry

/-- A name without a meaning is no variable of an iteration, no bound variable, no bound
function and no builtin. -/
theorem resolve_eq_error {bindings : Bindings} {scope : Scope} {name : String} {fault : Fault}
    (h : resolve bindings scope name = .error fault) :
    fault = .unknownIdentifier name ∧ name ∉ scope.map Prod.fst ∧
      bindings.value? name = none ∧ bindings.function? name = none ∧
      Builtin.find? name = none := by
  unfold resolve at h
  cases hscope : scope.find? fun entry => entry.1 == name with
  | some entry => simp [hscope] at h
  | none =>
      cases hvalue : bindings.value? name with
      | some value => simp [hscope, hvalue] at h
      | none =>
          cases hfunction : bindings.function? name with
          | some f => simp [hscope, hvalue, hfunction] at h
          | none =>
              cases hfind : Builtin.find? name with
              | some b => simp [hscope, hvalue, hfunction, hfind] at h
              | none =>
                  simp only [hscope, hvalue, hfunction, hfind, Except.error.injEq] at h
                  exact ⟨h.symm, notMem_of_find?_eq_none hscope, rfl, rfl, rfl⟩

end EmbeddedExpr.Eval
