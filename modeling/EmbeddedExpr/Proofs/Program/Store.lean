import EmbeddedExpr.Program.Context
import EmbeddedExpr.Proofs.Program.Compile
import EmbeddedExpr.Proofs.Syntax.Serialization
import EmbeddedExpr.Proofs.Value.Entries

/-!
# Stores of programs over whole runs

An application sends a context one request after the other.  A request settles a name if it
stores a program under it or removes the name; a source that cannot be compiled and a document
that cannot be loaded settle nothing.  What one request does to a name (`program?_after_iff`)
gives by induction what a run does to it: the program under a name is that of the last request
that settles the name (`program?_afterAll_iff`).

The bounds of a context never change, so that every program that a run compiles or loads is
within one and the same bound.
-/

namespace EmbeddedExpr

namespace Program

variable {bound : Nat} {text : String} {p : Program}

/-- The tree of a loaded program is at most `bound` high. -/
theorem height_le_of_load (h : load bound text = .ok p) : p.expr.height ≤ bound := by
  unfold load read at h
  cases hparts : (Json.Tree.ofText? text.toList).bind parts? with
  | none => rw [hparts] at h; cases h
  | some parts =>
      rw [hparts] at h
      cases hnodes : Expr.ofNodes bound parts.2 with
      | error fault => simp only [hnodes] at h; cases h
      | ok e =>
          simp only [hnodes] at h
          cases h
          exact (Expr.nodes_of_ofNodes hnodes).2

end Program

namespace Context

/-! ### Requests -/

/-- What an application asks of a context. -/
inductive Request
  | compile (name source : String)
  | add (name : String) (p : Program)
  | load (name text : String)
  | remove (name : String)
  | executeNamed (name : String) (bindings : Bindings)
  | execute (p : Program) (bindings : Bindings)
  | eval (source : String) (bindings : Bindings)
  | analyze (source : String)
  | compileOnly (source : String)

/-- The context after a request. -/
def after (c : Context) : Request → Context
  | .compile name source =>
    match c.compile name source with
    | .ok c' => c'
    | .error _ => c
  | .add name p => c.add name p
  | .load name text =>
    match c.load name text with
    | .ok c' => c'
    | .error _ => c
  | .remove name => c.remove name
  | .executeNamed _ _ | .execute _ _ | .eval _ _ | .analyze _ | .compileOnly _ => c

/-- The context after requests from first to last. -/
def afterAll (c : Context) (requests : List Request) : Context := requests.foldl after c

/-- The request puts the program under the name.  Compiling and loading do so if they succeed
under the bound. -/
inductive Request.Stores (bound : Nat) (name : String) (p : Program) : Request → Prop
  | compile {source : String} : Program.compile bound source = .ok p →
      Stores bound name p (.compile name source)
  | add : Stores bound name p (.add name p)
  | load {text : String} : Program.load bound text = .ok p → Stores bound name p (.load name text)

/-- The request decides what is under the name. -/
def Request.Settles (bound : Nat) (name : String) (r : Request) : Prop :=
  r = .remove name ∨ ∃ p, r.Stores bound name p

/-- The last of the requests that settle the name puts the program under it. -/
def LastStored (bound : Nat) (requests : List Request) (name : String) (p : Program) : Prop :=
  ∃ before r later, requests = before ++ r :: later ∧ r.Stores bound name p ∧
    ∀ other ∈ later, ¬other.Settles bound name

variable {c : Context} {name : String} {p : Program} {r : Request}

theorem Request.Stores.unique {bound : Nat} {q : Program} (hp : r.Stores bound name p)
    (hq : r.Stores bound name q) : p = q := by
  cases hp with
  | compile hp => cases hq with | compile hq => exact Except.ok.inj (hp.symm.trans hq)
  | add => cases hq; rfl
  | load hp => cases hq with | load hq => exact Except.ok.inj (hp.symm.trans hq)

/-- A program that is not brought from outside is within the bound. -/
theorem Request.Stores.height_le {bound : Nat} (h : r.Stores bound name p) (hr : r ≠ .add name p) :
    p.expr.height ≤ bound := by
  cases h with
  | compile h => exact (Program.expr_fits h).1
  | add => exact absurd rfl hr
  | load h => exact Program.height_le_of_load h

/-! ### One request -/

/-- All that a request can do: put a program under a name, remove a name, or nothing. -/
theorem after_cases (c : Context) (r : Request) :
    (∃ name p, r.Stores c.bound name p ∧ c.after r = c.add name p) ∨
      (∃ name, r = .remove name ∧ c.after r = c.remove name) ∨
        (∀ name, ¬r.Settles c.bound name) ∧ c.after r = c := by
  cases r with
  | compile name source =>
      cases hcompile : Program.compile c.bound source with
      | ok p =>
          refine .inl ⟨name, p, .compile hcompile, ?_⟩
          simp only [after, compile, compileOnly, hcompile, Except.map]
      | error e =>
          refine .inr (.inr ⟨?_, by simp only [after, compile, compileOnly, hcompile, Except.map]⟩)
          rintro other (hremove | ⟨p, hstores⟩)
          · cases hremove
          · cases hstores with | compile h => rw [hcompile] at h; cases h
  | load name text =>
      cases hload : Program.load c.bound text with
      | ok p =>
          refine .inl ⟨name, p, .load hload, ?_⟩
          simp only [after, load, hload, Except.map]
      | error e =>
          refine .inr (.inr ⟨?_, by simp only [after, load, hload, Except.map]⟩)
          rintro other (hremove | ⟨p, hstores⟩)
          · cases hremove
          · cases hstores with | load h => rw [hload] at h; cases h
  | add name p => exact .inl ⟨name, p, .add, rfl⟩
  | remove name => exact .inr (.inl ⟨name, rfl, rfl⟩)
  | _ =>
      refine .inr (.inr ⟨?_, rfl⟩)
      rintro other (hremove | ⟨p, hstores⟩)
      · cases hremove
      · cases hstores

theorem program?_add (c : Context) (name : String) (p : Program) (other : String) :
    (c.add name p).program? other = if other = name then some p else c.program? other :=
  Entries.get?_insert _ _ _ _

theorem program?_remove (c : Context) (name other : String) :
    (c.remove name).program? other = if other = name then none else c.program? other :=
  Entries.get?_erase _ _ _

/-- The name that a request stores under is the only one that it settles. -/
theorem Request.Stores.settles_iff {bound : Nat} {other : String} (h : r.Stores bound name p) :
    r.Settles bound other ↔ other = name := by
  refine ⟨?_, fun heq => .inr ⟨p, heq ▸ h⟩⟩
  rintro (rfl | ⟨q, hq⟩)
  · cases h
  · cases h <;> cases hq <;> rfl

/-- After a request there is the program under a name that the request puts there, or the one
that was there before. -/
theorem program?_after_iff :
    (c.after r).program? name = some p ↔
      r.Stores c.bound name p ∨ c.program? name = some p ∧ ¬r.Settles c.bound name := by
  rcases after_cases c r with ⟨other, q, hstores, hafter⟩ | ⟨other, rfl, hafter⟩ | ⟨hnone, hafter⟩
  · rw [hafter, program?_add, hstores.settles_iff]
    split
    · rename_i heq
      subst heq
      constructor
      · intro h
        cases h
        exact .inl hstores
      · rintro (h | ⟨-, h⟩)
        · rw [hstores.unique h]
        · exact absurd rfl h
    · rename_i hne
      have hnot : ¬r.Stores c.bound name p := fun h => hne (hstores.settles_iff.mp (.inr ⟨p, h⟩))
      simp only [hnot, hne, not_false_eq_true, and_true, false_or]
  · rw [hafter, program?_remove]
    have hnot : ¬(Request.remove other).Stores c.bound name p := nofun
    split
    · rename_i heq
      subst heq
      simp [hnot, Request.Settles]
    · rename_i hne
      have hfresh : ¬(Request.remove other).Settles c.bound name := by
        rintro (h | ⟨q, h⟩)
        · cases h
          exact hne rfl
        · cases h
      simp only [hnot, hfresh, not_false_eq_true, and_true, false_or]
  · rw [hafter]
    have hnot : ¬r.Stores c.bound name p := fun h => hnone name (.inr ⟨p, h⟩)
    simp only [hnot, hnone name, not_false_eq_true, and_true, false_or]

/-- The bounds of a context stay, and its keys go on ascending. -/
structure Keeps (c c' : Context) : Prop where
  bound : c'.bound = c.bound
  limits : c'.limits = c.limits
  ascending : (c.programs.Pairwise fun a b => compareText a.1 b.1 = .lt) →
    c'.programs.Pairwise fun a b => compareText a.1 b.1 = .lt

theorem keeps_after (c : Context) (r : Request) : c.Keeps (c.after r) := by
  rcases after_cases c r with ⟨name, p, -, hafter⟩ | ⟨name, -, hafter⟩ | ⟨-, hafter⟩
  · rw [hafter]
    exact ⟨rfl, rfl, Entries.insert_ascending⟩
  · rw [hafter]
    exact ⟨rfl, rfl, Entries.erase_ascending⟩
  · rw [hafter]
    exact ⟨rfl, rfl, id⟩

/-! ### Runs -/

theorem keeps_afterAll (c : Context) (requests : List Request) : c.Keeps (c.afterAll requests) := by
  induction requests generalizing c with
  | nil => exact ⟨rfl, rfl, id⟩
  | cons r rest ih =>
      have hfirst := keeps_after c r
      have hrest := ih (c.after r)
      exact ⟨hrest.bound.trans hfirst.bound, hrest.limits.trans hfirst.limits,
        fun h => hrest.ascending (hfirst.ascending h)⟩

/-- The last of the requests that settle a name is the first of them, if none follows, or it is
among the others. -/
theorem lastStored_cons_iff {bound : Nat} {rest : List Request} :
    LastStored bound (r :: rest) name p ↔
      LastStored bound rest name p ∨
        r.Stores bound name p ∧ ∀ other ∈ rest, ¬other.Settles bound name := by
  constructor
  · rintro ⟨_ | ⟨first, before⟩, q, later, heq, hstores, hlater⟩
    · cases heq
      exact .inr ⟨hstores, hlater⟩
    · cases heq
      exact .inl ⟨before, q, later, rfl, hstores, hlater⟩
  · rintro (⟨before, q, later, rfl, hstores, hlater⟩ | ⟨hstores, hlater⟩)
    · exact ⟨r :: before, q, later, rfl, hstores, hlater⟩
    · exact ⟨[], r, rest, rfl, hstores, hlater⟩

/-- After a run there is the program under a name that was last stored there, or the one from
before the run if nothing settled the name. -/
theorem program?_afterAll_iff {requests : List Request} :
    (c.afterAll requests).program? name = some p ↔
      LastStored c.bound requests name p ∨
        c.program? name = some p ∧ ∀ r ∈ requests, ¬r.Settles c.bound name := by
  induction requests generalizing c with
  | nil =>
      have hnone : ¬LastStored c.bound [] name p := by
        rintro ⟨before, r, later, heq, -⟩
        cases before <;> cases heq
      simp [afterAll, hnone]
  | cons r rest ih =>
      rw [afterAll, List.foldl_cons, ← afterAll, ih, (keeps_after c r).bound, program?_after_iff,
        lastStored_cons_iff, List.forall_mem_cons, or_and_right, or_assoc, and_assoc]

theorem mem_names_iff : name ∈ c.names ↔ ∃ p, c.program? name = some p := by
  rw [names, Entries.keys, ← Entries.get?_isSome_iff, Option.isSome_iff_exists]
  exact Iff.rfl

/-! ### Problems of sources -/

theorem ofFailure_kind_ne (failure : Eval.Failure) :
    (Problem.ofFailure failure).kind ≠ .notAnExpression := by
  obtain ⟨fault, span⟩ := failure
  cases fault <;> nofun

/-- An analysis fails just if an evaluation fails for the source, and with the same problem. -/
theorem analyze_eq_error_iff {source : String} {bindings : Bindings} {problem : Problem} :
    c.analyze source = .error problem ↔
      c.eval source bindings = .error problem ∧ problem.kind = .notAnExpression := by
  unfold analyze eval
  cases c.compileOnly source with
  | error e =>
      simp only [Except.error.injEq]
      refine ⟨fun h => ⟨h, ?_⟩, fun h => h.1⟩
      rw [← h]
      rfl
  | ok p =>
      refine iff_of_false nofun fun ⟨hfails, hkind⟩ => ?_
      change c.execute p bindings = .error problem at hfails
      cases hrun : p.execute bindings c.limits with
      | ok value =>
          rw [execute, hrun] at hfails
          cases hfails
      | error failure =>
          rw [execute, hrun] at hfails
          cases hfails
          exact ofFailure_kind_ne failure hkind

/-- The store after any run from an empty one.  A name has the program that was last stored under
it, unless the name was removed since; what fails to compile or to load changes nothing; the names
ascend and are those with a program; a program is run under its name as it is run by itself; and
no program that was compiled or loaded is higher than the bound.  An analysis fails just where an
evaluation finds that the source is no expression, with the same problem. -/
theorem store_afterAll (bound : Nat) (limits : Eval.Limits) (requests : List Request) :
    let c := (withLimits bound limits).afterAll requests
    (∀ name p, c.program? name = some p ↔ LastStored bound requests name p) ∧
      (∀ name source e, c.compile name source = .error e →
        c.after (.compile name source) = c) ∧
      (∀ name text e, c.load name text = .error e → c.after (.load name text) = c) ∧
      c.names.Pairwise (· < ·) ∧ (∀ name, name ∈ c.names ↔ ∃ p, c.program? name = some p) ∧
      (∀ name p bindings, LastStored bound requests name p →
        c.executeNamed name bindings = c.execute p bindings) ∧
      (∀ name bindings, (∀ p, ¬LastStored bound requests name p) →
        c.executeNamed name bindings = .error (.unknownProgram name)) ∧
      (∀ r ∈ requests, ∀ name p, r.Stores bound name p → r ≠ .add name p →
        p.expr.height ≤ bound) ∧
      ∀ source bindings problem, c.analyze source = .error problem ↔
        c.eval source bindings = .error problem ∧ problem.kind = .notAnExpression := by
  intro c
  have hprogram (name : String) (p : Program) :
      c.program? name = some p ↔ LastStored bound requests name p := by
    refine program?_afterAll_iff.trans (or_iff_left ?_)
    rintro ⟨hempty, -⟩
    cases hempty
  refine ⟨hprogram, ?_, ?_, ?_, fun _ => mem_names_iff, ?_, ?_, ?_,
    fun _ _ _ => analyze_eq_error_iff⟩
  · intro name source e h
    simp only [after, h]
  · intro name text e h
    simp only [after, h]
  · have hascending := (keeps_afterAll (withLimits bound limits) requests).ascending .nil
    exact List.pairwise_map.mpr (hascending.imp compareText_eq_lt_iff.mp)
  · intro name p bindings h
    simp only [executeNamed, (hprogram name p).mpr h]
  · intro name bindings h
    cases hnone : c.program? name with
    | some p => exact absurd ((hprogram name p).mp hnone) (h p)
    | none => simp only [executeNamed, hnone]
  · exact fun r _ name p hstores hr => hstores.height_le hr

/-- A run that replaces one program, fails to replace it twice, and removes another one. -/
def replacingRun : List Request :=
  [.compile "b" "1", .compile "a" "x", .add "b" ⟨"y", .ident ⟨0, 1⟩ "y"⟩, .compile "b" "(",
    .load "b" "\x7b", .remove "a"]

theorem store_afterAll_replacingRun :
    let c := (withLimits 9 .default).afterAll replacingRun
    c.names = ["b"] ∧ LastStored 9 replacingRun "b" ⟨"y", .ident ⟨0, 1⟩ "y"⟩ ∧
      c.executeNamed "b" .empty = c.execute ⟨"y", .ident ⟨0, 1⟩ "y"⟩ .empty ∧
      c.executeNamed "a" .empty = .error (.unknownProgram "a") := by
  intro c
  obtain ⟨hprogram, -, -, -, -, hnamed, hunknown, -, -⟩ := store_afterAll 9 .default replacingRun
  have hnames : c.names = ["b"] := rfl
  have hb : c.program? "b" = some ⟨"y", .ident ⟨0, 1⟩ "y"⟩ := rfl
  have ha : c.program? "a" = none := rfl
  have hstored := (hprogram _ _).mp hb
  refine ⟨hnames, hstored, hnamed _ _ _ hstored, hunknown _ _ fun p hp => ?_⟩
  rw [(hprogram _ _).mpr hp] at ha
  cases ha

end Context

end EmbeddedExpr
