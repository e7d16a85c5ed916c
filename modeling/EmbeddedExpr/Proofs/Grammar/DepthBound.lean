import EmbeddedExpr.Proofs.Grammar.Build

/-!
# The bound on the height of a source

Two phases compare what they count with the bound: the scan of the nesting, which counts what is
open, and building, which counts the height of the tree.  Neither reads the bound for anything
else, so under a wider bound each goes as before, or it has blamed the depth before (`Widened`).
Since the first fault ends a phase, this passes from each step to all steps after it.
-/

namespace EmbeddedExpr.Grammar

variable {α β : Type} {bound wider : Nat}

/-- A result that blames the depth. -/
def TooDeep (result : Except ParseError α) : Prop :=
  ∃ depth bound span, result = .error ⟨.tooDeep depth bound, span⟩

/-- `further` is the same as `result`, unless `result` blames the depth. -/
def Widened (result further : Except ParseError α) : Prop := TooDeep result ∨ further = result

namespace Widened

theorem same (result : Except ParseError α) : Widened result result := .inr rfl

theorem bind {result further : Except ParseError α} {next next' : α → Except ParseError β}
    (h : Widened result further) (hnext : ∀ a, Widened (next a) (next' a)) :
    Widened (result >>= next) (further >>= next') := by
  rcases h with ⟨depth, bound, span, rfl⟩ | rfl
  · exact .inl ⟨depth, bound, span, rfl⟩
  · cases further with
    | error e => exact .same _
    | ok a => exact hnext a

end Widened

/-! ### The scan -/

/-- How the scan goes on after a step at an offset. -/
def Progress.resume (bound offset : Nat) (next : Nesting → Except ParseError Unit) :
    Progress → Except ParseError Unit
  | .going n => next n
  | .settled => .ok ()
  | .exceeded depth => .error ⟨.tooDeep depth bound, ⟨offset, offset + 1⟩⟩

namespace Nesting

/-- A character in or at the edge of a literal or comment at most ends the signs in a row, and
every other character is a step. -/
theorem scan_cons_cases (mode : Mode) (passed : Nat) (c : Char) (rest : List Char) :
    (∃ mode' passed' after, (after = id ∨ after = endSigns) ∧ ∀ bound n offset,
      scan bound mode passed n offset (c :: rest) =
        scan bound mode' passed' (after n) (offset + c.utf8Size) rest) ∨
      ∀ bound n offset, scan bound mode passed n offset (c :: rest) =
        (n.step bound offset c).resume bound offset fun n' =>
          scan bound .code 0 n' (offset + c.utf8Size) rest := by
  cases passed with
  | succ more => exact .inl ⟨mode, more, id, .inl rfl, fun _ _ _ => rfl⟩
  | zero =>
      cases mode with
      | comment =>
          exact .inl ⟨if c = '\n' then .code else .comment, 0, id, .inl rfl, fun _ _ _ => rfl⟩
      | quoted mark =>
          left
          by_cases hescape : c = '\\'
          · exact ⟨.quoted mark, 1, id, .inl rfl, fun _ _ _ => if_pos hescape⟩
          by_cases hend : c = mark ∨ c = '\n'
          · exact ⟨.code, 0, id, .inl rfl, fun _ _ _ => (if_neg hescape).trans (if_pos hend)⟩
          · exact ⟨.quoted mark, 0, id, .inl rfl, fun _ _ _ =>
              (if_neg hescape).trans (if_neg hend)⟩
      | tripled mark =>
          left
          by_cases hescape : c = '\\'
          · exact ⟨.tripled mark, 1, id, .inl rfl, fun _ _ _ => if_pos hescape⟩
          by_cases hend : c = mark ∧ [mark, mark].isPrefixOf rest = true
          · exact ⟨.code, 2, id, .inl rfl, fun _ _ _ => (if_neg hescape).trans (if_pos hend)⟩
          · exact ⟨.tripled mark, 0, id, .inl rfl, fun _ _ _ =>
              (if_neg hescape).trans (if_neg hend)⟩
      | code =>
          by_cases hquote : c = '"' ∨ c = '\''
          · left
            by_cases hlong : [c, c].isPrefixOf rest = true
            · exact ⟨.tripled c, 2, endSigns, .inr rfl, fun _ _ _ =>
                (if_pos hquote).trans (if_pos hlong)⟩
            · exact ⟨.quoted c, 0, endSigns, .inr rfl, fun _ _ _ =>
                (if_pos hquote).trans (if_neg hlong)⟩
          by_cases hslash : c = '/' ∧ ['/'].isPrefixOf rest = true
          · exact .inl ⟨.comment, 0, id, .inl rfl, fun _ _ _ =>
              (if_neg hquote).trans (if_pos hslash)⟩
          · refine .inr fun bound n offset => ((if_neg hquote).trans (if_neg hslash)).trans ?_
            cases n.step bound offset c <;> rfl

theorem step_of_le (hle : bound ≤ wider) (n : Nesting) (offset : Nat) (c : Char) :
    (∃ depth, n.step bound offset c = .exceeded depth) ∨
      n.step wider offset c = n.step bound offset c := by
  have hcount {depth : Nat} {next : Nesting} :
      (∃ deep, (if bound < depth then Progress.exceeded depth else .going next) =
          .exceeded deep) ∨
        (if wider < depth then Progress.exceeded depth else .going next) =
          if bound < depth then Progress.exceeded depth else .going next := by
    by_cases hdeep : bound < depth
    · exact .inl ⟨depth, if_pos hdeep⟩
    · rw [if_neg hdeep, if_neg fun h => hdeep (Nat.lt_of_le_of_lt hle h)]
      exact .inr rfl
  unfold step
  split
  · exact hcount
  split
  · exact .inr rfl
  split
  · exact hcount
  split
  · exact .inr rfl
  split
  · exact hcount
  · exact .inr rfl

theorem scan_widened (hle : bound ≤ wider) (mode : Mode) (passed : Nat) (n : Nesting)
    (offset : Nat) (text : List Char) :
    Widened (scan bound mode passed n offset text) (scan wider mode passed n offset text) := by
  induction text generalizing mode passed n offset with
  | nil => exact .same _
  | cons c rest ih =>
      rcases scan_cons_cases mode passed c rest with ⟨mode', passed', after, -, hscan⟩ | hscan
      · rw [hscan, hscan]
        exact ih ..
      · -- the one place where the bound is read
        rw [hscan, hscan]
        rcases step_of_le hle n offset c with ⟨depth, hdeep⟩ | hstep
        · rw [hdeep]
          exact .inl ⟨depth, bound, _, rfl⟩
        · rw [hstep]
          cases n.step bound offset c with
          | going n' => exact ih ..
          | settled => exact .same _
          | exceeded depth => exact .inl ⟨depth, bound, _, rfl⟩

theorem check_widened (hle : bound ≤ wider) (text : List Char) :
    Widened (check bound text) (check wider text) :=
  scan_widened hle ..

end Nesting

/-! ### Building -/

namespace Built

theorem node_widened (hle : bound ≤ wider) (expr : Expr) (below : Nat) :
    Widened (node bound expr below) (node wider expr below) := by
  unfold node
  by_cases hdeep : bound < below + 1
  · rw [if_pos hdeep]
    exact .inl ⟨below + 1, bound, expr.span, rfl⟩
  · rw [if_neg hdeep, if_neg fun h => hdeep (Nat.lt_of_le_of_lt hle h)]
    exact .same _

theorem signed_widened (hle : bound ≤ wider) (start : Nat) (op : UnaryOp) (operand : Built) :
    Widened (signed bound start op operand) (signed wider start op operand) := by
  simp only [signed]
  split
  · exact .same _
  · exact (Widened.same _).bind fun settled => node_widened hle ..

theorem expands_widened (hle : bound ≤ wider) {span : Span} {below : Nat} {target : Option Expr}
    {args : List Expr} {build : Nat → Except ParseError Built}
    (h : Expands span below target args build) : Widened (build bound) (build wider) := by
  cases h with
  | misuse => exact .same _
  | has | node => exact node_widened hle ..

end Built

namespace Phrase

mutual

theorem build_widened (hle : bound ≤ wider) :
    ∀ phrase : Phrase, Widened (phrase.build bound) (phrase.build wider)
  | atom _ _ => .same _
  | group inner => (build_widened hle inner).bind fun _ => .same _
  | list _ items =>
      (buildItems_widened hle items).bind fun _ => (Widened.same _).bind fun _ =>
        Built.node_widened hle ..
  | map _ entries => (buildEntries_widened hle entries).bind fun _ => Built.node_widened hle ..
  | call _ _ args =>
      (buildItems_widened hle args).bind fun _ => (Widened.same _).bind fun _ =>
        Built.expands_widened hle (Built.call_expands ..)
  | sign _ _ operand => (build_widened hle operand).bind fun _ => Built.signed_widened hle ..
  | field target _ _ =>
      (build_widened hle target).bind fun _ => (Widened.same _).bind fun _ =>
        Built.node_widened hle ..
  | method target _ args _ =>
      (build_widened hle target).bind fun _ => (Widened.same _).bind fun _ =>
        (buildItems_widened hle args).bind fun _ => (Widened.same _).bind fun _ =>
          Built.expands_widened hle (Built.method_expands ..)
  | index target position _ =>
      (build_widened hle target).bind fun _ => (Widened.same _).bind fun _ =>
        (build_widened hle position).bind fun _ => (Widened.same _).bind fun _ =>
          Built.node_widened hle ..
  | infixed _ left right =>
      (build_widened hle left).bind fun _ => (Widened.same _).bind fun _ =>
        (build_widened hle right).bind fun _ => (Widened.same _).bind fun _ =>
          Built.node_widened hle ..
  | choice condition whenTrue whenFalse =>
      (build_widened hle condition).bind fun _ => (Widened.same _).bind fun _ =>
        (build_widened hle whenFalse).bind fun _ => (Widened.same _).bind fun _ =>
          (build_widened hle whenTrue).bind fun _ => (Widened.same _).bind fun _ =>
            Built.node_widened hle ..

theorem buildItems_widened (hle : bound ≤ wider) :
    ∀ items : List Phrase, Widened (buildItems bound items) (buildItems wider items)
  | [] => .same _
  | item :: rest =>
      (build_widened hle item).bind fun _ => (buildItems_widened hle rest).bind fun _ => .same _

theorem buildEntries_widened (hle : bound ≤ wider) :
    ∀ entries : List (Phrase × Phrase),
      Widened (buildEntries bound entries) (buildEntries wider entries)
  | [] => .same _
  | (key, value) :: rest =>
      (build_widened hle key).bind fun _ => (Widened.same _).bind fun _ =>
        (build_widened hle value).bind fun _ => (Widened.same _).bind fun _ =>
          (buildEntries_widened hle rest).bind fun _ => .same _

end

end Phrase

/-! ### Sources -/

theorem parse_widened (hle : bound ≤ wider) (source : List Char) :
    Widened (parse bound source) (parse wider source) := by
  refine (Nesting.check_widened hle source).bind fun _ => ?_
  split
  · exact .same _
  · rename_i phrase _
    exact (phrase.build_widened hle).bind fun _ => .same _

/-- The tree of a source is no higher than the bound, and a wider bound changes neither a tree
nor an error, except an error that blames the depth. -/
theorem parse_bounded (bound : Nat) (source : List Char) :
    (∀ e, parse bound source = .ok e → e.height ≤ bound) ∧
      ∀ wider, bound ≤ wider → ¬TooDeep (parse bound source) →
        parse wider source = parse bound source := by
  refine ⟨fun e h => (parse_fits h).1, fun wider hle hdeep => ?_⟩
  exact (parse_widened hle source).resolve_left hdeep

/-- `[-x]` is as high as the bound 2 allows, and the misuse of a macro in `[has(x)]` is reported
under the bound 7 as under the bound 2. -/
theorem parse_bounded_atBound :
    (∃ e, parse 2 "[-x]".toList = .ok e ∧ e.height = 2 ∧ e.height ≤ 2) ∧
      (∃ e, parse 2 "[has(x)]".toList = .error e ∧ e.fault = .invalidMacro "has" .hasArgument) ∧
        ¬TooDeep (parse 2 "[has(x)]".toList) ∧
          parse 7 "[has(x)]".toList = parse 2 "[has(x)]".toList ∧
            TooDeep (parse 1 "[has(x)]".toList) := by
  have hparse : parse 2 "[-x]".toList =
      .ok (.list ⟨0, 4⟩ [.unary ⟨1, 3⟩ .neg (.ident ⟨2, 3⟩ "x")]) := rfl
  have hmisuse : parse 2 "[has(x)]".toList =
      .error ⟨.invalidMacro "has" .hasArgument, ⟨1, 7⟩⟩ := rfl
  have hclear : ¬TooDeep (parse 2 "[has(x)]".toList) := by
    rintro ⟨depth, bound, span, hdeep⟩
    rw [hmisuse] at hdeep
    cases hdeep
  have hheight := (parse_bounded 2 "[-x]".toList).1 _ hparse
  have hsame := (parse_bounded 2 "[has(x)]".toList).2 7 (by decide) hclear
  exact ⟨⟨_, hparse, rfl, hheight⟩, ⟨_, hmisuse, rfl⟩, hclear, hsame, 2, 1, ⟨4, 5⟩, rfl⟩

end EmbeddedExpr.Grammar
