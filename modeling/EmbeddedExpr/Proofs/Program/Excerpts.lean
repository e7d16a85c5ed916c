import EmbeddedExpr.Proofs.Grammar.Slices
import EmbeddedExpr.Proofs.Program.Failures

/-!
# The text that a failure points at

A failure of an evaluation has the span of the node that it is raised at.  The text there is the
failing expression wherever the brackets in it are matched; where they are not, a parenthesis of
the expression is outside its span, and the text is no source at all.  With the parentheses around
it that the span leaves out, it is the failing expression in any case.
-/

namespace EmbeddedExpr.Eval

open Grammar

/-- The span of a node of a parsed source delimits a text that is a source just if the brackets in
it are matched, and then its tree is the node but for the spans; else parentheses are missing at
its ends, and with them the text has the node as its tree.  So it is for the node that a failure is
raised at, the span of which is that of the failure. -/
theorem spans_delimit_nodes_if_matched {bound : Nat} {source : List Char} {e : Expr}
    (h : parse bound source = .ok e) :
    (∀ p, (Place.root e).Reaches p → p.expr.Named source) ∧
      ∀ (bindings : Bindings) (limits : Limits) (failure : Failure),
        evaluate e bindings limits = .error failure →
          ∃ p, (Place.root e).Reaches p ∧ Raised ⟨bindings, limits⟩ p failure ∧
            failure.span = p.expr.span ∧ p.expr.Named source := by
  have hnamed (p : Place) (hp : (Place.root e).Reaches p) : p.expr.Named source :=
    (hp.all (all_named_of_parse h)).here
  refine ⟨hnamed, ?_⟩
  intro bindings limits failure hfails
  obtain ⟨p, hp, hraised⟩ := evaluate_error_raised hfails
  exact ⟨p, hp, hraised, hraised.span_eq, hnamed p hp⟩

/-- The failing quotient stands between the offsets 5 and 10, inside parentheses that its span
leaves out on both sides. -/
theorem spans_delimit_nodes_quotient :
    let source := "1 + (2 / 0)".toList
    ∃ e p failure, parse 9 source = .ok e ∧ evaluate e .empty .default = .error failure ∧
      (Place.root e).Reaches p ∧ failure.span = p.expr.span ∧ failure.span = ⟨5, 10⟩ ∧
        Text.slice source 5 10 = "2 / 0".toList ∧ p.expr.ReadsAs "2 / 0".toList := by
  intro source
  let e : Expr := .arith ⟨0, 10⟩ .add (.literal ⟨0, 1⟩ (.int 1))
    (.arith ⟨5, 10⟩ .div (.literal ⟨5, 6⟩ (.int 2)) (.literal ⟨9, 10⟩ (.int 0)))
  have hparse : parse 9 "1 + (2 / 0)".toList = .ok e := rfl
  have hfails : evaluate e .empty .default = .error ⟨.divisionByZero, ⟨5, 10⟩⟩ := rfl
  have hslice : Text.slice "1 + (2 / 0)".toList 5 10 = "2 / 0".toList := rfl
  have hread : parse 9 "2 / 0".toList =
      .ok (.arith ⟨0, 5⟩ .div (.literal ⟨0, 1⟩ (.int 2)) (.literal ⟨4, 5⟩ (.int 0))) := rfl
  obtain ⟨p, hp, -, hspan, hnamed⟩ :=
    (spans_delimit_nodes_if_matched hparse).2 .empty .default _ hfails
  have hreads := hnamed.readsAs
  rw [← hspan] at hreads
  exact ⟨e, p, _, hparse, hfails, hp, hspan, rfl, hslice, hreads (Matched.of_parse hread)⟩

/-- The parentheses around the left operand of a quotient are no part of the tree, and the span of
the quotient, where its failure is, takes in only the second one: no source is like that. -/
theorem spans_delimit_no_source :
    let source := "(1) / 0".toList
    ∃ e, parse 256 source = .ok e ∧
      evaluate e .empty .default = .error ⟨.divisionByZero, ⟨1, 7⟩⟩ ∧ e.span = ⟨1, 7⟩ ∧
        Text.slice source 1 7 = "1) / 0".toList ∧
          (∀ bound e', parse bound "1) / 0".toList ≠ .ok e') ∧ ¬e.ReadsAs "1) / 0".toList := by
  intro source
  let e : Expr := .arith ⟨1, 7⟩ .div (.literal ⟨1, 2⟩ (.int 1)) (.literal ⟨6, 7⟩ (.int 0))
  have hparse : parse 256 "(1) / 0".toList = .ok e := rfl
  have hfails : evaluate e .empty .default = .error ⟨.divisionByZero, ⟨1, 7⟩⟩ := rfl
  have hread : Phrase.read? "1) / 0".toList = none := rfl
  have hnone : ∀ bound e', parse bound "1) / 0".toList ≠ .ok e' := by
    intro bound e' hparse
    obtain ⟨phrase, _, hphrase, _⟩ := parse_eq_ok hparse
    cases hread.symm.trans hphrase
  refine ⟨e, hparse, hfails, rfl, rfl, hnone, ?_⟩
  rintro ⟨limit, hlimit⟩
  obtain ⟨e', he', -⟩ := hlimit limit (Nat.le_refl _)
  exact hnone limit e' he'

end EmbeddedExpr.Eval
