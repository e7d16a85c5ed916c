import EmbeddedExpr.Proofs.Grammar.Agreement
import EmbeddedExpr.Proofs.Grammar.Delimiters
import EmbeddedExpr.Proofs.Grammar.Insertion

/-!
# Layout does not matter

Sources that are the same sequence of lexemes are parsed alike: the scan of the nesting finds the
same in them (`Nesting.verdict_congr`), they are phrases with the same tokens (`read?_congr`), and
these are built into the same tree but for its spans (`Phrase.build_shape`).  Layout that is put
between two lexemes leaves the sequence as it is (`Laid.insert`), and so the tree.
-/

namespace EmbeddedExpr

namespace Expr

theorem reflexive_of_isFinite {e : Expr} (h : e.isFinite = true) : e.Reflexive := by
  cases e with
  | literal span value =>
      cases value with
      | double x =>
          have hnan : x.isNaN = false := by
            have hexponent : x.exponentField ≠ 2047 := by simpa [isFinite, Double.isFinite] using h
            simp [Double.isNaN, hexponent]
          simp [Reflexive, Literal.same, Double.order?, hnan]
      | null | bool | int | uint | text | bytes => simp [Reflexive, Literal.same]
  | _ => trivial

end Expr

namespace Grammar

variable {bound : Nat} {source source' : List Char} {xs : List Lexeme}

theorem check_congr (h : Laid .operand [] source xs) (h' : Laid .operand [] source' xs)
    (hcheck : Nesting.check bound source = .ok ()) : Nesting.check bound source' = .ok () := by
  have hverdict : (Nesting.check bound source).mapError ParseError.fault =
      (Nesting.check bound source').mapError ParseError.fault := Nesting.verdict_congr h h'
  rw [hcheck] at hverdict
  cases hresult : Nesting.check bound source' with
  | ok _ => rfl
  | error e =>
      rw [hresult] at hverdict
      cases hverdict

/-- The tree that is built of a phrase depends on the shape of the phrase, but for its spans. -/
theorem tree_shape (bound : Nat) (phrase : Phrase) :
    shapeResult Expr.shape (do
      let built ← phrase.build bound
      let built ← built.settle
      .ok built.expr) = (do
      let built ← phrase.shape.build bound
      let built ← built.settle
      .ok built.expr) :=
  Phrase.shapeResult_settled (phrase.build_shape bound) fun _ => rfl

/-- Sources that are the same sequence of lexemes have the same tree, but for its spans. -/
theorem parse_congr {e : Expr} (h : Laid .operand [] source xs) (h' : Laid .operand [] source' xs)
    (hparse : parse bound source = .ok e) :
    ∃ e', parse bound source' = .ok e' ∧ e'.shape = e.shape := by
  obtain ⟨u, hcheck, hread⟩ := of_bind_eq_ok hparse
  split at hread
  · cases hread
  · rename_i phrase hphrase
    obtain ⟨phrase', hphrase', hshape⟩ : ∃ phrase', Phrase.read? source' = some phrase' ∧
        phrase'.shape = phrase.shape := by
      have hcongr := read?_congr h' h
      rw [hphrase] at hcongr
      exact Option.map_eq_some_iff.mp hcongr
    have htree := tree_shape bound phrase'
    rw [hshape, ← tree_shape bound phrase, hread] at htree
    obtain ⟨e', he', heq⟩ := eq_ok_of_shapeResult htree
    refine ⟨e', ?_, heq⟩
    rw [parse, bind_of_ok (check_congr h h' hcheck), hphrase']
    exact he'

/-- Layout that is put between two lexemes of a source does not change its tree, but for the spans
in it. -/
theorem parse_insert {before after filler : List Char} {e : Expr}
    (h : parse bound (before ++ after) = .ok e) (hcut : Cut before after) (hfiller : Filler filler)
    (hslash : '/' ∈ filler.head? → '/' ∉ before.getLast?) :
    ∃ e', parse bound (before ++ filler ++ after) = .ok e' ∧ e'.shape = e.shape ∧
      e'.sameShape e = true := by
  obtain ⟨phrase, _, hread, _⟩ := parse_eq_ok h
  obtain ⟨xs, hxs⟩ := laid_of_read? hread
  obtain ⟨e', hparse, hshape⟩ := parse_congr hxs (hxs.insert hcut hfiller hslash) h
  refine ⟨e', hparse, hshape, Expr.sameShape_of_shape ?_ hshape⟩
  exact (parse_fits hparse).2.mono fun _ hnode => Expr.reflexive_of_isFinite hnode.finite

/-- A comment goes in behind the blank of `x/ y`, though a slash stands in front of that. -/
theorem parse_insert_behindSlash :
    let before := "x/ ".toList
    let after := "y".toList
    let filler := "// (\n\r".toList
    Cut before after ∧ Filler filler ∧ ('/' ∈ filler.head? → '/' ∉ before.getLast?) ∧
      ∃ e e', parse 1 (before ++ after) = .ok e ∧ e.span = ⟨0, 4⟩ ∧
        parse 1 (before ++ filler ++ after) = .ok e' ∧ e'.shape = e.shape ∧
          e'.sameShape e = true := by
  intro before after filler
  have hcut : Cut before after := by
    have hslash : Cut ['/', ' '] after :=
      Cut.lexeme (x := .mark ['/']) (by decide) (.blank (by decide) .here)
    exact Cut.lexeme (x := .name ['x']) (by decide) hslash
  have hfiller : Filler filler :=
    Filler.comment (by decide : '\n' ∉ [' ', '(']) (.blank (by decide) .nil)
  have hparse : parse 1 "x/ y".toList =
      .ok (.arith ⟨0, 4⟩ .div (.ident ⟨0, 1⟩ "x") (.ident ⟨3, 4⟩ "y")) := rfl
  obtain ⟨e', he', hshape, hsame⟩ := parse_insert hparse hcut hfiller (by decide)
  exact ⟨hcut, hfiller, by decide, _, e', hparse, rfl, he', hshape, hsame⟩

end Grammar

end EmbeddedExpr
