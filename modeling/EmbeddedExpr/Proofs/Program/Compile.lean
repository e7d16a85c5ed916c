import EmbeddedExpr.Program.Basic
import EmbeddedExpr.Proofs.Grammar.Build

/-!
# Compiled programs
-/

namespace EmbeddedExpr.Program

variable {bound : Nat} {source : String} {p : Program}

/-- A compiled program keeps its source and has the tree that the source is parsed to. -/
theorem compile_eq_ok (h : compile bound source = .ok p) :
    p.source = source ∧ Grammar.parse bound source.toList = .ok p.expr := by
  unfold compile parse at h
  cases hparse : Grammar.parse bound source.toList with
  | error e => rw [hparse] at h; cases h
  | ok e => rw [hparse] at h; cases h; exact ⟨rfl, rfl⟩

/-- The tree of a compiled program is at most `bound` high and within its source. -/
theorem expr_fits (h : compile bound source = .ok p) :
    p.expr.Fits (Text.byteLength source.toList + 2) bound :=
  Grammar.parse_fits (compile_eq_ok h).2

end EmbeddedExpr.Program
