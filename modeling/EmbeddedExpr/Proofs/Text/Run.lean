import EmbeddedExpr.Text.Utf8
import Mathlib.Data.List.TakeWhile

/-!
# Runs of characters

The run that a test takes from the front of a text ends where the test first fails.  A run has at
least as many bytes as characters.
-/

namespace EmbeddedExpr.Text

variable {p : Char → Bool} {run rest : List Char}

/-- A run is taken whole if the test fails behind it. -/
theorem takeWhile_append_stop (hrun : ∀ c ∈ run, p c = true)
    (hrest : ∀ c ∈ rest.head?, p c = false) :
    (run ++ rest).takeWhile p = run ∧ (run ++ rest).dropWhile p = rest := by
  have hstop : rest.takeWhile p = [] ∧ rest.dropWhile p = rest := by
    cases rest with
    | nil => exact ⟨rfl, rfl⟩
    | cons c rest =>
        have hc := hrest c rfl
        exact ⟨List.takeWhile_cons_of_neg (by simp [hc]), List.dropWhile_cons_of_neg (by simp [hc])⟩
  rw [List.takeWhile_append_of_pos hrun, List.dropWhile_append_of_pos hrun, hstop.1, hstop.2,
    List.append_nil]
  exact ⟨rfl, rfl⟩

theorem head_dropWhile {text : List Char} : ∀ c ∈ (text.dropWhile p).head?, p c = false := by
  intro c hc
  have h := List.head?_dropWhile_not p text
  rw [Option.mem_def.mp hc] at h
  exact h

theorem length_le_byteLength (text : List Char) : text.length ≤ byteLength text := by
  induction text with
  | nil => exact Nat.le_refl 0
  | cons c rest ih =>
      have hsize := c.utf8Size_pos
      rw [List.length_cons, byteLength_cons]
      omega

end EmbeddedExpr.Text
