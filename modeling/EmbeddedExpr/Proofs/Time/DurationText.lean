import EmbeddedExpr.Proofs.Eval.Calls
import EmbeddedExpr.Proofs.Time.Duration
import EmbeddedExpr.Proofs.Time.Fields

/-!
# The texts of durations

A duration is written from its two words (`Time.Duration.Fields.text`) and read as a sum in 128
bits.  On the durations themselves one takes the other back (`Time.Duration.ofText?_text`), and
both agree with the words: the sign that is in front of the text if one of the words is negative
is that of the count (`Time.Duration.text_fields`), and reading does not overflow
(`Time.Duration.Fields.ofText_eq`).

In the language the text passes through two calls, which do as their builtins do unless the names
are bound (`Eval.eval_call_string_ends`).
-/

namespace EmbeddedExpr

namespace Time.Duration

/-- The fields as decimal seconds, such as `1.5s`. -/
def Fields.text (f : Fields) : String :=
  let sign := if f.seconds.toInt < 0 ∨ f.nanos.toInt < 0 then "-" else ""
  let whole := toString f.seconds.toInt.natAbs
  let nanos := f.nanos.toInt.natAbs
  if nanos = 0 then sign ++ whole ++ "s"
  else
    let fraction := ((paddedDigits 9 nanos).reverse.dropWhile (· == '0')).reverse
    sign ++ whole ++ "." ++ String.ofList fraction ++ "s"

theorem text_fields (d : Duration) : d.fields.text = d.text := by
  have hsum := d.seconds_mul_add_nanos
  have hnanos := d.natAbs_nanos_le
  obtain ⟨-, habove, hbelow⟩ := d.normalized_fields
  rw [seconds_fields, nanos_fields] at habove hbelow
  have hsign : (d.seconds < 0 ∨ d.nanos < 0) ↔ d.isNegative = true := by
    rw [isNegative, decide_eq_true_iff]
    unfold nanosPerSecond at hsum
    omega
  simp only [Fields.text, text, seconds_fields, nanos_fields, hsign]

theorem text_injective {d d' : Duration} (h : d.text = d'.text) : d = d' := by
  have hread := ofText?_text d
  rw [h, ofText?_text] at hread
  exact (Option.some.inj hread).symm

end Time.Duration

namespace Eval

open Time (Duration)
open Time.Duration (Fields)
open Run (Yields)

/-- The texts of durations and durations are the same.  Normalized fields are read from their text,
so that different ones have different texts; they have the text of their duration, which is read
from it as well; and in the language, where the names are not bound to something else, the duration
of the string of what has a duration as its value is equal to what has this value. -/
theorem duration_text_round_trip :
    (∀ f : Fields, f.Normalized → Fields.ofText f.text.toList = .ok (some f)) ∧
    (∀ f g : Fields, f.Normalized → g.Normalized → f.text = g.text → f = g) ∧
    (∀ d : Duration, d.fields.text = d.text ∧ Duration.ofText? d.text.toList = some d) ∧
    ∀ (env : Environment) (scope : Scope) (depth : Nat) (e e' : Expr) (d : Duration),
      env.bindings.function? "string" = none → env.bindings.function? "duration" = none →
      (eval env scope (depth + 3) e).Yields (.duration d) →
      (eval env scope (depth + 1) e').Yields (.duration d) → ∀ span outer inner,
        (eval env scope depth (.relation span .eq
          (.call outer "duration" [.call inner "string" [e]]) e')).Yields (.bool true) := by
  refine ⟨fun f hf => ?_, fun f g hf hg h => ?_,
    fun d => ⟨Duration.text_fields d, Duration.ofText?_text d⟩,
    fun env scope depth e e' d hstring hduration h h' span outer inner => ?_⟩
  · obtain ⟨d, rfl⟩ := hf.exists_fields
    rw [Duration.text_fields, Fields.ofText_eq, Duration.ofText?_text, Option.map_some]
  · obtain ⟨d, rfl⟩ := hf.exists_fields
    obtain ⟨d', rfl⟩ := hg.exists_fields
    rw [Duration.text_fields, Duration.text_fields] at h
    rw [Duration.text_injective h]
  · have hsame : Value.equals (.duration d) (.duration d) = true := by
      rw [Value.equals]
      exact decide_eq_true rfl
    have hcall := eval_call_string_ends outer inner hstring hduration rfl rfl h
    rw [Builtin.toDuration, Duration.ofText?_text] at hcall
    exact eval_relation_yields hcall h' (congrArg Except.ok hsame)

/-- The least duration, and `duration(string(x)) == x` at half a second before zero. -/
theorem duration_text_round_trip_least :
    let least : Fields := ⟨Int64.minValue, -999999999⟩
    let half : Duration := ⟨-500000000, by decide⟩
    least.text = "-9223372036854775808.999999999s" ∧
      Fields.ofText least.text.toList = .ok (some least) ∧ least.text ≠ half.fields.text ∧
      half.text = "-0.5s" ∧ Duration.ofText? half.text.toList = some half ∧
      evaluate (.relation ⟨0, 24⟩ .eq
          (.call ⟨0, 19⟩ "duration" [.call ⟨9, 18⟩ "string" [.ident ⟨16, 17⟩ "x"]])
          (.ident ⟨23, 24⟩ "x"))
        (Bindings.empty.bindValue "x" (.duration half)) .default = .ok (.bool true) := by
  intro least half
  obtain ⟨hread, hinjective, hduration, heval⟩ := duration_text_round_trip
  have hleast : least.Normalized := ⟨by decide, by decide, by decide⟩
  have htext : least.text ≠ half.fields.text := by
    intro htext
    have hsame := hinjective least half.fields hleast half.normalized_fields htext
    exact absurd (congrArg Fields.seconds hsame) (by decide)
  have hx (depth : Nat) (span : Span) (hdepth : depth < 1000) :
      (eval ⟨Bindings.empty.bindValue "x" (.duration half), .default⟩ [] depth
        (.ident span "x")).Yields (.duration half) :=
    eval_ident_yields hdepth rfl
  refine ⟨by decide +kernel, hread least hleast, htext, by decide +kernel, (hduration half).2,
    evaluate_of_yields ?_⟩
  exact heval _ [] 0 _ _ half rfl rfl (hx 3 _ (by decide)) (hx 1 _ (by decide)) _ _ _

end Eval

end EmbeddedExpr
