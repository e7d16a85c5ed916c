import EmbeddedExpr.Proofs.Eval.Calls
import EmbeddedExpr.Proofs.Time.Rfc3339
import EmbeddedExpr.Proofs.Value.ReadBack

/-!
# The texts of timestamps

The string of a timestamp is an RFC 3339 text, and the text of its value is the call that makes a
timestamp of this text (`Program.compile_timestamp`).  Both lead back to the timestamp just if its
year has four digits, since any other year is written with a sign and none is read with one
(`Eval.timestamp_text_four_digits`).

Nothing in the text is written as an escape (`Time.Rfc3339.escapeBody_write`), so the value is
spelled like a duration and is scanned, read and built by the same lemmas.  Only the name of the
call begins like a literal, `true`, that it is not.
-/

namespace EmbeddedExpr

open Grammar (Closes Phrase Scanner joined)
open Time (Timestamp)
open Time.Rfc3339 (FourDigits read write)

/-! ### Characters -/

namespace Time.Rfc3339

/-- Nothing of the text of a timestamp is written as an escape. -/
theorem escapeBody_write (t : Timestamp) :
    Text.escapeBody (write t).toList = (write t).toList := by
  have hmarks : ∀ c ∈ ['+', '-', 'T', ':', '.', 'Z'], Text.escapeChar c = [c] := by
    simp [Text.escapeChar, Text.isControl]
  have hdigits (width n : Nat) :
      ∀ c ∈ Duration.paddedDigits width n, Text.escapeChar c = [c] := fun c hc =>
    Text.escapeChar_of_isDigit (Duration.allDigits_paddedDigits width n c hc)
  have hyear (year : Int) : ∀ c ∈ yearText year, Text.escapeChar c = [c] := by
    unfold yearText
    split
    · exact hdigits 4 _
    · refine List.forall_mem_cons.mpr ⟨?_, hdigits 4 _⟩
      split <;> exact hmarks _ (by decide)
  have hfraction (nanos : Nat) : ∀ c ∈ fractionText nanos, Text.escapeChar c = [c] := by
    have hpoint (width n : Nat) :
        ∀ c ∈ '.' :: Duration.paddedDigits width n, Text.escapeChar c = [c] :=
      List.forall_mem_cons.mpr ⟨hmarks _ (by decide), hdigits width n⟩
    unfold fractionText
    split
    · exact List.forall_mem_nil _
    split
    · exact hpoint 3 _
    split
    · exact hpoint 6 _
    · exact hpoint 9 _
  have htwo (n : Nat) : ∀ c ∈ twoDigits n, Text.escapeChar c = [c] := hdigits 2 n
  refine Text.escapeBody_eq_self ?_
  rw [toList_write]
  simp only [dateText, clockText, List.forall_mem_append, List.forall_mem_cons]
  have hdash := hmarks '-' (by decide)
  have hcolon := hmarks ':' (by decide)
  exact ⟨⟨hyear _, hdash, htwo _, hdash, htwo _⟩, hmarks 'T' (by decide),
    ⟨htwo _, hcolon, htwo _, hcolon, htwo _, hfraction _⟩, hmarks 'Z' (by decide),
    List.forall_mem_nil _⟩

end Time.Rfc3339

/-! ### The text of the value -/

namespace Value

open Grammar.Reader

theorem spelling_timestamp (t : Timestamp) (rest : List Char) :
    (timestamp t).spelling ++ rest =
      ['t', 'i', 'm', 'e', 's', 't', 'a', 'm', 'p'] ++ '(' ::
        (joined [(text (write t)).spelling] ++ ')' :: rest) := by
  change ("timestamp(\"" ++ write t ++ "\")").toList ++ rest = _
  rw [joined_argument (Time.Rfc3339.escapeBody_write t)]
  simp

end Value

/-- The name of the call is no literal, though it begins like one. -/
theorem literals_timestamp (after : List Char) : ∀ entry ∈ Grammar.Reader.literals,
    entry.2 (['t', 'i', 'm', 'e', 's', 't', 'a', 'm', 'p'] ++ '(' :: after) = none := by
  have hnumber := Scanner.number_none (c := 't') (by decide) (by decide)
    ('i' :: 'm' :: 'e' :: 's' :: 't' :: 'a' :: 'm' :: 'p' :: '(' :: after)
  have hbool : Scanner.bool ('t' :: 'i' :: 'm' :: 'e' :: 's' :: 't' :: 'a' :: 'm' :: 'p' ::
    '(' :: after) = none := rfl
  have hbytes : Scanner.isBytesMark 't' = false := by decide
  have hraw : Scanner.isRawMark 't' = false := by decide
  simp [Grammar.Reader.literals, hnumber, hbool, Scanner.null_none,
    Scanner.bytes_none hbytes hraw, Scanner.text_none hraw]

namespace Program

/-- The text of a timestamp is the program that makes a timestamp of a text. -/
theorem compile_timestamp (t : Timestamp) {bound : Nat} (hbound : 0 < bound) :
    ∃ span inner, compile bound (Value.timestamp t).display = .ok
      ⟨(Value.timestamp t).display, .call span "timestamp" [.literal inner (.text (write t))]⟩ := by
  have hspelling := Value.spelling_timestamp t []
  rw [List.append_nil] at hspelling
  have hcheck : Grammar.Nesting.check bound (Value.timestamp t).spelling = .ok () := by
    apply Grammar.Nesting.check_of_skips
    rw [hspelling]
    exact Value.skips_call (by simp [Grammar.Nesting.IsOrdinary]) hbound _
  obtain ⟨fuel, hfuel⟩ : ∃ fuel, (Value.timestamp t).spelling.length + 1 = fuel + 2 := by
    rw [hspelling]
    exact ⟨_, rfl⟩
  obtain ⟨hsolid, hreads⟩ := Value.reads_call fuel _ (write t)
    (fun after => .cons (by decide) (by decide) _) literals_timestamp (fun after => rfl) .nil
  rw [← hspelling] at hsolid hreads
  rw [← hfuel] at hreads
  obtain ⟨_, hread, span, inner, rfl⟩ := Grammar.read?_of_reads hsolid hreads
  refine ⟨span, inner, compile_of_parse ?_⟩
  exact Grammar.parse_of_build hcheck hread (Grammar.build_call "timestamp" (by decide)
    (Text.unescapeText_escapeBody _) hbound) rfl

end Program

namespace Eval

open Run (Yields Ends)

/-- The fault of the text of a timestamp whose year has a sign. -/
def signedYear (t : Timestamp) : Fault :=
  .invalidArgument "timestamp" (Builtin.timestampMessage (write t) .invalid)

theorem toTimestamp_write {t : Timestamp} (h : FourDigits t) :
    Builtin.toTimestamp [.text (write t)] = .ok (.timestamp t) := by
  rw [Builtin.toTimestamp, Time.Rfc3339.read_write t h]

theorem toTimestamp_write_of_not {t : Timestamp} (h : ¬ FourDigits t) :
    Builtin.toTimestamp [.text (write t)] = .error (signedYear t) := by
  rw [Builtin.toTimestamp, Time.Rfc3339.read_write_of_not t h]
  rfl

theorem execute_display_timestamp (t : Timestamp) {bound : Nat} (hbound : 0 < bound) :
    ∃ span p, Program.compile bound (Value.timestamp t).display = .ok p ∧
      ∀ limits : Limits, 2 ≤ limits.maxDepth → p.execute .empty limits =
        (Builtin.toTimestamp [.text (write t)]).mapError fun fault => ⟨fault, span⟩ := by
  obtain ⟨span, inner, hcompile⟩ := Program.compile_timestamp t hbound
  refine ⟨span, _, hcompile, fun limits hlimits => ?_⟩
  have hargument :=
    Grammar.evaluatesTo_literal inner (.text (write t)) Nat.one_pos limits [] 1 hlimits
  exact evaluate_of_ends (eval_call_ends span rfl rfl hargument)

/-- A timestamp is the one of its text just if its year has four digits.  Then it is read from the
text, in the language the timestamp of the string of what has it as its value is equal to what has
this value, and the text of the value is a program for it.  Otherwise all of these fail, as the sign
in front of the year is not read. -/
theorem timestamp_text_four_digits (t : Timestamp) :
    (FourDigits t ↔ -62167219200 ≤ t.seconds ∧ t.seconds ≤ 253402300799) ∧
    (FourDigits t → read (write t).toList = .ok t ∧
      (∀ (env : Environment) (scope : Scope) (depth : Nat) (e e' : Expr),
        env.bindings.function? "string" = none → env.bindings.function? "timestamp" = none →
        (eval env scope (depth + 3) e).Yields (.timestamp t) →
        (eval env scope (depth + 1) e').Yields (.timestamp t) → ∀ span outer inner,
          (eval env scope depth (.relation span .eq
            (.call outer "timestamp" [.call inner "string" [e]]) e')).Yields (.bool true)) ∧
      ∀ bound, 0 < bound → ∃ p, Program.compile bound (Value.timestamp t).display = .ok p ∧
        ∀ limits : Limits, 2 ≤ limits.maxDepth → p.execute .empty limits = .ok (.timestamp t)) ∧
    (¬ FourDigits t → read (write t).toList = .error .invalid ∧
      (∀ (env : Environment) (scope : Scope) (depth : Nat) (e e' : Expr),
        env.bindings.function? "string" = none → env.bindings.function? "timestamp" = none →
        (eval env scope (depth + 3) e).Yields (.timestamp t) → ∀ span outer inner,
          (eval env scope depth (.relation span .eq
            (.call outer "timestamp" [.call inner "string" [e]]) e')).Ends
              (.error ⟨signedYear t, outer⟩)) ∧
      ∀ bound, 0 < bound → ∃ span p,
        Program.compile bound (Value.timestamp t).display = .ok p ∧
        ∀ limits : Limits, 2 ≤ limits.maxDepth →
          p.execute .empty limits = .error ⟨signedYear t, span⟩) := by
  refine ⟨Time.Rfc3339.fourDigits_iff t, fun hyear => ⟨Time.Rfc3339.read_write t hyear, ?_, ?_⟩,
    fun hyear => ⟨Time.Rfc3339.read_write_of_not t hyear, ?_, ?_⟩⟩
  · intro env scope depth e e' hstring htimestamp h h' span outer inner
    have hsame : Value.equals (.timestamp t) (.timestamp t) = true := by
      rw [Value.equals]
      exact decide_eq_true rfl
    have hcall := eval_call_string_ends outer inner hstring htimestamp rfl rfl h
    rw [toTimestamp_write hyear] at hcall
    exact eval_relation_yields hcall h' (congrArg Except.ok hsame)
  · intro bound hbound
    obtain ⟨span, p, hcompile, hexecute⟩ := execute_display_timestamp t hbound
    rw [toTimestamp_write hyear] at hexecute
    exact ⟨p, hcompile, hexecute⟩
  · intro env scope depth e e' hstring htimestamp h span outer inner
    have hcall := eval_call_string_ends outer inner hstring htimestamp rfl rfl h
    rw [toTimestamp_write_of_not hyear] at hcall
    have hdepth := lt_of_yields h
    exact eval_relation_error (by omega) hcall
  · intro bound hbound
    obtain ⟨span, p, hcompile, hexecute⟩ := execute_display_timestamp t hbound
    rw [toTimestamp_write_of_not hyear] at hexecute
    exact ⟨span, p, hcompile, hexecute⟩

/-- The middle of a leap second at the end of the year 9999, and the instant after that second. -/
theorem timestamp_text_four_digits_newYear :
    let t : Timestamp := ⟨253402300799, 1500000000, by decide +kernel⟩
    let next : Timestamp := ⟨253402300800, 0, by decide +kernel⟩
    write t = "9999-12-31T23:59:60.500Z" ∧ read (write t).toList = .ok t ∧
      evaluate (.relation ⟨0, 25⟩ .eq
          (.call ⟨0, 20⟩ "timestamp" [.call ⟨10, 19⟩ "string" [.ident ⟨17, 18⟩ "x"]])
          (.ident ⟨24, 25⟩ "x"))
        (Bindings.empty.bindValue "x" (.timestamp t)) .default = .ok (.bool true) ∧
      (∃ p, Program.compile 1 (Value.timestamp t).display = .ok p ∧
        p.execute .empty .default = .ok (.timestamp t)) ∧
      write next = "+10000-01-01T00:00:00Z" ∧ read (write next).toList = .error .invalid := by
  intro t next
  obtain ⟨hyear, hfour, -⟩ := timestamp_text_four_digits t
  obtain ⟨hyear', -, hsigned⟩ := timestamp_text_four_digits next
  obtain ⟨hread, heval, hdisplay⟩ := hfour (hyear.mpr (by decide))
  obtain ⟨hrefused, -, -⟩ := hsigned (mt hyear'.mp (by decide))
  obtain ⟨p, hcompile, hexecute⟩ := hdisplay 1 Nat.one_pos
  have hx (depth : Nat) (span : Span) (hdepth : depth < 1000) :
      (eval ⟨Bindings.empty.bindValue "x" (.timestamp t), .default⟩ [] depth
        (.ident span "x")).Yields (.timestamp t) :=
    eval_ident_yields hdepth rfl
  refine ⟨by decide +kernel, hread, evaluate_of_yields ?_,
    ⟨p, hcompile, hexecute .default (by decide)⟩, by decide +kernel, hrefused⟩
  exact heval _ [] 0 _ _ rfl rfl (hx 3 _ (by decide)) (hx 1 _ (by decide)) _ _ _

/-- The first instant of the year 10000 is the timestamp of an integer, but neither can it be
compared with the timestamp of its string nor is its text a program that has a value. -/
theorem timestamp_text_not_reread :
    ∃ t : Timestamp, Builtin.toTimestamp [.int 253402300800] = .ok (.timestamp t) ∧
      (∀ v, evaluate (.relation ⟨0, 69⟩ .eq
          (.call ⟨0, 42⟩ "timestamp" [.call ⟨10, 41⟩ "string"
            [.call ⟨17, 40⟩ "timestamp" [.literal ⟨27, 39⟩ (.int 253402300800)]]])
          (.call ⟨46, 69⟩ "timestamp" [.literal ⟨56, 68⟩ (.int 253402300800)]))
        .empty .default ≠ .ok v) ∧
      ∃ p, Program.compile 1 (Value.timestamp t).display = .ok p ∧
        ∀ v, p.execute .empty .default ≠ .ok v := by
  let t : Timestamp := ⟨253402300800, 0, by decide +kernel⟩
  have hyear : ¬ FourDigits t := by
    rw [Time.Rfc3339.fourDigits_iff]
    decide
  have hmade : Builtin.toTimestamp [.int 253402300800] = .ok (.timestamp t) := by
    have hparts : Time.Timestamp.ofParts? (253402300800 : Int64).toInt 0 = some t := dif_pos t.valid
    rw [Builtin.toTimestamp, hparts]
    rfl
  refine ⟨t, hmade, fun v => ?_, ?_⟩
  · have hargument : (eval ⟨.empty, .default⟩ [] 4
        (.literal ⟨27, 39⟩ (.int 253402300800))).Yields (.int 253402300800) :=
      Grammar.evaluatesTo_literal _ _ Nat.one_pos _ _ _ (by decide)
    have hfind : Builtin.find? "timestamp" =
      some ⟨"timestamp", .exactly 1, Builtin.toTimestamp⟩ := rfl
    have hinstant := eval_call_ends ⟨17, 40⟩ rfl hfind hargument
    rw [hmade] at hinstant
    have hreread := eval_call_string_ends ⟨0, 42⟩ ⟨10, 41⟩ rfl rfl hfind rfl hinstant
    rw [toTimestamp_write_of_not hyear] at hreread
    rw [evaluate_of_ends (eval_relation_error (by decide) hreread)]
    nofun
  · obtain ⟨span, p, hcompile, hexecute⟩ := execute_display_timestamp t Nat.one_pos
    rw [toTimestamp_write_of_not hyear] at hexecute
    refine ⟨p, hcompile, fun v => ?_⟩
    rw [hexecute .default (by decide)]
    nofun

end Eval

end EmbeddedExpr
