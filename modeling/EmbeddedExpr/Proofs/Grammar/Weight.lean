import EmbeddedExpr.Proofs.Grammar.Balance
import EmbeddedExpr.Proofs.Grammar.Lexemes

/-!
# The nesting of tokens

The scan of the nesting counts open brackets, choices and signs (`Nesting.weight`).  A character
adds at most one to this, so that a bound as great as the number of characters is never reached.
The brackets are matched if the tokens are balanced, as those of operations are
(`balanced_tokens`).
-/

namespace EmbeddedExpr.Grammar

open Nesting (opening? isOpening)

/-! ### Balanced tokens -/

/-- The token has neither brackets nor quotation marks, and no slash unless that stands alone. -/
def IsQuiet (token : List Char) : Prop :=
  (∀ c ∈ token, c ∉ ['(', '[', '\x7b', ')', ']', '\x7d', '"', '\'']) ∧
    ('/' ∈ token → token = ['/'])

instance : DecidablePred IsQuiet := fun token =>
  @instDecidableAnd _ _ (List.decidableBAll _ token) inferInstance

/-- Every bracket is closed by its counterpart. -/
inductive Balanced : List (List Char) → Prop
  | nil : Balanced []
  | cons {token : List Char} {ts : List (List Char)} :
      IsQuiet token → Balanced ts → Balanced (token :: ts)
  | enclosed {opening closing : Char} {ts more : List (List Char)} :
      opening? closing = some opening → Balanced ts → Balanced more →
      Balanced ([opening] :: (ts ++ [closing] :: more))

namespace Balanced

variable {ts more : List (List Char)}

theorem append (h : Balanced ts) (hmore : Balanced more) : Balanced (ts ++ more) := by
  induction h with
  | nil => exact hmore
  | cons htoken _ ih => exact .cons htoken ih
  | enclosed hclosing hinner _ _ ih =>
      rw [List.cons_append, List.append_assoc, List.cons_append]
      exact .enclosed hclosing hinner ih

theorem parenthesized (enclosed : Bool) (h : Balanced ts) :
    Balanced (parenthesized enclosed ts) := by
  cases enclosed with
  | false => exact h
  | true => exact .enclosed rfl h .nil

theorem separated {items : List (List (List Char))} (h : ∀ item ∈ items, Balanced item) :
    Balanced (separated items) := by
  have hmore : ∀ rest : List (List (List Char)), (∀ item ∈ rest, Balanced item) →
      Balanced (rest.flatMap ([','] :: ·)) := by
    intro rest hrest
    induction rest with
    | nil => exact .nil
    | cons item rest ih =>
        obtain ⟨hitem, hrest⟩ := List.forall_mem_cons.mp hrest
        exact .cons (by decide) (hitem.append (ih hrest))
  cases items with
  | nil => exact .nil
  | cons first rest =>
      obtain ⟨hfirst, hrest⟩ := List.forall_mem_cons.mp h
      exact hfirst.append (hmore rest hrest)

end Balanced

theorem IsName.isQuiet {name : String} (h : IsName name) : IsQuiet name.toList := by
  refine ⟨fun c hc => ?_, fun hslash => ?_⟩
  · exact Scanner.not_mem_of_isNameChar (by decide) (h.allNameChars c hc)
  · exact absurd hslash (Scanner.not_mem_of_allNameChars h.allNameChars (by decide))

theorem InfixOp.isQuiet_symbol (op : InfixOp) : IsQuiet op.symbol := by
  cases op with
  | logic op | relation op | arith op => cases op <;> decide

theorem balanced_tokens (extra : Expr → Bool) {e : Expr} (hall : e.All IsOperation) :
    Balanced (tokens extra e) := by
  induction e using Expr.induct with
  | step e ih =>
      have hhere := hall.here
      have hpart (expected : Nat) {o : Expr} (hmem : ([], o) ∈ e.operands) :
          Balanced ((Part.expecting extra expected o).tokens extra) :=
        (ih ([], o) hmem (hall.operands _ hmem)).parenthesized _
      cases e with
      | ident span name => exact .cons hhere.isQuiet .nil
      | unary span op operand =>
          refine .cons ?_ (hpart 6 (by simp [Expr.operands]))
          cases op <;> decide
      | logic _ op left right | relation _ op left right | arith _ op left right =>
          exact (hpart _ (by simp [Expr.operands])).append
            (.cons (InfixOp.isQuiet_symbol _) (hpart _ (by simp [Expr.operands])))
      | ternary span c t f =>
          refine (hpart 1 (by simp [Expr.operands])).append (.cons (by decide) ?_)
          exact (hpart 0 (by simp [Expr.operands])).append
            (.cons (by decide) (hpart 0 (by simp [Expr.operands])))
      | field span target name =>
          exact (hpart 7 (by simp [Expr.operands])).append
            (.cons (by decide) (.cons hhere.isQuiet .nil))
      | index span target position =>
          exact (hpart 7 (by simp [Expr.operands])).append
            (.enclosed rfl (hpart 0 (by simp [Expr.operands])) .nil)
      | method span target function args =>
          refine (hpart 7 (by simp [Expr.operands])).append
            (.cons (by decide) (.cons hhere.1.isQuiet (.enclosed rfl (.separated ?_) .nil)))
          rw [itemTokens_eq]
          exact List.forall_mem_map.mpr fun arg harg => hpart 0 (by simp [Expr.operands, harg])
      | _ => exact hhere.elim

namespace Nesting

variable {bound : Nat} {text middle rest : List Char} {c : Char}

/-! ### One character -/

/-- All that counts against the bound. -/
def weight (n : Nesting) : Nat := n.brackets.length + n.choiceTotal + n.signs

theorem step_opening_or (hc : isOpening c = true) (bound : Nat) (n : Nesting) (offset : Nat) :
    (∃ n', n.step bound offset c = .going n' ∧ n'.brackets = (c, offset) :: n.brackets ∧
      n'.weight ≤ n.weight + 1) ∨
      ∃ depth, n.step bound offset c = .exceeded depth ∧ bound < depth ∧
        depth ≤ n.weight + 1 := by
  have hdepth : ((c, offset) :: n.brackets).length + n.choiceTotal + n.signs = n.weight + 1 := by
    simp only [weight, List.length_cons]
    omega
  simp only [step, hc, if_true, openBracket, hdepth]
  split
  · rename_i hdeep
    exact .inr ⟨_, rfl, hdeep, Nat.le_refl _⟩
  · refine .inl ⟨_, rfl, rfl, ?_⟩
    simp only [weight, List.length_cons]
    omega

theorem step_opening {n : Nesting} (hc : isOpening c = true) (hbound : n.weight < bound)
    (offset : Nat) : ∃ n', n.step bound offset c = .going n' ∧
      n'.brackets = (c, offset) :: n.brackets ∧ n'.weight ≤ n.weight + 1 := by
  rcases step_opening_or hc bound n offset with hgoing | ⟨depth, -, hdeep, hle⟩
  · exact hgoing
  · omega

theorem step_closing {n : Nesting} {opening : Char} {start : Nat} {brackets : List (Char × Nat)}
    (hc : opening? c = some opening) (hn : n.brackets = (opening, start) :: brackets)
    (bound offset : Nat) : ∃ n', n.step bound offset c = .going n' ∧ n'.brackets = brackets ∧
      n'.weight ≤ n.weight := by
  obtain ⟨-, hnot, -⟩ := brackets_spec hc
  refine ⟨⟨brackets, n.choices.tail, n.choiceTotal - n.choices.headD 0, 0⟩, ?_, rfl, ?_⟩
  · rw [step, hnot, if_neg Bool.false_ne_true, hc]
    simp only [closeBracket, hn, if_true]
  · simp only [weight, hn, List.length_cons]
    omega

/-- A character that is no bracket leaves the brackets as they are, or blames the depth. -/
theorem step_unbracketed_or (hopening : isOpening c = false) (hclosing : opening? c = none)
    (bound : Nat) (n : Nesting) (offset : Nat) :
    (∃ n', n.step bound offset c = .going n' ∧ n'.brackets = n.brackets ∧
      n'.weight ≤ n.weight + 1) ∨
      ∃ depth, n.step bound offset c = .exceeded depth ∧ bound < depth ∧
        depth ≤ n.weight + 1 := by
  simp only [step, hopening, hclosing, Bool.false_eq_true, if_false, weight]
  split
  · -- a question mark
    simp only [openChoice]
    split
    · rename_i hdeep
      exact .inr ⟨_, rfl, hdeep, by omega⟩
    · exact .inl ⟨_, rfl, rfl, by simp only; omega⟩
  split
  · -- a comma
    unfold closeChoices
    split <;> exact .inl ⟨_, rfl, rfl, by simp only; omega⟩
  split
  · -- a sign
    simp only [openSign]
    split
    · rename_i hdeep
      exact .inr ⟨_, rfl, hdeep, by omega⟩
    · exact .inl ⟨_, rfl, rfl, by simp only; omega⟩
  split
  · exact .inl ⟨n, rfl, rfl, Nat.le_succ _⟩
  · exact .inl ⟨n.endSigns, rfl, rfl, by simp only [endSigns]; omega⟩

theorem step_unbracketed {n : Nesting} (hopening : isOpening c = false)
    (hclosing : opening? c = none) (hbound : n.weight < bound) (offset : Nat) :
    ∃ n', n.step bound offset c = .going n' ∧ n'.brackets = n.brackets ∧
      n'.weight ≤ n.weight + 1 := by
  rcases step_unbracketed_or hopening hclosing bound n offset with hgoing | ⟨depth, -, hdeep, hle⟩
  · exact hgoing
  · omega

/-! ### Texts -/

/-- The scan gets over the text up to `rest`, with the same brackets open there as here.  There
are enough characters in the text to count what is open. -/
def Passes (bound : Nat) (text rest : List Char) : Prop :=
  ∀ n offset, n.weight + text.length ≤ bound → ∃ n' stop, n'.brackets = n.brackets ∧
    n'.weight + rest.length ≤ bound ∧
    scan bound .code 0 n offset text = scan bound .code 0 n' stop rest

theorem Passes.refl (text : List Char) : Passes bound text text :=
  fun n offset h => ⟨n, offset, rfl, h, rfl⟩

theorem Passes.trans (h : Passes bound text middle) (hnext : Passes bound middle rest) :
    Passes bound text rest := by
  intro n offset hbound
  obtain ⟨n', between, hsame, hmiddle, hfirst⟩ := h n offset hbound
  obtain ⟨n'', stop, hsame', hrest, hsecond⟩ := hnext n' between hmiddle
  exact ⟨n'', stop, hsame'.trans hsame, hrest, hfirst.trans hsecond⟩

theorem passes_cons (hopening : isOpening c = false) (hclosing : opening? c = none)
    (hquote : c ≠ '"' ∧ c ≠ '\'') (hslash : c ≠ '/' ∨ ['/'].isPrefixOf rest = false) :
    Passes bound (c :: rest) rest := by
  intro n offset hbound
  rw [List.length_cons] at hbound
  have hless : n.weight < bound := by omega
  obtain ⟨n', hstep, hsame, hweight⟩ := step_unbracketed hopening hclosing hless offset
  exact ⟨n', _, hsame, by omega, scan_code_cons hquote hslash hstep⟩

theorem passes_trailing (tokens : List (List Char)) :
    Passes bound (trailing tokens) (spaced tokens) := by
  rcases trailing_eq tokens with ⟨hnil, rfl⟩ | hcons
  · exact .refl _
  · rw [hcons]
    exact passes_cons rfl rfl (by decide) (.inl (by decide))

theorem passes_quiet {token : List Char} (h : IsQuiet token) (tokens : List (List Char)) :
    Passes bound (token ++ trailing tokens) (trailing tokens) := by
  have hplain : ∀ d : Char, d ∉ ['(', '[', '\x7b', ')', ']', '\x7d', '"', '\''] →
      isOpening d = false ∧ opening? d = none ∧ d ≠ '"' ∧ d ≠ '\'' := by
    intro d hd
    obtain ⟨hopening, hclosing⟩ := unbracketed (mt (List.mem_append_left ['"', '\'']) hd)
    have hquote := mt (List.mem_append_right ['(', '[', '\x7b', ')', ']', '\x7d']) hd
    exact ⟨hopening, hclosing, by simpa using hquote⟩
  obtain ⟨hchars, hslash⟩ := h
  by_cases hmem : '/' ∈ token
  · -- the slash stands alone and begins no comment
    have hnone : ['/'].isPrefixOf (trailing tokens) = false :=
      isPrefixOf_append_trailing (by decide) [] tokens
    rw [hslash hmem]
    exact passes_cons rfl rfl (by decide) (.inr hnone)
  · clear hslash
    induction token with
    | nil => exact .refl _
    | cons d run ih =>
        obtain ⟨hd, hrun⟩ := List.forall_mem_cons.mp hchars
        obtain ⟨hne, hnot⟩ := not_or.mp (mt List.mem_cons.mpr hmem)
        obtain ⟨hopening, hclosing, hquote⟩ := hplain d hd
        exact (passes_cons hopening hclosing hquote (.inl (Ne.symm hne))).trans (ih hrun hnot)

/-- What stands between brackets is passed, and the brackets with it. -/
theorem passes_enclosed {opening closing : Char} (h : opening? closing = some opening)
    (htext : Passes bound text (closing :: rest)) : Passes bound (opening :: text) rest := by
  obtain ⟨hopening, -, hchars⟩ := brackets_spec h
  obtain ⟨hquote, hslash⟩ := hchars opening (by simp)
  obtain ⟨hquote', hslash'⟩ := hchars closing (by simp)
  intro n offset hbound
  rw [List.length_cons] at hbound
  have hless : n.weight < bound := by omega
  obtain ⟨n₁, hopen, hbrackets, hweight⟩ := step_opening hopening hless offset
  obtain ⟨n₂, middle, hsame, hmiddle, hinside⟩ :=
    htext n₁ (offset + opening.utf8Size) (by omega)
  obtain ⟨n₃, hclose, hbelow, hweight'⟩ :=
    step_closing h (hsame.trans hbrackets) bound middle
  rw [List.length_cons] at hmiddle
  refine ⟨n₃, middle + closing.utf8Size, hbelow, by omega, ?_⟩
  exact (scan_code_cons hquote (.inl hslash) hopen).trans
    (hinside.trans (scan_code_cons hquote' (.inl hslash') hclose))

theorem passes_balanced {ts : List (List Char)} (h : Balanced ts) (tokens : List (List Char)) :
    Passes bound (spaced (ts ++ tokens)) (spaced tokens) := by
  induction h generalizing tokens with
  | nil => exact .refl _
  | cons htoken _ ih =>
      exact (passes_quiet htoken _).trans ((passes_trailing _).trans (ih tokens))
  | @enclosed opening closing ts more hclosing _ _ ihinner ihmore =>
      rw [List.cons_append, List.append_assoc, List.cons_append]
      refine (passes_enclosed hclosing ?_).trans ((passes_trailing _).trans (ihmore tokens))
      exact (passes_trailing _).trans (ihinner _)

/-- A bound as great as the text is long suffices for balanced tokens. -/
theorem check_of_balanced {ts : List (List Char)} (h : Balanced ts)
    (hbound : (spaced ts).length ≤ bound) : check bound (spaced ts) = .ok () := by
  have hpasses : Passes bound (spaced (ts ++ [])) (spaced []) := passes_balanced h []
  rw [List.append_nil] at hpasses
  obtain ⟨n, stop, hsame, -, hscan⟩ := hpasses start 0 (by simpa [weight, start] using hbound)
  have hfinish : n.finish = .ok () := by
    rw [finish, hsame]
    rfl
  exact hscan.trans hfinish

end Nesting

end EmbeddedExpr.Grammar
