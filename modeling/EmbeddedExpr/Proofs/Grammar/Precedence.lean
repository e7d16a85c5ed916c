import EmbeddedExpr.Proofs.Grammar.Operations
import EmbeddedExpr.Proofs.Grammar.Weight
import EmbeddedExpr.Proofs.Value.ReadBack

/-!
# Precedence

An operation whose text has only the parentheses that the table of precedence requires is parsed
to the tree that was written (`parse_sparse`), and so it is with any further parentheses: they
are read, but they leave no trace in the tree.

The scan of the nesting lets the text pass if the bound is no less than its length.  The whole
text is read as one phrase, and what building makes of it keeps to every bound that the height of
the tree keeps to.
-/

namespace EmbeddedExpr.Grammar

variable {bound : Nat} {e : Expr}

theorem length_le_length_spaced (ts : List (List Char)) : ts.length ≤ (spaced ts).length + 1 := by
  cases ts with
  | nil => exact Nat.zero_le _
  | cons token rest =>
      have hle : rest.length ≤ (trailing rest).length :=
        count_le_length_flatMap fun _ _ => Nat.le_add_left 1 _
      rw [spaced, List.length_append, List.length_cons]
      omega

/-- What is taken to the end is the whole source. -/
theorem read?_of_takes {ts : List (List Char)} {good : Phrase → Prop} (hleads : Leads IsToken ts)
    (h : Reader.Takes (Reader.phrase ((spaced ts).length + 1)) (spaced ts) [] good) :
    ∃ p, Phrase.read? (spaced ts) = some p ∧ good p := by
  have hsource : Reader.Takes (Reader.source ((spaced ts).length + 1)) (spaced ts) [] good := by
    refine Reader.Takes.tried (Reader.takes_layout (.inl rfl) hleads ?_) _
    refine h.bind fun p hp middle hmiddle => Reader.takes_layout hmiddle nofun ?_
    exact reads_endOfInput.bind_takes fun _ _ => Reader.takes_pure (.inl rfl) hp
  obtain ⟨p, stop, after, hread, -, hp⟩ := hsource 0
  exact ⟨p, by rw [Phrase.read?, readSource, hread, Option.map_some], hp⟩

/-- The whole text of an operation is a phrase that means the operation. -/
theorem read?_tokens (extra : Expr → Bool) (hall : e.All IsOperation) :
    ∃ p, Phrase.read? (spaced (tokens extra e)) = some p ∧ p.Means e := by
  have hleads : Leads IsToken (tokens extra e ++ []) :=
    leads_isToken_of_part (p := ⟨false, e⟩) hall []
  have hphrase := readsUpTo_phrase extra _ ⟨false, e⟩ hall (length_le_length_spaced _) [] nofun
  rw [List.append_nil] at hleads hphrase
  exact read?_of_takes hleads hphrase

/-- Whatever parentheses it has besides the required ones, the text of an operation is parsed to
the operation. -/
theorem parse_tokens (extra : Expr → Bool) (hall : e.All IsOperation) (hheight : e.height ≤ bound)
    (hlength : (spaced (tokens extra e)).length ≤ bound) :
    ∃ tree, parse bound (spaced (tokens extra e)) = .ok tree ∧ tree.sameShape e = true := by
  have hcheck := Nesting.check_of_balanced (balanced_tokens extra hall) hlength
  obtain ⟨p, hread, hp⟩ := read?_tokens extra hall
  obtain ⟨b, hbuild, hshows⟩ := hp bound hheight
  refine ⟨b.expr, ?_, hshows.sameShape⟩
  rw [parse, bind_of_ok hcheck]
  simp only [hread]
  rw [bind_of_ok hbuild, bind_of_ok hshows.settle]

/-- The text of an operation with the required parentheses only and its text with any further
ones, up to those around every part, are parsed to the operation by every bound from a certain
one on. -/
theorem parse_sparse (hall : e.All IsOperation) (extra : Expr → Bool) :
    ∃ limit, ∀ bound, limit ≤ bound → ∃ tree tree',
      parse bound (spaced (tokens (fun _ => false) e)) = .ok tree ∧
        parse bound (spaced (tokens extra e)) = .ok tree' ∧
          tree.sameShape e = true ∧ tree'.sameShape e = true := by
  refine ⟨max e.height (max (spaced (tokens (fun _ => false) e)).length
    (spaced (tokens extra e)).length), fun bound hlimit => ?_⟩
  obtain ⟨hheight, hlengths⟩ := Nat.max_le.mp hlimit
  obtain ⟨hsparse, hextra⟩ := Nat.max_le.mp hlengths
  obtain ⟨tree, hparse, hshape⟩ := parse_tokens (fun _ => false) hall hheight hsparse
  obtain ⟨tree', hparse', hshape'⟩ := parse_tokens extra hall hheight hextra
  exact ⟨tree, tree', hparse, hparse', hshape, hshape'⟩

/-- A choice as the condition of a choice, a difference to the right of a minus sign, and a sign
before a member call. -/
theorem parse_sparse_choices :
    let s : Span := ⟨0, 0⟩
    let a : Expr := .ident s "a"
    let b : Expr := .ident s "b"
    let c : Expr := .ident s "c"
    let e : Expr := .ternary s (.ternary s a b c) (.arith s .sub a (.arith s .sub b c))
      (.unary s .neg (.method s a "f" [b]))
    e.All IsOperation ∧ ∃ limit, ∀ bound, limit ≤ bound → ∃ tree tree',
      parse bound "( a ? b : c ) ? a - ( b - c ) : - a . f ( b )".toList = .ok tree ∧
        parse bound ("( ( a ) ? ( b ) : ( c ) ) ? ( ( a ) - ( ( b ) - ( c ) ) ) : " ++
          "( - ( ( a ) . f ( ( b ) ) ) )").toList = .ok tree' ∧
          tree.sameShape e = true ∧ tree'.sameShape e = true := by
  intro s a b c e
  have ha : a.All IsOperation := .node ⟨'a', [], rfl, .inl (by decide), nofun, by decide⟩ nofun
  have hb : b.All IsOperation := .node ⟨'b', [], rfl, .inl (by decide), nofun, by decide⟩ nofun
  have hc : c.All IsOperation := .node ⟨'c', [], rfl, .inl (by decide), nofun, by decide⟩ nofun
  have hf : IsName "f" := ⟨'f', [], rfl, .inl (by decide), nofun, by decide⟩
  have hcondition : (Expr.ternary s a b c).All IsOperation :=
    .node trivial (by simp [Expr.operands, ha, hb, hc])
  have hdifference : (Expr.arith s .sub b c).All IsOperation :=
    .node trivial (by simp [Expr.operands, hb, hc])
  have hdifferences : (Expr.arith s .sub a (.arith s .sub b c)).All IsOperation :=
    .node trivial (by simp [Expr.operands, ha, hdifference])
  have hcall : (Expr.method s a "f" [b]).All IsOperation :=
    .node ⟨hf, by decide⟩ (by simp [Expr.operands, ha, hb])
  have hsign : (Expr.unary s .neg (.method s a "f" [b])).All IsOperation :=
    .node trivial (by simp [Expr.operands, hcall])
  have he : e.All IsOperation :=
    .node trivial (by simp [e, Expr.operands, hcondition, hdifferences, hsign])
  exact ⟨he, parse_sparse he fun _ => true⟩

end EmbeddedExpr.Grammar
