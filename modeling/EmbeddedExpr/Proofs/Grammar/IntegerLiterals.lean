import EmbeddedExpr.Proofs.Grammar.Numerals

/-!
# Integer literals

What is built of an integer in a source is the integer that is written there.  The magnitude of the
least signed integer is the only one that is built of a numeral and is no operand: nothing but a
minus directly in front of it makes one of it.  So everywhere else in a source, as every greater
magnitude everywhere, it keeps the source from being parsed (`integers_denote_their_numerals`).
-/

namespace EmbeddedExpr

open Number (Spells)

namespace Grammar

/-! ### What is built of integers -/

namespace Built

variable {bound : Nat} {b : Built} {span : Span}

/-- The tree is an operand of anything, and no literal. -/
structure IsInner (b : Built) : Prop where
  settled : b.minMagnitude = none
  ne_literal : ∀ span value, b.expr ≠ .literal span value

theorem node_isInner {expr : Expr} {below : Nat} (h : node bound expr below = .ok b)
    (hne : ∀ span value, expr ≠ .literal span value) : b.IsInner := by
  unfold node at h
  split at h
  · cases h
  · cases h
    exact ⟨rfl, hne⟩

theorem infixExpr_isInner {op : InfixOp} {left right : Expr} {below : Nat}
    (h : node bound (infixExpr span op left right) below = .ok b) : b.IsInner := by
  cases op with
  | logic | relation | arith => exact node_isInner h nofun

theorem expands_isInner {below : Nat} {target : Option Expr} {args : List Expr}
    {build : Nat → Except ParseError Built} (h : Expands span below target args build)
    (hbuild : build bound = .ok b) : b.IsInner := by
  cases h with
  | misuse => cases hbuild
  | has => exact node_isInner hbuild nofun
  | node _ hne => exact node_isInner hbuild hne

/-- A sign makes a literal only of a magnitude that waits for a minus. -/
theorem of_signed {start : Nat} {op : UnaryOp} {operand : Built}
    (h : signed bound start op operand = .ok b) :
    (op = .neg ∧ operand.minMagnitude.isSome = true ∧
        b = constant ⟨start, operand.expr.span.stop⟩ (.int Int64.minValue)) ∨
      b.IsInner := by
  simp only [signed] at h
  split at h
  · rename_i hleast
    cases h
    exact .inl ⟨hleast.1, hleast.2, rfl⟩
  · obtain ⟨c, -, h⟩ := of_bind_eq_ok h
    exact .inr (node_isInner h fun _ _ heq => by cases heq)

theorem settle_eq_ok_iff : b.settle = .ok b ↔ b.minMagnitude = none := by
  unfold settle
  split
  · rename_i hnone
    simp [hnone]
  · rename_i hsome
    simp [hsome]

end Built

namespace Phrase

variable {bound : Nat} {p q : Phrase} {b : Built}

/-- What is built of anything but a literal or a name is an inner node, unless the phrase is in
parentheses or a minus in front of the magnitude of the least integer. -/
theorem isInner_of_build (h : p.build bound = .ok b) (hgroup : ¬p.IsGroup)
    (hatom : ¬∃ span token, p = .atom span token) :
    b.IsInner ∨ ∃ start operand c, p = .sign start .neg operand ∧ operand.build bound = .ok c ∧
      c.minMagnitude.isSome = true ∧
        b = .constant ⟨start, c.expr.span.stop⟩ (.int Int64.minValue) := by
  cases p with
  | atom span token => exact absurd ⟨span, token, rfl⟩ hatom
  | group => exact absurd trivial hgroup
  | list =>
      obtain ⟨_, -, -, h⟩ := Built.of_settledAll_eq_ok h
      exact .inl (Built.node_isInner h nofun)
  | map =>
      obtain ⟨_, -, h⟩ := of_bind_eq_ok h
      exact .inl (Built.node_isInner h nofun)
  | call =>
      obtain ⟨_, -, -, h⟩ := Built.of_settledAll_eq_ok h
      exact .inl (Built.expands_isInner (Built.call_expands ..) h)
  | sign start op operand =>
      obtain ⟨c, hc, h⟩ := of_bind_eq_ok h
      rcases Built.of_signed h with ⟨rfl, hleast, rfl⟩ | hinner
      · exact .inr ⟨start, operand, c, rfl, hc, hleast, rfl⟩
      · exact .inl hinner
  | field =>
      obtain ⟨_, -, -, h⟩ := Built.of_settled_eq_ok h
      exact .inl (Built.node_isInner h nofun)
  | method =>
      obtain ⟨_, -, -, h⟩ := Built.of_settled_eq_ok h
      obtain ⟨_, -, -, h⟩ := Built.of_settledAll_eq_ok h
      exact .inl (Built.expands_isInner (Built.method_expands ..) h)
  | index =>
      obtain ⟨_, -, -, h⟩ := Built.of_settled_eq_ok h
      obtain ⟨_, -, -, h⟩ := Built.of_settled_eq_ok h
      exact .inl (Built.node_isInner h nofun)
  | infixed =>
      obtain ⟨_, -, -, h⟩ := Built.of_settled_eq_ok h
      obtain ⟨_, -, -, h⟩ := Built.of_settled_eq_ok h
      exact .inl (Built.infixExpr_isInner h)
  | choice =>
      obtain ⟨_, -, -, h⟩ := Built.of_settled_eq_ok h
      obtain ⟨_, -, -, h⟩ := Built.of_settled_eq_ok h
      obtain ⟨_, -, -, h⟩ := Built.of_settled_eq_ok h
      exact .inl (Built.node_isInner h nofun)

/-- Only an integer by itself, of the magnitude of the least one, waits for a minus. -/
theorem exists_int_of_minMagnitude (h : p.build bound = .ok b)
    (hleast : b.minMagnitude.isSome = true) : ∃ span hex digits text,
      p = .atom span (.int hex digits text) ∧ b.expr.span = span ∧
        Built.magnitude? hex digits = some 0x8000000000000000 := by
  have hsettled (hnone : b.minMagnitude = none) : False := by
    rw [hnone] at hleast
    cases hleast
  by_cases hgroup : p.IsGroup
  · cases p with
    | group =>
        obtain ⟨c, -, h⟩ := of_bind_eq_ok h
        obtain rfl := Built.settle_eq_ok h
        exact (hsettled (Built.settle_eq_ok_iff.mp h)).elim
    | _ => exact hgroup.elim
  by_cases hatom : ∃ span token, p = .atom span token
  · obtain ⟨span, token, rfl⟩ := hatom
    cases Built.leaf_of_ofToken h with
    | least hn => exact ⟨span, _, _, _, rfl, rfl, hn⟩
    | _ => cases hleast
  · rcases isInner_of_build h hgroup hatom with hinner | ⟨_, _, _, _, -, -, rfl⟩
    · exact (hsettled hinner.settled).elim
    · exact (hsettled rfl).elim

/-- The other phrase is the whole one, or stands in it other than directly behind a minus. -/
def StandsAlone (p q : Phrase) : Prop :=
  p = q ∨ ∃ r, p.Occurs r ∧ q ∈ r.parts ∧ ∀ start, r ≠ .sign start .neg q

theorem StandsAlone.exists_builds (h : p.StandsAlone q) (hb : p.Builds bound b) :
    ∃ c, q.Builds bound c := by
  rcases h with rfl | ⟨r, hr, hq, hsign⟩
  · exact ⟨b, hb⟩
  · obtain ⟨c, hc⟩ := hr.exists_build hb.build_eq
    obtain ⟨d, hd, hsettled⟩ := builds_of_mem_parts hc hq
    exact ⟨d, hd, hsettled hsign⟩

theorem StandsAlone.occurs (h : p.StandsAlone q) : p.Occurs q := by
  rcases h with rfl | ⟨r, hr, hq, -⟩
  · exact .whole p
  · induction hr with
    | whole => exact .inside hq (.whole q)
    | inside hr _ ih => exact .inside hr (ih hq)

end Phrase

end Grammar

/-! ### Nodes -/

/-- The integer of a literal is the only one that is written as the text at its span, and the text
begins with a minus just if it is the least integer. -/
def Expr.IsWritten (source : List Char) : Expr → Prop
  | .literal span (.int i) =>
    (∀ j, Grammar.WritesInt (Text.slice source span.start span.stop) j ↔ j = i) ∧
      ((Text.slice source span.start span.stop).head? = some '-' ↔ i = Int64.minValue)
  | .literal span (.uint u) =>
    ∀ v, Grammar.WritesUint (Text.slice source span.start span.stop) v ↔ v = u
  | _ => True

namespace Grammar

variable {bound : Nat} {source : List Char}

namespace Phrase.SpelledIn

variable {span : Span} {token : Token} {hex : Bool} {digits text : List Char} {n : Nat}

/-- A literal or a name is a lexeme of the source, which is the slice at its span. -/
theorem exists_next (h : (Phrase.atom span token).SpelledIn source) :
    ∃ (c : Cursor) (x : Lexeme) (d : Cursor), c.Next x d ∧ x.token? = some token ∧
      Text.slice source span.start span.stop = x.text := by
  obtain ⟨c, xs, d, hc, hp⟩ := h
  cases hp with
  | @atom x _ _ _ hx htoken => exact ⟨c, x, d, hx, htoken, hx.slice_eq hc⟩

theorem spells_int (h : (Phrase.atom span (.int hex digits text)).SpelledIn source)
    (hn : Built.magnitude? hex digits = some n) :
    Spells (Text.slice source span.start span.stop) n := by
  obtain ⟨c, x, d, hx, htoken, hslice⟩ := h.exists_next
  cases x with
  | literal _ taken =>
      cases htoken
      cases Scanner.scanned_of_literal (Scanner.literal_of_lexeme hx.lexeme_eq) with
      | int hmagnitude => exact hslice ▸ (Scanner.magnitude?_eq_some_iff hmagnitude).mp hn
  | name | mark => cases htoken

theorem writesUint {u : UInt64} (h : (Phrase.atom span (.uint hex digits text)).SpelledIn source)
    (hu : Built.magnitude? hex digits = some u.toNat) :
    WritesUint (Text.slice source span.start span.stop) u := by
  obtain ⟨c, x, d, hx, htoken, hslice⟩ := h.exists_next
  cases x with
  | literal _ taken =>
      cases htoken
      cases Scanner.scanned_of_literal (Scanner.literal_of_lexeme hx.lexeme_eq) with
      | uint hmagnitude hmark =>
          exact hslice ▸ .marked ((Scanner.magnitude?_eq_some_iff hmagnitude).mp hu) hmark
  | name | mark => cases htoken

/-- From a minus to the end of the operand behind it stand the minus and, behind layout, what stands
at the span of the operand. -/
theorem slice_sign {start : Nat}
    (h : (Phrase.sign start .neg (.atom span token)).SpelledIn source) :
    ∃ rest, Text.slice source start span.stop = '-' :: rest ∧
      behindLayout rest = Text.slice source span.start span.stop := by
  obtain ⟨c, xs, d, hc, hp⟩ := h
  cases hp with
  | @sign _ _ _ _ e _ hsign hoperand =>
      have he := hsign.run_skip.isIn hc
      cases hoperand with
      | @atom x _ _ _ hx htoken =>
          have hminus : '-' :: e.rest = c.skip.rest := Scanner.append_of_lexeme hsign.lexeme_eq
          have hlast : x.text ++ d.rest = e.skip.rest := by
            rw [← e.skip_skip]
            exact Scanner.append_of_lexeme hx.lexeme_eq
          obtain ⟨skipped, hrest, hoffset, hbehind⟩ := Cursor.exists_skipped hlast.symm
          obtain ⟨before, hsource, hbefore⟩ := hc.skip
          have hsplit : source = before ++ (('-' :: (skipped ++ x.text)) ++ d.rest) := by
            rw [hsource, ← hminus, hrest, List.cons_append, List.append_assoc]
          have hstop : d.offset =
              Text.byteLength before + Text.byteLength ('-' :: (skipped ++ x.text)) := by
            rw [hx.offset_eq, e.skip_skip, hoffset, hsign.offset_eq, hbefore, Text.byteLength_cons,
              Text.byteLength_append]
            simp only [Lexeme.text, Nat.add_assoc]
            rfl
          refine ⟨skipped ++ x.text, ?_, ?_⟩
          · rw [hbefore, hstop, hsplit, Text.slice_append]
          · rw [hx.slice_eq he, hbehind, settled_of_lexeme hx.lexeme_text]

end Phrase.SpelledIn

/-- The integers in what is built of a phrase in a source are those that are written there. -/
theorem isWritten_of_builds {p : Phrase} {b : Built} (hspelled : p.SpelledIn source)
    (hgroup : ¬p.IsGroup) (h : p.Builds bound b) : b.expr.IsWritten source := by
  have hint {span : Span} {i : Int64} (h : WritesInt (Text.slice source span.start span.stop) i) :
      (Expr.literal span (.int i)).IsWritten source :=
    ⟨fun j => ⟨fun hj => hj.unique h, fun hj => hj ▸ h⟩, h.minus_iff⟩
  by_cases hatom : ∃ span token, p = .atom span token
  · obtain ⟨span, token, rfl⟩ := hatom
    cases Built.leaf_of_ofToken h.build_eq with
    | int hn hi => exact hint (.numeral (hspelled.spells_int hn) hi)
    | least => cases h.settle_eq
    | uint hu =>
        have hwritten := hspelled.writesUint hu
        exact fun v => ⟨fun hv => hv.unique hwritten, fun hv => hv ▸ hwritten⟩
    | name | null | bool | double | text | bytes => trivial
  · rcases Phrase.isInner_of_build h.build_eq hgroup hatom with
      hinner | ⟨start, operand, c, rfl, hc, hleast, rfl⟩
    · unfold Expr.IsWritten
      split
      · rename_i hliteral
        exact absurd hliteral (hinner.ne_literal _ _)
      · rename_i hliteral
        exact absurd hliteral (hinner.ne_literal _ _)
      · trivial
    · obtain ⟨span, hex, digits, text, rfl, hspan, hn⟩ :=
        Phrase.exists_int_of_minMagnitude hc hleast
      obtain ⟨rest, hslice, hbehind⟩ := hspelled.slice_sign
      have hoperand := (hspelled.of_mem_parts List.mem_cons_self).spells_int hn
      rw [hspan]
      refine hint ?_
      rw [hslice]
      exact .least (hbehind ▸ hoperand)

/-! ### Sources -/

/-- No word holds the integer that the lexeme is, with or without a sign in front of it. -/
def Lexeme.Overflows (x : Lexeme) : Prop :=
  (∃ n, Spells x.text n ∧ 0x8000000000000000 < n) ∨
    ∃ text mark n, x.text = text ++ [mark] ∧ mark ∈ ['u', 'U'] ∧ Spells text n ∧
      0x10000000000000000 ≤ n

/-- What is built of a signed integer is at most the magnitude of the least one. -/
theorem le_of_ofToken_int {span : Span} {hex : Bool} {digits text : List Char} {b : Built} {n : Nat}
    (h : Built.ofToken span (.int hex digits text) = .ok b)
    (hn : Built.magnitude? hex digits = some n) :
    n ≤ 0x8000000000000000 ∧ (b.settle = .ok b → n ≠ 0x8000000000000000) := by
  cases Built.leaf_of_ofToken h with
  | @int _ _ _ m i hm hi =>
      obtain rfl : n = m := Option.some.inj (hn.symm.trans hm)
      have hlt := i.toInt_lt
      exact ⟨by omega, fun _ => by omega⟩
  | least hm =>
      obtain rfl := Option.some.inj (hn.symm.trans hm)
      exact ⟨Nat.le_refl _, nofun⟩

/-- The lexemes of a phrase that is built fit. -/
theorem Phrase.Spelled.not_overflows {p : Phrase} {xs : List Lexeme} {c d : Cursor} {b : Built}
    (h : p.Spelled c xs d) (hb : p.build bound = .ok b) : ∀ x ∈ xs, ¬x.Overflows := by
  intro x hx
  obtain ⟨c', d', hnext⟩ := h.run.exists_next hx
  rintro (⟨n, hn, hlt⟩ | ⟨text, mark, n, htext, hmark, hn, hle⟩)
  · obtain ⟨hex, run, heq, hmagnitude⟩ := hnext.int_of_spells hn
    obtain ⟨span, hoccurs⟩ := h.exists_occurs (heq ▸ hx)
    obtain ⟨a, ha⟩ := hoccurs.exists_build hb
    have hle := (le_of_ofToken_int ha hmagnitude).1
    omega
  · obtain ⟨hex, run, heq, hmagnitude⟩ := hnext.uint_of_spells htext hmark hn
    obtain ⟨span, hoccurs⟩ := h.exists_occurs (heq ▸ hx)
    obtain ⟨a, ha⟩ := hoccurs.exists_build hb
    cases Built.leaf_of_ofToken ha with
    | @uint _ _ _ u hu =>
        have hlt := u.toNat_lt
        obtain rfl := Option.some.inj (hmagnitude.symm.trans hu)
        omega

/-- Integers mean what they say.  The integer of every node in the tree of a source is what the
source has at its span, with a minus just for the least one.  A source in which a lexeme overflows
is not parsed, and no more is one in which the magnitude of the least integer stands anywhere but
directly behind a minus. -/
theorem integers_denote_their_numerals :
    (∀ e, parse bound source = .ok e → e.All (Expr.IsWritten source)) ∧
      (∀ xs, Lexed source xs → (∃ x ∈ xs, x.Overflows) → ∀ e, parse bound source ≠ .ok e) ∧
      ∀ p span token, Phrase.read? source = some p → p.StandsAlone (.atom span token) →
        Spells (Text.slice source span.start span.stop) 0x8000000000000000 →
        ∀ e, parse bound source ≠ .ok e := by
  refine ⟨fun e h => all_of_parse (fun p hspelled _ hgroup b hb => ?_) h, ?_, ?_⟩
  · exact isWritten_of_builds hspelled hgroup hb
  · rintro xs hxs ⟨x, hx, hover⟩ e h
    obtain ⟨p, b, hp, hb, -⟩ := builds_of_parse h
    obtain ⟨ys, d, hys, hspelled⟩ := Phrase.lexed_of_read? hp
    obtain rfl := hxs.unique hys
    exact hspelled.not_overflows hb.build_eq x hx hover
  · intro p span token hp halone hleast e h
    obtain ⟨p', b, hp', hb, -⟩ := builds_of_parse h
    obtain rfl := Option.some.inj (hp.symm.trans hp')
    obtain ⟨a, ha⟩ := halone.exists_builds hb
    obtain ⟨c, x, d, hx, htoken, hslice⟩ :=
      ((Phrase.spelledIn_of_read? hp).of_occurs halone.occurs).exists_next
    obtain ⟨hex, run, heq, hmagnitude⟩ := hx.int_of_spells (hslice ▸ hleast)
    rw [heq] at htoken
    cases htoken
    exact (le_of_ofToken_int ha.build_eq hmagnitude).2 ha.settle_eq rfl

/-- `[-9223372036854775808]` has the least integer for its item, which is written with its minus.
Without the minus it is not parsed, and no more is it with an unsigned integer above all words. -/
theorem integers_denote_their_numerals_inList :
    (∃ e, parse 2 "[-9223372036854775808]".toList = .ok e ∧
        e.All (Expr.IsWritten "[-9223372036854775808]".toList)) ∧
      (∀ e, parse 2 "[9223372036854775808]".toList ≠ .ok e) ∧
      ∀ e, parse 2 "[18446744073709551616u]".toList ≠ .ok e := by
  refine ⟨?_, ?_, ?_⟩
  · have hparse : ∃ e, parse 2 "[-9223372036854775808]".toList = .ok e := ⟨_, rfl⟩
    obtain ⟨e, he⟩ := hparse
    exact ⟨e, he, integers_denote_their_numerals.1 e he⟩
  · let magnitude : Phrase := .atom ⟨1, 20⟩
      (.int false "9223372036854775808".toList "9223372036854775808".toList)
    have hread : Phrase.read? "[9223372036854775808]".toList = some (.list ⟨0, 21⟩ [magnitude]) :=
      rfl
    have halone : (Phrase.list ⟨0, 21⟩ [magnitude]).StandsAlone magnitude :=
      .inr ⟨_, .whole _, List.mem_cons_self, nofun⟩
    have hleast : Spells "9223372036854775808".toList 0x8000000000000000 :=
      (Number.spells_decimal_iff (by decide) (by decide)).mpr (by decide +kernel)
    exact integers_denote_their_numerals.2.2 _ _ _ hread halone hleast
  · let integer : List Char := "18446744073709551616u".toList
    have hlexed : Lexed "[18446744073709551616u]".toList [.mark ['['],
        .literal (.uint false "18446744073709551616".toList integer) integer, .mark [']']] :=
      .cons rfl (.cons rfl (.cons rfl (.nil rfl)))
    have hover : Spells "18446744073709551616".toList 0x10000000000000000 :=
      (Number.spells_decimal_iff (by decide) (by decide)).mpr (by decide +kernel)
    have hoverflows : (Lexeme.literal (.uint false "18446744073709551616".toList integer)
        integer).Overflows := .inr ⟨_, 'u', _, rfl, by decide, hover, Nat.le_refl _⟩
    exact integers_denote_their_numerals.2.1 _ hlexed ⟨_, by simp, hoverflows⟩

end Grammar

end EmbeddedExpr
