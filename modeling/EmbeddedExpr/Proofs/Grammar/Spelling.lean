import EmbeddedExpr.Proofs.Grammar.Chain
import EmbeddedExpr.Proofs.Grammar.Laid

/-!
# How phrases are spelled

A phrase is spelled by the lexemes between two places of a source: by those of its parts in turn,
with its own marks between them (`Phrase.Spelled`).  Which parts may stand where is a matter of how
tightly they bind: what is looser than its place asks for would have to be in parentheses.  The
offsets of a phrase are those of its lexemes, so that its span reaches from the first lexeme to the
place behind the last one, except for parentheses at its ends.

Operands that follow each other with links between them are put together as `Phrase.chain` says, and
what comes out is spelled by all of their lexemes (`Phrase.Spelled.attachOp`).  The other way
round, a spelled phrase is a chain of operands (`Phrase.Spelled.exists_strung`), an operand is made
of signs and a target (`Phrase.Spelled.exists_signed`), and a target is what is selected from a
base (`Phrase.Spelled.exists_selected`).
-/

namespace EmbeddedExpr.Grammar

open Scanner (lexeme Ends)

/-! ### Lexemes in a source -/

namespace Cursor

variable {c c' d : Cursor} {x : Lexeme}

theorem skip_eq_self (h : behindLayout c.rest = c.rest) : c.skip = c := by
  obtain ⟨skipped, rest, happend, hskip⟩ := skipFrom_eq_advance false c.offset c.rest
  have hrest : rest = c.rest := by
    rw [← h, ← c.rest_skip, skip, hskip]
    rfl
  subst hrest
  obtain rfl := List.append_left_eq_self.mp happend
  exact hskip

theorem skip_skip (c : Cursor) : c.skip.skip = c.skip :=
  skip_eq_self (by rw [c.rest_skip, behindLayout_behindLayout])

/-- The next lexeme, behind layout, and the place directly behind it.  What stands there does not
continue the lexeme. -/
structure Next (c : Cursor) (x : Lexeme) (d : Cursor) : Prop where
  lexeme_eq : lexeme c.skip.rest = some (x, d.rest)
  offset_eq : d.offset = c.skip.offset + Text.byteLength x.text
  ends : (∀ m, x ≠ .mark m) → Ends d.rest

theorem Next.congr (h : c.Next x d) (heq : c.skip = c'.skip) : c'.Next x d :=
  ⟨heq ▸ h.lexeme_eq, heq ▸ h.offset_eq, h.ends⟩

end Cursor

/-- The token of a lexeme that is an operand by itself. -/
def Lexeme.token? : Lexeme → Option Token
  | literal token _ => some token
  | name text => some (.name text)
  | mark _ => none

/-- A part of a source and what stands there. -/
structure Piece (α : Type) where
  value : α
  start : Cursor
  lexemes : List Lexeme
  stop : Cursor

/-- A key, a colon and a value. -/
def Piece.entry {α β : Type} (e : Piece α × Piece β) : Piece (α × β) :=
  ⟨(e.1.value, e.2.value), e.1.start, e.1.lexemes ++ .mark [':'] :: e.2.lexemes, e.2.stop⟩

section Rows

variable {α : Type}

/-- Pieces with commas between them; a comma may stand behind the last one. -/
inductive Row : List (Piece α) → Cursor → List Lexeme → Cursor → Prop
  | nil (c : Cursor) : Row [] c [] c
  | last (piece : Piece α) : Row [piece] piece.start piece.lexemes piece.stop
  | cons {piece : Piece α} {pieces : List (Piece α)} {xs : List Lexeme} {c d : Cursor} :
      piece.stop.Next (.mark [',']) c → Row pieces c.skip xs d →
      Row (piece :: pieces) piece.start (piece.lexemes ++ .mark [','] :: xs) d

/-- A row of pieces between brackets. -/
inductive Boxed (opening closing : Char) : List (Piece α) → Cursor → List Lexeme → Cursor → Prop
  | intro {pieces : List (Piece α)} {xs : List Lexeme} {c d e f : Cursor} :
      c.Next (.mark [opening]) d → Row pieces d.skip xs e → e.Next (.mark [closing]) f →
      Boxed opening closing pieces c (.mark [opening] :: (xs ++ [.mark [closing]])) f

end Rows

/-! ### Spelled phrases -/

namespace Phrase

/-- The phrase can be selected from without parentheses. -/
def IsTarget : Phrase → Prop
  | sign .. | infixed .. | choice .. => False
  | _ => True

/-- The phrase is in parentheses. -/
def IsGroup : Phrase → Prop
  | group _ => True
  | _ => False

theorem IsTarget.level_eq {p : Phrase} (h : p.IsTarget) : p.level = 6 := by
  cases p with
  | sign | infixed | choice => exact h.elim
  | _ => rfl

/-- The phrase is spelled by the lexemes between two places.  A field ends behind the layout that
follows its name. -/
inductive Spelled : Phrase → Cursor → List Lexeme → Cursor → Prop
  | atom {x : Lexeme} {token : Token} {c d : Cursor} : c.Next x d → x.token? = some token →
      Spelled (.atom ⟨c.skip.offset, d.offset⟩ token) c [x] d
  | group {inner : Phrase} {xs : List Lexeme} {c d e f : Cursor} : c.Next (.mark ['(']) d →
      Spelled inner d.skip xs e → e.Next (.mark [')']) f →
      Spelled (.group inner) c (.mark ['('] :: (xs ++ [.mark [')']])) f
  | list {items : List (Piece Phrase)} {xs : List Lexeme} {c d : Cursor} :
      Boxed '[' ']' items c xs d →
      (∀ item ∈ items, Spelled item.value item.start item.lexemes item.stop) →
      Spelled (.list ⟨c.skip.offset, d.offset⟩ (items.map Piece.value)) c xs d
  | map {entries : List (Piece Phrase × Piece Phrase)} {xs : List Lexeme} {c d : Cursor} :
      Boxed '\x7b' '\x7d' (entries.map Piece.entry) c xs d →
      (∀ e ∈ entries, ∃ f, e.1.stop.Next (.mark [':']) f ∧ e.2.start = f.skip) →
      (∀ e ∈ entries, Spelled e.1.value e.1.start e.1.lexemes e.1.stop) →
      (∀ e ∈ entries, Spelled e.2.value e.2.start e.2.lexemes e.2.stop) →
      Spelled (.map ⟨c.skip.offset, d.offset⟩ (entries.map fun e => (e.1.value, e.2.value))) c xs d
  | call {function : List Char} {args : List (Piece Phrase)} {xs : List Lexeme} {c d e : Cursor} :
      c.Next (.name function) d → Boxed '(' ')' args d.skip xs e →
      (∀ arg ∈ args, Spelled arg.value arg.start arg.lexemes arg.stop) →
      Spelled (.call ⟨c.skip.offset, e.offset⟩ function (args.map Piece.value)) c
        (.name function :: xs) e
  | sign {op : UnaryOp} {operand : Phrase} {xs : List Lexeme} {c d e : Cursor} :
      c.Next (.mark op.symbol.toList) d → Spelled operand d.skip xs e → operand.level = 6 →
      Spelled (.sign c.skip.offset op operand) c (.mark op.symbol.toList :: xs) e
  | field {target : Phrase} {name : List Char} {xs : List Lexeme} {c d e f : Cursor} :
      Spelled target c xs d → target.IsTarget → d.Next (.mark ['.']) e → e.Next (.name name) f →
      Spelled (.field target name f.skip.offset) c (xs ++ [.mark ['.'], .name name]) f.skip
  | method {target : Phrase} {name : List Char} {args : List (Piece Phrase)}
      {xs ys : List Lexeme} {c d e f g : Cursor} :
      Spelled target c xs d → target.IsTarget → d.Next (.mark ['.']) e → e.Next (.name name) f →
      Boxed '(' ')' args f.skip ys g →
      (∀ arg ∈ args, Spelled arg.value arg.start arg.lexemes arg.stop) →
      Spelled (.method target name (args.map Piece.value) g.offset) c
        (xs ++ .mark ['.'] :: .name name :: ys) g
  | index {target position : Phrase} {xs ys : List Lexeme} {c d e f g : Cursor} :
      Spelled target c xs d → target.IsTarget → d.Next (.mark ['[']) e →
      Spelled position e.skip ys f → f.Next (.mark [']']) g →
      Spelled (.index target position g.offset) c
        (xs ++ .mark ['['] :: (ys ++ [.mark [']']])) g
  | infixed {op : InfixOp} {left right : Phrase} {xs ys : List Lexeme} {c d e f : Cursor} :
      Spelled left c xs d → d.Next (.mark op.symbol) e → Spelled right e.skip ys f →
      op.level ≤ left.level → op.level < right.level →
      Spelled (.infixed op left right) c (xs ++ .mark op.symbol :: ys) f
  | choice {condition whenTrue whenFalse : Phrase} {xs ys zs : List Lexeme}
      {c d e f g h : Cursor} :
      Spelled condition c xs d → d.Next (.mark ['?']) e → Spelled whenTrue e.skip ys f →
      f.Next (.mark [':']) g → Spelled whenFalse g.skip zs h → 0 < condition.level →
      Spelled (.choice condition whenTrue whenFalse) c
        (xs ++ .mark ['?'] :: (ys ++ .mark [':'] :: zs)) h

/-- The piece is a phrase with its lexemes. -/
def IsSpelled (piece : Piece Phrase) : Prop :=
  piece.value.Spelled piece.start piece.lexemes piece.stop

namespace Spelled

variable {p right : Phrase} {op : InfixOp} {xs ys : List Lexeme} {c c' d d' e f : Cursor}

theorem ne_nil (h : p.Spelled c xs d) : xs ≠ [] := by
  cases h with
  | list hboxed | map hboxed => cases hboxed; exact List.cons_ne_nil _ _
  | atom | group | call | sign => exact List.cons_ne_nil _ _
  | field | method | index | infixed | choice => simp

/-! ### Links -/

theorem lt_level_attachOp {lower : Nat} (hlevel : lower < op.level) (h : lower < p.level) :
    lower < (attachOp op right p).level := by
  cases p with
  | infixed q left last =>
      rw [attachOp]
      split
      · exact h
      · exact hlevel
  | choice => exact absurd h (Nat.not_lt_zero _)
  | _ => exact hlevel

theorem attachOp (h : p.Spelled c xs d) (hop : d.Next (.mark op.symbol) e)
    (hright : right.Spelled e.skip ys f) (hlevel : right.level = 6) :
    (attachOp op right p).Spelled c (xs ++ .mark op.symbol :: ys) f := by
  have htight : op.level < right.level := hlevel ▸ op.level_lt
  fun_induction Phrase.attachOp op right p generalizing c xs d with
  | case1 q left last hlt ih =>
      -- the operator belongs to the right operand of the one before
      cases h with
      | infixed hleft hq hlast hle hlt' =>
          rw [List.append_assoc, List.cons_append]
          exact .infixed hleft hq (ih hlast hop) hle (lt_level_attachOp hlt hlt')
  | case2 q left last hle => exact .infixed h hop hright (Nat.le_of_not_lt hle) htight
  | case3 c t f ih =>
      cases h with
      | choice hc hquestion ht hcolon hf hpos =>
          rw [List.append_assoc, List.cons_append, List.append_assoc, List.cons_append]
          exact .choice hc hquestion ht hcolon (ih hf hop) hpos
  | case4 p hinfixed hchoice =>
      have hoperand : p.level = 6 := by
        cases p with
        | infixed q left last => exact absurd rfl (hinfixed q left last)
        | choice c t f => exact absurd rfl (hchoice c t f)
        | _ => rfl
      exact .infixed h hop hright (hoperand ▸ Nat.le_of_lt op.level_lt) htight

theorem attachChoice {whenTrue : Phrase} {zs : List Lexeme} {g i : Cursor}
    (h : p.Spelled c xs d) (hquestion : d.Next (.mark ['?']) e)
    (htrue : whenTrue.Spelled e.skip ys f) (hcolon : f.Next (.mark [':']) g)
    (hright : right.Spelled g.skip zs i) :
    (attachChoice whenTrue right p).Spelled c
      (xs ++ .mark ['?'] :: (ys ++ .mark [':'] :: zs)) i := by
  fun_induction Phrase.attachChoice whenTrue right p generalizing c xs d with
  | case1 c t f ih =>
      cases h with
      | choice hc hquestion' ht hcolon' hf hpos =>
          rw [List.append_assoc, List.cons_append, List.append_assoc, List.cons_append]
          exact .choice hc hquestion' ht hcolon' (ih hf hquestion) hpos
  | case2 p hchoice =>
      have hpos : 0 < p.level := by
        cases p with
        | infixed q _ _ => exact q.level_pos
        | choice c t f => exact absurd rfl (hchoice c t f)
        | _ => exact Nat.succ_pos 5
      exact .choice h hquestion htrue hcolon hright hpos

end Spelled

end Phrase

/-! ### Phrases taken apart -/

/-- A selection is spelled by its lexemes. -/
inductive Selection.Spelled : Selection → List Lexeme → Prop
  | field {name : List Char} {stop : Nat} {c d : Cursor} : c.Next (.name name) d →
      Spelled (.field name stop) [.mark ['.'], .name name]
  | method {name : List Char} {args : List (Piece Phrase)} {stop : Nat} {xs : List Lexeme}
      {c d e : Cursor} : c.Next (.name name) d → Boxed '(' ')' args d.skip xs e →
      (∀ arg ∈ args, Phrase.IsSpelled arg) →
      Spelled (.method name (args.map Piece.value) stop) (.mark ['.'] :: .name name :: xs)
  | index {position : Phrase} {stop : Nat} {xs : List Lexeme} {c d : Cursor} :
      position.Spelled c xs d →
      Spelled (.index position stop) (.mark ['['] :: (xs ++ [.mark [']']]))

/-- A link is spelled by its lexemes. -/
inductive Link.Spelled : Link → List Lexeme → Prop
  | op (op : InfixOp) : Spelled (.op op) [.mark op.symbol]
  | choice {t : Phrase} {xs : List Lexeme} {c d : Cursor} : t.Spelled c xs d →
      Spelled (.choice t) (.mark ['?'] :: (xs ++ [.mark [':']]))

/-- A link and the operand behind it are spelled by their lexemes. -/
def Link.IsSpelled (link : (Link × Phrase) × List Lexeme) : Prop :=
  ∃ xs ys c d, link.1.1.Spelled xs ∧ link.1.2.Spelled c ys d ∧ link.1.2.level = 6 ∧
    link.2 = xs ++ ys

namespace Phrase

/-- The phrase is neither signed, selected nor linked. -/
def IsBase : Phrase → Prop
  | atom .. | group .. | list .. | map .. | call .. => True
  | _ => False

/-- The phrase is what is selected from the base. -/
structure Selected (p base : Phrase) (selections : List (Selection × List Lexeme)) : Prop where
  isBase : base.IsBase
  foldl_eq : (selections.map Prod.fst).foldl select base = p
  spelled : ∀ selection ∈ selections, selection.1.Spelled selection.2

/-- The phrase is the chain of the first operand and the links behind it. -/
structure Strung (p first : Phrase) (links : List ((Link × Phrase) × List Lexeme)) : Prop where
  level_eq : first.level = 6
  chain_eq : chain first (links.map Prod.fst) = p
  spelled : ∀ link ∈ links, Link.IsSpelled link
  level_le : ∀ link ∈ links, p.level ≤ link.1.1.level

theorem Selected.snoc {p base : Phrase} {selections : List (Selection × List Lexeme)}
    {s : Selection} {xs : List Lexeme} (h : p.Selected base selections) (hs : s.Spelled xs) :
    (p.select s).Selected base (selections ++ [(s, xs)]) := by
  refine ⟨h.isBase, ?_, List.forall_mem_append.mpr ⟨h.spelled, List.forall_mem_singleton.mpr hs⟩⟩
  rw [List.map_append, List.foldl_append, h.foldl_eq]
  rfl

namespace Strung

variable {p right first second : Phrase} {before after : List ((Link × Phrase) × List Lexeme)}
  {xs ys : List Lexeme} {c d : Cursor}

theorem infixed {op : InfixOp} (h : p.Strung first before) (hright : right.Strung second after)
    (hsecond : second.Spelled c xs d) (hle : op.level ≤ p.level) (hlt : op.level < right.level) :
    (Phrase.infixed op p right).Strung first
      (before ++ ((.op op, second), .mark op.symbol :: xs) :: after) := by
  have hafter : ∀ link ∈ after, op.level < link.1.1.level :=
    fun link hlink => Nat.lt_of_lt_of_le hlt (hright.level_le link hlink)
  refine ⟨h.level_eq, ?_, List.forall_mem_append.mpr ⟨h.spelled, List.forall_mem_cons.mpr ⟨?_,
    hright.spelled⟩⟩, List.forall_mem_append.mpr ⟨?_, List.forall_mem_cons.mpr ⟨Nat.le_refl _, ?_⟩⟩⟩
  · rw [List.map_append, List.map_cons, chain_at_op, h.chain_eq, hright.chain_eq]
    · rw [h.chain_eq]
      exact hle
    · exact List.forall_mem_map.mpr hafter
  · exact ⟨_, xs, c, d, .op op, hsecond, hright.level_eq, rfl⟩
  · exact fun link hlink => Nat.le_trans hle (h.level_le link hlink)
  · exact fun link hlink => Nat.le_of_lt (hafter link hlink)

theorem choice {t : Phrase} {link : List Lexeme} (h : p.Strung first before)
    (hright : right.Strung second after) (hsecond : second.Spelled c xs d)
    (ht : (Link.choice t).Spelled link) (hpos : 0 < p.level) :
    (Phrase.choice p t right).Strung first
      (before ++ ((.choice t, second), link ++ xs) :: after) := by
  refine ⟨h.level_eq, ?_, List.forall_mem_append.mpr ⟨h.spelled, List.forall_mem_cons.mpr ⟨?_,
    hright.spelled⟩⟩, fun _ _ => Nat.zero_le _⟩
  · rw [List.map_append, List.map_cons, chain_at_choice, h.chain_eq, hright.chain_eq]
    rw [h.chain_eq]
    exact hpos
  · exact ⟨link, xs, c, d, ht, hsecond, hright.level_eq, rfl⟩

end Strung

namespace Spelled

variable {p : Phrase} {xs : List Lexeme} {c d : Cursor}

theorem exists_selected (h : p.Spelled c xs d) (htarget : p.IsTarget) :
    ∃ base ys e selections, base.Spelled c ys e ∧ p.Selected base selections ∧
      xs = ys ++ selections.flatMap Prod.snd := by
  induction hn : xs.length using Nat.strong_induction_on generalizing p xs d with
  | _ n ih
  by_cases hbase : p.IsBase
  · exact ⟨p, xs, d, [], h, ⟨hbase, rfl, nofun⟩, (List.append_nil xs).symm⟩
  cases h with
  | sign | infixed | choice => exact htarget.elim
  | field hp ht _ hname =>
      obtain ⟨base, ys, e, selections, hbase, hselected, rfl⟩ := ih _ (by simp [← hn]) hp ht rfl
      exact ⟨base, ys, e, _, hbase, hselected.snoc (.field hname), by simp⟩
  | method hp ht _ hname hboxed hargs =>
      obtain ⟨base, ys, e, selections, hbase, hselected, rfl⟩ := ih _ (by simp [← hn]) hp ht rfl
      exact ⟨base, ys, e, _, hbase, hselected.snoc (.method hname hboxed hargs), by simp⟩
  | index hp ht _ hposition _ =>
      obtain ⟨base, ys, e, selections, hbase, hselected, rfl⟩ := ih _ (by simp [← hn]) hp ht rfl
      exact ⟨base, ys, e, _, hbase, hselected.snoc (.index hposition), by simp⟩
  | _ => exact absurd trivial hbase

theorem exists_signed (h : p.Spelled c xs d) (hlevel : p.level = 6) :
    ∃ signs target e ys, target.Spelled e ys d ∧ target.IsTarget ∧ signed signs target = p ∧
      xs = signs.map (fun s => .mark s.2.symbol.toList) ++ ys := by
  induction hn : xs.length using Nat.strong_induction_on generalizing p xs c with
  | _ n ih
  by_cases htarget : p.IsTarget
  · exact ⟨[], p, c, xs, h, htarget, rfl, rfl⟩
  cases h with
  | infixed => exact absurd hlevel (Nat.ne_of_lt (InfixOp.level_lt _))
  | choice => exact absurd hlevel (by decide : 0 ≠ 6)
  | @sign op _ _ _ _ _ _ hoperand hoperandLevel =>
      obtain ⟨signs, target, e, ys, hspelled, hisTarget, rfl, rfl⟩ :=
        ih _ (by simp [← hn]) hoperand hoperandLevel rfl
      exact ⟨(c.skip.offset, op) :: signs, target, e, ys, hspelled, hisTarget, rfl, rfl⟩
  | _ => exact absurd trivial htarget

theorem exists_strung (h : p.Spelled c xs d) :
    ∃ first ys e links, first.Spelled c ys e ∧ p.Strung first links ∧
      xs = ys ++ links.flatMap Prod.snd := by
  induction hn : xs.length using Nat.strong_induction_on generalizing p xs c d with
  | _ n ih
  by_cases hlevel : p.level = 6
  · exact ⟨p, xs, d, [], h, ⟨hlevel, rfl, nofun, nofun⟩, (List.append_nil xs).symm⟩
  cases h with
  | infixed hleft _ hright hle hlt =>
      obtain ⟨first, ys, e, before, hfirst, hstrung, rfl⟩ := ih _ (by simp [← hn]) hleft rfl
      obtain ⟨second, zs, f, after, hsecond, hstrung', rfl⟩ :=
        ih _ (by simp [← hn]; omega) hright rfl
      exact ⟨first, ys, e, _, hfirst, hstrung.infixed hstrung' hsecond hle hlt, by simp⟩
  | choice hcondition _ ht _ hfalse hpos =>
      obtain ⟨first, ys, e, before, hfirst, hstrung, rfl⟩ := ih _ (by simp [← hn]) hcondition rfl
      obtain ⟨second, zs, f, after, hsecond, hstrung', rfl⟩ :=
        ih _ (by simp [← hn]; omega) hfalse rfl
      exact ⟨first, ys, e, _, hfirst, hstrung.choice hstrung' hsecond (.choice ht) hpos, by simp⟩
  | _ => exact absurd rfl hlevel

end Spelled

end Phrase

end EmbeddedExpr.Grammar
