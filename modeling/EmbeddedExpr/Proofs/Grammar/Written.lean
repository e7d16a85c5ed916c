import EmbeddedExpr.Grammar.Build
import EmbeddedExpr.Proofs.Grammar.Spaced
import EmbeddedExpr.Proofs.Syntax.Operands

/-!
# Operations as they are written

The tokens of an expression that is made of names, operators and selections, with as few
parentheses as the table of precedence allows or with more.  A part of an expression stands where
some tightness is expected of it; it is in parentheses if it binds looser, or if `extra` wants
them.

Reading takes such a text apart differently than the tree is built: into a first operand and the
links after it, an operand into its signs and what they stand before, and this into a base and
the selections from it.  `Spine`, `Signed` and `Selected` say how the parts of a tree form these
sequences, and the tokens of the tree are those of the sequence in each case.
-/

namespace EmbeddedExpr.Grammar

/-- The text of an infix operator. -/
def InfixOp.symbol : InfixOp → List Char
  | logic op => op.symbol.toList
  | relation op => op.symbol.toList
  | arith op => op.symbol.toList

/-- How tightly the node on top of an expression binds its operands: a choice loosest, then the
infix operators in their levels, signs, and what needs no operator. -/
def tightness : Expr → Nat
  | .ternary .. => 0
  | .logic _ op _ _ => (InfixOp.logic op).level
  | .relation _ op _ _ => (InfixOp.relation op).level
  | .arith _ op _ _ => (InfixOp.arith op).level
  | .unary .. => 6
  | _ => 7

/-- A text in parentheses or without. -/
def parenthesized (enclosed : Bool) (tokens : List (List Char)) : List (List Char) :=
  if enclosed then ['('] :: tokens ++ [[')']] else tokens

section Tokens

variable (extra : Expr → Bool)

/-- Whether an expression is in parentheses where some tightness is expected. -/
def encloses (expected : Nat) (e : Expr) : Bool := decide (tightness e < expected) || extra e

mutual

/-- The tokens of an expression without parentheses around it. -/
def tokens : Expr → List (List Char)
  | .ident _ name => [name.toList]
  | .unary _ op operand =>
    op.symbol.toList :: parenthesized (encloses extra 6 operand) (tokens operand)
  | .logic _ op left right =>
    let level := (InfixOp.logic op).level
    parenthesized (encloses extra level left) (tokens left) ++ (InfixOp.logic op).symbol ::
      parenthesized (encloses extra (level + 1) right) (tokens right)
  | .relation _ op left right =>
    let level := (InfixOp.relation op).level
    parenthesized (encloses extra level left) (tokens left) ++ (InfixOp.relation op).symbol ::
      parenthesized (encloses extra (level + 1) right) (tokens right)
  | .arith _ op left right =>
    let level := (InfixOp.arith op).level
    parenthesized (encloses extra level left) (tokens left) ++ (InfixOp.arith op).symbol ::
      parenthesized (encloses extra (level + 1) right) (tokens right)
  | .ternary _ c t f =>
    parenthesized (encloses extra 1 c) (tokens c) ++ ['?'] ::
      (parenthesized (encloses extra 0 t) (tokens t) ++ [':'] ::
        parenthesized (encloses extra 0 f) (tokens f))
  | .field _ target name =>
    parenthesized (encloses extra 7 target) (tokens target) ++ [['.'], name.toList]
  | .index _ target position =>
    parenthesized (encloses extra 7 target) (tokens target) ++ ['['] ::
      (parenthesized (encloses extra 0 position) (tokens position) ++ [[']']])
  | .method _ target function args =>
    parenthesized (encloses extra 7 target) (tokens target) ++ ['.'] :: function.toList ::
      ['('] :: (separated (itemTokens args) ++ [[')']])
  | _ => []

def itemTokens : List Expr → List (List (List Char))
  | [] => []
  | item :: rest => parenthesized (encloses extra 0 item) (tokens item) :: itemTokens rest

end

/-- An expression in its place: in parentheses or without. -/
structure Part where
  enclosed : Bool
  expr : Expr

/-- An expression where some tightness is expected. -/
def Part.expecting (expected : Nat) (e : Expr) : Part := ⟨encloses extra expected e, e⟩

def Part.tokens (p : Part) : List (List Char) :=
  parenthesized p.enclosed (Grammar.tokens extra p.expr)

theorem itemTokens_eq (items : List Expr) :
    itemTokens extra items = items.map fun item => (Part.expecting extra 0 item).tokens extra := by
  induction items with
  | nil => rfl
  | cons item rest ih => rw [itemTokens, ih]; rfl

end Tokens

/-! ### Operations -/

/-- A name as a source can have it. -/
def IsName (name : String) : Prop :=
  ∃ c rest, name.toList = c :: rest ∧ (Scanner.isLetter c = true ∨ c = '_') ∧
    (∀ d ∈ rest, Scanner.isNameChar d = true) ∧ name.toList ∉ Scanner.keywords

/-- A node of an expression that names, operators and selections make up.  The functions are no
macros. -/
def IsOperation : Expr → Prop
  | .ident _ name => IsName name
  | .field _ _ name => IsName name
  | .method _ _ function _ => IsName function ∧ IterationKind.ofName? function = none
  | .unary .. | .logic .. | .relation .. | .arith .. | .ternary .. | .index .. => True
  | _ => False

/-! ### Operands and links -/

/-- What stands between two operands. -/
inductive Joint
  | op (op : InfixOp)
  | choice (whenTrue : Part)

namespace Joint

def level : Joint → Nat
  | op o => o.level
  | choice _ => 0

/-- The parts of an expression that stand inside a joint. -/
def parts : Joint → List Part
  | op _ => []
  | choice whenTrue => [whenTrue]

end Joint

section Sequences

variable (extra : Expr → Bool)

def Joint.tokens : Joint → List (List Char)
  | op o => [o.symbol]
  | choice whenTrue => ['?'] :: (whenTrue.tokens extra ++ [[':']])

/-- The tokens of a joint and of the operand after it. -/
def linkTokens (link : Joint × Part) : List (List Char) :=
  link.1.tokens extra ++ link.2.tokens extra

/-- The part is read as one operand. -/
def Part.IsOperand (p : Part) : Prop := p.enclosed = true ∨ 6 ≤ tightness p.expr

/-- A part as its first operand and the links after it. -/
inductive Spine : Part → Part → List (Joint × Part) → Prop
  | operand {p : Part} : p.IsOperand → Spine p p []
  | infixed {span : Span} {op : InfixOp} {left right : Expr} {first next : Part}
      {links more : List (Joint × Part)} :
      Spine (.expecting extra op.level left) first links →
      Spine (.expecting extra (op.level + 1) right) next more →
      Spine ⟨false, Built.infixExpr span op left right⟩ first (links ++ (.op op, next) :: more)
  | choice {span : Span} {c t f : Expr} {first next : Part} {links more : List (Joint × Part)} :
      Spine (.expecting extra 1 c) first links →
      Spine (.expecting extra 0 f) next more →
      Spine ⟨false, .ternary span c t f⟩ first
        (links ++ (.choice (.expecting extra 0 t), next) :: more)

variable {extra} {p first : Part} {links : List (Joint × Part)}

/-- What binds looser than a sign is an infix operation or a choice. -/
theorem infixed_or_choice {e : Expr} (h : tightness e < 6) :
    (∃ span op left right, e = Built.infixExpr span op left right) ∨
      ∃ span c t f, e = .ternary span c t f := by
  cases e with
  | logic span op left right => exact .inl ⟨span, .logic op, left, right, rfl⟩
  | relation span op left right => exact .inl ⟨span, .relation op, left, right, rfl⟩
  | arith span op left right => exact .inl ⟨span, .arith op, left, right, rfl⟩
  | ternary span c t f => exact .inr ⟨span, c, t, f, rfl⟩
  | _ => simp [tightness] at h

theorem operands_infixExpr (span : Span) (op : InfixOp) (left right : Expr) :
    (Built.infixExpr span op left right).operands = [([], left), ([], right)] := by
  cases op <;> rfl

variable (extra) in
theorem exists_spine (p : Part) : ∃ first links, Spine extra p first links := by
  obtain ⟨enclosed, e⟩ := p
  induction e using Expr.induct generalizing enclosed with
  | step e ih =>
      by_cases hoperand : (Part.mk enclosed e).IsOperand
      · exact ⟨_, _, .operand hoperand⟩
      obtain ⟨hopen, hloose⟩ := not_or.mp hoperand
      obtain rfl := Bool.eq_false_iff.mpr hopen
      rcases infixed_or_choice (Nat.lt_of_not_le hloose) with
        ⟨span, op, left, right, rfl⟩ | ⟨span, c, t, f, rfl⟩
      · rw [operands_infixExpr] at ih
        obtain ⟨first, links, hleft⟩ := ih ([], left) (by simp) (encloses extra op.level left)
        obtain ⟨next, more, hright⟩ :=
          ih ([], right) (by simp) (encloses extra (op.level + 1) right)
        exact ⟨first, _, .infixed hleft hright⟩
      · obtain ⟨first, links, hc⟩ := ih ([], c) (by simp [Expr.operands]) (encloses extra 1 c)
        obtain ⟨next, more, hf⟩ := ih ([], f) (by simp [Expr.operands]) (encloses extra 0 f)
        exact ⟨first, _, .choice hc hf⟩

theorem tokens_infixExpr (span : Span) (op : InfixOp) (left right : Expr) :
    tokens extra (Built.infixExpr span op left right) =
      (Part.expecting extra op.level left).tokens extra ++
        op.symbol :: (Part.expecting extra (op.level + 1) right).tokens extra := by
  cases op <;> rfl

namespace Spine

theorem tokens_eq (h : Spine extra p first links) :
    p.tokens extra = first.tokens extra ++ links.flatMap (linkTokens extra) := by
  induction h with
  | operand => exact (List.append_nil _).symm
  | infixed _ _ ihleft ihright =>
      rw [Part.tokens, parenthesized, if_neg Bool.false_ne_true, tokens_infixExpr, ihleft, ihright]
      simp [linkTokens, Joint.tokens]
  | @choice span c t f first next links more _ _ ihleft ihright =>
      have htokens : (Part.mk false (.ternary span c t f)).tokens extra =
          (Part.expecting extra 1 c).tokens extra ++ ['?'] ::
            ((Part.expecting extra 0 t).tokens extra ++ [':'] ::
              (Part.expecting extra 0 f).tokens extra) := rfl
      rw [htokens, ihleft, ihright]
      simp [linkTokens, Joint.tokens]

theorem all {P : Expr → Prop} (h : Spine extra p first links) (hall : p.expr.All P) :
    first.expr.All P ∧
      ∀ link ∈ links, link.2.expr.All P ∧ ∀ q ∈ link.1.parts, q.expr.All P := by
  induction h with
  | operand => exact ⟨hall, nofun⟩
  | @infixed span op left right _ _ _ _ _ _ ihleft ihright =>
      have hoperands := hall.operands
      rw [operands_infixExpr] at hoperands
      obtain ⟨hfirst, hlinks⟩ := ihleft (hoperands ([], left) (by simp))
      obtain ⟨hnext, hmore⟩ := ihright (hoperands ([], right) (by simp))
      refine ⟨hfirst, List.forall_mem_append.mpr ⟨hlinks, List.forall_mem_cons.mpr ⟨?_, hmore⟩⟩⟩
      exact ⟨hnext, nofun⟩
  | @choice span c t f _ _ _ _ _ _ ihleft ihright =>
      have hoperands := hall.operands
      obtain ⟨hfirst, hlinks⟩ := ihleft (hoperands ([], c) (by simp [Expr.operands]))
      obtain ⟨hnext, hmore⟩ := ihright (hoperands ([], f) (by simp [Expr.operands]))
      refine ⟨hfirst, List.forall_mem_append.mpr ⟨hlinks, List.forall_mem_cons.mpr ⟨?_, hmore⟩⟩⟩
      exact ⟨hnext, List.forall_mem_singleton.mpr (hoperands ([], t) (by simp [Expr.operands]))⟩

theorem isOperand (h : Spine extra p first links) :
    first.IsOperand ∧ ∀ link ∈ links, link.2.IsOperand := by
  induction h with
  | operand h => exact ⟨h, nofun⟩
  | infixed _ _ ihleft ihright | choice _ _ ihleft ihright =>
      exact ⟨ihleft.1, List.forall_mem_append.mpr
        ⟨ihleft.2, List.forall_mem_cons.mpr ⟨ihright.1, ihright.2⟩⟩⟩

end Spine

end Sequences

/-! ### Signs and selections -/

/-- What selects from something. -/
inductive Access
  | field (name : String)
  | method (function : String) (args : List Part)
  | index (position : Part)

/-- The parts of an expression that stand inside an access. -/
def Access.parts : Access → List Part
  | field _ => []
  | method _ args => args
  | index position => [position]

/-- The names that an access spells. -/
def Access.names : Access → List String
  | field name => [name]
  | method function _ => [function]
  | index _ => []

section Sequences

variable (extra : Expr → Bool)

def Access.tokens : Access → List (List Char)
  | field name => [['.'], name.toList]
  | method function args =>
    ['.'] :: function.toList :: ['('] ::
      (separated (args.map fun arg => arg.tokens extra) ++ [[')']])
  | index position => ['['] :: (position.tokens extra ++ [[']']])

/-- The part is read without signs. -/
def Part.IsTarget (p : Part) : Prop := p.enclosed = true ∨ 7 ≤ tightness p.expr

/-- The part is in parentheses or a name. -/
def Part.IsBase (p : Part) : Prop := p.enclosed = true ∨ ∃ span name, p.expr = .ident span name

/-- An operand as its signs and what they stand before. -/
inductive Signed : Part → List UnaryOp → Part → Prop
  | target {p : Part} : p.IsTarget → Signed p [] p
  | sign {span : Span} {op : UnaryOp} {operand : Expr} {signs : List UnaryOp} {target : Part} :
      Signed (.expecting extra 6 operand) signs target →
      Signed ⟨false, .unary span op operand⟩ (op :: signs) target

/-- An operand without signs as its base and the selections from it. -/
inductive Selected : Part → Part → List Access → Prop
  | base {p : Part} : p.IsBase → Selected p p []
  | field {span : Span} {target : Expr} {name : String} {base : Part} {accesses : List Access} :
      Selected (.expecting extra 7 target) base accesses →
      Selected ⟨false, .field span target name⟩ base (accesses ++ [.field name])
  | method {span : Span} {target : Expr} {function : String} {args : List Expr} {base : Part}
      {accesses : List Access} :
      Selected (.expecting extra 7 target) base accesses →
      Selected ⟨false, .method span target function args⟩ base
        (accesses ++ [.method function (args.map (.expecting extra 0))])
  | index {span : Span} {target position : Expr} {base : Part} {accesses : List Access} :
      Selected (.expecting extra 7 target) base accesses →
      Selected ⟨false, .index span target position⟩ base
        (accesses ++ [.index (.expecting extra 0 position)])

variable {extra} {p target base : Part} {signs : List UnaryOp} {accesses : List Access}

theorem isOperand_expecting (e : Expr) : (Part.expecting extra 6 e).IsOperand := by
  by_cases h : 6 ≤ tightness e
  · exact .inr h
  · exact .inl (by simp [Part.expecting, encloses, Nat.lt_of_not_le h])

theorem isTarget_expecting (e : Expr) : (Part.expecting extra 7 e).IsTarget := by
  by_cases h : 7 ≤ tightness e
  · exact .inr h
  · exact .inl (by simp [Part.expecting, encloses, Nat.lt_of_not_le h])

variable (extra) in
theorem exists_signed (h : p.IsOperand) : ∃ signs target, Signed extra p signs target := by
  obtain ⟨enclosed, e⟩ := p
  induction e using Expr.induct generalizing enclosed with
  | step e ih =>
      by_cases htarget : (Part.mk enclosed e).IsTarget
      · exact ⟨_, _, .target htarget⟩
      obtain ⟨hopen, hloose⟩ := not_or.mp htarget
      obtain rfl := Bool.eq_false_iff.mpr hopen
      have htight : tightness e = 6 :=
        Nat.le_antisymm (Nat.le_of_lt_succ (Nat.lt_of_not_le hloose)) (h.resolve_left hopen)
      cases e with
      | unary span op operand =>
          obtain ⟨signs, target, hsigned⟩ := ih ([], operand) (by simp [Expr.operands])
            (encloses extra 6 operand) (isOperand_expecting operand)
          exact ⟨_, _, .sign hsigned⟩
      | logic _ op => cases op <;> cases htight
      | arith _ op => cases op <;> cases htight
      | _ => cases htight

variable (extra) in
theorem exists_selected (h : p.IsTarget) (hall : p.expr.All IsOperation) :
    ∃ base accesses, Selected extra p base accesses := by
  obtain ⟨enclosed, e⟩ := p
  induction e using Expr.induct generalizing enclosed with
  | step e ih =>
      by_cases hbase : (Part.mk enclosed e).IsBase
      · exact ⟨_, _, .base hbase⟩
      obtain ⟨hopen, hname⟩ := not_or.mp hbase
      obtain rfl := Bool.eq_false_iff.mpr hopen
      have htight : 7 ≤ tightness e := h.resolve_left hopen
      have hhere := hall.here
      have htarget (target : Expr) (hmem : ([], target) ∈ e.operands) :
          ∃ base accesses, Selected extra (.expecting extra 7 target) base accesses :=
        ih ([], target) hmem _ (isTarget_expecting target) (hall.operands _ hmem)
      cases e with
      | ident span name => exact absurd ⟨span, name, rfl⟩ hname
      | field span target name =>
          obtain ⟨base, accesses, hselected⟩ := htarget target (by simp [Expr.operands])
          exact ⟨_, _, .field hselected⟩
      | method span target function args =>
          obtain ⟨base, accesses, hselected⟩ := htarget target (by simp [Expr.operands])
          exact ⟨_, _, .method hselected⟩
      | index span target position =>
          obtain ⟨base, accesses, hselected⟩ := htarget target (by simp [Expr.operands])
          exact ⟨_, _, .index hselected⟩
      | unary | ternary | relation => simp [tightness, InfixOp.level] at htight
      | logic _ op => cases op <;> simp [tightness, InfixOp.level] at htight
      | arith _ op => cases op <;> simp [tightness, InfixOp.level] at htight
      | _ => exact hhere.elim

theorem Signed.tokens_eq (h : Signed extra p signs target) :
    p.tokens extra = signs.map (fun op => op.symbol.toList) ++ target.tokens extra := by
  induction h with
  | target => rfl
  | @sign span op operand signs target _ ih =>
      have htokens : (Part.mk false (.unary span op operand)).tokens extra =
          op.symbol.toList :: (Part.expecting extra 6 operand).tokens extra := rfl
      rw [htokens, ih, List.map_cons, List.cons_append]

theorem Selected.tokens_eq (h : Selected extra p base accesses) :
    p.tokens extra = base.tokens extra ++ accesses.flatMap (Access.tokens extra) := by
  induction h with
  | base => exact (List.append_nil _).symm
  | @field span target name base accesses _ ih =>
      have htokens : (Part.mk false (.field span target name)).tokens extra =
          (Part.expecting extra 7 target).tokens extra ++ [['.'], name.toList] := rfl
      rw [htokens, ih]
      simp [Access.tokens]
  | @method span target function args base accesses _ ih =>
      have htokens : (Part.mk false (.method span target function args)).tokens extra =
          (Part.expecting extra 7 target).tokens extra ++ ['.'] :: function.toList :: ['('] ::
            (separated (itemTokens extra args) ++ [[')']]) := rfl
      rw [htokens, ih, itemTokens_eq]
      simp [Access.tokens, Function.comp_def]
  | @index span target position base accesses _ ih =>
      have htokens : (Part.mk false (.index span target position)).tokens extra =
          (Part.expecting extra 7 target).tokens extra ++ ['['] ::
            ((Part.expecting extra 0 position).tokens extra ++ [[']']]) := rfl
      rw [htokens, ih]
      simp [Access.tokens]

theorem Signed.target_spec (h : Signed extra p signs target) (hall : p.expr.All IsOperation) :
    target.IsTarget ∧ target.expr.All IsOperation := by
  induction h with
  | target htarget => exact ⟨htarget, hall⟩
  | @sign span op operand _ _ _ ih => exact ih (hall.operands ([], operand) (by simp [Expr.operands]))

theorem Selected.base_spec (h : Selected extra p base accesses) (hall : p.expr.All IsOperation) :
    base.IsBase ∧ base.expr.All IsOperation := by
  induction h with
  | base hbase => exact ⟨hbase, hall⟩
  | @field _ target _ _ _ _ ih | @method _ target _ _ _ _ _ ih | @index _ target _ _ _ _ ih =>
      exact ih (hall.operands ([], target) (by simp [Expr.operands]))

/-- What stands inside the selections is made of operations too. -/
theorem Selected.accesses_spec (h : Selected extra p base accesses)
    (hall : p.expr.All IsOperation) :
    ∀ access ∈ accesses, (∀ q ∈ access.parts, q.expr.All IsOperation) ∧
      ∀ name ∈ access.names, IsName name := by
  induction h with
  | base => nofun
  | @field _ target name _ _ _ ih =>
      have hbefore := ih (hall.operands ([], target) (by simp [Expr.operands]))
      exact List.forall_mem_append.mpr
        ⟨hbefore, List.forall_mem_singleton.mpr
          ⟨List.forall_mem_nil _, List.forall_mem_singleton.mpr hall.here⟩⟩
  | @method _ target function args _ _ _ ih =>
      have hbefore := ih (hall.operands ([], target) (by simp [Expr.operands]))
      refine List.forall_mem_append.mpr ⟨hbefore, List.forall_mem_singleton.mpr
        ⟨List.forall_mem_map.mpr fun arg harg => ?_, List.forall_mem_singleton.mpr hall.here.1⟩⟩
      exact hall.operands ([], arg) (by simp [Expr.operands, harg])
  | @index _ target position _ _ _ ih =>
      have hbefore := ih (hall.operands ([], target) (by simp [Expr.operands]))
      refine List.forall_mem_append.mpr ⟨hbefore, List.forall_mem_singleton.mpr
        ⟨List.forall_mem_singleton.mpr ?_, List.forall_mem_nil _⟩⟩
      exact hall.operands ([], position) (by simp [Expr.operands])

end Sequences

end EmbeddedExpr.Grammar
