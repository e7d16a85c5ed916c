import EmbeddedExpr.Proofs.Grammar.Build
import EmbeddedExpr.Proofs.Grammar.Written
import Mathlib.Data.List.Forall2

/-!
# Chains of operands as trees

A phrase means a tree if building gives a tree of this shape, whatever bound the height of the
tree keeps to.  The operands of a spine, with signs and selections around their bases, and their
links in order come out as the tree that was taken apart: a link that binds tighter than an infix
operation goes into its right operand (`chain_infixed`), one that binds no tighter goes above the
whole (`attachOp_of_le`), and behind a choice everything goes into the false case
(`chain_choice`).  So it is enough that every operator of the right operand of an operation binds
tighter than the operation, which parentheses see to.
-/

namespace EmbeddedExpr.Grammar

/-! ### Phrases of trees -/

namespace Built

/-- A tree of the shape and the height of an expression. -/
structure Shows (b : Built) (e : Expr) : Prop where
  minMagnitude : b.minMagnitude = none
  height_eq : b.height = e.height
  sameShape : b.expr.sameShape e = true

variable {bound : Nat}

theorem Shows.settle {b : Built} {e : Expr} (h : b.Shows e) : b.settle = .ok b := by
  rw [Built.settle, h.minMagnitude]

theorem Shows.bind {α : Type} {result : Except ParseError Built} {b : Built} {e : Expr}
    (h : b.Shows e) (hb : result = .ok b) (next : Built → Except ParseError α) :
    (result >>= fun b => b.settle >>= next) = next b := by
  rw [bind_of_ok hb, bind_of_ok h.settle]

/-- A node above trees shows an expression if it has its shape and the height fits. -/
theorem exists_node {tree e : Expr} {below : Nat} (hheight : e.height = below + 1)
    (hbound : e.height ≤ bound) (hshape : tree.sameShape e = true) :
    ∃ b, node bound tree below = .ok b ∧ b.Shows e :=
  ⟨_, node_eq_ok (by omega), rfl, hheight.symm, hshape⟩

theorem settleAll_of_shows {bs : List Built} {es : List Expr} (h : List.Forall₂ Shows bs es) :
    settleAll bs = .ok bs := by
  induction h with
  | nil => rfl
  | cons hb _ ih => rw [settleAll, bind_of_ok hb.settle, bind_of_ok ih]

theorem greatest_of_shows {bs : List Built} {es : List Expr} (h : List.Forall₂ Shows bs es) :
    greatest bs = Expr.heightItems es := by
  have hfoldl : ∀ start,
      (bs.map height).foldl max start = max start (Expr.heightItems es) := by
    induction h with
    | nil => exact fun start => (Nat.max_zero start).symm
    | cons hb _ ih =>
        intro start
        rw [List.map_cons, List.foldl_cons, ih, hb.height_eq, Expr.heightItems, Nat.max_assoc]
  exact (hfoldl 0).trans (Nat.zero_max _)

theorem sameItems_of_shows {bs : List Built} {es : List Expr} (h : List.Forall₂ Shows bs es) :
    Expr.sameItems (bs.map Built.expr) es = true := by
  induction h with
  | nil => rfl
  | cons hb _ ih => simp [Expr.sameItems, hb.sameShape, ih]

end Built

namespace Phrase

/-- Building the phrase gives a tree of the shape of the expression. -/
def Means (p : Phrase) (e : Expr) : Prop :=
  ∀ bound, e.height ≤ bound → ∃ b, p.build bound = .ok b ∧ b.Shows e

variable {p q r : Phrase} {d e f : Expr} {bound : Nat}

theorem means_name (span s : Span) (name : String) :
    (atom span (.name name.toList)).Means (.ident s name) := by
  intro bound _
  refine ⟨_, rfl, rfl, rfl, ?_⟩
  simp [Built.leaf, Expr.sameShape]

theorem Means.group (h : p.Means e) : (group p).Means e := by
  intro bound hbound
  obtain ⟨b, hb, hshows⟩ := h bound hbound
  exact ⟨b, by rw [build, bind_of_ok hb, hshows.settle], hshows⟩

theorem Means.sign (h : p.Means e) (start : Nat) (s : Span) (op : UnaryOp) :
    (sign start op p).Means (.unary s op e) := by
  intro bound hbound
  obtain ⟨b, hb, hshows⟩ := h bound (Nat.le_of_succ_le hbound)
  rw [build, bind_of_ok hb, Built.signed, if_neg (by simp [hshows.minMagnitude]),
    bind_of_ok hshows.settle]
  refine Built.exists_node ?_ hbound ?_
  · rw [Expr.height, hshows.height_eq]
  · simp [Expr.sameShape, hshows.sameShape]

theorem Means.field (h : p.Means e) (s : Span) (name : String) (stop : Nat) :
    (field p name.toList stop).Means (.field s e name) := by
  intro bound hbound
  obtain ⟨b, hb, hshows⟩ := h bound (Nat.le_of_succ_le hbound)
  rw [build, hshows.bind hb]
  refine Built.exists_node ?_ hbound ?_
  · rw [Expr.height, hshows.height_eq]
  · simp [Expr.sameShape, hshows.sameShape]

theorem Means.index (h : p.Means e) (hposition : q.Means f) (s : Span) (stop : Nat) :
    (index p q stop).Means (.index s e f) := by
  intro bound hbound
  obtain ⟨hle, hle'⟩ := Nat.max_le.mp (Nat.le_of_succ_le hbound)
  obtain ⟨b, hb, hshows⟩ := h bound hle
  obtain ⟨c, hc, hshows'⟩ := hposition bound hle'
  rw [build, hshows.bind hb, hshows'.bind hc]
  refine Built.exists_node ?_ hbound ?_
  · rw [Expr.height, hshows.height_eq, hshows'.height_eq]
  · simp [Expr.sameShape, hshows.sameShape, hshows'.sameShape]

theorem buildItems_of_means {ps : List Phrase} {es : List Expr} (h : List.Forall₂ Means ps es)
    (hbound : Expr.heightItems es ≤ bound) :
    ∃ bs, buildItems bound ps = .ok bs ∧ List.Forall₂ Built.Shows bs es := by
  induction h with
  | nil => exact ⟨[], rfl, .nil⟩
  | cons hp _ ih =>
      obtain ⟨hle, hle'⟩ := Nat.max_le.mp hbound
      obtain ⟨b, hb, hshows⟩ := hp bound hle
      obtain ⟨bs, hbs, hall⟩ := ih hle'
      exact ⟨b :: bs, by rw [buildItems, bind_of_ok hb, bind_of_ok hbs], .cons hshows hall⟩

theorem Means.method {ps : List Phrase} {es : List Expr} {function : String} (h : p.Means e)
    (hargs : List.Forall₂ Means ps es) (hordinary : IterationKind.ofName? function = none)
    (s : Span) (stop : Nat) :
    (method p function.toList ps stop).Means (.method s e function es) := by
  intro bound hbound
  obtain ⟨hle, hle'⟩ := Nat.max_le.mp (Nat.le_of_succ_le hbound)
  obtain ⟨b, hb, hshows⟩ := h bound hle
  obtain ⟨bs, hbs, hall⟩ := buildItems_of_means hargs hle'
  rw [build, hshows.bind hb, bind_of_ok hbs, bind_of_ok (Built.settleAll_of_shows hall),
    Built.method, String.ofList_toList, hordinary]
  refine Built.exists_node ?_ hbound ?_
  · rw [Expr.height, hshows.height_eq, Built.greatest_of_shows hall]
  · simp [Expr.sameShape, hshows.sameShape, Built.sameItems_of_shows hall]

theorem Means.infixed (h : p.Means e) (hright : q.Means f) (s : Span) (op : InfixOp) :
    (infixed op p q).Means (Built.infixExpr s op e f) := by
  intro bound hbound
  have hheight : (Built.infixExpr s op e f).height = max e.height f.height + 1 := by
    cases op <;> rfl
  rw [hheight] at hbound
  obtain ⟨hle, hle'⟩ := Nat.max_le.mp (Nat.le_of_succ_le hbound)
  obtain ⟨b, hb, hshows⟩ := h bound hle
  obtain ⟨c, hc, hshows'⟩ := hright bound hle'
  rw [build, hshows.bind hb, hshows'.bind hc]
  refine Built.exists_node ?_ (hheight ▸ hbound) ?_
  · rw [hheight, hshows.height_eq, hshows'.height_eq]
  · cases op <;> simp [Built.infixExpr, Expr.sameShape, hshows.sameShape, hshows'.sameShape]

theorem Means.choice (hc : p.Means d) (ht : q.Means e) (hf : r.Means f) (s : Span) :
    (choice p q r).Means (.ternary s d e f) := by
  intro bound hbound
  obtain ⟨hle, hbranches⟩ := Nat.max_le.mp (Nat.le_of_succ_le hbound)
  obtain ⟨hle', hle''⟩ := Nat.max_le.mp hbranches
  obtain ⟨c, hc, hshows⟩ := hc bound hle
  obtain ⟨t, ht, hshows'⟩ := ht bound hle'
  obtain ⟨f, hf, hshows''⟩ := hf bound hle''
  rw [build, hshows.bind hc, hshows''.bind hf, hshows'.bind ht]
  refine Built.exists_node ?_ hbound ?_
  · rw [Expr.height, hshows.height_eq, hshows'.height_eq, hshows''.height_eq]
    omega
  · simp [Expr.sameShape, hshows.sameShape, hshows'.sameShape, hshows''.sameShape]

/-! ### Attaching links -/

/-- How tightly the operator on top of a phrase binds; an operand counts as tighter than all. -/
def level : Phrase → Nat
  | choice .. => 0
  | infixed op _ _ => op.level
  | _ => 6

end Phrase

theorem InfixOp.level_pos (op : InfixOp) : 0 < op.level := by
  cases op with
  | logic op | arith op => cases op <;> decide
  | relation => exact Nat.succ_pos 2

theorem InfixOp.level_lt (op : InfixOp) : op.level < 6 := by
  cases op with
  | logic op | arith op => cases op <;> decide
  | relation => exact (by decide : 3 < 6)

/-- How tightly a link binds. -/
def Link.level : Link → Nat
  | op o => o.level
  | choice _ => 0

namespace Phrase

variable {p : Phrase} {op : InfixOp} {links : List (Link × Phrase)}

theorem attachOp_of_le (h : op.level ≤ p.level) (right : Phrase) :
    attachOp op right p = infixed op p right := by
  cases p with
  | choice => exact absurd h (Nat.not_le.mpr op.level_pos)
  | infixed o _ _ => exact if_neg (Nat.not_lt.mpr h)
  | _ => rfl

theorem attachChoice_of_pos (h : 0 < p.level) (t right : Phrase) :
    attachChoice t right p = choice p t right := by
  cases p with
  | choice => exact absurd h (Nat.lt_irrefl 0)
  | _ => rfl

/-- Links that bind tighter than an operation belong to its right operand. -/
theorem chain_infixed (h : ∀ link ∈ links, op.level < link.1.level) (left right : Phrase) :
    chain (infixed op left right) links = infixed op left (chain right links) := by
  induction links generalizing right with
  | nil => rfl
  | cons link rest ih =>
      obtain ⟨hlink, hrest⟩ := List.forall_mem_cons.mp h
      have hattach : attach (infixed op left right) link =
          infixed op left (attach right link) := by
        obtain ⟨joint, next⟩ := link
        cases joint with
        | op o => exact if_pos hlink
        | choice t => exact absurd hlink (Nat.not_lt_zero _)
      rw [chain, List.foldl_cons, hattach]
      exact ih hrest (attach right link)

/-- All links behind a choice belong to its false case. -/
theorem chain_choice (c t f : Phrase) :
    chain (choice c t f) links = choice c t (chain f links) := by
  induction links generalizing f with
  | nil => rfl
  | cons link rest ih =>
      have hattach : attach (choice c t f) link = choice c t (attach f link) := by
        obtain ⟨joint, next⟩ := link
        cases joint <;> rfl
      rw [chain, List.foldl_cons, hattach]
      exact ih (attach f link)

theorem chain_append (first : Phrase) (before after : List (Link × Phrase)) :
    chain first (before ++ after) = chain (chain first before) after :=
  List.foldl_append

section Split

variable {first : Phrase} {before after : List (Link × Phrase)}

/-- An operator that binds no tighter than what stands before it and looser than what follows
divides a chain. -/
theorem chain_at_op (hbefore : op.level ≤ (chain first before).level)
    (hafter : ∀ link ∈ after, op.level < link.1.level) (next : Phrase) :
    chain first (before ++ (.op op, next) :: after) =
      infixed op (chain first before) (chain next after) := by
  rw [chain_append, ← chain_infixed hafter, ← attachOp_of_le hbefore]
  rfl

/-- The first choice divides a chain. -/
theorem chain_at_choice (hbefore : 0 < (chain first before).level) (t next : Phrase) :
    chain first (before ++ (.choice t, next) :: after) =
      choice (chain first before) t (chain next after) := by
  rw [chain_append, ← chain_choice, ← attachChoice_of_pos hbefore]
  rfl

end Split

end Phrase

/-! ### The tree of a spine -/

/-- A phrase that means an expression and is one operand. -/
structure Phrase.MeansOperand (p : Phrase) (e : Expr) : Prop where
  means : p.Means e
  level_eq : p.level = 6

/-- A link for a joint. -/
inductive Joint.Means : Joint → Link → Prop
  | op (o : InfixOp) : Means (.op o) (.op o)
  | choice {t : Part} {p : Phrase} : p.Means t.expr → Means (.choice t) (.choice p)

theorem Joint.Means.level_eq {joint : Joint} {link : Link} (h : joint.Means link) :
    link.level = joint.level := by
  cases h <;> rfl

/-- A link and an operand for a joint and the part after it. -/
def LinkMeans (link : Joint × Part) (read : Link × Phrase) : Prop :=
  link.1.Means read.1 ∧ read.2.MeansOperand link.2.expr

theorem exists_of_forall₂_append {α β : Type} {R : α → β → Prop} {before after : List α} {a : α}
    {bs : List β} (h : List.Forall₂ R (before ++ a :: after) bs) :
    ∃ first b rest, bs = first ++ b :: rest ∧ List.Forall₂ R before first ∧ R a b ∧
      List.Forall₂ R after rest := by
  induction before generalizing bs with
  | nil =>
      obtain _ | ⟨hhead, htail⟩ := h
      exact ⟨[], _, _, rfl, .nil, hhead, htail⟩
  | cons _ before ih =>
      obtain _ | ⟨hhead, htail⟩ := h
      obtain ⟨first, b, rest, rfl, hbefore, hb, hafter⟩ := ih htail
      exact ⟨_ :: first, b, rest, rfl, .cons hhead hbefore, hb, hafter⟩

/-- How tightly a part binds where it stands. -/
def Part.level (p : Part) : Nat := if p.enclosed then 6 else min 6 (tightness p.expr)

theorem Part.IsOperand.level_eq {p : Part} (h : p.IsOperand) : p.level = 6 := by
  rcases h with h | h
  · exact if_pos h
  · rw [level, Nat.min_eq_left h, ite_self]

/-- Parentheses see to it that a part binds as tightly as expected. -/
theorem Part.le_level_expecting {extra : Expr → Bool} {expected : Nat} (h : expected ≤ 6)
    (e : Expr) : expected ≤ (Part.expecting extra expected e).level := by
  rw [level]
  split
  · exact h
  · rename_i hopen
    have htight : ¬ tightness e < expected := by
      intro hloose
      exact hopen (by simp [expecting, encloses, hloose])
    exact Nat.le_min.mpr ⟨h, Nat.le_of_not_lt htight⟩

theorem tightness_infixExpr (span : Span) (op : InfixOp) (left right : Expr) :
    tightness (Built.infixExpr span op left right) = op.level := by
  cases op <;> rfl

namespace Spine

variable {extra : Expr → Bool} {p first : Part} {links : List (Joint × Part)}

/-- No joint binds looser than the part it stands in. -/
theorem level_le (h : Spine extra p first links) : ∀ link ∈ links, p.level ≤ link.1.level := by
  induction h with
  | operand => nofun
  | @infixed span op left right _ _ _ _ _ _ ihleft ihright =>
      have hlevel : (Part.mk false (Built.infixExpr span op left right)).level = op.level := by
        rw [Part.level, if_neg Bool.false_ne_true, tightness_infixExpr,
          Nat.min_eq_right (Nat.le_of_lt op.level_lt)]
      have hleft : op.level ≤ (Part.expecting extra op.level left).level :=
        Part.le_level_expecting (Nat.le_of_lt op.level_lt) left
      have hright : op.level + 1 ≤ (Part.expecting extra (op.level + 1) right).level :=
        Part.le_level_expecting op.level_lt right
      rw [hlevel]
      refine List.forall_mem_append.mpr ⟨fun link hlink =>
        Nat.le_trans hleft (ihleft link hlink), ?_⟩
      refine List.forall_mem_cons.mpr ⟨Nat.le_refl _, fun link hlink => ?_⟩
      exact Nat.le_of_succ_le (Nat.le_trans hright (ihright link hlink))
  | choice => exact fun _ _ => Nat.zero_le _

theorem lt_level_of_linkMeans {read : List (Link × Phrase)} {lower : Nat}
    (h : ∀ link ∈ links, lower < link.1.level) (hlinks : List.Forall₂ LinkMeans links read) :
    ∀ link ∈ read, lower < link.1.level := by
  induction hlinks with
  | nil => nofun
  | cons hlink _ ih =>
      obtain ⟨hhead, htail⟩ := List.forall_mem_cons.mp h
      refine List.forall_mem_cons.mpr ⟨?_, ih htail⟩
      rw [hlink.1.level_eq]
      exact hhead

/-- Phrases for the first operand and for the links are chained to a phrase for the whole. -/
theorem means (h : Spine extra p first links) {operand : Phrase} {read : List (Link × Phrase)}
    (hfirst : operand.MeansOperand first.expr) (hlinks : List.Forall₂ LinkMeans links read) :
    (Phrase.chain operand read).Means p.expr ∧ (Phrase.chain operand read).level = p.level := by
  induction h generalizing operand read with
  | operand hp =>
      cases hlinks
      exact ⟨hfirst.means, hfirst.level_eq.trans hp.level_eq.symm⟩
  | @infixed span op left right _ next links more hleft hright ihleft ihright =>
      obtain ⟨before, ⟨link, second⟩, after, rfl, hbefore, ⟨hjoint, hsecond⟩, hafter⟩ :=
        exists_of_forall₂_append hlinks
      cases hjoint
      obtain ⟨hleftMeans, hleftLevel⟩ := ihleft hfirst hbefore
      obtain ⟨hrightMeans, -⟩ := ihright hsecond hafter
      -- the left operand binds tightly enough to stay whole, and the right one to stay together
      have hbinds : op.level ≤ (Phrase.chain operand before).level := by
        rw [hleftLevel]
        exact Part.le_level_expecting (Nat.le_of_lt op.level_lt) left
      have htighter : ∀ link ∈ after, op.level < link.1.level :=
        lt_level_of_linkMeans (fun link hlink => Nat.le_trans
          (Part.le_level_expecting op.level_lt right) (hright.level_le link hlink)) hafter
      rw [Phrase.chain_at_op hbinds htighter]
      refine ⟨hleftMeans.infixed hrightMeans span op, ?_⟩
      rw [Part.level, if_neg Bool.false_ne_true, tightness_infixExpr,
        Nat.min_eq_right (Nat.le_of_lt op.level_lt)]
      rfl
  | @choice span c t f _ next links more _ _ ihc ihf =>
      obtain ⟨before, ⟨link, second⟩, after, rfl, hbefore, ⟨hjoint, hsecond⟩, hafter⟩ :=
        exists_of_forall₂_append hlinks
      obtain _ | hwhenTrue := hjoint
      obtain ⟨hcondition, hlevel⟩ := ihc hfirst hbefore
      obtain ⟨hwhenFalse, -⟩ := ihf hsecond hafter
      have hbinds : 0 < (Phrase.chain operand before).level := by
        rw [hlevel]
        exact Part.le_level_expecting (by decide) c
      rw [Phrase.chain_at_choice hbinds]
      exact ⟨hcondition.choice hwhenTrue hwhenFalse span, rfl⟩

end Spine

/-! ### The tree of an operand -/

section Operands

variable {extra : Expr → Bool} {p target base : Part} {operand : Phrase}

theorem Signed.means {signs : List UnaryOp} (h : Signed extra p signs target)
    {read : List (Nat × UnaryOp)} (htarget : operand.MeansOperand target.expr)
    (hsigns : List.Forall₂ (fun op sign => sign.2 = op) signs read) :
    (Phrase.signed read operand).MeansOperand p.expr := by
  induction h generalizing read with
  | target =>
      cases hsigns
      exact htarget
  | @sign span op _ _ _ _ ih =>
      obtain _ | ⟨hop, hrest⟩ := hsigns
      exact ⟨hop ▸ (ih htarget hrest).means.sign _ span _, rfl⟩

/-- A selection for an access. -/
inductive Access.Means : Access → Selection → Prop
  | field (name : String) (stop : Nat) : Means (.field name) (.field name.toList stop)
  | method (function : String) {args : List Part} {ps : List Phrase} (stop : Nat) :
      List.Forall₂ (fun arg (p : Phrase) => p.Means arg.expr) args ps →
      Means (.method function args) (.method function.toList ps stop)
  | index {position : Part} {p : Phrase} (stop : Nat) :
      p.Means position.expr → Means (.index position) (.index p stop)

theorem Selected.means {accesses : List Access} (h : Selected extra p base accesses)
    (hall : p.expr.All IsOperation) {read : List Selection}
    (hbase : operand.MeansOperand base.expr) (hread : List.Forall₂ Access.Means accesses read) :
    (read.foldl Phrase.select operand).MeansOperand p.expr := by
  induction h generalizing read with
  | base =>
      cases hread
      exact hbase
  | @field span target name _ accesses _ ih =>
      obtain ⟨before, selection, after, rfl, hbefore, hselection, hafter⟩ :=
        exists_of_forall₂_append hread
      cases hafter
      have htarget := ih (hall.operands ([], target) (by simp [Expr.operands])) hbase hbefore
      cases hselection
      rw [List.foldl_append]
      exact ⟨htarget.means.field span name _, rfl⟩
  | @method span target function args _ accesses _ ih =>
      obtain ⟨before, selection, after, rfl, hbefore, hselection, hafter⟩ :=
        exists_of_forall₂_append hread
      cases hafter
      have htarget := ih (hall.operands ([], target) (by simp [Expr.operands])) hbase hbefore
      obtain _ | ⟨_, _, hargs⟩ := hselection
      rw [List.forall₂_map_left_iff] at hargs
      rw [List.foldl_append]
      exact ⟨htarget.means.method hargs.flip hall.here.2 span _, rfl⟩
  | @index span target position _ accesses _ ih =>
      obtain ⟨before, selection, after, rfl, hbefore, hselection, hafter⟩ :=
        exists_of_forall₂_append hread
      cases hafter
      have htarget := ih (hall.operands ([], target) (by simp [Expr.operands])) hbase hbefore
      obtain _ | _ | ⟨_, hposition⟩ := hselection
      rw [List.foldl_append]
      exact ⟨htarget.means.index hposition span _, rfl⟩

end Operands

end EmbeddedExpr.Grammar
