import EmbeddedExpr.Proofs.Grammar.Runs
import EmbeddedExpr.Proofs.Grammar.Sequence
import EmbeddedExpr.Proofs.Grammar.Spans

/-!
# Trees node by node

The tree of a phrase is put together from the trees of its parts, although a macro leaves out some
of its arguments and parentheses leave no node.  So every node is the tree of a phrase inside the
phrase, and of one without parentheses around it: what is true of all these trees is true of every
node (`Phrase.all_of_build`).

The phrases inside a phrase of a source are again spelled by lexemes of the source, and in their
place in it.
-/

namespace EmbeddedExpr.Grammar

variable {bound : Nat} {source : List Char} {good : Expr → Prop}

theorem forall_mem_pair {α : Type} {P : α → Prop} {a b : α} :
    (∀ x ∈ [a, b], P x) ↔ P a ∧ P b := by
  rw [List.forall_mem_cons, List.forall_mem_singleton]

/-! ### Parts of phrases -/

namespace Phrase

/-- The phrases directly inside a phrase. -/
def parts : Phrase → List Phrase
  | atom .. => []
  | group inner => [inner]
  | list _ items => items
  | map _ entries => entries.flatMap fun entry => [entry.1, entry.2]
  | call _ _ args => args
  | sign _ _ operand => [operand]
  | field target _ _ => [target]
  | method target _ args _ => target :: args
  | index target position _ => [target, position]
  | infixed _ left right => [left, right]
  | choice condition whenTrue whenFalse => [condition, whenTrue, whenFalse]

theorem sizeOf_lt_of_mem_parts {p q : Phrase} (h : q ∈ p.parts) : sizeOf q < sizeOf p := by
  cases p with
  | atom => cases h
  | list _ items | call _ _ items =>
      have hlt : sizeOf q < sizeOf items := List.sizeOf_lt_of_mem h
      simp only [list.sizeOf_spec, call.sizeOf_spec]
      omega
  | map _ entries =>
      obtain ⟨entry, hentry, hq⟩ := List.mem_flatMap.mp h
      have hlt : sizeOf entry < sizeOf entries := List.sizeOf_lt_of_mem hentry
      obtain ⟨key, value⟩ := entry
      simp only [Prod.mk.sizeOf_spec] at hlt
      simp only [map.sizeOf_spec]
      rcases List.mem_pair.mp hq with rfl | rfl <;> omega
  | method target _ args _ =>
      simp only [method.sizeOf_spec]
      rcases List.mem_cons.mp h with rfl | harg
      · omega
      · have hlt : sizeOf q < sizeOf args := List.sizeOf_lt_of_mem harg
        omega
  | group | sign | field | index | infixed | choice =>
      simp only [parts, List.mem_cons, List.not_mem_nil, or_false] at h
      rcases h with rfl | rfl | rfl <;> simp <;> omega

/-- Induction on phrases by their parts. -/
theorem induct {motive : Phrase → Prop}
    (step : ∀ p : Phrase, (∀ q ∈ p.parts, motive q) → motive p) (p : Phrase) : motive p :=
  step p fun q hq =>
    have := sizeOf_lt_of_mem_parts hq
    induct step q
termination_by sizeOf p

/-- The other phrase is the phrase itself, or stands somewhere inside it. -/
inductive Occurs : Phrase → Phrase → Prop
  | whole (p : Phrase) : Occurs p p
  | inside {p q r : Phrase} : q ∈ p.parts → Occurs q r → Occurs p r

theorem forall_occurs_iff {p : Phrase} {P : Phrase → Prop} :
    (∀ q, p.Occurs q → P q) ↔ P p ∧ ∀ q ∈ p.parts, ∀ r, q.Occurs r → P r := by
  constructor
  · exact fun h => ⟨h p (.whole p), fun q hq r hr => h r (.inside hq hr)⟩
  · rintro ⟨hhere, hparts⟩ q hq
    cases hq with
    | whole => exact hhere
    | inside hr hq => exact hparts _ hr q hq

theorem Placed.of_mem_parts {p q : Phrase} (h : p.Placed source) (hq : q ∈ p.parts) :
    q.Placed source := by
  revert q
  show ∀ q ∈ p.parts, q.Placed source
  cases h with
  | atom => exact List.forall_mem_nil _
  | list _ _ hitems | call _ _ hitems => exact hitems
  | map _ _ hkeys hvalues =>
      exact Expr.forall_mem_flatMap_pair.mpr fun e he => ⟨hkeys e he, hvalues e he⟩
  | group hp | sign _ _ hp | field hp => exact List.forall_mem_singleton.mpr hp
  | method htarget _ _ hargs => exact List.forall_mem_cons.mpr ⟨htarget, hargs⟩
  | index hleft _ hright | infixed hleft _ hright =>
      exact forall_mem_pair.mpr ⟨hleft, hright⟩
  | choice hc _ ht _ hf =>
      exact List.forall_mem_cons.mpr ⟨hc, forall_mem_pair.mpr ⟨ht, hf⟩⟩

/-- A phrase is spelled by lexemes of the source. -/
def SpelledIn (source : List Char) (p : Phrase) : Prop :=
  ∃ c xs d, c.In source ∧ p.Spelled c xs d

/-- The pieces in a row or between brackets are spelled by lexemes of the source. -/
theorem spelledIn_of_boxed {opening closing : Char} {items : List (Piece Phrase)}
    {xs : List Lexeme} {c d : Cursor} (h : Boxed opening closing items c xs d) (hc : c.In source)
    (hitems : ∀ item ∈ items, IsSpelled item) :
    ∀ p ∈ items.map Piece.value, p.SpelledIn source := by
  intro p hp
  obtain ⟨item, hitem, rfl⟩ := List.mem_map.mp hp
  obtain ⟨ys, hys⟩ := (h.run fun item hitem => (hitems item hitem).run).2 item hitem
  exact ⟨item.start, item.lexemes, item.stop, hys.isIn hc, hitems item hitem⟩

theorem SpelledIn.of_mem_parts {p q : Phrase} (h : p.SpelledIn source) (hq : q ∈ p.parts) :
    q.SpelledIn source := by
  revert q
  show ∀ q ∈ p.parts, q.SpelledIn source
  obtain ⟨c, xs, d, hc, hp⟩ := h
  -- a part begins where the lexemes in front of it end
  have hpart {q : Phrase} {c' d' : Cursor} {ys zs : List Lexeme} (hrun : c.Run zs c')
      (hq : q.Spelled c' ys d') : q.SpelledIn source :=
    ⟨c', ys, d', hrun.isIn hc, hq⟩
  cases hp with
  | atom => exact List.forall_mem_nil _
  | group hfirst hinner =>
      exact List.forall_mem_singleton.mpr (hpart hfirst.run_skip hinner)
  | list hboxed hitems => exact spelledIn_of_boxed hboxed hc hitems
  | map hboxed hcolons hkeys hvalues =>
      simp only [parts, List.flatMap_map]
      refine Expr.forall_mem_flatMap_pair.mpr fun e he => ?_
      have hentry {e} (he) := Piece.run_entry (hcolons e he) (hkeys e he).run (hvalues e he).run
      obtain ⟨ys, hys⟩ := (hboxed.run (List.forall_mem_map.mpr fun e he => (hentry he).1)).2 _
        (List.mem_map_of_mem he)
      obtain ⟨zs, hzs⟩ := (hentry he).2
      exact ⟨hpart hys (hkeys e he), hpart (hys.append hzs) (hvalues e he)⟩
  | call hname hboxed hargs => exact spelledIn_of_boxed hboxed (hname.run_skip.isIn hc) hargs
  | sign hsign hoperand => exact List.forall_mem_singleton.mpr (hpart hsign.run_skip hoperand)
  | field htarget => exact List.forall_mem_singleton.mpr (hpart (.nil c) htarget)
  | method htarget _ hpoint hname hboxed hargs =>
      have hfront := htarget.run.append (.cons hpoint hname.run_skip)
      exact List.forall_mem_cons.mpr
        ⟨hpart (.nil c) htarget, spelledIn_of_boxed hboxed (hfront.isIn hc) hargs⟩
  | index htarget _ hfirst hposition =>
      exact forall_mem_pair.mpr
        ⟨hpart (.nil c) htarget, hpart (htarget.run.append hfirst.run_skip) hposition⟩
  | infixed hleft hop hright =>
      exact forall_mem_pair.mpr
        ⟨hpart (.nil c) hleft, hpart (hleft.run.append hop.run_skip) hright⟩
  | choice hcondition hquestion ht hcolon hf =>
      have htrue := hcondition.run.append hquestion.run_skip
      have hfalse := htrue.append (ht.run.append hcolon.run_skip)
      exact List.forall_mem_cons.mpr
        ⟨hpart (.nil c) hcondition, forall_mem_pair.mpr ⟨hpart htrue ht, hpart hfalse hf⟩⟩

theorem SpelledIn.of_occurs {p q : Phrase} (h : p.SpelledIn source) (hq : p.Occurs q) :
    q.SpelledIn source := by
  induction hq with
  | whole => exact h
  | inside hr _ ih => exact ih (h.of_mem_parts hr)

/-- The literals among the lexemes of a phrase stand in it. -/
theorem Spelled.exists_occurs {p : Phrase} {xs : List Lexeme} {c d : Cursor} (h : p.Spelled c xs d)
    {token : Token} {taken : List Char} (hmem : .literal token taken ∈ xs) :
    ∃ span, p.Occurs (.atom span token) := by
  have hinside {p q : Phrase} (hq : q ∈ p.parts) :
      (∃ span, q.Occurs (.atom span token)) → ∃ span, p.Occurs (.atom span token) :=
    fun ⟨span, h⟩ => ⟨span, .inside hq h⟩
  induction h with
  | atom _ htoken =>
      obtain rfl := List.mem_singleton.mp hmem
      cases htoken
      exact ⟨_, .whole _⟩
  | group _ _ _ ih =>
      refine hinside List.mem_cons_self (ih ?_)
      simpa using hmem
  | list hboxed _ ih =>
      obtain ⟨item, hitem, hin⟩ := hboxed.mem_lexemes hmem nofun
      exact hinside (List.mem_map_of_mem hitem) (ih item hitem hin)
  | map hboxed _ _ _ ihkey ihvalue =>
      obtain ⟨_, hpiece, hin⟩ := hboxed.mem_lexemes hmem nofun
      obtain ⟨entry, hentry, rfl⟩ := List.mem_map.mp hpiece
      rcases List.mem_append.mp hin with hin | hin
      · refine hinside ?_ (ihkey entry hentry hin)
        simp only [parts, List.flatMap_map]
        exact List.mem_flatMap.mpr ⟨entry, hentry, List.mem_cons_self⟩
      · refine hinside ?_ (ihvalue entry hentry (by simpa using hin))
        simp only [parts, List.flatMap_map]
        exact List.mem_flatMap.mpr ⟨entry, hentry, by simp⟩
  | call _ hboxed _ ih =>
      have hrow := (List.mem_cons.mp hmem).resolve_left nofun
      obtain ⟨arg, harg, hin⟩ := hboxed.mem_lexemes hrow nofun
      exact hinside (List.mem_map_of_mem harg) (ih arg harg hin)
  | sign _ _ _ ih =>
      refine hinside List.mem_cons_self (ih ?_)
      simpa using hmem
  | field _ _ _ _ ih =>
      refine hinside List.mem_cons_self (ih ?_)
      simpa using hmem
  | method _ _ _ _ hboxed _ ih ihargs =>
      rcases List.mem_append.mp hmem with hin | hin
      · exact hinside List.mem_cons_self (ih hin)
      · have hname := (List.mem_cons.mp hin).resolve_left nofun
        have hrow := (List.mem_cons.mp hname).resolve_left nofun
        obtain ⟨arg, harg, hin⟩ := hboxed.mem_lexemes hrow nofun
        exact hinside (List.mem_cons_of_mem _ (List.mem_map_of_mem harg)) (ihargs arg harg hin)
  | index _ _ _ _ _ ih ihposition =>
      rcases List.mem_append.mp hmem with hin | hin
      · exact hinside List.mem_cons_self (ih hin)
      · refine hinside (by simp [parts]) (ihposition ?_)
        simpa using hin
  | infixed _ _ _ _ _ ihleft ihright =>
      rcases List.mem_append.mp hmem with hin | hin
      · exact hinside List.mem_cons_self (ihleft hin)
      · refine hinside (by simp [parts]) (ihright ?_)
        simpa using hin
  | choice _ _ _ _ _ _ ihc iht ihf =>
      have hin := hmem
      simp only [List.mem_append, List.mem_cons, reduceCtorEq, false_or] at hin
      rcases hin with hin | hin | hin
      · exact hinside (by simp [parts]) (ihc hin)
      · exact hinside (by simp [parts]) (iht hin)
      · exact hinside (by simp [parts]) (ihf hin)

end Phrase

/-! ### Nodes of built trees -/

namespace Built

theorem all_of_node {expr : Expr} {below : Nat} {b : Built} (h : node bound expr below = .ok b)
    (hgood : good b.expr) (hoperands : ∀ o ∈ expr.operands, o.2.All good) : b.expr.All good := by
  unfold node at h
  split at h
  · cases h
  · cases h
    exact .node hgood hoperands

theorem all_of_ofToken {span : Span} {token : Token} {b : Built} (h : ofToken span token = .ok b)
    (hgood : good b.expr) : b.expr.All good := by
  have hleaf : b.expr.operands = [] := by
    cases leaf_of_ofToken h <;> rfl
  exact .node hgood (hleaf ▸ List.forall_mem_nil _)

/-- The sign of the least integer makes a literal of a literal. -/
theorem all_of_signed {start : Nat} {op : UnaryOp} {operand b : Built}
    (h : signed bound start op operand = .ok b) (hgood : good b.expr)
    (hoperand : operand.settle = .ok operand → operand.expr.All good) : b.expr.All good := by
  simp only [signed] at h
  split at h
  · cases h
    exact .node hgood (List.forall_mem_nil _)
  · obtain ⟨settled, hsettled, h⟩ := of_bind_eq_ok h
    obtain rfl := settle_eq_ok hsettled
    exact all_of_node h hgood (List.forall_mem_singleton.mpr (hoperand hsettled))

/-- Of the signs, only a minus takes what is no operand of anything else. -/
theorem settle_of_signed {start : Nat} {op : UnaryOp} {operand b : Built}
    (h : signed bound start op operand = .ok b) (hop : op ≠ .neg) :
    operand.settle = .ok operand := by
  simp only [signed, hop, false_and, if_false] at h
  obtain ⟨c, hc, -⟩ := of_bind_eq_ok h
  obtain rfl := settle_eq_ok hc
  exact hc

theorem all_of_infixExpr {span : Span} {op : InfixOp} {left right : Expr} {below : Nat} {b : Built}
    (h : node bound (infixExpr span op left right) below = .ok b) (hgood : good b.expr)
    (hleft : left.All good) (hright : right.All good) : b.expr.All good := by
  have hoperands : ∀ o ∈ [(([] : List String), left), ([], right)], o.2.All good :=
    forall_mem_pair.mpr ⟨hleft, hright⟩
  cases op with
  | logic | relation | arith => exact all_of_node h hgood hoperands

/-- A call keeps some of its parts, and `has` the target of its argument. -/
theorem all_of_expands {span : Span} {below : Nat} {target : Option Expr} {args : List Expr}
    {build : Nat → Except ParseError Built} {b : Built} (h : Expands span below target args build)
    (hbuild : build bound = .ok b) (hgood : good b.expr)
    (hparts : ∀ part ∈ target.toList ++ args, part.All good) : b.expr.All good := by
  cases h with
  | misuse => cases hbuild
  | has =>
      have hfield := List.forall_mem_singleton.mp hparts
      exact all_of_node hbuild hgood
        (List.forall_mem_singleton.mpr (hfield.operands _ List.mem_cons_self))
  | node _ _ _ hoperands =>
      exact all_of_node hbuild hgood fun o ho =>
        hparts o.2 (hoperands.subset (List.mem_map_of_mem ho))

end Built

namespace Phrase

/-- The phrase is built into this tree, which may be an operand. -/
structure Builds (bound : Nat) (p : Phrase) (b : Built) : Prop where
  build_eq : p.build bound = .ok b
  settle_eq : b.settle = .ok b

theorem all_of_buildItems {items : List Phrase} {bs : List Built}
    (h : buildItems bound items = .ok bs) (hsettled : ∀ b ∈ bs, b.settle = .ok b)
    (hitems : ∀ item ∈ items, ∀ b, item.Builds bound b → b.expr.All good) :
    ∀ e ∈ bs.map Built.expr, e.All good := by
  intro e he
  obtain ⟨b, hb, rfl⟩ := List.mem_map.mp he
  obtain ⟨item, hitem, hbuild⟩ := (buildItems_eq_ok h).2 b hb
  exact hitems item hitem b ⟨hbuild, hsettled b hb⟩

/-- Every node of a tree is its root, or a node of the tree of a part. -/
theorem all_of_parts {p : Phrase} {b : Built} (h : p.build bound = .ok b)
    (hgood : ¬p.IsGroup → good b.expr)
    (hparts : ∀ q ∈ p.parts, ∀ c, q.Builds bound c → c.expr.All good) : b.expr.All good := by
  cases p with
  | atom => exact Built.all_of_ofToken h (hgood id)
  | group inner =>
      obtain ⟨c, hc, h⟩ := of_bind_eq_ok h
      obtain rfl := Built.settle_eq_ok h
      exact hparts inner List.mem_cons_self _ ⟨hc, h⟩
  | list =>
      obtain ⟨items, hitems, hsettled, h⟩ := Built.of_settledAll_eq_ok h
      exact Built.all_of_node h (hgood id)
        (List.forall_mem_map.mpr (all_of_buildItems hitems hsettled hparts))
  | map =>
      obtain ⟨built, hbuilt, h⟩ := of_bind_eq_ok h
      refine Built.all_of_node h (hgood id) ?_
      simp only [Expr.operands, List.flatMap_map]
      refine Expr.forall_mem_flatMap_pair.mpr fun c hc => ?_
      obtain ⟨entry, hentry, hkey, hvalue⟩ := (buildEntries_eq_ok hbuilt).2 c hc
      obtain ⟨hkeys, hvalues⟩ := Expr.forall_mem_flatMap_pair.mp hparts entry hentry
      exact ⟨hkeys _ ⟨hkey.1, hkey.2⟩, hvalues _ ⟨hvalue.1, hvalue.2⟩⟩
  | call =>
      obtain ⟨args, hargs, hsettled, h⟩ := Built.of_settledAll_eq_ok h
      exact Built.all_of_expands (Built.call_expands ..) h (hgood id)
        (all_of_buildItems hargs hsettled hparts)
  | sign _ _ operand =>
      obtain ⟨c, hc, h⟩ := of_bind_eq_ok h
      exact Built.all_of_signed h (hgood id) fun hsettled =>
        hparts operand List.mem_cons_self c ⟨hc, hsettled⟩
  | field target =>
      obtain ⟨c, hc, hsettled, h⟩ := Built.of_settled_eq_ok h
      exact Built.all_of_node h (hgood id)
        (List.forall_mem_singleton.mpr (hparts target List.mem_cons_self c ⟨hc, hsettled⟩))
  | method =>
      obtain ⟨htarget, hrest⟩ := List.forall_mem_cons.mp hparts
      obtain ⟨c, hc, hsettled, h⟩ := Built.of_settled_eq_ok h
      obtain ⟨args, hargs, hsettledAll, h⟩ := Built.of_settledAll_eq_ok h
      exact Built.all_of_expands (Built.method_expands ..) h (hgood id)
        (List.forall_mem_cons.mpr
          ⟨htarget c ⟨hc, hsettled⟩, all_of_buildItems hargs hsettledAll hrest⟩)
  | index =>
      obtain ⟨htarget, hposition⟩ := forall_mem_pair.mp hparts
      obtain ⟨c, hc, hsettled, h⟩ := Built.of_settled_eq_ok h
      obtain ⟨c', hc', hsettled', h⟩ := Built.of_settled_eq_ok h
      exact Built.all_of_node h (hgood id)
        (forall_mem_pair.mpr ⟨htarget c ⟨hc, hsettled⟩, hposition c' ⟨hc', hsettled'⟩⟩)
  | infixed =>
      obtain ⟨hleft, hright⟩ := forall_mem_pair.mp hparts
      obtain ⟨c, hc, hsettled, h⟩ := Built.of_settled_eq_ok h
      obtain ⟨c', hc', hsettled', h⟩ := Built.of_settled_eq_ok h
      exact Built.all_of_infixExpr h (hgood id) (hleft c ⟨hc, hsettled⟩)
        (hright c' ⟨hc', hsettled'⟩)
  | choice =>
      obtain ⟨hcondition, hbranches⟩ := List.forall_mem_cons.mp hparts
      obtain ⟨htrue, hfalse⟩ := forall_mem_pair.mp hbranches
      obtain ⟨c, hc, hsettled, h⟩ := Built.of_settled_eq_ok h
      obtain ⟨f, hf, hsettled', h⟩ := Built.of_settled_eq_ok h
      obtain ⟨t, ht, hsettled'', h⟩ := Built.of_settled_eq_ok h
      refine Built.all_of_node h (hgood id)
        (List.forall_mem_cons.mpr ⟨hcondition c ⟨hc, hsettled⟩, ?_⟩)
      exact forall_mem_pair.mpr ⟨htrue t ⟨ht, hsettled''⟩, hfalse f ⟨hf, hsettled'⟩⟩

/-- What is true of the trees of all phrases in a phrase of the source, those in parentheses but
not the parentheses, is true of every node. -/
theorem all_of_build
    (hgood : ∀ p : Phrase, p.SpelledIn source → p.Placed source → ¬p.IsGroup →
      ∀ b, p.Builds bound b → good b.expr) {p : Phrase} (hspelled : p.SpelledIn source)
    (hplaced : p.Placed source) {b : Built} (h : p.Builds bound b) : b.expr.All good := by
  induction p using Phrase.induct generalizing b with
  | step p ih =>
      refine all_of_parts h.build_eq (fun hgroup => hgood p hspelled hplaced hgroup b h) ?_
      intro q hq c hc
      exact ih q hq (hspelled.of_mem_parts hq) (hplaced.of_mem_parts hq) hc

/-! ### Parts of phrases that are built -/

theorem exists_mem_of_buildItems {items : List Phrase} {bs : List Built}
    (h : buildItems bound items = .ok bs) :
    ∀ item ∈ items, ∃ b ∈ bs, build bound item = .ok b := by
  induction items generalizing bs with
  | nil => exact List.forall_mem_nil _
  | cons item rest ih =>
      obtain ⟨b, hb, h⟩ := of_bind_eq_ok h
      obtain ⟨others, hothers, h⟩ := of_bind_eq_ok h
      cases h
      refine List.forall_mem_cons.mpr ⟨⟨b, List.mem_cons_self, hb⟩, fun other hother => ?_⟩
      obtain ⟨c, hc, hbuild⟩ := ih hothers other hother
      exact ⟨c, List.mem_cons_of_mem _ hc, hbuild⟩

theorem builds_of_buildItems {items : List Phrase} {bs : List Built}
    (h : buildItems bound items = .ok bs) (hsettled : ∀ b ∈ bs, b.settle = .ok b) :
    ∀ item ∈ items, ∃ b, item.Builds bound b := by
  intro item hitem
  obtain ⟨b, hb, hbuild⟩ := exists_mem_of_buildItems h item hitem
  exact ⟨b, hbuild, hsettled b hb⟩

theorem builds_of_buildEntries {entries : List (Phrase × Phrase)} {built : List (Built × Built)}
    (h : buildEntries bound entries = .ok built) :
    ∀ entry ∈ entries, (∃ b, entry.1.Builds bound b) ∧ ∃ b, entry.2.Builds bound b := by
  induction entries generalizing built with
  | nil => exact List.forall_mem_nil _
  | cons entry rest ih =>
      obtain ⟨k, hk, hk', h⟩ := Built.of_settled_eq_ok h
      obtain ⟨v, hv, hv', h⟩ := Built.of_settled_eq_ok h
      obtain ⟨others, hothers, -⟩ := of_bind_eq_ok h
      exact List.forall_mem_cons.mpr ⟨⟨⟨k, hk, hk'⟩, v, hv, hv'⟩, ih hothers⟩

/-- What is built has operands for its parts, except for the operand of a minus. -/
theorem builds_of_mem_parts {p q : Phrase} {b : Built} (h : p.build bound = .ok b)
    (hq : q ∈ p.parts) :
    ∃ c, q.build bound = .ok c ∧ ((∀ start, p ≠ .sign start .neg q) → c.settle = .ok c) := by
  revert q
  show ∀ q ∈ p.parts, _
  have hbuilds {q : Phrase} {c : Built} (hc : q.Builds bound c) :
      ∃ c, q.build bound = .ok c ∧ ((∀ start, p ≠ .sign start .neg q) → c.settle = .ok c) :=
    ⟨c, hc.build_eq, fun _ => hc.settle_eq⟩
  cases p with
  | atom => exact List.forall_mem_nil _
  | group inner =>
      obtain ⟨c, hc, h⟩ := of_bind_eq_ok h
      obtain rfl := Built.settle_eq_ok h
      exact List.forall_mem_singleton.mpr (hbuilds ⟨hc, h⟩)
  | list | call =>
      obtain ⟨bs, hbs, hsettled, -⟩ := Built.of_settledAll_eq_ok h
      exact fun q hq => (builds_of_buildItems hbs hsettled q hq).elim fun _ => hbuilds
  | map =>
      obtain ⟨built, hbuilt, -⟩ := of_bind_eq_ok h
      refine Expr.forall_mem_flatMap_pair.mpr fun entry hentry => ?_
      obtain ⟨⟨k, hk⟩, v, hv⟩ := builds_of_buildEntries hbuilt entry hentry
      exact ⟨hbuilds hk, hbuilds hv⟩
  | sign start op operand =>
      obtain ⟨c, hc, h⟩ := of_bind_eq_ok h
      refine List.forall_mem_singleton.mpr ⟨c, hc, fun hsign => ?_⟩
      have hop : op ≠ .neg := fun heq => hsign start (heq ▸ rfl)
      exact Built.settle_of_signed h hop
  | field =>
      obtain ⟨c, hc, hsettled, -⟩ := Built.of_settled_eq_ok h
      exact List.forall_mem_singleton.mpr (hbuilds ⟨hc, hsettled⟩)
  | method =>
      obtain ⟨c, hc, hsettled, h⟩ := Built.of_settled_eq_ok h
      obtain ⟨bs, hbs, hall, -⟩ := Built.of_settledAll_eq_ok h
      exact List.forall_mem_cons.mpr ⟨hbuilds ⟨hc, hsettled⟩, fun q hq =>
        (builds_of_buildItems hbs hall q hq).elim fun _ => hbuilds⟩
  | index | infixed =>
      obtain ⟨c, hc, hsettled, h⟩ := Built.of_settled_eq_ok h
      obtain ⟨c', hc', hsettled', -⟩ := Built.of_settled_eq_ok h
      exact forall_mem_pair.mpr ⟨hbuilds ⟨hc, hsettled⟩, hbuilds ⟨hc', hsettled'⟩⟩
  | choice =>
      obtain ⟨c, hc, hsettled, h⟩ := Built.of_settled_eq_ok h
      obtain ⟨f, hf, hsettled', h⟩ := Built.of_settled_eq_ok h
      obtain ⟨t, ht, hsettled'', -⟩ := Built.of_settled_eq_ok h
      exact List.forall_mem_cons.mpr ⟨hbuilds ⟨hc, hsettled⟩,
        forall_mem_pair.mpr ⟨hbuilds ⟨ht, hsettled''⟩, hbuilds ⟨hf, hsettled'⟩⟩⟩

theorem Occurs.exists_build {p q : Phrase} {b : Built} (h : p.Occurs q)
    (hbuild : p.build bound = .ok b) : ∃ c, q.build bound = .ok c := by
  induction h generalizing b with
  | whole => exact ⟨b, hbuild⟩
  | inside hq _ ih =>
      obtain ⟨c, hc, -⟩ := builds_of_mem_parts hbuild hq
      exact ih hc

/-! ### Sources -/

/-- A phrase that is read is spelled by all lexemes of the source. -/
theorem lexed_of_read? {p : Phrase} (h : read? source = some p) :
    ∃ xs d, Lexed source xs ∧ p.Spelled (Cursor.skip ⟨0, source⟩) xs d := by
  obtain ⟨xs, d, hspelled, hend⟩ := spelled_of_read? h
  refine ⟨xs, d, (Lexed.of_run hspelled.run hend).congr ?_, hspelled⟩
  rw [Cursor.rest_skip, behindLayout_behindLayout]

theorem spelledIn_of_read? {p : Phrase} (h : read? source = some p) : p.SpelledIn source := by
  obtain ⟨xs, d, -, hspelled⟩ := lexed_of_read? h
  have hstart : (⟨0, source⟩ : Cursor).In source := ⟨[], rfl, rfl⟩
  exact ⟨_, xs, d, hstart.skip, hspelled⟩

end Phrase

/-- The tree of a source is built of the phrase that the source is. -/
theorem builds_of_parse {e : Expr} (h : parse bound source = .ok e) :
    ∃ p b, Phrase.read? source = some p ∧ p.Builds bound b ∧ b.expr = e := by
  obtain ⟨_, _, hread⟩ := of_bind_eq_ok h
  split at hread
  · cases hread
  · rename_i p hp
    obtain ⟨b, hbuild, hsettle, hexpr⟩ := Built.of_settled_eq_ok hread
    cases hexpr
    exact ⟨p, b, hp, ⟨hbuild, hsettle⟩, rfl⟩

/-- What is true of what is built of every phrase in the source is true of every node. -/
theorem all_of_parse
    (hgood : ∀ p : Phrase, p.SpelledIn source → p.Placed source → ¬p.IsGroup →
      ∀ b, p.Builds bound b → good b.expr) {e : Expr} (h : parse bound source = .ok e) :
    e.All good := by
  obtain ⟨p, b, hp, hb, rfl⟩ := builds_of_parse h
  exact Phrase.all_of_build hgood (Phrase.spelledIn_of_read? hp) (Phrase.placed_of_read? hp) hb

end EmbeddedExpr.Grammar
