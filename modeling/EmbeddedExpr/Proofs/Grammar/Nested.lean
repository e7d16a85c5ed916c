import EmbeddedExpr.Proofs.Grammar.ScanDepth

/-!
# Which sources are too deep

The nesting of a phrase counts one level for every pair of brackets and every operator above its
operands (`Phrase.nesting`).  Building blames the depth of no phrase that is nested within the bound
(`Phrase.build_spared`), so it is only the scan that can blame the depth of a source which is not
nested too deep.  The scan mistakes three things (`Phrase.IsFaithful`): the minus of an exponent
counts as a sign, the question marks of a true case still count in the false case, and those of a
key in the value.

So a source is rejected for its nesting alone just if the scan comes no deeper in it than it is
nested, and that is so where none of the three occurs (`nesting_rejected_only_if_there`).
-/

namespace EmbeddedExpr.Grammar

variable {α β : Type} {bound limit : Nat}

namespace Phrase

/-! ### Nesting -/

mutual

/-- The levels of brackets and operators in a phrase, each one above its own operands. -/
def nesting : Phrase → Nat
  | atom _ _ => 0
  | group inner => nesting inner + 1
  | list _ items => nestingItems items + 1
  | map _ entries => nestingEntries entries + 1
  | call _ _ args => nestingItems args + 1
  | sign _ _ operand => nesting operand + 1
  | field target _ _ => nesting target + 1
  | method target _ args _ => max (nesting target) (nestingItems args) + 1
  | index target position _ => max (nesting target) (nesting position) + 1
  | infixed _ left right => max (nesting left) (nesting right) + 1
  | choice condition whenTrue whenFalse =>
    max (nesting condition) (max (nesting whenTrue) (nesting whenFalse)) + 1

def nestingItems : List Phrase → Nat
  | [] => 0
  | item :: rest => max (nesting item) (nestingItems rest)

def nestingEntries : List (Phrase × Phrase) → Nat
  | [] => 0
  | (key, value) :: rest => max (max (nesting key) (nesting value)) (nestingEntries rest)

end

/-- The scan counts nothing in the phrase that is not nested there: the literal has no sign, and
what stands in front of a colon is no choice. -/
def IsFaithful : Phrase → Prop
  | atom _ token => token.signs = 0
  | map _ entries => ∀ entry ∈ entries, 0 < entry.1.level
  | choice _ whenTrue _ => 0 < whenTrue.level
  | _ => True

theorem scannedItems_le {items : List Phrase}
    (h : ∀ item ∈ items, item.scanned 0 ≤ item.nesting) :
    scannedItems items ≤ nestingItems items := by
  induction items with
  | nil => exact Nat.le_refl 0
  | cons item rest ih =>
      obtain ⟨hitem, hrest⟩ := List.forall_mem_cons.mp h
      have hrest := ih hrest
      rw [scannedItems, nestingItems]
      omega

theorem scannedEntries_le {entries : List (Phrase × Phrase)}
    (hkeys : ∀ entry ∈ entries, 0 < entry.1.level)
    (h : ∀ entry ∈ entries, entry.1.scanned 0 ≤ entry.1.nesting ∧
      entry.2.scanned 0 ≤ entry.2.nesting) : scannedEntries entries ≤ nestingEntries entries := by
  induction entries with
  | nil => exact Nat.le_refl 0
  | cons entry rest ih =>
      obtain ⟨hkey, hkeys⟩ := List.forall_mem_cons.mp hkeys
      obtain ⟨⟨hscannedKey, hscannedValue⟩, hrest⟩ := List.forall_mem_cons.mp h
      have hrest := ih hkeys hrest
      rw [scannedEntries, nestingEntries, marks_eq_zero_of_level hkey]
      omega

/-- In a faithful phrase the scan comes no deeper than it is nested, with the signs in front as
levels above it. -/
theorem scanned_le_nesting {p : Phrase} (h : ∀ q, p.Occurs q → q.IsFaithful) (signs : Nat) :
    p.scanned signs ≤ signs + p.nesting := by
  induction p using Phrase.induct generalizing signs with
  | step p ih =>
      obtain ⟨hhere, hparts⟩ := forall_occurs_iff.mp h
      have hpart {q : Phrase} (hq : q ∈ p.parts) (signs : Nat) :
          q.scanned signs ≤ signs + q.nesting := ih q hq (hparts q hq) signs
      have hinside {q : Phrase} (hq : q ∈ p.parts) : q.scanned 0 ≤ q.nesting := by
        have hle := hpart hq 0
        rwa [Nat.zero_add] at hle
      cases p with
      | atom span token =>
          rw [scanned, hhere]
          exact Nat.zero_le _
      | group inner =>
          have hinner := hinside List.mem_cons_self
          rw [scanned, nesting]
          omega
      | list span items =>
          have hitems : scannedItems items ≤ nestingItems items :=
            scannedItems_le fun item hitem => hinside hitem
          rw [scanned, nesting]
          omega
      | map span entries =>
          have hentries := scannedEntries_le hhere (Expr.forall_mem_flatMap_pair.mp fun q hq =>
            hinside hq)
          rw [scanned, nesting]
          omega
      | call span function args =>
          have hargs : scannedItems args ≤ nestingItems args :=
            scannedItems_le fun arg harg => hinside harg
          rw [scanned, nesting]
          omega
      | sign start op operand =>
          have hoperand := hpart List.mem_cons_self (signs + 1)
          rw [scanned, nesting]
          omega
      | field target name stop =>
          have htarget := hpart List.mem_cons_self signs
          rw [scanned, nesting]
          omega
      | method target name args stop =>
          have htarget := hpart List.mem_cons_self signs
          have hargs := scannedItems_le fun arg harg => hinside (List.mem_cons_of_mem target harg)
          rw [scanned, nesting]
          omega
      | index target position stop =>
          have htarget := hpart List.mem_cons_self signs
          have hposition := hinside (q := position) (by simp [parts])
          rw [scanned, nesting]
          omega
      | infixed op left right =>
          have hleft := hpart (q := left) (by simp [parts]) signs
          have hright := hpart (q := right) (by simp [parts]) op.trailingSigns
          have hsigns : op.signs ≤ 1 ∧ op.trailingSigns ≤ 1 := by
            cases op with
            | logic op | relation op | arith op => cases op <;> decide
          rw [scanned, nesting]
          omega
      | choice condition whenTrue whenFalse =>
          have hcondition := hpart (q := condition) (by simp [parts]) signs
          have htrue := hinside (q := whenTrue) (by simp [parts])
          have hfalse := hinside (q := whenFalse) (by simp [parts])
          rw [scanned, nesting, marks_eq_zero_of_level hhere]
          omega

end Phrase

/-! ### Results that do not blame the depth -/

/-- The result does not blame the depth, and what it is otherwise is good. -/
structure Spared (good : α → Prop) (result : Except ParseError α) : Prop where
  clear : ¬TooDeep result
  good : ∀ a, result = .ok a → good a

namespace Spared

variable {good : α → Prop} {result : Except ParseError α}

theorem ok {a : α} (h : good a) : Spared good (.ok a) :=
  ⟨nofun, fun _ heq => by cases heq; exact h⟩

theorem error {e : ParseError} (h : ∀ depth limit, e.fault ≠ .tooDeep depth limit) :
    Spared good (.error e) :=
  ⟨fun ⟨depth, limit, _, heq⟩ => by cases heq; exact h depth limit rfl, nofun⟩

theorem bind {next : α → Except ParseError β} {final : β → Prop} (h : Spared good result)
    (hnext : ∀ a, good a → Spared final (next a)) : Spared final (result >>= next) := by
  cases result with
  | ok a => exact hnext a (h.good a rfl)
  | error e =>
      refine .error fun depth limit heq => h.clear ⟨depth, limit, e.span, ?_⟩
      rw [← heq]

end Spared

/-! ### Building -/

namespace Built

theorem node_spared {expr : Expr} {below : Nat} (hbelow : below + 1 ≤ limit) (hle : limit ≤ bound) :
    Spared (fun b => b.height ≤ limit) (node bound expr below) := by
  rw [node_eq_ok (Nat.lt_of_lt_of_le hbelow hle)]
  exact .ok hbelow

theorem settle_spared {b : Built} (h : b.height ≤ limit) :
    Spared (fun b => b.height ≤ limit) b.settle := by
  unfold settle
  split
  · exact .ok h
  · exact .error nofun

theorem settleAll_spared {bs : List Built} (h : ∀ b ∈ bs, b.height ≤ limit) :
    Spared (fun bs => ∀ b ∈ bs, b.height ≤ limit) (settleAll bs) := by
  induction bs with
  | nil => exact .ok (List.forall_mem_nil _)
  | cons b rest ih =>
      obtain ⟨hb, hrest⟩ := List.forall_mem_cons.mp h
      exact (settle_spared hb).bind fun c hc => (ih hrest).bind fun cs hcs =>
        .ok (List.forall_mem_cons.mpr ⟨hc, hcs⟩)

theorem ofToken_spared (span : Span) (token : Token) :
    Spared (fun b => b.height ≤ 0) (ofToken span token) := by
  have hleaf := ofToken_leaf span token
  generalize ofToken span token = result at hleaf ⊢
  cases hleaf with
  | fault _ hclear => exact .error hclear
  | _ => exact .ok (Nat.le_refl 0)

theorem signed_spared {start : Nat} {op : UnaryOp} {operand : Built}
    (hoperand : operand.height + 1 ≤ limit) (hle : limit ≤ bound) :
    Spared (fun b => b.height ≤ limit) (signed bound start op operand) := by
  simp only [signed]
  split
  · exact .ok (Nat.zero_le _)
  · exact (settle_spared (Nat.le_refl _)).bind fun c hc => node_spared (by omega) hle

theorem expands_spared {span : Span} {below : Nat} {target : Option Expr} {args : List Expr}
    {build : Nat → Except ParseError Built} {result : Except ParseError Built}
    (h : Expands span below target args build) (hbuild : build bound = result)
    (hbelow : below + 1 ≤ limit) (hle : limit ≤ bound) :
    Spared (fun b => b.height ≤ limit) result := by
  subst hbuild
  cases h with
  | misuse => exact .error nofun
  | has | node => exact node_spared hbelow hle

end Built

namespace Phrase

mutual

/-- Building does not blame the depth of a phrase that is nested within the bound. -/
theorem build_spared (phrase : Phrase) (hle : phrase.nesting ≤ bound) :
    Spared (fun b => b.height ≤ phrase.nesting) (phrase.build bound) := by
  cases phrase with
  | atom span token => exact Built.ofToken_spared span token
  | group inner =>
      rw [nesting] at hle ⊢
      exact (build_spared inner (by omega)).bind fun b hb => Built.settle_spared (by omega)
  | list span items =>
      rw [nesting] at hle ⊢
      exact (buildItems_spared items (by omega)).bind fun bs hbs =>
        (Built.settleAll_spared hbs).bind fun cs hcs =>
          Built.node_spared (Nat.succ_le_succ (Built.greatest_le hcs)) hle
  | map span entries =>
      rw [nesting] at hle ⊢
      refine (buildEntries_spared entries (by omega)).bind fun built hbuilt =>
        Built.node_spared (Nat.succ_le_succ (Built.greatest_le ?_)) hle
      exact Expr.forall_mem_flatMap_pair.mpr hbuilt
  | call span function args =>
      rw [nesting] at hle ⊢
      exact (buildItems_spared args (by omega)).bind fun bs hbs =>
        (Built.settleAll_spared hbs).bind fun cs hcs =>
          Built.expands_spared (Built.call_expands ..) rfl
            (Nat.succ_le_succ (Built.greatest_le hcs)) hle
  | sign start op operand =>
      rw [nesting] at hle ⊢
      exact (build_spared operand (by omega)).bind fun b hb =>
        Built.signed_spared (Nat.succ_le_succ hb) hle
  | field target name stop =>
      rw [nesting] at hle ⊢
      exact (build_spared target (by omega)).bind fun b hb =>
        (Built.settle_spared hb).bind fun c hc => Built.node_spared (Nat.succ_le_succ hc) hle
  | method target name args stop =>
      rw [nesting] at hle ⊢
      refine (build_spared target (by omega)).bind fun b hb =>
        (Built.settle_spared hb).bind fun c hc =>
          (buildItems_spared args (by omega)).bind fun bs hbs =>
            (Built.settleAll_spared hbs).bind fun cs hcs =>
              Built.expands_spared (Built.method_expands ..) rfl ?_ hle
      have hargs := Built.greatest_le hcs
      omega
  | index target position stop =>
      rw [nesting] at hle ⊢
      exact (build_spared target (by omega)).bind fun b hb =>
        (Built.settle_spared hb).bind fun c hc =>
          (build_spared position (by omega)).bind fun b' hb' =>
            (Built.settle_spared hb').bind fun c' hc' => Built.node_spared (by omega) hle
  | infixed op left right =>
      rw [nesting] at hle ⊢
      exact (build_spared left (by omega)).bind fun b hb =>
        (Built.settle_spared hb).bind fun c hc =>
          (build_spared right (by omega)).bind fun b' hb' =>
            (Built.settle_spared hb').bind fun c' hc' => Built.node_spared (by omega) hle
  | choice condition whenTrue whenFalse =>
      rw [nesting] at hle ⊢
      exact (build_spared condition (by omega)).bind fun b hb =>
        (Built.settle_spared hb).bind fun c hc =>
          (build_spared whenFalse (by omega)).bind fun b' hb' =>
            (Built.settle_spared hb').bind fun c' hc' =>
              (build_spared whenTrue (by omega)).bind fun b'' hb'' =>
                (Built.settle_spared hb'').bind fun c'' hc'' => Built.node_spared (by omega) hle

theorem buildItems_spared (items : List Phrase) (hle : nestingItems items ≤ bound) :
    Spared (fun bs => ∀ b ∈ bs, b.height ≤ nestingItems items) (buildItems bound items) := by
  cases items with
  | nil => exact .ok (List.forall_mem_nil _)
  | cons item rest =>
      rw [nestingItems] at hle ⊢
      refine (build_spared item (by omega)).bind fun b hb =>
        (buildItems_spared rest (by omega)).bind fun bs hbs =>
          .ok (List.forall_mem_cons.mpr ⟨by omega, fun c hc => ?_⟩)
      have hc := hbs c hc
      omega

theorem buildEntries_spared (entries : List (Phrase × Phrase))
    (hle : nestingEntries entries ≤ bound) :
    Spared (fun built => ∀ b ∈ built, b.1.height ≤ nestingEntries entries ∧
      b.2.height ≤ nestingEntries entries) (buildEntries bound entries) := by
  cases entries with
  | nil => exact .ok (List.forall_mem_nil _)
  | cons entry rest =>
      obtain ⟨key, value⟩ := entry
      rw [nestingEntries] at hle ⊢
      refine (build_spared key (by omega)).bind fun k hk =>
        (Built.settle_spared hk).bind fun _ hk =>
          (build_spared value (by omega)).bind fun v hv =>
            (Built.settle_spared hv).bind fun _ hv =>
              (buildEntries_spared rest (by omega)).bind fun built hbuilt =>
                .ok (List.forall_mem_cons.mpr ⟨⟨by simp only; omega, by simp only; omega⟩,
                  fun c hc => ?_⟩)
      obtain ⟨hkey, hvalue⟩ := hbuilt c hc
      omega

end

end Phrase

/-! ### Sources -/

/-- Within the bound, the depth of a source is blamed just where the scan comes too deep. -/
theorem tooDeep_parse_iff {source : List Char} {p : Phrase} (h : Phrase.read? source = some p)
    (hle : p.nesting ≤ bound) : TooDeep (parse bound source) ↔ bound < p.scanned 0 := by
  have hparse : parse bound source =
      (Nesting.check bound source >>= fun _ => parseUnscanned bound source) := rfl
  rw [← tooDeep_check_iff h, hparse]
  constructor
  · rcases check_of_read? h bound with hok | hdeep
    · have hspared : Spared (fun _ => True) (parseUnscanned bound source) := by
        unfold parseUnscanned
        rw [h]
        exact (p.build_spared hle).bind fun b hb => (Built.settle_spared hb).bind fun c _ =>
          .ok trivial
      rw [bind_of_ok hok]
      exact fun hdeep => absurd hdeep hspared.clear
    · exact fun _ => hdeep
  · rintro ⟨depth, limit, span, hdeep⟩
    exact ⟨depth, limit, span, by rw [hdeep]; rfl⟩

/-- A source is rejected for its depth only if it is nested too deep, for all bounds just where the
scan comes no deeper than the source is nested; and so it does where no exponent has a minus and no
choice is the true case of a choice or the key of a map. -/
theorem nesting_rejected_only_if_there {source : List Char} {p : Phrase}
    (h : Phrase.read? source = some p) :
    ((∀ bound, TooDeep (parse bound source) → bound < p.nesting) ↔ p.scanned 0 ≤ p.nesting) ∧
      ((∀ q, p.Occurs q → q.IsFaithful) →
        ∀ bound, TooDeep (parse bound source) → bound < p.nesting) := by
  have hiff : (∀ bound, TooDeep (parse bound source) → bound < p.nesting) ↔
      p.scanned 0 ≤ p.nesting := by
    constructor
    · intro hall
      by_contra hlt
      have hdeep := (tooDeep_parse_iff h (Nat.le_refl _)).mpr (Nat.lt_of_not_le hlt)
      exact absurd (hall p.nesting hdeep) (Nat.lt_irrefl _)
    · intro hle bound hdeep
      by_contra hbound
      have hscanned := (tooDeep_parse_iff h (Nat.le_of_not_lt hbound)).mp hdeep
      omega
  refine ⟨hiff, fun hfaithful => hiff.mpr ?_⟩
  have hscanned := Phrase.scanned_le_nesting hfaithful 0
  rwa [Nat.zero_add] at hscanned

/-- `[-x]` is rejected under the bound 1, and it is nested two levels deep. -/
theorem nesting_rejected_signInList :
    ∃ p, Phrase.read? "[-x]".toList = some p ∧ (∀ q, p.Occurs q → q.IsFaithful) ∧
      TooDeep (parse 1 "[-x]".toList) ∧ 1 < p.nesting := by
  let x : Phrase := .atom ⟨2, 3⟩ (.name ['x'])
  let p : Phrase := .list ⟨0, 4⟩ [.sign 1 .neg x]
  have hread : Phrase.read? "[-x]".toList = some p := rfl
  have hdeep : TooDeep (parse 1 "[-x]".toList) := ⟨2, 1, ⟨1, 2⟩, rfl⟩
  have hx : ∀ q, x.Occurs q → q.IsFaithful :=
    Phrase.forall_occurs_iff.mpr ⟨rfl, List.forall_mem_nil _⟩
  have hsign : ∀ q, (Phrase.sign 1 .neg x).Occurs q → q.IsFaithful :=
    Phrase.forall_occurs_iff.mpr ⟨trivial, List.forall_mem_singleton.mpr hx⟩
  have hfaithful : ∀ q, p.Occurs q → q.IsFaithful :=
    Phrase.forall_occurs_iff.mpr ⟨trivial, List.forall_mem_singleton.mpr hsign⟩
  exact ⟨p, hread, hfaithful, hdeep, (nesting_rejected_only_if_there hread).2 hfaithful 1 hdeep⟩

/-- One of two choices that are the cases of a third one, the value behind a key that is a choice,
and an exponent are each blamed for a level that is not there. -/
theorem nesting_rejected_though_absent :
    (∃ p, Phrase.read? "a ? b ? 1 : 2 : c ? 3 : 4".toList = some p ∧ p.nesting = 2 ∧
        TooDeep (parse 2 "a ? b ? 1 : 2 : c ? 3 : 4".toList)) ∧
      (∃ p, Phrase.read? "\x7bx ? 1 : 2 : y ? 3 : 4\x7d".toList = some p ∧ p.nesting = 2 ∧
        TooDeep (parse 2 "\x7bx ? 1 : 2 : y ? 3 : 4\x7d".toList)) ∧
      ∃ p, Phrase.read? "[1e-5]".toList = some p ∧ p.nesting = 1 ∧
        TooDeep (parse 1 "[1e-5]".toList) := by
  have hblamed {source : List Char} {levels : Nat}
      (h : (Phrase.read? source).map (fun p => (p.nesting, p.scanned 0)) =
        some (levels, levels + 1)) :
      ∃ p, Phrase.read? source = some p ∧ p.nesting = levels ∧ TooDeep (parse levels source) := by
    obtain ⟨p, hread, hcount⟩ := Option.map_eq_some_iff.mp h
    obtain ⟨hnesting, hscanned⟩ := Prod.mk.inj hcount
    have hdeeper : levels < p.scanned 0 := hscanned ▸ Nat.lt_succ_self levels
    exact ⟨p, hread, hnesting, (tooDeep_parse_iff hread (Nat.le_of_eq hnesting)).mpr hdeeper⟩
  exact ⟨hblamed (by decide +kernel), hblamed (by decide +kernel), hblamed (by decide +kernel)⟩

end EmbeddedExpr.Grammar
