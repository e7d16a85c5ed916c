import EmbeddedExpr.Proofs.Eval.Comprehensions
import Mathlib.Data.List.Duplicate
import Mathlib.Data.List.Perm.Basic

/-!
# The order in which a map literal is written

A map literal evaluates its entries from left to right and puts each in its place among those
before it, unless its key is there already.  So what has been entered depends on the order at every
step.  What is kept is that the keys entered and those still to come are together the same ones,
whatever their order: they are all different just if they were so at the beginning
(`evalEntries_settles`, `evalEntries_settles_error`).

The entries of a map stand in the order of their keys, so different keys make one and the same map
in any order of the entries (`map_literal_order_free`), and all that goes through the entries of a
map meets them in this order, comprehensions not least (`Point.outcome_iterate_of_ranges`).
-/

namespace EmbeddedExpr

/-! ### The order of keys, kind by kind -/

/-- The order of keys: Booleans, integers, unsigned integers and texts, and those of one kind in the
order that they have by themselves. -/
inductive MapKey.Before : MapKey → MapKey → Prop
  | bool : Before (bool false) (bool true)
  | int {i j : Int64} : i < j → Before (int i) (int j)
  | uint {u v : UInt64} : u < v → Before (uint u) (uint v)
  | text {s t : String} : s < t → Before (text s) (text t)
  | bool_int (b : Bool) (i : Int64) : Before (bool b) (int i)
  | bool_uint (b : Bool) (u : UInt64) : Before (bool b) (uint u)
  | bool_text (b : Bool) (s : String) : Before (bool b) (text s)
  | int_uint (i : Int64) (u : UInt64) : Before (int i) (uint u)
  | int_text (i : Int64) (s : String) : Before (int i) (text s)
  | uint_text (u : UInt64) (s : String) : Before (uint u) (text s)

theorem MapKey.before_of_cmp_eq_lt {j k : MapKey} (h : cmp j k = .lt) : Before j k := by
  cases j <;> cases k <;> try cases h
  case bool.bool a b => cases a <;> cases b <;> first | exact .bool | cases h
  case int.int i j => exact .int (Int64.lt_iff_toInt_lt.mpr (Int.compare_eq_lt.mp h))
  case uint.uint u v => exact .uint (UInt64.lt_iff_toNat_lt.mpr (Nat.compare_eq_lt.mp h))
  case text.text s t => exact .text (compareText_eq_lt_iff.mp h)
  case bool.int => exact .bool_int _ _
  case bool.uint => exact .bool_uint _ _
  case bool.text => exact .bool_text _ _
  case int.uint => exact .int_uint _ _
  case int.text => exact .int_text _ _
  case uint.text => exact .uint_text _ _

namespace Eval

/-! ### Entering the entries -/

/-- The keys and values that the entries of a map literal have at a point. -/
def Point.Names (p : Point) (entries : List (Expr × Expr)) (named : List (MapKey × Value)) : Prop :=
  List.Forall₂ (fun entry pair => p.outcome entry.1 = .ok pair.1.toValue ∧
    p.outcome entry.2 = .ok pair.2) entries named

theorem ofValue?_toValue (key : MapKey) : MapKey.ofValue? key.toValue = some key := by
  cases key <;> rfl

/-- Entries in another order have their keys and values in that order. -/
theorem Point.Names.of_perm {p : Point} {entries order : List (Expr × Expr)}
    {named : List (MapKey × Value)} (h : p.Names entries named) (hperm : order.Perm entries) :
    ∃ named', p.Names order named' ∧ named'.Perm named :=
  List.perm_comp_forall₂ hperm h

/-- A key joins those before it: together with the keys to come they stay the same ones. -/
theorem keys_insert_perm {before : List (MapKey × Value)} {key : MapKey}
    (hnew : key ∉ before.map Prod.fst) (value : Value) (rest : List MapKey) :
    ((Entries.insert MapKey.cmp key value before).map Prod.fst ++ rest).Perm
      (before.map Prod.fst ++ key :: rest) := by
  have hinsert : ((Entries.insert MapKey.cmp key value before).map Prod.fst).Perm
      (key :: before.map Prod.fst) := (Entries.insert_perm hnew).map Prod.fst
  exact (hinsert.append_right rest).trans List.perm_middle.symm

section Entering

variable {p : Point} {before : List (MapKey × Value)}

/-- The evaluation of an entry with a new key goes on with the entry in its place. -/
theorem evalEntries_settles_cons {keyExpr valueExpr : Expr} {rest : List (Expr × Expr)}
    {key : MapKey} {value : Value} (hkey : p.outcome keyExpr = .ok key.toValue)
    (hvalue : p.outcome valueExpr = .ok value)
    {result : Except Failure (List (MapKey × Value))}
    (hrest : (if (Entries.get? before key).isSome then
        Run.throw ⟨.duplicateKey key.display, keyExpr.span⟩
      else evalEntries p.env p.scope (p.depth + 1)
        (Entries.insert MapKey.cmp key value before) rest).Settles p.steps result) :
    (evalEntries p.env p.scope (p.depth + 1) before ((keyExpr, valueExpr) :: rest)).Settles
      p.steps result := by
  have hkeyRun := p.eval_settles keyExpr
  have hvalueRun := p.eval_settles valueExpr
  rw [hkey] at hkeyRun
  rw [hvalue] at hvalueRun
  rw [evalEntries]
  refine hkeyRun.bind ?_
  rw [ofValue?_toValue]
  exact hvalueRun.bind hrest

/-- Entries with different keys are all entered. -/
theorem evalEntries_settles {entries : List (Expr × Expr)} {named : List (MapKey × Value)}
    (h : p.Names entries named)
    (hdistinct : (before.map Prod.fst ++ named.map Prod.fst).Nodup) :
    (evalEntries p.env p.scope (p.depth + 1) before entries).Settles p.steps
      (.ok (named.foldl (fun acc pair => Entries.insert MapKey.cmp pair.1 pair.2 acc) before)) := by
  induction h generalizing before with
  | nil => exact .pure before
  | @cons entry pair entries named hentry _ ih =>
      rw [List.map_cons] at hdistinct
      have hnew : pair.1 ∉ before.map Prod.fst := fun hmem =>
        (List.nodup_append.mp hdistinct).2.2 _ hmem _ List.mem_cons_self rfl
      refine evalEntries_settles_cons hentry.1 hentry.2 ?_
      rw [if_neg (mt Entries.get?_isSome_iff.mp hnew)]
      exact ih ((keys_insert_perm hnew _ _).nodup_iff.mpr hdistinct)

/-- Of entries of which two have one key, the later one of such two cannot be entered. -/
theorem evalEntries_settles_error {entries : List (Expr × Expr)} {named : List (MapKey × Value)}
    (h : p.Names entries named) (hbefore : (before.map Prod.fst).Nodup)
    (hrepeated : ¬ (before.map Prod.fst ++ named.map Prod.fst).Nodup) :
    ∃ entry ∈ entries, ∃ key, p.outcome entry.1 = .ok key.toValue ∧
      List.Duplicate key (before.map Prod.fst ++ named.map Prod.fst) ∧
      (evalEntries p.env p.scope (p.depth + 1) before entries).Settles p.steps
        (.error ⟨.duplicateKey key.display, entry.1.span⟩) := by
  induction h generalizing before with
  | nil => exact absurd (by rwa [List.map_nil, List.append_nil]) hrepeated
  | @cons entry pair entries named hentry _ ih =>
      rw [List.map_cons] at hrepeated ⊢
      by_cases hmem : pair.1 ∈ before.map Prod.fst
      · refine ⟨entry, List.mem_cons_self, pair.1, hentry.1, ?_, ?_⟩
        · have hold : 0 < (before.map Prod.fst).count pair.1 := List.count_pos_iff.mpr hmem
          rw [List.duplicate_iff_two_le_count, List.count_append, List.count_cons_self]
          omega
        · refine evalEntries_settles_cons hentry.1 hentry.2 ?_
          rw [if_pos (Entries.get?_isSome_iff.mpr hmem)]
          exact .throw _
      · have hperm := keys_insert_perm hmem pair.2 (named.map Prod.fst)
        have hkeys := keys_insert_perm hmem pair.2 []
        have hafter : ((Entries.insert MapKey.cmp pair.1 pair.2 before).map Prod.fst).Nodup := by
          rw [List.append_nil] at hkeys
          rw [hkeys.nodup_iff, List.nodup_append_comm]
          exact List.nodup_cons.mpr ⟨hmem, hbefore⟩
        obtain ⟨later, hlater, key, hkey, hduplicate, hsettles⟩ :=
          ih hafter (mt hperm.nodup_iff.mp hrepeated)
        refine ⟨later, List.mem_cons_of_mem _ hlater, key, hkey, ?_, ?_⟩
        · rw [List.duplicate_iff_two_le_count] at hduplicate ⊢
          rwa [hperm.count_eq] at hduplicate
        · refine evalEntries_settles_cons hentry.1 hentry.2 ?_
          rwa [if_neg (mt Entries.get?_isSome_iff.mp hmem)]

end Entering

/-! ### Going through the items of a range -/

/-- A run that goes the same from fewer steps settles on the outcome that it has. -/
theorem Relaxed.settles {α : Type} {r : Run α} (h : Relaxed r r) (steps : Nat) :
    r.Settles steps (r steps).1 := by
  intro later hlater
  refine ⟨h.counts later, ?_⟩
  by_cases hexhausted : Exhausted (r later).1
  · exact .inl hexhausted
  · exact .inr (h.agrees hlater hexhausted).1.symm

namespace Point

variable {p : Point} {kind : IterationKind} {var : String} {filter : Option Expr} {body : Expr}
  {items : List Value}

/-- The iteration over items that a comprehension at the point consists of. -/
def iteration (p : Point) (kind : IterationKind) (var : String) (filter : Option Expr)
    (body : Expr) (items : List Value) : Run Value :=
  iterateOver kind (Run.tick p.env.limits body.span)
    (filter.map fun test item => do
      let value ← eval p.env ((var, item) :: p.scope) (p.depth + 1) test
      asBool kind.name test.span value)
    (fun item => eval p.env ((var, item) :: p.scope) (p.depth + 1) body)
    (fun item => do
      let value ← eval p.env ((var, item) :: p.scope) (p.depth + 1) body
      asBool kind.name body.span value)
    items

theorem iteration_relaxed (p : Point) (kind : IterationKind) (var : String)
    (filter : Option Expr) (body : Expr) (items : List Value) :
    Relaxed (p.iteration kind var filter body items) (p.iteration kind var filter body items) := by
  have heval (e : Expr) (item : Value) :
      Relaxed (eval p.env ((var, item) :: p.scope) (p.depth + 1) e)
        (eval p.env ((var, item) :: p.scope) (p.depth + 1) e) :=
    eval_relaxed p.env _ (p.depth + 1) 0 e
  have hfaults (e : Expr) : Simulation.relaxed.Ordinarily e.span := fun _ _ => trivial
  have htest (e : Expr) := Simulation.bodyAsBool kind (hfaults e) (heval e)
  refine Simulation.relaxed.iterateOver kind (Relaxed.tick _ _) (heval body) (htest body) ?_ items
  cases filter with
  | none => exact .none
  | some test => exact .some (htest test)

/-- What a comprehension gives depends on the items of its range and on nothing else of it. -/
theorem outcome_iterate_of_ranges {s : Span} {range : Expr} (hrange : p.Ranges range items)
    (hclear : ¬ Exhausted (p.outcome (.iterate s kind range var filter body))) :
    p.outcome (.iterate s kind range var filter body) =
      (p.iteration kind var filter body items p.steps).1 := by
  obtain ⟨value, hvalue, hitems⟩ := hrange
  have hvalueRun := p.eval_settles range
  have hitemsRun := rangeItems_settles kind range.span p.steps value
  have hloop := (p.iteration_relaxed kind var filter body items).settles p.steps
  rw [hvalue] at hvalueRun
  rw [asRange_eq_ok_iff.mpr hitems] at hitemsRun
  cases filter <;>
  · rw [outcome, eval] at hclear ⊢
    exact (hvalueRun.bind (hitemsRun.bind hloop)).nested.eq_outcome hclear

end Point

/-! ### Map literals -/

section Literals

variable {p : Point} {entries : List (Expr × Expr)} {named : List (MapKey × Value)} {s : Span}

/-- A literal with different keys is the map of its entries. -/
theorem outcome_map_of_nodup (h : p.Names entries named) (hdistinct : (named.map Prod.fst).Nodup)
    (hclear : ¬ Exhausted (p.outcome (.map s entries))) :
    p.outcome (.map s entries) = .ok (.ofEntries named) := by
  have hentered : (evalEntries p.env p.scope (p.depth + 1) [] entries).Settles p.steps
      (.ok (Entries.ofList MapKey.cmp named)) := evalEntries_settles h hdistinct
  rw [Point.outcome, eval] at hclear ⊢
  exact (hentered.bind (Run.Settles.pure (Value.map _))).nested.eq_outcome hclear

/-- A literal with a repeated key fails at an entry that has one. -/
theorem outcome_map_of_not_nodup (h : p.Names entries named)
    (hrepeated : ¬ (named.map Prod.fst).Nodup)
    (hclear : ¬ Exhausted (p.outcome (.map s entries))) :
    ∃ entry ∈ entries, ∃ key, p.outcome entry.1 = .ok key.toValue ∧
      List.Duplicate key (named.map Prod.fst) ∧
      p.outcome (.map s entries) = .error ⟨.duplicateKey key.display, entry.1.span⟩ := by
  have hnone : (([] : List (MapKey × Value)).map Prod.fst).Nodup := List.nodup_nil
  obtain ⟨entry, hentry, key, hkey, hduplicate, hsettles⟩ :=
    evalEntries_settles_error h hnone hrepeated
  refine ⟨entry, hentry, key, hkey, hduplicate, ?_⟩
  rw [Point.outcome, eval] at hclear ⊢
  exact (hsettles.bind_error _).nested.eq_outcome hclear

/-- Let all keys and values of a map literal have values.  If two keys are equal, the entries fail
with a duplicate key in any order; else they make one map in all orders, with its keys in ascending
order, so that every comprehension over it goes through these keys and has one outcome.  It is one
and the same map, which is more than equality says where a NaN is in it. -/
theorem map_literal_order_free (p : Point) {entries : List (Expr × Expr)}
    {named : List (MapKey × Value)} (h : p.Names entries named) :
    (¬ (named.map Prod.fst).Nodup →
      ∀ (s : Span) (order : List (Expr × Expr)), order.Perm entries →
        ¬ Exhausted (p.outcome (.map s order)) →
        ∃ entry ∈ order, ∃ key, p.outcome entry.1 = .ok key.toValue ∧
          List.Duplicate key (named.map Prod.fst) ∧
          p.outcome (.map s order) = .error ⟨.duplicateKey key.display, entry.1.span⟩) ∧
    ((named.map Prod.fst).Nodup → ∃ sorted : List (MapKey × Value),
      sorted.Perm named ∧ (sorted.map Prod.fst).Pairwise MapKey.Before ∧
      ∀ (s : Span) (order : List (Expr × Expr)), order.Perm entries →
        (¬ Exhausted (p.outcome (.map s order)) →
          p.outcome (.map s order) = .ok (.map sorted) ∧
          p.Ranges (.map s order) (sorted.map fun entry => entry.1.toValue)) ∧
        ∀ (t : Span) (kind : IterationKind) (var : String) (filter : Option Expr) (body : Expr),
          ¬ Exhausted (p.outcome (.iterate t kind (.map s order) var filter body)) →
          p.outcome (.iterate t kind (.map s order) var filter body) =
            (p.iteration kind var filter body
              (sorted.map fun entry => entry.1.toValue) p.steps).1) := by
  refine ⟨fun hrepeated s order hperm hclear => ?_, fun hdistinct => ?_⟩
  · obtain ⟨named', hnamed', hperm'⟩ := h.of_perm hperm
    have hkeys := hperm'.map Prod.fst
    obtain ⟨entry, hentry, key, hkey, hduplicate, hfails⟩ :=
      outcome_map_of_not_nodup hnamed' (mt hkeys.nodup_iff.mp hrepeated) hclear
    refine ⟨entry, hentry, key, hkey, ?_, hfails⟩
    rw [List.duplicate_iff_two_le_count] at hduplicate ⊢
    rwa [hkeys.count_eq] at hduplicate
  · have hsorted : Entries.Ascending (Entries.ofList MapKey.cmp named) :=
      Entries.ofList_ascending named
    have hsame : (Entries.ofList MapKey.cmp named).Perm named := Entries.ofList_perm hdistinct
    refine ⟨Entries.ofList MapKey.cmp named, hsame, ?_, fun s order hperm => ?_⟩
    · exact List.pairwise_map.mpr (hsorted.imp MapKey.before_of_cmp_eq_lt)
    · obtain ⟨named', hnamed', hperm'⟩ := h.of_perm hperm
      have hdistinct' := (hperm'.map Prod.fst).nodup_iff.mpr hdistinct
      have hmap (hclear : ¬ Exhausted (p.outcome (.map s order))) :
          p.outcome (.map s order) = .ok (.map (Entries.ofList MapKey.cmp named)) := by
        rw [outcome_map_of_nodup hnamed' hdistinct' hclear, Value.ofEntries,
          Entries.ofList_eq_of_perm hsorted (hperm'.trans hsame.symm)]
      refine ⟨fun hclear => ⟨hmap hclear, _, hmap hclear, rfl⟩, ?_⟩
      intro t kind var filter body hclear
      have hrange := hmap (Point.not_exhausted_range hclear)
      exact Point.outcome_iterate_of_ranges ⟨_, hrange, rfl⟩ hclear

/-- The keys `"a"`, `1u`, `1` and `true`, in this order and the other way round, and `1` twice. -/
theorem map_literal_order_free_four_kinds :
    let at0 : Span := ⟨0, 0⟩
    let p := Point.start .empty .default
    let entry (key : Literal) : Expr × Expr := (.literal at0 key, .literal at0 .null)
    let entries := [.text "a", .uint 1, .int 1, .bool true].map entry
    let twice := [entry (.int 1), entry (.int 1)]
    (∃ sorted : List (MapKey × Value), (sorted.map Prod.fst).Pairwise MapKey.Before ∧
        p.outcome (.map at0 entries) = .ok (.map sorted) ∧
        p.outcome (.map at0 entries.reverse) = .ok (.map sorted)) ∧
      ∃ failing ∈ twice, ∃ key : MapKey, p.outcome failing.1 = .ok key.toValue ∧
        p.outcome (.map at0 twice) = .error ⟨.duplicateKey key.display, failing.1.span⟩ := by
  intro at0 p entry entries twice
  have hnames : p.Names entries
      [(.text "a", .null), (.uint 1, .null), (.int 1, .null), (.bool true, .null)] :=
    .cons ⟨rfl, rfl⟩ <| .cons ⟨rfl, rfl⟩ <| .cons ⟨rfl, rfl⟩ <| .cons ⟨rfl, rfl⟩ .nil
  have htwice : p.Names twice [(.int 1, .null), (.int 1, .null)] :=
    .cons ⟨rfl, rfl⟩ <| .cons ⟨rfl, rfl⟩ .nil
  constructor
  · obtain ⟨sorted, -, hbefore, hall⟩ := (map_literal_order_free p hnames).2 (by decide)
    have hforward := (hall at0 entries (.refl _)).1 (not_exhausted_of_ok rfl)
    have hbackward := (hall at0 _ entries.reverse_perm).1 (not_exhausted_of_ok rfl)
    exact ⟨sorted, hbefore, hforward.1, hbackward.1⟩
  · have hclear : ¬ Exhausted (p.outcome (.map at0 twice)) := by
      rintro ⟨e, he, hresource⟩
      cases he
      cases hresource
    obtain ⟨failing, hmem, key, hkey, -, hfails⟩ :=
      (map_literal_order_free p htwice).1 (by decide) at0 twice (.refl _) hclear
    exact ⟨failing, hmem, key, hkey, hfails⟩

end Literals

end Eval

end EmbeddedExpr
