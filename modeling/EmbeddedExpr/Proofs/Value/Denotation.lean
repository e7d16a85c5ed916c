import EmbeddedExpr.Proofs.Eval.Yields
import EmbeddedExpr.Proofs.Grammar.Build
import EmbeddedExpr.Proofs.Text.Escape
import EmbeddedExpr.Proofs.Time.Duration
import EmbeddedExpr.Proofs.Value.Members
import Mathlib.Data.List.Forall2

/-!
# Phrases that denote a value

A phrase denotes a value if it is built, under every bound above the nesting of the value, into
a tree that evaluates to the value without any bindings (`Phrase.Denotes`).  The tree is at most
one level higher than the value is nested: a negative integer is a sign above its magnitude and
a duration is a call.

There is one lemma for each way in which a value is written.  The least integer is special: its
magnitude is no integer, and only the sign before it makes it one.
-/

namespace EmbeddedExpr

open Eval (eval evalItems evalEntries)
open Grammar (Built Phrase)

/-! ### Nesting -/

namespace Value

mutual

/-- How many lists and maps stand inside each other. -/
def nesting : Value → Nat
  | list items => nestingItems items + 1
  | map entries => nestingEntries entries + 1
  | _ => 0

def nestingItems : List Value → Nat
  | [] => 0
  | item :: rest => max (nesting item) (nestingItems rest)

def nestingEntries : List (MapKey × Value) → Nat
  | [] => 0
  | (_, value) :: rest => max (nesting value) (nestingEntries rest)

end

theorem nesting_le_nestingItems {items : List Value} {v : Value} (h : v ∈ items) :
    v.nesting ≤ nestingItems items := by
  induction items with
  | nil => cases h
  | cons item rest ih =>
      rw [nestingItems]
      rcases List.mem_cons.mp h with rfl | h
      · exact Nat.le_max_left _ _
      · exact Nat.le_trans (ih h) (Nat.le_max_right _ _)

theorem nesting_le_nestingEntries {entries : List (MapKey × Value)} {entry : MapKey × Value}
    (h : entry ∈ entries) : entry.2.nesting ≤ nestingEntries entries := by
  induction entries with
  | nil => cases h
  | cons first rest ih =>
      rw [nestingEntries]
      rcases List.mem_cons.mp h with rfl | h
      · exact Nat.le_max_left _ _
      · exact Nat.le_trans (ih h) (Nat.le_max_right _ _)

/-- Keys are not nested. -/
theorem nesting_toValue (k : MapKey) : k.toValue.nesting = 0 := by
  cases k <;> rfl

end Value

/-! ### Denoting -/

/-- The expression evaluates to the value wherever the depth allows `levels` more. -/
def Expr.EvaluatesTo (e : Expr) (levels : Nat) (v : Value) : Prop :=
  ∀ (limits : Eval.Limits) scope depth, depth + levels ≤ limits.maxDepth →
    (eval ⟨.empty, limits⟩ scope depth e).Yields v

/-- A tree for a value: it stands on its own, is not too high, and evaluates to the value. -/
structure Grammar.Built.IsFor (b : Built) (v : Value) : Prop where
  standsAlone : b.minMagnitude = none
  height_le : b.height ≤ v.nesting + 1
  evaluates : b.expr.EvaluatesTo (v.nesting + 2) v

/-- The phrase is built into a tree for the value. -/
def Grammar.Phrase.Denotes (v : Value) (p : Phrase) : Prop :=
  ∀ bound, v.nesting < bound → ∃ b, p.build bound = .ok b ∧ b.IsFor v

namespace Grammar

variable {bound : Nat} {v : Value} {span : Span}

theorem Built.IsFor.settle {b : Built} (h : b.IsFor v) : b.settle = .ok b := by
  rw [Built.settle, h.standsAlone]

/-! ### Literals -/

theorem evaluatesTo_literal (span : Span) (l : Literal) {levels : Nat} (hlevels : 0 < levels) :
    (Expr.literal span l).EvaluatesTo levels (Eval.literalValue l) := by
  intro limits scope depth hdepth
  rw [eval]
  exact .nested (show depth < limits.maxDepth by omega) (.pure _)

/-- A constant is a tree for its value. -/
theorem isFor_constant (l : Literal) : (Built.constant span l).IsFor (Eval.literalValue l) :=
  ⟨rfl, Nat.zero_le _, evaluatesTo_literal span l (Nat.succ_pos _)⟩

/-- A token that is read as a literal denotes the value of the literal. -/
theorem denotes_atom {token : Token} {l : Literal}
    (h : Built.ofToken span token = .ok (.constant span l)) :
    (Phrase.atom span token).Denotes (Eval.literalValue l) :=
  fun _ _ => ⟨.constant span l, h, isFor_constant l⟩

theorem magnitude?_toDigits (n : Nat) : Built.magnitude? false (Nat.toDigits 10 n) = some n := by
  rw [Built.magnitude?, if_neg nofun, Number.readNat?_toDigits]

theorem denotes_uint (u : UInt64) (text : List Char) :
    (Phrase.atom span (.uint false (Nat.toDigits 10 u.toNat) text)).Denotes (.uint u) := by
  apply denotes_atom (l := .uint u)
  have hfits : Number.uint64? u.toNat = some u := Number.uint64?_eq_some_iff.mpr rfl
  rw [Built.ofToken, magnitude?_toDigits, Option.bind_some, hfits]

theorem ofToken_text {body : List Char} {s : String}
    (h : Text.unescapeText body = .ok s.toList) :
    Built.ofToken span (.text false body) = .ok (.constant span (.text s)) := by
  simp only [Built.ofToken, h, String.ofList_toList]
  rfl

theorem denotes_text {body : List Char} {s : String}
    (h : Text.unescapeText body = .ok s.toList) :
    (Phrase.atom span (.text false body)).Denotes (.text s) :=
  denotes_atom (l := .text s) (ofToken_text h)

theorem denotes_bytes {body : List Char} {bs : List UInt8}
    (h : Text.unescapeBytes body = .ok bs) :
    (Phrase.atom span (.bytes false body)).Denotes (.bytes bs) := by
  apply denotes_atom (l := .bytes bs)
  simp only [Built.ofToken, h]
  rfl

/-! ### Integers -/

theorem ofToken_int {n : Nat} {i : Int64} (h : Number.int64? n = some i) (text : List Char) :
    Built.ofToken span (.int false (Nat.toDigits 10 n) text) = .ok (.constant span (.int i)) := by
  -- hidden from the kernel, which would compute with the bounds of words
  obtain ⟨word?, hword⟩ : ∃ word?, word? = Number.int64? := ⟨_, rfl⟩
  rw [← hword] at h
  rw [Built.ofToken, magnitude?_toDigits, ← hword]
  simp only [h]

theorem ofToken_leastMagnitude (text : List Char) :
    Built.ofToken span (.int false (Nat.toDigits 10 0x8000000000000000) text) =
      .ok ⟨.literal span (.int (Int64.ofInt (-0x8000000000000000))), 0, some text⟩ := by
  have hnone : Number.int64? ((0x8000000000000000 : Nat) : Int) = none := by decide
  obtain ⟨word?, hword⟩ : ∃ word?, word? = Number.int64? := ⟨_, rfl⟩
  rw [← hword] at hnone
  rw [Built.ofToken, magnitude?_toDigits, ← hword]
  simp only [hnone, if_true]

theorem denotes_int {i : Int64} (h : 0 ≤ i.toInt) (text : List Char) :
    (Phrase.atom span (.int false (Nat.toDigits 10 i.toInt.natAbs) text)).Denotes (.int i) :=
  denotes_atom (l := .int i)
    (ofToken_int (Number.int64?_eq_some_iff.mpr (Int.natAbs_of_nonneg h).symm) text)

/-- A minus sign before a constant that fits. -/
theorem isFor_negated {i j : Int64} (h : j.toInt = -i.toInt) (start : Nat) :
    (⟨.unary ⟨start, span.stop⟩ .neg (.literal span (.int j)), 1, none⟩ : Built).IsFor
      (.int i) := by
  have hneg : Eval.applyUnary .neg (.int j) = .ok (.int i) := by
    have hfits : Number.int64? (-j.toInt) = some i :=
      Number.int64?_eq_some_iff.mpr (by rw [h, Int.neg_neg])
    rw [Eval.applyUnary, hfits]
    rfl
  refine ⟨rfl, Nat.le_refl _, fun limits scope depth hdepth => ?_⟩
  change depth + 2 ≤ limits.maxDepth at hdepth
  rw [eval]
  refine .nested (show depth < limits.maxDepth by omega) ?_
  refine .bind (evaluatesTo_literal span (.int j) Nat.one_pos limits scope (depth + 1) hdepth) ?_
  exact .lift hneg

/-- A minus sign makes the magnitude of a negative integer this integer.  The magnitude that does
not fit by itself is the one of the least integer. -/
theorem denotes_negative {i : Int64} (h : i.toInt < 0) (start : Nat) (text : List Char) :
    (Phrase.sign start .neg
      (.atom span (.int false (Nat.toDigits 10 i.toInt.natAbs) text))).Denotes (.int i) := by
  intro bound hbound
  have hlow := i.le_toInt
  by_cases hleast : i.toInt = -0x8000000000000000
  · have hmagnitude : i.toInt.natAbs = 0x8000000000000000 := by omega
    have hvalue : Int64.ofInt (-0x8000000000000000) = i := by rw [← hleast, Int64.ofInt_toInt]
    refine ⟨.constant ⟨start, span.stop⟩ (.int i), ?_, isFor_constant (.int i)⟩
    rw [Phrase.build, Phrase.build, hmagnitude, ofToken_leastMagnitude]
    change Built.signed bound start .neg ⟨_, 0, some text⟩ = _
    rw [Built.signed, if_pos ⟨rfl, rfl⟩, hvalue]
    rfl
  · obtain ⟨j, hj⟩ : ∃ j, Number.int64? i.toInt.natAbs = some j := by
      rw [Number.int64?, if_pos (by omega)]
      exact ⟨_, rfl⟩
    have hsign : j.toInt = -i.toInt := by
      rw [Number.int64?_eq_some_iff.mp hj]
      omega
    refine ⟨⟨.unary ⟨start, span.stop⟩ .neg (.literal span (.int j)), 1, none⟩, ?_,
      isFor_negated hsign start⟩
    rw [Phrase.build, Phrase.build, ofToken_int hj]
    exact Built.node_eq_ok hbound

/-! ### Lists -/

theorem buildItems_eq_of_denotes {vs : List Value} {ps : List Phrase}
    (h : List.Forall₂ (fun v p => p.Denotes v) vs ps) (hbound : ∀ v ∈ vs, v.nesting < bound) :
    ∃ bs, Phrase.buildItems bound ps = .ok bs ∧ List.Forall₂ (fun v b => b.IsFor v) vs bs := by
  induction h with
  | nil => exact ⟨[], rfl, .nil⟩
  | cons hv _ ih =>
      obtain ⟨b, hb, hfor⟩ := hv bound (hbound _ List.mem_cons_self)
      obtain ⟨bs, hbs, hfors⟩ := ih fun v hv => hbound v (List.mem_cons_of_mem _ hv)
      refine ⟨b :: bs, ?_, .cons hfor hfors⟩
      rw [Phrase.buildItems, bind_of_ok hb, bind_of_ok hbs]

theorem settleAll_eq_of_isFor {vs : List Value} {bs : List Built}
    (h : List.Forall₂ (fun v b => b.IsFor v) vs bs) : Built.settleAll bs = .ok bs := by
  induction h with
  | nil => rfl
  | cons hb _ ih => rw [Built.settleAll, hb.settle, ih]; rfl

theorem height_le_of_isFor {vs : List Value} {bs : List Built} {n : Nat}
    (h : List.Forall₂ (fun v b => b.IsFor v) vs bs) (hn : ∀ v ∈ vs, v.nesting + 1 ≤ n) :
    Built.greatest bs ≤ n := by
  refine Built.greatest_le fun b hb => ?_
  induction h with
  | nil => cases hb
  | cons hv _ ih =>
      rcases List.mem_cons.mp hb with rfl | hb
      · exact Nat.le_trans hv.height_le (hn _ List.mem_cons_self)
      · exact ih (fun v hv => hn v (List.mem_cons_of_mem _ hv)) hb

theorem evalItems_of_isFor {vs : List Value} {bs : List Built} {levels : Nat}
    (h : List.Forall₂ (fun v b => b.IsFor v) vs bs) (hlevels : ∀ v ∈ vs, v.nesting + 2 ≤ levels)
    {limits : Eval.Limits} (scope : Eval.Scope) {depth : Nat}
    (hdepth : depth + levels ≤ limits.maxDepth) :
    (evalItems ⟨.empty, limits⟩ scope depth (bs.map Built.expr)).Yields vs := by
  induction h with
  | nil => exact .pure _
  | cons hv _ ih =>
      have hle := hlevels _ List.mem_cons_self
      rw [List.map_cons, evalItems]
      refine .bind (hv.evaluates limits scope depth (by omega)) ?_
      exact .bind (ih fun v hv => hlevels v (List.mem_cons_of_mem _ hv)) (.pure _)

/-- A list of phrases denotes the list of what they denote. -/
theorem denotes_list {vs : List Value} {ps : List Phrase}
    (h : List.Forall₂ (fun v p => p.Denotes v) vs ps) :
    (Phrase.list span ps).Denotes (.list vs) := by
  intro bound hbound
  rw [Value.nesting] at hbound
  have hnesting : ∀ v ∈ vs, v.nesting ≤ Value.nestingItems vs := fun v =>
    Value.nesting_le_nestingItems
  obtain ⟨bs, hbs, hfors⟩ := buildItems_eq_of_denotes h fun v hv =>
    Nat.lt_of_le_of_lt (hnesting v hv) (Nat.lt_of_succ_lt hbound)
  have hheight := height_le_of_isFor hfors fun v hv => Nat.succ_le_succ (hnesting v hv)
  refine ⟨⟨.list span (bs.map Built.expr), Built.greatest bs + 1, none⟩, ?_, rfl, ?_, ?_⟩
  · rw [Phrase.build, bind_of_ok hbs, bind_of_ok (settleAll_eq_of_isFor hfors)]
    exact Built.node_eq_ok (by omega)
  · rw [Value.nesting]
    exact Nat.succ_le_succ hheight
  · intro limits scope depth hdepth
    rw [Value.nesting] at hdepth
    rw [eval]
    refine .nested (show depth < limits.maxDepth by omega) ?_
    refine .bind (evalItems_of_isFor hfors (fun v hv => Nat.add_le_add_right (hnesting v hv) 2)
      scope ?_) (.pure _)
    omega

/-! ### Maps -/

theorem buildEntries_eq_of_denotes {entries : List (MapKey × Value)}
    {ps : List (Phrase × Phrase)}
    (h : List.Forall₂ (fun e p => p.1.Denotes e.1.toValue ∧ p.2.Denotes e.2) entries ps)
    (hbound : ∀ e ∈ entries, e.2.nesting < bound) :
    ∃ bs, Phrase.buildEntries bound ps = .ok bs ∧
      List.Forall₂ (fun e b => b.1.IsFor e.1.toValue ∧ b.2.IsFor e.2) entries bs := by
  induction h with
  | nil => exact ⟨[], rfl, .nil⟩
  | @cons e p entries ps he _ ih =>
      have hlt := hbound _ List.mem_cons_self
      have hkey : e.1.toValue.nesting < bound := by
        rw [Value.nesting_toValue]
        omega
      obtain ⟨key, hkeybuild, hkeyfor⟩ := he.1 bound hkey
      obtain ⟨value, hvaluebuild, hvaluefor⟩ := he.2 bound hlt
      obtain ⟨bs, hbs, hfors⟩ := ih fun e he => hbound e (List.mem_cons_of_mem _ he)
      refine ⟨(key, value) :: bs, ?_, .cons ⟨hkeyfor, hvaluefor⟩ hfors⟩
      obtain ⟨keyPhrase, valuePhrase⟩ := p
      rw [Phrase.buildEntries, bind_of_ok hkeybuild, bind_of_ok hkeyfor.settle,
        bind_of_ok hvaluebuild, bind_of_ok hvaluefor.settle, bind_of_ok hbs]

theorem entry_height_le {entries : List (MapKey × Value)} {bs : List (Built × Built)} {n : Nat}
    (h : List.Forall₂ (fun e b => b.1.IsFor e.1.toValue ∧ b.2.IsFor e.2) entries bs)
    (hn : ∀ e ∈ entries, e.2.nesting + 1 ≤ n) :
    Built.greatest (bs.flatMap fun b => [b.1, b.2]) ≤ n := by
  refine Built.greatest_le fun c hc => ?_
  induction h with
  | nil => cases hc
  | @cons e b entries bs he _ ih =>
      have hvalue := hn e List.mem_cons_self
      have hkey := he.1.height_le
      rw [Value.nesting_toValue] at hkey
      rw [List.flatMap_cons, List.mem_append] at hc
      rcases hc with hc | hc
      · rcases List.mem_pair.mp hc with rfl | rfl
        · omega
        · exact Nat.le_trans he.2.height_le hvalue
      · exact ih (fun e he => hn e (List.mem_cons_of_mem _ he)) hc

theorem evalEntries_of_isFor (before : List (MapKey × Value))
    {entries : List (MapKey × Value)} {bs : List (Built × Built)} {levels : Nat}
    (h : List.Forall₂ (fun e b => b.1.IsFor e.1.toValue ∧ b.2.IsFor e.2) entries bs)
    (hsorted : Entries.Ascending (before ++ entries))
    (hlevels : ∀ e ∈ entries, e.2.nesting + 2 ≤ levels) {limits : Eval.Limits}
    (scope : Eval.Scope) {depth : Nat} (hdepth : depth + levels ≤ limits.maxDepth) :
    (evalEntries ⟨.empty, limits⟩ scope depth before
      (bs.map fun b => (b.1.expr, b.2.expr))).Yields (before ++ entries) := by
  -- the entries pass one by one to those before, at whose end they are put
  induction h generalizing before with
  | nil =>
      rw [List.append_nil]
      exact .pure _
  | @cons e b entries bs he _ ih =>
      obtain ⟨k, v⟩ := e
      have hle := hlevels _ List.mem_cons_self
      have hbelow : ∀ entry ∈ before, MapKey.cmp entry.1 k = .lt := fun entry hentry =>
        (List.pairwise_append.mp hsorted).2.2 entry hentry (k, v) List.mem_cons_self
      have hfresh : (Entries.get? before k).isSome = false := by
        rw [Bool.eq_false_iff, ne_eq, Entries.get?_isSome_iff]
        intro hmem
        obtain ⟨entry, hentry, heq⟩ := List.mem_map.mp hmem
        exact Entries.ne_of_cmp_eq_lt (hbelow entry hentry) heq
      have hkey : MapKey.ofValue? k.toValue = some k := by cases k <;> rfl
      have hlevelsKey : depth + (k.toValue.nesting + 2) ≤ limits.maxDepth := by
        rw [Value.nesting_toValue]
        omega
      rw [List.map_cons, evalEntries]
      refine .bind (he.1.evaluates limits scope depth hlevelsKey) ?_
      simp only [hkey]
      refine .bind (he.2.evaluates limits scope depth (by omega)) ?_
      rw [if_neg (by simp [hfresh]), Entries.insert_eq_append hbelow]
      rw [List.append_cons before (k, v) entries] at hsorted ⊢
      exact ih _ hsorted fun e he => hlevels e (List.mem_cons_of_mem _ he)

/-- Phrases of keys and values denote the map of what they denote, if the keys ascend. -/
theorem denotes_map {entries : List (MapKey × Value)} {ps : List (Phrase × Phrase)}
    (hsorted : Entries.Ascending entries)
    (h : List.Forall₂ (fun e p => p.1.Denotes e.1.toValue ∧ p.2.Denotes e.2) entries ps) :
    (Phrase.map span ps).Denotes (.map entries) := by
  intro bound hbound
  rw [Value.nesting] at hbound
  have hnesting : ∀ e ∈ entries, e.2.nesting ≤ Value.nestingEntries entries := fun e =>
    Value.nesting_le_nestingEntries
  obtain ⟨bs, hbs, hfors⟩ := buildEntries_eq_of_denotes h fun e he =>
    Nat.lt_of_le_of_lt (hnesting e he) (Nat.lt_of_succ_lt hbound)
  have hheight := entry_height_le hfors fun e he => Nat.succ_le_succ (hnesting e he)
  refine ⟨⟨.map span (bs.map fun b => (b.1.expr, b.2.expr)),
    Built.greatest (bs.flatMap fun b => [b.1, b.2]) + 1, none⟩, ?_, rfl, ?_, ?_⟩
  · rw [Phrase.build, bind_of_ok hbs]
    exact Built.node_eq_ok (show Built.greatest (bs.flatMap fun b => [b.1, b.2]) < bound by omega)
  · rw [Value.nesting]
    exact Nat.succ_le_succ hheight
  · intro limits scope depth hdepth
    rw [Value.nesting] at hdepth
    rw [eval]
    refine .nested (show depth < limits.maxDepth by omega) ?_
    refine .bind (evalEntries_of_isFor [] hfors hsorted
      (fun e he => Nat.add_le_add_right (hnesting e he) 2) scope ?_) (.pure _)
    omega

/-! ### Durations -/

theorem invoke_duration (d : Time.Duration) :
    Eval.invoke .empty "duration" [.text d.text] = .ok (.duration d) := by
  have hfind : Builtin.find? "duration" =
      some ⟨"duration", Arity.exactly 1, Builtin.toDuration⟩ := rfl
  have hbody : Builtin.toDuration [.text d.text] = .ok (.duration d) := by
    rw [Builtin.toDuration, Time.Duration.ofText?_text]
    rfl
  rw [Eval.invoke, hfind]
  exact hbody

/-- The call of a function on a text. -/
theorem build_call (name : String) {s : String} {body : List Char} {inner : Span}
    (hname : name ≠ "has") (h : Text.unescapeText body = .ok s.toList) (hbound : 0 < bound) :
    (Phrase.call span name.toList [.atom inner (.text false body)]).build bound =
      .ok ⟨.call span name [.literal inner (.text s)], 1, none⟩ := by
  rw [Phrase.build, Phrase.buildItems, Phrase.build, ofToken_text h, String.ofList_toList]
  change Built.call bound span name [.literal inner (.text s)] 0 = _
  rw [Built.call, if_neg hname]
  exact Built.node_eq_ok hbound

/-- The call that makes a duration of its text denotes the duration. -/
theorem denotes_duration {d : Time.Duration} {body : List Char}
    (h : Text.unescapeText body = .ok d.text.toList) {inner : Span} :
    (Phrase.call span "duration".toList [.atom inner (.text false body)]).Denotes
      (.duration d) := by
  intro bound hbound
  refine ⟨⟨.call span "duration" [.literal inner (.text d.text)], 1, none⟩,
    build_call "duration" (by decide) h hbound, rfl, Nat.le_refl _, ?_⟩
  · intro limits scope depth hdepth
    change depth + 2 ≤ limits.maxDepth at hdepth
    rw [eval]
    refine .nested (show depth < limits.maxDepth by omega) ?_
    have hargument := evaluatesTo_literal inner (.text d.text) Nat.one_pos limits scope (depth + 1)
      hdepth
    refine .bind (.bind hargument (.bind (.pure []) (.pure _))) ?_
    exact .lift (invoke_duration d)

end Grammar

end EmbeddedExpr
