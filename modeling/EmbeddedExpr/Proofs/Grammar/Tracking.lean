import EmbeddedExpr.Proofs.Grammar.Places

/-!
# Readers keep track of the source

A reader only moves forward, from one boundary between characters to another, and every offset
that it notes is one of those at which it has been.  `Tracks` states this of a reader, with what it
yields in its place in the source (`Phrase.Lies`) and the failed tries of its log at boundaries.  It
is proved combinator by combinator and then construct by construct, the recursion through the
grammar being that of the fuel.
-/

namespace EmbeddedExpr.Grammar

open Text (IsBoundary)

variable {source : List Char}

/-! ### Cursors and logs -/

namespace Cursor

variable {c : Cursor}

/-- The cursor stands in the source, at the offset that it tells. -/
def In (source : List Char) (c : Cursor) : Prop :=
  ∃ before, source = before ++ c.rest ∧ c.offset = Text.byteLength before

theorem In.isBoundary (h : c.In source) : IsBoundary source c.offset := by
  obtain ⟨before, hsource, hoffset⟩ := h
  exact ⟨before, c.rest, hsource, hoffset⟩

theorem In.advance {taken rest : List Char} (h : c.In source) (happend : taken ++ rest = c.rest) :
    (c.advance taken rest).In source := by
  obtain ⟨before, hsource, hoffset⟩ := h
  refine ⟨before ++ taken, ?_, ?_⟩
  · rw [hsource, ← happend, List.append_assoc]
    rfl
  · rw [Text.byteLength_append, ← hoffset]
    rfl

end Cursor

/-- The failed tries of a log were at boundaries of the source. -/
def Log.Within (source : List Char) : Log → Prop
  | silent => True
  | both first second => first.Within source ∧ second.Within source
  | failed _ offset inner => IsBoundary source offset ∧ inner.Within source

theorem Log.Within.append {first second : Log} (h : first.Within source)
    (hsecond : second.Within source) : (first.append second).Within source := by
  unfold Log.append
  split
  · exact hsecond
  · exact h
  · exact ⟨h, hsecond⟩

/-! ### Readers -/

namespace Reader

variable {α β : Type} {lo : Nat} {good : α → Nat → Prop} {better : β → Nat → Prop}

/-- From a cursor at `lo` in the source the reader moves on in the source, what it yields there is
as `good` says, and all that it tries is at boundaries. -/
def Tracks (source : List Char) (lo : Nat) (good : α → Nat → Prop) (r : Reader α) : Prop :=
  ∀ c : Cursor, c.In source → c.offset = lo → (r c).log.Within source ∧
    ∀ a c', (r c).outcome = some (a, c') → c'.In source ∧ lo ≤ c'.offset ∧ good a c'.offset

theorem Tracks.mono {better : α → Nat → Prop} {r : Reader α} (h : Tracks source lo good r)
    (himp : ∀ a hi, lo ≤ hi → good a hi → better a hi) : Tracks source lo better r := by
  intro c hc hlo
  obtain ⟨hlog, hyields⟩ := h c hc hlo
  refine ⟨hlog, fun a c' heq => ?_⟩
  obtain ⟨hc', hle, ha⟩ := hyields a c' heq
  exact ⟨hc', hle, himp a _ hle ha⟩

theorem tracks_pure {a : α} (h : good a lo) : Tracks source lo good (pure a : Reader α) := by
  rintro c hc rfl
  refine ⟨trivial, fun b c' heq => ?_⟩
  cases heq
  exact ⟨hc, Nat.le_refl _, h⟩

theorem tracks_fail : Tracks source lo good (fail : Reader α) :=
  fun _ _ _ => ⟨trivial, nofun⟩

theorem Tracks.bind {r : Reader α} {next : α → Reader β} (h : Tracks source lo good r)
    (hnext : ∀ a mid, lo ≤ mid → good a mid → Tracks source mid better (next a)) :
    Tracks source lo better (r >>= next) := by
  intro c hc hlo
  obtain ⟨hlog, hyields⟩ := h c hc hlo
  change (Reader.andThen r next c).log.Within source ∧
    ∀ b c', (Reader.andThen r next c).outcome = some (b, c') → _
  simp only [Reader.andThen]
  cases hfirst : (r c).outcome with
  | none => exact ⟨hlog, by simp⟩
  | some pair =>
      obtain ⟨a, middle⟩ := pair
      obtain ⟨hmiddle, hle, ha⟩ := hyields a middle hfirst
      obtain ⟨hlog', hyields'⟩ := hnext a middle.offset hle ha middle hmiddle rfl
      refine ⟨hlog.append hlog', fun b c' heq => ?_⟩
      obtain ⟨hc', hle', hb⟩ := hyields' b c' heq
      exact ⟨hc', Nat.le_trans hle hle', hb⟩

theorem Tracks.orElse {p q : Reader α} (hp : Tracks source lo good p)
    (hq : Tracks source lo good q) : Tracks source lo good (Reader.orElse p q) := by
  intro c hc hlo
  obtain ⟨hlog, hyields⟩ := hp c hc hlo
  simp only [Reader.orElse]
  cases hfirst : (p c).outcome with
  | none =>
      obtain ⟨hlog', hyields'⟩ := hq c hc hlo
      exact ⟨hlog.append hlog', hyields'⟩
  | some pair => exact ⟨hlog, fun a c' heq => hyields a c' heq⟩

theorem tracks_oneOf {readers : List (Reader α)} (h : ∀ r ∈ readers, Tracks source lo good r) :
    Tracks source lo good (oneOf readers) := by
  induction readers with
  | nil => exact tracks_fail
  | cons r rest ih =>
      exact (h r List.mem_cons_self).orElse (ih fun other hother => h other (.tail _ hother))

theorem Tracks.optional {r : Reader α} (h : Tracks source lo good r) :
    Tracks source lo (fun found hi => ∀ a ∈ found, good a hi) (Reader.optional r) := by
  refine Tracks.orElse (h.bind fun a mid _ ha => tracks_pure ?_) (tracks_pure nofun)
  rintro b ⟨⟩
  exact ha

theorem tracks_layout : Tracks source lo (fun _ _ => True) layout := by
  rintro c hc rfl
  refine ⟨trivial, fun a c' heq => ?_⟩
  cases heq
  obtain ⟨skipped, rest, happend, hskip⟩ := Cursor.skipFrom_eq_advance false c.offset c.rest
  have hsame : c.skip = c.advance skipped rest := hskip
  rw [hsame]
  exact ⟨hc.advance happend, Nat.le_add_right _ _, trivial⟩

theorem tracks_offset :
    Tracks source lo (fun a hi => a = lo ∧ hi = lo ∧ IsBoundary source lo) offset := by
  rintro c hc rfl
  refine ⟨trivial, fun a c' heq => ?_⟩
  cases heq
  exact ⟨hc, Nat.le_refl _, rfl, rfl, hc.isBoundary⟩

theorem tracks_expect (text : List Char) :
    Tracks source lo (fun _ hi => hi = lo + Text.byteLength text) (expect text) := by
  rintro c hc rfl
  unfold expect
  split
  · rename_i htext
    refine ⟨trivial, fun a c' heq => ?_⟩
    cases heq
    obtain ⟨tail, htail⟩ := List.isPrefixOf_iff_prefix.mp htext
    refine ⟨hc.advance ?_, Nat.le_add_right _ _, rfl⟩
    rw [← htail, List.drop_left]
  · exact ⟨trivial, nofun⟩

theorem byteLength_pos {text : List Char} (h : text ≠ []) : 0 < Text.byteLength text := by
  cases text with
  | nil => exact absurd rfl h
  | cons c rest =>
      have hsize := c.utf8Size_pos
      rw [Text.byteLength_cons]
      omega

/-- What a scanner of tokens takes has at least one character. -/
theorem tracks_scan {scanner : Scanner α} (h : Scanner.Splits scanner)
    (htaken : Scanner.Advances scanner) :
    Tracks source lo (fun _ hi => lo < hi) (scan scanner) := by
  rintro c hc rfl
  unfold scan
  split
  · rename_i a taken rest hscan
    refine ⟨trivial, fun b c' heq => ?_⟩
    cases heq
    have hpos := byteLength_pos (htaken _ _ _ _ hscan)
    exact ⟨hc.advance (h _ _ _ _ hscan), Nat.le_add_right _ _, Nat.lt_add_of_pos_right hpos⟩
  · exact ⟨trivial, nofun⟩

theorem Tracks.tried {r : Reader α} (h : Tracks source lo good r) (construct : Construct) :
    Tracks source lo good (Reader.tried construct r) := by
  intro c hc hlo
  obtain ⟨hlog, hyields⟩ := h c hc hlo
  simp only [Reader.tried]
  cases hfirst : (r c).outcome with
  | none => exact ⟨⟨hc.isBoundary, hlog⟩, by simp⟩
  | some pair => exact ⟨hlog, fun a c' heq => hyields a c' (hfirst ▸ heq)⟩

theorem Tracks.spanned {r : Reader α} (h : Tracks source lo good r)
    (hpos : ∀ a hi, good a hi → lo < hi) :
    Tracks source lo (fun found hi => found.1 = ⟨lo, hi⟩ ∧ found.1.Covers source ∧ good found.2 hi)
      (Reader.spanned r) := by
  refine tracks_offset.bind fun start mid _ hstart => ?_
  obtain ⟨rfl, rfl, hboundary⟩ := hstart
  refine h.bind fun a hi _ ha => tracks_offset.bind fun stop hi' _ hstop => ?_
  obtain ⟨rfl, rfl, hboundary'⟩ := hstop
  exact tracks_pure ⟨rfl, ⟨hpos a _ ha, hboundary, hboundary'⟩, ha⟩

section Repetitions

variable {lies : Nat → α → Nat → Prop} {r : Reader α}

theorem tracks_following (h : ∀ lo, Tracks source lo (lies lo) r) (fuel : Nat) (lo : Nat) :
    Tracks source lo (InTurn lies lo) (following r fuel) := by
  induction fuel generalizing lo with
  | zero => exact tracks_pure (.nil (Nat.le_refl _))
  | succ fuel ih =>
      refine Tracks.orElse ?_ (tracks_pure (.nil (Nat.le_refl _)))
      refine tracks_layout.bind fun _ start hstart _ => (h start).bind fun a mid hmid ha => ?_
      refine (ih mid).bind fun more hi _ hmore => tracks_pure ?_
      exact .cons hstart hmid ha hmore

theorem tracks_many (h : ∀ lo, Tracks source lo (lies lo) r) (fuel : Nat) (lo : Nat) :
    Tracks source lo (InTurn lies lo) (many r fuel) := by
  refine Tracks.orElse ?_ (tracks_pure (.nil (Nat.le_refl _)))
  refine (h lo).bind fun a mid hmid ha => ?_
  refine (tracks_following h fuel mid).bind fun more hi _ hmore => tracks_pure ?_
  exact .cons (Nat.le_refl _) hmid ha hmore

theorem tracks_commaSeparated (h : ∀ lo, Tracks source lo (lies lo) r) (fuel : Nat) (lo : Nat) :
    Tracks source lo (InTurn lies lo) (commaSeparated r fuel) := by
  have hnext : ∀ lo, Tracks source lo
      (fun a hi => ∃ start, lo ≤ start ∧ start ≤ hi ∧ lies start a hi)
      (do expect [',']; layout; r) := by
    intro lo
    refine (tracks_expect _).bind fun _ mid hmid _ => tracks_layout.bind fun _ start hstart _ => ?_
    exact (h start).mono fun a hi hle ha => ⟨start, Nat.le_trans hmid hstart, hle, ha⟩
  -- the share of an item begins with the comma before it or behind that
  have hitems : ∀ {lo items hi},
      InTurn (fun lo a hi => ∃ start, lo ≤ start ∧ start ≤ hi ∧ lies start a hi) lo items hi →
        InTurn lies lo items hi := by
    intro lo items hi hturn
    induction hturn with
    | nil hle => exact .nil hle
    | cons hlo _ ha _ ih =>
        obtain ⟨start, hstart, hmid, ha⟩ := ha
        exact .cons (Nat.le_trans hlo hstart) hmid ha ih
  refine (h lo).bind fun a mid hmid ha => tracks_layout.bind fun _ start hstart _ => ?_
  refine (tracks_many hnext fuel start).bind fun more hi _ hmore => ?_
  refine tracks_layout.bind fun _ after hafter _ => ?_
  refine (tracks_expect _).optional.bind fun _ stop hstop _ => tracks_pure ?_
  exact .cons (Nat.le_refl _) hmid ha
    ((hitems hmore).widen hstart (Nat.le_trans hafter hstop))

theorem tracks_enclosed (opening closing : Char) (h : ∀ lo, Tracks source lo (lies lo) r)
    (fuel : Nat) (lo : Nat) :
    Tracks source lo (fun items hi => lo < hi ∧ InTurn lies lo items hi)
      (enclosed opening closing r fuel) := by
  have hpos : 0 < Text.byteLength [opening] := byteLength_pos (List.cons_ne_nil _ _)
  refine (tracks_expect _).bind fun _ mid hmid hopening => ?_
  refine tracks_layout.bind fun _ start hstart _ => ?_
  refine (tracks_commaSeparated h fuel start).optional.bind fun items hi hitems hfound => ?_
  refine tracks_layout.bind fun _ after hafter _ => (tracks_expect _).bind fun _ stop hstop _ => ?_
  refine tracks_pure ⟨by omega, ?_⟩
  cases items with
  | none => exact .nil (by omega)
  | some items => exact (hfound items rfl).widen (by omega) (by omega)

end Repetitions

/-! ### The grammar -/

section Constructs

variable {fuel : Nat} {phrase : Reader Phrase}

theorem advances_of_mem_literals : ∀ literal ∈ literals, Scanner.Advances literal.2 := by
  simp only [literals, List.forall_mem_cons]
  exact ⟨Scanner.double_advances, Scanner.uint_advances, Scanner.int_advances,
    Scanner.null_advances, Scanner.bool_advances, Scanner.bytes_advances, Scanner.text_advances,
    List.forall_mem_nil _⟩

theorem tracks_name : Tracks source lo (fun _ hi => lo < hi) name := by
  refine ((tracks_scan Scanner.name_splits Scanner.name_advances).tried .name).bind
    fun a mid _ hmid => ?_
  split
  · exact tracks_pure hmid
  · exact tracks_fail

/-- The reader of the phrases one level down keeps them in their place. -/
def TracksPhrases (source : List Char) (phrase : Reader Phrase) : Prop :=
  ∀ lo, Tracks source lo (Phrase.Lies source lo) phrase

namespace TracksPhrases

theorem arguments (h : TracksPhrases source phrase) (lo : Nat) :
    Tracks source lo (fun args hi => lo < hi ∧ InTurn (Phrase.Lies source) lo args hi)
      (arguments phrase fuel) :=
  (tracks_enclosed '(' ')' h fuel lo).tried .arguments

theorem link (h : TracksPhrases source phrase) (lo : Nat) :
    Tracks source lo (Link.Lies source lo) (link phrase) := by
  refine tracks_oneOf fun r hr => ?_
  have hmarked (entry : Construct × List Char × InfixOp) :
      Tracks source lo (Link.Lies source lo) (marked entry) :=
    ((tracks_expect _).tried _).bind fun _ _ _ _ => tracks_pure trivial
  simp only [List.cons_append, List.mem_cons, List.mem_append, List.mem_map] at hr
  rcases hr with rfl | ⟨entry, _, rfl⟩ | rfl | ⟨entry, _, rfl⟩
  · refine Tracks.tried ?_ _
    refine (tracks_expect _).bind fun _ mid hmid _ => tracks_layout.bind fun _ start hstart _ => ?_
    refine (h start).bind fun whenTrue hi _ htrue => tracks_layout.bind fun _ after hafter _ => ?_
    refine (tracks_expect _).bind fun _ stop hstop _ => tracks_pure ?_
    exact htrue.widen (Nat.le_trans hmid hstart) (Nat.le_trans hafter hstop)
  · exact hmarked entry
  · have hword : Tracks source lo (fun _ hi => lo < hi) (scan (Scanner.word ['i', 'n'])) :=
      tracks_scan (Scanner.word_splits _) (Scanner.word_advances (List.cons_ne_nil _ _))
    exact (hword.tried _).bind fun _ _ _ _ => tracks_pure trivial
  · exact hmarked entry

theorem member (h : TracksPhrases source phrase) (lo : Nat) :
    Tracks source lo (Selection.Lies source lo) (member phrase fuel) := by
  have hparts : Tracks source lo (fun parts hi => ∀ args ∈ parts.2,
      InTurn (Phrase.Lies source) lo args hi)
      (tried .member do
        expect ['.']
        layout
        let name ← name
        layout
        let args ← optional (Reader.arguments phrase fuel)
        pure (name, args)) := by
    refine Tracks.tried ?_ _
    refine (tracks_expect _).bind fun _ mid hmid _ => tracks_layout.bind fun _ start hstart _ => ?_
    refine tracks_name.bind fun name stop hstop _ => tracks_layout.bind fun _ after hafter _ => ?_
    refine (h.arguments after).optional.bind fun args hi _ hargs => tracks_pure fun args' h' => ?_
    exact (hargs args' h').2.widen (by omega) (Nat.le_refl _)
  refine hparts.bind fun parts mid hmid hargs => tracks_offset.bind fun stop hi _ hstop => ?_
  obtain ⟨rfl, rfl, hboundary⟩ := hstop
  obtain ⟨name, args⟩ := parts
  cases args with
  | none => exact tracks_pure ⟨hmid, Nat.le_refl _, hboundary⟩
  | some args =>
      obtain ⟨henclosed, hplaced⟩ := (hargs args rfl).encloses
      exact tracks_pure ⟨hmid, Nat.le_refl _, hboundary, henclosed, hplaced⟩

theorem index (h : TracksPhrases source phrase) (lo : Nat) :
    Tracks source lo (Selection.Lies source lo) (index phrase) := by
  have hposition : Tracks source lo (Phrase.Lies source lo) (tried .index do
      expect ['[']
      layout
      let position ← phrase
      layout
      expect [']']
      pure position) := by
    refine Tracks.tried ?_ _
    refine (tracks_expect _).bind fun _ mid hmid _ => tracks_layout.bind fun _ start hstart _ => ?_
    refine (h start).bind fun position hi _ hp => tracks_layout.bind fun _ after hafter _ => ?_
    refine (tracks_expect _).bind fun _ stop hstop _ => tracks_pure ?_
    exact hp.widen (Nat.le_trans hmid hstart) (Nat.le_trans hafter hstop)
  refine hposition.bind fun position mid _ hp => tracks_offset.bind fun stop hi _ hstop => ?_
  obtain ⟨rfl, rfl, hboundary⟩ := hstop
  exact tracks_pure ⟨Nat.le_refl _, hboundary, hp⟩

theorem group (h : TracksPhrases source phrase) (lo : Nat) :
    Tracks source lo (Phrase.Lies source lo) (group phrase) := by
  refine Tracks.tried ?_ _
  refine (tracks_expect _).bind fun _ mid hmid _ => tracks_layout.bind fun _ start hstart _ => ?_
  refine (h start).bind fun inner hi _ hinner => tracks_layout.bind fun _ after hafter _ => ?_
  refine (tracks_expect _).bind fun _ stop hstop _ => tracks_pure ?_
  obtain ⟨hplaced, hle, hle'⟩ := hinner
  exact ⟨.group hplaced, Nat.le_trans (Nat.le_trans hmid hstart) hle,
    Nat.le_trans hle' (Nat.le_trans hafter hstop)⟩

theorem list (h : TracksPhrases source phrase) (lo : Nat) :
    Tracks source lo (Phrase.Lies source lo) (list phrase fuel) := by
  have hitems := (tracks_enclosed '[' ']' h fuel lo).tried .list
  refine (hitems.spanned fun _ _ hi => hi.1).bind fun found hi _ hfound => tracks_pure ?_
  obtain ⟨⟨start, stop⟩, items⟩ := found
  obtain ⟨⟨rfl, rfl⟩, hcovers, -, hturn⟩ := hfound
  obtain ⟨hencloses, hplaced⟩ := hturn.encloses
  exact ⟨.list hcovers hencloses hplaced, Nat.le_refl _, Nat.le_refl _⟩

theorem entry (h : TracksPhrases source phrase) (lo : Nat) :
    Tracks source lo (fun e hi => ∃ mid, lo ≤ mid ∧ mid ≤ hi ∧ e.1.Lies source lo mid ∧
      e.2.Lies source mid hi) (entry phrase) := by
  refine Tracks.tried ?_ _
  refine (h lo).bind fun key mid hmid hkey => tracks_layout.bind fun _ _ hcolon _ => ?_
  refine (tracks_expect _).bind fun _ _ hafter _ => tracks_layout.bind fun _ start hstart _ => ?_
  refine (h start).bind fun value hi hle hvalue => tracks_pure ?_
  exact ⟨mid, hmid, by omega, hkey, hvalue.widen (by omega) (Nat.le_refl _)⟩

theorem map (h : TracksPhrases source phrase) (lo : Nat) :
    Tracks source lo (Phrase.Lies source lo) (map phrase fuel) := by
  have hentries := (tracks_enclosed '{' '}' h.entry fuel lo).tried .map
  refine (hentries.spanned fun _ _ hi => hi.1).bind fun found hi _ hfound => tracks_pure ?_
  obtain ⟨⟨start, stop⟩, entries⟩ := found
  obtain ⟨⟨rfl, rfl⟩, hcovers, -, hturn⟩ := hfound
  obtain ⟨hencloses, hkeys, hvalues⟩ := hturn.encloses_entries
  exact ⟨.map hcovers hencloses hkeys hvalues, Nat.le_refl _, Nat.le_refl _⟩

theorem call (h : TracksPhrases source phrase) (lo : Nat) :
    Tracks source lo (Phrase.Lies source lo) (call phrase fuel) := by
  have hparts : Tracks source lo (fun parts hi => lo < hi ∧
      InTurn (Phrase.Lies source) lo parts.2 hi)
      (tried .call do
        let name ← name
        layout
        let args ← Reader.arguments phrase fuel
        pure (name, args)) := by
    refine Tracks.tried ?_ _
    refine tracks_name.bind fun name mid _ hmid => tracks_layout.bind fun _ start hstart _ => ?_
    refine (h.arguments start).bind fun args hi hle hargs => tracks_pure ?_
    exact ⟨by omega, hargs.2.widen (by omega) (Nat.le_refl _)⟩
  refine (hparts.spanned fun _ _ hi => hi.1).bind fun found hi _ hfound => tracks_pure ?_
  obtain ⟨⟨start, stop⟩, name, args⟩ := found
  obtain ⟨⟨rfl, rfl⟩, hcovers, -, hturn⟩ := hfound
  obtain ⟨hencloses, hplaced⟩ := hturn.encloses
  exact ⟨.call hcovers hencloses hplaced, Nat.le_refl _, Nat.le_refl _⟩

theorem primary (h : TracksPhrases source phrase) (lo : Nat) :
    Tracks source lo (Phrase.Lies source lo) (primary phrase fuel) := by
  have hatom (construct : Construct) {scanner : Scanner Token} (hsplits : Scanner.Splits scanner)
      (hadvances : Scanner.Advances scanner) :
      Tracks source lo (Phrase.Lies source lo) (atom construct scanner) := by
    have htoken : Tracks source lo (fun _ hi => lo < hi) (scan scanner) :=
      tracks_scan hsplits hadvances
    have hspanned := (htoken.tried construct).spanned fun _ _ hi => hi
    refine hspanned.bind fun found hi _ hfound => tracks_pure ?_
    obtain ⟨⟨start, stop⟩, token⟩ := found
    obtain ⟨⟨rfl, rfl⟩, hcovers, -⟩ := hfound
    exact ⟨.atom hcovers, Nat.le_refl _, Nat.le_refl _⟩
  refine tracks_oneOf fun r hr => ?_
  simp only [List.mem_append, List.mem_cons, List.not_mem_nil, or_false, List.mem_map] at hr
  rcases hr with ((rfl | rfl | rfl) | ⟨literal, hliteral, rfl⟩) | rfl | rfl
  · exact h.group lo
  · exact h.list lo
  · exact h.map lo
  · exact hatom _ (Level.splits_of_mem_literals literal hliteral)
      (advances_of_mem_literals literal hliteral)
  · exact h.call lo
  · exact hatom _ Scanner.name_splits Scanner.name_advances

theorem operand (h : TracksPhrases source phrase) (lo : Nat) :
    Tracks source lo (Phrase.Lies source lo) (operand phrase fuel) := by
  have hsign : ∀ lo, Tracks source lo
      (fun s hi => lo ≤ s.1 ∧ s.1 ≤ hi ∧ IsBoundary source s.1) sign := by
    intro lo
    refine tracks_offset.bind fun start mid _ hstart => ?_
    obtain ⟨rfl, rfl, hboundary⟩ := hstart
    have hop (construct : Construct) (text : List Char) (op : UnaryOp) :
        Tracks source mid (fun _ hi => mid ≤ hi) (do mark construct text; pure op) :=
      ((tracks_expect text).tried construct).bind fun _ mid hmid _ => tracks_pure hmid
    refine ((hop _ _ _).orElse (hop _ _ _)).bind fun op hi hle _ => tracks_pure ?_
    exact ⟨Nat.le_refl _, hle, hboundary⟩
  have hselection : ∀ lo, Tracks source lo (Selection.Lies source lo)
      (orElse (Reader.member phrase fuel) (Reader.index phrase)) :=
    fun lo => (h.member lo).orElse (h.index lo)
  refine (tracks_many hsign fuel lo).bind fun signs mid _ hsigns => ?_
  refine tracks_layout.bind fun _ start hstart _ => ?_
  refine (h.primary start).bind fun base stop _ hbase => ?_
  refine tracks_layout.bind fun _ after hafter _ => ?_
  refine (tracks_many hselection fuel after).bind fun selections hi _ hselections => tracks_pure ?_
  refine Phrase.Lies.signed (hsigns.widen (Nat.le_refl _) hstart) ?_
  exact (hbase.widen (Nat.le_refl _) hafter).selectAll hselections

theorem linked (h : TracksPhrases source phrase) (lo : Nat) :
    Tracks source lo (Phrase.Lies source lo) (linked phrase fuel) := by
  have hnext : ∀ lo, Tracks source lo (Phrase.Linked source lo)
      (do
        let link ← Reader.link phrase
        layout
        let right ← Reader.operand phrase fuel
        pure (link, right)) := by
    intro lo
    refine (h.link lo).bind fun link mid hmid hlink => tracks_layout.bind fun _ start hstart _ => ?_
    refine (h.operand start).bind fun right hi hle hright => tracks_pure ?_
    refine ⟨start, Nat.le_trans hmid hstart, hle, ?_, hright⟩
    cases link with
    | op op => trivial
    | choice whenTrue => exact Phrase.Lies.widen hlink (Nat.le_refl _) hstart
  refine Tracks.tried ?_ _
  refine (h.operand lo).bind fun first mid _ hfirst => tracks_layout.bind fun _ start hstart _ => ?_
  refine (tracks_many hnext fuel start).bind fun links hi _ hlinks => tracks_pure ?_
  exact (hfirst.widen (Nat.le_refl _) hstart).chain hlinks

end TracksPhrases

theorem tracks_phrase (fuel : Nat) : TracksPhrases source (Reader.phrase fuel) := by
  induction fuel with
  | zero => exact fun _ => tracks_fail
  | succ fuel ih => exact ih.linked

theorem tracks_source (fuel : Nat) :
    Tracks source lo (fun p _ => p.Placed source) (Reader.source fuel) := by
  have hend : ∀ lo, Tracks source lo (fun _ _ => True) endOfInput := by
    refine fun lo => Tracks.tried ?_ _
    rintro c hc rfl
    refine ⟨trivial, fun a c' heq => ?_⟩
    simp only at heq
    split at heq
    · cases heq
      exact ⟨hc, Nat.le_refl _, trivial⟩
    · cases heq
  refine Tracks.tried ?_ _
  refine tracks_layout.bind fun _ start _ _ => (tracks_phrase fuel start).bind fun p _ _ hp => ?_
  refine tracks_layout.bind fun _ stop _ _ => (hend stop).bind fun _ _ _ _ => ?_
  exact tracks_pure hp.placed

end Constructs

end Reader

/-! ### Sources -/

theorem tracks_readSource (source : List Char) : (readSource source).log.Within source ∧
    ∀ p c, (readSource source).outcome = some (p, c) → p.Placed source := by
  have hstart : (⟨0, source⟩ : Cursor).In source := ⟨[], rfl, rfl⟩
  obtain ⟨hlog, hyields⟩ := Reader.tracks_source (source.length + 1) _ hstart rfl
  exact ⟨hlog, fun p c heq => (hyields p c heq).2.2⟩

/-- The parts of the phrase of a source stand one behind the other in it. -/
theorem Phrase.placed_of_read? {p : Phrase} (h : Phrase.read? source = some p) :
    p.Placed source := by
  obtain ⟨⟨found, c⟩, hread, rfl⟩ := Option.map_eq_some_iff.mp h
  exact (tracks_readSource source).2 found c hread

theorem Attempts.isBoundary_note {a : Attempts} {offset : Nat} (h : IsBoundary source a.offset)
    (hoffset : IsBoundary source offset) (construct : Construct) (before : Nat) :
    IsBoundary source (a.note construct offset before).offset := by
  unfold Attempts.note
  split
  · exact h
  split
  · exact hoffset
  split
  · exact hoffset
  · exact h

theorem Attempts.isBoundary_replay {a : Attempts} {log : Log} (h : IsBoundary source a.offset)
    (hlog : log.Within source) : IsBoundary source (a.replay log).offset := by
  induction log generalizing a with
  | silent => exact h
  | both first second ihfirst ihsecond => exact ihsecond (ihfirst h hlog.1) hlog.2
  | failed construct offset inner ih => exact isBoundary_note (ih h hlog.2) hlog.1 _ _

/-- The furthest failed try was at a boundary of the source. -/
theorem isBoundary_attempts (source : List Char) : IsBoundary source (attempts source).offset :=
  Attempts.isBoundary_replay ⟨[], source, rfl, rfl⟩ (tracks_readSource source).1

end EmbeddedExpr.Grammar
