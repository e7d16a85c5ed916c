import EmbeddedExpr.Grammar.Phrase
import EmbeddedExpr.Proofs.Grammar.Reader
import EmbeddedExpr.Proofs.Text.Run

/-!
# Phrases stay inside their source

Every offset in a phrase is one that a reader noted, so it is within the source.  Repetitions
are bounded by the fuel, and with it the lengths of all lists in a phrase.  Both together are
`Phrase.Within`; `within_of_read?` says that the phrase of a source is within its length.

The constructs of the grammar are taken one by one, the recursion through the whole grammar
being that of the fuel (`Level`).
-/

namespace EmbeddedExpr.Grammar

/-! ### Phrases -/

/-- All offsets of a phrase and the lengths of its lists are within a limit. -/
inductive Phrase.Within (limit : Nat) : Phrase → Prop
  | atom {span : Span} {token : Token} : span.Within limit → Within limit (.atom span token)
  | group {inner : Phrase} : Within limit inner → Within limit (.group inner)
  | list {span : Span} {items : List Phrase} : span.Within limit → items.length ≤ limit →
      (∀ item ∈ items, Within limit item) → Within limit (.list span items)
  | map {span : Span} {entries : List (Phrase × Phrase)} : span.Within limit →
      entries.length ≤ limit → (∀ entry ∈ entries, Within limit entry.1) →
      (∀ entry ∈ entries, Within limit entry.2) → Within limit (.map span entries)
  | call {span : Span} {function : List Char} {args : List Phrase} : span.Within limit →
      args.length ≤ limit → (∀ arg ∈ args, Within limit arg) →
      Within limit (.call span function args)
  | sign {start : Nat} {op : UnaryOp} {operand : Phrase} : start ≤ limit →
      Within limit operand → Within limit (.sign start op operand)
  | field {target : Phrase} {name : List Char} {stop : Nat} : Within limit target →
      stop ≤ limit → Within limit (.field target name stop)
  | method {target : Phrase} {name : List Char} {args : List Phrase} {stop : Nat} :
      Within limit target → args.length ≤ limit → (∀ arg ∈ args, Within limit arg) →
      stop ≤ limit → Within limit (.method target name args stop)
  | index {target position : Phrase} {stop : Nat} : Within limit target →
      Within limit position → stop ≤ limit → Within limit (.index target position stop)
  | infixed {op : InfixOp} {left right : Phrase} : Within limit left → Within limit right →
      Within limit (.infixed op left right)
  | choice {c t f : Phrase} : Within limit c → Within limit t → Within limit f →
      Within limit (.choice c t f)

/-- The phrases in a link are within a limit. -/
def Link.Within (limit : Nat) : Link → Prop
  | .op _ => True
  | .choice whenTrue => whenTrue.Within limit

/-- The phrases in a selection and its offset are within a limit. -/
def Selection.Within (limit : Nat) : Selection → Prop
  | .field _ stop => stop ≤ limit
  | .method _ args stop => args.length ≤ limit ∧ (∀ arg ∈ args, arg.Within limit) ∧ stop ≤ limit
  | .index position stop => position.Within limit ∧ stop ≤ limit

namespace Phrase

variable {limit : Nat}

theorem Within.select {target : Phrase} (h : target.Within limit) {selection : Selection}
    (hselection : selection.Within limit) : (target.select selection).Within limit := by
  cases selection with
  | field name stop => exact .field h hselection
  | method name args stop => exact .method h hselection.1 hselection.2.1 hselection.2.2
  | index position stop => exact .index h hselection.1 hselection.2

theorem Within.selectAll {target : Phrase} (h : target.Within limit)
    {selections : List Selection} (hselections : ∀ s ∈ selections, s.Within limit) :
    (selections.foldl Phrase.select target).Within limit := by
  induction selections generalizing target with
  | nil => exact h
  | cons first rest ih =>
      exact ih (h.select (hselections first (List.mem_cons_self ..)))
        fun s hs => hselections s (List.mem_cons_of_mem _ hs)

theorem Within.signed {signs : List (Nat × UnaryOp)} (hsigns : ∀ s ∈ signs, s.1 ≤ limit)
    {operand : Phrase} (h : operand.Within limit) : (Phrase.signed signs operand).Within limit := by
  induction signs with
  | nil => exact h
  | cons first rest ih =>
      exact .sign (hsigns first (List.mem_cons_self ..))
        (ih fun s hs => hsigns s (List.mem_cons_of_mem _ hs))

theorem Within.attachOp {phrase : Phrase} (h : phrase.Within limit) (op : InfixOp)
    {right : Phrase} (hright : right.Within limit) : (attachOp op right phrase).Within limit := by
  fun_induction Phrase.attachOp op right phrase with
  | case1 p left last hlevel ih =>
      cases h with
      | infixed hleft hlast => exact .infixed hleft (ih hlast)
  | case2 p left last hlevel => exact .infixed h hright
  | case3 c t f ih =>
      cases h with
      | choice hc ht hf => exact .choice hc ht (ih hf)
  | case4 phrase => exact .infixed h hright

theorem Within.attachChoice {phrase : Phrase} (h : phrase.Within limit)
    {whenTrue right : Phrase} (htrue : whenTrue.Within limit) (hright : right.Within limit) :
    (attachChoice whenTrue right phrase).Within limit := by
  fun_induction Phrase.attachChoice whenTrue right phrase with
  | case1 c t f ih =>
      cases h with
      | choice hc ht hf => exact .choice hc ht (ih hf)
  | case2 phrase => exact .choice h htrue hright

theorem Within.chain {first : Phrase} (h : first.Within limit) {links : List (Link × Phrase)}
    (hlinks : ∀ l ∈ links, l.1.Within limit ∧ l.2.Within limit) :
    (Phrase.chain first links).Within limit := by
  induction links generalizing first with
  | nil => exact h
  | cons next rest ih =>
      obtain ⟨link, right⟩ := next
      obtain ⟨hlink, hright⟩ := hlinks _ (List.mem_cons_self ..)
      refine ih ?_ fun l hl => hlinks l (List.mem_cons_of_mem _ hl)
      cases link with
      | op op => exact h.attachOp op hright
      | choice whenTrue => exact h.attachChoice hlink hright

end Phrase

/-! ### The grammar -/

namespace Reader

section Constructs

variable {stop limit fuel : Nat} {phrase : Reader Phrase}

theorem yields_token {scanner : Scanner Token} (construct : Construct)
    (h : Scanner.Splits scanner) : Yields stop (fun _ => True) (token construct scanner) :=
  (yields_scan h).tried construct

theorem yields_name : Yields stop (fun _ => True) name := by
  refine (yields_token .name Scanner.name_splits).bind fun a _ => ?_
  split
  · exact yields_pure trivial
  · exact yields_fail

theorem yields_commaSeparated {α : Type} {good : α → Prop} {item : Reader α}
    (h : Yields stop good item) :
    Yields stop (fun found => (∀ a ∈ found, good a) ∧ found.length ≤ fuel + 2)
      (commaSeparated item fuel) := by
  have hnext : Yields stop good (do expect [',']; layout; item) :=
    (yields_expect _).bind fun _ _ => yields_layout.bind fun _ _ => h
  refine h.bind fun first hfirst => yields_layout.bind fun _ _ => ?_
  refine (hnext.many fuel).bind fun more hmore => yields_layout.bind fun _ _ => ?_
  refine (yields_expect _).optional.bind fun _ _ => yields_pure ?_
  exact ⟨List.forall_mem_cons.mpr ⟨hfirst, hmore.1⟩, Nat.succ_le_succ hmore.2⟩

theorem yields_enclosed {α : Type} {good : α → Prop} {item : Reader α} (opening closing : Char)
    (h : Yields stop good item) :
    Yields stop (fun found => (∀ a ∈ found, good a) ∧ found.length ≤ fuel + 2)
      (enclosed opening closing item fuel) := by
  refine (yields_expect _).bind fun _ _ => yields_layout.bind fun _ _ => ?_
  refine (yields_commaSeparated h).optional.bind fun items hitems => ?_
  refine yields_layout.bind fun _ _ => (yields_expect _).bind fun _ _ => yields_pure ?_
  cases items with
  | none => exact ⟨nofun, Nat.zero_le _⟩
  | some items => exact hitems items rfl

/-- What the constructs of a level may use: the reader of the phrases one level down, and
that the limit covers the source and the fuel. -/
structure Level (stop limit fuel : Nat) (phrase : Reader Phrase) : Prop where
  yields : Yields stop (Phrase.Within limit) phrase
  stop_le : stop ≤ limit
  fuel_le : fuel + 2 ≤ limit

namespace Level

theorem span {α : Type} {good : α → Prop} {r : Reader α} (h : Level stop limit fuel phrase)
    (hr : Yields stop good r) :
    Yields stop (fun found => found.1.Within limit ∧ good found.2) (spanned r) :=
  hr.spanned.mono fun _ ha =>
    ⟨⟨Nat.le_trans ha.1.1 h.stop_le, Nat.le_trans ha.1.2 h.stop_le⟩, ha.2⟩

theorem offset (h : Level stop limit fuel phrase) : Yields stop (· ≤ limit) Reader.offset :=
  yields_offset.mono fun _ ha => Nat.le_trans ha h.stop_le

theorem enclosed {α : Type} {good : α → Prop} {item : Reader α} (opening closing : Char)
    (h : Level stop limit fuel phrase) (hitem : Yields stop good item) :
    Yields stop (fun found => (∀ a ∈ found, good a) ∧ found.length ≤ limit)
      (Reader.enclosed opening closing item fuel) :=
  (yields_enclosed opening closing hitem).mono fun _ ha => ⟨ha.1, Nat.le_trans ha.2 h.fuel_le⟩

theorem arguments (h : Level stop limit fuel phrase) :
    Yields stop (fun args => (∀ arg ∈ args, arg.Within limit) ∧ args.length ≤ limit)
      (arguments phrase fuel) :=
  (h.enclosed '(' ')' h.yields).tried .arguments

theorem link (h : Level stop limit fuel phrase) :
    Yields stop (Link.Within limit) (link phrase) := by
  refine yields_oneOf fun r hr => ?_
  have hmarked (entry : Construct × List Char × InfixOp) :
      Yields stop (Link.Within limit) (marked entry) :=
    ((yields_expect _).tried _).bind fun _ _ => yields_pure trivial
  simp only [List.cons_append, List.mem_cons, List.mem_append, List.mem_map] at hr
  rcases hr with rfl | ⟨entry, _, rfl⟩ | rfl | ⟨entry, _, rfl⟩
  · refine Yields.tried ?_ _
    refine (yields_expect _).bind fun _ _ => yields_layout.bind fun _ _ => ?_
    refine h.yields.bind fun whenTrue htrue => yields_layout.bind fun _ _ => ?_
    exact (yields_expect _).bind fun _ _ => yields_pure htrue
  · exact hmarked entry
  · exact ((yields_scan (Scanner.word_splits _)).tried _).bind fun _ _ => yields_pure trivial
  · exact hmarked entry

theorem sign (h : Level stop limit fuel phrase) : Yields stop (fun s => s.1 ≤ limit) sign := by
  refine h.offset.bind fun start hstart => ?_
  have hop (construct : Construct) (text : List Char) (op : UnaryOp) :
      Yields stop (fun _ => True) (do mark construct text; pure op) :=
    ((yields_expect text).tried construct).bind fun _ _ => yields_pure trivial
  exact ((hop _ _ _).orElse (hop _ _ _)).bind fun _ _ => yields_pure hstart

theorem member (h : Level stop limit fuel phrase) :
    Yields stop (Selection.Within limit) (member phrase fuel) := by
  have hparts : Yields stop (fun parts : List Char × Option (List Phrase) =>
      ∀ args ∈ parts.2, (∀ arg ∈ args, arg.Within limit) ∧ args.length ≤ limit)
      (tried .member do
        expect ['.']
        layout
        let name ← name
        layout
        let args ← optional (Reader.arguments phrase fuel)
        pure (name, args)) := by
    refine Yields.tried ?_ _
    refine (yields_expect _).bind fun _ _ => yields_layout.bind fun _ _ => ?_
    refine yields_name.bind fun _ _ => yields_layout.bind fun _ _ => ?_
    exact h.arguments.optional.bind fun _ hargs => yields_pure hargs
  refine hparts.bind fun parts hargs => h.offset.bind fun stop hstop => ?_
  obtain ⟨name, args⟩ := parts
  cases args with
  | none => exact yields_pure hstop
  | some args => exact yields_pure ⟨(hargs args rfl).2, (hargs args rfl).1, hstop⟩

theorem index (h : Level stop limit fuel phrase) :
    Yields stop (Selection.Within limit) (index phrase) := by
  have hposition : Yields stop (Phrase.Within limit) (tried .index do
      expect ['[']
      layout
      let position ← phrase
      layout
      expect [']']
      pure position) := by
    refine Yields.tried ?_ _
    refine (yields_expect _).bind fun _ _ => yields_layout.bind fun _ _ => ?_
    refine h.yields.bind fun _ hposition => yields_layout.bind fun _ _ => ?_
    exact (yields_expect _).bind fun _ _ => yields_pure hposition
  exact hposition.bind fun _ hposition => h.offset.bind fun _ hstop =>
    yields_pure ⟨hposition, hstop⟩

theorem group (h : Level stop limit fuel phrase) :
    Yields stop (Phrase.Within limit) (group phrase) := by
  refine Yields.tried ?_ _
  refine (yields_expect _).bind fun _ _ => yields_layout.bind fun _ _ => ?_
  refine h.yields.bind fun _ hinner => yields_layout.bind fun _ _ => ?_
  exact (yields_expect _).bind fun _ _ => yields_pure (.group hinner)

theorem list (h : Level stop limit fuel phrase) :
    Yields stop (Phrase.Within limit) (list phrase fuel) :=
  (h.span ((h.enclosed '[' ']' h.yields).tried .list)).bind fun _ ha =>
    yields_pure (.list ha.1 ha.2.2 ha.2.1)

theorem entry (h : Level stop limit fuel phrase) :
    Yields stop (fun e : Phrase × Phrase => e.1.Within limit ∧ e.2.Within limit)
      (entry phrase) := by
  refine Yields.tried ?_ _
  refine h.yields.bind fun _ hkey => yields_layout.bind fun _ _ => ?_
  refine (yields_expect _).bind fun _ _ => yields_layout.bind fun _ _ => ?_
  exact h.yields.bind fun _ hvalue => yields_pure ⟨hkey, hvalue⟩

theorem map (h : Level stop limit fuel phrase) :
    Yields stop (Phrase.Within limit) (map phrase fuel) :=
  (h.span ((h.enclosed '{' '}' h.entry).tried .map)).bind fun _ ha =>
    yields_pure (.map ha.1 ha.2.2 (fun e he => (ha.2.1 e he).1) fun e he => (ha.2.1 e he).2)

theorem atom {scanner : Scanner Token} (construct : Construct)
    (h : Level stop limit fuel phrase) (hscanner : Scanner.Splits scanner) :
    Yields stop (Phrase.Within limit) (atom construct scanner) :=
  (h.span (yields_token construct hscanner)).bind fun _ ha => yields_pure (.atom ha.1)

theorem call (h : Level stop limit fuel phrase) :
    Yields stop (Phrase.Within limit) (call phrase fuel) := by
  have hparts : Yields stop (fun parts : List Char × List Phrase =>
      (∀ arg ∈ parts.2, arg.Within limit) ∧ parts.2.length ≤ limit)
      (tried .call do
        let name ← name
        layout
        let args ← Reader.arguments phrase fuel
        pure (name, args)) := by
    refine Yields.tried ?_ _
    refine yields_name.bind fun _ _ => yields_layout.bind fun _ _ => ?_
    exact h.arguments.bind fun _ hargs => yields_pure hargs
  exact (h.span hparts).bind fun _ ha => yields_pure (.call ha.1 ha.2.2 ha.2.1)

theorem splits_of_mem_literals : ∀ literal ∈ literals, Scanner.Splits literal.2 := by
  simp only [literals, List.forall_mem_cons]
  exact ⟨Scanner.double_splits, Scanner.uint_splits, Scanner.int_splits, Scanner.null_splits,
    Scanner.bool_splits, Scanner.bytes_splits, Scanner.text_splits, nofun⟩

theorem primary (h : Level stop limit fuel phrase) :
    Yields stop (Phrase.Within limit) (primary phrase fuel) := by
  refine yields_oneOf fun r hr => ?_
  simp only [List.mem_append, List.mem_cons, List.not_mem_nil, or_false, List.mem_map] at hr
  rcases hr with ((rfl | rfl | rfl) | ⟨literal, hliteral, rfl⟩) | rfl | rfl
  · exact h.group
  · exact h.list
  · exact h.map
  · exact h.atom _ (splits_of_mem_literals literal hliteral)
  · exact h.call
  · exact h.atom _ Scanner.name_splits

theorem operand (h : Level stop limit fuel phrase) :
    Yields stop (Phrase.Within limit) (operand phrase fuel) := by
  refine (h.sign.many fuel).bind fun _ hsigns => yields_layout.bind fun _ _ => ?_
  refine h.primary.bind fun _ hbase => yields_layout.bind fun _ _ => ?_
  refine ((h.member.orElse h.index).many fuel).bind fun _ hselections => yields_pure ?_
  exact (hbase.selectAll hselections.1).signed hsigns.1

theorem linked (h : Level stop limit fuel phrase) :
    Yields stop (Phrase.Within limit) (linked phrase fuel) := by
  have hnext : Yields stop (fun l : Link × Phrase => l.1.Within limit ∧ l.2.Within limit)
      (do
        let link ← Reader.link phrase
        layout
        let right ← Reader.operand phrase fuel
        pure (link, right)) :=
    h.link.bind fun _ hlink => yields_layout.bind fun _ _ =>
      h.operand.bind fun _ hright => yields_pure ⟨hlink, hright⟩
  refine Yields.tried ?_ _
  refine h.operand.bind fun _ hfirst => yields_layout.bind fun _ _ => ?_
  exact (hnext.many fuel).bind fun _ hlinks => yields_pure (hfirst.chain hlinks.1)

end Level

/-- The reader of phrases stays within a limit that covers the source and the fuel. -/
theorem yields_phrase (hstop : stop ≤ limit) (hfuel : fuel + 1 ≤ limit) :
    Yields stop (Phrase.Within limit) (Reader.phrase fuel) := by
  induction fuel with
  | zero => exact yields_fail
  | succ fuel ih =>
      have level : Level stop limit fuel (Reader.phrase fuel) :=
        ⟨ih (Nat.le_of_succ_le hfuel), hstop, hfuel⟩
      exact level.linked

theorem yields_source (hstop : stop ≤ limit) (hfuel : fuel + 1 ≤ limit) :
    Yields stop (Phrase.Within limit) (source fuel) := by
  have hend : Yields stop (fun _ => True) endOfInput := by
    refine Yields.tried (fun c a c' hc heq => ?_) _
    simp only at heq
    split at heq
    · cases heq; exact ⟨hc, trivial⟩
    · cases heq
  refine Yields.tried ?_ _
  refine yields_layout.bind fun _ _ => (yields_phrase hstop hfuel).bind fun _ hphrase => ?_
  exact yields_layout.bind fun _ _ => hend.bind fun _ _ => yields_pure hphrase

end Constructs

end Reader

/-- The phrase of a source has its offsets and the lengths of its lists within the length of
the source and two more. -/
theorem Phrase.within_of_read? {text : List Char} {phrase : Phrase}
    (h : Phrase.read? text = some phrase) : phrase.Within (Text.byteLength text + 2) := by
  obtain ⟨⟨found, c'⟩, hread, rfl⟩ := Option.map_eq_some_iff.mp h
  have hlength := Text.length_le_byteLength text
  have hyields : Reader.Yields (Text.byteLength text) (Phrase.Within (Text.byteLength text + 2))
      (Reader.source (text.length + 1)) := Reader.yields_source (by omega) (by omega)
  exact (hyields ⟨0, text⟩ found c' (Nat.zero_add _) hread).2

end EmbeddedExpr.Grammar
