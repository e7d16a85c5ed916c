import EmbeddedExpr.Proofs.Grammar.Literals

/-!
# Operands on their own

A phrase that consists of one operand: a literal, a list, a map or a call, perhaps with a minus
sign.  Nothing links it to something else, because no operator begins like what closes an operand
(`closes_refuses_link`), and nothing selects from it for the same reason.

The readers of primary phrases are tried in a fixed order.  Where the text begins with neither
layout, a sign nor a bracket (`Bare`), the bracketed ones refuse it and the first scanner that
accepts it decides (`reads_primary_atom`).
-/

namespace EmbeddedExpr.Grammar.Reader

variable {phrase : Reader Phrase} {fuel : Nat} {text rest : List Char} {good : Phrase → Prop}
  {goods : List Phrase → Prop}

/-! ### What does not follow a literal -/

theorem refuses_marked {entry : Construct × List Char × InfixOp} {c : Char}
    (hc : c ∈ entry.2.1.head?) (h : c ∉ text.head?) : Refuses (marked entry) text :=
  ((refuses_expect hc h).tried _).bind _

theorem closes_refuses_marked (h : Closes rest) :
    ∀ entry ∈ infixMarks ++ arithMarks, Refuses (marked entry) rest := by
  have hmarks : ∀ entry ∈ infixMarks ++ arithMarks,
      ∃ c ∈ entry.2.1.head?, c ∉ [',', ':', ')', ']', '\x7d'] := by
    simp [infixMarks, arithMarks]
  intro entry hentry
  obtain ⟨c, hc, hnot⟩ := hmarks entry hentry
  exact refuses_marked hc (h.not_mem_head hnot)

theorem closes_refuses_membership (h : Closes rest) : Refuses membership rest := by
  have hhead : ∀ c ∈ rest.head?, 'i' ≠ c := h.forall_head (by simp)
  have hword : Scanner.word ['i', 'n'] rest = none := by
    cases rest with
    | nil => rfl
    | cons c rest => exact Scanner.word_none (hhead c rfl) _ _
  exact ((refuses_scan hword).tried _).bind _

/-- No link begins behind a literal. -/
theorem closes_refuses_link (h : Closes rest) : Refuses (link phrase) rest := by
  have hmarked := closes_refuses_marked h
  refine refuses_oneOf fun r hr => ?_
  rcases List.mem_append.mp hr with hr | hr
  · rcases List.mem_cons.mp hr with rfl | hr
    · exact ((refuses_expect rfl (h.not_mem_head (by decide))).bind _).tried _
    · obtain ⟨entry, hentry, rfl⟩ := List.mem_map.mp hr
      exact hmarked entry (List.mem_append_left _ hentry)
  · rcases List.mem_cons.mp hr with rfl | hr
    · exact closes_refuses_membership h
    · obtain ⟨entry, hentry, rfl⟩ := List.mem_map.mp hr
      exact hmarked entry (List.mem_append_right _ hentry)

/-- A selection begins with a point or a bracket. -/
theorem refuses_selection (hpoint : '.' ∉ text.head?) (hbracket : '[' ∉ text.head?) :
    Refuses (orElse (member phrase fuel) (index phrase)) text := by
  refine Refuses.orElse ?_ ?_
  · exact (((refuses_expect rfl hpoint).bind _).tried _).bind _
  · exact (((refuses_expect rfl hbracket).bind _).tried _).bind _

/-- No selection begins behind a literal. -/
theorem closes_refuses_selection (h : Closes rest) :
    Refuses (orElse (member phrase fuel) (index phrase)) rest :=
  refuses_selection (h.not_mem_head (by decide)) (h.not_mem_head (by decide))

/-! ### Signs -/

/-- The text begins with no sign. -/
def Unsigned (text : List Char) : Prop := '-' ∉ text.head? ∧ '!' ∉ text.head?

/-- The text begins with neither layout, a sign nor a bracket. -/
def Bare (text : List Char) : Prop :=
  ∀ c ∈ text.head?, Cursor.isBlank c = false ∧ c ∉ ['/', '-', '!', '(', '[', '\x7b']

theorem Bare.cons {c : Char} (hblank : Cursor.isBlank c = false)
    (hc : c ∉ ['/', '-', '!', '(', '[', '\x7b']) (text : List Char) : Bare (c :: text) := by
  rintro _ ⟨⟩
  exact ⟨hblank, hc⟩

theorem Bare.not_mem_head (h : Bare text) {c : Char}
    (hc : c ∈ ['/', '-', '!', '(', '[', '\x7b']) : c ∉ text.head? :=
  fun hmem => (h c hmem).2 hc

theorem Bare.solid (h : Bare text) : Solid text :=
  fun c hc => ⟨(h c hc).1, fun heq => h.not_mem_head (by decide) (heq ▸ hc)⟩

theorem Bare.unsigned (h : Bare text) : Unsigned text :=
  ⟨h.not_mem_head (by decide), h.not_mem_head (by decide)⟩

theorem refuses_sign (h : Unsigned text) : Refuses sign text := by
  refine reads_offset.bind_refuses fun _ _ => Refuses.bind (Refuses.orElse ?_ ?_) _
  · exact ((refuses_expect rfl h.1).tried _).bind _
  · exact ((refuses_expect rfl h.2).tried _).bind _

theorem reads_minus (text : List Char) :
    Reads sign ('-' :: text) text (fun s => s.2 = .neg) := by
  have hneg : Reads (do mark .neg ['-']; pure UnaryOp.neg) ('-' :: text) text (· = .neg) :=
    ((reads_expect ['-'] text).tried _).bind fun _ _ => reads_pure rfl
  exact reads_offset.bind fun _ _ => (hneg.orElse _).bind fun _ hop => reads_pure hop

/-! ### Operands without links -/

/-- What an operand is behind its signs. -/
theorem reads_base (hsolid : Solid text) (hrest : Closes rest)
    (h : Reads (primary phrase fuel) text rest good) (signs : List (Nat × UnaryOp)) :
    Reads (do
        layout
        let base ← primary phrase fuel
        layout
        let selections ← many (orElse (member phrase fuel) (index phrase)) fuel
        pure (Phrase.signed signs (selections.foldl Phrase.select base)))
      text rest (fun p => ∃ q, p = Phrase.signed signs q ∧ good q) := by
  refine (reads_layout hsolid).bind fun _ _ => h.bind fun base hbase => ?_
  refine (reads_layout hrest.solid).bind fun _ _ => ?_
  refine ((closes_refuses_selection hrest).many fuel).bind fun selections hselections => ?_
  exact reads_pure ⟨base, by rw [hselections]; rfl, hbase⟩

theorem reads_linked_of_operand (hrest : Closes rest)
    (h : Reads (operand phrase fuel) text rest good) :
    Reads (linked phrase fuel) text rest good := by
  refine Reads.tried (h.bind fun first hfirst => ?_) _
  refine (reads_layout hrest.solid).bind fun _ _ => ?_
  refine (((closes_refuses_link hrest).bind _).many fuel).bind fun links hlinks => ?_
  exact reads_pure (by rw [hlinks]; exact hfirst)

/-- What is read on its own is read as a phrase where nothing links it to something else. -/
theorem reads_linked (hsolid : Solid text) (hsign : Unsigned text) (hrest : Closes rest)
    (h : Reads (primary phrase fuel) text rest good) :
    Reads (linked phrase fuel) text rest good := by
  refine reads_linked_of_operand hrest ?_
  refine ((refuses_sign hsign).many fuel).bind fun signs hsigns => ?_
  refine (reads_base hsolid hrest h _).mono ?_
  rintro p ⟨q, rfl, hq⟩
  rw [hsigns]
  exact hq

theorem reads_linked_minus (hsolid : Solid text) (hsign : Unsigned text) (hrest : Closes rest)
    (h : Reads (primary phrase fuel) text rest good) :
    Reads (linked phrase fuel) ('-' :: text) rest
      (fun p => ∃ start q, p = .sign start .neg q ∧ good q) := by
  refine reads_linked_of_operand hrest ?_
  have hsigns : Reads (many sign fuel) ('-' :: text) text
      (fun signs => ∃ start, signs = [(start, .neg)]) := by
    -- a second sign is looked for in vain
    refine Reads.orElse ((reads_minus text).bind fun s hs => ?_) _
    refine ((refuses_sign hsign).following hsolid fuel).bind fun more hmore => reads_pure ?_
    exact ⟨s.1, by rw [hmore, ← hs]⟩
  refine hsigns.bind fun signs ⟨start, hstart⟩ => ?_
  refine (reads_base hsolid hrest h _).mono ?_
  rintro p ⟨q, rfl, hq⟩
  rw [hstart]
  exact ⟨start, q, rfl, hq⟩

/-! ### Primary phrases -/

theorem refuses_atom {construct : Construct} {scanner : Scanner Token}
    (h : scanner text = none) : Refuses (atom construct scanner) text :=
  (((refuses_scan h).tried _).spanned).bind _

theorem reads_atom {construct : Construct} {scanner : Scanner Token} {token : Token}
    {taken : List Char} (h : scanner text = some (token, taken, rest)) :
    Reads (atom construct scanner) text rest (fun p => ∃ span, p = .atom span token) := by
  refine (((reads_scan h).tried _).spanned).bind fun found hfound => reads_pure ?_
  exact ⟨found.1, by rw [hfound]⟩

theorem refuses_bracketed (h : Bare text) :
    ∀ r ∈ [group phrase, list phrase fuel, map phrase fuel], Refuses r text := by
  simp only [List.mem_cons, List.not_mem_nil, or_false]
  rintro r (rfl | rfl | rfl)
  · exact ((refuses_expect rfl (h.not_mem_head (by decide))).bind _).tried _
  · exact ((((refuses_expect rfl (h.not_mem_head (by decide))).bind _).tried _).spanned).bind _
  · exact ((((refuses_expect rfl (h.not_mem_head (by decide))).bind _).tried _).spanned).bind _

/-- A literal is read by the first scanner that accepts it. -/
theorem reads_primary_atom (position : Nat) {construct : Construct} {scanner : Scanner Token}
    {token : Token} {taken : List Char}
    (hposition : literals[position]? = some (construct, scanner)) (hbare : Bare text)
    (hbefore : ∀ entry ∈ literals.take position, entry.2 text = none)
    (h : scanner text = some (token, taken, rest)) :
    Reads (primary phrase fuel) text rest (fun p => ∃ span, p = .atom span token) := by
  obtain ⟨hlt, hentry⟩ := List.getElem?_eq_some_iff.mp hposition
  have hliterals : literals =
      literals.take position ++ (construct, scanner) :: literals.drop (position + 1) := by
    rw [← hentry, ← List.drop_eq_getElem_cons hlt, List.take_append_drop]
  have hreaders : [group phrase, list phrase fuel, map phrase fuel] ++
        literals.map (fun entry => atom entry.1 entry.2) ++
          [call phrase fuel, atom .name Scanner.name] =
      ([group phrase, list phrase fuel, map phrase fuel] ++
        (literals.take position).map fun entry => atom entry.1 entry.2) ++
          atom construct scanner ::
            ((literals.drop (position + 1)).map (fun entry => atom entry.1 entry.2) ++
              [call phrase fuel, atom .name Scanner.name]) := by
    conv_lhs => rw [hliterals]
    simp
  rw [primary, hreaders]
  refine reads_oneOf (fun r hr => ?_) (reads_atom h)
  rcases List.mem_append.mp hr with hr | hr
  · exact refuses_bracketed hbare r hr
  · obtain ⟨entry, hentry, rfl⟩ := List.mem_map.mp hr
    exact refuses_atom (hbefore entry hentry)

theorem reads_primary_list (h : Reads (enclosed '[' ']' phrase fuel) text rest goods)
    (htext : text.head? = some '[') :
    Reads (primary phrase fuel) text rest
      (fun p => ∃ span items, p = .list span items ∧ goods items) := by
  have hgroup : Refuses (group phrase) text :=
    ((refuses_expect rfl (by rw [htext]; decide)).bind _).tried _
  have hlist : Reads (list phrase fuel) text rest
      (fun p => ∃ span items, p = .list span items ∧ goods items) :=
    ((h.tried _).spanned).bind fun found hfound => reads_pure ⟨found.1, found.2, rfl, hfound⟩
  exact hgroup.orElse_reads (hlist.orElse _)

theorem reads_primary_map {goods : List (Phrase × Phrase) → Prop}
    (h : Reads (enclosed '\x7b' '\x7d' (entry phrase) fuel) text rest goods)
    (htext : text.head? = some '\x7b') :
    Reads (primary phrase fuel) text rest
      (fun p => ∃ span entries, p = .map span entries ∧ goods entries) := by
  have hgroup : Refuses (group phrase) text :=
    ((refuses_expect rfl (by rw [htext]; decide)).bind _).tried _
  have hlist : Refuses (list phrase fuel) text :=
    ((((refuses_expect rfl (by rw [htext]; decide)).bind _).tried _).spanned).bind _
  have hmap : Reads (map phrase fuel) text rest
      (fun p => ∃ span entries, p = .map span entries ∧ goods entries) :=
    ((h.tried _).spanned).bind fun found hfound => reads_pure ⟨found.1, found.2, rfl, hfound⟩
  exact hgroup.orElse_reads (hlist.orElse_reads (hmap.orElse _))

/-- A call is read where no literal is. -/
theorem reads_primary_call {name after : List Char} (hbare : Bare text)
    (hliterals : ∀ entry ∈ literals, entry.2 text = none)
    (hname : Scanner.name text = some (.name name, name, after)) (hafter : Solid after)
    (h : Reads (arguments phrase fuel) after rest goods) :
    Reads (primary phrase fuel) text rest
      (fun p => ∃ span args, p = .call span name args ∧ goods args) := by
  have hcall : Reads (call phrase fuel) text rest
      (fun p => ∃ span args, p = .call span name args ∧ goods args) := by
    have hcalled : Reads Reader.name text after (· = name) :=
      ((reads_scan hname).tried _).bind fun token htoken => by rw [htoken]; exact reads_pure rfl
    have hparts : Reads (do
          let name ← Reader.name
          layout
          let args ← arguments phrase fuel
          pure (name, args))
        text rest (fun parts => parts.1 = name ∧ goods parts.2) :=
      hcalled.bind fun _ heq => (reads_layout hafter).bind fun _ _ => h.bind fun _ hargs =>
        reads_pure ⟨heq, hargs⟩
    refine ((hparts.tried .call).spanned).bind fun found hfound => reads_pure ?_
    exact ⟨found.1, found.2.2, by rw [← hfound.1], hfound.2⟩
  rw [primary]
  refine reads_oneOf (fun r hr => ?_) hcall
  rcases List.mem_append.mp hr with hr | hr
  · exact refuses_bracketed hbare r hr
  · obtain ⟨entry, hentry, rfl⟩ := List.mem_map.mp hr
    exact refuses_atom (hliterals entry hentry)

/-! ### Where no phrase begins -/

theorem refuses_primary (hbare : Bare text)
    (hliterals : ∀ entry ∈ literals, entry.2 text = none) (hname : Scanner.name text = none) :
    Refuses (primary phrase fuel) text := by
  have hcall : Refuses (call phrase fuel) text :=
    (((((refuses_scan hname).tried _).bind _).bind _).tried _).spanned.bind _
  refine refuses_oneOf fun r hr => ?_
  rcases List.mem_append.mp hr with hr | hr
  · rcases List.mem_append.mp hr with hr | hr
    · exact refuses_bracketed hbare r hr
    · obtain ⟨entry, hentry, rfl⟩ := List.mem_map.mp hr
      exact refuses_atom (hliterals entry hentry)
  · rcases List.mem_pair.mp hr with rfl | rfl
    · exact hcall
    · exact refuses_atom hname

/-- No phrase begins with a closing bracket. -/
theorem refuses_phrase_closing {closing : Char} (h : closing ∈ [')', ']', '\x7d'])
    (fuel : Nat) (rest : List Char) : Refuses (Reader.phrase fuel) (closing :: rest) := by
  have hplain : ∀ c ∈ [')', ']', '\x7d'], Cursor.isBlank c = false ∧
      c ∉ ['/', '-', '!', '(', '[', '\x7b'] ∧ Number.isDigit c = false ∧
        c ∉ ['.', 'n', 't', 'f', 'b', 'B', 'r', 'R', '"', '\''] ∧
          Scanner.isNameChar c = false := by
    simp [Cursor.isBlank, Scanner.isNameChar, Scanner.isLetter, Number.isDigit_eq]
  obtain ⟨hblank, hmark, hdigit, hliteral, hname⟩ := hplain closing h
  have hbare : Bare (closing :: rest) := .cons hblank hmark rest
  cases fuel with
  | zero => exact fun _ => rfl
  | succ fuel =>
      have hprimary : Refuses (primary (Reader.phrase fuel) fuel) (closing :: rest) :=
        refuses_primary hbare (Scanner.literals_none hdigit hliteral rest)
          (Scanner.name_none hname rest)
      have hoperand : Refuses (operand (Reader.phrase fuel) fuel) (closing :: rest) :=
        ((refuses_sign hbare.unsigned).many fuel).bind_refuses fun _ _ =>
          (reads_layout hbare.solid).bind_refuses fun _ _ => hprimary.bind _
      exact (hoperand.bind _).tried _

end EmbeddedExpr.Grammar.Reader
