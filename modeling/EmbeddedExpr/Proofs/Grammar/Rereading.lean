import EmbeddedExpr.Proofs.Grammar.Precedence
import EmbeddedExpr.Proofs.Grammar.Shape
import EmbeddedExpr.Proofs.Grammar.Spelling

/-!
# Spelled phrases are read again

The lexemes that spell a phrase, with blanks between them, are read as a phrase that differs from
it in offsets only (`read?_spelled`).  Each reader takes the lexemes of its part up to where what
stands behind cannot belong to the part.  The operands of a phrase are told from its links by their
levels, as for the operations; here a phrase may hold literals, lists, maps and calls as well, and
commas behind the last of its items.
-/

namespace EmbeddedExpr.Grammar

open Scanner (lexeme Ends)

variable {rest : List (List Char)}

/-! ### Lexemes with blanks behind them -/

theorem ends_trailing (rest : List (List Char)) : Ends (trailing rest) := by
  refine ⟨fun c hc => ?_, Scanner.fraction_none fun hc => absurd (trailing_head '.' hc) (by decide)⟩
  rw [trailing_head c hc]
  decide

theorem isToken_of_lexeme {x : Lexeme} {text after : List Char}
    (h : lexeme text = some (x, after)) : IsToken x.text := by
  have htoken {taken more : List Char} (hne : taken ≠ [])
      (hread : Scanner.literal (taken ++ more) ≠ none ∨ Scanner.name (taken ++ more) ≠ none) :
      IsToken taken := by
    obtain ⟨c, run, rfl⟩ := List.exists_cons_of_ne_nil hne
    have hc : c ∉ [' ', '\t', '\r', '\n', '/', '-', '!', '(', '[', '\x7b'] := by
      intro hmem
      obtain ⟨hliteral, hname⟩ := no_token_of_head hmem (run ++ more)
      exact hread.elim (absurd hliteral) (absurd hname)
    refine ⟨Bool.eq_false_iff.mpr fun hblank => ?_, ?_⟩
    · exact hc (List.mem_append_left _ (Cursor.isBlank_iff.mp hblank))
    · rintro rfl
      exact absurd (by decide) hc
  have hne := text_ne_nil_of_lexeme h
  have happend := Scanner.append_of_lexeme h
  rcases Scanner.lexeme_cases h with ⟨token, taken, rfl, hliteral⟩ | ⟨token, taken, rfl, -, hname⟩ |
    ⟨m, rfl, -, -, hmark, -⟩
  · exact htoken hne (.inl (by rw [happend, hliteral]; nofun))
  · exact htoken hne (.inr (by rw [happend, hname]; nofun))
  · have hmarks : ∀ m ∈ Scanner.marks, IsToken m := by decide
    rcases (Scanner.mark_spec hmark).1 with hm | ⟨rfl, -⟩
    · exact hmarks m hm
    · decide

namespace Cursor.Next

variable {c d : Cursor} {x : Lexeme}

theorem isToken (h : c.Next x d) : IsToken x.text := isToken_of_lexeme h.lexeme_eq

/-- With a blank behind it, the lexeme is found again. -/
theorem lexeme_spaced (h : c.Next x d) (rest : List (List Char)) :
    lexeme (spaced (x.text :: rest)) = some (x, trailing rest) := by
  refine Scanner.lexeme_continued h.lexeme_eq (fun c hc => .inr (.inl ?_)) fun _ =>
    ends_trailing rest
  rw [trailing_head c hc]
  rfl

theorem isName {name : List Char} (h : c.Next (.name name) d) : IsName (String.ofList name) := by
  rcases Scanner.lexeme_cases h.lexeme_eq with ⟨_, _, heq, -⟩ | ⟨_, taken, heq, -, hname⟩ |
    ⟨_, heq, -⟩
  · cases heq
  · cases heq
    obtain ⟨-, hchars, -, ⟨c, more, rfl, hc⟩, hkeyword⟩ := Scanner.name_spec hname
    refine ⟨c, more, String.toList_ofList, hc, fun d hd => hchars d (.tail _ hd), ?_⟩
    rwa [String.toList_ofList]
  · cases heq

/-- A token begins with neither layout, a sign nor a bracket. -/
theorem bare {token : Token} (h : c.Next x d) (hx : x.token? = some token)
    (rest : List (List Char)) : Reader.Bare (spaced (x.text :: rest)) := by
  intro ch hch
  obtain ⟨more, htext⟩ := List.head?_eq_some_iff.mp hch
  have hlexeme := h.lexeme_spaced rest
  have hplain : ch ∉ [' ', '\t', '\r', '\n', '/', '-', '!', '(', '[', '\x7b'] := by
    intro hmem
    obtain ⟨hliteral, hname⟩ := no_token_of_head hmem more
    rw [htext] at hlexeme
    rcases Scanner.lexeme_cases hlexeme with ⟨_, _, rfl, hfound⟩ | ⟨_, _, rfl, -, hfound⟩ |
      ⟨_, rfl, -⟩
    · cases hliteral.symm.trans hfound
    · cases hname.symm.trans hfound
    · cases hx
  refine ⟨Bool.eq_false_iff.mpr fun hblank => ?_, fun hmem => ?_⟩
  · exact hplain (List.mem_append_left _ (Cursor.isBlank_iff.mp hblank))
  · exact hplain (List.mem_append_right [' ', '\t', '\r', '\n'] hmem)

end Cursor.Next

theorem Phrase.Spelled.exists_next {p : Phrase} {xs : List Lexeme} {c d : Cursor}
    (h : p.Spelled c xs d) : ∃ x ys e, xs = x :: ys ∧ c.Next x e := by
  induction h with
  | atom hx | group hx | call hx | sign hx => exact ⟨_, _, _, rfl, hx⟩
  | list hboxed | map hboxed =>
      cases hboxed with
      | intro hfirst => exact ⟨_, _, _, rfl, hfirst⟩
  | field _ _ _ _ ih | method _ _ _ _ _ _ ih | index _ _ _ _ _ ih | infixed _ _ _ _ _ ih
  | choice _ _ _ _ _ _ ih =>
      obtain ⟨x, ys, e, rfl, hx⟩ := ih
      exact ⟨x, _, e, rfl, hx⟩

theorem Phrase.Spelled.leads_isToken {p : Phrase} {xs : List Lexeme} {c d : Cursor}
    (h : p.Spelled c xs d) (rest : List (List Char)) :
    Leads IsToken (xs.map Lexeme.text ++ rest) := by
  obtain ⟨x, ys, e, rfl, hx⟩ := h.exists_next
  exact .cons hx.isToken _

theorem Phrase.Spelled.refuses_sign {p : Phrase} {xs : List Lexeme} {c d : Cursor}
    (h : p.Spelled c xs d) (hbase : p.IsBase) (rest : List (List Char)) :
    Reader.Refuses Reader.sign (spaced (xs.map Lexeme.text ++ rest)) := by
  refine Reader.refuses_sign ?_
  cases h with
  | sign | field | method | index | infixed | choice => exact hbase.elim
  | atom hx htoken => exact (hx.bare htoken rest).unsigned
  | call hname => exact (hname.bare rfl _).unsigned
  | group => exact ⟨by simp [spaced, Lexeme.text], by simp [spaced, Lexeme.text]⟩
  | list hboxed | map hboxed =>
      cases hboxed
      exact ⟨by simp [spaced, Lexeme.text], by simp [spaced, Lexeme.text]⟩

theorem Selection.Spelled.ne_nil {s : Selection} {xs : List Lexeme} (h : s.Spelled xs) :
    xs ≠ [] := by
  cases h <;> exact List.cons_ne_nil _ _

theorem Selection.Spelled.leads_followers {s : Selection} {xs : List Lexeme} (h : s.Spelled xs)
    (rest : List (List Char)) : Leads (· ∈ followers) (xs.map Lexeme.text ++ rest) := by
  cases h <;> exact .cons (by decide) _

theorem Link.IsSpelled.ne_nil {link : (Link × Phrase) × List Lexeme} (h : Link.IsSpelled link) :
    link.2 ≠ [] := by
  obtain ⟨xs, ys, c, d, -, hoperand, -, heq⟩ := h
  rw [heq]
  exact List.append_ne_nil_of_right_ne_nil xs hoperand.ne_nil

theorem Link.IsSpelled.leads_enders {link : (Link × Phrase) × List Lexeme}
    (h : Link.IsSpelled link) (rest : List (List Char)) :
    Leads (· ∈ enders) (link.2.map Lexeme.text ++ rest) := by
  obtain ⟨⟨link, operand⟩, zs⟩ := link
  obtain ⟨xs, ys, c, d, hlink, -, -, rfl⟩ := h
  rw [List.map_append, List.append_assoc]
  obtain ⟨op⟩ | _ := hlink
  · exact .cons (List.mem_append_left _ op.symbol_mem_linkers) _
  · exact .cons (by decide) _

/-! ### Rows -/

section Rows

variable {α : Type} {pieces : List (Piece α)} {xs : List Lexeme} {c d : Cursor}

theorem Row.texts_eq (h : Row pieces c xs d) :
    ∃ comma, (comma = [] ∨ pieces ≠ [] ∧ comma = [[',']]) ∧ xs.map Lexeme.text =
      separated (pieces.map fun piece => piece.lexemes.map Lexeme.text) ++ comma := by
  induction h with
  | nil => exact ⟨[], .inl rfl, rfl⟩
  | last piece => exact ⟨[], .inl rfl, by simp [separated]⟩
  | @cons piece pieces xs _ _ hcomma hrow ih =>
      obtain ⟨comma, hlast, htexts⟩ := ih
      cases pieces with
      | nil =>
          obtain rfl : comma = [] := hlast.resolve_right fun hsome => hsome.1 rfl
          refine ⟨[[',']], .inr ⟨List.cons_ne_nil _ _, rfl⟩, ?_⟩
          rw [List.map_append, List.map_cons, htexts]
          simp [separated, Lexeme.text]
      | cons next more =>
          refine ⟨comma, hlast.imp_right fun hsome => ⟨List.cons_ne_nil _ _, hsome.2⟩, ?_⟩
          rw [List.map_append, List.map_cons, htexts]
          simp [separated, Lexeme.text]

theorem Boxed.leads_isToken {opening closing : Char} (h : Boxed opening closing pieces c xs d)
    (rest : List (List Char)) : Leads IsToken (xs.map Lexeme.text ++ rest) := by
  cases h with
  | intro hfirst => exact .cons hfirst.isToken _

/-- A row between brackets has more lexemes than pieces, and more than each of them. -/
theorem Boxed.lengths {opening closing : Char} (h : Boxed opening closing pieces c xs d) :
    pieces.length < xs.length ∧ ∀ piece ∈ pieces, piece.lexemes.length < xs.length := by
  obtain ⟨hfirst, hrow, hlast⟩ := h
  obtain ⟨comma, -, htexts⟩ := hrow.texts_eq
  have hlength := congrArg List.length htexts
  rw [List.length_map, List.length_append] at hlength
  have hcount := count_le_length_separated
    (pieces.map fun piece => piece.lexemes.map Lexeme.text)
  rw [List.length_map] at hcount
  rw [List.length_cons, List.length_append, List.length_singleton]
  refine ⟨by omega, fun piece hpiece => ?_⟩
  have hle := length_le_length_separated
    (List.mem_map_of_mem (f := fun piece : Piece α => piece.lexemes.map Lexeme.text) hpiece)
  rw [List.length_map] at hle
  omega

end Rows

/-! ### Readers -/

/-- The fuel suffices for all spelled phrases of at most so many lexemes. -/
def RereadsUpTo (fuel : Nat) : Prop :=
  ∀ {p : Phrase} {c d : Cursor} {xs : List Lexeme}, p.Spelled c xs d → xs.length ≤ fuel →
    ∀ {rest : List (List Char)}, Leads (· ∈ closers) rest →
      Reader.Takes (Reader.phrase fuel) (spaced (xs.map Lexeme.text ++ rest)) rest
        (·.shape = p.shape)

namespace Reader

variable {α β : Type} {fuel : Nat} {xs : List Lexeme} {c d : Cursor}

theorem Takes.spanned {r : Reader α} {text : List Char} {good : α → Prop}
    (h : Takes r text rest good) : Takes (Reader.spanned r) text rest (fun found => good found.2) :=
  reads_offset.bind_takes fun _ _ => h.bind fun _ ha _ hmiddle =>
    reads_offset.bind_takes fun _ _ => takes_pure hmiddle ha

theorem map_eq_of_forall₂ {γ : Type} {view : α → γ} {view' : β → γ} {as : List α} {bs : List β}
    (h : List.Forall₂ (fun b a => view a = view' b) bs as) : as.map view = bs.map view' := by
  induction h with
  | nil => rfl
  | cons heq _ ih => rw [List.map_cons, List.map_cons, heq, ih]

theorem takes_spelledSigns {signs : List (Nat × UnaryOp)} (hcount : signs.length ≤ fuel)
    (hrest : Leads IsToken rest) (hstop : Refuses sign (spaced rest)) :
    Takes (many sign fuel)
      (spaced (signs.map (Lexeme.text ∘ fun s => .mark s.2.symbol.toList) ++ rest)) rest
      (fun read => read.map (fun s => (0, s.2)) = signs.map fun s => (0, s.2)) := by
  have hsigns : Takes (many sign fuel)
      (spaced ((signs.map Prod.snd).map (fun op => op.symbol.toList) ++ rest)) rest _ :=
    takes_signs ((List.length_map _).trans_le hcount) hrest hstop
  rw [List.map_map] at hsigns
  refine hsigns.mono fun read hread => ?_
  rw [List.forall₂_map_left_iff] at hread
  exact map_eq_of_forall₂ (hread.imp fun _ _ heq => by rw [heq])

/-- The reader takes each of the pieces and yields it, as far as the view tells. -/
def TakesPieces (item : Reader α) (view : α → β) (pieces : List (Piece α)) : Prop :=
  TakesEach item (fun piece => piece.lexemes.map Lexeme.text)
    (fun piece a => view a = view piece.value) pieces

theorem takes_boxed {item : Reader α} {view : α → β} {pieces : List (Piece α)}
    {opening closing : Char} (h : Boxed opening closing pieces c xs d)
    (heach : TakesPieces item view pieces) (hclosing : [closing] ∈ closers) (hcomma : closing ≠ ',')
    (hstop : Refuses item (closing :: trailing rest)) (hfuel : xs.length ≤ fuel + 1) :
    Takes (enclosed opening closing item fuel) (spaced (xs.map Lexeme.text ++ rest)) rest
      (fun as => as.map view = (pieces.map Piece.value).map view) := by
  have hcount := h.lengths.1
  obtain ⟨-, hrow, -⟩ := h
  obtain ⟨comma, hlast, htexts⟩ := hrow.texts_eq
  have htaken := takes_enclosed opening closing heach hlast hclosing hcomma hstop
    (by omega : pieces.length ≤ fuel + 1)
  rw [List.map_cons, List.map_append, htexts]
  simp only [List.append_assoc, List.cons_append]
  refine htaken.mono fun as has => ?_
  rw [map_eq_of_forall₂ has, List.map_map]
  rfl

end Reader

namespace RereadsUpTo

open Reader (Takes TakesPieces Refuses)

variable {fuel : Nat} {p : Phrase} {xs : List Lexeme} {c d : Cursor}

theorem pieces (h : RereadsUpTo fuel) {pieces : List (Piece Phrase)}
    (hspelled : ∀ piece ∈ pieces, Phrase.IsSpelled piece)
    (hlength : ∀ piece ∈ pieces, piece.lexemes.length ≤ fuel) :
    TakesPieces (Reader.phrase fuel) Phrase.shape pieces :=
  ⟨fun piece hpiece => (hspelled piece hpiece).leads_isToken,
    fun piece hpiece _ hrest => h (hspelled piece hpiece) (hlength piece hpiece) hrest⟩

/-- Phrases in brackets. -/
theorem boxed (h : RereadsUpTo fuel) {items : List (Piece Phrase)} {opening closing : Char}
    (hboxed : Boxed opening closing items c xs d) (hitems : ∀ item ∈ items, Phrase.IsSpelled item)
    (hclosing : closing ∈ [')', ']', '\x7d']) (hlength : xs.length ≤ fuel + 1)
    (rest : List (List Char)) :
    Takes (Reader.enclosed opening closing (Reader.phrase fuel) fuel)
      (spaced (xs.map Lexeme.text ++ rest)) rest
      (fun ps => ps.map Phrase.shape = (items.map Piece.value).map Phrase.shape) := by
  have hbrackets : ∀ closing ∈ [')', ']', '\x7d'], [closing] ∈ closers ∧ closing ≠ ',' := by decide
  obtain ⟨hcloser, hcomma⟩ := hbrackets closing hclosing
  refine Reader.takes_boxed hboxed (h.pieces hitems fun item hitem => ?_) hcloser hcomma
    (Reader.refuses_phrase_closing hclosing fuel _) hlength
  have hlt := hboxed.lengths.2 item hitem
  omega

theorem entry (h : RereadsUpTo fuel) {e : Piece Phrase × Piece Phrase}
    (hkey : Phrase.IsSpelled e.1) (hvalue : Phrase.IsSpelled e.2)
    (hlength : (Piece.entry e).lexemes.length ≤ fuel) (hrest : Leads (· ∈ closers) rest) :
    Takes (Reader.entry (Reader.phrase fuel))
      (spaced ((Piece.entry e).lexemes.map Lexeme.text ++ rest)) rest
      (fun read => read.map Phrase.shape Phrase.shape =
        (Piece.entry e).value.map Phrase.shape Phrase.shape) := by
  have hcolon : Leads (· ∈ closers) ([':'] :: (e.2.lexemes.map Lexeme.text ++ rest)) :=
    .cons (by decide) _
  simp only [Piece.entry, List.length_append, List.length_cons] at hlength
  simp only [Piece.entry, List.map_append, List.map_cons, List.append_assoc, List.cons_append]
  refine Takes.tried ((h hkey (by omega) hcolon).bind fun key hkeyShape _ hmiddle => ?_) _
  refine Reader.takes_layout hmiddle (leads_isToken_of_closers hcolon) ?_
  refine (Reader.reads_expect_token [':'] _).bind_takes fun _ _ => ?_
  refine Reader.takes_layout (.inr rfl) (hvalue.leads_isToken rest) ?_
  refine (h hvalue (by omega) hrest).bind fun value hvalueShape _ hmiddle => ?_
  refine Reader.takes_pure hmiddle ?_
  rw [Prod.map, Prod.map, hkeyShape, hvalueShape]

theorem entries (h : RereadsUpTo fuel) {entries : List (Piece Phrase × Piece Phrase)}
    (hboxed : Boxed '\x7b' '\x7d' (entries.map Piece.entry) c xs d)
    (hkeys : ∀ e ∈ entries, Phrase.IsSpelled e.1) (hvalues : ∀ e ∈ entries, Phrase.IsSpelled e.2)
    (hlength : xs.length ≤ fuel + 1) (rest : List (List Char)) :
    Takes (Reader.enclosed '\x7b' '\x7d' (Reader.entry (Reader.phrase fuel)) fuel)
      (spaced (xs.map Lexeme.text ++ rest)) rest
      (fun read => read.map (Prod.map Phrase.shape Phrase.shape) =
        (entries.map fun e => (e.1.value, e.2.value)).map
          (Prod.map Phrase.shape Phrase.shape)) := by
  have hpairs : (entries.map Piece.entry).map Piece.value =
      entries.map fun e => (e.1.value, e.2.value) := List.map_map
  have hpieces : TakesPieces (Reader.entry (Reader.phrase fuel))
      (Prod.map Phrase.shape Phrase.shape) (entries.map Piece.entry) := by
    refine ⟨List.forall_mem_map.mpr fun e he tokens => ?_,
      List.forall_mem_map.mpr fun e he _ hrest => h.entry (hkeys e he) (hvalues e he) ?_ hrest⟩
    · rw [Piece.entry, List.map_append, List.append_assoc]
      exact (hkeys e he).leads_isToken _
    · have hlt := hboxed.lengths.2 (Piece.entry e) (List.mem_map_of_mem he)
      omega
  rw [← hpairs]
  refine Reader.takes_boxed hboxed hpieces (by decide) (by decide) ?_ hlength
  exact ((Reader.refuses_phrase_closing (by decide) fuel _).bind _).tried _

/-! ### Bases -/

theorem group (h : RereadsUpTo fuel) (hp : p.Spelled c xs d) (hlength : xs.length ≤ fuel)
    (rest : List (List Char)) :
    Takes (Reader.group (Reader.phrase fuel))
      (spaced (['('] :: (xs.map Lexeme.text ++ [')'] :: rest))) rest
      (·.shape = (Phrase.group p).shape) := by
  have hcloses : Leads (· ∈ closers) ([')'] :: rest) := .cons (by decide) rest
  have hbetween := Reader.takes_between '(' ')' (hp.leads_isToken _) (by decide)
    (h hp hlength hcloses) Phrase.group
  refine (hbetween.tried .group).mono ?_
  rintro _ ⟨inner, rfl, hshape⟩
  rw [Phrase.shape, Phrase.shape, hshape]

theorem literal {token : Token} {text : List Char} (hx : c.Next (.literal token text) d)
    (rest : List (List Char)) :
    Takes (Reader.primary (Reader.phrase fuel) fuel) (spaced (text :: rest)) rest
      (fun p => ∃ span, p = .atom span token) := by
  have hlexeme := hx.lexeme_spaced rest
  rcases Scanner.lexeme_cases hlexeme with ⟨_, _, heq, hliteral⟩ | ⟨_, _, heq, -⟩ | ⟨_, heq, -⟩
  · cases heq
    obtain ⟨before, ⟨construct, scanner⟩, after, hliterals, hfound, hbefore⟩ :=
      List.findSome?_eq_some_iff.mp hliteral
    have hposition : Reader.literals[before.length]? = some (construct, scanner) := by
      simp [hliterals]
    refine (Reader.reads_primary_atom before.length hposition (hx.bare rfl rest) ?_ hfound).takes
      (.inr rfl)
    rw [hliterals, List.take_left']
    · exact hbefore
    · rfl
  · cases heq
  · cases heq

theorem arguments (h : RereadsUpTo fuel) {args : List (Piece Phrase)}
    (hboxed : Boxed '(' ')' args c xs d) (hargs : ∀ arg ∈ args, Phrase.IsSpelled arg)
    (hlength : xs.length ≤ fuel + 1) (rest : List (List Char)) :
    Takes (Reader.arguments (Reader.phrase fuel) fuel) (spaced (xs.map Lexeme.text ++ rest)) rest
      (fun ps => ps.map Phrase.shape = (args.map Piece.value).map Phrase.shape) :=
  (h.boxed hboxed hargs (by decide) hlength rest).tried .arguments

theorem call (h : RereadsUpTo fuel) {function : List Char} {args : List (Piece Phrase)} {e : Cursor}
    (hname : c.Next (.name function) d) (hboxed : Boxed '(' ')' args d.skip xs e)
    (hargs : ∀ arg ∈ args, Phrase.IsSpelled arg) (hlength : xs.length ≤ fuel + 1)
    (rest : List (List Char)) :
    Takes (Reader.primary (Reader.phrase fuel) fuel)
      (spaced (function :: (xs.map Lexeme.text ++ rest))) rest
      (fun p => ∃ span ps, p = .call span function ps ∧
        ps.map Phrase.shape = (args.map Piece.value).map Phrase.shape) := by
  have hfound := Reader.reads_name hname.isName (xs.map Lexeme.text ++ rest)
  have hliterals := hname.isName.literals_none (xs.map Lexeme.text ++ rest)
  rw [String.toList_ofList] at hfound hliterals
  have hparts : Takes (do
        let name ← Reader.name
        Reader.layout
        let args ← Reader.arguments (Reader.phrase fuel) fuel
        pure (name, args))
      (spaced (function :: (xs.map Lexeme.text ++ rest))) rest
      (fun parts => parts.1 = function ∧
        parts.2.map Phrase.shape = (args.map Piece.value).map Phrase.shape) := by
    refine hfound.bind_takes fun _ heq => Reader.takes_layout (.inr rfl)
      (hboxed.leads_isToken rest) ?_
    exact (h.arguments hboxed hargs hlength rest).bind fun _ hshapes _ hmiddle =>
      Reader.takes_pure hmiddle ⟨heq, hshapes⟩
  have hcall : Takes (Reader.call (Reader.phrase fuel) fuel)
      (spaced (function :: (xs.map Lexeme.text ++ rest))) rest
      (fun p => ∃ span ps, p = .call span function ps ∧
        ps.map Phrase.shape = (args.map Piece.value).map Phrase.shape) := by
    refine (hparts.tried .call).spanned.bind fun found hfound _ hmiddle => ?_
    exact Reader.takes_pure hmiddle ⟨found.1, found.2.2, by rw [← hfound.1], hfound.2⟩
  rw [Reader.primary]
  refine Reader.takes_oneOf (fun r hr => ?_) hcall
  rcases List.mem_append.mp hr with hr | hr
  · exact Reader.refuses_bracketed (hname.bare rfl _) r hr
  · obtain ⟨entry, hentry, rfl⟩ := List.mem_map.mp hr
    exact Reader.refuses_atom (hliterals entry hentry)

theorem list (h : RereadsUpTo fuel) {items : List (Piece Phrase)}
    (hboxed : Boxed '[' ']' items c xs d) (hitems : ∀ item ∈ items, Phrase.IsSpelled item)
    (hlength : xs.length ≤ fuel + 1) (rest : List (List Char)) :
    Takes (Reader.primary (Reader.phrase fuel) fuel) (spaced (xs.map Lexeme.text ++ rest)) rest
      (·.shape = (Phrase.list ⟨c.skip.offset, d.offset⟩ (items.map Piece.value)).shape) := by
  have htaken := ((h.boxed hboxed hitems (by decide) hlength rest).tried .list).spanned
  have hlist : Takes (Reader.list (Reader.phrase fuel) fuel)
      (spaced (xs.map Lexeme.text ++ rest)) rest
      (·.shape = (Phrase.list ⟨c.skip.offset, d.offset⟩ (items.map Piece.value)).shape) := by
    refine htaken.bind fun found hfound _ hmiddle => Reader.takes_pure hmiddle ?_
    rw [Phrase.shape, Phrase.shape, Phrase.shapeItems_eq_map, Phrase.shapeItems_eq_map, hfound]
  have hgroup : Refuses (Reader.group (Reader.phrase fuel))
      (spaced (xs.map Lexeme.text ++ rest)) := by
    cases hboxed
    exact ((Reader.refuses_expect_token (by decide) (by decide)).bind _).tried _
  exact hgroup.orElse_takes (hlist.orElse _)

theorem map (h : RereadsUpTo fuel) {entries : List (Piece Phrase × Piece Phrase)}
    (hboxed : Boxed '\x7b' '\x7d' (entries.map Piece.entry) c xs d)
    (hkeys : ∀ e ∈ entries, Phrase.IsSpelled e.1) (hvalues : ∀ e ∈ entries, Phrase.IsSpelled e.2)
    (hlength : xs.length ≤ fuel + 1) (rest : List (List Char)) :
    Takes (Reader.primary (Reader.phrase fuel) fuel) (spaced (xs.map Lexeme.text ++ rest)) rest
      (·.shape = (Phrase.map ⟨c.skip.offset, d.offset⟩
        (entries.map fun e => (e.1.value, e.2.value))).shape) := by
  have hread := ((h.entries hboxed hkeys hvalues hlength rest).tried .map).spanned
  have hmap : Takes (Reader.map (Reader.phrase fuel) fuel)
      (spaced (xs.map Lexeme.text ++ rest)) rest
      (·.shape = (Phrase.map ⟨c.skip.offset, d.offset⟩
        (entries.map fun e => (e.1.value, e.2.value))).shape) := by
    refine hread.bind fun found hfound _ hmiddle => Reader.takes_pure hmiddle ?_
    rw [Phrase.shape, Phrase.shape, Phrase.shapeEntries_eq_map, Phrase.shapeEntries_eq_map, hfound]
  -- neither a group nor a list begins with a brace
  have hgroup : Refuses (Reader.group (Reader.phrase fuel))
      (spaced (xs.map Lexeme.text ++ rest)) := by
    cases hboxed
    exact ((Reader.refuses_expect_token (by decide) (by decide)).bind _).tried _
  have hlist : Refuses (Reader.list (Reader.phrase fuel) fuel)
      (spaced (xs.map Lexeme.text ++ rest)) := by
    cases hboxed
    exact (((Reader.refuses_expect_token (by decide) (by decide)).bind _).tried _).spanned.bind _
  exact hgroup.orElse_takes (hlist.orElse_takes (hmap.orElse _))

theorem primary (h : RereadsUpTo fuel) (hp : p.Spelled c xs d) (hbase : p.IsBase)
    (hlength : xs.length ≤ fuel + 1) (hrest : Leads (· ∈ followers) rest) :
    Takes (Reader.primary (Reader.phrase fuel) fuel) (spaced (xs.map Lexeme.text ++ rest)) rest
      (·.shape = p.shape) := by
  cases hp with
  | sign | field | method | index | infixed | choice => exact hbase.elim
  | @atom x token _ _ hx htoken =>
      cases x with
      | mark => cases htoken
      | literal token text =>
          cases htoken
          refine (literal hx rest).mono ?_
          rintro _ ⟨span, rfl⟩
          rw [Phrase.shape, Phrase.shape]
      | name text =>
          cases htoken
          have htaken : Takes (Reader.primary (Reader.phrase fuel) fuel) _ _ _ :=
            Reader.takes_primary_name hx.isName hrest
          rw [String.toList_ofList] at htaken
          refine htaken.mono ?_
          rintro _ ⟨span, rfl⟩
          rw [Phrase.shape, Phrase.shape]
  | @group inner ys _ _ _ _ _ hinner _ =>
      rw [List.length_cons, List.length_append, List.length_singleton] at hlength
      rw [List.map_cons, List.map_append, List.cons_append, List.append_assoc]
      exact (h.group hinner (by omega) rest).orElse _
  | list hboxed hitems => exact h.list hboxed hitems hlength rest
  | map hboxed _ hkeys hvalues => exact h.map hboxed hkeys hvalues hlength rest
  | @call function args ys _ _ _ hname hboxed hargs =>
      rw [List.length_cons] at hlength
      refine (h.call hname hboxed hargs (by omega) rest).mono ?_
      rintro _ ⟨span, ps, rfl, hshapes⟩
      rw [Phrase.shape, Phrase.shape, Phrase.shapeItems_eq_map, Phrase.shapeItems_eq_map, hshapes]

/-! ### Selections -/

theorem field {name : List Char} (hname : c.Next (.name name) d)
    (hrest : Leads (· ∈ followers) rest) (stop : Nat) :
    Takes (Reader.member (Reader.phrase fuel) fuel) (spaced (['.'] :: name :: rest)) rest
      (·.shape = (Selection.field name stop).shape) := by
  have hnone : Takes (Reader.optional (Reader.arguments (Reader.phrase fuel) fuel)) (spaced rest)
      rest (· = none) := (Reader.refuses_arguments hrest).optional.takes (.inl rfl)
  have hmember := Reader.takes_member hname.isName (leads_isToken_of_followers hrest) hnone
  rw [String.toList_ofList] at hmember
  refine hmember.mono ?_
  rintro _ ⟨stop', ⟨-, rfl⟩ | ⟨_, hsome, -⟩⟩
  · rfl
  · cases hsome

theorem method (h : RereadsUpTo fuel) {name : List Char} {args : List (Piece Phrase)} {e : Cursor}
    (hname : c.Next (.name name) d) (hboxed : Boxed '(' ')' args d.skip xs e)
    (hargs : ∀ arg ∈ args, Phrase.IsSpelled arg) (hlength : xs.length ≤ fuel + 1)
    (rest : List (List Char)) (stop : Nat) :
    Takes (Reader.member (Reader.phrase fuel) fuel)
      (spaced (['.'] :: name :: (xs.map Lexeme.text ++ rest))) rest
      (·.shape = (Selection.method name (args.map Piece.value) stop).shape) := by
  have hmember := Reader.takes_member hname.isName (hboxed.leads_isToken rest)
    (h.arguments hboxed hargs hlength rest).optional
  rw [String.toList_ofList] at hmember
  refine hmember.mono ?_
  rintro _ ⟨stop', ⟨⟨_, hnone, -⟩, -⟩ | ⟨_, ⟨ps, hps, hshapes⟩, rfl⟩⟩
  · cases hnone
  · cases hps
    rw [Selection.shape, Selection.shape, hshapes]

theorem index (h : RereadsUpTo fuel) (hp : p.Spelled c xs d) (hlength : xs.length ≤ fuel)
    (rest : List (List Char)) (stop : Nat) :
    Takes (Reader.index (Reader.phrase fuel))
      (spaced (['['] :: (xs.map Lexeme.text ++ [']'] :: rest))) rest
      (·.shape = (Selection.index p stop).shape) := by
  have hcloses : Leads (· ∈ closers) ([']'] :: rest) := .cons (by decide) rest
  have hbetween := Reader.takes_between '[' ']' (hp.leads_isToken _) (by decide)
    (h hp hlength hcloses) id
  refine (hbetween.tried .index).bind fun position hposition _ hmiddle => ?_
  obtain ⟨_, rfl, hshape⟩ := hposition
  refine Reader.reads_offset.bind_takes fun stop' _ => Reader.takes_pure hmiddle ?_
  rw [Selection.shape, Selection.shape]
  exact congrArg (Selection.index · 0) hshape

theorem selection (h : RereadsUpTo fuel) {s : Selection} (hs : s.Spelled xs)
    (hlength : xs.length ≤ fuel + 1) (hrest : Leads (· ∈ followers) rest) :
    Takes (Reader.orElse (Reader.member (Reader.phrase fuel) fuel)
        (Reader.index (Reader.phrase fuel)))
      (spaced (xs.map Lexeme.text ++ rest)) rest (·.shape = s.shape) := by
  cases hs with
  | field hname => exact (field hname hrest _).orElse _
  | method hname hboxed hargs =>
      simp only [List.length_cons] at hlength
      exact (h.method hname hboxed hargs (by omega) rest _).orElse _
  | @index position stop ys _ _ hposition =>
      simp only [List.length_cons, List.length_append, List.length_nil] at hlength
      have hdot : Refuses (Reader.expect ['.'])
          (spaced ((.mark ['['] :: (ys ++ [.mark [']']])).map Lexeme.text ++ rest)) :=
        Reader.refuses_expect_token (by decide) (by decide)
      refine (((hdot.bind _).tried _).bind _).orElse_takes ?_
      rw [List.map_cons, List.map_append, List.cons_append, List.append_assoc]
      exact h.index hposition (by omega) rest stop

theorem selections (h : RereadsUpTo fuel) {selections : List (Selection × List Lexeme)}
    (hspelled : ∀ s ∈ selections, s.1.Spelled s.2)
    (hlength : (selections.flatMap Prod.snd).length ≤ fuel) (hrest : Leads (· ∈ enders) rest) :
    Takes (Reader.many (Reader.orElse (Reader.member (Reader.phrase fuel) fuel)
        (Reader.index (Reader.phrase fuel))) fuel)
      (spaced ((selections.flatMap Prod.snd).map Lexeme.text ++ rest)) rest
      (fun read => read.map Selection.shape = (selections.map Prod.fst).map Selection.shape) := by
  have hcount : selections.length ≤ fuel := Nat.le_trans (count_le_length_flatMap fun s hs =>
    List.length_pos_iff.mpr (hspelled s hs).ne_nil) hlength
  have hstop : Refuses (Reader.orElse (Reader.member (Reader.phrase fuel) fuel)
      (Reader.index (Reader.phrase fuel))) (spaced rest) :=
    Reader.refuses_selection (not_mem_head?_spaced hrest (by decide))
      (not_mem_head?_spaced hrest (by decide))
  have hone : ∀ s ∈ selections, ∀ tokens, Leads (· ∈ followers) tokens →
      Takes (Reader.orElse (Reader.member (Reader.phrase fuel) fuel)
        (Reader.index (Reader.phrase fuel))) (spaced (s.2.map Lexeme.text ++ tokens)) tokens
        (·.shape = s.1.shape) := fun s hs _ htokens =>
    h.selection (hspelled s hs) (Nat.le_succ_of_le
      (Nat.le_trans (length_le_length_flatMap (f := Prod.snd) hs) hlength)) htokens
  rw [List.map_flatMap, List.map_map]
  refine (Reader.takes_many (fun _ => leads_isToken_of_followers)
    (fun s hs => (hspelled s hs).leads_followers) hone hrest.followers hstop hcount).mono ?_
  exact fun _ => Reader.map_eq_of_forall₂

/-! ### Operands -/

theorem operand (h : RereadsUpTo fuel) (hp : p.Spelled c xs d) (hlevel : p.level = 6)
    (hlength : xs.length ≤ fuel + 1) (hrest : Leads (· ∈ enders) rest) :
    Takes (Reader.operand (Reader.phrase fuel) fuel) (spaced (xs.map Lexeme.text ++ rest)) rest
      (·.shape = p.shape) := by
  obtain ⟨signs, target, _, _, htarget, hisTarget, rfl, rfl⟩ := hp.exists_signed hlevel
  obtain ⟨base, ys, _, selections, hbase, ⟨hisBase, rfl, hspelled⟩, rfl⟩ :=
    htarget.exists_selected hisTarget
  have hselections : Leads (· ∈ followers)
      ((selections.flatMap Prod.snd).map Lexeme.text ++ rest) := by
    rw [List.map_flatMap]
    exact Reader.follows_flatMap (fun s hs => (hspelled s hs).leads_followers) hrest.followers
  have hbasePos := List.length_pos_iff.mpr hbase.ne_nil
  rw [List.length_append, List.length_append, List.length_map] at hlength
  rw [List.map_append, List.map_append, List.append_assoc, List.append_assoc]
  rw [List.map_map]
  have hsigns : signs.length ≤ fuel := by omega
  refine (Reader.takes_spelledSigns hsigns (hbase.leads_isToken _)
    (hbase.refuses_sign hisBase _)).bind fun read hread middle hmiddle => ?_
  refine Reader.takes_layout hmiddle (hbase.leads_isToken _) ?_
  refine (h.primary hbase hisBase (by omega) hselections).bind
    fun operand hoperand middle hmiddle => ?_
  refine Reader.takes_layout hmiddle (leads_isToken_of_followers hselections) ?_
  refine (h.selections hspelled (by omega) hrest).bind
    fun selections' hselections' middle hmiddle => Reader.takes_pure hmiddle ?_
  rw [Phrase.shape_signed, Phrase.shape_foldl_select, hread, hoperand, hselections',
    Phrase.shape_signed, Phrase.shape_foldl_select]

/-! ### Links -/

theorem link (h : RereadsUpTo fuel) {link : Link} (hlink : link.Spelled xs)
    (hlength : xs.length ≤ fuel + 1) (rest : List (List Char)) :
    Takes (Reader.link (Reader.phrase fuel)) (spaced (xs.map Lexeme.text ++ rest)) rest
      (·.shape = link.shape) := by
  cases hlink with
  | op op =>
      refine ((Reader.reads_link_op op rest).takes (.inr rfl)).mono ?_
      rintro _ rfl
      rfl
  | @choice t ys _ _ ht =>
      simp only [List.length_cons, List.length_append, List.length_nil] at hlength
      have hcloses : Leads (· ∈ closers) ([':'] :: rest) := .cons (by decide) rest
      have hbetween := Reader.takes_between '?' ':' (ht.leads_isToken _) (by decide)
        (h ht (by omega) hcloses) Link.choice
      rw [List.map_cons, List.map_append, List.cons_append, List.append_assoc]
      refine Takes.orElse ((hbetween.tried .ternary).mono ?_) _
      rintro _ ⟨_, rfl, hshape⟩
      rw [Link.shape, Link.shape, hshape]

theorem linkOperand (h : RereadsUpTo fuel) {link : (Link × Phrase) × List Lexeme}
    (hlink : Link.IsSpelled link) (hlength : link.2.length ≤ fuel)
    (hrest : Leads (· ∈ enders) rest) :
    Takes (do
        let link ← Reader.link (Reader.phrase fuel)
        Reader.layout
        let right ← Reader.operand (Reader.phrase fuel) fuel
        pure (link, right))
      (spaced (link.2.map Lexeme.text ++ rest)) rest
      (fun read => read.map Link.shape Phrase.shape = link.1.map Link.shape Phrase.shape) := by
  obtain ⟨xs, ys, c, d, hlink, hoperand, hlevel, heq⟩ := hlink
  rw [heq, List.length_append] at hlength
  rw [heq, List.map_append, List.append_assoc]
  refine (h.link hlink (by omega) _).bind fun joint hjoint middle hmiddle => ?_
  refine Reader.takes_layout hmiddle (hoperand.leads_isToken rest) ?_
  refine (h.operand hoperand hlevel (by omega) hrest).bind fun right hright middle hmiddle => ?_
  refine Reader.takes_pure hmiddle ?_
  rw [Prod.map, Prod.map, hjoint, hright]

theorem links (h : RereadsUpTo fuel) {links : List ((Link × Phrase) × List Lexeme)}
    (hspelled : ∀ link ∈ links, Link.IsSpelled link)
    (hlength : (links.flatMap Prod.snd).length ≤ fuel) (hrest : Leads (· ∈ closers) rest) :
    Takes (Reader.many (do
        let link ← Reader.link (Reader.phrase fuel)
        Reader.layout
        let right ← Reader.operand (Reader.phrase fuel) fuel
        pure (link, right)) fuel)
      (spaced ((links.flatMap Prod.snd).map Lexeme.text ++ rest)) rest
      (fun read => read.map (Prod.map Link.shape Phrase.shape) =
        (links.map Prod.fst).map (Prod.map Link.shape Phrase.shape)) := by
  have hcount : links.length ≤ fuel := Nat.le_trans (count_le_length_flatMap fun link hlink =>
    List.length_pos_iff.mpr (hspelled link hlink).ne_nil) hlength
  have hone : ∀ link ∈ links, ∀ tokens, Leads (· ∈ enders) tokens →
      Takes (do
        let link ← Reader.link (Reader.phrase fuel)
        Reader.layout
        let right ← Reader.operand (Reader.phrase fuel) fuel
        pure (link, right)) (spaced (link.2.map Lexeme.text ++ tokens)) tokens
        (fun read => read.map Link.shape Phrase.shape = link.1.map Link.shape Phrase.shape) :=
    fun link hlink _ htokens => h.linkOperand (hspelled link hlink)
      (Nat.le_trans (length_le_length_flatMap (f := Prod.snd) hlink) hlength) htokens
  have hstop : Refuses (Reader.link (Reader.phrase fuel)) (spaced rest) :=
    Reader.closes_refuses_link (closes_spaced hrest)
  rw [List.map_flatMap, List.map_map]
  refine (Reader.takes_many (fun _ htokens => leads_isToken_of_followers htokens.followers)
    (fun link hlink => (hspelled link hlink).leads_enders) hone hrest.enders (hstop.bind _)
    hcount).mono ?_
  exact fun _ => Reader.map_eq_of_forall₂

/-! ### Phrases -/

theorem next (h : RereadsUpTo fuel) : RereadsUpTo (fuel + 1) := by
  intro p c d xs hp hlength rest hrest
  obtain ⟨first, ys, e, links, hfirst, ⟨hlevel, rfl, hspelled, -⟩, rfl⟩ := hp.exists_strung
  have hlinks : Leads (· ∈ enders) ((links.flatMap Prod.snd).map Lexeme.text ++ rest) := by
    rw [List.map_flatMap]
    exact Reader.follows_flatMap (fun link hlink => (hspelled link hlink).leads_enders)
      hrest.enders
  have hpos := List.length_pos_iff.mpr hfirst.ne_nil
  rw [List.length_append] at hlength
  rw [List.map_append, List.append_assoc]
  refine Takes.tried ?_ _
  refine (h.operand hfirst hlevel (by omega) hlinks).bind fun operand hoperand middle hmiddle => ?_
  refine Reader.takes_layout hmiddle (leads_isToken_of_followers hlinks.followers) ?_
  refine (h.links hspelled (by omega) hrest).bind fun read hread middle hmiddle => ?_
  refine Reader.takes_pure hmiddle ?_
  rw [Phrase.shape_chain, hoperand, hread, Phrase.shape_chain]

end RereadsUpTo

/-- The fuel for a phrase suffices if it counts the lexemes. -/
theorem rereadsUpTo (fuel : Nat) : RereadsUpTo fuel := by
  induction fuel with
  | zero =>
      intro p c d xs hp hlength
      exact absurd (List.length_eq_zero_iff.mp (Nat.le_zero.mp hlength)) hp.ne_nil
  | succ fuel ih => exact ih.next

/-- The lexemes of a spelled phrase, with blanks between them, are read as the phrase, but for its
offsets. -/
theorem read?_spelled {p : Phrase} {xs : List Lexeme} {c d : Cursor} (h : p.Spelled c xs d) :
    ∃ q, Phrase.read? (spaced (xs.map Lexeme.text)) = some q ∧ q.shape = p.shape := by
  have hleads := h.leads_isToken []
  have hlength : xs.length ≤ (spaced (xs.map Lexeme.text)).length + 1 := by
    simpa using length_le_length_spaced (xs.map Lexeme.text)
  have hphrase := rereadsUpTo _ h hlength (nofun : Leads (· ∈ closers) [])
  rw [List.append_nil] at hleads hphrase
  exact read?_of_takes hleads hphrase

end EmbeddedExpr.Grammar
