import EmbeddedExpr.Program.Basic
import EmbeddedExpr.Proofs.Grammar.Operand
import EmbeddedExpr.Proofs.Value.Spelling

/-!
# Values are read back from their texts

The text of a value is a program, and evaluating this program without bindings gives the value
back (`Program.execute_display`).  The kinds of which this is not claimed (`HasExactText`) are
doubles and timestamps, whose texts are decimals or calls, and functions, whose text is a name.

A value is read (`IsRead`) if its text, whatever closes it, is read as a phrase that denotes the
value.  The literals are read by their scanners, and lists and maps if their members are.  The
fuel of the readers bounds the depth of the phrases as well as the number of items; the length of
the text exceeds both.
-/

namespace EmbeddedExpr

open Grammar (Phrase Closes Solid Construct Token Scanner joined)
open Grammar.Reader
open Number (AllDigits)
open Text (escapeBody escapeBytes)

namespace Value

/-- Where something closes it, the text of the value is read as a phrase that denotes the
value. -/
def IsRead (fuel : Nat) (v : Value) : Prop :=
  ∀ rest, Closes rest → Solid (v.spelling ++ rest) ∧
    Reads (phrase fuel) (v.spelling ++ rest) rest (·.Denotes v)

variable {v : Value} {fuel : Nat}

/-! ### Literals -/

/-- A literal is read by the first scanner that accepts it. -/
theorem reads_literal (position : Nat) {source rest : List Char} {construct : Construct}
    {scanner : Scanner Token} {token : Token} {taken : List Char} {good : Phrase → Prop}
    (hposition : literals[position]? = some (construct, scanner)) (hbare : Bare source)
    (hbefore : ∀ entry ∈ literals.take position, entry.2 source = none)
    (h : scanner source = some (token, taken, rest)) (hrest : Closes rest)
    (hgood : ∀ span, good (.atom span token)) :
    Solid source ∧ Reads (phrase (fuel + 1)) source rest good := by
  refine ⟨hbare.solid, ?_⟩
  refine (reads_linked hbare.solid hbare.unsigned hrest
    (reads_primary_atom position hposition hbare hbefore h)).mono ?_
  rintro p ⟨span, rfl⟩
  exact hgood span

theorem isRead_null : IsRead (fuel + 1) null := by
  intro rest hrest
  have hnumber := Scanner.number_none (c := 'n') (by decide) (by decide) ('u' :: 'l' :: 'l' :: rest)
  rw [spelling_null]
  refine reads_literal 3 rfl (.cons (by decide) (by decide) _) ?_ (Scanner.null_append hrest)
    hrest fun span => Grammar.denotes_atom (l := .null) rfl
  simp [literals, hnumber]

theorem isRead_bool (b : Bool) : IsRead (fuel + 1) (bool b) := by
  intro rest hrest
  have hgood (span : Span) : (Phrase.atom span (.bool b)).Denotes (bool b) :=
    Grammar.denotes_atom (l := .bool b) rfl
  rw [spelling_bool]
  refine reads_literal 4 rfl ?_ ?_ (Scanner.bool_append b hrest) hrest hgood
  · cases b <;> exact .cons (by decide) (by decide) _
  · cases b with
    | false =>
        have hnumber := Scanner.number_none (c := 'f') (by decide) (by decide)
          ('a' :: 'l' :: 's' :: 'e' :: rest)
        simp [literals, hnumber, Scanner.null_none]
    | true =>
        have hnumber := Scanner.number_none (c := 't') (by decide) (by decide)
          ('r' :: 'u' :: 'e' :: rest)
        simp [literals, hnumber, Scanner.null_none]

theorem isRead_bytes (bs : List UInt8) : IsRead (fuel + 1) (bytes bs) := by
  intro rest hrest
  have hbody := Text.quotable_escapeBytes bs
  have hnumber := Scanner.number_none (c := 'b') (by decide) (by decide)
    ('"' :: (escapeBytes bs ++ '"' :: rest))
  rw [spelling_bytes]
  refine reads_literal 5 rfl (.cons (by decide) (by decide) _) ?_
    (Scanner.bytes_quoted hbody (hrest.not_mem_head (by decide))) hrest fun span =>
      Grammar.denotes_bytes (Text.unescapeBytes_escapeBytes bs)
  simp [literals, hnumber, Scanner.null_none, Scanner.bool_none]

theorem reads_text (s : String) {rest : List Char} (hrest : Closes rest) {good : Phrase → Prop}
    (hgood : ∀ span, good (.atom span (.text false (escapeBody s.toList)))) :
    Solid ((text s).spelling ++ rest) ∧
      Reads (phrase (fuel + 1)) ((text s).spelling ++ rest) rest good := by
  have hbody := Text.quotable_escapeBody s.toList
  have hnumber := Scanner.number_none (c := '"') (by decide) (by decide)
    (escapeBody s.toList ++ '"' :: rest)
  rw [spelling_text]
  refine reads_literal 6 rfl (.cons (by decide) (by decide) _) ?_
    (Scanner.text_quoted hbody (hrest.not_mem_head (by decide))) hrest hgood
  simp [literals, hnumber, Scanner.null_none, Scanner.bool_none, Scanner.bytes_none,
    Scanner.isBytesMark, Scanner.isRawMark]

theorem isRead_text (s : String) : IsRead (fuel + 1) (text s) :=
  fun _ hrest => reads_text s hrest fun _ =>
    Grammar.denotes_text (Text.unescapeText_escapeBody s.toList)

/-! ### Integers -/

theorem bare_toDigits (n : Nat) (rest : List Char) : Bare (Nat.toDigits 10 n ++ rest) := by
  obtain ⟨c, tail, htoDigits⟩ : ∃ c tail, Nat.toDigits 10 n = c :: tail :=
    List.exists_cons_of_ne_nil Nat.toDigits_ne_nil
  have hc : Number.isDigit c = true :=
    Number.allDigits_toDigits n c (htoDigits ▸ List.mem_cons_self)
  have hmarks : ∀ d ∈ ['/', '-', '!', '(', '[', '\x7b'], Number.isDigit d = false := by
    simp [Number.isDigit_eq]
  have hblank : Grammar.Cursor.isBlank c = false := by
    rw [Bool.eq_false_iff]
    intro hblank
    simp only [Grammar.Cursor.isBlank, Bool.or_eq_true, beq_iff_eq] at hblank
    rcases hblank with ((h | h) | h) | h <;> exact Number.ne_of_isDigit hc (by decide) h
  rw [htoDigits]
  exact .cons hblank (fun hmem => Number.ne_of_isDigit hc (hmarks c hmem) rfl) _

theorem isRead_uint (u : UInt64) : IsRead (fuel + 1) (uint u) := by
  intro rest hrest
  have hdigits := Number.allDigits_toDigits u.toNat
  have hends : Scanner.EndsDigits ('u' :: rest) := by
    rintro _ ⟨⟩
    decide
  rw [spelling_uint]
  refine reads_literal 1 rfl (bare_toDigits _ _) ?_
    (Scanner.uint_digits_mark hdigits Nat.toDigits_ne_nil) hrest fun span =>
      Grammar.denotes_uint u _
  simp [literals, Scanner.double_digits hdigits Nat.toDigits_ne_nil hends]

/-- The digits of an integer without its sign. -/
theorem reads_magnitude (fuel n : Nat) {rest : List Char} (hrest : Closes rest) :
    Reads (primary (phrase fuel) fuel) (Nat.toDigits 10 n ++ rest) rest
      (fun p => ∃ span, p = .atom span (.int false (Nat.toDigits 10 n) (Nat.toDigits 10 n))) := by
  have hdigits := Number.allDigits_toDigits n
  have hends := Scanner.endsDigits_of_closes hrest
  refine reads_primary_atom 2 rfl (bare_toDigits n rest) ?_
    (Scanner.int_digits hdigits Nat.toDigits_ne_nil hends)
  simp [literals, Scanner.double_digits hdigits Nat.toDigits_ne_nil hends,
    Scanner.uint_digits hdigits Nat.toDigits_ne_nil hrest]

theorem isRead_int (i : Int64) : IsRead (fuel + 1) (int i) := by
  intro rest hrest
  have hbare := bare_toDigits i.toInt.natAbs rest
  have hmagnitude := reads_magnitude fuel i.toInt.natAbs hrest
  by_cases h : i.toInt < 0
  · rw [spelling_int_of_neg h]
    refine ⟨.cons (by decide) (by decide), ?_⟩
    refine (reads_linked_minus hbare.solid hbare.unsigned hrest hmagnitude).mono ?_
    rintro p ⟨start, q, rfl, span, rfl⟩
    exact Grammar.denotes_negative h start _
  · rw [spelling_int_of_nonneg (Int.not_lt.mp h)]
    refine ⟨hbare.solid, ?_⟩
    refine (reads_linked hbare.solid hbare.unsigned hrest hmagnitude).mono ?_
    rintro p ⟨span, rfl⟩
    exact Grammar.denotes_int (Int.not_lt.mp h) _

theorem isRead_key (fuel : Nat) (k : MapKey) : IsRead (fuel + 1) k.toValue := by
  cases k with
  | bool b => exact isRead_bool b
  | int i => exact isRead_int i
  | uint u => exact isRead_uint u
  | text s => exact isRead_text s

/-! ### Calls -/

/-- A name that is no literal is read as the function of the call of it on a text. -/
theorem reads_call (fuel : Nat) (name : List Char) (s : String) {rest : List Char}
    (hbare : ∀ after, Bare (name ++ '(' :: after))
    (hliterals : ∀ after, ∀ entry ∈ literals, entry.2 (name ++ '(' :: after) = none)
    (hname : ∀ after, Grammar.Scanner.name (name ++ '(' :: after) =
      some (.name name, name, '(' :: after)) (hrest : Closes rest) :
    Solid (name ++ '(' :: (joined [(text s).spelling] ++ ')' :: rest)) ∧
      Reads (phrase (fuel + 2)) (name ++ '(' :: (joined [(text s).spelling] ++ ')' :: rest)) rest
        (fun p => ∃ span inner, p =
          .call span name [.atom inner (.text false (escapeBody s.toList))]) := by
  have hargument : ReadsEach (phrase (fuel + 1)) spelling
      (fun _ p => ∃ span, p = .atom span (.text false (escapeBody s.toList))) [text s] := by
    intro v hv rest hrest
    rw [List.mem_singleton.mp hv]
    exact reads_text s hrest fun span => ⟨span, rfl⟩
  have harguments := reads_enclosed '(' ')' (by decide)
    (refuses_phrase_closing (by decide) _ rest) hargument (Nat.le_add_left 1 fuel)
  refine ⟨(hbare _).solid, ?_⟩
  refine (reads_linked (hbare _).solid (hbare _).unsigned hrest (reads_primary_call (hbare _)
    (hliterals _) (hname _) (.cons (by decide) (by decide)) (harguments.tried .arguments))).mono ?_
  rintro p ⟨span, args, rfl, hargs⟩
  cases hargs with
  | cons harg hnil =>
      obtain ⟨inner, rfl⟩ := harg
      cases hnil
      exact ⟨span, inner, rfl⟩

/-- A duration is read as the call that makes it of its text. -/
theorem isRead_duration (d : Time.Duration) : IsRead (fuel + 2) (duration d) := by
  intro rest hrest
  rw [spelling_duration]
  have hcall := reads_call fuel ['d', 'u', 'r', 'a', 't', 'i', 'o', 'n'] d.text
    (fun after => .cons (by decide) (by decide) _)
    (fun after => Scanner.literals_none (by decide) (by decide) _) (fun after => rfl) hrest
  refine ⟨hcall.1, hcall.2.mono ?_⟩
  rintro p ⟨span, inner, rfl⟩
  exact Grammar.denotes_duration (Text.unescapeText_escapeBody d.text.toList)

/-! ### Lists and maps -/

theorem isRead_list {items : List Value} (h : ∀ item ∈ items, IsRead fuel item)
    (hfuel : items.length ≤ fuel) : IsRead (fuel + 1) (list items) := by
  intro rest hrest
  have hitems := reads_enclosed '[' ']' (by decide)
    (refuses_phrase_closing (by decide) fuel rest) h hfuel
  have hsolid : Solid ('[' :: (joined (items.map spelling) ++ ']' :: rest)) :=
    .cons (by decide) (by decide)
  rw [spelling_list]
  refine ⟨hsolid, ?_⟩
  refine (reads_linked hsolid ⟨by simp, by simp⟩ hrest (reads_primary_list hitems rfl)).mono ?_
  rintro p ⟨span, ps, rfl, hgood⟩
  exact Grammar.denotes_list hgood

theorem reads_entry {e : MapKey × Value} (h : IsRead (fuel + 1) e.2) {rest : List Char}
    (hrest : Closes rest) :
    Solid (entrySpelling e ++ rest) ∧ Reads (entry (phrase (fuel + 1))) (entrySpelling e ++ rest)
      rest (fun p => p.1.Denotes e.1.toValue ∧ p.2.Denotes e.2) := by
  have hcolon : Closes (':' :: ' ' :: e.2.spelling ++ rest) := .cons (by decide)
  obtain ⟨hsolid, hkey⟩ := isRead_key fuel e.1 _ hcolon
  obtain ⟨hvaluesolid, hvalue⟩ := h rest hrest
  rw [entrySpelling, List.append_assoc]
  refine ⟨hsolid, Reads.tried (hkey.bind fun key hkeygood => ?_) _⟩
  refine (reads_layout hcolon.solid).bind fun _ _ => ?_
  refine (reads_expect [':'] _).bind fun _ _ => ?_
  refine (reads_layout_space hvaluesolid).bind fun _ _ => ?_
  exact hvalue.bind fun value hvaluegood => reads_pure ⟨hkeygood, hvaluegood⟩

theorem isRead_map {entries : List (MapKey × Value)} (hsorted : Entries.Ascending entries)
    (h : ∀ e ∈ entries, IsRead fuel e.2) (hfuel : entries.length ≤ fuel) :
    IsRead (fuel + 1) (map entries) := by
  intro rest hrest
  have heach : ReadsEach (entry (phrase fuel)) entrySpelling
      (fun e p => p.1.Denotes e.1.toValue ∧ p.2.Denotes e.2) entries := by
    intro e he rest hrest
    -- what counts the entries is enough to read a key
    have hpos : 0 < fuel := Nat.lt_of_lt_of_le (List.length_pos_of_mem he) hfuel
    obtain ⟨fuel, rfl⟩ := Nat.exists_eq_succ_of_ne_zero hpos.ne'
    exact reads_entry (h e he) hrest
  have hentries := reads_enclosed '\x7b' '\x7d' (by decide)
    (((refuses_phrase_closing (by decide) fuel rest).bind _).tried _) heach hfuel
  have hsolid : Solid ('\x7b' :: (joined (entries.map entrySpelling) ++ '\x7d' :: rest)) :=
    .cons (by decide) (by decide)
  rw [spelling_map]
  refine ⟨hsolid, ?_⟩
  refine (reads_linked hsolid ⟨by simp, by simp⟩ hrest (reads_primary_map hentries rfl)).mono ?_
  rintro p ⟨span, ps, rfl, hgood⟩
  exact Grammar.denotes_map hsorted hgood

/-! ### All values -/

/-- The length of the text of a list is enough to count the items, and to read each of them. -/
theorem lengths_of_list {items : List Value} (h : (list items).spelling.length < fuel + 1) :
    items.length ≤ fuel ∧ ∀ item ∈ items, item.spelling.length < fuel := by
  have hlength : (list items).spelling.length = (joined (items.map spelling)).length + 2 := by
    simpa using congrArg List.length (spelling_list items [])
  have hcount := Grammar.length_le_length_joined_succ (items.map spelling)
  rw [List.length_map] at hcount
  refine ⟨by omega, fun item hitem => ?_⟩
  have hitem' := Grammar.length_le_length_joined (List.mem_map_of_mem (f := spelling) hitem)
  omega

theorem lengths_of_map {entries : List (MapKey × Value)}
    (h : (map entries).spelling.length < fuel + 1) :
    entries.length ≤ fuel ∧ ∀ e ∈ entries, e.2.spelling.length < fuel := by
  have hlength : (map entries).spelling.length =
      (joined (entries.map entrySpelling)).length + 2 := by
    simpa using congrArg List.length (spelling_map entries [])
  have hcount := Grammar.length_le_length_joined_succ (entries.map entrySpelling)
  rw [List.length_map] at hcount
  refine ⟨by omega, fun e he => ?_⟩
  have hentry := Grammar.length_le_length_joined (List.mem_map_of_mem (f := entrySpelling) he)
  have hvalue : e.2.spelling.length ≤ (entrySpelling e).length := by
    simp only [entrySpelling, List.length_append, List.length_cons]
    omega
  omega

theorem one_lt_length_duration (d : Time.Duration) : 1 < (duration d).spelling.length := by
  have hlength := congrArg List.length (spelling_duration [] d)
  simp only [List.append_nil, List.length_append, List.length_cons] at hlength
  omega

/-- The text of a value is read back as the value, if the fuel exceeds its length. -/
theorem isRead_of_length (hkinds : v.Throughout HasExactText) (hsorted : v.WellFormed)
    (hfuel : v.spelling.length < fuel) : IsRead fuel v := by
  -- one level takes one from the fuel and two brackets from the text
  induction v using Value.induct generalizing fuel with
  | step v ih =>
      have hhere := hkinds.here
      obtain ⟨fuel, rfl⟩ := Nat.exists_eq_add_one_of_ne_zero (Nat.ne_zero_of_lt hfuel)
      cases v with
      | null => exact isRead_null
      | bool b => exact isRead_bool b
      | int i => exact isRead_int i
      | uint u => exact isRead_uint u
      | double => exact hhere.elim
      | text s => exact isRead_text s
      | bytes bs => exact isRead_bytes bs
      | list items =>
          obtain ⟨hcount, hlengths⟩ := lengths_of_list hfuel
          refine isRead_list (fun item hitem => ?_) hcount
          exact ih item hitem (hkinds.member hitem) (hsorted.member hitem) (hlengths item hitem)
      | map entries =>
          obtain ⟨hcount, hlengths⟩ := lengths_of_map hfuel
          refine isRead_map hsorted.here (fun e he => ?_) hcount
          have hmember : e.2 ∈ (map entries).members := List.mem_map_of_mem he
          exact ih e.2 hmember (hkinds.member hmember) (hsorted.member hmember) (hlengths e he)
      | timestamp => exact hhere.elim
      | duration d =>
          have hlength := one_lt_length_duration d
          obtain ⟨fuel, rfl⟩ := Nat.exists_eq_add_one_of_ne_zero (n := fuel) (by omega)
          exact isRead_duration d
      | function => exact hhere.elim

end Value

/-! ### Programs -/

namespace Grammar

theorem reads_endOfInput : Reads endOfInput [] [] (fun _ => True) :=
  Reads.tried (fun offset => ⟨(), offset, rfl, trivial⟩) _

/-- What is read as a phrase to its end is a source. -/
theorem read?_of_reads {text : List Char} {good : Phrase → Prop} (hsolid : Solid text)
    (h : Reads (phrase (text.length + 1)) text [] good) :
    ∃ p, Phrase.read? text = some p ∧ good p := by
  have hsource : Reads (source (text.length + 1)) text [] good := by
    refine Reads.tried ((reads_layout hsolid).bind fun _ _ => h.bind fun p hp => ?_) _
    refine (reads_layout Closes.nil.solid).bind fun _ _ => ?_
    exact reads_endOfInput.bind fun _ _ => reads_pure hp
  obtain ⟨p, stop, hread, hp⟩ := hsource 0
  exact ⟨p, by rw [Phrase.read?, readSource, hread, Option.map_some], hp⟩

/-- The whole text of a value is a phrase that denotes the value. -/
theorem read?_spelling {v : Value} (hkinds : v.Throughout Value.HasExactText)
    (hsorted : v.WellFormed) : ∃ p, Phrase.read? v.spelling = some p ∧ p.Denotes v := by
  obtain ⟨hsolid, hphrase⟩ :=
    Value.isRead_of_length hkinds hsorted (Nat.lt_succ_self _) [] .nil
  rw [List.append_nil] at hsolid hphrase
  exact read?_of_reads hsolid hphrase

/-- A source is parsed to the tree that its phrase is built into. -/
theorem parse_of_build {bound : Nat} {text : List Char} {p : Phrase} {b : Built}
    (hcheck : Nesting.check bound text = .ok ()) (hread : Phrase.read? text = some p)
    (hbuild : p.build bound = .ok b) (hsettle : b.settle = .ok b) :
    parse bound text = .ok b.expr := by
  rw [parse, bind_of_ok hcheck]
  simp only [hread]
  rw [bind_of_ok hbuild, bind_of_ok hsettle]

/-- A source that is a phrase for a value is parsed to a tree for it. -/
theorem parse_of_denotes {bound : Nat} {text : List Char} {p : Phrase} {v : Value}
    (hcheck : Nesting.check bound text = .ok ()) (hread : Phrase.read? text = some p)
    (hp : p.Denotes v) (hbound : v.nesting < bound) :
    ∃ e, parse bound text = .ok e ∧ e.EvaluatesTo (v.nesting + 2) v := by
  obtain ⟨b, hbuild, hfor⟩ := hp bound hbound
  exact ⟨b.expr, parse_of_build hcheck hread hbuild hfor.settle, hfor.evaluates⟩

end Grammar

namespace Program

theorem compile_of_parse {bound : Nat} {source : String} {e : Expr}
    (h : Grammar.parse bound source.toList = .ok e) : compile bound source = .ok ⟨source, e⟩ := by
  rw [compile, parse, h]
  rfl

/-- The text of a value is a program under every bound above its nesting, and the program
evaluates to the value wherever there is room for the tree. -/
theorem execute_display {v : Value} (hkinds : v.Throughout Value.HasExactText)
    (hsorted : v.WellFormed) {bound : Nat} (hbound : v.nesting < bound) :
    ∃ p, compile bound v.display = .ok p ∧
      ∀ limits : Eval.Limits, v.nesting + 2 ≤ limits.maxDepth →
        p.execute .empty limits = .ok v := by
  have hcheck : Grammar.Nesting.check bound v.spelling = .ok () := by
    apply Grammar.Nesting.check_of_skips
    have hskips : Grammar.Nesting.Skips bound [] (v.spelling ++ []) [] :=
      Value.skips_spelling hkinds (by simpa using hbound) .nil
    rwa [List.append_nil] at hskips
  obtain ⟨p, hread, hp⟩ := Grammar.read?_spelling hkinds hsorted
  obtain ⟨e, hparse, heval⟩ := Grammar.parse_of_denotes hcheck hread hp hbound
  have hcompile : compile bound v.display = .ok ⟨v.display, e⟩ := compile_of_parse hparse
  refine ⟨⟨v.display, e⟩, hcompile, fun limits hlimits => ?_⟩
  exact Eval.evaluate_of_yields (heval limits [] 0 (by rwa [Nat.zero_add]))

/-- The least integer in a list, under a key that is a quotation mark. -/
theorem execute_display_leastUnderQuote :
    ∃ p, compile 3 (Value.map [(.text "\"", .list [.int Int64.minValue])]).display = .ok p ∧
      ∀ limits : Eval.Limits, 4 ≤ limits.maxDepth → p.execute .empty limits =
        .ok (.map [(.text "\"", .list [.int Int64.minValue])]) := by
  have hkinds : Value.Throughout Value.HasExactText
      (.map [(.text "\"", .list [.int Int64.minValue])]) :=
    .intro trivial (List.forall_mem_singleton.mpr
      (.intro trivial (List.forall_mem_singleton.mpr (.intro trivial nofun))))
  have hsorted : Value.WellFormed (.map [(.text "\"", .list [.int Int64.minValue])]) :=
    .intro (List.pairwise_singleton _ _) (List.forall_mem_singleton.mpr
      (.intro trivial (List.forall_mem_singleton.mpr (.intro trivial nofun))))
  exact execute_display hkinds hsorted (by decide)

end Program

end EmbeddedExpr
