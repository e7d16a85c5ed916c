import EmbeddedExpr.Proofs.Number.Digits
import EmbeddedExpr.Proofs.Program.Failures
import EmbeddedExpr.Proofs.Text.Run
import EmbeddedExpr.Report.Lines

/-!
# Where reports say that an error is

The place of a character is found by going through the characters before it: each puts the place
one column on, or at the beginning of the next line (`Place.past`).  This is what the starts of the
lines say of the character with a number (`placeOf_length`).

Spans count bytes, and the report takes their offsets for numbers of characters.  The two are one
where all characters before the offset are single bytes, and nowhere else, since different offsets
have different places (`placeOf_injective`).  Behind the first character of several bytes a place is
too far on, and where the bytes are more than the characters of the whole source there is none
(`reports_point_at_single_bytes`).
-/

namespace EmbeddedExpr.Report

/-! ### Places of characters -/

/-- The place behind a character, which the rest of the source follows. -/
def Place.next (place : Place) (c : Char) (rest : List Char) : Place :=
  if endsLine c rest then ⟨place.line + 1, 1⟩ else ⟨place.line, place.column + 1⟩

/-- The place behind characters, which the rest of the source follows. -/
def Place.past (place : Place) : List Char → List Char → Place
  | [], _ => place
  | c :: before, rest => (place.next c (before ++ rest)).past before rest

/-- The place of the character with which `rest` begins. -/
def charPlace (before rest : List Char) : Place := Place.past ⟨1, 1⟩ before rest

theorem lt_of_mem_furtherStarts {offset start : Nat} {text : List Char}
    (h : start ∈ furtherStarts offset text) : offset < start := by
  induction text generalizing offset with
  | nil => cases h
  | cons c rest ih =>
      rw [furtherStarts] at h
      split at h
      · rcases List.mem_cons.mp h with rfl | hrest
        · exact Nat.lt_succ_self _
        · exact Nat.lt_of_succ_lt (ih hrest)
      · exact Nat.lt_of_succ_lt (ih h)

/-- The further lines that start no later than a limit. -/
def startsUpTo (limit offset : Nat) (text : List Char) : List Nat :=
  (furtherStarts offset text).filter fun start => start ≤ limit

theorem placeOf_eq (source : List Char) (offset : Nat) :
    placeOf source offset = ⟨1 + (startsUpTo offset 0 source).length,
      offset - (startsUpTo offset 0 source).getLastD 0 + 1⟩ := by
  have hstarts : ((lineStarts source).filter fun start => start ≤ offset) =
      0 :: startsUpTo offset 0 source :=
    List.filter_cons_of_pos (decide_eq_true (Nat.zero_le offset))
  rw [placeOf, hstarts, List.length_cons, Nat.add_comm, List.getLastD_cons]

/-- To go through characters is to count the lines that start behind them.  The last of these is the
one that the column is counted in, and before the first of them that is the line at `start`. -/
theorem past_eq_of_startsUpTo (before : List Char) {rest : List Char} (hrest : rest ≠ [])
    (line : Nat) {start offset : Nat} (hstart : start ≤ offset) {starts : List Nat}
    (hstarts : startsUpTo (offset + before.length) offset (before ++ rest) = starts) :
    Place.past ⟨line, offset - start + 1⟩ before rest =
      ⟨line + starts.length, offset + before.length - starts.getLastD start + 1⟩ := by
  induction before generalizing line start offset starts with
  | nil =>
      have hnone : startsUpTo offset offset rest = [] := by
        refine List.filter_eq_nil_iff.mpr fun s hs => ?_
        have hlt := lt_of_mem_furtherStarts hs
        simpa using hlt
      obtain rfl : [] = starts := hnone.symm.trans hstarts
      rfl
  | cons c before ih =>
      have hmore : before ++ rest ≠ [] := List.append_ne_nil_of_right_ne_nil _ hrest
      have hshift : offset + (c :: before).length = offset + 1 + before.length := by
        rw [List.length_cons]
        omega
      rw [List.cons_append, startsUpTo, furtherStarts, hshift] at hstarts
      rw [hshift, Place.past, Place.next]
      by_cases hends : endsLine c (before ++ rest) = true
      · -- a line starts behind the character, and the walk goes on in its first column
        have hcolumn : offset + 1 - (offset + 1) + 1 = 1 := by omega
        have hkept : offset + 1 ≤ offset + 1 + before.length := Nat.le_add_right _ _
        rw [if_pos ⟨hends, hmore⟩, List.filter_cons, if_pos (decide_eq_true hkept)] at hstarts
        subst hstarts
        have hwalk := ih (line + 1) (Nat.le_refl (offset + 1)) rfl
        rw [hcolumn] at hwalk
        rw [if_pos hends, hwalk, List.length_cons, List.getLastD_cons, Nat.add_right_comm]
        rfl
      · have hcolumn : offset + 1 - start + 1 = offset - start + 1 + 1 := by omega
        rw [if_neg fun h => hends h.1] at hstarts
        have hwalk := ih line (Nat.le_succ_of_le hstart) hstarts
        rw [hcolumn] at hwalk
        rw [if_neg hends, hwalk]

/-- The number of a character, as an offset, has the place of the character. -/
theorem placeOf_length (before : List Char) {rest : List Char} (hrest : rest ≠ []) :
    placeOf (before ++ rest) before.length = charPlace before rest := by
  have hsame : 0 + before.length = before.length := Nat.zero_add _
  have hwalk := past_eq_of_startsUpTo before hrest 1 (Nat.le_refl 0) rfl
  rw [hsame] at hwalk
  rw [placeOf_eq]
  exact hwalk.symm

theorem getLastD_startsUpTo_le (offset : Nat) (source : List Char) :
    (startsUpTo offset 0 source).getLastD 0 ≤ offset := by
  have hlast : (startsUpTo offset 0 source).getLastD 0 ∈ 0 :: startsUpTo offset 0 source :=
    List.getLastD_mem_cons
  rcases List.mem_cons.mp hlast with hzero | hmem
  · rw [hzero]
    exact Nat.zero_le offset
  · exact of_decide_eq_true (List.mem_filter.mp hmem).2

/-- Different offsets have different places. -/
theorem placeOf_injective {source : List Char} {i j : Nat}
    (h : placeOf source i = placeOf source j) : i = j := by
  wlog hle : i ≤ j generalizing i j
  · exact (this h.symm (Nat.le_of_not_le hle)).symm
  rw [placeOf_eq, placeOf_eq, Place.mk.injEq] at h
  obtain ⟨hline, hcolumn⟩ := h
  -- as many lines start up to the one as up to the other, so they are the same lines
  have hsublist : (startsUpTo i 0 source).Sublist (startsUpTo j 0 source) := by
    refine List.monotone_filter_right _ fun start hstart => ?_
    exact decide_eq_true (Nat.le_trans (of_decide_eq_true hstart) hle)
  have hstarts := hsublist.eq_of_length (Nat.add_left_cancel hline)
  have hi := getLastD_startsUpTo_le i source
  have hj := getLastD_startsUpTo_le j source
  rw [hstarts] at hcolumn hi
  omega

/-! ### Location lines -/

theorem toList_toString (n : Nat) : (toString n).toList = Nat.toDigits 10 n := by
  rw [Nat.toString_eq_repr, Nat.repr, String.toList_ofList]

/-- A numeral is read off the front of a text, up to a character that is no digit. -/
theorem eq_of_toDigits_append {m n : Nat} {c : Char} {first second : List Char}
    (hc : Number.isDigit c = false)
    (h : Nat.toDigits 10 m ++ c :: first = Nat.toDigits 10 n ++ c :: second) :
    m = n ∧ first = second := by
  have hstop (rest : List Char) : ∀ d ∈ (c :: rest).head?, Number.isDigit d = false := by
    intro d hd
    obtain rfl : c = d := Option.some.inj hd
    exact hc
  obtain ⟨hm, hfirst⟩ := Text.takeWhile_append_stop (Number.allDigits_toDigits m) (hstop first)
  obtain ⟨hn, hsecond⟩ := Text.takeWhile_append_stop (Number.allDigits_toDigits n) (hstop second)
  rw [h] at hm hfirst
  have hdigits : Nat.toDigits 10 m = Nat.toDigits 10 n := hm.symm.trans hn
  have hrest : c :: first = c :: second := hfirst.symm.trans hsecond
  have hread : some m = some n := by
    rw [← Number.readNat?_toDigits m, hdigits, Number.readNat?_toDigits]
  exact ⟨Option.some.inj hread, (List.cons.inj hrest).2⟩

/-- The text of a place. -/
theorem Place.toList_text (place : Place) :
    place.text.toList = "╭─[ <expr>:".toList ++
      (Nat.toDigits 10 place.line ++ ':' :: (Nat.toDigits 10 place.column ++ ' ' :: [']'])) := by
  have hcolon : ":".toList = [':'] := rfl
  have hclosing : " ]".toList = [' ', ']'] := rfl
  unfold Place.text
  simp only [String.toList_append, toList_toString, hcolon, hclosing, List.append_assoc,
    List.cons_append, List.nil_append]

theorem Place.text_injective {p q : Place} (h : p.text = q.text) : p = q := by
  have hlist := congrArg String.toList h
  rw [toList_text, toList_text] at hlist
  obtain ⟨hline, hrest⟩ := eq_of_toDigits_append rfl (List.append_cancel_left hlist)
  obtain ⟨hcolumn, -⟩ := eq_of_toDigits_append rfl hrest
  cases p
  cases q
  exact Place.mk.injEq .. ▸ ⟨hline, hcolumn⟩

theorem Place.head?_text (place : Place) : place.text.toList.head? = some '╭' := by
  rw [toList_text, List.head?_append]
  rfl

/-- A headline begins with the bracket of a code or the letter of a heading. -/
theorem head?_headline_ne (d : Diagnostic) : (headline d).toList.head? ≠ some '╭' := by
  unfold headline
  rw [String.toList_ofList, List.head?_takeWhile, String.toList_append, String.toList_append,
    String.toList_append, List.append_assoc, List.append_assoc]
  intro h
  obtain ⟨hhead, -⟩ := Option.filter_eq_some_iff.mp h
  cases hcode : d.code with
  | some code =>
      rw [hcode, String.toList_append, String.toList_append, List.append_assoc, List.append_assoc]
        at hhead
      cases hhead
  | none =>
      rw [hcode] at hhead
      cases hseverity : d.severity <;>
      · rw [hseverity] at hhead
        cases hhead

/-- The lines of a report name a place just if it is that of the diagnostic. -/
theorem text_mem_lines_iff {source : String} {d : Diagnostic} {place : Place} :
    place.text ∈ lines source d ↔ place? source.toList d.span = some place := by
  have hhelp (help : List String) : place.text ∉ help.map fun hint => "│ Help: " ++ hint := by
    intro hmem
    obtain ⟨hint, -, hhint⟩ := List.mem_map.mp hmem
    have hhead := place.head?_text
    rw [← hhint, String.toList_append, List.head?_append] at hhead
    cases hhead
  have hheadline : place.text ≠ headline d := fun h => head?_headline_ne d (h ▸ place.head?_text)
  rw [lines, excerpt, List.mem_cons, or_iff_right hheadline]
  cases place? source.toList d.span with
  | none => simp
  | some place' =>
      rw [List.mem_cons, or_iff_left (hhelp _), Option.some.injEq]
      exact ⟨fun h => (Place.text_injective h).symm, fun h => congrArg Place.text h.symm⟩

/-! ### Bytes and characters -/

theorem byteLength_eq_length_iff {text : List Char} :
    Text.byteLength text = text.length ↔ ∀ c ∈ text, c.utf8Size = 1 := by
  induction text with
  | nil => exact iff_of_true rfl nofun
  | cons c rest ih =>
      have hsize := c.utf8Size_pos
      have hrest := Text.length_le_byteLength rest
      rw [Text.byteLength_cons, List.length_cons, List.forall_mem_cons, ← ih]
      omega

/-- What a report says of the place of a span. -/
structure Locates (source : List Char) (span : Span) (report : List String) : Prop where
  start : Text.IsBoundary source span.start
  /-- There is a location line just if the span ends no later than a character behind the source,
  and starts no later than at its end, where offsets count characters. -/
  located : (∃ place : Place, place.text ∈ report) ↔
    span.start ≤ source.length ∧ span.stop ≤ source.length + 1
  /-- The place of the character that the span begins with is named only where the characters
  before it are single bytes. -/
  names : ∀ before c after, source = before ++ c :: after →
    span.start = Text.byteLength before →
      ((charPlace before (c :: after)).text ∈ report ↔
        (∀ d ∈ before, d.utf8Size = 1) ∧ span.stop ≤ source.length + 1)
  /-- Sources of single bytes have a location line, and this place in it. -/
  single : (∀ d ∈ source, d.utf8Size = 1) → (∃ place : Place, place.text ∈ report) ∧
    ∀ before c after, source = before ++ c :: after → span.start = Text.byteLength before →
      (charPlace before (c :: after)).text ∈ report

theorem place?_eq_some_iff {source : List Char} {span : Span} (hspan : span.start ≤ span.stop)
    {place : Place} : place? source span = some place ↔
      (span.start ≤ source.length ∧ span.stop ≤ source.length + 1) ∧
        placeOf source span.start = place := by
  have hinside : inside source.length span = true ↔
      span.start ≤ source.length ∧ span.stop ≤ source.length + 1 := by
    rw [inside, decide_eq_true_iff]
    omega
  rw [place?]
  split
  · rename_i h
    rw [Option.some.injEq, and_iff_right (hinside.mp h)]
  · rename_i h
    exact iff_of_false nofun fun hplace => h (hinside.mpr hplace.1)

theorem locates_lines {source : String} {d : Diagnostic} (h : d.span.Fits source.toList) :
    Locates source.toList d.span (lines source d) := by
  have hmem (place : Place) : place.text ∈ lines source d ↔ _ :=
    text_mem_lines_iff.trans (place?_eq_some_iff h.ordered)
  have hlocated : (∃ place : Place, place.text ∈ lines source d) ↔
      d.span.start ≤ source.toList.length ∧ d.span.stop ≤ source.toList.length + 1 := by
    simp only [hmem]
    exact ⟨fun ⟨_, hinside, _⟩ => hinside, fun hinside => ⟨_, hinside, rfl⟩⟩
  have hnames : ∀ before c after, source.toList = before ++ c :: after →
      d.span.start = Text.byteLength before →
        ((charPlace before (c :: after)).text ∈ lines source d ↔
          (∀ e ∈ before, e.utf8Size = 1) ∧ d.span.stop ≤ source.toList.length + 1) := by
    intro before c after hsource hstart
    have hplace : placeOf source.toList before.length = charPlace before (c :: after) := by
      rw [hsource]
      exact placeOf_length before (List.cons_ne_nil c after)
    have hbefore : before.length ≤ source.toList.length := by
      rw [hsource, List.length_append]
      exact Nat.le_add_right _ _
    rw [hmem, ← byteLength_eq_length_iff, ← hstart, ← hplace]
    constructor
    · rintro ⟨⟨-, hstop⟩, hsame⟩
      exact ⟨placeOf_injective hsame, hstop⟩
    · rintro ⟨hsame, hstop⟩
      exact ⟨⟨hsame ▸ hbefore, hstop⟩, hsame ▸ rfl⟩
  refine ⟨h.start, hlocated, hnames, fun hsingle => ?_⟩
  have hlength := byteLength_eq_length_iff.mpr hsingle
  have hstop : d.span.stop ≤ source.toList.length := hlength ▸ h.stop.le_byteLength
  refine ⟨hlocated.mpr ⟨Nat.le_trans h.ordered hstop, Nat.le_succ_of_le hstop⟩, ?_⟩
  intro before c after hsource hstart
  refine (hnames before c after hsource hstart).mpr ⟨fun e he => hsingle e ?_, ?_⟩
  · rw [hsource]
    exact List.mem_append_left _ he
  · exact Nat.le_succ_of_le hstop

/-! ### Reports of errors -/

/-- The report of any error, of compilation or at run time, has a location line just if the span of
the error is inside the source by the number of characters, and the line names the place of the
error just if the characters before it are single bytes.  So there is a line with the right place
wherever the source consists of single bytes. -/
theorem reports_point_at_single_bytes (bound : Nat) (source : String) :
    (∀ e, Program.compile bound source = .error e →
      ∃ d, e.diagnostics = [d] ∧ Locates source.toList d.span e.lines) ∧
    ∀ p, Program.compile bound source = .ok p →
      ∀ (bindings : Bindings) (limits : Eval.Limits) (failure : Eval.Failure),
        p.execute bindings limits = .error failure →
          Locates source.toList failure.span (failure.lines p.source) := by
  constructor
  · intro e h
    have hlocated := Grammar.located_parse bound source.toList
    unfold Program.compile Program.parse at h
    cases hparse : Grammar.parse bound source.toList with
    | ok expr => rw [hparse] at h; cases h
    | error err =>
        rw [hparse] at h hlocated
        cases h
        refine ⟨err.diagnostic, rfl, ?_⟩
        have hlines : (CompileError.ofParseError source err).lines = lines source err.diagnostic :=
          List.append_nil _
        rw [hlines]
        exact locates_lines hlocated
  · intro p hcompile bindings limits failure h
    have hfits : failure.diagnostic.span.Fits source.toList :=
      (Program.execute_error_covers hcompile h).fits
    rw [(Program.compile_eq_ok hcompile).1]
    exact locates_lines hfits

/-- The error at the `x` in the second line, and the bracket that is not closed at its end. -/
theorem reports_point_at_single_bytes_second_line :
    (∃ p failure, Program.compile 9 "1 +\n x" = .ok p ∧
      p.execute .empty .default = .error failure ∧
        (⟨2, 2⟩ : Place).text ∈ failure.lines p.source) ∧
      ∃ e, Program.compile 9 "1 +\n (" = .error e ∧ (⟨2, 2⟩ : Place).text ∈ e.lines := by
  let before := ['1', ' ', '+', '\n', ' ']
  obtain ⟨hcompile, -⟩ := reports_point_at_single_bytes 9 "1 +\n ("
  obtain ⟨-, hexecute⟩ := reports_point_at_single_bytes 9 "1 +\n x"
  constructor
  · let p : Program :=
      ⟨"1 +\n x", .arith ⟨0, 6⟩ .add (.literal ⟨0, 1⟩ (.int 1)) (.ident ⟨5, 6⟩ "x")⟩
    have hp : Program.compile 9 "1 +\n x" = .ok p := rfl
    have hfails : p.execute .empty .default = .error ⟨.unknownIdentifier "x", ⟨5, 6⟩⟩ := rfl
    have hplace : charPlace before ['x'] = ⟨2, 2⟩ := rfl
    have hnames := ((hexecute p hp _ _ _ hfails).single (by decide)).2 before 'x' [] rfl rfl
    rw [hplace] at hnames
    exact ⟨p, _, hp, hfails, hnames⟩
  · have he : Program.compile 9 "1 +\n (" =
        .error (.ofParseError "1 +\n (" ⟨.unclosed '(', ⟨5, 6⟩⟩) := rfl
    have hplace : charPlace before ['('] = ⟨2, 2⟩ := rfl
    obtain ⟨d, hd, hlocates⟩ := hcompile _ he
    cases hd
    have hnames := (hlocates.single (by decide)).2 before '(' [] rfl rfl
    rw [hplace] at hnames
    exact ⟨_, he, hnames⟩

/-- Below a comment with a character of two bytes, the `x` in the first column is said to be in the
second, and below three such characters the bracket that is not closed is said to be nowhere. -/
theorem reports_point_astray :
    (∃ p failure, Program.compile 9 "//é\nx" = .ok p ∧
      p.execute .empty .default = .error failure ∧
        failure.span.start = Text.byteLength ['/', '/', 'é', '\n'] ∧
          charPlace ['/', '/', 'é', '\n'] ['x'] = ⟨2, 1⟩ ∧
            (⟨2, 1⟩ : Place).text ∉ failure.lines p.source ∧
              (⟨2, 2⟩ : Place).text ∈ failure.lines p.source) ∧
      ∃ e, Program.compile 9 "//ééé\n(" = .error e ∧ ∀ place : Place, place.text ∉ e.lines := by
  constructor
  · let p : Program := ⟨"//é\nx", .ident ⟨5, 6⟩ "x"⟩
    have hp : Program.compile 9 "//é\nx" = .ok p := rfl
    have hfails : p.execute .empty .default = .error ⟨.unknownIdentifier "x", ⟨5, 6⟩⟩ := rfl
    have hplace : place? p.source.toList ⟨5, 6⟩ = some ⟨2, 2⟩ := by decide
    refine ⟨p, _, hp, hfails, rfl, rfl, fun hmem => ?_, text_mem_lines_iff.mpr hplace⟩
    cases hplace.symm.trans (text_mem_lines_iff.mp hmem)
  · have he : Program.compile 9 "//ééé\n(" =
        .error (.ofParseError "//ééé\n(" ⟨.unclosed '(', ⟨9, 10⟩⟩) := rfl
    have hplace : place? "//ééé\n(".toList ⟨9, 10⟩ = none := rfl
    refine ⟨_, he, fun place hmem => ?_⟩
    have hlines := (List.mem_append.mp hmem).resolve_right List.not_mem_nil
    cases hplace.symm.trans (text_mem_lines_iff.mp hlines)

end EmbeddedExpr.Report
