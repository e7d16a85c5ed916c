import EmbeddedExpr.Proofs.Grammar.Scanner
import EmbeddedExpr.Proofs.Grammar.Written
import EmbeddedExpr.Proofs.Text.Run

/-!
# The tokens of operations

A name with a blank behind it is taken whole by the scanner of names, and no scanner of literals
accepts it: it begins like no number, it is no word that the scanners know, and no quotation mark
follows the letters that could stand before one.

What stands behind an operand is a mark that closes the expression (`closers`), one that links
another operand to it (`linkers`), or one that selects from it (`followers`).  The operators are
tried in an order in which none of them begins with the mark of an earlier one, so that each is
read as what it is.
-/

namespace EmbeddedExpr.Grammar

variable {rest : List (List Char)}

/-! ### Words -/

/-- A mark without blanks begins the text if it begins the first token. -/
theorem isPrefixOf_append_trailing {mark : List Char} (h : ' ' ∉ mark) (token : List Char)
    (rest : List (List Char)) :
    mark.isPrefixOf (token ++ trailing rest) = mark.isPrefixOf token := by
  induction mark generalizing token with
  | nil => simp
  | cons c mark ih =>
      obtain ⟨hc, hmark⟩ := not_or.mp (mt List.mem_cons.mpr h)
      cases token with
      | cons d token =>
          rw [List.cons_append, List.isPrefixOf, List.isPrefixOf, ih hmark]
      | nil =>
          rcases trailing_eq rest with ⟨hnil, -⟩ | hcons
          · rw [hnil, List.append_nil]
          · have hne : (c == ' ') = false := beq_eq_false_iff_ne.mpr (Ne.symm hc)
            rw [hcons, List.nil_append, List.isPrefixOf.eq_def]
            simp [hne]

namespace Scanner

theorem isDigit_eq_false_of_isLetter {c : Char} (h : isLetter c = true) :
    Number.isDigit c = false := by
  rw [Bool.eq_false_iff]
  intro hdigit
  have hle := (Number.toNat_of_isDigit hdigit).2
  simp only [isLetter, Bool.or_eq_true, Bool.and_eq_true, decide_eq_true_iff] at h
  rcases h with ⟨hge, -⟩ | ⟨hge, -⟩
  · exact absurd (Nat.le_trans (hge : 'a'.toNat ≤ c.toNat) hle) (by decide)
  · exact absurd (Nat.le_trans (hge : 'A'.toNat ≤ c.toNat) hle) (by decide)

theorem not_mem_of_isNameChar {c : Char} {others : List Char}
    (hothers : ∀ d ∈ others, isNameChar d = false) (h : isNameChar c = true) : c ∉ others :=
  fun hmem => Bool.false_ne_true ((hothers c hmem).symm.trans h)

theorem not_mem_of_allNameChars {text : List Char} {c : Char}
    (h : ∀ d ∈ text, isNameChar d = true) (hc : isNameChar c = false) : c ∉ text :=
  fun hmem => Bool.false_ne_true (hc.symm.trans (h c hmem))

theorem startsName_trailing (rest : List (List Char)) : startsName (trailing rest) = false := by
  rcases trailing_eq rest with ⟨hnil, -⟩ | hcons
  · rw [hnil]
    rfl
  · rw [hcons]
    exact (by decide : isNameChar ' ' = false)

theorem takeWhile_append_trailing {text : List Char} (h : ∀ d ∈ text, isNameChar d = true)
    (rest : List (List Char)) :
    (text ++ trailing rest).takeWhile isNameChar = text ∧
      (text ++ trailing rest).dropWhile isNameChar = trailing rest := by
  refine Text.takeWhile_append_stop h fun c hc => ?_
  rw [trailing_head c hc]
  rfl

theorem word_append_trailing (w : List Char) (rest : List (List Char)) :
    word w (w ++ trailing rest) = some ((), w, trailing rest) := by
  simp [word, startsName_trailing]

/-- A word is not found where another one stands. -/
theorem word_none_of_ne {w text : List Char} (hw : ∀ d ∈ w, isNameChar d = true)
    (htext : ∀ d ∈ text, isNameChar d = true) (hne : w ≠ text) (rest : List (List Char)) :
    word w (text ++ trailing rest) = none := by
  have hblank : ' ' ∉ w := not_mem_of_allNameChars hw (by decide)
  rw [word, isPrefixOf_append_trailing hblank]
  cases hprefix : w.isPrefixOf text with
  | false => rfl
  | true =>
      -- the text begins with the word and goes on with another character of a name
      obtain ⟨tail, rfl⟩ := List.isPrefixOf_iff_prefix.mp hprefix
      rw [List.append_assoc, List.drop_left]
      cases tail with
      | nil => exact absurd (List.append_nil w).symm hne
      | cons c tail =>
          have hc : isNameChar c = true := htext c (by simp)
          rw [if_neg (by simp [startsName, hc])]

/-! ### Names -/

/-- No quotation mark follows the characters of a name with which the text begins. -/
def Unquoted (text : List Char) : Prop :=
  ∀ c ∈ (text.dropWhile isNameChar).head?, c ≠ '"' ∧ c ≠ '\''

theorem unquoted_append_trailing {text : List Char} (h : ∀ d ∈ text, isNameChar d = true)
    (rest : List (List Char)) : Unquoted (text ++ trailing rest) := by
  intro c hc
  rw [(takeWhile_append_trailing h rest).2] at hc
  rw [trailing_head c hc]
  decide

theorem Unquoted.of_append {marks after : List Char} (h : Unquoted (marks ++ after))
    (hmarks : ∀ d ∈ marks, isNameChar d = true) : Unquoted after := by
  rwa [Unquoted, List.dropWhile_append_of_pos hmarks] at h

theorem Unquoted.quoted_none {text : List Char} (h : Unquoted text) : quoted text = none := by
  have hhead : ∀ c ∈ text.head?, c ≠ '"' ∧ c ≠ '\'' := by
    intro c hc
    cases text with
    | nil => cases hc
    | cons d text =>
        cases hc
        by_cases hname : isNameChar c = true
        · constructor <;> rintro rfl <;> cases hname
        · exact h c (by rw [List.dropWhile_cons_of_neg hname]; rfl)
  cases text with
  | nil => rfl
  | cons c text =>
      obtain ⟨hquote, hmark⟩ := hhead c rfl
      simp [quoted, quotedBy, hquote, hmark, hquote.symm, hmark.symm]

theorem isNameChar_of_isRawMark {c : Char} (h : isRawMark c = true) : isNameChar c = true := by
  simp only [isRawMark, Bool.or_eq_true, beq_iff_eq] at h
  rcases h with rfl | rfl <;> rfl

theorem isNameChar_of_isBytesMark {c : Char} (h : isBytesMark c = true) :
    isNameChar c = true := by
  simp only [isBytesMark, Bool.or_eq_true, beq_iff_eq] at h
  rcases h with rfl | rfl <;> rfl

theorem allNameChars_of_bytesMarks {text marks after : List Char} {raw : Bool}
    (h : bytesMarks text = some (raw, marks, after)) : ∀ d ∈ marks, isNameChar d = true := by
  unfold bytesMarks at h
  split at h
  · split at h
    · rename_i hbytes
      split at h
      · rename_i hraw
        cases h
        exact List.forall_mem_cons.mpr ⟨isNameChar_of_isBytesMark hbytes,
          List.forall_mem_singleton.mpr (isNameChar_of_isRawMark hraw)⟩
      · cases h
        exact List.forall_mem_singleton.mpr (isNameChar_of_isBytesMark hbytes)
    · split at h
      · rename_i hboth
        obtain ⟨hraw, hbytes⟩ := Bool.and_eq_true_iff.mp hboth
        cases h
        exact List.forall_mem_cons.mpr ⟨isNameChar_of_isRawMark hraw,
          List.forall_mem_singleton.mpr (isNameChar_of_isBytesMark hbytes)⟩
      · cases h
  · cases h

theorem Unquoted.bytes_none {text : List Char} (h : Unquoted text) : bytes text = none := by
  unfold bytes
  split
  · rename_i hmarks
    rw [← Scanner.append_of_bytesMarks hmarks] at h
    rw [(h.of_append (allNameChars_of_bytesMarks hmarks)).quoted_none, Option.map_none]
  · rfl

theorem Unquoted.text_none {input : List Char} (h : Unquoted input) : text input = none := by
  unfold text
  split
  · rename_i c after
    split
    · rename_i hraw
      have hmark : ∀ d ∈ [c], isNameChar d = true :=
        List.forall_mem_singleton.mpr (isNameChar_of_isRawMark hraw)
      rw [(h.of_append hmark).quoted_none, Option.map_none]
    · rw [h.quoted_none, Option.map_none]
  · rfl

end Scanner

namespace IsName

variable {name : String}

theorem allNameChars (h : IsName name) : ∀ d ∈ name.toList, Scanner.isNameChar d = true := by
  obtain ⟨c, more, hname, hc, hmore, -⟩ := h
  rw [hname]
  refine List.forall_mem_cons.mpr ⟨?_, hmore⟩
  rcases hc with hletter | rfl
  · simp [Scanner.isNameChar, hletter]
  · rfl

theorem name_append (h : IsName name) (rest : List (List Char)) :
    Scanner.name (name.toList ++ trailing rest) =
      some (.name name.toList, name.toList, trailing rest) := by
  obtain ⟨htake, hdrop⟩ := Scanner.takeWhile_append_trailing h.allNameChars rest
  obtain ⟨c, more, hname, hc, -, hkeyword⟩ := h
  have hfirst : (Scanner.isLetter c || c == '_') = true := by simpa using hc
  have hcontains : Scanner.keywords.contains name.toList = false := by simpa using hkeyword
  rw [hname] at htake hdrop hcontains ⊢
  simp only [Scanner.name, htake, hdrop, hfirst, hcontains]
  rfl

theorem head (h : IsName name) : ∃ c more, name.toList = c :: more ∧
    (Scanner.isLetter c = true ∨ c = '_') := by
  obtain ⟨c, more, hname, hc, -⟩ := h
  exact ⟨c, more, hname, hc⟩

/-- What is neither a letter nor an underscore begins no name. -/
theorem ne_head {c d : Char} (hc : Scanner.isLetter c = true ∨ c = '_')
    (hd : Scanner.isLetter d = false ∧ d ≠ '_') : c ≠ d := by
  rintro rfl
  rcases hc with hletter | rfl
  · exact Bool.false_ne_true (hd.1.symm.trans hletter)
  · exact hd.2 rfl

theorem literals_none (h : IsName name) (rest : List (List Char)) :
    ∀ entry ∈ Reader.literals, entry.2 (name.toList ++ trailing rest) = none := by
  have hunquoted := Scanner.unquoted_append_trailing h.allNameChars rest
  have hword : ∀ w ∈ Scanner.keywords, Scanner.word w (name.toList ++ trailing rest) = none := by
    intro w hw
    have hletters : ∀ w ∈ Scanner.keywords, w.all Scanner.isNameChar = true := by decide
    have hchars := List.all_eq_true.mp (hletters w hw)
    refine Scanner.word_none_of_ne hchars h.allNameChars ?_ rest
    rintro rfl
    exact h.choose_spec.choose_spec.2.2.2 hw
  have hnull : Scanner.null (name.toList ++ trailing rest) = none := by
    rw [Scanner.null, hword _ (by decide), Option.map_none]
  have hbool : Scanner.bool (name.toList ++ trailing rest) = none := by
    simp only [Scanner.bool, hword ['t', 'r', 'u', 'e'] (by decide),
      hword ['f', 'a', 'l', 's', 'e'] (by decide), Option.map_none]
  obtain ⟨c, more, hname, hc⟩ := h.head
  have hdigit : Number.isDigit c = false := by
    rcases hc with hletter | rfl
    · exact Scanner.isDigit_eq_false_of_isLetter hletter
    · rfl
  obtain ⟨hdouble, huint, hint⟩ := Scanner.number_none hdigit (ne_head hc (by decide))
    (more ++ trailing rest)
  rw [← List.cons_append, ← hname] at hdouble huint hint
  simp [Reader.literals, hdouble, huint, hint, hnull, hbool, hunquoted.bytes_none,
    hunquoted.text_none]

/-- A name begins neither layout, a sign nor a bracket. -/
theorem bare (h : IsName name) (rest : List (List Char)) :
    Reader.Bare (spaced (name.toList :: rest)) := by
  obtain ⟨c, more, hname, hc⟩ := h.head
  rw [spaced, hname, List.cons_append]
  refine .cons ?_ (fun hmem => ?_) _
  · rw [Bool.eq_false_iff]
    intro hblank
    simp only [Cursor.isBlank, Bool.or_eq_true, beq_iff_eq] at hblank
    rcases hblank with ((h | h) | h) | h <;> exact ne_head hc (by decide) h
  · have hmarks : ∀ d ∈ ['/', '-', '!', '(', '[', '\x7b'],
        Scanner.isLetter d = false ∧ d ≠ '_' := by
      simp [Scanner.isLetter]
    exact ne_head hc (hmarks c hmem) rfl

theorem isToken (h : IsName name) : IsToken name.toList := by
  have hbare := h.bare []
  obtain ⟨c, more, hname, -⟩ := h.head
  rw [spaced, hname] at hbare
  rw [hname]
  obtain ⟨hblank, hmark⟩ := hbare c rfl
  exact ⟨hblank, fun hslash => absurd (by simp [hslash]) hmark⟩

end IsName

/-! ### Marks -/

/-- What links another operand to the one before it. -/
def linkers : List (List Char) :=
  [['?'], ['|', '|'], ['&', '&'], ['=', '='], ['!', '='], ['<', '='], ['<'], ['>', '='], ['>'],
    ['i', 'n'], ['+'], ['-'], ['*'], ['/'], ['%']]

/-- What ends an operand. -/
def enders : List (List Char) := linkers ++ closers

/-- What stands behind a base: what selects from it, or what ends the operand. -/
def followers : List (List Char) := ['.'] :: ['['] :: enders

theorem InfixOp.symbol_mem_linkers (op : InfixOp) : op.symbol ∈ linkers := by
  cases op with
  | logic op | relation op | arith op => cases op <;> decide

theorem leads_isToken_of_followers (h : Leads (· ∈ followers) rest) : Leads IsToken rest :=
  h.mono (by decide)

theorem Leads.followers (h : Leads (· ∈ enders) rest) : Leads (· ∈ followers) rest :=
  h.mono fun _ hmem => List.mem_cons_of_mem _ (List.mem_cons_of_mem _ hmem)

theorem Leads.enders (h : Leads (· ∈ closers) rest) : Leads (· ∈ enders) rest :=
  h.mono fun _ hmem => List.mem_append_right _ hmem

theorem not_mem_head?_spaced {marks : List (List Char)} {c : Char} (h : Leads (· ∈ marks) rest)
    (hmarks : ∀ mark ∈ marks, mark ≠ [] ∧ c ∉ mark.head?) : c ∉ (spaced rest).head? := by
  cases rest with
  | nil => nofun
  | cons token rest =>
      obtain ⟨hne, hhead⟩ := hmarks token (h token rfl)
      rwa [spaced, List.head?_append_of_ne_nil _ hne]

theorem closes_spaced (h : Leads (· ∈ closers) rest) : Closes (spaced rest) := by
  cases rest with
  | nil => exact .nil
  | cons token rest =>
      have hclosers : ∀ closer ∈ closers, ∃ c ∈ [',', ':', ')', ']', '\x7d'], closer = [c] := by
        simp [closers]
      obtain ⟨c, hc, rfl⟩ := hclosers token (h token rfl)
      exact .cons hc

namespace Reader

variable {α β : Type} {phrase : Reader Phrase} {fuel : Nat} {token : List Char}

/-! ### Links -/

theorem refuses_expect_token {mark : List Char} (hblank : ' ' ∉ mark)
    (h : mark.isPrefixOf token = false) : Refuses (expect mark) (spaced (token :: rest)) := by
  intro offset
  have hprefix : mark.isPrefixOf (spaced (token :: rest)) = false :=
    (isPrefixOf_append_trailing hblank token rest).trans h
  simp only [expect, hprefix, Bool.false_eq_true, if_false]

theorem refuses_marked_token {entries : List (Construct × List Char × InfixOp)}
    (hentries : entries ⊆ infixMarks ++ arithMarks)
    (h : ∀ entry ∈ entries, entry.2.1.isPrefixOf token = false) :
    ∀ r ∈ entries.map marked, Refuses r (spaced (token :: rest)) := by
  have hblank : ∀ entry ∈ infixMarks ++ arithMarks, ' ' ∉ entry.2.1 := by
    simp [infixMarks, arithMarks]
  intro r hr
  obtain ⟨entry, hentry, rfl⟩ := List.mem_map.mp hr
  exact ((refuses_expect_token (hblank entry (hentries hentry)) (h entry hentry)).tried _).bind _

theorem refuses_membership_token (h : ['i', 'n'].isPrefixOf token = false) :
    Refuses membership (spaced (token :: rest)) := by
  have hprefix : ['i', 'n'].isPrefixOf (spaced (token :: rest)) = false :=
    (isPrefixOf_append_trailing (by decide) token rest).trans h
  have hword : Scanner.word ['i', 'n'] (spaced (token :: rest)) = none := by
    simp [Scanner.word, hprefix]
  exact ((refuses_scan hword).tried _).bind _

theorem reads_marked (construct : Construct) (op : InfixOp) (rest : List (List Char)) :
    Reads (marked (construct, op.symbol, op)) (spaced (op.symbol :: rest)) (trailing rest)
      (· = .op op) :=
  ((reads_expect_token op.symbol rest).tried construct).bind fun _ _ => reads_pure rfl

theorem reads_membership (rest : List (List Char)) :
    Reads membership (spaced (['i', 'n'] :: rest)) (trailing rest) (· = .op (.relation .mem)) :=
  ((reads_scan (Scanner.word_append_trailing ['i', 'n'] rest)).tried _).bind fun _ _ =>
    reads_pure rfl

/-- No operator begins with the mark of one that is tried before it. -/
theorem exists_mark (op : InfixOp) :
    op = .relation .mem ∨
    (∃ construct before after, infixMarks = before ++ (construct, op.symbol, op) :: after ∧
      ∀ entry ∈ before, entry.2.1.isPrefixOf op.symbol = false) ∨
    ∃ construct before after, arithMarks = before ++ (construct, op.symbol, op) :: after ∧
      ∀ entry ∈ infixMarks ++ before, entry.2.1.isPrefixOf op.symbol = false := by
  cases op with
  | logic op =>
      refine .inr (.inl ?_)
      cases op with
      | or => exact ⟨_, [], _, rfl, by decide⟩
      | and => exact ⟨_, [_], _, rfl, by decide⟩
  | relation op =>
      cases op with
      | eq => exact .inr (.inl ⟨_, [_, _], _, rfl, by decide⟩)
      | ne => exact .inr (.inl ⟨_, [_, _, _], _, rfl, by decide⟩)
      | le => exact .inr (.inl ⟨_, [_, _, _, _], _, rfl, by decide⟩)
      | lt => exact .inr (.inl ⟨_, [_, _, _, _, _], _, rfl, by decide⟩)
      | ge => exact .inr (.inl ⟨_, [_, _, _, _, _, _], _, rfl, by decide⟩)
      | gt => exact .inr (.inl ⟨_, [_, _, _, _, _, _, _], _, rfl, by decide⟩)
      | mem => exact .inl rfl
  | arith op =>
      refine .inr (.inr ?_)
      cases op with
      | add => exact ⟨_, [], _, rfl, by decide⟩
      | sub => exact ⟨_, [_], _, rfl, by decide⟩
      | mul => exact ⟨_, [_, _], _, rfl, by decide⟩
      | div => exact ⟨_, [_, _, _], _, rfl, by decide⟩
      | rem => exact ⟨_, [_, _, _, _], _, rfl, by decide⟩

/-- Each operator is read as what it is. -/
theorem reads_link_op (op : InfixOp) (rest : List (List Char)) :
    Reads (link phrase) (spaced (op.symbol :: rest)) (trailing rest) (· = .op op) := by
  have hchoice : Refuses (choiceLink phrase) (spaced (op.symbol :: rest)) := by
    have hhead : ['?'].isPrefixOf op.symbol = false := by
      cases op with
      | logic op | relation op | arith op => cases op <;> decide
    exact ((refuses_expect_token (by decide) hhead).bind _).tried _
  rcases exists_mark op with rfl | ⟨construct, before, after, hmarks, hbefore⟩ |
    ⟨construct, before, after, hmarks, hbefore⟩
  · have hnone : ∀ entry ∈ infixMarks,
        entry.2.1.isPrefixOf (InfixOp.symbol (.relation .mem)) = false := by decide
    refine reads_oneOf (List.forall_mem_cons.mpr ⟨hchoice, ?_⟩) (reads_membership rest)
    exact refuses_marked_token (List.subset_append_left _ _) hnone
  · have hreaders : choiceLink phrase :: infixMarks.map marked ++
          membership :: arithMarks.map marked =
        (choiceLink phrase :: before.map marked) ++ marked (construct, op.symbol, op) ::
          (after.map marked ++ membership :: arithMarks.map marked) := by
      simp [hmarks]
    rw [link, hreaders]
    refine reads_oneOf (List.forall_mem_cons.mpr ⟨hchoice, ?_⟩) (reads_marked construct op rest)
    refine refuses_marked_token (fun entry hentry => ?_) hbefore
    rw [hmarks]
    exact List.mem_append_left _ (List.mem_append_left _ hentry)
  · have hreaders : choiceLink phrase :: infixMarks.map marked ++
          membership :: arithMarks.map marked =
        (choiceLink phrase :: infixMarks.map marked ++ membership :: before.map marked) ++
          marked (construct, op.symbol, op) :: after.map marked := by
      simp [hmarks]
    obtain ⟨hrelations, harith⟩ := List.forall_mem_append.mp hbefore
    have hword : ∀ entry ∈ arithMarks, ['i', 'n'].isPrefixOf entry.2.1 = false := by decide
    have hmem : Refuses membership (spaced (op.symbol :: rest)) :=
      refuses_membership_token (hword (construct, op.symbol, op) (by simp [hmarks]))
    rw [link, hreaders]
    refine reads_oneOf (List.forall_mem_append.mpr ⟨List.forall_mem_cons.mpr ⟨hchoice, ?_⟩,
      List.forall_mem_cons.mpr ⟨hmem, ?_⟩⟩) (reads_marked construct op rest)
    · exact refuses_marked_token (List.subset_append_left _ _) hrelations
    · refine refuses_marked_token (fun entry hentry => ?_) harith
      rw [hmarks]
      exact List.mem_append_right _ (List.mem_append_left _ hentry)

end Reader

end EmbeddedExpr.Grammar
