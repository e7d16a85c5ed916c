import EmbeddedExpr.Proofs.Grammar.Weight

/-!
# The turns of the nesting scan

The scan of a source is a loop that knows where it is and what is open there (`Nesting.Place`).  A
turn of it takes one character, or leaps behind a whole literal or to the end of a comment, and the
turns come to what the scan of the characters says (`Place.result_eq`).

What a turn can do is said once (`Place.eq_of_turn_eq_next`): something is taken from the front of
the rest, and what is open changes by the step of a character or only loses the signs in a row.  So
the offset grows with every turn, and what a step keeps of the counts (`Counts.step`, one case for
each kind of character) is kept in the whole run (`Counts.of_turns`).
-/

namespace EmbeddedExpr.Grammar.Nesting

open Text (byteLength)

variable {bound offset stop : Nat} {n m : Nesting} {mark c : Char} {text rest : List Char}

/-! ### Literals and comments -/

/-- What is left behind the closing mark of a literal or the end of its line. -/
def behindMark (mark : Char) : List Char → List Char
  | [] => []
  | '\\' :: _ :: rest => behindMark mark rest
  | c :: rest => if c = mark ∨ c = '\n' then rest else behindMark mark rest

/-- What is left behind the three closing marks of a literal. -/
def behindMarks (mark : Char) : List Char → List Char
  | [] => []
  | '\\' :: _ :: rest => behindMarks mark rest
  | c :: rest =>
    if c = mark ∧ [mark, mark].isPrefixOf rest then rest.drop 2 else behindMarks mark rest

/-- What is left behind a literal, from behind its first mark. -/
def behindLiteral (mark : Char) (rest : List Char) : List Char :=
  if [mark, mark].isPrefixOf rest then behindMarks mark (rest.drop 2) else behindMark mark rest

/-- What is left at the end of the line of a comment. -/
def behindComment (rest : List Char) : List Char := rest.dropWhile (· != '\n')

theorem behindMark_suffix (mark : Char) (text : List Char) : behindMark mark text <:+ text := by
  fun_induction behindMark mark text with
  | case1 => exact List.suffix_refl []
  | case2 c rest ih => exact ih.trans ((List.suffix_cons c rest).trans (List.suffix_cons _ _))
  | case3 c rest => exact List.suffix_cons c rest
  | case4 c rest _ _ ih => exact ih.trans (List.suffix_cons c rest)

theorem behindMarks_suffix (mark : Char) (text : List Char) : behindMarks mark text <:+ text := by
  fun_induction behindMarks mark text with
  | case1 => exact List.suffix_refl []
  | case2 c rest ih => exact ih.trans ((List.suffix_cons c rest).trans (List.suffix_cons _ _))
  | case3 c rest => exact (List.drop_suffix 2 rest).trans (List.suffix_cons c rest)
  | case4 c rest _ _ ih => exact ih.trans (List.suffix_cons c rest)

theorem behindLiteral_suffix (mark : Char) (rest : List Char) :
    behindLiteral mark rest <:+ rest := by
  unfold behindLiteral
  split
  · exact (behindMarks_suffix mark _).trans (List.drop_suffix 2 rest)
  · exact behindMark_suffix mark rest

theorem behindComment_suffix (rest : List Char) : behindComment rest <:+ rest :=
  List.dropWhile_suffix _

/-- No less is left of a text than of what is at its end. -/
theorem byteLength_le_of_suffix (h : text <:+ rest) : byteLength text ≤ byteLength rest := by
  obtain ⟨taken, rfl⟩ := h
  rw [Text.byteLength_append]
  exact Nat.le_add_left _ _

/-- The bytes of the first character come before the offset of the next one. -/
theorem offset_next (h : offset + byteLength (c :: rest) = stop) :
    offset + c.utf8Size + byteLength rest = stop := by
  rw [← h, Text.byteLength_cons, Nat.add_assoc]

/-! #### Leaps of the scan -/

/-- The scan of a literal comes to the place behind it, at the offset that the bytes taken lead to. -/
theorem scan_behindMark (hmark : mark ≠ '\\')
    (h : offset + byteLength text = stop + byteLength (behindMark mark text)) :
    scan bound (.quoted mark) 0 n offset text =
      scan bound .code 0 n stop (behindMark mark text) := by
  fun_induction behindMark mark text generalizing offset with
  | case1 => rfl
  | case2 d rest ih =>
      -- the backslash takes the character behind it along
      rw [scan, if_pos rfl, scan]
      exact ih (offset_next (offset_next h))
  | case3 c rest hescape hend =>
      obtain rfl : offset + c.utf8Size = stop := Nat.add_right_cancel (offset_next h)
      have hplain : c ≠ '\\' := by
        rintro rfl
        rcases hend with hend | hend
        · exact hmark hend.symm
        · exact absurd hend (by decide)
      rw [scan, if_neg hplain, if_pos hend]
  | case4 c rest hescape hend ih =>
      by_cases hslash : c = '\\'
      · -- a backslash at the end of the source
        cases rest with
        | nil =>
            rw [scan, if_pos hslash]
            rfl
        | cons d rest => exact absurd rfl (hescape d rest hslash)
      · rw [scan, if_neg hslash, if_neg hend]
        exact ih (offset_next h)

/-- Two marks that were recognized are passed over. -/
theorem scan_passed {mode : Mode} (hmarks : [mark, mark].isPrefixOf text = true)
    (h : offset + byteLength text = stop + byteLength (text.drop 2)) :
    scan bound mode 2 n offset text = scan bound mode 0 n stop (text.drop 2) := by
  obtain ⟨tail, rfl⟩ := List.isPrefixOf_iff_prefix.mp hmarks
  obtain rfl : offset + mark.utf8Size + mark.utf8Size = stop := by
    simp only [List.cons_append, List.nil_append, Text.byteLength_cons, List.drop_succ_cons,
      List.drop_zero] at h
    omega
  rfl

theorem scan_behindMarks (hmark : mark ≠ '\\')
    (h : offset + byteLength text = stop + byteLength (behindMarks mark text)) :
    scan bound (.tripled mark) 0 n offset text =
      scan bound .code 0 n stop (behindMarks mark text) := by
  fun_induction behindMarks mark text generalizing offset with
  | case1 => rfl
  | case2 d rest ih =>
      rw [scan, if_pos rfl, scan]
      exact ih (offset_next (offset_next h))
  | case3 c rest hescape hend =>
      have hplain : c ≠ '\\' := by
        rintro rfl
        exact hmark hend.1.symm
      rw [scan, if_neg hplain, if_pos hend]
      exact scan_passed hend.2 (offset_next h)
  | case4 c rest hescape hend ih =>
      by_cases hslash : c = '\\'
      · cases rest with
        | nil =>
            rw [scan, if_pos hslash]
            rfl
        | cons d rest => exact absurd rfl (hescape d rest hslash)
      · rw [scan, if_neg hslash, if_neg hend]
        exact ih (offset_next h)

theorem scan_behindLiteral (hmark : mark ≠ '\\')
    (h : offset + byteLength rest = stop + byteLength (behindLiteral mark rest)) :
    (if [mark, mark].isPrefixOf rest then scan bound (.tripled mark) 2 n offset rest
      else scan bound (.quoted mark) 0 n offset rest) =
      scan bound .code 0 n stop (behindLiteral mark rest) := by
  unfold behindLiteral at h ⊢
  split
  · rename_i hmarks
    rw [if_pos hmarks] at h
    have hle := byteLength_le_of_suffix (List.drop_suffix 2 rest)
    have hpassed : offset + byteLength rest =
        offset + (byteLength rest - byteLength (rest.drop 2)) + byteLength (rest.drop 2) := by
      omega
    rw [scan_passed hmarks hpassed]
    exact scan_behindMarks hmark (hpassed.symm.trans h)
  · rename_i hmarks
    rw [if_neg hmarks] at h
    exact scan_behindMark hmark h

/-- The scan of a comment comes to the end of its line, which is blank. -/
theorem scan_behindComment
    (h : offset + byteLength text = stop + byteLength (behindComment text)) :
    scan bound .comment 0 n offset text = scan bound .code 0 n stop (behindComment text) := by
  induction text generalizing offset with
  | nil => rfl
  | cons c rest ih =>
      by_cases hline : c = '\n'
      · subst hline
        have hstop : behindComment ('\n' :: rest) = '\n' :: rest := rfl
        rw [hstop] at h ⊢
        obtain rfl : offset = stop := Nat.add_right_cancel h
        rfl
      · have hmore : behindComment (c :: rest) = behindComment rest :=
          List.dropWhile_cons_of_pos (by simpa using hline)
        rw [hmore] at h ⊢
        rw [scan, if_neg hline]
        exact ih (offset_next h)

/-! ### Turns -/

/-- Where the scan is between two turns. -/
structure Place where
  nesting : Nesting
  offset : Nat
  rest : List Char

/-- What a turn comes to. -/
inductive Turn
  | next (p : Place)
  | done (result : Except ParseError Unit)

namespace Place

/-- The beginning of a source. -/
def start (source : List Char) : Place := ⟨Nesting.start, 0, source⟩

/-- A later place, where something is left of the rest. -/
def leap (p : Place) (n : Nesting) (left : List Char) : Place :=
  ⟨n, p.offset + (byteLength p.rest - byteLength left), left⟩

/-- One turn of the scan. -/
def turn (bound : Nat) (p : Place) : Turn :=
  match p.rest with
  | [] => .done p.nesting.finish
  | c :: rest =>
    if c = '"' ∨ c = '\'' then .next (p.leap p.nesting.endSigns (behindLiteral c rest))
    else if c = '/' ∧ ['/'].isPrefixOf rest then .next (p.leap p.nesting (behindComment rest))
    else
      match p.nesting.step bound p.offset c with
      | .going n => .next (p.leap n rest)
      | .settled => .done (.ok ())
      | .exceeded depth => .done (.error ⟨.tooDeep depth bound, ⟨p.offset, p.offset + 1⟩⟩)

/-- What the scan from a place on says. -/
def result (bound : Nat) (p : Place) : Except ParseError Unit :=
  scan bound .code 0 p.nesting p.offset p.rest

variable {p q : Place}

/-- The bytes that a leap takes are those that are no longer left. -/
theorem offset_leap (h : text <:+ p.rest) (n : Nesting) :
    (p.leap n text).offset + byteLength text = p.offset + byteLength p.rest := by
  have hle := byteLength_le_of_suffix h
  show p.offset + (byteLength p.rest - byteLength text) + byteLength text = _
  omega

/-- A turn that is not the last one takes something from the front of the rest, and changes what is
open by the step of a character, or not, but for the signs in a row. -/
theorem eq_of_turn_eq_next (h : p.turn bound = .next q) :
    ∃ c rest left n, p.rest = c :: rest ∧ left <:+ rest ∧ q = p.leap n left ∧
      (n = p.nesting ∨ n = p.nesting.endSigns ∨ p.nesting.step bound p.offset c = .going n) := by
  unfold turn at h
  split at h
  · cases h
  · rename_i c rest hrest
    split at h
    · cases h
      exact ⟨c, rest, _, _, hrest, behindLiteral_suffix c rest, rfl, .inr (.inl rfl)⟩
    split at h
    · cases h
      exact ⟨c, rest, _, _, hrest, behindComment_suffix rest, rfl, .inl rfl⟩
    split at h
    · rename_i n hstep
      cases h
      exact ⟨c, rest, _, _, hrest, List.suffix_refl rest, rfl, .inr (.inr hstep)⟩
    · cases h
    · cases h

/-- The scan goes from a place as its turn says. -/
theorem result_eq (bound : Nat) (p : Place) :
    p.result bound =
      match p.turn bound with
      | .next q => q.result bound
      | .done result => result := by
  obtain ⟨n, offset, text⟩ := p
  cases text with
  | nil => rfl
  | cons c rest =>
      -- wherever a leap leads, the bytes that it takes begin with the character
      have hbytes {left : List Char} (hleft : left <:+ rest) (n' : Nesting) :
          offset + c.utf8Size + byteLength rest =
            (leap ⟨n, offset, c :: rest⟩ n' left).offset + byteLength left := by
        rw [offset_leap (hleft.trans (List.suffix_cons c rest))]
        exact offset_next rfl
      by_cases hquote : c = '"' ∨ c = '\''
      · have hmark : c ≠ '\\' := by
          rintro rfl
          exact absurd hquote (by decide)
        simp only [turn, if_pos hquote, result]
        rw [scan, if_pos hquote]
        exact scan_behindLiteral hmark (hbytes (behindLiteral_suffix c rest) _)
      by_cases hslash : c = '/' ∧ ['/'].isPrefixOf rest = true
      · simp only [turn, if_neg hquote, if_pos hslash, result]
        rw [scan, if_neg hquote, if_pos hslash]
        exact scan_behindComment (hbytes (behindComment_suffix rest) _)
      · simp only [turn, if_neg hquote, if_neg hslash, result]
        rw [scan, if_neg hquote, if_neg hslash]
        cases n.step bound offset c with
        | settled => rfl
        | exceeded depth => rfl
        | going n' =>
            have hoffset : offset + c.utf8Size = (leap ⟨n, offset, c :: rest⟩ n' rest).offset :=
              Nat.add_right_cancel (hbytes (List.suffix_refl rest) n')
            exact congrArg (scan bound .code 0 n' · rest) hoffset

/-- Less is left behind a turn. -/
theorem length_lt_of_turn (h : p.turn bound = .next q) : q.rest.length < p.rest.length := by
  obtain ⟨c, rest, left, n, hrest, hleft, rfl, -⟩ := eq_of_turn_eq_next h
  rw [hrest, List.length_cons]
  exact Nat.lt_succ_of_le hleft.length_le

/-- What stands before a place and what is left there are as many bytes as before the turn. -/
theorem offset_add_of_turn (h : p.turn bound = .next q) :
    q.offset + byteLength q.rest = p.offset + byteLength p.rest := by
  obtain ⟨c, rest, left, n, hrest, hleft, rfl, -⟩ := eq_of_turn_eq_next h
  exact offset_leap (hrest ▸ hleft.trans (List.suffix_cons c rest)) n

theorem offset_lt_of_turn (h : p.turn bound = .next q) : p.offset < q.offset := by
  have hbytes := offset_add_of_turn h
  obtain ⟨c, rest, left, n, hrest, hleft, rfl, -⟩ := eq_of_turn_eq_next h
  have hle := byteLength_le_of_suffix hleft
  have hpos := c.utf8Size_pos
  rw [hrest, Text.byteLength_cons] at hbytes
  have hleap : (p.leap n left).rest = left := rfl
  rw [hleap] at hbytes
  omega

end Place

/-! ### Runs -/

/-- So many turns, or fewer if one of them is the last. -/
def turns (bound : Nat) : Nat → Place → Turn
  | 0, p => .next p
  | k + 1, p =>
    match p.turn bound with
    | .next q => turns bound k q
    | .done result => .done result

/-- What every turn keeps is kept in a run. -/
theorem keeps_turns (good : Place → Prop)
    (hturn : ∀ p q, p.turn bound = .next q → good p → good q) {k : Nat} {p q : Place}
    (hp : good p) (h : turns bound k p = .next q) : good q := by
  induction k generalizing p with
  | zero =>
      cases h
      exact hp
  | succ k ih =>
      rw [turns] at h
      split at h
      · rename_i next hnext
        exact ih (hturn p next hnext hp) h
      · cases h

/-- More turns than characters are left end with what the scan says. -/
theorem turns_eq_done {k : Nat} {p : Place} (h : p.rest.length < k) :
    turns bound k p = .done (p.result bound) := by
  induction k generalizing p with
  | zero => exact absurd h (Nat.not_lt_zero _)
  | succ k ih =>
      have hresult := p.result_eq bound
      rw [turns]
      split
      · rename_i q hnext
        have hlt := Place.length_lt_of_turn hnext
        rw [hnext] at hresult
        rw [ih (by omega), hresult]
      · rename_i result hdone
        rw [hdone] at hresult
        rw [hresult]

/-! ### Counts -/

/-- The counts of what is open agree with each other and keep within the bound. -/
structure Counts (bound : Nat) (n : Nesting) : Prop where
  /-- Every open bracket has a count of question marks, and the source outside them has one. -/
  levels : n.choices.length = n.brackets.length + 1
  total : n.choiceTotal = n.choices.sum
  within : n.weight ≤ bound

namespace Counts

/-- There is a count to take away, and the total is no less than it. -/
theorem exists_level (h : Counts bound n) : ∃ level outer, n.choices = level :: outer ∧
    level ≤ n.choiceTotal ∧ n.choiceTotal - level = outer.sum := by
  obtain ⟨level, outer, hchoices⟩ := List.exists_cons_of_length_eq_add_one h.levels
  have htotal : n.choiceTotal = level + outer.sum := by
    rw [h.total, hchoices, List.sum_cons]
  exact ⟨level, outer, hchoices, by omega, by omega⟩

protected theorem start (bound : Nat) : Counts bound Nesting.start :=
  ⟨rfl, rfl, Nat.zero_le bound⟩

theorem endSigns (h : Counts bound n) : Counts bound n.endSigns := by
  refine ⟨h.levels, h.total, Nat.le_trans ?_ h.within⟩
  simp only [weight, Nesting.endSigns]
  omega

theorem openBracket (h : Counts bound n) (hstep : n.openBracket bound offset c = .going m) :
    Counts bound m := by
  simp only [Nesting.openBracket] at hstep
  split at hstep
  · cases hstep
  · rename_i hdepth
    cases hstep
    refine ⟨?_, ?_, ?_⟩
    · rw [List.length_cons, List.length_cons, h.levels]
    · rw [List.sum_cons, Nat.zero_add, h.total]
    · simp only [weight]
      omega

theorem closeBracket (h : Counts bound n) (hstep : n.closeBracket c = .going m) :
    Counts bound m := by
  obtain ⟨level, outer, hchoices, -, htotal⟩ := h.exists_level
  have hlevels := h.levels
  have hwithin := h.within
  unfold Nesting.closeBracket at hstep
  split at hstep
  · rename_i opening start brackets hbrackets
    split at hstep
    · cases hstep
      rw [hchoices, hbrackets, List.length_cons, List.length_cons] at hlevels
      simp only [weight, hbrackets, List.length_cons] at hwithin
      simp only [hchoices, List.tail_cons, List.headD_cons]
      refine ⟨Nat.succ.inj hlevels, htotal, ?_⟩
      simp only [weight]
      omega
    · cases hstep
  · cases hstep

theorem openChoice (h : Counts bound n) (hstep : n.openChoice bound = .going m) :
    Counts bound m := by
  obtain ⟨level, outer, hchoices, hlevel, htotal⟩ := h.exists_level
  have hlevels := h.levels
  simp only [Nesting.openChoice, hchoices] at hstep
  split at hstep
  · cases hstep
  · rename_i hdepth
    cases hstep
    rw [hchoices] at hlevels
    refine ⟨hlevels, ?_, ?_⟩
    · show n.choiceTotal + 1 = level + 1 + outer.sum
      omega
    · simp only [weight]
      omega

theorem closeChoices (h : Counts bound n) (hstep : n.closeChoices = .going m) :
    Counts bound m := by
  obtain ⟨level, outer, hchoices, -, htotal⟩ := h.exists_level
  have hlevels := h.levels
  have hwithin := h.within
  simp only [Nesting.closeChoices, hchoices] at hstep
  cases hstep
  rw [hchoices] at hlevels
  refine ⟨hlevels, ?_, ?_⟩
  · rw [htotal, List.sum_cons, Nat.zero_add]
  · simp only [weight] at hwithin ⊢
    omega

theorem openSign (h : Counts bound n) (hstep : n.openSign bound = .going m) : Counts bound m := by
  simp only [Nesting.openSign] at hstep
  split at hstep
  · cases hstep
  · rename_i hdepth
    cases hstep
    refine ⟨h.levels, h.total, ?_⟩
    simp only [weight]
    omega

/-- Whatever the character, a step keeps the counts. -/
theorem step (h : Counts bound n) (hstep : n.step bound offset c = .going m) : Counts bound m := by
  unfold Nesting.step at hstep
  split at hstep
  · exact h.openBracket hstep
  split at hstep
  · exact h.closeBracket hstep
  split at hstep
  · exact h.openChoice hstep
  split at hstep
  · exact h.closeChoices hstep
  split at hstep
  · exact h.openSign hstep
  split at hstep
  · cases hstep
    exact h
  · cases hstep
    exact h.endSigns

theorem turn {p q : Place} (hturn : p.turn bound = .next q) (h : Counts bound p.nesting) :
    Counts bound q.nesting := by
  obtain ⟨c, rest, left, n, -, -, rfl, rfl | rfl | hstep⟩ := Place.eq_of_turn_eq_next hturn
  · exact h
  · exact h.endSigns
  · exact h.step hstep

end Counts

/-- A place that the scan of a source comes to is one in the source, and the scan goes on from it to
what it says of the source.  At such a place there is one count of question marks more than there
are open brackets.  Their sum is the total, so that there always is a count to take away, and no more
of it than the total.  All that is open together is within the bound.  Every turn leads to a greater
offset, and the scan ends. -/
theorem turns_keep_counts (bound : Nat) (source : List Char) :
    (∀ k p, turns bound k (.start source) = .next p →
      p.nesting.choices.length = p.nesting.brackets.length + 1 ∧
      p.nesting.choiceTotal = p.nesting.choices.sum ∧
      (∃ level outer, p.nesting.choices = level :: outer ∧ level ≤ p.nesting.choiceTotal) ∧
      p.nesting.brackets.length + p.nesting.choiceTotal + p.nesting.signs ≤ bound ∧
      p.offset + byteLength p.rest = byteLength source ∧
      scan bound .code 0 p.nesting p.offset p.rest = check bound source ∧
      ∀ q, p.turn bound = .next q → p.offset < q.offset) ∧
    turns bound (source.length + 1) (.start source) = .done (check bound source) := by
  refine ⟨fun k p hp => ?_, turns_eq_done (Nat.lt_succ_self source.length)⟩
  have hcounts : Counts bound p.nesting :=
    keeps_turns (fun p => Counts bound p.nesting) (fun _ _ => Counts.turn) (Counts.start bound) hp
  have hoffset : p.offset + byteLength p.rest = byteLength source := by
    refine keeps_turns (fun p => p.offset + byteLength p.rest = byteLength source)
      (fun p q hturn heq => ?_) (Nat.zero_add _) hp
    rw [Place.offset_add_of_turn hturn, heq]
  have hresult : p.result bound = check bound source := by
    refine keeps_turns (fun p => p.result bound = check bound source)
      (fun p q hturn heq => ?_) rfl hp
    rw [← heq, p.result_eq, hturn]
  obtain ⟨level, outer, hchoices, hlevel, -⟩ := hcounts.exists_level
  exact ⟨hcounts.levels, hcounts.total, ⟨level, outer, hchoices, hlevel⟩, hcounts.within, hoffset,
    hresult, fun q => Place.offset_lt_of_turn⟩

/-- A literal that the source ends in, behind a backslash. -/
theorem turns_keep_counts_openLiteral :
    let source := ['(', 'a', '?', '"', '\\']
    let p : Place := ⟨⟨[('(', 0)], [1, 0], 1, 0⟩, 3, ['"', '\\']⟩
    let q : Place := ⟨⟨[('(', 0)], [1, 0], 1, 0⟩, 5, []⟩
    turns 2 3 (.start source) = .next p ∧ p.turn 2 = .next q ∧
      p.nesting.choiceTotal = p.nesting.choices.sum ∧ p.offset < q.offset ∧
      scan 2 .code 0 p.nesting p.offset p.rest = check 2 source ∧
      turns 2 6 (.start source) = .done (.error ⟨.unclosed '(', ⟨0, 1⟩⟩) := by
  intro source p q
  have hp : turns 2 3 (.start source) = .next p := rfl
  have hq : p.turn 2 = .next q := rfl
  obtain ⟨hplaces, hend⟩ := turns_keep_counts 2 source
  obtain ⟨-, htotal, -, -, -, hresult, hturn⟩ := hplaces 3 p hp
  exact ⟨hp, hq, htotal, hturn q hq, hresult, hend⟩

end EmbeddedExpr.Grammar.Nesting
