import EmbeddedExpr.Proofs.Grammar.Balance
import EmbeddedExpr.Proofs.Grammar.Spelling

/-!
# What is read is laid out and spelled

What a reader takes is a run of lexemes that spells what it yields.  This is said backwards, from
what it leaves to where it began: if what is left is a sequence of lexemes, so is the whole
(`Spells`).  For where a lexeme ends is known only from what follows it: the reader of `<` is also
content with the beginning of `<=`, but behind it nothing then makes an operand.

What a reader yields between two places is told by a relation.  After a step of a sequence of
readers the relation that is left to show has what is known of the step as a premise
(`Spells.bind`).
-/

namespace EmbeddedExpr.Grammar

open Scanner (lexeme)

/-- What stands at a place of a source, and which brackets are open there. -/
structure Place where
  stage : Stage
  brackets : List Char

/-- A text at a place is a sequence of lexemes. -/
def Place.Lays (p : Place) (text : List Char) : Prop := ∃ xs, Laid p.stage p.brackets text xs

namespace Reader

variable {α β : Type} {front : Bool} {p q s : Place} {c c' : Cursor}
  {R S : Cursor → α → Cursor → Prop}

/-! ### Outcomes -/

theorem of_outcome_bind {r : Reader α} {next : α → Reader β} {b : β}
    (h : ((r >>= next) c).outcome = some (b, c')) :
    ∃ a middle, (r c).outcome = some (a, middle) ∧ (next a middle).outcome = some (b, c') := by
  change (Reader.andThen r next c).outcome = some (b, c') at h
  simp only [Reader.andThen] at h
  cases hfirst : (r c).outcome with
  | none => simp [hfirst] at h
  | some pair => exact ⟨pair.1, pair.2, rfl, by simpa [hfirst] using h⟩

theorem outcome_orElse (first second : Reader α) (c : Cursor) :
    (Reader.orElse first second c).outcome = ((first c).outcome <|> (second c).outcome) := by
  simp only [Reader.orElse]
  cases h : (first c).outcome with
  | none => rfl
  | some pair => exact h

theorem outcome_tried (construct : Construct) (r : Reader α) (c : Cursor) :
    (tried construct r c).outcome = (r c).outcome := by
  simp only [Reader.tried]
  cases h : (r c).outcome with
  | none => rfl
  | some pair => exact h

/-! ### Runs of lexemes -/

/-- If what the reader leaves is laid out, so is what it began with, and what it yields stands
between the two places as the relation says.  Some readers need to begin behind layout. -/
def Spells (front : Bool) (p q : Place) (R : Cursor → α → Cursor → Prop) (r : Reader α) : Prop :=
  ∀ c a c', (front = true → behindLayout c.rest = c.rest) → (r c).outcome = some (a, c') →
    q.Lays c'.rest → p.Lays c.rest ∧ R c a c'

theorem spells_pure {a : α} (h : ∀ c, R c a c) : Spells front p p R (pure a : Reader α) := by
  intro c b c' _ heq hlays
  cases heq
  exact ⟨hlays, h c⟩

theorem spells_fail : Spells front p q R (fail : Reader α) := fun _ _ _ _ heq => by cases heq

theorem Spells.imp {r : Reader α} (h : Spells front p q R r)
    (himp : ∀ c a c', R c a c' → S c a c') : Spells front p q S r := by
  intro c a c' hsettled heq hlays
  obtain ⟨hbefore, ha⟩ := h c a c' hsettled heq hlays
  exact ⟨hbefore, himp c a c' ha⟩

theorem Spells.inFront {r : Reader α} (h : Spells front p q R r) : Spells true p q R r :=
  fun c a c' hsettled => h c a c' fun _ => hsettled rfl

theorem Spells.anywhere {r : Reader α} (h : Spells false p q R r) : Spells front p q R r :=
  fun c a c' _ => h c a c' nofun

/-- Where the reader begins behind layout, this is known of what it yields. -/
theorem Spells.settled {r : Reader α}
    (h : Spells true p q (fun c a c' => c.skip = c → R c a c') r) : Spells true p q R r :=
  fun c a c' hsettled heq hlays =>
    (h c a c' hsettled heq hlays).imp_right fun ha => ha (Cursor.skip_eq_self (hsettled rfl))

theorem Spells.mono {r : Reader α} {stage : Stage} (h : Spells front p q R r)
    (hstage : ∀ x, stage.admits x = true → q.stage.admits x = true) :
    Spells front p ⟨stage, q.brackets⟩ R r :=
  fun c a c' hsettled heq ⟨xs, hxs⟩ => h c a c' hsettled heq ⟨xs, hxs.mono hstage⟩

/-- What the first reader yielded is known behind it. -/
theorem Spells.bind {T : Cursor → β → Cursor → Prop} {r : Reader α} {next : α → Reader β}
    (h : Spells front p q R r)
    (hnext : ∀ a, Spells false q s (fun d b c' => ∀ c, R c a d → T c b c') (next a)) :
    Spells front p s T (r >>= next) := by
  intro c b c' hsettled heq hlays
  obtain ⟨a, middle, hfirst, hsecond⟩ := of_outcome_bind heq
  obtain ⟨hmiddle, hb⟩ := hnext a middle b c' nofun hsecond hlays
  obtain ⟨hbefore, ha⟩ := h c a middle hsettled hfirst hmiddle
  exact ⟨hbefore, hb c ha⟩

theorem spells_layout {T : Cursor → β → Cursor → Prop} {next : Unit → Reader β}
    (h : Spells true p q (fun d b c' => ∀ c : Cursor, c.skip = d → T c b c') (next ())) :
    Spells front p q T (layout >>= next) := by
  intro c b c' _ heq hlays
  obtain ⟨a, middle, hfirst, hsecond⟩ := of_outcome_bind heq
  cases hfirst
  have hskip : behindLayout c.skip.rest = behindLayout c.rest := by
    rw [c.rest_skip, behindLayout_behindLayout]
  obtain ⟨⟨xs, hxs⟩, hb⟩ :=
    h c.skip b c' (fun _ => hskip.trans c.rest_skip.symm) hsecond hlays
  exact ⟨⟨xs, hxs.congr hskip.symm⟩, hb c rfl⟩

theorem Spells.orElse {first second : Reader α} (hfirst : Spells front p q R first)
    (hsecond : Spells front p q R second) : Spells front p q R (Reader.orElse first second) := by
  intro c a c' hsettled heq
  rw [outcome_orElse, Option.orElse_eq_some] at heq
  rcases heq with heq | ⟨-, heq⟩
  · exact hfirst c a c' hsettled heq
  · exact hsecond c a c' hsettled heq

theorem spells_oneOf {readers : List (Reader α)} (h : ∀ r ∈ readers, Spells front p q R r) :
    Spells front p q R (oneOf readers) := by
  induction readers with
  | nil => exact spells_fail
  | cons r rest ih =>
      exact (h r List.mem_cons_self).orElse (ih fun other hother => h other (.tail _ hother))

/-- What is yielded is as the relation says, or nothing was read. -/
def Perhaps (R : Cursor → α → Cursor → Prop) (c : Cursor) : Option α → Cursor → Prop
  | some a, c' => R c a c'
  | none, c' => c' = c

/-- Where nothing is read, what may stand behind it stands here. -/
theorem Spells.optional {stage : Stage} {r : Reader α} (h : Spells front p ⟨stage, p.brackets⟩ R r)
    (hstage : ∀ x, stage.admits x = true → p.stage.admits x = true) :
    Spells front p ⟨stage, p.brackets⟩ (Perhaps R) (Reader.optional r) := by
  have hnone : Spells front p p (Perhaps R) (done none : Reader (Option α)) :=
    spells_pure fun _ => rfl
  exact Spells.orElse (h.bind fun a => spells_pure fun _ _ ha => ha) (hnone.mono hstage)

theorem spells_offset : Spells front p p (fun c a c' => a = c.offset ∧ c' = c) offset := by
  intro c a c' _ heq hlays
  cases heq
  exact ⟨hlays, rfl, rfl⟩

theorem Spells.tried {r : Reader α} (h : Spells front p q R r) (construct : Construct) :
    Spells front p q R (Reader.tried construct r) := by
  intro c a c' hsettled heq
  rw [outcome_tried] at heq
  exact h c a c' hsettled heq

theorem Spells.spanned {r : Reader α} (h : Spells false p q R r) :
    Spells front p q (fun c found c' => found.1 = ⟨c.offset, c'.offset⟩ ∧ R c found.2 c')
      (Reader.spanned r) := by
  refine spells_offset.bind fun start => h.bind fun a => spells_offset.bind fun stop => ?_
  rintro c _ _ - ⟨⟩ hlays
  refine ⟨hlays, ?_⟩
  rintro _ ⟨rfl, rfl⟩ d hd _ ⟨rfl, rfl⟩
  exact ⟨rfl, hd⟩

/-- Results one behind the other, with layout between them. -/
inductive Turns (R : Cursor → α → Cursor → Prop) : Cursor → List α → Cursor → Prop
  | nil (c : Cursor) : Turns R c [] c
  | cons {c d e f : Cursor} {a : α} {as : List α} : c.skip = d.skip → R d a e → Turns R e as f →
      Turns R c (a :: as) f

theorem Spells.following {r : Reader α} (h : Spells true p p R r) (fuel : Nat) :
    Spells front p p (Turns R) (Reader.following r fuel) := by
  induction fuel generalizing front with
  | zero => exact spells_pure .nil
  | succ fuel ih =>
      refine Spells.orElse (spells_layout ?_) (spells_pure .nil)
      refine h.bind fun a => ih.bind fun more => spells_pure ?_
      rintro f e hmore d ha c rfl
      exact .cons c.skip_skip.symm ha hmore

theorem Spells.many {r : Reader α} (h : Spells front p p R r) (fuel : Nat) :
    Spells front p p (Turns R) (Reader.many r fuel) := by
  refine Spells.orElse ?_ (spells_pure .nil)
  refine h.bind fun a => (h.inFront.following fuel).bind fun more => spells_pure ?_
  exact fun f e hmore d ha => .cons rfl ha hmore

/-! ### Single lexemes -/

/-- The lexeme is taken, with no layout in front of it. -/
def Over (x : Lexeme) (c : Cursor) (_ : α) (c' : Cursor) : Prop := c.skip = c ∧ c.Next x c'

/-- A reader that takes one lexeme, as what it leaves shows. -/
theorem spells_of_lexeme {r : Reader α} {value : Lexeme → α → Prop}
    (h : ∀ c a c', (front = true → behindLayout c.rest = c.rest) → (r c).outcome = some (a, c') →
      q.Lays c'.rest → ∃ x, lexeme c.rest = some (x, c'.rest) ∧
        c'.offset = c.offset + Text.byteLength x.text ∧ p.stage.admits x = true ∧
          x.nest? p.brackets = some q.brackets ∧ x.after = q.stage ∧ value x a) :
    Spells front p q (fun c a c' => ∃ x, value x a ∧ Over x c a c') r := by
  rintro c a c' hsettled heq ⟨xs, hxs⟩
  obtain ⟨x, hlexeme, hoffset, hadmits, hnest, hafter, hvalue⟩ := h c a c' hsettled heq ⟨xs, hxs⟩
  rw [← hafter] at hxs
  have hskip := Cursor.skip_eq_self (settled_of_lexeme hlexeme)
  refine ⟨⟨x :: xs, .cons ?_ hadmits hnest hxs⟩, x, hvalue, hskip, ?_⟩
  · rwa [settled_of_lexeme hlexeme]
  · exact ⟨by rw [hskip, hlexeme], by rw [hskip, hoffset], hxs.ends_after⟩

theorem spells_expect {m : List Char} (hm : m ∈ Scanner.marks)
    (hadmits : p.stage.admits (.mark m) = true)
    (hnest : (Lexeme.mark m).nest? p.brackets = some q.brackets)
    (hafter : (Lexeme.mark m).after = q.stage) (hslash : m = ['/'] → front = true) :
    Spells front p q (Over (.mark m)) (expect m) := by
  have hmark : Spells front p q (fun c a c' => ∃ x, x = .mark m ∧ Over x c a c') (expect m) := by
    refine spells_of_lexeme fun c a c' hsettled heq hlays => ?_
    unfold expect at heq
    split at heq
    · rename_i hbegins
      cases heq
      obtain ⟨rest, hrest⟩ := List.isPrefixOf_iff_prefix.mp hbegins
      obtain ⟨xs, hxs⟩ := hlays
      refine ⟨.mark m, ?_, rfl, hadmits, hnest, hafter, rfl⟩
      rw [← hafter] at hxs
      simp only [Cursor.advance, ← hrest, List.drop_left] at hsettled hxs ⊢
      refine (Scanner.lexeme_mark_iff hm).mpr ⟨?_, fun hmem => ?_, ?_⟩
      · rintro rfl
        exact hxs.not_digit
      · have hoperand : ∀ m ∈ [['<'], ['>'], ['!']], (Lexeme.mark m).after = .operand := by decide
        rw [hoperand m hmem] at hxs
        exact hxs.not_equals
      · rintro rfl
        exact not_comment_of_settled (hsettled (hslash rfl))
    · cases heq
  refine hmark.imp ?_
  rintro c a c' ⟨_, rfl, hover⟩
  exact hover

/-- A mark that is no bracket. -/
theorem spells_plain {m : List Char} {stage : Stage} {b : List Char} (hm : m ∈ Scanner.marks)
    (hadmits : stage.admits (.mark m) = true) (hplain : ∀ c ∈ m.head?,
      Nesting.isOpening c = false ∧ Nesting.opening? c = none)
    (hslash : m = ['/'] → front = true) :
    Spells front ⟨stage, b⟩ ⟨(Lexeme.mark m).after, b⟩ (Over (.mark m)) (expect m) := by
  refine spells_expect hm hadmits ?_ rfl hslash
  unfold Lexeme.nest?
  split
  · rename_i c heq
    cases heq
    obtain ⟨hopening, hclosing⟩ := hplain c rfl
    simp [hopening, hclosing]
  · rfl

theorem spells_opening {stage : Stage} {b : List Char} {opening closing : Char}
    (h : Nesting.opening? closing = some opening)
    (hadmits : stage.admits (.mark [opening]) = true) :
    Spells front ⟨stage, b⟩ ⟨.operand, opening :: b⟩ (Over (.mark [opening]))
      (expect [opening]) := by
  have hbrackets : ∀ opening ∈ ['(', '[', '\x7b'], [opening] ∈ Scanner.marks ∧
      Nesting.isOpening opening = true ∧ (Lexeme.mark [opening]).after = .operand ∧
        [opening] ≠ ['/'] := by decide
  have hmem : opening ∈ ['(', '[', '\x7b'] := by
    simpa [Nesting.isOpening, or_assoc] using (Nesting.brackets_spec h).1
  obtain ⟨hm, hopening, hafter, hne⟩ := hbrackets opening hmem
  exact spells_expect hm hadmits (if_pos hopening) hafter (absurd · hne)

theorem spells_closing {stage : Stage} {b : List Char} {opening closing : Char}
    (h : Nesting.opening? closing = some opening)
    (hadmits : stage.admits (.mark [closing]) = true) :
    Spells front ⟨stage, opening :: b⟩ ⟨.operator, b⟩ (Over (.mark [closing]))
      (expect [closing]) := by
  have hbrackets : ∀ closing ∈ [')', ']', '\x7d'], [closing] ∈ Scanner.marks ∧
      (Lexeme.mark [closing]).after = .operator ∧ [closing] ≠ ['/'] := by decide
  have hmem : closing ∈ [')', ']', '\x7d'] := by
    unfold Nesting.opening? at h
    split at h <;> simp at h ⊢
  obtain ⟨hm, hafter, hne⟩ := hbrackets closing hmem
  refine spells_expect hm hadmits ?_ hafter (absurd · hne)
  simp [Lexeme.nest?, (Nesting.brackets_spec h).2.1, h]

theorem spells_literal {entry : Construct × Scanner Token} {b : List Char}
    (hmem : entry ∈ literals) : Spells front ⟨.operand, b⟩ ⟨.operator, b⟩
      (fun c token c' => ∃ x : Lexeme, x.token? = some token ∧ Over x c token c')
      (scan entry.2) := by
  refine spells_of_lexeme fun c token c' _ heq hlays => ?_
  unfold scan at heq
  split at heq
  · rename_i found taken rest hfound
    cases heq
    obtain ⟨xs, hxs⟩ := hlays
    have happend := Level.splits_of_mem_literals entry hmem _ _ _ _ hfound
    have hliteral := Scanner.literal_of_entry hmem hfound hxs.ends id
    rw [Cursor.advance, happend] at hliteral
    exact ⟨.literal token taken, by simp only [lexeme, hliteral]; rfl, rfl, rfl, rfl, rfl, rfl⟩
  · cases heq

theorem spells_name_token {stage : Stage} {b : List Char}
    (hadmits : ∀ text, stage.admits (.name text) = true) :
    Spells front ⟨stage, b⟩ ⟨.operator, b⟩
      (fun c token c' => ∃ text, token = .name text ∧ Over (.name text) c token c')
      (scan Scanner.name) := by
  have hname : Spells front ⟨stage, b⟩ ⟨.operator, b⟩
      (fun c token c' => ∃ x, (∃ text, x = .name text ∧ token = .name text) ∧ Over x c token c')
      (scan Scanner.name) := by
    refine spells_of_lexeme fun c token c' _ heq hlays => ?_
    unfold scan at heq
    split at heq
    · rename_i found taken rest hfound
      cases heq
      obtain ⟨xs, hxs⟩ := hlays
      have happend := Scanner.name_splits _ _ _ _ hfound
      obtain ⟨htoken, -, hstop, -, -⟩ := Scanner.name_spec hfound
      have hliteral := Scanner.literal_none_of_name hfound hstop hxs.ends.unquoted
      rw [happend] at hliteral
      exact ⟨.name taken, by simp only [lexeme, hliteral, hfound]; rfl, rfl, hadmits _, rfl, rfl,
        taken, rfl, htoken⟩
    · cases heq
  refine hname.imp ?_
  rintro c token c' ⟨_, ⟨text, rfl, htoken⟩, hover⟩
  exact ⟨text, htoken, hover⟩

theorem spells_name {stage : Stage} {b : List Char}
    (hadmits : ∀ text, stage.admits (.name text) = true) :
    Spells front ⟨stage, b⟩ ⟨.operator, b⟩ (fun c text c' => Over (.name text) c text c') name := by
  refine ((spells_name_token hadmits).tried .name).bind fun token => ?_
  split
  · refine spells_pure ?_
    rintro d c ⟨text, heq, hover⟩
    cases heq
    exact hover
  · exact spells_fail

theorem spells_membership {b : List Char} :
    Spells front ⟨.operator, b⟩ ⟨.operand, b⟩ (Over (.mark ['i', 'n']))
      (scan (Scanner.word ['i', 'n'])) := by
  have hword : Spells front ⟨.operator, b⟩ ⟨.operand, b⟩
      (fun c u c' => ∃ x, x = .mark ['i', 'n'] ∧ Over x c u c')
      (scan (Scanner.word ['i', 'n'])) := by
    refine spells_of_lexeme fun c u c' _ heq _ => ?_
    unfold scan at heq
    split at heq
    · rename_i found taken rest hfound
      cases heq
      obtain ⟨rfl, htext, hstop⟩ := Scanner.word_spec hfound
      exact ⟨.mark ['i', 'n'], htext ▸ Scanner.lexeme_in hstop, rfl, rfl, rfl, rfl, rfl⟩
    · cases heq
  refine hword.imp ?_
  rintro c u c' ⟨_, rfl, hover⟩
  exact hover

/-! ### Rows of items -/

theorem exists_map_eq {f : β → α} {good : β → Prop} {as : List α}
    (h : ∀ a ∈ as, ∃ b, f b = a ∧ good b) : ∃ bs : List β, bs.map f = as ∧ ∀ b ∈ bs, good b := by
  induction as with
  | nil => exact ⟨[], rfl, nofun⟩
  | cons a as ih =>
      obtain ⟨⟨b, rfl, hb⟩, has⟩ := List.forall_mem_cons.mp h
      obtain ⟨bs, rfl, hbs⟩ := ih has
      exact ⟨b :: bs, rfl, List.forall_mem_cons.mpr ⟨hb, hbs⟩⟩

/-- What is yielded is a good piece, possibly with layout behind it. -/
def Makes (good : Piece α → Prop) (c : Cursor) (a : α) (c' : Cursor) : Prop :=
  ∃ xs d, good ⟨a, c, xs, d⟩ ∧ d.skip = c'.skip

/-- What is yielded are good pieces in a row between brackets. -/
def Boxes (good : Piece α → Prop) (opening closing : Char) (c : Cursor) (as : List α)
    (c' : Cursor) : Prop :=
  ∃ pieces xs, as = pieces.map Piece.value ∧ (∀ piece ∈ pieces, good piece) ∧ c.skip = c ∧
    Boxed opening closing pieces c xs c'

section Rows

variable {good : Piece α → Prop} {item : Reader α} {fuel : Nat} {b : List Char}

/-- Items each of which follows a comma make a row with the piece in front of them. -/
theorem exists_row {c c' e : Cursor} {more : List α} {piece : Piece α}
    (h : Turns (fun c a c' => ∃ d, c.Next (.mark [',']) d ∧ Makes good d.skip a c') c more c')
    (hpiece : good piece) (hstop : piece.stop.skip = c.skip)
    (hend : c'.skip = e.skip ∨ c'.Next (.mark [',']) e) :
    ∃ pieces xs d, more = pieces.map Piece.value ∧ (∀ p ∈ piece :: pieces, good p) ∧
      Row (piece :: pieces) piece.start xs d ∧ d.skip = e.skip := by
  induction h generalizing piece with
  | nil c =>
      refine ⟨[], ?_⟩
      rcases hend with hend | hcomma
      · exact ⟨_, _, rfl, List.forall_mem_singleton.mpr hpiece, .last piece, hstop.trans hend⟩
      · exact ⟨_, _, rfl, List.forall_mem_singleton.mpr hpiece,
          .cons (hcomma.congr hstop.symm) (.nil e.skip), e.skip_skip⟩
  | cons hlayout hitem _ ih =>
      obtain ⟨d, hcomma, xs, stop, hgood, hbehind⟩ := hitem
      obtain ⟨pieces, ys, f, rfl, hpieces, hrow, hf⟩ := ih hgood hbehind hend
      refine ⟨⟨_, d.skip, xs, stop⟩ :: pieces, _, f, rfl,
        List.forall_mem_cons.mpr ⟨hpiece, hpieces⟩, .cons (hcomma.congr ?_) hrow, hf⟩
      rw [← hlayout, hstop]

theorem spells_commaSeparated
    (h : ∀ b, Spells true ⟨.operand, b⟩ ⟨.operator, b⟩ (Makes good) item) :
    Spells true ⟨.operand, b⟩ ⟨.closing, b⟩
      (fun c as c' => ∃ pieces xs d, as = pieces.map Piece.value ∧ (∀ p ∈ pieces, good p) ∧
        Row pieces c xs d ∧ d.skip = c'.skip) (commaSeparated item fuel) := by
  have hcomma : Spells true ⟨.operator, b⟩ ⟨.operand, b⟩ (Over (.mark [','])) (expect [',']) :=
    spells_plain (by decide) rfl (by decide) fun _ => rfl
  have hnext : Spells true ⟨.operator, b⟩ ⟨.operator, b⟩
      (fun c a c' => ∃ d, c.Next (.mark [',']) d ∧ Makes good d.skip a c')
      (do expect [',']; layout; item) := by
    refine hcomma.bind fun _ => spells_layout ((h b).imp ?_)
    rintro _ a c' hmakes d rfl c ⟨-, hcomma⟩
    exact ⟨d, hcomma, hmakes⟩
  have hlast : Spells true ⟨.operator, b⟩ ⟨.closing, b⟩ (Perhaps (Over (.mark [','])))
      (Reader.optional (expect [','])) :=
    (hcomma.mono fun _ hx => (Stage.admits_of_closing hx).1).optional
      fun _ hx => (Stage.admits_of_closing hx).2
  refine (h b).bind fun first => spells_layout ?_
  refine (hnext.many fuel).bind fun more => spells_layout ?_
  refine hlast.bind fun last => spells_pure ?_
  rintro e _ hend c' rfl d hmore f rfl c ⟨xs, stop, hfirst, hstop⟩
  have hend' : c'.skip = e.skip ∨ c'.Next (.mark [',']) e := by
    cases last with
    | none => exact .inl (by rw [show e = c'.skip from hend, c'.skip_skip])
    | some _ => exact .inr (hend.2.congr c'.skip_skip)
  obtain ⟨pieces, ys, g, rfl, hpieces, hrow, hg⟩ :=
    exists_row hmore hfirst (hstop.trans f.skip_skip.symm) hend'
  exact ⟨_, ys, g, rfl, hpieces, hrow, hg⟩

theorem spells_enclosed {stage : Stage} {opening closing : Char}
    (hclosing : Nesting.opening? closing = some opening)
    (hadmits : stage.admits (.mark [opening]) = true)
    (h : ∀ b, Spells true ⟨.operand, b⟩ ⟨.operator, b⟩ (Makes good) item) :
    Spells front ⟨stage, b⟩ ⟨.operator, b⟩ (Boxes good opening closing)
      (enclosed opening closing item fuel) := by
  refine (spells_opening hclosing hadmits).bind fun _ => spells_layout ?_
  have hitems : Spells true ⟨.operand, opening :: b⟩ ⟨.closing, opening :: b⟩ _
      (commaSeparated item fuel) := spells_commaSeparated h
  have hperhaps := hitems.optional fun _ hx => (Stage.admits_of_closing hx).1
  refine hperhaps.bind fun items => spells_layout ?_
  have hend : Stage.closing.admits (.mark [closing]) = true := by
    unfold Nesting.opening? at hclosing
    split at hclosing <;> first | rfl | cases hclosing
  refine (spells_closing hclosing hend).bind fun _ => spells_pure ?_
  rintro f _ ⟨-, hlast⟩ d rfl _ hfound g rfl c ⟨hsettled, hfirst⟩
  have hlast' := hlast.congr d.skip_skip
  cases items with
  | none =>
      obtain rfl : d = g.skip := hfound
      exact ⟨[], _, rfl, nofun, hsettled, .intro hfirst (.nil g.skip) hlast'⟩
  | some items =>
      obtain ⟨pieces, xs, stop, rfl, hpieces, hrow, hstop⟩ := hfound
      exact ⟨pieces, _, rfl, hpieces, hsettled, .intro hfirst hrow (hlast'.congr hstop.symm)⟩

end Rows

/-! ### Links, signs and selections -/

open Phrase (IsSpelled)

/-- The link stands between the two places. -/
def Joins (c : Cursor) : Link → Cursor → Prop
  | .op op, c' => c.Next (.mark op.symbol) c'
  | .choice t, c' => ∃ d xs e, c.Next (.mark ['?']) d ∧ t.Spelled d.skip xs e ∧
      e.Next (.mark [':']) c'

/-- Attached to a phrase that ends here, the link and the operand go on with its lexemes. -/
def Attaches (c : Cursor) (link : Link × Phrase) (c' : Cursor) : Prop :=
  ∃ ys d, d.skip = c'.skip ∧ ∀ (p : Phrase) (b : Cursor) (xs : List Lexeme) (e : Cursor),
    p.Spelled b xs e → e.skip = c.skip → (p.attach link).Spelled b (xs ++ ys) d

/-- Selected from a phrase that ends here, the selection goes on with its lexemes. -/
def Selects (c : Cursor) (selection : Selection) (c' : Cursor) : Prop :=
  ∃ ys d, d.skip = c'.skip ∧ ∀ (p : Phrase) (b : Cursor) (xs : List Lexeme) (e : Cursor),
    p.Spelled b xs e → p.IsTarget → e.skip = c.skip →
      (p.select selection).Spelled b (xs ++ ys) d ∧ (p.select selection).IsTarget

/-- The sign stands between the two places. -/
def Signs (c : Cursor) (s : Nat × UnaryOp) (c' : Cursor) : Prop :=
  s.1 = c.offset ∧ Over (.mark s.2.symbol.toList) c s c'

theorem attaches_of_joins {c d e c' : Cursor} {link : Link} {right : Phrase} {xs : List Lexeme}
    (h : Joins c link d) (hright : right.Spelled d.skip xs e) (hlevel : right.level = 6)
    (hstop : e.skip = c'.skip) : Attaches c (link, right) c' := by
  cases link with
  | op op =>
      refine ⟨.mark op.symbol :: xs, e, hstop, fun p b ys f hp hf => ?_⟩
      exact hp.attachOp (Cursor.Next.congr h hf.symm) hright hlevel
  | choice t =>
      obtain ⟨d, ys, f, hquestion, ht, hcolon⟩ := h
      refine ⟨.mark ['?'] :: (ys ++ .mark [':'] :: xs), e, hstop, fun p b zs g hp hg => ?_⟩
      exact hp.attachChoice (hquestion.congr hg.symm) ht hcolon hright

theorem spelled_chain {c c' b e : Cursor} {links : List (Link × Phrase)} {p : Phrase}
    {xs : List Lexeme} (h : Turns Attaches c links c') (hp : p.Spelled b xs e)
    (hstop : e.skip = c.skip) :
    ∃ ys d, (Phrase.chain p links).Spelled b ys d ∧ d.skip = c'.skip := by
  induction h generalizing p xs e with
  | nil c => exact ⟨xs, e, hp, hstop⟩
  | cons hlayout hlink _ ih =>
      obtain ⟨ys, d, hd, hattach⟩ := hlink
      exact ih (hattach p b xs e hp (hstop.trans hlayout)) hd

theorem spelled_selections {c c' b e : Cursor} {selections : List Selection} {p : Phrase}
    {xs : List Lexeme} (h : Turns Selects c selections c') (hp : p.Spelled b xs e)
    (htarget : p.IsTarget) (hstop : e.skip = c.skip) :
    ∃ ys d, (selections.foldl Phrase.select p).Spelled b ys d ∧
      (selections.foldl Phrase.select p).IsTarget ∧ d.skip = c'.skip := by
  induction h generalizing p xs e with
  | nil c => exact ⟨xs, e, hp, htarget, hstop⟩
  | cons hlayout hselection _ ih =>
      obtain ⟨ys, d, hd, hselect⟩ := hselection
      obtain ⟨hselected, htarget'⟩ := hselect p b xs e hp htarget (hstop.trans hlayout)
      exact ih hselected htarget' hd

theorem spelled_signed {c c' e : Cursor} {signs : List (Nat × UnaryOp)} {p : Phrase}
    {xs : List Lexeme} (h : Turns Signs c signs c') (hp : p.Spelled c'.skip xs e)
    (hlevel : p.level = 6) :
    ∃ ys, (Phrase.signed signs p).Spelled c.skip ys e ∧ (Phrase.signed signs p).level = 6 := by
  induction h with
  | nil c => exact ⟨xs, hp, hlevel⟩
  | @cons c d f g s signs hlayout hsign _ ih =>
      obtain ⟨start, op⟩ := s
      obtain ⟨rfl, hsettled, hmark⟩ := hsign
      obtain ⟨ys, hrest, hrestLevel⟩ := ih hp
      have hsigned := Phrase.Spelled.sign hmark hrest hrestLevel
      rw [hsettled] at hsigned hlayout
      rw [hlayout]
      exact ⟨_, hsigned, rfl⟩

/-! ### The grammar -/

section Constructs

variable {fuel : Nat} {phrase : Reader Phrase} {b : List Char}

/-- The reader of the phrases one level down yields what the lexemes spell. -/
def SpellsPhrases (phrase : Reader Phrase) : Prop :=
  ∀ b, Spells true ⟨.operand, b⟩ ⟨.operator, b⟩ (Makes IsSpelled) phrase

namespace SpellsPhrases

theorem arguments (h : SpellsPhrases phrase) (b : List Char) :
    Spells front ⟨.operator, b⟩ ⟨.operator, b⟩ (Boxes IsSpelled '(' ')')
      (arguments phrase fuel) :=
  (spells_enclosed rfl rfl h).tried .arguments

/-- A phrase between brackets. -/
theorem between {stage : Stage} {next : Phrase → Reader β} {T : Cursor → β → Cursor → Prop}
    (h : SpellsPhrases phrase) (opening closing : Char)
    (hclosing : Nesting.opening? closing = some opening)
    (hadmits : stage.admits (.mark [opening]) = true)
    (hend : Stage.operator.admits (.mark [closing]) = true)
    (hnext : ∀ p, Spells false ⟨.operator, b⟩ q (fun f a c' => ∀ c d e xs, c.skip = c →
      c.Next (.mark [opening]) d → p.Spelled d.skip xs e → e.Next (.mark [closing]) f →
        T c a c') (next p)) :
    Spells front ⟨stage, b⟩ q T (do
      expect [opening]
      layout
      let inner ← phrase
      layout
      expect [closing]
      next inner) := by
  refine (spells_opening hclosing hadmits).bind fun _ => spells_layout ?_
  refine (h _).bind fun inner => spells_layout ?_
  refine (spells_closing hclosing hend).bind fun _ => (hnext inner).imp ?_
  rintro f a c' hnext _ ⟨-, hlast⟩ e rfl _ ⟨xs, stop, hinner, hstop⟩ d rfl c ⟨hsettled, hfirst⟩
  exact hnext c d stop xs hsettled hfirst hinner (hlast.congr (e.skip_skip.trans hstop.symm))

theorem link (h : SpellsPhrases phrase) (b : List Char) :
    Spells true ⟨.operator, b⟩ ⟨.operand, b⟩ Joins (link phrase) := by
  have hmarks : ∀ entry ∈ infixMarks ++ arithMarks, entry.2.1 ∈ Scanner.marks ∧
      Stage.operator.admits (.mark entry.2.1) = true ∧ (Lexeme.mark entry.2.1).after = .operand ∧
        entry.2.2.symbol = entry.2.1 ∧
          ∀ c ∈ entry.2.1.head?, Nesting.isOpening c = false ∧ Nesting.opening? c = none := by
    decide
  have hmarked : ∀ entry ∈ infixMarks ++ arithMarks,
      Spells true ⟨.operator, b⟩ ⟨.operand, b⟩ Joins (marked entry) := by
    intro entry hentry
    obtain ⟨hm, hadmits, hafter, hsymbol, hplain⟩ := hmarks entry hentry
    have hmark : Spells true ⟨.operator, b⟩ ⟨_, b⟩ (Over (.mark entry.2.1)) (expect entry.2.1) :=
      spells_plain hm hadmits hplain fun _ => rfl
    rw [hafter] at hmark
    refine (hmark.tried _).bind fun _ => spells_pure ?_
    rintro d c ⟨-, hnext⟩
    rwa [← hsymbol] at hnext
  refine spells_oneOf fun r hr => ?_
  simp only [List.cons_append, List.mem_cons, List.mem_append, List.mem_map] at hr
  rcases hr with rfl | ⟨entry, hentry, rfl⟩ | rfl | ⟨entry, hentry, rfl⟩
  · refine Spells.tried ?_ _
    have hquestion : Spells true ⟨.operator, b⟩ ⟨.operand, b⟩ (Over (.mark ['?']))
        (expect ['?']) := spells_plain (by decide) rfl (by decide) fun _ => rfl
    have hcolon : Spells true ⟨.operator, b⟩ ⟨.operand, b⟩ (Over (.mark [':']))
        (expect [':']) := spells_plain (by decide) rfl (by decide) fun _ => rfl
    refine hquestion.bind fun _ => spells_layout ((h b).bind fun whenTrue => ?_)
    refine spells_layout (hcolon.bind fun _ => spells_pure ?_)
    rintro f _ ⟨-, hcolon⟩ e rfl _ ⟨xs, stop, htrue, hstop⟩ d rfl c ⟨-, hquestion⟩
    exact ⟨d, xs, stop, hquestion, htrue, hcolon.congr (e.skip_skip.trans hstop.symm)⟩
  · exact hmarked entry (List.mem_append_left _ hentry)
  · refine (spells_membership.tried _).bind fun _ => spells_pure ?_
    exact fun d c hover => hover.2
  · exact hmarked entry (List.mem_append_right _ hentry)

theorem sign (b : List Char) : Spells front ⟨.operand, b⟩ ⟨.operand, b⟩ Signs sign := by
  have hminus : Spells false ⟨.operand, b⟩ ⟨.operand, b⟩ (Over (.mark ['-'])) (expect ['-']) :=
    spells_plain (by decide) rfl (by decide) nofun
  have hnot : Spells false ⟨.operand, b⟩ ⟨.operand, b⟩ (Over (.mark ['!'])) (expect ['!']) :=
    spells_plain (by decide) rfl (by decide) nofun
  have hop : Spells false ⟨.operand, b⟩ ⟨.operand, b⟩
      (fun c (op : UnaryOp) c' => Over (.mark op.symbol.toList) c op c')
      (Reader.orElse (do mark .neg ['-']; pure UnaryOp.neg)
        (do mark .not ['!']; pure UnaryOp.not)) := by
    refine Spells.orElse ((hminus.tried _).bind fun _ => spells_pure ?_)
      ((hnot.tried _).bind fun _ => spells_pure ?_)
    · exact fun _ _ hover => hover
    · exact fun _ _ hover => hover
  refine spells_offset.bind fun start => hop.bind fun op => spells_pure ?_
  rintro d c hover _ ⟨rfl, rfl⟩
  exact ⟨rfl, hover⟩

theorem member (h : SpellsPhrases phrase) (b : List Char) :
    Spells front ⟨.operator, b⟩ ⟨.operator, b⟩ Selects (member phrase fuel) := by
  have hpoint : Spells front ⟨.operator, b⟩ ⟨.member, b⟩ (Over (.mark ['.'])) (expect ['.']) :=
    spells_plain (by decide) rfl (by decide) nofun
  have hparts : Spells front ⟨.operator, b⟩ ⟨.operator, b⟩
      (fun c parts c' => ∃ d e : Cursor, c.Next (.mark ['.']) d ∧ d.Next (.name parts.1) e ∧
        Perhaps (Boxes IsSpelled '(' ')') e.skip parts.2 c')
      (tried .member do
        expect ['.']
        layout
        let name ← name
        layout
        let args ← optional (Reader.arguments phrase fuel)
        pure (name, args)) := by
    refine Spells.tried (hpoint.bind fun _ => spells_layout ?_) _
    refine (spells_name fun _ => rfl).bind fun name => spells_layout ?_
    refine (Spells.optional (h.arguments b) fun _ hx => hx).bind fun args => spells_pure ?_
    rintro f _ hargs e rfl _ ⟨-, hname⟩ d rfl c ⟨-, hpoint⟩
    exact ⟨d, e, hpoint, hname.congr d.skip_skip, hargs⟩
  refine hparts.bind fun parts => spells_offset.bind fun stop => ?_
  obtain ⟨name, args⟩ := parts
  cases args with
  | none =>
      refine spells_pure ?_
      rintro _ f ⟨rfl, rfl⟩ c ⟨d, e, hpoint, hname, rfl⟩
      refine ⟨[.mark ['.'], .name name], e.skip, rfl, fun p b xs g hp htarget hg => ⟨?_, trivial⟩⟩
      exact .field hp htarget (hpoint.congr hg.symm) hname
  | some args =>
      refine spells_pure ?_
      rintro f _ ⟨rfl, rfl⟩ c ⟨d, e, hpoint, hname, pieces, ys, rfl, hargs, -, hboxed⟩
      refine ⟨.mark ['.'] :: .name name :: ys, f, rfl, fun p b xs g hp htarget hg => ⟨?_, trivial⟩⟩
      exact .method hp htarget (hpoint.congr hg.symm) hname hboxed hargs

theorem index (h : SpellsPhrases phrase) (b : List Char) :
    Spells front ⟨.operator, b⟩ ⟨.operator, b⟩ Selects (index phrase) := by
  have hposition : Spells front ⟨.operator, b⟩ ⟨.operator, b⟩
      (fun c position c' => ∃ d xs e, c.Next (.mark ['[']) d ∧ position.Spelled d.skip xs e ∧
        e.Next (.mark [']']) c')
      (tried .index do
        expect ['[']
        layout
        let position ← phrase
        layout
        expect [']']
        pure position) :=
    Spells.tried (h.between '[' ']' rfl rfl rfl fun p => spells_pure
      fun f c d e xs _ hfirst hp hlast => ⟨d, xs, e, hfirst, hp, hlast⟩) _
  refine hposition.bind fun position => spells_offset.bind fun stop => spells_pure ?_
  rintro f _ ⟨rfl, rfl⟩ c ⟨d, ys, e, hfirst, hp, hlast⟩
  refine ⟨.mark ['['] :: (ys ++ [.mark [']']]), f, rfl,
    fun p b xs g hp' htarget hg => ⟨?_, trivial⟩⟩
  exact .index hp' htarget (hfirst.congr hg.symm) hp hlast

theorem entry (h : SpellsPhrases phrase) (b : List Char) :
    Spells true ⟨.operand, b⟩ ⟨.operator, b⟩
      (Makes fun piece => ∃ e : Piece Phrase × Piece Phrase, Piece.entry e = piece ∧
        (∃ f, e.1.stop.Next (.mark [':']) f ∧ e.2.start = f.skip) ∧ IsSpelled e.1 ∧
          IsSpelled e.2) (entry phrase) := by
  have hcolon : Spells true ⟨.operator, b⟩ ⟨.operand, b⟩ (Over (.mark [':'])) (expect [':']) :=
    spells_plain (by decide) rfl (by decide) fun _ => rfl
  refine Spells.tried ((h b).bind fun key => spells_layout (hcolon.bind fun _ => ?_)) _
  refine spells_layout ((h b).bind fun value => spells_pure ?_)
  rintro f _ ⟨ys, stop', hvalue, hstop'⟩ e rfl _ ⟨-, hcolon⟩ d rfl c ⟨xs, stop, hkey, hstop⟩
  refine ⟨_, stop', ⟨(⟨key, c, xs, stop⟩, ⟨value, e.skip, ys, stop'⟩), rfl, ?_, hkey, hvalue⟩,
    hstop'⟩
  exact ⟨e, hcolon.congr (d.skip_skip.trans hstop.symm), rfl⟩

/-- What is read is spelled and can be selected from. -/
def MakesTarget : Cursor → Phrase → Cursor → Prop :=
  Makes fun piece => IsSpelled piece ∧ piece.value.IsTarget

theorem group (h : SpellsPhrases phrase) (b : List Char) :
    Spells front ⟨.operand, b⟩ ⟨.operator, b⟩ MakesTarget (group phrase) := by
  refine Spells.tried (h.between '(' ')' rfl rfl rfl fun p => spells_pure ?_) _
  intro f c d e xs _ hfirst hp hlast
  exact ⟨_, f, ⟨.group hfirst hp hlast, trivial⟩, rfl⟩

theorem list (h : SpellsPhrases phrase) (b : List Char) :
    Spells front ⟨.operand, b⟩ ⟨.operator, b⟩ MakesTarget (list phrase fuel) := by
  have hlist : Spells false ⟨.operand, b⟩ ⟨.operator, b⟩ (Boxes IsSpelled '[' ']')
      (tried .list (enclosed '[' ']' phrase fuel)) := (spells_enclosed rfl rfl h).tried .list
  refine hlist.spanned.anywhere.bind fun found => spells_pure ?_
  rintro d c ⟨hspan, pieces, xs, hitems, hgood, hsettled, hboxed⟩
  refine ⟨xs, d, ⟨?_, trivial⟩, rfl⟩
  have hspelled := Phrase.Spelled.list hboxed hgood
  rwa [hsettled, ← hspan, ← hitems] at hspelled

theorem map (h : SpellsPhrases phrase) (b : List Char) :
    Spells front ⟨.operand, b⟩ ⟨.operator, b⟩ MakesTarget (map phrase fuel) := by
  have hmap : Spells false ⟨.operand, b⟩ ⟨.operator, b⟩ (Boxes _ '\x7b' '\x7d')
      (tried .map (enclosed '\x7b' '\x7d' (Reader.entry phrase) fuel)) :=
    (spells_enclosed rfl rfl h.entry).tried .map
  refine hmap.spanned.anywhere.bind fun found => spells_pure ?_
  rintro d c ⟨hspan, pieces, xs, hentries, hgood, hsettled, hboxed⟩
  -- each piece between commas is a key and a value
  obtain ⟨entries, rfl, hspec⟩ := exists_map_eq hgood
  refine ⟨xs, d, ⟨?_, trivial⟩, rfl⟩
  have hspelled := Phrase.Spelled.map hboxed (fun e he => (hspec e he).1)
    (fun e he => (hspec e he).2.1) fun e he => (hspec e he).2.2
  obtain ⟨span, found⟩ := found
  obtain rfl : found = entries.map fun e => (e.1.value, e.2.value) :=
    hentries.trans List.map_map
  rwa [hsettled, ← hspan] at hspelled

theorem call (h : SpellsPhrases phrase) (b : List Char) :
    Spells front ⟨.operand, b⟩ ⟨.operator, b⟩ MakesTarget (call phrase fuel) := by
  have hcall : Spells false ⟨.operand, b⟩ ⟨.operator, b⟩
      (fun c (parts : List Char × List Phrase) c' => ∃ d, Over (.name parts.1) c parts.1 d ∧
        Boxes IsSpelled '(' ')' d.skip parts.2 c')
      (tried .call do
        let name ← Reader.name
        layout
        let args ← Reader.arguments phrase fuel
        pure (name, args)) := by
    refine Spells.tried ((spells_name fun _ => rfl).bind fun name => spells_layout ?_) _
    refine (h.arguments b).bind fun args => spells_pure ?_
    rintro _ _ hargs d rfl c hname
    exact ⟨d, hname, hargs⟩
  refine hcall.spanned.anywhere.bind fun found => spells_pure ?_
  rintro f c ⟨hspan, d, ⟨hsettled, hname⟩, pieces, xs, hargs, hgood, -, hboxed⟩
  refine ⟨.name found.2.1 :: xs, f, ⟨?_, trivial⟩, rfl⟩
  have hspelled := Phrase.Spelled.call hname hboxed hgood
  rwa [hsettled, ← hspan, ← hargs] at hspelled

/-- A lexeme that is an operand by itself. -/
theorem spells_atom {construct : Construct} {s : Scanner Token}
    (h : Spells false ⟨.operand, b⟩ ⟨.operator, b⟩ (fun c token d => ∃ x : Lexeme,
      x.token? = some token ∧ Over x c token d) (scan s)) :
    Spells front ⟨.operand, b⟩ ⟨.operator, b⟩ MakesTarget (atom construct s) := by
  refine (h.tried construct).spanned.anywhere.bind fun found => spells_pure ?_
  rintro d c ⟨hspan, x, htoken, hsettled, hnext⟩
  refine ⟨[x], d, ⟨?_, trivial⟩, rfl⟩
  have hspelled := Phrase.Spelled.atom hnext htoken
  rwa [hsettled, ← hspan] at hspelled

theorem primary (h : SpellsPhrases phrase) (b : List Char) :
    Spells true ⟨.operand, b⟩ ⟨.operator, b⟩ MakesTarget (primary phrase fuel) := by
  refine spells_oneOf fun r hr => ?_
  simp only [List.mem_append, List.mem_cons, List.not_mem_nil, or_false, List.mem_map] at hr
  rcases hr with ((rfl | rfl | rfl) | ⟨literal, hliteral, rfl⟩) | rfl | rfl
  · exact h.group b
  · exact h.list b
  · exact h.map b
  · exact spells_atom (spells_literal hliteral)
  · exact h.call b
  · refine spells_atom ((spells_name_token fun _ => rfl).imp ?_)
    rintro d token c ⟨text, rfl, hover⟩
    exact ⟨.name text, rfl, hover⟩

theorem operand (h : SpellsPhrases phrase) (b : List Char) :
    Spells true ⟨.operand, b⟩ ⟨.operator, b⟩
      (Makes fun piece => IsSpelled piece ∧ piece.value.level = 6)
      (operand phrase fuel) := by
  refine Spells.settled (((sign b).many fuel).bind fun signs => spells_layout ?_)
  refine (h.primary b).bind fun base => spells_layout ?_
  refine (((h.member b).orElse (h.index b)).many fuel).bind fun selections => spells_pure ?_
  rintro e f hselections d rfl _ ⟨xs, stop, ⟨hbase, htarget⟩, hstop⟩ g rfl c hsigns hsettled
  obtain ⟨ys, stop', hselected, htarget', hstop'⟩ :=
    spelled_selections hselections hbase htarget (hstop.trans d.skip_skip.symm)
  obtain ⟨zs, hsigned, hlevel⟩ := spelled_signed hsigns hselected htarget'.level_eq
  rw [hsettled] at hsigned
  exact ⟨zs, stop', ⟨hsigned, hlevel⟩, hstop'⟩

theorem linked (h : SpellsPhrases phrase) : SpellsPhrases (linked phrase fuel) := by
  intro b
  have hnext : Spells true ⟨.operator, b⟩ ⟨.operator, b⟩ Attaches (do
      let link ← Reader.link phrase
      layout
      let right ← Reader.operand phrase fuel
      pure (link, right)) := by
    refine (h.link b).bind fun link => spells_layout ?_
    refine (h.operand b).bind fun right => spells_pure ?_
    rintro e _ ⟨xs, stop, ⟨hright, hlevel⟩, hstop⟩ d rfl c hjoins
    exact attaches_of_joins hjoins hright hlevel hstop
  refine Spells.tried ((h.operand b).bind fun first => spells_layout ?_) _
  refine (hnext.many fuel).bind fun links => spells_pure ?_
  rintro f e hlinks d rfl c ⟨xs, stop, ⟨hfirst, hlevel⟩, hstop⟩
  exact spelled_chain hlinks hfirst (hstop.trans d.skip_skip.symm)

end SpellsPhrases

theorem spellsPhrases_phrase (fuel : Nat) : SpellsPhrases (Reader.phrase fuel) := by
  induction fuel with
  | zero => exact fun b => spells_fail
  | succ fuel ih => exact ih.linked

end Constructs

end Reader

theorem outcome_endOfInput (c : Cursor) :
    (Reader.endOfInput c).outcome = if c.rest.isEmpty then some ((), c) else none :=
  Reader.outcome_tried .endOfInput _ c

/-- A source that is a phrase is that phrase between the layout before it and the layout after. -/
theorem Phrase.outcome_of_read? {text : List Char} {phrase : Phrase}
    (h : Phrase.read? text = some phrase) :
    ∃ stop, (Reader.phrase (text.length + 1) (Cursor.skip ⟨0, text⟩)).outcome =
      some (phrase, stop) ∧ behindLayout stop.rest = [] := by
  obtain ⟨⟨found, c'⟩, hread, rfl⟩ := Option.map_eq_some_iff.mp h
  rw [readSource, Reader.source, Reader.outcome_tried] at hread
  obtain ⟨_, start, hstart, hread⟩ := Reader.of_outcome_bind hread
  obtain ⟨p, stop, hphrase, hread⟩ := Reader.of_outcome_bind hread
  obtain ⟨_, behind, hbehind, hread⟩ := Reader.of_outcome_bind hread
  obtain ⟨_, last, hlast, hfound⟩ := Reader.of_outcome_bind hread
  cases hstart
  cases hbehind
  cases hfound
  rw [outcome_endOfInput] at hlast
  split at hlast
  · rename_i hempty
    exact ⟨stop, hphrase, by rw [← Cursor.rest_skip]; exact List.isEmpty_iff.mp hempty⟩
  · cases hlast

/-- From the end of the source back to its beginning. -/
theorem Phrase.spells_of_read? {text : List Char} {phrase : Phrase}
    (h : Phrase.read? text = some phrase) :
    (∃ xs, Laid .operand [] text xs) ∧
      ∃ xs d, phrase.Spelled (Cursor.skip ⟨0, text⟩) xs d ∧ behindLayout d.rest = [] := by
  obtain ⟨stop, hphrase, hend⟩ := Phrase.outcome_of_read? h
  have hstart := Cursor.rest_skip ⟨0, text⟩
  have hskip : behindLayout (Cursor.skip ⟨0, text⟩).rest = behindLayout text := by
    rw [hstart, behindLayout_behindLayout]
  obtain ⟨⟨xs, hxs⟩, ys, d, hspelled, hd⟩ := Reader.spellsPhrases_phrase _ [] _ _ _
    (fun _ => hskip.trans hstart.symm) hphrase ⟨[], .nil hend⟩
  exact ⟨⟨xs, hxs.congr hskip.symm⟩, ys, d, hspelled,
    by rw [← Cursor.rest_skip, hd, Cursor.rest_skip, hend]⟩

/-- A source that is a phrase is a sequence of lexemes, with every bracket closed. -/
theorem laid_of_read? {text : List Char} {phrase : Phrase} (h : Phrase.read? text = some phrase) :
    ∃ xs, Laid .operand [] text xs :=
  (Phrase.spells_of_read? h).1

/-- A phrase that is read is spelled by lexemes of the source. -/
theorem Phrase.spelled_of_read? {text : List Char} {phrase : Phrase}
    (h : Phrase.read? text = some phrase) :
    ∃ xs d, phrase.Spelled (Cursor.skip ⟨0, text⟩) xs d ∧ behindLayout d.rest = [] :=
  (Phrase.spells_of_read? h).2

end EmbeddedExpr.Grammar
