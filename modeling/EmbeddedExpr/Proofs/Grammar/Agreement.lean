import EmbeddedExpr.Proofs.Grammar.Operand
import EmbeddedExpr.Proofs.Grammar.Sequence
import EmbeddedExpr.Proofs.Grammar.Shape

/-!
# The same lexemes make the same phrase

Two places of two sources are alike if the same lexemes are left there.  Every reader of the grammar
has one outcome at places that are alike (`Agrees`): it fails at both, or it takes the same lexemes
at both and yields results that differ in offsets only.  For all it looks at is the lexeme at its
place (`Recognizes`); the layout between lexemes it skips.  Fuel does not matter either, since a
reading never needs more than there are lexemes.
-/

namespace EmbeddedExpr.Grammar

open Scanner (lexeme)

/-- Two places at which the same lexemes are left, behind the same open brackets.  Where `front`
says so, no layout stands in front of them. -/
structure Alike (front : Bool) (stage : Stage) (xs : List Lexeme) (c c' : Cursor) : Prop where
  laid : ∃ brackets, Laid stage brackets c.rest xs ∧ Laid stage brackets c'.rest xs
  settled : front = true → behindLayout c.rest = c.rest ∧ behindLayout c'.rest = c'.rest

namespace Alike

variable {front : Bool} {stage wider : Stage} {xs : List Lexeme} {c c' : Cursor}

theorem mono (h : Alike front stage xs c c')
    (hwider : ∀ x, stage.admits x = true → wider.admits x = true) :
    Alike front wider xs c c' := by
  obtain ⟨⟨brackets, hlaid, hlaid'⟩, hsettled⟩ := h
  exact ⟨⟨brackets, hlaid.mono hwider, hlaid'.mono hwider⟩, hsettled⟩

theorem anywhere (h : Alike front stage xs c c') : Alike false stage xs c c' := ⟨h.laid, nofun⟩

theorem skip (h : Alike front stage xs c c') : Alike true stage xs c.skip c'.skip := by
  have hskip (c : Cursor) : behindLayout c.skip.rest = behindLayout c.rest := by
    rw [c.rest_skip, behindLayout_behindLayout]
  obtain ⟨brackets, hlaid, hlaid'⟩ := h.laid
  refine ⟨⟨brackets, hlaid.congr (hskip c), hlaid'.congr (hskip c')⟩, fun _ => ?_⟩
  rw [hskip, hskip, c.rest_skip, c'.rest_skip]
  exact ⟨rfl, rfl⟩

/-- Behind layout, places that are alike are the ends of their sources or begin with one lexeme. -/
theorem split (h : Alike true stage xs c c') : xs = [] ∧ c.rest = [] ∧ c'.rest = [] ∨
    ∃ x ys rest rest', xs = x :: ys ∧ stage.admits x = true ∧ lexeme c.rest = some (x, rest) ∧
      lexeme c'.rest = some (x, rest') ∧
        ∀ stop stop', Alike false x.after ys ⟨stop, rest⟩ ⟨stop', rest'⟩ := by
  obtain ⟨⟨brackets, hlaid, hlaid'⟩, hsettled⟩ := h
  obtain ⟨hsettled, hsettled'⟩ := hsettled rfl
  cases hlaid with
  | nil hend =>
      cases hlaid' with
      | nil hend' => exact .inl ⟨rfl, hsettled ▸ hend, hsettled' ▸ hend'⟩
  | cons hlexeme hadmits hnest hrest =>
      cases hlaid' with
      | cons hlexeme' _ hnest' hrest' =>
          rw [hsettled] at hlexeme
          rw [hsettled'] at hlexeme'
          rw [hnest] at hnest'
          cases hnest'
          exact .inr ⟨_, _, _, _, rfl, hadmits, hlexeme, hlexeme', fun _ _ =>
            ⟨⟨_, hrest, hrest'⟩, nofun⟩⟩

end Alike

namespace Reader

variable {α β γ δ : Type} {front : Bool} {stage post last : Stage} {n m k : Nat} {view : α → γ}
  {view' : β → δ} {r r' : Reader α} {next next' : α → Reader β}

/-- Outcomes at two places with `n` lexemes left: both readings failed, or both took the same
lexemes, at least `k` of them, and yielded the same as far as the view tells. -/
inductive Meet (view : α → γ) (post : Stage) (n k : Nat) :
    Option (α × Cursor) → Option (α × Cursor) → Prop
  | none : Meet view post n k none none
  | some {a a' : α} {c c' : Cursor} {ys : List Lexeme} : view a = view a' → ys.length + k ≤ n →
      Alike false post ys c c' → Meet view post n k (some (a, c)) (some (a', c'))

theorem Meet.mono {o o' : Option (α × Cursor)} {n' : Nat} (h : Meet view post n k o o')
    (hcount : n + m ≤ n' + k) (hpost : ∀ x, post.admits x = true → last.admits x = true) :
    Meet view last n' m o o' := by
  cases h with
  | none => exact .none
  | some hview htaken hleft => exact .some hview (by omega) (hleft.mono hpost)

theorem Meet.map_eq {o o' : Option (α × Cursor)} (h : Meet view post n k o o') :
    o.map (view ∘ Prod.fst) = o'.map (view ∘ Prod.fst) := by
  cases h with
  | none => rfl
  | some hview _ _ => exact congrArg Option.some hview

/-- At places where the same lexemes are left, fewer than `n`, the readers have one outcome. -/
def Agrees (front : Bool) (stage post : Stage) (n k : Nat) (view : α → γ) (r r' : Reader α) :
    Prop :=
  ∀ xs c c', xs.length < n → Alike front stage xs c c' →
    Meet view post xs.length k (r c).outcome (r' c').outcome

/-! ### Sequences -/

theorem Agrees.fewer (h : Agrees front stage post n k view r r') (hle : m ≤ n) :
    Agrees front stage post m k view r r' :=
  fun xs c c' hlength => h xs c c' (Nat.lt_of_lt_of_le hlength hle)

/-- Less is said to be taken, and more to be allowed behind it. -/
theorem Agrees.relax (h : Agrees front stage post n k view r r') (hle : m ≤ k)
    (hpost : ∀ x, post.admits x = true → last.admits x = true) :
    Agrees front stage last n m view r r' :=
  fun xs c c' hlength halike => (h xs c c' hlength halike).mono (Nat.add_le_add_left hle _) hpost

theorem agrees_pure {a a' : α} (h : view a = view a') :
    Agrees front stage stage n 0 view (pure a) (pure a') :=
  fun _ _ _ _ halike => .some h (Nat.le_refl _) halike.anywhere

theorem agrees_fail : Agrees front stage post n k view fail fail := fun _ _ _ _ _ => .none

theorem outcome_bind_none {c : Cursor} (h : (r c).outcome = none) :
    ((r >>= next) c).outcome = none := by
  change (Reader.andThen r next c).outcome = none
  simp only [Reader.andThen, h]

theorem Agrees.bind (h : Agrees front stage post n k view r r')
    (hnext : ∀ a a', view a = view a' →
      Agrees false post last (n - k) (m - k) view' (next a) (next' a')) :
    Agrees front stage last n m view' (r >>= next) (r' >>= next') := by
  intro xs c c' hlength halike
  have hmeet := h xs c c' hlength halike
  cases hr : (r c).outcome <;> cases hr' : (r' c').outcome <;> rw [hr, hr'] at hmeet <;>
    cases hmeet
  · rw [outcome_bind_none hr, outcome_bind_none hr']
    exact .none
  · rename_i hview htaken hleft
    rw [outcome_bind hr, outcome_bind hr']
    exact (hnext _ _ hview _ _ _ (by omega) hleft).mono (by omega) fun _ hx => hx

/-- Layout is skipped, and takes no lexemes. -/
theorem agrees_layout {s s' : Unit → Reader α}
    (h : Agrees true stage post n k view (s ()) (s' ())) :
    Agrees front stage post n k view (layout >>= s) (layout >>= s') :=
  fun xs c c' hlength halike => h xs c.skip c'.skip hlength halike.skip

/-- Offsets differ between the sources. -/
theorem agrees_offset {s s' : Nat → Reader α}
    (h : ∀ start start', Agrees front stage post n k view (s start) (s' start')) :
    Agrees front stage post n k view (offset >>= s) (offset >>= s') :=
  fun xs c c' hlength halike => h c.offset c'.offset xs c c' hlength halike

theorem Agrees.tried (h : Agrees front stage post n k view r r') (construct : Construct) :
    Agrees front stage post n k view (tried construct r) (tried construct r') := by
  intro xs c c' hlength halike
  rw [outcome_tried, outcome_tried]
  exact h xs c c' hlength halike

theorem Agrees.spanned (h : Agrees front stage post n k view r r') :
    Agrees front stage post n k (fun found => view found.2) (spanned r) (spanned r') := by
  refine agrees_offset fun _ _ => h.bind fun a a' hview => ?_
  rw [Nat.sub_self]
  exact agrees_offset fun _ _ => agrees_pure hview

/-! ### Choices -/

theorem Agrees.orElse {s s' : Reader α} (h : Agrees front stage post n k view r r')
    (hsecond : Agrees front stage post n k view s s') :
    Agrees front stage post n k view (Reader.orElse r s) (Reader.orElse r' s') := by
  intro xs c c' hlength halike
  have hmeet := h xs c c' hlength halike
  rw [outcome_orElse, outcome_orElse]
  cases hr : (r c).outcome <;> cases hr' : (r' c').outcome <;> rw [hr, hr'] at hmeet
  · exact hsecond xs c c' hlength halike
  · cases hmeet
  · cases hmeet
  · exact hmeet

theorem outcome_oneOf_append (readers others : List (Reader α)) (c : Cursor) :
    (oneOf (readers ++ others) c).outcome =
      ((oneOf readers c).outcome <|> (oneOf others c).outcome) := by
  induction readers with
  | nil => rfl
  | cons r rest ih =>
      rw [List.cons_append, oneOf, oneOf, outcome_orElse, outcome_orElse, ih]
      cases (r c).outcome <;> rfl

theorem Agrees.oneOf_append {readers readers' others others' : List (Reader α)}
    (h : Agrees front stage post n k view (oneOf readers) (oneOf readers'))
    (hothers : Agrees front stage post n k view (oneOf others) (oneOf others')) :
    Agrees front stage post n k view (oneOf (readers ++ others)) (oneOf (readers' ++ others')) := by
  intro xs c c' hlength halike
  have hmeet := h.orElse hothers xs c c' hlength halike
  rwa [outcome_orElse, outcome_orElse, ← outcome_oneOf_append, ← outcome_oneOf_append] at hmeet

/-- Where nothing is read, what may stand behind it stands here. -/
theorem Agrees.optional (h : Agrees front stage post n k view r r')
    (hstage : ∀ x, stage.admits x = true → last.admits x = true)
    (hpost : ∀ x, post.admits x = true → last.admits x = true) :
    Agrees front stage last n 0 (Option.map view) (optional r) (optional r') := by
  refine Agrees.orElse ((h.relax (Nat.zero_le k) hpost).bind fun a a' hview => ?_)
    ((agrees_pure rfl).relax (Nat.le_refl 0) hstage)
  exact agrees_pure (congrArg some hview)

/-! ### Repetitions -/

theorem Agrees.following (h : Agrees true stage stage n 1 view r r') {fuel fuel' : Nat}
    (hfuel : n ≤ fuel) (hfuel' : n ≤ fuel') :
    Agrees front stage stage n 0 (List.map view) (following r fuel) (following r' fuel') := by
  induction n generalizing fuel fuel' front with
  | zero => exact fun xs c c' hlength => absurd hlength (Nat.not_lt_zero _)
  | succ n ih =>
      obtain ⟨fuel, rfl⟩ := Nat.exists_eq_add_of_le' hfuel
      obtain ⟨fuel', rfl⟩ := Nat.exists_eq_add_of_le' hfuel'
      refine Agrees.orElse (agrees_layout (h.bind fun a a' hview => ?_)) (agrees_pure rfl)
      have hmore : Agrees false stage stage n 0 (List.map view)
          (Reader.following r (fuel + n)) (Reader.following r' (fuel' + n)) :=
        ih (h.fewer (Nat.le_succ n)) (Nat.le_add_left n fuel) (Nat.le_add_left n fuel')
      refine hmore.bind fun more more' hviews => agrees_pure ?_
      rw [List.map_cons, List.map_cons, hview, hviews]

theorem Agrees.many (h : Agrees true stage stage n 1 view r r') {fuel fuel' : Nat}
    (hfuel : n ≤ fuel + 1) (hfuel' : n ≤ fuel' + 1) :
    Agrees true stage stage n 0 (List.map view) (many r fuel) (many r' fuel') := by
  refine Agrees.orElse (h.bind fun a a' hview => ?_) (agrees_pure rfl)
  have hmore : Agrees false stage stage (n - 1) 0 (List.map view) (Reader.following r fuel)
      (Reader.following r' fuel') :=
    (h.fewer (Nat.sub_le n 1)).following (Nat.sub_le_of_le_add hfuel) (Nat.sub_le_of_le_add hfuel')
  refine hmore.bind fun more more' hviews => agrees_pure ?_
  rw [List.map_cons, List.map_cons, hview, hviews]

/-! ### Single lexemes -/

/-- The reader looks at one lexeme: it takes one that has a value, and yields the value. -/
structure Recognizes (stage : Stage) (view : α → γ) (value : Lexeme → Option γ) (r : Reader α) :
    Prop where
  nil : Refuses r []
  reads {x : Lexeme} {text rest : List Char} {v : γ} : stage.admits x = true →
    lexeme text = some (x, rest) → value x = some v → Reads r text rest (fun a => view a = v)
  refuses {x : Lexeme} {text rest : List Char} : stage.admits x = true →
    lexeme text = some (x, rest) → value x = none → Refuses r text

theorem Recognizes.agrees {value : Lexeme → Option γ} (h : Recognizes stage view value r)
    (hafter : ∀ x, stage.admits x = true → (value x).isSome = true → x.after = post) :
    Agrees true stage post n 1 view r r := by
  rintro xs ⟨start, text⟩ ⟨start', text'⟩ - halike
  rcases halike.split with ⟨-, rfl, rfl⟩ | ⟨x, ys, rest, rest', rfl, hadmits, hx, hx', hleft⟩
  · rw [h.nil start, h.nil start']
    exact .none
  · cases hvalue : value x with
    | none =>
        rw [h.refuses hadmits hx hvalue start, h.refuses hadmits hx' hvalue start']
        exact .none
    | some v =>
        obtain ⟨a, stop, hr, ha⟩ := h.reads hadmits hx hvalue start
        obtain ⟨a', stop', hr', ha'⟩ := h.reads hadmits hx' hvalue start'
        rw [hr, hr']
        refine .some (ha.trans ha'.symm) (Nat.le_refl _) ?_
        rw [← hafter x hadmits (by rw [hvalue]; rfl)]
        exact hleft stop stop'

end Reader

/-- At the place, a character tells that the mark it is stands there. -/
def Stage.Tells (stage : Stage) (d : Char) : Prop :=
  Scanner.isNameChar d = false ∧ (stage = .operator ∨ d ∉ ['.', '"', '\'']) ∧
    ∀ m ∈ Scanner.marks, stage.admits (.mark m) = true → d ∈ m.head? → m = [d]

instance (stage : Stage) (d : Char) : Decidable (stage.Tells d) :=
  inferInstanceAs (Decidable (_ ∧ _ ∧ _))

theorem Stage.Tells.eq_mark {stage : Stage} {d : Char} {x : Lexeme} {text rest : List Char}
    (h : stage.Tells d) (hadmits : stage.admits x = true) (hx : lexeme text = some (x, rest))
    (hd : d ∈ text.head?) : x = .mark [d] := by
  obtain ⟨hname, hliteral, hmarks⟩ := h
  obtain ⟨more, rfl⟩ := List.head?_eq_some_iff.mp hd
  rcases Scanner.lexeme_cases hx with ⟨_, _, rfl, hfound⟩ | ⟨_, _, rfl, -, hfound⟩ |
    ⟨m, rfl, -, -, hmark, -⟩
  · have hquote : d ∉ ['.', '"', '\''] := by
      refine hliteral.resolve_left ?_
      rintro rfl
      cases hadmits
    have hletters : ∀ c ∈ ['n', 't', 'f', 'b', 'B', 'r', 'R'], Scanner.isNameChar c = true := by
      decide
    have hletter : d ∉ ['n', 't', 'f', 'b', 'B', 'r', 'R'] := fun hmem =>
      absurd (hletters d hmem) (by rw [hname]; exact Bool.false_ne_true)
    have hdigit : Number.isDigit d = false := by
      simp only [Scanner.isNameChar, Bool.or_eq_false_iff] at hname
      exact hname.1.2
    have hnone : Scanner.literal (d :: more) = none := by
      refine List.findSome?_eq_none_iff.mpr (Scanner.literals_none hdigit ?_ more)
      simp only [List.mem_cons, List.not_mem_nil, or_false, not_or] at hquote hletter
      simp [hquote, hletter]
    cases hnone.symm.trans hfound
  · cases (Scanner.name_none hname more).symm.trans hfound
  · have hhead : d ∈ m.head? := Scanner.head_of_mark hmark ▸ hd
    rcases (Scanner.mark_spec hmark).1 with hm | ⟨rfl, -⟩
    · rw [hmarks m hm hadmits hhead]
    · cases hhead
      cases hname

namespace Reader

theorem agrees_expect {d : Char} (h : stage.Tells d ∧ (Lexeme.mark [d]).after = post) :
    Agrees true stage post n 1 id (expect [d]) (expect [d]) := by
  obtain ⟨htells, rfl⟩ := h
  have hrecognizes : Recognizes stage id (fun x => if x = .mark [d] then some () else none)
      (expect [d]) := by
    refine ⟨refuses_expect rfl nofun, fun hadmits hx hvalue => ?_, fun hadmits hx hvalue => ?_⟩
    · split at hvalue
      · rename_i hmark
        subst hmark
        rw [← Scanner.append_of_lexeme hx]
        exact (reads_expect [d] _).mono fun _ _ => rfl
      · cases hvalue
    · split at hvalue
      · cases hvalue
      · rename_i hmark
        exact refuses_expect rfl fun hd => hmark (htells.eq_mark hadmits hx hd)
  refine hrecognizes.agrees fun x _ hsome => ?_
  split at hsome
  · rename_i hmark
    rw [hmark]
  · cases hsome

/-- What the reader of a name's token makes of a lexeme. -/
def nameToken? : Lexeme → Option Token
  | .name text => some (.name text)
  | _ => none

/-- A name is recognized where no literal can stand. -/
theorem agrees_name_token (hstage : ∀ token text, stage.admits (.literal token text) = false) :
    Agrees true stage .operator n 1 id (scan Scanner.name) (scan Scanner.name) := by
  have hrecognizes : Recognizes stage id nameToken? (scan Scanner.name) := by
    refine ⟨refuses_scan rfl, fun {x text rest v} _ hx hvalue => ?_,
      fun {x text rest} hadmits hx hvalue => ?_⟩
    · cases x with
      | name taken =>
          cases hvalue
          exact reads_scan (Scanner.name_of_lexeme hx).2
      | literal | mark => cases hvalue
    · rcases Scanner.lexeme_cases hx with ⟨token, taken, rfl, -⟩ | ⟨_, _, rfl, -⟩ |
        ⟨m, rfl, -, hname, -⟩
      · rw [hstage] at hadmits
        cases hadmits
      · cases hvalue
      · exact refuses_scan hname
  refine hrecognizes.agrees fun x _ hsome => ?_
  cases x with
  | name text => rfl
  | literal | mark => cases hsome

theorem agrees_name (hstage : ∀ token text, stage.admits (.literal token text) = false) :
    Agrees true stage .operator n 1 id name name := by
  refine ((agrees_name_token hstage).tried .name).bind fun token token' htoken => ?_
  obtain rfl : token = token' := htoken
  cases token with
  | name text => exact agrees_pure rfl
  | _ => exact agrees_fail

/-- A mark is refused where the mark at the place does not begin with it. -/
theorem refuses_expect_of_lexeme {m m' text rest : List Char} (hm' : m' ∈ Scanner.marks)
    (hx : lexeme text = some (.mark m, rest)) (h : m'.isPrefixOf m = false) :
    Refuses (expect m') text := by
  obtain ⟨-, hmark, rfl⟩ := Scanner.mark_of_lexeme hx
  have hbegins : m'.isPrefixOf (m ++ rest) = false := by
    rw [Bool.eq_false_iff] at h ⊢
    refine fun hbegins => h ?_
    rcases (Scanner.mark_spec hmark).1 with hm | ⟨rfl, -⟩
    · exact Scanner.isPrefixOf_of_parted hm hm' ((Scanner.lexeme_mark_iff hm).mp hx) hbegins
    · rcases Scanner.marks_spec m' hm' with ⟨a, rfl⟩ | ⟨a, b, -, rfl⟩
      · simpa using hbegins
      · simpa using hbegins
  intro offset
  simp only [expect, hbegins, Bool.false_eq_true, if_false]

/-- What a reader of operators makes of a lexeme: the first of them whose mark begins it. -/
def operator? (entries : List (Construct × List Char × InfixOp)) : Lexeme → Option Link
  | .mark m => (entries.find? (·.2.1.isPrefixOf m)).map fun entry => Link.op entry.2.2
  | _ => none

/-- Operators are recognized by their marks, if none of them is tried in front of a longer one. -/
theorem agrees_marked {entries : List (Construct × List Char × InfixOp)}
    (hmarks : ∀ entry ∈ entries, entry.2.1 ∈ Scanner.marks)
    (hfirst : ∀ m ∈ Stage.operatorMarks, ∀ entry ∈ entries.find? (·.2.1.isPrefixOf m),
      entry.2.1 = m ∧ (Lexeme.mark m).after = .operand) :
    Agrees true .operator .operand n 1 Link.shape (oneOf (entries.map marked))
      (oneOf (entries.map marked)) := by
  have hrecognizes : Recognizes .operator Link.shape (operator? entries)
      (oneOf (entries.map marked)) := by
    refine ⟨?_, fun hadmits hx hvalue => ?_, fun hadmits hx hvalue => ?_⟩
    · refine refuses_oneOf (List.forall_mem_map.mpr fun entry hentry => ?_)
      obtain ⟨c, hc⟩ : ∃ c, c ∈ entry.2.1.head? := by
        rcases Scanner.marks_spec _ (hmarks entry hentry) with ⟨a, heq⟩ | ⟨a, b, -, heq⟩ <;>
          exact ⟨a, by rw [heq]; rfl⟩
      exact refuses_marked hc nofun
    · obtain ⟨m, hm, rfl⟩ := Stage.mark_of_operator hadmits
      obtain ⟨entry, hfind, rfl⟩ := Option.map_eq_some_iff.mp hvalue
      obtain ⟨-, before, after, hentries, hbefore⟩ := List.find?_eq_some_iff_append.mp hfind
      obtain ⟨hmark, -⟩ := hfirst m hm entry hfind
      rw [hentries, List.map_append, List.map_cons]
      refine reads_oneOf (List.forall_mem_map.mpr fun other hother => ?_) ?_
      · have hm' := hmarks other (hentries ▸ List.mem_append_left _ hother)
        have hbegins := Bool.not_eq_true' _ ▸ hbefore other hother
        exact ((refuses_expect_of_lexeme hm' hx hbegins).tried _).bind _
      · rw [← Scanner.append_of_lexeme hx, Lexeme.text, ← hmark]
        exact ((reads_expect entry.2.1 _).tried entry.1).bind fun _ _ => reads_pure rfl
    · obtain ⟨m, hm, rfl⟩ := Stage.mark_of_operator hadmits
      have hnone := List.find?_eq_none.mp (Option.map_eq_none_iff.mp hvalue)
      refine refuses_oneOf (List.forall_mem_map.mpr fun entry hentry => ?_)
      have hbegins := Bool.eq_false_iff.mpr (hnone entry hentry)
      exact ((refuses_expect_of_lexeme (hmarks entry hentry) hx hbegins).tried _).bind _
  refine hrecognizes.agrees fun x hadmits hsome => ?_
  obtain ⟨m, hm, rfl⟩ := Stage.mark_of_operator hadmits
  obtain ⟨entry, hfind⟩ := Option.isSome_iff_exists.mp (Option.isSome_map ▸ hsome)
  exact (hfirst m hm entry hfind).2

theorem agrees_membership :
    Agrees true .operator .operand n 1 Link.shape membership membership := by
  have hrecognizes : Recognizes .operator Link.shape
      (fun x => if x = .mark ['i', 'n'] then some (Link.op (.relation .mem)) else none)
      membership := by
    refine ⟨((refuses_scan rfl).tried _).bind _, fun {x text rest v} _ hx hvalue => ?_,
      fun {x text rest} _ hx hvalue => ?_⟩ <;> split at hvalue
    · rename_i hin
      subst hin
      cases hvalue
      have hword : Scanner.word ['i', 'n'] text = some ((), ['i', 'n'], rest) := by
        obtain ⟨-, hmark, rfl⟩ := Scanner.mark_of_lexeme hx
        have hstop := (Scanner.mark_spec hmark).1.resolve_left (by decide)
        exact Scanner.word_continued hstop.2
      exact ((reads_scan hword).tried _).bind fun _ _ => reads_pure rfl
    · cases hvalue
    · cases hvalue
    · rename_i hne
      have hword : Scanner.word ['i', 'n'] text = none := by
        rw [Option.eq_none_iff_forall_ne_some]
        rintro ⟨u, taken, after⟩ hword
        obtain ⟨rfl, rfl, hstop⟩ := Scanner.word_spec hword
        cases (Scanner.lexeme_in hstop).symm.trans hx
        exact hne rfl
      exact ((refuses_scan hword).tried _).bind _
  refine hrecognizes.agrees fun x _ hsome => ?_
  split at hsome
  · rename_i hin
    rw [hin]
    rfl
  · cases hsome

/-! ### Literals -/

theorem refuses_literals {text : List Char} (h : Scanner.literal text = none) :
    Refuses (oneOf (literals.map fun entry => atom entry.1 entry.2)) text := by
  refine refuses_oneOf (List.forall_mem_map.mpr fun entry hentry => ?_)
  exact refuses_atom (List.findSome?_eq_none_iff.mp h entry hentry)

theorem reads_literals {token : Token} {text taken rest : List Char}
    (h : Scanner.literal text = some (token, taken, rest)) (others : List (Reader Phrase)) :
    Reads (oneOf (literals.map (fun entry => atom entry.1 entry.2) ++ others)) text rest
      (fun p => p.shape = .atom ⟨0, 0⟩ token) := by
  obtain ⟨before, entry, after, hentries, hfound, hbefore⟩ := List.findSome?_eq_some_iff.mp h
  rw [hentries, List.map_append, List.map_cons, List.append_assoc, List.cons_append]
  refine reads_oneOf (List.forall_mem_map.mpr fun other hother => ?_) ?_
  · exact refuses_atom (hbefore other hother)
  · refine (reads_atom hfound).mono fun p hp => ?_
    obtain ⟨span, rfl⟩ := hp
    rfl

/-- Literals are tried in front of what could take the beginning of one for a name. -/
theorem agrees_literals {others others' : List (Reader Phrase)}
    (h : Agrees true .nonliteral .operator n 1 Phrase.shape (oneOf others) (oneOf others')) :
    Agrees true .operand .operator n 1 Phrase.shape
      (oneOf (literals.map (fun entry => atom entry.1 entry.2) ++ others))
      (oneOf (literals.map (fun entry => atom entry.1 entry.2) ++ others')) := by
  rintro xs ⟨start, text⟩ ⟨start', text'⟩ hlength halike
  have hothers (hliteral : Scanner.literal text = none) (hliteral' : Scanner.literal text' = none)
      (hxs : ∀ x ∈ xs.head?, Stage.nonliteral.admits x = true) :
      Meet Phrase.shape .operator xs.length 1
        (oneOf (literals.map (fun entry => atom entry.1 entry.2) ++ others) ⟨start, text⟩).outcome
        (oneOf (literals.map (fun entry => atom entry.1 entry.2) ++ others')
          ⟨start', text'⟩).outcome := by
    rw [outcome_oneOf_append, outcome_oneOf_append, refuses_literals hliteral start,
      refuses_literals hliteral' start']
    obtain ⟨⟨brackets, hlaid, hlaid'⟩, hsettled⟩ := halike
    exact h xs _ _ hlength ⟨⟨brackets, hlaid.restage hxs, hlaid'.restage hxs⟩, hsettled⟩
  rcases halike.split with ⟨rfl, rfl, rfl⟩ | ⟨x, ys, rest, rest', rfl, hadmits, hx, hx', hleft⟩
  · exact hothers rfl rfl nofun
  · cases x with
    | literal token taken =>
        have hliteral := Scanner.literal_of_lexeme hx
        have hliteral' := Scanner.literal_of_lexeme hx'
        obtain ⟨p, stop, hr, hp⟩ := reads_literals hliteral others start
        obtain ⟨p', stop', hr', hp'⟩ := reads_literals hliteral' others' start'
        rw [hr, hr']
        exact .some (hp.trans hp'.symm) (Nat.le_refl _) (hleft stop stop')
    | name taken =>
        obtain ⟨hliteral, -⟩ := Scanner.name_of_lexeme hx
        obtain ⟨hliteral', -⟩ := Scanner.name_of_lexeme hx'
        refine hothers hliteral hliteral' ?_
        rintro _ ⟨⟩
        rfl
    | mark m =>
        obtain ⟨hliteral, -⟩ := Scanner.mark_of_lexeme hx
        obtain ⟨hliteral', -⟩ := Scanner.mark_of_lexeme hx'
        refine hothers hliteral hliteral' ?_
        rintro _ ⟨⟩
        exact hadmits

/-! ### The grammar -/

section Constructs

variable {fuel fuel' : Nat} {phrase phrase' : Reader Phrase}

/-- Items that agree are separated by commas alike. -/
theorem agrees_commaSeparated {item item' : Reader α}
    (h : Agrees true .operand .operator n 1 view item item') (hfuel : n ≤ fuel)
    (hfuel' : n ≤ fuel') : Agrees true .operand .either n 1 (List.map view)
      (commaSeparated item fuel) (commaSeparated item' fuel') := by
  have hcomma (n : Nat) : Agrees true .operator .operand n 1 id (expect [',']) (expect [',']) :=
    agrees_expect (by decide)
  have hnext : Agrees true .operator .operator (n - 1) 1 view (do expect [',']; layout; item)
      (do expect [',']; layout; item') :=
    (hcomma _).bind fun _ _ _ => agrees_layout <|
      (h.fewer (by omega)).relax (Nat.zero_le 1) fun _ hx => hx
  refine h.bind fun first first' hfirst => agrees_layout ?_
  refine (hnext.many (by omega) (by omega)).bind fun more more' hmore => agrees_layout ?_
  have hlast (n : Nat) : Agrees true .operator .either n 0 (Option.map id)
      (Reader.optional (expect [','])) (Reader.optional (expect [','])) :=
    (hcomma n).optional Stage.either_of_operator Stage.either_of_operand
  refine (hlast _).bind fun _ _ _ => agrees_pure ?_
  rw [List.map_cons, List.map_cons, hfirst, hmore]

/-- Items that agree are enclosed alike. -/
theorem agrees_enclosed {item item' : Reader α} {opening closing : Char}
    (h : Agrees true .operand .operator n 1 view item item') (hfuel : n ≤ fuel)
    (hfuel' : n ≤ fuel')
    (hopening : stage.Tells opening ∧ (Lexeme.mark [opening]).after = .operand)
    (hclosing : Stage.either.Tells closing ∧ (Lexeme.mark [closing]).after = .operator) :
    Agrees true stage .operator (n + 1) 1 (List.map view) (enclosed opening closing item fuel)
      (enclosed opening closing item' fuel') := by
  refine (agrees_expect hopening).bind fun _ _ _ => agrees_layout ?_
  have hitems := (agrees_commaSeparated h hfuel hfuel').optional Stage.either_of_operand
    fun _ hx => hx
  refine hitems.bind fun items items' hview => agrees_layout ?_
  refine (agrees_expect hclosing).bind fun _ _ _ => agrees_pure ?_
  have hgetD (o : Option (List α)) :
      (o.getD []).map view = (o.map (List.map view)).getD [] := by
    cases o <;> rfl
  rw [hgetD, hgetD, hview]

end Constructs

/-- The phrases one level down are read alike where fewer than `n` lexemes are left, and the fuels
are enough for the repetitions among those. -/
structure AgreesBelow (n : Nat) (phrase phrase' : Reader Phrase) (fuel fuel' : Nat) : Prop where
  phrase : Agrees true .operand .operator n 1 Phrase.shape phrase phrase'
  fuel : n ≤ fuel
  fuel' : n ≤ fuel'

namespace AgreesBelow

variable {fuel fuel' : Nat} {phrase phrase' : Reader Phrase}

theorem arguments (h : AgreesBelow n phrase phrase' fuel fuel') :
    Agrees true .operator .operator (n + 1) 1 (List.map Phrase.shape) (arguments phrase fuel)
      (Reader.arguments phrase' fuel') :=
  (agrees_enclosed h.phrase h.fuel h.fuel' (by decide) (by decide)).tried .arguments

/-- A phrase between brackets. -/
theorem between {opening closing : Char} {next next' : Phrase → Reader β}
    (h : AgreesBelow n phrase phrase' fuel fuel')
    (hopening : stage.Tells opening ∧ (Lexeme.mark [opening]).after = .operand)
    (hclosing : Stage.operator.Tells closing ∧ (Lexeme.mark [closing]).after = .operator)
    (hnext : ∀ p p', p.shape = p'.shape → ∀ n,
      Agrees false .operator .operator n 0 view' (next p) (next' p')) :
    Agrees true stage .operator (n + 1) 1 view'
      (do
        expect [opening]
        layout
        let inner ← phrase
        layout
        expect [closing]
        next inner)
      (do
        expect [opening]
        layout
        let inner ← phrase'
        layout
        expect [closing]
        next' inner) := by
  refine (agrees_expect hopening).bind fun _ _ _ => agrees_layout ?_
  refine h.phrase.bind fun inner inner' hinner => agrees_layout ?_
  exact (agrees_expect hclosing).bind fun _ _ _ => hnext inner inner' hinner _

theorem group (h : AgreesBelow n phrase phrase' fuel fuel') :
    Agrees true .operand .operator (n + 1) 1 Phrase.shape (group phrase)
      (Reader.group phrase') := by
  refine Agrees.tried (h.between (by decide) (by decide) fun p p' hp _ => agrees_pure ?_) _
  rw [Phrase.shape, hp, Phrase.shape]

theorem index (h : AgreesBelow n phrase phrase' fuel fuel') :
    Agrees true .operator .operator (n + 1) 1 Selection.shape (index phrase)
      (Reader.index phrase') := by
  have hposition := h.between (by decide : Stage.operator.Tells '[' ∧ _)
    (by decide : Stage.operator.Tells ']' ∧ _) fun p p' hp _ => agrees_pure hp
  refine (hposition.tried .index).bind fun position position' heq => ?_
  refine agrees_offset fun _ _ => agrees_pure ?_
  rw [Selection.shape, heq, Selection.shape]

theorem entry (h : AgreesBelow n phrase phrase' fuel fuel') :
    Agrees true .operand .operator n 1 (Prod.map Phrase.shape Phrase.shape) (entry phrase)
      (Reader.entry phrase') := by
  have hcolon (n : Nat) : Agrees true .operator .operand n 1 id (expect [':']) (expect [':']) :=
    agrees_expect (by decide)
  refine Agrees.tried (h.phrase.bind fun key key' hkey => agrees_layout ?_) _
  refine (hcolon _).bind fun _ _ _ => agrees_layout ?_
  have hvalue := h.phrase.fewer (Nat.le_trans (Nat.sub_le (n - 1) 1) (Nat.sub_le n 1))
  refine hvalue.bind fun value value' hvalue => agrees_pure ?_
  rw [Prod.map, hkey, hvalue, Prod.map]

theorem list (h : AgreesBelow n phrase phrase' fuel fuel') :
    Agrees true .operand .operator (n + 1) 1 Phrase.shape (list phrase fuel)
      (Reader.list phrase' fuel') := by
  have hitems : Agrees true .operand .operator (n + 1) 1 (List.map Phrase.shape)
      (enclosed '[' ']' phrase fuel) (enclosed '[' ']' phrase' fuel') :=
    agrees_enclosed h.phrase h.fuel h.fuel' (by decide) (by decide)
  refine (hitems.tried .list).spanned.bind fun found found' hfound => agrees_pure ?_
  rw [Phrase.shape, Phrase.shape, Phrase.shapeItems_eq_map, Phrase.shapeItems_eq_map, hfound]

theorem map (h : AgreesBelow n phrase phrase' fuel fuel') :
    Agrees true .operand .operator (n + 1) 1 Phrase.shape (map phrase fuel)
      (Reader.map phrase' fuel') := by
  have hentries : Agrees true .operand .operator (n + 1) 1
      (List.map (Prod.map Phrase.shape Phrase.shape)) (enclosed '{' '}' (Reader.entry phrase) fuel)
      (enclosed '{' '}' (Reader.entry phrase') fuel') :=
    agrees_enclosed h.entry h.fuel h.fuel' (by decide) (by decide)
  refine (hentries.tried .map).spanned.bind fun found found' hfound => agrees_pure ?_
  rw [Phrase.shape, Phrase.shape, Phrase.shapeEntries_eq_map, Phrase.shapeEntries_eq_map, hfound]

theorem call (h : AgreesBelow n phrase phrase' fuel fuel') :
    Agrees true .nonliteral .operator (n + 1) 1 Phrase.shape (call phrase fuel)
      (Reader.call phrase' fuel') := by
  have hcall : Agrees true .nonliteral .operator (n + 1) 1 (Prod.map id (List.map Phrase.shape))
      (do
        let name ← name
        layout
        let args ← Reader.arguments phrase fuel
        pure (name, args))
      (do
        let name ← name
        layout
        let args ← Reader.arguments phrase' fuel'
        pure (name, args)) := by
    refine (agrees_name fun _ _ => rfl).bind fun name name' hname => agrees_layout ?_
    refine (h.arguments.fewer (Nat.le_succ n)).bind fun args args' hargs => agrees_pure ?_
    rw [Prod.map, hname, hargs, Prod.map]
  refine (hcall.tried .call).spanned.bind fun found found' hfound => agrees_pure ?_
  obtain ⟨span, name, args⟩ := found
  obtain ⟨span', name', args'⟩ := found'
  obtain ⟨hname, hargs⟩ := Prod.mk.inj hfound
  obtain rfl : name = name' := hname
  simp only [Phrase.shape, Phrase.shapeItems_eq_map, hargs]

theorem primary (h : AgreesBelow n phrase phrase' fuel fuel') :
    Agrees true .operand .operator (n + 1) 1 Phrase.shape (primary phrase fuel)
      (Reader.primary phrase' fuel') := by
  have hname : Agrees true .nonliteral .operator (n + 1) 1 Phrase.shape (atom .name Scanner.name)
      (atom .name Scanner.name) := by
    have htoken : Agrees true .nonliteral .operator (n + 1) 1 id (scan Scanner.name)
        (scan Scanner.name) := agrees_name_token fun _ _ => rfl
    refine (htoken.tried .name).spanned.bind fun found found' hfound => agrees_pure ?_
    rw [Phrase.shape, Phrase.shape, show found.2 = found'.2 from hfound]
  have hbrackets : Agrees true .operand .operator (n + 1) 1 Phrase.shape
      (oneOf [Reader.group phrase, Reader.list phrase fuel, Reader.map phrase fuel])
      (oneOf [Reader.group phrase', Reader.list phrase' fuel', Reader.map phrase' fuel']) :=
    h.group.orElse (h.list.orElse (h.map.orElse agrees_fail))
  unfold Reader.primary
  rw [List.append_assoc, List.append_assoc]
  exact hbrackets.oneOf_append (agrees_literals (h.call.orElse (hname.orElse agrees_fail)))

theorem choiceLink (h : AgreesBelow n phrase phrase' fuel fuel') :
    Agrees true .operator .operand (n + 1) 1 Link.shape (choiceLink phrase)
      (Reader.choiceLink phrase') := by
  have hquestion : Agrees true .operator .operand (n + 1) 1 id (expect ['?']) (expect ['?']) :=
    agrees_expect (by decide)
  have hcolon (n : Nat) : Agrees true .operator .operand n 1 id (expect [':']) (expect [':']) :=
    agrees_expect (by decide)
  refine Agrees.tried (hquestion.bind fun _ _ _ => agrees_layout ?_) _
  refine h.phrase.bind fun whenTrue whenTrue' heq => agrees_layout ?_
  refine (hcolon _).bind fun _ _ _ => agrees_pure ?_
  rw [Link.shape, heq, Link.shape]

theorem link (h : AgreesBelow n phrase phrase' fuel fuel') :
    Agrees true .operator .operand (n + 1) 1 Link.shape (link phrase) (Reader.link phrase') := by
  have hinfix : Agrees true .operator .operand (n + 1) 1 Link.shape
      (oneOf (infixMarks.map marked)) (oneOf (infixMarks.map marked)) :=
    agrees_marked (by decide) (by decide)
  have harith : Agrees true .operator .operand (n + 1) 1 Link.shape
      (oneOf (arithMarks.map marked)) (oneOf (arithMarks.map marked)) :=
    agrees_marked (by decide) (by decide)
  exact (h.choiceLink.orElse hinfix).oneOf_append (agrees_membership.orElse harith)

theorem member (h : AgreesBelow n phrase phrase' fuel fuel') :
    Agrees true .operator .operator (n + 1) 1 Selection.shape (member phrase fuel)
      (Reader.member phrase' fuel') := by
  have hpoint : Agrees true .operator .member (n + 1) 1 id (expect ['.']) (expect ['.']) :=
    agrees_expect (by decide)
  have hparts : Agrees true .operator .operator (n + 1) 1
      (Prod.map id (Option.map (List.map Phrase.shape)))
      (do
        expect ['.']
        layout
        let name ← name
        layout
        let args ← Reader.optional (Reader.arguments phrase fuel)
        pure (name, args))
      (do
        expect ['.']
        layout
        let name ← name
        layout
        let args ← Reader.optional (Reader.arguments phrase' fuel')
        pure (name, args)) := by
    refine hpoint.bind fun _ _ _ => agrees_layout ?_
    refine (agrees_name fun _ _ => rfl).bind fun name name' hname => agrees_layout ?_
    have hargs : Agrees true .operator .operator (n - 1) 0 (Option.map (List.map Phrase.shape))
        (Reader.optional (Reader.arguments phrase fuel))
        (Reader.optional (Reader.arguments phrase' fuel')) :=
      (h.arguments.fewer (by omega)).optional (fun _ hx => hx) fun _ hx => hx
    refine hargs.bind fun args args' hargs => agrees_pure ?_
    rw [Prod.map, hname, hargs, Prod.map]
  refine (hparts.tried .member).bind fun parts parts' heq => agrees_offset fun _ _ => ?_
  obtain ⟨name, args⟩ := parts
  obtain ⟨name', args'⟩ := parts'
  obtain ⟨hname, hargs⟩ := Prod.mk.inj heq
  obtain rfl : name = name' := hname
  cases args <;> cases args' <;> first | cases hargs | skip
  · exact agrees_pure rfl
  · refine agrees_pure ?_
    rw [Selection.shape, Selection.shape, Option.some.inj hargs]

theorem sign : Agrees true .operand .operand n 1 (fun s => ((0 : Nat), s.2)) sign sign := by
  have hneg : Agrees true .operand .operand n 1 id (expect ['-']) (expect ['-']) :=
    agrees_expect (by decide)
  have hnot : Agrees true .operand .operand n 1 id (expect ['!']) (expect ['!']) :=
    agrees_expect (by decide)
  refine agrees_offset fun _ _ => ?_
  have hop : Agrees true .operand .operand n 1 id
      (Reader.orElse (do mark .neg ['-']; pure UnaryOp.neg) (do mark .not ['!']; pure UnaryOp.not))
      (Reader.orElse (do mark .neg ['-']; pure UnaryOp.neg)
        (do mark .not ['!']; pure UnaryOp.not)) :=
    ((hneg.tried _).bind fun _ _ _ => agrees_pure rfl).orElse
      ((hnot.tried _).bind fun _ _ _ => agrees_pure rfl)
  exact hop.bind fun op op' heq => agrees_pure (congrArg _ heq)

theorem operand (h : AgreesBelow n phrase phrase' fuel fuel') :
    Agrees true .operand .operator (n + 1) 1 Phrase.shape (operand phrase fuel)
      (Reader.operand phrase' fuel') := by
  have hfuel := Nat.succ_le_succ h.fuel
  have hfuel' := Nat.succ_le_succ h.fuel'
  refine (sign.many hfuel hfuel').bind fun signs signs' hsigns => agrees_layout ?_
  refine h.primary.bind fun base base' hbase => agrees_layout ?_
  have hselections := ((h.member.orElse h.index).fewer (Nat.sub_le (n + 1) 1)).many
    (Nat.le_of_succ_le hfuel) (Nat.le_of_succ_le hfuel')
  refine hselections.bind fun selections selections' heq => agrees_pure ?_
  rw [Phrase.shape_signed, Phrase.shape_foldl_select, hsigns, hbase, heq,
    ← Phrase.shape_foldl_select, ← Phrase.shape_signed]

theorem linked (h : AgreesBelow n phrase phrase' fuel fuel') :
    Agrees true .operand .operator (n + 1) 1 Phrase.shape (linked phrase fuel)
      (Reader.linked phrase' fuel') := by
  have hnext : Agrees true .operator .operator n 1 (Prod.map Link.shape Phrase.shape)
      (do
        let link ← Reader.link phrase
        layout
        let right ← Reader.operand phrase fuel
        pure (link, right))
      (do
        let link ← Reader.link phrase'
        layout
        let right ← Reader.operand phrase' fuel'
        pure (link, right)) := by
    refine (h.link.fewer (Nat.le_succ n)).bind fun link link' hlink => agrees_layout ?_
    refine (h.operand.fewer (by omega)).bind fun right right' hright => agrees_pure ?_
    rw [Prod.map, hlink, hright, Prod.map]
  refine Agrees.tried (h.operand.bind fun first first' hfirst => agrees_layout ?_) _
  have hlinks := hnext.many (Nat.le_succ_of_le h.fuel) (Nat.le_succ_of_le h.fuel')
  refine hlinks.bind fun links links' heq => agrees_pure ?_
  rw [Phrase.shape_chain, hfirst, heq, ← Phrase.shape_chain]

end AgreesBelow

/-- Phrases are read alike with any two fuels that are enough for the lexemes left. -/
theorem agrees_phrase {fuel fuel' : Nat} (hfuel : n ≤ fuel) (hfuel' : n ≤ fuel') :
    Agrees true .operand .operator n 1 Phrase.shape (phrase fuel) (phrase fuel') := by
  -- each level down takes at least one lexeme
  induction n generalizing fuel fuel' with
  | zero => exact fun xs c c' hlength => absurd hlength (Nat.not_lt_zero _)
  | succ n ih =>
      obtain ⟨fuel, rfl⟩ := Nat.exists_eq_add_of_le' hfuel
      obtain ⟨fuel', rfl⟩ := Nat.exists_eq_add_of_le' hfuel'
      exact AgreesBelow.linked ⟨ih (Nat.le_add_left n fuel) (Nat.le_add_left n fuel'),
        Nat.le_add_left n fuel, Nat.le_add_left n fuel'⟩

theorem agrees_endOfInput : Agrees true .operator .operator n 0 id endOfInput endOfInput := by
  rintro xs c c' - halike
  rw [outcome_endOfInput, outcome_endOfInput]
  rcases halike.split with ⟨-, hnil, hnil'⟩ | ⟨x, ys, rest, rest', -, -, hx, hx', -⟩
  · rw [hnil, hnil']
    exact .some rfl (Nat.le_refl _) halike.anywhere
  · have hne {text rest : List Char} (h : lexeme text = some (x, rest)) : text.isEmpty = false := by
      cases text with
      | nil => cases h
      | cons => rfl
    rw [hne hx, hne hx']
    exact .none

end Reader

/-- Sources of the same lexemes are the same phrase, but for its offsets, or both are none. -/
theorem read?_congr {text text' : List Char} {xs : List Lexeme} (h : Laid .operand [] text xs)
    (h' : Laid .operand [] text' xs) :
    (Phrase.read? text).map Phrase.shape = (Phrase.read? text').map Phrase.shape := by
  have hsource : Reader.Agrees false .operand .operator (xs.length + 1) 1 Phrase.shape
      (Reader.source (text.length + 1)) (Reader.source (text'.length + 1)) := by
    refine Reader.Agrees.tried (Reader.agrees_layout ?_) _
    have hphrase := Reader.agrees_phrase (Nat.succ_le_succ h.length_le)
      (Nat.succ_le_succ h'.length_le)
    refine hphrase.bind fun p p' hp => Reader.agrees_layout ?_
    exact Reader.agrees_endOfInput.bind fun _ _ _ => Reader.agrees_pure hp
  have hmeet := hsource xs ⟨0, text⟩ ⟨0, text'⟩ (Nat.lt_succ_self _) ⟨⟨[], h, h'⟩, nofun⟩
  rw [Phrase.read?, Phrase.read?, Option.map_map, Option.map_map]
  exact hmeet.map_eq

end EmbeddedExpr.Grammar
