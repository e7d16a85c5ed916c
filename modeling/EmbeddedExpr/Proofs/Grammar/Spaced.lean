import EmbeddedExpr.Proofs.Grammar.Operand

/-!
# Reading tokens with blanks between them

A text may be given by its tokens, with a blank between each two (`spaced`).  A reader that has
read some of them stops directly behind the last one or, where it looked for more in vain, behind
the blank after it; layout makes no difference between the two (`reads_layout_behind`).
`Takes r text rest good` says that a reader gets from a text to where the tokens `rest` are left.

A token ends where the blank after it stands, so that a mark is read at a token just if it begins
the token, and a name is read whole.
-/

namespace EmbeddedExpr.Grammar

/-- Tokens each of which follows a blank. -/
def trailing (tokens : List (List Char)) : List Char := tokens.flatMap (' ' :: ·)

/-- Tokens with a blank between each two. -/
def spaced : List (List Char) → List Char
  | [] => []
  | token :: rest => token ++ trailing rest

/-- The text begins no layout: it has a first character, which is no blank, and no slash unless it
stands alone. -/
def IsToken : List Char → Prop
  | [] => False
  | c :: rest => Cursor.isBlank c = false ∧ (c = '/' → rest = [])

instance : DecidablePred IsToken := fun token =>
  match token with
  | [] => inferInstanceAs (Decidable False)
  | _ :: _ => inferInstanceAs (Decidable (_ ∧ (_ → _)))

/-- The tokens are none, or the first of them is as `good` says. -/
def Leads (good : List Char → Prop) (tokens : List (List Char)) : Prop :=
  ∀ token ∈ tokens.head?, good token

theorem Leads.cons {good : List Char → Prop} {token : List Char} (h : good token)
    (rest : List (List Char)) : Leads good (token :: rest) := by
  rintro _ ⟨⟩
  exact h

theorem Leads.mono {good better : List Char → Prop} {tokens : List (List Char)}
    (h : Leads good tokens) (himp : ∀ token, good token → better token) : Leads better tokens :=
  fun token htoken => himp token (h token htoken)

/-- What is left of a text are these tokens, with the blank before them or without. -/
def Behind (text : List Char) (tokens : List (List Char)) : Prop :=
  text = spaced tokens ∨ text = trailing tokens

theorem trailing_eq (tokens : List (List Char)) :
    trailing tokens = [] ∧ tokens = [] ∨ trailing tokens = ' ' :: spaced tokens := by
  cases tokens with
  | nil => exact .inl ⟨rfl, rfl⟩
  | cons token rest => exact .inr rfl

theorem trailing_head {tokens : List (List Char)} : ∀ c ∈ (trailing tokens).head?, c = ' ' := by
  intro c hc
  rcases trailing_eq tokens with ⟨h, -⟩ | h
  · rw [h] at hc
    cases hc
  · rw [h] at hc
    cases hc
    rfl

namespace Reader

variable {α β γ : Type} {text middle : List Char} {tokens rest : List (List Char)}

/-! ### Layout -/

theorem skip_spaced (h : Leads IsToken tokens) (offset : Nat) :
    Cursor.skipFrom false offset (spaced tokens) = ⟨offset, spaced tokens⟩ := by
  cases tokens with
  | nil => rfl
  | cons token more =>
      have htoken := h token rfl
      cases token with
      | nil => exact htoken.elim
      | cons c run =>
          obtain ⟨hblank, hslash⟩ := htoken
          rw [spaced, List.cons_append]
          unfold Cursor.skipFrom
          split
          · rename_i heq
            cases heq
          · -- a slash stands alone, and a blank follows it
            rename_i heq
            obtain ⟨rfl, hrun⟩ := List.cons.inj heq
            obtain rfl := hslash rfl
            rw [List.nil_append] at hrun
            exact absurd (trailing_head '/' (by rw [hrun]; rfl)) (by decide)
          · rename_i heq
            obtain ⟨rfl, rfl⟩ := List.cons.inj heq
            rw [if_neg nofun, if_neg (by simp [hblank])]

theorem reads_layout_behind (htext : Behind text tokens) (h : Leads IsToken tokens) :
    Reads layout text (spaced tokens) (fun _ => True) := by
  intro offset
  have hskip : ∃ stop, Cursor.skipFrom false offset text = ⟨stop, spaced tokens⟩ := by
    rcases htext with rfl | rfl
    · exact ⟨offset, skip_spaced h offset⟩
    · rcases trailing_eq tokens with ⟨hnil, rfl⟩ | hcons
      · rw [hnil]
        exact ⟨offset, rfl⟩
      · refine ⟨offset + 1, ?_⟩
        rw [hcons, Cursor.skipFrom, if_neg Bool.false_ne_true, if_pos (by decide),
          skip_spaced h]
        exact fun _ hslash _ => absurd hslash (by decide)
  obtain ⟨stop, hstop⟩ := hskip
  exact ⟨(), stop, by rw [layout, Cursor.skip, hstop], trivial⟩

/-! ### Readers of tokens -/

/-- The reader gets from the text to where the tokens `rest` are left and yields a result as
`good` says. -/
def Takes (r : Reader α) (text : List Char) (rest : List (List Char)) (good : α → Prop) : Prop :=
  ∀ offset, ∃ a stop after, (r ⟨offset, text⟩).outcome = some (a, ⟨stop, after⟩) ∧
    Behind after rest ∧ good a

theorem Reads.takes {r : Reader α} {good : α → Prop} (h : Reads r text middle good)
    (hmiddle : Behind middle rest) : Takes r text rest good := by
  intro offset
  obtain ⟨a, stop, hr, ha⟩ := h offset
  exact ⟨a, stop, middle, hr, hmiddle, ha⟩

theorem takes_pure {good : α → Prop} {a : α} (htext : Behind text rest) (h : good a) :
    Takes (pure a : Reader α) text rest good :=
  (reads_pure h).takes htext

theorem Takes.mono {r : Reader α} {good better : α → Prop} (h : Takes r text rest good)
    (himp : ∀ a, good a → better a) : Takes r text rest better := by
  intro offset
  obtain ⟨a, stop, after, hr, hafter, ha⟩ := h offset
  exact ⟨a, stop, after, hr, hafter, himp a ha⟩

/-- After what is read exactly. -/
theorem Reads.bind_takes {r : Reader α} {next : α → Reader β} {good : α → Prop}
    {better : β → Prop} (h : Reads r text middle good)
    (hnext : ∀ a, good a → Takes (next a) middle rest better) :
    Takes (r >>= next) text rest better := by
  intro offset
  obtain ⟨a, between, hr, ha⟩ := h offset
  obtain ⟨b, stop, after, hb, hafter, hgood⟩ := hnext a ha between
  exact ⟨b, stop, after, by rw [outcome_bind hr, hb], hafter, hgood⟩

/-- After what is read up to the blank or behind it. -/
theorem Takes.bind {r : Reader α} {next : α → Reader β} {good : α → Prop} {better : β → Prop}
    (h : Takes r text tokens good)
    (hnext : ∀ a, good a → ∀ middle, Behind middle tokens → Takes (next a) middle rest better) :
    Takes (r >>= next) text rest better := by
  intro offset
  obtain ⟨a, between, middle, hr, hmiddle, ha⟩ := h offset
  obtain ⟨b, stop, after, hb, hafter, hgood⟩ := hnext a ha middle hmiddle between
  exact ⟨b, stop, after, by rw [outcome_bind hr, hb], hafter, hgood⟩

/-- Layout comes between what was read and the next token. -/
theorem takes_layout {next : Unit → Reader β} {better : β → Prop} (htext : Behind text tokens)
    (h : Leads IsToken tokens) (hnext : Takes (next ()) (spaced tokens) rest better) :
    Takes (layout >>= next) text rest better :=
  (reads_layout_behind htext h).bind_takes fun _ _ => hnext

theorem Takes.orElse {p : Reader α} {good : α → Prop} (h : Takes p text rest good)
    (q : Reader α) : Takes (Reader.orElse p q) text rest good := by
  intro offset
  obtain ⟨a, stop, after, hp, hafter, ha⟩ := h offset
  exact ⟨a, stop, after, by simp only [Reader.orElse, hp], hafter, ha⟩

theorem Refuses.orElse_takes {p q : Reader α} {good : α → Prop} (hp : Refuses p text)
    (hq : Takes q text rest good) : Takes (Reader.orElse p q) text rest good := by
  intro offset
  obtain ⟨a, stop, after, hr, hafter, ha⟩ := hq offset
  exact ⟨a, stop, after, by simp only [Reader.orElse, hp offset, hr], hafter, ha⟩

theorem takes_oneOf {before after : List (Reader α)} {r : Reader α} {good : α → Prop}
    (hbefore : ∀ q ∈ before, Refuses q text) (h : Takes r text rest good) :
    Takes (oneOf (before ++ r :: after)) text rest good := by
  induction before with
  | nil => exact h.orElse _
  | cons q before ih =>
      exact (hbefore q List.mem_cons_self).orElse_takes
        (ih fun p hp => hbefore p (List.mem_cons_of_mem _ hp))

theorem Takes.tried {r : Reader α} {good : α → Prop} (h : Takes r text rest good)
    (construct : Construct) : Takes (tried construct r) text rest good := by
  intro offset
  obtain ⟨a, stop, after, hr, hafter, ha⟩ := h offset
  exact ⟨a, stop, after, by simp only [Reader.tried, hr], hafter, ha⟩

theorem Takes.optional {r : Reader α} {good : α → Prop} (h : Takes r text rest good) :
    Takes (optional r) text rest (fun found => ∃ a, found = some a ∧ good a) :=
  Takes.orElse (h.bind fun a ha _ hmiddle => takes_pure hmiddle ⟨a, rfl, ha⟩) _

/-- A mark that is a token. -/
theorem reads_expect_token (mark : List Char) (rest : List (List Char)) :
    Reads (expect mark) (spaced (mark :: rest)) (trailing rest) (fun _ => True) :=
  reads_expect mark (trailing rest)

/-! ### Repetitions -/

section Items

variable {r : Reader α} {shown : γ → List (List Char)} {good : γ → α → Prop} {xs : List γ}
  {fuel : Nat} {follows : List (List Char) → Prop}

theorem follows_flatMap (hshown : ∀ x ∈ xs, ∀ tokens, follows (shown x ++ tokens))
    (hrest : follows rest) : follows (xs.flatMap shown ++ rest) := by
  cases xs with
  | nil => exact hrest
  | cons x xs =>
      rw [List.flatMap_cons, List.append_assoc]
      exact hshown x List.mem_cons_self _

/-- Items are read one after the other.  Behind each of them there is a token as `follows`
says, which begins the next one or makes the repetition stop. -/
theorem takes_following
    (hsettled : ∀ tokens, follows tokens → Leads IsToken tokens)
    (hshown : ∀ x ∈ xs, ∀ tokens, follows (shown x ++ tokens))
    (h : ∀ x ∈ xs, ∀ tokens, follows tokens →
      Takes r (spaced (shown x ++ tokens)) tokens (good x))
    (hrest : follows rest) (hstop : Refuses r (spaced rest)) (hfuel : xs.length ≤ fuel)
    (htext : Behind text (xs.flatMap shown ++ rest)) :
    Takes (following r fuel) text rest (List.Forall₂ good xs) := by
  induction xs generalizing fuel text with
  | nil =>
      cases fuel with
      | zero => exact takes_pure htext .nil
      | succ fuel =>
          refine Refuses.orElse_takes ?_ (takes_pure htext .nil)
          exact (reads_layout_behind htext (hsettled _ hrest)).bind_refuses fun _ _ => hstop.bind _
  | cons x xs ih =>
      cases fuel with
      | zero => exact absurd hfuel (Nat.not_succ_le_zero _)
      | succ fuel =>
          have hmore := follows_flatMap (fun y hy => hshown y (List.mem_cons_of_mem _ hy)) hrest
          rw [List.flatMap_cons, List.append_assoc] at htext
          refine Takes.orElse (takes_layout htext ?_ ?_) _
          · exact hsettled _ (hshown x List.mem_cons_self _)
          refine (h x List.mem_cons_self _ hmore).bind fun a ha middle hmiddle => ?_
          refine (ih (fun y hy => hshown y (List.mem_cons_of_mem _ hy))
            (fun y hy => h y (List.mem_cons_of_mem _ hy)) (Nat.le_of_succ_le_succ hfuel)
            hmiddle).bind fun as has _ hafter => ?_
          exact takes_pure hafter (.cons ha has)

theorem takes_many
    (hsettled : ∀ tokens, follows tokens → Leads IsToken tokens)
    (hshown : ∀ x ∈ xs, ∀ tokens, follows (shown x ++ tokens))
    (h : ∀ x ∈ xs, ∀ tokens, follows tokens →
      Takes r (spaced (shown x ++ tokens)) tokens (good x))
    (hrest : follows rest) (hstop : Refuses r (spaced rest)) (hfuel : xs.length ≤ fuel) :
    Takes (many r fuel) (spaced (xs.flatMap shown ++ rest)) rest (List.Forall₂ good xs) := by
  cases xs with
  | nil =>
      exact (hstop.many fuel).takes (.inl rfl) |>.mono fun _ hnil => hnil ▸ .nil
  | cons x xs =>
      have hmore := follows_flatMap (fun y hy => hshown y (List.mem_cons_of_mem _ hy)) hrest
      rw [many, List.flatMap_cons, List.append_assoc]
      refine Takes.orElse ((h x List.mem_cons_self _ hmore).bind fun a ha middle hmiddle => ?_) _
      refine (takes_following hsettled (fun y hy => hshown y (List.mem_cons_of_mem _ hy))
        (fun y hy => h y (List.mem_cons_of_mem _ hy)) hrest hstop (Nat.le_of_succ_le hfuel)
        hmiddle).bind fun as has _ hafter => ?_
      exact takes_pure hafter (.cons ha has)

end Items

end Reader

/-! ### Items between brackets -/

/-- Tokens with a comma between each two items. -/
def separated : List (List (List Char)) → List (List Char)
  | [] => []
  | first :: rest => first ++ rest.flatMap ([','] :: ·)

/-- What ends an expression inside another one. -/
def closers : List (List Char) := [[','], [':'], [')'], [']'], ['\x7d']]

theorem leads_isToken_of_closers {tokens : List (List Char)} (h : Leads (· ∈ closers) tokens) :
    Leads IsToken tokens :=
  h.mono (by decide)

namespace Reader

variable {α γ : Type} {item : Reader α} {shown : γ → List (List Char)} {good : γ → α → Prop}
  {xs : List γ} {fuel : Nat} {rest : List (List Char)}

/-- The item reads the tokens of each of the list up to what ends an expression. -/
structure TakesEach (item : Reader α) (shown : γ → List (List Char)) (good : γ → α → Prop)
    (xs : List γ) : Prop where
  settled : ∀ x ∈ xs, ∀ tokens, Leads IsToken (shown x ++ tokens)
  takes : ∀ x ∈ xs, ∀ tokens, Leads (· ∈ closers) tokens →
    Takes item (spaced (shown x ++ tokens)) tokens (good x)

theorem takes_commaSeparated {x : γ} {comma : List (List Char)}
    (h : TakesEach item shown good (x :: xs)) (hlast : comma = [] ∨ comma = [[',']])
    (hrest : Leads (· ∈ closers) rest) (hcomma : ',' ∉ (spaced rest).head?)
    (hend : Refuses item (spaced rest)) (hfuel : xs.length ≤ fuel) :
    Takes (commaSeparated item fuel)
      (spaced (separated ((x :: xs).map shown) ++ (comma ++ rest))) rest
      (List.Forall₂ good (x :: xs)) := by
  have hshown : ∀ y ∈ xs, ∀ tokens, Leads (· ∈ closers) ([','] :: shown y ++ tokens) :=
    fun y _ tokens => .cons (by decide) _
  have hnext : ∀ y ∈ xs, ∀ tokens, Leads (· ∈ closers) tokens →
      Takes (do expect [',']; layout; item) (spaced ([','] :: shown y ++ tokens)) tokens
        (good y) := by
    intro y hy tokens htokens
    refine (reads_expect_token [','] (shown y ++ tokens)).bind_takes fun _ _ => ?_
    have hmem := List.mem_cons_of_mem x hy
    exact takes_layout (.inr rfl) (h.settled y hmem tokens) (h.takes y hmem tokens htokens)
  have hbehind : Leads (· ∈ closers) (comma ++ rest) := by
    rcases hlast with rfl | rfl
    · exact hrest
    · exact .cons (by decide) rest
  have hmore : Leads (· ∈ closers) (xs.flatMap (fun y => [','] :: shown y) ++ (comma ++ rest)) :=
    follows_flatMap hshown hbehind
  have hstop : Refuses (do expect [',']; layout; item) (spaced (comma ++ rest)) := by
    rcases hlast with rfl | rfl
    · exact (refuses_expect rfl hcomma).bind _
    · -- no item stands behind the last comma
      refine (reads_expect_token [','] rest).bind_refuses fun _ _ => ?_
      exact (reads_layout_behind (.inr rfl) (leads_isToken_of_closers hrest)).bind_refuses
        fun _ _ => hend
  have hoptional : Takes (optional (expect [','])) (spaced (comma ++ rest)) rest
      (fun _ => True) := by
    rcases hlast with rfl | rfl
    · exact (((refuses_expect rfl hcomma).optional).takes (.inl rfl)).mono fun _ _ => trivial
    · exact ((reads_expect_token [','] rest).takes (.inr rfl)).optional.mono fun _ _ => trivial
  rw [List.map_cons, separated, List.flatMap_map, List.append_assoc]
  refine (h.takes x List.mem_cons_self _ hmore).bind fun a ha middle hmiddle => ?_
  refine takes_layout hmiddle (leads_isToken_of_closers hmore) ?_
  refine (takes_many (fun _ => leads_isToken_of_closers) hshown hnext hbehind hstop hfuel).bind
    fun as has middle hmiddle => ?_
  refine takes_layout hmiddle (leads_isToken_of_closers hbehind) ?_
  exact hoptional.bind fun _ _ _ hafter => takes_pure hafter (.cons ha has)

/-- Items between brackets are read up to the closing bracket.  A comma may stand behind the last
one. -/
theorem takes_enclosed (opening closing : Char) {comma : List (List Char)}
    (h : TakesEach item shown good xs) (hlast : comma = [] ∨ xs ≠ [] ∧ comma = [[',']])
    (hclosing : [closing] ∈ closers) (hcomma : closing ≠ ',')
    (hstop : Refuses item (spaced ([closing] :: rest))) (hfuel : xs.length ≤ fuel + 1) :
    Takes (enclosed opening closing item fuel)
      (spaced ([opening] :: (separated (xs.map shown) ++ (comma ++ [closing] :: rest)))) rest
      (List.Forall₂ good xs) := by
  have hcloses : Leads (· ∈ closers) ([closing] :: rest) := .cons hclosing rest
  refine (reads_expect_token [opening] _).bind_takes fun _ _ => ?_
  cases xs with
  | nil =>
      obtain rfl : comma = [] := hlast.resolve_right fun hsome => hsome.1 rfl
      refine takes_layout (.inr rfl) (leads_isToken_of_closers hcloses) ?_
      have hnone : Refuses (commaSeparated item fuel) (spaced ([closing] :: rest)) := hstop.bind _
      refine (hnone.optional.takes (.inl rfl)).bind fun found hfound _ hmiddle => ?_
      refine takes_layout hmiddle (leads_isToken_of_closers hcloses) ?_
      refine (reads_expect_token [closing] rest).bind_takes fun _ _ => takes_pure (.inr rfl) ?_
      rw [hfound]
      exact .nil
  | cons x xs =>
      have hhead : ',' ∉ (spaced ([closing] :: rest)).head? := by
        rintro ⟨⟩
        exact hcomma rfl
      have hsettled : Leads IsToken
          (separated ((x :: xs).map shown) ++ (comma ++ [closing] :: rest)) := by
        rw [List.map_cons, separated, List.append_assoc]
        exact h.settled x List.mem_cons_self _
      refine takes_layout (.inr rfl) hsettled ?_
      have hsome := takes_commaSeparated h (hlast.imp_right And.right) hcloses hhead hstop
        (Nat.le_of_succ_le_succ hfuel)
      refine hsome.optional.bind fun found hfound _ hmiddle => ?_
      refine takes_layout hmiddle (leads_isToken_of_closers hcloses) ?_
      refine (reads_expect_token [closing] rest).bind_takes fun _ _ => takes_pure (.inr rfl) ?_
      obtain ⟨as, rfl, has⟩ := hfound
      exact has

end Reader

end EmbeddedExpr.Grammar
