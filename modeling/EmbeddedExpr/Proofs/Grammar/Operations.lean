import EmbeddedExpr.Proofs.Grammar.Chain
import EmbeddedExpr.Proofs.Grammar.Lexemes
import Mathlib.Algebra.Order.BigOperators.Group.List

/-!
# Reading operations

The tokens of an operation with blanks between them are read as a phrase that means the operation
(`readsUpTo_phrase`).  A phrase is read as operands and links, an operand as signs, a base and
selections, and inside brackets and choices there are phrases again: the tokens of those are
fewer, so that the fuel, which counts the tokens, suffices for them.
-/

namespace EmbeddedExpr.Grammar

variable (extra : Expr → Bool) {rest : List (List Char)}

/-! ### How operations begin -/

/-- A bracket or a sign, or a name. -/
def IsOpening (token : List Char) : Prop :=
  token ∈ [['('], ['-'], ['!']] ∨ ∃ name, IsName name ∧ token = name.toList

theorem IsOpening.isToken {token : List Char} (h : IsOpening token) : IsToken token := by
  rcases h with hmark | ⟨name, hname, rfl⟩
  · revert token
    decide
  · exact hname.isToken

theorem isOpening_symbol (op : UnaryOp) : IsOpening op.symbol.toList := by
  cases op <;> exact .inl (by decide)

/-- A base is in parentheses, or it is a name. -/
theorem Part.IsBase.tokens_eq {p : Part} (h : p.IsBase) (hall : p.expr.All IsOperation) :
    p.tokens extra = ['('] :: (Grammar.tokens extra p.expr ++ [[')']]) ∨
      ∃ span name, p.expr = .ident span name ∧ IsName name ∧ p.tokens extra = [name.toList] := by
  obtain ⟨enclosed, e⟩ := p
  cases enclosed with
  | true => exact .inl rfl
  | false =>
      obtain ⟨span, name, rfl⟩ := h.resolve_left Bool.false_ne_true
      exact .inr ⟨span, name, rfl, hall.here, rfl⟩

theorem Part.IsBase.exists_opening {p : Part} (h : p.IsBase) (hall : p.expr.All IsOperation) :
    ∃ token more, p.tokens extra = token :: more ∧ IsOpening token := by
  rcases h.tokens_eq extra hall with htokens | ⟨_, name, _, hname, htokens⟩
  · exact ⟨_, _, htokens, .inl (by decide)⟩
  · exact ⟨_, _, htokens, .inr ⟨name, hname, rfl⟩⟩

theorem Part.IsOperand.exists_opening {p : Part} (h : p.IsOperand)
    (hall : p.expr.All IsOperation) :
    ∃ token more, p.tokens extra = token :: more ∧ IsOpening token := by
  obtain ⟨signs, target, hsigned⟩ := exists_signed extra h
  obtain ⟨htarget, htargetAll⟩ := hsigned.target_spec hall
  cases signs with
  | cons op signs =>
      rw [hsigned.tokens_eq]
      exact ⟨_, _, rfl, isOpening_symbol op⟩
  | nil =>
      obtain ⟨base, accesses, hselected⟩ := exists_selected extra htarget htargetAll
      obtain ⟨hbase, hbaseAll⟩ := hselected.base_spec htargetAll
      obtain ⟨token, more, htokens, hopening⟩ := hbase.exists_opening extra hbaseAll
      rw [hsigned.tokens_eq, hselected.tokens_eq, htokens]
      exact ⟨token, _, rfl, hopening⟩

theorem Part.exists_opening {p : Part} (hall : p.expr.All IsOperation) :
    ∃ token more, p.tokens extra = token :: more ∧ IsOpening token := by
  obtain ⟨first, links, hspine⟩ := exists_spine extra p
  obtain ⟨token, more, htokens, hopening⟩ :=
    hspine.isOperand.1.exists_opening extra (hspine.all hall).1
  rw [hspine.tokens_eq, htokens]
  exact ⟨token, _, rfl, hopening⟩

theorem Part.length_pos {p : Part} (hall : p.expr.All IsOperation) :
    0 < (p.tokens extra).length := by
  obtain ⟨token, more, htokens, -⟩ := exists_opening extra hall
  rw [htokens]
  exact Nat.zero_lt_succ _

variable {extra}

theorem leads_isOpening {p : Part} (hall : p.expr.All IsOperation) (rest : List (List Char)) :
    Leads IsOpening (p.tokens extra ++ rest) := by
  obtain ⟨token, more, htokens, hopening⟩ := Part.exists_opening extra hall
  rw [htokens]
  exact .cons hopening _

theorem leads_isToken_of_part {p : Part} (hall : p.expr.All IsOperation)
    (rest : List (List Char)) : Leads IsToken (p.tokens extra ++ rest) :=
  (leads_isOpening hall rest).mono fun _ => IsOpening.isToken

/-! ### Names, signs and what stands between brackets -/

namespace Reader

variable {phrase : Reader Phrase} {fuel : Nat} {ts : List (List Char)}

/-- What is read between two marks. -/
theorem takes_between {α β : Type} {r : Reader α} {good : α → Prop} (opening closing : Char)
    (hts : Leads IsToken (ts ++ [closing] :: rest)) (hclosing : [closing] ∈ closers)
    (h : Takes r (spaced (ts ++ [closing] :: rest)) ([closing] :: rest) good) (f : α → β) :
    Takes (do
        expect [opening]
        layout
        let a ← r
        layout
        expect [closing]
        pure (f a))
      (spaced ([opening] :: (ts ++ [closing] :: rest))) rest (fun b => ∃ a, b = f a ∧ good a) := by
  refine (reads_expect_token [opening] _).bind_takes fun _ _ => takes_layout (.inr rfl) hts ?_
  refine h.bind fun a ha _ hmiddle => ?_
  refine takes_layout hmiddle (leads_isToken_of_closers (.cons hclosing rest)) ?_
  exact (reads_expect_token [closing] rest).bind_takes fun _ _ => takes_pure (.inr rfl) ⟨a, rfl, ha⟩

theorem reads_name {name : String} (h : IsName name) (rest : List (List Char)) :
    Reads Reader.name (spaced (name.toList :: rest)) (trailing rest) (· = name.toList) :=
  ((reads_scan (h.name_append rest)).tried _).bind fun _ htoken => by
    rw [htoken]
    exact reads_pure rfl

theorem refuses_arguments (h : Leads (· ∈ followers) rest) :
    Refuses (arguments phrase fuel) (spaced rest) :=
  ((refuses_expect rfl (not_mem_head?_spaced h (by decide))).bind _).tried _

theorem reads_sign (op : UnaryOp) (rest : List (List Char)) :
    Reads sign (spaced (op.symbol.toList :: rest)) (trailing rest) (fun s => s.2 = op) := by
  refine reads_offset.bind fun _ _ => ?_
  refine Reads.bind ?_ fun _ hop => reads_pure hop
  cases op with
  | neg =>
      refine Reads.orElse ?_ _
      exact ((reads_expect_token ['-'] rest).tried .neg).bind fun _ _ => reads_pure rfl
  | not =>
      refine Refuses.orElse_reads ?_ ?_
      · exact ((refuses_expect_token (by decide) (by decide)).tried .neg).bind _
      · exact ((reads_expect_token ['!'] rest).tried .not).bind fun _ _ => reads_pure rfl

theorem takes_primary_name {name : String} (h : IsName name)
    (hrest : Leads (· ∈ followers) rest) :
    Takes (primary phrase fuel) (spaced (name.toList :: rest)) rest
      (fun p => ∃ span, p = .atom span (.name name.toList)) := by
  -- a call is tried first, and only what follows the name tells the two apart
  have hcall : Refuses (call phrase fuel) (spaced (name.toList :: rest)) := by
    refine (Refuses.tried ((reads_name h rest).bind_refuses fun _ _ => ?_) _).spanned.bind _
    refine (reads_layout_behind (.inr rfl) (leads_isToken_of_followers hrest)).bind_refuses ?_
    exact fun _ _ => (refuses_arguments hrest).bind _
  have hatom : Takes (atom .name Scanner.name) (spaced (name.toList :: rest)) rest
      (fun p => ∃ span, p = .atom span (.name name.toList)) :=
    (reads_atom (h.name_append rest)).takes (.inr rfl)
  have hreaders : [group phrase, list phrase fuel, map phrase fuel] ++
        literals.map (fun entry => atom entry.1 entry.2) ++
          [call phrase fuel, atom .name Scanner.name] =
      ([group phrase, list phrase fuel, map phrase fuel] ++
        literals.map (fun entry => atom entry.1 entry.2) ++ [call phrase fuel]) ++
          atom .name Scanner.name :: [] := by
    simp
  rw [primary, hreaders]
  refine takes_oneOf (List.forall_mem_append.mpr ⟨List.forall_mem_append.mpr ⟨?_, ?_⟩, ?_⟩) hatom
  · exact refuses_bracketed (h.bare rest)
  · exact List.forall_mem_map.mpr fun entry hentry => refuses_atom (h.literals_none rest entry hentry)
  · exact List.forall_mem_singleton.mpr hcall

end Reader

/-! ### Lengths -/

theorem length_le_length_flatMap {α β : Type} {f : α → List β} {xs : List α} {x : α}
    (h : x ∈ xs) : (f x).length ≤ (xs.flatMap f).length := by
  rw [List.length_flatMap]
  exact List.le_sum_of_mem (List.mem_map_of_mem h)

theorem count_le_length_flatMap {α β : Type} {f : α → List β} {xs : List α}
    (h : ∀ x ∈ xs, 1 ≤ (f x).length) : xs.length ≤ (xs.flatMap f).length := by
  rw [List.length_flatMap]
  simpa using List.length_le_sum_of_one_le (xs.map fun x => (f x).length)
    (List.forall_mem_map.mpr h)

theorem length_le_length_separated {items : List (List (List Char))} {item : List (List Char)}
    (h : item ∈ items) : item.length ≤ (separated items).length := by
  cases items with
  | nil => cases h
  | cons first more =>
      rw [separated, List.length_append]
      rcases List.mem_cons.mp h with rfl | h
      · exact Nat.le_add_right _ _
      · have hle := length_le_length_flatMap (f := ([','] :: ·)) h
        rw [List.length_cons] at hle
        omega

theorem count_le_length_separated (items : List (List (List Char))) :
    items.length ≤ (separated items).length + 1 := by
  cases items with
  | nil => exact Nat.zero_le _
  | cons first more =>
      have hle : more.length ≤ (more.flatMap ([','] :: ·)).length :=
        count_le_length_flatMap fun _ _ => Nat.le_add_left 1 _
      rw [separated, List.length_append, List.length_cons]
      omega

variable (extra) in
/-- What stands inside an access is shorter, and what it holds is fewer than its tokens. -/
theorem Access.lengths (access : Access) :
    access.parts.length < (access.tokens extra).length ∧
      ∀ q ∈ access.parts, (q.tokens extra).length < (access.tokens extra).length := by
  cases access with
  | field name => exact ⟨Nat.zero_lt_succ _, nofun⟩
  | method function args =>
      have hcount := count_le_length_separated (args.map fun arg => arg.tokens extra)
      rw [List.length_map] at hcount
      simp only [tokens, parts, List.length_cons, List.length_append, List.length_nil]
      refine ⟨by omega, fun q hq => ?_⟩
      have hle := length_le_length_separated
        (List.mem_map_of_mem (f := fun arg : Part => arg.tokens extra) hq)
      exact Nat.lt_of_le_of_lt hle (by omega)
  | index position =>
      simp only [tokens, parts, List.length_cons, List.length_append]
      exact ⟨by omega, List.forall_mem_singleton.mpr (by omega)⟩

variable (extra) in
theorem Joint.length_lt (joint : Joint) :
    0 < (joint.tokens extra).length ∧
      ∀ q ∈ joint.parts, (q.tokens extra).length < (joint.tokens extra).length := by
  cases joint with
  | op o => exact ⟨Nat.one_pos, nofun⟩
  | choice t =>
      simp only [tokens, parts, List.length_cons, List.length_append]
      exact ⟨by omega, List.forall_mem_singleton.mpr (by omega)⟩

/-! ### Parts -/

section Parts

variable (extra)

/-- The reader takes the part up to what closes it and yields a phrase that means it. -/
def Part.IsRead (phrase : Reader Phrase) (p : Part) : Prop :=
  ∀ rest, Leads (· ∈ closers) rest →
    Reader.Takes phrase (spaced (p.tokens extra ++ rest)) rest (·.Means p.expr)

/-- The fuel suffices for all operations of at most so many tokens. -/
def ReadsUpTo (fuel : Nat) : Prop :=
  ∀ p : Part, p.expr.All IsOperation → (p.tokens extra).length ≤ fuel →
    p.IsRead extra (Reader.phrase fuel)

variable {extra} {fuel : Nat} {p : Part}

namespace Reader

theorem takes_primary (hread : ReadsUpTo extra fuel) (hbase : p.IsBase)
    (hall : p.expr.All IsOperation) (hlength : (p.tokens extra).length ≤ fuel + 1)
    (hrest : Leads (· ∈ followers) rest) :
    Takes (primary (phrase fuel) fuel) (spaced (p.tokens extra ++ rest)) rest
      (·.MeansOperand p.expr) := by
  rcases hbase.tokens_eq extra hall with htokens | ⟨span, name, he, hname, htokens⟩
  · have hinner : Part.IsRead extra (phrase fuel) ⟨false, p.expr⟩ := by
      refine hread ⟨false, p.expr⟩ hall ?_
      rw [htokens, List.length_cons, List.length_append, List.length_singleton] at hlength
      exact (by omega : (Grammar.tokens extra p.expr).length ≤ fuel)
    have hcloses : Leads (· ∈ closers) ([')'] :: rest) := .cons (by decide) rest
    have hgroup := takes_between '(' ')'
      (leads_isToken_of_part (p := ⟨false, p.expr⟩) hall _) (by decide) (hinner _ hcloses)
      Phrase.group
    rw [htokens, List.cons_append, List.append_assoc]
    refine Takes.orElse ((hgroup.tried .group).mono ?_) _
    rintro _ ⟨inner, rfl, hmeans⟩
    exact ⟨hmeans.group, rfl⟩
  · rw [htokens, he]
    refine (takes_primary_name hname hrest).mono ?_
    rintro _ ⟨found, rfl⟩
    exact ⟨Phrase.means_name found span name, rfl⟩

/-! ### Selections -/

/-- A member is its name and what is made of the arguments behind it. -/
theorem takes_member {name : String} {tokens : List (List Char)}
    {good : Option (List Phrase) → Prop} (h : IsName name) (htokens : Leads IsToken tokens)
    (hargs : Takes (optional (arguments (phrase fuel) fuel)) (spaced tokens) rest good) :
    Takes (member (phrase fuel) fuel) (spaced (['.'] :: name.toList :: tokens)) rest
      (fun selection => ∃ stop, good none ∧ selection = .field name.toList stop ∨
        ∃ args, good (some args) ∧ selection = .method name.toList args stop) := by
  have hparts : Takes (do
        expect ['.']
        layout
        let name ← Reader.name
        layout
        let args ← optional (arguments (phrase fuel) fuel)
        pure (name, args))
      (spaced (['.'] :: name.toList :: tokens)) rest
      (fun parts => parts.1 = name.toList ∧ good parts.2) := by
    refine (reads_expect_token ['.'] _).bind_takes fun _ _ => ?_
    refine takes_layout (.inr rfl) (.cons h.isToken tokens) ?_
    refine (reads_name h tokens).bind_takes fun _ hname => takes_layout (.inr rfl) htokens ?_
    exact hargs.bind fun _ hgood _ hmiddle => takes_pure hmiddle ⟨hname, hgood⟩
  -- where arguments are looked for in vain, the member ends behind the layout
  refine (hparts.tried .member).bind fun parts hparts _ hmiddle => ?_
  obtain ⟨found, args⟩ := parts
  obtain ⟨rfl, hgood⟩ := hparts
  refine reads_offset.bind_takes fun stop _ => ?_
  cases args with
  | none => exact takes_pure hmiddle ⟨stop, .inl ⟨hgood, rfl⟩⟩
  | some args => exact takes_pure hmiddle ⟨stop, .inr ⟨args, hgood, rfl⟩⟩

theorem takes_field {name : String} (h : IsName name) (hrest : Leads (· ∈ followers) rest) :
    Takes (member (phrase fuel) fuel) (spaced (['.'] :: name.toList :: rest)) rest
      (Access.field name).Means := by
  have hnone : Takes (optional (arguments (phrase fuel) fuel)) (spaced rest) rest (· = none) :=
    (refuses_arguments hrest).optional.takes (.inl rfl)
  refine (takes_member h (leads_isToken_of_followers hrest) hnone).mono ?_
  rintro _ ⟨stop, ⟨-, rfl⟩ | ⟨_, hsome, -⟩⟩
  · exact .field name stop
  · cases hsome

theorem takes_method {function : String} {args : List Part} (h : IsName function)
    (hargs : ∀ q ∈ args, q.expr.All IsOperation ∧ q.IsRead extra (phrase fuel))
    (hcount : args.length ≤ fuel + 1) (rest : List (List Char)) :
    Takes (member (phrase fuel) fuel)
      (spaced ((Access.method function args).tokens extra ++ rest)) rest
      (Access.method function args).Means := by
  have heach : TakesEach (phrase fuel) (Part.tokens extra)
      (fun arg p => p.Means arg.expr) args :=
    ⟨fun q hq => leads_isToken_of_part (hargs q hq).1, fun q hq => (hargs q hq).2⟩
  have henclosed := takes_enclosed '(' ')' heach (.inl rfl) (by decide) (by decide)
    (refuses_phrase_closing (by decide) fuel (trailing rest)) hcount
  have htokens : (Access.method function args).tokens extra ++ rest =
      ['.'] :: function.toList :: ['('] ::
        (separated (args.map (Part.tokens extra)) ++ [')'] :: rest) := by
    simp [Access.tokens]
  rw [htokens]
  refine (takes_member h (.cons (by decide) _) (henclosed.tried .arguments).optional).mono ?_
  rintro _ ⟨stop, ⟨⟨_, hnone, -⟩, -⟩ | ⟨_, ⟨ps, hps, hmeans⟩, rfl⟩⟩
  · cases hnone
  · cases hps
    exact .method function stop hmeans

theorem takes_index {position : Part} (hall : position.expr.All IsOperation)
    (hread : position.IsRead extra (phrase fuel)) (rest : List (List Char)) :
    Takes (index (phrase fuel)) (spaced ((Access.index position).tokens extra ++ rest)) rest
      (Access.index position).Means := by
  have hcloses : Leads (· ∈ closers) ([']'] :: rest) := .cons (by decide) rest
  have hbetween := takes_between '[' ']' (leads_isToken_of_part hall _) (by decide)
    (hread _ hcloses) id
  rw [Access.tokens, List.cons_append, List.append_assoc]
  refine (hbetween.tried .index).bind fun p hp middle hmiddle => ?_
  obtain ⟨_, rfl, hmeans⟩ := hp
  exact reads_offset.bind_takes fun stop _ => takes_pure hmiddle (.index stop hmeans)

theorem takes_access {access : Access} (hnames : ∀ name ∈ access.names, IsName name)
    (hparts : ∀ q ∈ access.parts, q.expr.All IsOperation ∧ q.IsRead extra (phrase fuel))
    (hcount : access.parts.length ≤ fuel + 1) (hrest : Leads (· ∈ followers) rest) :
    Takes (orElse (member (phrase fuel) fuel) (index (phrase fuel)))
      (spaced (access.tokens extra ++ rest)) rest access.Means := by
  cases access with
  | field name => exact (takes_field (hnames name List.mem_cons_self) hrest).orElse _
  | method function args =>
      exact (takes_method (hnames function List.mem_cons_self) hparts hcount rest).orElse _
  | index position =>
      obtain ⟨hall, hread⟩ := hparts position List.mem_cons_self
      have hdot : Refuses (expect ['.'])
          (spaced ((Access.index position).tokens extra ++ rest)) :=
        refuses_expect_token (by decide) (by decide)
      exact (((hdot.bind _).tried _).bind _).orElse_takes (takes_index hall hread rest)

/-! ### Links -/

theorem takes_link {joint : Joint}
    (hparts : ∀ q ∈ joint.parts, q.expr.All IsOperation ∧ q.IsRead extra (phrase fuel))
    (rest : List (List Char)) :
    Takes (link (phrase fuel)) (spaced (joint.tokens extra ++ rest)) rest joint.Means := by
  cases joint with
  | op o => exact ((reads_link_op o rest).takes (.inr rfl)).mono fun _ heq => heq ▸ .op o
  | choice t =>
      obtain ⟨hall, hread⟩ := hparts t List.mem_cons_self
      have hcloses : Leads (· ∈ closers) ([':'] :: rest) := .cons (by decide) rest
      have hbetween := takes_between '?' ':' (leads_isToken_of_part hall _) (by decide)
        (hread _ hcloses) Link.choice
      rw [Joint.tokens, List.cons_append, List.append_assoc]
      refine Takes.orElse ((hbetween.tried .ternary).mono ?_) _
      rintro _ ⟨_, rfl, hmeans⟩
      exact .choice hmeans

/-! ### Operands -/

theorem takes_signs {signs : List UnaryOp} (hcount : signs.length ≤ fuel)
    (hrest : Leads IsToken rest) (hstop : Refuses sign (spaced rest)) :
    Takes (many sign fuel) (spaced (signs.map (fun op => op.symbol.toList) ++ rest)) rest
      (List.Forall₂ (fun op sign => sign.2 = op) signs) := by
  rw [List.map_eq_flatMap]
  refine takes_many (fun _ h => h) ?_ ?_ hrest hstop hcount
  · exact fun op _ tokens => .cons (isOpening_symbol op).isToken tokens
  · exact fun op _ tokens _ => (reads_sign op tokens).takes (.inr rfl)

theorem refuses_sign_base (hbase : p.IsBase) (hall : p.expr.All IsOperation)
    (rest : List (List Char)) : Refuses sign (spaced (p.tokens extra ++ rest)) := by
  refine refuses_sign ?_
  rcases hbase.tokens_eq extra hall with htokens | ⟨_, name, _, hname, htokens⟩
  · rw [htokens]
    exact ⟨by simp [spaced], by simp [spaced]⟩
  · rw [htokens]
    exact (hname.bare rest).unsigned

theorem leads_access (access : Access) (rest : List (List Char)) :
    Leads (· ∈ followers) (access.tokens extra ++ rest) := by
  cases access <;> exact .cons (by decide) _

theorem takes_accesses (hread : ReadsUpTo extra fuel) {accesses : List Access}
    (hspec : ∀ access ∈ accesses, (∀ q ∈ access.parts, q.expr.All IsOperation) ∧
      ∀ name ∈ access.names, IsName name)
    (hlength : (accesses.flatMap (Access.tokens extra)).length ≤ fuel)
    (hrest : Leads (· ∈ enders) rest) :
    Takes (many (orElse (member (phrase fuel) fuel) (index (phrase fuel))) fuel)
      (spaced (accesses.flatMap (Access.tokens extra) ++ rest)) rest
      (List.Forall₂ Access.Means accesses) := by
  have hcount : accesses.length ≤ fuel := Nat.le_trans
    (count_le_length_flatMap fun access _ => Nat.zero_lt_of_lt (access.lengths extra).1) hlength
  have hstop : Refuses (orElse (member (phrase fuel) fuel) (index (phrase fuel))) (spaced rest) :=
    refuses_selection (not_mem_head?_spaced hrest (by decide))
      (not_mem_head?_spaced hrest (by decide))
  refine takes_many (fun _ => leads_isToken_of_followers) (fun access _ => leads_access access)
    (fun access haccess tokens htokens => ?_) hrest.followers hstop hcount
  obtain ⟨hall, hnames⟩ := hspec access haccess
  obtain ⟨hfew, hshort⟩ := access.lengths extra
  have hle : (access.tokens extra).length ≤ fuel :=
    Nat.le_trans (length_le_length_flatMap haccess) hlength
  refine takes_access hnames (fun q hq => ⟨hall q hq, ?_⟩) (by omega) htokens
  exact hread q (hall q hq) (Nat.le_trans (Nat.le_of_lt (hshort q hq)) hle)

theorem takes_operand (hread : ReadsUpTo extra fuel) (hoperand : p.IsOperand)
    (hall : p.expr.All IsOperation) (hlength : (p.tokens extra).length ≤ fuel + 1)
    (hrest : Leads (· ∈ enders) rest) :
    Takes (operand (phrase fuel) fuel) (spaced (p.tokens extra ++ rest)) rest
      (·.MeansOperand p.expr) := by
  obtain ⟨signs, target, hsigned⟩ := exists_signed extra hoperand
  obtain ⟨htarget, htargetAll⟩ := hsigned.target_spec hall
  obtain ⟨base, accesses, hselected⟩ := exists_selected extra htarget htargetAll
  obtain ⟨hbase, hbaseAll⟩ := hselected.base_spec htargetAll
  have hbasePos := Part.length_pos extra hbaseAll
  have haccesses : Leads (· ∈ followers) (accesses.flatMap (Access.tokens extra) ++ rest) :=
    follows_flatMap (fun access _ => leads_access access) hrest.followers
  have hopens : Leads IsToken
      (base.tokens extra ++ (accesses.flatMap (Access.tokens extra) ++ rest)) :=
    leads_isToken_of_part hbaseAll _
  -- the base has a token at least, so that signs and accesses are fewer than the tokens
  rw [hsigned.tokens_eq, hselected.tokens_eq, List.length_append, List.length_append,
    List.length_map] at hlength
  rw [hsigned.tokens_eq, hselected.tokens_eq, List.append_assoc, List.append_assoc]
  refine (takes_signs (by omega) hopens (refuses_sign_base hbase hbaseAll _)).bind
    fun read hsigns middle hmiddle => ?_
  refine takes_layout hmiddle hopens ?_
  refine (takes_primary hread hbase hbaseAll (by omega) haccesses).bind
    fun operand hoperand middle hmiddle => ?_
  refine takes_layout hmiddle (leads_isToken_of_followers haccesses) ?_
  refine (takes_accesses hread (hselected.accesses_spec htargetAll) (by omega) hrest).bind
    fun selections hselections middle hmiddle => ?_
  exact takes_pure hmiddle
    (hsigned.means (hselected.means htargetAll hoperand hselections) hsigns)

/-! ### Phrases -/

theorem leads_link (link : Joint × Part) (rest : List (List Char)) :
    Leads (· ∈ enders) (linkTokens extra link ++ rest) := by
  obtain ⟨joint, operand⟩ := link
  cases joint with
  | op o => exact .cons (List.mem_append_left _ o.symbol_mem_linkers) _
  | choice t => exact .cons (by decide) _

theorem takes_linkOperand (hread : ReadsUpTo extra fuel) {link : Joint × Part}
    (hoperand : link.2.IsOperand) (hall : link.2.expr.All IsOperation)
    (hparts : ∀ q ∈ link.1.parts, q.expr.All IsOperation)
    (hlength : (linkTokens extra link).length ≤ fuel) (hrest : Leads (· ∈ enders) rest) :
    Takes (do
        let link ← Reader.link (phrase fuel)
        layout
        let right ← operand (phrase fuel) fuel
        pure (link, right))
      (spaced (linkTokens extra link ++ rest)) rest (LinkMeans link) := by
  rw [linkTokens, List.length_append] at hlength
  have hinner : ∀ q ∈ link.1.parts, q.expr.All IsOperation ∧ q.IsRead extra (phrase fuel) := by
    intro q hq
    have hlt := (link.1.length_lt extra).2 q hq
    exact ⟨hparts q hq, hread q (hparts q hq) (by omega)⟩
  rw [linkTokens, List.append_assoc]
  refine (takes_link hinner _).bind fun joint hjoint middle hmiddle => ?_
  refine takes_layout hmiddle (leads_isToken_of_part hall _) ?_
  refine (takes_operand hread hoperand hall (by omega) hrest).bind
    fun right hright middle hmiddle => ?_
  exact takes_pure hmiddle ⟨hjoint, hright⟩

theorem takes_links (hread : ReadsUpTo extra fuel) {links : List (Joint × Part)}
    (hoperands : ∀ link ∈ links, link.2.IsOperand)
    (hspec : ∀ link ∈ links, link.2.expr.All IsOperation ∧
      ∀ q ∈ link.1.parts, q.expr.All IsOperation)
    (hlength : (links.flatMap (linkTokens extra)).length ≤ fuel)
    (hrest : Leads (· ∈ closers) rest) :
    Takes (many (do
        let link ← link (phrase fuel)
        layout
        let right ← operand (phrase fuel) fuel
        pure (link, right)) fuel)
      (spaced (links.flatMap (linkTokens extra) ++ rest)) rest
      (List.Forall₂ LinkMeans links) := by
  have hone : ∀ link ∈ links, 1 ≤ (linkTokens extra link).length := by
    intro link _
    rw [linkTokens, List.length_append]
    exact Nat.le_add_right_of_le (link.1.length_lt extra).1
  have hstop : Refuses (link (phrase fuel)) (spaced rest) :=
    closes_refuses_link (closes_spaced hrest)
  refine takes_many (fun _ h => leads_isToken_of_followers h.followers)
    (fun link _ => leads_link link) (fun link hlink tokens htokens => ?_) hrest.enders
    (hstop.bind _) (Nat.le_trans (count_le_length_flatMap hone) hlength)
  obtain ⟨hall, hparts⟩ := hspec link hlink
  have hle := Nat.le_trans (length_le_length_flatMap hlink) hlength
  exact takes_linkOperand hread (hoperands link hlink) hall hparts hle htokens

end Reader

variable (extra) in
/-- The fuel for a phrase suffices if it counts the tokens. -/
theorem readsUpTo_phrase (fuel : Nat) : ReadsUpTo extra fuel := by
  induction fuel with
  | zero =>
      intro p hall hlength
      exact absurd (Part.length_pos extra hall) (Nat.not_lt.mpr hlength)
  | succ fuel ih =>
      -- the phrases inside this one stand between marks, which are tokens too
      intro p hall hlength rest hrest
      obtain ⟨first, links, hspine⟩ := exists_spine extra p
      obtain ⟨hfirstAll, hspec⟩ := hspine.all hall
      obtain ⟨hfirst, hoperands⟩ := hspine.isOperand
      have hlinks : Leads (· ∈ enders) (links.flatMap (linkTokens extra) ++ rest) :=
        Reader.follows_flatMap (fun link _ => Reader.leads_link link) hrest.enders
      have hpos := Part.length_pos extra hfirstAll
      rw [hspine.tokens_eq, List.length_append] at hlength
      rw [hspine.tokens_eq, List.append_assoc]
      refine Reader.Takes.tried ?_ _
      refine (Reader.takes_operand ih hfirst hfirstAll (by omega) hlinks).bind
        fun operand hoperand middle hmiddle => ?_
      refine Reader.takes_layout hmiddle (leads_isToken_of_followers hlinks.followers) ?_
      refine (Reader.takes_links ih hoperands hspec (by omega) hrest).bind
        fun read hread middle hmiddle => ?_
      exact Reader.takes_pure hmiddle (hspine.means hoperand hread).1

end Parts

end EmbeddedExpr.Grammar
