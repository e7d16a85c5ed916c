import EmbeddedExpr.Proofs.Grammar.Parts
import EmbeddedExpr.Proofs.Grammar.Walk

/-!
# What the scan of the nesting counts

The scan goes over the lexemes of a phrase and blames the depth where more is open than the bound
allows.  How deep it comes is read off the phrase (`Phrase.scanned`).  It depends on the signs in
front, which the scan still counts when it comes to an opening bracket, and a phrase leaves behind
the question marks outside its brackets (`Phrase.marks`), which the scan goes on to count up to the
next comma or closing bracket.

The scan blames the depth of a source just if it comes deeper than the bound in the phrase that the
source is (`tooDeep_check_iff`).
-/

namespace EmbeddedExpr.Grammar

/-! ### Counts -/

namespace InfixOp

/-- The signs in the symbol of the operator. -/
def signs : InfixOp → Nat
  | .arith .sub | .relation .ne => 1
  | _ => 0

/-- The signs at the end of the symbol of the operator. -/
def trailingSigns : InfixOp → Nat
  | .arith .sub => 1
  | _ => 0

end InfixOp

namespace Phrase

/-- The question marks of a phrase outside its brackets. -/
def marks : Phrase → Nat
  | choice _ whenTrue whenFalse => marks whenTrue + marks whenFalse + 1
  | _ => 0

mutual

/-- How deep the scan comes in a phrase with a number of signs directly in front, counted from what
is open apart from these. -/
def scanned (signs : Nat) : Phrase → Nat
  | atom _ token => token.signs
  | group inner => max (signs + 1) (scanned 0 inner + 1)
  | list _ items => max (signs + 1) (scannedItems items + 1)
  | map _ entries => max (signs + 1) (scannedEntries entries + 1)
  | call _ _ args => scannedItems args + 1
  | sign _ _ operand => max (signs + 1) (scanned (signs + 1) operand)
  | field target _ _ => scanned signs target
  | method target _ args _ => max (scanned signs target) (scannedItems args + 1)
  | index target position _ => max (scanned signs target) (scanned 0 position + 1)
  | infixed op left right =>
    max (scanned signs left) (max op.signs (scanned op.trailingSigns right))
  | choice condition whenTrue whenFalse =>
    max (scanned signs condition)
      (max (scanned 0 whenTrue + 1) (marks whenTrue + scanned 0 whenFalse + 1))

def scannedItems : List Phrase → Nat
  | [] => 0
  | item :: rest => max (scanned 0 item) (scannedItems rest)

/-- The question marks of a key still count in the value. -/
def scannedEntries : List (Phrase × Phrase) → Nat
  | [] => 0
  | (key, value) :: rest =>
    max (max (scanned 0 key) (marks key + scanned 0 value)) (scannedEntries rest)

end

/-- A key and its value, with a colon between them. -/
def scannedEntry (entry : Phrase × Phrase) : Nat :=
  max (scanned 0 entry.1) (marks entry.1 + scanned 0 entry.2)

def marksEntry (entry : Phrase × Phrase) : Nat := marks entry.1 + marks entry.2

theorem scannedItems_eq (items : List Phrase) :
    scannedItems items = (items.map (scanned 0)).foldr max 0 := by
  induction items with
  | nil => rfl
  | cons item rest ih => rw [scannedItems, ih]; rfl

theorem scannedEntries_eq (entries : List (Phrase × Phrase)) :
    scannedEntries entries = (entries.map scannedEntry).foldr max 0 := by
  induction entries with
  | nil => rfl
  | cons entry rest ih => rw [scannedEntries, ih]; rfl

/-- The scan comes as deep as there are question marks. -/
theorem marks_le_scanned (signs : Nat) (p : Phrase) : p.marks ≤ p.scanned signs := by
  induction p using Phrase.induct generalizing signs with
  | step p ih =>
      cases p with
      | choice condition whenTrue whenFalse =>
          have hfalse := ih whenFalse (by simp [parts]) 0
          rw [marks, scanned]
          omega
      | _ => exact Nat.zero_le _

theorem marks_eq_zero_of_level {p : Phrase} (h : 0 < p.level) : p.marks = 0 := by
  cases p with
  | choice => exact absurd h (Nat.lt_irrefl 0)
  | _ => rfl

theorem IsTarget.marks_eq_zero {p : Phrase} (h : p.IsTarget) : p.marks = 0 :=
  marks_eq_zero_of_level (by rw [h.level_eq]; exact Nat.succ_pos 5)

end Phrase

/-! ### Phrases -/

/-- What the scan sees of lexemes. -/
def Lexeme.sight (xs : List Lexeme) : List Char := xs.flatMap visible

theorem Lexeme.sight_nil : sight [] = [] := rfl

theorem Lexeme.sight_append (xs ys : List Lexeme) : sight (xs ++ ys) = sight xs ++ sight ys :=
  List.flatMap_append

theorem Lexeme.sight_mark_cons (m : List Char) (xs : List Lexeme) :
    sight (.mark m :: xs) = m ++ sight xs :=
  List.flatMap_cons

theorem Lexeme.sight_name_cons (name : List Char) (xs : List Lexeme) :
    sight (.name name :: xs) = name ++ sight xs :=
  List.flatMap_cons

namespace Nesting

open Lexeme (sight sight_nil sight_append sight_mark_cons sight_name_cons)

section Rows

variable {α : Type} {bound : Nat} {cost marks : α → Nat} {opening closing : Char}
  {pieces : List (Piece α)} {xs : List Lexeme} {c d : Cursor}

/-- The scan comes to a depth in the piece, and leaves question marks behind. -/
def Takes (bound : Nat) (cost marks : α → Nat) (piece : Piece α) : Prop :=
  ∀ n : Nesting, n.signs = 0 → n.base ≤ bound →
    Reaches bound n (sight piece.lexemes) (n.base + cost piece.value)
      (n.behind (marks piece.value))

/-- Up to the closing bracket the scan comes as deep as in the deepest piece. -/
theorem reaches_row (h : Row pieces c xs d)
    (hpieces : ∀ piece ∈ pieces, Takes bound cost marks piece)
    (hclosing : opening? closing = some opening) (n : Nesting) (hle : n.base + 1 ≤ bound) :
    Reaches bound (n.inside opening) (sight xs ++ [closing])
      (n.base + 1 + (pieces.map fun piece => cost piece.value).foldr max 0) n.endSigns := by
  have hinside : (n.inside opening).base ≤ bound := by rwa [base_inside]
  induction h with
  | nil c =>
      have hclose := reaches_closing hclosing n 0 hle
      rwa [behind_zero] at hclose
  | last piece =>
      have hpiece := hpieces piece (List.mem_singleton.mpr rfl) _ rfl hinside
      have hall := hpiece.append fun _ => reaches_closing hclosing n _ (Nat.zero_le bound)
      refine hall.of_eq ?_
      simp [base_inside]
  | @cons piece pieces xs c d hcomma hrow ih =>
      obtain ⟨hpiece, hpieces⟩ := List.forall_mem_cons.mp hpieces
      have hfirst := hpiece _ rfl hinside
      have hrest := (reaches_comma opening n (marks piece.value) (Nat.zero_le bound)).append
        fun _ => ih hpieces
      have hall := hfirst.append fun _ => hrest
      rw [sight_append, sight_mark_cons, List.append_assoc, List.append_assoc]
      refine hall.of_eq ?_
      simp only [base_inside, List.map_cons, List.foldr_cons]
      omega

theorem reaches_enclosed (h : Row pieces c xs d)
    (hpieces : ∀ piece ∈ pieces, Takes bound cost marks piece)
    (hclosing : opening? closing = some opening) (n : Nesting) :
    Reaches bound n (opening :: (sight xs ++ [closing]))
      (n.base + max (n.signs + 1) ((pieces.map fun piece => cost piece.value).foldr max 0 + 1))
      n.endSigns := by
  have hopen := reaches_opening bound (brackets_spec hclosing).1 n
  have hall := hopen.append fun hle => reaches_row h hpieces hclosing n (by omega)
  refine hall.of_eq ?_
  omega

theorem reaches_boxed (h : Boxed opening closing pieces c xs d)
    (hpieces : ∀ piece ∈ pieces, Takes bound cost marks piece)
    (hclosing : opening? closing = some opening) (n : Nesting) :
    Reaches bound n (sight xs)
      (n.base + max (n.signs + 1) ((pieces.map fun piece => cost piece.value).foldr max 0 + 1))
      n.endSigns := by
  obtain ⟨-, hrow, -⟩ := h
  rw [sight_mark_cons, sight_append]
  exact reaches_enclosed hrow hpieces hclosing n

end Rows

variable {bound : Nat} {p : Phrase} {xs : List Lexeme} {c d : Cursor}

theorem reaches_mark {c : Char} (hc : IsPlain c) (n : Nesting) (marks : Nat) :
    Reaches bound (n.behind marks) [c] 0 (n.behind marks) :=
  reaches_plain (List.cons_ne_nil _ _) (List.forall_mem_singleton.mpr hc) (Nat.zero_le bound)

theorem takes_entry {e : Piece Phrase × Piece Phrase}
    (hkey : Takes bound (Phrase.scanned 0) Phrase.marks e.1)
    (hvalue : Takes bound (Phrase.scanned 0) Phrase.marks e.2) :
    Takes bound Phrase.scannedEntry Phrase.marksEntry (Piece.entry e) := by
  intro n hsigns hle
  have hcolon : IsPlain ':' := isPlain_of_not_mem (by decide)
  have hmarks := Phrase.marks_le_scanned 0 e.1.value
  have hall := (hkey n hsigns hle).append fun hdepth =>
    (reaches_mark hcolon n e.1.value.marks).append fun _ =>
      hvalue (n.behind e.1.value.marks) rfl (by rw [base_behind]; omega)
  rw [behind_behind] at hall
  rw [Piece.entry, sight_append, sight_mark_cons]
  refine hall.of_eq ?_
  simp only [base_behind, Phrase.scannedEntry]
  omega

theorem reaches_name (bound : Nat) {name : List Char} (h : c.Next (.name name) d) (n : Nesting) :
    Reaches bound n name 0 n.endSigns := by
  obtain ⟨token, hname⟩ : ∃ token, Scanner.name c.skip.rest = some (token, name, d.rest) := by
    rcases Scanner.lexeme_cases h.lexeme_eq with ⟨_, _, ⟨⟩, _⟩ | ⟨token, _, ⟨⟩, -, hname⟩ |
      ⟨_, ⟨⟩, _⟩
    exact ⟨token, hname⟩
  obtain ⟨-, hchars, -, ⟨first, more, rfl, -⟩, -⟩ := Scanner.name_spec hname
  exact reaches_plain (List.cons_ne_nil _ _) (fun c hc => isPlain_of_isNameChar (hchars c hc))
    (Nat.zero_le bound)

theorem reaches_token {x : Lexeme} {token : Token} (hx : c.Next x d)
    (htoken : x.token? = some token) (n : Nesting) (hle : n.base ≤ bound) :
    Reaches bound n (sight [x]) (n.base + token.signs) n.endSigns := by
  have hsight : sight [x] = x.visible := List.append_nil _
  rw [hsight]
  cases x with
  | literal found taken =>
      cases htoken
      rcases Scanner.lexeme_cases hx.lexeme_eq with ⟨_, _, ⟨⟩, hliteral⟩ | ⟨_, _, ⟨⟩, _⟩ |
        ⟨_, ⟨⟩, _⟩
      exact Scanner.reaches_literal hliteral hle
  | name written =>
      cases htoken
      have hname := reaches_name bound hx n
      exact .of_walk (hname.within (Nat.zero_le bound)) hle
  | mark => cases htoken

/-- The minus sign is still in a row with signs that follow it, other signs in symbols are not. -/
theorem reaches_symbol (op : InfixOp) (n : Nesting) (marks : Nat)
    (hle : (n.behind marks).base ≤ bound) :
    Reaches bound (n.behind marks) op.symbol ((n.behind marks).base + op.signs)
      ((n.behind marks).withSigns op.trailingSigns) := by
  have hplain (h : op.symbol ≠ [] ∧ ∀ c ∈ op.symbol, c ∉ ['(', '[', '\x7b', ')', ']', '\x7d',
      '?', ',', '!', '-', ' ', '\t', '\r', '\n']) :
      Reaches bound (n.behind marks) op.symbol (n.behind marks).base (n.behind marks) :=
    reaches_plain h.1 (fun c hc => isPlain_of_not_mem (h.2 c hc)) hle
  have hsign {c : Char} (hc : c = '!' ∨ c = '-') :
      Reaches bound (n.behind marks) [c] ((n.behind marks).base + 1)
        ((n.behind marks).withSigns 1) := reaches_sign bound hc (n.behind marks)
  cases op with
  | logic op => cases op <;> exact hplain (by decide)
  | relation op =>
      cases op with
      | ne =>
          have hequals : Reaches bound ((n.behind marks).withSigns 1) ['='] 0
              (n.behind marks) :=
            reaches_plain (List.cons_ne_nil _ _)
              (List.forall_mem_singleton.mpr (isPlain_of_not_mem (by decide))) (Nat.zero_le bound)
          exact ((hsign (.inl rfl)).append fun _ => hequals).of_eq (Nat.max_zero _)
      | _ => exact hplain (by decide)
  | arith op =>
      cases op with
      | sub => exact hsign (.inr rfl)
      | _ => exact hplain (by decide)

/-! #### Phrases -/

/-- In the lexemes the scan comes as deep as the phrase says, and it leaves the question marks of
the phrase behind. -/
def Scans (bound : Nat) (p : Phrase) (xs : List Lexeme) : Prop :=
  ∀ n : Nesting, n.weight ≤ bound →
    Reaches bound n (sight xs) (n.base + p.scanned n.signs) (n.behind p.marks)

theorem scans_atom {span : Span} {x : Lexeme} {token : Token} (hx : c.Next x d)
    (htoken : x.token? = some token) : Scans bound (.atom span token) [x] := by
  intro n hle
  have hbase : n.base ≤ bound := Nat.le_trans (Nat.le_add_right _ _) hle
  exact (reaches_token hx htoken n hbase).quiet

namespace Scans

variable {target left right : Phrase} {op : InfixOp} {name : List Char} {ys zs : List Lexeme}
  {items : List (Piece Phrase)} {opening closing : Char} {e f : Cursor}

/-- Without signs in front the scan comes as deep as in a piece of a row. -/
theorem takes {piece : Piece Phrase} (h : Scans bound piece.value piece.lexemes) :
    Takes bound (Phrase.scanned 0) Phrase.marks piece := by
  intro n hsigns hle
  have hweight : n.weight ≤ bound := by
    simpa only [weight, base, hsigns, Nat.add_zero] using hle
  have hn := h n hweight
  rwa [hsigns] at hn

/-! ##### Brackets -/

/-- A single phrase in brackets, a group or a position. -/
theorem reaches_bracketed (h : Scans bound p xs) (hclosing : opening? closing = some opening)
    (n : Nesting) :
    Reaches bound n (opening :: (sight xs ++ [closing]))
      (n.base + max (n.signs + 1) (p.scanned 0 + 1)) n.endSigns := by
  -- it is a row of one piece, whose ends in the source do not matter
  have htaken : Takes bound (Phrase.scanned 0) Phrase.marks ⟨p, ⟨0, []⟩, xs, ⟨0, []⟩⟩ := takes h
  have hall := reaches_enclosed (.last _) (List.forall_mem_singleton.mpr htaken) hclosing n
  rwa [List.map_singleton, List.foldr_cons, List.foldr_nil, Nat.max_zero] at hall

theorem group (h : Scans bound p xs) :
    Scans bound (.group p) (.mark ['('] :: (xs ++ [.mark [')']])) := by
  intro n hle
  have hclosing : opening? ')' = some '(' := rfl
  have hall := h.reaches_bracketed hclosing n
  rw [sight_mark_cons, sight_append]
  exact hall.quiet.of_eq (by rw [Phrase.scanned])

/-- Items in brackets, those of a list or the arguments of a call. -/
theorem reaches_items (hboxed : Boxed opening closing items c xs d)
    (hclosing : opening? closing = some opening)
    (hitems : ∀ item ∈ items, Scans bound item.value item.lexemes) (n : Nesting) :
    Reaches bound n (sight xs)
      (n.base + max (n.signs + 1) (Phrase.scannedItems (items.map Piece.value) + 1))
      n.endSigns := by
  have hall := reaches_boxed hboxed (fun item hitem => (hitems item hitem).takes) hclosing n
  refine hall.of_eq ?_
  rw [Phrase.scannedItems_eq, List.map_map]
  rfl

theorem list {span : Span} (hboxed : Boxed '[' ']' items c xs d)
    (hitems : ∀ item ∈ items, Scans bound item.value item.lexemes) :
    Scans bound (.list span (items.map Piece.value)) xs := by
  intro n hle
  have hall := reaches_items hboxed rfl hitems n
  exact hall.quiet.of_eq (by rw [Phrase.scanned])

theorem map {span : Span} {entries : List (Piece Phrase × Piece Phrase)}
    (hboxed : Boxed '\x7b' '\x7d' (entries.map Piece.entry) c xs d)
    (hkeys : ∀ e ∈ entries, Scans bound e.1.value e.1.lexemes)
    (hvalues : ∀ e ∈ entries, Scans bound e.2.value e.2.lexemes) :
    Scans bound (.map span (entries.map fun e => (e.1.value, e.2.value))) xs := by
  intro n hle
  have hentries : ∀ piece ∈ entries.map Piece.entry,
      Takes bound Phrase.scannedEntry Phrase.marksEntry piece :=
    List.forall_mem_map.mpr fun e he => takes_entry (hkeys e he).takes (hvalues e he).takes
  have hall := reaches_boxed hboxed hentries rfl n
  refine hall.quiet.of_eq ?_
  rw [Phrase.scanned, Phrase.scannedEntries_eq, List.map_map, List.map_map]
  rfl

theorem call {span : Span} (hname : c.Next (.name name) d) (hboxed : Boxed '(' ')' items e xs f)
    (hitems : ∀ item ∈ items, Scans bound item.value item.lexemes) :
    Scans bound (.call span name (items.map Piece.value)) (.name name :: xs) := by
  intro n hle
  have hall := (reaches_name bound hname n).quiet.append fun _ =>
    reaches_items hboxed rfl hitems (n.behind 0)
  rw [sight_name_cons]
  refine hall.of_eq ?_
  rw [Phrase.scanned, base_behind, signs_behind]
  omega

/-! ##### Behind a target -/

/-- A target leaves no question marks behind. -/
theorem reaches_target (h : Scans bound target xs) (htarget : target.IsTarget) (n : Nesting)
    (hle : n.weight ≤ bound) :
    Reaches bound n (sight xs) (n.base + target.scanned n.signs) (n.behind 0) := by
  have hn := h n hle
  rwa [htarget.marks_eq_zero] at hn

theorem reaches_member (h : Scans bound target xs) (htarget : target.IsTarget)
    (hname : c.Next (.name name) d) (n : Nesting) (hle : n.weight ≤ bound) :
    Reaches bound n (sight xs ++ (['.'] ++ name)) (n.base + target.scanned n.signs)
      (n.behind 0) := by
  have hdot : IsPlain '.' := isPlain_of_not_mem (by decide)
  have hall := (h.reaches_target htarget n hle).append fun _ =>
    (reaches_mark hdot n 0).append fun _ => reaches_name bound hname (n.behind 0)
  refine hall.of_eq ?_
  omega

theorem field {stop : Nat} (h : Scans bound target xs) (htarget : target.IsTarget)
    (hname : c.Next (.name name) d) :
    Scans bound (.field target name stop) (xs ++ [.mark ['.'], .name name]) := by
  intro n hle
  have hall := h.reaches_member htarget hname n hle
  rw [sight_append, sight_mark_cons, sight_name_cons, sight_nil, List.append_nil]
  exact hall.of_eq (by rw [Phrase.scanned])

theorem method {stop : Nat} (h : Scans bound target xs) (htarget : target.IsTarget)
    (hname : c.Next (.name name) d) (hboxed : Boxed '(' ')' items e ys f)
    (hitems : ∀ item ∈ items, Scans bound item.value item.lexemes) :
    Scans bound (.method target name (items.map Piece.value) stop)
      (xs ++ .mark ['.'] :: .name name :: ys) := by
  intro n hle
  have hall := (h.reaches_member htarget hname n hle).append fun _ =>
    reaches_items hboxed rfl hitems (n.behind 0)
  rw [sight_append, sight_mark_cons, sight_name_cons, ← List.append_assoc ['.'],
    ← List.append_assoc]
  refine hall.of_eq ?_
  rw [Phrase.scanned, base_behind, signs_behind]
  omega

theorem index {stop : Nat} (h : Scans bound target xs) (htarget : target.IsTarget)
    (hposition : Scans bound p ys) :
    Scans bound (.index target p stop) (xs ++ .mark ['['] :: (ys ++ [.mark [']']])) := by
  intro n hle
  have hclosing : opening? ']' = some '[' := rfl
  have hall := (h.reaches_target htarget n hle).append fun _ =>
    hposition.reaches_bracketed hclosing (n.behind 0)
  rw [sight_append, sight_mark_cons, sight_append]
  refine hall.of_eq ?_
  rw [Phrase.scanned, base_behind, signs_behind]
  omega

/-! ##### Operators -/

theorem sign {op : UnaryOp} {offset : Nat} (h : Scans bound p xs) (hlevel : p.level = 6) :
    Scans bound (.sign offset op p) (.mark op.symbol.toList :: xs) := by
  intro n hle
  have hsymbol : ∃ c, op.symbol.toList = [c] ∧ (c = '!' ∨ c = '-') := by
    cases op with
    | neg => exact ⟨'-', rfl, .inr rfl⟩
    | not => exact ⟨'!', rfl, .inl rfl⟩
  obtain ⟨c, hop, hc⟩ := hsymbol
  have hquiet : p.marks = 0 := Phrase.marks_eq_zero_of_level (hlevel ▸ Nat.succ_pos 5)
  have hall := (reaches_sign bound hc n).append fun hdepth =>
    h (n.withSigns (n.signs + 1)) hdepth
  rw [sight_mark_cons, hop]
  rw [hquiet, behind_withSigns, signs_withSigns, base_withSigns] at hall
  refine hall.of_eq ?_
  rw [Phrase.scanned]
  omega

theorem infixed (hleft : Scans bound left xs) (hright : Scans bound right ys)
    (hlevel : op.level ≤ left.level) (hlt : op.level < right.level) :
    Scans bound (.infixed op left right) (xs ++ .mark op.symbol :: ys) := by
  intro n hle
  have hquietLeft := Phrase.marks_eq_zero_of_level (Nat.lt_of_lt_of_le op.level_pos hlevel)
  have hquietRight := Phrase.marks_eq_zero_of_level (Nat.lt_of_le_of_lt (Nat.zero_le _) hlt)
  have htrailing : op.trailingSigns ≤ op.signs := by
    cases op with
    | logic op | relation op | arith op => cases op <;> decide
  simp only [Scans, hquietLeft] at hleft
  simp only [Scans, hquietRight] at hright
  have hall := (hleft n hle).append fun hdepth =>
    (reaches_symbol op n 0 (by rw [base_behind]; omega)).append fun hsymbol =>
      hright ((n.behind 0).withSigns op.trailingSigns) (by rw [weight_withSigns]; omega)
  rw [behind_withSigns, behind_behind, base_withSigns, base_behind, signs_withSigns] at hall
  rw [sight_append, sight_mark_cons]
  refine hall.of_eq ?_
  rw [Phrase.scanned]
  omega

/-- The question marks of the true case still count in the false case. -/
theorem choice (hcondition : Scans bound p xs) (htrue : Scans bound left ys)
    (hfalse : Scans bound right zs) (hpos : 0 < p.level) :
    Scans bound (.choice p left right)
      (xs ++ .mark ['?'] :: (ys ++ .mark [':'] :: zs)) := by
  intro n hle
  have hcolon : IsPlain ':' := isPlain_of_not_mem (by decide)
  simp only [Scans, Phrase.marks_eq_zero_of_level hpos] at hcondition
  have hmarks := Phrase.marks_le_scanned 0 left
  have hquestion := reaches_question bound (n.behind 0)
  rw [behind_behind, base_behind] at hquestion
  have hall := (hcondition n hle).append fun _ => hquestion.append fun hdepth =>
    (htrue (n.behind (0 + 1)) (by rw [weight_behind]; omega)).append fun hdeeper =>
      (reaches_mark hcolon (n.behind (0 + 1)) left.marks).append fun _ =>
        hfalse ((n.behind (0 + 1)).behind left.marks) (by
          rw [signs_behind, base_behind] at hdeeper
          rw [weight_behind, base_behind]
          omega)
  rw [behind_behind, behind_behind, signs_behind, signs_behind, base_behind, base_behind] at hall
  have hcount : 0 + 1 + left.marks + right.marks = (Phrase.choice p left right).marks := by
    rw [Phrase.marks]
    omega
  rw [hcount] at hall
  rw [sight_append, sight_mark_cons, sight_append, sight_mark_cons]
  refine hall.of_eq ?_
  rw [Phrase.scanned]
  omega

end Scans

/-- In a spelled phrase the scan comes as deep as the phrase says. -/
theorem reaches_spelled (h : p.Spelled c xs d) (n : Nesting) (hle : n.weight ≤ bound) :
    Reaches bound n (sight xs) (n.base + p.scanned n.signs) (n.behind p.marks) := by
  have hscans : Scans bound p xs := by
    induction h with
    | atom hx htoken => exact scans_atom hx htoken
    | group _ _ _ ih => exact ih.group
    | list hboxed _ ih => exact .list hboxed ih
    | map hboxed _ _ _ ihkeys ihvalues => exact .map hboxed ihkeys ihvalues
    | call hname hboxed _ ih => exact .call hname hboxed ih
    | sign _ _ hlevel ih => exact ih.sign hlevel
    | field _ htarget _ hname ih => exact ih.field htarget hname
    | method _ htarget _ hname hboxed _ ih ihargs => exact ih.method htarget hname hboxed ihargs
    | index _ htarget _ _ _ ih ihposition => exact ih.index htarget ihposition
    | infixed _ _ _ hlevel hlt ihleft ihright => exact ihleft.infixed ihright hlevel hlt
    | choice _ _ _ _ _ hpos ihc iht ihf => exact ihc.choice iht ihf hpos
  exact hscans n hle

/-! ### Sources -/

/-- The scan of a sequence of lexemes is a walk over what it sees of them. -/
theorem verdict_eq_walk {stage : Stage} {brackets text : List Char}
    (h : Laid stage brackets text xs) (n : Nesting) :
    verdict bound .code 0 n text =
      (walk bound n (sight xs)).conclude bound fun m => m.finish.mapError ParseError.fault := by
  induction h generalizing n with
  | nil hend =>
      rw [verdict_behindLayout, hend]
      rfl
  | @cons stage brackets nested text rest x xs hlexeme hadmits hnest hrest ih =>
      have hsight : sight (x :: xs) = x.visible ++ sight xs := List.flatMap_cons
      rw [verdict_cons_laid hlexeme hrest, hsight, walk_append]
      cases n.walk bound x.visible with
      | going m => exact ih m
      | settled => rfl
      | exceeded deep => rfl

end Nesting

/-- The scan blames the depth just if it comes deeper than the bound in the phrase. -/
theorem tooDeep_check_iff {source : List Char} {p : Phrase} (h : Phrase.read? source = some p)
    (bound : Nat) : TooDeep (Nesting.check bound source) ↔ bound < p.scanned 0 := by
  obtain ⟨xs, hlaid⟩ := laid_of_read? h
  obtain ⟨ys, d, hlexed, hspelled⟩ := Phrase.lexed_of_read? h
  obtain rfl := hlaid.lexed.unique hlexed
  have hreaches := Nesting.reaches_spelled hspelled Nesting.start (Nat.zero_le bound)
  have hdepth : Nesting.start.base + p.scanned Nesting.start.signs = p.scanned 0 := Nat.zero_add _
  rw [hdepth] at hreaches
  have hverdict : (Nesting.check bound source).mapError ParseError.fault = _ :=
    Nesting.verdict_eq_walk hlaid Nesting.start
  constructor
  · rintro ⟨depth, limit, span, hdeep⟩
    by_contra hle
    rw [hdeep, hreaches.within (Nat.le_of_not_lt hle)] at hverdict
    cases hverdict
  · intro hlt
    obtain ⟨deep, hdeep⟩ := hreaches.beyond hlt
    rw [hdeep] at hverdict
    rcases check_of_read? h bound with hok | htooDeep
    · rw [hok] at hverdict
      cases hverdict
    · exact htooDeep

end EmbeddedExpr.Grammar
