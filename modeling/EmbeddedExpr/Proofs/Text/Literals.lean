import EmbeddedExpr.Proofs.Number.Numeral
import EmbeddedExpr.Proofs.Text.Escape
import Mathlib.Data.List.Forall2

/-!
# String and bytes literals

One walk over its body reads a literal of either kind.  The kinds differ in what a code stands for,
and only a text could refuse one.  But a code is below 256 (`Pending.Small`), and all these numbers
are characters.  So the two walks keep abreast (`abreast_stepPiece`): both fail with one error, or
both take the body for pieces that are pairwise `Twin` (`twin_piecesFrom`).

What is a byte among the pieces of bytes is a code that an escape of the body names
(`forall_namesCode_iff`), so the bytes are the encoding of the text just if no such code is 128 or
more (`literals_decode_alike`).
-/

namespace EmbeddedExpr.Text

open Number (hexValue? isHexDigit digitOf numeral)

/-! ### Two walks over one body -/

/-- The pieces that one spelling stands for in a text and in bytes. -/
inductive Twin : Piece → Piece → Prop
  | char (c : Char) : Twin (.char c) (.char c)
  | code (b : UInt8) : Twin (.char (Char.ofNat b.toNat)) (.byte b)

/-- Two results that are so related, or one error. -/
inductive Agree {α β : Type} (R : α → β → Prop) :
    Except UnescapeError α → Except UnescapeError β → Prop
  | ok {a : α} {b : β} : R a b → Agree R (.ok a) (.ok b)
  | error (e : UnescapeError) : Agree R (.error e) (.error e)

/-- The digits of a code that have been read leave it below 256. -/
def Pending.Small : Pending → Prop
  | hex _ .code value got => got = 0 ∧ value = 0 ∨ got = 1 ∧ value < 16
  | octal _ value got => got = 1 ∧ value < 4 ∨ got = 2 ∧ value < 32
  | _ => True

/-- After a character the same is pending in both walks, behind twin pieces. -/
def Abreast (first second : List Piece × Pending) : Prop :=
  List.Forall₂ Twin first.1 second.1 ∧ first.2 = second.2 ∧ second.2.Small

theorem isHexDigit_of_hexValue? {c : Char} {d : Nat} (h : hexValue? c = some d) :
    isHexDigit c = true ∧ d = digitOf c ∧ d < 16 := by
  have hdigit : isHexDigit c = true := by rw [isHexDigit, h]; rfl
  obtain ⟨hvalue, hlt⟩ := Number.hexValue?_eq_digitOf hdigit
  obtain rfl : d = digitOf c := Option.some.inj (h.symm.trans hvalue)
  exact ⟨hdigit, rfl, hlt⟩

theorem octalValue?_eq_digitOf {c : Char} (h : '0' ≤ c ∧ c ≤ '7') :
    octalValue? c = some (digitOf c) ∧ digitOf c < 8 := by
  have hall : ∀ c ∈ (List.range' 48 8).map Char.ofNat,
      octalValue? c = some (digitOf c) ∧ digitOf c < 8 := by decide
  exact hall c (Number.mem_range_of_le h)

theorem isOctal_of_octalValue? {c : Char} {d : Nat} (h : octalValue? c = some d) :
    ('0' ≤ c ∧ c ≤ '7') ∧ d = digitOf c ∧ d < 8 := by
  have hrange : '0' ≤ c ∧ c ≤ '7' := by
    by_contra hnot
    simp [octalValue?, hnot] at h
  obtain ⟨hvalue, hlt⟩ := octalValue?_eq_digitOf hrange
  obtain rfl : d = digitOf c := Option.some.inj (h.symm.trans hvalue)
  exact ⟨hrange, rfl, hlt⟩

theorem twin_codePiece {value : Nat} (h : value < 256) (start : Nat) :
    Agree Twin (LiteralKind.text.codePiece start value)
      (LiteralKind.bytes.codePiece start value) := by
  have hvalid : value.isValidChar := .inl (by omega)
  have hvalue : (UInt8.ofNat value).toNat = value := UInt8.toNat_ofNat_of_lt' h
  have htwin := Twin.code (UInt8.ofNat value)
  rw [hvalue] at htwin
  simp only [LiteralKind.codePiece, scalarPiece, if_pos hvalid]
  exact .ok htwin

theorem twin_scalarPiece (start value : Nat) :
    Agree Twin (scalarPiece start value) (scalarPiece start value) := by
  unfold scalarPiece
  split
  · exact .ok (.char _)
  · exact .error _

theorem abreast_closeEscape {first second : Except UnescapeError Piece}
    (h : Agree Twin first second) : Agree Abreast (closeEscape first) (closeEscape second) := by
  cases h with
  | ok htwin => exact .ok ⟨.cons htwin .nil, rfl, trivial⟩
  | error e => exact .error e

theorem abreast_beginPiece (position : Nat) (c : Char) :
    Abreast (beginPiece position c) (beginPiece position c) := by
  unfold beginPiece
  split
  · exact ⟨.nil, rfl, trivial⟩
  · exact ⟨.cons (.char c) .nil, rfl, trivial⟩

theorem abreast_openEscape (start : Nat) (c : Char) :
    Agree Abreast (openEscape start c) (openEscape start c) := by
  unfold openEscape
  split
  · exact .ok ⟨.cons (.char _) .nil, rfl, trivial⟩
  · rename_i form _ _
    refine .ok ⟨.nil, rfl, ?_⟩
    cases form
    · exact .inl ⟨rfl, rfl⟩
    all_goals trivial
  · split
    · rename_i hdigit
      have hlow : 48 ≤ c.toNat := hdigit.1
      have hhigh : c.toNat ≤ 51 := hdigit.2
      have hvalue : c.toNat - '0'.toNat < 4 := by
        show c.toNat - 48 < 4
        omega
      exact .ok ⟨.nil, rfl, .inl ⟨rfl, hvalue⟩⟩
    · exact .error _

/-- A character leaves the two walks abreast. -/
theorem abreast_stepPiece {pending : Pending} (h : pending.Small) (position : Nat) (c : Char) :
    Agree Abreast (stepPiece .text position pending c) (stepPiece .bytes position pending c) := by
  cases pending with
  | nothing => exact .ok (abreast_beginPiece position c)
  | backslash start => exact abreast_openEscape start c
  | hex start form value got =>
      cases hdigit : hexValue? c with
      | none =>
          simp only [stepPiece, hdigit]
          exact .error _
      | some d =>
          have hlt := (isHexDigit_of_hexValue? hdigit).2.2
          by_cases hlast : got + 1 = form.width
          · simp only [stepPiece, hdigit, if_pos hlast]
            apply abreast_closeEscape
            cases form with
            | code =>
                have hwidth : got + 1 = 2 := hlast
                simp only [Pending.Small] at h
                exact twin_codePiece (by omega) start
            | short | long => exact twin_scalarPiece start _
          · simp only [stepPiece, hdigit, if_neg hlast]
            refine .ok ⟨.nil, rfl, ?_⟩
            cases form with
            | code =>
                have hwidth : got + 1 ≠ 2 := hlast
                simp only [Pending.Small] at h ⊢
                omega
            | short | long => trivial
  | octal start value got =>
      simp only [Pending.Small] at h
      cases hdigit : octalValue? c with
      | some d =>
          have hlt := (isOctal_of_octalValue? hdigit).2.2
          by_cases hlast : got + 1 = 3
          · simp only [stepPiece, hdigit, if_pos hlast]
            exact abreast_closeEscape (twin_codePiece (by omega) start)
          · simp only [stepPiece, hdigit, if_neg hlast]
            refine .ok ⟨.nil, rfl, ?_⟩
            simp only [Pending.Small]
            omega
      | none =>
          by_cases hzero : got = 1 ∧ value = 0
          · obtain ⟨hfront, -, hsmall⟩ := abreast_beginPiece position c
            simp only [stepPiece, hdigit, if_pos hzero]
            exact .ok ⟨.cons (.char _) hfront, rfl, hsmall⟩
          · simp only [stepPiece, hdigit, if_neg hzero]
            exact .error _

theorem twin_endPieces (pending : Pending) :
    Agree (List.Forall₂ Twin) (endPieces pending) (endPieces pending) := by
  cases pending with
  | nothing => exact .ok .nil
  | backslash start => exact .error _
  | hex start form value got => exact .error _
  | octal start value got =>
      simp only [endPieces]
      split
      · exact .ok (.cons (.char _) .nil)
      · exact .error _

/-- Both walks over a body end with one error or with twin pieces. -/
theorem twin_piecesFrom {pending : Pending} (h : pending.Small) (position : Nat)
    (body : List Char) : Agree (List.Forall₂ Twin) (piecesFrom .text position pending body)
      (piecesFrom .bytes position pending body) := by
  induction body generalizing position pending with
  | nil => exact twin_endPieces pending
  | cons c rest ih =>
      have hstep := abreast_stepPiece h position c
      generalize htext : stepPiece .text position pending c = first at hstep
      generalize hbytes : stepPiece .bytes position pending c = second at hstep
      cases hstep with
      | error e =>
          rw [piecesFrom, piecesFrom, htext, hbytes]
          exact .error e
      | @ok first second habreast =>
          obtain ⟨hfront, hnext, hsmall⟩ := habreast
          have hrest := ih hsmall (position + c.utf8Size)
          rw [piecesFrom_cons htext, piecesFrom_cons hbytes, hnext]
          generalize piecesFrom .text (position + c.utf8Size) second.2 rest = more at hrest
          generalize piecesFrom .bytes (position + c.utf8Size) second.2 rest = more' at hrest
          cases hrest with
          | error e => exact .error e
          | ok hmore => exact .ok (List.rel_append hfront hmore)

/-! ### The codes of a body -/

/-- A `\x` or octal escape of the body names the code.  A backslash and the character behind it are
passed over together, since the second of two backslashes opens no escape. -/
inductive NamesCode : Nat → List Char → Prop
  | hex {letter p q : Char} {rest : List Char} : letter = 'x' ∨ letter = 'X' →
      isHexDigit p = true → isHexDigit q = true →
      NamesCode (numeral 16 [p, q]) ('\\' :: letter :: p :: q :: rest)
  | octal {p q r : Char} {rest : List Char} : '0' ≤ p ∧ p ≤ '3' → '0' ≤ q ∧ q ≤ '7' →
      '0' ≤ r ∧ r ≤ '7' → NamesCode (numeral 8 [p, q, r]) ('\\' :: p :: q :: r :: rest)
  | plain {n : Nat} {c : Char} {rest : List Char} : c ≠ '\\' → NamesCode n rest →
      NamesCode n (c :: rest)
  | escape {n : Nat} {c : Char} {rest : List Char} : NamesCode n rest →
      NamesCode n ('\\' :: c :: rest)

theorem NamesCode.append {n : Nat} {run rest : List Char} (hrun : ∀ c ∈ run, c ≠ '\\')
    (h : NamesCode n rest) : NamesCode n (run ++ rest) := by
  induction run with
  | nil => exact h
  | cons c run ih =>
      obtain ⟨hc, hrun⟩ := List.forall_mem_cons.mp hrun
      exact .plain hc (ih hrun)

/-- The characters read of the escape at hand, and what is pending behind them. -/
inductive Reading : List Char → Pending → Prop
  | nothing : Reading [] .nothing
  | backslash {start : Nat} : Reading ['\\'] (.backslash start)
  | hex {start : Nat} {form : HexForm} {letter : Char} {digits : List Char} :
      hexForm? letter = some form → (∀ c ∈ digits, isHexDigit c = true) →
      Reading ('\\' :: letter :: digits) (.hex start form (numeral 16 digits) digits.length)
  | octal {start : Nat} {first : Char} {digits : List Char} : '0' ≤ first ∧ first ≤ '3' →
      (∀ c ∈ digits, '0' ≤ c ∧ c ≤ '7') →
      Reading ('\\' :: first :: digits)
        (.octal start (numeral 8 (first :: digits)) (digits.length + 1))

theorem numeral_concat (base : Nat) (digits : List Char) (c : Char) :
    numeral base (digits ++ [c]) = numeral base digits * base + digitOf c := by
  simp only [numeral, List.map_append, List.map_cons, List.map_nil, List.reverse_append,
    List.reverse_singleton, List.singleton_append, Nat.ofDigits_cons]
  ring

theorem numeral_singleton (base : Nat) (c : Char) : numeral base [c] = digitOf c := by
  simp [numeral]

/-- The first digit of an octal escape. -/
theorem digitOf_of_first {c : Char} (h : '0' ≤ c ∧ c ≤ '3') :
    digitOf c = c.toNat - '0'.toNat ∧ digitOf c < 4 := by
  have hall : ∀ c ∈ (List.range' 48 4).map Char.ofNat,
      digitOf c = c.toNat - '0'.toNat ∧ digitOf c < 4 := by decide
  exact hall c (Number.mem_range_of_le h)

theorem numeral_hex_lt {p q : Char} (hp : isHexDigit p = true) (hq : isHexDigit q = true) :
    numeral 16 [p, q] < 256 := by
  have hsplit : numeral 16 [p, q] = digitOf p * 16 + digitOf q := by
    rw [← numeral_singleton 16 p]
    exact numeral_concat 16 [p] q
  have hfirst := (Number.hexValue?_eq_digitOf hp).2
  have hsecond := (Number.hexValue?_eq_digitOf hq).2
  omega

theorem numeral_octal_lt {p q r : Char} (hp : '0' ≤ p ∧ p ≤ '3') (hq : '0' ≤ q ∧ q ≤ '7')
    (hr : '0' ≤ r ∧ r ≤ '7') : numeral 8 [p, q, r] < 256 := by
  have hsplit : numeral 8 [p, q, r] = (digitOf p * 8 + digitOf q) * 8 + digitOf r := by
    rw [← numeral_singleton 8 p, ← numeral_concat 8 [p] q]
    exact numeral_concat 8 [p, q] r
  have hfirst := (digitOf_of_first hp).2
  have hsecond := (octalValue?_eq_digitOf hq).2
  have hthird := (octalValue?_eq_digitOf hr).2
  omega

theorem ne_backslash_of_isHexDigit {c : Char} (h : isHexDigit c = true) : c ≠ '\\' := by
  rintro rfl
  cases h

theorem ne_backslash_of_isOctal {c : Char} (h : '0' ≤ c ∧ c ≤ '7') : c ≠ '\\' := by
  rintro rfl
  exact absurd h.2 (by decide)

/-- The characters read have been accounted for, up to those of an escape that is pending: a code
named behind these is one named behind them all, and so is a byte among the pieces completed. -/
structure Accounts (read : List Char) (front : List Piece) (next : Pending) : Prop where
  passesOver : ∃ seen, Reading seen next ∧
    ∀ n rest, NamesCode n (seen ++ rest) → NamesCode n (read ++ rest)
  names : ∀ b, .byte b ∈ front → ∀ rest, NamesCode b.toNat (read ++ rest)

/-- A character that the escape at hand goes on with. -/
theorem Accounts.of_reading {seen : List Char} {next : Pending} (h : Reading seen next) :
    Accounts seen [] next :=
  ⟨⟨seen, h, fun _ _ hnames => hnames⟩, nofun⟩

/-- A character that completes a piece that is no byte. -/
theorem Accounts.of_char {read : List Char} {c : Char}
    (h : ∀ n rest, NamesCode n rest → NamesCode n (read ++ rest)) :
    Accounts read [.char c] .nothing :=
  ⟨⟨[], .nothing, h⟩, by simp⟩

theorem accounts_beginPiece (position : Nat) (c : Char) :
    Accounts [c] (beginPiece position c).1 (beginPiece position c).2 := by
  unfold beginPiece
  split
  · rename_i hslash
    rw [hslash]
    exact .of_reading .backslash
  · rename_i hplain
    exact .of_char fun n rest hnames => .plain hplain hnames

theorem accounts_openEscape {start : Nat} {c : Char} {front : List Piece} {next : Pending}
    (h : openEscape start c = .ok (front, next)) : Accounts ['\\', c] front next := by
  unfold openEscape at h
  split at h
  · cases h
    exact .of_char fun n rest hnames => .escape hnames
  · rename_i form _ hform
    cases h
    exact .of_reading (.hex hform (List.forall_mem_nil _))
  · split at h
    · rename_i hfirst
      cases h
      have hread : Reading ['\\', c] (.octal start (numeral 8 [c]) 1) :=
        .octal hfirst (List.forall_mem_nil _)
      rw [numeral_singleton, (digitOf_of_first hfirst).1] at hread
      exact .of_reading hread
    · cases h

theorem accounts_closeEscape {read : List Char} {piece : Except UnescapeError Piece}
    {front : List Piece} {next : Pending} (h : closeEscape piece = .ok (front, next))
    (hread : ∀ n rest, NamesCode n rest → NamesCode n (read ++ rest))
    (hpiece : ∀ b, piece = .ok (.byte b) → ∀ rest, NamesCode b.toNat (read ++ rest)) :
    Accounts read front next := by
  obtain ⟨p, rfl, rfl, rfl⟩ := closeEscape_eq_ok h
  refine ⟨⟨[], .nothing, hread⟩, fun b hb => hpiece b ?_⟩
  rw [List.mem_singleton.mp hb]

theorem eq_of_hexForm?_eq_code {letter : Char} (h : hexForm? letter = some .code) :
    letter = 'x' ∨ letter = 'X' := by
  unfold hexForm? at h
  split at h
  · exact .inl rfl
  · exact .inr rfl
  all_goals cases h

theorem toNat_of_codePiece (start : Nat) {value : Nat} {b : UInt8}
    (h : LiteralKind.bytes.codePiece start value = .ok (.byte b)) (hvalue : value < 256) :
    b.toNat = value := by
  obtain rfl : UInt8.ofNat value = b := Piece.byte.inj (Except.ok.inj h)
  exact UInt8.toNat_ofNat_of_lt' hvalue

/-- A character is read on, and a byte that it completes is a code that is named. -/
theorem accounts_stepPiece {seen : List Char} {pending next : Pending} {c : Char} {position : Nat}
    {front : List Piece} (h : Reading seen pending)
    (hstep : stepPiece .bytes position pending c = .ok (front, next)) :
    Accounts (seen ++ [c]) front next := by
  cases h with
  | nothing =>
      have hbegin : beginPiece position c = (front, next) := Except.ok.inj hstep
      have haccounts := accounts_beginPiece position c
      rwa [hbegin] at haccounts
  | backslash => exact accounts_openEscape hstep
  | @hex start form letter digits hform hdigits =>
      simp only [stepPiece] at hstep
      split at hstep
      · cases hstep
      · rename_i d hd
        obtain ⟨hc, rfl, hlt⟩ := isHexDigit_of_hexValue? hd
        have hall : ∀ e ∈ digits ++ [c], isHexDigit e = true :=
          List.forall_mem_append.mpr ⟨hdigits, List.forall_mem_singleton.mpr hc⟩
        rw [← numeral_concat] at hstep
        split at hstep
        · rename_i hlast
          refine accounts_closeEscape hstep (fun n rest hnames => ?_) fun b hb rest => ?_
          · exact .escape (hnames.append fun e he => ne_backslash_of_isHexDigit (hall e he))
          · cases form with
            | code =>
                obtain ⟨p, rfl⟩ := List.length_eq_one_iff.mp (Nat.succ.inj hlast)
                have hletter := eq_of_hexForm?_eq_code hform
                have hp := hdigits p (List.mem_singleton_self p)
                have hvalue := toNat_of_codePiece start hb (numeral_hex_lt hp hc)
                rw [hvalue]
                exact .hex hletter hp hc
            | short | long =>
                obtain ⟨e, he⟩ := char_of_scalarPiece hb
                cases he
        · cases hstep
          have hread := @Reading.hex start form letter (digits ++ [c]) hform hall
          rw [List.length_append, List.length_singleton] at hread
          exact .of_reading hread
  | @octal start first digits hfirst hdigits =>
      simp only [stepPiece] at hstep
      split at hstep
      · rename_i d hd
        obtain ⟨hc, rfl, hlt⟩ := isOctal_of_octalValue? hd
        have hall : ∀ e ∈ digits ++ [c], '0' ≤ e ∧ e ≤ '7' :=
          List.forall_mem_append.mpr ⟨hdigits, List.forall_mem_singleton.mpr hc⟩
        rw [← numeral_concat] at hstep
        split at hstep
        · rename_i hlast
          refine accounts_closeEscape hstep (fun n rest hnames => ?_) fun b hb rest => ?_
          · exact .escape (hnames.append fun e he => ne_backslash_of_isOctal (hall e he))
          · obtain ⟨q, rfl⟩ := List.length_eq_one_iff.mp (Nat.succ.inj (Nat.succ.inj hlast))
            have hq := hdigits q (List.mem_singleton_self q)
            have hvalue := toNat_of_codePiece start hb (numeral_octal_lt hfirst hq hc)
            rw [hvalue]
            exact .octal hfirst hq hc
        · cases hstep
          have hread := @Reading.octal start first (digits ++ [c]) hfirst hall
          rw [List.length_append, List.length_singleton] at hread
          exact .of_reading hread
      · split at hstep
        · rename_i hzero
          obtain rfl : digits = [] := List.eq_nil_of_length_eq_zero (Nat.succ.inj hzero.1)
          cases hstep
          obtain ⟨⟨seen, hread, hpasses⟩, hnames⟩ := accounts_beginPiece position c
          refine ⟨⟨seen, hread, fun n rest h => .escape (hpasses n rest h)⟩, fun b hb rest => ?_⟩
          rcases List.mem_cons.mp hb with hchar | hb
          · cases hchar
          · exact .escape (hnames b hb rest)
        · cases hstep

/-- A byte among the pieces of a bytes literal is a code that its body names. -/
theorem namesCode_of_byte_mem {body seen : List Char} {position : Nat} {pending : Pending}
    {ps : List Piece} (h : Reading seen pending)
    (hps : piecesFrom .bytes position pending body = .ok ps) {b : UInt8} (hb : .byte b ∈ ps) :
    NamesCode b.toNat (seen ++ body) := by
  induction body generalizing seen position pending ps with
  | nil =>
      obtain ⟨text, rfl⟩ := chars_endPieces hps
      simp at hb
  | cons c rest ih =>
      obtain ⟨front, next, more, hstep, hmore, rfl⟩ := piecesFrom_cons_eq_ok hps
      obtain ⟨⟨seen', hread, hpasses⟩, hnames⟩ := accounts_stepPiece h hstep
      rw [List.append_cons]
      rcases List.mem_append.mp hb with hfront | hrest
      · exact hnames b hfront rest
      · exact hpasses _ _ (ih hread hmore hrest)

/-- A backslash opens an escape, unless it stands behind one that does. -/
def Pending.isBackslash : Pending → Bool
  | backslash _ => true
  | _ => false

theorem isBackslash_beginPiece (position : Nat) (c : Char) :
    (beginPiece position c).2.isBackslash = (c == '\\') := by
  unfold beginPiece
  split
  · rename_i hslash
    rw [hslash]
    rfl
  · rename_i hplain
    exact (beq_eq_false_iff_ne.mpr hplain).symm

theorem isBackslash_stepPiece {kind : LiteralKind} {position : Nat} {pending next : Pending}
    {c : Char} {front : List Piece} (h : stepPiece kind position pending c = .ok (front, next)) :
    next.isBackslash = (c == '\\' && !pending.isBackslash) := by
  cases pending with
  | nothing =>
      have hbegin : beginPiece position c = (front, next) := Except.ok.inj h
      have hnext := isBackslash_beginPiece position c
      rw [hbegin] at hnext
      rw [hnext]
      exact (Bool.and_true _).symm
  | backslash start =>
      have hnext : next.isBackslash = false := by
        simp only [stepPiece, openEscape] at h
        split at h
        · cases h; rfl
        · cases h; rfl
        · split at h <;> cases h
          rfl
      rw [hnext]
      exact (Bool.and_false _).symm
  | hex start form value got =>
      simp only [stepPiece] at h
      split at h
      · cases h
      · rename_i d hd
        have hne := ne_backslash_of_isHexDigit (isHexDigit_of_hexValue? hd).1
        rw [beq_eq_false_iff_ne.mpr hne]
        split at h
        · obtain ⟨-, -, -, rfl⟩ := closeEscape_eq_ok h
          rfl
        · cases h; rfl
  | octal start value got =>
      simp only [stepPiece] at h
      split at h
      · rename_i d hd
        have hne := ne_backslash_of_isOctal (isOctal_of_octalValue? hd).1
        rw [beq_eq_false_iff_ne.mpr hne]
        split at h
        · obtain ⟨-, -, -, rfl⟩ := closeEscape_eq_ok h
          rfl
        · cases h; rfl
      · split at h
        · cases h
          rw [isBackslash_beginPiece]
          exact (Bool.and_true _).symm
        · cases h

theorem exists_eq_backslash {pending : Pending} (h : pending.isBackslash = true) :
    ∃ start, pending = .backslash start := by
  cases pending with
  | backslash start => exact ⟨start, rfl⟩
  | nothing | hex | octal => cases h

/-- The pieces behind a character that completes none. -/
theorem piecesFrom_eq_ok_of_step {kind : LiteralKind} {position : Nat} {pending next : Pending}
    {c : Char} {front ps : List Piece} {rest : List Char}
    (hstep : stepPiece kind position pending c = .ok (front, next))
    (h : piecesFrom kind position pending (c :: rest) = .ok ps) :
    ∃ more, piecesFrom kind (position + c.utf8Size) next rest = .ok more ∧ ps = front ++ more := by
  obtain ⟨front', next', more, hstep', hmore, rfl⟩ := piecesFrom_cons_eq_ok h
  cases hstep.symm.trans hstep'
  exact ⟨more, hmore, rfl⟩

/-- An `\x` escape is the byte that it names. -/
theorem byte_mem_of_hex {letter p q : Char} {rest : List Char} {position start : Nat}
    {ps : List Piece} (hletter : letter = 'x' ∨ letter = 'X') (hp : isHexDigit p = true)
    (hq : isHexDigit q = true)
    (hps : piecesFrom .bytes position (.backslash start) (letter :: p :: q :: rest) = .ok ps) :
    .byte (UInt8.ofNat (numeral 16 [p, q])) ∈ ps := by
  have hopen : stepPiece .bytes position (.backslash start) letter =
      .ok ([], .hex start .code (numeral 16 []) 0) := by
    rcases hletter with rfl | rfl <;> rfl
  have hfirst (position : Nat) : stepPiece .bytes position
      (.hex start .code (numeral 16 []) 0) p = .ok ([], .hex start .code (numeral 16 [p]) 1) := by
    simp only [stepPiece, (Number.hexValue?_eq_digitOf hp).1, ← numeral_concat]
    rfl
  have hlast (position : Nat) : stepPiece .bytes position (.hex start .code (numeral 16 [p]) 1) q =
      .ok ([.byte (UInt8.ofNat (numeral 16 [p, q]))], .nothing) := by
    simp only [stepPiece, (Number.hexValue?_eq_digitOf hq).1, ← numeral_concat]
    rfl
  obtain ⟨ps, hps, rfl⟩ := piecesFrom_eq_ok_of_step hopen hps
  obtain ⟨ps, hps, rfl⟩ := piecesFrom_eq_ok_of_step (hfirst _) hps
  obtain ⟨more, -, rfl⟩ := piecesFrom_eq_ok_of_step (hlast _) hps
  exact List.mem_cons_self

/-- An octal escape is the byte that it names. -/
theorem byte_mem_of_octal {p q r : Char} {rest : List Char} {position start : Nat}
    {ps : List Piece} (hp : '0' ≤ p ∧ p ≤ '3') (hq : '0' ≤ q ∧ q ≤ '7') (hr : '0' ≤ r ∧ r ≤ '7')
    (hps : piecesFrom .bytes position (.backslash start) (p :: q :: r :: rest) = .ok ps) :
    .byte (UInt8.ofNat (numeral 8 [p, q, r])) ∈ ps := by
  have hopen : stepPiece .bytes position (.backslash start) p =
      .ok ([], .octal start (numeral 8 [p]) 1) := by
    have hcases : p ∈ ['0', '1', '2', '3'] := Number.mem_range_of_le hp
    simp only [List.mem_cons, List.not_mem_nil, or_false] at hcases
    rcases hcases with rfl | rfl | rfl | rfl <;> rfl
  have hsecond (position : Nat) : stepPiece .bytes position
      (.octal start (numeral 8 [p]) 1) q = .ok ([], .octal start (numeral 8 [p, q]) 2) := by
    simp only [stepPiece, (octalValue?_eq_digitOf hq).1, ← numeral_concat]
    rfl
  have hlast (position : Nat) : stepPiece .bytes position (.octal start (numeral 8 [p, q]) 2) r =
      .ok ([.byte (UInt8.ofNat (numeral 8 [p, q, r]))], .nothing) := by
    simp only [stepPiece, (octalValue?_eq_digitOf hr).1, ← numeral_concat]
    rfl
  obtain ⟨ps, hps, rfl⟩ := piecesFrom_eq_ok_of_step hopen hps
  obtain ⟨ps, hps, rfl⟩ := piecesFrom_eq_ok_of_step (hsecond _) hps
  obtain ⟨more, -, rfl⟩ := piecesFrom_eq_ok_of_step (hlast _) hps
  exact List.mem_cons_self

/-- A backslash opens an escape. -/
theorem exists_opened {rest : List Char} {position : Nat} {pending : Pending} {ps : List Piece}
    (hpending : pending.isBackslash = false)
    (hps : piecesFrom .bytes position pending ('\\' :: rest) = .ok ps) :
    ∃ start behind front more,
      piecesFrom .bytes behind (.backslash start) rest = .ok more ∧ ps = front ++ more := by
  obtain ⟨front, next, more, hstep, hmore, rfl⟩ := piecesFrom_cons_eq_ok hps
  have hnext := isBackslash_stepPiece hstep
  rw [hpending] at hnext
  obtain ⟨start, rfl⟩ := exists_eq_backslash hnext
  exact ⟨start, _, front, more, hmore, rfl⟩

/-- A code that the body of a bytes literal names is a byte among its pieces. -/
theorem byte_mem_of_namesCode {n : Nat} {body : List Char} {position : Nat} {pending : Pending}
    {ps : List Piece} (h : NamesCode n body) (hpending : pending.isBackslash = false)
    (hps : piecesFrom .bytes position pending body = .ok ps) :
    ∃ b, .byte b ∈ ps ∧ b.toNat = n := by
  induction h generalizing position pending ps with
  | @hex letter p q rest hletter hp hq =>
      obtain ⟨start, behind, front, more, hmore, rfl⟩ := exists_opened hpending hps
      exact ⟨_, List.mem_append_right _ (byte_mem_of_hex hletter hp hq hmore),
        UInt8.toNat_ofNat_of_lt' (numeral_hex_lt hp hq)⟩
  | @octal p q r rest hp hq hr =>
      obtain ⟨start, behind, front, more, hmore, rfl⟩ := exists_opened hpending hps
      exact ⟨_, List.mem_append_right _ (byte_mem_of_octal hp hq hr hmore),
        UInt8.toNat_ofNat_of_lt' (numeral_octal_lt hp hq hr)⟩
  | @plain n c rest hc _ ih =>
      obtain ⟨front, next, more, hstep, hmore, rfl⟩ := piecesFrom_cons_eq_ok hps
      have hnext := isBackslash_stepPiece hstep
      rw [beq_eq_false_iff_ne.mpr hc] at hnext
      obtain ⟨b, hb, hvalue⟩ := ih hnext hmore
      exact ⟨b, List.mem_append_right _ hb, hvalue⟩
  | @escape n c rest _ ih =>
      obtain ⟨start, behind, front, more, hmore, rfl⟩ := exists_opened hpending hps
      -- the character behind the backslash opens no escape, even if it is one itself
      obtain ⟨front', next, more', hstep, hmore', rfl⟩ := piecesFrom_cons_eq_ok hmore
      have hnext : next.isBackslash = (c == '\\' && !true) := isBackslash_stepPiece hstep
      rw [Bool.not_true, Bool.and_false] at hnext
      obtain ⟨b, hb, hvalue⟩ := ih hnext hmore'
      exact ⟨b, List.mem_append_right _ (List.mem_append_right _ hb), hvalue⟩

/-- The codes that the body of a bytes literal names are the bytes among its pieces. -/
theorem forall_namesCode_iff {body : List Char} {ps : List Piece}
    (hps : pieces .bytes body = .ok ps) (p : Nat → Prop) :
    (∀ n, NamesCode n body → p n) ↔ ∀ b, .byte b ∈ ps → p b.toNat := by
  constructor
  · intro h b hb
    exact h _ (namesCode_of_byte_mem .nothing hps hb)
  · intro h n hn
    obtain ⟨b, hb, rfl⟩ := byte_mem_of_namesCode hn rfl hps
    exact h b hb

/-! ### The bytes of twin pieces -/

theorem utf8EncodeChar_high : ∀ n < 256, 128 ≤ n →
    (String.utf8EncodeChar (Char.ofNat n)).length = 2 := by
  decide +kernel

/-- Twin pieces are the same bytes, unless they stand for a code that a character takes two for. -/
theorem twin_toBytes {first second : Piece} (h : Twin first second) :
    (second.toBytes = first.toBytes ∧ ∀ b, second = .byte b → b.toNat < 128) ∨
      (second.toBytes.length < first.toBytes.length ∧ ∃ b, second = .byte b ∧ 128 ≤ b.toNat) := by
  cases h with
  | char c => exact .inl ⟨rfl, nofun⟩
  | code b =>
      by_cases hascii : b.toNat < 128
      · refine .inl ⟨?_, fun b' hb => by cases hb; exact hascii⟩
        rw [Piece.toBytes, Piece.toBytes, utf8EncodeChar_ascii _ hascii, UInt8.ofNat_toNat]
      · have hhigh : 128 ≤ b.toNat := Nat.le_of_not_lt hascii
        refine .inr ⟨?_, b, rfl, hhigh⟩
        rw [Piece.toBytes, Piece.toBytes, utf8EncodeChar_high _ b.toNat_lt hhigh]
        exact Nat.one_lt_two

theorem length_toBytes_le {first second : List Piece} (h : List.Forall₂ Twin first second) :
    (second.flatMap Piece.toBytes).length ≤ (first.flatMap Piece.toBytes).length := by
  induction h with
  | nil => exact le_rfl
  | cons htwin _ ih =>
      simp only [List.flatMap_cons, List.length_append]
      rcases twin_toBytes htwin with ⟨hsame, -⟩ | ⟨hshort, -⟩
      · rw [hsame]
        exact Nat.add_le_add_left ih _
      · exact Nat.add_le_add hshort.le ih

/-- Twin pieces are the same bytes just if none stands for a code above those of ASCII. -/
theorem flatMap_toBytes_eq_iff {first second : List Piece} (h : List.Forall₂ Twin first second) :
    second.flatMap Piece.toBytes = first.flatMap Piece.toBytes ↔
      ∀ b, .byte b ∈ second → b.toNat < 128 := by
  induction h with
  | nil => exact iff_of_true rfl nofun
  | @cons p q first second htwin hrest ih =>
      simp only [List.flatMap_cons, List.mem_cons]
      rcases twin_toBytes htwin with ⟨hsame, hascii⟩ | ⟨hshort, b, rfl, hhigh⟩
      · rw [hsame, List.append_cancel_left_eq, ih]
        refine forall_congr' fun b => ⟨fun hb hmem => ?_, fun hb hmem => hb (.inr hmem)⟩
        exact hmem.elim (fun heq => hascii b heq.symm) hb
      · -- The characters take more bytes here and no fewer anywhere else.
        have hle := length_toBytes_le hrest
        refine iff_of_false (fun heq => ?_) fun hall => ?_
        · have hlength := congrArg List.length heq
          rw [List.length_append, List.length_append] at hlength
          omega
        · exact absurd (hall b (.inl rfl)) (Nat.not_lt.mpr hhigh)

/-! ### Literals -/

/-- A body is a text and bytes or neither of them, with one error; its bytes are the encoding of
its text just if no escape names a code above those of ASCII.  A body without a backslash is its own
text, and so the walk has it.  Whatever bytes the walk over a text literal yields, they are a text,
the one that the body stands for. -/
theorem literals_decode_alike (body : List Char) :
    ((∃ e, unescapeText body = .error e ∧ unescapeBytes body = .error e) ∨
      ∃ text bytes, unescapeText body = .ok text ∧ unescapeBytes body = .ok bytes ∧
        (bytes = utf8 text ↔ ∀ n, NamesCode n body → n < 128)) ∧
    ('\\' ∉ body → unescapeText body = .ok body ∧ unescape .text body = .ok (utf8 body)) ∧
    ∀ bytes, unescape .text body = .ok bytes →
      ∃ text, ofUtf8? bytes = some text ∧ unescapeText body = .ok text.toList := by
  refine ⟨?_, fun hplain => ?_, fun bytes hbytes => ?_⟩
  · have hsmall : Pending.nothing.Small := trivial
    have htwin : Agree (List.Forall₂ Twin) (pieces .text body) (pieces .bytes body) :=
      twin_piecesFrom hsmall 0 body
    generalize htext : pieces .text body = first at htwin
    generalize hbytes : pieces .bytes body = second at htwin
    cases htwin with
    | error e =>
        refine .inl ⟨e, unescapeText_of_error htext, ?_⟩
        rw [unescapeBytes, unescape, hbytes, Except.map]
    | @ok ps qs htwin =>
        obtain ⟨text, rfl⟩ := chars_piecesFrom htext
        refine .inr ⟨text, qs.flatMap Piece.toBytes, unescapeText_of_pieces htext, ?_, ?_⟩
        · rw [unescapeBytes, unescape, hbytes, Except.map]
        · rw [forall_namesCode_iff hbytes, ← toBytes_chars, flatMap_toBytes_eq_iff htwin]
  · have hpieces : pieces .text body = .ok (body.map .char) := piecesFrom_of_not_mem hplain 0
    refine ⟨unescapeText_of_pieces hpieces, ?_⟩
    rw [unescape, hpieces, Except.map, toBytes_chars]
  · cases hpieces : pieces .text body with
    | error e =>
        rw [unescape, hpieces] at hbytes
        cases hbytes
    | ok ps =>
        obtain ⟨text, rfl⟩ := chars_piecesFrom hpieces
        rw [unescape, hpieces, Except.map, toBytes_chars] at hbytes
        cases hbytes
        exact ⟨String.ofList text, ofUtf8?_utf8 text,
          by rw [unescapeText_of_pieces hpieces, String.toList_ofList]⟩

/-- A body without a backslash, `né`. -/
theorem literals_decode_alike_plain : '\\' ∉ ['n', 'é'] ∧
    unescapeText ['n', 'é'] = .ok ['n', 'é'] ∧
    unescape .text ['n', 'é'] = .ok [0x6E, 0xC3, 0xA9] ∧
    ∃ text, ofUtf8? [0x6E, 0xC3, 0xA9] = some text ∧
      unescapeText ['n', 'é'] = .ok text.toList := by
  have hplain : '\\' ∉ ['n', 'é'] := by decide
  obtain ⟨htext, hbytes⟩ := (literals_decode_alike ['n', 'é']).2.1 hplain
  exact ⟨hplain, htext, hbytes, (literals_decode_alike ['n', 'é']).2.2 _ hbytes⟩

/-- The code 233 is two bytes as a character. -/
example : unescapeText ['\\', 'x', 'e', '9'] = .ok ['é'] ∧
    unescapeBytes ['\\', 'x', 'e', '9'] = .ok [0xE9] ∧ utf8 ['é'] = [0xC3, 0xA9] := by
  refine ⟨unescapeText_of_pieces ?_, rfl, rfl⟩
  rfl

end EmbeddedExpr.Text
