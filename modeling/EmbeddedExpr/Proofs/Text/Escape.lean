import EmbeddedExpr.Proofs.Number.Digits
import EmbeddedExpr.Text.Escape
import Mathlib.Data.List.Basic
import Mathlib.Tactic.Choose

/-!
# Escapes are read back

Writing spells each character and each byte on its own (`Spells`), and reading takes what one
spelling stands for and goes on behind it, wherever in the body it is.  So the body of a text
is read as the text (`unescapeText_escapeBody`) and that of a byte string as its bytes
(`unescapeBytes_escapeBytes`).

A text literal has characters only for pieces (`chars_piecesFrom`), so its bytes are well formed and
the text is that of its pieces (`unescapeText_of_pieces`), also where the body is taken as it is.

No spelling ends the literal it stands in: quotation marks and line ends only occur behind a
backslash (`Quotable`), which is one that is not escaped itself (`marksEscaped_of_quotable`).  What
is written has no line end at all, and what is written of bytes is printed with ASCII alone.
-/

namespace EmbeddedExpr.Text

open Number (readHex? hexValue? ofDigits)

variable {kind : LiteralKind}

/-! ### Spellings -/

/-- The spelling is read as one piece, whatever is read behind it. -/
def Spells (kind : LiteralKind) (spelling : List Char) (piece : Piece) : Prop :=
  ∀ rest ps, (∀ position, piecesFrom kind position .nothing rest = .ok ps) →
    ∀ position, piecesFrom kind position .nothing (spelling ++ rest) = .ok (piece :: ps)

/-- What a character completes stands before the pieces behind it. -/
theorem piecesFrom_cons {position : Nat} {pending next : Pending} {c : Char} {front : List Piece}
    (h : stepPiece kind position pending c = .ok (front, next)) (rest : List Char) :
    piecesFrom kind position pending (c :: rest) =
      (piecesFrom kind (position + c.utf8Size) next rest).map (front ++ ·) := by
  simp only [piecesFrom, h]
  cases piecesFrom kind (position + c.utf8Size) next rest <;> rfl

/-- The pieces of a body are those that its first character completes, and those of the rest. -/
theorem piecesFrom_cons_eq_ok {position : Nat} {pending : Pending} {c : Char} {rest : List Char}
    {ps : List Piece} (h : piecesFrom kind position pending (c :: rest) = .ok ps) :
    ∃ front next more, stepPiece kind position pending c = .ok (front, next) ∧
      piecesFrom kind (position + c.utf8Size) next rest = .ok more ∧ ps = front ++ more := by
  rw [piecesFrom] at h
  split at h
  · cases h
  · rename_i front next hstep
    split at h
    · cases h
    · rename_i more hmore
      exact ⟨front, next, more, hstep, hmore, (Except.ok.inj h).symm⟩

theorem spells_self {c : Char} (h : c ≠ '\\') : Spells kind [c] (.char c) := by
  intro rest ps hrest position
  have hstep : stepPiece kind position .nothing c = .ok ([.char c], .nothing) := by
    rw [stepPiece, beginPiece, if_neg h]
  rw [List.cons_append, List.nil_append, piecesFrom_cons hstep, hrest]
  rfl

theorem spells_simple {letter c : Char} (h : simpleEscape? letter = some c) :
    Spells kind ['\\', letter] (.char c) := by
  intro rest ps hrest position
  have hopen (position start : Nat) :
      stepPiece kind position (.backslash start) letter = .ok ([.char c], .nothing) := by
    rw [stepPiece, openEscape, h]
  rw [List.cons_append, List.cons_append, List.nil_append, piecesFrom_cons rfl,
    piecesFrom_cons (hopen _ _), hrest]
  rfl

/-- The digits of an escape, of which `got` have been read, complete the piece that they spell. -/
theorem piecesFrom_hexDigits {form : HexForm} {start n : Nat} {piece : Piece}
    (hpiece : form.piece kind start n = .ok piece) {rest : List Char} {ps : List Piece}
    (hrest : ∀ position, piecesFrom kind position .nothing rest = .ok ps) {c : Char}
    {digits : List Char} {value got : Nat} (hwidth : got + 1 + digits.length = form.width)
    (hdigits : ofDigits 16 hexValue? value (c :: digits) = some n) (position : Nat) :
    piecesFrom kind position (.hex start form value got) (c :: digits ++ rest) =
      .ok (piece :: ps) := by
  induction digits generalizing c value got position with
  | nil =>
      rw [ofDigits] at hdigits
      split at hdigits
      · rename_i d hd
        obtain rfl : value * 16 + d = n := Option.some.inj hdigits
        have hlast : got + 1 = form.width := hwidth
        have hstep : stepPiece kind position (.hex start form value got) c =
            .ok ([piece], .nothing) := by
          simp only [stepPiece, hd, if_pos hlast, hpiece, closeEscape, Except.map]
        rw [List.cons_append, List.nil_append, piecesFrom_cons hstep, hrest]
        rfl
      · cases hdigits
  | cons next digits ih =>
      rw [ofDigits] at hdigits
      split at hdigits
      · rename_i d hd
        rw [List.length_cons] at hwidth
        have hmore : got + 1 ≠ form.width := by omega
        have hstep : stepPiece kind position (.hex start form value got) c =
            .ok ([], .hex start form (value * 16 + d) (got + 1)) := by
          simp only [stepPiece, hd, if_neg hmore]
        rw [List.cons_append, piecesFrom_cons hstep, ih (by omega) hdigits]
        rfl
      · cases hdigits

theorem spells_short {p q r s : Char} {n : Nat} (h : readHex? [p, q, r, s] = some n)
    (hn : n.isValidChar) : Spells kind ['\\', 'u', p, q, r, s] (.char (Char.ofNat n)) := by
  intro rest ps hrest position
  have hpiece : HexForm.short.piece kind position n = .ok (.char (Char.ofNat n)) := if_pos hn
  have hwidth : 0 + 1 + [q, r, s].length = HexForm.short.width := rfl
  have hdigits := piecesFrom_hexDigits hpiece hrest hwidth h
  rw [List.cons_append, List.cons_append, piecesFrom_cons rfl, piecesFrom_cons rfl, hdigits]
  rfl

theorem spells_byte {p q : Char} {n : Nat} (h : readHex? [p, q] = some n) :
    Spells .bytes ['\\', 'x', p, q] (.byte (UInt8.ofNat n)) := by
  intro rest ps hrest position
  have hpiece : HexForm.code.piece .bytes position n = .ok (.byte (UInt8.ofNat n)) := rfl
  have hwidth : 0 + 1 + [q].length = HexForm.code.width := rfl
  have hdigits := piecesFrom_hexDigits hpiece hrest hwidth h
  rw [List.cons_append, List.cons_append, piecesFrom_cons rfl, piecesFrom_cons rfl, hdigits]
  rfl

/-! ### Characters and bytes -/

theorem readHex?_control : ∀ n < 160, ∃ p q r s, hexDigits 4 n = [p, q, r, s] ∧
    readHex? [p, q, r, s] = some n := by
  intro n hn
  refine ⟨(hexDigits 4 n)[0]!, (hexDigits 4 n)[1]!, (hexDigits 4 n)[2]!, (hexDigits 4 n)[3]!, ?_⟩
  revert n
  decide +kernel

theorem readHex?_byte : ∀ n < 256, ∃ p q, hexDigits 2 n = [p, q] ∧ readHex? [p, q] = some n := by
  intro n hn
  refine ⟨(hexDigits 2 n)[0]!, (hexDigits 2 n)[1]!, ?_⟩
  revert n
  decide +kernel

theorem toNat_ofNat_byte : ∀ n < 256, (Char.ofNat n).toNat = n := by
  decide +kernel

theorem utf8EncodeChar_ascii : ∀ n < 128,
    String.utf8EncodeChar (Char.ofNat n) = [UInt8.ofNat n] := by
  decide +kernel

/-- A character that ends no literal and opens no escape. -/
def IsPlain (c : Char) : Prop := c ≠ '"' ∧ c ≠ '\\' ∧ c ≠ '\n'

/-- A character is written as it is, behind a backslash or by its digits. -/
theorem escapeChar_cases (c : Char) :
    (escapeChar c = [c] ∧ IsPlain c) ∨
      (∃ letter, escapeChar c = ['\\', letter] ∧ simpleEscape? letter = some c) ∨
      ∃ p q r s, escapeChar c = ['\\', 'u', p, q, r, s] ∧ readHex? [p, q, r, s] = some c.toNat := by
  by_cases hmark : c ∈ ['"', '\\', '\n', '\r', '\t']
  · simp only [List.mem_cons, List.not_mem_nil, or_false] at hmark
    rcases hmark with rfl | rfl | rfl | rfl | rfl <;> exact .inr (.inl ⟨_, rfl, rfl⟩)
  · simp only [List.mem_cons, List.not_mem_nil, or_false, not_or] at hmark
    obtain ⟨hquote, hslash, hline, hreturn, htab⟩ := hmark
    rw [escapeChar, if_neg hquote, if_neg hslash, if_neg hline, if_neg hreturn, if_neg htab]
    by_cases hcontrol : isControl c = true
    · have hlt : c.toNat < 160 := by
        simp only [isControl, decide_eq_true_eq] at hcontrol
        omega
      obtain ⟨p, q, r, s, hdigits, hread⟩ := readHex?_control c.toNat hlt
      rw [if_pos hcontrol, hdigits]
      exact .inr (.inr ⟨p, q, r, s, rfl, hread⟩)
    · rw [if_neg hcontrol]
      exact .inl ⟨rfl, hquote, hslash, hline⟩

theorem escapeChar_of_isDigit {c : Char} (h : Number.isDigit c = true) : escapeChar c = [c] := by
  have hne (e : Char) (he : Number.isDigit e = false) : c ≠ e := Number.ne_of_isDigit h he
  have hcontrol : isControl c = false := by
    have hrange := Number.toNat_of_isDigit h
    exact decide_eq_false (by omega)
  rw [escapeChar, if_neg (hne _ rfl), if_neg (hne _ rfl), if_neg (hne _ rfl), if_neg (hne _ rfl),
    if_neg (hne _ rfl), hcontrol]
  rfl

/-- A text without characters that have escapes is its own body. -/
theorem escapeBody_eq_self {text : List Char} (h : ∀ c ∈ text, escapeChar c = [c]) :
    escapeBody text = text := by
  rw [escapeBody, List.flatMap_congr h, List.flatMap_singleton']

/-- A byte is written as its character, behind a backslash or by its digits. -/
theorem escapeByte_cases (b : UInt8) :
    (escapeByte b = [Char.ofNat b.toNat] ∧ IsPlain (Char.ofNat b.toNat) ∧ b.toNat < 128) ∨
      (∃ letter, escapeByte b = ['\\', letter] ∧
        simpleEscape? letter = some (Char.ofNat b.toNat) ∧ b.toNat < 128) ∨
      ∃ p q, escapeByte b = ['\\', 'x', p, q] ∧ readHex? [p, q] = some b.toNat := by
  by_cases hmark : Char.ofNat b.toNat ∈ ['"', '\\', '\n', '\r', '\t']
  · have hcode := (toNat_ofNat_byte b.toNat b.toNat_lt).symm
    simp only [List.mem_cons, List.not_mem_nil, or_false] at hmark
    simp only [escapeByte]
    rcases hmark with h | h | h | h | h <;> rw [h] at hcode ⊢ <;>
      exact .inr (.inl ⟨_, rfl, rfl, by rw [hcode]; decide⟩)
  · simp only [List.mem_cons, List.not_mem_nil, or_false, not_or] at hmark
    obtain ⟨hquote, hslash, hline, hreturn, htab⟩ := hmark
    simp only [escapeByte, if_neg hquote, if_neg hslash, if_neg hline, if_neg hreturn, if_neg htab]
    by_cases hprinted : 0x20 ≤ b ∧ b ≤ 0x7E
    · have hle : b.toNat ≤ 0x7E := UInt8.le_iff_toNat_le.mp hprinted.2
      rw [if_pos hprinted]
      exact .inl ⟨rfl, ⟨hquote, hslash, hline⟩, by omega⟩
    · obtain ⟨p, q, hdigits, hread⟩ := readHex?_byte b.toNat b.toNat_lt
      rw [if_neg hprinted, hdigits]
      exact .inr (.inr ⟨p, q, rfl, hread⟩)

/-! ### Bodies -/

theorem spells_escapeChar (c : Char) : Spells kind (escapeChar c) (.char c) := by
  rcases escapeChar_cases c with ⟨hspelling, hplain⟩ | ⟨letter, hspelling, hletter⟩ |
    ⟨p, q, r, s, hspelling, hread⟩
  · exact hspelling ▸ spells_self hplain.2.1
  · exact hspelling ▸ spells_simple hletter
  · have hspells : Spells kind _ (.char (Char.ofNat c.toNat)) := spells_short hread c.valid
    rw [Char.ofNat_toNat] at hspells
    exact hspelling ▸ hspells

theorem exists_spells_escapeByte (b : UInt8) :
    ∃ piece, Spells .bytes (escapeByte b) piece ∧ piece.toBytes = [b] := by
  have hself (hascii : b.toNat < 128) : (Piece.char (Char.ofNat b.toNat)).toBytes = [b] := by
    rw [Piece.toBytes, utf8EncodeChar_ascii _ hascii, UInt8.ofNat_toNat]
  rcases escapeByte_cases b with ⟨hspelling, hplain, hascii⟩ |
    ⟨letter, hspelling, hletter, hascii⟩ | ⟨p, q, hspelling, hread⟩
  · exact ⟨_, hspelling ▸ spells_self hplain.2.1, hself hascii⟩
  · exact ⟨_, hspelling ▸ spells_simple hletter, hself hascii⟩
  · exact ⟨_, hspelling ▸ spells_byte hread, by rw [Piece.toBytes, UInt8.ofNat_toNat]⟩

/-- A body is read spelling by spelling. -/
theorem piecesFrom_flatMap {α : Type} {spell : α → List Char} {piece : α → Piece}
    (h : ∀ a, Spells kind (spell a) (piece a)) (l : List α) (position : Nat) :
    piecesFrom kind position .nothing (l.flatMap spell) = .ok (l.map piece) := by
  induction l generalizing position with
  | nil => rfl
  | cons a l ih =>
      rw [List.flatMap_cons, List.map_cons]
      exact h a _ _ ih position

/-! ### The text of a body -/

/-- The bytes of a text are read as the text. -/
theorem ofUtf8?_utf8 (text : List Char) : ofUtf8? (utf8 text) = some (String.ofList text) := by
  have hbytes : (⟨(utf8 text).toArray⟩ : ByteArray) = text.utf8Encode := by
    rw [List.utf8Encode]
    ext1
    simp [utf8]
  have hvalid : text.utf8Encode.IsValidUTF8 := (String.ofList text).isValidUTF8
  rw [ofUtf8?, hbytes, String.fromUTF8?, dif_pos hvalid]
  rfl

theorem toBytes_chars (text : List Char) :
    (text.map Piece.char).flatMap Piece.toBytes = utf8 text :=
  List.flatMap_map ..

/-- A body without a backslash has its characters for pieces. -/
theorem piecesFrom_of_not_mem {body : List Char} (h : '\\' ∉ body) (position : Nat) :
    piecesFrom kind position .nothing body = .ok (body.map .char) := by
  induction body generalizing position with
  | nil => rfl
  | cons c rest ih =>
      rw [List.mem_cons, not_or] at h
      have hself : Spells kind [c] (.char c) := spells_self (Ne.symm h.1)
      exact hself rest _ (ih h.2) position

theorem char_of_scalarPiece {start value : Nat} {piece : Piece}
    (h : scalarPiece start value = .ok piece) : ∃ c, piece = .char c := by
  unfold scalarPiece at h
  split at h
  · exact ⟨_, (Except.ok.inj h).symm⟩
  · cases h

theorem closeEscape_eq_ok {piece : Except UnescapeError Piece} {front : List Piece}
    {next : Pending} (h : closeEscape piece = .ok (front, next)) :
    ∃ p, piece = .ok p ∧ front = [p] ∧ next = .nothing := by
  cases piece with
  | error e => cases h
  | ok p => cases h; exact ⟨p, rfl, rfl, rfl⟩

theorem chars_beginPiece (position : Nat) (c : Char) :
    ∃ text : List Char, (beginPiece position c).1 = text.map .char := by
  unfold beginPiece
  split
  · exact ⟨[], rfl⟩
  · exact ⟨[c], rfl⟩

/-- What a character of a text literal completes are characters. -/
theorem chars_stepPiece {position : Nat} {pending next : Pending} {c : Char} {front : List Piece}
    (h : stepPiece .text position pending c = .ok (front, next)) :
    ∃ text : List Char, front = text.map .char := by
  have hclosed {start value : Nat} (hclose : closeEscape (scalarPiece start value) =
      .ok (front, next)) : ∃ text : List Char, front = text.map .char := by
    obtain ⟨piece, hpiece, rfl, -⟩ := closeEscape_eq_ok hclose
    obtain ⟨d, rfl⟩ := char_of_scalarPiece hpiece
    exact ⟨[d], rfl⟩
  cases pending with
  | nothing =>
      obtain ⟨text, htext⟩ := chars_beginPiece position c
      have hfront : beginPiece position c = (front, next) := Except.ok.inj h
      exact ⟨text, by rw [← htext, hfront]⟩
  | backslash start =>
      simp only [stepPiece, openEscape] at h
      split at h
      · cases h
        exact ⟨[_], rfl⟩
      · cases h
        exact ⟨[], rfl⟩
      · split at h <;> cases h
        exact ⟨[], rfl⟩
  | hex start form value got =>
      simp only [stepPiece] at h
      split at h
      · cases h
      · split at h
        · cases form <;> exact hclosed h
        · cases h
          exact ⟨[], rfl⟩
  | octal start value got =>
      simp only [stepPiece] at h
      split at h
      · split at h
        · exact hclosed h
        · cases h
          exact ⟨[], rfl⟩
      · split at h
        · cases h
          obtain ⟨text, htext⟩ := chars_beginPiece position c
          exact ⟨'\x00' :: text, congrArg _ htext⟩
        · cases h

theorem chars_endPieces {pending : Pending} {ps : List Piece} (h : endPieces pending = .ok ps) :
    ∃ text : List Char, ps = text.map .char := by
  cases pending with
  | nothing => cases h; exact ⟨[], rfl⟩
  | backslash start => cases h
  | hex start form value got => cases h
  | octal start value got =>
      simp only [endPieces] at h
      split at h
      · cases h
        exact ⟨['\x00'], rfl⟩
      · cases h

/-- The pieces of a text literal are characters. -/
theorem chars_piecesFrom {body : List Char} {position : Nat} {pending : Pending} {ps : List Piece}
    (h : piecesFrom .text position pending body = .ok ps) :
    ∃ text : List Char, ps = text.map .char := by
  induction body generalizing position pending ps with
  | nil => exact chars_endPieces h
  | cons c rest ih =>
      obtain ⟨front, next, more, hstep, hmore, rfl⟩ := piecesFrom_cons_eq_ok h
      obtain ⟨first, rfl⟩ := chars_stepPiece hstep
      obtain ⟨text, rfl⟩ := ih hmore
      exact ⟨first ++ text, List.map_append.symm⟩

/-- The pieces of a body are its text, taken as it is or put together from its bytes. -/
theorem unescapeText_of_pieces {body text : List Char}
    (h : pieces .text body = .ok (text.map .char)) : unescapeText body = .ok text := by
  have hbytes : unescape .text body = .ok (utf8 text) := by
    rw [unescape, h, Except.map, toBytes_chars]
  unfold unescapeText
  split
  · simp only [hbytes, ofUtf8?_utf8, String.toList_ofList]
  · rename_i hplain
    have hself : pieces .text body = .ok (body.map .char) := piecesFrom_of_not_mem hplain 0
    have hsame : body.map Piece.char = text.map Piece.char := Except.ok.inj (hself.symm.trans h)
    rw [(List.map_inj_right fun c d => Piece.char.inj).mp hsame]

theorem unescapeText_of_error {body : List Char} {e : UnescapeError}
    (h : pieces .text body = .error e) : unescapeText body = .error e := by
  have hbytes : unescape .text body = .error e := by rw [unescape, h, Except.map]
  unfold unescapeText
  split
  · rw [hbytes]
  · rename_i hplain
    cases (piecesFrom_of_not_mem hplain 0).symm.trans h

/-- The body of a text is read as the text. -/
theorem unescapeText_escapeBody (text : List Char) : unescapeText (escapeBody text) = .ok text :=
  unescapeText_of_pieces (piecesFrom_flatMap spells_escapeChar text 0)

/-- The body of a byte string is read as its bytes. -/
theorem unescapeBytes_escapeBytes (bytes : List UInt8) :
    unescapeBytes (escapeBytes bytes) = .ok bytes := by
  choose piece hspells hpiece using exists_spells_escapeByte
  rw [unescapeBytes, unescape, pieces, escapeBytes, piecesFrom_flatMap hspells, Except.map,
    List.flatMap_map]
  simp only [hpiece, List.flatMap_singleton']

/-! ### Between quotation marks -/

/-- A text that a quotation mark behind it closes: marks and line ends in it only occur behind a
backslash. -/
inductive Quotable : List Char → Prop
  | nil : Quotable []
  | plain {c : Char} {rest : List Char} : IsPlain c → Quotable rest → Quotable (c :: rest)
  | escape {c : Char} {rest : List Char} : Quotable rest → Quotable ('\\' :: c :: rest)

namespace Quotable

theorem append {first second : List Char} (hfirst : Quotable first) (hsecond : Quotable second) :
    Quotable (first ++ second) := by
  induction hfirst with
  | nil => exact hsecond
  | plain hc _ ih => exact .plain hc ih
  | escape _ ih => exact .escape ih

theorem of_plain {text : List Char} (h : ∀ c ∈ text, IsPlain c) : Quotable text := by
  induction text with
  | nil => exact .nil
  | cons c text ih =>
      exact .plain (h c List.mem_cons_self) (ih fun d hd => h d (List.mem_cons_of_mem _ hd))

theorem flatMap {α : Type} {spell : α → List Char} (h : ∀ a, Quotable (spell a)) (l : List α) :
    Quotable (l.flatMap spell) := by
  induction l with
  | nil => exact .nil
  | cons a l ih => exact (h a).append ih

end Quotable

theorem isPlain_of_ofDigits {digits : List Char} {acc n : Nat}
    (h : ofDigits 16 hexValue? acc digits = some n) : ∀ c ∈ digits, IsPlain c := by
  induction digits generalizing acc with
  | nil => nofun
  | cons c digits ih =>
      rw [ofDigits] at h
      split at h
      · rename_i d hd
        have hc : IsPlain c := by
          refine ⟨?_, ?_, ?_⟩ <;> (rintro rfl; cases hd)
        exact List.forall_mem_cons.mpr ⟨hc, ih h⟩
      · cases h

theorem isPlain_of_readHex? {digits : List Char} {n : Nat} (h : readHex? digits = some n) :
    ∀ c ∈ digits, IsPlain c := by
  rw [readHex?] at h
  split at h
  · cases h
  · exact isPlain_of_ofDigits h

theorem quotable_escapeBody (text : List Char) : Quotable (escapeBody text) := by
  refine Quotable.flatMap (fun c => ?_) text
  rcases escapeChar_cases c with ⟨hspelling, hplain⟩ | ⟨letter, hspelling, -⟩ |
    ⟨p, q, r, s, hspelling, hread⟩
  · exact hspelling ▸ .plain hplain .nil
  · exact hspelling ▸ .escape .nil
  · exact hspelling ▸ .escape (.of_plain (isPlain_of_readHex? hread))

theorem quotable_escapeBytes (bytes : List UInt8) : Quotable (escapeBytes bytes) := by
  refine Quotable.flatMap (fun b => ?_) bytes
  rcases escapeByte_cases b with ⟨hspelling, hplain, -⟩ | ⟨letter, hspelling, -⟩ |
    ⟨p, q, hspelling, hread⟩
  · exact hspelling ▸ .plain hplain .nil
  · exact hspelling ▸ .escape .nil
  · exact hspelling ▸ .escape (.of_plain (isPlain_of_readHex? hread))

/-! ### Escaping backslashes -/

/-- Whether a text ends with a backslash that escapes what stands behind the text.  A backslash that
is escaped itself escapes nothing. -/
def endsEscaping (text : List Char) : Bool :=
  text.foldl (fun escaping c => c == '\\' && !escaping) false

/-- Every quotation mark stands behind a backslash that escapes it. -/
def MarksEscaped (body : List Char) : Prop :=
  ∀ before after, body = before ++ '"' :: after → endsEscaping before = true

theorem endsEscaping_cons {c : Char} (h : c ≠ '\\') (text : List Char) :
    endsEscaping (c :: text) = endsEscaping text := by
  simp [endsEscaping, beq_eq_false_iff_ne.mpr h]

/-- A backslash and the character that it escapes do not matter for what comes behind. -/
theorem endsEscaping_escape (c : Char) (text : List Char) :
    endsEscaping ('\\' :: c :: text) = endsEscaping text := by
  simp [endsEscaping]

theorem marksEscaped_of_quotable {body : List Char} (h : Quotable body) : MarksEscaped body := by
  intro before after hbody
  induction h generalizing before with
  | nil => exact absurd hbody.symm (List.append_ne_nil_of_right_ne_nil _ (List.cons_ne_nil _ _))
  | @plain c rest hc _ ih =>
      cases before with
      | nil => exact absurd (List.cons.inj hbody).1 hc.1
      | cons d before =>
          obtain ⟨rfl, hrest⟩ := List.cons.inj hbody
          rw [endsEscaping_cons hc.2.1]
          exact ih before hrest
  | @escape c rest _ ih =>
      -- the mark is the escaped character, or it stands behind this escape
      match before with
      | [] => exact absurd (List.cons.inj hbody).1 (by decide)
      | [d] =>
          obtain ⟨rfl, -⟩ := List.cons.inj hbody
          rfl
      | d :: e :: before =>
          obtain ⟨rfl, hbehind⟩ := List.cons.inj hbody
          obtain ⟨rfl, hrest⟩ := List.cons.inj hbehind
          rw [endsEscaping_escape]
          exact ih before hrest

/-! ### Written literals -/

/-- No character is written with a line end. -/
theorem line_not_mem_escapeBody (text : List Char) : '\n' ∉ escapeBody text := by
  intro hmem
  obtain ⟨c, -, hc⟩ := List.mem_flatMap.mp hmem
  rcases escapeChar_cases c with ⟨hspelling, hplain⟩ | ⟨letter, hspelling, hletter⟩ |
    ⟨p, q, r, s, hspelling, hread⟩
  · rw [hspelling, List.mem_singleton] at hc
    exact hplain.2.2 hc.symm
  · rw [hspelling, List.mem_cons, List.mem_singleton] at hc
    rcases hc with hslash | rfl
    · exact absurd hslash (by decide)
    · cases hletter
  · rw [hspelling, List.mem_cons, List.mem_cons] at hc
    rcases hc with hslash | hmark | hdigit
    · exact absurd hslash (by decide)
    · exact absurd hmark (by decide)
    · exact (isPlain_of_readHex? hread _ hdigit).2.2 rfl

theorem printed_escapeByte : ∀ n < 256, ∀ c ∈ escapeByte (UInt8.ofNat n), ' ' ≤ c ∧ c ≤ '~' := by
  decide +kernel

theorem printed_escapeBytes {bytes : List UInt8} {c : Char} (h : c ∈ escapeBytes bytes) :
    ' ' ≤ c ∧ c ≤ '~' := by
  obtain ⟨b, -, hc⟩ := List.mem_flatMap.mp h
  have hprinted := printed_escapeByte b.toNat b.toNat_lt c
  rw [UInt8.ofNat_toNat] at hprinted
  exact hprinted hc

/-- A text is written as a body between quotation marks that is read as the text, has no line end
and has quotation marks only behind a backslash that escapes them.  Bytes are written as a body of
printed ASCII characters that is read as the bytes, and its quotation marks are escaped as well. -/
theorem escaping_undone :
    (∀ text : String, ∃ body, escapeText text = String.ofList ('"' :: body ++ ['"']) ∧
      unescapeText body = .ok text.toList ∧ '\n' ∉ body ∧ MarksEscaped body) ∧
    ∀ bytes : List UInt8, unescapeBytes (escapeBytes bytes) = .ok bytes ∧
      (∀ c ∈ escapeBytes bytes, ' ' ≤ c ∧ c ≤ '~') ∧ MarksEscaped (escapeBytes bytes) := by
  constructor
  · intro text
    refine ⟨escapeBody text.toList, rfl, unescapeText_escapeBody _, line_not_mem_escapeBody _, ?_⟩
    exact marksEscaped_of_quotable (quotable_escapeBody _)
  · intro bytes
    refine ⟨unescapeBytes_escapeBytes bytes, fun c hc => printed_escapeBytes hc, ?_⟩
    exact marksEscaped_of_quotable (quotable_escapeBytes bytes)

/-- A quotation mark behind a backslash, and a byte that is no character. -/
theorem escaping_undone_mark :
    escapeBytes [0x5C, 0x22, 0xFF] = ['\\', '\\', '\\', '"', '\\', 'x', 'f', 'f'] ∧
      unescapeBytes ['\\', '\\', '\\', '"', '\\', 'x', 'f', 'f'] = .ok [0x5C, 0x22, 0xFF] ∧
      (' ' ≤ 'x' ∧ 'x' ≤ '~') ∧ endsEscaping ['\\', '\\', '\\'] = true := by
  obtain ⟨hread, hprinted, hmarks⟩ := escaping_undone.2 [0x5C, 0x22, 0xFF]
  have hwritten : escapeBytes [0x5C, 0x22, 0xFF] =
      ['\\', '\\', '\\', '"', '\\', 'x', 'f', 'f'] := by decide
  rw [hwritten] at hread hprinted hmarks
  exact ⟨hwritten, hread, hprinted 'x' (by decide), hmarks _ ['\\', 'x', 'f', 'f'] rfl⟩

end EmbeddedExpr.Text
