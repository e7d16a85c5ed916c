import EmbeddedExpr.Proofs.Json.Token

/-!
# Documents are read back from their text

The compact text of a document is read as the tree of the document (`ofText?_write`), and
the tree completes to the document again.  What follows the text of a part is a comma, a
closing bracket or nothing, each of which ends a number, and the fuel of the reader only has
to exceed the length of the text.
-/

namespace EmbeddedExpr.Json

open Number

/-! ### The tree of a document -/

mutual

/-- The tree that the text of a document spells. -/
def Tree.ofJson : Json → Tree
  | .null => .null
  | .bool b => .bool b
  | .number n => .number (some n)
  | .text s => .text (some s)
  | .array items => .array (Tree.ofItems items)
  | .object fields => .object (Tree.ofFields fields)

def Tree.ofItems : List Json → List Tree
  | [] => []
  | item :: rest => Tree.ofJson item :: Tree.ofItems rest

def Tree.ofFields : List (String × Json) → List (Option String × Tree)
  | [] => []
  | (name, value) :: rest => (some name, Tree.ofJson value) :: Tree.ofFields rest

end

mutual

theorem complete?_ofJson (j : Json) : (Tree.ofJson j).complete? = some j := by
  cases j with
  | null | bool | number | text => rfl
  | array items =>
      rw [Tree.ofJson, Tree.complete?, completeItems?_ofItems items]
      rfl
  | object fields =>
      rw [Tree.ofJson, Tree.complete?, completeFields?_ofFields fields]
      rfl

theorem completeItems?_ofItems (items : List Json) :
    Tree.completeItems? (Tree.ofItems items) = some items := by
  cases items with
  | nil => rfl
  | cons item rest =>
      rw [Tree.ofItems, Tree.completeItems?, complete?_ofJson item, completeItems?_ofItems rest]

theorem completeFields?_ofFields (fields : List (String × Json)) :
    Tree.completeFields? (Tree.ofFields fields) = some fields := by
  cases fields with
  | nil => rfl
  | cons field rest =>
      obtain ⟨name, value⟩ := field
      simp only [Tree.ofFields, Tree.completeFields?, complete?_ofJson value,
        completeFields?_ofFields rest]

end

/-! ### The start of a text -/

theorem not_isSeparatorBlank_of_isDigit {c : Char} (h : isDigit c = true) :
    isSeparatorBlank c = false ∧ c ≠ ']' := by
  obtain ⟨hlow, -⟩ := toNat_of_isDigit h
  constructor
  · cases hblank : isSeparatorBlank c with
    | false => rfl
    | true =>
        simp only [isSeparatorBlank, Bool.or_eq_true, beq_iff_eq] at hblank
        rcases hblank with ((rfl | rfl) | rfl) | rfl <;> exact absurd h (by decide)
  · rintro rfl
    exact absurd h (by decide)

/-- The text of a document starts with neither a blank nor a closing bracket. -/
theorem head_write (j : Json) :
    ∃ c more, j.write.toList = c :: more ∧ isSeparatorBlank c = false ∧ c ≠ ']' := by
  cases j with
  | null => exact ⟨'n', _, rfl, rfl, by decide⟩
  | bool b =>
      cases b with
      | true => exact ⟨'t', _, rfl, rfl, by decide⟩
      | false => exact ⟨'f', _, rfl, rfl, by decide⟩
  | number n =>
      obtain ⟨c, more, htext, hc⟩ := n.head_write
      rcases hc with rfl | hc
      · exact ⟨'-', more, htext, rfl, by decide⟩
      · exact ⟨c, more, htext, not_isSeparatorBlank_of_isDigit hc⟩
  | text s =>
      exact ⟨'"', _, String.toList_ofList, rfl, by decide⟩
  | array items =>
      refine ⟨'[', (writeItems items).toList ++ [']'], ?_, rfl, by decide⟩
      rw [write, String.toList_append, String.toList_append]
      rfl
  | object fields =>
      refine ⟨'\x7b', (writeFields fields).toList ++ ['\x7d'], ?_, rfl, by decide⟩
      rw [write, String.toList_append, String.toList_append]
      rfl

/-- A text that starts with a sign or a digit is read as a number. -/
theorem readTree_number {c : Char} (hc : c = '-' ∨ isDigit c = true) (fuel : Nat)
    (more : List Char) :
    readTree (fuel + 1) (c :: more) = (readNumber (c :: more)).map fun r => (.number r.1, r.2) := by
  have hskip : skipBlanks (c :: more) = c :: more := by
    have hblank : isSeparatorBlank c = false := by
      rcases hc with rfl | hc
      · rfl
      · exact (not_isSeparatorBlank_of_isDigit hc).1
    rw [skipBlanks, List.dropWhile_cons_of_neg (by simp [hblank])]
  have hne (d : Char) (hd : d ≠ '-') (hdigit : isDigit d = false) : c ≠ d := by
    rintro rfl
    rcases hc with hc | hc
    · exact hd hc
    · exact absurd hc (by simp [hdigit])
  rw [readTree, hskip]
  split <;> rename_i heq
  · exact absurd (List.cons.inj heq).1 (hne 'n' (by decide) rfl)
  · exact absurd (List.cons.inj heq).1 (hne 't' (by decide) rfl)
  · exact absurd (List.cons.inj heq).1 (hne 'f' (by decide) rfl)
  · exact absurd (List.cons.inj heq).1 (hne '"' (by decide) rfl)
  · exact absurd (List.cons.inj heq).1 (hne '[' (by decide) rfl)
  · exact absurd (List.cons.inj heq).1 (hne '\x7b' (by decide) rfl)
  · rfl

/-! ### Reading a text back -/

theorem endsNumber_cons {c : Char} (h : c = ',' ∨ c = ']' ∨ c = '\x7d') (rest : List Char) :
    EndsNumber (c :: rest) := by
  rintro _ ⟨⟩
  rcases h with rfl | rfl | rfl <;> decide

theorem toList_writeItems_cons (item next : Json) (items : List Json) :
    (writeItems (item :: next :: items)).toList =
      item.write.toList ++ ',' :: (writeItems (next :: items)).toList := by
  rw [writeItems, String.toList_append, String.toList_append, List.append_assoc]
  · rfl
  · exact fun h => by cases h

theorem toList_writeFields_cons (name : String) (value : Json) (next : String × Json)
    (fields : List (String × Json)) :
    (writeFields ((name, value) :: next :: fields)).toList =
      (quote name).toList ++ ':' :: (value.write.toList ++
        ',' :: (writeFields (next :: fields)).toList) := by
  rw [writeFields, String.toList_append, String.toList_append, String.toList_append,
    String.toList_append]
  · simp
  · exact fun h => by cases h

theorem head_writeItems (item : Json) (items : List Json) :
    ∃ c more, (writeItems (item :: items)).toList = c :: more ∧ isSeparatorBlank c = false ∧
      c ≠ ']' := by
  obtain ⟨c, more, htext, hc⟩ := head_write item
  cases items with
  | nil => exact ⟨c, more, htext, hc⟩
  | cons next items =>
      refine ⟨c, more ++ ',' :: (writeItems (next :: items)).toList, ?_, hc⟩
      rw [toList_writeItems_cons, htext]
      rfl

theorem toList_writeFields_single (name : String) (value : Json) :
    (writeFields [(name, value)]).toList = (quote name).toList ++ ':' :: value.write.toList := by
  rw [writeFields, String.toList_append, String.toList_append, List.append_assoc]
  rfl

theorem head_writeFields (field : String × Json) (fields : List (String × Json)) :
    ∃ more, (writeFields (field :: fields)).toList = '"' :: more := by
  obtain ⟨name, value⟩ := field
  have hquote : (quote name).toList = '"' :: (name.toList.flatMap quoteChar ++ ['"']) :=
    String.toList_ofList
  cases fields with
  | nil =>
      rw [toList_writeFields_single, hquote]
      exact ⟨_, rfl⟩
  | cons next fields =>
      rw [toList_writeFields_cons, hquote]
      exact ⟨_, rfl⟩

theorem readTree_array {c : Char} (hblank : isSeparatorBlank c = false) (hc : c ≠ ']') (fuel : ℕ)
    (body : List Char) :
    readTree (fuel + 1) ('[' :: c :: body) =
      (itemsFrom (readTree fuel) fuel (c :: body)).map fun r => (.array r.1, r.2) := by
  have hopen : skipBlanks ('[' :: c :: body) = '[' :: c :: body := rfl
  have hskip : skipBlanks (c :: body) = c :: body := by
    rw [skipBlanks, List.dropWhile_cons_of_neg (by simp [hblank])]
  rw [readTree, hopen]
  simp only [hskip]
  split
  · rename_i heq
    exact absurd (List.cons.inj heq).1 hc
  · rfl

theorem readTree_object (fuel : ℕ) (body : List Char) :
    readTree (fuel + 1) ('\x7b' :: '"' :: body) =
      (fieldsFrom (readTree fuel) fuel ('"' :: body)).map fun r => (.object r.1, r.2) := rfl

theorem itemsFrom_comma {read : List Char → Option (Tree × List Char)} {input rest : List Char}
    {item : Tree} (h : read input = some (item, ',' :: rest)) (fuel : ℕ) :
    itemsFrom read (fuel + 1) input =
      (itemsFrom read fuel rest).map fun r => (item :: r.1, r.2) := by
  rw [itemsFrom, h]
  show ((itemsFrom read fuel rest).bind fun r => some (item :: r.1, r.2)) = _
  cases itemsFrom read fuel rest <;> rfl

theorem itemsFrom_bracket {read : List Char → Option (Tree × List Char)} {input rest : List Char}
    {item : Tree} (h : read input = some (item, ']' :: rest)) (fuel : ℕ) :
    itemsFrom read (fuel + 1) input = some ([item], rest) := by
  rw [itemsFrom, h]
  rfl

/-- A field is its name, a colon and its value. -/
theorem fieldsFrom_comma {read : List Char → Option (Tree × List Char)} (name : String)
    {input rest : List Char} {value : Tree} (h : read input = some (value, ',' :: rest))
    (fuel : ℕ) :
    fieldsFrom read (fuel + 1) ((quote name).toList ++ ':' :: input) =
      (fieldsFrom read fuel rest).map fun r => ((some name, value) :: r.1, r.2) := by
  obtain ⟨body, hquote, hread⟩ := readString_quote name (':' :: input)
  rw [hquote, List.cons_append, fieldsFrom]
  show ((readString (body ++ ':' :: input)).bind fun r => _) = _
  rw [hread]
  show ((read input).bind fun r => _) = _
  rw [h]
  show ((fieldsFrom read fuel rest).bind fun r => some ((some name, value) :: r.1, r.2)) = _
  cases fieldsFrom read fuel rest <;> rfl

theorem fieldsFrom_brace {read : List Char → Option (Tree × List Char)} (name : String)
    {input rest : List Char} {value : Tree} (h : read input = some (value, '\x7d' :: rest))
    (fuel : ℕ) :
    fieldsFrom read (fuel + 1) ((quote name).toList ++ ':' :: input) =
      some ([(some name, value)], rest) := by
  obtain ⟨body, hquote, hread⟩ := readString_quote name (':' :: input)
  rw [hquote, List.cons_append, fieldsFrom]
  show ((readString (body ++ ':' :: input)).bind fun r => _) = _
  rw [hread]
  show ((read input).bind fun r => _) = _
  rw [h]
  rfl

/-- The reader gives a document back from its text, whatever ends the text. -/
def ReadsBack (read : List Char → Option (Tree × List Char)) (j : Json) : Prop :=
  ∀ rest, EndsNumber rest → read (j.write.toList ++ rest) = some (Tree.ofJson j, rest)

/-- Items are read up to the closing bracket. -/
theorem itemsFrom_write {read : List Char → Option (Tree × List Char)} {item : Json}
    {items : List Json} (hread : ∀ j ∈ item :: items, ReadsBack read j) {fuel : ℕ}
    (hfuel : (writeItems (item :: items)).toList.length < fuel) (rest : List Char) :
    itemsFrom read fuel ((writeItems (item :: items)).toList ++ ']' :: rest) =
      some (Tree.ofItems (item :: items), rest) := by
  obtain ⟨hitem, hitems⟩ := List.forall_mem_cons.mp hread
  obtain ⟨fuel, rfl⟩ := Nat.exists_eq_succ_of_ne_zero (Nat.ne_zero_of_lt hfuel)
  induction items generalizing item fuel with
  | nil => exact itemsFrom_bracket (hitem _ (endsNumber_cons (.inr (.inl rfl)) rest)) fuel
  | cons next items ih =>
      rw [toList_writeItems_cons, List.length_append, List.length_cons] at hfuel
      obtain ⟨hnext, hmore⟩ := List.forall_mem_cons.mp hitems
      obtain ⟨fuel, rfl⟩ := Nat.exists_eq_succ_of_ne_zero (by omega : fuel ≠ 0)
      have hfirst := hitem _ (endsNumber_cons (.inl rfl)
        ((writeItems (next :: items)).toList ++ ']' :: rest))
      rw [toList_writeItems_cons, List.append_assoc, List.cons_append, itemsFrom_comma hfirst,
        ih hitems hnext hmore fuel (by omega)]
      rfl

/-- Fields are read up to the closing brace. -/
theorem fieldsFrom_write {read : List Char → Option (Tree × List Char)} {field : String × Json}
    {fields : List (String × Json)} (hread : ∀ f ∈ field :: fields, ReadsBack read f.2) {fuel : ℕ}
    (hfuel : (writeFields (field :: fields)).toList.length < fuel) (rest : List Char) :
    fieldsFrom read fuel ((writeFields (field :: fields)).toList ++ '\x7d' :: rest) =
      some (Tree.ofFields (field :: fields), rest) := by
  obtain ⟨hfield, hfields⟩ := List.forall_mem_cons.mp hread
  obtain ⟨fuel, rfl⟩ := Nat.exists_eq_succ_of_ne_zero (Nat.ne_zero_of_lt hfuel)
  induction fields generalizing field fuel with
  | nil =>
      obtain ⟨name, value⟩ := field
      have hvalue := hfield _ (endsNumber_cons (.inr (.inr rfl)) rest)
      rw [toList_writeFields_single, List.append_assoc, List.cons_append]
      exact fieldsFrom_brace name hvalue fuel
  | cons next fields ih =>
      obtain ⟨name, value⟩ := field
      rw [toList_writeFields_cons, List.length_append, List.length_cons, List.length_append,
        List.length_cons] at hfuel
      obtain ⟨hnext, hmore⟩ := List.forall_mem_cons.mp hfields
      obtain ⟨fuel, rfl⟩ := Nat.exists_eq_succ_of_ne_zero (by omega : fuel ≠ 0)
      have hvalue := hfield _ (endsNumber_cons (.inl rfl)
        ((writeFields (next :: fields)).toList ++ '\x7d' :: rest))
      rw [toList_writeFields_cons, List.append_assoc, List.cons_append, List.append_assoc,
        List.cons_append, fieldsFrom_comma name hvalue, ih hfields hnext hmore fuel (by omega)]
      rfl

theorem length_write_le_writeItems {j : Json} {items : List Json} (h : j ∈ items) :
    j.write.toList.length ≤ (writeItems items).toList.length := by
  induction items with
  | nil => cases h
  | cons item items ih =>
      cases items with
      | nil =>
          rw [List.mem_singleton.mp h]
          rfl
      | cons next items =>
          rw [toList_writeItems_cons, List.length_append, List.length_cons]
          rcases List.mem_cons.mp h with rfl | hmem
          · omega
          · have hle := ih hmem
            omega

theorem length_write_le_writeFields {field : String × Json} {fields : List (String × Json)}
    (h : field ∈ fields) :
    field.2.write.toList.length ≤ (writeFields fields).toList.length := by
  induction fields with
  | nil => cases h
  | cons first fields ih =>
      obtain ⟨name, value⟩ := first
      cases fields with
      | nil =>
          rw [List.mem_singleton.mp h, toList_writeFields_single, List.length_append,
            List.length_cons]
          show value.write.toList.length ≤ _
          omega
      | cons next fields =>
          rw [toList_writeFields_cons, List.length_append, List.length_cons, List.length_append,
            List.length_cons]
          rcases List.mem_cons.mp h with rfl | hmem
          · show value.write.toList.length ≤ _
            omega
          · have hle := ih hmem
            omega

theorem readsBack_array {fuel : ℕ} {items : List Json}
    (hread : ∀ j, j.write.toList.length < fuel → ReadsBack (readTree fuel) j)
    (hfuel : (array items).write.toList.length < fuel + 1) :
    ReadsBack (readTree (fuel + 1)) (array items) := by
  intro rest _
  cases items with
  | nil => rfl
  | cons item more =>
      obtain ⟨c, body, hbody, hblank, hc⟩ := head_writeItems item more
      have htext : (array (item :: more)).write.toList =
          '[' :: ((writeItems (item :: more)).toList ++ [']']) := by
        rw [write, String.toList_append, String.toList_append]
        rfl
      rw [htext, List.length_cons, List.length_append] at hfuel
      have hlength : (writeItems (item :: more)).toList.length < fuel := by omega
      have hitems := itemsFrom_write
        (fun j hj => hread j ((length_write_le_writeItems hj).trans_lt hlength)) hlength rest
      rw [htext, List.cons_append, List.append_assoc, List.singleton_append, hbody,
        List.cons_append, readTree_array hblank hc, ← List.cons_append, ← hbody, hitems]
      rfl

theorem readsBack_object {fuel : ℕ} {fields : List (String × Json)}
    (hread : ∀ j, j.write.toList.length < fuel → ReadsBack (readTree fuel) j)
    (hfuel : (object fields).write.toList.length < fuel + 1) :
    ReadsBack (readTree (fuel + 1)) (object fields) := by
  intro rest _
  cases fields with
  | nil => rfl
  | cons field more =>
      obtain ⟨body, hbody⟩ := head_writeFields field more
      have htext : (object (field :: more)).write.toList =
          '\x7b' :: ((writeFields (field :: more)).toList ++ ['\x7d']) := by
        rw [write, String.toList_append, String.toList_append]
        rfl
      rw [htext, List.length_cons, List.length_append] at hfuel
      have hlength : (writeFields (field :: more)).toList.length < fuel := by omega
      have hfields := fieldsFrom_write
        (fun f hf => hread f.2 ((length_write_le_writeFields hf).trans_lt hlength)) hlength rest
      rw [htext, List.cons_append, List.append_assoc, List.singleton_append, hbody,
        List.cons_append, readTree_object, ← List.cons_append, ← hbody, hfields]
      rfl

/-- A document is read back from its text if the fuel exceeds the length of the text. -/
theorem readTree_write {fuel : ℕ} {j : Json} (hfuel : j.write.toList.length < fuel) :
    ReadsBack (readTree fuel) j := by
  -- by induction on the fuel: the text of a part is shorter by the brackets around it
  induction fuel generalizing j with
  | zero => exact absurd hfuel (Nat.not_lt_zero _)
  | succ fuel ih =>
      cases j with
      | null => exact fun rest _ => rfl
      | bool b => cases b <;> exact fun rest _ => rfl
      | number n =>
          intro rest hrest
          obtain ⟨c, more, htext, hc⟩ := n.head_write
          have hread := readNumber_write n hrest
          rw [write, htext, List.cons_append, readTree_number hc, ← List.cons_append, ← htext,
            hread]
          rfl
      | text s =>
          intro rest _
          obtain ⟨body, hquote, hread⟩ := readString_quote s rest
          rw [write, hquote, List.cons_append]
          show (readString (body ++ rest)).map _ = _
          rw [hread]
          rfl
      | array items => exact readsBack_array (fun _ => ih) hfuel
      | object fields => exact readsBack_object (fun _ => ih) hfuel

/-- The text of a document spells its tree. -/
theorem ofText?_write (j : Json) : Tree.ofText? j.write.toList = some (Tree.ofJson j) := by
  have hread := readTree_write (Nat.lt_succ_self j.write.toList.length) [] (by rintro _ ⟨⟩)
  rw [List.append_nil] at hread
  rw [Tree.ofText?, hread]
  rfl

/-! ### Nesting -/

/-- At most `n` arrays and objects are nested in a document. -/
structure Shallow (n : ℕ) (j : Json) : Prop where
  depth_le : (Tree.ofJson j).depth ≤ n

theorem shallow_null (n : ℕ) : Shallow n null := ⟨Nat.zero_le n⟩

theorem shallow_bool (n : ℕ) (b : Bool) : Shallow n (bool b) := ⟨Nat.zero_le n⟩

theorem shallow_number (n : ℕ) (number : Numeral) : Shallow n (.number number) := ⟨Nat.zero_le n⟩

theorem shallow_text (n : ℕ) (s : String) : Shallow n (text s) := ⟨Nat.zero_le n⟩

theorem shallow_ofInt (n : ℕ) (i : ℤ) : Shallow n ((ofInt? i).getD null) := by
  unfold ofInt?
  split
  · exact shallow_number n _
  · exact shallow_null n

theorem shallow_ofNat (n count : ℕ) : Shallow n (ofNat count) := shallow_ofInt n count

theorem shallow_ofDouble (n : ℕ) (x : Double) : Shallow n ((ofDouble? x).getD null) := by
  unfold ofDouble?
  split
  · exact shallow_number n _
  · exact shallow_null n

theorem shallow_array {n : ℕ} {items : List Json} (h : ∀ j ∈ items, Shallow n j) :
    Shallow (n + 1) (array items) := by
  constructor
  apply Nat.succ_le_succ
  show Tree.itemsDepth (Tree.ofItems items) ≤ n
  induction items with
  | nil => exact Nat.zero_le n
  | cons item rest ih =>
      obtain ⟨hitem, hrest⟩ := List.forall_mem_cons.mp h
      exact Nat.max_le.mpr ⟨hitem.depth_le, ih hrest⟩

/-- The values of fields, none of which nests more than `n` arrays and objects. -/
structure ShallowFields (n : ℕ) (fields : List (String × Json)) : Prop where
  shallow : ∀ field ∈ fields, Shallow n field.2

theorem ShallowFields.nil (n : ℕ) : ShallowFields n [] := ⟨List.forall_mem_nil _⟩

theorem ShallowFields.cons {n : ℕ} {name : String} {j : Json} {fields : List (String × Json)}
    (h : Shallow n j) (hfields : ShallowFields n fields) :
    ShallowFields n ((name, j) :: fields) :=
  ⟨List.forall_mem_cons.mpr ⟨h, hfields.shallow⟩⟩

theorem ShallowFields.single {n : ℕ} {name : String} {j : Json} (h : Shallow n j) :
    ShallowFields n [(name, j)] := cons h (nil n)

theorem ShallowFields.append {n : ℕ} {first second : List (String × Json)}
    (hfirst : ShallowFields n first) (hsecond : ShallowFields n second) :
    ShallowFields n (first ++ second) :=
  ⟨List.forall_mem_append.mpr ⟨hfirst.shallow, hsecond.shallow⟩⟩

theorem shallow_object {n : ℕ} {fields : List (String × Json)} (h : ShallowFields n fields) :
    Shallow (n + 1) (object fields) := by
  obtain ⟨h⟩ := h
  constructor
  apply Nat.succ_le_succ
  show Tree.fieldsDepth (Tree.ofFields fields) ≤ n
  induction fields with
  | nil => exact Nat.zero_le n
  | cons field rest ih =>
      obtain ⟨hfield, hrest⟩ := List.forall_mem_cons.mp h
      exact Nat.max_le.mpr ⟨hfield.depth_le, ih hrest⟩

/-- A document is found again inside `outer` levels if it leaves room for them. -/
theorem document?_ofJson {n outer : ℕ} {j : Json} (h : Shallow n j) (hroom : outer + n ≤ deepest) :
    (Tree.ofJson j).document? outer = some j := by
  have hdepth : outer + (Tree.ofJson j).depth ≤ deepest :=
    Nat.le_trans (Nat.add_le_add_left h.depth_le outer) hroom
  rw [Tree.document?, if_pos hdepth, complete?_ofJson]

end EmbeddedExpr.Json
