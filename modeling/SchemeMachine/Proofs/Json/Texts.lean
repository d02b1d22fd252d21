import SchemeMachine.Json.Parser

/-!
# JSON texts read back

The text of a JSON value reads back as that value, if the numerals in it are those of JSON numbers.
A value is read alike whatever comes behind it, as long as no numeral runs on into it; inside
brackets a comma, a line end or the closing bracket follows.

The reader takes turns.  Twice the number of characters always suffices, because every turn but
those that go from a bracket to an element passes a character.
-/

namespace SchemeMachine
namespace Json

/-! ## Strings -/

theorem hexUnit?_control : ∀ n < 0x20,
    hexUnit? '0' '0' (hexDigit (n / 16)) (hexDigit (n % 16)) = some n := by
  decide

theorem stringFrom_control {c : Char} (hc : c.toNat < 0x20) (done rest : List Char) :
    stringFrom none done
        ('\\' :: 'u' :: '0' :: '0' :: hexDigit (c.toNat / 16) :: hexDigit (c.toNat % 16) :: rest) =
      stringFrom none (c :: done) rest := by
  have hunit : joinUnit? none c.toNat = some (.inr c) := by
    rw [joinUnit?, if_neg (by omega), if_neg (by omega), Char.ofNat_toNat]
  rw [stringFrom, hexUnit?_control c.toNat hc, Option.bind_some, hunit]

/-- A character is read back from its escaped form. -/
theorem stringFrom_escapedChar (c : Char) (done rest : List Char) :
    stringFrom none done (escapedChar c ++ rest) = stringFrom none (c :: done) rest := by
  unfold escapedChar
  split
  -- Seven characters are escaped by a letter or by themselves.
  iterate 7 · simp [stringFrom, letterEscape?]
  next _ hquote hescape _ _ _ _ _ =>
    split
    next hcontrol => exact stringFrom_control hcontrol done rest
    next hplain =>
      have hsimple : ¬(c = '\\' ∨ c.toNat < 0x20) := fun h => h.elim hescape hplain
      rw [List.singleton_append, stringFrom, if_neg (by decide), if_neg hquote, if_neg hsimple]
      · exact fun _ _ _ _ _ h => absurd h hescape
      · exact fun _ _ h => absurd h hescape

theorem stringBody?_quoted (text : List Char) (k : List Char) :
    stringBody? (text.flatMap escapedChar ++ '"' :: k) = some (String.ofList text, k) := by
  have hrun : ∀ done, stringFrom none done (text.flatMap escapedChar ++ '"' :: k) =
      some (String.ofList (done.reverse ++ text), k) := by
    induction text with
    | nil =>
        intro done
        rw [List.append_nil]
        rfl
    | cons c text ih =>
        intro done
        rw [List.flatMap_cons, List.append_assoc, stringFrom_escapedChar, ih, List.reverse_cons,
          List.append_assoc, List.singleton_append]
  exact hrun []

/-! ## Spaces -/

section Spaces

variable {space text : List Char}

theorem skipSpace_append (h : ∀ c ∈ space, isSpace c = true) (text : List Char) :
    skipSpace (space ++ text) = skipSpace text :=
  List.dropWhile_append_of_pos h

theorem skipSpace_cons {c : Char} (h : isSpace c = false) (rest : List Char) :
    skipSpace (c :: rest) = c :: rest := by
  rw [skipSpace, List.dropWhile_cons, h]
  rfl

theorem isSpace_newline (depth : Nat) : ∀ c ∈ (newline depth).toList, isSpace c = true := by
  intro c hc
  rw [newline, String.toList_ofList, List.mem_cons] at hc
  rcases hc with rfl | hc
  · decide
  · rw [List.eq_of_mem_replicate hc]
    decide

/-- A value is read from its first character on, wherever the text before it ends. -/
theorem valueFrom_append (h : ∀ c ∈ space, isSpace c = true) (turns : Nat) (text : List Char) :
    valueFrom turns (space ++ text) = valueFrom turns text := by
  cases turns with
  | zero => rfl
  | succ turns => rw [valueFrom, valueFrom, skipSpace_append h]

theorem itemsFrom_append (h : ∀ c ∈ space, isSpace c = true) (turns : Nat) (text : List Char) :
    itemsFrom turns (space ++ text) = itemsFrom turns text := by
  cases turns with
  | zero => rfl
  | succ turns => rw [itemsFrom, itemsFrom, valueFrom_append h]

theorem membersFrom_append (h : ∀ c ∈ space, isSpace c = true) (turns : Nat) (text : List Char) :
    membersFrom turns (space ++ text) = membersFrom turns text := by
  cases turns with
  | zero => rfl
  | succ turns => rw [membersFrom, membersFrom, skipSpace_append h]

end Spaces

/-! ## Numerals -/

/-- The text of a JSON number. -/
structure IsNumeral (numeral : String) : Prop where
  chars : ∀ c ∈ numeral.toList, isNumeralChar c = true
  valid : isNumeral numeral.toList = true

/-- A numeral does not run on into what comes behind. -/
def EndsNumeral (k : List Char) : Prop :=
  ∀ c rest, k = c :: rest → isNumeralChar c = false

theorem endsNumeral_nil : EndsNumeral [] := by
  intro c rest h
  cases h

theorem endsNumeral_cons {c : Char} (h : isNumeralChar c = false) (rest : List Char) :
    EndsNumeral (c :: rest) := by
  intro c' rest' heq
  cases heq
  exact h

theorem not_isNumeral_nil : isNumeral [] = false := by
  decide

/-- Where a numeral begins, nothing else does. -/
theorem isNumeralChar_first {c : Char} (h : isNumeralChar c = true) :
    isSpace c = false ∧ c ∉ ['n', 't', 'f', '"', '[', '\x7b', ']'] := by
  constructor
  · rw [← Bool.not_eq_true]
    intro hspace
    simp only [isSpace, Bool.or_eq_true, beq_iff_eq] at hspace
    rcases hspace with ((rfl | rfl) | rfl) | rfl <;> revert h <;> decide
  · intro hc
    simp only [List.mem_cons, List.not_mem_nil, or_false] at hc
    rcases hc with rfl | rfl | rfl | rfl | rfl | rfl | rfl <;> revert h <;> decide

theorem EndsNumeral.span {numeral k : List Char} (hk : EndsNumeral k)
    (h : ∀ c ∈ numeral, isNumeralChar c = true) :
    (numeral ++ k).takeWhile isNumeralChar = numeral ∧
      (numeral ++ k).dropWhile isNumeralChar = k := by
  have hstop : k.takeWhile isNumeralChar = [] ∧ k.dropWhile isNumeralChar = k := by
    cases k with
    | nil => exact ⟨rfl, rfl⟩
    | cons c rest => simp [hk c rest rfl]
  rw [List.takeWhile_append_of_pos h, List.dropWhile_append_of_pos h, hstop.1, hstop.2,
    List.append_nil]
  exact ⟨rfl, rfl⟩

theorem valueFrom_numeral {numeral : String} (h : IsNumeral numeral) {k : List Char}
    (hk : EndsNumeral k) (turns : Nat) :
    valueFrom (turns + 1) (numeral.toList ++ k) = some (number numeral, k) := by
  obtain ⟨htake, hdrop⟩ := hk.span h.chars
  cases htext : numeral.toList with
  | nil =>
      have hvalid := h.valid
      rw [htext, not_isNumeral_nil] at hvalid
      cases hvalid
  | cons c rest =>
      obtain ⟨hspace, hc⟩ :=
        isNumeralChar_first (h.chars c (by rw [htext]; exact List.mem_cons_self))
      rw [valueFrom, List.cons_append, skipSpace_cons hspace]
      simp only [List.mem_cons, List.not_mem_nil, or_false, not_or] at hc
      split
      next heq => exact absurd (List.cons.inj heq).1 hc.1
      next heq => exact absurd (List.cons.inj heq).1 hc.2.1
      next heq => exact absurd (List.cons.inj heq).1 hc.2.2.1
      next heq => exact absurd (List.cons.inj heq).1 hc.2.2.2.1
      next heq => exact absurd (List.cons.inj heq).1 hc.2.2.2.2.1
      next heq => exact absurd (List.cons.inj heq).1 hc.2.2.2.2.2.1
      next =>
        rw [← List.cons_append, ← htext, htake, hdrop]
        simp only [h.valid, if_true, String.ofList_toList]

/-! ## Values -/

mutual

/-- Every number in a value has the text of a JSON number. -/
def Numeric : Json → Prop
  | number numeral => IsNumeral numeral
  | array items => NumericItems items
  | object members => NumericMembers members
  | _ => True

/-- Every number in the elements has the text of a JSON number. -/
def NumericItems : List Json → Prop
  | [] => True
  | item :: rest => Numeric item ∧ NumericItems rest

/-- Every number in the members has the text of a JSON number. -/
def NumericMembers : List (String × Json) → Prop
  | [] => True
  | (_, value) :: rest => Numeric value ∧ NumericMembers rest

end

/-- The characters of a string in quotes. -/
theorem toList_quoted (text : String) :
    (quoted text).toList = '"' :: (text.toList.flatMap escapedChar ++ ['"']) :=
  String.toList_ofList

theorem toList_render_array (depth : Nat) (item : Json) (rest : List Json) :
    (render depth (array (item :: rest))).toList =
      '[' :: ((newline (depth + 1)).toList ++ ((render (depth + 1) item).toList ++
        ((renderItems (depth + 1) rest).toList ++ ((newline depth).toList ++ [']'])))) := by
  simp [render, String.toList_append]

theorem toList_renderItems (depth : Nat) (item : Json) (rest : List Json) :
    (renderItems depth (item :: rest)).toList =
      ',' :: ((newline depth).toList ++ ((render depth item).toList ++
        (renderItems depth rest).toList)) := by
  simp [renderItems, String.toList_append]

theorem toList_render_object (depth : Nat) (key : String) (value : Json)
    (rest : List (String × Json)) :
    (render depth (object ((key, value) :: rest))).toList =
      '\x7b' :: ((newline (depth + 1)).toList ++ ((quoted key).toList ++ (':' :: ' ' ::
        ((render (depth + 1) value).toList ++ ((renderMembers (depth + 1) rest).toList ++
          ((newline depth).toList ++ ['\x7d'])))))) := by
  simp [render, String.toList_append]

theorem toList_renderMembers (depth : Nat) (key : String) (value : Json)
    (rest : List (String × Json)) :
    (renderMembers depth ((key, value) :: rest)).toList =
      ',' :: ((newline depth).toList ++ ((quoted key).toList ++ (':' :: ' ' ::
        ((render depth value).toList ++ (renderMembers depth rest).toList)))) := by
  simp [renderMembers, String.toList_append]

/-- A value begins with a character that is no blank and closes no bracket. -/
theorem render_first {value : Json} (h : value.Numeric) (depth : Nat) :
    ∃ c rest, (render depth value).toList = c :: rest ∧ isSpace c = false ∧ c ≠ ']' := by
  cases value with
  | null => exact ⟨'n', ['u', 'l', 'l'], by simp [render], by decide, by decide⟩
  | bool b =>
      cases b
      · exact ⟨'f', ['a', 'l', 's', 'e'], by simp [render], by decide, by decide⟩
      · exact ⟨'t', ['r', 'u', 'e'], by simp [render], by decide, by decide⟩
  | number numeral =>
      rw [Numeric] at h
      rw [render]
      cases htext : numeral.toList with
      | nil =>
          have hvalid := h.valid
          rw [htext, not_isNumeral_nil] at hvalid
          cases hvalid
      | cons c rest =>
          have hc := isNumeralChar_first (h.chars c (by rw [htext]; exact List.mem_cons_self))
          exact ⟨c, rest, rfl, hc.1, fun heq => hc.2 (by simp [heq])⟩
  | string text =>
      rw [render]
      exact ⟨_, _, toList_quoted text, by decide, by decide⟩
  | array items =>
      cases items with
      | nil => exact ⟨'[', [']'], by simp [render], by decide, by decide⟩
      | cons item rest => exact ⟨_, _, toList_render_array depth item rest, by decide, by decide⟩
  | object members =>
      cases members with
      | nil => exact ⟨'\x7b', ['\x7d'], by simp [render], by decide, by decide⟩
      | cons member rest =>
          obtain ⟨key, value⟩ := member
          exact ⟨_, _, toList_render_object depth key value rest, by decide, by decide⟩

theorem isSpace_not_numeral {c : Char} (h : isSpace c = true) : isNumeralChar c = false := by
  rw [← Bool.not_eq_true]
  intro hc
  rw [(isNumeralChar_first hc).1] at h
  cases h

/-- Blanks end a numeral, and so does a bracket or a comma behind them. -/
theorem endsNumeral_append {space : List Char} (h : ∀ c ∈ space, isSpace c = true) {k : List Char}
    (hk : EndsNumeral k) : EndsNumeral (space ++ k) := by
  cases space with
  | nil => exact hk
  | cons c rest =>
      exact endsNumeral_cons (isSpace_not_numeral (h c List.mem_cons_self)) _

/-! ## Turns -/

/-- With so many turns the texts of values read back. -/
def ReadsValues (turns : Nat) : Prop :=
  ∀ (value : Json), value.Numeric → ∀ (depth : Nat) (k : List Char),
    2 * (render depth value).toList.length ≤ turns → EndsNumeral k →
      valueFrom turns ((render depth value).toList ++ k) = some (value, k)

/-- With so many turns the elements of an array read back up to its end. -/
def ReadsItems (turns : Nat) : Prop :=
  ∀ (item : Json) (rest : List Json), item.Numeric → NumericItems rest →
    ∀ (depth : Nat) (space k : List Char), (∀ c ∈ space, isSpace c = true) →
      2 * ((render depth item).toList.length + (renderItems depth rest).toList.length) < turns →
      itemsFrom turns ((render depth item).toList ++ ((renderItems depth rest).toList ++
        (space ++ ']' :: k))) = some (item :: rest, k)

/-- With so many turns the members of an object read back up to its end. -/
def ReadsMembers (turns : Nat) : Prop :=
  ∀ (key : String) (value : Json) (rest : List (String × Json)), value.Numeric →
    NumericMembers rest → ∀ (depth : Nat) (space k : List Char), (∀ c ∈ space, isSpace c = true) →
      2 * ((render depth value).toList.length + (renderMembers depth rest).toList.length) < turns →
      membersFrom turns ((quoted key).toList ++ (':' :: ' ' :: ((render depth value).toList ++
        ((renderMembers depth rest).toList ++ (space ++ '\x7d' :: k))))) =
          some ((key, value) :: rest, k)

section Steps

variable {turns : Nat}

theorem valueFrom_array (hitems : ReadsItems turns) {item : Json} {rest : List Json}
    (hitem : item.Numeric) (hrest : NumericItems rest) (depth : Nat) (k : List Char)
    (hturns : 2 * (render depth (array (item :: rest))).toList.length ≤ turns + 1) :
    valueFrom (turns + 1) ((render depth (array (item :: rest))).toList ++ k) =
      some (array (item :: rest), k) := by
  obtain ⟨c, more, hfirst, hspace, hclose⟩ := render_first hitem (depth + 1)
  rw [toList_render_array] at hturns ⊢
  simp only [List.length_cons, List.length_append, List.cons_append,
    List.append_assoc] at hturns ⊢
  have hread := hitems item rest hitem hrest (depth + 1) (newline depth).toList k
    (isSpace_newline depth) (by omega)
  rw [valueFrom, skipSpace_cons (by decide)]
  simp only
  rw [skipSpace_append (isSpace_newline _), hfirst, List.cons_append, skipSpace_cons hspace,
    ← List.cons_append, ← hfirst]
  -- The array is not empty: no element begins with a closing bracket.
  split
  next heq =>
    rw [hfirst] at heq
    exact absurd (List.cons.inj heq).1 hclose
  next =>
    rw [List.nil_append, hread]
    rfl

theorem valueFrom_object (hmembers : ReadsMembers turns) {key : String} {value : Json}
    {rest : List (String × Json)} (hvalue : value.Numeric) (hrest : NumericMembers rest)
    (depth : Nat) (k : List Char)
    (hturns : 2 * (render depth (object ((key, value) :: rest))).toList.length ≤ turns + 1) :
    valueFrom (turns + 1) ((render depth (object ((key, value) :: rest))).toList ++ k) =
      some (object ((key, value) :: rest), k) := by
  rw [toList_render_object] at hturns ⊢
  simp only [List.length_cons, List.length_append, List.cons_append,
    List.append_assoc] at hturns ⊢
  have hread := hmembers key value rest hvalue hrest (depth + 1) (newline depth).toList k
    (isSpace_newline depth) (by omega)
  rw [valueFrom, skipSpace_cons (by decide)]
  simp only
  rw [skipSpace_append (isSpace_newline _), toList_quoted, List.cons_append,
    skipSpace_cons (by decide), ← List.cons_append, ← toList_quoted]
  -- The object is not empty: a key begins with a quotation mark.
  split
  next heq =>
    rw [toList_quoted] at heq
    exact absurd (List.cons.inj heq).1 (by decide)
  next =>
    rw [List.nil_append, hread]
    rfl

theorem readsValues_step (hitems : ReadsItems turns) (hmembers : ReadsMembers turns) :
    ReadsValues (turns + 1) := by
  intro value hvalue depth k hturns hk
  cases value with
  | null =>
      rw [render, valueFrom]
      rfl
  | bool b =>
      rw [render, valueFrom]
      cases b <;> rfl
  | number numeral =>
      rw [Numeric] at hvalue
      rw [render]
      exact valueFrom_numeral hvalue hk turns
  | string text =>
      rw [render, toList_quoted, List.cons_append, List.append_assoc, List.singleton_append,
        valueFrom, skipSpace_cons (by decide)]
      simp only
      rw [stringBody?_quoted, String.ofList_toList]
      rfl
  | array items =>
      rw [Numeric] at hvalue
      cases items with
      | nil =>
          rw [render, valueFrom]
          rfl
      | cons item rest =>
          rw [NumericItems] at hvalue
          exact valueFrom_array hitems hvalue.1 hvalue.2 depth k hturns
  | object members =>
      rw [Numeric] at hvalue
      cases members with
      | nil =>
          rw [render, valueFrom]
          rfl
      | cons member rest =>
          obtain ⟨key, value⟩ := member
          rw [NumericMembers] at hvalue
          exact valueFrom_object hmembers hvalue.1 hvalue.2 depth k hturns

theorem readsItems_step (hvalues : ReadsValues turns) (hitems : ReadsItems turns) :
    ReadsItems (turns + 1) := by
  intro item rest hitem hrest depth space k hspace hturns
  -- Behind the element comes the end of the array or a comma, and either ends a numeral.
  cases rest with
  | nil =>
      have hclose : EndsNumeral (space ++ ']' :: k) :=
        endsNumeral_append hspace (endsNumeral_cons (by decide) k)
      rw [renderItems, String.toList_empty, List.nil_append, itemsFrom,
        hvalues item hitem depth _ (by omega) hclose]
      simp only
      rw [skipSpace_append hspace, skipSpace_cons (by decide)]
      rfl
  | cons next rest =>
      rw [NumericItems] at hrest
      rw [toList_renderItems] at hturns ⊢
      simp only [List.length_cons, List.length_append, List.cons_append,
        List.append_assoc] at hturns ⊢
      have hread : ∀ tail, valueFrom turns ((render depth item).toList ++ ',' :: tail) =
          some (item, ',' :: tail) := fun tail =>
        hvalues item hitem depth _ (by omega) (endsNumeral_cons (by decide) tail)
      rw [itemsFrom, hread]
      simp only
      rw [skipSpace_cons (by decide)]
      simp only
      rw [itemsFrom_append (isSpace_newline depth),
        hitems next rest hrest.1 hrest.2 depth space k hspace (by omega)]
      rfl

theorem readsMembers_step (hvalues : ReadsValues turns) (hmembers : ReadsMembers turns) :
    ReadsMembers (turns + 1) := by
  intro key value rest hvalue hrest depth space k hspace hturns
  have hkey : ∀ tail, stringBody? (key.toList.flatMap escapedChar ++ '"' :: tail) =
      some (key, tail) := by
    intro tail
    rw [stringBody?_quoted, String.ofList_toList]
  have hblank : ∀ c ∈ [' '], isSpace c = true := List.forall_mem_singleton.mpr rfl
  rw [toList_quoted, List.cons_append, List.append_assoc, List.singleton_append, membersFrom,
    skipSpace_cons (by decide)]
  simp only
  rw [hkey]
  simp only
  rw [skipSpace_cons (by decide)]
  simp only
  rw [← List.singleton_append, valueFrom_append hblank]
  -- Behind the value comes the end of the object or a comma, and either ends a numeral.
  cases rest with
  | nil =>
      have hclose : EndsNumeral (space ++ '\x7d' :: k) :=
        endsNumeral_append hspace (endsNumeral_cons (by decide) k)
      rw [renderMembers, String.toList_empty, List.nil_append,
        hvalues value hvalue depth _ (by omega) hclose]
      simp only
      rw [skipSpace_append hspace, skipSpace_cons (by decide)]
      rfl
  | cons member rest =>
      obtain ⟨key', value'⟩ := member
      rw [NumericMembers] at hrest
      rw [toList_renderMembers] at hturns ⊢
      simp only [List.length_cons, List.length_append, List.cons_append,
        List.append_assoc] at hturns ⊢
      have hread : ∀ tail, valueFrom turns ((render depth value).toList ++ ',' :: tail) =
          some (value, ',' :: tail) := fun tail =>
        hvalues value hvalue depth _ (by omega) (endsNumeral_cons (by decide) tail)
      rw [hread]
      simp only
      rw [skipSpace_cons (by decide)]
      simp only
      rw [membersFrom_append (isSpace_newline depth),
        hmembers key' value' rest hrest.1 hrest.2 depth space k hspace (by omega)]
      rfl

/-- Every number of turns serves for the texts it is large enough for. -/
theorem reads_all (turns : Nat) : ReadsValues turns ∧ ReadsItems turns ∧ ReadsMembers turns := by
  induction turns with
  | zero =>
      refine ⟨fun value hvalue depth k hturns _ => ?_, fun _ _ _ _ _ _ _ _ hturns => ?_,
        fun _ _ _ _ _ _ _ _ _ hturns => ?_⟩
      · obtain ⟨c, rest, hfirst, -, -⟩ := render_first hvalue depth
        rw [hfirst, List.length_cons] at hturns
        omega
      · omega
      · omega
  | succ turns ih =>
      obtain ⟨hvalues, hitems, hmembers⟩ := ih
      exact ⟨readsValues_step hitems hmembers, readsItems_step hvalues hitems,
        readsMembers_step hvalues hmembers⟩

end Steps

/-- The text of a value reads back as the value, if its numbers have the texts of numbers. -/
theorem parse?_pretty {value : Json} (h : value.Numeric) : parse? value.pretty = some value := by
  have hread := (reads_all (2 * value.pretty.toList.length + 2)).1 value h 0 [] (by
    rw [pretty]
    omega) endsNumeral_nil
  rw [List.append_nil] at hread
  simp only [parse?, pretty] at hread ⊢
  rw [hread]
  rfl

end Json
end SchemeMachine
