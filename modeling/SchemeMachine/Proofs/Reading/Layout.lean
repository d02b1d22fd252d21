import SchemeMachine.Proofs.Reading.Tokens

/-!
# Ways to write a datum

The printer writes a datum in one way.  A layout is any of the ways that differ from it in white
space and comments between the tokens and in quotations written with a mark.  Layouts are what is
shown to read back; the text that the printer gives is one of them.
-/

namespace SchemeMachine

open Text

namespace Datum

/-! ## Trees without marks -/

mutual

/-- The datum with all marks blank. -/
def unmarked : Datum → Datum
  | pair _ a d => pair ⟨0, none⟩ a.unmarked d.unmarked
  | empty _ => empty ⟨0, none⟩
  | symbol _ name => symbol ⟨0, none⟩ name
  | literal _ value => literal ⟨0, none⟩ value
  | vector _ items => vector ⟨0, none⟩ (unmarkedAll items)

/-- The data with all marks blank. -/
def unmarkedAll : List Datum → List Datum
  | [] => []
  | x :: xs => x.unmarked :: unmarkedAll xs

end

theorem unmarkedAll_eq_map (items : List Datum) : unmarkedAll items = items.map unmarked := by
  induction items with
  | nil => rw [unmarkedAll, List.map_nil]
  | cons x xs ih => rw [unmarkedAll, List.map_cons, ih]

@[simp] theorem unmarked_withSpan (span : Option Span) (d : Datum) :
    (d.withSpan span).unmarked = d.unmarked := by
  cases d <;> simp [withSpan, withMark, unmarked]

section Preorder

variable {P : Datum → Prop} {m : Mark} {a d : Datum} {items : List Datum}

theorem mem_preorder_self (d : Datum) : d ∈ d.preorder := by
  cases d <;> simp [preorder]

theorem forall_preorder_pair (h : ∀ s ∈ (pair m a d).preorder, P s) :
    (∀ s ∈ a.preorder, P s) ∧ ∀ s ∈ d.preorder, P s := by
  rw [preorder] at h
  exact ⟨fun s hs => h s (List.mem_cons_of_mem _ (List.mem_append_left _ hs)),
    fun s hs => h s (List.mem_cons_of_mem _ (List.mem_append_right _ hs))⟩

theorem forall_preorder_vector (h : ∀ s ∈ (vector m items).preorder, P s) :
    ∀ s ∈ preorderAll items, P s := by
  rw [preorder] at h
  exact fun s hs => h s (List.mem_cons_of_mem _ hs)

theorem mem_preorder_car (m : Mark) (a d : Datum) : a ∈ (pair m a d).preorder :=
  (forall_preorder_pair fun _ hs => hs).1 a (mem_preorder_self a)

theorem forall_preorderAll_cons (h : ∀ s ∈ preorderAll (d :: items), P s) :
    (∀ s ∈ d.preorder, P s) ∧ ∀ s ∈ preorderAll items, P s := by
  rw [preorderAll] at h
  exact ⟨fun s hs => h s (List.mem_append_left _ hs), fun s hs => h s (List.mem_append_right _ hs)⟩

end Preorder

mutual

/-- What lies within a part of a datum lies within the datum. -/
theorem mem_preorder_trans : ∀ (d : Datum), ∀ t ∈ d.preorder, ∀ s ∈ t.preorder, s ∈ d.preorder
  | .pair m a b, t, ht, s, hs => by
      rw [preorder, List.mem_cons, List.mem_append] at ht
      rcases ht with rfl | ht | ht
      · exact hs
      · rw [preorder]
        exact List.mem_cons_of_mem _ (List.mem_append_left _ (mem_preorder_trans a t ht s hs))
      · rw [preorder]
        exact List.mem_cons_of_mem _ (List.mem_append_right _ (mem_preorder_trans b t ht s hs))
  | .vector m items, t, ht, s, hs => by
      rw [preorder, List.mem_cons] at ht
      rcases ht with rfl | ht
      · exact hs
      · rw [preorder]
        exact List.mem_cons_of_mem _ (mem_preorderAll_trans items t ht s hs)
  | .empty m, t, ht, s, hs => by
      simp only [preorder, List.mem_singleton] at ht
      rwa [ht] at hs
  | .symbol m name, t, ht, s, hs => by
      simp only [preorder, List.mem_singleton] at ht
      rwa [ht] at hs
  | .literal m value, t, ht, s, hs => by
      simp only [preorder, List.mem_singleton] at ht
      rwa [ht] at hs

theorem mem_preorderAll_trans : ∀ (items : List Datum), ∀ t ∈ preorderAll items,
    ∀ s ∈ t.preorder, s ∈ preorderAll items
  | [], t, ht, _, _ => by
      rw [preorderAll] at ht
      exact absurd ht List.not_mem_nil
  | x :: xs, t, ht, s, hs => by
      rw [preorderAll, List.mem_append] at ht
      rw [preorderAll, List.mem_append]
      rcases ht with ht | ht
      · exact .inl (mem_preorder_trans x t ht s hs)
      · exact .inr (mem_preorderAll_trans xs t ht s hs)

end

/-- The real that a datum is. -/
def real? : Datum → Option Float
  | literal _ (.number (.real x)) => some x
  | _ => none

mutual

/-- Data that differ in their marks alone are the same, if their reals equal themselves. -/
theorem same_of_unmarked : ∀ (t d : Datum), d.unmarked = t.unmarked →
    (∀ s ∈ t.preorder, ∀ x, s.real? = some x → (x == x) = true) → t.same d = true
  | .pair m a b, d, h, hreals => by
      cases d with
      | pair m' a' b' =>
          simp only [unmarked, pair.injEq, true_and] at h
          obtain ⟨ha, hb⟩ := forall_preorder_pair hreals
          rw [same, Bool.and_eq_true]
          exact ⟨same_of_unmarked a a' h.1 ha, same_of_unmarked b b' h.2 hb⟩
      | _ => simp [unmarked] at h
  | .empty m, d, h, _ => by
      cases d with
      | empty m' => rw [same]
      | _ => simp [unmarked] at h
  | .symbol m name, d, h, _ => by
      cases d with
      | symbol m' name' =>
          simp only [unmarked, symbol.injEq, true_and] at h
          rw [same, h, beq_self_eq_true]
      | _ => simp [unmarked] at h
  | .literal m value, d, h, hreals => by
      cases d with
      | literal m' value' =>
          simp only [unmarked, literal.injEq, true_and] at h
          subst h
          rw [same]
          cases value' with
          | number n =>
              cases n with
              | int n => simp [Literal.same, Number.same]
              | real x =>
                  have hx := hreals _ (mem_preorder_self _) x rfl
                  simp [Literal.same, Number.same, hx]
          | string s => simp [Literal.same]
          | boolean b => simp [Literal.same]
      | _ => simp [unmarked] at h
  | .vector m items, d, h, hreals => by
      cases d with
      | vector m' items' =>
          simp only [unmarked, vector.injEq, true_and] at h
          rw [same]
          exact sameAll_of_unmarkedAll items items' h (forall_preorder_vector hreals)
      | _ => simp [unmarked] at h

theorem sameAll_of_unmarkedAll : ∀ (ts ds : List Datum), unmarkedAll ds = unmarkedAll ts →
    (∀ s ∈ preorderAll ts, ∀ x, s.real? = some x → (x == x) = true) → sameAll ts ds = true
  | [], ds, h, _ => by
      cases ds with
      | nil => rw [sameAll]
      | cons d ds => simp [unmarkedAll] at h
  | t :: ts, ds, h, hreals => by
      cases ds with
      | nil => simp [unmarkedAll] at h
      | cons d ds =>
          simp only [unmarkedAll, List.cons.injEq] at h
          obtain ⟨ht, hts⟩ := forall_preorderAll_cons hreals
          rw [sameAll, Bool.and_eq_true]
          exact ⟨same_of_unmarked t d h.1 ht, sameAll_of_unmarkedAll ts ds h.2 hts⟩

end

theorem same_of_unmarked_eq (t d : Datum) (h : d.unmarked = t.unmarked)
    (hreals : ∀ s ∈ t.preorder, ∀ x, s.real? = some x → x.isFinite = true) : t.same d = true :=
  same_of_unmarked t d h fun s hs x hx => beq_self_of_isFinite (hreals s hs x hx)

/-! ## Layouts -/

/-- Whether a datum is neither a pair nor the empty list; as a tail it stands after a dot. -/
def isAtom : Datum → Bool
  | pair .. | empty _ => false
  | _ => true

mutual

/-- The ways to write a datum that stands on its own. -/
inductive Layout : Datum → List Char → Prop
  | symbol (m : Mark) (name : String) : Layout (.symbol m name) name.toList
  | literal (m : Mark) (value : Literal) : Layout (.literal m value) value.text.toList
  | empty (m : Mark) (gap : List Char) (hgap : isAtmosphere gap = true) :
      Layout (.empty m) ('(' :: (gap ++ [')']))
  | pair (m : Mark) (gap : List Char) {a d : Datum} {x y : List Char}
      (hgap : isAtmosphere gap = true) (ha : Layout a x) (hd : TailLayout d y) :
      Layout (.pair m a d) ('(' :: (gap ++ (x ++ y)))
  /-- A quotation written with a mark. -/
  | quote (m m₁ m₂ m₃ : Mark) {d : Datum} {x : List Char} (hd : Layout d x) :
      Layout (.pair m (.symbol m₁ "quote") (.pair m₂ d (.empty m₃))) ('\'' :: x)
  | emptyVector (m : Mark) (gap : List Char) (hgap : isAtmosphere gap = true) :
      Layout (.vector m []) ('#' :: '(' :: (gap ++ [')']))
  | vector (m : Mark) (gap : List Char) {item : Datum} {items : List Datum} {x y : List Char}
      (hgap : isAtmosphere gap = true) (hitem : Layout item x) (hitems : ItemsLayout items y) :
      Layout (.vector m (item :: items)) ('#' :: '(' :: (gap ++ (x ++ y)))

/-- The ways to write the tail of a list behind an element, with the parenthesis that closes the
list. -/
inductive TailLayout : Datum → List Char → Prop
  | empty (m : Mark) (space : List Char) (hspace : space = [] ∨ isSeparator space = true) :
      TailLayout (.empty m) (space ++ [')'])
  | pair (m : Mark) (space : List Char) {a d : Datum} {x y : List Char}
      (hspace : isSeparator space = true) (ha : Layout a x) (hd : TailLayout d y) :
      TailLayout (.pair m a d) (space ++ (x ++ y))
  | dotted {d : Datum} (hatom : d.isAtom = true) (before after last : List Char) {x : List Char}
      (hbefore : isSeparator before = true) (hafter : isSeparator after = true)
      (hlast : last = [] ∨ isSeparator last = true) (hd : Layout d x) :
      TailLayout d (before ++ '.' :: (after ++ (x ++ (last ++ [')']))))

/-- The ways to write the elements of a vector behind one of them, with the parenthesis that closes
the vector. -/
inductive ItemsLayout : List Datum → List Char → Prop
  | nil (space : List Char) (hspace : space = [] ∨ isSeparator space = true) :
      ItemsLayout [] (space ++ [')'])
  | cons (space : List Char) {item : Datum} {items : List Datum} {x y : List Char}
      (hspace : isSeparator space = true) (hitem : Layout item x) (hitems : ItemsLayout items y) :
      ItemsLayout (item :: items) (space ++ (x ++ y))

end

/-- Behind a dot an atom is written as it is on its own. -/
theorem TailLayout.of_text {d : Datum} (hatom : d.isAtom = true)
    (h : d.Layout (d.textAs .alone).toList) : d.TailLayout (d.textAs .tail).toList := by
  have htext : (d.textAs .tail).toList =
      ' ' :: '.' :: ' ' :: ((d.textAs .alone).toList ++ [')']) := by
    cases d <;> simp_all [textAs, Standing.place, isAtom]
  rw [htext]
  exact .dotted hatom [' '] [' '] [] rfl rfl (Or.inl rfl) h

theorem intercalate_cons {sep x : List Char} {rest : List (List Char)} :
    sep.intercalate (x :: rest) = x ++ rest.flatMap (sep ++ ·) := by
  induction rest generalizing x with
  | nil => simp
  | cons y rest ih =>
      rw [List.flatMap_cons, List.append_assoc, ← ih, List.intercalate_cons_cons, List.append_assoc]

mutual

/-- The text of a datum is one of its layouts. -/
theorem layout_text : ∀ d : Datum, d.Layout (d.textAs .alone).toList
  | .empty m => by
      have h := Layout.empty m [] rfl
      simpa [textAs] using h
  | .pair m a b => by
      have h := Layout.pair m [] rfl (layout_text a) (tailLayout_text b)
      simpa [textAs] using h
  | .symbol m name => by
      have h := Layout.symbol m name
      simpa [textAs, Standing.place] using h
  | .literal m value => by
      have h := Layout.literal m value
      simpa [textAs, Standing.place] using h
  | .vector m items => vectorLayout_text m items

theorem vectorLayout_text (m : Mark) :
    ∀ items : List Datum, (vector m items).Layout ((vector m items).textAs .alone).toList
  | [] => by
      have h := Layout.emptyVector m [] rfl
      simpa [textAs, itemTexts, Standing.place] using h
  | item :: items => by
      have h := Layout.vector m [] rfl (layout_text item) (itemsLayout_text items)
      simpa [textAs, itemTexts, Standing.place, intercalate_cons, List.flatMap_map] using h

theorem tailLayout_text : ∀ d : Datum, d.TailLayout (d.textAs .tail).toList
  | .empty m => by
      have h := TailLayout.empty m [] (Or.inl rfl)
      simpa [textAs] using h
  | .pair m a b => by
      have h := TailLayout.pair m [' '] rfl (layout_text a) (tailLayout_text b)
      simpa [textAs] using h
  | .symbol m name => by
      have h := Layout.symbol m name
      exact .of_text rfl (by simpa [textAs, Standing.place] using h)
  | .literal m value => by
      have h := Layout.literal m value
      exact .of_text rfl (by simpa [textAs, Standing.place] using h)
  | .vector m items => .of_text rfl (vectorLayout_text m items)

theorem itemsLayout_text : ∀ items : List Datum,
    ItemsLayout items ((itemTexts items).flatMap (fun text => ' ' :: text.toList) ++ [')'])
  | [] => by
      have h := ItemsLayout.nil [] (Or.inl rfl)
      simpa [itemTexts] using h
  | item :: items => by
      have h := ItemsLayout.cons [' '] rfl (layout_text item) (itemsLayout_text items)
      simpa [itemTexts] using h

end

/-! ## What can be read -/

mutual

/-- How deep lists and vectors are nested in a datum as it is written; a tail belongs to the list
that it is the tail of. -/
def nestingAs (standing : Standing) : Datum → Nat
  | pair _ a d =>
    (match standing with | .alone => 1 | .tail => 0) +
      max (nestingAs .alone a) (nestingAs .tail d)
  | empty _ => match standing with | .alone => 1 | .tail => 0
  | symbol .. | literal .. => 0
  | vector _ items => 1 + nestingAll items

/-- How deep lists and vectors are nested in the deepest of some data. -/
def nestingAll : List Datum → Nat
  | [] => 0
  | x :: xs => max (nestingAs .alone x) (nestingAll xs)

end

/-- Behind a dot an atom is nested as deep as on its own. -/
theorem nestingAs_atom {d : Datum} (h : d.isAtom = true) :
    d.nestingAs .tail = d.nestingAs .alone := by
  cases d with
  | pair m a b => cases h
  | empty m => cases h
  | symbol m name => rw [nestingAs, nestingAs]
  | literal m value => rw [nestingAs, nestingAs]
  | vector m items => rw [nestingAs, nestingAs]

/-- How deep lists and vectors are nested in the text of a datum. -/
def nesting (d : Datum) : Nat :=
  nestingAs .alone d

/-- Whether a symbol of that name is read where the name is written: the name is no other token, nor
the dot before a tail, and no part of it is taken for the next token. -/
def isReadableName (name : List Char) : Bool :=
  match name with
  | [] => false
  | c :: rest =>
    name.all (!isDelimiter ·) && !(['(', '\'', '"', '#', ';'].contains c) && !c.isDigit &&
      (c != '-' || rest.isEmpty) && (c != '.' || !(rest.isEmpty || rest.head? == some '('))

/-- Whether a leaf reads back: a symbol has a readable name, and a real is finite and is what its
text stands for. -/
def Readable : Datum → Prop
  | symbol _ name => isReadableName name.toList = true
  | literal _ (.number (.real x)) =>
    x.isFinite = true ∧ Decimal.float? (Number.real x).text.toList = some x
  | _ => True

/-- Whether a name is read as a symbol where it stands on its own: the name is no other token, and
no part of it is taken for the next token. -/
def isSymbolName (name : List Char) : Bool :=
  match name with
  | [] => false
  | c :: rest =>
    name.all (!isDelimiter ·) && !(['(', '\'', '"', '#', ';'].contains c) && !c.isDigit &&
      (c != '-' || rest.isEmpty)

/-- Whether a name is taken for the dot before a tail where it stands among the elements of a
list. -/
def isDotName (name : List Char) : Bool :=
  match name with
  | [] => false
  | c :: rest => c == '.' && (rest.isEmpty || rest.head? == some '(')

theorem isReadableName_eq (name : List Char) :
    isReadableName name = (isSymbolName name && !isDotName name) := by
  cases name with
  | nil => rfl
  | cons c rest => simp [isReadableName, isSymbolName, isDotName, Bool.and_assoc, bne]

/-- Whether a leaf reads back where it stands on its own: as `Readable`, but a symbol may have the
name of a dot. -/
def Legible : Datum → Prop
  | symbol _ name => isSymbolName name.toList = true
  | literal _ (.number (.real x)) =>
    x.isFinite = true ∧ Decimal.float? (Number.real x).text.toList = some x
  | _ => True

/-- Whether the head of a pair is no symbol that has the name of a dot. -/
def Dotless : Datum → Prop
  | pair _ a _ => ∀ name, a.symbolName? = some name → isDotName name.toList = false
  | _ => True

instance (d : Datum) : Decidable d.Dotless :=
  match d with
  | pair _ a _ =>
    decidable_of_iff (a.symbolName?.all (fun name => !isDotName name.toList) = true)
      (by simp [Dotless, Option.all_eq_true])
  | empty _ | symbol .. | literal .. | vector .. => .isTrue trivial

theorem Readable.legible {d : Datum} (h : d.Readable) : d.Legible := by
  cases d with
  | symbol m name =>
      rw [Readable, isReadableName_eq, Bool.and_eq_true] at h
      exact h.1
  | literal m value =>
      cases value with
      | number n =>
          cases n with
          | int n => trivial
          | real x => exact h
      | string s => trivial
      | boolean b => trivial
  | _ => trivial

theorem Readable.not_dot {d : Datum} (h : d.Readable) {name : String}
    (hname : d.symbolName? = some name) : isDotName name.toList = false := by
  cases d with
  | symbol m name' =>
      cases hname
      rw [Readable, isReadableName_eq, Bool.and_eq_true, Bool.not_eq_true'] at h
      exact h.2
  | _ => cases hname

theorem numeral_of_legible {m : Mark} {n : Number} (h : (literal m (.number n)).Legible) :
    Reader.Numeral n.text.toList n := by
  cases n with
  | int n => exact Reader.numeral_int n
  | real x => exact Reader.numeral_real h.1 h.2

theorem endsToken_separator {space : List Char} (h : isSeparator space = true)
    (rest k : List Char) : endsToken (space ++ rest ++ k).head? = true := by
  obtain ⟨c, rest, rfl, hc, -⟩ := isSeparator_iff.mp h
  simp [endsToken, isDelimiter, hc]

theorem endsToken_space {space : List Char} (h : space = [] ∨ isSeparator space = true)
    (k : List Char) : endsToken (space ++ [')'] ++ k).head? = true := by
  rcases h with rfl | h
  · rfl
  · exact endsToken_separator h _ k

/-- How a datum begins, given what comes behind its first character: not as blanks, comments, the
end of a list or the dot before a tail do. -/
def Begins (c : Char) (next : Option Char) : Prop :=
  isBlank c = false ∧ c ≠ ';' ∧ c ≠ ')' ∧ (c == '.' && endsDot next) = false

theorem begins_of_numeralChar {c : Char} (h : c.isDigit = true ∨ c = '-') (next : Option Char) :
    Begins c next := by
  rcases h with h | rfl
  · refine ⟨Decimal.not_isBlank_of_isDigit h, ?_, ?_, ?_⟩
    · rintro rfl
      revert h
      decide
    · rintro rfl
      revert h
      decide
    · have hdot : (c == '.') = false := by
        rw [beq_eq_false_iff_ne]
        rintro rfl
        revert h
        decide
      rw [hdot, Bool.false_and]
  · exact ⟨rfl, by decide, by decide, rfl⟩

/-- What the name of a symbol is made of. -/
theorem isSymbolName_cons {c : Char} {rest : List Char} :
    isSymbolName (c :: rest) = true ↔
      (∀ ch ∈ c :: rest, isDelimiter ch = false) ∧ c ∉ ['(', '\'', '"', '#', ';'] ∧
        c.isDigit = false ∧ (c = '-' → rest = []) := by
  simp only [isSymbolName, Bool.and_eq_true, List.all_eq_true, Bool.not_eq_true',
    List.contains_eq_mem, decide_eq_false_iff_not, Bool.or_eq_true, bne_iff_ne, ne_eq,
    List.isEmpty_iff, and_assoc, imp_iff_not_or]

/-- Whether a character may begin a datum: blanks and comments do not, and neither does the end of a
list. -/
def Opens (c : Char) : Prop :=
  isBlank c = false ∧ c ≠ ';' ∧ c ≠ ')'

theorem opens_of_isSymbolName {c : Char} {rest : List Char}
    (h : isSymbolName (c :: rest) = true) : Opens c := by
  obtain ⟨hchars, hspecial, -, -⟩ := isSymbolName_cons.mp h
  have hc := hchars c List.mem_cons_self
  rw [isDelimiter, Bool.or_eq_false_iff, beq_eq_false_iff_ne] at hc
  exact ⟨hc.2, fun hcomment => hspecial (by simp [hcomment]), hc.1⟩

/-- A name that is not that of a dot is not taken for one. -/
theorem begins_of_isSymbolName {c : Char} {rest : List Char}
    (h : isSymbolName (c :: rest) = true) (hdot : isDotName (c :: rest) = false) (k : List Char) :
    Begins c (rest ++ k).head? := by
  obtain ⟨hblank, hcomment, hclose⟩ := opens_of_isSymbolName h
  refine ⟨hblank, hcomment, hclose, ?_⟩
  by_cases hpoint : c = '.'
  · obtain ⟨hchars, -, -, -⟩ := isSymbolName_cons.mp h
    simp only [isDotName, hpoint, beq_self_eq_true, Bool.true_and, Bool.or_eq_false_iff,
      List.isEmpty_eq_false_iff, beq_eq_false_iff_ne] at hdot
    obtain ⟨hne, hopen⟩ := hdot
    obtain ⟨next, after, rfl⟩ := List.exists_cons_of_ne_nil hne
    have hnext := hchars next (by simp)
    simp only [List.cons_append, List.head?_cons, endsDot, endsToken, Option.all_some, hnext,
      Bool.false_or]
    rw [List.head?_cons] at hopen
    rw [beq_eq_false_iff_ne.mpr hopen, Bool.and_false]
  · rw [beq_eq_false_iff_ne.mpr hpoint, Bool.false_and]

/-- How a datum begins that no other datum could take for a dot. -/
theorem Layout.begins_of_legible {d : Datum} {x : List Char} (h : d.Layout x) (hd : d.Legible)
    (hdot : ∀ name, d.symbolName? = some name → isDotName name.toList = false) :
    ∀ k : List Char, ∃ c rest, x = c :: rest ∧ Begins c (rest ++ k).head? := by
  have hspecial : ∀ c ∈ ['(', '\'', '"', '#'], ∀ next, Begins c next := by
    intro c hc next
    simp only [List.mem_cons, List.not_mem_nil, or_false] at hc
    rcases hc with rfl | rfl | rfl | rfl <;> exact ⟨by decide, by decide, by decide, rfl⟩
  intro k
  cases h with
  | symbol m name =>
      have hname := hdot name rfl
      cases hchars : name.toList with
      | nil => simp [Legible, hchars, isSymbolName] at hd
      | cons c rest =>
          rw [Legible, hchars] at hd
          rw [hchars] at hname
          exact ⟨c, rest, rfl, begins_of_isSymbolName hd hname k⟩
  | literal m value =>
      cases value with
      | number n =>
          obtain ⟨c, rest, htext, hc⟩ := (numeral_of_legible hd).begins
          exact ⟨c, rest, htext, begins_of_numeralChar (hc.imp_right And.left) _⟩
      | string s =>
          exact ⟨'"', _, String.toList_ofList, hspecial _ (by simp) _⟩
      | boolean b =>
          cases b <;> exact ⟨'#', _, rfl, hspecial _ (by simp) _⟩
  | _ => exact ⟨_, _, rfl, hspecial _ (by simp) _⟩

theorem Layout.begins {d : Datum} {x : List Char} (h : d.Layout x) (hd : d.Readable) :
    ∀ k : List Char, ∃ c rest, x = c :: rest ∧ Begins c (rest ++ k).head? :=
  h.begins_of_legible hd.legible fun _ hname => hd.not_dot hname

theorem Layout.opens {d : Datum} {x : List Char} (h : d.Layout x) (hd : d.Legible) :
    ∃ c rest, x = c :: rest ∧ Opens c := by
  by_cases hsymbol : ∃ m name, d = .symbol m name
  · obtain ⟨m, name, rfl⟩ := hsymbol
    cases h with
    | symbol =>
        cases hchars : name.toList with
        | nil => simp [Legible, hchars, isSymbolName] at hd
        | cons c rest =>
            rw [Legible, hchars] at hd
            exact ⟨c, rest, rfl, opens_of_isSymbolName hd⟩
  · have hdot : ∀ name, d.symbolName? = some name → isDotName name.toList = false := by
      intro name hname
      cases d with
      | symbol m name => exact absurd ⟨m, name, rfl⟩ hsymbol
      | _ => cases hname
    obtain ⟨c, rest, hx, hblank, hcomment, hclose, -⟩ := h.begins_of_legible hd hdot []
    exact ⟨c, rest, hx, hblank, hcomment, hclose⟩

theorem Layout.length_pos {d : Datum} {x : List Char} (h : d.Layout x) (hd : d.Legible) :
    0 < x.length := by
  obtain ⟨c, rest, rfl, -⟩ := h.opens hd
  exact Nat.succ_pos _

/-- Behind an element comes a blank or the end of the list. -/
theorem TailLayout.endsToken {d : Datum} {y : List Char} (h : d.TailLayout y) (k : List Char) :
    endsToken (y ++ k).head? = true := by
  cases h with
  | empty m space hspace => exact endsToken_space hspace k
  | pair m space hspace ha hd => exact endsToken_separator hspace _ k
  | dotted hatom before after last hbefore hafter hlast hd => exact endsToken_separator hbefore _ k

theorem ItemsLayout.endsToken {items : List Datum} {y : List Char} (h : ItemsLayout items y)
    (k : List Char) : endsToken (y ++ k).head? = true := by
  cases h with
  | nil space hspace => exact endsToken_space hspace k
  | cons space hspace hitem hitems => exact endsToken_separator hspace _ k

end Datum
end SchemeMachine
