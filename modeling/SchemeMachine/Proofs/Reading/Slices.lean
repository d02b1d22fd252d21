import SchemeMachine.Proofs.Reading.Nodes

/-!
# Data read alike elsewhere

What a datum is depends only on the characters it takes.  These characters give the same datum, up
to marks, wherever else they stand and whatever comes behind them, as long as no token runs on into
it.  Inside a list or a vector nothing has to be said about what comes behind, because an element is
always followed by characters of the same list.
-/

namespace SchemeMachine

open Text

theorem Position.afterAll_append (p : Position) (xs ys : List Char) :
    p.afterAll (xs ++ ys) = (p.afterAll xs).afterAll ys :=
  List.foldl_append

namespace Reader

open Datum

/-! ## Characters that are passed -/

/-- From one reader to another exactly these characters are passed. -/
structure Passes (text : List Char) (r r' : Reader) : Prop where
  rest : r.cursor.rest = text ++ r'.cursor.rest
  position : r'.cursor.position = r.cursor.position.afterAll text

section Passes

variable {r r₁ r₂ r' : Reader} {xs ys text rest : List Char} {c : Char}

theorem Passes.refl (r : Reader) : Passes [] r r :=
  ⟨rfl, rfl⟩

theorem Passes.trans (h₁ : Passes xs r r₁) (h₂ : Passes ys r₁ r₂) : Passes (xs ++ ys) r r₂ := by
  refine ⟨?_, ?_⟩
  · rw [h₁.rest, h₂.rest, List.append_assoc]
  · rw [h₂.position, h₁.position, Position.afterAll_append]

/-- Numbers that are given out do not matter. -/
theorem Passes.counted (h : Passes text r r₁) : Passes text r r₁.counted :=
  ⟨h.rest, h.position⟩

theorem passes_passed (h : r.cursor.rest = c :: rest) : Passes [c] r r.passed := by
  refine ⟨?_, ?_⟩
  · rw [rest_passed h, h]
    rfl
  · simp only [passed, Cursor.advance, h]
    rfl

theorem passes_pastToken (r : Reader) : Passes r.token r r.pastToken :=
  ⟨List.takeWhile_append_dropWhile.symm, rfl⟩

/-- Characters that are passed begin with the one that the reader stands at. -/
theorem Passes.exists_cons (h : Passes text r r')
    (hlt : r'.cursor.rest.length < r.cursor.rest.length) (hr : r.cursor.rest = c :: rest) :
    ∃ more, text = c :: more ∧ rest = more ++ r'.cursor.rest := by
  have hrest := h.rest
  rw [hr] at hrest hlt
  cases text with
  | nil =>
      rw [List.nil_append] at hrest
      rw [hrest] at hlt
      omega
  | cons ch more =>
      rw [List.cons_append, List.cons.injEq] at hrest
      exact ⟨more, by rw [hrest.1], hrest.2⟩

theorem skipFrom_eq (text : List Char) :
    ∀ (commented : Bool) (p : Position), ∃ space,
      text = space ++ (Cursor.skipFrom commented text p).rest ∧
      (Cursor.skipFrom commented text p).position = p.afterAll space ∧
      ((Cursor.skipFrom commented text p).rest ≠ [] → isAtmosphereFrom commented space = true) := by
  induction text with
  | nil =>
      intro commented p
      refine ⟨[], ?_, ?_, ?_⟩
      · cases commented <;> rfl
      · cases commented <;> rfl
      · cases commented <;> exact fun h => absurd rfl h
  | cons c text ih =>
      intro commented p
      cases commented with
      | true =>
          obtain ⟨space, hrest, hposition, hspace⟩ := ih (c != '\n') (p.after c)
          exact ⟨c :: space, congrArg (c :: ·) hrest, hposition, hspace⟩
      | false =>
          rw [Cursor.skipFrom]
          by_cases hblank : isBlank c = true
          · obtain ⟨space, hrest, hposition, hspace⟩ := ih false (p.after c)
            rw [if_pos hblank]
            refine ⟨c :: space, congrArg (c :: ·) hrest, hposition, fun h => ?_⟩
            rw [isAtmosphereFrom, if_pos hblank]
            exact hspace h
          · rw [if_neg hblank]
            by_cases hcomment : c = ';'
            · obtain ⟨space, hrest, hposition, hspace⟩ := ih true (p.after c)
              rw [if_pos hcomment]
              refine ⟨c :: space, congrArg (c :: ·) hrest, hposition, fun h => ?_⟩
              rw [isAtmosphereFrom, if_neg hblank, hspace h, hcomment]
              rfl
            · rw [if_neg hcomment]
              exact ⟨[], rfl, rfl, fun _ => rfl⟩

theorem passes_skipped (r : Reader) : ∃ space, Passes space r r.skipped := by
  obtain ⟨space, hrest, hposition, -⟩ := skipFrom_eq r.cursor.rest false r.cursor.position
  exact ⟨space, hrest, hposition⟩

/-- The blanks and comments before a character are passed wherever they stand before it. -/
theorem skipped_elsewhere (h : r.skipped.cursor.rest = c :: rest) :
    ∃ space, Passes space r r.skipped ∧
      ∀ (q : Reader) (k : List Char), q.cursor.rest = space ++ c :: k →
        q.skipped.cursor.rest = c :: k := by
  obtain ⟨space, hrest, hposition, hspace⟩ := skipFrom_eq r.cursor.rest false r.cursor.position
  have hne : r.skipped.cursor.rest ≠ [] := by
    rw [h]
    exact List.cons_ne_nil c rest
  obtain ⟨hblank, hcomment⟩ := skipped_atDatum r c rest h
  exact ⟨space, ⟨hrest, hposition⟩, fun q k hq => rest_skipped (hspace hne) hblank hcomment hq⟩

/-- The contents of a string read alike wherever they stand. -/
theorem Contents.elsewhere {body : List Char} {p : Position} {stop : Cursor}
    (h : Contents text p body stop) :
    ∃ inner, text = inner ++ stop.rest ∧ stop.position = p.afterAll inner ∧
      ∀ k p', Cursor.stringFrom (inner ++ k) p' = (some body, ⟨k, p'.afterAll inner⟩) := by
  induction h with
  | @escaped c rest body p stop _ ih =>
      obtain ⟨inner, hrest, hposition, halike⟩ := ih
      refine ⟨'\\' :: c :: inner, by rw [hrest]; rfl, hposition, fun k p' => ?_⟩
      rw [List.cons_append, List.cons_append, Cursor.stringFrom, halike]
      rfl
  | closed =>
      refine ⟨['"'], rfl, rfl, fun k p' => ?_⟩
      rw [List.cons_append, stringFrom_plain (by decide), if_pos rfl]
      rfl
  | @plain c rest body p stop hescape hquote _ ih =>
      obtain ⟨inner, hrest, hposition, halike⟩ := ih
      refine ⟨c :: inner, by rw [hrest]; rfl, hposition, fun k p' => ?_⟩
      rw [List.cons_append, stringFrom_plain hescape, if_neg hquote, halike]
      rfl

end Passes

/-! ## Tasks elsewhere -/

/-- Tasks that differ in marks and places only. -/
inductive Task.Alike : Task → Task → Prop
  | form : Alike form form
  | list {start start' : Position} {items items' : List Datum}
      (same : items'.map unmarked = items.map unmarked) :
      Alike (list start items) (list start' items')
  | vector {start start' : Position} {items items' : List Datum}
      (same : items'.map unmarked = items.map unmarked) :
      Alike (vector start items) (vector start' items')

/-- From every reader that has these characters before it, a task like `task` yields a datum like
`d`, if what comes behind begins like what comes behind `r` or ends every token. -/
def Alike (room : Nat) (task : Task) (text : List Char) (d : Datum) (r : Reader) : Prop :=
  ∀ (room' : Nat) (task' : Task) (q : Reader) (k : List Char), room ≤ room' → task.Alike task' →
    q.cursor.rest = text ++ k → (k.head? = r.cursor.rest.head? ∨ endsToken k.head? = true) →
    ∃ d' q', Yields room' task' q d' q' ∧ d'.unmarked = d.unmarked ∧ q'.cursor.rest = k

section Elsewhere

variable {r r' : Reader} {d : Datum} {text k : List Char}

theorem endsToken_pastToken (r : Reader) : endsToken r.pastToken.cursor.rest.head? = true := by
  show endsToken (r.cursor.rest.dropWhile fun c => !isDelimiter c).head? = true
  cases hdrop : r.cursor.rest.dropWhile fun c => !isDelimiter c with
  | nil => rfl
  | cons c rest =>
      have hhead := List.head?_dropWhile_not (fun c => !isDelimiter c) r.cursor.rest
      rw [hdrop] at hhead
      simpa [endsToken] using hhead

theorem not_isDelimiter_of_mem_token (r : Reader) : ∀ c ∈ r.token, isDelimiter c = false := by
  intro c hc
  simpa using List.all_eq_true.mp List.all_takeWhile c hc

/-- A token is taken whole wherever it stands before something that ends it. -/
theorem token_elsewhere {q : Reader} (hq : q.cursor.rest = r.token ++ k)
    (hk : k.head? = r.pastToken.cursor.rest.head? ∨ endsToken k.head? = true) :
    q.token = r.token ∧ q.pastToken.cursor.rest = k := by
  have hends : endsToken k.head? = true := by
    rcases hk with hk | hk
    · rw [hk]
      exact endsToken_pastToken r
    · exact hk
  have hspan := Cursor.spanWhile_token (not_isDelimiter_of_mem_token r) hends q.cursor.position
  rw [← hq] at hspan
  exact ⟨congrArg Prod.fst hspan, congrArg (·.2.rest) hspan⟩

theorem Atom.elsewhere (h : Atom r d r') : ∃ text, Passes text r r' ∧
    ∀ {q : Reader} {k : List Char}, q.cursor.rest = text ++ k →
      (k.head? = r'.cursor.rest.head? ∨ endsToken k.head? = true) →
      ∃ d' q', Atom q d' q' ∧ d'.unmarked = d.unmarked ∧ q'.cursor.rest = k := by
  have hshorter := h.consumes
  cases h with
  | minus first alone =>
      refine ⟨['-'], (passes_passed first).counted, fun {q k} hq hk => ?_⟩
      have halone : endsToken k.head? = true := by
        rcases hk with hk | hk
        · rw [hk]
          show endsToken r.passed.cursor.rest.head? = true
          rw [rest_passed first]
          exact alone
        · exact hk
      exact ⟨_, _, .minus hq halone, by simp only [unmarked], rest_passed hq⟩
  | @number c rest n first starts whole value =>
      refine ⟨r.token, (passes_pastToken r).counted, fun {q k} hq hk => ?_⟩
      obtain ⟨htoken, hrest⟩ := token_elsewhere hq hk
      obtain ⟨more, htext, hmore⟩ := (passes_pastToken r).exists_cons hshorter first
      have hfirst : q.cursor.rest = c :: (more ++ k) := by rw [hq, htext, List.cons_append]
      refine ⟨_, _, .number hfirst ?_ (htoken ▸ whole) (htoken ▸ value), by simp only [unmarked],
        hrest⟩
      refine starts.imp_left fun ⟨hminus, hlong⟩ => ⟨hminus, ?_⟩
      -- The token goes on behind its minus sign, so the next character is one of its own.
      cases more with
      | nil =>
          rw [hmore, List.nil_append, endsToken_pastToken] at hlong
          cases hlong
      | cons ch more =>
          rw [hmore] at hlong
          exact hlong
  | @symbol c rest first starts =>
      refine ⟨r.token, (passes_pastToken r).counted, fun {q k} hq hk => ?_⟩
      obtain ⟨htoken, hrest⟩ := token_elsewhere hq hk
      obtain ⟨more, htext, hmore⟩ := (passes_pastToken r).exists_cons hshorter first
      have hfirst : q.cursor.rest = c :: (more ++ k) := by rw [hq, htext, List.cons_append]
      refine ⟨_, _, .symbol hfirst starts, ?_, hrest⟩
      rw [htoken]
      simp only [unmarked]
  | @string rest body stop first contents =>
      obtain ⟨inner, hrest, hposition, halike⟩ := (contents_of_stringFrom contents).elsewhere
      refine ⟨'"' :: inner, ⟨?_, hposition⟩, fun {q k} hq _ => ?_⟩
      · rw [first, hrest]
        rfl
      · exact ⟨_, _, .string hq (halike k _), by simp only [unmarked], rfl⟩
  | boolean b first =>
      have hpasses := (passes_passed first).trans (passes_passed (rest_passed first))
      refine ⟨_, hpasses.counted, fun {q k} hq _ => ?_⟩
      exact ⟨_, _, .boolean b hq, by simp only [unmarked], rest_passed (rest_passed hq)⟩

theorem unmarked_listed (r : Reader) (start : Position) (build : Nat → Datum × Nat) :
    (r.listed start build).1.unmarked = (build r.lastId).1.unmarked :=
  unmarked_withSpan _ _

theorem unread_congr {items items' : List Datum} (h : items'.map unmarked = items.map unmarked)
    (tail : Datum) : unread items' tail = unread items tail := by
  have hmap : ∀ items : List Datum, unread items tail =
      (items.map unmarked).foldl (fun rest item => pair ⟨0, none⟩ item rest) tail := by
    intro items
    rw [List.foldl_map]
    rfl
  rw [hmap, hmap, h]

theorem unmarked_quotation (d : Datum) (last : Nat) :
    (d.quotation last).1.unmarked =
      unread [d, .symbol ⟨0, none⟩ "quote"] (.empty ⟨0, none⟩) := by
  refine (unmarked_properList [d, .symbol ⟨last + 1, none⟩ "quote"] (last + 1)).trans ?_
  exact unread_congr (by simp only [List.map_cons, unmarked]) _

theorem ne_nil_of_map_eq {items items' : List Datum}
    (h : items'.map unmarked = items.map unmarked) (hsome : items ≠ []) : items' ≠ [] := by
  rintro rfl
  exact hsome (List.map_eq_nil_iff.mp h.symm)

theorem head?_append_congr {xs ys zs : List Char} (hxs : xs ≠ []) :
    (xs ++ ys).head? = (xs ++ zs).head? := by
  rw [List.head?_append_of_ne_nil xs hxs, List.head?_append_of_ne_nil xs hxs]

theorem head?_append_of_head?_eq {ys zs : List Char} (xs : List Char) (h : ys.head? = zs.head?) :
    (xs ++ ys).head? = (xs ++ zs).head? := by
  rw [List.head?_append, List.head?_append, h]

theorem Passes.ne_nil (h : Passes text r r')
    (hlt : r'.cursor.rest.length < r.cursor.rest.length) : text ≠ [] := by
  rintro rfl
  rw [h.rest, List.nil_append] at hlt
  omega

/-- Where characters were passed, what comes next is one of them, whatever comes behind them. -/
theorem Passes.head?_elsewhere (h : Passes text r r')
    (hlt : r'.cursor.rest.length < r.cursor.rest.length) (k : List Char) :
    (text ++ k).head? = r.cursor.rest.head? := by
  have hne := h.ne_nil hlt
  rw [h.rest]
  exact head?_append_congr hne

/-- A character behind blanks and comments is passed wherever they stand together. -/
theorem character_elsewhere {c : Char} {rest : List Char} (h : r.skipped.cursor.rest = c :: rest) :
    ∃ text, text ≠ [] ∧ Passes text r r.skipped.passed ∧
      ∀ (q : Reader) (k : List Char), q.cursor.rest = text ++ k →
        q.skipped.cursor.rest = c :: k := by
  obtain ⟨space, hspace, hskip⟩ := skipped_elsewhere h
  refine ⟨space ++ [c], by simp, hspace.trans (passes_passed h), fun q k hq => hskip q k ?_⟩
  rw [hq, List.append_assoc]
  rfl

/-- The characters between two readers give, wherever they stand, a datum like the one they gave
here. -/
def Elsewhere (room : Nat) (task : Task) (r : Reader) (d : Datum) (r' : Reader) : Prop :=
  ∃ text, Passes text r r' ∧ Alike room task text d r'

section Steps

variable {room : Nat} {r₁ r₂ : Reader} {start : Position} {items : List Datum} {x : Datum}
  {c : Char} {rest : List Char}

theorem Atom.elsewhere_form (h : Atom r d r') : Elsewhere room .form r d r' := by
  obtain ⟨text, hpasses, halike⟩ := h.elsewhere
  refine ⟨text, hpasses, fun room' task' q k _ htask hq hk => ?_⟩
  obtain ⟨⟩ := htask
  obtain ⟨d', q', hatom, hd', hq'⟩ := halike hq hk
  exact ⟨d', q', .atom hatom, hd', hq'⟩

theorem elsewhere_list (opens : r.cursor.rest = '(' :: rest)
    (inside : Elsewhere room (.list r.cursor.position []) r.passed d r') :
    Elsewhere (room + 1) .form r d r' := by
  obtain ⟨text, hpasses, halike⟩ := inside
  refine ⟨_, (passes_passed opens).trans hpasses, fun room' task' q k hroom htask hq hk => ?_⟩
  obtain ⟨⟩ := htask
  obtain ⟨room', rfl⟩ := Nat.exists_eq_add_of_le' (Nat.one_le_of_lt hroom)
  obtain ⟨d', q', hinside, hd', hq'⟩ := halike room' (.list q.cursor.position []) q.passed k
    (Nat.le_of_succ_le_succ hroom) (.list rfl) (rest_passed hq) hk
  exact ⟨d', q', .list hq hinside, hd', hq'⟩

theorem elsewhere_vector (opens : r.cursor.rest = '#' :: '(' :: rest)
    (inside : Elsewhere room (.vector r.cursor.position []) r.passed.passed d r') :
    Elsewhere (room + 1) .form r d r' := by
  obtain ⟨text, hpasses, halike⟩ := inside
  have hopens := (passes_passed opens).trans (passes_passed (rest_passed opens))
  refine ⟨_, hopens.trans hpasses, fun room' task' q k hroom htask hq hk => ?_⟩
  obtain ⟨⟩ := htask
  obtain ⟨room', rfl⟩ := Nat.exists_eq_add_of_le' (Nat.one_le_of_lt hroom)
  obtain ⟨d', q', hinside, hd', hq'⟩ := halike room' (.vector q.cursor.position [])
    q.passed.passed k (Nat.le_of_succ_le_succ hroom) (.vector rfl)
    (rest_passed (rest_passed hq)) hk
  exact ⟨d', q', .vector hq hinside, hd', hq'⟩

/-- A datum behind blanks and comments is read alike elsewhere, and begins there as it does here. -/
theorem element_elsewhere (next : r.skipped.cursor.rest = c :: rest)
    (item : Yields room .form r.skipped x r₁) (h : Elsewhere room .form r.skipped x r₁) :
    ∃ text, Passes text r r₁ ∧ ∀ (room' : Nat) (q : Reader) (k : List Char), room ≤ room' →
      q.cursor.rest = text ++ k →
      (k.head? = r₁.cursor.rest.head? ∨ endsToken k.head? = true) →
      ∃ rest' x' q₁, q.skipped.cursor.rest = c :: rest' ∧
        (k.head? = r₁.cursor.rest.head? → rest'.head? = rest.head?) ∧
        Yields room' .form q.skipped x' q₁ ∧ x'.unmarked = x.unmarked ∧ q₁.cursor.rest = k := by
  obtain ⟨text, hpasses, halike⟩ := h
  obtain ⟨space, hspace, hskip⟩ := skipped_elsewhere next
  obtain ⟨tail, rfl, hrest⟩ := hpasses.exists_cons item.consumes next
  refine ⟨_, hspace.trans hpasses, fun room' q k hroom hq hk => ?_⟩
  rw [List.append_assoc, List.cons_append] at hq
  have hskipped := hskip q _ hq
  obtain ⟨x', q₁, hitem, hx', hq₁⟩ := halike room' .form q.skipped k hroom .form hskipped hk
  refine ⟨tail ++ k, x', q₁, hskipped, fun hbehind => ?_, hitem, hx', hq₁⟩
  rw [hrest]
  exact head?_append_of_head?_eq tail hbehind

theorem elsewhere_quote (opens : r.cursor.rest = '\'' :: rest)
    (more : r.passed.skipped.cursor.rest ≠ [])
    (quoted : Yields room .form r.passed.skipped d r₁)
    (h : Elsewhere room .form r.passed.skipped d r₁) :
    Elsewhere (room + 1) .form r (r₁.listed r.cursor.position d.quotation).1
      (r₁.listed r.cursor.position d.quotation).2 := by
  obtain ⟨c, rest', hnext⟩ := List.exists_cons_of_ne_nil more
  obtain ⟨text, hpasses, halike⟩ := element_elsewhere hnext quoted h
  have hall := (passes_passed opens).trans hpasses
  refine ⟨_, ⟨hall.rest, hall.position⟩, fun room' task' q k hroom htask hq hk => ?_⟩
  obtain ⟨⟩ := htask
  obtain ⟨room', rfl⟩ := Nat.exists_eq_add_of_le' (Nat.one_le_of_lt hroom)
  obtain ⟨rest₁, d', q', hskipped, -, hquoted, hd', hq'⟩ := halike room' q.passed k
    (Nat.le_of_succ_le_succ hroom) (rest_passed hq) hk
  refine ⟨_, _, .quote hq (by simp [hskipped]) hquoted, ?_, hq'⟩
  rw [unmarked_listed, unmarked_listed, unmarked_quotation, unmarked_quotation]
  exact unread_congr (by simp only [List.map_cons, hd']) _

theorem elsewhere_nothing (closes : r.skipped.cursor.rest = ')' :: rest) :
    Elsewhere room (.list start []) r (.empty (r.skipped.passed.markFrom start))
      r.skipped.passed.counted := by
  obtain ⟨text, -, hpasses, hcloses⟩ := character_elsewhere closes
  refine ⟨text, hpasses.counted, fun room' task' q k _ htask hq _ => ?_⟩
  cases htask with
  | list hitems =>
      obtain rfl := List.map_eq_nil_iff.mp hitems
      have hskipped := hcloses q k hq
      exact ⟨_, _, .nothing hskipped, by simp only [unmarked], rest_passed hskipped⟩

theorem elsewhere_close (hsome : items ≠ []) (closes : r.skipped.cursor.rest = ')' :: rest) :
    Elsewhere room (.list start items) r
      (r.skipped.passed.listed start (Datum.properList items.reverse)).1
      (r.skipped.passed.listed start (Datum.properList items.reverse)).2 := by
  obtain ⟨text, -, hpasses, hcloses⟩ := character_elsewhere closes
  refine ⟨text, ⟨hpasses.rest, hpasses.position⟩, fun room' task' q k _ htask hq _ => ?_⟩
  cases htask with
  | list hitems =>
      have hskipped := hcloses q k hq
      refine ⟨_, _, .close (ne_nil_of_map_eq hitems hsome) hskipped, ?_, rest_passed hskipped⟩
      rw [unmarked_listed, unmarked_listed, unmarked_properList, unmarked_properList]
      exact unread_congr hitems _

theorem elsewhere_item (next : r.skipped.cursor.rest = c :: rest) (close : c ≠ ')')
    (dot : (c == '.' && endsDot rest.head?) = false) (item : Yields room .form r.skipped x r₁)
    (hitem : Elsewhere room .form r.skipped x r₁)
    (others : Yields room (.list start (x :: items)) r₁ d r₂)
    (hothers : Elsewhere room (.list start (x :: items)) r₁ d r₂) :
    Elsewhere room (.list start items) r d r₂ := by
  obtain ⟨text₁, hpasses₁, halike₁⟩ := element_elsewhere next item hitem
  obtain ⟨text₂, hpasses₂, halike₂⟩ := hothers
  refine ⟨_, hpasses₁.trans hpasses₂, fun room' task' q k hroom htask hq hk => ?_⟩
  cases htask with
  | @list _ start' _ items' hitems =>
      rw [List.append_assoc] at hq
      have hbehind := hpasses₂.head?_elsewhere others.consumes k
      obtain ⟨rest', x', q₁, hskipped, hfirst, hx, hx', hq₁⟩ :=
        halike₁ room' q _ hroom hq (.inl hbehind)
      obtain ⟨d', q₂, hrest, hd', hq₂⟩ := halike₂ room' (.list start' (x' :: items')) q₁ k hroom
        (.list (by rw [List.map_cons, List.map_cons, hx', hitems])) hq₁ hk
      refine ⟨d', q₂, .item hskipped close ?_ hx hrest, hd', hq₂⟩
      rw [hfirst hbehind]
      exact dot

theorem elsewhere_dotted {rest' : List Char} (hsome : items ≠ [])
    (next : r.skipped.cursor.rest = '.' :: rest) (dot : endsDot rest.head? = true)
    (more : r.skipped.passed.skipped.cursor.rest ≠ [])
    (tail : Yields room .form r.skipped.passed.skipped x r₁)
    (htail : Elsewhere room .form r.skipped.passed.skipped x r₁)
    (closes : r₁.skipped.cursor.rest = ')' :: rest') :
    Elsewhere room (.list start items) r
      (r₁.skipped.passed.listed start (Datum.chain items.reverse x)).1
      (r₁.skipped.passed.listed start (Datum.chain items.reverse x)).2 := by
  obtain ⟨c, rest₁, hnext⟩ := List.exists_cons_of_ne_nil more
  obtain ⟨text₁, -, hpasses₁, hdots⟩ := character_elsewhere next
  obtain ⟨text₂, hpasses₂, halike⟩ := element_elsewhere hnext tail htail
  obtain ⟨text₃, hne, hpasses₃, hcloses⟩ := character_elsewhere closes
  have hall := hpasses₁.trans (hpasses₂.trans hpasses₃)
  refine ⟨_, ⟨hall.rest, hall.position⟩, fun room' task' q k hroom htask hq _ => ?_⟩
  cases htask with
  | @list _ start' _ items' hitems =>
      rw [List.append_assoc, List.append_assoc] at hq
      have hskipped := hdots q _ hq
      have hbehind : (text₃ ++ k).head? = r₁.cursor.rest.head? := by
        rw [hpasses₃.rest]
        exact head?_append_congr hne
      obtain ⟨rest₂, x', q₁, hskipped₁, -, hx, hx', hq₁⟩ := halike room' q.skipped.passed _ hroom
        (rest_passed hskipped) (.inl hbehind)
      have hskipped₂ := hcloses q₁ k hq₁
      -- A dot ends before the same character, which belongs to what comes behind it.
      have hdot : (text₂ ++ (text₃ ++ k)).head? = rest.head? := by
        rw [← rest_passed next, hpasses₂.rest]
        exact head?_append_of_head?_eq text₂ hbehind
      refine ⟨_, _, .dotted (ne_nil_of_map_eq hitems hsome) hskipped
        ((congrArg endsDot hdot).trans dot) (by simp [hskipped₁]) hx hskipped₂, ?_,
        rest_passed hskipped₂⟩
      rw [unmarked_listed, unmarked_listed, unmarked_chain, unmarked_chain, hx']
      exact unread_congr hitems _

theorem elsewhere_closeVector (closes : r.skipped.cursor.rest = ')' :: rest) :
    Elsewhere room (.vector start items) r
      (.vector (r.skipped.passed.markFrom start) items.reverse) r.skipped.passed.counted := by
  obtain ⟨text, -, hpasses, hcloses⟩ := character_elsewhere closes
  refine ⟨text, hpasses.counted, fun room' task' q k _ htask hq _ => ?_⟩
  cases htask with
  | vector hitems =>
      have hskipped := hcloses q k hq
      refine ⟨_, _, .closeVector hskipped, ?_, rest_passed hskipped⟩
      rw [unmarked, unmarked, unmarkedAll_eq_map, unmarkedAll_eq_map, List.map_reverse,
        List.map_reverse, hitems]

theorem elsewhere_vectorItem (next : r.skipped.cursor.rest = c :: rest) (close : c ≠ ')')
    (item : Yields room .form r.skipped x r₁) (hitem : Elsewhere room .form r.skipped x r₁)
    (others : Yields room (.vector start (x :: items)) r₁ d r₂)
    (hothers : Elsewhere room (.vector start (x :: items)) r₁ d r₂) :
    Elsewhere room (.vector start items) r d r₂ := by
  obtain ⟨text₁, hpasses₁, halike₁⟩ := element_elsewhere next item hitem
  obtain ⟨text₂, hpasses₂, halike₂⟩ := hothers
  refine ⟨_, hpasses₁.trans hpasses₂, fun room' task' q k hroom htask hq hk => ?_⟩
  cases htask with
  | @vector _ start' _ items' hitems =>
      rw [List.append_assoc] at hq
      have hbehind := hpasses₂.head?_elsewhere others.consumes k
      obtain ⟨rest', x', q₁, hskipped, -, hx, hx', hq₁⟩ :=
        halike₁ room' q _ hroom hq (.inl hbehind)
      obtain ⟨d', q₂, hrest, hd', hq₂⟩ := halike₂ room' (.vector start' (x' :: items')) q₁ k hroom
        (.vector (by rw [List.map_cons, List.map_cons, hx', hitems])) hq₁ hk
      exact ⟨d', q₂, .vectorItem hskipped close hx hrest, hd', hq₂⟩

end Steps

/-- Whatever is read, the same characters give the same datum elsewhere. -/
theorem Yields.elsewhere {room : Nat} {task : Task} (h : Yields room task r d r') :
    Elsewhere room task r d r' := by
  induction h with
  | atom atom => exact atom.elsewhere_form
  | list opens _ ih => exact elsewhere_list opens ih
  | vector opens _ ih => exact elsewhere_vector opens ih
  | quote opens more quoted ih => exact elsewhere_quote opens more quoted ih
  | nothing closes => exact elsewhere_nothing closes
  | close some closes => exact elsewhere_close some closes
  | item next close dot item others ih₁ ih₂ =>
      exact elsewhere_item next close dot item ih₁ others ih₂
  | dotted some next dot more tail closes ih =>
      exact elsewhere_dotted some next dot more tail ih closes
  | closeVector closes => exact elsewhere_closeVector closes
  | vectorItem next close item others ih₁ ih₂ =>
      exact elsewhere_vectorItem next close item ih₁ others ih₂

theorem skipped_of_atDatum (hr : r.AtDatum) : r.skipped.cursor.rest = r.cursor.rest := by
  show (Cursor.skipFrom false r.cursor.rest r.cursor.position).rest = r.cursor.rest
  cases hrest : r.cursor.rest with
  | nil => rfl
  | cons c rest =>
      obtain ⟨hblank, hcomment⟩ := hr c rest hrest
      rw [Cursor.skipFrom_cons hblank hcomment]

/-- Characters that give a datum wherever they stand give it when they are read alone. -/
theorem Alike.parse_alone {room : Nat} (halike : Alike room .form text d r')
    (hpasses : Passes text r r') (hlt : r'.cursor.rest.length < r.cursor.rest.length)
    (hroom : room ≤ maxNesting) (hr : r.AtDatum) :
    ∃ d', parse (String.ofList text) = .ok [d'] ∧ d'.unmarked = d.unmarked := by
  obtain ⟨c, rest, hfirst⟩ := List.exists_cons_of_ne_nil
    (List.ne_nil_of_length_pos (Nat.zero_lt_of_lt hlt))
  obtain ⟨tail, rfl, -⟩ := hpasses.exists_cons hlt hfirst
  let q := ofText (String.ofList (c :: tail))
  have hq : q.cursor.rest = c :: tail := String.toList_ofList
  -- Nothing comes before the datum, so that nothing is skipped.
  have hskipped : q.skipped.cursor.rest = (c :: tail) ++ [] := by
    have hatDatum : q.AtDatum := by
      intro ch rest' hch
      rw [hq, List.cons.injEq] at hch
      rw [← hch.1]
      exact hr c rest hfirst
    rw [skipped_of_atDatum hatDatum, hq, List.append_nil]
  obtain ⟨d', q', hyields, hd', hq'⟩ := halike maxNesting .form q.skipped [] hroom .form hskipped
    (.inr rfl)
  have hend : q'.skipped.cursor.rest = [] := by
    have hle := length_skipped_le q'
    rw [hq'] at hle
    exact List.eq_nil_of_length_eq_zero (Nat.le_zero.mp hle)
  have hmore : q.skipped.cursor.rest ≠ [] := hskipped.trans_ne (List.cons_ne_nil c _)
  exact ⟨d', parse_eq_ok_iff.mpr ⟨_, .form hmore hyields (.done hend)⟩, hd'⟩

/-- The characters that a datum takes, read alone, give that datum. -/
theorem Yields.parse_alone {room : Nat} (h : Yields room .form r d r') (hroom : room ≤ maxNesting)
    (hr : r.AtDatum) :
    ∃ text, Passes text r r' ∧ ∃ d', parse (String.ofList text) = .ok [d'] ∧ d.same d' = true := by
  obtain ⟨text, hpasses, halike⟩ := h.elsewhere
  obtain ⟨d', hparse, hd'⟩ := halike.parse_alone hpasses h.consumes hroom hr
  exact ⟨text, hpasses, d', hparse, same_of_unmarked d d' hd' (h.reals hr)⟩

end Elsewhere
end Reader
end SchemeMachine
