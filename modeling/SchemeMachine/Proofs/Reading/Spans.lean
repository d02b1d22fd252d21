import SchemeMachine.Proofs.Reading.Forward

/-!
# Where data stand in their text

The span of a datum says exactly where the datum stands: its offset, line and column are those of
its first character, its length is the number of its characters, and these characters alone read as
the same datum.  The elements of a list or a vector, and the tail behind a dot, stand inside it, one
after the other, and end before it ends.  Only what a quotation mark quotes ends with its list.

A node that has a span is one that the reader has read as a datum on its way.  So it is enough to
look at the datum at the root of a reading, and to see that its nodes were read before it.
-/

namespace SchemeMachine

open Text

/-! ## Positions -/

namespace Position

theorem offset_afterAll (p : Position) (text : List Char) :
    (p.afterAll text).offset = p.offset + text.length := by
  induction text generalizing p with
  | nil => rfl
  | cons c text ih =>
      have hafter : (p.after c).offset = p.offset + 1 := by
        rw [after]
        split <;> rfl
      show ((p.after c).afterAll text).offset = p.offset + (text.length + 1)
      rw [ih, hafter]
      omega

/-- A position counts the characters before it, the lines that end there, and the characters since
the last of these ends. -/
theorem afterAll_origin (text : List Char) :
    origin.afterAll text = ⟨text.length, 1 + text.count '\n',
      1 + (text.reverse.takeWhile (· != '\n')).length⟩ := by
  induction text using List.reverseRecOn with
  | nil => rfl
  | append_singleton text c ih =>
      rw [afterAll_append, ih]
      show after _ c = _
      rw [after, List.length_append, List.count_append, List.reverse_concat]
      by_cases hc : c = '\n'
      · subst hc
        rfl
      · have hbeq : (c != '\n') = true := bne_iff_ne.mpr hc
        rw [if_neg hc, List.count_singleton, List.takeWhile_cons, hbeq]
        simp only [beq_iff_eq, hc, if_false, if_true, Position.mk.injEq, List.length_cons,
          List.length_nil, true_and]
        omega

end Position

/-! ## Parts -/

namespace Datum

/-- The elements that a list goes on with, and its tail behind a dot.  Pairs and empty lists that
are not written themselves only hold a list together. -/
def tailParts : Datum → List Datum
  | pair m a d => if m.span.isNone then a :: tailParts d else [pair m a d]
  | empty m => if m.span.isNone then [] else [empty m]
  | d => [d]

/-- The elements of a list or a vector, and the tail of a list behind a dot. -/
def parts : Datum → List Datum
  | pair _ a d => a :: tailParts d
  | vector _ items => items
  | _ => []

theorem tailParts_of_span {d : Datum} {span : Span} (h : d.mark.span = some span) :
    d.tailParts = [d] := by
  cases d with
  | pair m a d =>
      have hm : m.span = some span := h
      rw [tailParts, hm]
      rfl
  | empty m =>
      have hm : m.span = some span := h
      rw [tailParts, hm]
      rfl
  | symbol m name => simp only [tailParts]
  | literal m value => simp only [tailParts]
  | vector m items => simp only [tailParts]

theorem tailParts_chain (items : List Datum) (tail : Datum) (last : Nat) :
    (chain items tail last).1.tailParts = items ++ tail.tailParts := by
  unfold chain
  induction items with
  | nil => rfl
  | cons item items ih =>
      rw [List.foldr_cons, tailParts, ih]
      rfl

theorem parts_chain {items : List Datum} (hsome : items ≠ []) (tail : Datum) (last : Nat)
    (span : Option Span) :
    ((chain items tail last).1.withSpan span).parts = items ++ tail.tailParts := by
  cases items with
  | nil => exact absurd rfl hsome
  | cons item items => exact congrArg (item :: ·) (tailParts_chain items tail last)

/-- The spans of these data lie between two offsets, one after the other. -/
structure Laid (low high : Nat) (ds : List Datum) : Prop where
  within : ∀ d ∈ ds, ∀ span, d.mark.span = some span → low ≤ span.offset ∧ span.stop ≤ high
  ordered : ds.Pairwise fun d d' => ∀ span span', d.mark.span = some span →
    d'.mark.span = some span' → span.stop ≤ span'.offset

theorem Laid.nil (low high : Nat) : Laid low high [] :=
  ⟨fun _ hd => absurd hd List.not_mem_nil, .nil⟩

/-- Data without a span are nowhere. -/
theorem Laid.cons_of_none {low high : Nat} {ds : List Datum} {d : Datum} (h : Laid low high ds)
    (hd : d.mark.span = none) : Laid low high (d :: ds) := by
  refine ⟨List.forall_mem_cons.mpr ⟨fun span hspan => ?_, h.within⟩, .cons ?_ h.ordered⟩
  · rw [hd] at hspan
    cases hspan
  · intro d' _ span span' hspan _
    rw [hd] at hspan
    cases hspan

theorem Laid.mono {low high high' : Nat} {ds : List Datum} (h : Laid low high ds)
    (hle : high ≤ high') : Laid low high' ds := by
  refine ⟨fun d hd span hspan => ?_, h.ordered⟩
  obtain ⟨hlow, hhigh⟩ := h.within d hd span hspan
  exact ⟨hlow, hhigh.trans hle⟩

theorem Laid.concat {low mid high : Nat} {ds : List Datum} {d : Datum} {span : Span}
    (h : Laid low mid ds) (hspan : d.mark.span = some span) (hlow : low ≤ mid)
    (hmid : mid ≤ span.offset) (hhigh : span.stop ≤ high) : Laid low high (ds ++ [d]) := by
  have hstop : span.offset ≤ span.stop := Nat.le_add_right _ _
  refine ⟨fun x hx span' hspan' => ?_, ?_⟩
  · rcases List.mem_append.mp hx with hx | hx
    · have := h.within x hx span' hspan'
      omega
    · obtain rfl := List.mem_singleton.mp hx
      rw [hspan] at hspan'
      cases hspan'
      omega
  · refine List.pairwise_append.mpr ⟨h.ordered, List.pairwise_singleton _ _, ?_⟩
    intro x hx y hy span₁ span₂ hspan₁ hspan₂
    obtain rfl := List.mem_singleton.mp hy
    rw [hspan] at hspan₂
    cases hspan₂
    exact (h.within x hx span₁ hspan₁).2.trans hmid

end Datum

namespace Reader

open Datum

/-! ## Spans of what is read -/

section Spans

variable {room : Nat} {task : Task} {r r' : Reader} {d : Datum}

/-- Where what a task yields began. -/
def Task.start (r : Reader) : Task → Position
  | form => r.cursor.position
  | list start _ => start
  | vector start _ => start

theorem span_listed (r : Reader) (start : Position) (build : Nat → Datum × Nat) :
    (r.listed start build).1.mark.span = some (start.spanTo r.cursor.position) := by
  show (Datum.withSpan _ (build r.lastId).1).mark.span = _
  cases (build r.lastId).1 <;> rfl

/-- What is read has the span from where it began to where the reader then stands. -/
theorem Yields.span_eq (h : Yields room task r d r') :
    d.mark.span = some ((task.start r).spanTo r'.cursor.position) := by
  induction h with
  | atom atom => cases atom <;> rfl
  | list _ _ ih => exact ih
  | vector _ _ ih => exact ih
  | quote _ _ _ _ => exact span_listed _ _ _
  | nothing _ => rfl
  | close _ _ => exact span_listed _ _ _
  | item _ _ _ _ _ _ ih => exact ih
  | dotted _ _ _ _ _ _ _ => exact span_listed _ _ _
  | closeVector _ => rfl
  | vectorItem _ _ _ _ _ ih => exact ih

theorem Passes.offset {text : List Char} (h : Passes text r r') :
    r'.cursor.position.offset = r.cursor.position.offset + text.length := by
  rw [h.position, Position.offset_afterAll]

theorem Onward.offset_le (h : r.Onward r') :
    r.cursor.position.offset ≤ r'.cursor.position.offset := by
  obtain ⟨text, hpasses⟩ := h
  have := hpasses.offset
  omega

theorem stop_spanTo {p q : Position} (h : p.offset ≤ q.offset) : (p.spanTo q).stop = q.offset := by
  show p.offset + (q.offset - p.offset) = q.offset
  omega

/-- The elements of a list or a vector, latest first, stand between its start and the reader. -/
structure Row (start : Position) (items : List Datum) (r : Reader) : Prop where
  begun : start.offset < r.cursor.position.offset
  laid : Laid (start.offset + 1) r.cursor.position.offset items.reverse
  spanned : ∀ item ∈ items, item.mark.span ≠ none

/-- The parts of a datum between two offsets stand inside, and before its last character. -/
structure Enclosed (start stop : Nat) (d : Datum) : Prop where
  laid : Laid (start + 1) (stop - 1) d.parts
  spanned : ∀ part ∈ d.parts, part.mark.span ≠ none

/-- The parts of a quotation: the symbol that is not written, and what is quoted, up to the end. -/
structure Quotes (start stop : Nat) (d : Datum) : Prop where
  laid : Laid (start + 1) stop d.parts
  spanned : ∀ part ∈ d.parts, part.mark.span = none → part.symbolName? = some "quote"

theorem Row.nil {start : Position} (h : start.offset < r.cursor.position.offset) :
    Row start [] r :=
  ⟨h, .nil _ _, fun _ hitem => absurd hitem List.not_mem_nil⟩

theorem Row.cons {start : Position} {items : List Datum} {x : Datum} {r₁ r₂ : Reader}
    (h : Row start items r) (hr : r.Onward r₁) (hx : Yields room .form r₁ x r₂) :
    Row start (x :: items) r₂ := by
  have hbegun := h.begun
  have hle := hr.offset_le
  have hlonger := hx.onward.offset_le
  have hspan := hx.span_eq
  refine ⟨by omega, ?_, List.forall_mem_cons.mpr ⟨by simp [hspan], h.spanned⟩⟩
  rw [List.reverse_cons]
  exact h.laid.concat hspan hbegun hle (stop_spanTo hlonger).le

theorem Row.enclosed {start : Position} {items : List Datum} (h : Row start items r) {stop : Nat}
    (hstop : r.cursor.position.offset < stop) (hparts : d.parts = items.reverse) :
    Enclosed start.offset stop d := by
  refine ⟨?_, ?_⟩
  · rw [hparts]
    exact h.laid.mono (by omega)
  · rw [hparts]
    exact fun part hpart => h.spanned part (List.mem_reverse.mp hpart)

theorem enclosed_of_no_parts (h : d.parts = []) (start stop : Nat) : Enclosed start stop d := by
  refine ⟨?_, ?_⟩
  · rw [h]
    exact .nil _ _
  · rw [h]
    exact fun part hpart => absurd hpart List.not_mem_nil

theorem offset_passed {c : Char} {rest : List Char} (h : r.cursor.rest = c :: rest) :
    r.passed.cursor.position.offset = r.cursor.position.offset + 1 :=
  (passes_passed h).offset

/-- A closing parenthesis takes a place of its own. -/
theorem offset_lt_closed {c : Char} {rest : List Char} (h : r.skipped.cursor.rest = c :: rest) :
    r.cursor.position.offset < r.skipped.passed.cursor.position.offset := by
  have hskipped := (onward_skipped r).offset_le
  have hpassed := offset_passed h
  omega

/-- What is known before a task about where the elements so far stand. -/
def Task.Rows (r : Reader) : Task → Prop
  | form => True
  | list start items => Row start items r
  | vector start items => Row start items r

/-- How the parts of what a task yields stand in it. -/
def Task.Arranges (r : Reader) (d : Datum) (stop : Nat) : Task → Prop
  | form => Enclosed r.cursor.position.offset stop d ∨
      r.cursor.rest.head? = some '\'' ∧ Quotes r.cursor.position.offset stop d
  | list start _ => Enclosed start.offset stop d
  | vector start _ => Enclosed start.offset stop d

theorem Yields.arranges (h : Yields room task r d r') :
    task.Rows r → task.Arranges r d r'.cursor.position.offset := by
  induction h with
  | atom atom =>
      intro _
      refine .inl (enclosed_of_no_parts ?_ _ _)
      cases atom <;> simp only [parts]
  | list opens _ ih =>
      intro _
      have hpassed := offset_passed opens
      exact .inl (ih (.nil (by omega)))
  | vector opens _ ih =>
      intro _
      have hpassed := offset_passed opens
      have hpassed' := offset_passed (rest_passed opens)
      exact .inl (ih (.nil (by omega)))
  | @quote room r r₁ d rest opens more quoted _ =>
      -- The symbol that the mark stands for has no span, so that only the quoted datum is placed.
      intro _
      have hpassed := offset_passed opens
      have hskipped := (onward_skipped r.passed).offset_le
      have hparts : (r₁.listed r.cursor.position d.quotation).1.parts =
          [.symbol ⟨r₁.lastId + 1, none⟩ "quote", d] :=
        parts_chain (List.cons_ne_nil _ _) _ _ _
      have hquoted : Row r.cursor.position [d] r₁ :=
        .cons (.nil (by omega)) (onward_skipped r.passed) quoted
      refine .inr ⟨by rw [opens]; rfl, ?_, ?_⟩
      · rw [hparts]
        exact hquoted.laid.cons_of_none rfl
      · rw [hparts]
        refine List.forall_mem_cons.mpr ⟨fun _ => rfl, List.forall_mem_singleton.mpr fun hd => ?_⟩
        exact absurd hd (hquoted.spanned d List.mem_cons_self)
  | nothing _ => exact fun _ => enclosed_of_no_parts (by simp only [parts]) _ _
  | @close room r start items rest hsome closes =>
      intro hrow
      have hparts : (r.skipped.passed.listed start (properList items.reverse)).1.parts =
          items.reverse ++ [] :=
        parts_chain (by simpa using hsome) _ _ _
      exact hrow.enclosed (offset_lt_closed closes) (hparts.trans (List.append_nil _))
  | item _ _ _ item _ _ ih₂ => exact fun hrow => ih₂ (hrow.cons (onward_skipped _) item)
  | @dotted room r r₁ start items x rest rest' hsome next _ _ tail closes _ =>
      -- The datum behind the dot is one more part, even if it is a list itself.
      intro hrow
      have hrow' : Row start (x :: items) r₁ := hrow.cons
        (((onward_skipped r).trans (onward_passed _)).trans (onward_skipped _)) tail
      have hparts : (r₁.skipped.passed.listed start (chain items.reverse x)).1.parts =
          items.reverse ++ x.tailParts :=
        parts_chain (by simpa using hsome) _ _ _
      rw [tailParts_of_span tail.span_eq, ← List.reverse_cons] at hparts
      exact hrow'.enclosed (offset_lt_closed closes) hparts
  | closeVector closes =>
      exact fun hrow => hrow.enclosed (offset_lt_closed closes) (by simp only [parts])
  | vectorItem _ _ item _ _ ih₂ => exact fun hrow => ih₂ (hrow.cons (onward_skipped _) item)

end Spans

/-! ## Nodes -/

section Written

variable {source : String} {room : Nat} {task : Task} {r r' : Reader} {d : Datum}

/-- In this text a datum was read, all by itself, and takes that span. -/
def Written (source : String) (d : Datum) (span : Span) : Prop :=
  ∃ room r r', room ≤ maxNesting ∧ (ofText source).Onward r ∧ r.AtDatum ∧
    Yields room .form r d r' ∧ span = r.cursor.position.spanTo r'.cursor.position

/-- A node stands where its span says, if it has one. -/
def Placed (source : String) (s : Datum) : Prop :=
  ∀ span, s.mark.span = some span → Written source s span

theorem placed_of_none {s : Datum} (h : s.mark.span = none) : Placed source s := by
  intro span hspan
  rw [h] at hspan
  cases hspan

theorem Yields.placed (h : Yields room .form r d r') (hroom : room ≤ maxNesting)
    (hsource : (ofText source).Onward r) (hr : r.AtDatum) : Placed source d := by
  intro span hspan
  rw [h.span_eq] at hspan
  cases hspan
  exact ⟨room, r, r', hroom, hsource, hr, h, rfl⟩

theorem mem_preorder_withMark {m : Mark} {d s : Datum} (h : s ∈ (d.withMark m).preorder) :
    s = d.withMark m ∨ s ∈ d.preorder := by
  cases d with
  | pair m' a b =>
      rw [withMark, preorder, List.mem_cons] at h
      rw [preorder, List.mem_cons]
      exact h.imp_right .inr
  | vector m' items =>
      rw [withMark, preorder, List.mem_cons] at h
      rw [preorder, List.mem_cons]
      exact h.imp_right .inr
  | empty m' => exact .inl (by simpa [withMark, preorder] using h)
  | symbol m' name => exact .inl (by simpa [withMark, preorder] using h)
  | literal m' value => exact .inl (by simpa [withMark, preorder] using h)

theorem placed_chain {items : List Datum}
    (hitems : ∀ item ∈ items, ∀ s ∈ item.preorder, Placed source s) {tail : Datum}
    (htail : ∀ s ∈ tail.preorder, Placed source s) (last : Nat) (span : Option Span) :
    ∀ s ∈ ((chain items tail last).1.withSpan span).preorder,
      s = (chain items tail last).1.withSpan span ∨ Placed source s := by
  intro s hs
  refine (mem_preorder_withMark hs).imp_right fun hs => ?_
  exact forall_preorder_chain (fun m a d hm => placed_of_none hm) hitems htail last s hs

theorem placed_supplied {s : Datum} (hs : s.preorder = [s]) (h : s.mark.span = none) :
    ∀ t ∈ s.preorder, Placed source t :=
  forall_preorder_leaf hs (placed_of_none h)

/-- If the nodes inside a datum stand where their spans say, so does its root, which is read by
itself. -/
theorem Yields.placed_root (h : Yields room .form r d r') (hroom : room ≤ maxNesting)
    (hsource : (ofText source).Onward r) (hr : r.AtDatum)
    (hinside : ∀ s ∈ d.preorder, s = d ∨ Placed source s) : ∀ s ∈ d.preorder, Placed source s := by
  intro s hs
  rcases hinside s hs with rfl | hplaced
  · exact h.placed hroom hsource hr
  · exact hplaced

theorem placed_empty (id : Nat) : ∀ s ∈ (Datum.empty ⟨id, none⟩).preorder, Placed source s :=
  placed_supplied (by simp only [preorder]) rfl

theorem placed_quotation (h : ∀ s ∈ d.preorder, Placed source s) (last : Nat)
    (span : Option Span) :
    ∀ s ∈ ((d.quotation last).1.withSpan span).preorder,
      s = (d.quotation last).1.withSpan span ∨ Placed source s := by
  have hitems : ∀ item ∈ [.symbol ⟨last + 1, none⟩ "quote", d], ∀ s ∈ item.preorder,
      Placed source s := by
    refine List.forall_mem_cons.mpr ⟨?_, List.forall_mem_singleton.mpr h⟩
    exact placed_supplied (by simp only [preorder]) rfl
  exact placed_chain hitems (placed_empty (last + 2)) (last + 2) span

/-- Every node inside what is read stands where its span says; about the root of a list or a vector
this is not yet known while it is read. -/
theorem Yields.nodes (h : Yields room task r d r') :
    room ≤ maxNesting → (ofText source).Onward r → task.Inside (Placed source) r →
      ∀ s ∈ d.preorder, s = d ∨ Placed source s := by
  have hnone : ∀ item ∈ ([] : List Datum), ∀ s ∈ item.preorder, Placed source s :=
    fun _ hitem => absurd hitem List.not_mem_nil
  induction h with
  | @atom room r r' d atom =>
      intro _ _ _ s hs
      rw [atom.preorder_eq] at hs
      exact .inl (List.mem_singleton.mp hs)
  | list _ _ ih =>
      intro hroom hsource _
      exact ih (Nat.le_of_succ_le hroom) (hsource.trans (onward_passed _)) hnone
  | vector _ _ ih =>
      intro hroom hsource _
      exact ih (Nat.le_of_succ_le hroom)
        ((hsource.trans (onward_passed _)).trans (onward_passed _)) hnone
  | quote _ _ quoted ih =>
      intro hroom hsource _
      have hroom := Nat.le_of_succ_le hroom
      have hsource := (hsource.trans (onward_passed _)).trans (onward_skipped _)
      have hquoted := quoted.placed_root hroom hsource (skipped_atDatum _)
        (ih hroom hsource (skipped_atDatum _))
      exact placed_quotation hquoted _ _
  | nothing _ =>
      intro _ _ _ s hs
      exact .inl (by simpa [preorder] using hs)
  | close _ _ =>
      intro _ _ hitems
      refine placed_chain (fun item hitem => ?_) (placed_empty _) _ _
      exact hitems item (List.mem_reverse.mp hitem)
  | item _ _ _ item _ ih₁ ih₂ =>
      intro hroom hsource hitems
      have hsource := hsource.trans (onward_skipped _)
      have hitem := item.placed_root hroom hsource (skipped_atDatum _)
        (ih₁ hroom hsource (skipped_atDatum _))
      exact ih₂ hroom (hsource.trans item.onward) (List.forall_mem_cons.mpr ⟨hitem, hitems⟩)
  | dotted _ _ _ _ tail _ ih =>
      intro hroom hsource hitems
      have hsource := ((hsource.trans (onward_skipped _)).trans (onward_passed _)).trans
        (onward_skipped _)
      have htail := tail.placed_root hroom hsource (skipped_atDatum _)
        (ih hroom hsource (skipped_atDatum _))
      refine placed_chain (fun item hitem => ?_) htail _ _
      exact hitems item (List.mem_reverse.mp hitem)
  | closeVector _ =>
      intro _ _ hitems s hs
      rw [preorder, List.mem_cons] at hs
      refine hs.imp_right fun hs => forall_preorderAll (fun item hitem => ?_) s hs
      exact hitems item (List.mem_reverse.mp hitem)
  | vectorItem _ _ item _ ih₁ ih₂ =>
      intro hroom hsource hitems
      have hsource := hsource.trans (onward_skipped _)
      have hitem := item.placed_root hroom hsource (skipped_atDatum _)
        (ih₁ hroom hsource (skipped_atDatum _))
      exact ih₂ hroom (hsource.trans item.onward) (List.forall_mem_cons.mpr ⟨hitem, hitems⟩)

/-- Every node of a datum that is returned was read where its span says. -/
theorem Returns.placed (h : Returns source d) : ∀ s ∈ d.preorder, Placed source s := by
  obtain ⟨r, r', hreached, hnext⟩ := h
  have hyields := nextForm_eq_some hnext
  have hsource := hreached.onward.trans (onward_skipped r)
  exact hyields.placed_root Nat.le.refl hsource (skipped_atDatum r)
    (hyields.nodes Nat.le.refl hsource (skipped_atDatum r))

end Written

end Reader

/-! ## Exact spans -/

namespace Datum

open Reader

/-- A span is that of a datum in a text. -/
structure Exact (source : String) (s : Datum) (span : Span) : Prop where
  /-- It ends inside the text. -/
  bounded : span.stop ≤ source.toList.length
  /-- Its line is counted by the ends of lines before it. -/
  line : span.line = 1 + (source.toList.take span.offset).count '\n'
  /-- Its column is counted by the characters since the last end of a line before it. -/
  column : span.column =
    1 + ((source.toList.take span.offset).reverse.takeWhile (· != '\n')).length
  /-- Its characters read alone as one datum, which is the same. -/
  alone : ∃ d, parse (String.ofList ((source.toList.drop span.offset).take span.length)) = .ok [d] ∧
    s.same d = true
  /-- The parts stand inside it.  Only what is quoted with a mark reaches to its end. -/
  inside : ∀ part ∈ s.parts, ∀ inner, part.mark.span = some inner →
    span.offset < inner.offset ∧ (inner.stop < span.stop ∨
      inner.stop = span.stop ∧ source.toList[span.offset]? = some '\'')
  /-- The parts stand one after the other and do not overlap. -/
  ordered : s.parts.Pairwise fun part part' => ∀ inner inner', part.mark.span = some inner →
    part'.mark.span = some inner' → inner.stop ≤ inner'.offset
  /-- Every part has a span but the symbol that a quotation mark stands for. -/
  spanned : ∀ part ∈ s.parts, part.mark.span = none →
    part.symbolName? = some "quote" ∧ source.toList[span.offset]? = some '\''

theorem exact_of_written {source : String} {s : Datum} {span : Span}
    (h : Written source s span) : Exact source s span := by
  obtain ⟨room, r, r', hroom, ⟨before, hbefore⟩, hr, hyields, rfl⟩ := h
  obtain ⟨text, hpasses, d, hparse, hsame⟩ := hyields.parse_alone hroom hr
  have hsource : source.toList = before ++ (text ++ r'.cursor.rest) := by
    rw [← hpasses.rest]
    exact hbefore.rest
  have hposition := hbefore.position.trans (Position.afterAll_origin before)
  have hoffset : r.cursor.position.offset = before.length := congrArg Position.offset hposition
  have hstop : r'.cursor.position.offset = before.length + text.length := by
    rw [hpasses.offset, hoffset]
  have hspan : r.cursor.position.spanTo r'.cursor.position =
      ⟨before.length, 1 + before.count '\n',
        1 + (before.reverse.takeWhile (· != '\n')).length, text.length⟩ := by
    rw [Position.spanTo, hstop, hposition, Nat.add_sub_cancel_left]
  have htake : source.toList.take before.length = before := by rw [hsource, List.take_left]
  have hslice : (source.toList.drop before.length).take text.length = text := by
    rw [hsource, List.drop_left, List.take_left]
  have hnonempty : text ≠ [] := hpasses.ne_nil hyields.consumes
  have harranges := hyields.arranges trivial
  rw [Task.Arranges, hoffset, hstop] at harranges
  rw [hspan]
  have hbounded : before.length + text.length ≤ source.toList.length := by
    rw [hsource, List.length_append, List.length_append]
    omega
  have halone : ∃ d, parse (String.ofList ((source.toList.drop before.length).take text.length)) =
      .ok [d] ∧ s.same d = true := by
    rw [hslice]
    exact ⟨d, hparse, hsame⟩
  -- What a mark quotes ends where the quotation ends; every other part ends before.
  rcases harranges with henclosed | ⟨hmark, hquotes⟩
  · refine ⟨hbounded, by rw [htake], by rw [htake], halone, fun part hpart inner hinner => ?_,
      henclosed.laid.ordered, fun part hpart hnone => absurd hnone (henclosed.spanned part hpart)⟩
    have hpos := List.length_pos_of_ne_nil hnonempty
    obtain ⟨hlow, hhigh⟩ := henclosed.laid.within part hpart inner hinner
    refine ⟨hlow, .inl ?_⟩
    show inner.stop < before.length + text.length
    omega
  · have hfirst : source.toList[before.length]? = some '\'' := by
      rw [hsource, ← hpasses.rest, List.getElem?_append_right Nat.le.refl, Nat.sub_self,
        ← List.head?_eq_getElem?]
      exact hmark
    refine ⟨hbounded, by rw [htake], by rw [htake], halone, fun part hpart inner hinner => ?_,
      hquotes.laid.ordered, fun part hpart hnone => ⟨hquotes.spanned part hpart hnone, hfirst⟩⟩
    obtain ⟨hlow, hhigh⟩ := hquotes.laid.within part hpart inner hinner
    exact ⟨hlow, (Nat.lt_or_eq_of_le hhigh).imp_right fun h => ⟨h, hfirst⟩⟩

/-- Every node with a span, in a datum that a reader of the text returns, stands exactly there. -/
theorem spans_exact {source : String} {f : Datum} (h : Returns source f) {s : Datum}
    (hs : s ∈ f.preorder) {span : Span} (hspan : s.mark.span = some span) :
    Exact source s span :=
  exact_of_written (h.placed s hs span hspan)

/-- A symbol in a list, before an error, and a vector behind the dot of a quoted list, after it. -/
theorem spans_exact_around_error :
    (∃ f s, f ∈ (readAll "(a) 1/2 '(b\n. #(c))").1 ∧ s ∈ f.preorder ∧
      s.mark.span = some ⟨1, 1, 2, 1⟩ ∧ Exact "(a) 1/2 '(b\n. #(c))" s ⟨1, 1, 2, 1⟩) ∧
    ∃ f s, Returns "(a) 1/2 '(b\n. #(c))" f ∧ s ∈ f.preorder ∧
      s.mark.span = some ⟨14, 2, 3, 4⟩ ∧ Exact "(a) 1/2 '(b\n. #(c))" s ⟨14, 2, 3, 4⟩ := by
  have hnode : ∀ {f : Datum}, Returns "(a) 1/2 '(b\n. #(c))" f → ∀ span : Span,
      (f.preorder.any fun s => s.mark.span == some span) = true →
        ∃ s, s ∈ f.preorder ∧ s.mark.span = some span ∧ Exact "(a) 1/2 '(b\n. #(c))" s span := by
    intro f hf span hany
    obtain ⟨s, hs, hspan⟩ := List.any_eq_true.mp hany
    rw [beq_iff_eq] at hspan
    exact ⟨s, hs, hspan, spans_exact hf hs hspan⟩
  refine ⟨?_, ?_⟩
  · have hf : _ ∈ (readAll "(a) 1/2 '(b\n. #(c))").1 := List.mem_cons_self
    obtain ⟨s, hs⟩ := hnode (returns_of_mem_readAll hf) ⟨1, 1, 2, 1⟩ rfl
    exact ⟨_, s, hf, hs⟩
  · have hf : Returns "(a) 1/2 '(b\n. #(c))" _ := ⟨_, _, .failed (.read .start rfl) rfl, rfl⟩
    obtain ⟨s, hs⟩ := hnode hf ⟨14, 2, 3, 4⟩ rfl
    exact ⟨_, s, hf, hs⟩

/-- What a mark quotes ends where the quotation ends, so it does not stand strictly inside. -/
theorem quoted_symbol_reaches_end :
    ∃ f part, parse "'x" = .ok [f] ∧ f.mark.span = some ⟨0, 1, 1, 2⟩ ∧ part ∈ f.parts ∧
      part.mark.span = some ⟨1, 1, 2, 1⟩ ∧
      ¬ (⟨1, 1, 2, 1⟩ : Span).stop < (⟨0, 1, 1, 2⟩ : Span).stop := by
  refine ⟨_, .symbol ⟨1, some ⟨1, 1, 2, 1⟩⟩ "x", rfl, rfl, ?_, rfl, by decide⟩
  exact List.mem_cons_of_mem _ List.mem_cons_self

end Datum
end SchemeMachine
