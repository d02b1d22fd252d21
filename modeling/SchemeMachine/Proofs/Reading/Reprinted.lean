import SchemeMachine.Proofs.Reading.Nodes

/-!
# What was read can be printed and read again

The text of a datum that was read reads back as the same datum, with two exceptions.  A real that is
too large for every finite double is read as an infinite one, whose text is no numeral.  And behind a
quotation mark, where no list is being read, a symbol may have the name of the dot before a tail; the
quotation is then printed as a list, in which that symbol is taken for the dot.

Nothing else can go wrong: a datum that is read has only names that are read as symbols, and is not
nested deeper than the reader goes.
-/

namespace SchemeMachine

namespace Datum

/-! ## Nesting -/

mutual

theorem nestingAs_tail_le : ∀ d : Datum, d.nestingAs .tail ≤ d.nestingAs .alone
  | .symbol m name => by simp only [nestingAs, Nat.le_refl]
  | .literal m value => by simp only [nestingAs, Nat.le_refl]
  | .empty m => by
      simp only [nestingAs]
      omega
  | .vector m items => by simp only [nestingAs, Nat.le_refl]
  | .pair m a d => by
      simp only [nestingAs]
      omega

end

theorem nestingAs_withMark (standing : Standing) (m : Mark) (d : Datum) :
    (d.withMark m).nestingAs standing = d.nestingAs standing := by
  cases d <;> simp only [withMark, nestingAs]

/-- A tail is nested as deep as the deepest of the data that it is made of. -/
theorem nestingAs_tail_chain_le {items : List Datum} {tail : Datum} {room : Nat}
    (hitems : ∀ item ∈ items, item.nestingAs .alone ≤ room) (htail : tail.nestingAs .tail ≤ room)
    (last : Nat) : (chain items tail last).1.nestingAs .tail ≤ room := by
  unfold chain
  induction items with
  | nil => exact htail
  | cons item items ih =>
      have hfirst := hitems item List.mem_cons_self
      have hrest := ih fun x hx => hitems x (List.mem_cons_of_mem _ hx)
      rw [List.foldr_cons, nestingAs]
      show 0 + max _ _ ≤ room
      omega

/-- A list is nested one level deeper. -/
theorem nestingAs_chain_le {items : List Datum} {tail : Datum} {room : Nat} (hsome : items ≠ [])
    (hitems : ∀ item ∈ items, item.nestingAs .alone ≤ room) (htail : tail.nestingAs .tail ≤ room)
    (last : Nat) : (chain items tail last).1.nestingAs .alone ≤ room + 1 := by
  cases items with
  | nil => exact absurd rfl hsome
  | cons item items =>
      have hfirst := hitems item List.mem_cons_self
      have hrest := nestingAs_tail_chain_le (fun x hx => hitems x (List.mem_cons_of_mem _ hx)) htail
        last
      unfold chain at hrest ⊢
      rw [List.foldr_cons, nestingAs]
      show 1 + max _ _ ≤ room + 1
      omega

theorem nestingAll_le {items : List Datum} {room : Nat}
    (h : ∀ item ∈ items, item.nestingAs .alone ≤ room) : nestingAll items ≤ room := by
  induction items with
  | nil =>
      rw [nestingAll]
      exact Nat.zero_le room
  | cons item items ih =>
      have hfirst := h item List.mem_cons_self
      have hrest := ih fun x hx => h x (List.mem_cons_of_mem _ hx)
      rw [nestingAll]
      omega

end Datum

namespace Reader

open Datum

/-- How deep the elements that a list or a vector has so far are nested. -/
def Task.Shallow (room : Nat) : Task → Prop
  | form => True
  | list _ items => ∀ item ∈ items, item.nestingAs .alone ≤ room
  | vector _ items => ∀ item ∈ items, item.nestingAs .alone ≤ room

/-- How deep what a task yields may be nested: one level more where the level is open already. -/
def Task.depth (room : Nat) : Task → Nat
  | form => room
  | list .. => room + 1
  | vector .. => room + 1

/-- What is read is not nested deeper than the reader goes. -/
theorem Yields.nestingAs_le {room : Nat} {task : Task} {r r' : Reader} {d : Datum}
    (h : Yields room task r d r') : task.Shallow room → d.nestingAs .alone ≤ task.depth room := by
  have hnone : ∀ (room : Nat), ∀ item ∈ ([] : List Datum), item.nestingAs .alone ≤ room :=
    fun _ _ hitem => absurd hitem List.not_mem_nil
  have hempty : ∀ (m : Mark) (room : Nat), (Datum.empty m).nestingAs .tail ≤ room := by
    intro m room
    rw [nestingAs]
    exact Nat.zero_le room
  induction h with
  | @atom room r r' d atom =>
      intro _
      cases atom <;> simp only [nestingAs, Nat.zero_le]
  | list _ _ ih => exact fun _ => ih (hnone _)
  | vector _ _ ih => exact fun _ => ih (hnone _)
  | @quote room r r₁ d rest _ _ _ ih =>
      intro _
      have hitems : ∀ item ∈ [.symbol ⟨r₁.lastId + 1, none⟩ "quote", d],
          item.nestingAs .alone ≤ room := by
        refine List.forall_mem_cons.mpr ⟨?_, List.forall_mem_singleton.mpr (ih trivial)⟩
        simp only [nestingAs, Nat.zero_le]
      have hlist := nestingAs_chain_le (List.cons_ne_nil _ _) hitems
        (hempty ⟨r₁.lastId + 2, none⟩ room) (r₁.lastId + 2)
      exact (nestingAs_withMark .alone _ _).trans_le hlist
  | nothing _ =>
      intro _
      rw [nestingAs]
      exact Nat.le_add_left 1 _
  | close hsome _ =>
      intro hitems
      refine (nestingAs_withMark .alone _ _).trans_le (nestingAs_chain_le ?_ ?_ (hempty _ _) _)
      · simpa using hsome
      · exact fun item hitem => hitems item (List.mem_reverse.mp hitem)
  | item _ _ _ _ _ ih₁ ih₂ =>
      exact fun hitems => ih₂ (List.forall_mem_cons.mpr ⟨ih₁ trivial, hitems⟩)
  | dotted hsome _ _ _ _ _ ih =>
      -- The datum behind the dot goes on the list that is open, so it may be nested less, not more.
      intro hitems
      refine (nestingAs_withMark .alone _ _).trans_le
        (nestingAs_chain_le ?_ ?_ ((nestingAs_tail_le _).trans (ih trivial)) _)
      · simpa using hsome
      · exact fun item hitem => hitems item (List.mem_reverse.mp hitem)
  | closeVector _ =>
      intro hitems
      have hall := nestingAll_le fun item hitem => hitems item (List.mem_reverse.mp hitem)
      rw [nestingAs]
      show 1 + _ ≤ _ + 1
      omega
  | vectorItem _ _ _ _ ih₁ ih₂ =>
      exact fun hitems => ih₂ (List.forall_mem_cons.mpr ⟨ih₁ trivial, hitems⟩)

theorem YieldsAll.mem {r r' : Reader} {ds : List Datum} (h : YieldsAll r ds r') {d : Datum}
    (hd : d ∈ ds) : ∃ r₁ r₂ : Reader, Yields maxNesting .form r₁.skipped d r₂ := by
  induction h with
  | done _ => exact absurd hd List.not_mem_nil
  | form _ first _ ih =>
      rcases List.mem_cons.mp hd with rfl | hd
      · exact ⟨_, _, first⟩
      · exact ih hd

end Reader

namespace Datum

open Reader

/-- A datum that was read reads back from its text, as one datum that is the same, if its reals are
finite and the head of no pair in it is a symbol that has the name of a dot. -/
theorem reprinted_reads_back {source : String} {forms : List Datum} (h : parse source = .ok forms)
    {f : Datum} (hf : f ∈ forms)
    (hfinite : ∀ s ∈ f.preorder, ∀ x, s.real? = some x → x.isFinite = true)
    (hdots : ∀ s ∈ f.preorder, s.Dotless) :
    ∃ d, parse f.text = .ok [d] ∧ f.same d = true := by
  obtain ⟨r', hall⟩ := parse_eq_ok_iff.mp h
  obtain ⟨r₁, r₂, hyields⟩ := hall.mem hf
  have hat := skipped_atDatum r₁
  have hnesting : f.nestingAs .alone ≤ maxNesting := hyields.nestingAs_le trivial
  have hleaves : ∀ s ∈ f.preorder, s.Legible ∧ s.Dotless := by
    intro s hs
    refine ⟨?_, hdots s hs⟩
    cases s with
    | symbol m name => exact hyields.names hat _ hs name rfl
    | literal m value =>
        cases value with
        | number n =>
            cases n with
            | int n => trivial
            | real x =>
                have hx := hfinite _ hs x rfl
                exact ⟨hx, Number.display.float?_render hx⟩
        | string s => trivial
        | boolean b => trivial
    | _ => trivial
  have hlayout := layout_text f
  have hread : ∀ r : Reader, r.cursor.rest = f.text.toList →
      Reads (readForm maxNesting) r f.unmarked [] := by
    intro r hr
    exact readForm_legible hlayout hleaves hnesting rfl (hr.trans (List.append_nil _).symm)
  obtain ⟨d, hparse, hd⟩ :=
    parse_of_opens (hlayout.opens (hleaves f (mem_preorder_self f)).1) hread
  rw [← text, String.ofList_toList] at hparse
  exact ⟨d, hparse, same_of_unmarked_eq f d hd hfinite⟩

/-- Whether a text is read as one datum, and that passes a test. -/
def readsOne (source : String) (test : Datum → Bool) : Bool :=
  match parse source with
  | .ok [d] => test d
  | _ => false

theorem readsOne_iff {source : String} {test : Datum → Bool} :
    readsOne source test = true ↔ ∃ d, parse source = .ok [d] ∧ test d = true := by
  constructor
  · intro h
    unfold readsOne at h
    split at h
    next d hparse => exact ⟨d, hparse, h⟩
    next => cases h
  · rintro ⟨d, hparse, h⟩
    rw [readsOne, hparse]
    exact h

/-- A quoted list with the symbol of a dot in a vector behind its own dot. -/
theorem dotted_vector_reprinted :
    ∃ f d, parse "'(a . #(. 0.1 \"x\")) ; end" = .ok [f] ∧ parse f.text = .ok [d] ∧
      f.same d = true := by
  have htest : readsOne "'(a . #(. 0.1 \"x\")) ; end" (fun f => f.preorder.all fun s =>
      s.real?.all Float.isFinite && decide s.Dotless) = true := by
    decide +kernel
  obtain ⟨f, hparse, hall⟩ := readsOne_iff.mp htest
  rw [List.all_eq_true] at hall
  obtain ⟨d, hd⟩ := reprinted_reads_back hparse List.mem_cons_self
    (fun s hs x hx => by
      have hs := hall s hs
      rw [hx, Bool.and_eq_true] at hs
      exact hs.1)
    (fun s hs => by
      have hs := hall s hs
      rw [Bool.and_eq_true, decide_eq_true_eq] at hs
      exact hs.2)
  exact ⟨f, d, hparse, hd⟩

/-- A quoted dot and an infinite real do not read back from their texts. -/
theorem dot_and_infinity_not_reprinted :
    (∃ f, parse "'." = .ok [f] ∧ ¬ ∃ d, parse f.text = .ok [d] ∧ f.same d = true) ∧
      ∃ f, parse "-1e400" = .ok [f] ∧ ¬ ∃ d, parse f.text = .ok [d] ∧ f.same d = true := by
  have hlost : ∀ {source : String}, readsOne source (fun f => !readsOne f.text f.same) = true →
      ∃ f, parse source = .ok [f] ∧ ¬ ∃ d, parse f.text = .ok [d] ∧ f.same d = true := by
    intro source htest
    obtain ⟨f, hparse, hnot⟩ := readsOne_iff.mp htest
    refine ⟨f, hparse, ?_⟩
    rwa [← readsOne_iff, Bool.not_eq_true, ← Bool.not_eq_true']
  exact ⟨hlost (by decide +kernel), hlost (by decide +kernel)⟩

end Datum
end SchemeMachine
