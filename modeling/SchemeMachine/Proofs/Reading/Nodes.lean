import SchemeMachine.Proofs.Doubles.Numerals
import SchemeMachine.Proofs.Reading.Yields

/-!
# What is inside the data that are read

A property of data that does not depend on their marks, and that pairs, empty lists and vectors have
whatever is inside them, holds of every datum inside one that is read as soon as it holds of the
atoms that are read.  Two such properties are that a symbol has a name that is read as a symbol, and
that a real equals itself.
-/

namespace SchemeMachine

open Text

namespace Datum

/-- A property that leaves matter for only, apart from the symbol that a quotation mark supplies. -/
structure OfLeaves (P : Datum → Prop) : Prop where
  pair : ∀ m a d, P (.pair m a d)
  empty : ∀ m, P (.empty m)
  vector : ∀ m items, P (.vector m items)
  quote : ∀ m, P (.symbol m "quote")
  blind : ∀ d m, P d → P (d.withMark m)

variable {P : Datum → Prop}

theorem forall_preorder_leaf {d : Datum} (hd : d.preorder = [d]) (h : P d) :
    ∀ s ∈ d.preorder, P s := by
  intro s hs
  rw [hd, List.mem_singleton] at hs
  rwa [hs]

theorem forall_preorder_withMark (hP : OfLeaves P) (m : Mark) {d : Datum}
    (h : ∀ s ∈ d.preorder, P s) : ∀ s ∈ (d.withMark m).preorder, P s := by
  have hroot := hP.blind d m (h d (mem_preorder_self d))
  cases d with
  | pair m' a b =>
      simp only [withMark, preorder, List.mem_cons] at h hroot ⊢
      rintro s (rfl | hs)
      · exact hroot
      · exact h s (.inr hs)
  | vector m' items =>
      simp only [withMark, preorder, List.mem_cons] at h hroot ⊢
      rintro s (rfl | hs)
      · exact hroot
      · exact h s (.inr hs)
  | empty m' => exact forall_preorder_leaf (by simp only [withMark, preorder]) hroot
  | symbol m' name => exact forall_preorder_leaf (by simp only [withMark, preorder]) hroot
  | literal m' value => exact forall_preorder_leaf (by simp only [withMark, preorder]) hroot

theorem real?_withMark (m : Mark) (d : Datum) : (d.withMark m).real? = d.real? := by
  cases d with
  | literal m' value =>
      cases value with
      | number n => cases n <;> rfl
      | string s => rfl
      | boolean b => rfl
  | _ => rfl

theorem forall_preorder_chain (hpair : ∀ m a d, m.span = none → P (.pair m a d))
    {items : List Datum} (hitems : ∀ item ∈ items, ∀ s ∈ item.preorder, P s) {tail : Datum}
    (htail : ∀ s ∈ tail.preorder, P s) (last : Nat) :
    ∀ s ∈ (chain items tail last).1.preorder, P s := by
  unfold chain
  induction items with
  | nil => exact htail
  | cons item items ih =>
      have hrest := ih fun x hx => hitems x (List.mem_cons_of_mem _ hx)
      intro s hs
      rw [List.foldr_cons, preorder, List.mem_cons, List.mem_append] at hs
      rcases hs with rfl | hs | hs
      · exact hpair _ _ _ rfl
      · exact hitems item List.mem_cons_self s hs
      · exact hrest s hs

theorem forall_preorderAll {items : List Datum}
    (h : ∀ item ∈ items, ∀ s ∈ item.preorder, P s) : ∀ s ∈ preorderAll items, P s := by
  induction items with
  | nil =>
      intro s hs
      rw [preorderAll] at hs
      exact absurd hs List.not_mem_nil
  | cons item items ih =>
      intro s hs
      rw [preorderAll, List.mem_append] at hs
      rcases hs with hs | hs
      · exact h item List.mem_cons_self s hs
      · exact ih (fun x hx => h x (List.mem_cons_of_mem _ hx)) s hs

end Datum

namespace Reader

open Datum

/-- The reader stands at neither a blank nor a comment. -/
def AtDatum (r : Reader) : Prop :=
  ∀ c rest, r.cursor.rest = c :: rest → isBlank c = false ∧ c ≠ ';'

theorem skipped_atDatum (r : Reader) : r.skipped.AtDatum :=
  fun _ _ h => skipFrom_stops h

/-- What is known before a task: where a datum begins, and what holds inside the elements that a
list or a vector has so far. -/
def Task.Inside (P : Datum → Prop) (r : Reader) : Task → Prop
  | form => r.AtDatum
  | list _ items => ∀ item ∈ items, ∀ s ∈ item.preorder, P s
  | vector _ items => ∀ item ∈ items, ∀ s ∈ item.preorder, P s

section Inside

variable {P : Datum → Prop} {room : Nat} {task : Task} {r r' : Reader} {d : Datum}

theorem Atom.preorder_eq (h : Atom r d r') : d.preorder = [d] := by
  cases h <;> simp only [preorder]

/-- What holds of the atoms holds everywhere inside. -/
theorem Yields.forall_inside (hP : OfLeaves P)
    (hatom : ∀ {r r' : Reader} {d : Datum}, r.AtDatum → Atom r d r' → P d)
    (h : Yields room task r d r') : task.Inside P r → ∀ s ∈ d.preorder, P s := by
  have hpair : ∀ m a d, m.span = none → P (.pair m a d) := fun m a d _ => hP.pair m a d
  have hempty : ∀ m : Mark, ∀ s ∈ (Datum.empty m).preorder, P s :=
    fun m => forall_preorder_leaf (by simp only [preorder]) (hP.empty m)
  have hnone : ∀ item ∈ ([] : List Datum), ∀ s ∈ item.preorder, P s :=
    fun _ hitem => absurd hitem List.not_mem_nil
  have hmore : ∀ {x : Datum} {items : List Datum}, (∀ s ∈ x.preorder, P s) →
      (∀ item ∈ items, ∀ s ∈ item.preorder, P s) →
      ∀ item ∈ x :: items, ∀ s ∈ item.preorder, P s := by
    intro x items hx hitems
    exact List.forall_mem_cons.mpr ⟨hx, hitems⟩
  induction h with
  | atom atom => exact fun hat => forall_preorder_leaf atom.preorder_eq (hatom hat atom)
  | list _ _ ih => exact fun _ => ih hnone
  | vector _ _ ih => exact fun _ => ih hnone
  | @quote room r r₁ d rest _ _ _ ih =>
      intro _
      have hquote : ∀ m : Mark, ∀ s ∈ (Datum.symbol m "quote").preorder, P s :=
        fun m => forall_preorder_leaf (by simp only [preorder]) (hP.quote m)
      have hlist := forall_preorder_chain hpair
        (hmore (hquote ⟨r₁.lastId + 1, none⟩) (hmore (ih (skipped_atDatum _)) hnone))
        (hempty ⟨r₁.lastId + 2, none⟩) (r₁.lastId + 2)
      exact forall_preorder_withMark hP _ hlist
  | nothing _ => exact fun _ => hempty _
  | close _ _ =>
      intro hitems
      refine forall_preorder_withMark hP _ (forall_preorder_chain hpair ?_ (hempty _) _)
      exact fun item hitem => hitems item (List.mem_reverse.mp hitem)
  | item _ _ _ _ _ ih₁ ih₂ => exact fun hitems => ih₂ (hmore (ih₁ (skipped_atDatum _)) hitems)
  | dotted _ _ _ _ _ _ ih =>
      intro hitems
      refine forall_preorder_withMark hP _
        (forall_preorder_chain hpair ?_ (ih (skipped_atDatum _)) _)
      exact fun item hitem => hitems item (List.mem_reverse.mp hitem)
  | closeVector _ =>
      intro hitems s hs
      rw [preorder, List.mem_cons] at hs
      rcases hs with rfl | hs
      · exact hP.vector _ _
      · refine forall_preorderAll (fun item hitem => ?_) s hs
        exact hitems item (List.mem_reverse.mp hitem)
  | vectorItem _ _ _ _ ih₁ ih₂ =>
      exact fun hitems => ih₂ (hmore (ih₁ (skipped_atDatum _)) hitems)

/-- A number that is read is never what is not a number. -/
theorem real_beq_self_of_number? {token : List Char} {x : Float}
    (h : number? token = some (.real x)) : (x == x) = true := by
  rw [number?] at h
  split at h
  next => cases h
  next =>
    obtain ⟨y, hy, hxy⟩ := Option.map_eq_some_iff.mp h
    cases hxy
    exact Double.beq_self_of_not_isNaN (Decimal.isNaN_of_float? hy)

/-- Every real inside a datum that is read equals itself. -/
theorem Yields.reals (h : Yields room .form r d r') (hr : r.AtDatum) :
    ∀ s ∈ d.preorder, ∀ x, s.real? = some x → (x == x) = true := by
  have hleaves : OfLeaves fun s => ∀ x, s.real? = some x → (x == x) = true := by
    refine ⟨fun _ _ _ x hx => ?_, fun _ x hx => ?_, fun _ _ x hx => ?_, fun _ x hx => ?_, ?_⟩
    · cases hx
    · cases hx
    · cases hx
    · cases hx
    · intro d m hd x hx
      rw [real?_withMark] at hx
      exact hd x hx
  refine h.forall_inside hleaves ?_ hr
  intro r r' d _ hatom x hx
  cases hatom with
  | @number c rest n first starts whole value =>
      cases n with
      | int n => cases hx
      | real y =>
          cases hx
          exact real_beq_self_of_number? value
  | minus => cases hx
  | symbol => cases hx
  | string => cases hx
  | boolean => cases hx

theorem isSymbolName_token {c : Char} {rest : List Char} (hr : r.AtDatum)
    (first : r.cursor.rest = c :: rest) (starts : startsSymbol c = true) :
    isSymbolName r.token = true := by
  simp only [startsSymbol, Bool.not_eq_true', Bool.or_eq_false_iff, decide_eq_false_iff_not,
    List.mem_cons, List.not_mem_nil, or_false, not_or] at starts
  obtain ⟨⟨hdelimiter, hdigit⟩, hopen, hquote, hstring, hhash, hminus⟩ := starts
  have htoken : r.token = c :: rest.takeWhile fun c => !isDelimiter c := by
    rw [token, first, List.takeWhile_cons, hdelimiter]
    rfl
  rw [htoken, isSymbolName_cons, ← htoken]
  refine ⟨?_, ?_, hdigit, fun h => absurd h hminus⟩
  · intro ch hch
    simpa using List.all_eq_true.mp List.all_takeWhile ch hch
  · have hcomment := (hr c rest first).2
    simp only [List.mem_cons, List.not_mem_nil, or_false, not_or]
    exact ⟨hopen, hquote, hstring, hhash, hcomment⟩

/-- Every symbol inside a datum that is read has a name that is read as a symbol. -/
theorem Yields.names (h : Yields room .form r d r') (hr : r.AtDatum) :
    ∀ s ∈ d.preorder, ∀ name, s.symbolName? = some name → isSymbolName name.toList = true := by
  have hleaves : OfLeaves fun s =>
      ∀ name, s.symbolName? = some name → isSymbolName name.toList = true := by
    refine ⟨fun _ _ _ x hx => ?_, fun _ x hx => ?_, fun _ _ x hx => ?_, fun _ x hx => ?_, ?_⟩
    · cases hx
    · cases hx
    · cases hx
    · cases hx
      decide
    · intro d m hd
      cases d <;> exact hd
  refine h.forall_inside hleaves ?_ hr
  intro r r' d hat hatom name hname
  cases hatom with
  | minus =>
      cases hname
      decide
  | symbol first starts =>
      cases hname
      rw [String.toList_ofList]
      exact isSymbolName_token hat first starts
  | number => cases hname
  | string => cases hname
  | boolean => cases hname

end Inside

end Reader
end SchemeMachine
