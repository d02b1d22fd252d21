import SchemeMachine.Proofs.Reading.Joined
import SchemeMachine.Proofs.Reading.Spans

/-!
# Reading is compositional

Two texts with a line end between them are read as the one and then the other.  The data of the
first come out unchanged, marks included.  Those of the second have moved by exactly what the first
takes up: its characters and the line end, its lines, and the numbers given out for it.

The reader gives out one number for each node of what it reads and none besides.  So the numbers
given out for a text are counted by the nodes of its data.
-/

namespace SchemeMachine

open Text

/-! ## Counting nodes -/

namespace Datum

theorem preorderAll_append (xs ys : List Datum) :
    preorderAll (xs ++ ys) = preorderAll xs ++ preorderAll ys := by
  induction xs with
  | nil => rw [preorderAll, List.nil_append, List.nil_append]
  | cons x xs ih => rw [List.cons_append, preorderAll, preorderAll, ih, List.append_assoc]

/-- How many nodes these data have. -/
def nodeCount (ds : List Datum) : Nat :=
  (preorderAll ds).length

theorem nodeCount_nil : nodeCount [] = 0 := by
  rw [nodeCount, preorderAll, List.length_nil]

theorem nodeCount_cons (d : Datum) (ds : List Datum) :
    nodeCount (d :: ds) = d.preorder.length + nodeCount ds := by
  rw [nodeCount, preorderAll, List.length_append, nodeCount]

theorem nodeCount_append (xs ys : List Datum) :
    nodeCount (xs ++ ys) = nodeCount xs + nodeCount ys := by
  rw [nodeCount, preorderAll_append, List.length_append, nodeCount, nodeCount]

theorem nodeCount_reverse (ds : List Datum) : nodeCount ds.reverse = nodeCount ds := by
  induction ds with
  | nil => rfl
  | cons d ds ih =>
      rw [List.reverse_cons, nodeCount_append, ih, nodeCount_cons, nodeCount_cons, nodeCount_nil]
      omega

theorem length_preorder_withSpan (d : Datum) (span : Option Span) :
    (d.withSpan span).preorder.length = d.preorder.length := by
  cases d <;> simp only [withSpan, withMark, preorder, List.length_cons, List.length_nil]

theorem chain_cons (item : Datum) (items : List Datum) (tail : Datum) (last : Nat) :
    chain (item :: items) tail last =
      (pair ⟨(chain items tail last).2 + 1, none⟩ item (chain items tail last).1,
        (chain items tail last).2 + 1) :=
  rfl

/-- Every pair of a chain is one more node and takes one more number. -/
theorem chain_counts (items : List Datum) (tail : Datum) (last : Nat) :
    (chain items tail last).2 = last + items.length ∧
      (chain items tail last).1.preorder.length =
        items.length + nodeCount items + tail.preorder.length := by
  induction items with
  | nil =>
      rw [nodeCount_nil]
      exact ⟨rfl, by simp [chain]⟩
  | cons item items ih =>
      obtain ⟨hlast, hnodes⟩ := ih
      rw [chain_cons, List.length_cons, nodeCount_cons, preorder, List.length_cons,
        List.length_append, hnodes, hlast]
      omega

theorem properList_counts (items : List Datum) (last : Nat) :
    (properList items last).2 = last + 1 + items.length ∧
      (properList items last).1.preorder.length = items.length + nodeCount items + 1 := by
  obtain ⟨hlast, hnodes⟩ := chain_counts items (empty ⟨last + 1, none⟩) (last + 1)
  have hempty : (empty ⟨last + 1, none⟩).preorder.length = 1 := by
    simp only [preorder, List.length_singleton]
  rw [hempty] at hnodes
  exact ⟨hlast, hnodes⟩

theorem quotation_counts (d : Datum) (last : Nat) :
    (d.quotation last).2 = last + 4 ∧
      (d.quotation last).1.preorder.length = d.preorder.length + 4 := by
  have hsymbol : (Datum.symbol ⟨last + 1, none⟩ "quote").preorder.length = 1 := by
    simp only [preorder, List.length_singleton]
  obtain ⟨hlast, hnodes⟩ := properList_counts [.symbol ⟨last + 1, none⟩ "quote", d] (last + 1)
  rw [nodeCount_cons, nodeCount_cons, nodeCount_nil, hsymbol] at hnodes
  refine ⟨hlast, hnodes.trans ?_⟩
  simp only [List.length_cons, List.length_nil]
  omega

end Datum

namespace Reader

open Datum

/-! ## Numbers given out -/

section Numbers

variable {room : Nat} {task : Task} {r r' : Reader} {d : Datum} {ds : List Datum}

/-- The nodes that a task has from before. -/
def Task.nodeCount : Task → Nat
  | form => 0
  | list _ items => Datum.nodeCount items
  | vector _ items => Datum.nodeCount items

theorem Atom.lastId_eq (h : Atom r d r') : r'.lastId = r.lastId + 1 := by
  cases h <;> rfl

/-- Each node of what is read takes one number. -/
theorem Yields.lastId_eq (h : Yields room task r d r') :
    r'.lastId + task.nodeCount = r.lastId + d.preorder.length := by
  induction h with
  | @atom room r r' d atom =>
      rw [atom.lastId_eq, atom.preorder_eq]
      rfl
  | list _ _ ih =>
      rw [Task.nodeCount, nodeCount_nil] at ih
      exact ih
  | vector _ _ ih =>
      rw [Task.nodeCount, nodeCount_nil] at ih
      exact ih
  | @quote room r r₁ d rest _ _ _ ih =>
      obtain ⟨hlast, hnodes⟩ := quotation_counts d r₁.lastId
      have hquoted : r₁.lastId + 0 = r.lastId + d.preorder.length := ih
      show (d.quotation r₁.lastId).2 + 0 = _
      rw [listed, length_preorder_withSpan, hlast, hnodes]
      omega
  | nothing _ =>
      rw [Task.nodeCount, nodeCount_nil]
      simp only [preorder]
      rfl
  | @close room r start items rest _ _ =>
      obtain ⟨hlast, hnodes⟩ := properList_counts items.reverse r.lastId
      show (properList items.reverse r.lastId).2 + Datum.nodeCount items = _
      rw [listed, length_preorder_withSpan]
      show _ = r.lastId + (properList items.reverse r.lastId).1.preorder.length
      rw [hlast, hnodes, nodeCount_reverse]
      omega
  | @item room r r₁ r₂ start items x d c rest _ _ _ _ _ ih₁ ih₂ =>
      have hitem : r₁.lastId + 0 = r.lastId + x.preorder.length := ih₁
      rw [Task.nodeCount, nodeCount_cons] at ih₂
      rw [Task.nodeCount]
      omega
  | @dotted room r r₁ start items x rest rest' _ _ _ _ _ _ ih =>
      obtain ⟨hlast, hnodes⟩ := chain_counts items.reverse x r₁.lastId
      have htail : r₁.lastId + 0 = r.lastId + x.preorder.length := ih
      show (chain items.reverse x r₁.lastId).2 + Datum.nodeCount items = _
      rw [listed, length_preorder_withSpan]
      show _ = r.lastId + (chain items.reverse x r₁.lastId).1.preorder.length
      rw [hlast, hnodes, nodeCount_reverse]
      omega
  | @closeVector room r start items rest _ =>
      show r.lastId + 1 + Datum.nodeCount items = _
      rw [preorder, List.length_cons, ← Datum.nodeCount, nodeCount_reverse]
      omega
  | @vectorItem room r r₁ r₂ start items x d c rest _ _ _ _ ih₁ ih₂ =>
      have hitem : r₁.lastId + 0 = r.lastId + x.preorder.length := ih₁
      rw [Task.nodeCount, nodeCount_cons] at ih₂
      rw [Task.nodeCount]
      omega

theorem YieldsAll.lastId_eq (h : YieldsAll r ds r') :
    r'.lastId = r.lastId + Datum.nodeCount ds := by
  induction h with
  | done _ =>
      rw [nodeCount_nil]
      rfl
  | @form r r₁ r₂ d ds _ first _ ih =>
      have hfirst : r₁.lastId + 0 = r.lastId + d.preorder.length := first.lastId_eq
      rw [ih, nodeCount_cons]
      omega

/-- A text that is read to its end has been passed as a whole. -/
theorem YieldsAll.passes (h : YieldsAll r ds r') : Passes r.cursor.rest r r' := by
  have hend : r'.cursor.rest = [] ∧ r.Onward r' := by
    induction h with
    | done ends => exact ⟨ends, onward_skipped _⟩
    | form _ first _ ih => exact ⟨ih.1, ((onward_skipped _).trans first.onward).trans ih.2⟩
  obtain ⟨hend, text, hpasses⟩ := hend
  have hall : r.cursor.rest = text := by rw [hpasses.rest, hend, List.append_nil]
  rw [hall]
  exact hpasses

/-- The reader that iteration leaves behind after at most `turns` turns. -/
def drained : Nat → Reader → Reader
  | 0, r => r
  | turns + 1, r => if r.next?.1.isNone then r.next?.2 else drained turns r.next?.2

/-- Iteration leaves the reader at the end of the text, if it is given turns enough. -/
theorem YieldsAll.drained_eq (h : YieldsAll r ds r') (hr : r.failed = false) {turns : Nat}
    (hturns : r.cursor.rest.length < turns) : r.drained turns = r' := by
  induction h generalizing turns with
  | @done r ends =>
      obtain ⟨turns, rfl⟩ := Nat.exists_eq_succ_of_ne_zero (Nat.ne_zero_of_lt hturns)
      rw [drained, next?_of_end hr ends]
      rfl
  | @form r r₁ r₂ d ds more first _ ih =>
      obtain ⟨turns, rfl⟩ := Nat.exists_eq_succ_of_ne_zero (Nat.ne_zero_of_lt hturns)
      have hless := first.consumes
      have hskip := length_skipped_le r
      rw [drained, next?_of_yields hr more first]
      exact ih (first.failed_eq.trans hr) (by omega)

end Numbers
end Reader

/-! ## Texts one below the other -/

namespace Datum

open Reader

/-- How many identity numbers are given out while a text is read. -/
def idsGiven (source : String) : Nat :=
  ((ofText source).drained (source.toList.length + 1)).lastId

theorem idsGiven_eq {source : String} {ds : List Datum} {r : Reader}
    (h : YieldsAll (ofText source) ds r) : idsGiven source = r.lastId :=
  congrArg Reader.lastId (h.drained_eq rfl (Nat.lt_succ_self _))

/-- The shift of the data of a text on the line below another. -/
def shiftBelow (source : String) : Shift :=
  ⟨source.toList.length + 1, source.toList.count '\n' + 1, idsGiven source⟩

theorem below_eq {source : String} {ds : List Datum} {r : Reader}
    (h : YieldsAll (ofText source) ds r) : r.below = shiftBelow source := by
  have hposition : r.cursor.position = Position.origin.afterAll source.toList := h.passes.position
  rw [Position.afterAll_origin] at hposition
  rw [below, shiftBelow, hposition, idsGiven_eq h, Nat.add_comm 1]

/-- What is read from two texts with a line end between them: the data of the first as they are, and
those of the second moved past the first.  One number is given out for each node. -/
theorem parse_composed {a b : String} {fa fb : List Datum} (ha : parse a = .ok fa)
    (hb : parse b = .ok fb) :
    parse (a ++ "\n" ++ b) = .ok (fa ++ fb.map (shiftBelow a).datum) ∧
      idsGiven a = nodeCount fa ∧ idsGiven (a ++ "\n" ++ b) = nodeCount fa + nodeCount fb := by
  obtain ⟨r₁, hall⟩ := parse_eq_ok_iff.mp ha
  obtain ⟨r₂, hall'⟩ := parse_eq_ok_iff.mp hb
  have hjoin := hall.join_below hall'
  have hfirst : r₁.lastId = 0 + nodeCount fa := hall.lastId_eq
  have hsecond : r₂.lastId = 0 + nodeCount fb := hall'.lastId_eq
  refine ⟨?_, ?_, ?_⟩
  · rw [← below_eq hall]
    exact parse_eq_ok_iff.mpr ⟨_, hjoin⟩
  · rw [idsGiven_eq hall]
    omega
  · rw [idsGiven_eq hjoin]
    show r₂.lastId + r₁.lastId = _
    omega

/-- A dotted list before a comment that is still open, and a quotation on the next line. -/
theorem comment_composed_with_quotation :
    ∃ fa fb, parse "(x\n. \"s\") ; (note" = .ok fa ∧ fa.length = 1 ∧
      parse "'y #(1)" = .ok fb ∧ fb.length = 2 ∧
      parse "(x\n. \"s\") ; (note\n'y #(1)" =
        .ok (fa ++ fb.map (Shift.datum ⟨18, 2, 3⟩)) := by
  have ha := parse_of_no_error (by decide +kernel : (readAll "(x\n. \"s\") ; (note").2 = none)
  have hb := parse_of_no_error (by decide +kernel : (readAll "'y #(1)").2 = none)
  refine ⟨_, _, ha, by decide +kernel, hb, by decide +kernel, ?_⟩
  have hids : idsGiven "(x\n. \"s\") ; (note" = 3 := by decide +kernel
  have hshift : shiftBelow "(x\n. \"s\") ; (note" = ⟨18, 2, 3⟩ := by
    rw [shiftBelow, hids]
    rfl
  rw [← hshift]
  exact (parse_composed ha hb).1

end Datum
end SchemeMachine
