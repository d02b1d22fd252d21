import SchemeMachine.Proofs.Reading.Composed

/-!
# Identity numbers of what is read

Numbers are given out in the order in which data are finished, and a list is finished from its right
end on: first the empty list there, then the pairs.  A datum therefore gets its number when all data
in it have theirs.

What has been read but is not yet part of anything is kept along as a row of data.  Making a new
datum of the first ones of the row keeps the numbers of the row apart from each other.
-/

namespace SchemeMachine

namespace Datum

/-- Data numbered between two bounds: all numbers in them differ, and that of a datum is greater
than those of the data in it. -/
structure Numbered (low high : Nat) (ds : List Datum) : Prop where
  bounds : ∀ s ∈ preorderAll ds, low < s.mark.id ∧ s.mark.id ≤ high
  distinct : ((preorderAll ds).map (·.mark.id)).Nodup
  descends : ∀ s ∈ preorderAll ds, ∀ t ∈ s.preorder.tail, t.mark.id < s.mark.id

theorem preorderAll_eq_flatMap (ds : List Datum) : preorderAll ds = ds.flatMap preorder := by
  induction ds with
  | nil => rw [preorderAll, List.flatMap_nil]
  | cons d ds ih => rw [preorderAll, ih, List.flatMap_cons]

theorem mem_preorderAll {ds : List Datum} {d s : Datum} (hd : d ∈ ds) (hs : s ∈ d.preorder) :
    s ∈ preorderAll ds := by
  rw [preorderAll_eq_flatMap]
  exact List.mem_flatMap.mpr ⟨d, hd, hs⟩

theorem preorder_withMark (m : Mark) (d : Datum) :
    (d.withMark m).preorder = d.withMark m :: d.preorder.tail := by
  cases d <;> simp only [withMark, preorder, List.tail_cons]

theorem preorder_eq_cons (d : Datum) : d.preorder = d :: d.preorder.tail := by
  cases d <;> simp only [preorder, List.tail_cons]

namespace Numbered

variable {low mid high last : Nat} {ds ds' others : List Datum}

theorem nil (low high : Nat) : Numbered low high [] := by
  have hnone : preorderAll [] = [] := by rw [preorderAll]
  refine ⟨?_, ?_, ?_⟩ <;> simp [hnone]

theorem perm (h : Numbered low high ds) (hperm : ds'.Perm ds) : Numbered low high ds' := by
  have hnodes : (preorderAll ds').Perm (preorderAll ds) := by
    rw [preorderAll_eq_flatMap, preorderAll_eq_flatMap]
    exact hperm.flatMap_right preorder
  refine ⟨fun s hs => h.bounds s (hnodes.subset hs), ?_,
    fun s hs => h.descends s (hnodes.subset hs)⟩
  exact (hnodes.map _).nodup_iff.mpr h.distinct

/-- Data that are numbered later go with those numbered before. -/
theorem append (h : Numbered mid high ds) (h' : Numbered low mid ds') (hlow : low ≤ mid)
    (hhigh : mid ≤ high) : Numbered low high (ds ++ ds') := by
  refine ⟨?_, ?_, ?_⟩
  · intro s hs
    rw [preorderAll_append, List.mem_append] at hs
    rcases hs with hs | hs
    · exact ⟨Nat.lt_of_le_of_lt hlow (h.bounds s hs).1, (h.bounds s hs).2⟩
    · exact ⟨(h'.bounds s hs).1, Nat.le_trans (h'.bounds s hs).2 hhigh⟩
  · rw [preorderAll_append, List.map_append, List.nodup_append]
    refine ⟨h.distinct, h'.distinct, ?_⟩
    intro i hi j hj
    obtain ⟨s, hs, rfl⟩ := List.mem_map.mp hi
    obtain ⟨t, ht, rfl⟩ := List.mem_map.mp hj
    have hlate := (h.bounds s hs).1
    have hearly := (h'.bounds t ht).2
    omega
  · intro s hs
    rw [preorderAll_append, List.mem_append] at hs
    exact hs.elim (h.descends s) (h'.descends s)

/-- A new datum takes the next number, once the data in it have theirs. -/
theorem node {d : Datum} (parts : List Datum) (hparts : d.preorder = d :: preorderAll parts)
    (hid : d.mark.id = last + 1) (hlow : low ≤ last) (h : Numbered low last (parts ++ others)) :
    Numbered low (last + 1) (d :: others) := by
  have hnodes : preorderAll (d :: others) = d :: preorderAll (parts ++ others) := by
    rw [preorderAll, hparts, List.cons_append, preorderAll_append]
  refine ⟨?_, ?_, ?_⟩
  · rw [hnodes]
    refine List.forall_mem_cons.mpr ⟨?_, ?_⟩
    · omega
    · exact fun s hs => ⟨(h.bounds s hs).1, Nat.le_succ_of_le (h.bounds s hs).2⟩
  · rw [hnodes, List.map_cons, List.nodup_cons]
    refine ⟨?_, h.distinct⟩
    intro hmem
    obtain ⟨s, hs, heq⟩ := List.mem_map.mp hmem
    have hle := (h.bounds s hs).2
    omega
  · rw [hnodes]
    refine List.forall_mem_cons.mpr ⟨?_, h.descends⟩
    intro t ht
    rw [hparts, List.tail_cons] at ht
    have hle := (h.bounds t (by rw [preorderAll_append]; exact List.mem_append_left _ ht)).2
    omega

/-- A span makes no difference. -/
theorem withSpan {d : Datum} (h : Numbered low high (d :: others)) (span : Option Span) :
    Numbered low high (d.withSpan span :: others) := by
  have hid : (d.withSpan span).mark.id = d.mark.id := by
    cases d <;> rfl
  have hbefore : preorderAll (d :: others) = d :: (d.preorder.tail ++ preorderAll others) := by
    rw [preorderAll, preorder_eq_cons, List.cons_append, List.tail_cons]
  have hafter : preorderAll (d.withSpan span :: others) =
      d.withSpan span :: (d.preorder.tail ++ preorderAll others) := by
    rw [preorderAll, Datum.withSpan, preorder_withMark, List.cons_append]
  obtain ⟨hbounds, hdistinct, hdescends⟩ := h
  rw [hbefore] at hbounds hdistinct hdescends
  refine ⟨?_, ?_, ?_⟩ <;> rw [hafter]
  · rw [List.forall_mem_cons] at hbounds ⊢
    exact ⟨hid ▸ hbounds.1, hbounds.2⟩
  · rw [List.map_cons] at hdistinct ⊢
    rwa [hid]
  · rw [List.forall_mem_cons] at hdescends ⊢
    refine ⟨?_, hdescends.2⟩
    rw [hid, Datum.withSpan, preorder_withMark, List.tail_cons]
    exact hdescends.1

theorem pair {car cdr : Datum} (hlow : low ≤ last) (h : Numbered low last (car :: cdr :: others))
    (span : Option Span) : Numbered low (last + 1) (pair ⟨last + 1, span⟩ car cdr :: others) := by
  refine node [car, cdr] ?_ rfl hlow h
  rw [preorder, preorderAll, preorderAll, preorderAll, List.append_nil]

/-- The pairs of a list are made from the right, each of an element and what is already there. -/
theorem chain {items : List Datum} {tail : Datum} (hlow : low ≤ last)
    (h : Numbered low last (items ++ tail :: others)) :
    Numbered low (chain items tail last).2 ((chain items tail last).1 :: others) := by
  induction items generalizing others with
  | nil => exact h
  | cons item items ih =>
      have hperm : (items ++ tail :: item :: others).Perm (item :: items ++ tail :: others) := by
        simpa using @List.perm_middle _ item (items ++ [tail]) others
      have hrest := (ih (h.perm hperm)).perm (List.Perm.swap _ _ _)
      rw [chain_cons]
      exact hrest.pair (hlow.trans (le_chain items tail last)) none

/-- A datum with no data in it. -/
theorem leaf {d : Datum} (hleaf : d.preorder = [d]) (hid : d.mark.id = last + 1) (hlow : low ≤ last)
    (h : Numbered low last others) : Numbered low (last + 1) (d :: others) := by
  refine node [] ?_ hid hlow h
  rw [hleaf, preorderAll]

theorem vector {items : List Datum} (hlow : low ≤ last) (h : Numbered low last (items ++ others))
    (span : Option Span) : Numbered low (last + 1) (vector ⟨last + 1, span⟩ items :: others) :=
  node items (by rw [preorder]) rfl hlow h

theorem properList {items : List Datum} (hlow : low ≤ last)
    (h : Numbered low last (items ++ others)) :
    Numbered low (properList items last).2 ((properList items last).1 :: others) := by
  have hempty : Numbered low (last + 1) (empty ⟨last + 1, none⟩ :: (items ++ others)) :=
    leaf (by simp only [preorder]) rfl hlow h
  exact chain (Nat.le_succ_of_le hlow) (hempty.perm List.perm_middle)

theorem quotation {d : Datum} (hlow : low ≤ last) (h : Numbered low last (d :: others)) :
    Numbered low (d.quotation last).2 ((d.quotation last).1 :: others) :=
  properList (Nat.le_succ_of_le hlow) (leaf (by simp only [preorder]) rfl hlow h)

end Numbered
end Datum

namespace Reader

open Datum

variable {room : Nat} {task : Task} {r r' : Reader} {d : Datum} {low : Nat}

/-- The data that a task has read before. -/
def Task.before : Task → List Datum
  | form => []
  | list _ items => items
  | vector _ items => items

theorem Atom.id_eq (h : Atom r d r') : d.mark.id = r.lastId + 1 := by
  cases h <;> rfl

theorem lt_of_numbered {high : Nat} (h : Numbered low high [d]) : low < high := by
  have hself : d ∈ preorderAll [d] := mem_preorderAll List.mem_cons_self (mem_preorder_self d)
  exact Nat.lt_of_lt_of_le (h.bounds d hself).1 (h.bounds d hself).2

/-- A datum is numbered after what was read before it, and between the last number given out before
it and the last one when it is finished. -/
theorem Yields.numbered (h : Yields room task r d r') (hlow : low ≤ r.lastId)
    (hbefore : Numbered low r.lastId task.before) : Numbered low r'.lastId [d] := by
  induction h generalizing low with
  | atom atom =>
      rw [atom.lastId_eq]
      exact .leaf atom.preorder_eq atom.id_eq hlow (.nil _ _)
  | list _ _ ih => exact ih hlow (.nil _ _)
  | vector _ _ ih => exact ih hlow (.nil _ _)
  | quote _ _ _ ih =>
      have hquoted := ih hlow (.nil _ _)
      exact (Numbered.quotation (lt_of_numbered hquoted).le hquoted).withSpan _
  | nothing _ => exact .leaf (by simp only [preorder]) rfl hlow hbefore
  | @close room r start items rest some closes =>
      have hitems : Numbered low r.lastId (items.reverse ++ []) := by
        rw [List.append_nil]
        exact hbefore.perm items.reverse_perm
      exact (Numbered.properList hlow hitems).withSpan _
  | item next close dot _ _ ih₁ ih₂ =>
      have hitem := ih₁ (Nat.le_refl _) (.nil _ _)
      have hle := (lt_of_numbered hitem).le
      exact ih₂ (hlow.trans hle) (hitem.append hbefore hlow hle)
  | @dotted room r r₁ start items x rest rest' some next dot more _ closes ih =>
      have htail := ih (Nat.le_refl _) (.nil _ _)
      have hle := (lt_of_numbered htail).le
      have hitems : Numbered low r₁.lastId (items.reverse ++ [x]) :=
        (htail.append hbefore hlow hle).perm
          (List.perm_append_comm.trans (items.reverse_perm.append_left [x]))
      exact (Numbered.chain (hlow.trans hle) hitems).withSpan _
  | @closeVector room r start items rest closes =>
      have hitems : Numbered low r.lastId (items.reverse ++ []) := by
        rw [List.append_nil]
        exact hbefore.perm items.reverse_perm
      exact .vector hlow hitems _
  | vectorItem next close _ _ ih₁ ih₂ =>
      have hitem := ih₁ (Nat.le_refl _) (.nil _ _)
      have hle := (lt_of_numbered hitem).le
      exact ih₂ (hlow.trans hle) (hitem.append hbefore hlow hle)

end Reader
end SchemeMachine
