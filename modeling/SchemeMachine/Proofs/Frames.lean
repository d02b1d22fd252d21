import Mathlib.Data.List.Basic
import SchemeMachine.Machine.Basic

/-!
# Laws of frames

Frames form a tree that is shared and changed, so binding a name in one frame can be seen from many
others.  This module says what each operation on a store does to every lookup: which frame a name is
found in is told by the chain of parents, and an operation changes a lookup exactly when it changes
the frame in which the name is found.

Parents have smaller numbers than their children in every store that is built by the operations.
Chains of parents are therefore finite and meet no frame twice, which is what the laws rest on.
-/

namespace SchemeMachine

variable {C : Type}

/-! ## Bindings of one frame -/

namespace Bindings

theorem lookup_cons_eq (y x : String) (v : Value C) (rest : List (String × Value C)) :
    List.lookup y ((x, v) :: rest) = if y = x then some v else List.lookup y rest := by
  by_cases h : y = x
  · simp [h]
  · have hne : (y == x) = false := by simp [h]
    simp only [List.lookup_cons, hne, h, if_false]

theorem lookup_bind (bs : Bindings C) (x y : String) (v : Value C) :
    (bs.bind x v).lookup y = if y = x then some v else bs.lookup y := by
  induction bs with
  | nil => rw [bind, lookup_cons_eq]
  | cons b rest ih =>
      obtain ⟨z, w⟩ := b
      by_cases hz : z = x
      · subst hz
        simp only [bind, beq_self_eq_true, if_true, lookup_cons_eq]
        by_cases hy : y = z <;> simp only [hy, if_true, if_false]
      · simp only [bind, beq_iff_eq, hz, if_false, lookup_cons_eq, ih]
        by_cases hy : y = z
        · -- A name that is not bound anew is found where it was.
          have hyx : y ≠ x := fun h => hz (hy.symm.trans h)
          rw [if_pos hy, if_neg hyx, if_pos hy]
        · simp only [hy, if_false]

/-- Of all pairs with a name, the last one counts. -/
theorem lookup_foldl_bind (pairs : List (String × Value C)) (bs : Bindings C) (y : String) :
    (pairs.foldl (fun bs pair => bs.bind pair.1 pair.2) bs).lookup y =
      ((pairs.reverse.lookup y).or (bs.lookup y)) := by
  induction pairs generalizing bs with
  | nil => simp
  | cons pair rest ih =>
      obtain ⟨x, v⟩ := pair
      rw [List.foldl_cons, ih, List.reverse_cons, List.lookup_append, Option.or_assoc, lookup_bind,
        lookup_cons_eq]
      by_cases hy : y = x <;> simp [hy]

theorem lookup_ofPairs (pairs : List (String × Value C)) (y : String) :
    (ofPairs pairs).lookup y = pairs.reverse.lookup y := by
  rw [← Option.or_none (o := pairs.reverse.lookup y)]
  exact lookup_foldl_bind pairs [] y

end Bindings

namespace Store

/-! ## Where names are found -/

/-- The frame binds the name itself. -/
def Binds (s : Store C) (f : FrameId) (x : String) : Prop :=
  ((s.bindingsOf f).lookup x).isSome = true

instance (s : Store C) (f : FrameId) (x : String) : Decidable (s.Binds f x) :=
  inferInstanceAs (Decidable (_ = true))

/-- The frames from a frame outwards, up to the one that has no parent. -/
inductive Outward (s : Store C) : FrameId → List FrameId → Prop
  | root {f : FrameId} (outermost : s.parentOf f = none) : Outward s f [f]
  | inner {f parent : FrameId} {rest : List FrameId} (inside : s.parentOf f = some parent)
      (outward : Outward s parent rest) : Outward s f (f :: rest)

/-- The frame `f` is on the chain of `g`, and no frame nearer to `g` binds the name. -/
def Sees (s : Store C) (x : String) (g f : FrameId) : Prop :=
  ∃ nearer outer, s.chain g = nearer ++ f :: outer ∧ ∀ h ∈ nearer, ¬ s.Binds h x

/-- The frame `f` is the nearest to `g` that binds the name. -/
def Nearest (s : Store C) (x : String) (g f : FrameId) : Prop :=
  s.Sees x g f ∧ s.Binds f x

variable {s t : Store C} {f g : FrameId} {x y : String} {v : Value C}

theorem not_binds_iff : ¬ s.Binds f x ↔ (s.bindingsOf f).lookup x = none :=
  Option.not_isSome_iff_eq_none

/-- Only frames of the store bind names. -/
theorem Binds.isFrame (h : s.Binds f x) : f < s.frames.size := by
  by_contra hf
  rw [Binds, bindingsOf, Array.getElem?_eq_none (Nat.le_of_not_lt hf)] at h
  cases h

theorem binder?_eq_some_iff : s.binder? g x = some f ↔ s.Nearest x g f := by
  rw [binder?, List.find?_eq_some_iff_append]
  constructor
  · rintro ⟨hbinds, nearer, outer, hchain, hnearer⟩
    refine ⟨⟨nearer, outer, hchain, ?_⟩, hbinds⟩
    intro h hh
    rw [Binds, Bool.not_eq_true, ← Bool.not_eq_true']
    exact hnearer h hh
  · rintro ⟨⟨nearer, outer, hchain, hnearer⟩, hbinds⟩
    refine ⟨hbinds, nearer, outer, hchain, ?_⟩
    intro h hh
    rw [Bool.not_eq_true', ← Bool.not_eq_true]
    exact hnearer h hh

theorem Nearest.unique {f' : FrameId} (h : s.Nearest x g f) (h' : s.Nearest x g f') : f = f' := by
  rw [← binder?_eq_some_iff] at h h'
  exact Option.some.inj (h.symm.trans h')

theorem lookup?_eq_none_iff : s.lookup? g x = none ↔ s.binder? g x = none := by
  rw [lookup?, binder?, List.findSome?_eq_none_iff, List.find?_eq_none]
  simp only [Option.not_isSome_iff_eq_none]

/-- Stores that agree on some frames find the same in them. -/
theorem findSome?_congr {frames : List FrameId}
    (h : ∀ f ∈ frames, (t.bindingsOf f).lookup x = (s.bindingsOf f).lookup x) :
    frames.findSome? (fun f => (t.bindingsOf f).lookup x) =
      frames.findSome? (fun f => (s.bindingsOf f).lookup x) := by
  induction frames with
  | nil => rfl
  | cons f rest ih =>
      rw [List.findSome?_cons, List.findSome?_cons, h f List.mem_cons_self,
        ih fun f hf => h f (List.mem_cons_of_mem _ hf)]

theorem lookup?_congr (hchain : t.chain g = s.chain g)
    (h : ∀ f ∈ s.chain g, (t.bindingsOf f).lookup x = (s.bindingsOf f).lookup x) :
    t.lookup? g x = s.lookup? g x := by
  rw [lookup?, lookup?, hchain, findSome?_congr h]

theorem lookup_eq_ok_iff : s.lookup g x = .ok v ↔ s.lookup? g x = some v := by
  unfold lookup
  cases s.lookup? g x <;> simp

theorem lookup_eq_error_iff :
    s.lookup g x = .error (.unboundVariable x) ↔ s.lookup? g x = none := by
  unfold lookup
  cases s.lookup? g x <;> simp

theorem lookup_congr (h : t.lookup? g x = s.lookup? g x) : t.lookup g x = s.lookup g x := by
  rw [lookup, lookup, h]

/-! ## Chains of parents -/

/-- Every parent has a smaller number than its child. -/
def Founded (s : Store C) : Prop :=
  ∀ f parent : Nat, s.parentOf f = some parent → parent < f

/-- The bound on the length of a chain does not matter, once it exceeds the number of the frame. -/
theorem Founded.chainWithin_eq (hs : s.Founded) (bound f : Nat) (h : f < bound) :
    s.chainWithin bound f = s.chain f := by
  induction f using Nat.strongRecOn generalizing bound with
  | ind f ih =>
      obtain ⟨bound, rfl⟩ : ∃ k, bound = k + 1 := ⟨bound - 1, by omega⟩
      rw [chain, chainWithin, chainWithin]
      cases hparent : s.parentOf f with
      | none => rfl
      | some parent =>
          have hlt := hs f parent hparent
          simp only [ih parent hlt bound (by omega), ih parent hlt f hlt]

theorem chain_of_root (h : s.parentOf f = none) : s.chain f = [f] := by
  rw [chain, chainWithin, h]

theorem Founded.chain_of_parent (hs : s.Founded) {parent : FrameId}
    (h : s.parentOf f = some parent) : s.chain f = f :: s.chain parent := by
  rw [chain, chainWithin, h]
  simp only [hs.chainWithin_eq f parent (hs f parent h)]

/-- A chain goes from parent to parent up to an outermost frame, its numbers get smaller and
smaller. -/
theorem Founded.chain_spec (hs : s.Founded) (f : Nat) :
    s.Outward f (s.chain f) ∧ (s.chain f).Pairwise (· > ·) ∧ ∀ g : Nat, g ∈ s.chain f → g ≤ f := by
  induction f using Nat.strongRecOn with
  | ind f ih =>
      cases hparent : s.parentOf f with
      | none =>
          rw [chain_of_root hparent]
          exact ⟨.root hparent, List.pairwise_singleton _ f, by simp⟩
      | some parent =>
          have hlt := hs f parent hparent
          obtain ⟨houtward, hsorted, hle⟩ := ih parent hlt
          have hbelow : ∀ g : Nat, g ∈ s.chain parent → g < f := by
            intro g hg
            have := hle g hg
            omega
          rw [hs.chain_of_parent hparent]
          refine ⟨.inner hparent houtward, List.pairwise_cons.mpr ⟨hbelow, hsorted⟩, ?_⟩
          intro g hg
          rcases List.mem_cons.mp hg with rfl | hg
          · exact Nat.le_refl g
          · exact Nat.le_of_lt (hbelow g hg)

theorem Founded.nodup_chain (hs : s.Founded) (f : FrameId) : (s.chain f).Nodup :=
  (hs.chain_spec f).2.1.imp fun h => Nat.ne_of_gt h

/-- No frame is nearer to `g` than itself. -/
theorem Founded.not_mem_nearer (hs : s.Founded) {nearer outer : List FrameId}
    (h : s.chain g = nearer ++ f :: outer) : f ∉ nearer := by
  have hnodup := hs.nodup_chain g
  rw [h, List.nodup_append] at hnodup
  intro hf
  exact hnodup.2.2 f hf f List.mem_cons_self rfl

/-- Chains depend on the parents alone. -/
theorem chain_congr (h : ∀ f, t.parentOf f = s.parentOf f) (g : FrameId) :
    t.chain g = s.chain g := by
  have hwithin : ∀ bound f, t.chainWithin bound f = s.chainWithin bound f := by
    intro bound
    induction bound with
    | zero => exact fun _ => rfl
    | succ bound ih =>
        intro f
        rw [chainWithin, chainWithin, h f]
        cases s.parentOf f with
        | none => rfl
        | some parent => simp only [ih parent]
  exact hwithin (g + 1) g

/-! ## Binding names -/

theorem parentOf_define (s : Store C) (f g : FrameId) (x : String) (v : Value C) :
    (s.define f x v).parentOf g = s.parentOf g := by
  unfold parentOf define
  rw [Array.getElem?_modify]
  split
  · cases s.frames[g]? <;> rfl
  · rfl

theorem chain_define (s : Store C) (f g : FrameId) (x : String) (v : Value C) :
    (s.define f x v).chain g = s.chain g :=
  chain_congr (fun h => parentOf_define s f h x v) g

theorem bindingsOf_define_of_ne (h : g ≠ f) : (s.define f x v).bindingsOf g = s.bindingsOf g := by
  simp only [bindingsOf, define, Array.getElem?_modify, if_neg h.symm]

theorem bindingsOf_define_self (h : f < s.frames.size) :
    (s.define f x v).bindingsOf f = (s.bindingsOf f).bind x v := by
  simp only [bindingsOf, define, Array.getElem?_modify, if_pos, Array.getElem?_eq_getElem h,
    Option.map_some]

/-- A name other than the one that is bound is where it was. -/
theorem lookup_bindingsOf_define_of_ne (h : y ≠ x) :
    ((s.define f x v).bindingsOf g).lookup y = (s.bindingsOf g).lookup y := by
  by_cases hg : g = f
  · subst hg
    by_cases hframe : g < s.frames.size
    · rw [bindingsOf_define_self hframe, Bindings.lookup_bind, if_neg h]
    · simp only [bindingsOf, define, Array.getElem?_modify, if_pos,
        Array.getElem?_eq_none (Nat.le_of_not_lt hframe), Option.map_none]
  · rw [bindingsOf_define_of_ne hg]

/-- A frame from which the name is looked up in `f` finds the new value. -/
theorem Founded.lookup?_define_of_sees (hs : s.Founded) (hf : f < s.frames.size)
    (h : s.Sees x g f) : (s.define f x v).lookup? g x = some v := by
  obtain ⟨nearer, outer, hchain, hnearer⟩ := h
  rw [lookup?, List.findSome?_eq_some_iff]
  refine ⟨nearer, f, outer, (chain_define s f g x v).trans hchain, ?_, ?_⟩
  · rw [bindingsOf_define_self hf, Bindings.lookup_bind, if_pos rfl]
  · intro h hh
    have hne : h ≠ f := by
      rintro rfl
      exact hs.not_mem_nearer hchain hh
    rw [bindingsOf_define_of_ne hne]
    exact not_binds_iff.mp (hnearer h hh)

/-- A frame from which the name is looked up elsewhere finds what it found before. -/
theorem lookup?_define_of_not_sees (h : ¬ s.Sees x g f) :
    (s.define f x v).lookup? g x = s.lookup? g x := by
  by_cases hf : f ∈ s.chain g
  · obtain ⟨nearer, outer, hchain, hfirst⟩ := List.eq_append_cons_of_mem hf
    -- Some frame nearer than `f` binds the name; the nearest of these is not affected.
    have hbound : ∃ h ∈ nearer, s.Binds h x := by
      by_contra hnone
      apply h
      refine ⟨nearer, outer, hchain, ?_⟩
      intro h hh hbinds
      exact hnone ⟨h, hh, hbinds⟩
    have hsame : ∀ h ∈ nearer,
        ((s.define f x v).bindingsOf h).lookup x = (s.bindingsOf h).lookup x := by
      intro h hh
      have hne : h ≠ f := by
        rintro rfl
        exact hfirst hh
      rw [bindingsOf_define_of_ne hne]
    have hfound : (nearer.findSome? fun h => (s.bindingsOf h).lookup x).isSome = true := by
      rw [List.findSome?_isSome_iff]
      exact hbound
    rw [lookup?, lookup?, chain_define, hchain, List.findSome?_append, List.findSome?_append,
      findSome?_congr hsame]
    generalize List.findSome? (fun h => (s.bindingsOf h).lookup x) nearer = found at hfound ⊢
    cases found with
    | none => cases hfound
    | some w => rfl
  · apply lookup?_congr (chain_define s f g x v)
    intro h hh
    have hne : h ≠ f := by
      rintro rfl
      exact hf hh
    rw [bindingsOf_define_of_ne hne]

theorem lookup?_define_of_ne (h : y ≠ x) : (s.define f x v).lookup? g y = s.lookup? g y :=
  lookup?_congr (chain_define s f g x v) fun _ _ => lookup_bindingsOf_define_of_ne h

/-- Binding a name changes the lookups of that name which end in that frame, and no others. -/
theorem Founded.lookup_define (hs : s.Founded) (hf : f < s.frames.size) (x : String) (v : Value C)
    (g : FrameId) (y : String) :
    (y = x ∧ s.Sees x g f → (s.define f x v).lookup g y = .ok v) ∧
      (¬ (y = x ∧ s.Sees x g f) → (s.define f x v).lookup g y = s.lookup g y) := by
  constructor
  · rintro ⟨rfl, hsees⟩
    exact lookup_eq_ok_iff.mpr (hs.lookup?_define_of_sees hf hsees)
  · intro h
    apply lookup_congr
    by_cases hy : y = x
    · subst hy
      exact lookup?_define_of_not_sees fun hsees => h ⟨rfl, hsees⟩
    · exact lookup?_define_of_ne hy

/-! ## Overwriting bindings -/

theorem assign?_eq_some_iff :
    s.assign? f x v = some t ↔ ∃ h, s.Nearest x f h ∧ t = s.define h x v := by
  unfold assign?
  cases hbinder : s.binder? f x with
  | none =>
      simp only [reduceCtorEq, false_iff, not_exists, not_and]
      intro h hnearest
      rw [binder?_eq_some_iff.mpr hnearest] at hbinder
      cases hbinder
  | some h =>
      have hnearest := binder?_eq_some_iff.mp hbinder
      constructor
      · rintro ⟨⟩
        exact ⟨h, hnearest, rfl⟩
      · rintro ⟨h', hnearest', rfl⟩
        rw [hnearest.unique hnearest']

/-- Overwriting a binding changes the lookups that end in the same frame, and no others. -/
theorem Founded.lookup_assign (hs : s.Founded) (h : s.assign? f x v = some t) (g : FrameId)
    (y : String) :
    ((y = x ∧ ∃ n, s.Nearest x f n ∧ s.Nearest x g n) → t.lookup g y = .ok v) ∧
      (¬ (y = x ∧ ∃ n, s.Nearest x f n ∧ s.Nearest x g n) → t.lookup g y = s.lookup g y) := by
  obtain ⟨n, hn, rfl⟩ := assign?_eq_some_iff.mp h
  have hlaw := hs.lookup_define hn.2.isFrame x v g y
  constructor
  · rintro ⟨rfl, n', hn', hg⟩
    obtain rfl := hn.unique hn'
    exact hlaw.1 ⟨rfl, hg.1⟩
  · intro hother
    apply hlaw.2
    rintro ⟨hy, hsees⟩
    exact hother ⟨hy, n, hn, hsees, hn.2⟩

/-- Overwriting a binding neither adds nor removes a name. -/
theorem binds_assign_iff (h : s.assign? f x v = some t) : t.Binds g y ↔ s.Binds g y := by
  obtain ⟨n, hn, rfl⟩ := assign?_eq_some_iff.mp h
  by_cases hg : g = n
  · subst hg
    unfold Binds
    rw [bindingsOf_define_self hn.2.isFrame, Bindings.lookup_bind]
    by_cases hy : y = x
    · subst hy
      simp only [if_true, Option.isSome_some, true_iff]
      exact hn.2
    · rw [if_neg hy]
  · rw [Binds, Binds, bindingsOf_define_of_ne hg]

theorem assign?_eq_none_iff :
    s.assign? f x v = none ↔ s.lookup f x = .error (.unboundVariable x) := by
  rw [lookup_eq_error_iff, lookup?_eq_none_iff, assign?]
  cases s.binder? f x <;> simp

/-- On a machine an assignment that fails says that the variable is unbound and changes nothing. -/
theorem perform_set_error_iff [BEq C] {L : Type} (ref : L → C) {m : Machine C}
    (hm : m.registers.env = .environment f) :
    Machine.perform ref (.set x) m = .error (.unboundVariable x) m ↔
      m.store.lookup f x = .error (.unboundVariable x) := by
  obtain ⟨maxSteps, rs, stack, store, stats⟩ := m
  have hframe : rs.frame = .ok f := by
    simp only at hm
    rw [Registers.frame, hm]
  rw [lookup_eq_error_iff, lookup?_eq_none_iff]
  simp only [Machine.perform, hframe]
  cases store.binder? f x <;> simp

/-! ## New frames -/

theorem parentOf_push_of_lt (frame : Frame C) (h : g < s.frames.size) :
    (s.push frame).2.parentOf g = s.parentOf g := by
  simp only [parentOf, push, Array.getElem?_push, if_neg (Nat.ne_of_lt h)]

theorem parentOf_push_self (frame : Frame C) :
    (s.push frame).2.parentOf s.frames.size = frame.parent := by
  simp [parentOf, push]

theorem parentOf_eq_none_of_ge (h : s.frames.size ≤ g) : s.parentOf g = none := by
  rw [parentOf, Array.getElem?_eq_none h]
  rfl

theorem bindingsOf_push_of_lt (frame : Frame C) (h : g < s.frames.size) :
    (s.push frame).2.bindingsOf g = s.bindingsOf g := by
  simp only [bindingsOf, push, Array.getElem?_push, if_neg (Nat.ne_of_lt h)]

/-- A frame whose parent is there already keeps the store founded. -/
theorem Founded.push (hs : s.Founded) {frame : Frame C}
    (hparent : ∀ parent, frame.parent = some parent → parent < s.frames.size) :
    (s.push frame).2.Founded := by
  intro g parent hg
  -- Only the new frame has a new parent, and nothing comes behind it.
  rcases Nat.lt_trichotomy g s.frames.size with hlt | rfl | hgt
  · rw [parentOf_push_of_lt frame hlt] at hg
    exact hs g parent hg
  · rw [parentOf_push_self] at hg
    exact hparent parent hg
  · have hsize : (s.push frame).2.frames.size ≤ g := by
      rw [Store.push, Array.size_push]
      exact hgt
    rw [parentOf_eq_none_of_ge hsize] at hg
    cases hg

/-- A new frame is on no chain that was there before. -/
theorem Founded.chain_push (hs : s.Founded) (frame : Frame C) (h : g < s.frames.size) :
    (s.push frame).2.chain g = s.chain g := by
  have hwithin : ∀ bound f : Nat, f < s.frames.size →
      (s.push frame).2.chainWithin bound f = s.chainWithin bound f := by
    intro bound
    induction bound with
    | zero => exact fun _ _ => rfl
    | succ bound ih =>
        intro f hf
        rw [chainWithin, chainWithin, parentOf_push_of_lt frame hf]
        cases hparent : s.parentOf f with
        | none => rfl
        | some parent =>
            have hlt := hs f parent hparent
            simp only [ih parent (Nat.lt_trans hlt hf)]
  exact hwithin (g + 1) g h

theorem Founded.lookup_push (hs : s.Founded) (frame : Frame C) (h : g < s.frames.size)
    (y : String) : (s.push frame).2.lookup g y = s.lookup g y := by
  apply lookup_congr
  apply lookup?_congr (hs.chain_push frame h)
  intro f hf
  have hle := (hs.chain_spec g).2.2 f hf
  rw [bindingsOf_push_of_lt frame (Nat.lt_of_le_of_lt hle h)]

/-- From a new frame, a name that it does not bind is looked up in its parent. -/
theorem Founded.lookup?_push_self (hs : s.Founded) {frame : Frame C} {parent : FrameId}
    (hparent : frame.parent = some parent) (hframe : parent < s.frames.size) (y : String) :
    (s.push frame).2.lookup? s.frames.size y =
      (frame.bindings.lookup y).or (s.lookup? parent y) := by
  have hfounded : (s.push frame).2.Founded := by
    apply hs.push
    intro p hp
    rw [hparent] at hp
    cases hp
    exact hframe
  have hchain : (s.push frame).2.chain s.frames.size = s.frames.size :: s.chain parent := by
    rw [hfounded.chain_of_parent (by rw [parentOf_push_self, hparent]), hs.chain_push frame hframe]
  have houter : (s.push frame).2.lookup? parent y = s.lookup? parent y := by
    apply lookup?_congr (hs.chain_push frame hframe)
    intro f hf
    have hle := (hs.chain_spec parent).2.2 f hf
    rw [bindingsOf_push_of_lt frame (Nat.lt_of_le_of_lt hle hframe)]
  have hself : (s.push frame).2.bindingsOf s.frames.size = frame.bindings := by
    simp [bindingsOf, Store.push]
  rw [← houter, lookup?, hchain, List.findSome?_cons, hself, lookup?, hs.chain_push frame hframe]
  cases frame.bindings.lookup y <;> rfl

end Store

/-- A proper list and its elements. -/
inductive Value.IsList : Value C → List (Value C) → Prop
  | empty : IsList .empty []
  | pair (tag : Tag) (a : Value C) {d : Value C} {rest : List (Value C)} (tail : IsList d rest) :
      IsList (.pair tag a d) (a :: rest)

theorem Value.items?_eq_some_iff {v : Value C} {values : List (Value C)} :
    v.items? = some values ↔ v.IsList values := by
  constructor
  · intro h
    fun_induction Value.items? v generalizing values with
    | case1 =>
        cases h
        exact .empty
    | case2 tag a d ih =>
        obtain ⟨rest, hrest, rfl⟩ := Option.map_eq_some_iff.mp h
        exact .pair tag a (ih hrest)
    | case3 => cases h
  · intro h
    induction h with
    | empty => rfl
    | pair tag a tail ih => rw [Value.items?, ih, Option.map_some]

namespace Store

variable {s t : Store C} {f g : FrameId}

/-- Arguments make a new frame exactly when they are a list of as many elements as there are
formals. -/
theorem extend_eq_ok_iff {parent : FrameId} {formals : List String} {arguments : Value C} :
    s.extend parent formals arguments = .ok g t ↔
      ∃ values, arguments.IsList values ∧ values.length = formals.length ∧
        g = s.frames.size ∧ t = (s.push ⟨.ofPairs (formals.zip values), some parent⟩).2 := by
  unfold extend
  cases hitems : arguments.items? with
  | none =>
      simp only [reduceCtorEq, false_iff, not_exists, not_and]
      intro values hlist
      rw [Value.items?_eq_some_iff.mpr hlist] at hitems
      cases hitems
  | some values =>
      have hlist := Value.items?_eq_some_iff.mp hitems
      constructor
      · intro h
        simp only at h
        split at h
        next hlength =>
          cases h
          exact ⟨values, hlist, hlength, rfl, rfl⟩
        next => cases h
      · rintro ⟨values', hlist', hlength, rfl, rfl⟩
        obtain rfl : values' = values := by
          rw [← Value.items?_eq_some_iff, hitems] at hlist'
          exact (Option.some.inj hlist').symm
        simp only [hlength, if_true]
        rfl

/-- A failed extension changes nothing. -/
theorem eq_of_extend_error {parent : FrameId} {formals : List String} {arguments : Value C}
    {e : RunError C} (h : s.extend parent formals arguments = .error e t) : t = s := by
  unfold extend at h
  split at h
  · cases h
    rfl
  · split at h
    · cases h
    · cases h
      rfl

/-- A name stands for the value beside its last occurrence. -/
theorem lookup_reverse_zip {names : List String} {values : List (Value C)} {i : Nat} {y : String}
    {v : Value C} (hname : names[i]? = some y) (hvalue : values[i]? = some v)
    (hlast : ∀ j, i < j → names[j]? ≠ some y) :
    ((names.zip values).reverse).lookup y = some v := by
  induction names generalizing values i with
  | nil => cases hname
  | cons name names ih =>
      cases values with
      | nil => cases hvalue
      | cons value values =>
          rw [List.zip_cons_cons, List.reverse_cons, List.lookup_append]
          cases i with
          | zero =>
              obtain rfl : name = y := Option.some.inj hname
              obtain rfl : value = v := Option.some.inj hvalue
              -- The name occurs nowhere further on, so it is found at the front.
              have hnone : ((names.zip values).reverse).lookup name = none := by
                rw [List.lookup_eq_none_iff]
                rintro ⟨z, w⟩ hmem
                have hz := (List.of_mem_zip (List.mem_reverse.mp hmem)).1
                obtain ⟨j, hj⟩ := List.mem_iff_getElem?.mp hz
                have hne := hlast (j + 1) (Nat.succ_pos j)
                rw [List.getElem?_cons_succ, hj] at hne
                exact bne_iff_ne.mpr fun h => hne (congrArg some h.symm)
              simp [hnone]
          | succ i =>
              rw [ih hname hvalue fun j hj => hlast (j + 1) (Nat.succ_lt_succ hj)]
              rfl

theorem lookup_reverse_zip_eq_none {names : List String} {values : List (Value C)} {y : String}
    (h : y ∉ names) : ((names.zip values).reverse).lookup y = none := by
  rw [List.lookup_eq_none_iff]
  rintro ⟨z, w⟩ hmem
  have hz := (List.of_mem_zip (List.mem_reverse.mp hmem)).1
  have hne : y ≠ z := by
    rintro rfl
    exact h hz
  simp [hne]

/-- In a new frame a formal has its argument, that of its last occurrence if it is repeated, and any
other name is what it is in the parent. -/
theorem Founded.lookup_extend (hs : s.Founded) {parent : FrameId} (hparent : parent < s.frames.size)
    {formals : List String} {arguments : Value C} {values : List (Value C)}
    (hvalues : arguments.IsList values) (h : s.extend parent formals arguments = .ok g t) :
    (∀ (i : Nat) y v, formals[i]? = some y → values[i]? = some v →
      (∀ j, i < j → formals[j]? ≠ some y) → t.lookup g y = .ok v) ∧
    ∀ y, y ∉ formals → t.lookup g y = s.lookup parent y := by
  obtain ⟨values', hvalues', -, rfl, rfl⟩ := extend_eq_ok_iff.mp h
  obtain rfl : values' = values := by
    rw [← Value.items?_eq_some_iff] at hvalues hvalues'
    exact Option.some.inj (hvalues'.symm.trans hvalues)
  have hframe : (⟨.ofPairs (formals.zip values'), some parent⟩ : Frame C).parent = some parent :=
    rfl
  have hself := hs.lookup?_push_self hframe hparent
  constructor
  · intro i y v hname hvalue hlast
    rw [lookup_eq_ok_iff, hself, Bindings.lookup_ofPairs, lookup_reverse_zip hname hvalue hlast]
    rfl
  · intro y hy
    rw [lookup, lookup, hself, Bindings.lookup_ofPairs, lookup_reverse_zip_eq_none hy,
      Option.none_or]

/-! ## Stores that are built -/

/-- Stores that come about by making frames, binding names and overwriting bindings; values may
take tags in between. -/
inductive Built : Store C → Prop
  | empty : Built .empty
  | newRoot {s : Store C} (built : Built s) : Built s.newRoot.2
  | extend {s t : Store C} {parent g : FrameId} {formals : List String} {arguments : Value C}
      (built : Built s) (frame : parent < s.frames.size)
      (extended : s.extend parent formals arguments = .ok g t) : Built t
  | define {s : Store C} (built : Built s) {f : FrameId} (frame : f < s.frames.size) (x : String)
      (v : Value C) : Built (s.define f x v)
  | assign {s t : Store C} {f : FrameId} {x : String} {v : Value C} (built : Built s)
      (assigned : s.assign? f x v = some t) : Built t
  | make {s : Store C} (built : Built s) (build : Tag → Value C × Tag) : Built (s.make build).2

theorem Founded.define (hs : s.Founded) (f : FrameId) (x : String) (v : Value C) :
    (s.define f x v).Founded := by
  intro g parent hg
  rw [parentOf_define] at hg
  exact hs g parent hg

/-- Every operation keeps the store founded. -/
theorem Built.founded (h : s.Built) : s.Founded := by
  induction h with
  | empty =>
      intro f parent hf
      rw [parentOf_eq_none_of_ge (Nat.zero_le f)] at hf
      cases hf
  | newRoot _ ih =>
      apply ih.push
      intro parent hparent
      cases hparent
  | extend _ frame extended ih =>
      obtain ⟨values, -, -, -, rfl⟩ := extend_eq_ok_iff.mp extended
      apply ih.push
      rintro _ ⟨⟩
      exact frame
  | define _ _ x v ih => exact ih.define _ x v
  | assign _ assigned ih =>
      obtain ⟨n, -, rfl⟩ := assign?_eq_some_iff.mp assigned
      exact ih.define n _ _
  | make _ _ ih => exact ih

/-- The laws of frames, in every store that is built by the operations: chains of parents end and
meet no frame twice; binding and overwriting change exactly the lookups that end in the frame they
change; overwriting fails exactly where looking up does; and a new frame binds its formals, sees its
parent and changes nothing else. -/
theorem built_frames_lawful [BEq C] (hs : s.Built) :
    (∀ f < s.frames.size, s.Outward f (s.chain f) ∧ (s.chain f).Nodup) ∧
    (∀ f < s.frames.size, ∀ x v, ∀ g < s.frames.size, ∀ y,
      (y = x ∧ s.Sees x g f → (s.define f x v).lookup g y = .ok v) ∧
      (¬ (y = x ∧ s.Sees x g f) → (s.define f x v).lookup g y = s.lookup g y)) ∧
    (∀ f < s.frames.size, ∀ x v t, s.assign? f x v = some t →
      (∀ g < s.frames.size, ∀ y,
        ((y = x ∧ ∃ n, s.Nearest x f n ∧ s.Nearest x g n) → t.lookup g y = .ok v) ∧
        (¬ (y = x ∧ ∃ n, s.Nearest x f n ∧ s.Nearest x g n) → t.lookup g y = s.lookup g y)) ∧
      ∀ g y, t.Binds g y ↔ s.Binds g y) ∧
    (∀ f < s.frames.size, ∀ x,
      (∀ v, s.assign? f x v = none ↔ s.lookup f x = .error (.unboundVariable x)) ∧
      ∀ {L : Type} (ref : L → C) (m : Machine C), m.store = s →
        m.registers.env = .environment f →
        (Machine.perform ref (.set x) m = .error (.unboundVariable x) m ↔
          s.lookup f x = .error (.unboundVariable x))) ∧
    ∀ f < s.frames.size, ∀ formals arguments,
      ((∃ g t, s.extend f formals arguments = .ok g t) ↔
        ∃ values, arguments.IsList values ∧ values.length = formals.length) ∧
      (∀ e t, s.extend f formals arguments = .error e t → t = s) ∧
      ∀ g t values, s.extend f formals arguments = .ok g t → arguments.IsList values →
        g = s.frames.size ∧ (∀ h < s.frames.size, ∀ y, t.lookup h y = s.lookup h y) ∧
        (∀ (i : Nat) y v, formals[i]? = some y → values[i]? = some v →
          (∀ j, i < j → formals[j]? ≠ some y) → t.lookup g y = .ok v) ∧
        ∀ y, y ∉ formals → t.lookup g y = s.lookup f y := by
  have hfounded := hs.founded
  refine ⟨?chains, ?define, ?assign, ?failure, ?extend⟩
  case chains =>
    intro f _
    exact ⟨(hfounded.chain_spec f).1, hfounded.nodup_chain f⟩
  case define =>
    intro f hf x v g _ y
    exact hfounded.lookup_define hf x v g y
  case assign =>
    intro f _ x v t h
    exact ⟨fun g _ y => hfounded.lookup_assign h g y, fun g y => binds_assign_iff h⟩
  case failure =>
    intro f _ x
    constructor
    · exact fun v => assign?_eq_none_iff
    · rintro L ref m rfl henv
      exact perform_set_error_iff ref henv
  case extend =>
    intro f hf formals arguments
    refine ⟨?_, fun e t h => eq_of_extend_error h, ?_⟩
    · constructor
      · rintro ⟨g, t, h⟩
        obtain ⟨values, hlist, hlength, -, -⟩ := extend_eq_ok_iff.mp h
        exact ⟨values, hlist, hlength⟩
      · rintro ⟨values, hlist, hlength⟩
        exact ⟨_, _, extend_eq_ok_iff.mpr ⟨values, hlist, hlength, rfl, rfl⟩⟩
    · intro g t values h hvalues
      obtain ⟨hformals, hothers⟩ := hfounded.lookup_extend hf hvalues h
      obtain ⟨_, -, -, hg, ht⟩ := extend_eq_ok_iff.mp h
      refine ⟨hg, ?_, hformals, hothers⟩
      intro k hk y
      rw [ht]
      exact hfounded.lookup_push _ hk y

/-- A frame with a repeated formal inside the outermost one.  What the outer frame binds is seen
from the inner one, unless the inner one binds the name itself. -/
theorem repeated_formal_lawful :
    ∃ s : Store, s.Built ∧ s.frames.size = 2 ∧ s.lookup 1 "x" = .ok (.boolean false) ∧
      (s.define 0 "a" .empty).lookup 1 "a" = .ok .empty ∧
      (s.define 0 "x" .empty).lookup 1 "x" = s.lookup 1 "x" := by
  let outer : Store := Store.empty.newRoot.2.define 0 "a" (.boolean true)
  let arguments : Value := .pair 0 (.boolean true) (.pair 1 (.boolean false) .empty)
  let s : Store :=
    (outer.push ⟨.ofPairs [("x", .boolean true), ("x", .boolean false)], some 0⟩).2
  have houter : outer.Built := .define (.newRoot .empty) (by decide) "a" _
  have hextend : outer.extend 0 ["x", "x"] arguments = .ok 1 s := rfl
  have hlist : arguments.IsList [.boolean true, .boolean false] := .pair 0 _ (.pair 1 _ .empty)
  have hs : s.Built := .extend houter (by decide) hextend
  have hchain : s.chain 1 = [1, 0] := by decide
  have hsees : s.Sees "a" 1 0 := by
    refine ⟨[1], [], hchain, ?_⟩
    rw [List.forall_mem_singleton]
    decide
  have hhidden : ¬ s.Sees "x" 1 0 := by
    rintro ⟨nearer, rest, hsplit, hnearer⟩
    rw [hchain] at hsplit
    cases nearer with
    | nil => cases hsplit
    | cons f nearer =>
        obtain ⟨rfl, -⟩ := List.cons.inj hsplit
        exact hnearer 1 List.mem_cons_self (by decide)
  obtain ⟨-, -, -, -, hnew⟩ := built_frames_lawful houter
  obtain ⟨-, -, hformals, -⟩ := (hnew 0 (by decide) ["x", "x"] arguments).2.2 1 s _ hextend hlist
  obtain ⟨-, hdefine, -⟩ := built_frames_lawful hs
  refine ⟨s, hs, rfl, ?_, ?_, ?_⟩
  · apply hformals 1 "x" _ rfl rfl
    intro j hj
    obtain ⟨k, rfl⟩ : ∃ k, j = k + 2 := ⟨j - 2, by omega⟩
    simp
  · exact (hdefine 0 (by decide) "a" .empty 1 (by decide) "a").1 ⟨rfl, hsees⟩
  · exact (hdefine 0 (by decide) "x" .empty 1 (by decide) "x").2 fun h => hhidden h.2

end Store
end SchemeMachine
