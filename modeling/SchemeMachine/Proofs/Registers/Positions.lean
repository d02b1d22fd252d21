import SchemeMachine.Proofs.FlatCode
import SchemeMachine.Proofs.Scene

/-!
# Positions within one activation

Control alone does not tell where in its statements a run stands: two places that end in the same
jump look the same.  So positions are counted along.  Within one activation they go on as in
symbolic code, where a call comes back to where `kontinue` points; while procedures are under way
that the activation has called, its position stays where the call comes back to.

`Site.runTo` runs code from a position until control first comes to another one in the same
activation.
-/

namespace SchemeMachine

/-- Whether control always goes on to the next statement. -/
def Statement.runsOn : Statement → Bool
  | .perform (.branch _) | .jump _ => false
  | .perform _ | .label _ => true

namespace Site

/-- The position after the statement at a position, within one activation. -/
def onward (site : Site) (rs : Registers) (position : Nat) : Nat :=
  match site.statements[position]? with
  | some (.perform (.branch name)) =>
    if rs.flag.isTrue then Flat.place site.statements name else position + 1
  | some (.jump (.direct name)) => Flat.place site.statements name
  | some (.jump (.indirect _)) =>
    match rs.kontinue with
    | .label ref => (Flat.begins site.statements ref.block).getD position
    | _ => position
  | _ => position + 1

/-- The position after a scene of the outermost activation.  It stays while others are under way. -/
def follow (site : Site) (s : Scene) (position : Nat) : Nat :=
  if s.calls.activations.isEmpty then site.onward s.registers position else position

/-- Runs code that stands at a position, until control first comes to the position `stop` in the
same activation or the run is finished; nothing if that takes more than `fuel` steps. -/
def runTo (site : Site) (stop : Nat) : Nat → Scene → Nat → Option Stage
  | 0, _, _ => none
  | fuel + 1, s, position =>
    if s.calls.activations.isEmpty && position == stop then some (.running s)
    else
      match s.next with
      | .finished stack store outcome => some (.finished stack store outcome)
      | .running t => runTo site stop fuel t (site.follow s position)

variable {site : Site}

theorem follow_of_cons {s : Scene} {position : Nat} {a : Activation} {others : List Activation}
    (h : s.calls.activations = a :: others) : site.follow s position = position := by
  rw [follow, h]
  rfl

/-! ## Positions and what stands there -/

/-- The marker of a label is the first of its kind after statements without the label. -/
theorem findIdx_marks {pre : List Statement} {name : Label} (h : name ∉ Program.labels pre)
    (dest : List Statement) :
    (pre ++ .label name :: dest).findIdx (·.marks name) = pre.length := by
  induction pre with
  | nil =>
      have hmarks : (Statement.label name).marks name = true := beq_self_eq_true name
      rw [List.nil_append, List.findIdx_cons, hmarks, cond_true, List.length_nil]
  | cons statement pre ih =>
      have hmarks : statement.marks name = false ∧ name ∉ Program.labels pre := by
        cases statement with
        | label other =>
            simp only [Program.labels, List.mem_cons, not_or] at h
            exact ⟨beq_eq_false_iff_ne.mpr (Ne.symm h.1), h.2⟩
        | perform operation => exact ⟨rfl, h⟩
        | jump transfer => exact ⟨rfl, h⟩
      rw [List.cons_append, List.findIdx_cons, hmarks.1, cond_false, ih hmarks.2, List.length_cons]

/-- At a position, the site has the statements `ahead` ahead. -/
structure At (site : Site) (position : Nat) (ahead : List Statement) : Prop where
  inside : position ≤ site.statements.length
  drop : site.statements.drop position = ahead

/-- The statements ahead tell the position. -/
theorem At.unique {position position' : Nat} {ahead : List Statement} (h : site.At position ahead)
    (h' : site.At position' ahead) : position = position' := by
  have hlength : site.statements.length - position = site.statements.length - position' := by
    rw [← List.length_drop, ← List.length_drop, h.drop, h'.drop]
  have := h.inside
  have := h'.inside
  omega

theorem at_length {pre ahead : List Statement} (h : pre ++ ahead = site.statements) :
    site.At pre.length ahead := by
  refine ⟨?_, ?_⟩
  · rw [← h, List.length_append]
    exact Nat.le_add_right _ _
  · rw [← h, List.drop_left]

theorem At.step {position : Nat} {statement : Statement} {rest : List Statement}
    (h : site.At position (statement :: rest)) :
    site.statements[position]? = some statement ∧ site.At (position + 1) rest := by
  have hstatement : site.statements[position]? = some statement := by
    rw [← List.head?_drop, h.drop, List.head?_cons]
  refine ⟨hstatement, (List.getElem?_eq_some_iff.mp hstatement).1, ?_⟩
  rw [← List.tail_drop, h.drop, List.tail_cons]

/-- What comes after a label stands at the position of the label. -/
theorem at_place {name : Label} {dest : List Statement} (h : site.Covers (.label name :: dest)) :
    site.At (Flat.place site.statements name) dest := by
  obtain ⟨pre, hpre⟩ := h
  have hnodup := site.nodup_blockNames
  rw [Program.blockNames, ← hpre, Program.labels_append] at hnodup
  obtain ⟨hentry, hnodup⟩ := List.nodup_cons.mp hnodup
  have hbefore : name ∉ Program.labels pre :=
    fun hmem => (List.nodup_append.mp hnodup).2.2 name hmem name List.mem_cons_self rfl
  have hne : name ≠ Program.entryName := by
    rintro rfl
    exact hentry (List.mem_append_right _ List.mem_cons_self)
  rw [Flat.place, if_neg hne, ← hpre, findIdx_marks hbefore]
  exact (at_length hpre).step.2

theorem mem_blockNames {name : Label} {dest : List Statement}
    (h : site.Covers (.label name :: dest)) : name ∈ Program.blockNames site.statements := by
  obtain ⟨pre, hpre⟩ := h
  rw [Program.blockNames, ← hpre, Program.labels_append]
  exact List.mem_cons_of_mem _ (List.mem_append_right _ List.mem_cons_self)

section Onward

variable {rs : Registers} {position : Nat} {rest dest : List Statement} {name : Label}

/-- Statements other than jumps and branches are run in order. -/
theorem At.onward {statement : Statement} (h : site.At position (statement :: rest))
    (hstays : statement.runsOn = true) : site.At (site.onward rs position) rest := by
  obtain ⟨hstatement, hrest⟩ := h.step
  unfold Site.onward
  rw [hstatement]
  cases statement with
  | label name => exact hrest
  | jump transfer => cases hstays
  | perform operation =>
      cases operation with
      | branch name => cases hstays
      | _ => exact hrest

theorem At.onward_branch (h : site.At position (.perform (.branch name) :: rest))
    (hcovers : site.Covers (.label name :: dest)) :
    site.At (site.onward rs position) (if rs.flag.isTrue then dest else rest) := by
  obtain ⟨hstatement, hrest⟩ := h.step
  unfold Site.onward
  rw [hstatement]
  cases rs.flag.isTrue with
  | true => exact at_place hcovers
  | false => exact hrest

theorem At.onward_direct (h : site.At position (.jump (.direct name) :: rest))
    (hcovers : site.Covers (.label name :: dest)) : site.At (site.onward rs position) dest := by
  unfold Site.onward
  rw [h.step.1]
  exact at_place hcovers

/-- A call comes back to the label in `kontinue`. -/
theorem At.onward_indirect {r : Register} (h : site.At position (.jump (.indirect r) :: rest))
    (hkontinue : rs.kontinue = .label (site.code.ref (site.number name)))
    (hcovers : site.Covers (.label name :: dest)) : site.At (site.onward rs position) dest := by
  have hbegins : Flat.begins site.statements (site.code.ref (site.number name)).block =
      some (Flat.place site.statements name) :=
    (site.places_ref (mem_blockNames hcovers)).2.2
  unfold Site.onward
  rw [h.step.1]
  simp only [hkontinue, hbegins, Option.getD_some]
  exact at_place hcovers

end Onward
end Site
end SchemeMachine
