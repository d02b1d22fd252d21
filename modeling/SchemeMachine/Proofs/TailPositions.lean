import SchemeMachine.Proofs.Faults
import SchemeMachine.Proofs.Simulation.Forms

/-!
# Calls in tail position and where code can return to

A datum says by its shape alone whether a call stands in tail position: it is an application or a
`let`, or it is a conditional or a sequence that hands its own position on to such a datum.  This is
all that target and linkage have a say in.  Code with any target and any linkage can be had exactly
when code for `val` that goes on can be had, except for calls in tail position that would have to
return to the caller with their value in another register.
-/

namespace SchemeMachine

/-- The symbols that make a list a special form. -/
def keywords : List String := ["quote", "lambda", "define", "set!", "if", "begin", "let"]

namespace Datum

/-- A call stands in tail position of a datum. -/
inductive EndsInCall : Datum → Prop
  /-- The datum is an application. -/
  | application {d operator : Datum} {operands : List Datum}
      (items : d.items? = some (operator :: operands))
      (plain : ∀ keyword ∈ keywords, operator.symbolName? ≠ some keyword) : EndsInCall d
  /-- The datum is a `let`, which applies a procedure to the values that it binds. -/
  | binding {d keyword : Datum} {parts : List Datum} (items : d.items? = some (keyword :: parts))
      (head : keyword.symbolName? = some "let") : EndsInCall d
  | consequent {d keyword test consequent alternative : Datum}
      (items : d.items? = some [keyword, test, consequent, alternative])
      (head : keyword.symbolName? = some "if") (call : EndsInCall consequent) : EndsInCall d
  | alternative {d keyword test consequent alternative : Datum}
      (items : d.items? = some [keyword, test, consequent, alternative])
      (head : keyword.symbolName? = some "if") (call : EndsInCall alternative) : EndsInCall d
  | last {d keyword last : Datum} {before : List Datum}
      (items : d.items? = some (keyword :: (before ++ [last])))
      (head : keyword.symbolName? = some "begin") (call : EndsInCall last) : EndsInCall d

theorem pair_of_items? {d first : Datum} {items : List Datum}
    (h : d.items? = some (first :: items)) :
    ∃ m rest, d = .pair m first rest ∧ rest.items? = some items := by
  cases d with
  | pair m a rest =>
      obtain ⟨others, hothers, hcons⟩ := Option.map_eq_some_iff.mp h
      cases hcons
      exact ⟨m, rest, rfl, hothers⟩
  | _ => cases h

theorem empty_of_items? {d : Datum} (h : d.items? = some []) : ∃ m, d = .empty m := by
  cases d with
  | empty m => exact ⟨m, rfl⟩
  | pair m a rest =>
      obtain ⟨others, -, hcons⟩ := Option.map_eq_some_iff.mp h
      cases hcons
  | _ => cases h

end Datum

namespace Expression

variable {m : Mark} {head rest : Datum} {items : List Datum}

/-- The expressions of a sequence are the elements after the keyword. -/
theorem ofBegin_eq {span : Option Span} (hrest : rest.items? = some items) (hne : items ≠ []) :
    ofBegin span rest = sequence (items.map ofDatum) := by
  obtain ⟨first, others, rfl⟩ := List.exists_cons_of_ne_nil hne
  obtain ⟨m, d, rfl, hd⟩ := Datum.pair_of_items? hrest
  rw [ofBegin, ofItems_eq_map, Datum.elements_of_items? hd, List.map_cons]

/-! ## From the expression to the datum -/

theorem ofQuote_endsInCall (span : Option Span) (rest : Datum) :
    (ofQuote span rest).endsInCall = false := by
  unfold ofQuote
  split <;> rfl

theorem ofLambda_endsInCall (span : Option Span) (rest : Datum) :
    (ofLambda span rest).endsInCall = false := by
  unfold ofLambda
  split
  · split <;> rfl
  · rfl

theorem ofDefine_endsInCall (span : Option Span) (rest : Datum) :
    (ofDefine span rest).endsInCall = false := by
  unfold ofDefine
  split
  · rfl
  · rfl
  · split <;> rfl
  · rfl

theorem ofSet_endsInCall (span : Option Span) (rest : Datum) :
    (ofSet span rest).endsInCall = false := by
  unfold ofSet
  split <;> rfl

section Parts

variable (ih : ∀ d, sizeOf d < sizeOf rest → (ofDatum d).endsInCall = true → d.EndsInCall)
include ih

theorem endsInCall_of_cond (hhead : head.symbolName? = some "if")
    (h : (ofCond m.span rest).endsInCall = true) : (Datum.pair m head rest).EndsInCall := by
  unfold ofCond at h
  split at h
  · next _ test _ consequent _ alternative _ =>
    rw [endsInCall, Bool.or_eq_true] at h
    rcases h with h | h
    · exact .consequent rfl hhead (ih consequent (by simp; omega) h)
    · exact .alternative rfl hhead (ih alternative (by simp; omega) h)
  · cases h

theorem endsInCall_of_begin (hhead : head.symbolName? = some "begin")
    (hrest : rest.items? = some items) (h : (ofBegin m.span rest).endsInCall = true) :
    (Datum.pair m head rest).EndsInCall := by
  obtain rfl | ⟨before, last, rfl⟩ := items.eq_nil_or_concat'
  · obtain ⟨m', rfl⟩ := Datum.empty_of_items? hrest
    cases h
  · rw [ofBegin_eq hrest (by simp), endsInCall, List.map_append, List.map_singleton,
      lastEndsInCall_concat] at h
    -- The last of the elements is a part of the form, so it is smaller.
    have hmem : last ∈ rest.elements := by
      rw [Datum.elements_of_items? hrest]
      simp
    have hitems : (Datum.pair m head rest).items? = some (head :: (before ++ [last])) := by
      rw [Datum.items?, hrest]
      rfl
    exact .last hitems hhead (ih last (Datum.sizeOf_lt_of_mem_elements hmem) h)

end Parts

/-- What compiles to a call in tail position has one. -/
theorem endsInCall_of_ofDatum (d : Datum) (h : (ofDatum d).endsInCall = true) : d.EndsInCall := by
  induction hsize : sizeOf d using Nat.strongRecOn generalizing d with
  | ind size ih =>
      subst hsize
      cases d with
      | pair m head rest =>
          have hsmaller : ∀ d, sizeOf d < sizeOf rest → (ofDatum d).endsInCall = true →
              d.EndsInCall :=
            fun d hd hcall => ih _ (by simp; omega) d hcall rfl
          rw [ofDatum] at h
          split at h
          · cases h
          · next hproper =>
            obtain ⟨items, hrest⟩ : ∃ items, rest.items? = some items := by
              cases hitems : rest.items? with
              | none => simp [hitems] at hproper
              | some items => exact ⟨items, rfl⟩
            have hitems : (Datum.pair m head rest).items? = some (head :: items) := by
              rw [Datum.items?, hrest]
              rfl
            split at h
            · rw [ofQuote_endsInCall] at h
              cases h
            · rw [ofLambda_endsInCall] at h
              cases h
            · rw [ofDefine_endsInCall] at h
              cases h
            · rw [ofSet_endsInCall] at h
              cases h
            · next hhead => exact endsInCall_of_cond hsmaller hhead h
            · next hhead => exact endsInCall_of_begin hsmaller hhead hrest h
            · next hhead => exact .binding hitems hhead
            · next _ hquote hlambda hdefine hset hif hbegin hlet =>
              refine .application hitems ?_
              simp only [keywords, List.forall_mem_cons]
              exact ⟨hquote, hlambda, hdefine, hset, hif, hbegin, hlet, by simp⟩
      | _ => cases h

/-! ## From the datum to the expression -/

theorem ofDatum_application (hrest : rest.items? = some items)
    (hplain : ∀ keyword ∈ keywords, head.symbolName? ≠ some keyword) :
    ofDatum (.pair m head rest) = application (ofDatum head) (ofItems rest) := by
  simp only [keywords, List.forall_mem_cons] at hplain
  obtain ⟨hquote, hlambda, hdefine, hset, hif, hbegin, hlet, -⟩ := hplain
  rw [ofDatum, if_neg (by simp [hrest])]
  split
  · next h => exact absurd h hquote
  · next h => exact absurd h hlambda
  · next h => exact absurd h hdefine
  · next h => exact absurd h hset
  · next h => exact absurd h hif
  · next h => exact absurd h hbegin
  · next h => exact absurd h hlet
  · rfl

theorem ofDatum_binding (hrest : rest.items? = some items)
    (hhead : head.symbolName? = some "let") :
    ofDatum (.pair m head rest) = ofBinding m.span rest := by
  rw [ofDatum, hrest, hhead]
  rfl

theorem ofDatum_begin (hrest : rest.items? = some items)
    (hhead : head.symbolName? = some "begin") :
    ofDatum (.pair m head rest) = ofBegin m.span rest := by
  rw [ofDatum, hrest, hhead]
  rfl

theorem ofDatum_cond {test consequent alternative : Datum}
    (hrest : rest.items? = some [test, consequent, alternative])
    (hhead : head.symbolName? = some "if") :
    ofDatum (.pair m head rest) =
      conditional (ofDatum test) (ofDatum consequent) (ofDatum alternative) := by
  rw [ofDatum, hrest, hhead]
  obtain ⟨m₁, rest₁, rfl, hrest₁⟩ := Datum.pair_of_items? hrest
  obtain ⟨m₂, rest₂, rfl, hrest₂⟩ := Datum.pair_of_items? hrest₁
  obtain ⟨m₃, rest₃, rfl, hrest₃⟩ := Datum.pair_of_items? hrest₂
  obtain ⟨m₄, rfl⟩ := Datum.empty_of_items? hrest₃
  rfl

/-- A `let` is an application, unless it is malformed. -/
theorem ofBinding_endsInCall {span : Option Span}
    (h : (ofBinding span rest).firstFault none = none) :
    (ofBinding span rest).endsInCall = true := by
  unfold ofBinding at h ⊢
  split at h
  · next m bindings m' a d =>
    cases hformals : bindingFormals bindings with
    | error fault => simp [hformals, fail, firstFault] at h
    | ok names => rfl
  · simp [fail, firstFault] at h

theorem endsInCall_of_parts {d : Datum} (hcall : d.EndsInCall)
    (h : (ofDatum d).firstFault none = none) : (ofDatum d).endsInCall = true := by
  induction hcall with
  | application items plain =>
      obtain ⟨m, rest, rfl, hrest⟩ := Datum.pair_of_items? items
      rw [ofDatum_application hrest plain, endsInCall]
  | binding items head =>
      obtain ⟨m, rest, rfl, hrest⟩ := Datum.pair_of_items? items
      rw [ofDatum_binding hrest head] at h ⊢
      exact ofBinding_endsInCall h
  | consequent items head _ ih =>
      obtain ⟨m, rest, rfl, hrest⟩ := Datum.pair_of_items? items
      rw [ofDatum_cond hrest head, firstFault, Option.or_eq_none_iff, Option.or_eq_none_iff] at h
      rw [ofDatum_cond hrest head, endsInCall, ih h.2.1, Bool.true_or]
  | alternative items head _ ih =>
      obtain ⟨m, rest, rfl, hrest⟩ := Datum.pair_of_items? items
      rw [ofDatum_cond hrest head, firstFault, Option.or_eq_none_iff, Option.or_eq_none_iff] at h
      rw [ofDatum_cond hrest head, endsInCall, ih h.2.2, Bool.or_true]
  | @last d keyword last before items head _ ih =>
      obtain ⟨m, rest, rfl, hrest⟩ := Datum.pair_of_items? items
      have hsequence : ofDatum (.pair m keyword rest) =
          sequence (before.map ofDatum ++ [ofDatum last]) := by
        rw [ofDatum_begin hrest head, ofBegin_eq hrest (by simp), List.map_append,
          List.map_singleton]
      rw [hsequence, firstFault, firstFaultInOrder_concat, Option.or_eq_none_iff] at h
      rw [hsequence, endsInCall, lastEndsInCall_concat, ih h.2]

/-- If nothing else is wrong, a call stands in tail position of the datum exactly when one does in
its meaning. -/
theorem endsInCall_iff {d : Datum} (h : (ofDatum d).firstFault none = none) :
    (ofDatum d).endsInCall = true ↔ d.EndsInCall :=
  ⟨endsInCall_of_ofDatum d, fun hcall => endsInCall_of_parts hcall h⟩

/-! ## Targets and linkages -/

open Compile

/-- Code for a datum with any target and linkage can be had exactly when code for `val` that goes on
can be had, unless a call in tail position would have to return to the caller with its value
elsewhere; it is then refused as such.  What is wrong anyway stays wrong, and is reported, unless
such a call comes before it.  In programs no call has to return. -/
theorem compile_succeeds_iff_tail_returnable (d : Datum) (target : Register) (linkage : Linkage)
    (n m : Nat) :
    ((∃ code n', compile target linkage (ofDatum d) n = .ok code n') ↔
      (∃ code m', compile .val .next (ofDatum d) m = .ok code m') ∧
        ¬ (linkage = .caller ∧ target ≠ .val ∧ d.EndsInCall)) ∧
    ((∃ code m', compile .val .next (ofDatum d) m = .ok code m') →
      linkage = .caller ∧ target ≠ .val ∧ d.EndsInCall →
      ∃ n', compile target linkage (ofDatum d) n = .error (.unsatisfiableLinkage target) n') ∧
    (∀ e, (∃ m', compile .val .next (ofDatum d) m = .error e m') →
      (∃ n', compile target linkage (ofDatum d) n = .error e n') ∨
        (linkage = .caller ∧ target ≠ .val ∧ d.EndsInCall) ∧
          ∃ n', compile target linkage (ofDatum d) n = .error (.unsatisfiableLinkage target) n') ∧
    ∀ (forms : List Datum) (r : Register) (k k' : Nat),
      compileProgram forms k ≠ .error (.unsatisfiableLinkage r) k' := by
  have hplain := compile_reports .val .next (ofDatum d) m
  have hreports := compile_reports target linkage (ofDatum d) n
  rw [Linkage.unreturnable?_val] at hplain
  simp only [← error?_eq_none_iff, ← error?_eq_some_iff, hplain, hreports]
  -- Target and linkage count only where calls would have to return with their value elsewhere.
  by_cases hreturn : linkage = .caller ∧ target ≠ .val
  · have hexcluded : (linkage = .caller ∧ target ≠ .val ∧ d.EndsInCall) ↔ d.EndsInCall := by
      rw [← and_assoc]
      exact and_iff_right hreturn
    rw [Linkage.unreturnable?_eq_some_iff.mpr ⟨hreturn.1, hreturn.2, rfl⟩, hexcluded]
    refine ⟨?_, ?_, ?_, compileProgram_ne_unsatisfiable⟩
    · rw [firstFault_eq_none_iff]
      exact and_congr_right fun hnone => not_congr (endsInCall_iff hnone)
    · intro hnone hcall
      exact firstFault_eq_unsatisfiable target hnone ((endsInCall_iff hnone).mpr hcall)
    · intro e hfault
      rcases firstFault_blames target (ofDatum d) with hsame | ⟨hcall, hblamed⟩
      · exact Or.inl (hsame.trans hfault)
      · exact Or.inr ⟨endsInCall_of_ofDatum d hcall, hblamed⟩
  · have hreturnable : linkage.unreturnable? target = none := by
      rw [Option.eq_none_iff_forall_ne_some]
      intro r hr
      obtain ⟨hlinkage, htarget, -⟩ := Linkage.unreturnable?_eq_some_iff.mp hr
      exact hreturn ⟨hlinkage, htarget⟩
    rw [hreturnable]
    refine ⟨?_, ?_, ?_, compileProgram_ne_unsatisfiable⟩
    · exact (and_iff_left fun hexcluded => hreturn ⟨hexcluded.1, hexcluded.2.1⟩).symm
    · intro _ hexcluded
      exact absurd ⟨hexcluded.1, hexcluded.2.1⟩ hreturn
    · intro e hfault
      exact Or.inl hfault

/-- A call at the end of a sequence in a branch cannot return with its value in `proc`, although the
conditional can be compiled for `val`. -/
theorem branch_call_not_returnable :
    ∃ d, Datum.parse "(if x (begin 1 (f x)) 2)" = .ok [d] ∧ d.EndsInCall ∧
      (∃ code n, compile .val .next (ofDatum d) 0 = .ok code n) ∧
      ∃ n, compile .proc .caller (ofDatum d) 7 = .error (.unsatisfiableLinkage .proc) n := by
  have hcompiles : ((Datum.parse "(if x (begin 1 (f x)) 2)").toOption.any fun forms =>
      forms.head?.any fun d => forms.tail.isEmpty && (ofDatum d).endsInCall &&
        (made? (compile .val .next (ofDatum d) 0)).isSome) = true := by
    decide +kernel
  obtain ⟨forms, hparse, hcompiles⟩ := (Option.any_eq_true _ _).mp hcompiles
  obtain ⟨d, hd, hcompiles⟩ := (Option.any_eq_true _ _).mp hcompiles
  obtain ⟨htest, hmade⟩ := (Bool.and_eq_true _ _).mp hcompiles
  obtain ⟨hsingle, hends⟩ := (Bool.and_eq_true _ _).mp htest
  obtain rfl : forms = [d] := by
    obtain ⟨rest, rfl⟩ := List.head?_eq_some_iff.mp hd
    rw [List.tail_cons, List.isEmpty_iff] at hsingle
    rw [hsingle]
  obtain ⟨code, hcode⟩ := Option.isSome_iff_exists.mp hmade
  obtain ⟨n, hok⟩ := eq_ok_of_made? hcode
  have hcall := endsInCall_of_ofDatum d hends
  obtain ⟨-, hrefused, -⟩ := compile_succeeds_iff_tail_returnable d .proc .caller 7 0
  exact ⟨d, eq_ok_of_toOption hparse, hcall, ⟨code, n, hok⟩,
    hrefused ⟨code, n, hok⟩ ⟨rfl, by decide, hcall⟩⟩

end Expression
end SchemeMachine
