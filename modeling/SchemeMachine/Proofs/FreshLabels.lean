import Mathlib.Data.List.Nodup
import Mathlib.Data.List.Perm.Basic
import SchemeMachine.Proofs.Assembly
import SchemeMachine.Proofs.Compilation

/-!
# Labels of a session

A session compiles one thing after the other, for any target and with any linkage, and goes on after
failures.  Labels are numbered in the order in which they are made, and placed in another order:
those of a conditional are made before its parts are compiled and stand between them, and operands
are placed from the last on.  What is placed is therefore compared with what is made as a
permutation.  Since no stem ends in a digit, the number of a label can be read off its text, and so
labels made at different times differ.
-/

namespace SchemeMachine

open Program

namespace Compile

/-! ## Labels and their numbers -/

/-- What the labels of compiled code begin with. -/
def stems : List String :=
  ["trueBranch", "falseBranch", "afterIf", "entry", "afterLambda", "primitiveBranch",
    "compiledBranch", "afterCall", "procReturn"]

/-- The number that a text ends with: all of the digits at its end, if there are any. -/
def suffix? (name : Label) : Option Nat :=
  let digits := (name.toList.reverse.takeWhile Char.isDigit).reverse
  if digits.isEmpty then none else some (Nat.ofDigitChars 10 digits 0)

theorem suffix?_numbered {stem : String} (h : stem ∈ stems) (n : Nat) :
    suffix? (numbered stem n) = some n := by
  have hstem : stem.toList.reverse.takeWhile Char.isDigit = [] := by
    revert stem
    decide
  have hdigits : ∀ c ∈ (Nat.toDigits 10 n).reverse, c.isDigit = true := by
    intro c hc
    exact Nat.isDigit_of_mem_toDigits (by decide) (by decide) (List.mem_reverse.mp hc)
  have htail : (numbered stem n).toList.reverse.takeWhile Char.isDigit =
      (Nat.toDigits 10 n).reverse := by
    rw [numbered, Decimal.naturalText, String.toList_append, String.toList_ofList,
      List.reverse_append, List.takeWhile_append_of_pos hdigits, hstem, List.append_nil]
  simp [suffix?, htail, Nat.toDigits_ne_nil, Nat.ofDigitChars_ten_toDigits]

/-- Labels with those stems, numbered from `n` on. -/
def numberedFrom (n : Nat) : List String → List Label
  | [] => []
  | stem :: rest => numbered stem n :: numberedFrom (n + 1) rest

theorem numberedFrom_append (n : Nat) (first second : List String) :
    numberedFrom n (first ++ second) =
      numberedFrom n first ++ numberedFrom (n + first.length) second := by
  induction first generalizing n with
  | nil => rfl
  | cons stem rest ih =>
      rw [List.cons_append, numberedFrom, numberedFrom, ih, List.length_cons, List.cons_append,
        Nat.add_assoc, Nat.add_comm 1]

theorem length_numberedFrom (n : Nat) (used : List String) :
    (numberedFrom n used).length = used.length := by
  induction used generalizing n with
  | nil => rfl
  | cons stem rest ih => rw [numberedFrom, List.length_cons, ih, List.length_cons]

theorem map_suffix?_numberedFrom (n : Nat) {used : List String} (h : used ⊆ stems) :
    (numberedFrom n used).map suffix? = (List.range' n used.length).map some := by
  induction used generalizing n with
  | nil => rfl
  | cons stem rest ih =>
      rw [List.cons_subset] at h
      rw [numberedFrom, List.map_cons, suffix?_numbered h.1, ih (n + 1) h.2, List.length_cons,
        List.range'_succ, List.map_cons]

/-- The labels that are made while the counter goes from `n` to `n'`, in any order. -/
def MadeBetween (n n' : Nat) (names : List Label) : Prop :=
  ∃ used ⊆ stems, n' = n + used.length ∧ names.Perm (numberedFrom n used)

namespace MadeBetween

variable {n m n' : Nat} {names names' : List Label}

theorem nil (n : Nat) : MadeBetween n n [] :=
  ⟨[], List.nil_subset stems, rfl, .nil⟩

theorem perm (h : MadeBetween n n' names) (hperm : names'.Perm names) :
    MadeBetween n n' names' := by
  obtain ⟨used, hused, hn, hnames⟩ := h
  exact ⟨used, hused, hn, hperm.trans hnames⟩

/-- A label is made before others. -/
theorem cons {stem : String} (hstem : stem ∈ stems) (h : MadeBetween (n + 1) n' names) :
    MadeBetween n n' (numbered stem n :: names) := by
  obtain ⟨used, hused, rfl, hnames⟩ := h
  refine ⟨stem :: used, List.cons_subset.mpr ⟨hstem, hused⟩, ?_, hnames.cons _⟩
  rw [List.length_cons]
  omega

theorem append (h : MadeBetween n m names) (h' : MadeBetween m n' names') :
    MadeBetween n n' (names ++ names') := by
  obtain ⟨used, hused, rfl, hnames⟩ := h
  obtain ⟨used', hused', rfl, hnames'⟩ := h'
  refine ⟨used ++ used', List.append_subset.mpr ⟨hused, hused'⟩, ?_, ?_⟩
  · rw [List.length_append, Nat.add_assoc]
  · rw [numberedFrom_append]
    exact hnames.append hnames'

theorem le (h : MadeBetween n n' names) : n ≤ n' := by
  obtain ⟨used, -, rfl, -⟩ := h
  exact Nat.le_add_right n used.length

theorem length_eq (h : MadeBetween n n' names) : names.length = n' - n := by
  obtain ⟨used, -, rfl, hnames⟩ := h
  rw [hnames.length_eq, length_numberedFrom]
  omega

/-- Every number from `n` up to `n'` is the number of one of the labels. -/
theorem suffixes (h : MadeBetween n n' names) :
    (names.map suffix?).Perm ((List.range' n (n' - n)).map some) := by
  obtain ⟨used, hused, rfl, hnames⟩ := h
  rw [Nat.add_sub_cancel_left, ← map_suffix?_numberedFrom n hused]
  exact hnames.map suffix?

theorem nodup (h : MadeBetween n n' names) : names.Nodup := by
  have hnumbers : ((List.range' n (n' - n)).map some).Nodup :=
    List.Nodup.map (fun _ _ => Option.some.inj) List.nodup_range'
  exact List.Nodup.of_map suffix? (h.suffixes.nodup_iff.mpr hnumbers)

theorem bounds (h : MadeBetween n n' names) {name : Label} (hname : name ∈ names) :
    ∃ i, suffix? name = some i ∧ n ≤ i ∧ i < n' := by
  have hmem := h.suffixes.subset (List.mem_map_of_mem hname)
  obtain ⟨i, hi, hsuffix⟩ := List.mem_map.mp hmem
  obtain ⟨hle, hlt⟩ := List.mem_range'_1.mp hi
  exact ⟨i, hsuffix.symm, hle, by omega⟩

/-- The name of the entry ends in no number, and every label that is made does. -/
theorem entryName_notMem (h : MadeBetween n n' names) : entryName ∉ names := by
  intro hmem
  obtain ⟨i, hi, -⟩ := h.bounds hmem
  have hnone : suffix? entryName = none := rfl
  cases hnone.symm.trans hi

end MadeBetween
end Compile

/-! ## Labels in code -/

namespace Sequence

/-- The labels that stand in a sequence. -/
def markers (code : Sequence) : List Label :=
  labels code.statements

theorem markers_append (first second : Sequence) :
    (first.append second).markers = first.markers ++ second.markers :=
  labels_append first.statements second.statements

theorem markers_tackOn (main body : Sequence) :
    (main.tackOn body).markers = main.markers ++ body.markers :=
  labels_append main.statements body.statements

theorem markers_protectFor (registers : List Register) (first second : Sequence) :
    (protectFor registers first second).markers = first.markers := by
  have hprotect : ∀ (s : Sequence) (r : Register), (s.protect r).markers = s.markers := by
    intro s r
    simp [markers, protect, labels, labels_append]
  induction registers generalizing first with
  | nil => rfl
  | cons r rest ih =>
      refine (ih _).trans ?_
      simp only
      split
      · exact hprotect first r
      · rfl

theorem markers_preserving (registers : List Register) (first second : Sequence) :
    (preserving registers first second).markers = first.markers ++ second.markers := by
  rw [preserving, markers_append, markers_protectFor]

theorem markers_after (linkage : Linkage) (code : Sequence) :
    (linkage.after code).markers = code.markers := by
  have hlinkage : linkage.code.markers = [] := by
    cases linkage <;> rfl
  rw [Linkage.after, markers_preserving, hlinkage, List.append_nil]

end Sequence

namespace Expression

open Sequence Compile

theorem markers_storeCode (store : Operation Label) (value : Sequence) (target : Register)
    (linkage : Linkage) : (storeCode store value target linkage).markers = value.markers := by
  rw [storeCode, markers_after, markers_preserving]
  exact List.append_nil _

theorem markers_fork (test : Operation Label) (reads : Register)
    (firstLabel secondLabel after : Label) (first second : Sequence) :
    (fork test reads firstLabel secondLabel after first second).markers =
      firstLabel :: (first.markers ++ secondLabel :: (second.markers ++ [after])) := by
  rw [markers, fork_statements_eq]
  simp [labels, labels_append, markers]

theorem markers_lambdaCode (entry afterLambda : Label) (formals : List String) (body : Sequence)
    (target : Register) (linkage : Linkage) :
    (lambdaCode entry afterLambda formals body target linkage).markers =
      entry :: (body.markers ++ [afterLambda]) := by
  rw [lambdaCode, markers_append, markers_tackOn, markers_after, markers_append]
  rfl

theorem markers_restArguments (codes : List Sequence) :
    (restArguments codes).markers = codes.flatMap markers := by
  have hconsNext : ∀ code, (restArguments.consNext code).markers = code.markers := by
    intro code
    rw [restArguments.consNext, markers_preserving]
    exact List.append_nil _
  induction codes using restArguments.induct with
  | case1 => rfl
  | case2 code => rw [restArguments, hconsNext, List.flatMap_singleton]
  | case3 code more hmore ih =>
      rw [restArguments, markers_preserving, hconsNext, ih, List.flatMap_cons]
      exact hmore

/-- Operands are placed from the last on. -/
theorem markers_argumentCode (codes : List Sequence) :
    (argumentCode codes).markers = codes.reverse.flatMap markers := by
  unfold argumentCode
  cases codes.reverse with
  | nil => rfl
  | cons last before =>
      have hsingle : (last.append (of [.val] [.argl] [.assign .argl .listArg])).markers =
          last.markers := by
        rw [markers_append]
        exact List.append_nil _
      rw [List.flatMap_cons]
      simp only
      split
      next hempty =>
        rw [List.isEmpty_iff.mp hempty, hsingle]
        exact (List.append_nil _).symm
      next => rw [markers_preserving, hsingle, markers_restArguments]

/-! ## Labels that compiling makes -/

theorem enterCode_made {target : Register} {returnTo : Option Label} {n n' : Nat}
    {code : Sequence} (h : enterCode target returnTo n = .ok code n') :
    MadeBetween n n' code.markers := by
  cases returnTo with
  | none =>
      simp only [enterCode] at h
      split at h
      · cases h
        exact .nil n
      · cases h
  | some label =>
      simp only [enterCode] at h
      split at h
      · cases h
        exact .nil n
      · rw [freshLabel_bind] at h
        cases h
        exact .cons (by decide) (.nil (n + 1))

theorem callCode_made {target : Register} {linkage : Linkage} {n n' : Nat} {code : Sequence}
    (h : callCode target linkage n = .ok code n') : MadeBetween n n' code.markers := by
  obtain ⟨enter, henter, rfl⟩ := callCode_eq_ok h
  have hmade : MadeBetween n n' (numbered "primitiveBranch" n ::
      numbered "compiledBranch" (n + 1) :: numbered "afterCall" (n + 2) :: enter.markers) :=
    .cons (by decide) (.cons (by decide) (.cons (by decide) (enterCode_made henter)))
  refine hmade.perm ?_
  have hprimitive : (of [.proc, .argl] [target] [.assign target .applyPrimitive]).markers = [] :=
    rfl
  rw [markers_fork, markers_after, hprimitive, List.nil_append, List.perm_iff_count]
  intro name
  simp only [List.count_cons, List.count_append, List.count_nil]
  omega

mutual

/-- The labels in the code of an expression are those made while it was compiled. -/
theorem compile_made : ∀ (e : Expression) {target : Register} {linkage : Linkage} {n n' : Nat}
    {code : Sequence}, compile target linkage e n = .ok code n' → MadeBetween n n' code.markers
  | .constant c, target, linkage, n, n', code, h => by
      cases h
      rw [constantCode, markers_after]
      exact .nil n
  | .reference name, target, linkage, n, n', code, h => by
      cases h
      rw [variableCode, markers_after]
      exact .nil n
  | .assignment name value, target, linkage, n, n', code, h => by
      obtain ⟨valueCode, hvalue, rfl⟩ := compile_assignment h
      rw [markers_storeCode]
      exact compile_made value hvalue
  | .definition name value, target, linkage, n, n', code, h => by
      obtain ⟨valueCode, hvalue, rfl⟩ := compile_definition h
      rw [markers_storeCode]
      exact compile_made value hvalue
  | .conditional test consequent alternative, target, linkage, n, n', code, h => by
      obtain ⟨testCode, consequentCode, alternativeCode, m, m', htest, hconsequent, halternative,
        rfl⟩ := compile_conditional h
      have hparts : MadeBetween (n + 3) n'
          (testCode.markers ++ (consequentCode.markers ++ alternativeCode.markers)) :=
        (compile_made test htest).append
          ((compile_made consequent hconsequent).append (compile_made alternative halternative))
      have hmade : MadeBetween n n' (numbered "trueBranch" n :: numbered "falseBranch" (n + 1) ::
          numbered "afterIf" (n + 2) :: _) :=
        .cons (by decide) (.cons (by decide) (.cons (by decide) hparts))
      refine hmade.perm ?_
      change (preserving [.env, .kontinue] testCode
        (fork .testFalse .val _ _ _ consequentCode alternativeCode)).markers.Perm _
      -- The labels are made before the parts, and stand between them.
      rw [markers_preserving, markers_fork, List.perm_iff_count]
      intro name
      simp only [List.count_cons, List.count_append, List.count_nil]
      omega
  | .lambda formals body, target, linkage, n, n', code, h => by
      obtain ⟨bodyCode, hbody, rfl⟩ := compile_lambda h
      have hmade : MadeBetween n n' (numbered "entry" n :: numbered "afterLambda" (n + 1) ::
          bodyCode.markers) :=
        .cons (by decide) (.cons (by decide) (compileSequence_made body hbody))
      refine hmade.perm ?_
      rw [markers_lambdaCode]
      exact (List.perm_append_singleton _ _).cons _
  | .sequence body, target, linkage, n, n', code, h => compileSequence_made body h
  | .application operator operands, target, linkage, n, n', code, h => by
      obtain ⟨operatorCode, operandCodes, call, m, m', hoperator, hoperands, hcall, rfl⟩ :=
        compile_application h
      have harguments : MadeBetween m m' (argumentCode operandCodes).markers := by
        rw [markers_argumentCode]
        exact (compileOperands_made operands hoperands).perm
          ((List.reverse_perm operandCodes).flatMap_right markers)
      rw [applicationCode, markers_preserving, markers_preserving]
      exact (compile_made operator hoperator).append (harguments.append (callCode_made hcall))
  | .malformed why, _, _, _, _, _, h => nomatch h

theorem compileSequence_made : ∀ (es : List Expression) {target : Register} {linkage : Linkage}
    {n n' : Nat} {code : Sequence}, compileSequence target linkage es n = .ok code n' →
      MadeBetween n n' code.markers
  | [], target, linkage, n, n', code, h => by
      cases h
      exact .nil n
  | [last], target, linkage, n, n', code, h => compile_made last h
  | first :: second :: rest, target, linkage, n, n', code, h => by
      obtain ⟨firstCode, restCode, m, hfirst, hrest, rfl⟩ := compileSequence_cons h
      rw [markers_preserving]
      exact (compile_made first hfirst).append (compileSequence_made (second :: rest) hrest)

theorem compileOperands_made : ∀ (es : List Expression) {n n' : Nat} {codes : List Sequence},
    compileOperands es n = .ok codes n' → MadeBetween n n' (codes.flatMap markers)
  | [], n, n', codes, h => by
      cases h
      exact .nil n
  | operand :: rest, n, n', codes, h => by
      obtain ⟨operandCode, restCodes, m, hoperand, hrest, rfl⟩ := compileOperands_cons h
      rw [List.flatMap_cons]
      exact (compile_made operand hoperand).append (compileOperands_made rest hrest)

end
end Expression

/-! ## Failures -/

namespace Compile

variable {α β : Type} {x : Compile α} {f : α → Compile β}

/-- The counter at the end of a step of compilation, which may have failed. -/
def counter {ε : Type} : EStateM.Result ε Nat α → Nat
  | .ok _ n => n
  | .error _ n => n

/-- A step of compilation gives back no number, even when it fails. -/
def Climbs (x : Compile α) : Prop :=
  ∀ n, n ≤ counter (x n)

theorem climbs_pure (a : α) : Climbs (pure a) :=
  fun n => Nat.le_refl n

theorem climbs_throw (e : CompileError) : Climbs (throw e : Compile α) :=
  fun n => Nat.le_refl n

theorem climbs_freshLabel (stem : String) : Climbs (freshLabel stem) :=
  fun n => Nat.le_succ n

theorem Climbs.bind (hx : Climbs x) (hf : ∀ a, Climbs (f a)) : Climbs (x >>= f) := by
  intro n
  have hle := hx n
  change n ≤ counter (EStateM.bind x f n)
  rw [EStateM.bind]
  cases hresult : x n with
  | error e m =>
      rw [hresult] at hle
      exact hle
  | ok a m =>
      rw [hresult] at hle
      exact Nat.le_trans hle (hf a m)

theorem Climbs.thenPure (hx : Climbs x) (b : α → β) : Climbs (x >>= fun a => pure (b a)) :=
  hx.bind fun a => climbs_pure (b a)

end Compile

namespace Expression

open Compile

theorem enterCode_climbs (target : Register) (returnTo : Option Label) :
    Climbs (enterCode target returnTo) := by
  unfold enterCode
  cases returnTo with
  | none =>
      simp only
      split
      · exact climbs_pure _
      · exact climbs_throw _
  | some label =>
      simp only
      split
      · exact climbs_pure _
      · exact (climbs_freshLabel _).thenPure _

theorem callCode_climbs (target : Register) (linkage : Linkage) :
    Climbs (callCode target linkage) :=
  (climbs_freshLabel _).bind fun _ => (climbs_freshLabel _).bind fun _ =>
    (climbs_freshLabel _).bind fun _ => (enterCode_climbs target _).thenPure _

mutual

theorem compile_climbs : ∀ (e : Expression) {target : Register} {linkage : Linkage},
    Climbs (compile target linkage e)
  | .constant _ => climbs_pure _
  | .reference _ => climbs_pure _
  | .assignment _ value => (compile_climbs value).thenPure _
  | .definition _ value => (compile_climbs value).thenPure _
  | .conditional test consequent alternative =>
      (climbs_freshLabel _).bind fun _ => (climbs_freshLabel _).bind fun _ =>
        (climbs_freshLabel _).bind fun _ => (compile_climbs test).bind fun _ =>
          (compile_climbs consequent).bind fun _ => (compile_climbs alternative).thenPure _
  | .lambda _ body =>
      (climbs_freshLabel _).bind fun _ => (climbs_freshLabel _).bind fun _ =>
        (compileSequence_climbs body).thenPure _
  | .sequence body => compileSequence_climbs body
  | .application operator operands =>
      (compile_climbs operator).bind fun _ => (compileOperands_climbs operands).bind fun _ =>
        (callCode_climbs _ _).thenPure _
  | .malformed _ => climbs_throw _

theorem compileSequence_climbs : ∀ (es : List Expression) {target : Register} {linkage : Linkage},
    Climbs (compileSequence target linkage es)
  | [] => climbs_pure _
  | [last] => compile_climbs last
  | first :: second :: rest =>
      (compile_climbs first).bind fun _ => (compileSequence_climbs (second :: rest)).thenPure _

theorem compileOperands_climbs : ∀ es : List Expression, Climbs (compileOperands es)
  | [] => climbs_pure _
  | operand :: rest =>
      (compile_climbs operand).bind fun _ => (compileOperands_climbs rest).thenPure _

end
end Expression

/-! ## Sessions -/

namespace Compile

/-- What a session can be asked to compile. -/
inductive Call where
  /-- A datum as an expression, for any target and with any linkage. -/
  | expression (target : Register) (linkage : Linkage) (datum : Datum)
  | program (forms : List Datum)

/-- The step of compilation that a call asks for. -/
def Call.step : Call → Compile Sequence
  | expression target linkage datum => (Expression.ofDatum datum).compile target linkage
  | program forms => Expression.compileProgram forms

/-- What a call has come to, with the counter before and after it. -/
structure Reply where
  before : Nat
  after : Nat
  outcome : Except CompileError Sequence

/-- One call, from a counter on. -/
def Call.reply (call : Call) (n : Nat) : Reply :=
  match call.step n with
  | .ok code n' => ⟨n, n', .ok code⟩
  | .error e n' => ⟨n, n', .error e⟩

/-- The labels that stand in what a call has compiled. -/
def Reply.markers (reply : Reply) : List Label :=
  match reply.outcome with
  | .ok code => labels code.statements
  | .error _ => []

/-- One call after the other, each from the counter that the one before has left. -/
def session (n : Nat) : List Call → List Reply
  | [] => []
  | call :: rest => call.reply n :: session (call.reply n).after rest

theorem Call.step_climbs (call : Call) : Climbs call.step := by
  cases call with
  | expression target linkage datum => exact Expression.compile_climbs _
  | program forms => exact Expression.compileSequence_climbs _

theorem Call.step_made {call : Call} {n n' : Nat} {code : Sequence}
    (h : call.step n = .ok code n') : MadeBetween n n' (labels code.statements) := by
  cases call with
  | expression target linkage datum => exact Expression.compile_made _ h
  | program forms => exact Expression.compileSequence_made _ h

theorem Call.reply_before (call : Call) (n : Nat) : (call.reply n).before = n := by
  unfold reply
  cases call.step n <;> rfl

theorem Call.le_reply_after (call : Call) (n : Nat) : n ≤ (call.reply n).after := by
  have hle := call.step_climbs n
  unfold reply
  cases hstep : call.step n with
  | ok code n' =>
      rw [hstep] at hle
      exact hle
  | error e n' =>
      rw [hstep] at hle
      exact hle

/-- Code that a call has compiled has the labels that were made for it. -/
theorem Call.reply_made {call : Call} {n : Nat} {code : Sequence}
    (h : (call.reply n).outcome = .ok code) :
    MadeBetween n (call.reply n).after (labels code.statements) := by
  unfold reply at h ⊢
  cases hstep : call.step n with
  | ok code' n' =>
      rw [hstep] at h
      cases h
      exact step_made hstep
  | error e n' =>
      rw [hstep] at h
      cases h

/-- A reply of a session is the reply to a call, from a counter that is not below the first. -/
theorem exists_call_of_mem_session {n : Nat} {calls : List Call} {reply : Reply}
    (h : reply ∈ session n calls) : ∃ (call : Call) (m : Nat), reply = call.reply m ∧ n ≤ m := by
  induction calls generalizing n with
  | nil => cases h
  | cons call rest ih =>
      rcases List.mem_cons.mp h with rfl | h
      · exact ⟨call, n, rfl, Nat.le_refl n⟩
      · obtain ⟨later, m, hreply, hle⟩ := ih h
        exact ⟨later, m, hreply, Nat.le_trans (call.le_reply_after n) hle⟩

/-- Every call finds a counter that is not below what an earlier one has left. -/
theorem session_ordered (n : Nat) (calls : List Call) :
    (session n calls).Pairwise fun earlier later => earlier.after ≤ later.before := by
  induction calls generalizing n with
  | nil => exact .nil
  | cons call rest ih =>
      refine .cons ?_ (ih _)
      intro later hlater
      obtain ⟨laterCall, m, rfl, hle⟩ := exists_call_of_mem_session hlater
      rw [laterCall.reply_before]
      exact hle

/-- The counter before and after each of some calls. -/
def counters (replies : List Reply) : List Nat :=
  replies.flatMap fun reply => [reply.before, reply.after]

/-- The counter never goes down, whether calls fail or not. -/
theorem counters_session (n : Nat) (calls : List Call) :
    (n :: counters (session n calls)).Pairwise (· ≤ ·) := by
  rw [← List.isChain_iff_pairwise]
  induction calls generalizing n with
  | nil => exact .singleton n
  | cons call rest ih =>
      change (n :: (call.reply n).before :: (call.reply n).after ::
        counters (session (call.reply n).after rest)).IsChain (· ≤ ·)
      rw [call.reply_before]
      exact .cons_cons (Nat.le_refl n) (.cons_cons (call.le_reply_after n) (ih _))

theorem Call.reply_markers_made (call : Call) (n : Nat) :
    (call.reply n).markers = [] ∨ MadeBetween n (call.reply n).after (call.reply n).markers := by
  cases houtcome : (call.reply n).outcome with
  | error e =>
      refine Or.inl ?_
      rw [Reply.markers, houtcome]
  | ok code =>
      refine Or.inr ?_
      rw [Reply.markers, houtcome]
      exact reply_made houtcome

/-- Labels are numbered between the counters of the call that they were made for. -/
theorem Call.reply_markers_bounds {call : Call} {n : Nat} {name : Label}
    (h : name ∈ (call.reply n).markers) :
    ∃ i, suffix? name = some i ∧ n ≤ i ∧ i < (call.reply n).after := by
  rcases call.reply_markers_made n with hnil | hmade
  · rw [hnil] at h
    cases h
  · exact hmade.bounds h

theorem Call.reply_markers_nodup (call : Call) (n : Nat) : (call.reply n).markers.Nodup := by
  rcases call.reply_markers_made n with hnil | hmade
  · rw [hnil]
    exact List.nodup_nil
  · exact hmade.nodup

/-- No label stands twice in what a session compiles. -/
theorem session_markers_nodup (n : Nat) (calls : List Call) :
    ((session n calls).flatMap Reply.markers).Nodup := by
  rw [List.nodup_flatMap]
  constructor
  · intro reply hreply
    obtain ⟨call, m, rfl, -⟩ := exists_call_of_mem_session hreply
    exact call.reply_markers_nodup m
  · refine (session_ordered n calls).imp_of_mem ?_
    intro earlier later hearlier hlater hle name hname hname'
    obtain ⟨call, m, rfl, -⟩ := exists_call_of_mem_session hearlier
    obtain ⟨call', m', rfl, -⟩ := exists_call_of_mem_session hlater
    obtain ⟨i, hi, -, hlt⟩ := Call.reply_markers_bounds hname
    obtain ⟨i', hi', hle', -⟩ := Call.reply_markers_bounds hname'
    have hsame : i = i' := Option.some.inj (hi.symm.trans hi')
    rw [call'.reply_before] at hle
    omega

/-- In a session the counter never goes down.  Code that is compiled while it goes from one number
to another has so many labels, which are all different and end in the numbers from the one up to the
other, each once.  So no label stands twice in what the session compiles. -/
theorem session_labels_fresh (n : Nat) (calls : List Call) :
    (n :: counters (session n calls)).Pairwise (· ≤ ·) ∧
      (∀ reply ∈ session n calls, ∀ code, reply.outcome = .ok code →
        (labels code.statements).length = reply.after - reply.before ∧
        (labels code.statements).Nodup ∧
        ((labels code.statements).map suffix?).Perm
          ((List.range' reply.before (reply.after - reply.before)).map some)) ∧
      ((session n calls).flatMap Reply.markers).Nodup := by
  refine ⟨counters_session n calls, ?_, session_markers_nodup n calls⟩
  intro reply hreply code hcode
  obtain ⟨call, m, rfl, -⟩ := exists_call_of_mem_session hreply
  rw [call.reply_before]
  have hmade := Call.reply_made hcode
  exact ⟨hmade.length_eq, hmade.nodup, hmade.suffixes⟩

/-- After `(lambda () (if))` has failed inside the body, code for `(f)` that leaves its value in
`env` begins with the number that comes next. -/
theorem labels_fresh_after_failure :
    let failing : Call := .program [.pair ⟨1, none⟩ (.symbol ⟨2, none⟩ "lambda") (.pair ⟨3, none⟩
      (.empty ⟨4, none⟩) (.pair ⟨5, none⟩ (.pair ⟨6, none⟩ (.symbol ⟨7, none⟩ "if")
        (.empty ⟨8, none⟩)) (.empty ⟨9, none⟩)))]
    let call : Call :=
      .expression .env .next (.pair ⟨1, none⟩ (.symbol ⟨2, none⟩ "f") (.empty ⟨3, none⟩))
    ∃ code, counters (session 0 [failing, call]) = [0, 2, 2, 6] ∧
      (call.reply 2).outcome = .ok code ∧ (labels code.statements).length = 4 ∧
      (labels code.statements).Nodup ∧
      ((labels code.statements).map suffix?).Perm [some 2, some 3, some 4, some 5] := by
  intro failing call
  refine ⟨_, rfl, rfl, ?_⟩
  have hmem : call.reply 2 ∈ session 0 [failing, call] :=
    List.mem_cons_of_mem _ (List.mem_singleton.mpr rfl)
  exact (session_labels_fresh 0 [failing, call]).2.1 (call.reply 2) hmem _ rfl

end Compile
end SchemeMachine
