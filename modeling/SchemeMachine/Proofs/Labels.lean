import SchemeMachine.Proofs.FreshLabels

/-!
# Compiled code assembles

A jump in the code of an expression leads to one of the labels that stand in it or where the linkage
says, and nothing comes after a transfer but a label.  This is kept wherever codes are put together.
So the code of a program, which goes nowhere else and whose labels are all fresh, can always be
assembled.
-/

namespace SchemeMachine

namespace Program

/-! ## Code that fits in -/

/-- Whether a transfer comes last in some statements, or `closed` if there are none. -/
def ends (closed : Bool) : List Statement → Bool
  | [] => closed
  | .jump _ :: rest => ends true rest
  | _ :: rest => ends false rest

theorem ends_append (closed : Bool) (first second : List Statement) :
    ends closed (first ++ second) = ends (ends closed first) second := by
  induction first generalizing closed with
  | nil => rfl
  | cons s rest ih => cases s <;> exact ih _

theorem connected_append (closed : Bool) (first second : List Statement) :
    Connected closed (first ++ second) ↔
      Connected closed first ∧ Connected (ends closed first) second := by
  induction first generalizing closed with
  | nil => simp [Connected, ends]
  | cons s rest ih =>
      cases s with
      | label name => exact ih false
      | perform operation => simp only [List.cons_append, Connected, ends, ih, and_assoc]
      | jump transfer => simp only [List.cons_append, Connected, ends, ih, and_assoc]

/-- Code that can be part of a program: it jumps to labels of its own or where the linkage says, and
after a transfer there comes a label.  With linkage `next`, control gets to its end. -/
structure Fits (linkage : Linkage) (statements : List Statement) : Prop where
  targets : ∀ s ∈ statements, ∀ l ∈ s.targets, l ∈ labels statements ∨ linkage = .label l
  connected : Connected false statements
  opens : linkage = .next → ends false statements = false

namespace Fits

variable {linkage : Linkage} {first second : List Statement}

/-- Unless the linkage is a label, code jumps to labels of its own alone. -/
theorem own_target (h : Fits linkage first) (hlinkage : ∀ l, linkage ≠ .label l) {s : Statement}
    (hs : s ∈ first) {l : Label} (hl : l ∈ s.targets) : l ∈ labels first :=
  (h.targets s hs l hl).resolve_right (hlinkage l)

theorem append (h : Fits .next first) (h' : Fits linkage second) :
    Fits linkage (first ++ second) := by
  refine ⟨?_, ?_, ?_⟩
  · intro s hs l hl
    rw [labels_append, List.mem_append]
    rcases List.mem_append.mp hs with hs | hs
    · exact Or.inl (Or.inl (h.own_target (by simp) hs hl))
    · exact (h'.targets s hs l hl).imp_left Or.inr
  · rw [connected_append, h.opens rfl]
    exact ⟨h.connected, h'.connected⟩
  · intro hnext
    rw [ends_append, h.opens rfl]
    exact h'.opens hnext

theorem nil (linkage : Linkage) : Fits linkage [] :=
  ⟨nofun, trivial, fun _ => rfl⟩

/-- An operation comes first. -/
theorem perform {operation : Operation Label}
    (htargets : ∀ l ∈ operation.targets, l ∈ labels second ∨ linkage = .label l)
    (h : Fits linkage second) : Fits linkage (.perform operation :: second) := by
  refine ⟨?_, ⟨rfl, h.connected⟩, h.opens⟩
  intro s hs l hl
  rcases List.mem_cons.mp hs with rfl | hs
  · exact htargets l hl
  · exact h.targets s hs l hl

/-- An operation that points nowhere comes first. -/
theorem plain {operation : Operation Label} (htargets : operation.targets = [])
    (h : Fits linkage second) : Fits linkage (.perform operation :: second) := by
  refine h.perform ?_
  intro l hl
  rw [htargets] at hl
  cases hl

theorem label (name : Label) (h : Fits linkage second) : Fits linkage (.label name :: second) := by
  refine ⟨?_, h.connected, h.opens⟩
  intro s hs l hl
  rcases List.mem_cons.mp hs with rfl | hs
  · cases hl
  · exact (h.targets s hs l hl).imp_left (List.mem_cons_of_mem name)

/-- Going where a register points comes last, or before a label. -/
theorem indirect (r : Register) (hlinkage : linkage ≠ .next) :
    Fits linkage [.jump (.indirect r)] := by
  refine ⟨?_, ⟨rfl, trivial⟩, fun hnext => absurd hnext hlinkage⟩
  intro s hs l hl
  rw [List.mem_singleton.mp hs] at hl
  cases hl

theorem indirect_label (r : Register) (name : Label) (h : Fits linkage second) :
    Fits linkage (.jump (.indirect r) :: .label name :: second) := by
  refine ⟨?_, ⟨rfl, h.connected⟩, h.opens⟩
  intro s hs l hl
  rcases List.mem_cons.mp hs with rfl | hs
  · cases hl
  · exact (h.label name).targets s hs l hl

theorem linkageCode (linkage : Linkage) : Fits linkage linkage.code.statements := by
  cases linkage with
  | next => exact nil .next
  | caller => exact indirect .kontinue nofun
  | label name =>
      refine ⟨?_, ⟨rfl, trivial⟩, nofun⟩
      intro s hs l hl
      rw [List.mem_singleton.mp hs] at hl
      rw [List.mem_singleton.mp hl]
      exact Or.inr rfl

theorem orLabel_eq_label {name l : Label} (h : linkage.orLabel name = .label l) :
    l = name ∨ linkage = .label l := by
  cases linkage with
  | next =>
      cases h
      exact Or.inl rfl
  | caller => cases h
  | label name => exact Or.inr h

/-- Two codes of which either is chosen; the first goes on after the second. -/
theorem fork {test : Operation Label} (htest : test.targets = []) (reads : Register)
    (firstLabel secondLabel after : Label) {first second : Sequence}
    (h : Fits (linkage.orLabel after) first.statements) (h' : Fits linkage second.statements) :
    Fits linkage
      (Expression.fork test reads firstLabel secondLabel after first second).statements := by
  rw [Expression.fork_statements_eq]
  refine ⟨?_, ?_, ?_⟩
  · intro s hs l hl
    simp only [labels, labels_append, List.mem_cons, List.mem_append]
    simp only [List.mem_cons, List.mem_append, List.not_mem_nil, or_false] at hs
    rcases hs with rfl | rfl | rfl | hs | rfl | hs | rfl
    · simp [Statement.targets, htest] at hl
    · simp only [Statement.targets, Operation.targets, List.mem_singleton] at hl
      simp [hl]
    · cases hl
    · rcases h.targets s hs l hl with hmem | hlink
      · simp [hmem]
      · rcases orLabel_eq_label hlink with rfl | hlink
        · simp
        · exact Or.inr hlink
    · cases hl
    · rcases h'.targets s hs l hl with hmem | hlink
      · simp [hmem]
      · exact Or.inr hlink
    · cases hl
  · simp only [Connected, connected_append, true_and, and_true]
    exact ⟨h.connected, h'.connected⟩
  · intro _
    simp [ends, ends_append]

/-- Code that makes a procedure, with the code of the procedure after it. -/
theorem lambdaCode (entry afterLambda : Label) (formals : List String) {body : Sequence}
    (h : Fits .caller body.statements) (target : Register) (linkage : Linkage) :
    Fits linkage
      (Expression.lambdaCode entry afterLambda formals body target linkage).statements := by
  obtain ⟨first, hclosure, hfirst⟩ := Expression.after_assign_statements
    (linkage.orLabel afterLambda) [.env] target (.makeClosure entry)
  have hlinkage := linkageCode (linkage.orLabel afterLambda)
  have hstatements :
      (Expression.lambdaCode entry afterLambda formals body target linkage).statements =
        first ++ ((linkage.orLabel afterLambda).code.statements ++
          .label entry :: .assign .env .closureEnv :: .assign .env (.extendEnv formals) ::
            (body.statements ++ [.label afterLambda])) := by
    simp only [Expression.lambdaCode, Sequence.append, Sequence.tackOn, hclosure]
    simp [Sequence.label, Sequence.of]
  -- What makes the procedure points to its entry alone, and control goes on after it.
  have hmakes : ∀ s ∈ first, ∀ l ∈ s.targets, l = entry := by
    rcases hfirst with rfl | rfl <;>
      simp [Statement.assign, Statement.targets, Operation.targets, Operand.targets]
  have hplain : labels first = [] ∧ Connected false first ∧ ends false first = false := by
    rcases hfirst with rfl | rfl <;> simp [Statement.assign, labels, Connected, ends]
  rw [hstatements]
  refine ⟨?_, ?_, ?_⟩
  · intro s hs l hl
    simp only [labels, labels_append, hplain.1, List.nil_append, List.mem_cons, List.mem_append,
      Statement.assign]
    simp only [List.mem_cons, List.mem_append, List.not_mem_nil, or_false] at hs
    rcases hs with hs | hs | rfl | rfl | rfl | hs | rfl
    · simp [hmakes s hs l hl]
    · rcases hlinkage.targets s hs l hl with hmem | hlink
      · simp [hmem]
      · rcases orLabel_eq_label hlink with rfl | hlink
        · simp
        · exact Or.inr hlink
    · cases hl
    · cases hl
    · cases hl
    · have hmem := h.own_target (by simp) hs hl
      simp [hmem]
    · cases hl
  · simp only [Connected, connected_append, Statement.assign, hplain, true_and, and_true]
    exact ⟨hlinkage.connected, h.connected⟩
  · intro _
    simp [ends, ends_append, Statement.assign]

theorem protectFor {first : Sequence} (h : Fits .next first.statements) (registers : List Register)
    (second : Sequence) : Fits .next (Sequence.protectFor registers first second).statements := by
  have hprotect : ∀ (s : Sequence) (r : Register), Fits .next s.statements →
      Fits .next (s.protect r).statements :=
    fun _ _ hs => .plain rfl (hs.append (.plain rfl (.nil _)))
  induction registers generalizing first with
  | nil => exact h
  | cons r rest ih =>
      refine ih ?_
      simp only
      split
      · exact hprotect first r h
      · exact h

theorem preserving {first second : Sequence} (h : Fits .next first.statements)
    (h' : Fits linkage second.statements) (registers : List Register) :
    Fits linkage (Sequence.preserving registers first second).statements :=
  (h.protectFor registers second).append h'

theorem after {code : Sequence} (linkage : Linkage) (h : Fits .next code.statements) :
    Fits linkage (linkage.after code).statements :=
  h.preserving (linkageCode linkage) [.kontinue]

/-- An assignment without targets. -/
theorem assign {source : Operand Label} (hsource : source.targets = []) (target : Register) :
    Fits .next [.assign target source] :=
  .perform (by simp [Operation.targets, hsource]) (.nil _)

end Fits
end Program

/-! ## Compiling -/

namespace Expression

open Sequence Compile Program

variable {linkage : Linkage}

/-- Code that stores a value. -/
theorem storeCode_fits {store : Operation Label} (hstore : store.targets = []) {value : Sequence}
    (h : Fits .next value.statements) (target : Register) (linkage : Linkage) :
    Fits linkage (storeCode store value target linkage).statements := by
  have hrest : Fits .next (of [.env, .val] [target]
      [.perform store, .assign target (.const (.symbol "ok"))]).statements :=
    .plain hstore (.plain rfl (.nil _))
  exact .after linkage (h.preserving hrest [.env])

theorem restArguments_fits {codes : List Sequence}
    (h : ∀ code ∈ codes, Fits .next code.statements) :
    Fits .next (restArguments codes).statements := by
  have hconsNext : ∀ code, Fits .next code.statements →
      Fits .next (restArguments.consNext code).statements :=
    fun _ hcode => hcode.preserving (.assign rfl _) [.argl]
  induction codes using restArguments.induct with
  | case1 => exact .nil _
  | case2 code => exact hconsNext code (h code List.mem_cons_self)
  | case3 code more hmore ih =>
      rw [restArguments]
      · have hrest := ih fun code hcode => h code (List.mem_cons_of_mem _ hcode)
        exact (hconsNext code (h code List.mem_cons_self)).preserving hrest [.env]
      · exact hmore

theorem argumentCode_fits {codes : List Sequence}
    (h : ∀ code ∈ codes, Fits .next code.statements) :
    Fits .next (argumentCode codes).statements := by
  have hfits : ∀ code ∈ codes.reverse, Fits .next code.statements :=
    fun code hmem => h code (List.mem_reverse.mp hmem)
  unfold argumentCode
  cases hcodes : codes.reverse with
  | nil => exact .assign rfl _
  | cons last before =>
      rw [hcodes] at hfits
      have hlist : Fits .next (of [.val] [.argl] [.assign .argl .listArg]).statements :=
        .assign rfl _
      have hsingle := (hfits last List.mem_cons_self).append hlist
      simp only
      split
      · exact hsingle
      · have hrest := restArguments_fits fun code hcode =>
          hfits code (List.mem_cons_of_mem _ hcode)
        exact Fits.preserving hsingle hrest [.env]

theorem enterCode_fits {target : Register} (hlinkage : linkage ≠ .next) {n n' : Nat}
    {code : Sequence} (h : enterCode target linkage.returnTo? n = .ok code n') :
    Fits linkage code.statements := by
  cases linkage with
  | next => exact absurd rfl hlinkage
  | caller =>
      simp only [enterCode, Linkage.returnTo?] at h
      split at h
      · cases h
        exact .plain rfl (.indirect .val hlinkage)
      · cases h
  | label name =>
      simp only [enterCode, Linkage.returnTo?] at h
      split at h
      · cases h
        exact .perform (by simp [Operation.targets, Operand.targets])
          (.plain rfl (.indirect .val hlinkage))
      · rw [freshLabel_bind] at h
        cases h
        refine .perform ?_ (.plain rfl (.indirect_label .val _
          (.plain rfl (.linkageCode (.label name)))))
        simp [Operation.targets, Operand.targets, Statement.assign, labels]

theorem callCode_fits {target : Register} {n n' : Nat} {code : Sequence}
    (h : callCode target linkage n = .ok code n') : Fits linkage code.statements := by
  obtain ⟨enter, henter, rfl⟩ := callCode_eq_ok h
  have hlinkage : linkage.orLabel (numbered "afterCall" (n + 2)) ≠ .next := by
    cases linkage <;> exact nofun
  exact .fork rfl .proc _ _ _ (enterCode_fits hlinkage henter) (.after linkage (.assign rfl _))

mutual

theorem compile_fits : ∀ (e : Expression) {target : Register} {linkage : Linkage} {n n' : Nat}
    {code : Sequence}, compile target linkage e n = .ok code n' → Fits linkage code.statements
  | .constant c, target, linkage, n, n', code, h => by
      cases h
      exact .after linkage (.assign rfl _)
  | .reference name, target, linkage, n, n', code, h => by
      cases h
      exact .after linkage (.assign rfl _)
  | .assignment name value, target, linkage, n, n', code, h => by
      obtain ⟨valueCode, hvalue, rfl⟩ := compile_assignment h
      exact storeCode_fits rfl (compile_fits value hvalue) target linkage
  | .definition name value, target, linkage, n, n', code, h => by
      obtain ⟨valueCode, hvalue, rfl⟩ := compile_definition h
      exact storeCode_fits rfl (compile_fits value hvalue) target linkage
  | .conditional test consequent alternative, target, linkage, n, n', code, h => by
      obtain ⟨testCode, consequentCode, alternativeCode, m, m', htest, hconsequent, halternative,
        rfl⟩ := compile_conditional h
      have hfork : Fits linkage
          (fork .testFalse .val (numbered "trueBranch" n) (numbered "falseBranch" (n + 1))
            (numbered "afterIf" (n + 2)) consequentCode alternativeCode).statements :=
        .fork rfl .val _ _ _ (compile_fits consequent hconsequent)
          (compile_fits alternative halternative)
      exact (compile_fits test htest).preserving hfork [.env, .kontinue]
  | .lambda formals body, target, linkage, n, n', code, h => by
      obtain ⟨bodyCode, hbody, rfl⟩ := compile_lambda h
      exact .lambdaCode _ _ formals (compileSequence_fits body hbody) target linkage
  | .sequence body, target, linkage, n, n', code, h => compileSequence_fits body h
  | .application operator operands, target, linkage, n, n', code, h => by
      obtain ⟨operatorCode, operandCodes, call, m, m', hoperator, hoperands, hcall, rfl⟩ :=
        compile_application h
      have harguments := argumentCode_fits (compileOperands_fits operands hoperands)
      exact (compile_fits operator hoperator).preserving
        (harguments.preserving (callCode_fits hcall) [.proc, .kontinue]) [.env, .kontinue]
  | .malformed why, _, _, _, _, _, h => nomatch h

theorem compileSequence_fits : ∀ (es : List Expression) {target : Register} {linkage : Linkage}
    {n n' : Nat} {code : Sequence}, compileSequence target linkage es n = .ok code n' →
      Fits linkage code.statements
  | [], target, linkage, n, n', code, h => by
      cases h
      exact .nil linkage
  | [last], target, linkage, n, n', code, h => compile_fits last h
  | first :: second :: rest, target, linkage, n, n', code, h => by
      obtain ⟨firstCode, restCode, m, hfirst, hrest, rfl⟩ := compileSequence_cons h
      exact (compile_fits first hfirst).preserving
        (compileSequence_fits (second :: rest) hrest) [.env, .kontinue]

theorem compileOperands_fits : ∀ (es : List Expression) {n n' : Nat}
    {codes : List Sequence}, compileOperands es n = .ok codes n' →
      ∀ code ∈ codes, Fits .next code.statements
  | [], n, n', codes, h => by
      cases h
      exact fun _ hmem => absurd hmem List.not_mem_nil
  | operand :: rest, n, n', codes, h => by
      obtain ⟨operandCode, restCodes, m, hoperand, hrest, rfl⟩ := compileOperands_cons h
      intro code hcode
      rcases List.mem_cons.mp hcode with rfl | hcode
      · exact compile_fits operand hoperand
      · exact compileOperands_fits rest hrest code hcode

end

/-- Code that can be part of a program: it fits in, and has the labels that were made for it. -/
structure Placeable (linkage : Linkage) (n n' : Nat) (code : Sequence) : Prop where
  made : MadeBetween n n' code.markers
  fits : Fits linkage code.statements

theorem compile_placeable (e : Expression) {target : Register} {n n' : Nat} {code : Sequence}
    (h : compile target linkage e n = .ok code n') : Placeable linkage n n' code :=
  ⟨compile_made e h, compile_fits e h⟩

theorem compileSequence_placeable (es : List Expression) {target : Register} {n n' : Nat}
    {code : Sequence} (h : compileSequence target linkage es n = .ok code n') :
    n ≤ n' ∧ Placeable linkage n n' code := by
  have hmade := compileSequence_made es h
  exact ⟨hmade.le, hmade, compileSequence_fits es h⟩

/-- Code that goes nowhere else assembles. -/
theorem Placeable.assembles {n n' : Nat} {code : Sequence} (h : Placeable .next n n' code) :
    ∃ p, Program.assemble code.statements = .ok p := by
  refine ⟨_, assemble_eq_ok_iff.mpr ⟨?_, ?_, h.fits.connected, rfl⟩⟩
  · exact List.nodup_cons.mpr ⟨h.made.entryName_notMem, h.made.nodup⟩
  · intro s hs l hl
    exact List.mem_cons_of_mem _ (h.fits.own_target (by simp) hs hl)

/-- The code of a program assembles. -/
theorem compileProgram_assembles {forms : List Datum} {n n' : Nat} {code : Sequence}
    (h : compileProgram forms n = .ok code n') :
    ∃ p, Program.assemble code.statements = .ok p := by
  obtain ⟨-, hplaced⟩ := compileSequence_placeable (forms.map ofDatum) h
  exact hplaced.assembles

end Expression
end SchemeMachine
