import SchemeMachine.Proofs.Faults
import SchemeMachine.Proofs.Labels

/-!
# Code and the numbers of its labels

The counter that a compilation starts from shows in the labels of the code and nowhere else.
Everything that puts code together commutes with a replacement of labels.  So a replacement that
takes the labels numbered from `m` on to those numbered from `n` on takes the code compiled from `m`
on to that compiled from `n` on, if it takes the linkage of the one to that of the other.

A label of the caller may look like a fresh one, and such a replacement would not leave it alone.
It is therefore kept apart: code is compiled for a label that can never be fresh, and the label of
the caller is put in its place afterwards.

Blocks are numbered by where they stand, so in an assembled program only their names are left of
the labels.
-/

namespace SchemeMachine

/-! ## Replacing labels -/

/-- A statement with its labels replaced. -/
def Statement.relabel (ρ : Label → Label) : Statement → Statement
  | label name => .label (ρ name)
  | perform operation => .perform (operation.map ρ)
  | jump transfer => .jump (transfer.map ρ)

/-- A sequence with its labels replaced. -/
def Sequence.relabel (ρ : Label → Label) (code : Sequence) : Sequence :=
  ⟨code.needs, code.modifies, code.statements.map (Statement.relabel ρ)⟩

/-- A linkage with its label replaced. -/
def Linkage.relabel (ρ : Label → Label) : Linkage → Linkage
  | .next => .next
  | .caller => .caller
  | label name => .label (ρ name)

variable (ρ : Label → Label)

namespace Statement

theorem relabel_relabel (σ : Label → Label) (s : Statement) :
    (s.relabel ρ).relabel σ = s.relabel (σ ∘ ρ) := by
  cases s with
  | label name => rfl
  | perform operation => exact congrArg perform (operation.map_map ρ σ)
  | jump transfer => exact congrArg jump (transfer.map_map ρ σ)

theorem targets_relabel (s : Statement) : (s.relabel ρ).targets = s.targets.map ρ := by
  cases s with
  | label name => rfl
  | perform operation => exact operation.targets_map ρ
  | jump transfer => exact transfer.targets_map ρ

end Statement

namespace Program

theorem labels_relabel (statements : List Statement) :
    labels (statements.map (Statement.relabel ρ)) = (labels statements).map ρ := by
  induction statements with
  | nil => rfl
  | cons s rest ih => cases s <;> simp [labels, Statement.relabel, ih]

/-- Replacements that agree on the labels that stand in some statements and on those that they
point to do the same. -/
theorem map_relabel_congr {ρ σ : Label → Label} {statements : List Statement}
    (hlabels : ∀ l ∈ labels statements, ρ l = σ l)
    (htargets : ∀ s ∈ statements, ∀ l ∈ s.targets, ρ l = σ l) :
    statements.map (Statement.relabel ρ) = statements.map (Statement.relabel σ) := by
  induction statements with
  | nil => rfl
  | cons s rest ih =>
      obtain ⟨hs, hrest⟩ := List.forall_mem_cons.mp htargets
      cases s with
      | label name =>
          obtain ⟨hname, hlabels⟩ := List.forall_mem_cons.mp hlabels
          rw [List.map_cons, List.map_cons, ih hlabels hrest, Statement.relabel,
            Statement.relabel, hname]
      | perform operation =>
          rw [List.map_cons, List.map_cons, ih hlabels hrest, Statement.relabel,
            Statement.relabel, Operation.map_congr hs]
      | jump transfer =>
          rw [List.map_cons, List.map_cons, ih hlabels hrest, Statement.relabel,
            Statement.relabel, Transfer.map_congr hs]

end Program

namespace Sequence

@[simp] theorem relabel_append (first second : Sequence) :
    (first.append second).relabel ρ = (first.relabel ρ).append (second.relabel ρ) := by
  simp [relabel, append]

@[simp] theorem relabel_parallel (first second : Sequence) :
    (first.parallel second).relabel ρ = (first.relabel ρ).parallel (second.relabel ρ) := by
  simp [relabel, parallel]

@[simp] theorem relabel_tackOn (main body : Sequence) :
    (main.tackOn body).relabel ρ = (main.relabel ρ).tackOn (body.relabel ρ) := by
  simp [relabel, tackOn]

@[simp] theorem relabel_of (needs modifies : List Register) (statements : List Statement) :
    (of needs modifies statements).relabel ρ =
      of needs modifies (statements.map (Statement.relabel ρ)) :=
  rfl

@[simp] theorem relabel_label (name : Label) : (label name).relabel ρ = label (ρ name) :=
  rfl

/-- Which registers are protected depends on no label. -/
theorem relabel_protectFor (registers : List Register) (first second : Sequence) :
    (protectFor registers first second).relabel ρ =
      protectFor registers (first.relabel ρ) (second.relabel ρ) := by
  have hprotect : ∀ (s : Sequence) (r : Register),
      (s.protect r).relabel ρ = (s.relabel ρ).protect r := by
    intro s r
    simp [relabel, protect, Statement.relabel, Operation.map]
  induction registers generalizing first with
  | nil => rfl
  | cons r rest ih =>
      refine (ih _).trans ?_
      rw [apply_ite (relabel ρ), hprotect]
      rfl

@[simp] theorem relabel_preserving (registers : List Register) (first second : Sequence) :
    (preserving registers first second).relabel ρ =
      preserving registers (first.relabel ρ) (second.relabel ρ) := by
  rw [preserving, relabel_append, relabel_protectFor, preserving]

end Sequence

@[simp] theorem Linkage.relabel_orLabel (linkage : Linkage) (name : Label) :
    (linkage.orLabel name).relabel ρ = (linkage.relabel ρ).orLabel (ρ name) := by
  cases linkage <;> rfl

@[simp] theorem Linkage.relabel_after (linkage : Linkage) (code : Sequence) :
    (linkage.after code).relabel ρ = (linkage.relabel ρ).after (code.relabel ρ) := by
  have hcode : linkage.code.relabel ρ = (linkage.relabel ρ).code := by
    cases linkage <;> rfl
  rw [after, Sequence.relabel_preserving, hcode, after]

namespace Expression

open Sequence Compile Program

theorem relabel_storeCode {store : Operation Label} (hstore : store.map ρ = store)
    (value : Sequence) (target : Register) (linkage : Linkage) :
    (storeCode store value target linkage).relabel ρ =
      storeCode store (value.relabel ρ) target (linkage.relabel ρ) := by
  have hstatements : [.perform store, .assign target (.const (.symbol "ok"))].map
      (Statement.relabel ρ) = [.perform store, .assign target (.const (.symbol "ok"))] := by
    rw [List.map_cons, Statement.relabel, hstore]
    rfl
  rw [storeCode, Linkage.relabel_after, relabel_preserving, relabel_of, hstatements, storeCode]

theorem relabel_restArguments (codes : List Sequence) :
    (restArguments codes).relabel ρ = restArguments (codes.map (relabel ρ)) := by
  have hconsNext : ∀ code : Sequence,
      (restArguments.consNext code).relabel ρ = restArguments.consNext (code.relabel ρ) := by
    intro code
    simp [restArguments.consNext, Statement.relabel, Statement.assign, Operation.map, Operand.map]
  induction codes using restArguments.induct with
  | case1 => rfl
  | case2 code => exact hconsNext code
  | case3 code more hmore ih =>
      have hmore' : more.map (relabel ρ) ≠ [] := by simpa using hmore
      rw [restArguments, relabel_preserving, hconsNext, ih, List.map_cons, restArguments]
      · exact hmore'
      · exact hmore

theorem relabel_argumentCode (codes : List Sequence) :
    (argumentCode codes).relabel ρ = argumentCode (codes.map (relabel ρ)) := by
  unfold argumentCode
  rw [← List.map_reverse]
  cases codes.reverse with
  | nil => rfl
  | cons last before =>
      simp only [List.map_cons, List.isEmpty_map]
      rw [apply_ite (relabel ρ), relabel_preserving, relabel_restArguments, relabel_append]
      rfl

theorem relabel_applicationCode (operator : Sequence) (operands : List Sequence)
    (call : Sequence) :
    (applicationCode operator operands call).relabel ρ =
      applicationCode (operator.relabel ρ) (operands.map (relabel ρ)) (call.relabel ρ) := by
  simp [applicationCode, relabel_argumentCode]

theorem relabel_fork {test : Operation Label} (htest : test.map ρ = test) (reads : Register)
    (firstLabel secondLabel after : Label) (first second : Sequence) :
    (fork test reads firstLabel secondLabel after first second).relabel ρ =
      fork test reads (ρ firstLabel) (ρ secondLabel) (ρ after) (first.relabel ρ)
        (second.relabel ρ) := by
  have hempty : Sequence.empty.relabel ρ = .empty := rfl
  have hchoose : [.perform test, .perform (.branch secondLabel)].map (Statement.relabel ρ) =
      [.perform test, .perform (.branch (ρ secondLabel))] := by
    rw [List.map_cons, Statement.relabel, htest]
    rfl
  simp [fork, appendAll, hempty, hchoose]

theorem relabel_conditionalCode (trueBranch falseBranch afterIf : Label)
    (test consequent alternative : Sequence) :
    (conditionalCode trueBranch falseBranch afterIf test consequent alternative).relabel ρ =
      conditionalCode (ρ trueBranch) (ρ falseBranch) (ρ afterIf) (test.relabel ρ)
        (consequent.relabel ρ) (alternative.relabel ρ) := by
  change (preserving [.env, .kontinue] test
    (fork .testFalse .val trueBranch falseBranch afterIf consequent alternative)).relabel ρ = _
  rw [relabel_preserving, relabel_fork ρ rfl]
  rfl

theorem relabel_lambdaCode (entry afterLambda : Label) (formals : List String) (body : Sequence)
    (target : Register) (linkage : Linkage) :
    (lambdaCode entry afterLambda formals body target linkage).relabel ρ =
      lambdaCode (ρ entry) (ρ afterLambda) formals (body.relabel ρ) target
        (linkage.relabel ρ) := by
  simp [lambdaCode, Statement.relabel, Statement.assign, Operation.map, Operand.map]

end Expression

/-! ## Compiling from two counters -/

namespace Compile

variable {α β γ δ : Type}

/-- The labels numbered from `m` on are taken to those numbered from `n` on. -/
def Shifts (m n : Nat) : Prop :=
  ∀ stem ∈ stems, ∀ i, ρ (numbered stem (m + i)) = numbered stem (n + i)

theorem Shifts.add {ρ : Label → Label} {m n : Nat} (h : Shifts ρ m n) (k : Nat) :
    Shifts ρ (m + k) (n + k) := by
  intro stem hstem i
  rw [Nat.add_assoc, h stem hstem, Nat.add_assoc]

/-- Steps of compilation that do the same, up to a replacement of labels, from counters that it
takes to each other: they make equally many labels and fail alike or succeed, and then what the one
has made is turned into what the other has. -/
def Alike (turn : α → β) (x : Compile α) (y : Compile β) : Prop :=
  ∀ m n, Shifts ρ m n → ∃ k,
    (∃ a, x m = .ok a (m + k) ∧ y n = .ok (turn a) (n + k)) ∨
      ∃ e, x m = .error e (m + k) ∧ y n = .error e (n + k)

variable {ρ}

theorem alike_pure {turn : α → β} {a : α} {b : β} (h : turn a = b) :
    Alike ρ turn (pure a) (pure b) :=
  fun _ _ _ => ⟨0, Or.inl ⟨a, rfl, h ▸ rfl⟩⟩

theorem alike_throw (turn : α → β) (e : CompileError) : Alike ρ turn (throw e) (throw e) :=
  fun _ _ _ => ⟨0, Or.inr ⟨e, rfl, rfl⟩⟩

theorem alike_freshLabel {stem : String} (hstem : stem ∈ stems) :
    Alike ρ ρ (freshLabel stem) (freshLabel stem) := by
  intro m n h
  refine ⟨1, Or.inl ⟨numbered stem m, rfl, ?_⟩⟩
  rw [show ρ (numbered stem m) = numbered stem n from h stem hstem 0]
  rfl

theorem Alike.bind {turn : α → β} {turn' : γ → δ} {x : Compile α} {y : Compile β}
    {f : α → Compile γ} {g : β → Compile δ} (h : Alike ρ turn x y)
    (h' : ∀ a, Alike ρ turn' (f a) (g (turn a))) : Alike ρ turn' (x >>= f) (y >>= g) := by
  intro m n hshifts
  change ∃ k, (∃ a, EStateM.bind x f m = _ ∧ EStateM.bind y g n = _) ∨
    ∃ e, EStateM.bind x f m = _ ∧ EStateM.bind y g n = _
  unfold EStateM.bind
  obtain ⟨k, ⟨a, hx, hy⟩ | ⟨e, hx, hy⟩⟩ := h m n hshifts
  · obtain ⟨k', hlater⟩ := h' a (m + k) (n + k) (hshifts.add k)
    rw [Nat.add_assoc, Nat.add_assoc] at hlater
    rw [hx, hy]
    exact ⟨k + k', hlater⟩
  · rw [hx, hy]
    exact ⟨k, Or.inr ⟨e, rfl, rfl⟩⟩

theorem Alike.thenPure {turn : α → β} {turn' : γ → δ} {x : Compile α} {y : Compile β}
    {f : α → γ} {g : β → δ} (h : Alike ρ turn x y) (h' : ∀ a, turn' (f a) = g (turn a)) :
    Alike ρ turn' (x >>= fun a => pure (f a)) (y >>= fun b => pure (g b)) :=
  h.bind fun a => alike_pure (h' a)

end Compile

namespace Expression

open Sequence Compile Program

theorem enterCode_alike (target : Register) (returnTo : Option Label) :
    Alike ρ (relabel ρ) (enterCode target returnTo) (enterCode target (returnTo.map ρ)) := by
  unfold enterCode
  cases returnTo with
  | none =>
      simp only [Option.map_none]
      split
      · exact alike_pure rfl
      · exact alike_throw _ _
  | some label =>
      simp only [Option.map_some]
      split
      · exact alike_pure rfl
      · exact (alike_freshLabel (by decide)).thenPure fun _ => rfl

theorem callCode_alike (target : Register) (linkage : Linkage) :
    Alike ρ (relabel ρ) (callCode target linkage) (callCode target (linkage.relabel ρ)) := by
  unfold callCode
  refine (alike_freshLabel (by decide)).bind fun primitiveBranch => ?_
  refine (alike_freshLabel (by decide)).bind fun compiledBranch => ?_
  refine (alike_freshLabel (by decide)).bind fun afterCall => ?_
  have hcall : ∀ enter : Sequence, (fork .testPrimitive .proc compiledBranch primitiveBranch
      afterCall enter (linkage.after
        (of [.proc, .argl] [target] [.assign target .applyPrimitive]))).relabel ρ =
      fork .testPrimitive .proc (ρ compiledBranch) (ρ primitiveBranch) (ρ afterCall)
        (enter.relabel ρ) ((linkage.relabel ρ).after
          (of [.proc, .argl] [target] [.assign target .applyPrimitive])) := by
    intro enter
    rw [relabel_fork ρ rfl, Linkage.relabel_after]
    rfl
  cases linkage with
  | next => exact (enterCode_alike ρ target (some afterCall)).thenPure hcall
  | caller => exact (enterCode_alike ρ target none).thenPure hcall
  | label name => exact (enterCode_alike ρ target (some name)).thenPure hcall

mutual

/-- A replacement of labels that takes the fresh ones from one counter on to those from another on
takes the code of an expression along. -/
theorem compile_alike : ∀ (e : Expression) (target : Register) (linkage : Linkage),
    Alike ρ (relabel ρ) (compile target linkage e) (compile target (linkage.relabel ρ) e)
  | .constant _, target, linkage => alike_pure (by
      rw [constantCode, Linkage.relabel_after]
      rfl)
  | .reference _, target, linkage => alike_pure (by
      rw [variableCode, Linkage.relabel_after]
      rfl)
  | .assignment _ value, target, linkage =>
      (compile_alike value .val .next).thenPure fun code =>
        relabel_storeCode ρ rfl code target linkage
  | .definition _ value, target, linkage =>
      (compile_alike value .val .next).thenPure fun code =>
        relabel_storeCode ρ rfl code target linkage
  | .conditional test consequent alternative, target, linkage => by
      rw [compile, compile]
      refine (alike_freshLabel (by decide)).bind fun trueBranch => ?_
      refine (alike_freshLabel (by decide)).bind fun falseBranch => ?_
      refine (alike_freshLabel (by decide)).bind fun afterIf => ?_
      refine (compile_alike test .val .next).bind fun testCode => ?_
      rw [← Linkage.relabel_orLabel]
      refine (compile_alike consequent target (linkage.orLabel afterIf)).bind
        fun consequentCode => ?_
      exact (compile_alike alternative target linkage).thenPure fun alternativeCode =>
        relabel_conditionalCode ρ _ _ _ testCode consequentCode alternativeCode
  | .lambda formals body, target, linkage => by
      rw [compile, compile]
      refine (alike_freshLabel (by decide)).bind fun entry => ?_
      refine (alike_freshLabel (by decide)).bind fun afterLambda => ?_
      exact (compileSequence_alike body .val .caller).thenPure fun bodyCode =>
        relabel_lambdaCode ρ entry afterLambda formals bodyCode target linkage
  | .sequence body, target, linkage => by
      rw [compile, compile]
      exact compileSequence_alike body target linkage
  | .application operator operands, target, linkage => by
      rw [compile, compile]
      refine (compile_alike operator .proc .next).bind fun operatorCode => ?_
      refine (compileOperands_alike operands).bind fun operandCodes => ?_
      exact (callCode_alike ρ target linkage).thenPure fun call =>
        relabel_applicationCode ρ operatorCode operandCodes call
  | .malformed why, _, _ => by
      rw [compile, compile]
      exact alike_throw _ _

theorem compileSequence_alike : ∀ (es : List Expression) (target : Register) (linkage : Linkage),
    Alike ρ (relabel ρ) (compileSequence target linkage es)
      (compileSequence target (linkage.relabel ρ) es)
  | [], _, _ => alike_pure rfl
  | [last], target, linkage => compile_alike last target linkage
  | first :: second :: rest, target, linkage =>
      (compile_alike first .val .next).bind fun firstCode =>
        (compileSequence_alike (second :: rest) target linkage).thenPure fun restCode =>
          relabel_preserving ρ _ firstCode restCode

theorem compileOperands_alike : ∀ es : List Expression,
    Alike ρ (List.map (relabel ρ)) (compileOperands es) (compileOperands es)
  | [] => alike_pure rfl
  | operand :: rest =>
      (compile_alike operand .val .next).bind fun _ =>
        (compileOperands_alike rest).thenPure fun _ => rfl

end

end Expression

/-! ## The labels of the two codes -/

namespace Compile

/-- The labels of one list in place of those of another, each in place of the one that stands
there. -/
def replacing (olds news : List Label) (name : Label) : Label :=
  ((olds.zip news).lookup name).getD name

theorem replacing_of_notMem {olds : List Label} (news : List Label) {name : Label}
    (h : name ∉ olds) : replacing olds news name = name := by
  have hlookup : (olds.zip news).lookup name = none := by
    rw [List.lookup_eq_none_iff]
    intro pair hpair
    have hmem : pair.1 ∈ olds := (List.of_mem_zip hpair).1
    simpa using fun heq : name = pair.1 => h (heq ▸ hmem)
  rw [replacing, hlookup, Option.getD_none]

theorem replacing_map {olds : List Label} {name : Label} (h : name ∈ olds) :
    replacing olds (olds.map ρ) name = ρ name := by
  have hlookup : (olds.zip (olds.map ρ)).lookup name = some (ρ name) := by
    induction olds with
    | nil => cases h
    | cons first rest ih =>
        rw [List.map_cons, List.zip_cons_cons, List.lookup_cons]
        by_cases hfirst : name = first
        · simp [hfirst]
        · rw [beq_false_of_ne hfirst]
          exact ih ((List.mem_cons.mp h).resolve_left hfirst)
  rw [replacing, hlookup, Option.getD_some]

theorem entryName_notMem_numberedFrom {used : List String} (hused : used ⊆ stems) (n : Nat) :
    Program.entryName ∉ numberedFrom n used :=
  MadeBetween.entryName_notMem ⟨used, hused, rfl, .refl _⟩

theorem numbered_ne_entryName {stem : String} (h : stem ∈ stems) (n : Nat) :
    numbered stem n ≠ Program.entryName := by
  have hnot := entryName_notMem_numberedFrom (List.cons_subset.mpr ⟨h, List.nil_subset stems⟩) n
  exact fun heq => hnot (List.mem_singleton.mpr heq.symm)

theorem numbered_inj {stem stem' : String} (h : stem ∈ stems) (h' : stem' ∈ stems) {i j : Nat}
    (heq : numbered stem i = numbered stem' j) : stem = stem' ∧ i = j := by
  have hij : i = j := by
    have hsuffix := suffix?_numbered h i
    rw [heq, suffix?_numbered h' j] at hsuffix
    exact (Option.some.inj hsuffix).symm
  subst hij
  exact ⟨(String.append_left_inj _).mp heq, rfl⟩

/-- There is a replacement that takes the fresh labels from one counter on to those from another
on. -/
theorem exists_shifts (m n : Nat) :
    ∃ ρ, Shifts ρ m n ∧ ρ Program.entryName = Program.entryName := by
  let old (fresh : {stem // stem ∈ stems} × Nat) : Label := numbered fresh.1 (m + fresh.2)
  let new (fresh : {stem // stem ∈ stems} × Nat) : Label := numbered fresh.1 (n + fresh.2)
  have hinjective : old.Injective := by
    intro fresh fresh' heq
    obtain ⟨hstem, hnumber⟩ := numbered_inj fresh.1.2 fresh'.1.2 heq
    exact Prod.ext (Subtype.ext hstem) (Nat.add_left_cancel hnumber)
  refine ⟨Function.extend old new id, ?_, ?_⟩
  · intro stem hstem i
    exact hinjective.extend_apply new id (⟨stem, hstem⟩, i)
  · refine Function.extend_apply' new id _ ?_
    rintro ⟨fresh, heq⟩
    exact numbered_ne_entryName fresh.1.2 _ heq

theorem Shifts.map_numberedFrom {ρ : Label → Label} {m n : Nat} (h : Shifts ρ m n)
    {used : List String} (hused : used ⊆ stems) :
    (numberedFrom m used).map ρ = numberedFrom n used := by
  induction used generalizing m n with
  | nil => rfl
  | cons stem rest ih =>
      rw [List.cons_subset] at hused
      rw [numberedFrom, List.map_cons, ih (h.add 1) hused.2, numberedFrom]
      congr 1
      exact h stem hused.1 0

theorem Alike.eq_ok {α β : Type} {ρ : Label → Label} {turn : α → β} {x : Compile α}
    {y : Compile β} (h : Alike ρ turn x y) {m n k : Nat} (hshifts : Shifts ρ m n) {a : α}
    (hx : x m = .ok a (m + k)) : y n = .ok (turn a) (n + k) := by
  obtain ⟨k', ⟨a', hx', hy⟩ | ⟨e, hx', -⟩⟩ := h m n hshifts
  · obtain ⟨rfl, hk⟩ := EStateM.Result.ok.inj (hx.symm.trans hx')
    rw [hy, Nat.add_left_cancel hk]
  · cases hx.symm.trans hx'

theorem Alike.eq_error {α β : Type} {ρ : Label → Label} {turn : α → β} {x : Compile α}
    {y : Compile β} (h : Alike ρ turn x y) {m n k : Nat} (hshifts : Shifts ρ m n)
    {e : CompileError} (hx : x m = .error e (m + k)) : y n = .error e (n + k) := by
  obtain ⟨k', ⟨a, hx', -⟩ | ⟨e', hx', hy⟩⟩ := h m n hshifts
  · cases hx.symm.trans hx'
  · obtain ⟨rfl, hk⟩ := EStateM.Result.error.inj (hx.symm.trans hx')
    rw [hy, Nat.add_left_cancel hk]

end Compile

namespace Linkage

open Compile

/-- The linkage with a label in place of its own that no fresh label is equal to. -/
def bare (linkage : Linkage) : Linkage :=
  linkage.relabel fun _ => Program.entryName

/-- What puts the label of a linkage back. -/
def back : Linkage → Label → Label
  | label own, name => if name = Program.entryName then own else name
  | _, name => name

theorem bare_relabel_back (linkage : Linkage) : linkage.bare.relabel linkage.back = linkage := by
  cases linkage <;> simp [bare, relabel, back]

theorem bare_relabel {ρ : Label → Label} (h : ρ Program.entryName = Program.entryName)
    (linkage : Linkage) : linkage.bare.relabel ρ = linkage.bare := by
  cases linkage <;> simp [bare, relabel, h]

theorem back_of_ne (linkage : Linkage) {name : Label} (h : name ≠ Program.entryName) :
    linkage.back name = name := by
  cases linkage <;> simp [back, h]

theorem back_shifts (linkage : Linkage) (n : Nat) : Shifts linkage.back n n :=
  fun _ hstem _ => linkage.back_of_ne (numbered_ne_entryName hstem _)

/-- The label of a linkage is put back where the other one stood. -/
theorem eq_label_of_bare {linkage : Linkage} {name : Label} (h : linkage.bare = .label name) :
    name = Program.entryName ∧ linkage = .label (linkage.back name) := by
  cases linkage with
  | next => cases h
  | caller => cases h
  | label own =>
      cases h
      exact ⟨rfl, by simp [back]⟩

end Linkage

namespace Expression

open Sequence Compile Program

variable {ρ} in
/-- Code for a label that cannot be fresh, once renumbered and then with the label of the caller put
in, is the same as with the label put in and then renumbered. -/
theorem relabel_back {linkage : Linkage} {m n n' : Nat} {used : List String} {code : Sequence}
    (hshifts : Shifts ρ m n) (hentry : ρ entryName = entryName) (hused : used ⊆ stems)
    (hplaced : Placeable linkage.bare m n' code)
    (hmarkers : code.markers.Perm (numberedFrom m used))
    (hlinkage : ∀ l, linkage = .label l → l ∉ numberedFrom m used) :
    (code.relabel ρ).relabel linkage.back =
      (code.relabel linkage.back).relabel
        (replacing (numberedFrom m used) (numberedFrom n used)) := by
  have hfresh : ∀ l ∈ numberedFrom m used, linkage.back (ρ l) =
      replacing (numberedFrom m used) (numberedFrom n used) (linkage.back l) := by
    intro l hl
    have hnew : ρ l ∈ numberedFrom n used := by
      rw [← hshifts.map_numberedFrom hused]
      exact List.mem_map_of_mem hl
    rw [linkage.back_of_ne (ne_of_mem_of_not_mem hnew (entryName_notMem_numberedFrom hused n)),
      linkage.back_of_ne (ne_of_mem_of_not_mem hl (entryName_notMem_numberedFrom hused m)),
      ← hshifts.map_numberedFrom hused, replacing_map ρ hl]
  have hstatements : code.statements.map (Statement.relabel (linkage.back ∘ ρ)) =
      code.statements.map (Statement.relabel
        (replacing (numberedFrom m used) (numberedFrom n used) ∘ linkage.back)) := by
    refine map_relabel_congr (fun l hl => hfresh l (hmarkers.subset hl)) ?_
    intro s hs l hl
    rcases hplaced.fits.targets s hs l hl with hown | hbare
    · exact hfresh l (hmarkers.subset hown)
    · obtain ⟨rfl, hlabel⟩ := Linkage.eq_label_of_bare hbare
      change linkage.back (ρ entryName) = replacing _ _ (linkage.back entryName)
      rw [hentry, replacing_of_notMem _ (hlinkage _ hlabel)]
  simp only [relabel, List.map_map]
  refine congrArg (Sequence.mk code.needs code.modifies) ?_
  simpa [Function.comp_def, Statement.relabel_relabel] using hstatements

/-- Compiling from two counters fails alike, or it succeeds from both and the codes are the same up
to the numbers of the labels that were made. -/
theorem compile_renumbered (e : Expression) (target : Register) (linkage : Linkage) (m n : Nat) :
    ∃ k,
      (∃ error, compile target linkage e m = .error error (m + k) ∧
        compile target linkage e n = .error error (n + k)) ∨
      ∃ code code', compile target linkage e m = .ok code (m + k) ∧
        compile target linkage e n = .ok code' (n + k) ∧
        ∃ used ⊆ stems, used.length = k ∧ code.markers.Perm (numberedFrom m used) ∧
          ((∀ l, linkage = .label l → l ∉ numberedFrom m used) →
            code' = code.relabel (replacing (numberedFrom m used) (numberedFrom n used))) := by
  obtain ⟨ρ, hshifts, hentry⟩ := exists_shifts m n
  have hrenumber := compile_alike ρ e target linkage.bare
  rw [linkage.bare_relabel hentry] at hrenumber
  have hback := compile_alike linkage.back e target linkage.bare
  rw [linkage.bare_relabel_back] at hback
  obtain ⟨k, ⟨code, hm, hn⟩ | ⟨error, hm, hn⟩⟩ := hrenumber m n hshifts
  · have hplaced := compile_placeable e hm
    obtain ⟨used, hused, hk, hmarkers⟩ := hplaced.made
    refine ⟨k, Or.inr ⟨_, _, hback.eq_ok (linkage.back_shifts m) hm,
      hback.eq_ok (linkage.back_shifts n) hn, used, hused, (Nat.add_left_cancel hk).symm, ?_,
      relabel_back hshifts hentry hused hplaced hmarkers⟩⟩
    rw [markers, relabel, labels_relabel]
    refine (hmarkers.map linkage.back).trans (.of_eq ?_)
    exact (linkage.back_shifts m).map_numberedFrom hused
  · exact ⟨k, Or.inl ⟨error, hback.eq_error (linkage.back_shifts m) hm,
      hback.eq_error (linkage.back_shifts n) hn⟩⟩

end Expression

/-! ## The two programs -/

namespace Program

/-- A program with the names of its blocks replaced. -/
def renamed (p : Program) : Program :=
  ⟨p.blocks.map fun block => { block with name := ρ block.name }, p.entry⟩

variable {ρ}

theorem connected_relabel (closed : Bool) (statements : List Statement) :
    Connected closed (statements.map (Statement.relabel ρ)) ↔ Connected closed statements := by
  induction statements generalizing closed with
  | nil => rfl
  | cons s rest ih => cases s <;> simp [Statement.relabel, Connected, ih]

/-- The number of a name does not change where different names stay different. -/
theorem idxOf_map {names : List Label} (h : (names.map ρ).Nodup) {name : Label}
    (hname : name ∈ names) : (names.map ρ).idxOf (ρ name) = names.idxOf name := by
  have hlt : names.idxOf name < (names.map ρ).length := by
    rw [List.length_map]
    exact List.idxOf_lt_length_of_mem hname
  have hidx := h.idxOf_getElem _ hlt
  rwa [List.getElem_map, List.getElem_idxOf] at hidx

theorem remainder_relabel {names : List Label} (h : (names.map ρ).Nodup)
    {statements : List Statement} (hlabels : ∀ l ∈ labels statements, l ∈ names)
    (htargets : ∀ s ∈ statements, ∀ l ∈ s.targets, l ∈ names) :
    remainder (names.map ρ) (statements.map (Statement.relabel ρ)) =
      remainder names statements := by
  induction statements with
  | nil => rfl
  | cons s rest ih =>
      obtain ⟨hs, hrest⟩ := List.forall_mem_cons.mp htargets
      cases s with
      | label next =>
          rw [List.map_cons, Statement.relabel, remainder, remainder,
            idxOf_map h (hlabels next List.mem_cons_self)]
      | perform operation =>
          have hoperation : (operation.map ρ).map (names.map ρ).idxOf =
              operation.map names.idxOf := by
            rw [Operation.map_map]
            exact Operation.map_congr fun l hl => idxOf_map h (hs l hl)
          rw [List.map_cons, Statement.relabel, remainder, remainder, ih hlabels hrest, hoperation]
      | jump transfer =>
          have htransfer : (transfer.map ρ).map (names.map ρ).idxOf = transfer.map names.idxOf := by
            rw [Transfer.map_map]
            exact Transfer.map_congr fun l hl => idxOf_map h (hs l hl)
          rw [List.map_cons, Statement.relabel, remainder, remainder, htransfer]

theorem laterBlocks_relabel {names : List Label} (h : (names.map ρ).Nodup)
    {statements : List Statement} (hlabels : ∀ l ∈ labels statements, l ∈ names)
    (htargets : ∀ s ∈ statements, ∀ l ∈ s.targets, l ∈ names) :
    laterBlocks (names.map ρ) (statements.map (Statement.relabel ρ)) =
      (laterBlocks names statements).map fun block => { block with name := ρ block.name } := by
  induction statements with
  | nil => rfl
  | cons s rest ih =>
      have hrest := (List.forall_mem_cons.mp htargets).2
      cases s with
      | label name =>
          have hlater := (List.forall_mem_cons.mp hlabels).2
          simp only [List.map_cons, Statement.relabel, laterBlocks, blockOf,
            remainder_relabel h hlater hrest, ih hlater hrest]
      | perform operation => exact ih hlabels hrest
      | jump transfer => exact ih hlabels hrest

theorem blockNames_relabel (hentry : ρ entryName = entryName) (statements : List Statement) :
    blockNames (statements.map (Statement.relabel ρ)) = (blockNames statements).map ρ := by
  rw [blockNames, labels_relabel, blockNames, List.map_cons, hentry]

/-- Where different labels stay different, and none becomes the name of the entry, statements with
their labels replaced make the same program but for the names of the blocks. -/
theorem assemble_relabel {statements : List Statement} {p : Program}
    (h : assemble statements = .ok p) (hentry : ρ entryName = entryName)
    (hnodup : ((blockNames statements).map ρ).Nodup) :
    assemble (statements.map (Statement.relabel ρ)) = .ok (p.renamed ρ) := by
  obtain ⟨-, htargets, hconnected, rfl⟩ := assemble_eq_ok_iff.mp h
  have hnames := blockNames_relabel hentry statements
  have hlabels : ∀ l ∈ labels statements, l ∈ blockNames statements :=
    fun l hl => List.mem_cons_of_mem _ hl
  refine assemble_eq_ok_iff.mpr ⟨?_, ?_, (connected_relabel false statements).mpr hconnected, ?_⟩
  · rwa [hnames]
  · intro s' hs' l' hl'
    obtain ⟨s, hs, rfl⟩ := List.mem_map.mp hs'
    rw [Statement.targets_relabel] at hl'
    obtain ⟨l, hl, rfl⟩ := List.mem_map.mp hl'
    rw [hnames]
    exact List.mem_map_of_mem (htargets s hs l hl)
  · rw [hnames, laterBlocks_relabel hnodup hlabels htargets, blockOf, blockOf,
      remainder_relabel hnodup hlabels htargets]
    simp [renamed, hentry]

end Program

namespace Expression

open Sequence Compile Program

/-- Codes that are the same up to the numbers of their labels make programs that are the same up to
the names of their blocks. -/
theorem assemble_renumbered {m m' n n' : Nat} {used : List String} (hused : used ⊆ stems)
    {code : Sequence} (h : Placeable .next m m' code)
    (h' : Placeable .next n n'
      (code.relabel (replacing (numberedFrom m used) (numberedFrom n used)))) :
    ∃ p, assemble code.statements = .ok p ∧
      assemble (code.relabel (replacing (numberedFrom m used) (numberedFrom n used))).statements =
        .ok (p.renamed (replacing (numberedFrom m used) (numberedFrom n used))) := by
  obtain ⟨p, hp⟩ := h.assembles
  obtain ⟨p', hp'⟩ := h'.assembles
  have hentry : replacing (numberedFrom m used) (numberedFrom n used) entryName = entryName :=
    replacing_of_notMem _ (entryName_notMem_numberedFrom hused m)
  refine ⟨p, hp, assemble_relabel hp hentry ?_⟩
  have hnodup := (assemble_eq_ok_iff.mp hp').1
  rwa [relabel, blockNames_relabel hentry] at hnodup

/-- Compiling does not depend on the past of the session.  From any two counters it fails with the
same error or succeeds, and makes equally many labels.  The code is then the same once every label
that was made from the one counter on is replaced by the one that was made at that point from the
other on, provided that the label of the linkage is none of them; and so are the programs, but for
the names of their blocks. -/
theorem compile_from_any_counter (d : Datum) (target : Register) (linkage : Linkage) (m n : Nat) :
    let compiled := (ofDatum d).compile target linkage
    ∃ k, counter (compiled m) = m + k ∧ counter (compiled n) = n + k ∧
      error? (compiled m) = error? (compiled n) ∧
      ∀ code, made? (compiled m) = some code → ∃ used ⊆ stems, used.length = k ∧
        (labels code.statements).Perm (numberedFrom m used) ∧
        ((∀ l, linkage = .label l → l ∉ numberedFrom m used) →
          let renumber := replacing (numberedFrom m used) (numberedFrom n used)
          ∃ code', made? (compiled n) = some code' ∧ code'.needs = code.needs ∧
            code'.modifies = code.modifies ∧
            code'.statements = code.statements.map (Statement.relabel renumber) ∧
            (linkage = .next → ∃ p, assemble code.statements = .ok p ∧
              assemble code'.statements = .ok (p.renamed renumber))) := by
  intro compiled
  obtain ⟨k, ⟨error, hm, hn⟩ | ⟨code, code', hm, hn, used, hused, hlength, hmarkers, hcode⟩⟩ :=
    compile_renumbered (ofDatum d) target linkage m n
  · have hm' : compiled m = .error error (m + k) := hm
    have hn' : compiled n = .error error (n + k) := hn
    rw [hm', hn']
    refine ⟨k, rfl, rfl, rfl, ?_⟩
    intro code hcode
    cases hcode
  · have hm' : compiled m = .ok code (m + k) := hm
    have hn' : compiled n = .ok code' (n + k) := hn
    rw [hm', hn']
    refine ⟨k, rfl, rfl, rfl, ?_⟩
    rintro _ ⟨rfl⟩
    refine ⟨used, hused, hlength, hmarkers, ?_⟩
    intro hlinkage
    obtain rfl := hcode hlinkage
    refine ⟨_, rfl, rfl, rfl, rfl, ?_⟩
    rintro rfl
    exact assemble_renumbered hused (compile_placeable _ hm) (compile_placeable _ hn)

/-- Code for `(if x (f) y)` from 0 and from 7 on, for a label that only looks like one of those that
are made, and the programs of the code that goes on instead. -/
theorem conditional_from_two_counters :
    let word (name : String) : Datum := .symbol ⟨0, none⟩ name
    let list (items : List Datum) : Datum := items.foldr (.pair ⟨0, none⟩) (.empty ⟨0, none⟩)
    let d := list [word "if", word "x", list [word "f"], word "y"]
    (∃ code code' used, made? ((ofDatum d).compile .proc (.label "trueBranch1") 0) = some code ∧
      made? ((ofDatum d).compile .proc (.label "trueBranch1") 7) = some code' ∧
      used.length = 7 ∧ "trueBranch1" ∉ numberedFrom 0 used ∧
      code'.statements = code.statements.map
        (Statement.relabel (replacing (numberedFrom 0 used) (numberedFrom 7 used)))) ∧
    ∃ code code' renumber p, made? ((ofDatum d).compile .val .next 0) = some code ∧
      made? ((ofDatum d).compile .val .next 7) = some code' ∧
      assemble code.statements = .ok p ∧ assemble code'.statements = .ok (p.renamed renumber) := by
  intro word list d
  constructor
  · obtain ⟨k, hcounter, -, -, hcode⟩ :=
      compile_from_any_counter d .proc (.label "trueBranch1") 0 7
    obtain ⟨used, -, hlength, hlabels, hsame⟩ := hcode _ rfl
    have hother : "trueBranch1" ∉ numberedFrom 0 used := by
      rw [← hlabels.mem_iff]
      decide
    obtain ⟨code', hcode', -, -, hstatements, -⟩ := hsame fun l hl => by
      cases hl
      exact hother
    have hk : k = 7 := (Nat.zero_add k).symm.trans hcounter.symm
    exact ⟨_, code', used, rfl, hcode', hlength.trans hk, hother, hstatements⟩
  · obtain ⟨k, -, -, -, hcode⟩ := compile_from_any_counter d .val .next 0 7
    obtain ⟨used, -, -, -, hsame⟩ := hcode _ rfl
    obtain ⟨code', hcode', -, -, -, hprograms⟩ := hsame nofun
    obtain ⟨p, hp, hp'⟩ := hprograms rfl
    exact ⟨_, code', _, p, rfl, hcode', hp, hp'⟩

end Expression
end SchemeMachine
