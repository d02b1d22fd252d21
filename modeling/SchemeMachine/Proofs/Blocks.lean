import SchemeMachine.Proofs.Labels

/-!
# The blocks of compiled programs

A compiled program always assembles, and its blocks are well formed: every number in them is that of
a block, their names are distinct, control runs off the end of the last block and of no other, and
the body of a procedure is entered by calling the procedure and in no other way.

The last point is told by names.  The label of a body is the only kind with the stem `entry`, the
code never jumps to such a label, and one always stands after a transfer, so that no block runs into
it.
-/

namespace SchemeMachine

/-! ## Well-formed programs -/

section Targets

variable {L : Type}

/-- The body that an operand makes a procedure of. -/
def Operand.bodies : Operand L → List L
  | makeClosure entry => [entry]
  | _ => []

/-- The body that an operation makes a procedure of. -/
def Operation.bodies : Operation L → List L
  | assign _ source => source.bodies
  | _ => []

/-- Where a branch goes. -/
def Operation.branches : Operation L → List L
  | branch target => [target]
  | _ => []

end Targets

/-- The target that an exit mentions. -/
def Exit.targets : Exit → List BlockId
  | jump transfer => transfer.targets
  | halt => []

namespace Block

/-- The numbers of all blocks that a block mentions. -/
def targets (b : Block) : List BlockId :=
  b.operations.flatMap Operation.targets ++ b.exit.targets

/-- The bodies that a block makes procedures of. -/
def bodies (b : Block) : List BlockId :=
  b.operations.flatMap Operation.bodies

/-- Where control goes from a block by itself: by a branch, by a jump or by running into the next
block. -/
def successors (b : Block) : List BlockId :=
  b.operations.flatMap Operation.branches ++ b.exit.targets

end Block

namespace Program

/-- A program whose jumps lead somewhere, whose last block alone halts, and whose procedures are
entered by calls alone. -/
structure WellFormed (p : Program) : Prop where
  entry : p.entry < p.blocks.size
  targets : ∀ b ∈ p.blocks, ∀ id ∈ b.targets, id < p.blocks.size
  names : (p.blocks.toList.map Block.name).Nodup
  halts : ∀ (id : Nat) b, p.block? id = some b → (b.exit = .halt ↔ id + 1 = p.blocks.size)
  bodies : ∀ b ∈ p.blocks, ∀ id ∈ b.bodies, ∀ c ∈ p.blocks, id ∉ c.successors

end Program

/-! ## Bodies in symbolic code -/

section Map

variable {L M : Type}

theorem Operation.bodies_map (g : L → M) (operation : Operation L) :
    (operation.map g).bodies = operation.bodies.map g := by
  cases operation with
  | assign target source => cases source <;> rfl
  | _ => rfl

theorem Operation.branches_map (g : L → M) (operation : Operation L) :
    (operation.map g).branches = operation.branches.map g := by
  cases operation <;> rfl

theorem Operation.bodies_subset (operation : Operation L) :
    operation.bodies ⊆ operation.targets := by
  cases operation with
  | assign target source =>
      cases source with
      | makeClosure entry => exact List.Subset.refl _
      | _ => exact List.nil_subset _
  | _ => exact List.nil_subset _

theorem Operation.branches_subset (operation : Operation L) :
    operation.branches ⊆ operation.targets := by
  cases operation with
  | branch target => exact List.Subset.refl _
  | _ => exact List.nil_subset _

end Map

namespace Statement

/-- The body that a statement makes a procedure of. -/
def bodies : Statement → List Label
  | perform operation => operation.bodies
  | _ => []

/-- Where a statement goes by itself. -/
def successors : Statement → List Label
  | label _ => []
  | perform operation => operation.branches
  | jump transfer => transfer.targets

theorem bodies_subset (s : Statement) : s.bodies ⊆ s.targets := by
  cases s with
  | perform operation => exact operation.bodies_subset
  | label name => exact List.nil_subset _
  | jump transfer => exact List.nil_subset _

theorem successors_subset (s : Statement) : s.successors ⊆ s.targets := by
  cases s with
  | perform operation => exact operation.branches_subset
  | label name => exact List.nil_subset _
  | jump transfer => exact List.Subset.refl _

end Statement

namespace Compile

/-- Whether a label is that of a body. -/
def isBody (name : Label) : Bool :=
  name.toList.filter (!·.isDigit) == "entry".toList

theorem isBody_numbered {stem : String} (h : stem.toList.all (!·.isDigit) = true) (n : Nat) :
    isBody (numbered stem n) = (stem.toList == "entry".toList) := by
  have hstem : stem.toList.filter (!·.isDigit) = stem.toList := by
    rw [List.filter_eq_self]
    exact List.all_eq_true.mp h
  have hdigits : (Nat.toDigits 10 n).filter (!·.isDigit) = [] := by
    rw [List.filter_eq_nil_iff]
    intro c hc
    have hdigit := Nat.isDigit_of_mem_toDigits (by decide) (by decide) hc
    simp [hdigit]
  rw [isBody, numbered, Decimal.naturalText, String.toList_append, List.filter_append, hstem,
    String.toList_ofList, hdigits, List.append_nil]

end Compile

namespace Program

open Compile

/-- Whether the label of a body always comes just after a transfer; `closed` tells whether one has
come just before. -/
def Fenced (closed : Bool) : List Statement → Prop
  | [] => True
  | .label name :: rest => (isBody name = true → closed = true) ∧ Fenced false rest
  | .perform _ :: rest => Fenced false rest
  | .jump _ :: rest => Fenced true rest

theorem Fenced.close {closed : Bool} {statements : List Statement} (h : Fenced false statements) :
    Fenced closed statements := by
  cases statements with
  | nil => trivial
  | cons s rest =>
      cases s with
      | label name => exact ⟨fun hname => absurd (h.1 hname) Bool.false_ne_true, h.2⟩
      | perform operation => exact h
      | jump transfer => exact h

theorem fenced_append {closed : Bool} {first second : List Statement} :
    Fenced closed (first ++ second) ↔
      Fenced closed first ∧ Fenced (ends closed first) second := by
  induction first generalizing closed with
  | nil => exact (and_iff_right trivial).symm
  | cons s rest ih =>
      cases s with
      | label name => simp only [List.cons_append, Fenced, ends, ih, and_assoc]
      | perform operation => exact ih
      | jump transfer => exact ih

/-- Code that makes procedures of bodies only, and that gets into a body only by a call. -/
structure Sealed (statements : List Statement) : Prop where
  bodies : ∀ s ∈ statements, ∀ l ∈ s.bodies, isBody l = true
  successors : ∀ s ∈ statements, ∀ l ∈ s.successors, isBody l = false
  fenced : Fenced false statements

namespace Sealed

variable {first second : List Statement}

theorem nil : Sealed [] :=
  ⟨nofun, nofun, trivial⟩

theorem append (h : Sealed first) (h' : Sealed second) : Sealed (first ++ second) := by
  refine ⟨?_, ?_, fenced_append.mpr ⟨h.fenced, h'.fenced.close⟩⟩
  · intro s hs
    exact (List.mem_append.mp hs).elim (h.bodies s) (h'.bodies s)
  · intro s hs
    exact (List.mem_append.mp hs).elim (h.successors s) (h'.successors s)

/-- One statement alone, unless it is the label of a body. -/
theorem single {s : Statement} (hbodies : ∀ l ∈ s.bodies, isBody l = true)
    (hsuccessors : ∀ l ∈ s.successors, isBody l = false)
    (hlabel : ∀ name, s = .label name → isBody name = false) : Sealed [s] := by
  refine ⟨?_, ?_, ?_⟩
  · intro s' hs
    rw [List.mem_singleton.mp hs]
    exact hbodies
  · intro s' hs
    rw [List.mem_singleton.mp hs]
    exact hsuccessors
  · cases s with
    | label name => exact ⟨fun hname => absurd hname (by simp [hlabel name rfl]), trivial⟩
    | perform operation => trivial
    | jump transfer => trivial

theorem cons {s : Statement} (h : Sealed [s]) (h' : Sealed second) : Sealed (s :: second) :=
  h.append h'

/-- An operation that neither makes a procedure nor branches. -/
theorem plain {operation : Operation Label} (hbodies : operation.bodies = [])
    (hbranches : operation.branches = []) : Sealed [.perform operation] := by
  refine single ?_ ?_ nofun
  · simp [Statement.bodies, hbodies]
  · simp [Statement.successors, hbranches]

theorem label {name : Label} (h : isBody name = false) : Sealed [.label name] := by
  refine single nofun nofun ?_
  intro other hother
  rw [← Statement.label.inj hother]
  exact h

theorem indirect (r : Register) : Sealed [.jump (.indirect r)] :=
  single nofun nofun nofun

theorem direct {name : Label} (h : isBody name = false) : Sealed [.jump (.direct name)] := by
  refine single nofun ?_ nofun
  intro l hl
  rw [List.mem_singleton.mp hl]
  exact h

theorem branch {name : Label} (h : isBody name = false) :
    Sealed [.perform (.branch name)] := by
  refine single nofun ?_ nofun
  intro l hl
  rw [List.mem_singleton.mp hl]
  exact h

end Sealed
end Program

/-! ## Compiled code -/

open Program

/-- Whether a linkage goes anywhere but to a body. -/
def Linkage.Outside (linkage : Linkage) : Prop :=
  ∀ name, linkage = .label name → Compile.isBody name = false

theorem Linkage.outside_next : Linkage.next.Outside :=
  fun _ h => nomatch h

theorem Linkage.outside_caller : Linkage.caller.Outside :=
  fun _ h => nomatch h

theorem Linkage.Outside.orLabel {linkage : Linkage} (h : linkage.Outside) {name : Label}
    (hname : Compile.isBody name = false) : (linkage.orLabel name).Outside := by
  intro l hl
  rcases Fits.orLabel_eq_label hl with rfl | hl
  · exact hname
  · exact h l hl

namespace Sequence.Sealed

open Sequence

variable {linkage : Linkage} {first second : Sequence}

theorem protectFor (h : Sealed first.statements) (registers : List Register) :
    Sealed (Sequence.protectFor registers first second).statements := by
  induction registers generalizing first with
  | nil => exact h
  | cons r rest ih =>
      refine ih ?_
      simp only
      split
      · exact .cons (.plain rfl rfl) (h.append (.plain rfl rfl))
      · exact h

theorem preserving (h : Sealed first.statements) (h' : Sealed second.statements)
    (registers : List Register) :
    Sealed (Sequence.preserving registers first second).statements :=
  (protectFor h registers).append h'

theorem linkageCode (h : linkage.Outside) : Sealed linkage.code.statements := by
  cases linkage with
  | next => exact .nil
  | caller => exact .indirect .kontinue
  | label name => exact .direct (h name rfl)

theorem after (hlinkage : linkage.Outside) (h : Sealed first.statements) :
    Sealed (linkage.after first).statements :=
  preserving h (linkageCode hlinkage) [.kontinue]

end Sequence.Sealed

namespace Expression

open Sequence Compile

variable {linkage : Linkage}

theorem fork_sealed {test : Operation Label} (hbodies : test.bodies = [])
    (hbranches : test.branches = []) (reads : Register) {firstLabel secondLabel after : Label}
    (hfirst : isBody firstLabel = false) (hsecond : isBody secondLabel = false)
    (hafter : isBody after = false) {first second : Sequence} (h : Sealed first.statements)
    (h' : Sealed second.statements) :
    Sealed (fork test reads firstLabel secondLabel after first second).statements := by
  rw [fork_statements_eq]
  exact .cons (.plain hbodies hbranches) (.cons (.branch hsecond) (.cons (.label hfirst)
    (h.append (.cons (.label hsecond) (h'.append (.label hafter))))))

/-- The body of a procedure stands after the transfer that leads past it. -/
theorem lambdaCode_sealed {entry afterLambda : Label} (hentry : isBody entry = true)
    (hafter : isBody afterLambda = false) (formals : List String) {body : Sequence}
    (h : Sealed body.statements) {target : Register} (htarget : target.IsTarget)
    (hlinkage : linkage.Outside) :
    Sealed (lambdaCode entry afterLambda formals body target linkage).statements := by
  have hgo := Sequence.Sealed.linkageCode (hlinkage.orLabel hafter)
  have hrest : Sealed (.assign .env .closureEnv :: .assign .env (.extendEnv formals) ::
      (body.statements ++ [.label afterLambda])) :=
    .cons (.plain rfl rfl) (.cons (.plain rfl rfl) (h.append (.label hafter)))
  rw [lambdaCode_statements_eq entry afterLambda formals body htarget]
  refine .cons (.single ?_ nofun nofun) ⟨?_, ?_, ?_⟩
  · intro l hl
    rw [List.mem_singleton.mp hl]
    exact hentry
  · intro s hs l hl
    rcases List.mem_append.mp hs with hs | hs
    · exact hgo.bodies s hs l hl
    · rcases List.mem_cons.mp hs with rfl | hs
      · cases hl
      · exact hrest.bodies s hs l hl
  · intro s hs l hl
    rcases List.mem_append.mp hs with hs | hs
    · exact hgo.successors s hs l hl
    · rcases List.mem_cons.mp hs with rfl | hs
      · cases hl
      · exact hrest.successors s hs l hl
  · cases linkage <;> exact ⟨fun _ => rfl, hrest.fenced⟩

theorem storeCode_sealed {store : Operation Label} (hbodies : store.bodies = [])
    (hbranches : store.branches = []) {value : Sequence} (h : Sealed value.statements)
    (target : Register) (hlinkage : linkage.Outside) :
    Sealed (storeCode store value target linkage).statements :=
  Sequence.Sealed.after hlinkage (Sequence.Sealed.preserving h
    (.cons (.plain hbodies hbranches) (.plain rfl rfl)) [.env])

theorem restArguments_sealed {codes : List Sequence}
    (h : ∀ code ∈ codes, Sealed code.statements) : Sealed (restArguments codes).statements := by
  have hconsNext : ∀ code, Sealed code.statements →
      Sealed (restArguments.consNext code).statements :=
    fun code hcode => Sequence.Sealed.preserving hcode (.plain rfl rfl) [.argl]
  match codes with
  | [] => exact .nil
  | [code] => exact hconsNext code (h code (by simp))
  | code :: second :: rest =>
      exact Sequence.Sealed.preserving (hconsNext code (h code (by simp)))
        (restArguments_sealed fun code hmem => h code (List.mem_cons_of_mem _ hmem)) [.env]

theorem argumentCode_sealed {codes : List Sequence}
    (h : ∀ code ∈ codes, Sealed code.statements) : Sealed (argumentCode codes).statements := by
  have hcodes : ∀ code ∈ codes.reverse, Sealed code.statements :=
    fun code hmem => h code (List.mem_reverse.mp hmem)
  unfold argumentCode
  cases hreverse : codes.reverse with
  | nil => exact .plain rfl rfl
  | cons last before =>
      rw [hreverse] at hcodes
      have hsingle : Sealed (last.append (of [.val] [.argl] [.assign .argl .listArg])).statements :=
        (hcodes last List.mem_cons_self).append (.plain rfl rfl)
      simp only
      split
      · exact hsingle
      · exact Sequence.Sealed.preserving hsingle
          (restArguments_sealed fun code hmem => hcodes code (List.mem_cons_of_mem _ hmem)) [.env]

theorem enterCode_sealed {target : Register} (hlinkage : linkage.Outside) {n n' : Nat}
    {code : Sequence} (h : enterCode target linkage.returnTo? n = .ok code n') :
    Sealed code.statements := by
  have henter : Sealed [.assign .val .closureEntry, .jump (.indirect .val)] :=
    .cons (.plain rfl rfl) (.indirect .val)
  cases hreturn : linkage.returnTo? with
  | none =>
      simp only [enterCode, hreturn] at h
      split at h
      · cases h
        exact henter
      · cases h
  | some name =>
      have hname : isBody name = false := by
        cases linkage with
        | next => cases hreturn
        | caller => cases hreturn
        | label other =>
            cases hreturn
            exact hlinkage name rfl
      simp only [enterCode, hreturn] at h
      split at h
      · cases h
        exact .cons (.plain rfl rfl) henter
      · rw [freshLabel_bind] at h
        cases h
        have hback : isBody (numbered "procReturn" n) = false := isBody_numbered (by decide) n
        exact .cons (.plain rfl rfl)
          (henter.append (.cons (.label hback) (.cons (.plain rfl rfl) (.direct hname))))

theorem callCode_sealed {target : Register} (hlinkage : linkage.Outside) {n n' : Nat}
    {code : Sequence} (h : callCode target linkage n = .ok code n') : Sealed code.statements := by
  obtain ⟨enter, henter, rfl⟩ := callCode_eq_ok h
  have hafter : isBody (numbered "afterCall" (n + 2)) = false := isBody_numbered (by decide) _
  have henter := enterCode_sealed (hlinkage.orLabel hafter) henter
  exact fork_sealed rfl rfl .proc (isBody_numbered (by decide) _) (isBody_numbered (by decide) _)
    hafter henter (Sequence.Sealed.after hlinkage (.plain rfl rfl))

mutual

theorem compile_sealed : ∀ (e : Expression) {target : Register} {linkage : Linkage} {n n' : Nat}
    {code : Sequence}, target.IsTarget → linkage.Outside →
      compile target linkage e n = .ok code n' → Sealed code.statements
  | .constant c, target, linkage, n, n', code, _, hlinkage, h => by
      cases h
      exact Sequence.Sealed.after hlinkage (.plain rfl rfl)
  | .reference name, target, linkage, n, n', code, _, hlinkage, h => by
      cases h
      exact Sequence.Sealed.after hlinkage (.plain rfl rfl)
  | .assignment name value, target, linkage, n, n', code, _, hlinkage, h => by
      obtain ⟨valueCode, hvalue, rfl⟩ := compile_assignment h
      have hsealed := compile_sealed value (Or.inl rfl) Linkage.outside_next hvalue
      exact storeCode_sealed rfl rfl hsealed target hlinkage
  | .definition name value, target, linkage, n, n', code, _, hlinkage, h => by
      obtain ⟨valueCode, hvalue, rfl⟩ := compile_definition h
      have hsealed := compile_sealed value (Or.inl rfl) Linkage.outside_next hvalue
      exact storeCode_sealed rfl rfl hsealed target hlinkage
  | .conditional test consequent alternative, target, linkage, n, n', code, htarget, hlinkage,
      h => by
      obtain ⟨testCode, consequentCode, alternativeCode, m, m', htest, hconsequent, halternative,
        rfl⟩ := compile_conditional h
      have hafter : isBody (numbered "afterIf" (n + 2)) = false := isBody_numbered (by decide) _
      have hbranches : Sealed (fork .testFalse .val (numbered "trueBranch" n)
          (numbered "falseBranch" (n + 1)) (numbered "afterIf" (n + 2)) consequentCode
          alternativeCode).statements :=
        fork_sealed rfl rfl .val (isBody_numbered (by decide) _) (isBody_numbered (by decide) _)
          hafter (compile_sealed consequent htarget (hlinkage.orLabel hafter) hconsequent)
          (compile_sealed alternative htarget hlinkage halternative)
      have hsealed := compile_sealed test (Or.inl rfl) Linkage.outside_next htest
      exact Sequence.Sealed.preserving hsealed hbranches [.env, .kontinue]
  | .lambda formals body, target, linkage, n, n', code, htarget, hlinkage, h => by
      obtain ⟨bodyCode, hbody, rfl⟩ := compile_lambda h
      have hsealed := compileSequence_sealed body (Or.inl rfl) Linkage.outside_caller hbody
      exact lambdaCode_sealed (isBody_numbered (by decide) _) (isBody_numbered (by decide) _)
        formals hsealed htarget hlinkage
  | .sequence body, target, linkage, n, n', code, htarget, hlinkage, h =>
      compileSequence_sealed body htarget hlinkage h
  | .application operator operands, target, linkage, n, n', code, htarget, hlinkage, h => by
      obtain ⟨operatorCode, operandCodes, call, m, m', hoperator, hoperands, hcall, rfl⟩ :=
        compile_application h
      have harguments := argumentCode_sealed (compileOperands_sealed operands hoperands)
      have hsealed := compile_sealed operator (Or.inr rfl) Linkage.outside_next hoperator
      exact Sequence.Sealed.preserving hsealed (Sequence.Sealed.preserving harguments
        (callCode_sealed hlinkage hcall) [.proc, .kontinue]) [.env, .kontinue]
  | .malformed why, _, _, _, _, _, _, _, h => nomatch h

theorem compileSequence_sealed : ∀ (es : List Expression) {target : Register}
    {linkage : Linkage} {n n' : Nat} {code : Sequence}, target.IsTarget → linkage.Outside →
      compileSequence target linkage es n = .ok code n' → Sealed code.statements
  | [], target, linkage, n, n', code, _, _, h => by
      cases h
      exact .nil
  | [last], target, linkage, n, n', code, htarget, hlinkage, h =>
      compile_sealed last htarget hlinkage h
  | first :: second :: rest, target, linkage, n, n', code, htarget, hlinkage, h => by
      obtain ⟨firstCode, restCode, m, hfirst, hrest, rfl⟩ := compileSequence_cons h
      have hsealed := compile_sealed first (Or.inl rfl) Linkage.outside_next hfirst
      exact Sequence.Sealed.preserving hsealed
        (compileSequence_sealed (second :: rest) htarget hlinkage hrest) [.env, .kontinue]

theorem compileOperands_sealed : ∀ (es : List Expression) {n n' : Nat}
    {codes : List Sequence}, compileOperands es n = .ok codes n' →
      ∀ code ∈ codes, Sealed code.statements
  | [], n, n', codes, h => by
      cases h
      exact fun _ hmem => absurd hmem List.not_mem_nil
  | operand :: rest, n, n', codes, h => by
      obtain ⟨operandCode, restCodes, m, hoperand, hrest, rfl⟩ := compileOperands_cons h
      intro code hcode
      rcases List.mem_cons.mp hcode with rfl | hcode
      · exact compile_sealed operand (Or.inl rfl) Linkage.outside_next hoperand
      · exact compileOperands_sealed rest hrest code hcode

end

end Expression

/-! ## Blocks of sealed code -/

namespace Program

open Compile

/-- Whether a block of the first statements begins before the second. -/
def Opens (statements rest : List Statement) : Prop :=
  rest = statements ∨ ∃ pre name, pre ++ .label name :: rest = statements

namespace Opens

variable {statements rest : List Statement}

theorem suffix (h : Opens statements rest) : rest <:+ statements := by
  rcases h with rfl | ⟨pre, name, rfl⟩
  · exact List.suffix_rfl
  · exact (List.suffix_cons _ rest).trans (List.suffix_append pre _)

theorem labels_subset (h : Opens statements rest) {l : Label} (hl : l ∈ labels rest) :
    l ∈ labels statements := by
  obtain ⟨pre, rfl⟩ := h.suffix
  rw [labels_append]
  exact List.mem_append_right _ hl

theorem connected (h : Opens statements rest) (hconnected : Connected false statements) :
    Connected false rest := by
  rcases h with rfl | ⟨pre, name, rfl⟩
  · exact hconnected
  · exact ((connected_append _ _ _).mp hconnected).2

theorem ends (h : Opens statements rest) : ends false rest = Program.ends false statements := by
  rcases h with rfl | ⟨pre, name, rfl⟩
  · rfl
  · rw [ends_append]
    rfl

theorem fenced (h : Opens statements rest) (hfenced : Fenced false statements) :
    Fenced false rest := by
  rcases h with rfl | ⟨pre, name, rfl⟩
  · exact hfenced
  · exact (fenced_append.mp hfenced).2.2

end Opens

theorem laterBlocks_eq_some {names : List Label} {statements : List Statement} {i : Nat}
    {b : Block} (h : (laterBlocks names statements)[i]? = some b) :
    ∃ pre name rest, pre ++ .label name :: rest = statements ∧ (labels pre).length = i ∧
      b = blockOf names name rest := by
  induction statements generalizing i with
  | nil => cases h
  | cons s rest ih =>
      cases s with
      | label name =>
          cases i with
          | zero => exact ⟨[], name, rest, rfl, rfl, (Option.some.inj h).symm⟩
          | succ i =>
              obtain ⟨pre, other, rest', rfl, rfl, hb⟩ := ih h
              exact ⟨.label name :: pre, other, rest', rfl, rfl, hb⟩
      | perform operation =>
          obtain ⟨pre, other, rest', rfl, hi, hb⟩ := ih h
          exact ⟨.perform operation :: pre, other, rest', rfl, hi, hb⟩
      | jump transfer =>
          obtain ⟨pre, other, rest', rfl, hi, hb⟩ := ih h
          exact ⟨.jump transfer :: pre, other, rest', rfl, hi, hb⟩

theorem map_name_laterBlocks (names : List Label) (statements : List Statement) :
    (laterBlocks names statements).map Block.name = labels statements := by
  induction statements with
  | nil => rfl
  | cons s rest ih => cases s <;> simp [laterBlocks, labels, blockOf, ih]

section Assembled

variable {statements rest : List Statement} {p : Program}

theorem map_name_assemble (h : assemble statements = .ok p) :
    p.blocks.toList.map Block.name = blockNames statements := by
  obtain ⟨-, -, -, rfl⟩ := assemble_eq_ok_iff.mp h
  simp [blockOf, blockNames, map_name_laterBlocks]

theorem size_assemble (h : assemble statements = .ok p) :
    p.blocks.size = (labels statements).length + 1 := by
  have hlength := congrArg List.length (map_name_assemble h)
  simpa [blockNames] using hlength

/-- As many blocks come after a block as there are labels after it. -/
theorem block?_assemble (h : assemble statements = .ok p) {id : Nat} {b : Block}
    (hb : p.block? id = some b) :
    ∃ name rest, Opens statements rest ∧ id + (labels rest).length + 1 = p.blocks.size ∧
      b = blockOf (blockNames statements) name rest := by
  rw [size_assemble h]
  obtain ⟨-, -, -, rfl⟩ := assemble_eq_ok_iff.mp h
  simp only [block?, List.getElem?_toArray] at hb
  cases id with
  | zero => exact ⟨entryName, statements, Or.inl rfl, by omega, (Option.some.inj hb).symm⟩
  | succ i =>
      rw [List.getElem?_cons_succ] at hb
      obtain ⟨pre, name, rest, hpre, rfl, hblock⟩ := laterBlocks_eq_some hb
      refine ⟨name, rest, Or.inr ⟨pre, name, hpre⟩, ?_, hblock⟩
      simp only [← hpre, labels_append, labels, List.length_append, List.length_cons]
      omega

theorem exists_opens_of_mem (h : assemble statements = .ok p) {b : Block} (hb : b ∈ p.blocks) :
    ∃ name rest, Opens statements rest ∧ b = blockOf (blockNames statements) name rest := by
  obtain ⟨id, hid, rfl⟩ := Array.mem_iff_getElem.mp hb
  obtain ⟨name, rest, hopens, -, hblock⟩ := block?_assemble h (Array.getElem?_eq_getElem hid)
  exact ⟨name, rest, hopens, hblock⟩

/-- A block halts exactly if there is no label after it. -/
theorem remainder_halt_iff (names : List Label) (hconnected : Connected false rest)
    (hends : ends false rest = false) :
    (remainder names rest).2 = .halt ↔ labels rest = [] := by
  induction rest with
  | nil => exact iff_of_true rfl rfl
  | cons s rest ih =>
      cases s with
      | label name => exact iff_of_false nofun (List.cons_ne_nil _ _)
      | perform operation => exact ih hconnected.2 hends
      | jump transfer =>
          refine iff_of_false nofun ?_
          -- Something comes after the transfer, and it can only be a label.
          cases rest with
          | nil => exact Bool.noConfusion hends
          | cons next rest =>
              cases next with
              | label name => exact List.cons_ne_nil _ _
              | perform operation => exact Bool.noConfusion hconnected.2.1
              | jump other => exact Bool.noConfusion hconnected.2.1

/-- The targets of a block are the labels that its statements mention and the label that it runs
into. -/
theorem targets_blockOf {Q : Label → Prop} (names : List Label) (name : Label)
    (htargets : ∀ s ∈ rest, ∀ l ∈ s.targets, Q l) (hlabels : ∀ l ∈ labels rest, Q l) :
    ∀ id ∈ (blockOf names name rest).targets, ∃ l, Q l ∧ id = names.idxOf l := by
  induction rest with
  | nil => exact nofun
  | cons s rest ih =>
      cases s with
      | label next =>
          intro id hid
          rw [List.mem_singleton.mp hid]
          exact ⟨next, hlabels next List.mem_cons_self, rfl⟩
      | perform operation =>
          intro id hid
          simp only [Block.targets, blockOf, remainder, List.flatMap_cons, List.append_assoc,
            List.mem_append] at hid
          rcases hid with hid | hid
          · rw [Operation.targets_map, List.mem_map] at hid
            obtain ⟨l, hl, rfl⟩ := hid
            exact ⟨l, htargets _ List.mem_cons_self l hl, rfl⟩
          · exact ih (fun s hs => htargets s (List.mem_cons_of_mem _ hs)) hlabels id
              (List.mem_append.mpr hid)
      | jump transfer =>
          intro id hid
          simp only [Block.targets, blockOf, remainder, List.flatMap_nil, List.nil_append,
            Exit.targets, Transfer.targets_map, List.mem_map] at hid
          obtain ⟨l, hl, rfl⟩ := hid
          exact ⟨l, htargets _ List.mem_cons_self l hl, rfl⟩

theorem bodies_blockOf {Q : Label → Prop} (names : List Label) (name : Label)
    (hbodies : ∀ s ∈ rest, ∀ l ∈ s.bodies, Q l) :
    ∀ id ∈ (blockOf names name rest).bodies, ∃ l, Q l ∧ id = names.idxOf l := by
  induction rest with
  | nil => exact fun _ hid => absurd hid List.not_mem_nil
  | cons s rest ih =>
      cases s with
      | label next => exact fun _ hid => absurd hid List.not_mem_nil
      | perform operation =>
          intro id hid
          simp only [Block.bodies, blockOf, remainder, List.flatMap_cons, List.mem_append] at hid
          rcases hid with hid | hid
          · rw [Operation.bodies_map, List.mem_map] at hid
            obtain ⟨l, hl, rfl⟩ := hid
            exact ⟨l, hbodies _ List.mem_cons_self l hl, rfl⟩
          · exact ih (fun s hs => hbodies s (List.mem_cons_of_mem _ hs)) id hid
      | jump transfer => exact fun _ hid => absurd hid List.not_mem_nil

/-- A block that is not closed by a transfer runs into no body. -/
theorem successors_blockOf {Q : Label → Prop} (names : List Label) (name : Label)
    (hsuccessors : ∀ s ∈ rest, ∀ l ∈ s.successors, Q l)
    (hlabels : ∀ l ∈ labels rest, isBody l = false → Q l) (hfenced : Fenced false rest) :
    ∀ id ∈ (blockOf names name rest).successors, ∃ l, Q l ∧ id = names.idxOf l := by
  induction rest with
  | nil => exact nofun
  | cons s rest ih =>
      cases s with
      | label next =>
          intro id hid
          rw [List.mem_singleton.mp hid]
          have hnext : isBody next = false := by
            rw [← Bool.not_eq_true]
            exact fun hbody => absurd (hfenced.1 hbody) Bool.false_ne_true
          exact ⟨next, hlabels next List.mem_cons_self hnext, rfl⟩
      | perform operation =>
          intro id hid
          simp only [Block.successors, blockOf, remainder, List.flatMap_cons, List.append_assoc,
            List.mem_append] at hid
          rcases hid with hid | hid
          · rw [Operation.branches_map, List.mem_map] at hid
            obtain ⟨l, hl, rfl⟩ := hid
            exact ⟨l, hsuccessors _ List.mem_cons_self l hl, rfl⟩
          · exact ih (fun s hs => hsuccessors s (List.mem_cons_of_mem _ hs)) hlabels hfenced id
              (List.mem_append.mpr hid)
      | jump transfer =>
          intro id hid
          simp only [Block.successors, blockOf, remainder, List.flatMap_nil, List.nil_append,
            Exit.targets, Transfer.targets_map, List.mem_map] at hid
          obtain ⟨l, hl, rfl⟩ := hid
          exact ⟨l, hsuccessors _ List.mem_cons_self l hl, rfl⟩

/-- All numbers of blocks that a block mentions are those of blocks. -/
theorem targets_lt_size (h : assemble statements = .ok p) :
    ∀ b ∈ p.blocks, ∀ id ∈ b.targets, id < p.blocks.size := by
  obtain ⟨-, htargets, -, -⟩ := assemble_eq_ok_iff.mp h
  intro b hb id hid
  obtain ⟨name, rest, hopens, rfl⟩ := exists_opens_of_mem h hb
  obtain ⟨l, hl, rfl⟩ := targets_blockOf _ _
    (fun s hs => htargets s (hopens.suffix.subset hs))
    (fun l hl => List.mem_cons_of_mem _ (hopens.labels_subset hl)) id hid
  rw [size_assemble h]
  exact List.idxOf_lt_length_of_mem hl

/-- Sealed code that control gets through makes a well-formed program. -/
theorem wellFormed_of_assemble (h : assemble statements = .ok p) (hsealed : Sealed statements)
    (hends : ends false statements = false) : p.WellFormed := by
  obtain ⟨hnodup, htargets, hconnected, hp⟩ := assemble_eq_ok_iff.mp h
  refine ⟨?_, ?_, ?_, ?_, ?_⟩
  · rw [size_assemble h, hp]
    exact Nat.succ_pos _
  · exact targets_lt_size h
  · rw [map_name_assemble h]
    exact hnodup
  · intro id b hb
    obtain ⟨name, rest, hopens, hcount, rfl⟩ := block?_assemble h hb
    have hhalt := remainder_halt_iff (blockNames statements) (hopens.connected hconnected)
      (hopens.ends.trans hends)
    refine hhalt.trans ?_
    rw [← List.length_eq_zero_iff]
    omega
  · intro b hb id hid c hc hmem
    obtain ⟨name, rest, hopens, rfl⟩ := exists_opens_of_mem h hb
    obtain ⟨name', rest', hopens', rfl⟩ := exists_opens_of_mem h hc
    obtain ⟨l, ⟨hl, hbody⟩, rfl⟩ := bodies_blockOf _ _
      (fun s hs l hl => And.intro (htargets s (hopens.suffix.subset hs) l (s.bodies_subset hl))
        (hsealed.bodies s (hopens.suffix.subset hs) l hl)) id hid
    obtain ⟨l', ⟨-, hother⟩, hid⟩ := successors_blockOf _ _
      (fun s hs l hl => And.intro
        (htargets s (hopens'.suffix.subset hs) l (s.successors_subset hl))
        (hsealed.successors s (hopens'.suffix.subset hs) l hl))
      (fun l hl hother => ⟨List.mem_cons_of_mem _ (hopens'.labels_subset hl), hother⟩)
      (hopens'.fenced hsealed.fenced) _ hmem
    -- Equal numbers come from equal labels.
    rw [(List.idxOf_inj hl).mp hid] at hbody
    exact Bool.noConfusion (hbody.symm.trans hother)

end Assembled

end Program

/-- The code of a program assembles, and into a well-formed program. -/
theorem Expression.compileProgram_wellFormed {forms : List Datum} {n n' : Nat} {code : Sequence}
    (h : compileProgram forms n = .ok code n') :
    ∃ p, Program.assemble code.statements = .ok p ∧ p.WellFormed := by
  obtain ⟨p, hp⟩ := compileProgram_assembles h
  obtain ⟨-, hplaced⟩ := compileSequence_placeable (forms.map ofDatum) h
  have hsealed := compileSequence_sealed (forms.map ofDatum) (Or.inl rfl) Linkage.outside_next h
  exact ⟨p, hp, Program.wellFormed_of_assemble hp hsealed (hplaced.fits.opens rfl)⟩

/-- A procedure that calls itself from a branch: its body is a block that only calls get into. -/
theorem Expression.recursive_procedure_wellFormed :
    ∃ forms code n p, Datum.parse "(define (f x) (if x (f x) 1))" = .ok forms ∧
      compileProgram forms 0 = .ok code n ∧ Program.assemble code.statements = .ok p ∧
      p.WellFormed ∧ ∃ b ∈ p.blocks, b.bodies ≠ [] := by
  have hmakes : ((Datum.parse "(define (f x) (if x (f x) 1))").toOption.any fun forms =>
      (Compile.made? (compileProgram forms 0)).any fun code =>
        (Program.assemble code.statements).toOption.any fun p =>
          p.blocks.any fun b => !b.bodies.isEmpty) = true := by
    decide +kernel
  obtain ⟨forms, hforms, hcompiles⟩ := (Option.any_eq_true _ _).mp hmakes
  obtain ⟨code, hmade, hassembled⟩ := (Option.any_eq_true _ _).mp hcompiles
  obtain ⟨p, hp, hblock⟩ := (Option.any_eq_true _ _).mp hassembled
  obtain ⟨n, hcode⟩ := Compile.eq_ok_of_made? hmade
  obtain ⟨p', hassembles, hwell⟩ := compileProgram_wellFormed hcode
  obtain rfl : p' = p := Except.ok.inj (hassembles.symm.trans (eq_ok_of_toOption hp))
  obtain ⟨i, hi, hbodies⟩ := Array.any_eq_true.mp hblock
  refine ⟨forms, code, n, p', eq_ok_of_toOption hforms, hcode, hassembles, hwell, p'.blocks[i],
    Array.getElem_mem hi, ?_⟩
  intro hnil
  simp [hnil] at hbodies

end SchemeMachine
