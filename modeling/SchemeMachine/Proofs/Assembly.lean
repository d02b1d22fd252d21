import Mathlib.Data.List.Basic
import Mathlib.Data.List.Nodup
import SchemeMachine.Machine.Run

/-!
# What assembled programs hold

Assembling cuts statements into blocks.  This module says what the blocks are without a loop: the
block of a label holds what comes after the label, up to the next label or transfer.  What is left to
run of a block is then the `remainder` of the statements that are left, and control in an assembled
program can be told by the statements ahead of it.  `Site` packs a loaded program with its statements,
and `Site.before` is the control that stands before some of them.

The last part says which statements can be assembled.
-/

namespace SchemeMachine

theorem except_bind_eq_ok_iff {ε α β : Type} {x : Except ε α} {f : α → Except ε β} {b : β} :
    (x >>= f) = .ok b ↔ ∃ a, x = .ok a ∧ f a = .ok b := by
  cases x <;> simp [bind, Except.bind]

/-! ## Replacing all targets -/

section Map

variable {L M ε : Type}

/-- The operand with its target replaced. -/
def Operand.map (g : L → M) : Operand L → Operand M
  | const value => const value
  | register r => register r
  | label target => label (g target)
  | lookup x => lookup x
  | consArg => consArg
  | listArg => listArg
  | makeClosure entry => makeClosure (g entry)
  | closureEnv => closureEnv
  | closureEntry => closureEntry
  | extendEnv formals => extendEnv formals
  | applyPrimitive => applyPrimitive

/-- The operation with its target replaced. -/
def Operation.map (g : L → M) : Operation L → Operation M
  | assign target source => assign target (source.map g)
  | save r => save r
  | restore r => restore r
  | define x => define x
  | set x => set x
  | testFalse => testFalse
  | testPrimitive => testPrimitive
  | branch target => branch (g target)

/-- The transfer with its target replaced. -/
def Transfer.map (g : L → M) : Transfer L → Transfer M
  | direct target => direct (g target)
  | indirect r => indirect r

/-- The target that an operand mentions. -/
def Operand.targets : Operand L → List L
  | label target | makeClosure target => [target]
  | _ => []

/-- The target that an operation mentions. -/
def Operation.targets : Operation L → List L
  | assign _ source => source.targets
  | branch target => [target]
  | _ => []

/-- The target that a transfer mentions. -/
def Transfer.targets : Transfer L → List L
  | direct target => [target]
  | indirect _ => []

theorem Operand.map_map {N : Type} (f : L → M) (g : M → N) (source : Operand L) :
    (source.map f).map g = source.map (g ∘ f) := by
  cases source <;> rfl

theorem Operation.map_map {N : Type} (f : L → M) (g : M → N) (operation : Operation L) :
    (operation.map f).map g = operation.map (g ∘ f) := by
  cases operation with
  | assign target source => exact congrArg (assign target) (source.map_map f g)
  | _ => rfl

theorem Transfer.map_map {N : Type} (f : L → M) (g : M → N) (transfer : Transfer L) :
    (transfer.map f).map g = transfer.map (g ∘ f) := by
  cases transfer <;> rfl

/-- Only the targets mentioned matter. -/
theorem Operand.map_congr {f g : L → M} {source : Operand L}
    (h : ∀ l ∈ source.targets, f l = g l) : source.map f = source.map g := by
  cases source <;> simp_all [Operand.map, Operand.targets]

theorem Operation.map_congr {f g : L → M} {operation : Operation L}
    (h : ∀ l ∈ operation.targets, f l = g l) : operation.map f = operation.map g := by
  cases operation with
  | assign target source => exact congrArg (assign target) (Operand.map_congr h)
  | branch target => exact congrArg branch (h target (List.mem_singleton_self target))
  | _ => rfl

theorem Transfer.map_congr {f g : L → M} {transfer : Transfer L}
    (h : ∀ l ∈ transfer.targets, f l = g l) : transfer.map f = transfer.map g := by
  cases transfer with
  | direct target => exact congrArg direct (h target (List.mem_singleton_self target))
  | indirect r => rfl

theorem Operand.targets_map (f : L → M) (source : Operand L) :
    (source.map f).targets = source.targets.map f := by
  cases source <;> rfl

theorem Operation.targets_map (f : L → M) (operation : Operation L) :
    (operation.map f).targets = operation.targets.map f := by
  cases operation with
  | assign target source => exact source.targets_map f
  | _ => rfl

theorem Transfer.targets_map (f : L → M) (transfer : Transfer L) :
    (transfer.map f).targets = transfer.targets.map f := by
  cases transfer <;> rfl

/-- Resolving succeeds exactly when every target mentioned does, and then replaces it. -/
theorem Operand.resolve_eq_map {f : L → Except ε M} {g : L → M} {source : Operand L}
    (h : ∀ l ∈ source.targets, f l = .ok (g l)) : source.resolve f = .ok (source.map g) := by
  cases source with
  | label target =>
      have := h target (by simp [Operand.targets])
      simp [Operand.resolve, Operand.map, this, Except.map]
  | makeClosure entry =>
      have := h entry (by simp [Operand.targets])
      simp [Operand.resolve, Operand.map, this, Except.map]
  | _ => rfl

theorem Operation.resolve_eq_map {f : L → Except ε M} {g : L → M} {operation : Operation L}
    (h : ∀ l ∈ operation.targets, f l = .ok (g l)) :
    operation.resolve f = .ok (operation.map g) := by
  cases operation with
  | assign target source =>
      simp [Operation.resolve, Operation.map, Operand.resolve_eq_map h, Except.map]
  | branch target =>
      have := h target (by simp [Operation.targets])
      simp [Operation.resolve, Operation.map, this, Except.map]
  | _ => rfl

theorem Transfer.resolve_eq_map {f : L → Except ε M} {g : L → M} {transfer : Transfer L}
    (h : ∀ l ∈ transfer.targets, f l = .ok (g l)) :
    transfer.resolve f = .ok (transfer.map g) := by
  cases transfer with
  | direct target =>
      have := h target (by simp [Transfer.targets])
      simp [Transfer.resolve, Transfer.map, this, Except.map]
  | indirect r => rfl

/-- A target that cannot be resolved makes resolving fail. -/
theorem Operand.targets_resolve {f : L → Except ε M} {source : Operand L} {source' : Operand M}
    (h : source.resolve f = .ok source') : ∀ l ∈ source.targets, ∃ m, f l = .ok m := by
  intro l hl
  cases source <;> simp only [Operand.targets, List.mem_singleton, List.not_mem_nil] at hl
  all_goals
    subst hl
    cases hf : f l with
    | error e => simp [Operand.resolve, hf, Except.map] at h
    | ok m => exact ⟨m, rfl⟩

theorem Operation.targets_resolve {f : L → Except ε M} {operation : Operation L}
    {operation' : Operation M} (h : operation.resolve f = .ok operation') :
    ∀ l ∈ operation.targets, ∃ m, f l = .ok m := by
  intro l hl
  cases operation <;> simp only [Operation.targets, List.mem_singleton, List.not_mem_nil] at hl
  case assign target source =>
      cases hs : source.resolve f with
      | error e => simp [Operation.resolve, hs, Except.map] at h
      | ok source' => exact Operand.targets_resolve hs l hl
  case branch target =>
      subst hl
      cases hf : f l with
      | error e => simp [Operation.resolve, hf, Except.map] at h
      | ok m => exact ⟨m, rfl⟩

theorem Transfer.targets_resolve {f : L → Except ε M} {transfer : Transfer L}
    {transfer' : Transfer M} (h : transfer.resolve f = .ok transfer') :
    ∀ l ∈ transfer.targets, ∃ m, f l = .ok m := by
  intro l hl
  cases transfer <;> simp only [Transfer.targets, List.mem_singleton, List.not_mem_nil] at hl
  subst hl
  cases hf : f l with
  | error e => simp [Transfer.resolve, hf, Except.map] at h
  | ok m => exact ⟨m, rfl⟩

end Map

/-- The targets that a statement mentions; a label mentions none, it is one. -/
def Statement.targets : Statement → List Label
  | label _ => []
  | perform operation => operation.targets
  | jump transfer => transfer.targets

namespace Program

/-! ## Blocks without a loop -/

/-- Whether no instruction follows a transfer without a label in between; `closed` tells whether a
transfer has come just before. -/
def Connected (closed : Bool) : List Statement → Prop
  | [] => True
  | .label _ :: rest => Connected false rest
  | .perform _ :: rest => closed = false ∧ Connected false rest
  | .jump _ :: rest => closed = false ∧ Connected true rest

/-- What a block does from some statements on: the operations up to the next label or transfer, and
how control leaves then. -/
def remainder (names : List Label) : List Statement → List (Operation BlockId) × Exit
  | [] => ([], .halt)
  | .label next :: _ => ([], .jump (.direct (names.idxOf next)))
  | .perform operation :: rest =>
    (operation.map names.idxOf :: (remainder names rest).1, (remainder names rest).2)
  | .jump transfer :: _ => ([], .jump (transfer.map names.idxOf))

/-- The block that begins before some statements. -/
def blockOf (names : List Label) (name : Label) (statements : List Statement) : Block :=
  ⟨name, (remainder names statements).1, (remainder names statements).2⟩

/-- The blocks of the labels in some statements. -/
def laterBlocks (names : List Label) : List Statement → List Block
  | [] => []
  | .label name :: rest => blockOf names name rest :: laterBlocks names rest
  | _ :: rest => laterBlocks names rest

theorem resolve_eq_ok_iff {names : List Label} {name : Label} {id : BlockId} :
    resolve names name = .ok id ↔ name ∈ names ∧ id = names.idxOf name := by
  unfold resolve
  rw [List.idxOf_eq_getD_idxOf?]
  cases h : names.idxOf? name with
  | none =>
      have hmem : name ∉ names := List.idxOf?_eq_none_iff.mp h
      simp [hmem]
  | some i =>
      have hmem : name ∈ names := by
        by_contra hmem
        rw [List.idxOf?_eq_none_iff.mpr hmem] at h
        cases h
      simp [hmem, eq_comm]

theorem resolve_of_mem {names : List Label} {name : Label} (h : name ∈ names) :
    resolve names name = .ok (names.idxOf name) :=
  resolve_eq_ok_iff.mpr ⟨h, rfl⟩

theorem operation_resolve_eq_ok_iff {names : List Label} {operation : Operation Label}
    {operation' : Operation BlockId} :
    operation.resolve (resolve names) = .ok operation' ↔
      (∀ l ∈ operation.targets, l ∈ names) ∧ operation' = operation.map names.idxOf := by
  constructor
  · intro h
    have hmem : ∀ l ∈ operation.targets, l ∈ names := by
      intro l hl
      obtain ⟨id, hid⟩ := Operation.targets_resolve h l hl
      exact (resolve_eq_ok_iff.mp hid).1
    rw [Operation.resolve_eq_map fun l hl => resolve_of_mem (hmem l hl)] at h
    exact ⟨hmem, (Except.ok.inj h).symm⟩
  · rintro ⟨hmem, rfl⟩
    exact Operation.resolve_eq_map fun l hl => resolve_of_mem (hmem l hl)

theorem transfer_resolve_eq_ok_iff {names : List Label} {transfer : Transfer Label}
    {transfer' : Transfer BlockId} :
    transfer.resolve (resolve names) = .ok transfer' ↔
      (∀ l ∈ transfer.targets, l ∈ names) ∧ transfer' = transfer.map names.idxOf := by
  constructor
  · intro h
    have hmem : ∀ l ∈ transfer.targets, l ∈ names := by
      intro l hl
      obtain ⟨id, hid⟩ := Transfer.targets_resolve h l hl
      exact (resolve_eq_ok_iff.mp hid).1
    rw [Transfer.resolve_eq_map fun l hl => resolve_of_mem (hmem l hl)] at h
    exact ⟨hmem, (Except.ok.inj h).symm⟩
  · rintro ⟨hmem, rfl⟩
    exact Transfer.resolve_eq_map fun l hl => resolve_of_mem (hmem l hl)

/-- The block that is open while statements are cut: what it has so far, then what is left, unless a
transfer has closed it. -/
def openBlock (names : List Label) (name : Label) (done : List (Operation BlockId)) :
    Option Exit → List Statement → Block
  | none, statements =>
    ⟨name, done.reverse ++ (remainder names statements).1, (remainder names statements).2⟩
  | some exit, _ => ⟨name, done.reverse, exit⟩

/-- Cutting succeeds exactly on connected statements all of whose targets have names, and the blocks
are then the open one and those of the labels. -/
theorem cut_eq_ok_iff {names : List Label} {statements : List Statement} :
    ∀ {name : Label} {done : List (Operation BlockId)} {exit : Option Exit} {blocks : List Block},
      cut names name done exit statements = .ok blocks ↔
        (∀ l ∈ labels statements, l ∈ names) ∧
        (∀ s ∈ statements, ∀ l ∈ s.targets, l ∈ names) ∧
        Connected exit.isSome statements ∧
        blocks = openBlock names name done exit statements :: laterBlocks names statements := by
  induction statements with
  | nil =>
      intro name done exit blocks
      cases exit <;> simp [cut, labels, Connected, openBlock, remainder, laterBlocks, eq_comm]
  | cons statement rest ih =>
      intro name done exit blocks
      cases statement with
      | label next =>
          -- A block that is still open runs into the label, a closed one keeps its exit.
          have hblock : ⟨name, done.reverse, exit.getD (.jump (.direct (names.idxOf next)))⟩ =
              openBlock names name done exit (.label next :: rest) := by
            cases exit <;> simp [openBlock, remainder]
          simp only [cut, except_bind_eq_ok_iff, resolve_eq_ok_iff, ih, labels, Connected,
            laterBlocks, List.mem_cons, forall_eq_or_imp, Statement.targets, List.not_mem_nil]
          constructor
          · rintro ⟨_, ⟨hnext, rfl⟩, _, ⟨hlabels, htargets, hrest, rfl⟩, h⟩
            refine ⟨⟨hnext, hlabels⟩, ⟨by simp, htargets⟩, hrest, ?_⟩
            rw [← Except.ok.inj h, hblock]
            simp [openBlock, blockOf]
          · rintro ⟨⟨hnext, hlabels⟩, ⟨-, htargets⟩, hrest, rfl⟩
            refine ⟨_, ⟨hnext, rfl⟩, _, ⟨hlabels, htargets, hrest, rfl⟩, ?_⟩
            rw [hblock]
            simp [openBlock, blockOf, pure, Except.pure]
      | perform operation =>
          cases exit with
          | some exit => simp [cut, Connected]
          | none =>
              simp only [cut, Option.isSome_none, Bool.false_eq_true, if_false,
                except_bind_eq_ok_iff, operation_resolve_eq_ok_iff, ih, labels, Connected,
                laterBlocks, List.mem_cons, forall_eq_or_imp, Statement.targets]
              constructor
              · rintro ⟨_, ⟨hop, rfl⟩, hlabels, htargets, hrest, rfl⟩
                refine ⟨hlabels, ⟨hop, htargets⟩, ⟨trivial, hrest⟩, ?_⟩
                simp [openBlock, remainder]
              · rintro ⟨hlabels, ⟨hop, htargets⟩, ⟨-, hrest⟩, rfl⟩
                refine ⟨_, ⟨hop, rfl⟩, hlabels, htargets, hrest, ?_⟩
                simp [openBlock, remainder]
      | jump transfer =>
          cases exit with
          | some exit => simp [cut, Connected]
          | none =>
              simp only [cut, Option.isSome_none, Bool.false_eq_true, if_false,
                except_bind_eq_ok_iff, transfer_resolve_eq_ok_iff, ih, labels, Connected,
                laterBlocks, List.mem_cons, forall_eq_or_imp, Statement.targets]
              constructor
              · rintro ⟨_, ⟨htransfer, rfl⟩, hlabels, htargets, hrest, rfl⟩
                refine ⟨hlabels, ⟨htransfer, htargets⟩, ⟨trivial, hrest⟩, ?_⟩
                simp [openBlock, remainder]
              · rintro ⟨hlabels, ⟨htransfer, htargets⟩, ⟨-, hrest⟩, rfl⟩
                refine ⟨_, ⟨htransfer, rfl⟩, hlabels, htargets, hrest, ?_⟩
                simp [openBlock, remainder]

theorem firstDuplicate?_eq_none_iff {seen names : List Label} :
    firstDuplicate? seen names = none ↔ names.Nodup ∧ ∀ name ∈ names, name ∉ seen := by
  induction names generalizing seen with
  | nil => simp [firstDuplicate?]
  | cons name rest ih =>
      simp only [firstDuplicate?]
      by_cases h : name ∈ seen
      · simp [h]
      · simp only [List.contains_eq_mem, decide_eq_true_eq, h, if_false, ih, List.nodup_cons,
          List.mem_cons, not_or]
        constructor
        · rintro ⟨hnodup, hseen⟩
          refine ⟨⟨fun hmem => (hseen name hmem).1 rfl, hnodup⟩, ?_⟩
          rintro other (rfl | hmem)
          · exact h
          · exact (hseen other hmem).2
        · rintro ⟨⟨hname, hnodup⟩, hseen⟩
          refine ⟨hnodup, fun other hmem => ⟨?_, hseen other (Or.inr hmem)⟩⟩
          rintro rfl
          exact hname hmem

/-- The names of the blocks of statements, in order. -/
def blockNames (statements : List Statement) : List Label :=
  entryName :: labels statements

/-- Statements assemble exactly when the names of their blocks are distinct, all targets are such
names and the statements are connected; the program then has the blocks in order. -/
theorem assemble_eq_ok_iff {statements : List Statement} {p : Program} :
    assemble statements = .ok p ↔
      (blockNames statements).Nodup ∧
      (∀ s ∈ statements, ∀ l ∈ s.targets, l ∈ blockNames statements) ∧
      Connected false statements ∧
      p = ⟨(blockOf (blockNames statements) entryName statements ::
        laterBlocks (blockNames statements) statements).toArray, 0⟩ := by
  have hnodup : (blockNames statements).Nodup ↔
      firstDuplicate? [entryName] (labels statements) = none := by
    rw [firstDuplicate?_eq_none_iff, blockNames, List.nodup_cons, and_comm]
    refine and_congr_right fun _ => ⟨?_, ?_⟩
    · intro hname other hmem hother
      rw [List.mem_singleton.mp hother] at hmem
      exact hname hmem
    · intro hname hmem
      exact hname entryName hmem (List.mem_singleton_self entryName)
  rw [hnodup]
  cases hduplicate : firstDuplicate? [entryName] (labels statements) with
  | some name => simp [assemble, hduplicate]
  | none =>
      simp only [assemble, hduplicate, except_bind_eq_ok_iff, cut_eq_ok_iff, true_and]
      constructor
      · rintro ⟨_, ⟨-, htargets, hconnected, rfl⟩, h⟩
        refine ⟨htargets, hconnected, ?_⟩
        rw [← Except.ok.inj h]
        simp [openBlock, blockOf, blockNames]
      · rintro ⟨htargets, hconnected, rfl⟩
        refine ⟨_, ⟨fun l hl => List.mem_cons_of_mem _ hl, htargets, hconnected, rfl⟩, ?_⟩
        simp [openBlock, blockOf, blockNames, pure, Except.pure]

/-! ## Blocks of labels -/

theorem labels_append (pre post : List Statement) :
    labels (pre ++ post) = labels pre ++ labels post := by
  induction pre with
  | nil => rfl
  | cons statement rest ih => cases statement <;> simp [labels, ih]

theorem laterBlocks_getElem? (names : List Label) (pre rest : List Statement) (name : Label) :
    (laterBlocks names (pre ++ .label name :: rest))[(labels pre).length]? =
      some (blockOf names name rest) := by
  induction pre with
  | nil => simp [laterBlocks, labels]
  | cons statement pre ih => cases statement <;> simp [laterBlocks, labels, ih]

/-- The block of a label holds what comes after the label. -/
theorem block?_label {statements pre rest : List Statement} {name : Label} {p : Program}
    (h : assemble statements = .ok p) (hpre : pre ++ .label name :: rest = statements) :
    p.block? ((blockNames statements).idxOf name) =
      some (blockOf (blockNames statements) name rest) := by
  obtain ⟨hnodup, -, -, rfl⟩ := assemble_eq_ok_iff.mp h
  have hnames : blockNames statements =
      (entryName :: labels pre) ++ name :: labels rest := by
    rw [blockNames, ← hpre, labels_append]
    rfl
  have hindex : (blockNames statements).idxOf name = (labels pre).length + 1 := by
    rw [hnames] at hnodup ⊢
    have hnot : name ∉ entryName :: labels pre := by
      intro hmem
      exact (List.nodup_append.mp hnodup).2.2 name hmem name List.mem_cons_self rfl
    rw [List.idxOf_append_of_notMem hnot, List.idxOf_cons_self]
    rfl
  rw [hindex]
  simp only [Program.block?, List.getElem?_toArray, List.getElem?_cons_succ]
  have hblock := laterBlocks_getElem? (blockNames statements) pre rest name
  rwa [hpre] at hblock

theorem block?_entry {statements : List Statement} {p : Program}
    (h : assemble statements = .ok p) :
    p.block? p.entry = some (blockOf (blockNames statements) entryName statements) := by
  obtain ⟨-, -, -, rfl⟩ := assemble_eq_ok_iff.mp h
  rfl

end Program

/-! ## Control in an assembled program -/

/-- A loaded program together with the statements that it was assembled from. -/
structure Site where
  code : Loaded
  statements : List Statement
  assembled : Program.assemble statements = .ok code.program

namespace Site

/-- The number of the block of a label. -/
def number (site : Site) (name : Label) : BlockId :=
  (Program.blockNames site.statements).idxOf name

/-- Control before some of the statements. -/
def before (site : Site) (rest : List Statement) : Control :=
  ⟨site.code, (Program.remainder (Program.blockNames site.statements) rest).1,
    (Program.remainder (Program.blockNames site.statements) rest).2⟩

/-- The statements end in these. -/
def Covers (site : Site) (rest : List Statement) : Prop :=
  rest <:+ site.statements

theorem Covers.append_right {site : Site} {first rest : List Statement}
    (h : site.Covers (first ++ rest)) : site.Covers rest :=
  (List.suffix_append first rest).trans h

theorem Covers.tail {site : Site} {statement : Statement} {rest : List Statement}
    (h : site.Covers (statement :: rest)) : site.Covers rest :=
  (List.suffix_cons statement rest).trans h

theorem before_perform (site : Site) (operation : Operation Label) (rest : List Statement) :
    site.before (.perform operation :: rest) =
      ⟨site.code, operation.map site.number :: (site.before rest).operations,
        (site.before rest).exit⟩ :=
  rfl

theorem before_label (site : Site) (name : Label) (rest : List Statement) :
    site.before (.label name :: rest) = ⟨site.code, [], .jump (.direct (site.number name))⟩ :=
  rfl

theorem before_jump (site : Site) (transfer : Transfer Label) (rest : List Statement) :
    site.before (.jump transfer :: rest) = ⟨site.code, [], .jump (transfer.map site.number)⟩ :=
  rfl

theorem before_end (site : Site) : site.before [] = ⟨site.code, [], .halt⟩ :=
  rfl

/-- Whoever jumps to a label goes on with what comes after it. -/
theorem enter_label {site : Site} {name : Label} {rest : List Statement}
    (h : site.Covers (.label name :: rest)) (m : Machine) :
    Machine.enter site.code (site.number name) m = .running m (site.before rest) := by
  obtain ⟨pre, hpre⟩ := h
  unfold Machine.enter number
  rw [Program.block?_label site.assembled hpre]
  rfl

/-- A program begins with its first statement. -/
theorem enter_entry (site : Site) (m : Machine) :
    Machine.enter site.code site.code.program.entry m = .running m (site.before site.statements) := by
  unfold Machine.enter
  rw [Program.block?_entry site.assembled]
  rfl

end Site
end SchemeMachine
