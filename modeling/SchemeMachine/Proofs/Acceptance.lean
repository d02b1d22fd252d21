import SchemeMachine.Proofs.Blocks

/-!
# Which statements make a program

Assembling goes through statements twice: once for the labels, once for the blocks.  Here the result
is told without going through them, by the first place where something is wrong.

A label is wrong if the name has been given to a block before.  An instruction is wrong if a
transfer comes before it with no label in between, or if it mentions a label that begins no block.
Wrong labels come before wrong instructions, however far down they stand.  Where nothing is wrong
there is a program, and its blocks are the stretches between the labels.
-/

namespace SchemeMachine

/-- The operation of a statement that is one. -/
def Statement.operation? : Statement → Option (Operation Label)
  | perform operation => some operation
  | _ => none

/-- The transfer of a statement that is one. -/
def Statement.transfer? : Statement → Option (Transfer Label)
  | jump transfer => some transfer
  | _ => none

@[ext] theorem Block.ext {b c : Block} (hname : b.name = c.name)
    (hoperations : b.operations = c.operations) (hexit : b.exit = c.exit) : b = c := by
  cases b
  cases c
  simp only at hname hoperations hexit
  rw [hname, hoperations, hexit]

namespace Program

/-! ## First places -/

section First

variable {P : List Statement → Statement → Prop}

/-- Something is wrong with the statement behind `before`, and with none before it. -/
structure FirstAt (P : List Statement → Statement → Prop) (statements before : List Statement)
    (s : Statement) : Prop where
  split : ∃ after, statements = before ++ s :: after
  wrong : P before s
  first : ∀ earlier t later, before = earlier ++ t :: later → ¬P earlier t

/-- Nothing is wrong with any statement. -/
def Nowhere (P : List Statement → Statement → Prop) (statements : List Statement) : Prop :=
  ∀ before s after, statements = before ++ s :: after → ¬P before s

theorem firstAt_nil {before : List Statement} {s : Statement} : ¬FirstAt P [] before s := by
  rintro ⟨⟨after, h⟩, -, -⟩
  cases before <;> cases h

/-- The first place is at the first statement or, if nothing is wrong there, further on. -/
theorem firstAt_cons {x s : Statement} {xs before : List Statement} :
    FirstAt P (x :: xs) before s ↔
      before = [] ∧ s = x ∧ P [] x ∨
        ∃ rest, before = x :: rest ∧ ¬P [] x ∧ FirstAt (fun b => P (x :: b)) xs rest s := by
  constructor
  · rintro ⟨⟨after, hsplit⟩, hwrong, hfirst⟩
    cases before with
    | nil =>
        obtain ⟨rfl, rfl⟩ := List.cons.inj hsplit
        exact Or.inl ⟨rfl, rfl, hwrong⟩
    | cons y rest =>
        obtain ⟨rfl, rfl⟩ := List.cons.inj hsplit
        refine Or.inr ⟨rest, rfl, hfirst [] x rest rfl, ⟨after, rfl⟩, hwrong, ?_⟩
        intro earlier t later hrest
        exact hfirst (x :: earlier) t later (congrArg (x :: ·) hrest)
  · rintro (⟨rfl, rfl, hwrong⟩ | ⟨rest, rfl, hx, ⟨after, rfl⟩, hwrong, hfirst⟩)
    · exact ⟨⟨xs, rfl⟩, hwrong, fun earlier t later h => by cases earlier <;> cases h⟩
    · refine ⟨⟨after, rfl⟩, hwrong, ?_⟩
      intro earlier t later hsplit
      cases earlier with
      | nil =>
          obtain ⟨rfl, -⟩ := List.cons.inj hsplit
          exact hx
      | cons y earlier =>
          obtain ⟨rfl, hrest⟩ := List.cons.inj hsplit
          exact hfirst earlier t later hrest

/-- What holds of the first place holds of the first statement, if something is wrong with it, and
of a place further on if not. -/
theorem exists_firstAt_cons {Q : List Statement → Statement → Prop} {x : Statement}
    {xs : List Statement} :
    (∃ before s, FirstAt P (x :: xs) before s ∧ Q before s) ↔
      P [] x ∧ Q [] x ∨
        ¬P [] x ∧ ∃ before s, FirstAt (fun b => P (x :: b)) xs before s ∧ Q (x :: before) s := by
  constructor
  · rintro ⟨before, s, hfirst, hQ⟩
    rcases firstAt_cons.mp hfirst with ⟨rfl, rfl, hx⟩ | ⟨rest, rfl, hx, hfirst⟩
    · exact Or.inl ⟨hx, hQ⟩
    · exact Or.inr ⟨hx, rest, s, hfirst, hQ⟩
  · rintro (⟨hx, hQ⟩ | ⟨hx, rest, s, hfirst, hQ⟩)
    · exact ⟨[], x, firstAt_cons.mpr (Or.inl ⟨rfl, rfl, hx⟩), hQ⟩
    · exact ⟨x :: rest, s, firstAt_cons.mpr (Or.inr ⟨rest, rfl, hx, hfirst⟩), hQ⟩

/-- If something is wrong somewhere, there is a first place. -/
theorem nowhere_iff {statements : List Statement} :
    Nowhere P statements ↔ ∀ before s, ¬FirstAt P statements before s := by
  constructor
  · rintro h before s ⟨⟨after, hsplit⟩, hwrong, -⟩
    exact h before s after hsplit hwrong
  · intro h before
    -- By the length of what comes before: a place that is not the first has one before it.
    induction hlength : before.length using Nat.strongRecOn generalizing before with
    | _ n ih =>
        intro s after hsplit hwrong
        refine h before s ⟨⟨after, hsplit⟩, hwrong, ?_⟩
        rintro earlier t later rfl
        refine ih earlier.length ?_ earlier rfl t (later ++ s :: after) ?_
        · rw [← hlength, List.length_append, List.length_cons]
          omega
        · rw [hsplit, List.append_assoc, List.cons_append]

end First

/-! ## What can be wrong -/

/-- A label whose name a block before it has. -/
def Repeats (before : List Statement) (s : Statement) : Prop :=
  ∃ name, s = .label name ∧ name ∈ blockNames before

/-- Whether a transfer has come with no label after it. -/
def isShut (before : List Statement) : Bool :=
  (before.reverse.takeWhile Statement.isInstruction).any Statement.isTransfer

/-- The name of the block that is open behind some statements. -/
def blockAt (before : List Statement) : Label :=
  (labels before).getLast?.getD entryName

/-- An instruction that control cannot get to, or one that mentions a label that no block of that
name begins at. -/
def Faulty (names : List Label) (before : List Statement) (s : Statement) : Prop :=
  s.isInstruction = true ∧ isShut before = true ∨ ∃ l ∈ s.targets, l ∉ names

/-- The error that a faulty instruction is reported by.  That control cannot get to it comes
first. -/
def Reports (names : List Label) (before : List Statement) (s : Statement) (e : AssemblyError) :
    Prop :=
  isShut before = true ∧ e = .unreachable (blockAt before) s ∨
    isShut before = false ∧ ∃ l ∈ s.targets, l ∉ names ∧ e = .undefinedLabel l

section Wrong

variable {names : List Label} {before : List Statement} {name : Label}

theorem isShut_label : isShut (before ++ [.label name]) = false := by
  simp [isShut, Statement.isInstruction]

theorem isShut_jump (transfer : Transfer Label) : isShut (before ++ [.jump transfer]) = true := by
  simp [isShut, List.takeWhile_cons, Statement.isInstruction, Statement.isTransfer]

theorem isShut_perform (operation : Operation Label) :
    isShut (before ++ [.perform operation]) = isShut before := by
  simp [isShut, List.takeWhile_cons, Statement.isInstruction, Statement.isTransfer]

theorem blockAt_label : blockAt (before ++ [.label name]) = name := by
  simp [blockAt, labels_append, labels]

theorem blockAt_perform (operation : Operation Label) :
    blockAt (before ++ [.perform operation]) = blockAt before := by
  simp [blockAt, labels_append, labels]

theorem blockAt_jump (transfer : Transfer Label) :
    blockAt (before ++ [.jump transfer]) = blockAt before := by
  simp [blockAt, labels_append, labels]

/-- A label is never faulty. -/
theorem not_faulty_label : ¬Faulty names before (.label name) := by
  rintro (⟨h, -⟩ | ⟨l, hl, -⟩)
  · cases h
  · cases hl

/-- Behind a transfer every instruction is faulty. -/
theorem faulty_of_isShut {s : Statement} (hs : s.isInstruction = true)
    (hshut : isShut before = true) : Faulty names before s :=
  Or.inl ⟨hs, hshut⟩

theorem faulty_iff_of_open {s : Statement} (hopen : isShut before = false) :
    Faulty names before s ↔ ∃ l ∈ s.targets, l ∉ names := by
  simp [Faulty, hopen]

end Wrong

/-! ## Repeated labels -/

/-- The label that is reported is the first one that repeats the name of a block. -/
theorem firstDuplicate?_eq_some_iff {seen : List Label} {statements : List Statement}
    {name : Label} :
    firstDuplicate? seen (labels statements) = some name ↔
      ∃ before s, FirstAt (fun b s => ∃ l, s = .label l ∧ (l ∈ seen ∨ l ∈ labels b)) statements
        before s ∧ s = .label name := by
  induction statements generalizing seen with
  | nil =>
      refine iff_of_false (by simp [labels, firstDuplicate?]) ?_
      rintro ⟨before, s, h, -⟩
      exact firstAt_nil h
  | cons x rest ih =>
      rw [exists_firstAt_cons]
      cases x with
      | label l =>
          have hwrong :
              (fun b s => ∃ l', s = .label l' ∧ (l' ∈ seen ∨ l' ∈ labels (.label l :: b))) =
              fun b s => ∃ l', s = Statement.label l' ∧ (l' ∈ l :: seen ∨ l' ∈ labels b) := by
            funext b s
            simp only [labels, List.mem_cons, or_left_comm, or_assoc]
          rw [hwrong, ← ih]
          by_cases hseen : l ∈ seen
          · simp [labels, firstDuplicate?, hseen]
          · simp [labels, firstDuplicate?, hseen]
      | perform operation => simp [labels, ih]
      | jump transfer => simp [labels, ih]

theorem firstDuplicate?_entry_iff {statements : List Statement} {name : Label} :
    firstDuplicate? [entryName] (labels statements) = some name ↔
      ∃ before, FirstAt Repeats statements before (.label name) := by
  have hwrong : Repeats =
      fun b s => ∃ l, s = .label l ∧ (l ∈ [entryName] ∨ l ∈ labels b) := by
    funext b s
    simp [Repeats, blockNames]
  rw [firstDuplicate?_eq_some_iff, hwrong]
  constructor
  · rintro ⟨before, s, hfirst, rfl⟩
    exact ⟨before, hfirst⟩
  · rintro ⟨before, hfirst⟩
    exact ⟨before, _, hfirst, rfl⟩

theorem nowhere_repeats_iff {statements : List Statement} :
    Nowhere Repeats statements ↔ firstDuplicate? [entryName] (labels statements) = none := by
  rw [nowhere_iff, Option.eq_none_iff_forall_ne_some]
  constructor
  · intro h name hname
    obtain ⟨before, hfirst⟩ := firstDuplicate?_entry_iff.mp hname
    exact h before _ hfirst
  · intro h before s hfirst
    obtain ⟨name, rfl, -⟩ := hfirst.wrong
    exact h name (firstDuplicate?_entry_iff.mpr ⟨before, hfirst⟩)

/-! ## Faulty instructions -/

section Errors

variable {names : List Label} {e : AssemblyError}

theorem except_bind_eq_error_iff {ε α β : Type} {x : Except ε α} {f : α → Except ε β} {e : ε} :
    (x >>= f) = .error e ↔ x = .error e ∨ ∃ a, x = .ok a ∧ f a = .error e := by
  cases x <;> simp [bind, Except.bind]

theorem except_map_eq_error_iff {ε α β : Type} {x : Except ε α} {f : α → β} {e : ε} :
    x.map f = .error e ↔ x = .error e := by
  cases x <;> simp [Except.map]

theorem resolve_eq_error_iff {l : Label} :
    resolve names l = .error e ↔ l ∉ names ∧ e = .undefinedLabel l := by
  unfold resolve
  cases h : names.idxOf? l with
  | none => simp [List.idxOf?_eq_none_iff.mp h, eq_comm]
  | some i =>
      have hmem : l ∈ names := by
        by_contra hmem
        rw [List.idxOf?_eq_none_iff.mpr hmem] at h
        cases h
      simp [hmem]

theorem operand_resolve_eq_error_iff {source : Operand Label} :
    source.resolve (resolve names) = .error e ↔
      ∃ l ∈ source.targets, l ∉ names ∧ e = .undefinedLabel l := by
  cases source <;>
    simp [Operand.resolve, Operand.targets, except_map_eq_error_iff, resolve_eq_error_iff]

theorem operation_resolve_eq_error_iff {operation : Operation Label} :
    operation.resolve (resolve names) = .error e ↔
      ∃ l ∈ operation.targets, l ∉ names ∧ e = .undefinedLabel l := by
  cases operation <;>
    simp [Operation.resolve, Operation.targets, except_map_eq_error_iff, resolve_eq_error_iff,
      operand_resolve_eq_error_iff]

theorem transfer_resolve_eq_error_iff {transfer : Transfer Label} :
    transfer.resolve (resolve names) = .error e ↔
      ∃ l ∈ transfer.targets, l ∉ names ∧ e = .undefinedLabel l := by
  cases transfer <;>
    simp [Transfer.resolve, Transfer.targets, except_map_eq_error_iff, resolve_eq_error_iff]

/-- What an instruction is reported by where control gets to it: a label that it mentions. -/
theorem reports_of_open {before : List Statement} {s : Statement} (hopen : isShut before = false) :
    Faulty names before s ∧ Reports names before s e ↔
      ∃ l ∈ s.targets, l ∉ names ∧ e = .undefinedLabel l := by
  simp only [faulty_iff_of_open hopen, Reports, hopen, Bool.false_eq_true, false_and, false_or,
    true_and]
  constructor
  · exact And.right
  · rintro ⟨l, hl, hnames, rfl⟩
    exact ⟨⟨l, hl, hnames⟩, l, hl, hnames, rfl⟩

theorem reports_of_isShut {before : List Statement} {s : Statement} (hs : s.isInstruction = true)
    (hshut : isShut before = true) :
    Faulty names before s ∧ Reports names before s e ↔ e = .unreachable (blockAt before) s := by
  simp [faulty_of_isShut hs hshut, Reports, hshut]

theorem exists_reports {before : List Statement} {s : Statement} (h : Faulty names before s) :
    ∃ e, Reports names before s e := by
  cases hshut : isShut before with
  | true => exact ⟨_, Or.inl ⟨hshut, rfl⟩⟩
  | false =>
      obtain ⟨l, hl, hunknown⟩ := (faulty_iff_of_open hshut).mp h
      exact ⟨_, Or.inr ⟨hshut, l, hl, hunknown, rfl⟩⟩

/-- Cutting fails as the first faulty instruction is reported.  The block that is open, and whether
a transfer has closed it, are told by the statements already cut. -/
theorem cut_eq_error_iff {rest : List Statement} :
    ∀ {before : List Statement} {done : List (Operation BlockId)} {exit : Option Exit},
      (∀ l ∈ labels rest, l ∈ names) → exit.isSome = isShut before →
      (cut names (blockAt before) done exit rest = .error e ↔
        ∃ b s, FirstAt (fun b => Faulty names (before ++ b)) rest b s ∧
          Reports names (before ++ b) s e) := by
  induction rest with
  | nil =>
      intro before done exit _ _
      refine iff_of_false (by simp [cut]) ?_
      rintro ⟨b, s, hfirst, -⟩
      exact firstAt_nil hfirst
  | cons x rest ih =>
      intro before done exit hlabels hexit
      rw [exists_firstAt_cons, List.append_nil]
      -- Behind the first statement the same holds with that statement cut as well.
      cases x with
      | label next =>
          have hnext : next ∈ names := hlabels next List.mem_cons_self
          have htail := @ih (before ++ [.label next]) [] none
            (fun l hl => hlabels l (List.mem_cons_of_mem next hl)) (by rw [isShut_label]; rfl)
          simp only [List.append_assoc, List.singleton_append, blockAt_label] at htail
          rw [← htail, cut, resolve_of_mem hnext]
          simp only [not_faulty_label, false_and, not_false_eq_true, true_and, false_or]
          cases cut names next [] none rest <;> simp [bind, Except.bind, pure, Except.pure]
      | perform operation =>
          rw [cut]
          cases exit with
          | some exit =>
              have hfaulty : Faulty names before (.perform operation) :=
                faulty_of_isShut rfl hexit.symm
              rw [reports_of_isShut rfl hexit.symm]
              simp [hfaulty, eq_comm]
          | none =>
              have hopen : isShut before = false := hexit.symm
              have htail := @ih (before ++ [.perform operation])
                (operation.map names.idxOf :: done) none hlabels
                (by rw [isShut_perform, hopen]; rfl)
              simp only [List.append_assoc, List.singleton_append, blockAt_perform] at htail
              rw [← htail, reports_of_open hopen, faulty_iff_of_open hopen, if_neg (by simp),
                except_bind_eq_error_iff, operation_resolve_eq_error_iff]
              simp [operation_resolve_eq_ok_iff, Statement.targets]
      | jump transfer =>
          rw [cut]
          cases exit with
          | some exit =>
              have hfaulty : Faulty names before (.jump transfer) :=
                faulty_of_isShut rfl hexit.symm
              rw [reports_of_isShut rfl hexit.symm]
              simp [hfaulty, eq_comm]
          | none =>
              have hopen : isShut before = false := hexit.symm
              have htail := @ih (before ++ [.jump transfer]) done
                (some (.jump (transfer.map names.idxOf))) hlabels (by rw [isShut_jump]; rfl)
              simp only [List.append_assoc, List.singleton_append, blockAt_jump] at htail
              rw [← htail, reports_of_open hopen, faulty_iff_of_open hopen, if_neg (by simp),
                except_bind_eq_error_iff, transfer_resolve_eq_error_iff]
              simp [transfer_resolve_eq_ok_iff, Statement.targets]

end Errors

/-! ## Blocks as stretches -/

/-- The stretches that labels divide statements into: what comes before the first label, then what
comes behind each label up to the next. -/
def stretches (statements : List Statement) : List (List Statement) :=
  statements.splitOnP fun s => !s.isInstruction

/-- How control leaves a stretch: by the transfer that ends it, otherwise for the block that comes
next, if there is one. -/
def exitOf (names : List Label) (next? : Option BlockId) (stretch : List Statement) : Exit :=
  match stretch.getLast?.bind Statement.transfer?, next? with
  | some transfer, _ => .jump (transfer.map names.idxOf)
  | none, some id => .jump (.direct id)
  | none, none => .halt

/-- A program has the blocks of some statements. -/
structure LaidOut (statements : List Statement) (p : Program) : Prop where
  entry : p.entry = 0
  /-- One block comes before the labels, and one for each label in order. -/
  names : p.blocks.toList.map Block.name = blockNames statements
  /-- A block has the operations of its stretch and no others, with labels replaced by numbers.  It
  ends as its stretch does, runs into the next block, or halts if it is the last. -/
  blocks : ∀ (i : Nat) b, p.block? i = some b → ∃ stretch,
    (stretches statements)[i]? = some stretch ∧
      b.operations =
        (stretch.filterMap Statement.operation?).map (·.map (blockNames statements).idxOf) ∧
      b.exit = exitOf (blockNames statements)
        (if i + 1 < p.blocks.size then some (i + 1) else none) stretch
  /-- The number of a label is that of the block of its name. -/
  numbers : ∀ l ∈ blockNames statements,
    ∃ b, p.block? ((blockNames statements).idxOf l) = some b ∧ b.name = l
  /-- All numbers are those of blocks. -/
  inRange : ∀ b ∈ p.blocks, ∀ id ∈ b.targets, id < p.blocks.size

section Stretches

variable {statements rest : List Statement} {p : Program}

theorem head?_stretches (statements : List Statement) :
    (stretches statements).head? = some (statements.takeWhile Statement.isInstruction) := by
  unfold stretches
  induction statements with
  | nil => rfl
  | cons s rest ih =>
      rw [List.splitOnP_cons_eq_if_modifyHead, List.takeWhile_cons]
      cases hs : s.isInstruction with
      | true => simp [ih]
      | false => simp

theorem length_stretches (statements : List Statement) :
    (stretches statements).length = (labels statements).length + 1 := by
  unfold stretches
  induction statements with
  | nil => rfl
  | cons s rest ih =>
      rw [List.splitOnP_cons_eq_if_modifyHead]
      cases s with
      | label name => exact congrArg (· + 1) ih
      | perform operation => exact List.length_modifyHead.trans ih
      | jump transfer => exact List.length_modifyHead.trans ih

/-- The stretch of a block, found by the labels that are left behind it. -/
theorem Opens.stretch (h : Opens statements rest) {i : Nat}
    (hi : i + (labels rest).length = (labels statements).length) :
    (stretches statements)[i]? = some (rest.takeWhile Statement.isInstruction) := by
  rcases h with rfl | ⟨pre, name, rfl⟩
  · have hzero : i = 0 := by omega
    rw [hzero, ← List.head?_eq_getElem?, head?_stretches]
  · have hsplit : stretches (pre ++ .label name :: rest) = stretches pre ++ stretches rest :=
      List.splitOnP_append_cons pre rest rfl
    have hindex : i = (stretches pre).length := by
      rw [length_stretches]
      simp only [labels_append, labels, List.length_append, List.length_cons] at hi
      omega
    rw [hsplit, hindex, List.getElem?_append_right (Nat.le_refl _), Nat.sub_self,
      ← List.head?_eq_getElem?, head?_stretches]

/-- What is left of a block is what is left of its stretch. -/
theorem remainder_eq (names : List Label) (h : Connected false rest) :
    (remainder names rest).1 =
        ((rest.takeWhile Statement.isInstruction).filterMap Statement.operation?).map
          (·.map names.idxOf) ∧
      (remainder names rest).2 = exitOf names ((labels rest).head?.map names.idxOf)
        (rest.takeWhile Statement.isInstruction) := by
  induction rest with
  | nil => exact ⟨rfl, rfl⟩
  | cons s rest ih =>
      cases s with
      | label next => exact ⟨rfl, rfl⟩
      | perform operation =>
          obtain ⟨hoperations, hexit⟩ := ih h.2
          have htake : (Statement.perform operation :: rest).takeWhile Statement.isInstruction =
              .perform operation :: rest.takeWhile Statement.isInstruction := rfl
          rw [htake, remainder, hoperations, hexit]
          refine ⟨rfl, ?_⟩
          -- An operation does not end a stretch, neither before others nor as the last.
          cases rest.takeWhile Statement.isInstruction <;> rfl
      | jump transfer =>
          have htake : (Statement.jump transfer :: rest).takeWhile Statement.isInstruction =
              [.jump transfer] := by
            cases rest with
            | nil => rfl
            | cons next rest =>
                cases next with
                | label name => rfl
                | perform operation => exact Bool.noConfusion h.2.1
                | jump other => exact Bool.noConfusion h.2.1
          rw [htake]
          exact ⟨rfl, rfl⟩

/-- The label that comes next begins the next block. -/
theorem next_eq (hnodup : (blockNames statements).Nodup) (hopens : Opens statements rest) {i : Nat}
    (hi : i + (labels rest).length = (labels statements).length) :
    (labels rest).head?.map (blockNames statements).idxOf =
      if i + 1 < (blockNames statements).length then some (i + 1) else none := by
  obtain ⟨pre, hpre⟩ := hopens.suffix
  have hnames : blockNames statements = blockNames pre ++ labels rest := by
    rw [blockNames, ← hpre, labels_append]
    rfl
  have hlength : (blockNames pre).length = i + 1 := by
    rw [← hpre, labels_append, List.length_append] at hi
    simp only [blockNames, List.length_cons]
    omega
  cases hlabels : labels rest with
  | nil =>
      rw [hnames, hlabels, List.append_nil, hlength, if_neg (Nat.lt_irrefl _)]
      rfl
  | cons next more =>
      rw [hlabels] at hnames
      have hlt : i + 1 < (blockNames statements).length := by
        rw [hnames, List.length_append, hlength, List.length_cons]
        omega
      have hnext : (blockNames statements)[i + 1] = next := by
        simp only [hnames, ← hlength]
        simp
      have hindex := hnodup.idxOf_getElem (i + 1) hlt
      rw [hnext] at hindex
      rw [if_pos hlt, List.head?_cons, Option.map_some, hindex]

theorem laidOut_of_assemble (h : assemble statements = .ok p) : LaidOut statements p := by
  obtain ⟨hnodup, -, hconnected, hp⟩ := assemble_eq_ok_iff.mp h
  have hsize : p.blocks.size = (blockNames statements).length := size_assemble h
  have hlength : (blockNames statements).length = (labels statements).length + 1 := rfl
  refine ⟨by rw [hp], map_name_assemble h, ?_, ?_, ?_⟩
  · intro i b hb
    obtain ⟨name, rest, hopens, hcount, hblock⟩ := block?_assemble h hb
    have hcount : i + (labels rest).length = (labels statements).length := by omega
    obtain ⟨hoperations, hexit⟩ :=
      remainder_eq (blockNames statements) (hopens.connected hconnected)
    refine ⟨_, hopens.stretch hcount, ?_, ?_⟩
    · rw [hblock, ← hoperations]
      rfl
    · rw [hsize, ← next_eq hnodup hopens hcount, ← hexit, hblock]
      rfl
  · intro l hl
    have hindex := List.idxOf_lt_length_of_mem hl
    have hname : (p.blocks.toList.map Block.name)[(blockNames statements).idxOf l]? = some l := by
      rw [map_name_assemble h, List.getElem?_eq_getElem hindex, List.getElem_idxOf hindex]
    rw [List.getElem?_map, Option.map_eq_some_iff] at hname
    obtain ⟨b, hb, hname⟩ := hname
    refine ⟨b, ?_, hname⟩
    rw [block?, ← Array.getElem?_toList]
    exact hb
  · exact targets_lt_size h

/-- Statements lay out one program at most. -/
theorem LaidOut.unique {q : Program} (h : LaidOut statements p) (h' : LaidOut statements q) :
    p = q := by
  have hnames : p.blocks.toList.map Block.name = q.blocks.toList.map Block.name :=
    h.names.trans h'.names.symm
  have hsize : p.blocks.size = q.blocks.size := by simpa using congrArg List.length hnames
  have hblocks : p.blocks = q.blocks := by
    refine Array.ext hsize fun i hi hi' => ?_
    obtain ⟨stretch, hstretch, hoperations, hexit⟩ :=
      h.blocks i _ (Array.getElem?_eq_getElem hi)
    obtain ⟨stretch', hstretch', hoperations', hexit'⟩ :=
      h'.blocks i _ (Array.getElem?_eq_getElem hi')
    obtain rfl := Option.some.inj (hstretch.symm.trans hstretch')
    have hname : p.blocks[i].name = q.blocks[i].name := by
      have hsame := congrArg (·[i]?) hnames
      simpa [hi, hi'] using hsame
    rw [hsize, ← hexit'] at hexit
    rw [← hoperations'] at hoperations
    exact Block.ext hname hoperations hexit
  have hentry := h.entry.trans h'.entry.symm
  cases p
  cases q
  simp only at hblocks hentry
  rw [hblocks, hentry]

end Stretches

/-! ## The result of assembling -/

/-- What assembling some statements is to result in. -/
inductive Outcome (statements : List Statement) : Except AssemblyError Program → Prop
  /-- A label whose name some block before it has, the first of these. -/
  | duplicate {before : List Statement} {name : Label}
      (first : FirstAt Repeats statements before (.label name)) :
      Outcome statements (.error (.duplicateLabel name))
  /-- All names are distinct, and control cannot get to the first faulty instruction. -/
  | unreachable {before : List Statement} {s : Statement} (distinct : Nowhere Repeats statements)
      (first : FirstAt (Faulty (blockNames statements)) statements before s)
      (shut : isShut before = true) :
      Outcome statements (.error (.unreachable (blockAt before) s))
  /-- All names are distinct, and the first faulty instruction mentions a label that is none. -/
  | undefined {before : List Statement} {s : Statement} {l : Label}
      (distinct : Nowhere Repeats statements)
      (first : FirstAt (Faulty (blockNames statements)) statements before s)
      (reached : isShut before = false) (mentions : l ∈ s.targets)
      (unknown : l ∉ blockNames statements) :
      Outcome statements (.error (.undefinedLabel l))
  /-- Nothing is wrong anywhere. -/
  | program {p : Program} (distinct : Nowhere Repeats statements)
      (sound : Nowhere (Faulty (blockNames statements)) statements)
      (laidOut : LaidOut statements p) : Outcome statements (.ok p)

section Results

variable {statements : List Statement}

theorem assemble_of_repeats {before : List Statement} {name : Label}
    (h : FirstAt Repeats statements before (.label name)) :
    assemble statements = .error (.duplicateLabel name) := by
  have hduplicate := firstDuplicate?_entry_iff.mpr ⟨before, h⟩
  rw [assemble, hduplicate]

/-- Where names are distinct, assembling fails as the first faulty instruction is reported. -/
theorem assemble_eq_error_iff (hdistinct : Nowhere Repeats statements) {e : AssemblyError} :
    assemble statements = .error e ↔
      ∃ before s, FirstAt (Faulty (blockNames statements)) statements before s ∧
        Reports (blockNames statements) before s e := by
  have hcut := @cut_eq_error_iff (blockNames statements) e statements [] [] none
    (fun l hl => List.mem_cons_of_mem _ hl) rfl
  have hnone := nowhere_repeats_iff.mp hdistinct
  simp only [List.nil_append] at hcut
  rw [← hcut, assemble, hnone]
  show (cut (blockNames statements) entryName [] none statements >>= _) = _ ↔ _
  rw [except_bind_eq_error_iff]
  simp [pure, Except.pure, blockAt, labels]

/-- Assembling results in what the first place where something is wrong says: a label whose name is
taken if there is one, otherwise an instruction, and otherwise the program of the stretches. -/
theorem assemble_iff_outcome (result : Except AssemblyError Program) :
    assemble statements = result ↔ Outcome statements result := by
  constructor
  · rintro rfl
    cases hduplicate : firstDuplicate? [entryName] (labels statements) with
    | some name =>
        obtain ⟨before, hfirst⟩ := firstDuplicate?_entry_iff.mp hduplicate
        rw [assemble_of_repeats hfirst]
        exact .duplicate hfirst
    | none =>
        have hdistinct := nowhere_repeats_iff.mpr hduplicate
        cases hresult : assemble statements with
        | error e =>
            obtain ⟨before, s, hfirst, hreports⟩ := (assemble_eq_error_iff hdistinct).mp hresult
            rcases hreports with ⟨hshut, rfl⟩ | ⟨hopen, l, hl, hunknown, rfl⟩
            · exact .unreachable hdistinct hfirst hshut
            · exact .undefined hdistinct hfirst hopen hl hunknown
        | ok p =>
            refine .program hdistinct ?_ (laidOut_of_assemble hresult)
            rw [nowhere_iff]
            intro before s hfirst
            obtain ⟨e, hreports⟩ := exists_reports hfirst.wrong
            have herror := (assemble_eq_error_iff hdistinct).mpr ⟨before, s, hfirst, hreports⟩
            rw [hresult] at herror
            cases herror
  · intro h
    cases h with
    | duplicate first => exact assemble_of_repeats first
    | unreachable distinct first shut =>
        exact (assemble_eq_error_iff distinct).mpr ⟨_, _, first, Or.inl ⟨shut, rfl⟩⟩
    | undefined distinct first reached mentions unknown =>
        exact (assemble_eq_error_iff distinct).mpr
          ⟨_, _, first, Or.inr ⟨reached, _, mentions, unknown, rfl⟩⟩
    | program distinct sound laidOut =>
        cases hresult : assemble statements with
        | error e =>
            obtain ⟨before, s, hfirst, -⟩ := (assemble_eq_error_iff distinct).mp hresult
            exact absurd hfirst (nowhere_iff.mp sound before s)
        | ok p => rw [laidOut.unique (laidOut_of_assemble hresult)]

end Results

end Program
end SchemeMachine
