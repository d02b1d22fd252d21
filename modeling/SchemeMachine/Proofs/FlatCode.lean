import SchemeMachine.Proofs.Likeness.Machine
import SchemeMachine.Proofs.Progress

/-!
# Symbolic code as a machine of its own

Symbolic code has a meaning without being cut into blocks.  Control is a position in the list of
statements.  Statements run in order and labels do nothing; a jump goes on just past the label that
it names, where the name `main` stands for the beginning; a label that is used as a value denotes
that position; and running off the end halts.  Values are as on the register machine, except that
they refer to code by positions.

The main statement is that assembling keeps this meaning: the program that statements make and the
statements themselves go through the same registers, save stacks and frames, step by step, where the
number of a block is matched with the position that the block begins at.
-/

namespace SchemeMachine

/-- Whether a statement is the marker of a label. -/
def Statement.marks (name : Label) : Statement → Bool
  | label other => other == name
  | _ => false

namespace Flat

/-- The position that a label denotes: just past its marker. -/
def place (statements : List Statement) (name : Label) : Nat :=
  if name = Program.entryName then 0 else statements.findIdx (·.marks name) + 1

/-- Where a machine stands that runs statements. -/
inductive Progress where
  | running (machine : Machine Nat) (position : Nat)
  | finished (machine : Machine Nat) (outcome : Except (RunError Nat) (Value Nat))

/-- Runs the statement at a position. -/
def advance (statements : List Statement) (position : Nat) (m : Machine Nat) : Progress :=
  match statements[position]? with
  | none => .finished m (.ok m.registers.val)
  | some (.label _) => .running m (position + 1)
  | some (.perform operation) =>
    match Machine.perform (place statements) operation m with
    | .error e m => .finished m (.error e)
    | .ok none m => .running m (position + 1)
    | .ok (some target) m => .running m (place statements target)
  | some (.jump (.direct target)) => .running m (place statements target)
  | some (.jump (.indirect r)) =>
    match m.registers.get r with
    | .label position => .running m position
    | other => .finished m (.error (.notALabel other))

/-- One step, which counts before it is taken. -/
def step (statements : List Statement) (position : Nat) (m : Machine Nat) : Progress :=
  match m.tick.exceeded? with
  | some limit => .finished m.tick (.error (.stepLimitExceeded limit))
  | none => advance statements position m.tick

/-- One step more, unless the run is finished. -/
def next (statements : List Statement) : Progress → Progress
  | .running m position => step statements position m
  | .finished m outcome => .finished m outcome

/-- Where a run stands `count` steps later. -/
def after (statements : List Statement) : Nat → Progress → Progress
  | 0, p => p
  | count + 1, p => after statements count (next statements p)

/-- The position at which a block begins. -/
def begins (statements : List Statement) (id : BlockId) : Option Nat :=
  (Program.blockNames statements)[id]?.map (place statements)

/-! ## Positions and blocks -/

theorem exists_marks {statements : List Statement} {name : Label}
    (h : name ∈ Program.labels statements) : ∃ s ∈ statements, s.marks name = true := by
  induction statements with
  | nil => simp [Program.labels] at h
  | cons s rest ih =>
      have hrest : name ∈ Program.labels rest →
          ∃ s' ∈ s :: rest, s'.marks name = true := by
        intro hmem
        obtain ⟨s', hs', hmarks⟩ := ih hmem
        exact ⟨s', List.mem_cons_of_mem _ hs', hmarks⟩
      cases s with
      | label other =>
          simp only [Program.labels, List.mem_cons] at h
          rcases h with rfl | h
          · exact ⟨_, List.mem_cons_self, by simp [Statement.marks]⟩
          · exact hrest h
      | perform operation => exact hrest h
      | jump transfer => exact hrest h

/-- Just before the position that a label denotes stands its marker. -/
theorem drop_place {statements : List Statement} {name : Label}
    (hname : name ≠ Program.entryName) (h : name ∈ Program.labels statements) :
    statements.drop (place statements name - 1) =
      .label name :: statements.drop (place statements name) := by
  obtain ⟨s, hs, hmarks⟩ := exists_marks h
  have hlt := List.findIdx_lt_length_of_exists ⟨s, hs, hmarks⟩
  have hmark : (statements[statements.findIdx (·.marks name)]).marks name = true :=
    List.findIdx_getElem
  rw [place, if_neg hname, Nat.add_sub_cancel, List.drop_eq_getElem_cons hlt]
  congr 1
  generalize statements[statements.findIdx (·.marks name)] = statement at hmark
  cases statement with
  | label other => rw [beq_iff_eq.mp hmark]
  | perform operation => cases hmark
  | jump transfer => cases hmark

theorem place_entry (statements : List Statement) : place statements Program.entryName = 0 :=
  if_pos rfl

theorem place_pos (statements : List Statement) {name : Label}
    (hname : name ≠ Program.entryName) : 0 < place statements name := by
  rw [place, if_neg hname]
  exact Nat.succ_pos _

theorem mem_labels_of_mem {statements : List Statement} {name : Label}
    (h : name ∈ Program.blockNames statements) (hname : name ≠ Program.entryName) :
    name ∈ Program.labels statements :=
  (List.mem_cons.mp h).resolve_left hname

/-- Different labels denote different positions. -/
theorem place_inj {statements : List Statement} {a b : Label}
    (ha : a ∈ Program.blockNames statements) (hb : b ∈ Program.blockNames statements)
    (h : place statements a = place statements b) : a = b := by
  by_cases hae : a = Program.entryName
  · by_cases hbe : b = Program.entryName
    · exact hae.trans hbe.symm
    · have hpos := place_pos statements hbe
      rw [hae, place_entry] at h
      omega
  · by_cases hbe : b = Program.entryName
    · have hpos := place_pos statements hae
      rw [hbe, place_entry] at h
      omega
    · have hadrop := drop_place hae (mem_labels_of_mem ha hae)
      rw [h, drop_place hbe (mem_labels_of_mem hb hbe)] at hadrop
      injection hadrop with hlabel
      exact (Statement.label.inj hlabel).symm

theorem begins_eq_some_iff {statements : List Statement} {id : BlockId} {position : Nat} :
    begins statements id = some position ↔
      ∃ name, (Program.blockNames statements)[id]? = some name ∧
        place statements name = position := by
  simp [begins]

end Flat

/-- Positions in the statements of a site, matched with the blocks that begin there. -/
def Site.places (site : Site) : Matching Nat CodeRef :=
  let own position ref := ref.load = site.code.load ∧ ref.program = site.code.program ∧
    Flat.begins site.statements ref.block = some position
  ⟨own, own, Eq⟩

namespace Site

variable (site : Site)

theorem nodup_blockNames : (Program.blockNames site.statements).Nodup :=
  (Program.assemble_eq_ok_iff.mp site.assembled).1

/-- A label is matched with its block. -/
theorem places_ref {name : Label} (h : name ∈ Program.blockNames site.statements) :
    site.places.place (Flat.place site.statements name) (site.code.ref (site.number name)) := by
  refine ⟨rfl, rfl, Flat.begins_eq_some_iff.mpr ⟨name, ?_, rfl⟩⟩
  exact List.getElem?_idxOf h

/-- Each position is matched with one block and each block with one position. -/
theorem places_exact : site.places.Exact := by
  refine ⟨⟨?_, fun _ _ _ h h' => h.trans h'.symm, fun _ _ _ h h' => h.symm.trans h'⟩, rfl,
    fun h => h⟩
  rintro p p' r r' ⟨hload, -, hr⟩ ⟨hload', -, hr'⟩
  obtain ⟨name, hname, hp⟩ := Flat.begins_eq_some_iff.mp hr
  obtain ⟨name', hname', hp'⟩ := Flat.begins_eq_some_iff.mp hr'
  have hiff : p = p' ↔ r.block = r'.block := by
    constructor
    · intro h
      have hnames := Flat.place_inj (List.mem_of_getElem? hname) (List.mem_of_getElem? hname')
        (hp.trans (h.trans hp'.symm))
      rw [hnames, ← hname'] at hname
      exact (List.getElem?_inj (List.getElem?_eq_some_iff.mp (hname.trans hname')).1
        site.nodup_blockNames).mp hname
    · intro h
      rw [h, hname'] at hname
      rw [← hp, ← hp', Option.some.inj hname]
  change (p == p') = (r.load == r'.load && r.block == r'.block)
  rw [hload, hload', beq_self_eq_true, Bool.true_and]
  exact decide_eq_decide.mpr hiff

/-- A block runs what stands from its position on. -/
theorem enter_begins {id : BlockId} {position : Nat}
    (h : Flat.begins site.statements id = some position) (m : Machine) :
    Machine.enter site.code id m =
      .running m (site.before (site.statements.drop position)) := by
  obtain ⟨name, hname, rfl⟩ := Flat.begins_eq_some_iff.mp h
  have hmem := List.mem_of_getElem? hname
  have hid : id = site.number name := by
    have hindex : (Program.blockNames site.statements)[site.number name]? = some name :=
      List.getElem?_idxOf hmem
    exact (List.getElem?_inj (List.getElem?_eq_some_iff.mp hname).1
      site.nodup_blockNames).mp (hname.trans hindex.symm)
  by_cases hentry : name = Program.entryName
  · have hzero : id = site.code.program.entry := by
      obtain ⟨-, -, -, hprogram⟩ := Program.assemble_eq_ok_iff.mp site.assembled
      rw [hid, hentry, hprogram]
      exact List.idxOf_cons_self
    rw [hzero, site.enter_entry, hentry, Flat.place_entry, List.drop_zero]
  · have hcovers : site.Covers (.label name ::
        site.statements.drop (Flat.place site.statements name)) := by
      rw [← Flat.drop_place hentry (Flat.mem_labels_of_mem hmem hentry)]
      exact List.drop_suffix _ _
    rw [hid, enter_label hcovers]

end Site

/-! ## Machines that hold positions instead of blocks -/

section Map

variable {C D : Type}

mutual

/-- The value with its references to code replaced. -/
def Value.map (f : C → D) : Value C → Value D
  | .unspecified => .unspecified
  | .empty => .empty
  | .boolean b => .boolean b
  | .number n => .number n
  | .string tag text => .string tag text
  | .symbol name => .symbol name
  | .pair tag a d => .pair tag (a.map f) (d.map f)
  | .vector tag items => .vector tag (Value.mapAll f items)
  | .primitive p => .primitive p
  | .closure tag entry env => .closure tag (f entry) env
  | .label code => .label (f code)
  | .environment frame => .environment frame

/-- The values with their references to code replaced. -/
def Value.mapAll (f : C → D) : List (Value C) → List (Value D)
  | [] => []
  | value :: rest => value.map f :: Value.mapAll f rest

end

mutual

/-- The references to code that a value holds. -/
def Value.refs : Value C → List C
  | .pair _ a d => a.refs ++ d.refs
  | .vector _ items => Value.refsAll items
  | .closure _ entry _ => [entry]
  | .label code => [code]
  | _ => []

/-- The references to code that some values hold. -/
def Value.refsAll : List (Value C) → List C
  | [] => []
  | value :: rest => value.refs ++ Value.refsAll rest

end

/-- The machine with the references to code in its registers, stack and frames replaced. -/
def Machine.map (f : C → D) (m : Machine C) : Machine D where
  maxSteps := m.maxSteps
  registers := ⟨m.registers.env.map f, m.registers.proc.map f, m.registers.val.map f,
    m.registers.argl.map f, m.registers.kontinue.map f, m.registers.flag.map f⟩
  stack := m.stack.map (·.map f)
  store := ⟨m.store.frames.map fun frame =>
    ⟨frame.bindings.map fun (name, value) => (name, value.map f), frame.parent⟩, m.store.nextTag⟩
  stats := m.stats

/-- The values that a machine holds in its registers, on its stack and in its frames. -/
def Machine.values (m : Machine C) : List (Value C) :=
  Register.all.map m.registers.get ++ m.stack.toList ++
    m.store.frames.toList.flatMap fun frame => frame.bindings.map (·.2)

variable {K : Matching D C} {f : C → D}

mutual

/-- Replacing every reference by one that matches it gives an alike value. -/
theorem Value.map_like (hframe : K.frame = Eq) :
    ∀ v : Value C, (∀ c ∈ v.refs, K.code (f c) c ∧ K.place (f c) c) → (v.map f).Like K Eq v
  | .unspecified, _ => by rw [Value.map]; exact .unspecified
  | .empty, _ => by rw [Value.map]; exact .empty
  | .boolean b, _ => by rw [Value.map]; exact .boolean b
  | .number n, _ => by rw [Value.map]; exact .number n
  | .string tag text, _ => by rw [Value.map]; exact .string text rfl
  | .symbol name, _ => by rw [Value.map]; exact .symbol name
  | .pair tag a d, h => by
      rw [Value.refs] at h
      rw [Value.map]
      exact .pair rfl (a.map_like hframe fun c hc => h c (List.mem_append_left _ hc))
        (d.map_like hframe fun c hc => h c (List.mem_append_right _ hc))
  | .vector tag items, h => by
      rw [Value.refs] at h
      rw [Value.map]
      exact .vector rfl (Value.mapAll_like hframe items h)
  | .primitive p, _ => by rw [Value.map]; exact .primitive p
  | .closure tag entry env, h => by
      rw [Value.refs] at h
      rw [Value.map]
      exact .closure env rfl (h entry (List.mem_singleton_self entry)).1
  | .label code, h => by
      rw [Value.refs] at h
      rw [Value.map]
      exact .label (h code (List.mem_singleton_self code)).2
  | .environment frame, _ => by
      rw [Value.map]
      refine .environment ?_
      rw [hframe]

theorem Value.mapAll_like (hframe : K.frame = Eq) :
    ∀ vs : List (Value C), (∀ c ∈ Value.refsAll vs, K.code (f c) c ∧ K.place (f c) c) →
      List.Forall₂ (Value.Like K Eq) (Value.mapAll f vs) vs
  | [], _ => by rw [Value.mapAll]; exact .nil
  | v :: vs, h => by
      rw [Value.refsAll] at h
      rw [Value.mapAll]
      exact .cons (v.map_like hframe fun c hc => h c (List.mem_append_left _ hc))
        (Value.mapAll_like hframe vs fun c hc => h c (List.mem_append_right _ hc))

end

theorem Machine.mem_values {m : Machine C} {v : Value C} :
    v ∈ m.values ↔ (∃ r, m.registers.get r = v) ∨ v ∈ m.stack.toList ∨
      ∃ frame ∈ m.store.frames.toList, ∃ name, (name, v) ∈ frame.bindings := by
  have hall : ∀ r : Register, r ∈ Register.all := by
    intro r
    cases r <;> decide
  simp [Machine.values, hall]

/-- Replacing every reference by one that matches it gives an alike machine. -/
theorem Machine.map_like (hframe : K.frame = Eq) {m : Machine C}
    (h : ∀ v ∈ m.values, ∀ c ∈ v.refs, K.code (f c) c ∧ K.place (f c) c) :
    (m.map f).Like K m := by
  have hvalue : ∀ v ∈ m.values, (v.map f).Like K Eq v :=
    fun v hv => v.map_like hframe (h v hv)
  refine ⟨rfl, ?_, ?_, ⟨?_, rfl⟩, rfl, rfl⟩
  · intro r
    have hget : (m.map f).registers.get r = (m.registers.get r).map f := by cases r <;> rfl
    rw [hget]
    exact hvalue _ (mem_values.mpr (Or.inl ⟨r, rfl⟩))
  · simp only [Machine.map, Array.toList_map, List.forall₂_map_left_iff, List.forall₂_same]
    intro v hv
    exact hvalue v (mem_values.mpr (Or.inr (Or.inl hv)))
  · intro i
    simp only [Machine.map, Array.getElem?_map]
    cases hi : m.store.frames[i]? with
    | none => exact .none
    | some frame =>
        refine .some ⟨?_, rfl⟩
        simp only [Bindings.Like, List.forall₂_map_left_iff, List.forall₂_same]
        rintro ⟨name, v⟩ hv
        refine ⟨trivial, hvalue v (mem_values.mpr (Or.inr (Or.inr ⟨frame, ?_, name, hv⟩)))⟩
        exact Array.mem_toList_iff.mpr (Array.mem_of_getElem? hi)

end Map

/-! ## Running alike -/

/-- The machine that runs statements and the machine that runs their program stand at the same place
with alike contents, or are finished with alike outcomes. -/
inductive Site.Agrees (site : Site) : Flat.Progress → Progress → Prop
  | running {m : Machine Nat} {m' : Machine} (position : Nat) (like : m.Like site.places m') :
      site.Agrees (.running m position)
        (.running m' (site.before (site.statements.drop position)))
  | finished {m : Machine Nat} {m' : Machine} {outcome : Except (RunError Nat) (Value Nat)}
      {outcome' : Except RunError Value} (like : m.Like site.places m')
      (same : ResultLike (RunError.Like site.places Eq) (Value.Like site.places Eq)
        outcome outcome') :
      site.Agrees (.finished m outcome) (.finished m' outcome')

namespace Site

variable (site : Site) {m : Machine Nat} {m' : Machine}

/-- Both machines go on alike at a block and at its position. -/
theorem agrees_enter {id : BlockId} {position : Nat}
    (h : Flat.begins site.statements id = some position) (hm : m.Like site.places m') :
    site.Agrees (.running m position) (Machine.enter site.code id m') := by
  rw [site.enter_begins h]
  exact .running position hm

theorem agrees_label {name : Label} (h : name ∈ Program.blockNames site.statements)
    (hm : m.Like site.places m') :
    site.Agrees (.running m (Flat.place site.statements name))
      (Machine.enter site.code (site.number name) m') :=
  site.agrees_enter (site.places_ref h).2.2 hm

/-- A jump through a register goes to matching places or is refused on both sides. -/
theorem agrees_indirect (r : Register) (hm : m.Like site.places m') :
    site.Agrees
      (match m.registers.get r with
        | .label position => .running m position
        | other => .finished m (.error (.notALabel other)))
      (Machine.leave site.code (.jump (.indirect r)) m') := by
  have hr := hm.registers r
  unfold Machine.leave
  simp only
  generalize m.registers.get r = v at hr ⊢
  generalize m'.registers.get r = w at hr ⊢
  cases hr with
  | @label position ref hplace =>
      obtain ⟨load, program, id⟩ := ref
      obtain ⟨rfl, rfl, hbegins⟩ := hplace
      refine site.agrees_enter hbegins ?_
      exact ⟨hm.maxSteps, hm.registers, hm.stack, hm.store, hm.steps, hm.maxStackDepth⟩
  | _ => exact .finished hm (.error (.notALabel (by constructor <;> assumption)))

theorem places_links {statement : Statement} (h : statement ∈ site.statements) :
    site.places.Links (Flat.place site.statements) site.code.ref site.number
      statement.targets := by
  obtain ⟨-, htargets, -, -⟩ := Program.assemble_eq_ok_iff.mp site.assembled
  exact ⟨fun l hl => site.places_ref (htargets statement h l hl),
    fun l hl => site.places_ref (htargets statement h l hl)⟩

/-- One statement is one operation or exit. -/
theorem agrees_advance (position : Nat) (hm : m.Like site.places m') :
    site.Agrees (Flat.advance site.statements position m)
      (Machine.advance (site.before (site.statements.drop position)) m') := by
  unfold Flat.advance
  cases hstatement : site.statements[position]? with
  | none =>
      have hdrop : site.statements.drop position = [] :=
        List.drop_eq_nil_of_le (List.getElem?_eq_none_iff.mp hstatement)
      rw [hdrop, before_end]
      exact .finished hm (.ok (hm.registers .val))
  | some statement =>
      obtain ⟨hlt, hget⟩ := List.getElem?_eq_some_iff.mp hstatement
      have hdrop : site.statements.drop position =
          statement :: site.statements.drop (position + 1) := by
        rw [List.drop_eq_getElem_cons hlt, hget]
      have hmem : statement ∈ site.statements := List.mem_of_getElem? hstatement
      obtain ⟨-, htargets, -, -⟩ := Program.assemble_eq_ok_iff.mp site.assembled
      rw [hdrop]
      cases statement with
      | label name =>
          -- A label does nothing in the statements, and the block before it jumps there.
          have hcovers : site.Covers (.label name :: site.statements.drop (position + 1)) := by
            rw [← hdrop]
            exact List.drop_suffix _ _
          rw [before_label]
          simp only [Machine.advance, Machine.leave, enter_label hcovers]
          exact .running (position + 1) hm
      | perform operation =>
          have hperform := Machine.perform_like site.places_exact (site.places_links hmem) hm
          simp only [before_perform, Machine.advance]
          generalize Machine.perform (Flat.place site.statements) operation m = x at hperform ⊢
          generalize Machine.perform site.code.ref (operation.map site.number) m' = y at hperform ⊢
          cases hperform with
          | error he hm => exact .finished hm (.error he)
          | @ok target _ _ _ htarget hm =>
              obtain ⟨rfl, hmentioned⟩ := htarget
              cases target with
              | none => exact .running (position + 1) hm
              | some target =>
                  exact site.agrees_label (htargets _ hmem target (hmentioned target rfl)) hm
      | jump transfer =>
          rw [before_jump]
          cases transfer with
          | direct target =>
              exact site.agrees_label
                (htargets _ hmem target (List.mem_singleton_self target)) hm
          | indirect r => exact site.agrees_indirect r hm

/-- One step keeps both machines together. -/
theorem Agrees.next {p : Flat.Progress} {q : Progress} (h : site.Agrees p q) :
    site.Agrees (Flat.next site.statements p) q.next := by
  cases h with
  | finished like same => exact .finished like same
  | @running m m' position like =>
      have htick : m.tick.Like site.places m'.tick :=
        ⟨like.maxSteps, like.registers, like.stack, like.store,
          congrArg (· + 1) like.steps, like.maxStackDepth⟩
      have hexceeded : m.tick.exceeded? = m'.tick.exceeded? := by
        unfold Machine.exceeded?
        rw [htick.maxSteps, htick.steps]
      simp only [Flat.next, Flat.step, Progress.next, Machine.step, hexceeded]
      cases m'.tick.exceeded? with
      | none => exact site.agrees_advance position htick
      | some limit => exact .finished htick (.error (.stepLimitExceeded limit))

theorem Agrees.after (count : Nat) {p : Flat.Progress} {q : Progress} (h : site.Agrees p q) :
    site.Agrees (Flat.after site.statements count p) (q.after count) := by
  induction count generalizing p q with
  | zero => exact h
  | succ count ih => exact ih h.next

end Site

/-- A machine that refers to no code but the blocks of one loaded program. -/
def Machine.Within (code : Loaded) (m : Machine) : Prop :=
  ∀ v ∈ m.values, ∀ ref ∈ v.refs,
    ref.load = code.load ∧ ref.program = code.program ∧ ref.block < code.program.blocks.size

/-- The position that a reference to a block stands for. -/
def Flat.positionOf (statements : List Statement) (ref : CodeRef) : Nat :=
  (Flat.begins statements ref.block).getD 0

theorem Program.length_laterBlocks (names : List Label) (statements : List Statement) :
    (laterBlocks names statements).length = (labels statements).length := by
  induction statements with
  | nil => rfl
  | cons statement rest ih => cases statement <;> simp [laterBlocks, labels, ih]

/-- Replacing blocks by positions gives an alike machine. -/
theorem Site.map_positionOf_like (site : Site) {m : Machine} (hm : m.Within site.code) :
    (m.map (Flat.positionOf site.statements)).Like site.places m := by
  have hown : ∀ v ∈ m.values, ∀ ref ∈ v.refs,
      site.places.place (Flat.positionOf site.statements ref) ref := by
    intro v hv ref href
    obtain ⟨hload, hprogram, hblock⟩ := hm v hv ref href
    obtain ⟨-, -, -, hblocks⟩ := Program.assemble_eq_ok_iff.mp site.assembled
    have hlt : ref.block < (Program.blockNames site.statements).length := by
      simpa [hblocks, Program.length_laterBlocks, Program.blockNames] using hblock
    refine ⟨hload, hprogram, ?_⟩
    simp only [Flat.positionOf, Flat.begins, List.getElem?_eq_getElem hlt, Option.map_some,
      Option.getD_some]
  exact Machine.map_like rfl fun v hv ref href => ⟨hown v hv ref href, hown v hv ref href⟩

/-- Statements and the program that they make begin alike. -/
theorem Site.agrees_start (site : Site) {m : Machine} (hm : m.Within site.code) :
    site.Agrees (.running (m.map (Flat.positionOf site.statements)) 0)
      (Machine.bounce (site.code.ref site.code.program.entry) m) := by
  have hlike := site.map_positionOf_like hm
  simp only [Machine.bounce, Loaded.ref, site.enter_entry]
  exact .running 0 ⟨hlike.maxSteps, hlike.registers, hlike.stack, hlike.store, hlike.steps,
    hlike.maxStackDepth⟩

/-- Assembling keeps the meaning of statements.  The program entered at its entry block and the
statements run from the beginning stand at the same place after every number of steps, with the same
registers, save stack and frames.  So one run ends if and only if the other does, and both end with
the same value or error. -/
theorem assembled_runs_as_statements {statements : List Statement} {p : Program}
    (h : Program.assemble statements = .ok p) (load : Tag) {m : Machine}
    (hm : m.Within ⟨load, p⟩) :
    let site : Site := ⟨⟨load, p⟩, statements, h⟩
    let flat := Flat.Progress.running (m.map (Flat.positionOf statements)) 0
    let blocks := Machine.bounce ⟨load, p, p.entry⟩ m
    (∀ count, site.Agrees (Flat.after statements count flat) (blocks.after count)) ∧
    (∀ fuel outcome m', Machine.runWithin fuel blocks = some (outcome, m') →
      ∃ w result, Flat.after statements fuel flat = .finished w result ∧
        w.Like site.places m' ∧
        ResultLike (RunError.Like site.places Eq) (Value.Like site.places Eq) result outcome) ∧
    ∀ fuel, Machine.runWithin fuel blocks = none →
      ∃ w position, Flat.after statements fuel flat = .running w position := by
  intro site flat blocks
  have hagrees : ∀ count, site.Agrees (Flat.after statements count flat) (blocks.after count) :=
    fun count => (site.agrees_start hm).after site count
  refine ⟨hagrees, ?_, ?_⟩
  · intro fuel outcome m' hrun
    have hfuel := hagrees fuel
    rw [Progress.runWithin_eq_some_iff.mp hrun] at hfuel
    cases hflat : Flat.after statements fuel flat with
    | running w position =>
        rw [hflat] at hfuel
        cases hfuel
    | finished w result =>
        rw [hflat] at hfuel
        cases hfuel with
        | finished like same => exact ⟨w, result, rfl, like, same⟩
  · intro fuel hrun
    have hfuel := hagrees fuel
    cases hflat : Flat.after statements fuel flat with
    | running w position => exact ⟨w, position, rfl⟩
    | finished w result =>
        rw [hflat] at hfuel
        generalize hblocks : blocks.after fuel = q at hfuel
        cases hfuel with
        | finished like same =>
            rw [Progress.runWithin_eq_some_iff.mpr hblocks] at hrun
            cases hrun

/-- A loop that is left through a register, on a machine that already points into it. -/
theorem assembled_loop_runs_as_statements :
    let statements : List Statement :=
      [.perform (.assign .kontinue (.label "done")), .label "again", .perform .testFalse,
        .perform (.branch "main"), .jump (.indirect .kontinue), .label "done",
        .perform (.assign .val (.makeClosure "again"))]
    ∃ p, ∃ h : Program.assemble statements = .ok p,
      let m : Machine :=
        ⟨none, { Registers.blank with argl := .label ⟨4, p, 2⟩ }, #[.closure 5 ⟨4, p, 1⟩ 0],
          ⟨#[], 6⟩, {}⟩
      m.Within ⟨4, p⟩ ∧
      ∀ count, Site.Agrees ⟨⟨4, p⟩, statements, h⟩
        (Flat.after statements count (.running (m.map (Flat.positionOf statements)) 0))
        ((Machine.bounce ⟨4, p, p.entry⟩ m).after count) := by
  intro statements
  have h : ∃ p, Program.assemble statements = .ok p ∧ p.blocks.size = 3 := by
    refine ⟨_, Program.assemble_eq_ok_iff.mpr ⟨by decide, by decide, ?_, rfl⟩, rfl⟩
    simp [statements, Program.Connected]
  obtain ⟨p, h, hsize⟩ := h
  have hm : Machine.Within ⟨4, p⟩ ⟨none, { Registers.blank with argl := .label ⟨4, p, 2⟩ },
      #[.closure 5 ⟨4, p, 1⟩ 0], ⟨#[], 6⟩, {}⟩ := by
    intro v hv ref href
    simp only [Machine.values, Register.all, Registers.blank, List.mem_append, List.mem_map,
      List.flatMap_nil, List.not_mem_nil, or_false] at hv
    rcases hv with ⟨r, -, rfl⟩ | hv
    · cases r <;> simp [Registers.get, Value.refs] at href
      simp [href, hsize]
    · rw [List.mem_singleton.mp hv] at href
      simp only [Value.refs, List.mem_singleton] at href
      simp [href, hsize]
  exact ⟨p, h, hm, (assembled_runs_as_statements h 4 hm).1⟩

end SchemeMachine
