import SchemeMachine.Program.Json
import SchemeMachine.Proofs.Json.Numerals
import SchemeMachine.Proofs.Reading.Layout

/-!
# Programs read back from JSON

The JSON text of a program reads back as the program, with all its names, numbers and marks, if the
reals in its constants are finite.  JSON has no numerals for the others.

Every part of a program has a JSON form that is read back by the reader beside it.  What is shown of
each part is that, together with its numbers having the texts of JSON numbers; the text of the whole
program then reads back because the texts of JSON values do.
-/

namespace SchemeMachine

/-! ## Values -/

namespace Json

/-- A JSON value that has numerals for its numbers and that is read as `x`. -/
structure Encodes {α : Type} (read : Json → Option α) (value : Json) (x : α) : Prop where
  numeric : value.Numeric
  reads : read value = some x

theorem numericItems_of_forall {items : List Json} (h : ∀ item ∈ items, item.Numeric) :
    NumericItems items := by
  induction items with
  | nil =>
      rw [NumericItems]
      trivial
  | cons item rest ih =>
      rw [NumericItems]
      rw [List.forall_mem_cons] at h
      exact ⟨h.1, ih h.2⟩

theorem numeric_string (text : String) : (string text).Numeric := by
  simp only [Numeric]

theorem numeric_tagged (tag : String) {value : Json} (h : value.Numeric) :
    (tagged tag value).Numeric := by
  simp only [tagged, Numeric, NumericMembers, and_true]
  exact h

/-- A case with one field is read back if its field is. -/
theorem Encodes.tagged {α β : Type} {read : Json → Option α} {readCase : Json → Option β}
    {tag : String} {value : Json} {x : α} (h : Encodes read value x) (make : α → β)
    (hcase : ∀ field, readCase (tagged tag field) = (read field).bind fun x => some (make x)) :
    Encodes readCase (tagged tag value) (make x) := by
  refine ⟨numeric_tagged tag h.numeric, ?_⟩
  rw [hcase, h.reads, Option.bind_some]

theorem encodes_nat (n : ℕ) : Encodes nat? (ofNat n) n := by
  refine ⟨?_, ?_⟩
  · rw [ofNat, Numeric]
    exact isNumeral_naturalText n
  · rw [ofNat, nat?, Decimal.naturalText, String.toList_ofList, Decimal.natural?_toDigits]

theorem encodes_string (text : String) : Encodes string? (string text) text :=
  ⟨numeric_string text, rfl⟩

theorem numeric_array {α : Type} {write : α → Json} {xs : List α}
    (h : ∀ x ∈ xs, (write x).Numeric) : (array (xs.map write)).Numeric := by
  rw [Numeric]
  refine numericItems_of_forall fun item hitem => ?_
  obtain ⟨x, hx, rfl⟩ := List.mem_map.mp hitem
  exact h x hx

theorem encodes_bool (b : Bool) : Encodes bool? (bool b) b := by
  refine ⟨?_, rfl⟩
  simp only [Numeric]

theorem encodes_array {α : Type} {read : Json → Option α} {write : α → Json} {xs : List α}
    (h : ∀ x ∈ xs, Encodes read (write x) x) :
    Encodes (arrayOf? read) (array (xs.map write)) xs := by
  refine ⟨numeric_array fun x hx => (h x hx).numeric, ?_⟩
  show (xs.map write).mapM read = some xs
  induction xs with
  | nil => rfl
  | cons x xs ih =>
      -- Each element is read by itself, and the first that fails would make the whole fail.
      rw [List.forall_mem_cons] at h
      rw [List.map_cons, List.mapM_cons, h.1.reads, ih h.2]
      rfl

end Json

/-! ## Numbers and literals -/

namespace Literal

/-- The real that a literal is, if it is one. -/
def reals : Literal → List Float
  | number (.real x) => [x]
  | _ => []

open Json

theorem encodes_int (n : Int64) : Encodes Number.ofJson? (Number.int n).toJson (.int n) := by
  have hfits : Number.int64? n.toInt = some n := (Number.int64?_eq_some_iff _ _).mpr rfl
  refine ⟨numeric_tagged _ ?_, ?_⟩
  · rw [Numeric]
    exact isNumeral_integerText n.toInt
  · simp only [Number.toJson, Number.ofJson?, tagged, case?, Option.bind_eq_bind, Option.bind_some,
      Decimal.integer?_integerText, hfits]
    rfl

theorem encodes_real {x : Float} (h : x.isFinite = true) :
    Encodes Number.ofJson? (Number.real x).toJson (.real x) := by
  refine ⟨numeric_tagged _ ?_, ?_⟩
  · rw [Numeric]
    exact isNumeral_render realLayout h
  · simp only [Number.toJson, Number.ofJson?, tagged, case?, Option.bind_eq_bind, Option.bind_some,
      realLayout.float?_render h]
    rfl

theorem encodes_number {n : Number} (h : ∀ x ∈ (number n).reals, x.isFinite = true) :
    Encodes Number.ofJson? n.toJson n := by
  cases n with
  | int n => exact encodes_int n
  | real x => exact encodes_real (h x List.mem_cons_self)

theorem encodes {l : Literal} (h : ∀ x ∈ l.reals, x.isFinite = true) :
    Encodes ofJson? l.toJson l := by
  cases l with
  | number n => exact (encodes_number h).tagged number fun _ => rfl
  | string text => exact (encodes_string text).tagged string fun _ => rfl
  | boolean b => exact (encodes_bool b).tagged boolean fun _ => rfl

end Literal

/-! ## Data -/

namespace Datum

open Json

theorem encodes_span (s : Span) : Encodes Span.ofJson? s.toJson s := by
  refine ⟨?_, ?_⟩
  · simp only [Span.toJson, Numeric, NumericMembers, and_true]
    exact ⟨(encodes_nat _).numeric, (encodes_nat _).numeric, (encodes_nat _).numeric,
      (encodes_nat _).numeric⟩
  · have hoffset : s.toJson.member? "offset" = some (.ofNat s.offset) := rfl
    have hline : s.toJson.member? "line" = some (.ofNat s.line) := rfl
    have hcolumn : s.toJson.member? "column" = some (.ofNat s.column) := rfl
    have hlength : s.toJson.member? "length" = some (.ofNat s.length) := rfl
    simp only [Span.ofJson?, hoffset, hline, hcolumn, hlength, Option.bind_some,
      (encodes_nat _).reads]
    rfl

theorem encodes_spanOrNull (span : Option Span) :
    Encodes Span.ofJsonOrNull? (Span.toJsonOrNull span) span := by
  cases span with
  | none =>
      refine ⟨?_, rfl⟩
      rw [Span.toJsonOrNull]
      simp only [Numeric]
  | some s =>
      refine ⟨(encodes_span s).numeric, ?_⟩
      show (Span.ofJson? s.toJson).map some = some (some s)
      rw [(encodes_span s).reads]
      rfl

theorem numeric_marked (m : Mark) {kind : Json} (h : kind.Numeric) :
    (markedJson m kind).Numeric := by
  simp only [markedJson, Numeric, NumericMembers, and_true]
  exact ⟨(encodes_nat _).numeric, (encodes_spanOrNull _).numeric, h⟩

theorem markOfJson?_marked (m : Mark) (kind : Json) : markOfJson? (markedJson m kind) = some m := by
  have hid : (markedJson m kind).member? "id" = some (.ofNat m.id) := rfl
  have hspan : (markedJson m kind).member? "span" = some (Span.toJsonOrNull m.span) := rfl
  simp only [markOfJson?, hid, hspan, Option.bind_eq_bind, Option.bind_some, (encodes_nat _).reads,
    (encodes_spanOrNull _).reads]
  rfl

/-! ### Depth -/

theorem depth_tagged (tag : String) (value : Json) :
    (tagged tag value).depth = value.depth + 1 := by
  simp only [tagged, depth, depthMembers]
  omega

theorem depth_kind_lt (m : Mark) (kind : Json) : kind.depth < (markedJson m kind).depth := by
  simp only [markedJson, depth, depthMembers]
  omega

theorem depth_le_depthItems {item : Json} {items : List Json} (h : item ∈ items) :
    item.depth ≤ depthItems items := by
  induction items with
  | nil => exact absurd h List.not_mem_nil
  | cons first rest ih =>
      rw [depthItems]
      rcases List.mem_cons.mp h with rfl | h
      · omega
      · have := ih h
        omega

theorem toJsonAll_eq_map (items : List Datum) : toJsonAll items = items.map toJson := by
  induction items with
  | nil => rw [toJsonAll, List.map_nil]
  | cons x xs ih => rw [toJsonAll, List.map_cons, ih]

/-- The JSON form of a datum reads back with any depth that is greater than its own. -/
def ReadsBack (d : Datum) : Prop :=
  ∀ n, d.toJson.depth < n → Encodes (ofJsonWithin? n) d.toJson d

theorem readsBack_of_kind {d : Datum} {m : Mark} {kind : Json}
    (hjson : d.toJson = markedJson m kind) (hnumeric : kind.Numeric)
    (hreads : ∀ n, kind.depth < n → ofJsonWithin? (n + 1) (markedJson m kind) = some d) :
    d.ReadsBack := by
  intro n hn
  rw [hjson] at hn ⊢
  have hkind := depth_kind_lt m kind
  obtain ⟨n, rfl⟩ := Nat.exists_eq_succ_of_ne_zero (Nat.ne_zero_of_lt hn)
  exact ⟨numeric_marked m hnumeric, hreads n (by omega)⟩

/-- A kind with one field is read back if its field is. -/
theorem readsBack_of_tagged {α : Type} {m : Mark} {tag : String} {value : Json} {x : α}
    (make : Mark → α → Datum) (read : ℕ → Json → Option α)
    (hjson : (make m x).toJson = markedJson m (tagged tag value))
    (hcase : ∀ n field, ofJsonWithin? (n + 1) (markedJson m (tagged tag field)) =
      (markOfJson? (markedJson m (tagged tag field))).bind fun m =>
        (read n field).bind fun x => some (make m x))
    (hvalue : ∀ n, value.depth < n → Encodes (read n) value x) : (make m x).ReadsBack := by
  have hnumeric := (hvalue _ (Nat.lt_succ_self _)).numeric
  refine readsBack_of_kind hjson (numeric_tagged tag hnumeric) fun n hn => ?_
  rw [depth_tagged] at hn
  rw [hcase, markOfJson?_marked, Option.bind_some, (hvalue n (by omega)).reads, Option.bind_some]

theorem readsBack_pair (m : Mark) {a d : Datum} (ha : a.ReadsBack) (hd : d.ReadsBack) :
    (pair m a d).ReadsBack := by
  refine readsBack_of_kind (by rw [toJson]) (numeric_tagged _ ?_) fun n hn => ?_
  · simp only [Numeric, NumericMembers, and_true]
    exact ⟨(ha _ (Nat.lt_succ_self _)).numeric, (hd _ (Nat.lt_succ_self _)).numeric⟩
  · -- The halves lie two brackets deep, so that the depth that is left suffices for both.
    simp only [depth_tagged, depth, depthMembers] at hn
    show ((markOfJson? _).bind fun m => (ofJsonWithin? n a.toJson).bind fun a =>
      (ofJsonWithin? n d.toJson).bind fun d => some (pair m a d)) = some (pair m a d)
    rw [markOfJson?_marked, (ha n (by omega)).reads, (hd n (by omega)).reads]
    rfl

theorem readsBack_empty (m : Mark) : (empty m).ReadsBack := by
  refine readsBack_of_kind (by rw [toJson]) (numeric_string _) fun n _ => ?_
  show ((markOfJson? _).bind fun m => some (empty m)) = some (empty m)
  rw [markOfJson?_marked, Option.bind_some]

theorem readsBack_symbol (m : Mark) (name : String) : (symbol m name).ReadsBack :=
  readsBack_of_tagged symbol (fun _ => string?) (by rw [toJson]) (fun _ _ => rfl)
    fun _ _ => encodes_string name

theorem readsBack_literal (m : Mark) {l : Literal} (h : ∀ x ∈ l.reals, x.isFinite = true) :
    (literal m l).ReadsBack :=
  readsBack_of_tagged literal (fun _ => Literal.ofJson?) (by rw [toJson]) (fun _ _ => rfl)
    fun _ _ => Literal.encodes h

theorem readsBack_vector (m : Mark) {items : List Datum} (h : ∀ d ∈ items, d.ReadsBack) :
    (vector m items).ReadsBack := by
  refine readsBack_of_tagged vector (fun n => arrayOf? (ofJsonWithin? n))
    (by rw [toJson, toJsonAll_eq_map]) (fun _ _ => rfl) fun n hn => ?_
  rw [depth] at hn
  refine encodes_array fun d hd => h d hd n ?_
  have hdepth := depth_le_depthItems (List.mem_map_of_mem hd (f := toJson))
  omega

theorem real?_of_mem_reals (m : Mark) {l : Literal} {x : Float} (h : x ∈ l.reals) :
    (literal m l).real? = some x := by
  cases l with
  | number n =>
      cases n with
      | int n => exact absurd h List.not_mem_nil
      | real y =>
          obtain rfl := List.mem_singleton.mp h
          rfl
  | string text => exact absurd h List.not_mem_nil
  | boolean b => exact absurd h List.not_mem_nil

/-- The reals in a datum. -/
def reals (d : Datum) : List Float :=
  d.preorder.filterMap real?

theorem mem_reals_of_mem_preorder {d s : Datum} {x : Float} (hs : s ∈ d.preorder)
    (h : s.real? = some x) : x ∈ d.reals :=
  List.mem_filterMap.mpr ⟨s, hs, h⟩

mutual

/-- The JSON form of a datum with finite reals reads back. -/
theorem readsBack : ∀ d : Datum,
    (∀ s ∈ d.preorder, ∀ x, s.real? = some x → x.isFinite = true) → d.ReadsBack
  | pair m a d, h => by
      obtain ⟨ha, hd⟩ := forall_preorder_pair h
      exact readsBack_pair m (readsBack a ha) (readsBack d hd)
  | empty m, _ => readsBack_empty m
  | symbol m name, _ => readsBack_symbol m name
  | literal m l, h =>
      readsBack_literal m fun x hx => h _ (mem_preorder_self _) x (real?_of_mem_reals m hx)
  | vector m items, h => readsBack_vector m (readsBackAll items (forall_preorder_vector h))

/-- The JSON form of each of a row of data with finite reals reads back. -/
theorem readsBackAll : ∀ items : List Datum,
    (∀ s ∈ preorderAll items, ∀ x, s.real? = some x → x.isFinite = true) →
      ∀ d ∈ items, d.ReadsBack
  | [], _ => fun _ hd => absurd hd List.not_mem_nil
  | x :: xs, h => by
      obtain ⟨hx, hxs⟩ := forall_preorderAll_cons h
      exact List.forall_mem_cons.mpr ⟨readsBack x hx, readsBackAll xs hxs⟩

end

theorem encodes {d : Datum} (h : ∀ x ∈ d.reals, x.isFinite = true) :
    Encodes ofJson? d.toJson d := by
  have hback := readsBack d (fun _ hs x hx => h x (mem_reals_of_mem_preorder hs hx)) _
    (Nat.lt_succ_self _)
  exact ⟨hback.numeric, hback.reads⟩

end Datum

/-! ## Instructions -/

open Json

/-- The reals in a constant. -/
def Constant.reals : Constant → List Float
  | literal l => l.reals
  | datum d => d.reals
  | _ => []

/-- The reals in an operand. -/
def Operand.reals : Operand BlockId → List Float
  | const c => c.reals
  | _ => []

/-- The reals in an operation. -/
def Operation.reals : Operation BlockId → List Float
  | assign _ source => source.reals
  | _ => []

/-- The reals in the constants of a program. -/
def Program.reals (p : Program) : List Float :=
  p.blocks.toList.flatMap fun b => b.operations.flatMap Operation.reals

theorem Constant.encodes {c : Constant} (h : ∀ x ∈ c.reals, x.isFinite = true) :
    Encodes ofJson? c.toJson c := by
  cases c with
  | empty => exact ⟨numeric_string _, rfl⟩
  | literal l => exact (Literal.encodes h).tagged literal fun _ => rfl
  | symbol name => exact (encodes_string name).tagged symbol fun _ => rfl
  | datum d => exact (Datum.encodes h).tagged datum fun _ => rfl

theorem Register.encodes (r : Register) : Encodes ofJson? r.toJson r := by
  refine ⟨numeric_string _, ?_⟩
  cases r <;> decide

theorem Operand.encodes {source : Operand BlockId} (h : ∀ x ∈ source.reals, x.isFinite = true) :
    Encodes ofJson? source.toJson source := by
  cases source with
  | const c => exact (Constant.encodes h).tagged const fun _ => rfl
  | register r => exact r.encodes.tagged register fun _ => rfl
  | label target => exact (encodes_nat target).tagged label fun _ => rfl
  | lookup name => exact (encodes_string name).tagged lookup fun _ => rfl
  | consArg => exact ⟨numeric_string _, rfl⟩
  | listArg => exact ⟨numeric_string _, rfl⟩
  | makeClosure entry => exact (encodes_nat entry).tagged makeClosure fun _ => rfl
  | closureEnv => exact ⟨numeric_string _, rfl⟩
  | closureEntry => exact ⟨numeric_string _, rfl⟩
  | extendEnv formals =>
      exact (encodes_array fun name _ => encodes_string name).tagged extendEnv fun _ => rfl
  | applyPrimitive => exact ⟨numeric_string _, rfl⟩

theorem Operation.encodes {op : Operation BlockId} (h : ∀ x ∈ op.reals, x.isFinite = true) :
    Encodes ofJson? op.toJson op := by
  cases op with
  | assign target source =>
      have htarget := target.encodes
      have hsource := Operand.encodes h
      refine ⟨numeric_tagged _ ?_, ?_⟩
      · simp only [Numeric, NumericMembers, and_true]
        exact ⟨htarget.numeric, hsource.numeric⟩
      · show ((Register.ofJson? target.toJson).bind fun r =>
          (Operand.ofJson? source.toJson).bind fun x => some (assign r x)) =
            some (assign target source)
        rw [htarget.reads, hsource.reads]
        rfl
  | save r => exact r.encodes.tagged save fun _ => rfl
  | restore r => exact r.encodes.tagged restore fun _ => rfl
  | define name => exact (encodes_string name).tagged define fun _ => rfl
  | set name => exact (encodes_string name).tagged set fun _ => rfl
  | testFalse => exact ⟨numeric_string _, rfl⟩
  | testPrimitive => exact ⟨numeric_string _, rfl⟩
  | branch target => exact (encodes_nat target).tagged branch fun _ => rfl

/-! ## Programs -/

theorem Exit.encodes (e : Exit) : Encodes ofJson? e.toJson e := by
  cases e with
  | jump transfer =>
      cases transfer with
      | direct target =>
          exact (encodes_nat target).tagged (fun target => jump (.direct target)) fun _ => rfl
      | indirect r => exact r.encodes.tagged (fun r => jump (.indirect r)) fun _ => rfl
  | halt => exact ⟨numeric_string _, rfl⟩

theorem Block.encodes {b : Block} (h : ∀ op ∈ b.operations, ∀ x ∈ op.reals, x.isFinite = true) :
    Encodes ofJson? b.toJson b := by
  have hoperations : Encodes (arrayOf? Operation.ofJson?)
      (array (b.operations.map Operation.toJson)) b.operations :=
    encodes_array fun op hop => Operation.encodes (h op hop)
  have hexit := b.exit.encodes
  refine ⟨?_, ?_⟩
  · rw [Block.toJson, Numeric]
    simp only [NumericMembers, and_true]
    exact ⟨numeric_string _, hoperations.numeric, hexit.numeric⟩
  · show ((arrayOf? Operation.ofJson? (array (b.operations.map Operation.toJson))).bind fun ops =>
      (Exit.ofJson? b.exit.toJson).bind fun e => some ⟨b.name, ops, e⟩) = some b
    rw [hoperations.reads, hexit.reads]
    rfl

namespace Program

theorem encodes {p : Program} (h : ∀ x ∈ p.reals, x.isFinite = true) :
    Encodes ofJson? p.toJson p := by
  have hblocks : Encodes (arrayOf? Block.ofJson?) (array (p.blocks.toList.map Block.toJson))
      p.blocks.toList := by
    refine encodes_array fun b hb => Block.encodes fun op hop x hx => h x ?_
    exact List.mem_flatMap.mpr ⟨b, hb, List.mem_flatMap.mpr ⟨op, hop, hx⟩⟩
  have hentry := encodes_nat p.entry
  refine ⟨?_, ?_⟩
  · rw [toJson, Numeric]
    simp only [NumericMembers, and_true]
    exact ⟨hblocks.numeric, hentry.numeric⟩
  · show ((arrayOf? Block.ofJson? (array (p.blocks.toList.map Block.toJson))).bind fun blocks =>
      (Json.ofNat p.entry).nat?.bind fun entry => some ⟨blocks.toArray, entry⟩) = some p
    rw [hblocks.reads, hentry.reads]
    rfl

theorem ofJsonText?_jsonText {p : Program} (h : ∀ x ∈ p.reals, x.isFinite = true) :
    ofJsonText? p.jsonText = some p := by
  have hp := encodes h
  rw [ofJsonText?, jsonText, parse?_pretty hp.numeric, Option.bind_some, hp.reads]

/-- The JSON text of a program with finite reals loses nothing: it reads back as the program, and no
other such program has it. -/
theorem jsonText_loses_nothing {p : Program} (h : ∀ x ∈ p.reals, x.isFinite = true) :
    ofJsonText? p.jsonText = some p ∧
      ∀ q : Program, (∀ x ∈ q.reals, x.isFinite = true) → q.jsonText = p.jsonText → q = p := by
  have hp := ofJsonText?_jsonText h
  refine ⟨hp, fun q hq htext => ?_⟩
  have hback : some q = some p := by
    calc some q = ofJsonText? q.jsonText := (ofJsonText?_jsonText hq).symm
      _ = ofJsonText? p.jsonText := by rw [htext]
      _ = some p := hp
  exact Option.some.inj hback

/-- A program that keeps a quoted pair, under a name that is escaped. -/
def quotedTenth : Program where
  blocks := #[
    ⟨"say \"hi\"\n\t\\", [
      .assign .val (.const (.datum (.pair ⟨7, some ⟨1, 1, 2, 9⟩⟩
        (.symbol ⟨8, none⟩ "\u0001é") (.literal ⟨9, some ⟨7, 1, 8, 3⟩⟩ (.number (.real 0.1)))))),
      .branch 1], .jump (.indirect .kontinue)⟩,
    ⟨"", [.assign .env (.extendEnv ["x", "y"]), .assign .kontinue (.label 0)], .halt⟩]
  entry := 1

theorem quotedTenth_loses_nothing :
    ofJsonText? quotedTenth.jsonText = some quotedTenth ∧ ∀ q : Program,
      (∀ x ∈ q.reals, x.isFinite = true) → q.jsonText = quotedTenth.jsonText → q = quotedTenth := by
  have hfinite : quotedTenth.reals.all Float.isFinite = true := by decide +kernel
  exact jsonText_loses_nothing (List.all_eq_true.mp hfinite)

end Program

end SchemeMachine
