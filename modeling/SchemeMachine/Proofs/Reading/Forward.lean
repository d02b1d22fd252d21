import SchemeMachine.Proofs.Reading.Slices

/-!
# Forward through the text

The reader only ever goes forward in its text, and takes back no identity number.  This holds for
steps that fail as well, so that wherever a reader of a text has got to, whatever it met on its way,
it stands at the end of some first part of the text and knows its position there.
-/

namespace SchemeMachine

open Text

namespace Datum

/-- Making the pairs of a list takes back no number. -/
theorem le_chain (items : List Datum) (tail : Datum) (last : Nat) :
    last ≤ (chain items tail last).2 := by
  induction items with
  | nil => exact Nat.le_refl last
  | cons item items ih => exact Nat.le_succ_of_le ih

theorem le_properList (items : List Datum) (last : Nat) : last ≤ (properList items last).2 :=
  Nat.le_of_succ_le (le_chain items _ (last + 1))

end Datum

namespace Reader

open Datum

/-! ## Readers that have gone on -/

/-- The second reader has gone on from where the first one stands. -/
def Onward (r r' : Reader) : Prop :=
  ∃ text, Passes text r r'

section Onward

variable {r r₁ r' : Reader} {c : Char} {rest : List Char}

theorem Onward.refl (r : Reader) : r.Onward r :=
  ⟨[], .refl r⟩

theorem Onward.trans (h₁ : r.Onward r₁) (h₂ : r₁.Onward r') : r.Onward r' := by
  obtain ⟨xs, hxs⟩ := h₁
  obtain ⟨ys, hys⟩ := h₂
  exact ⟨xs ++ ys, hxs.trans hys⟩

theorem onward_passed (r : Reader) : r.Onward r.passed := by
  cases hr : r.cursor.rest with
  | nil =>
      have hstays : r.passed = r := by simp only [passed, Cursor.advance, hr]
      rw [hstays]
      exact .refl r
  | cons c rest => exact ⟨[c], passes_passed hr⟩

theorem onward_skipped (r : Reader) : r.Onward r.skipped :=
  passes_skipped r

theorem Yields.onward {room : Nat} {task : Task} {d : Datum} (h : Yields room task r d r') :
    r.Onward r' := by
  obtain ⟨text, hpasses, -⟩ := h.elsewhere
  exact ⟨text, hpasses⟩

end Onward

/-- The second reader is the first one later on: it has gone on, and has taken back no number. -/
structure Later (r r' : Reader) : Prop where
  onward : r.Onward r'
  numbers : r.lastId ≤ r'.lastId

theorem Later.refl (r : Reader) : r.Later r :=
  ⟨.refl r, Nat.le_refl _⟩

theorem Later.trans {r r₁ r' : Reader} (h₁ : r.Later r₁) (h₂ : r₁.Later r') : r.Later r' :=
  ⟨h₁.onward.trans h₂.onward, Nat.le_trans h₁.numbers h₂.numbers⟩

/-! ## Steps -/

/-- A step that only goes forward, whether it succeeds or fails. -/
structure Forward {α : Type} (x : Read α) : Prop where
  ok : ∀ {r r' : Reader} {a : α}, x r = .ok a r' → r.Later r'
  error : ∀ {r r' : Reader} {e : SyntaxError}, x r = .error e r' → r.Later r'

namespace Forward

variable {α β : Type}

theorem of_ok {x : Read α} (a : Reader → α) (next : Reader → Reader)
    (h : ∀ r, x r = .ok (a r) (next r)) (hnext : ∀ r : Reader, r.Later (next r)) : Forward x := by
  refine ⟨fun {r r' b} hx => ?_, fun {r r' e} hx => ?_⟩
  · rw [h] at hx
    cases hx
    exact hnext r
  · rw [h] at hx
    cases hx

theorem pure (a : α) : Forward (Pure.pure a : Read α) :=
  of_ok (fun _ => a) id (fun _ => rfl) .refl

theorem throw (e : SyntaxError) : Forward (MonadExcept.throw e : Read α) := by
  refine ⟨fun h => ?_, fun h => ?_⟩
  · cases h
  · cases h
    exact .refl _

/-- What would come after a failure does not matter. -/
theorem throw_bind (e : SyntaxError) (f : α → Read β) :
    Forward ((MonadExcept.throw e : Read α) >>= f) := by
  refine ⟨fun h => ?_, fun h => ?_⟩
  · cases h
  · cases h
    exact .refl _

theorem bind {x : Read α} {f : α → Read β} (hx : Forward x) (hf : ∀ a, Forward (f a)) :
    Forward (x >>= f) := by
  refine ⟨fun {r r' b} h => ?_, fun {r r' e} h => ?_⟩
  · obtain ⟨a, r₁, hx₁, hf₁⟩ := bind_eq_ok h
    exact (hx.ok hx₁).trans ((hf a).ok hf₁)
  · change EStateM.bind x f r = .error e r' at h
    rw [EStateM.bind] at h
    cases hx₁ : x r with
    | ok a r₁ =>
        rw [hx₁] at h
        exact (hx.ok hx₁).trans ((hf a).error h)
    | error e₁ r₁ =>
        rw [hx₁] at h
        cases h
        exact hx.error hx₁

theorem ite {x y : Read α} {p : Prop} [Decidable p] (hx : Forward x) (hy : Forward y) :
    Forward (if p then x else y) := by
  split
  · exact hx
  · exact hy

theorem get : Forward (MonadState.get : Read Reader) :=
  of_ok id id (fun _ => rfl) .refl

theorem here : Forward Reader.here :=
  of_ok (·.cursor.position) id (fun _ => rfl) .refl

theorem peek : Forward Reader.peek :=
  of_ok (·.cursor.rest.head?) id (fun _ => rfl) .refl

theorem peekSecond : Forward Reader.peekSecond :=
  of_ok (·.cursor.rest.tail.head?) id (fun _ => rfl) .refl

theorem advance : Forward Reader.advance :=
  of_ok (fun _ => ()) passed (fun _ => rfl) fun r => ⟨onward_passed r, Nat.le_refl _⟩

theorem skipAtmosphere : Forward Reader.skipAtmosphere :=
  of_ok (fun _ => ()) skipped (fun _ => rfl) fun r => ⟨onward_skipped r, Nat.le_refl _⟩

theorem takeToken : Forward Reader.takeToken :=
  of_ok token pastToken (fun _ => rfl) fun r => ⟨⟨r.token, passes_pastToken r⟩, Nat.le_refl _⟩

theorem finish (start : Position) (make : Mark → Datum) : Forward (Reader.finish start make) :=
  of_ok (fun r => make (r.markFrom start)) counted (fun _ => rfl)
    fun r => ⟨⟨[], rfl, rfl⟩, Nat.le_succ r.lastId⟩

theorem finishList (start : Position) {build : Nat → Datum × Nat}
    (hbuild : ∀ last, last ≤ (build last).2) : Forward (Reader.finishList start build) :=
  of_ok (fun r => (r.listed start build).1) (fun r => (r.listed start build).2) (fun _ => rfl)
    fun r => ⟨⟨[], rfl, rfl⟩, hbuild r.lastId⟩

theorem readNumber (start : Position) : Forward (Reader.readNumber start) := by
  refine takeToken.bind fun token => ite (throw_bind _ _) ?_
  split
  · exact finish start _
  · exact throw _

theorem readSymbol (start : Position) : Forward (Reader.readSymbol start) :=
  takeToken.bind fun _ => finish start _

/-- A string literal is passed up to its closing quote, or to the end of the text. -/
theorem stringFrom_passes (text : List Char) (p : Position) :
    ∃ inner, text = inner ++ (Cursor.stringFrom text p).2.rest ∧
      (Cursor.stringFrom text p).2.position = p.afterAll inner := by
  induction text, p using Cursor.stringFrom.induct with
  | case1 p => exact ⟨[], rfl, rfl⟩
  | case2 p => exact ⟨['\\'], rfl, rfl⟩
  | case3 c rest p body stop hrest ih =>
      obtain ⟨inner, htext, hposition⟩ := ih
      rw [Cursor.stringFrom]
      exact ⟨'\\' :: c :: inner, congrArg ('\\' :: c :: ·) htext, hposition⟩
  | case4 rest p _ _ =>
      rw [stringFrom_plain (by decide), if_pos rfl]
      exact ⟨['"'], rfl, rfl⟩
  | case5 c rest p hlast hmore hquote body stop hrest ih =>
      have hc : c ≠ '\\' := by
        intro hc
        cases rest with
        | nil => exact hlast hc rfl
        | cons c' rest' => exact hmore c' rest' hc rfl
      obtain ⟨inner, htext, hposition⟩ := ih
      rw [stringFrom_plain hc, if_neg hquote]
      exact ⟨c :: inner, congrArg (c :: ·) htext, hposition⟩

theorem readString (start : Position) : Forward (Reader.readString start) := by
  refine ⟨fun {r r' d} h => ?_, fun {r r' e} h => ?_⟩
  · obtain ⟨body, stop, hstring, -, rfl⟩ := readString_eq_ok h
    obtain ⟨inner, hrest, hposition⟩ := stringFrom_passes r.cursor.rest r.cursor.position
    rw [hstring] at hrest hposition
    exact ⟨⟨inner, hrest, hposition⟩, Nat.le_succ r.lastId⟩
  · obtain ⟨inner, hrest, hposition⟩ := stringFrom_passes r.cursor.rest r.cursor.position
    cases hstring : Cursor.stringFrom r.cursor.rest r.cursor.position with
    | mk body stop =>
        rw [hstring] at hrest hposition
        cases body with
        | none =>
            rw [readString_open hstring] at h
            cases h
            exact ⟨⟨inner, hrest, hposition⟩, Nat.le_refl r.lastId⟩
        | some body =>
            rw [readString_closed hstring] at h
            cases h

section Inner

variable {read : Read Datum} (hread : Forward read)
include hread

theorem readTail (start : Position) (items : List Datum) :
    Forward (Reader.readTail read start items) := by
  refine skipAtmosphere.bind fun _ => peek.bind fun next => ite (throw_bind _ _) ?_
  refine hread.bind fun tail => skipAtmosphere.bind fun _ => peek.bind fun next => ?_
  exact ite (here.bind fun place => throw_bind _ _)
    (advance.bind fun _ => finishList start (le_chain items.reverse tail))

theorem readListFrom (start : Position) (turns : Nat) (items : List Datum) :
    Forward (Reader.readListFrom read start turns items) := by
  induction turns generalizing items with
  | zero => exact throw _
  | succ turns ih =>
      refine skipAtmosphere.bind fun _ => peek.bind fun next => ?_
      split
      · exact throw _
      · exact advance.bind fun _ => ite (finish start _) (finishList start (le_properList _))
      · refine peekSecond.bind fun second => ite ?_ (hread.bind fun item => ih (item :: items))
        exact ite (here.bind fun place => throw_bind _ _)
          (advance.bind fun _ => hread.readTail start items)

theorem readVectorFrom (start : Position) (turns : Nat) (items : List Datum) :
    Forward (Reader.readVectorFrom read start turns items) := by
  induction turns generalizing items with
  | zero => exact throw _
  | succ turns ih =>
      refine skipAtmosphere.bind fun _ => peek.bind fun next => ?_
      split
      · exact throw _
      · exact advance.bind fun _ => finish start _
      · exact hread.bind fun item => ih (item :: items)

theorem readQuote (start : Position) : Forward (Reader.readQuote read start) := by
  refine skipAtmosphere.bind fun _ => peek.bind fun next => ite (throw_bind _ _) ?_
  exact hread.bind fun quoted =>
    finishList start fun last => Nat.le_of_succ_le (le_properList _ (last + 1))

end Inner

theorem nested {inner : Option (Read Datum)} (hinner : ∀ read, inner = some read → Forward read)
    (start : Position) {body : Read Datum → Position → Read Datum}
    (hbody : ∀ {read}, Forward read → Forward (body read start)) :
    Forward (Reader.nested inner start body) := by
  cases inner with
  | none => exact throw _
  | some read => exact hbody (hinner read rfl)

theorem readFormWith {inner : Option (Read Datum)}
    (hinner : ∀ read, inner = some read → Forward read) : Forward (Reader.readFormWith inner) := by
  have hlist : ∀ start, Forward (Reader.nested inner start readList) := fun start =>
    nested hinner start fun hread => get.bind fun r => hread.readListFrom start _ []
  have hvector : ∀ start, Forward (Reader.nested inner start readVector) := fun start =>
    nested hinner start fun hread => get.bind fun r => hread.readVectorFrom start _ []
  have hhash : ∀ start, Forward (Reader.readHash inner start) := by
    refine fun start => peek.bind fun next => ?_
    split
    · exact advance.bind fun _ => finish start _
    · exact advance.bind fun _ => finish start _
    · exact advance.bind fun _ => hvector start
    · exact throw _
    · exact throw _
  refine here.bind fun start => peek.bind fun next => ?_
  split
  · exact throw _
  · exact advance.bind fun _ => hlist start
  · exact throw _
  · exact advance.bind fun _ => nested hinner start fun hread => hread.readQuote start
  · exact advance.bind fun _ => readString start
  · exact advance.bind fun _ => hhash start
  · refine peekSecond.bind fun second => ite (advance.bind fun _ => finish start _) ?_
    exact ite (readNumber start) (readSymbol start)

theorem readForm (room : Nat) : Forward (Reader.readForm room) := by
  induction room with
  | zero => exact readFormWith fun read h => by cases h
  | succ room ih =>
      refine readFormWith fun read h => ?_
      cases h
      exact ih

theorem nextForm : Forward Reader.nextForm := by
  refine skipAtmosphere.bind fun _ => peek.bind fun next => ite (pure none) ?_
  exact (readForm maxNesting).bind fun d => pure (some d)

end Forward

/-! ## Readers of a text -/

/-- The readers that reading a text can lead to, asked for one datum after the other in any way and
also after errors. -/
inductive Reached (source : String) : Reader → Prop
  | start : Reached source (ofText source)
  | read {r r' : Reader} {form : Option Datum} (reached : Reached source r)
      (step : nextForm r = .ok form r') : Reached source r'
  | failed {r r' : Reader} {e : SyntaxError} (reached : Reached source r)
      (step : nextForm r = .error e r') : Reached source r'
  | iterated {r : Reader} (reached : Reached source r) : Reached source r.next?.2

theorem later_next? (r : Reader) : r.Later r.next?.2 := by
  rw [next?]
  split
  next => exact .refl r
  next =>
    split
    next hstep => exact Forward.nextForm.ok hstep
    next hstep => exact Forward.nextForm.ok hstep
    next hstep =>
      obtain ⟨⟨text, hpasses⟩, hnumbers⟩ := Forward.nextForm.error hstep
      exact ⟨⟨text, hpasses.rest, hpasses.position⟩, hnumbers⟩

/-- Every one of them has gone on from the start of the text. -/
theorem Reached.onward {source : String} {r : Reader} (h : Reached source r) :
    (ofText source).Onward r := by
  induction h with
  | start => exact .refl _
  | read _ step ih => exact ih.trans (Forward.nextForm.ok step).onward
  | failed _ step ih => exact ih.trans (Forward.nextForm.error step).onward
  | iterated _ ih => exact ih.trans (later_next? _).onward

/-- A datum of an iteration is the next datum. -/
theorem nextForm_of_next? {r : Reader} {d : Datum} (h : r.next?.1 = some (.ok d)) :
    nextForm r = .ok (some d) r.next?.2 := by
  rw [next?] at h ⊢
  split at h
  next => cases h
  next hfailed =>
    rw [if_neg hfailed]
    split at h
    next => cases h
    next hstep =>
      cases h
      rw [hstep]
    next => cases h

/-- A datum that some reader of the text returns. -/
def Returns (source : String) (d : Datum) : Prop :=
  ∃ r r', Reached source r ∧ nextForm r = .ok (some d) r'

theorem returns_of_mem_takeForms {source : String} {d : Datum} {turns : Nat} {r : Reader}
    (hr : Reached source r) (h : d ∈ (takeForms turns r).1) : Returns source d := by
  induction turns generalizing r with
  | zero => exact absurd h List.not_mem_nil
  | succ turns ih =>
      rw [takeForms] at h
      split at h
      next => exact absurd h List.not_mem_nil
      next => exact absurd h List.not_mem_nil
      next x r' hnext =>
        have hr' : r.next?.2 = r' := congrArg Prod.snd hnext
        rcases List.mem_cons.mp h with rfl | h
        · refine ⟨r, r', hr, ?_⟩
          rw [← hr']
          exact nextForm_of_next? (congrArg Prod.fst hnext)
        · exact ih (hr' ▸ hr.iterated) h

theorem returns_of_mem_readAll {source : String} {d : Datum} (h : d ∈ (readAll source).1) :
    Returns source d :=
  returns_of_mem_takeForms .start h

theorem nextForm_eq_some {r r' : Reader} {d : Datum} (h : nextForm r = .ok (some d) r') :
    Yields maxNesting .form r.skipped d r' := by
  rw [nextForm, skipAtmosphere_bind, peek_bind] at h
  split at h
  next => cases h
  next =>
    obtain ⟨x, r₁, hread, hx⟩ := bind_eq_ok h
    cases hx
    exact readForm_yields (skipped_stands r) hread

end Reader
end SchemeMachine
