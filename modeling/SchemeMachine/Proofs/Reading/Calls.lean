import SchemeMachine.Proofs.Reading.Brackets
import SchemeMachine.Proofs.Reading.Levels
import SchemeMachine.Proofs.Reading.Numbering
import SchemeMachine.Proofs.Reading.Reprinted

/-!
# A reader and its callers

A reader of a text can be asked for the next datum, or for the next one of an iteration, which is
over after its first error.  Here a reader is asked one after the other in any order, and goes on
after errors.  One call takes it further in its text, if anywhere, and a datum comes out of the
numbers and of the characters between the two readers; what is true of all calls then follows by
induction on them.
-/

namespace SchemeMachine

namespace Reader

open Datum

/-- What a reader can be asked. -/
inductive Call where
  /-- The next datum, also after an error. -/
  | nextForm
  /-- The next datum of an iteration. -/
  | next

/-- What a reader says to a call: a datum, an error, or nothing at the end. -/
abbrev Reply := Option (Except SyntaxError Datum)

/-- One call. -/
def ask (call : Call) (r : Reader) : Reply × Reader :=
  match call with
  | .nextForm =>
    match r.nextForm with
    | .ok d r => (d.map .ok, r)
    | .error e r => (some (.error e), r)
  | .next => r.next?

/-- A call with the readers before and after it. -/
structure Turn where
  before : Reader
  reply : Reply
  after : Reader

/-- The datum that a call has returned. -/
def Turn.form? (turn : Turn) : Option Datum :=
  turn.reply.bind Except.toOption

/-- One call after the other. -/
def turns (r : Reader) : List Call → List Turn
  | [] => []
  | call :: rest => ⟨r, (r.ask call).1, (r.ask call).2⟩ :: turns (r.ask call).2 rest

/-- The data that calls return, in order. -/
def forms (r : Reader) (calls : List Call) : List Datum :=
  (r.turns calls).filterMap Turn.form?

end Reader

namespace LevelReader

open Reader

/-- One call to a reader that counts its levels, with at most `depth` calls inside one another. -/
def ask (depth : Nat) (call : Call) (s : LevelReader) : Option (Reply × LevelReader) :=
  match call with
  | .nextForm => do
    match ← s.nextForm depth with
    | .ok d s => return (d.map .ok, s)
    | .error e s => return (some (.error e), s)
  | .next =>
    if s.reader.failed then some (none, s)
    else do
      match ← s.nextForm depth with
      | .ok d s => return (d.map .ok, s)
      | .error e s =>
        return (some (.error e), { s with reader := { s.reader with failed := true } })

/-- One call after the other: each reply with the reader after it, if all calls end. -/
def answers (depth : Nat) (s : LevelReader) : List Call → Option (List (Reply × LevelReader))
  | [] => some []
  | call :: rest => do
    let answer ← s.ask depth call
    return answer :: (← answers depth answer.2 rest)

/-- A call to a reader that is in no level ends, and leaves it in none. -/
theorem ask_eq {depth : Nat} {r : Reader} (call : Call)
    (hdepth : 2 * r.cursor.rest.length < depth) :
    ask depth call ⟨r, 0⟩ = some ((r.ask call).1, ⟨(r.ask call).2, 0⟩) := by
  cases call with
  | nextForm =>
      rw [ask, nextForm_eq rfl hdepth, Reader.ask]
      cases h : r.nextForm with
      | ok d r' =>
          rw [run_of_ok h]
          rfl
      | error e r' =>
          rw [run_of_error h]
          rfl
  | next =>
      rw [ask, Reader.ask, next?, nextForm_eq rfl hdepth]
      simp only
      split
      · rfl
      · cases h : r.nextForm with
        | ok d r' =>
            rw [run_of_ok h]
            cases d <;> rfl
        | error e r' =>
            rw [run_of_error h]
            rfl

end LevelReader

namespace Reader

open Datum

/-! ## One call -/

section Ask

variable {call : Call} {r : Reader} {d : Datum}

theorem later_ask (call : Call) (r : Reader) : r.Later (r.ask call).2 := by
  cases call with
  | nextForm =>
      rw [ask]
      cases h : r.nextForm with
      | ok d r' => exact Forward.nextForm.ok h
      | error e r' => exact Forward.nextForm.error h
  | next => exact later_next? r

theorem nextForm_of_ask (h : (r.ask call).1 = some (.ok d)) :
    r.nextForm = .ok (some d) (r.ask call).2 := by
  cases call with
  | nextForm =>
      rw [ask] at h ⊢
      cases hform : r.nextForm with
      | error e r' =>
          rw [hform] at h
          cases h
      | ok form r' =>
          rw [hform] at h
          cases form with
          | none => cases h
          | some d' =>
              cases h
              rfl
  | next => exact nextForm_of_next? h

/-- A call that returns a datum has read it. -/
theorem yields_of_ask (h : (r.ask call).1 = some (.ok d)) :
    Yields maxNesting .form r.skipped d (r.ask call).2 :=
  nextForm_eq_some (nextForm_of_ask h)

theorem numbered_of_ask (h : (r.ask call).1 = some (.ok d)) :
    Numbered r.lastId (r.ask call).2.lastId [d] :=
  (yields_of_ask h).numbered (Nat.le_refl _) (.nil _ _)

theorem length_lt_of_ask (h : (r.ask call).1 = some (.ok d)) :
    (r.ask call).2.cursor.rest.length < r.cursor.rest.length :=
  Nat.lt_of_lt_of_le (yields_of_ask h).consumes (length_skipped_le r)

end Ask

/-! ## Any calls -/

variable {r : Reader} {source : String}

theorem Onward.offset_add_length {r' : Reader} (h : r.Onward r') :
    r'.cursor.position.offset + r'.cursor.rest.length =
      r.cursor.position.offset + r.cursor.rest.length := by
  obtain ⟨text, hpasses⟩ := h
  rw [hpasses.offset, hpasses.rest, List.length_append]
  omega

theorem Onward.length_le {r' : Reader} (h : r.Onward r') :
    r'.cursor.rest.length ≤ r.cursor.rest.length := by
  have hlength := h.offset_add_length
  have hoffset := h.offset_le
  omega

/-- A turn is a call to a reader that the first one has become. -/
theorem exists_call_of_mem_turns {calls : List Call} {turn : Turn} (h : turn ∈ r.turns calls) :
    ∃ (call : Call) (r' : Reader), r.Later r' ∧
      turn = ⟨r', (r'.ask call).1, (r'.ask call).2⟩ := by
  induction calls generalizing r with
  | nil => cases h
  | cons call rest ih =>
      rcases List.mem_cons.mp h with rfl | h
      · exact ⟨call, r, .refl r, rfl⟩
      · obtain ⟨call', r', hlater, hturn⟩ := ih h
        exact ⟨call', r', (later_ask call r).trans hlater, hturn⟩

theorem offsets_turns (r : Reader) (calls : List Call) :
    (r.cursor.position.offset ::
      (r.turns calls).map fun turn => turn.after.cursor.position.offset).Pairwise (· ≤ ·) := by
  rw [← List.isChain_iff_pairwise]
  induction calls generalizing r with
  | nil => exact .singleton _
  | cons call rest ih => exact .cons_cons (later_ask call r).onward.offset_le (ih _)

theorem reply_of_form? {turn : Turn} {d : Datum} (h : turn.form? = some d) :
    turn.reply = some (.ok d) := by
  rw [Turn.form?] at h
  cases hreply : turn.reply with
  | none =>
      rw [hreply] at h
      cases h
  | some outcome =>
      rw [hreply] at h
      cases outcome with
      | error e => cases h
      | ok d' =>
          cases h
          rfl

/-- The first of some calls returns a datum or not. -/
theorem forms_cons (r : Reader) (call : Call) (rest : List Call) :
    (∃ d, (r.ask call).1 = some (.ok d) ∧
      r.forms (call :: rest) = d :: (r.ask call).2.forms rest) ∨
    r.forms (call :: rest) = (r.ask call).2.forms rest := by
  rw [forms, turns, List.filterMap_cons]
  split
  next => exact Or.inr rfl
  next d hform => exact Or.inl ⟨d, reply_of_form? hform, rfl⟩

/-- Every datum takes at least one character. -/
theorem length_forms_le (r : Reader) (calls : List Call) :
    (r.forms calls).length ≤ r.cursor.rest.length := by
  induction calls generalizing r with
  | nil => exact Nat.zero_le _
  | cons call rest ih =>
      have hrest := ih (r.ask call).2
      rcases forms_cons r call rest with ⟨d, hreply, hforms⟩ | hforms
      · have hless := length_lt_of_ask hreply
        rw [hforms, List.length_cons]
        omega
      · rw [hforms]
        exact hrest.trans (later_ask call r).onward.length_le

/-- The data of later calls are numbered after those of earlier ones. -/
theorem forms_numbered (r : Reader) (calls : List Call) :
    ∃ high, r.lastId ≤ high ∧ Numbered r.lastId high (r.forms calls) ∧
      (r.forms calls).Pairwise fun earlier later =>
        ∀ s ∈ earlier.preorder, ∀ t ∈ later.preorder, s.mark.id < t.mark.id := by
  induction calls generalizing r with
  | nil => exact ⟨r.lastId, Nat.le_refl _, .nil _ _, .nil⟩
  | cons call rest ih =>
      obtain ⟨high, hhigh, hrest, hordered⟩ := ih (r.ask call).2
      have hle := (later_ask call r).numbers
      rcases forms_cons r call rest with ⟨d, hreply, hforms⟩ | hforms
      · have hfirst := numbered_of_ask hreply
        rw [hforms]
        refine ⟨high, hle.trans hhigh, ?_, ?_⟩
        · exact (hrest.append hfirst hle hhigh).perm (List.perm_append_singleton d _).symm
        · refine .cons ?_ hordered
          intro later hlater s hs t ht
          have hs' := (hfirst.bounds s (mem_preorderAll List.mem_cons_self hs)).2
          have ht' := (hrest.bounds t (mem_preorderAll hlater ht)).1
          omega
      · have hnone : Numbered r.lastId (r.ask call).2.lastId [] := .nil _ _
        rw [hforms]
        refine ⟨high, hle.trans hhigh, ?_, hordered⟩
        simpa using hrest.append hnone hle hhigh

theorem nesting_le_of_mem_forms {calls : List Call} {f : Datum} (h : f ∈ r.forms calls) :
    f.nesting ≤ maxNesting := by
  obtain ⟨turn, hturn, hform⟩ := List.mem_filterMap.mp h
  obtain ⟨call, r', -, rfl⟩ := exists_call_of_mem_turns hturn
  exact (yields_of_ask (reply_of_form? hform)).nestingAs_le trivial

/-- A call that returns a datum takes at least one character. -/
theorem offset_lt_of_mem_turns {calls : List Call} {turn : Turn} (h : turn ∈ r.turns calls)
    (hform : turn.form?.isSome) :
    turn.before.cursor.position.offset < turn.after.cursor.position.offset := by
  obtain ⟨d, hform⟩ := Option.isSome_iff_exists.mp hform
  obtain ⟨call, r', -, rfl⟩ := exists_call_of_mem_turns h
  have hless := length_lt_of_ask (reply_of_form? hform)
  have hlength := (later_ask call r').onward.offset_add_length
  simp only
  omega

theorem offset_le_of_mem_turns {calls : List Call} {turn : Turn} (h : turn ∈ r.turns calls) :
    turn.after.cursor.position.offset ≤ r.cursor.position.offset + r.cursor.rest.length := by
  obtain ⟨call, r', hlater, rfl⟩ := exists_call_of_mem_turns h
  have hlength := (hlater.trans (later_ask call r')).onward.offset_add_length
  simp only
  omega

/-- Calls to a reader that is in no level end, and leave it in none. -/
theorem answers_eq {depth : Nat} (calls : List Call) (hdepth : 2 * r.cursor.rest.length < depth) :
    LevelReader.answers depth ⟨r, 0⟩ calls =
      some ((r.turns calls).map fun turn => (turn.reply, ⟨turn.after, 0⟩)) := by
  induction calls generalizing r with
  | nil => rfl
  | cons call rest ih =>
      have hrest : 2 * (r.ask call).2.cursor.rest.length < depth := by
        have hless := (later_ask call r).onward.length_le
        omega
      rw [LevelReader.answers, LevelReader.ask_eq call hdepth, turns, List.map_cons]
      change (do return _ :: (← LevelReader.answers depth ⟨(r.ask call).2, 0⟩ rest)) = _
      rw [ih hrest]
      rfl

/-- Whatever a reader of a text is asked, in whatever order and also after errors, every call ends,
with no more calls inside one another than two for every character, and between calls the reader is
in no level.  Its position never decreases or passes the end; a call that returns a datum takes at
least one character, so that no more data than characters are returned.  All identity numbers in the
data are different, that of a datum is greater than those of the data in it, and those of later data
are greater than those of earlier ones.  And in the text of no datum are more than 256 brackets of
lists and vectors open at once. -/
theorem calls_stay_in_order (source : String) (calls : List Call) :
    let turns := (ofText source).turns calls
    let forms := turns.filterMap Turn.form?
    (∀ depth > 2 * source.toList.length, LevelReader.answers depth ⟨ofText source, 0⟩ calls =
        some (turns.map fun turn => (turn.reply, ⟨turn.after, 0⟩))) ∧
      (0 :: turns.map fun turn => turn.after.cursor.position.offset).Pairwise (· ≤ ·) ∧
      (∀ turn ∈ turns, turn.after.cursor.position.offset ≤ source.toList.length) ∧
      (∀ turn ∈ turns, turn.form?.isSome →
        turn.before.cursor.position.offset < turn.after.cursor.position.offset) ∧
      forms.length ≤ source.toList.length ∧
      ((preorderAll forms).map (·.mark.id)).Nodup ∧
      (∀ f ∈ forms, ∀ s ∈ f.preorder, ∀ t ∈ s.preorder.tail, t.mark.id < s.mark.id) ∧
      (forms.Pairwise fun earlier later =>
        ∀ s ∈ earlier.preorder, ∀ t ∈ later.preorder, s.mark.id < t.mark.id) ∧
      ∀ f ∈ forms, Piece.join f.pieces = f.text ∧ Piece.deepest 0 f.pieces ≤ maxNesting := by
  intro turns forms
  obtain ⟨high, -, hnumbered, hordered⟩ := forms_numbered (ofText source) calls
  have hoffset : (ofText source).cursor.position.offset = 0 := rfl
  refine ⟨fun depth hdepth => answers_eq calls hdepth, offsets_turns (ofText source) calls, ?_,
    fun turn hturn => offset_lt_of_mem_turns hturn, length_forms_le _ calls, hnumbered.distinct,
    ?_, hordered, ?_⟩
  · intro turn hturn
    have hle := offset_le_of_mem_turns hturn
    rwa [hoffset, Nat.zero_add] at hle
  · intro f hf s hs
    exact hnumbered.descends s (mem_preorderAll hf hs)
  · intro f hf
    rw [deepest_pieces]
    exact ⟨join_piecesAs .alone f, nesting_le_of_mem_forms hf⟩

end Reader
end SchemeMachine
