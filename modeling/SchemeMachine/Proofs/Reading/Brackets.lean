import SchemeMachine.Proofs.Reading.Layout

/-!
# Brackets in printed data

A parenthesis in the text of a datum need not be a bracket: it may belong to a string or to a
symbol.  Here the text is printed in pieces, of which brackets are some, and the pieces in a row are
the text.  Going along them, the brackets that are open at once are as many as lists and vectors are
nested.
-/

namespace SchemeMachine

/-- A part of the text of a datum. -/
inductive Piece where
  /-- A bracket that begins a list or a vector. -/
  | opening (bracket : String)
  /-- The parenthesis at the end of a list or a vector. -/
  | closing
  /-- Anything else. -/
  | plain (text : String)

/-- The text of a piece. -/
def Piece.text : Piece → String
  | opening bracket => bracket
  | closing => ")"
  | plain text => text

/-- The text of pieces in a row. -/
def Piece.join (pieces : List Piece) : String :=
  String.join (pieces.map text)

/-- How many brackets are open where most are, with so many open at the beginning. -/
def Piece.deepest (level : Nat) : List Piece → Nat
  | [] => level
  | opening _ :: rest => max level (deepest (level + 1) rest)
  | closing :: rest => max level (deepest (level - 1) rest)
  | plain _ :: rest => deepest level rest

/-- Pieces that are no list, in their standing. -/
def Standing.placePieces (standing : Standing) (body : List Piece) : List Piece :=
  match standing with
  | .alone => body
  | .tail => .plain " . " :: (body ++ [.closing])

namespace Datum

mutual

/-- The pieces of a datum in its standing. -/
def piecesAs (standing : Standing) : Datum → List Piece
  | pair _ a d =>
    (match standing with | .alone => .opening "(" | .tail => .plain " ") ::
      (piecesAs .alone a ++ piecesAs .tail d)
  | empty _ => match standing with | .alone => [.opening "(", .closing] | .tail => [.closing]
  | symbol _ name => standing.placePieces [.plain name]
  | literal _ value => standing.placePieces [.plain value.text]
  | vector _ items =>
    standing.placePieces
      (.opening "#(" :: ([.plain " "].intercalate (itemPieces items) ++ [.closing]))

/-- The pieces of each element of a vector. -/
def itemPieces : List Datum → List (List Piece)
  | [] => []
  | x :: xs => piecesAs .alone x :: itemPieces xs

end

/-- The pieces of a datum. -/
def pieces (d : Datum) : List Piece :=
  piecesAs .alone d

end Datum

/-! ## The text of the pieces -/

namespace Piece

theorem join_append (first second : List Piece) :
    join (first ++ second) = join first ++ join second := by
  rw [join, List.map_append, String.join_append, join, join]

theorem join_cons (piece : Piece) (rest : List Piece) :
    join (piece :: rest) = piece.text ++ join rest := by
  rw [join, List.map_cons, String.join_cons, join]

theorem join_nil : join [] = "" :=
  String.join_nil

theorem join_intercalate (separator : String) (rows : List (List Piece)) :
    join ([.plain separator].intercalate rows) = separator.intercalate (rows.map join) := by
  induction rows with
  | nil => rfl
  | cons row rows ih =>
      cases rows with
      | nil =>
          rw [List.intercalate_singleton, List.map_cons, List.map_nil, String.intercalate_singleton]
      | cons next rest =>
          rw [List.intercalate_cons_cons, List.map_cons, List.map_cons,
            String.intercalate_cons_cons, ← List.map_cons, ← ih, join_append, join_append,
            join_cons, join_nil, String.append_empty]
          rfl

theorem join_placePieces (standing : Standing) (body : List Piece) :
    join (standing.placePieces body) = standing.place (join body) := by
  cases standing with
  | alone => rfl
  | tail =>
      rw [Standing.placePieces, join_cons, join_append, join_cons, join_nil, String.append_empty,
        ← String.append_assoc]
      rfl

theorem join_singleton (piece : Piece) : join [piece] = piece.text := by
  rw [join_cons, join_nil, String.append_empty]

theorem le_deepest (level : Nat) (pieces : List Piece) : level ≤ deepest level pieces := by
  induction pieces with
  | nil => exact Nat.le_refl level
  | cons piece rest ih =>
      cases piece with
      | opening bracket => exact Nat.le_max_left _ _
      | closing => exact Nat.le_max_left _ _
      | plain text => exact ih

end Piece

namespace Datum

open Piece

mutual

/-- The pieces of a datum in a row are its text. -/
theorem join_piecesAs (standing : Standing) : ∀ d : Datum,
    join (d.piecesAs standing) = d.textAs standing
  | empty m => by
      cases standing <;> rw [piecesAs, textAs] <;> rfl
  | pair m a d => by
      cases standing <;>
        rw [piecesAs, join_cons, join_append, join_piecesAs .alone a, join_piecesAs .tail d, textAs,
          ← String.append_assoc] <;> rfl
  | symbol m name => by
      rw [piecesAs, join_placePieces, join_singleton, textAs]
      rfl
  | literal m value => by
      rw [piecesAs, join_placePieces, join_singleton, textAs]
      rfl
  | vector m items => by
      rw [piecesAs, join_placePieces, join_cons, join_append, join_intercalate,
        map_join_itemPieces items, join_singleton, textAs, ← String.append_assoc]
      rfl

theorem map_join_itemPieces : ∀ items : List Datum,
    (itemPieces items).map join = itemTexts items
  | [] => by rw [itemPieces, itemTexts, List.map_nil]
  | x :: xs => by
      rw [itemPieces, List.map_cons, join_piecesAs .alone x, map_join_itemPieces xs, itemTexts]

end

/-! ## Open brackets -/

mutual

/-- Along the pieces of a datum brackets are opened as deep as the datum is nested, and all of them
are closed again. -/
theorem deepest_alone : ∀ (d : Datum) (level : Nat) (rest : List Piece),
    deepest level (d.piecesAs .alone ++ rest) =
      max (level + d.nestingAs .alone) (deepest level rest)
  | pair m a d, level, rest => by
      have hlevel := le_deepest level rest
      rw [piecesAs, List.cons_append, List.append_assoc, deepest, deepest_alone a, deepest_tail d,
        nestingAs]
      omega
  | empty m, level, rest => by
      have hlevel := le_deepest level rest
      rw [piecesAs, nestingAs]
      simp only [List.cons_append, List.nil_append, deepest, Nat.add_sub_cancel]
      omega
  | symbol m name, level, rest => by
      have hlevel := le_deepest level rest
      rw [piecesAs, nestingAs]
      simp only [Standing.placePieces, List.cons_append, List.nil_append, deepest]
      omega
  | literal m value, level, rest => by
      have hlevel := le_deepest level rest
      rw [piecesAs, nestingAs]
      simp only [Standing.placePieces, List.cons_append, List.nil_append, deepest]
      omega
  | vector m items, level, rest => by
      have hlevel := le_deepest level rest
      rw [piecesAs, nestingAs]
      simp only [Standing.placePieces, List.cons_append, List.append_assoc, List.nil_append,
        deepest, deepest_items items, Nat.add_sub_cancel]
      omega

/-- A tail closes the bracket of the list that it belongs to. -/
theorem deepest_tail : ∀ (d : Datum) (level : Nat) (rest : List Piece),
    deepest (level + 1) (d.piecesAs .tail ++ rest) =
      max (level + 1 + d.nestingAs .tail) (deepest level rest)
  | pair m a d, level, rest => by
      have hlevel := le_deepest level rest
      rw [piecesAs, List.cons_append, List.append_assoc, deepest, deepest_alone a, deepest_tail d,
        nestingAs]
      omega
  | empty m, level, rest => by
      rw [piecesAs, nestingAs]
      simp only [List.cons_append, List.nil_append, deepest, Nat.add_sub_cancel, Nat.add_zero]
  | symbol m name, level, rest => by
      rw [piecesAs, nestingAs]
      simp only [Standing.placePieces, List.cons_append, List.nil_append, deepest,
        Nat.add_sub_cancel, Nat.add_zero]
  | literal m value, level, rest => by
      rw [piecesAs, nestingAs]
      simp only [Standing.placePieces, List.cons_append, List.nil_append, deepest,
        Nat.add_sub_cancel, Nat.add_zero]
  | vector m items, level, rest => by
      have hlevel := le_deepest level rest
      rw [piecesAs, nestingAs]
      simp only [Standing.placePieces, List.cons_append, List.append_assoc, List.nil_append,
        deepest, deepest_items items, Nat.add_sub_cancel]
      omega

theorem deepest_items : ∀ (items : List Datum) (level : Nat) (rest : List Piece),
    deepest level ([.plain " "].intercalate (itemPieces items) ++ rest) =
      max (level + nestingAll items) (deepest level rest)
  | [], level, rest => by
      have hlevel := le_deepest level rest
      rw [itemPieces, nestingAll]
      simp only [List.intercalate_nil, List.nil_append]
      omega
  | [x], level, rest => by
      rw [itemPieces, itemPieces, nestingAll, nestingAll, List.intercalate_singleton,
        deepest_alone x]
      omega
  | x :: y :: ys, level, rest => by
      have hrest := deepest_items (y :: ys) level rest
      rw [itemPieces] at hrest
      rw [itemPieces, itemPieces, List.intercalate_cons_cons, nestingAll, List.append_assoc,
        List.append_assoc, deepest_alone x, List.singleton_append, deepest, hrest]
      omega

end

/-- In the text of a datum so many brackets are open at once as lists and vectors are nested. -/
theorem deepest_pieces (d : Datum) : deepest 0 d.pieces = d.nesting := by
  have hdeepest := deepest_alone d 0 []
  rw [List.append_nil, deepest, Nat.zero_add, Nat.max_zero] at hdeepest
  exact hdeepest

end Datum
end SchemeMachine
