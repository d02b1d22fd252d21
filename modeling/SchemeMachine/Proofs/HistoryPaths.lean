import Mathlib.Data.List.TakeWhile
import SchemeMachine.Repl.History

/-!
# The rules for the history file

Paths are compared by their components, which forget how often a slash is written and where a `.`
stands for nothing.  A relative path that is joined to an absolute one adds its names to the
components of the other, so what is seen from the home directory lies under it.

The history file is chosen by the first of two texts that is not blank.  A text that is an absolute
path is that path, any other is seen from the home directory, and a tilde in front stands for the
home directory itself.  The one way out is a tilde before two slashes: what comes after the first
slash is then an absolute path of its own.
-/

namespace SchemeMachine

namespace Path

/-- The names on the way along a path. -/
def names (p : Path) : List String :=
  p.pieces.filter fun piece => !isIdle piece

/-- The components of a path: the root of an absolute path or a `.` in front of a relative one, and
the names. -/
def components (p : Path) : List String :=
  if p.isAbsolute then "/" :: p.names
  else if p.pieces.head? = some "." then "." :: p.names
  else p.names

/-! ## Joining -/

theorem splitSlash_eq_cons (text : List Char) :
    ∃ piece more, pieces.splitSlash text = piece :: more := by
  cases text with
  | nil => exact ⟨[], [], rfl⟩
  | cons c rest =>
      rw [pieces.splitSlash]
      split
      · exact ⟨_, _, rfl⟩
      · split
        · exact ⟨_, _, rfl⟩
        · exact ⟨_, _, rfl⟩

/-- A slash separates the pieces before it from those behind it. -/
theorem splitSlash_append_slash (front rest : List Char) :
    pieces.splitSlash (front ++ '/' :: rest) =
      pieces.splitSlash front ++ pieces.splitSlash rest := by
  induction front with
  | nil => rfl
  | cons c front ih =>
      obtain ⟨piece, more, hfront⟩ := splitSlash_eq_cons front
      rw [List.cons_append, pieces.splitSlash, pieces.splitSlash, ih, hfront]
      by_cases hc : c = '/'
      · simp only [hc, if_true, List.cons_append]
      · simp only [hc, if_false, List.cons_append]

theorem names_append_slash (front rest : String) :
    names (front ++ "/" ++ rest) = names front ++ names rest := by
  have hchars : (front ++ "/" ++ rest).toList = front.toList ++ '/' :: rest.toList := by simp
  unfold names pieces
  rw [hchars, splitSlash_append_slash, List.map_append, List.filter_append]

theorem isAbsolute_append {base : Path} (h : base.isAbsolute = true) (rest : String) :
    isAbsolute (base ++ rest) = true := by
  unfold isAbsolute at h ⊢
  rw [String.toList_append]
  cases hbase : base.toList with
  | nil =>
      rw [hbase] at h
      cases h
  | cons c more =>
      rw [hbase] at h
      exact h

theorem isAbsolute_join {base rest : Path} (hbase : base.isAbsolute = true) :
    (join base rest).isAbsolute = true := by
  unfold join
  split
  · assumption
  · split
    · exact isAbsolute_append hbase rest
    · exact isAbsolute_append (isAbsolute_append hbase "/") rest

/-- Joining puts one slash between an absolute path and a relative one, whether the first has ended
in a slash or not. -/
theorem join_eq {base rest : Path} (hbase : base.isAbsolute = true)
    (hrest : rest.isAbsolute = false) :
    ∃ front, base.names = names front ∧ join base rest = front ++ "/" ++ rest := by
  have hne : base.isEmpty = false := by
    cases hempty : base.isEmpty with
    | false => rfl
    | true =>
        rw [String.isEmpty_iff.mp hempty] at hbase
        cases hbase
  unfold join
  rw [hrest, hne]
  by_cases hslash : base.toList.getLast? = some '/'
  · obtain ⟨chars, hchars⟩ := List.getLast?_eq_some_iff.mp hslash
    have hsplit : base = String.ofList chars ++ "/" := by
      apply String.toList_injective
      simpa using hchars
    refine ⟨String.ofList chars, ?_, by simp [hslash, ← hsplit]⟩
    -- Behind the slash at the end there is an empty piece, which is no name.
    have hnames := names_append_slash (String.ofList chars) ""
    rw [String.append_empty, ← hsplit] at hnames
    rw [hnames]
    exact List.append_nil _
  · exact ⟨base, rfl, by simp [hslash]⟩

/-- Joining adds the names of a relative path to the components of an absolute one. -/
theorem components_join {base rest : Path} (hbase : base.isAbsolute = true)
    (hrest : rest.isAbsolute = false) :
    (join base rest).components = base.components ++ rest.names := by
  obtain ⟨front, hfront, hjoin⟩ := join_eq hbase hrest
  have habsolute : (join base rest).isAbsolute = true := isAbsolute_join hbase
  unfold components
  rw [habsolute, hbase, hjoin, names_append_slash, hfront]
  rfl

end Path

namespace Repl

/-! ## The text that is chosen -/

/-- The first of two texts that is not blank, without the blanks around it. -/
def chosen? (override configured : Option String) : Option String :=
  ((override.toList ++ configured.toList).find? fun text => !Text.allBlank text).map Text.trimBlank

/-- Nothing is left of a blank text, and of no other. -/
theorem isEmpty_trimBlank (text : String) :
    (Text.trimBlank text).isEmpty = Text.allBlank text := by
  rw [Bool.eq_iff_iff, String.isEmpty_iff, Text.trimBlank, Text.allBlank,
    String.ofList_eq_empty_iff, List.reverse_eq_nil_iff, List.dropWhile_eq_nil_iff,
    List.all_eq_true]
  constructor
  · intro h c hc
    rw [← List.takeWhile_append_dropWhile (p := Text.isBlank) (l := text.toList)] at hc
    rcases List.mem_append.mp hc with hfront | hrest
    · exact List.mem_takeWhile_imp hfront
    · exact h c (List.mem_reverse.mpr hrest)
  · intro h c hc
    exact h c ((List.dropWhile_sublist _).subset (List.mem_reverse.mp hc))

theorem meaningful_eq (text : Option String) :
    meaningful text = (text.toList.find? fun text => !Text.allBlank text).map Text.trimBlank := by
  cases text with
  | none => rfl
  | some text =>
      have hmeaningful : meaningful (some text) =
          if (Text.trimBlank text).isEmpty then none else some (Text.trimBlank text) := rfl
      rw [hmeaningful, isEmpty_trimBlank]
      cases hblank : Text.allBlank text with
      | false => simp [hblank]
      | true => simp [hblank]

theorem meaningful_or (override configured : Option String) :
    (meaningful override).or (meaningful configured) = chosen? override configured := by
  rw [meaningful_eq, meaningful_eq, chosen?, List.find?_append, Option.map_or]

section Chosen

variable {override configured : Option String}

theorem historyPath?_of_chosen (home : Option Path) {text : String}
    (h : chosen? override configured = some text) :
    historyPath? home override configured = expandHome home text := by
  simp only [historyPath?, meaningful_or, h]

theorem historyPath?_of_unchosen (home : Option Path) (h : chosen? override configured = none) :
    historyPath? home override configured =
      home.map fun home => Path.join (Path.join home ".slippy") "repl_history" := by
  simp only [historyPath?, meaningful_or, h]

end Chosen

/-! ## The path that it stands for -/

/-- What a text says of the way from the home directory. -/
def pastTilde (text : String) : String :=
  match text.toList with
  | ['~'] => ""
  | '~' :: '/' :: rest => String.ofList rest
  | _ => text

/-- A text that is no absolute path is seen from the home directory. -/
theorem expandHome_eq (home : Option Path) (text : String) :
    expandHome home text =
      if Path.isAbsolute text then some text
      else home.map fun home => if text = "~" then home else Path.join home (pastTilde text) := by
  unfold expandHome pastTilde Path.isAbsolute
  split
  · next h =>
    obtain rfl : text = "~" := String.toList_injective h
    simp
  · next rest h =>
    have hne : text ≠ "~" := by
      rintro rfl
      cases h
    simp [h, hne]
  · next hne _ =>
    have hne : text ≠ "~" := by
      rintro rfl
      exact hne rfl
    simp [hne]

theorem expandHome_inside {home : Path} (hhome : home.isAbsolute = true) {text : String}
    (htext : Path.isAbsolute text = false) (hpast : Path.isAbsolute (pastTilde text) = false) :
    ∃ p, expandHome (some home) text = some p ∧
      p.components = home.components ++ Path.names (pastTilde text) := by
  rw [expandHome_eq, htext]
  by_cases htilde : text = "~"
  · subst htilde
    exact ⟨home, rfl, (List.append_nil _).symm⟩
  · refine ⟨Path.join home (pastTilde text), ?_, Path.components_join hhome hpast⟩
    simp [htilde]

/-- Without a tilde and two slashes in front, the way from the home directory is a relative path. -/
theorem isAbsolute_pastTilde {text : String} (htext : Path.isAbsolute text = false)
    (hrest : ∀ rest, text = "~/" ++ rest → Path.isAbsolute rest = false) :
    Path.isAbsolute (pastTilde text) = false := by
  unfold pastTilde
  split
  · rfl
  · next rest h =>
    refine hrest (String.ofList rest) (String.toList_injective ?_)
    simpa using h
  · exact htext

theorem isAbsolute_tilde_slash (rest : String) : Path.isAbsolute ("~/" ++ rest) = false := by
  simp [Path.isAbsolute]

/-! ## The rules -/

/-- A text that is chosen is the history file if it is an absolute path, and otherwise tells the way
there from the home directory, without which there is no history file.  If no text is chosen, the
way is fixed.  What comes after a tilde and a slash must not be an absolute path itself. -/
theorem historyPath_by_rules (home : Option Path) (override configured : Option String)
    (hhome : ∀ h, home = some h → h.isAbsolute = true) :
    (chosen? override configured = none →
      (home = none → historyPath? home override configured = none) ∧
      ∀ h, home = some h → ∃ p, historyPath? home override configured = some p ∧
        p.components = h.components ++ [".slippy", "repl_history"]) ∧
    ∀ text, chosen? override configured = some text →
      (Path.isAbsolute text = true → historyPath? home override configured = some text) ∧
      (text = "~" ∨ (∃ rest, text = "~/" ++ rest) ∨ Path.isAbsolute text = false →
        (home = none → historyPath? home override configured = none) ∧
        ((∀ rest, text = "~/" ++ rest → Path.isAbsolute rest = false) →
          ∀ h, home = some h → ∃ p, historyPath? home override configured = some p ∧
            p.components = h.components ++ Path.names (pastTilde text))) := by
  constructor
  · intro hchosen
    rw [historyPath?_of_unchosen home hchosen]
    refine ⟨fun hnone => by rw [hnone]; rfl, ?_⟩
    rintro h rfl
    have habsolute := hhome h rfl
    refine ⟨Path.join (Path.join h ".slippy") "repl_history", rfl, ?_⟩
    rw [Path.components_join (Path.isAbsolute_join habsolute) (by decide),
      Path.components_join habsolute (by decide), List.append_assoc]
    rfl
  · intro text hchosen
    rw [historyPath?_of_chosen home hchosen]
    refine ⟨fun habsolute => by rw [expandHome_eq, habsolute]; rfl, fun hform => ?_⟩
    have htext : Path.isAbsolute text = false := by
      rcases hform with rfl | ⟨rest, rfl⟩ | htext
      · rfl
      · exact isAbsolute_tilde_slash rest
      · exact htext
    refine ⟨fun hnone => by rw [expandHome_eq, htext, hnone]; rfl, ?_⟩
    rintro hrest h rfl
    exact expandHome_inside (hhome h rfl) htext (isAbsolute_pastTilde htext hrest)

/-- A blank text is passed over, and the next tells the way from the home directory. -/
theorem blank_override_by_rules :
    ∃ p, historyPath? (some "/home/tester/") (some " \t") (some " ~/./logs//today ") = some p ∧
      p.components = ["/", "home", "tester", "logs", "today"] := by
  have hchosen : chosen? (some " \t") (some " ~/./logs//today ") =
      some ("~/" ++ "./logs//today") := by
    decide +kernel
  have hrules := historyPath_by_rules (some "/home/tester/") (some " \t")
    (some " ~/./logs//today ") (by rintro h ⟨⟩; decide +kernel)
  have hrelative : ∀ rest, "~/" ++ "./logs//today" = "~/" ++ rest →
      Path.isAbsolute rest = false := by
    intro rest hrest
    rw [← (String.append_right_inj "~/").mp hrest]
    decide +kernel
  obtain ⟨p, hp, hcomponents⟩ :=
    ((hrules.2 _ hchosen).2 (Or.inr (Or.inl ⟨_, rfl⟩))).2 hrelative _ rfl
  exact ⟨p, hp, hcomponents.trans (by decide +kernel)⟩

/-- A tilde before two slashes leads out of the home directory. -/
theorem doubled_slash_leaves_home :
    Path.isAbsolute "/home/tester" = true ∧
      chosen? (some "~//usr/h") none = some ("~/" ++ "/usr/h") ∧
      historyPath? (some "/home/tester") (some "~//usr/h") none = some "/usr/h" ∧
      ¬ Path.components "/home/tester" <+: Path.components "/usr/h" := by
  decide +kernel

end Repl
end SchemeMachine
