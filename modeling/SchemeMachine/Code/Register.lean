/-!
# Registers

The machine has six registers.  Sets of registers say which registers a piece of code needs and
which it may change; they are small enough to be one truth value per register.
-/

namespace SchemeMachine

/-- The registers of the machine. -/
inductive Register where
  /-- The environment in which variables are looked up. -/
  | env
  /-- The procedure about to be applied. -/
  | proc
  /-- The value of the last expression. -/
  | val
  /-- The list of evaluated arguments. -/
  | argl
  /-- Where to go on afterwards. -/
  | kontinue
  /-- The outcome of the last test. -/
  | flag
  deriving Repr, DecidableEq

namespace Register

/-- Every register, in the order in which sets are listed. -/
def all : List Register := [env, proc, val, argl, kontinue, flag]

/-- The name of a register in listings. -/
def name : Register → String
  | env => "env"
  | proc => "proc"
  | val => "val"
  | argl => "argl"
  | kontinue => "kontinue"
  | flag => "flag"

/-- The register of that name. -/
def ofName? (name : String) : Option Register :=
  all.find? (·.name == name)

end Register

/-- A set of registers. -/
structure RegisterSet where
  env : Bool := false
  proc : Bool := false
  val : Bool := false
  argl : Bool := false
  kontinue : Bool := false
  flag : Bool := false
  deriving Repr, DecidableEq

namespace RegisterSet

/-- No register. -/
def none : RegisterSet := {}

/-- Every register. -/
def full : RegisterSet := ⟨true, true, true, true, true, true⟩

/-- Whether a register belongs to a set. -/
def contains (s : RegisterSet) : Register → Bool
  | .env => s.env
  | .proc => s.proc
  | .val => s.val
  | .argl => s.argl
  | .kontinue => s.kontinue
  | .flag => s.flag

/-- The set whose members satisfy `p`. -/
def ofPred (p : Register → Bool) : RegisterSet :=
  ⟨p .env, p .proc, p .val, p .argl, p .kontinue, p .flag⟩

/-- Members of either set. -/
def union (s t : RegisterSet) : RegisterSet :=
  ofPred fun r => s.contains r || t.contains r

/-- Members of the first set that are not in the second. -/
def diff (s t : RegisterSet) : RegisterSet :=
  ofPred fun r => s.contains r && !t.contains r

/-- The set with one more register. -/
def insert (s : RegisterSet) (r : Register) : RegisterSet :=
  ofPred fun q => s.contains q || q == r

/-- The set without a register. -/
def erase (s : RegisterSet) (r : Register) : RegisterSet :=
  ofPred fun q => s.contains q && q != r

/-- The set of the registers in a list. -/
def ofList (rs : List Register) : RegisterSet :=
  ofPred rs.contains

/-- The members, in the order of `Register.all`. -/
def toList (s : RegisterSet) : List Register :=
  Register.all.filter s.contains

/-- The names of the members, in parentheses. -/
def text (s : RegisterSet) : String :=
  "(" ++ " ".intercalate (s.toList.map Register.name) ++ ")"

@[simp] theorem contains_ofPred (p : Register → Bool) (r : Register) :
    (ofPred p).contains r = p r := by
  cases r <;> rfl

@[simp] theorem contains_union (s t : RegisterSet) (r : Register) :
    (s.union t).contains r = (s.contains r || t.contains r) :=
  contains_ofPred _ r

@[simp] theorem contains_diff (s t : RegisterSet) (r : Register) :
    (s.diff t).contains r = (s.contains r && !t.contains r) :=
  contains_ofPred _ r

@[simp] theorem contains_insert (s : RegisterSet) (q r : Register) :
    (s.insert q).contains r = (s.contains r || r == q) :=
  contains_ofPred _ r

@[simp] theorem contains_erase (s : RegisterSet) (q r : Register) :
    (s.erase q).contains r = (s.contains r && r != q) :=
  contains_ofPred _ r

@[simp] theorem contains_ofList (rs : List Register) (r : Register) :
    (ofList rs).contains r = rs.contains r :=
  contains_ofPred _ r

end RegisterSet
end SchemeMachine
