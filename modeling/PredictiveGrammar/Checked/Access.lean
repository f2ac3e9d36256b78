import PredictiveGrammar.Error

/-!
# Going to lists by index

Symbols, sets and cells stand in lists and are found by index, and an index can be out of range. Elsewhere in the
library nothing is there then, or a list stays as it is. Here it is a fault: a `Checked` computation reads, writes and
cuts lists only where it may, or has no answer (`Fault.outOfRange`). Building, transforming, analysing and reporting are
written down once more in this form, access by access, to show that no access of theirs fails.
-/

namespace PredictiveGrammar

/-- Why a checked computation has no answer. -/
inductive Fault
  /-- an index is out of range -/
  | outOfRange
  /-- what was asked for is refused -/
  | refused (error : GrammarError)
deriving DecidableEq

/-- The fault that a cause of failure stands for. A symbol that is not there and the first symbol of a production
without symbols are out of range. -/
def Fault.ofError : GrammarError → Fault
  | .unknownSymbol _ => .outOfRange
  | .emptyProduction _ => .outOfRange
  | error => .refused error

/-- A computation in which every access to a list is checked. -/
abbrev Checked := Except Fault

namespace Checked

variable {α : Type}

/-- The answer of a computation that refuses, unless an index was out of range in it. -/
def of (answer : Except GrammarError α) : Checked α := answer.mapError Fault.ofError

/-- What is at an index. -/
def read (l : List α) (index : Nat) : Checked α :=
  match l[index]? with
  | some a => .ok a
  | none => .error .outOfRange

/-- The list with `a` at an index. -/
def write (l : List α) (index : Nat) (a : α) : Checked (List α) :=
  if index < l.length then .ok (l.set index a) else .error .outOfRange

/-- The list up to an index. -/
def upTo (l : List α) (index : Nat) : Checked (List α) :=
  if index ≤ l.length then .ok (l.take index) else .error .outOfRange

/-- The list from an index on. -/
def onward (l : List α) (index : Nat) : Checked (List α) :=
  if index ≤ l.length then .ok (l.drop index) else .error .outOfRange

/-! ## In range -/

variable {β ε : Type} {l : List α} {index : Nat} {a : α}

@[simp] theorem ok_bind {f : α → Except ε β} : (.ok a >>= f) = f a := rfl

@[simp] theorem of_ok : of (.ok a : Except GrammarError α) = .ok a := rfl

theorem read_eq (h : l[index]? = some a) : read l index = .ok a := by
  rw [read, h]

theorem write_eq (h : index < l.length) (a : α) : write l index a = .ok (l.set index a) := if_pos h

theorem upTo_eq (h : index ≤ l.length) : upTo l index = .ok (l.take index) := if_pos h

theorem onward_eq (h : index ≤ l.length) : onward l index = .ok (l.drop index) := if_pos h

end Checked

end PredictiveGrammar
