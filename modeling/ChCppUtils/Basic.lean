/-!
# Strings and failed runs

A `std::string` is a list of characters. A call that does not come back normally ends in a `Fault`:
the C++ program has no defined behaviour there, or has exited.
-/

namespace ChCppUtils

/-- `std::string` -/
abbrev Str := List Char

/-- Why a run ends before the function returns. -/
inductive Fault where
  /-- A null pointer is followed. -/
  | nullDeref
  /-- The end iterator of a container is followed. -/
  | endDeref
  /-- `exit(EXIT_FAILURE)` -/
  | exitFailure
  /-- An answer the environment never gives (a descriptor number in use, for example). -/
  | badAnswer
  /-- A loop has used up its bound. -/
  | outOfFuel
deriving DecidableEq, Repr

abbrev Res := Except Fault

theorem Res.of_bind {α β : Type} {x : Res α} {f : α → Res β} {b : β} (h : x >>= f = .ok b) :
    ∃ a, x = .ok a ∧ f a = .ok b := by
  cases x with
  | error e => cases h
  | ok a => exact ⟨a, rfl, h⟩

/-- The name of a directory entry: a piece of a path. -/
def IsName (name : Str) : Prop := name ≠ [] ∧ '/' ∉ name

instance (name : Str) : Decidable (IsName name) := inferInstanceAs (Decidable (_ ∧ _))

end ChCppUtils
