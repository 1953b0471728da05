/-!
# Containers

Where a repetition puts its values. A container starts empty, may be told how many values to
expect, and takes the values one by one in order of arrival.
-/

namespace Reprise

/-- The bytes a container reserves at most before any value has arrived. -/
def reservationBudget : Nat := 65536

/-- How many elements of a size to reserve when `requested` are announced. Announced numbers come
from the input and are not to be trusted, so the reservation stays within a budget. -/
def clampedCapacity (size requested budget : Nat) : Nat := min requested (budget / max 1 size)

structure Container (α κ : Type) where
  empty : κ
  insert : κ → α → κ
  /-- Makes room for a number of values. -/
  reserve : κ → Nat → κ := fun held _ => held
  /-- The bytes that one value takes. -/
  elementSize : Nat := 1

namespace Container

variable {α κ : Type}

/-- An empty container with room for as many of the announced values as the budget allows. -/
def withRoom (into : Container α κ) (announced : Nat) : κ :=
  into.reserve into.empty (clampedCapacity into.elementSize announced reservationBudget)

/-- Takes values in order. -/
def insertAll (into : Container α κ) (held : κ) (vs : List α) : κ := vs.foldl into.insert held

/-- Keeps the values in order of arrival. -/
def sequence : Container α (Array α) where
  empty := #[]
  insert := Array.push

/-- Counts the values and drops them. -/
def counter : Container α Nat where
  empty := 0
  insert n _ := n + 1

/-- Puts a value before the first greater one, after all equal ones. -/
def insertAfterEqual (cmp : α → α → Ordering) (v : α) : List α → List α
  | [] => [v]
  | w :: ws => if cmp v w = .lt then v :: w :: ws else w :: insertAfterEqual cmp v ws

/-- Puts a value in its place, unless an equal one is there. -/
def insertUnlessEqual (cmp : α → α → Ordering) (v : α) : List α → List α
  | [] => [v]
  | w :: ws =>
    match cmp v w with
    | .lt => v :: w :: ws
    | .eq => w :: ws
    | .gt => w :: insertUnlessEqual cmp v ws

/-- Keeps the values sorted. -/
def sorted (cmp : α → α → Ordering) : Container α (List α) where
  empty := []
  insert held v := insertAfterEqual cmp v held

/-- Keeps the values sorted, and of equal ones the first. -/
def sortedUnique (cmp : α → α → Ordering) : Container α (List α) where
  empty := []
  insert held v := insertUnlessEqual cmp v held

/-- What was asked of a container: the reservations, and how many values were taken. -/
structure Audit (α : Type) where
  reserved : Array Nat
  taken : Nat
  last : Option α

/-- Records the reservations and keeps the last value only. -/
def audited (size : Nat) : Container α (Audit α) where
  empty := ⟨#[], 0, none⟩
  insert held v := { held with taken := held.taken + 1, last := some v }
  reserve held n := { held with reserved := held.reserved.push n }
  elementSize := size

end Container

end Reprise
