import Reprise.Outcome.Payload

/-!
# Diagnostics

The text of payloads and signals. Positions are written as distances from an origin, usually the
window a parser was applied to.
-/

namespace Reprise

/-- Payloads that can be written for a reader. -/
class Described (τ : Type) (ε : Type) where
  describe : Window τ → ε → String

variable {τ ε : Type}

def Located.describe (origin : Window τ) (e : Located τ) : String :=
  e.kind.name ++ " at offset " ++ toString (origin.distance e.input)

/-- Writes a line. A line break comes before it, unless nothing is written yet. -/
def writeLine (written line : String) : String :=
  (if written.isEmpty then written else written.push '\n') ++ line

/-- Places in their order, on a line each. -/
def Located.describeAll (origin : Window τ) (places : List (Located τ)) : String :=
  places.foldl (fun written e => writeLine written (e.describe origin)) ""

/-- One line for each place, innermost first. -/
def Trail.describe (origin : Window τ) (t : Trail τ) : String := Located.describeAll origin t.entries

instance : Described τ (Located τ) := ⟨Located.describe⟩
instance : Described τ (List (Located τ)) := ⟨Located.describeAll⟩
instance : Described τ (Trail τ) := ⟨Trail.describe⟩
instance : Described τ (Outermost τ) := ⟨fun _ e => e.place.kind.name⟩
instance : Described τ Tally := ⟨fun _ _ => "unknown error"⟩

def Needed.describe (n : Needed) : String :=
  if n.isUnknown then "needs more input" else "needs " ++ toString n.size ++ " more"

def Signal.describe [Described τ ε] (origin : Window τ) : Signal ε → String
  | .error e => "error: " ++ Described.describe origin e
  | .failure e => "failure: " ++ Described.describe origin e
  | .incomplete n => "incomplete: " ++ n.describe

theorem writeLine_empty (line : String) : writeLine "" line = line := by simp [writeLine]

theorem writeLine_of_ne_empty {written : String} (h : written ≠ "") (line : String) :
    writeLine written line = written ++ "\n" ++ line := by
  have hwritten : written.isEmpty = false := by simpa [String.isEmpty_iff] using h
  simp [writeLine, hwritten, String.push_eq_append]

theorem foldl_writeLine {written : String} (h : written ≠ "") (lines : List String) :
    lines.foldl writeLine written = "\n".intercalate (written :: lines) := by
  induction lines generalizing written with
  | nil => simp
  | cons line lines ih =>
    have hnext : written ++ "\n" ++ line ≠ "" := by simp
    rw [List.foldl_cons, writeLine_of_ne_empty h, ih hnext]
    cases lines with
    | nil => simp
    | cons next lines => simp [String.append_assoc]

theorem Located.describe_ne_empty (origin : Window τ) (e : Located τ) : e.describe origin ≠ "" := by
  simp [describe]

/-- No line is empty, so there is a line break between any two lines and nowhere else. -/
theorem Located.describeAll_eq (origin : Window τ) (places : List (Located τ)) :
    describeAll origin places = "\n".intercalate (places.map (describe origin)) := by
  have hmap : describeAll origin places = (places.map (describe origin)).foldl writeLine "" :=
    List.foldl_map.symm
  rw [hmap]
  cases places with
  | nil => simp
  | cons e places =>
    rw [List.map_cons, List.foldl_cons, writeLine_empty, foldl_writeLine (describe_ne_empty origin e)]

/-- A signal reads the same with another payload of which the same is written. -/
theorem Signal.describe_map {τ' ε' : Type} [Described τ ε] [Described τ' ε'] {origin : Window τ}
    {origin' : Window τ'} {f : ε → ε'}
    (h : ∀ e, Described.describe origin' (f e) = Described.describe origin e) (g : Signal ε) :
    (g.map f).describe origin' = g.describe origin := by
  cases g with
  | error e => exact congrArg ("error: " ++ ·) (h e)
  | failure e => exact congrArg ("failure: " ++ ·) (h e)
  | incomplete n => rfl

end Reprise
