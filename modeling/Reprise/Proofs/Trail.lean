import Mathlib.Data.List.Induction
import Reprise.Outcome.Payload

/-!
# Payloads as images of trails

A payload sees an error arise once and is annotated at each further place, so it is made from the trail
of these places. What each of the provided payloads keeps of a trail follows.
-/

namespace Reprise.Trail

variable {τ ε : Type}

/-- The payload that arises where a trail begins and is annotated at its further places in turn. -/
def payload [Payload τ ε] (t : Trail τ) : ε :=
  t.outer.foldl (fun e place => Payload.append place.input place.kind e)
    (Payload.ofKind t.innermost.input t.innermost.kind)

/-- The first place of a trail. -/
def first (t : Trail τ) : Located τ := t.entries.head t.entries_ne_nil

/-- The last place of a trail. -/
def last (t : Trail τ) : Located τ := t.entries.getLast t.entries_ne_nil

/-- What an error was looking for on its way out, and at which offsets. -/
def places (t : Trail τ) : List (Nat × ErrorKind) :=
  t.entries.map fun place => (place.input.offset, place.kind)

theorem entries_ofKind (x : Window τ) (kind : ErrorKind) :
    (Payload.ofKind x kind : Trail τ).entries = [⟨x, kind⟩] := rfl

theorem entries_append (x : Window τ) (kind : ErrorKind) (t : Trail τ) :
    (Payload.append x kind t).entries = t.entries ++ [⟨x, kind⟩] := rfl

variable [Payload τ ε]

theorem payload_ofKind (x : Window τ) (kind : ErrorKind) :
    (Payload.ofKind x kind : Trail τ).payload = (Payload.ofKind x kind : ε) := rfl

theorem payload_append (x : Window τ) (kind : ErrorKind) (t : Trail τ) :
    (Payload.append x kind t).payload = (Payload.append x kind t.payload : ε) := by
  change List.foldl _ _ (t.outer ++ [⟨x, kind⟩]) = _
  rw [List.foldl_append]
  rfl

/-- An induction along the way of an error. -/
theorem induction_on {P : Trail τ → Prop} (t : Trail τ)
    (ofKind : ∀ (x : Window τ) kind, P (Payload.ofKind x kind))
    (append : ∀ (x : Window τ) kind t, P t → P (Payload.append x kind t)) : P t := by
  obtain ⟨⟨x, kind⟩, outer⟩ := t
  induction outer using List.reverseRecOn with
  | nil => exact ofKind x kind
  | append_singleton outer place ih => exact append place.input place.kind _ ih

theorem payload_trail (t : Trail τ) : (t.payload : Trail τ) = t := by
  induction t using induction_on with
  | ofKind x kind => rfl
  | append x kind t ih => rw [payload_append, ih]

theorem payload_located (t : Trail τ) : (t.payload : Located τ) = t.first := by
  induction t using induction_on with
  | ofKind x kind => rfl
  | append x kind t ih =>
    rw [payload_append]
    exact ih

theorem payload_outermost (t : Trail τ) : (t.payload : Outermost τ) = ⟨t.last⟩ := by
  induction t using induction_on with
  | ofKind x kind => rfl
  | append x kind t _ =>
    have hlast : (Payload.append x kind t).last = ⟨x, kind⟩ := by simp [last, entries_append]
    rw [payload_append, hlast]
    rfl

theorem payload_tally (t : Trail τ) : (t.payload : Tally) = ⟨t.entries.length - 1⟩ := by
  induction t using induction_on with
  | ofKind x kind => rfl
  | append x kind t ih =>
    rw [payload_append, ih, entries_append, List.length_append]
    rfl

end Reprise.Trail
