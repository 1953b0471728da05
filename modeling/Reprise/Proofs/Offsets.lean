import Reprise.Outcome.Diagnostic
import Reprise.Proofs.Positions

/-!
# Offsets

What is written of an error is a list of places. Their offsets count from the start of the window a
parser was applied to, and never leave that window.
-/

namespace Reprise

variable {τ ε : Type}

/-- The text of places: a line for each, with its offset. -/
def listing (places : List (Nat × ErrorKind)) : String :=
  "\n".intercalate (places.map fun (n, kind) => kind.name ++ " at offset " ++ toString n)

/-- What is written of a signal names offsets between zero and the length of a window only. -/
def Signal.WrittenWithin [Described τ ε] (x : Window τ) (g : Signal ε) : Prop :=
  ∀ e ∈ g.payload?, ∃ places, (∀ place ∈ places, place.1 ≤ x.length) ∧
    Described.describe x e = listing places ∧
    g.describe x = (if g.isError then "error: " else "failure: ") ++ listing places

/-- A payload that is written as a list of places in a window is written within the window. -/
theorem Signal.writtenWithin_of_listing [Described τ ε] {x : Window τ} {g : Signal ε}
    (h : ∀ e ∈ g.payload?, ∃ places, (∀ place ∈ places, place.1 ≤ x.length) ∧
      Described.describe x e = listing places) : g.WrittenWithin x := by
  intro e he
  obtain ⟨places, hplaces, hdescribe⟩ := h e he
  refine ⟨places, hplaces, hdescribe, ?_⟩
  cases g with
  | error e' =>
    obtain rfl := Option.some.inj he
    exact congrArg ("error: " ++ ·) hdescribe
  | failure e' =>
    obtain rfl := Option.some.inj he
    exact congrArg ("failure: " ++ ·) hdescribe
  | incomplete n => cases he

theorem Located.describe_of_inside {x : Window τ} {place : Located τ} (h : place.input.Inside x) :
    ∃ n ≤ x.length, place.describe x = place.kind.name ++ " at offset " ++ toString n := by
  obtain ⟨n, hn, hdistance⟩ := h.distance
  refine ⟨n, hn, ?_⟩
  unfold Located.describe
  rw [hdistance]
  rfl

/-- Places in a window are written as a list with offsets in the window. -/
theorem lines_of_inside {x : Window τ} (entries : List (Located τ))
    (h : ∀ place ∈ entries, place.input.Inside x) :
    ∃ places : List (Nat × ErrorKind), (∀ place ∈ places, place.1 ≤ x.length) ∧
      entries.map (Located.describe x) =
        places.map fun (n, kind) => kind.name ++ " at offset " ++ toString n := by
  induction entries with
  | nil => exact ⟨[], nofun, rfl⟩
  | cons entry entries ih =>
    obtain ⟨n, hn, hentry⟩ := Located.describe_of_inside (h entry (.head _))
    obtain ⟨places, hplaces, hlines⟩ := ih fun place hplace => h place (.tail _ hplace)
    refine ⟨(n, entry.kind) :: places, ?_, ?_⟩
    · intro place hplace
      rcases List.mem_cons.mp hplace with rfl | hplace
      · exact hn
      · exact hplaces place hplace
    · rw [List.map_cons, List.map_cons, hlines, hentry]

theorem Trail.writtenWithin {x : Window τ} {g : Signal (Trail τ)}
    (h : ∀ t ∈ g.payload?, t.Nested x) : g.WrittenWithin x := by
  refine Signal.writtenWithin_of_listing fun t ht => ?_
  obtain ⟨places, hplaces, hlines⟩ := lines_of_inside t.entries (h t ht).inside
  refine ⟨places, hplaces, ?_⟩
  change Located.describeAll x t.entries = listing places
  rw [Located.describeAll_eq, hlines]
  rfl

theorem Located.writtenWithin {x : Window τ} {g : Signal (Located τ)}
    (h : ∀ e ∈ g.payload?, e.input.Inside x) : g.WrittenWithin x := by
  refine Signal.writtenWithin_of_listing fun e he => ?_
  obtain ⟨n, hn, hdescribe⟩ := Located.describe_of_inside (h e he)
  refine ⟨[(n, e.kind)], ?_, hdescribe⟩
  intro place hplace
  obtain rfl := List.mem_singleton.mp hplace
  exact hn

/-- On its way out an error never gets to a later offset. -/
theorem Trail.Nested.offsets {t : Trail τ} {x : Window τ} (h : t.Nested x) :
    (t.places.map Prod.fst).Pairwise (· ≥ ·) := by
  unfold Trail.places
  rw [List.map_map, List.pairwise_map]
  refine h.inner.imp fun {a b} hab => ?_
  obtain ⟨before, after, _, hoffset⟩ := hab
  change b.input.offset ≤ a.input.offset
  omega

/-- The payload of a signal was made in a window. -/
theorem Law.Placed.payload [Payload τ ε] {x : Window τ} {g : Signal ε}
    (h : Placed x (.signal g)) : ∀ e ∈ g.payload?, MadeIn x e := by
  intro e he
  cases g with
  | error e' =>
    obtain rfl := Option.some.inj he
    exact h
  | failure e' =>
    obtain rfl := Option.some.inj he
    exact h
  | incomplete n => cases he

theorem Law.MadeIn.nested {x : Window τ} {t : Trail τ} (h : MadeIn x t) : t.Nested x := by
  obtain ⟨t', ht, he⟩ := h
  rw [he, Trail.payload_trail]
  exact ht

theorem Law.MadeIn.inside {x : Window τ} {e : Located τ} (h : MadeIn x e) : e.input.Inside x := by
  obtain ⟨t, ht, he⟩ := h
  rw [he, Trail.payload_located]
  exact ht.inside _ (List.head_mem _)

variable [Element τ]

/-- Whatever window a grammar is applied to, and in whatever state: what remains is an end of it, the
windows of the value lie inside it, and so do the places of an error, each inside the next. What is
written of an error names offsets from zero to the length of that window. -/
theorem Bindings.answers_inside (bindings : Bindings τ) (depth : Nat) (g : Grammar τ) (x : Window τ)
    (s : RunState τ (Trail τ)) (s' : RunState τ (Located τ)) :
    (match g.parser (bindings.rule depth) x s with
      | .ok (.success v rest) _ => rest.EndOf x ∧ ∀ w ∈ v.windows, w.Inside x
      | .ok (.signal sig) _ =>
        (∀ t ∈ sig.payload?, t.Nested x ∧ (t.places.map Prod.fst).Pairwise (· ≥ ·)) ∧
          sig.WrittenWithin x
      | .error _ _ => True) ∧
    (match g.parser (bindings.rule depth) x s' with
      | .ok (.success v rest) _ => rest.EndOf x ∧ ∀ w ∈ v.windows, w.Inside x
      | .ok (.signal sig) _ => (∀ e ∈ sig.payload?, e.input.Inside x) ∧ sig.WrittenWithin x
      | .error _ _ => True) := by
  have htrail : ∀ sig : Signal (Trail τ), (∀ t ∈ sig.payload?, Law.MadeIn x t) →
      (∀ t ∈ sig.payload?, t.Nested x ∧ (t.places.map Prod.fst).Pairwise (· ≥ ·)) ∧
        sig.WrittenWithin x := by
    intro sig hmade
    have hnested : ∀ t ∈ sig.payload?, t.Nested x := fun t ht => (hmade t ht).nested
    exact ⟨fun t ht => ⟨hnested t ht, (hnested t ht).offsets⟩, Trail.writtenWithin hnested⟩
  have hlocated : ∀ sig : Signal (Located τ), (∀ e ∈ sig.payload?, Law.MadeIn x e) →
      (∀ e ∈ sig.payload?, e.input.Inside x) ∧ sig.WrittenWithin x := by
    intro sig hmade
    have hinside : ∀ e ∈ sig.payload?, e.input.Inside x := fun e he => (hmade e he).inside
    exact ⟨hinside, Located.writtenWithin hinside⟩
  constructor
  · have h := bindings.obeys_positions depth g x s
    cases hr : g.parser (bindings.rule depth) x s with
    | error why t => trivial
    | ok o t =>
      rw [hr] at h
      cases o with
      | success v rest => exact h
      | signal sig => exact htrail sig (Law.Placed.payload h)
  · have h := bindings.obeys_positions depth g x s'
    cases hr : g.parser (bindings.rule depth) x s' with
    | error why t => trivial
    | ok o t =>
      rw [hr] at h
      cases o with
      | success v rest => exact h
      | signal sig => exact hlocated sig (Law.Placed.payload h)

end Reprise
