import Reprise.Proofs.GrammarLaw
import Reprise.Proofs.Trail

/-!
# Positions

What remains of a window is an end of it, the windows in a value are parts of it, and so are the places
that an error passed, each of them a part of the next one. Hence the offsets that are written down for a
reader lie between the two ends of the window a parser was applied to.
-/

namespace Reprise

variable {σ τ ε : Type}

namespace Window

/-- A part of a window, at the offset where it stands in the window. -/
def Inside (v w : Window τ) : Prop :=
  ∃ before after, w.elements = before ++ (v.elements ++ after) ∧ v.offset = w.offset + before.length

/-- A part that reaches to the end. -/
def EndOf (v w : Window τ) : Prop :=
  ∃ before, w.elements = before ++ v.elements ∧ v.offset = w.offset + before.length

theorem Inside.refl (w : Window τ) : w.Inside w := ⟨[], [], by simp, rfl⟩

theorem Inside.trans {u v w : Window τ} (huv : u.Inside v) (hvw : v.Inside w) : u.Inside w := by
  obtain ⟨a, b, huv, hu⟩ := huv
  obtain ⟨c, d, hvw, hv⟩ := hvw
  refine ⟨c ++ a, b ++ d, ?_, ?_⟩
  · rw [hvw, huv]
    simp only [List.append_assoc]
  · rw [hu, hv, List.length_append]
    omega

theorem EndOf.trans {u v w : Window τ} (huv : u.EndOf v) (hvw : v.EndOf w) : u.EndOf w := by
  obtain ⟨a, huv, hu⟩ := huv
  obtain ⟨c, hvw, hv⟩ := hvw
  refine ⟨c ++ a, ?_, ?_⟩
  · rw [hvw, huv, List.append_assoc]
  · rw [hu, hv, List.length_append]
    omega

theorem EndOf.inside {v w : Window τ} (h : v.EndOf w) : v.Inside w := by
  obtain ⟨before, helements, hoffset⟩ := h
  exact ⟨before, [], by rw [helements, List.append_nil], hoffset⟩

theorem EndOf.length_le {v w : Window τ} (h : v.EndOf w) : v.length ≤ w.length := by
  obtain ⟨before, helements, _⟩ := h
  rw [v.length_eq, w.length_eq, helements, List.length_append]
  omega

theorem endOf_drop (w : Window τ) (k : Nat) : (w.drop k).EndOf w := by
  refine ⟨w.elements.take k, (List.take_append_drop k w.elements).symm, ?_⟩
  rw [offset_drop, List.length_take, w.length_eq]

theorem inside_take (w : Window τ) (k : Nat) : (w.take k).Inside w :=
  ⟨[], w.elements.drop k, (List.take_append_drop k w.elements).symm, rfl⟩

/-- A part starts between the two ends of a window. -/
theorem Inside.distance {v w : Window τ} (h : v.Inside w) :
    ∃ n : Nat, n ≤ w.length ∧ w.distance v = n := by
  obtain ⟨before, after, helements, hoffset⟩ := h
  refine ⟨before.length, ?_, ?_⟩
  · rw [w.length_eq, helements, List.length_append]
    omega
  · unfold Window.distance
    omega

end Window

/-- The places of a trail are parts of a window, each of them a part of all later ones. -/
structure Trail.Nested (t : Trail τ) (x : Window τ) : Prop where
  inside : ∀ place ∈ t.entries, place.input.Inside x
  inner : t.entries.Pairwise fun a b => a.input.Inside b.input

namespace Trail

theorem Nested.of_inside {t : Trail τ} {x y : Window τ} (h : t.Nested y) (hy : y.Inside x) :
    t.Nested x where
  inside place hplace := (h.inside place hplace).trans hy
  inner := h.inner

theorem nested_ofKind {x y : Window τ} (kind : ErrorKind) (hy : y.Inside x) :
    (Payload.ofKind y kind : Trail τ).Nested x where
  inside place hplace := by
    rw [entries_ofKind, List.mem_singleton] at hplace
    rw [hplace]
    exact hy
  inner := List.pairwise_singleton _ _

/-- All places so far are parts of the window where an error is annotated. -/
theorem Nested.annotate {t : Trail τ} {x : Window τ} (h : t.Nested x) (kind : ErrorKind) :
    (Payload.append x kind t).Nested x where
  inside place hplace := by
    rw [entries_append, List.mem_append, List.mem_singleton] at hplace
    rcases hplace with hplace | rfl
    · exact h.inside place hplace
    · exact Window.Inside.refl x
  inner := by
    rw [entries_append, List.pairwise_append]
    refine ⟨h.inner, List.pairwise_singleton _ _, fun a ha b hb => ?_⟩
    obtain rfl := List.mem_singleton.mp hb
    exact h.inside a ha

end Trail

namespace Law

variable [Payload τ ε]

/-- A payload made of places in a window. -/
def MadeIn (x : Window τ) (e : ε) : Prop := ∃ t : Trail τ, t.Nested x ∧ e = t.payload

theorem MadeIn.of_inside {x y : Window τ} {e : ε} (h : MadeIn y e) (hy : y.Inside x) :
    MadeIn x e := by
  obtain ⟨t, ht, rfl⟩ := h
  exact ⟨t, ht.of_inside hy, rfl⟩

theorem madeIn_ofKind {x y : Window τ} (kind : ErrorKind) (hy : y.Inside x) :
    MadeIn x (Payload.ofKind y kind : ε) :=
  ⟨Payload.ofKind y kind, Trail.nested_ofKind kind hy, (Trail.payload_ofKind y kind).symm⟩

theorem MadeIn.annotate {x : Window τ} {e : ε} (h : MadeIn x e) (kind : ErrorKind) :
    MadeIn x (Payload.append x kind e) := by
  obtain ⟨t, ht, rfl⟩ := h
  exact ⟨Payload.append x kind t, ht.annotate kind, (Trail.payload_append x kind t).symm⟩

/-- What an answer may say about a window. -/
def Placed (x : Window τ) : Answer τ ε → Prop
  | .success rest => rest.EndOf x
  | .signal (.error e) => MadeIn x e
  | .signal (.failure e) => MadeIn x e
  | .signal (.incomplete _) => True
  | .stop _ => True

theorem Placed.of_inside {x y : Window τ} {g : Signal ε} (h : Placed y (.signal g))
    (hy : y.Inside x) : Placed x (.signal g) := by
  cases g with
  | error e => exact MadeIn.of_inside h hy
  | failure e => exact MadeIn.of_inside h hy
  | incomplete n => trivial

theorem Placed.seq {x y : Window τ} {a : Answer τ ε}
    (hy : Placed x (.success y : Answer τ ε)) (ha : Placed y a) : Placed x a := by
  cases a with
  | success rest => exact Window.EndOf.trans ha hy
  | signal g => exact ha.of_inside (Window.EndOf.inside hy)
  | stop why => trivial

/-- Answers stay inside the window a parser was applied to. -/
def positions : Law σ τ ε where
  Holds x _ a _ := Placed x a
  Shows x w := w.Inside x
  drop {x _ k} _ := x.endOf_drop k
  needs _ := trivial
  seq := Placed.seq
  absorb {x _ _ _} _ := by
    have h := x.endOf_drop 0
    rwa [Window.drop_zero] at h
  annotate kind h := MadeIn.annotate h kind
  refuse {x _ _ _} kind _ := madeIn_ofKind kind (Window.Inside.refl x)
  part_success {x _ _ _ n} _ _ := x.endOf_drop n
  part_error {x _ _ n _} _ h := MadeIn.of_inside h (x.inside_take n)
  part_failure {x _ _ n _} _ h := MadeIn.of_inside h (x.inside_take n)
  part_stop _ _ := trivial
  shows_take := Window.inside_take
  shows_seq h hw := Window.Inside.trans hw (Window.EndOf.inside h)
  shows_part {x n _} hw := Window.Inside.trans hw (x.inside_take n)

theorem positions_universal : (positions : Law (RunState τ ε) τ ε).Universal where
  toGrammatical := Blind.grammatical (fun _ _ h => h) fun {x _ _ n _} _ _ =>
    madeIn_ofKind .complete (x.inside_take n)
  commit h := h
  fail x _ kind := madeIn_ofKind kind (Window.Inside.refl x)
  stop _ _ _ := trivial

end Law

variable [Payload τ ε] [Element τ]

theorem Bindings.obeys_positions (bindings : Bindings τ) (depth : Nat) (g : Grammar τ) :
    Law.positions.Obeys Value.windows
      (g.parser (bindings.rule depth) : Rule τ ε) :=
  Law.obeys_grammar Law.positions_universal (Law.obeys_rule Law.positions_universal bindings depth) g

/-- No grammar leaves more than it got. -/
theorem Bindings.shrinks (bindings : Bindings τ) (depth : Nat) (g : Grammar τ) :
    (g.parser (bindings.rule depth) : Rule τ ε).Shrinks := by
  intro x s v rest t hr
  have h := bindings.obeys_positions depth g x s
  rw [hr] at h
  exact Window.EndOf.length_le h.1

end Reprise
