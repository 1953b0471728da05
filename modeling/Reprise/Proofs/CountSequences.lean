import Mathlib.Data.List.Iterate
import Reprise.Proofs.AllowedCounts

/-!
# Sequences of counts

A sequence of counts is left where a count equals its limit and nowhere else, and counts stay at the largest one.
So all depends on no step leading past the limit. From zero on, each count below the limit comes once, in order,
and then the end. A loop that starts behind the limit never meets it, nor does one that saturates.
-/

namespace Reprise.Counts

variable {c : Counts} {limit start n : Nat} {visited : List Nat}

/-- The sequence with a limit of 64 bits. One that saturates goes on, whatever its limit is. -/
def ofLimit (limit : UInt64) (saturating : Bool) : Counts :=
  if saturating then .endless else .upTo limit.toNat

/-- A loop over a sequence, from a count on: the counts it visits before it is at the end. -/
inductive Traverses (c : Counts) : Nat → List Nat → Prop where
  | ended {n : Nat} : c.atEnd n = true → Traverses c n []
  | further {n : Nat} {visited : List Nat} : c.goesOn n = true → Traverses c (next n) visited →
    Traverses c n (n :: visited)

theorem atEnd_upTo : (upTo limit).atEnd n = true ↔ n = limit := by simp [atEnd, goesOn]

theorem goesOn_upTo : (upTo limit).goesOn n = true ↔ n ≠ limit := by simp [goesOn]

theorem atEnd_ofLimit (limit : UInt64) (saturating : Bool) :
    (ofLimit limit saturating).atEnd n = true ↔ saturating = false ∧ n = limit.toNat := by
  cases saturating <;> simp [ofLimit, atEnd, goesOn]

theorem le_next (n : Nat) : n ≤ next n := by
  unfold next
  split <;> omega

/-- Below a limit, a step leads to the very next count. It is the limit or another one below it. -/
theorem next_of_lt (hlimit : limit ≤ largestCount) (h : n < limit) : next n = n + 1 := by
  have hn : n ≠ largestCount := by omega
  simp [next, hn]

/-- So many steps lead so far, but not past the largest count. -/
theorem iterate_next (h : start ≤ largestCount) (k : Nat) : next^[k] start = after (start + k) := by
  induction k with
  | zero => exact (after_of_le h).symm
  | succ k ih => rw [Function.iterate_succ_apply', ih, next_after, Nat.add_assoc]

theorem iterate_next_zero (k : Nat) : next^[k] 0 = min k largestCount := by
  rw [iterate_next (Nat.zero_le _), Nat.zero_add, after]

/-- Counts do not shrink, so that a limit they start behind is never met. -/
theorem atEnd_behind (h : limit < start) (k : Nat) : (upTo limit).atEnd (next^[k] start) = false := by
  have hle : start ≤ next^[k] start := Function.id_le_iterate_of_id_le le_next k start
  have hlt : limit < next^[k] start := h.trans_le hle
  exact Bool.eq_false_iff.mpr (mt atEnd_upTo.mp hlt.ne')

/-- A loop ends where so many steps as it visits counts have led it. -/
theorem Traverses.atEnd (h : c.Traverses start visited) : c.atEnd (next^[visited.length] start) = true := by
  induction h with
  | ended hend => exact hend
  | further _ _ ih => exact ih

/-- The first counts of a sequence are the first of those that a loop visits. -/
theorem Traverses.visit_eq (h : c.Traverses start visited) (k : Nat) : c.visit k start = visited.take k := by
  induction h generalizing k with
  | @ended n hend =>
    have hstops : c.goesOn n = false := by simpa [Counts.atEnd] using hend
    cases k <;> simp [visit, hstops]
  | further hgoes _ ih => cases k <;> simp [visit, hgoes, ih]

/-- A loop up to a limit ends just when it does not start behind it, and visits all counts on the way. -/
theorem traverses_upTo_iff (hlimit : limit ≤ largestCount) :
    (upTo limit).Traverses start visited ↔ start ≤ limit ∧ visited = List.range' start (limit - start) := by
  constructor
  · intro h
    induction h with
    | @ended n hend =>
      obtain rfl := atEnd_upTo.mp hend
      simp
    | @further n visited hgoes _ ih =>
      obtain ⟨hle, hvisited⟩ := ih
      have hlt : n < limit := Nat.lt_of_le_of_ne ((le_next n).trans hle) (goesOn_upTo.mp hgoes)
      rw [next_of_lt hlimit hlt] at hvisited
      have hleft : limit - n = limit - (n + 1) + 1 := by omega
      exact ⟨hlt.le, by rw [hleft, List.range'_succ, hvisited]⟩
  · rintro ⟨hle, rfl⟩
    -- by the number of counts that are left
    induction hleft : limit - start generalizing start with
    | zero => exact .ended (atEnd_upTo.mpr (by omega))
    | succ left ih =>
      have hlt : start < limit := by omega
      refine .further (goesOn_upTo.mpr hlt.ne) ?_
      rw [next_of_lt hlimit hlt]
      exact ih (by omega) (by omega)

theorem traverses_zero_iff (limit : UInt64) :
    (upTo limit.toNat).Traverses 0 visited ↔ visited = List.range limit.toNat := by
  rw [traverses_upTo_iff (Bounds.toNat_le_largestCount limit), Nat.sub_zero, ← List.range_eq_range',
    and_iff_right (Nat.zero_le _)]

/-- A loop that is at its end after no number of steps does not end. -/
theorem not_traverses (h : ∀ k, c.atEnd (next^[k] start) = false) : ¬ c.Traverses start visited :=
  fun htraverses => Bool.false_ne_true ((h visited.length).symm.trans htraverses.atEnd)

theorem visit_endless (k start : Nat) : endless.visit k start = (List.range k).map fun n => next^[n] start := by
  rw [List.range_map_iterate]
  induction k generalizing start with
  | zero => rfl
  | succ k ih => simp [visit, goesOn, ih]

/-- At every count, a sequence of either kind is at its end or goes on; only one that does not saturate is at its
end somewhere, namely at its limit. A loop over such a sequence visits all counts below the limit, whichever count
that is, in order, and then ends, and a repetition over the sequence has a turn for each of them. A sequence that
saturates is never at its end, and its counts grow up to the largest one. And from behind its limit, any sequence
goes on for ever. -/
theorem sequences_enumerate (limit : UInt64) :
    (∀ (saturating : Bool) (count : UInt64),
      ((ofLimit limit saturating).atEnd count.toNat = true ↔
        ¬ (ofLimit limit saturating).goesOn count.toNat = true) ∧
      ((ofLimit limit saturating).atEnd count.toNat = true ↔ saturating = false ∧ count = limit)) ∧
    ((∀ visited, (ofLimit limit false).Traverses 0 visited ↔ visited = List.range limit.toNat) ∧
      (∀ k, (ofLimit limit false).visit k 0 = (List.range limit.toNat).take k) ∧
      (∀ k ≤ limit.toNat, next^[k] 0 = k ∧
        ((ofLimit limit false).atEnd (next^[k] 0) = true ↔ k = limit.toNat)) ∧
      ∀ visited available, (ofLimit limit false).Traverses 0 visited →
        (ofLimit limit false).turns available = visited.length) ∧
    ((∀ k, next^[k] 0 = min k largestCount ∧ (ofLimit limit true).atEnd (next^[k] 0) = false) ∧
      (∀ k, (ofLimit limit true).visit k 0 = (List.range k).map fun n => min n largestCount) ∧
      ∀ visited, ¬ (ofLimit limit true).Traverses 0 visited) ∧
    ∀ start : UInt64, limit < start → (∀ k, (ofLimit limit false).atEnd (next^[k] start.toNat) = false) ∧
      ∀ visited, ¬ (ofLimit limit false).Traverses start.toNat visited := by
  have hendless (k : Nat) : (ofLimit limit true).atEnd (next^[k] 0) = false := rfl
  have hbehind (start : UInt64) (h : limit < start) (k : Nat) :
      (ofLimit limit false).atEnd (next^[k] start.toNat) = false :=
    atEnd_behind (UInt64.lt_iff_toNat_lt.mp h) k
  refine ⟨fun saturating count => ⟨?_, ?_⟩,
    ⟨fun _ => traverses_zero_iff limit, fun k => ?_, fun k hk => ?_, fun visited available h => ?_⟩,
    ⟨fun k => ⟨iterate_next_zero k, hendless k⟩, fun k => ?_, fun _ => not_traverses hendless⟩,
    fun start h => ⟨hbehind start h, fun _ => not_traverses (hbehind start h)⟩⟩
  · simp [atEnd]
  · rw [atEnd_ofLimit, UInt64.toNat_inj]
  · exact ((traverses_zero_iff limit).mpr rfl).visit_eq k
  · have hle : k ≤ largestCount := hk.trans (Bounds.toNat_le_largestCount limit)
    have hk' : next^[k] 0 = k := by rw [iterate_next_zero, Nat.min_eq_left hle]
    rw [hk']
    exact ⟨rfl, atEnd_upTo⟩
  · rw [(traverses_zero_iff limit).mp h, List.length_range]
    rfl
  · rw [← funext iterate_next_zero]
    exact visit_endless k 0

/-- The largest limit there is, which is met although counts stay there, and a limit with a start behind it. -/
theorem sequences_enumerate_largest :
    let largest : UInt64 := -1
    let longest := ofLimit largest false
    let short := ofLimit 2 false
    (longest.Traverses 0 (List.range largestCount) ∧ longest.turns 0 = (List.range largestCount).length ∧
      largestCount ≤ largest.toNat ∧ longest.atEnd (next^[largestCount] 0) = true) ∧
    (2 : UInt64) < 5 ∧ (∀ k, short.atEnd (next^[k] 5) = false) ∧ ¬ short.Traverses 5 [5, 6, 7] := by
  intro largest longest short
  have hlargest : largest.toNat = largestCount := rfl
  obtain ⟨-, ⟨htraverses, -, hend, hturns⟩, -⟩ := sequences_enumerate largest
  have hall : longest.Traverses 0 (List.range largestCount) := (htraverses _).mpr (hlargest ▸ rfl)
  have hbehind : (2 : UInt64) < 5 := by decide
  obtain ⟨-, -, -, hnever⟩ := sequences_enumerate 2
  obtain ⟨hgoes, hnone⟩ := hnever 5 hbehind
  exact ⟨⟨hall, hturns _ 0 hall, hlargest.ge, (hend largestCount hlargest.ge).2.mpr hlargest.symm⟩, hbehind, hgoes,
    hnone _⟩

end Reprise.Counts
