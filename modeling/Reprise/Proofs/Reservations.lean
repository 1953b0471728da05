import Reprise.Proofs.Containers
import Reprise.Proofs.Exactly

/-!
# Reservations

How many values there will be is announced by the input, which is not to be trusted. A container is asked for
room within a budget, once and before anything is read, and nothing that is read depends on it.
-/

namespace Reprise

variable {σ τ ε α κ : Type}

theorem clampedCapacity_le (size requested budget : Nat) :
    clampedCapacity size requested budget ≤ requested := Nat.min_le_left _ _

theorem clampedCapacity_mul_le {size : Nat} (h : 1 ≤ size) (requested budget : Nat) :
    clampedCapacity size requested budget * size ≤ budget := by
  unfold clampedCapacity
  rw [Nat.max_eq_right h]
  exact (Nat.mul_le_mul_right size (Nat.min_le_right _ _)).trans (Nat.div_mul_le_self budget size)

/-- Where less than was requested fits, not even one more would. -/
theorem clampedCapacity_eq_or_lt {size : Nat} (h : 1 ≤ size) (requested budget : Nat) :
    clampedCapacity size requested budget = requested ∨
      budget < (clampedCapacity size requested budget + 1) * size := by
  unfold clampedCapacity
  rw [Nat.max_eq_right h]
  rcases Nat.le_total requested (budget / size) with hle | hle
  · exact .inl (Nat.min_eq_left hle)
  · rw [Nat.min_eq_right hle]
    exact .inr (Nat.mul_comm _ size ▸ Nat.lt_mul_div_succ budget h)

namespace Container

/-- An empty container, with room for the announced values if there are any. -/
def prepared (into : Container α κ) : Option Nat → κ
  | some announced => into.withRoom announced
  | none => into.empty

variable (size : Nat)

/-- What was asked of a container before it takes values is all that is ever asked. -/
theorem insertAll_audited (held : Audit α) (vs : List α) :
    ((audited size).insertAll held vs).reserved = held.reserved ∧
      ((audited size).insertAll held vs).taken = held.taken + vs.length := by
  induction vs generalizing held with
  | nil => exact ⟨rfl, rfl⟩
  | cons v vs ih =>
    obtain ⟨hreserved, htaken⟩ := ih ((audited size).insert held v)
    exact ⟨hreserved, htaken.trans (Nat.add_right_comm held.taken 1 vs.length)⟩

theorem audited_prepared (announced? : Option Nat) :
    ((audited size : Container α _).prepared announced?).reserved.toList =
        (announced?.map fun n => clampedCapacity size n reservationBudget).toList ∧
      ((audited size : Container α _).prepared announced?).taken = 0 := by
  cases announced? <;> exact ⟨rfl, rfl⟩

end Container

/-- How many values a repetition announces to the container that it collects them in. -/
def Collecting.announced? : Collecting → Option Nat
  | many0 | many1 | many _ => none
  | manyBetween low high => if low ≤ high then some low else none
  | count n => some n

theorem Collecting.held_eq_prepared (times : Collecting) (into : Container α κ) :
    times.held into = into.prepared times.announced? := by
  cases times with
  | manyBetween low high =>
    by_cases h : low ≤ high
    · have hinverted : (manyBetween low high).repetition.range.inverted = false :=
        decide_eq_false (Nat.not_lt.mpr h)
      simp only [held, hinverted, announced?, if_pos h]
      rfl
    · have hinverted : (manyBetween low high).repetition.range.inverted = true :=
        decide_eq_true (Nat.lt_of_not_le h)
      simp only [held, hinverted, announced?, if_neg h]
      rfl
  | _ => rfl

variable [Payload τ ε] {p : Parser σ τ ε α} {x : Window τ} {s : σ}

/-- To collect is to make room for what is announced, once and before the child is applied at all, and then to
take the values: whatever the container, the repetition begins with the room that was made. Nothing else is asked of the
container at any of its stages, however it ends, and what it ends with does not depend on the room. -/
structure Reserves (announced? : Option Nat) (r : Repetition) (p : Parser σ τ ε α)
    (collected : {κ : Type} → Container α κ → Parser σ τ ε κ) : Prop where
  begins : ∀ {κ : Type} (into : Container α κ),
    collected into = Parser.collect r into (into.prepared announced?) p
  stages : ∀ (size : Nat) {x : Window τ} {s : σ} {ls : List (Round τ ε α)}
      {b : Stage (Container.Audit α) τ σ},
    Rounds (r.Turn p fun held v => return (Container.audited size).insert held v)
        ⟨(Container.audited size).prepared announced?, x, s⟩ ls b →
      b.held.reserved.toList =
          (announced?.map fun n => clampedCapacity size n reservationBudget).toList ∧
        b.held.taken = ls.length
  results : ∀ {κ : Type} (into : Container α κ), collected into =
    (Parser.collect r .sequence #[] p).map fun vs =>
      into.insertAll (into.prepared announced?) vs.toList

namespace Repetition

theorem ends_exactly (n : Nat) (kind : ErrorKind) : (exactly n kind).Ends := by
  intro h
  cases h

theorem reserves (announced? : Option Nat) {r : Repetition} (hends : r.Ends) (p : Parser σ τ ε α) :
    Reserves announced? r p fun into => Parser.collect r into (into.prepared announced?) p where
  begins _ := rfl
  stages size x s ls b h := by
    obtain ⟨hprepared, hnone⟩ := Container.audited_prepared (α := α) size announced?
    obtain ⟨hreserved, htaken⟩ := Container.insertAll_audited size
      ((Container.audited size).prepared announced?) (ls.map Round.value)
    rw [hnone, Nat.zero_add, List.length_map] at htaken
    rw [held_eq h]
    exact ⟨(congrArg Array.toList hreserved).trans hprepared, htaken⟩
  results into := collect_eq_map hends into _ p

/-- Exactly as many values as were asked for make a success, and all of them are taken. -/
theorem collect_exactly_iff {n : Nat} {kind : ErrorKind} {into : Container α κ} {held held' : κ}
    {rest : Window τ} {t : σ} :
    Parser.collect (exactly n kind) into held p x s = .ok (.success held' rest) t ↔
      ∃ vs, p.Gets x s vs rest t ∧ vs.length = n ∧ held' = into.insertAll held vs := by
  constructor
  · intro h
    obtain ⟨vs, ended, u, hcourse⟩ := p.exists_course n x s
    rw [collect_course hcourse kind into held] at h
    cases hcourse with
    | complete hgets hn =>
      cases h
      exact ⟨vs, hgets, hn, rfl⟩
    | tooFew | handedOn | stopped => cases h
  · rintro ⟨vs, hgets, hn, rfl⟩
    exact collect_course (.complete hgets hn) kind into held

end Repetition

theorem Collecting.reserves (times : Collecting) (p : Parser σ τ ε α) :
    Reserves times.announced? times.repetition p fun into => times.parser into p := by
  have heq {κ : Type} (into : Container α κ) : times.parser into p =
      Parser.collect times.repetition into (into.prepared times.announced?) p := by
    rw [times.parser_eq_collect, times.held_eq_prepared]
  have h := Repetition.reserves times.announced? times.ends p
  exact ⟨heq, h.stages, fun into => (heq into).trans (h.results into)⟩

namespace Parser

/-- Announced numbers do not force allocations, and what is read does not depend on them. The room that is made
for a number of values is no more than was asked for, is within the budget and is as much as fits, without
an overflow. Collecting makes room once, before anything is read, where its number of values is known before:
as many as are asked for, the least number between two bounds, or the length that was read, as far as 65536
bytes go. Otherwise it never makes room. Where it succeeds, exact numbers of values are complete, room or not. -/
theorem reserves_within_budget (p : Parser σ τ ε α) (len : Parser σ τ ε Nat) :
    (∀ size requested budget, 1 ≤ size → budget < UInt64.size →
      let capacity := clampedCapacity size requested budget
      capacity ≤ requested ∧ capacity * size ≤ budget ∧ capacity * size < UInt64.size ∧
        (capacity = requested ∨ budget < (capacity + 1) * size)) ∧
    (∀ size announced, 1 ≤ size → clampedCapacity size announced reservationBudget * size ≤ 65536) ∧
    (∀ times : Collecting, Reserves times.announced? times.repetition p fun into => times.parser into p) ∧
    (∀ {κ : Type} (into : Container α κ) n x s held rest t,
      count n into p x s = .ok (.success held rest) t ↔
        ∃ vs, p.Gets x s vs rest t ∧ vs.length = n ∧ held = into.insertAll (into.withRoom n) vs) ∧
    ∀ n, Reserves (some n) (.lengthCount n) p
        (fun into => collect (.lengthCount n) into (into.withRoom n) p) ∧
      ∀ {x s rest t}, len x s = .ok (.success n rest) t → ∀ {κ : Type} (into : Container α κ),
        lengthCount len into p x s = collect (.lengthCount n) into (into.withRoom n) p rest t ∧
        ∀ held y u, lengthCount len into p x s = .ok (.success held y) u ↔
          ∃ vs, p.Gets rest t vs y u ∧ vs.length = n ∧ held = into.insertAll (into.withRoom n) vs := by
  refine ⟨fun size requested budget hsize hbudget => ?_, fun size announced hsize => ?_,
    fun times => times.reserves p, fun into n x s held rest t => Repetition.collect_exactly_iff,
    fun n => ⟨Repetition.reserves (some n) (Repetition.ends_exactly n _) p, fun hlen _ into => ?_⟩⟩
  · have hfits := clampedCapacity_mul_le hsize requested budget
    exact ⟨clampedCapacity_le size requested budget, hfits, Nat.lt_of_le_of_lt hfits hbudget,
      clampedCapacity_eq_or_lt hsize requested budget⟩
  · exact clampedCapacity_mul_le hsize announced reservationBudget
  · have hrun : lengthCount len into p _ _ = collect (.lengthCount n) into (into.withRoom n) p _ _ :=
      Run.bind_of_ok hlen
    exact ⟨hrun, fun held y u => hrun ▸ Repetition.collect_exactly_iff⟩

/-- As many bytes as can be counted are announced, of which one is there. Room is made for two, and also where
three are there all three are taken. -/
theorem reserves_within_budget_hostile :
    let len : Parser Unit UInt8 (Trail UInt8) Nat := .uint .complete .w64 .big
    let byte : Parser Unit UInt8 (Trail UInt8) UInt8 := .one
    let into : Container UInt8 (Container.Audit UInt8) := .audited 30000
    let x : Window UInt8 := .ofList [255, 255, 255, 255, 255, 255, 255, 255, 7]
    let y : Window UInt8 := .ofList [7, 8, 9]
    clampedCapacity 30000 largestCount reservationBudget * 30000 ≤ 65536 ∧
      len x () = .ok (.success largestCount (x.drop 8)) () ∧
      (∃ b, Rounds ((Repetition.lengthCount largestCount).Turn byte fun held v => return into.insert held v)
          ⟨into.prepared (some largestCount), x.drop 8, ()⟩ [⟨[⟨0, x.drop 8, none⟩], 7⟩] b ∧
        b.held.reserved.toList = [2] ∧ b.held.taken = 1) ∧
      lengthCount len into byte x () =
        .ok (.signal (.error ⟨⟨x.drop 9, .eof⟩, [⟨x.drop 9, .lengthCount⟩]⟩)) () ∧
      count 3 into byte y () = .ok (.success ⟨#[2], 3, some 9⟩ (y.drop 3)) () ∧
      ∃ vs, byte.Gets y () vs (y.drop 3) () ∧ vs.length = 3 := by
  intro len byte into x y
  obtain ⟨-, hbudget, -, hcount, hlength⟩ := reserves_within_budget byte len
  obtain ⟨hreserves, hrun⟩ := hlength largestCount
  have hlen : len x () = .ok (.success largestCount (x.drop 8)) () := rfl
  have hturn : (Repetition.lengthCount largestCount).Turn byte (fun held v => return into.insert held v)
      ⟨into.prepared (some largestCount), x.drop 8, ()⟩ ⟨[⟨0, x.drop 8, none⟩], 7⟩
      ⟨into.insert (into.prepared (some largestCount)) 7, x.drop 9, ()⟩ := .taken rfl nofun rfl
  have hrounds := Rounds.none.more hturn
  have hcapacity : clampedCapacity 30000 largestCount reservationBudget = 2 := by decide
  obtain ⟨hreserved, htaken⟩ := hreserves.stages 30000 hrounds
  rw [Option.map_some, hcapacity] at hreserved
  have hthree : count 3 into byte y () = .ok (.success ⟨#[2], 3, some 9⟩ (y.drop 3)) () := by
    have hroom : clampedCapacity 30000 3 reservationBudget = 2 := by decide
    change collect (.count 3) into ⟨#[clampedCapacity 30000 3 reservationBudget], 0, none⟩ byte y () = _
    rw [hroom]
    rfl
  obtain ⟨vs, hgets, hvs, -⟩ := (hcount into 3 y () _ _ ()).mp hthree
  exact ⟨hbudget 30000 largestCount (by decide), hlen, ⟨_, hrounds, hreserved, htaken⟩,
    (hrun hlen into).1.trans rfl, hthree, vs, hgets, hvs⟩

end Parser

end Reprise
