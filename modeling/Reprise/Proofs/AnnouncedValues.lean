import Reprise.Proofs.Announced
import Reprise.Proofs.Exactly
import Reprise.Proofs.ReadBack

/-!
# Announced values

As many values as a number before them says. What is written value by value behind the number of values is
read back, also where values take nothing, and a value that is missing is an error at its place.
-/

namespace Reprise

variable {σ τ ε α γ κ : Type}

namespace Parser

/-- Values that are read wherever they stand are got one after the other. -/
theorem gets_written {p : Parser σ τ ε α} {view : α → γ} {written : γ → List τ} {vs : List γ}
    (hreads : ∀ v ∈ vs, ∀ behind, p.Reads view (written v) behind v) {behind : List τ} {x : Window τ}
    (hx : x.elements = vs.flatMap written ++ behind) (s : σ) :
    ∃ as t, p.Gets x s as (x.drop (vs.flatMap written).length) t ∧ as.map view = vs := by
  induction vs generalizing x s with
  | nil =>
    refine ⟨[], s, ?_, rfl⟩
    rw [List.flatMap_nil, List.length_nil, Window.drop_zero]
    exact .none
  | cons v vs ih =>
    rw [List.flatMap_cons, List.append_assoc] at hx
    obtain ⟨a, t, hp, ha⟩ := hreads v (.head vs) _ x s hx
    have hrest : (x.drop (written v).length).elements = vs.flatMap written ++ behind := by
      rw [Window.elements_drop, hx, List.drop_left]
    obtain ⟨as, u, hgets, has⟩ := ih (fun w hw => hreads w (.tail v hw)) hrest t
    refine ⟨a :: as, u, ?_, by rw [List.map_cons, ha, has]⟩
    rw [List.flatMap_cons, List.length_append, ← Window.drop_drop]
    exact .more hp hgets

variable [Payload τ ε] [Octets τ] {mode : Mode} {width : Width} {order : ByteOrder} {x : Window τ}
  {s : σ} {p : Parser σ τ ε α} {n : Nat}

/-- Behind a number, that many values are asked for. -/
theorem lengthCount_of_written (hn : n < 256 ^ width.bytes) {behind : List τ}
    (hx : x.elements = order.write width n ++ behind) {vs : List α}
    {ended : Except Stop (Ending τ ε α)} {u : σ} (h : p.Course n (x.drop width.bytes) s vs ended u)
    (into : Container α κ) : lengthCount (uint mode width order) into p x s =
      Ending.result (x.drop width.bytes) .lengthCount (into.insertAll (into.withRoom n)) ended u :=
  (Run.bind_of_ok (uint_of_written mode hn hx s)).trans
    (Repetition.collect_course h .lengthCount into (into.withRoom n))

/-- Values that are written behind their number are read back, if each of them is read wherever it stands,
and nothing of what follows is taken. Where a parser errs before it got as many values as were announced,
its error is handed on from the place of the missing value, and the values before it are no result. -/
theorem lengthCount_reads_back (mode : Mode) (width : Width) (order : ByteOrder) (into : Container α κ)
    (p : Parser σ τ ε α) (x : Window τ) (s : σ) :
    let announced := lengthCount (uint mode width order) into p x s
    (∀ {γ : Type} (view : α → γ) (written : γ → List τ) (vs : List γ) (behind : List τ),
      (∀ v ∈ vs, ∀ behind, p.Reads view (written v) behind v) → vs.length < 256 ^ width.bytes →
      x.elements = order.write width vs.length ++ (vs.flatMap written ++ behind) →
      ∃ as rest t, announced =
          .ok (.success (into.insertAll (into.withRoom vs.length) as) rest) t ∧
        as.map view = vs ∧ rest.elements = behind ∧
        rest = x.drop (width.bytes + (vs.flatMap written).length)) ∧
    ∀ n behind vs y t e u, n < 256 ^ width.bytes → x.elements = order.write width n ++ behind →
      p.Gets (x.drop width.bytes) s vs y t → vs.length < n → p y t = .ok (.signal (.error e)) u →
      announced = .ok (.signal (.error (Payload.append y .lengthCount e))) u := by
  intro announced
  constructor
  · intro γ view written vs behind hreads hvs hx
    have hrest : (x.drop width.bytes).elements = vs.flatMap written ++ behind := by
      rw [Window.elements_drop, hx, List.drop_left' (order.length_write width _)]
    obtain ⟨as, t, hgets, has⟩ := gets_written hreads hrest s
    have hlength : as.length = vs.length := by rw [← has, List.length_map]
    refine ⟨as, _, t, lengthCount_of_written hvs hx (.complete hgets hlength) into, has, ?_,
      Window.drop_drop x _ _⟩
    rw [Window.elements_drop, hrest, List.drop_left]
  · intro n behind vs y t e u hn hx hgets hfew herror
    exact lengthCount_of_written hn hx (.tooFew hgets hfew herror) into

/-- Three values that take nothing are read behind their number. Of three bytes one is missing. -/
theorem lengthCount_reads_back_missing :
    let x : Window UInt8 := .ofList [3, 0, 8, 9]
    let announced {α : Type} (p : Parser Unit UInt8 (Trail UInt8) α) :=
      lengthCount (uint .complete .w16 .little) .sequence p x ()
    (∃ rest, announced epsilon = .ok (.success #[(), (), ()] rest) () ∧ rest.elements = [8, 9]) ∧
      announced one = .ok (.signal (.error ⟨⟨x.drop 4, .eof⟩, [⟨x.drop 4, .lengthCount⟩]⟩)) () := by
  intro x announced
  have hreads (v : Unit) (behind : List UInt8) :
      (epsilon : Parser Unit UInt8 (Trail UInt8) Unit).Reads id [] behind v :=
    fun y s _ => ⟨(), s, by rw [List.length_nil, Window.drop_zero]; rfl, rfl⟩
  constructor
  · obtain ⟨as, rest, t, hrun, has, hrest, -⟩ :=
      (lengthCount_reads_back .complete .w16 .little .sequence epsilon x ()).1 id (fun _ => [])
        [(), (), ()] [8, 9] (fun v _ => hreads v) (by decide) rfl
    obtain rfl : as = [(), (), ()] := by rwa [List.map_id] at has
    exact ⟨rest, hrun, hrest⟩
  · exact (lengthCount_reads_back .complete .w16 .little .sequence one x ()).2 3 [8, 9] [8, 9] (x.drop 4) ()
      _ () (by decide) rfl (.more rfl (.more rfl .none)) (by decide) rfl

end Parser

end Reprise
