import Reprise.Parser.Integer
import Reprise.Parser.LengthPrefixed
import Reprise.Parser.Traced

/-!
# Runs, step by step

A run that begins with an application goes on with what it answers. Combinators hand failures and
the wish for more input on, so only successes and errors need a look.
-/

namespace Reprise

variable {σ τ ε α β : Type}

namespace Run

theorem bind_of_ok {m : Run σ α} {k : α → Run σ β} {s t : σ} {a : α} (h : m s = .ok a t) :
    (m >>= k) s = k a t := by
  change EStateM.bind m k s = _
  simp only [EStateM.bind, h]

theorem bind_of_error {m : Run σ α} {k : α → Run σ β} {s t : σ} {why : Stop}
    (h : m s = .error why t) : (m >>= k) s = .error why t := by
  change EStateM.bind m k s = _
  simp only [EStateM.bind, h]

end Run

/-- What follows an application hands failures and the wish for more input on. -/
structure Passes (k : Outcome τ ε α → Run σ (Outcome τ ε β)) : Prop where
  failure : ∀ e t, k (.signal (.failure e)) t = .ok (.signal (.failure e)) t
  incomplete : ∀ n t, k (.signal (.incomplete n)) t = .ok (.signal (.incomplete n)) t

theorem Passes.bind_eq {m : Run σ (Outcome τ ε α)} {k : Outcome τ ε α → Run σ (Outcome τ ε β)}
    {s t : σ} {g : Signal ε} (h : m s = .ok (.signal g) t) (hg : g.isError = false)
    (hk : Passes k := by exact ⟨fun _ _ => rfl, fun _ _ => rfl⟩) :
    (m >>= k) s = .ok (.signal g) t := by
  rw [Run.bind_of_ok h]
  cases g with
  | error e => cases hg
  | failure e => exact hk.failure e t
  | incomplete n => exact hk.incomplete n t

namespace Parser

/-- A parser that never leaves more than it got. -/
def Shrinks (p : Parser σ τ ε α) : Prop :=
  ∀ x s v rest t, p x s = .ok (.success v rest) t → rest.length ≤ x.length

theorem map_id (p : Parser σ τ ε α) : p.map (fun v => v) = p := by
  funext x
  unfold Parser.map
  refine Eq.trans ?_ (bind_pure (p x))
  refine bind_congr fun o => ?_
  cases o <;> rfl

theorem take_eq {x : Window τ} {k : Nat} (h : k ≤ x.length) :
    (take k x : Run σ (Outcome τ ε (Window τ))) = pure (.success (x.take k) (x.drop k)) := by
  simp [take, Window.split_of_le h]

/-- Announced data, where there is enough of it. -/
theorem lengthData_eq (len : Parser σ τ ε Nat) (x : Window τ) :
    lengthData len x = len x >>= fun o => match o with
      | .success n rest =>
        if rest.length < n then return .needs (n - rest.length)
        else return .success (rest.take n) (rest.drop n)
      | .signal s => return .signal s := by
  unfold lengthData
  congr 1
  funext o
  cases o with
  | signal s => rfl
  | success n rest =>
    by_cases h : rest.length < n
    · simp only [if_pos h]
    · simp [if_neg h, Window.split_of_le (Nat.le_of_not_lt h)]

variable [Payload τ ε]

theorem one_eq (x : Window τ) : (one x : Run σ (Outcome τ ε τ)) = pure (match x.elements with
    | [] => .errorAt x .eof
    | e :: _ => .success e (x.drop 1)) := by
  have hlen := x.length_eq
  unfold one Window.isEmpty
  cases he : x.elements with
  | nil => simp [hlen, he]
  | cons e es =>
    have h1 : 1 ≤ x.length := by simp [hlen, he]
    have h0 : (x.length == 0) = false := by simp [hlen, he]
    simp [h0, Window.get, he, Window.split_of_le h1]

theorem tag_eq {ρ : Type} (same : τ → ρ → Bool) (mode : Mode) (pattern : List ρ) (x : Window τ) :
    (tag same mode pattern x : Run σ (Outcome τ ε (Window τ))) = pure (
      if agree same x.elements pattern then
        if x.length < pattern.length then tooShort mode .tag pattern.length x
        else .success (x.take pattern.length) (x.drop pattern.length)
      else .errorAt x .tag) := by
  unfold tag
  by_cases ha : agree same x.elements pattern = true
  · by_cases hl : x.length < pattern.length
    · simp [ha, hl]
    · simp [ha, hl, take_eq (Nat.le_of_not_lt hl)]
  · simp [ha]

theorem shrinks_tag {ρ : Type} (same : τ → ρ → Bool) (mode : Mode) (pattern : List ρ) :
    (tag same mode pattern : Parser σ τ ε (Window τ)).Shrinks := by
  intro x s v rest t h
  rw [tag_eq] at h
  split at h
  · split at h
    · cases mode <;> cases h
    · cases h
      exact Nat.sub_le _ _
  · cases h

theorem takeWhile_length_le (test : τ → Bool) (x : Window τ) :
    (x.elements.takeWhile test).length ≤ x.length := by
  rw [x.length_eq]
  exact (List.takeWhile_prefix test).length_le

theorem takeWhile_eq (test : τ → Bool) (least : Nat) (kind : ErrorKind) (x : Window τ) :
    (takeWhile test least kind x : Run σ (Outcome τ ε (Window τ))) = pure (
      if (x.elements.takeWhile test).length < least then .errorAt x kind
      else .success (x.take (x.elements.takeWhile test).length)
        (x.drop (x.elements.takeWhile test).length)) := by
  unfold takeWhile
  by_cases h : (x.elements.takeWhile test).length < least
  · simp [h]
  · simp [h, take_eq (takeWhile_length_le test x)]

theorem shrinks_takeWhile (test : τ → Bool) (least : Nat) (kind : ErrorKind) :
    (takeWhile test least kind : Parser σ τ ε (Window τ)).Shrinks := by
  intro x s v rest t h
  rw [takeWhile_eq] at h
  split at h
  · cases h
  · cases h
    exact Nat.sub_le _ _

theorem uint_eq [Element τ] (mode : Mode) (width : Width) (order : ByteOrder) (x : Window τ) :
    (uint mode width order x : Run σ (Outcome τ ε Nat)) = pure (
      if x.length < width.bytes then tooShort mode .eof width.bytes x
      else .success (order.decode ((x.take width.bytes).elements.map Element.octet))
        (x.drop width.bytes)) := by
  unfold uint
  by_cases h : x.length < width.bytes
  · simp [h]
  · simp [h, Parser.map, take_eq (Nat.le_of_not_lt h), Outcome.map]

/-- What a body answers to announced data becomes what is answered to all of the input. -/
def afterBody (data rest : Window τ) : Outcome τ ε α → Outcome τ ε α
  | .success v _ => .success v rest
  | .signal (.incomplete _) => .errorAt data .complete
  | .signal s => .signal s

/-- A body is applied to the announced data, where there is enough of it. -/
theorem lengthValue_eq (len : Parser σ τ ε Nat) (body : Parser σ τ ε α) (x : Window τ) :
    lengthValue len body x = len x >>= fun o => match o with
      | .success n rest =>
        if rest.length < n then return .needs (n - rest.length)
        else body (rest.take n) >>= fun o => return afterBody (rest.take n) (rest.drop n) o
      | .signal s => return .signal s := by
  unfold lengthValue
  rw [lengthData_eq, bind_assoc]
  congr 1
  funext o
  cases o with
  | signal s => rfl
  | success n rest =>
    by_cases h : rest.length < n
    · simp only [if_pos h, pure_bind, Outcome.needs]
    · simp only [if_neg h, pure_bind]
      congr 1
      funext o
      rcases o with _ | _ | _ | _ <;> rfl

end Parser

/-- What is written where a traced application ends. -/
def Event.closing (name : String) (x : Window τ) : Outcome τ ε α → Event τ ε
  | .success _ rest => .success name rest
  | .signal s => .failure name x s

/-- A trace that never stops a run is written before and after an application. -/
theorem Parser.traced_eq {write : Event τ ε → Run σ Unit} {f : Event τ ε → σ → σ}
    (hwrite : ∀ event s, write event s = .ok () (f event s)) (name : String)
    (p : Parser σ τ ε α) (x : Window τ) (s : σ) :
    p.traced write name x s = match p x (f (.start name x) s) with
      | .ok o t => .ok o (f (.closing name x o) t)
      | .error why t => .error why t := by
  unfold Parser.traced
  rw [Run.bind_of_ok (hwrite _ s)]
  cases hp : p x (f (.start name x) s) with
  | error why t => exact Run.bind_of_error hp
  | ok o t =>
    rw [Run.bind_of_ok hp]
    cases o with
    | success v rest => exact Run.bind_of_ok (hwrite _ t)
    | signal g => exact Run.bind_of_ok (hwrite _ t)

end Reprise
