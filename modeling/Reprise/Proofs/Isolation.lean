import Reprise.Proofs.Announced
import Reprise.Proofs.Transcribed

/-!
# Isolated bodies

A body gets announced data as a source of its own. It answers as it answers to the data alone, with all
positions moved behind the length; what stands before or after the data makes no difference.
-/

namespace Reprise

variable {τ ε : Type}

/-- Windows are moved further behind. -/
def Translation.moving [Element τ] (k : Nat) : Translation τ τ where
  __ := Translation.identity τ
  window := Window.shift k
  elements_window := (Translation.identity τ).elements_window
  window_take _ _ := rfl
  window_drop w n := by
    apply Window.ext
    · exact Nat.add_right_comm _ _ _
    · rfl

/-- The same value, with all its windows further behind in a source. -/
def Value.shift [Element τ] (k : Nat) (v : Value τ) : Value τ := v.translate (.moving k)

def Located.shift (k : Nat) (e : Located τ) : Located τ := ⟨e.input.shift k, e.kind⟩

/-- Payloads whose places move along with a source. -/
class Movable (τ ε : Type) extends Payload τ ε where
  move : Nat → ε → ε
  move_ofKind : ∀ k (x : Window τ) kind,
    move k (Payload.ofKind x kind) = Payload.ofKind (x.shift k) kind
  move_append : ∀ k (x : Window τ) kind e,
    move k (Payload.append x kind e) = Payload.append (x.shift k) kind (move k e)

instance : Movable τ (Located τ) where
  move := Located.shift
  move_ofKind _ _ _ := rfl
  move_append _ _ _ _ := rfl

instance : Movable τ (Trail τ) where
  move k t := ⟨t.innermost.shift k, t.outer.map (Located.shift k)⟩
  move_ofKind _ _ _ := rfl
  move_append k x kind t := by
    change Trail.mk _ ((t.outer ++ [Located.mk x kind]).map (Located.shift k)) = _
    rw [List.map_append]
    rfl

instance : Movable τ (Outermost τ) where
  move k e := ⟨e.place.shift k⟩
  move_ofKind _ _ _ := rfl
  move_append _ _ _ _ := rfl

instance : Movable τ Tally where
  move _ t := t
  move_ofKind _ _ _ := rfl
  move_append _ _ _ _ := rfl

theorem translating_moving [Movable τ ε] [Element τ] (k : Nat) :
    Translating (.moving k : Translation τ τ) fun e e' : ε => Movable.move τ k e = e' where
  ofKind := Movable.move_ofKind k
  append := by
    rintro x kind e _ rfl
    exact Movable.move_append k x kind e

namespace Link

variable [Movable τ ε] [Element τ] {k : Nat} {V : Value τ → Value τ → Prop}

/-- The link between an input and the same input further behind in a source. -/
abbrev moving (V : Value τ → Value τ → Prop) (k : Nat) :
    Link (RunState τ ε) (RunState τ ε) τ τ ε ε :=
  translating (RunState.Alike V) (translating_moving k)

theorem related_moving_leaf {rule rule' : String → Rule τ ε} (g : Grammar τ) (hleaf : g.children = [])
    (hrule : ∀ name, g = .ref name →
      (moving V k).Related (Translation.moving k).Same (rule name) (rule' name)) :
    (moving V k).Related (Translation.moving k).Same (g.parser rule) (g.parser rule') := by
  have h : (moving V k).Related (Translation.moving k).Same (g.parser rule)
      ((g.mapElements id).parser rule') :=
    related_translated_leaf Function.injective_id g hleaf (fun _ _ _ _ => rfl) hrule
  rwa [Grammar.mapElements_id] at h

theorem universal_moving (hV : ∀ v, V v (v.shift k)) :
    (moving V k : Link (RunState τ ε) (RunState τ ε) τ τ ε ε).Universal (.moving k) where
  toGrammatical := grammatical_translating hV
  leaf g := related_moving_leaf g
  part := by
    rintro x _ n rfl _
    exact (Translation.moving k).window_take x n
  asks n := ⟨n, rfl⟩
  extra := rfl

end Link

/-- What is made of the outcome of a body over announced data, which stands `k` elements behind the start
of a source and before a tail. -/
def Outcome.enclose [Movable τ ε] [Element τ] (k : Nat) (data tail : List τ) :
    Outcome τ ε (Value τ) → Outcome τ ε (Value τ)
  | success v _ => success (v.shift k) ((Window.ofList tail).shift (k + data.length))
  | signal (.error e) => signal (.error (Movable.move τ k e))
  | signal (.failure e) => signal (.failure (Movable.move τ k e))
  | signal (.incomplete _) => errorAt ((Window.ofList data).shift k) .complete

variable [Octets τ]

/-- A body is applied to the data behind its length, wherever that stands. -/
theorem Grammar.lengthValue_uint [Payload τ ε] (rule : String → Rule τ ε) (mode : Mode) {width : Width}
    {order : ByteOrder} {x : Window τ} {n : Nat} {rest : List τ} (hn : n < 256 ^ width.bytes)
    (hx : x.elements = order.write width n ++ rest) (hrest : n ≤ rest.length) (g : Grammar τ)
    (s : RunState τ ε) :
    (lengthValue (uint mode width order) g).parser rule x s =
      (g.parser rule ((x.drop width.bytes).take n) >>= fun o => pure (Parser.afterBody
        ((x.drop width.bytes).take n) ((x.drop width.bytes).drop n) o)) s := by
  have hlength : ¬ (x.drop width.bytes).length < n := by
    rw [Window.length_drop, x.length_eq, hx, List.length_append, ByteOrder.length_write]
    omega
  have hlen := lengthOf_uint rule mode hn hx s
  change Parser.lengthValue (lengthOf ((uint mode width order).parser rule)) (g.parser rule) x s = _
  rw [Parser.lengthValue_eq, Run.bind_of_ok hlen]
  simp only [if_neg hlength]

namespace Session

variable [Movable τ ε] (s : Session τ)

/-- A grammar over data and over the same data further behind, under the same rules. What it writes is
moved, and what it leaves alone is not. -/
theorem agree_shifted (g : Grammar τ) (data : List τ) (k : Nat) :
    (Link.moving (ε := ε) (fun v v' => v' = v ∨ v' = v.shift k) k).Agree (Translation.moving k).Same
      (g.parser (s.bindings.rule recursionLimit) (.ofList data) s.initial)
      (g.parser (s.bindings.rule recursionLimit) ((Window.ofList data).shift k) s.initial) := by
  have hL := Link.universal_moving (τ := τ) (ε := ε) (k := k)
    (V := fun v v' => v' = v ∨ v' = v.shift k) fun _ => .inr rfl
  have hrelated := hL.related_grammar g fun name _ => hL.related_rule s.bindings recursionLimit name
  exact hrelated _ _ _ _ rfl ⟨.refl (fun _ => .inl rfl) _, rfl⟩

/-- A body that is given announced data is isolated. It answers as it answers to the data as a source of
its own, with every position moved by the width of the length. A success leaves exactly what follows the
data, and a body that asks for more is an error at the data. Nothing but that remainder depends on what
follows the data. -/
theorem isolates_body (mode : Mode) (width : Width) (order : ByteOrder) (g : Grammar τ)
    (data tail : List τ) (h : data.length < 256 ^ width.bytes) :
    let alone : Report τ ε × Session τ := s.run g data
    let within : Report τ ε × Session τ := s.run (.lengthValue (.uint mode width order) g)
      (order.write width data.length ++ (data ++ tail))
    within.1.outcome = alone.1.outcome.map (Outcome.enclose width.bytes data tail) ∧
      within.2.starts = alone.2.starts ∧
      alone.2.buffers.Alike (fun v v' => v' = v ∨ v' = v.shift width.bytes) within.2.buffers := by
  have hwrite := order.length_write (τ := τ) width data.length
  have hdata := Window.take_drop_ofList (order.write width data.length) data tail
  have hrest := Window.drop_drop_ofList (order.write width data.length) data tail
  rw [hwrite] at hdata hrest
  have hparse := Grammar.lengthValue_uint
    (x := .ofList (order.write width data.length ++ (data ++ tail)))
    (s.bindings.rule (ε := ε) recursionLimit) mode h rfl (by simp) g s.initial
  rw [hdata, hrest] at hparse
  have hagree := s.agree_shifted (ε := ε) g data width.bytes
  intro alone within
  unfold within alone
  rw [run_eq, run_eq]
  unfold Bindings.parser
  rw [hparse]
  generalize g.parser (s.bindings.rule (ε := ε) recursionLimit) (.ofList data) s.initial = r at hagree ⊢
  generalize hr' : g.parser (s.bindings.rule (ε := ε) recursionLimit)
    ((Window.ofList data).shift width.bytes) s.initial = r' at hagree
  cases hagree with
  | success hv _ ht =>
    obtain rfl := hv
    rw [Run.bind_of_ok hr']
    exact ⟨rfl, ht.starts.symm, ht.buffers⟩
  | error he ht =>
    obtain rfl := he
    rw [Run.bind_of_ok hr']
    exact ⟨rfl, ht.starts.symm, ht.buffers⟩
  | failure he ht =>
    obtain rfl := he
    rw [Run.bind_of_ok hr']
    exact ⟨rfl, ht.starts.symm, ht.buffers⟩
  | incomplete hn =>
    obtain ⟨t', rfl, ht⟩ := hn _ rfl
    rw [Run.bind_of_ok hr']
    exact ⟨rfl, ht.starts.symm, ht.buffers⟩
  | stop ht =>
    rw [Run.bind_of_error hr']
    exact ⟨rfl, ht.starts.symm, ht.buffers⟩

/-- A body that waits for the rest of a tag is an error at its two bytes, although the rest follows. -/
theorem isolates_body_waiting :
    let g : Grammar UInt8 := .lengthValue (.uint .streaming .w16 .little) (.tag .streaming (.own [5, 1, 2]))
    (empty.run g [2, 0, 5, 1, 2, 9] : Report UInt8 (Located UInt8) × Session UInt8).1.outcome =
      .ok (.errorAt ⟨2, [5, 1], 2, rfl⟩ .complete) := by
  intro g
  have h := isolates_body (τ := UInt8) (ε := Located UInt8) empty .streaming .w16 .little
    (.tag .streaming (.own [5, 1, 2])) [5, 1] [2, 9] (by decide)
  exact h.1

end Session

end Reprise
