import Reprise.Parser.Integer
import Reprise.Proofs.Link

/-!
# Longer inputs

The link between an input and the same input with further elements behind it. With no elements added it
links runs over the same input, which must then ask for the same amounts, too.
-/

namespace Reprise

variable {σ σ' τ ε ε' α α' ρ : Type}

namespace Window

/-- A window with further elements behind it. -/
def extend (w : Window τ) (y : List τ) : Window τ :=
  ⟨w.offset, w.elements ++ y, w.length + y.length, by simp [w.length_eq]⟩

@[simp] theorem offset_extend (w : Window τ) (y : List τ) : (w.extend y).offset = w.offset := rfl
@[simp] theorem elements_extend (w : Window τ) (y : List τ) :
    (w.extend y).elements = w.elements ++ y := rfl
@[simp] theorem length_extend (w : Window τ) (y : List τ) :
    (w.extend y).length = w.length + y.length := rfl

@[simp] theorem extend_nil (w : Window τ) : w.extend [] = w := by apply ext <;> simp

theorem drop_extend {w : Window τ} {k : Nat} (y : List τ) (h : k ≤ w.length) :
    (w.extend y).drop k = (w.drop k).extend y := by
  have hk : k ≤ w.elements.length := by rw [← w.length_eq]; exact h
  apply ext
  · simp only [offset_drop, length_extend, offset_extend]
    omega
  · simp [List.drop_append_of_le_length hk]

theorem take_extend {w : Window τ} {k : Nat} (y : List τ) (h : k ≤ w.length) :
    (w.extend y).take k = w.take k := by
  have hk : k ≤ w.elements.length := by rw [← w.length_eq]; exact h
  apply ext
  · rfl
  · simp [List.take_append_of_le_length hk]

end Window

namespace Parser

/-- A difference within a list stays where the list goes on. -/
theorem agree_append_of_false {same : τ → ρ → Bool} {xs : List τ} {pattern : List ρ}
    (h : agree same xs pattern = false) (y : List τ) : agree same (xs ++ y) pattern = false := by
  induction xs generalizing pattern with
  | nil => cases h
  | cons a as ih =>
    cases pattern with
    | nil => cases h
    | cons b bs =>
      simp only [List.cons_append, agree, Bool.and_eq_false_iff] at h ⊢
      exact h.imp_right ih

theorem agree_append_of_le {same : τ → ρ → Bool} {xs : List τ} {pattern : List ρ}
    (h : pattern.length ≤ xs.length) (y : List τ) :
    agree same (xs ++ y) pattern = agree same xs pattern := by
  induction xs generalizing pattern with
  | nil =>
    obtain rfl := List.length_eq_zero_iff.mp (Nat.le_zero.mp h)
    cases y <;> rfl
  | cons a as ih =>
    cases pattern with
    | nil => rfl
    | cons b bs =>
      have hle : bs.length ≤ as.length := Nat.le_of_succ_le_succ h
      simp only [List.cons_append, agree, ih hle]

end Parser

/-- The same outcome with another payload. -/
def Outcome.mapPayload (f : ε → ε') : Outcome τ ε α → Outcome τ ε' α
  | success v rest => success v rest
  | signal g => signal (g.map f)

@[simp] theorem Outcome.mapPayload_id (o : Outcome τ ε α) : o.mapPayload id = o := by
  rcases o with _ | _ | _ | _ <;> rfl

/-- Results that differ in their payloads, which a function maps, and in their states. -/
inductive Mapped (f : ε → ε') (S : σ → σ' → Prop) : EStateM.Result Stop σ (Outcome τ ε α) →
    EStateM.Result Stop σ' (Outcome τ ε' α) → Prop where
  | ok (o) {t t'} : S t t' → Mapped f S (.ok o t) (.ok (o.mapPayload f) t')
  | stop (why) {t t'} : S t t' → Mapped f S (.error why t) (.error why t')

theorem Mapped.of_ok {f : ε → ε'} {S : σ → σ' → Prop} {o : Outcome τ ε α} {t : σ}
    {r : EStateM.Result Stop σ' (Outcome τ ε' α)} (h : Mapped f S (.ok o t) r) :
    ∃ t', r = .ok (o.mapPayload f) t' ∧ S t t' := by
  cases h with
  | ok _ ht => exact ⟨_, rfl, ht⟩

theorem Mapped.eq {r r' : EStateM.Result Stop σ (Outcome τ ε α)} (h : Mapped id Eq r r') : r' = r := by
  cases h with
  | ok o ht => rw [ht, Outcome.mapPayload_id]
  | stop why ht => rw [ht]

variable [Payload τ ε] [Payload τ ε'] {y : List τ}

/-- Payloads that stay linked where one input has further elements behind it. -/
structure Extending (y : List τ) (R : ε → ε' → Prop) : Prop where
  ofKind : ∀ (x : Window τ) kind, R (Payload.ofKind x kind) (Payload.ofKind (x.extend y) kind)
  append : ∀ (x : Window τ) kind {e e'}, R e e' →
    R (Payload.append x kind e) (Payload.append (x.extend y) kind e')

/-- A function from payloads to payloads that keeps how they are made. -/
structure PayloadMap (f : ε → ε') : Prop where
  ofKind : ∀ (x : Window τ) kind, f (Payload.ofKind x kind) = Payload.ofKind x kind
  append : ∀ (x : Window τ) kind e, f (Payload.append x kind e) = Payload.append x kind (f e)

theorem PayloadMap.id : PayloadMap (τ := τ) (id : ε → ε) := ⟨fun _ _ => rfl, fun _ _ _ => rfl⟩

/-- Over the same input, payloads may be required to be images of one another. -/
theorem PayloadMap.extending {f : ε → ε'} (hf : PayloadMap (τ := τ) f) :
    Extending ([] : List τ) fun e e' => e' = f e where
  ofKind x kind := by rw [Window.extend_nil, hf.ofKind]
  append := by
    rintro x kind e _ rfl
    rw [Window.extend_nil, hf.append]

theorem Extending.id : Extending ([] : List τ) fun e e' : ε => e' = id e := PayloadMap.id.extending

namespace Link

/-- Links an input with a longer one. Where nothing is added, the same amount must be asked for. -/
def extending (S : σ → σ' → Prop) {R : ε → ε' → Prop} (hR : Extending y R) :
    Link σ σ' τ τ ε ε' where
  Input x x' := x' = x.extend y
  State := S
  Error := R
  hint n := if y.isEmpty then some n else none
  extra := y.length
  length_eq := by
    rintro x _ rfl
    rfl
  drop := by
    rintro x _ k rfl hk
    exact Window.drop_extend y hk
  ofKind := by
    rintro x _ kind rfl
    exact hR.ofKind x kind
  append := by
    rintro x _ e e' kind rfl he
    exact hR.append x kind he
  hint_size := by
    intro n n' h hpos
    cases y with
    | nil =>
      obtain rfl := Option.some.inj h
      exact ⟨rfl, hpos⟩
    | cons a y => cases h

variable {S : σ → σ' → Prop} {R : ε → ε' → Prop} {hR : Extending y R} {V : α → α' → Prop}
  {s : σ} {s' : σ'}

/-- Over the same input nothing but payloads and states may differ, unless the first run waits. -/
theorem Agree.mapped_or_waits {L : Link σ σ' τ τ ε ε'} {f : ε → ε'}
    {r : EStateM.Result Stop σ (Outcome τ ε α)} {r' : EStateM.Result Stop σ' (Outcome τ ε' α)}
    (h : L.Agree Eq r r') (hinput : ∀ {x x'}, L.Input x x' → x' = x)
    (herror : ∀ {e e'}, L.Error e e' → e' = f e) :
    Mapped f L.State r r' ∨ ∃ n t, r = .ok (.signal (.incomplete n)) t := by
  cases h with
  | success hv hrest ht =>
    obtain rfl := hv
    obtain rfl := hinput hrest
    exact .inl (.ok (.success _ _) ht)
  | error he ht =>
    obtain rfl := herror he
    exact .inl (.ok (.signal (.error _)) ht)
  | failure he ht =>
    obtain rfl := herror he
    exact .inl (.ok (.signal (.failure _)) ht)
  | incomplete _ => exact .inr ⟨_, _, rfl⟩
  | stop ht => exact .inl (.stop _ ht)

theorem Agree.mapped {f : ε → ε'} (hf : PayloadMap (τ := τ) f)
    {r : EStateM.Result Stop σ (Outcome τ ε α)} {r' : EStateM.Result Stop σ' (Outcome τ ε' α)}
    (h : (extending S hf.extending).Agree Eq r r') : Mapped f S r r' := by
  rcases h.mapped_or_waits (fun hx => hx.trans (Window.extend_nil _)) id with hmapped | ⟨n, t, rfl⟩
  · exact hmapped
  · cases h with
    | incomplete hn =>
      obtain ⟨t', rfl, ht⟩ := hn n rfl
      exact .ok (.signal (.incomplete n)) ht

/-- Who asks for more input need not agree with anything, unless the inputs are the same. -/
theorem agree_wait {n : Needed} {r' : EStateM.Result Stop σ' (Outcome τ ε' α')} (hs : S s s')
    (h : y = [] → r' = .ok (.signal (.incomplete n)) s') :
    (extending S hR).Agree V (.ok (.signal (.incomplete n)) s) r' := by
  refine .incomplete fun n' hn' => ?_
  cases y with
  | nil =>
    obtain rfl := Option.some.inj hn'
    exact ⟨s', h rfl, hs⟩
  | cons a y => cases hn'

/-- Over the same input, what differs may be the state alone. -/
theorem agree_same {R : ε → ε → Prop} (hN : Extending ([] : List τ) R) (hrefl : ∀ e, R e e)
    (o : Outcome τ ε α) (hs : S s s') : (extending S hN).Agree Eq (.ok o s) (.ok o s') := by
  rcases o with ⟨v, rest⟩ | (e | e | n)
  · exact .success rfl (Window.extend_nil rest).symm hs
  · exact .error (hrefl e) hs
  · exact .failure (hrefl e) hs
  · exact agree_wait hs fun _ => rfl

theorem agree_errorAt (x : Window τ) (kind : ErrorKind) (hs : S s s') :
    (extending S hR).Agree V (.ok (.errorAt x kind) s) (.ok (.errorAt (x.extend y) kind) s') :=
  .error (hR.ofKind x kind) hs

theorem agree_failureAt (x : Window τ) (kind : ErrorKind) (hs : S s s') :
    (extending S hR).Agree V (.ok (.failureAt x kind) s) (.ok (.failureAt (x.extend y) kind) s') :=
  .failure (hR.ofKind x kind) hs

theorem agree_drop {x : Window τ} {k : Nat} {v : α} {v' : α'} (hk : k ≤ x.length) (hv : V v v')
    (hs : S s s') : (extending S hR).Agree V (.ok (.success v (x.drop k)) s)
      (.ok (.success v' ((x.extend y).drop k)) s') :=
  .success hv (Window.drop_extend y hk) hs

/-- A too short window is an error only where nothing more can come. -/
theorem agree_tooShort {mode : Mode} (h : y = [] ∨ mode = .streaming) (kind : ErrorKind)
    (wanted : Nat) (x : Window τ) {r' : EStateM.Result Stop σ' (Outcome τ ε' α')} (hs : S s s')
    (hr' : y = [] → r' = .ok (Parser.tooShort mode kind wanted x) s') :
    (extending S hR).Agree V (.ok (Parser.tooShort mode kind wanted x) s) r' := by
  cases mode with
  | streaming => exact agree_wait hs hr'
  | complete =>
    obtain rfl : y = [] := by simpa using h
    have herror : (extending S hR).Agree V _ _ := agree_errorAt x kind hs
    rw [Window.extend_nil] at herror
    rw [hr' rfl]
    exact herror

theorem related_epsilon : (extending S hR).Related Eq Parser.epsilon Parser.epsilon :=
  fun _ _ _ _ hx hs => .success rfl hx hs

theorem related_tag (same : τ → ρ → Bool) {mode : Mode} (h : y = [] ∨ mode = .streaming)
    (pattern : List ρ) : (extending S hR).Related Eq (Parser.tag same mode pattern)
      (Parser.tag same mode pattern) := by
  rintro x _ s s' rfl hs
  rw [Parser.tag_eq, Parser.tag_eq]
  by_cases ha : Parser.agree same x.elements pattern = true
  · by_cases hl : x.length < pattern.length
    · simp only [ha, hl, if_true]
      refine agree_tooShort h .tag _ x hs fun hy => ?_
      subst hy
      simp only [Window.extend_nil, ha, hl, if_true]
      rfl
    · have hle := Nat.le_of_not_lt hl
      have ha' : Parser.agree same (x.extend y).elements pattern = true := by
        rw [Window.elements_extend, Parser.agree_append_of_le (by rw [← x.length_eq]; exact hle)]
        exact ha
      have hl' : ¬ (x.extend y).length < pattern.length := by
        rw [Window.length_extend]
        omega
      simp only [ha, ha', hl, hl', if_true, if_false]
      exact agree_drop hle (Window.take_extend y hle).symm hs
  · have ha' := Parser.agree_append_of_false (Bool.eq_false_iff.mpr ha) y
    rw [← Window.elements_extend] at ha'
    simp only [ha, ha']
    exact agree_errorAt x .tag hs

theorem related_uint [Element τ] {mode : Mode} (h : y = [] ∨ mode = .streaming) (width : Width)
    (order : ByteOrder) : (extending S hR).Related Eq (Parser.uint mode width order)
      (Parser.uint mode width order) := by
  rintro x _ s s' rfl hs
  rw [Parser.uint_eq, Parser.uint_eq]
  by_cases hl : x.length < width.bytes
  · simp only [hl, if_true]
    refine agree_tooShort h .eof _ x hs fun hy => ?_
    subst hy
    simp only [Window.extend_nil, hl, if_true]
    rfl
  · have hle := Nat.le_of_not_lt hl
    have hl' : ¬ (x.extend y).length < width.bytes := by
      rw [Window.length_extend]
      omega
    simp only [hl, hl', if_false, Window.take_extend y hle]
    exact agree_drop hle rfl hs

/-- Whatever the input is extended by and whatever is demanded, the data cut out of it for a body is the
same. -/
theorem bodies_demanding (hR : Extending y R) (hN : Extending ([] : List τ) R) {p : Parser σ τ ε α}
    {p' : Parser σ' τ ε' α'}
    (hint : Needed → Option Needed)
    (hint_size : ∀ {n n'}, hint n = some n' → 0 < n.size → n.size = n'.size + y.length ∧ 0 < n'.size)
    (hp : (extending S hN).Related V p p') :
    ((extending S hR).demanding hint hint_size).Bodies V p p' := by
  refine bodies_of_parts (extending S hN) Iff.rfl id (fun n => ⟨n, rfl⟩) ?_ hp
  rintro x _ n rfl hn
  exact (Window.take_extend y hn).trans (Window.extend_nil _).symm

theorem bodies_of_same (hN : Extending ([] : List τ) R) {p : Parser σ τ ε α} {p' : Parser σ' τ ε' α'}
    (hp : (extending S hN).Related V p p') : (extending S hR).Bodies V p p' :=
  bodies_demanding hR hN (extending S hR).hint (extending S hR).hint_size hp

/-! These look at the end of their input. -/

section Same

variable {hN : Extending ([] : List τ) R}

theorem related_one : (extending S hN).Related Eq Parser.one Parser.one := by
  rintro x _ s s' rfl hs
  rw [Parser.one_eq, Parser.one_eq]
  cases hx : x.elements with
  | nil =>
    simp only [Window.elements_extend, hx, List.append_nil]
    exact agree_errorAt x .eof hs
  | cons e es =>
    have hle : 1 ≤ x.length := by simp [x.length_eq, hx]
    simp only [Window.elements_extend, hx, List.append_nil]
    exact agree_drop hle rfl hs

theorem related_eof : (extending S hN).Related Eq Parser.eof Parser.eof := by
  rintro x _ s s' rfl hs
  unfold Parser.eof
  by_cases hx : x.isEmpty = true
  · have hx' : (x.extend []).isEmpty = true := by rw [Window.extend_nil]; exact hx
    simp only [hx, hx', if_true]
    exact .success rfl rfl hs
  · have hx' : ¬ (x.extend []).isEmpty = true := by rw [Window.extend_nil]; exact hx
    simp only [hx, hx']
    exact agree_errorAt x .eof hs

theorem related_takeWhile (test : τ → Bool) (least : Nat) (kind : ErrorKind) :
    (extending S hN).Related Eq (Parser.takeWhile test least kind)
      (Parser.takeWhile test least kind) := by
  rintro x _ s s' rfl hs
  rw [Parser.takeWhile_eq, Parser.takeWhile_eq, Window.elements_extend, List.append_nil]
  by_cases hn : (x.elements.takeWhile test).length < least
  · simp only [hn, if_true]
    exact agree_errorAt x kind hs
  · have hle := Parser.takeWhile_length_le test x
    simp only [hn, if_false]
    exact agree_drop hle (Window.take_extend [] hle).symm hs

end Same

end Link
end Reprise
