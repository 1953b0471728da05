import Reprise.Parser.Many
import Reprise.Parser.ManyTill
import Reprise.Parser.SeparatedList
import Reprise.Proofs.Run

/-!
# Laws of applications

A law is a statement about single applications: about the window and the state an application starts
from, the answer it gives and the state it leaves. Its rules say how the steps of a combinator add up.
Each combinator obeys a law as soon as its children do.
-/

namespace Reprise

variable {σ τ ε α β γ κ : Type}

/-- How an application ends, whatever its value is. -/
inductive Answer (τ ε : Type) where
  | success (rest : Window τ)
  | signal (s : Signal ε)
  | stop (why : Stop)

def Outcome.answer : Outcome τ ε α → Answer τ ε
  | success _ rest => .success rest
  | signal g => .signal g

theorem Outcome.answer_eq_signal {o : Outcome τ ε α} {g : Signal ε} :
    o.answer = .signal g ↔ o = .signal g := by
  cases o <;> simp [answer]

structure Law (σ τ ε : Type) [Payload τ ε] where
  Holds : Window τ → σ → Answer τ ε → σ → Prop
  /-- The windows that the value of an application may show. -/
  Shows : Window τ → Window τ → Prop
  drop : ∀ {x s k}, k ≤ x.length → Holds x s (.success (x.drop k)) s
  needs : ∀ {x s} (n), Holds x s (.signal (.incomplete n)) s
  /-- What holds of the rest of an application holds of the whole. -/
  seq : ∀ {x y s t u a}, Holds x s (.success y) t → Holds y t a u → Holds x s a u
  /-- An error may be recovered from, by going back to where it arose. -/
  absorb : ∀ {x s t e}, Holds x s (.signal (.error e)) t → Holds x s (.success x) t
  annotate : ∀ {x s t e} (kind), Holds x s (.signal (.error e)) t →
    Holds x s (.signal (.error (Payload.append x kind e))) t
  /-- A success may be refused, as an error where it started. -/
  refuse : ∀ {x y s t} (kind), Holds x s (.success y) t →
    Holds x s (.signal (.error (Payload.ofKind x kind))) t
  /-- A body that gets a part of a window leaves what is behind the part. -/
  part_success : ∀ {x y s t n}, n ≤ x.length → Holds (x.take n) s (.success y) t →
    Holds x s (.success (x.drop n)) t
  part_error : ∀ {x s t n e}, n ≤ x.length → Holds (x.take n) s (.signal (.error e)) t →
    Holds x s (.signal (.error e)) t
  part_failure : ∀ {x s t n e}, n ≤ x.length → Holds (x.take n) s (.signal (.failure e)) t →
    Holds x s (.signal (.failure e)) t
  part_stop : ∀ {x s t n why}, n ≤ x.length → Holds (x.take n) s (.stop why) t →
    Holds x s (.stop why) t
  shows_take : ∀ x n, Shows x (x.take n)
  shows_seq : ∀ {x y s t w}, Holds x s (.success y) t → Shows y w → Shows x w
  shows_part : ∀ {x n w}, Shows (x.take n) w → Shows x w

/-- A container shows the windows of the values it took, and no others. -/
structure Container.Shows (into : Container α κ) (f : α → List (Window τ))
    (g : κ → List (Window τ)) : Prop where
  empty : g into.empty = []
  room : ∀ n, g (into.withRoom n) = []
  insert : ∀ held v, g (into.insert held v) ⊆ g held ++ f v

theorem Container.shows_counter {f : α → List (Window τ)} :
    (counter : Container α Nat).Shows f fun _ => [] where
  empty := rfl
  room _ := rfl
  insert _ _ := List.nil_subset _

namespace Law

variable [Payload τ ε] {L : Law σ τ ε}

theorem refl (x : Window τ) (s : σ) : L.Holds x s (.success x) s := by
  have h := L.drop (s := s) (Nat.zero_le x.length)
  rwa [Window.drop_zero] at h

/-- What a law says of the result of an application, and `V` of its value. -/
def Post (L : Law σ τ ε) (V : α → Prop) (x : Window τ) (s : σ) :
    EStateM.Result Stop σ (Outcome τ ε α) → Prop
  | .ok (.success v rest) t => L.Holds x s (.success rest) t ∧ V v
  | .ok (.signal g) t => L.Holds x s (.signal g) t
  | .error why t => L.Holds x s (.stop why) t

/-- All windows of a value may be shown. -/
def Shown (L : Law σ τ ε) (windows : α → List (Window τ)) (x : Window τ) (v : α) : Prop :=
  ∀ w ∈ windows v, L.Shows x w

/-- Every application of a parser obeys the law, where its values show some windows. -/
def Obeys (L : Law σ τ ε) (windows : α → List (Window τ)) (p : Parser σ τ ε α) : Prop :=
  ∀ x s, L.Post (L.Shown windows x) x s (p x s)

/-- Effects that may happen after any success. -/
structure Admits (L : Law σ τ ε) (V : α → Prop) (m : Run σ α) : Prop where
  ok : ∀ {x s y t v u}, L.Holds x s (.success y) t → m t = .ok v u →
    L.Holds x s (.success y) u ∧ V v
  stop : ∀ {x s y t why u}, L.Holds x s (.success y) t → m t = .error why u →
    L.Holds x s (.stop why) u

variable {V : α → Prop} {W : β → Prop} {x y : Window τ} {s t : σ}

/-- An application that follows a success. -/
theorem Post.seq {r : EStateM.Result Stop σ (Outcome τ ε α)} (reach : L.Holds x s (.success y) t)
    (h : L.Post V y t r) : L.Post V x s r := by
  cases r with
  | error why u => exact L.seq reach h
  | ok o u =>
    cases o with
    | success v rest => exact ⟨L.seq reach h.1, h.2⟩
    | signal g => exact L.seq reach h

theorem Post.holds {o : Outcome τ ε α} (h : L.Post V x s (.ok o t)) : L.Holds x s o.answer t := by
  cases o with
  | success v rest => exact h.1
  | signal g => exact h

theorem Post.mono {V' : α → Prop} {r : EStateM.Result Stop σ (Outcome τ ε α)}
    (h : L.Post V x s r) (hv : ∀ v, V v → V' v) : L.Post V' x s r := by
  cases r with
  | error why u => exact h
  | ok o u =>
    cases o with
    | success v rest => exact ⟨h.1, hv v h.2⟩
    | signal g => exact h

/-- A run that goes on with an application where it has got to. Only a success and an error of the
application leave something to show. -/
theorem Post.bind {m : Run σ (Outcome τ ε α)} {k : Outcome τ ε α → Run σ (Outcome τ ε β)}
    (reach : L.Holds x s (.success y) t) (h : L.Post V y t (m t))
    (success : ∀ v rest u, L.Holds y t (.success rest) u → V v →
      L.Post W x s (k (.success v rest) u))
    (error : ∀ e u, L.Holds y t (.signal (.error e)) u →
      L.Post W x s (k (.signal (.error e)) u))
    (passes : Passes k := by exact ⟨fun _ _ => rfl, fun _ _ => rfl⟩) :
    L.Post W x s ((m >>= k) t) := by
  cases hm : m t with
  | error why u =>
    rw [hm] at h
    rw [Run.bind_of_error hm]
    exact L.seq reach h
  | ok o u =>
    rw [hm] at h
    rw [Run.bind_of_ok hm]
    rcases o with ⟨v, rest⟩ | (e | e | n)
    · exact success v rest u h.1 h.2
    · exact error e u h
    · rw [passes.failure]
      exact L.seq reach h
    · rw [passes.incomplete]
      exact L.seq reach h

/-- Effects after a success, before a run goes on. -/
theorem Post.effect {m : Run σ α} {k : α → Run σ (Outcome τ ε β)} (hm : L.Admits V m)
    (reach : L.Holds x s (.success y) t)
    (next : ∀ v u, L.Holds x s (.success y) u → V v → L.Post W x s (k v u)) :
    L.Post W x s ((m >>= k) t) := by
  cases hr : m t with
  | error why u =>
    rw [Run.bind_of_error hr]
    exact hm.stop reach hr
  | ok v u =>
    rw [Run.bind_of_ok hr]
    obtain ⟨hu, hv⟩ := hm.ok reach hr
    exact next v u hu hv

theorem admits_pure {v : α} (hv : V v) : L.Admits V (pure v) where
  ok reach hr := by cases hr; exact ⟨reach, hv⟩
  stop _ hr := by cases hr

theorem admits_bind {m : Run σ α} {k : α → Run σ β} (hm : L.Admits V m)
    (hk : ∀ v, V v → L.Admits W (k v)) : L.Admits W (m >>= k) where
  ok {x s y t v u} reach hr := by
    cases hmt : m t with
    | error why u' => rw [Run.bind_of_error hmt] at hr; cases hr
    | ok v' u' =>
      rw [Run.bind_of_ok hmt] at hr
      obtain ⟨reach', hv'⟩ := hm.ok reach hmt
      exact (hk v' hv').ok reach' hr
  stop {x s y t why u} reach hr := by
    cases hmt : m t with
    | error why' u' =>
      rw [Run.bind_of_error hmt] at hr
      cases hr
      exact hm.stop reach hmt
    | ok v' u' =>
      rw [Run.bind_of_ok hmt] at hr
      obtain ⟨reach', hv'⟩ := hm.ok reach hmt
      exact (hk v' hv').stop reach' hr

variable {f : α → List (Window τ)} {g : β → List (Window τ)}

theorem obeys_map {p : Parser σ τ ε α} {F : α → β} (hp : L.Obeys f p) (hF : ∀ v, g (F v) ⊆ f v) :
    L.Obeys g (p.map F) := by
  intro x s
  unfold Parser.map
  refine Post.bind (L.refl x s) (hp x s) ?_ ?_
  · intro v rest t ht hv
    exact ⟨ht, fun w hw => hv w (hF v hw)⟩
  · intro e t ht
    exact ht

theorem obeys_opt {p : Parser σ τ ε α} {g : Option α → List (Window τ)} (hp : L.Obeys f p)
    (hnone : g none = []) (hsome : ∀ v, g (some v) ⊆ f v) : L.Obeys g p.opt := by
  intro x s
  unfold Parser.opt
  refine Post.bind (L.refl x s) (hp x s) ?_ ?_
  · intro v rest t ht hv
    exact ⟨ht, fun w hw => hv w (hsome v hw)⟩
  · intro e t ht
    refine ⟨L.absorb ht, fun w hw => ?_⟩
    rw [hnone] at hw
    cases hw

/-- Not every law lets an error become a failure. -/
theorem obeys_cut {p : Parser σ τ ε α} (hp : L.Obeys f p)
    (commit : ∀ {x s e t}, L.Holds x s (.signal (.error e)) t →
      L.Holds x s (.signal (.failure e)) t) : L.Obeys f p.cut := by
  intro x s
  unfold Parser.cut
  refine Post.bind (L.refl x s) (hp x s) ?_ ?_
  · intro v rest t ht hv
    exact ⟨ht, hv⟩
  · intro e t ht
    exact commit ht

theorem obeys_andThen {p : Parser σ τ ε α} {q : Parser σ τ ε β} {h : α × β → List (Window τ)}
    (hp : L.Obeys f p) (hq : L.Obeys g q) (hpair : ∀ v w, h (v, w) ⊆ f v ++ g w) :
    L.Obeys h (p.andThen q) := by
  intro x s
  unfold Parser.andThen
  refine Post.bind (L.refl x s) (hp x s) ?_ ?_
  · intro v rest t ht hv
    refine Post.bind ht (hq rest t) ?_ ?_
    · intro w rest' u hu hw
      refine ⟨L.seq ht hu, fun a ha => ?_⟩
      rcases List.mem_append.mp (hpair v w ha) with ha | ha
      · exact hv a ha
      · exact L.shows_seq ht (hw a ha)
    · intro e u hu
      exact L.seq ht hu
  · intro e t ht
    exact ht

theorem obeys_orElse {p q : Parser σ τ ε α} (hp : L.Obeys f p) (hq : L.Obeys f q) :
    L.Obeys f (p.orElse q) := by
  intro x s
  unfold Parser.orElse
  refine Post.bind (L.refl x s) (hp x s) ?_ ?_
  · intro v rest t ht hv
    exact ⟨ht, hv⟩
  · intro e t ht
    exact Post.seq (L.absorb ht) (hq x t)

/-- A sink that may take values after any success, and shows nothing but what it took. -/
def Takes (L : Law σ τ ε) (f : α → List (Window τ)) (g : β → List (Window τ))
    (sink : β → α → Run σ β) : Prop :=
  ∀ x held v, L.Shown g x held → L.Shown f x v → L.Admits (L.Shown g x) (sink held v)

theorem takes_pure {F : β → α → β} (hF : ∀ held v, g (F held v) ⊆ g held ++ f v) :
    L.Takes f g (fun held v => pure (F held v)) := by
  intro x held v hheld hv
  refine admits_pure fun w hw => ?_
  rcases List.mem_append.mp (hF held v hw) with hw | hw
  · exact hheld w hw
  · exact hv w hw

/-- The loop, begun at a window that a run from `x` has got to. -/
theorem post_loop {r : Repetition} {p : Parser σ τ ε α} {sink : β → α → Run σ β}
    (hp : L.Obeys f p) (hsink : L.Takes f g sink) (turns i : Nat) (held : β)
    (reach : L.Holds x s (.success y) t) (hheld : L.Shown g x held) :
    L.Post (L.Shown g x) x s (r.loop p sink turns i held y t) := by
  -- every turn starts after a success of the whole run so far
  induction turns generalizing i held y t with
  | zero => exact ⟨reach, hheld⟩
  | succ turns ih =>
    unfold Repetition.loop
    refine Post.bind reach (hp y t) ?_ ?_
    · intro v rest u hu hv
      have hshown : L.Shown f x v := fun w hw => L.shows_seq reach (hv w hw)
      by_cases hstall : (r.requireProgress && rest.length == y.length) = true
      · simp only [hstall, if_true]
        exact L.seq reach (L.refuse r.kind hu)
      · simp only [hstall]
        refine Post.effect (hsink x held v hheld hshown) (L.seq reach hu) ?_
        intro held' u' hu' hheld'
        exact ih _ held' hu' hheld'
    · intro e u hu
      by_cases hc : r.range.contains i = true
      · simp only [hc, if_true]
        exact ⟨L.seq reach (L.absorb hu), hheld⟩
      · simp only [hc]
        exact L.seq reach (L.annotate r.kind hu)

/-- Not every law lets a range without counts be a failure. -/
theorem post_run {r : Repetition} {p : Parser σ τ ε α} {sink : β → α → Run σ β} {held : β}
    (hp : L.Obeys f p) (hsink : L.Takes f g sink)
    (inverted : r.range.inverted = true →
      ∀ x s, L.Holds x s (.signal (.failure (Payload.ofKind x r.kind))) s)
    (reach : L.Holds x s (.success y) t) (hheld : L.Shown g x held) :
    L.Post (L.Shown g x) x s (r.run p sink held y t) := by
  unfold Repetition.run
  by_cases hr : r.range.inverted = true
  · simp only [hr, if_true]
    exact L.seq reach (inverted hr y t)
  · simp only [hr]
    exact post_loop hp hsink _ 0 held reach hheld

theorem shown_of_eq_nil {v : α} (hv : f v = []) : L.Shown f x v := by
  intro w hw
  rw [hv] at hw
  cases hw

theorem obeys_collect {r : Repetition} {p : Parser σ τ ε α} {into : Container α κ} {held : κ}
    {g : κ → List (Window τ)} (hp : L.Obeys f p)
    (hinto : into.Shows f g) (hheld : g held = [])
    (inverted : r.range.inverted = true →
      ∀ x s, L.Holds x s (.signal (.failure (Payload.ofKind x r.kind))) s) :
    L.Obeys g (Parser.collect r into held p) := fun x s =>
  post_run hp (takes_pure hinto.insert) inverted (L.refl x s) (shown_of_eq_nil hheld)

theorem obeys_countOver {r : Repetition} {p : Parser σ τ ε α} (hp : L.Obeys f p)
    (inverted : r.range.inverted = true →
      ∀ x s, L.Holds x s (.signal (.failure (Payload.ofKind x r.kind))) s) :
    L.Obeys (fun _ => []) (Parser.countOver r p) :=
  obeys_collect hp Container.shows_counter rfl inverted

theorem obeys_foldOver {r : Repetition} {p : Parser σ τ ε α} {init : Run σ β} {step : β → α → β}
    (hp : L.Obeys f p) (hinit : L.Admits (fun v => g v = []) init)
    (hstep : ∀ acc v, g (step acc v) ⊆ g acc ++ f v)
    (inverted : r.range.inverted = true →
      ∀ x s, L.Holds x s (.signal (.failure (Payload.ofKind x r.kind))) s) :
    L.Obeys g (Parser.foldOver r init step p) := by
  intro x s
  unfold Parser.foldOver
  refine Post.effect hinit (L.refl x s) ?_
  intro start t reach hstart
  exact post_run hp (takes_pure hstep) inverted reach (shown_of_eq_nil hstart)

theorem obeys_fill {slots : Nat} {write : Nat → α → Run σ Unit} {p : Parser σ τ ε α}
    {g : Unit → List (Window τ)} (hp : L.Obeys f p) (hg : g () = [])
    (hwrite : ∀ slot v, L.Admits (fun _ => True) (write slot v)) :
    L.Obeys g (Parser.fill slots write p) := by
  unfold Parser.fill
  have hsink : L.Takes f (fun _ : Nat => []) fun slot v => do write slot v; return slot + 1 :=
    fun x slot v _ _ => admits_bind (hwrite slot v) fun _ _ => admits_pure (shown_of_eq_nil rfl)
  refine obeys_map (f := fun _ : Nat => []) ?_ (by simp [hg])
  intro x s
  refine post_run hp hsink ?_ (L.refl x s) (shown_of_eq_nil rfl)
  intro h
  rw [Repetition.fill, Repetition.inverted_exactly] at h
  cases h

variable {q : Parser σ τ ε β}

theorem post_manyTillLoop {p : Parser σ τ ε α} {into : Container α κ}
    {g : κ → List (Window τ)} {h : β → List (Window τ)} {j : κ × β → List (Window τ)}
    (hp : L.Obeys f p) (hq : L.Obeys h q) (hpair : ∀ held v, j (held, v) ⊆ g held ++ h v)
    (hinto : into.Shows f g) (turns : Nat) (held : κ)
    (reach : L.Holds x s (.success y) t) (hheld : L.Shown g x held) :
    L.Post (L.Shown j x) x s (Parser.manyTillLoop into p q turns held y t) := by
  induction turns generalizing held y t with
  | zero => exact L.seq reach (L.refuse .manyTill (L.refl y t))
  | succ turns ih =>
    unfold Parser.manyTillLoop
    refine Post.bind reach (hq y t) ?_ ?_
    · intro v rest u hu hv
      refine ⟨L.seq reach hu, fun w hw => ?_⟩
      rcases List.mem_append.mp (hpair held v hw) with hw | hw
      · exact hheld w hw
      · exact L.shows_seq reach (hv w hw)
    · intro e u hu
      have reach := L.seq reach (L.absorb hu)
      refine Post.bind reach (hp y u) ?_ ?_
      · intro v rest u' hu' hv
        by_cases hstall : (rest.length == y.length) = true
        · simp only [hstall, if_true]
          exact L.seq reach (L.refuse .manyTill hu')
        · simp only [hstall]
          refine ih _ (L.seq reach hu') fun w hw => ?_
          rcases List.mem_append.mp (hinto.insert held v hw) with hw | hw
          · exact hheld w hw
          · exact L.shows_seq reach (hv w hw)
      · intro e u' hu'
        exact L.seq reach (L.annotate .manyTill hu')

theorem obeys_manyTill {p : Parser σ τ ε α} {into : Container α κ}
    {g : κ → List (Window τ)} {h : β → List (Window τ)} {j : κ × β → List (Window τ)}
    (hp : L.Obeys f p) (hq : L.Obeys h q) (hpair : ∀ held v, j (held, v) ⊆ g held ++ h v)
    (hinto : into.Shows f g) :
    L.Obeys j (Parser.manyTill into p q) := fun x s =>
  post_manyTillLoop hp hq hpair hinto _ _ (L.refl x s) (shown_of_eq_nil hinto.empty)

theorem post_separatedLoop {p : Parser σ τ ε α} {into : Container α κ}
    {g : κ → List (Window τ)} {h : β → List (Window τ)} (hp : L.Obeys f p) (hq : L.Obeys h q)
    (hinto : into.Shows f g) (turns : Nat) (held : κ)
    (reach : L.Holds x s (.success y) t) (hheld : L.Shown g x held) :
    L.Post (L.Shown g x) x s (Parser.separatedLoop into q p turns held y t) := by
  induction turns generalizing held y t with
  | zero => exact L.seq reach (L.refuse .separatedList (L.refl y t))
  | succ turns ih =>
    unfold Parser.separatedLoop
    refine Post.bind reach (hq y t) ?_ ?_
    · intro _ next u hu _
      by_cases hstall : (next.length == y.length) = true
      · simp only [hstall, if_true]
        exact L.seq reach (L.refuse .separatedList hu)
      · simp only [hstall]
        have reach' := L.seq reach hu
        refine Post.bind reach' (hp next u) ?_ ?_
        · intro v rest u' hu' hv
          refine ih _ (L.seq reach' hu') fun w hw => ?_
          rcases List.mem_append.mp (hinto.insert held v hw) with hw | hw
          · exact hheld w hw
          · exact L.shows_seq reach' (hv w hw)
        · intro e u' hu'
          exact ⟨L.seq reach (L.absorb (L.seq hu hu')), hheld⟩
    · intro e u hu
      exact ⟨L.seq reach (L.absorb hu), hheld⟩

theorem post_separatedRest {p : Parser σ τ ε α} {into : Container α κ} {first : α}
    {g : κ → List (Window τ)} {h : β → List (Window τ)} (hp : L.Obeys f p) (hq : L.Obeys h q)
    (hinto : into.Shows f g)
    (reach : L.Holds x s (.success y) t) (hfirst : L.Shown f x first) :
    L.Post (L.Shown g x) x s (Parser.separatedRest into q p first y t) := by
  refine post_separatedLoop hp hq hinto _ _ reach fun w hw => ?_
  have hw := hinto.insert into.empty first hw
  rw [hinto.empty, List.nil_append] at hw
  exact hfirst w hw

theorem obeys_separatedList1 {p : Parser σ τ ε α} {into : Container α κ}
    {g : κ → List (Window τ)} {h : β → List (Window τ)} (hp : L.Obeys f p) (hq : L.Obeys h q)
    (hinto : into.Shows f g) :
    L.Obeys g (Parser.separatedList1 into q p) := by
  intro x s
  unfold Parser.separatedList1
  refine Post.bind (L.refl x s) (hp x s) ?_ ?_
  · intro v rest t ht hv
    exact post_separatedRest hp hq hinto ht hv
  · intro e t ht
    exact ht

theorem obeys_separatedList0 {p : Parser σ τ ε α} {into : Container α κ}
    {g : κ → List (Window τ)} {h : β → List (Window τ)} (hp : L.Obeys f p) (hq : L.Obeys h q)
    (hinto : into.Shows f g) :
    L.Obeys g (Parser.separatedList0 into q p) := by
  intro x s
  unfold Parser.separatedList0
  refine Post.bind (L.refl x s) (hp x s) ?_ ?_
  · intro v rest t ht hv
    exact post_separatedRest hp hq hinto ht hv
  · intro e t ht
    exact ⟨L.absorb ht, shown_of_eq_nil hinto.empty⟩

variable {len : Parser σ τ ε Nat}

theorem obeys_lengthData (hlen : L.Obeys (fun _ => []) len) {g : Window τ → List (Window τ)}
    (hg : ∀ w, g w ⊆ [w]) : L.Obeys g (Parser.lengthData len) := by
  intro x s
  rw [Parser.lengthData_eq]
  refine Post.bind (L.refl x s) (hlen x s) ?_ ?_
  · intro n rest t ht _
    by_cases hn : rest.length < n
    · simp only [if_pos hn]
      exact L.seq ht (L.needs _)
    · simp only [if_neg hn]
      refine ⟨L.seq ht (L.drop (Nat.le_of_not_lt hn)), fun w hw => ?_⟩
      obtain rfl := List.mem_singleton.mp (hg _ hw)
      exact L.shows_seq ht (L.shows_take rest n)
  · intro e t ht
    exact ht

/-- Not every law lets a body's wish for more input be an error. -/
theorem obeys_lengthValue {body : Parser σ τ ε α} (hlen : L.Obeys (fun _ => []) len)
    (hbody : L.Obeys f body)
    (complete : ∀ {x s t n k}, n ≤ x.length → L.Holds (x.take n) s (.signal (.incomplete k)) t →
      L.Holds x s (.signal (.error (Payload.ofKind (x.take n) .complete))) t) :
    L.Obeys f (Parser.lengthValue len body) := by
  intro x s
  rw [Parser.lengthValue_eq]
  refine Post.bind (L.refl x s) (hlen x s) ?_ ?_
  · intro n rest t ht _
    by_cases hn : rest.length < n
    · simp only [if_pos hn]
      exact L.seq ht (L.needs _)
    · simp only [if_neg hn]
      have hn := Nat.le_of_not_lt hn
      have hb := hbody (rest.take n) t
      cases hr : body (rest.take n) t with
      | error why u =>
        rw [hr] at hb
        rw [Run.bind_of_error hr]
        exact L.seq ht (L.part_stop hn hb)
      | ok o u =>
        rw [hr] at hb
        rw [Run.bind_of_ok hr]
        rcases o with ⟨v, left⟩ | (e | e | k)
        · exact ⟨L.seq ht (L.part_success hn hb.1),
            fun w hw => L.shows_seq ht (L.shows_part (hb.2 w hw))⟩
        · exact L.seq ht (L.part_error hn hb)
        · exact L.seq ht (L.part_failure hn hb)
        · exact L.seq ht (complete hn hb)
  · intro e t ht
    exact ht

theorem obeys_lengthCount {p : Parser σ τ ε α} {into : Container α κ} {g : κ → List (Window τ)}
    (hlen : L.Obeys (fun _ => []) len) (hp : L.Obeys f p)
    (hinto : into.Shows f g) : L.Obeys g (Parser.lengthCount len into p) := by
  intro x s
  unfold Parser.lengthCount
  refine Post.bind (L.refl x s) (hlen x s) ?_ ?_
  · intro n rest t ht _
    refine post_run hp (takes_pure hinto.insert) ?_ ht (shown_of_eq_nil (hinto.room n))
    intro h
    rw [Repetition.lengthCount, Repetition.inverted_exactly] at h
    cases h
  · intro e t ht
    exact ht

/-! Primitive parsers: a state is not touched, and what remains is a drop. -/

theorem post_errorAt {kind : ErrorKind} : L.Post V x s (.ok (.errorAt x kind) s) :=
  L.refuse kind (L.refl x s)

theorem post_needs {n : Nat} : L.Post V x s (.ok (.needs n) s) := L.needs _

theorem post_tooShort {mode : Mode} {kind : ErrorKind} {wanted : Nat} :
    L.Post V x s (.ok (Parser.tooShort mode kind wanted x) s) := by
  cases mode with
  | complete => exact post_errorAt
  | streaming => exact post_needs

theorem shown_take {g : Window τ → List (Window τ)} (hg : ∀ w, g w = [w]) (n : Nat) :
    L.Shown g x (x.take n) := by
  intro w hw
  rw [hg, List.mem_singleton] at hw
  subst hw
  exact L.shows_take x n

theorem obeys_epsilon {g : Unit → List (Window τ)} (hg : g () = []) :
    L.Obeys g (Parser.epsilon : Parser σ τ ε Unit) := fun x s =>
  ⟨L.refl x s, shown_of_eq_nil hg⟩

theorem obeys_eof {g : Unit → List (Window τ)} (hg : g () = []) :
    L.Obeys g (Parser.eof : Parser σ τ ε Unit) := by
  intro x s
  unfold Parser.eof
  by_cases h : x.isEmpty = true
  · simp only [h, if_true]
    exact ⟨L.refl x s, shown_of_eq_nil hg⟩
  · simp only [h]
    exact post_errorAt

theorem obeys_one {g : τ → List (Window τ)} (hg : ∀ e, g e = []) :
    L.Obeys g (Parser.one : Parser σ τ ε τ) := by
  intro x s
  rw [Parser.one_eq]
  cases he : x.elements with
  | nil => exact post_errorAt
  | cons e es =>
    have hlen : 1 ≤ x.length := by simp [x.length_eq, he]
    exact ⟨L.drop hlen, shown_of_eq_nil (hg e)⟩

variable {g : Window τ → List (Window τ)}

theorem obeys_tag {ρ : Type} {same : τ → ρ → Bool} {mode : Mode} {pattern : List ρ}
    (hg : ∀ w, g w = [w]) : L.Obeys g (Parser.tag same mode pattern : Parser σ τ ε _) := by
  intro x s
  rw [Parser.tag_eq]
  by_cases ha : Parser.agree same x.elements pattern = true
  · by_cases hl : x.length < pattern.length
    · simp only [ha, hl, if_true]
      exact post_tooShort
    · simp only [ha, hl, if_true, if_false]
      exact ⟨L.drop (Nat.le_of_not_lt hl), shown_take hg _⟩
  · simp only [ha]
    exact post_errorAt

theorem obeys_takeWhile {test : τ → Bool} {least : Nat} {kind : ErrorKind}
    (hg : ∀ w, g w = [w]) : L.Obeys g (Parser.takeWhile test least kind : Parser σ τ ε _) := by
  intro x s
  rw [Parser.takeWhile_eq]
  by_cases h : (x.elements.takeWhile test).length < least
  · simp only [if_pos h]
    exact post_errorAt
  · simp only [if_neg h]
    exact ⟨L.drop (Parser.takeWhile_length_le test x), shown_take hg _⟩

theorem obeys_uint [Element τ] {mode : Mode} {width : Width} {order : ByteOrder}
    {g : Nat → List (Window τ)} (hg : ∀ n, g n = []) :
    L.Obeys g (Parser.uint mode width order : Parser σ τ ε Nat) := by
  intro x s
  rw [Parser.uint_eq]
  by_cases h : x.length < width.bytes
  · simp only [if_pos h]
    exact post_tooShort
  · simp only [if_neg h]
    exact ⟨L.drop (Nat.le_of_not_lt h), shown_of_eq_nil (hg _)⟩

/-- A law holds over the trace of an application if it does so over what the trace writes at both ends. -/
theorem obeys_traced {write : Event τ ε → Run σ Unit} {f : Event τ ε → σ → σ}
    (hwrite : ∀ event s, write event s = .ok () (f event s)) {windows : α → List (Window τ)}
    {p : Parser σ τ ε α} (name : String) (hp : L.Obeys windows p)
    (hstop : ∀ {x s t why}, L.Holds x (f (.start name x) s) (.stop why) t → L.Holds x s (.stop why) t)
    (hends : ∀ {x s t} (o : Outcome τ ε α), L.Holds x (f (.start name x) s) o.answer t →
      L.Holds x s o.answer (f (.closing name x o) t)) :
    L.Obeys windows (p.traced write name) := by
  intro x s
  rw [Parser.traced_eq hwrite]
  have h := hp x (f (.start name x) s)
  cases hr : p x (f (.start name x) s) with
  | error why t =>
    rw [hr] at h
    exact hstop h
  | ok o t =>
    rw [hr] at h
    have hholds := hends o h.holds
    cases o with
    | success v rest => exact ⟨hholds, h.2⟩
    | signal g => exact hholds

end Law
end Reprise
