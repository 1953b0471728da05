import Reprise.Proofs.Footprint

/-!
# Independent applications

A session answers by what the applied name reaches, and by nothing else: neither what was bound, copied or
applied before nor what is in the buffers shows. An application leaves the bindings alone, and all buffers
that it has no use for.
-/

namespace Reprise

variable {τ ε : Type}

namespace Grammar

/-- A row that is there stays as it is when a grammar is built. -/
theorem slots?_layOut (g : Grammar τ) {b : Buffers τ} {name : String} {n : Nat}
    (h : b.slots? name = some n) : (g.layOut b).slots? name = some n := by
  induction g generalizing b with
  | opt p ih | cut p ih | boxed p ih | map _ p ih | collect _ _ p ih | many0Count p ih
  | many1Count p ih | fold _ _ _ p ih | lengthData p ih | trace _ p ih => exact ih h
  | manyTill _ q p ihq ihp | separatedList0 _ q p ihq ihp | separatedList1 _ q p ihq ihp
  | lengthValue q p ihq ihp | lengthCount _ q p ihq ihp | andThen q p ihq ihp | orElse q p ihq ihp =>
    exact ihp (ihq h)
  | fill row slots p ih => exact ih (b.slots?_make row slots h)
  | _ => exact h

/-- A grammar is built with all rows that it fills. -/
theorem exists_slots_layOut {g : Grammar τ} {name : String} (h : g.Fills name) (b : Buffers τ) :
    ∃ n, (g.layOut b).slots? name = some n := by
  obtain ⟨slots, p, hoccurs⟩ := h
  induction hoccurs generalizing b with
  | here =>
    obtain ⟨n, hn⟩ := Option.isSome_iff_exists.mp (b.slots?_make_self name slots)
    exact ⟨n, p.slots?_layOut hn⟩
  | @under r g hr _ ih =>
    cases g with
    | opt _ | cut _ | boxed _ | map _ _ | collect _ _ _ | many0Count _ | many1Count _ | fold _ _ _ _
    | lengthData _ | fill _ _ _ | trace _ _ =>
      obtain rfl := List.mem_singleton.mp hr
      exact ih _
    | manyTill _ _ p | separatedList0 _ _ p | separatedList1 _ _ p | lengthValue _ p
    | lengthCount _ _ p | andThen _ p | orElse _ p =>
      rcases List.mem_pair.mp hr with rfl | rfl
      · obtain ⟨n, hn⟩ := ih b
        exact ⟨n, p.slots?_layOut hn⟩
      · exact ih _
    | _ => cases hr

end Grammar

namespace Session

/-- Sessions that are alike as far as a name reaches in the first one. -/
structure Resembles (s s' : Session τ) (name : String) : Prop where
  lookup_eq : ∀ n, s.bindings.Reaches name n → s'.bindings.lookup n = s.bindings.lookup n
  size_eq : ∀ b, (s.bindings.footprint name).buffers b → s.buffers.size b = s'.buffers.size b
  starts_eq : (s.bindings.footprint name).starts → s.starts = s'.starts

section

variable [Payload τ ε] [Element τ]

/-- What a name is bound to is applied like a rule, at one depth for all sessions. -/
theorem exists_depth : ∃ depth, ∀ (s : Session τ) (name : String) (source : List τ),
    (s.apply name source : Option (Report τ ε × Session τ)) = (s.bindings.lookup name).map fun _ =>
      s.conclude (s.bindings.rule depth name (.ofList source) s.initial) := by
  refine ⟨recursionLimit + 1, fun s name source => ?_⟩
  unfold apply
  cases hg : s.bindings.lookup name with
  | none => rfl
  | some g =>
    rw [Option.map_some, Option.map_some, run_eq, Bindings.parser]
    -- the limit is a number, and rules as deep as that must not be unfolded
    generalize recursionLimit = depth
    rw [Bindings.rule, hg]

omit [Payload τ ε] [Element τ] in
/-- What is concluded from two confined runs. -/
theorem conclude_confined (s s' : Session τ) {F : Footprint} {a a' : Buffers τ}
    {r r' : EStateM.Result Stop (RunState τ ε) (Outcome τ ε (Value τ))}
    (h : Mapped (id : ε → ε) (RunState.Confined F a a') r r') :
    (s.conclude r).1 = (s'.conclude r').1 ∧ F.Keeps a (s.conclude r).2.buffers := by
  cases h with
  | ok o ht =>
    rw [Outcome.mapPayload_id]
    exact ⟨congrArg (Report.mk _) ht.events_eq, ht.kept⟩
  | stop why ht => exact ⟨congrArg (Report.mk _) ht.events_eq, ht.kept⟩

/-- Sessions that are alike as far as a name reaches answer alike. -/
theorem Resembles.answers {s s' : Session τ} {name : String} (h : s.Resembles s' name) (source : List τ) :
    (s.apply name source).map Prod.fst = ((s'.apply name source).map Prod.fst : Option (Report τ ε)) := by
  have hstates : RunState.Confined (s.bindings.footprint name) s.buffers s'.buffers
      (s.initial : RunState τ ε) s'.initial := ⟨.refl _ _, .refl _ _, h.starts_eq, rfl⟩
  obtain ⟨depth, happly⟩ := exists_depth (τ := τ) (ε := ε)
  have hmapped := Bindings.mapped_rules h.lookup_eq h.size_eq hstates depth (.ofList source)
  rw [happly, happly, h.lookup_eq name .here]
  cases s.bindings.lookup name with
  | none => rfl
  | some g => exact congrArg some (conclude_confined s s' hmapped).1

theorem apply_keeps {s u : Session τ} {name : String} {source : List τ} {report : Report τ ε}
    (h : s.apply name source = some (report, u)) :
    u.bindings = s.bindings ∧ (s.bindings.footprint name).Keeps s.buffers u.buffers := by
  have hstates : RunState.Confined (s.bindings.footprint name) s.buffers s.buffers
      (s.initial : RunState τ ε) s.initial := ⟨.refl _ _, .refl _ _, fun _ => rfl, rfl⟩
  obtain ⟨depth, happly⟩ := exists_depth (τ := τ) (ε := ε)
  have hmapped := Bindings.mapped_rules (fun _ _ => rfl) (fun _ _ => rfl) hstates depth (.ofList source)
  rw [happly] at h
  obtain ⟨g, -, hconclude⟩ := Option.map_eq_some_iff.mp h
  obtain rfl := congrArg Prod.snd hconclude
  exact ⟨s.conclude_bindings _, (conclude_confined s s hmapped).2⟩

end

variable [Element τ]

/-- A session after further steps, none of which binds a fixed name. -/
inductive Later (s : Session τ) (fixed : String → Prop) : Session τ → Prop where
  | now : Later s fixed s
  | bind {t : Session τ} {name : String} {g : Grammar τ} : Later s fixed t → ¬ fixed name →
    Later s fixed (t.bind name g)
  | copy {t u : Session τ} {name copy : String} : Later s fixed t → ¬ fixed copy →
    t.copy name copy = some u → Later s fixed u
  | apply {t u : Session τ} {name : String} {source : List τ} {ε : Type} [Payload τ ε]
    {report : Report τ ε} : Later s fixed t → t.apply name source = some (report, u) → Later s fixed u

/-- All rows are there that are filled by what is bound. -/
def Built (s : Session τ) : Prop :=
  ∀ name g, (name, g) ∈ s.bindings → ∀ b, g.Fills b → ∃ n, s.buffers.slots? b = some n

namespace Later

variable {s t u : Session τ} {fixed : String → Prop}

theorem lookup_eq (h : Later s fixed t) {n : String} (hn : fixed n) :
    t.bindings.lookup n = s.bindings.lookup n := by
  have hcons {name : String} (hname : ¬ fixed name) (g : Grammar τ) (l : Bindings τ) :
      List.lookup n ((name, g) :: l) = l.lookup n := by
    have hne : (n == name) = false := beq_eq_false_iff_ne.mpr fun heq => hname (heq ▸ hn)
    rw [List.lookup_cons, hne]
  induction h with
  | now => rfl
  | bind _ hname ih => exact (hcons hname _ _).trans ih
  | copy _ hcopy hstep ih =>
    obtain ⟨g, -, rfl⟩ := Option.map_eq_some_iff.mp hstep
    exact (hcons hcopy _ _).trans ih
  | apply _ hstep ih => rw [(apply_keeps hstep).1, ih]

theorem slots?_eq (h : Later s fixed t) {b : String} {n : Nat} (hn : s.buffers.slots? b = some n) :
    t.buffers.slots? b = some n := by
  induction h with
  | now => exact hn
  | bind _ _ ih => exact Grammar.slots?_layOut _ ih
  | copy _ _ hstep ih =>
    obtain ⟨g, -, rfl⟩ := Option.map_eq_some_iff.mp hstep
    exact ih
  | apply _ hstep ih => rw [(apply_keeps hstep).2.slots_eq, ih]

theorem built (h : Later s fixed t) (hs : s.Built) : t.Built := by
  induction h with
  | now => exact hs
  | @bind t name g _ _ ih =>
    intro name' g' hmem b hb
    rcases List.mem_cons.mp hmem with heq | hmem
    · obtain ⟨rfl, rfl⟩ := Prod.mk.inj heq
      exact Grammar.exists_slots_layOut hb _
    · obtain ⟨n, hn⟩ := ih name' g' hmem b hb
      exact ⟨n, g.slots?_layOut hn⟩
  | @copy t u name copy _ _ hstep ih =>
    obtain ⟨g, hg, rfl⟩ := Option.map_eq_some_iff.mp hstep
    intro name' g' hmem b hb
    rcases List.mem_cons.mp hmem with heq | hmem
    · obtain ⟨rfl, rfl⟩ := Prod.mk.inj heq
      exact ih name g' (Bindings.lookup_mem hg) b hb
    · exact ih name' g' hmem b hb
  | apply _ hstep ih =>
    intro name g hmem b hb
    obtain ⟨hbindings, hkeeps⟩ := apply_keeps hstep
    obtain ⟨n, hn⟩ := ih name g (hbindings ▸ hmem) b hb
    exact ⟨n, (hkeeps.slots_eq b).trans hn⟩

/-- What a name reaches stays as it is, as long as none of it is bound anew. -/
theorem resembles {name : String} (hs : s.Built) (h : Later s (s.bindings.Reaches name) t)
    (hstarts : (s.bindings.footprint name).starts → s.starts = t.starts) : s.Resembles t name where
  lookup_eq n hn := h.lookup_eq hn
  size_eq := by
    rintro b ⟨n, g, hn, hg, hb⟩
    obtain ⟨k, hk⟩ := hs n g (Bindings.lookup_mem hg) b hb
    rw [Buffers.size_eq, Buffers.size_eq, h.slots?_eq hk, hk]
  starts_eq := hstarts

end Later

omit [Element τ] in
theorem built_empty : (empty : Session τ).Built := by
  intro name g hmem
  cases hmem

/-- Applications do not interfere. Whatever was done before, sessions in which a name reaches the same
grammars, over buffers of the same sizes, answer alike; where a fold looks at how many were started, as many
must have been started. An application changes neither bindings nor buffers that nothing fills of what it
reaches. And a copy of a name goes on to answer as it did, whatever else is bound anew. -/
theorem applications_independent :
    (∀ (s s' : Session τ) (name : String), s.Resembles s' name →
      ∀ {ε : Type} [Payload τ ε] (source : List τ),
        (s.apply name source).map Prod.fst =
          ((s'.apply name source).map Prod.fst : Option (Report τ ε))) ∧
    (∀ (s u : Session τ) (name : String) {ε : Type} [Payload τ ε] (source : List τ) (report : Report τ ε),
      s.apply name source = some (report, u) → u.bindings = s.bindings ∧
        ∀ b, ¬ (s.bindings.footprint name).buffers b → u.buffers.get? b = s.buffers.get? b) ∧
    ∀ (s t u : Session τ) (name copy : String), Later .empty (fun _ => False) s →
      s.copy name copy = some t → Later t (t.bindings.Reaches copy) u →
      ((t.bindings.footprint copy).starts → t.starts = u.starts) →
      u.bindings.lookup copy = s.bindings.lookup name ∧
        ∀ {ε : Type} [Payload τ ε] (source : List τ),
          (t.apply copy source).map Prod.fst =
            ((u.apply copy source).map Prod.fst : Option (Report τ ε)) := by
  refine ⟨fun s s' name h ε _ source => h.answers source, ?_, ?_⟩
  · intro s u name ε _ source report h
    exact ⟨(apply_keeps h).1, (apply_keeps h).2.get_eq⟩
  · intro s t u name copy hs hcopy hu hstarts
    have ht : t.Built := (hs.copy not_false hcopy).built built_empty
    refine ⟨?_, fun source => (hu.resembles ht hstarts).answers source⟩
    rw [hu.lookup_eq .here]
    obtain ⟨g, hg, rfl⟩ := Option.map_eq_some_iff.mp hcopy
    rw [hg]
    simp

/-- A pair of items is read in two sessions of which one has filled its row before. Then the pair is copied and
bound anew. -/
theorem applications_independent_pairs :
    let pair : Grammar UInt8 := .fill "row" 2 (.ref "item")
    let s : Session UInt8 :=
      ((empty.bind "item" .one).bind "pair" pair).bind "spare" (.fill "spare" 1 .one)
    let s' : Session UInt8 :=
      ⟨[("other", .eof), ("item", .one), ("pair", pair)], ⟨[("row", #[.elem 7, .elem 8])]⟩, 3⟩
    let answer (s : Session UInt8) (name : String) : Option (Report UInt8 (Trail UInt8)) :=
      (s.apply name [1, 2, 3]).map Prod.fst
    (s.Resembles s' "pair" ∧ answer s "pair" = answer s' "pair") ∧
    (∃ (report : Report UInt8 (Trail UInt8)) (u : Session UInt8),
      s.apply "pair" [1, 2, 3] = some (report, u) ∧ ¬ (s.bindings.footprint "pair").buffers "spare" ∧
        u.buffers.get? "spare" = s.buffers.get? "spare") ∧
    ∃ t, s.copy "pair" "twin" = some t ∧ Later .empty (fun _ => False) s ∧
      Later t (t.bindings.Reaches "twin") (t.bind "pair" .eof) ∧
      answer t "twin" = answer (t.bind "pair" .eof) "twin" := by
  intro pair s s' answer
  have hone {q : Grammar UInt8} (h : Grammar.Occurs q .one) : q = .one := by
    cases h with
    | here => rfl
    | under hq _ => cases hq
  have hpair {q : Grammar UInt8} (h : Grammar.Occurs q pair) :
      q = .fill "row" 2 (.ref "item") ∨ q = .ref "item" := by
    cases h with
    | here => exact .inl rfl
    | under hq h =>
      obtain rfl := List.mem_singleton.mp hq
      cases h with
      | here => exact .inr rfl
      | under hq _ => cases hq
  have hreaches {l : Bindings UInt8} {name : String} (hname : l.lookup name = some pair)
      (hitem : l.lookup "item" = some .one) {n : String} (h : l.Reaches name n) :
      n = name ∨ n = "item" := by
    refine h.of_closed (N := fun n => n = name ∨ n = "item") (.inl rfl) ?_
    rintro n g m (rfl | rfl) hg hm
    · obtain rfl := Option.some.inj (hname.symm.trans hg)
      rcases hpair hm with heq | heq
      · cases heq
      · exact .inr (Grammar.ref.inj heq)
    · obtain rfl := Option.some.inj (hitem.symm.trans hg)
      cases hone hm
  have hfills {l : Bindings UInt8} {name b : String} (hname : l.lookup name = some pair)
      (hitem : l.lookup "item" = some .one) (h : (l.footprint name).buffers b) : b = "row" := by
    obtain ⟨n, g, hn, hg, slots, p, hoccurs⟩ := h
    rcases hreaches hname hitem hn with rfl | rfl
    · obtain rfl := Option.some.inj (hname.symm.trans hg)
      rcases hpair hoccurs with heq | heq
      · exact (Grammar.fill.inj heq).1
      · cases heq
    · obtain rfl := Option.some.inj (hitem.symm.trans hg)
      cases hone hoccurs
  have hstarts {l : Bindings UInt8} {name : String} (hname : l.lookup name = some pair)
      (hitem : l.lookup "item" = some .one) : ¬ (l.footprint name).starts := by
    rintro ⟨n, g, hn, hg, times, step, p, hoccurs⟩
    rcases hreaches hname hitem hn with rfl | rfl
    · obtain rfl := Option.some.inj (hname.symm.trans hg)
      rcases hpair hoccurs with heq | heq <;> cases heq
    · obtain rfl := Option.some.inj (hitem.symm.trans hg)
      cases hone hoccurs
  have hresembles : s.Resembles s' "pair" :=
    { lookup_eq := by
        intro n hn
        rcases hreaches rfl rfl hn with rfl | rfl <;> rfl
      size_eq := by
        intro b hb
        obtain rfl := hfills rfl rfl hb
        rfl
      starts_eq := fun h => absurd h (hstarts rfl rfl) }
  have hspare : ¬ (s.bindings.footprint "pair").buffers "spare" :=
    fun h => absurd (hfills rfl rfl h) (by decide)
  obtain ⟨hanswers, hleaves, hcopies⟩ := applications_independent (τ := UInt8)
  obtain ⟨⟨report, u⟩, happly⟩ : ∃ r : Report UInt8 (Trail UInt8) × Session UInt8,
      s.apply "pair" [1, 2, 3] = some r := ⟨_, rfl⟩
  let t : Session UInt8 := { s with bindings := ("twin", pair) :: s.bindings }
  have hs : Later .empty (fun _ => False) s := ((Later.now.bind not_false).bind not_false).bind not_false
  have hother : ¬ t.bindings.Reaches "twin" "pair" := by
    intro h
    rcases hreaches rfl rfl h with heq | heq <;> exact absurd heq (by decide)
  refine ⟨⟨hresembles, hanswers s s' "pair" hresembles [1, 2, 3]⟩,
    ⟨report, u, happly, hspare, (hleaves s u "pair" [1, 2, 3] report happly).2 "spare" hspare⟩,
    t, rfl, hs, Later.now.bind hother, ?_⟩
  exact (hcopies s t _ "pair" "twin" hs rfl (Later.now.bind hother) fun _ => rfl).2 [1, 2, 3]

end Session

end Reprise
