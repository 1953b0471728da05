import Reprise.Proofs.Transcribed

/-!
# Representations of a source

The same numbers can be characters of narrow text, bytes, 32-bit numbers or code points. A session that is
written in the form of its source does the same in all of them: it answers alike, says the same of an error
and leaves the same buffers, but for the form of elements.
-/

namespace Reprise

variable {τ τ' ε ε' : Type}

namespace Window

/-- The same window over elements of another form. -/
def map (f : τ → τ') (w : Window τ) : Window τ' :=
  ⟨w.offset, w.elements.map f, w.length, by rw [List.length_map, w.length_eq]⟩

@[simp] theorem offset_map (f : τ → τ') (w : Window τ) : (w.map f).offset = w.offset := rfl
@[simp] theorem elements_map (f : τ → τ') (w : Window τ) :
    (w.map f).elements = w.elements.map f := rfl
@[simp] theorem length_map (f : τ → τ') (w : Window τ) : (w.map f).length = w.length := rfl

end Window

namespace Translation

/-- Bytes in another form, which is ordered by its numbers. Windows stay where they are. -/
def ofBytes [Element τ] (form : UInt8 → τ) (number : ∀ b, Element.number (form b) = b.toNat)
    (order : ∀ e e' : τ, Element.compare e e' = Ord.compare (Element.number e) (Element.number e')) :
    Translation UInt8 τ where
  element := form
  window := Window.map form
  number_element := number
  compare_element a b := by
    rw [order, number, number]
    rfl
  elements_window _ := rfl
  window_take w k := by apply Window.ext <;> simp
  window_drop w k := by apply Window.ext <;> simp

/-- Bytes as characters of narrow text. -/
def text : Translation UInt8 Narrow := ofBytes Narrow.mk (fun _ => rfl) fun _ _ => rfl

/-- Bytes as 32-bit numbers. -/
def ints : Translation UInt8 UInt32 :=
  ofBytes UInt8.toUInt32 (fun b => UInt8.toNat_toUInt32 b) fun _ _ => rfl

/-- Bytes as code points. -/
def wide : Translation UInt8 Char :=
  ofBytes Char.ofUInt8 (fun b => UInt8.toNat_toUInt32 b) fun _ _ => rfl

/-- No two bytes become one element, since the numbers are kept. -/
theorem injective_of_bytes [Element τ] (T : Translation UInt8 τ) : Function.Injective T.element := by
  intro a b h
  have hnumber : a.toNat = b.toNat := by
    change Element.number a = Element.number b
    rw [← T.number_element a, h, T.number_element]
  exact UInt8.toNat_inj.mp hnumber

end Translation

section

variable [Element τ] [Element τ'] (T : Translation τ τ')

/-- Windows stay where they are. -/
def Translation.InPlace : Prop := ∀ w, (T.window w).offset = w.offset

variable {T} in
theorem Translation.InPlace.distance (h : T.InPlace) (w v : Window τ) :
    (T.window w).distance (T.window v) = w.distance v := by
  unfold Window.distance
  rw [h, h]

variable {T} in
theorem Translation.InPlace.window_ofList (h : T.InPlace) (source : List τ) :
    T.window (.ofList source) = .ofList (source.map T.element) :=
  Window.ext (h _) (T.elements_window _)

def Located.translate (e : Located τ) : Located τ' := ⟨T.window e.input, e.kind⟩

def Trail.translate (t : Trail τ) : Trail τ' :=
  ⟨t.innermost.translate T, t.outer.map (Located.translate T)⟩

def Outermost.translate (e : Outermost τ) : Outermost τ' := ⟨e.place.translate T⟩

/-- Payloads that are carried over into another form, where the same is written of them. -/
structure Carried [Payload τ ε] [Payload τ' ε'] [Described τ ε] [Described τ' ε'] (f : ε → ε') :
    Prop where
  translating : Translating T fun e e' => f e = e'
  describe : ∀ origin e,
    Described.describe (T.window origin) (f e) = Described.describe origin e

end

section Payloads

variable [Element τ] [Element τ'] {T : Translation τ τ'}

theorem translating_of_map [Payload τ ε] [Payload τ' ε'] {f : ε → ε'}
    (ofKind : ∀ (x : Window τ) kind, f (Payload.ofKind x kind) = Payload.ofKind (T.window x) kind)
    (append : ∀ (x : Window τ) kind e,
      f (Payload.append x kind e) = Payload.append (T.window x) kind (f e)) :
    Translating T fun e e' => f e = e' where
  ofKind := ofKind
  append := by
    rintro x kind e _ rfl
    exact append x kind e

theorem Located.describe_translate (h : T.InPlace) (origin : Window τ) (e : Located τ) :
    (e.translate T).describe (T.window origin) = e.describe origin := by
  unfold Located.describe Located.translate
  rw [h.distance]

theorem carried_located (h : T.InPlace) : Carried T (Located.translate T) where
  translating := translating_of_map (fun _ _ => rfl) fun _ _ _ => rfl
  describe := Located.describe_translate h

theorem carried_trail (h : T.InPlace) : Carried T (Trail.translate T) where
  translating := by
    refine translating_of_map (fun _ _ => rfl) fun x kind t => ?_
    simp [Payload.append, Trail.translate, Located.translate]
  describe origin t := by
    change Located.describeAll _ (t.translate T).entries = Located.describeAll _ _
    have hplace : Located.describe (T.window origin) ∘ Located.translate T = Located.describe origin :=
      funext (Located.describe_translate h origin)
    simp [Located.describeAll_eq, Trail.entries, Trail.translate, hplace, Located.describe_translate h]

theorem carried_outermost : Carried T (Outermost.translate T) where
  translating := translating_of_map (fun _ _ => rfl) fun _ _ _ => rfl
  describe _ _ := rfl

theorem carried_tally : Carried T (id : Tally → Tally) where
  translating := translating_of_map (fun _ _ => rfl) fun _ _ _ => rfl
  describe _ _ := rfl

end Payloads

section Sessions

variable [Element τ] [Element τ'] (T : Translation τ τ')

/-- The same buffers, with values over other elements. -/
def Buffers.translate (b : Buffers τ) : Buffers τ' :=
  ⟨b.rows.map fun row => (row.1, row.2.map (Value.translate T))⟩

/-- The same session over other elements. -/
def Session.translate (s : Session τ) : Session τ' :=
  ⟨s.bindings.mapElements T.element, s.buffers.translate T, s.starts⟩

/-- The same outcome, with its value and its windows over other elements. -/
def Outcome.translate (f : ε → ε') : Outcome τ ε (Value τ) → Outcome τ' ε' (Value τ')
  | success v rest => success (v.translate T) (T.window rest)
  | signal sig => signal (sig.map f)

theorem forall₂_eq_map {α β : Type} {f : α → β} {as : List α} {bs : List β} :
    List.Forall₂ (fun a b => f a = b) as bs ↔ as.map f = bs := by
  rw [← List.forall₂_map_left_iff (f := f) (R := Eq), List.forall₂_eq_eq_eq]

variable {T}

theorem Buffers.alike_same_iff {b : Buffers τ} {b' : Buffers τ'} :
    b.Alike T.Same b' ↔ b.translate T = b' := by
  have hslots (slots : Array (Value τ)) (slots' : Array (Value τ')) :
      List.Forall₂ T.Same slots.toList slots'.toList ↔ slots.map (Value.translate T) = slots' := by
    refine forall₂_eq_map.trans ?_
    rw [← Array.toList_map, Array.toList_inj]
  have hrow (row : String × Array (Value τ)) (row' : String × Array (Value τ')) :
      (row.1 = row'.1 ∧ List.Forall₂ T.Same row.2.toList row'.2.toList) ↔
        (row.1, row.2.map (Value.translate T)) = row' := by
    rw [hslots, Prod.ext_iff]
  obtain ⟨rows'⟩ := b'
  unfold Alike translate
  simp only [hrow, forall₂_eq_map, Buffers.mk.injEq]

theorem Buffers.translate_make (b : Buffers τ) (name : String) (slots : Nat) :
    (b.make name slots).translate T = (b.translate T).make name slots := by
  have hget : (b.translate T).get? name = (b.get? name).map (Array.map (Value.translate T)) :=
    lookup_map_of_injective Function.injective_id _ b.rows name
  unfold make
  rw [hget]
  cases b.get? name with
  | some row => rfl
  | none => simp [translate, Value.translate]

theorem Grammar.layOut_mapElements (g : Grammar τ) (b : Buffers τ) :
    (g.mapElements T.element).layOut (b.translate T) = (g.layOut b).translate T := by
  induction g generalizing b with
  | fill name slots p ih => simp only [mapElements, layOut, ← Buffers.translate_make, ih]
  | _ => simp_all only [mapElements, layOut]

/-- Building a grammar makes the same buffers in either form. -/
theorem Session.build_translate (s : Session τ) (g : Grammar τ) :
    (s.translate T).build (g.mapElements T.element) = (s.build g).translate T := by
  unfold build translate
  rw [g.layOut_mapElements]

theorem Session.bind_translate (s : Session τ) (g : Grammar τ) (name : String) :
    (s.translate T).bind name (g.mapElements T.element) = (s.bind name g).translate T := by
  unfold bind
  rw [s.build_translate]
  rfl

/-- What is concluded from runs that agree in two forms. -/
theorem Session.conclude_translate [Payload τ ε] [Payload τ' ε'] (s : Session τ) {f : ε → ε'}
    {hR : Translating T fun e e' => f e = e'}
    {r : EStateM.Result Stop (RunState τ ε) (Outcome τ ε (Value τ))}
    {r' : EStateM.Result Stop (RunState τ' ε') (Outcome τ' ε' (Value τ'))}
    (h : (Link.translating (RunState.Alike T.Same) hR).Agree T.Same r r') :
    ((s.translate T).conclude r').1.outcome = (s.conclude r).1.outcome.map (Outcome.translate T f) ∧
      ((s.translate T).conclude r').2 = (s.conclude r).2.translate T := by
  have hstore {t : RunState τ ε} {t' : RunState τ' ε'} (ht : RunState.Alike T.Same t t') :
      ({ s.translate T with buffers := t'.buffers, starts := t'.starts } : Session τ') =
        Session.translate T { s with buffers := t.buffers, starts := t.starts } := by
    rw [← Buffers.alike_same_iff.mp ht.buffers, ← ht.starts]
    rfl
  cases h with
  | success hv hrest ht =>
    obtain rfl := hv
    obtain rfl := hrest
    exact ⟨rfl, hstore ht⟩
  | error he ht =>
    obtain rfl := he
    exact ⟨rfl, hstore ht⟩
  | failure he ht =>
    obtain rfl := he
    exact ⟨rfl, hstore ht⟩
  | incomplete hn =>
    obtain ⟨t', rfl, ht⟩ := hn _ rfl
    exact ⟨rfl, hstore ht⟩
  | stop ht => exact ⟨rfl, hstore ht⟩

variable (T)

/-- A session applies a grammar alike in two forms, where payloads are carried over: to every source it
gives the same answer, and what it keeps and what is written for a signal are the same. -/
structure Session.AppliesAlike [Payload τ ε] [Payload τ' ε'] [Described τ ε] [Described τ' ε']
    (s : Session τ) (g : Grammar τ) (f : ε → ε') : Prop where
  outcome : ∀ source,
    ((s.translate T).run (g.mapElements T.element) (source.map T.element) :
      Report τ' ε' × Session τ').1.outcome =
        (s.run g source : Report τ ε × Session τ).1.outcome.map (Outcome.translate T f)
  session : ∀ source,
    ((s.translate T).run (g.mapElements T.element) (source.map T.element) :
      Report τ' ε' × Session τ').2 = (s.run g source : Report τ ε × Session τ).2.translate T
  described : ∀ source (sig : Signal ε),
    (sig.map f).describe (.ofList (source.map T.element)) = sig.describe (.ofList source)

/-- A session does the same in two forms, whichever of the provided payloads is chosen. -/
structure Session.AgreesIn (s : Session τ) (g : Grammar τ) : Prop where
  built : (s.translate T).build (g.mapElements T.element) = (s.build g).translate T
  bound : ∀ name, (s.translate T).bind name (g.mapElements T.element) = (s.bind name g).translate T
  located : s.AppliesAlike T g (Located.translate T)
  trail : s.AppliesAlike T g (Trail.translate T)
  outermost : s.AppliesAlike T g (Outermost.translate T)
  tally : s.AppliesAlike T g (id : Tally → Tally)

variable {T} {s : Session τ} {g : Grammar τ}

theorem Session.appliesAlike [Payload τ ε] [Payload τ' ε'] [Described τ ε] [Described τ' ε']
    (hinjective : Function.Injective T.element) (hplace : T.InPlace)
    (hs : ∀ b ∈ s.bindings, b.2.Native) (hg : g.Native) {f : ε → ε'} (hf : Carried T f) :
    s.AppliesAlike T g f := by
  have hrelated : (Link.translating (RunState.Alike T.Same) hf.translating).Related T.Same
      (s.bindings.parser g) ((s.translate T).bindings.parser (g.mapElements T.element)) :=
    Link.related_translated hinjective (fun _ => rfl) hg fun name =>
      Link.related_translated_rule hinjective (fun _ => rfl) hs recursionLimit name
  have hagree (source : List τ) := hrelated (.ofList source) (.ofList (source.map T.element))
    s.initial (s.translate T).initial (hplace.window_ofList source)
    ⟨Buffers.alike_same_iff.mpr rfl, rfl⟩
  refine ⟨fun source => ?_, fun source => ?_, fun source sig => ?_⟩
  · rw [run_eq, run_eq]
    exact (s.conclude_translate (hagree source)).1
  · rw [run_eq, run_eq]
    exact (s.conclude_translate (hagree source)).2
  · rw [← hplace.window_ofList]
    exact Signal.describe_map (hf.describe _) sig

theorem Session.agreesIn (hinjective : Function.Injective T.element) (hplace : T.InPlace)
    (hs : ∀ b ∈ s.bindings, b.2.Native) (hg : g.Native) : s.AgreesIn T g where
  built := s.build_translate g
  bound := s.bind_translate g
  located := appliesAlike hinjective hplace hs hg (carried_located hplace)
  trail := appliesAlike hinjective hplace hs hg (carried_trail hplace)
  outermost := appliesAlike hinjective hplace hs hg carried_outermost
  tally := appliesAlike hinjective hplace hs hg carried_tally

end Sessions

/-- How the elements of a source are represented makes no difference. Numbers below 256 are parsed alike as
bytes, as narrow text, as 32-bit numbers and as code points, by grammars without patterns of another kind
that are written in the form of the source. -/
theorem Session.representations_agree (s : Session UInt8) (g : Grammar UInt8)
    (hs : ∀ b ∈ s.bindings, b.2.Native) (hg : g.Native) :
    s.AgreesIn .text g ∧ s.AgreesIn .ints g ∧ s.AgreesIn .wide g :=
  ⟨agreesIn (Translation.injective_of_bytes _) (fun _ => rfl) hs hg,
    agreesIn (Translation.injective_of_bytes _) (fun _ => rfl) hs hg,
    agreesIn (Translation.injective_of_bytes _) (fun _ => rfl) hs hg⟩

/-- A number and a run of marks, made of bytes that are negative as characters. -/
theorem Session.representations_agree_high :
    let mark : Grammar UInt8 := .takeWhile (.among [0x80, 0xFF]) 1 .alpha
    let marks : Grammar UInt8 := .collect .many1 .multiset (.ref "mark")
    let s : Session UInt8 := empty.bind "mark" mark
    let g : Grammar UInt8 := .andThen (.uint .complete .w16 .big) marks
    let answer (source : List Narrow) : Report Narrow (Trail Narrow) × Session Narrow :=
      (s.translate .text).run (g.mapElements Narrow.mk) source
    ((∀ b ∈ s.bindings, b.2.Native) ∧ g.Native) ∧
      (answer [⟨0x80⟩, ⟨1⟩, ⟨0xFF⟩, ⟨0x80⟩, ⟨65⟩]).1.outcome = .ok (.success
        (.list [.num 32769, .slice ⟨2, [⟨0xFF⟩, ⟨0x80⟩], 2, rfl⟩]) ⟨4, [⟨65⟩], 1, rfl⟩) ∧
      (answer [⟨0x80⟩, ⟨1⟩, ⟨65⟩]).1.outcome = .ok (.signal (.error
        ⟨⟨⟨2, [⟨65⟩], 1, rfl⟩, .alpha⟩, [⟨⟨2, [⟨65⟩], 1, rfl⟩, .many1⟩]⟩)) := by
  intro mark marks s g answer
  have hs : ∀ b ∈ s.bindings, b.2.Native := by
    intro b hb
    obtain rfl := List.mem_singleton.mp hb
    exact Grammar.native_of_children nofun nofun
  have hmarks : marks.Native := by
    refine Grammar.native_of_children nofun fun p hp => ?_
    obtain rfl := List.mem_singleton.mp hp
    exact Grammar.native_of_children nofun nofun
  have hg : g.Native := by
    refine Grammar.native_of_children nofun fun p hp => ?_
    rcases List.mem_pair.mp hp with rfl | rfl
    · exact Grammar.native_of_children nofun nofun
    · exact hmarks
  have h := (representations_agree s g hs hg).1.trail.outcome
  exact ⟨⟨hs, hg⟩, h [0x80, 1, 0xFF, 0x80, 65], h [0x80, 1, 65]⟩

end Reprise
