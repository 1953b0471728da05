import Reprise.Proofs.Translated

/-!
# Grammars in another form

A grammar whose patterns and element sets are written in the elements of another source. Over translated
inputs it is related to what it was before, as long as no two elements become one.
-/

namespace Reprise

variable {τ τ' ε ε' ρ ρ' : Type}

def Pattern.map (f : τ → τ') : Pattern τ → Pattern τ'
  | own es => own (es.map f)
  | foreign vs => foreign vs

def ElementSet.map (f : τ → τ') : ElementSet τ → ElementSet τ'
  | among es => among (es.map f)
  | except es => except (es.map f)

theorem ElementSet.contains_map [Element τ] [Element τ'] {f : τ → τ'} (hf : Function.Injective f)
    (set : ElementSet τ) (e : τ) : (set.map f).contains (f e) = set.contains e := by
  have hmem (es : List τ) : (es.map f).contains (f e) = es.contains e := by
    simp [List.mem_map_of_injective hf]
  cases set with
  | among es => exact hmem es
  | except es => exact congrArg not (hmem es)

theorem Parser.agree_map (same : τ' → ρ' → Bool) (f : τ → τ') (h : ρ → ρ') (es : List τ)
    (pattern : List ρ) : agree same (es.map f) (pattern.map h) =
      agree (fun a b => same (f a) (h b)) es pattern := by
  induction es generalizing pattern with
  | nil => cases pattern <;> rfl
  | cons e es ih =>
    cases pattern with
    | nil => rfl
    | cons b bs => simp only [List.map_cons, agree, ih]

namespace Grammar

/-- The same grammar over other elements. Integers that stand for elements stay as they are. -/
def mapElements (f : τ → τ') : Grammar τ → Grammar τ'
  | one => one
  | eof => eof
  | epsilon => epsilon
  | tag mode pattern => tag mode (pattern.map f)
  | takeWhile set least kind => takeWhile (set.map f) least kind
  | digits least => digits least
  | letters => letters
  | uint mode width order => uint mode width order
  | opt p => opt (p.mapElements f)
  | cut p => cut (p.mapElements f)
  | boxed p => boxed (p.mapElements f)
  | map F p => map F (p.mapElements f)
  | collect times shape p => collect times shape (p.mapElements f)
  | many0Count p => many0Count (p.mapElements f)
  | many1Count p => many1Count (p.mapElements f)
  | fold times start step p => fold times start step (p.mapElements f)
  | manyTill shape till p => manyTill shape (till.mapElements f) (p.mapElements f)
  | separatedList0 shape sep p => separatedList0 shape (sep.mapElements f) (p.mapElements f)
  | separatedList1 shape sep p => separatedList1 shape (sep.mapElements f) (p.mapElements f)
  | lengthData len => lengthData (len.mapElements f)
  | lengthValue len p => lengthValue (len.mapElements f) (p.mapElements f)
  | lengthCount shape len p => lengthCount shape (len.mapElements f) (p.mapElements f)
  | fill buffer slots p => fill buffer slots (p.mapElements f)
  | trace name p => trace name (p.mapElements f)
  | raise kind => raise kind
  | commit kind => commit kind
  | await needed => await needed
  | take n => take n
  | done => done
  | andThen p rest => andThen (p.mapElements f) (rest.mapElements f)
  | orElse p q => orElse (p.mapElements f) (q.mapElements f)
  | ref name => ref name

theorem mapElements_eq (f : τ → τ') (g : Grammar τ) :
    g.mapElements f = g.graft (mapElements f) (mapElements f) := by cases g <;> rfl

theorem mapElements_id (g : Grammar τ) : g.mapElements id = g := by
  induction g using tree_induction with
  | h g ih =>
    cases g with
    | tag mode pattern => cases pattern <;> simp [mapElements, Pattern.map]
    | takeWhile set least kind => cases set <;> simp [mapElements, ElementSet.map]
    | _ => simp_all [mapElements, children]

/-- No pattern is made of integers that stand for elements of another kind. -/
def Native (g : Grammar τ) : Prop := ∀ mode vs, ¬ Occurs (tag mode (.foreign vs)) g

theorem Native.child {g p : Grammar τ} (h : g.Native) (hp : p ∈ g.children) : p.Native :=
  fun mode vs hoccurs => h mode vs (.under hp hoccurs)

theorem native_of_children {g : Grammar τ} (hself : ∀ mode vs, g ≠ tag mode (.foreign vs))
    (h : ∀ p ∈ g.children, p.Native) : g.Native := by
  intro mode vs hoccurs
  cases hoccurs with
  | here => exact hself mode vs rfl
  | under hp hoccurs => exact h _ hp mode vs hoccurs

end Grammar

namespace Link

variable [Payload τ ε] [Payload τ' ε'] [Element τ] [Element τ'] {T : Translation τ τ'}
  {R : ε → ε' → Prop} {hR : Translating T R} {V : Value τ → Value τ' → Prop}
  {rule : String → Rule τ ε} {rule' : String → Rule τ' ε'}

/-- A leaf over an input and over its translation. Patterns of integers have to find the same values. -/
theorem related_translated_leaf (hinjective : Function.Injective T.element) (g : Grammar τ)
    (hleaf : g.children = [])
    (hvalue : ∀ mode vs, g = .tag mode (.foreign vs) →
      ∀ e, Element.value (T.element e) = Element.value e)
    (hrule : ∀ name, g = .ref name →
      (translating (RunState.Alike V) hR).Related T.Same (rule name) (rule' name)) :
    (translating (RunState.Alike V) hR).Related T.Same (g.parser rule)
      ((g.mapElements T.element).parser rule') := by
  have hbeq (a b : τ) : (T.element a == T.element b) = (a == b) := by
    rw [Bool.eq_iff_iff, beq_iff_eq, beq_iff_eq, hinjective.eq_iff]
  cases g with
  | one => exact related_map related_translated_one fun _ _ he => congrArg Value.elem he
  | eof => exact related_map related_translated_eof fun _ _ _ => rfl
  | epsilon => exact fun _ _ _ _ hx hs => .success rfl hx hs
  | tag mode pattern =>
    cases pattern with
    | own es =>
      refine related_map (related_translated_tag mode (List.length_map _).symm fun xs => ?_)
        fun _ _ hw => congrArg Value.slice hw
      simp only [Parser.agree_map, hbeq]
    | foreign vs =>
      refine related_map (related_translated_tag mode rfl fun xs => ?_) fun _ _ hw =>
        congrArg Value.slice hw
      have hagree := Parser.agree_map Element.equals T.element id xs vs
      simp only [Element.equals, hvalue mode vs rfl, id, List.map_id] at hagree
      exact hagree.symm
  | takeWhile set least kind =>
    exact related_map (related_translated_takeWhile least kind fun e =>
      (set.contains_map hinjective e).symm) fun _ _ hw => congrArg Value.slice hw
  | digits least =>
    refine related_map (related_translated_takeWhile least .digit fun e => ?_) fun _ _ hw =>
      congrArg Value.slice hw
    simp only [Parser.isDigit, T.number_element]
  | letters =>
    refine related_map (related_translated_takeWhile 1 .alpha fun e => ?_) fun _ _ hw =>
      congrArg Value.slice hw
    simp only [Parser.isLetter, T.number_element]
  | uint mode width order =>
    exact related_map (related_translated_uint mode width order) fun _ _ hn => congrArg Value.num hn
  | raise kind =>
    rintro x _ s s' rfl hs
    exact agree_translated_error x kind hs
  | commit kind =>
    rintro x _ s s' rfl hs
    exact .failure (hR.ofKind x kind) hs
  | await n => exact fun _ _ _ _ _ hs => agree_translated_incomplete ⟨n⟩ hs
  | take n => exact related_translated_take n rule rule'
  | done => exact fun _ _ _ _ hx hs => .success rfl hx hs
  | ref name => exact hrule name rfl
  | _ => cases hleaf

/-- A grammar over an input, and the same grammar in the form of the translated input. -/
theorem related_translated (hinjective : Function.Injective T.element) (hV : ∀ v, V v (v.translate T))
    {g : Grammar τ} (hg : g.Native)
    (hrule : ∀ name, (translating (RunState.Alike V) hR).Related T.Same (rule name) (rule' name)) :
    (translating (RunState.Alike V) hR).Related T.Same (g.parser rule)
      ((g.mapElements T.element).parser rule') := by
  induction g using Grammar.tree_induction with
  | h g ih =>
    have hchild : ∀ p ∈ g.children, (translating (RunState.Alike V) hR).Related T.Same
        (p.parser rule) ((p.mapElements T.element).parser rule') :=
      fun p hp => ih p hp (hg.child hp)
    rw [Grammar.mapElements_eq]
    refine (grammatical_translating hV).related_graft _ _ g ?_ ?_ (fun _ _ => .inl rfl)
      fun p hp => hchild p (Grammar.mem_children_of_direct hp)
    · intro hleaf
      refine related_translated_leaf hinjective g hleaf ?_ fun name _ => hrule name
      rintro mode vs rfl
      exact absurd (.here _) (hg mode vs)
    · rintro len p rfl
      refine bodies_of_parts _ Iff.rfl id (fun n => ⟨n, rfl⟩) ?_ (hchild p (.tail _ (.head _)))
      rintro x _ n rfl _
      exact T.window_take x n

end Link

/-- The same bindings over other elements. -/
def Bindings.mapElements (f : τ → τ') (bindings : Bindings τ) : Bindings τ' :=
  bindings.map fun b => (b.1, b.2.mapElements f)

namespace Link

variable [Payload τ ε] [Payload τ' ε'] [Element τ] [Element τ'] {T : Translation τ τ'}
  {R : ε → ε' → Prop} {hR : Translating T R} {V : Value τ → Value τ' → Prop}

theorem related_translated_rule (hinjective : Function.Injective T.element)
    (hV : ∀ v, V v (v.translate T)) {bindings : Bindings τ} (h : ∀ b ∈ bindings, b.2.Native)
    (depth : Nat) (name : String) :
    (translating (RunState.Alike V) hR).Related T.Same (bindings.rule depth name)
      ((bindings.mapElements T.element).rule depth name) := by
  have hlookup (name : String) : (bindings.mapElements T.element).lookup name =
      (bindings.lookup name).map (Grammar.mapElements T.element) :=
    lookup_map_of_injective Function.injective_id _ bindings name
  refine related_rules (N := Eq) ?_ ?_ depth rfl
  · rintro name _ rfl hnone
    exact ⟨by rw [hlookup, hnone, Option.map_none], rfl⟩
  · rintro name _ g depth rfl hsome ih
    have hg : g.Native := h _ (Bindings.lookup_mem hsome)
    exact ⟨_, by rw [hlookup, hsome, Option.map_some],
      related_translated hinjective hV hg fun name => ih rfl⟩

end Link

end Reprise
