import Mathlib.Data.List.Forall2
import Reprise.Proofs.GrammarLink

/-!
# Translated inputs

The link between an input and its translation, under which primitive parsers answer alike. Buffers are
compared slot by slot.
-/

namespace Reprise

variable {σ σ' τ τ' ε ε' α α' ρ ρ' : Type}

theorem forall₂_set {vs : List α} {vs' : List α'} {R : α → α' → Prop} (h : List.Forall₂ R vs vs') (i : Nat)
    {v : α} {v' : α'} (hv : R v v') : List.Forall₂ R (vs.set i v) (vs'.set i v') := by
  induction h generalizing i with
  | nil => exact .nil
  | cons hw hws ih =>
    cases i with
    | zero => exact .cons hv hws
    | succ i => exact .cons hw (ih i)

/-- Buffers with the same rows, of the same sizes, whose slots hold values that belong together. -/
def Buffers.Alike (V : Value τ → Value τ' → Prop) (b : Buffers τ) (b' : Buffers τ') : Prop :=
  List.Forall₂ (fun row row' => row.1 = row'.1 ∧ List.Forall₂ V row.2.toList row'.2.toList)
    b.rows b'.rows

namespace Buffers.Alike

variable {V : Value τ → Value τ' → Prop} {b : Buffers τ} {b' : Buffers τ'}

theorem refl {V : Value τ → Value τ → Prop} (hV : ∀ v, V v v) (b : Buffers τ) : b.Alike V b :=
  List.forall₂_same.mpr fun _ _ => ⟨rfl, List.forall₂_same.mpr fun v _ => hV v⟩

theorem size_eq (h : b.Alike V b') (name : String) : b.size name = b'.size name := by
  obtain ⟨rows⟩ := b
  obtain ⟨rows'⟩ := b'
  unfold Buffers.size Buffers.get?
  change List.Forall₂ _ rows rows' at h
  induction h with
  | nil => rfl
  | @cons row row' _ _ hrow _ ih =>
    obtain ⟨bound, slots⟩ := row
    obtain ⟨bound', slots'⟩ := row'
    obtain ⟨rfl, hslots⟩ := hrow
    simp only [List.lookup_cons]
    cases name == bound with
    | true => exact hslots.length_eq
    | false => exact ih

theorem write (h : b.Alike V b') (name : String) (slot : Nat) {v : Value τ} {v' : Value τ'}
    (hv : V v v') : (b.write name slot v).Alike V (b'.write name slot v') := by
  refine List.rel_map ?_ h
  rintro ⟨bound, slots⟩ ⟨_, slots'⟩ ⟨rfl, hslots⟩
  refine ⟨rfl, ?_⟩
  dsimp only
  split
  · rw [Array.toList_setIfInBounds, Array.toList_setIfInBounds]
    exact forall₂_set hslots slot hv
  · exact hslots

end Buffers.Alike

/-- States with buffers of the same sizes and as many started folds. What was traced may differ. -/
structure RunState.Alike (V : Value τ → Value τ' → Prop) (s : RunState τ ε) (s' : RunState τ' ε') :
    Prop where
  buffers : s.buffers.Alike V s'.buffers
  starts : s.starts = s'.starts

variable [Payload τ ε] [Payload τ' ε'] [Element τ] [Element τ'] (T : Translation τ τ')

/-- Payloads that stay linked where inputs are translated. -/
structure Translating (R : ε → ε' → Prop) : Prop where
  ofKind : ∀ (x : Window τ) kind, R (Payload.ofKind x kind) (Payload.ofKind (T.window x) kind)
  append : ∀ (x : Window τ) kind {e e'}, R e e' →
    R (Payload.append x kind e) (Payload.append (T.window x) kind e')

namespace Link

variable {T} {S : σ → σ' → Prop} {R : ε → ε' → Prop} {hR : Translating T R}

/-- Links an input with its translation. The same amounts must be asked for. -/
def translating (S : σ → σ' → Prop) (hR : Translating T R) : Link σ σ' τ τ' ε ε' where
  Input x x' := T.window x = x'
  State := S
  Error := R
  hint := some
  extra := 0
  length_eq := by
    rintro x _ rfl
    exact T.length_window x
  drop := by
    rintro x _ k rfl _
    exact T.window_drop x k
  ofKind := by
    rintro x _ kind rfl
    exact hR.ofKind x kind
  append := by
    rintro x _ e e' kind rfl he
    exact hR.append x kind he
  hint_size := by
    intro n n' h hpos
    obtain rfl := Option.some.inj h
    exact ⟨rfl, hpos⟩

section Results

variable {V : α → α' → Prop} {s : σ} {s' : σ'}

theorem agree_translated_error (x : Window τ) (kind : ErrorKind) (hs : S s s') :
    (translating S hR).Agree V (.ok (.errorAt x kind) s) (.ok (.errorAt (T.window x) kind) s') :=
  .error (hR.ofKind x kind) hs

theorem agree_translated_incomplete (n : Needed) (hs : S s s') :
    (translating S hR).Agree V (.ok (.signal (.incomplete n)) s) (.ok (.signal (.incomplete n)) s') := by
  refine .incomplete fun n' h => ?_
  obtain rfl := Option.some.inj h
  exact ⟨s', rfl, hs⟩

theorem agree_translated_drop {x : Window τ} {v : α} {v' : α'} (k : Nat) (hv : V v v') (hs : S s s') :
    (translating S hR).Agree V (.ok (.success v (x.drop k)) s)
      (.ok (.success v' ((T.window x).drop k)) s') :=
  .success hv (T.window_drop x k) hs

theorem agree_translated_tooShort (mode : Mode) (kind : ErrorKind) (wanted : Nat) (x : Window τ)
    (hs : S s s') : (translating S hR).Agree V (.ok (Parser.tooShort mode kind wanted x) s)
      (.ok (Parser.tooShort mode kind wanted (T.window x)) s') := by
  cases mode with
  | complete => exact agree_translated_error x kind hs
  | streaming =>
    unfold Parser.tooShort
    rw [T.length_window]
    exact agree_translated_incomplete _ hs

end Results

theorem related_translated_one :
    (translating S hR).Related (fun e e' => T.element e = e') Parser.one Parser.one := by
  rintro x _ s s' rfl hs
  rw [Parser.one_eq, Parser.one_eq, T.elements_window]
  cases hx : x.elements with
  | nil => exact agree_translated_error x .eof hs
  | cons e es => exact agree_translated_drop 1 rfl hs

theorem related_translated_eof : (translating S hR).Related Eq Parser.eof Parser.eof := by
  rintro x _ s s' rfl hs
  unfold Parser.eof Window.isEmpty
  rw [T.length_window]
  by_cases hx : (x.length == 0) = true
  · simp only [hx, if_true]
    exact .success rfl rfl hs
  · simp only [hx]
    exact agree_translated_error x .eof hs

theorem related_translated_tag {same : τ → ρ → Bool} {same' : τ' → ρ' → Bool} {pattern : List ρ}
    {pattern' : List ρ'} (mode : Mode) (hlen : pattern.length = pattern'.length)
    (hagree : ∀ es, Parser.agree same es pattern = Parser.agree same' (es.map T.element) pattern') :
    (translating S hR).Related (fun w w' => T.window w = w') (Parser.tag same mode pattern)
      (Parser.tag same' mode pattern') := by
  rintro x _ s s' rfl hs
  rw [Parser.tag_eq, Parser.tag_eq, hagree, hlen, T.elements_window, T.length_window]
  by_cases ha : Parser.agree same' (x.elements.map T.element) pattern' = true
  · by_cases hl : x.length < pattern'.length
    · simp only [ha, hl, if_true]
      exact agree_translated_tooShort mode .tag _ x hs
    · simp only [ha, hl, if_true, if_false]
      exact agree_translated_drop _ (T.window_take x _) hs
  · simp only [ha]
    exact agree_translated_error x .tag hs

theorem related_translated_takeWhile {test : τ → Bool} {test' : τ' → Bool} (least : Nat)
    (kind : ErrorKind) (htest : ∀ e, test e = test' (T.element e)) :
    (translating S hR).Related (fun w w' => T.window w = w') (Parser.takeWhile test least kind)
      (Parser.takeWhile test' least kind) := by
  obtain rfl : test = test' ∘ T.element := funext htest
  rintro x _ s s' rfl hs
  have hlen : ((T.window x).elements.takeWhile test').length =
      (x.elements.takeWhile (test' ∘ T.element)).length := by
    rw [T.elements_window, List.takeWhile_map, List.length_map]
  rw [Parser.takeWhile_eq, Parser.takeWhile_eq, hlen]
  by_cases hn : (x.elements.takeWhile (test' ∘ T.element)).length < least
  · simp only [hn, if_true]
    exact agree_translated_error x kind hs
  · simp only [hn, if_false]
    exact agree_translated_drop _ (T.window_take x _) hs

theorem related_translated_uint (mode : Mode) (width : Width) (order : ByteOrder) :
    (translating S hR).Related Eq (Parser.uint mode width order) (Parser.uint mode width order) := by
  rintro x _ s s' rfl hs
  have hoctets : ((T.window x).take width.bytes).elements.map Element.octet =
      (x.take width.bytes).elements.map Element.octet := by
    rw [← T.window_take, T.elements_window, List.map_map]
    refine List.map_congr_left fun e _ => ?_
    exact congrArg Nat.toUInt8 (T.number_element e)
  rw [Parser.uint_eq, Parser.uint_eq, hoctets, T.length_window]
  by_cases hl : x.length < width.bytes
  · simp only [hl, if_true]
    exact agree_translated_tooShort mode .eof _ x hs
  · simp only [hl, if_false]
    exact agree_translated_drop _ rfl hs

theorem related_translated_take (n : Nat) (rule : String → Rule τ ε) (rule' : String → Rule τ' ε')
    {S : RunState τ ε → RunState τ' ε' → Prop} :
    (translating S hR).Related T.Same ((Grammar.take n).parser rule) ((Grammar.take n).parser rule') := by
  rintro x _ s s' rfl hs
  unfold Grammar.parser
  by_cases hn : x.length < n
  · simp only [T.length_window, if_pos hn]
    exact agree_translated_incomplete _ hs
  · have hle := Nat.le_of_not_lt hn
    have hle' : n ≤ (T.window x).length := by rw [T.length_window]; exact hle
    simp only [T.length_window, if_neg hn, Parser.map, Parser.take_eq hle, Parser.take_eq hle']
    exact agree_translated_drop n (congrArg Value.slice (T.window_take x n)) hs

/-- Translated inputs keep the nodes of grammars related, where slots may hold translated values. -/
theorem grammatical_translating {V : Value τ → Value τ' → Prop} (hV : ∀ v, V v (v.translate T)) :
    (translating (RunState.Alike V) hR).Grammatical T where
  take := by
    rintro x _ n rfl _
    exact T.window_take x n
  noted_left _ hs := ⟨hs.buffers, hs.starts⟩
  noted_right _ hs := ⟨hs.buffers, hs.starts⟩
  size buffer hs := hs.buffers.size_eq buffer
  written buffer slot v hs := ⟨hs.buffers.write buffer slot (hV v), hs.starts⟩
  starts hs := hs.starts
  started hs := ⟨hs.buffers, congrArg (· + 1) hs.starts⟩

end Link

end Reprise
