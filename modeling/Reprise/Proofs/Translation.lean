import Reprise.Grammar.Meaning
import Reprise.Proofs.Link

/-!
# Translations of values

Values may differ in what stands for an element and in where their windows stand. Whatever a grammar
makes of values goes along: numbers, the order, projections, folds and containers.
-/

namespace Reprise

variable {τ τ' : Type}

namespace Window

/-- The same elements, further behind in a source. -/
def shift (k : Nat) (w : Window τ) : Window τ := ⟨w.offset + k, w.elements, w.length, w.length_eq⟩

@[simp] theorem offset_shift (k : Nat) (w : Window τ) : (w.shift k).offset = w.offset + k := rfl
@[simp] theorem elements_shift (k : Nat) (w : Window τ) : (w.shift k).elements = w.elements := rfl
@[simp] theorem length_shift (k : Nat) (w : Window τ) : (w.shift k).length = w.length := rfl

/-- What stands between two other parts of a source. -/
theorem take_drop_ofList (front part back : List τ) :
    ((ofList (front ++ (part ++ back))).drop front.length).take part.length =
      (ofList part).shift front.length := by
  apply ext <;> simp

theorem drop_drop_ofList (front part back : List τ) :
    ((ofList (front ++ (part ++ back))).drop front.length).drop part.length =
      (ofList back).shift (front.length + part.length) := by
  apply ext <;> simp

end Window

/-- A change of elements and windows that no number and no comparison shows. -/
structure Translation (τ τ' : Type) [Element τ] [Element τ'] where
  element : τ → τ'
  window : Window τ → Window τ'
  number_element : ∀ e, Element.number (element e) = Element.number e
  compare_element : ∀ a b, Element.compare (element a) (element b) = Element.compare a b
  elements_window : ∀ w, (window w).elements = w.elements.map element
  window_take : ∀ w k, window (w.take k) = (window w).take k
  window_drop : ∀ w k, window (w.drop k) = (window w).drop k

variable [Element τ] [Element τ'] (T : Translation τ τ')

/-- Nothing is changed. -/
def Translation.identity (τ : Type) [Element τ] : Translation τ τ where
  element := id
  window := id
  number_element _ := rfl
  compare_element _ _ := rfl
  elements_window w := (List.map_id w.elements).symm
  window_take _ _ := rfl
  window_drop _ _ := rfl

theorem Translation.length_window (w : Window τ) : (T.window w).length = w.length := by
  rw [Window.length_eq, Window.length_eq, T.elements_window, List.length_map]

namespace Value

mutual

/-- The same value over other elements and windows. -/
def translate : Value τ → Value τ'
  | unit => unit
  | num n => num n
  | elem e => elem (T.element e)
  | slice w => slice (T.window w)
  | list vs => list (translateAll vs)
  | dropped n => dropped n
  | pair v w => pair (translate v) (translate w)
  | missing => missing
  | given v => given (translate v)
  | text es => text (es.map T.element)

/-- The same for lists of values. -/
def translateAll : List (Value τ) → List (Value τ')
  | [] => []
  | v :: vs => translate v :: translateAll vs

end

theorem translateAll_eq_map (vs : List (Value τ)) : translateAll T vs = vs.map (translate T) := by
  induction vs with
  | nil => rfl
  | cons v vs ih => rw [translateAll, ih, List.map_cons]

@[simp] theorem translate_list (vs : List (Value τ)) :
    (list vs).translate T = list (vs.map (translate T)) := by rw [translate, translateAll_eq_map]

mutual

theorem translate_identity : (v : Value τ) → v.translate (.identity τ) = v
  | unit | num _ | elem _ | slice _ | dropped _ | missing => rfl
  | list vs => by rw [translate, translateAll_identity vs]
  | pair v w => by rw [translate, translate_identity v, translate_identity w]
  | given v => by rw [translate, translate_identity v]
  | text es => congrArg text (List.map_id es)

theorem translateAll_identity : (vs : List (Value τ)) → translateAll (.identity τ) vs = vs
  | [] => rfl
  | v :: vs => by rw [translateAll, translate_identity v, translateAll_identity vs]

end

theorem number_translate : (v : Value τ) → (v.translate T).number = v.number
  | unit | num _ | dropped _ | missing => rfl
  | elem e => T.number_element e
  | slice w => T.length_window w
  | list vs => by simp [number]
  | pair v w => number_translate v
  | given v => number_translate v
  | text es => List.length_map _

theorem decimal_map (es : List τ) : decimal (es.map T.element) = decimal es := by
  unfold decimal
  rw [List.foldl_map]
  simp only [T.number_element]

theorem compareElements_map (as bs : List τ) :
    compareElements (as.map T.element) (bs.map T.element) = compareElements as bs := by
  induction as generalizing bs with
  | nil => cases bs <;> rfl
  | cons a as ih =>
    cases bs with
    | nil => rfl
    | cons b bs => simp only [List.map_cons, compareElements, T.compare_element, ih]

mutual

theorem compare_translate (v w : Value τ) :
    compare (v.translate T) (w.translate T) = compare v w := by
  cases v with
  | elem a => cases w <;> simp [translate, compare, rank, T.compare_element]
  | slice a =>
    cases w <;> simp [translate, compare, rank, T.elements_window, compareElements_map]
  | text as => cases w <;> simp [translate, compare, rank, compareElements_map]
  | list vs =>
    cases w with
    | list ws => simp only [translate, compare, compareAll_translate vs ws]
    | _ => rfl
  | pair a b =>
    cases w with
    | pair c d => simp only [translate, compare, compare_translate a c, compare_translate b d]
    | _ => rfl
  | given a =>
    cases w with
    | given b => simp only [translate, compare, compare_translate a b]
    | _ => rfl
  | _ => cases w <;> rfl

theorem compareAll_translate (vs ws : List (Value τ)) :
    compareAll (translateAll T vs) (translateAll T ws) = compareAll vs ws := by
  cases vs with
  | nil => cases ws <;> rfl
  | cons v vs =>
    cases ws with
    | nil => rfl
    | cons w ws =>
      simp only [translateAll, compareAll, compare_translate v w, compareAll_translate vs ws]

end

end Value

theorem Projection.apply_translate (F : Projection) (v : Value τ) :
    F.apply (v.translate T) = (F.apply v).translate T := by
  cases F with
  | number => exact congrArg Value.num (Value.number_translate T v)
  | decimal =>
    cases v with
    | slice w =>
      exact congrArg Value.num (by rw [T.elements_window, Value.decimal_map])
    | _ => rfl
  | first | second => cases v <;> rfl
  | singleton | unit | same => rfl

namespace FoldStep

theorem items_translate (v : Value τ) :
    items (v.translate T) = (items v).map (Value.translate T) := by
  cases v with
  | list vs => exact Value.translateAll_eq_map T vs
  | _ => rfl

theorem apply_translate (step : FoldStep) (acc v : Value τ) :
    step.apply (acc.translate T) (v.translate T) = (step.apply acc v).translate T := by
  cases step with
  | count | sum | horner => simp only [apply, Value.translate, Value.number_translate]
  | push | cons => simp [apply, items_translate]
  | pair | last => rfl

end FoldStep

/-- Values of which one is the translation of the other. -/
def Translation.Same (v : Value τ) (v' : Value τ') : Prop := v.translate T = v'

theorem Translation.same_identity : (Translation.identity τ).Same = Eq := by
  funext v v'
  unfold Same
  rw [Value.translate_identity]

namespace Container

variable {α β : Type}

theorem insertAfterEqual_map {f : α → β} {cmp : α → α → Ordering} {cmp' : β → β → Ordering}
    (h : ∀ a b, cmp' (f a) (f b) = cmp a b) (v : α) (vs : List α) :
    (insertAfterEqual cmp v vs).map f = insertAfterEqual cmp' (f v) (vs.map f) := by
  induction vs with
  | nil => rfl
  | cons w ws ih =>
    simp only [insertAfterEqual, List.map_cons, h]
    split
    · rfl
    · rw [List.map_cons, ih]

theorem insertUnlessEqual_map {f : α → β} {cmp : α → α → Ordering} {cmp' : β → β → Ordering}
    (h : ∀ a b, cmp' (f a) (f b) = cmp a b) (v : α) (vs : List α) :
    (insertUnlessEqual cmp v vs).map f = insertUnlessEqual cmp' (f v) (vs.map f) := by
  induction vs with
  | nil => rfl
  | cons w ws ih =>
    simp only [insertUnlessEqual, List.map_cons, h]
    cases cmp v w with
    | lt => rfl
    | eq => rfl
    | gt => rw [List.map_cons, ih]

/-- A container that takes translated values holds the translation of what it would hold. -/
theorem linked_of_map {κ κ' : Type} {into : Container (Value τ) κ} {into' : Container (Value τ') κ'}
    {f : κ → κ'} (empty : f into.empty = into'.empty) (room : ∀ n, f (into.withRoom n) = into'.withRoom n)
    (insert : ∀ held v, f (into.insert held v) = into'.insert (f held) (v.translate T)) :
    Linked T.Same (fun held held' => f held = held') into into' where
  empty := empty
  room := room
  insert := by
    rintro held _ v _ rfl rfl
    exact insert held v

end Container

/-- What is made of the container of a shape, over values and over their translations. -/
theorem Shape.use_translated {ω ω' : Type} {P : ω → ω' → Prop} (shape : Shape)
    {F : {κ : Type} → Container (Value τ) κ → (κ → Value τ) → ω}
    {F' : {κ : Type} → Container (Value τ') κ → (κ → Value τ') → ω'}
    (h : ∀ (κ κ' : Type) (into : Container (Value τ) κ) (into' : Container (Value τ') κ')
      (finish : κ → Value τ) (finish' : κ' → Value τ') (f : κ → κ'),
      Container.Linked T.Same (fun held held' => f held = held') into into' →
      (∀ held, (finish held).translate T = finish' (f held)) →
      P (F into finish) (F' into' finish')) : P (shape.use F) (shape.use F') := by
  cases shape with
  | list =>
    refine h _ _ .sequence .sequence _ _ (Array.map (Value.translate T)) ?_ ?_
    · exact Container.linked_of_map T Array.map_empty (fun _ => Array.map_empty) fun _ _ => Array.map_push
    · intro held
      rw [Value.translate_list, Array.toList_map]
  | set =>
    refine h _ _ (.sortedUnique Value.compare) (.sortedUnique Value.compare) _ _
      (List.map (Value.translate T)) ?_ fun held => Value.translate_list T held
    exact Container.linked_of_map T rfl (fun _ => rfl) fun held v =>
      Container.insertUnlessEqual_map (Value.compare_translate T) v held
  | multiset =>
    refine h _ _ (.sorted Value.compare) (.sorted Value.compare) _ _
      (List.map (Value.translate T)) ?_ fun held => Value.translate_list T held
    exact Container.linked_of_map T rfl (fun _ => rfl) fun held v =>
      Container.insertAfterEqual_map (Value.compare_translate T) v held
  | dropped =>
    exact h _ _ .counter .counter _ _ id (Container.linked_of_map T rfl (fun _ => rfl) fun _ _ => rfl)
      fun _ => rfl
  | text =>
    refine h _ _ letters letters _ _ (Array.map T.element) ?_ ?_
    · refine Container.linked_of_map T Array.map_empty (fun _ => Array.map_empty) fun held v => ?_
      cases v with
      | elem e => exact Array.map_push
      | _ => rfl
    · intro held
      rw [Value.translate, Array.toList_map]

end Reprise
