import Reprise.Proofs.GrammarLink
import Reprise.Proofs.Sorting
import Reprise.Proofs.ValueOrder

/-!
# Containers of one parse

What a parser gathers its values in makes no difference to what it reads. Whatever a container holds in the
end is a function of the values that a sequence would hold, so the two parsers are one, up to that function:
they get the same values from the same inputs and hand on the same signals.
-/

namespace Reprise

variable {σ τ ε α β γ κ : Type}

/-- The element that a value is. -/
def Value.element? : Value τ → Option τ
  | elem e => some e
  | _ => none

namespace Container

/-- What a container shows is a function of the values it took, whatever room was made for them. -/
structure Keeps (into : Container α κ) (view : κ → γ) (content : List α → γ) : Prop where
  empty : view into.empty = content []
  room : ∀ n, view (into.withRoom n) = content []
  insert : ∀ held vs v, view held = content vs → view (into.insert held v) = content (vs ++ [v])

theorem keeps_sequence : (sequence : Container α _).Keeps Array.toList id where
  empty := rfl
  room _ := rfl
  insert := by
    rintro held _ v rfl
    exact Array.toList_push

theorem keeps_counter : (counter : Container α _).Keeps id List.length where
  empty := rfl
  room _ := rfl
  insert := by
    rintro _ vs v rfl
    exact (@List.length_append _ vs [v]).symm

theorem keeps_sorted (cmp : α → α → Ordering) [Std.TransCmp cmp] :
    (sorted cmp).Keeps id (List.mergeSort · (notAfter cmp)) where
  empty := List.mergeSort_nil.symm
  room _ := List.mergeSort_nil.symm
  insert := by
    rintro _ vs v rfl
    exact (mergeSort_append_singleton vs v).symm

theorem keeps_sortedUnique (cmp : α → α → Ordering) [Std.TransCmp cmp] :
    (sortedUnique cmp).Keeps id fun vs => firsts cmp (vs.mergeSort (notAfter cmp)) where
  empty := by rw [List.mergeSort_nil]; rfl
  room _ := by rw [List.mergeSort_nil]; rfl
  insert := by
    rintro _ vs v rfl
    exact (firsts_append_singleton vs v).symm

/-- Where characters are gathered as text, whatever is no character is left out. -/
theorem keeps_letters : (Shape.letters : Container (Value τ) _).Keeps Array.toList
    (List.filterMap Value.element?) where
  empty := rfl
  room _ := rfl
  insert := by
    intro held vs v hheld
    rw [List.filterMap_append, ← hheld]
    cases v with
    | elem e => exact Array.toList_push
    | _ => exact (List.append_nil _).symm

theorem Keeps.map {δ : Type} {into : Container α κ} {view : κ → γ} {content : List α → γ}
    (h : into.Keeps view content) {f : γ → δ} (hf : Function.Injective f) :
    into.Keeps (fun held => f (view held)) fun vs => f (content vs) where
  empty := congrArg f h.empty
  room n := congrArg f (h.room n)
  insert held vs v hheld := congrArg f (h.insert held vs v (hf hheld))

end Container

/-- What is left in the end of the values that a repetition collects. -/
def Shape.content [Element τ] : Shape → List (Value τ) → Value τ
  | list, vs => .list vs
  | set, vs => .list (Container.firsts Value.compare (vs.mergeSort (Container.notAfter Value.compare)))
  | multiset, vs => .list (vs.mergeSort (Container.notAfter Value.compare))
  | dropped, vs => .dropped vs.length
  | text, vs => .text (vs.filterMap Value.element?)

namespace Container

theorem keeps_shape [Element τ] [Std.TransCmp (Element.compare : τ → τ → Ordering)] (shape : Shape) :
    shape.use fun into finish => into.Keeps finish (shape.content : List (Value τ) → Value τ) := by
  cases shape with
  | list => exact keeps_sequence.map fun _ _ => Value.list.inj
  | set => exact (keeps_sortedUnique Value.compare).map fun _ _ => Value.list.inj
  | multiset => exact (keeps_sorted Value.compare).map fun _ _ => Value.list.inj
  | dropped => exact keeps_counter.map fun _ _ => Value.dropped.inj
  | text => exact keeps_letters.map fun _ _ => Value.text.inj

/-- Whatever gathers values in a container reads what it reads where it gathers them as a sequence, and the
container shows what `content` makes of that sequence. -/
structure Gathers (into : Container α κ) (view : κ → γ) (content : List α → γ) : Prop where
  collect : ∀ {σ τ ε : Type} [Payload τ ε] (times : Collecting) (p : Parser σ τ ε α),
    (times.parser into p).map view = (times.parser sequence p).map fun vs => content vs.toList
  manyTill : ∀ {σ τ ε β : Type} [Payload τ ε] (p : Parser σ τ ε α) (till : Parser σ τ ε β),
    (Parser.manyTill into p till).map (fun (held, u) => (view held, u)) =
      (Parser.manyTill sequence p till).map fun (vs, u) => (content vs.toList, u)
  separatedList0 : ∀ {σ τ ε β : Type} [Payload τ ε] (sep : Parser σ τ ε β) (p : Parser σ τ ε α),
    (Parser.separatedList0 into sep p).map view =
      (Parser.separatedList0 sequence sep p).map fun vs => content vs.toList
  separatedList1 : ∀ {σ τ ε β : Type} [Payload τ ε] (sep : Parser σ τ ε β) (p : Parser σ τ ε α),
    (Parser.separatedList1 into sep p).map view =
      (Parser.separatedList1 sequence sep p).map fun vs => content vs.toList
  lengthCount : ∀ {σ τ ε : Type} [Payload τ ε] (len : Parser σ τ ε Nat) (p : Parser σ τ ε α),
    (Parser.lengthCount len into p).map view =
      (Parser.lengthCount len sequence p).map fun vs => content vs.toList

end Container

namespace Link

variable [Payload τ ε] {p : Parser σ τ ε α} {p' : Parser σ τ ε β}

/-- The link of a run with itself. -/
abbrev self (σ τ ε : Type) [Payload τ ε] : Link σ σ τ τ ε ε := extending Eq Extending.id

theorem related_self (p : Parser σ τ ε α) : (self σ τ ε).Related Eq p p := by
  rintro x _ s _ rfl rfl
  rw [Window.extend_nil]
  cases p x s with
  | ok o t => exact agree_same Extending.id (fun _ => rfl) o rfl
  | error why t => exact .stop rfl

/-- Parsers whose values are alike in what is seen of them are one as far as it is seen. -/
theorem Related.map_eq {f : α → γ} {f' : β → γ}
    (h : (self σ τ ε).Related (fun v v' => f v = f' v') p p') : p.map f = p'.map f' := by
  funext x s
  have hmap : (self σ τ ε).Related Eq (p.map f) (p'.map f') := related_map h fun _ _ hv => hv
  exact ((hmap x _ s s rfl rfl).mapped PayloadMap.id).eq.symm.trans (by rw [Window.extend_nil])

end Link

/-- What a repetition puts into a container, it puts there as the values of a sequence one by one. -/
theorem Repetition.collect_eq_map [Payload τ ε] {r : Repetition} (hends : r.Ends) (into : Container α κ)
    (held : κ) (p : Parser σ τ ε α) : Parser.collect r into held p =
      (Parser.collect r .sequence #[] p).map fun vs => into.insertAll held vs.toList := by
  have hinsert (k : κ) (vs : Array α) (v w : α) (hk : k = into.insertAll held vs.toList) (hv : v = w) :
      into.insert k v = into.insertAll held (vs.push w).toList := by
    rw [hk, hv, Array.toList_push, Container.insertAll, Container.insertAll, List.foldl_append]
    rfl
  have hrelated : (Link.self σ τ ε).Related (fun k vs => k = into.insertAll held (Array.toList vs))
      (Parser.collect r into held p) (Parser.collect r .sequence #[] p) :=
    Link.related_run (Link.related_self p) (.inl rfl) (Link.takes_pure hinsert) hends rfl
  exact (Parser.map_id _).symm.trans (hrelated.map_eq (f := fun k => k))

namespace Container

/-- Containers that hold the same values in the end hold the same after every value. -/
theorem Keeps.linked {into : Container α κ} {view : κ → γ} {content : List α → γ}
    (h : into.Keeps view content) :
    into.Linked Eq (fun held vs => view held = content (Array.toList vs)) sequence where
  empty := h.empty
  room := h.room
  insert := by
    rintro held vs v _ hheld rfl
    exact (h.insert held vs.toList v hheld).trans (congrArg content Array.toList_push.symm)

theorem Keeps.gathers {into : Container α κ} {view : κ → γ} {content : List α → γ}
    (h : into.Keeps view content) : into.Gathers view content where
  collect times p := by
    rw [Collecting.parser_eq_collect, Collecting.parser_eq_collect]
    exact (Link.related_collect (Link.related_self p) (.inl rfl) times.ends h.linked
      (times.held_linked h.linked)).map_eq
  manyTill p till := by
    refine Link.Related.map_eq ?_
    refine Link.related_manyTill (Link.related_self p) (.inl rfl) (Link.related_self till) ?_ h.linked
    rintro held vs u _ hheld rfl
    exact congrArg (·, u) hheld
  separatedList0 sep p := (Link.related_separatedList0 (Link.related_self p) (.inl rfl)
    (Link.related_self sep) (.inl rfl) h.linked).map_eq
  separatedList1 sep p := (Link.related_separatedList1 (Link.related_self p) (.inl rfl)
    (Link.related_self sep) (.inl rfl) h.linked).map_eq
  lengthCount len p := (Link.related_lengthCount (Link.related_self len) (Link.related_self p)
    (.inl rfl) h.linked).map_eq

theorem gathers_shape [Element τ] [Std.TransCmp (Element.compare : τ → τ → Ordering)] (shape : Shape) :
    shape.use fun into finish => into.Gathers finish (shape.content : List (Value τ) → Value τ) := by
  have h := keeps_shape (τ := τ) shape
  cases shape <;> exact h.gathers

/-- The choice of a container never changes a parse. As a sequence, values are gathered in the order in which
they arrive, also by other containers that keep this order; one by one in their places they are sorted, and of
equal ones all are held as they arrived, or the first; and they are counted, or spelled where they are characters.
So it is for every order, where values may be equal that are not the same, and with it for all that a grammar
gathers its values in. Where equal values are the same, those that are held once are left without their
duplicates. -/
theorem gathers_in_any (cmp : α → α → Ordering) [Std.TransCmp cmp] :
    (∀ {κ γ : Type} {into : Container α κ} {view : κ → γ} {content : List α → γ},
      into.Keeps view content → into.Gathers view content) ∧
    (sequence : Container α _).Gathers Array.toList id ∧
    (sorted cmp).Gathers id (List.mergeSort · (notAfter cmp)) ∧
    (sortedUnique cmp).Gathers id (fun vs => firsts cmp (vs.mergeSort (notAfter cmp))) ∧
    (∀ [DecidableEq α] [Std.LawfulEqCmp cmp],
      (sortedUnique cmp).Gathers id fun vs => (vs.mergeSort (notAfter cmp)).dedup) ∧
    (counter : Container α _).Gathers id List.length ∧
    (∀ {τ : Type}, (Shape.letters : Container (Value τ) _).Gathers Array.toList
        (List.filterMap Value.element?) ∧
      ∀ es : List τ, (es.map .elem).filterMap Value.element? = es) ∧
    ∀ {τ : Type} [Element τ] [Std.TransCmp (Element.compare : τ → τ → Ordering)] (shape : Shape),
      shape.use fun into finish => into.Gathers finish (shape.content : List (Value τ) → Value τ) := by
  refine ⟨Keeps.gathers, keeps_sequence.gathers, (keeps_sorted cmp).gathers, (keeps_sortedUnique cmp).gathers,
    ?_, keeps_counter.gathers, ⟨keeps_letters.gathers, fun es => ?_⟩, gathers_shape⟩
  · intro _ _
    have hfirsts (vs : List α) := firsts_eq_dedup (pairwise_mergeSort cmp vs)
    simpa only [hfirsts] using (keeps_sortedUnique cmp).gathers
  · rw [List.filterMap_map]
    exact List.filterMap_some

/-- Bytes in the order of their numbers, of which one arrives twice, and slices, which are equal by content. -/
theorem gathers_in_any_bytes :
    let numbers : UInt8 → UInt8 → Ordering := compare
    let x : Window UInt8 := .ofList [3, 1, 3, 2]
    let found {κ : Type} (into : Container UInt8 κ) :
        EStateM.Result Stop Unit (Outcome UInt8 (Trail UInt8) κ) := Parser.many0 into Parser.one x ()
    let slices : EStateM.Result Stop Unit (Outcome UInt8 (Trail UInt8) (List (Value UInt8))) :=
      Parser.manyBetween 3 3 (sortedUnique Value.compare) ((Parser.take 1).map .slice) x ()
    (sorted numbers).Gathers id (List.mergeSort · (notAfter numbers)) ∧
      found (sorted numbers) = .ok (.success [1, 2, 3, 3] (x.drop 4)) () ∧
      (sortedUnique numbers).Gathers id (fun vs => (vs.mergeSort (notAfter numbers)).dedup) ∧
      found (sortedUnique numbers) = .ok (.success [1, 2, 3] (x.drop 4)) () ∧
      (sortedUnique (Value.compare (τ := UInt8))).Gathers id
        (fun vs => firsts Value.compare (vs.mergeSort (notAfter Value.compare))) ∧
      slices = .ok (.success [.slice ((x.drop 1).take 1), .slice (x.take 1)] (x.drop 3)) () := by
  intro numbers x found slices
  obtain ⟨-, -, hsorted, -, hunique, -⟩ := gathers_in_any numbers
  exact ⟨hsorted, rfl, hunique, rfl, (gathers_in_any Value.compare).2.2.2.1, rfl⟩

end Container

end Reprise
