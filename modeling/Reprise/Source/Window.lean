import Reprise.Fault

/-!
# Windows

A window is a contiguous part of a source: the elements it shows and the offset at which they
start. Parsers are applied to windows and answer with smaller ones, so a position is never an
index into shared text. The length is stored, hence known without a walk over the elements.
-/

namespace Reprise

structure Window (τ : Type) where
  offset : Nat
  elements : List τ
  length : Nat
  length_eq : length = elements.length

namespace Window

variable {τ : Type}

/-- The whole of a source. -/
def ofList (xs : List τ) : Window τ := ⟨0, xs, xs.length, rfl⟩

@[simp] theorem offset_ofList (xs : List τ) : (ofList xs).offset = 0 := rfl
@[simp] theorem elements_ofList (xs : List τ) : (ofList xs).elements = xs := rfl
@[simp] theorem length_ofList (xs : List τ) : (ofList xs).length = xs.length := rfl

theorem ext {w v : Window τ} (ho : w.offset = v.offset) (he : w.elements = v.elements) :
    w = v := by
  obtain ⟨o, xs, n, hn⟩ := w
  obtain ⟨o', xs', n', hn'⟩ := v
  simp only at ho he
  subst ho he hn hn'
  rfl

def isEmpty (w : Window τ) : Bool := w.length == 0

/-- The first `k` elements. -/
def take (w : Window τ) (k : Nat) : Window τ :=
  ⟨w.offset, w.elements.take k, min k w.length, by simp [w.length_eq]⟩

/-- All but the first `k` elements. -/
def drop (w : Window τ) (k : Nat) : Window τ :=
  ⟨w.offset + min k w.length, w.elements.drop k, w.length - k, by simp [w.length_eq]⟩

@[simp] theorem offset_take (w : Window τ) (k : Nat) : (w.take k).offset = w.offset := rfl
@[simp] theorem elements_take (w : Window τ) (k : Nat) :
    (w.take k).elements = w.elements.take k := rfl
@[simp] theorem length_take (w : Window τ) (k : Nat) : (w.take k).length = min k w.length := rfl
@[simp] theorem offset_drop (w : Window τ) (k : Nat) :
    (w.drop k).offset = w.offset + min k w.length := rfl
@[simp] theorem elements_drop (w : Window τ) (k : Nat) :
    (w.drop k).elements = w.elements.drop k := rfl
@[simp] theorem length_drop (w : Window τ) (k : Nat) : (w.drop k).length = w.length - k := rfl

@[simp] theorem drop_zero (w : Window τ) : w.drop 0 = w := by apply ext <;> simp

theorem drop_drop (w : Window τ) (j k : Nat) : (w.drop j).drop k = w.drop (j + k) := by
  apply ext
  · simp only [offset_drop, length_drop]
    omega
  · simp

theorem take_append_drop (w : Window τ) (k : Nat) :
    (w.take k).elements ++ (w.drop k).elements = w.elements := by simp

/-- Cuts a window in two. The cut must lie inside the window. -/
def split (w : Window τ) (k : Nat) : Except Fault (Window τ × Window τ) :=
  if k ≤ w.length then .ok (w.take k, w.drop k) else .error .splitPastEnd

theorem split_of_le {w : Window τ} {k : Nat} (h : k ≤ w.length) :
    w.split k = .ok (w.take k, w.drop k) := by simp [split, h]

/-- The element at an index counted from the window's start. -/
def get (w : Window τ) (i : Nat) : Except Fault τ :=
  match w.elements[i]? with
  | some e => .ok e
  | none => .error .indexPastEnd

/-- How far the second window starts behind the first. -/
def distance (w v : Window τ) : Int := (v.offset : Int) - w.offset

/-- Windows with the same elements, wherever they start. -/
def sameElements [BEq τ] (w v : Window τ) : Bool := w.elements == v.elements

end Window

end Reprise
