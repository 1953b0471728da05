import Reprise.Grammar.Value

/-!
# The order of values

Values are put in order by form and then by content, however deep they are. Each is spelled as a row of marks, its
form first, and with a mark before every part that tells that there is one more. Rows of marks are compared mark
by mark, and so the order of values is a total preorder where that of elements is one. It is no more than that:
two slices are equal in it if their elements are, wherever they stand.
-/

namespace Reprise

open Std

/-- What values are spelled with. -/
inductive Mark (τ : Type) where
  | num (n : Nat)
  | elem (e : τ)

namespace Mark

variable {τ : Type} [Element τ]

def compare : Mark τ → Mark τ → Ordering
  | num m, num n => Ord.compare m n
  | elem a, elem b => Element.compare a b
  | num _, elem _ => .lt
  | elem _, num _ => .gt

variable [TransCmp (Element.compare : τ → τ → Ordering)]

instance : TransCmp (compare (τ := τ)) where
  eq_swap {a b} := by
    have hswap (x y : τ) : Element.compare x y = (Element.compare y x).swap := OrientedCmp.eq_swap
    cases a <;> cases b
    · exact OrientedOrd.eq_swap
    · rfl
    · rfl
    · exact hswap _ _
  isLE_trans {a b c} hab hbc := by
    have htrans {x y z : τ} : (Element.compare x y).isLE → (Element.compare y z).isLE →
        (Element.compare x z).isLE := TransCmp.isLE_trans
    cases a <;> cases b <;> cases c
    case num.num.num => exact TransOrd.isLE_trans hab hbc
    case elem.elem.elem => exact htrans hab hbc
    all_goals first | rfl | contradiction

end Mark

namespace Element

instance : TransCmp (compare (τ := Narrow)) := inferInstanceAs (TransCmp (compareOn number))

instance : TransCmp (compare (τ := UInt8)) := inferInstanceAs (TransCmp (compareOn number))

instance : TransCmp (compare (τ := UInt32)) := inferInstanceAs (TransCmp (compareOn number))

instance : TransCmp (compare (τ := Char)) := inferInstanceAs (TransCmp (compareOn number))

instance : TransCmp (compare (τ := String)) := inferInstanceAs (TransOrd String)

end Element

namespace Value

variable {τ : Type} [Element τ]

/-- Elements, each announced. -/
def marks : List τ → List (Mark τ)
  | [] => [.num 0]
  | e :: es => .num 1 :: .elem e :: marks es

mutual

/-- A value behind its form. -/
def contents : Value τ → List (Mark τ)
  | unit => []
  | num n => [.num n]
  | elem e => [.elem e]
  | slice w => marks w.elements
  | list vs => contentsOfAll vs
  | dropped n => [.num n]
  | pair v w => .num v.rank :: (v.contents ++ .num w.rank :: w.contents)
  | missing => [.num 0]
  | given v => .num 1 :: .num v.rank :: v.contents
  | text es => marks es

/-- Values, each announced. -/
def contentsOfAll : List (Value τ) → List (Mark τ)
  | [] => [.num 0]
  | v :: vs => .num 1 :: .num v.rank :: (v.contents ++ contentsOfAll vs)

end

def spelled (v : Value τ) : List (Mark τ) := .num v.rank :: v.contents

theorem compareLex_marks (as bs : List τ) (r r' : List (Mark τ)) :
    List.compareLex Mark.compare (marks as ++ r) (marks bs ++ r') =
      (compareElements as bs).then (List.compareLex Mark.compare r r') := by
  induction as generalizing bs with
  | nil => cases bs <;> exact List.compareLex_cons_cons
  | cons a as ih =>
    cases bs with
    | nil => exact List.compareLex_cons_cons
    | cons b bs =>
      simp only [marks, compareElements, List.cons_append, Ordering.then_assoc, ← ih]
      exact List.compareLex_cons_cons.trans List.compareLex_cons_cons

theorem compare_of_rank_ne {v w : Value τ} (h : v.rank ≠ w.rank) :
    compare v w = Ord.compare v.rank w.rank := by
  cases v <;> cases w <;> first | rfl | exact absurd rfl h

/-- Values of different forms are told by these. -/
theorem compareLex_forms {v w : Value τ} {r r' : List (Mark τ)}
    (h : v.rank = w.rank → List.compareLex Mark.compare (v.contents ++ r) (w.contents ++ r') =
      (compare v w).then (List.compareLex Mark.compare r r')) :
    List.compareLex Mark.compare (.num v.rank :: (v.contents ++ r)) (.num w.rank :: (w.contents ++ r')) =
      (compare v w).then (List.compareLex Mark.compare r r') := by
  rw [List.compareLex_cons_cons, Mark.compare]
  by_cases hrank : v.rank = w.rank
  · rw [h hrank, hrank, ReflOrd.compare_self]
    rfl
  · have hne : Ord.compare v.rank w.rank ≠ .eq := fun heq => hrank (Nat.compare_eq_eq.mp heq)
    rw [compare_of_rank_ne hrank]
    cases hcompare : Ord.compare v.rank w.rank with
    | lt | gt => rfl
    | eq => exact absurd hcompare hne

mutual

/-- Values compare as they are spelled, whatever follows. -/
theorem compareLex_contents (v w : Value τ) (r r' : List (Mark τ)) (h : v.rank = w.rank) :
    List.compareLex Mark.compare (v.contents ++ r) (w.contents ++ r') =
      (compare v w).then (List.compareLex Mark.compare r r') := by
  cases v with
  | unit => cases w <;> first | rfl | cases h
  | num m | dropped m | elem m => cases w <;> first | exact List.compareLex_cons_cons | cases h
  | slice v =>
    cases w with
    | slice w => exact compareLex_marks v.elements w.elements r r'
    | _ => cases h
  | text as =>
    cases w with
    | text bs => exact compareLex_marks as bs r r'
    | _ => cases h
  | list vs =>
    cases w with
    | list ws => exact compareLex_contentsOfAll vs ws r r'
    | _ => cases h
  | pair a b =>
    cases w with
    | pair c d =>
      have hsecond := compareLex_forms (compareLex_contents b d r r')
      have hboth := compareLex_forms (compareLex_contents a c (.num b.rank :: (b.contents ++ r))
        (.num d.rank :: (d.contents ++ r')))
      simp only [contents, compare, List.cons_append, List.append_assoc, hboth, hsecond, Ordering.then_assoc]
    | _ => cases h
  | missing =>
    cases w with
    | missing | given w => exact List.compareLex_cons_cons
    | _ => cases h
  | given v =>
    cases w with
    | missing => exact List.compareLex_cons_cons
    | given w =>
      have hcontent := compareLex_forms (compareLex_contents v w r r')
      exact List.compareLex_cons_cons.trans hcontent
    | _ => cases h

theorem compareLex_contentsOfAll (vs ws : List (Value τ)) (r r' : List (Mark τ)) :
    List.compareLex Mark.compare (contentsOfAll vs ++ r) (contentsOfAll ws ++ r') =
      (compareAll vs ws).then (List.compareLex Mark.compare r r') := by
  cases vs with
  | nil => cases ws <;> exact List.compareLex_cons_cons
  | cons v vs =>
    cases ws with
    | nil => exact List.compareLex_cons_cons
    | cons w ws =>
      have hrest := compareLex_contentsOfAll vs ws r r'
      have hfirst := compareLex_forms (compareLex_contents v w (contentsOfAll vs ++ r) (contentsOfAll ws ++ r'))
      simp only [contentsOfAll, compareAll, List.cons_append, List.append_assoc, Ordering.then_assoc, ← hrest]
      exact List.compareLex_cons_cons.trans hfirst

end

theorem compare_eq_spelled (v w : Value τ) : compare v w = List.compareLex Mark.compare v.spelled w.spelled := by
  have h := compareLex_forms (compareLex_contents v w [] [])
  simpa [spelled, List.compareLex_nil_nil] using h.symm

instance [TransCmp (Element.compare : τ → τ → Ordering)] : TransCmp (compare (τ := τ)) where
  eq_swap {v w} := by
    rw [compare_eq_spelled, compare_eq_spelled]
    exact OrientedCmp.eq_swap
  isLE_trans {u v w} := by
    rw [compare_eq_spelled, compare_eq_spelled, compare_eq_spelled]
    exact TransCmp.isLE_trans

end Value

end Reprise
