import Mathlib.Data.List.Basic
import Reprise.Grammar

/-!
# Grammars as trees

What a grammar is put together from. A property of all grammars follows from children to parents,
and a grammar is changed all over by a change of single nodes.
-/

namespace Reprise.Grammar

variable {τ τ' : Type}

/-- The grammars a grammar is put together from. -/
def children : Grammar τ → List (Grammar τ)
  | opt p | cut p | boxed p | map _ p | collect _ _ p | many0Count p | many1Count p | fold _ _ _ p
  | lengthData p | fill _ _ p | trace _ p => [p]
  | manyTill _ q p | separatedList0 _ q p | separatedList1 _ q p | lengthValue q p
  | lengthCount _ q p | andThen q p | orElse q p => [q, p]
  | _ => []

/-- The same node over other children, which may be grammars of other elements. A node without children is
changed on its own. -/
def graft (leaf f : Grammar τ → Grammar τ') : Grammar τ → Grammar τ'
  | opt p => opt (f p)
  | cut p => cut (f p)
  | boxed p => boxed (f p)
  | map F p => map F (f p)
  | collect times shape p => collect times shape (f p)
  | many0Count p => many0Count (f p)
  | many1Count p => many1Count (f p)
  | fold times start step p => fold times start step (f p)
  | manyTill shape till p => manyTill shape (f till) (f p)
  | separatedList0 shape sep p => separatedList0 shape (f sep) (f p)
  | separatedList1 shape sep p => separatedList1 shape (f sep) (f p)
  | lengthData len => lengthData (f len)
  | lengthValue len p => lengthValue (f len) (f p)
  | lengthCount shape len p => lengthCount shape (f len) (f p)
  | fill buffer slots p => fill buffer slots (f p)
  | trace name p => trace name (f p)
  | andThen p rest => andThen (f p) (f rest)
  | orElse p q => orElse (f p) (f q)
  | g => leaf g

/-- The same node over other children. -/
def mapChildren (f : Grammar τ → Grammar τ) : Grammar τ → Grammar τ := graft id f

theorem tree_induction {P : Grammar τ → Prop} (h : ∀ g, (∀ p ∈ g.children, P p) → P g)
    (g : Grammar τ) : P g := by
  induction g with
  | opt p ih | cut p ih | boxed p ih | map _ p ih | collect _ _ p ih | many0Count p ih
  | many1Count p ih | fold _ _ _ p ih | lengthData p ih | fill _ _ p ih | trace _ p ih =>
    refine h _ fun q hq => ?_
    obtain rfl := List.mem_singleton.mp hq
    exact ih
  | manyTill _ q p ihq ihp | separatedList0 _ q p ihq ihp | separatedList1 _ q p ihq ihp
  | lengthValue q p ihq ihp | lengthCount _ q p ihq ihp | andThen q p ihq ihp | orElse q p ihq ihp =>
    refine h _ fun r hr => ?_
    rcases List.mem_pair.mp hr with rfl | rfl
    · exact ihq
    · exact ihp
  | _ => exact h _ fun q hq => nomatch hq

@[simp] theorem mapChildren_id (g : Grammar τ) : g.mapChildren id = g := by cases g <;> rfl

theorem children_mapChildren (f : Grammar τ → Grammar τ) (g : Grammar τ) :
    (g.mapChildren f).children = g.children.map f := by cases g <;> rfl

/-- A grammar that is changed all over: `wrap` gets each node as it was and over changed children. -/
def rebuild (wrap : Grammar τ → Grammar τ → Grammar τ) : Grammar τ → Grammar τ
  | opt p => wrap (opt p) (opt (p.rebuild wrap))
  | cut p => wrap (cut p) (cut (p.rebuild wrap))
  | boxed p => wrap (boxed p) (boxed (p.rebuild wrap))
  | map F p => wrap (map F p) (map F (p.rebuild wrap))
  | collect times shape p => wrap (collect times shape p) (collect times shape (p.rebuild wrap))
  | many0Count p => wrap (many0Count p) (many0Count (p.rebuild wrap))
  | many1Count p => wrap (many1Count p) (many1Count (p.rebuild wrap))
  | fold times start step p =>
    wrap (fold times start step p) (fold times start step (p.rebuild wrap))
  | manyTill shape till p =>
    wrap (manyTill shape till p) (manyTill shape (till.rebuild wrap) (p.rebuild wrap))
  | separatedList0 shape sep p =>
    wrap (separatedList0 shape sep p) (separatedList0 shape (sep.rebuild wrap) (p.rebuild wrap))
  | separatedList1 shape sep p =>
    wrap (separatedList1 shape sep p) (separatedList1 shape (sep.rebuild wrap) (p.rebuild wrap))
  | lengthData len => wrap (lengthData len) (lengthData (len.rebuild wrap))
  | lengthValue len p => wrap (lengthValue len p) (lengthValue (len.rebuild wrap) (p.rebuild wrap))
  | lengthCount shape len p =>
    wrap (lengthCount shape len p) (lengthCount shape (len.rebuild wrap) (p.rebuild wrap))
  | fill buffer slots p => wrap (fill buffer slots p) (fill buffer slots (p.rebuild wrap))
  | trace name p => wrap (trace name p) (trace name (p.rebuild wrap))
  | andThen p rest => wrap (andThen p rest) (andThen (p.rebuild wrap) (rest.rebuild wrap))
  | orElse p q => wrap (orElse p q) (orElse (p.rebuild wrap) (q.rebuild wrap))
  | g => wrap g g

theorem rebuild_eq (wrap : Grammar τ → Grammar τ → Grammar τ) (g : Grammar τ) :
    g.rebuild wrap = wrap g (g.mapChildren (rebuild wrap)) := by cases g <;> rfl

/-- A grammar that another one is put together from, or the other one itself. -/
inductive Occurs : Grammar τ → Grammar τ → Prop where
  | here (g) : Occurs g g
  | under {p q g} : q ∈ g.children → Occurs p q → Occurs p g

/-- A grammar refers to a rule somewhere. -/
def Mentions (g : Grammar τ) (name : String) : Prop := Occurs (ref name) g

end Reprise.Grammar
