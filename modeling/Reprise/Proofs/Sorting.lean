import Mathlib.Data.List.Dedup
import Mathlib.Data.List.Destutter
import Reprise.Container

/-!
# Sorted containers

Putting values in their places one by one, in the order in which they arrive, sorts them. Those that compare as
equal stay in the order of their arrival, so that it is a stable sort. Where equal values are left out, it is the
first to arrive that is held, and if values are equal only to themselves, what is held are the sorted values
without their duplicates.
-/

namespace Reprise.Container

open Std

variable {α : Type} {cmp : α → α → Ordering} {v : α} {vs ws : List α}

/-- A value may stand before another one. -/
abbrev notAfter (cmp : α → α → Ordering) (v w : α) : Bool := (cmp v w).isLE

theorem notAfter_trans [TransCmp cmp] (u v w : α) :
    notAfter cmp u v = true → notAfter cmp v w = true → notAfter cmp u w = true :=
  TransCmp.isLE_trans

theorem notAfter_total [OrientedCmp cmp] (v w : α) : (notAfter cmp v w || notAfter cmp w v) = true := by
  have hswap : cmp w v = (cmp v w).swap := OrientedCmp.eq_swap
  rw [notAfter, notAfter, hswap]
  cases cmp v w <;> rfl

theorem pairwise_notAfter (h : vs.Pairwise fun v w => cmp v w = .lt) : vs.Pairwise fun v w => notAfter cmp v w :=
  h.imp Ordering.isLE_of_eq_lt

theorem head_notAfter [ReflCmp cmp] (h : (v :: vs).Pairwise fun v w => notAfter cmp v w) :
    ∀ u ∈ v :: vs, notAfter cmp v u := by
  intro u hu
  rcases List.mem_cons.mp hu with rfl | hu
  · exact ReflCmp.isLE_rfl
  · exact (List.pairwise_cons.mp h).1 u hu

/-- What is less than the first of some values in order is less than all of them. -/
theorem lt_of_lt_head [TransCmp cmp] {w : α} (hlt : cmp v w = .lt)
    (h : (w :: ws).Pairwise fun v w => notAfter cmp v w) : ∀ u ∈ w :: ws, cmp v u = .lt :=
  fun u hu => TransCmp.lt_of_lt_of_isLE hlt (head_notAfter h u hu)

theorem insertAfterEqual_perm (cmp : α → α → Ordering) (v : α) (ws : List α) :
    (insertAfterEqual cmp v ws).Perm (v :: ws) := by
  induction ws with
  | nil => exact .refl _
  | cons w ws ih =>
    unfold insertAfterEqual
    split
    · exact .refl _
    · exact (ih.cons w).trans (.swap v w ws)

theorem mem_insertAfterEqual {u : α} (h : u ∈ insertAfterEqual cmp v ws) : u = v ∨ u ∈ ws :=
  List.mem_cons.mp ((insertAfterEqual_perm cmp v ws).mem_iff.mp h)

theorem pairwise_insertAfterEqual [TransCmp cmp] (h : ws.Pairwise fun v w => notAfter cmp v w) :
    (insertAfterEqual cmp v ws).Pairwise fun v w => notAfter cmp v w := by
  induction ws with
  | nil => exact List.pairwise_singleton _ v
  | cons w ws ih =>
    obtain ⟨hw, hws⟩ := List.pairwise_cons.mp h
    unfold insertAfterEqual
    split
    · next hlt =>
      exact List.pairwise_cons.mpr ⟨fun u hu => Ordering.isLE_of_eq_lt (lt_of_lt_head hlt h u hu), h⟩
    · next hge =>
      refine List.pairwise_cons.mpr ⟨fun u hu => ?_, ih hws⟩
      rcases mem_insertAfterEqual hu with rfl | hu
      · exact OrientedCmp.isGE_iff_isLE.mp (Ordering.isGE_iff_ne_lt.mpr hge)
      · exact hw u hu

theorem mem_insertUnlessEqual {u : α} (h : u ∈ insertUnlessEqual cmp v ws) : u = v ∨ u ∈ ws := by
  induction ws with
  | nil => simpa [insertUnlessEqual] using h
  | cons w ws ih =>
    unfold insertUnlessEqual at h
    split at h <;> grind

theorem pairwise_insertUnlessEqual [TransCmp cmp] (h : ws.Pairwise fun v w => cmp v w = .lt) :
    (insertUnlessEqual cmp v ws).Pairwise fun v w => cmp v w = .lt := by
  induction ws with
  | nil => exact List.pairwise_singleton _ v
  | cons w ws ih =>
    obtain ⟨hw, hws⟩ := List.pairwise_cons.mp h
    unfold insertUnlessEqual
    split
    · next hlt => exact List.pairwise_cons.mpr ⟨lt_of_lt_head hlt (pairwise_notAfter h), h⟩
    · exact h
    · next hgt =>
      refine List.pairwise_cons.mpr ⟨fun u hu => ?_, ih hws⟩
      rcases mem_insertUnlessEqual hu with rfl | hu
      · exact OrientedCmp.gt_iff_lt.mp hgt
      · exact hw u hu

theorem pairwise_mergeSort (cmp : α → α → Ordering) [TransCmp cmp] (vs : List α) :
    (vs.mergeSort (notAfter cmp)).Pairwise fun v w => notAfter cmp v w :=
  List.pairwise_mergeSort notAfter_trans notAfter_total vs

/-- The values that compare as equal to a value, in their order. -/
def equalTo (cmp : α → α → Ordering) (u : α) (vs : List α) : List α := vs.filter fun v => cmp u v == .eq

theorem mem_equalTo {u : α} : v ∈ equalTo cmp u vs ↔ v ∈ vs ∧ cmp u v = .eq := by
  rw [equalTo, List.mem_filter, beq_iff_eq]

@[simp] theorem equalTo_nil (u : α) : equalTo cmp u [] = [] := rfl

theorem equalTo_cons (u v : α) (vs : List α) : equalTo cmp u (v :: vs) =
    if cmp u v = .eq then v :: equalTo cmp u vs else equalTo cmp u vs := by
  simp only [equalTo, List.filter_cons, beq_iff_eq]

theorem equalTo_append (u : α) (vs ws : List α) :
    equalTo cmp u (vs ++ ws) = equalTo cmp u vs ++ equalTo cmp u ws :=
  List.filter_append _ _

/-- None of the values that are greater than an equal one is equal. -/
theorem equalTo_eq_nil [TransCmp cmp] {u : α} (hv : cmp u v = .eq) (hvs : ∀ w ∈ vs, cmp v w = .lt) :
    equalTo cmp u vs = [] := by
  refine List.eq_nil_iff_forall_not_mem.mpr fun w hw => ?_
  obtain ⟨hmem, heq⟩ := mem_equalTo.mp hw
  exact nomatch (TransCmp.lt_of_eq_of_lt hv (hvs w hmem)).symm.trans heq

theorem mem_of_equalTo [ReflCmp cmp] (h : ∀ u, equalTo cmp u vs = equalTo cmp u ws) (hv : v ∈ vs) : v ∈ ws := by
  have hself : v ∈ equalTo cmp v vs := mem_equalTo.mpr ⟨hv, ReflCmp.compare_self⟩
  rw [h] at hself
  exact (mem_equalTo.mp hself).1

/-- Values in order are known by the orders of those that are equal. -/
theorem eq_of_equalTo [TransCmp cmp] (hvs : vs.Pairwise fun v w => notAfter cmp v w)
    (hws : ws.Pairwise fun v w => notAfter cmp v w) (h : ∀ u, equalTo cmp u vs = equalTo cmp u ws) :
    vs = ws := by
  induction vs generalizing ws with
  | nil =>
    cases ws with
    | nil => rfl
    | cons w ws => exact nomatch mem_of_equalTo (fun u => (h u).symm) (List.mem_cons_self : w ∈ w :: ws)
  | cons v vs ih =>
    cases ws with
    | nil => exact nomatch mem_of_equalTo h (List.mem_cons_self : v ∈ v :: vs)
    | cons w ws =>
      -- each of the two first values stands in the other list, so neither is the greater one
      have hvw := head_notAfter hvs w (mem_of_equalTo (fun u => (h u).symm) List.mem_cons_self)
      have hwv := head_notAfter hws v (mem_of_equalTo h List.mem_cons_self)
      have hheads := h v
      rw [equalTo_cons, equalTo_cons, if_pos ReflCmp.compare_self,
        if_pos (OrientedCmp.isLE_antisymm hvw hwv)] at hheads
      obtain ⟨rfl, -⟩ := List.cons_eq_cons.mp hheads
      refine congrArg (v :: ·) (ih hvs.of_cons hws.of_cons fun u => ?_)
      have hu := h u
      rw [equalTo_cons, equalTo_cons] at hu
      split at hu
      · exact (List.cons_eq_cons.mp hu).2
      · exact hu

/-- Sorting leaves equal values in their order. -/
theorem equalTo_mergeSort [TransCmp cmp] (u : α) (vs : List α) :
    equalTo cmp u (vs.mergeSort (notAfter cmp)) = equalTo cmp u vs := by
  have hordered : (equalTo cmp u vs).Pairwise fun v w => notAfter cmp v w := by
    refine List.pairwise_of_forall_mem_list fun v hv w hw => ?_
    have hvw := TransCmp.eq_trans (OrientedCmp.eq_symm (mem_equalTo.mp hv).2) (mem_equalTo.mp hw).2
    rw [notAfter, hvw]
    rfl
  have hsorted := List.sublist_mergeSort notAfter_trans notAfter_total hordered List.filter_sublist
  have hsublist := hsorted.filter fun v => cmp u v == .eq
  rw [equalTo, List.filter_filter] at hsublist
  simp only [Bool.and_self] at hsublist
  exact (hsublist.eq_of_length ((List.mergeSort_perm vs _).filter _).length_eq.symm).symm

theorem equalTo_insertAfterEqual [TransCmp cmp] (h : ws.Pairwise fun v w => notAfter cmp v w) (u : α) :
    equalTo cmp u (insertAfterEqual cmp v ws) = equalTo cmp u (ws ++ [v]) := by
  induction ws with
  | nil => rfl
  | cons w ws ih =>
    obtain ⟨-, hws⟩ := List.pairwise_cons.mp h
    unfold insertAfterEqual
    split
    · next hlt =>
      rw [equalTo_append, equalTo_cons u v, equalTo_cons u v]
      split
      · next heq => rw [equalTo_eq_nil heq (lt_of_lt_head hlt h)]; rfl
      · exact (List.append_nil _).symm
    · rw [List.cons_append, equalTo_cons, equalTo_cons, ih hws]

/-- One value more is put in its place behind all those that are equal. -/
theorem mergeSort_append_singleton [TransCmp cmp] (vs : List α) (v : α) :
    (vs ++ [v]).mergeSort (notAfter cmp) = insertAfterEqual cmp v (vs.mergeSort (notAfter cmp)) := by
  have hsorted := pairwise_mergeSort cmp vs
  refine eq_of_equalTo (pairwise_mergeSort cmp _) (pairwise_insertAfterEqual hsorted) fun u => ?_
  rw [equalTo_mergeSort, equalTo_insertAfterEqual hsorted, equalTo_append, equalTo_append, equalTo_mergeSort]

/-- Of values in order, the first of those that are equal. -/
def firsts (cmp : α → α → Ordering) (vs : List α) : List α := vs.destutter fun v w => cmp v w = .lt

theorem pairwise_firsts [TransCmp cmp] (vs : List α) : (firsts cmp vs).Pairwise fun v w => cmp v w = .lt :=
  have : Trans (fun v w => cmp v w = .lt) (fun v w => cmp v w = .lt) fun v w => cmp v w = .lt :=
    ⟨TransCmp.lt_trans⟩
  List.isChain_iff_pairwise.mp (List.isChain_destutter _ _)

theorem equalTo_firsts [TransCmp cmp] (h : vs.Pairwise fun v w => notAfter cmp v w) (u : α) :
    equalTo cmp u (firsts cmp vs) = (equalTo cmp u vs).take 1 := by
  cases vs with
  | nil => rfl
  | cons v vs =>
    rw [firsts, List.destutter_cons']
    induction vs generalizing v with
    | nil =>
      rw [List.destutter'_nil, equalTo_cons]
      split <;> rfl
    | cons w vs ih =>
      obtain ⟨hv, hvs⟩ := List.pairwise_cons.mp h
      rw [List.destutter'_cons]
      split
      · next hlt =>
        rw [equalTo_cons, equalTo_cons u v, ih w hvs]
        split
        · next heq => rw [equalTo_eq_nil heq (lt_of_lt_head hlt hvs)]; rfl
        · rfl
      · next hge =>
        have hle := Ordering.isLE_iff_eq_lt_or_eq_eq.mp (hv w List.mem_cons_self)
        rw [ih v (h.sublist ((List.sublist_cons_self w vs).cons_cons v)), equalTo_cons, equalTo_cons,
          equalTo_cons, TransCmp.congr_right (hle.resolve_left hge)]
        split <;> rfl

theorem take_equalTo [TransCmp cmp] (h : ws.Pairwise fun v w => cmp v w = .lt) (u : α) :
    (equalTo cmp u ws).take 1 = equalTo cmp u ws := by
  induction ws with
  | nil => rfl
  | cons w ws ih =>
    obtain ⟨hw, hws⟩ := List.pairwise_cons.mp h
    rw [equalTo_cons]
    split
    · next heq => rw [equalTo_eq_nil heq hw]; rfl
    · exact ih hws

theorem equalTo_insertUnlessEqual [TransCmp cmp] (h : ws.Pairwise fun v w => cmp v w = .lt) (u : α) :
    equalTo cmp u (insertUnlessEqual cmp v ws) = (equalTo cmp u (ws ++ [v])).take 1 := by
  induction ws with
  | nil => exact (take_equalTo (List.pairwise_singleton _ v) u).symm
  | cons w ws ih =>
    obtain ⟨hw, hws⟩ := List.pairwise_cons.mp h
    unfold insertUnlessEqual
    split
    · next hlt =>
      rw [equalTo_append, equalTo_cons u v, equalTo_cons u v]
      split
      · next heq => rw [equalTo_eq_nil heq (lt_of_lt_head hlt (pairwise_notAfter h))]; rfl
      · rw [equalTo_nil, List.append_nil, take_equalTo h]
    · next heq =>
      rw [equalTo_append, equalTo_cons u v, TransCmp.congr_right heq, equalTo_cons]
      split
      · next heq => rw [equalTo_eq_nil heq hw]; rfl
      · rw [equalTo_nil, List.append_nil, take_equalTo hws]
    · next hgt =>
      have hgreater : ∀ x ∈ insertUnlessEqual cmp v ws, cmp w x = .lt := by
        intro x hx
        rcases mem_insertUnlessEqual hx with rfl | hx
        · exact OrientedCmp.gt_iff_lt.mp hgt
        · exact hw x hx
      rw [List.cons_append, equalTo_cons, equalTo_cons, ih hws]
      split
      · next heq => rw [← ih hws, equalTo_eq_nil heq hgreater]; rfl
      · rfl

/-- One value more is put in its place, unless an equal one has arrived before. -/
theorem firsts_append_singleton [TransCmp cmp] (vs : List α) (v : α) :
    firsts cmp ((vs ++ [v]).mergeSort (notAfter cmp)) =
      insertUnlessEqual cmp v (firsts cmp (vs.mergeSort (notAfter cmp))) := by
  have hstrict : (firsts cmp (vs.mergeSort (notAfter cmp))).Pairwise _ := pairwise_firsts _
  refine eq_of_equalTo (pairwise_notAfter (pairwise_firsts _))
    (pairwise_notAfter (pairwise_insertUnlessEqual hstrict)) fun u => ?_
  rw [equalTo_firsts (pairwise_mergeSort cmp _), equalTo_mergeSort, equalTo_insertUnlessEqual hstrict,
    equalTo_append, equalTo_append, equalTo_firsts (pairwise_mergeSort cmp _), equalTo_mergeSort]
  cases equalTo cmp u vs <;> rfl

theorem mem_firsts [TransCmp cmp] [LawfulEqCmp cmp] (h : vs.Pairwise fun v w => notAfter cmp v w) :
    v ∈ firsts cmp vs ↔ v ∈ vs := by
  refine ⟨fun hv => (List.destutter_sublist _ _).subset hv, fun hv => ?_⟩
  have hself : v ∈ equalTo cmp v vs := mem_equalTo.mpr ⟨hv, ReflCmp.compare_self⟩
  have hfirst : equalTo cmp v (firsts cmp vs) ≠ [] := by
    rw [equalTo_firsts h]
    simpa using List.ne_nil_of_mem hself
  obtain ⟨w, hw⟩ := List.exists_mem_of_ne_nil _ hfirst
  obtain ⟨hmem, heq⟩ := mem_equalTo.mp hw
  exact LawfulEqCmp.eq_of_compare heq ▸ hmem

theorem pairwise_dedup [DecidableEq α] [LawfulEqCmp cmp] (h : vs.Pairwise fun v w => notAfter cmp v w) :
    vs.dedup.Pairwise fun v w => cmp v w = .lt := by
  refine ((h.sublist (List.dedup_sublist _)).and (List.nodup_dedup _)).imp fun {v w} ⟨hle, hne⟩ => ?_
  refine Ordering.isLE_iff_eq_lt_or_eq_eq.mp hle |>.resolve_right fun heq => ?_
  exact hne (LawfulEqCmp.eq_of_compare heq)

/-- Where values are equal only to themselves, one of each is left. -/
theorem firsts_eq_dedup [DecidableEq α] [TransCmp cmp] [LawfulEqCmp cmp]
    (h : vs.Pairwise fun v w => notAfter cmp v w) : firsts cmp vs = vs.dedup := by
  have hstrict : (firsts cmp vs).Pairwise _ := pairwise_firsts vs
  have hnodup : (firsts cmp vs).Nodup := hstrict.imp fun hlt heq => by
    subst heq
    exact nomatch hlt.symm.trans ReflCmp.compare_self
  have hperm : (firsts cmp vs).Perm vs.dedup :=
    (List.perm_ext_iff_of_nodup hnodup (List.nodup_dedup _)).mpr fun v =>
      (mem_firsts h).trans List.mem_dedup.symm
  refine hperm.eq_of_pairwise (fun v w _ _ hvw hwv => ?_) hstrict (pairwise_dedup h)
  exact nomatch hvw.symm.trans (OrientedCmp.gt_iff_lt.mpr hwv)

end Reprise.Container
