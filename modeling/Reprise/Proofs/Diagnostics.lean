import Mathlib.Logic.Basic
import Reprise.Outcome.Diagnostic
import Reprise.Source.Element

/-!
# What a diagnostic tells

Kinds, offsets and amounts are read off the text of a signal. The name of a kind is one word, a decimal is no
word of a message, and no line of a text is empty or has a line break in it.
-/

namespace Reprise

variable {τ ε γ : Type}

theorem ErrorKind.ofName?_name : ∀ kind ∈ declared, ofName? kind.name = some kind := by decide

/-- Declared kinds have names of their own. -/
theorem ErrorKind.name_inj {kind other : ErrorKind} (h : kind ∈ declared) (h' : other ∈ declared) :
    kind.name = other.name ↔ kind = other := by
  constructor
  · intro hname
    have hfound := ofName?_name kind h
    rw [hname, ofName?_name other h'] at hfound
    exact (Option.some.inj hfound).symm
  · exact congrArg name

/-- The name of a kind is one word. -/
theorem ErrorKind.blank_notMem_name (kind : ErrorKind) : ' ' ∉ kind.name.toList := by
  cases kind <;> simp [name]

theorem ErrorKind.lineBreak_notMem_name (kind : ErrorKind) : '\n' ∉ kind.name.toList := by
  cases kind <;> simp [name]

theorem isDigit_of_mem_repr {n : Nat} {c : Char} (h : c ∈ n.repr.toList) : c.isDigit = true := by
  rw [Nat.toList_repr] at h
  exact Nat.isDigit_of_mem_toDigits (by decide) (by decide) h

theorem lineBreak_notMem_repr (i : Int) : '\n' ∉ i.repr.toList := by
  have hdigits (n : Nat) : '\n' ∉ n.repr.toList := fun h => absurd (isDigit_of_mem_repr h) (by decide)
  rw [Int.repr_eq_if]
  split
  · exact hdigits _
  · rw [String.toList_append, List.mem_append, not_or]
    exact ⟨by simp, hdigits _⟩

/-- A number is read off its decimal. -/
theorem eq_of_repr {m n : Nat} (h : m.repr = n.repr) : m = n := by
  have hread (n : Nat) : Nat.ofDigitChars 10 n.repr.toList 0 = n := by
    rw [Nat.toList_repr, Nat.ofDigitChars_ten_toDigits]
  rw [← hread m, h, hread]

/-- An offset is read off its decimal, too, since no digit is a sign. -/
theorem eq_of_repr_int {i j : Int} (h : i.repr = j.repr) : i = j := by
  have hsign (m n : Nat) : m.repr ≠ "-" ++ n.repr := by
    intro heq
    have hdigit : '-' ∈ m.repr.toList := by simp [heq]
    exact absurd (isDigit_of_mem_repr hdigit) (by decide)
  rw [Int.repr_eq_if, Int.repr_eq_if] at h
  split at h <;> split at h
  · have hnat := eq_of_repr h
    omega
  · exact absurd h (hsign _ _)
  · exact absurd h.symm (hsign _ _)
  · have hnat := eq_of_repr ((String.append_right_inj "-").mp h)
    omega

namespace Located

/-- What a place tells, seen from an origin: what was looked for and at which offset. -/
def mark (origin : Window τ) (e : Located τ) : ErrorKind × Int := (e.kind, origin.distance e.input)

variable {origin : Window τ} {e f : Located τ}

theorem toList_describe : (e.describe origin).toList =
    e.kind.name.toList ++ ' ' :: ("at offset " ++ (origin.distance e.input).repr).toList := by
  simp [describe]

/-- The name of the kind is what stands before the first blank. -/
theorem name_eq_of_describe (h : e.describe origin = f.describe origin) : e.kind.name = f.kind.name := by
  have hsplit := congrArg (fun text => text.toList.splitOn ' ') h
  simp only [toList_describe, List.splitOn_append_cons_self_of_not_mem (ErrorKind.blank_notMem_name _)] at hsplit
  exact String.toList_inj.mp (List.cons.inj hsplit).1

/-- The kind and the offset of a place can be read off its line. -/
theorem describe_inj (he : e.kind ∈ ErrorKind.declared) (hf : f.kind ∈ ErrorKind.declared) :
    e.describe origin = f.describe origin ↔ e.mark origin = f.mark origin := by
  constructor
  · intro h
    have hname := name_eq_of_describe h
    have hoffset : (origin.distance e.input).repr = (origin.distance f.input).repr := by
      rwa [describe, describe, hname, String.append_right_inj] at h
    exact Prod.ext ((ErrorKind.name_inj he hf).mp hname) (eq_of_repr_int hoffset)
  · intro h
    obtain ⟨hkind, hoffset⟩ := Prod.mk.inj h
    rw [describe, describe, hkind, hoffset]

theorem lineBreak_notMem_describe : '\n' ∉ (e.describe origin).toList := by
  rw [toList_describe]
  simp [e.kind.lineBreak_notMem_name, lineBreak_notMem_repr]

end Located

/-- The lines of a text. Where nothing is written there is none, and a line break at either end of a text would
bound an empty one. -/
def textLines (text : String) : List (List Char) :=
  if text.isEmpty then [] else text.toList.splitOn '\n'

theorem textLines_of_break {text : String} {before behind : List Char}
    (h : text.toList = before ++ '\n' :: behind) :
    textLines text = before.splitOn '\n' ++ behind.splitOn '\n' := by
  have hwritten : ¬ text.isEmpty = true := by
    rw [String.isEmpty_iff]
    rintro rfl
    simp at h
  rw [textLines, if_neg hwritten, h, List.splitOn_append_cons_self]

/-- A text without empty lines neither begins nor ends with a line break. -/
theorem ends_of_textLines {text : String} (h : [] ∉ textLines text) :
    text.toList.head? ≠ some '\n' ∧ text.toList.getLast? ≠ some '\n' := by
  constructor
  · intro hfirst
    obtain ⟨behind, htext⟩ := List.head?_eq_some_iff.mp hfirst
    have hlines := textLines_of_break (htext.trans (List.nil_append _).symm)
    exact h (by simp [hlines])
  · intro hlast
    obtain ⟨before, htext⟩ := List.getLast?_eq_some_iff.mp hlast
    exact h (by simp [textLines_of_break htext])

/-- Functions that tell the members of two lists apart alike tell the lists apart alike. -/
theorem map_eq_map_iff_of_mem {β : Type} {f : τ → γ} {g : τ → β} {xs ys : List τ}
    (h : ∀ x ∈ xs, ∀ y ∈ ys, f x = f y ↔ g x = g y) : xs.map f = ys.map f ↔ xs.map g = ys.map g := by
  induction xs generalizing ys with
  | nil => simp
  | cons x xs ih =>
    cases ys with
    | nil => simp
    | cons y ys =>
      have hhead := h x (.head _) y (.head _)
      have htail := ih fun x' hx y' hy => h x' (.tail _ hx) y' (.tail _ hy)
      simp only [List.map_cons, List.cons_eq_cons, hhead, htail]

namespace Located

variable {origin : Window τ} {places others : List (Located τ)}

theorem describeAll_eq_empty : describeAll origin places = "" ↔ places = [] := by
  rw [describeAll_eq]
  rcases places with _ | ⟨e, _ | ⟨e', places⟩⟩
  · simp
  · simp [describe_ne_empty]
  · simp [describe_ne_empty]

/-- Every place has its line. -/
theorem textLines_describeAll :
    textLines (describeAll origin places) = places.map fun e => (e.describe origin).toList := by
  by_cases hnone : places = []
  · subst hnone
    rfl
  · have hwritten : ¬ (describeAll origin places).isEmpty = true := by
      rwa [String.isEmpty_iff, describeAll_eq_empty]
    have hbreak : ∀ line ∈ places.map fun e => (e.describe origin).toList, '\n' ∉ line := by
      intro line hline
      obtain ⟨e, -, rfl⟩ := List.mem_map.mp hline
      exact lineBreak_notMem_describe
    rw [textLines, if_neg hwritten, describeAll_eq, String.toList_intercalate, List.map_map]
    exact List.splitOn_intercalate '\n' hbreak (by simpa using hnone)

theorem describeAll_inj (hplaces : ∀ e ∈ places, e.kind ∈ ErrorKind.declared)
    (hothers : ∀ e ∈ others, e.kind ∈ ErrorKind.declared) :
    describeAll origin places = describeAll origin others ↔
      places.map (mark origin) = others.map (mark origin) := by
  have hinj : ∀ e ∈ places, ∀ f ∈ others,
      e.describe origin = f.describe origin ↔ e.mark origin = f.mark origin :=
    fun e he f hf => describe_inj (hplaces e he) (hothers f hf)
  rw [← map_eq_map_iff_of_mem hinj]
  constructor
  · intro h
    have hlines := congrArg textLines h
    rw [textLines_describeAll, textLines_describeAll] at hlines
    exact (map_eq_map_iff_of_mem fun _ _ _ _ => String.toList_inj).mp hlines
  · intro h
    rw [describeAll_eq, describeAll_eq, h]

end Located

namespace Needed

theorem describe_of_ne_zero {n : Needed} (h : n.size ≠ 0) : n.describe = "needs " ++ (n.size.repr ++ " more") := by
  simp [describe, isUnknown, h, String.append_assoc]

/-- An amount is a number, so it is not written as the word that stands for an unknown one. -/
theorem describe_ne_unknown {n : Needed} (h : n.size ≠ 0) : n.describe ≠ unknown.describe := by
  rw [describe_of_ne_zero h]
  intro hsame
  have hmore : n.size.repr ++ " more" = "more input" := String.append_right_inj "needs " |>.mp hsame
  cases hdigits : n.size.repr.toList with
  | nil => exact Nat.toDigits_ne_nil (Nat.toList_repr.symm.trans hdigits)
  | cons c cs =>
    have hmem : c ∈ n.size.repr.toList := hdigits ▸ List.mem_cons_self
    have hdigit := isDigit_of_mem_repr hmem
    have hfirst : c = 'm' := by simpa [hdigits] using congrArg (fun text => text.toList.head?) hmore
    subst hfirst
    cases hdigit

theorem describe_inj {m n : Needed} : m.describe = n.describe ↔ m = n := by
  obtain ⟨m⟩ := m
  obtain ⟨n⟩ := n
  constructor
  · intro h
    rcases eq_or_ne m 0 with rfl | hm <;> rcases eq_or_ne n 0 with rfl | hn
    · rfl
    · exact absurd h.symm (describe_ne_unknown hn)
    · exact absurd h (describe_ne_unknown hm)
    · rw [describe_of_ne_zero hm, describe_of_ne_zero hn, String.append_right_inj, String.append_left_inj] at h
      exact congrArg mk (eq_of_repr h)
  · exact congrArg describe

end Needed

namespace Signal

/-- The first letter of a text tells the class of its signal. -/
def letter : Signal ε → Char
  | error _ => 'e'
  | failure _ => 'f'
  | incomplete _ => 'i'

/-- The kinds of the entries that a signal carries are declared ones. -/
def Declared (entries : ε → List (Located τ)) (g : Signal ε) : Prop :=
  ∀ e ∈ g.payload?, ∀ place ∈ entries e, place.kind ∈ ErrorKind.declared

theorem declared_error {entries : ε → List (Located τ)} {e : ε} :
    (error e).Declared entries ↔ ∀ place ∈ entries e, place.kind ∈ ErrorKind.declared := by
  simp [Declared, payload?]

variable [Described τ ε] {origin : Window τ} {g h : Signal ε}

theorem head?_describe (g : Signal ε) : (g.describe origin).toList.head? = some g.letter := by
  cases g <;> simp [describe, letter]

theorem describe_ne_of_letter (hletter : g.letter ≠ h.letter) : g.describe origin ≠ h.describe origin := by
  intro hsame
  have hfirst := congrArg (fun text => text.toList.head?) hsame
  rw [head?_describe, head?_describe] at hfirst
  exact hletter (Option.some.inj hfirst)

/-- Texts of signals are as faithful as those of their payloads. -/
theorem describe_inj {f : ε → γ} (hpayload : ∀ d ∈ g.payload?, ∀ e ∈ h.payload?,
    Described.describe origin d = Described.describe origin e ↔ f d = f e) :
    g.describe origin = h.describe origin ↔ g.map f = h.map f := by
  cases g with
  | error d =>
    cases h with
    | error e => simpa [describe, map] using hpayload d rfl e rfl
    | failure e => exact iff_of_false (describe_ne_of_letter (by simp [letter])) (by simp [map])
    | incomplete n => exact iff_of_false (describe_ne_of_letter (by simp [letter])) (by simp [map])
  | failure d =>
    cases h with
    | error e => exact iff_of_false (describe_ne_of_letter (by simp [letter])) (by simp [map])
    | failure e => simpa [describe, map] using hpayload d rfl e rfl
    | incomplete n => exact iff_of_false (describe_ne_of_letter (by simp [letter])) (by simp [map])
  | incomplete m =>
    cases h with
    | error e => exact iff_of_false (describe_ne_of_letter (by simp [letter])) (by simp [map])
    | failure e => exact iff_of_false (describe_ne_of_letter (by simp [letter])) (by simp [map])
    | incomplete n => simp [describe, map, Needed.describe_inj]

end Signal

/-- Nothing of the entries of a payload gets lost in what is written of them, seen from an origin. -/
structure Lossless [Described τ ε] (origin : Window τ) (entries : ε → List (Located τ)) : Prop where
  /-- Signals read the same just when they are of one class and carry the same kinds and offsets in the same
  order, or the same hint. -/
  faithful : ∀ g h : Signal ε, g.Declared entries → h.Declared entries →
    (g.describe origin = h.describe origin ↔
      g.map (fun e => (entries e).map (Located.mark origin)) =
        h.map fun e => (entries e).map (Located.mark origin))
  /-- Every entry has a line of its own, the innermost one the first. -/
  lines : ∀ e : ε, textLines (Described.describe origin e) =
    (entries e).map fun place => (place.describe origin).toList
  ends : ∀ e : ε, (Described.describe origin e).toList.head? ≠ some '\n' ∧
    (Described.describe origin e).toList.getLast? ≠ some '\n'

theorem lossless_of_describe [Described τ ε] {origin : Window τ} {entries : ε → List (Located τ)}
    (h : ∀ e, Described.describe origin e = Located.describeAll origin (entries e)) :
    Lossless origin entries where
  faithful g k hg hk := by
    refine Signal.describe_inj fun d hd e he => ?_
    rw [h, h]
    exact Located.describeAll_inj (hg d hd) (hk e he)
  lines e := by rw [h, Located.textLines_describeAll]
  ends e := by
    apply ends_of_textLines
    rw [h, Located.textLines_describeAll]
    simp [Located.describe_ne_empty]

/-- What is written of an error and of a whole trail, and of any places, loses nothing: what was looked for, at
which offsets and in which order, or how much is missing, can be read off the text of a signal. -/
theorem diagnostics_lossless (origin : Window τ) :
    Lossless origin (fun e : Located τ => [e]) ∧
    Lossless origin (fun t : Trail τ => t.entries) ∧
    Lossless origin fun places : List (Located τ) => places := by
  refine ⟨lossless_of_describe fun e => ?_, lossless_of_describe fun t => rfl,
    lossless_of_describe fun places => rfl⟩
  exact (writeLine_empty (e.describe origin)).symm

/-- Two trails that begin at one place differ in what is written of them. -/
theorem diagnostics_lossless_nested :
    let origin : Window UInt8 := .ofList [7, 8, 9]
    let inner : Signal (Trail UInt8) := .error ⟨⟨origin.drop 2, .tag⟩, []⟩
    let outer : Signal (Trail UInt8) := .error ⟨⟨origin.drop 2, .tag⟩, [⟨origin, .manyBetween⟩]⟩
    (inner.Declared (fun t => t.entries) ∧ outer.Declared fun t => t.entries) ∧
      inner.describe origin ≠ outer.describe origin := by
  intro origin inner outer
  have hinner : inner.Declared fun t => t.entries :=
    Signal.declared_error.mpr (by simp [Trail.entries, ErrorKind.declared])
  have houter : outer.Declared fun t => t.entries :=
    Signal.declared_error.mpr (by simp [Trail.entries, ErrorKind.declared])
  refine ⟨⟨hinner, houter⟩, fun hsame => ?_⟩
  have hmap := ((diagnostics_lossless origin).2.1.faithful inner outer hinner houter).mp hsame
  simp [inner, outer, Signal.map, Trail.entries] at hmap

end Reprise
