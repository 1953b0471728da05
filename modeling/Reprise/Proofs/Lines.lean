import Reprise.Proofs.Run
import Reprise.Text.Lines

/-!
# Lines of a text

The lines of a text are answered one after the other, and the characters of a line are taken one by one. What
is joined from texts is taken apart again, separator by separator and run by run.
-/

namespace Reprise

/-- Texts that are joined are the first one and the others, each behind a separator. -/
theorem intercalate_cons {τ : Type} (sep text : List τ) (texts : List (List τ)) :
    sep.intercalate (text :: texts) = text ++ texts.flatMap fun behind => sep ++ behind := by
  induction texts generalizing text with
  | nil => simp
  | cons text' texts ih =>
    rw [List.intercalate_cons_cons, ih, List.flatMap_cons, List.append_assoc, List.append_assoc]

/-- A run ends before an element that does not belong to it. -/
theorem takeWhile_append_of_head {τ : Type} {test : τ → Bool} {text behind : List τ}
    (htext : ∀ c ∈ text, test c = true) (hbehind : ∀ c ∈ behind.head?, test c = false) :
    (text ++ behind).takeWhile test = text := by
  have hnone : behind.takeWhile test = [] := by
    cases behind with
    | nil => rfl
    | cons c cs => simp [hbehind c rfl]
  rw [List.takeWhile_append_of_pos htext, hnone, List.append_nil]

theorem linesOf_append {line : List Narrow} (h : lineBreak ∉ line) (text : List Narrow) :
    linesOf (line ++ lineBreak :: text) = line :: linesOf text := by
  induction line with
  | nil => simp [linesOf]
  | cons c cs ih =>
    rw [List.mem_cons, not_or] at h
    simp [linesOf, Ne.symm h.1, ih h.2]

/-- The first line of a text is answered before the others. -/
theorem answerLines_append {answer : List Narrow → Run Unit String} {line : List Narrow} {found : String}
    (h : lineBreak ∉ line) (hanswer : answer line () = .ok found ()) (text : List Narrow) :
    answerLines answer (line ++ lineBreak :: text) = (answerLines answer text).map (found ++ ·) := by
  unfold answerLines
  rw [linesOf_append h, List.mapM_cons, Run.bind_of_ok hanswer]
  cases hrest : (linesOf text).mapM answer () with
  | error why t => rw [Run.bind_of_error hrest]; rfl
  | ok answers t =>
    rw [Run.bind_of_ok hrest]
    simp [Except.map, pure, EStateM.pure]

namespace Window

variable {τ : Type}

/-- An element that is taken makes a window shorter. -/
theorem drop_one_of_cons {x : Window τ} {c : τ} {cs : List τ} (h : x.elements = c :: cs) :
    (x.drop 1).length < x.length ∧ (x.drop 1).elements = cs := by
  have hlen : x.length = cs.length + 1 := by rw [x.length_eq, h, List.length_cons]
  refine ⟨?_, by simp [h]⟩
  rw [Window.length_drop]
  omega

end Window

namespace Parser

variable {σ ε : Type} [Payload Narrow ε]

theorem literal_eq (c : Narrow) (x : Window Narrow) :
    (literal .complete [c] x : Run σ (Outcome Narrow ε (Window Narrow))) = pure (
      if x.elements.head? = some c then .success (x.take 1) (x.drop 1) else .errorAt x .tag) := by
  unfold literal
  rw [tag_eq]
  cases hx : x.elements with
  | nil =>
    have hlen : x.length = 0 := by simp [x.length_eq, hx]
    simp [agree, hlen, tooShort]
  | cons e es =>
    have hlen : ¬ x.length < 1 := by simp [x.length_eq, hx]
    by_cases he : e = c
    · simp [agree, he, hlen]
    · simp [agree, he]

end Parser

end Reprise
