import Reprise.Proofs.Elements
import Reprise.Proofs.RecordLines

/-!
# What a preview tells

A preview tells two sources apart as far as it shows them, and it tells whether it shows all of them. Text stands
in it as it is, with quotes and marks of its own, so it is the end of the preview that is looked at first. Bytes
are found in it again by the program that reads lines of hex.
-/

namespace Reprise

variable {σ τ ε : Type}

namespace Window

/-- The elements that a preview shows. -/
def shown (w : Window τ) (most : Nat) : List τ := w.elements.take (min w.length most)

theorem shown_eq_take (w : Window τ) (most : Nat) : w.shown most = w.elements.take most := by
  rw [shown, w.length_eq, Nat.min_comm, List.take_eq_take_min]
  simp

/-- The marks for an end that is shown and for one that is not end in different characters. -/
theorem append_endMark_inj {w v : Window τ} {most : Nat} {a b : String} :
    a ++ w.endMark most = b ++ v.endMark most ↔ a = b ∧ (most < w.length ↔ most < v.length) := by
  have hlast (a b : String) : a ++ "..." ≠ b ++ "$" := by
    intro h
    have hend := congrArg (fun s => s.toList.getLast?) h
    simp at hend
  unfold endMark
  split <;> split
  · rename_i hw hv
    simp [hw, hv]
  · rename_i hw hv
    simp [hw, hv, hlast a b]
  · rename_i hw hv
    simp [hw, hv, (hlast b a).symm]
  · rename_i hw hv
    simp [hw, hv]

/-- A preview between an opening and a closing character is as faithful as its middle. -/
theorem framed_inj {write : List τ → String} (hwrite : Function.Injective write) (opening closing : String)
    (most : Nat) (w v : Window τ) :
    opening ++ write (w.elements.take most) ++ closing ++ w.endMark most =
        opening ++ write (v.elements.take most) ++ closing ++ v.endMark most ↔
      w.shown most = v.shown most ∧ (most < w.length ↔ most < v.length) := by
  rw [append_endMark_inj, String.append_left_inj, String.append_right_inj, hwrite.eq_iff, shown_eq_take,
    shown_eq_take]

end Window

theorem Narrow.ofChar_toChar (c : Narrow) : ofChar c.toChar = c := by
  rw [ofChar, toNat_toChar]
  simp

theorem Narrow.ofString_toString (cs : List Narrow) : ofString (Narrow.toString cs) = cs := by
  simp [ofString, Narrow.toString, Function.comp_def, ofChar_toChar]

theorem Narrow.toString_injective : Function.Injective Narrow.toString :=
  Function.LeftInverse.injective ofString_toString

theorem map_intercalate {γ : Type} (f : τ → γ) (sep : List τ) (texts : List (List τ)) :
    (sep.intercalate texts).map f = (sep.map f).intercalate (texts.map (List.map f)) := by
  cases texts with
  | nil => rfl
  | cons text texts =>
    rw [intercalate_cons, List.map_cons, intercalate_cons, List.map_append, List.map_flatMap, List.flatMap_map]
    simp only [List.map_append]

namespace RecordDump

/-- What stands behind the first opening bracket, up to the next closing one. -/
def bracketed (text : List Narrow) : List Narrow :=
  (text.dropWhile (· != .ofChar '[')).tail.takeWhile (· != .ofChar ']')

theorem ofString_hexByte (b : UInt8) : Narrow.ofString (Reprise.hexByte b) = (Token.ofByte b).text := by
  simp [Narrow.ofString, Reprise.hexByte, Token.text, Token.ofByte, Digit.char]

/-- Bytes as they are shown are a line of hex. -/
theorem ofString_hexBytes (bs : List UInt8) :
    Narrow.ofString (hexBytes bs) = lineOf (bs.map Token.ofByte) := by
  have hbyte : (fun b => List.map Narrow.ofChar (Reprise.hexByte b).toList) =
    fun b => (Token.ofByte b).text := funext ofString_hexByte
  rw [Narrow.ofString, hexBytes, String.toList_intercalate, map_intercalate, List.map_map, List.map_map]
  simp only [Function.comp_def, hbyte, lineOf, List.map_map]
  rfl

theorem bracketed_preview (w : Window UInt8) (most : Nat) :
    bracketed (Narrow.ofString (w.preview most)) = lineOf ((w.shown most).map Token.ofByte) := by
  have hline : ∀ c ∈ lineOf ((w.shown most).map Token.ofByte), (c != Narrow.ofChar ']') = true := by
    intro c hc
    rw [bne_iff_ne]
    rintro rfl
    rcases blank_or_digit_of_mem_lineOf hc with hblank | hdigit
    · exact absurd hblank (by decide)
    · exact absurd hdigit (by decide)
  have hpreview : Narrow.ofString (w.preview most) = Narrow.ofChar '[' ::
      (lineOf ((w.shown most).map Token.ofByte) ++ Narrow.ofChar ']' :: Narrow.ofString (w.endMark most)) := by
    rw [← ofString_hexBytes, Window.shown_eq_take]
    simp [Window.preview, Narrow.ofString, Element.excerpt]
  rw [hpreview, bracketed]
  simp [List.takeWhile_append_of_pos hline]

theorem hexLine_shown [Payload Narrow ε] (bs : List UInt8) (s : σ) :
    ∃ rest t, (hexLine (.ofList (lineOf (bs.map Token.ofByte))) s :
      EStateM.Result Stop σ (Outcome Narrow ε (Array UInt8))) = .ok (.success bs.toArray rest) t ∧
        rest.isEmpty = true := by
  obtain ⟨t, hrun⟩ := hexLine_lineOf (ε := ε) (bs.map Token.ofByte) s
  have hbytes : (bs.map Token.ofByte).map Token.byte = bs := by simp [Function.comp_def]
  rw [hbytes] at hrun
  exact ⟨_, t, hrun, by simp [Window.isEmpty]⟩

/-- What can be read of a text determines the text. -/
theorem hexBytes_injective : Function.Injective hexBytes := by
  intro bs cs h
  have hline : lineOf (bs.map Token.ofByte) = lineOf (cs.map Token.ofByte) := by
    rw [← ofString_hexBytes, ← ofString_hexBytes, h]
  obtain ⟨_, _, hbs, -⟩ := hexLine_shown (ε := Located Narrow) bs ()
  obtain ⟨_, _, hcs, -⟩ := hexLine_shown (ε := Located Narrow) cs ()
  rw [hline] at hbs
  have hfound := (EStateM.Result.ok.inj (hbs.symm.trans hcs)).1
  simpa using (Outcome.success.inj hfound).1

/-- Previews of two texts, or of two sequences of bytes, with one and the same maximum are equal just when they
show the same elements and both or neither leave something out. Of what stands between the brackets of a preview
of bytes, a line of hex reads the bytes that are shown, and nothing is left of it. -/
theorem previews_faithful (most : Nat) :
    (∀ w v : Window Narrow, w.preview most = v.preview most ↔
      w.elements.take (min w.length most) = v.elements.take (min v.length most) ∧
        (most < w.length ↔ most < v.length)) ∧
    (∀ w v : Window UInt8, w.preview most = v.preview most ↔
      w.elements.take (min w.length most) = v.elements.take (min v.length most) ∧
        (most < w.length ↔ most < v.length)) ∧
    ∀ {σ ε : Type} [Payload Narrow ε] (w : Window UInt8) (s : σ), ∃ rest t,
      (hexLine (.ofList (bracketed (Narrow.ofString (w.preview most)))) s :
        EStateM.Result Stop σ (Outcome Narrow ε (Array UInt8))) =
          .ok (.success (w.elements.take (min w.length most)).toArray rest) t ∧ rest.isEmpty = true := by
  refine ⟨fun w v => ?_, fun w v => ?_, fun w s => ?_⟩
  · exact Window.framed_inj Narrow.toString_injective "\"" "\"" most w v
  · have hpreview (w : Window UInt8) :
        w.preview most = "[" ++ hexBytes (w.elements.take most) ++ "]" ++ w.endMark most := by
      simp [Window.preview, Element.excerpt]
    rw [hpreview, hpreview]
    exact Window.framed_inj hexBytes_injective "[" "]" most w v
  · rw [bracketed_preview]
    exact hexLine_shown (w.shown most) s

end RecordDump

end Reprise
