import Reprise.Source.Element
import Reprise.Source.Window

/-!
# Previews

A short printable excerpt of a window. Text is quoted and bytes are written in hex, both followed
by a mark that tells whether the excerpt reaches the end; other elements are only counted.
-/

namespace Reprise

/-- A byte as two hex digits. -/
def hexByte (b : UInt8) : String :=
  String.ofList [Nat.digitChar (b.toNat / 16), Nat.digitChar (b.toNat % 16)]

/-- The bytes in hex, one blank between two. -/
def hexBytes (bs : List UInt8) : String := " ".intercalate (bs.map hexByte)

namespace Window

variable {τ : Type}

def endMark (w : Window τ) (most : Nat) : String := if most < w.length then "..." else "$"

/-- An excerpt of at most `most` elements. -/
def preview [Element τ] (w : Window τ) (most : Nat) : String :=
  let shown := w.elements.take most
  match (Element.excerpt : Excerpt τ) with
  | .quoted char => "\"" ++ String.ofList (shown.map char) ++ "\"" ++ w.endMark most
  | .hex byte => "[" ++ hexBytes (shown.map byte) ++ "]" ++ w.endMark most
  | .counted => "<" ++ toString w.length ++ " elements>"

/-- How many elements an excerpt shows where nothing else is asked for. -/
def defaultPreview : Nat := 20

end Window

end Reprise
