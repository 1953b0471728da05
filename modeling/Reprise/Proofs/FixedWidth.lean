import Reprise.Proofs.Announced
import Reprise.Proofs.Checked

/-!
# Numbers of fixed width

A number is read by shifting its bytes into a 64-bit word, the most significant one first. Up to eight bytes
nothing is shifted out of the word, so it holds the number that was written, in whichever order.
-/

namespace Reprise

variable {σ τ ε : Type}

namespace ByteOrder

/-- Shifts a byte into a word, behind those that are there. -/
def shiftIn (word : UInt64) (b : UInt8) : UInt64 := word <<< 8 ||| b.toUInt64

/-- The highest byte of the word is lost. -/
theorem toNat_shiftIn (word : UInt64) (b : UInt8) :
    (shiftIn word b).toNat = (b.toNat + 256 * word.toNat) % UInt64.size := by
  have hb : b.toNat < 2 ^ 8 := b.toNat_lt
  have hshift : (word <<< 8).toNat = 2 ^ 8 * (word.toNat % 2 ^ 56) := by
    rw [UInt64.toNat_shiftLeft, Nat.shiftLeft_eq]
    simp
    omega
  rw [shiftIn, UInt64.toNat_or, hshift, UInt8.toNat_toUInt64, ← Nat.two_pow_add_eq_or_of_lt hb]
  unfold UInt64.size
  omega

/-- A word holds what its bytes stand for, up to what was lost. -/
theorem toNat_foldl_shiftIn (bs : List UInt8) :
    (bs.reverse.foldl shiftIn 0).toNat = value bs % UInt64.size := by
  induction bs with
  | nil => rfl
  | cons b bs ih =>
    rw [List.reverse_cons, List.foldl_append, List.foldl_cons, List.foldl_nil, toNat_shiftIn, ih, value]
    unfold UInt64.size
    omega

variable [Octets τ] (order : ByteOrder) {width : Width} {x : Window τ}

/-- Nothing is lost of a number of fixed width. -/
theorem toNat_foldl_digits (hx : width.bytes ≤ x.length) :
    ((Checked.digits order width.bytes x).foldl shiftIn 0).toNat =
      order.read (x.elements.take width.bytes) := by
  have hlength : (x.elements.take width.bytes).length = width.bytes := by
    rw [x.length_eq] at hx
    exact List.length_take_of_le hx
  have hfits : 256 ^ width.bytes ≤ UInt64.size := by cases width <;> decide
  have hlt : order.read (x.elements.take width.bytes) < UInt64.size :=
    Nat.lt_of_lt_of_le (order.read_lt width hlength) hfits
  exact (toNat_foldl_shiftIn _).trans (Nat.mod_eq_of_lt hlt)

/-- Elements read in one order are their reverse read in the other. -/
theorem read_reverse (es : List τ) : little.read es = big.read es.reverse := by
  simp only [read, decode, arrange, List.map_reverse, List.reverse_reverse]

end ByteOrder

namespace Parser

variable [Payload τ ε] [Octets τ]

/-- Numbers of fixed width are read back as they were written, in either byte order, whatever follows. Of any
window that is long enough the first elements are such a number: it is what a word holds once they are shifted
in, the most significant one first, it has no more digits than they have room for, and they are how it is
written. One order reads what the other reads of the elements in reverse. A window that is too short is an
error at that window, or asks for the elements that are missing. -/
theorem uint_reads_back (width : Width) (x : Window τ) (s : σ) :
    let read (mode : Mode) (order : ByteOrder) (y : Window τ) :
        EStateM.Result Stop σ (Outcome τ ε Nat) := uint mode width order y s
    let first := x.elements.take width.bytes
    (∀ mode order n behind, n < 2 ^ (8 * width.bytes) → x.elements = order.write width n ++ behind →
      read mode order x = .ok (.success n (x.drop width.bytes)) s ∧
        (x.drop width.bytes).elements = behind) ∧
    (width.bytes ≤ x.length → ∀ mode, (∀ order, ∃ n,
        read mode order x = .ok (.success n (x.drop width.bytes)) s ∧ n < 2 ^ (8 * width.bytes) ∧
        order.write width n = first ∧
        n = ((Checked.digits order width.bytes x).foldl ByteOrder.shiftIn 0).toNat) ∧
      ∃ n rest, read mode .little x = .ok (.success n (x.drop width.bytes)) s ∧
        read mode .big (.ofList first.reverse) = .ok (.success n rest) s) ∧
    (x.length < width.bytes → ∀ order, read .complete order x = .ok (.errorAt x .eof) s ∧
      read .streaming order x = .ok (.needs (width.bytes - x.length)) s) := by
  intro read first
  have hpow : 2 ^ (8 * width.bytes) = 256 ^ width.bytes := Nat.pow_mul 2 8 width.bytes
  rw [hpow]
  refine ⟨fun mode order n behind hn hx => ?_, fun hle mode => ⟨fun order => ?_, ?_⟩, fun hlt order => ?_⟩
  · refine ⟨uint_of_written mode hn hx s, ?_⟩
    rw [Window.elements_drop, hx, List.drop_left' (order.length_write width n)]
  · have hfirst : first.length = width.bytes := List.length_take_of_le (x.length_eq ▸ hle)
    exact ⟨_, uint_of_le mode order hle s, order.read_lt width hfirst, order.write_read width hfirst,
      (order.toNat_foldl_digits hle).symm⟩
  · have hfirst : first.length = width.bytes := List.length_take_of_le (x.length_eq ▸ hle)
    have hreverse : first.reverse.length = width.bytes := by rw [List.length_reverse, hfirst]
    have hbig : read mode .big (.ofList first.reverse) = _ :=
      uint_of_le mode .big (Nat.le_of_eq hreverse.symm) s
    rw [Window.elements_ofList, List.take_of_length_le (Nat.le_of_eq hreverse),
      ← ByteOrder.read_reverse] at hbig
    exact ⟨_, _, uint_of_le mode .little hle s, hbig⟩
  · exact ⟨uint_of_lt .complete order hlt s, uint_of_lt .streaming order hlt s⟩

/-- Two characters beyond ASCII and a third one, read as a number of two bytes. -/
theorem uint_reads_back_high :
    let x : Window Narrow := .ofList [⟨0xff⟩, ⟨0x80⟩, ⟨0x41⟩]
    let read (order : ByteOrder) (y : Window Narrow) :
        EStateM.Result Stop Unit (Outcome Narrow (Trail Narrow) Nat) := uint .complete .w16 order y ()
    (read .little x = .ok (.success 0x80ff (x.drop 2)) () ∧ (x.drop 2).elements = [⟨0x41⟩]) ∧
      read .big x = .ok (.success 0xff80 (x.drop 2)) () ∧
      ByteOrder.big.write .w16 0xff80 = [(⟨0xff⟩ : Narrow), ⟨0x80⟩] ∧
      read .little (x.drop 2) = .ok (.errorAt (x.drop 2) .eof) () ∧
      (uint .streaming .w16 .big (x.drop 2) () : EStateM.Result Stop Unit
        (Outcome Narrow (Trail Narrow) Nat)) = .ok (.needs 1) () := by
  intro x read
  obtain ⟨hwritten, hlong, -⟩ := uint_reads_back (ε := Trail Narrow) .w16 x ()
  obtain ⟨-, -, hshort⟩ := uint_reads_back (ε := Trail Narrow) .w16 (x.drop 2) ()
  obtain ⟨n, hread, -, hwrite, hword⟩ := (hlong (by decide) .complete).1 .big
  obtain rfl : n = 0xff80 := hword
  exact ⟨hwritten .complete .little 0x80ff [⟨0x41⟩] (by decide) rfl, hread, hwrite,
    (hshort (by decide) .little).1, (hshort (by decide) .big).2⟩

end Parser
end Reprise
