import Reprise.Grammar.Session
import Reprise.Proofs.GrammarLink
import Reprise.Proofs.Integers
import Reprise.Source.Octet

/-!
# Announced data

Data behind its own length in fixed width. A parser of announced data accepts sources of that form and no
others: of a source that ends too early it asks for exactly what is missing.
-/

namespace Reprise

variable {τ ε : Type}

namespace ByteOrder

variable [Octets τ] (order : ByteOrder) (width : Width)

/-- A number in the elements of a source. -/
def write (n : Nat) : List τ := (order.encode width.bytes n).map Octets.ofByte

@[simp] theorem length_write (n : Nat) : (order.write width n : List τ).length = width.bytes := by
  simp [write]

/-- The number that elements stand for. -/
def read (es : List τ) : Nat := order.decode (es.map Element.octet)

theorem read_write {n : Nat} (h : n < 256 ^ width.bytes) :
    order.read (order.write width n : List τ) = n := by
  have hid : Element.octet ∘ (Octets.ofByte : UInt8 → τ) = id := funext Octets.octet_ofByte
  unfold read write
  rw [List.map_map, hid, List.map_id]
  exact order.decode_encode width.bytes n h

theorem write_read {es : List τ} (h : es.length = width.bytes) :
    order.write width (order.read es) = es := by
  have hbytes := order.encode_decode (es.map Element.octet)
  rw [List.length_map, h] at hbytes
  have hid : Octets.ofByte ∘ (Element.octet : τ → UInt8) = id := funext Octets.ofByte_octet
  unfold write read
  rw [hbytes, List.map_map, hid, List.map_id]

theorem read_lt {es : List τ} (h : es.length = width.bytes) : order.read es < 256 ^ width.bytes := by
  have hlt := order.decode_lt (es.map Element.octet)
  rwa [List.length_map, h] at hlt

/-- Any source that is long enough begins with a number. -/
theorem exists_write {source : List τ} (h : width.bytes ≤ source.length) :
    ∃ n < 256 ^ width.bytes, ∃ rest, source = order.write width n ++ rest := by
  have hlen : (source.take width.bytes).length = width.bytes := List.length_take_of_le h
  refine ⟨order.read (source.take width.bytes), order.read_lt width hlen, source.drop width.bytes, ?_⟩
  rw [order.write_read width hlen, List.take_append_drop]

end ByteOrder

namespace Parser

variable {σ : Type} [Payload τ ε] [Octets τ] (mode : Mode) {width : Width} {x : Window τ}

/-- A window with enough elements begins with a number. -/
theorem uint_of_le (order : ByteOrder) (h : width.bytes ≤ x.length) (s : σ) :
    (uint mode width order x s : EStateM.Result Stop σ (Outcome τ ε Nat)) =
      .ok (.success (order.read (x.elements.take width.bytes)) (x.drop width.bytes)) s := by
  rw [uint_eq, if_neg (Nat.not_lt.mpr h)]
  rfl

theorem uint_of_lt (order : ByteOrder) (h : x.length < width.bytes) (s : σ) :
    (uint mode width order x s : EStateM.Result Stop σ (Outcome τ ε Nat)) =
      .ok (tooShort mode .eof width.bytes x) s := by
  rw [uint_eq, if_pos h]
  rfl

/-- A number is read from a window that begins with it. -/
theorem uint_of_written {order : ByteOrder} {n : Nat} {rest : List τ} (hn : n < 256 ^ width.bytes)
    (hx : x.elements = order.write width n ++ rest) (s : σ) :
    (uint mode width order x s : EStateM.Result Stop σ (Outcome τ ε Nat)) =
      .ok (.success n (x.drop width.bytes)) s := by
  have hle : width.bytes ≤ x.length := by
    rw [x.length_eq, hx, List.length_append, ByteOrder.length_write]
    omega
  have htake : x.elements.take width.bytes = order.write width n := by
    rw [hx, List.take_left' (order.length_write width n)]
  rw [uint_of_le mode order hle s, htake, order.read_write width hn]

end Parser

namespace Grammar

variable [Payload τ ε] [Octets τ] (rule : String → Rule τ ε) (mode : Mode) {width : Width}
  {order : ByteOrder} {x : Window τ}

theorem uint_short (order : ByteOrder) (h : x.length < width.bytes) (s : RunState τ ε) :
    (uint mode width order).parser rule x s = .ok (Parser.tooShort mode .eof width.bytes x) s := by
  unfold parser Parser.map
  rw [Run.bind_of_ok (Parser.uint_of_lt mode order h s)]
  cases mode <;> rfl

/-- A length is read from the number a window begins with. -/
theorem lengthOf_uint {n : Nat} {rest : List τ} (hn : n < 256 ^ width.bytes)
    (hx : x.elements = order.write width n ++ rest) (s : RunState τ ε) :
    lengthOf ((uint mode width order).parser rule) x s = .ok (.success n (x.drop width.bytes)) s := by
  unfold lengthOf parser Parser.map
  rw [bind_assoc]
  exact Run.bind_of_ok (Parser.uint_of_written mode hn hx s)

/-- Data is taken from behind its length, or the rest of it is asked for. -/
theorem lengthData_uint {n : Nat} {rest : List τ} (hn : n < 256 ^ width.bytes)
    (hx : x.elements = order.write width n ++ rest) (s : RunState τ ε) :
    (lengthData (uint mode width order)).parser rule x s = .ok (
      if rest.length < n then .needs (n - rest.length)
      else .success (.slice ((x.drop width.bytes).take n)) ((x.drop width.bytes).drop n)) s := by
  have hrest : (x.drop width.bytes).length = rest.length := by
    rw [Window.length_drop, x.length_eq, hx, List.length_append, ByteOrder.length_write,
      Nat.add_sub_cancel_left]
  have hlen := lengthOf_uint rule mode hn hx s
  unfold parser Parser.map
  rw [Parser.lengthData_eq, bind_assoc, Run.bind_of_ok hlen]
  by_cases h : rest.length < n
  · simp only [hrest, if_pos h]
    rfl
  · simp only [hrest, if_neg h]
    rfl

theorem lengthData_uint_short (order : ByteOrder) (h : x.length < width.bytes) (s : RunState τ ε) :
    (lengthData (uint mode width order)).parser rule x s =
      .ok (Parser.tooShort mode .eof width.bytes x) s := by
  have hlen : lengthOf ((uint mode width order).parser rule) x s =
      .ok (Parser.tooShort mode .eof width.bytes x) s := by
    unfold lengthOf
    rw [Parser.map, Run.bind_of_ok (uint_short rule mode order h s)]
    cases mode <;> rfl
  unfold parser Parser.map
  rw [Parser.lengthData_eq, bind_assoc, Run.bind_of_ok hlen]
  cases mode <;> rfl

end Grammar

/-- A source that holds the length of some data, the data, and a rest. -/
structure Announces [Octets τ] (order : ByteOrder) (width : Width) (source data rest : List τ) :
    Prop where
  representable : data.length < 256 ^ width.bytes
  source_eq : source = order.write width data.length ++ (data ++ rest)

/-- A source that holds a length and ends a number of elements before the data does. -/
def CutShort [Octets τ] (order : ByteOrder) (width : Width) (source : List τ) (missing : Nat) : Prop :=
  ∃ n < 256 ^ width.bytes, ∃ rest, source = order.write width n ++ rest ∧
    rest.length + missing = n ∧ 0 < missing

/-- A source is too short for a length, announces data, or is cut short. -/
theorem announces_or_cutShort [Octets τ] (order : ByteOrder) (width : Width) (source : List τ) :
    source.length < width.bytes ∨ (∃ data rest, Announces order width source data rest) ∨
      ∃ missing, CutShort order width source missing := by
  by_cases hshort : source.length < width.bytes
  · exact .inl hshort
  · obtain ⟨n, hn, rest, hsource⟩ := order.exists_write width (Nat.le_of_not_lt hshort)
    by_cases hrest : rest.length < n
    · exact .inr (.inr ⟨n - rest.length, n, hn, rest, hsource, by omega, by omega⟩)
    · have hlen : (rest.take n).length = n := List.length_take_of_le (Nat.le_of_not_lt hrest)
      refine .inr (.inl ⟨rest.take n, rest.drop n, ?_, ?_⟩)
      · rw [hlen]
        exact hn
      · rw [hlen, List.take_append_drop]
        exact hsource

namespace Session

variable [Payload τ ε] [Octets τ] (s : Session τ) (mode : Mode) {width : Width} {order : ByteOrder}
  {source : List τ}

theorem outcome_of_announces {data rest : List τ} (h : Announces order width source data rest) :
    (s.run (.lengthData (.uint mode width order)) source : Report τ ε × Session τ).1.outcome =
      .ok (.success (.slice ((Window.ofList data).shift width.bytes))
        ((Window.ofList rest).shift (width.bytes + data.length))) := by
  have hwrite := order.length_write (τ := τ) width data.length
  have hdata := Window.take_drop_ofList (order.write width data.length) data rest
  have hrest := Window.drop_drop_ofList (order.write width data.length) data rest
  rw [hwrite] at hdata hrest
  have hlen : ¬ (data ++ rest).length < data.length := by simp
  have hparse := Grammar.lengthData_uint (x := .ofList source)
    (s.bindings.rule (ε := ε) recursionLimit) mode h.representable h.source_eq s.initial
  rw [if_neg hlen, h.source_eq, hdata, hrest] at hparse
  rw [h.source_eq]
  exact s.outcome_of_ok hparse

theorem outcome_of_cutShort {missing : Nat} (h : CutShort order width source missing) :
    (s.run (.lengthData (.uint mode width order)) source : Report τ ε × Session τ).1.outcome =
      .ok (.signal (.incomplete ⟨missing⟩)) := by
  obtain ⟨n, hn, rest, hsource, hmissing, hpos⟩ := h
  have hlen : rest.length < n := by omega
  have hparse := Grammar.lengthData_uint (x := .ofList source)
    (s.bindings.rule (ε := ε) recursionLimit) mode hn hsource s.initial
  rw [if_pos hlen] at hparse
  obtain rfl : missing = n - rest.length := by omega
  exact s.outcome_of_ok hparse

theorem outcome_of_short (order : ByteOrder) (h : source.length < width.bytes) :
    (s.run (.lengthData (.uint mode width order)) source : Report τ ε × Session τ).1.outcome =
      .ok (Parser.tooShort mode .eof width.bytes (.ofList source)) :=
  s.outcome_of_ok (Grammar.lengthData_uint_short _ mode order h s.initial)

/-- Announced data is accepted exactly where a source begins with a length and that many elements. Where
the elements are too few, exactly the missing ones are asked for, one at least. A source without a whole
length is answered as the parser of the length answers it. There are no other sources. -/
theorem accepts_announced_data (order : ByteOrder) (width : Width) (source : List τ) :
    let outcome :=
      (s.run (.lengthData (.uint mode width order)) source : Report τ ε × Session τ).1.outcome
    (∀ v after, outcome = .ok (.success v after) ↔ ∃ data rest,
      Announces order width source data rest ∧
      v = .slice ((Window.ofList data).shift width.bytes) ∧
      after = (Window.ofList rest).shift (width.bytes + data.length)) ∧
    (width.bytes ≤ source.length → ∀ k,
      outcome = .ok (.signal (.incomplete ⟨k⟩)) ↔ CutShort order width source k) ∧
    (source.length < width.bytes →
      outcome = (s.run (.uint mode width order) source : Report τ ε × Session τ).1.outcome ∧
      outcome = .ok (Parser.tooShort mode .eof width.bytes (.ofList source))) ∧
    (source.length < width.bytes ∨ (∃ data rest, Announces order width source data rest) ∨
      ∃ missing, CutShort order width source missing) := by
  intro outcome
  refine ⟨?_, ?_, ?_, announces_or_cutShort order width source⟩
  · intro v after
    constructor
    · intro h
      rcases announces_or_cutShort order width source with hshort | ⟨data, rest, hdata⟩ | ⟨k, hcut⟩
      · rw [show outcome = _ from s.outcome_of_short mode order hshort] at h
        cases mode <;> cases h
      · rw [show outcome = _ from s.outcome_of_announces mode hdata] at h
        cases h
        exact ⟨data, rest, hdata, rfl, rfl⟩
      · rw [show outcome = _ from s.outcome_of_cutShort mode hcut] at h
        cases h
    · rintro ⟨data, rest, hdata, rfl, rfl⟩
      exact s.outcome_of_announces mode hdata
  · intro hlong k
    constructor
    · intro h
      rcases announces_or_cutShort order width source with hshort | ⟨data, rest, hdata⟩ | ⟨k', hcut⟩
      · exact absurd hshort (Nat.not_lt.mpr hlong)
      · rw [show outcome = _ from s.outcome_of_announces mode hdata] at h
        cases h
      · rw [show outcome = _ from s.outcome_of_cutShort mode hcut] at h
        cases h
        exact hcut
    · exact s.outcome_of_cutShort mode
  · intro hshort
    have houtcome : outcome = _ := s.outcome_of_short mode order hshort
    have hown : (s.run (.uint mode width order) source : Report τ ε × Session τ).1.outcome =
        .ok (Parser.tooShort mode .eof width.bytes (.ofList source)) :=
      s.outcome_of_ok (Grammar.uint_short _ mode order hshort s.initial)
    exact ⟨houtcome.trans hown.symm, houtcome⟩

end Session

end Reprise
