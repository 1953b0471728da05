import Mathlib.Data.List.Induction
import Reprise.Proofs.Repeating
import Reprise.Text.RecordDump

/-!
# Records of a source

Bytes that are read as records are whole records one after the other, or they end within a record. In the
one case the records are found where they stand, in the other the bytes of the last record that are missing
are asked for.
-/

namespace Reprise.RecordDump

variable {σ ε : Type}

/-- The bytes of a record. Their number is a byte itself. -/
structure Record where
  bytes : List UInt8
  length_lt : bytes.length < 256

namespace Record

theorem ext {r r' : Record} (h : r.bytes = r'.bytes) : r = r' := by
  cases r
  cases r'
  simp_all

/-- The byte before the others of a record. -/
def size (r : Record) : UInt8 := r.bytes.length.toUInt8

@[simp] theorem toNat_size (r : Record) : r.size.toNat = r.bytes.length :=
  Nat.mod_eq_of_lt r.length_lt

/-- A record as it stands in a source. -/
def raw (r : Record) : List UInt8 := r.size :: r.bytes

@[simp] theorem length_raw (r : Record) : r.raw.length = r.bytes.length + 1 := rfl

end Record

/-- Records one after the other. -/
def written (rs : List Record) : List UInt8 := rs.flatMap Record.raw

@[simp] theorem written_nil : written [] = [] := rfl

@[simp] theorem written_cons (r : Record) (rs : List Record) :
    written (r :: rs) = r.raw ++ written rs := rfl

@[simp] theorem written_append (rs rs' : List Record) :
    written (rs ++ rs') = written rs ++ written rs' := List.flatMap_append

/-- A record takes a byte at least. -/
theorem length_le_written (rs : List Record) : rs.length ≤ (written rs).length := by
  induction rs with
  | nil => simp
  | cons r rs ih => simp; omega

/-- Where records stand in a source that goes on with them at an offset. -/
def placed : Nat → List Record → List (Window UInt8)
  | _, [] => []
  | n, r :: rs => ⟨n + 1, r.bytes, r.bytes.length, rfl⟩ :: placed (n + r.raw.length) rs

theorem placed_append (n : Nat) (rs : List Record) (r : Record) :
    placed n (rs ++ [r]) =
      placed n rs ++ [⟨n + (written rs).length + 1, r.bytes, r.bytes.length, rfl⟩] := by
  induction rs generalizing n with
  | nil => simp [placed]
  | cons r' rs ih => simp [placed, ih, Nat.add_assoc]

theorem placed_elements (n : Nat) (rs : List Record) :
    (placed n rs).map Window.elements = rs.map Record.bytes := by
  induction rs generalizing n with
  | nil => rfl
  | cons r rs ih => simp [placed, ih]

/-- A source that ends within a record, a number of bytes before the end of the record. -/
def EndsWithin (source : List UInt8) (missing : Nat) : Prop :=
  ∃ rs size part, source = written rs ++ size :: part ∧ part.length + missing = size.toNat ∧ 0 < missing

/-- There are no other sources. -/
theorem written_or_endsWithin (source : List UInt8) :
    (∃ rs, source = written rs) ∨ ∃ missing, EndsWithin source missing := by
  induction hn : source.length using Nat.strongRecOn generalizing source with
  | ind n ih =>
    cases source with
    | nil => exact .inl ⟨[], rfl⟩
    | cons size rest =>
      by_cases hrest : rest.length < size.toNat
      · exact .inr ⟨size.toNat - rest.length, [], size, rest, rfl, by omega, by omega⟩
      · have hlen : (rest.take size.toNat).length = size.toNat := by simp; omega
        let r : Record := ⟨rest.take size.toNat, by rw [hlen]; exact size.toNat_lt⟩
        have hraw : r.raw = size :: rest.take size.toNat := by
          simp [Record.raw, Record.size, r, hlen]
        have happend : size :: rest = r.raw ++ rest.drop size.toNat := by simp [hraw]
        have hlt : (rest.drop size.toNat).length < n := by
          simp at hn ⊢
          omega
        rcases ih _ hlt _ rfl with ⟨rs, hrs⟩ | ⟨missing, rs, size', part, hrs, hmissing⟩
        · exact .inl ⟨r :: rs, by rw [happend, hrs, written_cons]⟩
        · refine .inr ⟨missing, r :: rs, size', part, ?_, hmissing⟩
          rw [happend, hrs, written_cons, List.append_assoc]

/-! What reads records. -/

variable [Payload UInt8 ε]

/-- A single record. -/
abbrev record : Parser σ UInt8 ε (Window UInt8) := .lengthData (.uint .complete .w8 .big)

theorem record_nil {x : Window UInt8} (hx : x.elements = []) :
    (record x : Run σ (Outcome UInt8 ε (Window UInt8))) = pure (.errorAt x .eof) := by
  have hlen : x.length < Width.w8.bytes := by simp [x.length_eq, hx, Width.bytes]
  rw [record, Parser.lengthData_eq, Parser.uint_eq, if_pos hlen]
  rfl

/-- The first byte says how many follow. -/
theorem record_cons {x : Window UInt8} {size : UInt8} {rest : List UInt8}
    (hx : x.elements = size :: rest) :
    (record x : Run σ (Outcome UInt8 ε (Window UInt8))) = pure (
      if rest.length < size.toNat then .needs (size.toNat - rest.length)
      else .success ((x.drop 1).take size.toNat) ((x.drop 1).drop size.toNat)) := by
  have hlen : ¬ x.length < Width.w8.bytes := by simp [x.length_eq, hx, Width.bytes]
  have hnumber : ByteOrder.big.decode ((x.take Width.w8.bytes).elements.map Element.octet) =
      size.toNat := by
    simp [hx, Width.bytes, ByteOrder.decode, ByteOrder.arrange, ByteOrder.value, Element.octet,
      Element.number]
  have hrest : (x.drop Width.w8.bytes).length = rest.length := by
    simp [x.length_eq, hx, Width.bytes]
  rw [record, Parser.lengthData_eq, Parser.uint_eq, if_neg hlen, hnumber, pure_bind]
  simp only [hrest]
  by_cases h : rest.length < size.toNat
  · simp only [if_pos h]
  · simp only [if_neg h, Width.bytes]

/-- A whole record is taken. -/
theorem record_raw {x : Window UInt8} {r : Record} {rest : List UInt8}
    (hx : x.elements = r.raw ++ rest) :
    (record x : Run σ (Outcome UInt8 ε (Window UInt8))) =
      pure (.success ⟨x.offset + 1, r.bytes, r.bytes.length, rfl⟩ (x.drop r.raw.length)) := by
  have hlen : x.length = r.bytes.length + 1 + rest.length := by simp [x.length_eq, hx]
  have hwindow : (x.drop 1).take r.bytes.length =
      ⟨x.offset + 1, r.bytes, r.bytes.length, rfl⟩ := by
    apply Window.ext
    · simp
      omega
    · simp [hx, Record.raw]
  rw [record_cons hx, Record.toNat_size, if_neg (by simp), hwindow, Window.drop_drop,
    Record.length_raw, Nat.add_comm 1]

/-- Records are read turn by turn, whatever stands behind them. -/
theorem rounds_written (rs : List Record) {x : Window UInt8} {rest : List UInt8}
    (hx : x.elements = written rs ++ rest) (s : σ) :
    ∃ ls : List (Round UInt8 ε (Window UInt8)), ls.length = rs.length ∧
      Rounds (Repetition.many0.Turn record fun held v => return held.push v) ⟨#[], x, s⟩ ls
        ⟨(placed x.offset rs).toArray, x.drop (written rs).length, s⟩ := by
  -- the last turn reads the last record
  induction rs using List.reverseRecOn generalizing rest with
  | nil => exact ⟨[], rfl, by simpa [placed] using Rounds.none⟩
  | append_singleton rs r ih =>
    have hsplit : x.elements = written rs ++ (r.raw ++ rest) := by simp [hx]
    obtain ⟨ls, hls, hrounds⟩ := ih hsplit
    have hlen : (written rs).length + r.raw.length ≤ x.length := by
      simp [x.length_eq, hsplit]
    have hlast : (x.drop (written rs).length).elements = r.raw ++ rest := by simp [hsplit]
    have hdrop : (x.drop (written rs).length).drop r.raw.length =
        x.drop (written (rs ++ [r])).length := by simp [Window.drop_drop]
    have hread := congrFun (record_raw (σ := σ) (ε := ε) hlast) s
    rw [hdrop] at hread
    refine ⟨ls ++ [⟨_, _⟩], by simp [hls], hrounds.more (.taken hread (fun _ => ?_) ?_)⟩
    · simp at hlen ⊢
      omega
    · have hoffset : x.offset + min (written rs).length x.length = x.offset + (written rs).length := by
        omega
      simp [placed_append, hoffset]
      rfl

theorem counts_many0 : Repetition.many0.counts = .upTo largestCount := rfl

theorem records_eq (x : Window UInt8) :
    (records x : Run σ (Outcome UInt8 ε (Array (Window UInt8)))) =
      Repetition.many0.loop record (fun held v => return held.push v)
        (Repetition.many0.counts.turns x.length) 0 #[] x := by
  have hinverted : Repetition.many0.range.inverted = false := rfl
  simp only [records, Parser.many0, Parser.collect]
  rw [Repetition.run_eq_loop hinverted]
  simp only [Container.sequence]

/-- Records before a stage at which the loop finishes. -/
theorem records_of_finishes {rs : List Record} {x : Window UInt8} {rest : List UInt8}
    (hx : x.elements = written rs ++ rest) (hcount : rs.length ≤ largestCount) {s : σ}
    {last : List (Call UInt8 ε)}
    {result : EStateM.Result Stop σ (Outcome UInt8 ε (Array (Window UInt8)))}
    (h : Repetition.many0.Finishes record (fun held v => return held.push v) rs.length rs.length
      ⟨(placed x.offset rs).toArray, x.drop (written rs).length, s⟩ last result) :
    records x s = result := by
  obtain ⟨ls, hls, hrounds⟩ := rounds_written (σ := σ) (ε := ε) rs hx s
  have hafter : Counts.after ls.length = ls.length := Counts.after_of_le (hls ▸ hcount)
  have hturns : (ls.length : ℕ∞) < Repetition.many0.counts.size →
      ls.length < Repetition.many0.counts.turns x.length := by
    rw [counts_many0]
    exact Nat.cast_lt.mp
  have hfinishes : Repetition.many0.Finishes record (fun held v => return held.push v) ls.length
      (Counts.after ls.length) ⟨(placed x.offset rs).toArray, x.drop (written rs).length, s⟩ last
      result := by rwa [hafter, hls]
  rw [records_eq]
  exact Repetition.loop_of_finishes hrounds hfinishes hturns

/-- Whole records up to the end of the source. -/
theorem records_written {rs : List Record} {x : Window UInt8} (hx : x.elements = written rs)
    (hcount : rs.length ≤ largestCount) :
    (records x : Run σ (Outcome UInt8 ε (Array (Window UInt8)))) =
      pure (.success (placed x.offset rs).toArray (x.drop (written rs).length)) := by
  have hrest : x.elements = written rs ++ [] := by simp [hx]
  have hend : (x.drop (written rs).length).elements = [] := by simp [hx]
  funext s
  rcases Nat.lt_or_eq_of_le hcount with hlt | heq
  · have hclosed := congrFun (record_nil (σ := σ) (ε := ε) hend) s
    refine records_of_finishes hrest hcount (.closed ?_ (.enough hclosed rfl))
    rw [counts_many0]
    exact Nat.cast_lt.mpr hlt
  · -- there are as many records as counts, so that the loop does not look for another one
    refine records_of_finishes hrest hcount (.exhausted ?_)
    rw [counts_many0, heq]
    rfl

/-- Whole records before one that is cut off. -/
theorem records_cut {rs : List Record} {x : Window UInt8} {size : UInt8} {part : List UInt8}
    (hx : x.elements = written rs ++ size :: part) (hcount : rs.length < largestCount)
    (hpart : part.length < size.toNat) :
    (records x : Run σ (Outcome UInt8 ε (Array (Window UInt8)))) =
      pure (.needs (size.toNat - part.length)) := by
  have hend : (x.drop (written rs).length).elements = size :: part := by simp [hx]
  funext s
  have hclosed := congrFun (record_cons (σ := σ) (ε := ε) hend) s
  rw [if_pos hpart] at hclosed
  refine records_of_finishes hx hcount.le (.closed ?_ (.handedOn hclosed rfl))
  rw [counts_many0]
  exact Nat.cast_lt.mpr hcount

/-- A source of whole records. -/
theorem records_of_written {source : List UInt8} {rs : List Record} (hrs : source = written rs)
    (h : source.length < UInt64.size) :
    (records (.ofList source) : Run σ (Outcome UInt8 ε (Array (Window UInt8)))) =
      pure (.success (placed 0 rs).toArray ⟨source.length, [], 0, rfl⟩) := by
  have hrest : (Window.ofList source).drop (written rs).length = ⟨source.length, [], 0, rfl⟩ := by
    apply Window.ext <;> simp [hrs]
  have hcount : rs.length ≤ largestCount := by
    have hle := length_le_written rs
    rw [← hrs] at hle
    exact hle.trans (Nat.le_of_lt_succ h)
  rw [records_written hrs hcount, hrest]
  rfl

/-- A source that ends within a record. -/
theorem records_of_endsWithin {source : List UInt8} {missing : Nat} (hends : EndsWithin source missing)
    (h : source.length < UInt64.size) :
    (records (.ofList source) : Run σ (Outcome UInt8 ε (Array (Window UInt8)))) =
      pure (.needs missing) := by
  obtain ⟨rs, size, part, hrs, hpart, hmissing⟩ := hends
  have hcount : rs.length < largestCount := by
    have hle := length_le_written rs
    have hlarge : source.length ≤ largestCount := Nat.le_of_lt_succ h
    have hlength : source.length = (written rs).length + (part.length + 1) := by simp [hrs]
    omega
  have hneeds : size.toNat - part.length = missing := by omega
  rw [records_cut hrs hcount (by omega), hneeds]

/-- Of a source that is no longer than a length can say, records are read as they are written. A source
that ends within a record asks for the bytes that the record misses, and there are no other sources. -/
theorem reads_records (source : List UInt8) (h : source.length < UInt64.size) :
    (∀ (σ ε : Type) [Payload UInt8 ε],
      (∀ rs, source = written rs →
        (records (.ofList source) : Run σ (Outcome UInt8 ε (Array (Window UInt8)))) =
          pure (.success (placed 0 rs).toArray ⟨source.length, [], 0, rfl⟩)) ∧
      ∀ missing, EndsWithin source missing →
        (records (.ofList source) : Run σ (Outcome UInt8 ε (Array (Window UInt8)))) =
          pure (.needs missing)) ∧
    (∀ rs, (placed 0 rs).map Window.elements = rs.map Record.bytes) ∧
    ((∃ rs, source = written rs) ∨ ∃ missing, EndsWithin source missing) :=
  ⟨fun _ _ _ => ⟨fun _ hrs => records_of_written hrs h, fun _ hends => records_of_endsWithin hends h⟩,
    placed_elements 0, written_or_endsWithin source⟩

/-- Three records, of which the second is empty, and the same source without its last byte. -/
theorem reads_records_three :
    (records (ε := Located UInt8) (.ofList [2, 0xab, 0xcd, 0, 1, 0xff]) () =
      .ok (.success #[⟨1, [0xab, 0xcd], 2, rfl⟩, ⟨4, [], 0, rfl⟩, ⟨5, [0xff], 1, rfl⟩]
        ⟨6, [], 0, rfl⟩) ()) ∧
    records (ε := Located UInt8) (.ofList [2, 0xab, 0xcd, 0, 1]) () = .ok (.needs 1) () := by
  have hwhole : [2, 0xab, 0xcd, 0, 1, 0xff] =
      written [⟨[0xab, 0xcd], by decide⟩, ⟨[], by decide⟩, ⟨[0xff], by decide⟩] := by decide
  have hcut : EndsWithin [2, 0xab, 0xcd, 0, 1] 1 :=
    ⟨[⟨[0xab, 0xcd], by decide⟩, ⟨[], by decide⟩], 1, [], by decide, by decide, by decide⟩
  obtain ⟨hwritten, -⟩ := (reads_records [2, 0xab, 0xcd, 0, 1, 0xff] (by decide)).1 Unit
    (Located UInt8)
  obtain ⟨-, hends⟩ := (reads_records [2, 0xab, 0xcd, 0, 1] (by decide)).1 Unit (Located UInt8)
  exact ⟨congrFun (hwritten _ hwhole) (), congrFun (hends 1 hcut) ()⟩

end Reprise.RecordDump
