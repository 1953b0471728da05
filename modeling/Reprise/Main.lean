import Reprise.Text.CommaSeparated
import Reprise.Text.RecordDump

/-!
# Command line

Reads a text from standard input and writes what one of the two line programs answers.
-/

namespace Reprise

/-- All bytes of a stream. -/
partial def readAll (stream : IO.FS.Stream) (seen : ByteArray) : IO ByteArray := do
  let chunk ← stream.read 65536
  if chunk.isEmpty then return seen else readAll stream (seen ++ chunk)

/-- The program of a name. -/
def program? : String → Option (List Narrow → Except Stop String)
  | "fields" => some CommaSeparated.report
  | "records" => some RecordDump.report
  | _ => none

end Reprise

open Reprise in
def main (args : List String) : IO UInt32 := do
  match args.head?.bind program? with
  | none =>
    IO.eprintln "usage: reprise fields|records"
    return 2
  | some program =>
    let bytes ← readAll (← IO.getStdin) .empty
    match program (bytes.toList.map Narrow.mk) with
    | .ok text =>
      (← IO.getStdout).write ⟨(Narrow.ofString text).toArray.map Narrow.byte⟩
      return 0
    | .error _ => return 1
