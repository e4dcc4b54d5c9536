import BillionRows.Scan
import BillionRows.Merge

/-!
# The overlapping reads of `main` in `src/unnamed/part_002`

`main` splits the file into `workers` chunks `wks[i] = [start, end]` (both inclusive). Worker `i`
reads `[start, end + overlap]` (cut at the end of the file) with `ReadAt`, skips up to the first
`'\n'` unless it is the first worker, and, unless its chunk ends the file, trims its buffer after
the last `'\n'` it read. It parses `buf[offset:limit]` into its local map, and `main` merges the
local maps.

The trim looks for the last `'\n'` of the whole read, which reaches up to `overlap = 1 MiB` past
`end`, and not for the first `'\n'` at or after `end`: the windows of consecutive workers overlap,
and the lines in the overlap are parsed twice.

`int64` offsets are `Int`s; all of them stay far from the bounds of `int64`. `ReadAt` of a buffer
that ends inside the file reads it whole, so it is the slice of the file it covers.
-/

namespace BillionRows

/-- `const overlap = int64(1 << 20)` -/
def overlap : Int := 1048576

/-- The loop building `wks` from chunk `i` on, with `s` the start of chunk `i` and `n` chunks to
go. -/
def wksLoop (size chunk : Int) (workers : Nat) : Nat → Int → Nat → List (Int × Int)
  | _, _, 0 => []
  | i, s, n + 1 =>
    let e := if i = workers - 1 then size - 1 else s + chunk - 1
    (s, e) :: wksLoop size chunk workers (i + 1) (e + 1) n

/-- `wks`: the chunk `[start, end]` of each worker. -/
def wks (size : Int) (workers : Nat) : List (Int × Int) :=
  wksLoop size (size / workers) workers 0 0 workers

/-- `for offset < readLen { if buf[offset] == '\n' { offset++; break }; offset++ }` over the bytes
`buf[offset:]`: one past the first `'\n'`, or `readLen`. -/
def skipPast : Bytes → Nat → Nat
  | [], offset => offset
  | b :: rest, offset => if b = newline then offset + 1 else skipPast rest (offset + 1)

/-- `for j >= 0 && buf[j] != '\n' { j-- }` from `j = k - 1`: the last `'\n'` of `buf[:k]`, or
`none` when the loop ends at `j = -1`. -/
def scanBack (buf : Bytes) : Nat → Option Nat
  | 0 => none
  | k + 1 => if buf[k]? = some newline then some k else scanBack buf k

/-- The bytes worker `[start, stop]` (`end` in the source) passes to `parseChunk`, or `none` when
it returns first because its read holds no `'\n'` it can start after. -/
def window (data : Bytes) (start stop : Int) : Option Bytes :=
  let size : Int := data.length
  let readEnd := if stop + overlap ≥ size then size - 1 else stop + overlap
  let readLen := readEnd - start + 1
  let buf := (data.drop start.toNat).take readLen.toNat
  let offset := if start ≠ 0 then skipPast buf 0 else 0
  if start ≠ 0 ∧ readLen ≤ offset then none
  else
    let limit :=
      if stop < size - 1 then (scanBack buf buf.length).elim buf.length (· + 1) else buf.length
    some ((buf.take limit).drop offset)

/-- `locals`: the map of each worker, empty (`nil`) for a worker that returned first. -/
def overlapLocals (data : Bytes) (workers : Nat) : List (GoMap Bytes Stat) :=
  (wks data.length workers).map fun w => (window data w.1 w.2).elim ∅ (parseChunk · ∅)

/-- On `A;1\nB;2\nC;3\n` with two workers, chunk `[0, 5]` reads the whole file and chunk `[6, 11]`
reads `C;3\n` again: after the merge, in any order, `C` has count 2 where `parseChunk` counts 1. -/
theorem overlap_counts_twice :
    let data : Bytes := [65, 59, 49, 10, 66, 59, 50, 10, 67, 59, 51, 10]
    wks data.length 2 = [(0, 5), (6, 11)] ∧
    (wks data.length 2).map (fun w => window data w.1 w.2) = [some data, some [67, 59, 51, 10]] ∧
    (∀ orders, List.Forall₂ RangeOrder (overlapLocals data 2) orders →
      (mergeLocals orders).lookup [67] = some ⟨30, 30, 60, 2⟩) ∧
    (parseChunk data ∅).lookup [67] = some ⟨30, 30, 30, 1⟩ := by
  refine ⟨by decide, by decide, fun orders ho => ?_, by decide⟩
  rw [mergeLocals, lookup_mergeLoop _ ho]
  decide

end BillionRows
