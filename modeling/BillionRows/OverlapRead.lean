import BillionRows.OverlapCounts

/-!
# The workers of `src/unnamed/part_002` at Go's level

`window` reads the bytes of a worker with `List.drop` and `List.take`, which cannot fail. The
goroutine itself can panic at three places: `make([]byte, readLen)` on a negative length,
`f.ReadAt(buf, readStart)` on an error, and `buf[offset:limit]` unless
`0 ≤ offset ≤ limit ≤ len(buf)`. `overlapWorker` keeps each of them, as `none`, apart from the
early `return` of a worker whose read holds no `'\n'` to start after (`some none`); `overlapMain`
runs `main` from its check of `size` to the filled `locals`, with the division
`size / int64(workers)` that panics for no worker.

On every non-empty file and for every worker count, no worker panics and each parses its
`window` (`overlapMain_eq_overlapLocals`): the chunks of `wks` start inside the file, the reads
stop at its last byte, and the backward trim never cuts before the forward skip.
-/

namespace BillionRows

/-! ## Go's checked operations -/

/-- `f.ReadAt(buf, off)` on the file `data` into a buffer of `len` bytes: the filled buffer, or the
error `main` panics on. `os.File.ReadAt` fails on a negative offset, and with `io.EOF` when fewer
than `len` bytes follow `off`; it reads nothing into an empty buffer, and does not fail then. -/
def readAt (data : Bytes) (len : Nat) (off : Int) : Option Bytes :=
  if off < 0 ∨ (0 < len ∧ (data.length : Int) < off + len) then none
  else some ((data.drop off.toNat).take len)

/-- `b[lo:hi]` for a slice whose capacity is its length: the bytes, or a panic unless
`0 ≤ lo ≤ hi ≤ len(b)`. -/
def goSlice (b : Bytes) (lo hi : Int) : Option Bytes :=
  if 0 ≤ lo ∧ lo ≤ hi ∧ hi ≤ b.length then some ((b.take hi.toNat).drop lo.toNat) else none

theorem readAt_of_le {data : Bytes} {len : Nat} {off : Int} (h0 : 0 ≤ off)
    (hle : off + len ≤ data.length) : readAt data len off = some ((data.drop off.toNat).take len) :=
  if_neg (by omega)

theorem goSlice_natCast {b : Bytes} {lo hi : Nat} (hlo : lo ≤ hi) (hhi : hi ≤ b.length) :
    goSlice b lo hi = some ((b.take hi).drop lo) := by
  rw [goSlice, if_pos ⟨Int.natCast_nonneg lo, by omega, by omega⟩, Int.toNat_natCast,
    Int.toNat_natCast]

/-! ## The worker -/

/-- The goroutine of the worker of chunk `[start, stop]` (`end` in the source) up to its call of
`parseChunk`: `none` when it panics, `some none` when it returns first, and `some (some b)` when
it parses `b`. The `int64` offsets are `Int`s, and `offset` and `limit`, which never go below 0,
are `Nat`s; the backward loop ending at `j = -1` is `scanBack` giving `none`. -/
def overlapWorker (data : Bytes) (start stop : Int) : Option (Option Bytes) :=
  let size : Int := data.length
  let readEnd := if stop + overlap ≥ size then size - 1 else stop + overlap
  let readLen := readEnd - start + 1
  if readLen < 0 then none
  else
    (readAt data readLen.toNat start).bind fun buf =>
      let offset := if start ≠ 0 then skipPast buf 0 else 0
      if start ≠ 0 ∧ readLen ≤ offset then some none
      else
        let limit :=
          if stop < size - 1 then (scanBack buf readLen.toNat).elim readLen.toNat (· + 1)
          else readLen.toNat
        (goSlice buf offset limit).map some

/-- Where the forward skip stops inside the buffer, past a `'\n'`, the backward trim finds that
`'\n'` or a later one: `offset ≤ limit`. -/
theorem skipPast_le_trim {buf : Bytes} (h : skipPast buf 0 < buf.length) :
    skipPast buf 0 ≤ (scanBack buf buf.length).elim buf.length (· + 1) := by
  obtain ⟨i, hi, hnl⟩ := @skipPast_lt buf 0 (by omega)
  obtain ⟨j, hj, hij⟩ := scanBack_ge hnl (List.getElem?_eq_some_iff.mp hnl).1
  rw [hj, hi]
  exact Nat.succ_le_succ (by omega)

/-- A worker whose chunk starts inside the file and does not end before it starts neither panics
nor differs from `window`. -/
theorem overlapWorker_eq_window {data : Bytes} {start stop : Int} (h0 : 0 ≤ start)
    (hs : start < data.length) (hse : start ≤ stop + 1) :
    overlapWorker data start stop = some (window data start stop) := by
  obtain ⟨S, R, rfl, hSR, hR, hReq⟩ := exists_readEnd h0 hs hse
  have hlen : ((R : Int) - S + 1).toNat = R - S + 1 := by omega
  have hbuf : ((data.drop S).take (R - S + 1)).length = R - S + 1 := by
    simp only [List.length_take, List.length_drop]
    omega
  simp only [overlapWorker, window, ← hReq, hlen, Int.toNat_natCast]
  rw [if_neg (by omega), readAt_of_le (by omega) (by push_cast; omega), Option.some_bind,
    Int.toNat_natCast]
  generalize (data.drop S).take (R - S + 1) = buf at hbuf ⊢
  rw [← hbuf]
  split_ifs with hret hstop hend <;> try rfl
  · rw [goSlice_natCast (skipPast_le_trim (by omega)) (trim_le buf)]
    rfl
  · rw [goSlice_natCast (by simpa using skipPast_le buf 0) le_rfl]
    rfl
  · rw [goSlice_natCast (Nat.zero_le _) (trim_le buf)]
    rfl
  · rw [goSlice_natCast (Nat.zero_le _) le_rfl]
    rfl

/-! ## `main` -/

/-- `main` from `if size == 0 { return }` to the filled `locals`: `none` when it panics, on the
division by zero workers or in a worker. A worker that returns first leaves its map `nil`, which
the merge reads as empty. -/
def overlapMain (data : Bytes) (workers : Nat) : Option (List (GoMap Bytes Stat)) :=
  if data.length = 0 then some []
  else if workers = 0 then none
  else
    (wks data.length workers).mapM fun w =>
      (overlapWorker data w.1 w.2).map (·.elim ∅ (parseChunk · ∅))

theorem mapM_of_forall_some {α β : Type} {f : α → Option β} {g : α → β} :
    ∀ {l : List α}, (∀ x ∈ l, f x = some (g x)) → l.mapM f = some (l.map g)
  | [], _ => rfl
  | x :: l, h => by
    rw [List.forall_mem_cons] at h
    rw [List.mapM_cons, h.1, mapM_of_forall_some h.2]
    rfl

/-- On every non-empty file and for every number of workers `main` can have, no worker panics,
and `main` fills `locals` with the maps of `overlapLocals`, each parsed from the worker's
`window`. -/
theorem overlapMain_eq_overlapLocals {data : Bytes} {workers : Nat} (hpos : 0 < data.length)
    (hw : 0 < workers) : overlapMain data workers = some (overlapLocals data workers) := by
  rw [overlapMain, if_neg (by omega), if_neg (by omega), overlapLocals]
  refine mapM_of_forall_some fun c hc => ?_
  obtain ⟨h0, hs, hse⟩ := mem_wks (by omega) hc
  rw [overlapWorker_eq_window h0 hs hse]
  rfl

theorem overlapMain_eq_overlapLocals_three :
    0 < ([65, 59, 49, 10, 66, 59, 50, 10] : Bytes).length ∧ 0 < 3 ∧
      overlapMain [65, 59, 49, 10, 66, 59, 50, 10] 3 =
        some (overlapLocals [65, 59, 49, 10, 66, 59, 50, 10] 3) :=
  ⟨by decide, by decide, overlapMain_eq_overlapLocals (by decide) (by decide)⟩

end BillionRows
