import BillionRows.Scan

/-!
# The partition loop of `main` in `src/unnamed/part_000`

`main` cuts the mapped file into `workers` ranges. Worker `i` starts from the naive boundaries
`i*chunk` and `i*chunk + chunk` (the end of the file for the last worker), moves its start past
the first `'\n'` found before its naive end, and moves its end forward to the next `'\n'`. The
start search is bounded by the naive end: a worker whose naive chunk holds no `'\n'` keeps a start
inside a line, and with `chunk = 0` every middle worker starts at `0`.

The ranges always satisfy `s ≤ e ≤ len(data)`, every end but the last is at a `'\n'` or at the
end of the data, and the start of a range is `min(e + 1, b)` from the end `e` of the range before
it and its own naive end `b`. When every middle naive chunk holds a `'\n'`, `b` never wins, the
ranges cut `data` at line boundaries, and the scan of the whole buffer reads the readings of the
ranges one after another.
-/

namespace BillionRows

/-! ## Scanning for a newline -/

/-- `for p < bound && data[p] != '\n' { p++ }`, run at most `fuel` times. -/
def skipLoop (data : Bytes) (bound : Nat) : Nat → Nat → Nat
  | 0, p => p
  | fuel + 1, p =>
    if p < bound ∧ data[p]? ≠ some newline then skipLoop data bound fuel (p + 1) else p

/-- The loop `for p < bound && data[p] != '\n' { p++ }` from `p`, which runs at most
`bound - p` times. -/
def toNewline (data : Bytes) (bound p : Nat) : Nat := skipLoop data bound (bound - p) p

/-- `q` is the first `'\n'` of `data` in `[p, bound)`, or `bound` when there is none. -/
structure FirstNewline (data : Bytes) (p bound q : Nat) : Prop where
  le : p ≤ q
  le_bound : q ≤ bound
  not_newline : ∀ j, p ≤ j → j < q → data[j]? ≠ some newline
  newline : q < bound → data[q]? = some newline

theorem skipLoop_firstNewline (data : Bytes) (bound : Nat) :
    ∀ fuel p, p ≤ bound → bound - p ≤ fuel → FirstNewline data p bound (skipLoop data bound fuel p)
  | 0, p, hp, hf => by
    obtain rfl : p = bound := by omega
    show FirstNewline data p p p
    exact ⟨le_rfl, le_rfl, fun j _ hj => absurd hj (by omega), fun h => absurd h (lt_irrefl p)⟩
  | fuel + 1, p, hp, hf => by
    rw [skipLoop]
    split_ifs with h
    · have ih := skipLoop_firstNewline data bound fuel (p + 1) (by omega) (by omega)
      refine ⟨by have := ih.le; omega, ih.le_bound, fun j hj hjq => ?_, ih.newline⟩
      rcases Nat.eq_or_lt_of_le hj with rfl | hj
      · exact h.2
      · exact ih.not_newline j hj hjq
    · exact ⟨le_rfl, hp, fun j _ hj => absurd hj (by omega), fun hb => by simpa [hb] using h⟩

theorem toNewline_firstNewline (data : Bytes) {bound p : Nat} (hp : p ≤ bound) :
    FirstNewline data p bound (toNewline data bound p) :=
  skipLoop_firstNewline data bound _ p hp le_rfl

/-- A search from the same place with a smaller bound stops at the same `'\n'`, or at its bound. -/
theorem FirstNewline.eq_min {data : Bytes} {p b n e q : Nat} (he : FirstNewline data p n e)
    (hq : FirstNewline data p b q) (hb : b ≤ n) : q = min e b := by
  have hqb := hq.le_bound
  by_cases hlt : q < b
  · have hnl := hq.newline hlt
    have : ¬ q < e := fun h => he.not_newline q hq.le h hnl
    have : ¬ e < q := fun h => hq.not_newline e he.le h (he.newline (by omega))
    omega
  · have : ¬ e < b := fun h => hq.not_newline e he.le (by omega) (he.newline (by omega))
    omega

/-! ## The range of a worker -/

/-- `// align start to line boundary (skip partial line)`: past the first `'\n'` of
`[start, stop)`, or `stop` when there is none. -/
def alignStart (data : Bytes) (start stop : Nat) : Nat :=
  let p := toNewline data stop start
  if p < stop then p + 1 else p

/-- The range `[start, stop)` (`end` in the source) that `main` gives worker `i` of `workers`. -/
def chunkRange (data : Bytes) (workers i : Nat) : Nat × Nat :=
  let chunk := data.length / workers
  let start := i * chunk
  let stop := if i = workers - 1 then data.length else start + chunk
  (if 0 < i then alignStart data start stop else start,
   if i < workers - 1 then toNewline data data.length stop else stop)

/-- The ranges of all the workers, in the order of `i`. -/
def chunkRanges (data : Bytes) (workers : Nat) : List (Nat × Nat) :=
  (List.range workers).map (chunkRange data workers)

/-- `data[s:e]` -/
def slice (data : Bytes) (s e : Nat) : Bytes := (data.take e).drop s

/-- The naive end of worker `i`: the end of its chunk, or of the data for the last worker. -/
def naiveEnd (data : Bytes) (workers i : Nat) : Nat :=
  if i = workers - 1 then data.length else (i + 1) * (data.length / workers)

theorem chunkRange_fst (data : Bytes) (workers i : Nat) :
    (chunkRange data workers i).1 =
      if 0 < i then alignStart data (i * (data.length / workers)) (naiveEnd data workers i)
      else i * (data.length / workers) := by
  simp only [chunkRange, naiveEnd, Nat.succ_mul]

theorem chunkRange_snd (data : Bytes) (workers i : Nat) :
    (chunkRange data workers i).2 =
      if i < workers - 1 then toNewline data data.length (naiveEnd data workers i)
      else naiveEnd data workers i := by
  simp only [chunkRange, naiveEnd, Nat.succ_mul]

section Bounds

variable {data : Bytes} {workers i : Nat}

theorem naiveEnd_le (hi : i < workers) : naiveEnd data workers i ≤ data.length := by
  unfold naiveEnd
  split_ifs
  · exact le_rfl
  · calc (i + 1) * (data.length / workers) ≤ workers * (data.length / workers) :=
          Nat.mul_le_mul_right _ hi
      _ ≤ data.length := Nat.mul_div_le data.length workers

theorem le_naiveEnd (hi : i < workers) : i * (data.length / workers) ≤ naiveEnd data workers i := by
  unfold naiveEnd
  split_ifs
  · exact (Nat.mul_le_mul_right _ hi.le).trans (Nat.mul_div_le data.length workers)
  · exact Nat.mul_le_mul_right _ (Nat.le_succ i)

/-- The naive end of a worker other than the last is the naive start of the next one. -/
theorem naiveEnd_of_lt (hi : i + 1 < workers) :
    naiveEnd data workers i = (i + 1) * (data.length / workers) := by
  unfold naiveEnd
  rw [if_neg (by omega)]

theorem alignStart_le {s b : Nat} (hsb : s ≤ b) : alignStart data s b ≤ b := by
  have := (toNewline_firstNewline data hsb).le_bound
  dsimp only [alignStart]
  split_ifs <;> omega

theorem chunkRange_fst_le (hi : i < workers) :
    (chunkRange data workers i).1 ≤ naiveEnd data workers i := by
  rw [chunkRange_fst]
  split_ifs
  · exact alignStart_le (le_naiveEnd hi)
  · exact le_naiveEnd hi

theorem le_chunkRange_snd (hi : i < workers) :
    naiveEnd data workers i ≤ (chunkRange data workers i).2 := by
  rw [chunkRange_snd]
  split_ifs
  · exact (toNewline_firstNewline data (naiveEnd_le hi)).le
  · exact le_rfl

/-- The end of a range other than the last is the first `'\n'` at or after its naive end. -/
theorem chunkRange_snd_firstNewline (hi : i + 1 < workers) :
    FirstNewline data (naiveEnd data workers i) data.length (chunkRange data workers i).2 := by
  rw [chunkRange_snd, if_pos (by omega)]
  exact toNewline_firstNewline data (naiveEnd_le (by omega))

/-- Every range lies in the data: `0 ≤ s ≤ e ≤ len(data)`. -/
theorem chunkRange_le (hi : i < workers) :
    (chunkRange data workers i).1 ≤ (chunkRange data workers i).2 ∧
      (chunkRange data workers i).2 ≤ data.length := by
  refine ⟨(chunkRange_fst_le hi).trans (le_chunkRange_snd hi), ?_⟩
  by_cases hlast : i + 1 < workers
  · exact (chunkRange_snd_firstNewline hlast).le_bound
  · rw [chunkRange_snd, if_neg (by omega)]
    exact naiveEnd_le hi

theorem chunkRange_zero_fst : (chunkRange data workers 0).1 = 0 := by
  simp [chunkRange]

theorem chunkRange_last_snd : (chunkRange data workers (workers - 1)).2 = data.length := by
  simp [chunkRange]

/-- The start of a range is one past the end of the range before it, or its own naive end when
that comes first. -/
theorem chunkRange_succ_fst (hi : i + 1 < workers) :
    (chunkRange data workers (i + 1)).1 =
      min ((chunkRange data workers i).2 + 1) (naiveEnd data workers (i + 1)) := by
  have he : FirstNewline data _ _ _ := chunkRange_snd_firstNewline hi
  have hb : naiveEnd data workers i ≤ naiveEnd data workers (i + 1) := by
    rw [naiveEnd_of_lt hi]; exact le_naiveEnd hi
  have hmin := he.eq_min (toNewline_firstNewline data hb) (naiveEnd_le hi)
  rw [chunkRange_fst, if_pos (Nat.succ_pos i), ← naiveEnd_of_lt hi]
  dsimp only [alignStart]
  split_ifs <;> omega

end Bounds

/-- On the six bytes `A;1.5\n` with eight workers, `chunk = 0`: every middle worker keeps the start
`0`, so seven ranges hold the one line. -/
theorem chunkRanges_repeat_line :
    chunkRanges [65, 59, 49, 46, 53, 10] 8 =
      [(0, 5), (0, 5), (0, 5), (0, 5), (0, 5), (0, 5), (0, 5), (6, 6)] := by
  decide

/-! ## Ranges that cut the data at line boundaries -/

/-- The ranges `rs` cut `data[s:]` at line boundaries: each range but the last ends at a `'\n'` or
at the end of the data and the next one starts right after it; the last ends at the end of the
data. -/
inductive LineCut (data : Bytes) : Nat → List (Nat × Nat) → Prop
  | last {r : Nat × Nat} : r.1 ≤ r.2 → r.2 = data.length → LineCut data r.1 [r]
  | cons {r : Nat × Nat} {rs : List (Nat × Nat)} : r.1 ≤ r.2 → r.2 ≤ data.length →
      (r.2 < data.length → data[r.2]? = some newline) →
      LineCut data (min (r.2 + 1) data.length) rs → LineCut data r.1 (r :: rs)

theorem drop_eq_slice_append {data : Bytes} {s e : Nat} (hse : s ≤ e) (hen : e ≤ data.length) :
    data.drop s = slice data s e ++ data.drop e := by
  conv_lhs => rw [← List.take_append_drop e data]
  rw [slice, List.drop_append_of_le_length (by simp; omega)]

/-- The scan of the data from the start of a cut reads the readings of its ranges in turn. -/
theorem LineCut.records {data : Bytes} {s : Nat} {rs : List (Nat × Nat)} (h : LineCut data s rs) :
    records (data.drop s) = (rs.map fun r => records (slice data r.1 r.2)).flatten := by
  induction h with
  | @last r hse he => simp [slice, he]
  | @cons r rs hse hen hnl _ ih =>
    rw [List.map_cons, List.flatten_cons, ← ih, drop_eq_slice_append hse hen]
    rcases Nat.lt_or_ge r.2 data.length with hlt | hge
    · have hget : data[r.2] = newline := by simpa [List.getElem?_eq_getElem hlt] using hnl hlt
      rw [List.drop_eq_getElem_cons hlt, hget, records_append_newline, min_eq_left hlt]
    · rw [min_eq_right (by omega), List.drop_of_length_le hge, List.drop_length, List.append_nil,
        records_nil, List.append_nil]

/-- Every middle worker's naive chunk holds a `'\n'`. -/
def MiddleNewlines (data : Bytes) (workers : Nat) : Prop :=
  ∀ i, 0 < i → i + 1 < workers → ∃ j, i * (data.length / workers) ≤ j ∧
    j < (i + 1) * (data.length / workers) ∧ data[j]? = some newline

section Cut

variable {data : Bytes} {workers : Nat} (hmid : MiddleNewlines data workers)
include hmid

/-- With a `'\n'` in every middle naive chunk, each range starts right after the end of the one
before it. -/
theorem chunkRange_succ_fst_of_middle {i : Nat} (hi : i + 1 < workers) :
    (chunkRange data workers (i + 1)).1 = min ((chunkRange data workers i).2 + 1) data.length := by
  rw [chunkRange_succ_fst hi]
  by_cases hlast : i + 2 < workers
  · obtain ⟨j, hj₁, hj₂, hj⟩ := hmid (i + 1) (Nat.succ_pos i) hlast
    have he : FirstNewline data _ _ _ := chunkRange_snd_firstNewline hi
    have hej : (chunkRange data workers i).2 ≤ j := by
      by_contra h
      exact he.not_newline j (by rw [naiveEnd_of_lt hi]; exact hj₁) (by omega) hj
    have hjn : j < data.length := (List.getElem?_eq_some_iff.mp hj).1
    rw [naiveEnd_of_lt hlast]
    omega
  · rw [show naiveEnd data workers (i + 1) = data.length by
      simp [naiveEnd, show i + 1 = workers - 1 by omega]]

theorem lineCut_range' :
    ∀ k i, i + k + 1 = workers → LineCut data (chunkRange data workers i).1
      ((List.range' i (k + 1)).map (chunkRange data workers))
  | 0, i, hk =>
    .last (chunkRange_le (by omega)).1
      (by rw [show i = workers - 1 by omega]; exact chunkRange_last_snd)
  | k + 1, i, hk => by
    rw [List.range'_succ, List.map_cons]
    have hnext := lineCut_range' k (i + 1) (by omega)
    rw [chunkRange_succ_fst_of_middle hmid (by omega)] at hnext
    exact .cons (chunkRange_le (by omega)).1 (chunkRange_le (by omega)).2
      (chunkRange_snd_firstNewline (by omega)).newline hnext

/-- With a `'\n'` in every middle naive chunk, the ranges cut the data at line boundaries. -/
theorem chunkRanges_lineCut (hw : 0 < workers) : LineCut data 0 (chunkRanges data workers) := by
  have := lineCut_range' hmid (workers - 1) 0 (by omega)
  rwa [chunkRange_zero_fst, Nat.sub_add_cancel hw, ← List.range_eq_range'] at this

/-- With a `'\n'` in every middle naive chunk, scanning the whole data reads the readings of the
workers' ranges one after another. -/
theorem records_chunkRanges (hw : 0 < workers) :
    records data =
      ((chunkRanges data workers).map fun r => records (slice data r.1 r.2)).flatten := by
  simpa using (chunkRanges_lineCut hmid hw).records

end Cut

end BillionRows
