import BillionRows.Overlap
import BillionRows.Partition

/-!
# What the overlapping windows of `src/unnamed/part_002` hold

On a file that ends with `'\n'` and whose lines are shorter than `overlap`, the defect of the
trimming is only one of counting: every window is a run of whole lines of the file, never a
fragment of one, and every line lies in the window of the worker whose chunk holds its start, or
of the worker before when it starts exactly at a chunk start. So `main` parses every line at least
once, some of them twice (`overlap_counts_twice`).
-/

namespace BillionRows

/-- `a` is where a line of `data` starts. -/
def LineStart (data : Bytes) (a : Nat) : Prop := a = 0 ∨ data[a - 1]? = some newline

instance (data : Bytes) : DecidablePred (LineStart data) := fun _ =>
  inferInstanceAs (Decidable (_ ∨ _))

/-! ## The scanning loops -/

theorem skipPast_le : ∀ (buf : Bytes) (offset : Nat), skipPast buf offset ≤ offset + buf.length
  | [], _ => by simp [skipPast]
  | b :: rest, offset => by
    unfold skipPast
    split_ifs
    · simp
    · have := skipPast_le rest (offset + 1)
      simp only [List.length_cons]
      omega

/-- The loop stops one past the first `'\n'`, so at most one past any `'\n'`. -/
theorem skipPast_le_of_newline :
    ∀ {buf : Bytes} {m : Nat}, buf[m]? = some newline →
      ∀ offset, skipPast buf offset ≤ offset + m + 1
  | [], _, h, _ => by simp at h
  | b :: rest, 0, h, offset => by
    simp only [List.getElem?_cons_zero, Option.some.injEq] at h
    simp [skipPast, h]
  | b :: rest, m + 1, h, offset => by
    unfold skipPast
    split_ifs
    · omega
    · have := skipPast_le_of_newline (by simpa using h) (offset + 1)
      omega

/-- Stopping inside the buffer means stopping one past a `'\n'`. -/
theorem skipPast_lt :
    ∀ {buf : Bytes} {offset : Nat}, skipPast buf offset < offset + buf.length →
      ∃ i, skipPast buf offset = offset + i + 1 ∧ buf[i]? = some newline
  | [], _, h => by simp [skipPast] at h
  | b :: rest, offset, h => by
    unfold skipPast at h ⊢
    split_ifs with hb
    · exact ⟨0, rfl, by simp [hb]⟩
    · rw [if_neg hb] at h
      obtain ⟨i, hi, hnl⟩ :=
        @skipPast_lt rest (offset + 1) (by simp only [List.length_cons] at h; omega)
      exact ⟨i + 1, by omega, by simpa using hnl⟩

theorem scanBack_some : ∀ {buf : Bytes} {k j : Nat}, scanBack buf k = some j →
    j < k ∧ buf[j]? = some newline
  | _, 0, _, h => by simp [scanBack] at h
  | buf, k + 1, j, h => by
    unfold scanBack at h
    split_ifs at h with hk
    · obtain rfl := Option.some.inj h
      exact ⟨by omega, hk⟩
    · have := scanBack_some h
      exact ⟨by omega, this.2⟩

/-- The backward loop finds the last `'\n'` below `k`, so one at or past any `'\n'` below `k`. -/
theorem scanBack_ge : ∀ {buf : Bytes} {k m : Nat}, buf[m]? = some newline → m < k →
    ∃ j, scanBack buf k = some j ∧ m ≤ j
  | _, 0, _, _, hm => absurd hm (Nat.not_lt_zero _)
  | buf, k + 1, m, h, hm => by
    unfold scanBack
    split_ifs with hk
    · exact ⟨k, rfl, by omega⟩
    · have hmk : m ≠ k := fun hmk => hk (hmk ▸ h)
      exact scanBack_ge h (by omega)

/-- The trim never goes past the read. -/
theorem trim_le (buf : Bytes) :
    (scanBack buf buf.length).elim buf.length (· + 1) ≤ buf.length := by
  rcases h : scanBack buf buf.length with _ | j
  · exact le_rfl
  · exact (scanBack_some h).1

/-! ## Reads as slices of the file -/

theorem length_slice {data : Bytes} {s e : Nat} (he : e ≤ data.length) :
    (slice data s e).length = e - s := by
  simp [slice, he]

theorem getElem?_slice {data : Bytes} {s e i : Nat} (hi : s + i < e) :
    (slice data s e)[i]? = data[s + i]? := by
  simp [slice, List.getElem?_drop, List.getElem?_take, hi]

theorem slice_take_drop (data : Bytes) {s e l o : Nat} (hl : s + l ≤ e) :
    ((slice data s e).take l).drop o = slice data (s + o) (s + l) := by
  simp only [slice, List.take_drop, List.drop_drop, List.take_take, Nat.min_eq_left hl]

theorem drop_take_eq_slice (data : Bytes) (s n : Nat) :
    (data.drop s).take n = slice data s (s + n) := by
  rw [slice, List.drop_take, Nat.add_sub_cancel_left]

theorem length_slice_le (data : Bytes) (s n : Nat) : (slice data s (s + n)).length ≤ n := by
  simp only [slice, List.length_drop, List.length_take]
  omega

/-- Where the skip stops inside the read of `data[S:e]`, it stops one past a `'\n'` of `data`. -/
theorem skipPast_slice {data : Bytes} {S e : Nat} (he : e ≤ data.length)
    (h : skipPast (slice data S e) 0 < e - S) :
    ∃ i, skipPast (slice data S e) 0 = i + 1 ∧ S + i < e ∧ data[S + i]? = some newline := by
  obtain ⟨i, hi, hnl⟩ := @skipPast_lt (slice data S e) 0 (by rw [length_slice he]; omega)
  have hie : S + i < e := by
    have := (List.getElem?_eq_some_iff.mp hnl).1
    rw [length_slice he] at this
    omega
  exact ⟨i, by omega, hie, by rwa [← getElem?_slice hie]⟩

/-! ## The windows -/

/-- The positions `[start + offset, start + limit)` of the file that `window data start stop`
holds, or `none` when the worker returns first. -/
def windowSpan (data : Bytes) (start stop : Int) : Option (Nat × Nat) :=
  let size : Int := data.length
  let readEnd := if stop + overlap ≥ size then size - 1 else stop + overlap
  let readLen := readEnd - start + 1
  let buf := (data.drop start.toNat).take readLen.toNat
  let offset := if start ≠ 0 then skipPast buf 0 else 0
  if start ≠ 0 ∧ readLen ≤ offset then none
  else
    let limit :=
      if stop < size - 1 then (scanBack buf buf.length).elim buf.length (· + 1) else buf.length
    some (start.toNat + offset, start.toNat + limit)

/-- A window is the slice of the file at its span. -/
theorem window_eq_span (data : Bytes) (start stop : Int) :
    window data start stop = (windowSpan data start stop).map fun p => slice data p.1 p.2 := by
  simp only [window, windowSpan, drop_take_eq_slice]
  -- both sides read the same bytes and skip the same prefix; they differ after the cut only
  generalize (if stop + overlap ≥ (data.length : Int) then (data.length : Int) - 1
    else stop + overlap) = readEnd
  generalize (if start ≠ 0 then skipPast (slice data start.toNat
    (start.toNat + (readEnd - start + 1).toNat)) 0 else 0) = offset
  split_ifs <;> simp only [Option.map_none', Option.map_some']
  all_goals
    rw [slice_take_drop]
    first
    | exact Nat.add_le_add_left ((trim_le _).trans (length_slice_le _ _ _)) _
    | exact Nat.add_le_add_left (length_slice_le _ _ _) _

/-- On an empty file every window is empty. -/
theorem window_nil (start stop : Int) {w : Bytes} (h : window [] start stop = some w) : w = [] := by
  simp [window, skipPast, scanBack] at h
  exact h.2

/-- The last byte the read of chunk `[start, stop]` reaches: `readEnd` of the source, a position of
the file when `start` is. -/
theorem exists_readEnd {data : Bytes} {start stop : Int} (h0 : 0 ≤ start)
    (hs : start < data.length) (hse : start ≤ stop + 1) :
    ∃ S R : Nat, start = S ∧ S ≤ R ∧ R < data.length ∧
      (R : Int) = if stop + overlap ≥ (data.length : Int) then (data.length : Int) - 1
        else stop + overlap := by
  have hov : overlap = 1048576 := rfl
  refine ⟨start.toNat, (if stop + overlap ≥ (data.length : Int) then (data.length : Int) - 1
    else stop + overlap).toNat, by omega, ?_⟩
  split_ifs <;> omega

/-- `windowSpan` over natural numbers: the read is `data[S:R+1]`. -/
theorem windowSpan_eq {data : Bytes} {S R : Nat} {E : Int} (hSR : S ≤ R)
    (hR : (R : Int) = if E + overlap ≥ (data.length : Int) then (data.length : Int) - 1
      else E + overlap) :
    windowSpan data S E =
      let buf := slice data S (R + 1)
      let offset := if S ≠ 0 then skipPast buf 0 else 0
      if S ≠ 0 ∧ R + 1 - S ≤ offset then none
      else some (S + offset, S + if E < (data.length : Int) - 1 then
        (scanBack buf buf.length).elim buf.length (· + 1) else buf.length) := by
  have hlen : ((R : Int) - S + 1).toNat = R + 1 - S := by omega
  have hbuf : (data.drop S).take (R + 1 - S) = slice data S (R + 1) := by
    rw [drop_take_eq_slice, Nat.add_sub_cancel' (by omega)]
  have hle : ∀ o : Nat, ((R : Int) - S + 1 ≤ o) ↔ (R + 1 - S ≤ o) := fun o => by omega
  simp only [windowSpan, ← hR, hlen, Int.toNat_natCast, hbuf, ne_eq, Nat.cast_eq_zero, hle]

/-- Every window is a run of whole lines: its span `[a, b)` starts at a line start and ends at a
line start or the end of the file, provided the first worker reads a `'\n'` when its chunk ends
early. -/
theorem windowSpan_lines {data : Bytes} {start stop : Int} (h0 : 0 ≤ start)
    (hs : start < data.length) (hse : start ≤ stop + 1)
    (hfirst : start = 0 → stop < (data.length : Int) - 1 →
      ∃ m : Nat, (m : Int) ≤ stop + overlap ∧ data[m]? = some newline)
    {a b : Nat} (hw : windowSpan data start stop = some (a, b)) :
    a ≤ b ∧ b ≤ data.length ∧ LineStart data a ∧ (b = data.length ∨ LineStart data b) := by
  obtain ⟨S, R, rfl, hSR, hRn, hR⟩ := exists_readEnd h0 hs hse
  have hov : overlap = 1048576 := rfl
  have hlen : (slice data S (R + 1)).length = R + 1 - S := length_slice hRn
  rw [windowSpan_eq hSR hR] at hw
  dsimp only at hw
  generalize hoff : (if S ≠ 0 then skipPast (slice data S (R + 1)) 0 else 0) = offset at hw
  have hcut : ¬(S ≠ 0 ∧ R + 1 - S ≤ offset) := fun hcut => by simp [hcut] at hw
  rw [if_neg hcut] at hw
  -- the skip stops at a line start, one past a '\n' of the read unless the worker is the first
  have hnl : S ≠ 0 → ∃ i, offset = i + 1 ∧ S + i < R + 1 ∧ data[S + i]? = some newline :=
    fun hS => by
      rw [if_pos hS] at hoff
      subst hoff
      exact skipPast_slice hRn (by omega)
  have ho0 : S = 0 → offset = 0 := fun hS => by simpa [hS] using hoff.symm
  have ha : LineStart data (S + offset) := by
    by_cases hS : S = 0
    · exact Or.inl (by simp [hS, ho0 hS])
    · obtain ⟨i, rfl, -, hi⟩ := hnl hS
      exact Or.inr hi
  obtain ⟨rfl, rfl⟩ := Prod.mk.inj (Option.some.inj hw)
  split_ifs with hE
  · -- a chunk that ends early trims after the last '\n' of its read, which it has
    obtain ⟨m, hSm, hmR, hm, hmo⟩ :
        ∃ m, S ≤ m ∧ m ≤ R ∧ data[m]? = some newline ∧ S + offset ≤ m + 1 := by
      by_cases hS : S = 0
      · subst hS
        obtain ⟨m, hmE, hm⟩ := hfirst rfl hE
        have := (List.getElem?_eq_some_iff.mp hm).1
        exact ⟨m, Nat.zero_le _, by split_ifs at hR <;> omega, hm, by simp [ho0 rfl]⟩
      · obtain ⟨i, rfl, hi, hm⟩ := hnl hS
        exact ⟨S + i, by omega, by omega, hm, by omega⟩
    clear hnl
    obtain ⟨j, hj, hmj⟩ := scanBack_ge (k := (slice data S (R + 1)).length) (m := m - S)
      (by rwa [getElem?_slice (show S + (m - S) < R + 1 by omega), Nat.add_sub_cancel' hSm])
      (by omega)
    obtain ⟨hjl, hjn⟩ := scanBack_some hj
    rw [hlen] at hjl
    rw [getElem?_slice (show S + j < R + 1 by omega)] at hjn
    rw [hj, Option.elim_some]
    exact ⟨by omega, by omega, ha, Or.inr (Or.inr hjn)⟩
  · -- the last chunk reads to the end of the file
    rw [if_pos (by omega : stop + overlap ≥ (data.length : Int))] at hR
    have : offset ≤ R + 1 - S := by
      by_cases hS : S = 0
      · simp [ho0 hS]
      · omega
    clear hnl
    rw [hlen]
    exact ⟨by omega, by omega, ha, Or.inl (by omega)⟩

/-- A line `data[u:q+1]` shorter than `overlap` lies in the span of a chunk `[start, stop]` that
holds its start `u`, or whose successor starts at `u`. -/
theorem windowSpan_covers {data : Bytes} {start stop : Int} (h0 : 0 ≤ start) {u q : Nat}
    (hu : LineStart data u) (hsu : start = 0 ∨ start < u) (hue : (u : Int) ≤ stop + 1)
    (huq : u ≤ q) (hq : (q : Int) < u + overlap) (hnl : data[q]? = some newline) :
    ∃ a b, windowSpan data start stop = some (a, b) ∧ a ≤ u ∧ q < b := by
  have hqn := (List.getElem?_eq_some_iff.mp hnl).1
  obtain ⟨S, R, rfl, hSR, hRn, hR⟩ :=
    exists_readEnd h0 (show start < (data.length : Int) by omega) (show start ≤ stop + 1 by omega)
  have hqR : q ≤ R := by split_ifs at hR <;> omega
  have hlen : (slice data S (R + 1)).length = R + 1 - S := length_slice hRn
  rw [windowSpan_eq hSR hR]
  dsimp only
  generalize hoff : (if S ≠ 0 then skipPast (slice data S (R + 1)) 0 else 0) = offset
  -- the skip stops at the latest one past the '\n' before `u`
  have hou : offset ≤ u - S := by
    by_cases hS : S = 0
    · simp [hS] at hoff
      omega
    · rw [if_pos hS] at hoff
      subst hoff
      have hu1 : data[S + (u - 1 - S)]? = some newline := by
        rw [show S + (u - 1 - S) = u - 1 by omega]
        exact hu.resolve_left (by omega)
      have := skipPast_le_of_newline
        (by rwa [← getElem?_slice (show S + (u - 1 - S) < R + 1 by omega)] at hu1) 0
      omega
  rw [if_neg (by omega)]
  refine ⟨_, _, rfl, by omega, ?_⟩
  split_ifs
  · -- the trim keeps the last '\n' of the read, which is at or past `q`
    obtain ⟨j, hj, hqj⟩ := scanBack_ge (k := (slice data S (R + 1)).length) (m := q - S)
      (by rwa [getElem?_slice (show S + (q - S) < R + 1 by omega), Nat.add_sub_cancel' (by omega)])
      (by omega)
    rw [hj, Option.elim_some]
    omega
  · omega

/-! ## The chunks -/

/-- Chunk `k` of `wks`: it starts at `k * chunk` and ends where chunk `k + 1` starts, or at the
end of the file for the last worker. -/
def wksChunk (size chunk : Int) (workers k : Nat) : Int × Int :=
  (k * chunk, if k = workers - 1 then size - 1 else (k + 1) * chunk - 1)

theorem wksLoop_eq (size chunk : Int) (workers : Nat) : ∀ (n i : Nat), i + n = workers →
    wksLoop size chunk workers i (i * chunk) n = (List.range' i n).map (wksChunk size chunk workers)
  | 0, _, _ => rfl
  | n + 1, i, h => by
    have htail : wksLoop size chunk workers (i + 1)
        ((if i = workers - 1 then size - 1 else i * chunk + chunk - 1) + 1) n =
        (List.range' (i + 1) n).map (wksChunk size chunk workers) := by
      cases n with
      | zero => rfl
      | succ n =>
        rw [if_neg (by omega),
          show (i : Int) * chunk + chunk - 1 + 1 = ((i + 1 : Nat) : Int) * chunk by push_cast; ring]
        exact wksLoop_eq size chunk workers (n + 1) (i + 1) (by omega)
    simp only [wksLoop, htail, List.range'_succ, List.map_cons, wksChunk, add_one_mul]

/-- `wks` in closed form. -/
theorem wks_eq (size : Int) (workers : Nat) :
    wks size workers = (List.range workers).map (wksChunk size (size / workers) workers) := by
  simpa [List.range_eq_range'] using wksLoop_eq size (size / workers) workers workers 0 (by simp)

/-- A chunk of a non-empty file starts inside it and ends at or after the byte before. -/
theorem mem_wks {size : Int} {workers : Nat} (hsize : 0 < size) {c : Int × Int}
    (hc : c ∈ wks size workers) : 0 ≤ c.1 ∧ c.1 < size ∧ c.1 ≤ c.2 + 1 := by
  rw [wks_eq] at hc
  obtain ⟨k, hk, rfl⟩ := List.mem_map.mp hc
  rw [List.mem_range] at hk
  have hchunk : 0 ≤ size / workers := Int.ediv_nonneg hsize.le (by omega)
  have hk0 : 0 ≤ (k : Int) * (size / workers) := mul_nonneg (by omega) hchunk
  have hfit : (k : Int) * (size / workers) + size / workers ≤ size :=
    calc (k : Int) * (size / workers) + size / workers
        = (k + 1 : Int) * (size / workers) := (add_one_mul _ _).symm
      _ ≤ workers * (size / workers) :=
        Int.mul_le_mul_of_nonneg_right (by omega) hchunk
      _ ≤ size := Int.mul_ediv_self_le (by omega)
  rcases hchunk.eq_or_lt with h | h
  · simp only [wksChunk, ← h, mul_zero]
    split_ifs <;> omega
  · simp only [wksChunk, add_one_mul]
    split_ifs <;> omega

/-- Past the start `s` of the chunks still to build, every position up to the end of the file is
held by one of them, or starts the one after. -/
theorem exists_mem_wksLoop (size chunk : Int) (workers : Nat) {u : Int} (hu : u ≤ size) :
    ∀ (n i : Nat) (s : Int), i + n = workers → 0 < n → s < u →
      ∃ c ∈ wksLoop size chunk workers i s n, c.1 < u ∧ u ≤ c.2 + 1
  | 0, _, _, _, hn, _ => absurd hn (Nat.lt_irrefl 0)
  | n + 1, i, s, hi, _, hsu => by
    simp only [wksLoop]
    by_cases he : u ≤ (if i = workers - 1 then size - 1 else s + chunk - 1) + 1
    · exact ⟨_, List.mem_cons_self _ _, hsu, he⟩
    · have hi' : i ≠ workers - 1 := fun h => he (by rw [if_pos h]; omega)
      obtain ⟨c, hc, hcu⟩ := exists_mem_wksLoop size chunk workers hu n (i + 1) _
        (show i + 1 + n = workers by omega) (show 0 < n by omega) (not_le.mp he)
      exact ⟨c, List.mem_cons_of_mem _ hc, hcu⟩

/-! ## Every line lies in a window -/

section Cover

variable {data : Bytes} {workers : Nat}

/-- On a non-empty file where a `'\n'` follows every byte within `overlap` bytes, the span of
every chunk is a run of whole lines. -/
theorem wks_windowSpan_lines (hpos : 0 < data.length)
    (hshort : ∀ i < data.length,
      ∃ j, i ≤ j ∧ (j : Int) < i + overlap ∧ data[j]? = some newline)
    {c : Int × Int} (hc : c ∈ wks data.length workers) {a b : Nat}
    (hspan : windowSpan data c.1 c.2 = some (a, b)) :
    a ≤ b ∧ b ≤ data.length ∧ LineStart data a ∧ LineStart data b := by
  obtain ⟨hc0, hcs, hce⟩ := mem_wks (by omega) hc
  -- the first line ends within the read of the first worker
  have hfirst : c.1 = 0 → c.2 < (data.length : Int) - 1 →
      ∃ m : Nat, (m : Int) ≤ c.2 + overlap ∧ data[m]? = some newline := fun _ _ => by
    obtain ⟨j, -, hj, hjn⟩ := hshort 0 hpos
    exact ⟨j, by omega, hjn⟩
  obtain ⟨hab, hbn, ha, hb⟩ := windowSpan_lines hc0 hcs hce hfirst hspan
  refine ⟨hab, hbn, ha, hb.elim (fun hb => Or.inr ?_) id⟩
  -- the file ends with '\n'
  obtain ⟨j, hj, -, hjn⟩ := hshort (data.length - 1) (by omega)
  have := (List.getElem?_eq_some_iff.mp hjn).1
  rwa [hb, ← show j = data.length - 1 by omega]

/-- Every line shorter than `overlap` lies in the span of some chunk. -/
theorem exists_wks_windowSpan (hw : 0 < workers) {u q : Nat} (hu : LineStart data u)
    (huq : u ≤ q) (hq : (q : Int) < u + overlap) (hnl : data[q]? = some newline) :
    ∃ c ∈ wks data.length workers, ∃ a b,
      windowSpan data c.1 c.2 = some (a, b) ∧ a ≤ u ∧ q < b := by
  have hqn := (List.getElem?_eq_some_iff.mp hnl).1
  -- the chunk that holds `u`, or the first chunk for the line at the start of the file
  obtain ⟨c, hc, hcu⟩ : ∃ c ∈ wks data.length workers,
      (c.1 = 0 ∨ c.1 < u) ∧ (u : Int) ≤ c.2 + 1 := by
    rcases Nat.eq_zero_or_pos u with rfl | hu0
    · have hc : wksChunk data.length (data.length / workers) workers 0 ∈
          wks data.length workers := by
        rw [wks_eq]
        exact List.mem_map_of_mem _ (List.mem_range.mpr hw)
      have := (mem_wks (by omega) hc).2.2
      refine ⟨_, hc, Or.inl (by simp [wksChunk]), ?_⟩
      simp only [wksChunk, Nat.cast_zero, zero_mul] at this ⊢
      omega
    · obtain ⟨c, hc, hcu⟩ := exists_mem_wksLoop data.length (data.length / workers) workers
        (show (u : Int) ≤ data.length by omega) workers 0 0 (by simp) hw (by omega)
      exact ⟨c, hc, Or.inr hcu.1, hcu.2⟩
  exact ⟨c, hc, windowSpan_covers (mem_wks (by omega) hc).1 hu hcu.1 hcu.2 huq hq hnl⟩

end Cover

/-- On a file where a `'\n'` follows every byte within `overlap` bytes (it ends with `'\n'` and
its lines are shorter than `overlap`), every window of `main` is a run of whole lines, and every
line lies in one of the windows. -/
theorem windows_cover_every_line {data : Bytes} {workers : Nat} (hw : 0 < workers)
    (hshort : ∀ i < data.length,
      ∃ j, i ≤ j ∧ (j : Int) < i + overlap ∧ data[j]? = some newline) :
    (∀ c ∈ wks data.length workers, ∀ w, window data c.1 c.2 = some w →
      ∃ a b, w = slice data a b ∧ a ≤ b ∧ LineStart data a ∧ LineStart data b) ∧
    ∀ u q, LineStart data u → u ≤ q → (q : Int) < u + overlap →
      data[q]? = some newline → ∃ c ∈ wks data.length workers, ∃ a b,
        window data c.1 c.2 = some (slice data a b) ∧ a ≤ u ∧ q < b := by
  refine ⟨fun c hc w hwin => ?_, fun u q hu huq hq hnl => ?_⟩
  · rcases Nat.eq_zero_or_pos data.length with h0 | hpos
    · -- an empty file: every window is empty
      rw [List.length_eq_zero] at h0
      subst h0
      exact ⟨0, 0, window_nil _ _ hwin, le_rfl, Or.inl rfl, Or.inl rfl⟩
    rw [window_eq_span, Option.map_eq_some'] at hwin
    obtain ⟨⟨a, b⟩, hspan, rfl⟩ := hwin
    obtain ⟨hab, -, ha, hb⟩ := wks_windowSpan_lines hpos hshort hc hspan
    exact ⟨a, b, rfl, hab, ha, hb⟩
  · obtain ⟨c, hc, a, b, hspan, hau, hqb⟩ := exists_wks_windowSpan hw hu huq hq hnl
    exact ⟨c, hc, a, b, by rw [window_eq_span, hspan, Option.map_some'], hau, hqb⟩

theorem windows_cover_every_line_two :
    (∀ c ∈ wks 8 2, ∀ w,
      window ([65, 59, 49, 10, 66, 59, 50, 10] : Bytes) c.1 c.2 = some w →
      ∃ a b, w = slice [65, 59, 49, 10, 66, 59, 50, 10] a b ∧ a ≤ b ∧
        LineStart [65, 59, 49, 10, 66, 59, 50, 10] a ∧
        LineStart [65, 59, 49, 10, 66, 59, 50, 10] b) ∧
    ∀ u q, LineStart [65, 59, 49, 10, 66, 59, 50, 10] u → u ≤ q →
      (q : Int) < u + overlap →
      ([65, 59, 49, 10, 66, 59, 50, 10] : Bytes)[q]? = some newline →
      ∃ c ∈ wks 8 2, ∃ a b, window [65, 59, 49, 10, 66, 59, 50, 10] c.1 c.2 =
        some (slice [65, 59, 49, 10, 66, 59, 50, 10] a b) ∧ a ≤ u ∧ q < b := by
  have hshort : ∀ i : Nat, i < 8 →
      ∃ j : Nat, j < 8 ∧ i ≤ j ∧ (j : Int) < i + overlap ∧
      ([65, 59, 49, 10, 66, 59, 50, 10] : Bytes)[j]? = some newline := by decide
  exact @windows_cover_every_line [65, 59, 49, 10, 66, 59, 50, 10] 2
    (by decide) fun i hi => (hshort i hi).imp fun _ h => h.2

end BillionRows
