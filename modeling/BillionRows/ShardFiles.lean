import BillionRows.Scan
import BillionRows.FloatStats

/-!
# Sharding through files: `src/go_v1/main.go`

Phase 1 scans the mapped file line by line and appends each line that has a station (its first
`';'` past position 0) to the buffer of the shard `shardIndex(station)`, then writes the buffers
to files. Phase 2 aggregates each shard file in its own goroutine, parsing values with
`ParseFloat`, and the final merge folds the shard maps in the order the goroutines finish. Every
line of a station lands in the one shard of the station, in file order, so the final merge never
combines two entries: each station's entry comes from the updates of one pass over the lines.

Both phases act on a `'\n'` only: the bytes after the last `'\n'` of the file are never read as
a line. The shard files are modelled by the buffers written to them.
-/

namespace BillionRows

/-- `shardCount` -/
def shardCount : Nat := 32

/-- `fnv.New32a()` written `b` and summed: 32-bit FNV-1a, with `uint32` arithmetic. -/
def fnv32a (b : Bytes) : UInt32 :=
  b.foldl (fun h c => (h ^^^ c.toUInt32) * 16777619) 2166136261

/-- `shardIndex(b)`: `int(h.Sum32()) % shardCount`. The theorems below take any function into
`Fin shardCount` for it; on a 64-bit `int` the hash is non-negative and this one is such a
function (`shardIndex_eq_tmod`). -/
def shardIndex (b : Bytes) : Fin shardCount :=
  ⟨(fnv32a b).toNat % shardCount, Nat.mod_lt _ (by decide)⟩

/-- The shard is Go's truncated `%` of the hash as an `int`. -/
theorem shardIndex_eq_tmod (b : Bytes) :
    ((shardIndex b : Nat) : Int) = Int.tmod (fnv32a b).toNat shardCount :=
  (Int.ofNat_tmod _ _).symm

/-- `for i := 0; i < len(buf); i++ { if buf[i] != '\n' { continue }; line := buf[start:i];
start = i + 1; ... }`, with `body` the rest of the loop on its state `s`, and `pending` holding
`buf[start:i]`. -/
def lineLoop {σ : Type} (body : σ → Bytes → σ) : Bytes → Bytes → σ → σ
  | [], _, s => s
  | c :: rest, pending, s =>
    if c = newline then lineLoop body rest [] (body s pending)
    else lineLoop body rest (pending ++ [c]) s

section

variable {V : Type} [LT V] [DecidableRel (α := V) (· < ·)] [Add V]

/-- The body of phase 1 for one line: a non-empty line whose first `';'` is past position 0 goes,
with its `'\n'`, to the buffer of the shard of its station. -/
def shardLine (shardIndex : Bytes → Fin shardCount) (shardBuf : Fin shardCount → Bytes)
    (line : Bytes) : Fin shardCount → Bytes :=
  if line.length = 0 then shardBuf
  else
    let sep := findSep line
    if sep ≤ 0 then shardBuf
    else
      let sh := shardIndex (line.take sep.toNat)
      Function.update shardBuf sh (shardBuf sh ++ line ++ [newline])

/-- The body of phase 2 for one line of a shard file: skipped when its first `';'` is missing or
at position 0, or when `ParseFloat` rejects its value. -/
def shardAggregate (parseFloat : Bytes → Option V) (m : GoMap Bytes (Stats V)) (line : Bytes) :
    GoMap Bytes (Stats V) :=
  let sep := findSep line
  if sep ≤ 0 then m
  else
    match parseFloat (line.drop (sep.toNat + 1)) with
    | some v => update m (line.take sep.toNat) v
    | none => m

/-- `shardBuf` after phase 1. -/
def shardBufs (shardIndex : Bytes → Fin shardCount) (data : Bytes) : Fin shardCount → Bytes :=
  lineLoop (shardLine shardIndex) data [] fun _ => []

/-- The map the phase-2 goroutine of shard `s` sends on `out`, reading back the file of phase 1. -/
def shardMap (shardIndex : Bytes → Fin shardCount) (parseFloat : Bytes → Option V)
    (data : Bytes) (s : Fin shardCount) : GoMap Bytes (Stats V) :=
  lineLoop (shardAggregate parseFloat) (shardBufs shardIndex data s) [] ∅

/-- One pass over the lines of `data` in file order with the update rule of phase 2, the lines
being the `'\n'`-separated segments of `data`, the last one included. -/
def linePass (parseFloat : Bytes → Option V) (data : Bytes) : GoMap Bytes (Stats V) :=
  (data.splitOn newline).foldl (shardAggregate parseFloat) ∅

/-- On the file `A;1.0`, which has no final `'\n'`, neither phase sees a line: for every
`shardIndex`, parse function and merge order `go_v1` ends with an empty map, while the pass over
the lines of the file reads the line `A;1.0`. -/
theorem goV1_drops_last_line (shardIndex : Bytes → Fin shardCount)
    (parseFloat : Bytes → Option V) :
    (∀ s, shardMap shardIndex parseFloat [65, 59, 49, 46, 48] s = ∅) ∧
    (∀ (order : List (Fin shardCount)) orders,
      List.Forall₂ RangeOrder (order.map (shardMap shardIndex parseFloat [65, 59, 49, 46, 48]))
        orders → mergeMaps orders = ∅) ∧
    (linePass parseFloat [65, 59, 49, 46, 48]).lookup [65] =
      (parseFloat [49, 46, 48]).map Stats.single := by
  have hmap : ∀ s, shardMap shardIndex parseFloat [65, 59, 49, 46, 48] s = ∅ := fun _ => rfl
  refine ⟨hmap, fun order orders ho => ?_, ?_⟩
  · exact mergeLoopWith_of_empty _ ho (by simp [hmap]) ∅
  · show (shardAggregate parseFloat ∅ [65, 59, 49, 46, 48]).lookup [65] = _
    have hsep : findSep [65, 59, 49, 46, 48] = 1 := rfl
    rcases h : parseFloat [49, 46, 48] with _ | v <;>
      simp [shardAggregate, hsep, h, update, lookup_upsert]

/-! ## Terminated lines -/

theorem lineLoop_append {σ : Type} (body : σ → Bytes → σ) {l : Bytes} (hl : newline ∉ l)
    (rest pending : Bytes) (s : σ) :
    lineLoop body (l ++ newline :: rest) pending s =
      lineLoop body rest [] (body s (pending ++ l)) := by
  induction l generalizing pending with
  | nil => simp [lineLoop]
  | cons c l ih =>
    simp only [List.mem_cons, not_or] at hl
    simp [lineLoop, Ne.symm hl.1, ih hl.2]

/-- On terminated lines the loop folds its body over them. -/
theorem lineLoop_joinLines {σ : Type} (body : σ → Bytes → σ) {ls : List Bytes}
    (hls : ∀ l ∈ ls, newline ∉ l) (s : σ) :
    lineLoop body (joinLines ls []) [] s = ls.foldl body s := by
  induction ls generalizing s with
  | nil => rfl
  | cons l ls ih =>
    simp only [List.mem_cons, forall_eq_or_imp] at hls
    rw [joinLines_cons, lineLoop_append _ hls.1, List.nil_append, ih hls.2, List.foldl_cons]

theorem shardLine_apply (shardIndex : Bytes → Fin shardCount) (buf : Fin shardCount → Bytes)
    (l : Bytes) (s : Fin shardCount) :
    shardLine shardIndex buf l s =
      if 0 < findSep l ∧ shardIndex (l.take (findSep l).toNat) = s then buf s ++ l ++ [newline]
      else buf s := by
  by_cases hl : l.length = 0
  · obtain rfl := List.eq_nil_of_length_eq_zero hl
    simp [shardLine, findSep, findSep.loop]
  · by_cases hp : findSep l ≤ 0
    · simp [shardLine, hl, hp, not_lt.mpr hp]
    · by_cases hs : shardIndex (l.take (findSep l).toNat) = s
      · subst hs
        simp [shardLine, hl, hp, not_le.mp hp]
      · simp [shardLine, hl, hp, hs, Function.update_apply, Ne.symm hs]

/-- The lines phase 1 appends to the buffer of shard `s`: those whose first `';'` is past
position 0 and whose station `shardIndex` sends to `s`. -/
theorem foldl_shardLine (shardIndex : Bytes → Fin shardCount) (s : Fin shardCount) :
    ∀ (ls : List Bytes) (buf : Fin shardCount → Bytes),
      ls.foldl (shardLine shardIndex) buf s = buf s ++ joinLines (ls.filter fun l =>
        0 < findSep l ∧ shardIndex (l.take (findSep l).toNat) = s) []
  | [], buf => by simp
  | l :: ls, buf => by
    rw [List.foldl_cons, foldl_shardLine shardIndex s ls, List.filter_cons, shardLine_apply]
    by_cases h : 0 < findSep l ∧ shardIndex (l.take (findSep l).toNat) = s <;> simp [h]

theorem lookup_shardAggregate_congr (parseFloat : Bytes → Option V) {m₁ m₂ : GoMap Bytes (Stats V)}
    {k : Bytes} (h : m₁.lookup k = m₂.lookup k) (l : Bytes) :
    (shardAggregate parseFloat m₁ l).lookup k = (shardAggregate parseFloat m₂ l).lookup k := by
  dsimp only [shardAggregate]
  split_ifs
  · exact h
  · cases parseFloat (l.drop ((findSep l).toNat + 1))
    · exact h
    · simp only [update, lookup_upsert]
      split_ifs with hk
      · rw [← hk, h]
      · exact h

theorem lookup_shardAggregate_of_ne (parseFloat : Bytes → Option V) (m : GoMap Bytes (Stats V))
    {k l : Bytes} (h : ¬(0 < findSep l ∧ l.take (findSep l).toNat = k)) :
    (shardAggregate parseFloat m l).lookup k = m.lookup k := by
  dsimp only [shardAggregate]
  split_ifs with hp
  · rfl
  · have hk : k ≠ l.take (findSep l).toNat := fun hk => h ⟨by omega, hk.symm⟩
    cases parseFloat (l.drop ((findSep l).toNat + 1)) <;> simp [update, lookup_upsert, hk]

/-- Dropping lines of other stations leaves the entry of `k` as it is. -/
theorem lookup_foldl_filter (parseFloat : Bytes → Option V) (p : Bytes → Bool) (k : Bytes) :
    ∀ (ls : List Bytes) (m₁ m₂ : GoMap Bytes (Stats V)),
      (∀ l ∈ ls, 0 < findSep l → l.take (findSep l).toNat = k → p l = true) →
      m₁.lookup k = m₂.lookup k →
      ((ls.filter p).foldl (shardAggregate parseFloat) m₁).lookup k =
        (ls.foldl (shardAggregate parseFloat) m₂).lookup k
  | [], _, _, _, h => h
  | l :: ls, m₁, m₂, hp, h => by
    simp only [List.mem_cons, forall_eq_or_imp] at hp
    rw [List.filter_cons, List.foldl_cons]
    split
    · exact lookup_foldl_filter parseFloat p k ls _ _ hp.2 (lookup_shardAggregate_congr _ h l)
    · refine lookup_foldl_filter parseFloat p k ls _ _ hp.2 (h.trans ?_)
      exact (lookup_shardAggregate_of_ne _ _ fun hl => by simp_all).symm

theorem linePass_joinLines (parseFloat : Bytes → Option V) {ls : List Bytes}
    (hls : ∀ l ∈ ls, newline ∉ l) :
    linePass parseFloat (joinLines ls []) = ls.foldl (shardAggregate parseFloat) ∅ := by
  rw [linePass, splitOn_joinLines hls (List.not_mem_nil _), List.foldl_append]
  rfl

/-- A station has an entry in the map of its own shard only, the entry of the pass over the
lines. -/
theorem lookup_shardMap (shardIndex : Bytes → Fin shardCount) (parseFloat : Bytes → Option V)
    {ls : List Bytes} (hls : ∀ l ∈ ls, newline ∉ l) (s : Fin shardCount) (k : Bytes) :
    (shardMap shardIndex parseFloat (joinLines ls []) s).lookup k =
      if s = shardIndex k then (linePass parseFloat (joinLines ls [])).lookup k else none := by
  have hsub : ∀ l ∈ ls.filter (fun l => 0 < findSep l ∧ shardIndex (l.take (findSep l).toNat) = s),
      newline ∉ l := fun l hl => hls l (List.mem_of_mem_filter hl)
  rw [shardMap, shardBufs, lineLoop_joinLines _ hls, foldl_shardLine, List.nil_append,
    lineLoop_joinLines _ hsub, linePass_joinLines _ hls]
  split_ifs with hs
  · exact lookup_foldl_filter parseFloat _ k ls ∅ ∅ (fun l _ h₀ hk => by simp [h₀, hk, hs]) rfl
  · have hnone := lookup_foldl_filter parseFloat (fun _ => false) k (ls.filter fun l =>
        0 < findSep l ∧ shardIndex (l.take (findSep l).toNat) = s) ∅ ∅ (fun l hl h₀ hk => by
      simp only [List.mem_filter, decide_eq_true_eq] at hl
      exact absurd (hk ▸ hl.2.2).symm hs) rfl
    simpa using hnone.symm

/-- On a file that is empty or ends with `'\n'`, `go_v1` computes the pass over the lines: for
every `shardIndex`, in every order in which the 32 goroutines of phase 2 finish and every
iteration order of their maps, the merged map is `linePass`. -/
theorem goV1_eq_linePass (shardIndex : Bytes → Fin shardCount) (parseFloat : Bytes → Option V)
    {data : Bytes} (hdata : data = [] ∨ ∃ d, data = d ++ [newline]) {order : List (Fin shardCount)}
    (horder : order.Perm (List.finRange shardCount)) {orders : List (List (Σ _ : Bytes, Stats V))}
    (ho : List.Forall₂ RangeOrder (order.map (shardMap shardIndex parseFloat data)) orders) :
    mergeMaps orders = linePass parseFloat data := by
  obtain ⟨ls, hls, rfl⟩ := exists_joinLines_nil hdata
  refine Finmap.ext_lookup fun k => ?_
  rw [mergeMaps, lookup_mergeLoopWith _ k ho, Finmap.lookup_empty, List.map_map]
  have hmap : (fun s => (shardMap shardIndex parseFloat (joinLines ls []) s).lookup k) =
      fun s =>
        if s = shardIndex k then (linePass parseFloat (joinLines ls [])).lookup k else none :=
    funext fun s => lookup_shardMap shardIndex parseFloat hls s k
  rw [Function.comp_def, hmap, foldl_merge_single _ _ _ order (horder.nodup_iff.mpr
    (List.nodup_finRange _)), if_pos (horder.mem_iff.mpr (List.mem_finRange _))]
  cases (linePass parseFloat (joinLines ls [])).lookup k <;> rfl

theorem goV1_eq_linePass_one :
    let parse : Bytes → Option Int := fun b => if b = [49] then some 1 else none
    mergeMaps ([⟨[65], ⟨1, 1, 1, 1⟩⟩] :: List.replicate 31 []) =
      linePass parse [65, 59, 49, 10] := by
  intro parse
  exact goV1_eq_linePass (fun _ => ⟨0, by decide⟩) parse (.inr ⟨[65, 59, 49], rfl⟩)
    (List.Perm.refl _) (by decide)

end

end BillionRows
