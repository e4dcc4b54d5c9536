import BillionRows.Channels
import BillionRows.ShardFiles

/-!
# What the channel pipeline keeps of each station's values

In `src/unnamed/part_001` the lines of a station go to whichever worker receives them, and `main`
merges the workers' maps in the order they arrive on `resultChan`, each in the iteration order the
runtime picks. Over `float64`, whose addition rounds and whose `NaN` compares false, that order can
change the merged `Min`, `Max` and `Sum`; what no order changes is the values an entry is built
from. `MergeOf M x` says that `Stats.merge` builds `x` from the single-value entries of the values
of the multiset `M`, each used once, in some order and some bracketing: a worker's update
`st.Add(v)` is the merge of `v`'s single-value entry, and `main`'s merge of two entries merges two
such trees.

Every run of the goroutines that ends with `main` out of its loop leaves at each station an entry
built from exactly the values of that station's lines of the file (`run_final_mergeOf`), as does
one worker reading the lines in file order, which is `go_v1`'s `linePass` when no line has its
first `';'` at position 0. The pipeline and the sequential pass differ only in how they bracket
and order the merges, and no value is lost or merged twice.

`FinalInv` adds to the pipeline invariant of `Channels` what `final` holds: at each station, an
entry built from the values of the lines of the workers whose maps `main` has merged.
-/

namespace BillionRows

variable {V : Type} [LT V] [DecidableRel (α := V) (· < ·)] [Add V]

/-! ## Entries built from a multiset of values -/

/-- `x` is built by `Stats.merge` from the single-value entries of the values of `M`, each used
once. -/
inductive MergeOf : Multiset V → Stats V → Prop
  | single (v : V) : MergeOf {v} (Stats.single v)
  | merge {M N : Multiset V} {x y : Stats V} : MergeOf M x → MergeOf N y →
      MergeOf (M + N) (x.merge y)

/-- A map entry built from the values of `M`, absent exactly when `M` is empty. -/
def OptMergeOf (M : Multiset V) : Option (Stats V) → Prop
  | none => M = 0
  | some x => MergeOf M x

/-- Merging two entries, present or not, merges the values they are built from. -/
theorem OptMergeOf.merge {M N : Multiset V} :
    ∀ {a b : Option (Stats V)}, OptMergeOf M a → OptMergeOf N b →
      OptMergeOf (M + N) (Option.merge Stats.merge a b)
  | none, none, ha, hb => show M + N = 0 by rw [ha, hb, add_zero]
  | none, some _, ha, hb => show MergeOf (M + N) _ by rw [ha, zero_add]; exact hb
  | some _, none, ha, hb => show MergeOf (M + N) _ by rw [hb, add_zero]; exact ha
  | some _, some _, ha, hb => MergeOf.merge ha hb

/-! ## One worker -/

section Worker

variable (parseFloat : Bytes → Option V)

/-- The value a worker aggregates under `station` from the line `l`, if any. -/
def valueAt (station l : Bytes) : Option V :=
  (lineReading parseFloat l).bind fun r => if r.1 = station then some r.2 else none

/-- A worker's line changes the entry of `k` by merging the single-value entry of its value. -/
theorem lookup_workerLine (m : GoMap Bytes (Stats V)) (l k : Bytes) :
    (workerLine parseFloat m l).lookup k =
      Option.merge Stats.merge (m.lookup k) ((valueAt parseFloat k l).map Stats.single) := by
  unfold workerLine valueAt
  rcases lineReading parseFloat l with _ | ⟨station, v⟩
  · exact (merge_none_right _).symm
  · simp only [update, lookup_upsert, Option.some_bind]
    by_cases hk : k = station
    · subst hk
      rw [if_pos rfl, if_pos rfl]
      cases m.lookup k <;> rfl
    · simp [hk, Ne.symm hk, merge_none_right]

/-- A worker that starts from an entry of `k` built from `M` and reads the lines `ls` ends with an
entry built from `M` and the values of `ls` under `k`. -/
theorem OptMergeOf.foldl_workerLine (k : Bytes) :
    ∀ (ls : List Bytes) {M : Multiset V} {m : GoMap Bytes (Stats V)}, OptMergeOf M (m.lookup k) →
      OptMergeOf (M + (ls.filterMap (valueAt parseFloat k) : Multiset V))
        ((ls.foldl (workerLine parseFloat) m).lookup k)
  | [], _, _, h => by rw [List.filterMap_nil, Multiset.coe_nil, add_zero]; exact h
  | l :: ls, M, m, h => by
    rw [List.foldl_cons]
    rcases hv : valueAt parseFloat k l with _ | v
    · have h' : OptMergeOf M ((workerLine parseFloat m l).lookup k) := by
        rwa [lookup_workerLine, hv, Option.map_none', merge_none_right]
      rw [List.filterMap_cons_none hv]
      exact OptMergeOf.foldl_workerLine k ls h'
    · have h' : OptMergeOf (M + {v}) ((workerLine parseFloat m l).lookup k) := by
        rw [lookup_workerLine, hv, Option.map_some']
        exact h.merge (MergeOf.single v)
      rw [List.filterMap_cons_some hv, ← Multiset.cons_coe, ← Multiset.singleton_add, ← add_assoc]
      exact OptMergeOf.foldl_workerLine k ls h'

/-- A worker's map, from the empty map, holds at each station an entry built from the values of
the lines it read. -/
theorem optMergeOf_foldl_workerLine (k : Bytes) (ls : List Bytes) :
    OptMergeOf (ls.filterMap (valueAt parseFloat k) : Multiset V)
      ((ls.foldl (workerLine parseFloat) ∅).lookup k) := by
  simpa using OptMergeOf.foldl_workerLine parseFloat k ls (M := 0) (m := ∅) rfl

omit [LT V] [DecidableRel (α := V) (· < ·)] [Add V] in
/-- The reader leaves out only an empty last segment, which holds no value: the values of the
lines it sends are those of the `'\n'`-separated segments of the file. -/
theorem filterMap_valueAt_readLines (k data : Bytes) :
    (readLines data []).filterMap (valueAt parseFloat k) =
      (data.splitOn newline).filterMap (valueAt parseFloat k) := by
  obtain ⟨ls, last, hls, hlast, rfl⟩ := exists_joinLines data
  rw [readLines_joinLines hls hlast, splitOn_joinLines hls hlast, List.filterMap_append,
    List.filterMap_append]
  split_ifs with hlen
  · rfl
  · obtain rfl := List.eq_nil_of_length_eq_zero (Nat.eq_zero_of_not_pos hlen)
    rfl

theorem neg_one_le_findSep_loop : ∀ (i : Nat) (b : Bytes), -1 ≤ findSep.loop i b
  | _, [] => le_refl _
  | i, c :: b => by
    unfold findSep.loop
    split_ifs
    · omega
    · exact neg_one_le_findSep_loop (i + 1) b

/-- A worker of `part_001` and the phase-2 goroutines of `go_v1` read a line alike unless its
first `';'` is at position 0: `go_v1` skips such a line, a worker aggregates it under the empty
station. -/
theorem workerLine_eq_shardAggregate (m : GoMap Bytes (Stats V)) {l : Bytes}
    (hl : findSep l ≠ 0) : workerLine parseFloat m l = shardAggregate parseFloat m l := by
  have h₁ : -1 ≤ findSep l := neg_one_le_findSep_loop 0 l
  unfold workerLine lineReading shardAggregate
  by_cases h₀ : l.length = 0
  · obtain rfl := List.eq_nil_of_length_eq_zero h₀
    rfl
  · by_cases hs : findSep l = -1
    · simp [h₀, hs]
    · rw [if_neg h₀, if_neg hs, if_neg (by omega)]
      rcases parseFloat (l.drop ((findSep l).toNat + 1)) with _ | v <;> rfl

end Worker

/-! ## What `final` holds -/

namespace Pipeline

variable [DecidableEq V] {parseFloat : Bytes → Option V} {lines : List Bytes} {n : Nat}
  {s s' : Pipeline V}

variable (parseFloat) in
/-- The values under `k` of the lines of the workers of `ws` whose maps `main` has merged. -/
def mergedValues (ws : List (LineWorker V)) (k : Bytes) : Multiset V :=
  (ws.map fun w =>
    if w.status = .merged then (w.got.filterMap (valueAt parseFloat k) : Multiset V) else 0).sum

variable (parseFloat) in
/-- `final` holds, at each station, an entry built from the values of the lines of the merged
workers. -/
def FinalInv (s : Pipeline V) : Prop :=
  ∀ k, OptMergeOf (mergedValues parseFloat s.workers k) (s.final.lookup k)

omit [DecidableEq V] in
theorem finalInv_init (data : Bytes) (n : Nat) : (init data n : Pipeline V).FinalInv parseFloat :=
  fun k => show mergedValues parseFloat _ k = 0 by
    simp [mergedValues, init, List.map_replicate, List.sum_replicate]

omit [LT V] [DecidableRel (α := V) (· < ·)] [Add V] [DecidableEq V] in
variable (parseFloat) in
/-- Replacing a worker by `w'` adds the values of `w'` to the merged ones if `w'` is merged, and
removes those of the worker it replaces if that one was. -/
theorem mergedValues_set {ws : List (LineWorker V)} {j : Nat} {w : LineWorker V}
    (hw : ws[j]? = some w) (w' : LineWorker V) (k : Bytes) :
    mergedValues parseFloat (ws.set j w') k +
      (if w.status = .merged then (w.got.filterMap (valueAt parseFloat k) : Multiset V) else 0) =
    mergedValues parseFloat ws k +
      if w'.status = .merged then (w'.got.filterMap (valueAt parseFloat k) : Multiset V) else 0 :=
  sum_map_set _ ws j w' hw

omit [DecidableEq V] in
/-- A worker that is not merged changes the merged values in no way, whatever else changes in
it. -/
theorem FinalInv.set (hF : s.FinalInv parseFloat) {j : Nat} {w w' : LineWorker V}
    (hw : s.workers[j]? = some w) (hs : w.status ≠ .merged) (hs' : w'.status ≠ .merged) (k : Bytes) :
    OptMergeOf (mergedValues parseFloat (s.workers.set j w') k) (s.final.lookup k) := by
  have e := mergedValues_set parseFloat hw w' k
  rw [if_neg hs, if_neg hs', add_zero, add_zero] at e
  rw [e]
  exact hF k

/-- Every event keeps `FinalInv`: only `main`'s receive changes `final`, and it merges the map of
a worker that has sent it, whose values the same event counts as merged. -/
theorem FinalInv.step (hi : s.Inv parseFloat lines n) (hF : s.FinalInv parseFloat) {e : Event V}
    (h : s.step parseFloat e = some s') : s'.FinalInv parseFloat := by
  cases e with
  | readerSend => obtain ⟨-, -, -, -, rfl⟩ := step_readerSend h; exact hF
  | readerClose => obtain ⟨-, -, rfl⟩ := step_readerClose h; exact hF
  | workerRecv j =>
    obtain ⟨w, l, rest, hw, -, hrecv, rfl⟩ := step_workerRecv h
    exact hF.set hw (by simp [hrecv]) (by simp [hrecv])
  | workerSend j =>
    obtain ⟨w, hw, hrecv, -, -, -, rfl⟩ := step_workerSend h
    exact hF.set hw (by simp [hrecv]) (by simp)
  | closerClose => obtain ⟨-, -, rfl⟩ := step_closerClose h; exact hF
  | mainRecv order =>
    obtain ⟨j, p, rest, hc, hord, rfl⟩ := step_mainRecv h
    obtain ⟨w, hw, hsent, rfl⟩ := hi.results_sent j p (by simp [hc])
    intro k
    have e := mergedValues_set parseFloat hw { w with status := .merged } k
    rw [if_neg (by simp [hsent]), if_pos rfl, add_zero] at e
    have hp := optMergeOf_foldl_workerLine parseFloat k w.got
    rw [← hi.local_eq w (List.mem_iff_getElem?.mpr ⟨j, hw⟩)] at hp
    show OptMergeOf (mergedValues parseFloat (s.workers.modify _ j) k)
      ((order.foldl (mergeWith Stats.merge) s.final).lookup k)
    rw [modify_eq_set hw, e, lookup_foldl_mergeWith _ _ _ hord.nodupKeys, ← hord.lookup_eq]
    exact (hF k).merge hp
  | mainEnd => obtain ⟨-, -, -, rfl⟩ := step_mainEnd h; exact hF

theorem FinalInv.run :
    ∀ (events : List (Event V)) {s s' : Pipeline V}, s.Inv parseFloat lines n →
      s.FinalInv parseFloat → s.run parseFloat events = some s' → s'.FinalInv parseFloat
  | [], _, _, _, hF, h => Option.some.inj h ▸ hF
  | e :: events, _, _, hi, hF, h => by
    rw [run_cons] at h
    obtain ⟨t, ht, h⟩ := Option.bind_eq_some.mp h
    exact FinalInv.run events (hi.step ht) (hF.step hi ht) h

omit [LT V] [DecidableRel (α := V) (· < ·)] [Add V] [DecidableEq V] in
theorem sum_got_eq_flatten (ws : List (LineWorker V)) :
    (ws.map fun w => (w.got : Multiset Bytes)).sum = ((ws.map (·.got)).flatten : Multiset Bytes) := by
  induction ws with
  | nil => rfl
  | cons w ws ih => simp [ih]

omit [LT V] [DecidableRel (α := V) (· < ·)] [Add V] [DecidableEq V] in
theorem sum_filterMap_got (f : Bytes → Option V) (ws : List (LineWorker V)) :
    (ws.map fun w => (w.got.filterMap f : Multiset V)).sum =
      ((ws.map (·.got)).flatten.filterMap f : Multiset V) := by
  induction ws with
  | nil => rfl
  | cons w ws ih =>
    rw [List.map_cons, List.sum_cons, ih, List.map_cons, List.flatten_cons, List.filterMap_append,
      Multiset.coe_add]

/-- Every run of the goroutines on `data` with at least one worker that ends with `main` out of
its loop leaves at each station `k` an entry built by `Stats.merge` from the values of exactly the
`'\n'`-separated segments of `data` that a worker aggregates under `k`, each once, whatever the
interleaving, the split of the lines between the workers, the order in which their maps arrive and
the iteration order of each map. One worker reading the segments in file order builds its entry
from the same values, and its map is `go_v1`'s `linePass` when no segment has its first `';'` at
position 0. -/
theorem run_final_mergeOf (data : Bytes) {workerCount : Nat} (hw : 0 < workerCount)
    (events : List (Event V)) {s : Pipeline V}
    (h : (init data workerCount).run parseFloat events = some s) (hf : s.finished = true) :
    (∀ k, OptMergeOf ((data.splitOn newline).filterMap (valueAt parseFloat k) : Multiset V)
        (s.final.lookup k) ∧
      OptMergeOf ((data.splitOn newline).filterMap (valueAt parseFloat k) : Multiset V)
        (((data.splitOn newline).foldl (workerLine parseFloat) ∅).lookup k)) ∧
    ((∀ l ∈ data.splitOn newline, findSep l ≠ 0) →
      (data.splitOn newline).foldl (workerLine parseFloat) ∅ = linePass parseFloat data) := by
  have hi := Inv.run events (inv_init data workerCount) h
  have hF := FinalInv.run events (inv_init data workerCount) (finalInv_init data workerCount) h
  obtain ⟨hgot, hmerged⟩ := hi.finished hw hf
  have hperm : ((s.workers.map (·.got)).flatten).Perm (readLines data []) := by
    rw [← Multiset.coe_eq_coe, ← sum_got_eq_flatten, hgot]
  refine ⟨fun k => ⟨?_, ?_⟩, fun hsep => List.foldl_ext _ _ _ fun m l hl =>
    workerLine_eq_shardAggregate parseFloat m (hsep l hl)⟩
  · have hk := hF k
    rwa [mergedValues, List.map_congr_left fun w hw => if_pos (hmerged w hw), sum_filterMap_got,
      Multiset.coe_eq_coe.mpr (hperm.filterMap _), filterMap_valueAt_readLines] at hk
  · exact optMergeOf_foldl_workerLine parseFloat k _

theorem run_final_mergeOf_two :
    let parse : Bytes → Option Int := fun b =>
      if b = [49] then some 1 else if b = [50] then some 2 else none
    ∃ s, (init [65, 59, 49, 10, 65, 59, 50, 10] 2).run parse
        [.readerSend, .readerSend, .readerClose, .workerRecv 0, .workerRecv 1, .workerSend 1,
          .workerSend 0, .closerClose, .mainRecv [⟨[65], ⟨2, 2, 2, 1⟩⟩],
          .mainRecv [⟨[65], ⟨1, 1, 1, 1⟩⟩], .mainEnd] = some s ∧
      s.finished = true ∧ 0 < 2 ∧
      (∀ k, OptMergeOf (([65, 59, 49, 10, 65, 59, 50, 10].splitOn newline).filterMap
          (valueAt parse k) : Multiset Int) (s.final.lookup k) ∧
        OptMergeOf (([65, 59, 49, 10, 65, 59, 50, 10].splitOn newline).filterMap
          (valueAt parse k) : Multiset Int)
          ((([65, 59, 49, 10, 65, 59, 50, 10].splitOn newline).foldl (workerLine parse) ∅).lookup
            k)) ∧
      ((∀ l ∈ [65, 59, 49, 10, 65, 59, 50, 10].splitOn newline, findSep l ≠ 0) →
        ([65, 59, 49, 10, 65, 59, 50, 10].splitOn newline).foldl (workerLine parse) ∅ =
          linePass parse [65, 59, 49, 10, 65, 59, 50, 10]) := by
  intro parse
  have hrun : (init [65, 59, 49, 10, 65, 59, 50, 10] 2).run parse
      [.readerSend, .readerSend, .readerClose, .workerRecv 0, .workerRecv 1, .workerSend 1,
        .workerSend 0, .closerClose, .mainRecv [⟨[65], ⟨2, 2, 2, 1⟩⟩],
        .mainRecv [⟨[65], ⟨1, 1, 1, 1⟩⟩], .mainEnd] = some _ := rfl
  exact ⟨_, hrun, rfl, by decide, run_final_mergeOf _ (by decide) _ hrun rfl⟩

end Pipeline

end BillionRows
