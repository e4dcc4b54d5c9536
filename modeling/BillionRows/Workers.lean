import BillionRows.Partition
import BillionRows.ParseChunkIDs
import BillionRows.Merge

/-!
# The workers and the merge of `main` in `src/unnamed/part_000`

`main` starts one goroutine per range of the partition. Each runs `parseChunkIDs(data[s:e], m,
intern)` on a local map `m` and the one shared `Intern`, and after `wg.Wait()` `main` merges the
local maps. A worker reads only the immutable `data` and its own map, so the interner is the only
shared state: with `GetOrAdd` calls that do not overlap, a run of the phase is a schedule, the
sequence of workers that take a reading in turn. `WorkersRace` splits the calls at their lock
boundaries and shows that every run of the split calls that do not overlap refines such a run.

`Phase.Inv` says the interner is valid and holds only cities of the ranges, and each local map
renames the aggregate of the readings its worker has taken. It holds along every schedule, so the
merged map always resolves to the aggregate of the readings of all the ranges, and to
`parseChunk`'s map of the whole data when the ranges cut it at line boundaries.
-/

namespace BillionRows

/-- A worker goroutine: the readings of its range still to be aggregated, and its local map. -/
structure Worker where
  rest : List (Bytes × Int)
  m : GoMap Int Stat

/-- The parallel phase of `main`: the shared interner and the worker goroutines. -/
structure Phase where
  intern : Intern
  workers : List Worker

/-- The readings of `data[s:e]` for each range of the partition. -/
def rangeRecords (data : Bytes) (workers : Nat) : List (List (Bytes × Int)) :=
  (chunkRanges data workers).map fun r => records (slice data r.1 r.2)

namespace Phase

/-- The goroutines on the readings `rss`, with empty maps and one fresh interner. -/
def start (rss : List (List (Bytes × Int))) : Phase := ⟨Intern.new, rss.map fun rs => ⟨rs, ∅⟩⟩

/-- The goroutines as `main` starts them: worker `i` on `data[s:e]` of its range. -/
def init (data : Bytes) (workers : Nat) : Phase := start (rangeRecords data workers)

/-- Worker `j` aggregates its next reading under the id `GetOrAdd` gives its city; a worker with
nothing left takes no step, and `none` is a panic. -/
def step (ph : Phase) (j : Nat) : Option Phase :=
  match ph.workers[j]? with
  | some ⟨r :: rest, m⟩ =>
    (aggregateID (m, ph.intern) r).map fun s => ⟨s.2, ph.workers.set j ⟨rest, s.1⟩⟩
  | _ => some ph

/-- The phase after the workers of `sched` take one step each, in turn. -/
def run (ph : Phase) (sched : List Nat) : Option Phase := sched.foldlM step ph

/-- `wg.Wait()` has returned: every worker has aggregated all its readings. -/
def Done (ph : Phase) : Prop := ∀ w ∈ ph.workers, w.rest = []

instance (ph : Phase) : Decidable ph.Done :=
  inferInstanceAs (Decidable (∀ w ∈ ph.workers, w.rest = []))

/-- `locals` once the workers are done. -/
def locals (ph : Phase) : List (GoMap Int Stat) := ph.workers.map Worker.m

theorem set_of_getElem? {α : Type} {l : List α} {j : Nat} {a : α} (h : l[j]? = some a) :
    l.set j a = l :=
  List.ext_getElem? fun k => by
    rw [List.getElem?_set]
    split_ifs with h₁ h₂
    · subst h₁; exact h.symm
    · exact absurd (h₁ ▸ (List.getElem?_eq_some_iff.mp h).1) h₂
    · rfl

theorem run_cons (ph : Phase) (j : Nat) (sched : List Nat) :
    ph.run (j :: sched) = (ph.step j).bind fun ph' => ph'.run sched := rfl

theorem run_append (ph : Phase) (sched₁ sched₂ : List Nat) :
    ph.run (sched₁ ++ sched₂) = (ph.run sched₁).bind fun ph' => ph'.run sched₂ :=
  List.foldlM_append _ _ _ _

/-- A worker that runs alone to its end computes `parseChunkIDs`' loop on its readings. -/
theorem run_solo {j : Nat} :
    ∀ (rs : List (Bytes × Int)) (ph : Phase) (m : GoMap Int Stat), ph.workers[j]? = some ⟨rs, m⟩ →
      ph.run (List.replicate rs.length j) =
        (rs.foldlM aggregateID (m, ph.intern)).map fun s => ⟨s.2, ph.workers.set j ⟨[], s.1⟩⟩
  | [], ph, m, hj => by
    simp [run, set_of_getElem? hj]
  | r :: rs, ph, m, hj => by
    have hlt := (List.getElem?_eq_some_iff.mp hj).1
    rw [List.length_cons, List.replicate_succ, run_cons, step, hj, List.foldlM_cons]
    dsimp only
    rcases aggregateID (m, ph.intern) r with _ | ⟨m', intern'⟩
    · rfl
    · have := run_solo rs ⟨intern', ph.workers.set j ⟨rs, m'⟩⟩ m'
        (List.getElem?_set_self (by simpa using hlt))
      simp only [Option.map_some', Option.some_bind, this, List.set_set]
      rfl

/-! ## The invariant -/

variable {rss : List (List (Bytes × Int))}

/-- The invariant over the readings `rss` of the ranges: the interner is valid and holds only
their cities, and each worker has taken a prefix of its readings, whose aggregate its map renames
through the interner's names. -/
structure Inv (rss : List (List (Bytes × Int))) (ph : Phase) : Prop where
  valid : ph.intern.Valid
  names_mem : ∀ s ∈ ph.intern.names, s ∈ rss.flatten.map Prod.fst
  length_eq : ph.workers.length = rss.length
  taken : ∀ (j : Nat) (w : Worker), ph.workers[j]? = some w →
    ∃ done, rss[j]? = some (done ++ w.rest) ∧
      Renames ph.intern.names w.m (aggregateAll ∅ done)

theorem inv_start (rss : List (List (Bytes × Int))) : (start rss).Inv rss where
  valid := Intern.valid_new
  names_mem := by simp [start, Intern.new]
  length_eq := by simp [start]
  taken j w hw := by
    simp only [start, List.getElem?_map, Option.map_eq_some'] at hw
    obtain ⟨rs, hrs, rfl⟩ := hw
    exact ⟨[], hrs, renames_empty _⟩

/-- A step keeps the invariant, and does not panic while the ranges hold at most `2^31` distinct
cities. -/
theorem Inv.step (hroom : (rss.flatten.map Prod.fst).toFinset.card ≤ 2 ^ 31) {ph : Phase}
    (h : ph.Inv rss) (j : Nat) : ∃ ph', ph.step j = some ph' ∧ ph'.Inv rss := by
  unfold Phase.step
  split
  next r rest m hj =>
    obtain ⟨done, hrs, hr⟩ := h.taken j _ hj
    obtain ⟨city, tenth⟩ := r
    have hcity : city ∈ rss.flatten.map Prod.fst :=
      List.mem_map.mpr
        ⟨(city, tenth), List.mem_flatten.mpr ⟨_, List.getElem?_mem hrs, by simp⟩, rfl⟩
    obtain ⟨m', intern', hagg, hv', hr', hmono, -, t, ht, hnames⟩ :=
      h.valid.aggregateID_spec (mem_or_length_lt h.valid.nodup h.names_mem hroom hcity) hr tenth
    refine ⟨⟨intern', ph.workers.set j ⟨rest, m'⟩⟩, by rw [hagg]; rfl, hv', fun s hs => ?_,
      by simpa using h.length_eq, fun k w hw => ?_⟩
    · rw [hnames, List.mem_append] at hs
      rcases hs with hs | hs
      · exact h.names_mem s hs
      · rw [List.mem_singleton.mp (ht hs)]; exact hcity
    · rw [List.getElem?_set] at hw
      split_ifs at hw with hjk hlt
      · subst hjk
        obtain rfl := Option.some.inj hw
        refine ⟨done ++ [(city, tenth)], by simpa using hrs, ?_⟩
        rw [aggregateAll_append]
        exact hr'
      · obtain ⟨done', hrs', hr''⟩ := h.taken k w hw
        exact ⟨done', hrs', hmono _ _ hr''⟩
  next => exact ⟨ph, rfl, h⟩

/-- Every schedule runs without a panic and keeps the invariant. -/
theorem Inv.run (hroom : (rss.flatten.map Prod.fst).toFinset.card ≤ 2 ^ 31) :
    ∀ (sched : List Nat) {ph : Phase}, ph.Inv rss → ∃ ph', ph.run sched = some ph' ∧ ph'.Inv rss
  | [], ph, h => ⟨ph, rfl, h⟩
  | j :: sched, ph, h => by
    obtain ⟨ph₁, h₁, hi₁⟩ := h.step hroom j
    obtain ⟨ph', h', hi'⟩ := Inv.run hroom sched hi₁
    exact ⟨ph', by rw [run_cons, h₁, Option.some_bind, h'], hi'⟩

/-- Once the workers are done, each local map renames the aggregate of all the readings of its
range. -/
theorem Inv.renames_of_done {ph : Phase} (h : ph.Inv rss) (hd : ph.Done) (j : Nat)
    (m : GoMap Int Stat) (rs : List (Bytes × Int)) (hm : ph.locals[j]? = some m)
    (hrs : rss[j]? = some rs) : Renames ph.intern.names m (aggregateAll ∅ rs) := by
  simp only [locals, List.getElem?_map, Option.map_eq_some'] at hm
  obtain ⟨w, hw, rfl⟩ := hm
  obtain ⟨done, hdone, hr⟩ := h.taken j w hw
  rw [hrs, hd w (List.getElem?_mem hw), List.append_nil] at hdone
  rwa [Option.some.inj hdone]

end Phase

/-! ## The merge of renamed maps -/

/-- Merging maps that rename the aggregates of `rss`, whatever the order of their entries, renames
the aggregate of all of `rss`. -/
theorem Renames.merge {names : List Bytes} {ms : List (GoMap Int Stat)}
    {rss : List (List (Bytes × Int))} (hlen : ms.length = rss.length)
    (hms : ∀ (j : Nat) m rs, ms[j]? = some m → rss[j]? = some rs →
      Renames names m (aggregateAll ∅ rs))
    {orders : List (List (Σ _ : Int, Stat))} (ho : List.Forall₂ RangeOrder ms orders) :
    Renames names (mergeLocals orders) (aggregateAll ∅ rss.flatten) where
  lookup_index i s hi := by
    rw [mergeLocals, lookup_mergeLoop _ ho, lookup_aggregateAll_flatten, Finmap.lookup_empty,
      Finmap.lookup_empty]
    congr 1
    refine List.ext_getElem (by simp [hlen]) fun k h₁ h₂ => ?_
    simp only [List.getElem_map]
    exact (hms k _ _ (List.getElem?_eq_getElem (by simpa using h₁))
      (List.getElem?_eq_getElem (by simpa using h₂))).lookup_index i s hi
  mem_names s hs := by
    rw [← Finmap.lookup_isSome, Option.isSome_iff_ne_none, lookup_aggregateAll_flatten,
      Finmap.lookup_empty] at hs
    obtain ⟨o, hmem, hne⟩ := exists_ne_none_of_foldl_mergeOpt hs
    obtain ⟨rs, hrs, rfl⟩ := List.mem_map.mp hmem
    obtain ⟨k, hk⟩ := List.mem_iff_getElem?.mp hrs
    have hkm : k < ms.length := hlen ▸ (List.getElem?_eq_some_iff.mp hk).1
    exact (hms k _ rs (List.getElem?_eq_getElem hkm) hk).mem_names s
      (Finmap.lookup_isSome.mp (Option.isSome_iff_ne_none.mpr hne))
  index_mem id hid := by
    rw [← Finmap.lookup_isSome, Option.isSome_iff_ne_none, mergeLocals, lookup_mergeLoop _ ho,
      Finmap.lookup_empty] at hid
    obtain ⟨o, hmem, hne⟩ := exists_ne_none_of_foldl_mergeOpt hid
    obtain ⟨m, hm, rfl⟩ := List.mem_map.mp hmem
    obtain ⟨k, hk⟩ := List.mem_iff_getElem?.mp hm
    have hkr : k < rss.length := hlen ▸ (List.getElem?_eq_some_iff.mp hk).1
    exact (hms k m _ hk (List.getElem?_eq_getElem hkr)).index_mem id
      (Finmap.lookup_isSome.mp (Option.isSome_iff_ne_none.mpr hne))

namespace Phase

/-- Every schedule of the workers runs without a panic when their readings hold at most `2^31`
distinct cities, and once every worker is done the merged map, in any merge order, resolves
through the interner to the aggregate of all their readings. -/
theorem run_resolvesTo (rss : List (List (Bytes × Int)))
    (hroom : (rss.flatten.map Prod.fst).toFinset.card ≤ 2 ^ 31) (sched : List Nat) :
    ∃ ph, (start rss).run sched = some ph ∧ (ph.Done → ∀ orders,
      List.Forall₂ RangeOrder ph.locals orders →
        ResolvesTo ph.intern (mergeLocals orders) (aggregateAll ∅ rss.flatten)) := by
  obtain ⟨ph, hrun, h⟩ := (inv_start rss).run hroom sched
  exact ⟨ph, hrun, fun hd _ ho =>
    (Renames.merge (by simp [locals, h.length_eq]) (h.renames_of_done hd) ho).resolvesTo
      h.valid.nodup⟩

end Phase

/-! ## `main` -/

/-- With a `'\n'` in every middle naive chunk and at most `2^31` distinct cities in the data, every
schedule of the workers runs without a panic, and once they are done the merged map, in any merge
order, resolves through the interner to `parseChunk`'s map of the whole data. -/
theorem main_resolvesTo_parseChunk {data : Bytes} {workers : Nat} (hw : 0 < workers)
    (hmid : MiddleNewlines data workers)
    (hroom : ((records data).map Prod.fst).toFinset.card ≤ 2 ^ 31) (sched : List Nat) :
    ∃ ph, (Phase.init data workers).run sched = some ph ∧ (ph.Done → ∀ orders,
      List.Forall₂ RangeOrder ph.locals orders →
        ResolvesTo ph.intern (mergeLocals orders) (parseChunk data ∅)) := by
  have hrec : records data = (rangeRecords data workers).flatten := records_chunkRanges hmid hw
  rw [hrec] at hroom
  rw [parseChunk_eq, hrec]
  exact Phase.run_resolvesTo _ hroom sched

theorem main_resolvesTo_parseChunk_three :
    let data : Bytes := [65, 59, 49, 10, 66, 59, 50, 10, 67, 59, 51, 10]
    0 < 3 ∧ MiddleNewlines data 3 ∧ ((records data).map Prod.fst).toFinset.card ≤ 2 ^ 31 ∧
      ∃ ph, (Phase.init data 3).run [0, 2, 1] = some ph ∧ (ph.Done → ∀ orders,
        List.Forall₂ RangeOrder ph.locals orders →
          ResolvesTo ph.intern (mergeLocals orders) (parseChunk data ∅)) :=
  have hmid : MiddleNewlines [65, 59, 49, 10, 66, 59, 50, 10, 67, 59, 51, 10] 3 := fun i h₁ h₂ => by
    obtain rfl : i = 1 := by omega
    exact ⟨7, by decide, by decide, by decide⟩
  have hroom := by decide
  ⟨by decide, hmid, hroom, main_resolvesTo_parseChunk (by decide) hmid hroom [0, 2, 1]⟩

/-- On the line `A;1.5\n` with eight workers: a schedule runs all the workers to their end, and
after every such schedule the merged map, in any merge order, gives `A` the count 7, where
`parseChunk` counts the line once. -/
theorem main_repeats_line :
    (∃ ph, (Phase.init [65, 59, 49, 46, 53, 10] 8).run (List.range 8) = some ph ∧ ph.Done) ∧
    (∀ sched ph, (Phase.init [65, 59, 49, 46, 53, 10] 8).run sched = some ph → ph.Done →
      ∀ orders, List.Forall₂ RangeOrder ph.locals orders →
        ∃ id, (mergeLocals orders).lookup id = some ⟨15, 15, 105, 7⟩ ∧
          ph.intern.name id = some [65]) ∧
    (parseChunk [65, 59, 49, 46, 53, 10] ∅).lookup [65] = some ⟨15, 15, 15, 1⟩ := by
  refine ⟨⟨_, rfl, by decide⟩, fun sched ph hrun hd orders ho => ?_, by decide⟩
  obtain ⟨ph', hrun', hres⟩ :=
    Phase.run_resolvesTo (rangeRecords [65, 59, 49, 46, 53, 10] 8) (by decide) sched
  obtain rfl : ph' = ph := Option.some.inj (hrun'.symm.trans hrun)
  obtain ⟨id, hid, hname⟩ := (hres hd orders ho).cover [65] ⟨15, 15, 105, 7⟩ (by decide)
  exact ⟨id, hid, hname⟩

end BillionRows
