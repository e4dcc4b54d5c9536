import BillionRows.Basic

/-!
# Per-station statistics

`Stat` and the two ways the fixed-point programs combine statistics: `parseChunk` and
`parseChunkIDs` add one reading to a station's entry (`aggregate`), and `main`'s merge loop folds a
local entry into the global one (`Stat.merge`). Adding a reading is merging the entry that a single
reading creates (`Stat.add_eq_merge`), and merging is commutative and associative, so the entry of
a station depends only on the readings behind it, not on how they were grouped or ordered.
-/

namespace BillionRows

/-- `Stat holds metrics in integer tenths`: `min`, `max` are `int32`, `sum`, `count` are `int64`. -/
@[ext] structure Stat where
  min : Int
  max : Int
  sum : Int
  count : Int
  deriving DecidableEq, Repr

namespace Stat

/-- The entry a first reading creates:
`Stat{min: tenth, max: tenth, sum: int64(tenth), count: 1}`. -/
def single (tenth : Int) : Stat := ⟨tenth, tenth, wrap64 tenth, 1⟩

/-- An existing entry after one more reading (the `ok` branch of the aggregation in
`parseChunk`). -/
def add (st : Stat) (tenth : Int) : Stat where
  min := if tenth < st.min then tenth else st.min
  max := if tenth > st.max then tenth else st.max
  sum := wrap64 (st.sum + tenth)
  count := wrap64 (st.count + 1)

/-- The global entry `g` after merging a local entry `st` (the `else` branch of `main`'s merge). -/
def merge (g st : Stat) : Stat where
  min := if st.min < g.min then st.min else g.min
  max := if st.max > g.max then st.max else g.max
  sum := wrap64 (g.sum + st.sum)
  count := wrap64 (g.count + st.count)

theorem add_eq_merge (st : Stat) (tenth : Int) : st.add tenth = st.merge (single tenth) := by
  ext <;> simp [add, merge, single]

@[simp] theorem merge_min (g st : Stat) : (g.merge st).min = Min.min g.min st.min := by
  simp only [merge]; split <;> omega

@[simp] theorem merge_max (g st : Stat) : (g.merge st).max = Max.max g.max st.max := by
  simp only [merge]; split <;> omega

@[simp] theorem merge_sum (g st : Stat) : (g.merge st).sum = wrap64 (g.sum + st.sum) := rfl

@[simp] theorem merge_count (g st : Stat) : (g.merge st).count = wrap64 (g.count + st.count) := rfl

theorem merge_comm (a b : Stat) : a.merge b = b.merge a := by
  ext <;> simp [Int.min_comm, Int.max_comm, Int.add_comm]

theorem merge_assoc (a b c : Stat) : (a.merge b).merge c = a.merge (b.merge c) := by
  ext <;> simp [inf_assoc, sup_assoc, Int.add_assoc]

/-- Merging into an optional entry: `main`'s two branches, `!ok` (copy) and `ok` (merge). -/
abbrev mergeOpt : Option Stat → Option Stat → Option Stat := Option.merge merge

theorem mergeOpt_comm (a b : Option Stat) : mergeOpt a b = mergeOpt b a := by
  cases a <;> cases b <;> simp [Option.merge, merge_comm]

theorem mergeOpt_assoc (a b c : Option Stat) :
    mergeOpt (mergeOpt a b) c = mergeOpt a (mergeOpt b c) := by
  cases a <;> cases b <;> cases c <;> simp [Option.merge, merge_assoc]

@[simp] theorem mergeOpt_none (a : Option Stat) : mergeOpt a none = a := by
  cases a <;> rfl

@[simp] theorem none_mergeOpt (a : Option Stat) : mergeOpt none a = a := by
  cases a <;> rfl

/-- `st` summarises the readings `vs`: `min` and `max` are the least and the greatest of them,
`sum` and `count` their sum and their number as `int64` values. -/
structure Summarises (st : Stat) (vs : List Int) : Prop where
  min_mem : st.min ∈ vs
  min_le : ∀ v ∈ vs, st.min ≤ v
  max_mem : st.max ∈ vs
  le_max : ∀ v ∈ vs, v ≤ st.max
  sum_eq : st.sum = wrap64 vs.sum
  count_eq : st.count = wrap64 vs.length

theorem summarises_single (t : Int) : Summarises (single t) [t] where
  min_mem := by simp [single]
  min_le := by simp [single]
  max_mem := by simp [single]
  le_max := by simp [single]
  sum_eq := by simp [single]
  count_eq := (wrap64_of_range (x := 1) (by decide) (by decide)).symm

theorem Summarises.merge {a b : Stat} {xs ys : List Int} (ha : Summarises a xs)
    (hb : Summarises b ys) : Summarises (a.merge b) (xs ++ ys) where
  min_mem := by
    rw [merge_min, List.mem_append]
    rcases Int.le_total a.min b.min with h | h
    · exact .inl (by rw [Int.min_eq_left h]; exact ha.min_mem)
    · exact .inr (by rw [Int.min_eq_right h]; exact hb.min_mem)
  min_le v hv := by
    rcases List.mem_append.mp hv with hv | hv
    · have := ha.min_le v hv; simp only [merge_min]; omega
    · have := hb.min_le v hv; simp only [merge_min]; omega
  max_mem := by
    rw [merge_max, List.mem_append]
    rcases Int.le_total a.max b.max with h | h
    · exact .inr (by rw [Int.max_eq_right h]; exact hb.max_mem)
    · exact .inl (by rw [Int.max_eq_left h]; exact ha.max_mem)
  le_max v hv := by
    rcases List.mem_append.mp hv with hv | hv
    · have := ha.le_max v hv; simp only [merge_max]; omega
    · have := hb.le_max v hv; simp only [merge_max]; omega
  sum_eq := by simp [ha.sum_eq, hb.sum_eq]
  count_eq := by simp [ha.count_eq, hb.count_eq]

end Stat

open Stat

variable {K : Type} [DecidableEq K]

/-- The aggregation step of `parseChunk` and `parseChunkIDs`: one reading `tenth` of `city`. -/
def aggregate (m : GoMap K Stat) (city : K) (tenth : Int) : GoMap K Stat :=
  upsert m city (Stat.single tenth) (·.add tenth)

theorem mem_aggregate {m : GoMap K Stat} {city k : K} {tenth : Int} :
    k ∈ aggregate m city tenth ↔ k = city ∨ k ∈ m :=
  mem_upsert

theorem lookup_aggregate (m : GoMap K Stat) (city k : K) (tenth : Int) :
    (aggregate m city tenth).lookup k =
      if k = city then mergeOpt (m.lookup k) (some (single tenth)) else m.lookup k := by
  rw [aggregate, lookup_upsert]
  split_ifs with hk
  · subst hk; cases m.lookup k <;> simp [Option.merge, add_eq_merge]
  · rfl

/-! ## Aggregating a sequence of readings -/

/-- The aggregation step applied to each reading of `rs` in turn, from the map `m`. -/
def aggregateAll (m : GoMap K Stat) (rs : List (K × Int)) : GoMap K Stat :=
  rs.foldl (fun m r => aggregate m r.1 r.2) m

/-- The readings of the key `k` in `rs`, in order. -/
def valuesOf (k : K) (rs : List (K × Int)) : List Int :=
  rs.filterMap fun r => if r.1 = k then some r.2 else none

@[simp] theorem aggregateAll_nil (m : GoMap K Stat) : aggregateAll m [] = m := rfl

theorem aggregateAll_append (m : GoMap K Stat) (rs rs' : List (K × Int)) :
    aggregateAll m (rs ++ rs') = aggregateAll (aggregateAll m rs) rs' :=
  List.foldl_append ..

/-- The entry of one key after a sequence of readings: the readings of that key, one by one. -/
theorem lookup_aggregateAll (k : K) :
    ∀ (rs : List (K × Int)) (m : GoMap K Stat), (aggregateAll m rs).lookup k =
      (valuesOf k rs).foldl (fun o t => mergeOpt o (some (single t))) (m.lookup k)
  | [], _ => rfl
  | (city, t) :: rs, m => by
    have ih := lookup_aggregateAll k rs (aggregate m city t)
    simp only [aggregateAll, List.foldl_cons] at ih ⊢
    rw [ih, lookup_aggregate]
    by_cases hk : k = city
    · subst hk; simp [valuesOf]
    · simp [valuesOf, hk, Ne.symm hk]

/-- Adding readings one by one to an entry is merging the entry they create on their own. -/
theorem foldl_single_eq_mergeOpt (o : Option Stat) (vs : List Int) :
    vs.foldl (fun o t => mergeOpt o (some (single t))) o =
      mergeOpt o (vs.foldl (fun o t => mergeOpt o (some (single t))) none) := by
  induction vs generalizing o with
  | nil => simp
  | cons t vs ih =>
    rw [List.foldl_cons, List.foldl_cons, ih, ih (mergeOpt none _), none_mergeOpt, mergeOpt_assoc]

/-- Aggregating readings on top of a map merges, key by key, the map with their own aggregate. -/
theorem lookup_aggregateAll_eq_mergeOpt (m : GoMap K Stat) (rs : List (K × Int)) (k : K) :
    (aggregateAll m rs).lookup k = mergeOpt (m.lookup k) ((aggregateAll ∅ rs).lookup k) := by
  rw [lookup_aggregateAll, lookup_aggregateAll, Finmap.lookup_empty, foldl_single_eq_mergeOpt]

/-- Adding two readings to an entry in either order gives the same entry. -/
theorem mergeOpt_single_right_comm (o : Option Stat) (x y : Int) :
    mergeOpt (mergeOpt o (some (single x))) (some (single y)) =
      mergeOpt (mergeOpt o (some (single y))) (some (single x)) := by
  rw [mergeOpt_assoc, mergeOpt_comm (some _), ← mergeOpt_assoc]

/-- The aggregate of a sequence of readings does not depend on their order. -/
theorem aggregateAll_perm (m : GoMap K Stat) {rs rs' : List (K × Int)} (h : rs.Perm rs') :
    aggregateAll m rs = aggregateAll m rs' :=
  Finmap.ext_lookup fun k => by
    rw [lookup_aggregateAll, lookup_aggregateAll]
    exact (h.filterMap _).foldl_eq' (fun x _ y _ z => mergeOpt_single_right_comm z x y) _

/-- The aggregate of a sequence of readings: a key has an entry iff it has readings, and the entry
summarises them. -/
theorem aggregateAll_summarises (rs : List (K × Int)) (k : K) :
    match (aggregateAll ∅ rs).lookup k with
    | none => valuesOf k rs = []
    | some st => Summarises st (valuesOf k rs) := by
  rw [lookup_aggregateAll, Finmap.lookup_empty]
  generalize valuesOf k rs = vs
  induction vs with
  | nil => rfl
  | cons t vs ih =>
    rw [List.foldl_cons, foldl_single_eq_mergeOpt]
    revert ih
    cases vs.foldl (fun o t => mergeOpt o (some (single t))) none with
    | none => intro ih; subst ih; exact summarises_single t
    | some st => intro ih; exact (summarises_single t).merge ih

end BillionRows
