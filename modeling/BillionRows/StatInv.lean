import BillionRows.ParseChunkIDs
import BillionRows.Merge

/-!
# The `Stat` invariant and the printed average

`main` prints, per station, `sum / count / 10` between `min` and `max`. The division is by a
non-zero count, and the average lies between the two, when the entry satisfies `Stat.Inv`:
`count ≥ 1`, `min ≤ max` and `count * min ≤ sum ≤ count * max` over exact integers
(`Stat.Inv.average`).

`min` and `max` are `int32` fields, so while a count stays below `2^32` the `int64` sum of an
entry lies within `count * [-2^31, 2^31)` and neither it nor the count wraps. Every reading the
scanner produces is an `int32` value, whatever the buffer holds, since `tenth` is computed in
`int32` arithmetic. So, as long as the counts of the map and the readings added to it stay below
`2^32`, adding readings (`parseChunk`, `parseChunkIDs`) and the merge loop of `main` keep every
entry valid (`Stat.Valid`: `Inv` and `int32` bounds), whatever the buffer and whatever the order of
the maps and of their entries.
-/

namespace BillionRows

/-- `x` is an `int32` value. -/
def InInt32 (x : Int) : Prop := -2 ^ 31 ≤ x ∧ x < 2 ^ 31

theorem inInt32_wrap32 (x : Int) : InInt32 (wrap32 x) :=
  ⟨le_trans (by norm_num) (Int.le_bmod (x := x) (m := 2 ^ 32) (by norm_num)),
    lt_of_lt_of_le (Int.bmod_lt (x := x) (m := 2 ^ 32) (by norm_num)) (by norm_num)⟩

/-- Every reading of the scanner is an `int32` value. -/
theorem parseTenth_inInt32 (r : Bytes) : InInt32 (parseTenth r).1 :=
  inInt32_wrap32 _

theorem recordsLoop_inInt32 : ∀ (fuel : Nat) (buf : Bytes), ∀ r ∈ recordsLoop fuel buf, InInt32 r.2
  | 0, _ => by simp [recordsLoop]
  | fuel + 1, buf => by
    unfold recordsLoop scanRecord
    rcases findSemi [] buf with _ | ⟨city, v⟩
    · simp
    · simp only [Option.map_some', List.mem_cons, forall_eq_or_imp]
      exact ⟨parseTenth_inInt32 v, recordsLoop_inInt32 fuel _⟩

theorem records_inInt32 (buf : Bytes) : ∀ r ∈ records buf, InInt32 r.2 :=
  recordsLoop_inInt32 _ _

/-! ## Valid entries -/

namespace Stat

/-- The invariant of an entry, over exact integers. -/
structure Inv (st : Stat) : Prop where
  one_le_count : 1 ≤ st.count
  min_le_max : st.min ≤ st.max
  count_mul_min_le : st.count * st.min ≤ st.sum
  sum_le_count_mul_max : st.sum ≤ st.count * st.max

/-- An entry as Go holds it and as `main` needs it: the invariant, with `int32` `min` and `max`. -/
structure Valid (st : Stat) extends st.Inv : Prop where
  min_int32 : -2 ^ 31 ≤ st.min
  max_int32 : st.max < 2 ^ 31

/-- The printed average `sum / count` is a division by a non-zero count, and lies between `min`
and `max`. -/
theorem Inv.average {st : Stat} (h : st.Inv) :
    st.count ≠ 0 ∧ (st.min : ℚ) ≤ st.sum / st.count ∧ (st.sum : ℚ) / st.count ≤ st.max := by
  have hc : (0 : ℚ) < st.count := by exact_mod_cast (show 0 < st.count by linarith [h.one_le_count])
  refine ⟨by linarith [h.one_le_count], ?_, ?_⟩
  · rw [le_div_iff₀ hc, mul_comm]
    exact_mod_cast h.count_mul_min_le
  · rw [div_le_iff₀ hc, mul_comm]
    exact_mod_cast h.sum_le_count_mul_max

/-- The `int64` sum of a valid entry lies within `count * [-2^31, 2^31)`. -/
theorem Valid.sum_bounds {st : Stat} (h : st.Valid) :
    -2 ^ 31 * st.count ≤ st.sum ∧ st.sum ≤ (2 ^ 31 - 1) * st.count := by
  have hc : 0 ≤ st.count := le_trans zero_le_one h.one_le_count
  constructor
  · calc -2 ^ 31 * st.count = st.count * -2 ^ 31 := mul_comm _ _
      _ ≤ st.count * st.min := mul_le_mul_of_nonneg_left h.min_int32 hc
      _ ≤ st.sum := h.count_mul_min_le
  · calc st.sum ≤ st.count * st.max := h.sum_le_count_mul_max
      _ ≤ st.count * (2 ^ 31 - 1) := mul_le_mul_of_nonneg_left (by have := h.max_int32; omega) hc
      _ = (2 ^ 31 - 1) * st.count := mul_comm _ _

theorem valid_single {t : Int} (ht : InInt32 t) : (single t).Valid :=
  have hw : wrap64 t = t := wrap64_of_range (by linarith [ht.1]) (by linarith [ht.2])
  ⟨⟨le_refl 1, le_refl t, by simp [single, hw], by simp [single, hw]⟩, ht.1, ht.2⟩

/-- Merging two valid entries whose counts add up to less than `2^32` gives a valid entry, with
the sums and the counts added exactly. -/
theorem Valid.merge {a b : Stat} (ha : a.Valid) (hb : b.Valid) (hc : a.count + b.count < 2 ^ 32) :
    (a.merge b).Valid ∧ (a.merge b).count = a.count + b.count := by
  have ha₁ := ha.one_le_count
  have ha₀ : 0 ≤ a.count := by omega
  have hb₀ : 0 ≤ b.count := by linarith [hb.one_le_count]
  obtain ⟨hsa₁, hsa₂⟩ := ha.sum_bounds
  obtain ⟨hsb₁, hsb₂⟩ := hb.sum_bounds
  have hsum : (a.merge b).sum = a.sum + b.sum := wrap64_of_range (by omega) (by omega)
  have hcount : (a.merge b).count = a.count + b.count := wrap64_of_range (by omega) (by omega)
  refine ⟨⟨⟨by omega, ?_, ?_, ?_⟩, ?_, ?_⟩, hcount⟩
  · simp only [merge_min, merge_max]
    exact le_trans (min_le_left _ _) (le_trans ha.min_le_max (le_max_left _ _))
  · rw [hsum, hcount, merge_min]
    calc (a.count + b.count) * Min.min a.min b.min
        = a.count * Min.min a.min b.min + b.count * Min.min a.min b.min := add_mul _ _ _
      _ ≤ a.count * a.min + b.count * b.min :=
        add_le_add (mul_le_mul_of_nonneg_left (min_le_left _ _) ha₀)
          (mul_le_mul_of_nonneg_left (min_le_right _ _) hb₀)
      _ ≤ a.sum + b.sum := add_le_add ha.count_mul_min_le hb.count_mul_min_le
  · rw [hsum, hcount, merge_max]
    calc a.sum + b.sum ≤ a.count * a.max + b.count * b.max :=
        add_le_add ha.sum_le_count_mul_max hb.sum_le_count_mul_max
      _ ≤ a.count * Max.max a.max b.max + b.count * Max.max a.max b.max :=
        add_le_add (mul_le_mul_of_nonneg_left (le_max_left _ _) ha₀)
          (mul_le_mul_of_nonneg_left (le_max_right _ _) hb₀)
      _ = (a.count + b.count) * Max.max a.max b.max := (add_mul _ _ _).symm
  · rw [merge_min]
    exact le_min ha.min_int32 hb.min_int32
  · rw [merge_max]
    exact max_lt ha.max_int32 hb.max_int32

end Stat

/-! ## Optional entries -/

open Stat

/-- The count of an optional entry, `0` for a missing one. -/
def countOpt : Option Stat → Int
  | none => 0
  | some st => st.count

@[simp] theorem countOpt_none : countOpt none = 0 := rfl

@[simp] theorem countOpt_some (st : Stat) : countOpt (some st) = st.count := rfl

theorem countOpt_nonneg {o : Option Stat} (h : ∀ st ∈ o, st.Valid) : 0 ≤ countOpt o := by
  cases o with
  | none => exact le_refl 0
  | some st => exact le_trans zero_le_one (h st rfl).one_le_count

/-- Merging two optional entries, each missing or valid, whose counts add up to less than `2^32`:
the result is missing or valid, and its count is the sum. -/
theorem mergeOpt_valid {a b : Option Stat} (ha : ∀ st ∈ a, st.Valid) (hb : ∀ st ∈ b, st.Valid)
    (hc : countOpt a + countOpt b < 2 ^ 32) :
    (∀ st ∈ mergeOpt a b, st.Valid) ∧ countOpt (mergeOpt a b) = countOpt a + countOpt b := by
  cases a with
  | none => simpa [countOpt] using hb
  | some a =>
    cases b with
    | none => simpa [countOpt] using ha
    | some b =>
      obtain ⟨hv, hcount⟩ := (ha a rfl).merge (hb b rfl) hc
      simpa [Option.merge, countOpt] using ⟨hv, hcount⟩

/-- Merging optional entries in turn, each missing or valid, whose counts add up to less than
`2^32`: the result is missing or valid, and its count is the sum. -/
theorem foldl_mergeOpt_valid :
    ∀ (os : List (Option Stat)) (o : Option Stat), (∀ st ∈ o, st.Valid) →
      (∀ x ∈ os, ∀ st ∈ x, st.Valid) → countOpt o + (os.map countOpt).sum < 2 ^ 32 →
      (∀ st ∈ os.foldl mergeOpt o, st.Valid) ∧
        countOpt (os.foldl mergeOpt o) = countOpt o + (os.map countOpt).sum
  | [], o, ho, _, _ => ⟨ho, by simp⟩
  | x :: os, o, ho, hos, hc => by
    rw [List.forall_mem_cons] at hos
    have hnn : 0 ≤ (os.map countOpt).sum :=
      List.sum_nonneg (by simpa using fun y hy => countOpt_nonneg (hos.2 y hy))
    rw [List.map_cons, List.sum_cons] at hc ⊢
    obtain ⟨hv, hcount⟩ := mergeOpt_valid ho hos.1 (by omega)
    obtain ⟨hv', hcount'⟩ := foldl_mergeOpt_valid os _ hv hos.2 (by omega)
    exact ⟨hv', by rw [List.foldl_cons, hcount', hcount, add_assoc]⟩

/-! ## Maps -/

variable {K : Type} [DecidableEq K]

/-- Every entry of `m` is valid. -/
def EntriesValid (m : GoMap K Stat) : Prop := ∀ k, ∀ st ∈ m.lookup k, st.Valid

/-- The sum of the counts of the entries of `m`. -/
def totalCount (m : GoMap K Stat) : Int := (m.entries.map fun e => e.2.count).sum

theorem entriesValid_empty : EntriesValid (∅ : GoMap K Stat) := by
  simp [EntriesValid]

theorem EntriesValid.countOpt_le {m : GoMap K Stat} (hm : EntriesValid m) (k : K) :
    countOpt (m.lookup k) ≤ totalCount m := by
  have hnn : ∀ x ∈ m.entries.map (fun e => e.2.count), 0 ≤ x := by
    simp only [Multiset.mem_map]
    rintro _ ⟨⟨k', st⟩, he, rfl⟩
    exact le_trans zero_le_one (hm k' st (Finmap.mem_lookup_iff.mpr he)).one_le_count
  rcases hk : m.lookup k with _ | st
  · exact Multiset.sum_nonneg hnn
  · exact Multiset.single_le_sum hnn _
      (Multiset.mem_map_of_mem _ (Finmap.lookup_eq_some_iff.mp hk))

theorem inInt32_of_mem_valuesOf {rs : List (K × Int)} (hrs : ∀ r ∈ rs, InInt32 r.2) {k : K}
    {t : Int} (ht : t ∈ valuesOf k rs) : InInt32 t := by
  obtain ⟨r, hr, hrt⟩ := List.mem_filterMap.mp ht
  split_ifs at hrt
  exact Option.some.inj hrt ▸ hrs r hr

/-- Aggregating `int32` readings into a valid map, with its counts and the readings fewer than
`2^32`, keeps every entry valid. -/
theorem EntriesValid.aggregateAll {m : GoMap K Stat} (hm : EntriesValid m)
    {rs : List (K × Int)} (hrs : ∀ r ∈ rs, InInt32 r.2) (hc : totalCount m + rs.length < 2 ^ 32) :
    EntriesValid (aggregateAll m rs) := fun k => by
  rw [lookup_aggregateAll, ← List.foldl_map (fun t => some (single t)) mergeOpt]
  have hsum : (((valuesOf k rs).map fun t => some (single t)).map countOpt).sum =
      (valuesOf k rs).length := by
    simp [Function.comp_def, single]
  have : (valuesOf k rs).length ≤ rs.length := List.length_filterMap_le _ _
  have := hm.countOpt_le k
  refine (foldl_mergeOpt_valid _ _ (hm k) ?_ (by omega)).1
  simp only [List.mem_map, Option.mem_def]
  rintro _ ⟨t, ht, rfl⟩ st ⟨⟩
  exact valid_single (inInt32_of_mem_valuesOf hrs ht)

/-- The merge loop of `main` over valid maps, from a valid global map, with all their counts
fewer than `2^32`, keeps every entry valid, whatever the order of the maps and of their entries. -/
theorem EntriesValid.mergeLoop {locals : List (GoMap K Stat)}
    {orders : List (List (Σ _ : K, Stat))} (ho : List.Forall₂ RangeOrder locals orders)
    (hl : ∀ m ∈ locals, EntriesValid m) {global : GoMap K Stat} (hg : EntriesValid global)
    (hc : totalCount global + (locals.map totalCount).sum < 2 ^ 32) :
    EntriesValid (mergeLoop global orders) := fun k => by
  rw [lookup_mergeLoop k ho]
  have hle : ((locals.map fun m => m.lookup k).map countOpt).sum ≤ (locals.map totalCount).sum := by
    rw [List.map_map]
    exact List.sum_le_sum fun m hm => (hl m hm).countOpt_le k
  have := hg.countOpt_le k
  refine (foldl_mergeOpt_valid _ _ (hg k) ?_ (by omega)).1
  simp only [List.mem_map]
  rintro _ ⟨m, hm, rfl⟩
  exact hl m hm k

/-! ## Through the program -/

/-- `parseChunkIDs` aggregates the readings of its buffer, each under some id. -/
theorem foldlM_aggregateID_eq_aggregateAll :
    ∀ (rs : List (Bytes × Int)) (m : GoMap Int Stat) (intern : Intern) {m' : GoMap Int Stat}
      {intern' : Intern}, rs.foldlM aggregateID (m, intern) = some (m', intern') →
      ∃ rs' : List (Int × Int), rs'.map Prod.snd = rs.map Prod.snd ∧ m' = aggregateAll m rs'
  | [], m, intern, m', intern', h => by
    simp only [List.foldlM_nil, Option.pure_def, Option.some.injEq, Prod.mk.injEq] at h
    exact ⟨[], rfl, h.1.symm⟩
  | (city, t) :: rs, m, intern, m', intern', h => by
    simp only [List.foldlM_cons, aggregateID, Option.bind_eq_bind] at h
    rcases hg : intern.getOrAdd city with _ | ⟨id, intern₁⟩
    · simp [hg] at h
    · simp only [hg, Option.map_some', Option.some_bind] at h
      obtain ⟨rs', hmap, rfl⟩ := foldlM_aggregateID_eq_aggregateAll rs _ _ h
      exact ⟨(id, t) :: rs', by simp [hmap], rfl⟩

/-- The `Stat` invariant through the program. Aggregating a buffer, well formed or not, into a
valid map with `parseChunk` or `parseChunkIDs`, and the merge loop of `main` over valid maps into
a valid global map, leave every entry valid while the counts stay below `2^32`. So every entry of
the merged map has a non-zero count, and its average lies between its minimum and maximum. -/
theorem stat_inv_preserved :
    (∀ (buf : Bytes) (m : GoMap Bytes Stat), EntriesValid m →
      totalCount m + (records buf).length < 2 ^ 32 → EntriesValid (parseChunk buf m)) ∧
    (∀ (buf : Bytes) (m m' : GoMap Int Stat) (intern intern' : Intern), EntriesValid m →
      totalCount m + (records buf).length < 2 ^ 32 →
      parseChunkIDs buf m intern = some (m', intern') → EntriesValid m') ∧
    (∀ {K : Type} [DecidableEq K] (locals : List (GoMap K Stat))
      (orders : List (List (Σ _ : K, Stat))) (global : GoMap K Stat),
      List.Forall₂ RangeOrder locals orders → (∀ m ∈ locals, EntriesValid m) →
      EntriesValid global → totalCount global + (locals.map totalCount).sum < 2 ^ 32 →
      EntriesValid (mergeLoop global orders) ∧
        ∀ k st, (mergeLoop global orders).lookup k = some st →
          st.count ≠ 0 ∧ (st.min : ℚ) ≤ st.sum / st.count ∧ (st.sum : ℚ) / st.count ≤ st.max) := by
  refine ⟨fun buf m hm hc => ?_, fun buf m m' intern intern' hm hc h => ?_,
    fun locals orders global ho hl hg hc => ?_⟩
  · rw [parseChunk_eq]
    exact hm.aggregateAll (records_inInt32 buf) hc
  · rw [parseChunkIDs_eq] at h
    obtain ⟨rs', hmap, rfl⟩ := foldlM_aggregateID_eq_aggregateAll _ _ _ h
    have hlen : rs'.length = (records buf).length := by
      simpa using congrArg List.length hmap
    refine hm.aggregateAll (fun r hr => ?_) (hlen ▸ hc)
    obtain ⟨r₀, hr₀, heq⟩ := List.mem_map.mp (hmap ▸ List.mem_map_of_mem Prod.snd hr)
    exact heq ▸ records_inInt32 buf r₀ hr₀
  · have hv := hg.mergeLoop ho hl hc
    exact ⟨hv, fun k st hk => (hv k st hk).average⟩

theorem stat_inv_preserved_sample :
    let orders : List (List (Σ _ : Bytes, Stat)) :=
      [[⟨[65], ⟨10, 10, 10, 1⟩⟩], [⟨[66], ⟨30, 30, 30, 1⟩⟩, ⟨[65], ⟨20, 20, 20, 1⟩⟩]]
    EntriesValid (parseChunk [65, 59, 50, 10, 66, 59, 51, 10] (parseChunk [65, 59, 49, 10] ∅)) ∧
    (∃ m' intern',
      parseChunkIDs [65, 59, 49, 10, 65, 59, 50, 10] ∅ Intern.new = some (m', intern') ∧
        EntriesValid m') ∧
    List.Forall₂ RangeOrder
      [parseChunk [65, 59, 49, 10] ∅, parseChunk [65, 59, 50, 10, 66, 59, 51, 10] ∅] orders ∧
    EntriesValid (mergeLoop ∅ orders) ∧
      ∀ k st, (mergeLoop ∅ orders).lookup k = some st →
        st.count ≠ 0 ∧ (st.min : ℚ) ≤ st.sum / st.count ∧ (st.sum : ℚ) / st.count ≤ st.max :=
  have hA : EntriesValid (parseChunk [65, 59, 49, 10] ∅) :=
    stat_inv_preserved.1 _ _ entriesValid_empty (by decide)
  have hAB : EntriesValid (parseChunk [65, 59, 50, 10, 66, 59, 51, 10] ∅) :=
    stat_inv_preserved.1 _ _ entriesValid_empty (by decide)
  have horders : List.Forall₂ RangeOrder
      [parseChunk [65, 59, 49, 10] ∅, parseChunk [65, 59, 50, 10, 66, 59, 51, 10] ∅]
      [[⟨[65], ⟨10, 10, 10, 1⟩⟩], [⟨[66], ⟨30, 30, 30, 1⟩⟩, ⟨[65], ⟨20, 20, 20, 1⟩⟩]] := by
    decide
  have hlocals :
      ∀ m ∈ [parseChunk [65, 59, 49, 10] ∅, parseChunk [65, 59, 50, 10, 66, 59, 51, 10] ∅],
        EntriesValid m := by
    simp only [List.mem_cons, List.not_mem_nil, or_false]
    rintro m (rfl | rfl)
    exacts [hA, hAB]
  ⟨stat_inv_preserved.1 _ _ hA (by decide),
    ⟨_, _, rfl, stat_inv_preserved.2.1 [65, 59, 49, 10, 65, 59, 50, 10] _ _ Intern.new _
      entriesValid_empty (by decide) rfl⟩, horders,
    stat_inv_preserved.2.2 _ _ _ horders hlocals entriesValid_empty (by decide)⟩

end BillionRows
