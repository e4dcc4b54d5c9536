import BillionRows.Intern

/-!
# `parseChunkIDs`: the scanner with interned keys

`parseChunkIDs` (`src/unnamed/part_000`) is `parseChunk` with the key `buf[lineStart:semi]`
replaced by `intern.GetOrAdd(buf[lineStart:semi])`. Run from a single goroutine on an interner
reached by sequential calls, the id-keyed map it builds is `parseChunk`'s map with every name
replaced by its id (`Renames`), as long as the interner holds at most `2^31` names; resolving the
ids through `Name` then gives back exactly `parseChunk`'s map (`parseChunkIDs_resolvesTo`). Past
`2^31` names, `int32(len(in.names))` wraps to a negative id that `Name` cannot resolve
(`parseChunkIDs_wraps`).
-/

namespace BillionRows

/-- One reading of `parseChunkIDs`: `cityID := intern.GetOrAdd(city)`, then the aggregation under
`cityID`. -/
def aggregateID (s : GoMap Int Stat × Intern) (r : Bytes × Int) :
    Option (GoMap Int Stat × Intern) :=
  (s.2.getOrAdd r.1).map fun (cityID, intern) => (aggregate s.1 cityID r.2, intern)

/-- The outer loop of `parseChunkIDs` with at most `fuel` turns; `none` if `GetOrAdd` panics. -/
def parseChunkIDsLoop :
    Nat → Bytes → GoMap Int Stat → Intern → Option (GoMap Int Stat × Intern)
  | 0, _, m, intern => some (m, intern)
  | fuel + 1, buf, m, intern =>
    match scanRecord buf with
    | none => some (m, intern)
    | some ((city, tenth), rest) =>
      (intern.getOrAdd city).bind fun (cityID, intern) =>
        parseChunkIDsLoop fuel rest (aggregate m cityID tenth) intern

/-- `parseChunkIDs(buf, m, intern)`: the map `m` and the interner after the scan. -/
def parseChunkIDs (buf : Bytes) (m : GoMap Int Stat) (intern : Intern) :
    Option (GoMap Int Stat × Intern) :=
  parseChunkIDsLoop buf.length buf m intern

theorem parseChunkIDsLoop_eq (fuel : Nat) (buf : Bytes) (m : GoMap Int Stat) (intern : Intern) :
    parseChunkIDsLoop fuel buf m intern =
      (recordsLoop fuel buf).foldlM aggregateID (m, intern) := by
  induction fuel generalizing buf m intern with
  | zero => rfl
  | succ n ih =>
    simp only [parseChunkIDsLoop, recordsLoop]
    rcases scanRecord buf with _ | ⟨⟨city, tenth⟩, rest⟩
    · rfl
    · simp only [List.foldlM_cons, aggregateID]
      rcases intern.getOrAdd city with _ | ⟨cityID, intern'⟩
      · rfl
      · exact ih _ _ _

/-- `parseChunkIDs` takes the readings of the buffer in order. -/
theorem parseChunkIDs_eq (buf : Bytes) (m : GoMap Int Stat) (intern : Intern) :
    parseChunkIDs buf m intern = (records buf).foldlM aggregateID (m, intern) :=
  parseChunkIDsLoop_eq _ _ _ _

/-! ## Interners reached by sequential calls -/

/-- The interners reached from `newIntern()` by sequential `GetOrAdd` calls that do not panic. -/
inductive Intern.Reachable : Intern → Prop
  | new : Intern.Reachable Intern.new
  | getOrAdd {intern intern' : Intern} {b : Bytes} {id : Int} :
      Intern.Reachable intern → intern.getOrAdd b = some (id, intern') → Intern.Reachable intern'

/-- `GetOrAdd` keeps the names or appends its key. -/
theorem Intern.getOrAdd_names {intern intern' : Intern} {b : Bytes} {id : Int}
    (h : intern.getOrAdd b = some (id, intern')) :
    intern'.names = intern.names ∨ intern'.names = intern.names ++ [b] := by
  unfold Intern.getOrAdd at h
  rcases hf : findId intern.names b (intern.bucket (fnv1a64 b)) with _ | _ | i <;>
    rw [hf] at h <;> simp at h
  · exact .inr (by rw [show intern' = (intern.register b).2 by rw [h]]; rfl)
  · exact .inl (by rw [← h.2])

theorem Intern.Valid.getOrAdd_cases {intern intern' : Intern} (hv : intern.Valid) {b : Bytes}
    {id : Int} (h : intern.getOrAdd b = some (id, intern')) :
    (b ∈ intern.names ∧ intern' = intern) ∨
      (b ∉ intern.names ∧ (id, intern') = intern.register b) := by
  by_cases hb : b ∈ intern.names
  · obtain ⟨i, hi⟩ := List.mem_iff_getElem?.mp hb
    rw [hv.getOrAdd_of_mem hi] at h
    exact .inl ⟨hb, (Prod.mk.inj (Option.some.inj h)).2.symm⟩
  · rw [hv.getOrAdd_of_not_mem hb] at h
    exact .inr ⟨hb, (Option.some.inj h).symm⟩

/-- An interner reached by sequential calls satisfies the invariant while its ids fit `int32`. -/
theorem Intern.Reachable.valid {intern : Intern} (h : intern.Reachable)
    (hlen : intern.names.length ≤ 2 ^ 31) : intern.Valid := by
  induction h with
  | new => exact Intern.valid_new
  | @getOrAdd intern intern' b id _ hstep ih =>
    have hle : intern.names.length ≤ intern'.names.length := by
      rcases Intern.getOrAdd_names hstep with h | h <;> simp [h]
    have hv := ih (le_trans hle hlen)
    rcases hv.getOrAdd_cases hstep with ⟨-, rfl⟩ | ⟨hb, hreg⟩
    · exact hv
    · rw [show intern' = (intern.register b).2 from (congrArg Prod.snd hreg)] at hlen ⊢
      simp only [Intern.names_register, List.length_append, List.length_singleton] at hlen
      exact hv.register hb (by omega)

/-! ## Simulation of `parseChunk` -/

/-- The id-keyed map `m` is the name-keyed map `M` with every name replaced by its index in
`names`. -/
structure Renames (names : List Bytes) (m : GoMap Int Stat) (M : GoMap Bytes Stat) : Prop where
  lookup_index : ∀ (i : Nat) s, names[i]? = some s → m.lookup (i : Int) = M.lookup s
  mem_names : ∀ s ∈ M, s ∈ names
  index_mem : ∀ id ∈ m, ∃ s, goIndex names id = some s

theorem renames_empty (names : List Bytes) : Renames names ∅ ∅ where
  lookup_index := by simp
  mem_names := by simp [Finmap.not_mem_empty]
  index_mem := by simp [Finmap.not_mem_empty]

section Renames

variable {names names' : List Bytes} {m : GoMap Int Stat} {M : GoMap Bytes Stat}

/-- Names appended to the table stand for no entry yet. -/
theorem Renames.mono (hr : Renames names m M) (t : List Bytes) (hnd : (names ++ t).Nodup) :
    Renames (names ++ t) m M where
  lookup_index i s hi := by
    rcases Nat.lt_or_ge i names.length with hlt | hge
    · rw [List.getElem?_append_left hlt] at hi
      exact hr.lookup_index i s hi
    · have hnot : s ∉ names := fun hs => by
        obtain ⟨j, hj⟩ := List.mem_iff_getElem?.mp hs
        have hjlt := (List.getElem?_eq_some_iff.mp hj).1
        rw [← (List.getElem?_append_left hjlt : (names ++ t)[j]? = names[j]?)] at hj
        have := List.getElem?_inj (List.getElem?_eq_some_iff.mp hj).1 hnd (hj.trans hi.symm)
        omega
      have hm : (i : Int) ∉ m := fun hi' => by
        obtain ⟨s', hs'⟩ := hr.index_mem _ hi'
        rw [goIndex_natCast, List.getElem?_eq_none hge] at hs'
        cases hs'
      rw [Finmap.lookup_eq_none.mpr hm, Finmap.lookup_eq_none.mpr fun h => hnot (hr.mem_names s h)]
  mem_names s hs := List.mem_append_left t (hr.mem_names s hs)
  index_mem id hid := by
    obtain ⟨s, hs⟩ := hr.index_mem id hid
    exact ⟨s, goIndex_append t hs⟩

/-- One reading, aggregated under the id of its name and under its name. -/
theorem Renames.aggregate (hr : Renames names m M) (hnd : names.Nodup) {id : Int} {city : Bytes}
    (hid : goIndex names id = some city) (tenth : Int) :
    Renames names (aggregate m id tenth) (aggregate M city tenth) where
  lookup_index i s hi := by
    have hiff : (i : Int) = id ↔ s = city := by
      have hid0 : 0 ≤ id := by by_contra h; simp [goIndex_neg _ (Int.not_le.mp h)] at hid
      obtain ⟨n, rfl⟩ := Int.eq_ofNat_of_zero_le hid0
      rw [goIndex_natCast] at hid
      constructor
      · intro h; rw [Int.ofNat_inj.mp h] at hi; exact Option.some.inj (hi.symm.trans hid)
      · rintro rfl
        exact congrArg _
          (List.getElem?_inj (List.getElem?_eq_some_iff.mp hi).1 hnd (hi.trans hid.symm))
    rw [lookup_aggregate, lookup_aggregate, hr.lookup_index i s hi]
    by_cases h : (i : Int) = id
    · rw [if_pos h, if_pos (hiff.mp h)]
    · rw [if_neg h, if_neg (mt hiff.mpr h)]
  mem_names s hs := by
    rcases mem_aggregate.mp hs with rfl | hs
    · unfold goIndex at hid; split_ifs at hid; exact List.getElem?_mem hid
    · exact hr.mem_names s hs
  index_mem id' hid' := by
    rcases mem_aggregate.mp hid' with rfl | hid'
    · exact ⟨city, hid⟩
    · exact hr.index_mem id' hid'

end Renames

/-- `GetOrAdd` on a valid interner that holds the key or has room for it: no panic, the invariant
kept, the returned id names the key, and the names grow by the key at most. -/
theorem Intern.Valid.getOrAdd_spec {intern : Intern} (hv : intern.Valid) {b : Bytes}
    (hroom : b ∈ intern.names ∨ intern.names.length < 2 ^ 31) :
    ∃ id intern', intern.getOrAdd b = some (id, intern') ∧ intern'.Valid ∧
      goIndex intern'.names id = some b ∧ ∃ t ⊆ [b], intern'.names = intern.names ++ t := by
  by_cases hb : b ∈ intern.names
  · obtain ⟨i, hi⟩ := List.mem_iff_getElem?.mp hb
    exact ⟨i, intern, hv.getOrAdd_of_mem hi, hv, by simpa using hi, [], List.nil_subset _, by simp⟩
  · have hlen := hroom.resolve_left hb
    refine ⟨_, _, hv.getOrAdd_of_not_mem hb, hv.register hb hlen, ?_, [b], List.Subset.refl _, rfl⟩
    simp [wrap32_of_range (show -2 ^ 31 ≤ (intern.names.length : Int) by omega) (by omega)]

/-- One reading through `GetOrAdd` and the aggregation: the id-keyed map stays the renaming of the
name-keyed one, and every map renamed through the old names is renamed through the new ones. -/
theorem Intern.Valid.aggregateID_spec {intern : Intern} (hv : intern.Valid) {city : Bytes}
    (hroom : city ∈ intern.names ∨ intern.names.length < 2 ^ 31) {m : GoMap Int Stat}
    {M : GoMap Bytes Stat} (hr : Renames intern.names m M) (tenth : Int) :
    ∃ m' intern', aggregateID (m, intern) (city, tenth) = some (m', intern') ∧ intern'.Valid ∧
      Renames intern'.names m' (aggregate M city tenth) ∧
      (∀ m₂ M₂, Renames intern.names m₂ M₂ → Renames intern'.names m₂ M₂) ∧
      city ∈ intern'.names ∧ ∃ t ⊆ [city], intern'.names = intern.names ++ t := by
  obtain ⟨id, intern', h, hv', hid, t, ht, hnames⟩ := hv.getOrAdd_spec hroom
  have hmono : ∀ m₂ M₂, Renames intern.names m₂ M₂ → Renames intern'.names m₂ M₂ :=
    fun m₂ M₂ hr₂ => hnames ▸ hr₂.mono t (hnames ▸ hv'.nodup)
  obtain ⟨n, -, hn⟩ := goIndex_eq_some hid
  exact ⟨_, intern', by simp [aggregateID, h], hv', (hmono m M hr).aggregate hv'.nodup hid tenth,
    hmono, List.getElem?_mem hn, t, ht, hnames⟩

/-- A key of `keys` is interned already, or there is room for it, when the names are distinct
keys of `keys` and there are at most `2^31` of those. -/
theorem mem_or_length_lt {names keys : List Bytes} (hnd : names.Nodup)
    (hsub : ∀ s ∈ names, s ∈ keys) (hroom : keys.toFinset.card ≤ 2 ^ 31) {city : Bytes}
    (hc : city ∈ keys) : city ∈ names ∨ names.length < 2 ^ 31 := by
  by_cases h : city ∈ names
  · exact .inl h
  · have hins : insert city names.toFinset ⊆ keys.toFinset := by
      intro x
      simp only [Finset.mem_insert, List.mem_toFinset]
      rintro (rfl | hx)
      exacts [hc, hsub x hx]
    have := Finset.card_le_card hins
    rw [Finset.card_insert_of_not_mem (by simpa using h), List.toFinset_card_of_nodup hnd] at this
    omega

/-- Sequential `GetOrAdd` and aggregation over a sequence of readings, from a valid interner with
room for their keys: no panic, the invariant holds after, and the id-keyed map stays the renaming
of the name-keyed aggregate. -/
theorem foldlM_aggregateID :
    ∀ (rs : List (Bytes × Int)) (m : GoMap Int Stat) (M : GoMap Bytes Stat) (intern : Intern),
      intern.Valid → Renames intern.names m M →
      (intern.names ++ rs.map Prod.fst).toFinset.card ≤ 2 ^ 31 →
      ∃ m' intern', rs.foldlM aggregateID (m, intern) = some (m', intern') ∧ intern'.Valid ∧
        intern'.names.toFinset = (intern.names ++ rs.map Prod.fst).toFinset ∧
        Renames intern'.names m' (aggregateAll M rs)
  | [], m, M, intern, hv, hr, _ => ⟨m, intern, rfl, hv, by simp, hr⟩
  | (city, tenth) :: rs, m, M, intern, hv, hr, hroom => by
    obtain ⟨m₁, intern₁, h₁, hv₁, hr₁, -, hc, t, ht, hnames⟩ := hv.aggregateID_spec
      (mem_or_length_lt hv.nodup (fun _ => List.mem_append_left _) hroom (show city ∈ _ by simp))
      hr tenth
    have hset : (intern₁.names ++ rs.map Prod.fst).toFinset =
        (intern.names ++ ((city, tenth) :: rs).map Prod.fst).toFinset := by
      ext x
      rw [hnames] at hc ⊢
      simp only [List.mem_toFinset, List.mem_append, List.map_cons, List.mem_cons]
      constructor
      · rintro ((hx | hx) | hx)
        exacts [.inl hx, .inr (.inl (List.mem_singleton.mp (ht hx))), .inr (.inr hx)]
      · rintro (hx | rfl | hx)
        exacts [.inl (.inl hx), .inl (List.mem_append.mp hc), .inr hx]
    obtain ⟨m', intern', h, hv', hn', hr'⟩ :=
      foldlM_aggregateID rs m₁ _ intern₁ hv₁ hr₁ (hset ▸ hroom)
    exact ⟨m', intern', by simp [h₁, h], hv', hn'.trans hset, hr'⟩

/-! ## Resolving the ids -/

/-- Resolving the ids of `m` through `intern.Name` gives exactly `M`: every id names a key of `M`
with the same entry, every key of `M` is the name of an id of `m` with the same entry, and no two
ids of `m` carry the same name. -/
structure ResolvesTo (intern : Intern) (m : GoMap Int Stat) (M : GoMap Bytes Stat) : Prop where
  resolve : ∀ id st, m.lookup id = some st → ∃ s, intern.name id = some s ∧ M.lookup s = some st
  cover : ∀ s st, M.lookup s = some st → ∃ id, m.lookup id = some st ∧ intern.name id = some s
  injective : ∀ id₁ ∈ m, ∀ id₂ ∈ m, intern.name id₁ = intern.name id₂ → id₁ = id₂

theorem Renames.resolvesTo {intern : Intern} {m : GoMap Int Stat} {M : GoMap Bytes Stat}
    (hr : Renames intern.names m M) (hnd : intern.names.Nodup) : ResolvesTo intern m M where
  resolve id st h := by
    obtain ⟨s, hs⟩ := hr.index_mem id (Finmap.mem_of_lookup_eq_some h)
    obtain ⟨n, rfl, hn⟩ := goIndex_eq_some hs
    exact ⟨s, hs, (hr.lookup_index n s hn).symm.trans h⟩
  cover s st h := by
    obtain ⟨n, hn⟩ := List.mem_iff_getElem?.mp (hr.mem_names s (Finmap.mem_of_lookup_eq_some h))
    exact ⟨n, (hr.lookup_index n s hn).trans h, by rw [Intern.name, goIndex_natCast]; exact hn⟩
  injective id₁ h₁ id₂ h₂ heq := by
    obtain ⟨s₁, hs₁⟩ := hr.index_mem id₁ h₁
    obtain ⟨s₂, hs₂⟩ := hr.index_mem id₂ h₂
    obtain ⟨n₁, rfl, hn₁⟩ := goIndex_eq_some hs₁
    obtain ⟨n₂, rfl, hn₂⟩ := goIndex_eq_some hs₂
    simp only [Intern.name, goIndex_natCast] at heq
    rw [List.getElem?_inj (List.getElem?_eq_some_iff.mp hn₁).1 hnd heq]

/-- `parseChunkIDs` from a single goroutine, on an empty map and an interner reached by sequential
`GetOrAdd` calls with room for the keys of the buffer (its names and the distinct keys number at
most `2^31`): no panic, and resolving the ids of the map through `Name` gives exactly
`parseChunk`'s map, over all shards and buckets and whatever the hashes. -/
theorem parseChunkIDs_resolvesTo (buf : Bytes) {intern : Intern} (hreach : intern.Reachable)
    (hroom : intern.names.length + ((records buf).map Prod.fst).toFinset.card ≤ 2 ^ 31) :
    ∃ m intern', parseChunkIDs buf ∅ intern = some (m, intern') ∧
      ResolvesTo intern' m (parseChunk buf ∅) := by
  have hv := hreach.valid (by omega)
  have hcard : (intern.names ++ (records buf).map Prod.fst).toFinset.card ≤ 2 ^ 31 := by
    rw [List.toFinset_append]
    refine le_trans (Finset.card_union_le _ _) ?_
    rw [List.toFinset_card_of_nodup hv.nodup]
    exact hroom
  obtain ⟨m, intern', h, hv', -, hr⟩ :=
    foldlM_aggregateID (records buf) ∅ ∅ intern hv (renames_empty _) hcard
  refine ⟨m, intern', by rw [parseChunkIDs_eq]; exact h, ?_⟩
  rw [parseChunk_eq]
  exact hr.resolvesTo hv'.nodup

theorem parseChunkIDs_resolvesTo_sample :
    ∃ m intern', parseChunkIDs [65, 59, 49, 10, 66, 59, 50] ∅ Intern.new = some (m, intern') ∧
      ResolvesTo intern' m (parseChunk [65, 59, 49, 10, 66, 59, 50] ∅) :=
  parseChunkIDs_resolvesTo _ .new (by decide)

/-! ## Past `2^31` names -/

/-- The byte of the digit `d < 254`: the digits run in order over every byte but `'\n'` (10) and
`';'` (59). -/
def digitByte (d : Nat) : UInt8 :=
  Nat.toUInt8 (if d < 10 then d else if d < 58 then d + 1 else d + 2)

/-- The `i`-th 4-byte city: the four digits of `i` in base `254`, most significant first. -/
def key4 (i : Nat) : Bytes := [3, 2, 1, 0].map fun e => digitByte (i / 254 ^ e % 254)

/-- The 4-byte cities `key4 0`, …, `key4 (N - 1)`. -/
def keys4 (N : Nat) : List Bytes := (List.range N).map key4

/-- One line `KEY;0` for each of `2^31 + 1` distinct 4-byte keys: a file of `7 · (2^31 + 1)`
bytes, about 15 GB. -/
def wrapBuffer : Bytes := joinLines ((keys4 (2 ^ 31 + 1)).map (· ++ [semicolon, 48])) []

theorem toNat_digitByte {d : Nat} (hd : d < 254) :
    (digitByte d).toNat = if d < 10 then d else if d < 58 then d + 1 else d + 2 :=
  UInt8.toNat_ofNat_of_lt (show _ < 256 by split_ifs <;> omega)

theorem digitByte_inj {d e : Nat} (hd : d < 254) (he : e < 254) (h : digitByte d = digitByte e) :
    d = e := by
  have := congrArg UInt8.toNat h
  rw [toNat_digitByte hd, toNat_digitByte he] at this
  split_ifs at this <;> omega

theorem digitByte_ne {d : Nat} (hd : d < 254) :
    digitByte d ≠ newline ∧ digitByte d ≠ semicolon := by
  have h := toNat_digitByte hd
  refine ⟨fun he => ?_, fun he => ?_⟩ <;> rw [he] at h
  · change 10 = _ at h
    split_ifs at h <;> omega
  · change 59 = _ at h
    split_ifs at h <;> omega

/-- Below `254^4`, distinct numbers give distinct cities: their base-`254` digits differ. -/
theorem key4_inj {i j : Nat} (hi : i < 254 ^ 4) (hj : j < 254 ^ 4) (h : key4 i = key4 j) :
    i = j := by
  simp only [key4, List.map_cons, List.map_nil, List.cons.injEq, and_true] at h
  obtain ⟨h₃, h₂, h₁, h₀⟩ := h
  have := digitByte_inj (by omega) (by omega) h₃
  have := digitByte_inj (by omega) (by omega) h₂
  have := digitByte_inj (by omega) (by omega) h₁
  have := digitByte_inj (by omega) (by omega) h₀
  omega

theorem mem_key4 {i : Nat} {c : UInt8} (h : c ∈ key4 i) : c ≠ newline ∧ c ≠ semicolon := by
  obtain ⟨e, -, rfl⟩ := List.mem_map.mp h
  exact digitByte_ne (Nat.mod_lt _ (by decide))

theorem keys4_succ (N : Nat) : keys4 (N + 1) = keys4 N ++ [key4 N] := by
  rw [keys4, List.range_succ, List.map_append]
  rfl

theorem length_keys4 (N : Nat) : (keys4 N).length = N := by
  rw [keys4, List.length_map, List.length_range]

theorem keys4_nodup {N : Nat} (hN : N ≤ 254 ^ 4) : (keys4 N).Nodup :=
  List.Nodup.map_on (fun i hi j hj h =>
    key4_inj (by rw [List.mem_range] at hi; omega) (by rw [List.mem_range] at hj; omega) h)
    (List.nodup_range N)

theorem key4_not_mem_keys4 {N : Nat} (hN : N < 254 ^ 4) : key4 N ∉ keys4 N := by
  intro hm
  obtain ⟨i, hi, he⟩ := List.mem_map.mp hm
  rw [List.mem_range] at hi
  exact absurd (key4_inj (by omega) hN he) (by omega)

theorem card_keys4 {N : Nat} (hN : N ≤ 254 ^ 4) : (keys4 N).toFinset.card = N := by
  rw [List.toFinset_card_of_nodup (keys4_nodup hN), length_keys4]

theorem map_fst_pair {α β : Type} (l : List α) (b : β) : (l.map (·, b)).map Prod.fst = l := by
  induction l with
  | nil => rfl
  | cons a l ih => exact congrArg (a :: ·) ih

theorem records_wrapBuffer : records wrapBuffer = (keys4 (2 ^ 31 + 1)).map (·, 0) := by
  have hkeys : ∀ k ∈ keys4 (2 ^ 31 + 1), semicolon ∉ k ∧ newline ∉ k := by
    intro k hk
    obtain ⟨i, -, rfl⟩ := List.mem_map.mp hk
    exact ⟨fun h => (mem_key4 h).2 rfl, fun h => (mem_key4 h).1 rfl⟩
  have hline : ∀ k ∈ keys4 (2 ^ 31 + 1), lineRecord (k ++ [semicolon, 48]) = some (k, 0) :=
    fun k hk => lineRecord_split (hkeys k hk).1 (hkeys k hk).2 [48]
  rw [wrapBuffer, records_joinLines, records_nil, List.append_nil,
    List.filterMap_map, ← List.filterMap_eq_map]
  · exact List.filterMap_congr fun k hk => hline k hk
  intro l hl
  obtain ⟨k, hk, rfl⟩ := List.mem_map.mp hl
  simp only [List.mem_append, List.mem_cons, not_or]
  exact ⟨(hkeys k hk).2, by decide, by decide, List.not_mem_nil _⟩

/-- The `int32` ids wrap: on `2^31 + 1` distinct 4-byte keys and a fresh interner the last key gets
the id `int32(2^31) = -2^31`, which `Name` cannot resolve (Go's index panics), so the ids of the map
do not resolve to `parseChunk`'s map. -/
theorem parseChunkIDs_wraps :
    ¬ ∃ m intern', parseChunkIDs wrapBuffer ∅ Intern.new = some (m, intern') ∧
      ResolvesTo intern' m (parseChunk wrapBuffer ∅) := by
  rintro ⟨m, intern', h, hres⟩
  rw [parseChunkIDs_eq, records_wrapBuffer, keys4_succ, List.map_append, List.foldlM_append] at h
  have hN : 2 ^ 31 < 254 ^ 4 := by norm_num
  obtain ⟨m₁, intern₁, h₁, hv₁, hn₁, -⟩ := foldlM_aggregateID ((keys4 (2 ^ 31)).map (·, 0)) ∅ ∅
    Intern.new Intern.valid_new (renames_empty _)
    (by rw [Intern.new, List.nil_append, map_fst_pair, card_keys4 hN.le])
  rw [Intern.new, List.nil_append, map_fst_pair] at hn₁
  have hlen : intern₁.names.length = 2 ^ 31 := by
    rw [← List.toFinset_card_of_nodup hv₁.nodup, hn₁, card_keys4 hN.le]
  have hnot : key4 (2 ^ 31) ∉ intern₁.names := by
    rw [← List.mem_toFinset, hn₁, List.mem_toFinset]
    exact key4_not_mem_keys4 hN
  rw [h₁] at h
  simp only [Option.bind_eq_bind, Option.some_bind, List.map_cons, List.map_nil,
    List.foldlM_cons, List.foldlM_nil, aggregateID, hv₁.getOrAdd_of_not_mem hnot,
    Option.map_some'] at h
  obtain ⟨rfl, rfl⟩ := Prod.mk.inj (Option.some.inj h)
  generalize hreg : intern₁.register (key4 (2 ^ 31)) = reg at hres
  have hneg : reg.1 < 0 := by
    rw [← hreg, Intern.register_fst, hlen]
    decide
  obtain ⟨st, hst⟩ : ∃ st, (aggregate m₁ reg.1 0).lookup reg.1 = some st := by
    rw [lookup_aggregate, if_pos rfl]
    cases m₁.lookup _ <;> simp [Option.merge]
  obtain ⟨s, hs, -⟩ := hres.resolve _ _ hst
  rw [Intern.name, goIndex_neg _ hneg] at hs
  cases hs

end BillionRows