import BillionRows.Scan

/-!
# The sharded interner of `src/unnamed/part_000`

`Intern` gives each city name a compact `int32` id. It is sharded by the low byte of the 64-bit
FNV-1a hash of the name; a shard maps a hash to the ids of the names seen with that hash, and a
lookup compares the stored name with the key byte by byte (`equalSB`), so hash collisions are
resolved. This module models `GetOrAdd` run without interference; `InternRace` splits it at its
lock boundaries.

Go's bounds-checked `in.names[id]` panics out of range; `goIndex` returns `none` there, so
`getOrAdd` and `parseChunkIDs` return an `Option`. The invariant `Intern.Valid` (distinct names,
every bucket id a valid index, every name in the bucket of its hash) is kept by `getOrAdd` as long
as fewer than `2^31` names are interned, after which `int32(len(in.names))` wraps.
-/

namespace BillionRows

/-- Go's `xs[i]`, `none` where the index is out of range and Go panics. -/
def goIndex {α : Type} (xs : List α) (i : Int) : Option α :=
  if 0 ≤ i then xs[i.toNat]? else none

@[simp] theorem goIndex_natCast {α : Type} (xs : List α) (i : Nat) : goIndex xs i = xs[i]? := by
  unfold goIndex
  rw [if_pos (by omega)]
  rfl

theorem goIndex_append {α : Type} {xs : List α} (ys : List α) {i : Int} {a : α}
    (h : goIndex xs i = some a) : goIndex (xs ++ ys) i = some a := by
  unfold goIndex at h ⊢
  split_ifs at h ⊢
  exact (List.getElem?_append_left (List.getElem?_eq_some_iff.mp h).1).trans h

theorem goIndex_eq_some {α : Type} {xs : List α} {id : Int} {a : α} (h : goIndex xs id = some a) :
    ∃ n : Nat, id = n ∧ xs[n]? = some a := by
  unfold goIndex at h
  split_ifs at h with h0
  exact ⟨id.toNat, (Int.toNat_of_nonneg h0).symm, h⟩

theorem goIndex_neg {α : Type} (xs : List α) {i : Int} (hi : i < 0) : goIndex xs i = none := by
  simp [goIndex, Int.not_le.mpr hi]

/-- `fnv1a64(b)`: 64-bit FNV-1a, with `uint64` arithmetic. -/
def fnv1a64 (b : Bytes) : UInt64 :=
  b.foldl (fun h c => (h ^^^ c.toUInt64) * 1099511628211) 1469598103934665603

/-- `h & 255`: the shard of a hash. -/
def shardOf (h : UInt64) : Fin 256 := Fin.ofNat (h &&& 255).toNat

/-- The byte loop of `equalSB`, run once the lengths agree. -/
def equalSB.loop : Bytes → Bytes → Bool
  | x :: s, y :: b => x = y && loop s b
  | _, _ => true

/-- `equalSB(s, b)`: the lengths, then the bytes one by one. -/
def equalSB (s b : Bytes) : Bool := s.length = b.length && equalSB.loop s b

theorem equalSB_iff (s b : Bytes) : equalSB s b = true ↔ s = b := by
  induction s generalizing b with
  | nil => cases b <;> simp [equalSB, equalSB.loop]
  | cons x s ih =>
    cases b with
    | nil => simp [equalSB]
    | cons y b =>
      have := ih b
      simp only [equalSB, List.length_cons, Nat.add_right_cancel_iff, Bool.and_eq_true,
        decide_eq_true_eq] at this ⊢
      simp only [equalSB.loop, Bool.and_eq_true, decide_eq_true_eq, List.cons.injEq]
      tauto

/-- `Intern`: `shards[i].m` as a function from hash to ids (a missing hash reads as the empty
slice) and `names`. The locks carry no state of the sequential model. -/
structure Intern where
  shards : Fin 256 → UInt64 → List Int
  names : List Bytes

namespace Intern

/-- `newIntern()` -/
def new : Intern := ⟨fun _ _ => [], []⟩

@[simp] theorem names_new : Intern.new.names = [] := rfl

/-- `in.shards[h&255].m[h]`: the bucket of the hash `h`. -/
def bucket (intern : Intern) (h : UInt64) : List Int := intern.shards (shardOf h) h

/-- `Name(id)`: `in.names[id]`. -/
def name (intern : Intern) (id : Int) : Option Bytes := goIndex intern.names id

/-- The miss path of `GetOrAdd(b)`: `id := int32(len(in.names))`, `b` appended to `names`, and
`id` appended to the bucket of `b`'s hash. -/
def register (intern : Intern) (b : Bytes) : Int × Intern :=
  let h := fnv1a64 b
  let id := wrap32 intern.names.length
  (id, { shards := Function.update intern.shards (shardOf h)
           (Function.update (intern.shards (shardOf h)) h (intern.bucket h ++ [id]))
         names := intern.names ++ [b] })

end Intern

/-- The `for _, id := range ids` loop of `GetOrAdd`: the first id whose name is `b`, or `none`;
the outer `none` is a panic of `in.names[id]`. -/
def findId (names : List Bytes) (b : Bytes) : List Int → Option (Option Int)
  | [] => some none
  | id :: ids => (goIndex names id).bind fun s =>
    if equalSB s b then some (some id) else findId names b ids

/-- `GetOrAdd(b)` run without interference: the id of the first name of the bucket equal to `b`,
or a new id. -/
def Intern.getOrAdd (intern : Intern) (b : Bytes) : Option (Int × Intern) :=
  (findId intern.names b (intern.bucket (fnv1a64 b))).map fun
    | some id => (id, intern)
    | none => intern.register b

/-! ## The interner invariant -/

namespace Intern

/-- The interner invariant: distinct names, ids that fit `int32`, every id of a bucket indexes a
name, and every name is in the bucket of its hash. -/
structure Valid (intern : Intern) : Prop where
  nodup : intern.names.Nodup
  length_le : intern.names.length ≤ 2 ^ 31
  bucket_index : ∀ h id, id ∈ intern.bucket h → (goIndex intern.names id).isSome
  mem_bucket : ∀ (i : Nat) s, intern.names[i]? = some s → (i : Int) ∈ intern.bucket (fnv1a64 s)

theorem valid_new : Intern.new.Valid where
  nodup := List.nodup_nil
  length_le := by simp [Intern.new]
  bucket_index := by simp [Intern.new, bucket]
  mem_bucket := by simp [Intern.new]

theorem bucket_register (intern : Intern) (b : Bytes) (h : UInt64) :
    (intern.register b).2.bucket h =
      if h = fnv1a64 b then intern.bucket h ++ [wrap32 intern.names.length]
      else intern.bucket h := by
  unfold register bucket
  by_cases hh : h = fnv1a64 b
  · subst hh; simp
  · by_cases hs : shardOf h = shardOf (fnv1a64 b) <;> simp [Function.update_apply, hh, hs]

@[simp] theorem register_fst (intern : Intern) (b : Bytes) :
    (intern.register b).1 = wrap32 intern.names.length := by
  simp only [register]

@[simp] theorem names_register (intern : Intern) (b : Bytes) :
    (intern.register b).2.names = intern.names ++ [b] := rfl

end Intern

theorem findId_eq (names : List Bytes) (b : Bytes) :
    ∀ ids : List Int, (∀ id ∈ ids, (goIndex names id).isSome) →
      findId names b ids = some (ids.find? fun id => goIndex names id = some b)
  | [], _ => rfl
  | id :: ids, hids => by
    simp only [List.mem_cons, forall_eq_or_imp] at hids
    obtain ⟨s, hs⟩ := Option.isSome_iff_exists.mp hids.1
    simp only [findId, hs, Option.some_bind]
    by_cases hsb : s = b
    · subst hsb; simp [(equalSB_iff s s).mpr rfl, List.find?_cons, hs]
    · have : equalSB s b = false := by rw [Bool.eq_false_iff, ne_eq, equalSB_iff]; exact hsb
      simp [this, List.find?_cons, hs, hsb, findId_eq names b ids hids.2]

namespace Intern.Valid

variable {intern : Intern} (hv : intern.Valid)
include hv

theorem findId_of_mem {i : Nat} {b : Bytes} (hi : intern.names[i]? = some b) :
    findId intern.names b (intern.bucket (fnv1a64 b)) = some (some (i : Int)) := by
  rw [findId_eq _ _ _ (hv.bucket_index _)]
  congr 1
  rcases hf : List.find? _ _ with _ | j
  · exact absurd (hv.mem_bucket i b hi) fun hmem => by
      simpa [hi] using List.find?_eq_none.mp hf _ hmem
  · have hj := List.find?_some hf
    simp only [decide_eq_true_eq] at hj
    have hj0 : 0 ≤ j := by
      by_contra hneg; simp [goIndex_neg _ (Int.not_le.mp hneg)] at hj
    obtain ⟨n, rfl⟩ := Int.eq_ofNat_of_zero_le hj0
    rw [goIndex_natCast] at hj
    rw [List.getElem?_inj (List.getElem?_eq_some_iff.mp hj).1 hv.nodup (hj.trans hi.symm)]

theorem findId_of_not_mem {b : Bytes} (hb : b ∉ intern.names) :
    findId intern.names b (intern.bucket (fnv1a64 b)) = some none := by
  rw [findId_eq _ _ _ (hv.bucket_index _)]
  congr 1
  refine List.find?_eq_none.mpr fun id _ hid => hb ?_
  simp only [decide_eq_true_eq, goIndex] at hid
  split_ifs at hid
  exact List.getElem?_mem hid

/-- `GetOrAdd` of an interned name returns its index and changes nothing. -/
theorem getOrAdd_of_mem {i : Nat} {b : Bytes} (hi : intern.names[i]? = some b) :
    intern.getOrAdd b = some ((i : Int), intern) := by
  simp [Intern.getOrAdd, hv.findId_of_mem hi]

/-- `GetOrAdd` of a new name takes the miss path. -/
theorem getOrAdd_of_not_mem {b : Bytes} (hb : b ∉ intern.names) :
    intern.getOrAdd b = some (intern.register b) := by
  simp [Intern.getOrAdd, hv.findId_of_not_mem hb]

/-- Registering a new name keeps the invariant while its id fits `int32`. -/
theorem register {b : Bytes} (hb : b ∉ intern.names) (hlen : intern.names.length < 2 ^ 31) :
    (intern.register b).2.Valid := by
  have hw : wrap32 intern.names.length = intern.names.length :=
    wrap32_of_range (by omega) (by omega)
  refine ⟨List.nodup_append.mpr ⟨hv.nodup, List.nodup_singleton b, by simpa using hb⟩,
    by simp; omega, fun h id hid => ?_, fun i s hi => ?_⟩
  · have hold : ∀ id ∈ intern.bucket h, (goIndex (intern.names ++ [b]) id).isSome :=
      fun id hid => by
      obtain ⟨s, hs⟩ := Option.isSome_iff_exists.mp (hv.bucket_index h id hid)
      simp [goIndex_append [b] hs]
    rw [Intern.bucket_register] at hid
    split_ifs at hid
    · rcases List.mem_append.mp hid with hid | hid
      · exact hold id hid
      · simp [List.mem_singleton.mp hid, hw]
    · exact hold id hid
  · rw [Intern.bucket_register]
    rw [Intern.names_register] at hi
    rcases Nat.lt_or_ge i intern.names.length with hlt | hge
    · rw [List.getElem?_append_left hlt] at hi
      have := hv.mem_bucket i s hi
      split_ifs <;> simp [this]
    · obtain rfl : i = intern.names.length := by
        have := (List.getElem?_eq_some_iff.mp hi).1
        simp only [List.length_append, List.length_singleton] at this
        omega
      rw [List.getElem?_concat_length, Option.some.injEq] at hi
      subst hi
      simp [hw]

end Intern.Valid

end BillionRows
