import Mathlib

/-!
# Machine integers, `Stat` and Go maps

The fixed-point variants of the program (`src/unnamed/part_000` and `src/unnamed/part_002`) keep,
per station, a `Stat` of four machine integers counting tenths of a degree: `min` and `max` are
`int32`, `sum` and `count` are `int64`. An `intN` value is modelled by the `Int` it denotes. Go's
signed arithmetic wraps, so every arithmetic result is reduced by `Int.bmod` into
`[-2^(N-1), 2^(N-1))`.

A Go `map` is modelled by Mathlib's `Finmap`, a finite map with extensional equality. A `range`
loop over a map visits its entries in an order the runtime picks; `RangeOrder m order` says that
the list `order` is one of those orders.
-/

namespace BillionRows

/-! ## Machine integers -/

/-- The `int32` value of an integer result: Go's `int32` arithmetic wraps modulo `2^32`. -/
def wrap32 (x : Int) : Int := x.bmod (2 ^ 32)

/-- The `int64` value of an integer result. -/
def wrap64 (x : Int) : Int := x.bmod (2 ^ 64)

theorem bmod_of_range {x : Int} {n : Nat} (hlo : -((2 : Int) ^ n) ≤ x) (hhi : x < 2 ^ n) :
    x.bmod (2 ^ (n + 1)) = x := by
  have hm : ((2 ^ (n + 1) : Nat) : Int) = 2 ^ n + 2 ^ n := by push_cast; omega
  rw [Int.bmod_def, hm]
  rcases Int.lt_or_le x 0 with hx | hx
  · have : x % (2 ^ n + 2 ^ n) = x + (2 ^ n + 2 ^ n) := by
      rw [← Int.add_emod_self, Int.emod_eq_of_lt (by omega) (by omega)]
    rw [this, if_neg (by omega)]
    omega
  · rw [Int.emod_eq_of_lt hx (by omega), if_pos (by omega)]

/-- A result that fits in `int32` is not changed by the wrap. -/
theorem wrap32_of_range {x : Int} (hlo : -2 ^ 31 ≤ x) (hhi : x < 2 ^ 31) : wrap32 x = x :=
  bmod_of_range (n := 31) (by simpa using hlo) hhi

/-- A result that fits in `int64` is not changed by the wrap. -/
theorem wrap64_of_range {x : Int} (hlo : -2 ^ 63 ≤ x) (hhi : x < 2 ^ 63) : wrap64 x = x :=
  bmod_of_range (n := 63) (by simpa using hlo) hhi

theorem wrap32_emod (a : Int) : wrap32 (a % 4294967296) = wrap32 a :=
  Int.emod_bmod_congr a _

theorem wrap32_emod_self (a : Int) : wrap32 a % 4294967296 = a % 4294967296 :=
  Int.bmod_emod

/-- `wrap32` only depends on its argument modulo `2^32`. -/
theorem wrap32_congr {a b : Int} (h : a % 4294967296 = b % 4294967296) : wrap32 a = wrap32 b := by
  rw [← wrap32_emod a, h, wrap32_emod]

/-- The `int32` steps of a decimal parse, `s * (a*10 + d)`, only depend on `a` modulo `2^32`. -/
theorem wrap32_mul_add {a b : Int} (h : wrap32 a = wrap32 b) (s d : Int) :
    wrap32 (s * (a * 10 + d)) = wrap32 (s * (b * 10 + d)) := by
  apply wrap32_congr
  have := congrArg (· % 4294967296) h
  simp only [wrap32_emod_self] at this
  simp [Int.mul_emod, Int.add_emod, this]

@[simp] theorem wrap32_wrap32 (a : Int) : wrap32 (wrap32 a) = wrap32 a := Int.bmod_bmod

@[simp] theorem wrap32_zero : wrap32 0 = 0 := Int.bmod_zero

@[simp] theorem wrap32_wrap32_mul_add (a d : Int) :
    wrap32 (wrap32 a * 10 + d) = wrap32 (a * 10 + d) := by
  simpa using wrap32_mul_add (wrap32_wrap32 a) 1 d

@[simp] theorem wrap64_zero : wrap64 0 = 0 := Int.bmod_zero

@[simp] theorem wrap64_wrap64 (a : Int) : wrap64 (wrap64 a) = wrap64 a := Int.bmod_bmod

@[simp] theorem wrap64_add_wrap64 (a b : Int) : wrap64 (wrap64 a + b) = wrap64 (a + b) :=
  Int.bmod_add_bmod_congr

@[simp] theorem wrap64_add_wrap64' (a b : Int) : wrap64 (a + wrap64 b) = wrap64 (a + b) :=
  Int.add_bmod_bmod

/-! ## Bytes -/

/-- A Go `[]byte` (or the bytes of a `string`). -/
abbrev Bytes := List UInt8

/-- `'\n'` -/
def newline : UInt8 := 10
/-- `';'` -/
def semicolon : UInt8 := 59
/-- `'-'` -/
def minus : UInt8 := 45
/-- `'+'` -/
def plus : UInt8 := 43
/-- `'.'` -/
def dot : UInt8 := 46

/-! ## Lists -/

/-- Replacing the element `b` at `j` by `a` changes a sum over the list by the difference. -/
theorem sum_map_set {α M : Type} [AddCommMonoid M] (f : α → M) :
    ∀ (l : List α) (j : Nat) (a : α) {b : α}, l[j]? = some b →
      ((l.set j a).map f).sum + f b = (l.map f).sum + f a
  | [], _, _, _, h => by simp at h
  | x :: l, 0, a, b, h => by
    obtain rfl : x = b := by simpa using h
    simp only [List.set_cons_zero, List.map_cons, List.sum_cons, add_comm, add_left_comm]
  | x :: l, j + 1, a, b, h => by
    simp only [List.set_cons_succ, List.map_cons, List.sum_cons, add_assoc,
      sum_map_set f l j a (by simpa using h)]

theorem getElem?_set_cases {α : Type} {l : List α} {j k : Nat} {a b : α}
    (h : (l.set j a)[k]? = some b) : (k = j ∧ b = a) ∨ (k ≠ j ∧ l[k]? = some b) := by
  rw [List.getElem?_set] at h
  split_ifs at h with hjk
  · exact .inl ⟨hjk.symm, (Option.some.inj h).symm⟩
  · exact .inr ⟨Ne.symm hjk, h⟩

theorem of_mem_set {α : Type} {P : α → Prop} {l : List α} (h : ∀ x ∈ l, P x) {j : Nat} {a x : α}
    (hx : x ∈ l.set j a) (ha : P a) : P x :=
  (List.mem_or_eq_of_mem_set hx).elim (h x) fun hxa => hxa ▸ ha

theorem merge_none_left {α : Type} {op : α → α → α} (a : Option α) :
    Option.merge op none a = a := by
  cases a <;> rfl

theorem merge_none_right {α : Type} {op : α → α → α} (a : Option α) :
    Option.merge op a none = a := by
  cases a <;> rfl

/-! ## Go maps -/

/-- A Go `map[K]V`. -/
abbrev GoMap (K V : Type) := Finmap fun _ : K => V

variable {K V : Type}

/-- `order` lists the entries of `m` in one of the orders `for k, v := range m` may visit them:
every entry exactly once. -/
def RangeOrder (m : GoMap K V) (order : List (Σ _ : K, V)) : Prop :=
  (order : Multiset (Σ _ : K, V)) = m.entries

instance [DecidableEq K] [DecidableEq V] (m : GoMap K V) (order : List (Σ _ : K, V)) :
    Decidable (RangeOrder m order) :=
  inferInstanceAs (Decidable (_ = _))

theorem RangeOrder.nodupKeys {m : GoMap K V} {order} (h : RangeOrder m order) :
    order.NodupKeys := by
  have := m.nodupKeys
  rwa [← h, Multiset.coe_nodupKeys] at this

theorem RangeOrder.lookup_eq [DecidableEq K] {m : GoMap K V} {order} (h : RangeOrder m order)
    (k : K) : m.lookup k = order.dlookup k := by
  have hm : m = AList.toFinmap ⟨order, h.nodupKeys⟩ := Finmap.ext h.symm
  rw [hm, Finmap.lookup_toFinmap]
  rfl

/-- Every map can be iterated. -/
theorem RangeOrder.exists (m : GoMap K V) : ∃ order, RangeOrder m order :=
  Quot.exists_rep m.entries

theorem rangeOrder_empty {order : List (Σ _ : K, V)}
    (h : RangeOrder (∅ : GoMap K V) order) : order = [] :=
  (Multiset.coe_eq_zero order).mp h

/-! ## Updating a Go map -/

section Upsert

variable [DecidableEq K]

/-- `if e, ok := m[k]; ok { m[k] = f(e) } else { m[k] = d }`: the shape of every map update of
the programs. -/
def upsert (m : GoMap K V) (k : K) (d : V) (f : V → V) : GoMap K V :=
  match m.lookup k with
  | some e => m.insert k (f e)
  | none => m.insert k d

theorem lookup_upsert (m : GoMap K V) (k : K) (d : V) (f : V → V) (k' : K) :
    (upsert m k d f).lookup k' = if k' = k then some ((m.lookup k).elim d f) else m.lookup k' := by
  unfold upsert
  split_ifs with hk
  · subst hk; split <;> simp [*]
  · split <;> simp [Finmap.lookup_insert_of_ne _ hk]

theorem mem_upsert {m : GoMap K V} {k k' : K} {d : V} {f : V → V} :
    k' ∈ upsert m k d f ↔ k' = k ∨ k' ∈ m := by
  unfold upsert
  split <;> exact Finmap.mem_insert

/-- One iteration of a merge loop: the entry `e` of a local map merged into `global` by `op`, or
copied when `global` lacks its key. -/
def mergeWith (op : V → V → V) (global : GoMap K V) (e : Σ _ : K, V) : GoMap K V :=
  upsert global e.1 e.2 (op · e.2)

theorem lookup_mergeWith (op : V → V → V) (global : GoMap K V) (e : Σ _ : K, V) (k : K) :
    (mergeWith op global e).lookup k =
      if k = e.1 then Option.merge op (global.lookup k) (some e.2) else global.lookup k := by
  rw [mergeWith, lookup_upsert]
  split_ifs with hk
  · subst hk; cases global.lookup _ <;> rfl
  · rfl

/-- Folding the entries of a list with distinct keys into `global` merges, at each key, the entry
of `global` with the listed one. -/
theorem lookup_foldl_mergeWith (op : V → V → V) (k : K) :
    ∀ (order : List (Σ _ : K, V)), order.NodupKeys → ∀ global : GoMap K V,
      (order.foldl (mergeWith op) global).lookup k =
        Option.merge op (global.lookup k) (order.dlookup k)
  | [], _, g => by rw [List.foldl_nil, List.dlookup_nil]; cases g.lookup k <;> rfl
  | ⟨k', v⟩ :: rest, hnd, g => by
    rw [List.nodupKeys_cons] at hnd
    rw [List.foldl_cons, lookup_foldl_mergeWith op k rest hnd.2, lookup_mergeWith]
    by_cases hk : k = k'
    · subst hk
      rw [if_pos rfl, List.dlookup_eq_none.mpr hnd.1, List.dlookup_cons_eq]
      cases g.lookup k <;> rfl
    · simp [hk, List.dlookup_cons_ne rest ⟨k', v⟩ hk]

/-- `for _, m := range locals { for k, v := range m { ... } }` from `global`, with `orders`
listing the entries of each local map in the order the loop visits them. -/
def mergeLoopWith (op : V → V → V) (global : GoMap K V) (orders : List (List (Σ _ : K, V))) :
    GoMap K V :=
  orders.foldl (fun global order => order.foldl (mergeWith op) global) global

/-- The entry of a key after a merge loop: the entries of the key in the local maps, merged into
the global one in turn, whatever the iteration order of each map. -/
theorem lookup_mergeLoopWith (op : V → V → V) (k : K) :
    ∀ {locals : List (GoMap K V)} {orders}, List.Forall₂ RangeOrder locals orders →
      ∀ global : GoMap K V, (mergeLoopWith op global orders).lookup k =
        (locals.map fun m => m.lookup k).foldl (Option.merge op) (global.lookup k)
  | _, _, .nil, _ => rfl
  | _, _, .cons h hs, global => by
    rw [mergeLoopWith, List.foldl_cons, ← mergeLoopWith, lookup_mergeLoopWith op k hs,
      lookup_foldl_mergeWith op k _ h.nodupKeys, ← h.lookup_eq]
    rfl

/-- A merge loop over empty local maps leaves `global` as it is. -/
theorem mergeLoopWith_of_empty (op : V → V → V) :
    ∀ {locals : List (GoMap K V)} {orders}, List.Forall₂ RangeOrder locals orders →
      (∀ m ∈ locals, m = ∅) → ∀ global : GoMap K V, mergeLoopWith op global orders = global
  | _, _, .nil, _, _ => rfl
  | _, _, .cons h hs, hempty, global => by
    rw [List.forall_mem_cons] at hempty
    rw [hempty.1] at h
    rw [mergeLoopWith, List.foldl_cons, rangeOrder_empty h, List.foldl_nil, ← mergeLoopWith,
      mergeLoopWith_of_empty op hs hempty.2]

end Upsert

/-- Merging entries of which one at most is present gives that one. -/
theorem foldl_merge_single {ι : Type} [DecidableEq ι] (op : V → V → V) (a : ι) (x : Option V) :
    ∀ (l : List ι), l.Nodup → ∀ o : Option V,
      (l.map fun s => if s = a then x else none).foldl (Option.merge op) o =
        Option.merge op o (if a ∈ l then x else none)
  | [], _, o => by cases o <;> rfl
  | s :: l, hnd, o => by
    rw [List.nodup_cons] at hnd
    rw [List.map_cons, List.foldl_cons, foldl_merge_single op a x l hnd.2]
    by_cases hs : s = a
    · subst hs
      rw [if_pos rfl, if_neg hnd.1, if_pos (List.mem_cons_self _ _)]
      cases Option.merge op o x <;> rfl
    · rw [if_neg hs]
      simp only [List.mem_cons, Ne.symm hs, false_or]
      cases o <;> rfl

end BillionRows
