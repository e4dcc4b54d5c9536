import BillionRows.InternRace
import BillionRows.ParseChunkIDs

/-!
# Every interleaving of `GetOrAdd`

Concurrent `GetOrAdd` calls on one interner, split at their lock boundaries (`InternRace`), keep
an invariant in every interleaving (`Race.Inv`): every id of a bucket indexes a name, every id a
call has read indexes a name, an id a call has allocated or returned names its key, and the names
interned plus the calls that may still append one fit `int32`. One step of one call keeps it
(`Call.step_spec`), so every run keeps it (`Race.Inv.run`); on the way no call panics, `names` is
only appended to, and every call advances, so that a call that has taken four steps has returned.
Two calls that return one id, at any two moments, have the same key (`getOrAdd_interleaved`).

The `int32` bound cannot be dropped: `2^31 + 1` calls on distinct keys from `newIntern()`, run one
after the other, give the last one the id `int32(2^31) = -2^31`, which `Name` cannot resolve
(`getOrAdd_interleaved_wraps`).
-/

namespace BillionRows

/-- Every id of `ids` indexes `names`. -/
def Indexes (names : List Bytes) (ids : List Int) : Prop :=
  ∀ id ∈ ids, (goIndex names id).isSome

theorem Indexes.append {names : List Bytes} {ids : List Int} (h : Indexes names ids)
    (t : List Bytes) : Indexes (names ++ t) ids := fun id hid => by
  obtain ⟨s, hs⟩ := Option.isSome_iff_exists.mp (h id hid)
  simp [goIndex_append t hs]

/-! ## What a call holds -/

/-- The ids a call holds are sound for `names`: the ids it read index names, and an id it
allocated or returned names its key. -/
def Call.Ok (names : List Bytes) (c : Call) : Prop :=
  match c.pc with
  | .start => True
  | .read ids | .alloc ids => Indexes names ids
  | .write ids id => Indexes names ids ∧ goIndex names id = some c.b
  | .ret id => goIndex names id = some c.b

theorem Call.Ok.append {names : List Bytes} {c : Call} (h : c.Ok names) (t : List Bytes) :
    c.Ok (names ++ t) := by
  obtain ⟨b, pc⟩ := c
  cases pc with
  | start => trivial
  | read ids => exact Indexes.append h t
  | alloc ids => exact Indexes.append h t
  | write ids id => exact ⟨Indexes.append h.1 t, goIndex_append t h.2⟩
  | ret id => exact goIndex_append t h

theorem Call.Ok.name_eq {names : List Bytes} {c : Call} (h : c.Ok names) {id : Int}
    (hret : c.pc = .ret id) : goIndex names id = some c.b := by
  obtain ⟨b, pc⟩ := c
  subst hret
  exact h

/-- The names a call may still append: one, until it has allocated an id or found one. -/
def Pc.allocs : Pc → Nat
  | .start | .read _ | .alloc _ => 1
  | .write _ _ | .ret _ => 0

/-- How far a call has come; every step of a call that has not returned raises it. -/
def Pc.rank : Pc → Nat
  | .start => 0
  | .read _ => 1
  | .alloc _ => 2
  | .write _ _ => 3
  | .ret _ => 4

theorem Pc.rank_le (p : Pc) : p.rank ≤ 4 := by
  cases p <;> simp [rank]

theorem Pc.eq_ret_of_rank {p : Pc} (h : 4 ≤ p.rank) : ∃ id, p = .ret id := by
  cases p <;> simp_all [rank]

/-- `c'` is the call `c` after at least `n` of its own steps: the same key, a returned call
unchanged, and the rank up by `n` until the return. -/
structure Call.Advanced (c c' : Call) (n : Nat) : Prop where
  b_eq : c'.b = c.b
  ret_eq : ∀ id, c.pc = .ret id → c'.pc = .ret id
  rank_le : min 4 (c.pc.rank + n) ≤ c'.pc.rank

theorem Call.Advanced.refl (c : Call) : c.Advanced c 0 :=
  ⟨rfl, fun _ h => h, by omega⟩

theorem Call.Advanced.trans {c c' c'' : Call} {n m : Nat} (h : c.Advanced c' n)
    (h' : c'.Advanced c'' m) : c.Advanced c'' (n + m) := by
  refine ⟨h'.b_eq.trans h.b_eq, fun id hid => h'.ret_eq id (h.ret_eq id hid), ?_⟩
  have := h.rank_le
  have := h'.rank_le
  have := c'.pc.rank_le
  omega

/-- One step of a call that has not returned: the rank goes up. -/
theorem Call.Advanced.one {b : Bytes} {p p' : Pc} (h : p.rank < p'.rank) :
    Call.Advanced ⟨b, p⟩ ⟨b, p'⟩ 1 := by
  refine ⟨rfl, fun id hid => absurd h ?_, show min 4 (p.rank + 1) ≤ p'.rank by omega⟩
  subst hid
  simpa [Pc.rank] using p'.rank_le

/-! ## One step of one call -/

/-- One step of a call holding sound ids, on an interner whose buckets index its names and with
room for the name the call may append: no panic, the buckets still index the names, the call
still holds sound ids, the names are extended while the names and the appends still to come do not
grow, and the call advances. -/
theorem Call.step_spec {intern : Intern} {c : Call}
    (hb : ∀ h, Indexes intern.names (intern.bucket h)) (hc : c.Ok intern.names)
    (hroom : intern.names.length + c.pc.allocs ≤ 2 ^ 31) :
    ∃ intern' c', c.step intern = some (intern', c') ∧
      (∀ h, Indexes intern'.names (intern'.bucket h)) ∧ c'.Ok intern'.names ∧
      intern.names <+: intern'.names ∧
      intern'.names.length + c'.pc.allocs ≤ intern.names.length + c.pc.allocs ∧
      c.Advanced c' 1 := by
  obtain ⟨b, pc⟩ := c
  cases pc with
  | start =>
    exact ⟨intern, _, rfl, hb, hb _, List.prefix_refl _, le_refl _, .one (by simp [Pc.rank])⟩
  | read ids =>
    simp only [Call.step, findId_eq _ _ _ hc]
    rcases hf : ids.find? fun id => goIndex intern.names id = some b with _ | id
    · exact ⟨intern, _, rfl, hb, hc, List.prefix_refl _, le_refl _, .one (by simp [Pc.rank])⟩
    · have hid : goIndex intern.names id = some b := by simpa using List.find?_some hf
      exact ⟨intern, _, rfl, hb, hid, List.prefix_refl _, by simp [Pc.allocs],
        .one (by simp [Pc.rank])⟩
  | alloc ids =>
    have hw : wrap32 intern.names.length = intern.names.length :=
      wrap32_of_range (by omega) (by simp only [Pc.allocs] at hroom; omega)
    refine ⟨_, _, rfl, fun h => (hb h).append [b], ⟨hc.append [b], by simp [hw]⟩,
      List.prefix_append _ _, by simp [Pc.allocs], .one (by simp [Pc.rank])⟩
  | write ids id =>
    refine ⟨_, _, rfl, fun h => ?_, hc.2, List.prefix_refl _, by simp [Pc.allocs],
      .one (by simp [Pc.rank])⟩
    rw [Intern.bucket_setBucket, Intern.names_setBucket]
    split_ifs
    · intro i hi
      rcases List.mem_append.mp hi with hi | hi
      · exact hc.1 i hi
      · simp [List.mem_singleton.mp hi, hc.2]
    · exact hb h
  | ret id => exact ⟨intern, _, rfl, hb, hc, List.prefix_refl _, le_refl _, rfl, fun _ h => h,
      by simp [Pc.rank]⟩

/-! ## The invariant of a race -/

/-- The invariant of concurrent `GetOrAdd` calls: the buckets index the names, every call holds
sound ids, and the names interned plus those the calls may still append fit `int32`. -/
structure Race.Inv (r : Race) : Prop where
  bucket_index : ∀ h, Indexes r.intern.names (r.intern.bucket h)
  calls_ok : ∀ c ∈ r.calls, c.Ok r.intern.names
  room : r.intern.names.length + (r.calls.map (·.pc.allocs)).sum ≤ 2 ^ 31

theorem Race.inv_start {intern : Intern} {bs : List Bytes}
    (hb : ∀ h, Indexes intern.names (intern.bucket h))
    (hroom : intern.names.length + bs.length ≤ 2 ^ 31) : (Race.start intern bs).Inv where
  bucket_index := hb
  calls_ok c hc := by
    obtain ⟨b, -, rfl⟩ := List.mem_map.mp hc
    trivial
  room := by simpa [Race.start, Pc.allocs, Function.comp_def] using hroom

/-- One step of any call keeps the invariant, does not panic, extends the names, and advances
that call alone. -/
theorem Race.Inv.step {r : Race} (hr : r.Inv) (j : Nat) :
    ∃ r', r.step j = some r' ∧ r'.Inv ∧ r.intern.names <+: r'.intern.names ∧
      ∀ k (c : Call), r.calls[k]? = some c →
        ∃ c', r'.calls[k]? = some c' ∧ c.Advanced c' (if j = k then 1 else 0) := by
  unfold Race.step
  rcases hj : r.calls[j]? with _ | c
  · refine ⟨r, rfl, hr, List.prefix_refl _, fun k c hk => ⟨c, hk, ?_⟩⟩
    rw [if_neg (by rintro rfl; simp [hj] at hk)]
    exact .refl c
  have hle : c.pc.allocs ≤ (r.calls.map (·.pc.allocs)).sum :=
    List.le_sum_of_mem (List.mem_map_of_mem (·.pc.allocs) (List.getElem?_mem hj))
  obtain ⟨intern', c', hs, hb', hc', ⟨t, ht⟩, hroom', hadv⟩ :=
    Call.step_spec hr.bucket_index (hr.calls_ok c (List.getElem?_mem hj))
      (by have := hr.room; omega)
  refine ⟨⟨intern', r.calls.set j c'⟩, by simp [hs], ⟨hb', fun d hd => ?_, ?_⟩, ⟨t, ht⟩,
    fun k d hk => ?_⟩
  · exact of_mem_set (fun d hd => ht ▸ (hr.calls_ok d hd).append t) hd hc'
  · have := hr.room
    have := sum_map_set (·.pc.allocs) r.calls j c' hj
    simp only at this ⊢
    omega
  · by_cases hjk : j = k
    · subst hjk
      obtain rfl : d = c := Option.some.inj (hk.symm.trans hj)
      exact ⟨c', List.getElem?_set_self (List.getElem?_eq_some_iff.mp hj).1, by simpa using hadv⟩
    · exact ⟨d, by rw [List.getElem?_set_ne hjk, hk], by simpa [hjk] using Call.Advanced.refl d⟩

/-- Every run keeps the invariant, does not panic, extends the names, and advances each call by
the number of its steps in the schedule. -/
theorem Race.Inv.run {r : Race} (hr : r.Inv) (sched : List Nat) :
    ∃ r', r.run sched = some r' ∧ r'.Inv ∧ r.intern.names <+: r'.intern.names ∧
      ∀ k (c : Call), r.calls[k]? = some c →
        ∃ c', r'.calls[k]? = some c' ∧ c.Advanced c' (sched.count k) := by
  induction sched generalizing r with
  | nil => exact ⟨r, rfl, hr, List.prefix_refl _, fun k c hk => ⟨c, hk, .refl c⟩⟩
  | cons j sched ih =>
    obtain ⟨r₁, h₁, hr₁, hp₁, ha₁⟩ := hr.step j
    obtain ⟨r₂, h₂, hr₂, hp₂, ha₂⟩ := ih hr₁
    refine ⟨r₂, by rw [Race.run_cons, h₁, Option.some_bind, h₂], hr₂, hp₁.trans hp₂,
      fun k c hk => ?_⟩
    obtain ⟨c₁, hk₁, hc₁⟩ := ha₁ k c hk
    obtain ⟨c₂, hk₂, hc₂⟩ := ha₂ k c₁ hk₁
    refine ⟨c₂, hk₂, ?_⟩
    simp only [List.count_cons, beq_iff_eq]
    rw [Nat.add_comm]
    exact hc₁.trans hc₂

/-! ## Every interleaving -/

/-- Any interleaving of `GetOrAdd` calls on the keys `bs`, from an interner whose bucket ids index
its names and with room in `int32` for one name per call, looked at after `sched₁` and again after
`sched₂`: no call panics, the names are only appended to, every bucket id names an entry, every
returned id names its call's key, two calls that return one id at any two moments have the same
key, and a call that has taken four steps has returned. -/
theorem getOrAdd_interleaved {intern : Intern} {bs : List Bytes}
    (hbucket : ∀ h id, id ∈ intern.bucket h → (intern.name id).isSome)
    (hroom : intern.names.length + bs.length ≤ 2 ^ 31) (sched₁ sched₂ : List Nat) :
    ∃ r₁ r₂, (Race.start intern bs).run sched₁ = some r₁ ∧ r₁.run sched₂ = some r₂ ∧
      intern.names <+: r₁.intern.names ∧ r₁.intern.names <+: r₂.intern.names ∧
      (∀ h id, id ∈ r₂.intern.bucket h → (r₂.intern.name id).isSome) ∧
      (∀ c ∈ r₂.calls, ∀ id, c.pc = .ret id → r₂.intern.name id = some c.b) ∧
      (∀ c₁ ∈ r₁.calls, ∀ c₂ ∈ r₂.calls, ∀ id,
        c₁.pc = .ret id → c₂.pc = .ret id → c₁.b = c₂.b) ∧
      ∀ j b, bs[j]? = some b → 4 ≤ (sched₁ ++ sched₂).count j →
        ∃ id, r₂.calls[j]? = some ⟨b, .ret id⟩ := by
  obtain ⟨r₁, h₁, hr₁, hp₁, ha₁⟩ := (Race.inv_start hbucket hroom).run sched₁
  obtain ⟨r₂, h₂, hr₂, ⟨t, ht⟩, ha₂⟩ := hr₁.run sched₂
  refine ⟨r₁, r₂, h₁, h₂, hp₁, ⟨t, ht⟩, hr₂.bucket_index,
    fun c hc id hid => (hr₂.calls_ok c hc).name_eq hid, fun c₁ hc₁ c₂ hc₂ id hid₁ hid₂ => ?_,
    fun j b hb hcount => ?_⟩
  · have e := goIndex_append t ((hr₁.calls_ok c₁ hc₁).name_eq hid₁)
    rw [ht, (hr₂.calls_ok c₂ hc₂).name_eq hid₂] at e
    exact (Option.some.inj e).symm
  · obtain ⟨c₁, hk₁, hc₁⟩ := ha₁ j ⟨b, .start⟩ (by simp [Race.start, hb])
    obtain ⟨⟨b₂, pc₂⟩, hk₂, hc₂⟩ := ha₂ j c₁ hk₁
    have hadv := hc₁.trans hc₂
    rw [← List.count_append] at hadv
    obtain rfl : b₂ = b := hadv.b_eq
    obtain ⟨id, rfl⟩ := Pc.eq_ret_of_rank
      (le_trans (le_min (le_refl 4) (by simp only [Pc.rank]; omega)) hadv.rank_le)
    exact ⟨id, hk₂⟩

theorem getOrAdd_interleaved_two_calls :
    ((∀ h id, id ∈ Intern.new.bucket h → (Intern.new.name id).isSome) ∧
      Intern.new.names.length + ([[65], [65]] : List Bytes).length ≤ 2 ^ 31) ∧
    ∃ r₁ r₂, (Race.start Intern.new [[65], [65]]).run [0, 1, 0, 1] = some r₁ ∧
      r₁.run [0, 1, 0, 1] = some r₂ ∧
      Intern.new.names <+: r₁.intern.names ∧ r₁.intern.names <+: r₂.intern.names ∧
      (∀ h id, id ∈ r₂.intern.bucket h → (r₂.intern.name id).isSome) ∧
      (∀ c ∈ r₂.calls, ∀ id, c.pc = .ret id → r₂.intern.name id = some c.b) ∧
      (∀ c₁ ∈ r₁.calls, ∀ c₂ ∈ r₂.calls, ∀ id,
        c₁.pc = .ret id → c₂.pc = .ret id → c₁.b = c₂.b) ∧
      ∀ j b, ([[65], [65]] : List Bytes)[j]? = some b →
        4 ≤ ([0, 1, 0, 1] ++ [0, 1, 0, 1]).count j →
        ∃ id, r₂.calls[j]? = some ⟨b, .ret id⟩ :=
  have hbucket : ∀ h id, id ∈ Intern.new.bucket h → (Intern.new.name id).isSome := by
    simp [Intern.new, Intern.bucket]
  have hroom : Intern.new.names.length + ([[65], [65]] : List Bytes).length ≤ 2 ^ 31 := by
    decide
  ⟨⟨hbucket, hroom⟩, getOrAdd_interleaved hbucket hroom _ _⟩

/-! ## Past `2^31` names -/

/-- Calls on fresh distinct keys, each run alone in turn from a valid interner with room for
their keys, return in order and append their keys to the names. -/
theorem Race.run_fresh (post : List Call) :
    ∀ (ks : List Bytes) (pre : List Call) (intern : Intern), intern.Valid →
      (intern.names ++ ks).Nodup → intern.names.length + ks.length ≤ 2 ^ 31 →
      ∃ intern' done, (Race.mk intern (pre ++ ks.map (fun b => ⟨b, .start⟩) ++ post)).run
          ((List.range' pre.length ks.length).flatMap fun j => [j, j, j, j]) =
            some ⟨intern', pre ++ done ++ post⟩ ∧
        intern'.Valid ∧ intern'.names = intern.names ++ ks ∧ done.length = ks.length
  | [], pre, intern, hv, _, _ => ⟨intern, [], by simp, hv, by simp, rfl⟩
  | k :: ks, pre, intern, hv, hnd, hroom => by
    have hk : k ∉ intern.names := fun h => (List.nodup_append.mp hnd).2.2 h (List.mem_cons_self k ks)
    simp only [List.length_cons] at hroom
    obtain ⟨intern', done, hrun, hv', hnames, hlen⟩ :=
      Race.run_fresh post ks (pre ++ [⟨k, .ret (intern.register k).1⟩]) (intern.register k).2
        (hv.register hk (by omega)) (by simpa using hnd) (by simp; omega)
    refine ⟨intern', ⟨k, .ret (intern.register k).1⟩ :: done, ?_, hv', by simp [hnames],
      by simp [hlen]⟩
    rw [List.length_cons, List.range'_succ, List.flatMap_cons, Race.run_append,
      Race.run_four (b := k) (by
        rw [List.map_cons, List.append_assoc, List.getElem?_append_right (le_refl _), Nat.sub_self,
          List.cons_append, List.getElem?_cons_zero]), hv.getOrAdd_of_not_mem hk]
    simpa [List.set_append_right] using hrun

/-- `2^31 + 1` calls of `GetOrAdd` on distinct 4-byte keys from `newIntern()`, each run alone in
turn: the last one returns `int32(2^31) = -2^31`, which `Name` cannot resolve. -/
theorem getOrAdd_interleaved_wraps :
    ∃ r, (Race.start Intern.new (keys4 (2 ^ 31 + 1))).run
        ((List.range (2 ^ 31 + 1)).flatMap fun j => [j, j, j, j]) = some r ∧
      (⟨key4 (2 ^ 31), .ret (-2 ^ 31)⟩ : Call) ∈ r.calls ∧
      r.intern.name (-2 ^ 31) = none := by
  have hN : 2 ^ 31 < 254 ^ 4 := by norm_num
  obtain ⟨intern', done, hrun, hv, hnames, hlen⟩ :=
    Race.run_fresh [⟨key4 (2 ^ 31), .start⟩] (keys4 (2 ^ 31)) [] Intern.new
      Intern.valid_new (by rw [Intern.names_new, List.nil_append]; exact keys4_nodup hN.le)
      (by rw [Intern.names_new, List.length_nil, Nat.zero_add, length_keys4])
  rw [List.length_nil, length_keys4, List.nil_append, List.nil_append] at hrun
  rw [length_keys4] at hlen
  rw [Intern.names_new, List.nil_append] at hnames
  have hlast : 0 + 1 * 2 ^ 31 = done.length := by rw [hlen, Nat.zero_add, Nat.one_mul]
  have hnot : key4 (2 ^ 31) ∉ intern'.names := by
    rw [hnames]
    exact key4_not_mem_keys4 hN
  have hid : (intern'.register (key4 (2 ^ 31))).1 = -2 ^ 31 := by
    rw [Intern.register_fst, hnames, length_keys4]
    decide
  rw [Race.start, keys4_succ, List.map_append, List.map_singleton, List.range_eq_range',
    List.range'_concat, List.flatMap_append, Race.run_append, hrun, Option.some_bind,
    List.flatMap_singleton, hlast, Race.run_four (List.getElem?_concat_length _ _),
    hv.getOrAdd_of_not_mem hnot, Option.map_some', hid]
  refine ⟨_, rfl, ?_, goIndex_neg _ (by decide)⟩
  rw [List.set_append_right _ _ (le_refl _), Nat.sub_self, List.set_cons_zero]
  exact List.mem_append_right _ (List.mem_singleton_self _)

end BillionRows
