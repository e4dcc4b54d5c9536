import BillionRows.Intern

/-!
# `GetOrAdd` split at its lock boundaries

Concurrent calls of `Intern.GetOrAdd` on one interner interleave at the lock boundaries of the
code: the bucket read under `sh.mu.RLock`, the id allocation and `names` append under `namesMu`,
and the bucket write under `sh.mu.Lock`. The loop over the bucket's ids reads `in.names` without a
lock; entries of `names` are never changed once appended, so the loop is one step that reads the
names at that moment.

The read path does not look again under the write lock: two calls on one key can both miss, both
allocate an id, and both write their bucket from the ids they read, the second write dropping the
id of the first.
-/

namespace BillionRows

/-- Where a call of `GetOrAdd(b)` stands, between two lock boundaries. -/
inductive Pc
  /-- not started -/
  | start
  /-- read `ids := sh.m[h]` -/
  | read (ids : List Int)
  /-- found no name equal to `b` among `ids` -/
  | alloc (ids : List Int)
  /-- appended `b` to `names` as `id` -/
  | write (ids : List Int) (id : Int)
  /-- returned `id` -/
  | ret (id : Int)
  deriving DecidableEq, Repr

/-- A call of `GetOrAdd` on the key `b`. -/
structure Call where
  b : Bytes
  pc : Pc
  deriving DecidableEq, Repr

/-- `sh.m[h] = ids`. -/
def Intern.setBucket (intern : Intern) (h : UInt64) (ids : List Int) : Intern :=
  { intern with
    shards := Function.update intern.shards (shardOf h)
      (Function.update (intern.shards (shardOf h)) h ids) }

theorem Intern.bucket_setBucket (intern : Intern) (h h' : UInt64) (ids : List Int) :
    (intern.setBucket h ids).bucket h' = if h' = h then ids else intern.bucket h' := by
  unfold setBucket bucket
  by_cases hh : h' = h
  · subst hh; simp
  · by_cases hs : shardOf h' = shardOf h <;> simp [Function.update_apply, hh, hs]

@[simp] theorem Intern.names_setBucket (intern : Intern) (h : UInt64) (ids : List Int) :
    (intern.setBucket h ids).names = intern.names := rfl

/-- One step of a call on the shared interner, from one lock boundary to the next; `none` is a
panic of `in.names[id]`. A returned call takes no step. -/
def Call.step (intern : Intern) (c : Call) : Option (Intern × Call) :=
  match c.pc with
  | .start => some (intern, ⟨c.b, .read (intern.bucket (fnv1a64 c.b))⟩)
  | .read ids => (findId intern.names c.b ids).map fun
    | some id => (intern, ⟨c.b, .ret id⟩)
    | none => (intern, ⟨c.b, .alloc ids⟩)
  | .alloc ids =>
    some ({ intern with names := intern.names ++ [c.b] },
      ⟨c.b, .write ids (wrap32 intern.names.length)⟩)
  | .write ids id => some (intern.setBucket (fnv1a64 c.b) (ids ++ [id]), ⟨c.b, .ret id⟩)
  | .ret _ => some (intern, c)

/-- Concurrent calls of `GetOrAdd` on one interner. -/
structure Race where
  intern : Intern
  calls : List Call

namespace Race

/-- The calls on the keys `bs`, none started. -/
def start (intern : Intern) (bs : List Bytes) : Race := ⟨intern, bs.map fun b => ⟨b, .start⟩⟩

/-- Call `j` takes one step. -/
def step (r : Race) (j : Nat) : Option Race :=
  match r.calls[j]? with
  | some c => (c.step r.intern).map fun s => ⟨s.1, r.calls.set j s.2⟩
  | none => some r

/-- The calls of `sched` take one step each, in turn. -/
def run (r : Race) (sched : List Nat) : Option Race := sched.foldlM step r

@[simp] theorem run_nil (r : Race) : r.run [] = some r := rfl

theorem run_cons (r : Race) (j : Nat) (sched : List Nat) :
    r.run (j :: sched) = (r.step j).bind (·.run sched) := by
  simp [run, List.foldlM_cons]

theorem run_append (r : Race) (sched₁ sched₂ : List Nat) :
    r.run (sched₁ ++ sched₂) = (r.run sched₁).bind (·.run sched₂) := by
  simp [run, List.foldlM_append]

end Race

/-- Four steps in a row of a call that has not started are `getOrAdd` on the interner they start
from. -/
theorem Race.run_four {r : Race} {j : Nat} {b : Bytes} (hj : r.calls[j]? = some ⟨b, .start⟩) :
    r.run [j, j, j, j] =
      (r.intern.getOrAdd b).map fun p => ⟨p.2, r.calls.set j ⟨b, .ret p.1⟩⟩ := by
  have hlt : j < r.calls.length := (List.getElem?_eq_some_iff.mp hj).1
  simp only [Race.run, List.foldlM_cons, List.foldlM_nil, Race.step, hj, Call.step,
    Intern.getOrAdd, List.getElem?_set, List.length_set, hlt, List.set_set, if_true,
    Option.map_some', Option.bind_eq_bind, Option.some_bind]
  rcases findId r.intern.names b (r.intern.bucket (fnv1a64 b)) with _ | _ | id <;>
    simp [List.getElem?_set, hlt, Intern.register, Intern.setBucket, Intern.bucket]

/-- Two calls of `GetOrAdd` on the key `A`, interleaved at their lock boundaries from a fresh
interner: both read the empty bucket, both miss, both append `A` to `names`, and they return the
ids `0` and `1`; the bucket of `A` keeps the id `1` only. -/
theorem getOrAdd_race_two_ids :
    ((Race.start Intern.new [[65], [65]]).run [0, 1, 0, 1, 0, 1, 0, 1]).map
        (fun r => (r.calls, r.intern.names, r.intern.bucket (fnv1a64 [65]))) =
      some ([⟨[65], .ret 0⟩, ⟨[65], .ret 1⟩], [[65], [65]], [1]) := by
  decide

end BillionRows
