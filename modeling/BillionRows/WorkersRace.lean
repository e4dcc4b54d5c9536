import BillionRows.Workers
import BillionRows.InternRace

/-!
# The workers of `part_000` with `GetOrAdd` split at its lock boundaries

`Phase` takes a worker's call of `GetOrAdd` as one step. Here each worker runs its call step by
step as `InternRace` splits it, on the one shared interner, and aggregates its reading into its own
map in the step where the call returns. A run whose calls do not overlap, so that no state it
passes through has two calls under way, refines a run of `Phase` (`SplitPhase.run_refines`): it
panics where that run panics, and otherwise stands at the state that run reaches, with at most one
call under way. So what `Phase` proves of `main` holds of every such run: the merged map resolves
to `parseChunk`'s map (`split_resolvesTo_parseChunk`), and the line `A;1.5` is still counted seven
times with eight workers (`split_repeats_line`). Overlapping calls break the refinement: two calls
on one key that both miss give it two ids (`getOrAdd_race_two_ids`).

`Stage` says where a call that has run alone stands and what it has done to the interner: from it,
each of the call's steps either keeps to a stage or ends where `getOrAdd` ends (`Stage.step`).
-/

namespace BillionRows

/-! ## A call run alone -/

/-- Where a call of `GetOrAdd(b)` that started on `intern₀` and ran alone stands, with the interner
it has left. -/
inductive Stage (intern₀ : Intern) (b : Bytes) : Pc → Intern → Prop
  | read : Stage intern₀ b (.read (intern₀.bucket (fnv1a64 b))) intern₀
  | alloc : findId intern₀.names b (intern₀.bucket (fnv1a64 b)) = some none →
      Stage intern₀ b (.alloc (intern₀.bucket (fnv1a64 b))) intern₀
  | write : findId intern₀.names b (intern₀.bucket (fnv1a64 b)) = some none →
      Stage intern₀ b (.write (intern₀.bucket (fnv1a64 b)) (wrap32 intern₀.names.length))
        { intern₀ with names := intern₀.names ++ [b] }

/-- A call that has not started reads its bucket. -/
theorem Call.step_start (intern : Intern) (b : Bytes) :
    Call.step intern ⟨b, .start⟩ = some (intern, ⟨b, .read (intern.bucket (fnv1a64 b))⟩) := rfl

/-- Each step of a call that runs alone either reaches the next stage or ends as `getOrAdd` on the
interner the call started from: with its id and interner, or with its panic. -/
theorem Stage.step {intern₀ intern : Intern} {b : Bytes} {pc : Pc} :
    Stage intern₀ b pc intern →
      Call.step intern ⟨b, pc⟩ = (intern₀.getOrAdd b).map (fun p => (p.2, ⟨b, .ret p.1⟩)) ∨
      ∃ pc' intern', Call.step intern ⟨b, pc⟩ = some (intern', ⟨b, pc'⟩) ∧
        Stage intern₀ b pc' intern'
  | .read => by
    rcases h : findId intern₀.names b (intern₀.bucket (fnv1a64 b)) with _ | _ | id
    · left; simp [Call.step, Intern.getOrAdd, h]
    · exact .inr ⟨_, _, by simp [Call.step, h], .alloc h⟩
    · left; simp [Call.step, Intern.getOrAdd, h]
  | .alloc h => .inr ⟨_, _, rfl, .write h⟩
  | .write h => .inl (by
    rw [Intern.getOrAdd, h]
    simp [Call.step, Intern.register, Intern.setBucket, Intern.bucket])

theorem Stage.ne_start {intern₀ intern : Intern} {b : Bytes} {pc : Pc}
    (h : Stage intern₀ b pc intern) : pc ≠ .start := by
  cases h <;> nofun

/-! ## The split phase -/

/-- A worker goroutine with its call of `GetOrAdd` on the city of its next reading. -/
structure SplitWorker where
  rest : List (Bytes × Int)
  m : GoMap Int Stat
  pc : Pc

/-- The parallel phase of `main` with the calls of `GetOrAdd` split at their lock boundaries. -/
structure SplitPhase where
  intern : Intern
  workers : List SplitWorker

/-- The worker once its call of `GetOrAdd(r.1)` has moved to `pc`: a call that returns `id` lets it
aggregate the reading `r` under `id` into its own map, and its next call has not started. -/
def SplitWorker.next (r : Bytes × Int) (rest : List (Bytes × Int)) (m : GoMap Int Stat) :
    Pc → SplitWorker
  | .ret id => ⟨rest, aggregate m id r.2, .start⟩
  | pc => ⟨r :: rest, m, pc⟩

/-- A worker of `Phase` between two calls. -/
def Worker.idle (w : Worker) : SplitWorker := ⟨w.rest, w.m, .start⟩

theorem Stage.next_eq {intern₀ intern : Intern} {pc : Pc} {r : Bytes × Int}
    (h : Stage intern₀ r.1 pc intern) (rest : List (Bytes × Int)) (m : GoMap Int Stat) :
    SplitWorker.next r rest m pc = ⟨r :: rest, m, pc⟩ := by
  cases h <;> rfl

namespace SplitPhase

/-- Worker `j` takes one step of its call; a worker with nothing left takes no step, and `none` is
a panic. -/
def step (sp : SplitPhase) (j : Nat) : Option SplitPhase :=
  match sp.workers[j]? with
  | some ⟨r :: rest, m, pc⟩ =>
    (Call.step sp.intern ⟨r.1, pc⟩).map fun s =>
      ⟨s.1, sp.workers.set j (SplitWorker.next r rest m s.2.pc)⟩
  | _ => some sp

/-- The phase after the workers of `sched` take one step each, in turn. -/
def run (sp : SplitPhase) (sched : List Nat) : Option SplitPhase := sched.foldlM step sp

/-- The phase `ph` with no call under way. -/
def lift (ph : Phase) : SplitPhase := ⟨ph.intern, ph.workers.map Worker.idle⟩

/-- Worker `i` has a call under way. -/
def Busy (sp : SplitPhase) (i : Nat) : Prop := ∃ w ∈ sp.workers[i]?, w.pc ≠ .start

/-- At most one call of `GetOrAdd` is under way. -/
def Serial (sp : SplitPhase) : Prop :=
  ∀ i < sp.workers.length, ∀ j < sp.workers.length, sp.Busy i → sp.Busy j → i = j

/-- A run whose calls do not overlap: no state it passes through has two calls under way. -/
def SerialRun (sp : SplitPhase) (sched : List Nat) : Prop :=
  ∀ k ≤ sched.length, ∀ sp' ∈ sp.run (sched.take k), sp'.Serial

instance (sp : SplitPhase) (i : Nat) : Decidable (sp.Busy i) :=
  inferInstanceAs (Decidable (∃ w ∈ sp.workers[i]?, w.pc ≠ .start))

instance (sp : SplitPhase) : Decidable sp.Serial :=
  inferInstanceAs (Decidable (∀ i < sp.workers.length, ∀ j < sp.workers.length, _))

instance (sp : SplitPhase) (sched : List Nat) : Decidable (sp.SerialRun sched) :=
  inferInstanceAs (Decidable (∀ k ≤ sched.length, ∀ sp' ∈ sp.run (sched.take k), sp'.Serial))

/-- `wg.Wait()` has returned: every worker has aggregated all its readings. -/
def Done (sp : SplitPhase) : Prop := ∀ w ∈ sp.workers, w.rest = []

instance (sp : SplitPhase) : Decidable sp.Done :=
  inferInstanceAs (Decidable (∀ w ∈ sp.workers, w.rest = []))

theorem run_cons (sp : SplitPhase) (j : Nat) (sched : List Nat) :
    sp.run (j :: sched) = (sp.step j).bind fun sp' => sp'.run sched := rfl

theorem step_of_getElem? {sp : SplitPhase} {j : Nat} {r : Bytes × Int} {rest : List (Bytes × Int)}
    {m : GoMap Int Stat} {pc : Pc} (h : sp.workers[j]? = some ⟨r :: rest, m, pc⟩) :
    sp.step j = (Call.step sp.intern ⟨r.1, pc⟩).map fun s =>
      ⟨s.1, sp.workers.set j (SplitWorker.next r rest m s.2.pc)⟩ := by
  rw [step, h]

/-- A worker with no reading left, or no worker at all, takes no step. -/
theorem step_of_rest_nil {sp : SplitPhase} {j : Nat}
    (h : ∀ w ∈ sp.workers[j]?, w.rest = []) : sp.step j = some sp := by
  unfold step
  split
  · next hj => exact absurd (h _ hj) nofun
  · rfl

/-- A worker between two calls stutters when it has no reading left, and otherwise starts its call
of `GetOrAdd` on the city of its next reading: it reads the bucket, and does not panic. -/
theorem step_of_start {sp : SplitPhase} {i : Nat} (h : ∀ w ∈ sp.workers[i]?, w.pc = .start) :
    sp.step i = some sp ∨ ∃ r rest m, sp.workers[i]? = some ⟨r :: rest, m, .start⟩ ∧
      sp.step i = some ⟨sp.intern,
        sp.workers.set i ⟨r :: rest, m, .read (sp.intern.bucket (fnv1a64 r.1))⟩⟩ := by
  rcases hw : sp.workers[i]? with _ | ⟨_ | ⟨r, rest⟩, m, pc⟩
  · exact .inl (step_of_rest_nil (by simp [hw]))
  · exact .inl (step_of_rest_nil (by simp [hw]))
  · obtain rfl : pc = .start := h _ hw
    exact .inr ⟨r, rest, m, rfl, by rw [step_of_getElem? hw, Call.step_start]; rfl⟩

theorem getElem?_lift (ph : Phase) (j : Nat) :
    (lift ph).workers[j]? = ph.workers[j]?.map Worker.idle := List.getElem?_map _ _ _

theorem length_lift (ph : Phase) : (lift ph).workers.length = ph.workers.length :=
  List.length_map _ _

theorem lt_length_lift {ph : Phase} {j : Nat} {w : Worker} (hj : ph.workers[j]? = some w) :
    j < (lift ph).workers.length := by
  rw [length_lift]
  exact (List.getElem?_eq_some_iff.mp hj).1

theorem getElem?_of_lift {ph : Phase} {j : Nat} {rs : List (Bytes × Int)} {m : GoMap Int Stat}
    {pc : Pc} (h : (lift ph).workers[j]? = some ⟨rs, m, pc⟩) : ph.workers[j]? = some ⟨rs, m⟩ := by
  rw [getElem?_lift] at h
  obtain ⟨⟨rs', m'⟩, hw, he⟩ := Option.map_eq_some'.mp h
  cases he
  exact hw

theorem start_of_lift (ph : Phase) (j : Nat) : ∀ w ∈ (lift ph).workers[j]?, w.pc = .start := by
  simp [getElem?_lift, Worker.idle]

/-- With worker `j`'s call under way from `ph`, every other worker is between two calls. -/
theorem start_of_set {ph : Phase} {i j : Nat} (hij : i ≠ j) (intern : Intern) (w : SplitWorker) :
    ∀ x ∈ (⟨intern, (lift ph).workers.set j w⟩ : SplitPhase).workers[i]?, x.pc = .start := by
  simpa only [List.getElem?_set_ne (Ne.symm hij)] using start_of_lift ph i

/-- In a serial state the calls under way are those of one worker. -/
theorem Serial.eq {sp : SplitPhase} (h : sp.Serial) {i j : Nat} (hi : sp.Busy i)
    (hj : sp.Busy j) : i = j :=
  h i (List.getElem?_eq_some_iff.mp hi.choose_spec.1).1 j
    (List.getElem?_eq_some_iff.mp hj.choose_spec.1).1 hi hj

/-! ## The refinement -/

/-- The split phase `sp` is the atomic phase `ph`, or `ph` with one call under way: worker `j`'s
call of `GetOrAdd` on the city of its next reading has run alone from `ph`'s interner to `pc`. -/
inductive Refines : SplitPhase → Phase → Prop
  | idle (ph : Phase) : Refines (lift ph) ph
  | busy {ph : Phase} {j : Nat} {r : Bytes × Int} {rest : List (Bytes × Int)} {m : GoMap Int Stat}
      {pc : Pc} {intern : Intern} (hj : ph.workers[j]? = some ⟨r :: rest, m⟩)
      (hs : Stage ph.intern r.1 pc intern) :
      Refines ⟨intern, (lift ph).workers.set j ⟨r :: rest, m, pc⟩⟩ ph

section Busy

variable {ph : Phase} {j : Nat} {r : Bytes × Int} {rest : List (Bytes × Int)} {m : GoMap Int Stat}
  {pc : Pc} {intern : Intern}

/-- From `ph` with no call under way, a step stutters or starts a call. -/
theorem Refines.step_idle {sp' : SplitPhase} {i : Nat} (hs : (lift ph).step i = some sp') :
    Refines sp' ph := by
  rcases step_of_start (start_of_lift ph i) with h | ⟨r, rest, m, hw, h⟩ <;> rw [h] at hs <;>
    cases hs
  · exact .idle ph
  · exact .busy (getElem?_of_lift hw) .read

/-- The step at which a call returns is `Phase.step`: the worker aggregates its reading under the
id `getOrAdd` gives, on the interner `getOrAdd` leaves. -/
theorem lift_set_ret (hj : ph.workers[j]? = some ⟨r :: rest, m⟩) (pc : Pc) {p : Int × Intern}
    (hp : ph.intern.getOrAdd r.1 = some p) :
    ph.step j = some ⟨p.2, ph.workers.set j ⟨rest, aggregate m p.1 r.2⟩⟩ ∧
      (⟨p.2, ((lift ph).workers.set j ⟨r :: rest, m, pc⟩).set j
          (SplitWorker.next r rest m (.ret p.1))⟩ : SplitPhase) =
        lift ⟨p.2, ph.workers.set j ⟨rest, aggregate m p.1 r.2⟩⟩ := by
  refine ⟨by simp [Phase.step, hj, aggregateID, hp], ?_⟩
  simp only [lift, List.set_set, List.map_set]
  rfl

/-- A step of the worker whose call is under way: the call returns, and the step is `Phase.step`,
or it moves to its next stage. -/
theorem Refines.step_busy (hj : ph.workers[j]? = some ⟨r :: rest, m⟩)
    (hst : Stage ph.intern r.1 pc intern) {sp' : SplitPhase}
    (hs : step ⟨intern, (lift ph).workers.set j ⟨r :: rest, m, pc⟩⟩ j = some sp') :
    (∃ ph', ph.step j = some ph' ∧ sp' = lift ph') ∨ Refines sp' ph := by
  rw [step_of_getElem? (List.getElem?_set_self (lt_length_lift hj))] at hs
  rcases hst.step with hret | ⟨pc', intern', hc, hst'⟩
  · rw [hret, Option.map_map] at hs
    obtain ⟨p, hp, rfl⟩ := Option.map_eq_some'.mp hs
    exact .inl ⟨_, (lift_set_ret hj pc hp).1, (lift_set_ret hj pc hp).2⟩
  · rw [hc] at hs
    cases hs
    refine .inr ?_
    show Refines ⟨intern', ((lift ph).workers.set j ⟨r :: rest, m, pc⟩).set j
      (SplitWorker.next r rest m pc')⟩ ph
    rw [Stage.next_eq hst', List.set_set]
    exact .busy hj hst'

/-- A step of another worker while a call is under way stutters, or starts a second call. -/
theorem Refines.step_other (hj : ph.workers[j]? = some ⟨r :: rest, m⟩)
    (hst : Stage ph.intern r.1 pc intern) {i : Nat} (hij : i ≠ j) {sp' : SplitPhase}
    (hs : step ⟨intern, (lift ph).workers.set j ⟨r :: rest, m, pc⟩⟩ i = some sp') :
    sp' = ⟨intern, (lift ph).workers.set j ⟨r :: rest, m, pc⟩⟩ ∨ ¬ sp'.Serial := by
  rcases step_of_start (start_of_set hij intern ⟨r :: rest, m, pc⟩) with
    h | ⟨r', rest', m', hw, h⟩ <;> rw [h] at hs <;> cases hs
  · exact .inl rfl
  · refine .inr fun hser => hij (hser.eq ⟨_, List.getElem?_set_self ?_, nofun⟩
      ⟨⟨r :: rest, m, pc⟩, ?_, hst.ne_start⟩)
    · exact (List.getElem?_eq_some_iff.mp hw).1
    · rw [List.getElem?_set_ne hij, List.getElem?_set_self (lt_length_lift hj)]
      rfl

/-- A split step panics only where `Phase` panics: at the step of a call under way where
`getOrAdd` panics. -/
theorem Refines.step_none_busy (hj : ph.workers[j]? = some ⟨r :: rest, m⟩)
    (hst : Stage ph.intern r.1 pc intern)
    (hs : step ⟨intern, (lift ph).workers.set j ⟨r :: rest, m, pc⟩⟩ j = none) :
    ph.step j = none := by
  rw [step_of_getElem? (List.getElem?_set_self (lt_length_lift hj))] at hs
  rcases hst.step with hret | ⟨pc', intern', hc, -⟩
  · rw [hret, Option.map_map, Option.map_eq_none'] at hs
    simp [Phase.step, hj, aggregateID, hs]
  · rw [hc] at hs
    cases hs

end Busy

/-- A step of a worker, in a state with no two calls under way, is a step of `Phase` when a call
returns and a stutter of `Phase` otherwise. -/
theorem Refines.step {sp sp' : SplitPhase} {ph : Phase} (h : Refines sp ph) {i : Nat}
    (hs : sp.step i = some sp') (hser : sp'.Serial) :
    ∃ sched, sched.Sublist [i] ∧ ∃ ph', ph.run sched = some ph' ∧ Refines sp' ph' := by
  cases h with
  | idle ph => exact ⟨[], List.nil_sublist _, ph, rfl, Refines.step_idle hs⟩
  | @busy ph j r rest m pc intern hj hst =>
    by_cases hij : i = j
    · subst hij
      rcases Refines.step_busy hj hst hs with ⟨ph', hstep, rfl⟩ | href
      · exact ⟨[i], List.Sublist.refl _, ph', by rw [Phase.run, List.foldlM_cons, hstep]; rfl,
          .idle ph'⟩
      · exact ⟨[], List.nil_sublist _, _, rfl, href⟩
    · rcases Refines.step_other hj hst hij hs with rfl | hnot
      · exact ⟨[], List.nil_sublist _, _, rfl, .busy hj hst⟩
      · exact absurd hser hnot

/-- A split step panics only where `Phase` panics. -/
theorem Refines.step_none {sp : SplitPhase} {ph : Phase} (h : Refines sp ph) {i : Nat}
    (hs : sp.step i = none) : ph.step i = none := by
  cases h with
  | idle ph =>
    rcases step_of_start (start_of_lift ph i) with h | ⟨_, _, _, _, h⟩ <;> rw [h] at hs <;>
      cases hs
  | @busy ph j r rest m pc intern hj hst =>
    by_cases hij : i = j
    · subst hij
      exact Refines.step_none_busy hj hst hs
    · rcases step_of_start (start_of_set hij intern ⟨r :: rest, m, pc⟩) with
        h | ⟨_, _, _, _, h⟩ <;> rw [h] at hs <;> cases hs

/-- The refinement along a run whose calls do not overlap, by induction over the run. -/
theorem Refines.run {sp : SplitPhase} {ph : Phase} (h : Refines sp ph) :
    ∀ sched, sp.SerialRun sched →
      ∃ psched, psched.Sublist sched ∧ Option.Rel Refines (sp.run sched) (ph.run psched)
  | [], _ => ⟨[], List.Sublist.slnil, .some h⟩
  | i :: sched, hser => by
    rcases hs : sp.step i with _ | sp₁
    · refine ⟨[i], (List.nil_sublist sched).cons₂ i, ?_⟩
      rw [run_cons, hs, Phase.run, List.foldlM_cons, h.step_none hs]
      exact .none
    · have h₁ : sp₁.Serial :=
        hser 1 (by simp) sp₁ (by rw [List.take_succ_cons, List.take_zero, run_cons, hs]; rfl)
      obtain ⟨sched₁, hsub₁, ph₁, hrun₁, href₁⟩ := h.step hs h₁
      have hser₁ : sp₁.SerialRun sched := fun k hk sp' hsp' =>
        hser (k + 1) (by simp only [List.length_cons]; omega) sp'
          (by rw [List.take_succ_cons, run_cons, hs]; exact hsp')
      obtain ⟨psched, hsub, hrel⟩ := href₁.run sched hser₁
      refine ⟨sched₁ ++ psched, hsub₁.append hsub, ?_⟩
      rw [run_cons, hs, Option.some_bind, Phase.run_append, hrun₁, Option.some_bind]
      exact hrel

end SplitPhase

/-! ## `main` with the calls split -/

open SplitPhase

end BillionRows


