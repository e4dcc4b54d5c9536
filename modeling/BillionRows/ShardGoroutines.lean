import BillionRows.ShardFiles

/-!
# The goroutines of phase 2 of `src/go_v1/main.go`

`main` launches one goroutine per shard, each after taking a slot of `sem`, a channel of capacity
`runtime.NumCPU()`. A goroutine reads its shard file back, aggregates it, sends its map on `out`,
a channel of capacity `shardCount`, and in its deferred calls gives its slot back and calls
`wg.Done()`. After the launch loop `main` starts a waiter, which closes `out` once `wg.Wait()`
returns, and merges the maps it receives from `out` until `out` is closed and empty.

`Phase2.step` is one move of one goroutine. `main` can wait on `sem` while it launches, but the
goroutines holding the slots never wait on `main`: `out` has room for every map. So no
interleaving deadlocks, every one is finite, and every one that ends has merged each shard's map
once (`phase2_run_merges_linePass`); on a file that ends with `'\n'` the merged map is `linePass`,
whatever the number of CPUs, the order of the moves and the iteration order of each map. No merge
combines two entries, so this holds for `float64` values too.

The deferred `<-sem` and `wg.Done()` of a goroutine are one move; the error branch of
`os.ReadFile` is left out, a shard file reading back as written.
-/

namespace BillionRows

/-- Where the goroutine of a shard is. -/
inductive ShardStatus
  /-- it holds a slot of `sem` and has not sent its map -/
  | running
  /-- it has sent its map on `out` and still holds its slot -/
  | sent
  /-- its deferred `<-sem` and `wg.Done()` have run -/
  | done
  deriving DecidableEq, Repr

/-- The slots of `sem` a goroutine holds. -/
def ShardStatus.slot : ShardStatus → Nat
  | .done => 0
  | _ => 1

/-- The moves a goroutine has still to make: send, give its slot back. -/
def ShardStatus.rank : ShardStatus → Nat
  | .running => 3
  | .sent => 1
  | .done => 0

/-- Phase 2 as it runs: the goroutines `main` has launched, by shard; the slots taken in `sem`;
the maps on `out`, each with its shard; `main`'s merged map and whether it has left its loop. -/
structure Phase2 (V : Type) where
  goroutines : List ShardStatus
  sem : Nat
  out : List (Nat × GoMap Bytes (Stats V))
  outClosed : Bool
  final : GoMap Bytes (Stats V)
  finished : Bool

/-- A move of one goroutine of phase 2. -/
inductive Phase2Event (V : Type)
  /-- `main`: `wg.Add(1); sem <- struct{}{}; go func(idx int) {...}(s)` -/
  | launch
  /-- the goroutine of shard `i`: `out <- ShardOut{m: m}` -/
  | send (i : Fin shardCount)
  /-- the goroutine of shard `i` returns: `<-sem`, then `wg.Done()` -/
  | release (i : Fin shardCount)
  /-- the waiter: `wg.Wait(); close(out)` -/
  | waiterClose
  /-- `main` receives a map and merges its entries in the order `order` -/
  | mainRecv (order : List (Σ _ : Bytes, Stats V))
  /-- `main` leaves its loop over `out` -/
  | mainEnd

namespace Phase2

variable {V : Type} [LT V] [DecidableRel (α := V) (· < ·)] [Add V] [DecidableEq V]
  (shardIndex : Bytes → Fin shardCount) (parseFloat : Bytes → Option V) (data : Bytes)
  (cpus : Nat)

/-- `main` at its launch loop. -/
def start : Phase2 V := ⟨[], 0, [], false, ∅, false⟩

/-- The state after a move, or `none` when the move is not enabled. `sem` has the capacity
`cpus` and `out` the capacity `shardCount`; the waiter and `main`'s loop over `out` start once
the launch loop is over. -/
def step (s : Phase2 V) : Phase2Event V → Option (Phase2 V)
  | .launch =>
    if s.goroutines.length < shardCount ∧ s.sem < cpus then
      some { s with goroutines := s.goroutines ++ [.running], sem := s.sem + 1 }
    else none
  | .send i =>
    if s.goroutines[i.val]? = some .running ∧ s.out.length < shardCount then
      some { s with
        goroutines := s.goroutines.set i .sent
        out := s.out ++ [(i.val, shardMap shardIndex parseFloat data i)] }
    else none
  | .release i =>
    if s.goroutines[i.val]? = some .sent then
      some { s with goroutines := s.goroutines.set i .done, sem := s.sem - 1 }
    else none
  | .waiterClose =>
    if s.goroutines.length = shardCount ∧ (∀ g ∈ s.goroutines, g = .done) ∧
        s.outClosed = false then
      some { s with outClosed := true }
    else none
  | .mainRecv order =>
    match s.out with
    | (_, p) :: rest =>
      if s.goroutines.length = shardCount ∧ RangeOrder p order then
        some { s with out := rest, final := order.foldl (mergeWith Stats.merge) s.final }
      else none
    | [] => none
  | .mainEnd =>
    if s.goroutines.length = shardCount ∧ s.outClosed = true ∧ s.out = [] ∧
        s.finished = false then
      some { s with finished := true }
    else none

/-- The state after the moves `events` in turn, or `none` when one is not enabled. -/
def run (s : Phase2 V) (events : List (Phase2Event V)) : Option (Phase2 V) :=
  events.foldlM (step shardIndex parseFloat data cpus) s

theorem run_cons (s : Phase2 V) (e : Phase2Event V) (events : List (Phase2Event V)) :
    s.run shardIndex parseFloat data cpus (e :: events) =
      (s.step shardIndex parseFloat data cpus e).bind fun s' =>
        s'.run shardIndex parseFloat data cpus events :=
  rfl

/-! ## What each move does -/

section Inversion

variable {shardIndex parseFloat data cpus} {s s' : Phase2 V}

theorem step_launch (h : s.step shardIndex parseFloat data cpus .launch = some s') :
    s.goroutines.length < shardCount ∧ s.sem < cpus ∧
      s' = { s with goroutines := s.goroutines ++ [.running], sem := s.sem + 1 } := by
  simp only [step] at h
  split_ifs at h with hg
  exact ⟨hg.1, hg.2, (Option.some.inj h).symm⟩

theorem step_send {i : Fin shardCount}
    (h : s.step shardIndex parseFloat data cpus (.send i) = some s') :
    s.goroutines[i.val]? = some .running ∧ s.out.length < shardCount ∧
      s' = { s with
        goroutines := s.goroutines.set i .sent
        out := s.out ++ [(i.val, shardMap shardIndex parseFloat data i)] } := by
  simp only [step] at h
  split_ifs at h with hg
  exact ⟨hg.1, hg.2, (Option.some.inj h).symm⟩

theorem step_release {i : Fin shardCount}
    (h : s.step shardIndex parseFloat data cpus (.release i) = some s') :
    s.goroutines[i.val]? = some .sent ∧
      s' = { s with goroutines := s.goroutines.set i .done, sem := s.sem - 1 } := by
  simp only [step] at h
  split_ifs at h with hg
  exact ⟨hg, (Option.some.inj h).symm⟩

theorem step_waiterClose (h : s.step shardIndex parseFloat data cpus .waiterClose = some s') :
    s.goroutines.length = shardCount ∧ (∀ g ∈ s.goroutines, g = .done) ∧ s.outClosed = false ∧
      s' = { s with outClosed := true } := by
  simp only [step] at h
  split_ifs at h with hg
  exact ⟨hg.1, hg.2.1, hg.2.2, (Option.some.inj h).symm⟩

theorem step_mainRecv {order : List (Σ _ : Bytes, Stats V)}
    (h : s.step shardIndex parseFloat data cpus (.mainRecv order) = some s') :
    ∃ i p rest, s.out = (i, p) :: rest ∧ s.goroutines.length = shardCount ∧ RangeOrder p order ∧
      s' = { s with out := rest, final := order.foldl (mergeWith Stats.merge) s.final } := by
  simp only [step] at h
  split at h
  next i p rest hout =>
    split_ifs at h with hg
    exact ⟨i, p, rest, hout, hg.1, hg.2, (Option.some.inj h).symm⟩
  next => cases h

theorem step_mainEnd (h : s.step shardIndex parseFloat data cpus .mainEnd = some s') :
    s.goroutines.length = shardCount ∧ s.outClosed = true ∧ s.out = [] ∧ s.finished = false ∧
      s' = { s with finished := true } := by
  simp only [step] at h
  split_ifs at h with hg
  exact ⟨hg.1, hg.2.1, hg.2.2.1, hg.2.2.2, (Option.some.inj h).symm⟩

end Inversion

/-! ## The invariant -/

/-- The invariant of phase 2: at most `shardCount` goroutines; `sem` counts the slots they hold,
at most `cpus`; the maps on `out` are those of distinct goroutines that have sent them; `out` is
closed only once every goroutine is done, and `main` leaves its loop only once `out` is closed
and empty. -/
structure Inv (s : Phase2 V) : Prop where
  length_le : s.goroutines.length ≤ shardCount
  sem_eq : s.sem = (s.goroutines.map ShardStatus.slot).sum
  sem_le : s.sem ≤ cpus
  out_sent : ∀ (i : Nat) p, (i, p) ∈ s.out → ∃ h : i < shardCount,
    (∃ g, s.goroutines[i]? = some g ∧ g ≠ .running) ∧
      p = shardMap shardIndex parseFloat data ⟨i, h⟩
  out_nodup : (s.out.map Prod.fst).Nodup
  closed_done : s.outClosed = true →
    s.goroutines.length = shardCount ∧ ∀ g ∈ s.goroutines, g = .done
  finished_drained : s.finished = true → s.outClosed = true ∧ s.out = []

variable {shardIndex parseFloat data cpus} {s s' : Phase2 V}

omit [DecidableEq V] in
theorem inv_start : (start : Phase2 V).Inv shardIndex parseFloat data cpus where
  length_le := Nat.zero_le _
  sem_eq := rfl
  sem_le := Nat.zero_le _
  out_sent := nofun
  out_nodup := List.nodup_nil
  closed_done := nofun
  finished_drained := nofun

omit [DecidableEq V] in
/-- While a goroutine has not returned, `out` is open and `main` is in its loop. -/
theorem Inv.open_of_mem (hi : s.Inv shardIndex parseFloat data cpus) {i : Nat} {g : ShardStatus}
    (hg : s.goroutines[i]? = some g) (hd : g ≠ .done) : s.outClosed = false ∧ s.finished = false := by
  have hc : s.outClosed = false :=
    Bool.eq_false_iff.mpr fun hc => hd ((hi.closed_done hc).2 g (List.getElem?_mem hg))
  exact ⟨hc, Bool.eq_false_iff.mpr fun hf => by simpa [hc] using (hi.finished_drained hf).1⟩

omit [DecidableEq V] in
/-- A goroutine that has not sent has no map on `out`. -/
theorem Inv.not_mem_out (hi : s.Inv shardIndex parseFloat data cpus) {i : Nat}
    (hrun : s.goroutines[i]? = some .running) : i ∉ s.out.map Prod.fst := fun hmem => by
  obtain ⟨⟨_, p⟩, hp, rfl⟩ := List.mem_map.mp hmem
  obtain ⟨-, ⟨g, hg, hgr⟩, -⟩ := hi.out_sent _ p hp
  exact hgr (Option.some.inj (hg.symm.trans hrun))

/-- A launch takes a free slot for a goroutine that has not sent, before the waiter exists. -/
theorem Inv.launch (hi : s.Inv shardIndex parseFloat data cpus)
    (h : s.step shardIndex parseFloat data cpus .launch = some s') :
    s'.Inv shardIndex parseFloat data cpus := by
  obtain ⟨hlen, hsem, rfl⟩ := step_launch h
  refine
    { length_le := by rw [List.length_append, List.length_singleton]; exact hlen
      sem_eq := by simp [hi.sem_eq, ShardStatus.slot]
      sem_le := hsem
      out_sent := fun i p hp => ?_
      out_nodup := hi.out_nodup
      closed_done := fun hc => absurd (hi.closed_done hc).1 (Nat.ne_of_lt hlen)
      finished_drained := hi.finished_drained }
  obtain ⟨hi', ⟨g, hg, hgr⟩, rfl⟩ := hi.out_sent i p hp
  exact ⟨hi', ⟨g, by rwa [List.getElem?_append_left (List.getElem?_eq_some_iff.mp hg).1], hgr⟩, rfl⟩

/-- A send puts the map of a goroutine that had none on `out`, which has not been closed. -/
theorem Inv.send (hi : s.Inv shardIndex parseFloat data cpus) {i : Fin shardCount}
    (h : s.step shardIndex parseFloat data cpus (.send i) = some s') :
    s'.Inv shardIndex parseFloat data cpus := by
  obtain ⟨hrun, -, rfl⟩ := step_send h
  have hopen := hi.open_of_mem hrun nofun
  have hnot := hi.not_mem_out hrun
  refine
    { length_le := by rw [List.length_set]; exact hi.length_le
      sem_eq := by
        have := sum_map_set ShardStatus.slot s.goroutines i .sent hrun
        have := hi.sem_eq
        simp only [ShardStatus.slot] at *
        omega
      sem_le := hi.sem_le
      out_sent := fun j p hp => ?_
      out_nodup := by
        rw [List.map_append, List.nodup_append]
        exact ⟨hi.out_nodup, List.nodup_singleton _, List.disjoint_singleton.mpr hnot⟩
      closed_done := fun hc => by simp [hopen.1] at hc
      finished_drained := fun hf => by simp [hopen.2] at hf }
  rcases List.mem_append.mp hp with hp | hp
  · obtain ⟨hj, ⟨g, hg, hgr⟩, rfl⟩ := hi.out_sent j p hp
    have hji : (i : Nat) ≠ j := fun e => hnot (e ▸ List.mem_map_of_mem Prod.fst hp)
    exact ⟨hj, ⟨g, by rwa [List.getElem?_set_ne hji], hgr⟩, rfl⟩
  · obtain ⟨rfl, rfl⟩ := Prod.mk.inj (List.mem_singleton.mp hp)
    exact ⟨i.isLt, ⟨.sent, List.getElem?_set_self (List.getElem?_eq_some_iff.mp hrun).1, nofun⟩,
      rfl⟩

/-- A return gives back the slot of a goroutine that has sent; its map, on `out` or received,
stays sent. -/
theorem Inv.release (hi : s.Inv shardIndex parseFloat data cpus) {i : Fin shardCount}
    (h : s.step shardIndex parseFloat data cpus (.release i) = some s') :
    s'.Inv shardIndex parseFloat data cpus := by
  obtain ⟨hsent, rfl⟩ := step_release h
  have hopen := hi.open_of_mem hsent nofun
  refine
    { length_le := by rw [List.length_set]; exact hi.length_le
      sem_eq := by
        have := sum_map_set ShardStatus.slot s.goroutines i .done hsent
        have := hi.sem_eq
        simp only [ShardStatus.slot] at *
        omega
      sem_le := Nat.le_trans (Nat.sub_le _ _) hi.sem_le
      out_sent := fun j p hp => ?_
      out_nodup := hi.out_nodup
      closed_done := fun hc => by simp [hopen.1] at hc
      finished_drained := fun hf => by simp [hopen.2] at hf }
  obtain ⟨hj, ⟨g, hg, hgr⟩, rfl⟩ := hi.out_sent j p hp
  refine ⟨hj, ?_, rfl⟩
  by_cases hji : (i : Nat) = j
  · subst hji
    exact ⟨.done, List.getElem?_set_self (List.getElem?_eq_some_iff.mp hg).1, nofun⟩
  · exact ⟨g, by rwa [List.getElem?_set_ne hji], hgr⟩

/-- Every move keeps the invariant. -/
theorem Inv.step (hi : s.Inv shardIndex parseFloat data cpus) {e : Phase2Event V}
    (h : s.step shardIndex parseFloat data cpus e = some s') :
    s'.Inv shardIndex parseFloat data cpus := by
  cases e with
  | launch => exact hi.launch h
  | send i => exact hi.send h
  | release i => exact hi.release h
  | waiterClose =>
    obtain ⟨hlen, hdone, hc, rfl⟩ := step_waiterClose h
    exact { hi with
      closed_done := fun _ => ⟨hlen, hdone⟩
      finished_drained := fun hf => by simpa [hc] using hi.finished_drained hf }
  | mainRecv order =>
    obtain ⟨i, p, rest, hout, -, -, rfl⟩ := step_mainRecv h
    have hnd := hi.out_nodup
    rw [hout, List.map_cons, List.nodup_cons] at hnd
    exact { hi with
      out_sent := fun j q hq => hi.out_sent j q (by rw [hout]; exact List.mem_cons_of_mem _ hq)
      out_nodup := hnd.2
      finished_drained := fun hf => by simp [(hi.finished_drained hf).2] at hout }
  | mainEnd =>
    obtain ⟨-, hc, hout, -, rfl⟩ := step_mainEnd h
    exact { hi with finished_drained := fun _ => ⟨hc, hout⟩ }

theorem Inv.run : ∀ (events : List (Phase2Event V)) {s s' : Phase2 V},
    s.Inv shardIndex parseFloat data cpus →
      s.run shardIndex parseFloat data cpus events = some s' →
        s'.Inv shardIndex parseFloat data cpus
  | [], _, _, hi, h => Option.some.inj h ▸ hi
  | e :: events, _, _, hi, h => by
    rw [run_cons] at h
    obtain ⟨t, ht, h⟩ := Option.bind_eq_some.mp h
    exact Inv.run events (hi.step ht) h

/-! ## Every interleaving is finite and ends with `main` done -/

/-- The moves left: four for each goroutine still to launch (its launch, its send, its return and
the receipt of its map), the `rank` of each launched one, one for each map on `out`, and one each
for the close of `out` and `main`'s exit. -/
def work (s : Phase2 V) : Nat :=
  4 * (shardCount - s.goroutines.length) + (s.goroutines.map ShardStatus.rank).sum +
    s.out.length + (if s.outClosed then 0 else 1) + (if s.finished then 0 else 1)

/-- Every move lowers the moves left. -/
theorem work_step {e : Phase2Event V} (h : s.step shardIndex parseFloat data cpus e = some s') :
    s'.work < s.work := by
  cases e with
  | launch =>
    obtain ⟨hlen, -, rfl⟩ := step_launch h
    simp only [work, List.length_append, List.length_singleton, List.map_append, List.sum_append,
      List.map_singleton, List.sum_singleton, ShardStatus.rank]
    omega
  | send i =>
    obtain ⟨hrun, -, rfl⟩ := step_send h
    have := sum_map_set ShardStatus.rank s.goroutines i .sent hrun
    simp only [work, ShardStatus.rank, List.length_set, List.length_append, List.length_singleton]
      at this ⊢
    omega
  | release i =>
    obtain ⟨hsent, rfl⟩ := step_release h
    have := sum_map_set ShardStatus.rank s.goroutines i .done hsent
    simp only [work, ShardStatus.rank, List.length_set] at this ⊢
    omega
  | waiterClose =>
    obtain ⟨-, -, hc, rfl⟩ := step_waiterClose h
    simp only [work, hc, Bool.false_eq_true, reduceIte]
    omega
  | mainRecv order =>
    obtain ⟨i, p, rest, hout, -, -, rfl⟩ := step_mainRecv h
    simp only [work, hout, List.length_cons]
    omega
  | mainEnd =>
    obtain ⟨-, -, -, hf, rfl⟩ := step_mainEnd h
    simp only [work, hf, Bool.false_eq_true, reduceIte]
    omega

theorem work_run : ∀ (events : List (Phase2Event V)) {s s' : Phase2 V},
    s.run shardIndex parseFloat data cpus events = some s' → events.length + s'.work ≤ s.work
  | [], _, _, h => by
    obtain rfl := Option.some.inj h
    simp
  | e :: events, _, _, h => by
    rw [run_cons] at h
    obtain ⟨t, ht, h⟩ := Option.bind_eq_some.mp h
    have h₁ := work_step ht
    have h₂ := work_run events h
    simp only [List.length_cons]
    omega

omit [DecidableEq V] in
/-- While a goroutine has not sent, `out` has room for its map: the maps on `out` come from
distinct goroutines that have sent. -/
theorem Inv.length_out_lt (hi : s.Inv shardIndex parseFloat data cpus) {i : Nat}
    (hrun : s.goroutines[i]? = some .running) : s.out.length < shardCount := by
  have hi' := (List.getElem?_eq_some_iff.mp hrun).1
  have hsub : (s.out.map Prod.fst).toFinset ⊆ (Finset.range s.goroutines.length).erase i := by
    intro x hx
    obtain ⟨⟨x, p⟩, hp, rfl⟩ := List.mem_map.mp (List.mem_toFinset.mp hx)
    obtain ⟨-, ⟨g, hg, -⟩, -⟩ := hi.out_sent x p hp
    exact Finset.mem_erase.mpr ⟨fun e => hi.not_mem_out hrun (e ▸ List.mem_map_of_mem Prod.fst hp),
      Finset.mem_range.mpr (List.getElem?_eq_some_iff.mp hg).1⟩
  have hcard := Finset.card_le_card hsub
  rw [List.toFinset_card_of_nodup hi.out_nodup, List.length_map,
    Finset.card_erase_of_mem (Finset.mem_range.mpr hi'), Finset.card_range] at hcard
  have := hi.length_le
  omega

/-- Until `main` has left its loop, some goroutine can move: a goroutine that has not sent can
send, one that has sent can return, and once all have returned `main` can launch the next one
(`sem` is empty), receive, or see `out` closed by the waiter. -/
theorem Inv.progress (hi : s.Inv shardIndex parseFloat data cpus) (hcpu : 0 < cpus)
    (hf : s.finished = false) : ∃ e, s.step shardIndex parseFloat data cpus e ≠ none := by
  have hidx : ∀ {i g}, s.goroutines[i]? = some g → i < shardCount := fun hg =>
    Nat.lt_of_lt_of_le (List.getElem?_eq_some_iff.mp hg).1 hi.length_le
  by_cases hrun : ∃ i : Nat, s.goroutines[i]? = some ShardStatus.running
  · obtain ⟨i, hg⟩ := hrun
    exact ⟨.send ⟨i, hidx hg⟩, by simp [Phase2.step, hg, hi.length_out_lt hg]⟩
  by_cases hsent : ∃ i : Nat, s.goroutines[i]? = some ShardStatus.sent
  · obtain ⟨i, hg⟩ := hsent
    exact ⟨.release ⟨i, hidx hg⟩, by simp [Phase2.step, hg]⟩
  have hdone : ∀ g ∈ s.goroutines, g = .done := fun g hg => by
    obtain ⟨i, hg⟩ := List.mem_iff_getElem?.mp hg
    cases g with
    | running => exact absurd ⟨i, hg⟩ hrun
    | sent => exact absurd ⟨i, hg⟩ hsent
    | done => rfl
  by_cases hlen : s.goroutines.length < shardCount
  · have hsem : s.sem = 0 := hi.sem_eq.trans (List.sum_eq_zero fun x hx => by
      obtain ⟨g, hg, rfl⟩ := List.mem_map.mp hx
      rw [hdone g hg]
      rfl)
    exact ⟨.launch, by simp [Phase2.step, hlen, hsem, hcpu]⟩
  have hlen' : s.goroutines.length = shardCount := Nat.le_antisymm hi.length_le (not_lt.mp hlen)
  rcases hout : s.out with _ | ⟨⟨i, p⟩, rest⟩
  · cases hc : s.outClosed
    · exact ⟨.waiterClose, by simpa [Phase2.step, hlen', hc] using hdone⟩
    · exact ⟨.mainEnd, by simp [Phase2.step, hlen', hc, hout, hf]⟩
  · obtain ⟨order, ho⟩ := RangeOrder.exists p
    exact ⟨.mainRecv order, by simp [Phase2.step, hout, hlen', ho]⟩

/-! ## What `final` holds -/

/-- `main` has merged the map of shard `i`: its goroutine has sent it, and it is no longer on
`out`. -/
def Received (s : Phase2 V) (i : Nat) : Prop :=
  (∃ g, s.goroutines[i]? = some g ∧ g ≠ .running) ∧ i ∉ s.out.map Prod.fst

variable (shardIndex parseFloat data) in
/-- `final` holds the entries of the maps `main` has merged, and nothing else: a station has the
entry of its shard's map once that map is merged. -/
def FinalInv (s : Phase2 V) : Prop :=
  ∀ k, (Received s (shardIndex k) →
      s.final.lookup k = (shardMap shardIndex parseFloat data (shardIndex k)).lookup k) ∧
    (¬Received s (shardIndex k) → s.final.lookup k = none)

omit [DecidableEq V] in
theorem finalInv_start : (start : Phase2 V).FinalInv shardIndex parseFloat data := fun _ =>
  ⟨fun h => absurd h.1 (by simp [start]), fun _ => rfl⟩

omit [LT V] [DecidableRel (α := V) (· < ·)] [Add V] [DecidableEq V] in
theorem received_launch (i : Nat) :
    Received { s with goroutines := s.goroutines ++ [.running], sem := s.sem + 1 } i ↔
      Received s i := by
  simp only [Received, List.getElem?_append]
  split_ifs with hi
  · rfl
  · rw [List.getElem?_eq_none (not_lt.mp hi)]
    rcases Nat.lt_or_ge (i - s.goroutines.length) 1 with h | h
    · simp [show i - s.goroutines.length = 0 by omega]
    · simp [List.getElem?_eq_none (show [ShardStatus.running].length ≤ _ from h)]

omit [LT V] [DecidableRel (α := V) (· < ·)] [Add V] [DecidableEq V] in
theorem received_send {i : Fin shardCount} (hrun : s.goroutines[i.val]? = some .running)
    (p : GoMap Bytes (Stats V)) (j : Nat) :
    Received { s with goroutines := s.goroutines.set i .sent, out := s.out ++ [(i.val, p)] } j ↔
      Received s j := by
  by_cases hij : (i : Nat) = j
  · subst hij
    simp [Received, hrun]
  · simp [Received, List.getElem?_set_ne hij, Ne.symm hij]

omit [LT V] [DecidableRel (α := V) (· < ·)] [Add V] [DecidableEq V] in
theorem received_release {i : Fin shardCount} (hsent : s.goroutines[i.val]? = some .sent)
    (j : Nat) :
    Received { s with goroutines := s.goroutines.set i .done, sem := s.sem - 1 } j ↔
      Received s j := by
  by_cases hij : (i : Nat) = j
  · subst hij
    simp [Received, hsent, List.getElem?_set_self (List.getElem?_eq_some_iff.mp hsent).1]
  · simp only [Received, List.getElem?_set_ne hij]

section Keys

-- the map of a shard has entries only for the stations of that shard
variable (hkeys : ∀ (j : Fin shardCount) k, j ≠ shardIndex k →
  (shardMap shardIndex parseFloat data j).lookup k = none)
include hkeys

/-- Every move keeps `FinalInv`: only `main`'s receive changes `final`, and it merges the map of a
shard whose stations have no entry yet, and no entry of another shard. -/
theorem FinalInv.step (hi : s.Inv shardIndex parseFloat data cpus)
    (hF : s.FinalInv shardIndex parseFloat data) {e : Phase2Event V}
    (h : s.step shardIndex parseFloat data cpus e = some s') :
    s'.FinalInv shardIndex parseFloat data := by
  cases e with
  | launch =>
    obtain ⟨-, -, rfl⟩ := step_launch h
    exact fun k => by simpa only [received_launch] using hF k
  | send i =>
    obtain ⟨hrun, -, rfl⟩ := step_send h
    exact fun k => by simpa only [received_send hrun] using hF k
  | release i =>
    obtain ⟨hsent, rfl⟩ := step_release h
    exact fun k => by simpa only [received_release hsent] using hF k
  | waiterClose =>
    obtain ⟨-, -, -, rfl⟩ := step_waiterClose h
    exact hF
  | mainRecv order =>
    obtain ⟨i, p, rest, hout, -, hord, rfl⟩ := step_mainRecv h
    obtain ⟨hi', ⟨g, hg, hgr⟩, rfl⟩ := hi.out_sent i p (by simp [hout])
    have hnd := hi.out_nodup
    rw [hout, List.map_cons, List.nodup_cons] at hnd
    intro k
    have hlk : (order.foldl (mergeWith Stats.merge) s.final).lookup k = Option.merge Stats.merge
        (s.final.lookup k) ((shardMap shardIndex parseFloat data ⟨i, hi'⟩).lookup k) := by
      rw [lookup_foldl_mergeWith _ _ _ hord.nodupKeys, ← hord.lookup_eq]
    by_cases hk : (shardIndex k : Nat) = i
    · -- the station's shard is the one `main` merges now
      have hnot : ¬Received s (shardIndex k) := fun hr =>
        hr.2 (by rw [hout, hk]; exact List.mem_cons_self _ _)
      refine ⟨fun _ => ?_, fun hn => absurd ⟨⟨g, by rw [hk]; exact hg, hgr⟩, hk ▸ hnd.1⟩ hn⟩
      show (order.foldl (mergeWith Stats.merge) s.final).lookup k = _
      rw [hlk, (hF k).2 hnot, merge_none_left, show shardIndex k = ⟨i, hi'⟩ from Fin.ext hk]
    · -- another shard: the merged map has no entry for the station
      have hiff : Received { s with out := rest, final := order.foldl (mergeWith Stats.merge) s.final }
          (shardIndex k) ↔ Received s (shardIndex k) := by
        simp only [Received, hout, List.map_cons, List.mem_cons, hk, false_or]
      rw [hiff]
      show (_ → (order.foldl (mergeWith Stats.merge) s.final).lookup k = _) ∧
        (_ → (order.foldl (mergeWith Stats.merge) s.final).lookup k = none)
      rw [hlk, hkeys ⟨i, hi'⟩ k (fun e => hk (congrArg Fin.val e).symm), merge_none_right]
      exact hF k
  | mainEnd =>
    obtain ⟨-, -, -, -, rfl⟩ := step_mainEnd h
    exact hF

theorem FinalInv.run : ∀ (events : List (Phase2Event V)) {s s' : Phase2 V},
    s.Inv shardIndex parseFloat data cpus → s.FinalInv shardIndex parseFloat data →
      s.run shardIndex parseFloat data cpus events = some s' →
        s'.FinalInv shardIndex parseFloat data
  | [], _, _, _, hF, h => Option.some.inj h ▸ hF
  | e :: events, _, _, hi, hF, h => by
    rw [run_cons] at h
    obtain ⟨t, ht, h⟩ := Option.bind_eq_some.mp h
    exact FinalInv.run events (hi.step ht) (hF.step hkeys hi ht) h

end Keys

omit [DecidableEq V] in
/-- Once `main` has left its loop, every shard's map is merged. -/
theorem Inv.received_of_finished (hi : s.Inv shardIndex parseFloat data cpus)
    (hf : s.finished = true) (i : Fin shardCount) : Received s i := by
  obtain ⟨hc, hout⟩ := hi.finished_drained hf
  obtain ⟨hlen, hdone⟩ := hi.closed_done hc
  have hi' : (i : Nat) < s.goroutines.length := by rw [hlen]; exact i.isLt
  refine ⟨⟨_, List.getElem?_eq_getElem hi', ?_⟩, by simp [hout]⟩
  rw [hdone _ (List.getElem_mem hi')]
  exact nofun

end Phase2

open Phase2 in
/-- Every interleaving of phase 2 of `go_v1` on a file that ends with `'\n'`, with at least one
CPU, is finite: it has at most `4 * shardCount + 2` moves. It can stop only with `main` out of its
loop, and then `final` is `linePass`, the map of one pass over the lines of the file. -/
theorem phase2_run_merges_linePass {V : Type} [LT V] [DecidableRel (α := V) (· < ·)] [Add V]
    [DecidableEq V] (shardIndex : Bytes → Fin shardCount) (parseFloat : Bytes → Option V)
    {data : Bytes} (hdata : ∃ d, data = d ++ [newline]) {cpus : Nat} (hcpu : 0 < cpus)
    (events : List (Phase2Event V)) {s : Phase2 V}
    (h : start.run shardIndex parseFloat data cpus events = some s) :
    events.length ≤ 4 * shardCount + 2 ∧
      ((∀ e, s.step shardIndex parseFloat data cpus e = none) → s.finished = true) ∧
      (s.finished = true → s.final = linePass parseFloat data) := by
  have hi := Inv.run events inv_start h
  refine ⟨?_, fun hstop => ?_, fun hf => ?_⟩
  · have := work_run events h
    have hw : (start : Phase2 V).work = 4 * shardCount + 2 := rfl
    omega
  · by_contra hf
    obtain ⟨e, he⟩ := hi.progress hcpu (Bool.eq_false_iff.mpr hf)
    exact he (hstop e)
  · obtain ⟨ls, hls, rfl⟩ := exists_joinLines_nil (.inr hdata)
    have hkeys : ∀ (j : Fin shardCount) k, j ≠ shardIndex k →
        (shardMap shardIndex parseFloat (joinLines ls []) j).lookup k = none := fun j k hj => by
      rw [lookup_shardMap shardIndex parseFloat hls, if_neg hj]
    have hF := FinalInv.run hkeys events inv_start finalInv_start h
    refine Finmap.ext_lookup fun k => ?_
    rw [(hF k).1 (hi.received_of_finished hf _), lookup_shardMap shardIndex parseFloat hls,
      if_pos rfl]

open Phase2 in
theorem phase2_run_merges_linePass_one :
    let parse : Bytes → Option Int := fun b => if b = [49] then some 1 else none
    let events : List (Phase2Event Int) :=
      [.launch, .send ⟨0, by decide⟩, .release ⟨0, by decide⟩, .launch]
    ∃ s, start.run (fun _ => ⟨0, by decide⟩) parse [65, 59, 49, 10] 1 events = some s ∧
      events.length ≤ 4 * shardCount + 2 ∧
      ((∀ e, s.step (fun _ => ⟨0, by decide⟩) parse [65, 59, 49, 10] 1 e = none) →
        s.finished = true) ∧
      (s.finished = true → s.final = linePass parse [65, 59, 49, 10]) := by
  intro parse events
  have hrun : start.run (fun _ => ⟨0, by decide⟩) parse [65, 59, 49, 10] 1 events = some _ := rfl
  exact ⟨_, hrun, phase2_run_merges_linePass _ parse ⟨[65, 59, 49], rfl⟩ (by decide) events hrun⟩

end BillionRows
