import BillionRows.Channels

/-!
# Progress of the channel pipeline

No interleaving of the goroutines of `src/unnamed/part_001` deadlocks or runs forever. Every event
lowers the work left (`Pipeline.work`), so a run from `init` has at most `work (init data n)`
events; and in every state a run reaches, some goroutine can move until `main` has left its loop
(`Inv.progress`). So every maximal interleaving ends with `main` done, where `run_counts_lines`
gives the counts. Nor does any interleaving send on a closed channel, on which Go panics
(`run_sends_open`).
-/

namespace BillionRows

/-- The moves a worker has still to make: receive until `lineChan` is closed, send its map, have
it merged. -/
def WorkerStatus.rank : WorkerStatus → Nat
  | .receiving => 3
  | .sent => 1
  | .merged => 0

theorem sum_map_modify_le {α : Type} (g : α → Nat) (f : α → α) (hf : ∀ x, g (f x) ≤ g x) :
    ∀ (l : List α) (j : Nat), ((l.modify f j).map g).sum ≤ (l.map g).sum
  | [], _ => by simp
  | x :: l, 0 => by
    simp only [List.modify_zero_cons, List.map_cons, List.sum_cons]
    exact Nat.add_le_add_right (hf x) _
  | x :: l, j + 1 => by
    simp only [List.modify_succ_cons, List.map_cons, List.sum_cons]
    exact Nat.add_le_add_left (sum_map_modify_le g f hf l j) _

namespace Pipeline

variable {V : Type} [LT V] [DecidableRel (α := V) (· < ·)] [Add V] [DecidableEq V]
  {parseFloat : Bytes → Option V} {lines : List Bytes} {n : Nat} {s s' : Pipeline V}

/-- The work left: each line to send counts twice (sent, received), each line in `lineChan` and
each map in `resultChan` once, each worker its `rank`, and each close and `main`'s exit once. -/
def work (s : Pipeline V) : Nat :=
  2 * s.pending.length + s.lineChan.length + (if s.lineClosed then 0 else 1) +
    (s.workers.map fun w => w.status.rank).sum + s.resultChan.length +
    (if s.resultClosed then 0 else 1) + (if s.finished then 0 else 1)

omit [LT V] [DecidableRel (α := V) (· < ·)] [Add V] [DecidableEq V] in
theorem work_init (data : Bytes) (workerCount : Nat) :
    (init data workerCount : Pipeline V).work =
      2 * (readLines data []).length + 3 * workerCount + 3 := by
  simp [work, init, WorkerStatus.rank]
  omega

/-- Every event lowers the work left. -/
theorem work_step {e : Event V} (h : s.step parseFloat e = some s') : s'.work < s.work := by
  cases e with
  | readerSend =>
    obtain ⟨l, rest, hp, -, rfl⟩ := step_readerSend h
    simp only [work, hp, List.length_cons, List.length_append, List.length_singleton,
      List.length_nil]
    omega
  | readerClose =>
    obtain ⟨-, hopen, rfl⟩ := step_readerClose h
    simp only [work, hopen, Bool.false_eq_true, reduceIte]
    omega
  | workerRecv j =>
    obtain ⟨w, l, rest, hw, hc, -, rfl⟩ := step_workerRecv h
    have := sum_map_set (fun w : LineWorker V => w.status.rank) s.workers j
      { w with localMap := workerLine parseFloat w.localMap l, got := w.got ++ [l] } hw
    simp only [work, hc, List.length_cons] at this ⊢
    omega
  | workerSend j =>
    obtain ⟨w, hw, hrecv, -, -, -, rfl⟩ := step_workerSend h
    have := sum_map_set (fun w : LineWorker V => w.status.rank) s.workers j
      { w with status := .sent } hw
    simp only [work, hrecv, WorkerStatus.rank, List.length_append, List.length_singleton]
      at this ⊢
    omega
  | closerClose =>
    obtain ⟨-, hopen, rfl⟩ := step_closerClose h
    simp only [work, hopen, Bool.false_eq_true, reduceIte]
    omega
  | mainRecv order =>
    obtain ⟨j, p, rest, hc, -, rfl⟩ := step_mainRecv h
    have := sum_map_modify_le (fun w : LineWorker V => w.status.rank)
      (fun w => { w with status := .merged })
      (fun w => by cases w.status <;> simp [WorkerStatus.rank]) s.workers j
    simp only [work, hc, List.length_cons]
    omega
  | mainEnd =>
    obtain ⟨-, -, hf, rfl⟩ := step_mainEnd h
    simp only [work, hf, Bool.false_eq_true, reduceIte]
    omega

/-- A run is at most as long as the work left where it starts. -/
theorem work_run : ∀ (events : List (Event V)) {s s' : Pipeline V},
    s.run parseFloat events = some s' → events.length + s'.work ≤ s.work
  | [], _, _, h => by
    obtain rfl := Option.some.inj h
    simp
  | e :: events, _, _, h => by
    rw [run_cons] at h
    obtain ⟨t, ht, h⟩ := Option.bind_eq_some.mp h
    have h₁ := work_step ht
    have h₂ := work_run events h
    simp only [List.length_cons]
    omega

omit [DecidableEq V] in
/-- While a worker still receives, `resultChan` has room: its maps come from distinct workers that
have sent. -/
theorem Inv.length_resultChan_lt (hi : s.Inv parseFloat lines n) {j : Nat} {w : LineWorker V}
    (hw : s.workers[j]? = some w) (hs : w.status = .receiving) :
    s.resultChan.length < s.workers.length := by
  have hj := (List.getElem?_eq_some_iff.mp hw).1
  have hsub : (s.resultChan.map Prod.fst).toFinset ⊆ (Finset.range s.workers.length).erase j := by
    intro x hx
    obtain ⟨⟨x, p⟩, hp, rfl⟩ := List.mem_map.mp (List.mem_toFinset.mp hx)
    obtain ⟨w', hw', -, -⟩ := hi.results_sent x p hp
    exact Finset.mem_erase.mpr ⟨hi.ne_of_result hp hw (by simp [hs]),
      Finset.mem_range.mpr (List.getElem?_eq_some_iff.mp hw').1⟩
  have hcard := Finset.card_le_card hsub
  rw [List.toFinset_card_of_nodup hi.results_nodup, List.length_map,
    Finset.card_erase_of_mem (Finset.mem_range.mpr hj), Finset.card_range] at hcard
  omega

omit [DecidableEq V] in
/-- With lines in `lineChan`, worker `0` still receives. -/
theorem Inv.first_receiving (hi : s.Inv parseFloat lines n) (hn : 0 < n) {l : Bytes}
    {rest : List Bytes} (hc : s.lineChan = l :: rest) :
    ∃ w, s.workers[0]? = some w ∧ w.status = .receiving := by
  obtain ⟨w, hw⟩ : ∃ w, s.workers[0]? = some w :=
    ⟨_, List.getElem?_eq_getElem (hi.length_eq ▸ hn)⟩
  refine ⟨w, hw, ?_⟩
  by_contra hs
  simp [(hi.done_drained w (List.getElem?_mem hw) hs).2] at hc

/-- Until `main` has left its loop, some goroutine can move. -/
theorem Inv.progress (hi : s.Inv parseFloat lines n) (hn : 0 < n) (hf : s.finished = false) :
    ∃ e, s.step parseFloat e ≠ none := by
  have hrecv : ∀ l rest, s.lineChan = l :: rest → s.step parseFloat (.workerRecv 0) ≠ none :=
    fun l rest hc => by
      obtain ⟨w, hw, hs⟩ := hi.first_receiving hn hc
      simp [Pipeline.step, hw, hc, hs]
  rcases hp : s.pending with _ | ⟨l, rest⟩
  · cases hcl : s.lineClosed
    · exact ⟨.readerClose, by simp [Pipeline.step, hp, hcl]⟩
    rcases hc : s.lineChan with _ | ⟨l, rest⟩
    · by_cases hall : ∀ w ∈ s.workers, w.status ≠ .receiving
      · rcases hr : s.resultChan with _ | ⟨⟨j, p⟩, rest⟩
        · cases hrc : s.resultClosed
          · exact ⟨.closerClose, by simp [Pipeline.step, hrc]; exact hall⟩
          · exact ⟨.mainEnd, by simp [Pipeline.step, hrc, hr, hf]⟩
        · obtain ⟨order, ho⟩ := RangeOrder.exists p
          exact ⟨.mainRecv order, by simp [Pipeline.step, hr, ho]⟩
      · push_neg at hall
        obtain ⟨w, hmem, hs⟩ := hall
        obtain ⟨j, hw⟩ := List.mem_iff_getElem?.mp hmem
        exact ⟨.workerSend j,
          by simp [Pipeline.step, hw, hs, hcl, hc, hi.length_resultChan_lt hw hs]⟩
    · exact ⟨_, hrecv l rest hc⟩
  · by_cases hcap : s.lineChan.length < lineCap
    · exact ⟨.readerSend, by simp [Pipeline.step, hp, hcap]⟩
    · rcases hc : s.lineChan with _ | ⟨l', rest'⟩
      · simp [hc, lineCap] at hcap
      · exact ⟨_, hrecv l' rest' hc⟩

/-- Every interleaving of the goroutines on `data` with at least one worker is finite: it has at
most `2 * lines + 3 * workerCount + 3` events, and it can stop, with no goroutine able to move,
only once `main` has left its loop. -/
theorem run_terminates (data : Bytes) {workerCount : Nat} (hw : 0 < workerCount)
    (events : List (Event V)) {s : Pipeline V}
    (h : (init data workerCount).run parseFloat events = some s) :
    events.length ≤ 2 * (readLines data []).length + 3 * workerCount + 3 ∧
      ((∀ e, s.step parseFloat e = none) → s.finished = true) := by
  refine ⟨?_, fun hstop => ?_⟩
  · have := work_run events h
    rw [work_init] at this
    omega
  · by_contra hf
    obtain ⟨e, he⟩ := (Inv.run events (inv_init data workerCount) h).progress hw
      (Bool.eq_false_iff.mpr hf)
    exact he (hstop e)

theorem run_terminates_one :
    let parse : Bytes → Option Int := fun b => if b = [49] then some 1 else none
    let events : List (Event Int) := [.readerSend, .readerClose, .workerRecv 0, .workerSend 0,
      .closerClose, .mainRecv [⟨[65], ⟨1, 1, 1, 1⟩⟩], .mainEnd]
    ∃ s, (init [65, 59, 49] 1).run parse events = some s ∧
      events.length ≤ 2 * (readLines [65, 59, 49] []).length + 3 * 1 + 3 ∧
      ((∀ e, s.step parse e = none) → s.finished = true) := by
  intro parse events
  have hrun : (init [65, 59, 49] 1).run parse events = some _ := rfl
  exact ⟨_, hrun, run_terminates [65, 59, 49] (by decide) events hrun⟩

/-- No interleaving sends on a closed channel: in every state a run from `init` reaches, the
reader can send a line only while `lineChan` is open, and a worker its map only while the closer
has not closed `resultChan`. -/
theorem run_sends_open (data : Bytes) (workerCount : Nat) (events : List (Event V))
    {s : Pipeline V} (h : (init data workerCount).run parseFloat events = some s) :
    (∀ s', s.step parseFloat .readerSend = some s' → s.lineClosed = false) ∧
      ∀ j s', s.step parseFloat (.workerSend j) = some s' → s.resultClosed = false := by
  have hi := Inv.run events (inv_init data workerCount) h
  refine ⟨fun s' hs => ?_, fun j s' hs => ?_⟩
  · obtain ⟨l, rest, hp, -, -⟩ := step_readerSend hs
    exact Bool.eq_false_iff.mpr fun hc => by simp [hi.closed_pending hc] at hp
  · obtain ⟨w, hw, hst, -⟩ := step_workerSend hs
    exact Bool.eq_false_iff.mpr fun hc => hi.closed_done hc w (List.getElem?_mem hw) hst

theorem run_sends_open_one :
    let parse : Bytes → Option Int := fun b => if b = [49] then some 1 else none
    ∃ s, (init [65, 59, 49] 1).run parse [.readerSend, .readerClose, .workerRecv 0] = some s ∧
      (∀ s', s.step parse .readerSend = some s' → s.lineClosed = false) ∧
      ∀ j s', s.step parse (.workerSend j) = some s' → s.resultClosed = false := by
  intro parse
  have hrun : (init [65, 59, 49] 1).run parse [.readerSend, .readerClose, .workerRecv 0] =
      some _ := rfl
  exact ⟨_, hrun, run_sends_open [65, 59, 49] 1 _ hrun⟩

end Pipeline

end BillionRows
