import BillionRows.Scan
import BillionRows.FloatStats

/-!
# Channels: `src/unnamed/part_001`

A reader goroutine sends the lines of the file on `lineChan` and closes it; `workerCount` worker
goroutines receive lines until `lineChan` is closed and drained, aggregate them in local maps and
send each map on `resultChan`; a closer goroutine closes `resultChan` once every worker is done
(`wg.Wait()`); `main` merges the maps it receives until `resultChan` is closed and drained.

A state holds the goroutines' states and the two channels (a FIFO buffer and a closed flag each);
an event is one step of one goroutine, and `Pipeline.step` is `none` when it is not enabled. Two
ghost fields carry the argument: each worker records the lines it received, and each map in
`resultChan` carries the index of its sender. The invariant `Pipeline.Inv` holds along every
interleaving, and when `main` leaves its loop every line has been received by exactly one worker
and every map merged exactly once, so the count of each station is its number of lines.
-/

namespace BillionRows

/-- The lines the reader sends: `reader.ReadBytes('\n')` until the end of the file, each
non-empty result sent without its `'\n'`; `cur` holds the line read so far. -/
def readLines : Bytes → Bytes → List Bytes
  | [], cur => if cur.length > 0 then [cur] else []
  | c :: rest, cur => if c = newline then cur :: readLines rest [] else readLines rest (cur ++ [c])

theorem readLines_append {l : Bytes} (hl : newline ∉ l) (rest cur : Bytes) :
    readLines (l ++ rest) cur = readLines rest (cur ++ l) := by
  induction l generalizing cur with
  | nil => simp
  | cons c l ih =>
    simp only [List.mem_cons, not_or] at hl
    simp [readLines, Ne.symm hl.1, ih hl.2]

/-- The reader sends the lines of the buffer, and its last line unless it is empty. -/
theorem readLines_joinLines {ls : List Bytes} {last : Bytes} (hls : ∀ l ∈ ls, newline ∉ l)
    (hlast : newline ∉ last) :
    readLines (joinLines ls last) [] = ls ++ if last.length > 0 then [last] else [] := by
  induction ls with
  | nil => simpa [readLines] using readLines_append hlast [] []
  | cons l ls ih =>
    simp only [List.mem_cons, forall_eq_or_imp] at hls
    simp [readLines_append hls.1, readLines, ih hls.2]

/-- `make(chan []byte, 100000)` -/
def lineCap : Nat := 100000

/-- Where a worker goroutine stands. -/
inductive WorkerStatus
  /-- in its `for line := range lineChan` loop -/
  | receiving
  /-- has sent its map on `resultChan` and called `wg.Done()` -/
  | sent
  /-- `main` has received its map -/
  | merged
  deriving DecidableEq, Repr

section

variable {V : Type} [LT V] [DecidableRel (α := V) (· < ·)] [Add V]

/-- The station and value of a line a worker aggregates, or `none` for a line it skips: an empty
line, a line without `';'`, or a value `ParseFloat` rejects. -/
def lineReading (parseFloat : Bytes → Option V) (line : Bytes) : Option (Bytes × V) :=
  if line.length = 0 then none
  else
    let sep := findSep line
    if sep = -1 then none
    else (parseFloat (line.drop (sep.toNat + 1))).map fun v => (line.take sep.toNat, v)

/-- The body of a worker's `for line := range lineChan` loop. -/
def workerLine (parseFloat : Bytes → Option V) (localMap : GoMap Bytes (Stats V)) (line : Bytes) :
    GoMap Bytes (Stats V) :=
  match lineReading parseFloat line with
  | some (station, v) => update localMap station v
  | none => localMap

end

/-- A worker goroutine: its map `local`, the lines it received, and where it stands. -/
structure LineWorker (V : Type) where
  localMap : GoMap Bytes (Stats V)
  got : List Bytes
  status : WorkerStatus

/-- The goroutines of `main` and the two channels. -/
structure Pipeline (V : Type) where
  /-- the lines the reader has still to send -/
  pending : List Bytes
  lineChan : List Bytes
  lineClosed : Bool
  workers : List (LineWorker V)
  /-- the maps in flight, each with the index of its sender -/
  resultChan : List (Nat × GoMap Bytes (Stats V))
  resultClosed : Bool
  final : GoMap Bytes (Stats V)
  /-- `main` has left its `for partial := range resultChan` loop -/
  finished : Bool

/-- One step of one goroutine. -/
inductive Event (V : Type)
  /-- the reader sends its next line -/
  | readerSend
  /-- the reader closes `lineChan` after its last line -/
  | readerClose
  /-- worker `j` receives a line and aggregates it -/
  | workerRecv (j : Nat)
  /-- worker `j` leaves its loop and sends its map -/
  | workerSend (j : Nat)
  /-- the closer goroutine closes `resultChan` -/
  | closerClose
  /-- `main` receives a map and merges its entries in the order `order` -/
  | mainRecv (order : List (Σ _ : Bytes, Stats V))
  /-- `main` leaves its loop -/
  | mainEnd

namespace Pipeline

variable {V : Type} [LT V] [DecidableRel (α := V) (· < ·)] [Add V] [DecidableEq V]

/-- The goroutines as `main` starts them on the file `data`, with `workerCount` workers. -/
def init (data : Bytes) (workerCount : Nat) : Pipeline V where
  pending := readLines data []
  lineChan := []
  lineClosed := false
  workers := List.replicate workerCount ⟨∅, [], .receiving⟩
  resultChan := []
  resultClosed := false
  final := ∅
  finished := false

/-- The state after an event, or `none` when the event is not enabled. `resultChan` has the
capacity `runtime.NumCPU()`, the number of workers. -/
def step (parseFloat : Bytes → Option V) (s : Pipeline V) : Event V → Option (Pipeline V)
  | .readerSend =>
    match s.pending with
    | l :: rest =>
      if s.lineChan.length < lineCap then
        some { s with pending := rest, lineChan := s.lineChan ++ [l] }
      else none
    | [] => none
  | .readerClose =>
    if s.pending = [] ∧ s.lineClosed = false then some { s with lineClosed := true } else none
  | .workerRecv j =>
    match s.workers[j]?, s.lineChan with
    | some w, l :: rest =>
      if w.status = .receiving then
        some { s with
          lineChan := rest
          workers := s.workers.set j
            { w with localMap := workerLine parseFloat w.localMap l, got := w.got ++ [l] } }
      else none
    | _, _ => none
  | .workerSend j =>
    match s.workers[j]? with
    | some w =>
      if w.status = .receiving ∧ s.lineClosed = true ∧ s.lineChan = [] ∧
          s.resultChan.length < s.workers.length then
        some { s with
          resultChan := s.resultChan ++ [(j, w.localMap)]
          workers := s.workers.set j { w with status := .sent } }
      else none
    | none => none
  | .closerClose =>
    if (∀ w ∈ s.workers, w.status ≠ .receiving) ∧ s.resultClosed = false then
      some { s with resultClosed := true }
    else none
  | .mainRecv order =>
    match s.resultChan with
    | (j, p) :: rest =>
      if RangeOrder p order then
        some { s with
          resultChan := rest
          final := order.foldl (mergeWith Stats.merge) s.final
          workers := s.workers.modify (fun w => { w with status := .merged }) j }
      else none
    | [] => none
  | .mainEnd =>
    if s.resultClosed = true ∧ s.resultChan = [] ∧ s.finished = false then
      some { s with finished := true }
    else none

/-- The state after the events, in turn. -/
def run (parseFloat : Bytes → Option V) (s : Pipeline V) (events : List (Event V)) :
    Option (Pipeline V) :=
  events.foldlM (step parseFloat) s

theorem run_cons (parseFloat : Bytes → Option V) (s : Pipeline V) (e : Event V)
    (events : List (Event V)) :
    s.run parseFloat (e :: events) =
      (s.step parseFloat e).bind fun s' => s'.run parseFloat events :=
  rfl

/-! ## What each event does -/

section Inversion

variable {parseFloat : Bytes → Option V} {s s' : Pipeline V}

theorem step_readerSend (h : s.step parseFloat .readerSend = some s') :
    ∃ l rest, s.pending = l :: rest ∧ s.lineChan.length < lineCap ∧
      s' = { s with pending := rest, lineChan := s.lineChan ++ [l] } := by
  simp only [step] at h
  split at h
  next l rest hp =>
    split_ifs at h with hcap
    exact ⟨l, rest, hp, hcap, (Option.some.inj h).symm⟩
  next => cases h

theorem step_readerClose (h : s.step parseFloat .readerClose = some s') :
    s.pending = [] ∧ s.lineClosed = false ∧ s' = { s with lineClosed := true } := by
  simp only [step] at h
  split_ifs at h with hg
  exact ⟨hg.1, hg.2, (Option.some.inj h).symm⟩

theorem step_workerRecv {j : Nat} (h : s.step parseFloat (.workerRecv j) = some s') :
    ∃ w l rest, s.workers[j]? = some w ∧ s.lineChan = l :: rest ∧ w.status = .receiving ∧
      s' = { s with
        lineChan := rest
        workers := s.workers.set j
          { w with localMap := workerLine parseFloat w.localMap l, got := w.got ++ [l] } } := by
  simp only [step] at h
  split at h
  next w l rest hw hc =>
    split_ifs at h with hrecv
    exact ⟨w, l, rest, hw, hc, hrecv, (Option.some.inj h).symm⟩
  next => cases h

theorem step_workerSend {j : Nat} (h : s.step parseFloat (.workerSend j) = some s') :
    ∃ w, s.workers[j]? = some w ∧ w.status = .receiving ∧ s.lineClosed = true ∧
      s.lineChan = [] ∧ s.resultChan.length < s.workers.length ∧
      s' = { s with
        resultChan := s.resultChan ++ [(j, w.localMap)]
        workers := s.workers.set j { w with status := .sent } } := by
  simp only [step] at h
  split at h
  next w hw =>
    split_ifs at h with hg
    exact ⟨w, hw, hg.1, hg.2.1, hg.2.2.1, hg.2.2.2, (Option.some.inj h).symm⟩
  next => cases h

theorem step_closerClose (h : s.step parseFloat .closerClose = some s') :
    (∀ w ∈ s.workers, w.status ≠ .receiving) ∧ s.resultClosed = false ∧
      s' = { s with resultClosed := true } := by
  simp only [step] at h
  split_ifs at h with hg
  exact ⟨hg.1, hg.2, (Option.some.inj h).symm⟩

theorem step_mainRecv {order : List (Σ _ : Bytes, Stats V)}
    (h : s.step parseFloat (.mainRecv order) = some s') :
    ∃ j p rest, s.resultChan = (j, p) :: rest ∧ RangeOrder p order ∧
      s' = { s with
        resultChan := rest
        final := order.foldl (mergeWith Stats.merge) s.final
        workers := s.workers.modify (fun w => { w with status := .merged }) j } := by
  simp only [step] at h
  split at h
  next j p rest hc =>
    split_ifs at h with hord
    exact ⟨j, p, rest, hc, hord, (Option.some.inj h).symm⟩
  next => cases h

theorem step_mainEnd (h : s.step parseFloat .mainEnd = some s') :
    s.resultClosed = true ∧ s.resultChan = [] ∧ s.finished = false ∧
      s' = { s with finished := true } := by
  simp only [step] at h
  split_ifs at h with hg
  exact ⟨hg.1, hg.2.1, hg.2.2, (Option.some.inj h).symm⟩

end Inversion

end Pipeline

/-! ## Counting lines -/

theorem modify_eq_set {α : Type} {l : List α} {j : Nat} {a : α} (h : l[j]? = some a)
    (f : α → α) : l.modify f j = l.set j (f a) :=
  List.ext_getElem? fun k => by
    rw [List.getElem?_modify, List.getElem?_set]
    by_cases hjk : j = k
    · subst hjk; simp [h, (List.getElem?_eq_some_iff.mp h).1]
    · simp [hjk]

theorem sum_map_set_of_zero {α : Type} {f : α → Nat} {l : List α} {j : Nat} {b : α}
    (hb : l[j]? = some b) (h0 : f b = 0) (a : α) :
    ((l.set j a).map f).sum = (l.map f).sum + f a := by
  simpa [h0] using sum_map_set f l j a hb

/-- Replacing a worker by one that received `extra` more lines adds them to the received lines. -/
theorem sum_got_set {V : Type} {ws : List (LineWorker V)} {j : Nat} {w : LineWorker V}
    (hw : ws[j]? = some w) (w' : LineWorker V) (extra : List Bytes) (h : w'.got = w.got ++ extra) :
    ((ws.set j w').map fun w => (w.got : Multiset Bytes)).sum =
      (ws.map fun w => (w.got : Multiset Bytes)).sum + extra := by
  refine add_right_cancel (b := (w.got : Multiset Bytes)) ((sum_map_set _ ws j w' hw).trans ?_)
  rw [h, ← Multiset.coe_add, ← add_assoc, add_right_comm]

section Count

variable {V : Type} [LT V] [DecidableRel (α := V) (· < ·)] [Add V] (parseFloat : Bytes → Option V)

/-- The count of `station` in a map, `0` when it is absent. -/
def countOf (m : GoMap Bytes (Stats V)) (station : Bytes) : Int :=
  (m.lookup station).elim 0 Stats.count

/-- The number of lines of `ls` a worker aggregates under `station`. -/
def linesOf (station : Bytes) (ls : List Bytes) : Nat :=
  ls.countP fun l => (lineReading parseFloat l).map Prod.fst = some station

omit [LT V] [DecidableRel (α := V) (· < ·)] [Add V] in
/-- Counted over the lines the reader sends or over all the `'\n'`-separated segments of the
file, the lines of a station are the same: the reader leaves out only an empty last segment. -/
theorem linesOf_readLines (station data : Bytes) :
    linesOf parseFloat station (readLines data []) =
      linesOf parseFloat station (data.splitOn newline) := by
  obtain ⟨ls, last, hls, hlast, rfl⟩ := exists_joinLines data
  rw [readLines_joinLines hls hlast, splitOn_joinLines hls hlast]
  unfold linesOf
  rw [List.countP_append, List.countP_append]
  split_ifs with hlen
  · rfl
  · obtain rfl := List.eq_nil_of_length_eq_zero (Nat.eq_zero_of_not_pos hlen)
    rfl

omit [LT V] [DecidableRel (α := V) (· < ·)] [Add V] in
theorem sum_linesOf (station : Bytes) (ws : List (LineWorker V)) :
    (ws.map fun w => linesOf parseFloat station w.got).sum =
      Multiset.countP (fun l => (lineReading parseFloat l).map Prod.fst = some station)
        (ws.map fun w => (w.got : Multiset Bytes)).sum := by
  induction ws with
  | nil => rfl
  | cons w ws ih =>
    rw [List.map_cons, List.sum_cons, ih, List.map_cons, List.sum_cons, Multiset.countP_add,
      Multiset.coe_countP]
    rfl

omit [LT V] [DecidableRel (α := V) (· < ·)] [Add V] in
@[simp] theorem countOf_empty (k : Bytes) : countOf (∅ : GoMap Bytes (Stats V)) k = 0 := rfl

theorem countOf_update (m : GoMap Bytes (Stats V)) (station k : Bytes) (v : V) :
    countOf (update m station v) k =
      if k = station then wrap64 (countOf m k + 1) else countOf m k := by
  unfold countOf update
  rw [lookup_upsert]
  split_ifs with hk
  · subst hk
    cases m.lookup k <;> rfl
  · rfl

theorem countOf_workerLine (m : GoMap Bytes (Stats V)) (l k : Bytes) :
    countOf (workerLine parseFloat m l) k =
      if (lineReading parseFloat l).map Prod.fst = some k then wrap64 (countOf m k + 1)
      else countOf m k := by
  unfold workerLine
  rcases lineReading parseFloat l with _ | ⟨station, v⟩
  · rfl
  · simp only [countOf_update, Option.map_some', Option.some.injEq, eq_comm]

/-- A worker's count of a station is its number of lines of that station, as an `int64`. -/
theorem countOf_foldl_workerLine (k : Bytes) :
    ∀ (ls : List Bytes) (m : GoMap Bytes (Stats V)), wrap64 (countOf m k) = countOf m k →
      countOf (ls.foldl (workerLine parseFloat) m) k =
        wrap64 (countOf m k + linesOf parseFloat k ls)
  | [], m, hm => by rw [linesOf, List.countP_nil, Nat.cast_zero, add_zero, hm, List.foldl_nil]
  | l :: ls, m, hm => by
    have hm' : wrap64 (countOf (workerLine parseFloat m l) k) =
        countOf (workerLine parseFloat m l) k := by
      rw [countOf_workerLine]
      split_ifs
      exacts [wrap64_wrap64 _, hm]
    rw [List.foldl_cons, countOf_foldl_workerLine k ls _ hm', countOf_workerLine, linesOf,
      linesOf, List.countP_cons]
    by_cases hl : (lineReading parseFloat l).map Prod.fst = some k
    · rw [if_pos hl, if_pos (decide_eq_true hl), wrap64_add_wrap64, Nat.cast_succ, add_assoc,
        add_comm 1]
    · rw [if_neg hl, if_neg (by rwa [decide_eq_true_eq]), Nat.add_zero]

/-- Merging a map into `final`, in any iteration order, adds the counts as `int64`s. -/
theorem countOf_merge {p : GoMap Bytes (Stats V)} {order : List (Σ _ : Bytes, Stats V)}
    (h : RangeOrder p order) (final : GoMap Bytes (Stats V)) (k : Bytes)
    (hf : wrap64 (countOf final k) = countOf final k) (hp : wrap64 (countOf p k) = countOf p k) :
    countOf (order.foldl (mergeWith Stats.merge) final) k =
      wrap64 (countOf final k + countOf p k) := by
  unfold countOf at *
  rw [lookup_foldl_mergeWith _ _ _ h.nodupKeys, ← h.lookup_eq]
  rcases hfk : final.lookup k with _ | f <;> rcases hpk : p.lookup k with _ | q <;>
    simp_all [Option.merge, Stats.merge]

end Count

/-! ## The invariant -/

namespace Pipeline

variable {V : Type} [LT V] [DecidableRel (α := V) (· < ·)] [Add V] [DecidableEq V]
  {parseFloat : Bytes → Option V} {lines : List Bytes} {n : Nat} {s s' : Pipeline V}

/-- The invariant of the pipeline on the lines `lines` of the file with `n` workers: the lines
are received, in flight or still to send; each local map aggregates the lines its worker received;
the maps in flight are those of the workers that sent, each once; `final` counts the lines of
the workers whose maps `main` merged; and the goroutines end in the order the channels force. -/
structure Inv (parseFloat : Bytes → Option V) (lines : List Bytes) (n : Nat) (s : Pipeline V) :
    Prop where
  length_eq : s.workers.length = n
  lines_eq : (s.workers.map fun w => (w.got : Multiset Bytes)).sum + (s.lineChan : Multiset Bytes) +
    (s.pending : Multiset Bytes) = (lines : Multiset Bytes)
  local_eq : ∀ w ∈ s.workers, w.localMap = w.got.foldl (workerLine parseFloat) ∅
  results_sent : ∀ (j : Nat) p, (j, p) ∈ s.resultChan →
    ∃ w, s.workers[j]? = some w ∧ w.status = .sent ∧ p = w.localMap
  sent_results : ∀ (j : Nat) w, s.workers[j]? = some w → w.status = .sent →
    j ∈ s.resultChan.map Prod.fst
  results_nodup : (s.resultChan.map Prod.fst).Nodup
  final_count : ∀ k, countOf s.final k = wrap64 ((s.workers.map fun w =>
    if w.status = .merged then linesOf parseFloat k w.got else 0).sum : Nat)
  closed_pending : s.lineClosed = true → s.pending = []
  done_drained : ∀ w ∈ s.workers, w.status ≠ .receiving → s.lineClosed = true ∧ s.lineChan = []
  closed_done : s.resultClosed = true → ∀ w ∈ s.workers, w.status ≠ .receiving
  finished_drained : s.finished = true → s.resultClosed = true ∧ s.resultChan = []

omit [DecidableEq V] in
theorem inv_init (data : Bytes) (n : Nat) :
    (init data n : Pipeline V).Inv parseFloat (readLines data []) n where
  length_eq := List.length_replicate _ _
  lines_eq := by simp [init, nsmul_zero]
  local_eq := by simp [init]
  results_sent := nofun
  sent_results := by simp [init, List.getElem?_replicate]
  results_nodup := List.nodup_nil
  final_count := by simp [init]
  closed_pending := nofun
  done_drained := by simp [init]
  closed_done := nofun
  finished_drained := nofun

theorem Inv.readerSend (hi : s.Inv parseFloat lines n)
    (h : s.step parseFloat .readerSend = some s') : s'.Inv parseFloat lines n := by
  obtain ⟨l, rest, hp, -, rfl⟩ := step_readerSend h
  have hopen : s.lineClosed = false := by
    by_contra hc
    simp [hi.closed_pending (by simpa using hc)] at hp
  exact { hi with
    lines_eq := by
      rw [← hi.lines_eq, hp, add_assoc, add_assoc, Multiset.coe_add, Multiset.coe_add,
        List.append_assoc, List.singleton_append]
    closed_pending := by simp [hopen]
    done_drained := fun w hw hs => absurd (hi.done_drained w hw hs).1 (by simp [hopen]) }

theorem Inv.readerClose (hi : s.Inv parseFloat lines n)
    (h : s.step parseFloat .readerClose = some s') : s'.Inv parseFloat lines n := by
  obtain ⟨hp, hopen, rfl⟩ := step_readerClose h
  exact { hi with
    closed_pending := fun _ => hp
    done_drained := fun w hw hs => absurd (hi.done_drained w hw hs).1 (by simp [hopen]) }

omit [DecidableEq V] in
/-- A map in flight comes from a worker that has sent it. -/
theorem Inv.ne_of_result (hi : s.Inv parseFloat lines n) {j' j : Nat} {p : GoMap Bytes (Stats V)}
    {w : LineWorker V} (hp : (j', p) ∈ s.resultChan) (hw : s.workers[j]? = some w)
    (hs : w.status ≠ .sent) : j' ≠ j := by
  rintro rfl
  obtain ⟨w', hw', hs', -⟩ := hi.results_sent j' p hp
  rw [hw, Option.some.injEq] at hw'
  exact hs (hw' ▸ hs')

omit [DecidableEq V] in
/-- Replacing another worker keeps the sender of a map in flight. -/
theorem Inv.results_sent_set (hi : s.Inv parseFloat lines n) {j j' : Nat}
    {p : GoMap Bytes (Stats V)} (a : LineWorker V) (hp : (j', p) ∈ s.resultChan) (hne : j ≠ j') :
    ∃ w, (s.workers.set j a)[j']? = some w ∧ w.status = .sent ∧ p = w.localMap := by
  rw [List.getElem?_set_ne hne]
  exact hi.results_sent j' p hp

theorem Inv.workerRecv (hi : s.Inv parseFloat lines n) {j : Nat}
    (h : s.step parseFloat (.workerRecv j) = some s') : s'.Inv parseFloat lines n := by
  obtain ⟨w, l, rest, hw, hc, hrecv, rfl⟩ := step_workerRecv h
  set w₁ : LineWorker V :=
    { w with localMap := workerLine parseFloat w.localMap l, got := w.got ++ [l] }
  have hall : ∀ w' ∈ s.workers, w'.status = .receiving := fun w' hw' => by
    by_contra hs
    simp [(hi.done_drained w' hw' hs).2] at hc
  refine ⟨by simpa using hi.length_eq, ?_, fun w' hw' => ?_, fun j' p hp => ?_,
    fun k w' hk hs => ?_, hi.results_nodup, fun k => ?_, hi.closed_pending,
    fun w' hw' hs => ?_, fun hcl => ?_, hi.finished_drained⟩
  · show _ + (rest : Multiset Bytes) + _ = _
    rw [← hi.lines_eq, hc, sum_got_set hw w₁ [l] rfl, add_assoc _ _ (rest : Multiset Bytes),
      Multiset.coe_add]
    rfl
  · refine of_mem_set hi.local_eq hw' ?_
    rw [List.foldl_append, ← hi.local_eq w (List.getElem?_mem hw)]
    rfl
  · exact hi.results_sent_set w₁ hp (hi.ne_of_result hp hw (by simp [hrecv])).symm
  · rcases getElem?_set_cases hk with ⟨rfl, rfl⟩ | ⟨-, hk⟩
    · simp [w₁, hrecv] at hs
    · exact hi.sent_results k w' hk hs
  · rw [hi.final_count k, sum_map_set_of_zero hw (by simp [hrecv])]
    simp [w₁, hrecv]
  · exact absurd (of_mem_set hall hw' hrecv) hs
  · exact absurd hrecv (hi.closed_done hcl w (List.getElem?_mem hw))

theorem Inv.workerSend (hi : s.Inv parseFloat lines n) {j : Nat}
    (h : s.step parseFloat (.workerSend j) = some s') : s'.Inv parseFloat lines n := by
  obtain ⟨w, hw, hrecv, hclosed, hempty, -, rfl⟩ := step_workerSend h
  have hopen : s.resultClosed = false := by
    by_contra hcl
    exact hi.closed_done (by simpa using hcl) w (List.getElem?_mem hw) hrecv
  have hnew : ∀ j' p, (j', p) ∈ s.resultChan → j' ≠ j := fun j' p hp =>
    hi.ne_of_result hp hw (by simp [hrecv])
  refine ⟨by simpa using hi.length_eq, ?_, fun w' hw' => ?_, fun j' p hp => ?_,
    fun k w' hk hs => ?_, ?_, fun k => ?_, hi.closed_pending,
    fun _ _ _ => ⟨hclosed, hempty⟩, fun hcl => ?_, fun hf => ?_⟩
  · dsimp only
    rw [← hi.lines_eq, sum_got_set hw { w with status := .sent } [] (List.append_nil _).symm,
      Multiset.coe_nil, add_zero]
  · exact of_mem_set hi.local_eq hw' (hi.local_eq w (List.getElem?_mem hw))
  · rcases List.mem_append.mp hp with hp | hp
    · exact hi.results_sent_set _ hp (hnew j' p hp).symm
    · obtain ⟨rfl, rfl⟩ := Prod.mk.inj (List.mem_singleton.mp hp)
      exact ⟨_, List.getElem?_set_self (List.getElem?_eq_some_iff.mp hw).1, rfl, rfl⟩
  · rcases getElem?_set_cases hk with ⟨rfl, -⟩ | ⟨-, hk⟩
    · simp
    · simp [hi.sent_results k w' hk hs]
  · rw [List.map_append, List.nodup_append]
    refine ⟨hi.results_nodup, List.nodup_singleton _, ?_⟩
    simpa using fun p hp => hnew j p hp rfl
  · rw [hi.final_count k, sum_map_set_of_zero hw (by simp [hrecv])]
    simp
  · simp [hopen] at hcl
  · simp [(hi.finished_drained hf).1] at hopen

theorem Inv.mainRecv (hi : s.Inv parseFloat lines n) {order : List (Σ _ : Bytes, Stats V)}
    (h : s.step parseFloat (.mainRecv order) = some s') : s'.Inv parseFloat lines n := by
  obtain ⟨j, p, rest, hc, hord, rfl⟩ := step_mainRecv h
  obtain ⟨w, hw, hsent, rfl⟩ := hi.results_sent j p (by simp [hc])
  have hnd := hi.results_nodup
  rw [hc, List.map_cons, List.nodup_cons] at hnd
  have hmem := List.getElem?_mem hw
  rw [modify_eq_set hw]
  set w₃ : LineWorker V := { w with status := .merged }
  refine ⟨by simpa using hi.length_eq, ?_, fun w' hw' => ?_, fun j' p' hp => ?_,
    fun k w' hk hs => ?_, hnd.2, fun k => ?_, hi.closed_pending, fun w' hw' hs => ?_,
    fun hcl w' hw' => ?_, fun hf => ?_⟩
  · dsimp only
    rw [← hi.lines_eq, sum_got_set hw w₃ [] (List.append_nil _).symm, Multiset.coe_nil, add_zero]
  · exact of_mem_set hi.local_eq hw' (hi.local_eq w hmem)
  · exact hi.results_sent_set w₃ (by simp [hc, hp])
      fun heq => hnd.1 (List.mem_map.mpr ⟨(j', p'), hp, heq.symm⟩)
  · rcases getElem?_set_cases hk with ⟨-, rfl⟩ | ⟨hne, hk⟩
    · simp [w₃] at hs
    · simpa [hc, hne] using hi.sent_results k w' hk hs
  · have hloc : countOf w.localMap k = wrap64 (linesOf parseFloat k w.got) := by
      rw [hi.local_eq w hmem, countOf_foldl_workerLine parseFloat k w.got ∅ (by simp)]
      simp
    rw [countOf_merge hord s.final k (by simp [hi.final_count k]) (by simp [hloc]),
      sum_map_set_of_zero hw (by simp [hsent]), hi.final_count k, hloc]
    simp [w₃]
  · exact of_mem_set hi.done_drained hw' (fun _ => hi.done_drained w hmem (by simp [hsent])) hs
  · exact of_mem_set (hi.closed_done hcl) hw' (by simp [w₃])
  · simpa [hc] using (hi.finished_drained hf).2

theorem Inv.closerClose (hi : s.Inv parseFloat lines n)
    (h : s.step parseFloat .closerClose = some s') : s'.Inv parseFloat lines n := by
  obtain ⟨hall, hopen, rfl⟩ := step_closerClose h
  exact { hi with
    closed_done := fun _ => hall
    finished_drained := fun hf => by simp [(hi.finished_drained hf).1] at hopen }

theorem Inv.mainEnd (hi : s.Inv parseFloat lines n)
    (h : s.step parseFloat .mainEnd = some s') : s'.Inv parseFloat lines n := by
  obtain ⟨hclosed, hempty, -, rfl⟩ := step_mainEnd h
  exact { hi with finished_drained := fun _ => ⟨hclosed, hempty⟩ }

/-- Every event keeps the invariant. -/
theorem Inv.step (hi : s.Inv parseFloat lines n) {e : Event V}
    (h : s.step parseFloat e = some s') : s'.Inv parseFloat lines n := by
  cases e with
  | readerSend => exact hi.readerSend h
  | readerClose => exact hi.readerClose h
  | workerRecv j => exact hi.workerRecv h
  | workerSend j => exact hi.workerSend h
  | closerClose => exact hi.closerClose h
  | mainRecv order => exact hi.mainRecv h
  | mainEnd => exact hi.mainEnd h

/-- The invariant holds in every state a run reaches. -/
theorem Inv.run : ∀ (events : List (Event V)) {s s' : Pipeline V}, s.Inv parseFloat lines n →
    s.run parseFloat events = some s' → s'.Inv parseFloat lines n
  | [], _, _, hi, h => Option.some.inj h ▸ hi
  | e :: events, _, _, hi, h => by
    rw [run_cons] at h
    obtain ⟨t, ht, h⟩ := Option.bind_eq_some.mp h
    exact Inv.run events (hi.step ht) h

omit [DecidableEq V] in
/-- Once `main` has left its loop, and with at least one worker, the workers received the lines
between them and `main` merged every map. -/
theorem Inv.finished (hi : s.Inv parseFloat lines n) (hn : 0 < n) (hf : s.finished = true) :
    (s.workers.map fun w => (w.got : Multiset Bytes)).sum = lines ∧
      ∀ w ∈ s.workers, w.status = .merged := by
  obtain ⟨hcl, hempty⟩ := hi.finished_drained hf
  have hdone := hi.closed_done hcl
  obtain ⟨w₀, hw₀⟩ := List.exists_mem_of_length_pos (hi.length_eq ▸ hn)
  obtain ⟨hclosed, hchan⟩ := hi.done_drained w₀ hw₀ (hdone w₀ hw₀)
  refine ⟨by simpa [hchan, hi.closed_pending hclosed] using hi.lines_eq, fun w hw => ?_⟩
  obtain ⟨j, hj⟩ := List.mem_iff_getElem?.mp hw
  rcases hs : w.status
  · exact absurd hs (hdone w hw)
  · simpa [hempty] using hi.sent_results j w hj hs
  · rfl

omit [DecidableEq V] in
/-- Once `main` has left its loop, the count of each station is its number of lines. -/
theorem Inv.countOf_final (hi : s.Inv parseFloat lines n) (hn : 0 < n) (hf : s.finished = true)
    (k : Bytes) : countOf s.final k = wrap64 (linesOf parseFloat k lines) := by
  obtain ⟨hgot, hmerged⟩ := hi.finished hn hf
  rw [hi.final_count k, List.map_congr_left fun w hw => if_pos (hmerged w hw), sum_linesOf, hgot,
    Multiset.coe_countP]
  rfl

/-- In every run of the goroutines on `data` with at least one worker: `resultChan` is closed
only once every worker has sent its map; and once `main` has left its loop, the workers received
the lines the reader sent between them, each line once, `main` merged every worker's map, and the
count of each station is its number of `'\n'`-separated segments of `data` that `ParseFloat`
accepts, as an `int64`. -/
theorem run_counts_lines (data : Bytes) {workerCount : Nat} (hw : 0 < workerCount)
    (events : List (Event V)) {s : Pipeline V}
    (h : (init data workerCount).run parseFloat events = some s) :
    (s.resultClosed = true → ∀ w ∈ s.workers, w.status ≠ .receiving) ∧
      (s.finished = true →
        (s.workers.map fun w => (w.got : Multiset Bytes)).sum = readLines data [] ∧
        (∀ w ∈ s.workers, w.status = .merged) ∧
        ∀ station, countOf s.final station =
          wrap64 (linesOf parseFloat station (data.splitOn newline))) := by
  have hi := Inv.run events (inv_init data workerCount) h
  refine ⟨hi.closed_done, fun hf => ⟨(hi.finished hw hf).1, (hi.finished hw hf).2, fun k => ?_⟩⟩
  rw [hi.countOf_final hw hf k, linesOf_readLines]

theorem run_counts_lines_one :
    let parse : Bytes → Option Int := fun b => if b = [49] then some 1 else none
    ∃ s, (init [65, 59, 49] 1).run parse
        [.readerSend, .readerClose, .workerRecv 0, .workerSend 0, .closerClose,
          .mainRecv [⟨[65], ⟨1, 1, 1, 1⟩⟩], .mainEnd] = some s ∧
      s.finished = true ∧ countOf s.final [65] = 1 := by
  intro parse
  have hrun : (init [65, 59, 49] 1).run parse
      [.readerSend, .readerClose, .workerRecv 0, .workerSend 0, .closerClose,
        .mainRecv [⟨[65], ⟨1, 1, 1, 1⟩⟩], .mainEnd] = some _ := rfl
  have hcount := ((run_counts_lines [65, 59, 49] (show 0 < 1 by decide) _ hrun).2 rfl).2.2 [65]
  exact ⟨_, hrun, rfl, hcount.trans (by decide)⟩

/-- On the file `A;1` with one worker, the closer closes `resultChan` while the worker's map is
still in it, and `main` merges that map after the close. -/
theorem closer_closes_before_merge :
    let parse : Bytes → Option Int := fun b => if b = [49] then some 1 else none
    let events : List (Event Int) :=
      [.readerSend, .readerClose, .workerRecv 0, .workerSend 0, .closerClose]
    ((init [65, 59, 49] 1).run parse events).map
        (fun s => (s.resultClosed, s.workers.map (·.status), s.resultChan.length)) =
      some (true, [.sent], 1) ∧
    ((init [65, 59, 49] 1).run parse (events ++ [.mainRecv [⟨[65], ⟨1, 1, 1, 1⟩⟩], .mainEnd])).map
        (fun s => (s.finished, countOf s.final [65])) = some (true, 1) := by
  decide

end Pipeline

end BillionRows
