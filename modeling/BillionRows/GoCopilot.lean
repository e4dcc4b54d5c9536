import BillionRows.ShardFiles

/-!
# The sequential scanner: `src/go_copilot/main.go`

`main` reads the file with a `bufio.Scanner` in its default `ScanLines` mode and, for each line,
splits once on the first `';'`, parses the value with `ParseFloat` and updates the entry of the
city. The scanner yields the `'\n'`-separated segments of the file, each without a final `'\r'`,
the last one only when it is not empty; a segment of `maxCapacity` bytes or more does not fit its
buffer and stops it with `bufio.ErrTooLong`, after which `main` panics.

On a file that ends with `'\n'`, whose lines have neither a final `'\r'` nor a `';'` at position 0
and fit the buffer, `main` computes `linePass` (`copilotMain_eq_linePass`), the one pass over the
lines in file order. `goV1_eq_linePass` of `ShardFiles` shows that `go_v1` computes the same
`linePass` on every file that ends with `'\n'`, so on such files the two programs agree.
-/

namespace BillionRows

/-- `'\r'` -/
def carriageReturn : UInt8 := 13

/-- `const maxCapacity = 1024 * 1024`: the largest buffer of the scanner. -/
def maxCapacity : Nat := 1024 * 1024

/-- `dropCR` of `bufio`: a final `'\r'` removed. -/
def dropCR (l : Bytes) : Bytes := if l.getLast? = some carriageReturn then l.dropLast else l

/-- The lines `bufio.ScanLines` yields, `cur` holding the segment read so far. -/
def scanLines : Bytes → Bytes → List Bytes
  | [], cur => if cur.length > 0 then [dropCR cur] else []
  | c :: rest, cur =>
    if c = newline then dropCR cur :: scanLines rest [] else scanLines rest (cur ++ [c])

section

variable {V : Type} [LT V] [DecidableRel (α := V) (· < ·)] [Add V]

/-- The body of `for scanner.Scan()`: `sep := strings.IndexByte(line, ';')`, the line skipped when
`sep < 0` or when `ParseFloat` rejects the value. -/
def copilotLine (parseFloat : Bytes → Option V) (stats : GoMap Bytes (Stats V)) (line : Bytes) :
    GoMap Bytes (Stats V) :=
  let sep := findSep line
  if sep < 0 then stats
  else
    match parseFloat (line.drop (sep.toNat + 1)) with
    | some val => update stats (line.take sep.toNat) val
    | none => stats

/-- `main`: the map `stats` after the scan, or `none` when the scanner stops with an error and
`main` panics. -/
def copilotMain (parseFloat : Bytes → Option V) (data : Bytes) : Option (GoMap Bytes (Stats V)) :=
  if (data.splitOn newline).any (maxCapacity ≤ ·.length) then none
  else some ((scanLines data []).foldl (copilotLine parseFloat) ∅)

theorem scanLines_append {l : Bytes} (hl : newline ∉ l) (rest cur : Bytes) :
    scanLines (l ++ rest) cur = scanLines rest (cur ++ l) := by
  induction l generalizing cur with
  | nil => simp
  | cons c l ih =>
    simp only [List.mem_cons, not_or] at hl
    simp [scanLines, Ne.symm hl.1, ih hl.2]

/-- On terminated lines without a final `'\r'` the scanner yields the lines. -/
theorem scanLines_joinLines {ls : List Bytes} (hls : ∀ l ∈ ls, newline ∉ l)
    (hcr : ∀ l ∈ ls, dropCR l = l) : scanLines (joinLines ls []) [] = ls := by
  induction ls with
  | nil => rfl
  | cons l ls ih =>
    simp only [List.mem_cons, forall_eq_or_imp] at hls hcr
    rw [joinLines_cons, scanLines_append hls.1, List.nil_append, scanLines, if_pos rfl, hcr.1,
      ih hls.2 hcr.2]

/-- Both programs read a line alike unless its `';'` is at position 0, where `go_v1` skips it. -/
theorem copilotLine_eq_shardAggregate (parseFloat : Bytes → Option V) (m : GoMap Bytes (Stats V))
    {l : Bytes} (hl : findSep l ≠ 0) :
    copilotLine parseFloat m l = shardAggregate parseFloat m l := by
  have hle : findSep l < 0 ↔ findSep l ≤ 0 := by omega
  rcases hp : parseFloat (l.drop ((findSep l).toNat + 1)) with _ | v <;>
    simp only [copilotLine, shardAggregate, hle, hp]

/-- On a file that ends with `'\n'`, whose lines have neither a final `'\r'` nor a `';'` at
position 0 and fit the scanner's buffer, `main` computes the pass over the lines, which is the map
of `go_v1` by `goV1_eq_linePass`. -/
theorem copilotMain_eq_linePass (parseFloat : Bytes → Option V) {data : Bytes}
    (hdata : data = [] ∨ ∃ d, data = d ++ [newline])
    (hlines : ∀ l ∈ data.splitOn newline, dropCR l = l ∧ findSep l ≠ 0 ∧ l.length < maxCapacity) :
    copilotMain parseFloat data = some (linePass parseFloat data) := by
  obtain ⟨ls, hls, rfl⟩ := exists_joinLines_nil hdata
  have hfit : (((joinLines ls []).splitOn newline).any (maxCapacity ≤ ·.length)) = false := by
    simpa using fun l hl => (hlines l hl).2.2
  rw [splitOn_joinLines hls (List.not_mem_nil _)] at hlines
  have hin : ∀ l ∈ ls, dropCR l = l ∧ findSep l ≠ 0 := fun l hl =>
    ⟨(hlines l (List.mem_append_left _ hl)).1, (hlines l (List.mem_append_left _ hl)).2.1⟩
  rw [copilotMain, if_neg (by simp [hfit]), scanLines_joinLines hls fun l hl => (hin l hl).1,
    linePass_joinLines _ hls]
  exact congrArg some (List.foldl_ext _ _ _ fun m l hl =>
    copilotLine_eq_shardAggregate parseFloat m (hin l hl).2)

theorem copilotMain_eq_linePass_one :
    let parse : Bytes → Option Int := fun b => if b = [49] then some 1 else none
    copilotMain parse [65, 59, 49, 10] = some (linePass parse [65, 59, 49, 10]) := by
  intro parse
  exact copilotMain_eq_linePass parse (.inr ⟨[65, 59, 49], rfl⟩) (by decide)

end

end BillionRows
