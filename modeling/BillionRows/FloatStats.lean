import BillionRows.Basic

/-!
# `Stats` over `float64`

`src/go_v1/main.go` and `src/unnamed/part_001` keep, per station, `Min`, `Max` and `Sum` as
`float64` and `Count` as `int64`, and parse values with `strconv.ParseFloat`. The value type `V`,
its comparison and its addition are parameters, and so is the parse function where it is used: no
result depends on how floating point rounds, so all of them hold for `float64`.
-/

namespace BillionRows

/-- The loop of `findSep` from the index `i`, over `b[i:]`. -/
def findSep.loop : Nat → Bytes → Int
  | _, [] => -1
  | i, c :: rest => if c = semicolon then i else loop (i + 1) rest

/-- `findSep(b)` of `go_v1`: the index of the first `';'` of `b`, or `-1`; the workers of `part_001`
run the same loop inline. -/
def findSep (b : Bytes) : Int := findSep.loop 0 b

/-- `Stats` with values in `V`. -/
structure Stats (V : Type) where
  min : V
  max : V
  sum : V
  count : Int
  deriving DecidableEq, Repr

variable {V : Type} [LT V] [DecidableRel (α := V) (· < ·)] [Add V]

namespace Stats

/-- `Stats{Min: v, Max: v, Sum: v, Count: 1}` -/
def single (v : V) : Stats V := ⟨v, v, v, 1⟩

/-- An entry after one more value: `if v < st.Min`, `if v > st.Max`, `st.Sum += v`,
`st.Count++`. -/
def add (st : Stats V) (v : V) : Stats V where
  min := if v < st.min then v else st.min
  max := if v > st.max then v else st.max
  sum := st.sum + v
  count := wrap64 (st.count + 1)

/-- The final entry `ex` after merging the entry `s` of one local map. -/
def merge (ex s : Stats V) : Stats V where
  min := if s.min < ex.min then s.min else ex.min
  max := if s.max > ex.max then s.max else ex.max
  sum := ex.sum + s.sum
  count := wrap64 (ex.count + s.count)

end Stats

/-- The entry of `station` after one more value `v`: created by the first value, updated by the
next ones. -/
def update (m : GoMap Bytes (Stats V)) (station : Bytes) (v : V) : GoMap Bytes (Stats V) :=
  upsert m station (Stats.single v) (·.add v)

/-- The final merge: the local maps folded in turn into an empty `final`, each in its iteration
order. -/
def mergeMaps (orders : List (List (Σ _ : Bytes, Stats V))) : GoMap Bytes (Stats V) :=
  mergeLoopWith Stats.merge ∅ orders

end BillionRows
