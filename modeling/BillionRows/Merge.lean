import BillionRows.Stat

/-!
# The merge loop of `main`

Both fixed-point programs end with the same loop (`src/unnamed/part_000` over `map[int32]Stat`,
`src/unnamed/part_002` over `map[string]Stat`): every local map, in the order of `locals`, is
folded entry by entry into `global`; a key `global` lacks takes the local entry, a key it has
merges it (`Stat.merge`). A `range` over a map visits its entries in an order the runtime picks, so
the loop is modelled over one iteration order per local map (`RangeOrder`).

Each key of the result is the `mergeOpt` of that key's local entries. `mergeOpt` is commutative
and associative, and aggregating readings is merging their single-reading entries, so the loop
turns the aggregates of several record sequences into the aggregate of their concatenation,
whatever the order of the maps and of their entries.
-/

namespace BillionRows

open Stat

variable {K : Type} [DecidableEq K]

/-- `main`'s merge, `for _, m := range locals { for city, st := range m { ... } }`, started from
`global`; `orders` lists the entries of each local map in the order the loop visits them. -/
def mergeLoop (global : GoMap K Stat) (orders : List (List (Σ _ : K, Stat))) : GoMap K Stat :=
  mergeLoopWith Stat.merge global orders

/-- `main`'s merge from `global := make(map[K]Stat)`. -/
def mergeLocals (orders : List (List (Σ _ : K, Stat))) : GoMap K Stat := mergeLoop ∅ orders

/-- The entry of a key after the merge loop: the entries of that key in the local maps, merged
into the global one in turn. -/
theorem lookup_mergeLoop (k : K) :
    ∀ {locals : List (GoMap K Stat)} {orders}, List.Forall₂ RangeOrder locals orders →
      ∀ global : GoMap K Stat, (mergeLoop global orders).lookup k =
        (locals.map fun m => m.lookup k).foldl mergeOpt (global.lookup k) :=
  lookup_mergeLoopWith Stat.merge k

theorem mergeOpt_right_comm (a b c : Option Stat) :
    mergeOpt (mergeOpt a b) c = mergeOpt (mergeOpt a c) b := by
  rw [mergeOpt_assoc, mergeOpt_comm b, ← mergeOpt_assoc]

/-- Merging a list of entries into an entry does not depend on the order of the list. -/
theorem foldl_mergeOpt_perm {os os' : List (Option Stat)} (h : os.Perm os') (o : Option Stat) :
    os.foldl mergeOpt o = os'.foldl mergeOpt o :=
  h.foldl_eq' (fun x _ y _ z => mergeOpt_right_comm z x y) o

theorem mergeOpt_eq_none {a b : Option Stat} : mergeOpt a b = none ↔ a = none ∧ b = none := by
  cases a <;> cases b <;> simp [Option.merge]

/-- A merge of entries is missing exactly when all of them are. -/
theorem foldl_mergeOpt_eq_none :
    ∀ (os : List (Option Stat)) (o : Option Stat),
      os.foldl mergeOpt o = none ↔ o = none ∧ ∀ x ∈ os, x = none
  | [], o => by simp
  | x :: os, o => by
    rw [List.foldl_cons, foldl_mergeOpt_eq_none os, mergeOpt_eq_none, List.forall_mem_cons,
      and_assoc]

theorem exists_ne_none_of_foldl_mergeOpt {os : List (Option Stat)}
    (h : os.foldl mergeOpt none ≠ none) : ∃ o ∈ os, o ≠ none := by
  by_contra hne
  push_neg at hne
  exact h ((foldl_mergeOpt_eq_none os none).mpr ⟨rfl, hne⟩)

/-- The entry of a key in the aggregate of a concatenation: the entries of the key in the
aggregates of the parts, merged in turn. -/
theorem lookup_aggregateAll_flatten (k : K) :
    ∀ (rss : List (List (K × Int))) (m : GoMap K Stat), (aggregateAll m rss.flatten).lookup k =
      (rss.map fun rs => (aggregateAll ∅ rs).lookup k).foldl mergeOpt (m.lookup k)
  | [], _ => rfl
  | rs :: rss, m => by
    rw [List.flatten_cons, aggregateAll_append, lookup_aggregateAll_flatten k rss,
      lookup_aggregateAll_eq_mergeOpt]
    rfl

/-- The merge loop is a homomorphism from concatenation of record sequences: merging the
aggregates of `rss`, in any order of the local maps and any iteration order of each, gives the
aggregate of all the records. -/
theorem mergeLocals_eq_aggregateAll (rss : List (List (K × Int))) {locals : List (GoMap K Stat)}
    (hperm : locals.Perm (rss.map (aggregateAll ∅))) {orders : List (List (Σ _ : K, Stat))}
    (horders : List.Forall₂ RangeOrder locals orders) :
    mergeLocals orders = aggregateAll ∅ rss.flatten :=
  Finmap.ext_lookup fun k => by
    rw [mergeLocals, lookup_mergeLoop k horders, lookup_aggregateAll_flatten,
      foldl_mergeOpt_perm (hperm.map _), List.map_map]
    rfl

theorem mergeLocals_eq_aggregateAll_sample :
    let rss : List (List (Int × Int)) := [[(0, 215), (1, -32), (0, 90)], [(1, 17), (2, 0)]]
    let locals := [aggregateAll ∅ rss[1]!, aggregateAll ∅ rss[0]!]
    let orders : List (List (Σ _ : Int, Stat)) :=
      [[⟨2, ⟨0, 0, 0, 1⟩⟩, ⟨1, ⟨17, 17, 17, 1⟩⟩], [⟨1, ⟨-32, -32, -32, 1⟩⟩, ⟨0, ⟨90, 215, 305, 2⟩⟩]]
    locals.Perm (rss.map (aggregateAll ∅)) ∧ List.Forall₂ RangeOrder locals orders ∧
      mergeLocals orders = aggregateAll ∅ rss.flatten :=
  have hperm := by decide
  have horders := by decide
  ⟨hperm, horders, mergeLocals_eq_aggregateAll _ hperm horders⟩

end BillionRows
