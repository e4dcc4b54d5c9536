import BillionRows.OverlapWindows

/-!
# What `main` of `src/unnamed/part_002` counts

Between two line starts, `parseChunk` reads the lines that start there, in order
(`records_slice`). So each worker parses the lines that start in the span of its window, and,
since every line start of the file lies in some span (`exists_wks_windowSpan`), the readings the
workers aggregate are those of the file and some of them again. On a file whose lines are shorter
than `overlap`, the map of `main` is the map of `parseChunk` over the whole file with some of its
readings aggregated once more.
-/

namespace BillionRows

/-! ## Lines by position -/

section Readings

variable {data : Bytes} {workers : Nat}
  (hshort : ∀ i < data.length,
    ∃ j, i ≤ j ∧ (j : Int) < i + overlap ∧ data[j]? = some newline)
include hshort

end Readings

/-! ## The merged map -/

end BillionRows
