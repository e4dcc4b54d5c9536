import BillionRows.Scan

/-!
# The input format and what `parseChunk` computes on it

The format of the input (`KEY;VALUE` lines, VALUE matching `[+-]?[0-9]+('.'[0-9])?`) as data:
a `Value` carries the shape of a well-formed value and a `Line` is either a line without `';'`
or a record. On a buffer made of such lines `parseChunk` reads each record's value exactly, in
tenths, and the entry of each key summarises the values of its records
(`parseChunk_lines_exact`).
-/

namespace BillionRows

/-- The optional sign of a value. -/
inductive Sign
  | unsigned
  | negative
  | positive
  deriving DecidableEq, Repr

/-- The bytes of a sign. -/
def Sign.bytes : Sign → Bytes
  | .unsigned => []
  | .negative => [minus]
  | .positive => [plus]

/-- The factor a sign stands for. -/
def Sign.factor : Sign → Int
  | .negative => -1
  | _ => 1

/-- The value of a string of decimal digits. -/
def digitsValue (ds : Bytes) : Int := ds.foldl (fun n c => n * 10 + digitVal c) 0

/-- A VALUE of the format, `[+-]?[0-9]+('.'[0-9])?`: a sign, a non-empty string of digits and an
optional fractional digit. -/
structure Value where
  sign : Sign
  digits : Bytes
  frac : Option UInt8
  digits_ne_nil : digits ≠ []
  isDigit_digits : ∀ c ∈ digits, isDigit c
  isDigit_frac : ∀ d ∈ frac, isDigit d

namespace Value

/-- The fractional part of a value as bytes: `'.'` and the digit, or nothing. -/
def fracBytes (v : Value) : Bytes := (v.frac.map fun d => [dot, d]).getD []

/-- The bytes of a value. -/
def bytes (v : Value) : Bytes := v.sign.bytes ++ v.digits ++ v.fracBytes

/-- The number of tenths a value denotes: `sign * (integer part * 10 + fractional digit)`. -/
def tenths (v : Value) : Int :=
  v.sign.factor * (digitsValue v.digits * 10 + (v.frac.map digitVal).getD 0)

end Value

/-- A line of the input, without its `'\n'`: a line without `';'` (an empty line is one), or a
record `KEY;VALUE` whose key has no `';'` and no `'\n'`. -/
inductive Line
  | noSemi (l : Bytes) (hsemi : semicolon ∉ l) (hnl : newline ∉ l)
  | record (key : Bytes) (value : Value) (hsemi : semicolon ∉ key) (hnl : newline ∉ key)

/-- The bytes of a line. -/
def Line.bytes : Line → Bytes
  | .noSemi l _ _ => l
  | .record key v _ _ => key ++ semicolon :: v.bytes

/-- The reading a line of the format stands for: the key and the value in tenths of a record. -/
def Line.reading : Line → Option (Bytes × Int)
  | .noSemi .. => none
  | .record key v _ _ => some (key, v.tenths)

/-! ## Reading a value -/

theorem isDigit_ne {c : UInt8} (hc : isDigit c) :
    c ≠ minus ∧ c ≠ plus ∧ c ≠ dot ∧ c ≠ newline := by
  refine ⟨?_, ?_, ?_, ?_⟩ <;> rintro rfl <;> exact absurd hc (by decide)

/-- The integer-part loop over a string of digits followed by a non-digit computes the value of
the digits modulo `2^32`. -/
theorem parseIntPart_digits {ds r : Bytes} (hds : ∀ c ∈ ds, isDigit c)
    (hr : ∀ c ∈ r.head?, isDigit c = false) (a : Int) :
    (parseIntPart (wrap32 a) (ds ++ r)).2 = r ∧
      wrap32 (parseIntPart (wrap32 a) (ds ++ r)).1 =
        wrap32 (ds.foldl (fun n c => n * 10 + digitVal c) a) := by
  induction ds generalizing a with
  | nil =>
    cases r with
    | nil => simp [parseIntPart]
    | cons c r => simp [parseIntPart, hr c rfl]
  | cons c ds ih =>
    simp only [List.mem_cons, forall_eq_or_imp] at hds
    simp only [List.cons_append, parseIntPart, hds.1, if_true, List.foldl_cons]
    rw [wrap32_wrap32_mul_add]
    exact ih hds.2 _

theorem parseSign_value (v : Value) :
    parseSign v.bytes = (v.sign.factor, v.digits ++ v.fracBytes) := by
  obtain ⟨sign, digits, frac, hne, hd, hf⟩ := v
  cases sign with
  | negative => rfl
  | positive => rfl
  | unsigned =>
    obtain ⟨c, ds, rfl⟩ := List.exists_cons_of_ne_nil hne
    have := isDigit_ne (hd c (List.mem_cons_self c ds))
    simp [Value.bytes, Sign.bytes, parseSign, this.1, this.2.1, Sign.factor]

/-- A well-formed value is read exactly, modulo `2^32`, and nothing of it is left. -/
theorem parseTenth_value (v : Value) : parseTenth v.bytes = (wrap32 v.tenths, []) := by
  have hf : ∀ c ∈ v.fracBytes.head?, isDigit c = false := by
    unfold Value.fracBytes; cases v.frac <;> simp [dot]; decide
  obtain ⟨h1, h2⟩ := parseIntPart_digits v.isDigit_digits hf 0
  rw [wrap32_zero] at h1 h2
  simp only [parseTenth, parseSign_value, h1]
  have hdec : parseDecDigit (skipDot v.fracBytes) = ((v.frac.map digitVal).getD 0, []) := by
    rcases hfr : v.frac with _ | d
    · simp [Value.fracBytes, hfr, skipDot, parseDecDigit]
    · simp [Value.fracBytes, hfr, skipDot, parseDecDigit, v.isDigit_frac d hfr]
  rw [hdec]
  simp only [Prod.mk.injEq, and_true, Value.tenths, digitsValue]
  exact wrap32_mul_add h2 _ _

theorem newline_not_mem_value (v : Value) : newline ∉ v.bytes := by
  intro h
  simp only [Value.bytes, List.mem_append] at h
  rcases h with (h | h) | h
  · cases hs : v.sign <;> simp [hs, Sign.bytes] at h <;> exact absurd h (by decide)
  · exact (isDigit_ne (v.isDigit_digits _ h)).2.2.2 rfl
  · rcases hfr : v.frac with _ | d
    · simp [Value.fracBytes, hfr] at h
    · simp only [Value.fracBytes, hfr, Option.map_some', Option.getD_some] at h
      rcases List.mem_cons.mp h with h | h
      · exact absurd h (by decide)
      · exact (isDigit_ne (v.isDigit_frac d hfr)).2.2.2 (List.mem_singleton.mp h).symm

theorem Line.newline_not_mem (l : Line) : newline ∉ l.bytes := by
  cases l with
  | noSemi l _ hnl => exact hnl
  | record key v _ hnl =>
    simp only [Line.bytes, List.mem_append, List.mem_cons, not_or]
    exact ⟨hnl, by decide, newline_not_mem_value v⟩

/-- The scanner reads the reading of every line of the format, its value modulo `2^32`. -/
theorem lineRecord_bytes (l : Line) :
    lineRecord l.bytes = l.reading.map fun r => (r.1, wrap32 r.2) := by
  cases l with
  | noSemi l hsemi _ => simp [Line.bytes, Line.reading, lineRecord_of_not_mem hsemi]
  | record key v hsemi hnl =>
    simp [Line.bytes, Line.reading, lineRecord_split hsemi hnl, parseTenth_value]

/-! ## `parseChunk` on a buffer of the format -/

theorem sum_bound (vs : List Int) (h : ∀ v ∈ vs, -2 ^ 31 < v ∧ v < 2 ^ 31) :
    -(vs.length * 2147483648) ≤ vs.sum ∧ vs.sum ≤ vs.length * 2147483648 := by
  induction vs with
  | nil => simp
  | cons v vs ih =>
    simp only [List.mem_cons, forall_eq_or_imp] at h
    have := ih h.2
    simp only [List.sum_cons, List.length_cons]
    omega

theorem mem_valuesOf {K : Type} [DecidableEq K] {k : K} {rs : List (K × Int)} {v : Int}
    (h : v ∈ valuesOf k rs) : (k, v) ∈ rs := by
  obtain ⟨⟨k', v'⟩, hr, he⟩ := List.mem_filterMap.mp h
  by_cases hk : k' = k
  · simp only [hk, if_true, Option.some.injEq] at he
    rwa [← hk, ← he]
  · simp [hk] at he

/-- On lines of the format whose values fit `int32`, the scanner reads exactly their readings. -/
theorem records_lines_format {ls : List Line} {last : Line}
    (hrange : ∀ l ∈ ls ++ [last], ∀ r ∈ l.reading, -2 ^ 31 < r.2 ∧ r.2 < 2 ^ 31) :
    records (joinLines (ls.map Line.bytes) last.bytes) = (ls ++ [last]).filterMap Line.reading := by
  rw [records_lines (by simpa using fun l _ => l.newline_not_mem) last.newline_not_mem,
    show [last.bytes] = [last].map Line.bytes from rfl, ← List.map_append, List.filterMap_map]
  refine List.filterMap_congr fun l hl => ?_
  rw [Function.comp_apply, lineRecord_bytes]
  rcases hr : l.reading with _ | ⟨key, t⟩
  · rfl
  · have := hrange l hl _ hr
    simp [wrap32_of_range (by omega) this.2]

/-- `parseChunk` on a buffer of lines of the format, the last one possibly without `'\n'`:
a key has an entry iff some record has it, and the entry holds the least and the greatest of
its values in tenths, their exact sum and their number, provided every value fits `int32`
and there are fewer than `2^32` records. -/
theorem parseChunk_lines_exact (ls : List Line) (last : Line)
    (hrange : ∀ l ∈ ls ++ [last], ∀ r ∈ l.reading, -2 ^ 31 < r.2 ∧ r.2 < 2 ^ 31)
    (hcount : ((ls ++ [last]).filterMap Line.reading).length < 2 ^ 32) (k : Bytes) :
    ((parseChunk (joinLines (ls.map Line.bytes) last.bytes) ∅).lookup k = none ↔
        valuesOf k ((ls ++ [last]).filterMap Line.reading) = []) ∧
      ∀ st, (parseChunk (joinLines (ls.map Line.bytes) last.bytes) ∅).lookup k = some st →
        let vals := valuesOf k ((ls ++ [last]).filterMap Line.reading)
        st.min ∈ vals ∧ (∀ v ∈ vals, st.min ≤ v) ∧ st.max ∈ vals ∧ (∀ v ∈ vals, v ≤ st.max) ∧
          st.sum = vals.sum ∧ st.count = vals.length := by
  rw [parseChunk_eq, records_lines_format hrange]
  generalize hrs : (ls ++ [last]).filterMap Line.reading = rs at hcount
  have hvals : ∀ v ∈ valuesOf k rs, -2 ^ 31 < v ∧ v < 2 ^ 31 := fun v hv => by
    obtain ⟨l, hl, hr⟩ := List.mem_filterMap.mp (hrs ▸ mem_valuesOf hv)
    exact hrange l hl _ hr
  have hlen : (valuesOf k rs).length < 2 ^ 32 :=
    lt_of_le_of_lt (List.length_filterMap_le _ _) hcount
  have hsum := sum_bound _ hvals
  have hsumm := aggregateAll_summarises rs k
  rcases h : (aggregateAll ∅ rs).lookup k with _ | st
  · rw [h] at hsumm
    simp [hsumm]
  · rw [h] at hsumm
    refine ⟨by simp only [reduceCtorEq, false_iff]; exact List.ne_nil_of_mem hsumm.min_mem, ?_⟩
    rintro st' ⟨⟩
    refine ⟨hsumm.min_mem, hsumm.min_le, hsumm.max_mem, hsumm.le_max, ?_, ?_⟩
    · rw [hsumm.sum_eq, wrap64_of_range (by omega) (by omega)]
    · rw [hsumm.count_eq, wrap64_of_range (by omega) (by omega)]

theorem parseChunk_lines_exact_sample :
    let ls := [Line.record [65] ⟨.unsigned, [49], some 53, by decide, by decide, by decide⟩
      (by decide) (by decide)]
    let last := Line.noSemi [] (by decide) (by decide)
    (∀ l ∈ ls ++ [last], ∀ r ∈ l.reading, -2 ^ 31 < r.2 ∧ r.2 < 2 ^ 31) ∧
      ((ls ++ [last]).filterMap Line.reading).length < 2 ^ 32 ∧
      (((parseChunk (joinLines (ls.map Line.bytes) last.bytes) ∅).lookup [65] = none ↔
          valuesOf [65] ((ls ++ [last]).filterMap Line.reading) = []) ∧
        ∀ st, (parseChunk (joinLines (ls.map Line.bytes) last.bytes) ∅).lookup [65] = some st →
          let vals := valuesOf [65] ((ls ++ [last]).filterMap Line.reading)
          st.min ∈ vals ∧ (∀ v ∈ vals, st.min ≤ v) ∧ st.max ∈ vals ∧ (∀ v ∈ vals, v ≤ st.max) ∧
            st.sum = vals.sum ∧ st.count = vals.length) :=
  have h₁ := by decide
  have h₂ := by decide
  ⟨h₁, h₂, parseChunk_lines_exact _ _ h₁ h₂ [65]⟩

end BillionRows
