import BillionRows.ParseChunkIDs

/-!
# Lines whose value does not parse

The fixed-point scanner never rejects a value: after the `';'` it reads an optional sign, the
digits, an optional `'.'` and one digit, each only if present, and aggregates what it read. A
line whose value does not begin with `[+-]?[0-9]` (`C;notanumber`, `C;`, `C;-`, `C;.5`) is
therefore not skipped: it adds one reading to its key, the sign times the digit after a leading
`'.'`, or `0` (`unparsable_line_reading`).
-/

namespace BillionRows

/-- Whether a value begins with `[+-]?[0-9]`. -/
def startsWithNumber : Bytes → Bool
  | d :: rest =>
    isDigit d || ((d = minus || d = plus) && match rest with
      | c :: _ => isDigit c
      | [] => false)
  | [] => false

/-- The digit after a leading `'.'`, or `0`. -/
def dotDigit : Bytes → Int
  | c :: d :: _ => if c = dot ∧ isDigit d then digitVal d else 0
  | _ => 0

/-- The reading taken from a value that does not begin with `[+-]?[0-9]`: the sign times the
digit after a leading `'.'`, or `0`. -/
def fractionOnlyTenth : Bytes → Int
  | c :: r => if c = minus then -dotDigit r else if c = plus then dotDigit r else dotDigit (c :: r)
  | [] => 0

theorem dotDigit_bound (r : Bytes) : -256 < dotDigit r ∧ dotDigit r < 256 := by
  match r with
  | [] | [_] => simp [dotDigit]
  | c :: d :: _ =>
    simp only [dotDigit]
    split_ifs
    · have : (d - 48).toNat < 256 := (d - 48).val.isLt
      simp only [digitVal]; omega
    · omega

theorem parseDecDigit_skipDot {r : Bytes} (hr : ∀ c ∈ r.head?, isDigit c = false) :
    (parseDecDigit (skipDot r)).1 = dotDigit r := by
  match r with
  | [] => rfl
  | [c] =>
    by_cases hc : c = dot
    · simp [hc, skipDot, parseDecDigit, dotDigit]
    · simp [hc, skipDot, parseDecDigit, hr c rfl, dotDigit]
  | c :: d :: r =>
    by_cases hc : c = dot
    · by_cases hd : isDigit d <;> simp [hc, hd, skipDot, parseDecDigit, dotDigit]
    · simp [hc, skipDot, parseDecDigit, hr c rfl, dotDigit]

theorem parseIntPart_nonDigit {r : Bytes} (hr : ∀ c ∈ r.head?, isDigit c = false) :
    parseIntPart 0 r = (0, r) := by
  match r with
  | [] => rfl
  | c :: r => simp [parseIntPart, hr c rfl]

theorem parseSign_fst (v : Bytes) : (parseSign v).1 = 1 ∨ (parseSign v).1 = -1 := by
  match v with
  | [] => exact .inl rfl
  | b :: _ =>
    simp only [parseSign]
    split_ifs
    exacts [.inr rfl, .inl rfl, .inl rfl]

/-- Without integer digits the reading is the sign times the digit after a leading `'.'`. -/
theorem parseTenth_of_nonDigit {v : Bytes} (hr : ∀ c ∈ (parseSign v).2.head?, isDigit c = false) :
    (parseTenth v).1 = (parseSign v).1 * dotDigit (parseSign v).2 := by
  have hsign := parseSign_fst v
  rcases hs : parseSign v with ⟨sign, r⟩
  rw [hs] at hr hsign
  simp only [parseTenth, hs, parseIntPart_nonDigit hr, parseDecDigit_skipDot hr, zero_mul, zero_add]
  have := dotDigit_bound r
  rcases hsign with rfl | rfl <;> exact wrap32_of_range (by omega) (by omega)

/-- The scanner's reading of a value that does not begin with `[+-]?[0-9]`. -/
theorem parseTenth_unparsable {v : Bytes} (hv : startsWithNumber v = false) :
    (parseTenth v).1 = fractionOnlyTenth v := by
  match v with
  | [] => rfl
  | c :: r =>
    simp only [startsWithNumber, Bool.or_eq_false_iff, Bool.and_eq_false_iff] at hv
    have hrd : c = minus ∨ c = plus → ∀ d ∈ r.head?, isDigit d = false := by
      intro hs d hd
      cases r with
      | nil => cases hd
      | cons d' r =>
        simp only [List.head?_cons, Option.mem_def, Option.some.injEq] at hd
        subst hd
        rcases hv.2 with h | h
        · exact absurd hs (by simpa using h)
        · simpa using h
    by_cases hm : c = minus
    · subst hm
      rw [parseTenth_of_nonDigit (by simpa [parseSign] using hrd (.inl rfl))]
      simp [parseSign, fractionOnlyTenth]
    · by_cases hp : c = plus
      · subst hp
        rw [parseTenth_of_nonDigit (by simpa [parseSign, hm] using hrd (.inr rfl))]
        simp [parseSign, fractionOnlyTenth, hm]
      · rw [parseTenth_of_nonDigit (by simpa [parseSign, hm, hp] using hv.1)]
        simp [parseSign, fractionOnlyTenth, hm, hp]

/-! ## The line is aggregated, not skipped -/

/-- A line `k;v` whose value `v` does not begin with `[+-]?[0-9]` is not skipped. After a buffer
`p` that is empty or ends with `'\n'`, `parseChunk` adds the reading `fractionOnlyTenth v` to the
key `k`, whatever follows the line; `parseChunkIDs` scans `p`, interns `k` and aggregates that
reading under its id, then scans the rest. -/
theorem unparsable_line_reading {p s k v : Bytes} (hp : p = [] ∨ ∃ p', p = p' ++ [newline])
    (hk₁ : semicolon ∉ k) (hk₂ : newline ∉ k) (hv : newline ∉ v)
    (hnum : startsWithNumber v = false) (m : GoMap Bytes Stat) (mi : GoMap Int Stat)
    (intern : Intern) :
    parseChunk (p ++ (k ++ semicolon :: v) ++ newline :: s) m =
        aggregate (parseChunk (p ++ s) m) k (fractionOnlyTenth v) ∧
      parseChunkIDs (p ++ (k ++ semicolon :: v) ++ newline :: s) mi intern =
        (parseChunkIDs p mi intern).bind fun (m₁, in₁) =>
          (in₁.getOrAdd k).bind fun (cityID, in₂) =>
            parseChunkIDs s (aggregate m₁ cityID (fractionOnlyTenth v)) in₂ := by
  obtain ⟨ps, hps, rfl⟩ := exists_joinLines_nil hp
  have hl : newline ∉ k ++ semicolon :: v := by
    simp only [List.mem_append, List.mem_cons, not_or]
    exact ⟨hk₂, by decide, hv⟩
  have hrec : records (joinLines ps [] ++ (k ++ semicolon :: v) ++ newline :: s) =
      ps.filterMap lineRecord ++ (k, fractionOnlyTenth v) :: records s := by
    rw [List.append_assoc, joinLines_append, List.nil_append, records_joinLines hps,
      records_line hl, lineRecord_split hk₁ hk₂, parseTenth_unparsable hnum]
    rfl
  have hpre : records (joinLines ps []) = ps.filterMap lineRecord := by
    rw [records_joinLines hps]; exact List.append_nil _
  refine ⟨?_, ?_⟩
  · rw [parseChunk_eq, parseChunk_eq, hrec, records_append hps, hpre,
      aggregateAll_perm m (List.perm_middle.trans (List.perm_append_singleton _ _).symm),
      aggregateAll_append]
    rfl
  · simp only [parseChunkIDs_eq]
    rw [hrec, hpre, List.foldlM_append]
    rcases List.foldlM aggregateID (mi, intern) (ps.filterMap lineRecord) with _ | ⟨m₁, in₁⟩
    · rfl
    · simp only [Option.bind_eq_bind, Option.some_bind, List.foldlM_cons, aggregateID]
      rcases in₁.getOrAdd k with _ | ⟨cityID, in₂⟩ <;> rfl

theorem unparsable_line_reading_notanumber :
    let p : Bytes := [65, 59, 49, 10]
    let v : Bytes := [110, 111, 116, 97, 110, 117, 109, 98, 101, 114]
    let s : Bytes := [66, 59, 50, 10]
    parseChunk (p ++ ([67] ++ semicolon :: v) ++ newline :: s) ∅ =
        aggregate (parseChunk (p ++ s) ∅) [67] (fractionOnlyTenth v) ∧
      parseChunkIDs (p ++ ([67] ++ semicolon :: v) ++ newline :: s) ∅ Intern.new =
        (parseChunkIDs p ∅ Intern.new).bind fun (m₁, in₁) =>
          (in₁.getOrAdd [67]).bind fun (cityID, in₂) =>
            parseChunkIDs s (aggregate m₁ cityID (fractionOnlyTenth v)) in₂ :=
  unparsable_line_reading (.inr ⟨[65, 59, 49], rfl⟩) (by decide) (by decide) (by decide)
    (by decide) ∅ ∅ Intern.new

/-- `C;notanumber` is not skipped: `parseChunk` records a reading `0.0` for `C`. -/
theorem notanumber_not_skipped :
    parseChunk ([67, 59, 110, 111, 116, 97, 110, 117, 109, 98, 101, 114] ++ [newline]) ∅ ≠
      parseChunk [] ∅ := by
  decide

end BillionRows