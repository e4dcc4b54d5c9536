import BillionRows.Stat

/-!
# The fixed-point line scanner

`parseChunk` (`src/unnamed/part_002`) and `parseChunkIDs` (`src/unnamed/part_000`) share one
scanner: an outer loop over the lines of the buffer, and inner loops that find the `';'`, read an
optional sign, the integer digits, an optional `'.'` and one fractional digit, and skip to the end
of the line. The index `i` into the buffer is modelled by the unread suffix `buf[i:]`, and the key
`buf[lineStart:semi]` by the bytes read since `lineStart`. Each inner loop is a function of the
unread bytes that returns what it computed together with the bytes it left.

The scanner is line-local: on a line followed by `'\n'` it reads nothing past the newline
(`scanRecord_line`), so the readings of a buffer are those of its lines, one line at a time
(`records_joinLines`).
-/

namespace BillionRows

/-! ## The inner loops -/

/-- `c >= '0' && c <= '9'` -/
def isDigit (c : UInt8) : Bool := 48 ≤ c && c ≤ 57

/-- `int32(c - '0')` -/
def digitVal (c : UInt8) : Int := (c - 48).toNat

/-- The `find ';'` loop. `key` holds `buf[lineStart:i]`; a `'\n'` starts a new line. Returns the
key `buf[lineStart:semi]` and the bytes after the `';'`, or `none` when the buffer ends first. -/
def findSemi (key : Bytes) : Bytes → Option (Bytes × Bytes)
  | [] => none
  | b :: rest =>
    if b = semicolon then some (key, rest)
    else if b = newline then findSemi [] rest
    else findSemi (key ++ [b]) rest

/-- The optional sign: `'-'` gives `-1`, `'+'` is skipped. -/
def parseSign : Bytes → Int × Bytes
  | b :: rest => if b = minus then (-1, rest) else if b = plus then (1, rest) else (1, b :: rest)
  | [] => (1, [])

/-- The integer-part loop: `intPart = intPart*10 + int32(c-'0')` in `int32` arithmetic. -/
def parseIntPart (intPart : Int) : Bytes → Int × Bytes
  | c :: rest =>
    if isDigit c then parseIntPart (wrap32 (intPart * 10 + digitVal c)) rest
    else (intPart, c :: rest)
  | [] => (intPart, [])

/-- `if i < n && buf[i] == '.' { i++ }` -/
def skipDot : Bytes → Bytes
  | b :: rest => if b = dot then rest else b :: rest
  | [] => []

/-- The optional fractional digit, `0` when absent. -/
def parseDecDigit : Bytes → Int × Bytes
  | c :: rest => if isDigit c then (digitVal c, rest) else (0, c :: rest)
  | [] => (0, [])

/-- `for i < n && buf[i] != '\n' { i++ }`, then `if i < n && buf[i] == '\n' { i++ }`. -/
def skipLine : Bytes → Bytes
  | [] => []
  | b :: rest => if b = newline then rest else skipLine rest

/-- The temperature after the `';'`: `tenth := sign * (intPart*10 + decDigit)` in `int32`
arithmetic, and the bytes after the fractional digit. -/
def parseTenth (r : Bytes) : Int × Bytes :=
  let (sign, r) := parseSign r
  let (intPart, r) := parseIntPart 0 r
  let (decDigit, r) := parseDecDigit (skipDot r)
  (wrap32 (sign * (intPart * 10 + decDigit)), r)

/-- One turn of the outer loop up to the aggregation: the key, the reading in tenths and the bytes
after its line, or `none` when no `';'` is left (`if semi < 0 { break }`). -/
def scanRecord (buf : Bytes) : Option ((Bytes × Int) × Bytes) :=
  (findSemi [] buf).map fun (city, r) => ((city, (parseTenth r).1), skipLine (parseTenth r).2)

/-! ## The inner loops stop at the newline -/

section Stages

variable {v : Bytes}

theorem findSemi_line (key : Bytes) {l : Bytes} (hl : newline ∉ l) (rest : Bytes) :
    findSemi key (l ++ newline :: rest) =
      match findSemi key l with
      | none => findSemi [] rest
      | some (k, v) => some (k, v ++ newline :: rest) := by
  induction l generalizing key with
  | nil => rfl
  | cons b l ih =>
    rw [List.mem_cons, not_or] at hl
    simp only [List.cons_append, findSemi]
    split_ifs with h1 h2
    · rfl
    · exact absurd h2.symm hl.1
    · exact ih _ hl.2

theorem findSemi_suffix {key buf k v : Bytes} (h : findSemi key buf = some (k, v)) :
    semicolon :: v <:+ buf := by
  induction buf generalizing key with
  | nil => cases h
  | cons b buf ih =>
    simp only [findSemi] at h
    split_ifs at h with h1 h2
    · cases h; subst h1; exact List.suffix_refl _
    · exact (ih h).trans (List.suffix_cons b buf)
    · exact (ih h).trans (List.suffix_cons b buf)

theorem parseSign_append (hv : newline ∉ v) (rest : Bytes) :
    parseSign (v ++ newline :: rest) = ((parseSign v).1, (parseSign v).2 ++ newline :: rest) := by
  cases v with
  | nil => rfl
  | cons b v => simp only [List.cons_append, parseSign]; split_ifs <;> rfl

theorem parseSign_suffix (v : Bytes) : (parseSign v).2 <:+ v := by
  cases v with
  | nil => exact List.suffix_refl _
  | cons b v =>
    simp only [parseSign]
    split_ifs
    · exact List.suffix_cons b v
    · exact List.suffix_cons b v
    · exact List.suffix_refl _

theorem parseIntPart_append (acc : Int) (hv : newline ∉ v) (rest : Bytes) :
    parseIntPart acc (v ++ newline :: rest) =
      ((parseIntPart acc v).1, (parseIntPart acc v).2 ++ newline :: rest) := by
  induction v generalizing acc with
  | nil => rfl
  | cons c v ih =>
    simp only [List.cons_append, parseIntPart]
    split_ifs
    · exact ih _ (fun h => hv (List.mem_cons_of_mem c h))
    · rfl

theorem parseIntPart_suffix (acc : Int) (v : Bytes) : (parseIntPart acc v).2 <:+ v := by
  induction v generalizing acc with
  | nil => exact List.suffix_refl _
  | cons c v ih =>
    simp only [parseIntPart]
    split_ifs
    · exact (ih _).trans (List.suffix_cons c v)
    · exact List.suffix_refl _

theorem skipDot_append (hv : newline ∉ v) (rest : Bytes) :
    skipDot (v ++ newline :: rest) = skipDot v ++ newline :: rest := by
  cases v with
  | nil => rfl
  | cons b v => simp only [List.cons_append, skipDot]; split_ifs <;> rfl

theorem skipDot_suffix (v : Bytes) : skipDot v <:+ v := by
  cases v with
  | nil => exact List.suffix_refl _
  | cons b v =>
    simp only [skipDot]
    split_ifs
    · exact List.suffix_cons b v
    · exact List.suffix_refl _

theorem parseDecDigit_append (hv : newline ∉ v) (rest : Bytes) :
    parseDecDigit (v ++ newline :: rest) =
      ((parseDecDigit v).1, (parseDecDigit v).2 ++ newline :: rest) := by
  cases v with
  | nil => rfl
  | cons c v => simp only [List.cons_append, parseDecDigit]; split_ifs <;> rfl

theorem parseDecDigit_suffix (v : Bytes) : (parseDecDigit v).2 <:+ v := by
  cases v with
  | nil => exact List.suffix_refl _
  | cons c v =>
    simp only [parseDecDigit]
    split_ifs
    · exact List.suffix_cons c v
    · exact List.suffix_refl _

theorem parseTenth_suffix (v : Bytes) : (parseTenth v).2 <:+ v :=
  (parseDecDigit_suffix _).trans <| (skipDot_suffix _).trans <|
    (parseIntPart_suffix _ _).trans (parseSign_suffix v)

theorem parseTenth_append (hv : newline ∉ v) (rest : Bytes) :
    parseTenth (v ++ newline :: rest) =
      ((parseTenth v).1, (parseTenth v).2 ++ newline :: rest) := by
  have h1 : newline ∉ (parseSign v).2 := fun h => hv ((parseSign_suffix v).subset h)
  have h2 : newline ∉ (parseIntPart 0 (parseSign v).2).2 :=
    fun h => h1 ((parseIntPart_suffix _ _).subset h)
  have h3 : newline ∉ skipDot (parseIntPart 0 (parseSign v).2).2 :=
    fun h => h2 ((skipDot_suffix _).subset h)
  simp only [parseTenth, parseSign_append hv, parseIntPart_append 0 h1, skipDot_append h2,
    parseDecDigit_append h3]

theorem skipLine_append (hv : newline ∉ v) (rest : Bytes) :
    skipLine (v ++ newline :: rest) = rest := by
  induction v with
  | nil => simp [skipLine]
  | cons b v ih =>
    rw [List.mem_cons, not_or] at hv
    simp [skipLine, Ne.symm hv.1, ih hv.2]

theorem skipLine_of_not_mem (hv : newline ∉ v) : skipLine v = [] := by
  induction v with
  | nil => rfl
  | cons b v ih =>
    rw [List.mem_cons, not_or] at hv
    simp [skipLine, Ne.symm hv.1, ih hv.2]

theorem skipLine_suffix (v : Bytes) : skipLine v <:+ v := by
  induction v with
  | nil => exact List.suffix_refl _
  | cons b v ih =>
    simp only [skipLine]
    split_ifs
    · exact List.suffix_cons b v
    · exact ih.trans (List.suffix_cons b v)

end Stages

/-! ## The outer loop -/

/-- The readings the outer loop hands to the aggregation, in order, in at most `fuel` turns. -/
def recordsLoop : Nat → Bytes → List (Bytes × Int)
  | 0, _ => []
  | fuel + 1, buf =>
    match scanRecord buf with
    | none => []
    | some (r, rest) => r :: recordsLoop fuel rest

/-- The readings of `buf`. Each turn consumes at least the `';'`, so `len(buf)` turns suffice
(`recordsLoop_of_le`). -/
def records (buf : Bytes) : List (Bytes × Int) := recordsLoop buf.length buf

@[simp] theorem records_nil : records [] = [] := rfl

/-- The outer loop of `parseChunk` with at most `fuel` turns. -/
def parseChunkLoop : Nat → Bytes → GoMap Bytes Stat → GoMap Bytes Stat
  | 0, _, m => m
  | fuel + 1, buf, m =>
    match scanRecord buf with
    | none => m
    | some ((city, tenth), rest) => parseChunkLoop fuel rest (aggregate m city tenth)

/-- `parseChunk(buf, m)` (`src/unnamed/part_002`): scans `buf` line by line and aggregates each
reading into `m` under the key `string(buf[lineStart:semi])`. -/
def parseChunk (buf : Bytes) (m : GoMap Bytes Stat) : GoMap Bytes Stat :=
  parseChunkLoop buf.length buf m

theorem scanRecord_length {buf rest : Bytes} {r : Bytes × Int}
    (h : scanRecord buf = some (r, rest)) : rest.length < buf.length := by
  unfold scanRecord at h
  rcases hf : findSemi [] buf with _ | ⟨k, v⟩
  · simp [hf] at h
  · simp only [hf, Option.map_some', Option.some.injEq, Prod.mk.injEq] at h
    have h1 := (findSemi_suffix hf).length_le
    have h2 := ((skipLine_suffix _).trans (parseTenth_suffix v)).length_le
    rw [← h.2]
    simp only [List.length_cons] at h1
    omega

theorem recordsLoop_congr {f₁ f₂ : Nat} {buf : Bytes} (h₁ : buf.length ≤ f₁)
    (h₂ : buf.length ≤ f₂) : recordsLoop f₁ buf = recordsLoop f₂ buf := by
  induction f₁ generalizing f₂ buf with
  | zero =>
    rw [List.eq_nil_of_length_eq_zero (Nat.le_zero.mp h₁)]
    cases f₂ <;> rfl
  | succ n ih =>
    cases f₂ with
    | zero => rw [List.eq_nil_of_length_eq_zero (Nat.le_zero.mp h₂)]; rfl
    | succ m =>
      simp only [recordsLoop]
      rcases hs : scanRecord buf with _ | ⟨r, rest⟩
      · rfl
      · have := scanRecord_length hs
        exact congrArg (r :: ·) (ih (by omega) (by omega))

theorem recordsLoop_eq_records {fuel : Nat} {buf : Bytes} (h : buf.length ≤ fuel) :
    recordsLoop fuel buf = records buf :=
  recordsLoop_congr h le_rfl

theorem parseChunkLoop_eq (fuel : Nat) (buf : Bytes) (m : GoMap Bytes Stat) :
    parseChunkLoop fuel buf m = aggregateAll m (recordsLoop fuel buf) := by
  induction fuel generalizing buf m with
  | zero => rfl
  | succ n ih =>
    simp only [parseChunkLoop, recordsLoop]
    rcases scanRecord buf with _ | ⟨⟨city, tenth⟩, rest⟩
    · rfl
    · simp [ih, aggregateAll]

/-- `parseChunk` aggregates the readings of the buffer in order. -/
theorem parseChunk_eq (buf : Bytes) (m : GoMap Bytes Stat) :
    parseChunk buf m = aggregateAll m (records buf) :=
  parseChunkLoop_eq _ _ _

/-! ## Lines -/

/-- What one line (without its `'\n'`) contributes to the aggregation: the bytes before its first
`';'` and the temperature after it, or nothing when it has no `';'`. -/
def lineRecord (l : Bytes) : Option (Bytes × Int) := (scanRecord l).map Prod.fst

/-- The buffer made of the lines `ls`, each followed by `'\n'`, and then the bytes `last`. -/
def joinLines (ls : List Bytes) (last : Bytes) : Bytes :=
  ls.foldr (fun l acc => l ++ newline :: acc) last

@[simp] theorem joinLines_nil (last : Bytes) : joinLines [] last = last := rfl

@[simp] theorem joinLines_cons (l : Bytes) (ls : List Bytes) (last : Bytes) :
    joinLines (l :: ls) last = l ++ newline :: joinLines ls last := rfl

theorem joinLines_append (ls : List Bytes) (last q : Bytes) :
    joinLines ls last ++ q = joinLines ls (last ++ q) := by
  induction ls <;> simp [*]

/-- Every buffer is a sequence of lines, each followed by `'\n'`, and a last line without one. -/
theorem exists_joinLines (buf : Bytes) :
    ∃ ls last, (∀ l ∈ ls, newline ∉ l) ∧ newline ∉ last ∧ joinLines ls last = buf := by
  induction buf with
  | nil => exact ⟨[], [], by simp, by simp, rfl⟩
  | cons b buf ih =>
    obtain ⟨ls, last, hls, hlast, rfl⟩ := ih
    by_cases hb : b = newline
    · exact ⟨[] :: ls, last, by simpa using hls, hlast, by simp [hb]⟩
    · cases ls with
      | nil => exact ⟨[], b :: last, by simp, by simp [Ne.symm hb, hlast], rfl⟩
      | cons l ls =>
        refine ⟨(b :: l) :: ls, last, ?_, hlast, rfl⟩
        simp only [List.mem_cons, forall_eq_or_imp] at hls ⊢
        exact ⟨by simp [Ne.symm hb, hls.1], hls.2⟩

/-- A buffer that is empty or ends with `'\n'` is a sequence of terminated lines. -/
theorem exists_joinLines_nil {p : Bytes} (hp : p = [] ∨ ∃ p', p = p' ++ [newline]) :
    ∃ ps, (∀ l ∈ ps, newline ∉ l) ∧ joinLines ps [] = p := by
  rcases hp with rfl | ⟨p', rfl⟩
  · exact ⟨[], by simp, rfl⟩
  · obtain ⟨ls, last, hls, hlast, rfl⟩ := exists_joinLines p'
    refine ⟨ls ++ [last], ?_, ?_⟩
    · simpa [or_imp, forall_and] using ⟨hls, hlast⟩
    · rw [joinLines_append]
      simp [joinLines, List.foldr_append]

/-- The `'\n'`-separated segments of a buffer are its lines and its last line. -/
theorem splitOn_joinLines {ls : List Bytes} {last : Bytes} (hls : ∀ l ∈ ls, newline ∉ l)
    (hlast : newline ∉ last) : (joinLines ls last).splitOn newline = ls ++ [last] := by
  induction ls with
  | nil => exact List.splitOnP_eq_single _ _ fun x hx => by simp [ne_of_mem_of_not_mem hx hlast]
  | cons l ls ih =>
    simp only [List.mem_cons, forall_eq_or_imp] at hls
    rw [joinLines_cons, List.splitOn, List.splitOnP_first _ _ (fun x hx => by
      simp [ne_of_mem_of_not_mem hx hls.1]) _ (by simp), ← List.splitOn, ih hls.2, List.cons_append]

theorem scanRecord_line {l : Bytes} (hl : newline ∉ l) (rest : Bytes) :
    scanRecord (l ++ newline :: rest) =
      match lineRecord l with
      | none => scanRecord rest
      | some r => some (r, rest) := by
  unfold lineRecord scanRecord
  rw [findSemi_line [] hl]
  rcases h : findSemi [] l with _ | ⟨k, v⟩
  · rfl
  · have hv : newline ∉ v := fun hm =>
      hl ((findSemi_suffix h).subset (List.mem_cons_of_mem _ hm))
    have hv' : newline ∉ (parseTenth v).2 := fun hm => hv ((parseTenth_suffix v).subset hm)
    simp [parseTenth_append hv, skipLine_append hv']

theorem scanRecord_last {l : Bytes} (hl : newline ∉ l) :
    scanRecord l = (lineRecord l).map (·, []) := by
  unfold lineRecord scanRecord
  rcases h : findSemi [] l with _ | ⟨k, v⟩
  · rfl
  · have hv : newline ∉ (parseTenth v).2 := fun hm =>
      hl ((findSemi_suffix h).subset (List.mem_cons_of_mem _ ((parseTenth_suffix v).subset hm)))
    simp [skipLine_of_not_mem hv]

/-- A line followed by `'\n'` contributes its own reading, if any, and the scan goes on after
the newline. -/
theorem records_line {l : Bytes} (hl : newline ∉ l) (rest : Bytes) :
    records (l ++ newline :: rest) = (lineRecord l).toList ++ records rest := by
  have hlen : (l ++ newline :: rest).length = (l.length + rest.length) + 1 := by simp; omega
  rw [records, hlen, recordsLoop, scanRecord_line hl]
  rcases lineRecord l with _ | r
  · exact recordsLoop_congr (show rest.length ≤ l.length + rest.length + 1 by omega) le_rfl
  · simp [recordsLoop_eq_records (show rest.length ≤ l.length + rest.length by omega)]

/-- A last line without `'\n'` contributes its own reading, if any. -/
theorem records_last {l : Bytes} (hl : newline ∉ l) : records l = (lineRecord l).toList := by
  rw [← recordsLoop_eq_records (Nat.le_succ l.length), recordsLoop, scanRecord_last hl]
  rcases lineRecord l with _ | r
  · rfl
  · cases l.length <;> rfl

/-- The readings of a buffer of lines are those of its lines, in order. -/
theorem records_joinLines {ls : List Bytes} (hls : ∀ l ∈ ls, newline ∉ l) (rest : Bytes) :
    records (joinLines ls rest) = ls.filterMap lineRecord ++ records rest := by
  induction ls with
  | nil => rfl
  | cons l ls ih =>
    simp only [List.mem_cons, forall_eq_or_imp] at hls
    rw [joinLines_cons, records_line hls.1, ih hls.2, List.filterMap_cons]
    rcases lineRecord l with _ | r <;> rfl

theorem records_lines {ls : List Bytes} {last : Bytes} (hls : ∀ l ∈ ls, newline ∉ l)
    (hlast : newline ∉ last) :
    records (joinLines ls last) = (ls ++ [last]).filterMap lineRecord := by
  rw [records_joinLines hls, records_last hlast, List.filterMap_append, List.filterMap_cons,
    List.filterMap_nil]
  rcases lineRecord last with _ | r <;> rfl

/-- Scanning a buffer that ends with `'\n'` (or is empty) and then more bytes reads the readings
of the first part and then those of the second: the scan is compositional at line boundaries. -/
theorem records_append {ls : List Bytes} (hls : ∀ l ∈ ls, newline ∉ l) (q : Bytes) :
    records (joinLines ls [] ++ q) = records (joinLines ls []) ++ records q := by
  rw [joinLines_append, List.nil_append, records_joinLines hls, records_joinLines hls,
    records_nil, List.append_nil]

/-- The scan is compositional at a `'\n'`: the readings before it, then those after it. -/
theorem records_append_newline (x y : Bytes) :
    records (x ++ newline :: y) = records x ++ records y := by
  obtain ⟨ls, last, hls, hlast, rfl⟩ := exists_joinLines x
  rw [joinLines_append, records_joinLines hls, records_joinLines hls, records_line hlast,
    records_last hlast, List.append_assoc]

theorem findSemi_of_not_mem (key : Bytes) {l : Bytes} (hl : semicolon ∉ l) :
    findSemi key l = none := by
  induction l generalizing key with
  | nil => rfl
  | cons b l ih =>
    rw [List.mem_cons, not_or] at hl
    simp only [findSemi, if_neg (Ne.symm hl.1)]
    split_ifs <;> exact ih _ hl.2

theorem findSemi_split (key : Bytes) {k : Bytes} (hk₁ : semicolon ∉ k) (hk₂ : newline ∉ k)
    (v : Bytes) : findSemi key (k ++ semicolon :: v) = some (key ++ k, v) := by
  induction k generalizing key with
  | nil => simp [findSemi]
  | cons b k ih =>
    rw [List.mem_cons, not_or] at hk₁ hk₂
    simp [findSemi, Ne.symm hk₁.1, Ne.symm hk₂.1, ih _ hk₁.2 hk₂.2]

/-- A line without `';'` contributes nothing. -/
theorem lineRecord_of_not_mem {l : Bytes} (hl : semicolon ∉ l) : lineRecord l = none := by
  simp [lineRecord, scanRecord, findSemi_of_not_mem [] hl]

/-- A line contributes its bytes before the first `';'` as key, and the temperature after it. -/
theorem lineRecord_split {k : Bytes} (hk₁ : semicolon ∉ k) (hk₂ : newline ∉ k) (v : Bytes) :
    lineRecord (k ++ semicolon :: v) = some (k, (parseTenth v).1) := by
  simp [lineRecord, scanRecord, findSemi_split [] hk₁ hk₂]

end BillionRows
