import SystemFundamentals.Cipher.PolybiusRoundTrip
import SystemFundamentals.Cipher.Morse
import Mathlib.Tactic.IntervalCases

/-!
# What the generated tables promise

The loop of {lit}`generatepolybiustable` runs over the cells of the table and not over the
alphabet, and undoes the copy of a letter of the key by the next copy only; the loop of
{lit}`generatemorsetable` has no next copy after its last letter.

Main results:

- Theorem {lit}`generatepolybiustable_iff`: when the Polybius table is the key, the other
  letters and zeros.
- Theorem {lit}`generatemorsetable_iff`: when {lit}`fm_key` is terminated, and which
  searches stay inside {lit}`fractionated_table`.
-/

namespace SystemFundamentals.Cipher

variable {alphabet key : List UInt8}

/-! ## The keyed alphabet, complete -/

theorem keyedPrefix_length_eq (alphabet key : List UInt8) :
    keyedPrefix alphabet key alphabet.length = key ++ alphabet.filter (· ∉ key) := by
  rw [keyedPrefix, List.take_length]

/-- Nothing of the alphabet is missing as soon as the rest of it belongs to the key. -/
theorem keyedPrefix_of_drop_subset {n : Nat} (hdrop : alphabet.drop n ⊆ key) :
    keyedPrefix alphabet key n = key ++ alphabet.filter (· ∉ key) := by
  have hrest : (alphabet.drop n).filter (· ∉ key) = [] := by
    apply List.filter_eq_nil_iff.mpr
    intro c hc
    simpa using hdrop hc
  have hsplit : alphabet.filter (· ∉ key) =
      (alphabet.take n).filter (· ∉ key) ++ (alphabet.drop n).filter (· ∉ key) := by
    rw [← List.filter_append, List.take_append_drop]
  rw [keyedPrefix, hsplit, hrest, List.append_nil]

theorem length_keyed (halphabet : alphabet.Nodup) (hkey : ValidKey alphabet key) :
    (key ++ alphabet.filter (· ∉ key)).length = alphabet.length := by
  rw [← keyedPrefix_length_eq, length_keyedPrefix_length halphabet hkey]

/-- The letters of the keyed alphabet are those of the alphabet. -/
theorem mem_keyed_iff (hkey : ValidKey alphabet key) {c : UInt8} :
    c ∈ key ++ alphabet.filter (· ∉ key) ↔ c ∈ alphabet := by
  rw [← keyedPrefix_length_eq]
  exact ⟨fun h => keyedPrefix_subset hkey _ h, mem_keyedPrefix_length⟩

/-- Every letter stands once in the keyed alphabet. -/
theorem count_keyed (halphabet : alphabet.Nodup) (hkey : ValidKey alphabet key) {c : UInt8}
    (hc : c ∈ alphabet) : (key ++ alphabet.filter (· ∉ key)).count c = 1 := by
  rw [← keyedPrefix_length_eq]
  exact List.count_eq_one_of_mem (keyedPrefix_nodup halphabet hkey _) (mem_keyedPrefix_length hc)

/-! ## The Polybius table -/

section Polybius

variable (mode : PolybiusMode)

/-- How many cells the loop of {lit}`generatepolybiustable` visits. -/
def visited (key : List UInt8) : Nat :=
  mode.rows * mode.cols - key.length

/-- The letters that the loop does not reach belong to the key, and the last letter that it
copies does not. -/
def CopiesAlphabet (key : List UInt8) : Prop :=
  polybiusAlphabet.drop (visited mode key) ⊆ key ∧
    letterAt polybiusAlphabet (visited mode key - 1) ∉ key

theorem length_polybiusKey_le (hkey : PolybiusKey key) : key.length ≤ 94 := by
  have hle := (hkey.nodup.subperm hkey.subset).length_le
  rwa [length_polybiusAlphabet] at hle

/-- There are more cells than letters, so the loop takes at least one turn. -/
theorem visited_pos (hkey : PolybiusKey key) : 0 < visited mode key := by
  have hlength := length_polybiusKey_le hkey
  have hcells : 94 < mode.rows * mode.cols := by
    have hroom := mode.room
    rw [length_polybiusAlphabet] at hroom
    have h₁ := mode.nine_le_rows
    have h₂ := mode.rows_le
    have h₃ := mode.nine_le_cols
    have h₄ := mode.cols_le
    generalize mode.rows = rows at *
    generalize mode.cols = cols at *
    interval_cases rows <;> omega
  rw [visited]
  omega

/-- The letter behind the keyed alphabet is the last one copied. -/
theorem leftover_eq (hkey : PolybiusKey key) :
    leftover mode key =
      if letterAt polybiusAlphabet (visited mode key - 1) ∈ key then
        some (letterAt polybiusAlphabet (visited mode key - 1))
      else none := by
  obtain ⟨m, hm⟩ : ∃ m, visited mode key = m + 1 :=
    Nat.exists_eq_succ_of_ne_zero (Nat.ne_of_gt (visited_pos mode hkey))
  rw [leftover, ← visited, hm, Nat.add_sub_cancel]
  split_ifs with hreach hmem hmem
  · rw [lastCopied, if_pos hmem]
  · rw [lastCopied, if_neg hmem]
  · have hend : letterAt polybiusAlphabet m = 0 := by
      have hnone : polybiusAlphabet[m]? = none := by
        rw [List.getElem?_eq_none_iff, length_polybiusAlphabet]
        omega
      rw [letterAt, List.getD_eq_getElem?_getD, hnone, Option.getD_none]
    rw [hend] at hmem
    exact absurd (hkey.subset hmem) zero_notMem_polybiusAlphabet
  · rfl

/-- The table of a loop that copies the alphabet. -/
theorem generatepolybiustable_of_copies (hkey : PolybiusKey key)
    (hcopies : CopiesAlphabet mode key) :
    generatepolybiustable mode key =
      key ++ polybiusAlphabet.filter (· ∉ key) ++ List.replicate 163 0 := by
  have hlength := length_keyed polybiusAlphabet_nodup hkey
  rw [generatepolybiustable_eq mode hkey, leftover_eq mode hkey, if_neg hcopies.2, keyedAlphabet,
    ← visited, keyedPrefix_of_drop_subset hcopies.1, hlength, length_polybiusAlphabet]
  rfl

/-- A table in which every letter stands once. -/
theorem copies_of_count (hkey : PolybiusKey key)
    (hcount : ∀ c ∈ polybiusAlphabet, (generatepolybiustable mode key).count c = 1) :
    CopiesAlphabet mode key := by
  constructor
  · intro c hc
    have hletter := List.mem_of_mem_drop hc
    have hzero := (letter_ne c hletter).2.2
    have hmem : c ∈ generatepolybiustable mode key :=
      List.count_pos_iff.mp (by rw [hcount c hletter]; exact Nat.one_pos)
    rw [mem_table_iff mode hkey hzero] at hmem
    rcases List.mem_append.mp hmem with hin | hin
    · exact hin
    · have hdisjoint := List.disjoint_take_drop polybiusAlphabet_nodup (le_refl (visited mode key))
      exact absurd hc (hdisjoint (List.mem_filter.mp hin).1)
  · intro hin
    have hletter := hkey.subset hin
    have hmem : letterAt polybiusAlphabet (visited mode key - 1) ∈ keyedAlphabet mode key :=
      List.mem_append_left _ hin
    have hone := hcount _ hletter
    rw [generatepolybiustable_eq mode hkey, leftover_eq mode hkey, if_pos hin, List.count_append,
      Option.toList_some, List.singleton_append, List.count_cons_self] at hone
    have hpos := List.count_pos_iff.mpr hmem
    omega

/-- The table is the key, the other letters in order and zeros, and every letter stands in it
once, if and only if the loop copies the alphabet. -/
theorem generatepolybiustable_iff (hkey : PolybiusKey key) :
    (generatepolybiustable mode key =
        key ++ polybiusAlphabet.filter (· ∉ key) ++ List.replicate 163 0 ↔
      CopiesAlphabet mode key) ∧
    ((∀ c ∈ polybiusAlphabet, (generatepolybiustable mode key).count c = 1) ↔
      CopiesAlphabet mode key) := by
  have hcount (htable : generatepolybiustable mode key =
      key ++ polybiusAlphabet.filter (· ∉ key) ++ List.replicate 163 0) :
      ∀ c ∈ polybiusAlphabet, (generatepolybiustable mode key).count c = 1 := by
    intro c hc
    have hzero : (0 : UInt8) ≠ c := (letter_ne c hc).2.2.symm
    rw [htable, List.count_append, count_keyed polybiusAlphabet_nodup hkey hc,
      List.count_replicate, if_neg (by simpa using hzero)]
  refine ⟨⟨fun htable => copies_of_count mode hkey (hcount htable),
    generatepolybiustable_of_copies mode hkey⟩, copies_of_count mode hkey, fun hcopies => ?_⟩
  exact hcount (generatepolybiustable_of_copies mode hkey hcopies)

/-- Ten rows and columns, as for a command line without {lit}`-r` and {lit}`-c`. -/
def defaultMode : PolybiusMode where
  rows := 10
  cols := 10
  nine_le_rows := by decide
  rows_le := by decide
  nine_le_cols := by decide
  cols_le := by decide
  room := by decide

/-- The key {lit}`KEY`. -/
theorem generatepolybiustable_iff_short :
    PolybiusKey [75, 69, 89] ∧
      (generatepolybiustable defaultMode [75, 69, 89] =
          [75, 69, 89] ++ polybiusAlphabet.filter (· ∉ [75, 69, 89]) ++ List.replicate 163 0 ↔
        CopiesAlphabet defaultMode [75, 69, 89]) :=
  ⟨⟨by decide, by decide⟩, (generatepolybiustable_iff defaultMode ⟨by decide, by decide⟩).1⟩

/-- With the ten letters from {lit}`a` to {lit}`j` as key the loop ends before the last four
characters of the alphabet. -/
theorem generatepolybiustable_incomplete :
    ¬ ∀ (mode : PolybiusMode) (key : List UInt8), PolybiusKey key →
      ∀ c ∈ polybiusAlphabet, (generatepolybiustable mode key).count c = 1 := by
  intro hall
  have hlast := hall defaultMode [97, 98, 99, 100, 101, 102, 103, 104, 105, 106]
    ⟨by decide, by decide⟩ 126 (by decide)
  revert hlast
  decide +kernel

end Polybius

/-! ## The Morse alphabet -/

/-- The last byte of {lit}`fm_key` is the terminator unless the key has the last letter. -/
theorem generatemorsetable_last (hkey : MorseKey key) :
    generatemorsetable key =
      key ++ fmAlphabet.filter (· ∉ key) ++ [if (90 : UInt8) ∈ key then 90 else 0] := by
  have hlast : letterAt fmAlphabet 25 = 90 := by decide
  have hprefix : keyedPrefix fmAlphabet key 26 = key ++ fmAlphabet.filter (· ∉ key) :=
    keyedPrefix_length_eq fmAlphabet key
  rw [generatemorsetable_bytes hkey, hprefix, lastCopied, hlast]
  split_ifs <;> rfl

theorem zero_notMem_keyed (hkey : MorseKey key) :
    (0 : UInt8) ∉ key ++ fmAlphabet.filter (· ∉ key) := by
  rw [mem_keyed_iff hkey]
  decide

/-- A triple that is not in the table is searched for behind it. -/
theorem searchTriple_of_notMem {letters : List UInt8} {table : List (List UInt8)}
    (hlen : letters.length = table.length) (hzero : (0 : UInt8) ∉ letters) (tail : List UInt8)
    {triple : List UInt8} (htriple : triple ∉ table) :
    searchTriple triple (letters ++ tail) table = searchTriple triple tail [] := by
  induction letters generalizing table with
  | nil =>
      rw [List.eq_nil_of_length_eq_zero hlen.symm]
      rfl
  | cons letter letters ih =>
      cases table with
      | nil => cases hlen
      | cons entry table =>
          rw [List.mem_cons, not_or] at hzero htriple
          have hrest := ih (Nat.succ_injective hlen) hzero.2 htriple.2
          rw [List.cons_append, searchTriple, if_neg (Ne.symm hzero.1),
            if_neg (Ne.symm htriple.1), hrest]

/-- A letter is found among the letters. -/
theorem searchKey_of_mem {letters : List UInt8} {table : List (List UInt8)}
    (hlen : letters.length = table.length) (tail : List UInt8) {input : UInt8}
    (hinput : input ∈ letters) : ∃ entry, searchKey input (letters ++ tail) table = .ok entry := by
  induction letters generalizing table with
  | nil => cases hinput
  | cons letter letters ih =>
      cases table with
      | nil => cases hlen
      | cons entry table =>
          rw [List.cons_append, searchKey]
          split_ifs with hfound
          · exact ⟨entry, rfl⟩
          · rcases List.mem_cons.mp hinput with heq | hrest
            · exact absurd (Or.inr heq.symm) hfound
            · exact ih (Nat.succ_injective hlen) hrest

/-- A character that is not among the letters is searched for behind them. -/
theorem searchKey_of_notMem {letters : List UInt8} {table : List (List UInt8)}
    (hlen : letters.length = table.length) (hzero : (0 : UInt8) ∉ letters) (tail : List UInt8)
    {input : UInt8} (hinput : input ∉ letters) :
    searchKey input (letters ++ tail) table = searchKey input tail [] := by
  induction letters generalizing table with
  | nil =>
      rw [List.eq_nil_of_length_eq_zero hlen.symm]
      rfl
  | cons letter letters ih =>
      cases table with
      | nil => cases hlen
      | cons entry table =>
          rw [List.mem_cons, not_or] at hzero hinput
          have hrest := ih (Nat.succ_injective hlen) hzero.2 hinput.2
          rw [List.cons_append, searchKey, if_neg (not_or.mpr ⟨Ne.symm hzero.1, Ne.symm hinput.1⟩),
            hrest]

/-- {lit}`fm_key` is terminated if and only if the key lacks {lit}`Z`; the search for a triple
that is not in the table relies on that, and the search for a character ends behind the table
unless the character is one of the letters. -/
theorem generatemorsetable_iff (hkey : MorseKey key) :
    (generatemorsetable key = key ++ fmAlphabet.filter (· ∉ key) ++ [0] ↔ 90 ∉ key) ∧
    (∀ triple, searchTriple triple (generatemorsetable key) fractionatedTable ≠ .error .overrun ↔
      90 ∉ key ∨ triple ∈ fractionatedTable) ∧
    ∀ input, searchKey input (generatemorsetable key) fractionatedTable ≠ .error .overrun ↔
      input ∈ fmAlphabet := by
  have hlen : (key ++ fmAlphabet.filter (· ∉ key)).length = fractionatedTable.length :=
    length_keyed fmAlphabet_nodup hkey
  have hnodup : (key ++ fmAlphabet.filter (· ∉ key)).Nodup := by
    rw [← keyedPrefix_length_eq]
    exact keyedPrefix_nodup fmAlphabet_nodup hkey _
  have hzero := zero_notMem_keyed hkey
  rw [generatemorsetable_last hkey]
  refine ⟨?_, fun triple => ?_, fun input => ?_⟩
  · rw [List.append_right_inj]
    split_ifs with hin
    · exact iff_of_false (by decide) (not_not.mpr hin)
    · exact iff_of_true rfl hin
  · by_cases htriple : triple ∈ fractionatedTable
    · rcases exists_letter hlen hnodup hzero [if (90 : UInt8) ∈ key then 90 else 0] htriple with
        ⟨letter, -, hsearch, -⟩
      rw [hsearch]
      exact iff_of_true (fun h => by cases h) (Or.inr htriple)
    · rw [searchTriple_of_notMem hlen hzero _ htriple, or_iff_left htriple]
      split_ifs with hin
      · exact iff_of_false (not_not.mpr rfl) (not_not.mpr hin)
      · exact iff_of_true (fun h => by cases h) hin
  · by_cases hinput : input ∈ fmAlphabet
    · rcases searchKey_of_mem hlen _ ((mem_keyed_iff hkey).mpr hinput) with ⟨entry, hsearch⟩
      rw [hsearch]
      exact iff_of_true (fun h => by cases h) hinput
    · have hnot := (mem_keyed_iff hkey).not.mpr hinput
      rw [searchKey_of_notMem hlen hzero _ hnot]
      exact iff_of_false (not_not.mpr rfl) hinput

/-- The key {lit}`KEY`. -/
theorem generatemorsetable_iff_short :
    MorseKey [75, 69, 89] ∧
      (generatemorsetable [75, 69, 89] =
          [75, 69, 89] ++ fmAlphabet.filter (· ∉ [75, 69, 89]) ++ [0] ↔
        (90 : UInt8) ∉ [(75 : UInt8), 69, 89]) :=
  ⟨⟨by decide, by decide⟩, (generatemorsetable_iff ⟨by decide, by decide⟩).1⟩

/-- The key {lit}`Z` leaves a second {lit}`Z` in the place of the terminator. -/
theorem generatemorsetable_unterminated :
    ¬ ∀ key : List UInt8, MorseKey key →
      generatemorsetable key = key ++ fmAlphabet.filter (· ∉ key) ++ [0] := by
  intro hall
  have hlast := hall [90] ⟨by decide, by decide⟩
  revert hlast
  decide +kernel

end SystemFundamentals.Cipher
