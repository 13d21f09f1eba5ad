import SystemFundamentals.Cipher.Polybius

/-!
# Which texts survive the Polybius cipher

The digit parser of the decrypting branch takes {lit}`A` for a decimal digit,
and the table of a long key lacks the last letters of the alphabet.  This file
shows that these are the only two reasons why decryption does not give back the
text, and states exactly when neither applies.

Main results:

- Theorem {lit}`lookup_eq_iff`: when the two printed digits lead back to the
  position of the letter.
- Theorem {lit}`polybius_roundTrip_iff`: the texts that decryption gives back.
-/

namespace SystemFundamentals.Cipher

/-! ## Digits -/

/-- What the parser makes of a printed digit: {lit}`'A'` is taken for
{lit}`'A' - '0'`. -/
def parsed (digit : Nat) : Nat :=
  if digit = 10 then 17 else digit

theorem parseDigit_hexDigit : ∀ n, n < 16 → parseDigit (hexDigit n) = parsed n := by
  decide

theorem hexDigit_notBlank : ∀ n, n < 16 →
    isBlank (hexDigit n) = false ∧ hexDigit n ≠ eof := by
  decide

/-- An alphabet letter is neither a blank, nor a terminator, nor taken for the
end of the input. -/
theorem letter_ne : ∀ c ∈ polybiusAlphabet, isBlank c = false ∧ c ≠ eof ∧ c ≠ 0 := by
  decide +kernel

theorem blank_ne_eof {c : UInt8} (hc : isBlank c = true) : c ≠ eof := by
  rintro rfl
  exact absurd hc (by decide)

/-! ## Reading the table -/

variable (mode : PolybiusMode) {key : List UInt8}

/-- The leftover letter belongs to the key. -/
theorem mem_of_leftover {c : UInt8} (h : leftover mode key = some c) : c ∈ key := by
  unfold leftover at h
  split_ifs at h with hn
  cases hm : mode.rows * mode.cols - key.length with
  | zero =>
      rw [hm] at h
      contradiction
  | succ m =>
      rw [hm, lastCopied] at h
      split_ifs at h with hin
      exact Option.some.inj h ▸ hin

theorem keyedAlphabet_subset (hkey : PolybiusKey key) :
    keyedAlphabet mode key ⊆ polybiusAlphabet :=
  keyedPrefix_subset hkey _

theorem length_keyedAlphabet_le (hkey : PolybiusKey key) :
    (keyedAlphabet mode key).length ≤ 94 :=
  length_polybiusPrefix_le hkey _

/-- A letter is in the table exactly when it is in the keyed alphabet. -/
theorem mem_table_iff (hkey : PolybiusKey key) {c : UInt8} (hc : c ≠ 0) :
    c ∈ generatepolybiustable mode key ↔ c ∈ keyedAlphabet mode key := by
  rw [generatepolybiustable_eq mode hkey]
  constructor
  · intro h
    rcases List.mem_append.mp h with h | h
    · exact h
    · rcases List.mem_append.mp h with h | h
      · exact List.mem_append_left _ (mem_of_leftover mode (by simpa using h))
      · exact absurd (List.eq_of_mem_replicate h) hc
  · exact List.mem_append_left _

theorem idxOf_table (hkey : PolybiusKey key) {c : UInt8}
    (hc : c ∈ keyedAlphabet mode key) :
    (generatepolybiustable mode key).idxOf c = (keyedAlphabet mode key).idxOf c := by
  rw [generatepolybiustable_eq mode hkey, List.idxOf_append_of_mem hc]

/-- The table does not start with a terminator. -/
theorem headD_table_ne_zero (hkey : PolybiusKey key) :
    (generatepolybiustable mode key).headD 0 ≠ 0 := by
  have hne : keyedAlphabet mode key ≠ [] := by
    cases key with
    | cons c key => simp [keyedAlphabet, keyedPrefix]
    | nil =>
        have hroom := mode.room
        rw [length_polybiusAlphabet] at hroom
        obtain ⟨n, hn⟩ : ∃ n, mode.rows * mode.cols - ([] : List UInt8).length = n + 1 :=
          ⟨mode.rows * mode.cols - 1, by simp; omega⟩
        rw [keyedAlphabet, hn]
        simp [keyedPrefix, polybiusAlphabet, List.range'_succ]
  rcases List.exists_cons_of_ne_nil hne with ⟨c, rest, hcons⟩
  have hc : c ∈ keyedAlphabet mode key := by simp [hcons]
  rw [generatepolybiustable_eq mode hkey, hcons]
  exact (letter_ne c (keyedAlphabet_subset mode hkey hc)).2.2

/-! ## One character -/

theorem encryptpolybius_blank (table : List UInt8) {c : UInt8} (hc : isBlank c = true) :
    encryptpolybius mode table c = .ok (true, [c]) := by
  rw [encryptpolybius, if_pos hc]

/-- A letter of the table is printed as two digits. -/
theorem encryptpolybius_of_mem (hkey : PolybiusKey key) {c : UInt8}
    (hc : c ∈ keyedAlphabet mode key) :
    encryptpolybius mode (generatepolybiustable mode key) c =
      .ok (true, [hexDigit ((keyedAlphabet mode key).idxOf c / mode.cols),
        hexDigit ((keyedAlphabet mode key).idxOf c % mode.cols)]) := by
  have hletter := letter_ne c (keyedAlphabet_subset mode hkey hc)
  have hblank : ¬ isBlank c = true := by simp [hletter.1]
  have hhead := headD_table_ne_zero mode hkey
  have hj := (List.idxOf_lt_length_iff.mpr hc).trans_le (length_keyedAlphabet_le mode hkey)
  have hrow : (keyedAlphabet mode key).idxOf c / mode.cols < 16 := by
    have hcols := mode.nine_le_cols
    exact (Nat.div_lt_iff_lt_mul (by omega)).mpr (by omega)
  have hcol : (keyedAlphabet mode key).idxOf c % mode.cols < 16 := by
    have hcols := mode.nine_le_cols
    have hcols' := mode.cols_le
    have hlt := Nat.mod_lt ((keyedAlphabet mode key).idxOf c) (y := mode.cols) (by omega)
    omega
  rw [encryptpolybius, if_neg hblank, if_neg (fun h => hhead h.2),
    if_pos ((mem_table_iff mode hkey hletter.2.2).mpr hc)]
  simp only [idxOf_table mode hkey hc, formatX, if_pos hrow, if_pos hcol]
  rfl

/-- The search for a letter that is not in the table leaves it. -/
theorem encryptpolybius_of_notMem (hkey : PolybiusKey key) {c : UInt8}
    (halphabet : c ∈ polybiusAlphabet) (hc : c ∉ keyedAlphabet mode key) :
    encryptpolybius mode (generatepolybiustable mode key) c = .error .overrun := by
  have hletter := letter_ne c halphabet
  have hblank : ¬ isBlank c = true := by simp [hletter.1]
  have hhead := headD_table_ne_zero mode hkey
  rw [encryptpolybius, if_neg hblank, if_neg (fun h => hhead h.2),
    if_neg (fun h => hc ((mem_table_iff mode hkey hletter.2.2).mp h))]

theorem decryptLoop_blank (table : List UInt8) {c : UInt8} (hc : isBlank c = true)
    (input : List UInt8) :
    decryptLoop mode table (-1) (-1) (c :: input) =
      (decryptLoop mode table (-1) (-1) input).map (c :: ·) := by
  rw [decryptLoop, if_neg (blank_ne_eof hc)]
  simp [hc]

/-- The first digit is stored as the row. -/
theorem decryptLoop_row (table : List UInt8) {row : Nat} (hrow : row < 16)
    (input : List UInt8) :
    decryptLoop mode table (-1) (-1) (hexDigit row :: input) =
      decryptLoop mode table (parsed row) (-1) input := by
  rcases hexDigit_notBlank row hrow with ⟨hblank, heof⟩
  rw [decryptLoop, if_neg heof, parseDigit_hexDigit row hrow]
  simp [hblank]
  cases decryptLoop mode table (parsed row) (-1) input <;> rfl

/-- The second digit completes the position, which is looked up. -/
theorem decryptLoop_col (table : List UInt8) (row : Nat) {col : Nat} (hcol : col < 16)
    (input : List UInt8) :
    decryptLoop mode table row (-1) (hexDigit col :: input) =
      match table[row * mode.cols + parsed col]? with
      | none => .error .overrun
      | some c => (decryptLoop mode table (-1) (-1) input).map (c :: ·) := by
  rcases hexDigit_notBlank col hcol with ⟨hblank, heof⟩
  have hrow : ¬ (row : Int) < 0 := by omega
  have hpos : ((row : Int) * mode.cols + (parsed col : Nat)).toNat =
      row * mode.cols + parsed col := by
    rw [← Int.natCast_mul, ← Int.natCast_add, Int.toNat_natCast]
  rw [decryptLoop, if_neg heof, parseDigit_hexDigit col hcol]
  simp only [hblank, hrow, decryptpolybius]
  cases hget : table[row * mode.cols + parsed col]? <;> simp [hget, hpos]

/-! ## The look-up -/

/-- The letter at the position its two printed digits are parsed to. -/
def lookup (mode : PolybiusMode) (key : List UInt8) (c : UInt8) : Option UInt8 :=
  (generatepolybiustable mode key)[
    parsed ((keyedAlphabet mode key).idxOf c / mode.cols) * mode.cols +
      parsed ((keyedAlphabet mode key).idxOf c % mode.cols)]?

/-- Encrypting and decrypting one letter is one look-up. -/
theorem decryptLoop_encrypted (table : List UInt8) {j : Nat} (hj : j < 94)
    (input : List UInt8) :
    decryptLoop mode table (-1) (-1)
        (hexDigit (j / mode.cols) :: hexDigit (j % mode.cols) :: input) =
      match table[parsed (j / mode.cols) * mode.cols + parsed (j % mode.cols)]? with
      | none => .error .overrun
      | some c => (decryptLoop mode table (-1) (-1) input).map (c :: ·) := by
  have hcols := mode.nine_le_cols
  have hcols' := mode.cols_le
  have hrow : j / mode.cols < 16 := (Nat.div_lt_iff_lt_mul (by omega)).mpr (by omega)
  have hcol : j % mode.cols < 16 := by
    have hlt := Nat.mod_lt j (y := mode.cols) (by omega)
    omega
  rw [decryptLoop_row mode table hrow, decryptLoop_col mode table _ hcol]

/-- Behind the keyed alphabet and the leftover letter there are only zeros. -/
theorem table_getElem?_of_length_le (hkey : PolybiusKey key) {c : UInt8} (hc : c ≠ 0)
    {p : Nat} (hp : (keyedAlphabet mode key).length ≤ p) :
    (generatepolybiustable mode key)[p]? = some c ↔
      p = (keyedAlphabet mode key).length ∧ leftover mode key = some c := by
  rw [generatepolybiustable_eq mode hkey, List.getElem?_append_right hp]
  have hzero (n i : Nat) : ¬ (List.replicate n (0 : UInt8))[i]? = some c := by
    intro h
    exact hc (List.eq_of_mem_replicate (List.mem_of_getElem? h))
  cases leftover mode key with
  | none =>
      simp only [Option.toList_none, List.nil_append]
      exact iff_of_false (hzero _ _) (by simp)
  | some d =>
      rcases Nat.eq_or_lt_of_le hp with h | h
      · simp [← h]
      · obtain ⟨i, hi⟩ : ∃ i, p - (keyedAlphabet mode key).length = i + 1 :=
          ⟨p - (keyedAlphabet mode key).length - 1, by omega⟩
        simp only [hi, Option.toList_some, List.singleton_append, List.getElem?_cons_succ]
        exact iff_of_false (hzero _ _) (by omega)

/-- Inside the keyed alphabet a letter has one position. -/
theorem table_getElem?_of_lt (hkey : PolybiusKey key) {c : UInt8}
    (hc : c ∈ keyedAlphabet mode key) {p : Nat} (hp : p < (keyedAlphabet mode key).length) :
    (generatepolybiustable mode key)[p]? = some c ↔
      p = (keyedAlphabet mode key).idxOf c := by
  have hnodup : (keyedAlphabet mode key).Nodup := keyedPrefix_nodup polybiusAlphabet_nodup hkey _
  rw [generatepolybiustable_eq mode hkey, List.getElem?_append_left hp,
    List.getElem?_eq_getElem hp, Option.some_inj]
  constructor
  · rintro rfl
    exact (hnodup.idxOf_getElem p hp).symm
  · rintro rfl
    exact List.getElem_idxOf hp

/-- The two digits lead back to the letter unless one of them is printed as
{lit}`A`; a column {lit}`A` is harmless only when the same letter stands again
seven places on. -/
theorem lookup_eq_iff (hkey : PolybiusKey key) {c : UInt8}
    (hc : c ∈ keyedAlphabet mode key) :
    lookup mode key c = some c ↔
      (keyedAlphabet mode key).idxOf c / mode.cols ≠ 10 ∧
        ((keyedAlphabet mode key).idxOf c % mode.cols ≠ 10 ∨
          leftover mode key = some c ∧
            (keyedAlphabet mode key).idxOf c + 7 = (keyedAlphabet mode key).length) := by
  have hletter := letter_ne c (keyedAlphabet_subset mode hkey hc)
  have hj := List.idxOf_lt_length_iff.mpr hc
  have hlen := length_keyedAlphabet_le mode hkey
  unfold lookup
  generalize hjdef : (keyedAlphabet mode key).idxOf c = j at hj ⊢
  have hdiv := Nat.div_add_mod' j mode.cols
  by_cases hrow : j / mode.cols = 10
  · -- ten rows fit only nine columns, and row seventeen lies behind the table
    have hcols : mode.cols = 9 := by
      have hnine := mode.nine_le_cols
      rw [hrow] at hdiv
      omega
    refine iff_of_false ?_ (fun h => h.1 hrow)
    intro h
    have hbig : (keyedAlphabet mode key).length <
        parsed (j / mode.cols) * mode.cols + parsed (j % mode.cols) := by
      rw [hrow, hcols]
      simp only [parsed, if_true]
      omega
    exact absurd ((table_getElem?_of_length_le mode hkey hletter.2.2 hbig.le).mp h).1 hbig.ne'
  · by_cases hcol : j % mode.cols = 10
    · have hpos : parsed (j / mode.cols) * mode.cols + parsed (j % mode.cols) = j + 7 := by
        simp only [parsed, if_neg hrow, if_pos hcol]
        omega
      rw [hpos]
      by_cases hin : j + 7 < (keyedAlphabet mode key).length
      · rw [table_getElem?_of_lt mode hkey hc hin, hjdef]
        refine iff_of_false (by omega) ?_
        rintro ⟨_, h | h⟩
        · exact h hcol
        · omega
      · rw [table_getElem?_of_length_le mode hkey hletter.2.2 (Nat.le_of_not_lt hin)]
        constructor
        · rintro ⟨hp, hl⟩
          exact ⟨hrow, Or.inr ⟨hl, hp⟩⟩
        · rintro ⟨_, h | h⟩
          · exact absurd hcol h
          · exact ⟨h.2, h.1⟩
    · have hpos : parsed (j / mode.cols) * mode.cols + parsed (j % mode.cols) = j := by
        simp only [parsed, if_neg hrow, if_neg hcol]
        exact hdiv
      rw [hpos, table_getElem?_of_lt mode hkey hc hj, hjdef]
      exact iff_of_true rfl ⟨hrow, Or.inl hcol⟩

/-! ## Whole texts -/

/-- A character that decryption gives back: a blank, or a letter of the keyed
alphabet whose row and column are not printed as {lit}`A`, with the one
exception of a column {lit}`A` seven places before the leftover copy of the
letter. -/
def Recoverable (mode : PolybiusMode) (key : List UInt8) (c : UInt8) : Prop :=
  isBlank c = true ∨
    c ∈ keyedAlphabet mode key ∧
      (keyedAlphabet mode key).idxOf c / mode.cols ≠ 10 ∧
        ((keyedAlphabet mode key).idxOf c % mode.cols ≠ 10 ∨
          leftover mode key = some c ∧
            (keyedAlphabet mode key).idxOf c + 7 = (keyedAlphabet mode key).length)

/-- A text over the alphabet plus space, tab and newline. -/
def PolybiusText (text : List UInt8) : Prop :=
  ∀ c ∈ text, isBlank c = true ∨ c ∈ polybiusAlphabet

theorem ne_eof_of_text {text : List UInt8} (htext : PolybiusText text) {c : UInt8}
    (hc : c ∈ text) : c ≠ eof := by
  rcases htext c hc with h | h
  · exact blank_ne_eof h
  · exact (letter_ne c h).2.1

/-- One printed character in front of a cipher: it must be looked up to itself,
and the rest must be given back. -/
theorem roundTrip_cons_iff (decode : List UInt8 → Except Overrun (List UInt8))
    (printed : List UInt8) (found : Option UInt8)
    (hdecode : ∀ input, decode (printed ++ input) =
      match found with
      | none => .error .overrun
      | some d => (decode input).map (d :: ·))
    (result : Except Overrun (List UInt8)) (c : UInt8) (text : List UInt8) :
    (∃ cipher, result.map (printed ++ ·) = .ok cipher ∧ decode cipher = .ok (c :: text)) ↔
      found = some c ∧ ∃ cipher, result = .ok cipher ∧ decode cipher = .ok text := by
  cases result with
  | error stop => simp [Except.map]
  | ok cipher =>
      have hcipher := hdecode cipher
      cases found with
      | none => simp [Except.map, hcipher]
      | some d => cases h : decode cipher <;> simp [Except.map, hcipher, h]

/-- The two loops give back a text exactly when every character is
recoverable. -/
theorem loops_roundTrip_iff (hkey : PolybiusKey key) {text : List UInt8}
    (htext : PolybiusText text) :
    (∃ cipher, encryptLoop mode (generatepolybiustable mode key) text = .ok cipher ∧
        decryptLoop mode (generatepolybiustable mode key) (-1) (-1) cipher = .ok text) ↔
      ∀ c ∈ text, Recoverable mode key c := by
  induction text with
  | nil => simp [encryptLoop, decryptLoop]
  | cons c text ih =>
      have hne := ne_eof_of_text htext (List.mem_cons_self (a := c))
      rw [encryptLoop, if_neg hne, List.forall_mem_cons,
        ← ih fun d hd => htext d (List.mem_cons_of_mem c hd)]
      by_cases hblank : isBlank c = true
      · rw [encryptpolybius_blank mode _ hblank]
        have hcons := roundTrip_cons_iff _ [c] (some c)
          (decryptLoop_blank mode (generatepolybiustable mode key) hblank)
        refine (hcons _ c text).trans (and_congr_left' ?_)
        exact iff_of_true rfl (Or.inl hblank)
      · have halphabet : c ∈ polybiusAlphabet :=
          (htext c (List.mem_cons_self (a := c))).resolve_left hblank
        by_cases hc : c ∈ keyedAlphabet mode key
        · have hj := (List.idxOf_lt_length_iff.mpr hc).trans_le (length_keyedAlphabet_le mode hkey)
          rw [encryptpolybius_of_mem mode hkey hc]
          have hcons := roundTrip_cons_iff _ [_, _] (lookup mode key c)
            (decryptLoop_encrypted mode (generatepolybiustable mode key) hj)
          refine (hcons _ c text).trans (and_congr_left' ?_)
          rw [lookup_eq_iff mode hkey hc, Recoverable]
          simp [hblank, hc]
        · rw [encryptpolybius_of_notMem mode hkey halphabet hc]
          refine iff_of_false (by simp) ?_
          rintro ⟨hblank' | hin, _⟩
          · exact hblank hblank'
          · exact hc hin.1

/-- For every mode and key {lit}`validargs` accepts and every non-empty text
over the alphabet and the blanks: decryption gives back the text if and only if
every character of it is recoverable. -/
theorem polybius_roundTrip_iff (mode : PolybiusMode) (key : List UInt8)
    (hkey : PolybiusKey key) (text : List UInt8) (hne : text ≠ [])
    (htext : PolybiusText text) :
    (∃ cipher, polybiusEncrypt mode key text = .ok cipher ∧
        polybiusDecrypt mode key cipher = .ok text) ↔
      ∀ c ∈ text, Recoverable mode key c := by
  rw [← loops_roundTrip_iff mode hkey htext]
  cases text with
  | nil => exact absurd rfl hne
  | cons c text =>
      have heof := ne_eof_of_text htext (List.mem_cons_self (a := c))
      unfold polybiusEncrypt polybiusDecrypt
      rw [encryptLoop, if_neg heof]
      rfl

/-- Nine rows and fourteen columns. -/
def mode9x14 : PolybiusMode where
  rows := 9
  cols := 14
  nine_le_rows := by decide
  rows_le := by decide
  nine_le_cols := by decide
  cols_le := by decide
  room := by decide

/-- A text whose letters stand in columns below ten of the keyless table. -/
theorem polybius_roundTrip_iff_keyless :
    (∃ cipher, polybiusEncrypt mode9x14 [] [33, 32, 34] = .ok cipher ∧
        polybiusDecrypt mode9x14 [] cipher = .ok [33, 32, 34]) ↔
      ∀ c ∈ [33, 32, 34], Recoverable mode9x14 [] c :=
  polybius_roundTrip_iff mode9x14 [] ⟨List.nodup_nil, List.nil_subset _⟩ [33, 32, 34]
    (by decide) (by unfold PolybiusText; decide +kernel)

/-- With the default mode and no key the character {lit}`+`, in row one and
column zero, is given back, but with fourteen columns it stands in column ten,
is printed as {lit}`0A`, and comes back as the character seven places on. -/
theorem polybius_not_roundTrip :
    ¬ ∀ (mode : PolybiusMode) (key : List UInt8), PolybiusKey key →
      ∀ text : List UInt8, text ≠ [] → PolybiusText text →
        ∃ cipher, polybiusEncrypt mode key text = .ok cipher ∧
          polybiusDecrypt mode key cipher = .ok text := by
  intro hall
  have hrun := hall mode9x14 [] ⟨List.nodup_nil, List.nil_subset _⟩ [43] (by decide)
    (by unfold PolybiusText; decide +kernel)
  rcases hrun with ⟨cipher, hencrypt, hdecrypt⟩
  have hcipher : polybiusEncrypt mode9x14 [] [43] = .ok [48, 65] := by decide +kernel
  rw [hcipher] at hencrypt
  cases hencrypt
  exact absurd hdecrypt (by decide +kernel)

end SystemFundamentals.Cipher
