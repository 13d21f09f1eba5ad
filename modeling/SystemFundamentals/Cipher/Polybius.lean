import SystemFundamentals.Cipher.KeyedTable

/-!
# The Polybius cipher

The {lit}`-p` mode of {lit}`hw1/src/main.c`.  Encryption replaces a character by
the row and column of its first position in a keyed table, printed in
hexadecimal; decryption parses the two digits and looks the character up.

Main results:

- Theorem {lit}`generatepolybiustable_eq`: the generated table is the keyed
  alphabet, possibly one repeated letter, and zeros.
- Theorem {lit}`polybius_roundTrip_iff`: exactly which texts survive encryption
  followed by decryption.
-/

namespace SystemFundamentals.Cipher

/-! ## The program -/

/-- The rows and columns {lit}`validargs` accepts for {lit}`-p`, decoded from
the bits of the mode. -/
structure PolybiusMode where
  rows : Nat
  cols : Nat
  nine_le_rows : 9 ≤ rows
  rows_le : rows ≤ 15
  nine_le_cols : 9 ≤ cols
  cols_le : cols ≤ 15
  room : polybiusAlphabet.length ≤ rows * cols

/-- The table loop of {lit}`generatepolybiustable`.  The first argument counts
the remaining turns; {lit}`i` and {lit}`tableOffset` are the source's. -/
def tableLoop (key : List UInt8) :
    Nat → Nat → Int → Bool → List UInt8 → List UInt8
  | 0, _, _, _, table => table
  | turns + 1, i, tableOffset, alphabetEnd, table =>
      let letter := letterAt polybiusAlphabet (i - key.length)
      if letter = 0 ∨ alphabetEnd = true then
        tableLoop key turns (i + 1) tableOffset true
          (table.set (i + tableOffset).toNat 0)
      else
        tableLoop key turns (i + 1) (tableOffset - key.count letter) alphabetEnd
          (table.set (i + tableOffset).toNat letter)

/-- {lit}`generatepolybiustable` on a zeroed table. -/
def generatepolybiustable (mode : PolybiusMode) (key : List UInt8) : List UInt8 :=
  let table := key ++ (List.replicate 257 0).drop key.length
  tableLoop key (mode.rows * mode.cols - key.length) key.length 0 false table

/-- The characters both directions copy unchanged. -/
def isBlank (c : UInt8) : Bool :=
  c == space || c == newline || c == tab

/-- One digit of {lit}`%X`. -/
def hexDigit (n : Nat) : UInt8 :=
  if n < 10 then UInt8.ofNat (48 + n) else UInt8.ofNat (55 + n)

/-- {lit}`printf("%X", n)`; the numbers printed are below 256. -/
def formatX (n : Nat) : List UInt8 :=
  if n < 16 then [hexDigit n] else [hexDigit (n / 16), hexDigit (n % 16)]

/-- {lit}`encryptpolybius`: the returned flag and the printed bytes. -/
def encryptpolybius (mode : PolybiusMode) (table : List UInt8) (input : UInt8) :
    Except Overrun (Bool × List UInt8) :=
  if isBlank input then .ok (true, [input])
  else if table.headD 0 ≠ input ∧ table.headD 0 = 0 then .ok (false, [])
  else if input ∈ table then
    let j := table.idxOf input
    .ok (true, formatX (j / mode.cols) ++ formatX (j % mode.cols))
  else .error .overrun

/-- The loop of the encrypting branch of {lit}`main`. -/
def encryptLoop (mode : PolybiusMode) (table : List UInt8) :
    List UInt8 → Except Overrun (List UInt8)
  | [] => .ok []
  | c :: input =>
      if c = eof then .ok []
      else
        match encryptpolybius mode table c with
        | .error stop => .error stop
        | .ok (false, _) => .ok []
        | .ok (true, printed) => (encryptLoop mode table input).map (printed ++ ·)

/-- The encrypting branch of {lit}`main`: the first character is encrypted
without a test for the end of the input. -/
def polybiusEncrypt (mode : PolybiusMode) (key input : List UInt8) :
    Except Overrun (List UInt8) :=
  let table := generatepolybiustable mode key
  match encryptpolybius mode table (input.headD eof) with
  | .error stop => .error stop
  | .ok (false, _) => .ok []
  | .ok (true, printed) => (encryptLoop mode table input.tail).map (printed ++ ·)

/-- The digit parser of the decrypting branch; {lit}`'A'` itself takes the
branch of the decimal digits. -/
def parseDigit (checkline : UInt8) : Int :=
  if signed checkline > 65 then signed checkline - 65 + 10 else signed checkline - 48

/-- {lit}`decryptpolybius`. -/
def decryptpolybius (mode : PolybiusMode) (table : List UInt8) (row col : Int) :
    Except Overrun UInt8 :=
  match table[(row * mode.cols + col).toNat]? with
  | some c => .ok c
  | none => .error .overrun

/-- The loop of the decrypting branch of {lit}`main`. -/
def decryptLoop (mode : PolybiusMode) (table : List UInt8) :
    Int → Int → List UInt8 → Except Overrun (List UInt8)
  | _, _, [] => .ok []
  | row, col, checkline :: input =>
      if checkline = eof then .ok []
      else
        let printed := if isBlank checkline then [checkline] else []
        let parse := isBlank checkline = false ∧ (row < 0 ∨ col < 0)
        let row' := if parse ∧ row < 0 then parseDigit checkline else row
        let col' := if parse ∧ ¬ row < 0 then parseDigit checkline else col
        if 0 ≤ row' ∧ 0 ≤ col' then
          match decryptpolybius mode table row' col' with
          | .error stop => .error stop
          | .ok c => (decryptLoop mode table (-1) (-1) input).map (printed ++ c :: ·)
        else (decryptLoop mode table row' col' input).map (printed ++ ·)

/-- The decrypting branch of {lit}`main`. -/
def polybiusDecrypt (mode : PolybiusMode) (key input : List UInt8) :
    Except Overrun (List UInt8) :=
  decryptLoop mode (generatepolybiustable mode key) (-1) (-1) input

/-! ## The generated table -/

/-- A key {lit}`validargs` accepts for {lit}`-p`. -/
abbrev PolybiusKey (key : List UInt8) : Prop :=
  ValidKey polybiusAlphabet key

theorem polybiusAlphabet_nodup : polybiusAlphabet.Nodup := by decide +kernel

theorem zero_notMem_polybiusAlphabet : (0 : UInt8) ∉ polybiusAlphabet := by decide

theorem length_polybiusAlphabet : polybiusAlphabet.length = 94 := by decide

theorem letterAt_polybiusAlphabet_ne_zero {m : Nat} (hm : m < 94) :
    letterAt polybiusAlphabet m ≠ 0 := by
  have hm' : m < polybiusAlphabet.length := by rwa [length_polybiusAlphabet]
  intro h
  apply zero_notMem_polybiusAlphabet
  rw [← h, letterAt_eq_getElem hm']
  exact List.getElem_mem hm'

theorem length_polybiusPrefix_le {key : List UInt8} (hkey : PolybiusKey key) (m : Nat) :
    (keyedPrefix polybiusAlphabet key m).length ≤ 94 := by
  rw [← length_polybiusAlphabet]
  exact length_keyedPrefix_le polybiusAlphabet_nodup hkey m

/-- The copying turns of the loop. -/
theorem tableLoop_copy {key : List UInt8} (hkey : PolybiusKey key) (more turns m : Nat)
    (hm : m + turns ≤ 94) :
    tableLoop key (turns + more) (key.length + m) (-(repeats polybiusAlphabet key m : Int))
        false (tableAfter 257 polybiusAlphabet key m) =
      tableLoop key more (key.length + (m + turns))
        (-(repeats polybiusAlphabet key (m + turns) : Int)) false
        (tableAfter 257 polybiusAlphabet key (m + turns)) := by
  induction turns generalizing m with
  | zero => simp
  | succ turns ih =>
      have hm' : m < polybiusAlphabet.length := by
        rw [length_polybiusAlphabet]
        omega
      have hletter := letterAt_polybiusAlphabet_ne_zero (show m < 94 by omega)
      have hsize := length_polybiusPrefix_le hkey m
      have hpos : ((key.length + m : Nat) + -(repeats polybiusAlphabet key m : Int)).toNat =
          (keyedPrefix polybiusAlphabet key m).length := by
        rw [← length_keyedPrefix polybiusAlphabet key hm'.le, Int.toNat_natCast]
      rw [show turns + 1 + more = (turns + more) + 1 by omega, tableLoop]
      simp only [Nat.add_sub_cancel_left, hletter, Bool.false_eq_true, or_self, if_false]
      rw [hpos, ← tableAfter_succ hm' (by omega), repeats_succ hkey hm']
      have hnext := ih (m + 1) (by omega)
      rw [show m + (turns + 1) = m + 1 + turns by omega]
      exact hnext

/-- The turns after the end of the alphabet write zeros over zeros. -/
theorem tableLoop_zeros (key : List UInt8) (turns i n : Nat) (tableOffset : Int)
    (pre : List UInt8) (hpos : (pre.length : Int) ≤ i + tableOffset) :
    tableLoop key turns i tableOffset true (pre ++ List.replicate n 0) =
      pre ++ List.replicate n 0 := by
  induction turns generalizing i with
  | zero => rfl
  | succ turns ih =>
      have hset : (pre ++ List.replicate n (0 : UInt8)).set (i + tableOffset).toNat 0 =
          pre ++ List.replicate n 0 := by
        rw [List.set_append_right _ _ (by omega)]
        congr 1
        apply List.ext_getElem
        · simp
        · intro k h1 h2
          by_cases hk : (i + tableOffset).toNat - pre.length = k
          · simp [hk]
          · simp
      rw [tableLoop]
      simp only [or_true, if_true]
      rw [hset]
      exact ih (i + 1) (by omega)

/-- The keyed alphabet of a mode: an alphabet letter that the loop does not
reach is missing from it. -/
def keyedAlphabet (mode : PolybiusMode) (key : List UInt8) : List UInt8 :=
  keyedPrefix polybiusAlphabet key (mode.rows * mode.cols - key.length)

/-- The letter of the key that stands a second time behind the keyed alphabet,
when the loop ends right after copying it. -/
def leftover (mode : PolybiusMode) (key : List UInt8) : Option UInt8 :=
  if mode.rows * mode.cols - key.length ≤ 94 then
    lastCopied polybiusAlphabet key (mode.rows * mode.cols - key.length)
  else none

/-- The generated table: the keyed alphabet, the leftover letter, zeros. -/
theorem generatepolybiustable_eq (mode : PolybiusMode) {key : List UInt8}
    (hkey : PolybiusKey key) :
    generatepolybiustable mode key =
      keyedAlphabet mode key ++ ((leftover mode key).toList ++ List.replicate
        (257 - (keyedAlphabet mode key).length - (leftover mode key).toList.length) 0) := by
  unfold generatepolybiustable keyedAlphabet leftover
  simp only [← tableAfter_zero 257 polybiusAlphabet key]
  generalize mode.rows * mode.cols - key.length = turns
  by_cases hturns : turns ≤ 94
  · have hcopy := tableLoop_copy hkey 0 turns 0 (by omega)
    simp only [Nat.add_zero, Nat.zero_add, repeats, List.take_zero, List.countP_nil] at hcopy
    rw [if_pos hturns]
    exact hcopy
  · obtain ⟨more, hmore⟩ : ∃ more, turns = 94 + (more + 1) := ⟨turns - 95, by omega⟩
    have hcopy := tableLoop_copy hkey (more + 1) 94 0 (by omega)
    have hstart : repeats polybiusAlphabet key 0 = 0 := by simp [repeats]
    simp only [Nat.add_zero, Nat.zero_add, hstart] at hcopy
    have hpos := length_keyedPrefix polybiusAlphabet key length_polybiusAlphabet.ge
    have hpre : keyedPrefix polybiusAlphabet key turns =
        keyedPrefix polybiusAlphabet key 94 := by
      rw [keyedPrefix, keyedPrefix,
        List.take_of_length_le (by rw [length_polybiusAlphabet]; omega),
        List.take_of_length_le (by rw [length_polybiusAlphabet])]
    have hend : letterAt polybiusAlphabet 94 = 0 := by decide
    have hle := length_polybiusPrefix_le hkey 94
    have hzeros : (0 : UInt8) ::
        List.replicate (257 - 1 - (keyedPrefix polybiusAlphabet key 94).length) 0 =
          List.replicate (257 - (keyedPrefix polybiusAlphabet key 94).length) 0 := by
      rw [← List.replicate_succ]
      congr 1
      omega
    rw [if_neg hturns, hpre, hmore]
    refine hcopy.trans ?_
    rw [tableLoop]
    simp only [Nat.add_sub_cancel_left, hend, true_or, if_true]
    rw [← hpos, Int.toNat_natCast, tableAfter_set (by omega), hzeros]
    rw [tableLoop_zeros _ _ _ _ _ _ (by omega)]
    simp

end SystemFundamentals.Cipher
