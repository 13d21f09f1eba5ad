import SystemFundamentals.Cipher.KeyedTable

/-!
# The fractionated Morse cipher

The {lit}`-f` mode of {lit}`hw1/src/main.c`.  Encryption writes dots, dashes and
separators into an 8-byte buffer and replaces every three of them by a letter of
the keyed alphabet; decryption expands the letters into {lit}`polybius_table`,
which serves as its buffer, and prints a character at every separator.

Buffers are byte lists of fixed length in which a zero byte is a free place.

Main results:

- Theorem {lit}`fillBuffer_append`: what the insertion loops do to a buffer whose
  occupied part is a prefix.
- Theorem {lit}`generatemorsetable_eq`: the first 26 bytes of {lit}`fm_key` are
  the key and the remaining letters.
- Theorem {lit}`searchTriple_searchKey`: a triple and the letter that stands for
  it are found from each other.
-/

namespace SystemFundamentals.Cipher

/-! ## The program -/

/-- The loop of {lit}`generatemorsetable` over the alphabet; the first argument
counts the remaining turns. -/
def morseTableLoop (key : List UInt8) : Nat → Nat → Int → List UInt8 → List UInt8
  | 0, _, _, fmKey => fmKey
  | turns + 1, i, offset, fmKey =>
      let letter := letterAt fmAlphabet (i - key.length)
      if letter = 0 then fmKey
      else
        morseTableLoop key turns (i + 1) (offset - key.count letter)
          (fmKey.set (i + offset).toNat letter)

/-- {lit}`generatemorsetable` on the 27 zero bytes of {lit}`fm_key`.  The loop
ends at the terminator of the alphabet. -/
def generatemorsetable (key : List UInt8) : List UInt8 :=
  let fmKey := key ++ (List.replicate 27 0).drop key.length
  morseTableLoop key 27 key.length 0 fmKey

/-- The insertion loops: walk over the buffer and put the next byte of
{lit}`str` into every free place. -/
def fillBuffer : List UInt8 → List UInt8 → List UInt8
  | [], _ => []
  | place :: buffer, [] => place :: buffer
  | place :: buffer, byte :: str =>
      if place = 0 then byte :: fillBuffer buffer str
      else place :: fillBuffer buffer (byte :: str)

/-- {lit}`*(morse_table+(input-'!'))`. -/
def morseEntry (input : UInt8) : Except Overrun (List UInt8) :=
  if 33 ≤ signed input then
    match morseTable[(signed input - 33).toNat]? with
    | some code => .ok code
    | none => .error .overrun
  else .error .overrun

/-- {lit}`encryptmorse`; {lean}`none` is its return value 0. -/
def encryptmorse (buffer : List UInt8) (input : UInt8) :
    Except Overrun (Option (List UInt8)) :=
  if input = space ∨ input = tab ∨ input = newline then
    .ok (some (fillBuffer buffer [sep]))
  else
    match morseEntry input with
    | .error stop => .error stop
    | .ok [] => .ok none
    | .ok code => .ok (some (fillBuffer buffer code))

/-- The search of {lit}`bufferencrypt` for a triple, over {lit}`fm_key` and
{lit}`fractionated_table` side by side. -/
def searchTriple (triple : List UInt8) :
    List UInt8 → List (List UInt8) → Except Overrun (Option UInt8)
  | [], _ => .error .overrun
  | letter :: fmKey, table =>
      if letter = 0 then .ok none
      else
        match table with
        | [] => .error .overrun
        | entry :: table =>
            if entry = triple then .ok (some letter) else searchTriple triple fmKey table

/-- The shift at the end of a turn of {lit}`bufferencrypt`. -/
def shiftTriple (buffer : List UInt8) : List UInt8 :=
  buffer.drop 3 ++ [0, 0, 0]

/-- {lit}`bufferencrypt`: the printed letters and the buffer.  Every turn frees
three places, so the eight places of the buffer allow at most three turns. -/
def bufferencrypt (fmKey : List UInt8) :
    Nat → List UInt8 → Except Overrun (List UInt8 × List UInt8)
  | 0, buffer => .ok ([], buffer)
  | turns + 1, buffer =>
      if buffer.getD 2 0 = 0 then .ok ([], buffer)
      else
        match searchTriple (buffer.take 3) fmKey fractionatedTable with
        | .error stop => .error stop
        | .ok letter =>
            match bufferencrypt fmKey turns (shiftTriple buffer) with
            | .error stop => .error stop
            | .ok (printed, rest) => .ok (letter.toList ++ printed, rest)

/-- What a run of the program prints, and whether it ends with
{lit}`EXIT_SUCCESS`. -/
structure Run where
  printed : List UInt8
  success : Bool
deriving DecidableEq

/-- Output before the rest of a run. -/
def Run.after (printed : List UInt8) (rest : Run) : Run :=
  ⟨printed ++ rest.printed, rest.success⟩

/-- The places up to the first free one are freed. -/
def clearBuffer : List UInt8 → List UInt8
  | [] => []
  | place :: buffer => if place = 0 then place :: buffer else 0 :: clearBuffer buffer

/-- The characters that set {lit}`last_char_space`. -/
def isSpace (checkline : UInt8) : Bool :=
  checkline == space || checkline == tab

/-- The separator in front of a character that does not follow a blank. -/
def insertSeparator (fmKey buffer : List UInt8) (lastCharSpace : Bool) :
    Except Overrun (List UInt8 × List UInt8) :=
  if lastCharSpace then .ok ([], buffer)
  else bufferencrypt fmKey 3 (fillBuffer buffer [sep])

/-- The character itself, unless it is one more space or tab. -/
def insertChar (buffer : List UInt8) (lastCharSpace : Bool) (checkline : UInt8) :
    Except Overrun (Option (List UInt8)) :=
  if lastCharSpace ∧ isSpace checkline then .ok (some buffer)
  else encryptmorse buffer checkline

/-- One turn of the encrypting loop up to the test for a newline: the printed
letters and the buffer, or {lean}`none` when the program gives up. -/
def encryptTurn (fmKey : List UInt8) (buffer : List UInt8) (lastCharSpace : Bool)
    (checkline : UInt8) : Except Overrun (List UInt8 × Option (List UInt8)) :=
  match insertSeparator fmKey buffer lastCharSpace with
  | .error stop => .error stop
  | .ok (before, buffer) =>
      match insertChar buffer lastCharSpace checkline with
      | .error stop => .error stop
      | .ok none => .ok (before, none)
      | .ok (some buffer) =>
          (bufferencrypt fmKey 3 buffer).map fun (printed, buffer) =>
            (before ++ printed, some buffer)

/-- The encrypting loop. -/
def morseEncryptLoop (fmKey : List UInt8) :
    List UInt8 → Bool → List UInt8 → Except Overrun Run
  | _, _, [] => .ok ⟨[], true⟩
  | buffer, lastCharSpace, checkline :: input =>
      if checkline = eof then .ok ⟨[], true⟩
      else
        match encryptTurn fmKey buffer lastCharSpace checkline with
        | .error stop => .error stop
        | .ok (printed, none) => .ok ⟨printed, false⟩
        | .ok (printed, some buffer) =>
            if checkline = newline then
              (morseEncryptLoop fmKey (clearBuffer buffer) true input).map
                (Run.after (printed ++ [newline]))
            else
              (morseEncryptLoop fmKey buffer (isSpace checkline) input).map
                (Run.after printed)

/-- The encrypting branch of {lit}`main`: the first character is encrypted
before the loop. -/
def morseEncrypt (key input : List UInt8) : Except Overrun Run :=
  let fmKey := generatemorsetable key
  match encryptmorse (List.replicate 8 0) (input.headD eof) with
  | .error stop => .error stop
  | .ok none => .ok ⟨[], false⟩
  | .ok (some buffer) => morseEncryptLoop fmKey buffer false input.tail

/-- The search of {lit}`decryptmorse` for a letter, and the entry of
{lit}`fractionated_table` at its index. -/
def searchKey (input : UInt8) :
    List UInt8 → List (List UInt8) → Except Overrun (List UInt8)
  | letter :: fmKey, entry :: table =>
      if letter = 0 ∨ letter = input then .ok entry else searchKey input fmKey table
  | _, _ => .error .overrun

/-- {lit}`decryptmorse`. -/
def decryptmorse (fmKey : List UInt8) (buffer : List UInt8) (input : UInt8) :
    Except Overrun (List UInt8) :=
  (searchKey input fmKey fractionatedTable).map (fillBuffer buffer)

/-- The string of the bytes before the first zero. -/
def cString (buffer : List UInt8) : List UInt8 :=
  buffer.takeWhile (· ≠ 0)

/-- The comparison of a buffer with the entries of {lit}`morse_table` below
{lit}`'z'`: the character of the first equal entry.  The empty string equals no
entry. -/
def lookupMorse (code : List UInt8) : Option UInt8 :=
  ((morseTable.take 89).findIdx? fun entry => entry = code ∧ code ≠ []).map
    fun i => UInt8.ofNat (i + 33)

/-- The shift after a separator at {lit}`index`: the string behind it moves to
the front, and its old places are freed. -/
def shiftPast (buffer : List UInt8) (index : Nat) : List UInt8 :=
  let moved := cString (buffer.drop (index + 1))
  moved ++ List.replicate (index + 1) 0 ++ buffer.drop (index + 1 + moved.length)

/-- The loop over the separators in the decrypting buffer: the printed
characters, and the buffer with {lit}`prep_print_space`, or {lean}`none` when a
code is not in the table.  Every turn removes a separator. -/
def separatorLoop : Nat → List UInt8 → Bool → List UInt8 × Option (List UInt8 × Bool)
  | 0, buffer, prepPrintSpace => ([], some (buffer, prepPrintSpace))
  | turns + 1, buffer, prepPrintSpace =>
      match buffer.idxOf? sep with
      | none => ([], some (buffer, prepPrintSpace))
      | some 0 => separatorLoop turns (shiftPast buffer 0) true
      | some index =>
          let pending := if prepPrintSpace then [space] else []
          match lookupMorse (cString (buffer.take index)) with
          | none => (pending, none)
          | some c =>
              let rest := separatorLoop turns (shiftPast buffer index) false
              (pending ++ c :: rest.1, rest.2)

/-- The newline branch of the decrypting loop: the code left in the buffer is
printed without the pending space. -/
def decryptNewline (buffer : List UInt8) : List UInt8 × Option (List UInt8) :=
  if cString buffer = [] then ([newline], some buffer)
  else
    match lookupMorse (cString buffer) with
    | none => ([], none)
    | some c => ([c, newline], some (clearBuffer buffer))

/-- The decrypting loop. -/
def morseDecryptLoop (fmKey : List UInt8) :
    List UInt8 → Bool → List UInt8 → Except Overrun Run
  | _, _, [] => .ok ⟨[], true⟩
  | buffer, prepPrintSpace, checkline :: input =>
      if checkline = eof then .ok ⟨[], true⟩
      else if checkline = newline then
        match decryptNewline buffer with
        | (printed, none) => .ok ⟨printed, false⟩
        | (printed, some buffer) =>
            match separatorLoop 257 buffer false with
            | (printed', none) => .ok ⟨printed ++ printed', false⟩
            | (printed', some (buffer, prepPrintSpace)) =>
                (morseDecryptLoop fmKey buffer prepPrintSpace input).map
                  (Run.after (printed ++ printed'))
      else
        let pending := if prepPrintSpace then [space] else []
        match decryptmorse fmKey buffer checkline with
        | .error stop => .error stop
        | .ok buffer =>
            match separatorLoop 257 buffer false with
            | (printed, none) => .ok ⟨pending ++ printed, false⟩
            | (printed, some (buffer, prepPrintSpace)) =>
                (morseDecryptLoop fmKey buffer prepPrintSpace input).map
                  (Run.after (pending ++ printed))

/-- The decrypting branch of {lit}`main`, on the 257 zero bytes of
{lit}`polybius_table`. -/
def morseDecrypt (key input : List UInt8) : Except Overrun Run :=
  morseDecryptLoop (generatemorsetable key) (List.replicate 257 0) false input

/-! ## Buffers -/

/-- A buffer of {lit}`size` places whose occupied part is {lit}`occupied`. -/
def padded (size : Nat) (occupied : List UInt8) : List UInt8 :=
  occupied ++ List.replicate (size - occupied.length) 0

theorem padded_nil (size : Nat) : padded size [] = List.replicate size 0 := by
  simp [padded]

/-- Walking over occupied places changes nothing. -/
theorem fillBuffer_append {occupied : List UInt8} (hoccupied : (0 : UInt8) ∉ occupied)
    (free str : List UInt8) :
    fillBuffer (occupied ++ free) str = occupied ++ fillBuffer free str := by
  induction occupied with
  | nil => rfl
  | cons place occupied ih =>
      rw [List.mem_cons, not_or] at hoccupied
      cases str with
      | nil => cases free <;> simp [fillBuffer]
      | cons byte str =>
          rw [List.cons_append, fillBuffer, if_neg (Ne.symm hoccupied.1), ih hoccupied.2]
          rfl

theorem fillBuffer_free (str : List UInt8) {n : Nat} (hlen : str.length ≤ n) :
    fillBuffer (List.replicate n 0) str = str ++ List.replicate (n - str.length) 0 := by
  induction str generalizing n with
  | nil => cases n <;> simp [fillBuffer, List.replicate_succ]
  | cons byte str ih =>
      obtain ⟨m, rfl⟩ : ∃ m, n = m + 1 := ⟨n - 1, by simp at hlen; omega⟩
      rw [List.replicate_succ, fillBuffer, if_pos rfl, ih (by simpa using hlen)]
      simp

/-- An insertion that fits extends the occupied part. -/
theorem fillBuffer_padded {size : Nat} {occupied str : List UInt8}
    (hoccupied : (0 : UInt8) ∉ occupied) (hfit : occupied.length + str.length ≤ size) :
    fillBuffer (padded size occupied) str = padded size (occupied ++ str) := by
  rw [padded, fillBuffer_append hoccupied, fillBuffer_free _ (by omega), padded,
    List.append_assoc, List.length_append, Nat.sub_sub]

theorem clearBuffer_padded {size : Nat} {occupied : List UInt8}
    (hoccupied : (0 : UInt8) ∉ occupied) (hfit : occupied.length ≤ size) :
    clearBuffer (padded size occupied) = List.replicate size 0 := by
  have hclear : ∀ n, clearBuffer (occupied ++ List.replicate n 0) =
      List.replicate (occupied.length + n) 0 := by
    intro n
    induction occupied with
    | nil => cases n <;> simp [clearBuffer, List.replicate_succ]
    | cons place occupied ih =>
        rw [List.mem_cons, not_or] at hoccupied
        rw [List.cons_append, clearBuffer, if_neg (Ne.symm hoccupied.1),
          ih hoccupied.2 (by simp at hfit; omega), List.length_cons, Nat.succ_add,
          List.replicate_succ]
  rw [padded, hclear, Nat.add_sub_cancel' hfit]

theorem cString_append_zeros {occupied : List UInt8} (hoccupied : (0 : UInt8) ∉ occupied)
    (n : Nat) : cString (occupied ++ List.replicate n 0) = occupied := by
  unfold cString
  rw [List.takeWhile_append_of_pos]
  · cases n <;> simp [List.replicate_succ]
  · intro c hc
    have hne : c ≠ 0 := fun h => hoccupied (h ▸ hc)
    simpa using hne

/-! ## The keyed alphabet -/

/-- A key {lit}`validargs` accepts for {lit}`-f`. -/
abbrev MorseKey (key : List UInt8) : Prop :=
  ValidKey fmAlphabet key

theorem fmAlphabet_nodup : fmAlphabet.Nodup := by decide

theorem length_fmAlphabet : fmAlphabet.length = 26 := by decide

theorem letterAt_fmAlphabet_ne_zero : ∀ m, m < 26 → letterAt fmAlphabet m ≠ 0 := by decide

/-- The loop copies the whole alphabet. -/
theorem morseTableLoop_copy {key : List UInt8} (hkey : MorseKey key) (turns m : Nat)
    (hm : m + turns = 26) :
    morseTableLoop key (turns + 1) (key.length + m) (-(repeats fmAlphabet key m : Int))
        (tableAfter 27 fmAlphabet key m) =
      tableAfter 27 fmAlphabet key 26 := by
  induction turns generalizing m with
  | zero =>
      have hm' : m = 26 := by omega
      have hend : letterAt fmAlphabet 26 = 0 := by decide
      subst hm'
      rw [morseTableLoop]
      simp [hend]
  | succ turns ih =>
      have hm' : m < fmAlphabet.length := by
        rw [length_fmAlphabet]
        omega
      have hletter := letterAt_fmAlphabet_ne_zero m (by omega)
      have hsize := length_keyedPrefix_le fmAlphabet_nodup hkey m
      rw [length_fmAlphabet] at hsize
      have hpos : ((key.length + m : Nat) + -(repeats fmAlphabet key m : Int)).toNat =
          (keyedPrefix fmAlphabet key m).length := by
        rw [← length_keyedPrefix fmAlphabet key hm'.le, Int.toNat_natCast]
      rw [morseTableLoop]
      simp only [Nat.add_sub_cancel_left, hletter, if_false]
      rw [hpos, ← tableAfter_succ hm' (by omega), repeats_succ hkey hm']
      exact ih (m + 1) (by omega)

/-- The key and the remaining letters are 26 letters. -/
theorem length_fmPrefix {key : List UInt8} (hkey : MorseKey key) :
    (keyedPrefix fmAlphabet key 26).length = 26 := by
  have hlength := length_keyedPrefix_length fmAlphabet_nodup hkey
  rwa [length_fmAlphabet] at hlength

/-- The 27 bytes of {lit}`fm_key`: the key, the remaining letters, and what the last turn of
the loop leaves behind them. -/
theorem generatemorsetable_bytes {key : List UInt8} (hkey : MorseKey key) :
    generatemorsetable key =
      keyedPrefix fmAlphabet key 26 ++ [(lastCopied fmAlphabet key 26).getD 0] := by
  have hcopy := morseTableLoop_copy hkey 26 0 rfl
  have hstart : repeats fmAlphabet key 0 = 0 := by simp [repeats]
  simp only [Nat.add_zero, hstart] at hcopy
  have hloop : morseTableLoop key 27 key.length 0 (tableAfter 27 fmAlphabet key 0) =
      tableAfter 27 fmAlphabet key 26 := hcopy
  unfold generatemorsetable
  simp only [← tableAfter_zero 27 fmAlphabet key]
  rw [hloop, tableAfter, length_fmPrefix hkey]
  cases lastCopied fmAlphabet key 26 with
  | none => rfl
  | some c => rfl

/-- The first 26 bytes of {lit}`fm_key` are the key and the remaining letters.
The last byte is not always the terminator: a {lit}`Z` of the key stands there
again. -/
theorem generatemorsetable_eq {key : List UInt8} (hkey : MorseKey key) :
    ∃ last, generatemorsetable key = keyedPrefix fmAlphabet key 26 ++ [last] :=
  ⟨_, generatemorsetable_bytes hkey⟩

/-! ## Triples and letters -/

/-- Distinct letters over distinct triples: a triple and its letter are found
from each other. -/
theorem exists_letter {letters : List UInt8} {table : List (List UInt8)}
    (hlen : letters.length = table.length) (hletters : letters.Nodup)
    (hzero : (0 : UInt8) ∉ letters) (tail : List UInt8) {triple : List UInt8}
    (htriple : triple ∈ table) :
    ∃ letter ∈ letters, searchTriple triple (letters ++ tail) table = .ok (some letter) ∧
      searchKey letter (letters ++ tail) table = .ok triple := by
  induction letters generalizing table with
  | nil =>
      cases table with
      | nil => simp at htriple
      | cons entry table => simp at hlen
  | cons head letters ih =>
      cases table with
      | nil => simp at hlen
      | cons entry table =>
          rw [List.mem_cons, not_or] at hzero
          have hhead : head ≠ 0 := Ne.symm hzero.1
          by_cases hentry : entry = triple
          · refine ⟨head, by simp, ?_, ?_⟩
            · simp [searchTriple, hhead, hentry]
            · simp [searchKey, hentry]
          · have hrest : triple ∈ table := by
              rcases List.mem_cons.mp htriple with h | h
              · exact absurd h.symm hentry
              · exact h
            rcases ih (by simpa using hlen) hletters.of_cons hzero.2 hrest with
              ⟨letter, hmem, hsearch, hkey⟩
            have hne : head ≠ letter := by
              rintro rfl
              exact (List.nodup_cons.mp hletters).1 hmem
            refine ⟨letter, by simp [hmem], ?_, ?_⟩
            · simpa [searchTriple, hhead, hentry] using hsearch
            · simpa [searchKey, hhead, hne] using hkey

/-- In the keyed alphabet every triple has a letter, and the letter stands for
the triple again. -/
theorem searchTriple_searchKey {key : List UInt8} (hkey : MorseKey key)
    {triple : List UInt8} (htriple : triple ∈ fractionatedTable) :
    ∃ letter ∈ fmAlphabet,
      searchTriple triple (generatemorsetable key) fractionatedTable = .ok (some letter) ∧
        searchKey letter (generatemorsetable key) fractionatedTable = .ok triple := by
  rcases generatemorsetable_eq hkey with ⟨last, hlast⟩
  have hsub := keyedPrefix_subset hkey 26
  have hzero : (0 : UInt8) ∉ keyedPrefix fmAlphabet key 26 := fun h =>
    absurd (hsub h) (by decide)
  rcases exists_letter (by rw [length_fmPrefix hkey]; rfl)
    (keyedPrefix_nodup fmAlphabet_nodup hkey 26) hzero [last] htriple with
    ⟨letter, hmem, hsearch, hback⟩
  rw [hlast]
  exact ⟨letter, hsub hmem, hsearch, hback⟩

end SystemFundamentals.Cipher
