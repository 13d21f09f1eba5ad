import SystemFundamentals.Cipher.Arguments
import SystemFundamentals.Cipher.TableWrites
import SystemFundamentals.Cipher.MorseLines

/-!
# Inside the tables

Both ciphers compute the places they read and write from the key and the text.  The branches of
{lit}`main` are given once more, with every access to {lit}`polybius_table`, {lit}`fm_key`,
{lit}`morse_table` and {lit}`fractionated_table` checked, and for every key string.

Main results:

- Theorem {lit}`getindex_behind`: {lit}`getindex` reads the byte behind its buffer when it finds
  nothing; what it returns does not depend on that byte.
- Theorem {lit}`decryptLoop_isOk_iff`: which texts the decrypting Polybius loop takes.
- Theorem {lit}`morseEncryptLoop_isOk_iff`: which texts the encrypting Morse loop takes.
- Theorem {lit}`inBounds_iff`: which keys and texts keep a branch inside the tables.
-/

namespace SystemFundamentals.Cipher

/-! ## The program -/

/-- The loop of {lit}`getindex`, which reads a place before it compares its index with
{lit}`length`. -/
def getindexLoop (value : UInt8) (length : Nat) : List UInt8 → Nat → Except Overrun Nat
  | [], _ => .error .overrun
  | place :: buffer, i =>
      if place ≠ value ∧ i < length then getindexLoop value length buffer (i + 1) else .ok i

/-- {lit}`getindex`; {lean}`none` is its return value -1. -/
def getindex (buffer : List UInt8) (value : UInt8) (length : Nat) :
    Except Overrun (Option Nat) :=
  (getindexLoop value length buffer 0).map fun i => if i = length then none else some i

/-- The loops that look for the end of a string. -/
def checkedCString (buffer : List UInt8) : Except Overrun (List UInt8) :=
  if 0 ∈ buffer then .ok (cString buffer) else .error .overrun

/-- The shift after a separator, whose first loop looks for the end of the string behind it. -/
def checkedShiftPast (buffer : List UInt8) (index : Nat) : Except Overrun (List UInt8) :=
  (checkedCString (buffer.drop (index + 1))).map fun _ => shiftPast buffer index

/-- The loop over the separators in the decrypting buffer, with {lit}`getindex`. -/
def checkedSeparatorLoop :
    Nat → List UInt8 → Bool → Except Overrun (List UInt8 × Option (List UInt8 × Bool))
  | 0, buffer, prepPrintSpace => .ok ([], some (buffer, prepPrintSpace))
  | turns + 1, buffer, prepPrintSpace =>
      match getindex buffer sep 257 with
      | .error stop => .error stop
      | .ok none => .ok ([], some (buffer, prepPrintSpace))
      | .ok (some 0) =>
          match checkedShiftPast buffer 0 with
          | .error stop => .error stop
          | .ok buffer => checkedSeparatorLoop turns buffer true
      | .ok (some index) =>
          let pending := if prepPrintSpace then [space] else []
          match lookupMorse (cString (buffer.take index)) with
          | none => .ok (pending, none)
          | some c =>
              match checkedShiftPast buffer index with
              | .error stop => .error stop
              | .ok buffer =>
                  (checkedSeparatorLoop turns buffer false).map fun rest =>
                    (pending ++ c :: rest.1, rest.2)

/-- The newline branch of the decrypting loop, which looks for the end of the buffer. -/
def checkedDecryptNewline (buffer : List UInt8) :
    Except Overrun (List UInt8 × Option (List UInt8)) :=
  (checkedCString buffer).map fun _ => decryptNewline buffer

/-- The decrypting Morse loop. -/
def checkedMorseDecryptLoop (fmKey : List UInt8) :
    List UInt8 → Bool → List UInt8 → Except Overrun Run
  | _, _, [] => .ok ⟨[], true⟩
  | buffer, prepPrintSpace, checkline :: input =>
      if checkline = eof then .ok ⟨[], true⟩
      else if checkline = newline then
        match checkedDecryptNewline buffer with
        | .error stop => .error stop
        | .ok (printed, none) => .ok ⟨printed, false⟩
        | .ok (printed, some buffer) =>
            match checkedSeparatorLoop 257 buffer false with
            | .error stop => .error stop
            | .ok (printed', none) => .ok ⟨printed ++ printed', false⟩
            | .ok (printed', some (buffer, prepPrintSpace)) =>
                (checkedMorseDecryptLoop fmKey buffer prepPrintSpace input).map
                  (Run.after (printed ++ printed'))
      else
        let pending := if prepPrintSpace then [space] else []
        match decryptmorse fmKey buffer checkline with
        | .error stop => .error stop
        | .ok buffer =>
            match checkedSeparatorLoop 257 buffer false with
            | .error stop => .error stop
            | .ok (printed, none) => .ok ⟨pending ++ printed, false⟩
            | .ok (printed, some (buffer, prepPrintSpace)) =>
                (checkedMorseDecryptLoop fmKey buffer prepPrintSpace input).map
                  (Run.after (pending ++ printed))

/-- The decrypting Morse branch of {lit}`main`, with every access checked. -/
def checkedMorseDecrypt (key input : List UInt8) : Except Overrun Run :=
  match checkedGeneratemorsetable key with
  | .error stop => .error stop
  | .ok fmKey => checkedMorseDecryptLoop fmKey (List.replicate 257 0) false input

/-- The encrypting Morse branch of {lit}`main`, with every access checked. -/
def checkedMorseEncrypt (key input : List UInt8) : Except Overrun Run :=
  match checkedGeneratemorsetable key with
  | .error stop => .error stop
  | .ok fmKey =>
      match encryptmorse (List.replicate 8 0) (input.headD eof) with
      | .error stop => .error stop
      | .ok none => .ok ⟨[], false⟩
      | .ok (some buffer) => morseEncryptLoop fmKey buffer false input.tail

/-- The encrypting Polybius branch of {lit}`main`, with every access checked. -/
def checkedPolybiusEncrypt (mode : PolybiusMode) (key input : List UInt8) :
    Except Overrun (List UInt8) :=
  match checkedGeneratepolybiustable mode key with
  | .error stop => .error stop
  | .ok table =>
      match encryptpolybius mode table (input.headD eof) with
      | .error stop => .error stop
      | .ok (false, _) => .ok []
      | .ok (true, printed) => (encryptLoop mode table input.tail).map (printed ++ ·)

/-- The decrypting Polybius branch of {lit}`main`, with every access checked. -/
def checkedPolybiusDecrypt (mode : PolybiusMode) (key input : List UInt8) :
    Except Overrun (List UInt8) :=
  match checkedGeneratepolybiustable mode key with
  | .error stop => .error stop
  | .ok table => decryptLoop mode table (-1) (-1) input

/-! ## The search of the decrypting buffer -/

section Search

variable {value : UInt8} {buffer : List UInt8}

/-- The loop stops at the value, at the place behind the buffer, or behind the memory. -/
theorem getindexLoop_eq (value : UInt8) (buffer behind : List UInt8) (i : Nat) :
    getindexLoop value (i + buffer.length) (buffer ++ behind) i =
      if value ∈ buffer then .ok (i + buffer.idxOf value)
      else if behind = [] then .error .overrun else .ok (i + buffer.length) := by
  induction buffer generalizing i with
  | nil =>
      cases behind with
      | nil => rfl
      | cons place behind => simp [getindexLoop]
  | cons place buffer ih =>
      rw [List.cons_append, getindexLoop]
      by_cases hplace : place = value
      · simp [hplace]
      · have hnext := ih (i + 1)
        have hlength : i + (place :: buffer).length = i + 1 + buffer.length := by
          rw [List.length_cons]
          omega
        have hmem : value ∈ place :: buffer ↔ value ∈ buffer := by
          rw [List.mem_cons, or_iff_right (Ne.symm hplace)]
        rw [hlength, if_pos ⟨hplace, by omega⟩, hnext, List.idxOf_cons_ne _ hplace]
        simp only [hmem]
        congr 2
        omega

theorem idxOf?_of_mem (hvalue : value ∈ buffer) :
    buffer.idxOf? value = some (buffer.idxOf value) := by
  induction buffer with
  | nil => cases hvalue
  | cons place buffer ih =>
      rw [List.idxOf?_cons]
      by_cases hplace : place = value
      · simp [hplace]
      · have hrest : value ∈ buffer := (List.mem_cons.mp hvalue).resolve_left (Ne.symm hplace)
        rw [if_neg (by simpa using hplace), ih hrest, List.idxOf_cons_ne _ hplace]
        rfl

/-- With a byte behind the buffer {lit}`getindex` finds the first place of the value, and it does
not matter what that byte is. -/
theorem getindex_behind (value : UInt8) (buffer : List UInt8) (byte : UInt8) :
    getindex (buffer ++ [byte]) value buffer.length = .ok (buffer.idxOf? value) := by
  have hloop := getindexLoop_eq value buffer [byte] 0
  rw [if_neg (List.cons_ne_nil byte []), Nat.zero_add, Nat.zero_add] at hloop
  rw [getindex, hloop]
  split_ifs with hvalue
  · have hindex := List.idxOf_lt_length_iff.mpr hvalue
    rw [Except.map, if_neg (Nat.ne_of_lt hindex), idxOf?_of_mem hvalue]
  · rw [Except.map, if_pos rfl, List.idxOf?_eq_none_iff.mpr hvalue]

/-- Every buffer that the first character can leave is searched behind its end. -/
theorem checkedSeparatorLoop_entry : ∀ entry ∈ [] :: fractionatedTable,
    checkedSeparatorLoop 257 (padded 257 entry) false = .error .overrun := by
  decide +kernel

theorem mem_of_searchKey {input : UInt8} {fmKey : List UInt8} {table : List (List UInt8)}
    {entry : List UInt8} (h : searchKey input fmKey table = .ok entry) : entry ∈ table := by
  induction fmKey generalizing table with
  | nil => cases table <;> cases h
  | cons letter fmKey ih =>
      cases table with
      | nil => cases h
      | cons first table =>
          rw [searchKey] at h
          split_ifs at h with hfound
          · cases h
            exact List.mem_cons_self
          · exact List.mem_cons_of_mem first (ih h)

/-- The decrypting loop leaves the buffer at the first character, whatever it is. -/
theorem checkedMorseDecryptLoop_cons (fmKey : List UInt8) {c : UInt8} (hc : c ≠ eof)
    (input : List UInt8) :
    checkedMorseDecryptLoop fmKey (List.replicate 257 0) false (c :: input) =
      .error .overrun := by
  rw [checkedMorseDecryptLoop, if_neg hc]
  by_cases hnewline : c = newline
  · have hempty : checkedDecryptNewline (List.replicate 257 0) =
        .ok ([newline], some (padded 257 [])) := by decide +kernel
    simp only [if_pos hnewline, hempty, checkedSeparatorLoop_entry [] List.mem_cons_self]
  · rw [if_neg hnewline, decryptmorse]
    cases hentry : searchKey c fmKey fractionatedTable with
    | error stop =>
        cases stop
        rfl
    | ok entry =>
        have hmem := mem_of_searchKey hentry
        have hnonzero : ∀ e ∈ fractionatedTable, e.length ≤ 257 := by decide
        have hfill := fillBuffer_padded List.not_mem_nil
          (show ([] : List UInt8).length + entry.length ≤ 257 by simpa using hnonzero entry hmem)
        rw [padded_nil, List.nil_append] at hfill
        simp only [Except.map, hfill,
          checkedSeparatorLoop_entry entry (List.mem_cons_of_mem [] hmem)]

end Search

/-! ## The loops of the Polybius cipher -/

section Polybius

variable (mode : PolybiusMode) {table : List UInt8}

/-- A character stays inside the table if it is copied or stands in it. -/
theorem encryptpolybius_inside (hhead : table.headD 0 ≠ 0) {c : UInt8}
    (hc : isBlank c = true ∨ c ∈ table) :
    ∃ printed, encryptpolybius mode table c = .ok (true, printed) := by
  rw [encryptpolybius]
  by_cases hblank : isBlank c = true
  · rw [if_pos hblank]
    exact ⟨[c], rfl⟩
  · rw [if_neg hblank, if_neg (fun h => hhead h.2), if_pos (hc.resolve_left hblank)]
    exact ⟨_, rfl⟩

/-- Every other character is searched for behind the table: the first place is never free. -/
theorem encryptpolybius_outside (hhead : table.headD 0 ≠ 0) {c : UInt8}
    (hc : ¬ (isBlank c = true ∨ c ∈ table)) :
    encryptpolybius mode table c = .error .overrun := by
  rw [not_or] at hc
  rw [encryptpolybius, if_neg hc.1, if_neg (fun h => hhead h.2), if_neg hc.2]

/-- The encrypting loop takes the texts whose characters are copied or stand in the table. -/
theorem encryptLoop_isOk_iff (hhead : table.headD 0 ≠ 0) (input : List UInt8) :
    (∃ printed, encryptLoop mode table input = .ok printed) ↔
      ∀ c ∈ input.takeWhile (· ≠ eof), isBlank c = true ∨ c ∈ table := by
  induction input with
  | nil => exact iff_of_true ⟨[], rfl⟩ (List.forall_mem_nil _)
  | cons c input ih =>
      rw [encryptLoop, List.takeWhile_cons]
      by_cases heof : c = eof
      · simp [heof]
      · rw [if_neg heof, if_pos (by simpa using heof), List.forall_mem_cons, ← ih]
        by_cases hc : isBlank c = true ∨ c ∈ table
        · obtain ⟨printed, hprinted⟩ := encryptpolybius_inside mode hhead hc
          rw [hprinted, and_iff_right hc]
          exact map_isOk_iff _ _
        · rw [encryptpolybius_outside mode hhead hc]
          simp [hc]

/-- The characters that an encrypting branch takes: the first one without a test for the end of the
input, which is a byte 255 then. -/
def taken (input : List UInt8) : List UInt8 :=
  input.headD eof :: input.tail.takeWhile (· ≠ eof)

/-- The encrypting branch, whose first character is encrypted in front of the loop. -/
theorem polybiusEncrypt_isOk_iff {key : List UInt8} (hkey : (0 : UInt8) ∉ key)
    (input : List UInt8) :
    (∃ printed, polybiusEncrypt mode key input = .ok printed) ↔
      ∀ c ∈ taken input, isBlank c = true ∨ c ∈ generatepolybiustable mode key := by
  have hhead := headD_generatepolybiustable mode hkey
  rw [polybiusEncrypt, taken, List.forall_mem_cons, ← encryptLoop_isOk_iff mode hhead]
  by_cases hc : isBlank (input.headD eof) = true ∨
      input.headD eof ∈ generatepolybiustable mode key
  · obtain ⟨printed, hprinted⟩ := encryptpolybius_inside mode hhead hc
    simp only [hprinted]
    rw [and_iff_right hc, map_isOk_iff]
  · simp only [encryptpolybius_outside mode hhead hc]
    exact iff_of_false (not_isOk_error _) (fun h => hc h.1)

/-- The digits that the decrypting loop reads: it copies blanks, and takes a digit below
{lit}`0` for none. -/
def digits (input : List UInt8) : List Int :=
  (((input.takeWhile (· ≠ eof)).filter fun c => !isBlank c).map parseDigit).filter (0 ≤ ·)

/-- The rows and columns; the last row may have no column. -/
def digitPairs : List Int → List (Int × Int)
  | row :: col :: rest => (row, col) :: digitPairs rest
  | _ => []

theorem digits_cons {c : UInt8} (hc : c ≠ eof) (input : List UInt8) :
    digits (c :: input) =
      if isBlank c = false ∧ 0 ≤ parseDigit c then parseDigit c :: digits input
      else digits input := by
  rw [digits, digits, List.takeWhile_cons, if_pos (by simpa using hc), List.filter_cons]
  cases isBlank c with
  | true => simp
  | false =>
      by_cases hdigit : 0 ≤ parseDigit c <;> simp [hdigit]

/-- The row that the loop holds, if it has read one. -/
def heldRow (row : Int) : List Int :=
  if row < 0 then [] else [row]

theorem digitPairs_heldRow (row : Int) : digitPairs (heldRow row ++ []) = [] := by
  rw [heldRow]
  split_ifs <;> rfl

/-- A place is read from the table or behind it. -/
theorem decryptpolybius_eq {row col : Int} (hrow : 0 ≤ row) (hcol : 0 ≤ col) :
    decryptpolybius mode table row col =
      if row * mode.cols + col < table.length then
        .ok (table.getD (row * mode.cols + col).toNat 0)
      else .error .overrun := by
  have hproduct : 0 ≤ row * (mode.cols : Int) := Int.mul_nonneg hrow (Int.natCast_nonneg _)
  rw [decryptpolybius]
  split_ifs with hplace
  · rw [List.getElem?_eq_getElem (by omega), List.getD_eq_getElem?_getD,
      List.getElem?_eq_getElem (by omega)]
    rfl
  · rw [List.getElem?_eq_none (by omega)]

/-- The decrypting loop takes the texts whose rows and columns are places of the table. -/
theorem decryptLoop_isOk_iff {row col : Int} (hcol : col < 0) (input : List UInt8) :
    (∃ printed, decryptLoop mode table row col input = .ok printed) ↔
      ∀ place ∈ digitPairs (heldRow row ++ digits input),
        place.1 * mode.cols + place.2 < table.length := by
  induction input generalizing row col with
  | nil =>
      refine iff_of_true ⟨[], rfl⟩ ?_
      rw [show digits [] = [] from rfl, digitPairs_heldRow]
      exact List.forall_mem_nil _
  | cons c input ih =>
      rw [decryptLoop]
      by_cases heof : c = eof
      · rw [if_pos heof, heof, show digits (eof :: input) = [] from rfl, digitPairs_heldRow]
        exact iff_of_true ⟨[], rfl⟩ (List.forall_mem_nil _)
      · rw [if_neg heof, digits_cons heof]
        cases hblank : isBlank c with
        | true =>
            simp only [Bool.true_eq_false, false_and, if_false, if_true, Int.not_le.mpr hcol,
              and_false, map_isOk_iff, ih hcol]
        | false =>
            by_cases hrow : row < 0
            · simp only [hrow, hcol, or_self, and_self, not_true, and_false, if_true,
                if_false, Int.not_le.mpr hcol, true_and, map_isOk_iff, ih hcol]
              rw [heldRow, heldRow, if_pos hrow]
              by_cases hdigit : parseDigit c < 0
              · rw [if_pos hdigit, if_neg (Int.not_le.mpr hdigit)]
              · rw [if_neg hdigit, if_pos (Int.not_lt.mp hdigit)]
                rfl
            · simp only [hrow, hcol, or_true, and_self, not_false_eq_true, and_false,
                if_true, if_false, Int.not_lt.mp hrow, true_and]
              by_cases hdigit : 0 ≤ parseDigit c
              · simp only [hdigit, if_true, decryptpolybius_eq mode (Int.not_lt.mp hrow) hdigit]
                have hnext : (∃ rest, decryptLoop mode table (-1) (-1) input = .ok rest) ↔
                    ∀ place ∈ digitPairs (digits input),
                      place.1 * mode.cols + place.2 < table.length := ih (by decide)
                rw [heldRow, if_neg hrow, List.singleton_append, digitPairs, List.forall_mem_cons,
                  ← hnext]
                by_cases hplace : row * mode.cols + parseDigit c < table.length
                · rw [if_pos hplace, and_iff_right hplace]
                  exact map_isOk_iff _ _
                · rw [if_neg hplace]
                  simp [hplace]
              · simp only [hdigit, if_false, map_isOk_iff, ih (Int.not_le.mp hdigit)]

end Polybius

/-! ## The encrypting Morse loop -/

section Morse

variable {key fmKey : List UInt8}

instance (c : UInt8) : Decidable (Accepted c) :=
  inferInstanceAs (Decidable (_ ∨ _))

/-- A triple is found among as many letters as the table has. -/
theorem searchTriple_of_mem {letters : List UInt8} {table : List (List UInt8)}
    (hlen : letters.length = table.length) (hzero : (0 : UInt8) ∉ letters) (tail : List UInt8)
    {triple : List UInt8} (htriple : triple ∈ table) :
    ∃ letter, searchTriple triple (letters ++ tail) table = .ok letter := by
  induction letters generalizing table with
  | nil =>
      rw [List.eq_nil_of_length_eq_zero hlen.symm] at htriple
      cases htriple
  | cons letter letters ih =>
      cases table with
      | nil => cases hlen
      | cons entry table =>
          rw [List.mem_cons, not_or] at hzero
          rw [List.cons_append, searchTriple, if_neg (Ne.symm hzero.1)]
          split_ifs with hentry
          · exact ⟨some letter, rfl⟩
          · exact ih (Nat.succ_injective hlen) hzero.2
              ((List.mem_cons.mp htriple).resolve_left (Ne.symm hentry))

/-- The letters of a stream are found unless three separators stand where it is cut and the last
byte of {lit}`fm_key` is no terminator. -/
theorem emit_isOk_iff_within (hkey : (0 : UInt8) ∉ key) (hwithin : FmKeyWithin key 27)
    {stream : List UInt8} (hstream : ∀ s ∈ stream, IsSymbol s) :
    (∃ letters, emit (generatemorsetable key) stream = .ok letters) ↔
      (¬ FmKeyWithin key 26 → ¬ SepAligned stream) := by
  obtain ⟨letters, last, hshape, hlength, hzero, hlast⟩ := generatemorsetable_shape hkey hwithin
  have hlen : letters.length = fractionatedTable.length := hlength
  rw [hshape]
  refine emit_isOk_iff_of_search (fun triple => searchTriple_of_mem hlen hzero [last]) ?_ hstream
  have hnot : [sep, sep, sep] ∉ fractionatedTable := by decide
  rw [searchTriple_of_notMem hlen hzero [last] hnot, not_not, ← hlast, searchTriple]
  by_cases hend : last = 0 <;> simp [hend]

/-- A character that the loop does not take: its entry of {lit}`morse_table` is empty, or there is
none. -/
theorem encryptmorse_of_not_accepted {c : UInt8} (hc : ¬ Accepted c) (buffer : List UInt8) :
    encryptmorse buffer c = if 33 ≤ c ∧ c ≤ 122 then .ok none else .error .overrun := by
  rw [Accepted, not_or] at hc
  have hblank : ¬ (c = space ∨ c = tab ∨ c = newline) := isBlankSymbol_iff.not.mp hc.1
  rw [encryptmorse, if_neg hblank, morseEntry_eq]
  by_cases hrange : 33 ≤ c ∧ c ≤ 122
  · have hempty : morseCode c = [] := by
      by_contra hcode
      exact hc.2 ⟨hrange.1, hcode⟩
    rw [if_pos hrange, if_pos hrange, hempty]
  · rw [if_neg hrange, if_neg hrange]

/-- A turn for such a character: the separator in front of it, and the end of the run. -/
theorem encryptTurn_of_not_accepted (fmKey : List UInt8) {lastCharSpace : Bool}
    {occupied : List UInt8} (hroom : Room lastCharSpace occupied) {c : UInt8}
    (hc : ¬ Accepted c) :
    (∃ printed, encryptTurn fmKey (padded 8 occupied) lastCharSpace c = .ok (printed, none)) ∧
        (∃ letters, emit fmKey (occupied ++ if lastCharSpace then [] else [sep]) = .ok letters) ∧
          33 ≤ c ∧ c ≤ 122 ∨
      encryptTurn fmKey (padded 8 occupied) lastCharSpace c = .error .overrun ∧
        ¬ ((∃ letters, emit fmKey (occupied ++ if lastCharSpace then [] else [sep]) =
          .ok letters) ∧ 33 ≤ c ∧ c ≤ 122) := by
  have hspace : isSpace c = false := by
    cases hspace : isSpace c with
    | false => rfl
    | true =>
        refine absurd (Or.inl ?_) hc
        rw [isBlankSymbol, hspace]
        rfl
  rw [encryptTurn, insertSeparator_padded fmKey hroom]
  cases emit fmKey (occupied ++ if lastCharSpace then [] else [sep]) with
  | error stop =>
      cases stop
      exact Or.inr ⟨rfl, fun h => not_isOk_error _ h.1⟩
  | ok letters =>
      simp only [Except.map, insertChar, hspace, Bool.false_eq_true, and_false, if_false,
        encryptmorse_of_not_accepted hc]
      by_cases hrange : 33 ≤ c ∧ c ≤ 122
      · left
        rw [if_pos hrange]
        exact ⟨⟨letters, rfl⟩, ⟨letters, rfl⟩, hrange⟩
      · right
        rw [if_neg hrange]
        exact ⟨rfl, fun h => hrange h.2⟩

/-- The symbols that the encrypting loop appends, cut at the newlines; behind them the separator in
front of the first character that it does not take. -/
def loopStreams : List UInt8 → Bool → List UInt8 → List (List UInt8)
  | stream, _, [] => [stream]
  | stream, lastCharSpace, c :: input =>
      if Accepted c then
        if c = newline then
          (stream ++ turnSymbols lastCharSpace c) :: loopStreams [] true input
        else loopStreams (stream ++ turnSymbols lastCharSpace c) (isSpace c) input
      else [stream ++ if lastCharSpace then [] else [sep]]

theorem emits_append (fmKey s t : List UInt8) :
    (∃ letters, emit fmKey (s ++ t) = .ok letters) ↔
      (∃ letters, emit fmKey s = .ok letters) ∧
        ∃ letters, emit fmKey (pending s ++ t) = .ok letters := by
  rw [emit_append]
  cases emit fmKey s with
  | error stop => simp [bind, Except.bind]
  | ok before =>
      cases emit fmKey (pending s ++ t) <;> simp [bind, Except.bind, pure, Except.pure]

/-- What stands in front of the symbols in the buffer has been printed. -/
theorem loopStreams_pending (fmKey stream : List UInt8) (lastCharSpace : Bool)
    (input : List UInt8) :
    (∀ s ∈ loopStreams stream lastCharSpace input, ∃ letters, emit fmKey s = .ok letters) ↔
      (∃ letters, emit fmKey stream = .ok letters) ∧
        ∀ s ∈ loopStreams (pending stream) lastCharSpace input,
          ∃ letters, emit fmKey s = .ok letters := by
  induction input generalizing stream lastCharSpace with
  | nil =>
      have hpending := emit_of_length_lt fmKey (length_pending_lt stream)
      simp only [loopStreams, List.forall_mem_singleton, hpending]
      simp
  | cons c input ih =>
      rw [loopStreams, loopStreams]
      by_cases hc : Accepted c
      · rw [if_pos hc, if_pos hc]
        by_cases hnewline : c = newline
        · rw [if_pos hnewline, if_pos hnewline, List.forall_mem_cons, List.forall_mem_cons,
            emits_append, and_assoc]
        · rw [if_neg hnewline, if_neg hnewline, ih, emits_append, pending_append, and_assoc, ← ih]
      · rw [if_neg hc, if_neg hc, List.forall_mem_singleton, List.forall_mem_singleton,
          emits_append]

/-- The first character that the loop does not take has an entry in {lit}`morse_table`. -/
def StopsInside (input : List UInt8) : Prop :=
  ∀ c ∈ input.find? (fun c => ¬ Accepted c), 33 ≤ c ∧ c ≤ 122

theorem stopsInside_nil : StopsInside [] := by
  intro c hc
  cases hc

theorem stopsInside_cons_of_accepted {c : UInt8} (hc : Accepted c) (input : List UInt8) :
    StopsInside (c :: input) ↔ StopsInside input := by
  rw [StopsInside, List.find?_cons_of_neg (by simpa using hc)]
  rfl

theorem stopsInside_cons_of_not_accepted {c : UInt8} (hc : ¬ Accepted c) (input : List UInt8) :
    StopsInside (c :: input) ↔ 33 ≤ c ∧ c ≤ 122 := by
  rw [StopsInside, List.find?_cons_of_pos (by simpa using hc)]
  simp

/-- The encrypting loop takes the texts whose first character that cannot be encrypted has an
entry, and in front of it only letters that are found. -/
theorem morseEncryptLoop_isOk_iff (fmKey : List UInt8) {lastCharSpace : Bool}
    {occupied : List UInt8} (hroom : Room lastCharSpace occupied)
    (hemit : ∃ letters, emit fmKey occupied = .ok letters) (input : List UInt8) :
    (∃ run, morseEncryptLoop fmKey (padded 8 occupied) lastCharSpace input = .ok run) ↔
      StopsInside (input.takeWhile (· ≠ eof)) ∧
        ∀ s ∈ loopStreams occupied lastCharSpace (input.takeWhile (· ≠ eof)),
          ∃ letters, emit fmKey s = .ok letters := by
  induction input generalizing lastCharSpace occupied with
  | nil =>
      rw [List.takeWhile_nil, loopStreams, List.forall_mem_singleton]
      exact iff_of_true ⟨_, rfl⟩ ⟨stopsInside_nil, hemit⟩
  | cons c input ih =>
      rw [morseEncryptLoop, List.takeWhile_cons]
      by_cases heof : c = eof
      · rw [if_pos heof, if_neg (by simpa using heof), loopStreams, List.forall_mem_singleton]
        exact iff_of_true ⟨_, rfl⟩ ⟨stopsInside_nil, hemit⟩
      · rw [if_neg heof, if_pos (by simpa using heof), loopStreams]
        by_cases hc : Accepted c
        · have hnext := room_pending hroom c (isSpace c)
          have hshort := length_pending_lt (occupied ++ turnSymbols lastCharSpace c)
          rw [stopsInside_cons_of_accepted hc, if_pos hc, encryptTurn_eq fmKey hroom hc]
          cases hturn : emit fmKey (occupied ++ turnSymbols lastCharSpace c) with
          | error stop =>
              have hnone : ¬ ∃ letters,
                  emit fmKey (occupied ++ turnSymbols lastCharSpace c) = .ok letters := by
                rintro ⟨letters, h⟩
                rw [hturn] at h
                cases h
              refine iff_of_false (not_isOk_error _) (fun h => hnone ?_)
              by_cases hnewline : c = newline
              · rw [if_pos hnewline, List.forall_mem_cons] at h
                exact h.2.1
              · rw [if_neg hnewline, loopStreams_pending] at h
                exact h.2.1
          | ok printed =>
              have hfound : ∃ letters,
                  emit fmKey (occupied ++ turnSymbols lastCharSpace c) = .ok letters :=
                ⟨printed, hturn⟩
              rw [Except.map]
              simp only
              by_cases hnewline : c = newline
              · have hclear := clearBuffer_padded hnext.1 (show _ ≤ 8 by omega)
                have hrest := ih room_nil ⟨[], rfl⟩
                rw [padded_nil] at hrest
                rw [if_pos hnewline, if_pos hnewline, hclear, List.forall_mem_cons,
                  and_iff_right hfound, ← hrest, map_isOk_iff]
              · have hrest := ih hnext ⟨[], emit_of_length_lt fmKey hshort⟩
                rw [if_neg hnewline, if_neg hnewline, loopStreams_pending, and_iff_right hfound,
                  ← hrest, map_isOk_iff]
        · rw [stopsInside_cons_of_not_accepted hc, if_neg hc, List.forall_mem_singleton, and_comm]
          rcases encryptTurn_of_not_accepted fmKey hroom hc with
            ⟨⟨printed, hturn⟩, hin⟩ | ⟨hturn, hout⟩
          · rw [hturn]
            exact iff_of_true ⟨_, rfl⟩ hin
          · rw [hturn]
            exact iff_of_false (not_isOk_error _) hout

/-- The symbols that the program appends for the first character and in the loop. -/
def messageStreams : List UInt8 → List (List UInt8)
  | [] => []
  | c :: input => if Accepted c then loopStreams (charSymbols c) false input else []

theorem isSymbol_loopStreams {stream : List UInt8} (hstream : ∀ s ∈ stream, IsSymbol s)
    (lastCharSpace : Bool) (input : List UInt8) :
    ∀ line ∈ loopStreams stream lastCharSpace input, ∀ s ∈ line, IsSymbol s := by
  induction input generalizing stream lastCharSpace with
  | nil =>
      rw [loopStreams, List.forall_mem_singleton]
      exact hstream
  | cons c input ih =>
      have hturn := List.forall_mem_append.mpr ⟨hstream, isSymbol_turnSymbols lastCharSpace c⟩
      rw [loopStreams]
      by_cases hc : Accepted c
      · rw [if_pos hc]
        by_cases hnewline : c = newline
        · rw [if_pos hnewline, List.forall_mem_cons]
          exact ⟨hturn, ih (List.forall_mem_nil _) true⟩
        · rw [if_neg hnewline]
          exact ih hturn (isSpace c)
      · rw [if_neg hc, List.forall_mem_singleton]
        refine List.forall_mem_append.mpr ⟨hstream, ?_⟩
        cases lastCharSpace with
        | true => exact List.forall_mem_nil _
        | false => exact List.forall_mem_singleton.mpr (Or.inr (Or.inr rfl))

theorem sep_mem_of_sepAligned {stream : List UInt8} (h : SepAligned stream) : sep ∈ stream := by
  induction stream using pending.induct with
  | case1 a b c stream ih =>
      rw [SepAligned] at h
      rcases h with ⟨rfl, -, -⟩ | hrest
      · exact List.mem_cons_self
      · simp [ih hrest]
  | case2 stream hshort =>
      rw [SepAligned.eq_2 stream hshort] at h
      exact h.elim

theorem not_sepAligned_charSymbols (c : UInt8) : ¬ SepAligned (charSymbols c) := by
  rw [charSymbols]
  split_ifs
  · exact fun h => h
  · exact fun h => morseCode_ne_sep (sep_mem_of_sepAligned h) rfl

end Morse

/-! ## The runs of the program -/

/-- The four branches of {lit}`main`. -/
inductive Task
  | polybiusEncrypt (mode : PolybiusMode)
  | polybiusDecrypt (mode : PolybiusMode)
  | morseEncrypt
  | morseDecrypt

/-- Every access of the run is inside its table. -/
def InBounds : Task → CString → List UInt8 → Prop
  | .polybiusEncrypt mode, key, input =>
      ∃ printed, checkedPolybiusEncrypt mode key.bytes input = .ok printed
  | .polybiusDecrypt mode, key, input =>
      ∃ printed, checkedPolybiusDecrypt mode key.bytes input = .ok printed
  | .morseEncrypt, key, input => ∃ run, checkedMorseEncrypt key.bytes input = .ok run
  | .morseDecrypt, key, input => ∃ run, checkedMorseDecrypt key.bytes input = .ok run

/-- The keys and texts that keep the four branches inside the tables. -/
def Inside : Task → CString → List UInt8 → Prop
  | .polybiusEncrypt mode, key, input =>
      key.bytes.length ≤ 257 ∧
        ∀ c ∈ taken input, isBlank c = true ∨ c ∈ generatepolybiustable mode key.bytes
  | .polybiusDecrypt mode, key, input =>
      key.bytes.length ≤ 257 ∧
        ∀ place ∈ digitPairs (digits input), place.1 * mode.cols + place.2 < 257
  | .morseEncrypt, key, input =>
      FmKeyWithin key.bytes 27 ∧ StopsInside (taken input) ∧
        (¬ FmKeyWithin key.bytes 26 → ∀ s ∈ messageStreams (taken input), ¬ SepAligned s)
  | .morseDecrypt, key, input => FmKeyWithin key.bytes 27 ∧ input.headD eof = eof

/-- The checked branches are the branches, as far as the tables are generated inside. -/
theorem checkedPolybiusEncrypt_eq (mode : PolybiusMode) (key input : List UInt8) :
    checkedPolybiusEncrypt mode key input =
      if key.length ≤ 257 then polybiusEncrypt mode key input else .error .overrun := by
  rw [checkedPolybiusEncrypt, checkedGeneratepolybiustable_eq]
  split_ifs <;> rfl

@[inherit_doc checkedPolybiusEncrypt_eq]
theorem checkedPolybiusDecrypt_eq (mode : PolybiusMode) (key input : List UInt8) :
    checkedPolybiusDecrypt mode key input =
      if key.length ≤ 257 then polybiusDecrypt mode key input else .error .overrun := by
  rw [checkedPolybiusDecrypt, checkedGeneratepolybiustable_eq]
  split_ifs <;> rfl

@[inherit_doc checkedPolybiusEncrypt_eq]
theorem checkedMorseEncrypt_iff {key input : List UInt8} {run : Run} :
    checkedMorseEncrypt key input = .ok run ↔
      FmKeyWithin key 27 ∧ morseEncrypt key input = .ok run := by
  rw [checkedMorseEncrypt]
  cases hgenerate : checkedGeneratemorsetable key with
  | error stop =>
      refine iff_of_false (fun h => by cases h) (fun h => ?_)
      rw [(checkedGeneratemorsetable_iff key).mpr ⟨h.1, rfl⟩] at hgenerate
      cases hgenerate
  | ok fmKey =>
      obtain ⟨hwithin, rfl⟩ := (checkedGeneratemorsetable_iff key).mp hgenerate
      rw [and_iff_right hwithin]
      rfl

/-- The decrypting Morse branch takes no character. -/
theorem checkedMorseDecrypt_isOk_iff (key input : List UInt8) :
    (∃ run, checkedMorseDecrypt key input = .ok run) ↔
      FmKeyWithin key 27 ∧ input.headD eof = eof := by
  rw [checkedMorseDecrypt]
  cases hgenerate : checkedGeneratemorsetable key with
  | error stop =>
      refine iff_of_false (not_isOk_error _) (fun h => ?_)
      rw [(checkedGeneratemorsetable_iff key).mpr ⟨h.1, rfl⟩] at hgenerate
      cases hgenerate
  | ok fmKey =>
      rw [and_iff_right ((checkedGeneratemorsetable_iff key).mp hgenerate).1]
      cases input with
      | nil => exact iff_of_true ⟨_, rfl⟩ rfl
      | cons c input =>
          simp only [List.headD_cons]
          by_cases heof : c = eof
          · rw [checkedMorseDecryptLoop, if_pos heof]
            exact iff_of_true ⟨_, rfl⟩ heof
          · rw [checkedMorseDecryptLoop_cons fmKey heof]
            exact iff_of_false (not_isOk_error _) heof

/-- The encrypting Morse branch: its first character is encrypted in front of the loop. -/
theorem morseEncrypt_isOk_iff {key : List UInt8} (hkey : (0 : UInt8) ∉ key)
    (hwithin : FmKeyWithin key 27) (input : List UInt8) :
    (∃ run, morseEncrypt key input = .ok run) ↔
      StopsInside (taken input) ∧
        (¬ FmKeyWithin key 26 → ∀ s ∈ messageStreams (taken input), ¬ SepAligned s) := by
  have hemit (stream : List UInt8) (hstream : ∀ s ∈ stream, IsSymbol s) :=
    emit_isOk_iff_within hkey hwithin hstream
  rw [taken, messageStreams]
  by_cases hc : Accepted (input.headD eof)
  · obtain ⟨c, rest, rfl⟩ : ∃ c rest, input = c :: rest := by
      cases input with
      | nil => exact absurd rfl (accepted_ne_eof hc)
      | cons c rest => exact ⟨c, rest, rfl⟩
    rw [List.headD_cons] at hc ⊢
    have hfirst := (hemit (charSymbols c) (isSymbol_charSymbols c)).mpr
      fun _ => not_sepAligned_charSymbols c
    have hlines := isSymbol_loopStreams (isSymbol_charSymbols c) false
      (rest.takeWhile (· ≠ eof))
    rw [stopsInside_cons_of_accepted hc, if_pos hc, List.tail_cons, morseEncrypt_cons key hc,
      morseEncryptLoop_isOk_iff _ (room_charSymbols c) hfirst]
    refine and_congr_right fun _ => ⟨fun h hfull s hs => ?_, fun h s hs => ?_⟩
    · exact (hemit s (hlines s hs)).mp (h s hs) hfull
    · exact (hemit s (hlines s hs)).mpr fun hfull => h hfull s hs
  · rw [stopsInside_cons_of_not_accepted hc, if_neg hc,
      and_iff_left (fun _ => List.forall_mem_nil _)]
    simp only [morseEncrypt, encryptmorse_of_not_accepted hc]
    by_cases hrange : 33 ≤ input.headD eof ∧ input.headD eof ≤ 122
    · rw [if_pos hrange]
      exact iff_of_true ⟨_, rfl⟩ hrange
    · rw [if_neg hrange]
      exact iff_of_false (not_isOk_error _) hrange

/-- A run stays inside the tables if and only if its key and its text are inside. -/
theorem inBounds_iff (task : Task) (key : CString) (input : List UInt8) :
    InBounds task key input ↔ Inside task key input := by
  cases task with
  | polybiusEncrypt mode =>
      rw [InBounds, Inside, checkedPolybiusEncrypt_eq]
      by_cases hlength : key.bytes.length ≤ 257
      · rw [if_pos hlength, and_iff_right hlength, polybiusEncrypt_isOk_iff mode key.nonzero]
      · rw [if_neg hlength]
        exact iff_of_false (not_isOk_error _) (fun h => hlength h.1)
  | polybiusDecrypt mode =>
      rw [InBounds, Inside, checkedPolybiusDecrypt_eq]
      by_cases hlength : key.bytes.length ≤ 257
      · have htable := length_generatepolybiustable mode hlength
        rw [if_pos hlength, and_iff_right hlength, polybiusDecrypt,
          decryptLoop_isOk_iff mode (by decide), htable]
        rfl
      · rw [if_neg hlength]
        exact iff_of_false (not_isOk_error _) (fun h => hlength h.1)
  | morseEncrypt =>
      simp only [InBounds, Inside, checkedMorseEncrypt_iff, exists_and_left]
      exact and_congr_right fun hwithin => morseEncrypt_isOk_iff key.nonzero hwithin input
  | morseDecrypt => exact checkedMorseDecrypt_isOk_iff key.bytes input

/-- The table of a key over the alphabet holds the key, the letters that the loop reaches, and
zeros. -/
theorem mem_generatepolybiustable_iff (mode : PolybiusMode) {key : List UInt8}
    (hkey : PolybiusKey key) (c : UInt8) :
    c ∈ generatepolybiustable mode key ↔
      c = 0 ∨ c ∈ key ∨ c ∈ polybiusAlphabet.take (visited mode key) := by
  by_cases hzero : c = 0
  · refine iff_of_true ?_ (Or.inl hzero)
    have hletters : (keyedAlphabet mode key).length ≤ 94 := length_polybiusPrefix_le hkey _
    have hleftover : (leftover mode key).toList.length ≤ 1 := by
      cases leftover mode key <;> simp
    rw [generatepolybiustable_eq mode hkey, hzero]
    refine List.mem_append_right _ (List.mem_append_right _ ?_)
    exact List.mem_replicate.mpr ⟨by omega, rfl⟩
  · rw [mem_table_iff mode hkey hzero, keyedAlphabet, keyedPrefix, List.mem_append,
      List.mem_filter, or_iff_right hzero]
    by_cases hmem : c ∈ key
    · exact iff_of_true (Or.inl hmem) (Or.inl hmem)
    · rw [or_iff_right hmem, or_iff_right hmem]
      exact and_iff_left (by simpa using hmem)

/-- A key over the alphabet fits into {lit}`fm_key`, and leaves a terminator unless it has a
{lit}`Z`. -/
theorem fmKeyWithin_of_morseKey {key : List UInt8} (hkey : MorseKey key) :
    FmKeyWithin key 27 ∧ (FmKeyWithin key 26 ↔ 90 ∉ key) := by
  have hwithin : FmKeyWithin key 27 := by
    intro j _ hj
    have hsub : key.filter (· ∉ fmAlphabet.take j) ⊆ fmAlphabet.drop j := by
      intro c hc
      obtain ⟨hmem, hnot⟩ := List.mem_filter.mp hc
      have hletter : c ∈ fmAlphabet.take j ++ fmAlphabet.drop j := by
        rw [List.take_append_drop]
        exact hkey.subset hmem
      exact (List.mem_append.mp hletter).resolve_left (by simpa using hnot)
    have hle := ((hkey.nodup.filter _).subperm hsub).length_le
    rw [List.length_drop, length_fmAlphabet] at hle
    rw [position, List.countP_eq_length_filter]
    omega
  refine ⟨hwithin, ?_⟩
  have hnonzero : (0 : UInt8) ∉ key := fun h => absurd (hkey.subset h) (by decide)
  obtain ⟨letters, last, hshape, hlength, -, hlast⟩ := generatemorsetable_shape hnonzero hwithin
  have hkeyed : (key ++ fmAlphabet.filter (· ∉ key)).length = 26 :=
    length_keyed fmAlphabet_nodup hkey
  rw [generatemorsetable_last hkey] at hshape
  obtain ⟨-, hends⟩ := List.append_inj hshape (hkeyed.trans hlength.symm)
  rw [← hlast, ← (List.cons_eq_cons.mp hends).1]
  split_ifs with hz
  · exact iff_of_false (by decide) (not_not.mpr hz)
  · exact iff_of_true rfl hz

/-- A character outside the alphabet, a row behind the table, the empty text, and any letter: with
the empty key each branch leaves its tables. -/
theorem not_inBounds :
    ¬ InBounds (.polybiusEncrypt defaultMode) ⟨[], List.not_mem_nil⟩ [127] ∧
      ¬ InBounds (.polybiusDecrypt defaultMode) ⟨[], List.not_mem_nil⟩ [90, 90] ∧
      ¬ InBounds .morseEncrypt ⟨[], List.not_mem_nil⟩ [] ∧
      ¬ InBounds .morseDecrypt ⟨[], List.not_mem_nil⟩ [65] := by
  have hpolybius : checkedPolybiusEncrypt defaultMode [] [127] = .error .overrun ∧
      checkedPolybiusDecrypt defaultMode [] [90, 90] = .error .overrun := by decide +kernel
  have hmorse : checkedMorseEncrypt [] [] = .error .overrun ∧
      checkedMorseDecrypt [] [65] = .error .overrun := by decide +kernel
  simp only [InBounds, hpolybius.1, hpolybius.2, hmorse.1, hmorse.2]
  simp

end SystemFundamentals.Cipher
