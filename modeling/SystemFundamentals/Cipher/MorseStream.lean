import SystemFundamentals.Cipher.Morse

/-!
# The symbol stream of the Morse encoder

The encoder appends dots, dashes and separators to its buffer and takes three of
them away at a time.  What it prints depends on the stream of appended symbols
alone: this file gives the stream of a line and shows that the buffer never
drops a symbol.

Main results:

- Theorem {lit}`emit_append`: cutting a stream into triples can be done piece by
  piece.
- Theorem {lit}`encryptTurn_eq`: one turn appends its symbols and emits the
  complete triples.
- Theorem {lit}`morseEncryptLoop_line`: a line is printed as the triples of its
  stream.
-/

namespace SystemFundamentals.Cipher

/-! ## Streams and triples -/

/-- The letters for the complete triples of a stream. -/
def emit (fmKey : List UInt8) : List UInt8 → Except Overrun (List UInt8)
  | a :: b :: c :: stream =>
      match searchTriple [a, b, c] fmKey fractionatedTable with
      | .error stop => .error stop
      | .ok letter => (emit fmKey stream).map (letter.toList ++ ·)
  | _ => .ok []

/-- The symbols behind the complete triples. -/
def pending : List UInt8 → List UInt8
  | _ :: _ :: _ :: stream => pending stream
  | stream => stream

theorem emit_of_length_lt (fmKey : List UInt8) {stream : List UInt8}
    (hlen : stream.length < 3) : emit fmKey stream = .ok [] := by
  rcases stream with _ | ⟨a, _ | ⟨b, _ | ⟨c, stream⟩⟩⟩ <;> simp [emit] at hlen ⊢
  omega

theorem pending_of_length_lt {stream : List UInt8} (hlen : stream.length < 3) :
    pending stream = stream := by
  rcases stream with _ | ⟨a, _ | ⟨b, _ | ⟨c, stream⟩⟩⟩ <;> simp [pending] at hlen ⊢
  omega

theorem length_pending_lt (stream : List UInt8) : (pending stream).length < 3 := by
  induction stream using pending.induct with
  | case1 a b c stream ih => simpa [pending] using ih
  | case2 stream hshort =>
      rcases stream with _ | ⟨a, _ | ⟨b, _ | ⟨c, stream⟩⟩⟩
      · simp [pending]
      · simp [pending]
      · simp [pending]
      · exact absurd rfl (hshort a b c stream)

theorem pending_subset (stream : List UInt8) : pending stream ⊆ stream := by
  induction stream using pending.induct with
  | case1 a b c stream ih =>
      intro s hs
      simp [ih hs]
  | case2 stream hshort =>
      rw [pending]
      · exact List.Subset.refl _
      · exact hshort

/-- Cutting a stream into triples can be done piece by piece. -/
theorem emit_append (fmKey s t : List UInt8) :
    emit fmKey (s ++ t) = do
      let before ← emit fmKey s
      let after ← emit fmKey (pending s ++ t)
      return before ++ after := by
  induction s using pending.induct with
  | case1 a b c stream ih =>
      simp only [List.cons_append, emit, pending]
      cases searchTriple [a, b, c] fmKey fractionatedTable with
      | error stop => rfl
      | ok letter =>
          simp only [ih]
          cases emit fmKey stream with
          | error stop => rfl
          | ok before =>
              cases emit fmKey (pending stream ++ t) with
              | error stop => rfl
              | ok after => simp [Except.map, bind, Except.bind, pure, Except.pure]
  | case2 stream hshort =>
      have hlen := length_pending_lt stream
      rw [pending] at hlen
      · rw [emit_of_length_lt fmKey hlen, pending_of_length_lt hlen]
        cases emit fmKey (stream ++ t) <;> rfl
      · exact hshort

theorem pending_append (s t : List UInt8) :
    pending (s ++ t) = pending (pending s ++ t) := by
  induction s using pending.induct with
  | case1 a b c stream ih => simpa [pending] using ih
  | case2 stream hshort =>
      rw [pending.eq_2 stream hshort]

/-- {lit}`bufferencrypt` prints the complete triples and keeps the rest. -/
theorem bufferencrypt_padded (fmKey : List UInt8) (turns : Nat) {occupied : List UInt8}
    (hzero : (0 : UInt8) ∉ occupied) (hfit : occupied.length ≤ 8)
    (hturns : occupied.length < 3 * turns + 3) :
    bufferencrypt fmKey turns (padded 8 occupied) =
      (emit fmKey occupied).map fun printed => (printed, padded 8 (pending occupied)) := by
  induction turns generalizing occupied with
  | zero =>
      rw [bufferencrypt, emit_of_length_lt fmKey (by omega),
        pending_of_length_lt (by omega)]
      rfl
  | succ turns ih =>
      rcases occupied with _ | ⟨a, _ | ⟨b, _ | ⟨c, stream⟩⟩⟩
      · rfl
      · rfl
      · rfl
      · simp only [List.mem_cons, not_or] at hzero
        simp only [List.length_cons] at hfit hturns
        have hget : (padded 8 (a :: b :: c :: stream)).getD 2 0 = c := rfl
        have htake : (padded 8 (a :: b :: c :: stream)).take 3 = [a, b, c] := rfl
        have hshift : shiftTriple (padded 8 (a :: b :: c :: stream)) = padded 8 stream := by
          obtain ⟨n, hn⟩ : ∃ n, 8 - (stream.length + 1 + 1 + 1) = n := ⟨_, rfl⟩
          have hn' : 8 - stream.length = n + 3 := by omega
          simp only [shiftTriple, padded, List.length_cons, hn, hn']
          simp [List.replicate_add]
        rw [bufferencrypt, hget, if_neg (Ne.symm hzero.2.2.1), htake, hshift,
          ih hzero.2.2.2 (by omega) (by omega), emit, pending]
        cases searchTriple [a, b, c] fmKey fractionatedTable with
        | error stop => rfl
        | ok letter => cases emit fmKey stream <;> rfl

/-! ## Characters and their symbols -/

/-- The entry of {lit}`morse_table` for a character, empty outside it. -/
def morseCode (c : UInt8) : List UInt8 :=
  morseTable.getD (c.toNat - 33) []

/-- A character with a non-empty entry in {lit}`morse_table`. -/
def Encodable (c : UInt8) : Prop :=
  33 ≤ c ∧ morseCode c ≠ []

instance (c : UInt8) : Decidable (Encodable c) :=
  inferInstanceAs (Decidable (_ ∧ _))

/-- The three blanks, which {lit}`encryptmorse` turns into a separator. -/
def isBlankSymbol (c : UInt8) : Bool :=
  isSpace c || c == newline

/-- What {lit}`encryptmorse` appends for a character. -/
def charSymbols (c : UInt8) : List UInt8 :=
  if isBlankSymbol c then [sep] else morseCode c

/-- What one turn of the encrypting loop appends: a separator unless the last
character was a blank, and the symbols of the character unless it repeats a
blank. -/
def turnSymbols (lastCharSpace : Bool) (c : UInt8) : List UInt8 :=
  (if lastCharSpace then [] else [sep]) ++
    (if lastCharSpace ∧ isSpace c then [] else charSymbols c)

/-- The symbols of a line and of the newline behind it. -/
def lineSymbols : Bool → List UInt8 → List UInt8
  | lastCharSpace, [] => turnSymbols lastCharSpace newline
  | lastCharSpace, c :: line => turnSymbols lastCharSpace c ++ lineSymbols (isSpace c) line

/-- Every table entry is short, and consists of dots and dashes. -/
theorem morseTable_entry : ∀ code ∈ morseTable,
    code.length ≤ 6 ∧ ∀ s ∈ code, s = dot ∨ s = dash := by
  decide +kernel

theorem morseCode_mem_or_nil (c : UInt8) : morseCode c ∈ morseTable ∨ morseCode c = [] := by
  unfold morseCode
  by_cases h : c.toNat - 33 < morseTable.length
  · left
    rw [List.getD_eq_getElem?_getD, List.getElem?_eq_getElem h]
    exact List.getElem_mem h
  · right
    rw [List.getD_eq_getElem?_getD, List.getElem?_eq_none (by omega)]
    rfl

theorem length_morseCode_le (c : UInt8) : (morseCode c).length ≤ 6 := by
  rcases morseCode_mem_or_nil c with h | h
  · exact (morseTable_entry _ h).1
  · simp [h]

theorem morseCode_symbol {c s : UInt8} (hs : s ∈ morseCode c) : s = dot ∨ s = dash := by
  rcases morseCode_mem_or_nil c with h | h
  · exact (morseTable_entry _ h).2 s hs
  · rw [h] at hs
    contradiction

theorem morseCode_ne_sep {c s : UInt8} (hs : s ∈ morseCode c) : s ≠ sep := by
  rintro rfl
  rcases morseCode_symbol hs with h | h <;> exact absurd h (by decide)

/-- The table has an entry for the characters from {lit}`!` to {lit}`z`. -/
theorem morseEntry_eq (c : UInt8) :
    morseEntry c = if 33 ≤ c ∧ c ≤ 122 then .ok (morseCode c) else .error .overrun := by
  have hlow : 33 ≤ c ↔ 33 ≤ c.toNat := UInt8.le_iff_toNat_le
  have hhigh : c ≤ 122 ↔ c.toNat ≤ 122 := UInt8.le_iff_toNat_le
  have hlength : morseTable.length = 90 := rfl
  simp only [hlow, hhigh, morseEntry]
  by_cases hascii : c.toNat < 128
  · have hsigned : signed c = c.toNat := if_pos hascii
    have hnat : (signed c - 33).toNat = c.toNat - 33 := by omega
    rw [hnat, hsigned]
    by_cases hrange : 33 ≤ c.toNat ∧ c.toNat ≤ 122
    · have hindex : c.toNat - 33 < morseTable.length := by omega
      rw [if_pos (by omega), if_pos hrange, List.getElem?_eq_getElem hindex, morseCode,
        List.getD_eq_getElem?_getD, List.getElem?_eq_getElem hindex]
      rfl
    · rw [if_neg hrange]
      split_ifs with hpos
      · rw [List.getElem?_eq_none (by omega)]
      · rfl
  · have hsigned : signed c = c.toNat - 256 := if_neg hascii
    have hbound := c.toNat_lt
    rw [if_neg (by omega), if_neg (by omega)]

/-- An encodable character is read from the table by its index. -/
theorem morseEntry_of_encodable {c : UInt8} (hc : Encodable c) :
    morseEntry c = .ok (morseCode c) := by
  have hhigh : c ≤ 122 := by
    by_contra h
    have hlength : morseTable.length = 90 := rfl
    have hlast : ¬ c.toNat ≤ 122 := fun hle => h (UInt8.le_iff_toNat_le.mpr hle)
    apply hc.2
    rw [morseCode, List.getD_eq_getElem?_getD, List.getElem?_eq_none (by omega)]
    rfl
  rw [morseEntry_eq, if_pos ⟨hc.1, hhigh⟩]

theorem not_isBlankSymbol_of_encodable {c : UInt8} (hc : Encodable c) :
    isBlankSymbol c = false := by
  have hlow : 33 ≤ c.toNat := UInt8.le_iff_toNat_le.mp hc.1
  have hne (b : UInt8) (hb : b.toNat < 33) : c ≠ b := by
    rintro rfl
    omega
  simp [isBlankSymbol, isSpace, hne space (by decide), hne tab (by decide),
    hne newline (by decide)]

/-- The blanks are the characters {lit}`encryptmorse` tests for. -/
theorem isBlankSymbol_iff {c : UInt8} :
    isBlankSymbol c = true ↔ c = space ∨ c = tab ∨ c = newline := by
  simp [isBlankSymbol, isSpace, or_assoc]

theorem not_blank_of_encodable {c : UInt8} (hc : Encodable c) :
    ¬ (c = space ∨ c = tab ∨ c = newline) := by
  rw [← isBlankSymbol_iff, not_isBlankSymbol_of_encodable hc]
  exact Bool.false_ne_true

theorem charSymbols_of_encodable {c : UInt8} (hc : Encodable c) : charSymbols c = morseCode c := by
  rw [charSymbols, not_isBlankSymbol_of_encodable hc, if_neg Bool.false_ne_true]

theorem charSymbols_nonzero (c : UInt8) : (0 : UInt8) ∉ charSymbols c := by
  unfold charSymbols
  split_ifs
  · decide
  · intro h
    rcases morseCode_symbol h with h | h <;> exact absurd h (by decide)

theorem length_charSymbols_le (c : UInt8) : (charSymbols c).length ≤ 6 := by
  unfold charSymbols
  split_ifs
  · simp
  · exact length_morseCode_le c

/-! ## One turn and one line -/

/-- A character the encrypting loop accepts. -/
def Accepted (c : UInt8) : Prop :=
  isBlankSymbol c = true ∨ Encodable c

/-- {lit}`encryptmorse` appends the symbols of an accepted character. -/
theorem encryptmorse_padded {occupied : List UInt8} (hzero : (0 : UInt8) ∉ occupied)
    (hfit : occupied.length ≤ 2) {c : UInt8} (hc : Accepted c) :
    encryptmorse (padded 8 occupied) c = .ok (some (padded 8 (occupied ++ charSymbols c))) := by
  have hlen := length_charSymbols_le c
  rcases hc with hblank | hcode
  · rw [encryptmorse, if_pos (isBlankSymbol_iff.mp hblank), charSymbols, if_pos hblank,
      fillBuffer_padded hzero (by simp; omega)]
  · rw [charSymbols_of_encodable hcode] at hlen ⊢
    rw [encryptmorse, if_neg (not_blank_of_encodable hcode), morseEntry_of_encodable hcode]
    rcases List.exists_cons_of_ne_nil hcode.2 with ⟨s, code, hcons⟩
    rw [hcons] at hlen ⊢
    simp only
    rw [fillBuffer_padded hzero (by omega)]

/-- What a turn inserts for its character is short. -/
theorem length_insertedChar_le (lastCharSpace : Bool) (c : UInt8) :
    (if lastCharSpace ∧ isSpace c then [] else charSymbols c).length ≤ 6 := by
  split_ifs
  · exact Nat.zero_le 6
  · exact length_charSymbols_le c

theorem insertedChar_nonzero (lastCharSpace : Bool) (c : UInt8) :
    (0 : UInt8) ∉ if lastCharSpace ∧ isSpace c then [] else charSymbols c := by
  split_ifs
  · exact List.not_mem_nil
  · exact charSymbols_nonzero c

theorem separated_nonzero {occupied : List UInt8} (hzero : (0 : UInt8) ∉ occupied)
    (lastCharSpace : Bool) :
    (0 : UInt8) ∉ occupied ++ if lastCharSpace then [] else [sep] := by
  rw [List.mem_append, not_or]
  exact ⟨hzero, by cases lastCharSpace <;> decide⟩

/-- The stream a turn leaves has no zero byte. -/
theorem turn_nonzero {occupied : List UInt8} (hzero : (0 : UInt8) ∉ occupied)
    (lastCharSpace : Bool) (c : UInt8) :
    (0 : UInt8) ∉ occupied ++ turnSymbols lastCharSpace c := by
  rw [turnSymbols, ← List.append_assoc, List.mem_append, not_or]
  exact ⟨separated_nonzero hzero lastCharSpace, insertedChar_nonzero lastCharSpace c⟩

/-- How much of the buffer may be occupied before a turn. -/
def Room (lastCharSpace : Bool) (occupied : List UInt8) : Prop :=
  (0 : UInt8) ∉ occupied ∧ occupied.length ≤ if lastCharSpace then 2 else 7

/-- The separator in front of a character. -/
theorem insertSeparator_padded (fmKey : List UInt8) {lastCharSpace : Bool}
    {occupied : List UInt8} (hroom : Room lastCharSpace occupied) :
    insertSeparator fmKey (padded 8 occupied) lastCharSpace =
      (emit fmKey (occupied ++ if lastCharSpace then [] else [sep])).map fun printed =>
        (printed, padded 8 (pending (occupied ++ if lastCharSpace then [] else [sep]))) := by
  unfold insertSeparator
  cases lastCharSpace with
  | true =>
      have hlen : occupied.length ≤ 2 := hroom.2
      simp only [if_true, List.append_nil]
      rw [emit_of_length_lt fmKey (by omega), pending_of_length_lt (by omega)]
      rfl
  | false =>
      have hlen : occupied.length ≤ 7 := hroom.2
      simp only [Bool.false_eq_true, if_false]
      have hzero : (0 : UInt8) ∉ occupied ++ [sep] := by
        rw [List.mem_append, not_or]
        exact ⟨hroom.1, by decide⟩
      rw [fillBuffer_padded hroom.1 (by simp; omega)]
      exact bufferencrypt_padded fmKey 3 hzero (by simp; omega) (by simp; omega)

/-- The symbols of a character. -/
theorem insertChar_padded {occupied : List UInt8} (hzero : (0 : UInt8) ∉ occupied)
    (hfit : occupied.length ≤ 2) (lastCharSpace : Bool) {c : UInt8} (hc : Accepted c) :
    insertChar (padded 8 occupied) lastCharSpace c =
      .ok (some (padded 8
        (occupied ++ if lastCharSpace ∧ isSpace c then [] else charSymbols c))) := by
  unfold insertChar
  split_ifs
  · simp
  · exact encryptmorse_padded hzero hfit hc

/-- One turn appends its symbols and prints the complete triples; no symbol is
dropped. -/
theorem encryptTurn_eq (fmKey : List UInt8) {lastCharSpace : Bool} {occupied : List UInt8}
    (hroom : Room lastCharSpace occupied) {c : UInt8} (hc : Accepted c) :
    encryptTurn fmKey (padded 8 occupied) lastCharSpace c =
      (emit fmKey (occupied ++ turnSymbols lastCharSpace c)).map fun printed =>
        (printed, some (padded 8 (pending (occupied ++ turnSymbols lastCharSpace c)))) := by
  have hzero := separated_nonzero hroom.1 lastCharSpace
  have hlen := length_insertedChar_le lastCharSpace c
  have hchar := insertedChar_nonzero lastCharSpace c
  rw [turnSymbols, ← List.append_assoc]
  generalize hs : (occupied ++ if lastCharSpace then [] else [sep]) = s at hzero
  generalize ht : (if lastCharSpace ∧ isSpace c then [] else charSymbols c) = t at hlen hchar
  have hpending : (0 : UInt8) ∉ pending s := fun h => hzero (pending_subset s h)
  have hshort := length_pending_lt s
  have hnonzero : (0 : UInt8) ∉ pending s ++ t := by
    rw [List.mem_append, not_or]
    exact ⟨hpending, hchar⟩
  have hinsert := insertChar_padded hpending (by omega) lastCharSpace hc
  have hprint := bufferencrypt_padded fmKey 3 hnonzero
    (by rw [List.length_append]; omega) (by rw [List.length_append]; omega)
  rw [ht] at hinsert
  rw [encryptTurn, insertSeparator_padded fmKey hroom, hs, emit_append, pending_append]
  cases emit fmKey s with
  | error stop => rfl
  | ok before =>
      simp only [Except.map, bind, Except.bind, hinsert, hprint]
      cases emit fmKey (pending s ++ t) <;> rfl

/-- After a turn at most two symbols are left. -/
theorem room_pending {lastCharSpace : Bool} {occupied : List UInt8}
    (hroom : Room lastCharSpace occupied) (c : UInt8) (next : Bool) :
    Room next (pending (occupied ++ turnSymbols lastCharSpace c)) := by
  have hshort := length_pending_lt (occupied ++ turnSymbols lastCharSpace c)
  constructor
  · intro h
    exact turn_nonzero hroom.1 lastCharSpace c (pending_subset _ h)
  · cases next
    · simp only [Bool.false_eq_true, if_false]
      omega
    · simp only [if_true]
      omega

theorem accepted_ne_eof {c : UInt8} (hc : Accepted c) : c ≠ eof := by
  rintro rfl
  exact absurd hc (by unfold Accepted; decide +kernel)

/-- A line and its newline: the complete triples of the stream are printed, the
rest is dropped, and the loop goes on with a free buffer. -/
theorem morseEncryptLoop_line (fmKey : List UInt8) {lastCharSpace : Bool}
    {occupied : List UInt8} (hroom : Room lastCharSpace occupied) {line : List UInt8}
    (hline : ∀ c ∈ line, Accepted c ∧ c ≠ newline) (input : List UInt8) :
    morseEncryptLoop fmKey (padded 8 occupied) lastCharSpace (line ++ newline :: input) =
      match emit fmKey (occupied ++ lineSymbols lastCharSpace line) with
      | .error stop => .error stop
      | .ok printed =>
          (morseEncryptLoop fmKey (List.replicate 8 0) true input).map
            (Run.after (printed ++ [newline])) := by
  induction line generalizing lastCharSpace occupied with
  | nil =>
      have hnewline : Accepted newline := Or.inl rfl
      have hnext := room_pending hroom newline true
      rw [List.nil_append, morseEncryptLoop, if_neg (by decide),
        encryptTurn_eq fmKey hroom hnewline, lineSymbols]
      cases emit fmKey (occupied ++ turnSymbols lastCharSpace newline) with
      | error stop => rfl
      | ok printed =>
          have hshort := length_pending_lt (occupied ++ turnSymbols lastCharSpace newline)
          have hclear := clearBuffer_padded hnext.1 (show _ ≤ 8 by omega)
          simp only [Except.map, if_true, hclear]
  | cons c line ih =>
      have hc := hline c List.mem_cons_self
      have hnext := room_pending hroom c (isSpace c)
      rw [List.cons_append, morseEncryptLoop, if_neg (accepted_ne_eof hc.1),
        encryptTurn_eq fmKey hroom hc.1, lineSymbols, ← List.append_assoc,
        emit_append fmKey (occupied ++ turnSymbols lastCharSpace c)]
      cases emit fmKey (occupied ++ turnSymbols lastCharSpace c) with
      | error stop => rfl
      | ok before =>
          simp only [Except.map, if_neg hc.2]
          rw [ih hnext fun d hd => hline d (List.mem_cons_of_mem c hd)]
          simp only [bind, Except.bind, pure, Except.pure]
          cases emit fmKey (pending (occupied ++ turnSymbols lastCharSpace c) ++
            lineSymbols (isSpace c) line) with
          | error stop => rfl
          | ok after =>
              cases morseEncryptLoop fmKey (List.replicate 8 0) true input with
              | error stop => rfl
              | ok rest => simp [Except.map, Run.after]

theorem room_nil : Room true [] :=
  ⟨List.not_mem_nil, Nat.zero_le _⟩

theorem room_charSymbols (c : UInt8) : Room false (charSymbols c) := by
  have hlength := length_charSymbols_le c
  refine ⟨charSymbols_nonzero c, ?_⟩
  rw [if_neg Bool.false_ne_true]
  omega

/-- The first character is encrypted in front of the loop. -/
theorem morseEncrypt_cons (key : List UInt8) {c : UInt8} (hc : Accepted c)
    (input : List UInt8) :
    morseEncrypt key (c :: input) =
      morseEncryptLoop (generatemorsetable key) (padded 8 (charSymbols c)) false input := by
  have hfirst := encryptmorse_padded List.not_mem_nil (Nat.zero_le _) hc
  rw [padded_nil, List.nil_append] at hfirst
  simp only [morseEncrypt, List.headD_cons, List.tail_cons, hfirst]

end SystemFundamentals.Cipher
