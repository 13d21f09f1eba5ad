import SystemFundamentals.Cipher.MorseStream
import SystemFundamentals.Cipher.TableContract

/-!
# The eight bytes of the Morse buffer

The insertion loops of the encrypting branch stop at the eighth byte, whether or not all their
symbols have found a place.  This file lists the insertions of a run and the calls of
{lit}`bufferencrypt`, each with the buffer it finds, and shows that the bound is never what
stops an insertion.

Main results:

- Theorem {lit}`turnCalls_fit`: in one turn every insertion has room, and every call of
  {lit}`bufferencrypt` leaves at most two symbols.
- Theorem {lit}`loopCalls_fit`: the same for the loop, from every buffer that a turn may find.
- Theorem {lit}`messageCalls_fit`: the same for a message, whose run is not stopped by a search.
-/

namespace SystemFundamentals.Cipher

/-! ## What a run does to the buffer -/

/-- An insertion of the separator by the loop, a call of {lit}`encryptmorse`, or a call of
{lit}`bufferencrypt`, with the buffer it finds. -/
inductive BufferCall
  | separator (buffer : List UInt8)
  | encryptmorse (buffer : List UInt8) (input : UInt8)
  | bufferencrypt (buffer : List UInt8)
deriving DecidableEq

/-- The calls of {lit}`insertSeparator`. -/
def separatorCalls (buffer : List UInt8) (lastCharSpace : Bool) : List BufferCall :=
  if lastCharSpace then []
  else [.separator buffer, .bufferencrypt (fillBuffer buffer [sep])]

/-- The call of {lit}`insertChar`. -/
def charCalls (buffer : List UInt8) (lastCharSpace : Bool) (checkline : UInt8) :
    List BufferCall :=
  if lastCharSpace ∧ isSpace checkline then [] else [.encryptmorse buffer checkline]

/-- The calls of {lit}`encryptTurn`, up to one that stops the program. -/
def turnCalls (fmKey buffer : List UInt8) (lastCharSpace : Bool) (checkline : UInt8) :
    List BufferCall :=
  separatorCalls buffer lastCharSpace ++
    match insertSeparator fmKey buffer lastCharSpace with
    | .error _ => []
    | .ok (_, buffer) =>
        charCalls buffer lastCharSpace checkline ++
          match insertChar buffer lastCharSpace checkline with
          | .ok (some buffer) => [.bufferencrypt buffer]
          | _ => []

/-- The calls of {lit}`morseEncryptLoop`. -/
def loopCalls (fmKey : List UInt8) : List UInt8 → Bool → List UInt8 → List BufferCall
  | _, _, [] => []
  | buffer, lastCharSpace, checkline :: input =>
      if checkline = eof then []
      else
        turnCalls fmKey buffer lastCharSpace checkline ++
          match encryptTurn fmKey buffer lastCharSpace checkline with
          | .ok (_, some buffer) =>
              if checkline = newline then loopCalls fmKey (clearBuffer buffer) true input
              else loopCalls fmKey buffer (isSpace checkline) input
          | _ => []

/-- The encrypting branch of {lit}`main` for the bytes of {lit}`fm_key`. -/
def encryptMessage (fmKey input : List UInt8) : Except Overrun Run :=
  match encryptmorse (List.replicate 8 0) (input.headD eof) with
  | .error stop => .error stop
  | .ok none => .ok ⟨[], false⟩
  | .ok (some buffer) => morseEncryptLoop fmKey buffer false input.tail

/-- The calls of {lit}`encryptMessage`. -/
def messageCalls (fmKey input : List UInt8) : List BufferCall :=
  .encryptmorse (List.replicate 8 0) (input.headD eof) ::
    match encryptmorse (List.replicate 8 0) (input.headD eof) with
    | .ok (some buffer) => loopCalls fmKey buffer false input.tail
    | _ => []

/-- {lit}`morseEncrypt` generates {lit}`fm_key` first. -/
theorem morseEncrypt_eq_encryptMessage (key input : List UInt8) :
    morseEncrypt key input = encryptMessage (generatemorsetable key) input :=
  rfl

/-! ## Calls that have room -/

/-- The symbols {lit}`encryptmorse` has to insert.  The end of an empty input has none: it is
outside of {lit}`morse_table`. -/
def insertedSymbols (input : UInt8) : Except Overrun (List UInt8) :=
  if input = space ∨ input = tab ∨ input = newline then .ok [sep] else morseEntry input

/-- The occupied part of the buffer is a prefix, and zero bytes follow it. -/
structure Occupies (occupied buffer : List UInt8) : Prop where
  eq_padded : buffer = padded 8 occupied
  nonzero : (0 : UInt8) ∉ occupied

/-- An insertion finds enough zero bytes for its symbols and drops none of them.  A call of
{lit}`bufferencrypt` returns, however many turns it may take, and at most two symbols are left. -/
def BufferCall.Fits (fmKey : List UInt8) : BufferCall → Prop
  | .separator buffer => ∃ occupied, Occupies occupied buffer ∧ occupied.length + 1 ≤ 8 ∧
      fillBuffer buffer [sep] = padded 8 (occupied ++ [sep])
  | .encryptmorse buffer input => ∃ occupied, Occupies occupied buffer ∧
      ∀ symbols, insertedSymbols input = .ok symbols →
        occupied.length + symbols.length ≤ 8 ∧
        Cipher.encryptmorse buffer input = .ok (some (padded 8 (occupied ++ symbols)))
  | .bufferencrypt buffer => ∃ printed rest, rest.length ≤ 2 ∧ (0 : UInt8) ∉ rest ∧
      ∀ turns, 3 ≤ turns →
        Cipher.bufferencrypt fmKey turns buffer = .ok (printed, padded 8 rest)

/-- Every search for a triple ends. -/
def SearchesEnd (fmKey : List UInt8) : Prop :=
  ∀ triple, ∃ found, searchTriple triple fmKey fractionatedTable = .ok found

/-- Every search ends at a letter or at the terminator. -/
theorem searchesEnd_letters {letters : List UInt8} (hlength : letters.length = 26)
    (hnodup : letters.Nodup) (hzero : (0 : UInt8) ∉ letters) : SearchesEnd (letters ++ [0]) := by
  have htable : letters.length = fractionatedTable.length := hlength
  intro triple
  by_cases htriple : triple ∈ fractionatedTable
  · rcases exists_letter htable hnodup hzero [0] htriple with ⟨letter, -, hsearch, -⟩
    exact ⟨some letter, hsearch⟩
  · exact ⟨none, searchTriple_of_notMem htable hzero [0] htriple⟩

section Run

variable {fmKey : List UInt8} (hsearch : SearchesEnd fmKey)

include hsearch

theorem SearchesEnd.emit (stream : List UInt8) : ∃ printed, emit fmKey stream = .ok printed := by
  induction stream using pending.induct with
  | case1 a b c stream ih =>
      rcases hsearch [a, b, c] with ⟨letter, hletter⟩
      rcases ih with ⟨printed, hprinted⟩
      exact ⟨letter.toList ++ printed, by rw [Cipher.emit, hletter, hprinted]; rfl⟩
  | case2 stream hshort =>
      have hlen := length_pending_lt stream
      rw [pending.eq_2 stream hshort] at hlen
      exact ⟨[], emit_of_length_lt fmKey hlen⟩

/-- A call of {lit}`bufferencrypt` on symbols that fit the buffer. -/
theorem fits_bufferencrypt {occupied : List UInt8} (hzero : (0 : UInt8) ∉ occupied)
    (hfit : occupied.length ≤ 8) :
    BufferCall.Fits fmKey (.bufferencrypt (padded 8 occupied)) := by
  have hshort := length_pending_lt occupied
  rcases hsearch.emit occupied with ⟨printed, hprinted⟩
  refine ⟨printed, pending occupied, by omega, fun h => hzero (pending_subset occupied h), ?_⟩
  intro turns hturns
  rw [bufferencrypt_padded fmKey turns hzero hfit (by omega), hprinted]
  rfl

/-- The separator has room, and what is left of it and of the symbols before it is short. -/
theorem separatorCalls_fit {lastCharSpace : Bool} {occupied : List UInt8}
    (hroom : Room lastCharSpace occupied) :
    ∀ call ∈ separatorCalls (padded 8 occupied) lastCharSpace, call.Fits fmKey := by
  cases lastCharSpace with
  | true => exact List.forall_mem_nil _
  | false =>
      have hlen : occupied.length ≤ 7 := hroom.2
      have hsep : (0 : UInt8) ∉ occupied ++ [sep] := separated_nonzero hroom.1 false
      have hfill : fillBuffer (padded 8 occupied) [sep] = padded 8 (occupied ++ [sep]) :=
        fillBuffer_padded hroom.1 (by simp; omega)
      have hseparator : BufferCall.Fits fmKey (.separator (padded 8 occupied)) :=
        ⟨occupied, ⟨rfl, hroom.1⟩, by omega, hfill⟩
      have hflush := fits_bufferencrypt hsearch hsep (by simp; omega)
      rw [← hfill] at hflush
      exact List.forall_mem_cons.mpr ⟨hseparator, List.forall_mem_singleton.mpr hflush⟩

omit hsearch in
theorem insertedSymbols_of_accepted {c : UInt8} (hc : Accepted c) :
    insertedSymbols c = .ok (charSymbols c) := by
  rcases hc with hblank | hcode
  · rw [insertedSymbols, if_pos (isBlankSymbol_iff.mp hblank), charSymbols, if_pos hblank]
  · rw [insertedSymbols, if_neg (not_blank_of_encodable hcode), morseEntry_of_encodable hcode,
      charSymbols_of_encodable hcode]

omit hsearch in
/-- Behind at most two symbols every character has room. -/
theorem fits_encryptmorse {occupied : List UInt8} (hzero : (0 : UInt8) ∉ occupied)
    (hshort : occupied.length ≤ 2) {c : UInt8} (hc : Accepted c) :
    BufferCall.Fits fmKey (.encryptmorse (padded 8 occupied) c) := by
  refine ⟨occupied, ⟨rfl, hzero⟩, fun symbols hsymbols => ?_⟩
  rw [insertedSymbols_of_accepted hc] at hsymbols
  cases hsymbols
  have hlen := length_charSymbols_le c
  exact ⟨by omega, encryptmorse_padded hzero hshort hc⟩

/-- In one turn every insertion has room. -/
theorem turnCalls_fit {lastCharSpace : Bool} {occupied : List UInt8}
    (hroom : Room lastCharSpace occupied) {c : UInt8} (hc : Accepted c) :
    ∀ call ∈ turnCalls fmKey (padded 8 occupied) lastCharSpace c, call.Fits fmKey := by
  have hseparator := insertSeparator_padded fmKey hroom
  have hzero := separated_nonzero hroom.1 lastCharSpace
  generalize occupied ++ (if lastCharSpace then [] else [sep]) = s at hseparator hzero
  have hpending : (0 : UInt8) ∉ pending s := fun h => hzero (pending_subset s h)
  have hshort := length_pending_lt s
  have hlen := length_insertedChar_le lastCharSpace c
  have hnonzero := insertedChar_nonzero lastCharSpace c
  have hinsert := insertChar_padded hpending (by omega) lastCharSpace hc
  rcases hsearch.emit s with ⟨printed, hprinted⟩
  rw [turnCalls, hseparator, hprinted]
  simp only [Except.map, hinsert]
  refine List.forall_mem_append.mpr ⟨separatorCalls_fit hsearch hroom,
    List.forall_mem_append.mpr ⟨?_, List.forall_mem_singleton.mpr ?_⟩⟩
  · unfold charCalls
    split_ifs
    · exact List.forall_mem_nil _
    · exact List.forall_mem_singleton.mpr (fits_encryptmorse hpending (by omega) hc)
  · refine fits_bufferencrypt hsearch ?_ ?_
    · rw [List.mem_append, not_or]
      exact ⟨hpending, hnonzero⟩
    · rw [List.length_append]
      omega

/-- In the loop every insertion has room, from every buffer that a turn may find. -/
theorem loopCalls_fit {lastCharSpace : Bool} {occupied : List UInt8}
    (hroom : Room lastCharSpace occupied) {input : List UInt8}
    (hinput : ∀ c ∈ input, Accepted c) :
    (∀ call ∈ loopCalls fmKey (padded 8 occupied) lastCharSpace input, call.Fits fmKey) ∧
      ∃ printed, morseEncryptLoop fmKey (padded 8 occupied) lastCharSpace input =
        .ok ⟨printed, true⟩ := by
  induction input generalizing lastCharSpace occupied with
  | nil => exact ⟨List.forall_mem_nil _, [], rfl⟩
  | cons c input ih =>
      rw [List.forall_mem_cons] at hinput
      have hc := hinput.1
      have hturn := turnCalls_fit hsearch hroom hc
      rcases hsearch.emit (occupied ++ turnSymbols lastCharSpace c) with ⟨printed, hprinted⟩
      have hstep := encryptTurn_eq fmKey hroom hc
      rw [hprinted] at hstep
      rw [loopCalls, morseEncryptLoop, if_neg (accepted_ne_eof hc), if_neg (accepted_ne_eof hc),
        hstep]
      simp only [Except.map]
      by_cases hnewline : c = newline
      · -- a newline frees the buffer
        have hnext := room_pending hroom c true
        have hshort := length_pending_lt (occupied ++ turnSymbols lastCharSpace c)
        rw [if_pos hnewline, if_pos hnewline, clearBuffer_padded hnext.1 (by omega), ← padded_nil]
        rcases ih room_nil hinput.2 with ⟨hcalls, after, hloop⟩
        rw [hloop]
        exact ⟨List.forall_mem_append.mpr ⟨hturn, hcalls⟩, _, rfl⟩
      · rw [if_neg hnewline, if_neg hnewline]
        rcases ih (room_pending hroom c (isSpace c)) hinput.2 with ⟨hcalls, after, hloop⟩
        rw [hloop]
        exact ⟨List.forall_mem_append.mpr ⟨hturn, hcalls⟩, _, rfl⟩

end Run

/-- For 26 distinct letters and a message of encodable characters and blanks, no insertion drops
a symbol and every call of {lit}`bufferencrypt` returns with at most two symbols left.  A message
that is not empty is encrypted to its end. -/
theorem messageCalls_fit {letters : List UInt8} (hlength : letters.length = 26)
    (hnodup : letters.Nodup) (hzero : (0 : UInt8) ∉ letters) {message : List UInt8}
    (hmessage : ∀ c ∈ message, Accepted c) :
    (∀ call ∈ messageCalls (letters ++ [0]) message, call.Fits (letters ++ [0])) ∧
      (message ≠ [] →
        ∃ printed, encryptMessage (letters ++ [0]) message = .ok ⟨printed, true⟩) := by
  have hsearch := searchesEnd_letters hlength hnodup hzero
  cases message with
  | nil =>
      -- the call finds a free buffer, and the end of the input has no symbols
      have hnone : insertedSymbols eof = .error .overrun := by decide +kernel
      have hcall : Cipher.encryptmorse (List.replicate 8 0) eof = .error .overrun := by
        decide +kernel
      refine ⟨?_, fun hne => absurd rfl hne⟩
      rw [messageCalls, List.headD_nil, hcall]
      refine List.forall_mem_singleton.mpr ⟨[], ⟨rfl, List.not_mem_nil⟩, ?_⟩
      intro symbols hsymbols
      rw [hnone] at hsymbols
      cases hsymbols
  | cons c message =>
      rw [List.forall_mem_cons] at hmessage
      have hfirst := encryptmorse_padded List.not_mem_nil (Nat.zero_le _) hmessage.1
      rw [padded_nil, List.nil_append] at hfirst
      rcases loopCalls_fit hsearch (room_charSymbols c) hmessage.2 with ⟨hcalls, hloop⟩
      have hcall : BufferCall.Fits (letters ++ [0]) (.encryptmorse (padded 8 []) c) :=
        fits_encryptmorse List.not_mem_nil (Nat.zero_le _) hmessage.1
      rw [messageCalls, encryptMessage, List.headD_cons, List.tail_cons, hfirst]
      exact ⟨List.forall_mem_cons.mpr ⟨hcall, hcalls⟩, fun _ => hloop⟩

/-- The message {lit}`A B` and the alphabet in order. -/
theorem messageCalls_fit_letters :
    (∀ call ∈ messageCalls (fmAlphabet ++ [0]) [65, 32, 66], call.Fits (fmAlphabet ++ [0])) ∧
      ∃ printed, encryptMessage (fmAlphabet ++ [0]) [65, 32, 66] = .ok ⟨printed, true⟩ := by
  have hmessage : ∀ c ∈ [65, 32, 66], Accepted c :=
    List.forall_mem_cons.mpr ⟨Or.inr (by decide +kernel),
      List.forall_mem_cons.mpr ⟨Or.inl rfl,
        List.forall_mem_singleton.mpr (Or.inr (by decide +kernel))⟩⟩
  have hfit := messageCalls_fit length_fmAlphabet fmAlphabet_nodup (by decide) hmessage
  exact ⟨hfit.1, hfit.2 (by decide)⟩

end SystemFundamentals.Cipher
