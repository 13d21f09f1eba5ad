import SystemFundamentals.Cipher.MorseStream

/-!
# Which messages survive the fractionated Morse cipher

The stream of a line ends with two separators, and the encoder drops what does
not fill a triple, so that the decoder may get both separators, one, or none.
Without any, the last character of the line is printed by the newline branch,
which forgets a pending space.  The space is pending there exactly when the last
word is one character with a code of at most two symbols: a longer code starts a
triple of its own, and the decoder prints the space in front of a triple.

Main results:

- Theorem {lit}`separatorLoop_padded`: the loop over the decoding buffer reads
  its symbols one by one.
- Theorem {lit}`read_body_end`: what is printed and what is pending when a line
  arrives without its final separators.
- Theorem {lit}`morse_roundTrip_iff`: the messages that decryption gives back.
-/

namespace SystemFundamentals.Cipher

/-! ## Lines -/

/-- A non-empty line of words of encodable characters, separated by single
spaces. -/
inductive Spaced : List UInt8 → Prop
  | last {c : UInt8} : Encodable c → Spaced [c]
  | letter {c : UInt8} {line : List UInt8} : Encodable c → Spaced line → Spaced (c :: line)
  | word {c : UInt8} {line : List UInt8} :
      Encodable c → Spaced line → Spaced (c :: space :: line)

/-- The symbols of a line without its final separators: one separator between
two letters, two between two words. -/
def lineBody : List UInt8 → List UInt8
  | [] => []
  | [c] => morseCode c
  | c :: d :: line =>
      if d = space then morseCode c ++ sep :: sep :: lineBody line
      else morseCode c ++ sep :: lineBody (d :: line)

theorem not_encodable_space : ¬ Encodable space := by decide

theorem ne_space_of_encodable {c : UInt8} (hc : Encodable c) : c ≠ space := by
  rintro rfl
  exact not_encodable_space hc

theorem Spaced.ne_nil {line : List UInt8} (hline : Spaced line) : line ≠ [] := by
  rintro rfl
  cases hline

theorem isSpace_of_encodable {c : UInt8} (hc : Encodable c) : isSpace c = false :=
  (Bool.or_eq_false_iff.mp (not_isBlankSymbol_of_encodable hc)).1

theorem ne_newline_of_encodable {c : UInt8} (hc : Encodable c) : c ≠ newline := by
  simpa using (Bool.or_eq_false_iff.mp (not_isBlankSymbol_of_encodable hc)).2

theorem lineBody_letter (c : UInt8) {line : List UInt8} (hline : Spaced line) :
    lineBody (c :: line) = morseCode c ++ sep :: lineBody line := by
  have hhead : ∀ d rest, line = d :: rest → d ≠ space := by
    intro d rest hcons
    cases hline with
    | last hd =>
        cases hcons
        exact ne_space_of_encodable hd
    | letter hd _ =>
        cases hcons
        exact ne_space_of_encodable hd
    | word hd _ =>
        cases hcons
        exact ne_space_of_encodable hd
  cases line with
  | nil => cases hline
  | cons d rest => rw [lineBody, if_neg (hhead d rest rfl)]

theorem lineBody_word (c : UInt8) (line : List UInt8) :
    lineBody (c :: space :: line) = morseCode c ++ sep :: sep :: lineBody line := by
  rw [lineBody, if_pos rfl]

theorem turnSymbols_encodable (lastCharSpace : Bool) {c : UInt8} (hc : Encodable c) :
    turnSymbols lastCharSpace c = (if lastCharSpace then [] else [sep]) ++ morseCode c := by
  simp [turnSymbols, charSymbols_of_encodable hc, isSpace_of_encodable hc]

/-- The stream of a line is its body and two separators. -/
theorem lineSymbols_spaced {line : List UInt8} (hline : Spaced line) (lastCharSpace : Bool) :
    lineSymbols lastCharSpace line =
      (if lastCharSpace then [] else [sep]) ++ (lineBody line ++ [sep, sep]) := by
  induction hline generalizing lastCharSpace with
  | last hc =>
      have hend : turnSymbols false newline = [sep, sep] := by decide
      simp [lineSymbols, turnSymbols_encodable _ hc, isSpace_of_encodable hc, lineBody, hend]
  | letter hc hline ih =>
      rw [lineSymbols, turnSymbols_encodable _ hc, isSpace_of_encodable hc, ih,
        lineBody_letter _ hline]
      simp
  | word hc hline ih =>
      have hspace : turnSymbols false space = [sep, sep] := by decide
      have hset : isSpace space = true := by decide
      rw [lineSymbols, lineSymbols, turnSymbols_encodable _ hc, isSpace_of_encodable hc,
        hspace, hset, ih, lineBody_word]
      simp

/-! ## Readable streams -/

/-- Never three separators nor seven marks in a row; {lit}`seps` and
{lit}`marks` count those right before the stream. -/
def Spread : Nat → Nat → List UInt8 → Prop
  | _, _, [] => True
  | seps, marks, s :: stream =>
      if s = sep then seps < 2 ∧ Spread (seps + 1) 0 stream
      else (s = dot ∨ s = dash) ∧ marks < 6 ∧ Spread 0 (marks + 1) stream

theorem spread_code (seps : Nat) {code stream : List UInt8} (hne : code ≠ [])
    (hcode : ∀ s ∈ code, s = dot ∨ s = dash)
    (hstream : ∀ marks, Spread 0 marks stream) {marks : Nat}
    (hlen : marks + code.length ≤ 6) : Spread seps marks (code ++ stream) := by
  induction code generalizing seps marks with
  | nil => exact absurd rfl hne
  | cons s code ih =>
      have hs := hcode s List.mem_cons_self
      have hsep : s ≠ sep := by
        rcases hs with rfl | rfl <;> decide
      rw [List.length_cons] at hlen
      rw [List.cons_append, Spread, if_neg hsep]
      refine ⟨hs, by omega, ?_⟩
      by_cases hcode' : code = []
      · subst hcode'
        exact hstream _
      · exact ih 0 hcode' (fun t ht => hcode t (List.mem_cons_of_mem s ht)) (by omega)

/-- The stream of a line is spread out. -/
theorem spread_body {line : List UInt8} (hline : Spaced line) (seps : Nat) :
    Spread seps 0 (lineBody line ++ [sep, sep]) := by
  induction hline generalizing seps with
  | @last c hc =>
      refine spread_code seps hc.2 (fun s hs => morseCode_symbol hs) ?_
        (by simpa using length_morseCode_le c)
      intro marks
      simp [Spread]
  | @letter c line hc hline ih =>
      rw [lineBody_letter c hline, List.append_assoc]
      refine spread_code seps hc.2 (fun s hs => morseCode_symbol hs) ?_
        (by simpa using length_morseCode_le c)
      intro marks
      simpa [Spread] using ih 1
  | @word c line hc hline ih =>
      rw [lineBody_word c, List.append_assoc]
      refine spread_code seps hc.2 (fun s hs => morseCode_symbol hs) ?_
        (by simpa using length_morseCode_le c)
      intro marks
      simpa [Spread] using ih 2

/-- Letters that stand for the complete triples of a stream. -/
inductive ReadsBack (fmKey : List UInt8) : List UInt8 → List UInt8 → Prop
  | done {stream : List UInt8} : stream.length < 3 → ReadsBack fmKey [] stream
  | triple {letter a b c : UInt8} {letters stream : List UInt8} :
      letter ∈ fmAlphabet → searchKey letter fmKey fractionatedTable = .ok [a, b, c] →
      ReadsBack fmKey letters stream →
      ReadsBack fmKey (letter :: letters) (a :: b :: c :: stream)

theorem spread_cons {seps marks : Nat} {s : UInt8} {stream : List UInt8}
    (h : Spread seps marks (s :: stream)) :
    s ∈ [dot, dash, sep] ∧
      ∃ seps' marks', Spread seps' marks' stream ∧ (s = sep → seps' = seps + 1 ∧ seps < 2) := by
  rw [Spread] at h
  split_ifs at h with hs
  · exact ⟨by simp [hs], _, _, h.2, fun _ => ⟨rfl, h.1⟩⟩
  · refine ⟨?_, _, _, h.2.2, fun hsep => absurd hsep hs⟩
    rcases h.1 with rfl | rfl <;> simp

/-- A spread stream starts with a triple of the table. -/
theorem triple_mem_of_spread {seps marks : Nat} {a b c : UInt8} {stream : List UInt8}
    (h : Spread seps marks (a :: b :: c :: stream)) :
    [a, b, c] ∈ fractionatedTable ∧ ∃ seps' marks', Spread seps' marks' stream := by
  have htable : ∀ x ∈ [dot, dash, sep], ∀ y ∈ [dot, dash, sep], ∀ z ∈ [dot, dash, sep],
      ¬ (x = sep ∧ y = sep ∧ z = sep) → [x, y, z] ∈ fractionatedTable := by
    decide +kernel
  rcases spread_cons h with ⟨ha, seps1, marks1, h1, hseps1⟩
  rcases spread_cons h1 with ⟨hb, seps2, marks2, h2, hseps2⟩
  rcases spread_cons h2 with ⟨hc, seps3, marks3, h3, hseps3⟩
  refine ⟨htable a ha b hb c hc ?_, seps3, marks3, h3⟩
  rintro ⟨hsa, hsb, hsc⟩
  have hcount1 := hseps1 hsa
  have hcount2 := hseps2 hsb
  have hcount3 := hseps3 hsc
  omega

/-- A spread stream is emitted as letters that stand for its triples. -/
theorem emit_readsBack {key : List UInt8} (hkey : MorseKey key) {seps marks : Nat}
    {stream : List UInt8} (h : Spread seps marks stream) :
    ∃ letters, emit (generatemorsetable key) stream = .ok letters ∧
      ReadsBack (generatemorsetable key) letters stream := by
  induction stream using pending.induct generalizing seps marks with
  | case1 a b c stream ih =>
      rcases triple_mem_of_spread h with ⟨hmem, seps', marks', hrest⟩
      rcases searchTriple_searchKey hkey hmem with ⟨letter, halphabet, hsearch, hback⟩
      rcases ih hrest with ⟨letters, hemit, hreads⟩
      refine ⟨letter :: letters, ?_, .triple halphabet hback hreads⟩
      rw [emit, hsearch, hemit]
      rfl
  | case2 stream hshort =>
      have hlen := length_pending_lt stream
      rw [pending.eq_2 stream hshort] at hlen
      exact ⟨[], emit_of_length_lt _ hlen, .done hlen⟩

/-! ## Reading symbols -/

/-- The space of a pending {lit}`prep_print_space`. -/
def spaceIf (prepPrintSpace : Bool) : List UInt8 :=
  if prepPrintSpace then [space] else []

/-- The decoder reading one symbol; a symbol that starts a triple is marked,
since a pending space is printed in front of a triple.  The state is the code
collected so far and {lit}`prep_print_space`; the result is what is printed and
the state, or {lean}`none` when the code is not in the table. -/
def readSymbol (code : List UInt8) (prep starts : Bool) (s : UInt8) :
    List UInt8 × Option (List UInt8 × Bool) :=
  let shown := spaceIf (prep && starts)
  let prep := prep && !starts
  if s ≠ sep then (shown, some (code ++ [s], prep))
  else if code = [] then (shown, some ([], true))
  else
    match lookupMorse code with
    | none => (shown ++ spaceIf prep, none)
    | some c => (shown ++ spaceIf prep ++ [c], some ([], false))

/-- The decoder reading one symbol after the other. -/
def read (code : List UInt8) (prep : Bool) :
    List (Bool × UInt8) → List UInt8 × Option (List UInt8 × Bool)
  | [] => ([], some (code, prep))
  | (starts, s) :: stream =>
      match readSymbol code prep starts s with
      | (printed, none) => (printed, none)
      | (printed, some state) =>
          (printed ++ (read state.1 state.2 stream).1, (read state.1 state.2 stream).2)

/-- Symbols in the middle of a triple. -/
def unmarked (stream : List UInt8) : List (Bool × UInt8) :=
  stream.map (false, ·)

/-- A stream whose first symbol stands at position {lit}`k` of a triple. -/
def marked : Nat → List UInt8 → List (Bool × UInt8)
  | _, [] => []
  | k, s :: stream => (decide (k = 0), s) :: marked ((k + 1) % 3) stream

/-- The code that the decoder has collected fits the longest table entry. -/
def Partial (code : List UInt8) : Prop :=
  code.length ≤ 6 ∧ ∀ s ∈ code, s = dot ∨ s = dash

theorem Partial.sep_notMem {code : List UInt8} (h : Partial code) : sep ∉ code := by
  intro hs
  rcases h.2 sep hs with h | h <;> exact absurd h (by decide)

theorem Partial.zero_notMem {code : List UInt8} (h : Partial code) : (0 : UInt8) ∉ code := by
  intro hs
  rcases h.2 0 hs with h | h <;> exact absurd h (by decide)

/-- The shift moves the symbols behind the separator to the front. -/
theorem shiftPast_padded {size : Nat} {code stream : List UInt8}
    (hzero : (0 : UInt8) ∉ stream) (hfit : code.length + (stream.length + 1) ≤ size) :
    shiftPast (padded size (code ++ sep :: stream)) code.length = padded size stream := by
  obtain ⟨n, hn⟩ : ∃ n, size = code.length + (stream.length + 1) + n :=
    ⟨size - (code.length + (stream.length + 1)), by omega⟩
  have hpadded : padded size (code ++ sep :: stream) =
      (code ++ [sep]) ++ (stream ++ List.replicate n 0) := by
    have hfree : size - (code ++ sep :: stream).length = n := by
      rw [List.length_append, List.length_cons]
      omega
    rw [padded, hfree]
    simp
  have hdrop : (padded size (code ++ sep :: stream)).drop (code.length + 1) =
      stream ++ List.replicate n 0 := by
    rw [hpadded, List.drop_left' (by simp)]
  have hdrop' : (padded size (code ++ sep :: stream)).drop
      (code.length + 1 + stream.length) = List.replicate n 0 := by
    rw [← List.drop_drop, hdrop, List.drop_left' rfl]
  have hfree : size - stream.length = (code.length + 1) + n := by omega
  simp only [shiftPast, hdrop, cString_append_zeros hzero, hdrop']
  rw [padded, hfree, List.append_assoc, List.replicate_append_replicate]

theorem idxOf?_append_cons {c : UInt8} {front : List UInt8} (hc : c ∉ front)
    (rest : List UInt8) : (front ++ c :: rest).idxOf? c = some front.length := by
  induction front with
  | nil => simp [List.idxOf?_cons]
  | cons d front ih =>
      rw [List.mem_cons, not_or] at hc
      rw [List.cons_append, List.idxOf?_cons, if_neg (by simpa using Ne.symm hc.1), ih hc.2]
      rfl

/-- The loop over the decoding buffer reads its symbols one by one. -/
theorem separatorLoop_padded {code stream : List UInt8} (hsep : sep ∉ code)
    (hcode : (0 : UInt8) ∉ code) (hzero : (0 : UInt8) ∉ stream)
    (hfit : code.length + stream.length ≤ 257) (prep : Bool) {turns : Nat}
    (hturns : stream.length < turns) :
    separatorLoop turns (padded 257 (code ++ stream)) prep =
      ((read code prep (unmarked stream)).1,
        (read code prep (unmarked stream)).2.map fun state =>
          (padded 257 state.1, state.2)) := by
  induction stream generalizing code prep turns with
  | nil =>
      obtain ⟨turns, rfl⟩ : ∃ m, turns = m + 1 := ⟨turns - 1, by simp at hturns; omega⟩
      have hnone : (padded 257 (code ++ [])).idxOf? sep = none := by
        rw [List.idxOf?_eq_none_iff, padded, List.append_nil, List.mem_append, not_or]
        exact ⟨hsep, fun h => absurd (List.eq_of_mem_replicate h) (by decide)⟩
      rw [separatorLoop, hnone]
      simp [unmarked, read]
  | cons s stream ih =>
      rw [List.mem_cons, not_or] at hzero
      rw [List.length_cons] at hfit hturns
      by_cases hs : s = sep
      · subst hs
        obtain ⟨turns, rfl⟩ : ∃ m, turns = m + 1 := ⟨turns - 1, by omega⟩
        have hindex : (padded 257 (code ++ sep :: stream)).idxOf? sep = some code.length := by
          rw [padded, List.append_assoc, List.cons_append, idxOf?_append_cons hsep]
        have hshift := shiftPast_padded hzero.2 hfit
        have hrest (prep : Bool) := ih List.not_mem_nil List.not_mem_nil hzero.2
          (by simp; omega) prep (show stream.length < turns by omega)
        rw [separatorLoop, hindex]
        cases code with
        | nil =>
            simp only [List.length_nil] at hshift ⊢
            rw [hshift, ← List.nil_append stream, hrest true]
            simp [unmarked, read, readSymbol, spaceIf]
        | cons first code =>
            have htake : (padded 257 (first :: code ++ sep :: stream)).take
                (first :: code).length = first :: code := by
              rw [padded, List.append_assoc, List.take_left' rfl]
            have hstring : cString (first :: code) = first :: code := by
              have h := cString_append_zeros hcode 0
              simpa using h
            simp only [List.length_cons] at htake hshift ⊢
            rw [htake, hstring, hshift, ← List.nil_append stream, hrest false]
            cases hlookup : lookupMorse (first :: code) <;>
              simp [unmarked, read, readSymbol, spaceIf, hlookup]
      · have hcons : code ++ s :: stream = (code ++ [s]) ++ stream := by simp
        rw [hcons, ih _ _ hzero.2 _ prep (by omega)]
        · simp [unmarked, read, readSymbol, hs, spaceIf]
        · rw [List.mem_append, not_or]
          exact ⟨hsep, by simpa using Ne.symm hs⟩
        · rw [List.mem_append, not_or]
          exact ⟨hcode, by simpa using hzero.1⟩
        · rw [List.length_append, List.length_singleton]
          omega

/-- A symbol that starts a triple prints the pending space first. -/
theorem readSymbol_starts (code : List UInt8) (prep : Bool) (s : UInt8) :
    readSymbol code prep true s =
      (spaceIf prep ++ (readSymbol code false false s).1,
        (readSymbol code false false s).2) := by
  by_cases hs : s = sep
  · subst hs
    by_cases hcode : code = []
    · simp [readSymbol, spaceIf, hcode]
    · cases hlookup : lookupMorse code <;> simp [readSymbol, spaceIf, hcode, hlookup]
  · simp [readSymbol, spaceIf, hs]

theorem read_starts (code : List UInt8) (prep : Bool) (s : UInt8)
    (stream : List (Bool × UInt8)) :
    read code prep ((true, s) :: stream) =
      (spaceIf prep ++ (read code false ((false, s) :: stream)).1,
        (read code false ((false, s) :: stream)).2) := by
  rw [read, read, readSymbol_starts]
  rcases readSymbol code false false s with ⟨printed, _ | state⟩ <;> simp

theorem read_append (code : List UInt8) (prep : Bool) (s t : List (Bool × UInt8)) :
    read code prep (s ++ t) =
      match read code prep s with
      | (printed, none) => (printed, none)
      | (printed, some state) =>
          (printed ++ (read state.1 state.2 t).1, (read state.1 state.2 t).2) := by
  induction s generalizing code prep with
  | nil => simp [read]
  | cons head s ih =>
      rcases head with ⟨starts, c⟩
      rw [List.cons_append, read, read]
      rcases readSymbol code prep starts c with ⟨printed, _ | ⟨code', prep'⟩⟩
      · rfl
      · simp only [ih]
        rcases read code' prep' s with ⟨printed', _ | state'⟩ <;> simp

theorem partial_nil : Partial [] :=
  ⟨by simp, by simp⟩

/-- What one symbol makes of a partial code. -/
theorem partial_of_readSymbol {seps : Nat} {code code' printed : List UInt8}
    {prep prep' starts : Bool} {s : UInt8} {stream : List UInt8} (hcode : Partial code)
    (hspread : Spread seps code.length (s :: stream))
    (hread : readSymbol code prep starts s = (printed, some (code', prep'))) :
    Partial code' ∧ ∃ seps', Spread seps' code'.length stream := by
  rw [Spread] at hspread
  unfold readSymbol at hread
  by_cases hs : s = sep
  · rw [if_pos hs] at hspread
    by_cases hnil : code = []
    · simp only [hs, ne_eq, not_true_eq_false, if_false, hnil, if_true, Prod.mk.injEq,
        Option.some.injEq] at hread
      rw [← hread.2.1]
      exact ⟨partial_nil, _, hspread.2⟩
    · cases hlookup : lookupMorse code with
      | none => simp [hs, hnil, hlookup] at hread
      | some c =>
          simp only [hs, ne_eq, not_true_eq_false, if_false, hnil, hlookup, Prod.mk.injEq,
            Option.some.injEq] at hread
          rw [← hread.2.1]
          exact ⟨partial_nil, _, hspread.2⟩
  · rw [if_neg hs] at hspread
    simp only [hs, ne_eq, not_false_eq_true, if_true, Prod.mk.injEq, Option.some.injEq] at hread
    rw [← hread.2.1, List.length_append, List.length_singleton]
    refine ⟨⟨by rw [List.length_append, List.length_singleton]; omega, ?_⟩, 0, hspread.2.2⟩
    intro t ht
    rcases List.mem_append.mp ht with h | h
    · exact hcode.2 t h
    · rw [List.mem_singleton.mp h]
      exact hspread.1

/-- Reading keeps the collected code short, as long as the stream is spread. -/
theorem partial_of_read {seps : Nat} {code code' printed : List UInt8}
    {prep prep' : Bool} {s t : List UInt8} (hcode : Partial code)
    (hspread : Spread seps code.length (s ++ t))
    (hread : read code prep (unmarked s) = (printed, some (code', prep'))) :
    Partial code' ∧ ∃ seps', Spread seps' code'.length t := by
  induction s generalizing code prep seps printed with
  | nil =>
      cases hread
      exact ⟨hcode, seps, hspread⟩
  | cons c s ih =>
      have hstep : read code prep (unmarked (c :: s)) =
          match readSymbol code prep false c with
          | (printed, none) => (printed, none)
          | (printed, some state) =>
              (printed ++ (read state.1 state.2 (unmarked s)).1,
                (read state.1 state.2 (unmarked s)).2) := rfl
      rw [hstep] at hread
      rcases hsymbol : readSymbol code prep false c with ⟨first, _ | ⟨code1, prep1⟩⟩
      · simp [hsymbol] at hread
      · rw [hsymbol] at hread
        rcases partial_of_readSymbol hcode hspread hsymbol with ⟨hcode1, seps1, hspread1⟩
        simp only [Prod.mk.injEq] at hread
        exact ih hcode1 hspread1 (Prod.ext rfl hread.2)

/-! ## Reading letters -/

/-- The symbols of the complete triples of a stream, which are all the decoder
gets. -/
def live : List UInt8 → List UInt8
  | a :: b :: c :: stream => a :: b :: c :: live stream
  | _ => []

/-- Letters of the cipher are neither newlines nor taken for the end of the
input. -/
theorem fmAlphabet_ne : ∀ letter ∈ fmAlphabet, letter ≠ eof ∧ letter ≠ newline := by
  decide +kernel

/-- One letter of the cipher: its triple is read from the buffer. -/
theorem morseDecryptLoop_letter {fmKey : List UInt8} {letter a b c : UInt8}
    (hletter : letter ∈ fmAlphabet)
    (hsearch : searchKey letter fmKey fractionatedTable = .ok [a, b, c])
    {code code' printed : List UInt8} (hcode : Partial code)
    (htriple : (0 : UInt8) ∉ [a, b, c]) {prep prep' : Bool}
    (hread : read code false (unmarked [a, b, c]) = (printed, some (code', prep')))
    (input : List UInt8) :
    morseDecryptLoop fmKey (padded 257 code) prep (letter :: input) =
      (morseDecryptLoop fmKey (padded 257 code') prep' input).map
        (Run.after (spaceIf prep ++ printed)) := by
  have hne := fmAlphabet_ne letter hletter
  have hlen : code.length ≤ 6 := hcode.1
  have hdecrypt : decryptmorse fmKey (padded 257 code) letter =
      .ok (padded 257 (code ++ [a, b, c])) := by
    rw [decryptmorse, hsearch]
    simp only [Except.map]
    rw [fillBuffer_padded hcode.zero_notMem (by simp; omega)]
  rw [morseDecryptLoop, if_neg hne.1, if_neg hne.2, hdecrypt]
  simp only [separatorLoop_padded hcode.sep_notMem hcode.zero_notMem htriple
    (show code.length + [a, b, c].length ≤ 257 by simp; omega) false
    (show [a, b, c].length < 257 by simp), hread]
  rfl

/-- No output in front of a run changes nothing. -/
theorem map_after_nil (run : Except Overrun Run) : run.map (Run.after []) = run := by
  cases run <;> rfl

theorem map_after_append (run : Except Overrun Run) (first second : List UInt8) :
    (run.map (Run.after second)).map (Run.after first) =
      run.map (Run.after (first ++ second)) := by
  cases run <;> simp [Except.map, Run.after]

/-- The letters of a cipher line: the complete triples are read in order. -/
theorem morseDecryptLoop_letters {fmKey letters stream : List UInt8}
    (hreads : ReadsBack fmKey letters stream) {seps : Nat} {code code' printed : List UInt8}
    (hcode : Partial code) (hspread : Spread seps code.length stream) {prep prep' : Bool}
    (hread : read code prep (marked 0 (live stream)) = (printed, some (code', prep')))
    (input : List UInt8) :
    morseDecryptLoop fmKey (padded 257 code) prep (letters ++ input) =
      (morseDecryptLoop fmKey (padded 257 code') prep' input).map (Run.after printed) := by
  induction hreads generalizing seps code prep printed with
  | @done stream hlen =>
      have hlive : live stream = [] := by
        rcases stream with _ | ⟨a, _ | ⟨b, _ | ⟨c, stream⟩⟩⟩ <;> simp [live] at hlen ⊢
        omega
      rw [hlive] at hread
      cases hread
      rw [map_after_nil]
      rfl
  | @triple letter a b c letters stream hletter hsearch _ ih =>
      have hzero : (0 : UInt8) ∉ [a, b, c] := by
        rcases spread_cons hspread with ⟨ha, _, _, h1, _⟩
        rcases spread_cons h1 with ⟨hb, _, _, h2, _⟩
        rcases spread_cons h2 with ⟨hc, _⟩
        have hne : ∀ s ∈ [dot, dash, sep], s ≠ 0 := by decide +kernel
        simp [(hne a ha).symm, (hne b hb).symm, (hne c hc).symm]
      have hmarked : marked 0 (live (a :: b :: c :: stream)) =
          (true, a) :: (unmarked [b, c] ++ marked 0 (live stream)) := rfl
      have hjoin : (false, a) :: (unmarked [b, c] ++ marked 0 (live stream)) =
          unmarked [a, b, c] ++ marked 0 (live stream) := rfl
      rw [hmarked, read_starts, hjoin, read_append] at hread
      rcases hfirst : read code false (unmarked [a, b, c]) with ⟨first, _ | ⟨code1, prep1⟩⟩
      · simp [hfirst] at hread
      · simp only [hfirst, Prod.mk.injEq] at hread
        rcases partial_of_read hcode (t := stream) hspread hfirst with ⟨hcode1, seps1, hspread1⟩
        rw [List.cons_append, morseDecryptLoop_letter hletter hsearch hcode hzero hfirst,
          ih hcode1 hspread1 (Prod.ext rfl hread.2), map_after_append, ← hread.1,
          List.append_assoc]

/-- A newline that finds the buffer free. -/
theorem morseDecryptLoop_newline_free (fmKey : List UInt8) (prep : Bool)
    (input : List UInt8) :
    morseDecryptLoop fmKey (padded 257 []) prep (newline :: input) =
      (morseDecryptLoop fmKey (padded 257 []) false input).map (Run.after [newline]) := by
  have hstring : cString (padded 257 []) = [] :=
    cString_append_zeros List.not_mem_nil 257
  have hloop := separatorLoop_padded List.not_mem_nil List.not_mem_nil List.not_mem_nil
    (show ([] : List UInt8).length + [].length ≤ 257 by simp) false
    (show ([] : List UInt8).length < 257 by simp)
  rw [List.nil_append] at hloop
  rw [morseDecryptLoop, if_neg (by decide), if_pos rfl, decryptNewline, if_pos hstring]
  simp only [hloop]
  rfl

/-- The comparison finds the character of a table entry. -/
theorem lookupMorse_morseCode {c : UInt8} (hc : Encodable c) :
    lookupMorse (morseCode c) = some c := by
  have htable : ∀ i, i < 90 → morseTable.getD i [] ≠ [] →
      lookupMorse (morseTable.getD i []) = some (UInt8.ofNat (i + 33)) := by
    decide +kernel
  have hlow : 33 ≤ c.toNat := UInt8.le_iff_toNat_le.mp hc.1
  have hindex : c.toNat - 33 < 90 := by
    by_contra h
    apply hc.2
    unfold morseCode
    rw [List.getD_eq_getElem?_getD, List.getElem?_eq_none (Nat.le_of_not_lt h)]
    rfl
  have hback : c.toNat - 33 + 33 = c.toNat := by omega
  rw [morseCode, htable _ hindex hc.2, hback, UInt8.ofNat_toNat]

theorem partial_morseCode (c : UInt8) : Partial (morseCode c) :=
  ⟨length_morseCode_le c, fun _ hs => morseCode_symbol hs⟩

/-- A newline that finds a code prints its character, but no pending space. -/
theorem morseDecryptLoop_newline_code (fmKey : List UInt8) (prep : Bool) {c : UInt8}
    (hc : Encodable c) (input : List UInt8) :
    morseDecryptLoop fmKey (padded 257 (morseCode c)) prep (newline :: input) =
      (morseDecryptLoop fmKey (padded 257 []) false input).map (Run.after [c, newline]) := by
  have hcode := partial_morseCode c
  have hlen := length_morseCode_le c
  have hstring : cString (padded 257 (morseCode c)) = morseCode c :=
    cString_append_zeros hcode.zero_notMem _
  have hclear : clearBuffer (padded 257 (morseCode c)) = List.replicate 257 0 :=
    clearBuffer_padded hcode.zero_notMem (by omega)
  have hloop := separatorLoop_padded List.not_mem_nil List.not_mem_nil List.not_mem_nil
    (show ([] : List UInt8).length + [].length ≤ 257 by simp) false
    (show ([] : List UInt8).length < 257 by simp)
  rw [List.nil_append, padded_nil] at hloop
  rw [morseDecryptLoop, if_neg (by decide), if_pos rfl, decryptNewline, hstring,
    if_neg hc.2, lookupMorse_morseCode hc, hclear]
  simp only [hloop]
  rfl

/-! ## Reading a line -/

theorem read_cons_mark (code : List UInt8) (prep starts : Bool) {s : UInt8} (hs : s ≠ sep)
    (stream : List (Bool × UInt8)) :
    read code prep ((starts, s) :: stream) =
      (spaceIf (prep && starts) ++ (read (code ++ [s]) (prep && !starts) stream).1,
        (read (code ++ [s]) (prep && !starts) stream).2) := by
  simp [read, readSymbol, hs]

/-- A separator behind another one leaves a space to be printed. -/
theorem read_cons_sep (prep starts : Bool) (stream : List (Bool × UInt8)) :
    read [] prep ((starts, sep) :: stream) =
      (spaceIf (prep && starts) ++ (read [] true stream).1, (read [] true stream).2) := by
  simp [read, readSymbol]

theorem spaceIf_split (prep starts : Bool) :
    spaceIf (prep && starts) ++ spaceIf (prep && !starts) = spaceIf prep := by
  cases prep <;> cases starts <;> rfl

/-- A code and its separator print the character, and the pending space in front
of it, wherever the triples are cut. -/
theorem read_code_sep {c : UInt8} (hc : Encodable c) {front code : List UInt8}
    (hcode : front ++ code = morseCode c) (prep : Bool) (k : Nat) (stream : List UInt8) :
    read front prep (marked k (code ++ sep :: stream)) =
      (spaceIf prep ++ c :: (read [] false (marked ((k + code.length + 1) % 3) stream)).1,
        (read [] false (marked ((k + code.length + 1) % 3) stream)).2) := by
  induction code generalizing front prep k with
  | nil =>
      rw [List.append_nil] at hcode
      subst hcode
      rw [List.nil_append, marked, read]
      simp only [readSymbol, ne_eq, not_true_eq_false, if_false, hc.2,
        lookupMorse_morseCode hc, spaceIf_split]
      simp
  | cons s code ih =>
      have hmem : s ∈ morseCode c := by
        rw [← hcode]
        simp
      have hs := morseCode_ne_sep hmem
      have hnext : ((k + 1) % 3 + code.length + 1) % 3 =
          (k + (s :: code).length + 1) % 3 := by
        rw [List.length_cons]
        omega
      rw [List.cons_append, marked, read_cons_mark _ _ _ hs,
        ih (by rw [← hcode]; simp), hnext, ← spaceIf_split prep (decide (k = 0))]
      simp

/-- A triple starts among {lit}`n` symbols that begin at position {lit}`k`. -/
def crosses : Nat → Nat → Bool
  | _, 0 => false
  | k, n + 1 => decide (k = 0) || crosses ((k + 1) % 3) n

/-- Only a code of one or two symbols fits behind a separator in the last
triple. -/
theorem crosses_eq_false_iff : ∀ k, k < 3 → ∀ n, n < 7 → (k + n) % 3 = 0 → n ≠ 0 →
    (crosses k n = false ↔ n ≤ 2) := by
  decide

/-- A code without separator is collected; a pending space is printed if a triple
starts inside it. -/
theorem read_code_end (front code : List UInt8) (hcode : ∀ s ∈ code, s ≠ sep) (prep : Bool)
    (k : Nat) :
    read front prep (marked k code) =
      (spaceIf (prep && crosses k code.length),
        some (front ++ code, prep && !crosses k code.length)) := by
  induction code generalizing front prep k with
  | nil => simp [marked, read, crosses, spaceIf]
  | cons s code ih =>
      have hs := hcode s List.mem_cons_self
      rw [marked, read_cons_mark _ _ _ hs,
        ih (front ++ [s]) (fun t ht => hcode t (List.mem_cons_of_mem s ht))]
      cases prep <;> by_cases hk : k = 0 <;> simp [hk, crosses, spaceIf]

/-- A line whose last letter is followed by a separator is printed whole. -/
theorem read_body_sep {line : List UInt8} (hline : Spaced line) (prep : Bool) (k : Nat)
    (stream : List UInt8) :
    read [] prep (marked k (lineBody line ++ sep :: stream)) =
      (spaceIf prep ++
          (line ++ (read [] false (marked ((k + (lineBody line).length + 1) % 3) stream)).1),
        (read [] false (marked ((k + (lineBody line).length + 1) % 3) stream)).2) := by
  induction hline generalizing prep k with
  | @last c hc =>
      rw [lineBody, read_code_sep hc (List.nil_append _)]
      rfl
  | @letter c line hc hline ih =>
      have hnext : ((k + (morseCode c).length + 1) % 3 + (lineBody line).length + 1) % 3 =
          (k + (lineBody (c :: line)).length + 1) % 3 := by
        rw [lineBody_letter c hline, List.length_append, List.length_cons]
        omega
      rw [← hnext, lineBody_letter c hline, List.append_assoc, List.cons_append,
        read_code_sep hc (List.nil_append _), ih]
      simp [spaceIf]
  | @word c line hc hline ih =>
      have hnext : (((k + (morseCode c).length + 1) % 3 + 1) % 3 +
          (lineBody line).length + 1) % 3 =
            (k + (lineBody (c :: space :: line)).length + 1) % 3 := by
        rw [lineBody_word, List.length_append, List.length_cons, List.length_cons]
        omega
      rw [← hnext, lineBody_word, List.append_assoc, List.cons_append, List.cons_append,
        read_code_sep hc (List.nil_append _), marked, read_cons_sep, ih]
      simp [spaceIf]

/-- The line ends with a word of one character whose code has at most two
symbols, behind another word. -/
def EndsShort (line : List UInt8) : Prop :=
  ∃ before c, line = before ++ [space, c] ∧ (morseCode c).length ≤ 2

theorem endsShort_cons (d : UInt8) {line : List UInt8} (hne : line ≠ []) :
    EndsShort (d :: line) ↔
      EndsShort line ∨ d = space ∧ ∃ c, line = [c] ∧ (morseCode c).length ≤ 2 := by
  constructor
  · rintro ⟨before, c, heq, hshort⟩
    cases before with
    | nil =>
        rw [List.nil_append, List.cons.injEq] at heq
        exact Or.inr ⟨heq.1, c, heq.2, hshort⟩
    | cons e before =>
        rw [List.cons_append, List.cons.injEq] at heq
        exact Or.inl ⟨before, c, heq.2, hshort⟩
  · rintro (⟨before, c, heq, hshort⟩ | ⟨rfl, c, rfl, hshort⟩)
    · exact ⟨d :: before, c, by rw [heq, List.cons_append], hshort⟩
    · exact ⟨[], c, rfl, hshort⟩

/-- A letter in front of a line does not change how the line ends. -/
theorem endsShort_letter {c : UInt8} (hc : Encodable c) (prep : Bool) {line : List UInt8}
    (hne : line ≠ []) : EndsShort (spaceIf prep ++ c :: line) ↔ EndsShort line := by
  have hspace := ne_space_of_encodable hc
  cases prep <;> simp [spaceIf, endsShort_cons, hne, hspace]

theorem not_endsShort_singleton (c : UInt8) : ¬ EndsShort [c] := by
  rintro ⟨before, d, heq, _⟩
  have hlen := congrArg List.length heq
  simp at hlen

/-- What is printed and what is pending when a line arrives without its final
separators: the pending space is still to be printed exactly when the line ends
with a short word. -/
theorem read_body_end {line : List UInt8} (hline : Spaced line) (prep : Bool) {k : Nat}
    (hk : k < 3) (hend : (k + (lineBody line).length) % 3 = 0) :
    ∃ printed c prep', read [] prep (marked k (lineBody line)) =
        (printed, some (morseCode c, prep')) ∧ Encodable c ∧
      printed ++ (spaceIf prep' ++ [c]) = spaceIf prep ++ line ∧
      (prep' = true ↔ EndsShort (spaceIf prep ++ line)) := by
  induction hline generalizing prep k with
  | @last c hc =>
      rw [lineBody] at hend ⊢
      have hread := read_code_end [] (morseCode c) (fun s hs => morseCode_ne_sep hs) prep k
      refine ⟨_, c, _, hread, hc, ?_, ?_⟩
      · rw [← List.append_assoc, spaceIf_split]
      · cases prep with
        | false =>
            simp only [Bool.false_and, Bool.false_eq_true, false_iff]
            exact not_endsShort_singleton c
        | true =>
            have hlen := length_morseCode_le c
            have hcross := crosses_eq_false_iff k hk (morseCode c).length (by omega) hend
              (by simpa using hc.2)
            have hends : EndsShort (spaceIf true ++ [c]) ↔ (morseCode c).length ≤ 2 := by
              rw [show spaceIf true ++ [c] = space :: [c] from rfl, endsShort_cons _ (by simp)]
              simp [not_endsShort_singleton]
            rw [hends, ← hcross]
            simp
  | @letter c line hc hline ih =>
      have hends : EndsShort (spaceIf prep ++ c :: line) ↔ EndsShort (spaceIf false ++ line) :=
        endsShort_letter hc prep hline.ne_nil
      have hend' : ((k + (morseCode c).length + 1) % 3 + (lineBody line).length) % 3 = 0 := by
        rw [lineBody_letter c hline, List.length_append, List.length_cons] at hend
        omega
      rcases ih false (Nat.mod_lt _ (by decide)) hend' with
        ⟨printed, d, prep', hread, hd, hprinted, hprep⟩
      refine ⟨spaceIf prep ++ c :: printed, d, prep', ?_, hd, ?_, by rw [hends, hprep]⟩
      · rw [lineBody_letter c hline, read_code_sep hc (List.nil_append _), hread]
      · rw [List.append_assoc, List.cons_append, hprinted]
        rfl
  | @word c line hc hline ih =>
      have hends : EndsShort (spaceIf prep ++ c :: space :: line) ↔
          EndsShort (spaceIf true ++ line) :=
        endsShort_letter hc prep (List.cons_ne_nil space line)
      have hend' : (((k + (morseCode c).length + 1) % 3 + 1) % 3 +
          (lineBody line).length) % 3 = 0 := by
        rw [lineBody_word, List.length_append, List.length_cons, List.length_cons] at hend
        omega
      rcases ih true (Nat.mod_lt _ (by decide)) hend' with
        ⟨printed, d, prep', hread, hd, hprinted, hprep⟩
      refine ⟨spaceIf prep ++ c :: printed, d, prep', ?_, hd, ?_, by rw [hends, hprep]⟩
      · rw [lineBody_word, read_code_sep hc (List.nil_append _), marked, read_cons_sep, hread]
        simp [spaceIf]
      · rw [List.append_assoc, List.cons_append, hprinted]
        rfl

/-! ## Encrypting and decrypting a line -/

theorem live_append {s : List UInt8} (hs : s.length % 3 = 0) (t : List UInt8) :
    live (s ++ t) = s ++ live t := by
  induction s using pending.induct with
  | case1 a b c s ih =>
      have hs' : s.length % 3 = 0 := by
        simp only [List.length_cons] at hs
        omega
      simp only [List.cons_append, live, ih hs']
  | case2 s hshort =>
      have hlen := length_pending_lt s
      rw [pending.eq_2 s hshort] at hlen
      have hnil : s = [] := List.length_eq_zero_iff.mp (by omega)
      rw [hnil]
      rfl

/-- A line that decryption does not give back: it ends with a short word, and
its final separators do not reach the cipher. -/
def LosesSpace (line : List UInt8) : Prop :=
  EndsShort line ∧ (lineBody line).length % 3 = 0

/-- The decoder on the cipher of a line: the line, or the line without its last
space. -/
theorem morseDecryptLoop_line {fmKey letters line : List UInt8} (hline : Spaced line)
    (hreads : ReadsBack fmKey letters (lineBody line ++ [sep, sep])) :
    ∃ decoded, (LosesSpace line → decoded.length < line.length) ∧
      (¬ LosesSpace line → decoded = line) ∧
      ∀ input, morseDecryptLoop fmKey (padded 257 []) false (letters ++ newline :: input) =
        (morseDecryptLoop fmKey (padded 257 []) false input).map
          (Run.after (decoded ++ [newline])) := by
  have hspread : Spread 0 ([] : List UInt8).length (lineBody line ++ [sep, sep]) :=
    spread_body hline 0
  have hmod := Nat.mod_lt (lineBody line).length (show 0 < 3 by decide)
  have hletters {code printed : List UInt8} {prep : Bool} (hread :
      read [] false (marked 0 (live (lineBody line ++ [sep, sep]))) =
        (printed, some (code, prep))) (input : List UInt8) :=
    morseDecryptLoop_letters hreads partial_nil hspread hread (newline :: input)
  rcases Nat.eq_zero_or_pos ((lineBody line).length % 3) with hzero | hpos
  · -- both separators are dropped, and the newline finds the last code
    have hlive : live (lineBody line ++ [sep, sep]) = lineBody line := by
      rw [live_append hzero]
      exact List.append_nil _
    rw [hlive] at hletters
    rcases read_body_end hline false (show 0 < 3 by decide) (by simpa using hzero) with
      ⟨printed, c, prep, hread, hc, hprinted, hprep⟩
    refine ⟨printed ++ [c], ?_, ?_, ?_⟩
    · intro hloses
      rw [hprep.mpr hloses.1] at hprinted
      have hlen := congrArg List.length hprinted
      simp [spaceIf] at hlen
      simp only [List.length_append, List.length_singleton]
      omega
    · intro hkeeps
      have hprep' : prep = false := by
        rw [← Bool.not_eq_true, hprep]
        exact fun hends => hkeeps ⟨hends, hzero⟩
      rw [hprep'] at hprinted
      simpa [spaceIf] using hprinted
    · intro input
      rw [hletters hread, morseDecryptLoop_newline_code fmKey prep hc, map_after_append]
      simp
  · -- a separator behind the last code prints it
    have hkeeps : ¬ LosesSpace line := fun h => by
      have hzero := h.2
      omega
    refine ⟨line, fun h => absurd h hkeeps, fun _ => rfl, ?_⟩
    intro input
    have hread : ∃ prep, read [] false (marked 0 (live (lineBody line ++ [sep, sep]))) =
        (line, some ([], prep)) := by
      rcases Nat.lt_or_ge 1 ((lineBody line).length % 3) with htwo | hone
      · have hlive : live (lineBody line ++ [sep, sep]) = lineBody line ++ [sep] := by
          have hlen : (lineBody line ++ [sep]).length % 3 = 0 := by
            rw [List.length_append, List.length_singleton]
            omega
          have happend := live_append hlen [sep]
          rw [List.append_assoc] at happend
          exact happend.trans (List.append_nil _)
        refine ⟨false, ?_⟩
        rw [hlive, read_body_sep hline]
        simp [marked, read, spaceIf]
      · have hlive : live (lineBody line ++ [sep, sep]) = lineBody line ++ [sep, sep] := by
          have hlen : (lineBody line ++ [sep, sep]).length % 3 = 0 := by
            rw [List.length_append]
            simp only [List.length_cons, List.length_nil]
            omega
          have happend := live_append hlen []
          rw [List.append_nil] at happend
          exact happend.trans (List.append_nil _)
        refine ⟨true, ?_⟩
        rw [hlive, read_body_sep hline]
        simp [marked, read, readSymbol, spaceIf]
    rcases hread with ⟨prep, hread⟩
    rw [hletters hread, morseDecryptLoop_newline_free, map_after_append]

/-! ## Whole messages -/

/-- A line of a message: empty, or words separated by single spaces. -/
def MessageLine (line : List UInt8) : Prop :=
  line = [] ∨ Spaced line

/-- The lines, each with its newline. -/
def messageText (lines : List (List UInt8)) : List UInt8 :=
  lines.flatMap (· ++ [newline])

theorem encodable_or_space_of_spaced {line : List UInt8} (hline : Spaced line) :
    ∀ c ∈ line, Accepted c ∧ c ≠ newline := by
  have hspace : Accepted space ∧ space ≠ newline := ⟨Or.inl rfl, by decide⟩
  induction hline with
  | last hc =>
      intro c hmem
      rw [List.mem_singleton.mp hmem]
      exact ⟨Or.inr hc, ne_newline_of_encodable hc⟩
  | letter hc _ ih =>
      intro c hmem
      rcases List.mem_cons.mp hmem with rfl | h
      · exact ⟨Or.inr hc, ne_newline_of_encodable hc⟩
      · exact ih c h
  | word hc _ ih =>
      intro c hmem
      rcases List.mem_cons.mp hmem with rfl | h
      · exact ⟨Or.inr hc, ne_newline_of_encodable hc⟩
      · rcases List.mem_cons.mp h with rfl | h
        · exact hspace
        · exact ih c h

theorem messageLine_accepted {line : List UInt8} (hline : MessageLine line) :
    ∀ c ∈ line, Accepted c ∧ c ≠ newline := by
  rcases hline with rfl | hline
  · simp
  · exact encodable_or_space_of_spaced hline

/-- Both programs on one line of a message. -/
theorem line_roundTrip {key : List UInt8} (hkey : MorseKey key) {line : List UInt8}
    (hline : MessageLine line) :
    ∃ letters decoded, emit (generatemorsetable key) (lineSymbols true line) = .ok letters ∧
      (LosesSpace line → decoded.length < line.length) ∧
      (¬ LosesSpace line → decoded = line) ∧
      ∀ input, morseDecryptLoop (generatemorsetable key) (padded 257 []) false
          (letters ++ newline :: input) =
        (morseDecryptLoop (generatemorsetable key) (padded 257 []) false input).map
          (Run.after (decoded ++ [newline])) := by
  rcases hline with rfl | hline
  · refine ⟨[], [], rfl, ?_, fun _ => rfl, ?_⟩
    · rintro ⟨⟨before, c, heq, _⟩, _⟩
      simp at heq
    · intro input
      exact morseDecryptLoop_newline_free _ false input
  · rcases emit_readsBack hkey (spread_body hline 0) with ⟨letters, hemit, hreads⟩
    rcases morseDecryptLoop_line hline hreads with ⟨decoded, hloses, hkeeps, hdecrypt⟩
    refine ⟨letters, decoded, ?_, hloses, hkeeps, hdecrypt⟩
    rw [lineSymbols_spaced hline true]
    exact hemit

/-- Both loops on all lines: the text comes back exactly when no line loses its
space. -/
theorem lines_roundTrip {key : List UInt8} (hkey : MorseKey key) {lines : List (List UInt8)}
    (hlines : ∀ line ∈ lines, MessageLine line) :
    ∃ cipher decoded,
      morseEncryptLoop (generatemorsetable key) (padded 8 []) true (messageText lines) =
        .ok ⟨cipher, true⟩ ∧
      morseDecryptLoop (generatemorsetable key) (padded 257 []) false cipher =
        .ok ⟨decoded, true⟩ ∧
      decoded.length ≤ (messageText lines).length ∧
      (decoded = messageText lines ↔ ∀ line ∈ lines, ¬ LosesSpace line) := by
  induction lines with
  | nil => exact ⟨[], [], rfl, rfl, le_rfl, by simp [messageText]⟩
  | cons line lines ih =>
      have hline := hlines line List.mem_cons_self
      rcases ih fun l hl => hlines l (List.mem_cons_of_mem line hl) with
        ⟨cipher, decoded, hencrypt, hdecrypt, hlen, hiff⟩
      rcases line_roundTrip hkey hline with ⟨letters, first, hemit, hloses, hkeeps, hread⟩
      have htext : messageText (line :: lines) = line ++ newline :: messageText lines := by
        simp [messageText]
      have hfirst : first.length ≤ line.length := by
        by_cases h : LosesSpace line
        · exact (hloses h).le
        · rw [hkeeps h]
      refine ⟨letters ++ newline :: cipher, first ++ newline :: decoded, ?_, ?_, ?_, ?_⟩
      · have hroom := room_nil
        rw [htext, morseEncryptLoop_line _ hroom (messageLine_accepted hline),
          List.nil_append, hemit, ← padded_nil]
        simp only [hencrypt]
        simp [Except.map, Run.after]
      · rw [hread, hdecrypt]
        simp [Except.map, Run.after]
      · rw [htext, List.length_append, List.length_append, List.length_cons,
          List.length_cons]
        omega
      · rw [htext, List.forall_mem_cons, ← hiff]
        constructor
        · intro heq
          have hlenEq := congrArg List.length heq
          simp only [List.length_append, List.length_cons] at hlenEq
          have hsplit := List.append_inj heq (by omega)
          refine ⟨fun h => ?_, (List.cons.inj hsplit.2).2⟩
          have hlt := hloses h
          omega
        · rintro ⟨h, hrest⟩
          rw [hkeeps h, hrest]

/-- The first character is encrypted as if it followed a blank. -/
theorem morseEncrypt_eq_loop {key : List UInt8} {line : List UInt8} (hline : Spaced line)
    (input : List UInt8) :
    morseEncrypt key (line ++ newline :: input) =
      morseEncryptLoop (generatemorsetable key) (padded 8 []) true
        (line ++ newline :: input) := by
  have haccepted := encodable_or_space_of_spaced hline
  have hhead : ∃ c rest, line = c :: rest ∧ Encodable c := by
    cases hline with
    | last hc => exact ⟨_, _, rfl, hc⟩
    | letter hc _ => exact ⟨_, _, rfl, hc⟩
    | word hc _ => exact ⟨_, _, rfl, hc⟩
  rcases hhead with ⟨c, rest, rfl, hc⟩
  have hrest : ∀ d ∈ rest, Accepted d ∧ d ≠ newline :=
    fun d hd => haccepted d (List.mem_cons_of_mem c hd)
  rw [morseEncryptLoop_line _ room_nil haccepted, List.cons_append,
    morseEncrypt_cons key (Or.inr hc), morseEncryptLoop_line _ (room_charSymbols c) hrest,
    List.nil_append, lineSymbols, turnSymbols_encodable true hc, isSpace_of_encodable hc,
    charSymbols_of_encodable hc]
  rfl

/-- For every key {lit}`validargs` accepts and every message whose lines are
empty or words separated by single spaces, the first one not empty: decryption
gives back the message if and only if no line loses a space. -/
theorem morse_roundTrip_iff (key : List UInt8) (hkey : MorseKey key)
    (line : List UInt8) (lines : List (List UInt8)) (hfirst : Spaced line)
    (hlines : ∀ l ∈ lines, MessageLine l) :
    (∃ cipher, morseEncrypt key (messageText (line :: lines)) = .ok ⟨cipher, true⟩ ∧
        morseDecrypt key cipher = .ok ⟨messageText (line :: lines), true⟩) ↔
      ∀ l ∈ line :: lines, ¬ LosesSpace l := by
  have hall : ∀ l ∈ line :: lines, MessageLine l := by
    intro l hl
    rcases List.mem_cons.mp hl with rfl | h
    · exact Or.inr hfirst
    · exact hlines l h
  rcases lines_roundTrip hkey hall with ⟨cipher, decoded, hencrypt, hdecrypt, _, hiff⟩
  have htext : messageText (line :: lines) = line ++ newline :: messageText lines := by
    simp [messageText]
  rw [← hiff]
  unfold morseDecrypt
  rw [← padded_nil, htext, morseEncrypt_eq_loop hfirst, ← htext, hencrypt]
  constructor
  · rintro ⟨cipher', hcipher, hback⟩
    cases hcipher
    rw [hdecrypt] at hback
    cases hback
    rfl
  · intro heq
    rw [heq] at hdecrypt
    exact ⟨cipher, rfl, hdecrypt⟩

/-- The message {lit}`S EE`. -/
theorem morse_roundTrip_iff_kept :
    (∃ cipher, morseEncrypt [] (messageText [[83, 32, 69, 69]]) = .ok ⟨cipher, true⟩ ∧
        morseDecrypt [] cipher = .ok ⟨messageText [[83, 32, 69, 69]], true⟩) ↔
      ∀ l ∈ [[83, 32, 69, 69]], ¬ LosesSpace l :=
  morse_roundTrip_iff [] ⟨List.nodup_nil, List.nil_subset _⟩ [83, 32, 69, 69] []
    (.word (by decide +kernel) (.letter (by decide +kernel) (.last (by decide +kernel))))
    (by simp)

/-- The message {lit}`S E` comes back as {lit}`SE`. -/
theorem morse_not_roundTrip :
    ¬ ∀ (key : List UInt8), MorseKey key → ∀ (line : List UInt8) (lines : List (List UInt8)),
      Spaced line → (∀ l ∈ lines, MessageLine l) →
        ∃ cipher, morseEncrypt key (messageText (line :: lines)) = .ok ⟨cipher, true⟩ ∧
          morseDecrypt key cipher = .ok ⟨messageText (line :: lines), true⟩ := by
  intro hall
  have hrun := hall [] ⟨List.nodup_nil, List.nil_subset _⟩ [83, 32, 69] []
    (.word (by decide +kernel) (.last (by decide +kernel))) (by simp)
  rcases hrun with ⟨cipher, hencrypt, hdecrypt⟩
  have hcipher : morseEncrypt [] (messageText [[83, 32, 69]]) = .ok ⟨[65, 89, 10], true⟩ := by
    decide +kernel
  rw [hcipher] at hencrypt
  cases hencrypt
  exact absurd hdecrypt (by decide +kernel)

end SystemFundamentals.Cipher
