import SystemFundamentals.Cipher.Bounds
import SystemFundamentals.Cipher.MorseRoundTrip

/-!
# Every byte sequence through the fractionated Morse cipher

The encoder forgets how many blanks stand between two words, the blanks at both ends of a line,
and whether a blank was a tab.  The cipher of a line is that of its words, so that the decoder
cannot give back a line that is not the line of its words; a first character in front of the
loop, a last line without its newline and a byte that is taken for the end of the input are
treated apart.

Main results:

- Theorem {lit}`exists_words`: the symbols of a line are those of its words.
- Theorem {lit}`exists_decoded`: what the decoder makes of the cipher of any line.
- Theorem {lit}`morse_returns_iff`: which byte sequences decryption gives back.
-/

namespace SystemFundamentals.Cipher

/-! ## The words of a line -/

/-- The separators behind the words of a line that ends with a blank. -/
def trailing (blank : Bool) : List UInt8 :=
  if blank then [sep, sep] else []

theorem turnSymbols_blank {c : UInt8} (hc : isSpace c = true) :
    turnSymbols true c = [] ∧ turnSymbols false c = [sep, sep] := by
  have hchar : charSymbols c = [sep] := by
    rw [charSymbols, isBlankSymbol, hc]
    rfl
  simp [turnSymbols, hc, hchar]

/-- Blanks alone leave no symbols. -/
def OnlyBlanks (line : List UInt8) : Prop :=
  openSymbols true line = [] ∧ blankAfter true line = true

/-- The symbols of a line are those of its words. -/
theorem exists_words {line : List UInt8} (hplain : PlainLine line) :
    (OnlyBlanks line ∨ ∃ words, Spaced words ∧
        openSymbols true line = lineBody words ++ trailing (blankAfter true line) ∧
        words.length + (blankAfter true line).toNat ≤ line.length) ∧
      ∀ c, Encodable c → ∃ words, Spaced words ∧
        morseCode c ++ openSymbols false line =
          lineBody words ++ trailing (blankAfter false line) ∧
        words.length + (blankAfter false line).toNat ≤ (c :: line).length := by
  induction line with
  | nil =>
      refine ⟨Or.inl ⟨rfl, rfl⟩, ?_⟩
      intro c hc
      exact ⟨[c], .last hc, rfl, le_rfl⟩
  | cons d line ih =>
      have hd := hplain d List.mem_cons_self
      obtain ⟨hblank, hletter⟩ := ih fun c hc => hplain c (List.mem_cons_of_mem d hc)
      simp only [openSymbols, blankAfter]
      cases hspace : isSpace d with
      | true =>
          obtain ⟨hfirst, hnext⟩ := turnSymbols_blank hspace
          rw [hfirst, hnext, List.nil_append]
          constructor
          · rcases hblank with hblank | ⟨words, hwords, hsymbols, hlength⟩
            · left
              rw [OnlyBlanks, openSymbols, blankAfter, hspace, hfirst]
              exact hblank
            · exact Or.inr ⟨words, hwords, hsymbols, hlength.trans (Nat.le_succ _)⟩
          · intro c hc
            rcases hblank with ⟨hnone, hafter⟩ | ⟨words, hwords, hsymbols, hlength⟩
            · refine ⟨[c], .last hc, ?_, ?_⟩
              · rw [hnone, hafter]
                rfl
              · rw [hafter]
                simp
            · refine ⟨c :: space :: words, .word hc hwords, ?_, ?_⟩
              · rw [lineBody_word, hsymbols]
                simp
              · simp only [List.length_cons] at hlength ⊢
                omega
      | false =>
          have hcode := encodable_of_plain hd hspace
          rw [turnSymbols_encodable true hcode, turnSymbols_encodable false hcode]
          obtain ⟨words, hwords, hsymbols, hlength⟩ := hletter d hcode
          refine ⟨Or.inr ⟨words, hwords, hsymbols, hlength⟩, ?_⟩
          intro c hc
          refine ⟨c :: words, .letter hc hwords, ?_, ?_⟩
          · simp only [Bool.false_eq_true, if_false, List.append_assoc, hsymbols]
            rw [lineBody_letter c hwords]
            simp
          · simp only [List.length_cons] at hlength ⊢
            omega

/-! ## Letters behind the words -/

variable {key : List UInt8}

/-- What two separators leave open and a third one are no letter. -/
theorem emit_pending_third (hkey : MorseKey key) {stream letters : List UInt8}
    (h : emit (generatemorsetable key) (pending (stream ++ [sep, sep]) ++ [sep]) = .ok letters) :
    letters = [] := by
  have hlength := length_pending_lt (stream ++ [sep, sep])
  by_cases hshort : (pending (stream ++ [sep, sep])).length < 2
  · rw [emit_of_length_lt _ (by rw [List.length_append, List.length_singleton]; omega)] at h
    cases h
    rfl
  · have hseps : pending (stream ++ [sep, sep]) = [sep, sep] := by
      have hsuffix := List.suffix_of_suffix_length_le (pending_suffix (stream ++ [sep, sep]))
        (List.suffix_append stream [sep, sep]) (Nat.le_of_lt_succ hlength)
      exact hsuffix.eq_of_length (Nat.le_antisymm (Nat.le_of_lt_succ hlength)
        (Nat.le_of_not_lt hshort))
    have hthree := emit_seps hkey []
    rw [hseps] at h
    have hletters : emit (generatemorsetable key) [sep, sep, sep] = .ok letters := h
    rw [hthree] at hletters
    split_ifs at hletters
    cases hletters
    rfl

/-- A third separator adds no letter. -/
theorem emit_third (hkey : MorseKey key) {stream letters : List UInt8}
    (h : emit (generatemorsetable key) (stream ++ [sep, sep] ++ [sep]) = .ok letters) :
    emit (generatemorsetable key) (stream ++ [sep, sep]) = .ok letters := by
  rw [emit_append] at h
  cases hemit : emit (generatemorsetable key) (stream ++ [sep, sep]) with
  | error stop =>
      rw [hemit] at h
      cases h
  | ok before =>
      rw [hemit] at h
      cases hafter : emit (generatemorsetable key) (pending (stream ++ [sep, sep]) ++ [sep]) with
      | error stop =>
          rw [hafter] at h
          cases h
      | ok after =>
          rw [hafter] at h
          obtain rfl := emit_pending_third hkey hafter
          cases h
          rw [List.append_nil]

/-- The letters of a line are those of its words. -/
theorem emit_words (hkey : MorseKey key) {lead line words letters : List UInt8}
    (hsymbols : openSymbols true line = lineBody words ++ trailing (blankAfter true line))
    (h : emit (generatemorsetable key) (lead ++ lineSymbols true line) = .ok letters) :
    emit (generatemorsetable key) (lead ++ (lineBody words ++ [sep, sep])) = .ok letters := by
  rw [lineSymbols_eq, hsymbols] at h
  rw [← List.append_assoc]
  cases hafter : blankAfter true line with
  | true =>
      rw [hafter] at h
      apply emit_third hkey
      simpa [trailing] using h
  | false =>
      rw [hafter] at h
      simpa [trailing] using h

/-! ## Reading words -/

/-- The separators of a first character that is a blank, in front of a letter. -/
def indent (indented : Bool) : List UInt8 :=
  if indented then [sep, sep] else []

theorem length_indent_lt (indented : Bool) : (indent indented).length < 3 := by
  cases indented <;> decide

/-- The separators leave a space to be printed, and the words start behind them. -/
theorem read_indent (indented : Bool) (stream : List UInt8) :
    read [] false (marked 0 (indent indented ++ stream)) =
      read [] indented (marked (indent indented).length stream) := by
  cases indented with
  | false => rfl
  | true =>
      have hmarked : marked 0 (indent true ++ stream) =
          (true, sep) :: (false, sep) :: marked 2 stream := rfl
      rw [hmarked, read_cons_sep, read_cons_sep]
      rfl

theorem spread_indent {words : List UInt8} (hwords : Spaced words) (indented : Bool) :
    Spread 0 0 (indent indented ++ (lineBody words ++ [sep, sep])) := by
  cases indented with
  | false => exact spread_body hwords 0
  | true => simpa [indent, Spread] using spread_body hwords 2

/-- Words that arrive without a separator behind them are printed but for the last letter. -/
theorem read_body_open {words : List UInt8} (hwords : Spaced words) (prep : Bool) (k : Nat) :
    ∃ printed state, read [] prep (marked k (lineBody words)) = (printed, some state) ∧
      printed.length < (spaceIf prep ++ words).length := by
  induction hwords generalizing prep k with
  | @last c hc =>
      have hread := read_code_end [] (morseCode c) (fun s hs => morseCode_ne_sep hs) prep k
      refine ⟨_, _, hread, ?_⟩
      rw [List.length_append, List.length_singleton]
      cases prep <;> cases crosses k (morseCode c).length <;> simp [spaceIf]
  | @letter c words hc hwords ih =>
      obtain ⟨printed, state, hread, hlength⟩ :=
        ih false ((k + (morseCode c).length + 1) % 3)
      refine ⟨spaceIf prep ++ c :: printed, state, ?_, ?_⟩
      · rw [lineBody_letter c hwords, read_code_sep hc (List.nil_append _), hread]
      · simp only [spaceIf, Bool.false_eq_true, if_false, List.nil_append] at hlength
        simp only [List.length_append, List.length_cons]
        omega
  | @word c words hc hwords ih =>
      obtain ⟨printed, state, hread, hlength⟩ :=
        ih true (((k + (morseCode c).length + 1) % 3 + 1) % 3)
      refine ⟨spaceIf prep ++ c :: printed, state, ?_, ?_⟩
      · rw [lineBody_word, read_code_sep hc (List.nil_append _), marked, read_cons_sep, hread]
        simp [spaceIf]
      · simp only [spaceIf, if_true, List.length_append, List.length_singleton] at hlength
        simp only [List.length_append, List.length_cons]
        omega

theorem marked_append (k : Nat) (s t : List UInt8) :
    ∃ k', marked k (s ++ t) = marked k s ++ marked k' t := by
  induction s generalizing k with
  | nil => exact ⟨k, rfl⟩
  | cons c s ih =>
      obtain ⟨k', hmarked⟩ := ih ((k + 1) % 3)
      exact ⟨k', by rw [List.cons_append, marked, hmarked]; rfl⟩

/-- What has been printed stays printed. -/
theorem read_initial {s stream printed : List UInt8} (hs : s <+: stream)
    {state : List UInt8 × Bool} {code : List UInt8} {prep : Bool} {k : Nat}
    (hread : read code prep (marked k stream) = (printed, some state)) :
    ∃ printed' state', read code prep (marked k s) = (printed', some state') ∧
      printed'.length ≤ printed.length := by
  obtain ⟨t, rfl⟩ := hs
  obtain ⟨k', hmarked⟩ := marked_append k s t
  rw [hmarked, read_append] at hread
  rcases hfirst : read code prep (marked k s) with ⟨printed', _ | state'⟩
  · rw [hfirst] at hread
    cases hread
  · rw [hfirst] at hread
    simp only [Prod.mk.injEq] at hread
    refine ⟨printed', state', rfl, ?_⟩
    rw [← hread.1, List.length_append]
    exact Nat.le_add_right _ _

theorem live_initial (stream : List UInt8) : live stream <+: stream := by
  induction stream using live.induct with
  | case1 a b c stream ih =>
      rw [live]
      simpa using ih
  | case2 stream hshort =>
      rw [live.eq_2 stream hshort]
      exact List.nil_prefix

theorem Spread.of_append {s t : List UInt8} {seps marks : Nat} (h : Spread seps marks (s ++ t)) :
    Spread seps marks s := by
  induction s generalizing seps marks with
  | nil => trivial
  | cons c s ih =>
      rw [List.cons_append, Spread] at h
      rw [Spread]
      by_cases hc : c = sep
      · rw [if_pos hc] at h ⊢
        exact ⟨h.1, ih h.2⟩
      · rw [if_neg hc] at h ⊢
        exact ⟨h.1, h.2.1, ih h.2.2⟩

/-! ## Lines -/

/-- The cipher of a line is decrypted to this line. -/
def Decodes (key letters decoded : List UInt8) : Prop :=
  ∀ input, morseDecryptLoop (generatemorsetable key) (padded 257 []) false
      (letters ++ newline :: input) =
    (morseDecryptLoop (generatemorsetable key) (padded 257 []) false input).map
      (Run.after (decoded ++ [newline]))

/-- A line that decryption does not give back: it ends with a short word, and its final
separators do not reach the cipher. -/
def LosesLast (indented : Bool) (words : List UInt8) : Prop :=
  EndsShort (spaceIf indented ++ words) ∧
    ((indent indented).length + (lineBody words).length) % 3 = 0

/-- How many of the final separators the decoder gets. -/
theorem live_seps (front : List UInt8) :
    (front.length % 3 = 0 ∧ live (front ++ [sep, sep]) = front) ∨
      front.length % 3 ≠ 0 ∧
        ∃ rest, live (front ++ [sep, sep]) = front ++ sep :: rest ∧ (rest = [] ∨ rest = [sep]) := by
  have hmod := Nat.mod_lt front.length (show 0 < 3 by decide)
  by_cases hzero : front.length % 3 = 0
  · left
    rw [live_append hzero]
    exact ⟨hzero, List.append_nil front⟩
  · right
    refine ⟨hzero, ?_⟩
    by_cases htwo : front.length % 3 = 2
    · have hlength : (front ++ [sep]).length % 3 = 0 := by
        rw [List.length_append, List.length_singleton]
        omega
      have hlive := live_append hlength [sep]
      rw [List.append_assoc] at hlive
      exact ⟨[], hlive.trans (List.append_nil _), Or.inl rfl⟩
    · have hlength : (front ++ [sep, sep]).length % 3 = 0 := by
        rw [List.length_append, List.length_cons, List.length_singleton]
        omega
      have hlive := live_append hlength []
      rw [List.append_nil] at hlive
      exact ⟨[sep], hlive.trans (List.append_nil _), Or.inr rfl⟩

/-- The decoder on the words of a line: the words, or the words without their last space. -/
theorem exists_decoded_words (hkey : MorseKey key) (indented : Bool) {words letters : List UInt8}
    (hwords : Spaced words)
    (hemit : emit (generatemorsetable key) (indent indented ++ (lineBody words ++ [sep, sep])) =
      .ok letters) :
    ∃ decoded, Decodes key letters decoded ∧
      (LosesLast indented words → decoded.length < (spaceIf indented ++ words).length) ∧
      (¬ LosesLast indented words → decoded = spaceIf indented ++ words) := by
  have hspread := spread_indent hwords indented
  obtain ⟨letters', hemit', hreads⟩ := emit_readsBack hkey hspread
  rw [hemit] at hemit'
  cases hemit'
  have hletters {code printed : List UInt8} {prep : Bool} (hread :
      read [] false (marked 0 (live (indent indented ++ (lineBody words ++ [sep, sep])))) =
        (printed, some (code, prep))) (input : List UInt8) :=
    morseDecryptLoop_letters hreads partial_nil hspread hread (newline :: input)
  have hseps := live_seps (indent indented ++ lineBody words)
  rw [List.append_assoc, List.length_append] at hseps
  rcases hseps with ⟨hzero, hlive⟩ | ⟨hpos, rest, hlive, hrest⟩
  · -- both separators are dropped, and the newline finds the last code
    rw [hlive, read_indent] at hletters
    obtain ⟨printed, c, prep, hread, hc, hprinted, hprep⟩ :=
      read_body_end hwords indented (length_indent_lt indented) hzero
    refine ⟨printed ++ [c], ?_, ?_, ?_⟩
    · intro input
      rw [hletters hread, morseDecryptLoop_newline_code _ prep hc, map_after_append]
      simp
    · intro hloses
      rw [hprep.mpr hloses.1] at hprinted
      have hlength := congrArg List.length hprinted
      rw [List.length_append, List.length_append] at hlength
      simp only [spaceIf, if_true, List.length_singleton] at hlength
      rw [List.length_append, List.length_singleton]
      simp only [spaceIf]
      omega
    · intro hkeeps
      have hprep' : prep = false := by
        rw [← Bool.not_eq_true, hprep]
        exact fun hends => hkeeps ⟨hends, hzero⟩
      rw [hprep'] at hprinted
      simpa [spaceIf] using hprinted
  · -- a separator behind the last code prints it
    have hread : ∃ prep, read [] indented (marked (indent indented).length
        (lineBody words ++ sep :: rest)) = (spaceIf indented ++ words, some ([], prep)) := by
      rw [read_body_sep hwords]
      rcases hrest with rfl | rfl
      · exact ⟨false, by simp [marked, read]⟩
      · exact ⟨true, by simp [marked, read, readSymbol, spaceIf]⟩
    obtain ⟨prep, hread⟩ := hread
    rw [hlive, List.append_assoc, read_indent] at hletters
    refine ⟨spaceIf indented ++ words, ?_, fun h => absurd h.2 hpos, fun _ => rfl⟩
    intro input
    rw [hletters hread, morseDecryptLoop_newline_free, map_after_append]

/-- The lines that decryption gives back. -/
def Returned (indented : Bool) (line : List UInt8) : Prop :=
  Spaced line ∧ ¬ LosesLast indented line

/-- A line of words with other blanks is not given back: it is decrypted to a shorter line or to
its words. -/
def Altered (indented : Bool) (line decoded : List UInt8) : Prop :=
  decoded.length < (spaceIf indented ++ line).length ∨
    ∃ words, words ≠ line ∧ words.length = line.length ∧ decoded = spaceIf indented ++ words

/-- What the decoder makes of the cipher of a line. -/
theorem exists_decoded (hkey : MorseKey key) {indented : Bool} {line letters : List UInt8}
    (hplain : PlainLine line) (hwords : ¬ OnlyBlanks line)
    (hemit : emit (generatemorsetable key) (indent indented ++ lineSymbols true line) =
      .ok letters) :
    ∃ decoded, Decodes key letters decoded ∧
      (Returned indented line ∧ decoded = spaceIf indented ++ line ∨
        ¬ Returned indented line ∧ Altered indented line decoded) := by
  by_cases hspaced : Spaced line
  · rw [lineSymbols_spaced hspaced] at hemit
    obtain ⟨decoded, hdecodes, hloses, hkeeps⟩ :=
      exists_decoded_words hkey indented hspaced hemit
    refine ⟨decoded, hdecodes, ?_⟩
    by_cases hlast : LosesLast indented line
    · exact Or.inr ⟨fun h => h.2 hlast, Or.inl (hloses hlast)⟩
    · exact Or.inl ⟨⟨hspaced, hlast⟩, hkeeps hlast⟩
  · obtain ⟨words, hspaced', hsymbols, hlength⟩ := (exists_words hplain).1.resolve_left hwords
    obtain ⟨decoded, hdecodes, hloses, hkeeps⟩ :=
      exists_decoded_words hkey indented hspaced' (emit_words hkey hsymbols hemit)
    refine ⟨decoded, hdecodes, Or.inr ⟨fun h => hspaced h.1, ?_⟩⟩
    have hne : words ≠ line := by
      rintro rfl
      exact hspaced hspaced'
    by_cases hlast : LosesLast indented words
    · left
      have hshorter := hloses hlast
      rw [List.length_append] at hshorter ⊢
      omega
    · rcases Nat.lt_or_eq_of_le ((Nat.le_add_right _ _).trans hlength) with hlt | heq
      · left
        rw [hkeeps hlast, List.length_append, List.length_append]
        omega
      · exact Or.inr ⟨words, hne, heq, hkeeps hlast⟩

/-- Blanks alone are decrypted to the empty line. -/
theorem decodes_blanks {line letters : List UInt8} (hblanks : OnlyBlanks line)
    (hemit : emit (generatemorsetable key) (lineSymbols true line) = .ok letters) :
    Decodes key letters [] := by
  rw [lineSymbols_eq, hblanks.1, hblanks.2] at hemit
  cases hemit
  intro input
  exact morseDecryptLoop_newline_free _ false input

/-- What the decoder makes of a last line whose newline is missing: its last character or its
last blank is not printed. -/
theorem exists_decoded_open (hkey : MorseKey key) {indented : Bool} {line letters : List UInt8}
    (hplain : PlainLine line) (hwords : ¬ OnlyBlanks line)
    (hemit : emit (generatemorsetable key) (indent indented ++ openSymbols true line) =
      .ok letters) :
    ∃ decoded, morseDecryptLoop (generatemorsetable key) (padded 257 []) false letters =
        .ok ⟨decoded, true⟩ ∧ decoded.length < (spaceIf indented ++ line).length := by
  obtain ⟨words, hspaced, hsymbols, hlength⟩ := (exists_words hplain).1.resolve_left hwords
  rw [hsymbols] at hemit
  have hread : ∃ printed state, read [] false (marked 0 (indent indented ++
      (lineBody words ++ trailing (blankAfter true line)))) = (printed, some state) ∧
        printed.length < (spaceIf indented ++ line).length := by
    rw [read_indent]
    cases hafter : blankAfter true line with
    | true =>
        rw [hafter, Bool.toNat_true] at hlength
        have htrailing : trailing true = sep :: [sep] := rfl
        refine ⟨spaceIf indented ++ words, ([], true), ?_, ?_⟩
        · rw [htrailing, read_body_sep hspaced]
          simp [marked, read, readSymbol, spaceIf]
        · rw [List.length_append, List.length_append]
          omega
    | false =>
        rw [hafter, Bool.toNat_false] at hlength
        have htrailing : lineBody words ++ trailing false = lineBody words := List.append_nil _
        obtain ⟨printed, state, hread, hshort⟩ :=
          read_body_open hspaced indented (indent indented).length
        rw [htrailing]
        refine ⟨printed, state, hread, hshort.trans_le ?_⟩
        rw [List.length_append, List.length_append]
        omega
  have hspread : Spread 0 ([] : List UInt8).length (indent indented ++
      (lineBody words ++ trailing (blankAfter true line))) := by
    have hspread := spread_indent hspaced indented
    cases blankAfter true line with
    | true => exact hspread
    | false =>
        rw [← List.append_assoc] at hspread ⊢
        exact (List.append_nil (indent indented ++ lineBody words)).symm ▸ hspread.of_append
  obtain ⟨letters', hemit', hreads⟩ := emit_readsBack hkey hspread
  rw [hemit] at hemit'
  cases hemit'
  obtain ⟨printed, state, hread, hshort⟩ := hread
  obtain ⟨printed', state', hread', hle⟩ := read_initial (live_initial _) hread
  refine ⟨printed', ?_, hle.trans_lt hshort⟩
  have hletters := morseDecryptLoop_letters hreads partial_nil hspread hread' []
  rw [List.append_nil] at hletters
  rw [hletters]
  simp [morseDecryptLoop, Except.map, Run.after]

/-! ## The exit status -/

/-- The encrypting Morse loop ends with success if it has taken every character. -/
theorem morseEncryptLoop_success (fmKey : List UInt8) {lastCharSpace : Bool}
    {occupied : List UInt8} (hroom : Room lastCharSpace occupied) {input : List UInt8} {run : Run}
    (hrun : morseEncryptLoop fmKey (padded 8 occupied) lastCharSpace input = .ok run) :
    run.success = true ↔ ∀ c ∈ input.takeWhile (· ≠ eof), Accepted c := by
  induction input generalizing lastCharSpace occupied run with
  | nil =>
      cases hrun
      exact iff_of_true rfl (List.forall_mem_nil _)
  | cons c input ih =>
      rw [morseEncryptLoop] at hrun
      rw [List.takeWhile_cons]
      by_cases heof : c = eof
      · rw [if_pos heof] at hrun
        cases hrun
        rw [if_neg (by simpa using heof)]
        exact iff_of_true rfl (List.forall_mem_nil _)
      · rw [if_neg heof] at hrun
        rw [if_pos (by simpa using heof), List.forall_mem_cons]
        by_cases hc : Accepted c
        · have hnext := room_pending hroom c (isSpace c)
          have hshort := length_pending_lt (occupied ++ turnSymbols lastCharSpace c)
          rw [and_iff_right hc]
          rw [encryptTurn_eq fmKey hroom hc] at hrun
          cases hturn : emit fmKey (occupied ++ turnSymbols lastCharSpace c) with
          | error stop =>
              rw [hturn] at hrun
              cases hrun
          | ok printed =>
              rw [hturn, Except.map] at hrun
              simp only at hrun
              by_cases hnewline : c = newline
              · rw [if_pos hnewline, clearBuffer_padded hnext.1 (show _ ≤ 8 by omega),
                  ← padded_nil] at hrun
                obtain ⟨rest, hrest, rfl⟩ := exists_of_map_eq_ok hrun
                exact (ih room_nil hrest : rest.success = true ↔ _)
              · rw [if_neg hnewline] at hrun
                obtain ⟨rest, hrest, rfl⟩ := exists_of_map_eq_ok hrun
                exact (ih hnext hrest : rest.success = true ↔ _)
        · rcases encryptTurn_of_not_accepted fmKey hroom hc with
            ⟨⟨printed, hturn⟩, -⟩ | ⟨hturn, -⟩
          · rw [hturn] at hrun
            cases hrun
            exact iff_of_false Bool.false_ne_true fun h => hc h.1
          · rw [hturn] at hrun
            cases hrun

/-- The encrypting Morse branch ends with success if it has taken every character. -/
theorem morseEncrypt_success {key input : List UInt8} {run : Run}
    (hrun : morseEncrypt key input = .ok run) :
    run.success = true ↔ ∀ c ∈ taken input, Accepted c := by
  rw [taken, List.forall_mem_cons]
  by_cases hc : Accepted (input.headD eof)
  · obtain ⟨c, rest, rfl⟩ : ∃ c rest, input = c :: rest := by
      cases input with
      | nil => exact absurd rfl (accepted_ne_eof hc)
      | cons c rest => exact ⟨c, rest, rfl⟩
    rw [and_iff_right hc]
    rw [List.headD_cons] at hc
    rw [morseEncrypt_cons key hc] at hrun
    exact morseEncryptLoop_success _ (room_charSymbols c) hrun
  · simp only [morseEncrypt, encryptmorse_of_not_accepted hc] at hrun
    split_ifs at hrun
    cases hrun
    exact iff_of_false Bool.false_ne_true fun h => hc h.1

/-! ## Comparing a line with what comes back -/

theorem Spaced.head {c : UInt8} {line : List UInt8} (h : Spaced (c :: line)) : Encodable c := by
  cases h with
  | last hc => exact hc
  | letter hc _ => exact hc
  | word hc _ => exact hc

theorem not_onlyBlanks {c : UInt8} (hc : Encodable c) (line : List UInt8) :
    ¬ OnlyBlanks (c :: line) := by
  rintro ⟨hsymbols, -⟩
  rw [openSymbols, turnSymbols_encodable true hc] at hsymbols
  exact hc.2 (List.append_eq_nil_iff.mp hsymbols).1

/-- What comes back is not longer than the line, and is the line only if the line is given back
and its indent, if there is one, is a space. -/
theorem decoded_iff {indented : Bool} {line decoded front : List UInt8}
    (h : Returned indented line ∧ decoded = spaceIf indented ++ line ∨
      ¬ Returned indented line ∧ Altered indented line decoded)
    (hfront : front.length = (spaceIf indented).length) :
    decoded.length ≤ (front ++ line).length ∧
      (decoded = front ++ line ↔ front = spaceIf indented ∧ Returned indented line) := by
  rw [List.length_append, hfront, ← List.length_append]
  rcases h with ⟨hreturned, rfl⟩ | ⟨hreturned, hshort | ⟨words, hne, hlength, rfl⟩⟩
  · refine ⟨le_rfl, ?_⟩
    rw [List.append_left_inj, and_iff_left hreturned, eq_comm]
  · refine ⟨hshort.le, iff_of_false ?_ fun h => hreturned h.2⟩
    rintro rfl
    rw [List.length_append, List.length_append] at hshort
    omega
  · refine ⟨?_, iff_of_false ?_ fun h => hreturned h.2⟩
    · rw [List.length_append, List.length_append, hlength]
    · intro heq
      exact hne (List.append_inj heq hfront.symm).2

/-- The lines behind the first one that decryption gives back. -/
def LineReturned (line : List UInt8) : Prop :=
  line = [] ∨ Returned false line

/-- The first lines that decryption gives back: the first character may be a space in front of
the words. -/
def FirstReturned (line : List UInt8) : Prop :=
  Returned false line ∨ ∃ rest, line = space :: rest ∧ Returned true rest

/-- A line behind the first one. -/
theorem exists_decoded_line (hkey : MorseKey key) {line letters : List UInt8}
    (hplain : PlainLine line)
    (hemit : emit (generatemorsetable key) (lineSymbols true line) = .ok letters) :
    ∃ decoded, Decodes key letters decoded ∧ decoded.length ≤ line.length ∧
      (decoded = line ↔ LineReturned line) := by
  by_cases hblanks : OnlyBlanks line
  · refine ⟨[], decodes_blanks hblanks hemit, Nat.zero_le _, ?_⟩
    constructor
    · intro heq
      exact Or.inl heq.symm
    · rintro (rfl | hreturned)
      · rfl
      · cases line with
        | nil => rfl
        | cons c line => exact absurd hblanks (not_onlyBlanks hreturned.1.head line)
  · obtain ⟨decoded, hdecodes, hcases⟩ :=
      @exists_decoded key hkey false _ _ hplain hblanks hemit
    obtain ⟨hle, hiff⟩ := @decoded_iff false _ _ [] hcases rfl
    refine ⟨decoded, hdecodes, hle, hiff.trans ?_⟩
    rw [LineReturned]
    constructor
    · rintro ⟨-, hreturned⟩
      exact Or.inr hreturned
    · rintro (rfl | hreturned)
      · exact absurd ⟨rfl, rfl⟩ hblanks
      · exact ⟨rfl, hreturned⟩

/-- A last line without its newline comes back shorter. -/
theorem exists_decoded_last (hkey : MorseKey key) {line letters : List UInt8}
    (hplain : PlainLine line)
    (hemit : emit (generatemorsetable key) (openSymbols true line) = .ok letters) :
    ∃ decoded, morseDecryptLoop (generatemorsetable key) (padded 257 []) false letters =
        .ok ⟨decoded, true⟩ ∧ decoded.length ≤ line.length ∧ (decoded = line ↔ line = []) := by
  by_cases hblanks : OnlyBlanks line
  · rw [hblanks.1] at hemit
    cases hemit
    exact ⟨[], rfl, Nat.zero_le _, eq_comm⟩
  · obtain ⟨decoded, hdecrypt, hshort⟩ :=
      @exists_decoded_open key hkey false _ _ hplain hblanks hemit
    have hlt : decoded.length < line.length := hshort
    refine ⟨decoded, hdecrypt, hlt.le, iff_of_false ?_ ?_⟩
    · rintro rfl
      exact absurd hlt (lt_irrefl _)
    · rintro rfl
      exact absurd hlt (Nat.not_lt_zero _)

/-! ## The first line -/

section First

variable {symbols : Bool → List UInt8 → List UInt8}
  (hsymbols : ∀ blank c line,
    symbols blank (c :: line) = turnSymbols blank c ++ symbols (isSpace c) line)

include hsymbols

/-- A first letter is encrypted as if it followed a blank. -/
theorem first_letter {c : UInt8} (hc : Encodable c) (line : List UInt8) :
    charSymbols c ++ symbols false line = symbols true (c :: line) := by
  rw [hsymbols, turnSymbols_encodable true hc, isSpace_of_encodable hc,
    charSymbols_of_encodable hc]
  rfl

/-- A first blank in front of a letter is an indent. -/
theorem first_indent {c d : UInt8} (hc : isBlankSymbol c = true) (hd : Encodable d)
    (line : List UInt8) :
    charSymbols c ++ symbols false (d :: line) = indent true ++ symbols true (d :: line) := by
  rw [hsymbols, hsymbols, turnSymbols_encodable true hd, turnSymbols_encodable false hd,
    charSymbols, if_pos hc]
  rfl

/-- A first blank in front of another one leaves three separators. -/
theorem first_blanks {c d : UInt8} (hc : isBlankSymbol c = true) (hd : isSpace d = true)
    (line : List UInt8) :
    charSymbols c ++ symbols false (d :: line) = sep :: sep :: sep :: symbols true line := by
  rw [hsymbols, (turnSymbols_blank hd).2, hd, charSymbols, if_pos hc]
  rfl

end First

theorem not_encodable_of_blank {c : UInt8} (hc : isBlankSymbol c = true) : ¬ Encodable c := by
  intro hcode
  rw [not_isBlankSymbol_of_encodable hcode] at hc
  cases hc

theorem not_firstReturned {c : UInt8} (hc : ¬ Encodable c) {line : List UInt8}
    (hline : ¬ Spaced line) : ¬ FirstReturned (c :: line) := by
  rintro (hreturned | ⟨rest, heq, hreturned⟩)
  · exact hc hreturned.1.head
  · cases heq
    exact hline hreturned.1

theorem emit_seps_ok (hkey : MorseKey key) {stream letters : List UInt8}
    (h : emit (generatemorsetable key) (sep :: sep :: sep :: stream) = .ok letters) :
    emit (generatemorsetable key) stream = .ok letters := by
  rw [emit_seps hkey] at h
  split_ifs at h
  exact h

/-- The first line of a text. -/
theorem exists_decoded_first (hkey : MorseKey key) {c : UInt8} {line letters : List UInt8}
    (hc : Accepted c) (hplain : PlainLine line)
    (hemit : emit (generatemorsetable key) (charSymbols c ++ lineSymbols false line) =
      .ok letters) :
    ∃ decoded, Decodes key letters decoded ∧ decoded.length ≤ (c :: line).length ∧
      (decoded = c :: line ↔ FirstReturned (c :: line)) := by
  have hsymbols : ∀ blank c line,
      lineSymbols blank (c :: line) = turnSymbols blank c ++ lineSymbols (isSpace c) line :=
    fun _ _ _ => rfl
  rcases hc with hblank | hcode
  · have hnot := not_encodable_of_blank hblank
    cases line with
    | nil =>
        have hthree : charSymbols c ++ lineSymbols false [] = [sep, sep, sep] := by
          rw [charSymbols, if_pos hblank]
          rfl
        rw [hthree] at hemit
        have hnone := emit_seps_ok hkey hemit
        cases hnone
        refine ⟨[], morseDecryptLoop_newline_free _ false, Nat.zero_le _, ?_⟩
        exact iff_of_false (by simp) (not_firstReturned hnot fun h => h.ne_nil rfl)
    | cons d line =>
        have hd := hplain d List.mem_cons_self
        have hrest : PlainLine line := fun e he => hplain e (List.mem_cons_of_mem d he)
        cases hspace : isSpace d with
        | true =>
            rw [first_blanks hsymbols hblank hspace] at hemit
            obtain ⟨decoded, hdecodes, hle, -⟩ :=
              exists_decoded_line hkey hrest (emit_seps_ok hkey hemit)
            refine ⟨decoded, hdecodes, hle.trans (Nat.le_add_right _ 2), iff_of_false ?_ ?_⟩
            · rintro rfl
              simp only [List.length_cons] at hle
              omega
            · refine not_firstReturned hnot fun h => not_encodable_of_blank ?_ h.head
              rw [isBlankSymbol, hspace]
              rfl
        | false =>
            have hcode := encodable_of_plain hd hspace
            rw [first_indent hsymbols hblank hcode] at hemit
            obtain ⟨decoded, hdecodes, hcases⟩ :=
              exists_decoded hkey hplain (not_onlyBlanks hcode line) hemit
            obtain ⟨hle, hiff⟩ := @decoded_iff true _ _ [c] hcases rfl
            refine ⟨decoded, hdecodes, hle, hiff.trans ?_⟩
            constructor
            · rintro ⟨hspaceIf, hreturned⟩
              cases hspaceIf
              exact Or.inr ⟨_, rfl, hreturned⟩
            · rintro (hreturned | ⟨rest, heq, hreturned⟩)
              · exact absurd hreturned.1.head hnot
              · cases heq
                exact ⟨rfl, hreturned⟩
  · rw [first_letter hsymbols hcode] at hemit
    have hwhole : PlainLine (c :: line) :=
      List.forall_mem_cons.mpr ⟨⟨Or.inr hcode, ne_newline_of_encodable hcode⟩, hplain⟩
    obtain ⟨decoded, hdecodes, hcases⟩ :=
      @exists_decoded key hkey false _ _ hwhole (not_onlyBlanks hcode line) hemit
    obtain ⟨hle, hiff⟩ := @decoded_iff false _ _ [] hcases rfl
    refine ⟨decoded, hdecodes, hle, hiff.trans ?_⟩
    constructor
    · rintro ⟨-, hreturned⟩
      exact Or.inl hreturned
    · rintro (hreturned | ⟨rest, heq, -⟩)
      · exact ⟨rfl, hreturned⟩
      · cases heq
        exact absurd hcode not_encodable_space

/-- A text of one line without a newline comes back shorter. -/
theorem exists_decoded_only (hkey : MorseKey key) {c : UInt8} {line letters : List UInt8}
    (hc : Accepted c) (hplain : PlainLine line)
    (hrun : morseEncryptLoop (generatemorsetable key) (padded 8 (charSymbols c)) false line =
      .ok ⟨letters, true⟩) :
    ∃ decoded, morseDecryptLoop (generatemorsetable key) (padded 257 []) false letters =
        .ok ⟨decoded, true⟩ ∧ decoded.length < (c :: line).length := by
  have hsymbols : ∀ blank c line,
      openSymbols blank (c :: line) = turnSymbols blank c ++ openSymbols (isSpace c) line :=
    fun _ _ _ => rfl
  cases line with
  | nil =>
      cases hrun
      exact ⟨[], rfl, Nat.succ_pos _⟩
  | cons d line =>
      rw [morseEncryptLoop_open _ (room_charSymbols c) (fun h => by cases h) hplain] at hrun
      obtain ⟨letters', hemit, heq⟩ := exists_of_map_eq_ok hrun
      cases heq
      have hd := hplain d List.mem_cons_self
      have hrest : PlainLine line := fun e he => hplain e (List.mem_cons_of_mem d he)
      rcases hc with hblank | hcode
      · cases hspace : isSpace d with
        | true =>
            rw [first_blanks hsymbols hblank hspace] at hemit
            obtain ⟨decoded, hdecrypt, hle, -⟩ :=
              exists_decoded_last hkey hrest (emit_seps_ok hkey hemit)
            exact ⟨decoded, hdecrypt, hle.trans_lt (Nat.lt_add_of_pos_right Nat.two_pos)⟩
        | false =>
            have hcode := encodable_of_plain hd hspace
            rw [first_indent hsymbols hblank hcode] at hemit
            exact exists_decoded_open hkey hplain (not_onlyBlanks hcode line) hemit
      · rw [first_letter hsymbols hcode] at hemit
        have hwhole : PlainLine (c :: d :: line) :=
          List.forall_mem_cons.mpr ⟨⟨Or.inr hcode, ne_newline_of_encodable hcode⟩, hplain⟩
        exact @exists_decoded_open key hkey false _ _ hwhole (not_onlyBlanks hcode _) hemit

/-! ## Whole texts -/

/-- A line and the lines behind it: both come back, or neither the text. -/
theorem append_line_iff {line first rest decoded : List UInt8} (hline : first.length ≤ line.length)
    (hrest : decoded.length ≤ rest.length) :
    (first ++ newline :: decoded).length ≤ (line ++ newline :: rest).length ∧
      (first ++ newline :: decoded = line ++ newline :: rest ↔ first = line ∧ decoded = rest) := by
  constructor
  · rw [List.length_append, List.length_append, List.length_cons, List.length_cons]
    omega
  · constructor
    · intro heq
      have hlength := congrArg List.length heq
      rw [List.length_append, List.length_append, List.length_cons, List.length_cons] at hlength
      obtain ⟨hfirst, hsecond⟩ := List.append_inj heq (by omega)
      exact ⟨hfirst, (List.cons.inj hsecond).2⟩
    · rintro ⟨rfl, rfl⟩
      rfl

/-- A line in front of the rest of a cipher. -/
theorem Decodes.append {letters decoded cipher rest : List UInt8} (h : Decodes key letters decoded)
    (hrest : morseDecryptLoop (generatemorsetable key) (padded 257 []) false cipher =
      .ok ⟨rest, true⟩) :
    morseDecryptLoop (generatemorsetable key) (padded 257 []) false
        (letters ++ newline :: cipher) = .ok ⟨decoded ++ newline :: rest, true⟩ := by
  rw [h, hrest]
  simp [Except.map, Run.after]

/-- A line in front of the rest of a text. -/
theorem morseEncryptLoop_split {fmKey : List UInt8} {blank : Bool} {occupied : List UInt8}
    (hroom : Room blank occupied) {line rest cipher : List UInt8} (hplain : PlainLine line)
    (hrun : morseEncryptLoop fmKey (padded 8 occupied) blank (line ++ newline :: rest) =
      .ok ⟨cipher, true⟩) :
    ∃ letters cipher', emit fmKey (occupied ++ lineSymbols blank line) = .ok letters ∧
      morseEncryptLoop fmKey (padded 8 []) true rest = .ok ⟨cipher', true⟩ ∧
      cipher = letters ++ newline :: cipher' := by
  rw [morseEncryptLoop_line fmKey hroom hplain] at hrun
  cases hemit : emit fmKey (occupied ++ lineSymbols blank line) with
  | error stop =>
      rw [hemit] at hrun
      cases hrun
  | ok letters =>
      rw [hemit] at hrun
      obtain ⟨⟨cipher', success⟩, hrest, heq⟩ := exists_of_map_eq_ok hrun
      obtain ⟨rfl, rfl⟩ := Run.mk.inj heq
      refine ⟨letters, cipher', rfl, hrest, ?_⟩
      rw [List.append_assoc]
      rfl

/-- The lines behind the first one. -/
theorem exists_decoded_lines (hkey : MorseKey key) {lines : List (List UInt8)}
    {last cipher : List UInt8} (hplain : ∀ line ∈ last :: lines, PlainLine line)
    (hrun : morseEncryptLoop (generatemorsetable key) (padded 8 []) true (messageOf lines last) =
      .ok ⟨cipher, true⟩) :
    ∃ decoded, morseDecryptLoop (generatemorsetable key) (padded 257 []) false cipher =
        .ok ⟨decoded, true⟩ ∧ decoded.length ≤ (messageOf lines last).length ∧
      (decoded = messageOf lines last ↔ last = [] ∧ ∀ line ∈ lines, LineReturned line) := by
  induction lines generalizing cipher with
  | nil =>
      have hlast := hplain last List.mem_cons_self
      have hopen := morseEncryptLoop_open (generatemorsetable key) room_nil (fun _ => by decide)
        hlast
      have hmessage : messageOf [] last = last := List.nil_append last
      rw [hmessage] at hrun ⊢
      rw [hopen, List.nil_append] at hrun
      obtain ⟨letters, hemit, heq⟩ := exists_of_map_eq_ok hrun
      cases heq
      obtain ⟨decoded, hdecrypt, hle, hiff⟩ := exists_decoded_last hkey hlast hemit
      refine ⟨decoded, hdecrypt, hle, hiff.trans ?_⟩
      rw [and_iff_left (List.forall_mem_nil _)]
  | cons line lines ih =>
      have hline := hplain line (List.mem_cons_of_mem last List.mem_cons_self)
      rw [messageOf_cons] at hrun ⊢
      obtain ⟨letters, cipher', hemit, hrest, rfl⟩ := morseEncryptLoop_split room_nil hline hrun
      have hlines : ∀ other ∈ last :: lines, PlainLine other := by
        intro other hother
        rcases List.mem_cons.mp hother with rfl | h
        · exact hplain _ List.mem_cons_self
        · exact hplain other (List.mem_cons_of_mem last (List.mem_cons_of_mem line h))
      obtain ⟨decoded, hdecrypt, hle, hiff⟩ := ih hlines hrest
      obtain ⟨first, hdecodes, hfirst, hreturned⟩ := exists_decoded_line hkey hline hemit
      obtain ⟨hlength, hsplit⟩ := append_line_iff hfirst hle
      refine ⟨first ++ newline :: decoded, hdecodes.append hdecrypt, hlength, hsplit.trans ?_⟩
      rw [hreturned, hiff, List.forall_mem_cons]
      exact and_left_comm

/-- The byte sequences that decryption gives back: lines that are given back, each with its
newline. -/
def TextReturned (text : List UInt8) : Prop :=
  ∃ line lines, text = messageText (line :: lines) ∧ FirstReturned line ∧
    ∀ other ∈ lines, LineReturned other

theorem messageText_cons (line : List UInt8) (lines : List (List UInt8)) :
    messageText (line :: lines) = line ++ newline :: messageOf lines [] := by
  simp [messageText, messageOf]

/-- What the decoder makes of the cipher of a text. -/
theorem exists_decoded_text (hkey : MorseKey key) {c : UInt8} {rest cipher : List UInt8}
    (hc : Accepted c) (hrest : ∀ d ∈ rest, Accepted d)
    (hrun : morseEncryptLoop (generatemorsetable key) (padded 8 (charSymbols c)) false rest =
      .ok ⟨cipher, true⟩) :
    ∃ decoded, morseDecryptLoop (generatemorsetable key) (padded 257 []) false cipher =
        .ok ⟨decoded, true⟩ ∧ decoded.length ≤ (c :: rest).length ∧
      (decoded = c :: rest → TextReturned (c :: rest)) := by
  obtain ⟨lines, last, rfl, hplain⟩ := exists_messageOf hrest
  have hlast := hplain last List.mem_cons_self
  cases lines with
  | nil =>
      have hmessage : messageOf [] last = last := List.nil_append last
      rw [hmessage] at hrun ⊢
      obtain ⟨decoded, hdecrypt, hshort⟩ := exists_decoded_only hkey hc hlast hrun
      refine ⟨decoded, hdecrypt, hshort.le, ?_⟩
      rintro rfl
      exact absurd hshort (lt_irrefl _)
  | cons line lines =>
      have hline := hplain line (List.mem_cons_of_mem last List.mem_cons_self)
      have hlines : ∀ other ∈ last :: lines, PlainLine other := by
        intro other hother
        rcases List.mem_cons.mp hother with rfl | h
        · exact hlast
        · exact hplain other (List.mem_cons_of_mem last (List.mem_cons_of_mem line h))
      rw [messageOf_cons] at hrun ⊢
      obtain ⟨letters, cipher', hemit, hrun', rfl⟩ :=
        morseEncryptLoop_split (room_charSymbols c) hline hrun
      obtain ⟨first, hdecodes, hfirst, hfirstIff⟩ := exists_decoded_first hkey hc hline hemit
      obtain ⟨decoded, hdecrypt, hle, hiff⟩ := exists_decoded_lines hkey hlines hrun'
      obtain ⟨hlength, hsplit⟩ := append_line_iff hfirst hle
      refine ⟨first ++ newline :: decoded, hdecodes.append hdecrypt, hlength, ?_⟩
      intro heq
      obtain ⟨rfl, hdecoded⟩ := hsplit.mp heq
      obtain ⟨rfl, hreturned⟩ := hiff.mp hdecoded
      exact ⟨c :: line, lines, (messageText_cons (c :: line) lines).symm, hfirstIff.mp rfl,
        hreturned⟩

/-- The encrypting loop stops at a byte that is taken for the end of the input. -/
theorem morseEncryptLoop_takeWhile (fmKey buffer : List UInt8) (blank : Bool)
    (input : List UInt8) :
    morseEncryptLoop fmKey buffer blank (input.takeWhile (· ≠ eof)) =
      morseEncryptLoop fmKey buffer blank input := by
  induction input generalizing buffer blank with
  | nil => rfl
  | cons c input ih =>
      by_cases heof : c = eof
      · rw [List.takeWhile_cons, if_neg (by simpa using heof), morseEncryptLoop,
          morseEncryptLoop, if_pos heof]
      · rw [List.takeWhile_cons, if_pos (by simpa using heof), morseEncryptLoop,
          morseEncryptLoop, if_neg heof, if_neg heof]
        simp only [ih]

/-- A line that is given back is a plain one, and its letters are found. -/
theorem LineReturned.encrypts (hkey : MorseKey key) {line : List UInt8} (h : LineReturned line) :
    PlainLine line ∧
      ∃ letters, emit (generatemorsetable key) (lineSymbols true line) = .ok letters := by
  rcases h with rfl | hreturned
  · exact ⟨List.forall_mem_nil _, [], rfl⟩
  · refine ⟨encodable_or_space_of_spaced hreturned.1, ?_⟩
    obtain ⟨letters, hemit, -⟩ := emit_readsBack hkey (spread_indent hreturned.1 false)
    rw [lineSymbols_spaced hreturned.1]
    exact ⟨letters, hemit⟩

/-- A first line that is given back is a character that can be encrypted and a plain line, and
its letters are found. -/
theorem FirstReturned.encrypts (hkey : MorseKey key) {line : List UInt8}
    (h : FirstReturned line) :
    ∃ c rest, line = c :: rest ∧ Accepted c ∧ PlainLine rest ∧
      ∃ letters, emit (generatemorsetable key) (charSymbols c ++ lineSymbols false rest) =
        .ok letters := by
  have hsymbols : ∀ blank c line,
      lineSymbols blank (c :: line) = turnSymbols blank c ++ lineSymbols (isSpace c) line :=
    fun _ _ _ => rfl
  rcases h with ⟨hspaced, -⟩ | ⟨rest, rfl, hspaced, -⟩
  · cases line with
    | nil => exact absurd rfl hspaced.ne_nil
    | cons c rest =>
        have hplain := encodable_or_space_of_spaced hspaced
        obtain ⟨letters, hemit, -⟩ := emit_readsBack hkey (spread_indent hspaced false)
        refine ⟨c, rest, rfl, (hplain c List.mem_cons_self).1,
          fun d hd => hplain d (List.mem_cons_of_mem c hd), letters, ?_⟩
        rw [first_letter hsymbols hspaced.head, lineSymbols_spaced hspaced]
        exact hemit
  · cases rest with
    | nil => exact absurd rfl hspaced.ne_nil
    | cons d rest =>
        obtain ⟨letters, hemit, -⟩ := emit_readsBack hkey (spread_indent hspaced true)
        refine ⟨space, d :: rest, rfl, Or.inl rfl, encodable_or_space_of_spaced hspaced,
          letters, ?_⟩
        rw [first_indent hsymbols rfl hspaced.head, lineSymbols_spaced hspaced]
        exact hemit

/-- For every key and every byte sequence: the encryption ends with success and its cipher is
decrypted to the sequence if and only if this consists of lines that are given back, each with
its newline. -/
theorem morse_returns_iff (hkey : MorseKey key) (text : List UInt8) :
    (∃ cipher, morseEncrypt key text = .ok ⟨cipher, true⟩ ∧
        morseDecrypt key cipher = .ok ⟨text, true⟩) ↔ TextReturned text := by
  unfold morseDecrypt
  rw [← padded_nil]
  constructor
  · rintro ⟨cipher, hencrypt, hdecrypt⟩
    have haccepted := (morseEncrypt_success hencrypt).mp rfl
    obtain ⟨hc, hrest⟩ := List.forall_mem_cons.mp haccepted
    cases text with
    | nil => exact absurd rfl (accepted_ne_eof hc)
    | cons c rest =>
        rw [List.headD_cons] at hc
        rw [List.tail_cons] at hrest
        rw [morseEncrypt_cons key hc, ← morseEncryptLoop_takeWhile] at hencrypt
        obtain ⟨decoded, hdecrypt', hle, hreturned⟩ := exists_decoded_text hkey hc hrest hencrypt
        rw [hdecrypt'] at hdecrypt
        cases hdecrypt
        -- what follows a byte 255 does not come back, so that there is none
        have hwhole : rest.takeWhile (· ≠ eof) = rest := by
          have hfront := List.takeWhile_prefix (l := rest) (fun d => decide (d ≠ eof))
          refine hfront.eq_of_length (Nat.le_antisymm hfront.length_le ?_)
          simpa using hle
        rw [hwhole] at hreturned
        exact hreturned rfl
  · rintro ⟨line, lines, rfl, hfirst, hlines⟩
    obtain ⟨c, rest, rfl, hc, hplain, letters, hemit⟩ := hfirst.encrypts hkey
    have hencrypts := fun other hother => (hlines other hother).encrypts hkey
    have hlinesPlain : ∀ other ∈ [] :: lines, PlainLine other :=
      List.forall_mem_cons.mpr ⟨List.forall_mem_nil _, fun other h => (hencrypts other h).1⟩
    have hrest := morseEncryptLoop_messageOf hencrypts (List.forall_mem_nil _)
    rw [openSymbols, emit_of_length_lt _ (by decide), ← padded_nil] at hrest
    obtain ⟨first, hdecodes, -, hfirstIff⟩ := exists_decoded_first hkey hc hplain hemit
    obtain ⟨decoded, hdecrypt, -, hiff⟩ := exists_decoded_lines hkey hlinesPlain hrest
    obtain rfl := hfirstIff.mpr hfirst
    obtain rfl := hiff.mpr ⟨rfl, hlines⟩
    rw [messageText_cons]
    refine ⟨letters ++ newline :: (cipherLines key lines ++ []), ?_, hdecodes.append hdecrypt⟩
    rw [List.cons_append, morseEncrypt_cons key hc,
      morseEncryptLoop_line _ (room_charSymbols c) hplain, hemit, ← padded_nil, hrest]
    simp [Except.map, Run.after]

end SystemFundamentals.Cipher
