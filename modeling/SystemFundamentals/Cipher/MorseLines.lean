import SystemFundamentals.Cipher.MorseStream
import SystemFundamentals.Cipher.TableContract

/-!
# Fractionated Morse, line by line

Is a message encrypted as the concatenation of its lines?  The encrypting loop starts every
line behind a newline with an empty buffer, but the first character of the message is
encrypted in front of the loop as if it followed a letter, and what is left in the buffer at
the end of the input is not printed.

Main results:

- Theorem {lit}`emit_isOk_iff`: when the letters of a stream are found.
- Theorem {lit}`morseEncryptLoop_messageOf`: what the loop prints for lines that follow a
  newline.
- Theorem {lit}`emit_firstSymbols_iff`: when the first line has the letters that it would have
  behind a newline.
- Theorem {lit}`emit_openSymbols_iff`: when the last line has its letters without its newline.
- Theorem {lit}`lineByLine_iff`: when a message is encrypted line by line.
-/

namespace SystemFundamentals.Cipher

/-! ## The letters of a stream -/

section Letters

variable {key : List UInt8}

/-- A symbol of the stream. -/
def IsSymbol (s : UInt8) : Prop :=
  s = dot ∨ s = dash ∨ s = sep

/-- Three separators stand where the stream is cut. -/
def SepAligned : List UInt8 → Prop
  | a :: b :: c :: stream => (a = sep ∧ b = sep ∧ c = sep) ∨ SepAligned stream
  | _ => False

/-- All triples but the one of three separators have a letter. -/
theorem triple_mem {a b c : UInt8} (ha : IsSymbol a) (hb : IsSymbol b) (hc : IsSymbol c)
    (hsep : ¬ (a = sep ∧ b = sep ∧ c = sep)) : [a, b, c] ∈ fractionatedTable := by
  rcases ha with rfl | rfl | rfl <;> rcases hb with rfl | rfl | rfl <;>
    rcases hc with rfl | rfl | rfl <;> first | decide | exact absurd ⟨rfl, rfl, rfl⟩ hsep

/-- Three separators have no letter, and with a {lit}`Z` in the key no end of the search. -/
theorem searchTriple_seps (hkey : MorseKey key) :
    searchTriple [sep, sep, sep] (generatemorsetable key) fractionatedTable =
      if 90 ∈ key then .error .overrun else .ok none := by
  have hsearch := (generatemorsetable_iff hkey).2.1 [sep, sep, sep]
  have hnot : [sep, sep, sep] ∉ fractionatedTable := by decide
  rw [or_iff_left hnot] at hsearch
  split_ifs with hz
  · by_contra hne
    exact hsearch.mp hne hz
  · rw [generatemorsetable_last hkey, if_neg hz, searchTriple_of_notMem
      (length_keyed fmAlphabet_nodup hkey) (zero_notMem_keyed hkey) _ hnot]
    rfl

/-- Every other triple has one. -/
theorem searchTriple_letter (hkey : MorseKey key) {a b c : UInt8} (ha : IsSymbol a)
    (hb : IsSymbol b) (hc : IsSymbol c) (hsep : ¬ (a = sep ∧ b = sep ∧ c = sep)) :
    ∃ letter ∈ fmAlphabet,
      searchTriple [a, b, c] (generatemorsetable key) fractionatedTable = .ok (some letter) ∧
        searchKey letter (generatemorsetable key) fractionatedTable = .ok [a, b, c] :=
  searchTriple_searchKey hkey (triple_mem ha hb hc hsep)

/-- The letters of a stream are found when those of all triples are, unless three separators
stand where the stream is cut and the search for them does not end. -/
theorem emit_isOk_iff_of_search {fmKey : List UInt8} {endless : Prop}
    (hletter : ∀ triple ∈ fractionatedTable,
      ∃ letter, searchTriple triple fmKey fractionatedTable = .ok letter)
    (hseps : (∃ letter, searchTriple [sep, sep, sep] fmKey fractionatedTable = .ok letter) ↔
      ¬ endless)
    {stream : List UInt8} (hstream : ∀ s ∈ stream, IsSymbol s) :
    (∃ letters, emit fmKey stream = .ok letters) ↔ (endless → ¬ SepAligned stream) := by
  induction stream using pending.induct with
  | case1 a b c stream ih =>
      simp only [List.mem_cons, forall_eq_or_imp] at hstream
      obtain ⟨ha, hb, hc, hrest⟩ := hstream
      have hemit : (∃ letters, emit fmKey (a :: b :: c :: stream) = .ok letters) ↔
          (∃ letter, searchTriple [a, b, c] fmKey fractionatedTable = .ok letter) ∧
            ∃ letters, emit fmKey stream = .ok letters := by
        rw [emit]
        cases searchTriple [a, b, c] fmKey fractionatedTable with
        | error stop => simp
        | ok letter => cases emit fmKey stream <;> simp [Except.map]
      rw [hemit, ih hrest, SepAligned]
      by_cases hsep : a = sep ∧ b = sep ∧ c = sep
      · obtain ⟨rfl, rfl, rfl⟩ := hsep
        rw [hseps]
        simp only [and_self, true_or, not_true, imp_false, and_iff_left_iff_imp]
        exact fun hnot hend => absurd hend hnot
      · rw [and_iff_right (hletter _ (triple_mem ha hb hc hsep)), or_iff_right hsep]
  | case2 stream hshort =>
      have hlen := length_pending_lt stream
      rw [pending.eq_2 stream hshort] at hlen
      rw [emit_of_length_lt _ hlen, SepAligned.eq_2 stream hshort]
      simp

/-- The letters of a stream are found unless three separators stand where it is cut and the
key has a {lit}`Z`. -/
theorem emit_isOk_iff (hkey : MorseKey key) {stream : List UInt8}
    (hstream : ∀ s ∈ stream, IsSymbol s) :
    (∃ letters, emit (generatemorsetable key) stream = .ok letters) ↔
      (90 ∈ key → ¬ SepAligned stream) := by
  refine emit_isOk_iff_of_search (fun triple htriple => ?_) ?_ hstream
  · obtain ⟨letter, -, hsearch, -⟩ := searchTriple_searchKey hkey htriple
    exact ⟨some letter, hsearch⟩
  · rw [searchTriple_seps hkey]
    by_cases hz : 90 ∈ key <;> simp [hz]

/-- No letter is a newline. -/
theorem newline_notMem_letters (hkey : MorseKey key) {stream letters : List UInt8}
    (hstream : ∀ s ∈ stream, IsSymbol s)
    (hletters : emit (generatemorsetable key) stream = .ok letters) : newline ∉ letters := by
  induction stream using pending.induct generalizing letters with
  | case1 a b c stream ih =>
      simp only [List.mem_cons, forall_eq_or_imp] at hstream
      obtain ⟨ha, hb, hc, hrest⟩ := hstream
      rw [emit] at hletters
      by_cases hsep : a = sep ∧ b = sep ∧ c = sep
      · obtain ⟨rfl, rfl, rfl⟩ := hsep
        rw [searchTriple_seps hkey] at hletters
        split_ifs at hletters with hz
        obtain ⟨rest, hemit, rfl⟩ := exists_of_map_eq_ok hletters
        exact ih hrest hemit
      · obtain ⟨letter, hletter, hsearch, -⟩ := searchTriple_letter hkey ha hb hc hsep
        rw [hsearch] at hletters
        obtain ⟨rest, hemit, rfl⟩ := exists_of_map_eq_ok hletters
        have hne : newline ≠ letter := by
          rintro rfl
          exact absurd hletter (by decide)
        rw [Option.toList_some, List.singleton_append, List.mem_cons, not_or]
        exact ⟨hne, ih hrest hemit⟩
  | case2 stream hshort =>
      have hlen := length_pending_lt stream
      rw [pending.eq_2 stream hshort] at hlen
      rw [emit_of_length_lt _ hlen] at hletters
      cases hletters
      exact List.not_mem_nil

/-- Three separators in front of a stream are nothing, or the end of the search. -/
theorem emit_seps (hkey : MorseKey key) (stream : List UInt8) :
    emit (generatemorsetable key) (sep :: sep :: sep :: stream) =
      if 90 ∈ key then .error .overrun else emit (generatemorsetable key) stream := by
  rw [emit, searchTriple_seps hkey]
  split_ifs
  · rfl
  · cases emit (generatemorsetable key) stream <;> rfl

/-- The first letter of a stream that does not start with three separators. -/
theorem emit_cons_ok (hkey : MorseKey key) {a b c : UInt8} {stream letters : List UInt8}
    (hstream : ∀ s ∈ a :: b :: c :: stream, IsSymbol s)
    (hsep : ¬ (a = sep ∧ b = sep ∧ c = sep))
    (h : emit (generatemorsetable key) (a :: b :: c :: stream) = .ok letters) :
    ∃ letter rest, letters = letter :: rest ∧
      searchKey letter (generatemorsetable key) fractionatedTable = .ok [a, b, c] := by
  simp only [List.mem_cons, forall_eq_or_imp] at hstream
  obtain ⟨ha, hb, hc, -⟩ := hstream
  obtain ⟨letter, -, hsearch, hback⟩ := searchTriple_letter hkey ha hb hc hsep
  rw [emit, hsearch] at h
  obtain ⟨rest, -, rfl⟩ := exists_of_map_eq_ok h
  exact ⟨letter, rest, rfl, hback⟩

/-- Two separators in front of a stream that starts with a mark change its first letter. -/
theorem emit_indented_ne (hkey : MorseKey key) {mark b c : UInt8}
    {stream stream' letters letters' : List UInt8} (hmark : mark ≠ sep)
    (hstream : ∀ s ∈ mark :: b :: c :: stream, IsSymbol s)
    (hstream' : ∀ s ∈ mark :: stream', IsSymbol s)
    (h : emit (generatemorsetable key) (mark :: b :: c :: stream) = .ok letters)
    (h' : emit (generatemorsetable key) (sep :: sep :: mark :: stream') = .ok letters') :
    letters' ≠ letters := by
  have hsymbols : ∀ s ∈ sep :: sep :: mark :: stream', IsSymbol s := by
    simp only [List.mem_cons, forall_eq_or_imp] at hstream' ⊢
    exact ⟨Or.inr (Or.inr rfl), Or.inr (Or.inr rfl), hstream'⟩
  obtain ⟨letter, rest, rfl, hback⟩ := emit_cons_ok hkey hstream (fun hall => hmark hall.1) h
  obtain ⟨letter', rest', rfl, hback'⟩ :=
    emit_cons_ok hkey hsymbols (fun hall => hmark hall.2.2) h'
  intro heq
  rw [(List.cons_eq_cons.mp heq).1, hback] at hback'
  exact hmark (List.cons_eq_cons.mp (Except.ok.inj hback')).1

end Letters

/-! ## Lines and what is left open -/

/-- Whether the loop has just read a blank, behind a line that it enters like this. -/
def blankAfter : Bool → List UInt8 → Bool
  | lastCharSpace, [] => lastCharSpace
  | _, c :: line => blankAfter (isSpace c) line

/-- The symbols of a line without the newline behind it. -/
def openSymbols : Bool → List UInt8 → List UInt8
  | _, [] => []
  | lastCharSpace, c :: line => turnSymbols lastCharSpace c ++ openSymbols (isSpace c) line

/-- A newline adds one separator behind a blank and two behind a letter. -/
theorem lineSymbols_eq (lastCharSpace : Bool) (line : List UInt8) :
    lineSymbols lastCharSpace line =
      openSymbols lastCharSpace line ++
        if blankAfter lastCharSpace line then [sep] else [sep, sep] := by
  induction line generalizing lastCharSpace with
  | nil => cases lastCharSpace <;> rfl
  | cons c line ih => rw [lineSymbols, ih, openSymbols, blankAfter, List.append_assoc]

theorem isSymbol_morseCode (c : UInt8) : ∀ s ∈ morseCode c, IsSymbol s := by
  intro s hs
  rcases morseCode_symbol hs with h | h
  · exact Or.inl h
  · exact Or.inr (Or.inl h)

theorem isSymbol_charSymbols (c : UInt8) : ∀ s ∈ charSymbols c, IsSymbol s := by
  intro s hs
  rw [charSymbols] at hs
  split_ifs at hs
  · exact Or.inr (Or.inr (List.mem_singleton.mp hs))
  · exact isSymbol_morseCode c s hs

theorem isSymbol_turnSymbols (lastCharSpace : Bool) (c : UInt8) :
    ∀ s ∈ turnSymbols lastCharSpace c, IsSymbol s := by
  intro s hs
  rw [turnSymbols, List.mem_append] at hs
  rcases hs with hs | hs
  · split_ifs at hs
    · cases hs
    · exact Or.inr (Or.inr (List.mem_singleton.mp hs))
  · split_ifs at hs
    · cases hs
    · exact isSymbol_charSymbols c s hs

theorem isSymbol_lineSymbols (lastCharSpace : Bool) (line : List UInt8) :
    ∀ s ∈ lineSymbols lastCharSpace line, IsSymbol s := by
  induction line generalizing lastCharSpace with
  | nil => exact isSymbol_turnSymbols lastCharSpace newline
  | cons c line ih =>
      intro s hs
      rw [lineSymbols, List.mem_append] at hs
      rcases hs with hs | hs
      · exact isSymbol_turnSymbols lastCharSpace c s hs
      · exact ih (isSpace c) s hs

/-- A line of the message: characters that can be encrypted, spaces and tabs. -/
def PlainLine (line : List UInt8) : Prop :=
  ∀ c ∈ line, Accepted c ∧ c ≠ newline

/-- A character of a line that is no blank can be encrypted. -/
theorem encodable_of_plain {c : UInt8} (hc : Accepted c ∧ c ≠ newline)
    (hspace : isSpace c = false) : Encodable c := by
  rcases hc.1 with hblank | hcode
  · rw [isBlankSymbol, hspace, Bool.false_or, beq_iff_eq] at hblank
    exact absurd hblank hc.2
  · exact hcode

/-- The loop at the end of the input: what is left in the buffer is not printed, and nothing of
a buffer that no turn has seen. -/
theorem morseEncryptLoop_open (fmKey : List UInt8) {lastCharSpace : Bool}
    {occupied : List UInt8} (hroom : Room lastCharSpace occupied) {line : List UInt8}
    (hshort : line = [] → occupied.length < 3) (hline : PlainLine line) :
    morseEncryptLoop fmKey (padded 8 occupied) lastCharSpace line =
      (emit fmKey (occupied ++ openSymbols lastCharSpace line)).map fun printed =>
        ⟨printed, true⟩ := by
  induction line generalizing lastCharSpace occupied with
  | nil =>
      rw [morseEncryptLoop, openSymbols, List.append_nil, emit_of_length_lt fmKey (hshort rfl)]
      rfl
  | cons c line ih =>
      have hc := hline c List.mem_cons_self
      have hnext := room_pending hroom c (isSpace c)
      have hrest := ih hnext (fun _ => length_pending_lt _)
        fun d hd => hline d (List.mem_cons_of_mem c hd)
      rw [morseEncryptLoop, if_neg (accepted_ne_eof hc.1), encryptTurn_eq fmKey hroom hc.1,
        openSymbols, ← List.append_assoc,
        emit_append fmKey (occupied ++ turnSymbols lastCharSpace c)]
      cases emit fmKey (occupied ++ turnSymbols lastCharSpace c) with
      | error stop => rfl
      | ok before =>
          simp only [Except.map, if_neg hc.2, hrest]
          simp only [bind, Except.bind, pure, Except.pure]
          cases emit fmKey (pending (occupied ++ turnSymbols lastCharSpace c) ++
            openSymbols (isSpace c) line) with
          | error stop => rfl
          | ok after => simp [Run.after]

/-! ## Messages as lines -/

/-- A message of lines that have their newline and a last one that has none. -/
def messageOf (lines : List (List UInt8)) (last : List UInt8) : List UInt8 :=
  lines.flatMap (fun line => line ++ [newline]) ++ last

/-- The letters for a line behind a newline. -/
def lineCipher (key line : List UInt8) : List UInt8 :=
  match emit (generatemorsetable key) (lineSymbols true line) with
  | .ok letters => letters
  | .error _ => []

variable {key : List UInt8}

theorem lineCipher_eq {line letters : List UInt8}
    (h : emit (generatemorsetable key) (lineSymbols true line) = .ok letters) :
    lineCipher key line = letters := by
  rw [lineCipher, h]

theorem messageOf_cons (line : List UInt8) (lines : List (List UInt8)) (last : List UInt8) :
    messageOf (line :: lines) last = line ++ newline :: messageOf lines last := by
  rw [messageOf, List.flatMap_cons, List.append_assoc, List.append_assoc]
  rfl

/-- The letters of the lines and their newlines. -/
def cipherLines (key : List UInt8) (lines : List (List UInt8)) : List UInt8 :=
  lines.flatMap fun line => lineCipher key line ++ [newline]

theorem cipherLines_cons (key line : List UInt8) (lines : List (List UInt8)) :
    cipherLines key (line :: lines) =
      lineCipher key line ++ newline :: cipherLines key lines := by
  rw [cipherLines, List.flatMap_cons, List.append_assoc]
  rfl

/-- The loop behind a newline. -/
theorem morseEncryptLoop_messageOf {lines : List (List UInt8)} {last : List UInt8}
    (hlines : ∀ line ∈ lines, PlainLine line ∧
      ∃ letters, emit (generatemorsetable key) (lineSymbols true line) = .ok letters)
    (hlast : PlainLine last) :
    morseEncryptLoop (generatemorsetable key) (List.replicate 8 0) true (messageOf lines last) =
      (emit (generatemorsetable key) (openSymbols true last)).map fun printed =>
        ⟨cipherLines key lines ++ printed, true⟩ := by
  induction lines with
  | nil => exact morseEncryptLoop_open _ room_nil (fun _ => by decide) hlast
  | cons line lines ih =>
      obtain ⟨hline, letters, hletters⟩ := hlines line List.mem_cons_self
      have hrest := ih fun other hother => hlines other (List.mem_cons_of_mem line hother)
      have hloop := morseEncryptLoop_line (generatemorsetable key) room_nil hline
        (messageOf lines last)
      rw [List.nil_append, hletters, hrest, padded_nil] at hloop
      rw [messageOf_cons, hloop]
      cases emit (generatemorsetable key) (openSymbols true last) with
      | error stop => rfl
      | ok printed =>
          simp only [Except.map, Run.after, cipherLines_cons, List.append_assoc,
            List.cons_append, List.nil_append, lineCipher_eq hletters]

/-! ## The end of the last line -/

theorem length_pending (stream : List UInt8) : (pending stream).length = stream.length % 3 := by
  induction stream using pending.induct with
  | case1 a b c stream ih =>
      rw [pending, ih, List.length_cons, List.length_cons, List.length_cons]
      omega
  | case2 stream hshort =>
      have hlen := length_pending_lt stream
      rw [pending.eq_2 stream hshort] at hlen ⊢
      omega

theorem pending_suffix (stream : List UInt8) : pending stream <:+ stream := by
  induction stream using pending.induct with
  | case1 a b c stream ih => exact ih.trans ⟨[a, b, c], rfl⟩
  | case2 stream hshort =>
      have hsame := pending.eq_2 stream hshort
      exact hsame.symm ▸ List.suffix_rfl

/-- Behind a blank the symbols end with two separators, unless only blanks were read. -/
theorem openSymbols_of_blankAfter {lastCharSpace : Bool} {line : List UInt8}
    (h : blankAfter lastCharSpace line = true) :
    (openSymbols lastCharSpace line = [] ∧ lastCharSpace = true) ∨
      [sep, sep] <:+ openSymbols lastCharSpace line := by
  induction line generalizing lastCharSpace with
  | nil => exact Or.inl ⟨rfl, h⟩
  | cons c line ih =>
      rw [openSymbols]
      rcases ih h with ⟨hnil, hspace⟩ | hsuffix
      · rw [hnil, List.append_nil, turnSymbols, hspace]
        cases lastCharSpace with
        | true => exact Or.inl ⟨rfl, rfl⟩
        | false =>
            have hblank : charSymbols c = [sep] := by
              rw [charSymbols, isBlankSymbol, hspace]
              rfl
            right
            rw [hblank]
            exact List.suffix_rfl
      · exact Or.inr (hsuffix.trans (List.suffix_append _ _))

/-- Behind a letter the symbols end with one of its marks. -/
theorem openSymbols_of_not_blankAfter {lastCharSpace : Bool} {line : List UInt8}
    (hline : PlainLine line) (h : blankAfter lastCharSpace line = false) :
    (line = [] ∧ lastCharSpace = false) ∨
      ∃ mark, mark ≠ sep ∧ [mark] <:+ openSymbols lastCharSpace line := by
  induction line generalizing lastCharSpace with
  | nil => exact Or.inl ⟨rfl, h⟩
  | cons c line ih =>
      right
      rw [openSymbols]
      rcases ih (fun d hd => hline d (List.mem_cons_of_mem c hd)) h with
        ⟨rfl, hspace⟩ | ⟨mark, hmark, hsuffix⟩
      · have hcode := encodable_of_plain (hline c List.mem_cons_self) hspace
        rcases List.eq_nil_or_concat (morseCode c) with hnil | ⟨front, mark, hconcat⟩
        · exact absurd hnil hcode.2
        · rw [List.concat_eq_append] at hconcat
          have hmem : mark ∈ morseCode c := by
            rw [hconcat]
            exact List.mem_append_right _ List.mem_cons_self
          refine ⟨mark, morseCode_ne_sep hmem, ?_⟩
          rw [openSymbols, List.append_nil, turnSymbols, hspace, charSymbols_of_encodable hcode,
            hconcat]
          simp only [Bool.false_eq_true, and_false, if_false]
          rw [← List.append_assoc]
          exact List.suffix_append _ _
      · exact ⟨mark, hmark, hsuffix.trans (List.suffix_append _ _)⟩

/-- No letter of a last line without its newline is lost. -/
def Ending (last : List UInt8) : Prop :=
  blankAfter true last = true ∨ (openSymbols true last).length % 3 = 0

theorem isSymbol_openSymbols (lastCharSpace : Bool) (line : List UInt8) :
    ∀ s ∈ openSymbols lastCharSpace line, IsSymbol s := by
  intro s hs
  apply isSymbol_lineSymbols lastCharSpace line
  rw [lineSymbols_eq]
  exact List.mem_append_left _ hs

/-- Behind two separators or fewer symbols the newline of a line adds no letter. -/
theorem emit_pending_blank (hkey : MorseKey key) {left : List UInt8} (hlength : left.length < 3)
    (hseps : 2 ≤ left.length → [sep, sep] <:+ left) {letters : List UInt8}
    (h : emit (generatemorsetable key) (left ++ [sep]) = .ok letters) : letters = [] := by
  by_cases htwo : 2 ≤ left.length
  · have hleft : left = [sep, sep] :=
      ((hseps htwo).eq_of_length (by rw [List.length_cons, List.length_singleton]; omega)).symm
    rw [hleft, List.cons_append, List.singleton_append, emit_seps hkey] at h
    split_ifs at h
    exact (Except.ok.inj h).symm
  · rw [emit_of_length_lt _ (by rw [List.length_append, List.length_singleton]; omega)] at h
    exact (Except.ok.inj h).symm

/-- Behind a mark it adds one. -/
theorem emit_pending_mark (hkey : MorseKey key) {left : List UInt8} (hlength : left.length < 3)
    (hsymbols : ∀ s ∈ left, IsSymbol s) {mark : UInt8} (hmark : mark ≠ sep)
    (hsuffix : [mark] <:+ left) {letters : List UInt8}
    (h : emit (generatemorsetable key) (left ++ [sep, sep]) = .ok letters) : letters ≠ [] := by
  obtain ⟨front, rfl⟩ := hsuffix
  have hall : ∀ s ∈ front ++ [mark] ++ [sep, sep], IsSymbol s := by
    intro s hs
    rcases List.mem_append.mp hs with hs | hs
    · exact hsymbols s hs
    · have hsep : s = sep := by simpa using hs
      exact Or.inr (Or.inr hsep)
  match front, hlength with
  | [], _ =>
      obtain ⟨letter, rest, rfl, -⟩ := emit_cons_ok hkey hall (fun hseps => hmark hseps.1) h
      exact List.cons_ne_nil letter rest
  | [first], _ =>
      obtain ⟨letter, rest, rfl, -⟩ := emit_cons_ok hkey hall (fun hseps => hmark hseps.2.1) h
      exact List.cons_ne_nil letter rest
  | _ :: _ :: _, hlength =>
      simp only [List.length_append, List.length_cons, List.length_nil] at hlength
      omega

/-- What the newline of a line adds to what is left in the buffer. -/
theorem emit_pending_iff (hkey : MorseKey key) {last : List UInt8} (hlast : PlainLine last)
    {letters : List UInt8}
    (h : emit (generatemorsetable key) (pending (openSymbols true last) ++
      if blankAfter true last then [sep] else [sep, sep]) = .ok letters) :
    letters = [] ↔ Ending last := by
  have hlength := length_pending (openSymbols true last)
  have hsuffix := pending_suffix (openSymbols true last)
  rw [Ending, ← hlength]
  cases hblank : blankAfter true last with
  | true =>
      rw [hblank] at h
      refine iff_of_true (emit_pending_blank hkey (length_pending_lt _) ?_ h) (Or.inl rfl)
      intro htwo
      rcases openSymbols_of_blankAfter hblank with ⟨hnil, -⟩ | hseps
      · rw [hnil] at htwo
        exact absurd htwo (by decide)
      · exact List.suffix_of_suffix_length_le hseps hsuffix htwo
  | false =>
      rw [hblank] at h
      rw [or_iff_right Bool.false_ne_true]
      constructor
      · intro hnil
        by_contra hpos
        rcases openSymbols_of_not_blankAfter hlast hblank with ⟨-, hfalse⟩ | ⟨mark, hmark, hends⟩
        · cases hfalse
        · refine emit_pending_mark hkey (length_pending_lt _) ?_ hmark ?_ h hnil
          · intro s hs
            exact isSymbol_openSymbols true last s (hsuffix.subset hs)
          · exact List.suffix_of_suffix_length_le hends hsuffix (Nat.one_le_iff_ne_zero.mpr hpos)
      · intro hzero
        rw [List.length_eq_zero_iff.mp hzero] at h
        exact (Except.ok.inj h).symm

/-- The last line keeps its letters without its newline if and only if it ends so. -/
theorem emit_openSymbols_iff (hkey : MorseKey key) {last : List UInt8} (hlast : PlainLine last)
    {letters : List UInt8}
    (h : emit (generatemorsetable key) (lineSymbols true last) = .ok letters) :
    emit (generatemorsetable key) (openSymbols true last) = .ok letters ↔ Ending last := by
  rw [lineSymbols_eq, emit_append] at h
  cases hopen : emit (generatemorsetable key) (openSymbols true last) with
  | error stop =>
      rw [hopen] at h
      cases h
  | ok before =>
      rw [hopen] at h
      cases hrest : emit (generatemorsetable key) (pending (openSymbols true last) ++
          if blankAfter true last then [sep] else [sep, sep]) with
      | error stop =>
          simp only [bind, Except.bind, hrest] at h
          cases h
      | ok after =>
          simp only [bind, Except.bind, hrest, pure, Except.pure, Except.ok.injEq] at h
          rw [← emit_pending_iff hkey hlast hrest, Except.ok.injEq, ← h,
            List.self_eq_append_right]

/-! ## The first line -/

theorem charSymbols_of_isSpace {c : UInt8} (hspace : isSpace c = true) : charSymbols c = [sep] := by
  rw [charSymbols, isBlankSymbol, hspace]
  rfl

theorem turnSymbols_true_of_isSpace {c : UInt8} (hspace : isSpace c = true) :
    turnSymbols true c = [] := by
  rw [turnSymbols, hspace]
  rfl

theorem turnSymbols_false_of_isSpace {c : UInt8} (hspace : isSpace c = true) :
    turnSymbols false c = [sep, sep] := by
  rw [turnSymbols, charSymbols_of_isSpace hspace]
  rfl

theorem turnSymbols_of_not_isSpace {c : UInt8} (hspace : isSpace c = false)
    (lastCharSpace : Bool) :
    turnSymbols lastCharSpace c = (if lastCharSpace then [] else [sep]) ++ charSymbols c := by
  rw [turnSymbols, hspace]
  simp only [Bool.false_eq_true, and_false, if_false]

theorem charSymbols_ne_nil {c : UInt8} (hc : Accepted c) : charSymbols c ≠ [] := by
  rw [charSymbols]
  split_ifs with hblank
  · exact List.cons_ne_nil _ _
  · rcases hc with h | hcode
    · exact absurd h hblank
    · exact hcode.2

/-- The code of a letter starts with a mark. -/
theorem exists_mark {d : UInt8} (hd : Encodable d) :
    ∃ mark marks, mark ≠ sep ∧ morseCode d = mark :: marks := by
  obtain ⟨mark, marks, hcode⟩ := List.exists_cons_of_ne_nil hd.2
  have hmem : mark ∈ morseCode d := by
    rw [hcode]
    exact List.mem_cons_self
  exact ⟨mark, marks, morseCode_ne_sep hmem, hcode⟩

/-- Behind a letter a line has at least two symbols. -/
theorem exists_lineSymbols_false (marks : List UInt8) {line : List UInt8}
    (hline : PlainLine line) :
    ∃ b c stream, marks ++ lineSymbols false line = b :: c :: stream := by
  have htwo : ∃ b c stream, lineSymbols false line = b :: c :: stream := by
    cases line with
    | nil => exact ⟨sep, sep, [], rfl⟩
    | cons c line =>
        obtain ⟨b, stream, hsymbols⟩ :=
          List.exists_cons_of_ne_nil (charSymbols_ne_nil (hline c List.mem_cons_self).1)
        rw [lineSymbols, turnSymbols, if_neg Bool.false_ne_true,
          if_neg (fun h => Bool.false_ne_true h.1), hsymbols]
        exact ⟨sep, b, stream ++ lineSymbols (isSpace c) line, rfl⟩
  obtain ⟨b, c, stream, hsymbols⟩ := htwo
  rw [hsymbols]
  rcases marks with _ | ⟨second, _ | ⟨third, more⟩⟩
  · exact ⟨b, c, stream, rfl⟩
  · exact ⟨second, b, c :: stream, rfl⟩
  · exact ⟨second, third, more ++ b :: c :: stream, rfl⟩

/-- A letter and the newline behind it are at least one letter. -/
theorem emit_letter_ne_nil (hkey : MorseKey key) {d : UInt8} (hd : Encodable d)
    {line letters : List UInt8} (hline : PlainLine line)
    (h : emit (generatemorsetable key) (morseCode d ++ lineSymbols false line) = .ok letters) :
    letters ≠ [] := by
  have hall : ∀ s ∈ morseCode d ++ lineSymbols false line, IsSymbol s :=
    List.forall_mem_append.mpr ⟨isSymbol_morseCode d, isSymbol_lineSymbols false line⟩
  obtain ⟨mark, marks, hmark, hcode⟩ := exists_mark hd
  obtain ⟨b, c, stream, hstream⟩ := exists_lineSymbols_false marks hline
  rw [hcode, List.cons_append, hstream] at h hall
  obtain ⟨letter, rest, rfl, -⟩ := emit_cons_ok hkey hall (fun hseps => hmark hseps.1) h
  exact List.cons_ne_nil letter rest

/-- Behind a single blank the first line starts with another letter than elsewhere. -/
theorem emit_indented (hkey : MorseKey key) {d : UInt8} (hd : Encodable d) {line : List UInt8}
    (hline : PlainLine line) {behind letters letters' : List UInt8}
    (hbehind : ∀ s ∈ behind, IsSymbol s)
    (h : emit (generatemorsetable key) (morseCode d ++ lineSymbols false line) = .ok letters)
    (h' : emit (generatemorsetable key) (sep :: sep :: (morseCode d ++ behind)) =
      .ok letters') :
    letters' ≠ letters := by
  have hall : ∀ s ∈ morseCode d ++ lineSymbols false line, IsSymbol s :=
    List.forall_mem_append.mpr ⟨isSymbol_morseCode d, isSymbol_lineSymbols false line⟩
  have hall' : ∀ s ∈ morseCode d ++ behind, IsSymbol s :=
    List.forall_mem_append.mpr ⟨isSymbol_morseCode d, hbehind⟩
  obtain ⟨mark, marks, hmark, hcode⟩ := exists_mark hd
  obtain ⟨b, c, stream, hstream⟩ := exists_lineSymbols_false marks hline
  rw [hcode, List.cons_append, hstream] at h hall
  rw [hcode] at h' hall'
  exact emit_indented_ne hkey hmark hall hall' h h'

/-- How the first line has to start: with a letter, or with two blanks and no {lit}`Z` in the
key. -/
def Starting (key : List UInt8) : List UInt8 → Prop
  | [] => False
  | c :: line => isSpace c = true → 90 ∉ key ∧ ∀ d ∈ line.head?, isSpace d = true

section FirstLine

variable {symbols : Bool → List UInt8 → List UInt8}
  (hturn : ∀ lastCharSpace c line,
    symbols lastCharSpace (c :: line) = turnSymbols lastCharSpace c ++ symbols (isSpace c) line)

include hturn

/-- A first character that is no blank is encrypted as behind a newline. -/
theorem firstSymbols_letter {c : UInt8} (hspace : isSpace c = false) (line : List UInt8) :
    charSymbols c ++ symbols false line = symbols true (c :: line) := by
  rw [hturn, turnSymbols_of_not_isSpace hspace, hspace]
  rfl

/-- Two blanks in front of the first line are three separators. -/
theorem firstSymbols_blanks {c d : UInt8} (hc : isSpace c = true) (hd : isSpace d = true)
    (line : List UInt8) :
    charSymbols c ++ symbols false (d :: line) =
      sep :: sep :: sep :: symbols true (c :: d :: line) := by
  rw [hturn false, hturn true, hc, hturn true, charSymbols_of_isSpace hc,
    turnSymbols_false_of_isSpace hd, turnSymbols_true_of_isSpace hc, turnSymbols_true_of_isSpace hd]
  rfl

/-- One blank is two of them in front of the first letter. -/
theorem firstSymbols_indented {c d : UInt8} (hc : isSpace c = true) (hd : Encodable d)
    (hspace : isSpace d = false) (line : List UInt8) :
    charSymbols c ++ symbols false (d :: line) =
        sep :: sep :: (morseCode d ++ symbols false line) ∧
      symbols true (c :: d :: line) = morseCode d ++ symbols false line := by
  rw [hturn false, hturn true, hc, hturn true, charSymbols_of_isSpace hc,
    turnSymbols_of_not_isSpace hspace, turnSymbols_of_not_isSpace hspace, hspace,
    turnSymbols_true_of_isSpace hc, charSymbols_of_encodable hd]
  exact ⟨rfl, rfl⟩

/-- A first line of two characters or more has the letters of the line behind a newline if and
only if it starts like this. -/
theorem emit_firstSymbols_iff (hkey : MorseKey key)
    (hsymbols : ∀ lastCharSpace line, ∀ s ∈ symbols lastCharSpace line, IsSymbol s)
    {c d : UInt8} {line letters : List UInt8} (hline : PlainLine (c :: d :: line))
    (h : emit (generatemorsetable key) (lineSymbols true (c :: d :: line)) = .ok letters) :
    emit (generatemorsetable key) (charSymbols c ++ symbols false (d :: line)) = .ok letters ↔
      Starting key (c :: d :: line) ∧
        emit (generatemorsetable key) (symbols true (c :: d :: line)) = .ok letters := by
  simp only [PlainLine, List.mem_cons, forall_eq_or_imp] at hline
  obtain ⟨-, hd, hrest⟩ := hline
  simp only [Starting, List.head?_cons, Option.mem_some_iff, forall_eq']
  cases hc : isSpace c with
  | false =>
      rw [firstSymbols_letter hturn hc]
      simp
  | true =>
      simp only [true_imp_iff]
      cases hspace : isSpace d with
      | true =>
          rw [firstSymbols_blanks hturn hc hspace, emit_seps hkey]
          by_cases hz : 90 ∈ key <;> simp [hz]
      | false =>
          have hcode := encodable_of_plain hd hspace
          rw [(firstSymbols_indented lineSymbols.eq_2 hc hcode hspace line).2] at h
          rw [(firstSymbols_indented hturn hc hcode hspace line).1]
          refine iff_of_false (fun h' => ?_) (fun hstart => Bool.false_ne_true hstart.1.2)
          exact emit_indented hkey hcode hrest (hsymbols false line) h h' rfl

end FirstLine

/-- A first line has the letters of the line behind a newline if and only if it starts like
this. -/
theorem emit_first_iff (hkey : MorseKey key) {c : UInt8} {line letters : List UInt8}
    (hline : PlainLine (c :: line))
    (h : emit (generatemorsetable key) (lineSymbols true (c :: line)) = .ok letters) :
    emit (generatemorsetable key) (charSymbols c ++ lineSymbols false line) = .ok letters ↔
      Starting key (c :: line) := by
  cases line with
  | nil =>
      rw [Starting]
      cases hc : isSpace c with
      | false =>
          rw [firstSymbols_letter lineSymbols.eq_2 hc, h]
          simp
      | true =>
          rw [lineSymbols, turnSymbols_true_of_isSpace hc, hc] at h
          have hnil : letters = [] := (Except.ok.inj h).symm
          have hseps : charSymbols c ++ lineSymbols false [] = [sep, sep, sep] := by
            rw [charSymbols_of_isSpace hc]
            rfl
          rw [hseps, emit_seps hkey, hnil]
          by_cases hz : 90 ∈ key <;> simp [hz, emit]
  | cons d line =>
      rw [emit_firstSymbols_iff lineSymbols.eq_2 hkey isSymbol_lineSymbols hline h,
        and_iff_left h]

/-- A message of one line is printed as the line behind a newline if and only if it is a single
blank, or has more characters, starts like a first line and ends like a last one. -/
theorem morseEncrypt_only_iff (hkey : MorseKey key) {last letters : List UInt8}
    (hlast : PlainLine last)
    (h : emit (generatemorsetable key) (lineSymbols true last) = .ok letters) :
    morseEncrypt key last = .ok ⟨letters, true⟩ ↔
      (∃ c, last = [c] ∧ isSpace c = true) ∨
        2 ≤ last.length ∧ Starting key last ∧ Ending last := by
  match last with
  | [] =>
      have hempty : morseEncrypt key [] = .error .overrun := rfl
      rw [hempty]
      simp
  | [c] =>
      have hc := hlast c List.mem_cons_self
      have hrun : morseEncrypt key [c] = .ok ⟨[], true⟩ := by
        rw [morseEncrypt_cons key hc.1, morseEncryptLoop]
      have hletters : letters = [] ↔ isSpace c = true := by
        cases hspace : isSpace c with
        | true =>
            rw [lineSymbols, turnSymbols_true_of_isSpace hspace, hspace] at h
            exact iff_of_true (Except.ok.inj h).symm rfl
        | false =>
            have hcode := encodable_of_plain hc hspace
            rw [lineSymbols, turnSymbols_of_not_isSpace hspace, hspace,
              charSymbols_of_encodable hcode] at h
            exact iff_of_false (emit_letter_ne_nil hkey hcode (List.forall_mem_nil _) h)
              Bool.false_ne_true
      have hlength : ¬ 2 ≤ [c].length := Nat.not_succ_le_self 1
      rw [hrun, or_iff_left (fun h => hlength h.1)]
      simp only [Except.ok.injEq, Run.mk.injEq, and_true, List.cons.injEq, exists_eq_left',
        ← hletters]
      exact eq_comm
  | c :: d :: line =>
      have hc := (hlast c List.mem_cons_self).1
      have hopen := morseEncryptLoop_open (generatemorsetable key) (room_charSymbols c)
        (fun hnil => absurd hnil (List.cons_ne_nil d line))
        (fun e he => hlast e (List.mem_cons_of_mem c he))
      have hsingle : ¬ ∃ b, c :: d :: line = [b] ∧ isSpace b = true := by
        rintro ⟨b, hb, -⟩
        cases hb
      have hemit := emit_firstSymbols_iff (fun _ _ _ => openSymbols.eq_2 ..) hkey
        isSymbol_openSymbols hlast h
      rw [emit_openSymbols_iff hkey hlast h] at hemit
      have hlength : 2 ≤ (c :: d :: line).length := Nat.le_add_left 2 line.length
      rw [or_iff_right hsingle, and_iff_right hlength, ← hemit,
        morseEncrypt_cons key hc, hopen]
      cases emit (generatemorsetable key) (charSymbols c ++ openSymbols false (d :: line)) with
      | error stop => simp [Except.map]
      | ok printed => simp [Except.map]

/-- A newline in front of the message is no newline of its cipher text. -/
theorem count_newline_morseEncryptLoop (hkey : MorseKey key) {lastCharSpace : Bool}
    {occupied : List UInt8} (hroom : Room lastCharSpace occupied)
    (hsymbols : ∀ s ∈ occupied, IsSymbol s)
    {lines : List (List UInt8)} {last : List UInt8}
    (hplain : ∀ line ∈ last :: lines, PlainLine line)
    (hopen : messageOf lines last = [] → occupied.length < 3) {run : Run}
    (h : morseEncryptLoop (generatemorsetable key) (padded 8 occupied) lastCharSpace
      (messageOf lines last) = .ok run) :
    run.printed.count newline = lines.length := by
  induction lines generalizing lastCharSpace occupied run with
  | nil =>
      rw [messageOf, List.flatMap_nil, List.nil_append] at h hopen
      rw [morseEncryptLoop_open _ hroom hopen (hplain last List.mem_cons_self)] at h
      obtain ⟨letters, hletters, rfl⟩ := exists_of_map_eq_ok h
      refine List.count_eq_zero.mpr (newline_notMem_letters hkey ?_ hletters)
      exact List.forall_mem_append.mpr ⟨hsymbols, isSymbol_openSymbols lastCharSpace last⟩
  | cons line lines ih =>
      simp only [List.mem_cons, forall_eq_or_imp] at hplain
      obtain ⟨hlast, hline, hlines⟩ := hplain
      rw [messageOf_cons, morseEncryptLoop_line _ hroom hline] at h
      cases hletters : emit (generatemorsetable key)
          (occupied ++ lineSymbols lastCharSpace line) with
      | error stop =>
          rw [hletters] at h
          cases h
      | ok letters =>
          rw [hletters] at h
          obtain ⟨rest, hrest, rfl⟩ := exists_of_map_eq_ok h
          rw [← padded_nil] at hrest
          have hcount := ih room_nil (fun s hs => nomatch hs)
            (List.forall_mem_cons.mpr ⟨hlast, hlines⟩) (fun _ => Nat.zero_lt_succ 2) hrest
          have hnone := newline_notMem_letters hkey (List.forall_mem_append.mpr
            ⟨hsymbols, isSymbol_lineSymbols lastCharSpace line⟩) hletters
          rw [Run.after, List.count_append, List.count_append, hcount,
            List.count_eq_zero.mpr hnone, List.length_cons]
          simp [Nat.add_comm]

/-! ## The message and its lines -/

/-- A line encrypted between other lines: behind a newline, and with its own. -/
def middleRun (key line : List UInt8) : Except Overrun Run :=
  morseEncryptLoop (generatemorsetable key) (List.replicate 8 0) true (line ++ [newline])

/-- The message is encrypted line by line: every line of it has a cipher text as a line between
others, and the cipher text of the message is that of its lines, with a newline for each
newline. -/
def LineByLine (key : List UInt8) (lines : List (List UInt8)) (last : List UInt8) : Prop :=
  ∃ cipher : List UInt8 → List UInt8,
    (∀ line ∈ last :: lines, middleRun key line = .ok ⟨cipher line ++ [newline], true⟩) ∧
      morseEncrypt key (messageOf lines last) =
        .ok ⟨lines.flatMap (fun line => cipher line ++ [newline]) ++ cipher last, true⟩

/-- How the message has to start: a message of one line without its newline is a single blank, or
ends like a last line and has a second character; a newline has a line in front of it. -/
def MessageStarting (key : List UInt8) : List (List UInt8) → List UInt8 → Prop
  | [], last => (∃ c, last = [c] ∧ isSpace c = true) ∨ 2 ≤ last.length ∧ Starting key last
  | first :: _, _ => Starting key first

/-- The messages that are encrypted line by line. -/
structure LineRegular (key : List UInt8) (lines : List (List UInt8)) (last : List UInt8) :
    Prop where
  /-- The first line starts so that it does not matter that it is the first. -/
  starting : MessageStarting key lines last
  /-- With a {lit}`Z` in the key no line has three separators where it is cut. -/
  separated : 90 ∈ key → ∀ line ∈ last :: lines, ¬ SepAligned (lineSymbols true line)
  /-- The last line keeps its letters without its newline. -/
  ending : Ending last

/-- Every message of accepted characters is a message of lines. -/
theorem exists_messageOf {message : List UInt8} (hmessage : ∀ c ∈ message, Accepted c) :
    ∃ lines last, message = messageOf lines last ∧ ∀ line ∈ last :: lines, PlainLine line := by
  induction message with
  | nil =>
      refine ⟨[], [], rfl, ?_⟩
      rw [List.forall_mem_singleton]
      exact List.forall_mem_nil _
  | cons c message ih =>
      rw [List.forall_mem_cons] at hmessage
      obtain ⟨lines, last, rfl, hplain⟩ := ih hmessage.2
      by_cases hnewline : c = newline
      · refine ⟨[] :: lines, last, ?_, ?_⟩
        · rw [messageOf_cons, hnewline]
          rfl
        · simp only [List.mem_cons, forall_eq_or_imp] at hplain ⊢
          exact ⟨hplain.1, List.forall_mem_nil _, hplain.2⟩
      · have hc : Accepted c ∧ c ≠ newline := ⟨hmessage.1, hnewline⟩
        cases lines with
        | nil =>
            refine ⟨[], c :: last, rfl, ?_⟩
            rw [List.forall_mem_singleton] at hplain ⊢
            exact List.forall_mem_cons.mpr ⟨hc, hplain⟩
        | cons line lines =>
            refine ⟨(c :: line) :: lines, last, ?_, ?_⟩
            · rw [messageOf_cons, messageOf_cons]
              rfl
            · simp only [List.mem_cons, forall_eq_or_imp] at hplain ⊢
              exact ⟨hplain.1, List.forall_mem_cons.mpr ⟨hc, hplain.2.1⟩, hplain.2.2⟩

theorem middleRun_eq {line : List UInt8} (hline : PlainLine line) :
    middleRun key line =
      (emit (generatemorsetable key) (lineSymbols true line)).map fun letters =>
        ⟨letters ++ [newline], true⟩ := by
  have hloop := morseEncryptLoop_line (generatemorsetable key) room_nil hline []
  rw [padded_nil, List.nil_append] at hloop
  rw [middleRun, hloop]
  cases emit (generatemorsetable key) (lineSymbols true line) with
  | error stop => rfl
  | ok letters =>
      rw [morseEncryptLoop]
      simp [Except.map, Run.after]

/-- Line by line: every line has its letters, and the program prints them. -/
theorem lineByLine_iff_emit {lines : List (List UInt8)} {last : List UInt8}
    (hplain : ∀ line ∈ last :: lines, PlainLine line) :
    LineByLine key lines last ↔
      (∀ line ∈ last :: lines,
        ∃ letters, emit (generatemorsetable key) (lineSymbols true line) = .ok letters) ∧
      morseEncrypt key (messageOf lines last) =
        .ok ⟨cipherLines key lines ++ lineCipher key last, true⟩ := by
  constructor
  · rintro ⟨cipher, hcipher, hrun⟩
    have hletters : ∀ line ∈ last :: lines,
        emit (generatemorsetable key) (lineSymbols true line) = .ok (cipher line) := by
      intro line hline
      have hmiddle := hcipher line hline
      rw [middleRun_eq (hplain line hline)] at hmiddle
      obtain ⟨letters, hletters, heq⟩ := exists_of_map_eq_ok hmiddle
      rw [hletters, List.append_cancel_right (congrArg Run.printed heq)]
    have hlines : cipherLines key lines =
        lines.flatMap fun line => cipher line ++ [newline] := by
      refine List.flatMap_congr fun line hline => ?_
      rw [lineCipher_eq (hletters line (List.mem_cons_of_mem last hline))]
    refine ⟨fun line hline => ⟨_, hletters line hline⟩, ?_⟩
    rw [hrun, hlines, lineCipher_eq (hletters last List.mem_cons_self)]
  · rintro ⟨hletters, hrun⟩
    refine ⟨lineCipher key, fun line hline => ?_, hrun⟩
    obtain ⟨letters, hemit⟩ := hletters line hline
    rw [middleRun_eq (hplain line hline), hemit, lineCipher_eq hemit]
    rfl

theorem newline_cut {front front' behind behind' : List UInt8} (hfront : newline ∉ front)
    (hfront' : newline ∉ front')
    (h : front ++ newline :: behind = front' ++ newline :: behind') :
    front = front' ∧ behind = behind' := by
  induction front generalizing front' with
  | nil =>
      cases front' with
      | nil => exact ⟨rfl, (List.cons_eq_cons.mp h).2⟩
      | cons c front' => exact absurd (List.cons_eq_cons.mp h).1 (List.ne_of_not_mem_cons hfront')
  | cons c front ih =>
      cases front' with
      | nil => exact absurd (List.cons_eq_cons.mp h).1.symm (List.ne_of_not_mem_cons hfront)
      | cons c' front' =>
          obtain ⟨rfl, htail⟩ := List.cons_eq_cons.mp h
          obtain ⟨rfl, hbehind⟩ := ih (List.not_mem_of_not_mem_cons hfront)
            (List.not_mem_of_not_mem_cons hfront') htail
          exact ⟨rfl, hbehind⟩

section Message

variable (hkey : MorseKey key) {lines : List (List UInt8)} {first last : List UInt8}

include hkey

/-- Every line has one newline. -/
theorem count_newline_cipherLines (hlines : ∀ line ∈ lines,
    ∃ letters, emit (generatemorsetable key) (lineSymbols true line) = .ok letters) :
    (cipherLines key lines).count newline = lines.length := by
  induction lines with
  | nil => rfl
  | cons line lines ih =>
      obtain ⟨⟨letters, hletters⟩, hrest⟩ := List.forall_mem_cons.mp hlines
      have hnone := newline_notMem_letters hkey (isSymbol_lineSymbols true line) hletters
      rw [cipherLines_cons, lineCipher_eq hletters, List.count_append,
        List.count_eq_zero.mpr hnone, List.count_cons_self, ih hrest, Nat.zero_add,
        List.length_cons]

/-- A message of several lines is printed line by line if and only if its first line starts like
one and its last line ends like one. -/
theorem morseEncrypt_lines_iff (hplain : ∀ line ∈ last :: first :: lines, PlainLine line)
    (hletters : ∀ line ∈ last :: first :: lines,
      ∃ letters, emit (generatemorsetable key) (lineSymbols true line) = .ok letters) :
    morseEncrypt key (messageOf (first :: lines) last) =
        .ok ⟨cipherLines key (first :: lines) ++ lineCipher key last, true⟩ ↔
      Starting key first ∧ Ending last := by
  simp only [List.mem_cons, forall_eq_or_imp] at hplain hletters
  obtain ⟨hlast, hfirst, hlines⟩ := hplain
  obtain ⟨⟨lastLetters, hlastLetters⟩, ⟨letters, hfirstLetters⟩, hemit⟩ := hletters
  cases first with
  | nil =>
      refine iff_of_false (fun hrun => ?_) (fun hstart => hstart.1)
      rw [messageOf_cons, List.nil_append, morseEncrypt_cons key (Or.inl rfl)] at hrun
      have hcount := count_newline_morseEncryptLoop hkey (room_charSymbols newline)
        (isSymbol_charSymbols newline) (List.forall_mem_cons.mpr ⟨hlast, hlines⟩)
        (fun _ => by decide) hrun
      have hlinesCount := count_newline_cipherLines hkey (List.forall_mem_cons.mpr
        ⟨⟨letters, hfirstLetters⟩, hemit⟩)
      rw [List.count_append, hlinesCount, List.length_cons] at hcount
      omega
  | cons c line =>
      have hc := (hfirst c List.mem_cons_self).1
      have hloop := morseEncryptLoop_line (generatemorsetable key) (room_charSymbols c)
        (fun d hd => hfirst d (List.mem_cons_of_mem c hd)) (messageOf lines last)
      have hready : ∀ other ∈ lines, PlainLine other ∧
          ∃ found, emit (generatemorsetable key) (lineSymbols true other) = .ok found :=
        fun other hother => ⟨hlines other hother, hemit other hother⟩
      have hnone := newline_notMem_letters hkey (isSymbol_lineSymbols true (c :: line))
        hfirstLetters
      rw [← emit_first_iff hkey hfirst hfirstLetters,
        ← emit_openSymbols_iff hkey hlast hlastLetters, messageOf_cons, List.cons_append,
        morseEncrypt_cons key hc, hloop, morseEncryptLoop_messageOf hready hlast,
        lineCipher_eq hlastLetters, cipherLines_cons, lineCipher_eq hfirstLetters]
      cases hprinted : emit (generatemorsetable key) (charSymbols c ++ lineSymbols false line) with
      | error stop => simp
      | ok printed =>
          have hprintedNone := newline_notMem_letters hkey (List.forall_mem_append.mpr
            ⟨isSymbol_charSymbols c, isSymbol_lineSymbols false line⟩) hprinted
          cases emit (generatemorsetable key) (openSymbols true last) with
          | error stop => simp [Except.map]
          | ok left =>
              simp only [Except.map, Run.after, Except.ok.injEq, Run.mk.injEq, and_true,
                List.append_assoc, List.cons_append]
              constructor
              · intro heq
                obtain ⟨rfl, hbehind⟩ := newline_cut hprintedNone hnone heq
                exact ⟨rfl, List.append_cancel_left hbehind⟩
              · rintro ⟨rfl, rfl⟩
                rfl

/-- A message of encodable characters, blanks and newlines is encrypted line by line if and only
if it is regular: it starts and ends like a line between others, and the letters of its lines are
found. -/
theorem lineByLine_iff (hplain : ∀ line ∈ last :: lines, PlainLine line) :
    LineByLine key lines last ↔ LineRegular key lines last := by
  have hemit (line : List UInt8) :
      (∃ letters, emit (generatemorsetable key) (lineSymbols true line) = .ok letters) ↔
        (90 ∈ key → ¬ SepAligned (lineSymbols true line)) :=
    emit_isOk_iff hkey (isSymbol_lineSymbols true line)
  rw [lineByLine_iff_emit hplain]
  constructor
  · rintro ⟨hletters, hrun⟩
    have hseparated : 90 ∈ key → ∀ line ∈ last :: lines, ¬ SepAligned (lineSymbols true line) :=
      fun hz line hline => (hemit line).mp (hletters line hline) hz
    cases lines with
    | nil =>
        obtain ⟨letters, hlast⟩ := hletters last List.mem_cons_self
        rw [lineCipher_eq hlast] at hrun
        rcases (morseEncrypt_only_iff hkey (hplain last List.mem_cons_self) hlast).mp hrun with
          ⟨c, rfl, hc⟩ | ⟨htwo, hstart, hend⟩
        · exact ⟨Or.inl ⟨c, rfl, hc⟩, hseparated, Or.inl hc⟩
        · exact ⟨Or.inr ⟨htwo, hstart⟩, hseparated, hend⟩
    | cons first lines =>
        obtain ⟨hstart, hend⟩ := (morseEncrypt_lines_iff hkey hplain hletters).mp hrun
        exact ⟨hstart, hseparated, hend⟩
  · rintro ⟨hstart, hseparated, hend⟩
    have hletters : ∀ line ∈ last :: lines,
        ∃ letters, emit (generatemorsetable key) (lineSymbols true line) = .ok letters :=
      fun line hline => (hemit line).mpr fun hz => hseparated hz line hline
    refine ⟨hletters, ?_⟩
    cases lines with
    | nil =>
        obtain ⟨letters, hlast⟩ := hletters last List.mem_cons_self
        rw [lineCipher_eq hlast]
        refine (morseEncrypt_only_iff hkey (hplain last List.mem_cons_self) hlast).mpr ?_
        exact hstart.imp id fun h => ⟨h.1, h.2, hend⟩
    | cons first lines =>
        exact (morseEncrypt_lines_iff hkey hplain hletters).mpr ⟨hstart, hend⟩

end Message

/-- Two lines with their newlines, one of them empty. -/
theorem lineByLine_twoLines : LineByLine [81] [[65, 66], []] [] := by
  have hkey : MorseKey [81] := ⟨by decide, by decide⟩
  refine (lineByLine_iff hkey ?_).mpr ⟨?_, ?_, Or.inl rfl⟩
  · intro line hline
    simp only [List.mem_cons, List.not_mem_nil, or_false] at hline
    rcases hline with rfl | rfl | rfl
    · exact List.forall_mem_nil _
    · exact List.forall_mem_cons.mpr ⟨⟨Or.inr (by decide +kernel), by decide⟩,
        List.forall_mem_singleton.mpr ⟨Or.inr (by decide +kernel), by decide⟩⟩
    · exact List.forall_mem_nil _
  · intro hspace
    exact absurd hspace (by decide)
  · intro hz
    exact absurd hz (by decide)

/-- A blank in front of the first line gives it other letters. -/
theorem not_lineByLine_indented : ¬ LineByLine [81] [[32, 65, 66]] [] := by
  rintro ⟨cipher, hmiddle, hrun⟩
  have hline : middleRun [81] [32, 65, 66] = .ok ⟨[69, 73, 72, 10], true⟩ := by decide +kernel
  have hprinted : morseEncrypt [81] (messageOf [[32, 65, 66]] []) =
      .ok ⟨[89, 80, 81, 10], true⟩ := by decide +kernel
  have hcipher := hmiddle [32, 65, 66] (List.mem_cons_of_mem _ List.mem_cons_self)
  rw [hline, Except.ok.injEq, Run.mk.injEq] at hcipher
  rw [hprinted, List.flatMap_cons, ← hcipher.1, Except.ok.injEq, Run.mk.injEq] at hrun
  exact absurd (List.cons_eq_cons.mp hrun.1).1 (by decide)

end SystemFundamentals.Cipher
