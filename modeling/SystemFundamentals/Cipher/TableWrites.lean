import SystemFundamentals.Cipher.PolybiusRoundTrip
import SystemFundamentals.Cipher.Morse

/-!
# Where the tables are written

The loops that generate the tables, with every write checked against the size of the table, and
for every key string: {lit}`validargs` looks at the part of a key before its first blank only, so
the key may repeat letters, hold other bytes and be longer than the table.

Main results:

- Theorem {lit}`checkedGeneratepolybiustable_eq`: the Polybius table is written inside its 257
  bytes if and only if the key fits into them.
- Theorem {lit}`checkedGeneratemorsetable_eq`: the letters are written inside {lit}`fm_key` if and
  only if none of them has its place behind it.
- Theorem {lit}`generatemorsetable_shape`: the bytes of {lit}`fm_key` behind such a key.
-/

namespace SystemFundamentals.Cipher

/-! ## The program -/

/-- {lit}`*(table+pos) = c`, inside the table. -/
def writeAt (table : List UInt8) (pos : Int) (c : UInt8) : Except Overrun (List UInt8) :=
  if 0 ≤ pos ∧ pos < table.length then .ok (table.set pos.toNat c) else .error .overrun

/-- The loops that copy the key to the front of a table. -/
def copyKey : List UInt8 → Nat → List UInt8 → Except Overrun (List UInt8)
  | [], _, table => .ok table
  | c :: key, i, table =>
      match writeAt table i c with
      | .error stop => .error stop
      | .ok table => copyKey key (i + 1) table

/-- The table loop of {lit}`generatepolybiustable` with checked writes. -/
def checkedTableLoop (key : List UInt8) :
    Nat → Nat → Int → Bool → List UInt8 → Except Overrun (List UInt8)
  | 0, _, _, _, table => .ok table
  | turns + 1, i, tableOffset, alphabetEnd, table =>
      let letter := letterAt polybiusAlphabet (i - key.length)
      if letter = 0 ∨ alphabetEnd = true then
        match writeAt table (i + tableOffset) 0 with
        | .error stop => .error stop
        | .ok table => checkedTableLoop key turns (i + 1) tableOffset true table
      else
        match writeAt table (i + tableOffset) letter with
        | .error stop => .error stop
        | .ok table =>
            checkedTableLoop key turns (i + 1) (tableOffset - key.count letter) alphabetEnd table

/-- {lit}`generatepolybiustable` with checked writes. -/
def checkedGeneratepolybiustable (mode : PolybiusMode) (key : List UInt8) :
    Except Overrun (List UInt8) :=
  match copyKey key 0 (List.replicate 257 0) with
  | .error stop => .error stop
  | .ok table =>
      checkedTableLoop key (mode.rows * mode.cols - key.length) key.length 0 false table

/-- The loop of {lit}`generatemorsetable` over the alphabet with checked writes. -/
def checkedMorseTableLoop (key : List UInt8) :
    Nat → Nat → Int → List UInt8 → Except Overrun (List UInt8)
  | 0, _, _, fmKey => .ok fmKey
  | turns + 1, i, offset, fmKey =>
      let letter := letterAt fmAlphabet (i - key.length)
      if letter = 0 then .ok fmKey
      else
        match writeAt fmKey (i + offset) letter with
        | .error stop => .error stop
        | .ok fmKey => checkedMorseTableLoop key turns (i + 1) (offset - key.count letter) fmKey

/-- {lit}`generatemorsetable` with checked writes. -/
def checkedGeneratemorsetable (key : List UInt8) : Except Overrun (List UInt8) :=
  match copyKey key 0 (List.replicate 27 0) with
  | .error stop => .error stop
  | .ok fmKey => checkedMorseTableLoop key 27 key.length 0 fmKey

/-! ## The key and the write positions -/

section Positions

variable {alphabet key : List UInt8}

/-- The key is copied to the front of a table that has room for it. -/
theorem copyKey_eq (front key free : List UInt8) :
    copyKey key front.length (front ++ free) =
      if key.length ≤ free.length then .ok (front ++ key ++ free.drop key.length)
      else .error .overrun := by
  induction key generalizing front free with
  | nil => simp [copyKey]
  | cons c key ih =>
      rw [copyKey, writeAt]
      cases free with
      | nil => simp
      | cons place free =>
          have hset : (front ++ place :: free).set front.length c = (front ++ [c]) ++ free := by
            simp
          have hlength : front.length + 1 = (front ++ [c]).length := by simp
          have hnext := ih (front ++ [c]) free
          rw [if_pos (by simp), Int.toNat_natCast, hset, hlength]
          refine hnext.trans ?_
          rw [List.append_assoc front [c] key, List.singleton_append, List.length_cons,
            List.length_cons, List.drop_succ_cons]
          simp only [Nat.add_le_add_iff_right]

theorem copyKey_zeros (key : List UInt8) (size : Nat) :
    copyKey key 0 (List.replicate size 0) =
      if key.length ≤ size then .ok (key ++ (List.replicate size 0).drop key.length)
      else .error .overrun := by
  have hcopy := copyKey_eq [] key (List.replicate size 0)
  rwa [List.nil_append, List.nil_append, List.length_replicate] at hcopy

theorem length_copied {key : List UInt8} {size : Nat} (hlength : key.length ≤ size) :
    (key ++ (List.replicate size 0).drop key.length).length = size := by
  rw [List.length_append, List.length_drop, List.length_replicate]
  omega

/-- How far the write position has moved back after {lit}`m` letters, when the key may repeat
letters. -/
def rewound (alphabet key : List UInt8) (m : Nat) : Nat :=
  key.countP (· ∈ alphabet.take m)

/-- The write position for the letter {lit}`m`: the letters before it, and the characters of the
key that are none of them. -/
def position (alphabet key : List UInt8) (m : Nat) : Nat :=
  m + key.countP (· ∉ alphabet.take m)

theorem position_eq (alphabet key : List UInt8) (m : Nat) :
    ((key.length + m : Nat) : Int) + -(rewound alphabet key m : Int) =
      position alphabet key m := by
  have hsplit := List.length_eq_countP_add_countP (· ∈ alphabet.take m) (l := key)
  have hnot : key.countP (fun c => ¬ decide (c ∈ alphabet.take m) = true) =
      key.countP (· ∉ alphabet.take m) := by
    simp
  rw [rewound, position]
  omega

theorem rewound_zero (alphabet key : List UInt8) : rewound alphabet key 0 = 0 := by
  simp [rewound]

theorem position_zero (alphabet key : List UInt8) : position alphabet key 0 = key.length := by
  simp [position]

theorem le_position (alphabet key : List UInt8) (m : Nat) : m ≤ position alphabet key m :=
  Nat.le_add_right _ _

theorem countP_mem_append_singleton {front : List UInt8} {letter : UInt8}
    (hletter : letter ∉ front) (key : List UInt8) :
    key.countP (· ∈ front ++ [letter]) = key.countP (· ∈ front) + key.count letter := by
  induction key with
  | nil => rfl
  | cons c key ih =>
      rw [List.countP_cons, List.countP_cons, List.count_cons, ih]
      by_cases hc : c = letter
      · simp [hc, hletter]
        omega
      · simp [hc]
        omega

/-- Copying a letter moves the position back by its copies in the key. -/
theorem rewound_succ (halphabet : alphabet.Nodup) {m : Nat} (hm : m < alphabet.length) :
    rewound alphabet key (m + 1) = rewound alphabet key m + key.count (letterAt alphabet m) := by
  have htake := take_succ_eq_append_letterAt hm
  have hnodup : (alphabet.take m ++ [letterAt alphabet m]).Nodup := by
    rw [← htake]
    exact halphabet.sublist (List.take_sublist _ _)
  have hnot : letterAt alphabet m ∉ alphabet.take m :=
    fun h => (List.disjoint_of_nodup_append hnodup) h (List.mem_singleton_self _)
  rw [rewound, htake, countP_mem_append_singleton hnot, rewound]

/-- Behind the last letter nothing moves. -/
theorem rewound_of_le {m : Nat} (hm : alphabet.length ≤ m) :
    rewound alphabet key (m + 1) = rewound alphabet key m := by
  rw [rewound, rewound, List.take_of_length_le hm, List.take_of_length_le (by omega)]

theorem letterAt_of_le {m : Nat} (hm : alphabet.length ≤ m) : letterAt alphabet m = 0 := by
  rw [letterAt, List.getD_eq_getElem?_getD, List.getElem?_eq_none hm, Option.getD_none]

/-- The position moves forward by one place at most. -/
theorem position_succ_le (alphabet key : List UInt8) (m : Nat) :
    position alphabet key (m + 1) ≤ position alphabet key m + 1 := by
  have hle : key.countP (· ∉ alphabet.take (m + 1)) ≤ key.countP (· ∉ alphabet.take m) := by
    refine List.countP_mono_left fun c _ hc => ?_
    have hsub : alphabet.take m ⊆ alphabet.take (m + 1) :=
      (List.take_sublist_take_left (Nat.le_succ m)).subset
    simp only [decide_eq_true_eq] at hc ⊢
    exact fun hin => hc (hsub hin)
  rw [position, position]
  omega

theorem writeAt_eq {table : List UInt8} {pos : Nat} (hpos : pos < table.length) (c : UInt8) :
    writeAt table pos c = .ok (table.set pos c) := by
  rw [writeAt, if_pos (by omega), Int.toNat_natCast]

theorem writeAt_of_le {table : List UInt8} {pos : Nat} (hpos : table.length ≤ pos) (c : UInt8) :
    writeAt table pos c = .error .overrun := by
  rw [writeAt, if_neg (by omega)]

end Positions

/-! ## The Polybius table -/

section Polybius

variable (key : List UInt8)

/-- Whether the loop has come to the end of the alphabet before its turn {lit}`m`. -/
def endedBefore (m : Nat) : Bool :=
  polybiusAlphabet.length < m

/-- Before the end of the alphabet a turn copies a letter and moves back, behind it a turn writes
a zero. -/
theorem turn_cases (m : Nat) :
    (¬ (letterAt polybiusAlphabet m = 0 ∨ endedBefore m = true) ∧ endedBefore m = false ∧
        endedBefore (m + 1) = false ∧
        -(rewound polybiusAlphabet key m : Int) - key.count (letterAt polybiusAlphabet m) =
          -(rewound polybiusAlphabet key (m + 1) : Int)) ∨
      (letterAt polybiusAlphabet m = 0 ∧ endedBefore (m + 1) = true ∧
        rewound polybiusAlphabet key m = rewound polybiusAlphabet key (m + 1)) := by
  by_cases hm : m < polybiusAlphabet.length
  · left
    have hletter : letterAt polybiusAlphabet m ≠ 0 := by
      rw [length_polybiusAlphabet] at hm
      exact letterAt_polybiusAlphabet_ne_zero hm
    have hopen : endedBefore m = false := decide_eq_false (by omega)
    refine ⟨?_, hopen, decide_eq_false (by omega), ?_⟩
    · rw [hopen]
      exact fun h => h.elim hletter Bool.false_ne_true
    · rw [rewound_succ polybiusAlphabet_nodup hm]
      omega
  · right
    have hlast : polybiusAlphabet.length ≤ m := by omega
    exact ⟨letterAt_of_le hlast, decide_eq_true (by omega), (rewound_of_le hlast).symm⟩

/-- One turn of the loop writes the letter, or the terminator behind the last one, to its
position. -/
theorem tableLoop_succ (turns m : Nat) (table : List UInt8) :
    tableLoop key (turns + 1) (key.length + m) (-(rewound polybiusAlphabet key m : Int))
        (endedBefore m) table =
      tableLoop key turns (key.length + (m + 1)) (-(rewound polybiusAlphabet key (m + 1) : Int))
        (endedBefore (m + 1))
        (table.set (position polybiusAlphabet key m) (letterAt polybiusAlphabet m)) := by
  have hpos := position_eq polybiusAlphabet key m
  rw [tableLoop]
  simp only [Nat.add_sub_cancel_left, hpos, Int.toNat_natCast]
  rcases turn_cases key m with ⟨hcopy, hopen, hopen', hrewound⟩ | ⟨hzero, hended, hrewound⟩
  · rw [if_neg hcopy, hrewound, hopen, hopen']
    rfl
  · rw [if_pos (Or.inl hzero), hrewound, hended, hzero]
    rfl

@[inherit_doc tableLoop_succ]
theorem checkedTableLoop_succ (turns m : Nat) {table : List UInt8}
    (hfit : position polybiusAlphabet key m < table.length) :
    checkedTableLoop key (turns + 1) (key.length + m) (-(rewound polybiusAlphabet key m : Int))
        (endedBefore m) table =
      checkedTableLoop key turns (key.length + (m + 1))
        (-(rewound polybiusAlphabet key (m + 1) : Int)) (endedBefore (m + 1))
        (table.set (position polybiusAlphabet key m) (letterAt polybiusAlphabet m)) := by
  have hpos := position_eq polybiusAlphabet key m
  rw [checkedTableLoop]
  simp only [Nat.add_sub_cancel_left, hpos, writeAt_eq hfit]
  rcases turn_cases key m with ⟨hcopy, hopen, hopen', hrewound⟩ | ⟨hzero, hended, hrewound⟩
  · rw [if_neg hcopy, hrewound, hopen, hopen']
    rfl
  · rw [if_pos (Or.inl hzero), hrewound, hended, hzero]
    rfl

/-- The loop writes below the cells it visits. -/
theorem checkedTableLoop_eq (turns m : Nat) {table : List UInt8}
    (hroom : turns ≠ 0 → key.length + m + turns ≤ table.length) :
    checkedTableLoop key turns (key.length + m) (-(rewound polybiusAlphabet key m : Int))
        (endedBefore m) table =
      .ok (tableLoop key turns (key.length + m) (-(rewound polybiusAlphabet key m : Int))
        (endedBefore m) table) := by
  induction turns generalizing m table with
  | zero => rfl
  | succ turns ih =>
      have hpos := position_eq polybiusAlphabet key m
      have hbound := hroom (Nat.succ_ne_zero turns)
      rw [tableLoop_succ, checkedTableLoop_succ key turns m (by omega)]
      refine ih (m + 1) fun _ => ?_
      rw [List.length_set]
      omega

/-- Behind a key nothing is written to the first place. -/
theorem headD_tableLoop (hkey : key ≠ []) (turns m : Nat) (table : List UInt8) :
    (tableLoop key turns (key.length + m) (-(rewound polybiusAlphabet key m : Int))
      (endedBefore m) table).headD 0 = table.headD 0 := by
  induction turns generalizing m table with
  | zero => rfl
  | succ turns ih =>
      have hlength := List.length_pos_iff.mpr hkey
      have hpos : position polybiusAlphabet key m ≠ 0 := by
        cases m with
        | zero =>
            rw [position_zero]
            omega
        | succ m =>
            have hle := le_position polybiusAlphabet key (m + 1)
            omega
      obtain ⟨pos, hsucc⟩ := Nat.exists_eq_succ_of_ne_zero hpos
      rw [tableLoop_succ, ih, hsucc]
      cases table <;> rfl

end Polybius

theorem cells_le (mode : PolybiusMode) : mode.rows * mode.cols ≤ 225 :=
  Nat.mul_le_mul mode.rows_le mode.cols_le

/-- The Polybius table is written inside its 257 bytes if and only if the key fits into them. -/
theorem checkedGeneratepolybiustable_eq (mode : PolybiusMode) (key : List UInt8) :
    checkedGeneratepolybiustable mode key =
      if key.length ≤ 257 then .ok (generatepolybiustable mode key) else .error .overrun := by
  rw [checkedGeneratepolybiustable, copyKey_zeros]
  split_ifs with hlength
  · have hcells := cells_le mode
    have hsize := length_copied hlength
    have hloop : checkedTableLoop key (mode.rows * mode.cols - key.length) (key.length + 0)
        (-(rewound polybiusAlphabet key 0 : Int)) (endedBefore 0)
        (key ++ (List.replicate 257 0).drop key.length) = .ok _ :=
      checkedTableLoop_eq key _ 0 (fun _ => by omega)
    rw [rewound_zero] at hloop
    exact hloop
  · rfl

theorem length_tableLoop (key : List UInt8) (turns i : Nat) (tableOffset : Int)
    (alphabetEnd : Bool) (table : List UInt8) :
    (tableLoop key turns i tableOffset alphabetEnd table).length = table.length := by
  induction turns generalizing i tableOffset alphabetEnd table with
  | zero => rfl
  | succ turns ih =>
      rw [tableLoop]
      split_ifs
      · rw [ih, List.length_set]
      · rw [ih, List.length_set]

theorem length_generatepolybiustable (mode : PolybiusMode) {key : List UInt8}
    (hlength : key.length ≤ 257) : (generatepolybiustable mode key).length = 257 := by
  rw [generatepolybiustable, length_tableLoop, length_copied hlength]

/-- The first place of the table is not free. -/
theorem headD_generatepolybiustable (mode : PolybiusMode) {key : List UInt8}
    (hkey : (0 : UInt8) ∉ key) : (generatepolybiustable mode key).headD 0 ≠ 0 := by
  cases key with
  | nil => exact headD_table_ne_zero mode ⟨List.nodup_nil, List.nil_subset _⟩
  | cons c key =>
      have hloop := headD_tableLoop (c :: key) (List.cons_ne_nil c key)
        (mode.rows * mode.cols - (c :: key).length) 0
        (c :: key ++ (List.replicate 257 0).drop (c :: key).length)
      rw [rewound_zero] at hloop
      rw [generatepolybiustable]
      intro hzero
      have hhead : c = 0 := hloop.symm.trans hzero
      exact hkey (hhead ▸ List.mem_cons_self)

/-! ## The Morse alphabet -/

section Morse

variable (key : List UInt8)

/-- The letters from {lit}`m` on have their places among the first {lit}`size` bytes. -/
def LettersWithin (m size : Nat) : Prop :=
  ∀ j, m ≤ j → j < 26 → position fmAlphabet key j < size

/-- All letters have their places among the first {lit}`size` bytes of {lit}`fm_key`. -/
def FmKeyWithin (size : Nat) : Prop :=
  LettersWithin key 0 size

theorem lettersWithin_succ {m size : Nat} (hm : m < 26) :
    LettersWithin key m size ↔
      position fmAlphabet key m < size ∧ LettersWithin key (m + 1) size := by
  constructor
  · intro h
    exact ⟨h m (le_refl m) hm, fun j hj => h j (by omega)⟩
  · rintro ⟨hfirst, hrest⟩ j hj hlast
    rcases Nat.eq_or_lt_of_le hj with rfl | hlt
    · exact hfirst
    · exact hrest j hlt hlast

theorem rewound_fmAlphabet_succ {m : Nat} (hm : m < 26) :
    -(rewound fmAlphabet key m : Int) - key.count (letterAt fmAlphabet m) =
      -(rewound fmAlphabet key (m + 1) : Int) := by
  rw [rewound_succ fmAlphabet_nodup (by rwa [length_fmAlphabet])]
  omega

/-- One turn of the loop writes the letter to its position. -/
theorem morseTableLoop_succ (turns : Nat) {m : Nat} (hm : m < 26) (fmKey : List UInt8) :
    morseTableLoop key (turns + 1) (key.length + m) (-(rewound fmAlphabet key m : Int)) fmKey =
      morseTableLoop key turns (key.length + (m + 1)) (-(rewound fmAlphabet key (m + 1) : Int))
        (fmKey.set (position fmAlphabet key m) (letterAt fmAlphabet m)) := by
  have hpos := position_eq fmAlphabet key m
  have hletter := letterAt_fmAlphabet_ne_zero m hm
  rw [morseTableLoop]
  simp only [Nat.add_sub_cancel_left, hpos, Int.toNat_natCast, hletter, if_false,
    rewound_fmAlphabet_succ key hm]
  rfl

/-- Behind the last letter the loop ends. -/
theorem morseTableLoop_end (turns : Nat) (offset : Int) (fmKey : List UInt8) :
    morseTableLoop key (turns + 1) (key.length + 26) offset fmKey = fmKey := by
  have hend : letterAt fmAlphabet 26 = 0 := by decide
  rw [morseTableLoop]
  simp only [Nat.add_sub_cancel_left, hend, if_true]

/-- The loop writes inside {lit}`fm_key` if and only if the letters have their places there. -/
theorem checkedMorseTableLoop_iff {turns m : Nat} (hm : m + turns = 26)
    {fmKey result : List UInt8} (hlength : fmKey.length = 27) :
    checkedMorseTableLoop key (turns + 1) (key.length + m) (-(rewound fmAlphabet key m : Int))
        fmKey = .ok result ↔
      LettersWithin key m 27 ∧
        morseTableLoop key (turns + 1) (key.length + m) (-(rewound fmAlphabet key m : Int))
          fmKey = result := by
  induction turns generalizing m fmKey with
  | zero =>
      have hm' : m = 26 := hm
      subst hm'
      have hend : letterAt fmAlphabet 26 = 0 := by decide
      have hnone : LettersWithin key 26 27 := fun j hj hlast => absurd hj (by omega)
      rw [morseTableLoop_end, checkedMorseTableLoop]
      simp only [Nat.add_sub_cancel_left, hend, if_true, Except.ok.injEq]
      exact (and_iff_right hnone).symm
  | succ turns ih =>
      have hm' : m < 26 := by omega
      have hpos := position_eq fmAlphabet key m
      have hletter := letterAt_fmAlphabet_ne_zero m hm'
      rw [lettersWithin_succ key hm', morseTableLoop_succ key _ hm', checkedMorseTableLoop]
      simp only [Nat.add_sub_cancel_left, hpos, hletter, if_false]
      by_cases hfit : position fmAlphabet key m < fmKey.length
      · have hnext :
            (fmKey.set (position fmAlphabet key m) (letterAt fmAlphabet m)).length = 27 := by
          rw [List.length_set, hlength]
        rw [writeAt_eq hfit, and_assoc, and_iff_right (hlength ▸ hfit), ← ih (by omega) hnext,
          ← rewound_fmAlphabet_succ key hm']
        rfl
      · rw [writeAt_of_le (Nat.le_of_not_lt hfit)]
        refine iff_of_false (fun h => by cases h) (fun h => hfit ?_)
        rw [hlength]
        exact h.1.1

/-- The letters are written inside {lit}`fm_key` if and only if none of them has its place behind
it. -/
theorem checkedGeneratemorsetable_iff {result : List UInt8} :
    checkedGeneratemorsetable key = .ok result ↔
      FmKeyWithin key 27 ∧ generatemorsetable key = result := by
  rw [checkedGeneratemorsetable, copyKey_zeros]
  split_ifs with hlength
  · have hloop := @checkedMorseTableLoop_iff key 26 0 rfl _ result (length_copied hlength)
    rw [rewound_zero] at hloop
    exact hloop
  · refine iff_of_false (fun h => by cases h) (fun h => hlength ?_)
    have hfirst := h.1 0 (le_refl 0) (by decide)
    rw [position_zero] at hfirst
    omega

/-- What the loop has made of {lit}`fm_key` before its turn {lit}`m`. -/
structure FmKeyBefore (m : Nat) (fmKey : List UInt8) : Prop where
  length : fmKey.length = 27
  nonzero : ∀ k, k < position fmAlphabet key m → k < 27 → fmKey.getD k 0 ≠ 0
  last : fmKey.getD 26 0 ≠ 0 ↔ ∃ j, j < m ∧ position fmAlphabet key j = 26

variable {key}

theorem FmKeyBefore.succ {m : Nat} (hm : m < 26) {fmKey : List UInt8}
    (h : FmKeyBefore key m fmKey) :
    FmKeyBefore key (m + 1)
      (fmKey.set (position fmAlphabet key m) (letterAt fmAlphabet m)) := by
  have hletter := letterAt_fmAlphabet_ne_zero m hm
  have hget (k : Nat) (hk : k < 27) :
      (fmKey.set (position fmAlphabet key m) (letterAt fmAlphabet m)).getD k 0 =
        if position fmAlphabet key m = k then letterAt fmAlphabet m else fmKey.getD k 0 := by
    have hlength := h.length
    rw [List.getD_eq_getElem?_getD, List.getElem?_set, List.getD_eq_getElem?_getD]
    split_ifs with heq hfit
    · rfl
    · omega
    · rfl
  refine ⟨by rw [List.length_set, h.length], fun k hk hlast => ?_, ?_⟩
  · rw [hget k hlast]
    split_ifs with heq
    · exact hletter
    · have hstep := position_succ_le fmAlphabet key m
      exact h.nonzero k (by omega) hlast
  · rw [hget 26 (by decide)]
    constructor
    · intro hne
      split_ifs at hne with heq
      · exact ⟨m, Nat.lt_succ_self m, heq⟩
      · obtain ⟨j, hj, hpos⟩ := h.last.mp hne
        exact ⟨j, by omega, hpos⟩
    · rintro ⟨j, hj, hpos⟩
      split_ifs with heq
      · exact hletter
      · rcases Nat.eq_or_lt_of_le (Nat.le_of_lt_succ hj) with rfl | hlt
        · exact absurd hpos heq
        · exact h.last.mpr ⟨j, hlt, hpos⟩

theorem FmKeyBefore.run {turns m : Nat} (hm : m + turns = 26) {fmKey : List UInt8}
    (h : FmKeyBefore key m fmKey) :
    FmKeyBefore key 26
      (morseTableLoop key (turns + 1) (key.length + m) (-(rewound fmAlphabet key m : Int))
        fmKey) := by
  induction turns generalizing m fmKey with
  | zero =>
      have hm' : m = 26 := hm
      subst hm'
      rw [morseTableLoop_end]
      exact h
  | succ turns ih =>
      rw [morseTableLoop_succ key _ (by omega)]
      exact ih (by omega) (h.succ (by omega))

theorem FmKeyBefore.start (hkey : (0 : UInt8) ∉ key) (hwithin : FmKeyWithin key 27) :
    FmKeyBefore key 0 (key ++ (List.replicate 27 0).drop key.length) := by
  have hlength := hwithin 0 (le_refl 0) (by decide)
  rw [position_zero] at hlength
  refine ⟨length_copied (by omega), fun k hk _ => ?_, ?_⟩
  · rw [position_zero] at hk
    rw [List.getD_eq_getElem?_getD, List.getElem?_append_left hk, List.getElem?_eq_getElem hk]
    intro h
    apply hkey
    rw [← h, Option.getD_some]
    exact List.getElem_mem hk
  · have hzero : (key ++ (List.replicate 27 0).drop key.length).getD 26 0 = 0 := by
      rw [List.getD_eq_getElem?_getD, List.getElem?_append_right (by omega), List.drop_replicate,
        List.getElem?_replicate]
      split_ifs <;> rfl
    rw [hzero]
    exact iff_of_false (not_not.mpr rfl) (fun ⟨j, hj, _⟩ => absurd hj (Nat.not_lt_zero j))

/-- The bytes of {lit}`fm_key`: 26 that are no terminator, and one that is the terminator if and
only if no letter had its place there. -/
theorem generatemorsetable_shape (hkey : (0 : UInt8) ∉ key) (hwithin : FmKeyWithin key 27) :
    ∃ letters last, generatemorsetable key = letters ++ [last] ∧ letters.length = 26 ∧
      (0 : UInt8) ∉ letters ∧ (last = 0 ↔ FmKeyWithin key 26) := by
  have hrun := (FmKeyBefore.start hkey hwithin).run (show 0 + 26 = 26 from rfl)
  rw [rewound_zero] at hrun
  have hshape : FmKeyBefore key 26 (generatemorsetable key) := hrun
  have hlength := hshape.length
  refine ⟨(generatemorsetable key).take 26, (generatemorsetable key).getD 26 0, ?_, ?_, ?_, ?_⟩
  · have hget : 26 < (generatemorsetable key).length := by omega
    rw [List.getD_eq_getElem?_getD, List.getElem?_eq_getElem hget, Option.getD_some,
      ← List.take_succ_eq_append_getElem hget, List.take_of_length_le (by omega)]
  · rw [List.length_take, hlength]
    rfl
  · intro hzero
    obtain ⟨k, hk, heq⟩ := List.getElem_of_mem hzero
    rw [List.length_take] at hk
    have hpos := le_position fmAlphabet key 26
    apply hshape.nonzero k (by omega) (by omega)
    rw [List.getElem_take] at heq
    rw [List.getD_eq_getElem?_getD, List.getElem?_eq_getElem (by omega), Option.getD_some, heq]
  · rw [← not_iff_not, ← ne_eq, hshape.last]
    constructor
    · rintro ⟨j, hj, hpos⟩ hall
      exact absurd (hall j (Nat.zero_le j) hj) (by omega)
    · intro hnot
      by_contra hnone
      refine hnot fun j _ hj => ?_
      have hbound := hwithin j (Nat.zero_le j) hj
      have hne : position fmAlphabet key j ≠ 26 := fun heq => hnone ⟨j, hj, heq⟩
      omega

end Morse

end SystemFundamentals.Cipher
