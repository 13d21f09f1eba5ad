import SystemFundamentals.Cipher.Morse

/-!
# The argument parser of the cipher program

The function {lit}`validargs` of {lit}`hw1/src/hw1.c`.  Its loop counts the
arguments since the last one it did not know, takes {lit}`-p` or {lit}`-f` for
the first, {lit}`-e` or {lit}`-d` for the second and the parameters behind them,
and starts to count again at every other argument.  The characters of a key are
checked against the ones already stored in the cipher table.

Main results:

- Theorem {lit}`keyLoop_eq_ok_iff`: the key check accepts the part of a key
  before its first blank, when that part is valid.
- Theorem {lit}`numberLoop_eq`: the number loop computes the decimal value of
  that part modulo the range of {lit}`int`.
-/

namespace SystemFundamentals.Cipher

/-! ## The program -/

/-- An argument string: its bytes before the terminator. -/
structure CString where
  bytes : List UInt8
  nonzero : (0 : UInt8) ∉ bytes

/-- An access that leaves the memory the parser may read: behind the terminator
of an option, through the null pointer at the end of {lit}`argv`, or past a
table without a free place. -/
inductive Trap
  | shortOption
  | nullArgument
  | fullTable
deriving DecidableEq

/-- The variables of {lit}`const.c` that the parser writes. -/
structure Globals where
  key : List UInt8
  polybiusTable : List UInt8
  fmKey : List UInt8
deriving DecidableEq

/-- The variables when {lit}`main` starts. -/
def Globals.startup : Globals :=
  ⟨[], List.replicate 257 0, List.replicate 27 0⟩

/-- The table that {lit}`isvalidchar` and the end of {lit}`validargs` select. -/
def Globals.table (globals : Globals) (fractionated : Bool) : List UInt8 :=
  if fractionated then globals.fmKey else globals.polybiusTable

@[inherit_doc Globals.table]
def Globals.setTable (globals : Globals) (fractionated : Bool) (table : List UInt8) : Globals :=
  if fractionated then { globals with fmKey := table }
  else { globals with polybiusTable := table }

/-- The alphabet that {lit}`isvalidchar` selects. -/
def alphabetOf (fractionated : Bool) : List UInt8 :=
  if fractionated then fmAlphabet else polybiusAlphabet

/-- How the loop of {lit}`validargs` ends before the arguments do. -/
inductive Exit
  | returned (value : UInt16) (globals : Globals)
  | trapped (trap : Trap)
deriving DecidableEq

/-- The local variables of {lit}`validargs` and the globals. -/
structure Parse where
  count : Nat
  returnState : UInt16
  globals : Globals
deriving DecidableEq

/-- {lit}`return_state & 0x4000`. -/
def isFractionated (returnState : UInt16) : Bool :=
  returnState &&& 0x4000 != 0

/-- {lit}`isvalidchar`: the symbol is stored behind the symbols of the table
before it is looked for in the alphabet. -/
def isvalidchar (symbol : UInt8) (fractionated : Bool) (globals : Globals) :
    Except Trap (Bool × Globals) :=
  let repeatcheck := globals.table fractionated
  if symbol ∈ cString repeatcheck then .ok (false, globals)
  else if (cString repeatcheck).length = repeatcheck.length then .error .fullTable
  else
    .ok (decide (symbol ∈ alphabetOf fractionated),
      globals.setTable fractionated (repeatcheck.set (cString repeatcheck).length symbol))

/-- The characters before which the loops over a value stop. -/
def endsValue (c : UInt8) : Bool :=
  c == newline || c == space

/-- The loop over the characters of a key. -/
def keyLoop (fractionated : Bool) : List UInt8 → Globals → Except Exit Globals
  | [], globals => .ok globals
  | c :: rest, globals =>
      if endsValue c then .ok globals
      else
        match isvalidchar c fractionated globals with
        | .error trap => .error (.trapped trap)
        | .ok (false, globals) => .error (.returned 0 globals)
        | .ok (true, globals) => keyLoop fractionated rest globals

/-- The branch of {lit}`-k`; the value is absent at the end of {lit}`argv`. -/
def keyTurn (s : Parse) (value : Option (List UInt8)) : Except Exit Parse :=
  if s.globals.key.headD 0 ≠ 0 then .error (.returned 0 s.globals)
  else
    match value with
    | none => .error (.trapped .nullArgument)
    | some value =>
        (keyLoop (isFractionated s.returnState) value s.globals).map fun globals =>
          { s with globals := { globals with key := value } }

/-- A result of {lit}`int` arithmetic on the two's complement machine. -/
def wrapInt (n : Int) : Int :=
  n.bmod (2 ^ 32)

/-- The loop over the characters of a number, {lean}`none` when it returns 0. -/
def numberLoop : List UInt8 → Int → Option Int
  | [], num => some num
  | c :: rest, num =>
      if endsValue c then some num
      else if signed c > 57 ∨ signed c < 0 then none
      else numberLoop rest (wrapInt (wrapInt (num * 10) + (signed c - 48)))

/-- The branches of {lit}`-r` and {lit}`-c`, which write to their own four bits
of {lit}`return_state`. -/
def sizeTurn (mask unit : UInt16) (s : Parse) (value : Option (List UInt8)) :
    Except Exit Parse :=
  if isFractionated s.returnState then .error (.returned 0 s.globals)
  else if s.returnState &&& mask ≠ 0 then .error (.returned 0 s.globals)
  else
    match value with
    | none => .error (.trapped .nullArgument)
    | some value =>
        match numberLoop value 0 with
        | none => .error (.returned 0 s.globals)
        | some num =>
            if num > 15 ∨ num < 9 then .error (.returned 0 s.globals)
            else
              .ok { s with returnState := s.returnState ||| UInt16.ofNat num.toNat * unit }

/-- The options that take a value. -/
inductive Kind
  | key
  | rows
  | columns
deriving DecidableEq

/-- The branch of an option with a value. -/
def valueTurn : Kind → Parse → Option (List UInt8) → Except Exit Parse
  | .key => keyTurn
  | .rows => sizeTurn 0x00F0 0x0010
  | .columns => sizeTurn 0x000F 0x0001

/-- The branches of the loop body. -/
inductive Branch
  | help
  | flag (bits : UInt16)
  | value (kind : Kind)
  | unknown
deriving DecidableEq

/-- The tests of the loop body, in the order of the source. -/
def branch (count : Nat) (letter : UInt8) : Branch :=
  if letter = 104 then .help
  else if letter = 112 ∧ count = 1 then .flag 0x0000
  else if letter = 102 ∧ count = 1 then .flag 0x4000
  else if letter = 101 ∧ count = 2 then .flag 0x0000
  else if letter = 100 ∧ count = 2 then .flag 0x2000
  else if letter = 107 ∧ count > 2 then .value .key
  else if letter = 114 ∧ count > 2 then .value .rows
  else if letter = 99 ∧ count > 2 then .value .columns
  else .unknown

/-- The loop over the arguments.  The first character of an option is never
looked at. -/
def argLoop (s : Parse) : List (List UInt8) → Except Exit Parse
  | [] => .ok s
  | (_ :: letter :: tail) :: rest =>
      if tail.headD 0 ≠ 0 then .error (.returned 0 s.globals)
      else
        match branch (s.count + 1) letter with
        | .help => .error (.returned 0x8000 s.globals)
        | .flag bits =>
            argLoop { s with count := s.count + 1, returnState := s.returnState ||| bits } rest
        | .value kind =>
            match rest with
            | [] => valueTurn kind { s with count := s.count + 1 } none
            | value :: rest =>
                match valueTurn kind { s with count := s.count + 1 } (some value) with
                | .error exit => .error exit
                | .ok s => argLoop s rest
        | .unknown => argLoop { s with count := 0 } rest
  | _ :: _ => .error (.trapped .shortOption)

/-- The last loop of {lit}`validargs`: the positive characters at the front of
the table are overwritten with zeros. -/
def clearTable (table : List UInt8) : Except Trap (List UInt8) :=
  let used := (table.takeWhile (0 < signed ·)).length
  if used = table.length then .error .fullTable
  else .ok (List.replicate used 0 ++ table.drop used)

/-- {lit}`validargs` behind its loop. -/
def afterLoop (s : Parse) : Except Trap (UInt16 × Globals) :=
  let returnState :=
    if s.returnState &&& 0x00FF = 0 ∧ isFractionated s.returnState = false then
      s.returnState ||| 0x00AA
    else s.returnState
  let fractionated := isFractionated returnState
  if s.count < 2 then .ok (0, s.globals)
  else if fractionated = false ∧
      ((returnState &&& 0x00F0) / 0x0010).toNat * (returnState &&& 0x000F).toNat <
        (polybiusAlphabet.takeWhile (0 < signed ·)).length then
    .ok (0, s.globals)
  else
    (clearTable (s.globals.table fractionated)).map fun table =>
      (returnState, s.globals.setTable fractionated table)

/-- {lit}`validargs`; the loop starts behind the program name. -/
def validargs (argv : List CString) (globals : Globals) : Except Trap (UInt16 × Globals) :=
  match argLoop ⟨0, 0, { globals with key := [] }⟩ ((argv.drop 1).map CString.bytes) with
  | .error (.returned value globals) => .ok (value, globals)
  | .error (.trapped trap) => .error trap
  | .ok s => afterLoop s

/-! ## The value of a parameter -/

/-- The part of a value the loops look at. -/
def checkedPart (value : List UInt8) : List UInt8 :=
  value.takeWhile fun c => !endsValue c

/-- The number that decimal digits stand for. -/
def decimal (digits : List UInt8) : Int :=
  digits.foldl (fun n c => n * 10 + (signed c - 48)) 0

/-! ## The key check -/

/-- The places of a table. -/
def tableSize (fractionated : Bool) : Nat :=
  if fractionated then 27 else 257

@[simp] theorem Globals.table_setTable (globals : Globals) (fractionated : Bool)
    (table : List UInt8) : (globals.setTable fractionated table).table fractionated = table := by
  cases fractionated <;> rfl

theorem Globals.table_setTable_of_ne (globals : Globals) {fractionated other : Bool}
    (hother : other ≠ fractionated) (table : List UInt8) :
    (globals.setTable fractionated table).table other = globals.table other := by
  cases fractionated <;> cases other <;> first | rfl | exact absurd rfl hother

@[simp] theorem Globals.setTable_setTable (globals : Globals) (fractionated : Bool)
    (table table' : List UInt8) :
    (globals.setTable fractionated table).setTable fractionated table' =
      globals.setTable fractionated table' := by
  cases fractionated <;> rfl

@[simp] theorem Globals.key_setTable (globals : Globals) (fractionated : Bool)
    (table : List UInt8) : (globals.setTable fractionated table).key = globals.key := by
  cases fractionated <;> rfl

theorem Globals.setTable_self (globals : Globals) (fractionated : Bool) :
    globals.setTable fractionated (globals.table fractionated) = globals := by
  cases fractionated <;> rfl

/-- A letter of an alphabet is a positive character and does not end a value. -/
theorem alphabetOf_letter : ∀ fractionated, ∀ c ∈ alphabetOf fractionated,
    0 < signed c ∧ c ≠ 0 ∧ endsValue c = false := by
  decide +kernel

/-- A valid key leaves a free place in its table. -/
theorem ValidKey.length_lt {fractionated : Bool} {key : List UInt8}
    (hkey : ValidKey (alphabetOf fractionated) key) : key.length < tableSize fractionated := by
  have hle := (hkey.nodup.subperm hkey.subset).length_le
  have hsize : ∀ fractionated, (alphabetOf fractionated).length < tableSize fractionated := by
    decide
  exact lt_of_le_of_lt hle (hsize fractionated)

theorem ValidKey.zero_notMem {fractionated : Bool} {key : List UInt8}
    (hkey : ValidKey (alphabetOf fractionated) key) : (0 : UInt8) ∉ key := by
  intro hzero
  exact (alphabetOf_letter fractionated 0 (hkey.subset hzero)).2.1 rfl

theorem validKey_nil (alphabet : List UInt8) : ValidKey alphabet [] :=
  ⟨List.nodup_nil, List.nil_subset _⟩

theorem validKey_concat_iff {alphabet key : List UInt8} {c : UInt8} :
    ValidKey alphabet (key ++ [c]) ↔ ValidKey alphabet key ∧ c ∉ key ∧ c ∈ alphabet := by
  constructor
  · intro h
    obtain ⟨hkey, -, hdisjoint⟩ := List.nodup_append.mp h.nodup
    obtain ⟨hsubset, hc⟩ := List.append_subset.mp h.subset
    exact ⟨⟨hkey, hsubset⟩, fun hmem => hdisjoint c hmem c List.mem_cons_self rfl,
      hc List.mem_cons_self⟩
  · rintro ⟨hkey, hfresh, hc⟩
    refine ⟨?_, List.append_subset.mpr ⟨hkey.subset, List.cons_subset.mpr ⟨hc, by simp⟩⟩⟩
    rw [List.nodup_append]
    refine ⟨hkey.nodup, by simp, ?_⟩
    rintro a ha b hb rfl
    exact hfresh (List.mem_singleton.mp hb ▸ ha)

theorem validKey_of_append {alphabet key rest : List UInt8}
    (h : ValidKey alphabet (key ++ rest)) : ValidKey alphabet key :=
  ⟨(List.nodup_append.mp h.nodup).1, (List.append_subset.mp h.subset).1⟩

/-- The check of one character against a table that holds a valid key. -/
theorem isvalidchar_padded {fractionated : Bool} {globals : Globals} {stored : List UInt8}
    (hstored : ValidKey (alphabetOf fractionated) stored)
    (htable : globals.table fractionated = padded (tableSize fractionated) stored)
    (c : UInt8) :
    isvalidchar c fractionated globals =
      if c ∈ stored then .ok (false, globals)
      else .ok (decide (c ∈ alphabetOf fractionated),
        globals.setTable fractionated (padded (tableSize fractionated) (stored ++ [c]))) := by
  have hlen := hstored.length_lt
  have hstring : cString (padded (tableSize fractionated) stored) = stored :=
    cString_append_zeros hstored.zero_notMem _
  have hfree : stored.length ≠ (padded (tableSize fractionated) stored).length := by
    rw [padded, List.length_append, List.length_replicate]
    omega
  have hset : (padded (tableSize fractionated) stored).set stored.length c =
      padded (tableSize fractionated) (stored ++ [c]) := by
    obtain ⟨n, hn⟩ : ∃ n, tableSize fractionated - stored.length = n + 1 :=
      ⟨tableSize fractionated - stored.length - 1, by omega⟩
    rw [padded, padded, hn, List.set_append_right _ _ le_rfl, Nat.sub_self,
      List.replicate_succ, List.set_cons_zero, List.append_assoc, List.singleton_append,
      List.length_append, List.length_singleton, ← Nat.sub_sub, hn, Nat.add_sub_cancel]
  simp only [isvalidchar, htable, hstring, if_neg hfree, hset]

/-- The key check goes through exactly when the part of the key before its first
blank extends the stored key to a valid one, and stores it. -/
theorem keyLoop_eq_ok_iff {fractionated : Bool} {stored value : List UInt8}
    {globals globals' : Globals}
    (hstored : ValidKey (alphabetOf fractionated) stored)
    (htable : globals.table fractionated = padded (tableSize fractionated) stored) :
    keyLoop fractionated value globals = .ok globals' ↔
      ValidKey (alphabetOf fractionated) (stored ++ checkedPart value) ∧
        globals' = globals.setTable fractionated
          (padded (tableSize fractionated) (stored ++ checkedPart value)) := by
  induction value generalizing stored globals with
  | nil =>
      simp only [keyLoop, checkedPart, List.takeWhile_nil, List.append_nil, ← htable,
        Globals.setTable_self, hstored, true_and, Except.ok.injEq, eq_comm]
  | cons c rest ih =>
      rw [keyLoop]
      by_cases hends : endsValue c = true
      · simp only [hends, if_true, checkedPart, List.takeWhile_cons, Bool.not_true,
          Bool.false_eq_true, if_false, List.append_nil, ← htable, Globals.setTable_self,
          hstored, true_and, Except.ok.injEq, eq_comm]
      · have hpart : stored ++ checkedPart (c :: rest) = stored ++ [c] ++ checkedPart rest := by
          simp [checkedPart, hends]
        rw [if_neg hends, isvalidchar_padded hstored htable, hpart]
        by_cases hc : ValidKey (alphabetOf fractionated) (stored ++ [c])
        · obtain ⟨-, hfresh, hletter⟩ := validKey_concat_iff.mp hc
          rw [if_neg hfresh, decide_eq_true hletter]
          have hrest := ih hc (Globals.table_setTable globals fractionated
            (padded (tableSize fractionated) (stored ++ [c])))
          rw [Globals.setTable_setTable] at hrest
          exact hrest
        · -- a repeated character or one outside the alphabet ends the program
          have hinvalid : ¬ ValidKey (alphabetOf fractionated)
              (stored ++ [c] ++ checkedPart rest) :=
            fun h => hc (validKey_of_append h)
          simp only [hinvalid, false_and, iff_false]
          by_cases hfresh : c ∈ stored
          · simp [hfresh]
          · have hletter : c ∉ alphabetOf fractionated :=
              fun h => hc (validKey_concat_iff.mpr ⟨hstored, hfresh, h⟩)
            simp [hfresh, hletter]

/-- The last loop frees the table of a valid key. -/
theorem clearTable_padded {fractionated : Bool} {stored : List UInt8}
    (hstored : ValidKey (alphabetOf fractionated) stored) :
    clearTable (padded (tableSize fractionated) stored) =
      .ok (List.replicate (tableSize fractionated) 0) := by
  have hlen := hstored.length_lt
  obtain ⟨n, hn⟩ : ∃ n, tableSize fractionated = stored.length + (n + 1) :=
    ⟨tableSize fractionated - stored.length - 1, by omega⟩
  have hpadded : padded (tableSize fractionated) stored = stored ++ List.replicate (n + 1) 0 := by
    rw [padded, hn, Nat.add_sub_cancel_left]
  have hused : (padded (tableSize fractionated) stored).takeWhile (0 < signed ·) = stored := by
    rw [hpadded, List.takeWhile_append_of_pos]
    · simp [List.replicate_succ, signed]
    · intro c hc
      simpa using (alphabetOf_letter fractionated c (hstored.subset hc)).1
  rw [clearTable, hused, hpadded, if_neg (by simp), List.drop_left,
    List.replicate_append_replicate, hn]

/-! ## The number loop -/

theorem signed_outside_iff (c : UInt8) : (signed c > 57 ∨ signed c < 0) ↔ ¬ c ≤ 57 := by
  have hlt := c.toNat_lt
  simp only [signed, UInt8.lt_iff_toNat_lt, UInt8.le_iff_toNat_le, UInt8.reduceToNat]
  split_ifs <;> omega

/-- The number loop rejects a character above {lit}`'9'` or below zero, and
otherwise computes the value of the checked part within the range of
{lit}`int`. -/
theorem numberLoop_eq (value : List UInt8) :
    numberLoop value 0 =
      if (checkedPart value).all (· ≤ 57) then some (wrapInt (decimal (checkedPart value)))
      else none := by
  have hloop : ∀ n, numberLoop value (wrapInt n) =
      if (checkedPart value).all (· ≤ 57) then
        some (wrapInt ((checkedPart value).foldl (fun n c => n * 10 + (signed c - 48)) n))
      else none := by
    induction value with
    | nil =>
        intro n
        simp [numberLoop, checkedPart]
    | cons c rest ih =>
        intro n
        rw [numberLoop]
        by_cases hends : endsValue c = true
        · simp [hends, checkedPart]
        · have hpart : checkedPart (c :: rest) = c :: checkedPart rest := by
            simp [checkedPart, hends]
          have hbound := signed_outside_iff c
          rw [if_neg hends, hpart]
          by_cases hc : c ≤ 57
          · have hwrap : wrapInt (wrapInt (wrapInt n * 10) + (signed c - 48)) =
                wrapInt (n * 10 + (signed c - 48)) := by
              simp only [wrapInt, Int.bmod_mul_bmod, Int.bmod_add_bmod]
            rw [if_neg (fun h => hbound.mp h hc), hwrap, ih]
            simp [hc]
          · rw [if_pos (hbound.mpr hc)]
            simp [hc]
  exact hloop 0

end SystemFundamentals.Cipher
