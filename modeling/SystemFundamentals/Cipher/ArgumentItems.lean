import SystemFundamentals.Cipher.Arguments
import Mathlib.Data.List.TakeWhile

/-!
# AcceptedItems arguments as items

The parser starts over at an argument it does not know and keeps the flags it
has set, it never looks at the first character of an option, and it checks a key
or a number up to its first blank only.  This file reads an argument list as a
sequence of items, one for each turn of the loop, and says by the items before
it when an item is taken.

Main results:

- Theorems {lit}`Tracks.run` and {lit}`Tracks.exists_items`: the loop goes
  through exactly for the admitted sequences of items.
- Theorem {lit}`Tracks.afterLoop_eq`: what is returned behind the loop.
- Theorem {lit}`validargs_accepts_iff`: the argument lists that are accepted.
-/

namespace SystemFundamentals.Cipher

/-! ## Option letters -/

/-- {lit}`f` or {lit}`p`. -/
def modeLetter (fractionated : Bool) : UInt8 :=
  if fractionated then 102 else 112

/-- {lit}`d` or {lit}`e`. -/
def directionLetter (decrypt : Bool) : UInt8 :=
  if decrypt then 100 else 101

/-- {lit}`k`, {lit}`r` or {lit}`c`. -/
def Kind.letter : Kind → UInt8
  | .key => 107
  | .rows => 114
  | .columns => 99

/-! ## Items -/

/-- What the loop takes in one turn.  The first character of an option is kept
as {lit}`lead`; {lit}`restart` is an argument the loop does not know. -/
inductive Item
  | mode (lead : UInt8) (fractionated : Bool)
  | direction (lead : UInt8) (decrypt : Bool)
  | parameter (lead : UInt8) (kind : Kind) (value : List UInt8)
  | restart (lead letter : UInt8)
deriving DecidableEq

/-- The arguments of an item. -/
def Item.arguments : Item → List (List UInt8)
  | .mode lead fractionated => [[lead, modeLetter fractionated]]
  | .direction lead decrypt => [[lead, directionLetter decrypt]]
  | .parameter lead kind value => [[lead, kind.letter], value]
  | .restart lead letter => [[lead, letter]]

/-- The number of items since the last restart. -/
def place (before : List Item) : Nat :=
  before.foldl (fun n item => match item with | .restart _ _ => 0 | _ => n + 1) 0

/-- The flag {lit}`-f` is among the items, also before a restart. -/
def fractionated (before : List Item) : Bool :=
  before.any fun item => match item with | .mode _ fractionated => fractionated | _ => false

@[inherit_doc fractionated]
def decrypting (before : List Item) : Bool :=
  before.any fun item => match item with | .direction _ decrypt => decrypt | _ => false

/-- The values of one kind among the items. -/
def values (before : List Item) (kind : Kind) : List (List UInt8) :=
  before.filterMap fun item =>
    match item with
    | .parameter _ kind' value => if kind' = kind then some value else none
    | _ => none

/-- The number the loop makes of a value. -/
def readSize (value : List UInt8) : Nat :=
  (wrapInt (decimal (checkedPart value))).toNat

/-- The number loop goes through with a number from 9 to 15. -/
structure ReadsSize (value : List UInt8) : Prop where
  noLetter : ∀ c ∈ checkedPart value, c ≤ 57
  nine_le : 9 ≤ wrapInt (decimal (checkedPart value))
  le_fifteen : wrapInt (decimal (checkedPart value)) ≤ 15

/-- The size in {lit}`return_state`: the first one given, 0 without one. -/
def size (before : List Item) (kind : Kind) : Nat :=
  ((values before kind).head?.map readSize).getD 0

/-- The loop accepts a value behind these items. -/
def ValueAdmitted (before : List Item) : Kind → List UInt8 → Prop
  | .key, value =>
      (∀ earlier ∈ values before .key, earlier = []) ∧
        ValidKey (alphabetOf (fractionated before)) (checkedPart value)
  | .rows, value => fractionated before = false ∧ values before .rows = [] ∧ ReadsSize value
  | .columns, value =>
      fractionated before = false ∧ values before .columns = [] ∧ ReadsSize value

/-- The loop takes an item behind these items. -/
def Item.Admitted (before : List Item) : Item → Prop
  | .mode _ _ => place before = 0
  | .direction _ _ => place before = 1
  | .parameter _ kind value => 2 ≤ place before ∧ ValueAdmitted before kind value
  | .restart _ letter => branch (place before + 1) letter = .unknown

/-- A property of every item together with the items before it. -/
def Throughout (P : List Item → Item → Prop) (before : List Item) : List Item → Prop
  | [] => True
  | item :: rest => P before item ∧ Throughout P (before ++ [item]) rest

variable {before : List Item} {s : Parse}

@[simp] theorem place_concat (item : Item) :
    place (before ++ [item]) = match item with | .restart _ _ => 0 | _ => place before + 1 := by
  simp only [place, List.foldl_append, List.foldl_cons, List.foldl_nil]

@[simp] theorem fractionated_concat (item : Item) :
    fractionated (before ++ [item]) =
      (fractionated before ||
        match item with | .mode _ fractionated => fractionated | _ => false) := by
  simp only [fractionated, List.any_append, List.any_cons, List.any_nil, Bool.or_false]

@[simp] theorem decrypting_concat (item : Item) :
    decrypting (before ++ [item]) =
      (decrypting before || match item with | .direction _ decrypt => decrypt | _ => false) := by
  simp only [decrypting, List.any_append, List.any_cons, List.any_nil, Bool.or_false]

@[simp] theorem values_concat (item : Item) (kind : Kind) :
    values (before ++ [item]) kind =
      values before kind ++
        match item with
        | .parameter _ kind' value => if kind' = kind then [value] else []
        | _ => [] := by
  rw [values, values, List.filterMap_append]
  cases item with
  | parameter lead kind' value => by_cases hkind : kind' = kind <;> simp [hkind]
  | mode lead fractionated => simp
  | direction lead decrypt => simp
  | restart lead letter => simp

/-! ## The bits of the return state -/

/-- The return state with these flags and sizes. -/
def bits (fractionated decrypt : Bool) (rows columns : Nat) : UInt16 :=
  (if fractionated then 0x4000 else 0) ||| (if decrypt then 0x2000 else 0) |||
    UInt16.ofNat rows * 0x0010 ||| UInt16.ofNat columns * 0x0001

/-- What the tests of the source find in the return state. -/
theorem bits_tests : ∀ f d, ∀ r < 16, ∀ c < 16,
    isFractionated (bits f d r c) = f ∧
      (bits f d r c &&& 0x00F0 = 0 ↔ r = 0) ∧
      (bits f d r c &&& 0x000F = 0 ↔ c = 0) ∧
      (bits f d r c &&& 0x00FF = 0 ↔ r = 0 ∧ c = 0) ∧
      ((bits f d r c &&& 0x00F0) / 0x0010).toNat * (bits f d r c &&& 0x000F).toNat = r * c ∧
      bits f d r c &&& 0x8000 = 0 := by
  decide +kernel

/-- What the assignments of the source put into the return state. -/
theorem bits_assignments : ∀ f d, ∀ r < 16, ∀ c < 16,
    bits f d r c ||| 0x4000 = bits true d r c ∧
      bits f d r c ||| 0x2000 = bits f true r c ∧
      bits f d 0 c ||| UInt16.ofNat r * 0x0010 = bits f d r c ∧
      bits f d r 0 ||| UInt16.ofNat c * 0x0001 = bits f d r c := by
  decide +kernel

section

variable (f d : Bool) (r : Nat) (hr : r < 16) (c : Nat) (hc : c < 16)

include hr hc

theorem isFractionated_bits : isFractionated (bits f d r c) = f :=
  (bits_tests f d r hr c hc).1

theorem bits_rows_iff : bits f d r c &&& 0x00F0 = 0 ↔ r = 0 :=
  (bits_tests f d r hr c hc).2.1

theorem bits_columns_iff : bits f d r c &&& 0x000F = 0 ↔ c = 0 :=
  (bits_tests f d r hr c hc).2.2.1

theorem bits_sizes_iff : bits f d r c &&& 0x00FF = 0 ↔ r = 0 ∧ c = 0 :=
  (bits_tests f d r hr c hc).2.2.2.1

theorem bits_product :
    ((bits f d r c &&& 0x00F0) / 0x0010).toNat * (bits f d r c &&& 0x000F).toNat = r * c :=
  (bits_tests f d r hr c hc).2.2.2.2.1

theorem bits_help : bits f d r c &&& 0x8000 = 0 :=
  (bits_tests f d r hr c hc).2.2.2.2.2

theorem bits_or_fractionated : bits f d r c ||| 0x4000 = bits true d r c :=
  (bits_assignments f d r hr c hc).1

theorem bits_or_decrypt : bits f d r c ||| 0x2000 = bits f true r c :=
  (bits_assignments f d r hr c hc).2.1

theorem bits_or_rows : bits f d 0 c ||| UInt16.ofNat r * 0x0010 = bits f d r c :=
  (bits_assignments f d r hr c hc).2.2.1

theorem bits_or_columns : bits f d r 0 ||| UInt16.ofNat c * 0x0001 = bits f d r c :=
  (bits_assignments f d r hr c hc).2.2.2

end

theorem bits_or_default : ∀ f d, bits f d 0 0 ||| 0x00AA = bits f d 10 10 := by
  decide

/-! ## One turn of the loop -/

theorem argLoop_flag {letter : UInt8} {bits : UInt16}
    (hbranch : branch (s.count + 1) letter = .flag bits) (lead : UInt8)
    (rest : List (List UInt8)) :
    argLoop s ([lead, letter] :: rest) =
      argLoop { s with count := s.count + 1, returnState := s.returnState ||| bits } rest := by
  simp [argLoop, hbranch]

theorem argLoop_value {letter : UInt8} {kind : Kind} {s' : Parse} {value : List UInt8}
    (hbranch : branch (s.count + 1) letter = .value kind) (lead : UInt8)
    (hturn : valueTurn kind { s with count := s.count + 1 } (some value) = .ok s')
    (rest : List (List UInt8)) :
    argLoop s ([lead, letter] :: value :: rest) = argLoop s' rest := by
  simp [argLoop, hbranch, hturn]

theorem argLoop_unknown {letter : UInt8} (hbranch : branch (s.count + 1) letter = .unknown)
    (lead : UInt8) (rest : List (List UInt8)) :
    argLoop s ([lead, letter] :: rest) = argLoop { s with count := 0 } rest := by
  simp [argLoop, hbranch]

/-- A key that is there is read without going beyond the arguments. -/
theorem keyLoop_ne_nullArgument (fractionated : Bool) (value : List UInt8) (globals : Globals) :
    keyLoop fractionated value globals ≠ .error (.trapped .nullArgument) := by
  fun_induction keyLoop fractionated value globals with
  | case1 globals => simp
  | case2 globals c rest hends => simp
  | case3 globals c rest hends trap hcheck =>
      unfold isvalidchar at hcheck
      simp only at hcheck
      split_ifs at hcheck
      cases hcheck
      simp
  | case4 globals c rest hends globals' hcheck => simp
  | case5 globals c rest hends globals' hcheck ih => exact ih

@[inherit_doc keyLoop_ne_nullArgument]
theorem valueTurn_ne_nullArgument (kind : Kind) (s : Parse) (value : List UInt8) :
    valueTurn kind s (some value) ≠ .error (.trapped .nullArgument) := by
  have hsize (mask unit : UInt16) :
      sizeTurn mask unit s (some value) ≠ .error (.trapped .nullArgument) := by
    cases hnumber : numberLoop value 0 with
    | none =>
        simp only [sizeTurn, hnumber]
        split_ifs <;> simp
    | some num =>
        simp only [sizeTurn, hnumber]
        split_ifs <;> simp
  cases kind with
  | key =>
      simp only [valueTurn, keyTurn]
      split
      · simp
      · cases hloop : keyLoop (isFractionated s.returnState) value s.globals with
        | error exit =>
            intro h
            cases h
            exact keyLoop_ne_nullArgument _ _ _ hloop
        | ok globals =>
            intro h
            cases h
  | rows => exact hsize _ _
  | columns => exact hsize _ _

/-- The key branch goes through for a key whose checked part is valid, behind an
empty key. -/
theorem keyTurn_eq_ok_iff {s' : Parse} {value : List UInt8} {stored : List UInt8}
    (hzero : (0 : UInt8) ∉ s.globals.key)
    (hstored : s.globals.key = [] → stored = [])
    (hvalid : ValidKey (alphabetOf (isFractionated s.returnState)) stored)
    (htable : s.globals.table (isFractionated s.returnState) =
      padded (tableSize (isFractionated s.returnState)) stored) :
    keyTurn s (some value) = .ok s' ↔
      s.globals.key = [] ∧
        ValidKey (alphabetOf (isFractionated s.returnState)) (checkedPart value) ∧
        s' = { s with globals := { s.globals.setTable (isFractionated s.returnState)
          (padded (tableSize (isFractionated s.returnState)) (checkedPart value)) with
            key := value } } := by
  by_cases hkey : s.globals.key = []
  · rw [hstored hkey] at hvalid htable
    have hloop : ∀ globals', keyLoop _ value s.globals = .ok globals' ↔ _ :=
      fun _ => keyLoop_eq_ok_iff hvalid htable
    simp only [List.nil_append] at hloop
    simp only [keyTurn, hkey, List.headD_nil, ne_eq, not_true_eq_false, if_false, true_and]
    cases hrun : keyLoop (isFractionated s.returnState) value s.globals with
    | error exit =>
        have hinvalid : ¬ ValidKey (alphabetOf (isFractionated s.returnState))
            (checkedPart value) := by
          intro hpart
          have hok := (hloop _).mpr ⟨hpart, rfl⟩
          rw [hrun] at hok
          cases hok
        simp [Except.map, hinvalid]
    | ok globals' =>
        obtain ⟨hpart, rfl⟩ := (hloop globals').mp hrun
        simp only [Except.map, Except.ok.injEq, hpart, true_and, eq_comm]
  · have hhead : s.globals.key.headD 0 ≠ 0 := by
      cases hcases : s.globals.key with
      | nil => exact absurd hcases hkey
      | cons c key =>
          rintro rfl
          simp [hcases] at hzero
    simp only [keyTurn, hhead, hkey, if_true, ne_eq, not_false_eq_true, false_and, reduceCtorEq]

/-- A size branch goes through for a number from 9 to 15 behind neither
{lit}`-f` nor another size. -/
theorem sizeTurn_eq_ok_iff {mask unit : UInt16} {s' : Parse} {value : List UInt8} :
    sizeTurn mask unit s (some value) = .ok s' ↔
      isFractionated s.returnState = false ∧ s.returnState &&& mask = 0 ∧ ReadsSize value ∧
        s' = { s with
          returnState := s.returnState ||| UInt16.ofNat (readSize value) * unit } := by
  by_cases hmode : isFractionated s.returnState = true
  · simp [sizeTurn, hmode]
  by_cases hmask : s.returnState &&& mask = 0
  · simp only [sizeTurn, hmode, hmask, numberLoop_eq, Bool.false_eq_true, if_false, ne_eq,
      not_true_eq_false, true_and]
    by_cases hletter : (checkedPart value).all (· ≤ 57) = true
    · rw [if_pos hletter]
      by_cases hbound : wrapInt (decimal (checkedPart value)) > 15 ∨
          wrapInt (decimal (checkedPart value)) < 9
      · have hreads : ¬ ReadsSize value := by
          intro h
          have hnine := h.nine_le
          have hfifteen := h.le_fifteen
          omega
        simp [hbound, hreads]
      · have hreads : ReadsSize value := ⟨by simpa using hletter, by omega, by omega⟩
        simp only [hbound, if_false, Except.ok.injEq, hreads, readSize, true_and, eq_comm]
    · have hreads : ¬ ReadsSize value := fun h => hletter (by simpa using h.noLetter)
      simp only [hletter, hreads, if_false, false_and, reduceCtorEq, Bool.false_eq_true]
  · simp [sizeTurn, hmode, hmask]

/-! ## The state behind a sequence of items -/

/-- What the loop has stored after these items. -/
structure Tracks (before : List Item) (s : Parse) : Prop where
  count : s.count = place before
  returnState : s.returnState = bits (fractionated before) (decrypting before)
    (size before .rows) (size before .columns)
  rows : size before .rows < 16 ∧ (size before .rows = 0 ↔ values before .rows = [])
  columns : size before .columns < 16 ∧ (size before .columns = 0 ↔ values before .columns = [])
  key : s.globals.key = [] ↔ ∀ value ∈ values before .key, value = []
  key_nonzero : (0 : UInt8) ∉ s.globals.key
  tables : ∀ fractionated, ∃ stored, ValidKey (alphabetOf fractionated) stored ∧
    (s.globals.key = [] → stored = []) ∧
    s.globals.table fractionated = padded (tableSize fractionated) stored

theorem Tracks.mode_eq (h : Tracks before s) :
    isFractionated s.returnState = fractionated before := by
  rw [h.returnState, isFractionated_bits _ _ _ h.rows.1 _ h.columns.1]

/-- The branch of a value goes through exactly for an admitted one. -/
theorem Tracks.valueTurn_ok_iff (h : Tracks before s) (kind : Kind) (value : List UInt8)
    (n : Nat) : (∃ s', valueTurn kind { s with count := n } (some value) = .ok s') ↔
      ValueAdmitted before kind value := by
  cases kind with
  | key =>
      obtain ⟨stored, hvalid, hempty, htable⟩ := h.tables (fractionated before)
      rw [← h.mode_eq] at hvalid htable
      simp only [valueTurn, ValueAdmitted, ← h.key, ← h.mode_eq,
        keyTurn_eq_ok_iff (s := { s with count := n }) h.key_nonzero hempty hvalid htable]
      exact ⟨fun ⟨_, hkey, hpart, _⟩ => ⟨hkey, hpart⟩,
        fun ⟨hkey, hpart⟩ => ⟨_, hkey, hpart, rfl⟩⟩
  | rows =>
      have hmask : s.returnState &&& 0x00F0 = 0 ↔ values before .rows = [] := by
        rw [h.returnState, bits_rows_iff _ _ _ h.rows.1 _ h.columns.1, h.rows.2]
      simp only [valueTurn, ValueAdmitted, sizeTurn_eq_ok_iff, h.mode_eq, hmask]
      exact ⟨fun ⟨_, hmode, hfirst, hreads, _⟩ => ⟨hmode, hfirst, hreads⟩,
        fun ⟨hmode, hfirst, hreads⟩ => ⟨_, hmode, hfirst, hreads, rfl⟩⟩
  | columns =>
      have hmask : s.returnState &&& 0x000F = 0 ↔ values before .columns = [] := by
        rw [h.returnState, bits_columns_iff _ _ _ h.rows.1 _ h.columns.1, h.columns.2]
      simp only [valueTurn, ValueAdmitted, sizeTurn_eq_ok_iff, h.mode_eq, hmask]
      exact ⟨fun ⟨_, hmode, hfirst, hreads, _⟩ => ⟨hmode, hfirst, hreads⟩,
        fun ⟨hmode, hfirst, hreads⟩ => ⟨_, hmode, hfirst, hreads, rfl⟩⟩

theorem ReadsSize.bounds {value : List UInt8} (h : ReadsSize value) :
    9 ≤ readSize value ∧ readSize value < 16 := by
  have hnine := h.nine_le
  have hfifteen := h.le_fifteen
  unfold readSize
  omega

/-- The branch of an option with a value keeps track of it. -/
theorem Tracks.value_step (h : Tracks before s) {lead : UInt8} {kind : Kind}
    {value : List UInt8} {s' : Parse} (hvalue : (0 : UInt8) ∉ value)
    (hturn : valueTurn kind { s with count := s.count + 1 } (some value) = .ok s') :
    Tracks (before ++ [.parameter lead kind value]) s' := by
  have hcount : s.count + 1 = place (before ++ [.parameter lead kind value]) := by
    rw [place_concat, h.count]
  cases kind with
  | key =>
      obtain ⟨stored, hvalid, hempty, htable⟩ := h.tables (fractionated before)
      rw [← h.mode_eq] at hvalid htable
      obtain ⟨hkey, hpart, rfl⟩ := (keyTurn_eq_ok_iff (s := { s with count := s.count + 1 })
        h.key_nonzero hempty hvalid htable).mp hturn
      refine ⟨hcount, ?_, ?_, ?_, ?_, hvalue, ?_⟩
      · simpa [size] using h.returnState
      · simpa [size] using h.rows
      · simpa [size] using h.columns
      · have hbefore := h.key.mp hkey
        simp only [values_concat, if_true, List.mem_append, List.mem_singleton]
        constructor
        · rintro rfl earlier (hearlier | rfl)
          · exact hbefore earlier hearlier
          · rfl
        · intro hall
          exact hall value (Or.inr rfl)
      · intro other
        by_cases hother : other = isFractionated s.returnState
        · subst hother
          refine ⟨checkedPart value, hpart, ?_, Globals.table_setTable _ _ _⟩
          rintro rfl
          rfl
        · obtain ⟨stored', hvalid', hempty', htable'⟩ := h.tables other
          exact ⟨stored', hvalid', fun _ => hempty' hkey,
            (Globals.table_setTable_of_ne _ hother _).trans htable'⟩
  | rows =>
      obtain ⟨hmode, hmask, hreads, rfl⟩ := sizeTurn_eq_ok_iff.mp hturn
      have hbounds := hreads.bounds
      have hzero : size before .rows = 0 := by
        rwa [h.returnState, bits_rows_iff _ _ _ h.rows.1 _ h.columns.1] at hmask
      have hfirst := h.rows.2.mp hzero
      have hsize : size (before ++ [.parameter lead .rows value]) .rows = readSize value := by
        simp [size, hfirst]
      refine ⟨hcount, ?_, ⟨?_, ?_⟩, ?_, ?_, h.key_nonzero, h.tables⟩
      · have hstate := h.returnState
        rw [hzero] at hstate
        rw [hsize, hstate, bits_or_rows _ _ _ hbounds.2 _ h.columns.1]
        simp [size]
      · exact hsize ▸ hbounds.2
      · simp only [hsize, values_concat, if_true, List.append_eq_nil_iff, reduceCtorEq, and_false,
          iff_false]
        omega
      · simpa [size] using h.columns
      · simpa using h.key
  | columns =>
      obtain ⟨hmode, hmask, hreads, rfl⟩ := sizeTurn_eq_ok_iff.mp hturn
      have hbounds := hreads.bounds
      have hzero : size before .columns = 0 := by
        rwa [h.returnState, bits_columns_iff _ _ _ h.rows.1 _ h.columns.1] at hmask
      have hfirst := h.columns.2.mp hzero
      have hsize : size (before ++ [.parameter lead .columns value]) .columns =
          readSize value := by
        simp [size, hfirst]
      refine ⟨hcount, ?_, ?_, ⟨?_, ?_⟩, ?_, h.key_nonzero, h.tables⟩
      · have hstate := h.returnState
        rw [hzero] at hstate
        rw [hsize, hstate, bits_or_columns _ _ _ h.rows.1 _ hbounds.2]
        simp [size]
      · simpa [size] using h.rows
      · exact hsize ▸ hbounds.2
      · simp only [hsize, values_concat, if_true, List.append_eq_nil_iff, reduceCtorEq, and_false,
          iff_false]
        omega
      · simpa using h.key

/-! ## Items and branches -/

theorem branch_mode : ∀ fractionated, branch 1 (modeLetter fractionated) =
    .flag (if fractionated then 0x4000 else 0x0000) := by
  decide

theorem branch_direction : ∀ decrypt, branch 2 (directionLetter decrypt) =
    .flag (if decrypt then 0x2000 else 0x0000) := by
  decide

theorem branch_value {count : Nat} (hcount : 2 < count) (kind : Kind) :
    branch count kind.letter = .value kind := by
  cases kind <;> simp [branch, Kind.letter, hcount]

/-- The options a flag branch is taken for. -/
theorem branch_eq_flag {count : Nat} {letter : UInt8} {bits : UInt16}
    (h : branch count letter = .flag bits) :
    (count = 1 ∧ ∃ fractionated, letter = modeLetter fractionated) ∨
      (count = 2 ∧ ∃ decrypt, letter = directionLetter decrypt) := by
  unfold branch at h
  split_ifs at h with _ hp hf he hd
  · exact Or.inl ⟨hp.2, false, hp.1⟩
  · exact Or.inl ⟨hf.2, true, hf.1⟩
  · exact Or.inr ⟨he.2, false, he.1⟩
  · exact Or.inr ⟨hd.2, true, hd.1⟩

theorem branch_eq_value {count : Nat} {letter : UInt8} {kind : Kind}
    (h : branch count letter = .value kind) : 2 < count ∧ letter = kind.letter := by
  unfold branch at h
  split_ifs at h with _ _ _ _ _ hk hr hc <;> cases h
  · exact ⟨hk.2, hk.1⟩
  · exact ⟨hr.2, hr.1⟩
  · exact ⟨hc.2, hc.1⟩

/-- An item without a value changes the counter and the flags only. -/
theorem Tracks.keep (h : Tracks before s) {item : Item} {n : Nat} {flags : UInt16}
    (hvalues : ∀ kind, values (before ++ [item]) kind = values before kind)
    (hcount : n = place (before ++ [item]))
    (hflags : flags = bits (fractionated (before ++ [item])) (decrypting (before ++ [item]))
      (size before .rows) (size before .columns)) :
    Tracks (before ++ [item]) { s with count := n, returnState := flags } where
  count := hcount
  returnState := by simpa only [size, hvalues] using hflags
  rows := by simpa only [size, hvalues] using h.rows
  columns := by simpa only [size, hvalues] using h.columns
  key := by simpa only [hvalues] using h.key
  key_nonzero := h.key_nonzero
  tables := h.tables

/-- An admitted item is taken in one turn, and the loop keeps track of it. -/
theorem Tracks.step (h : Tracks before s) {item : Item} (hitem : item.Admitted before)
    (harguments : ∀ arg ∈ item.arguments, (0 : UInt8) ∉ arg) :
    ∃ s', Tracks (before ++ [item]) s' ∧
      ∀ rest, argLoop s (item.arguments ++ rest) = argLoop s' rest := by
  cases item with
  | mode lead f =>
      have hcount : s.count + 1 = 1 := by rw [h.count, hitem]
      have hbranch := branch_mode f
      rw [← hcount] at hbranch
      refine ⟨_, h.keep (by simp) (by simp [h.count]) ?_, argLoop_flag hbranch lead⟩
      rw [h.returnState]
      cases f
      · simp
      · simpa using bits_or_fractionated _ _ _ h.rows.1 _ h.columns.1
  | direction lead d =>
      have hcount : s.count + 1 = 2 := by rw [h.count, hitem]
      have hbranch := branch_direction d
      rw [← hcount] at hbranch
      refine ⟨_, h.keep (by simp) (by simp [h.count]) ?_, argLoop_flag hbranch lead⟩
      rw [h.returnState]
      cases d
      · simp
      · simpa using bits_or_decrypt _ _ _ h.rows.1 _ h.columns.1
  | parameter lead kind value =>
      obtain ⟨hplace, hvalue⟩ := hitem
      obtain ⟨s', hturn⟩ := (h.valueTurn_ok_iff kind value (s.count + 1)).mpr hvalue
      have hbranch : branch (s.count + 1) kind.letter = .value kind :=
        branch_value (by rw [h.count]; omega) kind
      exact ⟨s', h.value_step (harguments value (by simp [Item.arguments])) hturn,
        argLoop_value hbranch lead hturn⟩
  | restart lead letter =>
      have hbranch : branch (s.count + 1) letter = .unknown := h.count ▸ hitem
      exact ⟨_, h.keep (by simp) (by simp) (by simpa using h.returnState),
        argLoop_unknown hbranch lead⟩

/-- A turn takes an admitted item, or it is at an option whose value is missing, or it ends
the loop inside the arguments. -/
theorem Tracks.turn (h : Tracks before s) {arg : List UInt8} (harg : (0 : UInt8) ∉ arg)
    (rest : List (List UInt8)) :
    (∃ (item : Item) (rest' : List (List UInt8)), item.Admitted before ∧
        arg :: rest = item.arguments ++ rest') ∨
      (∃ lead kind, arg = [lead, Kind.letter kind] ∧ rest = [] ∧ 2 ≤ place before) ∨
      ∃ exit, argLoop s (arg :: rest) = .error exit ∧ exit ≠ .trapped .nullArgument := by
  rcases arg with _ | ⟨lead, _ | ⟨letter, tail⟩⟩
  · exact Or.inr (Or.inr ⟨_, rfl, by simp⟩)
  · exact Or.inr (Or.inr ⟨_, rfl, by simp⟩)
  rcases tail with _ | ⟨c, tail⟩
  · cases hbranch : branch (s.count + 1) letter with
    | help =>
        refine Or.inr (Or.inr ⟨.returned 0x8000 s.globals, ?_, by simp⟩)
        simp [argLoop, hbranch]
    | flag bits =>
        rw [h.count] at hbranch
        obtain ⟨hplace, f, rfl⟩ | ⟨hplace, d, rfl⟩ := branch_eq_flag hbranch
        · exact Or.inl ⟨.mode lead f, rest, Nat.succ_injective hplace, rfl⟩
        · exact Or.inl ⟨.direction lead d, rest, Nat.succ_injective hplace, rfl⟩
    | unknown =>
        rw [h.count] at hbranch
        exact Or.inl ⟨.restart lead letter, rest, hbranch, rfl⟩
    | value kind =>
        obtain ⟨hplace, rfl⟩ := branch_eq_value hbranch
        rw [h.count] at hplace
        rcases rest with _ | ⟨value, rest⟩
        · exact Or.inr (Or.inl ⟨lead, kind, rfl, rfl, Nat.le_of_lt_succ hplace⟩)
        · cases hturn : valueTurn kind { s with count := s.count + 1 } (some value) with
          | error exit =>
              refine Or.inr (Or.inr ⟨exit, ?_, ?_⟩)
              · simp [argLoop, hbranch, hturn]
              · rintro rfl
                exact valueTurn_ne_nullArgument _ _ _ hturn
          | ok s' =>
              exact Or.inl ⟨.parameter lead kind value, rest,
                ⟨Nat.le_of_lt_succ hplace, (h.valueTurn_ok_iff kind value _).mp ⟨_, hturn⟩⟩, rfl⟩
  · have hc : c ≠ 0 := by
      rintro rfl
      simp at harg
    refine Or.inr (Or.inr ⟨.returned 0 s.globals, ?_, by simp⟩)
    simp [argLoop, hc]

/-- An option at the end of the arguments ends the loop. -/
theorem argLoop_last {letter : UInt8} {kind : Kind}
    (hbranch : branch (s.count + 1) letter = .value kind) (lead : UInt8) :
    argLoop s [[lead, letter]] = valueTurn kind { s with count := s.count + 1 } none := by
  simp [argLoop, hbranch]

theorem valueTurn_none_ne_ok (kind : Kind) (s s' : Parse) : valueTurn kind s none ≠ .ok s' := by
  cases kind <;>
    simp only [valueTurn, keyTurn, sizeTurn] <;> split_ifs <;> simp

/-- A turn that goes through takes an admitted item. -/
theorem Tracks.exists_item (h : Tracks before s) {arg : List UInt8}
    {rest : List (List UInt8)} {s' : Parse} (harg : (0 : UInt8) ∉ arg)
    (hloop : argLoop s (arg :: rest) = .ok s') :
    ∃ (item : Item) (rest' : List (List UInt8)), item.Admitted before ∧
      arg :: rest = item.arguments ++ rest' := by
  rcases h.turn harg rest with hitem | ⟨lead, kind, rfl, rfl, hplace⟩ | ⟨exit, hexit, -⟩
  · exact hitem
  · rw [argLoop_last (branch_value (by rw [h.count]; omega) kind)] at hloop
    exact absurd hloop (valueTurn_none_ne_ok _ _ _)
  · rw [hexit] at hloop
    cases hloop

/-! ## Runs of the loop -/

/-- An admitted sequence of items is taken, and the loop goes on behind it. -/
theorem Tracks.run_append (h : Tracks before s) {items : List Item}
    (hitems : Throughout Item.Admitted before items)
    (harguments : ∀ arg ∈ items.flatMap Item.arguments, (0 : UInt8) ∉ arg) :
    ∃ s', Tracks (before ++ items) s' ∧
      ∀ rest, argLoop s (items.flatMap Item.arguments ++ rest) = argLoop s' rest := by
  induction items generalizing before s with
  | nil => exact ⟨s, by simpa using h, fun rest => rfl⟩
  | cons item items ih =>
      rw [List.flatMap_cons] at harguments ⊢
      obtain ⟨s', hs', hturn⟩ := h.step hitems.1
        fun arg harg => harguments arg (List.mem_append_left _ harg)
      obtain ⟨s'', htracks, hrun⟩ := ih hs' hitems.2
        fun arg harg => harguments arg (List.mem_append_right _ harg)
      rw [List.append_assoc] at htracks
      refine ⟨s'', htracks, fun rest => ?_⟩
      rw [List.append_assoc, hturn, hrun]

/-- An admitted sequence of items is taken. -/
theorem Tracks.run (h : Tracks before s) {items : List Item}
    (hitems : Throughout Item.Admitted before items)
    (harguments : ∀ arg ∈ items.flatMap Item.arguments, (0 : UInt8) ∉ arg) :
    ∃ s', argLoop s (items.flatMap Item.arguments) = .ok s' ∧ Tracks (before ++ items) s' := by
  obtain ⟨s', htracks, hrun⟩ := h.run_append hitems harguments
  have hend := hrun []
  rw [List.append_nil, argLoop] at hend
  exact ⟨s', hend, htracks⟩

/-- Arguments the loop goes through are an admitted sequence of items. -/
theorem Tracks.exists_items (h : Tracks before s) {arguments : List (List UInt8)}
    {s' : Parse} (harguments : ∀ arg ∈ arguments, (0 : UInt8) ∉ arg)
    (hloop : argLoop s arguments = .ok s') :
    ∃ items, Throughout Item.Admitted before items ∧
      arguments = items.flatMap Item.arguments := by
  induction hlen : arguments.length using Nat.strong_induction_on
    generalizing before s arguments with
  | _ n ih =>
      cases arguments with
      | nil => exact ⟨[], trivial, rfl⟩
      | cons arg rest =>
          obtain ⟨item, rest', hitem, heq⟩ := h.exists_item (harguments arg (by simp)) hloop
          rw [heq] at harguments hloop hlen ⊢
          obtain ⟨s'', hs'', hturn⟩ := h.step hitem
            fun arg harg => harguments arg (List.mem_append_left _ harg)
          rw [hturn] at hloop
          have hshort : rest'.length < n := by
            rw [← hlen, List.length_append]
            cases item <;> simp [Item.arguments]
          obtain ⟨items, hitems, rfl⟩ := ih _ hshort hs''
            (fun arg harg => harguments arg (List.mem_append_right _ harg)) hloop rfl
          exact ⟨item :: items, ⟨hitem, hitems⟩, rfl⟩

/-! ## Acceptance -/

/-- The table of the mode has room for the alphabet. -/
def HasRoom (items : List Item) : Prop :=
  fractionated items = true ∨ (values items .rows = [] ∧ values items .columns = []) ∨
    polybiusAlphabet.length ≤ size items .rows * size items .columns

/-- The item sequences that the parser accepts. -/
structure AcceptedItems (items : List Item) : Prop where
  admitted : Throughout Item.Admitted [] items
  finished : 2 ≤ place items
  room : HasRoom items

theorem positive_polybiusAlphabet :
    (polybiusAlphabet.takeWhile (0 < signed ·)).length = polybiusAlphabet.length := by
  rw [List.takeWhile_eq_self_iff.mpr]
  intro c hc
  simpa using (alphabetOf_letter false c hc).1

theorem bits_ne_zero {f d : Bool} {r c : Nat} (hr : r < 16) (hc : c < 16)
    (h : f = true ∨ r ≠ 0) : bits f d r c ≠ 0 := by
  intro hzero
  rcases h with rfl | hrows
  · have hmode := isFractionated_bits true d r hr c hc
    rw [hzero] at hmode
    exact absurd hmode (by decide)
  · exact hrows ((bits_rows_iff f d r hr c hc).mp (by rw [hzero]; rfl))

/-- The sizes behind the loop, with the default. -/
def finalSizes (items : List Item) : Nat × Nat :=
  if size items .rows = 0 ∧ size items .columns = 0 ∧ fractionated items = false then (10, 10)
  else (size items .rows, size items .columns)

theorem Tracks.finalSizes_lt {items : List Item} (h : Tracks items s) :
    (finalSizes items).1 < 16 ∧ (finalSizes items).2 < 16 := by
  unfold finalSizes
  split_ifs
  · decide
  · exact ⟨h.rows.1, h.columns.1⟩

/-- The end of {lit}`validargs` rejects an unfinished command line and a table
without room, and otherwise returns the bits and clears the table. -/
theorem Tracks.afterLoop_eq {items : List Item} (h : Tracks items s) :
    ∃ globals, afterLoop s = .ok
      (if place items < 2 ∨ fractionated items = false ∧
          (finalSizes items).1 * (finalSizes items).2 < polybiusAlphabet.length then 0
        else bits (fractionated items) (decrypting items) (finalSizes items).1
          (finalSizes items).2, globals) := by
  have hfinal := h.finalSizes_lt
  have hreturn : (if s.returnState &&& 0x00FF = 0 ∧ isFractionated s.returnState = false then
      s.returnState ||| 0x00AA else s.returnState) =
      bits (fractionated items) (decrypting items) (finalSizes items).1 (finalSizes items).2 := by
    have hsizes := bits_sizes_iff (fractionated items) (decrypting items) _ h.rows.1 _ h.columns.1
    have hmode := isFractionated_bits (fractionated items) (decrypting items) _ h.rows.1 _
      h.columns.1
    simp only [h.returnState, hmode, hsizes, finalSizes, and_assoc]
    split_ifs with hdefault
    · rw [hdefault.1, hdefault.2.1, bits_or_default]
    · rfl
  simp only [afterLoop, hreturn, h.count, positive_polybiusAlphabet,
    isFractionated_bits _ _ _ hfinal.1 _ hfinal.2, bits_product _ _ _ hfinal.1 _ hfinal.2]
  by_cases hcount : place items < 2
  · simp [hcount]
  · by_cases hroom : fractionated items = false ∧
        (finalSizes items).1 * (finalSizes items).2 < polybiusAlphabet.length
    · simp [hcount, hroom]
    · obtain ⟨stored, hvalid, -, htable⟩ := h.tables (fractionated items)
      rw [htable, clearTable_padded hvalid]
      simp only [hcount, hroom, if_false, or_self, Except.map, Except.ok.injEq, Prod.mk.injEq,
        true_and, exists_eq']

theorem hasRoom_iff {items : List Item} (h : Tracks items s) :
    HasRoom items ↔ ¬ (fractionated items = false ∧
      (finalSizes items).1 * (finalSizes items).2 < polybiusAlphabet.length) := by
  have hlength : polybiusAlphabet.length = 94 := rfl
  rw [HasRoom, finalSizes, ← h.rows.2, ← h.columns.2, hlength]
  cases fractionated items
  · split_ifs with hdefault
    · simp [hdefault]
    · simp only [false_or, true_and, not_lt]
      constructor
      · rintro (hzero | hroom)
        · exact absurd ⟨hzero.1, hzero.2, rfl⟩ hdefault
        · exact hroom
      · exact Or.inr
  · simp

/-- The end of {lit}`validargs` returns a mode for a finished command line with
room in the table. -/
theorem Tracks.afterLoop_accepts_iff {items : List Item} (h : Tracks items s) :
    (∃ value globals, afterLoop s = .ok (value, globals) ∧ value ≠ 0 ∧ value &&& 0x8000 = 0) ↔
      2 ≤ place items ∧ HasRoom items := by
  obtain ⟨globals, hafter⟩ := h.afterLoop_eq
  rw [hafter, hasRoom_iff h]
  by_cases hreject : place items < 2 ∨ fractionated items = false ∧
      (finalSizes items).1 * (finalSizes items).2 < polybiusAlphabet.length
  · rw [if_pos hreject]
    constructor
    · rintro ⟨value, globals', heq, hvalue, -⟩
      cases heq
      exact absurd rfl hvalue
    · rintro ⟨hplace, hroom⟩
      exact absurd hreject (by simp [hroom, Nat.not_lt.mpr hplace])
  · rw [if_neg hreject]
    rw [not_or, Nat.not_lt] at hreject
    have hsizes := h.finalSizes_lt
    refine ⟨fun _ => hreject, fun _ => ⟨_, _, rfl, ?_, bits_help _ _ _ hsizes.1 _ hsizes.2⟩⟩
    apply bits_ne_zero hsizes.1 hsizes.2
    by_cases hmode : fractionated items = true
    · exact Or.inl hmode
    · right
      intro hzero
      apply hreject.2
      rw [hzero, Nat.zero_mul]
      exact ⟨Bool.eq_false_iff.mpr hmode, by decide⟩

/-- The key loop returns nothing but 0. -/
theorem keyLoop_returned {fractionated : Bool} {value : List UInt8} {globals globals' : Globals}
    {result : UInt16}
    (h : keyLoop fractionated value globals = .error (.returned result globals')) :
    result = 0 := by
  fun_induction keyLoop fractionated value globals with
  | case1 globals => cases h
  | case2 globals c rest hends => cases h
  | case3 globals c rest hends trap hcheck => cases h
  | case4 globals c rest hends globals'' hcheck =>
      cases h
      rfl
  | case5 globals c rest hends globals'' hcheck ih => exact ih h

/-- The branch of a value returns nothing but 0. -/
theorem valueTurn_returned {kind : Kind} {value : Option (List UInt8)} {result : UInt16}
    {globals : Globals} (h : valueTurn kind s value = .error (.returned result globals)) :
    result = 0 := by
  have hsize : ∀ mask unit, sizeTurn mask unit s value = .error (.returned result globals) →
      result = 0 := by
    intro mask unit hturn
    unfold sizeTurn at hturn
    split at hturn
    · cases hturn
      rfl
    split at hturn
    · cases hturn
      rfl
    split at hturn
    · cases hturn
    split at hturn
    · cases hturn
      rfl
    split at hturn <;> cases hturn
    rfl
  cases kind with
  | key =>
      rw [valueTurn] at h
      unfold keyTurn at h
      split at h
      · cases h
        rfl
      cases value with
      | none => cases h
      | some value =>
          simp only at h
          cases hloop : keyLoop (isFractionated s.returnState) value s.globals with
          | error exit =>
              rw [hloop] at h
              cases h
              exact keyLoop_returned hloop
          | ok globals' =>
              rw [hloop] at h
              cases h
  | rows => exact hsize _ _ h
  | columns => exact hsize _ _ h

/-- A loop that does not go through returns 0 or the bit of {lit}`-h`. -/
theorem argLoop_returned {arguments : List (List UInt8)} {result : UInt16} {globals : Globals}
    (h : argLoop s arguments = .error (.returned result globals)) :
    result = 0 ∨ result = 0x8000 := by
  fun_induction argLoop s arguments with
  | case1 s => cases h
  | case2 s lead letter tail rest htail =>
      cases h
      exact Or.inl rfl
  | case3 s lead letter tail rest htail hbranch =>
      cases h
      exact Or.inr rfl
  | case4 s lead letter tail rest htail bits hbranch ih => exact ih h
  | case5 s lead letter tail htail kind hbranch => exact Or.inl (valueTurn_returned h)
  | case6 s lead letter tail htail kind hbranch value rest exit hturn =>
      cases h
      exact Or.inl (valueTurn_returned hturn)
  | case7 s lead letter tail htail kind hbranch value rest s' hturn ih => exact ih h
  | case8 s lead letter tail rest htail hbranch ih => exact ih h
  | case9 s arg rest hshort => cases h

/-! ## AcceptedItems argument lists -/

/-- The parser returns a mode: neither the failure value nor the bit of
{lit}`-h`. -/
def Accepts (argv : List CString) : Prop :=
  ∃ value globals, validargs argv .startup = .ok (value, globals) ∧
    value ≠ 0 ∧ value &&& 0x8000 = 0

/-- The argument strings behind the program name. -/
def operands (argv : List CString) : List (List UInt8) :=
  (argv.drop 1).map CString.bytes

theorem operands_nonzero (argv : List CString) : ∀ arg ∈ operands argv, (0 : UInt8) ∉ arg := by
  intro arg harg
  obtain ⟨string, -, rfl⟩ := List.mem_map.mp harg
  exact string.nonzero

/-- The loop starts behind no item. -/
theorem tracks_startup : Tracks [] ⟨0, 0, { Globals.startup with key := [] }⟩ where
  count := rfl
  returnState := by decide
  rows := by decide
  columns := by decide
  key := by simp [values]
  key_nonzero := by simp
  tables := by
    intro fractionated
    refine ⟨[], validKey_nil _, fun _ => rfl, ?_⟩
    cases fractionated <;> rfl

theorem validargs_of_argLoop {argv : List CString}
    (h : argLoop ⟨0, 0, { Globals.startup with key := [] }⟩ (operands argv) = .ok s) :
    validargs argv .startup = afterLoop s := by
  rw [validargs, ← operands, h]

/-- The parser accepts exactly the accepted sequences of items. -/
theorem validargs_accepts_iff (argv : List CString) :
    Accepts argv ↔ ∃ items, AcceptedItems items ∧ operands argv = items.flatMap Item.arguments := by
  constructor
  · intro haccepts
    cases hloop : argLoop ⟨0, 0, { Globals.startup with key := [] }⟩ (operands argv) with
    | error exit =>
        obtain ⟨value, globals, hrun, hvalue, hhelp⟩ := haccepts
        rw [validargs, ← operands, hloop] at hrun
        cases exit with
        | trapped trap => cases hrun
        | returned result globals' =>
            cases hrun
            rcases argLoop_returned hloop with rfl | rfl
            · exact absurd rfl hvalue
            · exact absurd hhelp (by decide)
    | ok s =>
        obtain ⟨items, hitems, hoperands⟩ :=
          tracks_startup.exists_items (operands_nonzero argv) hloop
        obtain ⟨s', hloop', htracks⟩ := tracks_startup.run hitems
          (hoperands ▸ operands_nonzero argv)
        rw [Accepts, validargs_of_argLoop (hoperands ▸ hloop'),
          Tracks.afterLoop_accepts_iff htracks] at haccepts
        exact ⟨items, ⟨hitems, haccepts.1, haccepts.2⟩, hoperands⟩
  · rintro ⟨items, haccepted, hoperands⟩
    obtain ⟨s', hloop, htracks⟩ := tracks_startup.run haccepted.admitted
      (hoperands ▸ operands_nonzero argv)
    rw [Accepts, validargs_of_argLoop (hoperands ▸ hloop),
      Tracks.afterLoop_accepts_iff htracks]
    exact ⟨haccepted.finished, haccepted.room⟩

end SystemFundamentals.Cipher
