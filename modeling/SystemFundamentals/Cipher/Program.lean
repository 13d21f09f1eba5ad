import SystemFundamentals.Cipher.CommandLines
import SystemFundamentals.Cipher.MorseTexts

/-!
# The cipher program

The whole of {lit}`main` in {lit}`hw1/src/main.c`: the mode and the tables that {lit}`validargs`
leaves, the dispatch on the bits of the mode, and the four branches on these tables.  A text is
encrypted by one run of the program and decrypted by another one, whose command line differs in
the direction alone.

Main results:

- Theorem {lit}`validargs_prepares`: what the branches find in the mode and in the tables,
  whatever the command line was.
- Theorem {lit}`encryptProgram_iff`: when an encryption ends with success.
- Theorem {lit}`program_givesBack_iff`: for which command lines and byte sequences the second run
  gives back the input of the first one.
-/

namespace SystemFundamentals.Cipher

/-! ## The program -/

/-- What keeps a run from its end: an access of {lit}`validargs` or of the ciphers that leaves
its memory, or sizes that no table has. -/
inductive Stop
  | trap (trap : Trap)
  | overrun
  | sizes
deriving DecidableEq

/-- What a run has written when it ends, and whether it ends with {lit}`EXIT_SUCCESS`. -/
structure Ended where
  stdout : List UInt8
  stderr : List UInt8
  success : Bool
deriving DecidableEq

/-- The text of {lit}`USAGE` behind the program name. -/
def usageText : String :=
  "[-h] -p|-f -e|-d [-k KEY] [-r ROWS] [-c COLUMNS]\n" ++
  "    -p       Polybius Cipher\n" ++
  "             Additional parameters: [-e | -d] [-i INPUT_FILE] [-o OUTPUT_FILE] [-k KEY] " ++
  "[-r ROWS] [-c COLUMNS]\n" ++
  "                 -e           Encrypt using the Polybius cipher.\n" ++
  "                 -d           Decrypt using the Polybius cipher.\n" ++
  "                 -k           KEY is the key to be used in the cipher.\n" ++
  "                              It must have no repeated characters and each character in " ++
  "the key\n" ++
  "                              must be in the alphabet in `const.c`.\n" ++
  "                 -r           ROWS is the number of rows to be used in the Polybius cipher " ++
  "table.\n" ++
  "                              Must be between 10 and 16, inclusive. Defaults to 10\n" ++
  "                 -c           COLUMNS is the number of columns to be used in the Polybius " ++
  "cipher table.\n" ++
  "                              Must be between 10 and 16, inclusive. Defaults to 10\n" ++
  "\n" ++
  "    -f       Fractionated Morse Cipher\n" ++
  "             Additional parameters: [-e | -d] [-i INPUT_FILE] [-o OUTPUT_FILE] [-k KEY]\n" ++
  "                 -e           Encrypt using the Fractionated Morse cipher.\n" ++
  "                 -d           Decrypt using the Fractionated Morse cipher.\n" ++
  "                 -k           KEY is the key to be used in the cipher.\n" ++
  "                              It must have no repeated characters and each character in " ++
  "the key\n" ++
  "                              must be in the alphabet in `const.c`.\n" ++
  "\n" ++
  "    -h       Display this help menu."

/-- {lit}`USAGE(program_name, retcode)`, behind what was printed before. -/
def usage (stdout : List UInt8) (programName : CString) (success : Bool) : Ended :=
  ⟨stdout, "USAGE: ".toUTF8.toList ++ programName.bytes ++ " ".toUTF8.toList ++
    usageText.toUTF8.toList ++ "\n".toUTF8.toList, success⟩

/-- The rows and columns in the bits of a mode. -/
def polybiusMode (mode : UInt16) : Option PolybiusMode :=
  let rows := ((mode &&& 0x00F0) / 0x0010).toNat
  let cols := (mode &&& 0x000F).toNat
  if h : (9 ≤ rows ∧ rows ≤ 15) ∧ (9 ≤ cols ∧ cols ≤ 15) ∧
      polybiusAlphabet.length ≤ rows * cols then
    some ⟨rows, cols, h.1.1, h.1.2, h.2.1.1, h.2.1.2, h.2.2⟩
  else none

/-- {lit}`generatepolybiustable` on the table that {lit}`validargs` leaves. -/
def writePolybiusTable (mode : PolybiusMode) (globals : Globals) :
    Except Overrun (List UInt8) :=
  match copyKey globals.key 0 globals.polybiusTable with
  | .error stop => .error stop
  | .ok table =>
      checkedTableLoop globals.key (mode.rows * mode.cols - globals.key.length)
        globals.key.length 0 false table

/-- {lit}`generatemorsetable` on the bytes that {lit}`validargs` leaves. -/
def writeFmKey (globals : Globals) : Except Overrun (List UInt8) :=
  match copyKey globals.key 0 globals.fmKey with
  | .error stop => .error stop
  | .ok fmKey => checkedMorseTableLoop globals.key 27 globals.key.length 0 fmKey

/-- The branch of the Polybius cipher. -/
def polybiusBranch (mode : PolybiusMode) (decrypt : Bool) (globals : Globals)
    (input : List UInt8) : Except Overrun Run :=
  match writePolybiusTable mode globals with
  | .error stop => .error stop
  | .ok table =>
      if decrypt then (decryptLoop mode table (-1) (-1) input).map (⟨·, true⟩)
      else
        match encryptpolybius mode table (input.headD eof) with
        | .error stop => .error stop
        | .ok (false, _) => .ok ⟨[], true⟩
        | .ok (true, printed) =>
            (encryptLoop mode table input.tail).map fun rest => ⟨printed ++ rest, true⟩

/-- The branch of the Morse cipher; {lit}`polybius_table` is the buffer of its decryption. -/
def morseBranch (decrypt : Bool) (globals : Globals) (input : List UInt8) :
    Except Overrun Run :=
  match writeFmKey globals with
  | .error stop => .error stop
  | .ok fmKey =>
      if decrypt then morseDecryptLoop fmKey globals.polybiusTable false input
      else
        match encryptmorse (List.replicate 8 0) (input.headD eof) with
        | .error stop => .error stop
        | .ok none => .ok ⟨[], false⟩
        | .ok (some buffer) => morseEncryptLoop fmKey buffer false input.tail

/-- The end of a run of one of the ciphers. -/
def ended : Except Overrun Run → Except Stop Ended
  | .error .overrun => .error .overrun
  | .ok run => .ok ⟨run.printed, [], run.success⟩

/-- {lit}`main` behind {lit}`validargs`. -/
def dispatch (programName : CString) (mode : UInt16) (globals : Globals) (input : List UInt8) :
    Except Stop Ended :=
  if mode &&& 0x8000 ≠ 0 then .ok (usage [] programName true)
  else if mode = 0 then .ok (usage "an error occured\n".toUTF8.toList programName false)
  else if mode &&& 0x4000 ≠ 0 then
    ended (morseBranch (mode &&& 0x2000 != 0) globals input)
  else
    match polybiusMode mode with
    | none => .error .sizes
    | some sizes => ended (polybiusBranch sizes (mode &&& 0x2000 != 0) globals input)

/-- {lit}`main` with the arguments behind the program name, on the bytes of the standard
input. -/
def main (programName : CString) (arguments : List CString) (input : List UInt8) :
    Except Stop Ended :=
  match validargs (programName :: arguments) .startup with
  | .error trap => .error (.trap trap)
  | .ok (mode, globals) => dispatch programName mode globals input

/-! ## What the parser leaves -/

variable {before items : List Item} {s s' : Parse} {value : UInt16} {globals : Globals}

/-- A size that is given is at least 9. -/
theorem Throughout.size_bound (hitems : Throughout Item.Admitted before items) {kind : Kind}
    (hkind : kind ≠ .key) (hbefore : size before kind = 0 ∨ 9 ≤ size before kind) :
    size (before ++ items) kind = 0 ∨ 9 ≤ size (before ++ items) kind := by
  induction items generalizing before with
  | nil => rwa [List.append_nil]
  | cons item rest ih =>
      have hitem : size (before ++ [item]) kind = 0 ∨ 9 ≤ size (before ++ [item]) kind := by
        cases item with
        | mode lead f => simpa [size] using hbefore
        | direction lead d => simpa [size] using hbefore
        | restart lead letter => simpa [size] using hbefore
        | parameter lead kind' value =>
            by_cases heq : kind' = kind
            · subst heq
              have hadmitted := hitems.1.2
              have hreads : values before kind' = [] ∧ ReadsSize value := by
                cases kind' with
                | key => exact absurd rfl hkind
                | rows => exact hadmitted.2
                | columns => exact hadmitted.2
              right
              simpa [size, hreads.1] using hreads.2.bounds.1
            · simpa [size, heq] using hbefore
      have hrest := ih hitems.2 hitem
      rwa [List.append_assoc] at hrest

/-- The end of {lit}`validargs` clears the table of the mode and changes nothing else. -/
theorem afterLoop_globals (h : afterLoop s = .ok (value, globals)) (hvalue : value ≠ 0) :
    ∃ table, clearTable (s.globals.table (isFractionated value)) = .ok table ∧
      globals = s.globals.setTable (isFractionated value) table := by
  unfold afterLoop at h
  simp only at h
  split_ifs at h
  all_goals first
    | (cases h
       exact absurd rfl hvalue)
    | (obtain ⟨table, htable, heq⟩ := exists_of_map_eq_ok h
       cases heq
       exact ⟨table, htable, rfl⟩)

/-- The end of {lit}`validargs` behind a sequence of items that it accepts. -/
theorem Tracks.afterLoop_accepted (h : Tracks items s) (hafter : afterLoop s = .ok (value, globals))
    (hvalue : value ≠ 0) :
    (fractionated items = true ∨
        polybiusAlphabet.length ≤ (finalSizes items).1 * (finalSizes items).2) ∧
      value = bits (fractionated items) (decrypting items) (finalSizes items).1
        (finalSizes items).2 ∧
      globals = s.globals.setTable (fractionated items)
        (List.replicate (tableSize (fractionated items)) 0) := by
  obtain ⟨globals', hafter'⟩ := h.afterLoop_eq
  obtain ⟨hr, hc⟩ := h.finalSizes_lt
  rw [hafter] at hafter'
  split_ifs at hafter' with hreject
  · cases hafter'
    exact absurd rfl hvalue
  · rw [not_or, not_and, not_lt] at hreject
    cases hafter'
    have hmode := isFractionated_bits (fractionated items) (decrypting items) _ hr _ hc
    obtain ⟨table, hclear, rfl⟩ := afterLoop_globals hafter hvalue
    obtain ⟨stored, hvalid, -, htable⟩ := h.tables (fractionated items)
    rw [hmode, htable, clearTable_padded hvalid] at hclear
    cases hclear
    refine ⟨?_, rfl, by rw [hmode]⟩
    cases hf : fractionated items with
    | true => exact Or.inl rfl
    | false => exact Or.inr (Nat.le_of_not_lt (hreject.2 hf))

/-- The sizes of an accepted command line of the Polybius cipher. -/
theorem polybiusMode_bits {r c : Nat} (hr : r < 16) (hc : c < 16) (hrows : r = 0 ∨ 9 ≤ r)
    (hcolumns : c = 0 ∨ 9 ≤ c) (hroom : polybiusAlphabet.length ≤ r * c) (f d : Bool) :
    ∃ sizes, polybiusMode (bits f d r c) = some sizes ∧ sizes.rows = r ∧ sizes.cols = c := by
  obtain ⟨-, -, hr', hc'⟩ := bits_fields f d r hr c hc
  have hlength : polybiusAlphabet.length = 94 := length_polybiusAlphabet
  have hr0 : r ≠ 0 := by
    rintro rfl
    omega
  have hc0 : c ≠ 0 := by
    rintro rfl
    omega
  have hsizes : (9 ≤ r ∧ r ≤ 15) ∧ (9 ≤ c ∧ c ≤ 15) ∧ polybiusAlphabet.length ≤ r * c :=
    ⟨⟨by omega, by omega⟩, ⟨by omega, by omega⟩, hroom⟩
  refine ⟨⟨r, c, hsizes.1.1, hsizes.1.2, hsizes.2.1.1, hsizes.2.1.2, hsizes.2.2⟩, ?_, rfl, rfl⟩
  simp only [polybiusMode, hr', hc', dif_pos hsizes]

/-- What the branches of {lit}`main` rely on: the table that is generated is all zeros, the sizes
are those of a table, and the buffer of the Morse cipher holds a key at most. -/
structure Prepared (value : UInt16) (globals : Globals) : Prop where
  cleared : globals.table (isFractionated value) =
    List.replicate (tableSize (isFractionated value)) 0
  sizes : isFractionated value = false → ∃ sizes, polybiusMode value = some sizes
  buffer : ∃ stored, ValidKey polybiusAlphabet stored ∧ globals.polybiusTable = padded 257 stored

/-- The globals of a mode that {lit}`validargs` returns. -/
theorem validargs_accepted {argv : List CString}
    (hrun : validargs argv .startup = .ok (value, globals)) (hvalue : value ≠ 0)
    (hhelp : value &&& 0x8000 = 0) :
    ∃ items s, Throughout Item.Admitted [] items ∧ Tracks items s ∧
      operands argv = items.flatMap Item.arguments ∧ afterLoop s = .ok (value, globals) := by
  cases hloop : argLoop ⟨0, 0, { Globals.startup with key := [] }⟩ (operands argv) with
  | error exit =>
      rw [validargs_of_error hloop] at hrun
      cases exit with
      | trapped trap => cases hrun
      | returned result globals' =>
          cases hrun
          rcases argLoop_returned hloop with rfl | rfl
          · exact absurd rfl hvalue
          · exact absurd hhelp (by decide)
  | ok s =>
      obtain ⟨items, hitems, hoperands⟩ :=
        tracks_startup.exists_items (operands_nonzero argv) hloop
      obtain ⟨s', hloop', htracks⟩ := tracks_startup.run hitems
        (hoperands ▸ operands_nonzero argv)
      rw [← hoperands, hloop] at hloop'
      cases hloop'
      rw [validargs_of_argLoop hloop] at hrun
      exact ⟨items, s, hitems, htracks, hoperands, hrun⟩

/-- The sizes in a mode of the Polybius cipher that {lit}`validargs` returns are those of a
table. -/
theorem exists_sizes {argv : List CString}
    (hrun : validargs argv .startup = .ok (value, globals)) (hvalue : value ≠ 0)
    (hhelp : value &&& 0x8000 = 0) (hmode : isFractionated value = false) :
    ∃ sizes, polybiusMode value = some sizes := by
  obtain ⟨items, s, hitems, htracks, -, hafter⟩ := validargs_accepted hrun hvalue hhelp
  obtain ⟨hroom, rfl, rfl⟩ := htracks.afterLoop_accepted hafter hvalue
  obtain ⟨hr, hc⟩ := htracks.finalSizes_lt
  rw [isFractionated_bits _ _ _ hr _ hc] at hmode
  have hbound (kind : Kind) (hkind : kind ≠ .key) :
      size items kind = 0 ∨ 9 ≤ size items kind :=
    hitems.size_bound hkind (Or.inl rfl)
  have hfinal : ((finalSizes items).1 = 0 ∨ 9 ≤ (finalSizes items).1) ∧
      ((finalSizes items).2 = 0 ∨ 9 ≤ (finalSizes items).2) := by
    unfold finalSizes
    split_ifs
    · decide
    · exact ⟨hbound .rows (by decide), hbound .columns (by decide)⟩
  have hlarge := hroom.resolve_left (by rw [hmode]; decide)
  obtain ⟨sizes, hsizes, -, -⟩ := polybiusMode_bits hr hc hfinal.1 hfinal.2 hlarge
    (fractionated items) (decrypting items)
  exact ⟨sizes, hsizes⟩

/-- Whatever the command line was, a mode that {lit}`validargs` returns and the globals that it
leaves are prepared for the branches. -/
theorem validargs_prepares {argv : List CString}
    (hrun : validargs argv .startup = .ok (value, globals)) (hvalue : value ≠ 0)
    (hhelp : value &&& 0x8000 = 0) : Prepared value globals := by
  refine ⟨?_, exists_sizes hrun hvalue hhelp, ?_⟩
  all_goals
    obtain ⟨items, s, -, htracks, -, hafter⟩ := validargs_accepted hrun hvalue hhelp
    obtain ⟨-, rfl, rfl⟩ := htracks.afterLoop_accepted hafter hvalue
    obtain ⟨hr, hc⟩ := htracks.finalSizes_lt
  · rw [isFractionated_bits _ _ _ hr _ hc, Globals.table_setTable]
  · cases fractionated items with
    | true =>
        obtain ⟨stored, hvalid, -, htable⟩ := htracks.tables false
        refine ⟨stored, hvalid, ?_⟩
        exact (Globals.table_setTable_of_ne s.globals (by decide) _).trans htable
    | false => exact ⟨[], validKey_nil _, padded_nil 257⟩

/-- The command line {lit}`-p -e -k AB -q -f -d`, which starts again behind {lit}`-q`. -/
def restartArgv : List CString :=
  [argument [104, 119, 49], argument [45, 112], argument [45, 101], argument [45, 107],
    argument [65, 66], argument [45, 113], argument [45, 102], argument [45, 100]]

/-- The key of the first cipher is left in the buffer of the second one. -/
theorem validargs_prepares_restart :
    Prepared 0x6000 ⟨[65, 66], padded 257 [65, 66], List.replicate 27 0⟩ :=
  @validargs_prepares 0x6000 _ restartArgv (by decide +kernel) (by decide) (by decide)

/-- {lit}`main` finds a table for the sizes of every mode. -/
theorem main_ne_sizes (programName : CString) (arguments : List CString) (input : List UInt8) :
    main programName arguments input ≠ .error .sizes := by
  have hended (result : Except Overrun Run) : ended result ≠ .error .sizes := by
    cases result with
    | error stop =>
        cases stop
        intro h
        cases h
    | ok run =>
        intro h
        cases h
  unfold main
  cases hrun : validargs (programName :: arguments) .startup with
  | error trap =>
      intro h
      cases h
  | ok result =>
      obtain ⟨mode, globals⟩ := result
      simp only [dispatch]
      split_ifs with hhelp hzero hfractionated
      · intro h
        cases h
      · intro h
        cases h
      · exact hended _
      · have hmode : isFractionated mode = false := by
          simpa [isFractionated] using hfractionated
        obtain ⟨sizes, hsizes⟩ := exists_sizes hrun hzero (not_not.mp hhelp) hmode
        rw [hsizes]
        exact hended _

/-! ## The globals of a command line -/

/-- An item that stores no key in this table. -/
def Item.Spares (other : Bool) (before : List Item) (item : Item) : Prop :=
  ∀ lead value, item = .parameter lead .key value → other ≠ fractionated before

/-- The branch of an option with a value writes to the table of the mode only. -/
theorem Tracks.valueTurn_table (h : Tracks before s) {kind : Kind} {value : List UInt8} {n : Nat}
    (hturn : valueTurn kind { s with count := n } (some value) = .ok s') {other : Bool}
    (hother : kind = .key → other ≠ fractionated before) :
    s'.globals.table other = s.globals.table other := by
  cases kind with
  | key =>
      obtain ⟨stored, hvalid, hempty, htable⟩ := h.tables (fractionated before)
      rw [← h.mode_eq] at hvalid htable
      obtain ⟨-, -, rfl⟩ := (keyTurn_eq_ok_iff (s := { s with count := n }) h.key_nonzero hempty
        hvalid htable).mp hturn
      exact Globals.table_setTable_of_ne s.globals (h.mode_eq ▸ hother rfl) _
  | rows =>
      obtain ⟨-, -, -, rfl⟩ := sizeTurn_eq_ok_iff.mp hturn
      rfl
  | columns =>
      obtain ⟨-, -, -, rfl⟩ := sizeTurn_eq_ok_iff.mp hturn
      rfl

/-- The loop keeps a table through an item that spares it. -/
theorem Tracks.table_item (h : Tracks before s) {item : Item} (hitem : item.Admitted before)
    {other : Bool} (hspares : item.Spares other before)
    (hloop : argLoop s item.arguments = .ok s') :
    s'.globals.table other = s.globals.table other := by
  cases item with
  | mode lead f =>
      have hbranch := branch_mode f
      rw [show 1 = s.count + 1 by rw [h.count, hitem]] at hbranch
      rw [Item.arguments, argLoop_flag hbranch, argLoop] at hloop
      cases hloop
      rfl
  | direction lead d =>
      have hbranch := branch_direction d
      rw [show 2 = s.count + 1 by rw [h.count, hitem]] at hbranch
      rw [Item.arguments, argLoop_flag hbranch, argLoop] at hloop
      cases hloop
      rfl
  | parameter lead kind value =>
      obtain ⟨s'', hturn⟩ := (h.valueTurn_ok_iff kind value (s.count + 1)).mpr hitem.2
      have hbranch : branch (s.count + 1) kind.letter = .value kind :=
        branch_value (by rw [h.count]; exact Nat.lt_succ_of_le hitem.1) kind
      rw [Item.arguments, argLoop_value hbranch lead hturn, argLoop] at hloop
      cases hloop
      exact h.valueTurn_table hturn fun hkind => hspares lead value (hkind ▸ rfl)
  | restart lead letter =>
      have hbranch : branch (s.count + 1) letter = .unknown := h.count ▸ hitem
      rw [Item.arguments, argLoop_unknown hbranch, argLoop] at hloop
      cases hloop
      rfl

/-- The loop keeps a table through items that spare it. -/
theorem Tracks.table_run (h : Tracks before s) {other : Bool}
    (hitems : Throughout (fun before item => item.Admitted before ∧ item.Spares other before)
      before items)
    (harguments : ∀ arg ∈ items.flatMap Item.arguments, (0 : UInt8) ∉ arg)
    (hloop : argLoop s (items.flatMap Item.arguments) = .ok s') :
    s'.globals.table other = s.globals.table other := by
  induction items generalizing before s with
  | nil =>
      rw [List.flatMap_nil, argLoop] at hloop
      cases hloop
      rfl
  | cons item rest ih =>
      rw [List.flatMap_cons] at harguments hloop
      obtain ⟨hadmitted, hspares⟩ := hitems.1
      obtain ⟨s₁, hs₁, hturn⟩ := h.step hadmitted
        fun arg harg => harguments arg (List.mem_append_left _ harg)
      have hitem := hturn []
      rw [List.append_nil, argLoop] at hitem
      rw [hturn] at hloop
      rw [ih hs₁ hitems.2 (fun arg harg => harguments arg (List.mem_append_right _ harg)) hloop,
        h.table_item hadmitted hspares hitem]

/-- Parameters spare the table of the other mode. -/
theorem spares_parameters (parameters : List (Kind × List UInt8)) {other : Bool}
    (hother : other ≠ fractionated before) :
    Throughout (Item.Spares other) before (parameters.map parameterItem) := by
  induction parameters generalizing before with
  | nil => trivial
  | cons parameter rest ih =>
      refine ⟨fun _ _ _ => hother, ih ?_⟩
      rwa [parameterItem, fractionated_concat, Bool.or_false]

/-- A command line of the usage text spares the table of the other mode. -/
theorem Command.spares (command : Command) :
    Throughout (Item.Spares !command.fractionated) [] command.items := by
  refine ⟨?_, ?_, spares_parameters _ ?_⟩
  · intro lead value hitem
    cases hitem
  · intro lead value hitem
    cases hitem
  · cases hf : command.fractionated <;> simp [Cipher.fractionated]

/-- The key of a command line, the empty one where it is not given. -/
def Command.keyOf (command : Command) : List UInt8 :=
  (command.given .key).getD []

/-- The globals behind an accepted command line: its key and cleared tables. -/
def Command.parsed (command : Command) : Globals :=
  { Globals.startup with key := command.keyOf }

/-- The parser leaves the key of an accepted command line and both tables cleared. -/
theorem Command.globals_eq (command : Command) {argv : List CString}
    (hoperands : operands argv = command.arguments)
    (hrun : validargs argv .startup = .ok (value, globals)) (hvalue : value ≠ 0) :
    globals = command.parsed := by
  have hadmitted := command.throughout.imp fun _ _ h => h.1
  rw [command.arguments_eq] at hoperands
  have harguments := operands_nonzero argv
  rw [hoperands] at harguments
  obtain ⟨s, hloop, htracks⟩ := tracks_startup.run hadmitted harguments
  rw [validargs_of_argLoop (hoperands ▸ hloop)] at hrun
  have hkept : s.globals.table (!command.fractionated) =
      Globals.startup.table (!command.fractionated) :=
    tracks_startup.table_run (hadmitted.and command.spares) harguments hloop
  have hkey : s.globals.key = command.keyOf := by
    rw [Command.keyOf, tracks_startup.key_run hadmitted harguments hloop, command.values_items,
      List.getLastD_eq_getLast?]
    cases command.given .key <;> rfl
  rw [List.nil_append] at htracks
  obtain ⟨-, -, rfl⟩ := htracks.afterLoop_accepted hrun hvalue
  rw [command.flags_items.1, Command.parsed, ← hkey]
  cases hf : command.fractionated with
  | true =>
      rw [hf] at hkept
      have htable : s.globals.polybiusTable = Globals.startup.polybiusTable := hkept
      simp only [Globals.setTable, if_true, htable]
      rfl
  | false =>
      rw [hf] at hkept
      have htable : s.globals.fmKey = Globals.startup.fmKey := hkept
      simp only [Globals.setTable, Bool.false_eq_true, if_false, htable]
      rfl

/-! ## One run -/

/-- The sizes of a command line of the Polybius cipher are both given or both left out, and have
room for the alphabet. -/
def Command.Sized (command : Command) : Prop :=
  (command.given .rows = none ↔ command.given .columns = none) ∧
    polybiusAlphabet.length ≤ command.sizeOf .rows * command.sizeOf .columns

/-- The sizes of a command line are those of the usage text. -/
theorem Command.sizeOf_bounds (command : Command) {kind : Kind} (hkind : kind ≠ .key) :
    9 ≤ command.sizeOf kind ∧ command.sizeOf kind ≤ 15 := by
  rw [Command.sizeOf]
  cases hgiven : command.given kind with
  | none => decide
  | some value =>
      have hsize := (command.isSize_of_given hkind hgiven).2
      have hnine := hsize.nine_le
      have hfifteen := hsize.le_fifteen
      simp only
      omega

/-- The table of the sizes. -/
def Command.sizes (command : Command) (h : command.Sized) : PolybiusMode where
  rows := command.sizeOf .rows
  cols := command.sizeOf .columns
  nine_le_rows := (command.sizeOf_bounds Kind.noConfusion).1
  rows_le := (command.sizeOf_bounds Kind.noConfusion).2
  nine_le_cols := (command.sizeOf_bounds Kind.noConfusion).1
  cols_le := (command.sizeOf_bounds Kind.noConfusion).2
  room := h.2

theorem Command.validKey (command : Command) :
    ValidKey (alphabetOf command.fractionated) command.keyOf := by
  rw [Command.keyOf]
  cases hgiven : command.given .key with
  | none => exact validKey_nil _
  | some value =>
      have hmem : (Kind.key, value) ∈ command.parameters := by
        obtain ⟨l, l', heq, -⟩ := List.lookup_eq_some_iff.mp hgiven
        rw [heq]
        exact List.mem_append_right _ List.mem_cons_self
      exact command.meetsUsage _ hmem

/-- The bits of a mode select the branch. -/
theorem dispatch_bits (programName : CString) {f d : Bool} {r c : Nat} (hr : r < 16) (hc : c < 16)
    (hne : f = true ∨ r ≠ 0) (globals : Globals) (input : List UInt8) :
    dispatch programName (bits f d r c) globals input =
      if f then ended (morseBranch d globals input)
      else
        match polybiusMode (bits f d r c) with
        | none => .error .sizes
        | some sizes => ended (polybiusBranch sizes d globals input) := by
  obtain ⟨hmode, hdirection, -, -⟩ := bits_fields f d r hr c hc
  have hdecrypt : (bits f d r c &&& 0x2000 != 0) = d := by
    cases d with
    | true => simpa using hdirection
    | false => simpa using hdirection
  rw [dispatch, if_neg (not_not.mpr (bits_help f d r hr c hc)), if_neg (bits_ne_zero hr hc hne),
    hdecrypt]
  simp only [hmode]

/-- The branch of the Morse cipher on the globals of a command line. -/
theorem Command.morseBranch_eq (command : Command) (hf : command.fractionated = true)
    (decrypt : Bool) (input : List UInt8) :
    morseBranch decrypt command.parsed input =
      if decrypt then morseDecrypt command.keyOf input
      else morseEncrypt command.keyOf input := by
  have hkey : MorseKey command.keyOf := by
    have hvalid := command.validKey
    rwa [hf] at hvalid
  have hwrite : writeFmKey command.parsed = .ok (generatemorsetable command.keyOf) :=
    (checkedGeneratemorsetable_iff command.keyOf).mpr ⟨(fmKeyWithin_of_morseKey hkey).1, rfl⟩
  rw [morseBranch, hwrite]
  rfl

/-- The branch of the Polybius cipher on the globals of a command line. -/
theorem Command.polybiusBranch_eq (command : Command) (hf : command.fractionated = false)
    (mode : PolybiusMode) (decrypt : Bool) (input : List UInt8) :
    polybiusBranch mode decrypt command.parsed input =
      (if decrypt then polybiusDecrypt mode command.keyOf input
        else polybiusEncrypt mode command.keyOf input).map fun printed => ⟨printed, true⟩ := by
  have hkey : PolybiusKey command.keyOf := by
    have hvalid := command.validKey
    rwa [hf] at hvalid
  have hwrite : writePolybiusTable mode command.parsed =
      .ok (generatepolybiustable mode command.keyOf) := by
    have hchecked := checkedGeneratepolybiustable_eq mode command.keyOf
    have hlength := length_polybiusKey_le hkey
    rwa [if_pos (by omega)] at hchecked
  rw [polybiusBranch, hwrite]
  cases decrypt with
  | true => rfl
  | false =>
      simp only [Bool.false_eq_true, if_false, polybiusEncrypt]
      cases encryptpolybius mode (generatepolybiustable mode command.keyOf) (input.headD eof) with
      | error stop => rfl
      | ok result =>
          obtain ⟨printed, rest⟩ := result
          cases printed with
          | true =>
              simp only
              cases encryptLoop mode (generatepolybiustable mode command.keyOf) input.tail <;> rfl
          | false => rfl

/-- A run of the program with a command line of the usage text. -/
theorem Command.main_eq (command : Command) (programName : CString) {arguments : List CString}
    (harguments : arguments.map CString.bytes = command.arguments) (input : List UInt8) :
    (command.fractionated = true → main programName arguments input =
        ended (morseBranch command.decrypt command.parsed input)) ∧
      (command.fractionated = false → ∀ h : command.Sized, main programName arguments input =
        ended (polybiusBranch (command.sizes h) command.decrypt command.parsed input)) ∧
      (command.fractionated = false → ¬ command.Sized → main programName arguments input =
        .ok (usage "an error occured\n".toUTF8.toList programName false)) := by
  have hoperands : operands (programName :: arguments) = command.arguments := harguments
  obtain ⟨hr, hc, globals, -, hrun⟩ := command.validargs_eq hoperands
  refine ⟨?_, ?_, ?_⟩
  · intro hf
    rw [if_neg (by simp [hf])] at hrun
    have hglobals := command.globals_eq hoperands hrun (bits_ne_zero hr hc (Or.inl hf))
    rw [main, hrun, hglobals]
    simp only
    rw [dispatch_bits programName hr hc (Or.inl hf), if_pos hf]
  · intro hf hsized
    obtain ⟨hboth, hroom⟩ := hsized
    have hfinal : finalSizes command.items = (command.sizeOf .rows, command.sizeOf .columns) := by
      rcases command.finalSizes_items hf with ⟨-, hfinal⟩ | ⟨hone, -⟩
      · exact hfinal
      · exact absurd hboth hone
    rw [hfinal] at hr hc hrun
    rw [if_neg fun h => Nat.not_lt.mpr hroom h.2] at hrun
    have hrows := @Command.sizeOf_bounds command .rows Kind.noConfusion
    have hcolumns := @Command.sizeOf_bounds command .columns Kind.noConfusion
    have hne : command.fractionated = true ∨ command.sizeOf .rows ≠ 0 := Or.inr (by omega)
    have hglobals := command.globals_eq hoperands hrun (bits_ne_zero hr hc hne)
    obtain ⟨⟨rows, cols, _, _, _, _, _⟩, hsizes, rfl, rfl⟩ := polybiusMode_bits hr hc
      (Or.inr hrows.1) (Or.inr hcolumns.1) hroom command.fractionated command.decrypt
    rw [main, hrun, hglobals]
    simp only
    rw [dispatch_bits programName hr hc hne, if_neg (by simp [hf]), hsizes]
    rfl
  · intro hf hsized
    have hsmall : (finalSizes command.items).1 * (finalSizes command.items).2 <
        polybiusAlphabet.length := by
      rcases command.finalSizes_items hf with ⟨hboth, hfinal⟩ | ⟨-, hzero⟩
      · rw [hfinal]
        exact Nat.lt_of_not_le fun hroom => hsized ⟨hboth, hroom⟩
      · rw [hzero]
        decide
    rw [if_pos ⟨hf, hsmall⟩] at hrun
    rw [main, hrun]
    rfl

/-! ## Every byte through the Polybius cipher -/

section Bytes

variable (mode : PolybiusMode) {key : List UInt8}

/-- The place of the first zero of the table. -/
def firstFree (mode : PolybiusMode) (key : List UInt8) : Nat :=
  (keyedAlphabet mode key).length + (leftover mode key).toList.length

theorem firstFree_le (hkey : PolybiusKey key) : firstFree mode key ≤ 95 := by
  have hletters := length_keyedAlphabet_le mode hkey
  have hleftover : (leftover mode key).toList.length ≤ 1 := by
    cases leftover mode key <;> simp
  unfold firstFree
  omega

/-- From the first free place on there are only zeros. -/
theorem table_zero (hkey : PolybiusKey key) {p : Nat} (hp : firstFree mode key ≤ p)
    (hlt : p < 257) : (generatepolybiustable mode key)[p]? = some 0 := by
  have hfree := firstFree_le mode hkey
  unfold firstFree at hp hfree
  rw [generatepolybiustable_eq mode hkey, List.getElem?_append_right (by omega),
    List.getElem?_append_right (by omega), List.getElem?_replicate, if_pos (by omega)]

/-- A zero byte is found at the first free place. -/
theorem idxOf_zero (hkey : PolybiusKey key) :
    (generatepolybiustable mode key).idxOf 0 = firstFree mode key := by
  have hzero : (0 : UInt8) ∉ keyedAlphabet mode key := fun h =>
    (letter_ne 0 (keyedAlphabet_subset mode hkey h)).2.2 rfl
  have hleftover : (0 : UInt8) ∉ (leftover mode key).toList := fun h =>
    zero_notMem_polybiusAlphabet (hkey.subset (mem_of_leftover mode (Option.mem_toList.mp h)))
  have hfree := firstFree_le mode hkey
  unfold firstFree at hfree ⊢
  obtain ⟨n, hn⟩ : ∃ n,
      257 - (keyedAlphabet mode key).length - (leftover mode key).toList.length = n + 1 :=
    ⟨256 - (keyedAlphabet mode key).length - (leftover mode key).toList.length, by omega⟩
  rw [generatepolybiustable_eq mode hkey, List.idxOf_append_of_notMem hzero,
    List.idxOf_append_of_notMem hleftover, hn, List.replicate_succ, List.idxOf_cons_self,
    Nat.add_zero]

/-- The digits of a place behind the letters are parsed to a place at or behind it, inside the
table. -/
theorem parsed_place {j cols : Nat} (hj : j ≤ 95) (hcols : 9 ≤ cols) (hcols' : cols ≤ 15) :
    j ≤ parsed (j / cols) * cols + parsed (j % cols) ∧
      parsed (j / cols) * cols + parsed (j % cols) < 257 := by
  have hle (n : Nat) : n ≤ parsed n := by
    unfold parsed
    split_ifs <;> omega
  have hdiv := Nat.div_add_mod' j cols
  have hmul := Nat.mul_le_mul_right cols (hle (j / cols))
  have hrow := hle (j % cols)
  have hcol : parsed (j % cols) ≤ 17 := by
    have hlt := Nat.mod_lt j (y := cols) (by omega)
    unfold parsed
    split_ifs <;> omega
  refine ⟨by omega, ?_⟩
  by_cases hten : j / cols = 10
  · -- ten rows before the place leave nine columns
    have hnine : cols = 9 := by
      rw [hten] at hdiv
      omega
    subst hnine
    rw [hten, parsed, if_pos rfl]
    omega
  · rw [parsed, if_neg hten]
    omega

/-- A zero byte is encrypted as the first free place and decrypted to a zero byte. -/
theorem decryptLoop_zero (hkey : PolybiusKey key) : ∃ printed,
    encryptpolybius mode (generatepolybiustable mode key) 0 = .ok (true, printed) ∧
      ∀ input, decryptLoop mode (generatepolybiustable mode key) (-1) (-1) (printed ++ input) =
        (decryptLoop mode (generatepolybiustable mode key) (-1) (-1) input).map (0 :: ·) := by
  have hcols := mode.nine_le_cols
  have hcols' := mode.cols_le
  have hfree := firstFree_le mode hkey
  have hrow : firstFree mode key / mode.cols < 16 :=
    (Nat.div_lt_iff_lt_mul (by omega)).mpr (by omega)
  have hcol : firstFree mode key % mode.cols < 16 := by
    have hlt := Nat.mod_lt (firstFree mode key) (y := mode.cols) (by omega)
    omega
  have hzero := table_zero mode hkey le_rfl (by omega)
  obtain ⟨hplace, hinside⟩ := parsed_place hfree hcols hcols'
  refine ⟨[hexDigit (firstFree mode key / mode.cols), hexDigit (firstFree mode key % mode.cols)],
    ?_, ?_⟩
  · rw [encryptpolybius, if_neg (by decide), if_neg fun h => headD_table_ne_zero mode hkey h.2,
      if_pos (List.mem_of_getElem? hzero)]
    simp only [idxOf_zero mode hkey, formatX, if_pos hrow, if_pos hcol]
    rfl
  · intro input
    rw [List.cons_append, List.singleton_append, decryptLoop_row mode _ hrow,
      decryptLoop_col mode _ _ hcol, table_zero mode hkey hplace hinside]

/-- A byte that both runs together give back. -/
def Kept (mode : PolybiusMode) (key : List UInt8) (c : UInt8) : Prop :=
  c = 0 ∨ Recoverable mode key c

/-- A byte 255 ends the encryption, and is not given back. -/
theorem not_kept_eof (hkey : PolybiusKey key) : ¬ Kept mode key eof := by
  rintro (hzero | hblank | hletter)
  · exact absurd hzero (by decide)
  · exact blank_ne_eof hblank rfl
  · exact (letter_ne eof (keyedAlphabet_subset mode hkey hletter.1)).2.1 rfl

/-- One byte in front of a text. -/
theorem encryptLoop_cons_iff (hkey : PolybiusKey key) (c : UInt8) (text : List UInt8) :
    (∃ cipher, encryptLoop mode (generatepolybiustable mode key) (c :: text) = .ok cipher ∧
        decryptLoop mode (generatepolybiustable mode key) (-1) (-1) cipher = .ok (c :: text)) ↔
      Kept mode key c ∧
        ∃ cipher, encryptLoop mode (generatepolybiustable mode key) text = .ok cipher ∧
          decryptLoop mode (generatepolybiustable mode key) (-1) (-1) cipher = .ok text := by
  by_cases heof : c = eof
  · subst heof
    rw [encryptLoop, if_pos rfl]
    refine iff_of_false ?_ fun h => not_kept_eof mode hkey h.1
    rintro ⟨cipher, hcipher, hback⟩
    cases hcipher
    cases hback
  rw [encryptLoop, if_neg heof]
  by_cases hblank : isBlank c = true
  · have hcons := roundTrip_cons_iff _ [c] (some c)
      (decryptLoop_blank mode (generatepolybiustable mode key) hblank)
    rw [encryptpolybius_blank mode _ hblank]
    refine (hcons _ c text).trans (and_congr_left' ?_)
    exact iff_of_true rfl (Or.inr (Or.inl hblank))
  by_cases hzero : c = 0
  · subst hzero
    obtain ⟨printed, hencrypt, hdecrypt⟩ := decryptLoop_zero mode hkey
    have hcons := roundTrip_cons_iff _ printed (some 0) hdecrypt
    rw [hencrypt]
    refine (hcons _ 0 text).trans (and_congr_left' ?_)
    exact iff_of_true rfl (Or.inl rfl)
  by_cases hletter : c ∈ keyedAlphabet mode key
  · have hj := (List.idxOf_lt_length_iff.mpr hletter).trans_le (length_keyedAlphabet_le mode hkey)
    have hcons := roundTrip_cons_iff _ [_, _] (lookup mode key c)
      (decryptLoop_encrypted mode (generatepolybiustable mode key) hj)
    rw [encryptpolybius_of_mem mode hkey hletter]
    refine (hcons _ c text).trans (and_congr_left' ?_)
    rw [lookup_eq_iff mode hkey hletter, Kept, Recoverable]
    simp [hblank, hzero, hletter]
  · have houtside : ¬ (isBlank c = true ∨ c ∈ generatepolybiustable mode key) := by
      rw [mem_table_iff mode hkey hzero]
      exact not_or.mpr ⟨hblank, hletter⟩
    rw [encryptpolybius_outside mode (headD_table_ne_zero mode hkey) houtside]
    refine iff_of_false (by simp) ?_
    rintro ⟨hkept | hkept | hkept, -⟩
    · exact hzero hkept
    · exact hblank hkept
    · exact hletter hkept.1

/-- The two loops give back the texts whose bytes are kept. -/
theorem encryptLoop_kept_iff (hkey : PolybiusKey key) (text : List UInt8) :
    (∃ cipher, encryptLoop mode (generatepolybiustable mode key) text = .ok cipher ∧
        decryptLoop mode (generatepolybiustable mode key) (-1) (-1) cipher = .ok text) ↔
      ∀ c ∈ text, Kept mode key c := by
  induction text with
  | nil => exact iff_of_true ⟨[], rfl, rfl⟩ (List.forall_mem_nil _)
  | cons c text ih => rw [encryptLoop_cons_iff mode hkey, List.forall_mem_cons, ih]

/-- The branches of the Polybius cipher give back a text if and only if it is not empty and
every byte of it is kept. -/
theorem polybiusEncrypt_kept_iff (hkey : PolybiusKey key) (text : List UInt8) :
    (∃ cipher, polybiusEncrypt mode key text = .ok cipher ∧
        polybiusDecrypt mode key cipher = .ok text) ↔
      text ≠ [] ∧ ∀ c ∈ text, Kept mode key c := by
  have houtside : encryptpolybius mode (generatepolybiustable mode key) eof = .error .overrun := by
    apply encryptpolybius_outside mode (headD_table_ne_zero mode hkey)
    rw [mem_table_iff mode hkey (by decide)]
    rintro (hblank | hletter)
    · exact blank_ne_eof hblank rfl
    · exact (letter_ne eof (keyedAlphabet_subset mode hkey hletter)).2.1 rfl
  unfold polybiusEncrypt polybiusDecrypt
  cases text with
  | nil => simp [houtside]
  | cons c text =>
      rw [← encryptLoop_kept_iff mode hkey, and_iff_right (List.cons_ne_nil c text)]
      by_cases heof : c = eof
      · subst heof
        have hloop := (encryptLoop_cons_iff mode hkey eof text).mp
        simp only [List.headD_cons, houtside, reduceCtorEq, false_and, exists_false, false_iff]
        exact fun h => not_kept_eof mode hkey (hloop h).1
      · rw [encryptLoop, if_neg heof]
        rfl

end Bytes

/-! ## The exit status of an encryption -/

/-- What a run prints when it ends with success and without a message. -/
def printing (stdout : List UInt8) : Ended :=
  ⟨stdout, [], true⟩

theorem ended_eq_printing_iff {result : Except Overrun Run} {printed : List UInt8} :
    ended result = .ok (printing printed) ↔ result = .ok ⟨printed, true⟩ := by
  cases result with
  | error stop =>
      cases stop
      exact iff_of_false (fun h => by cases h) (fun h => by cases h)
  | ok run =>
      obtain ⟨stdout, success⟩ := run
      simp [ended, printing]

theorem map_success_iff {result : Except Overrun (List UInt8)} {printed : List UInt8} :
    (result.map fun stdout => (⟨stdout, true⟩ : Run)) = .ok ⟨printed, true⟩ ↔
      result = .ok printed := by
  cases result with
  | error stop => exact iff_of_false (fun h => by cases h) (fun h => by cases h)
  | ok stdout => simp [Except.map]

/-- A run that prints the usage text because of an error does not end with success. -/
theorem usage_ne_printing {stdout printed : List UInt8} {programName : CString} :
    (.ok (usage stdout programName false) : Except Stop Ended) ≠ .ok (printing printed) := by
  intro h
  exact absurd (congrArg Ended.success (Except.ok.inj h)) Bool.false_ne_true

/-- The bytes that the program encrypts as a whole: for the Morse cipher characters with a code and
blanks, never three separators in one triple where {lit}`Z` of the key has taken the place of the
terminator; for the Polybius cipher blanks and bytes of the table. -/
def Command.Encrypts (command : Command) (input : List UInt8) : Prop :=
  (command.fractionated = true → (∀ c ∈ taken input, Accepted c) ∧
      (90 ∈ command.keyOf → ∀ s ∈ messageStreams (taken input), ¬ SepAligned s)) ∧
    (command.fractionated = false → ∃ h : command.Sized,
      ∀ c ∈ taken input, isBlank c = true ∨
        c ∈ generatepolybiustable (command.sizes h) command.keyOf)

/-- An encryption ends with success if and only if it has encrypted the whole input. -/
theorem encryptProgram_iff (command : Command) (hdirection : command.decrypt = false)
    (programName : CString) {arguments : List CString}
    (harguments : arguments.map CString.bytes = command.arguments) (input : List UInt8) :
    (∃ printed, main programName arguments input = .ok (printing printed)) ↔
      command.Encrypts input := by
  obtain ⟨hmorse, hpolybius, hrejected⟩ := command.main_eq programName harguments input
  have hkey := command.validKey
  cases hf : command.fractionated with
  | true =>
      rw [hf] at hkey
      obtain ⟨hwithin, hterminated⟩ := fmKeyWithin_of_morseKey hkey
      have hok := morseEncrypt_isOk_iff (ValidKey.zero_notMem hkey) hwithin input
      rw [hterminated, not_not] at hok
      rw [hmorse hf, command.morseBranch_eq hf, hdirection, Command.Encrypts, hf]
      simp only [Bool.false_eq_true, if_false, ended_eq_printing_iff, forall_const, reduceCtorEq,
        IsEmpty.forall_iff, and_true]
      constructor
      · rintro ⟨printed, hrun⟩
        exact ⟨(morseEncrypt_success hrun).mp rfl, (hok.mp ⟨_, hrun⟩).2⟩
      · rintro ⟨haccepted, hseparated⟩
        have hstops : StopsInside (taken input) := by
          rw [StopsInside, List.find?_eq_none.mpr fun c hc => by simpa using haccepted c hc]
          exact stopsInside_nil
        obtain ⟨⟨printed, success⟩, hrun⟩ := hok.mpr ⟨hstops, hseparated⟩
        obtain rfl : success = true := (morseEncrypt_success hrun).mpr haccepted
        exact ⟨printed, hrun⟩
  | false =>
      rw [hf] at hkey
      rw [Command.Encrypts, hf]
      simp only [Bool.false_eq_true, IsEmpty.forall_iff, true_and, forall_const]
      by_cases hsized : command.Sized
      · have hok :=
          polybiusEncrypt_isOk_iff (command.sizes hsized) (ValidKey.zero_notMem hkey) input
        rw [hpolybius hf hsized, command.polybiusBranch_eq hf, hdirection]
        simp only [Bool.false_eq_true, if_false, ended_eq_printing_iff]
        simp only [map_success_iff, hok, hsized, exists_true_left]
      · rw [hrejected hf hsized]
        refine iff_of_false ?_ fun h => hsized h.1
        rintro ⟨printed, h⟩
        exact usage_ne_printing h

/-- The command line {lit}`-f -e`. -/
def morseCommand : Command where
  fractionated := true
  decrypt := false
  parameters := []
  once := List.nodup_nil
  meetsUsage := List.forall_mem_nil _

/-- The input {lit}`A` without a newline. -/
theorem encryptProgram_iff_letter :
    (∃ printed, main (argument [104, 119, 49]) [argument [45, 102], argument [45, 101]] [65] =
        .ok (printing printed)) ↔ morseCommand.Encrypts [65] :=
  encryptProgram_iff morseCommand rfl _ (by decide) [65]

/-! ## Encryption and decryption -/

/-- The command line in one of the directions. -/
def Command.towards (command : Command) (decrypt : Bool) : Command :=
  { command with decrypt := decrypt }

/-- The second run gives back the input of the first one. -/
def GivesBack (first second : List UInt8 → Except Stop Ended) (text : List UInt8) : Prop :=
  ∃ cipher, first text = .ok (printing cipher) ∧ second cipher = .ok (printing text)

/-- The byte sequences that two runs give back: for the Morse cipher lines that are given back,
each with its newline; for the Polybius cipher, with sizes that are both given or both left out and
have room for the alphabet, bytes that are kept. -/
def Command.Returns (command : Command) (text : List UInt8) : Prop :=
  (command.fractionated = true → TextReturned text) ∧
    (command.fractionated = false → ∃ h : command.Sized,
      text ≠ [] ∧ ∀ c ∈ text, Kept (command.sizes h) command.keyOf c)

section Runs

variable (command : Command) (programName : CString) {arguments : List CString}
  {decrypt : Bool} (input printed : List UInt8)

/-- A run of the Morse cipher that ends with success. -/
theorem Command.morse_prints_iff (hf : command.fractionated = true)
    (harguments : arguments.map CString.bytes = (command.towards decrypt).arguments) :
    main programName arguments input = .ok (printing printed) ↔
      (if decrypt then morseDecrypt command.keyOf input else morseEncrypt command.keyOf input) =
        .ok ⟨printed, true⟩ := by
  obtain ⟨hmorse, -, -⟩ := (command.towards decrypt).main_eq programName harguments input
  rw [hmorse hf, ended_eq_printing_iff, (command.towards decrypt).morseBranch_eq hf]
  rfl

/-- A run of the Polybius cipher that ends with success. -/
theorem Command.polybius_prints_iff (hf : command.fractionated = false)
    (harguments : arguments.map CString.bytes = (command.towards decrypt).arguments) :
    main programName arguments input = .ok (printing printed) ↔
      ∃ h : command.Sized,
        (if decrypt then polybiusDecrypt (command.sizes h) command.keyOf input
          else polybiusEncrypt (command.sizes h) command.keyOf input) = .ok printed := by
  obtain ⟨-, hpolybius, hrejected⟩ :=
    (command.towards decrypt).main_eq programName harguments input
  by_cases hsized : command.Sized
  · rw [hpolybius hf hsized, ended_eq_printing_iff,
      (command.towards decrypt).polybiusBranch_eq hf, map_success_iff]
    constructor
    · intro h
      exact ⟨hsized, h⟩
    · rintro ⟨_, h⟩
      exact h
  · rw [hrejected hf hsized]
    exact iff_of_false usage_ne_printing fun h => hsized h.1

end Runs

/-- A run with {lit}`-e` and one with {lit}`-d` and the same mode and parameters give back a byte
sequence if and only if it is one of those of the command line. -/
theorem program_givesBack_iff (command : Command) (programName programName' : CString)
    {encrypting decrypting : List CString}
    (hencrypting : encrypting.map CString.bytes = (command.towards false).arguments)
    (hdecrypting : decrypting.map CString.bytes = (command.towards true).arguments)
    (text : List UInt8) :
    GivesBack (main programName encrypting) (main programName' decrypting) text ↔
      command.Returns text := by
  have hkey := command.validKey
  rw [GivesBack, Command.Returns]
  cases hf : command.fractionated with
  | true =>
      rw [hf] at hkey
      have hfirst (input printed : List UInt8) :=
        command.morse_prints_iff programName input printed hf hencrypting
      have hsecond (input printed : List UInt8) :=
        command.morse_prints_iff programName' input printed hf hdecrypting
      simp only [hfirst, hsecond, Bool.false_eq_true, if_false, if_true, reduceCtorEq,
        IsEmpty.forall_iff, and_true, forall_const]
      exact morse_returns_iff hkey text
  | false =>
      rw [hf] at hkey
      have hfirst (input printed : List UInt8) :=
        command.polybius_prints_iff programName input printed hf hencrypting
      have hsecond (input printed : List UInt8) :=
        command.polybius_prints_iff programName' input printed hf hdecrypting
      simp only [hfirst, hsecond, Bool.false_eq_true, if_false, if_true, IsEmpty.forall_iff,
        true_and, forall_const]
      by_cases hsized : command.Sized
      · simp only [hsized, exists_true_left]
        exact polybiusEncrypt_kept_iff (command.sizes hsized) hkey text
      · refine iff_of_false ?_ fun h => hsized h.1
        rintro ⟨cipher, hcipher, -⟩
        exact hsized hcipher.1

/-- A space in front of the first word of the input comes back. -/
theorem program_givesBack_indented :
    GivesBack (main (argument [104, 119, 49]) [argument [45, 102], argument [45, 101]])
      (main (argument [104, 119, 49]) [argument [45, 102], argument [45, 100]])
      [32, 69, 69, 10] := by
  have hwords : Spaced [69, 69] := .letter (by decide +kernel) (.last (by decide +kernel))
  have hreturned : Returned true [69, 69] := by
    refine ⟨hwords, ?_⟩
    rintro ⟨⟨before, c, heq, -⟩, -⟩
    have hsplit : [32] ++ [69, 69] = before ++ [space, c] := heq
    obtain ⟨-, hends⟩ := List.append_inj' hsplit rfl
    exact absurd (List.cons.inj hends).1 (by decide)
  refine (program_givesBack_iff morseCommand _ _ (by decide) (by decide) _).mpr ⟨?_, ?_⟩
  · intro _
    exact ⟨[32, 69, 69], [], rfl, Or.inr ⟨_, rfl, hreturned⟩, List.forall_mem_nil _⟩
  · intro hpolybius
    cases hpolybius

end SystemFundamentals.Cipher
