import SystemFundamentals.Cipher.Usage

/-!
# Command lines and the end of the arguments

What {lit}`validargs` returns for the command lines of the usage text, and where its index
goes when the last option has no value.

Main results:

- Theorem {lit}`validargs_encodes_iff`: when the mode and the key of a valid command line come
  out of the parser.
- Theorem {lit}`Tracks.exists_lacksValue`: where the parser goes beyond the arguments.
- Theorem {lit}`validargs_rejects_iff`: when it rejects an option without its value.
-/

namespace SystemFundamentals.Cipher

variable {before : List Item} {s : Parse}

/-! ## The key behind a sequence of items -/

theorem valueTurn_key {kind : Kind} {value : List UInt8} {s' : Parse}
    (h : valueTurn kind s (some value) = .ok s') :
    s'.globals.key = if kind = .key then value else s.globals.key := by
  cases kind with
  | key =>
      simp only [valueTurn, keyTurn] at h
      split at h
      · cases h
      · cases hloop : keyLoop (isFractionated s.returnState) value s.globals with
        | error exit =>
            rw [hloop] at h
            cases h
        | ok globals =>
            rw [hloop] at h
            cases h
            rfl
  | rows =>
      obtain ⟨-, -, -, rfl⟩ := sizeTurn_eq_ok_iff.mp h
      rfl
  | columns =>
      obtain ⟨-, -, -, rfl⟩ := sizeTurn_eq_ok_iff.mp h
      rfl

/-- The loop through one item keeps the key or replaces it by the value of {lit}`-k`. -/
theorem Tracks.key_item (h : Tracks before s) {item : Item} (hitem : item.Admitted before)
    {s' : Parse} (hloop : argLoop s item.arguments = .ok s') :
    s'.globals.key = (values [item] .key).getLastD s.globals.key := by
  cases item with
  | mode lead f =>
      have hcount : s.count + 1 = 1 := by rw [h.count, hitem]
      have hbranch := branch_mode f
      rw [← hcount] at hbranch
      rw [Item.arguments, argLoop_flag hbranch, argLoop] at hloop
      cases hloop
      rfl
  | direction lead d =>
      have hcount : s.count + 1 = 2 := by rw [h.count, hitem]
      have hbranch := branch_direction d
      rw [← hcount] at hbranch
      rw [Item.arguments, argLoop_flag hbranch, argLoop] at hloop
      cases hloop
      rfl
  | parameter lead kind value =>
      obtain ⟨s'', hturn⟩ := (h.valueTurn_ok_iff kind value (s.count + 1)).mpr hitem.2
      have hbranch : branch (s.count + 1) kind.letter = .value kind :=
        branch_value (by rw [h.count]; exact Nat.lt_succ_of_le hitem.1) kind
      rw [Item.arguments, argLoop_value hbranch lead hturn, argLoop] at hloop
      cases hloop
      rw [valueTurn_key hturn]
      cases kind <;> rfl
  | restart lead letter =>
      have hbranch : branch (s.count + 1) letter = .unknown := h.count ▸ hitem
      rw [Item.arguments, argLoop_unknown hbranch, argLoop] at hloop
      cases hloop
      rfl

/-- The key after an admitted sequence of items is the last value of {lit}`-k`. -/
theorem Tracks.key_run (h : Tracks before s) {items : List Item}
    (hitems : Throughout Item.Admitted before items)
    (harguments : ∀ arg ∈ items.flatMap Item.arguments, (0 : UInt8) ∉ arg) {s' : Parse}
    (hloop : argLoop s (items.flatMap Item.arguments) = .ok s') :
    s'.globals.key = (values items .key).getLastD s.globals.key := by
  induction items generalizing before s with
  | nil =>
      rw [List.flatMap_nil, argLoop] at hloop
      cases hloop
      rfl
  | cons item rest ih =>
      rw [List.flatMap_cons] at harguments hloop
      obtain ⟨s₁, hs₁, hturn⟩ := h.step hitems.1
        fun arg harg => harguments arg (List.mem_append_left _ harg)
      have hitem := hturn []
      rw [List.append_nil, argLoop] at hitem
      have hkey := h.key_item hitems.1 hitem
      rw [hturn] at hloop
      rw [ih hs₁ hitems.2 (fun arg harg => harguments arg (List.mem_append_right _ harg)) hloop,
        hkey]
      have hvalues : values (item :: rest) .key = values [item] .key ++ values rest .key := by
        rw [values, values, values, ← List.filterMap_append, List.singleton_append]
      rw [hvalues, List.getLastD_eq_getLast?, List.getLastD_eq_getLast?,
        List.getLastD_eq_getLast?, List.getLast?_append, Option.getD_or]

/-- The end of {lit}`validargs` does not touch the key. -/
theorem afterLoop_key {value : UInt16} {globals : Globals}
    (h : afterLoop s = .ok (value, globals)) : globals.key = s.globals.key := by
  unfold afterLoop at h
  simp only at h
  split_ifs at h
  all_goals first
    | (cases h; rfl)
    | (obtain ⟨table, -, heq⟩ := exists_of_map_eq_ok h
       cases heq
       exact Globals.key_setTable _ _ _)

/-! ## Command lines of the usage text -/

/-- The value of an option, where the command line has one. -/
def Command.given (command : Command) (kind : Kind) : Option (List UInt8) :=
  command.parameters.lookup kind

/-- The rows or columns of a command line, 10 where they are not given. -/
def Command.sizeOf (command : Command) (kind : Kind) : Nat :=
  match command.given kind with
  | some value => (decimal value).toNat
  | none => 10

/-- A command line whose key is not empty and whose table has room for the alphabet. -/
structure ValidCommand extends Command where
  key_ne_nil : toCommand.given .key ≠ some []
  room : fractionated = false →
    polybiusAlphabet.length ≤ toCommand.sizeOf .rows * toCommand.sizeOf .columns

/-- The parser returns the mode and stores the key of a command line. -/
def Encoded (command : Command) (argv : List CString) : Prop :=
  ∃ value globals, validargs argv .startup = .ok (value, globals) ∧
    (value &&& 0x4000 ≠ 0 ↔ command.fractionated = true) ∧
    (value &&& 0x2000 ≠ 0 ↔ command.decrypt = true) ∧
    (command.fractionated = false →
      ((value &&& 0x00F0) / 0x0010).toNat = command.sizeOf .rows ∧
        (value &&& 0x000F).toNat = command.sizeOf .columns) ∧
    globals.key = (command.given .key).getD []

/-- The fields of a return state. -/
theorem bits_fields : ∀ f d, ∀ r < 16, ∀ c < 16,
    (bits f d r c &&& 0x4000 ≠ 0 ↔ f = true) ∧ (bits f d r c &&& 0x2000 ≠ 0 ↔ d = true) ∧
      ((bits f d r c &&& 0x00F0) / 0x0010).toNat = r ∧ (bits f d r c &&& 0x000F).toNat = c := by
  decide +kernel

/-- The values of a kind among the parameters of a command line. -/
theorem values_parameters {parameters : List (Kind × List UInt8)}
    (honce : (parameters.map Prod.fst).Nodup) (kind : Kind) :
    values (parameters.map parameterItem) kind = (parameters.lookup kind).toList := by
  induction parameters with
  | nil => rfl
  | cons parameter rest ih =>
      obtain ⟨kind', value⟩ := parameter
      obtain ⟨hnew, hrest⟩ := List.nodup_cons.mp honce
      have hvalues : values (((kind', value) :: rest).map parameterItem) kind =
          (if kind' = kind then [value] else []) ++ values (rest.map parameterItem) kind := by
        by_cases hkind : kind' = kind <;> simp [values, parameterItem, hkind]
      rw [hvalues, ih hrest, List.lookup_cons]
      by_cases hkind : kind' = kind
      · have hnone : rest.lookup kind = none := by
          apply List.lookup_eq_none_iff.mpr
          intro other hother
          rw [bne_iff_ne]
          intro heq
          exact hnew (List.mem_map.mpr ⟨other, hother, heq.symm.trans hkind.symm⟩)
        rw [hnone, if_pos hkind, beq_iff_eq.mpr hkind.symm]
        rfl
      · rw [if_neg hkind, beq_eq_false_iff_ne.mpr (Ne.symm hkind)]
        rfl

section

variable (command : Command)

theorem Command.values_items (kind : Kind) :
    values command.items kind = (command.given kind).toList := by
  rw [Command.given, ← values_parameters command.once]
  rfl

theorem fractionated_parameters (parameters : List (Kind × List UInt8)) :
    fractionated (parameters.map parameterItem) = false ∧
      decrypting (parameters.map parameterItem) = false := by
  simp [fractionated, decrypting, parameterItem]

theorem Command.flags_items :
    Cipher.fractionated command.items = command.fractionated ∧
      decrypting command.items = command.decrypt := by
  have hparameters := fractionated_parameters command.parameters
  rw [Cipher.fractionated, decrypting] at hparameters
  simp only [Command.items, Cipher.fractionated, decrypting, List.any_cons, hparameters,
    Bool.or_false, Bool.false_or, and_self]

theorem place_parameters (before : List Item) (parameters : List (Kind × List UInt8)) :
    place (before ++ parameters.map parameterItem) = place before + parameters.length := by
  induction parameters generalizing before with
  | nil => simp
  | cons parameter rest ih =>
      have hnext := ih (before ++ [parameterItem parameter])
      rw [List.append_assoc, List.singleton_append, place_concat] at hnext
      rw [List.map_cons, hnext, List.length_cons, parameterItem]
      simp only
      omega

theorem Command.two_le_place : 2 ≤ place command.items := by
  have hplace := place_parameters [.mode dash command.fractionated,
    .direction dash command.decrypt] command.parameters
  have hstart : place [.mode dash command.fractionated, .direction dash command.decrypt] = 2 := rfl
  rw [hstart] at hplace
  rw [Command.items]
  exact hplace ▸ Nat.le_add_right 2 _

/-- A size that is given is a number of the usage text. -/
theorem Command.isSize_of_given {kind : Kind} (hkind : kind ≠ .key) {value : List UInt8}
    (hgiven : command.given kind = some value) :
    command.fractionated = false ∧ IsSize value := by
  have hmem : (kind, value) ∈ command.parameters := by
    obtain ⟨l, l', heq, -⟩ := List.lookup_eq_some_iff.mp hgiven
    rw [heq]
    exact List.mem_append_right _ List.mem_cons_self
  have hmeets := command.meetsUsage _ hmem
  cases kind with
  | key => exact absurd rfl hkind
  | rows => exact hmeets
  | columns => exact hmeets

theorem readSize_of_isSize {value : List UInt8} (h : IsSize value) :
    readSize value = (decimal value).toNat := by
  have hlt : decimal value < 2 ^ 31 := lt_of_le_of_lt h.le_fifteen (by decide)
  rw [readSize, checkedPart_eq_self fun c hc => endsValue_digit (h.digits c hc),
    wrapInt_eq_self (decimal_nonneg h.digits) hlt]

/-- The size in the return state is that of the command line, where it is given, and then not
zero. -/
theorem Command.size_items (kind : Kind) (hkind : kind ≠ .key) :
    (command.given kind = none ∧ size command.items kind = 0 ∧ command.sizeOf kind = 10) ∨
      (command.given kind ≠ none ∧ size command.items kind = command.sizeOf kind ∧
        9 ≤ command.sizeOf kind) := by
  rw [size, command.values_items, Command.sizeOf]
  cases hgiven : command.given kind with
  | none => exact Or.inl ⟨rfl, rfl, rfl⟩
  | some value =>
      have hsize := (command.isSize_of_given hkind hgiven).2
      have hnine := hsize.nine_le
      refine Or.inr ⟨Option.some_ne_none _, readSize_of_isSize hsize, ?_⟩
      simp only
      omega

end

/-- The bits of the mode and the sizes are the encoding. -/
theorem encoded_of_bits {command : Command} {argv : List CString} {globals : Globals} {r c : Nat}
    (hr : r < 16) (hc : c < 16)
    (hrun : validargs argv .startup =
      .ok (bits command.fractionated command.decrypt r c, globals))
    (hsizes : command.fractionated = false → r = command.sizeOf .rows ∧ c = command.sizeOf .columns)
    (hkey : globals.key = (command.given .key).getD []) : Encoded command argv := by
  obtain ⟨hmode, hdirection, hrows, hcolumns⟩ :=
    bits_fields command.fractionated command.decrypt r hr c hc
  refine ⟨_, globals, hrun, hmode, hdirection, fun hf => ?_, hkey⟩
  rw [hrows, hcolumns]
  exact hsizes hf

/-- The sizes behind the loop, for a command line of the Polybius cipher. -/
theorem Command.finalSizes_items (command : Command) (hf : command.fractionated = false) :
    ((command.given .rows = none ↔ command.given .columns = none) ∧
        finalSizes command.items = (command.sizeOf .rows, command.sizeOf .columns)) ∨
      (¬ (command.given .rows = none ↔ command.given .columns = none) ∧
        (finalSizes command.items).1 * (finalSizes command.items).2 = 0) := by
  have hmode := command.flags_items.1
  rcases command.size_items .rows (by decide) with
    ⟨hrows, hsize, hten⟩ | ⟨hrows, hsize, hnine⟩
  · rcases command.size_items .columns (by decide) with
      ⟨hcolumns, hsize', hten'⟩ | ⟨hcolumns, hsize', hnine'⟩
    · refine Or.inl ⟨iff_of_true hrows hcolumns, ?_⟩
      rw [finalSizes, if_pos ⟨hsize, hsize', hmode.trans hf⟩, hten, hten']
    · refine Or.inr ⟨fun h => hcolumns (h.mp hrows), ?_⟩
      rw [finalSizes, if_neg (by omega), hsize, Nat.zero_mul]
  · rcases command.size_items .columns (by decide) with
      ⟨hcolumns, hsize', hten'⟩ | ⟨hcolumns, hsize', hnine'⟩
    · refine Or.inr ⟨fun h => hrows (h.mpr hcolumns), ?_⟩
      rw [finalSizes, if_neg (by omega), hsize', Nat.mul_zero]
    · refine Or.inl ⟨iff_of_false hrows hcolumns, ?_⟩
      rw [finalSizes, if_neg (by omega), hsize, hsize']

/-- The parser on a command line of the usage text. -/
theorem Command.validargs_eq (command : Command) {argv : List CString}
    (hoperands : operands argv = command.arguments) :
    (finalSizes command.items).1 < 16 ∧ (finalSizes command.items).2 < 16 ∧
      ∃ globals, globals.key = (command.given .key).getD [] ∧
        validargs argv .startup = .ok
          (if command.fractionated = false ∧
              (finalSizes command.items).1 * (finalSizes command.items).2 <
                polybiusAlphabet.length then 0
            else bits command.fractionated command.decrypt (finalSizes command.items).1
              (finalSizes command.items).2, globals) := by
  have hadmitted := command.throughout.imp fun _ _ h => h.1
  rw [command.arguments_eq] at hoperands
  have harguments := operands_nonzero argv
  rw [hoperands] at harguments
  obtain ⟨s, hloop, htracks⟩ := tracks_startup.run hadmitted harguments
  rw [List.nil_append] at htracks
  obtain ⟨globals, hafter⟩ := htracks.afterLoop_eq
  have hkey := (afterLoop_key hafter).trans (tracks_startup.key_run hadmitted harguments hloop)
  obtain ⟨hmode, hdirection⟩ := command.flags_items
  have hplace : ¬ place command.items < 2 := Nat.not_lt.mpr command.two_le_place
  refine ⟨htracks.finalSizes_lt.1, htracks.finalSizes_lt.2, globals, ?_, ?_⟩
  · rw [hkey, command.values_items, List.getLastD_eq_getLast?]
    cases command.given .key <;> rfl
  · rw [validargs_of_argLoop (hoperands ▸ hloop), hafter]
    simp only [hmode, hdirection, hplace, false_or]

/-- The mode and the key of a valid command line come out of the parser if and only if it is
one for {lit}`-f` or has both sizes or neither. -/
theorem validargs_encodes_iff (command : ValidCommand) {argv : List CString}
    (hoperands : operands argv = command.arguments) :
    Encoded command.toCommand argv ↔
      command.fractionated = true ∨
        (command.given .rows = none ↔ command.given .columns = none) := by
  obtain ⟨hr, hc, globals, hkey, hrun⟩ := command.validargs_eq hoperands
  cases hf : command.fractionated with
  | true =>
      refine iff_of_true (encoded_of_bits hr hc ?_ ?_ hkey) (Or.inl rfl)
      · rw [hrun, if_neg (by simp [hf])]
      · intro hfalse
        rw [hf] at hfalse
        cases hfalse
  | false =>
      rcases command.finalSizes_items hf with ⟨hboth, hfinal⟩ | ⟨hone, hzero⟩
      · refine iff_of_true (encoded_of_bits hr hc ?_ ?_ hkey) (Or.inr hboth)
        · have hroom := command.room hf
          rw [hrun, hfinal, if_neg fun h => Nat.not_lt.mpr hroom h.2]
        · intro _
          rw [hfinal]
          exact ⟨rfl, rfl⟩
      · refine iff_of_false ?_ (by simp [hone])
        rintro ⟨value, globals', hrun', -, -, hsizes, -⟩
        have hroom : 0 < polybiusAlphabet.length := by decide
        rw [hrun, if_pos ⟨hf, by omega⟩] at hrun'
        cases hrun'
        have hrows : command.sizeOf .rows = 0 := (hsizes hf).1.symm
        rcases command.size_items .rows (by decide) with ⟨-, -, hten⟩ | ⟨-, -, hnine⟩
        · omega
        · omega

theorem zero_notMem_cString (bytes : List UInt8) : (0 : UInt8) ∉ cString bytes := by
  intro hzero
  have hne := List.mem_takeWhile_imp hzero
  exact absurd hne (by decide)

/-- The argument string of some bytes: those before the first zero. -/
def argument (bytes : List UInt8) : CString :=
  ⟨cString bytes, zero_notMem_cString bytes⟩

/-- The numbers 11 and 12. -/
theorem isSize_eleven : IsSize [49, 49] := ⟨by decide +kernel, by decide, by decide⟩

@[inherit_doc isSize_eleven]
theorem isSize_twelve : IsSize [49, 50] := ⟨by decide +kernel, by decide, by decide⟩

/-- The command line {lit}`-p -d -c 12 -k KEY -r 11`. -/
def bothSizesCommand : ValidCommand where
  fractionated := false
  decrypt := true
  parameters := [(.columns, [49, 50]), (.key, [75, 69, 89]), (.rows, [49, 49])]
  once := by decide
  meetsUsage := by
    simp only [List.mem_cons, List.not_mem_nil, or_false]
    rintro parameter (rfl | rfl | rfl)
    · exact ⟨rfl, isSize_twelve⟩
    · exact ⟨by decide, by decide⟩
    · exact ⟨rfl, isSize_eleven⟩
  key_ne_nil := by decide
  room := by decide

@[inherit_doc bothSizesCommand]
def bothSizesArgv : List CString :=
  [argument [104, 119, 49], argument [45, 112], argument [45, 100], argument [45, 99],
    argument [49, 50], argument [45, 107], argument [75, 69, 89], argument [45, 114],
    argument [49, 49]]

theorem validargs_encodes_bothSizes :
    operands bothSizesArgv = bothSizesCommand.arguments ∧
      (Encoded bothSizesCommand.toCommand bothSizesArgv ↔
        bothSizesCommand.fractionated = true ∨
          (bothSizesCommand.given .rows = none ↔ bothSizesCommand.given .columns = none)) :=
  ⟨by decide, validargs_encodes_iff bothSizesCommand (by decide)⟩

/-- The command line {lit}`-p -e -r 12`. -/
def rowsCommand : ValidCommand where
  fractionated := false
  decrypt := false
  parameters := [(.rows, [49, 50])]
  once := by decide
  meetsUsage := by
    simp only [List.mem_cons, List.not_mem_nil, or_false]
    rintro parameter rfl
    exact ⟨rfl, isSize_twelve⟩
  key_ne_nil := by decide
  room := by decide

@[inherit_doc rowsCommand]
def rowsArgv : List CString :=
  [argument [104, 119, 49], argument [45, 112], argument [45, 101], argument [45, 114],
    argument [49, 50]]

/-- Twelve rows and the default columns are rejected. -/
theorem not_encoded_rows :
    ¬ ∀ (command : ValidCommand) (argv : List CString), operands argv = command.arguments →
      Encoded command.toCommand argv := by
  intro hall
  rcases hall rowsCommand rowsArgv (by decide) with ⟨value, globals, hrun, -, -, hsizes, -⟩
  have hrejected : validargs rowsArgv .startup = .ok (0, .startup) := by decide +kernel
  rw [hrejected] at hrun
  cases hrun
  exact absurd (hsizes rfl).1 (by decide)

/-! ## The end of the arguments -/

/-- The checks of a branch before it reads the value let it pass. -/
def ReadsValue (before : List Item) : Kind → Prop
  | .key => ∀ value ∈ values before .key, value = []
  | .rows => fractionated before = false ∧ values before .rows = []
  | .columns => fractionated before = false ∧ values before .columns = []

/-- The branch of an option at the end of the arguments returns 0 or goes beyond them. -/
theorem Tracks.valueTurn_none (h : Tracks before s) (kind : Kind) (n : Nat) :
    (ReadsValue before kind ∧
        valueTurn kind { s with count := n } none = .error (.trapped .nullArgument)) ∨
      (¬ ReadsValue before kind ∧
        valueTurn kind { s with count := n } none = .error (.returned 0 s.globals)) := by
  have hsize (mask unit : UInt16) (kind : Kind)
      (hmask : s.returnState &&& mask = 0 ↔ values before kind = [])
      (hreads : ReadsValue before kind ↔ fractionated before = false ∧ values before kind = []) :
      (ReadsValue before kind ∧
          sizeTurn mask unit { s with count := n } none = .error (.trapped .nullArgument)) ∨
        (¬ ReadsValue before kind ∧
          sizeTurn mask unit { s with count := n } none = .error (.returned 0 s.globals)) := by
    rw [hreads, ← hmask, ← h.mode_eq]
    cases hf : isFractionated s.returnState with
    | true => exact Or.inr ⟨fun hread => Bool.noConfusion hread.1, by simp [sizeTurn, hf]⟩
    | false =>
        by_cases hzero : s.returnState &&& mask = 0
        · exact Or.inl ⟨⟨rfl, hzero⟩, by simp [sizeTurn, hf, hzero]⟩
        · exact Or.inr ⟨fun hread => hzero hread.2, by simp [sizeTurn, hf, hzero]⟩
  cases kind with
  | key =>
      rw [ReadsValue, ← h.key]
      cases hkey : s.globals.key with
      | nil => exact Or.inl ⟨rfl, by simp [valueTurn, keyTurn, hkey]⟩
      | cons c key =>
          have hc : c ≠ 0 := by
            rintro rfl
            exact h.key_nonzero (hkey ▸ List.mem_cons_self)
          exact Or.inr ⟨List.cons_ne_nil _ _, by simp [valueTurn, keyTurn, hkey, hc]⟩
  | rows =>
      refine hsize 0x00F0 0x0010 .rows ?_ Iff.rfl
      rw [h.returnState, bits_rows_iff _ _ _ h.rows.1 _ h.columns.1, h.rows.2]
  | columns =>
      refine hsize 0x000F 0x0001 .columns ?_ Iff.rfl
      rw [h.returnState, bits_columns_iff _ _ _ h.rows.1 _ h.columns.1, h.columns.2]

/-- The arguments are these items and an option whose value is missing. -/
structure LacksValue (before items : List Item) (kind : Kind) (arguments : List (List UInt8)) :
    Prop where
  admitted : Throughout Item.Admitted before items
  ends : ∃ lead, arguments = items.flatMap Item.arguments ++ [[lead, kind.letter]]

/-- A loop that goes beyond the arguments is at an option whose value is missing. -/
theorem Tracks.exists_lacksValue (h : Tracks before s) {arguments : List (List UInt8)}
    (harguments : ∀ arg ∈ arguments, (0 : UInt8) ∉ arg)
    (hloop : argLoop s arguments = .error (.trapped .nullArgument)) :
    ∃ items kind, LacksValue before items kind arguments := by
  induction hlen : arguments.length using Nat.strong_induction_on
    generalizing before s arguments with
  | _ n ih =>
      cases arguments with
      | nil => cases hloop
      | cons arg rest =>
          rcases h.turn (harguments arg (by simp)) rest with
            ⟨item, rest', hitem, heq⟩ | ⟨lead, kind, rfl, rfl, -⟩ | ⟨exit, hexit, hne⟩
          · rw [heq] at harguments hloop hlen ⊢
            obtain ⟨s', hs', hturn⟩ := h.step hitem
              fun arg harg => harguments arg (List.mem_append_left _ harg)
            rw [hturn] at hloop
            have hshort : rest'.length < n := by
              rw [← hlen, List.length_append]
              cases item <;> simp [Item.arguments]
            obtain ⟨items, kind, hlacks⟩ := ih _ hshort hs'
              (fun arg harg => harguments arg (List.mem_append_right _ harg)) hloop rfl
            obtain ⟨lead, rfl⟩ := hlacks.ends
            refine ⟨item :: items, kind, ⟨hitem, hlacks.admitted⟩, lead, ?_⟩
            rw [List.flatMap_cons, List.append_assoc]
          · exact ⟨[], kind, trivial, lead, rfl⟩
          · rw [hexit] at hloop
            cases hloop
            exact absurd rfl hne

/-- An option in front of which there are no mode and direction is one the loop does not
know. -/
theorem branch_unknown {count : Nat} (hcount : count ≤ 2) (kind : Kind) :
    branch count kind.letter = .unknown := by
  have hnot : ¬ 2 < count := Nat.not_lt.mpr hcount
  cases kind <;> simp [branch, Kind.letter, hnot]

/-! ## Staying inside the arguments -/

/-- What {lit}`validargs` makes of an exit of its loop. -/
def Exit.result : Exit → Except Trap (UInt16 × Globals)
  | .returned value globals => .ok (value, globals)
  | .trapped trap => .error trap

theorem validargs_of_error {argv : List CString} {exit : Exit}
    (h : argLoop ⟨0, 0, { Globals.startup with key := [] }⟩ (operands argv) = .error exit) :
    validargs argv .startup = exit.result := by
  rw [validargs, ← operands, h]
  cases exit <;> rfl

/-- The branch of the last option is taken, and its checks let it pass to the value. -/
def ReachesValue (items : List Item) (kind : Kind) : Prop :=
  2 ≤ place items ∧ ReadsValue items kind

/-- The parser on arguments whose last value is missing. -/
theorem LacksValue.validargs_eq {items : List Item} {kind : Kind} {argv : List CString}
    (hlacks : LacksValue [] items kind (operands argv)) :
    (ReachesValue items kind ∧ validargs argv .startup = .error .nullArgument) ∨
      (¬ ReachesValue items kind ∧ ∃ globals, validargs argv .startup = .ok (0, globals)) := by
  obtain ⟨lead, hends⟩ := hlacks.ends
  have harguments := operands_nonzero argv
  rw [hends] at harguments
  obtain ⟨s, htracks, hrun⟩ := tracks_startup.run_append hlacks.admitted
    fun arg harg => harguments arg (List.mem_append_left _ harg)
  have hloop := hrun [[lead, kind.letter]]
  rw [← hends] at hloop
  rw [List.nil_append] at htracks
  by_cases hplace : 2 ≤ place items
  · have hbranch : branch (s.count + 1) kind.letter = .value kind :=
      branch_value (by rw [htracks.count]; omega) kind
    rw [argLoop_last hbranch] at hloop
    rcases htracks.valueTurn_none kind (s.count + 1) with ⟨hreads, hturn⟩ | ⟨hreads, hturn⟩
    · exact Or.inl ⟨⟨hplace, hreads⟩, validargs_of_error (hloop.trans hturn)⟩
    · exact Or.inr ⟨fun h => hreads h.2, _, validargs_of_error (hloop.trans hturn)⟩
  · -- the option starts the count again, and the command line ends unfinished
    have hrestart : Item.Admitted items (.restart lead kind.letter) :=
      branch_unknown (by omega) kind
    obtain ⟨s', htracks', hturn⟩ := htracks.step hrestart
      fun arg harg => harguments arg (List.mem_append_right _ harg)
    have hend := hturn []
    rw [List.append_nil, argLoop] at hend
    obtain ⟨globals, hafter⟩ := htracks'.afterLoop_eq
    rw [place_concat, if_pos (Or.inl Nat.two_pos)] at hafter
    exact Or.inr ⟨fun h => hplace h.1, globals,
      (validargs_of_argLoop (hloop.trans hend)).trans hafter⟩

/-- The parser does not go beyond the arguments, and an option at their end whose value is
missing is rejected. -/
def RejectsMissing (argv : List CString) : Prop :=
  validargs argv .startup ≠ .error .nullArgument ∧
    ∀ items kind, LacksValue [] items kind (operands argv) →
      ∃ globals, validargs argv .startup = .ok (0, globals)

/-- A parser that goes beyond the arguments does so in its loop. -/
theorem argLoop_of_nullArgument {argv : List CString}
    (h : validargs argv .startup = .error .nullArgument) :
    argLoop ⟨0, 0, { Globals.startup with key := [] }⟩ (operands argv) =
      .error (.trapped .nullArgument) := by
  cases hloop : argLoop ⟨0, 0, { Globals.startup with key := [] }⟩ (operands argv) with
  | error exit =>
      rw [validargs_of_error hloop] at h
      cases exit with
      | returned value globals => cases h
      | trapped trap =>
          cases h
          rfl
  | ok s =>
      obtain ⟨items, hitems, hoperands⟩ :=
        tracks_startup.exists_items (operands_nonzero argv) hloop
      obtain ⟨s', hloop', htracks⟩ := tracks_startup.run hitems
        (hoperands ▸ operands_nonzero argv)
      obtain ⟨globals, hafter⟩ := htracks.afterLoop_eq
      rw [validargs_of_argLoop (hoperands ▸ hloop'), hafter] at h
      cases h

/-- The parser stays inside the arguments and rejects a missing value if and only if the last
option does not get to the value. -/
theorem validargs_rejects_iff (argv : List CString) :
    RejectsMissing argv ↔
      ∀ items kind, LacksValue [] items kind (operands argv) → ¬ ReachesValue items kind := by
  constructor
  · rintro ⟨hinside, -⟩ items kind hlacks
    rcases hlacks.validargs_eq with ⟨-, htrap⟩ | ⟨hnot, -⟩
    · exact absurd htrap hinside
    · exact hnot
  · intro hmissing
    constructor
    · intro htrap
      obtain ⟨items, kind, hlacks⟩ :=
        tracks_startup.exists_lacksValue (operands_nonzero argv) (argLoop_of_nullArgument htrap)
      rcases hlacks.validargs_eq with ⟨hreaches, -⟩ | ⟨-, globals, hvalue⟩
      · exact hmissing items kind hlacks hreaches
      · rw [htrap] at hvalue
        cases hvalue
    · intro items kind hlacks
      rcases hlacks.validargs_eq with ⟨hreaches, -⟩ | ⟨-, hvalue⟩
      · exact absurd hreaches (hmissing items kind hlacks)
      · exact hvalue

/-- The command line {lit}`-p -e -k`. -/
def missingKeyArgv : List CString :=
  [argument [104, 119, 49], argument [45, 112], argument [45, 101], argument [45, 107]]

/-- The characters of the key are read through the null pointer. -/
theorem not_rejects_missingKey : ¬ ∀ argv : List CString, argv ≠ [] →
    (∀ arg ∈ argv, 2 ≤ arg.bytes.length) → RejectsMissing argv := by
  intro hall
  exact (hall missingKeyArgv (by decide) (by decide)).1 (by decide +kernel)

end SystemFundamentals.Cipher
