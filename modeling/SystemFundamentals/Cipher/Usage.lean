import SystemFundamentals.Cipher.ArgumentItems
import Mathlib.Data.List.Induction

/-!
# AcceptedItems arguments and the usage text

The usage text promises a mode, a direction and then parameters whose values are
checked as a whole.  This file says which of the accepted sequences of items keep
that promise, and shows that these are exactly the ones the usage text allows.

Main results:

- Theorem {lit}`arguments_injective`: an argument list has at most one admitted
  reading.
- Theorems {lit}`exists_command` and {lit}`Command.throughout`: the regular
  readings are the command lines of the usage text.
- Theorem {lit}`validargs_followsUsage_iff`: when the parser accepts only what
  the usage text allows.
-/

namespace SystemFundamentals.Cipher

/-! ## The grammar of the usage text -/

/-- Decimal digits with a value from 9 to 15. -/
structure IsSize (value : List UInt8) : Prop where
  digits : ∀ c ∈ value, 48 ≤ c ∧ c ≤ 57
  nine_le : 9 ≤ decimal value
  le_fifteen : decimal value ≤ 15

/-- What the value of a parameter has to be. -/
def MeetsUsage (fractionated : Bool) : Kind → List UInt8 → Prop
  | .key, value => ValidKey (alphabetOf fractionated) value
  | .rows, value | .columns, value => fractionated = false ∧ IsSize value

/-- A command line of the usage text. -/
structure Command where
  fractionated : Bool
  decrypt : Bool
  parameters : List (Kind × List UInt8)
  once : (parameters.map Prod.fst).Nodup
  meetsUsage : ∀ parameter ∈ parameters, MeetsUsage fractionated parameter.1 parameter.2

/-- The arguments of a command line, behind the program name. -/
def Command.arguments (command : Command) : List (List UInt8) :=
  [dash, modeLetter command.fractionated] :: [dash, directionLetter command.decrypt] ::
    command.parameters.flatMap fun parameter => [[dash, parameter.1.letter], parameter.2]

/-- Only command lines of the usage text are accepted. -/
def FollowsUsage (argv : List CString) : Prop :=
  ∀ value globals, validargs argv .startup = .ok (value, globals) →
    value ≠ 0 → value &&& 0x8000 = 0 →
      ∃ command : Command, operands argv = command.arguments

/-! ## Regular items -/

/-- A value that the loops check as a whole, and a key that is the first one. -/
def RegularValue (before : List Item) : Kind → List UInt8 → Prop
  | .key, value => values before .key = [] ∧ ∀ c ∈ value, endsValue c = false
  | .rows, value | .columns, value =>
      (∀ c ∈ value, 48 ≤ c ∧ c ≤ 57) ∧ decimal value < 2 ^ 31

/-- An item that is written as in the usage text. -/
def Item.Regular (before : List Item) : Item → Prop
  | .mode lead _ => lead = dash
  | .direction lead _ => lead = dash
  | .parameter lead kind value => lead = dash ∧ RegularValue before kind value
  | .restart _ _ => False

variable {before : List Item}

theorem Throughout.and {P Q : List Item → Item → Prop} {items : List Item}
    (hP : Throughout P before items) (hQ : Throughout Q before items) :
    Throughout (fun before item => P before item ∧ Q before item) before items := by
  induction items generalizing before with
  | nil => trivial
  | cons item rest ih => exact ⟨⟨hP.1, hQ.1⟩, ih hP.2 hQ.2⟩

theorem Throughout.imp {P Q : List Item → Item → Prop} (hPQ : ∀ before item, P before item →
    Q before item) {items : List Item} (hP : Throughout P before items) :
    Throughout Q before items := by
  induction items generalizing before with
  | nil => trivial
  | cons item rest ih => exact ⟨hPQ _ _ hP.1, ih hP.2⟩

/-! ## Values -/

theorem checkedPart_eq_self {value : List UInt8} (h : ∀ c ∈ value, endsValue c = false) :
    checkedPart value = value := by
  rw [checkedPart, List.takeWhile_eq_self_iff]
  intro c hc
  simp [h c hc]

theorem endsValue_digit {c : UInt8} (h : 48 ≤ c ∧ c ≤ 57) : endsValue c = false := by
  simp only [endsValue, Bool.or_eq_false_iff, beq_eq_false_iff_ne]
  constructor <;>
  · rintro rfl
    exact absurd h.1 (by decide)

theorem decimal_concat (digits : List UInt8) (c : UInt8) :
    decimal (digits ++ [c]) = decimal digits * 10 + (signed c - 48) := by
  simp [decimal]

theorem decimal_nonneg {digits : List UInt8} (h : ∀ c ∈ digits, 48 ≤ c ∧ c ≤ 57) :
    0 ≤ decimal digits := by
  induction digits using List.reverseRecOn with
  | nil => exact le_rfl
  | append_singleton digits c ih =>
      have hprefix := ih fun d hd => h d (List.mem_append_left _ hd)
      have hdigit : 48 ≤ signed c := by
        have hc := h c (by simp)
        simp only [signed, UInt8.lt_iff_toNat_lt, UInt8.le_iff_toNat_le,
          UInt8.reduceToNat] at hc ⊢
        split_ifs <;> omega
      rw [decimal_concat]
      omega

theorem wrapInt_eq_self {n : Int} (hnonneg : 0 ≤ n) (hlt : n < 2 ^ 31) : wrapInt n = n := by
  unfold wrapInt
  rw [Int.bmod_eq_of_le] <;> omega

/-- A number that the loop reads as a whole and without overflow meets the usage
text when the loop accepts it. -/
theorem isSize_iff {value : List UInt8} :
    IsSize value ↔
      ReadsSize value ∧ (∀ c ∈ value, 48 ≤ c ∧ c ≤ 57) ∧ decimal value < 2 ^ 31 := by
  have hread (hdigits : ∀ c ∈ value, 48 ≤ c ∧ c ≤ 57) (hlt : decimal value < 2 ^ 31) :
      checkedPart value = value ∧ wrapInt (decimal value) = decimal value :=
    ⟨checkedPart_eq_self fun c hc => endsValue_digit (hdigits c hc),
      wrapInt_eq_self (decimal_nonneg hdigits) hlt⟩
  constructor
  · intro h
    have hlt : decimal value < 2 ^ 31 := lt_of_le_of_lt h.le_fifteen (by decide)
    obtain ⟨hpart, hwrap⟩ := hread h.digits hlt
    refine ⟨⟨?_, ?_, ?_⟩, h.digits, hlt⟩
    · rw [hpart]
      exact fun c hc => (h.digits c hc).2
    · rw [hpart, hwrap]
      exact h.nine_le
    · rw [hpart, hwrap]
      exact h.le_fifteen
  · rintro ⟨hreads, hdigits, hlt⟩
    obtain ⟨hpart, hwrap⟩ := hread hdigits hlt
    have hnine := hreads.nine_le
    have hfifteen := hreads.le_fifteen
    rw [hpart, hwrap] at hnine hfifteen
    exact ⟨hdigits, hnine, hfifteen⟩

/-- The admitted regular values are those of the usage text, once each. -/
theorem admitted_regular_iff (kind : Kind) (value : List UInt8) :
    ValueAdmitted before kind value ∧ RegularValue before kind value ↔
      MeetsUsage (fractionated before) kind value ∧ values before kind = [] := by
  cases kind with
  | key =>
      simp only [ValueAdmitted, RegularValue, MeetsUsage]
      constructor
      · rintro ⟨⟨-, hvalid⟩, hfirst, hwhole⟩
        rw [checkedPart_eq_self hwhole] at hvalid
        exact ⟨hvalid, hfirst⟩
      · rintro ⟨hvalid, hfirst⟩
        have hwhole : ∀ c ∈ value, endsValue c = false :=
          fun c hc => (alphabetOf_letter _ c (hvalid.subset hc)).2.2
        rw [checkedPart_eq_self hwhole, hfirst]
        exact ⟨⟨by simp, hvalid⟩, rfl, hwhole⟩
  | rows =>
      simp only [ValueAdmitted, RegularValue, MeetsUsage, isSize_iff]
      tauto
  | columns =>
      simp only [ValueAdmitted, RegularValue, MeetsUsage, isSize_iff]
      tauto

/-! ## Command lines as items -/

/-- The item of a parameter as the usage text writes it. -/
def parameterItem (parameter : Kind × List UInt8) : Item :=
  .parameter dash parameter.1 parameter.2

/-- The items of a command line. -/
def Command.items (command : Command) : List Item :=
  .mode dash command.fractionated :: .direction dash command.decrypt ::
    command.parameters.map parameterItem

theorem Command.arguments_eq (command : Command) :
    command.arguments = command.items.flatMap Item.arguments := by
  simp only [Command.arguments, Command.items, List.flatMap_cons, Item.arguments,
    List.singleton_append, List.flatMap_map, parameterItem]

/-- Parameters of the usage text are admitted and regular. -/
theorem throughout_parameters {parameters : List (Kind × List UInt8)}
    (hplace : 2 ≤ place before)
    (hmeets : ∀ parameter ∈ parameters,
      MeetsUsage (fractionated before) parameter.1 parameter.2)
    (honce : (parameters.map Prod.fst).Nodup)
    (hfirst : ∀ parameter ∈ parameters, values before parameter.1 = []) :
    Throughout (fun before item => item.Admitted before ∧ item.Regular before) before
      (parameters.map parameterItem) := by
  induction parameters generalizing before with
  | nil => trivial
  | cons parameter rest ih =>
      obtain ⟨hnew, honce⟩ := List.nodup_cons.mp honce
      obtain ⟨hadmitted, hregular⟩ := (admitted_regular_iff parameter.1 parameter.2).mpr
        ⟨hmeets parameter List.mem_cons_self, hfirst parameter List.mem_cons_self⟩
      refine ⟨⟨⟨hplace, hadmitted⟩, rfl, hregular⟩, ih ?_ ?_ honce ?_⟩
      · simp only [parameterItem, place_concat]
        omega
      · intro other hother
        simpa [parameterItem] using hmeets other (List.mem_cons_of_mem _ hother)
      · intro other hother
        have hne : parameter.1 ≠ other.1 := by
          intro heq
          exact hnew (heq ▸ List.mem_map_of_mem hother)
        simpa [parameterItem, hne] using hfirst other (List.mem_cons_of_mem _ hother)

/-- Behind a mode and a direction the regular items are parameters of the usage
text. -/
theorem exists_parameters {items : List Item} (hplace : 2 ≤ place before)
    (hitems : Throughout (fun before item => item.Admitted before ∧ item.Regular before)
      before items) :
    ∃ parameters : List (Kind × List UInt8), items = parameters.map parameterItem ∧
      (∀ parameter ∈ parameters, MeetsUsage (fractionated before) parameter.1 parameter.2) ∧
      (parameters.map Prod.fst).Nodup ∧
      ∀ parameter ∈ parameters, values before parameter.1 = [] := by
  induction items generalizing before with
  | nil => exact ⟨[], rfl, by simp, by simp, by simp⟩
  | cons item rest ih =>
      obtain ⟨⟨hadmitted, hregular⟩, hrest⟩ := hitems
      cases item with
      | mode lead f =>
          rw [Item.Admitted] at hadmitted
          omega
      | direction lead d =>
          rw [Item.Admitted] at hadmitted
          omega
      | restart lead letter => exact hregular.elim
      | parameter lead kind value =>
          obtain ⟨rfl, hvalue⟩ := hregular
          obtain ⟨hmeets, hfirst⟩ := (admitted_regular_iff kind value).mp ⟨hadmitted.2, hvalue⟩
          obtain ⟨parameters, rfl, hmeets', honce, hfirst'⟩ := ih (by simp; omega) hrest
          have hnew : ∀ other ∈ parameters, kind ≠ other.1 ∧ values before other.1 = [] := by
            intro other hother
            have hother' := hfirst' other hother
            rw [values_concat, List.append_eq_nil_iff] at hother'
            refine ⟨?_, hother'.1⟩
            rintro rfl
            simp at hother'
          refine ⟨(kind, value) :: parameters, rfl, ?_, ?_, ?_⟩
          · rintro other (_ | ⟨_, hother⟩)
            · exact hmeets
            · simpa using hmeets' other hother
          · rw [List.map_cons, List.nodup_cons]
            refine ⟨?_, honce⟩
            rintro hmem
            obtain ⟨other, hother, heq⟩ := List.mem_map.mp hmem
            exact (hnew other hother).1 heq.symm
          · rintro other (_ | ⟨_, hother⟩)
            · exact hfirst
            · exact (hnew other hother).2

/-- The items of a command line are admitted and regular. -/
theorem Command.throughout (command : Command) :
    Throughout (fun before item => item.Admitted before ∧ item.Regular before) []
      command.items := by
  refine ⟨⟨rfl, rfl⟩, ⟨rfl, rfl⟩, throughout_parameters le_rfl ?_ command.once ?_⟩
  · simpa [Cipher.fractionated] using command.meetsUsage
  · simp [values]

/-- A finished regular sequence of admitted items is a command line of the usage
text. -/
theorem exists_command {items : List Item} (hplace : 2 ≤ place items)
    (hitems : Throughout (fun before item => item.Admitted before ∧ item.Regular before) []
      items) :
    ∃ command : Command, items = command.items := by
  rcases items with _ | ⟨first, _ | ⟨second, rest⟩⟩
  · exact absurd hplace (by decide)
  · cases first <;> simp [place] at hplace
  obtain ⟨⟨hfirst, hfirst'⟩, ⟨hsecond, hsecond'⟩, hrest⟩ := hitems
  cases first with
  | direction lead d => exact absurd hfirst Nat.zero_ne_one
  | parameter lead kind value => exact absurd (show 2 ≤ 0 from hfirst.1) (by decide)
  | restart lead letter => exact hfirst'.elim
  | mode lead f =>
      obtain rfl : lead = dash := hfirst'
      cases second with
      | mode lead f' => exact absurd hsecond Nat.one_ne_zero
      | parameter lead kind value => exact absurd (show 2 ≤ 1 from hsecond.1) (by decide)
      | restart lead letter => exact hsecond'.elim
      | direction lead d =>
          obtain rfl : lead = dash := hsecond'
          obtain ⟨parameters, rfl, hmeets, honce, -⟩ := exists_parameters le_rfl hrest
          have hmode : fractionated [.mode dash f, .direction dash d] = f := by
            simp [fractionated]
          exact ⟨⟨f, d, parameters, honce, hmode ▸ hmeets⟩, rfl⟩

/-! ## Unique reading -/

/-- The branch that takes an item. -/
def Item.branch : Item → Branch
  | .mode _ fractionated => .flag (if fractionated then 0x4000 else 0x0000)
  | .direction _ decrypt => .flag (if decrypt then 0x2000 else 0x0000)
  | .parameter _ kind _ => .value kind
  | .restart _ _ => .unknown

theorem Item.Admitted.branch_eq {item : Item} (h : item.Admitted before) :
    ∃ lead letter rest, item.arguments = [lead, letter] :: rest ∧
      Cipher.branch (place before + 1) letter = item.branch := by
  cases item with
  | mode lead f =>
      refine ⟨lead, _, [], rfl, ?_⟩
      rw [Item.Admitted] at h
      rw [h]
      exact branch_mode f
  | direction lead d =>
      refine ⟨lead, _, [], rfl, ?_⟩
      rw [Item.Admitted] at h
      rw [h]
      exact branch_direction d
  | parameter lead kind value =>
      exact ⟨lead, _, [value], rfl, branch_value (Nat.lt_succ_of_le h.1) kind⟩
  | restart lead letter => exact ⟨lead, letter, [], rfl, h⟩

/-- The first argument and the place determine an admitted item. -/
theorem Item.Admitted.unique {item item' : Item} {rest rest' : List (List UInt8)}
    (h : item.Admitted before) (h' : item'.Admitted before)
    (heq : item.arguments ++ rest = item'.arguments ++ rest') : item = item' ∧ rest = rest' := by
  obtain ⟨a, c, behind, hargs, hbranch⟩ := h.branch_eq
  obtain ⟨a', c', behind', hargs', hbranch'⟩ := h'.branch_eq
  have hbranches : item.branch = item'.branch := by
    have hhead := heq
    rw [hargs, hargs', List.cons_append, List.cons_append, List.cons.injEq, List.cons.injEq,
      List.cons.injEq] at hhead
    obtain ⟨⟨-, rfl, -⟩, -⟩ := hhead
    exact hbranch.symm.trans hbranch'
  -- only a mode and a direction without a bit share a branch; their places differ
  rcases item with ⟨a, f⟩ | ⟨a, d⟩ | ⟨a, kind, value⟩ | ⟨a, c⟩ <;>
    rcases item' with ⟨a', f'⟩ | ⟨a', d'⟩ | ⟨a', kind', value'⟩ | ⟨a', c'⟩ <;>
    simp only [Item.branch, Branch.flag.injEq, Branch.value.injEq, reduceCtorEq] at hbranches
  · have hflag : ∀ f f' : Bool, (if f then 0x4000 else 0x0000 : UInt16) =
        (if f' then 0x4000 else 0x0000) → f = f' := by decide
    obtain rfl := hflag f f' hbranches
    simpa [Item.arguments] using heq
  · exact absurd (h.symm.trans h') Nat.zero_ne_one
  · exact absurd (h'.symm.trans h) Nat.zero_ne_one
  · have hflag : ∀ d d' : Bool, (if d then 0x2000 else 0x0000 : UInt16) =
        (if d' then 0x2000 else 0x0000) → d = d' := by decide
    obtain rfl := hflag d d' hbranches
    simpa [Item.arguments] using heq
  · subst hbranches
    simpa [Item.arguments, and_assoc] using heq
  · simpa [Item.arguments] using heq

/-- An argument list has at most one admitted reading. -/
theorem arguments_injective {items items' : List Item}
    (h : Throughout Item.Admitted before items) (h' : Throughout Item.Admitted before items')
    (heq : items.flatMap Item.arguments = items'.flatMap Item.arguments) : items = items' := by
  have hne (item : Item) (rest : List Item) :
      (item :: rest).flatMap Item.arguments ≠ [] := by
    cases item <;> simp [Item.arguments]
  induction items generalizing before items' with
  | nil =>
      cases items' with
      | nil => rfl
      | cons item' rest' => exact absurd heq.symm (hne item' rest')
  | cons item rest ih =>
      cases items' with
      | nil => exact absurd heq (hne item rest)
      | cons item' rest' =>
          obtain ⟨rfl, hrest⟩ := h.1.unique h'.1 heq
          rw [ih h.2 h'.2 hrest]

/-! ## When the usage text is followed -/

/-- The parser accepts only what the usage text allows exactly when no accepted
reading of the arguments is irregular. -/
theorem validargs_followsUsage_iff (argv : List CString) :
    FollowsUsage argv ↔ ∀ items, AcceptedItems items →
      operands argv = items.flatMap Item.arguments → Throughout Item.Regular [] items := by
  constructor
  · intro hfollows items haccepted hoperands
    obtain ⟨value, globals, hrun, hvalue, hhelp⟩ :=
      (validargs_accepts_iff argv).mpr ⟨items, haccepted, hoperands⟩
    obtain ⟨command, hcommand⟩ := hfollows value globals hrun hvalue hhelp
    have hthroughout := command.throughout
    have hsame : items = command.items := by
      apply arguments_injective haccepted.admitted (hthroughout.imp fun _ _ h => h.1)
      rw [← hoperands, hcommand, command.arguments_eq]
    rw [hsame]
    exact hthroughout.imp fun _ _ h => h.2
  · intro hregular value globals hrun hvalue hhelp
    obtain ⟨items, haccepted, hoperands⟩ :=
      (validargs_accepts_iff argv).mp ⟨value, globals, hrun, hvalue, hhelp⟩
    obtain ⟨command, rfl⟩ := exists_command haccepted.finished
      (haccepted.admitted.and (hregular items haccepted hoperands))
    exact ⟨command, hoperands.trans command.arguments_eq.symm⟩

/-- The command line {lit}`hw1 -f -e -k "A A"`. -/
def blankKeyArgv : List CString :=
  [⟨[104, 119, 49], by decide⟩, ⟨[45, 102], by decide⟩, ⟨[45, 101], by decide⟩,
    ⟨[45, 107], by decide⟩, ⟨[65, 32, 65], by decide⟩]

/-- A key with a repeated letter behind a blank is accepted. -/
theorem not_followsUsage_blankKey : ¬ FollowsUsage blankKeyArgv := by
  intro hfollows
  obtain ⟨command, hcommand⟩ := hfollows 0x4000
    { Globals.startup with key := [65, 32, 65] } (by decide +kernel) (by decide) (by decide)
  have hkey : [65, 32, 65] ∈ command.arguments := by
    rw [← hcommand]
    decide
  simp only [Command.arguments, List.mem_cons, List.mem_flatMap, List.cons.injEq, reduceCtorEq,
    and_false, List.not_mem_nil, or_false, false_or] at hkey
  obtain ⟨⟨kind, value⟩, hparameter, rfl⟩ := hkey
  have hmeets := command.meetsUsage _ hparameter
  cases kind with
  | key => exact absurd hmeets.nodup (by decide)
  | rows => exact absurd hmeets.2.digits (by decide)
  | columns => exact absurd hmeets.2.digits (by decide)

end SystemFundamentals.Cipher
