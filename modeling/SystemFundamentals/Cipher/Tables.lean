import Mathlib.Data.List.Basic

/-!
# Characters and tables of the cipher program

The tables of {lit}`hw1/src/const.c`, as byte strings without their terminating
zero.  Reading the terminator of a C string is reading past the end of the list.
-/

namespace SystemFundamentals.Cipher

/-- The bytes {lit}`.`, {lit}`-` and {lit}`x` of the Morse alphabet. -/
def dot : UInt8 := 46

@[inherit_doc dot] def dash : UInt8 := 45

@[inherit_doc dot] def sep : UInt8 := 120

/-- Space, tab and newline. -/
def space : UInt8 := 32

@[inherit_doc space] def tab : UInt8 := 9

@[inherit_doc space] def newline : UInt8 := 10

/-- What {lit}`getchar` returns at the end of the input, stored in a
{lit}`char`; the byte 255 is taken for it. -/
def eof : UInt8 := 255

/-- The value of a stored {lit}`char`. -/
def signed (c : UInt8) : Int :=
  if c < 128 then c.toNat else (c.toNat : Int) - 256

/-- A read beyond the end of one of the tables. -/
inductive Overrun
  | overrun
deriving DecidableEq

/-- What a step made of an outcome came from one without an error. -/
theorem exists_of_map_eq_ok {ε α β : Type} {f : α → β} {result : Except ε α} {b : β}
    (h : result.map f = .ok b) : ∃ a, result = .ok a ∧ f a = b := by
  cases result with
  | error stop => cases h
  | ok a => exact ⟨a, rfl, Except.ok.inj h⟩

theorem not_isOk_error {ε α : Type} (stop : ε) :
    ¬ ∃ a, (Except.error stop : Except ε α) = .ok a := by
  rintro ⟨a, h⟩
  cases h

/-- A step made of an outcome has no error of its own. -/
theorem map_isOk_iff {ε α β : Type} (f : α → β) (result : Except ε α) :
    (∃ b, result.map f = .ok b) ↔ ∃ a, result = .ok a := by
  constructor
  · rintro ⟨b, h⟩
    obtain ⟨a, ha, -⟩ := exists_of_map_eq_ok h
    exact ⟨a, ha⟩
  · rintro ⟨a, rfl⟩
    exact ⟨f a, rfl⟩

/-- {lit}`polybius_alphabet`: the printable characters from {lit}`!` to
{lit}`~` in order. -/
def polybiusAlphabet : List UInt8 :=
  (List.range' 33 94).map UInt8.ofNat

/-- {lit}`fm_alphabet`: the letters {lit}`A` to {lit}`Z`. -/
def fmAlphabet : List UInt8 :=
  (List.range' 65 26).map UInt8.ofNat

/-- {lit}`morse_table`, indexed from the character {lit}`!`. -/
def morseTable : List (List UInt8) :=
  [[dash, dot, dash, dot, dash, dash], [dot, dash, dot, dot, dash, dot], [], [], [], [],
    [dot, dash, dash, dash, dash, dot], [dash, dot, dash, dash, dot],
    [dash, dot, dash, dash, dot, dash], [], [], [dash, dash, dot, dot, dash, dash],
    [dash, dot, dot, dot, dot, dash], [dot, dash, dot, dash, dot, dash], [],
    [dash, dash, dash, dash, dash], [dot, dash, dash, dash, dash],
    [dot, dot, dash, dash, dash], [dot, dot, dot, dash, dash],
    [dot, dot, dot, dot, dash], [dot, dot, dot, dot, dot], [dash, dot, dot, dot, dot],
    [dash, dash, dot, dot, dot], [dash, dash, dash, dot, dot],
    [dash, dash, dash, dash, dot], [dash, dash, dash, dot, dot, dot],
    [dash, dot, dash, dot, dash, dot], [], [dash, dot, dot, dot, dash], [],
    [dot, dot, dash, dash, dot, dot], [dot, dash, dash, dot, dash, dot], [dot, dash],
    [dash, dot, dot, dot], [dash, dot, dash, dot], [dash, dot, dot], [dot],
    [dot, dot, dash, dot], [dash, dash, dot], [dot, dot, dot, dot], [dot, dot],
    [dot, dash, dash, dash], [dash, dot, dash], [dot, dash, dot, dot], [dash, dash],
    [dash, dot], [dash, dash, dash], [dot, dash, dash, dot], [dash, dash, dot, dash],
    [dot, dash, dot], [dot, dot, dot], [dash], [dot, dot, dash], [dot, dot, dot, dash],
    [dot, dash, dash], [dash, dot, dot, dash], [dash, dot, dash, dash],
    [dash, dash, dot, dot], [], [], [], [], [], [], [], [], [], [], [], [], [], [], [],
    [], [], [], [], [], [], [], [], [], [], [], [], [], [], [], [], []]

/-- {lit}`fractionated_table`. -/
def fractionatedTable : List (List UInt8) :=
  [[dot, dot, dot], [dot, dot, dash], [dot, dot, sep], [dot, dash, dot],
    [dot, dash, dash], [dot, dash, sep], [dot, sep, dot], [dot, sep, dash],
    [dot, sep, sep], [dash, dot, dot], [dash, dot, dash], [dash, dot, sep],
    [dash, dash, dot], [dash, dash, dash], [dash, dash, sep], [dash, sep, dot],
    [dash, sep, dash], [dash, sep, sep], [sep, dot, dot], [sep, dot, dash],
    [sep, dot, sep], [sep, dash, dot], [sep, dash, dash], [sep, dash, sep],
    [sep, sep, dot], [sep, sep, dash]]

end SystemFundamentals.Cipher
