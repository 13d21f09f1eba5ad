import SystemFundamentals.Utf.Convert

/-!
# The utf program

{lit}`main`, {lit}`parse_args` and {lit}`check_bom` of {lit}`hw2/src`, over the files
of the system and the descriptor table of the process.  The program runs with
its three standard streams open.  Paths that exist can be opened, and reads,
writes and {lit}`sendfile` on regular files transfer everything.

The debug and info messages are compiled out.

Main results:

- Theorem {lit}`Process.lseek_of_whence`: {lit}`lseek` with a descriptor above the
  standard streams for {lit}`whence` changes nothing.
- Theorem {lit}`parseArgsLoop_fuel`: {lit}`argc` turns of the argument loop are
  enough.
-/

namespace SystemFundamentals.Utf

open Library

/-! ## Files and descriptors -/

/-- The bytes of a C string before its terminator. -/
abbrev CString := List UInt8

/-- How the program ends early: {lit}`exit(0)` after the usage text,
{lit}`exit(EXIT_FAILURE)`, or a signal. -/
inductive Exit
  | usage
  | failure
  | signal
deriving DecidableEq

/-- An open file: its path and its current position. -/
structure OpenFile where
  path : CString
  offset : Nat
deriving DecidableEq

/-- The files of the system and the descriptors of the process.  {lit}`inode`
gives the {lit}`st_ino` of the file at a path. -/
structure Process where
  files : CString → Option (List UInt8)
  inode : CString → Nat
  descriptors : List (Option OpenFile)

namespace Process

/-- {lit}`open` takes the lowest descriptor that is not in use. -/
def openAt (process : Process) (path : CString) : Nat × Process :=
  let fd := process.descriptors.findIdx (·.isNone)
  let file : Option OpenFile := some ⟨path, 0⟩
  (fd, { process with
    descriptors :=
      if fd < process.descriptors.length then process.descriptors.set fd file
      else process.descriptors ++ [file] })

/-- {lit}`Open(pathname, O_RDONLY)`. -/
def openRead (process : Process) (pathname : CString) : Except Exit (Nat × Process) :=
  match process.files pathname with
  | none => .error .failure
  | some _ => .ok (process.openAt pathname)

/-- {lit}`Open(pathname, O_WRONLY | O_CREAT | O_TRUNC)`. -/
def openTruncated (process : Process) (pathname : CString) : Nat × Process :=
  { process with files := fun path => if path = pathname then some [] else process.files path
    }.openAt pathname

/-- The file a descriptor stands for. -/
def descriptor (process : Process) (fd : Nat) : Option OpenFile :=
  (process.descriptors[fd]?).join

/-- {lit}`close`. -/
def close (process : Process) (fd : Nat) : Process :=
  { process with descriptors := process.descriptors.set fd none }

/-- The bytes from the current position of a descriptor to the end. -/
def remaining (process : Process) (fd : Nat) : List UInt8 :=
  match process.descriptor fd with
  | none => []
  | some file => ((process.files file.path).getD []).drop file.offset

/-- Writing {lit}`bytes` at the current position of a descriptor. -/
def write (process : Process) (fd : Nat) (bytes : List UInt8) : Process :=
  match process.descriptor fd with
  | none => process
  | some file =>
      let moved : OpenFile := { file with offset := file.offset + bytes.length }
      { process with
        files := fun path =>
          if path = file.path then
            (process.files path).map fun old =>
              old.take file.offset ++ bytes ++ old.drop (file.offset + bytes.length)
          else process.files path
        descriptors := process.descriptors.set fd (some moved) }

/-- {lit}`lseek(fd, offset, whence)`.  The values 0, 1 and 2 of {lit}`whence` are
{lit}`SEEK_SET`, {lit}`SEEK_CUR` and {lit}`SEEK_END`; the call fails on any other
value, on a descriptor that is not open and on a negative position.  Linux has two more
values, {lit}`SEEK_DATA` and {lit}`SEEK_HOLE`.  {lit}`main` passes the descriptor of its
input as {lit}`whence`, and with 3 or 4 there descriptor 0 is neither of its two files, so
that nothing reads the position that such a call would move. -/
def lseek (process : Process) (fd offset whence : Int) : Process :=
  match process.descriptor fd.toNat with
  | none => process
  | some file =>
      let base : Option Int :=
        if whence = 0 then some 0
        else if whence = 1 then some file.offset
        else if whence = 2 then some (((process.files file.path).getD []).length)
        else none
      match base with
      | none => process
      | some base =>
          if base + offset < 0 then process
          else
            let moved : OpenFile := { file with offset := (base + offset).toNat }
            { process with descriptors := process.descriptors.set fd.toNat (some moved) }

/-- A file that exists is opened. -/
theorem openRead_of_exists {process : Process} {pathname : CString} {bytes : List UInt8}
    (h : process.files pathname = some bytes) :
    process.openRead pathname = .ok (process.openAt pathname) := by
  rw [openRead, h]

/-! ### Descriptors of a process without a gap -/

@[simp] theorem files_openAt (process : Process) (path : CString) :
    (process.openAt path).2.files = process.files := rfl

@[simp] theorem inode_openAt (process : Process) (path : CString) :
    (process.openAt path).2.inode = process.inode := rfl

/-- Every descriptor below the length of the table is in use. -/
def Full (descriptors : List (Option OpenFile)) : Prop :=
  ∀ file ∈ descriptors, file.isSome

theorem Full.append {descriptors rest : List (Option OpenFile)} (hfull : Full descriptors)
    (hrest : Full rest) : Full (descriptors ++ rest) := by
  intro file hfile
  exact (List.mem_append.mp hfile).elim (hfull file) (hrest file)

theorem full_singleton (file : OpenFile) : Full [some file] := by
  simp [Full]

theorem findIdx_of_full {descriptors : List (Option OpenFile)} (hfull : Full descriptors)
    (rest : List (Option OpenFile)) :
    (descriptors ++ rest).findIdx (·.isNone) =
      descriptors.length + rest.findIdx (·.isNone) := by
  induction descriptors with
  | nil => simp
  | cons file descriptors ih =>
      have hfile : file.isNone = false := by
        have := hfull file List.mem_cons_self
        cases file with
        | none => simp at this
        | some _ => rfl
      have htail : Full descriptors := fun f hf => hfull f (List.mem_cons_of_mem _ hf)
      rw [List.cons_append, List.findIdx_cons, hfile, cond_false, ih htail, List.length_cons]
      omega

/-- Without a gap the next descriptor is the length of the table. -/
theorem openAt_of_full (process : Process) (hfull : Full process.descriptors)
    (path : CString) :
    process.openAt path = (process.descriptors.length,
      { process with descriptors := process.descriptors ++ [some ⟨path, 0⟩] }) := by
  have hindex := findIdx_of_full hfull []
  rw [List.append_nil, List.findIdx_nil, Nat.add_zero] at hindex
  unfold openAt
  simp [hindex]

/-- A gap at the end is filled first. -/
theorem openAt_of_gap (process : Process) {descriptors : List (Option OpenFile)}
    (hfull : Full descriptors) (hgap : process.descriptors = descriptors ++ [none])
    (path : CString) :
    process.openAt path = (descriptors.length,
      { process with descriptors := descriptors ++ [some ⟨path, 0⟩] }) := by
  have hindex : (descriptors ++ [none]).findIdx Option.isNone = descriptors.length :=
    findIdx_of_full hfull [none]
  unfold openAt
  simp [hgap, hindex]

/-- The descriptor at the end of a table. -/
theorem descriptor_append (process : Process) {descriptors : List (Option OpenFile)}
    {file : Option OpenFile} {rest : List (Option OpenFile)}
    (h : process.descriptors = descriptors ++ file :: rest) :
    process.descriptor descriptors.length = file := by
  simp [descriptor, h]

/-- {lit}`lseek` fails when {lit}`whence` is a descriptor above the standard
streams. -/
theorem lseek_of_whence (process : Process) (fd offset : Int) {whence : Nat}
    (hwhence : 3 ≤ whence) : process.lseek fd offset whence = process := by
  unfold lseek
  cases process.descriptor fd.toNat with
  | none => rfl
  | some file =>
      have hset : ¬ (whence : Int) = 0 := by omega
      have hcur : ¬ (whence : Int) = 1 := by omega
      have hend : ¬ (whence : Int) = 2 := by omega
      simp only [hset, hcur, hend, if_false]

/-- At the start of a file all of it remains. -/
theorem remaining_of_start (process : Process) {fd : Nat} {path : CString}
    {input : List UInt8} (hfile : process.descriptor fd = some ⟨path, 0⟩)
    (hinput : process.files path = some input) : process.remaining fd = input := by
  simp [remaining, hfile, hinput]

/-- A write to a file that has just been truncated. -/
theorem files_write (process : Process) {fd : Nat} {path : CString}
    (hfile : process.descriptor fd = some ⟨path, 0⟩) (hempty : process.files path = some [])
    (bytes : List UInt8) : (process.write fd bytes).files path = some bytes := by
  simp [write, hfile, hempty]

end Process

/-! ## Arguments -/

/-- {lit}`state_t`; a null path is {lit}`none`. -/
structure ProgramState where
  encodingTo : UInt32
  encodingFrom : UInt32
  bomLength : Int
  inFile : Option CString
  outFile : Option CString

/-- The state that {lit}`Calloc` gives. -/
def ProgramState.zero : ProgramState := ⟨0, 0, 0, none, none⟩

/-- The string {lit}`"UTF16BE"`. -/
def STR_UTF16BE : CString := [0x55, 0x54, 0x46, 0x31, 0x36, 0x42, 0x45]

/-- The string {lit}`"UTF16LE"`. -/
def STR_UTF16LE : CString := [0x55, 0x54, 0x46, 0x31, 0x36, 0x4C, 0x45]

/-- The string {lit}`"UTF8"`. -/
def STR_UTF8 : CString := [0x55, 0x54, 0x46, 0x38]

def determineFormat (argument : CString) : UInt32 :=
  if argument = STR_UTF16LE then UTF16LE
  else if argument = STR_UTF16BE then UTF16BE
  else if argument = STR_UTF8 then UTF8
  else 0

/-- What {lit}`getopt` reports: no further option, an option with its argument,
or a character that is not an option. -/
inductive Getopt
  | done (optind : Nat)
  | option (optarg : CString) (optind : Nat)
  | unknown
deriving DecidableEq

/-- {lit}`getopt(argc, argv, "+e:")`.  The only option consumes the rest of its
argument or the next one, so the scan never stops inside an argument. -/
def getopt (argv : List CString) (optind : Nat) : Getopt :=
  match argv[optind]? with
  | some (0x2D :: char :: rest) =>
      if char = 0x2D ∧ rest = [] then .done (optind + 1)
      else if char = 0x65 then
        if rest ≠ [] then .option rest (optind + 1)
        else
          match argv[optind + 1]? with
          | some value => .option value (optind + 2)
          | none => .unknown
      else .unknown
  | _ => .done optind

/-- The loop of {lit}`parse_args`.  Every turn moves {lit}`optind` on, so
{lit}`argc` turns are enough. -/
def parseArgsLoop (argv : List CString) : Nat → Nat → ProgramState → Except Exit ProgramState
  | 0, _, state => .ok state
  | fuel + 1, optind, state =>
      if optind < argv.length ∧ (state.inFile = none ∨ state.outFile = none) then
        match getopt argv optind with
        | .option optarg optind =>
            if determineFormat optarg = 0 then .error .usage
            else parseArgsLoop argv fuel optind
              { state with encodingTo := determineFormat optarg }
        | .unknown => .error .usage
        | .done optind =>
            match argv[optind]? with
            | none => parseArgsLoop argv fuel optind state
            | some path =>
                if state.inFile = none then
                  parseArgsLoop argv fuel (optind + 1) { state with inFile := some path }
                else
                  parseArgsLoop argv fuel (optind + 1) { state with outFile := some path }
      else .ok state

/-- {lit}`getopt` never moves {lit}`optind` back, and moves it on past an option. -/
theorem getopt_optind {argv : List CString} {optind : Nat} :
    (∀ next, getopt argv optind = .done next → optind ≤ next) ∧
      ∀ optarg next, getopt argv optind = .option optarg next → optind < next := by
  unfold getopt
  constructor
  · intro next h
    split at h
    · split_ifs at h with hdashes
      · cases h
        omega
      · split at h <;> cases h
    · cases h
      omega
  · intro optarg next h
    split at h
    · split_ifs at h
      · cases h
        omega
      · split at h <;> cases h
        omega
    · cases h

/-- Turns beyond {lit}`argc` change nothing. -/
theorem parseArgsLoop_fuel (argv : List CString) {fuel optind : Nat}
    (hfuel : argv.length ≤ optind + fuel) (state : ProgramState) :
    parseArgsLoop argv (fuel + 1) optind state = parseArgsLoop argv fuel optind state := by
  induction fuel generalizing optind state with
  | zero =>
      have hend : ¬ optind < argv.length := by omega
      simp [parseArgsLoop, hend]
  | succ fuel ih =>
      rw [parseArgsLoop, parseArgsLoop]
      by_cases hcontinue :
          optind < argv.length ∧ (state.inFile = none ∨ state.outFile = none)
      · rw [if_pos hcontinue, if_pos hcontinue]
        cases hget : getopt argv optind with
        | option optarg next =>
            have hnext := getopt_optind.2 optarg next hget
            simp only [ih (show argv.length ≤ next + fuel by omega)]
        | unknown => rfl
        | done next =>
            have hnext := getopt_optind.1 next hget
            cases hpath : argv[next]? with
            | none =>
                have hend := List.getElem?_eq_none_iff.mp hpath
                simp only [hpath, ih (show argv.length ≤ next + fuel by omega)]
            | some path =>
                simp only [hpath, ih (show argv.length ≤ next + 1 + fuel by omega)]
      · rw [if_neg hcontinue, if_neg hcontinue]

/-- {lit}`parse_args`.  The two descriptors it opens to compare the files stay
open. -/
def parseArgs (argv : List CString) (process : Process) :
    Except Exit (ProgramState × Process) := do
  if argv.length = 1 then .error .usage
  else
    let state ← parseArgsLoop argv argv.length 1 .zero
    match state.inFile, state.outFile with
    | some inFile, some outFile =>
        if inFile = outFile ∨ 5 < argv.length then .error .usage
        else if (process.files outFile).isSome then
          let (_, process) ← process.openRead inFile
          let (_, process) ← process.openRead outFile
          if process.inode inFile = process.inode outFile then .error .usage
          else .ok (state, process)
        else .ok (state, process)
    -- strcmp on a null path
    | _, _ => .error .signal

/-! ## The byte order mark -/

/-- The {lit}`format_t` and its length that {lit}`check_bom` finds at the start of
a file. -/
def checkBomBytes (input : List UInt8) : Except Exit (UInt32 × Int) :=
  if input.length < 3 then .error .failure
  else
    -- the fourth byte of bom keeps its initial zero
    let bom := input.take 3 ++ [0]
    if LittleEndian.decode bom = UTF8.toNat then .ok (UTF8, 3)
    else
      let swapped := LittleEndian.decode (reverseBytes bom 2)
      if swapped % 0x10000 = UTF16LE.toNat then .ok (UTF16LE, 2)
      else if swapped % 0x10000 = UTF16BE.toNat then .ok (UTF16BE, 2)
      else .error .failure

/-- {lit}`check_bom`. -/
def checkBom (state : ProgramState) (process : Process) :
    Except Exit (ProgramState × Process) := do
  match state.inFile with
  | none => .error .failure
  | some inFile =>
      let (fd, process) ← process.openRead inFile
      let (format, length) ← checkBomBytes (process.remaining fd)
      .ok ({ state with encodingFrom := format, bomLength := length }, process.close fd)

/-! ## Conversion -/

/-- What the local variables of the converters hold when they are called, and the
memory after the {lit}`bom` of {lit}`from_utf16be_to_utf16le`. -/
structure Locals where
  utf8Buf : Utf8Glyph
  utf16Buf : Utf16Glyph
  beyondBom : List UInt8

/-- {lit}`get_encoding_function`: the difference of the two formats selects the
converter; {lit}`none` is the null pointer.  {lit}`stSize` is the size that
{lit}`transcribe` gets from {lit}`fstat`. -/
def getEncodingFunction (state : ProgramState) (locals : Locals) (stSize : Nat) :
    Option (List UInt8 → Conversion) :=
  let translate := state.encodingFrom - state.encodingTo
  if translate = UTF8 - UTF16LE then some (fromUtf8ToUtf16le locals.utf8Buf)
  else if translate = UTF8 - UTF16BE then some (fromUtf8ToUtf16be locals.utf8Buf)
  else if translate = UTF16LE - UTF16BE then some (fromUtf16leToUtf16be locals.utf16Buf)
  else if translate = UTF16BE - UTF16LE then
    some (fromUtf16beToUtf16le locals.beyondBom locals.utf16Buf)
  else if translate = UTF16BE - UTF8 then some (fromUtf16beToUtf8 locals.utf16Buf)
  else if translate = UTF16LE - UTF8 then some (fromUtf16leToUtf8 locals.utf16Buf)
  else if translate = 0 then some (transcribe stSize)
  else none

/-- {lit}`SEEK_SET`. -/
def SEEK_SET : Int := 0

/-- The second half of {lit}`main`: open both files, skip the byte order mark and
convert. -/
def openAndConvert (locals : Locals) (state : ProgramState) (process : Process) :
    Except Exit Process := do
  match state.inFile, state.outFile with
  | some inFile, some outFile =>
      let (infile, process) ← process.openRead inFile
      let (outfile, process) := process.openTruncated outFile
      -- the arguments of lseek stand in the order of the source
      let process := process.lseek SEEK_SET state.bomLength infile
      let input := process.remaining infile
      match getEncodingFunction state locals ((process.files inFile).getD []).length with
      | none => .error .signal
      | some convert =>
          match (convert input).ret with
          | none => .error .signal
          | some _ =>
              .ok (((process.write outfile (convert input).written).close outfile).close infile)
  | _, _ => .error .signal

/-- {lit}`main`. -/
def main (argv : List CString) (locals : Locals) (process : Process) :
    Except Exit Process := do
  let (state, process) ← parseArgs argv process
  let (state, process) ← checkBom state process
  openAndConvert locals state process

end SystemFundamentals.Utf
