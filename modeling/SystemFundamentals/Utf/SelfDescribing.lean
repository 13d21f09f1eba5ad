import SystemFundamentals.Utf.Main

/-!
# Self-describing output

A file that the program has written should start with one byte order mark of
the target encoding, so that {lit}`check_bom` recognizes it.  The arguments of
{lit}`lseek` in {lit}`main` are in the wrong order: the call names descriptor 0, and
the byte order mark of the source reaches the converter.  The converters to
UTF-16 write it again, and those to UTF-8 drop it and write none.

Main results:

- Theorem {lit}`main_selfDescribing_iff`: the output is self-describing exactly
  when the source already has the target encoding.
-/

namespace SystemFundamentals.Utf

open Library

/-! ## Schemes and their formats -/

/-- The {lit}`format_t` of a scheme. -/
def formatOf : Scheme → UInt32
  | .utf8 => UTF8
  | .utf16le => UTF16LE
  | .utf16be => UTF16BE

/-- The name of a scheme on the command line. -/
def nameOf : Scheme → CString
  | .utf8 => STR_UTF8
  | .utf16le => STR_UTF16LE
  | .utf16be => STR_UTF16BE

@[simp] theorem determineFormat_nameOf (scheme : Scheme) :
    determineFormat (nameOf scheme) = formatOf scheme := by
  cases scheme <;> decide

theorem formatOf_ne_zero (scheme : Scheme) : formatOf scheme ≠ 0 := by
  cases scheme <;> decide

/-- {lit}`check_bom` recognizes the scheme whose mark starts a file of at least
three bytes. -/
theorem checkBomBytes_mark (scheme : Scheme) {input : List UInt8}
    (hlength : 3 ≤ (scheme.mark ++ input).length) :
    checkBomBytes (scheme.mark ++ input) = .ok (formatOf scheme, scheme.mark.length) := by
  have hlong : ¬ (scheme.mark ++ input).length < 3 := by omega
  have hdecode (first second third : UInt8) :
      LittleEndian.decode [first, second, third, 0] =
        first.toNat + 256 * second.toNat + 65536 * third.toNat := by
    simp only [LittleEndian.decode, UInt8.toNat_zero]
    omega
  have hreverse (first second third : UInt8) :
      reverseBytes [first, second, third, 0] 2 = [second, first, third, 0] := rfl
  have hutf8 : UTF8.toNat = 0xBFBBEF := rfl
  have hle : UTF16LE.toNat = 0xFFFE := rfl
  have hbe : UTF16BE.toNat = 0xFEFF := rfl
  have hFF : (0xFF : UInt8).toNat = 0xFF := rfl
  have hFE : (0xFE : UInt8).toNat = 0xFE := rfl
  rw [checkBomBytes, if_neg hlong]
  cases scheme with
  | utf8 => rfl
  | utf16le =>
      cases input with
      | nil => simp [Scheme.mark] at hlength
      | cons third input =>
          have htake : (Scheme.utf16le.mark ++ third :: input).take 3 ++ [0] =
              [0xFF, 0xFE, third, 0] := rfl
          simp only [htake, hreverse, hdecode, hutf8, hle, hFF, hFE]
          rw [if_neg (by omega), if_pos (by omega)]
          rfl
  | utf16be =>
      cases input with
      | nil => simp [Scheme.mark] at hlength
      | cons third input =>
          have htake : (Scheme.utf16be.mark ++ third :: input).take 3 ++ [0] =
              [0xFE, 0xFF, third, 0] := rfl
          simp only [htake, hreverse, hdecode, hutf8, hle, hbe, hFF, hFE]
          rw [if_neg (by omega), if_neg (by omega), if_pos (by omega)]
          rfl

/-! ## A call of the program -/

/-- An operand: {lit}`getopt` does not take it for options. -/
def IsOperand (argument : CString) : Prop :=
  ∀ char rest, argument ≠ 0x2D :: char :: rest

/-- A call {lit}`program -e ENCODING INPUT_FILE OUTPUT_FILE` and the system it is
made in: the standard streams are open and the two paths are operands that name
different files. -/
structure Invocation where
  program : CString
  inFile : CString
  outFile : CString
  stdin : OpenFile
  stdout : OpenFile
  stderr : OpenFile
  files : CString → Option (List UInt8)
  inode : CString → Nat
  inFile_operand : IsOperand inFile
  outFile_operand : IsOperand outFile
  distinct : inFile ≠ outFile
  inode_ne : (files outFile).isSome → inode inFile ≠ inode outFile

namespace Invocation

/-- The argument vector for a target. -/
def argv (call : Invocation) (target : Scheme) : List CString :=
  [call.program, [0x2D, 0x65], nameOf target, call.inFile, call.outFile]

/-- The system with {lit}`input` in the input file. -/
def process (call : Invocation) (input : List UInt8) : Process where
  files path := if path = call.inFile then some input else call.files path
  inode := call.inode
  descriptors := [some call.stdin, some call.stdout, some call.stderr]

theorem full_process (call : Invocation) (input : List UInt8) :
    Process.Full (call.process input).descriptors := by
  simp [Process.Full, process]

/-- The bytes of the output file after the program has returned. -/
def output (call : Invocation) (target : Scheme) (locals : Locals) (input : List UInt8) :
    Option (List UInt8) :=
  match main (call.argv target) locals (call.process input) with
  | .ok process => process.files call.outFile
  | .error _ => none

end Invocation

/-- An argument that is an operand ends the options. -/
theorem getopt_operand {argv : List CString} {optind : Nat} {argument : CString}
    (hget : argv[optind]? = some argument) (hoperand : IsOperand argument) :
    getopt argv optind = .done optind := by
  unfold getopt
  rw [hget]
  split
  · rename_i char rest heq
    exact absurd (Option.some.inj heq) (hoperand char rest)
  · rfl

theorem parseArgsLoop_argv (call : Invocation) (target : Scheme) :
    parseArgsLoop (call.argv target) 5 1 .zero =
      .ok ⟨formatOf target, 0, 0, some call.inFile, some call.outFile⟩ := by
  have hoption : getopt (call.argv target) 1 = .option (nameOf target) 3 := rfl
  have hin : getopt (call.argv target) 3 = .done 3 :=
    getopt_operand rfl call.inFile_operand
  have hout : getopt (call.argv target) 4 = .done 4 :=
    getopt_operand rfl call.outFile_operand
  have hlength : (call.argv target).length = 5 := rfl
  have hgetIn : (call.argv target)[3]? = some call.inFile := rfl
  have hgetOut : (call.argv target)[4]? = some call.outFile := rfl
  have hformat := formatOf_ne_zero target
  simp only [parseArgsLoop, ProgramState.zero, hlength, hoption, hin, hout, hgetIn, hgetOut,
    determineFormat_nameOf, hformat]
  rfl

/-- The descriptors that {lit}`parse_args` leaves open. -/
def leaked (call : Invocation) : List (Option OpenFile) :=
  if (call.files call.outFile).isSome then
    [some ⟨call.inFile, 0⟩, some ⟨call.outFile, 0⟩]
  else []

theorem full_leaked (call : Invocation) : Process.Full (leaked call) := by
  unfold leaked
  split <;> simp [Process.Full]

theorem parseArgs_argv (call : Invocation) (target : Scheme) (input : List UInt8) :
    parseArgs (call.argv target) (call.process input) =
      .ok (⟨formatOf target, 0, 0, some call.inFile, some call.outFile⟩,
        { call.process input with
          descriptors := (call.process input).descriptors ++ leaked call }) := by
  have hlength : (call.argv target).length = 5 := rfl
  have hdistinct := call.distinct
  have hfiles : (call.process input).files call.outFile = call.files call.outFile :=
    if_neg (Ne.symm call.distinct)
  have hin : (call.process input).files call.inFile = some input := if_pos rfl
  unfold parseArgs
  rw [hlength, parseArgsLoop_argv]
  cases hout : call.files call.outFile with
  | none =>
      simp [hdistinct, hfiles, hout, leaked, bind, Except.bind]
  | some old =>
      have hinode : ¬ (call.process input).inode call.inFile =
          (call.process input).inode call.outFile := call.inode_ne (by simp [hout])
      have hopenIn := Process.openAt_of_full _ (call.full_process input) call.inFile
      have hfull := (call.full_process input).append (Process.full_singleton ⟨call.inFile, 0⟩)
      have hopenOut := Process.openAt_of_full
        { call.process input with
          descriptors := (call.process input).descriptors ++ [some ⟨call.inFile, 0⟩] }
        hfull call.outFile
      simp [hdistinct, hfiles, hout, leaked, bind, Except.bind, Process.openRead, hin, hopenIn,
        hopenOut, hinode]

/-- {lit}`check_bom` leaves a gap at the end of the descriptor table. -/
theorem checkBom_of_full (state : ProgramState) (process : Process) {path : CString}
    {input : List UInt8} {format : UInt32} {length : Int}
    (hfull : Process.Full process.descriptors) (hpath : state.inFile = some path)
    (hinput : process.files path = some input)
    (hbom : checkBomBytes input = .ok (format, length)) :
    checkBom state process =
      .ok ({ state with encodingFrom := format, bomLength := length },
        { process with descriptors := process.descriptors ++ [none] }) := by
  have hremaining : Process.remaining
      { process with descriptors := process.descriptors ++ [some ⟨path, 0⟩] }
      process.descriptors.length = input :=
    Process.remaining_of_start _ (Process.descriptor_append _ rfl) hinput
  simp only [checkBom, hpath, Process.openRead_of_exists hinput,
    Process.openAt_of_full _ hfull, bind, Except.bind, hremaining, hbom, Process.close]
  simp

/-- The second half of {lit}`main` runs the converter on the whole input file:
{lit}`lseek` changes nothing. -/
theorem openAndConvert_of_gap {locals : Locals} {state : ProgramState} {process : Process}
    {descriptors : List (Option OpenFile)} {inFile outFile : CString} {input : List UInt8}
    {convert : List UInt8 → Conversion} (hfull : Process.Full descriptors)
    (hgap : process.descriptors = descriptors ++ [none]) (hthree : 3 ≤ descriptors.length)
    (hin : state.inFile = some inFile) (hout : state.outFile = some outFile)
    (hne : inFile ≠ outFile) (hinput : process.files inFile = some input)
    (hconvert : getEncodingFunction state locals input.length = some convert) :
    (match openAndConvert locals state process with
      | .ok process => process.files outFile
      | .error _ => none) = (convert input).ret.map fun _ => (convert input).written := by
  let source : OpenFile := ⟨inFile, 0⟩
  let target : OpenFile := ⟨outFile, 0⟩
  -- both files open: the input at the gap, the output after it
  let opened : Process :=
    { files := fun path => if path = outFile then some [] else process.files path
      inode := process.inode
      descriptors := descriptors ++ [some source, some target] }
  have hopenIn : process.openRead inFile = .ok (descriptors.length,
      { process with descriptors := descriptors ++ [some source] }) := by
    rw [Process.openRead_of_exists hinput, Process.openAt_of_gap process hfull hgap]
  have hopenOut : Process.openTruncated
      { process with descriptors := descriptors ++ [some source] } outFile =
      ((descriptors ++ [some source]).length, opened) := by
    rw [Process.openTruncated, Process.openAt_of_full _
      (hfull.append (Process.full_singleton source))]
    simp [opened, source, target]
  have hfiles : opened.files inFile = some input := by
    rw [← hinput]
    exact if_neg hne
  have hremaining : opened.remaining descriptors.length = input :=
    Process.remaining_of_start opened (Process.descriptor_append opened rfl) hfiles
  have htable : opened.descriptors = (descriptors ++ [some source]) ++ [some target] := by
    simp [opened]
  have hdescriptor : opened.descriptor (descriptors ++ [some source]).length = some target :=
    Process.descriptor_append opened htable
  have hwritten := Process.files_write opened hdescriptor (if_pos rfl) (convert input).written
  simp only [openAndConvert, hin, hout, bind, Except.bind, hopenIn, hopenOut,
    Process.lseek_of_whence _ _ _ hthree, hremaining, hfiles, Option.getD_some, hconvert]
  cases (convert input).ret with
  | none => rfl
  | some ret => exact hwritten

/-- The bytes in the output file are those of the converter that
{lit}`get_encoding_function` selects, run on the whole input file. -/
theorem output_eq (call : Invocation) (source target : Scheme) (locals : Locals)
    {input : List UInt8} {convert : List UInt8 → Conversion}
    (hbom : checkBomBytes input = .ok (formatOf source, source.mark.length))
    (hconvert : getEncodingFunction ⟨formatOf target, formatOf source, source.mark.length,
      some call.inFile, some call.outFile⟩ locals input.length = some convert) :
    call.output target locals input =
      (convert input).ret.map fun _ => (convert input).written := by
  have hinput : (call.process input).files call.inFile = some input := if_pos rfl
  have hfull := (call.full_process input).append (full_leaked call)
  have hthree : 3 ≤ ((call.process input).descriptors ++ leaked call).length := by
    simp [Invocation.process]
  have hchecked := checkBom_of_full
    ⟨formatOf target, 0, 0, some call.inFile, some call.outFile⟩
    { call.process input with
      descriptors := (call.process input).descriptors ++ leaked call }
    hfull rfl hinput hbom
  unfold Invocation.output main
  rw [parseArgs_argv]
  simp only [bind, Except.bind]
  rw [hchecked]
  exact openAndConvert_of_gap hfull rfl hthree rfl rfl call.distinct hinput hconvert

/-! ## The property -/

/-- The output starts with one byte order mark of the target, no further U+FEFF
can be read from it, and {lit}`check_bom` recognizes the target. -/
def SelfDescribing (target : Scheme) (output : List UInt8) : Prop :=
  ∃ rest, output = target.mark ++ rest ∧ target.MarkFree rest ∧
    ∃ length, checkBomBytes output = .ok (formatOf target, length)

/-- Bytes that start with a mark are not free of marks. -/
theorem not_markFree_of_prefix {scheme : Scheme} {bytes : List UInt8}
    (h : scheme.mark <+: bytes) : ¬ scheme.MarkFree bytes := by
  rcases h with ⟨rest, rfl⟩
  intro hfree
  cases scheme with
  | utf8 => exact hfree (List.prefix_append _ _).isInfix
  | utf16le => exact hfree List.mem_cons_self
  | utf16be => exact hfree List.mem_cons_self

/-- A second mark spoils the output. -/
theorem not_selfDescribing_of_marks {target : Scheme} {output : List UInt8}
    (h : target.mark ++ target.mark <+: output) : ¬ SelfDescribing target output := by
  intro hself
  rcases hself with ⟨rest, rfl, hfree, -⟩
  exact not_markFree_of_prefix ((List.prefix_append_right_inj _).mp h) hfree

/-- A missing mark spoils the output. -/
theorem not_selfDescribing_of_start {target : Scheme} {output : List UInt8}
    (h : ¬ target.mark <+: output) : ¬ SelfDescribing target output := by
  intro hself
  rcases hself with ⟨rest, rfl, -, -⟩
  exact h (List.prefix_append _ _)

/-- The converter for two schemes. -/
def converter (source target : Scheme) (locals : Locals) (stSize : Nat) :
    List UInt8 → Conversion :=
  match source, target with
  | .utf8, .utf16le => fromUtf8ToUtf16le locals.utf8Buf
  | .utf8, .utf16be => fromUtf8ToUtf16be locals.utf8Buf
  | .utf16le, .utf16be => fromUtf16leToUtf16be locals.utf16Buf
  | .utf16be, .utf16le => fromUtf16beToUtf16le locals.beyondBom locals.utf16Buf
  | .utf16be, .utf8 => fromUtf16beToUtf8 locals.utf16Buf
  | .utf16le, .utf8 => fromUtf16leToUtf8 locals.utf16Buf
  | .utf8, .utf8 | .utf16le, .utf16le | .utf16be, .utf16be => transcribe stSize

/-- {lit}`get_encoding_function` tells the nine pairs apart, but for the three
equal ones. -/
theorem getEncodingFunction_formatOf (source target : Scheme) (locals : Locals)
    (stSize : Nat) (length : Int) (inFile outFile : Option CString) :
    getEncodingFunction ⟨formatOf target, formatOf source, length, inFile, outFile⟩
      locals stSize = some (converter source target locals stSize) := by
  -- no two of the seven selectors agree
  have hdistinct : [0, UTF16LE - UTF8, UTF16BE - UTF8, UTF16BE - UTF16LE, UTF16LE - UTF16BE,
      UTF8 - UTF16BE, UTF8 - UTF16LE].Nodup := by decide +kernel
  simp only [List.nodup_cons, List.mem_cons, not_or] at hdistinct
  cases source <;> cases target <;>
    simp only [getEncodingFunction, converter, formatOf, UInt32.sub_self, hdistinct,
      if_true, if_false]

/-- No converter between different schemes copes with a byte order mark in its
input. -/
theorem converter_not_selfDescribing {source target : Scheme} (hne : source ≠ target)
    (locals : Locals) (stSize : Nat) {text : List Char} (htext : byteOrderMark ∉ text)
    (hlength : 3 ≤ (source.mark ++ source.encode text).length) :
    ¬ SelfDescribing target
      (converter source target locals stSize (source.mark ++ source.encode text)).written := by
  have hlast (endian : ByteOrder) (hempty : ¬ 3 ≤ (endian.bytes 0xFEFF).length)
      (hlong : 3 ≤ (endian.bytes 0xFEFF ++
        (text.flatMap utf16Units).flatMap endian.bytes).length) :
      ¬ Scheme.utf8.mark <+: (utf16ToUtf8Loop endian.order locals.utf16Buf
        (endian.bytes 0xFEFF ++ (text.flatMap utf16Units).flatMap endian.bytes)).written := by
    cases text with
    | nil => exact absurd hlong hempty
    | cons c text =>
        rw [List.flatMap_cons, List.flatMap_append]
        exact utf16ToUtf8Loop_not_mark endian locals.utf16Buf
          (fun h => htext (by rw [h]; exact List.mem_cons_self)) _
  cases source with
  | utf8 =>
      cases target with
      | utf8 => exact absurd rfl hne
      | utf16le => exact not_selfDescribing_of_marks (fromUtf8ToUtf16le_mark _ _)
      | utf16be => exact not_selfDescribing_of_marks (fromUtf8ToUtf16be_mark _ _)
  | utf16le =>
      cases target with
      | utf8 =>
          exact not_selfDescribing_of_start (hlast .littleEndian (by decide) hlength)
      | utf16le => exact absurd rfl hne
      | utf16be => exact not_selfDescribing_of_marks (fromUtf16leToUtf16be_mark _ _)
  | utf16be =>
      cases target with
      | utf8 =>
          exact not_selfDescribing_of_start (hlast .bigEndian (by decide) hlength)
      | utf16le =>
          apply not_selfDescribing_of_start
          intro hprefix
          rcases fromUtf16beToUtf16le_start locals.beyondBom locals.utf16Buf
            (Scheme.utf16be.mark ++ Scheme.utf16be.encode text) with ⟨rest, hrest⟩
          rw [converter, ← hrest] at hprefix
          exact absurd (List.cons_prefix_cons.mp hprefix).1 (by decide)
      | utf16be => exact absurd rfl hne

/-- Copying keeps the mark and the text. -/
theorem transcribe_selfDescribing (scheme : Scheme) {text : List Char}
    (htext : byteOrderMark ∉ text)
    (hlength : 3 ≤ (scheme.mark ++ scheme.encode text).length) :
    SelfDescribing scheme (transcribe (scheme.mark ++ scheme.encode text).length
      (scheme.mark ++ scheme.encode text)).written := by
  rw [transcribe, List.take_length]
  exact ⟨_, rfl, scheme.markFree_encode htext, _, checkBomBytes_mark scheme hlength⟩

/-- The program leaves a self-describing file exactly when the source has the
target encoding already. -/
theorem main_selfDescribing_iff (call : Invocation) (source target : Scheme)
    (locals : Locals) {text : List Char} (htext : byteOrderMark ∉ text)
    (hlength : 3 ≤ (source.mark ++ source.encode text).length) :
    (∃ output, call.output target locals (source.mark ++ source.encode text) = some output ∧
      SelfDescribing target output) ↔ source = target := by
  rw [output_eq call source target locals (checkBomBytes_mark source hlength)
    (getEncodingFunction_formatOf ..)]
  constructor
  · intro h
    rcases h with ⟨output, hout, hself⟩
    rcases Option.map_eq_some_iff.mp hout with ⟨_, -, rfl⟩
    by_contra hne
    exact converter_not_selfDescribing hne locals _ htext hlength hself
  · intro h
    subst h
    refine ⟨(transcribe _ _).written, ?_, transcribe_selfDescribing source htext hlength⟩
    cases source <;> rfl

/-- The call {lit}`utf -e ENCODING a b` where {lit}`b` does not exist yet. -/
def sampleCall : Invocation where
  program := [0x75]
  inFile := [0x61]
  outFile := [0x62]
  stdin := ⟨[], 0⟩
  stdout := ⟨[], 0⟩
  stderr := ⟨[], 0⟩
  files := fun _ => none
  inode := fun _ => 0
  inFile_operand char rest h := by simp at h
  outFile_operand char rest h := by simp at h
  distinct := by decide
  inode_ne h := by simp at h

/-- Local variables that happen to be zero. -/
def zeroLocals : Locals := ⟨.zero, ⟨0, 0⟩, [0, 0]⟩

/-- A UTF-8 file holding the letter {lit}`a` is copied to a self-describing file,
and its conversion to UTF-16LE is not self-describing. -/
theorem main_selfDescribing_sample :
    (∃ output, sampleCall.output .utf8 zeroLocals
        (Scheme.utf8.mark ++ Scheme.utf8.encode ['a']) = some output ∧
      SelfDescribing .utf8 output) ∧
    ¬ ∃ output, sampleCall.output .utf16le zeroLocals
        (Scheme.utf8.mark ++ Scheme.utf8.encode ['a']) = some output ∧
      SelfDescribing .utf16le output :=
  ⟨(main_selfDescribing_iff sampleCall .utf8 .utf8 zeroLocals (by decide) (by decide)).mpr rfl,
    fun h => absurd ((main_selfDescribing_iff sampleCall .utf8 .utf16le zeroLocals
      (by decide) (by decide)).mp h) (by decide)⟩

/-- Converting the UTF-8 file that holds the letter {lit}`a` to UTF-16LE writes
two byte order marks. -/
theorem main_not_selfDescribing :
    ¬ ∀ (call : Invocation) (source target : Scheme) (locals : Locals) (text : List Char),
      byteOrderMark ∉ text → 3 ≤ (source.mark ++ source.encode text).length →
      ∃ output, call.output target locals (source.mark ++ source.encode text) = some output ∧
        SelfDescribing target output := by
  intro hall
  rcases hall sampleCall .utf8 .utf16le zeroLocals ['a'] (by decide) (by decide) with
    ⟨output, hout, hself⟩
  rw [output_eq sampleCall .utf8 .utf16le zeroLocals
    (checkBomBytes_mark .utf8 (by decide)) (getEncodingFunction_formatOf ..)] at hout
  rcases Option.map_eq_some_iff.mp hout with ⟨_, -, rfl⟩
  exact not_selfDescribing_of_marks (fromUtf8ToUtf16le_mark _ _) hself

end SystemFundamentals.Utf
