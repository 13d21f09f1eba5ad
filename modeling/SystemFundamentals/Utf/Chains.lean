import SystemFundamentals.Utf.SelfDescribing
import SystemFundamentals.Utf.FromUtf16
import SystemFundamentals.Utf.ByteSwap

/-!
# Chains of conversions

The output file of one run of the program is the input file of the next one.  What a file holds
is a document: a text behind some byte order marks, in one of the three schemes.  A run skips
no mark of its input, so every conversion to UTF-16 adds one, and a conversion to UTF-8 drops
them all.  What it leaves is refused by the next run.

Main results:

- Theorem {lit}`Run.output_iff`: when a run turns a document into the next one.
- Theorem {lit}`outputs_iff`: when all files of a chain are the documents they should be.
- Theorem {lit}`keepsAll_thereAndBack`: the texts that survive the way to UTF-16 and back.
- Theorem {lit}`main_files`: a run changes no file but that of its second operand, by
  whatever path it is named.
-/

namespace SystemFundamentals.Utf

open Library

/-! ## Documents -/

/-- A text behind a number of byte order marks. -/
structure Document where
  scheme : Scheme
  marks : Nat
  text : List Char
  markFree : byteOrderMark ∉ text
  utf8_of_unmarked : marks = 0 → scheme = .utf8

namespace Document

/-- The characters of the file. -/
def chars (document : Document) : List Char :=
  List.replicate document.marks byteOrderMark ++ document.text

/-- The bytes of the file. -/
def bytes (document : Document) : List UInt8 :=
  document.scheme.encode document.chars

/-- The marks that a run leaves. -/
def marksAfter (document : Document) (target : Scheme) : Nat :=
  if target = document.scheme then document.marks
  else if target = .utf8 then 0
  else document.marks + 1

/-- The document that a run should leave. -/
def next (document : Document) (target : Scheme) : Document where
  scheme := target
  marks := document.marksAfter target
  text := document.text
  markFree := document.markFree
  utf8_of_unmarked h := by
    unfold marksAfter at h
    split_ifs at h with hsame hutf8
    · exact hsame.trans (document.utf8_of_unmarked h)
    · exact hutf8

end Document

/-- A run of the program. -/
structure Run where
  call : Invocation
  target : Scheme
  locals : Locals

/-- The bytes of the file that a run leaves. -/
def Run.output (run : Run) (input : List UInt8) : Option (List UInt8) :=
  run.call.output run.target run.locals input

/-- The conditions on which a run keeps the text of a document: the program takes the file, and
the converter is right on it. -/
def Run.Keeps (run : Run) (document : Document) : Prop :=
  0 < document.marks ∧ 3 ≤ document.bytes.length ∧
    match document.scheme, run.target with
    | .utf16le, .utf16be =>
        Completed run.locals.utf16Buf.lowerBytes (document.chars.flatMap utf16Units)
    | .utf16be, .utf16le => False
    | .utf16le, .utf8 | .utf16be, .utf8 => ∀ c ∈ document.text, Convertible c
    | _, _ => True

/-! ## Files with and without a mark -/

theorem encode_append (scheme : Scheme) (text text' : List Char) :
    scheme.encode (text ++ text') = scheme.encode text ++ scheme.encode text' := by
  cases scheme <;> simp [Scheme.encode]

theorem encode_mark (scheme : Scheme) : scheme.encode [byteOrderMark] = scheme.mark := by
  cases scheme with
  | utf8 => decide +kernel
  | utf16le => decide +kernel
  | utf16be => decide +kernel

/-- A marked document starts with the mark of its scheme. -/
theorem Document.bytes_of_marked {document : Document} (h : 0 < document.marks) :
    ∃ text, document.chars = byteOrderMark :: text ∧
      document.bytes = document.scheme.mark ++ document.scheme.encode text := by
  obtain ⟨n, hn⟩ := Nat.exists_eq_add_of_lt h
  rw [Nat.zero_add] at hn
  refine ⟨List.replicate n byteOrderMark ++ document.text, ?_, ?_⟩
  · rw [chars, hn, List.replicate_succ, List.cons_append]
  · rw [bytes, chars, hn, List.replicate_succ, List.cons_append, ← encode_mark, ← encode_append]
    rfl

/-- The first byte of a UTF-8 sequence is not the first byte of a mark of UTF-16. -/
theorem encodedBytes_lead_lt (codePoint : UInt32) :
    ∃ lead rest, encodedBytes codePoint = lead :: rest ∧ lead.toNat < 0xFE := by
  have hone : codePoint ≤ 0x7F ↔ codePoint.toNat ≤ 0x7F := UInt32.le_iff_toNat_le
  rw [encodedBytes_eq]
  simp only [hone]
  split_ifs with hsize
  · refine ⟨_, _, rfl, ?_⟩
    rw [UInt32.toNat_toUInt8]
    omega
  · refine ⟨_, _, rfl, ?_⟩
    rw [toNat_leadOfTwo]
    omega
  · refine ⟨_, _, rfl, ?_⟩
    rw [toNat_leadOfThree]
    omega
  · refine ⟨_, _, rfl, ?_⟩
    rw [toNat_leadOfFour]
    omega

/-- {lit}`check_bom` refuses a file that starts with no mark. -/
theorem checkBomBytes_unmarked {input : List UInt8} (hmark : ¬ Scheme.utf8.mark <+: input)
    (hlead : ∀ byte ∈ input.head?, byte.toNat < 0xFE) :
    checkBomBytes input = .error .failure := by
  by_cases hshort : input.length < 3
  · rw [checkBomBytes, if_pos hshort]
  obtain ⟨first, second, third, rest, rfl⟩ :
      ∃ first second third rest, input = first :: second :: third :: rest := by
    rcases input with _ | ⟨first, _ | ⟨second, _ | ⟨third, rest⟩⟩⟩
    · exact absurd (by decide) hshort
    · exact absurd (by simp) hshort
    · exact absurd (by simp) hshort
    · exact ⟨first, second, third, rest, rfl⟩
  have hfirst : first.toNat < 0xFE := hlead first rfl
  have hvalue (a b c : UInt8) : LittleEndian.decode [a, b, c, 0] =
      a.toNat + 256 * b.toNat + 65536 * c.toNat := by
    simp only [LittleEndian.decode, UInt8.toNat_zero]
    omega
  have htake : (first :: second :: third :: rest).take 3 ++ [0] = [first, second, third, 0] := rfl
  have hswap : reverseBytes [first, second, third, 0] 2 = [second, first, third, 0] := rfl
  have hutf8 : UTF8.toNat = 0xBFBBEF := rfl
  have hle : UTF16LE.toNat = 0xFFFE := rfl
  have hbe : UTF16BE.toNat = 0xFEFF := rfl
  have hsecond := second.toNat_lt
  have hthird := third.toNat_lt
  have hne : first.toNat + 256 * second.toNat + 65536 * third.toNat ≠ 0xBFBBEF := by
    intro heq
    apply hmark
    have h1 : first = 0xEF := UInt8.toNat_inj.mp (show first.toNat = 0xEF by omega)
    have h2 : second = 0xBB := UInt8.toNat_inj.mp (show second.toNat = 0xBB by omega)
    have h3 : third = 0xBF := UInt8.toNat_inj.mp (show third.toNat = 0xBF by omega)
    rw [h1, h2, h3]
    exact ⟨rest, rfl⟩
  rw [checkBomBytes, if_neg hshort]
  simp only [htake, hswap, hvalue, hutf8, hle, hbe]
  rw [if_neg hne, if_neg (by omega), if_neg (by omega)]

/-- A file that {lit}`check_bom` refuses ends the program. -/
theorem checkBom_refused (state : ProgramState) (process : Process) {path : CString}
    {input : List UInt8} (hfull : Process.Full process.descriptors)
    (hpath : state.inFile = some path) (hinput : process.files path = some input)
    (hbom : checkBomBytes input = .error .failure) :
    checkBom state process = .error .failure := by
  have hremaining : Process.remaining
      { process with descriptors := process.descriptors ++ [some ⟨path, 0⟩] }
      process.descriptors.length = input :=
    Process.remaining_of_start _ (Process.descriptor_append _ rfl) hinput
  simp only [checkBom, hpath, Process.openRead_of_exists hinput,
    Process.openAt_of_full _ hfull, bind, Except.bind, hremaining, hbom]

theorem output_of_refused (call : Invocation) (target : Scheme) (locals : Locals)
    {input : List UInt8} (hbom : checkBomBytes input = .error .failure) :
    call.output target locals input = none := by
  have hinput : (call.process input).files call.inFile = some input := if_pos rfl
  have hfull := (call.full_process input).append (full_leaked call)
  have hrefused := checkBom_refused
    ⟨formatOf target, 0, 0, some call.inFile, some call.outFile⟩
    { call.process input with
      descriptors := (call.process input).descriptors ++ leaked call }
    hfull rfl hinput hbom
  unfold Invocation.output main
  rw [parseArgs_argv]
  simp only [bind, Except.bind]
  rw [hrefused]

/-- A document without a mark is refused. -/
theorem Document.refused_of_unmarked {document : Document} (h : document.marks = 0) :
    checkBomBytes document.bytes = .error .failure := by
  have hchars : document.chars = document.text := by
    rw [chars, h, List.replicate_zero, List.nil_append]
  rw [bytes, document.utf8_of_unmarked h, hchars]
  apply checkBomBytes_unmarked
  · intro hprefix
    exact Scheme.utf8.markFree_encode document.markFree hprefix.isInfix
  · intro byte hbyte
    cases htext : document.text with
    | nil =>
        rw [htext] at hbyte
        cases hbyte
    | cons c text =>
        obtain ⟨lead, rest, hlead, hlt⟩ := encodedBytes_lead_lt c.val
        rw [htext, Scheme.encode, List.flatMap_cons, ← encodedBytes_char, hlead] at hbyte
        cases hbyte
        exact hlt

/-! ## One run -/

/-- The loops from UTF-16 never fail. -/
theorem ret_utf16ToUtf8Loop (order : UInt16 → UInt16) (utf16Buf : Utf16Glyph)
    (input : List UInt8) : (utf16ToUtf8Loop order utf16Buf input).ret = some 0 := by
  induction hlength : input.length using Nat.strong_induction_on generalizing utf16Buf input with
  | _ n ih =>
      cases input with
      | nil => rw [utf16ToUtf8Loop]
      | cons byte rest =>
          have hdrop (k : Nat) : (rest.drop k).length < n := by
            rw [← hlength, List.length_drop, List.length_cons]
            omega
          rw [utf16ToUtf8Loop_cons]
          simp only
          split_ifs with hpair
          · exact ih _ (hdrop 3) _ _ rfl
          · exact ih _ (hdrop 1) _ _ rfl

theorem ret_utf16leToUtf16beLoop (buf : Utf16Glyph) (input : List UInt8) :
    (utf16leToUtf16beLoop buf input).ret = some 0 := by
  induction buf, input using utf16leToUtf16beLoop.induct with
  | case1 buf => rw [utf16leToUtf16beLoop]
  | case2 buf byte rest upper hrecognized lower ih =>
      rw [utf16leToUtf16beLoop]
      simp only [upper, lower] at hrecognized ih ⊢
      rw [if_pos hrecognized]
      exact ih
  | case3 buf byte rest upper hrecognized ih =>
      rw [utf16leToUtf16beLoop]
      simp only [upper] at hrecognized ih ⊢
      rw [if_neg hrecognized]
      exact ih

theorem returned_iff {conversion : Conversion} (hret : conversion.ret = some 0)
    (output : List UInt8) :
    (conversion.ret.map fun _ => conversion.written) = some output ↔
      conversion.written = output := by
  rw [hret, Option.map_some, Option.some.injEq]

/-- What a run leaves of a marked document. -/
theorem output_of_marked (call : Invocation) (target : Scheme) (locals : Locals)
    {document : Document} (hmarks : 0 < document.marks) (hlength : 3 ≤ document.bytes.length) :
    call.output target locals document.bytes =
      let conversion := converter document.scheme target locals document.bytes.length document.bytes
      conversion.ret.map fun _ => conversion.written := by
  obtain ⟨text, -, hbytes⟩ := Document.bytes_of_marked hmarks
  have hbom := checkBomBytes_mark document.scheme (hbytes ▸ hlength)
  rw [← hbytes] at hbom
  exact output_eq call document.scheme target locals hbom (getEncodingFunction_formatOf ..)

theorem Document.bytes_next (document : Document) (target : Scheme) :
    (document.next target).bytes =
      target.encode (List.replicate (document.marksAfter target) byteOrderMark ++
        document.text) := rfl

/-- A new mark in front of the characters. -/
theorem Document.bytes_next_of_added {document : Document} {target : Scheme}
    (hne : target ≠ document.scheme) (hutf8 : target ≠ .utf8) :
    (document.next target).bytes = target.mark ++ target.encode document.chars := by
  have hmarks : document.marksAfter target = document.marks + 1 := by
    rw [marksAfter, if_neg hne, if_neg hutf8]
  rw [bytes_next, hmarks, List.replicate_succ, List.cons_append, ← chars, ← encode_mark,
    ← encode_append]
  rfl

/-- A conversion from UTF-8 is always right. -/
theorem converter_of_utf8 {document : Document} (hscheme : document.scheme = .utf8)
    {target : Scheme} (hne : target ≠ .utf8) (locals : Locals) (stSize : Nat) :
    converter .utf8 target locals stSize document.bytes =
      ⟨(document.next target).bytes, some 0⟩ := by
  have hbytes : document.bytes = Scheme.utf8.encode document.chars := by
    rw [Document.bytes, hscheme]
  rw [Document.bytes_next_of_added (hscheme ▸ hne) hne, hbytes]
  cases target with
  | utf8 => exact absurd rfl hne
  | utf16le =>
      rw [converter, fromUtf8ToUtf16le, utf8ToUtf16Loop_encode]
      simp only [glyphBytes_utf16le, Scheme.encode, List.flatMap_assoc]
      rfl
  | utf16be =>
      rw [converter, fromUtf8ToUtf16be, utf8ToUtf16Loop_encode]
      simp only [glyphBytes_utf16be, Scheme.encode, List.flatMap_assoc]
      rfl

/-- The loops to UTF-8 drop the marks and write the text as it is if they can convert it. -/
theorem written_to_utf8_iff (endian : ByteOrder) (utf16Buf : Utf16Glyph) {document : Document}
    (hmarks : 0 < document.marks) (hscheme : document.scheme ≠ .utf8)
    (hbytes : ∀ text, document.scheme.encode text =
      (text.flatMap utf16Units).flatMap endian.bytes) :
    (utf16ToUtf8Loop endian.order utf16Buf document.bytes).written =
        (document.next .utf8).bytes ↔ ∀ c ∈ document.text, Convertible c := by
  obtain ⟨text, hchars, -⟩ := Document.bytes_of_marked hmarks
  have hnext : (document.next .utf8).bytes = Scheme.utf8.encode document.text := by
    have hdropped : document.marksAfter .utf8 = 0 := by
      rw [Document.marksAfter, if_neg (Ne.symm hscheme), if_pos rfl]
    rw [Document.bytes_next, hdropped, List.replicate_zero, List.nil_append]
  have hmark : convertedBytes byteOrderMark = [] := if_pos rfl
  have hunits : utf16Units byteOrderMark = [0xFEFF] := by decide
  have hconverted : text.flatMap convertedBytes = document.text.flatMap convertedBytes := by
    have hall : document.chars.flatMap convertedBytes =
        document.text.flatMap convertedBytes := by
      rw [Document.chars, List.flatMap_append, List.append_left_eq_self]
      exact List.flatMap_eq_nil_iff.mpr fun c hc => (List.eq_of_mem_replicate hc).symm ▸ hmark
    rw [← hall, hchars, List.flatMap_cons, hmark, List.nil_append]
  rw [← converted_eq_encode_iff, hnext, ← hconverted, Document.bytes, hbytes, hchars,
    List.flatMap_cons, hunits, List.flatMap_append, List.flatMap_singleton,
    utf16ToUtf8Loop_file]

/-- Copying keeps the document as it is. -/
theorem converter_copy (document : Document) (locals : Locals) :
    converter document.scheme document.scheme locals document.bytes.length document.bytes =
      ⟨(document.next document.scheme).bytes, some document.bytes.length⟩ := by
  have hnext : (document.next document.scheme).bytes = document.bytes := by
    rw [Document.bytes_next, Document.marksAfter, if_pos rfl]
    rfl
  have hcopy : converter document.scheme document.scheme locals document.bytes.length
      document.bytes = transcribe document.bytes.length document.bytes := by
    cases document.scheme <;> rfl
  rw [hcopy, hnext, transcribe, List.take_length]

/-- The big-endian units of a document are the swapped ones if the loop completes its pairs. -/
theorem written_swapped_iff (buf : Utf16Glyph) {document : Document}
    (hscheme : document.scheme = .utf16le) :
    (fromUtf16leToUtf16be buf document.bytes).written = (document.next .utf16be).bytes ↔
      Completed buf.lowerBytes (document.chars.flatMap utf16Units) := by
  have hne : Scheme.utf16be ≠ document.scheme := by
    rw [hscheme]
    decide
  rw [← utf16leToUtf16beLoop_written_iff, Document.bytes_next_of_added hne (by decide),
    Document.bytes, hscheme]
  exact List.append_right_inj Scheme.utf16be.mark

/-- The little-endian conversion does not even write its mark. -/
theorem written_unswapped_ne (beyond : List UInt8) (buf : Utf16Glyph) {document : Document}
    (hscheme : document.scheme = .utf16be) :
    (fromUtf16beToUtf16le beyond buf document.bytes).written ≠
      (document.next .utf16le).bytes := by
  have hne : Scheme.utf16le ≠ document.scheme := by
    rw [hscheme]
    decide
  intro hwritten
  have hstart := fromUtf16beToUtf16le_start beyond buf document.bytes
  rw [hwritten, Document.bytes_next_of_added hne (by decide)] at hstart
  exact absurd (List.cons_prefix_cons.mp hstart).1 (by decide)

/-- A run turns a document into the next one exactly when it keeps the text. -/
theorem Run.output_iff (run : Run) (document : Document) :
    run.output document.bytes = some (document.next run.target).bytes ↔ run.Keeps document := by
  obtain ⟨call, target, locals⟩ := run
  simp only [Run.output, Run.Keeps]
  by_cases hmarks : 0 < document.marks
  swap
  · rw [output_of_refused call target locals
      (Document.refused_of_unmarked (Nat.eq_zero_of_not_pos hmarks))]
    exact iff_of_false (by rintro ⟨⟩) (fun h => hmarks h.1)
  by_cases hlength : 3 ≤ document.bytes.length
  swap
  · rw [output_of_refused call target locals (by rw [checkBomBytes, if_pos (by omega)])]
    exact iff_of_false (by rintro ⟨⟩) (fun h => hlength h.2.1)
  rw [output_of_marked call target locals hmarks hlength]
  simp only [hmarks, hlength, true_and]
  by_cases hsame : target = document.scheme
  · rw [hsame, converter_copy]
    cases document.scheme <;> exact iff_of_true rfl trivial
  cases hscheme : document.scheme with
  | utf8 =>
      have htarget : target ≠ .utf8 := hscheme ▸ hsame
      rw [converter_of_utf8 hscheme htarget]
      cases target <;> exact iff_of_true rfl trivial
  | utf16le =>
      cases target with
      | utf8 =>
          have hwritten := written_to_utf8_iff .littleEndian locals.utf16Buf hmarks
            (Ne.symm hsame) (fun _ => by rw [hscheme]; rfl)
          exact (returned_iff (ret_utf16ToUtf8Loop ..) _).trans hwritten
      | utf16le => exact absurd hscheme.symm hsame
      | utf16be =>
          have hret : (fromUtf16leToUtf16be locals.utf16Buf document.bytes).ret = some 0 :=
            ret_utf16leToUtf16beLoop ..
          exact (returned_iff hret _).trans (written_swapped_iff locals.utf16Buf hscheme)
  | utf16be =>
      cases target with
      | utf8 =>
          have hwritten := written_to_utf8_iff .bigEndian locals.utf16Buf hmarks
            (Ne.symm hsame) (fun _ => by rw [hscheme]; rfl)
          exact (returned_iff (ret_utf16ToUtf8Loop ..) _).trans hwritten
      | utf16le =>
          refine iff_of_false ?_ not_false
          intro houtput
          obtain ⟨_, -, hwritten⟩ := Option.map_eq_some_iff.mp houtput
          exact written_unswapped_ne _ _ hscheme hwritten
      | utf16be => exact absurd hscheme.symm hsame

/-! ## Chains -/

/-- The files that the runs of a chain leave, if all of them return. -/
def outputs : List Run → List UInt8 → Option (List (List UInt8))
  | [], _ => some []
  | run :: runs, input =>
      (run.output input).bind fun output => (outputs runs output).map (output :: ·)

/-- The documents that the runs of a chain should leave. -/
def documents : List Run → Document → List Document
  | [], _ => []
  | run :: runs, document =>
      document.next run.target :: documents runs (document.next run.target)

/-- Every run of a chain keeps the text of the document it is given. -/
def KeepsAll : List Run → Document → Prop
  | [], _ => True
  | run :: runs, document => run.Keeps document ∧ KeepsAll runs (document.next run.target)

/-- The files of a chain are the documents if and only if every run keeps the text. -/
theorem outputs_iff (runs : List Run) (document : Document) :
    outputs runs document.bytes = some ((documents runs document).map Document.bytes) ↔
      KeepsAll runs document := by
  induction runs generalizing document with
  | nil => exact iff_of_true rfl trivial
  | cons run runs ih =>
      rw [outputs, documents, KeepsAll, ← ih, ← run.output_iff]
      constructor
      · intro houtputs
        obtain ⟨output, houtput, hrest⟩ := Option.bind_eq_some_iff.mp houtputs
        obtain ⟨files, hfiles, hcons⟩ := Option.map_eq_some_iff.mp hrest
        obtain ⟨rfl, rfl⟩ := List.cons.inj hcons
        exact ⟨houtput, hfiles⟩
      · rintro ⟨houtput, hrest⟩
        rw [houtput, Option.bind_some, hrest]
        rfl

/-- From UTF-8 to UTF-16 and back, the marks are lost and the text stays if all its characters
are convertible. -/
theorem keepsAll_thereAndBack {there back : Run} (hthere : there.target ≠ .utf8)
    (hback : back.target = .utf8) {document : Document} (hscheme : document.scheme = .utf8)
    (hmarks : 0 < document.marks) :
    KeepsAll [there, back] document ↔ ∀ c ∈ document.text, Convertible c := by
  obtain ⟨text, hchars, hbytes⟩ := Document.bytes_of_marked hmarks
  have hlength : 3 ≤ document.bytes.length := by
    rw [hbytes, hscheme, List.length_append]
    exact Nat.le_add_right 3 _
  have hnext : (document.next there.target).bytes =
      there.target.mark ++ (there.target.mark ++ there.target.encode text) := by
    rw [Document.bytes_next_of_added (hscheme ▸ hthere) hthere, hchars, ← List.singleton_append,
      encode_append, encode_mark]
  have hmarks' : 0 < (document.next there.target).marks := by
    show 0 < document.marksAfter there.target
    rw [Document.marksAfter, if_neg (hscheme ▸ hthere), if_neg hthere]
    exact Nat.succ_pos _
  have hlength' : 3 ≤ (document.next there.target).bytes.length := by
    have hmark (scheme : Scheme) : 2 ≤ scheme.mark.length := by cases scheme <;> decide
    have htwo := hmark there.target
    rw [hnext, List.length_append, List.length_append]
    omega
  simp only [KeepsAll, Run.Keeps, hmarks, hlength, hmarks', hlength', hscheme, hback, true_and,
    and_true]
  cases htarget : there.target with
  | utf8 => exact absurd htarget hthere
  | utf16le => simp [Document.next]
  | utf16be => simp [Document.next]

/-! ## The other files -/

namespace Process

/-- The descriptor that {lit}`open` returns stands for the file. -/
theorem descriptor_openAt (process : Process) (path : CString) :
    (process.openAt path).2.descriptor (process.openAt path).1 = some ⟨path, 0⟩ := by
  simp only [openAt, descriptor]
  by_cases hlt : process.descriptors.findIdx (·.isNone) < process.descriptors.length
  · rw [if_pos hlt, List.getElem?_set_self hlt]
    rfl
  · have hlength : process.descriptors.findIdx (·.isNone) = process.descriptors.length :=
      Nat.le_antisymm List.findIdx_le_length (Nat.le_of_not_lt hlt)
    rw [if_neg hlt, hlength, List.getElem?_append_right (Nat.le_refl _), Nat.sub_self]
    rfl

@[simp] theorem files_lseek (process : Process) (fd offset whence : Int) :
    (process.lseek fd offset whence).files = process.files := by
  unfold lseek
  cases process.descriptor fd.toNat with
  | none => rfl
  | some file =>
      simp only
      split
      · rfl
      · split_ifs <;> rfl

/-- A seek changes no path. -/
theorem path_lseek (process : Process) (fd offset whence : Int) (n : Nat) :
    ((process.lseek fd offset whence).descriptor n).map OpenFile.path =
      (process.descriptor n).map OpenFile.path := by
  unfold lseek
  cases hfile : process.descriptor fd.toNat with
  | none => rfl
  | some file =>
      simp only
      split
      · rfl
      · split_ifs with hneg
        · rfl
        · by_cases hn : fd.toNat = n
          · subst hn
            have hlt : fd.toNat < process.descriptors.length := by
              by_contra hge
              rw [descriptor, List.getElem?_eq_none (Nat.le_of_not_lt hge)] at hfile
              cases hfile
            rw [hfile]
            simp only [descriptor, List.getElem?_set_self hlt]
            rfl
          · simp only [descriptor, List.getElem?_set_ne hn]

/-- A write reaches the file of its descriptor and no other one. -/
theorem files_write_of_ne (process : Process) {fd : Nat} {path : CString}
    (h : (process.descriptor fd).map OpenFile.path ≠ some path) (bytes : List UInt8) :
    (process.write fd bytes).files path = process.files path := by
  unfold write
  cases hfile : process.descriptor fd with
  | none => rfl
  | some file =>
      rw [hfile] at h
      exact if_neg fun heq => h (congrArg some heq.symm)

end Process

/-- {lit}`parse_args` changes no file, and the two operands differ. -/
theorem parseArgs_files {argv : List CString} {process process' : Process}
    {state : ProgramState} (h : parseArgs argv process = .ok (state, process')) :
    process'.files = process.files ∧
      ∃ inFile outFile, state.inFile = some inFile ∧ state.outFile = some outFile ∧
        inFile ≠ outFile ∧
        ((process.files outFile).isSome → process.inode inFile ≠ process.inode outFile) := by
  unfold parseArgs at h
  split_ifs at h with husage
  simp only [bind, Except.bind] at h
  cases hloop : parseArgsLoop argv argv.length 1 .zero with
  | error exit =>
      rw [hloop] at h
      cases h
  | ok parsed =>
      rw [hloop] at h
      simp only at h
      split at h
      · rename_i inFile outFile hin hout
        split_ifs at h with hsame hexists
        · -- both files are opened to compare them
          simp only [Process.openRead] at h
          split at h
          · cases h
          · rename_i opened hopened
            split at hopened
            · cases hopened
            · cases hopened
              split at h
              · cases h
              · rename_i opened' hopened'
                split at hopened'
                · cases hopened'
                · cases hopened'
                  split_ifs at h with hinode
                  cases h
                  exact ⟨rfl, inFile, outFile, hin, hout, fun heq => hsame (Or.inl heq),
                    fun _ => hinode⟩
        · cases h
          exact ⟨rfl, inFile, outFile, hin, hout, fun heq => hsame (Or.inl heq),
            fun hsome => absurd hsome hexists⟩
      · cases h

theorem checkBom_files {state state' : ProgramState} {process process' : Process}
    (h : checkBom state process = .ok (state', process')) :
    process'.files = process.files ∧ state'.outFile = state.outFile := by
  unfold checkBom at h
  cases hin : state.inFile with
  | none =>
      rw [hin] at h
      cases h
  | some inFile =>
      rw [hin] at h
      simp only [bind, Except.bind, Process.openRead] at h
      split at h
      · cases h
      · rename_i opened hopened
        split at hopened
        · cases hopened
        · cases hopened
          split at h
          · cases h
          · cases h
            exact ⟨rfl, rfl⟩

/-- The second half of {lit}`main` changes the output file only. -/
theorem openAndConvert_files {locals : Locals} {state : ProgramState} {process process' : Process}
    (h : openAndConvert locals state process = .ok process') {path : CString}
    (hpath : state.outFile ≠ some path) : process'.files path = process.files path := by
  unfold openAndConvert at h
  split at h
  · rename_i inFile outFile hin hout
    have hne : outFile ≠ path := fun heq => hpath (hout.trans (congrArg some heq))
    simp only [bind, Except.bind] at h
    cases hopen : process.openRead inFile with
    | error exit =>
        rw [hopen] at h
        cases h
    | ok opened =>
        obtain ⟨infile, process₁⟩ := opened
        have hfiles₁ : process₁.files = process.files := by
          unfold Process.openRead at hopen
          split at hopen
          · cases hopen
          · cases hopen
            rfl
        rw [hopen] at h
        simp only at h
        cases htruncated : process₁.openTruncated outFile with
        | mk outfile process₂ =>
            have hfiles₂ : process₂.files path = process₁.files path := by
              have hfiles := congrArg (fun opened => opened.2.files path) htruncated
              exact hfiles.symm.trans (if_neg (Ne.symm hne))
            have hdescriptor : process₂.descriptor outfile = some ⟨outFile, 0⟩ := by
              have hopened := Process.descriptor_openAt { process₁ with
                files := fun path => if path = outFile then some [] else process₁.files path }
                outFile
              rw [Process.openTruncated] at htruncated
              rwa [htruncated] at hopened
            rw [htruncated] at h
            simp only at h
            split at h
            · cases h
            · split at h
              · cases h
              · cases h
                rw [Process.close, Process.close, Process.files_write_of_ne, Process.files_lseek,
                  hfiles₂, hfiles₁]
                rw [Process.path_lseek, hdescriptor]
                exact fun heq => hne (Option.some.inj heq)
  · cases h

/-- The program writes to the file of its second operand, which is not the file of the first
one, and changes no other file.  A path that was there before names another file unless the
second operand was there too, with the same inode. -/
theorem main_files {argv : List CString} {locals : Locals} {process process' : Process}
    (h : main argv locals process = .ok process') :
    ∃ state opened inFile outFile, parseArgs argv process = .ok (state, opened) ∧
      state.inFile = some inFile ∧ state.outFile = some outFile ∧ inFile ≠ outFile ∧
      ((process.files outFile).isSome → process.inode inFile ≠ process.inode outFile) ∧
      ∀ path, (process.files path).isSome →
        ((process.files outFile).isSome → process.inode path ≠ process.inode outFile) →
          process'.files path = process.files path := by
  unfold main at h
  simp only [bind, Except.bind] at h
  cases hargs : parseArgs argv process with
  | error exit =>
      rw [hargs] at h
      cases h
  | ok parsed =>
      obtain ⟨state, process₁⟩ := parsed
      obtain ⟨hfiles₁, inFile, outFile, hin, hout, hne, hinode⟩ := parseArgs_files hargs
      rw [hargs] at h
      simp only at h
      cases hbom : checkBom state process₁ with
      | error exit =>
          rw [hbom] at h
          cases h
      | ok checked =>
          obtain ⟨state', process₂⟩ := checked
          obtain ⟨hfiles₂, hout'⟩ := checkBom_files hbom
          rw [hbom] at h
          refine ⟨state, process₁, inFile, outFile, rfl, hin, hout, hne, hinode, ?_⟩
          intro path hthere hpath
          have hother : state'.outFile ≠ some path := by
            rw [hout', hout]
            intro heq
            have hsame : outFile = path := Option.some.inj heq
            exact hpath (hsame ▸ hthere) (congrArg process.inode hsame.symm)
          rw [openAndConvert_files h hother, hfiles₂, hfiles₁]

/-- Copying a file that holds nothing but a mark leaves it as it is. -/
theorem main_files_copy :
    ∃ process', main (sampleCall.argv .utf8) zeroLocals (sampleCall.process Scheme.utf8.mark) =
        .ok process' ∧ process'.files sampleCall.inFile = some Scheme.utf8.mark := by
  cases h : main (sampleCall.argv .utf8) zeroLocals (sampleCall.process Scheme.utf8.mark) with
  | error exit =>
      exfalso
      have hok : (main (sampleCall.argv .utf8) zeroLocals
        (sampleCall.process Scheme.utf8.mark)).isOk = true := rfl
      rw [h] at hok
      cases hok
  | ok process' =>
      obtain ⟨state, opened, inFile, outFile, hargs, -, hout, -, -, hfiles⟩ := main_files h
      cases hargs
      cases hout
      exact ⟨process', rfl, hfiles sampleCall.inFile rfl fun hthere => nomatch hthere⟩

end SystemFundamentals.Utf
