import Mathlib.Data.List.Basic

/-!
# The cd command of the shell

The branch of {lit}`hw4/src/main.c` that changes the working directory, the two arrays of 256
bytes in which the shell keeps pathnames, and the prompt in front of every command.

The file system is what {lit}`chdir` makes of a pathname.  It may be another one at every
command.  A directory is named by the pathname that {lit}`getcwd` gives for it.  The copy of the
line in {lit}`tempinput`, which is not read, is left out.

Main results:

- Theorem {lit}`strtok_of_isCd`: the first token of a line that the branch takes is its name.
- Theorems {lit}`cdPath_part`, {lit}`cdPath_onward` and {lit}`cdPath_nowhere`: the outcomes of a
  path.
-/

namespace SystemFundamentals.Sfish

/-! ## Pathnames -/

/-- The bytes of a text of the source. -/
def bytes (text : String) : List UInt8 := text.toList.map Char.toUInt8

/-- The characters that are compared with. -/
def blank : UInt8 := 32

@[inherit_doc blank] def slash : UInt8 := 47

@[inherit_doc blank] def dot : UInt8 := 46

@[inherit_doc blank] def minus : UInt8 := 45

@[inherit_doc blank] def tilde : UInt8 := 126

/-- A string that is written over the end of its array. -/
inductive Overflow
  | overflow
deriving DecidableEq

/-- The string in an array of 256 bytes. -/
structure PathBuffer where
  text : List UInt8
  fits : text.length < 256
deriving DecidableEq

/-- The array after {lit}`memset`. -/
def PathBuffer.empty : PathBuffer := ⟨[], Nat.zero_lt_succ 255⟩

/-- {lit}`strcpy` into an array of 256 bytes. -/
def strcpy (text : List UInt8) : Except Overflow PathBuffer :=
  if h : text.length < 256 then .ok ⟨text, h⟩ else .error .overflow

/-- A directory by its absolute pathname. -/
structure Directory where
  path : List UInt8
  absolute : path.head? = some slash
deriving DecidableEq

/-- The directory that {lit}`chdir` goes to from the working directory, or {lean}`none` where it
fails. -/
structure FileSystem where
  chdir : Directory → List UInt8 → Option Directory

/-- {lit}`getcwd` with a size, into an array that has been cleared: a pathname that does not fit
leaves it empty. -/
def getcwd (size : Nat) (cwd : Directory) : PathBuffer :=
  if h : cwd.path.length < 256 ∧ cwd.path.length < size then ⟨cwd.path, h.1⟩ else .empty

/-- A call of {lit}`chdir` whose result is ignored. -/
def FileSystem.enter (fs : FileSystem) (cwd : Directory) (path : List UInt8) : Directory :=
  (fs.chdir cwd path).getD cwd

/-! ## The command -/

/-- The working directory of the process and the two pathnames the shell keeps. -/
structure Directories where
  cwd : Directory
  currentDir : PathBuffer
  prevDir : PathBuffer
deriving DecidableEq

/-- The shell in front of its loop. -/
def Directories.start (cwd : Directory) : Directories :=
  ⟨cwd, getcwd (256 - (bytes " :: jerchu >> ").length) cwd, .empty⟩

/-- What a command leaves, and the error it prints. -/
structure Outcome where
  directories : Directories
  report : Option (List UInt8)
deriving DecidableEq

/-- {lit}`printf(BUILTIN_ERROR, ..)`. -/
def builtinError (message : List UInt8) : List UInt8 :=
  bytes "sfish builtin error: " ++ message ++ bytes "\n"

/-- {lit}`strtok_r` for blanks: a token and what is behind it. -/
def strtok (input : List UInt8) : Option (List UInt8) × List UInt8 :=
  let rest := input.dropWhile (· = blank)
  if rest = [] then (none, [])
  else (some (rest.takeWhile (· ≠ blank)), (rest.dropWhile (· ≠ blank)).tail)

/-- The lines that the branch takes: {lit}`cd` at their start, and a blank or nothing behind
it. -/
def IsCd (input : List UInt8) : Prop :=
  input.take 2 = bytes "cd" ∧ (input[2]? = none ∨ input[2]? = some blank)

instance (input : List UInt8) : Decidable (IsCd input) :=
  inferInstanceAs (Decidable (_ ∧ _))

/-- The second token of a line. -/
def argument (input : List UInt8) : Option (List UInt8) :=
  (strtok (strtok input).2).1

/-- {lit}`cd` without an argument. -/
def cdHome (fs : FileSystem) (home : List UInt8) (s : Directories) : Except Overflow Outcome :=
  (strcpy home).map fun currentDir => ⟨⟨fs.enter s.cwd home, currentDir, s.currentDir⟩, none⟩

/-- {lit}`cd -`. -/
def cdMinus (fs : FileSystem) (s : Directories) : Outcome :=
  if s.prevDir.text ≠ [] then ⟨⟨fs.enter s.cwd s.prevDir.text, s.prevDir, s.currentDir⟩, none⟩
  else ⟨s, some (builtinError (bytes "cd: No previous directory"))⟩

/-- The two loops that move {lit}`tokinput` behind its first slash. -/
def skipPart (tokinput : List UInt8) : List UInt8 :=
  (tokinput.dropWhile (· ≠ slash)).tail

/-- The first part of a path that starts with a dot or a tilde: the directory it leads to, and
the rest of the path. -/
def firstPart (fs : FileSystem) (home : List UInt8) (cwd : Directory) (tokinput : List UInt8) :
    Directory × List UInt8 :=
  if tokinput[0]? = some dot then
    let here := fs.enter cwd [dot]
    (if tokinput[1]? = some dot then fs.enter here [dot, dot] else here, skipPart tokinput)
  else if tokinput[0]? = some tilde then (fs.enter cwd home, skipPart tokinput)
  else (cwd, tokinput)

/-- {lit}`cd` with a path. -/
def cdPath (fs : FileSystem) (home : List UInt8) (s : Directories) (tokinput : List UInt8) :
    Except Overflow Outcome :=
  let (cwd, tokinput) := firstPart fs home s.cwd tokinput
  let prevDir := s.currentDir
  let currentDir := getcwd 256 cwd
  if tokinput = [] then .ok ⟨⟨cwd, currentDir, prevDir⟩, none⟩
  else
    (strcpy tokinput).map fun newdir =>
      match fs.chdir cwd newdir.text with
      | some new => ⟨⟨new, getcwd 256 new, currentDir⟩, none⟩
      | none =>
          let errstr := bytes "cd: there was a problem going to directory " ++ newdir.text ++
            bytes "\n"
          ⟨⟨cwd, currentDir, prevDir⟩, some (builtinError errstr)⟩

/-- The branch of {lit}`main` for {lit}`cd`. -/
def cd (fs : FileSystem) (home : List UInt8) (s : Directories) (input : List UInt8) :
    Except Overflow Outcome :=
  match argument input with
  | none => cdHome fs home s
  | some tokinput =>
      if tokinput = [minus] then .ok (cdMinus fs s) else cdPath fs home s tokinput

/-! ## The prompt -/

/-- {lit}`strstr`: the text from the first occurrence on. -/
def strstr (text pattern : List UInt8) : Option (List UInt8) :=
  text.tails.find? fun rest => pattern.isPrefixOf rest

/-- The text in front of a command, with {lit}`~` for the part of the pathname up to the end of
{lit}`home`. -/
def promptText (home currentDir : List UInt8) : List UInt8 :=
  match strstr currentDir home with
  | some homeDir => tilde :: homeDir.drop home.length ++ bytes " :: jerchu >> "
  | none => currentDir ++ bytes " :: jerchu >> "

/-- A turn of the loop for a line: the prompt is put together in an array of 256 bytes, then the
command is run. -/
def turn (fs : FileSystem) (home : List UInt8) (s : Directories) (input : List UInt8) :
    Except Overflow Outcome :=
  match strcpy (promptText home s.currentDir.text) with
  | .error stop => .error stop
  | .ok _ => cd fs home s input

/-! ## Small facts -/

/-- The branch compares the first token with {lit}`cd`; it is never another one. -/
theorem strtok_of_isCd {input : List UInt8} (h : IsCd input) :
    (strtok input).1 = some (bytes "cd") := by
  obtain ⟨hname, hnext⟩ := h
  have hcd : bytes "cd" = [99, 100] := by decide
  rw [hcd] at hname ⊢
  rcases input with _ | ⟨c, _ | ⟨d, rest⟩⟩
  · cases hname
  · cases hname
  · obtain ⟨rfl, rfl⟩ : c = 99 ∧ d = 100 := by simpa using hname
    have hstop : rest.takeWhile (· ≠ blank) = [] := by
      cases rest with
      | nil => rfl
      | cons e rest =>
          have he : e = blank := by simpa using hnext
          simp [he]
    have hc : (99 : UInt8) ≠ blank := by decide
    have hd : (100 : UInt8) ≠ blank := by decide
    simp only [strtok, List.dropWhile_cons, List.takeWhile_cons, hc, hd, decide_false, ne_eq,
      not_false_eq_true, decide_true, Bool.false_eq_true, if_false, if_true, reduceCtorEq]
    rw [hstop]

theorem strcpy_of_fits {text : List UInt8} (h : text.length < 256) :
    strcpy text = .ok ⟨text, h⟩ :=
  dif_pos h

theorem strcpy_of_not_fits {text : List UInt8} (h : ¬ text.length < 256) :
    strcpy text = .error .overflow :=
  dif_neg h

theorem Directory.path_ne_nil (d : Directory) : d.path ≠ [] := by
  intro h
  have habsolute := d.absolute
  rw [h] at habsolute
  cases habsolute

theorem PathBuffer.text_injective {a b : PathBuffer} (h : a.text = b.text) : a = b := by
  cases a
  cases b
  cases h
  rfl

theorem Directory.path_injective {d e : Directory} (h : d.path = e.path) : d = e := by
  cases d
  cases e
  cases h
  rfl

/-- {lit}`getcwd` gives the pathname of the working directory, if it fits. -/
theorem getcwd_text_iff {size : Nat} {cwd d : Directory} :
    (getcwd size cwd).text = d.path ↔
      cwd = d ∧ cwd.path.length < 256 ∧ cwd.path.length < size := by
  unfold getcwd
  split_ifs with h
  · constructor
    · intro heq
      exact ⟨Directory.path_injective heq, h⟩
    · rintro ⟨rfl, -⟩
      rfl
  · constructor
    · intro heq
      exact absurd heq.symm d.path_ne_nil
    · rintro ⟨-, hfits⟩
      exact absurd hfits h

/-! ## The outcomes of a command -/

section Outcomes

variable {fs : FileSystem} {home : List UInt8} {s : Directories} {tokinput rest : List UInt8}
  {d : Directory}

theorem FileSystem.enter_of_chdir {cwd new : Directory} {path : List UInt8}
    (h : fs.chdir cwd path = some new) : fs.enter cwd path = new := by
  rw [FileSystem.enter, h]
  rfl

theorem cdHome_of_fits (hlength : home.length < 256) :
    cdHome fs home s =
      .ok ⟨⟨fs.enter s.cwd home, ⟨home, hlength⟩, s.currentDir⟩, none⟩ := by
  rw [cdHome, strcpy_of_fits hlength]
  rfl

/-- {lit}`HOME` does not fit {lit}`currentDir`. -/
theorem cdHome_overflow (hlength : ¬ home.length < 256) :
    cdHome fs home s = .error .overflow := by
  rw [cdHome, strcpy_of_not_fits hlength]
  rfl

theorem turn_of_fits {input : List UInt8}
    (hprompt : (promptText home s.currentDir.text).length < 256) :
    turn fs home s input = cd fs home s input := by
  rw [turn, strcpy_of_fits hprompt]

/-- The prompt does not fit its array. -/
theorem turn_overflow {input : List UInt8}
    (hprompt : ¬ (promptText home s.currentDir.text).length < 256) :
    turn fs home s input = .error .overflow := by
  rw [turn, strcpy_of_not_fits hprompt]

/-- A path of a first part only. -/
theorem cdPath_part (hfirst : firstPart fs home s.cwd tokinput = (d, [])) :
    cdPath fs home s tokinput = .ok ⟨⟨d, getcwd 256 d, s.currentDir⟩, none⟩ := by
  rw [cdPath, hfirst]
  rfl

/-- The rest of the path does not fit {lit}`newdir`. -/
theorem cdPath_overflow (hfirst : firstPart fs home s.cwd tokinput = (d, rest))
    (hrest : rest ≠ []) (hlength : ¬ rest.length < 256) :
    cdPath fs home s tokinput = .error .overflow := by
  rw [cdPath, hfirst]
  simp only
  rw [if_neg hrest, strcpy_of_not_fits hlength]
  rfl

/-- The rest of the path leads to a directory. -/
theorem cdPath_onward (hfirst : firstPart fs home s.cwd tokinput = (d, rest)) (hrest : rest ≠ [])
    (hlength : rest.length < 256) {new : Directory} (hnew : fs.chdir d rest = some new) :
    cdPath fs home s tokinput = .ok ⟨⟨new, getcwd 256 new, getcwd 256 d⟩, none⟩ := by
  rw [cdPath, hfirst]
  simp only
  rw [if_neg hrest, strcpy_of_fits hlength]
  simp only [Except.map, hnew]

/-- The rest of the path leads nowhere. -/
theorem cdPath_nowhere (hfirst : firstPart fs home s.cwd tokinput = (d, rest)) (hrest : rest ≠ [])
    (hlength : rest.length < 256) (hnone : fs.chdir d rest = none) :
    cdPath fs home s tokinput = .ok ⟨⟨d, getcwd 256 d, s.currentDir⟩, some (builtinError
      (bytes "cd: there was a problem going to directory " ++ rest ++ bytes "\n"))⟩ := by
  rw [cdPath, hfirst]
  simp only
  rw [if_neg hrest, strcpy_of_fits hlength]
  simp only [Except.map, hnone]

end Outcomes

end SystemFundamentals.Sfish
