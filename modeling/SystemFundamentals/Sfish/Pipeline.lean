import SystemFundamentals.Library.Tokens
import SystemFundamentals.Sfish.ChangeDirectory

/-!
# Launching a pipeline

{lit}`findexecutable`, {lit}`prepexecute` and {lit}`execute` of {lit}`hw4/src/main.c`.  They
call each other until the tokens of the line are used up: each token between two bars is one
command with its redirections, and gets a process, and a pipe to the next one.

A string of the program is the list of its bytes.  The pointers {lit}`inpos` and
{lit}`outpos` point into the token, and what they point to ends at the other mark, if that one
comes later.  {lit}`pipe` and {lit}`fork` succeed.  Whether a file can be opened, how a program
ends, and the waiting for it are left out; so is the byte that the copy of {lit}`PATH` lacks.

Main results:

- Theorem {lit}`execute_piped`: the ends of the pipes that every process holds.
-/

namespace SystemFundamentals.Sfish

open Library Tokens

/-! ## Characters -/

@[inherit_doc blank] def tab : UInt8 := 9

@[inherit_doc blank] def ampersand : UInt8 := 38

@[inherit_doc blank] def colon : UInt8 := 58

@[inherit_doc blank] def less : UInt8 := 60

@[inherit_doc blank] def greater : UInt8 := 62

@[inherit_doc blank] def bar : UInt8 := 124

/-- The characters that {lit}`trimwhitespace` removes. -/
def isSpace (c : UInt8) : Bool := c = blank ∨ c = tab

/-- The string that {lit}`trimwhitespace` returns. -/
def trimwhitespace (token : List UInt8) : List UInt8 := strip isSpace token

/-! ## Commands -/

/-- What a process runs: {lit}`pwd` or {lit}`help`, or a program with its arguments. -/
inductive Program
  | builtin (name : List UInt8)
  | exec (path : List UInt8) (argv : List (List UInt8))
deriving DecidableEq

/-- A command that has been found, what {lit}`inpos` and {lit}`outpos` point to, and whether
{lit}`inpos` is the smaller one. -/
structure Stage where
  program : Program
  inpos : Option (List UInt8)
  outpos : Option (List UInt8)
  inFirst : Bool
deriving DecidableEq

/-- How the recursion ends: behind the last token, with a report and an exit status, or with a
write or read outside of an array. -/
inductive Ending
  | finished
  | stopped (report : List UInt8) (status : Nat)
  | overflow
  | crash
deriving DecidableEq

/-- Whether {lit}`stat` succeeds while the command of a number is looked for, and the value of
{lit}`PATH`. -/
structure Environment where
  stat : Nat → List UInt8 → Bool
  path : List UInt8

/-- {lit}`printf(SYNTAX_ERROR, ..)`. -/
def syntaxError (message : List UInt8) : List UInt8 :=
  bytes "sfish syntax error: " ++ message ++ bytes "\n"

/-- {lit}`printf(EXEC_ERROR, errstr)` for a command that is not found; {lit}`errstr` has 1000
bytes. -/
def notFound (currarg : List UInt8) (status : Nat) : Ending :=
  let errstr := currarg ++ bytes ": command not found"
  if errstr.length < 1000 then
    .stopped (bytes "sfish exec error: " ++ errstr ++ bytes "\n") status
  else .overflow

/-- What {lit}`strstr` of a mark points behind, up to the other mark if that one is cut off
behind it. -/
def redirect (mark other : UInt8) (token : List UInt8) : Option (List UInt8) :=
  if mark ∈ token then
    let text := (token.dropWhile (· ≠ mark)).tail
    some (if other ∈ token.takeWhile (· ≠ mark) then text else text.takeWhile (· ≠ other))
  else none

/-- {lit}`prepexecute`: the arguments up to {lit}`execute`. -/
def prepexecute (execpath currarg inputptr : List UInt8) : Program :=
  let arg := if [dot, slash].isPrefixOf currarg then currarg.drop 2 else currarg
  .exec execpath (arg :: tokens blank inputptr)

/-- The loop over the directories of {lit}`PATH`; {lit}`execpath` has 256 bytes. -/
def searchPath (stat : List UInt8 → Bool) (currarg : List UInt8) :
    List (List UInt8) → Except Ending (Option (List UInt8))
  | [] => .ok none
  | pathtok :: pathtoks =>
      let execpath := pathtok ++ slash :: currarg
      if execpath.length < 256 then
        if stat execpath then .ok (some execpath) else searchPath stat currarg pathtoks
      else .error .overflow

/-- The program that a command names: the branches of {lit}`findexecutable`. -/
def findProgram (env : Environment) (n : Nat) (currarg inputptr : List UInt8) :
    Except Ending Program :=
  if currarg = bytes "pwd" ∨ currarg = bytes "help" then .ok (.builtin currarg)
  else if slash ∈ currarg then
    if env.stat n currarg then .ok (prepexecute currarg currarg inputptr)
    else .error (notFound currarg 1)
  else if tokens colon env.path = [] then .error .crash
  else
    match searchPath (env.stat n) currarg (tokens colon env.path) with
    | .error ending => .error ending
    | .ok none => .error (notFound currarg 0)
    | .ok (some execpath) => .ok (prepexecute execpath currarg inputptr)

/-- The part of a token in front of its marks. -/
def commandPart (token : List UInt8) : List UInt8 :=
  token.takeWhile fun c => c ≠ less ∧ c ≠ greater

/-- {lit}`findexecutable` up to {lit}`execute`. -/
def findexecutable (env : Environment) (n : Nat) (input : List UInt8) :
    Except Ending Stage :=
  if input = [] ∨ input.head? = some greater then
    .error (.stopped (syntaxError (bytes "no command before redirection >")) 1)
  else if input.head? = some less then
    .error (.stopped (syntaxError (bytes "no command before redirection <")) 1)
  else
    match next blank (commandPart input) with
    | (none, _) => .error (notFound (bytes "(null)") 0)
    | (some currarg, inputptr) =>
        (findProgram env n currarg inputptr).map fun program =>
          { program := program
            inpos := redirect less greater input
            outpos := redirect greater less input
            inFirst := less ∈ input.takeWhile (· ≠ greater) }

/-! ## Processes -/

/-- An end of a pipe. -/
inductive PipeEnd
  | read (pipe : Nat)
  | write (pipe : Nat)
deriving DecidableEq

/-- A process of the pipeline: its command, the pipes of {lit}`pipefd1[0]` and
{lit}`pipefd2[1]`, and the ends that are open when it is forked. -/
structure Child where
  stage : Stage
  inputfd : Option Nat
  outputfd : Option Nat
  held : List PipeEnd
deriving DecidableEq

/-- The processes of a line in their order, and how the recursion ended. -/
structure Launch where
  children : List Child
  ending : Ending
deriving DecidableEq

/-- The recursion through {lit}`findexecutable`, {lit}`prepexecute` and {lit}`execute`.  The
pipe behind the command {lit}`n` has this number, and the parent closes its write end only.
The array {lit}`execpath` of 256 bytes, in which {lit}`execute` puts the pathname together, is
left out: {lit}`currentDir`, a slash and the pathname are taken to fit. -/
def execute (env : Environment) (n : Nat) (pipefd1 : Option Nat) (held : List PipeEnd)
    (token tokptr : List UInt8) : Launch :=
  match findexecutable env n token with
  | .error ending => ⟨[], ending⟩
  | .ok stage =>
      match _h : next bar tokptr with
      | (none, _) => ⟨[⟨stage, pipefd1, none, held⟩], .finished⟩
      | (some token, tokptr) =>
          let rest := execute env (n + 1) (some n) (.read n :: held) (trimwhitespace token) tokptr
          ⟨⟨stage, pipefd1, some n, .write n :: .read n :: held⟩ :: rest.children, rest.ending⟩
termination_by tokptr.length
decreasing_by exact length_next _h

theorem execute_last {env : Environment} {n : Nat} {pipefd1 : Option Nat}
    {held : List PipeEnd} {token tokptr : List UInt8} {stage : Stage}
    (hfind : findexecutable env n token = .ok stage) (hnext : (next bar tokptr).1 = none) :
    execute env n pipefd1 held token tokptr = ⟨[⟨stage, pipefd1, none, held⟩], .finished⟩ := by
  unfold execute
  rw [hfind]
  simp only
  split
  · rfl
  · rename_i hsome
    rw [hsome] at hnext
    cases hnext

theorem execute_cons {env : Environment} {n : Nat} {pipefd1 : Option Nat}
    {held : List PipeEnd} {token tokptr token' tokptr' : List UInt8} {stage : Stage}
    (hfind : findexecutable env n token = .ok stage)
    (hnext : next bar tokptr = (some token', tokptr')) :
    execute env n pipefd1 held token tokptr =
      let rest :=
        execute env (n + 1) (some n) (.read n :: held) (trimwhitespace token') tokptr'
      ⟨⟨stage, pipefd1, some n, .write n :: .read n :: held⟩ :: rest.children, rest.ending⟩ := by
  rw [execute, hfind]
  simp only
  split
  · rename_i hnone
    rw [hnext] at hnone
    cases hnone
  · rename_i hsome
    rw [hnext] at hsome
    cases hsome
    rfl

/-- Where a standard stream of a process leads to. -/
inductive Route
  | inherited
  | pipe (pipe : Nat)
  | file (name : List UInt8)
deriving DecidableEq

/-- The standard streams of a process, and the file that is copied to its output when the
program has ended. -/
structure Streams where
  stdin : Route
  stdout : Route
  copied : Option (List UInt8)
deriving DecidableEq

/-- The read or write end of a pipe, or the stream of the parent. -/
def throughPipe (pipefd : Option Nat) : Route := pipefd.elim .inherited .pipe

/-- The standard input of the child in {lit}`execute`. -/
def Child.stdin (child : Child) : Except (List UInt8) Route :=
  match child.stage.inpos with
  | none => .ok (throughPipe child.inputfd)
  | some inpos =>
      if child.inputfd ≠ none then
        .error (syntaxError (bytes "redirection < cannot be used after a pipeline"))
      else if child.stage.inFirst ∨ child.stage.outpos = none then
        .ok (.file (trimwhitespace inpos))
      else .ok .inherited

/-- The standard output of the child in {lit}`execute`. -/
def Child.stdout (child : Child) : Except (List UInt8) Route :=
  match child.stage.outpos with
  | none => .ok (throughPipe child.outputfd)
  | some outpos =>
      if child.outputfd ≠ none then
        .error (syntaxError (bytes "redirection > cannot be used before a pipeline"))
      else .ok (.file (trimwhitespace outpos))

/-- The file of an input redirection behind an output redirection, which is opened when the
program has ended.  A command of the shell exits before. -/
def Child.copied (child : Child) : Option (List UInt8) :=
  match child.stage.program with
  | .builtin _ => none
  | .exec _ _ =>
      if child.stage.inFirst ∨ child.stage.outpos = none ∨ child.inputfd ≠ none then none
      else child.stage.inpos.map trimwhitespace

/-- The redirections in the child's branch of {lit}`execute`, or the syntax error that is
reported in place of the command. -/
def Child.streams (child : Child) : Except (List UInt8) Streams :=
  match child.stdin, child.stdout with
  | .error report, _ => .error report
  | .ok _, .error report => .error report
  | .ok stdin, .ok stdout => .ok ⟨stdin, stdout, child.copied⟩

/-! ## The pipes between the processes -/

/-- The pipes of one process.  It reads from the pipe behind the command in front of it and
writes to its own one, the only one whose write end it holds. -/
structure Piped (n : Nat) (pipefd1 : Option Nat) (held : List PipeEnd) (k : Nat)
    (child : Child) : Prop where
  inputfd : child.inputfd = if k = 0 then pipefd1 else some (n + k - 1)
  outputfd : child.outputfd = none ∨ child.outputfd = some (n + k)
  writes : ∀ pipe, .write pipe ∈ child.held ↔ .write pipe ∈ held ∨ child.outputfd = some pipe
  reads : ∀ pipe, .read pipe ∈ child.held ↔
    .read pipe ∈ held ∨ n ≤ pipe ∧ pipe < n + k ∨ child.outputfd = some pipe

/-- Every process that the recursion starts has its pipes, and only the last one may lack a
pipe to write to. -/
theorem execute_piped (env : Environment) (n : Nat) (pipefd1 : Option Nat)
    (held : List PipeEnd) (token tokptr : List UInt8) :
    let launch := execute env n pipefd1 held token tokptr
    ∀ k child, launch.children[k]? = some child → Piped n pipefd1 held k child ∧
      (k + 1 < launch.children.length → child.outputfd ≠ none) := by
  fun_induction execute env n pipefd1 held token tokptr with
  | case1 n pipefd1 held token tokptr ending hfind =>
      intro launch k child hchild
      cases hchild
  | case2 n pipefd1 held token tokptr stage hfind rest hnext =>
      intro launch k child hchild
      cases k with
      | succ k => cases hchild
      | zero =>
          cases hchild
          refine ⟨⟨rfl, Or.inl rfl, ?_, ?_⟩, fun h => absurd h (Nat.lt_irrefl 1)⟩
          · simp
          · intro pipe
            constructor
            · intro h
              exact Or.inl h
            · rintro (h | h | h)
              · exact h
              · omega
              · cases h
  | case3 n pipefd1 held token tokptr stage hfind token' tokptr' hnext rest ih =>
      intro launch k child hchild
      cases k with
      | zero =>
          cases hchild
          refine ⟨⟨rfl, Or.inr rfl, ?_, ?_⟩, fun _ h => by cases h⟩
          · intro pipe
            simp [or_comm, eq_comm]
          · intro pipe
            simp only [List.mem_cons, reduceCtorEq, PipeEnd.read.injEq, false_or, Option.some.injEq]
            constructor
            · rintro (rfl | h)
              · exact Or.inr (Or.inr rfl)
              · exact Or.inl h
            · rintro (h | h | rfl)
              · exact Or.inr h
              · omega
              · exact Or.inl rfl
      | succ k =>
          obtain ⟨hpiped, hlast⟩ := ih k child hchild
          refine ⟨⟨?_, ?_, ?_, ?_⟩, ?_⟩
          · rw [hpiped.inputfd]
            cases k with
            | zero => simp
            | succ k =>
                have hpipe : n + 1 + (k + 1) - 1 = n + (k + 1 + 1) - 1 := by omega
                simp only [Nat.succ_ne_zero, if_false, hpipe]
          · have houtput := hpiped.outputfd
            rwa [Nat.add_right_comm n 1 k] at houtput
          · intro pipe
            rw [hpiped.writes]
            simp
          · intro pipe
            rw [hpiped.reads]
            simp only [List.mem_cons, PipeEnd.read.injEq]
            constructor
            · rintro ((rfl | h) | h | h)
              · exact Or.inr (Or.inl ⟨Nat.le_refl _, by omega⟩)
              · exact Or.inl h
              · exact Or.inr (Or.inl ⟨by omega, by omega⟩)
              · exact Or.inr (Or.inr h)
            · rintro (h | h | h)
              · exact Or.inl (Or.inr h)
              · by_cases hpipe : pipe = n
                · exact Or.inl (Or.inl hpipe)
                · exact Or.inr (Or.inl ⟨by omega, by omega⟩)
              · exact Or.inr (Or.inr h)
          · intro hlength
            apply hlast
            simpa [launch] using hlength

end SystemFundamentals.Sfish
