import SystemFundamentals.Sfish.CommandLine

/-!
# Pipelines and their text

What the shell is for: a line is the text of a pipeline of commands, each with its words and
redirections, and the shell should run exactly these programs with these arguments, connected
in this order.  The text has blanks between the words and any blanks and tabs around the
commands and the file names.

Main results:

- Theorem {lit}`findexecutable_text`: the shell finds the command and the redirections again in
  the text.
- Theorem {lit}`shellTurn_pipeline`: a line that is the text of a pipeline launches the pipeline.
-/

namespace SystemFundamentals.Sfish

open Library Tokens

/-! ## Pipelines -/

/-- A character that separates nothing and marks nothing. -/
def Plain (c : UInt8) : Prop :=
  c ≠ 0 ∧ isSpace c = false ∧ c ≠ bar ∧ c ≠ less ∧ c ≠ greater

/-- The bytes of a string are checked one by one, and not all values of a byte. -/
local instance (priority := high) decidableForallBytes (p : UInt8 → Prop) [DecidablePred p]
    (text : List UInt8) : Decidable (∀ c ∈ text, p c) :=
  List.decidableBAll p text

@[inherit_doc decidableForallBytes]
local instance (priority := high) decidableForallByte (p : UInt8 → Prop) [DecidablePred p]
    (c : Option UInt8) : Decidable (∀ d ∈ c, p d) :=
  Option.decidableForallMem c

instance (c : UInt8) : Decidable (Plain c) :=
  inferInstanceAs (Decidable (_ ∧ _))

/-- A word of a command. -/
structure Word where
  text : List UInt8
  nonempty : text ≠ []
  plain : ∀ c ∈ text, Plain c

/-- A file name, which may contain blanks but does not begin or end with one. -/
structure FileName where
  text : List UInt8
  nonempty : text ≠ []
  bare : Bare isSpace text
  unmarked : ∀ c ∈ text, c ≠ 0 ∧ c ≠ bar ∧ c ≠ less ∧ c ≠ greater

/-- The redirections of a command, in the order in which they are written. -/
inductive Redirections
  | none
  | input (name : FileName)
  | output (name : FileName)
  | inputOutput (input output : FileName)
  | outputInput (output input : FileName)

/-- A command of a pipeline. -/
structure SimpleCommand where
  name : Word
  arguments : List Word
  redirections : Redirections

/-- The words of a command. -/
def SimpleCommand.words (command : SimpleCommand) : List (List UInt8) :=
  command.name.text :: command.arguments.map Word.text

/-- What the program sees as its arguments.  The shell takes {lit}`./` off its name. -/
def SimpleCommand.argv (command : SimpleCommand) : List (List UInt8) :=
  (if [dot, slash].isPrefixOf command.name.text then command.name.text.drop 2
    else command.name.text) :: command.arguments.map Word.text

/-- The program that a command names: one of the two that the shell brings along, the file at a
path, or the first file of this name in the directories of {lit}`PATH`. -/
inductive Finds (env : Environment) (n : Nat) (command : SimpleCommand) : Program → Prop
  | builtin : command.name.text = bytes "pwd" ∨ command.name.text = bytes "help" →
      Finds env n command (.builtin command.name.text)
  | path : command.name.text ≠ bytes "pwd" → command.name.text ≠ bytes "help" →
      slash ∈ command.name.text → env.stat n command.name.text = true →
        Finds env n command (.exec command.name.text command.argv)
  | search {before after : List (List UInt8)} {dir : List UInt8} :
      command.name.text ≠ bytes "pwd" → command.name.text ≠ bytes "help" →
      slash ∉ command.name.text → Spread colon (before ++ dir :: after) env.path →
      (∀ d ∈ before, (d ++ slash :: command.name.text).length < 256 ∧
        env.stat n (d ++ slash :: command.name.text) = false) →
      (dir ++ slash :: command.name.text).length < 256 →
      env.stat n (dir ++ slash :: command.name.text) = true →
        Finds env n command (.exec (dir ++ slash :: command.name.text) command.argv)

/-- The file that the standard input is redirected to. -/
def Redirections.inputName : Redirections → Option FileName
  | .none => Option.none
  | .input name => some name
  | .output _ => Option.none
  | .inputOutput name _ => some name
  | .outputInput _ name => some name

/-- The file that the standard output is redirected to. -/
def Redirections.outputName : Redirections → Option FileName
  | .none => Option.none
  | .input _ => Option.none
  | .output name => some name
  | .inputOutput _ name => some name
  | .outputInput name _ => some name

/-- The standard streams of a command between two pipes.  An input redirection behind an output
redirection comes too late for the program: the file is copied to its output instead. -/
def SimpleCommand.streams (command : SimpleCommand) (program : Program)
    (before behind : Option Nat) :
    Except (List UInt8) Streams :=
  if command.redirections.inputName.isSome ∧ before.isSome then
    .error (syntaxError (bytes "redirection < cannot be used after a pipeline"))
  else if command.redirections.outputName.isSome ∧ behind.isSome then
    .error (syntaxError (bytes "redirection > cannot be used before a pipeline"))
  else
    let stdout := command.redirections.outputName.elim (throughPipe behind) (.file ·.text)
    match command.redirections, program with
    | .outputInput _ _, .builtin _ => .ok ⟨.inherited, stdout, Option.none⟩
    | .outputInput _ input, .exec _ _ => .ok ⟨.inherited, stdout, some input.text⟩
    | redirections, _ =>
        .ok ⟨redirections.inputName.elim (throughPipe before) (.file ·.text), stdout,
          Option.none⟩

/-! ## Their text -/

/-- A mark and a file name, with padding around the name. -/
def MarkText (mark : UInt8) (name : FileName) (text : List UInt8) : Prop :=
  ∃ front back, (∀ c ∈ front, isSpace c = true) ∧ (∀ c ∈ back, isSpace c = true) ∧
    text = mark :: (front ++ name.text ++ back)

/-- The text of the redirections of a command. -/
inductive RedirectionsText : Redirections → List UInt8 → Prop
  | none : RedirectionsText .none []
  | input {name : FileName} {text : List UInt8} : MarkText less name text →
      RedirectionsText (.input name) text
  | output {name : FileName} {text : List UInt8} : MarkText greater name text →
      RedirectionsText (.output name) text
  | inputOutput {input output : FileName} {text text' : List UInt8} :
      MarkText less input text → MarkText greater output text' →
        RedirectionsText (.inputOutput input output) (text ++ text')
  | outputInput {output input : FileName} {text text' : List UInt8} :
      MarkText greater output text → MarkText less input text' →
        RedirectionsText (.outputInput output input) (text ++ text')

/-- The text of a command, without padding around it. -/
def CommandText (command : SimpleCommand) (text : List UInt8) : Prop :=
  ∃ words redirections, Spread blank command.words words ∧
    RedirectionsText command.redirections redirections ∧ Bare isSpace (words ++ redirections) ∧
    text = words ++ redirections

/-- The text of a command, with padding around it. -/
def PaddedText (command : SimpleCommand) (text : List UInt8) : Prop :=
  ∃ front core back, (∀ c ∈ front, isSpace c = true) ∧ (∀ c ∈ back, isSpace c = true) ∧
    CommandText command core ∧ text = front ++ core ++ back

/-- The text of a pipeline: its commands with bars between them. -/
inductive PipelineText : SimpleCommand → List SimpleCommand → List UInt8 → Prop
  | last {command : SimpleCommand} {text : List UInt8} : PaddedText command text →
      PipelineText command [] text
  | cons {command command' : SimpleCommand} {commands : List SimpleCommand}
      {text rest : List UInt8} :
      PaddedText command text → PipelineText command' commands rest →
        PipelineText command (command' :: commands) (text ++ bar :: rest)

/-- What stands behind a pipeline that runs in the background. -/
def lineEnd (background : Bool) : List UInt8 := if background then [ampersand] else []

/-- A line with a pipeline, which runs in the background if an ampersand ends it. -/
def LineText (command : SimpleCommand) (commands : List SimpleCommand) (background : Bool)
    (line : List UInt8) : Prop :=
  ∃ front text back, (∀ c ∈ front, isSpace c = true) ∧ (∀ c ∈ back, isSpace c = true) ∧
    PipelineText command commands text ∧
    Bare isSpace (text ++ lineEnd background) ∧
    (background = false → text.getLast? ≠ some ampersand) ∧
    line = front ++ (text ++ lineEnd background) ++ back

/-! ## The marks of a token -/

theorem redirect_of_notMem {mark other : UInt8} {token : List UInt8} (h : mark ∉ token) :
    redirect mark other token = none :=
  if_neg h

/-- The text behind the first occurrence of a mark. -/
theorem redirect_of_mark {mark other : UInt8} {front text : List UInt8} (h : mark ∉ front) :
    redirect mark other (front ++ mark :: text) =
      some (if other ∈ front then text else text.takeWhile (· ≠ other)) := by
  have hall : ∀ c ∈ front, decide (c ≠ mark) = true := by
    intro c hc
    simpa using fun heq : c = mark => h (heq ▸ hc)
  have hmem : mark ∈ front ++ mark :: text := by simp
  unfold redirect
  rw [if_pos hmem, List.takeWhile_append_of_pos hall, List.dropWhile_append_of_pos hall]
  simp

/-- The text in front of the first occurrence of a mark. -/
theorem takeWhile_of_mark {mark : UInt8} {front : List UInt8} (h : mark ∉ front)
    (text : List UInt8) : (front ++ mark :: text).takeWhile (· ≠ mark) = front := by
  have hall : ∀ c ∈ front, decide (c ≠ mark) = true := by
    intro c hc
    simpa using fun heq : c = mark => h (heq ▸ hc)
  rw [List.takeWhile_append_of_pos hall]
  simp

theorem takeWhile_of_notMem {mark : UInt8} {text : List UInt8} (h : mark ∉ text) :
    text.takeWhile (· ≠ mark) = text := by
  apply List.takeWhile_eq_self_iff.mpr
  intro c hc
  simpa using fun heq : c = mark => h (heq ▸ hc)

/-- The text behind a mark. -/
theorem MarkText.eq_cons {mark : UInt8} {name : FileName} {text : List UInt8}
    (h : MarkText mark name text) :
    ∃ body, text = mark :: body ∧ trimwhitespace body = name.text ∧ bar ∉ body ∧
      less ∉ body ∧ greater ∉ body := by
  obtain ⟨front, back, hfront, hback, rfl⟩ := h
  have hmarks : ∀ c ∈ front ++ name.text ++ back, c ≠ bar ∧ c ≠ less ∧ c ≠ greater := by
    intro c hc
    rw [List.mem_append, List.mem_append] at hc
    have hspace (hc : isSpace c = true) : c ≠ bar ∧ c ≠ less ∧ c ≠ greater := by
      refine ⟨?_, ?_, ?_⟩ <;> rintro rfl <;> revert hc <;> decide
    rcases hc with (hc | hc) | hc
    · exact hspace (hfront c hc)
    · exact (name.unmarked c hc).2
    · exact hspace (hback c hc)
  exact ⟨_, rfl, strip_pad hfront hback name.bare name.nonempty,
    fun h => (hmarks _ h).1 rfl, fun h => (hmarks _ h).2.1 rfl, fun h => (hmarks _ h).2.2 rfl⟩

/-- What the shell finds of the redirections behind some words. -/
structure Found (redirections : Redirections) (inpos outpos : Option (List UInt8))
    (inFirst : Bool) : Prop where
  input : inpos.map trimwhitespace = redirections.inputName.map FileName.text
  output : outpos.map trimwhitespace = redirections.outputName.map FileName.text
  order : ∀ output input, redirections = .outputInput output input → inFirst = false
  early : ∀ input output, redirections = .inputOutput input output → inFirst = true

theorem found_of_text {redirections : Redirections} {words text : List UInt8}
    (hless : less ∉ words) (hgreater : greater ∉ words)
    (h : RedirectionsText redirections text) :
    Found redirections (redirect less greater (words ++ text))
      (redirect greater less (words ++ text))
      (less ∈ (words ++ text).takeWhile (· ≠ greater)) := by
  have hne : greater ≠ less := by decide
  cases h with
  | none =>
      rw [List.append_nil, redirect_of_notMem hless, redirect_of_notMem hgreater]
      exact ⟨rfl, rfl, by rintro _ _ ⟨⟩, by rintro _ _ ⟨⟩⟩
  | input hmark =>
      obtain ⟨body, rfl, hbody, -, -, hgreater'⟩ := hmark.eq_cons
      have hnone : greater ∉ words ++ less :: body := by simp [hgreater, hgreater', hne]
      rw [redirect_of_mark hless, if_neg hgreater, takeWhile_of_notMem hgreater',
        redirect_of_notMem hnone]
      exact ⟨congrArg some hbody, rfl, by rintro _ _ ⟨⟩, by rintro _ _ ⟨⟩⟩
  | output hmark =>
      obtain ⟨body, rfl, hbody, -, hless', -⟩ := hmark.eq_cons
      have hnone : less ∉ words ++ greater :: body := by simp [hless, hless', hne.symm]
      rw [redirect_of_mark hgreater, if_neg hless, takeWhile_of_notMem hless',
        redirect_of_notMem hnone]
      exact ⟨rfl, congrArg some hbody, by rintro _ _ ⟨⟩, by rintro _ _ ⟨⟩⟩
  | inputOutput hinput houtput =>
      obtain ⟨body, rfl, hbody, -, -, hgreater'⟩ := hinput.eq_cons
      obtain ⟨body', rfl, hbody', -, -, -⟩ := houtput.eq_cons
      have hfront : greater ∉ words ++ less :: body := by simp [hgreater, hgreater', hne]
      have hsplit : words ++ (less :: body ++ greater :: body') =
          (words ++ less :: body) ++ greater :: body' := by simp
      have hinpos : redirect less greater (words ++ (less :: body ++ greater :: body')) =
          some body := by
        rw [List.cons_append, redirect_of_mark hless, if_neg hgreater,
          takeWhile_of_mark hgreater']
      rw [hinpos, hsplit, redirect_of_mark hfront, takeWhile_of_mark hfront,
        if_pos (by simp)]
      exact ⟨congrArg some hbody, congrArg some hbody', by rintro _ _ ⟨⟩,
        fun _ _ _ => by simp⟩
  | outputInput houtput hinput =>
      obtain ⟨body, rfl, hbody, -, hless', -⟩ := houtput.eq_cons
      obtain ⟨body', rfl, hbody', -, -, -⟩ := hinput.eq_cons
      have hfront : less ∉ words ++ greater :: body := by simp [hless, hless', hne.symm]
      have hsplit : words ++ (greater :: body ++ less :: body') =
          (words ++ greater :: body) ++ less :: body' := by simp
      have houtpos : redirect greater less (words ++ (greater :: body ++ less :: body')) =
          some body := by
        rw [List.cons_append, redirect_of_mark hgreater, if_neg hless,
          takeWhile_of_mark hless']
      have horder : (words ++ (greater :: body ++ less :: body')).takeWhile (· ≠ greater) =
          words := by
        rw [List.cons_append, takeWhile_of_mark hgreater]
      rw [houtpos, horder, hsplit, redirect_of_mark hfront, if_pos (by simp)]
      exact ⟨congrArg some hbody', congrArg some hbody, fun _ _ _ => by simpa using hless,
        by rintro _ _ ⟨⟩⟩

/-! ## The command of a token -/

/-- The search through the directories ends at the first one that has the file. -/
theorem searchPath_of_first {stat : List UInt8 → Bool} {currarg dir : List UInt8}
    {before : List (List UInt8)} (after : List (List UInt8))
    (hbefore : ∀ d ∈ before, (d ++ slash :: currarg).length < 256 ∧
      stat (d ++ slash :: currarg) = false)
    (hfits : (dir ++ slash :: currarg).length < 256)
    (hstat : stat (dir ++ slash :: currarg) = true) :
    searchPath stat currarg (before ++ dir :: after) = .ok (some (dir ++ slash :: currarg)) := by
  induction before with
  | nil => simp only [List.nil_append, searchPath, if_pos hfits, hstat, if_true]
  | cons d before ih =>
      obtain ⟨hdfits, hdstat⟩ := hbefore d List.mem_cons_self
      simp only [List.cons_append, searchPath, if_pos hdfits, hdstat, Bool.false_eq_true, if_false]
      exact ih fun d hd => hbefore d (List.mem_cons_of_mem _ hd)

/-- The shell finds the program that a command names. -/
theorem findProgram_of_finds {env : Environment} {n : Nat} {command : SimpleCommand}
    {program : Program} (h : Finds env n command program) {inputptr : List UInt8}
    (hrest : tokens blank inputptr = command.arguments.map Word.text) :
    findProgram env n command.name.text inputptr = .ok program := by
  have hargv : ∀ path, prepexecute path command.name.text inputptr = .exec path command.argv := by
    intro path
    rw [prepexecute, hrest]
    rfl
  cases h with
  | builtin hname => rw [findProgram, if_pos hname]
  | path hpwd hhelp hslash hstat =>
      rw [findProgram, if_neg (not_or_intro hpwd hhelp), if_pos hslash, if_pos hstat, hargv]
  | search hpwd hhelp hslash hspread hbefore hfits hstat =>
      have hdirs := tokens_of_spread hspread
      rw [findProgram, if_neg (not_or_intro hpwd hhelp), if_neg hslash, hdirs,
        if_neg (by simp), searchPath_of_first _ hbefore hfits hstat]
      simp only [hargv]

/-- The characters of the words of a command are blanks and plain characters. -/
theorem plain_of_words {command : SimpleCommand} {words : List UInt8}
    (h : Spread blank command.words words) : less ∉ words ∧ greater ∉ words ∧ bar ∉ words := by
  have hchar : ∀ c ∈ words, c = blank ∨ Plain c := by
    intro c hc
    refine (h.mem hc).imp_right ?_
    rintro ⟨word, hword, hmem⟩
    rcases List.mem_cons.mp hword with rfl | hword
    · exact command.name.plain c hmem
    · obtain ⟨argument, -, rfl⟩ := List.mem_map.mp hword
      exact argument.plain c hmem
  refine ⟨fun hc => ?_, fun hc => ?_, fun hc => ?_⟩
  · exact absurd (hchar _ hc) (by decide)
  · exact absurd (hchar _ hc) (by decide)
  · exact absurd (hchar _ hc) (by decide)

/-- Redirections begin with a mark. -/
theorem RedirectionsText.head {redirections : Redirections} {text : List UInt8}
    (h : RedirectionsText redirections text) : ∀ c ∈ text.head?, c = less ∨ c = greater := by
  intro c hc
  cases h with
  | none => cases hc
  | input hmark =>
      obtain ⟨body, rfl, -⟩ := hmark.eq_cons
      cases hc
      exact Or.inl rfl
  | output hmark =>
      obtain ⟨body, rfl, -⟩ := hmark.eq_cons
      cases hc
      exact Or.inr rfl
  | inputOutput hmark _ =>
      obtain ⟨body, rfl, -⟩ := hmark.eq_cons
      cases hc
      exact Or.inl rfl
  | outputInput hmark _ =>
      obtain ⟨body, rfl, -⟩ := hmark.eq_cons
      cases hc
      exact Or.inr rfl

/-- The shell finds the command and the redirections again in the text. -/
theorem findexecutable_text {env : Environment} {n : Nat} {command : SimpleCommand}
    {program : Program} {text : List UInt8} (htext : CommandText command text)
    (hfinds : Finds env n command program) :
    ∃ stage, findexecutable env n text = .ok stage ∧ stage.program = program ∧
      Found command.redirections stage.inpos stage.outpos stage.inFirst := by
  obtain ⟨words, redirections, hwords, hredirections, -, rfl⟩ := htext
  obtain ⟨hless, hgreater, -⟩ := plain_of_words hwords
  have hne := hwords.ne_nil
  have hpart : commandPart (words ++ redirections) = words := by
    unfold commandPart
    rw [List.takeWhile_append_of_pos]
    · cases redirections with
      | nil => simp
      | cons c redirections =>
          have hc := hredirections.head c rfl
          rcases hc with rfl | rfl
          · simp
          · simp
    · intro c hc
      simp only [decide_eq_true_eq]
      exact ⟨fun h => hless (h ▸ hc), fun h => hgreater (h ▸ hc)⟩
  obtain ⟨c, words', rfl⟩ := List.exists_cons_of_ne_nil hne
  have hstart : ¬ ((c :: words') ++ redirections = [] ∨
      ((c :: words') ++ redirections).head? = some greater) := by
    rintro (h | h)
    · cases h
    · exact hgreater (Option.some.inj h ▸ List.mem_cons_self)
  have hstart' : ((c :: words') ++ redirections).head? ≠ some less := by
    intro h
    exact hless (Option.some.inj h ▸ List.mem_cons_self)
  rcases next_of_spread hwords with ⟨h, -⟩ | ⟨word, words'', rest, heq, hnext, hrest⟩
  · cases h
  obtain ⟨rfl, rfl⟩ := List.cons.inj heq
  refine ⟨⟨program, _, _, _⟩, ?_, rfl, found_of_text hless hgreater hredirections⟩
  rw [findexecutable, if_neg hstart, if_neg hstart', hpart, hnext]
  simp only [findProgram_of_finds hfinds (tokens_of_spread hrest)]
  rfl

/-! ## The processes of a text -/

/-- The redirections that are found connect the process as they should. -/
theorem streams_of_found {child : Child} {command : SimpleCommand}
    (h : Found command.redirections child.stage.inpos child.stage.outpos child.stage.inFirst) :
    child.streams = command.streams child.stage.program child.inputfd child.outputfd := by
  obtain ⟨hinput, houtput, horder, hearly⟩ := h
  rcases child with ⟨⟨program, inpos, outpos, inFirst⟩, inputfd, outputfd, held⟩
  rcases command with ⟨name, arguments, redirections⟩
  simp only at hinput houtput horder hearly
  unfold Child.streams Child.stdin Child.stdout Child.copied SimpleCommand.streams
  cases redirections with
  | none =>
      obtain rfl := Option.map_eq_none_iff.mp hinput
      obtain rfl := Option.map_eq_none_iff.mp houtput
      cases program <;> simp [Redirections.inputName, Redirections.outputName]
  | input input =>
      obtain ⟨text, rfl, htext⟩ := Option.map_eq_some_iff.mp hinput
      obtain rfl := Option.map_eq_none_iff.mp houtput
      cases inputfd <;> cases program <;>
        simp [Redirections.inputName, Redirections.outputName, htext]
  | output output =>
      obtain rfl := Option.map_eq_none_iff.mp hinput
      obtain ⟨text, rfl, htext⟩ := Option.map_eq_some_iff.mp houtput
      cases outputfd <;> cases program <;>
        simp [Redirections.inputName, Redirections.outputName, htext]
  | inputOutput input output =>
      obtain ⟨text, rfl, htext⟩ := Option.map_eq_some_iff.mp hinput
      obtain ⟨text', rfl, htext'⟩ := Option.map_eq_some_iff.mp houtput
      obtain rfl := hearly _ _ rfl
      cases inputfd <;> cases outputfd <;> cases program <;>
        simp [Redirections.inputName, Redirections.outputName, htext, htext']
  | outputInput output input =>
      obtain ⟨text, rfl, htext⟩ := Option.map_eq_some_iff.mp hinput
      obtain ⟨text', rfl, htext'⟩ := Option.map_eq_some_iff.mp houtput
      obtain rfl := horder _ _ rfl
      cases inputfd <;> cases outputfd <;> cases program <;>
        simp [Redirections.inputName, Redirections.outputName, htext, htext']

/-- A space is no mark and no bar. -/
theorem space_ne_bar {c : UInt8} (h : isSpace c = true) : c ≠ bar := by
  rintro rfl
  cases h

theorem RedirectionsText.bar_notMem {redirections : Redirections} {text : List UInt8}
    (h : RedirectionsText redirections text) : bar ∉ text := by
  have hmark : ∀ {mark : UInt8} {name : FileName} {text : List UInt8}, mark ≠ bar →
      MarkText mark name text → bar ∉ text := by
    intro mark name text hne hmark
    obtain ⟨body, rfl, -, hbar, -⟩ := hmark.eq_cons
    simp [hne.symm, hbar]
  have hless : less ≠ bar := by decide
  have hgreater : greater ≠ bar := by decide
  cases h with
  | none => simp
  | input h => exact hmark hless h
  | output h => exact hmark hgreater h
  | inputOutput h h' =>
      intro hmem
      exact (List.mem_append.mp hmem).elim (hmark hless h) (hmark hgreater h')
  | outputInput h h' =>
      intro hmem
      exact (List.mem_append.mp hmem).elim (hmark hgreater h) (hmark hless h')

/-- The text of a command has no bar, and what is inside its padding is the text that the shell
looks at. -/
theorem PaddedText.spec {command : SimpleCommand} {text : List UInt8}
    (h : PaddedText command text) :
    text ≠ [] ∧ bar ∉ text ∧ CommandText command (trimwhitespace text) := by
  obtain ⟨front, core, back, hfront, hback, hcore, rfl⟩ := h
  obtain ⟨words, redirections, hwords, hredirections, hbare, hcoreeq⟩ := id hcore
  have hne : core ≠ [] := hcoreeq ▸ List.append_ne_nil_of_left_ne_nil hwords.ne_nil _
  refine ⟨?_, ?_, ?_⟩
  · exact List.append_ne_nil_of_left_ne_nil (List.append_ne_nil_of_right_ne_nil _ hne) _
  · intro hmem
    rcases List.mem_append.mp hmem with hmem | hmem
    · rcases List.mem_append.mp hmem with hmem | hmem
      · exact space_ne_bar (hfront _ hmem) rfl
      · rw [hcoreeq] at hmem
        exact (List.mem_append.mp hmem).elim (plain_of_words hwords).2.2
          hredirections.bar_notMem
    · exact space_ne_bar (hback _ hmem) rfl
  · rw [trimwhitespace, strip_pad hfront hback (hcoreeq ▸ hbare) hne]
    exact hcore

/-- The processes that the text of a pipeline starts from the command {lit}`n` on. -/
structure Runs (command : SimpleCommand) (commands : List SimpleCommand) (program : Nat → Program)
    (launch : Launch) : Prop where
  ending : launch.ending = .finished
  length : launch.children.length = commands.length + 1
  child : ∀ k c child, (command :: commands)[k]? = some c → launch.children[k]? = some child →
    child.stage.program = program k ∧
      child.streams = c.streams (program k) child.inputfd child.outputfd ∧
      (k = commands.length → child.outputfd = none)

theorem runs_of_text {env : Environment} {command : SimpleCommand} {commands : List SimpleCommand}
    {text : List UInt8} (htext : PipelineText command commands text) :
    ∃ token tokptr, next bar text = (some token, tokptr) ∧
      ∀ n pipefd1 held (program : Nat → Program),
        (∀ k c, (command :: commands)[k]? = some c → Finds env (n + k) c (program k)) →
        Runs command commands program
          (execute env n pipefd1 held (trimwhitespace token) tokptr) := by
  induction htext with
  | @last command text hpadded =>
      obtain ⟨hne, hbar, hcommand⟩ := hpadded.spec
      have hnext : next bar (text ++ []) = (some text, []) := next_word hne hbar (by simp)
      rw [List.append_nil] at hnext
      refine ⟨text, [], hnext, ?_⟩
      intro n pipefd1 held program hfinds
      have hfirst : Finds env n command (program 0) := hfinds 0 command rfl
      obtain ⟨stage, hfind, hprogram, hfound⟩ := findexecutable_text hcommand hfirst
      rw [execute_last hfind (next_eq_none_iff.mpr (by simp))]
      refine ⟨rfl, rfl, ?_⟩
      intro k c child hc hchild
      cases k with
      | succ k => cases hc
      | zero =>
          cases hc
          cases hchild
          refine ⟨hprogram, ?_, fun _ => rfl⟩
          rw [streams_of_found hfound, hprogram]
  | @cons command command' commands text rest hpadded hrest ih =>
      obtain ⟨hne, hbar, hcommand⟩ := hpadded.spec
      obtain ⟨token', tokptr', hnext', hruns⟩ := ih
      refine ⟨text, rest, next_word hne hbar (by simp), ?_⟩
      intro n pipefd1 held program hfinds
      have hfirst : Finds env n command (program 0) := hfinds 0 command rfl
      obtain ⟨stage, hfind, hprogram, hfound⟩ := findexecutable_text hcommand hfirst
      have hrec := hruns (n + 1) (some n) (.read n :: held) (fun k => program (k + 1)) (by
        intro k c hc
        rw [Nat.add_right_comm]
        exact hfinds (k + 1) c hc)
      rw [execute_cons hfind hnext']
      refine ⟨hrec.ending, congrArg (· + 1) hrec.length, ?_⟩
      intro k c child hc hchild
      cases k with
      | zero =>
          cases hc
          cases hchild
          refine ⟨hprogram, ?_, fun h => by cases h⟩
          rw [streams_of_found hfound, hprogram]
      | succ k =>
          obtain ⟨hprogram', hstreams, hlast⟩ := hrec.child k c child hc hchild
          exact ⟨hprogram', hstreams, fun h => hlast (Nat.succ.inj h)⟩

/-! ## The line of a pipeline -/

/-- A character that ends a word of a line. -/
def EndsWord (c : UInt8) : Prop := c = ampersand ∨ ¬ Plain c

theorem endsWord_of_space {c : UInt8} (h : isSpace c = true) : EndsWord c := by
  refine Or.inr fun hplain => ?_
  rw [hplain.2.1] at h
  cases h

/-- The first character of two texts in a row. -/
theorem head_append {P : UInt8 → Prop} {text text' : List UInt8} (h : ∀ c ∈ text.head?, P c)
    (h' : ∀ c ∈ text'.head?, P c) : ∀ c ∈ (text ++ text').head?, P c := by
  cases text with
  | nil => exact h'
  | cons c text => exact h

theorem PaddedText.name {command : SimpleCommand} {text : List UInt8} (h : PaddedText command text)
    (hbare : ∀ c ∈ text.head?, isSpace c = false) :
    ∃ rest, text = command.name.text ++ rest ∧ ∀ c ∈ rest.head?, EndsWord c := by
  obtain ⟨front, core, back, hfront, hback, ⟨words, marks, hwords, hmarks, hcore, rfl⟩, rfl⟩ := h
  cases front with
  | cons c front =>
      have hc := hbare c rfl
      rw [hfront c List.mem_cons_self] at hc
      cases hc
  | nil =>
      have hhead : ∀ c ∈ words.head?, c ≠ blank := by
        rintro c hc rfl
        have hspace := hcore.1 blank (by simp [Option.mem_def.mp hc])
        cases hspace
      obtain ⟨rest, rfl, hrest⟩ := hwords.starts hhead
      refine ⟨rest ++ (marks ++ back), by simp, head_append ?_ (head_append ?_ ?_)⟩
      · intro c hc
        exact endsWord_of_space (hrest c hc ▸ rfl)
      · intro c hc
        refine Or.inr fun hplain => ?_
        exact (hmarks.head c hc).elim hplain.2.2.2.1 hplain.2.2.2.2
      · intro c hc
        exact endsWord_of_space (hback c (List.mem_of_mem_head? hc))

/-- A text without padding in front begins with the name of its first command. -/
theorem PipelineText.name {command : SimpleCommand} {commands : List SimpleCommand}
    {text : List UInt8}
    (h : PipelineText command commands text) (hbare : ∀ c ∈ text.head?, isSpace c = false) :
    ∃ rest, text = command.name.text ++ rest ∧ ∀ c ∈ rest.head?, EndsWord c := by
  cases h with
  | last h => exact h.name hbare
  | @cons _ _ _ text rest h hrest =>
      have hhead : ∀ c ∈ text.head?, isSpace c = false := by
        rwa [List.head?_append_of_ne_nil _ h.spec.1] at hbare
      obtain ⟨rest', rfl, hrest'⟩ := h.name hhead
      refine ⟨rest' ++ bar :: rest, by simp, head_append hrest' ?_⟩
      rintro c ⟨⟩
      exact Or.inr fun hplain => hplain.2.2.1 rfl

theorem PipelineText.ends {command : SimpleCommand} {commands : List SimpleCommand}
    {text : List UInt8}
    (h : PipelineText command commands text) :
    text ≠ [] ∧ text.head? ≠ some bar ∧ text.getLast? ≠ some bar := by
  have hpadded : ∀ {command text}, PaddedText command text →
      text ≠ [] ∧ text.head? ≠ some bar ∧ text.getLast? ≠ some bar := by
    intro command text h
    obtain ⟨hne, hbar, -⟩ := h.spec
    exact ⟨hne, fun h => hbar (List.mem_of_mem_head? h), fun h => hbar (List.mem_of_getLast? h)⟩
  induction h with
  | last h => exact hpadded h
  | @cons command command' commands text rest h hrest ih =>
      obtain ⟨hne, hhead, -⟩ := hpadded h
      obtain ⟨hne', -, hlast⟩ := ih
      refine ⟨List.append_ne_nil_of_left_ne_nil hne _, ?_, ?_⟩
      · rwa [List.head?_append_of_ne_nil _ hne]
      · rw [List.getLast?_append_of_ne_nil _ (List.cons_ne_nil bar rest),
          List.getLast?_cons_of_ne_nil hne']
        exact hlast

/-- A line that begins with another word is no call of a command of the shell. -/
theorem not_calls {command name rest : List UInt8} (hcommand : ∀ c ∈ command, ¬ EndsWord c)
    (hname : ∀ c ∈ name, Plain c) (hrest : ∀ c ∈ rest.head?, EndsWord c)
    (hne : name ≠ command) : ¬ Calls command (name ++ rest) := by
  rintro ⟨hstart, hnext⟩
  obtain ⟨tail, htail⟩ := List.isPrefixOf_iff_prefix.mp hstart
  rcases List.append_eq_append_iff.mp htail with ⟨more, rfl, -⟩ | ⟨more, rfl, rfl⟩
  · cases more with
    | nil => exact hne (List.append_nil command)
    | cons c more =>
        have hplain := hname c (by simp)
        have hc : c = blank := by simpa using hnext
        rw [hc] at hplain
        exact absurd hplain (by decide)
  · cases more with
    | nil => exact hne (List.append_nil name).symm
    | cons c more => exact hcommand c (by simp) (hrest c rfl)

/-- The line is launched from its first token. -/
theorem launchLine_of_text {env : Environment} {text token tokptr : List UInt8}
    {background : Bool} (hne : text ≠ []) (hhead : text.head? ≠ some bar)
    (hend : text.getLast? ≠ some bar) (hlast : background = false → text.getLast? ≠ some ampersand)
    (hnext : next bar text = (some token, tokptr)) :
    launchLine env (text ++ lineEnd background) =
      .launch background (execute env 0 none [] (trimwhitespace token) tokptr) := by
  have hbar : ampersand ≠ bar := by decide
  cases background with
  | true => simp [launchLine, lineEnd, List.head?_append_of_ne_nil _ hne, hhead, hbar, hnext]
  | false => simp [launchLine, lineEnd, hhead, hend, hlast rfl, hnext]

/-- The line of a pipeline is no call of a command of the shell, and does not end it. -/
theorem dispatch_of_name {name rest : List UInt8} (hplain : ∀ c ∈ name, Plain c)
    (hrest : ∀ c ∈ rest.head?, EndsWord c) (hname : name ∉ bytes "exit" :: shellCommands) :
    shellCommands.find? (Calls · (name ++ rest)) = none ∧ name ++ rest ≠ bytes "exit" := by
  have hwords : ∀ command ∈ bytes "exit" :: shellCommands, ∀ c ∈ command, ¬ EndsWord c := by
    simp only [EndsWord, not_or, not_not]
    decide
  constructor
  · rw [List.find?_eq_none]
    intro command hcommand
    have hmem : command ∈ bytes "exit" :: shellCommands := List.mem_cons_of_mem _ hcommand
    simpa using not_calls (hwords command hmem) hplain hrest
      fun heq : name = command => hname (heq ▸ hmem)
  · intro heq
    have hexit := not_calls (hwords (bytes "exit") List.mem_cons_self) hplain hrest
      fun heq => hname (heq ▸ List.mem_cons_self)
    rw [heq] at hexit
    exact hexit (by decide)

/-- A line that is the text of a pipeline launches the pipeline: one process for each command,
with the program that the command names, the arguments behind the name, and the standard
streams that its redirections and the bars around it ask for. -/
theorem shellTurn_pipeline {env : Environment} {command : SimpleCommand}
    {commands : List SimpleCommand}
    {background : Bool} {line : List UInt8} (hline : LineText command commands background line)
    (hname : command.name.text ∉ bytes "exit" :: shellCommands) {program : Nat → Program}
    (hfinds : ∀ k c, (command :: commands)[k]? = some c → Finds env k c (program k)) :
    ∃ launch, shellTurn env (some line) = .launch background launch ∧
      launch.ending = .finished ∧ launch.children.length = commands.length + 1 ∧
      ∀ k c child, (command :: commands)[k]? = some c → launch.children[k]? = some child →
        child.stage.program = program k ∧
          child.streams = c.streams (program k) (if k = 0 then none else some (k - 1))
            (if k = commands.length then none else some k) := by
  obtain ⟨front, text, back, hfront, hback, htext, hbare, hlast, rfl⟩ := hline
  obtain ⟨hne, hhead, hend⟩ := htext.ends
  obtain ⟨token, tokptr, hnext, hruns⟩ := runs_of_text htext
  have hstart : (text ++ lineEnd background).head? = text.head? :=
    List.head?_append_of_ne_nil _ hne
  obtain ⟨rest, hrest, hends⟩ := htext.name (hstart ▸ hbare.1)
  have hends' : ∀ c ∈ (rest ++ lineEnd background).head?, EndsWord c := by
    refine head_append hends ?_
    cases background with
    | false => rintro c ⟨⟩
    | true =>
        rintro c ⟨⟩
        exact Or.inl rfl
  have hne' : text ++ lineEnd background ≠ [] := List.append_ne_nil_of_left_ne_nil hne _
  have htrim : trimwhitespace (front ++ (text ++ lineEnd background) ++ back) =
      text ++ lineEnd background := strip_pad hfront hback hbare hne'
  obtain ⟨hfind, hexit⟩ := dispatch_of_name command.name.plain hends' hname
  rw [← List.append_assoc, ← hrest] at hfind hexit
  have hturn : shellTurn env (some (front ++ (text ++ lineEnd background) ++ back)) =
      .launch background (execute env 0 none [] (trimwhitespace token) tokptr) := by
    simp only [shellTurn, htrim, if_neg hne', hfind, if_neg hexit]
    exact launchLine_of_text hne hhead hend hlast hnext
  have hruns := hruns 0 none [] program (by
    intro k c hc
    rw [Nat.zero_add]
    exact hfinds k c hc)
  refine ⟨_, hturn, hruns.ending, hruns.length, ?_⟩
  intro k c child hc hchild
  obtain ⟨hprogram, hstreams, hout⟩ := hruns.child k c child hc hchild
  obtain ⟨hpiped, hmiddle⟩ := execute_piped env 0 none [] _ tokptr k child hchild
  have hbelow : k < commands.length + 1 := by
    rw [← hruns.length]
    exact (List.getElem?_eq_some_iff.mp hchild).1
  have houtput : child.outputfd = if k = commands.length then none else some k := by
    split_ifs with hk
    · exact hout hk
    · have hsome := hpiped.outputfd.resolve_left (hmiddle (by rw [hruns.length]; omega))
      rwa [Nat.zero_add] at hsome
  rw [hstreams, hpiped.inputfd, houtput, Nat.zero_add]
  exact ⟨hprogram, rfl⟩

/-- Two commands in the background, the first one with a file to read from and the second one
with a file to write to. -/
theorem shellTurn_pipeline_two :
    ∃ launch, shellTurn
        ⟨fun _ path => path = bytes "/bin/ls" ∨ path = bytes "/bin/wc", bytes "/bin"⟩
        (some (bytes " ls -l <in | wc >out &")) = .launch true launch ∧
      launch.ending = .finished ∧ launch.children.length = 2 := by
  let ls : SimpleCommand := ⟨⟨bytes "ls", by decide, by decide⟩,
    [⟨bytes "-l", by decide, by decide⟩],
    .input ⟨bytes "in", by decide, ⟨by decide, by decide⟩, by decide⟩⟩
  let wc : SimpleCommand := ⟨⟨bytes "wc", by decide, by decide⟩, [],
    .output ⟨bytes "out", by decide, ⟨by decide, by decide⟩, by decide⟩⟩
  have hls : PaddedText ls (bytes "ls -l <in ") :=
    ⟨[], bytes "ls -l <in", [blank], by decide, by decide,
      ⟨bytes "ls -l ", bytes "<in",
        @Spread.cons _ _ [] (bytes "ls") _ _ (by decide) (by decide) (by decide)
          (@Spread.cons _ _ [] (bytes "-l") _ _ (by decide) (by decide) (by decide)
            (.nil (by decide))),
        .input ⟨[], [], by decide, by decide, by decide⟩, ⟨by decide, by decide⟩, by decide⟩,
      by decide⟩
  have hwc : PaddedText wc (bytes " wc >out ") :=
    ⟨[blank], bytes "wc >out", [blank], by decide, by decide,
      ⟨bytes "wc ", bytes ">out",
        @Spread.cons _ _ [] (bytes "wc") _ _ (by decide) (by decide) (by decide)
          (.nil (by decide)),
        .output ⟨[], [], by decide, by decide, by decide⟩, ⟨by decide, by decide⟩, by decide⟩,
      by decide⟩
  have hline : LineText ls [wc] true (bytes " ls -l <in | wc >out &") :=
    ⟨[blank], _, [], by decide, by decide, .cons hls (.last hwc), ⟨by decide, by decide⟩,
      by decide, by decide⟩
  have hdirs : Spread colon ([] ++ [bytes "/bin"]) (bytes "/bin") :=
    @Spread.last _ _ [] (bytes "/bin") (by decide) (by decide) (by decide)
  let env : Environment :=
    ⟨fun _ path => path = bytes "/bin/ls" ∨ path = bytes "/bin/wc", bytes "/bin"⟩
  have hfindLs : Finds env 0 ls (.exec (bytes "/bin/ls") ls.argv) :=
    @Finds.search env 0 ls [] [] (bytes "/bin") (by decide) (by decide) (by decide) hdirs
      (by decide) (by decide) (by decide)
  have hfindWc : Finds env 1 wc (.exec (bytes "/bin/wc") wc.argv) :=
    @Finds.search env 1 wc [] [] (bytes "/bin") (by decide) (by decide) (by decide) hdirs
      (by decide) (by decide) (by decide)
  obtain ⟨launch, hturn, hending, hlength, -⟩ := @shellTurn_pipeline env ls [wc] true _ hline
    (by decide) (fun k => if k = 0 then .exec (bytes "/bin/ls") ls.argv
      else .exec (bytes "/bin/wc") wc.argv) (by
    intro k c hc
    rcases k with _ | _ | k
    · cases hc
      exact hfindLs
    · cases hc
      exact hfindWc
    · cases hc)
  exact ⟨launch, hturn, hending, hlength⟩

end SystemFundamentals.Sfish
