import SystemFundamentals.Sfish.Pipeline

/-!
# Command lines of the shell

What the loop of {lit}`main` in {lit}`hw4/src/main.c` does with a line: it is trimmed, taken by
one of the commands of the shell, or launched as a pipeline.  What the commands of the shell do
themselves is not part of this file.

{lit}`trimwhitespace` works inside the block that holds the string.  On an empty string it looks
in front of it, and so does the shell when {lit}`readline` has returned an empty line.

Main results:

- Theorem {lit}`trim_inBlock_iff`: when {lit}`trimwhitespace` stays inside its block, and what
  it returns then.
- Theorem {lit}`shellTurn_crash_iff`: the lines on which the shell hands
  {lit}`trimwhitespace` a NULL pointer.
- Theorem {lit}`pipes_wired`: the pipes of the processes that any line launches.
-/

namespace SystemFundamentals.Sfish

open Library Tokens

/-! ## Trimming in place -/

/-- A byte that is read in front of the block that holds the string. -/
inductive Underrun
  | underrun
deriving DecidableEq

/-- The first loop of {lit}`trimwhitespace`: the bytes in front of the pointer, the nearest one
first, and the string that it points to. -/
def trimStart : List UInt8 → List UInt8 → List UInt8 × List UInt8
  | front, [] => (front, [])
  | front, c :: text => if isSpace c then trimStart (0 :: front) text else (front, c :: text)

/-- The second loop: the bytes from the last one of the string down to the first one of the
block, and those that the loop leaves when it stops. -/
def trimEnd : List UInt8 → Except Underrun (List UInt8)
  | [] => .error .underrun
  | c :: below => if isSpace c then trimEnd below else .ok (c :: below)

/-- {lit}`trimwhitespace` for a string with the bytes {lit}`front` before it in its block. -/
def trimInBlock (front token : List UInt8) : Except Underrun (List UInt8) :=
  let start := trimStart front token
  (trimEnd (start.2.reverse ++ start.1)).map fun below =>
    (below.take (below.length - start.1.length)).reverse

/-! ## A turn of the shell -/

/-- The test for a command of the shell: its name at the start of the line, and a blank or
nothing behind it. -/
def Calls (name input : List UInt8) : Prop :=
  name.isPrefixOf input = true ∧
    (input[name.length]? = none ∨ input[name.length]? = some blank)

instance (name input : List UInt8) : Decidable (Calls name input) :=
  inferInstanceAs (Decidable (_ ∧ _))

/-- The commands that {lit}`main` runs itself, in the order of the tests. -/
def shellCommands : List (List UInt8) :=
  [bytes "cd", bytes "jobs", bytes "fg", bytes "kill", bytes "color"]

/-- What the shell does with a line: it hands {lit}`trimwhitespace` a NULL pointer and ends with a
signal, asks for the next line, exits, runs a command of its own, reports an error, or launches
the processes of a pipeline. -/
inductive Action
  | crash
  | again
  | exit
  | run (command : List UInt8)
  | report (message : List UInt8)
  | launch (background : Bool) (launch : Launch)
deriving DecidableEq

/-- The last branch of the tests: the processes of a pipeline.  The name of the job, a copy of
the first 47 bytes that {lit}`strncpy` leaves without its zero when the line is longer, is for
{lit}`jobs` only and is left out. -/
def launchLine (env : Environment) (input : List UInt8) : Action :=
  if input.head? = some bar then .report (syntaxError (bytes "no command before |"))
  else if input.getLast? = some bar then
    .report (syntaxError (bytes "no command after last |"))
  else
    let background := input.getLast? = some ampersand
    match next bar (if background then input.dropLast else input) with
    | (none, _) => .crash
    | (some token, tokptr) =>
        .launch background (execute env 0 none [] (trimwhitespace token) tokptr)

/-- A turn of the loop of {lit}`main` for what {lit}`readline` returns.  At the end of the input
it is NULL, and {lit}`trimwhitespace` reads from it. -/
def shellTurn (env : Environment) : Option (List UInt8) → Action
  | none => .crash
  | some line =>
      let input := trimwhitespace line
      if input = [] then .again
      else
        match shellCommands.find? (Calls · input) with
        | some command => .run command
        | none => if input = bytes "exit" then .exit else launchLine env input

/-! ## Where trimming stays -/

theorem trimStart_eq (front token : List UInt8) :
    trimStart front token =
      (List.replicate (token.takeWhile isSpace).length 0 ++ front, token.dropWhile isSpace) := by
  induction token generalizing front with
  | nil => rfl
  | cons c token ih =>
      rw [trimStart, List.takeWhile_cons, List.dropWhile_cons]
      cases hc : isSpace c with
      | false => simp
      | true =>
          rw [if_pos rfl, ih, if_pos rfl, if_pos rfl, List.length_cons, List.replicate_succ']
          simp

theorem trimEnd_eq (below : List UInt8) :
    trimEnd below =
      if below.dropWhile isSpace = [] then .error .underrun
      else .ok (below.dropWhile isSpace) := by
  induction below with
  | nil => rfl
  | cons c below ih =>
      rw [trimEnd, List.dropWhile_cons]
      cases hc : isSpace c with
      | false => simp
      | true => simpa using ih

/-- {lit}`trimwhitespace` stays inside its block if the string is not empty or some byte in
front of it is neither a blank nor a tab, and then it returns the string without the blanks and
tabs at its ends. -/
theorem trim_inBlock_iff (front token : List UInt8) :
    trimInBlock front token = .ok (trimwhitespace token) ↔
      token ≠ [] ∨ ∃ c ∈ front, isSpace c = false := by
  unfold trimInBlock
  simp only [trimStart_eq, trimEnd_eq]
  by_cases hrest : token.dropWhile isSpace = []
  · have htrim : trimwhitespace token = [] := by
      rw [trimwhitespace, strip, hrest]
      rfl
    rw [hrest, htrim, List.reverse_nil, List.nil_append]
    cases token with
    | nil =>
        -- nothing is trimmed at the start, and the second loop begins in front of the string
        rw [List.takeWhile_nil, List.length_nil, List.replicate_zero, List.nil_append]
        by_cases hfront : front.dropWhile isSpace = []
        · rw [if_pos hfront]
          refine iff_of_false (by rintro ⟨⟩) ?_
          rintro (h | ⟨c, hc, hspace⟩)
          · exact h rfl
          · have hall := List.dropWhile_eq_nil_iff.mp hfront c hc
            rw [hspace] at hall
            cases hall
        · rw [if_neg hfront]
          have hlength : (front.dropWhile isSpace).length - front.length = 0 :=
            Nat.sub_eq_zero_of_le (List.dropWhile_suffix isSpace).length_le
          refine iff_of_true ?_ (Or.inr ?_)
          · simp [Except.map, hlength]
          · by_contra hnone
            apply hfront
            apply List.dropWhile_eq_nil_iff.mpr
            intro c hc
            by_contra hspace
            exact hnone ⟨c, hc, Bool.eq_false_iff.mpr hspace⟩
    | cons c token =>
        -- the first loop has put a zero in front of the end of the string
        have hc : isSpace c = true := List.dropWhile_eq_nil_iff.mp hrest c List.mem_cons_self
        have hzero : isSpace 0 = false := by decide
        refine iff_of_true ?_ (Or.inl (List.cons_ne_nil c token))
        rw [List.takeWhile_cons, if_pos hc, List.length_cons, List.replicate_succ,
          List.cons_append, List.dropWhile_cons, hzero]
        simp [Except.map]
  · have hstop : (token.dropWhile isSpace).reverse.dropWhile isSpace ≠ [] := by
      intro hnil
      have hall := List.dropWhile_eq_nil_iff.mp hnil
      have hhead := List.head_dropWhile_not isSpace hrest
      rw [hall _ (List.mem_reverse.mpr (List.head_mem hrest))] at hhead
      cases hhead
    have hne : token ≠ [] := by
      rintro rfl
      exact hrest rfl
    refine iff_of_true ?_ (Or.inl hne)
    rw [List.dropWhile_append, List.isEmpty_eq_false_iff.mpr hstop, if_neg Bool.false_ne_true,
      if_neg fun h => hstop (List.append_eq_nil_iff.mp h).1]
    simp [Except.map, trimwhitespace, strip]

/-! ## Lines that leave no token -/

/-- The last branch of the tests finds no token on the line that is nothing but an ampersand. -/
theorem launchLine_crash_iff (env : Environment) {input : List UInt8} (hne : input ≠ []) :
    launchLine env input = .crash ↔ input = [ampersand] := by
  unfold launchLine
  by_cases hbar : input.head? = some bar
  · rw [if_pos hbar]
    refine iff_of_false (by rintro ⟨⟩) ?_
    rintro rfl
    cases hbar
  rw [if_neg hbar]
  by_cases hlast : input.getLast? = some bar
  · rw [if_pos hlast]
    refine iff_of_false (by rintro ⟨⟩) ?_
    rintro rfl
    cases hlast
  rw [if_neg hlast]
  simp only
  cases hnext : next bar (if input.getLast? = some ampersand then input.dropLast else input) with
  | mk token tokptr =>
      have hnone : (next bar (if input.getLast? = some ampersand then input.dropLast
          else input)).1 = none ↔ _ := next_eq_none_iff
      rw [hnext] at hnone
      cases token with
      | none =>
          refine iff_of_true rfl ?_
          have hall := hnone.mp rfl
          cases input with
          | nil => exact absurd rfl hne
          | cons c input =>
              by_cases hbackground : (c :: input).getLast? = some ampersand
              · rw [if_pos hbackground] at hall
                cases input with
                | nil => simpa using hbackground
                | cons d input =>
                    have hc := hall c List.mem_cons_self
                    exact absurd (congrArg some hc) hbar
              · rw [if_neg hbackground] at hall
                exact absurd (congrArg some (hall c List.mem_cons_self)) hbar
      | some token =>
          refine iff_of_false (by rintro ⟨⟩) ?_
          rintro rfl
          cases hnext

/-- The line is taken by none of the commands of the shell. -/
def NotOwn (line : Option (List UInt8)) : Prop :=
  ∀ text ∈ line, ∀ command ∈ shellCommands, ¬ Calls command (trimwhitespace text)

/-- Where no command of the shell takes the line, the shell hands {lit}`trimwhitespace` a NULL
pointer at the end of its input and on a lone ampersand, and nowhere else. -/
theorem shellTurn_crash_iff (env : Environment) {line : Option (List UInt8)}
    (hline : NotOwn line) :
    shellTurn env line = .crash ↔
      ∀ text ∈ line, trimwhitespace text = [ampersand] := by
  cases line with
  | none => simp [shellTurn]
  | some text =>
      have hcommand : shellCommands.find? (Calls · (trimwhitespace text)) = none := by
        rw [List.find?_eq_none]
        intro command hmem hcalls
        exact hline text rfl command hmem (of_decide_eq_true hcalls)
      simp only [shellTurn, Option.mem_some_iff, forall_eq', hcommand]
      by_cases hne : trimwhitespace text = []
      · rw [if_pos hne, hne]
        exact iff_of_false (by rintro ⟨⟩) (by rintro ⟨⟩)
      rw [if_neg hne]
      by_cases hexit : trimwhitespace text = bytes "exit"
      · rw [if_pos hexit, hexit]
        exact iff_of_false (by rintro ⟨⟩) (by decide)
      · rw [if_neg hexit, launchLine_crash_iff env hne]

/-- An ampersand between blanks. -/
theorem shellTurn_crash_ampersand :
    shellTurn ⟨fun _ _ => false, []⟩ (some [blank, ampersand, blank]) = .crash := by
  refine (shellTurn_crash_iff ⟨fun _ _ => false, []⟩ ?_).mpr ?_
  · rintro text ⟨⟩
    decide
  · rintro text ⟨⟩
    decide

/-! ## The pipes of a line -/

/-- A line that launches processes starts the recursion without a pipe. -/
theorem exists_execute_of_launch {env : Environment} {line : Option (List UInt8)}
    {background : Bool} {launch : Launch}
    (h : shellTurn env line = .launch background launch) :
    ∃ token tokptr, launch = execute env 0 none [] token tokptr := by
  cases line with
  | none => cases h
  | some text =>
      simp only [shellTurn] at h
      by_cases hne : trimwhitespace text = []
      · rw [if_pos hne] at h
        cases h
      rw [if_neg hne] at h
      cases hcommand : shellCommands.find? (Calls · (trimwhitespace text)) with
      | some command =>
          rw [hcommand] at h
          cases h
      | none =>
          simp only [hcommand, launchLine] at h
          generalize (if (trimwhitespace text).getLast? = some ampersand then
            (trimwhitespace text).dropLast else trimwhitespace text) = body at h
          split_ifs at h with hexit hhead hlast
          split at h
          · cases h
          · cases h
            exact ⟨_, _, rfl⟩

/-- Whatever the line is, each of its processes reads from the process in front of it and writes
to the one behind it, and holds no write end but that of its own pipe: a process whose program
reads to the end of its input waits for the process in front of it and for no other one. -/
theorem pipes_wired (env : Environment) {line : Option (List UInt8)} {background : Bool}
    {launch : Launch} (h : shellTurn env line = .launch background launch) {k : Nat}
    {child : Child} (hchild : launch.children[k]? = some child) :
    child.inputfd = (if k = 0 then none else some (k - 1)) ∧
      (k + 1 < launch.children.length → child.outputfd = some k) ∧
      ∀ pipe, .write pipe ∈ child.held ↔ child.outputfd = some pipe ∧ pipe = k := by
  obtain ⟨token, tokptr, rfl⟩ := exists_execute_of_launch h
  obtain ⟨hpiped, hlast⟩ := execute_piped env 0 none [] token tokptr k child hchild
  have houtput := hpiped.outputfd
  rw [Nat.zero_add] at houtput
  refine ⟨?_, ?_, ?_⟩
  · rw [hpiped.inputfd, Nat.zero_add]
  · intro hlt
    exact houtput.resolve_left (hlast hlt)
  · intro pipe
    rw [hpiped.writes]
    constructor
    · rintro (hmem | hsome)
      · cases hmem
      · refine ⟨hsome, ?_⟩
        rw [hsome] at houtput
        exact Option.some.inj (houtput.resolve_left (by simp))
    · rintro ⟨hsome, -⟩
      exact Or.inr hsome

/-- The second process of a line reads from the first one and holds no write end. -/
theorem pipes_wired_second :
    let env : Environment := ⟨fun _ _ => false, []⟩
    let pwd : Stage := ⟨.builtin (bytes "pwd"), none, none, false⟩
    let help : Stage := ⟨.builtin (bytes "help"), none, none, false⟩
    let launch : Launch :=
      ⟨[⟨pwd, none, some 0, [.write 0, .read 0]⟩, ⟨help, some 0, none, [.read 0]⟩], .finished⟩
    shellTurn env (some (bytes "pwd | help")) = .launch false launch ∧
      ∃ child, launch.children[1]? = some child ∧ child.inputfd = some 0 ∧
        ∀ pipe, .write pipe ∉ child.held := by
  intro env pwd help launch
  have hlast : execute env 1 (some 0) [.read 0] (trimwhitespace (bytes " help")) [] =
      ⟨[⟨help, some 0, none, [.read 0]⟩], .finished⟩ :=
    execute_last rfl rfl
  have hlaunch : execute env 0 none [] (bytes "pwd") (bytes " help") = launch := by
    rw [@execute_cons env 0 none [] (bytes "pwd") (bytes " help") (bytes " help") [] pwd rfl rfl,
      hlast]
  have hturn : shellTurn env (some (bytes "pwd | help")) = .launch false launch := by
    rw [← hlaunch]
    rfl
  have hchild : launch.children[1]? = some ⟨help, some 0, none, [.read 0]⟩ := rfl
  obtain ⟨hinput, -, hwrites⟩ := pipes_wired env hturn hchild
  refine ⟨hturn, _, hchild, hinput, ?_⟩
  intro pipe hpipe
  cases ((hwrites pipe).mp hpipe).1

end SystemFundamentals.Sfish
