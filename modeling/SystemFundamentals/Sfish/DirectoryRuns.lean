import SystemFundamentals.Sfish.ChangeDirectory

/-!
# Runs of the cd command

Does {lit}`currentDir` stay the working directory, does a command that fails change nothing, and
does {lit}`cd -` return to where the last command started?  A path is walked in two steps, and
the shell updates both pathnames between them.

Main results:

- Theorem {lit}`lawful_path_iff`: when a path argument does what it should.
- Theorem {lit}`turn_lawful_iff`: when one command does.
- Theorem {lit}`Tracked.step`: what such a command keeps.
- Theorem {lit}`lawfulRun_iff`: when all commands of a run do.
-/

namespace SystemFundamentals.Sfish

/-! ## The file system during a run -/

/-- The directory has its pathname. -/
def FileSystem.Keeps (fs : FileSystem) (d : Directory) : Prop :=
  ∀ cwd, fs.chdir cwd d.path = some d

/-- A dot leads to the working directory, and the visited directories exist. -/
structure FileSystem.Stable (fs : FileSystem) (visited : List Directory) : Prop where
  dot : ∀ {cwd new}, fs.chdir cwd [dot] = some new → new = cwd
  keeps : ∀ d ∈ visited, fs.Keeps d

/-- A line for the branch, and the file system that it finds. -/
structure Command where
  fs : FileSystem
  input : List UInt8
  isCd : IsCd input

/-- Every command finds the directories that have been the working directory before it. -/
def Lasting (home : List UInt8) : List Directory → Directories → List Command → Prop
  | _, _, [] => True
  | visited, s, command :: rest => command.fs.Stable visited ∧
      ∀ after, turn command.fs home s command.input = .ok after →
        Lasting home (after.directories.cwd :: visited) after.directories rest

/-! ## What a command should do -/

/-- {lit}`currentDir` is the working directory.  A command that reports an error changes nothing,
and another one sets {lit}`prevDir` to the working directory before it, to which {lit}`cd -`
returns. -/
structure Lawful (home : List UInt8) (before : Directories) (after : Outcome) : Prop where
  current : after.directories.currentDir.text = after.directories.cwd.path
  failed : after.report ≠ none → after.directories = before
  succeeded : after.report = none → after.directories.prevDir.text = before.cwd.path
  returns : after.report = none → ∀ fs : FileSystem, fs.Keeps before.cwd →
    ∃ back, cd fs home after.directories (bytes "cd -") = .ok ⟨back, none⟩ ∧
      back.cwd = before.cwd

/-- Every command of a run does what it should. -/
def LawfulRun (home : List UInt8) : Directories → List Command → Prop
  | _, [] => True
  | s, command :: rest => ∃ after, turn command.fs home s command.input = .ok after ∧
      Lawful home s after ∧ LawfulRun home after.directories rest

/-! ## The commands that do it -/

/-- {lit}`currentDir` is the working directory. -/
def Current (s : Directories) : Prop :=
  s.currentDir.text = s.cwd.path

/-- The directory that the first part of a path names, if it can be entered. -/
def partTarget (fs : FileSystem) (home : List UInt8) (cwd : Directory) (tokinput : List UInt8) :
    Option Directory :=
  if tokinput[0]? = some dot then
    if tokinput[1]? = some dot then fs.chdir cwd [dot, dot] else some cwd
  else if tokinput[0]? = some tilde then fs.chdir cwd home
  else some cwd

/-- What is behind the first part. -/
def partRest (tokinput : List UInt8) : List UInt8 :=
  if tokinput[0]? = some dot ∨ tokinput[0]? = some tilde then skipPart tokinput else tokinput

/-- The paths that are walked as they should be. -/
inductive RegularPath (fs : FileSystem) (home : List UInt8) (s : Directories)
    (tokinput : List UInt8) : Prop
  /-- Nothing is behind the first part, and the directory it leads to has a pathname that fits. -/
  | part (hrest : partRest tokinput = []) (hcurrent : Current s)
      (hfits : ((partTarget fs home s.cwd tokinput).getD s.cwd).path.length < 256)
  /-- The first part stays in the working directory, and the rest leads on. -/
  | onward (new : Directory) (hrest : partRest tokinput ≠ [])
      (hlength : (partRest tokinput).length < 256)
      (hstay : (partTarget fs home s.cwd tokinput).getD s.cwd = s.cwd)
      (hnew : fs.chdir s.cwd (partRest tokinput) = some new)
      (hfits : s.cwd.path.length < 256) (hnewFits : new.path.length < 256)
  /-- The first part stays, the rest leads nowhere, and {lit}`prevDir` is the working directory
  already. -/
  | nowhere (hrest : partRest tokinput ≠ []) (hlength : (partRest tokinput).length < 256)
      (hstay : (partTarget fs home s.cwd tokinput).getD s.cwd = s.cwd)
      (hnone : fs.chdir s.cwd (partRest tokinput) = none)
      (hcurrent : Current s) (hprevious : s.prevDir.text = s.cwd.path)

/-- The arguments that are handled as they should be. -/
inductive RegularArgument (fs : FileSystem) (home : List UInt8) (s : Directories) :
    Option (List UInt8) → Prop
  /-- {lit}`HOME` fits its array and is spelled as {lit}`getcwd` spells it. -/
  | home (hcurrent : Current s) (hlength : home.length < 256)
      (hspelled : (fs.chdir s.cwd home).map Directory.path = some home) :
      RegularArgument fs home s none
  | minus (hcurrent : Current s) : RegularArgument fs home s (some [minus])
  | path {tokinput : List UInt8} (hne : tokinput ≠ [minus])
      (hpath : RegularPath fs home s tokinput) : RegularArgument fs home s (some tokinput)

/-- The prompt fits its array, and the argument is regular. -/
structure Regular (home : List UInt8) (s : Directories) (command : Command) : Prop where
  prompt : (promptText home s.currentDir.text).length < 256
  argument : RegularArgument command.fs home s (argument command.input)

/-- Every command of a run is regular where it is typed. -/
def RegularRun (home : List UInt8) : Directories → List Command → Prop
  | _, [] => True
  | s, command :: rest => Regular home s command ∧
      ∀ after, turn command.fs home s command.input = .ok after →
        RegularRun home after.directories rest

/-- What the commands of a run keep: {lit}`prevDir` has been the working directory, and only in
front of the first command {lit}`currentDir` may be missing. -/
structure Tracked (visited : List Directory) (s : Directories) : Prop where
  here : s.cwd ∈ visited
  previous : s.prevDir.text = [] ∨ ∃ d ∈ visited, s.prevDir.text = d.path
  current : Current s ∨ s.currentDir.text = [] ∧ s.prevDir.text = []

/-! ## One command -/

section Step

variable {fs : FileSystem} {home : List UInt8} {s : Directories} {visited : List Directory}

/-- {lit}`cd -` goes to the directory in {lit}`prevDir`. -/
theorem cd_minus_returns {d : Directory} (hprev : s.prevDir.text = d.path) (hkeeps : fs.Keeps d) :
    ∃ back, cd fs home s (bytes "cd -") = .ok ⟨back, none⟩ ∧ back.cwd = d := by
  have hargument : argument (bytes "cd -") = some [minus] := by decide
  have hne : s.prevDir.text ≠ [] := by
    rw [hprev]
    exact d.path_ne_nil
  have hcwd : fs.enter s.cwd s.prevDir.text = d :=
    FileSystem.enter_of_chdir (hprev ▸ hkeeps s.cwd)
  refine ⟨⟨fs.enter s.cwd s.prevDir.text, s.prevDir, s.currentDir⟩, ?_, hcwd⟩
  simp only [cd, hargument, if_true, cdMinus, if_pos hne]

/-- A command without an error is lawful when both pathnames are right. -/
theorem lawful_success_iff {directories : Directories} :
    Lawful home s ⟨directories, none⟩ ↔
      Current directories ∧ directories.prevDir.text = s.cwd.path := by
  constructor
  · intro h
    exact ⟨h.current, h.succeeded rfl⟩
  · rintro ⟨hcurrent, hprev⟩
    exact ⟨hcurrent, fun hne => absurd rfl hne, fun _ => hprev,
      fun _ _ hkeeps => cd_minus_returns hprev hkeeps⟩

/-- A command with an error is lawful when it changed nothing. -/
theorem lawful_failure_iff {directories : Directories} {text : List UInt8} :
    Lawful home s ⟨directories, some text⟩ ↔ Current s ∧ directories = s := by
  have hsome : (⟨directories, some text⟩ : Outcome).report ≠ none := by simp
  constructor
  · intro h
    have heq : directories = s := h.failed hsome
    exact ⟨heq ▸ h.current, heq⟩
  · rintro ⟨hcurrent, rfl⟩
    exact ⟨hcurrent, fun _ => rfl, fun hnone => absurd hnone hsome,
      fun hnone => absurd hnone hsome⟩

/-- Without an argument the shell takes {lit}`HOME` for the working directory it goes to. -/
theorem lawful_home_iff (hkeeps : fs.Keeps s.cwd) :
    (∃ after, cdHome fs home s = .ok after ∧ Lawful home s after) ↔
      RegularArgument fs home s none := by
  constructor
  · rintro ⟨after, hcd, hlawful⟩
    by_cases hlength : home.length < 256
    · rw [cdHome_of_fits hlength] at hcd
      cases hcd
      obtain ⟨hhome, hprev⟩ := lawful_success_iff.mp hlawful
      have hentered : home = (fs.enter s.cwd home).path := hhome
      refine .home hprev hlength ?_
      cases hchdir : fs.chdir s.cwd home with
      | some new =>
          rw [FileSystem.enter_of_chdir hchdir] at hentered
          exact congrArg some hentered.symm
      | none =>
          -- a home that cannot be entered is not the pathname of the working directory
          rw [FileSystem.enter, hchdir] at hentered
          have hself := hkeeps s.cwd
          rw [← show home = s.cwd.path from hentered, hchdir] at hself
          cases hself
    · rw [cdHome_overflow hlength] at hcd
      cases hcd
  · intro h
    cases h with
    | home hcurrent hlength hspelled =>
        obtain ⟨new, hnew, hpath⟩ := Option.map_eq_some_iff.mp hspelled
        have hhome : home = (fs.enter s.cwd home).path := by
          rw [FileSystem.enter_of_chdir hnew]
          exact hpath.symm
        exact ⟨_, cdHome_of_fits hlength, lawful_success_iff.mpr ⟨hhome, hcurrent⟩⟩

/-- {lit}`cd -` goes back to a directory that still exists. -/
theorem lawful_minus_iff (htracked : Tracked visited s) (hfs : fs.Stable visited) :
    Lawful home s (cdMinus fs s) ↔ Current s := by
  unfold cdMinus
  by_cases hprev : s.prevDir.text = []
  · rw [if_neg (not_not.mpr hprev), lawful_failure_iff]
    exact and_iff_left rfl
  · rw [if_pos hprev, lawful_success_iff]
    rcases htracked.previous with hnone | ⟨d, hd, hpath⟩
    · exact absurd hnone hprev
    · have hcwd : fs.enter s.cwd s.prevDir.text = d :=
        FileSystem.enter_of_chdir (hpath ▸ hfs.keeps d hd s.cwd)
      rw [hcwd]
      exact and_iff_right hpath

/-- The two calls of {lit}`chdir` for the first part. -/
theorem firstPart_eq (hfs : fs.Stable visited) (tokinput : List UInt8) :
    firstPart fs home s.cwd tokinput =
      ((partTarget fs home s.cwd tokinput).getD s.cwd, partRest tokinput) := by
  have hdot : fs.enter s.cwd [dot] = s.cwd := by
    unfold FileSystem.enter
    cases hchdir : fs.chdir s.cwd [dot] with
    | none => rfl
    | some new => exact hfs.dot hchdir
  have htilde : ¬ tilde = dot := by decide
  unfold firstPart partTarget partRest
  by_cases hhead : tokinput[0]? = some dot
  · simp only [hhead, if_true, true_or, hdot]
    split_ifs <;> rfl
  · by_cases hhome : tokinput[0]? = some tilde
    · simp [hhome, htilde, FileSystem.enter]
    · simp [hhead, hhome]

/-- A pathname that is in its array fits it. -/
theorem getcwd_of_current (h : Current s) : getcwd 256 s.cwd = s.currentDir := by
  have hfits : s.cwd.path.length < 256 := by
    rw [← h]
    exact s.currentDir.fits
  exact PathBuffer.text_injective ((getcwd_text_iff.mpr ⟨rfl, hfits, hfits⟩).trans h.symm)

/-- A path is walked as it should be if and only if it is regular. -/
theorem lawful_path_iff (hfs : fs.Stable visited) (tokinput : List UInt8) :
    (∃ after, cdPath fs home s tokinput = .ok after ∧ Lawful home s after) ↔
      RegularPath fs home s tokinput := by
  have hfirst : firstPart fs home s.cwd tokinput = _ := firstPart_eq hfs tokinput
  constructor
  · rintro ⟨after, hcd, hlawful⟩
    by_cases hrest : partRest tokinput = []
    · rw [hrest] at hfirst
      rw [cdPath_part hfirst] at hcd
      cases hcd
      obtain ⟨hcurrent, hprev⟩ := lawful_success_iff.mp hlawful
      exact .part hrest hprev (getcwd_text_iff.mp hcurrent).2.1
    by_cases hlength : (partRest tokinput).length < 256
    · cases hchdir : fs.chdir ((partTarget fs home s.cwd tokinput).getD s.cwd)
          (partRest tokinput) with
      | some new =>
          rw [cdPath_onward hfirst hrest hlength hchdir] at hcd
          cases hcd
          obtain ⟨hcurrent, hprev⟩ := lawful_success_iff.mp hlawful
          obtain ⟨hstay, hfits, -⟩ := getcwd_text_iff.mp hprev
          rw [hstay] at hchdir hfits
          exact .onward new hrest hlength hstay hchdir hfits (getcwd_text_iff.mp hcurrent).2.1
      | none =>
          rw [cdPath_nowhere hfirst hrest hlength hchdir] at hcd
          cases hcd
          obtain ⟨hcurrent, hsame⟩ := lawful_failure_iff.mp hlawful
          have hstay : (partTarget fs home s.cwd tokinput).getD s.cwd = s.cwd :=
            congrArg Directories.cwd hsame
          have hprev : s.currentDir = s.prevDir := congrArg Directories.prevDir hsame
          rw [hstay] at hchdir
          exact .nowhere hrest hlength hstay hchdir hcurrent (hprev ▸ hcurrent)
    · rw [cdPath_overflow hfirst hrest hlength] at hcd
      cases hcd
  · intro h
    cases h with
    | part hrest hcurrent hfits =>
        rw [hrest] at hfirst
        exact ⟨_, cdPath_part hfirst, lawful_success_iff.mpr
          ⟨getcwd_text_iff.mpr ⟨rfl, hfits, hfits⟩, hcurrent⟩⟩
    | onward new hrest hlength hstay hnew hfits hnewFits =>
        rw [hstay] at hfirst
        exact ⟨_, cdPath_onward hfirst hrest hlength hnew, lawful_success_iff.mpr
          ⟨getcwd_text_iff.mpr ⟨rfl, hnewFits, hnewFits⟩,
            getcwd_text_iff.mpr ⟨rfl, hfits, hfits⟩⟩⟩
    | nowhere hrest hlength hstay hnone hcurrent hprevious =>
        rw [hstay] at hfirst
        have hprev : s.currentDir = s.prevDir :=
          PathBuffer.text_injective (hcurrent.trans hprevious.symm)
        have hsame : (⟨s.cwd, getcwd 256 s.cwd, s.currentDir⟩ : Directories) = s := by
          rw [getcwd_of_current hcurrent]
          exact congrArg (Directories.mk s.cwd s.currentDir) hprev
        exact ⟨_, cdPath_nowhere hfirst hrest hlength hnone,
          lawful_failure_iff.mpr ⟨hcurrent, hsame⟩⟩

theorem regularArgument_minus_iff :
    RegularArgument fs home s (some [minus]) ↔ Current s := by
  constructor
  · intro h
    cases h with
    | minus hcurrent => exact hcurrent
    | path hne _ => exact absurd rfl hne
  · exact .minus

theorem regularArgument_path_iff {tokinput : List UInt8} (hne : tokinput ≠ [minus]) :
    RegularArgument fs home s (some tokinput) ↔ RegularPath fs home s tokinput := by
  constructor
  · intro h
    cases h with
    | minus => exact absurd rfl hne
    | path _ hpath => exact hpath
  · exact .path hne

/-- The branch does what it should if and only if its argument is regular. -/
theorem cd_argument_iff (htracked : Tracked visited s) (hfs : fs.Stable visited)
    (input : List UInt8) :
    (∃ after, cd fs home s input = .ok after ∧ Lawful home s after) ↔
      RegularArgument fs home s (argument input) := by
  unfold cd
  cases argument input with
  | none => exact lawful_home_iff (hfs.keeps s.cwd htracked.here)
  | some tokinput =>
      by_cases hminus : tokinput = [minus]
      · subst hminus
        simp only [if_true]
        rw [regularArgument_minus_iff, ← lawful_minus_iff htracked hfs]
        constructor
        · rintro ⟨after, hcd, hlawful⟩
          cases hcd
          exact hlawful
        · intro hlawful
          exact ⟨_, rfl, hlawful⟩
      · simp only [if_neg hminus]
        rw [regularArgument_path_iff hminus]
        exact lawful_path_iff hfs tokinput

/-- A command does what it should if and only if it is regular. -/
theorem turn_lawful_iff {command : Command} (htracked : Tracked visited s)
    (hfs : command.fs.Stable visited) :
    (∃ after, turn command.fs home s command.input = .ok after ∧ Lawful home s after) ↔
      Regular home s command := by
  have hcommand : _ ↔ RegularArgument command.fs home s (argument command.input) :=
    cd_argument_iff htracked hfs command.input
  by_cases hprompt : (promptText home s.currentDir.text).length < 256
  · rw [turn_of_fits hprompt, hcommand]
    constructor
    · intro h
      exact ⟨hprompt, h⟩
    · intro h
      exact h.argument
  · rw [turn_overflow hprompt]
    constructor
    · rintro ⟨after, hturn, -⟩
      cases hturn
    · intro h
      exact absurd h.prompt hprompt

/-- A command that does what it should keeps both pathnames those of visited directories. -/
theorem Tracked.step (h : Tracked visited s) {after : Outcome} (hlawful : Lawful home s after) :
    Tracked (after.directories.cwd :: visited) after.directories := by
  refine ⟨List.mem_cons_self, ?_, Or.inl hlawful.current⟩
  cases hreport : after.report with
  | none =>
      exact Or.inr ⟨s.cwd, List.mem_cons_of_mem _ h.here, hlawful.succeeded hreport⟩
  | some text =>
      have hsame : after.directories = s := hlawful.failed (by simp [hreport])
      rw [hsame]
      refine h.previous.imp_right ?_
      rintro ⟨d, hd, hpath⟩
      exact ⟨d, List.mem_cons_of_mem _ hd, hpath⟩

end Step

/-! ## All commands of a run -/

/-- From a tracked state, every command of a run does what it should if and only if every command
is regular. -/
theorem lawfulRun_iff {home : List UInt8} {visited : List Directory} {s : Directories}
    (htracked : Tracked visited s) {commands : List Command}
    (hlasting : Lasting home visited s commands) :
    LawfulRun home s commands ↔ RegularRun home s commands := by
  induction commands generalizing visited s with
  | nil => exact Iff.rfl
  | cons command rest ih =>
      obtain ⟨hfs, hnext⟩ := hlasting
      have hstep : _ ↔ Regular home s command := turn_lawful_iff htracked hfs
      constructor
      · rintro ⟨after, hturn, hlawful, hrest⟩
        refine ⟨hstep.mp ⟨after, hturn, hlawful⟩, ?_⟩
        intro after' hturn'
        rw [hturn] at hturn'
        cases hturn'
        exact (ih (htracked.step hlawful) (hnext after hturn)).mp hrest
      · rintro ⟨hregular, hrest⟩
        obtain ⟨after, hturn, hlawful⟩ := hstep.mpr hregular
        exact ⟨after, hturn, hlawful,
          (ih (htracked.step hlawful) (hnext after hturn)).mpr (hrest after hturn)⟩

theorem tracked_start (cwd : Directory) : Tracked [cwd] (.start cwd) := by
  refine ⟨List.mem_cons_self, Or.inl rfl, ?_⟩
  show (getcwd _ cwd).text = cwd.path ∨ (getcwd _ cwd).text = [] ∧ _
  unfold getcwd
  split_ifs
  · exact Or.inl rfl
  · exact Or.inr ⟨rfl, rfl⟩

/-- In a run from the start of the shell, every command does what it should if and only if every
command is regular. -/
theorem cd_lawful_iff {home : List UInt8} {cwd : Directory} {commands : List Command}
    (hlasting : Lasting home [cwd] (.start cwd) commands) :
    LawfulRun home (.start cwd) commands ↔ RegularRun home (.start cwd) commands :=
  lawfulRun_iff (tracked_start cwd) hlasting

/-- The root directory. -/
def root : Directory := ⟨[slash], rfl⟩

/-- The other directory of the file system below. -/
def tmp : Directory := ⟨bytes "/tmp", by decide⟩

/-- A file system with two directories. -/
def twoDirectories : FileSystem where
  chdir cwd path :=
    if path = [dot] then some cwd
    else if path = [dot, dot] ∨ path = [slash] then some root
    else if path = bytes "/tmp" ∨ path = bytes "tmp" ∧ cwd = root then some tmp
    else none

theorem twoDirectories_stable {visited : List Directory}
    (h : ∀ d ∈ visited, d = root ∨ d = tmp) : twoDirectories.Stable visited := by
  refine ⟨fun h => (Option.some.inj h).symm, ?_⟩
  intro d hd cwd
  obtain rfl | rfl := h d hd
  · rfl
  · have hdot : tmp.path ≠ [dot] := by decide
    have hup : ¬ (tmp.path = [dot, dot] ∨ tmp.path = [slash]) := by decide
    simp only [twoDirectories]
    have htmp : tmp.path = bytes "/tmp" := rfl
    rw [if_neg hdot, if_neg hup, if_pos (Or.inl htmp)]

theorem isCd_tmp : IsCd (bytes "cd /tmp") := by decide

theorem isCd_minus : IsCd (bytes "cd -") := by decide

/-- {lit}`cd /tmp` in the root directory, and {lit}`cd -` back. -/
theorem cd_lawful_back : LawfulRun [slash] (.start root)
    [⟨twoDirectories, bytes "cd /tmp", isCd_tmp⟩, ⟨twoDirectories, bytes "cd -", isCd_minus⟩] := by
  have hfirst : turn twoDirectories [slash] (.start root) (bytes "cd /tmp") =
      .ok ⟨⟨tmp, getcwd 256 tmp, getcwd 256 root⟩, none⟩ := by decide +kernel
  have hlasting : Lasting [slash] [root] (.start root)
      [⟨twoDirectories, bytes "cd /tmp", isCd_tmp⟩,
        ⟨twoDirectories, bytes "cd -", isCd_minus⟩] := by
    refine ⟨twoDirectories_stable (by simp), ?_⟩
    intro after hturn
    rw [hfirst] at hturn
    cases hturn
    exact ⟨twoDirectories_stable (by simp), fun _ _ => trivial⟩
  have hpath : RegularPath twoDirectories [slash] (.start root) (bytes "/tmp") :=
    .onward tmp (by decide) (by decide) (by decide) (by decide +kernel) (by decide) (by decide)
  refine (cd_lawful_iff hlasting).mpr ⟨⟨by decide, .path (by decide) hpath⟩, ?_⟩
  intro after hturn
  rw [hfirst] at hturn
  cases hturn
  exact ⟨⟨by decide, .minus rfl⟩, fun _ _ => trivial⟩

/-- {lit}`cd x` without a directory {lit}`x` prints an error and sets {lit}`prevDir`. -/
theorem not_cd_lawful_missing : ¬ ∀ (home : List UInt8) (cwd : Directory)
    (commands : List Command), Lasting home [cwd] (.start cwd) commands →
      (∀ command ∈ commands, ∃ new, command.fs.chdir cwd home = some new) →
      LawfulRun home (.start cwd) commands := by
  intro hall
  have hturn : turn twoDirectories [slash] (.start root) (bytes "cd x") =
      .ok ⟨⟨root, getcwd 256 root, getcwd 256 root⟩, some (builtinError
        (bytes "cd: there was a problem going to directory x\n"))⟩ := by decide +kernel
  obtain ⟨after, hafter, hlawful, -⟩ := hall [slash] root
    [⟨twoDirectories, bytes "cd x", by decide⟩]
    ⟨twoDirectories_stable (by simp), fun _ _ => trivial⟩
    (List.forall_mem_singleton.mpr ⟨root, rfl⟩)
  rw [hturn] at hafter
  cases hafter
  have hsame := congrArg (fun directories => directories.prevDir.text) (hlawful.failed (by simp))
  exact absurd hsame (by decide)

end SystemFundamentals.Sfish
