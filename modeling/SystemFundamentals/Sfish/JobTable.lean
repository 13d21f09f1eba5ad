import SystemFundamentals.Library.Transition
import Mathlib.Data.List.Nodup

/-!
# The job table of the shell

The list {lit}`joblist` of {lit}`hw4/src/main.c` and the three places that take a
job out of it: the handler of {lit}`SIGCHLD`, the {lit}`kill` command and the
sweep at the end of every turn of the main loop.  The children of the shell exit,
stop and continue between any two of its steps.

The model follows the source between two system calls.  What {lit}`waitpid` and
{lit}`kill` do to the children is stated on a table of processes: each exit and
each stop of a child is reported once, and {lit}`kill(pid, 0)` fails only when
every child with that number has been reaped.  A signal {lit}`SIGKILL` cannot be
held off, but the process may still be there for a while.

Launches start a process, and a signal that ends the shell ends the run.  After a
removal the sweep goes on at the {lit}`next` of the freed entry, which is read as
it was.

Main results:

- Theorem {lit}`Moves.advance`: a step starts a process with a new entry, or it
  moves the processes on and adds no entry.
- Theorem {lit}`consistent_reachable`: entries belong to their leading processes,
  and no two unreaped children share a process number.
-/

namespace SystemFundamentals.Sfish

open Library

/-! ## Processes -/

/-- What {lit}`waitpid` reports with {lit}`WUNTRACED`. -/
inductive Change
  | stopped
  | ended
deriving DecidableEq

/-- Killed is a process that has been sent {lit}`SIGKILL`. -/
inductive Condition
  | running
  | stopped
  | killed
  | ended
deriving DecidableEq

/-- A child of the shell, with the changes that {lit}`waitpid` has not reported
yet. -/
structure Process where
  pid : Int
  condition : Condition
  unreported : List Change
  reaped : Bool
deriving DecidableEq

/-- The process has exited or been killed. -/
def Process.Over (process : Process) : Prop :=
  process.condition = .killed ∨ process.condition = .ended

/-- The process exits, or a signal ends it. -/
def Process.finish (process : Process) : Process :=
  { process with condition := .ended, unreported := process.unreported ++ [.ended] }

/-- A signal stops the process. -/
def Process.stop (process : Process) : Process :=
  { process with condition := .stopped, unreported := process.unreported ++ [.stopped] }

/-- {lit}`SIGCONT`. -/
def Process.resume (process : Process) : Process :=
  if process.condition = .stopped then { process with condition := .running } else process

/-- {lit}`SIGKILL`. -/
def Process.kill (process : Process) : Process :=
  if process.condition = .ended then process else { process with condition := .killed }

/-- {lit}`waitpid` takes a report; that of the end reaps the process. -/
def Process.report (process : Process) (change : Change) (rest : List Change) : Process :=
  { process with unreported := rest, reaped := process.reaped || change == .ended }

/-- A signal to the unreaped child with a process number. -/
def signal (pid : Int) (effect : Process → Process) (processes : List Process) : List Process :=
  processes.map fun process =>
    if process.pid = pid ∧ process.reaped = false then effect process else process

/-! ## The shell -/

/-- An entry of {lit}`joblist`.  {lit}`leader` is not in the source: it tells
which process the entry was made for, also when its number is used again. -/
structure JobStruct where
  leader : Nat
  execname : String
  pid : Int
  stopped : Bool
deriving DecidableEq

/-- Where the shell is: in {lit}`readline`, in the loop around
{lit}`sigsuspend`, or in the sweep, before and after {lit}`kill(job->pid, 0)` for
the job at a position of the list. -/
inductive Phase
  | prompt
  | suspended
  | sweeping (position : Nat)
  | found (position : Nat)
deriving DecidableEq

/-- The children and the globals of the shell. -/
structure Shell where
  processes : List Process
  joblist : List JobStruct
  childpid : Int
  pid : Int
  status : Change
  phase : Phase
deriving DecidableEq

/-- The shell when {lit}`main` enters its loop; a zero {lit}`status` is that of an
exit. -/
def Shell.start : Shell :=
  ⟨[], [], 0, 0, .ended, .prompt⟩

/-- The argument of the {lit}`kill` command: {lit}`%n` or a process number. -/
inductive Target
  | job (n : Nat)
  | process (pid : Nat)
deriving DecidableEq

/-- The search of {lit}`fg` and {lit}`kill` for the job with number {lit}`n`. -/
def searchJob (n : Nat) : Nat → List JobStruct → Option JobStruct
  | _, [] => none
  | i, job :: rest => if i = n then some job else searchJob n (i + 1) rest

/-- What {lit}`jobs` prints. -/
def printJobs : Nat → List JobStruct → List (Nat × String)
  | _, [] => []
  | i, job :: rest => (i, job.execname) :: printJobs (i + 1) rest

/-- The job the {lit}`kill` command finds. -/
def Target.find (joblist : List JobStruct) : Target → Option JobStruct
  | .job n => searchJob n 1 joblist
  | .process pid => joblist.find? fun job => job.pid = pid

/-- The process number the {lit}`kill` command uses without a job. -/
def Target.number : Target → Int
  | .job n => n
  | .process pid => pid

/-- The removal of an entry from the list. -/
def unlink (job : JobStruct) (joblist : List JobStruct) : List JobStruct :=
  joblist.eraseP fun other => other.leader = job.leader

/-- {lit}`job->stopped = 1`. -/
def markStopped (job : JobStruct) (joblist : List JobStruct) : List JobStruct :=
  joblist.map fun other =>
    if other.leader = job.leader then { other with stopped := true } else other

/-- {lit}`sigchld_handler_shell` behind its {lit}`waitpid`. -/
def Shell.sigchld (s : Shell) : Shell :=
  match s.joblist.find? fun job => job.pid = s.pid with
  | none => s
  | some job =>
      if s.status = .stopped then { s with joblist := markStopped job s.joblist }
      else { s with joblist := unlink job s.joblist }

/-- What happens to a child, what is typed at the prompt, and the steps the shell
takes by itself. -/
inductive Event
  | finish (p : Nat)
  | stop (p : Nat)
  | cont (p : Nat)
  | launch (pid : Int) (execname : String) (background : Bool)
  | fg (n : Nat)
  | kill (target : Target)
  | command
  | sigchld
  | waited
  | probe
  | reap (p : Nat)
  | noReport
deriving DecidableEq

/-- The steps of the shell and its children.  At the prompt {lit}`SIGCHLD` is
blocked, and so it is in the sweep; the handler runs in {lit}`sigsuspend` only,
where its {lit}`waitpid` waits for {lit}`childpid`. -/
inductive Moves : Shell → Event → Shell → Prop
  | finish {s : Shell} {p : Nat} {process : Process} : s.processes[p]? = some process →
      process.condition ≠ .ended →
      Moves s (.finish p) { s with processes := s.processes.set p process.finish }
  | stop {s : Shell} {p : Nat} {process : Process} : s.processes[p]? = some process →
      process.condition = .running →
      Moves s (.stop p) { s with processes := s.processes.set p process.stop }
  | cont {s : Shell} {p : Nat} {process : Process} : s.processes[p]? = some process →
      Moves s (.cont p) { s with processes := s.processes.set p process.resume }
  | launch {s : Shell} {pid : Int} {execname : String} {background : Bool} :
      s.phase = .prompt → 0 < pid →
      (∀ process ∈ s.processes, process.reaped = false → process.pid ≠ pid) →
      Moves s (.launch pid execname background)
        { s with
          processes := s.processes ++ [⟨pid, .running, [], false⟩]
          joblist := s.joblist ++ [⟨s.processes.length, execname, pid, false⟩]
          childpid := pid
          pid := 0
          phase := if background then .sweeping 0 else .suspended }
  | fg {s : Shell} {n : Nat} {job : JobStruct} : s.phase = .prompt →
      searchJob n 1 s.joblist = some job →
      Moves s (.fg n)
        { s with
          processes := if job.stopped then signal job.pid .resume s.processes else s.processes
          childpid := job.pid
          pid := 0
          phase := .suspended }
  | fgMissing {s : Shell} {n : Nat} : s.phase = .prompt → searchJob n 1 s.joblist = none →
      Moves s (.fg n) { s with phase := .sweeping 0 }
  | kill {s : Shell} {target : Target} {job : JobStruct} : s.phase = .prompt →
      target.find s.joblist = some job →
      Moves s (.kill target)
        { s with
          processes := signal job.pid .kill s.processes
          joblist := unlink job s.joblist
          phase := .sweeping 0 }
  /-- A number without a job.  The number 0 stands for the process group of the shell, which
  ends with that signal, and so does the run. -/
  | killProcess {s : Shell} {target : Target} : s.phase = .prompt →
      target.find s.joblist = none → 0 < target.number →
      Moves s (.kill target)
        { s with
          processes := signal target.number .kill s.processes
          phase := .sweeping 0 }
  | killFails {s : Shell} {target : Target} : s.phase = .prompt →
      Moves s (.kill target) { s with phase := .sweeping 0 }
  | command {s : Shell} : s.phase = .prompt → Moves s .command { s with phase := .sweeping 0 }
  | sigchld {s : Shell} {p : Nat} {process : Process} {change : Change} {rest : List Change} :
      s.phase = .suspended → s.childpid ≠ s.pid → s.processes[p]? = some process →
      process.reaped = false → process.pid = s.childpid → process.unreported = change :: rest →
      Moves s .sigchld
        { s with
          processes := s.processes.set p (process.report change rest)
          pid := process.pid
          status := change : Shell }.sigchld
  | sigchldFails {s : Shell} : s.phase = .suspended → s.childpid ≠ s.pid →
      (∀ process ∈ s.processes, process.reaped = false → process.pid ≠ s.childpid) →
      Moves s .sigchld { s with pid := -1 : Shell }.sigchld
  | waited {s : Shell} : s.phase = .suspended → s.childpid = s.pid →
      Moves s .waited { s with phase := .sweeping 0 }
  | probe {s : Shell} {k : Nat} {job : JobStruct} : s.phase = .sweeping k →
      s.joblist[k]? = some job →
      Moves s .probe { s with phase := .found k }
  | probeFails {s : Shell} {k : Nat} {job : JobStruct} : s.phase = .sweeping k →
      s.joblist[k]? = some job →
      (∀ process ∈ s.processes, process.reaped = false → process.pid ≠ job.pid) →
      Moves s .probe { s with joblist := unlink job s.joblist, phase := .sweeping k }
  | probeEnd {s : Shell} {k : Nat} : s.phase = .sweeping k → s.joblist[k]? = none →
      Moves s .probe { s with phase := .prompt }
  | reap {s : Shell} {p k : Nat} {job : JobStruct} {process : Process} {change : Change}
      {rest : List Change} : s.phase = .found k → s.joblist[k]? = some job →
      s.processes[p]? = some process → process.reaped = false →
      process.unreported = change :: rest →
      Moves s (.reap p)
        { s with
          processes := s.processes.set p (process.report change rest)
          joblist := if process.pid = job.pid then unlink job s.joblist else s.joblist
          status := change
          phase := .sweeping (if process.pid = job.pid then k else k + 1) }
  | noReport {s : Shell} {k : Nat} : s.phase = .found k →
      (∀ process ∈ s.processes, process.reaped = false → process.unreported = []) →
      Moves s .noReport { s with phase := .sweeping (k + 1) }

/-- The shell and its children. -/
def shellSystem : System Shell Event where
  initial s := s = .start
  step := Moves

/-! ## What a step does to the processes -/

/-- A process that has been reaped or whose end is still to be reported has
ended. -/
def Process.Sound (process : Process) : Prop :=
  process.reaped = true ∨ .ended ∈ process.unreported → process.condition = .ended

/-- A process at two moments of a run. -/
structure Later (a b : Process) : Prop where
  pid : b.pid = a.pid
  stillOver : a.Over → b.Over
  reaped : a.reaped = true → b.reaped = true
  sound : a.Sound → b.Sound

/-- The same processes at two moments of a run. -/
def Advance (processes processes' : List Process) : Prop :=
  ∀ p : Nat, Option.Rel Later processes[p]? processes'[p]?

theorem Later.refl (a : Process) : Later a a :=
  ⟨rfl, id, id, id⟩

theorem later_finish (a : Process) : Later a a.finish where
  pid := rfl
  stillOver _ := Or.inr rfl
  reaped := id
  sound _ _ := rfl

theorem later_stop {a : Process} (h : a.condition = .running) : Later a a.stop where
  pid := rfl
  stillOver hover := by simp [Process.Over, h] at hover
  reaped := id
  sound hsound hended := by
    have hcondition := hsound (by simpa [Process.stop] using hended)
    rw [h] at hcondition
    cases hcondition

theorem later_resume (a : Process) : Later a a.resume := by
  unfold Process.resume
  split_ifs with h
  · refine ⟨rfl, ?_, id, ?_⟩
    · rintro (hover | hover) <;> simp [h] at hover
    · intro hsound hended
      have hcondition := hsound hended
      rw [h] at hcondition
      cases hcondition
  · exact Later.refl a

theorem later_kill (a : Process) : Later a a.kill := by
  unfold Process.kill
  split_ifs with h
  · exact Later.refl a
  · exact ⟨rfl, fun _ => Or.inl rfl, id, fun hsound hended => absurd (hsound hended) h⟩

theorem later_report {a : Process} {change : Change} {rest : List Change}
    (h : a.unreported = change :: rest) : Later a (a.report change rest) where
  pid := rfl
  stillOver := id
  reaped hreaped := by simp [Process.report, hreaped]
  sound hsound hended := by
    apply hsound
    rw [h, List.mem_cons]
    simp only [Process.report, Bool.or_eq_true, beq_iff_eq] at hended
    rcases hended with (hreaped | hchange) | hrest
    · exact Or.inl hreaped
    · exact Or.inr (Or.inl hchange.symm)
    · exact Or.inr (Or.inr hrest)

theorem Process.kill_over (a : Process) : a.kill.Over := by
  unfold Process.kill
  split_ifs with h
  · exact Or.inr h
  · exact Or.inl rfl

theorem Advance.refl (processes : List Process) : Advance processes processes := by
  intro p
  cases processes[p]? with
  | none => exact .none
  | some a => exact .some (Later.refl a)

theorem advance_set {processes : List Process} {p : Nat} {a b : Process}
    (ha : processes[p]? = some a) (h : Later a b) : Advance processes (processes.set p b) := by
  intro q
  by_cases hq : p = q
  · subst hq
    rw [List.getElem?_set_self', ha]
    exact .some h
  · rw [List.getElem?_set_ne hq]
    exact Advance.refl processes q

theorem advance_signal {effect : Process → Process} (heffect : ∀ a, Later a (effect a))
    (pid : Int) (processes : List Process) : Advance processes (signal pid effect processes) := by
  intro p
  rw [signal, List.getElem?_map]
  cases processes[p]? with
  | none => exact .none
  | some a =>
      apply Option.Rel.some
      dsimp only
      split_ifs
      · exact heffect a
      · exact Later.refl a

theorem Advance.forward {processes processes' : List Process} (h : Advance processes processes')
    {p : Nat} {a : Process} (ha : processes[p]? = some a) :
    ∃ b, processes'[p]? = some b ∧ Later a b := by
  have hp := h p
  rw [ha] at hp
  generalize processes'[p]? = found at hp
  cases hp with
  | some hlater => exact ⟨_, rfl, hlater⟩

theorem Advance.backward {processes processes' : List Process} (h : Advance processes processes')
    {p : Nat} {b : Process} (hb : processes'[p]? = some b) :
    ∃ a, processes[p]? = some a ∧ Later a b := by
  have hp := h p
  rw [hb] at hp
  generalize processes[p]? = found at hp
  cases hp with
  | some hlater => exact ⟨_, rfl, hlater⟩

/-! ## What a step does to the list -/

/-- The process an entry was made for, and its number. -/
def identity (job : JobStruct) : Nat × Int :=
  (job.leader, job.pid)

theorem unlink_sublist (job : JobStruct) (joblist : List JobStruct) :
    ((unlink job joblist).map identity).Sublist (joblist.map identity) :=
  List.eraseP_sublist.map _

theorem markStopped_identity (job : JobStruct) (joblist : List JobStruct) :
    (markStopped job joblist).map identity = joblist.map identity := by
  rw [markStopped, List.map_map]
  apply List.map_congr_left
  intro other _
  simp only [Function.comp_apply]
  split_ifs <;> rfl

theorem mem_unlink {job other : JobStruct} {joblist : List JobStruct}
    (hother : other ∈ joblist) (hne : other.leader ≠ job.leader) : other ∈ unlink job joblist :=
  (List.mem_eraseP_of_neg (by simpa using hne)).mpr hother

@[simp] theorem Shell.sigchld_processes (s : Shell) : s.sigchld.processes = s.processes := by
  unfold Shell.sigchld
  split
  · rfl
  · split_ifs <;> rfl

theorem Shell.sigchld_sublist (s : Shell) :
    (s.sigchld.joblist.map identity).Sublist (s.joblist.map identity) := by
  unfold Shell.sigchld
  split
  · exact List.Sublist.refl _
  · split_ifs
    · exact (markStopped_identity _ _).symm ▸ List.Sublist.refl _
    · exact unlink_sublist _ _

/-! ## The invariant -/

/-- The entries belong to their processes, and a process number means one
unreaped child. -/
structure Consistent (s : Shell) : Prop where
  leaders : ∀ job ∈ s.joblist, ∃ process, s.processes[job.leader]? = some process ∧
    process.pid = job.pid
  distinct : (s.joblist.map JobStruct.leader).Nodup
  numbers : ∀ {p q : Nat} {a b : Process}, s.processes[p]? = some a → s.processes[q]? = some b →
    a.reaped = false → b.reaped = false → a.pid = b.pid → p = q
  positive : ∀ {p : Nat} {a : Process}, s.processes[p]? = some a → 0 < a.pid
  sound : ∀ {p : Nat} {a : Process}, s.processes[p]? = some a → a.Sound

/-- A step that starts no process and adds no entry keeps the invariant. -/
theorem Consistent.advance {s t : Shell} (h : Consistent s)
    (hprocesses : Advance s.processes t.processes)
    (hjobs : (t.joblist.map identity).Sublist (s.joblist.map identity)) : Consistent t where
  leaders := by
    intro job hjob
    obtain ⟨job', hjob', hidentity⟩ :=
      List.mem_map.mp (hjobs.subset (List.mem_map_of_mem hjob))
    obtain ⟨hleader, hpid⟩ := Prod.mk.inj hidentity
    obtain ⟨process, hprocess, hnumber⟩ := h.leaders job' hjob'
    obtain ⟨process', hprocess', hlater⟩ := hprocesses.forward hprocess
    exact ⟨process', hleader ▸ hprocess', hlater.pid.trans (hnumber.trans hpid)⟩
  distinct := by
    have hleaders : ∀ joblist : List JobStruct, joblist.map JobStruct.leader =
        (joblist.map identity).map Prod.fst := fun joblist => by
      simp [identity]
    have hdistinct := h.distinct
    rw [hleaders] at hdistinct ⊢
    exact hdistinct.sublist (hjobs.map _)
  numbers := by
    intro p q a b ha hb hreaped hreaped' hpid
    obtain ⟨a', ha', hlater⟩ := hprocesses.backward ha
    obtain ⟨b', hb', hlater'⟩ := hprocesses.backward hb
    have hunreaped {c c' : Process} (hlater : Later c' c) (hc : c.reaped = false) :
        c'.reaped = false := by
      rw [← Bool.not_eq_true] at hc ⊢
      exact fun h => hc (hlater.reaped h)
    exact h.numbers ha' hb' (hunreaped hlater hreaped) (hunreaped hlater' hreaped')
      (by rw [← hlater.pid, ← hlater'.pid, hpid])
  positive := by
    intro p a ha
    obtain ⟨a', ha', hlater⟩ := hprocesses.backward ha
    exact hlater.pid ▸ h.positive ha'
  sound := by
    intro p a ha
    obtain ⟨a', ha', hlater⟩ := hprocesses.backward ha
    exact hlater.sound (h.sound ha')

/-- A new process has a number of its own, and its entry is at the end of the
list. -/
theorem Consistent.launch {s t : Shell} (h : Consistent s) {pid : Int} {execname : String}
    (hpid : 0 < pid)
    (hfresh : ∀ process ∈ s.processes, process.reaped = false → process.pid ≠ pid)
    (hprocesses : t.processes = s.processes ++ [⟨pid, .running, [], false⟩])
    (hjobs : t.joblist = s.joblist ++ [⟨s.processes.length, execname, pid, false⟩]) :
    Consistent t := by
  have hcases {p : Nat} {a : Process} (ha : t.processes[p]? = some a) :
      s.processes[p]? = some a ∨ p = s.processes.length ∧ a = ⟨pid, .running, [], false⟩ := by
    rw [hprocesses, List.getElem?_append] at ha
    split_ifs at ha with hp
    · exact Or.inl ha
    · obtain ⟨hindex, rfl⟩ := List.getElem?_eq_some_iff.mp ha
      rw [List.length_singleton] at hindex
      exact Or.inr ⟨by omega, by simp⟩
  have hkept {p : Nat} {a : Process} (ha : s.processes[p]? = some a) :
      t.processes[p]? = some a := by
    obtain ⟨hlt, -⟩ := List.getElem?_eq_some_iff.mp ha
    rw [hprocesses, List.getElem?_append_left hlt, ha]
  have hnew : t.processes[s.processes.length]? = some ⟨pid, .running, [], false⟩ := by
    rw [hprocesses, List.getElem?_concat_length]
  constructor
  case leaders =>
    intro job hjob
    rw [hjobs, List.mem_append, List.mem_singleton] at hjob
    rcases hjob with hjob | rfl
    · obtain ⟨process, hprocess, hnumber⟩ := h.leaders job hjob
      exact ⟨process, hkept hprocess, hnumber⟩
    · exact ⟨_, hnew, rfl⟩
  case distinct =>
    rw [hjobs, List.map_append, List.nodup_append]
    refine ⟨h.distinct, List.nodup_singleton _, ?_⟩
    rintro p hp q hq rfl
    obtain ⟨job, hjob, rfl⟩ := List.mem_map.mp hp
    obtain ⟨process, hprocess, -⟩ := h.leaders job hjob
    obtain ⟨hlt, -⟩ := List.getElem?_eq_some_iff.mp hprocess
    simp only [List.map_cons, List.map_nil, List.mem_singleton] at hq
    omega
  case numbers =>
    intro p q a b ha hb hreaped hreaped' hnumber
    rcases hcases ha with ha | ⟨rfl, rfl⟩ <;> rcases hcases hb with hb | ⟨rfl, rfl⟩
    · exact h.numbers ha hb hreaped hreaped' hnumber
    · exact absurd hnumber (hfresh a (List.mem_of_getElem? ha) hreaped)
    · exact absurd hnumber.symm (hfresh b (List.mem_of_getElem? hb) hreaped')
    · rfl
  case positive =>
    intro p a ha
    rcases hcases ha with ha | ⟨-, rfl⟩
    · exact h.positive ha
    · exact hpid
  case sound =>
    intro p a ha
    rcases hcases ha with ha | ⟨-, rfl⟩
    · exact h.sound ha
    · rintro (hreaped | hended) <;> simp at *

/-- A step starts a process, or it moves the processes on and adds no entry. -/
theorem Moves.advance {s t : Shell} {event : Event} (h : Moves s event t) :
    (∃ pid execname, 0 < pid ∧
      (∀ process ∈ s.processes, process.reaped = false → process.pid ≠ pid) ∧
      t.processes = s.processes ++ [⟨pid, .running, [], false⟩] ∧
      t.joblist = s.joblist ++ [⟨s.processes.length, execname, pid, false⟩]) ∨
    Advance s.processes t.processes ∧
      (t.joblist.map identity).Sublist (s.joblist.map identity) := by
  cases h with
  | finish hprocess hcondition =>
      exact Or.inr ⟨advance_set hprocess (later_finish _), List.Sublist.refl _⟩
  | stop hprocess hcondition =>
      exact Or.inr ⟨advance_set hprocess (later_stop hcondition), List.Sublist.refl _⟩
  | cont hprocess =>
      exact Or.inr ⟨advance_set hprocess (later_resume _), List.Sublist.refl _⟩
  | launch hphase hpid hfresh => exact Or.inl ⟨_, _, hpid, hfresh, rfl, rfl⟩
  | fg hphase hjob =>
      refine Or.inr ⟨?_, List.Sublist.refl _⟩
      dsimp only
      split_ifs
      · exact advance_signal later_resume _ _
      · exact Advance.refl _
  | fgMissing hphase hjob => exact Or.inr ⟨Advance.refl _, List.Sublist.refl _⟩
  | kill hphase hjob => exact Or.inr ⟨advance_signal later_kill _ _, unlink_sublist _ _⟩
  | killProcess hphase hjob hnumber =>
      exact Or.inr ⟨advance_signal later_kill _ _, List.Sublist.refl _⟩
  | killFails hphase => exact Or.inr ⟨Advance.refl _, List.Sublist.refl _⟩
  | command hphase => exact Or.inr ⟨Advance.refl _, List.Sublist.refl _⟩
  | sigchld hphase hpid hprocess hreaped hnumber hreport =>
      refine Or.inr ⟨?_, Shell.sigchld_sublist _⟩
      rw [Shell.sigchld_processes]
      exact advance_set hprocess (later_report hreport)
  | sigchldFails hphase hpid hnone =>
      refine Or.inr ⟨?_, Shell.sigchld_sublist _⟩
      rw [Shell.sigchld_processes]
      exact Advance.refl _
  | waited hphase hpid => exact Or.inr ⟨Advance.refl _, List.Sublist.refl _⟩
  | probe hphase hjob => exact Or.inr ⟨Advance.refl _, List.Sublist.refl _⟩
  | probeFails hphase hjob hnone => exact Or.inr ⟨Advance.refl _, unlink_sublist _ _⟩
  | probeEnd hphase hjob => exact Or.inr ⟨Advance.refl _, List.Sublist.refl _⟩
  | reap hphase hjob hprocess hreaped hreport =>
      refine Or.inr ⟨advance_set hprocess (later_report hreport), ?_⟩
      dsimp only
      split_ifs
      · exact unlink_sublist _ _
      · exact List.Sublist.refl _
  | noReport hphase hnone => exact Or.inr ⟨Advance.refl _, List.Sublist.refl _⟩

theorem Consistent.step {s t : Shell} {event : Event} (h : Consistent s)
    (hstep : Moves s event t) : Consistent t := by
  rcases hstep.advance with ⟨pid, execname, hpid, hfresh, hprocesses, hjobs⟩ |
    ⟨hprocesses, hjobs⟩
  · exact h.launch hpid hfresh hprocesses hjobs
  · exact h.advance hprocesses hjobs

/-- Every reachable state is consistent. -/
theorem consistent_reachable {s : Shell} (h : shellSystem.Reachable s) : Consistent s := by
  refine h.invariant ⟨?_, fun hs hstep => hs.step hstep⟩
  rintro s rfl
  refine ⟨?_, List.nodup_nil, ?_, ?_, ?_⟩ <;> simp [Shell.start]

end SystemFundamentals.Sfish
