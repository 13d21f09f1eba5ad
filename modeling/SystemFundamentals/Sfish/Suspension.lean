import SystemFundamentals.Sfish.JobRemoval

/-!
# Waiting for the job in the foreground

While a job is in the foreground the shell is in {lit}`sigsuspend`, which ends with the handler of
a {lit}`SIGCHLD`.  The signal is blocked everywhere else, and however many of them arrive in the
meantime, one stays pending.  The handler waits for a change of the job, and blocks until there
is one.  This file adds the pending signal and the running handler to the steps of the shell, and
finds out when the shell cannot get back to its prompt, whatever its children do.  No process but
the children sends signals to the shell.

Main results:

- Theorem {lit}`resumes_iff`: the states from which the prompt can be reached.
- Theorem {lit}`deadlocked_iff_fg`: how the other states come about.
- Theorem {lit}`resumes_iff_fg`: the runs behind which the prompt can be reached.
-/

namespace SystemFundamentals.Sfish

open Library

/-! ## The signal and its handler -/

/-- The shell with the {lit}`SIGCHLD` that may be pending, and whether the handler is running. -/
structure Signalled where
  shell : Shell
  pending : Bool
  handling : Bool
deriving DecidableEq

/-- The shell waits in {lit}`sigsuspend`. -/
def Shell.Waits (s : Shell) : Prop :=
  s.phase = .suspended ∧ s.childpid ≠ s.pid

/-- What a step means for the signal.  A child that exits or stops sends it, and one that is
continued may send it; the handler is running before its {lit}`waitpid` returns. -/
def Signalled.Signals (s : Signalled) (event : Event) (t : Signalled) : Prop :=
  match event with
  | .finish _ | .stop _ => t.pending = true ∧ t.handling = s.handling
  | .cont _ | .fg _ =>
      (t.pending = s.pending ∨ t.pending = true ∧ t.shell.processes ≠ s.shell.processes) ∧
        t.handling = s.handling
  | .sigchld => s.handling = true ∧ t.pending = s.pending ∧ t.handling = false
  | _ => t.pending = s.pending ∧ t.handling = s.handling

/-- A step of the shell or of a child, or the delivery of the signal. -/
def Signalled.Moves (s : Signalled) (event : Option Event) (t : Signalled) : Prop :=
  match event with
  | some event => Sfish.Moves s.shell event t.shell ∧ s.Signals event t
  | none => s.shell.Waits ∧ s.pending = true ∧ s.handling = false ∧
      t = { s with pending := false, handling := true }

/-- The shell, its children and the signal. -/
def signalledSystem : System Signalled (Option Event) where
  initial s := s = ⟨.start, false, false⟩
  step := Signalled.Moves

/-- The prompt can be reached. -/
def Resumes (s : Signalled) : Prop :=
  ∃ events t, signalledSystem.Run s events t ∧ t.shell.phase = .prompt

/-- No child that is not reaped has the number. -/
def Gone (processes : List Process) (pid : Int) : Prop :=
  ∀ process ∈ processes, process.reaped = false → process.pid ≠ pid

/-- Every child that is not reaped has ended. -/
def AllEnded (processes : List Process) : Prop :=
  ∀ process ∈ processes, process.reaped = false → process.condition = .ended

/-- No child will end the wait of the shell: the process it waits for has been reaped, or every
child has ended and their signals have been taken. -/
def Deadlocked (s : Signalled) : Prop :=
  s.shell.Waits ∧ (Gone s.shell.processes s.shell.childpid ∨
    s.pending = false ∧ s.handling = false ∧ AllEnded s.shell.processes)

/-- The same for a job that is about to be brought to the foreground. -/
def Forlorn (s : Signalled) (job : JobStruct) : Prop :=
  Gone s.shell.processes job.pid ∨ s.pending = false ∧ AllEnded s.shell.processes

/-- A run has brought a forlorn job to the foreground. -/
def BringsForlorn (s : Signalled) (events : List (Option Event)) (t : Signalled) : Prop :=
  ∃ before n after u job, events = before ++ some (.fg n) :: after ∧
    signalledSystem.Run s before u ∧ signalledSystem.Run u (some (.fg n) :: after) t ∧
    searchJob n 1 u.shell.joblist = some job ∧ Forlorn u job

/-! ## Invariants -/

/-- A child that has ended and is not reaped has its end still to be reported. -/
def Process.Reports (process : Process) : Prop :=
  process.condition = .ended → process.reaped = false → .ended ∈ process.unreported

/-- What a step does to one process. -/
inductive Changed (a : Process) : Process → Prop
  | same : Changed a a
  | finish : Changed a a.finish
  | stop : a.condition = .running → Changed a a.stop
  | resume : Changed a a.resume
  | kill : Changed a a.kill
  | report {change : Change} {rest : List Change} : a.unreported = change :: rest →
      Changed a (a.report change rest)

theorem Process.Reports.changed {a b : Process} (h : a.Reports) (hchanged : Changed a b) :
    b.Reports := by
  cases hchanged with
  | same => exact h
  | finish =>
      intro _ _
      simp [Process.finish]
  | stop hrunning =>
      rintro ⟨⟩
  | resume =>
      unfold Process.resume
      split_ifs with hstopped
      · rintro ⟨⟩
      · exact h
  | kill =>
      unfold Process.kill
      split_ifs with hended
      · exact h
      · rintro ⟨⟩
  | @report change rest hreport =>
      intro hended hreaped
      simp only [Process.report, Bool.or_eq_false_iff, beq_eq_false_iff_ne] at hreaped
      have hmem := h hended hreaped.1
      rw [hreport, List.mem_cons] at hmem
      exact hmem.resolve_left (Ne.symm hreaped.2)

/-- The processes at the end of a step come from those at its start. -/
def Follows (processes processes' : List Process) : Prop :=
  ∀ b ∈ processes', ∃ a ∈ processes, Changed a b

theorem follows_refl (processes : List Process) : Follows processes processes :=
  fun b hb => ⟨b, hb, .same⟩

theorem follows_set {processes : List Process} {p : Nat} {a b : Process}
    (ha : processes[p]? = some a) (h : Changed a b) : Follows processes (processes.set p b) := by
  intro c hc
  rcases List.mem_or_eq_of_mem_set hc with hc | rfl
  · exact ⟨c, hc, .same⟩
  · exact ⟨a, List.mem_of_getElem? ha, h⟩

theorem follows_signal {effect : Process → Process} (heffect : ∀ a, Changed a (effect a))
    (pid : Int) (processes : List Process) : Follows processes (signal pid effect processes) := by
  intro b hb
  obtain ⟨a, ha, rfl⟩ := List.mem_map.mp hb
  refine ⟨a, ha, ?_⟩
  split_ifs
  · exact heffect a
  · exact .same

/-- A step starts a process, or changes those there are. -/
theorem Moves.follows {s t : Shell} {event : Event} (h : Moves s event t) :
    (∃ pid, t.processes = s.processes ++ [⟨pid, .running, [], false⟩]) ∨
      Follows s.processes t.processes := by
  cases h with
  | launch hphase hpid hfresh => exact Or.inl ⟨_, rfl⟩
  | finish hprocess hcondition => exact Or.inr (follows_set hprocess .finish)
  | stop hprocess hrunning => exact Or.inr (follows_set hprocess (.stop hrunning))
  | cont hprocess => exact Or.inr (follows_set hprocess .resume)
  | fg hphase hjob =>
      right
      dsimp only
      split_ifs
      · exact follows_signal (fun _ => .resume) _ _
      · exact follows_refl _
  | kill hphase hjob => exact Or.inr (follows_signal (fun _ => .kill) _ _)
  | killProcess hphase hjob hnumber => exact Or.inr (follows_signal (fun _ => .kill) _ _)
  | sigchld hphase hpid hprocess hreaped hnumber hreport =>
      rw [Shell.sigchld_processes]
      exact Or.inr (follows_set hprocess (.report hreport))
  | sigchldFails hphase hpid hnone =>
      rw [Shell.sigchld_processes]
      exact Or.inr (follows_refl _)
  | reap hphase hjob hprocess hreaped hreport =>
      exact Or.inr (follows_set hprocess (.report hreport))
  | _ => exact Or.inr (follows_refl _)

@[simp] theorem Shell.sigchld_phase (s : Shell) : s.sigchld.phase = s.phase := by
  unfold Shell.sigchld
  split
  · rfl
  · split_ifs <;> rfl

@[simp] theorem Shell.sigchld_childpid (s : Shell) : s.sigchld.childpid = s.childpid := by
  unfold Shell.sigchld
  split
  · rfl
  · split_ifs <;> rfl

@[simp] theorem Shell.sigchld_pid (s : Shell) : s.sigchld.pid = s.pid := by
  unfold Shell.sigchld
  split
  · rfl
  · split_ifs <;> rfl

/-- What holds in every state: the handler runs in {lit}`sigsuspend` only, which waits for a
positive number, and the sweep is at an entry behind {lit}`kill(job->pid, 0)`. -/
structure Sane (s : Signalled) : Prop where
  consistent : Consistent s.shell
  reports : ∀ process ∈ s.shell.processes, process.Reports
  waits : s.handling = true → s.shell.Waits
  positive : s.shell.phase = .suspended → 0 < s.shell.childpid
  found : ∀ k, s.shell.phase = .found k → k < s.shell.joblist.length

/-- The reports, over a step. -/
theorem Moves.reports {s t : Shell} {event : Event} (h : Moves s event t)
    (hreports : ∀ process ∈ s.processes, process.Reports) :
    ∀ process ∈ t.processes, process.Reports := by
  intro b hb
  rcases h.follows with ⟨pid, hprocesses⟩ | hfollows
  · rw [hprocesses, List.mem_append, List.mem_singleton] at hb
    rcases hb with hb | rfl
    · exact hreports b hb
    · rintro ⟨⟩
  · obtain ⟨a, ha, hchanged⟩ := hfollows b hb
    exact (hreports a ha).changed hchanged

/-- The handler ends its wait with the process it waits for, or without any. -/
theorem Moves.waits {s t : Shell} {event : Event} (h : Moves s event t) (hwaits : s.Waits)
    (hevent : event ≠ .sigchld) : t.Waits := by
  obtain ⟨hphase, hpid⟩ := hwaits
  cases h with
  | finish hprocess hcondition => exact ⟨hphase, hpid⟩
  | stop hprocess hrunning => exact ⟨hphase, hpid⟩
  | cont hprocess => exact ⟨hphase, hpid⟩
  | sigchld hphase' hpid' hprocess hreaped hnumber hreport => exact absurd rfl hevent
  | sigchldFails hphase' hpid' hnone => exact absurd rfl hevent
  | waited hphase' hpid' => exact absurd hpid' hpid
  | _ => simp_all

/-- The number that {lit}`sigsuspend` waits for is positive. -/
theorem Moves.positive {s t : Shell} {event : Event} (h : Moves s event t)
    (hconsistent : Consistent s) (hpositive : s.phase = .suspended → 0 < s.childpid)
    (hphase : t.phase = .suspended) : 0 < t.childpid := by
  cases h with
  | launch hprompt hpid hfresh => exact hpid
  | fg hprompt hjob =>
      obtain ⟨process, hprocess, hnumber⟩ := hconsistent.leaders _ (mem_of_searchJob hjob)
      exact hnumber ▸ hconsistent.positive hprocess
  | sigchld hsuspended hpid hprocess hreaped hnumber hreport =>
      rw [Shell.sigchld_childpid]
      exact hpositive hsuspended
  | sigchldFails hsuspended hpid hnone =>
      rw [Shell.sigchld_childpid]
      exact hpositive hsuspended
  | finish hprocess hcondition => exact hpositive hphase
  | stop hprocess hrunning => exact hpositive hphase
  | cont hprocess => exact hpositive hphase
  | _ => simp at hphase

/-- The sweep is at an entry behind its probe. -/
theorem Moves.found {s t : Shell} {event : Event} (h : Moves s event t)
    (hfound : ∀ k, s.phase = .found k → k < s.joblist.length) {k : Nat}
    (hphase : t.phase = .found k) : k < t.joblist.length := by
  cases h with
  | finish hprocess hcondition => exact hfound k hphase
  | stop hprocess hrunning => exact hfound k hphase
  | cont hprocess => exact hfound k hphase
  | probe hsweeping hjob =>
      obtain rfl := Phase.found.inj hphase
      exact (List.getElem?_eq_some_iff.mp hjob).1
  | launch hprompt hpid hfresh =>
      split_ifs at hphase
  | sigchld hsuspended hpid hprocess hreaped hnumber hreport =>
      rw [Shell.sigchld_phase] at hphase
      exact absurd (hsuspended.symm.trans hphase) (by simp)
  | sigchldFails hsuspended hpid hnone =>
      rw [Shell.sigchld_phase] at hphase
      exact absurd (hsuspended.symm.trans hphase) (by simp)
  | _ => simp at hphase

/-- Every state is sane. -/
theorem sane_reachable {s : Signalled} (h : signalledSystem.Reachable s) : Sane s := by
  refine h.invariant ⟨?_, ?_⟩
  · rintro s rfl
    refine ⟨consistent_reachable (.initial rfl), ?_, ?_, ?_, ?_⟩ <;> simp [Shell.start]
  · rintro s event t hs hstep
    cases event with
    | none =>
        obtain ⟨hwaits, hpending, hhandling, rfl⟩ := hstep
        exact ⟨hs.consistent, hs.reports, fun _ => hwaits, hs.positive, hs.found⟩
    | some event =>
        obtain ⟨hmoves, hsignals⟩ := hstep
        refine ⟨hs.consistent.step hmoves, hmoves.reports hs.reports, ?_,
          hmoves.positive hs.consistent hs.positive, fun k => hmoves.found hs.found⟩
        intro hhandling
        by_cases hevent : event = .sigchld
        · subst hevent
          exact absurd hhandling (by rw [hsignals.2.2]; decide)
        · refine hmoves.waits (hs.waits ?_) hevent
          have hsame : t.handling = s.handling := by
            cases event <;> first | exact hsignals.2 | exact absurd rfl hevent
          exact hsame ▸ hhandling

/-! ## The end of the sweep -/

theorem Resumes.of_step {s : Signalled} (event : Option Event) (t : Signalled)
    (hstep : signalledSystem.step s event t) (h : Resumes t) : Resumes s := by
  obtain ⟨events, r, hrun, hphase⟩ := h
  exact ⟨event :: events, r, .cons hstep hrun, hphase⟩

theorem length_unlink {job : JobStruct} {joblist : List JobStruct} (h : job ∈ joblist) :
    (unlink job joblist).length = joblist.length - 1 :=
  List.length_eraseP_of_mem h (decide_eq_true rfl)

/-- The second half of a turn of the sweep, if what is left of the sweep ends. -/
theorem resumes_of_found {left : Nat}
    (hrest : ∀ (s : Signalled) (k : Nat), s.shell.phase = .sweeping k →
      s.shell.joblist.length - k ≤ left → Resumes s)
    {s : Signalled} {k : Nat} (hphase : s.shell.phase = .found k)
    (hk : k < s.shell.joblist.length) (hleft : s.shell.joblist.length - k ≤ left + 1) :
    Resumes s := by
  obtain ⟨⟨processes, joblist, childpid, pid, status, phase⟩, pending, handling⟩ := s
  simp only at hphase hk hleft
  subst hphase
  by_cases hreport : ∃ process ∈ processes, process.reaped = false ∧ process.unreported ≠ []
  · obtain ⟨process, hmem, hreaped, hne⟩ := hreport
    obtain ⟨p, hprocess⟩ := List.mem_iff_getElem?.mp hmem
    obtain ⟨change, rest, hreport⟩ := List.exists_cons_of_ne_nil hne
    have hjob : joblist[k]? = some joblist[k] := List.getElem?_eq_getElem hk
    refine Resumes.of_step (some (.reap p)) ⟨_, pending, handling⟩
      ⟨.reap rfl hjob hprocess hreaped hreport, rfl, rfl⟩ ?_
    refine hrest _ _ rfl ?_
    dsimp only
    split_ifs
    · rw [length_unlink (List.getElem_mem hk)]
      omega
    · omega
  · have hnone : ∀ process ∈ processes, process.reaped = false → process.unreported = [] := by
      intro process hmem hreaped
      by_contra hne
      exact hreport ⟨process, hmem, hreaped, hne⟩
    refine Resumes.of_step (some .noReport) ⟨_, pending, handling⟩
      ⟨.noReport rfl hnone, rfl, rfl⟩ ?_
    refine hrest _ _ rfl ?_
    dsimp only
    omega

/-- Every sweep comes to its end. -/
theorem resumes_of_sweeping {s : Signalled} {k : Nat} (hphase : s.shell.phase = .sweeping k) :
    Resumes s := by
  suffices hall : ∀ (left : Nat) (s : Signalled) (k : Nat), s.shell.phase = .sweeping k →
      s.shell.joblist.length - k ≤ left → Resumes s from hall _ s k hphase (Nat.le_refl _)
  intro left
  induction left with
  | zero =>
      intro s k hphase hleft
      have hnone : s.shell.joblist[k]? = none := List.getElem?_eq_none (by omega)
      exact Resumes.of_step (some .probe) ⟨_, s.pending, s.handling⟩
        ⟨.probeEnd hphase hnone, rfl, rfl⟩ ⟨[], _, .nil _, rfl⟩
  | succ left ih =>
      intro s k hphase hleft
      by_cases hk : k < s.shell.joblist.length
      · refine Resumes.of_step (some .probe) ⟨_, s.pending, s.handling⟩
          ⟨.probe hphase (List.getElem?_eq_getElem hk), rfl, rfl⟩ ?_
        exact resumes_of_found ih rfl hk hleft
      · exact ih s k hphase (by omega)

/-! ## The end of the wait -/

/-- A process that has not ended can end, whatever the shell does, and sends its signal. -/
theorem finish_step {s : Signalled} {p : Nat} {process : Process}
    (hprocess : s.shell.processes[p]? = some process) (hrunning : process.condition ≠ .ended) :
    signalledSystem.step s (some (.finish p))
      ⟨{ s.shell with processes := s.shell.processes.set p process.finish }, true, s.handling⟩ :=
  ⟨.finish hprocess hrunning, rfl, rfl⟩

/-- The running handler returns with the report that is there. -/
theorem resumes_of_report {s : Signalled} (hwaits : s.shell.Waits) (hhandling : s.handling = true)
    {p : Nat} {process : Process} {change : Change} {rest : List Change}
    (hprocess : s.shell.processes[p]? = some process) (hreaped : process.reaped = false)
    (hpid : process.pid = s.shell.childpid) (hreport : process.unreported = change :: rest) :
    Resumes s := by
  obtain ⟨t, hreturns, hphase, hnumber⟩ : ∃ t, Moves s.shell .sigchld t ∧
      t.phase = .suspended ∧ t.childpid = t.pid := by
    refine ⟨_, .sigchld hwaits.1 hwaits.2 hprocess hreaped hpid hreport, ?_, ?_⟩
    · rw [Shell.sigchld_phase]
      exact hwaits.1
    · rw [Shell.sigchld_childpid, Shell.sigchld_pid]
      exact hpid.symm
  refine Resumes.of_step (some .sigchld) ⟨t, s.pending, false⟩
    ⟨hreturns, hhandling, rfl, rfl⟩ ?_
  exact Resumes.of_step (some .waited) ⟨_, s.pending, false⟩
    ⟨.waited hphase hnumber, rfl, rfl⟩ (resumes_of_sweeping rfl)

/-- The running handler returns when the process it waits for is still there. -/
theorem Sane.resumes_of_handling {s : Signalled} (hs : Sane s) (hhandling : s.handling = true)
    {process : Process} (hmem : process ∈ s.shell.processes) (hreaped : process.reaped = false)
    (hpid : process.pid = s.shell.childpid) : Resumes s := by
  obtain ⟨p, hprocess⟩ := List.mem_iff_getElem?.mp hmem
  have hwaits := hs.waits hhandling
  cases hreport : process.unreported with
  | cons change rest => exact resumes_of_report hwaits hhandling hprocess hreaped hpid hreport
  | nil =>
      have hrunning : process.condition ≠ .ended := by
        intro hended
        have hmem' := hs.reports process hmem hended hreaped
        rw [hreport] at hmem'
        cases hmem'
      refine Resumes.of_step _ _ (finish_step hprocess hrunning) ?_
      refine @resumes_of_report ⟨_, true, s.handling⟩ hwaits hhandling p process.finish .ended []
        ?_ hreaped hpid ?_
      · exact List.getElem?_set_self (List.getElem?_eq_some_iff.mp hprocess).1
      · rw [Process.finish, hreport]
        rfl

/-- The process with the number that the shell waits for is still there. -/
def Shell.Awaited (s : Shell) : Prop :=
  ∃ process ∈ s.processes, process.reaped = false ∧ process.pid = s.childpid

/-- The pending signal is delivered, if the handler is not running already. -/
theorem resumes_of_pending {s : Signalled} (h : signalledSystem.Reachable s)
    (hwaits : s.shell.Waits) (hpending : s.pending = true) (hawaited : s.shell.Awaited) :
    Resumes s := by
  obtain ⟨process, hmem, hreaped, hpid⟩ := hawaited
  cases hhandling : s.handling with
  | true => exact (sane_reachable h).resumes_of_handling hhandling hmem hreaped hpid
  | false =>
      have hdeliver : signalledSystem.step s none { s with pending := false, handling := true } :=
        ⟨hwaits, hpending, hhandling, rfl⟩
      have hs := sane_reachable (h.step hdeliver)
      exact Resumes.of_step _ _ hdeliver (hs.resumes_of_handling rfl hmem hreaped hpid)

/-- The end of a child leaves the number there. -/
theorem Shell.Awaited.finish {s : Shell} (h : s.Awaited) {p : Nat} {other : Process}
    (hother : s.processes[p]? = some other) :
    { s with processes := s.processes.set p other.finish : Shell }.Awaited := by
  obtain ⟨process, hmem, hreaped, hpid⟩ := h
  obtain ⟨q, hq⟩ := List.mem_iff_getElem?.mp hmem
  by_cases hsame : p = q
  · subst hsame
    obtain rfl := Option.some.inj (hq.symm.trans hother)
    have hlt := (List.getElem?_eq_some_iff.mp hother).1
    exact ⟨process.finish, List.mem_of_getElem? (List.getElem?_set_self hlt), hreaped, hpid⟩
  · have hkept := (List.getElem?_set_ne (a := other.finish) hsame).trans hq
    exact ⟨process, List.mem_of_getElem? hkept, hreaped, hpid⟩

/-- A shell that a child can still wake up comes back. -/
theorem resumes_of_not_deadlocked {s : Signalled} (h : signalledSystem.Reachable s)
    (hfree : ¬ Deadlocked s) : Resumes s := by
  have hs := sane_reachable h
  cases hphase : s.shell.phase with
  | prompt => exact ⟨[], s, .nil s, hphase⟩
  | sweeping k => exact resumes_of_sweeping hphase
  | found k =>
      exact resumes_of_found (fun _ _ hphase _ => resumes_of_sweeping hphase) hphase
        (hs.found k hphase) (Nat.le_succ _)
  | suspended =>
      by_cases hpid : s.shell.childpid = s.shell.pid
      · exact Resumes.of_step (some .waited) ⟨_, s.pending, s.handling⟩
          ⟨.waited hphase hpid, rfl, rfl⟩ (resumes_of_sweeping rfl)
      have hwaits : s.shell.Waits := ⟨hphase, hpid⟩
      simp only [Deadlocked, Gone, AllEnded, not_and, not_or] at hfree
      obtain ⟨hthere, hsignals⟩ := hfree hwaits
      push Not at hthere
      have hawaited : s.shell.Awaited := hthere
      cases hpending : s.pending with
      | true => exact resumes_of_pending h hwaits hpending hawaited
      | false =>
          cases hhandling : s.handling with
          | true =>
              obtain ⟨process, hmem, hreaped, hnumber⟩ := hawaited
              exact hs.resumes_of_handling hhandling hmem hreaped hnumber
          | false =>
              -- some child is still there, and its end sends the signal
              have hleft := hsignals hpending hhandling
              push Not at hleft
              obtain ⟨other, hother, -, hrunning⟩ := hleft
              obtain ⟨p, hprocess⟩ := List.mem_iff_getElem?.mp hother
              have hfinish := finish_step hprocess hrunning
              exact Resumes.of_step _ _ hfinish
                (resumes_of_pending (h.step hfinish) hwaits rfl (hawaited.finish hprocess))

/-! ## Deadlocks -/

/-- A change of one process that a function does not see. -/
theorem map_set_of_eq {β : Type} {f : Process → β} {processes : List Process} {p : Nat}
    {a b : Process} (ha : processes[p]? = some a) (h : f b = f a) :
    (processes.set p b).map f = processes.map f := by
  obtain ⟨hlt, rfl⟩ := List.getElem?_eq_some_iff.mp ha
  rw [List.map_set, h]
  have hlt' : p < (processes.map f).length := by rwa [List.length_map]
  have hget : f processes[p] = (processes.map f)[p] := (List.getElem_map f).symm
  rw [hget, List.set_getElem_self]

/-- A signal whose effect a function does not see. -/
theorem map_signal_of_eq {β : Type} {f : Process → β} {effect : Process → Process}
    (h : ∀ a, f (effect a) = f a) (pid : Int) (processes : List Process) :
    (signal pid effect processes).map f = processes.map f := by
  rw [signal, List.map_map]
  apply List.map_congr_left
  intro a _
  simp only [Function.comp_apply]
  split_ifs
  · exact h a
  · rfl

/-- What {lean}`Gone` sees of a process. -/
def Process.number (process : Process) : Int × Bool :=
  (process.pid, process.reaped)

/-- What {lean}`AllEnded` sees of a process. -/
def Process.ending (process : Process) : Bool × Bool :=
  (process.reaped, process.condition = .ended)

theorem gone_iff_of_map {processes processes' : List Process}
    (h : processes'.map Process.number = processes.map Process.number) (pid : Int) :
    Gone processes' pid ↔ Gone processes pid := by
  have hsees (l : List Process) :
      Gone l pid ↔ ∀ number ∈ l.map Process.number, number.2 = false → number.1 ≠ pid := by
    simp [Gone, Process.number]
  rw [hsees, hsees, h]

theorem allEnded_iff_of_map {processes processes' : List Process}
    (h : processes'.map Process.ending = processes.map Process.ending) :
    AllEnded processes' ↔ AllEnded processes := by
  have hsees (l : List Process) :
      AllEnded l ↔ ∀ last ∈ l.map Process.ending, last.1 = false → last.2 = true := by
    simp [AllEnded, Process.ending]
  rw [hsees, hsees, h]

theorem number_resume (a : Process) : a.resume.number = a.number := by
  unfold Process.resume
  split_ifs <;> rfl

theorem ending_resume (a : Process) : a.resume.ending = a.ending := by
  unfold Process.resume
  split_ifs with hstopped
  · simp [Process.ending, hstopped]
  · rfl

/-- A child that has not ended is not reaped either. -/
theorem Sane.not_allEnded {s : Signalled} (hs : Sane s) {p : Nat} {process : Process}
    (hprocess : s.shell.processes[p]? = some process) (hcondition : process.condition ≠ .ended) :
    ¬ AllEnded s.shell.processes := by
  intro hall
  refine hcondition (hall process (List.mem_of_getElem? hprocess) ?_)
  rw [← Bool.not_eq_true]
  intro hreaped
  exact hcondition (hs.consistent.sound hprocess (Or.inl hreaped))

/-- Continuing children of which all have ended changes nothing. -/
theorem AllEnded.signal_resume {processes : List Process} (h : AllEnded processes) (pid : Int) :
    signal pid .resume processes = processes := by
  refine (List.map_congr_left ?_).trans (List.map_id processes)
  intro a ha
  rw [id]
  split_ifs with hsignal
  · have hended := h a ha hsignal.2
    rw [Process.resume, hended]
    rfl
  · rfl

/-- A child that has not ended and sends the signal neither makes nor ends a deadlock. -/
theorem Sane.deadlocked_sent_iff {s : Signalled} {p : Nat} {a b : Process} (hs : Sane s)
    (ha : s.shell.processes[p]? = some a) (hcondition : a.condition ≠ .ended)
    (hnumber : b.number = a.number) :
    Deadlocked ⟨{ s.shell with processes := s.shell.processes.set p b }, true, s.handling⟩ ↔
      Deadlocked s := by
  have hgone := gone_iff_of_map (map_set_of_eq ha hnumber) s.shell.childpid
  simp [Deadlocked, Shell.Waits, hgone, hs.not_allEnded ha hcondition]

/-- A step with another event than {lit}`fg` neither makes nor ends a deadlock. -/
theorem Sane.deadlocked_iff {s t : Signalled} {event : Option Event} (hs : Sane s)
    (hstep : s.Moves event t) (hevent : ∀ n, event ≠ some (.fg n)) :
    Deadlocked t ↔ Deadlocked s := by
  cases event with
  | none =>
      obtain ⟨hwaits, hpending, hhandling, rfl⟩ := hstep
      simp [Deadlocked, hpending]
  | some event =>
      obtain ⟨shell, pending, handling⟩ := t
      obtain ⟨hmoves, hsignals⟩ := hstep
      simp only at hmoves
      cases hmoves with
      | @finish p process hprocess hcondition =>
          obtain ⟨rfl, rfl⟩ := hsignals
          exact hs.deadlocked_sent_iff hprocess hcondition rfl
      | @stop p process hprocess hrunning =>
          obtain ⟨rfl, rfl⟩ := hsignals
          have hcondition : process.condition ≠ .ended := by
            rw [hrunning]
            decide
          exact hs.deadlocked_sent_iff hprocess hcondition rfl
      | @cont p process hprocess =>
          obtain ⟨hpending, rfl⟩ := hsignals
          rcases hpending with rfl | ⟨rfl, hchanged⟩
          · have hgone := gone_iff_of_map (map_set_of_eq hprocess (number_resume process))
              s.shell.childpid
            have hended := allEnded_iff_of_map (map_set_of_eq hprocess (ending_resume process))
            simp [Deadlocked, Shell.Waits, hgone, hended]
          · -- a child that is continued has been stopped before
            have hcondition : process.condition ≠ .ended := by
              intro hended
              apply hchanged
              obtain ⟨hlt, rfl⟩ := List.getElem?_eq_some_iff.mp hprocess
              rw [Process.resume, hended]
              exact List.set_getElem_self hlt
            exact hs.deadlocked_sent_iff hprocess hcondition (number_resume process)
      | @launch pid execname background hprompt hpid hfresh =>
          refine iff_of_false ?_ fun h => ?_
          · rintro ⟨⟨hphase, -⟩, hgone | ⟨-, -, hall⟩⟩
            · exact hgone ⟨pid, .running, [], false⟩ (by simp) rfl rfl
            · exact absurd (hall ⟨pid, .running, [], false⟩ (by simp) rfl) (by simp)
          · exact absurd (h.1.1.symm.trans hprompt) (by simp)
      | fg hprompt hjob => exact absurd rfl (hevent _)
      | fgMissing hprompt hjob => exact absurd rfl (hevent _)
      | sigchld hsuspended hpid hprocess hreaped hnumber hreport =>
          refine iff_of_false ?_ ?_
          · rintro ⟨⟨-, hne⟩, -⟩
            rw [Shell.sigchld_childpid, Shell.sigchld_pid] at hne
            exact hne hnumber.symm
          · rintro ⟨-, hgone | ⟨-, hhandling, -⟩⟩
            · exact hgone _ (List.mem_of_getElem? hprocess) hreaped hnumber
            · exact absurd (hsignals.1.symm.trans hhandling) (by decide)
      | sigchldFails hsuspended hpid hnone =>
          have hpositive := hs.positive hsuspended
          refine iff_of_true ⟨⟨?_, ?_⟩, Or.inl ?_⟩ ⟨⟨hsuspended, hpid⟩, Or.inl hnone⟩
          · rw [Shell.sigchld_phase]
            exact hsuspended
          · rw [Shell.sigchld_childpid, Shell.sigchld_pid]
            simp only
            omega
          · rw [Shell.sigchld_processes, Shell.sigchld_childpid]
            exact hnone
      | waited hsuspended hpid =>
          refine iff_of_false ?_ fun h => h.1.2 hpid
          rintro ⟨⟨⟨⟩, -⟩, -⟩
      | _ => simp_all [Deadlocked, Shell.Waits]

/-- An {lit}`fg` that finds its job makes a deadlock if and only if the job is forlorn. -/
theorem Sane.deadlocked_fg_iff {s t : Signalled} {n : Nat} (hs : Sane s)
    (hstep : s.Moves (some (.fg n)) t) :
    Deadlocked t ↔ ∃ job, searchJob n 1 s.shell.joblist = some job ∧ Forlorn s job := by
  obtain ⟨shell, pending, handling⟩ := t
  obtain ⟨hmoves, hpending, hhandling⟩ := hstep
  simp only at hmoves hpending hhandling
  subst hhandling
  cases hmoves with
  | fgMissing hprompt hnone =>
      refine iff_of_false ?_ ?_
      · rintro ⟨⟨⟨⟩, -⟩, -⟩
      · rintro ⟨job, hjob, -⟩
        rw [hnone] at hjob
        cases hjob
  | @fg _ job hprompt hjob =>
      have hidle : s.handling = false := by
        rw [← Bool.not_eq_true]
        intro hhandling
        exact absurd ((hs.waits hhandling).1.symm.trans hprompt) (by simp)
      obtain ⟨process, hprocess, hnumber⟩ := hs.consistent.leaders _ (mem_of_searchJob hjob)
      have hpositive := hs.consistent.positive hprocess
      have hne : job.pid ≠ 0 := by omega
      have hgone : Gone (if job.stopped then signal job.pid .resume s.shell.processes
          else s.shell.processes) job.pid ↔ Gone s.shell.processes job.pid := by
        split_ifs
        · exact gone_iff_of_map (map_signal_of_eq number_resume _ _) _
        · exact Iff.rfl
      have hended : AllEnded (if job.stopped then signal job.pid .resume s.shell.processes
          else s.shell.processes) ↔ AllEnded s.shell.processes := by
        split_ifs
        · exact allEnded_iff_of_map (map_signal_of_eq ending_resume _ _)
        · exact Iff.rfl
      have hsignal : AllEnded s.shell.processes → pending = s.pending := by
        intro hall
        refine hpending.resolve_right ?_
        rintro ⟨-, hchanged⟩
        split_ifs at hchanged
        · exact hchanged (hall.signal_resume _)
        · exact hchanged rfl
      have hforlorn : Forlorn s job ↔
          ∃ job', searchJob n 1 s.shell.joblist = some job' ∧ Forlorn s job' := by
        simp [hjob]
      rw [← hforlorn]
      simp only [Deadlocked, Shell.Waits, Forlorn, hgone, hended, hidle, true_and, ne_eq, hne,
        not_false_iff]
      refine or_congr_right ⟨?_, ?_⟩
      · rintro ⟨rfl, hall⟩
        exact ⟨(hsignal hall).symm, hall⟩
      · rintro ⟨hquiet, hall⟩
        exact ⟨(hsignal hall).trans hquiet, hall⟩

/-! ## Runs -/

theorem Moves.prompt_of_fg {s t : Shell} {n : Nat} (h : Moves s (.fg n) t) :
    s.phase = .prompt := by
  cases h with
  | fg hprompt hjob => exact hprompt
  | fgMissing hprompt hnone => exact hprompt

/-- A deadlock is for ever. -/
theorem Deadlocked.run {s t : Signalled} {events : List (Option Event)}
    (h : signalledSystem.Reachable s) (hdead : Deadlocked s)
    (hrun : signalledSystem.Run s events t) : Deadlocked t := by
  induction hrun with
  | nil s => exact hdead
  | cons hstep hrest ih =>
      refine ih (h.step hstep) (((sane_reachable h).deadlocked_iff hstep ?_).mpr hdead)
      rintro n rfl
      exact absurd (hdead.1.1.symm.trans hstep.1.prompt_of_fg) (by simp)

/-- A run ends in a deadlock if and only if it starts in one or brings a forlorn job to the
foreground. -/
theorem deadlocked_iff_fg {s t : Signalled} {events : List (Option Event)}
    (h : signalledSystem.Reachable s) (hrun : signalledSystem.Run s events t) :
    Deadlocked t ↔ Deadlocked s ∨ BringsForlorn s events t := by
  constructor
  · intro hdead
    induction hrun with
    | nil s => exact Or.inl hdead
    | @cons s s' t event events hstep hrest ih =>
        have hs := sane_reachable h
        rcases ih (h.step hstep) hdead with hdead' |
          ⟨before, n, after, u, job, rfl, hbefore, hafter, hjob, hforlorn⟩
        · by_cases hevent : ∃ n, event = some (.fg n)
          · obtain ⟨n, rfl⟩ := hevent
            obtain ⟨job, hjob, hforlorn⟩ := (hs.deadlocked_fg_iff hstep).mp hdead'
            exact Or.inr ⟨[], n, events, s, job, rfl, .nil s, .cons hstep hrest, hjob, hforlorn⟩
          · rw [hs.deadlocked_iff hstep fun n hn => hevent ⟨n, hn⟩] at hdead'
            exact Or.inl hdead'
        · exact Or.inr ⟨event :: before, n, after, u, job, rfl, .cons hstep hbefore, hafter, hjob,
            hforlorn⟩
  · rintro (hdead | ⟨before, n, after, u, job, -, hbefore, hafter, hjob, hforlorn⟩)
    · exact hdead.run h hrun
    · have hu := hbefore.reachable h
      cases hafter with
      | cons hstep hrest =>
          have hdead := ((sane_reachable hu).deadlocked_fg_iff hstep).mpr ⟨job, hjob, hforlorn⟩
          exact hdead.run (hu.step hstep) hrest

/-- The prompt can be reached if and only if there is no deadlock. -/
theorem resumes_iff {s : Signalled} (h : signalledSystem.Reachable s) :
    Resumes s ↔ ¬ Deadlocked s := by
  refine ⟨?_, resumes_of_not_deadlocked h⟩
  rintro ⟨events, t, hrun, hphase⟩ hdead
  exact absurd ((hdead.run h hrun).1.1.symm.trans hphase) (by simp)

/-- In every run of the shell with its children, the prompt can be reached at the end if and only
if the run has brought no forlorn job to the foreground. -/
theorem resumes_iff_fg {t : Signalled} {events : List (Option Event)}
    (hrun : signalledSystem.Run ⟨.start, false, false⟩ events t) :
    Resumes t ↔ ¬ BringsForlorn ⟨.start, false, false⟩ events t := by
  have hstart : signalledSystem.Reachable ⟨.start, false, false⟩ := .initial rfl
  rw [resumes_iff (hrun.reachable hstart), deadlocked_iff_fg hstart hrun, not_or]
  refine and_iff_right ?_
  rintro ⟨⟨⟨⟩, -⟩, -⟩

/-- The shell with two background jobs, the first of them in the given state. -/
def twoJobs (first : Process) (childpid : Int) (phase : Phase) : Shell :=
  ⟨[first, ⟨101, .running, [], false⟩],
    [⟨0, "sleep", 100, false⟩, ⟨1, "sleep", 101, false⟩], childpid, 0, .ended, phase⟩

/-- The first of two jobs exits while the sweep is at the second one, where its report is taken.
Then it is brought to the foreground. -/
theorem resumes_iff_fg_reaped :
    ¬ Resumes ⟨twoJobs ⟨100, .ended, [], true⟩ 100 .suspended, true, false⟩ := by
  let running : Process := ⟨100, .running, [], false⟩
  let exited : Process := ⟨100, .ended, [.ended], false⟩
  let reaped : Process := ⟨100, .ended, [], true⟩
  have hfirst : signalledSystem.Run ⟨.start, false, false⟩
      [some (.launch 100 "sleep" true), some .probe, some .noReport, some .probe]
      ⟨oneJob running .prompt, false, false⟩ :=
    .cons (t := ⟨oneJob running (.sweeping 0), false, false⟩)
      ⟨.launch rfl (by decide) (by simp [Shell.start]), rfl, rfl⟩
      (.cons (t := ⟨oneJob running (.found 0), false, false⟩) ⟨.probe rfl rfl, rfl, rfl⟩
        (.cons (t := ⟨oneJob running (.sweeping 1), false, false⟩)
          ⟨.noReport rfl (by decide), rfl, rfl⟩
          (.cons (t := ⟨oneJob running .prompt, false, false⟩) ⟨.probeEnd rfl rfl, rfl, rfl⟩
            (.nil _))))
  have hexits : Moves (twoJobs running 101 (.found 1)) (.finish 0)
      (twoJobs exited 101 (.found 1)) :=
    @Moves.finish _ 0 running rfl (by decide)
  have hreaps : Moves (twoJobs exited 101 (.found 1)) (.reap 0)
      (twoJobs reaped 101 (.sweeping 2)) :=
    @Moves.reap _ 0 1 ⟨1, "sleep", 101, false⟩ exited .ended [] rfl rfl rfl rfl rfl
  have hsecond : signalledSystem.Run ⟨oneJob running .prompt, false, false⟩
      [some (.launch 101 "sleep" true), some .probe, some .noReport, some .probe,
        some (.finish 0), some (.reap 0), some .probe]
      ⟨twoJobs reaped 101 .prompt, true, false⟩ :=
    .cons (t := ⟨twoJobs running 101 (.sweeping 0), false, false⟩)
      ⟨.launch rfl (by decide) (by decide), rfl, rfl⟩
      (.cons (t := ⟨twoJobs running 101 (.found 0), false, false⟩) ⟨.probe rfl rfl, rfl, rfl⟩
        (.cons (t := ⟨twoJobs running 101 (.sweeping 1), false, false⟩)
          ⟨.noReport rfl (by decide), rfl, rfl⟩
          (.cons (t := ⟨twoJobs running 101 (.found 1), false, false⟩) ⟨.probe rfl rfl, rfl, rfl⟩
            (.cons (t := ⟨twoJobs exited 101 (.found 1), true, false⟩)
              ⟨hexits, rfl, rfl⟩
              (.cons (t := ⟨twoJobs reaped 101 (.sweeping 2), true, false⟩)
                ⟨hreaps, rfl, rfl⟩
                (.cons (t := ⟨twoJobs reaped 101 .prompt, true, false⟩)
                  ⟨.probeEnd rfl rfl, rfl, rfl⟩ (.nil _)))))))
  have hfg : signalledSystem.step ⟨twoJobs reaped 101 .prompt, true, false⟩ (some (.fg 1))
      ⟨twoJobs reaped 100 .suspended, true, false⟩ :=
    ⟨@Moves.fg _ 1 ⟨0, "sleep", 100, false⟩ rfl rfl, Or.inl rfl, rfl⟩
  have hbefore := hfirst.append hsecond
  have hafter : signalledSystem.Run ⟨twoJobs reaped 101 .prompt, true, false⟩ [some (.fg 1)]
      ⟨twoJobs reaped 100 .suspended, true, false⟩ := .cons hfg (.nil _)
  have hgone : Forlorn ⟨twoJobs reaped 101 .prompt, true, false⟩ ⟨0, "sleep", 100, false⟩ :=
    Or.inl (by simp [Gone, twoJobs, reaped])
  rw [resumes_iff_fg (hbefore.append hafter), not_not]
  exact ⟨_, 1, [], _, _, rfl, hbefore, hafter, rfl, hgone⟩

end SystemFundamentals.Sfish
