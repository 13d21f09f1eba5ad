import SystemFundamentals.Sfish.JobTable

/-!
# When a job leaves the list

The handler of {lit}`SIGCHLD` removes a job when {lit}`waitpid` has not reported
a stop, and the {lit}`kill` command when it has sent {lit}`SIGKILL`.  The sweep
removes the job it looks at when {lit}`waitpid` has reported any change of it, so
it also removes a job that has merely been stopped.  This file shows that nothing
else goes wrong.

Main results:

- Theorem {lit}`removal_iff`: a step removes only jobs that are over exactly when
  it is not a sweep that takes the stop of the job it looks at.
- Theorem {lit}`jobs_kept`: as long as no sweep does, every process that has not
  terminated is in the list, where {lit}`jobs` and {lit}`fg` find it.
-/

namespace SystemFundamentals.Sfish

open Library

/-! ## Jobs in the list -/

/-- The list has an entry for this process. -/
def Listed (s : Shell) (p : Nat) : Prop :=
  ∃ job ∈ s.joblist, job.leader = p

/-- This process has exited or been killed. -/
def Over (s : Shell) (p : Nat) : Prop :=
  ∀ process, s.processes[p]? = some process → process.Over

/-- {lit}`jobs` prints an entry for this process, and {lit}`fg` finds the entry
under its number. -/
def Visible (s : Shell) (p : Nat) : Prop :=
  ∃ n job, searchJob n 1 s.joblist = some job ∧ job.leader = p ∧
    (n, job.execname) ∈ printJobs 1 s.joblist

/-- The step is not a sweep that takes the report of a stop of the very job it
looks at, while the process of that job is still there. -/
def SweepsSafely (s : Shell) : Event → Prop
  | .reap p => ∀ k job process rest, s.phase = .found k → s.joblist[k]? = some job →
      s.processes[p]? = some process → process.pid = job.pid →
      process.unreported = .stopped :: rest → Over s job.leader
  | _ => True

/-- The number that {lit}`jobs` prints for an entry is the one {lit}`fg` finds it
with. -/
theorem exists_number {job : JobStruct} {joblist : List JobStruct} (h : job ∈ joblist) (i : Nat) :
    ∃ n, i ≤ n ∧ searchJob n i joblist = some job ∧ (n, job.execname) ∈ printJobs i joblist := by
  induction joblist generalizing i with
  | nil => cases h
  | cons first rest ih =>
      rcases List.mem_cons.mp h with rfl | hrest
      · exact ⟨i, Nat.le_refl i, by rw [searchJob, if_pos rfl], List.mem_cons_self⟩
      · obtain ⟨n, hn, hsearch, hprint⟩ := ih hrest (i + 1)
        refine ⟨n, by omega, ?_, List.mem_cons_of_mem _ hprint⟩
        rw [searchJob, if_neg (by omega), hsearch]

theorem Listed.visible {s : Shell} {p : Nat} (h : Listed s p) : Visible s p := by
  obtain ⟨job, hjob, hleader⟩ := h
  obtain ⟨n, -, hsearch, hprint⟩ := exists_number hjob 1
  exact ⟨n, job, hsearch, hleader, hprint⟩

/-! ## What removes an entry -/

variable {s t : Shell} {event : Event}

/-- The handler removes an entry with the reported number, when the report is not
of a stop. -/
theorem Shell.sigchld_removed {p : Nat} (hlisted : Listed s p) (hnot : ¬ Listed s.sigchld p) :
    ∃ job ∈ s.joblist, job.leader = p ∧ job.pid = s.pid ∧ s.status = .ended := by
  obtain ⟨entry, hentry, hleader⟩ := hlisted
  unfold Shell.sigchld at hnot
  split at hnot
  · exact absurd ⟨entry, hentry, hleader⟩ hnot
  · next job hjob =>
      have hpid : job.pid = s.pid := by simpa using List.find?_some hjob
      split_ifs at hnot with hstatus
      · refine absurd ?_ hnot
        refine ⟨_, List.mem_map_of_mem hentry, ?_⟩
        split_ifs <;> exact hleader
      · by_cases hsame : entry.leader = job.leader
        · refine ⟨job, List.mem_of_find?_eq_some hjob, hsame ▸ hleader, hpid, ?_⟩
          cases hchange : s.status with
          | stopped => exact absurd hchange hstatus
          | ended => rfl
        · exact absurd ⟨entry, mem_unlink hentry hsame, hleader⟩ hnot

/-- Only the entry itself is removed. -/
theorem leader_of_unlink {job : JobStruct} {p : Nat} (hlisted : Listed s p)
    (hjoblist : t.joblist = unlink job s.joblist) (hnot : ¬ Listed t p) : p = job.leader := by
  obtain ⟨entry, hentry, rfl⟩ := hlisted
  by_contra hne
  exact hnot ⟨entry, hjoblist ▸ mem_unlink hentry hne, rfl⟩

/-- An entry that the step removes is not there any more. -/
theorem Consistent.not_listed_unlink (h : Consistent s) {job : JobStruct}
    (hjoblist : t.joblist = unlink job s.joblist) :
    ¬ Listed t job.leader := by
  rintro ⟨entry, hentry, hleader⟩
  have hleaders : (unlink job s.joblist).map JobStruct.leader =
      (s.joblist.map JobStruct.leader).erase job.leader := by
    rw [List.erase_eq_eraseP, List.eraseP_map, unlink]
    congr
    funext other
    simp [Bool.beq_eq_decide_eq, eq_comm]
  have hmem := List.mem_map_of_mem (f := JobStruct.leader) (hjoblist ▸ hentry)
  rw [hleaders, hleader] at hmem
  exact h.distinct.not_mem_erase hmem

/-- The process of an entry is over, when it was reaped or the unreaped child with
its number is over. -/
theorem Consistent.over_leader (h : Consistent s) {job : JobStruct} (hjob : job ∈ s.joblist)
    (hprocesses : Advance s.processes t.processes)
    (hover : ∀ {p : Nat} {a b : Process}, s.processes[p]? = some a → t.processes[p]? = some b →
      a.reaped = false → a.pid = job.pid → b.Over) : Over t job.leader := by
  intro b hb
  obtain ⟨process, hprocess, hnumber⟩ := h.leaders job hjob
  obtain ⟨a, ha, hlater⟩ := hprocesses.backward hb
  rw [hprocess] at ha
  cases ha
  cases hreaped : process.reaped with
  | true => exact hlater.stillOver (Or.inr (h.sound hprocess (Or.inl hreaped)))
  | false => exact hover hprocess hb hreaped hnumber

/-- A process whose end was reported is over, and so is the process of an entry
with its number. -/
theorem Consistent.over_of_report (h : Consistent s) {job : JobStruct} (hjob : job ∈ s.joblist)
    {p : Nat} {process : Process} {rest : List Change} (hprocess : s.processes[p]? = some process)
    (hreaped : process.reaped = false) (hnumber : process.pid = job.pid)
    (hreport : process.unreported = .ended :: rest)
    (hprocesses : Advance s.processes t.processes) : Over t job.leader := by
  apply h.over_leader hjob hprocesses
  intro q a b ha hb hreaped' hnumber'
  obtain rfl := h.numbers ha hprocess hreaped' hreaped (hnumber'.trans hnumber.symm)
  rw [hprocess] at ha
  cases ha
  obtain ⟨b', hb', hlater⟩ := hprocesses.forward hprocess
  rw [hb] at hb'
  cases hb'
  have hended : Change.ended ∈ process.unreported := by
    rw [hreport]
    exact List.mem_cons_self
  exact hlater.stillOver (Or.inr (h.sound hprocess (Or.inr hended)))

theorem mem_of_searchJob {n i : Nat} {job : JobStruct} {joblist : List JobStruct}
    (h : searchJob n i joblist = some job) : job ∈ joblist := by
  induction joblist generalizing i with
  | nil => cases h
  | cons first rest ih =>
      rw [searchJob] at h
      split_ifs at h
      · cases h
        exact List.mem_cons_self
      · exact List.mem_cons_of_mem _ (ih h)

theorem Target.mem_of_find {target : Target} {job : JobStruct} {joblist : List JobStruct}
    (h : target.find joblist = some job) : job ∈ joblist := by
  cases target with
  | job n => exact mem_of_searchJob h
  | process pid => exact List.mem_of_find?_eq_some h

theorem getElem?_signal {effect : Process → Process} {processes : List Process} {p : Nat}
    {a : Process} {pid : Int} (ha : processes[p]? = some a) (hpid : a.pid = pid)
    (hreaped : a.reaped = false) : (signal pid effect processes)[p]? = some (effect a) := by
  rw [signal, List.getElem?_map, ha, Option.map_some, if_pos ⟨hpid, hreaped⟩]

/-- The process of an entry is over when no unreaped child has its number. -/
theorem Consistent.over_of_none (h : Consistent s) {job : JobStruct} (hjob : job ∈ s.joblist)
    (hnone : ∀ process ∈ s.processes, process.reaped = false → process.pid ≠ job.pid)
    (hprocesses : Advance s.processes t.processes) : Over t job.leader := by
  apply h.over_leader hjob hprocesses
  intro p a b ha hb hreaped hnumber
  exact absurd hnumber (hnone a (List.mem_of_getElem? ha) hreaped)

/-- A step removes only jobs that are over exactly when it is not a sweep that
takes the stop of the job it looks at. -/
theorem Consistent.removal_iff (h : Consistent s) (hstep : Moves s event t) :
    SweepsSafely s event ↔ ∀ p, Listed s p → ¬ Listed t p → Over t p := by
  constructor
  · intro hsafe p hlisted hnot
    cases hstep with
    | launch hphase hpid hfresh =>
        obtain ⟨job, hjob, hleader⟩ := hlisted
        exact absurd ⟨job, List.mem_append_left _ hjob, hleader⟩ hnot
    | kill hphase hjob =>
        obtain rfl := leader_of_unlink hlisted rfl hnot
        apply h.over_leader (Target.mem_of_find hjob) (advance_signal later_kill _ _)
        intro p a b ha hb hreaped hnumber
        rw [getElem?_signal ha hnumber hreaped] at hb
        cases hb
        exact a.kill_over
    | sigchld hphase hpid hprocess hreaped hnumber hreport =>
        obtain ⟨job, hjob, rfl, hpid, hstatus⟩ := Shell.sigchld_removed (by exact hlisted) hnot
        obtain rfl : _ = Change.ended := hstatus
        apply h.over_of_report hjob hprocess hreaped hpid.symm hreport
        rw [Shell.sigchld_processes]
        exact advance_set hprocess (later_report hreport)
    | sigchldFails hphase hpid hnone =>
        obtain ⟨job, hjob, rfl, hpid, hstatus⟩ := Shell.sigchld_removed (by exact hlisted) hnot
        obtain ⟨process, hprocess, hnumber⟩ := h.leaders job hjob
        have hpositive := h.positive hprocess
        rw [hnumber, hpid] at hpositive
        exact absurd hpositive (by simp)
    | probeFails hphase hjob hnone =>
        obtain rfl := leader_of_unlink hlisted rfl hnot
        exact h.over_of_none (List.mem_of_getElem? hjob) hnone (Advance.refl _)
    | @reap q k job process change rest hphase hjob hprocess hreaped hreport =>
        have hadvance := advance_set hprocess (later_report hreport)
        by_cases hnumber : process.pid = job.pid
        · obtain rfl := leader_of_unlink hlisted (if_pos hnumber) hnot
          have hmem := List.mem_of_getElem? hjob
          cases change with
          | ended => exact h.over_of_report hmem hprocess hreaped hnumber hreport hadvance
          | stopped =>
              have hover := hsafe k job process rest hphase hjob hprocess hnumber hreport
              intro b hb
              obtain ⟨a, ha, hlater⟩ := hadvance.backward hb
              exact hlater.stillOver (hover a ha)
        · rw [Listed, if_neg hnumber] at hnot
          exact absurd hlisted hnot
    | _ => exact absurd hlisted hnot
  · intro hremoved
    cases hstep with
    | @reap p k' job' process' change rest' hphase' hjob' hprocess' hreaped hreport' =>
        intro k job process rest hphase hjob hprocess hnumber hreport
        obtain rfl : k' = k := Phase.found.inj (hphase'.symm.trans hphase)
        obtain rfl : job' = job := Option.some.inj (hjob'.symm.trans hjob)
        obtain rfl : process' = process := Option.some.inj (hprocess'.symm.trans hprocess)
        have hover := hremoved job'.leader ⟨job', List.mem_of_getElem? hjob, rfl⟩
          (h.not_listed_unlink (if_pos hnumber))
        -- a report does not change the condition of a process
        intro a ha
        by_cases hleader : p = job'.leader
        · subst hleader
          rw [hprocess] at ha
          cases ha
          have hreported : (s.processes.set job'.leader (process'.report change rest'))[
              job'.leader]? = some (process'.report change rest') := by
            rw [List.getElem?_set_self', hprocess]
            rfl
          have hreportedOver : (process'.report change rest').Over := hover _ hreported
          exact hreportedOver
        · exact hover a ((List.getElem?_set_ne hleader).trans ha)
    | _ => trivial

/-! ## Runs of the shell -/

/-- Every process that has not terminated has its entry. -/
def Kept (s : Shell) : Prop :=
  ∀ p, ¬ Over s p → Listed s p

/-- A step that is no bad sweep keeps every entry of a process that has not
terminated. -/
theorem Kept.step (h : Kept s) (hconsistent : Consistent s) (hstep : Moves s event t)
    (hsafe : SweepsSafely s event) : Kept t := by
  intro p hrunning
  by_contra hnot
  have hunlisted : ¬ Listed s p :=
    fun hlisted => hrunning ((hconsistent.removal_iff hstep).mp hsafe p hlisted hnot)
  have hover : Over s p := Classical.not_not.mp fun hs => hunlisted (h p hs)
  apply hrunning
  intro b hb
  rcases hstep.advance with ⟨pid, execname, hpid, hfresh, hprocesses, hjobs⟩ |
    ⟨hprocesses, hjobs⟩
  · rw [hprocesses, List.getElem?_append] at hb
    split_ifs at hb with hp
    · exact hover b hb
    · -- the new process has an entry
      obtain ⟨hindex, -⟩ := List.getElem?_eq_some_iff.mp hb
      rw [List.length_singleton] at hindex
      refine absurd ⟨⟨s.processes.length, execname, pid, false⟩, ?_, ?_⟩ hnot
      · rw [hjobs]
        exact List.mem_append_right _ List.mem_cons_self
      · show s.processes.length = p
        omega
  · obtain ⟨a, ha, hlater⟩ := hprocesses.backward hb
    exact hlater.stillOver (hover a ha)

/-- As long as no sweep takes the stop of the job it looks at, {lit}`jobs` and
{lit}`fg` find every process that has not terminated, and a step takes a job out
of the list before its process has terminated exactly when it is such a sweep. -/
theorem jobs_kept (h : (shellSystem.guarded SweepsSafely).Reachable s) :
    (∀ p, ¬ Over s p → Visible s p) ∧
      ∀ event t, Moves s event t →
        (SweepsSafely s event ↔ ∀ p, Listed s p → ¬ Listed t p → Over t p) := by
  have hconsistent := consistent_reachable h.of_guarded
  have hkept : Consistent s ∧ Kept s := by
    apply h.invariant
    constructor
    · rintro s rfl
      refine ⟨consistent_reachable (.initial rfl), fun p hrunning => absurd ?_ hrunning⟩
      simp [Over, Shell.start]
    · rintro s event t ⟨hconsistent, hkept⟩ ⟨hsafe, hstep⟩
      exact ⟨hconsistent.step hstep, hkept.step hconsistent hstep hsafe⟩
  exact ⟨fun p hrunning => (hkept.2 p hrunning).visible,
    fun event t hstep => hconsistent.removal_iff hstep⟩

/-- The shell with one background job in the given phase. -/
def oneJob (process : Process) (phase : Phase) : Shell :=
  ⟨[process], [⟨0, "sleep", 100, false⟩], 100, 0, .ended, phase⟩

/-- The job is stopped while the shell waits at the prompt, and the sweep after
the next command looks at it. -/
theorem stoppedJob_reachable : (shellSystem.guarded SweepsSafely).Reachable
    (oneJob ⟨100, .stopped, [.stopped], false⟩ (.found 0)) := by
  have hstart : (shellSystem.guarded SweepsSafely).Reachable .start := .initial rfl
  have hlaunched : (shellSystem.guarded SweepsSafely).Reachable
      (oneJob ⟨100, .running, [], false⟩ (.sweeping 0)) :=
    hstart.step (a := Event.launch 100 "sleep" true)
      ⟨trivial, .launch rfl (by decide) (by simp [Shell.start])⟩
  have hfound := hlaunched.step (a := Event.probe) ⟨trivial, .probe rfl rfl⟩
  have hswept := hfound.step (a := Event.noReport) ⟨trivial, .noReport rfl (by simp [oneJob])⟩
  have hprompt := hswept.step (a := Event.probe) ⟨trivial, .probeEnd rfl rfl⟩
  have hstopped := hprompt.step (a := Event.stop 0) ⟨trivial, .stop rfl rfl⟩
  have hcommand := hstopped.step (a := Event.command) ⟨trivial, .command rfl⟩
  exact hcommand.step (a := Event.probe) ⟨trivial, .probe rfl rfl⟩

/-- The stopped job is still visible before the report is taken. -/
theorem stoppedJob_kept :
    Visible (oneJob ⟨100, .stopped, [.stopped], false⟩ (.found 0)) 0 := by
  refine (jobs_kept stoppedJob_reachable).1 0 fun hover => ?_
  have hcondition := hover _ rfl
  exact absurd hcondition (by simp [Process.Over])

/-- The sweep takes the stopped job out of the list. -/
theorem not_jobs_kept : ¬ ∀ s event t, shellSystem.Reachable s → Moves s event t →
    ∀ p, Listed s p → ¬ Listed t p → Over t p := by
  intro hall
  have hover := hall _ (.reap 0) _ stoppedJob_reachable.of_guarded (.reap rfl rfl rfl rfl rfl) 0
    ⟨_, List.mem_cons_self, rfl⟩ (by simp [Listed, oneJob, unlink])
  exact absurd (hover _ rfl) (by simp [Process.Over, Process.report])

end SystemFundamentals.Sfish
