import Demoos.Scheduler.Runs

/-!
# Signals

`handle_process_signals` is called on the processes a selection visits, and a
selection visits queued processes only.  Two things follow.  A process that is
stopped or dead is in no queue, so nothing ever handles its signals or changes
its state again: a kill is final, and so is a stop, whatever is sent
afterwards.  And a process that is chosen has just been visited, so no signal
is pending for it when it is dispatched.
-/

namespace Demoos

open Relation (ReflTransGen)

namespace Sched

variable {a b : Sched} {alg : Algorithm} {c : Choice} {op : Op} {p : Pid}

/-! ## Bystanders -/

theorem proc_givenUp_of_ne (op : Op) (hp : p ≠ a.currentProcess) :
    (a.givenUp op).proc p = a.proc p := by
  cases op with
  | block why => rw [givenUp, block, proc_modify, if_neg hp]
  | wait pid =>
      rw [givenUp]
      split
      next => rw [waitFor, proc_modify, if_neg hp]
      next => rfl
  | exit => rw [givenUp, die, proc_modify, if_neg hp]
  | _ => rfl

theorem pendingSignals_givenUp (op : Op) (p : Pid) :
    ((a.givenUp op).proc p).pendingSignals = (a.proc p).pendingSignals := by
  cases op with
  | block why =>
      rw [givenUp, block]
      exact field_modify _ _ _ _ Proc.pendingSignals fun _ => rfl
  | wait pid =>
      rw [givenUp]
      split
      next =>
        rw [waitFor]
        exact field_modify _ _ _ _ Proc.pendingSignals fun _ => rfl
      next => rfl
  | exit =>
      rw [givenUp, die]
      exact field_modify _ _ _ _ Proc.pendingSignals fun _ => rfl
  | _ => rfl

/-- The choice falls on init or on a visited process. -/
theorem Decides.visited_target (h : Decides alg a b c) (hi : b.currentProcess ≠ initProcess) :
    b.currentProcess ∈ c.visited ∧
      ((a.contest alg).proc b.currentProcess).barred = false := by
  have hcur : b.currentProcess = c.target := by rw [h.result]; rfl
  rw [hcur] at hi ⊢
  unfold Choice.target at hi ⊢
  cases hn : c.next with
  | none => rw [hn] at hi; exact absurd rfl hi
  | some q => exact h.sound.next q hn

theorem Decides.nProcesses (h : Decides alg a b c) : b.nProcesses = a.nProcesses := by
  rw [h.result]
  change (a.contest alg).nProcesses = _
  rw [toGlobals_contest]

/-- A visited process is ready. -/
theorem Decides.ready_of_visited (h : Decides alg a b c) (hp : p ∈ c.visited) :
    ((a.contest alg).proc p).state = .ready ∧ p ≠ initProcess := by
  obtain ⟨l, hl⟩ := h.sound.visited p hp
  obtain ⟨hi, _, hs⟩ := h.contest.queued l p hl
  exact ⟨hs, hi⟩

/-- A decision does not touch a process that is neither ready nor running. -/
theorem Decides.bystander (h : Decides alg a b c) (hi : p ≠ initProcess)
    (hready : (a.proc p).state ≠ .ready) (hrun : (a.proc p).state ≠ .running) :
    (b.proc p).state = (a.proc p).state ∧ (b.proc p).pidToWait = (a.proc p).pidToWait ∧
      (b.proc p).pendingSignals = (a.proc p).pendingSignals ∧ b.currentProcess ≠ p := by
  have hstate : ((a.contest alg).proc p).state = (a.proc p).state := by
    rw [state_contest, if_neg fun hn => hrun hn.2.2]
  have hv : p ∉ c.visited := fun hv => hready (hstate ▸ (h.ready_of_visited hv).1)
  have htarget : b.currentProcess ≠ p := fun e =>
    hv (e ▸ (h.visited_target (e ▸ hi)).1)
  have hcommit : ∀ {β : Type} (g : Proc → β), (∀ b n, g { b with counter := n } = g b) →
      g (((a.contest alg).commit c).proc p) = g ((a.contest alg).proc p) := by
    intro β g hg
    rw [proc_commit, if_neg hv]
    exact hg _ _
  have hcur : b.currentProcess = c.target := by rw [h.result]; rfl
  refine ⟨?_, ?_, ?_, htarget⟩
  · rw [h.result, state_dispatch, hcommit Proc.state fun _ _ => rfl, hstate,
      if_neg fun e => htarget (hcur.trans e.symm), if_neg fun hn => hrun hn.2]
  · rw [h.result, field_dispatch _ _ _ Proc.pidToWait (fun _ _ => rfl) fun _ _ => rfl,
      hcommit Proc.pidToWait fun _ _ => rfl]
    exact field_contest a alg p Proc.pidToWait (fun _ _ => rfl) fun _ _ => rfl
  · rw [h.result, field_dispatch _ _ _ Proc.pendingSignals (fun _ _ => rfl) fun _ _ => rfl,
      hcommit Proc.pendingSignals fun _ _ => rfl]
    exact field_contest a alg p Proc.pendingSignals (fun _ _ => rfl) fun _ _ => rfl

/-- An operation with a decision, by its two parts. -/
theorem Law.step_cases (h : a.Law) (hc : a.Current) (hop : op.Enabled a.toGlobals)
    (hb : a.step alg op = some b) :
    (a.decides alg op = true ∧ ∃ c, Decides alg (a.before alg op) b c) ∨
      (a.decides alg op = false ∧ b = a.before alg op) := by
  unfold Sched.step at hb
  split at hb
  next hd =>
    exact .inl ⟨hd, (h.calm_before alg hc hop).law.pickNext (h.outgoing_before hc hop) hb⟩
  next hd => exact .inr ⟨by simpa using hd, (Option.some.inj hb).symm⟩

/-- Nobody is unregistered. -/
theorem Law.nProcesses_step (h : a.Law) (hc : a.Current) (hop : op.Enabled a.toGlobals)
    (hb : a.step alg op = some b) : a.nProcesses ≤ b.nProcesses := by
  have hcalm := (h.calm_before alg hc hop).nProcesses
  rw [toGlobals_givenUp] at hcalm
  rcases h.step_cases hc hop hb with ⟨_, c, hd⟩ | ⟨_, rfl⟩
  · rw [hd.nProcesses]
    exact hcalm
  · exact hcalm

/-! ## The stopped and the dead -/

/-- Out of every queue, and nobody waits to wake it. -/
def Dormant (a : Sched) (p : Pid) : Prop :=
  p ≠ initProcess ∧ p < a.nProcesses ∧ ((a.proc p).state = .stopped ∨ (a.proc p).state = .zombie)

/-- A stopped or dead process stays as it is, and only gathers signals. -/
theorem Law.step_dormant (h : a.Law) (hc : a.Current) (hop : op.Enabled a.toGlobals)
    (hb : a.step alg op = some b) (hp : a.Dormant p) :
    b.Dormant p ∧ (b.proc p).state = (a.proc p).state ∧
      (∀ k, (a.proc p).pending k = true → (b.proc p).pending k = true) ∧
      b.currentProcess ≠ p := by
  obtain ⟨hi, hlt, hs⟩ := hp
  have hne : p ≠ a.currentProcess := by
    rintro rfl
    have hrun := hc.running hi
    rw [current] at hrun
    rcases hs with hs | hs <;> rw [hrun] at hs <;> exact absurd hs (by decide)
  have hcalm := h.calm_before alg hc hop
  have hproc := hcalm.proc p (by rw [toGlobals_givenUp]; exact hlt)
  rw [proc_givenUp_of_ne op hne] at hproc
  have hstate : ((a.before alg op).proc p).state = (a.proc p).state := by
    rcases hproc.state with ⟨he, _⟩ | ⟨hbl, _⟩
    · exact he
    · rcases hs with hs | hs <;> rw [hs] at hbl <;> exact absurd hbl (by decide)
  have hn : p < (a.before alg op).nProcesses := by
    have := hcalm.nProcesses
    rw [toGlobals_givenUp] at this
    exact Nat.lt_of_lt_of_le hlt this
  have hcur : (a.before alg op).currentProcess = a.currentProcess := by
    rw [hcalm.currentProcess, toGlobals_givenUp]
  rcases h.step_cases hc hop hb with ⟨_, c, hd⟩ | ⟨_, rfl⟩
  · have hready : ((a.before alg op).proc p).state ≠ .ready := by
      rw [hstate]
      rcases hs with hs | hs <;> rw [hs] <;> decide
    have hrun : ((a.before alg op).proc p).state ≠ .running := by
      rw [hstate]
      rcases hs with hs | hs <;> rw [hs] <;> decide
    obtain ⟨he, _, hk, hcp⟩ := hd.bystander hi hready hrun
    refine ⟨⟨hi, hd.nProcesses ▸ hn, ?_⟩, he.trans hstate, fun k hk' => ?_, hcp⟩
    · rw [he, hstate]; exact hs
    · rw [Proc.pending, hk]
      exact hproc.pending k hk'
  · exact ⟨⟨hi, hn, by rw [hstate]; exact hs⟩, hstate, hproc.pending,
      fun e => hne (e.symm.trans hcur)⟩

/-! ## The killed -/

/-- A kill is pending, or it has been carried out. -/
def Doomed (a : Sched) (p : Pid) : Prop :=
  p ≠ initProcess ∧ p < a.nProcesses ∧
    ((a.proc p).pending signalKill = true ∨ (a.proc p).state = .zombie)

/-- No signal that the kernel knows is pending. -/
def Clean (b : Proc) : Prop :=
  ∀ k, k = signalKill ∨ k = signalStop ∨ k = signalResume → b.pending k = false

/-- The process a decision dispatches has no signal pending, unless it is
init. -/
theorem Decides.clean (h : Decides alg a b c) (hi : b.currentProcess ≠ initProcess) :
    Clean b.current := by
  obtain ⟨hv, hb⟩ := h.visited_target hi
  intro k hk
  have hcommit : (((a.contest alg).commit c).proc b.currentProcess).pending k =
      ((a.contest alg).proc b.currentProcess).handled.pending k := by
    rw [proc_commit, if_pos hv]
    rfl
  have hpending : (b.proc b.currentProcess).pending k =
      (((a.contest alg).commit c).proc b.currentProcess).pending k := by
    rw [h.result]
    exact pending_dispatch _ _ _ _
  exact (hpending.trans hcommit).trans (Proc.pending_handled_of_not_barred hb hk)

/-- A decision does not dispatch a process with a kill pending. -/
theorem Decides.not_dispatched (h : Decides alg a b c) (hp : p ≠ initProcess)
    (hk : (a.proc p).pending signalKill = true) : b.currentProcess ≠ p := by
  intro e
  have hclean := (h.visited_target (e ▸ hp)).2
  rw [e, Proc.barred, field_contest a alg p (·.pending signalKill) (fun _ _ => rfl)
    fun _ _ => rfl, hk] at hclean
  exact absurd hclean (by simp)

/-- A decision carries out the kill of a process it visits. -/
theorem Decides.kills (h : Decides alg a b c) (hp : p ≠ initProcess) (hv : p ∈ c.visited)
    (hk : (a.proc p).pending signalKill = true) : (b.proc p).state = .zombie := by
  have hne := h.not_dispatched hp hk
  have hcur : b.currentProcess = c.target := by rw [h.result]; rfl
  have hz : (((a.contest alg).commit c).proc p).state = .zombie := by
    rw [proc_commit, if_pos hv]
    change ((a.contest alg).proc p).handled.state = _
    rw [Proc.state_handled, field_contest a alg p (·.pending signalKill) (fun _ _ => rfl)
      fun _ _ => rfl, if_pos hk]
  rw [h.result, state_dispatch, hz, if_neg fun e => hne (hcur.trans e.symm),
    if_neg fun hn => absurd hn.2 (by decide)]

theorem Decides.doomed (h : Decides alg a b c) (hp : p ≠ initProcess) (hlt : p < a.nProcesses)
    (hk : (a.proc p).pending signalKill = true) : b.Doomed p := by
  refine ⟨hp, h.nProcesses ▸ hlt, ?_⟩
  by_cases hv : p ∈ c.visited
  · exact .inr (h.kills hp hv hk)
  · left
    rw [h.result, pending_dispatch, proc_commit, if_neg hv, ← hk]
    exact field_contest a alg p (·.pending signalKill) (fun _ _ => rfl) fun _ _ => rfl

/-- The doomed stay doomed, and no decision dispatches one. -/
theorem Law.step_doomed (h : a.Law) (hc : a.Current) (hop : op.Enabled a.toGlobals)
    (hb : a.step alg op = some b) (hp : a.Doomed p) :
    b.Doomed p ∧ (a.decides alg op = true ∨ a.currentProcess ≠ p → b.currentProcess ≠ p) := by
  obtain ⟨hi, hlt, hk | hz⟩ := hp
  · have hcalm := h.calm_before alg hc hop
    have hproc := hcalm.proc p (by rw [toGlobals_givenUp]; exact hlt)
    have hk' : ((a.before alg op).proc p).pending signalKill = true := by
      refine hproc.pending _ ?_
      rw [Proc.pending, pendingSignals_givenUp]
      exact hk
    have hn : p < (a.before alg op).nProcesses := by
      have := hcalm.nProcesses
      rw [toGlobals_givenUp] at this
      exact Nat.lt_of_lt_of_le hlt this
    have hcur : (a.before alg op).currentProcess = a.currentProcess := by
      rw [hcalm.currentProcess, toGlobals_givenUp]
    rcases h.step_cases hc hop hb with ⟨_, c, hd⟩ | ⟨hnd, rfl⟩
    · exact ⟨hd.doomed hi hn hk', fun _ => hd.not_dispatched hi hk'⟩
    · refine ⟨⟨hi, hn, .inl hk'⟩, ?_⟩
      rw [hnd, hcur]
      exact fun hor => hor.resolve_left (by simp)
  · obtain ⟨⟨_, hn, _⟩, hs, _, hne⟩ := h.step_dormant hc hop hb ⟨hi, hlt, .inr hz⟩
    exact ⟨⟨hi, hn, .inr (hs.trans hz)⟩, fun _ => hne⟩

theorem doomed_sendSignal (hp : p ≠ initProcess) (hlt : p < a.nProcesses) :
    (a.sendSignal p signalKill).Doomed p := by
  refine ⟨hp, hlt, .inl ?_⟩
  rw [sendSignal, proc_modify, if_pos rfl, Proc.pending, BitVec.getLsbD_or]
  simp [signalKill]

end Sched

/-! ## Signals in the runs of the code -/

/-- A killed process never runs again, and a process other than init is
dispatched without a pending signal. -/
theorem killed_never_runs {alg : Algorithm} {s : KState} (h : Reachable alg s) :
    (∀ p, p ≠ initProcess → s.processes p = some p →
      ∀ t, ReflTransGen (Next alg) (sendSignal s p signalKill) t →
      ∀ op t', op.Enabled t.toGlobals → step alg t op = some t' →
        decides alg t op = true ∨ t.currentProcess ≠ p → t'.currentProcess ≠ p) ∧
    (∀ op s', op.Enabled s.toGlobals → decides alg s op = true → step alg s op = some s' →
      s'.currentProcess ≠ initProcess →
      ∀ k, k = signalKill ∨ k = signalStop ∨ k = signalResume → s'.current.pending k = false) := by
  obtain ⟨a, ha⟩ := h.represents
  refine ⟨fun p hi hp t hrun op t' hop ht hor => ?_, fun op s' hop hd hs hi k hk => ?_⟩
  · have hsend : step alg s (.sendSignal p signalKill) = some (sendSignal s p signalKill) := rfl
    have henabled : (Op.sendSignal p signalKill).Enabled s.toGlobals := hp
    obtain ⟨a', ha', hrep⟩ := ha.step henabled hsend
    obtain rfl := Option.some.inj ha'
    have hdoomed : (a.sendSignal p signalKill).Doomed p :=
      Sched.doomed_sendSignal hi (ha.registered_iff.mp hp)
    obtain ⟨b, hb, hbd⟩ := hrep.run (I := fun a => a.Doomed p) hdoomed hrun
      fun a op b hlaw hcur hdoom hop hab => (hlaw.step_doomed hcur hop hab hdoom).1
    obtain ⟨b', hb', hrep'⟩ := hb.step hop ht
    have hop' : op.Enabled b.toGlobals := by rw [← hb.refines.globals]; exact hop
    rw [hrep'.refines.currentProcess]
    refine (hb.law.step_doomed hb.current hop' hb' hbd).2 ?_
    rw [← hb.refines.decides alg hb.law, ← hb.refines.currentProcess]
    exact hor
  · obtain ⟨a', ha', hrep⟩ := ha.step hop hs
    have hop' : op.Enabled a.toGlobals := by rw [← ha.refines.globals]; exact hop
    rw [ha.refines.decides alg ha.law] at hd
    rcases ha.law.step_cases ha.current hop' ha' with ⟨_, c, hdec⟩ | ⟨hnd, _⟩
    · rw [hrep.refines.currentProcess] at hi
      rw [hrep.refines.current]
      exact hdec.clean hi k hk
    · rw [hd] at hnd
      exact absurd hnd (by simp)

/-- A process under round robin that is killed while it waits for its turn. -/
theorem killed_never_runs_ready : ∃ s, afterBoot .roundRobin
    [.copyProcess true, .timerTick, .copyProcess true] = some s ∧
      ∀ t, ReflTransGen (Next .roundRobin) (sendSignal s 2 signalKill) t →
        ∀ op t', op.Enabled t.toGlobals → step .roundRobin t op = some t' →
          decides .roundRobin t op = true ∨ t.currentProcess ≠ 2 → t'.currentProcess ≠ 2 := by
  obtain ⟨s, hs, hreach, hp⟩ := exists_afterBoot .roundRobin
    [.copyProcess true, .timerTick, .copyProcess true] (fun s => s.processes 2 = some 2)
    (by decide +kernel)
  exact ⟨s, hs, (killed_never_runs hreach).1 2 (by decide) hp⟩

/-! ## Stop and resume -/

/-- What a pending resume promises for the next decision. -/
structure Resumed (s : KState) (p : Pid) : Prop where
  notStopped : (s.pcb p).state ≠ .stopped
  cleared : (s.pcb p).pending signalResume = false
  placed : s.currentProcess = p ∨ (s.pcb p).state = .ready ∧
    ∃ l, (s.contents l).count p = 1 ∧ ∀ l' ≠ l, (s.contents l').count p = 0

/-- A stopped process with a resume pending. -/
structure AwaitsResume (s : KState) (p : Pid) : Prop where
  notInit : p ≠ initProcess
  registered : s.processes p = some p
  stopped : (s.pcb p).state = .stopped
  noKill : (s.pcb p).pending signalKill = false
  noStop : (s.pcb p).pending signalStop = false
  resume : (s.pcb p).pending signalResume = true

/-- No operation resumes a stopped process, with or without a decision, now or
later in the run. -/
theorem resume_lost {alg : Algorithm} {s t t' : KState} {p : Pid} {op : Op}
    (h : Reachable alg s) (hp : AwaitsResume s p) (hrun : ReflTransGen (Next alg) s t)
    (hop : op.Enabled t.toGlobals) (ht : step alg t op = some t') : ¬ Resumed t' p := by
  obtain ⟨a, ha⟩ := h.represents
  have hdormant : a.Dormant p ∧ (a.proc p).state = .stopped := by
    have hs := (ha.refines.state_eq p).symm.trans hp.stopped
    exact ⟨⟨hp.notInit, ha.registered_iff.mp hp.registered, .inl hs⟩, hs⟩
  obtain ⟨b, hb, _, hs⟩ := ha.run (I := fun a => a.Dormant p ∧ (a.proc p).state = .stopped)
    hdormant (hrun.tail ⟨op, hop, ht⟩) fun a op b hlaw hcur hI hop hab => by
      obtain ⟨hdorm, hs, _⟩ := hlaw.step_dormant hcur hop hab hI.1
      exact ⟨hdorm, hs.trans hI.2⟩
  exact fun hr => hr.notStopped ((hb.refines.state_eq p).trans hs)

/-- The run of a parent that stops its child and then resumes it. -/
def stopAndResume : List Op :=
  [.copyProcess true, .timerTick, .copyProcess true, .sendSignal 2 signalStop, .yield,
    .sendSignal 2 signalResume]

theorem awaitsResume_stopAndResume : ∃ s s', afterBoot .roundRobin stopAndResume = some s ∧
    Reachable .roundRobin s ∧ AwaitsResume s 2 ∧ s.currentProcess ≠ initProcess ∧
    step .roundRobin s .yield = some s' ∧ (s'.pcb 2).state = .stopped := by
  obtain ⟨s, hs, hreach, ⟨hcur, hp, hst, hk, hstop, hr⟩, hnext⟩ :=
    exists_afterBoot .roundRobin stopAndResume
      (fun s => (s.currentProcess ≠ initProcess ∧ s.processes 2 = some 2 ∧
          (s.pcb 2).state = .stopped ∧ (s.pcb 2).pending signalKill = false ∧
          (s.pcb 2).pending signalStop = false ∧ (s.pcb 2).pending signalResume = true) ∧
        (step .roundRobin s .yield).any fun s' => (s'.pcb 2).state = .stopped)
      (by decide +kernel)
  obtain ⟨s', hs', hstopped⟩ := (Option.any_eq_true _ _).mp hnext
  exact ⟨s, s', hs, hreach, ⟨by decide, hp, hst, hk, hstop, hr⟩, hcur, hs',
    of_decide_eq_true hstopped⟩

/-- The decision of the parent's yield, behind its resume. -/
theorem resume_lost_parent : ∃ s s', afterBoot .roundRobin stopAndResume = some s ∧
    Reachable .roundRobin s ∧ AwaitsResume s 2 ∧ decides .roundRobin s .yield = true ∧
    step .roundRobin s .yield = some s' ∧ ¬ Resumed s' 2 := by
  obtain ⟨s, s', hs, hreach, hp, _, hs', hstopped⟩ := awaitsResume_stopAndResume
  exact ⟨s, s', hs, hreach, hp, rfl, hs', fun h => h.notStopped hstopped⟩

theorem resume_lost_yield : ∃ s s', step .roundRobin s .yield = some s' ∧ ¬ Resumed s' 2 := by
  obtain ⟨s, s', _, hreach, hp, hcur, hs', _⟩ := awaitsResume_stopAndResume
  have henabled : Op.Enabled s.toGlobals .yield := hcur
  exact ⟨s, s', hs', resume_lost hreach hp .refl henabled hs'⟩

end Demoos
