import Demoos.Scheduler.Scans
import Demoos.Uart.Ownership

/-!
# Sleeping readers

A process begins to wait when it gives up the CPU for it, and no interrupt makes it wait.  The
loop of `handle_uart_irq` over `processes[]` leaves nobody waiting for the UART, with every word
of the receive FIFO that has no error flag.
-/

namespace Demoos

/-! ## Nobody begins to wait -/

namespace Sched

variable {a b : Sched} {alg : Algorithm} {c : Choice} {op : Op} {p : Pid}

theorem Decides.waits (h : Decides alg a b c) (hb : (b.proc p).state.blocked = true) :
    (b.proc p).state = (a.proc p).state := by
  have hcontest (hc : ((a.contest alg).proc p).state.blocked = true) :
      ((a.contest alg).proc p).state = (a.proc p).state := by
    rw [state_contest] at hc ⊢
    split at hc
    next => exact absurd hc Bool.false_ne_true
    next hn => exact if_neg hn
  have hcommit (hc : (((a.contest alg).commit c).proc p).state.blocked = true) :
      (((a.contest alg).commit c).proc p).state = (a.proc p).state := by
    rw [state_commit] at hc ⊢
    split at hc
    next hv =>
      rw [if_pos hv]
      rw [Proc.state_handled] at hc ⊢
      -- A signal kills or stops, and neither is a wait.
      split at hc
      next => exact absurd hc Bool.false_ne_true
      next hk =>
        rw [if_neg hk]
        split at hc
        next => exact absurd hc Bool.false_ne_true
        next hs =>
          rw [if_neg hs]
          exact hcontest hc
    next hv =>
      rw [if_neg hv]
      exact hcontest hc
  rw [h.result, state_dispatch] at hb ⊢
  split at hb
  next => exact absurd hb Bool.false_ne_true
  next ht =>
    rw [if_neg ht]
    split at hb
    next => exact absurd hb Bool.false_ne_true
    next hn =>
      rw [if_neg hn]
      exact hcommit hb

/-- Who waits behind an operation has given up the CPU for it, or waited before. -/
theorem Law.waits_step (h : a.Law) (hc : a.Current) (hop : op.Enabled a.toGlobals)
    (hb : a.step alg op = some b) (hp : p < a.nProcesses)
    (hw : (b.proc p).state.blocked = true) : (b.proc p).state = ((a.givenUp op).proc p).state := by
  have hcalm := h.calm_before alg hc hop
  have hbefore (hw : ((a.before alg op).proc p).state.blocked = true) :
      ((a.before alg op).proc p).state = ((a.givenUp op).proc p).state := by
    rcases (hcalm.proc p (by rw [toGlobals_givenUp]; exact hp)).state with ⟨he, _⟩ | ⟨_, hready⟩
    · exact he
    · rw [hready] at hw
      exact absurd hw Bool.false_ne_true
  rcases h.step_cases hc hop hb with ⟨_, c, hdec⟩ | ⟨_, rfl⟩
  · have hs := hdec.waits hw
    rw [hs] at hw ⊢
    exact hbefore hw
  · exact hbefore hw

end Sched

theorem Op.givenUp_of_interrupt {op : Op} (h : op.interrupt = true) (a : Sched) :
    a.givenUp op = a := by
  cases op with
  | timerTick => rfl
  | uartIrq mis fifo => rfl
  | _ => exact absurd h Bool.false_ne_true

namespace Represents

variable {s t : KState} {a : Sched} {alg : Algorithm} {op : Op} {p : Pid}

theorem waits_step (h : Represents s a) (hop : op.Enabled s.toGlobals)
    (ht : Demoos.step alg s op = some t) (hp : s.processes p = some p)
    (hkeep : p = s.currentProcess → op.interrupt = true)
    (hw : (t.pcb p).state.blocked = true) : (t.pcb p).state = (s.pcb p).state := by
  have hop' : op.Enabled a.toGlobals := by rw [← h.refines.globals]; exact hop
  obtain ⟨b, hb, hrep⟩ := h.step hop ht
  rw [hrep.refines.state_eq] at hw ⊢
  rw [h.law.waits_step h.current hop' hb (h.registered_iff.mp hp) hw, h.refines.state_eq]
  by_cases hcur : p = a.currentProcess
  · rw [Op.givenUp_of_interrupt (hkeep (hcur.trans h.refines.currentProcess.symm))]
  · rw [Sched.proc_givenUp_of_ne op hcur]

/-- Who blocks waits for what it has blocked for, if it waits. -/
theorem waits_block {why : Blocking} (h : Represents s a) (hi : s.currentProcess ≠ initProcess)
    (ht : block alg why s = some t) (hw : (t.pcb s.currentProcess).state.blocked = true) :
    (t.pcb s.currentProcess).state = why.state := by
  have hop' : (Op.block why).Enabled a.toGlobals := by
    rw [← h.refines.globals]
    exact hi
  have hop : (Op.block why).Enabled s.toGlobals := hi
  obtain ⟨b, hb, hrep⟩ := h.step hop ht
  rw [h.refines.currentProcess] at hw ⊢
  rw [hrep.refines.state_eq] at hw ⊢
  rw [h.law.waits_step h.current hop' hb h.current.registered hw, Sched.givenUp, Sched.block,
    Sched.proc_modify, if_pos rfl]

end Represents

/-! ## The loop over `processes[]` -/

theorem Readied.not_waiting {s s' : KState} {p : Pid} (h : Readied s s')
    (hp : (s.pcb p).state ≠ .waitingUartInput) :
    (s'.pcb p).state ≠ .waitingUartInput := by
  rcases h.proc p with he | hready
  · rw [show (s'.pcb p).state = (s.pcb p).state from congrArg Proc.state he]
    exact hp
  · rw [hready]
    exact nofun

/-- No process of the table waits for the UART. -/
def Awake (s : KState) : Prop :=
  ∀ i < s.nProcesses, ∀ p, s.processes i = some p → (s.pcb p).state ≠ .waitingUartInput

theorem Awake.readied {s s' : KState} (h : Awake s) (hr : Readied s s') : Awake s' := by
  intro i hi p hp
  rw [hr.globals] at hi hp
  exact hr.not_waiting (h i hi p hp)

variable {alg : Algorithm}

theorem awake_wakeSlot {s : KState} {i : Nat} {p : Pid} (hp : s.processes i = some p) :
    ((wakeSlot alg (·.state == .waitingUartInput) Proc.makeReady s i).pcb p).state ≠
      .waitingUartInput := by
  unfold wakeSlot
  rw [hp]
  dsimp only
  split
  next =>
    refine (Readied.enqueueProcess alg _ p).not_waiting ?_
    rw [KState.toProc_modify, if_pos rfl]
    exact nofun
  next hw => exact fun he => hw (beq_iff_eq.mpr he)

/-- The slots that the loop has gone through are awake. -/
theorem readied_wakeAll (s : KState) (n : Nat) :
    let s' := wakeAll alg (·.state == .waitingUartInput) Proc.makeReady n s
    Readied s s' ∧
      ∀ i < n, ∀ p, s.processes i = some p → (s'.pcb p).state ≠ .waitingUartInput := by
  induction n with
  | zero => exact ⟨.refl s, fun i hi => absurd hi (Nat.not_lt_zero i)⟩
  | succ n ih =>
      obtain ⟨hr, hawake⟩ := ih
      unfold wakeAll at hr hawake ⊢
      rw [List.range_succ, List.foldl_append]
      have hslot := Readied.wakeSlot alg (·.state == .waitingUartInput)
        ((List.range n).foldl (wakeSlot alg (·.state == .waitingUartInput) Proc.makeReady) s) n
      refine ⟨hr.trans hslot, fun i hi p hp => ?_⟩
      rcases Nat.lt_succ_iff_lt_or_eq.mp hi with hlt | rfl
      · exact hslot.not_waiting (hawake i hlt p hp)
      · exact awake_wakeSlot (by rw [hr.globals]; exact hp)

theorem awake_uartReceive {s : KState} {dr : BitVec 32} (hok : (dr >>> 8) &&& 0xF#32 = 0#32) :
    Awake (uartReceive alg s dr) := by
  unfold uartReceive
  rw [if_pos hok]
  obtain ⟨hr, hawake⟩ := @readied_wakeAll alg s s.nProcesses
  intro i hi p hp
  rw [hr.globals] at hi hp
  exact hawake i hi p hp

theorem readied_uartReceive (s : KState) (dr : BitVec 32) : Readied s (uartReceive alg s dr) := by
  unfold uartReceive
  split
  next => exact (readied_wakeAll s s.nProcesses).1
  next => exact .refl s

theorem readied_receiveAll (words : List (BitVec 32)) (s : KState) :
    Readied s (words.foldl (uartReceive alg) s) := by
  induction words generalizing s with
  | nil => exact .refl s
  | cons dr words ih => exact (readied_uartReceive s dr).trans (ih _)

theorem awake_receiveAll {words : List (BitVec 32)} {s : KState}
    (h : Awake s ∨ ∃ dr ∈ words, (dr >>> 8) &&& 0xF#32 = 0#32) :
    Awake (words.foldl (uartReceive alg) s) := by
  induction words generalizing s with
  | nil =>
      refine h.resolve_right ?_
      rintro ⟨_, hmem, _⟩
      exact absurd hmem List.not_mem_nil
  | cons dr words ih =>
      refine ih ?_
      rcases h with ha | ⟨x, hx, hok⟩
      · exact .inl (ha.readied (readied_uartReceive s dr))
      · rcases List.mem_cons.mp hx with rfl | hx
        · exact .inl (awake_uartReceive hok)
        · exact .inr ⟨x, hx, hok⟩

/-- A word without an error flag makes a reader that waits ready. -/
theorem ready_receiveAll {words : List (BitVec 32)} {s : KState} {i : Nat} {p : Pid}
    (hok : ∃ dr ∈ words, (dr >>> 8) &&& 0xF#32 = 0#32) (hi : i < s.nProcesses)
    (hp : s.processes i = some p) (hw : (s.pcb p).state = .waitingUartInput) :
    ((words.foldl (uartReceive alg) s).pcb p).state = .ready := by
  have hr : Readied s (words.foldl (uartReceive alg) s) := readied_receiveAll words s
  rcases hr.proc p with he | hready
  · refine absurd ((congrArg Proc.state he).trans hw) ?_
    exact awake_receiveAll (.inr hok) i (by rw [hr.globals]; exact hi) p (by rw [hr.globals]; exact hp)
  · exact hready

end Demoos
