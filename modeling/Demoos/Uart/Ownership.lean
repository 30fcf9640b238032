import Demoos.Scheduler.LifeCycle
import Demoos.Uart.Input

/-!
# The owner of the UART

A reader owns the UART until it has read a line.  It cannot exit before, but it can
be killed: it is ready again with every character that arrives, and a decision
that comes upon it carries out a pending `SIGNAL_KILL` and nobody takes the UART away
from it.

This is the only way.  A run keeps the UART out of the hands of the dead exactly if
none of its decisions kills the owner.
-/

namespace Demoos

open Function (update update_self update_of_ne)

/-! ## Deaths -/

namespace Sched

variable {a b : Sched} {alg : Algorithm} {c : Choice} {op : Op} {p : Pid}

/-- A process that dies in a decision is visited with a kill pending. -/
theorem Decides.dies_iff (h : Decides alg a b c) (hi : p ≠ initProcess)
    (hz : (a.proc p).state ≠ .zombie) :
    (b.proc p).state = .zombie ↔ (a.proc p).pending signalKill = true ∧ p ∈ c.visited := by
  constructor
  · intro hb
    have hcontest : ((a.contest alg).proc p).state ≠ .zombie := by
      rw [state_contest]
      split
      next => decide
      next => exact hz
    rw [h.result, state_dispatch] at hb
    split at hb
    next => exact absurd hb (by decide)
    next =>
      split at hb
      next => exact absurd hb (by decide)
      next =>
        rw [state_commit] at hb
        split at hb
        next hv =>
          rw [Proc.state_handled, field_contest a alg p (·.pending signalKill) (fun _ _ => rfl)
            fun _ _ => rfl] at hb
          split at hb
          next hk => exact ⟨hk, hv⟩
          next =>
            split at hb
            next => exact absurd hb (by decide)
            next => exact absurd hb hcontest
        next => exact absurd hb hcontest
  · rintro ⟨hk, hv⟩
    exact h.kills hi hv hk

theorem state_givenUp_ne_zombie (hz : (a.proc p).state ≠ .zombie)
    (hexit : op = .exit → p ≠ a.currentProcess) : ((a.givenUp op).proc p).state ≠ .zombie := by
  by_cases hp : p = a.currentProcess
  · cases op with
    | block why =>
        rw [givenUp, block, proc_modify, if_pos hp]
        cases why <;> exact ProcessState.noConfusion
    | wait pid =>
        rw [givenUp]
        split
        next =>
          rw [waitFor, proc_modify, if_pos hp]
          exact ProcessState.noConfusion
        next => exact hz
    | exit => exact absurd hp (hexit rfl)
    | _ => exact hz
  · rw [proc_givenUp_of_ne op hp]
    exact hz

/-- Up to its decision an operation kills nobody but a current process that
exits. -/
theorem Law.state_before_ne_zombie (h : a.Law) (hc : a.Current) (hop : op.Enabled a.toGlobals)
    (hp : p < a.nProcesses) (hz : (a.proc p).state ≠ .zombie)
    (hexit : op = .exit → p ≠ a.currentProcess) : ((a.before alg op).proc p).state ≠ .zombie := by
  have hcalm := h.calm_before alg hc hop
  rcases (hcalm.proc p (by rw [toGlobals_givenUp]; exact hp)).state with ⟨he, _⟩ | ⟨_, hready⟩
  · rw [he]
    exact state_givenUp_ne_zombie hz hexit
  · rw [hready]
    decide

end Sched

/-- The operation ends in a decision that comes upon `p` with `SIGNAL_KILL` pending. -/
def Kills (alg : Algorithm) (s : KState) (op : Op) (p : Pid) : Prop :=
  decides alg s op = true ∧ ((before alg s op).pcb p).pending signalKill = true ∧
    ∃ c, ((before alg s op).abstract.contest alg).select alg = some c ∧ p ∈ c.visited

/-- A process that lives dies of such an operation only, unless it exits. -/
theorem Represents.dies_iff {s t : KState} {a : Sched} {alg : Algorithm} {op : Op} {p : Pid}
    (h : Represents s a) (hop : op.Enabled s.toGlobals) (ht : Demoos.step alg s op = some t)
    (hi : p ≠ initProcess) (hp : s.processes p = some p) (hz : (s.pcb p).state ≠ .zombie)
    (hexit : op = .exit → p ≠ s.currentProcess) :
    (t.pcb p).state = .zombie ↔ Kills alg s op p := by
  have hop' : op.Enabled a.toGlobals := by rw [← h.refines.globals]; exact hop
  have hbefore := h.refines.before alg h.law h.current op
  have hlaw := (h.law.calm_before alg h.current hop').law
  obtain ⟨b, hb, hrep⟩ := h.step hop ht
  rw [h.refines.state_eq] at hz
  rw [h.refines.currentProcess] at hexit
  have hz' : ((a.before alg op).proc p).state ≠ .zombie :=
    h.law.state_before_ne_zombie h.current hop' (h.registered_iff.mp hp) hz hexit
  have hpending : ((before alg s op).pcb p).pending signalKill =
      ((a.before alg op).proc p).pending signalKill :=
    congrArg (·.pending signalKill) (hbefore.proc p)
  rw [hrep.refines.state_eq, Kills, hpending, hbefore.abstract_eq hlaw,
    h.refines.decides alg h.law]
  rcases h.law.step_cases h.current hop' hb with ⟨hd, c, hdec⟩ | ⟨hd, rfl⟩
  · rw [hdec.dies_iff hi hz', hdec.selected]
    constructor
    · rintro ⟨hk, hv⟩
      exact ⟨hd, hk, c, rfl, hv⟩
    · rintro ⟨_, hk, c', hc', hv⟩
      rw [Option.some.inj hc']
      exact ⟨hk, hv⟩
  · constructor
    · exact fun hn => absurd hn hz'
    · rintro ⟨hd', _⟩
      rw [hd] at hd'
      exact absurd hd' Bool.false_ne_true

/-! ## `schedule` and the operations -/

theorem modify_modify (s : KState) (p : Pid) (f g : Proc → Proc) :
    (s.modify p f).modify p g = s.modify p fun b => g (f b) := by
  simp [KState.modify]

/-- `schedule` clears the counter itself. -/
theorem closeBurst_setCounter (s : KState) :
    closeBurst (setCounter s s.currentProcess 0) = closeBurst s := by
  have hstate : (setCounter s s.currentProcess 0).current.state = s.current.state := by
    change ((setCounter s s.currentProcess 0).pcb s.currentProcess).toProc.state = _
    rw [setCounter, KState.toProc_modify, if_pos rfl]
    rfl
  unfold closeBurst
  rw [hstate]
  by_cases hb : s.currentProcess ≠ initProcess ∧ s.current.state ≠ .running ∧
      s.current.state ≠ .ready
  · have hb' : (setCounter s s.currentProcess 0).currentProcess ≠ initProcess ∧
      s.current.state ≠ .running ∧ s.current.state ≠ .ready := hb
    rw [if_pos hb', if_pos hb]
    simp only [setCounter, KState.toGlobals_modify, modify_modify, Proc.endBurst]
  · have hb' : ¬ ((setCounter s s.currentProcess 0).currentProcess ≠ initProcess ∧
      s.current.state ≠ .running ∧ s.current.state ≠ .ready) := hb
    rw [if_neg hb', if_neg hb]
    simp only [setCounter, KState.toGlobals_modify, modify_modify]

theorem schedule_eq_step (alg : Algorithm) (s : KState) : schedule alg s = step alg s .yield := by
  rw [step, syscallYield, schedule, schedule, closeBurst_setCounter]

namespace Console

variable {alg : Algorithm} {c d : Console} {e : Event} {op : Op} {p : Pid}

/-! ## The two kinds of events -/

/-- The operation of the scheduler that an event is. -/
def operation (c : Console) : Event → Option Op
  | .kernel op => some op
  | .call _ => none
  | .input => match c.point with
      | .contending _ =>
          if c.uart.owner ≠ none ∧ c.uart.owner ≠ some c.kernel.currentProcess then some .yield
          else none
      | .blocking _ => some (.block .uartInput)
      | _ => none

/-- An operation of the scheduler: nobody enters, leaves or takes over. -/
structure Operates (alg : Algorithm) (op : Op) (c d : Console) : Prop where
  enabled : op.Enabled c.kernel.toGlobals
  kernel : Demoos.step alg c.kernel op = some d.kernel
  owner : d.uart.owner = c.uart.owner
  reader : ∀ p, (d.reader p).point = .outside ↔ (c.reader p).point = .outside
  exit : op = .exit → c.point = .outside

/-- A piece of `syscall_input` that leaves the scheduler alone. -/
structure Silent (c d : Console) : Prop where
  notInit : c.kernel.currentProcess ≠ initProcess
  kernel : d.kernel = c.kernel
  owner : ∀ p, d.uart.owner = some p → (c.uart.owner = some p ∨ p = c.kernel.currentProcess) ∧
    (p = c.kernel.currentProcess → d.point ≠ .outside)
  reader : ∀ p, p ≠ c.kernel.currentProcess → d.reader p = c.reader p

/-- The readers are processes, and the owner is one of them. -/
structure Fit (c : Console) : Prop where
  kernel : ∃ a, Represents c.kernel a
  reader : ∀ p, (c.reader p).point ≠ .outside → p ≠ initProcess ∧ c.kernel.processes p = some p
  owner : ∀ p, c.uart.owner = some p → (c.reader p).point ≠ .outside

theorem reader_setReader (c : Console) (f : Reader → Reader) (p : Pid) :
    (c.setReader f).reader p =
      if p = c.kernel.currentProcess then f (c.reader p) else c.reader p := by
  unfold setReader
  dsimp only
  rw [Function.update_apply]
  split
  next h => rw [h]
  next => rfl

/-- A move of the current process that keeps it in the call. -/
theorem silent_setReader (hi : c.kernel.currentProcess ≠ initProcess) {f : Reader → Reader}
    (hf : (f (c.reader c.kernel.currentProcess)).point ≠ .outside) : Silent c (c.setReader f) where
  notInit := hi
  kernel := rfl
  owner p hp := by
    refine ⟨.inl hp, fun _ => ?_⟩
    change ((c.setReader f).reader c.kernel.currentProcess).point ≠ _
    rw [reader_setReader, if_pos rfl]
    exact hf
  reader p hp := by rw [reader_setReader, if_neg hp]

theorem silent_claim (hi : c.kernel.currentProcess ≠ initProcess) (maxLen : Int) :
    Silent c ({ c with uart.owner := some c.kernel.currentProcess }.setReader
      (·.setPoint (.reading maxLen))) := by
  have hown := silent_setReader (c := { c with uart.owner := some c.kernel.currentProcess }) hi
    (f := (·.setPoint (.reading maxLen))) (nofun : InputPoint.reading maxLen ≠ .outside)
  refine ⟨hi, rfl, fun p hp => ⟨.inr (Option.some.inj hp).symm, (hown.owner p hp).2⟩, hown.reader⟩

theorem silent_readChar (hi : c.kernel.currentProcess ≠ initProcess) {maxLen : Int}
    (hp : c.point = .reading maxLen) : Silent c (c.readChar maxLen) := by
  have hin : c.point ≠ .outside := by
    rw [hp]
    exact InputPoint.noConfusion
  unfold readChar
  dsimp only
  split
  next =>
    exact ⟨hi, rfl, nofun, fun p hp => by rw [reader_setReader, if_neg hp]⟩
  next =>
    have hedit : ((c.reader c.kernel.currentProcess).edit maxLen
        (c.uart.buffer c.uart.tail)).point ≠ .outside := by
      rw [Reader.point_edit]
      exact hin
    have hread := silent_setReader (c := { c with
      uart.tail := (c.uart.tail + 1) % uartBufferSize }) hi
      (f := fun r => r.edit maxLen (c.uart.buffer c.uart.tail)) hedit
    exact ⟨hi, rfl, hread.owner, hread.reader⟩

theorem Fit.notInit (h : c.Fit) (hp : c.point ≠ .outside) :
    c.kernel.currentProcess ≠ initProcess := (h.reader _ hp).1

theorem syscallInput_cases (h : c.Fit) (hd : c.syscallInput alg = some d) :
    (∃ op, c.operation .input = some op ∧ Operates alg op c d) ∨
      (c.operation .input = none ∧ Silent c d) := by
  unfold syscallInput at hd
  dsimp only [operation] at hd ⊢
  cases hp : c.point with
  | outside => rw [hp] at hd; exact absurd hd nofun
  | contending len =>
      have hi : c.kernel.currentProcess ≠ initProcess := h.notInit (by rw [hp]; nofun)
      rw [hp] at hd
      dsimp only at hd ⊢
      split at hd
      next ho =>
        obtain ⟨k, hk, rfl⟩ := Option.map_eq_some_iff.mp hd
        rw [if_pos ho]
        rw [schedule_eq_step] at hk
        exact .inl ⟨.yield, rfl, hi, hk, rfl, fun _ => .rfl, nofun⟩
      next ho =>
        rw [if_neg ho]
        obtain rfl := Option.some.inj hd
        exact .inr ⟨rfl, silent_setReader hi (nofun : InputPoint.claiming len ≠ .outside)⟩
  | claiming len =>
      have hi : c.kernel.currentProcess ≠ initProcess := h.notInit (by rw [hp]; nofun)
      rw [hp] at hd
      obtain rfl := Option.some.inj hd
      exact .inr ⟨rfl, silent_claim hi _⟩
  | reading maxLen =>
      have hi : c.kernel.currentProcess ≠ initProcess := h.notInit (by rw [hp]; nofun)
      rw [hp] at hd
      dsimp only at hd
      refine .inr ⟨rfl, ?_⟩
      split at hd
      next =>
        obtain rfl := Option.some.inj hd
        exact silent_setReader hi (nofun : InputPoint.blocking maxLen ≠ .outside)
      next =>
        obtain rfl := Option.some.inj hd
        exact silent_readChar hi hp
  | blocking maxLen =>
      have hi : c.kernel.currentProcess ≠ initProcess := h.notInit (by rw [hp]; nofun)
      rw [hp] at hd
      obtain ⟨k, hk, rfl⟩ := Option.map_eq_some_iff.mp hd
      refine .inl ⟨.block .uartInput, rfl, hi, hk, rfl, fun p => ?_, nofun⟩
      change ((c.setReader (·.setPoint (.reading maxLen))).reader p).point = _ ↔ _
      rw [reader_setReader]
      split
      next he =>
        subst he
        change InputPoint.reading maxLen = _ ↔ c.point = _
        rw [hp]
        exact ⟨nofun, nofun⟩
      next => exact .rfl

theorem step_cases (h : c.Fit) (hen : c.Enabled e) (hd : c.step alg e = some d) :
    (∃ op, c.operation e = some op ∧ Operates alg op c d) ∨
      (c.operation e = none ∧ Silent c d) := by
  cases e with
  | kernel op =>
      obtain ⟨hop, _, hout⟩ := hen
      obtain ⟨k, hk, rfl⟩ := Option.map_eq_some_iff.mp hd
      refine .inl ⟨op, rfl, hop, hk, ?_, fun _ => .rfl, fun he => ?_⟩
      · cases op with
        | uartIrq mis fifo => exact Uart.owner_handleIrq mis fifo c.uart
        | _ => rfl
      · subst he
        exact hout.resolve_left Bool.false_ne_true
  | call len =>
      obtain rfl := Option.some.inj hd
      exact .inr ⟨rfl, silent_setReader hen.1 (nofun : InputPoint.contending len ≠ .outside)⟩
  | input => exact syscallInput_cases h hd

/-! ## The owner -/

/-- Nobody owns the UART, or somebody who is not dead. -/
def Held (c : Console) : Prop :=
  ∀ p, c.uart.owner = some p → (c.kernel.pcb p).state ≠ .zombie

/-- The event does not kill the owner. -/
def Spared (alg : Algorithm) (c : Console) (e : Event) : Prop :=
  ∀ op, c.operation e = some op → ∀ p, c.uart.owner = some p → ¬ Kills alg c.kernel op p

theorem Silent.fit (h : Silent c d) (hc : c.Fit) : d.Fit := by
  have hpoint : ∀ p, (d.reader p).point ≠ .outside → p = c.kernel.currentProcess ∨
      (c.reader p).point ≠ .outside := by
    intro p hp
    by_cases he : p = c.kernel.currentProcess
    · exact .inl he
    · rw [h.reader p he] at hp
      exact .inr hp
  obtain ⟨a, ha⟩ := hc.kernel
  refine ⟨⟨a, by rw [h.kernel]; exact ha⟩, fun p hp => ?_, fun p hp => ?_⟩
  · rw [h.kernel]
    rcases hpoint p hp with rfl | hp
    · refine ⟨h.notInit, ha.registered_iff.mpr ?_⟩
      rw [ha.refines.currentProcess]
      exact ha.current.registered
    · exact hc.reader p hp
  · obtain ⟨hown, hin⟩ := h.owner p hp
    by_cases he : p = c.kernel.currentProcess
    · subst he
      have hcur : d.kernel.currentProcess = c.kernel.currentProcess := by rw [h.kernel]
      rw [← hcur]
      exact hin rfl
    · rw [h.reader p he]
      exact hc.owner p (hown.resolve_right he)

/-- The current process is not dead. -/
theorem Silent.held (h : Silent c d) (hc : c.Fit) (hheld : c.Held) : d.Held := by
  intro p hp
  rw [h.kernel]
  rcases (h.owner p hp).1 with hown | rfl
  · exact hheld p hown
  · obtain ⟨a, ha⟩ := hc.kernel
    have hrun : a.current.state = .running :=
      ha.current.running (by rw [← ha.refines.currentProcess]; exact h.notInit)
    rw [ha.refines.state_eq, ha.refines.currentProcess]
    change a.current.state ≠ _
    rw [hrun]
    decide

theorem Operates.fit (h : Operates alg op c d) (hc : c.Fit) : d.Fit := by
  obtain ⟨a, ha⟩ := hc.kernel
  obtain ⟨b, hb, hrep⟩ := ha.step h.enabled h.kernel
  have hop' : op.Enabled a.toGlobals := by rw [← ha.refines.globals]; exact h.enabled
  refine ⟨⟨b, hrep⟩, fun p hp => ?_, fun p hp => ?_⟩
  · obtain ⟨hi, hreg⟩ := hc.reader p ((not_congr (h.reader p)).mp hp)
    refine ⟨hi, hrep.registered_iff.mpr (Nat.lt_of_lt_of_le (ha.registered_iff.mp hreg) ?_)⟩
    exact ha.law.nProcesses_step ha.current hop' hb
  · rw [h.owner] at hp
    exact (not_congr (h.reader p)).mpr (hc.owner p hp)

theorem Operates.held_iff (h : Operates alg op c d) (hc : c.Fit) (hheld : c.Held) :
    d.Held ↔ ∀ p, c.uart.owner = some p → ¬ Kills alg c.kernel op p := by
  obtain ⟨a, ha⟩ := hc.kernel
  have hdies : ∀ p, c.uart.owner = some p →
      ((d.kernel.pcb p).state = .zombie ↔ Kills alg c.kernel op p) := by
    intro p hp
    have hin := hc.owner p hp
    obtain ⟨hi, hreg⟩ := hc.reader p hin
    exact ha.dies_iff h.enabled h.kernel hi hreg (hheld p hp) fun he hcur =>
      hin (hcur ▸ h.exit he)
  constructor
  · intro hd p hp hk
    exact hd p (by rw [h.owner]; exact hp) ((hdies p hp).mpr hk)
  · intro hs p hp hz
    rw [h.owner] at hp
    exact hs p hp ((hdies p hp).mp hz)

theorem Fit.next (h : c.Fit) (hd : c.next alg e = some d) : d.Fit := by
  obtain ⟨hen, hd⟩ := Option.ite_none_right_eq_some.mp hd
  rcases step_cases h hen hd with ⟨op, _, hops⟩ | ⟨_, hsilent⟩
  · exact hops.fit h
  · exact hsilent.fit h

/-- One event keeps the UART out of the hands of the dead exactly if it spares the
owner. -/
theorem held_next (h : c.Fit) (hheld : c.Held) (hd : c.next alg e = some d) :
    d.Fit ∧ (d.Held ↔ Spared alg c e) := by
  refine ⟨h.next hd, ?_⟩
  obtain ⟨hen, hd⟩ := Option.ite_none_right_eq_some.mp hd
  rcases step_cases h hen hd with ⟨op, hop, hops⟩ | ⟨hop, hsilent⟩
  · refine (hops.held_iff h hheld).trans ?_
    unfold Spared
    rw [hop]
    constructor
    · intro hs op' he
      rw [← Option.some.inj he]
      exact hs
    · intro hs
      exact hs op rfl
  · refine ⟨fun _ op he => ?_, fun _ => hsilent.held h hheld⟩
    rw [hop] at he
    exact absurd he nofun

theorem fit_boot (timer : Nat → BitVec 32) : (boot timer).Fit where
  kernel := ⟨_, represents_boot timer⟩
  reader _ hp := absurd rfl hp
  owner _ hp := absurd hp nofun

/-- In a run the UART never has a dead owner exactly if no decision of the run comes
upon the owner with `SIGNAL_KILL` pending. -/
theorem held_iff_spared (alg : Algorithm) (timer : Nat → BitVec 32) (es : List Event) :
    Transition.Always (next alg) Held es (boot timer) ↔
      Transition.EachStep (next alg) (Spared alg) es (boot timer) :=
  Transition.always_iff_eachStep (fun _ _ _ hI hP h => held_next hI hP h) (fit_boot timer) nofun

/-- A reader that is killed while it waits for characters. -/
def killedReader : List Event :=
  [.kernel (.copyProcess true), .kernel .timerTick, .kernel (.copyProcess true), .call 16, .input,
    .input, .input, .input, .kernel (.sendSignal 1 1), .kernel (.uartIrq 0x10 [0x61]),
    .kernel .yield]

/-- It owns the UART for ever. -/
theorem dead_owner : ∃ c, Transition.exec (next .roundRobin) killedReader (boot fun _ => 0) = some c ∧
    c.uart.owner = some 1 ∧ ¬ c.Held := by
  obtain ⟨c, hc, hp⟩ := (Option.any_eq_true _ _).mp (show (Transition.exec (next .roundRobin)
    killedReader (boot fun _ => 0)).any (fun c => c.uart.owner = some 1 ∧
      (c.kernel.pcb 1).state = .zombie) = true by decide +kernel)
  obtain ⟨howner, hz⟩ := of_decide_eq_true hp
  exact ⟨c, hc, howner, fun hheld => hheld 1 howner hz⟩

end Console

end Demoos
