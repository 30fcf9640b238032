import Demoos.Ipc.Mailbox
import Demoos.Scheduler.Protection

/-!
# Sleeping and waking

`send_message` and `receive_message` at the grain of their interruptions.  An
attempt to push or to pop, with the wake-ups behind it, is one step, the
assignment of the waiting state behind a failed attempt is another, and the
`schedule()` behind that a third.  A timer tick is possible between any two.

One process receives and all others send to it.  The point of a process is where
it is in its function, with the function's local message.  A point does not move
while its process is switched out.

The waker looks at the state of the sleeper, and the sleeper sets its state
behind its own look at the mailbox.  So the mailbox has to be as the attempt
left it when the state is assigned (`Timely`), and nothing in the code sees to
that.
-/

namespace Demoos

open Function (update update_self update_of_ne)

/-! ## Steps -/

/-- Where a process is in `send_message` or `receive_message`. -/
inductive Point where
  | outside
  | attempt (message : Message)
  | assign (message : Message)
  | schedule (message : Message)
deriving DecidableEq, Repr

def Point.message : Point → Option Message
  | .outside => none
  | .attempt m | .assign m | .schedule m => some m

/-- The kernel, and where its processes are. -/
structure Exchange extends IpcState where
  point : Pid → Point

inductive Move where
  | call (message : Message)
  | attempt
  | assign
  | schedule
  | timerTick
deriving DecidableEq, Repr

namespace Exchange

/-- Is there no message, or no room for one?  The tests of `pop_message` and of
`push_message`. -/
def empty (s : Exchange) (p : Pid) : Prop := s.head p = s.tail p

def full (s : Exchange) (p : Pid) : Prop := Ring.advance maxMessages (s.head p) = s.tail p

instance (s : Exchange) (p : Pid) : Decidable (s.empty p) := by unfold empty; infer_instance

instance (s : Exchange) (p : Pid) : Decidable (s.full p) := by unfold full; infer_instance

/-- The current process goes on. -/
def goto (s : Exchange) (point : Point) : Exchange :=
  { s with point := update s.point s.currentProcess point }

/-- The message of the function that is called, in its memory. -/
def localMessage (receiver : Pid) (s : Exchange) (message : Message) : Message :=
  if s.currentProcess = receiver then message
  else { message with destinationProcess := some receiver }

def attemptPush (alg : Algorithm) (receiver : Pid) (s : Exchange) (message : Message) : Exchange :=
  match pushMessage alg s.toIpcState receiver message with
  | (pushOk, s') =>
      if pushOk = 0 then { s with toIpcState := s' }.goto .outside
      else { s with toIpcState := s' }.goto (.assign message)

def attemptPop (alg : Algorithm) (receiver : Pid) (s : Exchange) (message : Message) : Exchange :=
  match popMessage (IpcState.mailbox receiver) s.toIpcState message with
  | (popOk, message, s') =>
      if popOk = 0 then
        { s with toIpcState := { s' with toKState := wakeSenders alg s'.toKState } }.goto .outside
      else { s with toIpcState := s' }.goto (.assign message)

/-- The state a process assigns behind a failed attempt. -/
def sleepState (receiver : Pid) (s : Exchange) : ProcessState :=
  if s.currentProcess = receiver then .waitingToReceiveMessage else .waitingToSendMessage

/-- A step of the current process, which is not init. -/
def advance (alg : Algorithm) (receiver : Pid) (s : Exchange) : Point → Move → Option Exchange
  | .outside, .call message => some (s.goto (.attempt (s.localMessage receiver message)))
  | .attempt message, .attempt =>
      some (if s.currentProcess = receiver then s.attemptPop alg receiver message
        else s.attemptPush alg receiver message)
  | .assign message, .assign =>
      some ({ s with toKState := s.setState s.currentProcess (s.sleepState receiver) }.goto
        (.schedule message))
  | .schedule message, .schedule =>
      (Demoos.schedule alg s.toKState).map fun k =>
        { s.goto (.attempt message) with toKState := k }
  | _, _ => none

/-- One step. -/
def step (alg : Algorithm) (receiver : Pid) (s : Exchange) : Move → Option Exchange
  | .timerTick => (handleTimerTick alg s.toKState).map fun k => { s with toKState := k }
  | move =>
      if s.currentProcess = initProcess then none
      else s.advance alg receiver (s.point s.currentProcess) move

/-- The state is assigned while the mailbox is as the attempt found it. -/
def Timely (receiver : Pid) (s : Exchange) : Move → Prop
  | .assign => if s.currentProcess = receiver then s.empty receiver else s.full receiver
  | _ => True

instance (receiver : Pid) (s : Exchange) (move : Move) : Decidable (s.Timely receiver move) := by
  cases move <;> unfold Timely <;> infer_instance

/-- Nobody has begun to send or to receive. -/
structure Start (s : Exchange) : Prop where
  table : s.ProcessTable
  outside : ∀ p, s.point p = .outside
  notReceiving : ∀ p, s.processes p = some p → (s.pcb p).state ≠ .waitingToReceiveMessage
  notSending : ∀ p, s.processes p = some p → (s.pcb p).state ≠ .waitingToSendMessage

def Next (alg : Algorithm) (receiver : Pid) (s t : Exchange) : Prop :=
  ∃ move, s.step alg receiver move = some t

def TimelyNext (alg : Algorithm) (receiver : Pid) (s t : Exchange) : Prop :=
  ∃ move, s.Timely receiver move ∧ s.step alg receiver move = some t

/-- No process that has given up the CPU sleeps over a mailbox it could use. -/
structure NoLostWakeUp (receiver : Pid) (s : Exchange) : Prop where
  receive : s.processes receiver = some receiver → s.currentProcess ≠ receiver →
    (s.pcb receiver).state = .waitingToReceiveMessage → s.empty receiver
  send : ∀ p, s.processes p = some p → p ≠ receiver → s.currentProcess ≠ p →
    (s.pcb p).state = .waitingToSendMessage → s.full receiver

end Exchange

/-! ## Nobody begins to wait -/

/-- A change behind which nobody waits that did not wait before. -/
structure NoNewWaiter (s t : KState) : Prop where
  processes : t.processes = s.processes
  waits : ∀ p, (t.pcb p).state.blocked = true → (t.pcb p).state = (s.pcb p).state

section Waiters

variable {s t u : KState} {alg : Algorithm}

theorem Steady.noNewWaiter (h : Steady s t) : NoNewWaiter s t :=
  ⟨h.processes, fun p hw => (h.proc p).waits hw⟩

theorem Switched.noNewWaiter (h : Switched s t) : NoNewWaiter s t := ⟨h.processes, h.waits⟩

theorem NoNewWaiter.trans (h : NoNewWaiter s t) (h' : NoNewWaiter t u) : NoNewWaiter s u where
  processes := h'.processes.trans h.processes
  waits p hw := by
    have hs := h'.waits p hw
    rw [hs] at hw ⊢
    exact h.waits p hw

theorem noNewWaiter_schedule (h : schedule alg s = some t) : NoNewWaiter s t :=
  (steady_closeBurst s).noNewWaiter.trans (pickNext_switched h).noNewWaiter

theorem noNewWaiter_handleTimerTick (h : handleTimerTick alg s = some t) : NoNewWaiter s t := by
  have haccount := (steady_accountTick alg s).noNewWaiter
  unfold handleTimerTick at h
  dsimp only at h
  split at h
  next => exact Option.some.inj h ▸ haccount
  next =>
    have hcounter := haccount.trans
      (steady_setCounter (accountTick alg s) (accountTick alg s).currentProcess 0).noNewWaiter
    split at h
    next => exact hcounter.trans (pickNext_switched h).noNewWaiter
    next => exact Option.some.inj h ▸ hcounter

/-- A woken process is in none of the waiting states. -/
theorem state_wake (alg : Algorithm) (s : KState) (p : Pid) :
    ((enqueueProcess alg (s.modify p Proc.makeReady) p).pcb p).state.blocked = false := by
  rw [Bool.eq_false_iff]
  intro hw
  have hproc := KState.toProc_modify s p p Proc.makeReady
  rw [if_pos rfl] at hproc
  rw [((steady_enqueueProcess (s.modify p Proc.makeReady) p alg).proc p).waits hw, hproc] at hw
  exact absurd hw Bool.false_ne_true

theorem state_wakeReceiver (alg : Algorithm) (s : KState) (p : Pid) :
    ((wakeReceiver alg s p).pcb p).state ≠ .waitingToReceiveMessage := by
  unfold wakeReceiver
  split
  next =>
    intro he
    have hwake := state_wake alg s p
    rw [he] at hwake
    exact absurd hwake Bool.noConfusion
  next h => exact h

/-- The loop of `receive_message` misses no sender. -/
theorem state_wakeAll (alg : Algorithm) {st : ProcessState} (hst : st.blocked = true) {p : Pid}
    (hp : s.processes p = some p) {n : Nat} (hlt : p < n) :
    ((wakeAll alg (·.state == st) Proc.makeReady n s).pcb p).state ≠ st := by
  induction n with
  | zero => exact absurd hlt (Nat.not_lt_zero p)
  | succ n ih =>
      have hwoken : Steady s (wakeAll alg (·.state == st) Proc.makeReady n s) :=
        steady_wakeAll alg .makeReady n s
      have hslot : Steady _ (wakeSlot alg (·.state == st) Proc.makeReady
          (wakeAll alg (·.state == st) Proc.makeReady n s) n) := steady_wakeSlot alg .makeReady _ n
      intro he
      rw [wakeAll_succ] at he
      rcases Nat.lt_succ_iff_lt_or_eq.mp hlt with hlt | rfl
      · have hkeep := (hslot.proc p).waits (by rw [he]; exact hst)
        exact ih hlt (hkeep.symm.trans he)
      · have hreg := (congrFun hwoken.processes p).trans hp
        unfold wakeSlot at he
        rw [hreg] at he
        dsimp only at he
        split at he
        next =>
          have hwake := state_wake alg (wakeAll alg (·.state == st) Proc.makeReady p s) p
          rw [he, hst] at hwake
          exact absurd hwake Bool.noConfusion
        next hne => exact hne (beq_iff_eq.mpr he)

theorem state_wakeSenders (alg : Algorithm) {p : Pid} (hp : s.processes p = some p)
    (hlt : p < maxProcesses) :
    ((wakeSenders alg s).pcb p).state ≠ .waitingToSendMessage := by
  rw [wakeSenders]
  exact state_wakeAll alg rfl hp hlt

end Waiters

/-! ## The mailbox and the sleepers -/

/-- The memory of a mailbox holds no state of a process. -/
theorem noNewWaiter_storeMessage {s t : IpcState} {p : Pid} {message : Message} {pushOk : Int}
    (h : storeMessage (IpcState.mailbox p) s message = (pushOk, t)) :
    NoNewWaiter s.toKState t.toKState := by
  have hwrite : ∀ i, NoNewWaiter s.toKState (s.writeBuffer p i message).toKState := by
    intro i
    unfold IpcState.writeBuffer
    split
    next => exact (Steady.refl _).noNewWaiter
    next =>
      refine ⟨rfl, fun q _ => ?_⟩
      refine (congrArg Proc.state (KState.toProc_setNext _ p q _)).trans ?_
      exact state_modify _ p q fun _ => rfl
  rw [storeMessage_eq] at h
  split at h
  next => exact (Prod.mk.inj h).2 ▸ (Steady.refl _).noNewWaiter
  next => exact (Prod.mk.inj h).2 ▸ hwrite _

namespace Exchange

variable {alg : Algorithm} {receiver : Pid} {s t : Exchange}

/-- A sleeper sleeps over a mailbox it cannot use.  A message says where it
goes. -/
structure Sound (receiver : Pid) (s : Exchange) : Prop where
  slots : ∀ i p, s.processes i = some p → p = i ∧ i < maxProcesses
  receive : s.processes receiver = some receiver →
    (s.pcb receiver).state = .waitingToReceiveMessage → s.empty receiver
  send : ∀ p, s.processes p = some p → p ≠ receiver →
    (s.pcb p).state = .waitingToSendMessage → s.full receiver
  destination : ∀ p m, p ≠ receiver → (s.point p).message = some m →
    m.destinationProcess = some receiver

theorem Sound.noLostWakeUp (h : s.Sound receiver) : s.NoLostWakeUp receiver :=
  ⟨fun hr _ => h.receive hr, fun p hp hne _ => h.send p hp hne⟩

theorem Start.sound (h : s.Start) : s.Sound receiver where
  slots i p hp := by
    rw [h.table.slots] at hp
    split at hp
    next hlt => exact ⟨(Option.some.inj hp).symm, Nat.lt_of_lt_of_le hlt h.table.bound⟩
    next => exact absurd hp (by simp)
  receive hr hs := absurd hs (h.notReceiving _ hr)
  send p hp _ hs := absurd hs (h.notSending p hp)
  destination p m _ hm := by rw [h.outside] at hm; exact absurd hm (by simp [Point.message])

theorem Sound.goto (h : s.Sound receiver) (point : Point)
    (hm : s.currentProcess ≠ receiver → ∀ m, point.message = some m →
      m.destinationProcess = some receiver) : (s.goto point).Sound receiver where
  slots := h.slots
  receive := h.receive
  send := h.send
  destination p m hne hp := by
    simp only [Exchange.goto] at hp
    by_cases he : p = s.currentProcess
    · subst he
      rw [update_self] at hp
      exact hm hne m hp
    · rw [update_of_ne he] at hp
      exact h.destination p m hne hp

/-- A change of the kernel that lets nobody wait, with the mailbox as it was. -/
theorem Sound.kernel (h : s.Sound receiver) {k : KState} (hk : NoNewWaiter s.toKState k) :
    ({ s with toKState := k } : Exchange).Sound receiver where
  slots i p hp := h.slots i p (hk.processes ▸ hp)
  receive hr hs := by
    have hkeep := hk.waits receiver (by rw [hs]; rfl)
    exact h.receive (hk.processes ▸ hr) (hkeep.symm.trans hs)
  send p hp hne hs := by
    have hkeep := hk.waits p (by rw [hs]; rfl)
    exact h.send p (hk.processes ▸ hp) hne (hkeep.symm.trans hs)
  destination := h.destination

/-- A message that goes in finds room, so no sender sleeps, and it wakes the
receiver. -/
theorem Sound.attemptPush (h : s.Sound receiver) {message : Message}
    (hm : message.destinationProcess = some receiver) :
    (s.attemptPush alg receiver message).Sound receiver := by
  unfold Exchange.attemptPush
  by_cases hfull : s.full receiver
  · have hpush : pushMessage alg s.toIpcState receiver message = (-1, s.toIpcState) := by
      rw [pushMessage, store_full hfull]
      rfl
    rw [hpush]
    exact h.goto (.assign message) fun _ m hp => Option.some.inj hp ▸ hm
  · have hpush : pushMessage alg s.toIpcState receiver message =
        (0, call alg receiver s.toIpcState (.push message)) := by
      rw [call, pushMessage, store_room hfull]
      rfl
    have hroom : storeMessage (IpcState.mailbox receiver) s.toIpcState message = _ :=
      store_room hfull
    have hstore := noNewWaiter_storeMessage hroom
    have hwake := hstore.trans (steady_wakeReceiver alg _ receiver).noNewWaiter
    have hsound : ({ s with toIpcState := call alg receiver s.toIpcState (.push message) } :
        Exchange).Sound receiver := by
      rw [call_push hfull, wakeDestination, hm]
      refine ⟨fun i p hp => ?_, fun _ hs => ?_, fun p hp hne hs => ?_, h.destination⟩
      · exact h.slots i p (hwake.processes ▸ hp)
      · exact absurd hs (state_wakeReceiver alg _ receiver)
      · have hkeep := hwake.waits p (by rw [hs]; rfl)
        exact absurd (h.send p (hwake.processes ▸ hp) hne (hkeep.symm.trans hs)) hfull
    rw [hpush]
    exact hsound.goto .outside fun _ _ hp => by cases hp

/-- A message that comes out was there, so the receiver does not sleep, and it
wakes all senders. -/
theorem Sound.attemptPop (h : s.Sound receiver) (hcur : s.currentProcess = receiver)
    {message : Message} : (s.attemptPop alg receiver message).Sound receiver := by
  unfold Exchange.attemptPop
  by_cases hempty : s.empty receiver
  · rw [pop_empty hempty]
    exact h.goto (.assign message) fun hne => absurd hcur hne
  · have hwake : NoNewWaiter s.toKState (wakeSenders alg s.toKState) :=
      (steady_wakeAll alg .makeReady _ _).noNewWaiter
    have hawake : ∀ p, s.processes p = some p →
        ((wakeSenders alg s.toKState).pcb p).state ≠ .waitingToSendMessage :=
      fun p hp => state_wakeSenders alg hp (h.slots p p hp).2
    rw [pop_some hempty]
    dsimp only
    rw [if_pos rfl]
    refine Sound.goto ?_ .outside fun _ _ => nofun
    generalize wakeSenders alg s.toKState = k at hwake hawake
    refine ⟨fun i p hp => ?_, fun hr hs => ?_, fun p hp _ hs => ?_, h.destination⟩
    · exact h.slots i p (hwake.processes ▸ hp)
    · have hkeep := hwake.waits receiver (by rw [hs]; rfl)
      exact absurd (h.receive (hwake.processes ▸ hr) (hkeep.symm.trans hs)) hempty
    · exact absurd hs (hawake p (hwake.processes ▸ hp))

/-- The assignment is sound exactly for a mailbox that has stayed as it was. -/
theorem Sound.assign (h : s.Sound receiver) (hready : s.Timely receiver .assign) :
    ({ s with toKState := s.setState s.currentProcess (s.sleepState receiver) } :
      Exchange).Sound receiver := by
  have hstate : ∀ p, p ≠ s.currentProcess →
      ((s.setState s.currentProcess (s.sleepState receiver)).pcb p).state = (s.pcb p).state := by
    intro p hne
    refine (congrArg Proc.state (KState.toProc_modify ..)).trans ?_
    rw [if_neg hne]
  rw [Timely] at hready
  refine ⟨h.slots, fun hr hs => ?_, fun p hp hne hs => ?_, h.destination⟩
  · by_cases hcur : s.currentProcess = receiver
    · rw [if_pos hcur] at hready
      exact hready
    · exact h.receive hr ((hstate receiver (Ne.symm hcur)).symm.trans hs)
  · by_cases hcur : p = s.currentProcess
    · rw [if_neg (hcur ▸ hne)] at hready
      exact hready
    · exact h.send p hp hne ((hstate p hcur).symm.trans hs)

theorem Sound.advance (h : s.Sound receiver) {move : Move} (htimely : s.Timely receiver move)
    (hstep : s.advance alg receiver (s.point s.currentProcess) move = some t) :
    t.Sound receiver := by
  have hmessage : s.currentProcess ≠ receiver → ∀ m,
      (s.point s.currentProcess).message = some m → m.destinationProcess = some receiver :=
    fun hne m => h.destination _ m hne
  generalize s.point s.currentProcess = point at hstep hmessage
  unfold Exchange.advance at hstep
  split at hstep
  next message =>
    obtain rfl := Option.some.inj hstep
    refine h.goto (.attempt _) fun hne m hm => ?_
    rw [← Option.some.inj hm, localMessage, if_neg hne]
  next message =>
    obtain rfl := Option.some.inj hstep
    split
    next hcur => exact h.attemptPop hcur
    next hne => exact h.attemptPush (hmessage hne message rfl)
  next message =>
    obtain rfl := Option.some.inj hstep
    exact (h.assign htimely).goto (.schedule message) fun hne m hm => hmessage hne m hm
  next message =>
    obtain ⟨k, hk, rfl⟩ := Option.map_eq_some_iff.mp hstep
    exact (h.goto (.attempt message) fun hne m hm => hmessage hne m hm).kernel
      (noNewWaiter_schedule hk)
  next => exact absurd hstep (by simp)

theorem Sound.step (h : s.Sound receiver) (hnext : TimelyNext alg receiver s t) :
    t.Sound receiver := by
  obtain ⟨move, htimely, hstep⟩ := hnext
  unfold Exchange.step at hstep
  split at hstep
  next =>
    obtain ⟨k, hk, rfl⟩ := Option.map_eq_some_iff.mp hstep
    exact h.kernel (noNewWaiter_handleTimerTick hk)
  next => exact h.advance htimely (Option.ite_none_left_eq_some.mp hstep).2

end Exchange

/-- No wake-up is lost in a run that assigns a waiting state only while the
mailbox is as the failed attempt found it. -/
theorem noLostWakeUp_of_timely {alg : Algorithm} {receiver : Pid} {s : Exchange}
    (h : Transition.Reachable Exchange.Start (Exchange.TimelyNext alg receiver) s) :
    s.NoLostWakeUp receiver :=
  (h.invariant (fun _ hs => hs.sound) fun _ _ hs hnext => hs.step hnext).noLostWakeUp

/-! ## Two runs under Round Robin -/

/-- The kernel in a state nobody sends or receives in. -/
def Exchange.enter (s : KState) : Exchange where
  toIpcState := withMailboxes s
  point _ := .outside

/-- A run that the evaluator takes to a state with the property `P`, from the
kernel behind the given operations. -/
theorem exists_exchange (alg : Algorithm) (ops : List Op)
    (f : Exchange → Move → Option Exchange) (moves : List Move) (P : Exchange → Prop)
    [DecidablePred P]
    (h : (afterBoot alg ops).any (fun k => decide ((∀ p < k.nProcesses,
      (k.pcb p).state.blocked = false) ∧
        (Transition.exec f moves (.enter k)).any (P ·) = true)) = true) :
    ∃ k s, afterBoot alg ops = some k ∧ (Exchange.enter k).Start ∧
      Transition.exec f moves (.enter k) = some s ∧ P s := by
  obtain ⟨k, hk, hreach, hwait, hrun⟩ := exists_afterBoot alg ops _ h
  obtain ⟨s, hs, hP⟩ := (Option.any_eq_true _ _).mp hrun
  obtain ⟨a, ha⟩ := hreach.represents
  have htable := ha.queueLaw.table
  have hnot : ∀ p st, st.blocked = true → k.processes p = some p → (k.pcb p).state ≠ st := by
    intro p st hst hp he
    have hfalse := hwait p (htable.registered_iff.mp hp)
    rw [he, hst] at hfalse
    exact absurd hfalse Bool.noConfusion
  exact ⟨k, s, hk, ⟨htable, fun _ => rfl, fun p => hnot p _ rfl, fun p => hnot p _ rfl⟩, hs,
    of_decide_eq_true hP⟩

/-- The receiver sleeps in time, and the message of the sender wakes it. -/
theorem noLostWakeUp_timely : ∃ k s,
    afterBoot .roundRobin [.copyProcess true, .timerTick, .copyProcess true] = some k ∧
      Transition.exec (fun s move => if s.Timely 1 move then s.step .roundRobin 1 move else none)
        [.call greeting, .attempt, .assign, .schedule, .call greeting, .attempt]
        (Exchange.enter k) = some s ∧
      s.NoLostWakeUp 1 := by
  obtain ⟨k, s, hk, hstart, hs, _⟩ := exists_exchange .roundRobin
    [.copyProcess true, .timerTick, .copyProcess true]
    (fun s move => if s.Timely 1 move then s.step .roundRobin 1 move else none)
    [.call greeting, .attempt, .assign, .schedule, .call greeting, .attempt]
    (fun _ => True) (by decide +kernel)
  refine ⟨k, s, hk, hs, @noLostWakeUp_of_timely .roundRobin 1 s ⟨_, hstart, ?_⟩⟩
  refine Transition.run_exec (fun s move t ht => ?_) hs
  obtain ⟨htimely, hstep⟩ := Option.ite_none_right_eq_some.mp ht
  exact ⟨move, htimely, hstep⟩

/-- The time slice of the receiver ends between its failed attempt and its
assignment, and the message comes in between. -/
def lateSleep : List Move :=
  [.call greeting, .attempt] ++ List.replicate 10 .timerTick ++ [.call greeting, .attempt] ++
    List.replicate 10 .timerTick ++ [.assign, .schedule]

theorem lostWakeUp_lateSleep : ∃ s,
    Transition.Reachable Exchange.Start (Exchange.Next .roundRobin 1) s ∧
      ¬ s.NoLostWakeUp 1 := by
  obtain ⟨k, s, hk, hstart, hs, hreg, hcur, hstate, hmail⟩ := exists_exchange .roundRobin
    [.copyProcess true, .timerTick, .copyProcess true] (fun s move => s.step .roundRobin 1 move)
    lateSleep (fun s => s.processes 1 = some 1 ∧ s.currentProcess = 2 ∧
      (s.pcb 1).state = .waitingToReceiveMessage ∧ ¬ s.empty 1) (by decide +kernel)
  refine ⟨s, ⟨_, hstart, Transition.run_exec (fun s move t ht => ⟨move, ht⟩) hs⟩, fun h => ?_⟩
  exact hmail (h.receive hreg (by rw [hcur]; decide) hstate)

end Demoos
