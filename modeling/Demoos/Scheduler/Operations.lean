import Demoos.Scheduler.Pick

/-!
# Kernel operations

Everything that changes the scheduler's state from the outside: the timer tick
with the bookkeeping of the multilevel algorithms, the UART interrupt, process
creation and exit, the wake-ups of the message functions, `syscall_wait`,
`syscall_yield`, `send_signal` and `sched_set_param`.  `step` runs one of them
as one atomic operation, and `boot` is the state the kernel starts in.

Contents of mailboxes and of the UART ring are left out.  A successful
`push_message` is the test and the wake-up behind it, and a successful
`receive_message` is its loop over the waiting senders.

Three loops scan `processes[]`.  Only the one of `exit_process` skips empty
slots.  The one of `handle_uart_irq` stops at `n_processes`, and the one of
`receive_message` reads the state field behind a null pointer in an empty slot.
Here an empty slot is skipped in all three.
-/

namespace Demoos

/-! ## Timer tick -/

/-- `while ((p = dequeue_process_from(q)) != NULL)` of the boost. -/
def boostQueue (q : Int) : Nat → KState → KState
  | 0, s => s
  | fuel + 1, s =>
      match dequeueProcessFrom s (.mlQueues q) with
      | (none, s) => s
      | (some p, s) =>
          let s := { s with queueLevel := Function.update s.queueLevel p 0 }
          boostQueue q fuel (enqueueProcessTo s (.mlQueues 0) p)

/-- The body of the boost, once its period is over. -/
def boost (policy : MultilevelPolicy) (s : KState) : KState :=
  let s := policy.levels.tail.foldl (fun s q => boostQueue q maxProcesses s) s
  { s with
    queueLevel := fun i => if i < maxProcesses then 0 else s.queueLevel i
    mlTicksSinceBoost := 0 }

/-- The first half of `_multilevel_on_tick`. -/
def boostIfDue (policy : MultilevelPolicy) (s : KState) : KState :=
  if 0 < policy.boostPeriod then
    let s := { s with mlTicksSinceBoost := s.mlTicksSinceBoost + 1 }
    if policy.boostPeriod ≤ s.mlTicksSinceBoost then boost policy s else s
  else s

/-- The second half. -/
def demoteIfExpired (policy : MultilevelPolicy) (s : KState) : KState :=
  if policy.demoteOnExpiry ∧ s.currentProcess ≠ initProcess ∧ s.current.counter ≤ 0 ∧
      s.current.preemptDisabled = 0 ∧ s.queueLevel s.currentProcess < policy.nLevels - 1 then
    { s with queueLevel :=
        Function.update s.queueLevel s.currentProcess (s.queueLevel s.currentProcess + 1) }
  else s

def multilevelOnTick (policy : MultilevelPolicy) (s : KState) : KState :=
  demoteIfExpired policy (boostIfDue policy s)

/-- The column `on_tick`, null for the single-queue algorithms. -/
def Algorithm.onTick (alg : Algorithm) (s : KState) : KState :=
  match alg.mlPolicy with
  | none => s
  | some policy => multilevelOnTick policy s

/-- A tick on the account of the current process. -/
def Proc.tick (b : Proc) : Proc :=
  { b with counter := b.counter - 1, burstTicks := b.burstTicks + 1 }

/-- The part of `handle_timer_tick` in front of its test of the time slice. -/
def accountTick (alg : Algorithm) (s : KState) : KState :=
  alg.onTick (s.modify s.currentProcess Proc.tick)

def handleTimerTick (alg : Algorithm) (s : KState) : Option KState :=
  let s := accountTick alg s
  if 0 < s.current.counter ∨ 0 < s.current.preemptDisabled then some s
  else
    let s := setCounter s s.currentProcess 0
    if alg.isPreemptive then pickNext alg s else some s

/-! ## Wake-ups -/

/-- The body of a loop over `processes[]` that wakes the processes for which
`waits` holds. -/
def wakeSlot (alg : Algorithm) (waits : Proc → Bool) (wake : Proc → Proc) (s : KState) (i : Nat) :
    KState :=
  match s.processes i with
  | none => s
  | some p =>
      if waits (s.pcb p).toProc then enqueueProcess alg (s.modify p wake) p else s

/-- The loop over the first `bound` slots. -/
def wakeAll (alg : Algorithm) (waits : Proc → Bool) (wake : Proc → Proc) (bound : Nat)
    (s : KState) : KState :=
  (List.range bound).foldl (wakeSlot alg waits wake) s

def Proc.makeReady (b : Proc) : Proc := { b with state := .ready }

/-- The loop of `receive_message`. -/
def wakeSenders (alg : Algorithm) (s : KState) : KState :=
  wakeAll alg (·.state == .waitingToSendMessage) Proc.makeReady maxProcesses s

/-- The end of a successful `push_message`. -/
def wakeReceiver (alg : Algorithm) (s : KState) (destination : Pid) : KState :=
  if (s.pcb destination).state = .waitingToReceiveMessage then
    enqueueProcess alg (s.modify destination Proc.makeReady) destination
  else s

/-- What `handle_uart_irq` does for one word of the receive FIFO: a character
without an error flag wakes the readers. -/
def uartReceive (alg : Algorithm) (s : KState) (dr : BitVec 32) : KState :=
  if (dr >>> 8) &&& 0xF#32 = 0#32 then
    wakeAll alg (·.state == .waitingUartInput) Proc.makeReady s.nProcesses s
  else s

/-- `mis` is the masked interrupt status and `fifo` the words read until the
receive FIFO is empty. -/
def handleUartIrq (alg : Algorithm) (mis : BitVec 32) (fifo : List (BitVec 32)) (s : KState) :
    KState :=
  if mis.getLsbD 4 then fifo.foldl (uartReceive alg) s else s

/-! ## Process creation and exit -/

def addProcessToScheduler (alg : Algorithm) (s : KState) (process : Pid) : Int × KState :=
  if maxProcesses ≤ s.nProcesses ∨ maxProcesses ≤ process then (-1, s)
  else
    let s := { s with processes := Function.update s.processes process (some process) }
    let level := max (s.pcb process).queuePriority 0
    let level := min level (mlMaxLevels - 1)
    let level := match alg.mlPolicy with
      | none => level
      | some policy => if (policy.nLevels : Int) ≤ level then policy.nLevels - 1 else level
    let s := { s with queueLevel := Function.update s.queueLevel process level }
    let s := if (s.pcb process).state = .ready then enqueueProcess alg s process else s
    (0, { s with nProcesses := s.nProcesses + 1 })

/-- The PCB `copy_process` fills in for a child of `parent`, on a zeroed page. -/
def childPcb (parent : PCB) : PCB where
  state := .ready
  counter := 10
  priority := parent.priority
  estBurst := parent.estBurst
  burstTicks := 0
  queuePriority := parent.queuePriority
  tickets := parent.tickets
  preemptDisabled := 1
  pendingSignals := 0
  pidToWait := 0
  nextReady := none

/-- `page` says whether `allocate_kernel_page` found a page. -/
def copyProcess (alg : Algorithm) (page : Bool) (s : KState) : Int × KState :=
  let s := preemptDisable s
  if page = false ∨ maxProcesses ≤ s.nProcesses then (-1, s)
  else
    let processId := s.nProcesses
    let s := { s with pcb := Function.update s.pcb processId (childPcb s.current) }
    let (error, s) := addProcessToScheduler alg s processId
    if error < 0 then (-1, s) else (processId, preemptEnable s)

/-- Does `b` wait for the process `pid`? -/
def Proc.waitsFor (pid : Pid) (b : Proc) : Bool :=
  b.state == .waitingAnotherProcess && b.pidToWait == (pid : Int)

def Proc.endWait (b : Proc) : Proc := { b with state := .ready, pidToWait := -1 }

/-- The critical section of `exit_process`. -/
def retireCurrent (alg : Algorithm) (s : KState) : KState :=
  let s := preemptDisable s
  let s := s.setState s.currentProcess .zombie
  let s := wakeAll alg (Proc.waitsFor s.currentProcess) Proc.endWait maxProcesses s
  preemptEnable s

def exitProcess (alg : Algorithm) (s : KState) : Option KState := schedule alg (retireCurrent alg s)

/-! ## Other system calls -/

/-- The test of `search_process` on slot `i`. -/
def slotHolds (s : KState) (pid : Int) (i : Nat) : Bool :=
  match s.processes i with
  | none => false
  | some p => (p : Int) == pid

def searchProcess (s : KState) (pid : Int) : Option Pid :=
  ((List.range maxProcesses).find? (slotHolds s pid)).bind s.processes

/-- The two assignments of `syscall_wait`. -/
def waitFor (s : KState) (pid : Int) : KState :=
  (s.setState s.currentProcess .waitingAnotherProcess).modify s.currentProcess
    fun b => { b with pidToWait := pid }

/-- `syscall_wait`, up to and including its `schedule()`. -/
def syscallWait (alg : Algorithm) (pid : Int) (s : KState) : Option KState :=
  match searchProcess s pid with
  | none => some s
  | some d => if (s.pcb d).state = .zombie then some s else schedule alg (waitFor s pid)

def syscallYield (alg : Algorithm) (s : KState) : Option KState :=
  schedule alg (setCounter s s.currentProcess 0)

/-- The other three ways to block: `syscall_input` without input, a failed
`pop_message` in `receive_message`, a failed `push_message` in `send_message`. -/
inductive Blocking where
  | uartInput
  | receiveMessage
  | sendMessage
deriving DecidableEq, Repr

def Blocking.state : Blocking → ProcessState
  | .uartInput => .waitingUartInput
  | .receiveMessage => .waitingToReceiveMessage
  | .sendMessage => .waitingToSendMessage

/-- The assignment of the waiting state and the `schedule()` behind it. -/
def block (alg : Algorithm) (why : Blocking) (s : KState) : Option KState :=
  schedule alg (s.setState s.currentProcess why.state)

/-- The shift of `1 << signal_flag` takes the low five bits of the flag. -/
def sendSignal (s : KState) (destination : Pid) (signalFlag : Int) : KState :=
  s.modify destination fun b =>
    { b with pendingSignals := b.pendingSignals ||| (1#32 <<< (signalFlag % 32).toNat) }

-- `SCHED_PARAM_*`.
def schedParamPriority : Int := 0
def schedParamTickets : Int := 1
def schedParamQueuePriority : Int := 2

def schedSetParam (alg : Algorithm) (s : KState) (process : Pid) (param value : Int) :
    Int × KState :=
  if process = initProcess then (-1, s)
  else if param = schedParamPriority then
    if value < 1 then (-1, s) else (0, s.modify process fun b => { b with priority := value })
  else if param = schedParamTickets then
    if value < 1 then (-1, s) else (0, s.modify process fun b => { b with tickets := value })
  else if param = schedParamQueuePriority then
    if value < 0 ∨ mlMaxLevels ≤ value then (-1, s)
    else
      let value := match alg.mlPolicy with
        | none => value
        | some policy => if (policy.nLevels : Int) ≤ value then policy.nLevels - 1 else value
      let s := preemptDisable s
      let s := s.modify process fun b => { b with queuePriority := value }
      let s := { s with queueLevel := Function.update s.queueLevel process value }
      (0, preemptEnable s)
  else (-1, s)

/-! ## Operations and runs -/

/-- One atomic kernel operation. -/
inductive Op where
  | timerTick
  | uartIrq (mis : BitVec 32) (fifo : List (BitVec 32))
  | yield
  | block (why : Blocking)
  | wait (pid : Int)
  | exit
  | copyProcess (page : Bool)
  | wakeReceiver (destination : Pid)
  | wakeSenders
  | sendSignal (destination : Pid) (signalFlag : Int)
  | setParam (process : Pid) (param value : Int)
deriving DecidableEq, Repr

/-- When the operation can happen.  The idle loop of init makes no system call
that gives up the CPU, and a PCB argument is a registered one. -/
def Op.Enabled (g : Globals) : Op → Prop
  | .timerTick | .uartIrq _ _ | .copyProcess _ | .wakeSenders => True
  | .yield | .block _ | .wait _ | .exit => g.currentProcess ≠ initProcess
  | .wakeReceiver p | .sendSignal p _ | .setParam p _ _ => g.processes p = some p

instance (g : Globals) (op : Op) : Decidable (op.Enabled g) := by
  cases op <;> unfold Op.Enabled <;> infer_instance

/-- Run one operation.  `none` is a selection of priority aging that does not
return. -/
def step (alg : Algorithm) (s : KState) : Op → Option KState
  | .timerTick => handleTimerTick alg s
  | .uartIrq mis fifo => some (handleUartIrq alg mis fifo s)
  | .yield => syscallYield alg s
  | .block why => block alg why s
  | .wait pid => syscallWait alg pid s
  | .exit => exitProcess alg s
  | .copyProcess page => some (copyProcess alg page s).2
  | .wakeReceiver p => some (wakeReceiver alg s p)
  | .wakeSenders => some (wakeSenders alg s)
  | .sendSignal p k => some (sendSignal s p k)
  | .setParam p param value => some (schedSetParam alg s p param value).2

/-- Does `syscall_wait(pid)` block? -/
def blocksOn (s : KState) (pid : Int) : Bool :=
  match searchProcess s pid with
  | none => false
  | some d => (s.pcb d).state != .zombie

/-- Is the time slice of the current process over, with no critical section
open? -/
def sliceOver (s : KState) : Bool :=
  s.current.counter ≤ 0 && s.current.preemptDisabled ≤ 0

/-- Does the operation call `_schedule`? -/
def decides (alg : Algorithm) (s : KState) : Op → Bool
  | .timerTick => sliceOver (accountTick alg s) && alg.isPreemptive
  | .yield | .block _ | .exit => true
  | .wait pid => blocksOn s pid
  | _ => false

/-- The state an operation calls `_schedule` in, or else the one it ends in. -/
def before (alg : Algorithm) (s : KState) : Op → KState
  | .timerTick =>
      let s := accountTick alg s
      if sliceOver s then setCounter s s.currentProcess 0 else s
  | .uartIrq mis fifo => handleUartIrq alg mis fifo s
  | .yield => closeBurst (setCounter s s.currentProcess 0)
  | .block why => closeBurst (s.setState s.currentProcess why.state)
  | .wait pid => if blocksOn s pid then closeBurst (waitFor s pid) else s
  | .exit => closeBurst (retireCurrent alg s)
  | .copyProcess page => (copyProcess alg page s).2
  | .wakeReceiver p => wakeReceiver alg s p
  | .wakeSenders => wakeSenders alg s
  | .sendSignal p k => sendSignal s p k
  | .setParam p param value => (schedSetParam alg s p param value).2

theorem sliceOver_iff {s : KState} :
    sliceOver s = true ↔ ¬ (0 < s.current.counter ∨ 0 < s.current.preemptDisabled) := by
  simp only [sliceOver, Bool.and_eq_true, decide_eq_true_eq]
  omega

/-- An operation ends in a scheduling decision or makes none. -/
theorem step_eq (alg : Algorithm) (s : KState) (op : Op) :
    step alg s op =
      if decides alg s op then pickNext alg (before alg s op) else some (before alg s op) := by
  cases op with
  | timerTick =>
      by_cases hc : sliceOver (accountTick alg s) = true
      · have hover := sliceOver_iff.mp hc
        simp only [step, handleTimerTick, if_neg hover, decides, before, hc, Bool.true_and,
          if_true]
      · have hleft := not_not.mp (sliceOver_iff.not.mp hc)
        rw [Bool.not_eq_true] at hc
        simp only [step, handleTimerTick, if_pos hleft, decides, before, hc, Bool.false_and,
          Bool.false_eq_true, if_false]
  | wait pid =>
      cases hd : searchProcess s pid with
      | none => simp [step, syscallWait, decides, before, blocksOn, hd]
      | some d =>
          by_cases hz : (s.pcb d).state = .zombie <;>
            simp [step, syscallWait, decides, before, blocksOn, schedule, hd, hz]
  | yield | block why | exit => exact (if_pos rfl).symm
  | uartIrq | copyProcess | wakeReceiver | wakeSenders | sendSignal | setParam =>
      exact (if_neg Bool.false_ne_true).symm

/-- The state the kernel starts in, for any future of the system timer. -/
def boot (timer : Nat → BitVec 32) : KState where
  currentProcess := initProcess
  processes := Function.update (fun _ => none) initProcess (some initProcess)
  nProcesses := 1
  queueLevel := fun _ => 0
  mlTicksSinceBoost := 0
  lotteryRngState := lotterySeed
  systemTimer := timer
  pcb := fun _ => initPcb
  queue := fun _ => LinkedQueue.Ends.empty
  queueWrites := []

end Demoos
