import Demoos.Lib.LinkedQueue
import Mathlib.Data.BitVec

/-!
# The state of the scheduler

The data of `libs/scheduler.h` and the globals of `libs/scheduler.c`.

A `struct PCB *` is the pid of the PCB it points to.  `copy_process` gives pid
`n_processes` to the PCB it registers in that slot of `processes[]`, no PCB is
ever freed and no pid is given twice, so a pid names one PCB for ever.  Pid `0`
is `&init_process`.  A C `int` or `long` that the code only adds to, halves and
compares is an `Int`.  The bit set `pending_signals` keeps its 32 bits, and the
random generator its 64.

`ready_queue` and the entries of `ml_queues` are one family of queues, indexed
by `ReadyList`, since the same functions work on either.  The fields of a PCB
are split in two records.  `Proc` holds everything but `next_ready`, so the
abstract scheduler, which keeps lists and no links, can share it.

Two fields are not in the source.  `systemTimer` is the environment: the values
that the coming reads of the free-running timer return.  `queueWrites` is a
history: the `preempt_disabled` of the current process at each write to a ready
queue, newest first.  No definition reads it.
-/

namespace Demoos

open Function (update)

/-! ## Constants -/

/-- A pointer to a PCB. -/
abbrev Pid := Nat

/-- `&init_process`, the idle task. -/
def initProcess : Pid := 0

-- The `#define`s, in camel case; `maxProcesses` is `N_PROCESSES`.
def maxProcesses : Nat := 64
def mlMaxLevels : Int := 5
def mlfqBoostPeriod : Int := 300
def signalKill : Nat := 1
def signalStop : Nat := 2
def signalResume : Nat := 3

/-! ## Process control blocks -/

/-- The values of `PCB.state`.  `unset` is `0`, the state of init before its
first dispatch, and the others are the `PROCESS_*` constants. -/
inductive ProcessState where
  | unset
  | running
  | zombie
  | waitingUartInput
  | waitingToReceiveMessage
  | waitingToSendMessage
  | waitingAnotherProcess
  | stopped
  | ready
deriving DecidableEq, Repr

/-- The scheduler's fields of a PCB, without the link. -/
structure Proc where
  state : ProcessState
  counter : Int
  priority : Int
  estBurst : Int
  burstTicks : Int
  queuePriority : Int
  tickets : Int
  preemptDisabled : Int
  pendingSignals : BitVec 32
  pidToWait : Int
deriving DecidableEq, Repr

/-- A PCB: the fields above and the link of the ready queues. -/
structure PCB extends Proc where
  nextReady : Option Pid
deriving DecidableEq, Repr

/-- Is the bit of signal `k` pending? -/
def Proc.pending (b : Proc) (k : Nat) : Bool := b.pendingSignals.getLsbD k

/-- `INIT_PROCESS`. -/
def initPcb : PCB where
  state := .unset
  counter := 1
  priority := 1
  estBurst := 0
  burstTicks := 0
  queuePriority := 0
  tickets := 10
  preemptDisabled := 0
  pendingSignals := 0
  pidToWait := -1
  nextReady := none

/-! ## Queues and globals -/

/-- The name of a ready queue: `ready_queue` or `ml_queues[q]`. -/
inductive ReadyList where
  | readyQueue
  | mlQueues (q : Int)
deriving DecidableEq, Repr

/-- `ProcessQueue`: head and tail. -/
abbrev ProcessQueue := LinkedQueue.Ends Pid

/-- The globals that are neither PCBs nor queue ends. -/
structure Globals where
  currentProcess : Pid
  processes : Nat → Option Pid
  nProcesses : Nat
  queueLevel : Nat → Int
  mlTicksSinceBoost : Int
  lotteryRngState : BitVec 64
  systemTimer : Nat → BitVec 32

/-- The state of the scheduler. -/
structure KState extends Globals where
  pcb : Pid → PCB
  queue : ReadyList → ProcessQueue
  queueWrites : List Int

namespace KState

/-- `current_process` as a record. -/
def current (s : KState) : PCB := s.pcb s.currentProcess

/-- Write the fields of a PCB other than the link. -/
def modify (s : KState) (p : Pid) (f : Proc → Proc) : KState :=
  { s with pcb := update s.pcb p { s.pcb p with toProc := f (s.pcb p).toProc } }

/-- Write the state field of a PCB. -/
def setState (s : KState) (p : Pid) (st : ProcessState) : KState :=
  s.modify p fun b => { b with state := st }

/-- Write the link of a PCB. -/
def setNext (s : KState) (p : Pid) (n : Option Pid) : KState :=
  { s with pcb := update s.pcb p { s.pcb p with nextReady := n } }

/-- Write the ends of a queue. -/
def setQueue (s : KState) (l : ReadyList) (q : ProcessQueue) : KState :=
  { s with queue := update s.queue l q }

/-- Record in the history that a ready queue is written now. -/
def noteWrite (s : KState) : KState :=
  { s with queueWrites := s.current.preemptDisabled :: s.queueWrites }

/-- The link map of all PCBs. -/
def links (s : KState) : Pid → Option Pid := fun p => (s.pcb p).nextReady

section Lemmas

variable (s : KState) (p q : Pid) (f : Proc → Proc) (st : ProcessState) (n : Option Pid)
  (l : ReadyList) (e : ProcessQueue)

@[simp] theorem toGlobals_modify : (s.modify p f).toGlobals = s.toGlobals := rfl
@[simp] theorem toGlobals_setState : (s.setState p st).toGlobals = s.toGlobals := rfl
@[simp] theorem toGlobals_setNext : (s.setNext p n).toGlobals = s.toGlobals := rfl
@[simp] theorem toGlobals_setQueue : (s.setQueue l e).toGlobals = s.toGlobals := rfl
@[simp] theorem toGlobals_noteWrite : s.noteWrite.toGlobals = s.toGlobals := rfl

@[simp] theorem queue_modify : (s.modify p f).queue = s.queue := rfl
@[simp] theorem queue_setState : (s.setState p st).queue = s.queue := rfl
@[simp] theorem queue_setNext : (s.setNext p n).queue = s.queue := rfl
@[simp] theorem queue_setQueue : (s.setQueue l e).queue = update s.queue l e := rfl
@[simp] theorem queue_noteWrite : s.noteWrite.queue = s.queue := rfl

@[simp] theorem pcb_setQueue : (s.setQueue l e).pcb = s.pcb := rfl
@[simp] theorem pcb_noteWrite : s.noteWrite.pcb = s.pcb := rfl

theorem toProc_modify :
    ((s.modify p f).pcb q).toProc = if q = p then f (s.pcb q).toProc else (s.pcb q).toProc := by
  by_cases h : q = p
  · subst h; simp [modify]
  · simp [modify, h]

theorem toProc_setNext : ((s.setNext p n).pcb q).toProc = (s.pcb q).toProc := by
  by_cases h : q = p
  · subst h; simp [setNext]
  · simp [setNext, h]

@[simp] theorem links_modify : (s.modify p f).links = s.links := by
  funext q
  by_cases h : q = p
  · subst h; simp [links, modify]
  · simp [links, modify, h]

@[simp] theorem links_setState : (s.setState p st).links = s.links := links_modify s p _
@[simp] theorem links_setQueue : (s.setQueue l e).links = s.links := rfl
@[simp] theorem links_noteWrite : s.noteWrite.links = s.links := rfl

@[simp] theorem links_setNext : (s.setNext p n).links = update s.links p n := by
  funext q
  by_cases h : q = p
  · subst h; simp [links, setNext]
  · simp [links, setNext, h]

end Lemmas

end KState

end Demoos
