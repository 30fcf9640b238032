import Demoos.Scheduler.State

/-!
# Queue operations, policies and signals

The queue functions of `libs/scheduler.c`, the insertion policies, the static
part of the seven algorithm descriptors and the functions every selection loop
calls: the critical-section guard, the signal handler and the context switch.
A definition has the name of the C function it translates, in camel case.

`enqueue_process` and `handle_process_signals` reach the insertion policy
through `active_algorithm`, which is fixed for a whole run.  Here it is the
argument `alg`.

A walk along `next_ready` gets `maxProcesses` steps.  The queues hold
registered processes without repetition, so no walk of a well-formed queue runs
out of them.
-/

namespace Demoos

/-! ## The queue functions -/

def enqueueProcessTo (s : KState) (l : ReadyList) (process : Pid) : KState :=
  if process = initProcess then s
  else
    let s := s.noteWrite
    let s := s.setNext process none
    let s := s.setState process .ready
    match (s.queue l).tail with
    | none => s.setQueue l ⟨some process, some process⟩
    | some t => (s.setNext t (some process)).setQueue l ⟨(s.queue l).head, some process⟩

def dequeueProcessFrom (s : KState) (l : ReadyList) : Option Pid × KState :=
  match (s.queue l).head with
  | none => (none, s)
  | some process =>
      let s := s.noteWrite
      let s := match (s.pcb process).nextReady with
        | none => s.setQueue l ⟨none, none⟩
        | some n => s.setQueue l ⟨some n, (s.queue l).tail⟩
      (some process, s.setNext process none)

def removeProcessFrom (s : KState) (l : ReadyList) (previous : Option Pid) (process : Pid) :
    KState :=
  let s := s.noteWrite
  let s := match previous with
    | none => s.setQueue l ⟨(s.pcb process).nextReady, (s.queue l).tail⟩
    | some v => s.setNext v (s.pcb process).nextReady
  let s := if (s.queue l).tail = some process then s.setQueue l ⟨(s.queue l).head, previous⟩ else s
  s.setNext process none

/-- The `while` of `enqueue_sorted_to`: the node behind which a process of
estimate `est` goes. -/
def sortedPosition (s : KState) (est : Int) : Nat → Pid → Pid
  | 0, current => current
  | fuel + 1, current =>
      match (s.pcb current).nextReady with
      | none => current
      | some n => if est < (s.pcb n).estBurst then current else sortedPosition s est fuel n

/-- `enqueue_sorted_to`, once the link is clear and the state set. -/
def linkSorted (s : KState) (l : ReadyList) (process : Pid) : KState :=
  match (s.queue l).head with
  | none => s.setQueue l ⟨some process, some process⟩
  | some h =>
      if (s.pcb process).estBurst < (s.pcb h).estBurst then
        (s.setNext process (some h)).setQueue l ⟨some process, (s.queue l).tail⟩
      else
        let current := sortedPosition s (s.pcb process).estBurst maxProcesses h
        let n := (s.pcb current).nextReady
        let s := s.setNext process n
        let s := s.setNext current (some process)
        match n with
        | none => s.setQueue l ⟨(s.queue l).head, some process⟩
        | some _ => s

def enqueueSortedTo (s : KState) (l : ReadyList) (process : Pid) : KState :=
  if process = initProcess then s
  else
    let s := s.noteWrite
    let s := s.setNext process none
    let s := s.setState process .ready
    linkSorted s l process

/-! ## The algorithm descriptors

The descriptors are a table of function pointers.  Here the descriptor is an
enumeration and each column of the table a function on it.  The columns
`pick_next` and `on_tick` come after the functions they point to. -/

/-- What `active_algorithm` points to. -/
inductive Algorithm where
  | roundRobin
  | fcfs
  | sjf
  | lottery
  | priorityAging
  | mlq
  | mlfq
deriving DecidableEq, Repr

structure MultilevelPolicy where
  nLevels : Nat
  quantum : List Int
  demoteOnExpiry : Bool
  boostPeriod : Int
deriving DecidableEq, Repr

def mlPolicyMlq : MultilevelPolicy := ⟨5, [10, 12, 14, 16, 20], false, 0⟩

def mlPolicyMlfq : MultilevelPolicy := ⟨5, [5, 8, 10, 15, 20], true, mlfqBoostPeriod⟩

/-- The column `ml_policy`. -/
def Algorithm.mlPolicy : Algorithm → Option MultilevelPolicy
  | .mlq => some mlPolicyMlq
  | .mlfq => some mlPolicyMlfq
  | _ => none

/-- The column `is_preemptive`. -/
def Algorithm.isPreemptive : Algorithm → Bool
  | .fcfs | .sjf => false
  | _ => true

def enqueueFifo (s : KState) (process : Pid) : KState := enqueueProcessTo s .readyQueue process

def enqueueSjf (s : KState) (process : Pid) : KState := enqueueSortedTo s .readyQueue process

def enqueueMultilevel (s : KState) (process : Pid) : KState :=
  enqueueProcessTo s (.mlQueues (s.queueLevel process)) process

/-- The column `enqueue`. -/
def Algorithm.enqueue : Algorithm → KState → Pid → KState
  | .sjf => enqueueSjf
  | .mlq | .mlfq => enqueueMultilevel
  | _ => enqueueFifo

def enqueueProcess (alg : Algorithm) (s : KState) (process : Pid) : KState :=
  if process = initProcess then s else alg.enqueue s process

/-! ## Guard, signals and switch -/

def preemptEnable (s : KState) : KState :=
  s.modify s.currentProcess fun b => { b with preemptDisabled := b.preemptDisabled - 1 }

def preemptDisable (s : KState) : KState :=
  s.modify s.currentProcess fun b => { b with preemptDisabled := b.preemptDisabled + 1 }

/-- `process->pending_signals &= ~(1 << k)`. -/
def Proc.clearSignal (b : Proc) (k : Nat) : Proc :=
  { b with pendingSignals := b.pendingSignals &&& ~~~(1#32 <<< k) }

def handleProcessSignals (alg : Algorithm) (s : KState) (process : Pid) : KState :=
  let b := (s.pcb process).toProc
  if b.pendingSignals = 0 then s
  else if b.pending signalKill then
    (s.setState process .zombie).modify process (·.clearSignal signalKill)
  else if b.pending signalStop then
    (s.setState process .stopped).modify process (·.clearSignal signalStop)
  else if b.pending signalResume then
    let s := s.modify process (·.clearSignal signalResume)
    if b.state = .stopped then enqueueProcess alg (s.setState process .ready) process else s
  else s

/-- The page tables and the registers change hands too.  They are no part of
this state: `current_process` is what the code after the switch sees. -/
def switchToProcess (s : KState) (next : Pid) : KState :=
  let s := s.setState next .running
  if s.currentProcess = next then s
  else
    let previous := s.currentProcess
    let s := if (s.pcb previous).state = .running then s.setState previous .ready else s
    { s with currentProcess := next }

end Demoos
