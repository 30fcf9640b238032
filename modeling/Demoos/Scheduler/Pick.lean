import Demoos.Scheduler.Queues

/-!
# The pick functions

The five selection functions of `libs/scheduler.c` behind the column
`pick_next` of the seven descriptors, `_schedule` and `schedule`.

A pick function puts the outgoing process back into its queue if it is still
running, selects, and hands the selection to `switch_to_process`.  It is split
in front of the switch: `select…` is everything up to the call, with the process
that is its argument.  The closing `preempt_enable` is executed by the process
that resumes, on the `current_process` it finds, so it follows the switch here
too.

The `while` loops that take a node off a queue in each round run for
`maxProcesses` rounds, and the redraws of the lottery likewise.  The loop of
priority aging ends with a round that selects or finds the queue empty.  When
every queued process has a non-positive priority no such round comes and the C
loop does not end, so the function is partial: `none` is a selection that does
not return.
-/

namespace Demoos

/-- The outgoing process, if still running, goes back into its queue. -/
def requeueCurrent (enqueue : KState → Pid → KState) (s : KState) : KState :=
  if s.currentProcess ≠ initProcess ∧ s.current.state = .running then
    enqueue s s.currentProcess
  else s

/-- `while ((p = dequeue_process_from(q)) != NULL)`, up to the first process
that is still ready once its signals are handled. -/
def dequeueReady (alg : Algorithm) (l : ReadyList) : Nat → KState → Option Pid × KState
  | 0, s => (none, s)
  | fuel + 1, s =>
      match dequeueProcessFrom s l with
      | (none, s) => (none, s)
      | (some p, s) =>
          let s := handleProcessSignals alg s p
          if (s.pcb p).state = .ready then (some p, s) else dequeueReady alg l fuel s

/-- The end of a pick function: the switch to the selected process. -/
def handOver (r : Pid × KState) : KState := preemptEnable (switchToProcess r.2 r.1)

/-! ## Round robin and queue head -/

def setCounter (s : KState) (p : Pid) (c : Int) : KState :=
  s.modify p fun b => { b with counter := c }

def selectRoundRobin (alg : Algorithm) (s : KState) : Pid × KState :=
  let s := preemptDisable s
  let s := requeueCurrent enqueueFifo s
  match dequeueReady alg .readyQueue maxProcesses s with
  | (none, s) => (initProcess, s)
  | (some p, s) => (p, setCounter s p 10)

def scheduleRoundRobin (alg : Algorithm) (s : KState) : KState :=
  handOver (selectRoundRobin alg s)

def selectQueueHead (alg : Algorithm) (s : KState) : Pid × KState :=
  let s := preemptDisable s
  let s := requeueCurrent alg.enqueue s
  match dequeueReady alg .readyQueue maxProcesses s with
  | (none, s) => (initProcess, s)
  | (some p, s) => (p, s)

def scheduleQueueHead (alg : Algorithm) (s : KState) : KState := handOver (selectQueueHead alg s)

/-! ## Multilevel queues -/

/-- The `for` over the levels: the first process found, with its level. -/
def scanLevels (alg : Algorithm) : List Int → KState → Option (Pid × Int) × KState
  | [], s => (none, s)
  | q :: qs, s =>
      match dequeueReady alg (.mlQueues q) maxProcesses s with
      | (some p, s) => (some (p, q), s)
      | (none, s) => scanLevels alg qs s

/-- `0, 1, …, n_levels - 1`. -/
def MultilevelPolicy.levels (policy : MultilevelPolicy) : List Int :=
  (List.range policy.nLevels).map Int.ofNat

def selectMultilevel (alg : Algorithm) (policy : MultilevelPolicy) (s : KState) : Pid × KState :=
  let s := preemptDisable s
  let s := requeueCurrent enqueueMultilevel s
  match scanLevels alg policy.levels s with
  | (none, s) => (initProcess, s)
  | (some (p, q), s) => (p, setCounter s p (policy.quantum.getD q.toNat 0))

def scheduleMultilevel (alg : Algorithm) (policy : MultilevelPolicy) (s : KState) : KState :=
  handOver (selectMultilevel alg policy s)

/-! ## Lottery -/

/-- `88172645463325252UL`. -/
def lotterySeed : BitVec 64 := 88172645463325252

/-- The state with the timer mixed in, and the seed for a zero. -/
def mixed (state : BitVec 64) (timer : BitVec 32) : BitVec 64 :=
  let x := state ^^^ timer.setWidth 64
  if x = 0 then lotterySeed else x

/-- The three shift-xor rounds. -/
def rounds (x : BitVec 64) : BitVec 64 :=
  let x := x ^^^ (x <<< 13)
  let x := x ^^^ (x >>> 7)
  x ^^^ (x <<< 17)

/-- The next random number, from the last one and the timer. -/
def xorshift (state : BitVec 64) (timer : BitVec 32) : BitVec 64 := rounds (mixed state timer)

def lotteryRandom (s : KState) : BitVec 64 × KState :=
  let x := xorshift s.lotteryRngState (s.systemTimer 0)
  (x, { s with lotteryRngState := x, systemTimer := fun i => s.systemTimer (i + 1) })

/-- A non-positive ticket count counts as one. -/
def Proc.shares (b : Proc) : Int := if 0 < b.tickets then b.tickets else 1

section

variable {m : Type → Type} [Monad m] (add : Int → Int → m Int)

/-- The loop that sums up the tickets, from `total` on. -/
def sumTickets (s : KState) : Nat → Int → Option Pid → m Int
  | 0, total, _ => pure total
  | _ + 1, total, none => pure total
  | fuel + 1, total, some p => do
      let total ← add total (s.pcb p).shares
      sumTickets s fuel total (s.pcb p).nextReady

/-- The walk to the holder of the winning ticket: its predecessor and it. -/
def walkTickets (s : KState) (winner : Int) :
    Nat → Int → Option Pid → Option Pid → m (Option Pid × Option Pid)
  | 0, _, previous, _ => pure (previous, none)
  | _ + 1, _, previous, none => pure (previous, none)
  | fuel + 1, ticketCounter, previous, some p => do
      let ticketCounter ← add ticketCounter (s.pcb p).shares
      if winner < ticketCounter then pure (previous, some p)
      else walkTickets s winner fuel ticketCounter (some p) (s.pcb p).nextReady

end

def totalTickets (s : KState) (fuel : Nat) (o : Option Pid) : Int :=
  Id.run (sumTickets (fun x y => pure (x + y)) s fuel 0 o)

def findWinner (s : KState) (winner : Int) (fuel : Nat) (ticketCounter : Int)
    (previous o : Option Pid) : Option Pid × Option Pid :=
  Id.run (walkTickets (fun x y => pure (x + y)) s winner fuel ticketCounter previous o)

/-- The sum goes on from where it has begun. -/
theorem sumTickets_eq (s : KState) (fuel : Nat) (total : Int) (o : Option Pid) :
    Id.run (sumTickets (fun x y => pure (x + y)) s fuel total o) =
      total + totalTickets s fuel o := by
  induction fuel generalizing total o with
  | zero => exact (Int.add_zero total).symm
  | succ n ih =>
      cases o with
      | none => exact (Int.add_zero total).symm
      | some p =>
          have hone : totalTickets s (n + 1) (some p) =
              Id.run (sumTickets (fun x y => pure (x + y)) s n (0 + (s.pcb p).shares)
                (s.pcb p).nextReady) := rfl
          rw [hone, ih, Int.zero_add, ← Int.add_assoc]
          exact ih _ _

@[simp] theorem totalTickets_none (s : KState) (fuel : Nat) : totalTickets s fuel none = 0 := by
  cases fuel <;> rfl

@[simp] theorem totalTickets_some (s : KState) (fuel : Nat) (p : Pid) :
    totalTickets s (fuel + 1) (some p) =
      (s.pcb p).shares + totalTickets s fuel (s.pcb p).nextReady := by
  rw [← sumTickets_eq, ← Int.zero_add (s.pcb p).shares]
  rfl

@[simp] theorem findWinner_some (s : KState) (winner : Int) (fuel : Nat) (ticketCounter : Int)
    (previous : Option Pid) (p : Pid) :
    findWinner s winner (fuel + 1) ticketCounter previous (some p) =
      if winner < ticketCounter + (s.pcb p).shares then (previous, some p)
      else findWinner s winner fuel (ticketCounter + (s.pcb p).shares) (some p)
        (s.pcb p).nextReady := rfl

/-- `while (next_process == NULL)`.  The walk of a draw meets its winner before
the end of the queue, so the third branch is not taken. -/
def drawTicket (alg : Algorithm) : Nat → KState → Option Pid × KState
  | 0, s => (none, s)
  | fuel + 1, s =>
      let total := totalTickets s maxProcesses (s.queue .readyQueue).head
      if total = 0 then (none, s)
      else
        let (r, s) := lotteryRandom s
        let winner : Int := (r.toNat % total.toNat : Nat)
        match findWinner s winner maxProcesses 0 none (s.queue .readyQueue).head with
        | (_, none) => (none, s)
        | (previous, some p) =>
            let s := removeProcessFrom s .readyQueue previous p
            let s := handleProcessSignals alg s p
            if (s.pcb p).state = .ready then (some p, s) else drawTicket alg fuel s

def selectLottery (alg : Algorithm) (s : KState) : Pid × KState :=
  let s := preemptDisable s
  let s := requeueCurrent enqueueFifo s
  match drawTicket alg maxProcesses s with
  | (none, s) => (initProcess, s)
  | (some p, s) => (p, setCounter s p 10)

def scheduleLottery (alg : Algorithm) (s : KState) : KState := handOver (selectLottery alg s)

/-! ## Priority aging -/

/-- The best candidate of a walk so far: it, its predecessor and its counter. -/
structure Best where
  best : Option Pid
  bestPrevious : Option Pid
  maxCounter : Int

/-- One walk of the ready queue.  The successor is read before the signals of
the node are handled, since the node may be unlinked. -/
def agingWalk (alg : Algorithm) : Nat → KState → Option Pid → Option Pid → Best → Best × KState
  | 0, s, _, _, b => (b, s)
  | _ + 1, s, _, none, b => (b, s)
  | fuel + 1, s, previous, some node, b =>
      let nextNode := (s.pcb node).nextReady
      let s := handleProcessSignals alg s node
      if (s.pcb node).state ≠ .ready then
        agingWalk alg fuel (removeProcessFrom s .readyQueue previous node) previous nextNode b
      else if b.maxCounter < (s.pcb node).counter then
        agingWalk alg fuel s (some node) nextNode ⟨some node, previous, (s.pcb node).counter⟩
      else agingWalk alg fuel s (some node) nextNode b

/-- The recharge of a new epoch. -/
def Proc.recharge (b : Proc) : Proc := { b with counter := b.counter / 2 + b.priority }

/-- `for (i < N_PROCESSES) if (processes[i]) …`: an epoch ends. -/
def rechargeAll (s : KState) : KState :=
  (List.range maxProcesses).foldl
    (fun s i => match s.processes i with
      | none => s
      | some p => s.modify p Proc.recharge) s

/-- The `while (1)`. -/
def agingSelect (alg : Algorithm) : Nat → KState → Option (Option Pid × KState)
  | 0, _ => none
  | fuel + 1, s =>
      match agingWalk alg maxProcesses s none (s.queue .readyQueue).head ⟨none, none, 0⟩ with
      | (⟨some p, previous, _⟩, s) => some (some p, removeProcessFrom s .readyQueue previous p)
      | (⟨none, _, _⟩, s) =>
          if (s.queue .readyQueue).head = none then some (none, s)
          else agingSelect alg fuel (rechargeAll s)

/-- Rounds that are enough for a process of positive priority to get a positive
counter: each recharge halves a debt. -/
def epochs (s : KState) : Nat :=
  (List.range maxProcesses).foldl (fun n p => n + (s.pcb p).counter.natAbs) 3

def selectPriorityAging (alg : Algorithm) (s : KState) : Option (Pid × KState) :=
  let s := preemptDisable s
  let s := requeueCurrent enqueueFifo s
  (agingSelect alg (epochs s) s).map fun r => (r.1.getD initProcess, r.2)

def schedulePriorityAging (alg : Algorithm) (s : KState) : Option KState :=
  (selectPriorityAging alg s).map handOver

/-! ## Dispatch -/

/-- The column `pick_next`. -/
def Algorithm.pickNext (alg : Algorithm) (s : KState) : Option KState :=
  match alg with
  | .roundRobin => some (scheduleRoundRobin alg s)
  | .fcfs | .sjf => some (scheduleQueueHead alg s)
  | .lottery => some (scheduleLottery alg s)
  | .priorityAging => schedulePriorityAging alg s
  | .mlq => some (scheduleMultilevel alg mlPolicyMlq s)
  | .mlfq => some (scheduleMultilevel alg mlPolicyMlfq s)

/-- The process that the pick function selects, and the state in which it calls
`switch_to_process`. -/
def Algorithm.select (alg : Algorithm) (s : KState) : Option (Pid × KState) :=
  match alg with
  | .roundRobin => some (selectRoundRobin alg s)
  | .fcfs | .sjf => some (selectQueueHead alg s)
  | .lottery => some (selectLottery alg s)
  | .priorityAging => selectPriorityAging alg s
  | .mlq => some (selectMultilevel alg mlPolicyMlq s)
  | .mlfq => some (selectMultilevel alg mlPolicyMlfq s)

/-- `_schedule`. -/
def pickNext (alg : Algorithm) (s : KState) : Option KState := alg.pickNext s

/-- Every pick function ends with the switch to the process it has selected. -/
theorem pickNext_eq (alg : Algorithm) (s : KState) :
    pickNext alg s = (alg.select s).map handOver := by
  cases alg <;> rfl

/-- The exponential average of the CPU bursts, at the end of a burst. -/
def Proc.endBurst (b : Proc) : Proc :=
  { b with estBurst := (b.burstTicks + b.estBurst).tdiv 2, burstTicks := 0 }

/-- `schedule`, up to its call of `_schedule`. -/
def closeBurst (s : KState) : KState :=
  let s :=
    if s.currentProcess ≠ initProcess ∧ s.current.state ≠ .running ∧ s.current.state ≠ .ready then
      s.modify s.currentProcess Proc.endBurst
    else s
  setCounter s s.currentProcess 0

def schedule (alg : Algorithm) (s : KState) : Option KState := pickNext alg (closeBurst s)

end Demoos
