import Demoos.Scheduler.Operations
import Mathlib.Data.List.Sort

/-!
# The abstract scheduler

What the scheduler is for, without links: each ready queue is a list of pids.
A scheduling decision is one act.  It takes the queued processes in some order,
handles the signals of those it examines, drops the ones a signal kills or
stops, and dispatches the first that survives.  `select` says which processes a
given algorithm examines and which one it chooses, and `commit` is the effect,
the same for all seven algorithms.

The kernel operations are the ones of `Demoos.Scheduler.Operations` over this
state.  `Demoos.Scheduler.Refinement` proves that the code refines them.
-/

namespace Demoos

open Function (update)

/-! ## Signals of a queued process -/

/-- A signal that takes a ready process out of its queue is pending. -/
def Proc.barred (b : Proc) : Bool := b.pending signalKill || b.pending signalStop

/-- The effect of `handle_process_signals` on a ready process. -/
def Proc.handled (b : Proc) : Proc :=
  if b.pendingSignals = 0 then b
  else if b.pending signalKill then { b with state := .zombie }.clearSignal signalKill
  else if b.pending signalStop then { b with state := .stopped }.clearSignal signalStop
  else if b.pending signalResume then b.clearSignal signalResume
  else b

/-- The state of the abstract scheduler. -/
@[ext] structure Sched extends Globals where
  proc : Pid → Proc
  list : ReadyList → List Pid

namespace Sched

def current (a : Sched) : Proc := a.proc a.currentProcess

def modify (a : Sched) (p : Pid) (f : Proc → Proc) : Sched :=
  { a with proc := update a.proc p (f (a.proc p)) }

def setList (a : Sched) (l : ReadyList) (xs : List Pid) : Sched :=
  { a with list := update a.list l xs }

/-- `p` is in none of the lists. -/
def Unlinked (a : Sched) (p : Pid) : Prop := ∀ l, p ∉ a.list l

section Lemmas

variable (a : Sched) (p q : Pid) (f g : Proc → Proc) (l l' : ReadyList) (xs : List Pid)

@[simp] theorem list_modify : (a.modify p f).list = a.list := rfl
@[simp] theorem toGlobals_modify : (a.modify p f).toGlobals = a.toGlobals := rfl
@[simp] theorem toGlobals_setList : (a.setList l xs).toGlobals = a.toGlobals := rfl
@[simp] theorem proc_setList : (a.setList l xs).proc = a.proc := rfl

theorem list_setList : (a.setList l xs).list l' = if l' = l then xs else a.list l' :=
  Function.update_apply a.list l xs l'

theorem proc_modify :
    (a.modify p f).proc q = if q = p then f (a.proc q) else a.proc q := by
  refine (Function.update_apply a.proc p _ q).trans ?_
  split
  next h => rw [h]
  next => rfl

/-- A field that a write leaves alone. -/
theorem field_modify {β : Type} (g : Proc → β) (hg : ∀ b, g (f b) = g b) :
    g ((a.modify p f).proc q) = g (a.proc q) := by
  rw [proc_modify]
  split
  next => exact hg _
  next => rfl

theorem modify_modify : (a.modify p f).modify p g = a.modify p fun b => g (f b) := by
  simp [modify]

variable {a p f g}

theorem modify_congr (h : f (a.proc p) = g (a.proc p)) : a.modify p f = a.modify p g := by
  simp only [modify, h]

theorem modify_self (h : f (a.proc p) = a.proc p) : a.modify p f = a := by
  simp only [modify, h, Function.update_eq_self]

end Lemmas

/-! ## Insertion -/

/-- The list a process is inserted in. -/
def home (alg : Algorithm) (a : Sched) (p : Pid) : ReadyList :=
  match alg with
  | .mlq | .mlfq => .mlQueues (a.queueLevel p)
  | _ => .readyQueue

def est (a : Sched) (p : Pid) : Int := (a.proc p).estBurst

/-- Insertion before the first process of a larger estimate. -/
def insertSorted (est : Pid → Int) (p : Pid) (xs : List Pid) : List Pid :=
  xs.orderedInsert (fun x y => est x < est y) p

/-- The place in the list: by estimate for SJF, behind its equals, and at the
end for the others. -/
def place (alg : Algorithm) (est : Pid → Int) (p : Pid) (xs : List Pid) : List Pid :=
  match alg with
  | .sjf => insertSorted est p xs
  | _ => xs ++ [p]

def enqueue (alg : Algorithm) (a : Sched) (p : Pid) : Sched :=
  if p = initProcess then a
  else
    (a.modify p Proc.makeReady).setList (a.home alg p)
      (place alg a.est p (a.list (a.home alg p)))

/-! ## Selection -/

/-- What a selection found: the processes whose signals it handled, the one it
chose, and the counters and generator it left behind. -/
structure Choice where
  visited : List Pid
  next : Option Pid
  counter : Pid → Int
  lotteryRngState : BitVec 64
  systemTimer : Nat → BitVec 32

/-- Examine a list from the front, up to the first process that is not
barred. -/
def scan (barred : Pid → Bool) : List Pid → List Pid × Option Pid
  | [] => ([], none)
  | p :: ps => if barred p then (p :: (scan barred ps).1, (scan barred ps).2) else ([p], some p)

/-- The holder of ticket number `w`. -/
def ticketHolder (shares : Pid → Int) : Int → List Pid → Option Pid
  | _, [] => none
  | w, p :: ps => if w < shares p then some p else ticketHolder shares (w - shares p) ps

/-- Draw until the winner is not barred.  `idle` is the choice of nobody. -/
def draw (shares : Pid → Int) (barred : Pid → Bool) (idle : Choice) :
    Nat → List Pid → BitVec 64 → (Nat → BitVec 32) → Choice
  | 0, _, r, t => { idle with lotteryRngState := r, systemTimer := t }
  | fuel + 1, ps, r, t =>
      let total := (ps.map shares).sum
      if total = 0 then { idle with lotteryRngState := r, systemTimer := t }
      else
        let r := xorshift r (t 0)
        let t := fun i => t (i + 1)
        match ticketHolder shares ((r.toNat % total.toNat : Nat)) ps with
        | none => { idle with lotteryRngState := r, systemTimer := t }
        | some p =>
            if barred p then
              let c := draw shares barred idle fuel (ps.filter (· ≠ p)) r t
              { c with visited := p :: c.visited }
            else
              { idle with visited := [p], next := some p, lotteryRngState := r, systemTimer := t }

/-- The first process of the largest counter, if that is positive. -/
def richest (counter : Pid → Int) : List Pid → Option Pid × Int :=
  List.foldl (fun b p => if b.2 < counter p then (some p, counter p) else b) (none, 0)

/-- Recharge until one of the candidates `ps` has a positive counter. -/
def chooseRichest (recharge : (Pid → Int) → Pid → Int) (ps : List Pid) :
    Nat → (Pid → Int) → Option (Option Pid × (Pid → Int))
  | 0, _ => none
  | fuel + 1, counter =>
      match (richest counter ps).1 with
      | some p => some (some p, counter)
      | none => if ps = [] then some (none, counter)
          else chooseRichest recharge ps fuel (recharge counter)

/-- The end of an epoch, for all registered processes. -/
def recharge (a : Sched) (counter : Pid → Int) (p : Pid) : Int :=
  if p < a.nProcesses then counter p / 2 + (a.proc p).priority else counter p

def epochs (a : Sched) : Nat :=
  (List.range maxProcesses).foldl (fun n p => n + (a.proc p).counter.natAbs) 3

/-- The choice that leaves everything as it is. -/
def noChoice (a : Sched) : Choice where
  visited := []
  next := none
  counter := fun p => (a.proc p).counter
  lotteryRngState := a.lotteryRngState
  systemTimer := a.systemTimer

/-- A choice from the front of `ps`, with the time slice `quantum` gives. -/
def frontChoice (a : Sched) (ps : List Pid) (quantum : Pid → Option Int) : Choice :=
  let r := scan (fun p => (a.proc p).barred) ps
  { a.noChoice with
    visited := r.1
    next := r.2
    counter := fun p => if r.2 = some p then (quantum p).getD (a.proc p).counter
      else (a.proc p).counter }

/-- The queued processes in the order of the levels. -/
def byLevel (a : Sched) (policy : MultilevelPolicy) : List Pid :=
  policy.levels.flatMap fun q => a.list (.mlQueues q)

/-- The quantum of the level a process is queued at. -/
def levelQuantum (a : Sched) (policy : MultilevelPolicy) (p : Pid) : Option Int :=
  (policy.levels.find? fun q => p ∈ a.list (.mlQueues q)).map fun q =>
    policy.quantum.getD q.toNat 0

def multilevelChoice (a : Sched) (policy : MultilevelPolicy) : Choice :=
  a.frontChoice (a.byLevel policy) (a.levelQuantum policy)

def lotteryDraw (a : Sched) (fuel : Nat) : Choice :=
  draw (fun p => (a.proc p).shares) (fun p => (a.proc p).barred) a.noChoice fuel
    (a.list .readyQueue) a.lotteryRngState a.systemTimer

def lotteryChoice (a : Sched) : Choice :=
  let c := a.lotteryDraw maxProcesses
  { c with counter := fun p => if c.next = some p then 10 else (a.proc p).counter }

def agingChoice (a : Sched) : Option Choice :=
  (chooseRichest a.recharge ((a.list .readyQueue).filter fun p => !(a.proc p).barred) a.epochs
    fun p => (a.proc p).counter).map fun r =>
      { a.noChoice with visited := a.list .readyQueue, next := r.1, counter := r.2 }

/-- The choice of each algorithm, with the outgoing process back in its list. -/
def select (alg : Algorithm) (a : Sched) : Option Choice :=
  match alg with
  | .roundRobin => some (a.frontChoice (a.list .readyQueue) fun _ => some 10)
  | .fcfs | .sjf => some (a.frontChoice (a.list .readyQueue) fun _ => none)
  | .lottery => some a.lotteryChoice
  | .priorityAging => a.agingChoice
  | .mlq => some (a.multilevelChoice mlPolicyMlq)
  | .mlfq => some (a.multilevelChoice mlPolicyMlfq)

/-- The lists an algorithm selects from. -/
def served (alg : Algorithm) : List ReadyList :=
  match alg.mlPolicy with
  | none => [.readyQueue]
  | some policy => policy.levels.map .mlQueues

/-! ## Decision -/

/-- The signals of `visited` are handled, and the barred ones among them and
`next` leave their lists. -/
def examine (a : Sched) (visited : List Pid) (next : Option Pid) : Sched :=
  { a with
    proc := fun p => if p ∈ visited then (a.proc p).handled else a.proc p
    list := fun l => (a.list l).filter fun p =>
      !(decide (p ∈ visited) && (a.proc p).barred) && next != some p }

def setRandom (a : Sched) (r : BitVec 64) (t : Nat → BitVec 32) : Sched :=
  { a with lotteryRngState := r, systemTimer := t }

def setCounters (a : Sched) (counter : Pid → Int) : Sched :=
  { a with proc := fun p => { a.proc p with counter := counter p } }

/-- `examine` with the counters and the generator of the choice. -/
def commit (a : Sched) (c : Choice) : Sched :=
  ((a.examine c.visited c.next).setCounters c.counter).setRandom c.lotteryRngState c.systemTimer

/-- `next` runs, and the outgoing process is ready unless it blocked. -/
def switchTo (a : Sched) (next : Pid) : Sched :=
  { a with
    currentProcess := next
    proc := fun p => { a.proc p with
      state :=
        if p = next then .running
        else if p = a.currentProcess ∧ (a.proc p).state = .running then .ready
        else (a.proc p).state } }

def preemptEnable (a : Sched) : Sched :=
  a.modify a.currentProcess fun b => { b with preemptDisabled := b.preemptDisabled - 1 }

def preemptDisable (a : Sched) : Sched :=
  a.modify a.currentProcess fun b => { b with preemptDisabled := b.preemptDisabled + 1 }

theorem state_preemptDisable (a : Sched) (p : Pid) :
    (a.preemptDisable.proc p).state = (a.proc p).state :=
  field_modify a _ p (fun b => { b with preemptDisabled := b.preemptDisabled + 1 }) Proc.state
    fun _ => rfl

def requeueCurrent (alg : Algorithm) (a : Sched) : Sched :=
  if a.currentProcess ≠ initProcess ∧ a.current.state = .running then
    a.enqueue alg a.currentProcess
  else a

/-- The state a selection works on. -/
def contest (alg : Algorithm) (a : Sched) : Sched := a.preemptDisable.requeueCurrent alg

/-- The effect of a choice made on the contest `a`. -/
def dispatch (a : Sched) (c : Choice) : Sched :=
  ((a.commit c).switchTo (c.next.getD initProcess)).preemptEnable

def pickNext (alg : Algorithm) (a : Sched) : Option Sched :=
  ((a.contest alg).select alg).map (a.contest alg).dispatch

def setCounter (a : Sched) (p : Pid) (c : Int) : Sched :=
  a.modify p fun b => { b with counter := c }

/-- The burst of an outgoing process that blocks or dies ends. -/
def closeBurst (a : Sched) : Sched :=
  let a :=
    if a.currentProcess ≠ initProcess ∧ a.current.state ≠ .running ∧ a.current.state ≠ .ready then
      a.modify a.currentProcess Proc.endBurst
    else a
  a.setCounter a.currentProcess 0

/-! ## Timer tick -/

/-- All levels are emptied into level `0`, in their order. -/
def boost (policy : MultilevelPolicy) (a : Sched) : Sched :=
  { a with
    list := fun l => match l with
      | .readyQueue => a.list .readyQueue
      | .mlQueues q =>
          if q = 0 then a.byLevel policy
          else if q ∈ policy.levels then [] else a.list (.mlQueues q)
    queueLevel := fun i => if i < maxProcesses then 0 else a.queueLevel i
    mlTicksSinceBoost := 0 }

/-- The first half of a tick. -/
def boostIfDue (policy : MultilevelPolicy) (a : Sched) : Sched :=
  if 0 < policy.boostPeriod then
    let a := { a with mlTicksSinceBoost := a.mlTicksSinceBoost + 1 }
    if policy.boostPeriod ≤ a.mlTicksSinceBoost then a.boost policy else a
  else a

/-- The second half. -/
def demoteIfExpired (policy : MultilevelPolicy) (a : Sched) : Sched :=
  if policy.demoteOnExpiry ∧ a.currentProcess ≠ initProcess ∧ a.current.counter ≤ 0 ∧
      a.current.preemptDisabled = 0 ∧ a.queueLevel a.currentProcess < policy.nLevels - 1 then
    { a with queueLevel := update a.queueLevel a.currentProcess (a.queueLevel a.currentProcess + 1) }
  else a

def multilevelOnTick (policy : MultilevelPolicy) (a : Sched) : Sched :=
  (a.boostIfDue policy).demoteIfExpired policy

def onTick (alg : Algorithm) (a : Sched) : Sched :=
  match alg.mlPolicy with
  | none => a
  | some policy => a.multilevelOnTick policy

def accountTick (alg : Algorithm) (a : Sched) : Sched :=
  (a.modify a.currentProcess Proc.tick).onTick alg

def sliceOver (a : Sched) : Bool := a.current.counter ≤ 0 && a.current.preemptDisabled ≤ 0

/-! ## Wake-ups, creation, exit and the other calls -/

def wakeSlot (alg : Algorithm) (waits : Proc → Bool) (wake : Proc → Proc) (a : Sched) (i : Nat) :
    Sched :=
  match a.processes i with
  | none => a
  | some p => if waits (a.proc p) then (a.modify p wake).enqueue alg p else a

def wakeAll (alg : Algorithm) (waits : Proc → Bool) (wake : Proc → Proc) (bound : Nat)
    (a : Sched) : Sched :=
  (List.range bound).foldl (wakeSlot alg waits wake) a

def wakeSenders (alg : Algorithm) (a : Sched) : Sched :=
  a.wakeAll alg (·.state == .waitingToSendMessage) Proc.makeReady maxProcesses

def wakeReceiver (alg : Algorithm) (a : Sched) (destination : Pid) : Sched :=
  if (a.proc destination).state = .waitingToReceiveMessage then
    (a.modify destination Proc.makeReady).enqueue alg destination
  else a

def uartReceive (alg : Algorithm) (a : Sched) (dr : BitVec 32) : Sched :=
  if (dr >>> 8) &&& 0xF#32 = 0#32 then
    a.wakeAll alg (·.state == .waitingUartInput) Proc.makeReady a.nProcesses
  else a

def handleUartIrq (alg : Algorithm) (mis : BitVec 32) (fifo : List (BitVec 32)) (a : Sched) :
    Sched :=
  if mis.getLsbD 4 then fifo.foldl (uartReceive alg) a else a

/-- A level no higher than the last one of the algorithm. -/
def clampLevel (alg : Algorithm) (level : Int) : Int :=
  match alg.mlPolicy with
  | none => level
  | some policy => if (policy.nLevels : Int) ≤ level then policy.nLevels - 1 else level

/-- The level a new process is filed under. -/
def startLevel (alg : Algorithm) (b : Proc) : Int :=
  clampLevel alg (min (max b.queuePriority 0) (mlMaxLevels - 1))

/-- The new process `b` takes the next pid. -/
def enroll (alg : Algorithm) (a : Sched) (b : Proc) : Sched :=
  { a with
    proc := update a.proc a.nProcesses b
    processes := update a.processes a.nProcesses (some a.nProcesses)
    queueLevel := update a.queueLevel a.nProcesses (startLevel alg b)
    nProcesses := a.nProcesses + 1 }

/-- The child of the current process. -/
def child (a : Sched) : Proc := (childPcb { a.current with nextReady := none }).toProc

def register (alg : Algorithm) (a : Sched) : Sched :=
  (a.enroll alg a.child).enqueue alg a.nProcesses

def copyProcess (alg : Algorithm) (page : Bool) (a : Sched) : Sched :=
  let a := a.preemptDisable
  if page = false ∨ maxProcesses ≤ a.nProcesses then a else (a.register alg).preemptEnable

def die (a : Sched) : Sched := a.modify a.currentProcess fun b => { b with state := .zombie }

def retireCurrent (alg : Algorithm) (a : Sched) : Sched :=
  let a := a.preemptDisable.die
  (a.wakeAll alg (Proc.waitsFor a.currentProcess) Proc.endWait maxProcesses).preemptEnable

/-- The registered process a system call names. -/
def search (a : Sched) (pid : Int) : Option Pid :=
  if 0 ≤ pid ∧ pid < a.nProcesses then some pid.toNat else none

def blocksOn (a : Sched) (pid : Int) : Bool :=
  match a.search pid with
  | none => false
  | some d => (a.proc d).state != .zombie

def waitFor (a : Sched) (pid : Int) : Sched :=
  a.modify a.currentProcess fun b => { b with state := .waitingAnotherProcess, pidToWait := pid }

def block (why : Blocking) (a : Sched) : Sched :=
  a.modify a.currentProcess fun b => { b with state := why.state }

def sendSignal (a : Sched) (destination : Pid) (signalFlag : Int) : Sched :=
  a.modify destination fun b =>
    { b with pendingSignals := b.pendingSignals ||| (1#32 <<< (signalFlag % 32).toNat) }

def schedSetParam (alg : Algorithm) (a : Sched) (process : Pid) (param value : Int) : Sched :=
  if process = initProcess then a
  else if param = schedParamPriority then
    if value < 1 then a else a.modify process fun b => { b with priority := value }
  else if param = schedParamTickets then
    if value < 1 then a else a.modify process fun b => { b with tickets := value }
  else if param = schedParamQueuePriority then
    if value < 0 ∨ mlMaxLevels ≤ value then a
    else
      let level := clampLevel alg value
      let a := a.modify process fun b => { b with queuePriority := level }
      { a with queueLevel := update a.queueLevel process level }
  else a

/-! ## Operations

An operation changes the state without a decision, and some end in one. -/

def before (alg : Algorithm) (a : Sched) : Op → Sched
  | .timerTick =>
      let a := a.accountTick alg
      if a.sliceOver then a.setCounter a.currentProcess 0 else a
  | .uartIrq mis fifo => a.handleUartIrq alg mis fifo
  | .yield => (a.setCounter a.currentProcess 0).closeBurst
  | .block why => (a.block why).closeBurst
  | .wait pid => if a.blocksOn pid then (a.waitFor pid).closeBurst else a
  | .exit => (a.retireCurrent alg).closeBurst
  | .copyProcess page => a.copyProcess alg page
  | .wakeReceiver p => a.wakeReceiver alg p
  | .wakeSenders => a.wakeSenders alg
  | .sendSignal p k => a.sendSignal p k
  | .setParam p param value => a.schedSetParam alg p param value

def decides (alg : Algorithm) (a : Sched) : Op → Bool
  | .timerTick => (a.accountTick alg).sliceOver && alg.isPreemptive
  | .yield | .block _ | .exit => true
  | .wait pid => a.blocksOn pid
  | _ => false

def step (alg : Algorithm) (a : Sched) (op : Op) : Option Sched :=
  if a.decides alg op then (a.before alg op).pickNext alg else some (a.before alg op)

end Sched

end Demoos
