import Demoos.Scheduler.Pick

/-!
# The pick functions are local to their queues

A pick function reads and writes the queues its algorithm uses and no others.  So
running it on the state restricted to these queues is restricting the state it
leads to, and what the other queues hold, well formed or not, cannot matter.
-/

namespace Demoos

/-- The queues that the functions of an algorithm have at hand. -/
def Algorithm.uses (alg : Algorithm) (l : ReadyList) : Bool :=
  match alg.mlPolicy, l with
  | none, .readyQueue | some _, .mlQueues _ => true
  | _, _ => false

namespace KState

/-- The state with all queues but those in `r` emptied. -/
def restrict (r : ReadyList → Bool) (s : KState) : KState :=
  { s with queue := fun l => if r l then s.queue l else LinkedQueue.Ends.empty }

section Lemmas

variable (r : ReadyList → Bool) (s : KState) (p : Pid) (f : Proc → Proc) (st : ProcessState)
  (n : Option Pid)

@[simp] theorem toGlobals_restrict : (s.restrict r).toGlobals = s.toGlobals := rfl
@[simp] theorem pcb_restrict : (s.restrict r).pcb = s.pcb := rfl
@[simp] theorem modify_restrict : (s.restrict r).modify p f = (s.modify p f).restrict r := rfl
@[simp] theorem setState_restrict :
    (s.restrict r).setState p st = (s.setState p st).restrict r := rfl
@[simp] theorem setNext_restrict : (s.restrict r).setNext p n = (s.setNext p n).restrict r := rfl
@[simp] theorem noteWrite_restrict : (s.restrict r).noteWrite = s.noteWrite.restrict r := rfl

variable {r} {l : ReadyList}

theorem queue_restrict (hl : r l = true) : (s.restrict r).queue l = s.queue l := if_pos hl

theorem setQueue_restrict (hl : r l = true) (e : ProcessQueue) :
    (s.restrict r).setQueue l e = (s.setQueue l e).restrict r := by
  have hqueue : Function.update (s.restrict r).queue l e = ((s.setQueue l e).restrict r).queue := by
    funext l'
    change _ = if r l' then Function.update s.queue l e l' else LinkedQueue.Ends.empty
    rw [Function.update_apply, Function.update_apply]
    split
    next he => rw [he, if_pos hl]
    next => rfl
  exact congrArg (fun q => { s with queue := q }) hqueue

end Lemmas

end KState

open KState

/-! ## Queue functions -/

section Queues

variable {r : ReadyList → Bool} {l : ReadyList} (s : KState) (p : Pid)

theorem enqueueProcessTo_restrict (hl : r l = true) :
    enqueueProcessTo (s.restrict r) l p = (enqueueProcessTo s l p).restrict r := by
  unfold enqueueProcessTo
  split
  next => rfl
  next =>
    simp only [noteWrite_restrict, setNext_restrict, setState_restrict, queue_restrict _ hl,
      setQueue_restrict _ hl]
    split <;> rfl

theorem dequeueProcessFrom_restrict (hl : r l = true) :
    dequeueProcessFrom (s.restrict r) l =
      Prod.map id (KState.restrict r) (dequeueProcessFrom s l) := by
  unfold dequeueProcessFrom
  simp only [noteWrite_restrict, pcb_restrict, queue_restrict _ hl, setQueue_restrict _ hl]
  cases (s.queue l).head with
  | none => rfl
  | some process =>
      dsimp only
      split <;> rfl

theorem removeProcessFrom_restrict (hl : r l = true) (previous : Option Pid) :
    removeProcessFrom (s.restrict r) l previous p =
      (removeProcessFrom s l previous p).restrict r := by
  unfold removeProcessFrom
  simp only [noteWrite_restrict, pcb_restrict, queue_restrict _ hl, setQueue_restrict _ hl,
    setNext_restrict]
  cases previous with
  | none =>
      dsimp only
      simp only [queue_restrict _ hl, setQueue_restrict _ hl]
      split <;> rfl
  | some v =>
      dsimp only
      simp only [queue_restrict _ hl, setQueue_restrict _ hl]
      split <;> rfl

theorem sortedPosition_restrict (est : Int) (fuel : Nat) (c : Pid) :
    sortedPosition (s.restrict r) est fuel c = sortedPosition s est fuel c := by
  induction fuel generalizing c with
  | zero => rfl
  | succ n ih => simp only [sortedPosition, pcb_restrict, ih]

theorem linkSorted_restrict (hl : r l = true) :
    linkSorted (s.restrict r) l p = (linkSorted s l p).restrict r := by
  unfold linkSorted
  simp only [queue_restrict _ hl, setQueue_restrict _ hl, setNext_restrict, pcb_restrict,
    sortedPosition_restrict]
  cases (s.queue l).head with
  | none => rfl
  | some h =>
      dsimp only
      split
      next => rfl
      next => split <;> rfl

theorem enqueueSortedTo_restrict (hl : r l = true) :
    enqueueSortedTo (s.restrict r) l p = (enqueueSortedTo s l p).restrict r := by
  unfold enqueueSortedTo
  split
  next => rfl
  next =>
    simp only [noteWrite_restrict, setNext_restrict, setState_restrict]
    exact linkSorted_restrict _ p hl

end Queues

/-! ## Policies, signals and switch -/

section Policies

variable (alg : Algorithm) (s : KState) (p : Pid)

theorem algEnqueue_restrict :
    alg.enqueue (s.restrict alg.uses) p = (alg.enqueue s p).restrict alg.uses := by
  cases alg with
  | sjf => exact enqueueSortedTo_restrict s p rfl
  | mlq | mlfq => exact enqueueProcessTo_restrict s p rfl
  | _ => exact enqueueProcessTo_restrict s p rfl

theorem enqueueProcess_restrict :
    enqueueProcess alg (s.restrict alg.uses) p = (enqueueProcess alg s p).restrict alg.uses := by
  unfold enqueueProcess
  split
  next => rfl
  next => exact algEnqueue_restrict alg s p

theorem handleProcessSignals_restrict :
    handleProcessSignals alg (s.restrict alg.uses) p =
      (handleProcessSignals alg s p).restrict alg.uses := by
  unfold handleProcessSignals
  simp only [pcb_restrict, modify_restrict, setState_restrict, enqueueProcess_restrict]
  split
  next => rfl
  next =>
    split
    next => rfl
    next =>
      split
      next => rfl
      next =>
        split
        next => split <;> rfl
        next => rfl

theorem switchToProcess_restrict (r : ReadyList → Bool) :
    switchToProcess (s.restrict r) p = (switchToProcess s p).restrict r := by
  unfold switchToProcess
  dsimp only
  by_cases hc : s.currentProcess = p
  · have hc' : (s.restrict r).currentProcess = p := hc
    rw [toGlobals_setState, toGlobals_setState, if_pos hc, if_pos hc']
    rfl
  · have hc' : ¬ (s.restrict r).currentProcess = p := hc
    rw [toGlobals_setState, toGlobals_setState, if_neg hc, if_neg hc', setState_restrict,
      pcb_restrict]
    change { (if ((s.setState p .running).pcb s.currentProcess).state = .running then _
      else _ : KState) with currentProcess := p } = _
    split <;> rfl

theorem preemptDisable_restrict (r : ReadyList → Bool) :
    preemptDisable (s.restrict r) = (preemptDisable s).restrict r := rfl

theorem requeueCurrent_restrict :
    requeueCurrent alg.enqueue (s.restrict alg.uses) =
      (requeueCurrent alg.enqueue s).restrict alg.uses := by
  unfold requeueCurrent
  have hcurrent : (s.restrict alg.uses).current = s.current := rfl
  rw [hcurrent, toGlobals_restrict]
  split
  next => exact algEnqueue_restrict alg s _
  next => rfl

end Policies

/-! ## Selection loops -/

section Loops

variable (alg : Algorithm) {l : ReadyList}

theorem dequeueReady_restrict (hl : alg.uses l = true) (fuel : Nat) (s : KState) :
    dequeueReady alg l fuel (s.restrict alg.uses) =
      Prod.map id (KState.restrict alg.uses) (dequeueReady alg l fuel s) := by
  induction fuel generalizing s with
  | zero => rfl
  | succ n ih =>
      rw [dequeueReady, dequeueReady, dequeueProcessFrom_restrict s hl]
      obtain ⟨o, t⟩ := dequeueProcessFrom s l
      cases o with
      | none => rfl
      | some p =>
          dsimp only [Prod.map, id]
          rw [handleProcessSignals_restrict, pcb_restrict]
          split
          next => rfl
          next => exact ih _

theorem scanLevels_restrict (hl : ∀ q, alg.uses (.mlQueues q) = true) (qs : List Int)
    (s : KState) : scanLevels alg qs (s.restrict alg.uses) =
      Prod.map id (KState.restrict alg.uses) (scanLevels alg qs s) := by
  induction qs generalizing s with
  | nil => rfl
  | cons q qs ih =>
      rw [scanLevels, scanLevels, dequeueReady_restrict alg (hl q)]
      obtain ⟨o, t⟩ := dequeueReady alg (.mlQueues q) maxProcesses s
      cases o with
      | none => exact ih t
      | some p => rfl

theorem totalTickets_restrict (r : ReadyList → Bool) (s : KState) (fuel : Nat) (p : Option Pid) :
    totalTickets (s.restrict r) fuel p = totalTickets s fuel p := by
  induction fuel generalizing p with
  | zero => rfl
  | succ n ih =>
      cases p with
      | none => rfl
      | some p => simp only [totalTickets_some, pcb_restrict, ih]

theorem findWinner_restrict (r : ReadyList → Bool) (s : KState) (winner : Int) (fuel : Nat)
    (c : Int) (previous p : Option Pid) :
    findWinner (s.restrict r) winner fuel c previous p = findWinner s winner fuel c previous p := by
  induction fuel generalizing c previous p with
  | zero => rfl
  | succ n ih =>
      cases p with
      | none => rfl
      | some p => simp only [findWinner_some, pcb_restrict, ih]

theorem drawTicket_restrict (hl : alg.uses .readyQueue = true) (fuel : Nat) (s : KState) :
    drawTicket alg fuel (s.restrict alg.uses) =
      Prod.map id (KState.restrict alg.uses) (drawTicket alg fuel s) := by
  have hrandom : ∀ s : KState, lotteryRandom (s.restrict alg.uses) =
      Prod.map id (KState.restrict alg.uses) (lotteryRandom s) := fun _ => rfl
  induction fuel generalizing s with
  | zero => rfl
  | succ n ih =>
      rw [drawTicket, drawTicket, totalTickets_restrict, queue_restrict s hl, hrandom]
      dsimp only
      split
      next => rfl
      next =>
        generalize lotteryRandom s = d
        obtain ⟨x, t⟩ := d
        dsimp only [Prod.map, id]
        rw [findWinner_restrict, queue_restrict t hl]
        generalize findWinner t _ maxProcesses 0 none (t.queue .readyQueue).head = w
        obtain ⟨previous, o⟩ := w
        cases o with
        | none => rfl
        | some p =>
            simp only [removeProcessFrom_restrict t p hl, handleProcessSignals_restrict,
              pcb_restrict]
            split
            next => rfl
            next => exact ih _

theorem agingWalk_restrict (hl : alg.uses .readyQueue = true) (fuel : Nat) (s : KState)
    (previous node : Option Pid) (b : Best) :
    agingWalk alg fuel (s.restrict alg.uses) previous node b =
      Prod.map id (KState.restrict alg.uses) (agingWalk alg fuel s previous node b) := by
  induction fuel generalizing s previous node b with
  | zero => rfl
  | succ n ih =>
      cases node with
      | none => rfl
      | some node =>
          simp only [agingWalk, pcb_restrict, handleProcessSignals_restrict,
            removeProcessFrom_restrict _ _ hl]
          split
          next => exact ih _ _ _ _
          next => split <;> exact ih _ _ _ _

theorem rechargeAll_restrict (r : ReadyList → Bool) (s : KState) :
    rechargeAll (s.restrict r) = (rechargeAll s).restrict r := by
  unfold rechargeAll
  induction List.range maxProcesses generalizing s with
  | nil => rfl
  | cons i is ih =>
      rw [List.foldl_cons, List.foldl_cons, toGlobals_restrict]
      cases s.processes i with
      | none => exact ih s
      | some p => exact ih (s.modify p Proc.recharge)

theorem agingSelect_restrict (hl : alg.uses .readyQueue = true) (fuel : Nat) (s : KState) :
    agingSelect alg fuel (s.restrict alg.uses) =
      (agingSelect alg fuel s).map (Prod.map id (KState.restrict alg.uses)) := by
  induction fuel generalizing s with
  | zero => rfl
  | succ n ih =>
      rw [agingSelect, agingSelect, queue_restrict s hl, agingWalk_restrict alg hl]
      generalize agingWalk alg maxProcesses s none (s.queue .readyQueue).head ⟨none, none, 0⟩ = d
      obtain ⟨⟨best, previous, m⟩, t⟩ := d
      cases best with
      | some p => exact congrArg (fun t => some (some p, t)) (removeProcessFrom_restrict t p hl _)
      | none =>
          dsimp only [Prod.map, id]
          rw [queue_restrict t hl, rechargeAll_restrict, ih]
          split <;> rfl

end Loops

/-! ## Pick functions -/

section Pick

variable (alg : Algorithm) (s : KState)

theorem scheduleRoundRobin_restrict (he : alg.enqueue = enqueueFifo)
    (hl : alg.uses .readyQueue = true) :
    scheduleRoundRobin alg (s.restrict alg.uses) =
      (scheduleRoundRobin alg s).restrict alg.uses := by
  have hrequeue := requeueCurrent_restrict alg (preemptDisable s)
  rw [he] at hrequeue
  unfold scheduleRoundRobin selectRoundRobin
  dsimp only
  rw [preemptDisable_restrict, hrequeue, dequeueReady_restrict alg hl]
  generalize dequeueReady alg .readyQueue maxProcesses _ = d
  obtain ⟨o, t⟩ := d
  cases o with
  | none => exact congrArg preemptEnable (switchToProcess_restrict t _ _)
  | some p => exact congrArg preemptEnable (switchToProcess_restrict (setCounter t p 10) _ _)

theorem scheduleQueueHead_restrict (hl : alg.uses .readyQueue = true) :
    scheduleQueueHead alg (s.restrict alg.uses) =
      (scheduleQueueHead alg s).restrict alg.uses := by
  unfold scheduleQueueHead selectQueueHead
  dsimp only
  rw [preemptDisable_restrict, requeueCurrent_restrict, dequeueReady_restrict alg hl]
  generalize dequeueReady alg .readyQueue maxProcesses _ = d
  obtain ⟨o, t⟩ := d
  cases o with
  | none => exact congrArg preemptEnable (switchToProcess_restrict t _ _)
  | some p => exact congrArg preemptEnable (switchToProcess_restrict t _ _)

theorem scheduleMultilevel_restrict (policy : MultilevelPolicy)
    (he : alg.enqueue = enqueueMultilevel) (hl : ∀ q, alg.uses (.mlQueues q) = true) :
    scheduleMultilevel alg policy (s.restrict alg.uses) =
      (scheduleMultilevel alg policy s).restrict alg.uses := by
  have hrequeue := requeueCurrent_restrict alg (preemptDisable s)
  rw [he] at hrequeue
  unfold scheduleMultilevel selectMultilevel
  dsimp only
  rw [preemptDisable_restrict, hrequeue, scanLevels_restrict alg hl]
  generalize scanLevels alg policy.levels _ = d
  obtain ⟨o, t⟩ := d
  cases o with
  | none => exact congrArg preemptEnable (switchToProcess_restrict t _ _)
  | some w =>
      exact congrArg preemptEnable (switchToProcess_restrict (setCounter t w.1 _) _ _)

theorem scheduleLottery_restrict (he : alg.enqueue = enqueueFifo)
    (hl : alg.uses .readyQueue = true) :
    scheduleLottery alg (s.restrict alg.uses) = (scheduleLottery alg s).restrict alg.uses := by
  have hrequeue := requeueCurrent_restrict alg (preemptDisable s)
  rw [he] at hrequeue
  unfold scheduleLottery selectLottery
  dsimp only
  rw [preemptDisable_restrict, hrequeue, drawTicket_restrict alg hl]
  generalize drawTicket alg maxProcesses _ = d
  obtain ⟨o, t⟩ := d
  cases o with
  | none => exact congrArg preemptEnable (switchToProcess_restrict t _ _)
  | some p => exact congrArg preemptEnable (switchToProcess_restrict (setCounter t p 10) _ _)

theorem schedulePriorityAging_restrict (he : alg.enqueue = enqueueFifo)
    (hl : alg.uses .readyQueue = true) :
    schedulePriorityAging alg (s.restrict alg.uses) =
      (schedulePriorityAging alg s).map (KState.restrict alg.uses) := by
  have hrequeue := requeueCurrent_restrict alg (preemptDisable s)
  rw [he] at hrequeue
  unfold schedulePriorityAging selectPriorityAging
  dsimp only
  have hepochs : ∀ t : KState, epochs (t.restrict alg.uses) = epochs t := fun _ => rfl
  rw [preemptDisable_restrict, hrequeue, hepochs, agingSelect_restrict alg hl]
  generalize agingSelect alg (epochs _) _ = d
  cases d with
  | none => rfl
  | some w => exact congrArg some (congrArg preemptEnable (switchToProcess_restrict w.2 _ _))

end Pick

theorem pickNext_restrict (alg : Algorithm) (s : KState) :
    pickNext alg (s.restrict alg.uses) = (pickNext alg s).map (KState.restrict alg.uses) := by
  cases alg with
  | roundRobin => exact congrArg some (scheduleRoundRobin_restrict _ s rfl rfl)
  | fcfs | sjf => exact congrArg some (scheduleQueueHead_restrict _ s rfl)
  | lottery => exact congrArg some (scheduleLottery_restrict _ s rfl rfl)
  | priorityAging => exact schedulePriorityAging_restrict _ s rfl rfl
  | mlq | mlfq => exact congrArg some (scheduleMultilevel_restrict _ s _ rfl fun _ => rfl)

end Demoos
