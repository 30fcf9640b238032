import Demoos.Lib.Transition
import Demoos.Scheduler.Selection

/-!
# The kernel operations refine the abstract ones

From related states, under the law, an operation of the code and the abstract
operation both return and lead to related states, or neither returns
(`Refines.step`).  The law of the abstract state follows, so `Represents`, the
relation together with the law, is a simulation of whole runs.

The boost is the one operation whose code takes many steps for what the
abstract scheduler does in one: it moves the processes of the lower levels to
level `0` one by one.
-/

namespace Demoos

open Function (update update_self update_of_ne)
open LinkedQueue

namespace Refines

variable {s : KState} {a : Sched} (alg : Algorithm)

/-- Two conditionals on one condition, each side reading its own state. -/
theorem cond {s' : KState} {a' : Sched} {c d : Prop} [Decidable c] [Decidable d] (hcd : c ↔ d)
    (hthen : c → Refines s a) (helse : ¬ c → Refines s' a') :
    Refines (if c then s else s') (if d then a else a') := by
  by_cases hc : c
  · rw [if_pos hc, if_pos (hcd.mp hc)]
    exact hthen hc
  · rw [if_neg hc, if_neg (hc ∘ hcd.mpr)]
    exact helse hc

/-! ## Timer tick -/

/-- The processes of the levels `qs` are moved behind those of level `0`. -/
def moved (a : Sched) (qs : List Int) (level : Nat → Int) : Sched :=
  { a with
    list := fun l =>
      if l = .mlQueues 0 then a.list (.mlQueues 0) ++ qs.flatMap fun q => a.list (.mlQueues q)
      else if ∃ q ∈ qs, l = .mlQueues q then [] else a.list l
    queueLevel := level }

theorem moved_empty {q : Int} (hq : a.list (.mlQueues q) = []) :
    moved a [q] a.queueLevel = a := by
  refine Sched.ext rfl rfl rfl rfl rfl rfl rfl rfl ?_
  funext l
  dsimp only [moved]
  split
  next e => simp [e, hq]
  next =>
    split
    next he =>
      obtain ⟨q', hq', rfl⟩ := he
      rw [List.mem_singleton.mp hq', hq]
    next => rfl

/-- The loop of the boost over one level. -/
theorem boostQueue (h : Refines s a) (hr : a.AllReady)
    (hpid : ∀ l, ∀ p ∈ a.list l, p ≠ initProcess ∧ p < maxProcesses) {q : Int} (hq : q ≠ 0)
    (fuel : Nat) (hf : (a.list (.mlQueues q)).length ≤ fuel) :
    ∃ level : Nat → Int, (∀ i, maxProcesses ≤ i → level i = a.queueLevel i) ∧
      Refines (boostQueue q fuel s) (moved a [q] level) := by
  induction fuel generalizing s a with
  | zero =>
      have hl := List.length_eq_zero_iff.mp (Nat.le_zero.mp hf)
      exact ⟨a.queueLevel, fun _ _ => rfl, (moved_empty hl).symm ▸ h⟩
  | succ n ih =>
      rw [Demoos.boostQueue]
      cases hl : a.list (.mlQueues q) with
      | nil =>
          rw [h.dequeue_nil hl]
          exact ⟨a.queueLevel, fun _ _ => rfl, (moved_empty hl).symm ▸ h⟩
      | cons p ps =>
          have hp : p ∈ a.list (.mlQueues q) := by simp [hl]
          have hps : p ∉ ps := by
            have := (h.holds (.mlQueues q)).nodup
            rw [hl] at this
            exact (List.nodup_cons.mp this).1
          have hne : ReadyList.mlQueues 0 ≠ .mlQueues q := fun e => hq (ReadyList.mlQueues.inj e).symm
          obtain ⟨s', hdeq, h'⟩ := h.dequeue_cons hl
          have hlevel := h'.mapGlobals fun g => { g with queueLevel := update g.queueLevel p 0 }
          have hu : ({ a.setList (.mlQueues q) ps with
              queueLevel := update a.queueLevel p 0 } : Sched).Unlinked p := by
            intro l hpl
            change p ∈ (a.setList _ ps).list l at hpl
            rw [Sched.list_setList] at hpl
            split at hpl
            next => exact hps hpl
            next e => exact e (h.apart l _ p hpl hp)
          have henq := hlevel.enqueueProcessTo (.mlQueues 0) (hpid _ p hp).1 hu
          rw [Sched.modify_self
            (congrArg (fun st => { a.proc p with state := st }) (hr _ p hp)).symm] at henq
          generalize hb : Sched.setList _ (.mlQueues 0) _ = b at henq
          have hproc : b.proc = a.proc := hb ▸ rfl
          have hlevel : b.queueLevel = update a.queueLevel p 0 := hb ▸ rfl
          have hlist : ∀ l, b.list l = if l = .mlQueues 0 then a.list (.mlQueues 0) ++ [p]
              else if l = .mlQueues q then ps else a.list l := by
            intro l
            rw [← hb, Sched.list_setList]
            change (if l = _ then (a.setList _ ps).list _ ++ [p] else (a.setList _ ps).list l) = _
            rw [Sched.list_setList, Sched.list_setList, if_neg hne]
          have hold : ∀ l, ∀ r ∈ b.list l, ∃ l', r ∈ a.list l' := by
            intro l r hrl
            rw [hlist] at hrl
            split at hrl
            next =>
              rcases List.mem_append.mp hrl with hrl | hrl
              · exact ⟨_, hrl⟩
              · exact ⟨_, List.mem_singleton.mp hrl ▸ hp⟩
            next =>
              split at hrl
              next => exact ⟨.mlQueues q, by rw [hl]; exact List.mem_cons_of_mem p hrl⟩
              next => exact ⟨l, hrl⟩
          have hq' : b.list (.mlQueues q) = ps := by rw [hlist, if_neg hne.symm, if_pos rfl]
          obtain ⟨level, hhigh, href⟩ := ih henq
            (fun l r hrl => by obtain ⟨l', hl'⟩ := hold l r hrl; rw [hproc]; exact hr l' r hl')
            (fun l r hrl => by obtain ⟨l', hl'⟩ := hold l r hrl; exact hpid l' r hl')
            (by rw [hq']; rw [hl] at hf; simpa using hf)
          refine ⟨level, fun i hi => ?_, ?_⟩
          · rw [hhigh i hi, hlevel]
            exact update_of_ne (Nat.ne_of_gt (Nat.lt_of_lt_of_le (hpid _ p hp).2 hi)) _ _
          · have hmoved : moved b [q] level = moved a [q] level := by
              refine Sched.ext (hb ▸ rfl) (hb ▸ rfl) (hb ▸ rfl) rfl (hb ▸ rfl) (hb ▸ rfl)
                (hb ▸ rfl) (hb ▸ rfl) ?_
              funext l
              dsimp only [moved]
              rw [hlist, hlist l]
              by_cases h0 : l = .mlQueues 0
              · simp [h0, hq', hl]
              · rcases eq_or_ne l (.mlQueues q) with rfl | hlq
                · simp [hq]
                · simp [h0, hlq]
            rw [hdeq, ← hmoved]
            exact href

theorem moved_moved {q : Int} {qs : List Int} (h0 : 0 ∉ q :: qs) (hq : q ∉ qs)
    (level level' : Nat → Int) :
    moved (moved a [q] level) qs level' = moved a (q :: qs) level' := by
  have hother : ∀ q' ∈ qs, (moved a [q] level).list (.mlQueues q') = a.list (.mlQueues q') := by
    intro q' hq'
    have hne : q' ≠ 0 := fun e => h0 (List.mem_cons_of_mem q (e ▸ hq'))
    have hne' : q' ≠ q := fun e => hq (e ▸ hq')
    simp [moved, hne, hne']
  refine Sched.ext rfl rfl rfl rfl rfl rfl rfl rfl ?_
  funext l
  change (if l = .mlQueues 0 then (moved a [q] level).list (.mlQueues 0) ++
      qs.flatMap (fun q' => (moved a [q] level).list (.mlQueues q'))
    else if ∃ q' ∈ qs, l = .mlQueues q' then [] else (moved a [q] level).list l) = _
  rw [List.flatMap_congr hother]
  dsimp only [moved]
  by_cases hl : l = .mlQueues 0
  · simp [hl]
  · have hne : q ≠ 0 := fun e => h0 (by simp [e])
    by_cases hlq : l = .mlQueues q
    · simp [hlq, hne]
    · simp [hl, hlq]

theorem mem_moved {qs : List Int} {level : Nat → Int} {l : ReadyList} {p : Pid}
    (hp : p ∈ (moved a qs level).list l) : ∃ l', p ∈ a.list l' := by
  dsimp only [moved] at hp
  split at hp
  next =>
    rcases List.mem_append.mp hp with hp | hp
    · exact ⟨_, hp⟩
    · obtain ⟨q, _, hq⟩ := List.mem_flatMap.mp hp
      exact ⟨_, hq⟩
  next =>
    split at hp
    next => exact absurd hp List.not_mem_nil
    next => exact ⟨l, hp⟩

/-- The loop of the boost over the levels. -/
theorem boostLevels (h : Refines s a) (hr : a.AllReady)
    (hpid : ∀ l, ∀ p ∈ a.list l, p ≠ initProcess ∧ p < maxProcesses) {qs : List Int}
    (h0 : 0 ∉ qs) (hqs : qs.Nodup)
    (hlen : ∀ q ∈ qs, (a.list (.mlQueues q)).length ≤ maxProcesses) :
    ∃ level : Nat → Int, (∀ i, maxProcesses ≤ i → level i = a.queueLevel i) ∧
      Refines (qs.foldl (fun s q => Demoos.boostQueue q maxProcesses s) s) (moved a qs level) := by
  induction qs generalizing s a with
  | nil =>
      refine ⟨a.queueLevel, fun _ _ => rfl, ?_⟩
      have he : moved a [] a.queueLevel = a := by
        refine Sched.ext rfl rfl rfl rfl rfl rfl rfl rfl ?_
        funext l
        dsimp only [moved]
        split <;> simp_all
      exact he.symm ▸ h
  | cons q qs ih =>
      obtain ⟨hq, hqs⟩ := List.nodup_cons.mp hqs
      have hne : q ≠ 0 := fun e => h0 (by simp [e])
      obtain ⟨level, hhigh, h'⟩ := h.boostQueue hr hpid hne maxProcesses
        (hlen q List.mem_cons_self)
      have hlen' : ∀ q' ∈ qs, ((moved a [q] level).list (.mlQueues q')).length ≤ maxProcesses := by
        intro q' hq'
        have hne0 : q' ≠ 0 := fun e => h0 (List.mem_cons_of_mem q (e ▸ hq'))
        have hneq : q' ≠ q := fun e => hq (e ▸ hq')
        have hsame : (moved a [q] level).list (.mlQueues q') = a.list (.mlQueues q') := by
          simp [moved, hne0, hneq]
        rw [hsame]
        exact hlen q' (List.mem_cons_of_mem q hq')
      obtain ⟨level', hhigh', h''⟩ := ih h'
        (fun l p hp => by obtain ⟨l', hl'⟩ := mem_moved hp; exact hr l' p hl')
        (fun l p hp => by obtain ⟨l', hl'⟩ := mem_moved hp; exact hpid l' p hl')
        (fun hm => h0 (List.mem_cons_of_mem q hm)) hqs hlen'
      refine ⟨level', fun i hi => (hhigh' i hi).trans (hhigh i hi), ?_⟩
      rw [← moved_moved h0 hq level level', List.foldl_cons]
      exact h''

theorem levels_eq {policy : MultilevelPolicy} (h0 : 0 ∈ policy.levels) :
    policy.levels = 0 :: policy.levels.tail ∧ 0 ∉ policy.levels.tail ∧
      policy.levels.tail.Nodup := by
  have hnd : policy.levels.Nodup := List.nodup_range.map fun _ _ he => Int.ofNat.inj he
  have hcons : policy.levels = 0 :: policy.levels.tail := by
    unfold MultilevelPolicy.levels at h0 ⊢
    cases hn : policy.nLevels with
    | zero => rw [hn] at h0; simp at h0
    | succ n => rw [List.range_succ_eq_map]; rfl
  rw [hcons, List.nodup_cons] at hnd
  exact ⟨hcons, hnd.1, hnd.2⟩

theorem boost (h : Refines s a) (hlaw : a.Law) {policy : MultilevelPolicy}
    (h0 : 0 ∈ policy.levels) : Refines (boost policy s) (a.boost policy) := by
  obtain ⟨hlevels, htail, hnd⟩ := levels_eq h0
  obtain ⟨level, hhigh, h'⟩ := h.boostLevels hlaw.lists.allReady
    (fun l p hp => ⟨(hlaw.queued l p hp).1,
      Nat.lt_of_lt_of_le (hlaw.queued l p hp).2.1 hlaw.bound⟩) htail hnd
    fun q _ => hlaw.length_le _
  have hdone := h'.mapGlobals fun g => { g with
    queueLevel := fun i => if i < maxProcesses then 0 else g.queueLevel i
    mlTicksSinceBoost := 0 }
  refine Eq.mp (congrArg _ ?_) hdone
  refine Sched.ext rfl rfl rfl ?_ rfl rfl rfl rfl ?_
  · funext i
    dsimp only [moved, Sched.boost]
    split
    next => rfl
    next hi => exact hhigh i (Nat.le_of_not_lt hi)
  · funext l
    dsimp only [moved, Sched.boost]
    cases l with
    | readyQueue => simp
    | mlQueues q =>
        by_cases hq : q = 0
        · subst hq
          simp only [if_true, Sched.byLevel]
          rw [hlevels, List.flatMap_cons]
          rfl
        · have hmem : q ∈ policy.levels ↔ q ∈ policy.levels.tail := by
            rw [hlevels]
            simp [hq]
          simp [hq, hmem]

theorem boostIfDue (h : Refines s a) (hlaw : a.Law) {policy : MultilevelPolicy}
    (h0 : 0 ∈ policy.levels) : Refines (boostIfDue policy s) (a.boostIfDue policy) := by
  have hcount := h.mapGlobals fun g => { g with mlTicksSinceBoost := g.mlTicksSinceBoost + 1 }
  have hlaw' : Sched.Law { a with mlTicksSinceBoost := a.mlTicksSinceBoost + 1 } :=
    hlaw.congr rfl rfl rfl fun _ => rfl
  have hticks : s.mlTicksSinceBoost = a.mlTicksSinceBoost :=
    congrArg Globals.mlTicksSinceBoost h.globals
  refine cond Iff.rfl (fun _ => cond ?_ (fun _ => hcount.boost hlaw' h0) fun _ => hcount)
    fun _ => h
  dsimp only
  rw [hticks]

theorem demoteIfExpired (h : Refines s a) (policy : MultilevelPolicy) :
    Refines (demoteIfExpired policy s) (a.demoteIfExpired policy) := by
  have hcur := h.current
  have hc : s.current.counter = a.current.counter := congrArg Proc.counter hcur
  have hd : s.current.preemptDisabled = a.current.preemptDisabled :=
    congrArg Proc.preemptDisabled hcur
  refine cond ?_ (fun _ => h.mapGlobals fun g => { g with
    queueLevel := update g.queueLevel g.currentProcess (g.queueLevel g.currentProcess + 1) })
    fun _ => h
  rw [h.currentProcess, hc, hd, h.queueLevel]

theorem multilevelOnTick (h : Refines s a) (hlaw : a.Law) {policy : MultilevelPolicy}
    (h0 : 0 ∈ policy.levels) :
    Refines (multilevelOnTick policy s) (a.multilevelOnTick policy) :=
  (h.boostIfDue hlaw h0).demoteIfExpired policy

theorem accountTick (h : Refines s a) (hlaw : a.Law) :
    Refines (accountTick alg s) (a.accountTick alg) := by
  have htick : Refines (s.modify s.currentProcess Proc.tick)
      (a.modify a.currentProcess Proc.tick) := by
    rw [h.currentProcess]
    exact h.modify _ _
  have hlaw' : (a.modify a.currentProcess Proc.tick).Law := hlaw.modify rfl
  unfold Demoos.accountTick Sched.accountTick Algorithm.onTick Sched.onTick
  cases hp : alg.mlPolicy with
  | none => exact htick
  | some policy => exact htick.multilevelOnTick hlaw' (Sched.zero_mem_levels alg hp)

/-! ## Wake-ups -/

theorem wakeSlot (h : Refines s a) (hlaw : a.Law) {waits : Proc → Bool} {wake : Proc → Proc}
    (hw : Sched.Waker waits wake) (i : Nat) :
    Refines (wakeSlot alg waits wake s i) (a.wakeSlot alg waits wake i) := by
  unfold Demoos.wakeSlot Sched.wakeSlot
  rw [h.processes]
  cases hi : a.processes i with
  | none => exact h
  | some p =>
      dsimp only
      rw [h.proc p]
      split
      next hp =>
        exact (h.modify p wake).enqueueProcess alg (hlaw.unlinked (hw.notReady hp)) hlaw.length_le
      next => exact h

theorem wakeAll (h : Refines s a) (hlaw : a.Law) {waits : Proc → Bool} {wake : Proc → Proc}
    (hw : Sched.Waker waits wake) (n : Nat) :
    Refines (wakeAll alg waits wake n s) (a.wakeAll alg waits wake n) := by
  induction n with
  | zero => exact h
  | succ n ih =>
      rw [Sched.wakeAll_succ, Demoos.wakeAll, List.range_succ, List.foldl_append]
      exact ih.wakeSlot alg (hlaw.wakeAll alg hw n) hw n

theorem wakeReceiver (h : Refines s a) (hlaw : a.Law) (p : Pid) :
    Refines (wakeReceiver alg s p) (a.wakeReceiver alg p) := by
  unfold Demoos.wakeReceiver Sched.wakeReceiver
  rw [h.state_eq p]
  split
  next hp =>
    have hu : a.Unlinked p := hlaw.unlinked (by rw [hp]; decide)
    exact (h.modify p Proc.makeReady).enqueueProcess alg hu hlaw.length_le
  next => exact h

theorem handleUartIrq (h : Refines s a) (hlaw : a.Law) (mis : BitVec 32)
    (fifo : List (BitVec 32)) :
    Refines (handleUartIrq alg mis fifo s) (a.handleUartIrq alg mis fifo) := by
  unfold Demoos.handleUartIrq Sched.handleUartIrq
  split
  next =>
    induction fifo generalizing s a with
    | nil => exact h
    | cons dr fifo ih =>
        have hw := Sched.waker_state .waitingUartInput rfl
        have hone : Refines (Demoos.uartReceive alg s dr) (a.uartReceive alg dr) := by
          unfold Demoos.uartReceive Sched.uartReceive
          rw [h.nProcesses]
          split
          next => exact h.wakeAll alg hlaw hw _
          next => exact h
        have hone' : (a.uartReceive alg dr).Law := by
          unfold Sched.uartReceive
          split
          next => exact hlaw.wakeAll alg hw _
          next => exact hlaw
        exact ih hone hone'
  next => exact h

/-! ## Creation -/

/-- A fresh PCB is filled in. -/
theorem fillPcb (h : Refines s a) (hlaw : a.Law) :
    Refines { s with pcb := update s.pcb s.nProcesses (childPcb s.current) }
      { a with proc := update a.proc a.nProcesses a.child } := by
  have hu : a.Unlinked a.nProcesses := hlaw.unlinked_of_le le_rfl
  have hchild : (childPcb s.current).toProc = a.child := by
    rw [Sched.child, ← h.current]
    rfl
  refine ⟨h.globals, fun p => ?_, fun l => (h.holds l).frame fun p hp => ?_, h.apart⟩
  · dsimp only
    rw [h.nProcesses, Function.update_apply, Function.update_apply]
    split
    next => exact hchild
    next => exact h.proc p
  · have hne : p ≠ s.nProcesses := by
      rw [h.nProcesses]
      exact ne_of_mem_of_not_mem hp (hu l)
    exact congrArg PCB.nextReady (update_of_ne hne _ _)

/-- Registration of a ready process outside the lists. -/
theorem addProcess (h : Refines s a) {p : Pid} (hn : p = a.nProcesses)
    (hlt : a.nProcesses < maxProcesses) (hu : a.Unlinked p) (hready : (a.proc p).state = .ready)
    (hlen : ∀ l, (a.list l).length ≤ maxProcesses) :
    (addProcessToScheduler alg s p).1 = 0 ∧
      Refines (addProcessToScheduler alg s p).2 (({ a with
        processes := update a.processes p (some p)
        queueLevel := update a.queueLevel p (Sched.startLevel alg (a.proc p))
        nProcesses := a.nProcesses + 1 } : Sched).enqueue alg p) := by
  have hfull : ¬ (maxProcesses ≤ s.nProcesses ∨ maxProcesses ≤ p) := by
    rw [h.nProcesses, hn]
    exact not_or.mpr ⟨Nat.not_le.mpr hlt, Nat.not_le.mpr hlt⟩
  have hqp : (s.pcb p).queuePriority = (a.proc p).queuePriority :=
    congrArg Proc.queuePriority (h.proc p)
  have htable := h.mapGlobals fun g => { g with
    processes := update g.processes p (some p)
    queueLevel := update g.queueLevel p (Sched.startLevel alg (a.proc p)) }
  have henq := htable.enqueueProcess alg hu hlen
  have hdone := henq.mapGlobals fun g => { g with nProcesses := g.nProcesses + 1 }
  have hs : (s.pcb p).state = .ready := (h.state_eq p).trans hready
  unfold addProcessToScheduler
  rw [if_neg hfull]
  refine ⟨rfl, ?_⟩
  dsimp only
  rw [hqp, if_pos hs]
  refine Eq.mp (congrArg _ ?_) hdone
  unfold Sched.enqueue
  split <;> rfl

theorem copyProcess (h : Refines s a) (hlaw : a.Law) (page : Bool) :
    Refines (copyProcess alg page s).2 (a.copyProcess alg page) := by
  have hdis := h.preemptDisable
  have hlaw' : a.preemptDisable.Law := hlaw.modify rfl
  unfold Demoos.copyProcess Sched.copyProcess
  dsimp only
  generalize Demoos.preemptDisable s = s₁ at hdis ⊢
  generalize a.preemptDisable = a₁ at hdis hlaw' ⊢
  rw [hdis.nProcesses]
  split
  next => exact hdis
  next hn =>
    have hlt : ¬ maxProcesses ≤ a₁.nProcesses := fun hc => hn (.inr hc)
    have hfill := hdis.fillPcb hlaw'
    rw [hdis.nProcesses] at hfill
    obtain ⟨herr, hadd⟩ := hfill.addProcess alg rfl (Nat.lt_of_not_le hlt)
      (hlaw'.unlinked_of_le le_rfl) (by simp [Sched.child, childPcb]) hlaw'.length_le
    generalize addProcessToScheduler alg _ _ = r at herr hadd ⊢
    obtain ⟨error, s₂⟩ := r
    dsimp only at herr hadd
    subst herr
    dsimp only
    rw [if_neg (by decide)]
    refine Eq.mp (congrArg _ ?_) hadd.preemptEnable
    unfold Sched.register Sched.enroll
    simp

/-! ## The calls that give up the CPU -/

theorem closeBurst (h : Refines s a) : Refines (closeBurst s) a.closeBurst := by
  unfold Demoos.closeBurst Sched.closeBurst
  have hstate : s.current.state = a.current.state := by rw [← h.current]
  rw [h.currentProcess, hstate]
  dsimp only
  split
  next =>
    rw [KState.toGlobals_modify, h.currentProcess]
    exact (h.modify _ _).setCounter _ _
  next =>
    rw [h.currentProcess]
    exact h.setCounter _ _

theorem setState (h : Refines s a) (p : Pid) (st : ProcessState) :
    Refines (s.setState p st) (a.modify p fun b => { b with state := st }) := h.modify p _

theorem retireCurrent (h : Refines s a) (hlaw : a.die.Law) :
    Refines (retireCurrent alg s) (a.retireCurrent alg) := by
  have hdead : Refines ((Demoos.preemptDisable s).setState (Demoos.preemptDisable s).currentProcess
      .zombie) a.preemptDisable.die := by
    have hdis := h.preemptDisable
    have := hdis.setState (Demoos.preemptDisable s).currentProcess .zombie
    rw [hdis.currentProcess] at this ⊢
    exact this
  have hlaw' : a.preemptDisable.die.Law := by
    rw [← Sched.die_preemptDisable]
    exact hlaw.modify rfl
  have hwake := hdead.wakeAll alg hlaw' (Sched.waker_waitsFor a.currentProcess) maxProcesses
  refine Eq.mp (congrArg (Refines · _) ?_) hwake.preemptEnable
  unfold Demoos.retireCurrent
  dsimp only
  rw [hdead.currentProcess]
  rfl

theorem searchProcess (h : Refines s a) (hlaw : a.Law) (pid : Int) :
    searchProcess s pid = a.search pid := by
  have hslot : slotHolds s pid = fun i => decide (i < a.nProcesses ∧ (i : Int) = pid) := by
    funext i
    rw [slotHolds, h.processes, hlaw.table]
    by_cases hi : i < a.nProcesses
    · rw [if_pos hi]
      by_cases hp : (i : Int) = pid <;> simp [hi, hp]
    · rw [if_neg hi]
      simp [hi]
  unfold Demoos.searchProcess Sched.search
  rw [h.processes, hslot]
  split
  next hp =>
    have hlt : pid.toNat < a.nProcesses := by omega
    have hfind : (List.range maxProcesses).find?
        (fun i => decide (i < a.nProcesses ∧ (i : Int) = pid)) = some pid.toNat := by
      rw [List.find?_range_eq_some]
      refine ⟨by simp; omega, List.mem_range.mpr (Nat.lt_of_lt_of_le hlt hlaw.bound), ?_⟩
      intro j hj
      have : (j : Int) ≠ pid := by omega
      simp [this]
    rw [hfind]
    exact hlaw.registered_iff.mpr hlt
  next hp =>
    have hfind : (List.range maxProcesses).find?
        (fun i => decide (i < a.nProcesses ∧ (i : Int) = pid)) = none := by
      rw [List.find?_eq_none]
      intro i _
      have : ¬ (i < a.nProcesses ∧ (i : Int) = pid) := by omega
      simpa using this
    rw [hfind, Option.bind_none]

theorem blocksOn (h : Refines s a) (hlaw : a.Law) (pid : Int) :
    blocksOn s pid = a.blocksOn pid := by
  unfold Demoos.blocksOn Sched.blocksOn
  rw [h.searchProcess hlaw]
  cases a.search pid with
  | none => rfl
  | some d =>
      dsimp only
      rw [h.state_eq d]

theorem waitFor (h : Refines s a) (pid : Int) : Refines (waitFor s pid) (a.waitFor pid) := by
  have hw := (h.setState a.currentProcess .waitingAnotherProcess).modify a.currentProcess
    fun b => { b with pidToWait := pid }
  rw [Sched.modify_modify] at hw
  unfold Demoos.waitFor
  rw [h.currentProcess]
  exact hw

theorem block (h : Refines s a) (why : Blocking) :
    Refines (s.setState s.currentProcess why.state) (a.block why) := by
  rw [h.currentProcess]
  exact h.setState _ _

/-! ## Signals and parameters -/

theorem sendSignal (h : Refines s a) (p : Pid) (k : Int) :
    Refines (sendSignal s p k) (a.sendSignal p k) := h.modify p _

/-- A write inside a critical section, when it leaves the guard alone. -/
theorem proc_guarded (a : Sched) (p : Pid) (f : Proc → Proc)
    (hf : ∀ b n, f { b with preemptDisabled := n } = { f b with preemptDisabled := n })
    (hd : ∀ b, (f b).preemptDisabled = b.preemptDisabled) :
    ((a.preemptDisable.modify p f).preemptEnable).proc = (a.modify p f).proc := by
  funext q
  rw [Sched.preemptEnable, Sched.proc_modify, Sched.proc_modify, Sched.proc_modify,
    Sched.preemptDisable, Sched.proc_modify]
  simp only [Sched.toGlobals_modify]
  by_cases hq : q = a.currentProcess
  · by_cases hqp : q = p
    · simp only [if_pos hq, if_pos hqp]
      rw [hf, Int.add_sub_cancel, ← hd]
    · simp only [if_pos hq, if_neg hqp]
      rw [Int.add_sub_cancel]
  · simp only [if_neg hq]

theorem schedSetParam (h : Refines s a) (p : Pid) (param value : Int) :
    Refines (schedSetParam alg s p param value).2 (a.schedSetParam alg p param value) := by
  unfold Demoos.schedSetParam Sched.schedSetParam
  split
  next => exact h
  next =>
    split
    next =>
      split
      next => exact h
      next => exact h.modify p fun b => { b with priority := value }
    next =>
      split
      next =>
        split
        next => exact h
        next => exact h.modify p fun b => { b with tickets := value }
      next =>
        split
        next =>
          split
          next => exact h
          next =>
            have hlevel := (h.preemptDisable.modify p fun b =>
              { b with queuePriority := Sched.clampLevel alg value }).mapGlobals fun g =>
                { g with queueLevel := update g.queueLevel p (Sched.clampLevel alg value) }
            have hguard := proc_guarded a p (fun b =>
              { b with queuePriority := Sched.clampLevel alg value }) (fun _ _ => rfl) fun _ => rfl
            refine Eq.mp (congrArg (Refines _) ?_) hlevel.preemptEnable
            exact Sched.ext rfl rfl rfl rfl rfl rfl rfl hguard rfl
        next => exact h

/-! ## Operations -/

theorem sliceOver (h : Refines s a) : sliceOver s = a.sliceOver := by
  have hc : s.current.counter = a.current.counter := congrArg Proc.counter h.current
  have hd : s.current.preemptDisabled = a.current.preemptDisabled :=
    congrArg Proc.preemptDisabled h.current
  rw [Demoos.sliceOver, Sched.sliceOver, hc, hd]

theorem before_timerTick (h : Refines s a) (hlaw : a.Law) :
    Refines (before alg s .timerTick) (a.before alg .timerTick) := by
  have htick := h.accountTick alg hlaw
  refine cond ?_ (fun _ => ?_) fun _ => htick
  · rw [htick.sliceOver]
  · rw [htick.currentProcess]
    exact htick.setCounter _ _

theorem before (h : Refines s a) (hlaw : a.Law) (hc : a.Current) (op : Op) :
    Refines (before alg s op) (a.before alg op) := by
  cases op with
  | timerTick => exact h.before_timerTick alg hlaw
  | uartIrq mis fifo => exact h.handleUartIrq alg hlaw mis fifo
  | yield =>
      refine closeBurst ?_
      rw [h.currentProcess]
      exact h.setCounter _ _
  | block why => exact (h.block why).closeBurst
  | wait pid =>
      refine cond ?_ (fun _ => (h.waitFor pid).closeBurst) fun _ => h
      rw [h.blocksOn hlaw]
  | exit => exact (h.retireCurrent alg (hlaw.givenUp hc .exit)).closeBurst
  | copyProcess page => exact h.copyProcess alg hlaw page
  | wakeReceiver p => exact h.wakeReceiver alg hlaw p
  | wakeSenders => exact h.wakeAll alg hlaw (Sched.waker_state _ rfl) _
  | sendSignal p k => exact h.sendSignal p k
  | setParam p param value => exact h.schedSetParam alg p param value

theorem decides (h : Refines s a) (hlaw : a.Law) (op : Op) :
    decides alg s op = a.decides alg op := by
  cases op with
  | timerTick =>
      rw [Demoos.decides, Sched.decides, (h.accountTick alg hlaw).sliceOver]
  | wait pid => exact h.blocksOn hlaw pid
  | _ => rfl

/-- An operation whose part in front of the decision refines. -/
theorem step_of_before (h : Refines s a) (hlaw : a.Law) {op : Op}
    (hbefore : Refines (Demoos.before alg s op) (a.before alg op)) (hl : (a.before alg op).Lists)
    (hreg : (a.before alg op).currentProcess < (a.before alg op).nProcesses) :
    Option.Rel Refines (Demoos.step alg s op) (a.step alg op) := by
  rw [step_eq, Sched.step, h.decides alg hlaw op]
  split
  next => exact hbefore.pickNext alg hl hreg
  next => exact .some hbefore

theorem step (h : Refines s a) (hlaw : a.Law) (hc : a.Current) {op : Op}
    (hop : op.Enabled a.toGlobals) :
    Option.Rel Refines (step alg s op) (a.step alg op) :=
  h.step_of_before alg hlaw (h.before alg hlaw hc op) (hlaw.calm_before alg hc hop).law.lists
    (hlaw.outgoing_before hc hop).registered

end Refines

end Demoos
