import Demoos.Lib.Draw
import Demoos.Scheduler.Conservation

/-!
# The draw of the lottery

One draw is exact: over the numbers below the total every queued process wins as often
as it has tickets, where a count that is not positive counts as one.  The totals that
the loops build up stay in the range of a `long`, and each redraw is of a queue that is
shorter by one process.
-/

namespace Demoos

open LinkedQueue

/-! ## The loops on a `long` -/

/-- The sum of two `long`s, if that is a `long`. -/
def addLong (x y : Int) : Option Int :=
  if -2 ^ 63 ≤ x + y ∧ x + y < 2 ^ 63 then some (x + y) else none

theorem addLong_eq {x y : Int} (hx : 0 ≤ x) (hy : 0 ≤ y) (h : x + y < 2 ^ 63) :
    addLong x y = some (x + y) := by
  rw [addLong, if_pos ⟨by omega, h⟩]

theorem totalTickets_nonneg (s : KState) (fuel : Nat) (o : Option Pid) :
    0 ≤ totalTickets s fuel o := by
  induction fuel generalizing o with
  | zero => exact Int.le_refl 0
  | succ n ih =>
      cases o with
      | none => exact Int.le_refl 0
      | some p =>
          have hp : 0 < (s.pcb p).shares := Sched.shares_pos _
          have hrest := ih (s.pcb p).nextReady
          rw [totalTickets_some]
          omega

theorem sumTickets_addLong {s : KState} {fuel : Nat} {total : Int} {o : Option Pid}
    (ht : 0 ≤ total) (h : total + totalTickets s fuel o < 2 ^ 63) :
    sumTickets addLong s fuel total o = some (total + totalTickets s fuel o) := by
  induction fuel generalizing total o with
  | zero => exact congrArg some (Int.add_zero total).symm
  | succ n ih =>
      cases o with
      | none => exact congrArg some (Int.add_zero total).symm
      | some p =>
          have hp : 0 < (s.pcb p).shares := Sched.shares_pos _
          have hrest := totalTickets_nonneg s n (s.pcb p).nextReady
          rw [totalTickets_some] at h ⊢
          rw [sumTickets, addLong_eq ht (by omega) (by omega), Option.bind_eq_bind,
            Option.bind_some, ih (by omega) (by omega), Int.add_assoc]

theorem walkTickets_addLong {s : KState} {winner : Int} {fuel : Nat} {k : Int}
    {previous o : Option Pid} (hk : 0 ≤ k) (h : k + totalTickets s fuel o < 2 ^ 63) :
    walkTickets addLong s winner fuel k previous o =
      some (findWinner s winner fuel k previous o) := by
  induction fuel generalizing k previous o with
  | zero => rfl
  | succ n ih =>
      cases o with
      | none => rfl
      | some p =>
          have hp : 0 < (s.pcb p).shares := Sched.shares_pos _
          have hrest := totalTickets_nonneg s n (s.pcb p).nextReady
          rw [totalTickets_some] at h
          rw [walkTickets, findWinner_some, addLong_eq hk (by omega) (by omega),
            Option.bind_eq_bind, Option.bind_some]
          split
          next => rfl
          next => exact ih (by omega) (by omega)

/-! ## The draw -/

namespace Sched

variable {shares : Pid → Int} {ps : List Pid}

theorem ticketHolder_eq (hshares : ∀ p, 0 ≤ shares p) (n : Nat) :
    ticketHolder shares n ps = Draw.holder (fun p => (shares p).toNat) ps n := by
  induction ps generalizing n with
  | nil => rfl
  | cons p ps ih =>
      have hp := hshares p
      rw [ticketHolder, Draw.holder]
      by_cases hn : (n : Int) < shares p
      · rw [if_pos hn, if_pos (by omega)]
      · rw [if_neg hn, if_neg (by omega), ← ih]
        congr 1
        omega

theorem sum_shares_eq (hshares : ∀ p, 0 ≤ shares p) :
    (ps.map shares).sum = (Draw.total (fun p => (shares p).toNat) ps : Nat) := by
  induction ps with
  | nil => rfl
  | cons p ps ih =>
      have hp := hshares p
      rw [Draw.total_cons, List.map_cons, List.sum_cons, ih]
      omega

end Sched

theorem shares_le {b : Proc} (h : b.tickets < 2 ^ 31) : b.shares < 2 ^ 31 := by
  unfold Proc.shares
  split <;> omega

theorem toNat_shares (b : Proc) : b.shares.toNat = (max 1 b.tickets).toNat := by
  unfold Proc.shares
  split <;> omega

namespace KState

/-- `total_tickets`. -/
def totalTickets (s : KState) : Int :=
  Demoos.totalTickets s maxProcesses (s.queue .readyQueue).head

/-- The candidate for a number, with its predecessor. -/
def candidate (s : KState) (winner : Int) : Option Pid × Option Pid :=
  findWinner s winner maxProcesses 0 none (s.queue .readyQueue).head

theorem length_contents_le (s : KState) (l : ReadyList) : (s.contents l).length ≤ maxProcesses :=
  length_walk_le _ _ _

end KState

/-- What one draw from the ready queue does, and how many there are. -/
structure ExactDraw (s : KState) : Prop where
  /-- The totals are the values of `long`s. -/
  total : 0 < s.totalTickets ∧
    sumTickets addLong s maxProcesses 0 (s.queue .readyQueue).head = some s.totalTickets
  counter : ∀ winner,
    walkTickets addLong s winner maxProcesses 0 none (s.queue .readyQueue).head =
      some (s.candidate winner)
  /-- The walk stops at a process of the queue, behind its predecessor. -/
  found : ∀ winner, 0 ≤ winner → winner < s.totalTickets →
    ∃ xs p ys, s.contents .readyQueue = xs ++ p :: ys ∧ s.candidate winner = (xs.getLast?, some p)
  proportional : (s.contents .readyQueue).length ≤ maxProcesses ∧
    ∀ p ∈ s.contents .readyQueue,
      ((List.range s.totalTickets.toNat).filter fun n : Nat =>
        (s.candidate n).2 = some p).length = (max 1 (s.pcb p).tickets).toNat
  /-- As many draws as there are processes make an end of the loop. -/
  redraws : ∀ n, drawTicket .lottery ((s.contents .readyQueue).length + n) s =
    drawTicket .lottery (s.contents .readyQueue).length s

namespace KState

variable {s : KState}

theorem WellFormed.totalTickets_eq (h : s.WellFormed .readyQueue) :
    s.totalTickets =
      (Draw.total (fun p => (s.pcb p).shares.toNat) (s.contents .readyQueue) : Nat) := by
  rw [KState.totalTickets, Refines.totalTickets_seg h.path (s.length_contents_le _),
    Sched.sum_shares_eq fun p => (Sched.shares_pos _).le]

/-- The walk of a draw finds the holder of the ticket. -/
theorem WellFormed.candidate_eq (h : s.WellFormed .readyQueue) {n : Nat} {p : Pid}
    (hp : Draw.holder (fun p => (s.pcb p).shares.toNat) (s.contents .readyQueue) n = some p) :
    ∃ xs ys, s.contents .readyQueue = xs ++ p :: ys ∧ s.candidate n = (xs.getLast?, some p) := by
  rw [← Sched.ticketHolder_eq fun p => (Sched.shares_pos _).le, ← Int.sub_zero (n : Int)] at hp
  obtain ⟨xs, ys, hl, hwin⟩ :=
    Refines.findWinner_seg none h.path (s.length_contents_le _) hp
  rw [Option.or_none] at hwin
  exact ⟨xs, ys, hl, hwin⟩

end KState

/-- A draw from an empty queue is none. -/
theorem drawTicket_nil {alg : Algorithm} {s : KState} (h : (s.queue .readyQueue).head = none)
    (n : Nat) : drawTicket alg n s = (none, s) := by
  cases n with
  | zero => rfl
  | succ n =>
      rw [drawTicket, h]
      exact if_pos rfl

/-- After as many draws as there are processes the queue is empty. -/
theorem drawTicket_add {s : KState} {a : Sched} (n k : Nat)
    (h : Refines (s.restrict Algorithm.lottery.uses) a) (hr : a.AllReady)
    (hmax : (a.list .readyQueue).length ≤ maxProcesses) (hn : (a.list .readyQueue).length ≤ n) :
    drawTicket .lottery (n + k) s = drawTicket .lottery n s := by
  induction n generalizing s a with
  | zero =>
      have hnil : a.list .readyQueue = [] := List.eq_nil_of_length_eq_zero (Nat.le_zero.mp hn)
      have hhead : (s.queue .readyQueue).head = none := ((h.holds .readyQueue).head_eq_none).mpr hnil
      rw [drawTicket_nil hhead, drawTicket_nil hhead]
  | succ n ih =>
      have hready : Algorithm.lottery.uses .readyQueue = true := rfl
      have htotal : totalTickets s maxProcesses (s.queue .readyQueue).head =
          ((a.list .readyQueue).map fun p => (a.proc p).shares).sum := by
        rw [← totalTickets_restrict Algorithm.lottery.uses]
        exact h.totalTickets_eq (h.holds .readyQueue).seg hmax
      rw [Nat.succ_add, drawTicket, drawTicket]
      dsimp only
      rw [htotal]
      split
      next => rfl
      next hz =>
        have hps : a.list .readyQueue ≠ [] := fun e => hz (by rw [e]; rfl)
        have hsum := Sched.sum_shares_pos (fun p => Sched.shares_pos (a.proc p)) hps
        obtain ⟨_, h₁⟩ := h.lotteryRandom
        obtain ⟨q, hq⟩ := Option.ne_none_iff_exists'.mp
          (Sched.winner_ne_none (lotteryRandom s).1.toNat hsum)
        have hmem := Sched.ticketHolder_mem hq
        rw [← Int.sub_zero (((lotteryRandom s).1.toNat % _ : Nat) : Int)] at hq
        obtain ⟨xs, ys, hl, hwin⟩ := h₁.findWinner_eq none (h₁.holds .readyQueue).seg hmax hq
        have hrest := (h₁.remove hl).handled .lottery (hr .readyQueue q hmem)
        have hrandom : (lotteryRandom (s.restrict Algorithm.lottery.uses)).2 =
            (lotteryRandom s).2.restrict Algorithm.lottery.uses := rfl
        rw [hrandom, findWinner_restrict, KState.queue_restrict _ hready] at hwin
        rw [hrandom, removeProcessFrom_restrict _ _ hready, handleProcessSignals_restrict] at hrest
        simp only [hwin]
        rw [Option.or_none]
        split
        next => rfl
        next =>
          have hlen : (((a.setRandom (xorshift a.lotteryRngState (a.systemTimer 0)) fun i =>
              a.systemTimer (i + 1)).without q).list .readyQueue).length + 1 =
              (a.list .readyQueue).length := by
            rw [Sched.list_without hl (h₁.holds .readyQueue).nodup]
            have hlist : a.list .readyQueue = xs ++ q :: ys := hl
            rw [hlist, List.length_append, List.length_append, List.length_cons]
            omega
          refine ih hrest.1 (Sched.AllReady.without (a := a.setRandom _ _) hr q) ?_ ?_
          · exact Nat.le_trans (Nat.le_of_succ_le (Nat.le_of_eq hlen)) hmax
          · exact Nat.le_of_succ_le_succ (Nat.le_trans (Nat.le_of_eq hlen) hn)

/-- For every ready queue that is in order and has a process, and whatever tickets the
processes have. -/
theorem exactDraw {s : KState} (h : Eligible .lottery s) (hne : (s.queue .readyQueue).head ≠ none)
    (hint : ∀ p ∈ s.contents .readyQueue, (s.pcb p).tickets < 2 ^ 31) : ExactDraw s := by
  have hw : s.WellFormed .readyQueue := h.wellFormed .readyQueue (List.mem_singleton.mpr rfl)
  have htotal := hw.totalTickets_eq
  have hcontents : s.contents .readyQueue ≠ [] := fun he => hne <| by
    have hpath := hw.path
    rw [he] at hpath
    exact hpath
  have hpos : 0 < s.totalTickets := by
    rw [KState.totalTickets, Refines.totalTickets_seg hw.path (s.length_contents_le _)]
    exact Sched.sum_shares_pos (fun p => Sched.shares_pos _) hcontents
  have hbound : s.totalTickets < 2 ^ 63 := by
    have hle : Draw.total (fun p => (s.pcb p).shares.toNat) (s.contents .readyQueue) ≤
        (s.contents .readyQueue).length * 2 ^ 31 := Draw.total_le fun p hp => by
      have := shares_le (hint p hp)
      omega
    have hlen : (s.contents .readyQueue).length ≤ 64 := s.length_contents_le _
    omega
  have hstart : 0 + totalTickets s maxProcesses (s.queue .readyQueue).head < 2 ^ 63 := by
    rw [Int.zero_add]
    exact hbound
  refine ⟨⟨hpos, ?_⟩, fun winner => walkTickets_addLong (Int.le_refl 0) hstart, fun winner h0 hlt => ?_,
    ⟨s.length_contents_le _, fun p hp => ?_⟩, fun n => ?_⟩
  · rw [sumTickets_addLong (Int.le_refl 0) hstart, Int.zero_add]
    rfl
  · obtain ⟨n, rfl⟩ := Int.eq_ofNat_of_zero_le h0
    rw [htotal] at hlt
    obtain ⟨p, hp⟩ := Draw.holder_of_lt (Int.ofNat_lt.mp hlt)
    obtain ⟨xs, ys, hl, hwin⟩ := hw.candidate_eq hp
    exact ⟨xs, p, ys, hl, hwin⟩
  · rw [← toNat_shares, ← Draw.length_winning (fun p => (s.pcb p).shares.toNat) hw.nodup hp,
      Draw.winning, htotal, Int.toNat_natCast]
    refine congrArg List.length (List.filter_congr fun n hn => ?_)
    obtain ⟨q, hq⟩ := Draw.holder_of_lt (List.mem_range.mp hn)
    obtain ⟨_, _, _, hwin⟩ := hw.candidate_eq hq
    rw [hwin, hq]
  · have hlist : (s.restrict Algorithm.lottery.uses).abstract.list .readyQueue =
        s.contents .readyQueue := contents_restrict s rfl
    refine drawTicket_add _ n h.refines h.lists.allReady ?_ ?_
    · rw [hlist]
      exact s.length_contents_le _
    · rw [hlist]

/-- A process at work, and its two children in the queue, one of them with seven tickets. -/
theorem exactDraw_three : ∃ s, runOps .lottery [.copyProcess true, .timerTick, .copyProcess true,
      .copyProcess true, .setParam 2 schedParamTickets 7] (boot fun _ => 0) = some s ∧
    ExactDraw s := by
  obtain ⟨s, hs, _, hreg, hne, hint⟩ := exists_afterBoot .lottery [.copyProcess true, .timerTick,
    .copyProcess true, .copyProcess true, .setParam 2 schedParamTickets 7]
    (fun s => s.processes initProcess = some initProcess ∧ (s.queue .readyQueue).head ≠ none ∧
      ∀ p ∈ s.contents .readyQueue, (s.pcb p).tickets < 2 ^ 31)
    (by decide +kernel)
  have hboot : BootReachable .lottery s := ⟨_, ⟨_, rfl⟩, run_runOps hs⟩
  have heligible : Eligible .lottery (before .lottery s (.setParam initProcess 0 0)) :=
    hboot.eligible hreg
  exact ⟨s, hs, exactDraw heligible hne hint⟩

end Demoos
