import Demoos.Scheduler.Upkeep

/-!
# What a decision does

Two facts about a decision hold for all seven algorithms, and the invariants of
the whole system use no others.  The selection is sound: it visits queued
processes only, it chooses a visited process that no signal takes away, and it
chooses nobody only if every process it serves is barred (`Choice.Sound`).  The
effect of a choice on one process is the same whatever the algorithm
(`state_dispatch`, `pendingSignals_dispatch`, `mem_list_dispatch`).
-/

namespace Demoos

open Function (update update_self update_of_ne)

/-! ## Handling the signals of one process -/

namespace Proc

variable (b : Proc)

theorem handled_eq : b.handled =
    if b.pending signalKill then { b with state := .zombie }.clearSignal signalKill
    else if b.pending signalStop then { b with state := .stopped }.clearSignal signalStop
    else if b.pending signalResume then b.clearSignal signalResume
    else b := by
  unfold handled
  split
  next h => simp [pending, h]
  next => rfl

theorem state_handled : b.handled.state =
    if b.pending signalKill then .zombie else if b.pending signalStop then .stopped
    else b.state := by
  rw [handled_eq]
  split
  next => rfl
  next =>
    split
    next => rfl
    next => split <;> rfl

/-- Of the fields of a process, the handler writes only the state and the
signals. -/
theorem field_handled {β : Type} (g : Proc → β) (hs : ∀ b st, g { b with state := st } = g b)
    (hk : ∀ b k, g { b with pendingSignals := k } = g b) : g b.handled = g b := by
  rw [handled_eq]
  split
  next => exact (hk _ _).trans (hs _ _)
  next =>
    split
    next => exact (hk _ _).trans (hs _ _)
    next =>
      split
      next => exact hk _ _
      next => rfl

theorem pidToWait_handled : b.handled.pidToWait = b.pidToWait :=
  b.field_handled Proc.pidToWait (fun _ _ => rfl) fun _ _ => rfl

theorem counter_handled : b.handled.counter = b.counter :=
  b.field_handled Proc.counter (fun _ _ => rfl) fun _ _ => rfl

theorem priority_handled : b.handled.priority = b.priority :=
  b.field_handled Proc.priority (fun _ _ => rfl) fun _ _ => rfl

theorem state_handled_of_not_barred {b : Proc} (h : b.barred = false) :
    b.handled.state = b.state := by
  rw [barred, Bool.or_eq_false_iff] at h
  simp [state_handled, h.1, h.2]

/-- A barred process is dead or stopped once its signals are handled. -/
theorem state_handled_of_barred {b : Proc} (h : b.barred = true) :
    b.handled.state ≠ .ready ∧ b.handled.state ≠ .running := by
  rw [barred, Bool.or_eq_true] at h
  rw [state_handled]
  split
  next => exact ⟨by decide, by decide⟩
  next hk =>
    rw [if_pos (h.resolve_left hk)]
    exact ⟨by decide, by decide⟩

theorem pending_clearSignal (j k : Nat) (hk : k < 32) :
    (b.clearSignal k).pending j = (b.pending j && j != k) := by
  unfold pending clearSignal
  by_cases hj : j < 32
  · by_cases hjk : j = k
    · subst hjk
      simp [hj]
    · have : ¬ j - k = 0 ∨ j < k := by omega
      rcases this with hd | hd
      · simp [hj, hjk, hd]
      · simp [hj, hjk, hd]
  · simp [BitVec.getLsbD_of_ge _ j (Nat.le_of_not_lt hj)]

/-- A process that was not barred has no signal left but unknown ones. -/
theorem pending_handled_of_not_barred {b : Proc} (h : b.barred = false) {k : Nat}
    (hk : k = signalKill ∨ k = signalStop ∨ k = signalResume) : b.handled.pending k = false := by
  rw [barred, Bool.or_eq_false_iff] at h
  rw [handled_eq, if_neg (by simp [h.1]), if_neg (by simp [h.2])]
  split
  next =>
    rw [pending_clearSignal _ _ _ (by decide)]
    rcases hk with rfl | rfl | rfl
    · simp [h.1]
    · simp [h.2]
    · simp
  next hr =>
    rcases hk with rfl | rfl | rfl
    · exact h.1
    · exact h.2
    · simpa using hr

/-- Signals that are handled once are handled for good. -/
theorem handled_of_clean {b : Proc}
    (h : ∀ k, k = signalKill ∨ k = signalStop ∨ k = signalResume → b.pending k = false) :
    b.handled = b := by
  rw [handled_eq, if_neg (by simp [h signalKill (.inl rfl)]),
    if_neg (by simp [h signalStop (.inr (.inl rfl))]),
    if_neg (by simp [h signalResume (.inr (.inr rfl))])]

theorem barred_handled {b : Proc} (h : b.barred = false) : b.handled.barred = false := by
  rw [barred, pending_handled_of_not_barred h (.inl rfl),
    pending_handled_of_not_barred h (.inr (.inl rfl))]
  rfl

end Proc

namespace Sched

/-! ## Selections -/

/-- What every selection does. -/
structure Choice.Sound (alg : Algorithm) (a : Sched) (c : Choice) : Prop where
  visited : ∀ p ∈ c.visited, ∃ l, p ∈ a.list l
  next : ∀ p, c.next = some p → p ∈ c.visited ∧ (a.proc p).barred = false
  idle : c.next = none → ∀ l ∈ served alg, ∀ p ∈ a.list l, (a.proc p).barred = true

section Scan

variable {barred : Pid → Bool} {ps : List Pid} {p : Pid}

theorem scan_subset (h : p ∈ (scan barred ps).1) : p ∈ ps := by
  induction ps with
  | nil => exact h
  | cons q ps ih =>
      rw [scan] at h
      split at h
      next =>
        rcases List.mem_cons.mp h with rfl | h
        · exact List.mem_cons_self
        · exact List.mem_cons_of_mem q (ih h)
      next =>
        rw [List.mem_singleton.mp h]
        exact List.mem_cons_self

theorem scan_next (h : (scan barred ps).2 = some p) :
    p ∈ (scan barred ps).1 ∧ barred p = false := by
  induction ps with
  | nil => exact absurd h (by simp [scan])
  | cons q ps ih =>
      rw [scan] at h ⊢
      split at h
      next hq =>
        obtain ⟨hp, hb⟩ := ih h
        rw [if_pos hq]
        exact ⟨List.mem_cons_of_mem q hp, hb⟩
      next hq =>
        obtain rfl := Option.some.inj h
        rw [if_neg hq]
        exact ⟨List.mem_cons_self, by simpa using hq⟩

/-- The scan passes the barred processes in front of the first that is not. -/
theorem scan_split (h : (scan barred ps).2 = some p) :
    ∃ pre post, ps = pre ++ p :: post ∧ (scan barred ps).1 = pre ++ [p] ∧
      (∀ q ∈ pre, barred q = true) ∧ barred p = false := by
  induction ps with
  | nil => exact absurd h (by simp [scan])
  | cons q ps ih =>
      rw [scan] at h ⊢
      split at h
      next hq =>
        obtain ⟨pre, post, hps, hvisited, hpre, hp⟩ := ih h
        rw [if_pos hq]
        refine ⟨q :: pre, post, congrArg (q :: ·) hps, congrArg (q :: ·) hvisited, ?_, hp⟩
        intro r hr
        rcases List.mem_cons.mp hr with rfl | hr
        · exact hq
        · exact hpre r hr
      next hq =>
        obtain rfl := Option.some.inj h
        rw [if_neg hq]
        exact ⟨[], ps, rfl, rfl, fun r hr => absurd hr List.not_mem_nil, by simpa using hq⟩

theorem scan_idle (h : (scan barred ps).2 = none) (hp : p ∈ ps) : barred p = true := by
  induction ps with
  | nil => exact absurd hp List.not_mem_nil
  | cons q ps ih =>
      rw [scan] at h
      split at h
      next hq =>
        rcases List.mem_cons.mp hp with rfl | hp
        · exact hq
        · exact ih h hp
      next => exact absurd h (by simp)

end Scan

section Draw

variable {shares : Pid → Int} {barred : Pid → Bool} {ps : List Pid} {p : Pid} {w : Int}

theorem ticketHolder_mem (h : ticketHolder shares w ps = some p) : p ∈ ps := by
  induction ps generalizing w with
  | nil => exact absurd h (by simp [ticketHolder])
  | cons q ps ih =>
      rw [ticketHolder] at h
      split at h
      next => rw [Option.some.inj h]; exact List.mem_cons_self
      next => exact List.mem_cons_of_mem q (ih h)

theorem ticketHolder_ne_none (h : w < (ps.map shares).sum) (h0 : 0 ≤ w) :
    ticketHolder shares w ps ≠ none := by
  induction ps generalizing w with
  | nil => simp at h; omega
  | cons q ps ih =>
      rw [ticketHolder]
      split
      next => simp
      next hw =>
        rw [List.map_cons, List.sum_cons] at h
        exact ih (by omega) (by omega)

theorem sum_shares_pos (hshares : ∀ q, 0 < shares q) (hps : ps ≠ []) :
    0 < (ps.map shares).sum := by
  induction ps with
  | nil => exact absurd rfl hps
  | cons q ps ih =>
      have := hshares q
      rw [List.map_cons, List.sum_cons]
      by_cases hnil : ps = []
      · subst hnil; simpa
      · have := ih hnil
        omega

/-- Some process holds the ticket with the number of the draw. -/
theorem winner_ne_none (x : Nat) (hsum : 0 < (ps.map shares).sum) :
    ticketHolder shares ((x % (ps.map shares).sum.toNat : Nat)) ps ≠ none := by
  have hlt := Nat.mod_lt x (y := (ps.map shares).sum.toNat) (by omega)
  exact ticketHolder_ne_none (by omega) (Int.natCast_nonneg _)

variable {idle : Choice} {fuel : Nat} {r : BitVec 64} {t : Nat → BitVec 32}

/-- One round of the lottery: nobody is left, or somebody wins. -/
theorem draw_cases (barred : Pid → Bool) (idle : Choice) (fuel : Nat) (ps : List Pid)
    (r : BitVec 64) (t : Nat → BitVec 32) (hshares : ∀ q, 0 < shares q) :
    (ps = [] ∧ draw shares barred idle (fuel + 1) ps r t =
      { idle with lotteryRngState := r, systemTimer := t }) ∨
    ∃ q ∈ ps, draw shares barred idle (fuel + 1) ps r t =
      let r := xorshift r (t 0)
      let t := fun i => t (i + 1)
      if barred q then
        let c := draw shares barred idle fuel (ps.filter (· ≠ q)) r t
        { c with visited := q :: c.visited }
      else { idle with visited := [q], next := some q, lotteryRngState := r, systemTimer := t } := by
  by_cases hps : ps = []
  · subst hps
    exact .inl ⟨rfl, by simp [draw]⟩
  · have hsum := sum_shares_pos hshares hps
    obtain ⟨q, hq⟩ := Option.ne_none_iff_exists'.mp
      (winner_ne_none (xorshift r (t 0)).toNat hsum)
    refine .inr ⟨q, ticketHolder_mem hq, ?_⟩
    rw [draw]
    simp only [if_neg hsum.ne', hq]

theorem draw_subset (hshares : ∀ q, 0 < shares q) (hidle : idle.visited = [])
    (h : p ∈ (draw shares barred idle fuel ps r t).visited) : p ∈ ps := by
  induction fuel generalizing ps r t with
  | zero => simp [draw, hidle] at h
  | succ n ih =>
      rcases draw_cases barred idle n ps r t hshares with ⟨_, hd⟩ | ⟨q, hq, hd⟩
      · rw [hd] at h
        simp [hidle] at h
      · rw [hd] at h
        dsimp only at h
        split at h
        next =>
          rcases List.mem_cons.mp h with rfl | h
          · exact hq
          · exact List.mem_of_mem_filter (ih h)
        next =>
          rw [List.mem_singleton.mp h]
          exact hq

theorem draw_next (hshares : ∀ q, 0 < shares q) (hidle : idle.next = none)
    (h : (draw shares barred idle fuel ps r t).next = some p) :
    p ∈ (draw shares barred idle fuel ps r t).visited ∧ barred p = false := by
  induction fuel generalizing ps r t with
  | zero => simp [draw, hidle] at h
  | succ n ih =>
      rcases draw_cases barred idle n ps r t hshares with ⟨_, hd⟩ | ⟨q, _, hd⟩
      · rw [hd] at h
        simp [hidle] at h
      · rw [hd] at h ⊢
        dsimp only at h ⊢
        split at h
        next hb =>
          obtain ⟨hp, hpb⟩ := ih h
          rw [if_pos hb]
          exact ⟨List.mem_cons_of_mem q hp, hpb⟩
        next hb =>
          obtain rfl := Option.some.inj h
          rw [if_neg hb]
          exact ⟨List.mem_cons_self, by simpa using hb⟩

/-- The lottery goes on until somebody wins or nobody is left. -/
theorem draw_idle (hshares : ∀ q, 0 < shares q) (hfuel : ps.length ≤ fuel)
    (h : (draw shares barred idle fuel ps r t).next = none) (hp : p ∈ ps) : barred p = true := by
  induction fuel generalizing ps r t with
  | zero =>
      rw [List.length_eq_zero_iff.mp (Nat.le_zero.mp hfuel)] at hp
      exact absurd hp List.not_mem_nil
  | succ n ih =>
      rcases draw_cases barred idle n ps r t hshares with ⟨rfl, _⟩ | ⟨q, hq, hd⟩
      · exact absurd hp List.not_mem_nil
      · rw [hd] at h
        dsimp only at h
        split at h
        next hb =>
          by_cases hpq : p = q
          · rw [hpq]; exact hb
          · refine ih ?_ h (List.mem_filter.mpr ⟨hp, by simpa using hpq⟩)
            have := List.length_filter_lt_length_iff_exists (p := fun x => decide (x ≠ q)) |>.mpr
              ⟨q, hq, by simp⟩
            omega
        next => exact absurd h (by simp)

end Draw

section Aging

variable {counter : Pid → Int} {ps : List Pid} {p : Pid}

/-- The best of a walk is the best so far, or the first process of the largest
counter. -/
theorem richest_foldl (counter : Pid → Int) (ps : List Pid) (b : Option Pid × Int) :
    let r := ps.foldl (fun b p => if b.2 < counter p then (some p, counter p) else b) b
    (r = b ∧ ∀ q ∈ ps, counter q ≤ b.2) ∨
      ∃ pre p post, ps = pre ++ p :: post ∧ r = (some p, counter p) ∧ b.2 < counter p ∧
        (∀ q ∈ pre, counter q < counter p) ∧ ∀ q ∈ post, counter q ≤ counter p := by
  induction ps generalizing b with
  | nil => exact .inl ⟨rfl, fun q hq => absurd hq List.not_mem_nil⟩
  | cons q ps ih =>
      rw [List.foldl_cons]
      by_cases hq : b.2 < counter q
      · rw [if_pos hq]
        rcases ih (some q, counter q) with ⟨he, hle⟩ | ⟨pre, p, post, hps, he, hlt, hpre, hpost⟩
        · exact .inr ⟨[], q, ps, rfl, he, hq, fun r hr => absurd hr List.not_mem_nil, hle⟩
        · refine .inr ⟨q :: pre, p, post, congrArg (q :: ·) hps, he, hq.trans hlt, ?_, hpost⟩
          exact List.forall_mem_cons.mpr ⟨hlt, hpre⟩
      · rw [if_neg hq]
        have hqb : counter q ≤ b.2 := Int.not_lt.mp hq
        rcases ih b with ⟨he, hle⟩ | ⟨pre, p, post, hps, he, hlt, hpre, hpost⟩
        · exact .inl ⟨he, List.forall_mem_cons.mpr ⟨hqb, hle⟩⟩
        · refine .inr ⟨q :: pre, p, post, congrArg (q :: ·) hps, he, hlt, ?_, hpost⟩
          exact List.forall_mem_cons.mpr ⟨Int.lt_of_le_of_lt hqb hlt, hpre⟩

theorem richest_split (h : (richest counter ps).1 = some p) :
    ∃ pre post, ps = pre ++ p :: post ∧ 0 < counter p ∧ (∀ q ∈ pre, counter q < counter p) ∧
      ∀ q ∈ post, counter q ≤ counter p := by
  unfold richest at h
  rcases richest_foldl counter ps (none, 0) with ⟨he, _⟩ | ⟨pre, q, post, hps, he, hlt, hpre, hpost⟩
  · rw [he] at h
    exact absurd h (by simp)
  · rw [he] at h
    obtain rfl : q = p := Option.some.inj h
    exact ⟨pre, post, hps, hlt, hpre, hpost⟩

theorem richest_some (h : (richest counter ps).1 = some p) : p ∈ ps ∧ 0 < counter p := by
  obtain ⟨pre, post, hps, hlt, _⟩ := richest_split h
  exact ⟨hps ▸ List.mem_append_right pre List.mem_cons_self, hlt⟩

/-- A walk that finds nobody has met no positive counter. -/
theorem richest_none (h : (richest counter ps).1 = none) (hp : p ∈ ps) : counter p ≤ 0 := by
  unfold richest at h
  rcases richest_foldl counter ps (none, 0) with ⟨_, hle⟩ | ⟨_, q, _, _, he, _⟩
  · exact hle p hp
  · rw [he] at h
    exact absurd h (by simp)

theorem chooseRichest_next {recharge : (Pid → Int) → Pid → Int} {fuel : Nat}
    {r : Option Pid × (Pid → Int)} (h : chooseRichest recharge ps fuel counter = some r) :
    (∀ p, r.1 = some p → p ∈ ps) ∧ (r.1 = none → ps = []) := by
  induction fuel generalizing counter with
  | zero => exact absurd h (by simp [chooseRichest])
  | succ n ih =>
      rw [chooseRichest] at h
      split at h
      next q hq =>
        rw [← Option.some.inj h]
        exact ⟨fun p hp => Option.some.inj hp ▸ (richest_some hq).1, fun hn => absurd hn (by simp)⟩
      next =>
        split at h
        next hnil =>
          rw [← Option.some.inj h]
          exact ⟨fun p hp => absurd hp (by simp), fun _ => hnil⟩
        next => exact ih h

end Aging

variable {a : Sched} {alg : Algorithm} {c : Choice} {p : Pid}

theorem frontChoice_sound {ps : List Pid} {quantum : Pid → Option Int}
    (hps : ∀ p, p ∈ ps ↔ ∃ l ∈ served alg, p ∈ a.list l) :
    (a.frontChoice ps quantum).Sound alg a where
  visited p hp := by
    obtain ⟨l, _, hl⟩ := (hps p).mp (scan_subset hp)
    exact ⟨l, hl⟩
  next p hp := scan_next hp
  idle hn l hl p hp := scan_idle hn ((hps p).mpr ⟨l, hl, hp⟩)

theorem shares_pos (b : Proc) : 0 < b.shares := by
  unfold Proc.shares
  split
  next h => exact h
  next => decide

theorem lotteryChoice_sound (h : a.Lists) (halg : served alg = [.readyQueue]) :
    a.lotteryChoice.Sound alg a where
  visited p hp := ⟨.readyQueue, draw_subset (fun q => shares_pos _) rfl hp⟩
  next p hp := draw_next (fun q => shares_pos _) rfl hp
  idle hn l hl p hp := by
    rw [halg, List.mem_singleton] at hl
    subst hl
    exact draw_idle (fun q => shares_pos _) (h.length_le _) hn hp

theorem agingChoice_sound (halg : served alg = [.readyQueue]) (hc : a.agingChoice = some c) :
    c.Sound alg a := by
  unfold agingChoice at hc
  rw [Option.map_eq_some_iff] at hc
  obtain ⟨r, hr, rfl⟩ := hc
  obtain ⟨hnext, hidle⟩ := chooseRichest_next hr
  refine ⟨fun p hp => ⟨_, hp⟩, fun p hp => ?_, fun hn l hl p hp => ?_⟩
  · have := List.mem_filter.mp (hnext p hp)
    exact ⟨this.1, by simpa using this.2⟩
  · rw [halg, List.mem_singleton] at hl
    subst hl
    have := List.filter_eq_nil_iff.mp (hidle hn) p hp
    simpa using this

theorem select_sound (h : a.Lists) (hc : a.select alg = some c) : c.Sound alg a := by
  have hready : served alg = [.readyQueue] →
      ∀ p, p ∈ a.list .readyQueue ↔ ∃ l ∈ served alg, p ∈ a.list l := by
    intro halg p
    simp [halg]
  have hlevel : ∀ policy, alg.mlPolicy = some policy →
      ∀ p, p ∈ a.byLevel policy ↔ ∃ l ∈ served alg, p ∈ a.list l := by
    intro policy halg p
    simp [served, halg, mem_byLevel]
  cases alg with
  | roundRobin | fcfs | sjf =>
      obtain rfl := Option.some.inj hc
      exact frontChoice_sound (hready rfl)
  | lottery =>
      obtain rfl := Option.some.inj hc
      exact lotteryChoice_sound h rfl
  | priorityAging => exact agingChoice_sound rfl hc
  | mlq | mlfq =>
      obtain rfl := Option.some.inj hc
      exact frontChoice_sound (hlevel _ rfl)

/-! ## The effect of a choice -/

/-- The process a choice dispatches. -/
def Choice.target (c : Choice) : Pid := c.next.getD initProcess

theorem proc_commit (p : Pid) : (a.commit c).proc p =
    { (if p ∈ c.visited then (a.proc p).handled else a.proc p) with counter := c.counter p } := rfl

/-- The state that the selection leaves a process in. -/
theorem state_commit (a : Sched) (c : Choice) (p : Pid) :
    ((a.commit c).proc p).state =
      if p ∈ c.visited then (a.proc p).handled.state else (a.proc p).state := by
  rw [proc_commit]
  split <;> rfl

theorem mem_list_examine {vs : List Pid} {n : Option Pid} {l : ReadyList} :
    p ∈ (a.examine vs n).list l ↔
      p ∈ a.list l ∧ ¬ (p ∈ vs ∧ (a.proc p).barred = true) ∧ n ≠ some p := by
  simp only [examine, List.mem_filter]
  cases (a.proc p).barred <;> simp

theorem mem_list_commit {l : ReadyList} : p ∈ (a.commit c).list l ↔
    p ∈ a.list l ∧ ¬ (p ∈ c.visited ∧ (a.proc p).barred = true) ∧ c.next ≠ some p :=
  mem_list_examine

section Dispatch

variable (a : Sched) (c : Choice) (p : Pid)

theorem state_dispatch : ((a.dispatch c).proc p).state =
    if p = c.target then .running
    else if p = a.currentProcess ∧ ((a.commit c).proc p).state = .running then .ready
    else ((a.commit c).proc p).state :=
  field_modify ((a.commit c).switchTo c.target) _ p
    (fun b => { b with preemptDisabled := b.preemptDisabled - 1 }) Proc.state fun _ => rfl

/-- Of the fields of a process, the switch writes only the state and the guard. -/
theorem field_dispatch {β : Type} (g : Proc → β) (hs : ∀ b st, g { b with state := st } = g b)
    (hd : ∀ b n, g { b with preemptDisabled := n } = g b) :
    g ((a.dispatch c).proc p) = g ((a.commit c).proc p) :=
  (field_modify _ _ _ _ g fun _ => hd _ _).trans (hs _ _)

theorem pending_dispatch (k : Nat) :
    ((a.dispatch c).proc p).pending k = ((a.commit c).proc p).pending k :=
  field_dispatch a c p (·.pending k) (fun _ _ => rfl) fun _ _ => rfl

end Dispatch

/-! ## The law through a decision -/

section Contest

variable (a : Sched) (alg : Algorithm) (p : Pid)

theorem proc_contest : (a.contest alg).proc p =
    if p = a.currentProcess then
      let b := { a.proc p with preemptDisabled := (a.proc p).preemptDisabled + 1 }
      if p ≠ initProcess ∧ b.state = .running then b.makeReady else b
    else a.proc p := by
  have hdis : a.preemptDisable.proc p = if p = a.currentProcess then
      { a.proc p with preemptDisabled := (a.proc p).preemptDisabled + 1 } else a.proc p :=
    proc_modify a _ p _
  unfold contest requeueCurrent
  by_cases hp : p = a.currentProcess
  · subst hp
    rw [if_pos rfl] at hdis ⊢
    have hcur : a.preemptDisable.current =
        { a.current with preemptDisabled := a.current.preemptDisabled + 1 } := hdis
    split
    next hc =>
      rw [proc_enqueue, if_pos ⟨rfl, hc.1⟩, hdis]
      dsimp only
      rw [if_pos]
      exact ⟨hc.1, by rw [hcur] at hc; exact hc.2⟩
    next hc =>
      rw [hdis]
      dsimp only
      rw [if_neg]
      exact fun hn => hc ⟨hn.1, by rw [hcur]; exact hn.2⟩
  · rw [if_neg hp] at hdis ⊢
    split
    next => rw [proc_enqueue, if_neg fun hn => hp hn.1, hdis]
    next => exact hdis

theorem toGlobals_contest : (a.contest alg).toGlobals = a.toGlobals := by
  unfold contest requeueCurrent
  split
  next => rw [toGlobals_enqueue]; rfl
  next => rfl

/-- The signals and the awaited pid are the same in the contest. -/
theorem field_contest {β : Type} (g : Proc → β) (hs : ∀ b st, g { b with state := st } = g b)
    (hd : ∀ b n, g { b with preemptDisabled := n } = g b) :
    g ((a.contest alg).proc p) = g (a.proc p) := by
  rw [proc_contest]
  split
  next =>
    dsimp only
    split
    next => exact (hs _ _).trans (hd _ _)
    next => exact hd _ _
  next => rfl

theorem state_contest : ((a.contest alg).proc p).state =
    if p = a.currentProcess ∧ p ≠ initProcess ∧ (a.proc p).state = .running then .ready
    else (a.proc p).state := by
  rw [proc_contest]
  by_cases hp : p = a.currentProcess
  · rw [if_pos hp]
    dsimp only
    split
    next hc => rw [if_pos ⟨hp, hc⟩]; rfl
    next hc => rw [if_neg fun hn => hc hn.2]
  · rw [if_neg hp, if_neg fun hn => hp hn.1]

theorem mem_list_contest {l : ReadyList} : p ∈ (a.contest alg).list l ↔ p ∈ a.list l ∨
    p = a.currentProcess ∧ p ≠ initProcess ∧ (a.proc p).state = .running ∧ l = a.home alg p := by
  have hstate : a.preemptDisable.current.state = a.current.state :=
    a.state_preemptDisable _
  have hhome : a.preemptDisable.home alg = a.home alg := by
    funext q
    cases alg <;> rfl
  unfold contest requeueCurrent
  rw [hstate]
  split
  next hc =>
    rw [mem_list_enqueue, hhome]
    refine or_congr Iff.rfl ⟨?_, ?_⟩
    · rintro ⟨rfl, hi, hl⟩
      exact ⟨rfl, hi, hc.2, hl⟩
    · rintro ⟨rfl, hi, _, hl⟩
      exact ⟨rfl, hi, hl⟩
  next hc =>
    refine ⟨.inl, fun h => h.resolve_right ?_⟩
    rintro ⟨rfl, hi, hs, _⟩
    exact hc ⟨hi, hs⟩

end Contest

/-- The outgoing process goes back into its list only if it is running, so it was in
none. -/
theorem Lists.contest {a : Sched} (h : a.Lists) (hc : a.currentProcess < a.nProcesses)
    (alg : Algorithm) : (a.contest alg).Lists := by
  have hdis : a.preemptDisable.Lists := h.congr rfl rfl rfl a.state_preemptDisable
  unfold Sched.contest requeueCurrent
  split
  next hr =>
    have hu : a.preemptDisable.Unlinked a.preemptDisable.currentProcess := by
      refine hdis.unlinked ?_
      rw [← Sched.current, hr.2]
      decide
    have hwake := hdis.wake alg hu hc id
    rwa [modify_self rfl] at hwake
  next => exact hdis

namespace Law

variable {a : Sched} {alg : Algorithm} {c : Choice}

theorem contest (h : a.Law) (hc : a.Outgoing) (alg : Algorithm) : (a.contest alg).Law := by
  have hdis := (h.calm_preemptDisable).law
  unfold Sched.contest requeueCurrent
  split
  next =>
    have hu : a.preemptDisable.Unlinked a.preemptDisable.currentProcess :=
      h.unlinked_current hc
    have hwake := hdis.wake alg hu hc.registered id
    rwa [modify_self rfl] at hwake
  next => exact hdis

theorem dispatch (h : a.Law) (hc : c.Sound alg a)
    (hcur : a.currentProcess ≠ initProcess → a.current.state ≠ .running) :
    (a.dispatch c).Law where
  initRegistered := h.initRegistered
  bound := h.bound
  table := h.table
  nodup l := (h.nodup l).filter _
  apart l l' p hp hp' := h.apart l l' p (mem_list_commit.mp hp).1 (mem_list_commit.mp hp').1
  queued l p hp := by
    obtain ⟨hl, hb, hn⟩ := mem_list_commit.mp hp
    obtain ⟨hi, hlt, hs⟩ := h.queued l p hl
    have htarget : p ≠ c.target := by
      intro he
      unfold Choice.target at he
      cases hc' : c.next with
      | none => rw [hc'] at he; exact hi he
      | some q => rw [hc'] at he; exact hn (he ▸ hc')
    have hready : ((a.commit c).proc p).state = .ready := by
      rw [proc_commit]
      split
      next hv =>
        have hnb : (a.proc p).barred = false := by simpa using fun hbb => hb ⟨hv, hbb⟩
        exact (Proc.state_handled_of_not_barred hnb).trans hs
      next => exact hs
    refine ⟨hi, hlt, ?_⟩
    rw [state_dispatch, if_neg htarget, hready]
    split <;> rfl
  linked p hi hlt hs := by
    rw [state_dispatch] at hs
    split at hs
    next => exact absurd hs (by decide)
    next htarget =>
      have hnext : c.next ≠ some p := fun hn => htarget (by rw [Choice.target, hn]; rfl)
      by_cases hv : p ∈ c.visited
      · obtain ⟨l, hl⟩ := hc.visited p hv
        have hstate : ((a.commit c).proc p).state = (a.proc p).handled.state := by
          rw [proc_commit, if_pos hv]
        rw [hstate] at hs
        refine ⟨l, mem_list_commit.mpr ⟨hl, fun hb => ?_, hnext⟩⟩
        obtain ⟨hnr, hnrun⟩ := Proc.state_handled_of_barred hb.2
        rw [if_neg fun hr => hnrun hr.2] at hs
        exact hnr hs
      · have hstate : ((a.commit c).proc p).state = (a.proc p).state := by
          rw [proc_commit, if_neg hv]
        -- nobody but init is running in the contest, so `p` was ready already
        have hout : ¬ (p = a.currentProcess ∧ (a.proc p).state = .running) := by
          rintro ⟨rfl, hr⟩
          exact hcur hi hr
        rw [hstate, if_neg hout] at hs
        obtain ⟨l, hl⟩ := h.linked p hi hlt hs
        exact ⟨l, mem_list_commit.mpr ⟨hl, fun hb => hv hb.1, hnext⟩⟩

end Law

/-- A decision of `alg` that leads from `a` to `b`. -/
structure Decides (alg : Algorithm) (a b : Sched) (c : Choice) : Prop where
  contest : (a.contest alg).Law
  sound : c.Sound alg (a.contest alg)
  selected : (a.contest alg).select alg = some c
  result : b = (a.contest alg).dispatch c
  law : b.Law
  current : b.Current

/-- The inversion of `pickNext`. -/
theorem Law.pickNext {a b : Sched} {alg : Algorithm} (h : a.Law) (hout : a.Outgoing)
    (hb : a.pickNext alg = some b) : ∃ c, Decides alg a b c := by
  obtain ⟨c, hc, rfl⟩ := Option.map_eq_some_iff.mp hb
  have hlaw := h.contest hout alg
  have hsound := select_sound hlaw.lists hc
  have hcur : (a.contest alg).currentProcess ≠ initProcess →
      (a.contest alg).current.state ≠ .running := by
    rw [current, toGlobals_contest, state_contest]
    intro hi
    split
    next => decide
    next hn => exact fun hr => hn ⟨rfl, hi, hr⟩
  have hlaw' := hlaw.dispatch hsound hcur
  refine ⟨c, hlaw, hsound, hc, rfl, hlaw', ⟨?_, fun _ => ?_⟩⟩
  · change c.target < _
    unfold Choice.target
    cases hn : c.next with
    | none => exact hlaw.initRegistered
    | some p =>
        obtain ⟨l, hl⟩ := hsound.visited p (hsound.next p hn).1
        exact (hlaw.queued l p hl).2.1
  · exact (state_dispatch _ _ _).trans (if_pos rfl)

/-! ## The law through an operation -/

section Step

variable {a b : Sched} {alg : Algorithm} {op : Op}

theorem state_setCounter (a : Sched) (p q : Pid) (n : Int) :
    ((a.setCounter q n).proc p).state = (a.proc p).state :=
  field_modify a q p (fun b => { b with counter := n }) Proc.state fun _ => rfl

/-- The end of a burst writes the counter and the burst fields only. -/
theorem field_closeBurst {β : Type} (a : Sched) (p : Pid) (g : Proc → β)
    (hc : ∀ b n, g { b with counter := n } = g b) (hb : ∀ b, g b.endBurst = g b) :
    g (a.closeBurst.proc p) = g (a.proc p) := by
  rw [closeBurst, setCounter, field_modify _ _ _ _ g fun b => hc b 0]
  split
  next => exact field_modify _ _ _ Proc.endBurst g hb
  next => rfl

theorem state_closeBurst (a : Sched) (p : Pid) :
    (a.closeBurst.proc p).state = (a.proc p).state :=
  a.field_closeBurst p Proc.state (fun _ _ => rfl) fun _ => rfl

@[simp] theorem toGlobals_givenUp (a : Sched) (op : Op) :
    (a.givenUp op).toGlobals = a.toGlobals := by
  cases op with
  | wait pid =>
      rw [givenUp]
      split <;> rfl
  | _ => rfl

/-- Nobody wakes the process that has just given up the CPU. -/
theorem Law.state_before (h : a.Law) (hc : a.Current) (hop : op.Enabled a.toGlobals)
    (hi : a.currentProcess ≠ initProcess) :
    ((a.before alg op).proc a.currentProcess).state =
      ((a.givenUp op).proc a.currentProcess).state := by
  have hstep := (h.calm_before alg hc hop).proc a.currentProcess
    (by rw [toGlobals_givenUp]; exact hc.registered)
  have hcalm : ((a.givenUp op).proc a.currentProcess).state.blocked = false →
      ((a.before alg op).proc a.currentProcess).state =
        ((a.givenUp op).proc a.currentProcess).state := by
    intro hnb
    rcases hstep.state with hs | ⟨hb, _⟩
    · exact hs.1
    · rw [hnb] at hb
      exact absurd hb (by simp)
  have hrun : (a.proc a.currentProcess).state.blocked = false := by
    rw [← current, hc.running hi]
    rfl
  cases op with
  | block why => exact state_closeBurst _ _
  | wait pid =>
      simp only [before, Sched.givenUp]
      split
      next => exact state_closeBurst _ _
      next => rfl
  | exit =>
      refine hcalm ?_
      rw [Sched.givenUp, die, proc_modify, if_pos rfl]
      rfl
  | _ => exact hcalm hrun

theorem state_givenUp_ne_ready (hc : a.Current) (op : Op)
    (hi : a.currentProcess ≠ initProcess) :
    ((a.givenUp op).proc a.currentProcess).state ≠ .ready := by
  have hrun : (a.proc a.currentProcess).state ≠ .ready := hc.outgoing.notReady hi
  cases op with
  | block why =>
      rw [givenUp, block, proc_modify, if_pos rfl]
      cases why <;> simp [Blocking.state]
  | wait pid =>
      rw [givenUp]
      split
      next => rw [waitFor, proc_modify, if_pos rfl]; simp
      next => exact hrun
  | exit =>
      rw [givenUp, die, proc_modify, if_pos rfl]
      simp
  | _ => exact hrun

/-- An operation that makes no decision takes the CPU from nobody. -/
theorem givenUp_eq (hd : a.decides alg op = false) : a.givenUp op = a := by
  cases op with
  | wait pid =>
      have hb : a.blocksOn pid = false := hd
      rw [givenUp, hb]
      rfl
  | yield | block why | exit => exact absurd hd (by simp [decides])
  | _ => rfl

theorem Law.outgoing_before (h : a.Law) (hc : a.Current) (hop : op.Enabled a.toGlobals) :
    (a.before alg op).Outgoing := by
  have hcalm := h.calm_before alg hc hop
  have hcur : (a.before alg op).currentProcess = a.currentProcess := by
    rw [hcalm.currentProcess, toGlobals_givenUp]
  refine ⟨?_, fun hi => ?_⟩
  · have hn := hcalm.nProcesses
    rw [toGlobals_givenUp] at hn
    rw [hcur]
    exact Nat.lt_of_lt_of_le hc.registered hn
  · rw [hcur] at hi
    rw [current, hcur, h.state_before hc hop hi]
    exact state_givenUp_ne_ready hc op hi

theorem Law.current_before (h : a.Law) (hc : a.Current) (hop : op.Enabled a.toGlobals)
    (hd : a.decides alg op = false) : (a.before alg op).Current := by
  have hcalm := h.calm_before alg hc hop
  have hcur : (a.before alg op).currentProcess = a.currentProcess := by
    rw [hcalm.currentProcess, toGlobals_givenUp]
  refine ⟨(h.outgoing_before hc hop).registered, fun hi => ?_⟩
  rw [hcur] at hi
  rw [current, hcur, h.state_before hc hop hi, givenUp_eq hd]
  exact hc.running hi

/-- Every operation keeps the law. -/
theorem Law.step (h : a.Law) (hc : a.Current) (hop : op.Enabled a.toGlobals)
    (hb : a.step alg op = some b) : b.Law ∧ b.Current := by
  have hcalm := h.calm_before alg hc hop
  unfold Sched.step at hb
  split at hb
  next =>
    obtain ⟨c, hdec⟩ := hcalm.law.pickNext (h.outgoing_before hc hop) hb
    exact ⟨hdec.law, hdec.current⟩
  next hd =>
    obtain rfl := Option.some.inj hb
    exact ⟨hcalm.law, h.current_before hc hop (by simpa using hd)⟩

end Step

end Sched

end Demoos
