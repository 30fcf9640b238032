import Demoos.Scheduler.Decision
import Demoos.Scheduler.Refinement

/-!
# The pick functions refine the abstract decision

Each selection loop of the code takes processes off a queue one at a time,
handles their signals and stops at the first that is still ready.  The abstract
decision does all of this at once.  The proofs are inductions on the loop, with
one equation for each round: taking `p` off its list, handling its signals and
then examining `vs` is examining `p :: vs`.
-/

namespace Demoos

open Function (update update_self update_of_ne)
open LinkedQueue

namespace Sched

variable {a : Sched} {p q : Pid} {vs : List Pid} {n : Option Pid}

/-- Every queued process is ready. -/
def AllReady (a : Sched) : Prop := ∀ l, ∀ p ∈ a.list l, (a.proc p).state = .ready

theorem Lists.allReady (h : a.Lists) : a.AllReady := fun l p hp => (h.queued l p hp).2.2

/-! ## One round of a selection -/

/-- `p` is taken off whatever list it is in. -/
def without (a : Sched) (p : Pid) : Sched :=
  { a with list := fun l => (a.list l).filter (· ≠ p) }

theorem mem_without {l : ReadyList} : q ∈ (a.without p).list l ↔ q ∈ a.list l ∧ q ≠ p := by
  simp [without]

theorem list_without {l : ReadyList} {xs ys : List Pid} (hl : a.list l = xs ++ p :: ys)
    (hnd : (a.list l).Nodup) : (a.without p).list l = xs ++ ys := by
  rw [hl, List.nodup_append] at hnd
  have hx : ∀ q ∈ xs, q ≠ p := fun q hq e => hnd.2.2 q hq p List.mem_cons_self e
  have hy : ∀ q ∈ ys, q ≠ p := fun q hq e => (List.nodup_cons.mp hnd.2.1).1 (e ▸ hq)
  have hxf : xs.filter (· ≠ p) = xs := List.filter_eq_self.mpr fun q hq => by simpa using hx q hq
  have hyf : ys.filter (· ≠ p) = ys := List.filter_eq_self.mpr fun q hq => by simpa using hy q hq
  simp only [without, hl, List.filter_append, List.filter_cons, hxf, hyf]
  simp

theorem setList_eq_without {l : ReadyList} {xs ys : List Pid} (hl : a.list l = xs ++ p :: ys)
    (hnd : (a.list l).Nodup) (hap : ∀ l l' q, q ∈ a.list l → q ∈ a.list l' → l = l') :
    a.setList l (xs ++ ys) = a.without p := by
  refine Sched.ext rfl rfl rfl rfl rfl rfl rfl rfl ?_
  funext l'
  rw [list_setList]
  split
  next e => rw [e, list_without hl hnd]
  next e =>
    refine (List.filter_eq_self.mpr fun q hq => ?_).symm
    have : q ≠ p := fun he => e (hap l' l q hq (by simp [hl, he]))
    simpa using this

theorem examine_nil : a.examine [] none = a := by
  refine Sched.ext rfl rfl rfl rfl rfl rfl rfl ?_ ?_
  · funext q; simp [examine]
  · funext l; simp [examine]

/-- A barred process is visited: it leaves its list. -/
theorem examine_barred (hb : (a.proc p).barred = true) (hp : p ∉ vs) :
    ((a.without p).modify p Proc.handled).examine vs n = a.examine (p :: vs) n := by
  refine Sched.ext rfl rfl rfl rfl rfl rfl rfl ?_ ?_
  · funext q
    simp only [examine, proc_modify]
    by_cases hq : q = p
    · subst hq
      simp [hp, without]
    · simp [hq, without]
  · funext l
    simp only [examine, proc_modify, list_modify, without, List.filter_filter]
    refine List.filter_congr fun q _ => ?_
    by_cases hq : q = p
    · subst hq
      simp [hb]
    · simp [hq]

/-- A process that is not barred is visited: it keeps its place. -/
theorem examine_spared (hb : (a.proc p).barred = false) (hp : p ∉ vs) :
    (a.modify p Proc.handled).examine vs n = a.examine (p :: vs) n := by
  refine Sched.ext rfl rfl rfl rfl rfl rfl rfl ?_ ?_
  · funext q
    simp only [examine, proc_modify]
    by_cases hq : q = p
    · subst hq
      simp [hp]
    · simp [hq]
  · funext l
    simp only [examine, proc_modify, list_modify]
    refine List.filter_congr fun q _ => ?_
    by_cases hq : q = p
    · subst hq
      simp [hb, hp]
    · simp [hq]

/-- A process that is not barred is visited and chosen. -/
theorem examine_chosen (hb : (a.proc p).barred = false) :
    (a.without p).modify p Proc.handled = a.examine [p] (some p) := by
  refine Sched.ext rfl rfl rfl rfl rfl rfl rfl ?_ ?_
  · funext q
    simp only [examine, proc_modify]
    by_cases hq : q = p
    · subst hq
      simp [without]
    · simp [hq, without]
  · funext l
    simp only [examine, list_modify, without]
    refine List.filter_congr fun q _ => ?_
    by_cases hq : q = p
    · subst hq
      simp
    · have : p ≠ q := fun e => hq e.symm
      simp [hq, this]

theorem AllReady.without (h : a.AllReady) (p : Pid) :
    ((a.without p).modify p Proc.handled).AllReady := by
  intro l q hq
  obtain ⟨hql, hne⟩ := mem_without.mp hq
  rw [proc_modify, if_neg hne]
  exact h l q hql

theorem AllReady.spared (h : a.AllReady) (hb : (a.proc p).barred = false) :
    (a.modify p Proc.handled).AllReady := by
  intro l q hq
  rw [proc_modify]
  split
  next e =>
    rw [e, Proc.state_handled_of_not_barred hb, ← e]
    exact h l q hq
  next => exact h l q hq

/-- A second examination after one that chose nobody. -/
theorem examine_examine {us : List Pid} (hd : ∀ p ∈ us, p ∉ vs) :
    (a.examine us none).examine vs n = a.examine (us ++ vs) n := by
  refine Sched.ext rfl rfl rfl rfl rfl rfl rfl ?_ ?_
  · funext q
    simp only [examine, List.mem_append]
    by_cases hu : q ∈ us
    · simp [hu, hd q hu]
    · simp [hu]
  · funext l
    simp only [examine, List.filter_filter, List.mem_append]
    refine List.filter_congr fun q _ => ?_
    by_cases hu : q ∈ us
    · cases (a.proc q).barred <;> simp [hu, hd q hu]
    · simp [hu]

/-! ## Scans -/

section Scan

variable {barred barred' : Pid → Bool} {ps xs ys : List Pid}

theorem scan_congr (h : ∀ p ∈ ps, barred p = barred' p) : scan barred ps = scan barred' ps := by
  induction ps with
  | nil => rfl
  | cons q ps ih =>
      rw [scan, scan, h q List.mem_cons_self, ih fun p hp => h p (List.mem_cons_of_mem q hp)]

theorem scan_none (h : (scan barred ps).2 = none) : (scan barred ps).1 = ps := by
  induction ps with
  | nil => rfl
  | cons q ps ih =>
      rw [scan] at h ⊢
      split at h
      next hq => rw [if_pos hq, ih h]
      next => exact absurd h (by simp)

theorem scan_append_some (h : (scan barred xs).2 = some p) :
    scan barred (xs ++ ys) = scan barred xs := by
  induction xs with
  | nil => exact absurd h (by simp [scan])
  | cons q xs ih =>
      rw [List.cons_append, scan, scan]
      rw [scan] at h
      split at h
      next hq => rw [if_pos hq, if_pos hq, ih h]
      next hq => rw [if_neg hq, if_neg hq]

theorem scan_append_none (h : (scan barred xs).2 = none) :
    scan barred (xs ++ ys) = (xs ++ (scan barred ys).1, (scan barred ys).2) := by
  induction xs with
  | nil => rfl
  | cons q xs ih =>
      rw [List.cons_append, scan]
      rw [scan] at h
      split at h
      next hq => rw [if_pos hq, ih h]; rfl
      next => exact absurd h (by simp)

end Scan

end Sched

namespace Refines

variable {s : KState} {a : Sched}

theorem state_eq (h : Refines s a) (p : Pid) : (s.pcb p).state = (a.proc p).state :=
  congrArg Proc.state (h.proc p)

theorem dequeue (h : Refines s a) {l : ReadyList} {p : Pid} {ps : List Pid}
    (hl : a.list l = p :: ps) :
    ∃ s', dequeueProcessFrom s l = (some p, s') ∧ Refines s' (a.without p) := by
  obtain ⟨s', hs', h'⟩ := h.dequeue_cons hl
  have hl' : a.list l = [] ++ p :: ps := hl
  have he := Sched.setList_eq_without hl' (h.holds l).nodup h.apart
  exact ⟨s', hs', he ▸ h'⟩

theorem remove (h : Refines s a) {l : ReadyList} {p : Pid} {xs ys : List Pid}
    (hl : a.list l = xs ++ p :: ys) :
    Refines (Demoos.removeProcessFrom s l xs.getLast? p) (a.without p) := by
  have h' := h.removeProcessFrom hl
  rwa [Sched.setList_eq_without hl (h.holds l).nodup h.apart] at h'

/-- A selected process has its signals handled, and then the code tests whether
it is still ready. -/
theorem handled (h : Refines s a) (alg : Algorithm) {p : Pid}
    (hready : (a.proc p).state = .ready) :
    Refines (Demoos.handleProcessSignals alg s p) (a.modify p Proc.handled) ∧
      (((Demoos.handleProcessSignals alg s p).pcb p).state = .ready ↔
        (a.proc p).barred = false) := by
  have hsig := h.handleProcessSignals alg hready
  refine ⟨hsig, ?_⟩
  rw [hsig.state_eq, Sched.proc_modify, if_pos rfl]
  constructor
  · intro hs
    cases hb : (a.proc p).barred with
    | false => rfl
    | true => exact absurd hs (Proc.state_handled_of_barred hb).1
  · intro hb
    rw [Proc.state_handled_of_not_barred hb, hready]

/-! ## Taking processes off the front -/

theorem dequeueReady (h : Refines s a) (hr : a.AllReady) (alg : Algorithm) (l : ReadyList)
    (fuel : Nat) (hf : (a.list l).length ≤ fuel) :
    (dequeueReady alg l fuel s).1 = (Sched.scan (fun p => (a.proc p).barred) (a.list l)).2 ∧
      Refines (Demoos.dequeueReady alg l fuel s).2
        (a.examine (Sched.scan (fun p => (a.proc p).barred) (a.list l)).1
          (Sched.scan (fun p => (a.proc p).barred) (a.list l)).2) := by
  induction fuel generalizing s a with
  | zero =>
      have hl : a.list l = [] := List.length_eq_zero_iff.mp (Nat.le_zero.mp hf)
      rw [hl]
      exact ⟨rfl, Sched.examine_nil ▸ h⟩
  | succ n ih =>
      rw [Demoos.dequeueReady]
      cases hl : a.list l with
      | nil =>
          rw [h.dequeue_nil hl]
          exact ⟨rfl, Sched.examine_nil ▸ h⟩
      | cons p ps =>
          have hnd := (h.holds l).nodup
          rw [hl, List.nodup_cons] at hnd
          have hready := hr l p (by simp [hl])
          obtain ⟨s', hdeq, h'⟩ := h.dequeue hl
          obtain ⟨hsig, htest⟩ := h'.handled alg hready
          change _ ↔ (a.proc p).barred = false at htest
          rw [hdeq, Sched.scan]
          dsimp only
          cases hb : (a.proc p).barred with
          | false =>
              rw [if_pos (htest.mpr hb), if_neg Bool.false_ne_true]
              exact ⟨rfl, Sched.examine_chosen hb ▸ hsig⟩
          | true =>
              rw [if_neg fun hs => absurd (htest.mp hs) (by simp [hb]), if_pos rfl]
              have hl' : a.list l = [] ++ p :: ps := hl
              have hlist : ((a.without p).modify p Proc.handled).list l = ps :=
                Sched.list_without hl' (h.holds l).nodup
              have hscan : Sched.scan (fun q =>
                  (((a.without p).modify p Proc.handled).proc q).barred) ps =
                  Sched.scan (fun q => (a.proc q).barred) ps := by
                refine Sched.scan_congr fun q hq => ?_
                rw [Sched.proc_modify, if_neg (ne_of_mem_of_not_mem hq hnd.1)]
                rfl
              obtain ⟨hfst, href⟩ := ih hsig (hr.without p) (by
                rw [hlist]; rw [hl] at hf; simpa using hf)
              rw [hlist, hscan] at hfst href
              rw [Sched.examine_barred hb fun hm => hnd.1 (Sched.scan_subset hm)] at href
              exact ⟨hfst, href⟩

/-! ## Levels -/

/-- The list of a level `scanLevels` has not reached yet. -/
theorem list_examine_of_apart (h : Refines s a) {l l' : ReadyList} (hne : l' ≠ l) :
    (a.examine (a.list l) none).list l' = a.list l' := by
  refine List.filter_eq_self.mpr fun p hp => ?_
  have : p ∉ a.list l := fun hl => hne (h.apart l' l p hp hl)
  simp [this]

theorem proc_examine_of_notMem {vs : List Pid} {n : Option Pid} {p : Pid} (hp : p ∉ vs) :
    (a.examine vs n).proc p = a.proc p := if_neg hp

/-- What is left in the lists after an examination that chose nobody. -/
theorem allReady_examine (hr : a.AllReady) (vs : List Pid) : (a.examine vs none).AllReady := by
  intro l p hp
  obtain ⟨hl, hb⟩ := List.mem_filter.mp hp
  by_cases hv : p ∈ vs
  · have hnb : (a.proc p).barred = false := by simpa [hv] using hb
    change (if p ∈ vs then (a.proc p).handled else a.proc p).state = _
    rw [if_pos hv, Proc.state_handled_of_not_barred hnb]
    exact hr l p hl
  · rw [proc_examine_of_notMem hv]
    exact hr l p hl

theorem scanLevels (h : Refines s a) (hr : a.AllReady) (alg : Algorithm)
    (hlen : ∀ l, (a.list l).length ≤ maxProcesses) (qs : List Int) (hqs : qs.Nodup) :
    let r := Sched.scan (fun p => (a.proc p).barred) (qs.flatMap fun q => a.list (.mlQueues q))
    Refines (Demoos.scanLevels alg qs s).2 (a.examine r.1 r.2) ∧
      match r.2 with
      | none => (Demoos.scanLevels alg qs s).1 = none
      | some p => ∃ q ∈ qs, p ∈ a.list (.mlQueues q) ∧
          (Demoos.scanLevels alg qs s).1 = some (p, q) := by
  induction qs generalizing s a with
  | nil => exact ⟨Sched.examine_nil ▸ h, rfl⟩
  | cons q qs ih =>
      obtain ⟨hq, hqs⟩ := List.nodup_cons.mp hqs
      obtain ⟨hfst, href⟩ := h.dequeueReady hr alg (.mlQueues q) maxProcesses (hlen _)
      rw [Demoos.scanLevels, List.flatMap_cons]
      generalize Demoos.dequeueReady alg (.mlQueues q) maxProcesses s = d at hfst href ⊢
      obtain ⟨o, s'⟩ := d
      dsimp only at hfst href ⊢
      cases hs : (Sched.scan (fun p => (a.proc p).barred) (a.list (.mlQueues q))).2 with
      | some p =>
          rw [Sched.scan_append_some hs]
          rw [hs] at hfst href ⊢
          subst hfst
          exact ⟨href, q, List.mem_cons_self, Sched.scan_subset (Sched.scan_next hs).1, rfl⟩
      | none =>
          rw [Sched.scan_append_none hs]
          rw [hs, Sched.scan_none hs] at href
          rw [hs] at hfst
          subst hfst
          have hlist : ∀ q' ∈ qs, (a.examine (a.list (.mlQueues q)) none).list (.mlQueues q') =
              a.list (.mlQueues q') := fun q' hq' =>
            h.list_examine_of_apart fun e => hq (ReadyList.mlQueues.inj e ▸ hq')
          have hflat : (qs.flatMap fun q' =>
              (a.examine (a.list (.mlQueues q)) none).list (.mlQueues q')) =
              qs.flatMap fun q' => a.list (.mlQueues q') := List.flatMap_congr hlist
          have hnot : ∀ p ∈ qs.flatMap fun q' => a.list (.mlQueues q'),
              p ∉ a.list (.mlQueues q) := by
            intro p hp hpq
            obtain ⟨q', hq', hp'⟩ := List.mem_flatMap.mp hp
            exact hq (ReadyList.mlQueues.inj (h.apart _ _ p hp' hpq) ▸ hq')
          have hscan : Sched.scan (fun p =>
              ((a.examine (a.list (.mlQueues q)) none).proc p).barred)
              (qs.flatMap fun q' => a.list (.mlQueues q')) =
              Sched.scan (fun p => (a.proc p).barred)
              (qs.flatMap fun q' => a.list (.mlQueues q')) :=
            Sched.scan_congr fun p hp => by rw [proc_examine_of_notMem (hnot p hp)]
          have hrec := ih href (allReady_examine hr _)
            (fun l => (List.length_filter_le _ _).trans (hlen l)) hqs
          dsimp only at hrec
          rw [hflat, hscan] at hrec
          rw [Sched.examine_examine fun p hp hm => hnot p (Sched.scan_subset hm) hp] at hrec
          refine ⟨hrec.1, ?_⟩
          have hlevel := hrec.2
          dsimp only
          generalize (Sched.scan (fun p => (a.proc p).barred) _).2 = o at hlevel ⊢
          cases o with
          | none => exact hlevel
          | some p =>
              obtain ⟨q', hq', hp, he⟩ := hlevel
              rw [hlist q' hq'] at hp
              exact ⟨q', List.mem_cons_of_mem q hq', hp, he⟩

/-! ## Tickets -/

theorem totalTickets_seg {fuel : Nat} {o : Option Pid} {ps : List Pid}
    (hseg : Seg s.links o ps none) (hf : ps.length ≤ fuel) :
    totalTickets s fuel o = (ps.map fun p => (s.pcb p).shares).sum := by
  induction ps generalizing o fuel with
  | nil =>
      obtain rfl : o = none := hseg
      cases fuel <;> rfl
  | cons p ps ih =>
      cases fuel with
      | zero => simp at hf
      | succ n =>
          obtain ⟨rfl, hrest⟩ := hseg
          rw [List.map_cons, List.sum_cons, totalTickets_some, ← ih hrest (Nat.le_of_succ_le_succ hf)]
          rfl

/-- The walk stops at the holder of the ticket, with its predecessor. -/
theorem findWinner_seg {fuel : Nat} {o : Option Pid} {ps : List Pid}
    {w k : Int} {p : Pid} (previous : Option Pid) (hseg : Seg s.links o ps none)
    (hf : ps.length ≤ fuel)
    (hp : Sched.ticketHolder (fun p => (s.pcb p).shares) (w - k) ps = some p) :
    ∃ xs ys, ps = xs ++ p :: ys ∧
      findWinner s w fuel k previous o = (xs.getLast?.or previous, some p) := by
  induction ps generalizing o previous fuel k with
  | nil => exact absurd hp (by simp [Sched.ticketHolder])
  | cons q ps ih =>
      cases fuel with
      | zero => simp at hf
      | succ n =>
          obtain ⟨rfl, hrest⟩ := hseg
          rw [Sched.ticketHolder] at hp
          rw [findWinner_some]
          split at hp
          next hw =>
            obtain rfl : q = p := Option.some.inj hp
            have hw' : w < k + (s.pcb q).shares := by omega
            exact ⟨[], ps, rfl, if_pos hw'⟩
          next hw =>
            have hw' : ¬ w < k + (s.pcb q).shares := by omega
            have hk : w - k - (s.pcb q).shares = w - (k + (s.pcb q).shares) := by omega
            rw [hk] at hp
            obtain ⟨xs, ys, rfl, hwin⟩ := ih (some q) hrest (Nat.le_of_succ_le_succ hf) hp
            refine ⟨q :: xs, ys, rfl, (if_neg hw').trans (hwin.trans ?_)⟩
            rw [List.getLast?_cons]
            cases xs.getLast? <;> rfl

/-- The processes have the shares that the abstract scheduler sees. -/
theorem shares_eq (h : Refines s a) :
    (fun p => (s.pcb p).shares) = fun p : Pid => (a.proc p).shares :=
  funext fun p : Nat => congrArg Proc.shares (h.proc p)

theorem totalTickets_eq (h : Refines s a) {fuel : Nat} {o : Option Pid} {ps : List Pid}
    (hseg : Seg s.links o ps none) (hf : ps.length ≤ fuel) :
    totalTickets s fuel o = (ps.map fun p => (a.proc p).shares).sum := by
  rw [totalTickets_seg hseg hf, h.shares_eq]

theorem findWinner_eq (h : Refines s a) {fuel : Nat} {o : Option Pid} {ps : List Pid}
    {w k : Int} {p : Pid} (previous : Option Pid) (hseg : Seg s.links o ps none)
    (hf : ps.length ≤ fuel)
    (hp : Sched.ticketHolder (fun p => (a.proc p).shares) (w - k) ps = some p) :
    ∃ xs ys, ps = xs ++ p :: ys ∧
      findWinner s w fuel k previous o = (xs.getLast?.or previous, some p) := by
  rw [← h.shares_eq] at hp
  exact findWinner_seg previous hseg hf hp

theorem ticketHolder_congr {shares shares' : Pid → Int} {ps : List Pid} {w : Int}
    (hs : ∀ p ∈ ps, shares p = shares' p) :
    Sched.ticketHolder shares w ps = Sched.ticketHolder shares' w ps := by
  induction ps generalizing w with
  | nil => rfl
  | cons q ps ih =>
      rw [Sched.ticketHolder, Sched.ticketHolder, hs q List.mem_cons_self,
        ih fun p hp => hs p (List.mem_cons_of_mem q hp)]

/-- A draw depends on the processes in the list only. -/
theorem draw_congr {shares shares' : Pid → Int} {barred barred' : Pid → Bool}
    {idle idle' : Sched.Choice} {fuel : Nat} {ps : List Pid} {r : BitVec 64} {t : Nat → BitVec 32}
    (hs : ∀ p ∈ ps, shares p = shares' p) (hb : ∀ p ∈ ps, barred p = barred' p)
    (hv : idle.visited = idle'.visited) (hn : idle.next = idle'.next)
    (hc : idle.counter = idle'.counter) :
    Sched.draw shares barred idle fuel ps r t = Sched.draw shares' barred' idle' fuel ps r t := by
  induction fuel generalizing ps r t with
  | zero => simp [Sched.draw, hv, hn, hc]
  | succ n ih =>
      have hmap : ps.map shares = ps.map shares' := List.map_congr_left hs
      have htick := fun w => ticketHolder_congr (w := w) hs
      rw [Sched.draw, Sched.draw]
      dsimp only
      rw [hmap, htick]
      split
      next => simp [hv, hn, hc]
      next =>
        cases hq : Sched.ticketHolder shares' _ ps with
        | none => simp [hv, hn, hc]
        | some q =>
            dsimp only
            rw [hb q (Sched.ticketHolder_mem hq),
              ih (fun p hp => hs p (List.mem_of_mem_filter hp))
                fun p hp => hb p (List.mem_of_mem_filter hp)]
            simp [hc]

theorem lotteryRandom (h : Refines s a) :
    (lotteryRandom s).1 = xorshift a.lotteryRngState (a.systemTimer 0) ∧
      Refines (Demoos.lotteryRandom s).2 (a.setRandom
        (xorshift a.lotteryRngState (a.systemTimer 0)) fun i => a.systemTimer (i + 1)) := by
  have hr : s.lotteryRngState = a.lotteryRngState := congrArg Globals.lotteryRngState h.globals
  have ht : s.systemTimer = a.systemTimer := congrArg Globals.systemTimer h.globals
  refine ⟨by rw [Demoos.lotteryRandom, hr, ht], ?_⟩
  exact h.mapGlobals fun g => { g with
    lotteryRngState := xorshift g.lotteryRngState (g.systemTimer 0)
    systemTimer := fun i => g.systemTimer (i + 1) }

/-- The draws after a barred winner `q`. -/
theorem lotteryDraw_without (a : Sched) (q : Pid) (n : Nat) (x : BitVec 64)
    (t : Nat → BitVec 32) :
    (((a.setRandom x t).without q).modify q Proc.handled).lotteryDraw n =
      Sched.draw (fun p => (a.proc p).shares) (fun p => (a.proc p).barred) a.noChoice n
        ((a.list .readyQueue).filter (· ≠ q)) x t := by
  have hother : ∀ p ∈ (a.list .readyQueue).filter (· ≠ q),
      (((a.setRandom x t).without q).modify q Proc.handled).proc p = a.proc p := by
    intro p hp
    rw [Sched.proc_modify, if_neg (by simpa using List.of_mem_filter hp)]
    rfl
  refine draw_congr (fun p hp => by rw [hother p hp]) (fun p hp => by rw [hother p hp])
    rfl rfl ?_
  funext p
  exact Sched.field_modify _ _ _ Proc.handled Proc.counter Proc.counter_handled

/-- The lottery draws as the abstract one does. -/
theorem drawTicket (h : Refines s a) (hr : a.AllReady) (alg : Algorithm) (fuel : Nat)
    (hlen : (a.list .readyQueue).length ≤ maxProcesses) :
    let c := a.lotteryDraw fuel
    (Demoos.drawTicket alg fuel s).1 = c.next ∧
      Refines (Demoos.drawTicket alg fuel s).2
        ((a.examine c.visited c.next).setRandom c.lotteryRngState c.systemTimer) := by
  induction fuel generalizing s a with
  | zero => exact ⟨rfl, Sched.examine_nil.symm ▸ h⟩
  | succ n ih =>
      have hseg : Seg s.links (s.queue .readyQueue).head (a.list .readyQueue) none :=
        (h.holds .readyQueue).seg
      rw [Demoos.drawTicket, h.totalTickets_eq hseg hlen, Sched.lotteryDraw, Sched.draw]
      dsimp only
      split
      next => exact ⟨rfl, Sched.examine_nil.symm ▸ h⟩
      next hz =>
        have hps : a.list .readyQueue ≠ [] := fun e => hz (by rw [e]; rfl)
        have hsum := Sched.sum_shares_pos (fun p => Sched.shares_pos (a.proc p)) hps
        obtain ⟨hx, h₁⟩ := h.lotteryRandom
        rw [hx]
        generalize xorshift a.lotteryRngState (a.systemTimer 0) = x at h₁ ⊢
        generalize (fun i => a.systemTimer (i + 1)) = t at h₁ ⊢
        generalize (Demoos.lotteryRandom s).2 = s₁ at h₁ ⊢
        obtain ⟨q, hq⟩ := Option.ne_none_iff_exists'.mp (Sched.winner_ne_none x.toNat hsum)
        have hmem := Sched.ticketHolder_mem hq
        have hq₀ := hq
        rw [← Int.sub_zero ((x.toNat % _ : Nat) : Int)] at hq₀
        obtain ⟨xs, ys, hl, hwin⟩ := h₁.findWinner_eq none (h₁.holds .readyQueue).seg hlen hq₀
        rw [Option.or_none] at hwin
        obtain ⟨h₃, htest⟩ := (h₁.remove hl).handled alg (hr .readyQueue q hmem)
        change _ ↔ (a.proc q).barred = false at htest
        simp only [hq, hwin]
        cases hb : (a.proc q).barred with
        | false =>
            rw [if_pos (htest.mpr hb), if_neg Bool.false_ne_true]
            rw [Sched.examine_chosen (a := a.setRandom x t) hb] at h₃
            exact ⟨rfl, h₃⟩
        | true =>
            rw [if_neg fun hs => absurd (htest.mp hs) (by simp [hb]), if_pos rfl]
            have hready : (((a.setRandom x t).without q).modify q Proc.handled).AllReady :=
              Sched.AllReady.without (a := a.setRandom x t) hr q
            have hrec := ih h₃ hready ((List.length_filter_le _ _).trans hlen)
            rw [lotteryDraw_without] at hrec
            have hqv : q ∉ (Sched.draw (fun p => (a.proc p).shares) (fun p => (a.proc p).barred)
                a.noChoice n ((a.list .readyQueue).filter (· ≠ q)) x t).visited := by
              intro hm
              have := Sched.draw_subset (fun p => Sched.shares_pos (a.proc p)) rfl hm
              exact absurd (List.of_mem_filter this) (by simp)
            generalize Sched.draw _ _ _ n _ x t = c at hrec hqv ⊢
            dsimp only at hrec ⊢
            refine ⟨hrec.1, ?_⟩
            have he := Sched.examine_barred (a := a.setRandom x t) (n := c.next) hb hqv
            have href := hrec.2
            rw [he] at href
            exact href

/-! ## Aging -/

/-- The best candidate of a walk over the processes `xs` that are still queued:
it is in its place, and its predecessor is known. -/
def BestIn (xs : List Pid) (b : Best) : Prop :=
  ∀ p, b.best = some p → ∃ us vs, xs = us ++ p :: vs ∧ b.bestPrevious = us.getLast?

theorem BestIn.append {xs : List Pid} {b : Best} (h : BestIn xs b) (p : Pid) :
    BestIn (xs ++ [p]) b := by
  intro q hq
  obtain ⟨us, vs, rfl, hprev⟩ := h q hq
  exact ⟨us, vs ++ [p], by simp, hprev⟩

/-- One walk examines the whole queue.  `xs` is the part of the queue the walk
has gone through, `ps` the rest. -/
theorem agingWalk (h : Refines s a) (hr : a.AllReady) (alg : Algorithm) (fuel : Nat)
    (xs ps : List Pid) (b : Best) (hl : a.list .readyQueue = xs ++ ps) (hf : ps.length ≤ fuel)
    (hb : BestIn xs b) (barred : Pid → Bool) (counter : Pid → Int)
    (hbarred : ∀ p ∈ ps, (a.proc p).barred = barred p)
    (hcounter : ∀ p ∈ ps, (a.proc p).counter = counter p) :
    let left := ps.filter fun p => !barred p
    let r := Demoos.agingWalk alg fuel s xs.getLast? ps.head? b
    Refines r.2 (a.examine ps none) ∧
      (r.1.best, r.1.maxCounter) = left.foldl
        (fun b p => if b.2 < counter p then (some p, counter p) else b) (b.best, b.maxCounter) ∧
      BestIn (xs ++ left) r.1 := by
  induction fuel generalizing s a xs ps b with
  | zero =>
      obtain rfl : ps = [] := List.length_eq_zero_iff.mp (Nat.le_zero.mp hf)
      rw [Sched.examine_nil]
      exact ⟨h, rfl, by simpa [Demoos.agingWalk] using hb⟩
  | succ n ih =>
      cases ps with
      | nil =>
          rw [Sched.examine_nil]
          exact ⟨h, rfl, by simpa [Demoos.agingWalk] using hb⟩
      | cons p ps =>
          have hnd := (h.holds .readyQueue).nodup
          have hnext : (s.pcb p).nextReady = ps.head? := (hl ▸ h.holds .readyQueue).next_eq
          have hready := hr .readyQueue p (by simp [hl])
          obtain ⟨h₁, htest⟩ := h.handled alg hready
          have hp : p ∉ ps := by
            rw [hl, List.nodup_append] at hnd
            exact (List.nodup_cons.mp hnd.2.1).1
          have hother : ∀ q ∈ ps, (a.modify p Proc.handled).proc q = a.proc q := fun q hq => by
            rw [Sched.proc_modify, if_neg (ne_of_mem_of_not_mem hq hp)]
          have hbarred' : ∀ q ∈ ps, ((a.modify p Proc.handled).proc q).barred = barred q :=
            fun q hq => by rw [hother q hq, hbarred q (List.mem_cons_of_mem p hq)]
          have hcounter' : ∀ q ∈ ps, ((a.modify p Proc.handled).proc q).counter = counter q :=
            fun q hq => by rw [hother q hq, hcounter q (List.mem_cons_of_mem p hq)]
          have hf' : ps.length ≤ n := Nat.le_of_succ_le_succ hf
          rw [List.head?_cons, Demoos.agingWalk, hnext, List.filter_cons,
            ← hbarred p List.mem_cons_self]
          dsimp only
          cases hbp : (a.proc p).barred with
          | true =>
              rw [if_pos fun hs => absurd (htest.mp hs) (by simp [hbp])]
              have hrec := ih (h₁.remove hl) (hr.without p) xs ps b (Sched.list_without hl hnd)
                hf' hb hbarred' hcounter'
              have he : ((a.modify p Proc.handled).without p).examine ps none =
                  a.examine (p :: ps) none := Sched.examine_barred hbp hp
              rw [he] at hrec
              simpa using hrec
          | false =>
              rw [if_neg fun hs => hs (htest.mpr hbp)]
              have hc : ((Demoos.handleProcessSignals alg s p).pcb p).counter = counter p := by
                refine (congrArg Proc.counter (h₁.proc p)).trans ?_
                rw [Sched.field_modify _ _ _ Proc.handled Proc.counter Proc.counter_handled,
                  hcounter p List.mem_cons_self]
              have hready' := hr.spared hbp
              have hl' : (a.modify p Proc.handled).list .readyQueue = (xs ++ [p]) ++ ps := by
                simpa using hl
              have hlast : (xs ++ [p]).getLast? = some p := by simp
              have he := Sched.examine_spared (n := none) hbp hp
              rw [hc]
              split
              next hlt =>
                have hbest : BestIn (xs ++ [p]) ⟨some p, xs.getLast?, counter p⟩ := by
                  intro q hq
                  obtain rfl : p = q := Option.some.inj hq
                  exact ⟨xs, [], rfl, rfl⟩
                have hrec := ih h₁ hready' (xs ++ [p]) ps _ hl' hf' hbest hbarred' hcounter'
                rw [he, hlast] at hrec
                simpa [hlt] using hrec
              next hlt =>
                have hrec := ih h₁ hready' (xs ++ [p]) ps b hl' hf' (hb.append p) hbarred'
                  hcounter'
                rw [he, hlast] at hrec
                simpa [hlt] using hrec

theorem rechargeAll (h : Refines s a)
    (htable : ∀ i, a.processes i = if i < a.nProcesses then some i else none)
    (hbound : a.nProcesses ≤ maxProcesses) :
    Refines (rechargeAll s) (a.setCounters (a.recharge fun p => (a.proc p).counter)) := by
  have hslots : ∀ n, Refines ((List.range n).foldl (fun s i =>
      match s.processes i with
        | none => s
        | some p => s.modify p Proc.recharge) s)
      { a with proc := fun p => if p < n ∧ p < a.nProcesses then (a.proc p).recharge
          else a.proc p } := by
    intro n
    induction n with
    | zero => simpa using h
    | succ n ih =>
        rw [List.range_succ, List.foldl_append]
        generalize (List.range n).foldl _ s = s' at ih ⊢
        rw [List.foldl_cons, List.foldl_nil, ih.processes]
        dsimp only
        rw [htable]
        by_cases hn : n < a.nProcesses
        · rw [if_pos hn]
          have hslot := ih.modify n Proc.recharge
          refine Eq.mp (congrArg _ ?_) hslot
          refine Sched.ext rfl rfl rfl rfl rfl rfl rfl ?_ rfl
          funext (p : Nat)
          rw [Sched.proc_modify]
          by_cases hp : p = n
          · subst hp; simp [hn]
          · have hlt : p < n + 1 ↔ p < n := by omega
            rw [if_neg hp]
            simp only [hlt]
        · rw [if_neg hn]
          have hlt : ∀ p : Nat, (p < n + 1 ∧ p < a.nProcesses) ↔ p < n ∧ p < a.nProcesses := by
            omega
          simp only [hlt]
          exact ih
  refine Eq.mp (congrArg _ ?_) (hslots maxProcesses)
  refine Sched.ext rfl rfl rfl rfl rfl rfl rfl ?_ rfl
  funext p
  have hlt : (p < maxProcesses ∧ p < a.nProcesses) ↔ p < a.nProcesses := by
    constructor
    · exact And.right
    · exact fun hp => ⟨Nat.lt_of_lt_of_le hp hbound, hp⟩
  dsimp only [Sched.setCounters, Sched.recharge]
  simp only [hlt]
  split <;> rfl

/-- The processes a walk leaves in the queue. -/
def spared (a : Sched) : List Pid :=
  (a.list .readyQueue).filter fun p => !(a.proc p).barred

theorem list_examine_readyQueue (a : Sched) :
    (a.examine (a.list .readyQueue) none).list .readyQueue = spared a := by
  refine List.filter_congr fun p hp => ?_
  simp [hp]

theorem examine_without (a : Sched) (vs : List Pid) (p : Pid) :
    (a.examine vs none).without p = a.examine vs (some p) := by
  refine Sched.ext rfl rfl rfl rfl rfl rfl rfl rfl ?_
  funext l
  simp only [Sched.without, Sched.examine, List.filter_filter]
  refine List.filter_congr fun q _ => ?_
  have hn : (none != some q) = true := rfl
  by_cases hq : q = p
  · subst hq; simp
  · have hp : (some p != some q) = true := by simpa using fun e => hq e.symm
    simp [hq, hn, hp]

theorem counter_examine (a : Sched) (vs : List Pid) (n : Option Pid) (p : Pid) :
    ((a.examine vs n).proc p).counter = (a.proc p).counter := by
  dsimp only [Sched.examine]
  split
  next => exact Proc.counter_handled _
  next => rfl

theorem spared_examine (a : Sched) : spared (a.examine (a.list .readyQueue) none) = spared a := by
  unfold spared
  rw [list_examine_readyQueue]
  refine List.filter_eq_self.mpr fun p hp => ?_
  obtain ⟨hl, hb⟩ := List.mem_filter.mp hp
  have hb' : (a.proc p).barred = false := by simpa using hb
  have he : (a.examine (a.list .readyQueue) none).proc p = (a.proc p).handled := if_pos hl
  rw [he, Proc.barred_handled hb']
  rfl

/-- A second walk finds nothing to handle. -/
theorem examine_again (a : Sched) (k c : Pid → Int) (n : Option Pid) :
    ((((a.examine (a.list .readyQueue) none).setCounters k).examine (spared a) n).setCounters c) =
      (a.examine (a.list .readyQueue) n).setCounters c := by
  have hmem : ∀ p, p ∈ spared a ↔ p ∈ a.list .readyQueue ∧ (a.proc p).barred = false := by
    intro p
    simp [spared]
  refine Sched.ext rfl rfl rfl rfl rfl rfl rfl ?_ ?_
  · funext p
    dsimp only [Sched.setCounters, Sched.examine]
    by_cases hp : p ∈ spared a
    · obtain ⟨hl, hb⟩ := (hmem p).mp hp
      rw [if_pos hp, if_pos hl]
      have hclean : { (a.proc p).handled with counter := k p }.handled =
          { (a.proc p).handled with counter := k p } :=
        Proc.handled_of_clean fun j hj => Proc.pending_handled_of_not_barred hb hj
      rw [hclean]
    · rw [if_neg hp]
  · funext l
    dsimp only [Sched.setCounters, Sched.examine]
    rw [List.filter_filter]
    refine List.filter_congr fun p _ => ?_
    have hn : (none != some p) = true := rfl
    by_cases hp : p ∈ spared a
    · obtain ⟨hl, hb⟩ := (hmem p).mp hp
      have hb' : ({ (a.proc p).handled with counter := k p } : Proc).barred = false :=
        Proc.barred_handled hb
      simp [hp, hl, hb, hb', hn]
    · simp [hp, hn, Bool.and_comm]

theorem recharge_examine (a : Sched) (k : Pid → Int) :
    ((a.examine (a.list .readyQueue) none).setCounters k).recharge = a.recharge := by
  funext c p
  dsimp only [Sched.recharge]
  have : (((a.examine (a.list .readyQueue) none).setCounters k).proc p).priority =
      (a.proc p).priority := by
    dsimp only [Sched.setCounters, Sched.examine]
    split
    next => exact Proc.priority_handled _
    next => rfl
  rw [this]
  rfl

theorem setCounters_self (a : Sched) {counter : Pid → Int}
    (h : ∀ p, (a.proc p).counter = counter p) : a.setCounters counter = a := by
  refine Sched.ext rfl rfl rfl rfl rfl rfl rfl ?_ rfl
  funext p
  dsimp only [Sched.setCounters]
  rw [← h p]

theorem agingSelect (h : Refines s a) (hr : a.AllReady)
    (htable : ∀ i, a.processes i = if i < a.nProcesses then some i else none)
    (hbound : a.nProcesses ≤ maxProcesses)
    (hlen : (a.list .readyQueue).length ≤ maxProcesses) (alg : Algorithm) (fuel : Nat) :
    Option.Rel (fun r c => r.1 = c.1 ∧
        Refines r.2 ((a.examine (a.list .readyQueue) c.1).setCounters c.2))
      (Demoos.agingSelect alg fuel s)
      (Sched.chooseRichest a.recharge (spared a) fuel fun p => (a.proc p).counter) := by
  induction fuel generalizing s a with
  | zero => exact .none
  | succ n ih =>
      obtain ⟨h', hbest, hin⟩ := h.agingWalk hr alg maxProcesses [] (a.list .readyQueue)
        ⟨none, none, 0⟩ rfl hlen (fun p hp => nomatch hp) (fun p => (a.proc p).barred)
        (fun p => (a.proc p).counter) (fun p _ => rfl) (fun p _ => rfl)
      rw [← (h.holds .readyQueue).head_eq, List.getLast?_nil] at h' hbest hin
      rw [Demoos.agingSelect, Sched.chooseRichest]
      generalize Demoos.agingWalk alg maxProcesses s none _ _ = r at h' hbest hin ⊢
      obtain ⟨⟨best, previous, m⟩, s'⟩ := r
      have hrich : (Sched.richest (fun p => (a.proc p).counter) (spared a)).1 = best :=
        (congrArg Prod.fst hbest).symm
      rw [hrich]
      dsimp only at h' hin
      cases best with
      | some p =>
          obtain ⟨us, vs, hl, hprev⟩ := hin p rfl
          have hrem := h'.remove ((list_examine_readyQueue a).trans hl)
          rw [examine_without] at hrem
          refine .some ⟨rfl, ?_⟩
          rw [setCounters_self _ (counter_examine a _ _)]
          rw [show previous = us.getLast? from hprev]
          exact hrem
      | none =>
          have hhead : (s'.queue .readyQueue).head = none ↔ spared a = [] := by
            rw [(h'.holds .readyQueue).head_eq_none, list_examine_readyQueue]
          dsimp only
          by_cases hnil : spared a = []
          · rw [if_pos (hhead.mpr hnil), if_pos hnil]
            refine .some ⟨rfl, ?_⟩
            rw [setCounters_self _ (counter_examine a _ _)]
            exact h'
          · rw [if_neg (hnil ∘ hhead.mp), if_neg hnil]
            have hnext := h'.rechargeAll htable hbound
            have hcount : (a.examine (a.list .readyQueue) none).recharge
                (fun p => ((a.examine (a.list .readyQueue) none).proc p).counter) =
                a.recharge fun p => (a.proc p).counter := by
              simp only [counter_examine]
              exact congrFun (recharge_examine a fun p => (a.proc p).counter) _
            rw [hcount] at hnext
            generalize (a.recharge fun p => (a.proc p).counter) = k at hnext ⊢
            have hready := allReady_examine hr (a.list .readyQueue)
            have hrec := ih hnext hready htable hbound ((List.length_filter_le _ _).trans hlen)
            have hl : ((a.examine (a.list .readyQueue) none).setCounters k).list .readyQueue =
                spared a := list_examine_readyQueue a
            have hs : spared ((a.examine (a.list .readyQueue) none).setCounters k) = spared a :=
              spared_examine a
            rw [recharge_examine, hs, hl] at hrec
            simp only [examine_again] at hrec
            exact hrec

/-! ## The decision -/

theorem contest (h : Refines s a) (alg : Algorithm) (hl : a.Lists) :
    Refines (Demoos.requeueCurrent alg.enqueue (Demoos.preemptDisable s)) (a.contest alg) := by
  refine h.preemptDisable.requeueCurrent alg (fun hr => hl.unlinked ?_) hl.length_le
  have hstate : a.preemptDisable.current.state = a.current.state :=
    a.state_preemptDisable _
  exact fun he => absurd ((hstate.symm.trans hr).symm.trans he) (by decide)

/-- A pick function has come to its switch, with the choice `c` made. -/
structure Selects (r : Pid × KState) (a : Sched) (c : Sched.Choice) : Prop where
  next : r.1 = c.next.getD initProcess
  refines : Refines r.2 (a.commit c)

theorem selects {c : Sched.Choice} (h : Refines s (a.commit c)) :
    Selects (c.next.getD initProcess, s) a c := ⟨rfl, h⟩

theorem Selects.dispatch {r : Pid × KState} {c : Sched.Choice} (h : Selects r a c) :
    Refines (handOver r) (a.dispatch c) := by
  obtain ⟨p, u⟩ := r
  obtain ⟨rfl, hu⟩ := h
  exact (hu.switchToProcess _).preemptEnable

/-- A choice that touches no counter. -/
theorem commit_same {c : Sched.Choice} (hc : ∀ p, c.counter p = (a.proc p).counter)
    (hr : c.lotteryRngState = a.lotteryRngState) (ht : c.systemTimer = a.systemTimer) :
    a.commit c = a.examine c.visited c.next := by
  rw [Sched.commit, setCounters_self _ fun p => (counter_examine a _ _ p).trans (hc p).symm, hr, ht]
  rfl

/-- A choice that gives `p` the time slice `k`. -/
theorem commit_slice {c : Sched.Choice} {p : Pid} {k : Int} (hp : c.counter p = k)
    (hc : ∀ q, q ≠ p → c.counter q = (a.proc q).counter) :
    a.commit c = ((a.examine c.visited c.next).setRandom c.lotteryRngState
      c.systemTimer).setCounter p k := by
  refine Sched.ext rfl rfl rfl rfl rfl rfl rfl ?_ rfl
  funext q
  rw [Sched.setCounter, Sched.proc_modify]
  dsimp only [Sched.commit, Sched.setCounters, Sched.setRandom]
  split
  next e => rw [e, hp]
  next e => rw [hc q e, ← counter_examine a c.visited c.next q]

section Front

variable {ps : List Pid} (quantum : Pid → Option Int) {p : Pid}

/-- The selection of a pick function that found nobody at the front. -/
theorem selects_idle (ho : none = (Sched.scan (fun p => (a.proc p).barred) ps).2)
    (h : Refines s (a.examine (Sched.scan (fun p => (a.proc p).barred) ps).1 none)) :
    Selects (initProcess, s) a (a.frontChoice ps quantum) := by
  have hnext : (a.frontChoice ps quantum).next = none := ho.symm
  have hcommit : Refines s (a.commit (a.frontChoice ps quantum)) := by
    rw [commit_same (fun p => if_neg (by rw [← ho]; simp)) rfl rfl, hnext]
    exact h
  have hd := hcommit.selects
  rwa [hnext] at hd

/-- The selection of a pick function that found `p` at the front. -/
theorem selects_chosen (ho : some p = (Sched.scan (fun p => (a.proc p).barred) ps).2)
    (h : Refines s (a.examine (Sched.scan (fun p => (a.proc p).barred) ps).1 (some p))) :
    Selects (p, match quantum p with
        | none => s
        | some k => Demoos.setCounter s p k) a (a.frontChoice ps quantum) := by
  have hnext : (a.frontChoice ps quantum).next = some p := ho.symm
  have hother : ∀ q, q ≠ p → (a.frontChoice ps quantum).counter q = (a.proc q).counter :=
    fun q hq => if_neg (by rw [← ho]; simpa using fun e => hq e.symm)
  have hp : (a.frontChoice ps quantum).counter p = (quantum p).getD (a.proc p).counter :=
    if_pos ho.symm
  have hcommit : Refines (match quantum p with
        | none => s
        | some k => Demoos.setCounter s p k) (a.commit (a.frontChoice ps quantum)) := by
    cases hk : quantum p with
    | none =>
        rw [hk] at hp
        have hall : ∀ q, (a.frontChoice ps quantum).counter q = (a.proc q).counter := by
          intro q
          by_cases hq : q = p
          · rw [hq]; exact hp
          · exact hother q hq
        rw [commit_same hall rfl rfl, hnext]
        exact h
    | some k =>
        rw [hk] at hp
        rw [commit_slice hp hother, hnext]
        exact h.setCounter p k
  have hd := hcommit.selects
  rwa [hnext] at hd

end Front

/-- The level a queued process is found at is the level it is queued at. -/
theorem levelQuantum_eq (h : Refines s a) {policy : MultilevelPolicy} {p : Pid} {q : Int}
    (hq : q ∈ policy.levels) (hp : p ∈ a.list (.mlQueues q)) :
    a.levelQuantum policy p = some (policy.quantum.getD q.toNat 0) := by
  unfold Sched.levelQuantum
  cases hf : policy.levels.find? fun q => p ∈ a.list (.mlQueues q) with
  | none =>
      have := List.find?_eq_none.mp hf q hq
      exact absurd (by simpa using hp) this
  | some q' =>
      have hp' : p ∈ a.list (.mlQueues q') := by simpa using List.find?_some hf
      rw [ReadyList.mlQueues.inj (h.apart _ _ p hp hp')]
      rfl

/-! The pick functions, from the contest `a` on. -/

theorem selectRoundRobin (alg : Algorithm)
    (h : Refines (Demoos.requeueCurrent enqueueFifo (Demoos.preemptDisable s)) a)
    (hr : a.AllReady) (hlen : ∀ l, (a.list l).length ≤ maxProcesses) :
    Selects (selectRoundRobin alg s) a
      (a.frontChoice (a.list .readyQueue) fun _ => some 10) := by
  obtain ⟨hfst, href⟩ := h.dequeueReady hr alg .readyQueue maxProcesses (hlen _)
  unfold Demoos.selectRoundRobin
  dsimp only
  generalize Demoos.dequeueReady alg _ _ _ = d at hfst href ⊢
  obtain ⟨o, s'⟩ := d
  rw [← hfst] at href
  cases o with
  | none => exact selects_idle _ hfst href
  | some p => exact selects_chosen (fun _ => some 10) hfst href

theorem selectQueueHead (alg : Algorithm)
    (h : Refines (Demoos.requeueCurrent alg.enqueue (Demoos.preemptDisable s)) a)
    (hr : a.AllReady) (hlen : ∀ l, (a.list l).length ≤ maxProcesses) :
    Selects (selectQueueHead alg s) a
      (a.frontChoice (a.list .readyQueue) fun _ => none) := by
  obtain ⟨hfst, href⟩ := h.dequeueReady hr alg .readyQueue maxProcesses (hlen _)
  unfold Demoos.selectQueueHead
  dsimp only
  generalize Demoos.dequeueReady alg _ _ _ = d at hfst href ⊢
  obtain ⟨o, s'⟩ := d
  rw [← hfst] at href
  cases o with
  | none => exact selects_idle _ hfst href
  | some p => exact selects_chosen (fun _ => none) hfst href

theorem selectMultilevel (alg : Algorithm) (policy : MultilevelPolicy)
    (h : Refines (Demoos.requeueCurrent enqueueMultilevel (Demoos.preemptDisable s)) a)
    (hr : a.AllReady) (hlen : ∀ l, (a.list l).length ≤ maxProcesses) :
    Selects (selectMultilevel alg policy s) a (a.multilevelChoice policy) := by
  have hlevels : policy.levels.Nodup := List.nodup_range.map fun _ _ he => Int.ofNat.inj he
  obtain ⟨href, hlevel⟩ := h.scanLevels hr alg hlen policy.levels hlevels
  unfold Demoos.selectMultilevel
  dsimp only
  generalize Demoos.scanLevels alg _ _ = d at href hlevel ⊢
  obtain ⟨o, s'⟩ := d
  dsimp only at href hlevel
  cases hfst : (Sched.scan (fun p => (a.proc p).barred)
      (policy.levels.flatMap fun q => a.list (.mlQueues q))).2 with
  | none =>
      rw [hfst] at href hlevel
      subst hlevel
      exact selects_idle _ hfst.symm href
  | some p =>
      rw [hfst] at href hlevel
      obtain ⟨q, hq, hp, rfl⟩ := hlevel
      have hd := selects_chosen (a.levelQuantum policy) hfst.symm href
      simp only [h.levelQuantum_eq hq hp] at hd
      exact hd

theorem selectLottery (alg : Algorithm)
    (h : Refines (Demoos.requeueCurrent enqueueFifo (Demoos.preemptDisable s)) a)
    (hr : a.AllReady) (hlen : ∀ l, (a.list l).length ≤ maxProcesses) :
    Selects (selectLottery alg s) a a.lotteryChoice := by
  obtain ⟨hfst, href⟩ := h.drawTicket hr alg maxProcesses (hlen _)
  unfold Demoos.selectLottery
  dsimp only
  generalize Demoos.drawTicket alg _ _ = d at hfst href ⊢
  obtain ⟨o, s'⟩ := d
  dsimp only at hfst href ⊢
  have hnext : a.lotteryChoice.next = o := hfst.symm
  have hcounter : ∀ q, a.lotteryChoice.counter q =
      if (a.lotteryDraw maxProcesses).next = some q then 10 else (a.proc q).counter := fun _ => rfl
  rw [← hfst] at hcounter href
  cases o with
  | none =>
      have hcommit : Refines s' (a.commit a.lotteryChoice) := by
        rw [Sched.commit, setCounters_self, hnext]
        · exact href
        · intro p
          rw [counter_examine, hcounter]
          rfl
      have hd := hcommit.selects
      rwa [hnext] at hd
  | some p =>
      have hcommit : Refines (Demoos.setCounter s' p 10) (a.commit a.lotteryChoice) := by
        rw [commit_slice (p := p) (k := 10), hnext]
        · exact href.setCounter p 10
        · rw [hcounter, if_pos rfl]
        · intro q hq
          rw [hcounter, if_neg (by simpa using fun e => hq e.symm)]
      have hd := hcommit.selects
      rwa [hnext] at hd

theorem epochs_eq (h : Refines s a) : epochs s = a.epochs := by
  unfold Demoos.epochs Sched.epochs
  simp only [h.proc]

theorem selectPriorityAging (alg : Algorithm) (hl : a.Lists)
    (h : Refines (Demoos.requeueCurrent enqueueFifo (Demoos.preemptDisable s)) a) :
    Option.Rel (Selects · a ·) (selectPriorityAging alg s) a.agingChoice := by
  have hsel := h.agingSelect hl.allReady hl.table hl.bound (hl.length_le _) alg a.epochs
  unfold Demoos.selectPriorityAging Sched.agingChoice
  dsimp only
  rw [h.epochs_eq]
  change Option.Rel _ _ (Option.map _ (Sched.chooseRichest a.recharge (spared a) _ _))
  generalize Demoos.agingSelect alg _ _ = o at hsel ⊢
  generalize Sched.chooseRichest a.recharge (spared a) _ _ = o' at hsel ⊢
  cases hsel with
  | none => exact .none
  | @some r c hrc =>
      obtain ⟨next, s'⟩ := r
      obtain ⟨hnext, href⟩ := hrc
      dsimp only at hnext href
      subst hnext
      refine .some (Refines.selects (c := { a.noChoice with
        visited := a.list .readyQueue, next := c.1, counter := c.2 }) ?_)
      exact href

theorem select (h : Refines s a) (alg : Algorithm) (hl : a.Lists)
    (hcur : a.currentProcess < a.nProcesses) :
    Option.Rel (Selects · (a.contest alg) ·) (alg.select s) ((a.contest alg).select alg) := by
  have hcon := h.contest alg hl
  have hlc := hl.contest hcur alg
  have hready := hlc.allReady
  have hlen := hlc.length_le
  cases alg with
  | roundRobin => exact .some (selectRoundRobin _ hcon hready hlen)
  | fcfs | sjf => exact .some (selectQueueHead _ hcon hready hlen)
  | lottery => exact .some (selectLottery _ hcon hready hlen)
  | priorityAging => exact selectPriorityAging _ hlc hcon
  | mlq | mlfq => exact .some (selectMultilevel _ _ hcon hready hlen)

/-- A decision ends in the dispatch of its choice. -/
theorem dispatches (h : Refines s a) (alg : Algorithm) (hl : a.Lists)
    (hcur : a.currentProcess < a.nProcesses) :
    Option.Rel (fun t c => Refines t ((a.contest alg).dispatch c)) (Demoos.pickNext alg s)
      ((a.contest alg).select alg) := by
  have hselect := h.select alg hl hcur
  rw [pickNext_eq]
  generalize alg.select s = r at hselect ⊢
  generalize (a.contest alg).select alg = c at hselect ⊢
  cases hselect with
  | none => exact .none
  | some hswitch => exact .some hswitch.dispatch

theorem pickNext (h : Refines s a) (alg : Algorithm) (hl : a.Lists)
    (hcur : a.currentProcess < a.nProcesses) :
    Option.Rel Refines (Demoos.pickNext alg s) (a.pickNext alg) := by
  have hpick := h.dispatches alg hl hcur
  rw [Sched.pickNext]
  generalize Demoos.pickNext alg s = t at hpick ⊢
  generalize (a.contest alg).select alg = c at hpick ⊢
  cases hpick with
  | none => exact .none
  | some href => exact .some href

end Refines

end Demoos
