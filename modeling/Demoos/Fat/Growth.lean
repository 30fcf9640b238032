import Demoos.Fat.Removal

/-!
# Taking a cluster

The scan of `stretch_chain` meets the clusters in a circle, from the one behind `last_used` on,
and finds the first that is free.  It has looked at every cluster but `last_used` itself when
it gives up, so the volume counts as full even if `last_used` is free.

It only gives up where the circle comes back to `last_used`.  A hint outside of the circle,
which mounting does not check for, makes a scan without a free cluster go on for ever.
-/

namespace Demoos.Fat

open Program
open Chains (Cell Chain Apart freeIn)
open Function (update update_self update_of_ne)

variable {g : Geometry} {v u t : Volume} {c d last : Nat}

/-! ## The circle -/

/-- The scan from `last` meets `d` before it meets `c`. -/
def Passed (g : Geometry) (last c d : Nat) : Prop :=
  if last < c then last < d ∧ d < c else (last < d ∧ d < g.clustCnt) ∨ (2 ≤ d ∧ d < c)

theorem advance_lt (hg : 2 < g.clustCnt) (c : Nat) : advance g c < g.clustCnt := by
  rw [advance]
  split <;> omega

/-- Nothing is met before the first cluster. -/
theorem not_passed_advance (hg : 2 < g.clustCnt) (hlt : g.clustCnt ≤ 2 ^ 32)
    (hlast : last < 2 ^ 32) : ¬ Passed g last (advance g last) d := by
  rw [Passed, advance]
  split <;> split <;> omega

/-- What is met before the next cluster was met before this one, or is this one. -/
theorem passed_advance (hg : 2 < g.clustCnt) (hc : c < g.clustCnt)
    (hlt : g.clustCnt ≤ 2 ^ 32) (h : Passed g last (advance g c) d) :
    Passed g last c d ∨ d = c := by
  rw [Passed, advance] at h
  rw [Passed]
  split at h <;> split at h <;> split <;> omega

/-- Before the circle closes every other cluster is met. -/
theorem passed_self (h2 : 2 ≤ d) (hd : d < g.clustCnt) (hne : d ≠ last) : Passed g last last d := by
  rw [Passed, if_neg (Nat.lt_irrefl last)]
  omega

/-- The rounds that a scan at `c` takes to come to `d`. -/
def ahead (g : Geometry) (d c : Nat) : Nat := if d ≤ c then g.clustCnt - c + d else d - c

theorem ahead_advance (h2 : 2 ≤ d) (hd : d < g.clustCnt) (hc : c + 1 < 2 ^ 32)
    (hne : advance g c ≠ d) : ahead g d (advance g c) < ahead g d c := by
  rw [advance] at hne ⊢
  rw [ahead, ahead]
  split at hne <;> split <;> split <;> split <;> omega

/-! ## The scan -/

/-- `get_fat` refuses the entry of some cluster. -/
def Broken (g : Geometry) (v : Volume) : Prop :=
  ∃ c < g.clustCnt, clustFlags g (v.entry g c) = none

/-- What holds before each round of the scan. -/
structure Scanning (g : Geometry) (v : Volume) (i : Nat × Nat) (s : Volume) : Prop where
  looked : Volume.Looked g v s
  passed : ∀ d, Passed g v.lastUsed (advance g i.1) d → v.cells g d ≠ .free
  start : i.1 = v.lastUsed ∨ i.1 < g.clustCnt ∧
    (2 ≤ i.1 ∨ v.lastUsed < i.1 ∨ g.clustCnt ≤ v.lastUsed)

/-- What the scan finds. -/
structure Found (g : Geometry) (v : Volume) (r : Option Nat) (s : Volume) : Prop where
  looked : Volume.Looked g v s
  first : ∀ c, r = some c → c < g.clustCnt ∧ v.cells g c = .free ∧ c ≠ v.lastUsed ∧
    ∀ d, Passed g v.lastUsed c d → v.cells g d ≠ .free
  early : r = none → ¬ v.Quiet ∨ Broken g v

/-- How the scan fails. -/
structure Unfound (g : Geometry) (v : Volume) (e : Stop FatError) (s : Volume) : Prop where
  looked : Volume.Looked g v s
  full : e = .error .full → 2 ≤ v.lastUsed ∧ v.lastUsed < g.clustCnt ∧
    ∀ d, 2 ≤ d → d < g.clustCnt → d ≠ v.lastUsed → v.cells g d ≠ .free
  other : e = .spent ∨ e = .error .full ∨
    (∃ b, e = .error (.flags b)) ∧ (¬ v.Quiet ∨ Broken g v)

theorem ClustFlags.byte_ne_zero (f : ClustFlags) : f.byte ≠ 0 := by cases f <;> decide

theorem scanStep_spec (hg : g.Regular) (hs : v.Sound) {i : Nat × Nat} {s : Volume}
    (h : Scanning g v i s) :
    Meets (scanStep g v.lastUsed i) s
      (fun r t => Sum.elim (fun j => Scanning g v j t ∧ j.1 = advance g i.1 ∧
        j.1 ≠ v.lastUsed ∧ v.cells g j.1 ≠ .free) (Found g v · t) r)
      fun e t => Unfound g v e t ∧ e ≠ .spent := by
  have hcnt := hg.clustCnt_pos
  have hle := hg.clustCnt_le
  have hlt := advance_lt hcnt i.1
  rw [scanStep]
  split
  next heq =>
    refine ⟨⟨h.looked, fun _ => ?_, .inr (.inl rfl)⟩, by simp⟩
    have h2 : 2 ≤ v.lastUsed := by
      have hstart := h.start
      rw [advance] at heq
      split at heq <;> omega
    refine ⟨h2, heq ▸ hlt, fun d hd2 hd hne => h.passed d ?_⟩
    rw [heq]
    exact passed_self hd2 hd hne
  next hne =>
    rw [meets_bind, meets_attempt]
    refine (getFat_cells hg (h.looked.sound hs) hlt).mono (fun r t hr => ?_) fun e t he => ?_
    · obtain ⟨hsame, hcell⟩ := hr
      have hsame := h.looked.trans hsame
      rw [cells_congr h.looked.view_eq] at hcell
      show Meets (pure _) _ _ _
      rw [meets_pure]
      split
      next hf =>
        refine ⟨hsame, fun c hc => ?_, fun hc => by cases hc⟩
        obtain rfl := Option.some.inj hc
        exact ⟨hlt, by rw [hcell, hf]; rfl, hne, h.passed⟩
      next hf =>
        have huse : v.cells g (advance g i.1) ≠ .free := by
          rw [hcell]
          cases hr : r.2 <;> first | exact absurd hr hf | simp [ClustFlags.cell]
        refine ⟨⟨hsame, fun d hd => ?_, ?_⟩, rfl, hne, huse⟩
        · rcases passed_advance hcnt hlt (by omega) hd with hd | rfl
          · exact h.passed d hd
          · exact huse
        · have hstart := h.start
          refine .inr ⟨hlt, ?_⟩
          rw [advance] at hne ⊢
          split at hne <;> split <;> omega
    · have hbad : Volume.Looked g v t ∧ (¬ v.Quiet ∨ clustFlags g (v.entry g (advance g i.1)) = none) ∧
          ∃ x, e = .error x := by
        rcases he with he | ⟨hb, hsame, hbroken⟩
        · exact ⟨h.looked.trans he.looked, .inl fun hq => he.unquiet (h.looked.quiet hq), _, he.io⟩
        · refine ⟨h.looked.trans hsame, .inr ?_, _, hb⟩
          rwa [Volume.entry, Volume.item, h.looked.view_eq] at hbroken
      obtain ⟨hsame, hcause, x, rfl⟩ := hbad
      have hcause : ¬ v.Quiet ∨ Broken g v := hcause.imp_right fun hb => ⟨_, hlt, hb⟩
      refine ⟨fun y _ => ?_, fun hspent => by cases hspent⟩
      show Meets (if i.2 = 0 then _ else _) _ _ _
      split
      next hz =>
        exact ⟨hsame, fun c hc => (by cases hc), fun _ => hcause⟩
      next hz =>
        exact ⟨⟨hsame, fun hfull => (by cases hfull), .inr (.inr ⟨⟨_, rfl⟩, hcause⟩)⟩,
          by simp⟩

theorem scanning_start (hg : g.Regular) (hlast : v.lastUsed < 2 ^ 32) (hvs : Volume.Looked g v u)
    (flags : Nat) : Scanning g v (v.lastUsed, flags) u := by
  have hle := hg.clustCnt_le
  exact ⟨hvs, fun d hd => absurd hd (not_passed_advance hg.clustCnt_pos (by omega) hlast), .inl rfl⟩

/-- The scan finds the first free cluster of the circle. -/
theorem scan_spec (hg : g.Regular) (hs : v.Sound) (hlast : v.lastUsed < 2 ^ 32) (hvs : Volume.Looked g v u)
    (flags n : Nat) :
    Meets (loop (scanStep g v.lastUsed) n (v.lastUsed, flags)) u (fun r t => Found g v r t)
      (Unfound g v) := by
  refine meets_loop (I := Scanning g v) (fun i s h => ?_) (fun i s h => ?_) n
    (scanning_start hg hlast hvs flags)
  · refine (scanStep_spec hg hs h).mono (fun r t hr => ?_) fun _ _ he => he.1
    cases r with
    | inl j => exact hr.1
    | inr r => exact hr
  · exact ⟨h.looked, fun hfull => (by cases hfull), .inl rfl⟩

/-- A scan goes round at most once if it comes back to the hint or to a free cluster. -/
theorem scan_ends (hg : g.Regular) (hs : v.Sound) (hlast : v.lastUsed + 1 < 2 ^ 32)
    (h2 : 2 ≤ d) (hd : d < g.clustCnt) (hend : d = v.lastUsed ∨ v.cells g d = .free)
    (hvs : Volume.Looked g v u) (flags : Nat) {n : Nat} (hn : 2 * g.clustCnt < n) :
    Meets (loop (scanStep g v.lastUsed) n (v.lastUsed, flags)) u (fun r t => Found g v r t)
      fun e t => Unfound g v e t ∧ e ≠ .spent := by
  have hle := hg.clustCnt_le
  refine meets_loop_of_lt (I := Scanning g v) (μ := fun i _ => ahead g d i.1)
    (fun i s h => ?_) (scanning_start hg (by omega) hvs flags) ?_
  · refine (scanStep_spec hg hs h).mono (fun r t hr => ?_) fun _ _ he => he
    cases r with
    | inr r => exact hr
    | inl j =>
        obtain ⟨hscan, hj, hne, huse⟩ := hr
        refine ⟨hscan, ?_⟩
        have hi : i.1 + 1 < 2 ^ 32 := by
          rcases h.start with h | h <;> omega
        have hjd : j.1 ≠ d := by
          rintro rfl
          exact hend.elim hne huse
        show ahead g d j.1 < ahead g d i.1
        rw [hj] at hjd ⊢
        exact ahead_advance h2 hd hi hjd
  · show ahead g d v.lastUsed < n
    rw [ahead]
    split <;> omega

/-! ## The first look -/

/-- The first look of a scan for a new chain fails, and the byte on the stack that
`stretch_chain` returns for that is `FAT_ERR_NONE`. -/
structure Blind (g : Geometry) (v : Volume) : Prop where
  stale : v.stale = 0
  next : advance g v.lastUsed ≠ v.lastUsed
  look : ∃ e t, getFat g (advance g v.lastUsed) v = .error (.error e) t

/-- Once it has seen the flags of an entry, a scan does not return them as `FAT_ERR_NONE`. -/
theorem scan_seen {i : Nat × Nat} (hi : i.2 ≠ 0) (n : Nat) (s : Volume) :
    Meets (loop (scanStep g last) n i) s (fun r _ => r ≠ none) fun _ _ => True := by
  refine meets_loop (I := fun i _ => i.2 ≠ 0) (fun i s hi => ?_) (fun _ _ _ => trivial) n hi
  rw [scanStep]
  split
  next => exact trivial
  next =>
    rw [meets_bind, meets_attempt, Meets]
    split
    next r t _ =>
      show Meets (pure _) _ _ _
      rw [meets_pure]
      split
      next => exact Option.some_ne_none _
      next => exact ClustFlags.byte_ne_zero _
    next =>
      exact ⟨fun _ _ => trivial, fun _ => trivial⟩

theorem scan_blind (flags n : Nat) (s : Volume) :
    Meets (loop (scanStep g last) n (last, flags)) s
      (fun r _ => r = none → flags = 0 ∧ advance g last ≠ last ∧
        ∃ e t, getFat g (advance g last) s = .error (.error e) t) fun _ _ => True := by
  cases n with
  | zero => trivial
  | succ n =>
      rw [loop, meets_bind, scanStep]
      dsimp only
      split
      next => trivial
      next hne =>
        rw [meets_bind, meets_attempt, Meets]
        split
        next r t _ =>
          show Meets (pure _) _ _ _
          rw [meets_pure]
          by_cases hf : r.2 = .free
          · rw [if_pos hf]
            exact fun hn => absurd hn (Option.some_ne_none _)
          · rw [if_neg hf]
            have hseen : (advance g last, r.2.byte).2 ≠ 0 := ClustFlags.byte_ne_zero _
            exact (scan_seen hseen n t).mono (fun _ _ hr hn => absurd hn hr) fun _ _ he => he
        next e t heq =>
          refine ⟨fun x hx => ?_, fun _ => trivial⟩
          show Meets (if flags = 0 then _ else _) _ _ _
          split
          next hz => exact fun _ => ⟨hz, hne, x, t, by rw [heq, hx]⟩
          next => trivial

/-! ## Linking the cluster -/

/-- The cells once `c` is taken, for a chain of its own or behind `prev`. -/
def taken (prev c : Nat) (cells : Nat → Cell Nat) : Nat → Cell Nat :=
  if prev = 0 then update cells c .last else update (update cells c .last) prev (.link c)

/-- The cluster `c` is taken, and counted. -/
structure Taken (g : Geometry) (prev c : Nat) (v t : Volume) : Prop
    extends Volume.Moved g v t where
  cells_eq : t.cells g = taken prev c (v.cells g)
  low : g.Low t.disk.key
  lastUsed : t.lastUsed = c
  freeCnt : t.freeCnt = (v.freeCnt + 2 ^ 32 - 1) % 2 ^ 32
  readable : ¬ Broken g v → ¬ Broken g t

/-- A transfer failed, before or after the cluster was taken, or between that and its link. -/
structure HalfTaken (g : Geometry) (prev c : Nat) (v t : Volume) : Prop
    extends Volume.Moved g v t where
  cells_eq : t.cells g = v.cells g ∨ t.cells g = update (v.cells g) c .last ∨
    t.cells g = taken prev c (v.cells g)
  lastUsed : t.lastUsed = v.lastUsed ∨ t.lastUsed = c

theorem Broken.congr (h : Broken g t) (he : ∀ c < g.clustCnt, t.entry g c = v.entry g c) :
    Broken g v := by
  obtain ⟨c, hc, hnone⟩ := h
  exact ⟨c, hc, he c hc ▸ hnone⟩

/-- A value that the library accepts does no harm to the table. -/
theorem Put.readable {ts : List Nat} {val : Nat} (h : Put g ts v c val t)
    (hval : clustFlags g (val % 2 ^ 28) ≠ none) (hb : ¬ Broken g v) : ¬ Broken g t := by
  rintro ⟨d, hd, hnone⟩
  rw [h.entry_eq hd] at hnone
  split at hnone
  next => exact hval hnone
  next => exact hb ⟨d, hd, hnone⟩

theorem clustFlags_eoc : clustFlags g (0x0fffffff % 2 ^ 28) ≠ none := by simp [clustFlags]

theorem clustFlags_link (hg : g.Regular) (h2 : 2 ≤ c) (hlt : c < g.clustCnt) :
    clustFlags g (c % 2 ^ 28) ≠ none := by
  have := hg.clustCnt_le
  rw [Nat.mod_eq_of_lt (by omega), clustFlags, if_neg (by omega), if_neg (by omega),
    if_neg (by omega), if_pos ⟨h2, hlt⟩]
  simp

theorem Volume.Kept.readable (h : Volume.Kept g v t) (hg : g.Regular) (hb : ¬ Broken g v) :
    ¬ Broken g t := fun hbt => hb <| hbt.congr fun c hc => by
  rw [Volume.entry, h.item_eq hg Geometry.fat0_mem_tables hc]
  rfl

theorem Put.cells_last {ts : List Nat} (h : Put g ts v c 0x0fffffff t) (hts : g.fatSect0 ∈ ts)
    (hc : c < g.clustCnt) : t.cells g = update (v.cells g) c .last := by
  rw [h.cells_eq hts hc, Nat.mod_eq_of_lt (by omega), cellOf_eoc]

theorem Put.cells_link {ts : List Nat} (h : Put g ts v d c t) (hts : g.fatSect0 ∈ ts)
    (hg : g.Regular) (hd : d < g.clustCnt) (hc2 : 2 ≤ c) (hc : c < g.clustCnt) :
    t.cells g = update (v.cells g) d (.link c) := by
  have := hg.clustCnt_le
  rw [h.cells_eq hts hd, Nat.mod_eq_of_lt (by omega), cellOf_link hg hc2 hc]

/-- The link of the chain to its new cluster. -/
theorem linkClust_spec {prev : Nat} (hg : g.Regular) (hs : v.Sound)
    (hprev : prev ≠ 0 → prev < g.clustCnt ∧ 2 ≤ c) (hc : c < g.clustCnt)
    (hlast : u.cells g = update (v.cells g) c .last) (hvu : Volume.Moved g v u)
    (hhint : u.lastUsed = v.lastUsed) (hlow : g.Low u.disk.key) :
    Meets (if prev ≠ 0 then putFat g prev c else pure () : FatM Unit) u
      (fun _ t => Volume.Moved g v t ∧ t.cells g = taken prev c (v.cells g) ∧
        g.Low t.disk.key ∧ t.infoDirty = u.infoDirty ∧ t.freeCnt = u.freeCnt ∧
        (Mirrored g u → Mirrored g t) ∧ (¬ Broken g u → ¬ Broken g t))
      fun e t => e = .error .io ∧ ¬ v.Quiet ∧ HalfTaken g prev c v t := by
  split
  next hne =>
    obtain ⟨hlt, hc2⟩ := hprev hne
    refine (putFat_spec hg (hvu.sound hs) hlt c).mono (fun _ t ht => ?_) fun e t he => ?_
    · refine ⟨hvu.trans ht.moved, ?_, ht.low Geometry.tables_ne_nil, ht.infoDirty, ht.freeCnt,
        ht.mirrored, ht.readable (clustFlags_link hg hc2 hc)⟩
      rw [ht.cells_link Geometry.fat0_mem_tables hg hlt hc2 hc, hlast, taken, if_neg hne]
    · obtain ⟨hio, hquiet, ts, hts, hput⟩ := he
      refine ⟨hio, fun hq => hquiet (hvu.quiet hq), hvu.trans hput.moved, .inr (.inl ?_),
        .inl (hput.lastUsed.trans hhint)⟩
      rw [hput.cells_of_notMem hts, hlast]
  next hzero =>
    have hzero : prev = 0 := by simpa using hzero
    rw [meets_pure]
    exact ⟨hvu, by rw [hlast, taken, if_pos hzero], hlow, rfl, rfl, fun h => h, fun h => h⟩

theorem takeClust_spec {prev : Nat} (hg : g.Regular) (hs : v.Sound) (hinfo : v.infoDirty = true)
    (hprev : prev ≠ 0 → prev < g.clustCnt ∧ 2 ≤ c) (hc : c < g.clustCnt) :
    Meets (takeClust g prev c) v
      (fun r t => r = c ∧ Taken g prev c v t ∧ (Mirrored g v → Mirrored g t) ∧ Saved g t)
      fun e t => e = .error .io ∧ ¬ v.Quiet ∧ HalfTaken g prev c v t := by
  rw [takeClust]
  refine ((putFat_spec hg hs hc 0x0fffffff).mono (fun _ _ h => h) fun e t he => ?_).bind
    fun _ u hu => ?_
  · obtain ⟨hio, hquiet, ts, hts, hput⟩ := he
    exact ⟨hio, hquiet, hput.moved, .inl (hput.cells_of_notMem hts), .inl hput.lastUsed⟩
  refine (linkClust_spec hg hs hprev hc (hu.cells_last Geometry.fat0_mem_tables hc)
    hu.moved hu.lastUsed (hu.low Geometry.tables_ne_nil)).bind fun _ w hw => ?_
  obtain ⟨hmoved, hcells, hlow, hinfo', hfree, hmirror, hread⟩ := hw
  rw [meets_bind, meets_modify]
  have hset : Volume.Moved g v { w with
      lastUsed := c, freeCnt := (w.freeCnt + 2 ^ 32 - 1) % 2 ^ 32 } :=
    ⟨⟨hmoved.quiet, fun h => ⟨(hmoved.sound h).coherent, (hmoved.sound h).whole⟩, hmoved.stale⟩,
      hmoved.view_eq, hmoved.keyed⟩
  refine ((syncFs_spec hg.info_pos.ne' (hset.sound hs)).mono (fun _ _ h => h) fun e t he =>
    ⟨he.1, fun hq => he.2.1 (hset.quiet hq), hset.trans he.2.2.moved,
      .inr (.inr ((he.2.2.cells_eq hg).trans hcells)), .inr he.2.2.lastUsed⟩).bind fun _ t ht => ?_
  · rw [meets_pure]
    refine ⟨rfl, ⟨hset.trans ht.moved, ?_, ?_, ht.lastUsed, ?_, fun hb => ?_⟩, fun hm => ?_,
      ht.saved (hinfo'.trans (hu.infoDirty.trans hinfo))⟩
    · rw [ht.cells_eq hg]
      exact hcells
    · rcases ht.keyed with heq | hlow'
      · rw [heq]
        exact hlow
      · exact hlow'
    · rw [ht.freeCnt, ← hu.freeCnt, ← hfree]
    · exact ht.readable hg (hread (hu.readable clustFlags_eoc hb))
    · exact ht.mirrored hg (hmirror (hu.mirrored hm))

/-! ## `stretch_chain` -/

/-- The entries of the clusters 0 and 1 are reserved, so they are not free. -/
structure Reserved (g : Geometry) (v : Volume) : Prop where
  zero : v.cells g 0 ≠ .free
  one : v.cells g 1 ≠ .free

theorem Reserved.two_le (h : Reserved g v) (hc : v.cells g c = .free) : 2 ≤ c := by
  match c with
  | 0 => exact absurd hc h.zero
  | 1 => exact absurd hc h.one
  | c + 2 => omega

/-- The look at the next cluster decides whether there is a scan. -/
theorem stretchNext_spec (hg : g.Regular) (hs : v.Sound) (prev : Nat) :
    Meets (stretchNext g prev) v
      (fun r t => Volume.Looked g v t ∧ Sum.elim
        (fun c => prev ≠ 0 ∧ c = advance g prev ∧ v.cells g c = .free)
        (fun _ => prev ≠ 0 → v.cells g (advance g prev) ≠ .free) r)
      fun e t => Volume.Looked g v t ∧ e ≠ .spent ∧ e ≠ .error .full ∧ (¬ v.Quiet ∨ Broken g v) := by
  have hlt := advance_lt hg.clustCnt_pos prev
  rw [stretchNext]
  split
  next hne =>
    refine ((getFat_cells hg hs hlt).mono (fun _ _ h => h) fun e t he => ?_).bind fun r t hr => ?_
    · rcases he with he | ⟨rfl, hsame, hbroken⟩
      · exact ⟨he.looked, by simp [he.io], by simp [he.io], .inl he.unquiet⟩
      · exact ⟨hsame, by simp, by simp, .inr ⟨_, hlt, hbroken⟩⟩
    · rw [meets_pure]
      refine ⟨hr.1, ?_⟩
      split
      next hf => exact ⟨hne, rfl, by rw [hr.2, hf]; rfl⟩
      next hf =>
        rintro -
        rw [hr.2]
        cases hf' : r.2 <;> first | exact absurd hf' hf | simp [ClustFlags.cell]
  next hzero =>
    have hzero : prev = 0 := by simpa using hzero
    rw [meets_bind, meets_get, meets_pure]
    exact ⟨.refl g v, fun hne => absurd hzero hne⟩

/-- No cluster but the hint is free, and not the next one either. -/
structure Exhausted (g : Geometry) (prev : Nat) (v : Volume) : Prop where
  two_le : 2 ≤ v.lastUsed
  lt : v.lastUsed < g.clustCnt
  next : prev ≠ 0 → v.cells g (advance g prev) ≠ .free
  others : ∀ d, 2 ≤ d → d < g.clustCnt → d ≠ v.lastUsed → v.cells g d ≠ .free

/-- The cluster that `stretch_chain` takes: the next one, or the first of the circle. -/
structure Picked (g : Geometry) (prev : Nat) (v : Volume) (c : Nat) : Prop where
  lt : c < g.clustCnt
  free : v.cells g c = .free
  first : prev ≠ 0 ∧ c = advance g prev ∨
    (prev ≠ 0 → v.cells g (advance g prev) ≠ .free) ∧ c ≠ v.lastUsed ∧
      ∀ d, Passed g v.lastUsed c d → v.cells g d ≠ .free

/-- What the search of `stretch_chain` gives. -/
structure Searched (g : Geometry) (prev : Nat) (v : Volume) (r : Option Nat) (t : Volume) :
    Prop where
  looked : Volume.Looked g v t
  picked : ∀ c, r = some c → Picked g prev v c
  early : r = none → ¬ v.Quiet ∨ Broken g v

/-- How the search fails. -/
structure Unsearched (g : Geometry) (prev : Nat) (v : Volume) (e : Stop FatError) (t : Volume) :
    Prop where
  looked : Volume.Looked g v t
  full : e = .error .full → Exhausted g prev v
  other : e = .spent ∨ e = .error .full ∨ ¬ v.Quiet ∨ Broken g v

theorem Found.searched {prev : Nat} {r : Option Nat} (h : Found g v r t)
    (hnext : prev ≠ 0 → v.cells g (advance g prev) ≠ .free) : Searched g prev v r t where
  looked := h.looked
  picked c hc := by
    obtain ⟨hlt, hfree, hne, hfirst⟩ := h.first c hc
    exact ⟨hlt, hfree, .inr ⟨hnext, hne, hfirst⟩⟩
  early := h.early

theorem Unfound.unsearched {prev : Nat} {e : Stop FatError} (h : Unfound g v e t)
    (hnext : prev ≠ 0 → v.cells g (advance g prev) ≠ .free) : Unsearched g prev v e t where
  looked := h.looked
  full he := by
    obtain ⟨h2, hlt, hothers⟩ := h.full he
    exact ⟨h2, hlt, hnext, hothers⟩
  other := by
    rcases h.other with he | he | ⟨_, hcause⟩
    · exact .inl he
    · exact .inr (.inl he)
    · exact .inr (.inr hcause)

/-- The scan comes back to its hint, or to a free cluster. -/
def Circling (g : Geometry) (v : Volume) : Prop :=
  v.lastUsed + 1 < 2 ^ 32 ∧
    ∃ d, 2 ≤ d ∧ d < g.clustCnt ∧ (d = v.lastUsed ∨ v.cells g d = .free)

theorem findClust_spec (hg : g.Regular) (hs : v.Sound) (hlast : v.lastUsed < 2 ^ 32)
    (prev n : Nat) :
    Meets (findClust g n prev) v (fun r t => Searched g prev v r t)
      fun e t => Unsearched g prev v e t ∧ (Circling g v → 2 * g.clustCnt < n → e ≠ .spent) := by
  rw [findClust]
  refine ((stretchNext_spec hg hs prev).mono (fun _ _ h => h) fun e t he => ?_).bind
    fun r u hr => ?_
  · obtain ⟨hsame, hspent, hfull, hcause⟩ := he
    exact ⟨⟨hsame, fun he => absurd he hfull, .inr (.inr hcause)⟩, fun _ _ => hspent⟩
  obtain ⟨hsame, hr⟩ := hr
  cases r with
  | inl c =>
      refine ⟨hsame, fun d hd => ?_, fun hd => by cases hd⟩
      obtain rfl := Option.some.inj hd
      exact ⟨hr.2.1 ▸ advance_lt hg.clustCnt_pos prev, hr.2.2, .inl ⟨hr.1, hr.2.1⟩⟩
  | inr flags =>
      show Meets (get >>= _) u _ _
      rw [meets_bind, meets_get, hsame.lastUsed]
      by_cases hcircle : Circling g v ∧ 2 * g.clustCnt < n
      · obtain ⟨⟨hlast', d, h2, hd, hend⟩, hn⟩ := hcircle
        exact (scan_ends hg hs hlast' h2 hd hend hsame flags hn).mono
          (fun _ _ h => h.searched hr) fun _ _ he => ⟨he.1.unsearched hr, fun _ _ => he.2⟩
      · exact (scan_spec hg hs hlast hsame flags n).mono (fun _ _ h => h.searched hr)
          fun _ _ he => ⟨he.unsearched hr, fun hc hn => absurd ⟨hc, hn⟩ hcircle⟩

/-- Only a blind scan leaves the caller with the cluster that it had. -/
theorem findClust_blind (n prev : Nat) (v : Volume) :
    Meets (findClust g n prev) v (fun r _ => r = none → prev = 0 ∧ Blind g v) fun _ _ => True := by
  rw [findClust]
  by_cases hprev : prev = 0
  · rw [stretchNext, if_neg (not_not_intro hprev), meets_bind, meets_bind, meets_get, meets_pure]
    show Meets (get >>= _) v _ _
    rw [meets_bind, meets_get]
    refine (scan_blind v.stale n v).mono (fun r _ hr hn => ?_) fun _ _ he => he
    obtain ⟨hstale, hnext, hlook⟩ := hr hn
    exact ⟨hprev, hstale, hnext, hlook⟩
  · rw [stretchNext, if_pos hprev, meets_bind, meets_bind, Meets]
    split
    next r t _ =>
      rw [meets_pure]
      by_cases hf : r.2 = .free
      · rw [if_pos hf]
        exact fun hn => absurd hn (Option.some_ne_none _)
      · rw [if_neg hf]
        show Meets (get >>= _) t _ _
        rw [meets_bind, meets_get]
        have hseen : (t.lastUsed, r.2.byte).2 ≠ 0 := ClustFlags.byte_ne_zero _
        exact (scan_seen hseen n t).mono (fun _ _ hr hn => absurd hn hr) fun _ _ he => he
    next => trivial

theorem Blind.findClust (h : Blind g v) (n : Nat) :
    Meets (findClust g (n + 1) 0) v (fun r _ => r = none) fun _ _ => False := by
  obtain ⟨e, t, hlook⟩ := h.look
  rw [Fat.findClust, stretchNext, if_neg (not_not_intro rfl), meets_bind, meets_bind, meets_get,
    meets_pure]
  show Meets (get >>= _) v _ _
  rw [meets_bind, meets_get, loop, meets_bind, scanStep]
  dsimp only
  rw [if_neg h.next, meets_bind, meets_attempt, Meets, hlook]
  refine ⟨fun x _ => ?_, fun hspent => by cases hspent⟩
  show Meets (if v.stale = 0 then _ else _) _ _ _
  rw [if_pos h.stale]
  rfl

/-- After a blind look `create_chain` tells of success, with the cluster that its caller had. -/
theorem Blind.createChain (h : Blind g { v with infoDirty := true }) (n out : Nat) :
    ∃ t, createChain g (n + 1) out v = .ok out t := by
  have hmeets : Meets (Fat.createChain g (n + 1) out) v (fun c _ => c = out)
      fun _ _ => False := by
    rw [Fat.createChain, stretchChain, meets_bind, meets_modify]
    refine (h.findClust n).bind fun r t hr => ?_
    rw [hr]
    rfl
  obtain ⟨c, t, hrun, rfl⟩ := hmeets.exists_ok
  exact ⟨t, hrun⟩

/-- How `stretch_chain` fails. -/
structure Unstretched (g : Geometry) (prev : Nat) (v : Volume) (e : Stop FatError)
    (t : Volume) : Prop extends Volume.Moved g v t where
  cells_eq : t.cells g = v.cells g ∨ ∃ c, Picked g prev v c ∧ HalfTaken g prev c v t
  lastUsed : t.lastUsed = v.lastUsed ∨ t.lastUsed < g.clustCnt
  unchanged : v.Quiet → t.view = v.view ∧ t.freeCnt = v.freeCnt ∧ t.lastUsed = v.lastUsed
  full : e = .error .full → t.cells g = v.cells g ∧ Exhausted g prev v
  other : e = .spent ∨ e = .error .full ∨ ¬ v.Quiet ∨ Broken g v

/-- What `stretch_chain` gives: a cluster that was free, or, after a blind look, what its caller
had before. -/
inductive Stretched (g : Geometry) (prev out : Nat) (v : Volume) (c : Nat) (t : Volume) : Prop
  | taken (picked : Picked g prev v c) (taken : Taken g prev c v t)
      (mirrored : Mirrored g v → Mirrored g t) (saved : Saved g t)
  | early (out_eq : c = out) (moved : Volume.Moved g v t) (cells_eq : t.cells g = v.cells g)
      (prev_eq : prev = 0) (blind : Blind g { v with infoDirty := true })
      (cause : ¬ v.Quiet ∨ Broken g v)

theorem Volume.moved_infoDirty (v : Volume) (b : Bool) :
    Volume.Moved g v { v with infoDirty := b } :=
  ⟨⟨fun h => h, fun h => ⟨h.coherent, h.whole⟩, rfl⟩, fun _ _ => rfl, .inl rfl⟩

/-- `stretch_chain` takes the cluster that its search picks. -/
theorem stretchChain_spec (hg : g.Regular) (hs : v.Sound) (hr : Reserved g v)
    (hlast : v.lastUsed < 2 ^ 32) {prev : Nat} (hprev : prev < g.clustCnt) (n out : Nat) :
    Meets (stretchChain g n prev out) v (fun c t => Stretched g prev out v c t)
      fun e t => Unstretched g prev v e t ∧
        (Circling g v → 2 * g.clustCnt < n → e ≠ .spent) := by
  rw [stretchChain, meets_bind, meets_modify]
  have hmoved := Volume.moved_infoDirty (g := g) v true
  have hs' := hmoved.sound hs
  refine (((findClust_spec hg hs' hlast prev n).and (findClust_blind n prev _)).mono
    (fun _ _ h => h) fun e t he => ?_).bind fun r u hu => ?_
  · obtain ⟨⟨he, hends⟩, _⟩ := he
    have hcells : t.cells g = v.cells g := cells_congr he.looked.view_eq
    refine ⟨⟨hmoved.trans he.looked.moved, .inl hcells, .inl he.looked.lastUsed,
      fun _ => ⟨he.looked.view_eq, he.looked.freeCnt, he.looked.lastUsed⟩, fun hfull => ⟨hcells, ?_⟩, he.other⟩, hends⟩
    have hx := he.full hfull
    exact ⟨hx.two_le, hx.lt, hx.next, hx.others⟩
  · obtain ⟨hu, hblind⟩ := hu
    cases r with
    | none =>
        obtain ⟨hprev, hblind⟩ := hblind rfl
        exact .early rfl (hmoved.trans hu.looked.moved) (cells_congr hu.looked.view_eq) hprev hblind
          (hu.early rfl)
    | some c =>
        have hp := hu.picked c rfl
        have hpick : Picked g prev v c := ⟨hp.lt, hp.free, hp.first⟩
        have hcells : u.cells g = v.cells g := cells_congr hu.looked.view_eq
        have hvu := hmoved.trans hu.looked.moved
        refine (takeClust_spec hg (hu.looked.sound hs') (hu.looked.infoDirty.trans rfl)
          (fun _ => ⟨hprev, hr.two_le hpick.free⟩) hpick.lt).mono (fun r t ht => ?_)
          fun e t he => ?_
        · obtain ⟨rfl, htaken, hmirror, hsaved⟩ := ht
          refine .taken hpick ⟨hvu.trans htaken.toMoved, ?_, htaken.low, htaken.lastUsed, ?_,
            fun hb => htaken.readable fun hbu => hb ?_⟩ (fun hm => hmirror ?_) hsaved
          · rw [htaken.cells_eq, hcells]
          · rw [htaken.freeCnt, hu.looked.freeCnt]
          · exact hbu.congr fun c' _ => by rw [Volume.entry, Volume.item, hu.looked.view_eq]; rfl
          · intro fs hfs c' hc'
            rw [Volume.entry, Volume.item, Volume.item, hu.looked.view_eq]
            exact hm fs hfs c' hc'
        · obtain ⟨rfl, hquiet, hhalf⟩ := he
          have hq : ¬ v.Quiet := fun hq => hquiet (hvu.quiet hq)
          have hhint : t.lastUsed = v.lastUsed ∨ t.lastUsed = c :=
            hhalf.lastUsed.imp_left fun h => h.trans hu.looked.lastUsed
          refine ⟨⟨hvu.trans hhalf.toMoved, .inr ⟨c, hpick, hvu.trans hhalf.toMoved, ?_, hhint⟩,
            hhint.imp_right fun h => h.trans_lt hpick.lt, fun h => absurd h hq, fun hfull => (by cases hfull),
            .inr (.inr (.inl hq))⟩, fun _ _ => by simp⟩
          rw [← hcells]
          exact hhalf.cells_eq

/-! ## On a medium that works -/

theorem Picked.not_exhausted {prev : Nat} (hr : Reserved g v)
    (h : Picked g prev v c) : ¬ Exhausted g prev v := by
  intro hx
  rcases h.first with ⟨hp, rfl⟩ | ⟨_, hne, _⟩
  · exact hx.next hp h.free
  · exact hx.others c (hr.two_le h.free) h.lt hne h.free

theorem Picked.circling {prev : Nat} (hr : Reserved g v) (hlast : v.lastUsed + 1 < 2 ^ 32)
    (h : Picked g prev v c) : Circling g v :=
  ⟨hlast, c, hr.two_le h.free, h.lt, .inr h.free⟩

/-- With transfers that succeed and a table that can be read, `stretch_chain` gives a free
cluster, says that the volume is full, or goes round for ever. -/
theorem stretchChain_quiet (hg : g.Regular) (hs : v.Sound) (hq : v.Quiet) (hb : ¬ Broken g v)
    (hr : Reserved g v) (hlast : v.lastUsed + 1 < 2 ^ 32) {prev : Nat} (hprev : prev < g.clustCnt)
    (n out : Nat) :
    (¬ Circling g v → ∃ t, stretchChain g n prev out v = .error .spent t) ∧
    (2 * g.clustCnt < n →
      (Exhausted g prev v →
        ∃ t, stretchChain g n prev out v = .error (.error .full) t ∧ t.cells g = v.cells g) ∧
      (Circling g v → ¬ Exhausted g prev v →
        ∃ c t, stretchChain g n prev out v = .ok c t ∧ Picked g prev v c ∧ Taken g prev c v t ∧
          (Mirrored g v → Mirrored g t) ∧ Saved g t)) := by
  have hspec := stretchChain_spec hg hs hr (by omega) hprev n out
  rcases hrun : stretchChain g n prev out v with ⟨c, t⟩ | ⟨e, t⟩
  · have hok := hspec.of_ok hrun
    cases hok with
    | early _ _ _ _ _ hcause =>
        rcases hcause with hnq | hbroken
        · exact absurd hq hnq
        · exact absurd hbroken hb
    | taken hpick htaken hmirror hsaved =>
        refine ⟨fun hc => absurd (hpick.circling hr hlast) hc, fun _ => ⟨fun hx => ?_, fun _ _ => ?_⟩⟩
        · exact absurd hx (hpick.not_exhausted hr)
        · exact ⟨c, t, rfl, hpick, htaken, hmirror, hsaved⟩
  · obtain ⟨hfail, hends⟩ := hspec.of_error hrun
    rcases hfail.other with rfl | rfl | hnq | hbroken
    · refine ⟨fun _ => ⟨t, rfl⟩, fun hn => ⟨fun hx => ?_, fun hc _ => ?_⟩⟩
      · exact absurd rfl (hends ⟨hlast, _, hx.two_le, hx.lt, .inl rfl⟩ hn)
      · exact absurd rfl (hends hc hn)
    · obtain ⟨hcells, hx⟩ := hfail.full rfl
      refine ⟨fun hc => ?_, fun _ => ⟨fun _ => ⟨t, rfl, hcells⟩, fun _ hnx => absurd hx hnx⟩⟩
      exact absurd ⟨hlast, _, hx.two_le, hx.lt, .inl rfl⟩ hc
    · exact absurd hq hnq
    · exact absurd hbroken hb

/-! ## A small volume -/

/-- Eight clusters of two sectors, with two copies of the table. -/
def Geometry.small : Geometry where
  clustShift := 1
  clustMsk := 1
  clustCnt := 8
  infoSect := 1
  fatSect0 := 2
  fatSect1 := 3
  dataSect := 4
  rootClust := 2

/-- Cluster 2 is a chain of its own, and the clusters 3 and 4 are another one. -/
def smallTable : Sector := fun i =>
  ([0xf8, 0xff, 0xff, 0x0f, 0xff, 0xff, 0xff, 0x0f, 0xff, 0xff, 0xff, 0x0f, 0x04, 0x00, 0x00, 0x00,
    0xff, 0xff, 0xff, 0x0f] : List (BitVec 8)).getD i 0

def smallStore : Nat → Sector := fun s => if s = 2 ∨ s = 3 then smallTable else fun _ => 0

def Volume.small : Volume where
  disk := { store := smallStore, key := 0, value := fun _ => 0, dirty := false }
  reads := []
  writes := []
  infoDirty := false
  lastUsed := 4
  freeCnt := 3
  stale := 1

theorem Geometry.regular_small : Geometry.small.Regular where
  fat0_pos := by decide
  fat0_end := by decide
  fat1_end _ := by decide
  apart _ := by decide
  info_pos := by decide
  info_apart := by
    rintro ⟨fs, hfs, hle, _⟩
    simp only [Geometry.tables, Geometry.small] at hfs hle
    simp at hfs
    omega
  clustCnt_pos := by decide
  clustCnt_le := by decide

theorem Volume.quiet_small : Volume.small.Quiet := ⟨by simp [Volume.small], by simp [Volume.small]⟩

theorem Volume.sound_small : Volume.small.Sound :=
  ⟨fun _ h => absurd rfl h, by simp [Volume.Whole, Volume.small]⟩

theorem cells_small (c : Nat) :
    Volume.small.cells .small c = if c = 3 then .link 4 else if c < 5 then .last
      else if c < 8 then .free else .unusable := by
  by_cases hc : c < 8
  · have hall : ∀ c < 8, Volume.small.cells .small c =
        if c = 3 then .link 4 else if c < 5 then .last else .free := by decide
    rw [hall c hc, if_pos hc]
  · rw [Volume.cells, if_neg (show ¬ c < Geometry.small.clustCnt from hc)]
    split_ifs <;> first | rfl | omega

theorem Volume.readable_small : ¬ Broken .small .small := by
  have hall : ∀ c < 8, clustFlags .small (Volume.small.entry .small c) ≠ none := by decide
  rintro ⟨c, hc, hnone⟩
  exact hall c hc hnone

theorem Volume.reserved_small : Reserved .small .small where
  zero := by simp [cells_small]
  one := by simp [cells_small]

theorem stretchChain_small : ∃ c t, stretchChain .small 20 4 0 Volume.small = .ok c t ∧
    Picked .small 4 .small c ∧ Taken .small 4 c .small t := by
  have hfree : ¬ Exhausted .small 4 .small := fun h =>
    h.others 6 (by decide) (by decide) (by decide) (by simp [cells_small])
  obtain ⟨c, t, hrun, hpick, htaken, _⟩ := ((stretchChain_quiet Geometry.regular_small
    Volume.sound_small Volume.quiet_small Volume.readable_small Volume.reserved_small (by decide)
    (by decide) 20 0).2 (by decide)).2 ⟨by decide, 4, by decide, by decide, .inl rfl⟩ hfree
  exact ⟨c, t, hrun, hpick, htaken⟩

end Demoos.Fat
