import Demoos.Fat.Alloc

/-!
# Freeing a chain

`remove_chain` walks the chain and frees each cluster behind it.  If a transfer fails, the
clusters up to some point of the chain are free and the rest of them is as before.
-/

namespace Demoos.Fat

open Program
open Chains (Cell Chain Apart freeIn)
open Function (update update_self update_of_ne)

variable {g : Geometry} {v u t : Volume} {c val : Nat} {cs ds : List Nat}

/-! ## Copies of the table -/

/-- Every copy of the table has the same entries. -/
def Mirrored (g : Geometry) (v : Volume) : Prop :=
  ∀ fs ∈ g.tables, ∀ c < g.clustCnt, v.item fs c % 2 ^ 28 = v.entry g c

theorem Put.mirrored (h : Put g g.tables v c val t) (hm : Mirrored g v) : Mirrored g t := by
  intro fs hfs c' hc'
  rw [h.entry_eq hc', h.item_eq fs hfs c' hc']
  by_cases hcc : c' = c
  · rw [if_pos ⟨hfs, hcc⟩, if_pos ⟨Geometry.fat0_mem_tables, hcc⟩, splice_mod]
  · rw [if_neg fun h => hcc h.2, if_neg fun h => hcc h.2]
    exact hm fs hfs c' hc'

theorem Volume.Kept.cells_eq (h : Volume.Kept g v t) (hg : g.Regular) :
    t.cells g = v.cells g := by
  funext c
  rw [Volume.cells, Volume.cells]
  split
  next hc => rw [Volume.entry, h.item_eq hg Geometry.fat0_mem_tables hc]; rfl
  next => rfl

theorem Volume.Kept.mirrored (h : Volume.Kept g v t) (hg : g.Regular) (hm : Mirrored g v) :
    Mirrored g t := by
  intro fs hfs c hc
  rw [Volume.entry, h.item_eq hg hfs hc, h.item_eq hg Geometry.fat0_mem_tables hc]
  exact hm fs hfs c hc

/-- The tables may have changed and the info, and no other sector. -/
structure Volume.Moved (g : Geometry) (v t : Volume) : Prop extends v.Onward t where
  view_eq : ∀ s, ¬ g.Low s → t.view s = v.view s
  keyed : Volume.Keyed g v t

theorem Volume.Moved.trans (h : Volume.Moved g v u) (h' : Volume.Moved g u t) :
    Volume.Moved g v t :=
  ⟨h.toOnward.trans h'.toOnward, fun s hs => (h'.view_eq s hs).trans (h.view_eq s hs),
    h.keyed.trans h'.keyed⟩

theorem Put.moved {ts : List Nat} (h : Put g ts v c val t) : Volume.Moved g v t :=
  ⟨h.toOnward, fun s hs => h.view_eq s fun hin => hs (.inl hin), h.keyed⟩

theorem Volume.Kept.moved (h : Volume.Kept g v t) : Volume.Moved g v t :=
  ⟨h.toOnward, fun s hs => h.view_eq s fun hi => hs (.inr hi), h.keyed⟩

theorem Volume.Looked.moved (h : Volume.Looked g v t) : Volume.Moved g v t :=
  ⟨h.toOnward, fun s _ => congrFun h.view_eq s, h.keyed⟩

/-! ## `remove_chain` -/

/-- The cells of `ds` are free now. -/
structure Freed (g : Geometry) (ds : List Nat) (v t : Volume) : Prop
    extends Volume.Moved g v t where
  cells_eq : t.cells g = fun c => if c ∈ ds then .free else v.cells g c
  lastUsed : t.lastUsed = v.lastUsed
  freeCnt : t.freeCnt % 2 ^ 32 = (v.freeCnt + ds.length) % 2 ^ 32

theorem Freed.of_looked (h : Volume.Looked g v t) : Freed g [] v t where
  toMoved := h.moved
  cells_eq := by simp [cells_congr h.view_eq]
  lastUsed := h.lastUsed
  freeCnt := by rw [h.freeCnt]; rfl

theorem Freed.trans (h : Freed g cs v u) (h' : Freed g ds u t) : Freed g (cs ++ ds) v t where
  toMoved := h.toMoved.trans h'.toMoved
  cells_eq := by
    rw [h'.cells_eq, h.cells_eq]
    funext c
    by_cases hc : c ∈ cs <;> by_cases hd : c ∈ ds <;> simp [hc, hd]
  lastUsed := h'.lastUsed.trans h.lastUsed
  freeCnt := by
    have := h.freeCnt
    have := h'.freeCnt
    rw [List.length_append]
    omega

theorem Freed.of_kept (hg : g.Regular) (h : Volume.Kept g v t) : Freed g [] v t where
  toMoved := h.moved
  cells_eq := by simp [h.cells_eq hg]
  lastUsed := h.lastUsed
  freeCnt := by rw [h.freeCnt]; rfl

/-- One cluster is freed and counted. -/
theorem Freed.of_put (hc : c < g.clustCnt) (h : Put g g.tables v c 0 t) :
    Freed g [c] v { t with freeCnt := (t.freeCnt + 1) % 2 ^ 32 } where
  quiet := h.quiet
  sound hs := ⟨(h.sound hs).coherent, (h.sound hs).whole⟩
  stale := h.stale
  view_eq := h.moved.view_eq
  keyed := h.keyed
  cells_eq := by
    have hcells := h.cells_eq Geometry.fat0_mem_tables hc
    rw [Nat.zero_mod, cellOf_zero] at hcells
    refine (cells_congr rfl).trans (hcells.trans ?_)
    funext c'
    by_cases hcc : c' = c
    · subst hcc
      simp
    · simp [hcc]
  lastUsed := h.lastUsed
  freeCnt := by
    show (t.freeCnt + 1) % 2 ^ 32 % 2 ^ 32 = _
    rw [h.freeCnt, Nat.mod_mod]
    rfl

/-- A round frees the first cluster of the chain and goes on with the next one. -/
theorem removeStep_spec (hg : g.Regular) (hs : v.Sound) (h : Chain (v.cells g) (c :: cs)) :
    Meets (removeStep g c) v
      (fun r t => Freed g [c] v t ∧ (Mirrored g v → Mirrored g t) ∧
        t.infoDirty = v.infoDirty ∧ r = cs.head?.elim (.inr ()) .inl)
      fun e t => e = .error .io ∧ ¬ v.Quiet ∧ Freed g [] v t := by
  have hne := h.ne_unusable List.mem_cons_self
  have hc := lt_of_cells hne
  rw [removeStep]
  refine ((getFat_cells hg hs hc).mono (fun _ _ h => h) fun e t he => ?_).bind fun r u hr => ?_
  · rcases he with he | ⟨_, _, hbroken⟩
    · exact ⟨he.io, he.unquiet, .of_looked he.looked⟩
    · exact absurd (by rw [Volume.cells, if_pos hc, cellOf, hbroken]; rfl) hne
  obtain ⟨hsame, hcell⟩ := hr
  have hfree := h.ne_free List.mem_cons_self
  have hflags : ¬ (r.2 = .bad ∨ r.2 = .free) := by
    rintro (hb | hb)
    · exact hne (by rw [hcell, hb]; rfl)
    · exact hfree (by rw [hcell, hb]; rfl)
  rw [if_neg hflags]
  refine ((putFat_spec hg (hsame.sound hs) hc 0).mono (fun _ _ h => h) fun e t he => ?_).bind
    fun _ w hw => ?_
  · obtain ⟨hio, hquiet, ts, hts, hput⟩ := he
    have hcells : t.cells g = v.cells g := by
      rw [hput.cells_of_notMem hts, cells_congr hsame.view_eq]
    refine ⟨hio, fun hq => hquiet (hsame.quiet hq), hsame.moved.trans hput.moved, ?_,
      hput.lastUsed.trans hsame.lastUsed, ?_⟩
    · simp [hcells]
    · rw [hput.freeCnt, hsame.freeCnt]
      rfl
  rw [meets_bind, meets_modify]
  refine ⟨(Freed.of_looked hsame).trans (.of_put hc hw), fun hm => ?_,
    hw.infoDirty.trans hsame.infoDirty, ?_⟩
  · have hmu : Mirrored g u := by
      intro fs hfs c' hc'
      rw [Volume.item, Volume.entry, Volume.item, hsame.view_eq]
      exact hm fs hfs c' hc'
    exact hw.mirrored hmu
  · cases cs with
    | nil =>
        have hlast : r.2 = .last := by
          rw [Chain.singleton_iff.mp h] at hcell
          cases hr : r.2 <;> rw [hr] at hcell <;> first | rfl | cases hcell
        rw [if_pos hlast]
        rfl
    | cons d ds =>
        rw [(Chain.cons_cons_iff.mp h).1] at hcell
        have hused : r.2 = .used := by
          cases hr : r.2 <;> rw [hr] at hcell <;> first | rfl | cases hcell
        rw [hused] at hcell
        rw [if_neg (by rw [hused]; exact ClustFlags.noConfusion), ← Cell.link.inj hcell]
        rfl

/-- Without the place that is freed, the rest of the chain is a chain. -/
theorem Freed.chain_tail {d : Nat} (h : Freed g [c] v t) (hc : Chain (v.cells g) (c :: d :: ds)) :
    Chain (t.cells g) (d :: ds) := by
  have hnot : c ∉ d :: ds := (List.nodup_cons.mp hc.nodup).1
  refine (Chain.cons_cons_iff.mp hc).2.congr fun a ha => ?_
  rw [h.cells_eq]
  simp [ne_of_mem_of_not_mem ha hnot]

theorem removeLoop_spec (hg : g.Regular) (hs : v.Sound) (h : Chain (v.cells g) (c :: cs)) {n : Nat}
    (hn : cs.length < n) :
    Meets (loop (removeStep g) n c) v
      (fun _ t => Freed g (c :: cs) v t ∧ (Mirrored g v → Mirrored g t) ∧
        t.infoDirty = v.infoDirty)
      fun e t => e = .error .io ∧ ¬ v.Quiet ∧ ∃ k, Freed g ((c :: cs).take k) v t := by
  induction n generalizing c cs v with
  | zero => omega
  | succ n ih =>
      rw [loop]
      refine ((removeStep_spec hg hs h).mono (fun _ _ h => h) fun e t he =>
        ⟨he.1, he.2.1, 0, he.2.2⟩).bind fun r u hr => ?_
      obtain ⟨hfreed, hmirror, hinfo, rfl⟩ := hr
      cases cs with
      | nil => exact ⟨hfreed, hmirror, hinfo⟩
      | cons d ds =>
          refine (ih (hfreed.sound hs) (hfreed.chain_tail h) (by simpa using hn)).mono
            (fun _ t ht => ?_) fun e t he => ?_
          · exact ⟨hfreed.trans ht.1, ht.2.1 ∘ hmirror, ht.2.2.trans hinfo⟩
          · obtain ⟨hio, hquiet, k, hk⟩ := he
            exact ⟨hio, fun hq => hquiet (hfreed.quiet hq), k + 1, hfreed.trans hk⟩

/-- The medium is up to date, with the counts in the sector of the info. -/
structure Saved (g : Geometry) (t : Volume) : Prop where
  store_eq : t.disk.store = t.view
  info_eq : ∃ buf, t.view g.infoSect = putInfo t.lastUsed t.freeCnt buf
  infoDirty : t.infoDirty = false

theorem Synced.saved (h : Synced g v t) (hv : v.infoDirty = true) : Saved g t where
  store_eq := h.store_eq
  info_eq := ⟨v.view g.infoSect, by rw [h.info_eq, if_pos hv, h.lastUsed, h.freeCnt]⟩
  infoDirty := h.infoDirty

/-- The flag `FAT_INFO_DIRTY` is none of what the specifications speak of. -/
theorem Freed.of_infoDirty {b : Bool} (h : Freed g ds { v with infoDirty := b } t) :
    Freed g ds v t where
  quiet hq := h.quiet hq
  sound hs := h.sound ⟨hs.coherent, hs.whole⟩
  stale := h.stale
  view_eq := h.view_eq
  keyed := h.keyed
  cells_eq := h.cells_eq
  lastUsed := h.lastUsed
  freeCnt := h.freeCnt

/-- `remove_chain` frees the chain that begins with its argument. -/
theorem removeChain_spec (hg : g.Regular) (hs : v.Sound) (h : Chain (v.cells g) (c :: cs))
    {n : Nat} (hn : cs.length < n) :
    Meets (removeChain g n c) v
      (fun _ t => Freed g (c :: cs) v t ∧ (Mirrored g v → Mirrored g t) ∧ Saved g t)
      fun e t => e = .error .io ∧ ¬ v.Quiet ∧ ∃ k, Freed g ((c :: cs).take k) v t := by
  rw [removeChain, meets_bind, meets_modify]
  have hs' : ({ v with infoDirty := true } : Volume).Sound := ⟨hs.coherent, hs.whole⟩
  refine ((removeLoop_spec hg hs' h hn).mono (fun _ _ h => h) fun e t he => ?_).bind
    fun _ u hu => ?_
  · obtain ⟨hio, hquiet, k, hk⟩ := he
    exact ⟨hio, hquiet, k, hk.of_infoDirty⟩
  obtain ⟨hfreed, hmirror, hinfo⟩ := hu
  have hfreed := hfreed.of_infoDirty
  refine (syncFs_spec hg.info_pos.ne' (hfreed.sound hs)).mono (fun _ t ht => ?_) fun e t he => ?_
  · refine ⟨?_, fun hm => ht.mirrored hg (hmirror hm), ht.saved hinfo⟩
    have := hfreed.trans (.of_kept hg ht.toKept)
    rwa [List.append_nil] at this
  · refine ⟨he.1, fun hq => he.2.1 (hfreed.quiet hq), (c :: cs).length, ?_⟩
    have := hfreed.trans (.of_kept hg he.2.2)
    rwa [List.append_nil, ← List.take_length (l := c :: cs)] at this

end Demoos.Fat
