import Demoos.Fat.Seeking

/-!
# Reading and writing files

On a medium that works, `fat_file_read` gives the bytes of the file from its cursor on, and
`fat_file_write` puts bytes there.  Both go on by a seek for each piece, and that seek can make
the chain longer.  If it cannot, the piece has been transferred but the cursor stays in front
of it.
-/

namespace Demoos.Fat

open Program
open Chains (Cell Chain Apart)
open Tape (window)

variable {g : Geometry} {v u t : Volume} {f f' : File} {cs cs' cs'' ds : List Nat} {n : Nat}

/-! ## Runs of seeks -/

theorem Kin.trans {f'' : File} (h : Kin f f') (h' : Kin f' f'') : Kin f f'' where
  fat := h'.fat.trans h.fat
  sclust := h'.sclust.trans h.sclust
  size := h'.size.trans h.size
  dirSect := h'.dirSect.trans h.dirSect
  dirIdx := h'.dirIdx.trans h.dirIdx
  flags := by rw [h'.flags, h.flags]

theorem fileSect_notMem (hpre : cs' <+: cs'') {s : Nat}
    (h : ∀ i < cs''.length * g.spc, s ≠ fileSect g cs'' i) :
    ∀ i < cs'.length * g.spc, s ≠ fileSect g cs' i := fun i hi => by
  have hlen := Nat.mul_le_mul_right g.spc hpre.length_le
  rw [← fileSect_of_pre hpre hi]
  exact h i (by omega)

theorem Worked.trans {f'' : File} (h : Worked g cs v f cs' u f')
    (h' : Worked g cs' u f' cs'' t f'') : Worked g cs v f cs'' t f'' where
  ok := h'.ok
  fit := h'.fit
  kin := h.kin.trans h'.kin
  pre := h.pre.trans h'.pre
  keyed := h.keyed.trans h'.keyed
  apart rest hr := h'.apart rest (h.apart rest hr)
  count := h'.count.trans h.count
  view_eq s hs hns :=
    (h'.view_eq s hs hns).trans (h.view_eq s hs (fileSect_notMem h'.pre hns))

theorem room_mono (h : cs <+: cs') : room g cs ≤ room g cs' :=
  Nat.mul_le_mul_right _ h.length_le

theorem Sought.trans {f'' : File} (h : Sought g cs v f cs' u f')
    (h' : Sought g cs' u f' cs'' t f'') : Sought g cs v f cs'' t f'' where
  toWorked := h.toWorked.trans h'.toWorked
  content_eq o ho := by
    have hle := room_mono (g := g) h.pre
    rw [h'.content_eq o (by omega), h.content_eq o ho]

theorem FileOk.sought (h : FileOk g cs v f) (hv : Fit g v) : Sought g cs v f cs v f where
  ok := h
  fit := hv
  kin := ⟨rfl, rfl, rfl, rfl, rfl, rfl⟩
  pre := List.prefix_rfl
  keyed := .inl rfl
  apart _ hr := hr
  count := rfl
  view_eq _ _ _ := rfl
  content_eq _ _ := rfl

theorem Volume.Keyed.ne_fileSect (h : Volume.Keyed g v t) (hg : g.Laid) (hdata : InData g cs)
    (hkey : ∀ i < cs.length * g.spc, v.disk.key ≠ fileSect g cs i) :
    ∀ i < cs.length * g.spc, t.disk.key ≠ fileSect g cs i := fun i hi => by
  rcases h with heq | hlow
  · rw [heq]
    exact hkey i hi
  · exact fun he => not_low_fileSect hg hdata hi (he ▸ hlow)

/-- A file on a volume that differs in its buffer alone. -/
theorem Unmoved.sought (h : Unmoved g v t) (hg : g.Laid) (hok : FileOk g cs v f) :
    Sought g cs v f cs t f where
  ok := by
    refine ⟨hok.fat, ?_, hok.data, hok.head, hok.clust, hok.sect, ?_,
      h.keyed.ne_fileSect hg hok.data hok.key⟩
    · rw [cells_congr h.view_eq']
      exact hok.chain
    · rw [h.view_eq']
      exact hok.buf
  fit := h.fit
  kin := ⟨rfl, rfl, rfl, rfl, rfl, rfl⟩
  pre := List.prefix_rfl
  keyed := h.keyed
  apart rest hr := by rwa [cells_congr h.view_eq']
  count := by rw [free_congr (cells_congr h.view_eq')]
  view_eq s _ _ := congrFun h.view_eq' s
  content_eq o _ := by rw [content, content, h.view_eq']

/-! ## Other files -/

/-- A file whose chain and sectors are what they were is in order as before. -/
theorem FileOk.frame (h : FileOk g cs v f) (hchain : Chain (t.cells g) cs)
    (hview : ∀ i < cs.length * g.spc, t.view (fileSect g cs i) = v.view (fileSect g cs i))
    (hkey : ∀ i < cs.length * g.spc, t.disk.key ≠ fileSect g cs i) :
    FileOk g cs t f ∧ ∀ o, o < room g cs → content g cs t f o = content g cs v f o := by
  have hoff := lt_room_iff.mp h.offset_lt
  refine ⟨⟨h.fat, hchain, h.data, h.head, h.clust, h.sect, fun hclean => ?_, hkey⟩,
    fun o ho => ?_⟩
  · rw [h.buf hclean, h.sect, hview _ hoff]
  · rw [content, content, hview _ (lt_room_iff.mp ho)]

theorem notMem_of_apart {rest : List (List Nat)} (hapart : Apart (t.cells g) (cs :: rest))
    (hds : ds ∈ rest) : ∀ c ∈ cs, c ∉ ds := fun _ hc hin =>
  hapart.notMem_tail hc (List.mem_flatten.mpr ⟨ds, hds, hin⟩)

/-- A file that shares no cluster with the one at work stays in order, with its contents. -/
theorem Worked.other (h : Worked g cs v f cs' t f') (hg : g.Laid) {f₂ : File}
    {rest : List (List Nat)} (hapart : Apart (t.cells g) (cs' :: rest)) (hds : ds ∈ rest)
    (hok : FileOk g ds v f₂) :
    FileOk g ds t f₂ ∧ ∀ o, o < room g ds → content g ds t f₂ o = content g ds v f₂ o := by
  refine hok.frame (hapart.chain ds (List.mem_cons_of_mem _ hds)) (fun i hi => ?_)
    (h.keyed.ne_fileSect hg hok.data hok.key)
  exact h.view_eq _ (not_low_fileSect hg hok.data hi) fun j hj =>
    (fileSect_ne hg h.ok.data hok.data (notMem_of_apart hapart hds) hj hi).symm

/-- The same where a chain has grown, for nothing. -/
theorem Grown.other (h : Grown g cs v cs' t) (hg : g.Laid) {f₂ : File}
    {rest : List (List Nat)} (hapart : Apart (t.cells g) (cs' :: rest)) (hds : ds ∈ rest)
    (hok : FileOk g ds v f₂) :
    FileOk g ds t f₂ ∧ ∀ o, o < room g ds → content g ds t f₂ o = content g ds v f₂ o :=
  hok.frame (hapart.chain ds (List.mem_cons_of_mem _ hds))
    (fun _ hi => h.view_eq _ (not_low_fileSect hg hok.data hi))
    (h.keyed.ne_fileSect hg hok.data hok.key)

/-! ## A piece within the buffer -/

/-- The piece of the buffer that begins at the cursor is that of the contents. -/
theorem content_window {cnt : Nat} (hcnt : f.offset % 512 + cnt ≤ 512) :
    window f.buf (f.offset % 512) cnt = window (content g cs v f) f.offset cnt := by
  refine List.map_congr_left fun i hi => ?_
  have hlt := List.mem_range.mp hi
  rw [content, if_pos (by omega)]
  congr 1
  omega

/-- The file with a piece put into its buffer. -/
def File.put (f : File) (bytes : List (BitVec 8)) : File :=
  { f with buf := Tape.splice f.buf (f.offset % 512) bytes, flags.dirty := true }

theorem content_put {bytes : List (BitVec 8)} (hcnt : f.offset % 512 + bytes.length ≤ 512) :
    content g cs v (f.put bytes) = Tape.splice (content g cs v f) f.offset bytes := by
  funext o
  have hput : content g cs v (f.put bytes) o =
      if o / 512 = f.offset / 512 then Tape.splice f.buf (f.offset % 512) bytes (o % 512)
      else v.view (fileSect g cs (o / 512)) (o % 512) := rfl
  rw [hput]
  split
  next heq =>
    have hbuf : content g cs v f o = f.buf (o % 512) := if_pos heq
    have hle : f.offset % 512 ≤ o % 512 ↔ f.offset ≤ o := by omega
    have hsub : o % 512 - f.offset % 512 = o - f.offset := by omega
    rw [Tape.splice, Tape.splice, hbuf, hsub]
    simp only [hle]
  next hne =>
    have hview : content g cs v f o = v.view (fileSect g cs (o / 512)) (o % 512) := if_neg hne
    rw [← hview]
    rcases Nat.lt_or_ge o f.offset with hlt | hge
    · rw [Tape.splice_of_lt hlt]
    · rw [Tape.splice_of_le (by omega)]

theorem FileOk.put (h : FileOk g cs v f) (bytes : List (BitVec 8)) :
    FileOk g cs v (f.put bytes) :=
  ⟨h.fat, h.chain, h.data, h.head, h.clust, h.sect, by simp [File.put], h.key⟩

theorem room_eq (g : Geometry) (cs : List Nat) : room g cs = 512 * (cs.length * g.spc) := by
  rw [room, Geometry.clustSize_eq, Nat.mul_left_comm]

theorem piece_le_room {cnt : Nat} (hoff : f.offset < room g cs)
    (hcnt : f.offset % 512 + cnt ≤ 512) : f.offset + cnt ≤ room g cs := by
  have hroom := room_eq g cs
  omega

/-- A seek behind a piece of the buffer fails where the clusters end. -/
theorem Stuck.piece {cnt : Nat} (h : Stuck g cs v f (f.offset + cnt) t f')
    (hoff : f.offset < room g cs) (hcnt : f.offset % 512 + cnt ≤ 512) :
    f.offset + cnt = room g cs ∧ f' = f ∧ Unmoved g v t := by
  have hle := h.room_le
  have hpos := g.spc_pos
  have hroom := room_eq g cs
  have heq : f.offset + cnt = room g cs := by omega
  refine ⟨heq, h.next ?_⟩
  have hend : (f.offset + cnt) / 512 = cs.length * g.spc := by omega
  have hlast : f.offset / 512 = cs.length * g.spc - 1 := by omega
  rw [Geometry.div_clustSize, Geometry.div_clustSize, hend, hlast,
    Nat.mul_div_cancel _ hpos]
  have hlen : 0 < cs.length := by
    rcases Nat.eq_zero_or_pos cs.length with hzero | hpos
    · rw [hzero, Nat.zero_mul] at hroom
      omega
    · exact hpos
  obtain ⟨l, hl⟩ := Nat.exists_eq_succ_of_ne_zero hlen.ne'
  rw [hl, Nat.succ_mul, Nat.add_sub_assoc hpos, Nat.mul_comm, Nat.mul_add_div hpos,
    Nat.div_eq_of_lt (by omega)]

/-! ## `fat_file_read` -/

/-- What holds before each round of `fat_file_read`. -/
structure Reading (g : Geometry) (cs : List Nat) (v : Volume) (f : File) (len : Nat)
    (i : Nat × List (BitVec 8)) (cs' : List Nat) (s : Volume × File) : Prop where
  sought : Sought g cs v f cs' s.1 s.2
  offset_eq : s.2.offset = f.offset + i.2.length
  length_eq : cs'.length = max cs.length ((f.offset + i.2.length) / g.clustSize + 1)
  left : i.1 + i.2.length = len
  within : i.2.length ≤ f.size - f.offset
  bytes : i.2 = window (content g cs v f) f.offset i.2.length

/-- What `fat_file_read` gives. -/
structure ReadOut (g : Geometry) (cs : List Nat) (v : Volume) (f : File) (len : Nat)
    (r : List (BitVec 8) × Option FatError) (cs' : List Nat) (t : Volume) (f' : File) : Prop
    extends Sought g cs v f cs' t f' where
  bytes : r.1 = window (content g cs v f) f.offset (min len (f.size - f.offset))
  offset_eq : r.2 = none → f'.offset = f.offset + r.1.length
  length_eq : r.2 = none → cs'.length = max cs.length ((f.offset + r.1.length) / g.clustSize + 1)
  full : ∀ e, r.2 = some e → e = .full ∧ (t.free g).card ≤ 1 ∧ cs' = cs ∧
    f.offset + r.1.length = room g cs ∧ f.offset ≤ f'.offset ∧
    f'.offset < f.offset + r.1.length ∧ f.offset + r.1.length ≤ f'.offset + 512

theorem room_pos_iff {off : Nat} : off < room g cs ↔ off / g.clustSize < cs.length := by
  have hle : room g cs ≤ off ↔ cs.length ≤ off / g.clustSize := room_le_iff
  omega

theorem readStep_spec (hg : g.Laid) (hn : 2 * g.clustCnt < n) (hsize : f.size ≤ room g cs)
    (hsize' : f.size < 2 ^ 32) {len : Nat} {i : Nat × List (BitVec 8)} {s : Volume × File}
    (h : Reading g cs v f len i cs' s) :
    Meets (readStep g n i) s
      (fun r t => Sum.elim
        (fun j => (∃ cs'', Reading g cs v f len j cs'' t) ∧ j.1 < i.1)
        (fun r => ∃ cs'', ReadOut g cs v f len r cs'' t.1 t.2) r)
      fun _ _ => False := by
  obtain ⟨rem, bytes⟩ := i
  obtain ⟨u, f₁⟩ := s
  obtain ⟨hsought, hoff, hlen, hleft, hwithin, hbytes⟩ := h
  simp only at hsought hoff hlen hleft hwithin hbytes
  have hsz : f₁.size = f.size := hsought.kin.size
  rw [readStep, meets_bind, meets_getFile]
  split
  next hgo =>
    obtain ⟨hrem, hlt⟩ := hgo
    simp only at hrem hlt
    simp only [hsz] at hlt ⊢
    generalize hcnt : min rem (min (512 - f₁.offset % 512) (f.size - f₁.offset)) = cnt
    obtain ⟨hpiece, hpos, hrest, hend⟩ : f₁.offset % 512 + cnt ≤ 512 ∧ 0 < cnt ∧ cnt ≤ rem ∧
        f₁.offset + cnt ≤ f.size := by omega
    clear hcnt
    have hnew : bytes ++ window f₁.buf (f₁.offset % 512) cnt =
        window (content g cs v f) f.offset (bytes.length + cnt) := by
      have hpiece' : window f₁.buf (f₁.offset % 512) cnt =
          window (content g cs' u f₁) f₁.offset cnt := content_window hpiece
      rw [hpiece', Tape.window_add, ← hbytes, hoff]
      refine congrArg _ (Tape.window_congr fun k hk => ?_)
      exact hsought.content_eq _ (by omega)
    have hnewlen : (bytes ++ window f₁.buf (f₁.offset % 512) cnt).length = bytes.length + cnt := by
      rw [hnew, Tape.length_window]
    rw [meets_bind, meets_attempt]
    refine (fileSeek_spec hg hsought.fit hsought.ok hn cnt .curr).mono (fun _ s hs => ?_)
      fun e s he => ?_
    · obtain ⟨off, hbase, hrange, cs'', hreach⟩ := hs
      have hoff' : off = f.offset + (bytes.length + cnt) := by
        have : ((f₁.offset : Int) + cnt) = off := hbase
        omega
      rw [meets_pure]
      refine ⟨⟨cs'', hsought.trans hreach.toSought, ?_, ?_, ?_, ?_, ?_⟩, ?_⟩
      · rw [hreach.offset_eq, hnewlen, hoff']
      · have hmono : (f.offset + bytes.length) / g.clustSize ≤
            (f.offset + (bytes.length + cnt)) / g.clustSize := Nat.div_le_div_right (by omega)
        rw [hreach.length_eq, hnewlen, hlen, hoff']
        omega
      · rw [hnewlen]
        show rem - cnt + _ = len
        omega
      · rw [hnewlen]
        omega
      · rw [hnewlen]
        exact hnew
      · show rem - cnt < rem
        omega
    · have hcur : Whence.curr.base f₁ + (cnt : Int) = ((f₁.offset + cnt : Nat) : Int) := by
        rw [Whence.base, Nat.cast_add]
      rw [hcur] at he
      rcases he with ⟨hout, _, _⟩ | ⟨off, hbase, _, rfl, hstuck⟩
      · omega
      obtain rfl : off = f₁.offset + cnt := by omega
      obtain ⟨hfull, rfl, hsame⟩ := hstuck.piece hsought.ok.offset_lt hpiece
      have hroom := room_mono (g := g) hsought.pre
      have hin := room_pos_iff.mp (by omega : f.offset + bytes.length < room g cs)
      refine ⟨fun x hx => ?_, fun hspent => by cases hspent⟩
      obtain rfl := Stop.error.inj hx
      rw [meets_pure]
      have hcs : cs' = cs := (hsought.pre.eq_of_length (by omega)).symm
      subst hcs
      refine ⟨_, hsought.trans (hsame.sought hg hsought.ok), ?_, fun hnone => (by cases hnone),
        fun hnone => (by cases hnone),
        fun e he => ⟨(Option.some.inj he).symm, hstuck.full, rfl, ?_⟩⟩
      · show bytes ++ _ = _
        rw [hnew]
        congr 1
        omega
      · show f.offset + (bytes ++ _).length = _ ∧ f.offset ≤ s.2.offset ∧
          s.2.offset < f.offset + (bytes ++ _).length ∧
          f.offset + (bytes ++ _).length ≤ s.2.offset + 512
        rw [hnewlen]
        omega
  next hstop =>
    simp only [hsz] at hstop
    rw [meets_pure]
    refine ⟨cs', hsought, ?_, fun _ => hoff, fun _ => hlen, fun e he => by cases he⟩
    show bytes = _
    rw [hbytes]
    congr 1
    omega

/-- `fat_file_read` gives the bytes of the file that are asked for, as many as there are. -/
theorem fileRead_spec (hg : g.Laid) (hv : Fit g v) (hok : FileOk g cs v f)
    (hn : 2 * g.clustCnt < n) (hread : f.flags.read = true) (hsize : f.size ≤ room g cs)
    (hsize' : f.size < 2 ^ 32) (len : Nat) :
    Meets (fileRead g n len) (v, f)
      (fun r s => ∃ cs', ReadOut g cs v { f with flags.accessed := true } len r cs' s.1 s.2)
      fun _ _ => False := by
  rw [fileRead, meets_bind, meets_getFile]
  rw [if_neg (by simp [hok.fat]), if_neg (by simp [hread]), meets_bind, meets_setFile]
  have hok₀ : FileOk g cs v { f with flags.accessed := true } :=
    ⟨hok.fat, hok.chain, hok.data, hok.head, hok.clust, hok.sect, hok.buf, hok.key⟩
  have hlen := (List.getElem?_eq_some_iff.mp hok.clust).1
  refine meets_loop_of_lt
    (I := fun i s => ∃ cs', Reading g cs v { f with flags.accessed := true } len i cs' s)
    (μ := fun i _ => i.1) (fun i s hi => ?_)
    ⟨cs, hok₀.sought hv, rfl, ?_, rfl, Nat.zero_le _, rfl⟩ (Nat.lt_succ_self len)
  · obtain ⟨cs', hi⟩ := hi
    exact readStep_spec (f := { f with flags.accessed := true }) hg hn hsize hsize' hi
  · show cs.length = max cs.length (f.offset / g.clustSize + 1)
    omega

/-! ## `fat_file_write` -/

/-- The bytes from the cursor on are those of the source, the other ones are what they were. -/
def Overwritten (g : Geometry) (cs : List Nat) (v : Volume) (f : File) (bytes : List (BitVec 8))
    (cs' : List Nat) (t : Volume) (f' : File) : Prop :=
  ∀ o, o < room g cs ∨ f.offset ≤ o ∧ o < f.offset + bytes.length →
    content g cs' t f' o = Tape.splice (content g cs v f) f.offset bytes o

/-- What holds before each round of `fat_file_write`. -/
structure Writing (g : Geometry) (cs : List Nat) (v : Volume) (f : File) (src : List (BitVec 8))
    (i : List (BitVec 8) × Nat) (cs' : List Nat) (s : Volume × File) : Prop where
  worked : Worked g cs v f cs' s.1 s.2
  offset_eq : s.2.offset = f.offset + i.2
  length_eq : cs'.length = max cs.length ((f.offset + i.2) / g.clustSize + 1)
  left : i.1 = src.drop i.2
  within : i.2 ≤ src.length
  range : f.offset + i.2 < 2 ^ 32
  bytes : Overwritten g cs v f (src.take i.2) cs' s.1 s.2

/-- The cursor stays in front of the last piece, which ends where offsets or clusters end. -/
structure Halted (g : Geometry) (f : File) (cnt : Nat) (cs' : List Nat) (t : Volume) (f' : File) :
    Prop where
  ahead : f.offset ≤ f'.offset
  behind : f'.offset < f.offset + cnt
  near : f.offset + cnt ≤ f'.offset + 512
  cause : f.offset + cnt = 2 ^ 32 ∨ (t.free g).card ≤ 1 ∧ f.offset + cnt = room g cs'

/-- What the loop of `fat_file_write` gives. -/
structure WriteOut (g : Geometry) (cs : List Nat) (v : Volume) (f : File) (src : List (BitVec 8))
    (cnt : Nat) (cs' : List Nat) (t : Volume) (f' : File) : Prop
    extends Worked g cs v f cs' t f' where
  within : cnt ≤ src.length
  range : f'.offset < 2 ^ 32
  bytes : Overwritten g cs v f (src.take cnt) cs' t f'
  length_eq : cs'.length = max cs.length (f'.offset / g.clustSize + 1)
  ends : cnt = src.length ∧ f'.offset = f.offset + cnt ∨ Halted g f cnt cs' t f'

/-- One more piece behind what has been written. -/
theorem Overwritten.put {xs ys : List (BitVec 8)} (h : Overwritten g cs v f xs cs' u f')
    (hoff : f'.offset = f.offset + xs.length) (hcnt : f'.offset % 512 + ys.length ≤ 512) :
    Overwritten g cs v f (xs ++ ys) cs' u (f'.put ys) := by
  intro o ho
  rw [content_put hcnt, Tape.splice_append, ← hoff]
  refine Tape.splice_congr fun hout => h o ?_
  rw [List.length_append] at ho
  omega

theorem Overwritten.sought {xs : List (BitVec 8)} {f'' : File}
    (h : Overwritten g cs v f xs cs' u f') (hs : Sought g cs' u f' cs'' t f'')
    (hcs : cs <+: cs') (hroom : f.offset + xs.length ≤ room g cs') :
    Overwritten g cs v f xs cs'' t f'' := fun o ho => by
  have hle := room_mono (g := g) hcs
  rw [hs.content_eq o (by omega), h o ho]

theorem Worked.put (h : Worked g cs v f cs' u f') (bytes : List (BitVec 8)) :
    Worked g cs v f cs' u (f'.put bytes) where
  ok := h.ok.put bytes
  fit := h.fit
  kin := ⟨h.kin.fat, h.kin.sclust, h.kin.size, h.kin.dirSect, h.kin.dirIdx,
    by rw [File.put, h.kin.flags]⟩
  pre := h.pre
  keyed := h.keyed
  apart := h.apart
  count := h.count
  view_eq := h.view_eq

theorem writeStep_spec (hg : g.Laid) (hn : 2 * g.clustCnt < n) {src : List (BitVec 8)}
    {i : List (BitVec 8) × Nat} {s : Volume × File} (h : Writing g cs v f src i cs' s) :
    Meets (writeStep g n i) s
      (fun r t => Sum.elim
        (fun j => (∃ cs'', Writing g cs v f src j cs'' t) ∧ j.1.length < i.1.length)
        (fun cnt => ∃ cs'', WriteOut g cs v f src cnt cs'' t.1 t.2) r)
      fun _ _ => False := by
  obtain ⟨rem, k⟩ := i
  obtain ⟨u, f₁⟩ := s
  obtain ⟨hworked, hoff, hlen, hleft, hwithin, hlt, hbytes⟩ := h
  simp only at hworked hoff hlen hleft hwithin hlt hbytes
  rw [writeStep, meets_bind, meets_getFile]
  split
  next hne =>
    dsimp only at hne ⊢
    have hrem : 0 < rem.length := List.length_pos_iff.mpr hne
    have hremlen : rem.length = src.length - k := by rw [hleft, List.length_drop]
    generalize hcnt : min rem.length (512 - f₁.offset % 512) = cnt
    obtain ⟨hpiece, hpos, hrest⟩ : f₁.offset % 512 + cnt ≤ 512 ∧ 0 < cnt ∧ cnt ≤ rem.length := by
      omega
    clear hcnt
    have hwithin' : k + cnt ≤ src.length := by omega
    have hpiecelen : (rem.take cnt).length = cnt := by
      rw [List.length_take]
      omega
    have htaken : src.take k ++ rem.take cnt = src.take (k + cnt) := by
      rw [hleft, List.take_add]
    have hk : (src.take k).length = k := by
      rw [List.length_take]
      omega
    have hput : Overwritten g cs v f (src.take k ++ rem.take cnt) cs' u
        (f₁.put (rem.take cnt)) := hbytes.put (by rw [hk, hoff]) (by rw [hpiecelen]; omega)
    rw [htaken] at hput
    have hin : f.offset + (k + cnt) ≤ room g cs' := by
      have := piece_le_room hworked.ok.offset_lt hpiece
      omega
    have htakelen : (src.take (k + cnt)).length = k + cnt := by
      rw [List.length_take]
      omega
    have hworked' := hworked.put (rem.take cnt)
    have hhalted {w : Volume} (hcause : f.offset + (k + cnt) = 2 ^ 32 ∨
        (w.free g).card ≤ 1 ∧ f.offset + (k + cnt) = room g cs') :
        Halted g f (k + cnt) cs' w (f₁.put (rem.take cnt)) := by
      have hahead : f.offset ≤ f₁.offset := by omega
      have hbehind : f₁.offset < f.offset + (k + cnt) := by omega
      have hnear : f.offset + (k + cnt) ≤ f₁.offset + 512 := by omega
      exact ⟨hahead, hbehind, hnear, hcause⟩
    have hlen' : cs'.length =
        max cs.length ((f₁.put (rem.take cnt)).offset / g.clustSize + 1) := by
      rw [hlen, ← hoff]
      rfl
    rw [meets_bind, meets_setFile, meets_bind, meets_attempt]
    refine (fileSeek_spec (f := f₁.put (rem.take cnt)) hg hworked.fit hworked'.ok hn cnt
      .curr).mono (fun _ s hs => ?_) fun e s he => ?_
    · obtain ⟨off, hbase, hrange, cs'', hreach⟩ := hs
      have hoff' : off = f.offset + (k + cnt) := by
        have : ((f₁.offset : Int) + cnt) = off := hbase
        omega
      rw [meets_pure]
      refine ⟨⟨cs'', hworked'.trans hreach.toWorked, ?_, ?_, ?_, ?_, ?_, ?_⟩, ?_⟩
      · rw [hreach.offset_eq, hoff']
      · have hmono : (f.offset + k) / g.clustSize ≤ (f.offset + (k + cnt)) / g.clustSize :=
          Nat.div_le_div_right (by omega)
        show cs''.length = max cs.length ((f.offset + (k + cnt)) / g.clustSize + 1)
        rw [hreach.length_eq, hlen, hoff']
        omega
      · show rem.drop cnt = src.drop (k + cnt)
        rw [hleft, List.drop_drop]
      · exact hwithin'
      · show f.offset + (k + cnt) < 2 ^ 32
        omega
      · exact hput.sought hreach.toSought hworked.pre (by rw [htakelen]; exact hin)
      · show (rem.drop cnt).length < rem.length
        rw [List.length_drop]
        omega
    · refine ⟨fun x hx => ?_, fun hspent => ?_⟩
      · rw [meets_pure]
        have hcur : Whence.curr.base (f₁.put (rem.take cnt)) + (cnt : Int) =
            ((f₁.offset + cnt : Nat) : Int) := by
          rw [Whence.base, Nat.cast_add]
          rfl
        rw [hcur] at he
        rcases he with ⟨hout, _, rfl⟩ | ⟨off, hbase, _, _, hstuck⟩
        · have hlimit : f.offset + (k + cnt) = 2 ^ 32 := by omega
          exact ⟨cs', hworked', hwithin', hoff ▸ hlt, hput, hlen', .inr (hhalted (.inl hlimit))⟩
        · obtain rfl : off = f₁.offset + cnt := by omega
          obtain ⟨hend, hf, hsame⟩ :=
            Stuck.piece (f := f₁.put (rem.take cnt)) hstuck hworked'.ok.offset_lt hpiece
          have hfull : f.offset + (k + cnt) = room g cs' := by
            rw [← hend]
            show _ = f₁.offset + cnt
            omega
          obtain ⟨w, f₂⟩ := s
          obtain rfl : f₂ = f₁.put (rem.take cnt) := hf
          have hsought := hsame.sought hg hworked'.ok
          exact ⟨cs', hworked'.trans hsought.toWorked, hwithin', hoff ▸ hlt,
            hput.sought hsought hworked.pre (by rw [htakelen]; exact hin), hlen',
            .inr (hhalted (.inr ⟨hstuck.full, hfull⟩))⟩
      · rcases he with ⟨_, rfl, _⟩ | ⟨_, _, _, rfl, _⟩ <;> cases hspent
  next hstop =>
    have hall : k = src.length := by
      have hempty : rem.length = 0 := by
        have : rem = [] := by simpa using hstop
        rw [this, List.length_nil]
      rw [hleft, List.length_drop] at hempty
      omega
    rw [meets_pure]
    exact ⟨cs', hworked, hwithin, hoff ▸ hlt, hbytes, hoff ▸ hlen, .inl ⟨hall, hoff⟩⟩

/-- `fat_file_write` puts all of the bytes into the file, or as many as there is room for, and
tells how many. -/
theorem fileWrite_spec (hg : g.Laid) (hv : Fit g v) (hok : FileOk g cs v f)
    (hn : 2 * g.clustCnt < n) (hwrite : f.flags.write = true) (hoff : f.offset < 2 ^ 32)
    (src : List (BitVec 8)) :
    Meets (fileWrite g n src) (v, f)
      (fun r s => r.2 = none ∧ ∃ cs' f₁,
        WriteOut g cs v { f with flags.modified := true, flags.accessed := true } src r.1 cs'
          s.1 f₁ ∧
        s.2 = { f₁ with size := max f.size f₁.offset })
      fun _ _ => False := by
  rw [fileWrite, meets_bind, meets_getFile]
  rw [if_neg (by simp [hok.fat]), if_neg (by simp [hwrite]), meets_bind, meets_setFile, meets_bind]
  generalize hf₀ : { f with flags.modified := true, flags.accessed := true } = f₀
  have hok₀ : FileOk g cs v f₀ := by
    subst hf₀
    exact ⟨hok.fat, hok.chain, hok.data, hok.head, hok.clust, hok.sect, hok.buf, hok.key⟩
  have hsize : f₀.size = f.size := by rw [← hf₀]
  have hoff₀ : f₀.offset < 2 ^ 32 := by rwa [← hf₀]
  have hlen := (List.getElem?_eq_some_iff.mp hok₀.clust).1
  have hloop : Meets (loop (writeStep g n) (src.length + 1) (src, 0)) (v, f₀)
      (fun cnt t => ∃ cs', WriteOut g cs v f₀ src cnt cs' t.1 t.2) fun _ _ => False := by
    refine meets_loop_of_lt (I := fun i s => ∃ cs', Writing g cs v f₀ src i cs' s)
      (μ := fun i _ => i.1.length) (fun i s hi => ?_)
      ⟨cs, (hok₀.sought hv).toWorked, rfl, ?_, rfl, Nat.zero_le _, hoff₀, ?_⟩
      (Nat.lt_succ_self src.length)
    · obtain ⟨cs', hi⟩ := hi
      exact writeStep_spec hg hn hi
    · show cs.length = max cs.length (f₀.offset / g.clustSize + 1)
      omega
    · intro o _
      rw [List.take_zero, Tape.splice_nil]
  refine hloop.mono (fun cnt s hs => ?_) fun _ _ he => he
  obtain ⟨cs', hs⟩ := hs
  rw [meets_bind, meets_setFile, meets_pure]
  refine ⟨rfl, cs', s.2, hs, ?_⟩
  have hsize' : s.2.size = f.size := hs.kin.size.trans hsize
  have hmax : (if s.2.offset > s.2.size then s.2.offset else s.2.size) =
      max f.size s.2.offset := by
    split <;> omega
  rw [hmax]

end Demoos.Fat
