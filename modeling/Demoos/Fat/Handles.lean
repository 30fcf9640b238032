import Demoos.Fat.Syncing

/-!
# Many open files

The purpose of an open file is a tape of bytes with a size and a cursor, the `Handle` below.
Its room comes in units that all files of the volume draw from, and that is all they have in
common.  Reading, writing, seeking and synchronizing any number of open files, in any order,
gives what their tapes give: no file sees what happens to another, through the one buffer of the
volume or through the table of clusters.

A call that finds no more room than one unit may fail: the search for a free cluster never looks
at the one in front of the place where it begins.  A write behind the end of a file leaves bytes
between them that were never written (`fill`).  A seek that finds the volume full can leave the
cluster of its file ahead of the cursor.  Such a file is given up here, and the others are not
affected.
-/

namespace Demoos.Fat

open Program
open Chains (Cell Chain Apart)
open Tape (window)

/-! ## The purpose -/

inductive Request where
  | read (len : Nat)
  | write (src : List Byte)
  | seek (offset : Int) (whence : Whence)
  | sync
deriving DecidableEq

structure Reply where
  bytes : List Byte
  count : Nat
  error : Option FatError
deriving DecidableEq

/-- A tape of bytes, as far as its size, with a cursor within its room. -/
structure Handle where
  size : Nat
  cursor : Nat
  room : Nat
  bytes : Nat → Byte
  readable : Bool
  writable : Bool

/-- Open files, and the number of units that none of them has. -/
structure Shelf where
  free : Nat
  handles : List (Option Handle)

/-- The cursor is in the last piece of those `n` bytes. -/
def Short (start n cursor : Nat) : Prop :=
  start ≤ cursor ∧ cursor < start + n ∧ start + n ≤ cursor + 512

/-- The room for a cursor in place `c`, in units of `s` bytes. -/
def Grows (s room free c room' free' : Nat) : Prop :=
  room' = max room ((c / s + 1) * s) ∧ Conserved s room free room' free'

/-- Where a seek begins. -/
def Handle.base (h : Handle) : Whence → Nat
  | .start => 0
  | .curr => h.cursor
  | .end => h.size

/-- A handle that bytes have been put into.  What is in front of them comes from `fill`. -/
def Handle.put (h : Handle) (fill : Nat → Byte) (src : List Byte) (c room : Nat) : Handle :=
  { h with bytes := Tape.splice fill h.cursor src, size := max h.size c, cursor := c, room := room }

/-- What a handle answers, and what it is afterwards unless it is given up. -/
inductive Handle.Answers (s free : Nat) (h : Handle) :
    Request → Reply → Nat → Option Handle → Prop
  | readDenied {len : Nat} (hmode : h.readable = false) :
    Answers s free h (.read len) ⟨[], 0, some .denied⟩ free (some h)
  | read {len c room free' : Nat} {bytes : List Byte} (hmode : h.readable = true)
    (hbytes : bytes = window h.bytes h.cursor (min len (h.size - h.cursor)))
    (hcursor : c = h.cursor + bytes.length) (hroom : Grows s h.room free c room free') :
    Answers s free h (.read len) ⟨bytes, bytes.length, none⟩ free'
      (some { h with cursor := c, room := room })
  -- All bytes have been read, and there is nothing behind them for the cursor to stand on.
  | readFull {len c : Nat} {bytes : List Byte} (hmode : h.readable = true)
    (hbytes : bytes = window h.bytes h.cursor (min len (h.size - h.cursor)))
    (hcursor : Short h.cursor bytes.length c) (hend : h.cursor + bytes.length = h.size)
    (hroom : h.size = h.room) (hfull : free ≤ 1) :
    Answers s free h (.read len) ⟨bytes, bytes.length, some .full⟩ free
      (some { h with cursor := c })
  | writeDenied {src : List Byte} (hmode : h.writable = false) :
    Answers s free h (.write src) ⟨[], 0, some .denied⟩ free (some h)
  | write {src : List Byte} {c room free' : Nat} {fill : Nat → Byte} (hmode : h.writable = true)
    (hfill : ∀ o < h.size, fill o = h.bytes o) (hcursor : c = h.cursor + src.length)
    (hrange : c < 2 ^ 32) (hroom : Grows s h.room free c room free') :
    Answers s free h (.write src) ⟨[], src.length, none⟩ free' (some (h.put fill src c room))
  -- The bytes end where offsets end, or where the room of the file does.
  | writeShort {src : List Byte} {n c room free' : Nat} {fill : Nat → Byte}
    (hmode : h.writable = true) (hfill : ∀ o < h.size, fill o = h.bytes o)
    (hcount : n ≤ src.length) (hcursor : Short h.cursor n c)
    (hroom : Grows s h.room free c room free')
    (hcause : h.cursor + n = 2 ^ 32 ∨ free' ≤ 1 ∧ h.cursor + n = room) :
    Answers s free h (.write src) ⟨[], n, none⟩ free'
      (some (h.put fill (src.take n) c room))
  | seek {offset : Int} {whence : Whence} {c room free' : Nat}
    (hcursor : h.base whence + offset = (c : Int)) (hrange : c < 2 ^ 32)
    (hroom : Grows s h.room free c room free') :
    Answers s free h (.seek offset whence) ⟨[], 0, none⟩ free'
      (some { h with cursor := c, room := room })
  | seekOut {offset : Int} {whence : Whence}
    (hout : h.base whence + offset < 0 ∨ 2 ^ 32 ≤ h.base whence + offset) :
    Answers s free h (.seek offset whence) ⟨[], 0, some .eof⟩ free (some h)
  | seekFull {offset : Int} {whence : Whence} {c room free' : Nat}
    (hcursor : h.base whence + offset = (c : Int)) (hrange : c < 2 ^ 32) (hmore : h.room ≤ room)
    (hroom : room ≤ c) (hconserved : Conserved s h.room free room free') (hfull : free' ≤ 1) :
    Answers s free h (.seek offset whence) ⟨[], 0, some .full⟩ free' none
  | sync : Answers s free h .sync ⟨[], 0, none⟩ free (some h)

/-- One request to one of many handles. -/
inductive Handle.Next (s : Nat) : Shelf → Nat × Request × Reply → Shelf → Prop
  | mk {a : Shelf} {i : Nat} {h : Handle} {q : Request} {r : Reply} {free' : Nat}
    {h' : Option Handle} (hi : a.handles[i]? = some (some h))
    (hans : h.Answers s a.free q r free' h') :
    Next s a (i, q, r) ⟨free', a.handles.set i h'⟩

/-! ## The code -/

/-- A request as a call. -/
def perform (g : Geometry) (n : Nat) (ts : Timestamp) : Request → FileM Reply
  | .read len => do
      let r ← fileRead g n len
      pure ⟨r.1, r.1.length, r.2⟩
  | .write src => do
      let r ← fileWrite g n src
      pure ⟨[], r.1, r.2⟩
  | .seek offset whence => do
      match ← attempt (fileSeek g n offset whence) with
      | .ok _ => pure ⟨[], 0, none⟩
      | .error e => pure ⟨[], 0, some e⟩
  | .sync => do
      match ← attempt (fileSync g ts) with
      | .ok _ => pure ⟨[], 0, none⟩
      | .error e => pure ⟨[], 0, some e⟩

/-- A file that a seek has found no room for is given up. -/
def kept (q : Request) (r : Reply) (f : File) : Option File :=
  match q with
  | .seek .. => if r.error = some .full then none else some f
  | _ => some f

/-- One call on one of many files of a volume. -/
inductive Call (g : Geometry) (n : Nat) (ts : Timestamp) :
    Volume × List (Option File) → Nat × Request × Reply → Volume × List (Option File) → Prop
  | mk {v t : Volume} {fs : List (Option File)} {i : Nat} {f f' : File} {q : Request} {r : Reply}
    (hi : fs[i]? = some (some f)) (hrun : perform g n ts q (v, f) = .ok r (t, f')) :
    Call g n ts (v, fs) (i, q, r) (t, fs.set i (kept q r f'))

/-! ## One file -/

variable {g : Geometry} {v u t : Volume} {f f' f₀ : File} {cs cs' ds : List Nat} {n : Nat}
  {dirs : List (List Nat)} {h : Handle} {ts : Timestamp}

/-- An open file with the chain `cs`, which has its entry in one of the directories. -/
structure Opened (g : Geometry) (dirs : List (List Nat)) (cs : List Nat) (v : Volume) (f : File) :
    Prop extends FileOk g cs v f where
  size_le : f.size ≤ room g cs
  size_lt : f.size < 2 ^ 32
  offset_lt_pow : f.offset < 2 ^ 32
  entry : ∃ ds ∈ dirs, ∃ k < ds.length * g.spc, f.dirSect = fileSect g ds k

/-- What a file shows to its caller. -/
structure Shows (g : Geometry) (cs : List Nat) (v : Volume) (f : File) (h : Handle) : Prop where
  size_eq : h.size = f.size
  cursor_eq : h.cursor = f.offset
  room_eq : h.room = room g cs
  readable_eq : h.readable = f.flags.read
  writable_eq : h.writable = f.flags.write
  bytes_eq : ∀ o < f.size, h.bytes o = content g cs v f o

/-- A call does no harm to files and directories that are apart from its file. -/
def Spares (g : Geometry) (dirSect : Nat) (v : Volume) (cs' : List Nat) (t : Volume) : Prop :=
  ∀ rest ds f, Apart (t.cells g) (cs' :: rest) → ds ∈ rest →
    (∀ i < ds.length * g.spc, dirSect ≠ fileSect g ds i) → FileOk g ds v f →
    FileOk g ds t f ∧ ∀ o, o < room g ds → content g ds t f o = content g ds v f o

/-- What a call leaves behind. -/
structure Left (g : Geometry) (dirs : List (List Nat)) (cs : List Nat) (v : Volume) (f : File)
    (cs' : List Nat) (t : Volume) (f' : Option File) (h' : Option Handle) : Prop where
  fit : Fit g t
  data : InData g cs'
  apart : ∀ rest, Apart (v.cells g) (cs :: rest) → Apart (t.cells g) (cs' :: rest)
  spares : Spares g f.dirSect v cs' t
  shown : ∀ f₁, f' = some f₁ → ∃ h₁, h' = some h₁ ∧ Opened g dirs cs' t f₁ ∧ Shows g cs' t f₁ h₁

theorem Worked.left {h' : Option Handle} {f₁ : File} (hw : Worked g cs v f cs' t f') (hg : g.Laid)
    (hshown : ∃ h₁, h' = some h₁ ∧ Opened g dirs cs' t f₁ ∧ Shows g cs' t f₁ h₁) :
    Left g dirs cs v f cs' t (some f₁) h' where
  fit := hw.fit
  data := hw.ok.data
  apart := hw.apart
  spares _ _ _ hapart hds _ hok := hw.other hg hapart hds hok
  shown _ hf := Option.some.inj hf ▸ hshown

theorem Aside.of_entry (hg : g.Laid) (hdata : InData g ds) (hdirs : InData g cs)
    (hdisj : ∀ c ∈ ds, c ∉ cs) {k : Nat} (hk : k < ds.length * g.spc) :
    Aside g cs (fileSect g ds k) where
  pos := by
    have hlow := hg.low_lt _ (.inl (hg.inTables_itemSect Geometry.fat0_mem_tables
      (Nat.zero_lt_of_lt hg.clustCnt_pos)))
    have hc := hdata _ (getD_mem hk)
    rw [fileSect, hg.clustToSect_eq hc.1 hc.2]
    omega
  not_low := not_low_fileSect hg hdata hk
  ne _ hi := fileSect_ne hg hdata hdirs hdisj hk hi

theorem Opened.with_flags (ho : Opened g dirs cs v f) {flags : FileFlags}
    (hdirty : flags.dirty = f.flags.dirty) : Opened g dirs cs v { f with flags := flags } where
  fat := ho.fat
  chain := ho.chain
  data := ho.data
  head := ho.head
  clust := ho.clust
  sect := ho.sect
  buf hclean := ho.buf (hdirty ▸ hclean)
  key := ho.key
  size_le := ho.size_le
  size_lt := ho.size_lt
  offset_lt_pow := ho.offset_lt_pow
  entry := ho.entry

theorem Shows.with_flags (hs : Shows g cs v f h) {flags : FileFlags}
    (hread : flags.read = f.flags.read) (hwrite : flags.write = f.flags.write) :
    Shows g cs v { f with flags := flags } h :=
  ⟨hs.size_eq, hs.cursor_eq, hs.room_eq, hs.readable_eq.trans hread.symm,
    hs.writable_eq.trans hwrite.symm, hs.bytes_eq⟩

theorem Kin.read_eq (h : Kin f f') : f'.flags.read = f.flags.read := by rw [h.flags]

theorem Kin.write_eq (h : Kin f f') : f'.flags.write = f.flags.write := by rw [h.flags]

theorem Sought.opened (hs : Sought g cs v f cs' t f') (ho : Opened g dirs cs v f)
    (hoff : f'.offset < 2 ^ 32) : Opened g dirs cs' t f' where
  toFileOk := hs.ok
  size_le := by
    have hroom := room_mono (g := g) hs.pre
    have hsize := ho.size_le
    rw [hs.kin.size]
    omega
  size_lt := by
    rw [hs.kin.size]
    exact ho.size_lt
  offset_lt_pow := hoff
  entry := by
    rw [hs.kin.dirSect]
    exact ho.entry

theorem Sought.shows (hs : Sought g cs v f cs' t f') (hshow : Shows g cs v f h)
    (hle : f.size ≤ room g cs) :
    Shows g cs' t f' { h with cursor := f'.offset, room := room g cs' } where
  size_eq := hshow.size_eq.trans hs.kin.size.symm
  cursor_eq := rfl
  room_eq := rfl
  readable_eq := hshow.readable_eq.trans hs.kin.read_eq.symm
  writable_eq := hshow.writable_eq.trans hs.kin.write_eq.symm
  bytes_eq o ho := by
    rw [hs.kin.size] at ho
    rw [hs.content_eq o (by omega)]
    exact hshow.bytes_eq o ho

/-- What a chain gains in clusters is taken from the free ones. -/
theorem Shows.conserved (hshow : Shows g cs v f h)
    (hcount : (t.free g).card + cs'.length = (v.free g).card + cs.length) :
    Conserved g.clustSize h.room (v.free g).card (room g cs') (t.free g).card := by
  rw [hshow.room_eq]
  exact conserved_of_count g.clustSize hcount

theorem Worked.grows (hw : Worked g cs v f cs' t f') (hshow : Shows g cs v f₀ h) {off : Nat}
    (hlen : cs'.length = max cs.length (off / g.clustSize + 1)) :
    Grows g.clustSize h.room (v.free g).card off (room g cs') (t.free g).card :=
  ⟨by rw [hshow.room_eq, room, room, hlen, Nat.mul_max_mul_right], hshow.conserved hw.count⟩

/-- A call that only moves the cursor. -/
theorem Sought.left (hs : Sought g cs v f cs' t f') (hg : g.Laid) (ho : Opened g dirs cs v f)
    (hshow : Shows g cs v f h) (hoff : f'.offset < 2 ^ 32) :
    Left g dirs cs v f cs' t (some f')
      (some { h with cursor := f'.offset, room := room g cs' }) :=
  hs.toWorked.left hg ⟨_, rfl, hs.opened ho hoff, hs.shows hshow ho.size_le⟩

theorem Opened.left (ho : Opened g dirs cs v f) (hg : g.Laid) (hv : Fit g v)
    (hshow : Shows g cs v f h) : Left g dirs cs v f cs v (some f) (some h) := by
  have hleft := (ho.toFileOk.sought hv).left hg ho hshow ho.offset_lt_pow
  rwa [← hshow.cursor_eq, ← hshow.room_eq] at hleft

/-- The flags of a file are no concern of others. -/
theorem Left.of_flags {flags : FileFlags} {o : Option File} {h' : Option Handle}
    (hl : Left g dirs cs v { f with flags := flags } cs' t o h') : Left g dirs cs v f cs' t o h' :=
  ⟨hl.fit, hl.data, hl.apart, hl.spares, hl.shown⟩

/-- A call has been answered as the handle of its file answers. -/
def Answered (g : Geometry) (dirs : List (List Nat)) (cs : List Nat) (v : Volume) (f : File)
    (h : Handle) (q : Request) (r : Reply) (s : Volume × File) : Prop :=
  ∃ cs' h', h.Answers g.clustSize (v.free g).card q r (s.1.free g).card h' ∧
    Left g dirs cs v f cs' s.1 (kept q r s.2) h'

theorem read_answers (hg : g.Laid) (hv : Fit g v) (ho : Opened g dirs cs v f)
    (hshow : Shows g cs v f h) (hn : 2 * g.clustCnt < n) (len : Nat) :
    Meets (perform g n ts (.read len)) (v, f) (Answered g dirs cs v f h (.read len))
      fun _ _ => False := by
  rw [perform, meets_bind]
  cases hmode : f.flags.read with
  | false =>
      rw [fileRead, meets_bind, meets_getFile, if_neg (by simp [ho.fat]), if_pos (by simp [hmode])]
      exact ⟨cs, some h, .readDenied (hshow.readable_eq.trans hmode), ho.left hg hv hshow⟩
  | true =>
      refine (fileRead_spec hg hv ho.toFileOk hn hmode ho.size_le ho.size_lt len).mono
        (fun r s hr => ?_) fun _ _ he => he
      obtain ⟨bytes, error⟩ := r
      obtain ⟨t, f'⟩ := s
      obtain ⟨cs', hr⟩ := hr
      have hbytes : bytes = window (content g cs v f) f.offset (min len (f.size - f.offset)) :=
        hr.bytes
      have hlen : bytes.length = min len (f.size - f.offset) := by
        rw [hbytes, Tape.length_window]
      have hshown : bytes = window h.bytes h.cursor (min len (h.size - h.cursor)) := by
        rw [hbytes, hshow.size_eq, hshow.cursor_eq]
        refine Tape.window_congr fun i hi => ?_
        exact (hshow.bytes_eq _ (by omega)).symm
      have hsize := ho.size_lt
      have hoff := ho.offset_lt_pow
      have hleft (hrange : f'.offset < 2 ^ 32) :=
        (hr.toSought.left hg (ho.with_flags rfl) (hshow.with_flags rfl rfl) hrange).of_flags
      cases error with
      | none =>
          have hcursor : f'.offset = f.offset + bytes.length := hr.offset_eq rfl
          have hgrows : Grows g.clustSize h.room (v.free g).card f'.offset (room g cs')
              (t.free g).card := hr.grows hshow (hcursor ▸ hr.length_eq rfl)
          exact ⟨cs', _, .read (hshow.readable_eq.trans hmode) hshown
            (hshow.cursor_eq ▸ hcursor) hgrows, hleft (by omega)⟩
      | some e =>
          obtain ⟨rfl, hfree, rfl, hends⟩ := hr.full e rfl
          obtain ⟨hend, hahead, hbehind, hnear⟩ : f.offset + bytes.length = room g cs' ∧
            f.offset ≤ f'.offset ∧ f'.offset < f.offset + bytes.length ∧
            f.offset + bytes.length ≤ f'.offset + 512 := hends
          have hroom := ho.size_le
          have hin := ho.offset_lt
          have hcount : (t.free g).card = (v.free g).card := Nat.add_right_cancel hr.count
          have hfull := hleft (by omega)
          rw [← hshow.room_eq] at hfull
          refine ⟨cs', _, ?_, hfull⟩
          show h.Answers _ _ _ _ (t.free g).card _
          rw [hcount]
          refine .readFull (hshow.readable_eq.trans hmode) hshown ?_ ?_ ?_ (hcount ▸ hfree)
          · rw [hshow.cursor_eq]
            exact ⟨hahead, hbehind, hnear⟩
          · rw [hshow.cursor_eq, hshow.size_eq]
            show f.offset + bytes.length = f.size
            omega
          · rw [hshow.size_eq, hshow.room_eq]
            omega

/-- What a handle takes from the clusters of its file where it has no bytes of its own. -/
def Handle.fill (h : Handle) (g : Geometry) (cs : List Nat) (v : Volume) (f : File) : Nat → Byte :=
  fun o => if o < h.size then h.bytes o else content g cs v f o

theorem Handle.fill_of_lt {o : Nat} (ho : o < h.size) : h.fill g cs v f o = h.bytes o := if_pos ho

/-- What a file shows once bytes have been put into it. -/
theorem Overwritten.shows {src : List Byte} (hb : Overwritten g cs v f src cs' t f')
    (hshow : Shows g cs v f h) (hle : f.size ≤ room g cs) (o : Nat) :
    Tape.splice (h.fill g cs' t f') h.cursor src o = content g cs' t f' o := by
  rw [hshow.cursor_eq]
  by_cases hin : o < f.size ∨ f.offset ≤ o ∧ o < f.offset + src.length
  · rw [hb o (by omega)]
    refine Tape.splice_congr fun hout => ?_
    have hlt : o < f.size := by omega
    rw [Handle.fill_of_lt (by rw [hshow.size_eq]; exact hlt)]
    exact hshow.bytes_eq o hlt
  · have hfill : h.fill g cs' t f' o = content g cs' t f' o :=
      if_neg (by rw [hshow.size_eq]; omega)
    rcases Nat.lt_or_ge o f.offset with hlt | hge
    · rw [Tape.splice_of_lt hlt, hfill]
    · rw [Tape.splice_of_le (by omega), hfill]

/-- A call that has put bytes into its file. -/
theorem WriteOut.left {src : List Byte} {cnt : Nat} (hw : WriteOut g cs v f src cnt cs' t f')
    (hg : g.Laid) (ho : Opened g dirs cs v f) (hshow : Shows g cs v f h) :
    Left g dirs cs v f cs' t (some { f' with size := max f.size f'.offset })
      (some (h.put (h.fill g cs' t f') (src.take cnt) f'.offset (room g cs'))) := by
  refine hw.toWorked.left hg ⟨_, rfl, ⟨⟨hw.ok.fat, hw.ok.chain, hw.ok.data, hw.ok.head, hw.ok.clust,
    hw.ok.sect, hw.ok.buf, hw.ok.key⟩, ?_, ?_, hw.range, ?_⟩, ?_⟩
  · show max f.size f'.offset ≤ room g cs'
    have hroom := room_mono (g := g) hw.pre
    have hin := hw.ok.offset_lt
    have hsize := ho.size_le
    omega
  · show max f.size f'.offset < 2 ^ 32
    have hlt := ho.size_lt
    have hrange := hw.range
    omega
  · show ∃ ds ∈ dirs, ∃ k < ds.length * g.spc, f'.dirSect = fileSect g ds k
    rw [hw.kin.dirSect]
    exact ho.entry
  · refine ⟨by rw [Handle.put, hshow.size_eq], rfl, rfl,
      hshow.readable_eq.trans hw.kin.read_eq.symm,
      hshow.writable_eq.trans hw.kin.write_eq.symm, fun o _ => ?_⟩
    exact hw.bytes.shows hshow ho.size_le o

theorem write_answers (hg : g.Laid) (hv : Fit g v) (ho : Opened g dirs cs v f)
    (hshow : Shows g cs v f h) (hn : 2 * g.clustCnt < n) (src : List Byte) :
    Meets (perform g n ts (.write src)) (v, f) (Answered g dirs cs v f h (.write src))
      fun _ _ => False := by
  rw [perform, meets_bind]
  cases hmode : f.flags.write with
  | false =>
      rw [fileWrite, meets_bind, meets_getFile, if_neg (by simp [ho.fat]),
        if_pos (by simp [hmode])]
      exact ⟨cs, some h, .writeDenied (hshow.writable_eq.trans hmode), ho.left hg hv hshow⟩
  | true =>
      refine (fileWrite_spec hg hv ho.toFileOk hn hmode ho.offset_lt_pow src).mono
        (fun r s hr => ?_) fun _ _ he => he
      obtain ⟨cnt, error⟩ := r
      obtain ⟨t, f'⟩ := s
      obtain ⟨hnone, cs', f₁, hw, rfl⟩ := hr
      obtain rfl : error = none := hnone
      dsimp only at hw
      have hleft := (hw.left hg (ho.with_flags rfl) (hshow.with_flags rfl rfl)).of_flags
      have hgrows := hw.grows hshow hw.length_eq
      have hrange := hw.range
      rcases hw.ends with ⟨rfl, hoff⟩ | hhalt
      · rw [List.take_length] at hleft
        exact ⟨cs', _, .write (hshow.writable_eq.trans hmode) (fun _ => Handle.fill_of_lt)
          (hshow.cursor_eq ▸ hoff) hrange hgrows, hleft⟩
      · obtain ⟨hahead, hbehind, hnear, hcause⟩ := hhalt
        refine ⟨cs', _, .writeShort (hshow.writable_eq.trans hmode)
          (fun _ => Handle.fill_of_lt) hw.within ?_ hgrows ?_, hleft⟩
        · rw [hshow.cursor_eq]
          exact ⟨hahead, hbehind, hnear⟩
        · rw [hshow.cursor_eq]
          exact hcause

theorem Whence.base_eq (hshow : Shows g cs v f h) (whence : Whence) :
    whence.base f = h.base whence := by
  cases whence with
  | start => rfl
  | curr => exact hshow.cursor_eq.symm
  | «end» => exact hshow.size_eq.symm

theorem Grown.left (hgrown : Grown g cs v cs' t) (hg : g.Laid) :
    Left g dirs cs v f cs' t none none where
  fit := hgrown.fit
  data := hgrown.data
  apart := hgrown.apart
  spares _ _ _ hapart hds _ hok := hgrown.other hg hapart hds hok
  shown _ hf := by cases hf

theorem seek_answers (hg : g.Laid) (hv : Fit g v) (ho : Opened g dirs cs v f)
    (hshow : Shows g cs v f h) (hn : 2 * g.clustCnt < n) (offset : Int) (whence : Whence) :
    Meets (perform g n ts (.seek offset whence)) (v, f)
      (Answered g dirs cs v f h (.seek offset whence)) fun _ _ => False := by
  have hbase := Whence.base_eq hshow whence
  rw [perform, meets_bind, meets_attempt]
  refine (fileSeek_spec hg hv ho.toFileOk hn offset whence).mono (fun _ s hs => ?_)
    fun e s he => ?_
  · obtain ⟨off, hoff, hrange, cs', hreach⟩ := hs
    refine ⟨cs', _, .seek (hbase ▸ hoff) hrange (hreach.grows hshow hreach.length_eq), ?_⟩
    have hleft := hreach.toSought.left hg ho hshow (hreach.offset_eq ▸ hrange)
    rw [hreach.offset_eq] at hleft
    exact hleft
  · rcases he with ⟨hout, rfl, rfl⟩ | ⟨off, hoff, hrange, rfl, hstuck⟩
    · refine ⟨fun x hx => ?_, fun hspent => by cases hspent⟩
      obtain rfl := Stop.error.inj hx
      exact ⟨cs, some h, .seekOut (hbase ▸ hout), ho.left hg hv hshow⟩
    · refine ⟨fun x hx => ?_, fun hspent => by cases hspent⟩
      obtain rfl := Stop.error.inj hx
      obtain ⟨cs', hgrown, hle⟩ := hstuck.grown
      refine ⟨cs', none, .seekFull (hbase ▸ hoff) hrange ?_ hle
        (hshow.conserved hgrown.count) hstuck.full, hgrown.left hg⟩
      rw [hshow.room_eq]
      exact room_mono hgrown.pre

theorem SyncOut.spares (hs : SyncOut g cs v f ts t f') (hg : g.Laid) (hok : FileOk g cs v f) :
    Spares g f.dirSect v cs t := fun rest ds f₂ hapart hds hdir hok₂ => by
  have hdisj := notMem_of_apart hapart hds
  refine hok₂.frame (hapart.chain ds (List.mem_cons_of_mem _ hds)) (fun i hi => ?_) fun i hi => ?_
  · refine hs.view_eq _ (not_low_fileSect hg hok₂.data hi) (hdir i hi).symm ?_
    rw [hok.sect]
    exact (fileSect_ne hg hok.data hok₂.data hdisj (lt_room_iff.mp hok.offset_lt) hi).symm
  · rcases hs.key with heq | hlow | heq
    · rw [heq]
      exact hok₂.key i hi
    · exact fun he => not_low_fileSect hg hok₂.data hi (he ▸ hlow)
    · rw [heq]
      exact hdir i hi

theorem sync_answers (hg : g.Laid) (hv : Fit g v) (ho : Opened g dirs cs v f)
    (hshow : Shows g cs v f h) (hdir : Aside g cs f.dirSect) :
    Meets (perform g n ts .sync) (v, f) (Answered g dirs cs v f h .sync) fun _ _ => False := by
  rw [perform, meets_bind, meets_attempt]
  refine (fileSync_spec hg hv ho.toFileOk hdir).mono (fun _ s hs => ?_) fun _ _ he => he.elim
  obtain ⟨t, f'⟩ := s
  have hf' : f' = { f with flags := { f.flags with accessed := false, modified := false } } :=
    hs.file
  refine ⟨cs, some h, ?_, hs.fit, ho.data, fun rest hr => ?_, hs.spares hg ho.toFileOk,
    fun f₁ hf₁ => ⟨h, rfl, ?_, ?_⟩⟩
  · show h.Answers _ _ _ _ (t.free g).card _
    rw [free_congr hs.cells_eq]
    exact .sync
  · rw [hs.cells_eq]
    exact hr
  · obtain rfl : f' = f₁ := Option.some.inj hf₁
    have hbase : Opened g dirs cs v
        { f with flags := { f.flags with accessed := false, modified := false } } :=
      ho.with_flags rfl
    rw [← hf'] at hbase
    exact ⟨hs.ok, hbase.size_le, hbase.size_lt, hbase.offset_lt_pow, hbase.entry⟩
  · obtain rfl : f' = f₁ := Option.some.inj hf₁
    have hsize : f'.size = f.size := by rw [hf']
    refine ⟨hshow.size_eq.trans hsize.symm, ?_, hshow.room_eq, ?_, ?_, fun o hlt => ?_⟩
    · rw [hf']
      exact hshow.cursor_eq
    · rw [hf']
      exact hshow.readable_eq
    · rw [hf']
      exact hshow.writable_eq
    · rw [hsize] at hlt
      have hle := ho.size_le
      rw [hs.content_eq hg ho.toFileOk hdir (by omega)]
      exact hshow.bytes_eq o hlt

/-- A call ends, with an answer that the handle can give. -/
theorem perform_answers (hg : g.Laid) (hv : Fit g v) (ho : Opened g dirs cs v f)
    (hshow : Shows g cs v f h) (hdir : Aside g cs f.dirSect) (hn : 2 * g.clustCnt < n)
    (ts : Timestamp) (q : Request) :
    Meets (perform g n ts q) (v, f) (Answered g dirs cs v f h q) fun _ _ => False := by
  cases q with
  | read len => exact read_answers hg hv ho hshow hn len
  | write src => exact write_answers hg hv ho hshow hn src
  | seek offset whence => exact seek_answers hg hv ho hshow hn offset whence
  | sync => exact sync_answers hg hv ho hshow hdir

/-! ## Many files -/

/-- The open files of a volume with the handles that they show.  The chains of files and
directories share no cluster. -/
structure Session (g : Geometry) (dirs : List (List Nat)) (s : Volume × List (Option File))
    (a : Shelf) (css : List (List Nat)) : Prop where
  fit : Fit g s.1
  free_eq : a.free = (s.1.free g).card
  apart : Apart (s.1.cells g) (css ++ dirs)
  data : ∀ ds ∈ dirs, InData g ds
  shown : ∀ (i : Nat) (f : File), s.2[i]? = some (some f) →
    ∃ (cs : List Nat) (h : Handle), css[i]? = some cs ∧ a.handles[i]? = some (some h) ∧
      Opened g dirs cs s.1 f ∧ Shows g cs s.1 f h

/-- The chain of one file in front of all others. -/
theorem perm_pick {css : List (List Nat)} {i : Nat} (hi : css[i]? = some cs) :
    (css ++ dirs).Perm (cs :: (css.eraseIdx i ++ dirs)) := by
  obtain ⟨hlt, rfl⟩ := List.getElem?_eq_some_iff.mp hi
  exact (List.getElem_cons_eraseIdx_perm hlt).symm.append_right dirs

theorem perm_set {css : List (List Nat)} {i : Nat} (hi : css[i]? = some cs) :
    (css.set i cs' ++ dirs).Perm (cs' :: (css.eraseIdx i ++ dirs)) := by
  obtain ⟨hlt, _⟩ := List.getElem?_eq_some_iff.mp hi
  exact (List.set_perm_cons_eraseIdx hlt cs').append_right dirs

/-- The entry of a file is in no cluster of an open file. -/
theorem Session.aside {s : Volume × List (Option File)} {a : Shelf}
    {css : List (List Nat)} (hses : Session g dirs s a css) (hg : g.Laid) (hcs : cs ∈ css)
    (hdata : InData g cs) {d k : Nat} (hds : ds ∈ dirs) (hk : k < ds.length * g.spc)
    (hd : d = fileSect g ds k) : Aside g cs d := by
  rw [hd]
  refine .of_entry hg (hses.data ds hds) hdata (fun c hc hin => ?_) hk
  have hnodup := hses.apart.nodup
  rw [List.flatten_append] at hnodup
  have hdisj := List.nodup_append.mp hnodup
  exact hdisj.2.2 c (List.mem_flatten.mpr ⟨cs, hcs, hin⟩) c (List.mem_flatten.mpr ⟨ds, hds, hc⟩) rfl

/-- One call keeps the session, and shows what the handle does. -/
theorem Session.step {v t : Volume} {fs : List (Option File)} {a : Shelf}
    {css : List (List Nat)} {i : Nat} {h' : Option Handle} {o : Option File}
    (hses : Session g dirs (v, fs) a css) (hg : g.Laid)
    (hi : fs[i]? = some (some f)) (hcs : css[i]? = some cs) (hleft : Left g dirs cs v f cs' t o h')
    (hentry : ∃ ds ∈ dirs, ∃ k < ds.length * g.spc, f.dirSect = fileSect g ds k)
    (hlen : i < a.handles.length) :
    Session g dirs (t, fs.set i o) ⟨(t.free g).card, a.handles.set i h'⟩ (css.set i cs') := by
  have hapart : Apart (t.cells g) (cs' :: (css.eraseIdx i ++ dirs)) :=
    hleft.apart _ (hses.apart.perm (perm_pick hcs))
  obtain ⟨ds, hds, k, hk, hd⟩ := hentry
  refine ⟨hleft.fit, rfl, hapart.perm (perm_set hcs).symm, hses.data, fun j f₂ hj => ?_⟩
  have hilt : i < fs.length := (List.getElem?_eq_some_iff.mp hi).1
  have hclt : i < css.length := (List.getElem?_eq_some_iff.mp hcs).1
  by_cases hij : i = j
  · subst hij
    dsimp only at hj
    rw [List.getElem?_set_self hilt] at hj
    obtain ⟨h₁, rfl, hopen, hshow⟩ := hleft.shown f₂ (Option.some.inj hj)
    exact ⟨cs', h₁, List.getElem?_set_self hclt, List.getElem?_set_self hlen, hopen, hshow⟩
  · dsimp only at hj
    rw [List.getElem?_set_ne hij] at hj
    obtain ⟨es, h₂, hes, hh₂, hopen, hshow⟩ := hses.shown j f₂ hj
    have hmem : es ∈ css.eraseIdx i ++ dirs := List.mem_append_left _
      (List.mem_eraseIdx_iff_getElem?.mpr ⟨j, Ne.symm hij, hes⟩)
    have hdir := hses.aside hg (List.mem_of_getElem? hes) hopen.data hds hk hd
    obtain ⟨hok, hcontent⟩ := hleft.spares _ es f₂ hapart hmem hdir.ne hopen.toFileOk
    refine ⟨es, h₂, by rwa [List.getElem?_set_ne hij], by rwa [List.getElem?_set_ne hij],
      ⟨hok, hopen.size_le, hopen.size_lt, hopen.offset_lt_pow, hopen.entry⟩,
      ⟨hshow.size_eq, hshow.cursor_eq, hshow.room_eq, hshow.readable_eq, hshow.writable_eq,
        fun o ho => ?_⟩⟩
    have hle := hopen.size_le
    rw [hcontent o (by omega)]
    exact hshow.bytes_eq o ho

/-- A session whose files show these handles. -/
def InSession (g : Geometry) (dirs : List (List Nat)) (s : Volume × List (Option File))
    (a : Shelf) : Prop := ∃ css, Session g dirs s a css

theorem session_call {s s' : Volume × List (Option File)} {a : Shelf}
    {l : Nat × Request × Reply} (hg : g.Laid) (hn : 2 * g.clustCnt < n)
    (hses : InSession g dirs s a) (hcall : Call g n ts s l s') :
    ∃ a', Handle.Next g.clustSize a l a' ∧ InSession g dirs s' a' := by
  obtain ⟨css, hses⟩ := hses
  cases hcall with
  | @mk v t fs i f f' q r hi hrun =>
      obtain ⟨cs, h, hcs, hh, hopen, hshow⟩ := hses.shown i f hi
      obtain ⟨ds, hds, k, hk, hd⟩ := hopen.entry
      have hdir := hses.aside hg (List.mem_of_getElem? hcs) hopen.data hds hk hd
      obtain ⟨cs', h', hans, hleft⟩ :=
        (perform_answers hg hses.fit hopen hshow hdir hn ts q).of_ok hrun
      have hlen := (List.getElem?_eq_some_iff.mp hh).1
      exact ⟨_, .mk hh (hses.free_eq ▸ hans), css.set i cs',
        hses.step hg hi hcs hleft hopen.entry hlen⟩

/-- Any number of open files under any sequence of calls: every call answers as the handle of
its file does, and no file notices the calls on another. -/
theorem files_refine {s s' : Volume × List (Option File)} {a : Shelf}
    {ls : List (Nat × Request × Reply)} (hg : g.Laid) (hn : 2 * g.clustCnt < n)
    (hses : InSession g dirs s a) (hrun : Transition.Trace (Call g n ts) s ls s') :
    ∃ a', Transition.Trace (Handle.Next g.clustSize) a ls a' ∧ InSession g dirs s' a' := by
  have hstep : ∀ s a l s', InSession g dirs s a → Call g n ts s l s' →
      ∃ a', Handle.Next g.clustSize a l a' ∧ InSession g dirs s' a' :=
    fun _ _ _ _ hs hcall => session_call hg hn hs hcall
  exact hrun.simulates hstep hses

/-- Every call on an open file of a session comes to its end. -/
theorem calls_end {v : Volume} {fs : List (Option File)} {a : Shelf} {i : Nat}
    (hg : g.Laid) (hn : 2 * g.clustCnt < n) (hses : InSession g dirs (v, fs) a)
    (hi : fs[i]? = some (some f)) (ts : Timestamp) (q : Request) :
    ∃ r s', Call g n ts (v, fs) (i, q, r) s' := by
  obtain ⟨css, hses⟩ := hses
  obtain ⟨cs, h, hcs, hh, hopen, hshow⟩ := hses.shown i f hi
  obtain ⟨ds, hds, k, hk, hd⟩ := hopen.entry
  have hdir := hses.aside hg (List.mem_of_getElem? hcs) hopen.data hds hk hd
  obtain ⟨r, s, hrun, _⟩ := (perform_answers hg hses.fit hopen hshow hdir hn ts q).exists_ok
  exact ⟨r, _, .mk hi hrun⟩

/-! ## Two files of a small volume -/

/-- The small volume with one more chain, the cluster 5. -/
def Volume.pair : Volume :=
  { Volume.small with
    disk.store := fun s =>
      if s = 2 ∨ s = 3 then fun i => smallTable (if 20 ≤ i then i - 4 else i) else fun _ => 0
    lastUsed := 5, freeCnt := 2 }

theorem cells_pair (c : Nat) :
    Volume.pair.cells .small c = if c = 3 then .link 4 else if c < 6 then .last
      else if c < 8 then .free else .unusable := by
  by_cases hc : c < 8
  · have hall : ∀ c < 8, Volume.pair.cells .small c =
        if c = 3 then .link 4 else if c < 6 then .last else .free := by decide
    rw [hall c hc, if_pos hc]
  · rw [Volume.cells, if_neg (show ¬ c < Geometry.small.clustCnt from hc)]
    split_ifs <;> first | rfl | omega

theorem Volume.fit_pair : Fit .small .pair where
  sound := ⟨fun _ h => absurd rfl h, by simp [Volume.Whole, Volume.pair, Volume.small]⟩
  quiet := ⟨by simp [Volume.pair, Volume.small], by simp [Volume.pair, Volume.small]⟩
  reserved := ⟨by simp [cells_pair], by simp [cells_pair]⟩
  readable := by
    have hall : ∀ c < 8, clustFlags .small (Volume.pair.entry .small c) ≠ none := by decide
    rintro ⟨c, hc, hnone⟩
    exact hall c hc hnone
  hint := by decide

/-- The file with the clusters 3 and 4. -/
def File.small : File where
  fat := true
  dirSect := 4
  sclust := 3
  clust := 3
  sect := 6
  size := 1500
  offset := 0
  dirIdx := 0
  flags := { write := true, read := true, accessed := false, modified := false, dirty := false }
  buf := fun _ => 0

/-- The file with the cluster 5. -/
def File.tiny : File := { File.small with sclust := 5, clust := 5, sect := 10, size := 2, dirIdx := 1 }

def Handle.small : Handle where
  size := 1500
  cursor := 0
  room := 2048
  bytes := fun _ => 0
  readable := true
  writable := true

def Handle.tiny : Handle := { Handle.small with size := 2, room := 1024 }

theorem apart_pair : Apart (Volume.pair.cells .small) [[3, 4], [5], [2]] := by
  refine ⟨?_, by decide⟩
  simp only [List.mem_cons, List.not_mem_nil, or_false, forall_eq_or_imp, forall_eq]
  refine ⟨Chain.cons_cons_iff.mpr ⟨?_, Chain.singleton_iff.mpr ?_⟩, Chain.singleton_iff.mpr ?_,
    Chain.singleton_iff.mpr ?_⟩
  all_goals simp [cells_pair]

theorem opened_small : Opened .small [[2]] [3, 4] .pair .small where
  fat := rfl
  chain := apart_pair.chain _ (by simp)
  data := fun c hc => by
    revert c
    decide
  head := rfl
  clust := rfl
  sect := rfl
  buf _ := rfl
  key := by decide
  size_le := by decide
  size_lt := by decide
  offset_lt_pow := by decide
  entry := ⟨[2], by simp, 0, by decide, rfl⟩

theorem opened_tiny : Opened .small [[2]] [5] .pair .tiny where
  fat := rfl
  chain := apart_pair.chain _ (by simp)
  data := fun c hc => by
    revert c
    decide
  head := rfl
  clust := rfl
  sect := rfl
  buf _ := rfl
  key := by decide
  size_le := by decide
  size_lt := by decide
  offset_lt_pow := by decide
  entry := ⟨[2], by simp, 0, by decide, rfl⟩

/-- Outside the tables the volume is all zero. -/
theorem view_pair {s : Nat} (hs : ¬ (s = 2 ∨ s = 3)) : Volume.pair.view s = fun _ => 0 := by
  rw [Volume.view, WriteBack.Cache.view_of_clean rfl]
  exact if_neg hs

theorem content_pair {cs : List Nat} {f : File} {o : Nat} (hbuf : f.buf = fun _ => 0)
    (hsect : ∀ i < 4, ¬ (fileSect .small cs i = 2 ∨ fileSect .small cs i = 3)) (ho : o < 2048) :
    content .small cs .pair f o = 0 := by
  rw [content, hbuf, view_pair (hsect _ (by omega)), ite_self]

theorem shows_small : Shows .small [3, 4] .pair .small .small where
  size_eq := rfl
  cursor_eq := rfl
  room_eq := rfl
  readable_eq := rfl
  writable_eq := rfl
  bytes_eq o ho := (content_pair rfl (by decide) (Nat.lt_trans ho (by decide))).symm

theorem shows_tiny : Shows .small [5] .pair .tiny .tiny where
  size_eq := rfl
  cursor_eq := rfl
  room_eq := rfl
  readable_eq := rfl
  writable_eq := rfl
  bytes_eq o ho := (content_pair rfl (by decide) (Nat.lt_trans ho (by decide))).symm

theorem session_pair :
    InSession .small [[2]] (.pair, [some .small, some .tiny]) ⟨2, [some .small, some .tiny]⟩ := by
  refine ⟨[[3, 4], [5]], Volume.fit_pair, by decide, apart_pair, ?_, fun i f hi => ?_⟩
  · intro ds hds c hc
    obtain rfl := List.mem_singleton.mp hds
    obtain rfl := List.mem_singleton.mp hc
    decide
  match i with
  | 0 =>
      obtain rfl : File.small = f := Option.some.inj (Option.some.inj hi)
      exact ⟨[3, 4], .small, rfl, rfl, opened_small, shows_small⟩
  | 1 =>
      obtain rfl : File.tiny = f := Option.some.inj (Option.some.inj hi)
      exact ⟨[5], .tiny, rfl, rfl, opened_tiny, shows_tiny⟩
  | i + 2 => cases hi

/-- Calls one after the other, with what they answer. -/
def replay (g : Geometry) (n : Nat) (ts : Timestamp) : List (Nat × Request) →
    Volume × List (Option File) →
    Option (List (Nat × Request × Reply) × (Volume × List (Option File)))
  | [], s => some ([], s)
  | (i, q) :: qs, (v, fs) =>
      match fs[i]? with
      | some (some f) =>
          match perform g n ts q (v, f) with
          | .ok r (t, f') =>
              (replay g n ts qs (t, fs.set i (kept q r f'))).map fun p => ((i, q, r) :: p.1, p.2)
          | .error _ _ => none
      | _ => none

theorem replay_trace {g : Geometry} {n : Nat} {ts : Timestamp} {qs : List (Nat × Request)}
    {ls : List (Nat × Request × Reply)} : ∀ {s s' : Volume × List (Option File)},
      replay g n ts qs s = some (ls, s') → Transition.Trace (Call g n ts) s ls s' := by
  induction qs generalizing ls with
  | nil =>
      rintro s s' h
      obtain ⟨rfl, rfl⟩ := Prod.mk.inj (Option.some.inj h)
      exact .nil s
  | cons q qs ih =>
      rintro ⟨v, fs⟩ s' h
      obtain ⟨i, q⟩ := q
      rw [replay] at h
      split at h
      next f hi =>
        split at h
        next r t f' hrun =>
          obtain ⟨⟨ls', u⟩, hrest, heq⟩ := Option.map_eq_some_iff.mp h
          obtain ⟨rfl, rfl⟩ := Prod.mk.inj heq
          exact .cons (.mk hi hrun) (ih hrest)
        next => cases h
      next => cases h

/-- The second file takes one of the two clusters that are left, and is given up in want of more.
The last byte of the first file finds no room. -/
def exchange : List (Nat × Request × Reply) :=
  [(0, .write [1, 2, 3], ⟨[], 3, none⟩),
   (1, .seek 1022 .start, ⟨[], 0, none⟩),
   (1, .write [7, 8, 9], ⟨[], 3, none⟩),
   (0, .seek 0 .start, ⟨[], 0, none⟩),
   (0, .read 4, ⟨[1, 2, 3, 0], 4, none⟩),
   (1, .seek 3000 .curr, ⟨[], 0, some .full⟩),
   (0, .seek 2046 .start, ⟨[], 0, none⟩),
   (0, .write [5, 6, 4], ⟨[], 2, none⟩)]

theorem files_small : ∃ s' a',
    Transition.Trace (Call .small 20 fatGetTimestamp) (.pair, [some .small, some .tiny])
      exchange s' ∧
    Transition.Trace (Handle.Next 1024) ⟨2, [some .small, some .tiny]⟩ exchange a' ∧
      InSession .small [[2]] s' a' := by
  have hreplies : (replay .small 20 fatGetTimestamp (exchange.map fun l => (l.1, l.2.1))
      (.pair, [some .small, some .tiny])).map Prod.fst = some exchange := by decide +kernel
  obtain ⟨⟨ls, s'⟩, hrun, rfl⟩ := Option.map_eq_some_iff.mp hreplies
  have htrace := replay_trace hrun
  obtain ⟨a', hnext, hses⟩ :=
    files_refine Geometry.laid_small (by decide) session_pair htrace
  exact ⟨s', a', htrace, hnext, hses⟩

theorem calls_end_small : ∃ r s', Call .small 20 fatGetTimestamp
    (.pair, [some .small, some .tiny]) (0, .read 2000, r) s' :=
  calls_end Geometry.laid_small (by decide) session_pair rfl fatGetTimestamp (.read 2000)

end Demoos.Fat
