import Demoos.Fat.Folder
import Demoos.Fat.Reading
import Demoos.Lib.Paths

/-!
# Paths on the medium

`follow_path` takes a path apart at its separators and looks for one name after the other, each
in the directory that the one before it has named.  What a path leads to is a walk through the
directories of the volume, which `Walk` says without handles and buffers.

The handle ends in the place of the last entry, and `fat_dir_open` takes a handle in the first
place of the root for the root itself.
-/

namespace Demoos.Fat

open Program
open Paths (components)

/-- `path` and `loc` -/
structure Way where
  path : List Byte
  loc : Loc

abbrev PathM := Program FatError ((Volume × DirState) × Way)

/-- `subpath_len` -/
def subpathLen (path : List Byte) : Nat := (path.takeWhile (· ≠ 0x2f)).length

/-- One round of `follow_path`, with `dir_clust` and `dir_enterable`. -/
def followStep (g : Geometry) (n : Nat) (d : Nat × Bool) : PathM ((Nat × Bool) ⊕ Unit) := do
  modify fun s => (s.1, { s.2 with path := s.2.path.dropWhile (· = 0x2f) })
  let s ← get
  let len := subpathLen s.2.path
  if len = 0 then pure (.inr ())
  else if d.2 = false then fail .path
  else do
    onFst (dirEnter g d.1)
    let loc ← onFst (dirSearch g n (s.2.path.take len))
    modify fun s => (s.1, ⟨s.2.path.drop len, loc⟩)
    let e ← onFst dirPtr
    pure (.inl (sfnCluster e, decide (e 11 &&& 0x10 ≠ 0)))

/-- `follow_path`, where the volume is mounted as `mount`. -/
def followPath (g : Geometry) (n : Nat) (mount : List Byte) : PathM Unit := do
  let s ← get
  let str := s.2.path.tail
  let len := subpathLen str
  if s.2.path.head? ≠ some 0x2f then fail .path
  else if len = 0 then fail .path
  else do
    onFst (setDir fun d => { d with fat := decide (str.take len = mount) })
    if str.take len ≠ mount then fail .path
    else do
      onFst (dirEnter g g.rootClust)
      modify fun s => (s.1, { s.2 with path := str.drop len })
      loop (followStep g n) n (g.rootClust, true)

/-- `dir_at_root` -/
def dirAtRoot (g : Geometry) (d : Dir) : Bool :=
  decide (d.clust = g.rootClust ∧ d.sect = clustToSect g g.rootClust ∧ d.idx = 0)

/-- `fat_dir_open` -/
def fatDirOpen (g : Geometry) (n : Nat) (mount : List Byte) : PathM Unit := do
  followPath g n mount
  let d ← onFst getDir
  if dirAtRoot g d then pure ()
  else do
    onFst updateDir
    let e ← onFst dirPtr
    if e 11 &&& 0x10 = 0 then fail .path
    else onFst (dirEnter g (sfnCluster e))

/-- `fat_stat`, where the stack holds `loc` for a path on which `follow_path` looks for no name. -/
def fatStat (g : Geometry) (n : Nat) (mount : List Byte) : PathM DirInfo := do
  followPath g n mount
  let s ← get
  if subpathLen s.2.path ≠ 0 then fail .path
  else do
    onFst (rewindTo g s.2.loc)
    onFst (dirRead g n)

/-! ## What a path leads to -/

/-- An item of a directory, and the items in front of it. -/
structure Spot where
  chain : List Nat
  front : List Item
  item : Item

/-- The cluster that `dir_enter` takes for a directory. -/
def entered (g : Geometry) (c : Nat) : Nat := if c = 0 then g.rootClust else c

/-- The directories of a volume, by their first clusters. -/
abbrev Dirs := Nat → Option (List Nat × List Item)

/-- All directories are in good order, every entry of one leads to one, and none of them goes on
in the first cluster of another. -/
structure Tree (g : Geometry) (v : Volume) (dirs : Dirs) : Prop where
  root : (dirs g.rootClust).isSome
  ok : ∀ (c : Nat) (cs : List Nat) (items : List Item), dirs c = some (cs, items) →
    DirOk g cs v ∧ cs[0]? = some c ∧ Listing g cs v items
  closed : ∀ (c : Nat) (cs : List Nat) (items : List Item) (x : Item) (b : Binding),
    dirs c = some (cs, items) → x ∈ items → x.binding = some b → b.entry 11 &&& 0x10 ≠ 0 →
    (dirs (entered g (sfnCluster b.entry))).isSome
  heads : ∀ (c c' : Nat) (cs : List Nat) (items : List Item) (k : Nat),
    dirs c = some (cs, items) → cs[k]? = some c' → (dirs c').isSome → k = 0

/-- The names lead to an item, or to an error at the first of those that are left. -/
inductive Walk (g : Geometry) (dirs : Dirs) : Nat × Bool → Option Spot → List (List Byte) →
    Except (FatError × List (List Byte)) (Option Spot) → Prop
  | done {d : Nat × Bool} {f : Option Spot} : Walk g dirs d f [] (.ok f)
  | closed {c : Nat} {f : Option Spot} {name : List Byte} {names : List (List Byte)} :
    Walk g dirs (c, false) f (name :: names) (.error (.path, name :: names))
  | missing {c : Nat} {f : Option Spot} {name : List Byte} {names : List (List Byte)}
    {cs : List Nat} {items : List Item} (hdir : dirs (entered g c) = some (cs, items))
    (hnone : ∀ y ∈ items, ¬ y.Named name) :
    Walk g dirs (c, true) f (name :: names) (.error (.eof, name :: names))
  | enter {c : Nat} {f : Option Spot} {name : List Byte} {names : List (List Byte)}
    {cs : List Nat} {xs ys : List Item} {x : Item} {b : Binding}
    {r : Except (FatError × List (List Byte)) (Option Spot)}
    (hdir : dirs (entered g c) = some (cs, xs ++ x :: ys)) (hname : x.Named name)
    (hfirst : ∀ y ∈ xs, ¬ y.Named name) (hb : x.binding = some b)
    (hrest : Walk g dirs (sfnCluster b.entry, decide (b.entry 11 &&& 0x10 ≠ 0))
      (some ⟨cs, xs, x⟩) names r) :
    Walk g dirs (c, true) f (name :: names) r

/-! ## `follow_path` -/

variable {g : Geometry} {v u t : Volume} {w w' : DirState} {p : Way} {cs : List Nat} {m n : Nat}
  {dirs : Dirs} {f : Option Spot} {d : Nat × Bool} {path mount : List Byte}

theorem components_cons_sep (path : List Byte) :
    components 0x2f (0x2f :: path) = components 0x2f path := Paths.components_append_cons [] path

theorem components_dropWhile (path : List Byte) :
    components 0x2f (path.dropWhile (· = 0x2f)) = components 0x2f path := by
  induction path with
  | nil => rfl
  | cons c path ih =>
      rw [List.dropWhile_cons]
      split
      next hc =>
        rw [decide_eq_true_eq] at hc
        rw [hc, components_cons_sep, ih]
      next => rfl

/-- The first name of a path, and the rest of it. -/
theorem components_subpath (hpos : subpathLen path ≠ 0) :
    components 0x2f path =
      path.take (subpathLen path) :: components 0x2f (path.drop (subpathLen path)) := by
  have happ := List.takeWhile_append_dropWhile (p := (· ≠ (0x2f : Byte))) (l := path)
  have hnot : (0x2f : Byte) ∉ path.takeWhile (· ≠ 0x2f) := fun hmem => by
    have := List.all_eq_true.mp List.all_takeWhile _ hmem
    simp at this
  have hne : path.takeWhile (· ≠ (0x2f : Byte)) ≠ [] := List.length_pos_iff.mp
    (Nat.pos_of_ne_zero hpos)
  have htake : path.take (subpathLen path) = path.takeWhile (· ≠ 0x2f) :=
    (List.prefix_iff_eq_take.mp (List.takeWhile_prefix _)).symm
  have hdrop : path.drop (subpathLen path) = path.dropWhile (· ≠ 0x2f) := by
    have h := List.take_append_drop (subpathLen path) path
    rw [htake] at h
    exact List.append_cancel_left (h.trans happ.symm)
  rw [htake, hdrop]
  have hseg := Paths.components_segment hnot
  rw [if_neg hne] at hseg
  cases hrest : path.dropWhile (· ≠ (0x2f : Byte)) with
  | nil =>
      rw [hrest, List.append_nil] at happ
      conv_lhs => rw [← happ]
      rw [hseg]
      rfl
  | cons c rest =>
      have hc : c = 0x2f := by
        have h := List.head?_dropWhile_not (· ≠ (0x2f : Byte)) path
        rw [hrest] at h
        simpa using h
      rw [hrest, hc] at happ
      rw [hc, components_cons_sep]
      conv_lhs => rw [← happ]
      rw [Paths.components_append_cons, hseg]
      rfl

/-- No name is left where a path begins with a separator or not at all. -/
theorem components_nil (hzero : subpathLen (path.dropWhile (· = 0x2f)) = 0) :
    components 0x2f path = [] := by
  rw [← components_dropWhile]
  cases hrest : path.dropWhile (· = (0x2f : Byte)) with
  | nil => rfl
  | cons c rest =>
      have hc := List.head?_dropWhile_not (· = (0x2f : Byte)) path
      rw [hrest] at hc hzero
      have hne : c ≠ 0x2f := by simpa using hc
      rw [subpathLen, List.takeWhile_cons, if_pos (by simpa using hne)] at hzero
      cases hzero

theorem subpathLen_end (hnil : components 0x2f path = []) :
    subpathLen (path.dropWhile (· = 0x2f)) = 0 := by
  by_contra hpos
  have hname := components_subpath hpos
  rw [components_dropWhile, hnil] at hname
  cases hname

/-- The handle is in the root, or at the entry of an item that is in the buffer. -/
def Stands (g : Geometry) : Option Spot → (Volume × DirState) × Way → Prop
  | none, s => s.1.2.dir.sclust = g.rootClust ∧ s.1.2.dir.clust = g.rootClust ∧
      s.1.2.dir.sect = clustToSect g g.rootClust ∧ s.1.2.dir.idx = 0
  | some f, s => At g f.chain s.1.2.dir (lastPlace f.front f.item) ∧ Loaded s.1.1 s.1.2 ∧
      f.chain[0]? = some s.1.2.dir.sclust ∧ s.2.loc = locAt g f.chain (slotsOf f.front).length

theorem Tree.same (h : Tree g v dirs) (hg : g.Laid) (hsame : v.Same t) : Tree g t dirs where
  root := h.root
  ok c cs items hdir := by
    obtain ⟨hok, hstart, hlist⟩ := h.ok c cs items hdir
    exact ⟨hok.same hg.toRegular hsame, hstart, hlist.congr hsame.view_eq⟩
  closed := h.closed
  heads := h.heads

theorem Tree.root_ne_zero (h : Tree g v dirs) : g.rootClust ≠ 0 := by
  obtain ⟨⟨cs, items⟩, hdir⟩ := Option.isSome_iff_exists.mp h.root
  obtain ⟨hok, hstart, _⟩ := h.ok _ _ _ hdir
  have := (hok.data _ (List.mem_of_getElem? hstart)).1
  omega

theorem meets_enter {c : Nat} {Q : PUnit → Volume × DirState → Prop}
    {E : Stop FatError → Volume × DirState → Prop} : Meets (dirEnter g c) (v, w) Q E ↔
      Q ⟨⟩ (v, { w with dir := { w.dir with
        sclust := entered g c, clust := entered g c, sect := clustToSect g (entered g c),
        idx := 0 } }) := by
  rw [dirEnter, meets_bind, meets_setDir, dirAtClust, meets_setDir]
  exact .rfl

/-- One round goes one name further on the walk. -/
structure Further (g : Geometry) (dirs : Dirs) (d : Nat × Bool) (f : Option Spot)
    (w : DirState) (path : List Byte) (d' : Nat × Bool) (s : (Volume × DirState) × Way) : Prop
    where
  fat : s.1.2.dir.fat = w.dir.fat
  shorter : (components 0x2f s.2.path).length < (components 0x2f path).length
  dir : d'.2 = true → (dirs (entered g d'.1)).isSome
  walk : ∃ f', Stands g f' s ∧ ∀ r, Walk g dirs d' f' (components 0x2f s.2.path) r →
    Walk g dirs d f (components 0x2f path) r

theorem followStep_spec (hg : g.Laid) (ha : g.Aligned) (hn : Ample g n) (htree : Tree g v dirs)
    (hdir : d.2 = true → (dirs (entered g d.1)).isSome) (hstand : Stands g f ((v, w), p)) :
    Meets (followStep g n d) ((v, w), p)
      (fun r s => v.Same s.1.1 ∧ Sum.elim (fun d' => Further g dirs d f w p.path d' s)
        (fun _ => components 0x2f p.path = [] ∧ Stands g f s ∧ s.1.2.dir.fat = w.dir.fat ∧
          subpathLen s.2.path = 0) r)
      fun e s => v.Same s.1.1 ∧ ∃ err, e = .error err ∧
        Walk g dirs d f (components 0x2f p.path) (.error (err, components 0x2f s.2.path)) := by
  have hcomp := components_dropWhile p.path
  rw [followStep, meets_bind, meets_modify, meets_bind, meets_get]
  dsimp only
  generalize hpath : p.path.dropWhile (· = (0x2f : Byte)) = path at hcomp ⊢
  by_cases hzero : subpathLen path = 0
  · rw [if_pos hzero, meets_pure]
    have hnil := components_nil (hpath ▸ hzero)
    cases f <;> exact ⟨.refl v, hnil, hstand, rfl, hzero⟩
  have hname := components_subpath hzero
  rw [hcomp] at hname
  rw [if_neg hzero]
  obtain ⟨c, enterable⟩ := d
  cases enterable with
  | false =>
      rw [if_pos rfl, meets_fail]
      refine ⟨.refl v, .path, rfl, ?_⟩
      dsimp only
      rw [hcomp, hname]
      exact .closed
  | true =>
      obtain ⟨⟨cs, items⟩, hfound⟩ := Option.isSome_iff_exists.mp (hdir rfl)
      obtain ⟨hok, hstart, hlist⟩ := htree.ok _ _ _ hfound
      have hlen := hlist.length_lt hok hn
      have hle := length_le_slots items
      rw [if_neg (by simp), meets_bind, meets_onFst]
      dsimp only
      rw [meets_enter, meets_bind, meets_onFst]
      refine (dirSearch_spec hg ha hok hlist hstart _ (by omega)).mono (fun loc s hs => ?_)
        fun e s he => ?_
      · obtain ⟨t, w'⟩ := s
        obtain ⟨hbrowsed, xs, x, ys, rfl, hhit⟩ := hs
        obtain ⟨b, hb, hbname⟩ := Item.exists_binding hhit.named
        have hplace := hhit.place
        have hentry := hhit.loaded.entry hplace
        rw [slot_congr hbrowsed.view_eq, hlist.entry_eq hb] at hentry
        rw [meets_bind, meets_modify, meets_bind, meets_onFst, meets_dirPtr]
        dsimp only
        rw [hentry, meets_pure]
        refine ⟨hbrowsed.toSame, hhit.fat, ?_, fun hattr => ?_, some ⟨cs, xs, x⟩,
          ⟨hplace, hhit.loaded, ?_, hhit.loc_eq⟩, fun r hr => ?_⟩
        · rw [hname, List.length_cons]
          exact Nat.lt_succ_self _
        · exact htree.closed _ _ _ x b hfound (by simp) hb (by simpa using hattr)
        · rw [hhit.sclust]
          exact hstart
        · rw [hname]
          exact .enter hfound hhit.named hhit.first hb hr
      · obtain ⟨rfl, hbrowsed, -, hnone⟩ := he
        refine ⟨hbrowsed.toSame, .eof, rfl, ?_⟩
        dsimp only
        rw [hcomp, hname]
        exact .missing hfound hnone

/-- The loop of `follow_path` walks. -/
theorem followLoop_spec (hg : g.Laid) (ha : g.Aligned) (hn : Ample g n) (htree : Tree g v dirs)
    (hdir : d.2 = true → (dirs (entered g d.1)).isSome) (hstand : Stands g f ((v, w), p))
    (hm : (components 0x2f p.path).length < m) :
    Meets (loop (followStep g n) m d) ((v, w), p)
      (fun _ s => v.Same s.1.1 ∧ s.1.2.dir.fat = w.dir.fat ∧ subpathLen s.2.path = 0 ∧
        ∃ f', Stands g f' s ∧ Walk g dirs d f (components 0x2f p.path) (.ok f'))
      fun e s => v.Same s.1.1 ∧ ∃ err, e = .error err ∧
        Walk g dirs d f (components 0x2f p.path) (.error (err, components 0x2f s.2.path)) := by
  induction m generalizing v w p d f with
  | zero => omega
  | succ m ih =>
      rw [loop, meets_bind]
      refine (followStep_spec hg ha hn htree hdir hstand).mono (fun r s hs => ?_)
        fun _ _ he => he
      obtain ⟨⟨t, w'⟩, p'⟩ := s
      obtain ⟨hsame, hround⟩ := hs
      cases r with
      | inl d' =>
          obtain ⟨hfat, hshorter, hdir', f', hstand', hwalk⟩ := hround
          refine (ih (htree.same hg hsame) hdir' hstand' (by dsimp only at hshorter; omega)).mono
            (fun _ s hs => ?_) fun e s he => ?_
          · obtain ⟨hsame', hfat', hzero, f'', hstand'', hrest⟩ := hs
            exact ⟨hsame.trans hsame', hfat'.trans hfat, hzero, f'', hstand'', hwalk _ hrest⟩
          · obtain ⟨hsame', err, he, hrest⟩ := he
            exact ⟨hsame.trans hsame', err, he, hwalk _ hrest⟩
      | inr a =>
          obtain ⟨hnil, hstand', hfat, hzero⟩ := hround
          rw [meets_pure, hnil]
          exact ⟨hsame, hfat, hzero, f, hstand', .done⟩

/-- The path is one of the volume, and `rest` comes behind the name of the volume. -/
structure OnMount (mount path rest : List Byte) : Prop where
  eq : path = 0x2f :: (mount ++ rest)
  ne_nil : mount ≠ []
  no_sep : 0x2f ∉ mount
  rest_head : ∀ c, rest.head? = some c → c = 0x2f

theorem OnMount.subpathLen_eq {rest : List Byte} (h : OnMount mount path rest) :
    subpathLen (mount ++ rest) = mount.length := by
  have hall : ∀ c ∈ mount, decide (c ≠ (0x2f : Byte)) = true := fun c hc =>
    decide_eq_true fun heq => h.no_sep (heq ▸ hc)
  rw [subpathLen, List.takeWhile_append_of_pos hall, List.length_append]
  cases rest with
  | nil => rfl
  | cons c rest =>
      obtain rfl := h.rest_head c rfl
      rw [List.takeWhile_cons, if_neg (by simp)]
      rfl

/-- The tests of `follow_path` for the beginning of the path. -/
theorem onMount_iff : (∃ rest, OnMount mount path rest) ↔
    path.head? = some 0x2f ∧ subpathLen path.tail ≠ 0 ∧
      path.tail.take (subpathLen path.tail) = mount := by
  constructor
  · rintro ⟨rest, h⟩
    have hlen := h.subpathLen_eq
    rw [h.eq, List.head?_cons, List.tail_cons, hlen]
    exact ⟨rfl, fun hzero => h.ne_nil (List.length_eq_zero_iff.mp hzero), List.take_left' rfl⟩
  · rintro ⟨hhead, hpos, hmount⟩
    cases path with
    | nil => cases hhead
    | cons c str =>
        obtain rfl := Option.some.inj hhead
        rw [List.tail_cons] at hpos hmount
        have htake := (List.prefix_iff_eq_take.mp
          (List.takeWhile_prefix (· ≠ (0x2f : Byte)) (l := str))).symm
        have hall : ∀ c ∈ mount, c ≠ (0x2f : Byte) := fun c hc => by
          rw [← hmount, subpathLen, htake] at hc
          simpa using List.all_eq_true.mp List.all_takeWhile c hc
        refine ⟨str.drop (subpathLen str), ?_, ?_, fun hin => hall _ hin rfl, fun c hc => ?_⟩
        · rw [← hmount, List.take_append_drop]
        · rw [← hmount]
          intro hnil
          rw [subpathLen, htake] at hnil
          exact hpos (by rw [subpathLen, hnil]; rfl)
        · have hrest : str.drop (subpathLen str) = str.dropWhile (· ≠ 0x2f) := by
            have happ : str.take (subpathLen str) ++ str.drop (subpathLen str) =
                str.take (subpathLen str) ++ str.dropWhile (· ≠ 0x2f) := by
              rw [List.take_append_drop, subpathLen, htake, List.takeWhile_append_dropWhile]
            exact List.append_cancel_left happ
          have hnot := List.head?_dropWhile_not (· ≠ (0x2f : Byte)) str
          rw [← hrest, hc] at hnot
          simpa using hnot

theorem OnMount.rest_eq {rest : List Byte} (h : OnMount mount path rest) :
    path.tail.drop (subpathLen path.tail) = rest := by
  rw [h.eq, List.tail_cons, h.subpathLen_eq]
  exact List.drop_left' rfl

/-- The handle in the root, where `follow_path` begins. -/
def DirState.atRoot (g : Geometry) (w : DirState) : DirState :=
  { w with dir := ⟨true, entered g g.rootClust, entered g g.rootClust,
      clustToSect g (entered g g.rootClust), 0⟩ }

theorem DirState.atRoot_fat (w : DirState) : (w.atRoot g).dir.fat = true := rfl

/-- For a path of the volume `follow_path` is its loop from the root. -/
theorem followPath_onMount {rest : List Byte} (hon : OnMount mount p.path rest)
    {Q : Unit → (Volume × DirState) × Way → Prop}
    {E : Stop FatError → (Volume × DirState) × Way → Prop} :
    Meets (followPath g n mount) ((v, w), p) Q E ↔
      Meets (loop (followStep g n) n (g.rootClust, true)) ((v, w.atRoot g), ⟨rest, p.loc⟩) Q E := by
  obtain ⟨hhead, hpos, hmount⟩ := onMount_iff.mp ⟨rest, hon⟩
  rw [followPath, meets_bind, meets_get]
  dsimp only
  rw [if_neg (not_not.mpr hhead), if_neg hpos, meets_bind, meets_onFst, meets_setDir]
  dsimp only
  rw [if_neg (not_not.mpr hmount), meets_bind, meets_onFst, meets_enter, meets_bind, meets_modify]
  dsimp only
  rw [hon.rest_eq, decide_eq_true hmount]
  exact .rfl

/-- A path that is on no volume is refused at once. -/
theorem followPath_elsewhere (hnot : ∀ rest, ¬ OnMount mount p.path rest) :
    Meets (followPath g n mount) ((v, w), p) (fun _ _ => False)
      fun e s => s.1.1 = v ∧ e = .error .path := by
  have hiff : (∃ rest, OnMount mount p.path rest) ↔ _ := onMount_iff
  rw [followPath, meets_bind, meets_get]
  dsimp only
  by_cases hhead : p.path.head? = some 0x2f
  swap
  · rw [if_pos hhead, meets_fail]
    exact ⟨rfl, rfl⟩
  rw [if_neg (not_not.mpr hhead)]
  by_cases hzero : subpathLen p.path.tail = 0
  · rw [if_pos hzero, meets_fail]
    exact ⟨rfl, rfl⟩
  rw [if_neg hzero, meets_bind, meets_onFst, meets_setDir]
  dsimp only
  by_cases hmount : p.path.tail.take (subpathLen p.path.tail) = mount
  · obtain ⟨rest, hon⟩ := hiff.mpr ⟨hhead, hzero, hmount⟩
    exact absurd hon (hnot rest)
  · rw [if_pos hmount, meets_fail]
    exact ⟨rfl, rfl⟩

/-- The names behind that of the volume are fewer than those of the path. -/
theorem OnMount.length_lt {rest : List Byte} (h : OnMount mount path rest) :
    (components 0x2f rest).length < (components 0x2f path).length := by
  have hpos : subpathLen (mount ++ rest) ≠ 0 := by
    rw [h.subpathLen_eq]
    exact fun hzero => h.ne_nil (List.length_eq_zero_iff.mp hzero)
  have hname := components_subpath hpos
  rw [h.subpathLen_eq, List.drop_left' rfl] at hname
  rw [h.eq, components_cons_sep, hname, List.length_cons]
  exact Nat.lt_succ_self _

/-- `follow_path` walks from the root along the names behind that of the volume. -/
theorem followPath_spec (hg : g.Laid) (ha : g.Aligned) (hn : Ample g n) (htree : Tree g v dirs)
    (hlen : (components 0x2f p.path).length ≤ n) :
    Meets (followPath g n mount) ((v, w), p)
      (fun _ s => v.Same s.1.1 ∧ s.1.2.dir.fat = true ∧ subpathLen s.2.path = 0 ∧
        ∃ rest f, OnMount mount p.path rest ∧ Stands g f s ∧
          Walk g dirs (g.rootClust, true) none (components 0x2f rest) (.ok f))
      fun e s => v.Same s.1.1 ∧ ((∀ rest, ¬ OnMount mount p.path rest) ∧ e = .error .path ∨
        ∃ rest err, OnMount mount p.path rest ∧ e = .error err ∧
          Walk g dirs (g.rootClust, true) none (components 0x2f rest)
            (.error (err, components 0x2f s.2.path))) := by
  by_cases hmount : ∃ rest, OnMount mount p.path rest
  swap
  · rw [not_exists] at hmount
    refine (followPath_elsewhere hmount).mono (fun _ _ hs => hs.elim) fun e s he => ?_
    obtain ⟨rfl, rfl⟩ := he
    exact ⟨.refl _, .inl ⟨hmount, rfl⟩⟩
  obtain ⟨rest, hon⟩ := hmount
  have hentered : entered g g.rootClust = g.rootClust := if_neg htree.root_ne_zero
  rw [followPath_onMount hon]
  refine (followLoop_spec (p := ⟨rest, p.loc⟩) (f := none) (d := (g.rootClust, true)) hg ha hn htree
    (fun _ => by rw [hentered]; exact htree.root)
    ⟨hentered, hentered, congrArg (clustToSect g) hentered, rfl⟩
    (hon.length_lt.trans_le hlen)).mono (fun _ s hs => ?_) fun e s he => ?_
  · obtain ⟨hsame, hfat, hend, f, hstand, hwalk⟩ := hs
    exact ⟨hsame, hfat, hend, rest, f, hon, hstand, hwalk⟩
  · obtain ⟨hsame, err, he, hwalk⟩ := he
    exact ⟨hsame, .inr ⟨rest, err, hon, he, hwalk⟩⟩

/-! ## `fat_dir_open` -/

/-- The items that a walk comes to are in directories. -/
theorem Walk.in_dir {d : Nat × Bool} {names : List (List Byte)} {f f' : Option Spot}
    {r : Except (FatError × List (List Byte)) (Option Spot)} (h : Walk g dirs d f names r)
    (hr : r = .ok f')
    (hf : ∀ q, f = some q → ∃ c ys b, dirs c = some (q.chain, q.front ++ q.item :: ys) ∧
      q.item.binding = some b) :
    ∀ q, f' = some q → ∃ c ys b, dirs c = some (q.chain, q.front ++ q.item :: ys) ∧
      q.item.binding = some b := by
  induction h with
  | done =>
      obtain rfl := Except.ok.inj hr
      exact hf
  | closed => cases hr
  | missing => cases hr
  | enter hdir _ _ hb _ ih =>
      refine ih hr fun q hq => ?_
      obtain rfl := Option.some.inj hq
      exact ⟨_, _, _, hdir, hb⟩

/-- The item is in the first place of the root. -/
def Spot.AtRoot (g : Geometry) (f : Spot) : Prop :=
  f.chain[0]? = some g.rootClust ∧ lastPlace f.front f.item = 0

/-- The directory that is opened where a path has led.  For the item in the first place of the
root this is the root itself. -/
inductive Opens (g : Geometry) : Option Spot → Nat → Prop
  | root : Opens g none g.rootClust
  | first {f : Spot} (h : f.AtRoot g) : Opens g (some f) g.rootClust
  | dir {f : Spot} {b : Binding} (h : ¬ f.AtRoot g) (hb : f.item.binding = some b)
    (hattr : b.entry 11 &&& 0x10 ≠ 0) : Opens g (some f) (entered g (sfnCluster b.entry))

theorem at_first {d : Dir} {c : Nat} (hc : cs[0]? = some c) (hclust : d.clust = c)
    (hsect : d.sect = clustToSect g c) (hidx : d.idx = 0) : At g cs d 0 := by
  obtain ⟨fat, sclust, clust, sect, idx⟩ := d
  dsimp only at hclust hsect hidx
  rw [hclust, hsect, hidx]
  exact at_start hc ⟨fat, sclust, clust, sect, idx⟩

/-- Why a path is not opened: it is on no volume, one of its names leads nowhere, or the last one
is that of a file. -/
inductive NotOpened (g : Geometry) (dirs : Dirs) (mount path : List Byte) : FatError → Prop
  | elsewhere (h : ∀ rest, ¬ OnMount mount path rest) : NotOpened g dirs mount path .path
  | lost {rest : List Byte} {err : FatError} {names : List (List Byte)}
    (hon : OnMount mount path rest)
    (hwalk : Walk g dirs (g.rootClust, true) none (components 0x2f rest) (.error (err, names))) :
    NotOpened g dirs mount path err
  | plain {rest : List Byte} {f : Spot} {b : Binding} (hon : OnMount mount path rest)
    (hwalk : Walk g dirs (g.rootClust, true) none (components 0x2f rest) (.ok (some f)))
    (hb : f.item.binding = some b) (hattr : b.entry 11 &&& 0x10 = 0) :
    NotOpened g dirs mount path .path

/-- `dir_at_root` at the entry of an item. -/
theorem dirAtRoot_iff (htree : Tree g v dirs) {q : Spot} {c : Nat}
    {items : List Item} (hdir : dirs c = some (q.chain, items))
    (hat : At g q.chain w.dir (lastPlace q.front q.item)) :
    dirAtRoot g w.dir = true ↔ q.AtRoot g := by
  obtain ⟨hok, _, _⟩ := htree.ok _ _ _ hdir
  obtain ⟨h2, hc⟩ := hok.data _ hat.mem
  have hspc := g.spc_pos
  have hidx := hat.idx
  have hsect := hat.sect_eq
  have hmod := Nat.mod_lt (lastPlace q.front q.item / 16) hspc
  rw [dirAtRoot, decide_eq_true_eq]
  constructor
  · rintro ⟨hclust, hstart, hzero⟩
    have hchain := hat.clust
    rw [hclust] at hchain
    have hk := htree.heads _ _ _ _ _ hdir hchain htree.root
    have hkzero : lastPlace q.front q.item / 16 % g.spc = 0 := by
      rw [hclust, hstart] at hsect
      exact (Nat.add_eq_left.mp hsect.symm)
    have hmul := Nat.div_add_mod (lastPlace q.front q.item / 16) g.spc
    rw [hk] at hchain hmul
    exact ⟨hchain, by omega⟩
  · rintro ⟨hroot, hplace⟩
    have hat := hat
    rw [hplace] at hat
    have hclust : w.dir.clust = g.rootClust :=
      Option.some.inj (hat.clust_zero.symm.trans hroot)
    exact ⟨hclust, hat.sect_zero.trans (by rw [hclust]), hat.idx⟩

/-- `fat_dir_open` opens the directory that the path leads to. -/
theorem fatDirOpen_spec (hg : g.Laid) (ha : g.Aligned) (hn : Ample g n) (htree : Tree g v dirs)
    (hlen : (components 0x2f p.path).length ≤ n) :
    Meets (fatDirOpen g n mount) ((v, w), p)
      (fun _ s => v.Same s.1.1 ∧ s.1.2.dir.fat = true ∧ ∃ rest f c cs items,
        OnMount mount p.path rest ∧
        Walk g dirs (g.rootClust, true) none (components 0x2f rest) (.ok f) ∧ Opens g f c ∧
        dirs c = some (cs, items) ∧ s.1.2.dir.sclust = c ∧ At g cs s.1.2.dir 0)
      fun e s => v.Same s.1.1 ∧ ∃ err, e = .error err ∧ NotOpened g dirs mount p.path err := by
  rw [fatDirOpen, meets_bind]
  refine (followPath_spec hg ha hn htree hlen).mono (fun _ s hs => ?_) fun e s he => ?_
  swap
  · obtain ⟨hsame, ⟨hnot, he⟩ | ⟨rest, err, hon, he, hwalk⟩⟩ := he
    · exact ⟨hsame, .path, he, .elsewhere hnot⟩
    · exact ⟨hsame, err, he, .lost hon hwalk⟩
  obtain ⟨⟨t, w'⟩, p'⟩ := s
  obtain ⟨hsame, hfat, -, rest, f, hon, hstand, hwalk⟩ := hs
  have htree' := htree.same hg hsame
  obtain ⟨⟨cs, items⟩, hrootdir⟩ := Option.isSome_iff_exists.mp htree.root
  obtain ⟨hrootok, hrootstart, _⟩ := htree.ok _ _ _ hrootdir
  rw [meets_bind, meets_onFst, meets_getDir]
  dsimp only at hsame hfat ⊢
  cases f with
  | none =>
      obtain ⟨hsclust, hclust, hsect, hidx⟩ := hstand
      dsimp only at hsclust hclust hsect hidx
      rw [if_pos (by rw [dirAtRoot, decide_eq_true_eq]; exact ⟨hclust, hsect, hidx⟩), meets_pure]
      exact ⟨hsame, hfat, rest, none, _, cs, items, hon, hwalk, .root, hrootdir, hsclust,
        at_first hrootstart hclust hsect hidx⟩
  | some q =>
      obtain ⟨hat, hload, hstart, -⟩ := hstand
      dsimp only at hat hload hstart
      obtain ⟨c, ys, b, hdir, hb⟩ := hwalk.in_dir rfl (fun q hq => by cases hq) q rfl
      have hiff := dirAtRoot_iff htree hdir hat
      by_cases hfirst : q.AtRoot g
      · rw [if_pos (hiff.mpr hfirst), meets_pure]
        rw [hfirst.2] at hat
        have hclust : w'.dir.clust = g.rootClust :=
          Option.some.inj (hat.clust_zero.symm.trans hfirst.1)
        exact ⟨hsame, hfat, rest, some q, _, cs, items, hon, hwalk, .first hfirst, hrootdir,
          Option.some.inj (hstart.symm.trans hfirst.1),
          at_first hrootstart hclust (hat.sect_zero.trans (by rw [hclust])) hat.idx⟩
      · obtain ⟨hok, _, hlist⟩ := htree'.ok _ _ _ hdir
        rw [if_neg (fun h => hfirst (hiff.mp h)), meets_bind, meets_onFst]
        refine (updateDir_loaded hg hok hat).mono (fun _ s hs => ?_) fun _ _ he => he.elim
        obtain ⟨u, w''⟩ := s
        obtain ⟨hbrowsed, rfl, hload'⟩ := hs
        have hentry := hload'.entry hat
        rw [slot_congr hbrowsed.view_eq, hlist.entry_eq hb] at hentry
        rw [meets_bind, meets_onFst, meets_dirPtr]
        dsimp only
        rw [hentry]
        have hsame' := hsame.trans hbrowsed.toSame
        by_cases hattr : b.entry 11 &&& 0x10 = 0
        · rw [if_pos hattr, meets_fail]
          exact ⟨hsame', .path, rfl, .plain hon hwalk hb hattr⟩
        · obtain ⟨⟨cs', items'⟩, hopen⟩ := Option.isSome_iff_exists.mp
            (htree.closed _ _ _ q.item b hdir (by simp) hb hattr)
          obtain ⟨_, hstart', _⟩ := htree.ok _ _ _ hopen
          rw [if_neg hattr, meets_onFst, meets_enter]
          exact ⟨hsame', hfat, rest, some q, _, cs', items', hon, hwalk, .dir hfirst hb hattr,
            hopen, rfl, at_first hstart' rfl rfl rfl⟩

/-- A directory that is opened by its path is listed by `fat_dir_read` and `fat_dir_next`, and a
path that cannot be opened fails at the first name that leads nowhere. -/
theorem fatDirOpen_lists (hg : g.Laid) (ha : g.Aligned) (hn : Ample g n) (htree : Tree g v dirs)
    (hlen : (components 0x2f p.path).length ≤ n) :
    Meets (fatDirOpen g n mount) ((v, w), p)
      (fun _ s => v.Same s.1.1 ∧ ∃ rest f c cs items, OnMount mount p.path rest ∧
        Walk g dirs (g.rootClust, true) none (components 0x2f rest) (.ok f) ∧ Opens g f c ∧
        dirs c = some (cs, items) ∧
        ∀ full, (full = true ↔ Full g cs items) → (library g n).Lists full s.1 (entriesOf items))
      fun e s => v.Same s.1.1 ∧ ∃ err, e = .error err ∧ NotOpened g dirs mount p.path err := by
  refine (fatDirOpen_spec hg ha hn htree hlen).mono (fun _ s hs => ?_) fun _ _ he => he
  obtain ⟨⟨t, w'⟩, p'⟩ := s
  obtain ⟨hsame, hfat, rest, f, c, cs, items, hon, hwalk, hopens, hdir, -, hat⟩ := hs
  refine ⟨hsame, rest, f, c, cs, items, hon, hwalk, hopens, hdir, fun full hfull => ?_⟩
  obtain ⟨hok, _, hlist⟩ := (htree.same hg hsame).ok _ _ _ hdir
  have hrounds := hlist.length_lt hok hn
  have hle := length_le_slots items
  have hlist : Listing g cs t ([] ++ items) := hlist
  exact library_lists hg ha hok hlist hat hfat (by omega) hfull

/-! ## `fat_stat` -/

/-- A walk with names leads to an item, or to an error. -/
theorem Walk.isSome {f' : Option Spot} {names : List (List Byte)}
    {r : Except (FatError × List (List Byte)) (Option Spot)} (h : Walk g dirs d f names r)
    (hr : r = .ok f') (hsome : f.isSome ∨ names ≠ []) : f'.isSome := by
  induction h with
  | done =>
      obtain rfl := Except.ok.inj hr
      exact hsome.resolve_right (not_not.mpr rfl)
  | closed => cases hr
  | missing => cases hr
  | enter _ _ _ _ _ ih => exact ih hr (.inl rfl)

theorem Walk.nil_eq {r : Except (FatError × List (List Byte)) (Option Spot)}
    (h : Walk g dirs d f [] r) : r = .ok f := by
  cases h
  rfl

/-- The item that begins at a place is the one that `fat_dir_read` gives there. -/
theorem dirRead_at (hg : g.Laid) (ha : g.Aligned) (hn : Ample g n) {items xs ys : List Item}
    {x : Item} {b : Binding} {c : Nat} {loc : Loc} (hv : DirOk g cs v)
    (hlist : Listing g cs v items) (hitems : items = xs ++ x :: ys) (hb : x.binding = some b)
    (hat : At g cs (w.dir.goTo c loc) (slotsOf xs).length) (hfat : w.dir.fat = true) :
    Meets (dirRead g n) (v, { w with dir := w.dir.goTo c loc })
      (fun i s => v.Same s.1 ∧ x.info = some i) fun _ _ => False := by
  have hrounds := hlist.length_lt hv hn
  have hle := length_le_slots items
  rw [hitems] at hlist hrounds hle
  rw [List.length_append] at hle
  have hshort : (x :: ys).length < n := by omega
  have hinfo : x.info ≠ none := by cases x <;> simp [Item.info, Item.binding] at hb ⊢
  refine (dirRead_spec (w := { w with dir := w.dir.goTo c loc }) hg ha hv hlist hat hfat
    hshort).mono (fun i s hs => ?_) fun e s he => ?_
  · obtain ⟨hbrowsed, gaps, y, zs, heq, hshown⟩ := hs
    refine ⟨hbrowsed.toSame, ?_⟩
    cases gaps with
    | nil =>
        obtain rfl := (List.cons.inj heq).1
        exact hshown.info
    | cons z gaps =>
        obtain rfl := (List.cons.inj heq).1
        exact absurd (hshown.gaps x List.mem_cons_self) hinfo
  · exact hinfo (he.2.2 x List.mem_cons_self)

/-- A path is on no volume, or one of its names leads nowhere. -/
def NotFound (g : Geometry) (dirs : Dirs) (mount path : List Byte) (err : FatError) : Prop :=
  (∀ rest, ¬ OnMount mount path rest) ∧ err = .path ∨
    ∃ rest names, OnMount mount path rest ∧
      Walk g dirs (g.rootClust, true) none (components 0x2f rest) (.error (err, names))

/-- `fat_stat` tells of the item that the path leads to, where the path has a name behind that of
the volume. -/
theorem fatStat_tells (hg : g.Laid) (ha : g.Aligned) (hn : Ample g n) (htree : Tree g v dirs)
    (hlen : (components 0x2f p.path).length ≤ n)
    (hname : ∀ rest, OnMount mount p.path rest → components 0x2f rest ≠ []) :
    Meets (fatStat g n mount) ((v, w), p)
      (fun i s => v.Same s.1.1 ∧ ∃ rest q, OnMount mount p.path rest ∧
        Walk g dirs (g.rootClust, true) none (components 0x2f rest) (.ok (some q)) ∧
        q.item.info = some i)
      fun e s => v.Same s.1.1 ∧ ∃ err, e = .error err ∧ NotFound g dirs mount p.path err := by
  rw [fatStat, meets_bind]
  refine (followPath_spec hg ha hn htree hlen).mono (fun _ s hs => ?_) fun e s he => ?_
  swap
  · obtain ⟨hsame, ⟨hnot, he⟩ | ⟨rest, err, hon, he, hwalk⟩⟩ := he
    · exact ⟨hsame, .path, he, .inl ⟨hnot, rfl⟩⟩
    · exact ⟨hsame, err, he, .inr ⟨rest, _, hon, hwalk⟩⟩
  obtain ⟨⟨t, w'⟩, p'⟩ := s
  obtain ⟨hsame, hfat, hend, rest, f, hon, hstand, hwalk⟩ := hs
  obtain ⟨q, rfl⟩ := Option.isSome_iff_exists.mp (hwalk.isSome rfl (.inr (hname rest hon)))
  obtain ⟨c, ys, b, hdir, hb⟩ := hwalk.in_dir rfl (fun q hq => by cases hq) q rfl
  obtain ⟨hok, _, hlist⟩ := (htree.same hg hsame).ok _ _ _ hdir
  obtain ⟨-, -, -, hloc⟩ := hstand
  dsimp only at hsame hfat hend hloc
  have hplace := hlist.lt_places q.item.length_slots_pos
  have hat := at_locAt hg hok.data (j := (slotsOf q.front).length) (by omega) w'.dir
  rw [← hloc] at hat
  rw [meets_bind, meets_get]
  dsimp only
  rw [if_neg (not_not.mpr hend), meets_bind, meets_onFst, meets_rewindTo, meets_onFst]
  refine (dirRead_at hg ha hn hok hlist rfl hb hat hfat).mono (fun i s hs => ?_)
    fun _ _ he => he.elim
  exact ⟨hsame.trans hs.1, rest, q, hon, hwalk, hs.2⟩

/-- Where no name is left, a round of `follow_path` is the last one and sets no place. -/
theorem followStep_end (hnil : components 0x2f p.path = [])
    {Q : (Nat × Bool) ⊕ Unit → (Volume × DirState) × Way → Prop}
    {E : Stop FatError → (Volume × DirState) × Way → Prop} :
    Meets (followStep g n d) ((v, w), p) Q E ↔
      Q (.inr ()) ((v, w), { p with path := p.path.dropWhile (· = 0x2f) }) := by
  rw [followStep, meets_bind, meets_modify, meets_bind, meets_get]
  dsimp only
  rw [if_pos (subpathLen_end hnil), meets_pure]

/-- For the path of the volume itself `follow_path` sets no place, and `fat_stat` tells of the item
whose place the stack holds. -/
theorem fatStat_stack (hg : g.Laid) (ha : g.Aligned) (hn : Ample g n) (htree : Tree g v dirs)
    {rest : List Byte} {c : Nat} {xs ys : List Item} {x : Item} {b : Binding}
    (hon : OnMount mount p.path rest) (hnil : components 0x2f rest = [])
    (hdir : dirs c = some (cs, xs ++ x :: ys)) (hb : x.binding = some b)
    (hloc : p.loc = locAt g cs (slotsOf xs).length) :
    Meets (fatStat g n mount) ((v, w), p) (fun i s => v.Same s.1.1 ∧ x.info = some i)
      fun _ _ => False := by
  obtain ⟨hok, _, hlist⟩ := htree.ok _ _ _ hdir
  have hrounds := hlist.length_lt hok hn
  have hplace := hlist.lt_places x.length_slots_pos
  have hat := at_locAt hg hok.data (j := (slotsOf xs).length) (by omega) (w.atRoot g).dir
  rw [← hloc] at hat
  obtain ⟨m, rfl⟩ : ∃ m, n = m + 1 := ⟨n - 1, by omega⟩
  rw [fatStat, meets_bind, followPath_onMount hon, loop, meets_bind, followStep_end hnil]
  dsimp only
  rw [meets_pure, meets_bind, meets_get]
  dsimp only
  rw [if_neg (not_not.mpr (subpathLen_end hnil)), meets_bind, meets_onFst, meets_rewindTo,
    meets_onFst]
  exact (dirRead_at hg ha hn hok hlist rfl hb hat w.atRoot_fat).mono (fun _ _ hs => hs)
    fun _ _ he => he

/-! ## A path in the small volume -/

/-- A gap, and the entry `D` of the directory of the clusters 3 and 4. -/
def rootSector : Sector := fun i =>
  ([0xe5, 0x00, 0x00, 0x00, 0x00, 0x00, 0x00, 0x00, 0x00, 0x00, 0x00, 0x00, 0x00, 0x00, 0x00, 0x00,
    0x00, 0x00, 0x00, 0x00, 0x00, 0x00, 0x00, 0x00, 0x00, 0x00, 0x00, 0x00, 0x00, 0x00, 0x00, 0x00,
    0x44, 0x20, 0x20, 0x20, 0x20, 0x20, 0x20, 0x20, 0x20, 0x20, 0x20, 0x10, 0x00, 0x00, 0x00, 0x00,
    0x21, 0x00, 0x21, 0x00, 0x00, 0x00, 0x00, 0x00, 0x21, 0x00, 0x03, 0x00, 0x00, 0x00, 0x00, 0x00]
    : List (BitVec 8)).getD i 0

/-- The small volume with the named directory, and this sector in its root. -/
def Volume.rooted : Volume :=
  { Volume.named with disk.store := Function.update Volume.named.disk.store 4 rootSector }

def Item.rooted : List Item :=
  [.gap (slot .small [2] .rooted 0), .short (slot .small [2] .rooted 1)]

def smallDirs : Dirs := fun c =>
  if c = 2 then some ([2], Item.rooted) else if c = 3 then some ([3, 4], Item.named) else none

theorem view_rooted {s : Nat} (hs : s ≠ 4) : Volume.rooted.view s = Volume.named.view s :=
  Function.update_of_ne hs _ _

theorem tables_rooted (s : Nat) (hs : Geometry.small.InTables s) :
    Volume.rooted.view s = Volume.named.view s := view_rooted fun he => by
  have := Geometry.laid_small.low_lt s (.inl hs)
  subst he
  revert this
  decide

theorem fit_rooted : Fit .small .rooted :=
  fit_named.of_tables Geometry.regular_small
    ⟨fun _ => Volume.quiet_small, fun _ => ⟨fun _ h => absurd rfl h, Volume.sound_small.whole⟩, rfl⟩
    tables_rooted rfl

theorem cells_rooted : Volume.rooted.cells .small = Volume.named.cells .small :=
  cells_of_tables Geometry.regular_small tables_rooted

theorem dirOk_rooted : DirOk .small [3, 4] .rooted where
  fit := fit_rooted
  chain := by
    rw [cells_rooted]
    exact dirOk_named.chain
  data := dirOk_named.data

theorem dirOk_root : DirOk .small [2] .rooted where
  fit := fit_rooted
  chain := by
    have hcell : Volume.named.cells .small 2 = .last := by decide
    rw [cells_rooted]
    exact Chains.Chain.singleton_iff.mpr hcell
  data c hc := by
    obtain rfl := List.mem_singleton.mp hc
    decide

theorem listing_root : Listing .small [2] .rooted Item.rooted where
  ok := by
    have hgap : slot .small [2] .rooted 0 0 = 0xe5 := by decide
    have hplain : Plain (slot .small [2] .rooted 1) := ⟨by decide, by decide⟩
    exact List.forall_mem_cons.mpr ⟨hgap, List.forall_mem_cons.mpr ⟨hplain, by simp⟩⟩
  le := by decide
  slots j e he := by
    have hmap : slotsOf Item.rooted = (List.range 2).map (slot .small [2] .rooted) := rfl
    rw [hmap, List.getElem?_map] at he
    obtain ⟨i, hi, rfl⟩ := Option.map_eq_some_iff.mp he
    have hlt := (List.getElem?_eq_some_iff.mp hi).1
    rw [List.length_range] at hlt
    rw [List.getElem?_range hlt] at hi
    rw [Option.some.inj hi]
  ends _ := by decide

theorem listing_rooted : Listing .small [3, 4] .rooted Item.named := by
  have hlist : Listing .small [3, 4] .named (Item.named ++ [] ++ []) := listing_named
  refine hlist.replace (fun _ h => absurd h List.not_mem_nil) rfl (fun i e he => by cases he)
    fun i hi _ => ?_
  have hne : ∀ k < 4, fileSect .small [3, 4] k ≠ 4 := by decide
  rw [slot, slot, view_rooted (hne _ (lt_places_iff.mp hi))]

theorem attr_rooted : ∀ x ∈ Item.named, ∀ b, x.binding = some b → b.entry 11 &&& 0x10 = 0 := by
  have hshort : slot .small [3, 4] .named 0 11 &&& 0x10 = 0 := by decide
  have hlong : slot .small [3, 4] .named 3 11 &&& 0x10 = 0 := by decide
  intro x hx b hb
  simp only [Item.named, List.mem_cons, List.not_mem_nil, or_false] at hx
  rcases hx with rfl | rfl | rfl
  · obtain rfl := Option.some.inj hb
    dsimp only
    rw [hshort]
  · cases hb
  · obtain rfl := Option.some.inj hb
    dsimp only
    rw [hlong]

theorem tree_rooted : Tree .small .rooted smallDirs where
  root := rfl
  ok c cs items hdir := by
    rw [smallDirs] at hdir
    split_ifs at hdir with h2 h3
    · obtain ⟨rfl, rfl⟩ := Prod.mk.inj (Option.some.inj hdir)
      exact ⟨dirOk_root, congrArg some h2.symm, listing_root⟩
    · obtain ⟨rfl, rfl⟩ := Prod.mk.inj (Option.some.inj hdir)
      exact ⟨dirOk_rooted, congrArg some h3.symm, listing_rooted⟩
  closed c cs items x b hdir hx hb hattr := by
    rw [smallDirs] at hdir
    split_ifs at hdir with h2 h3
    · obtain ⟨rfl, rfl⟩ := Prod.mk.inj (Option.some.inj hdir)
      simp only [Item.rooted, List.mem_cons, List.not_mem_nil, or_false] at hx
      rcases hx with rfl | rfl
      · cases hb
      · obtain rfl := Option.some.inj hb
        decide
    · obtain ⟨rfl, rfl⟩ := Prod.mk.inj (Option.some.inj hdir)
      exact absurd (attr_rooted x hx b hb) hattr
  heads c c' cs items k hdir hk hsome := by
    rw [smallDirs] at hdir
    split_ifs at hdir with h2 h3
    · obtain ⟨rfl, rfl⟩ := Prod.mk.inj (Option.some.inj hdir)
      exact Nat.lt_one_iff.mp (List.getElem?_eq_some_iff.mp hk).1
    · obtain ⟨rfl, rfl⟩ := Prod.mk.inj (Option.some.inj hdir)
      have hlt := (List.getElem?_eq_some_iff.mp hk).1
      rcases Nat.eq_zero_or_pos k with rfl | hpos
      · rfl
      · obtain rfl : k = 1 := by simp at hlt; omega
        obtain rfl : 4 = c' := Option.some.inj hk
        cases hsome

/-- The path `/mnt/D`. -/
def Way.rooted : Way := ⟨[0x2f, 0x6d, 0x6e, 0x74, 0x2f, 0x44], ⟨0, 0⟩⟩

theorem onMount_rooted {rest : List Byte}
    (hon : OnMount [0x6d, 0x6e, 0x74] Way.rooted.path rest) : rest = [0x2f, 0x44] :=
  hon.rest_eq.symm

/-- The name `D` leads from the root to the second entry. -/
theorem walk_rooted {r : Except (FatError × List (List Byte)) (Option Spot)}
    (h : Walk .small smallDirs (2, true) none (components 0x2f [0x2f, 0x44]) r) :
    r = .ok (some ⟨[2], [.gap (slot .small [2] .rooted 0)],
      .short (slot .small [2] .rooted 1)⟩) := by
  have hname : (Item.short (slot .small [2] .rooted 1)).Named [0x44] := by decide
  cases h with
  | missing hdir hnone =>
      obtain ⟨rfl, rfl⟩ := Prod.mk.inj (Option.some.inj hdir)
      exact absurd hname (hnone _ (by simp [Item.rooted]))
  | enter hdir _ _ hb hrest =>
      obtain ⟨rfl, hitems⟩ := Prod.mk.inj (Option.some.inj hdir)
      rcases List.append_eq_cons_iff.mp hitems.symm with ⟨-, hgap⟩ | ⟨xs, rfl, hsecond⟩
      · obtain rfl := (List.cons.inj hgap).1
        cases hb
      · rcases List.append_eq_cons_iff.mp hsecond.symm with ⟨rfl, hshort⟩ | ⟨xs, rfl, hend⟩
        · obtain rfl := (List.cons.inj hshort).1
          exact hrest.nil_eq
        · exact absurd hend.symm (by simp)

/-- The directory of the clusters 3 and 4 is opened and listed. -/
theorem fatDirOpen_rooted : Meets (fatDirOpen .small 1000 [0x6d, 0x6e, 0x74])
      ((.rooted, .small), .rooted)
    (fun _ s => Volume.rooted.Same s.1.1 ∧
      ∀ full, (full = true ↔ Full .small [3, 4] Item.named) →
        (library .small 1000).Lists full s.1 (entriesOf Item.named))
    fun _ _ => False := by
  have hattr : ∀ b, (Item.short (slot .small [2] .rooted 1)).binding = some b →
      b.entry 11 &&& 0x10 ≠ 0 := fun b hb => by
    obtain rfl := Option.some.inj hb
    decide
  refine (fatDirOpen_lists Geometry.laid_small rfl ample_named tree_rooted (by decide)).mono
    (fun _ s hs => ?_) fun e s he => ?_
  · obtain ⟨hsame, rest, f, c, cs, items, hon, hwalk, hopens, hdir, hlists⟩ := hs
    rw [onMount_rooted hon] at hwalk
    obtain rfl := Except.ok.inj (walk_rooted hwalk)
    cases hopens with
    | first hroot => exact absurd hroot.2 (by decide)
    | dir _ hb _ =>
        obtain rfl := Option.some.inj hb
        have hclust : entered .small (sfnCluster (slot .small [2] .rooted 1)) = 3 := by decide
        rw [hclust] at hdir
        obtain ⟨rfl, rfl⟩ := Prod.mk.inj (Option.some.inj hdir)
        exact ⟨hsame, hlists⟩
  · obtain ⟨-, err, -, hnot⟩ := he
    cases hnot with
    | elsewhere hon => exact hon [0x2f, 0x44] ⟨rfl, by decide, by decide, by simp⟩
    | lost hon hwalk =>
        rw [onMount_rooted hon] at hwalk
        cases walk_rooted hwalk
    | plain hon hwalk hb hplain =>
        rw [onMount_rooted hon] at hwalk
        obtain rfl := Option.some.inj (Except.ok.inj (walk_rooted hwalk))
        exact hattr _ hb hplain

/-- `D` is found and told of. -/
theorem fatStat_tells_rooted : Meets (fatStat .small 1000 [0x6d, 0x6e, 0x74])
      ((.rooted, .small), .rooted)
    (fun i s => Volume.rooted.Same s.1.1 ∧
      (Item.short (slot .small [2] .rooted 1)).info = some i)
    fun _ _ => False := by
  refine (fatStat_tells Geometry.laid_small rfl ample_named tree_rooted (by decide)
    fun rest hon => ?_).mono (fun i s hs => ?_) fun e s he => ?_
  · rw [onMount_rooted hon]
    decide
  · obtain ⟨hsame, rest, q, hon, hwalk, hinfo⟩ := hs
    rw [onMount_rooted hon] at hwalk
    obtain rfl := Option.some.inj (Except.ok.inj (walk_rooted hwalk))
    exact ⟨hsame, hinfo⟩
  · obtain ⟨-, err, -, ⟨hnot, -⟩ | ⟨rest, names, hon, hwalk⟩⟩ := he
    · exact hnot [0x2f, 0x44] ⟨rfl, by decide, by decide, by simp⟩
    · rw [onMount_rooted hon] at hwalk
      cases walk_rooted hwalk

/-- The path `/mnt`, where the stack holds the place of `D`. -/
def Way.mounted : Way := ⟨[0x2f, 0x6d, 0x6e, 0x74], ⟨4, 32⟩⟩

theorem fatStat_stack_mounted : Meets (fatStat .small 1000 [0x6d, 0x6e, 0x74])
      ((.rooted, .small), .mounted)
    (fun i s => Volume.rooted.Same s.1.1 ∧ (Item.short (slot .small [2] .rooted 1)).info = some i)
    fun _ _ => False := by
  have hdir : smallDirs 2 = some ([2], [.gap (slot .small [2] .rooted 0)] ++
      .short (slot .small [2] .rooted 1) :: []) := rfl
  have hon : OnMount [0x6d, 0x6e, 0x74] Way.mounted.path [] :=
    ⟨rfl, by decide, by decide, fun c hc => by cases hc⟩
  exact fatStat_stack Geometry.laid_small rfl ample_named tree_rooted hon rfl hdir rfl (by decide)

end Demoos.Fat
