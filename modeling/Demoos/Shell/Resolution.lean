import Demoos.Shell.Climbing

/-!
# Resolution of paths

A path names a directory by its components, and `normalize_path` should leave the resolved ones.
It does, as long as the stack is one of whole names (`text`): each segment of what is written is
ended by a slash, and none ends in a dot.  `tidy` says from the text of the path when
that is so, and when a `..` does not take a repeated slash for a name or the root for a directory.
-/

namespace Demoos

open CString (Stands)
open Paths (components resolve visit)

/-! ## Tidy paths -/

/-- A segment of the path, with the slashes that are left, each of them with a name in front or
not.  There is no result for a segment that the code takes for something else. -/
def tidy (st : List Bool) (w : List CChar) : Option (List Bool) :=
  if w = [] then some (false :: st)
  else if w = [dot] then some st
  else if w = [dot, dot] then
    match st with
    | [] => none
    | true :: st => some st
    | false :: st => if true ∈ st then none else some st
  else if [dot] <:+ w then none
  else if st = [] then none
  else some (true :: st)

def Tidy (xs : List CChar) : Prop := ((xs.splitOn slash).foldlM tidy []).isSome

instance (xs : List CChar) : Decidable (Tidy xs) :=
  inferInstanceAs (Decidable (Option.isSome _ = true))

/-- The call leaves an absolute path with the resolved components, and a second one leaves
that. -/
def Resolves (path : Int → CChar) (xs : List CChar) : Prop :=
  ∃ fuel t ys, normalizePath fuel path = some t ∧ Stands (fun i : Nat => t.path i) ys ∧
    ys.head? = some slash ∧ components slash ys = resolve dot (components slash xs) ∧
    ∃ fuel t', normalizePath fuel t.path = some t' ∧ Stands (fun i : Nat => t'.path i) ys

/-- `ys` is the path `xs` up to the end of a segment. -/
def Beginning (ys xs : List CChar) : Prop := ys = xs ∨ ∃ zs, xs = ys ++ slash :: zs

/-! ## Stacks of names -/

/-- The stack that ends each segment of `cs` with a slash, the last one on top. -/
def text : List (List CChar) → List CChar
  | [] => []
  | c :: cs => slash :: (c.reverse ++ text cs)

def names (cs : List (List CChar)) : List (List CChar) := cs.filter (· ≠ [])

/-- Segments that the code leaves alone, the first of them empty. -/
structure Proper (cs : List (List CChar)) : Prop where
  noSlash : ∀ c ∈ cs, slash ∉ c
  noDot : ∀ c ∈ cs, ¬ [dot] <:+ c
  root : cs ≠ [] → cs.getLast? = some []

section Text

variable {cs : List (List CChar)} {c v w : List CChar}

theorem splitOn_text (hcs : ∀ c ∈ cs, slash ∉ c) (hv : slash ∉ v) :
    ((text cs).reverse ++ v).splitOn slash = cs.reverse ++ [v] := by
  induction cs generalizing v with
  | nil => exact List.splitOn_eq_singleton hv
  | cons c cs ih =>
      have htext : (text (c :: cs)).reverse ++ v = ((text cs).reverse ++ c) ++ slash :: v := by
        simp [text]
      rw [htext, List.splitOn_append_cons_self, List.splitOn_eq_singleton hv, List.reverse_cons,
        ih (fun d hd => hcs d (List.mem_cons_of_mem c hd)) (hcs c List.mem_cons_self)]

theorem components_result (hcs : ∀ c ∈ cs, slash ∉ c) (hv : slash ∉ v) :
    components slash (Scan.result (v.reverse ++ text cs)) =
      (names cs).reverse ++ components slash v := by
  have hall : components slash ((text cs).reverse ++ v) =
      (names cs).reverse ++ components slash v := by
    rw [components, splitOn_text hcs hv, List.filter_append, List.filter_reverse, components,
      List.splitOn_eq_singleton hv]
    rfl
  unfold Scan.result
  split
  next hnil =>
    rw [List.append_eq_nil_iff, List.reverse_eq_nil_iff] at hnil
    rw [← hall, hnil.1, hnil.2]
    decide
  next => rw [List.reverse_append, List.reverse_reverse, hall]

theorem components_text (hcs : ∀ c ∈ cs, slash ∉ c) :
    components slash (Scan.result (text cs)) = (names cs).reverse :=
  (components_result hcs List.not_mem_nil).trans (List.append_nil _)

theorem head_result (h : Proper cs) (hroot : cs = [] → v = []) :
    (Scan.result (v.reverse ++ text cs)).head? = some slash := by
  have hlast : ∀ cs : List (List CChar), cs.getLast? = some [] → (text cs).getLast? = some slash := by
    intro cs hcs
    induction cs with
    | nil => exact absurd hcs nofun
    | cons c cs ih =>
        cases cs with
        | nil =>
            obtain rfl : c = [] := by simpa using hcs
            rfl
        | cons d cs =>
            rw [List.getLast?_cons_cons] at hcs
            have htext : text (c :: d :: cs) = (slash :: c.reverse) ++ text (d :: cs) := rfl
            rw [htext, List.getLast?_append, ih hcs]
            rfl
  unfold Scan.result
  split
  next => rfl
  next hne =>
    cases cs with
    | nil => exact absurd (by rw [hroot rfl]; rfl) hne
    | cons c cs =>
        rw [List.reverse_append, List.reverse_reverse, List.head?_append, List.head?_reverse,
          hlast _ (h.root (List.cons_ne_nil c cs))]
        rfl

theorem dropWhile_text (cs : List (List CChar)) : (text cs).dropWhile (· ≠ slash) = text cs := by
  cases cs with
  | nil => rfl
  | cons c cs => exact List.dropWhile_cons_of_neg (by simp)

/-- `..` takes away the last segment. -/
theorem up_text (hc : slash ∉ c) : up (text (c :: cs)) = some (text cs) := by
  have hall : ∀ x ∈ c.reverse, decide (x ≠ slash) = true := by
    intro x hx
    rw [decide_eq_true_eq]
    rintro rfl
    exact hc (List.mem_reverse.mp hx)
  refine congrArg some ?_
  rw [List.dropWhile_append_of_pos hall, dropWhile_text]

end Text

/-! ## One segment -/

/-- What the segments of a path leave, the last one first. -/
def visitSegment (st : List (List CChar)) (w : List CChar) : List (List CChar) :=
  if w = [] then st else visit dot st w

theorem foldl_visitSegment (ws st : List (List CChar)) :
    (ws.filter (· ≠ [])).foldl (visit dot) st = ws.foldl visitSegment st := by
  induction ws generalizing st with
  | nil => rfl
  | cons w ws ih =>
      rw [List.foldl_cons, visitSegment]
      by_cases hw : w = []
      · rw [if_pos hw, List.filter_cons_of_neg (by simpa using hw)]
        exact ih st
      · rw [if_neg hw, List.filter_cons_of_pos (by simpa using hw), List.foldl_cons]
        exact ih _

/-- Is a slash one with a name in front? -/
def isName (c : List CChar) : Bool := c ≠ []

theorem names_eq_nil_iff {cs : List (List CChar)} : names cs = [] ↔ true ∉ cs.map isName := by
  rw [names, List.filter_eq_nil_iff, List.mem_map]
  constructor
  · rintro h ⟨c, hc, hname⟩
    exact h c hc hname
  · exact fun h c hc hname => h ⟨c, hc, hname⟩

section Segment

variable {cs : List (List CChar)} {w : List CChar} {st : List Bool}

theorem Proper.tail {c : List CChar} (h : Proper (c :: cs)) : Proper cs where
  noSlash d hd := h.noSlash d (List.mem_cons_of_mem c hd)
  noDot d hd := h.noDot d (List.mem_cons_of_mem c hd)
  root hne := by
    have hroot := h.root (List.cons_ne_nil c cs)
    cases cs with
    | nil => exact absurd rfl hne
    | cons d cs => rwa [List.getLast?_cons_cons] at hroot

theorem Proper.push (h : Proper cs) (hslash : slash ∉ w) (hdot : ¬ [dot] <:+ w)
    (hroot : cs = [] → w = []) : Proper (w :: cs) where
  noSlash := List.forall_mem_cons.mpr ⟨hslash, h.noSlash⟩
  noDot := List.forall_mem_cons.mpr ⟨hdot, h.noDot⟩
  root _ := by
    cases cs with
    | nil => rw [hroot rfl]; rfl
    | cons c cs => rw [List.getLast?_cons_cons, h.root (List.cons_ne_nil c cs)]

/-- A tidy segment is a name with a slash below it or an empty segment, or a `.`, or a `..` that
takes away what it should. -/
theorem tidy_cases (h : tidy (cs.map isName) w = some st) :
    (¬ [dot] <:+ w ∧ (cs = [] → w = []) ∧ st = (w :: cs).map isName) ∨
      (w = [dot] ∧ st = cs.map isName) ∨
      ∃ c cs', cs = c :: cs' ∧ w = [dot, dot] ∧ (c = [] → names cs' = []) ∧
        st = cs'.map isName := by
  unfold tidy at h
  split at h
  next hw =>
    subst hw
    exact .inl ⟨by decide, fun _ => rfl, (Option.some.inj h).symm⟩
  next hw =>
    split at h
    next hdot => exact .inr (.inl ⟨hdot, (Option.some.inj h).symm⟩)
    next =>
      split at h
      next hup =>
        refine .inr (.inr ?_)
        cases cs with
        | nil => cases h
        | cons c cs =>
            by_cases hc : c = []
            · have hname : isName c = false := by simp [isName, hc]
              rw [List.map_cons, hname] at h
              obtain ⟨hnone, hst⟩ := Option.ite_none_left_eq_some.mp h
              exact ⟨c, cs, rfl, hup, fun _ => names_eq_nil_iff.mpr hnone, (Option.some.inj hst).symm⟩
            · have hname : isName c = true := by simpa [isName] using hc
              rw [List.map_cons, hname] at h
              exact ⟨c, cs, rfl, hup, fun he => absurd he hc, (Option.some.inj h).symm⟩
      next =>
        obtain ⟨hdot, h⟩ := Option.ite_none_left_eq_some.mp h
        obtain ⟨hroot, h⟩ := Option.ite_none_left_eq_some.mp h
        have hname : isName w = true := by simpa [isName] using hw
        refine .inl ⟨hdot, fun hcs => absurd (by rw [hcs]; rfl) hroot, ?_⟩
        rw [← Option.some.inj h, List.map_cons, hname]

theorem visitSegment_dot (st : List (List CChar)) : visitSegment st [dot] = st := rfl

theorem visitSegment_dotDot (st : List (List CChar)) : visitSegment st [dot, dot] = st.tail := rfl

theorem visitSegment_name (h : ¬ [dot] <:+ w) (cs : List (List CChar)) :
    visitSegment (names cs) w = names (w :: cs) := by
  have hone : w ≠ [dot] := fun he => h (he ▸ List.suffix_refl _)
  have htwo : w ≠ [dot, dot] := fun he => h (he ▸ List.suffix_cons dot [dot])
  unfold visitSegment visit
  by_cases hw : w = []
  · rw [if_pos hw, names, names, List.filter_cons_of_neg (by simpa using hw)]
  · rw [if_neg hw, if_neg hone, if_neg htwo, names, names,
      List.filter_cons_of_pos (by simpa using hw)]

theorem names_pop {c : List CChar} {cs : List (List CChar)} (h : c = [] → names cs = []) :
    (names (c :: cs)).tail = names cs := by
  by_cases hc : c = []
  · rw [names, List.filter_cons_of_neg (by simpa using hc)]
    change (names cs).tail = names cs
    rw [h hc]
    rfl
  · rw [names, List.filter_cons_of_pos (by simpa using hc)]
    rfl

/-- A tidy segment that a slash ends keeps the stack one of names, the resolved ones. -/
theorem Proper.step (h : Proper cs) (hw : slash ∉ w) (ht : tidy (cs.map isName) w = some st) :
    ∃ cs', Proper cs' ∧ st = cs'.map isName ∧ enter [slash] (text cs) w = some (text cs') ∧
      visitSegment (names cs) w = names cs' := by
  rcases tidy_cases ht with ⟨hdot, hroot, hst⟩ | ⟨rfl, hst⟩ | ⟨c, cs', rfl, rfl, htop, hst⟩
  · exact ⟨w :: cs, h.push hw hdot hroot, hst, enter_name _ _ hdot, visitSegment_name hdot cs⟩
  · exact ⟨cs, h, hst, enter_dot _ _, rfl⟩
  · refine ⟨cs', h.tail, hst, ?_, names_pop htop⟩
    rw [enter_dotDot, up_text (h.noSlash c List.mem_cons_self)]

/-- The last segment leaves the text of the resolved names, with an open name behind. -/
theorem Proper.last (h : Proper cs) (hw : slash ∉ w) (ht : tidy (cs.map isName) w = some st) :
    ∃ cs' v, Proper cs' ∧ slash ∉ v ∧ ¬ [dot] <:+ v ∧ (cs' = [] → v = []) ∧
      enter [] (text cs) w = some (v.reverse ++ text cs') ∧
      (visitSegment (names cs) w).reverse = (names cs').reverse ++ components slash v := by
  rcases tidy_cases ht with ⟨hdot, hroot, hst⟩ | ⟨rfl, hst⟩ | ⟨c, cs', rfl, rfl, htop, hst⟩
  · refine ⟨cs, w, h, hw, hdot, hroot, enter_name _ _ hdot, ?_⟩
    rw [visitSegment_name hdot, Paths.components_segment hw, names]
    by_cases hnil : w = []
    · rw [if_pos hnil, List.filter_cons_of_neg (by simpa using hnil), List.append_nil]
      rfl
    · rw [if_neg hnil, List.filter_cons_of_pos (by simpa using hnil), List.reverse_cons]
      rfl
  · refine ⟨cs, [], h, List.not_mem_nil, by decide, fun _ => rfl, enter_dot _ _, ?_⟩
    rw [visitSegment_dot]
    exact (List.append_nil _).symm
  · refine ⟨cs', [], h.tail, List.not_mem_nil, by decide, fun _ => rfl, ?_, ?_⟩
    · rw [enter_dotDot, up_text (h.noSlash c List.mem_cons_self)]
      rfl
    · rw [visitSegment_dotDot, names_pop htop]
      exact (List.append_nil _).symm

/-- The tidy segments in front of the last one. -/
theorem Proper.front {ws : List (List CChar)} (h : Proper cs) (hws : ∀ w ∈ ws, slash ∉ w)
    (ht : ws.foldlM tidy (cs.map isName) = some st) :
    ∃ cs', Proper cs' ∧ st = cs'.map isName ∧
      ws.foldlM (enter [slash]) (text cs) = some (text cs') ∧
      ws.foldl visitSegment (names cs) = names cs' := by
  induction ws generalizing cs with
  | nil => exact ⟨cs, h, (Option.some.inj ht).symm, rfl, rfl⟩
  | cons w ws ih =>
      obtain ⟨hw, hrest⟩ := List.forall_mem_cons.mp hws
      rw [List.foldlM_cons] at ht
      obtain ⟨st', hfirst, ht⟩ := Option.bind_eq_some_iff.mp ht
      obtain ⟨cs', hcs', rfl, henter, hvisit⟩ := h.step hw hfirst
      obtain ⟨cs'', hcs'', hst, hfold, hvisits⟩ := ih hcs' hrest ht
      refine ⟨cs'', hcs'', hst, ?_, ?_⟩
      · rw [List.foldlM_cons, henter]
        exact hfold
      · rw [List.foldl_cons, hvisit, hvisits]

/-- The ways for a segment to be untidy. -/
theorem tidy_none_cases (h : tidy (cs.map isName) w = none) :
    (w = [dot, dot] ∧ cs = []) ∨
      (w = [dot, dot] ∧ ∃ cs', cs = [] :: cs' ∧ names cs' ≠ []) ∨
      (∃ v, v ≠ [] ∧ w = v ++ [dot, dot]) ∨ (∃ v, v ≠ [] ∧ ¬ [dot] <:+ v ∧ w = v ++ [dot]) ∨
      (¬ [dot] <:+ w ∧ w ≠ [] ∧ cs = []) := by
  unfold tidy at h
  split at h
  next => cases h
  next hw =>
    split at h
    next => cases h
    next hone =>
      split at h
      next hup =>
        cases cs with
        | nil => exact .inl ⟨hup, rfl⟩
        | cons c cs =>
            refine .inr (.inl ⟨hup, ?_⟩)
            by_cases hc : c = []
            · subst hc
              have hname : isName [] = false := rfl
              rw [List.map_cons, hname] at h
              refine ⟨cs, rfl, fun hnil => ?_⟩
              dsimp only at h
              split at h
              next hmem => exact names_eq_nil_iff.mp hnil hmem
              next => cases h
            · have hname : isName c = true := by simpa [isName] using hc
              rw [List.map_cons, hname] at h
              cases h
      next htwo =>
        have hkind := segment_cases w
        rcases hkind with hone' | htwo' | hup | hdot | hname
        · exact absurd hone' hone
        · exact absurd htwo' htwo
        · exact .inr (.inr (.inl hup))
        · exact .inr (.inr (.inr (.inl hdot)))
        · rw [if_neg hname] at h
          split at h
          next hcs => exact .inr (.inr (.inr (.inr ⟨hname, hw, List.map_eq_nil_iff.mp hcs⟩)))
          next => cases h

end Segment

/-! ## The whole path -/

namespace Scan

variable {s t u : Scan} {n : Nat} {acc mid : List CChar}

/-- The scan of the last segment. -/
theorem Holds.last {w acc' : List CChar} (h : Holds n s acc mid w) (hw : slash ∉ w)
    (henter : enter [] acc w = some acc') : ∃ u mid', Leads s u ∧ Holds n u acc' mid' [] := by
  have hlast : Holds n s acc mid (w ++ ([] ++ [])) := by
    rw [List.append_nil, List.append_nil]
    exact h
  rcases hlast.segment hw (.inr ⟨rfl, rfl⟩) with ⟨_, henter', hu⟩ | ⟨hnone, _⟩
  · obtain rfl := Option.some.inj (henter.symm.trans henter')
    exact hu
  · exact absurd (henter.symm.trans hnone) nofun

/-- A scan that has come to the end leaves one result. -/
theorem Holds.ends_iff (h : Holds n u acc mid []) (hleads : Leads s u) :
    Ends s t ↔ t = u.test.finish := (hleads t).trans (ends_finish h.at_end)

/-- With nothing to pop for the last segment, the zero goes in front of the path, and the
memory keeps the two dots. -/
theorem Holds.keepsDots (h : Holds n s [] mid [dot, dot]) (hends : Ends s t) :
    Stands (fun i : Nat => t.path i) (mid ++ [dot, dot]) := by
  obtain ⟨hnext, hwrite⟩ := h.under (.inl rfl)
  have hpath : s.next.path = s.path := by
    rw [hnext]
    exact path_lookAhead _
  have hstop : s.path (s.read + 2) = 0 := h.unread.ended
  have hread : s.next.read = s.read + 2 := by
    rw [hnext, beforeBackUp, hstop]
    rfl
  have hzero : s.next.path s.next.read = 0 := by rw [hpath, hread, hstop]
  obtain rfl := (ends_finish hzero).mp ((h.leads t).mp hends)
  have hfinish : s.next.test.finish = s.next.test.store s.next.write 0 := by
    refine if_neg ?_
    change s.next.write ≠ 0
    rw [hwrite]
    decide
  refine h.text.congr fun i _ => ?_
  rw [hfinish, hwrite]
  change Function.update s.next.path (-1) 0 i = s.path i
  rw [Function.update_of_ne (by omega), hpath]

end Scan

theorem scanned_names {xs : List CChar} (h : ∀ w ∈ xs.splitOn slash, ¬ [dot] <:+ w)
    (acc : List CChar) : scanned acc (xs.splitOn slash) = some (xs.reverse ++ acc) := by
  induction xs using Paths.segment_induction slash generalizing acc with
  | last w hw =>
      rw [List.splitOn_eq_singleton hw] at h ⊢
      exact enter_name _ _ (h w List.mem_cons_self)
  | more w rest hw ih =>
      rw [List.splitOn_append_cons_self_of_not_mem hw] at h ⊢
      obtain ⟨hfirst, hrest⟩ := List.forall_mem_cons.mp h
      rw [scanned_cons acc w (List.splitOn_ne_nil slash rest), enter_name _ _ hfirst,
        Option.bind_some, ih hrest]
      simp

/-- Where no segment ends in a dot, the call leaves the path as it is. -/
theorem normalizePath_names {path : Int → CChar} {xs : List CChar}
    (h : Stands (fun i : Nat => path i) xs) (hne : xs ≠ [])
    (hnames : ∀ w ∈ xs.splitOn slash, ¬ [dot] <:+ w) :
    ∃ fuel t, normalizePath fuel path = some t ∧ Stands (fun i : Nat => t.path i) xs := by
  rcases (Scan.holds_start h).scans with ⟨acc, hscan, u, mid, hleads, hu⟩ | ⟨hnone, _⟩
  · obtain rfl := Option.some.inj ((scanned_names hnames []).symm.trans hscan)
    obtain ⟨fuel, hrun⟩ := (hu.ends_iff hleads).mpr rfl
    refine ⟨fuel, _, hrun, ?_⟩
    have hresult : Scan.result (xs.reverse ++ []) = xs := by
      rw [List.append_nil, Scan.result, if_neg (by simpa using hne), List.reverse_reverse]
    exact hresult ▸ hu.finish.2
  · cases (scanned_names hnames []).symm.trans hnone

theorem noDot_result {cs : List (List CChar)} {v : List CChar} (h : Proper cs) (hv : slash ∉ v)
    (hdot : ¬ [dot] <:+ v) :
    ∀ w ∈ (Scan.result (v.reverse ++ text cs)).splitOn slash, ¬ [dot] <:+ w := by
  unfold Scan.result
  split
  next => decide
  next =>
    rw [List.reverse_append, List.reverse_reverse, splitOn_text h.noSlash hv]
    intro w hw
    rcases List.mem_append.mp hw with hw | hw
    · exact h.noDot w (List.mem_reverse.mp hw)
    · rwa [List.mem_singleton.mp hw]

theorem proper_nil : Proper [] := ⟨by simp, by simp, fun h => absurd rfl h⟩

theorem resolve_concat (front w : List CChar) (hw : slash ∉ w) :
    resolve dot (components slash (front ++ slash :: w)) =
      (visitSegment ((front.splitOn slash).foldl visitSegment []) w).reverse := by
  rw [resolve, components, foldl_visitSegment, List.splitOn_append_cons_self,
    List.splitOn_eq_singleton hw, List.foldl_append]
  rfl

theorem exists_front {xs : List CChar} (h : xs.head? = some slash) :
    ∃ front w, xs = front ++ slash :: w ∧ slash ∉ w := by
  refine Paths.exists_last_segment ?_
  cases xs with
  | nil => cases h
  | cons c xs => exact List.mem_cons.mpr (.inl (Option.some.inj h).symm)

/-- A tidy path is resolved. -/
theorem Tidy.resolves {path : Int → CChar} {xs : List CChar} (h : Tidy xs)
    (habs : xs.head? = some slash) (hpath : Stands (fun i : Nat => path i) xs) :
    Resolves path xs := by
  obtain ⟨front, w, rfl, hw⟩ := exists_front habs
  obtain ⟨st, hst⟩ := Option.isSome_iff_exists.mp h
  rw [List.splitOn_append_cons_self, List.splitOn_eq_singleton hw, List.foldlM_append] at hst
  obtain ⟨st', hfront, hlast⟩ := Option.bind_eq_some_iff.mp hst
  obtain ⟨cs, hcs, rfl, henter, hvisit⟩ :=
    proper_nil.front (fun v hv => Paths.not_mem_segment hv) hfront
  obtain ⟨st'', htidy, -⟩ := Option.bind_eq_some_iff.mp hlast
  obtain ⟨cs', v, hcs', hv, hdot, hroot, henter', hvisit'⟩ := hcs.last hw htidy
  obtain ⟨u, mid, hleads, hu⟩ := (Scan.holds_start hpath).front henter
  obtain ⟨u', mid', hleads', hu'⟩ := hu.last hw henter'
  obtain ⟨fuel, hrun⟩ := (hu'.ends_iff (hleads.trans hleads')).mpr rfl
  have hhead := head_result hcs' hroot
  refine ⟨fuel, _, _, hrun, hu'.finish.2, hhead, ?_, ?_⟩
  · rw [components_result hcs'.noSlash hv, resolve_concat front w hw, ← hvisit']
    exact congrArg (fun st => (visitSegment st w).reverse) hvisit.symm
  · refine normalizePath_names hu'.finish.2 ?_ (noDot_result hcs' hv hdot)
    intro hnil
    rw [hnil] at hhead
    cases hhead

/-- What the call leaves where its last segment is entered. -/
theorem Resolves.components {path : Int → CChar} {front w acc : List CChar}
    {cs : List (List CChar)} (h : Resolves path (front ++ slash :: w))
    (hpath : Stands (fun i : Nat => path i) (front ++ slash :: w)) (hw : slash ∉ w)
    (hfront : (front.splitOn slash).foldlM (enter [slash]) [] = some (text cs))
    (hvisit : (front.splitOn slash).foldl visitSegment [] = names cs)
    (henter : enter [] (text cs) w = some acc) :
    (Scan.result acc).head? = some slash ∧
      components slash (Scan.result acc) = (visitSegment (names cs) w).reverse := by
  obtain ⟨fuel, t, ys, hrun, hys, habs, hcomp, -⟩ := h
  obtain ⟨u, mid, hleads, hu⟩ := (Scan.holds_start hpath).front hfront
  obtain ⟨u', mid', hleads', hu'⟩ := hu.last hw henter
  obtain rfl := (hu'.ends_iff (hleads.trans hleads')).mp ⟨fuel, hrun⟩
  obtain rfl := hys.unique hu'.finish.2
  rw [resolve_concat front w hw, hvisit] at hcomp
  exact ⟨habs, hcomp⟩

theorem visitSegment_append {v xs : List CChar} (st : List (List CChar)) (hv : v ≠ [])
    (hxs : xs = [dot] ∧ ¬ [dot] <:+ v ∨ xs = [dot, dot]) :
    visitSegment st (v ++ xs) = (v ++ xs) :: st := by
  have hnil : v ++ xs ≠ [] := by simp [hv]
  rcases hxs with ⟨rfl, hdot⟩ | rfl
  · have htwo : v ++ [dot] ≠ [dot, dot] := fun he =>
      hdot ⟨[], (List.append_cancel_right (show v ++ [dot] = [dot] ++ [dot] from he)).symm⟩
    rw [visitSegment, visit, if_neg hnil, if_neg (append_ne_of_length hv (by simp)), if_neg htwo]
  · rw [visitSegment, visit, if_neg hnil, if_neg (append_ne_of_length hv (by simp)),
      if_neg (append_ne_of_length hv (by simp))]

/-- A path up to an untidy segment is not resolved. -/
theorem not_resolves {path : Int → CChar} {front w : List CChar} {cs : List (List CChar)}
    (hcs : Proper cs) (hpath : Stands (fun i : Nat => path i) (front ++ slash :: w))
    (hw : slash ∉ w) (hfront : (front.splitOn slash).foldlM (enter [slash]) [] = some (text cs))
    (hvisit : (front.splitOn slash).foldl visitSegment [] = names cs)
    (htidy : tidy (cs.map isName) w = none) : ¬ Resolves path (front ++ slash :: w) := by
  intro h
  have hresult := fun acc => @h.components path front w acc cs hpath hw hfront hvisit
  rcases tidy_none_cases htidy with ⟨rfl, rfl⟩ | ⟨rfl, cs', rfl, hne⟩ | ⟨v, hne, rfl⟩ |
    ⟨v, hne, hdot, rfl⟩ | ⟨hdot, hne, rfl⟩
  · obtain ⟨fuel, t, ys, hrun, hys, -, hcomp, -⟩ := h
    obtain ⟨u, mid, hleads, hu⟩ := (Scan.holds_start hpath).front hfront
    obtain rfl := hys.unique (hu.keepsDots ((hleads t).mp ⟨fuel, hrun⟩))
    rw [resolve_concat front _ hw, hvisit] at hcomp
    have hslash := Paths.components_eq_nil hcomp dot (by simp)
    exact absurd hslash (by decide)
  · obtain ⟨-, hcomp⟩ := hresult (text cs')
      (by rw [enter_dotDot, up_text (hcs.noSlash [] List.mem_cons_self)])
    have hnames : names ([] :: cs') = names cs' := rfl
    rw [components_text hcs.tail.noSlash, visitSegment_dotDot, hnames] at hcomp
    have hlen := congrArg List.length hcomp
    have hpos := List.length_pos_iff.mpr hne
    rw [List.length_reverse, List.length_reverse, List.length_tail] at hlen
    omega
  · have hv : slash ∉ v := fun hs => hw (List.mem_append_left _ hs)
    obtain ⟨-, hcomp⟩ := hresult (text cs)
      (by rw [enter_append_dotDot, up_name (text cs) hv hne, dropWhile_text])
    rw [components_text hcs.noSlash, visitSegment_append (names cs) hne (.inr rfl)] at hcomp
    have hlen := congrArg List.length hcomp
    rw [List.length_reverse, List.length_reverse, List.length_cons] at hlen
    omega
  · have hv : slash ∉ v := fun hs => hw (List.mem_append_left _ hs)
    obtain ⟨-, hcomp⟩ := hresult _ (enter_append_dot [] (text cs) hdot)
    rw [components_result hcs.noSlash hv, visitSegment_append (names cs) hne (.inl ⟨rfl, hdot⟩),
      List.reverse_cons, Paths.components_segment hv, if_neg hne] at hcomp
    have hlast := (List.cons.inj (List.append_cancel_left hcomp)).1
    exact absurd (congrArg List.length hlast) (by simp)
  · obtain ⟨habs, -⟩ := hresult _ (enter_name [] (text []) hdot)
    have hres : Scan.result ([] ++ (w.reverse ++ text [])) = w := by
      rw [List.nil_append, text, List.append_nil, Scan.result, if_neg (by simpa using hne),
        List.reverse_reverse]
    rw [hres] at habs
    exact hw (List.mem_of_head? habs)

/-! ## Exactness -/

theorem Tidy.beginning {xs ys : List CChar} (h : Tidy xs) (hys : Beginning ys xs) : Tidy ys := by
  rcases hys with rfl | ⟨zs, rfl⟩
  · exact h
  · obtain ⟨st, hst⟩ := Option.isSome_iff_exists.mp h
    rw [List.splitOn_append_cons_self, List.foldlM_append] at hst
    obtain ⟨st', hfirst, -⟩ := Option.bind_eq_some_iff.mp hst
    exact Option.isSome_iff_exists.mpr ⟨st', hfirst⟩

/-- A fold that fails does so at one of its steps. -/
theorem exists_of_foldlM_none {σ ι : Type} {f : σ → ι → Option σ} {is : List ι} {s : σ}
    (h : is.foldlM f s = none) :
    ∃ js i ks t, is = js ++ i :: ks ∧ js.foldlM f s = some t ∧ f t i = none := by
  induction is generalizing s with
  | nil => cases h
  | cons i is ih =>
      rw [List.foldlM_cons] at h
      cases hi : f s i with
      | none => exact ⟨[], i, is, s, rfl, rfl, hi⟩
      | some u =>
          rw [hi] at h
          obtain ⟨js, j, ks, t, rfl, hjs, hj⟩ := ih h
          refine ⟨i :: js, j, ks, t, rfl, ?_, hj⟩
          rw [List.foldlM_cons, hi]
          exact hjs

/-- A path is tidy exactly if it is resolved, and it is so up to the end of each of its
segments. -/
theorem tidy_iff {xs : List CChar} (habs : xs.head? = some slash) (hproper : ∀ x ∈ xs, x ≠ 0) :
    Tidy xs ↔ ∀ ys, Beginning ys xs → ys.head? = some slash →
      ∀ path, Stands (fun i : Nat => path i) ys → Resolves path ys := by
  constructor
  · intro h ys hys habs' path hpath
    exact (h.beginning hys).resolves habs' hpath
  · intro h
    by_contra htidy
    obtain ⟨ws, w, ws', st, hsplit, hws, hw⟩ :=
      exists_of_foldlM_none (Option.not_isSome_iff_eq_none.mp htidy)
    have hmem : ∀ v ∈ ws ++ w :: ws', slash ∉ v := fun v hv => Paths.not_mem_segment (hsplit ▸ hv)
    obtain ⟨cs, hcs, rfl, henter, hvisit⟩ :=
      proper_nil.front (fun v hv => hmem v (List.mem_append_left _ hv)) hws
    have hne : ws ≠ [] := by
      rintro rfl
      obtain ⟨xs, rfl⟩ := List.head?_eq_some_iff.mp habs
      have hfirst : (slash :: xs).splitOn slash = [] :: xs.splitOn slash :=
        List.splitOn_append_cons_self_of_not_mem (List.not_mem_nil (a := slash)) xs
      obtain rfl := (List.cons.inj (hfirst.symm.trans hsplit)).1
      cases hw
    obtain ⟨front, rfl, hxs⟩ := Paths.eq_of_splitOn_append hsplit hne
    have hbegin : Beginning (front ++ slash :: w) xs := by
      rcases hxs with rfl | ⟨zs, rfl⟩
      · exact .inl rfl
      · exact .inr ⟨zs, rfl⟩
    have habs' : (front ++ slash :: w).head? = some slash := by
      rcases hxs with rfl | ⟨zs, rfl⟩
      · exact habs
      · rwa [List.head?_append_of_ne_nil _ (by simp)] at habs
    have hstands : Stands (fun i : Nat => memoryOf (front ++ slash :: w) i)
        (front ++ slash :: w) := by
      refine stands_memoryOf fun x hx => hproper x ?_
      rcases hxs with rfl | ⟨zs, rfl⟩
      · exact hx
      · exact List.mem_append_left _ hx
    have hw' : slash ∉ w := hmem w (List.mem_append_right _ List.mem_cons_self)
    exact not_resolves hcs hstands hw' henter hvisit hw (h _ hbegin habs' _ hstands)

/-- `/a//b/../c` -/
theorem resolves_parent :
    Tidy [slash, 97, slash, slash, 98, slash, dot, dot, slash, 99] ∧
      Resolves (memoryOf [slash, 97, slash, slash, 98, slash, dot, dot, slash, 99])
        [slash, 97, slash, slash, 98, slash, dot, dot, slash, 99] :=
  ⟨by decide, (tidy_iff rfl (by decide)).mp (by decide) _ (.inl rfl) rfl _
    (stands_memoryOf (by decide))⟩

/-- `/foo.`, of which the call leaves `/foo`. -/
theorem not_resolves_dot :
    Stands (fun i : Nat => memoryOf [slash, 102, 111, 111, dot] i) [slash, 102, 111, 111, dot] ∧
      ¬ Resolves (memoryOf [slash, 102, 111, 111, dot]) [slash, 102, 111, 111, dot] := by
  have hroot : Proper [[]] := proper_nil.push List.not_mem_nil (by decide) fun _ => rfl
  have hstands : Stands (fun i : Nat => memoryOf [slash, 102, 111, 111, dot] i)
      [slash, 102, 111, 111, dot] := stands_memoryOf (by decide)
  refine ⟨hstands, show ¬ Resolves _ ([] ++ slash :: [102, 111, 111, dot]) from ?_⟩
  exact not_resolves hroot hstands (by decide) (by decide) (by decide) (by decide)

end Demoos
