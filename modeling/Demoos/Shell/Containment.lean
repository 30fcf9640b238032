import Demoos.Shell.Commands

/-!
# Paths that fit

A handler puts the working directory and a part of the command line into one buffer.  `composed` is
the path that it means, from the two texts alone, and `Admits` says from them when the handler stays
in its buffers and reports a path that does not fit.

`handle_write`, `handle_exec` and `handle_exec_from_bin` test the length of that path.  The first
leaves its buffers behind a long command line and with any content, and the others rely on
`normalize_path`.  `handle_mkdir`, `handle_cd`, `handle_show` and `handle_tree` leave them with a long
path, and `handle_cd` also without one.
-/

namespace Demoos

namespace Shell

open Buffer
open CString (Stands)
open Function (update update_self update_of_ne)

/-! ## Composed paths -/

inductive Handler where
  | handleMkdir
  | handleCd
  | handleShow
  | handleTree
  | handleWrite
  | handleExec
  | handleExecFromBin
deriving DecidableEq, Repr

def runHandler (h : Handler) (fuel : Nat) (a : Answers) (stack : FileContent)
    (buffer workingDirectory : Command) : Option Outcome :=
  match h with
  | .handleMkdir => handleMkdir a buffer workingDirectory
  | .handleCd => handleCd fuel a buffer workingDirectory
  | .handleShow => handleShow fuel a stack buffer workingDirectory
  | .handleTree => handleTree fuel a buffer workingDirectory
  | .handleWrite => handleWrite a buffer workingDirectory
  | .handleExec => handleExec fuel a buffer workingDirectory
  | .handleExecFromBin => handleExecFromBin fuel a buffer workingDirectory

/-- A text with a slash at its end, if it is longer than `limit`. -/
def closed (limit : Nat) (xs : List CChar) : List CChar :=
  if limit < xs.length ∧ xs.getLast? ≠ some slash then xs ++ [slash] else xs

/-- The path `ds` from the directory `ws`. -/
def pathFrom (limit : Nat) (ws ds : List CChar) : List CChar :=
  if ds.head? = some slash then ds else closed limit ws ++ ds

/-- The part of a command line behind the first space. -/
def rest (line : List CChar) : List CChar := second space (lineOf line)

/-- Where the word of `handle_write` ends that starts at the index `i`. -/
def wordEnd (line : List CChar) (i : Nat) : Nat :=
  i + ((line.drop i).takeWhile fun c => ¬ IsWordEnd c).length

/-- The second word. -/
def fileNameOf (line : List CChar) : List CChar :=
  (line.drop (wordEnd line 0 + 1)).takeWhile fun c => ¬ IsWordEnd c

/-- Where `handle_write` looks for the content. -/
def contentStart (line : List CChar) : Nat := wordEnd line (wordEnd line 0 + 1) + 1

def contentOf (line : List CChar) : List CChar :=
  (line.drop (contentStart line)).takeWhile fun c => ¬ c = 0

/-- The path that a handler means. -/
def composed (h : Handler) (ws line : List CChar) : List CChar :=
  match h with
  | .handleMkdir => ws ++ if (rest line).head? = some slash then rest line else slash :: rest line
  | .handleCd => pathFrom 2 ws (closed 0 (rest line))
  | .handleShow => pathFrom 2 ws (rest line)
  | .handleTree => if rest line = [] then ws else pathFrom 1 ws (rest line)
  | .handleWrite => ws ++ fileNameOf line
  | .handleExec => ws ++ rest line
  | .handleExecFromBin => binDirectory ++ first space (lineOf line) ++ binSuffix

/-! ## Containment -/

/-- The working directory is a string that fits, it is left as it was with an error, and there is one
if the path does not fit. -/
structure Outcome.Sound (o : Outcome) (workingDirectory : Command) (path : List CChar) : Prop where
  fits : ∃ ys, Holds o.workingDirectory ys
  unchanged : o.errors ≠ [] → o.workingDirectory = workingDirectory
  reported : maxCommandDimension ≤ path.length → o.errors ≠ []

/-- A run returns, with its accesses in the buffers. -/
def Contained (run : Nat → Option Outcome) (workingDirectory : Command) (path : List CChar) : Prop :=
  ∃ fuel o, run fuel = some o ∧ o.Sound workingDirectory path

/-- There is an end in what `handle_show` prints. -/
def Terminated (a : Answers) (stack : FileContent) : Prop :=
  0 ∈ a.content.val ∨ a.content.val.length < maxCommandDimension ∨
    ∃ i, a.content.val.length ≤ i ∧ i < maxFileDimension ∧ stack.byte i = 0

/-- When a handler stays in its buffers. -/
def Admits (h : Handler) (a : Answers) (stack : FileContent) (ws line : List CChar) : Prop :=
  let path := composed h ws line
  match h with
  | .handleMkdir => rest line = [] ∨ path.length < maxCommandDimension
  | .handleCd => rest line ≠ [] ∧ path.length < maxCommandDimension ∧ StaysBelow path
  | .handleShow => path.length < maxCommandDimension ∧ StaysBelow path ∧
      (-1 < a.openFile → a.readFile = 0 → Terminated a stack)
  | .handleTree => path.length < maxCommandDimension ∧ StaysBelow path
  | .handleWrite => contentStart line < maxCommandDimension ∧
      (a.openFile ≠ -1 → contentOf line = [])
  | .handleExec => rest line = [] ∨ maxCommandDimension ≤ path.length ∨ StaysBelow path
  | .handleExecFromBin => maxCommandDimension ≤ path.length ∨ StaysBelow path

/-! ## What is composed -/

section Compose

variable {n : Nat} {b : Buffer CChar n} {workingDirectory destination temp : Command}
  {ws ds xs : List CChar}

theorem chars_eq (h : Holds b xs) : chars b = some xs := by
  have hlist : (List.range xs.length).map b.byte = xs := by
    refine List.ext_getElem (by simp) fun i _ hi => ?_
    rw [List.getElem_map, List.getElem_range]
    exact h.stands.text i hi
  rw [chars, strlen_eq h]
  exact congrArg some hlist

theorem exists_chars_iff (b : Buffer CChar n) :
    (∃ xs, chars b = some xs) ↔ ∃ i, i < n ∧ b.byte i = 0 := by
  have hskip : (∃ k, strlen b = some k) ↔ _ := exists_skip_iff b 0
  simp only [Nat.zero_le, true_and] at hskip
  rw [← hskip]
  constructor
  · rintro ⟨xs, hxs⟩
    obtain ⟨k, hk, _⟩ := Option.bind_eq_some_iff.mp hxs
    exact ⟨k, hk⟩
  · rintro ⟨k, hk⟩
    exact ⟨_, Option.bind_eq_some_iff.mpr ⟨k, hk, rfl⟩⟩

theorem headD_eq_zero_iff (h : Holds b xs) : xs.headD 0 = 0 ↔ xs = [] := by
  cases xs with
  | nil => simp
  | cons x xs => simpa using h.stands.proper x List.mem_cons_self

theorem headD_eq_slash_iff (xs : List CChar) : xs.headD 0 = slash ↔ xs.head? = some slash := by
  cases xs with
  | nil => decide
  | cons x xs => simp

theorem slashString_holds : Holds slashString [slash] := holds_ofList (by decide) (by decide)

theorem blank_holds : Holds (blank : Command) [] := holds_ofList (by simp) (by decide)

theorem copy_yields (h : Holds temp xs) :
    Yields ((blank : Command).copy temp maxCommandDimension) xs := by
  obtain ⟨b, hcopy, hb⟩ := h.copy (blank : Command) h.inside (Nat.le_refl _) (Nat.le_refl _)
  rw [hcopy]
  exact Yields.holds hb

theorem closePath_yields (h : Holds temp xs) :
    Yields (closePath temp xs.length) (xs ++ [slash]) := by
  have hlen : (xs ++ [slash]).length = xs.length + 1 := List.length_append
  rw [closePath, store, if_pos h.inside, Yields, hlen]
  split
  next hin =>
    refine ⟨_, if_pos hin, ⟨fun i hi => ?_, ?_, ?_⟩, by rwa [hlen]⟩
    · rw [hlen] at hi
      dsimp only
      rw [update_of_ne (by omega)]
      by_cases hlt : i < xs.length
      · rw [update_of_ne (by omega), h.stands.text i hlt, List.getElem_append_left hlt]
      · obtain rfl : i = xs.length := by omega
        rw [update_self]
        simp
    · rw [hlen]
      exact update_self ..
    · intro x hx
      rcases List.mem_append.mp hx with hx | hx
      · exact h.stands.proper x hx
      · rw [List.mem_singleton.mp hx]
        decide
  next hin => exact if_neg hin

/-- A slash behind a path, in the way of `o`. -/
theorem closed_yields (limit : Nat) {o : Option Command} (h : Holds temp xs)
    (ho : Yields o (xs ++ [slash])) :
    Yields
      (if limit < xs.length then
        (temp.load ((xs.length : Int) - 1)).bind fun c => if c ≠ slash then o else some temp
      else some temp) (closed limit xs) := by
  unfold closed
  by_cases hlong : limit < xs.length
  · have hne : xs ≠ [] := List.length_pos_iff.mp (Nat.zero_lt_of_lt hlong)
    rw [if_pos hlong, h.load_last hne, Option.bind_some, List.getLast?_eq_some_getLast hne]
    by_cases hslash : xs.getLast hne = slash
    · rw [if_neg (not_not.mpr hslash), if_neg (by simp [hslash])]
      exact Yields.holds h
    · rw [if_pos hslash, if_pos ⟨hlong, by simpa using hslash⟩]
      exact ho
  · rw [if_neg hlong, if_neg fun h => hlong h.1]
    exact Yields.holds h

theorem composeChild_yields (hw : Holds workingDirectory ws) (hd : Holds destination ds) :
    Yields (composeChild workingDirectory destination)
      (ws ++ if ds.head? = some slash then ds else slash :: ds) := by
  obtain ⟨temp, hcopy, htemp⟩ := (strcat_yields blank_holds hw).exists hw.inside
  simp only [composeChild, Option.bind_eq_bind, hcopy, hd.load_zero, Option.bind_some, ne_eq,
    headD_eq_slash_iff]
  by_cases hslash : ds.head? = some slash
  · rw [if_neg (not_not.mpr hslash), if_pos hslash]
    exact strcat_yields htemp hd
  · rw [if_pos hslash, if_neg hslash, List.append_cons]
    exact (strcat_yields htemp slashString_holds).bind fun b hb => strcat_yields hb hd

theorem composeRelative_yields (hw : Holds workingDirectory ws) (hd : Holds destination ds) :
    Yields (composeRelative workingDirectory destination) (closed 2 ws ++ ds) := by
  obtain ⟨temp, hcopy, htemp⟩ := (copy_yields hw).exists hw.inside
  rw [composeRelative, hcopy]
  change Yields ((strlen temp).bind _) _
  rw [strlen_eq htemp]
  exact (closed_yields 2 htemp (closePath_yields htemp)).bind fun b hb => strcat_yields hb hd

theorem composePath_yields (hw : Holds workingDirectory ws) (hd : Holds destination ds) :
    Yields (composePath workingDirectory destination) (pathFrom 2 ws ds) := by
  rw [composePath, hd.load_zero, pathFrom]
  change Yields (if ds.headD 0 = slash then _ else _) _
  simp only [headD_eq_slash_iff]
  split
  next => exact copy_yields hd
  next => exact composeRelative_yields hw hd

theorem composeTarget_yields (hw : Holds workingDirectory ws) (hd : Holds destination ds) :
    Yields (composeTarget workingDirectory destination)
      (if ds = [] then ws else pathFrom 1 ws ds) := by
  rw [composeTarget, hd.load_zero, pathFrom]
  change Yields (if ds.headD 0 = 0 then _ else if ds.headD 0 = slash then _ else _) _
  simp only [headD_eq_slash_iff, headD_eq_zero_iff hd]
  split
  next => exact copy_yields hw
  next =>
    split
    next => exact copy_yields hd
    next =>
      obtain ⟨temp, hcopy, htemp⟩ := (copy_yields hw).exists hw.inside
      rw [hcopy]
      change Yields ((strlen temp).bind _) _
      rw [strlen_eq htemp]
      have hslash := strcat_yields htemp slashString_holds
      exact (closed_yields 1 htemp hslash).bind fun b hb => strcat_yields hb hd

theorem composeFile_eq (hw : Holds workingDirectory ws) (hd : Holds destination ds) :
    ∃ filePath xs errors, composeFile workingDirectory destination = some (filePath, errors) ∧
      Holds filePath xs ∧ (maxCommandDimension ≤ (ws ++ ds).length → errors ≠ []) := by
  simp only [composeFile, Option.bind_eq_bind, strlen_eq hw, strlen_eq hd, Option.bind_some,
    List.length_append]
  by_cases hfit : ws.length + ds.length < maxCommandDimension
  · obtain ⟨temp, hcopy, htemp⟩ := (strcat_yields blank_holds hw).exists hw.inside
    have hlen : ([] ++ ws ++ ds).length < maxCommandDimension := by
      rwa [List.nil_append, List.length_append]
    obtain ⟨filePath, happend, hpath⟩ := (strcat_yields htemp hd).exists hlen
    simp only [if_pos hfit, hcopy, happend, Option.bind_some]
    exact ⟨_, _, _, rfl, hpath, fun hlong => absurd hlong (Nat.not_le.mpr hfit)⟩
  · simp only [if_neg hfit]
    exact ⟨_, _, _, rfl, blank_holds, fun _ => List.cons_ne_nil _ _⟩

end Compose

section Sound

variable {workingDirectory temp : Command} {ws path xs ys ds : List CChar} {errors : List ShellError}

theorem sound_same (h : Holds workingDirectory ws) :
    Outcome.Sound ⟨workingDirectory, errors⟩ workingDirectory path ↔
      (maxCommandDimension ≤ path.length → errors ≠ []) :=
  ⟨fun hs => hs.reported, fun hlong => ⟨⟨ws, h⟩, fun _ => rfl, hlong⟩⟩

theorem sound_fits (h : Holds workingDirectory ws) (hfit : path.length < maxCommandDimension) :
    Outcome.Sound ⟨workingDirectory, errors⟩ workingDirectory path :=
  (sound_same h).mpr fun hlong => absurd hlong (Nat.not_le.mpr hfit)

theorem not_contained_none : ¬ Contained (fun _ => none) workingDirectory path := by
  rintro ⟨_, _, hnone, _⟩
  cases hnone

theorem contained_error (h : Holds workingDirectory ws) (e : ShellError) :
    Contained (fun _ => some ⟨workingDirectory, [e]⟩) workingDirectory path :=
  ⟨0, _, rfl, (sound_same h).mpr fun _ => List.cons_ne_nil e []⟩

theorem sound_ite {es : List ShellError} {p : Prop} [Decidable p] (h : Holds workingDirectory ws)
    (hfit : path.length < maxCommandDimension) :
    ∃ r : Outcome, (if p then some ⟨workingDirectory, errors⟩ else some ⟨workingDirectory, es⟩) =
      some r ∧ r.Sound workingDirectory path := by
  split
  next => exact ⟨_, rfl, sound_fits h hfit⟩
  next => exact ⟨_, rfl, sound_fits h hfit⟩

/-- A handler that goes on with a path leaves its buffer exactly if the path does not fit. -/
theorem contained_bind {o : Option Command} {run : Command → Option Outcome} (h : Yields o path)
    (hrun : ∀ temp, Holds temp path → path.length < maxCommandDimension →
      ∃ r, run temp = some r ∧ r.Sound workingDirectory path) :
    Contained (fun _ => o.bind run) workingDirectory path ↔ path.length < maxCommandDimension := by
  by_cases hfit : path.length < maxCommandDimension
  · obtain ⟨temp, rfl, htemp⟩ := h.exists hfit
    exact iff_of_true ⟨0, hrun temp htemp hfit⟩ hfit
  · rw [h.eq_none (Nat.not_lt.mp hfit)]
    exact iff_of_false not_contained_none hfit

/-- With `normalize_path` in between no `..` may climb, and the rest of the handler may have a condition
of its own. -/
theorem contained_normalize {o : Option Command} {run : Command → Option Outcome} {P : Prop}
    (h : Yields o path)
    (hrun : ∀ temp ys, Holds temp ys → path.length < maxCommandDimension →
      ((∃ r, run temp = some r ∧ r.Sound workingDirectory path) ↔ P)) :
    Contained (fun fuel => o.bind fun temp => (normalize fuel temp).bind run)
        workingDirectory path ↔
      path.length < maxCommandDimension ∧ StaysBelow path ∧ P := by
  by_cases hfit : path.length < maxCommandDimension
  · obtain ⟨temp, rfl, htemp⟩ := h.exists hfit
    rw [and_iff_right hfit]
    constructor
    · rintro ⟨fuel, r, hr, hsound⟩
      change (normalize fuel temp).bind run = some r at hr
      obtain ⟨temp', hnormal, hr⟩ := Option.bind_eq_some_iff.mp hr
      have hbelow := staysBelow_of_normalize htemp hnormal
      obtain ⟨temp₀, ys, hys, hall⟩ := normalize_of_staysBelow htemp (by decide) hbelow
      obtain rfl := (hall temp').mp ⟨fuel, hnormal⟩
      exact ⟨hbelow, (hrun temp' ys hys hfit).mp ⟨r, hr, hsound⟩⟩
    · rintro ⟨hbelow, hp⟩
      obtain ⟨temp₀, ys, hys, hall⟩ := normalize_of_staysBelow htemp (by decide) hbelow
      obtain ⟨fuel, hnormal⟩ := (hall temp₀).mpr rfl
      obtain ⟨r, hr, hsound⟩ := (hrun temp₀ ys hys hfit).mpr hp
      refine ⟨fuel, r, ?_, hsound⟩
      change (normalize fuel temp).bind run = some r
      rw [hnormal]
      exact hr
  · rw [h.eq_none (Nat.not_lt.mp hfit)]
    exact iff_of_false not_contained_none fun h => hfit h.1

theorem contained_normalize_iff {o : Option Command} {run : Command → Option Outcome}
    (h : Yields o path)
    (hrun : ∀ temp ys, Holds temp ys → path.length < maxCommandDimension →
      ∃ r, run temp = some r ∧ r.Sound workingDirectory path) :
    Contained (fun fuel => o.bind fun temp => (normalize fuel temp).bind run)
        workingDirectory path ↔
      path.length < maxCommandDimension ∧ StaysBelow path := by
  have hall := contained_normalize h fun temp ys htemp hfit => iff_true_intro (hrun temp ys htemp hfit)
  rwa [and_true] at hall

end Sound

/-! ## The handlers -/

section Handlers

variable {a : Answers} {stack : FileContent} {workingDirectory : Command} {ws line : List CChar}

theorem split_ofList (hline : line.length < maxCommandDimension) :
    strsplit (ofList line : Command) space (blank : Command) (blank : Command) =
      some (ofList (first space (lineOf line)), ofList (rest line)) := by
  have hrun : Run IsEnd (ofList line : Command) 0 (lineOf line) :=
    run_ofList hline (by decide) (.inl rfl)
  have hle := (lineOf_sublist line).length_le
  exact strsplit_eq hrun (Nat.lt_of_le_of_lt hle hline) (Nat.lt_of_le_of_lt hle hline)

theorem rest_holds (hline : line.length < maxCommandDimension) :
    Holds (ofList (rest line) : Command) (rest line) :=
  holds_part (second_sublist space _) hline

theorem length_rest_lt (hline : line.length < maxCommandDimension) :
    (rest line).length + 1 < maxCommandDimension := by
  by_cases h : lineOf line = []
  · rw [rest, h]
    decide
  · have hlt : (rest line).length < (lineOf line).length := length_second_lt h
    have hle := (lineOf_sublist line).length_le
    omega

theorem contained_handleMkdir (hline : line.length < maxCommandDimension)
    (hw : Holds workingDirectory ws) :
    Contained (fun _ => handleMkdir a (ofList line) workingDirectory) workingDirectory
        (composed .handleMkdir ws line) ↔ Admits .handleMkdir a stack ws line := by
  have hd := rest_holds hline
  simp only [handleMkdir, split_ofList hline, Option.bind_eq_bind, Option.bind_some, hd.load_zero,
    headD_eq_zero_iff hd, strlen_eq hw, if_pos hw.inside]
  by_cases hrest : rest line = []
  · simp only [if_pos hrest]
    exact iff_of_true (contained_error hw _) (.inl hrest)
  · simp only [if_neg hrest]
    rw [Admits, or_iff_right hrest]
    refine contained_bind (composeChild_yields hw hd) fun temp htemp hfit => ?_
    rw [chars_eq htemp]
    exact ⟨_, rfl, sound_fits hw hfit⟩

theorem contained_handleCd (hline : line.length < maxCommandDimension)
    (hw : Holds workingDirectory ws) :
    Contained (fun fuel => handleCd fuel a (ofList line) workingDirectory) workingDirectory
        (composed .handleCd ws line) ↔ Admits .handleCd a stack ws line := by
  have hd := rest_holds hline
  simp only [handleCd, split_ofList hline, Option.bind_eq_bind, Option.bind_some, strlen_eq hd]
  by_cases hrest : rest line = []
  · have hout : (ofList (rest line) : Command).load (((rest line).length : Int) - 1) = none := by
      rw [hrest]
      rfl
    simp only [hout]
    exact iff_of_false not_contained_none fun h => h.1 hrest
  · have hclosed := closed_yields 0 hd (strcat_yields hd slashString_holds)
    have hlen : (closed 0 (rest line)).length < maxCommandDimension := by
      have hlt := length_rest_lt hline
      unfold closed
      split
      next => rwa [List.length_append, List.length_singleton]
      next => omega
    simp only [if_pos (List.length_pos_iff.mpr hrest), hd.load_last hrest, Option.bind_some]
      at hclosed ⊢
    obtain ⟨destination, hclose, hdestination⟩ := hclosed.exists hlen
    simp only [hclose, Option.bind_some]
    rw [Admits, and_iff_right hrest]
    refine contained_normalize_iff (composePath_yields hw hdestination)
      fun temp ys htemp hfit => ?_
    rw [chars_eq htemp, Option.bind_some]
    by_cases hopen : a.openDir = -1
    · exact ⟨_, if_pos hopen, sound_fits hw hfit⟩
    · obtain ⟨wd, hcopy, hwd⟩ :=
        htemp.copy workingDirectory htemp.inside (Nat.le_refl _) (Nat.le_refl _)
      rw [if_neg hopen, hcopy]
      exact ⟨_, rfl, ⟨ys, hwd⟩, fun h => absurd rfl h, fun h => absurd h (Nat.not_le.mpr hfit)⟩

/-- What `handle_show` prints has an end in its buffer, or it has none. -/
theorem exists_readContent (a : Answers) (stack : FileContent) :
    ∃ fileContent, readContent a stack = some fileContent ∧
      ((∃ xs, chars fileContent = some xs) ↔ Terminated a stack) := by
  obtain ⟨content, hcontent⟩ : ∃ content, content = a.content.val := ⟨_, rfl⟩
  have hlen : content.length ≤ maxFileDimension := hcontent ▸ a.content.property
  have hsmall : maxCommandDimension ≤ maxFileDimension := by decide
  refine ⟨⟨fun i => if i < content.length then (ofList content : FileContent).byte i
    else if i < maxCommandDimension then 0 else stack.byte i⟩, ?_, ?_⟩
  · rw [readContent, copy, if_pos ⟨hsmall, hsmall⟩, ← hcontent]
    exact if_pos ⟨hlen, hlen⟩
  · rw [exists_chars_iff, Terminated, ← hcontent]
    dsimp only
    constructor
    · rintro ⟨i, hi, hzero⟩
      split at hzero
      next hin =>
        refine .inl (List.mem_iff_getElem.mpr ⟨i, hin, ?_⟩)
        simpa [ofList, hin] using hzero
      next hout =>
        split at hzero
        next hclear => exact .inr (.inl (by omega))
        next => exact .inr (.inr ⟨i, Nat.not_lt.mp hout, hi, hzero⟩)
    · rintro (hmem | hshort | ⟨i, hout, hi, hzero⟩)
      · obtain ⟨i, hin, hzero⟩ := List.mem_iff_getElem.mp hmem
        refine ⟨i, Nat.lt_of_lt_of_le hin hlen, ?_⟩
        rw [if_pos hin]
        simpa [ofList, hin] using hzero
      · exact ⟨content.length, by omega, by rw [if_neg (Nat.lt_irrefl _), if_pos hshort]⟩
      · refine ⟨i, hi, ?_⟩
        rw [if_neg (Nat.not_lt.mpr hout), hzero, ite_self]

theorem contained_handleShow (hline : line.length < maxCommandDimension)
    (hw : Holds workingDirectory ws) :
    Contained (fun fuel => handleShow fuel a stack (ofList line) workingDirectory) workingDirectory
        (composed .handleShow ws line) ↔ Admits .handleShow a stack ws line := by
  have hd := rest_holds hline
  obtain ⟨fileContent, hread, hterminated⟩ := exists_readContent a stack
  simp only [handleShow, split_ofList hline, Option.bind_eq_bind, Option.bind_some, hread]
  refine contained_normalize (composePath_yields hw hd) fun temp ys htemp hfit => ?_
  rw [chars_eq htemp, Option.bind_some, ← hterminated]
  by_cases hopen : -1 < a.openFile
  · rw [if_pos hopen]
    by_cases hanswer : a.readFile = 0
    · rw [if_neg (not_not.mpr hanswer)]
      constructor
      · rintro ⟨r, hr, _⟩ _ _
        obtain ⟨xs, hxs, _⟩ := Option.bind_eq_some_iff.mp hr
        exact ⟨xs, hxs⟩
      · intro h
        obtain ⟨xs, hxs⟩ := h hopen hanswer
        rw [hxs]
        exact ⟨_, rfl, sound_fits hw hfit⟩
    · rw [if_pos hanswer]
      exact iff_of_true ⟨_, rfl, sound_fits hw hfit⟩ fun _ h => absurd h hanswer
  · rw [if_neg hopen]
    exact iff_of_true ⟨_, rfl, sound_fits hw hfit⟩ fun h => absurd h hopen

theorem printTree_eq {temp : Command} {ys : List CChar} (h : Holds temp ys) :
    printTree a temp = some () := by
  have hentry : a.nextEntry.val ≠ 1 := by
    rcases a.nextEntry.property with hzero | hnone
    · rw [hzero]
      decide
    · rw [hnone]
      decide
  simp only [printTree, chars_eq h, Option.bind_eq_bind, Option.bind_some, if_pos hentry, ite_self]

theorem contained_handleTree (hline : line.length < maxCommandDimension)
    (hw : Holds workingDirectory ws) :
    Contained (fun fuel => handleTree fuel a (ofList line) workingDirectory) workingDirectory
        (composed .handleTree ws line) ↔ Admits .handleTree a stack ws line := by
  have hd := rest_holds hline
  simp only [handleTree, split_ofList hline, Option.bind_eq_bind, Option.bind_some]
  refine contained_normalize_iff (composeTarget_yields hw hd) fun temp ys htemp hfit => ?_
  rw [chars_eq htemp, Option.bind_some]
  by_cases hopen : a.openDir = -1
  · exact ⟨_, if_pos hopen, sound_fits hw hfit⟩
  · rw [if_neg hopen, printTree_eq htemp]
    exact ⟨_, rfl, sound_fits hw hfit⟩

/-- What the loop over a word reads that starts in the buffer. -/
theorem run_word (hline : line.length < maxCommandDimension) {i : Nat}
    (hi : i < maxCommandDimension) :
    Run IsWordEnd (ofList line : Command) i
      ((line.drop i).takeWhile fun c => ¬ IsWordEnd c) := run_ofList hline hi (.inl rfl)

theorem fileName_holds (hline : line.length < maxCommandDimension)
    (hname : wordEnd line 0 + 1 < maxCommandDimension) :
    Holds (ofList (fileNameOf line) : Command) (fileNameOf line) := by
  have hrun := run_word hline hname
  exact holds_ofList (fun c hc he => hrun.free c hc (.inl he))
    (Nat.lt_of_le_of_lt (Nat.le_add_left _ _) hrun.inside)

theorem fileName_copied (hline : line.length < maxCommandDimension)
    (hname : wordEnd line 0 + 1 < maxCommandDimension) :
    (ofList line : Command).copyUntil IsWordEnd (wordEnd line 0 + 1) (blank : Command) 0 =
      some (wordEnd line (wordEnd line 0 + 1), ofList (fileNameOf line),
        (fileNameOf line).length) :=
  (run_word hline hname).copyUntil_blank (Nat.le_of_lt (fileName_holds hline hname).inside)

theorem length_contentOf_lt (hline : line.length < maxCommandDimension)
    (hstart : contentStart line < maxCommandDimension) :
    (contentOf line).length < maxCommandDimension := by
  have hrun : Run (· = 0) (ofList line : Command) (contentStart line) (contentOf line) :=
    run_ofList hline hstart rfl
  exact Nat.lt_of_le_of_lt (Nat.le_add_left _ _) hrun.inside

theorem content_copied (hline : line.length < maxCommandDimension)
    (hstart : contentStart line < maxCommandDimension) :
    (ofList line : Command).copyUntil (· = 0) (wordEnd line (wordEnd line 0 + 1) + 1)
        (blank : Command) 0 =
      some (contentStart line + (contentOf line).length, ofList (contentOf line),
        (contentOf line).length) := by
  have hrun : Run (· = 0) (ofList line : Command) (contentStart line) (contentOf line) :=
    run_ofList hline hstart rfl
  exact hrun.copyUntil_blank (Nat.le_of_lt (length_contentOf_lt hline hstart))

theorem contained_handleWrite (hline : line.length < maxCommandDimension)
    (hw : Holds workingDirectory ws) :
    Contained (fun _ => handleWrite a (ofList line) workingDirectory) workingDirectory
        (composed .handleWrite ws line) ↔ Admits .handleWrite a stack ws line := by
  have hskip : (ofList line : Command).skip IsWordEnd 0 = some (wordEnd line 0) :=
    (run_word hline (by decide)).skip_eq
  simp only [handleWrite, Option.bind_eq_bind, hskip, Option.bind_some]
  rw [Admits]
  by_cases hname : wordEnd line 0 + 1 < maxCommandDimension
  · have hfile := fileName_holds hline hname
    simp only [fileName_copied hline hname, Option.bind_some, store_ofList hfile.inside]
    by_cases hstart : contentStart line < maxCommandDimension
    · obtain ⟨filePath, xs, errors, hcompose, hpath, hreport⟩ := composeFile_eq hw hfile
      simp only [content_copied hline hstart, Option.bind_some,
        store_ofList (length_contentOf_lt hline hstart), hcompose, chars_eq hpath]
      rw [and_iff_right hstart]
      by_cases hgo : a.openFile ≠ -1 ∧ 0 < (contentOf line).length
      · have hout : (blank : FileContent).copy (ofList (contentOf line) : Command)
            maxFileDimension = none := if_neg (by decide)
        simp only [if_pos hgo, hout, Option.bind_none]
        refine iff_of_false not_contained_none fun h => ?_
        exact absurd hgo.2 (by simp [h hgo.1])
      · simp only [if_neg hgo]
        refine iff_of_true ⟨0, _, rfl, (sound_same hw).mpr fun hlong => ?_⟩ fun hopen => ?_
        · exact List.append_ne_nil_of_left_ne_nil (hreport hlong) _
        · exact List.length_eq_zero_iff.mp (by omega)
    · have hout : (ofList line : Command).copyUntil (· = 0)
          (wordEnd line (wordEnd line 0 + 1) + 1) (blank : Command) 0 = none :=
        copyUntil_eq_none (Nat.not_lt.mp hstart)
      simp only [hout, Option.bind_none]
      exact iff_of_false not_contained_none fun h => hstart h.1
  · have hstart : ¬ contentStart line < maxCommandDimension := by
      unfold contentStart wordEnd at *
      omega
    have hout : (ofList line : Command).copyUntil IsWordEnd (wordEnd line 0 + 1)
        (blank : Command) 0 = none := copyUntil_eq_none (Nat.not_lt.mp hname)
    simp only [hout, Option.bind_none]
    exact iff_of_false not_contained_none fun h => hstart h.1

theorem contained_handleExec (hline : line.length < maxCommandDimension)
    (hw : Holds workingDirectory ws) :
    Contained (fun fuel => handleExec fuel a (ofList line) workingDirectory) workingDirectory
        (composed .handleExec ws line) ↔ Admits .handleExec a stack ws line := by
  have hd := rest_holds hline
  obtain ⟨temp, hcopy, htemp⟩ := (strcat_yields blank_holds hw).exists hw.inside
  simp only [handleExec, split_ofList hline, Option.bind_eq_bind, Option.bind_some, strlen_eq hd,
    strlen_eq hw, hcopy, List.length_eq_zero_iff]
  by_cases hrest : rest line = []
  · simp only [if_pos hrest]
    exact iff_of_true (contained_error hw _) (.inl hrest)
  · rw [Admits, or_iff_right hrest, composed, List.length_append]
    by_cases hlong : maxCommandDimension ≤ ws.length + (rest line).length
    · simp only [if_neg hrest, if_pos hlong]
      exact iff_of_true (contained_error hw _) (.inl hlong)
    · simp only [if_neg hrest, if_neg hlong]
      rw [or_iff_right hlong]
      have hfits : (ws ++ rest line).length < maxCommandDimension := by
        rw [List.length_append]
        exact Nat.not_le.mp hlong
      refine (contained_normalize_iff (strcat_yields htemp hd) fun temp ys htemp hfit => ?_).trans
        (and_iff_right hfits)
      rw [chars_eq htemp]
      exact sound_ite hw hfit

theorem contained_handleExecFromBin (hline : line.length < maxCommandDimension)
    (hw : Holds workingDirectory ws) :
    Contained (fun fuel => handleExecFromBin fuel a (ofList line) workingDirectory) workingDirectory
        (composed .handleExecFromBin ws line) ↔ Admits .handleExecFromBin a stack ws line := by
  have hname : Holds (ofList (first space (lineOf line)) : Command) (first space (lineOf line)) :=
    holds_part (first_sublist space _) hline
  have hdirectory : Holds (ofList binDirectory : Buffer CChar 6) binDirectory :=
    holds_ofList (by decide) (by decide)
  have hsuffix : Holds (ofList binSuffix : Buffer CChar 5) binSuffix :=
    holds_ofList (by decide) (by decide)
  have hends : ∀ c ∈ rest line, ¬ IsEnd c := fun c hc =>
    not_isEnd_of_mem ((second_sublist space _).subset hc)
  have hloop := argumentLoop_fields (rest_holds hline) hends
  simp only [handleExecFromBin, split_ofList hline, Option.bind_eq_bind, Option.bind_some,
    strlen_eq hname, hloop, chars_eq hname]
  have hlen : (composed .handleExecFromBin ws line).length =
      binDirectory.length + (first space (lineOf line)).length + binSuffix.length := by
    rw [composed, List.length_append, List.length_append]
  rw [Admits, hlen]
  by_cases hlong :
      maxCommandDimension ≤ binDirectory.length + (first space (lineOf line)).length + binSuffix.length
  · simp only [if_pos hlong]
    exact iff_of_true (contained_error hw _) (.inl hlong)
  · simp only [if_neg hlong]
    rw [or_iff_right hlong]
    have hfits : (composed .handleExecFromBin ws line).length < maxCommandDimension := by
      rw [hlen]
      exact Nat.not_le.mp hlong
    obtain ⟨temp, hcopy, htemp⟩ := (strcat_yields blank_holds hdirectory).exists (by decide)
    have hlen' : ([] ++ binDirectory ++ first space (lineOf line)).length < maxCommandDimension := by
      rw [List.nil_append, List.length_append]
      omega
    obtain ⟨temp', happend, htemp'⟩ := (strcat_yields htemp hname).exists hlen'
    simp only [hcopy, happend, Option.bind_some]
    refine (contained_normalize_iff (strcat_yields htemp' hsuffix)
      fun temp ys htemp hfit => ?_).trans (and_iff_right hfits)
    rw [chars_eq htemp]
    exact sound_ite hw hfit

/-- The handlers stay in their buffers, and report a path that does not fit, exactly if their
condition holds of the command line and of the working directory. -/
theorem contained_iff (h : Handler) (a : Answers) (stack : FileContent)
    (hline : line.length < maxCommandDimension) (hw : Holds workingDirectory ws) :
    Contained (fun fuel => runHandler h fuel a stack (ofList line) workingDirectory)
        workingDirectory (composed h ws line) ↔ Admits h a stack ws line := by
  cases h with
  | handleMkdir => exact contained_handleMkdir hline hw
  | handleCd => exact contained_handleCd hline hw
  | handleShow => exact contained_handleShow hline hw
  | handleTree => exact contained_handleTree hline hw
  | handleWrite => exact contained_handleWrite hline hw
  | handleExec => exact contained_handleExec hline hw
  | handleExecFromBin => exact contained_handleExecFromBin hline hw

/-- No call succeeds. -/
def refusing : Answers where
  createDir := -1
  openDir := -1
  openFile := -1
  readFile := -1
  content := ⟨[], Nat.zero_le _⟩
  writeFile := -1
  fork := -1
  exec := -1
  wait := -1
  treeDir := -1
  nextEntry := ⟨-1, .inr rfl⟩

/-- The directories can be opened. -/
def granting : Answers := { refusing with openDir := 0 }

/-- `/home/` -/
def home : List CChar := [slash, 104, 111, 109, 101, slash]

/-- `cd ../a` -/
def upward : List CChar := [99, 100, space, 46, 46, slash, 97]

/-- It leads from `/home/` to `/a/` where that can be opened, and is reported where it cannot. -/
theorem contained_cd :
    (Contained (fun fuel => runHandler .handleCd fuel granting blank (ofList upward) (ofList home))
        (ofList home) (composed .handleCd home upward) ∧
      (runHandler .handleCd 64 granting blank (ofList upward) (ofList home)).map
          (fun o => (chars o.workingDirectory, o.errors)) = some (some [slash, 97, slash], [])) ∧
    Contained (fun fuel => runHandler .handleCd fuel refusing blank (ofList upward) (ofList home))
        (ofList home) (composed .handleCd home upward) ∧
      (runHandler .handleCd 64 refusing blank (ofList upward) (ofList home)).map
          (fun o => (chars o.workingDirectory, o.errors.map ShellError.message)) =
        some (some home, [[.text "[SHELL] Error: cannot change directory to '",
          .chars [slash, 97, slash], .text "'.\n"]]) := by
  have hhome : Holds (ofList home : Command) home := holds_ofList (by decide) (by decide)
  have hadmits : ∀ a, Admits .handleCd a blank home upward :=
    fun _ => ⟨by decide, by decide, by decide⟩
  exact ⟨⟨(contained_iff .handleCd granting blank (by decide) hhome).mpr (hadmits granting),
      by decide +kernel⟩,
    (contained_iff .handleCd refusing blank (by decide) hhome).mpr (hadmits refusing),
    by decide +kernel⟩

/-- `mkdir` with a name of 57 letters -/
def longName : List CChar := [109, 107, 100, 105, 114, space] ++ List.replicate 57 97

/-- It leaves the buffer in `/home/`, and `cd` without a path does so in every directory. -/
theorem not_contained_long :
    (longName.length < maxCommandDimension ∧ Holds (ofList home : Command) home ∧
      ¬ Contained (fun fuel => runHandler .handleMkdir fuel refusing blank (ofList longName)
          (ofList home)) (ofList home) (composed .handleMkdir home longName)) ∧
      ¬ Contained (fun fuel => runHandler .handleCd fuel refusing blank (ofList [99, 100])
          (ofList [slash])) (ofList [slash]) (composed .handleCd [slash] [99, 100]) := by
  have hhome : Holds (ofList home : Command) home := holds_ofList (by decide) (by decide)
  have hroot : Holds (ofList [slash] : Command) [slash] := holds_ofList (by decide) (by decide)
  have hmkdir : ¬ Admits .handleMkdir refusing blank home longName := by
    rintro (hempty | hfit)
    · exact absurd hempty (by decide)
    · exact absurd hfit (by decide)
  have hcd : ¬ Admits .handleCd refusing blank [slash] [99, 100] := fun h => h.1 (by decide)
  exact ⟨⟨by decide, hhome, fun h => hmkdir ((contained_handleMkdir (by decide) hhome).mp h)⟩,
    fun h => hcd ((contained_handleCd (by decide) hroot).mp h)⟩

end Handlers

end Shell

end Demoos
