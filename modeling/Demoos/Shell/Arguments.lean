import Demoos.Shell.Strings
import Mathlib.Data.List.TakeWhile

/-!
# The arguments of a program

The argument loop of `handle_exec_from_bin` splits the rest of the command line at its first space,
and goes on with what is behind it.
-/

namespace Demoos

namespace Shell

open Buffer
open Function (update update_self update_of_ne)

-- `MAX_COMMAND_DIMENSION`, `SYSCALL_EXEC_ARGUMENT_DIMENSION` and `MAX_EXEC_ARGUMENTS`.
def maxCommandDimension : Nat := 64
def syscallExecArgumentDimension : Nat := 64
def maxExecArguments : Nat := 4

/-- `char[MAX_COMMAND_DIMENSION]` -/
abbrev Command := Buffer CChar maxCommandDimension

/-- `char[SYSCALL_EXEC_ARGUMENT_DIMENSION]` -/
abbrev Argument := Buffer CChar syscallExecArgumentDimension

/-- `while (strlen(arguments_raw) > 0 && n_arguments < MAX_EXEC_ARGUMENTS)` -/
def argumentLoop : Nat → Nat → Command → (Nat → Argument) → Option (Nat × (Nat → Argument))
  | 0, _, _, _ => none
  | fuel + 1, nArguments, argumentsRaw, arguments => do
      let len ← strlen argumentsRaw
      if 0 < len ∧ nArguments < maxExecArguments then
        let (argument, temp) ← strsplit argumentsRaw space (arguments nArguments) (blank : Argument)
        let argumentsRaw ← strcpy argumentsRaw temp
        argumentLoop fuel (nArguments + 1) argumentsRaw (update arguments nArguments argument)
      else some (nArguments, arguments)

/-! ## Fields -/

/-- The fields of a text, without an empty one at the end. -/
def fields (xs : List CChar) : List (List CChar) :=
  if (xs.splitOn space).getLast? = some [] then (xs.splitOn space).dropLast else xs.splitOn space

section Fields

variable {xs : List CChar}

theorem fields_nil : fields [] = [] := rfl

/-- The first field is in front of the first space, and the others are those of the rest. -/
theorem fields_eq (h : xs ≠ []) : fields xs = first space xs :: fields (second space xs) := by
  rcases splits_first_second space xs with ⟨hspace, hfirst, hsecond⟩ | ⟨hspace, hxs⟩
  · rw [hfirst, hsecond, fields_nil, fields, List.splitOn_eq_singleton hspace]
    exact if_neg (by simpa using h)
  · have hsplit : xs.splitOn space = first space xs :: (second space xs).splitOn space := by
      conv_lhs => rw [← hxs]
      exact List.splitOn_append_cons_self_of_not_mem hspace _
    have hne : (second space xs).splitOn space ≠ [] := List.splitOn_ne_nil _ _
    rw [fields, hsplit, List.getLast?_cons_of_ne_nil hne, List.dropLast_cons_of_ne_nil hne, fields]
    split <;> rfl

/-- A field is a part of the text. -/
theorem sublist_of_mem_fields {w : List CChar} (h : w ∈ fields xs) : w.Sublist xs := by
  induction hlen : xs.length using Nat.strong_induction_on generalizing xs with
  | h l ih =>
      subst hlen
      by_cases hxs : xs = []
      · subst hxs
        cases h
      · have hlt : (second space xs).length < xs.length := length_second_lt hxs
        rw [fields_eq hxs] at h
        rcases List.mem_cons.mp h with rfl | h
        · exact first_sublist space xs
        · exact (ih _ hlt h rfl).trans (second_sublist space xs)

end Fields

/-! ## The loop -/

section Loop

variable {raw : Command} {arguments : Nat → Argument} {fuel n : Nat} {xs : List CChar}

/-- The rows from `n` on hold the strings of a list. -/
def rows (arguments : Nat → Argument) (n : Nat) (ws : List (List CChar)) : Nat → Argument :=
  fun i => if n ≤ i then ofList (ws[i - n]?.getD []) else arguments i

theorem rows_nil (hblank : ∀ i, n ≤ i → arguments i = blank) : rows arguments n [] = arguments := by
  funext i
  unfold rows
  split
  next hi => exact (hblank i hi).symm
  next => rfl

theorem rows_cons (w : List CChar) (ws : List (List CChar)) :
    rows (update arguments n (ofList w)) (n + 1) ws = rows arguments n (w :: ws) := by
  funext i
  unfold rows
  rcases Nat.lt_trichotomy i n with hlt | rfl | hgt
  · rw [if_neg (by omega), if_neg (by omega), update_of_ne (by omega)]
  · rw [if_neg (by omega), if_pos (Nat.le_refl i), update_self, Nat.sub_self]
    rfl
  · obtain ⟨k, hk⟩ : ∃ k, i - n = k + 1 := ⟨i - n - 1, by omega⟩
    have hk' : i - (n + 1) = k := by omega
    rw [if_pos (by omega), if_pos (by omega), hk, hk', List.getElem?_cons_succ]

/-- The loop takes the first fields. -/
theorem argumentLoop_eq (h : Holds raw xs) (hline : ∀ c ∈ xs, ¬ IsEnd c)
    (hblank : ∀ i, n ≤ i → arguments i = blank) (hn : n ≤ maxExecArguments)
    (hfuel : maxExecArguments < fuel + n) :
    argumentLoop fuel n raw arguments =
      some (n + ((fields xs).take (maxExecArguments - n)).length,
        rows arguments n ((fields xs).take (maxExecArguments - n))) := by
  induction fuel generalizing n raw arguments xs with
  | zero => omega
  | succ fuel ih =>
      rw [argumentLoop, strlen_eq h]
      by_cases hgo : 0 < xs.length ∧ n < maxExecArguments
      · have hne : xs ≠ [] := List.length_pos_iff.mp hgo.1
        have hrun : Run IsEnd raw 0 xs := h.run_of_free hline (.inl rfl)
        have hproper : ∀ c ∈ second space xs, c ≠ 0 := fun c hc =>
          h.stands.proper c ((second_sublist space xs).subset hc)
        have hlen : (second space xs).length < maxCommandDimension :=
          Nat.lt_of_le_of_lt (second_sublist space xs).length_le h.inside
        have htemp : Holds (ofList (second space xs) : Argument) (second space xs) :=
          holds_ofList hproper hlen
        obtain ⟨raw', hcopy, hraw⟩ := (strcpy_yields raw htemp).exists hlen
        obtain ⟨left, hleft⟩ : ∃ left, maxExecArguments - n = left + 1 :=
          ⟨maxExecArguments - n - 1, by omega⟩
        have hsplit : strsplit raw space (blank : Argument) (blank : Argument) =
            some (ofList (first space xs), ofList (second space xs)) :=
          strsplit_eq hrun h.inside h.inside
        have hblank' : ∀ i, n + 1 ≤ i →
            update arguments n (ofList (first space xs)) i = blank := by
          intro i hi
          rw [update_of_ne (by omega)]
          exact hblank i (by omega)
        have hline' : ∀ c ∈ second space xs, ¬ IsEnd c := fun c hc =>
          hline c ((second_sublist space xs).subset hc)
        have hrest := ih hraw hline' hblank' hgo.2 (by omega)
        rw [Nat.sub_add_eq, hleft, Nat.add_sub_cancel, rows_cons] at hrest
        change (if 0 < xs.length ∧ n < maxExecArguments then _ else _) = _
        rw [if_pos hgo, hblank n (Nat.le_refl n), hsplit]
        change (strcpy raw _).bind _ = _
        rw [hcopy, Option.bind_some, hrest, hleft, fields_eq hne, List.take_succ_cons,
          List.length_cons, Nat.add_assoc, Nat.add_comm 1]
      · have hnone : (fields xs).take (maxExecArguments - n) = [] := by
          by_cases hxs : xs = []
          · rw [hxs, fields_nil, List.take_nil]
          · have hfull : ¬ n < maxExecArguments := fun hlt => hgo ⟨List.length_pos_iff.mpr hxs, hlt⟩
            rw [Nat.sub_eq_zero_of_le (by omega), List.take_zero]
        rw [hnone, rows_nil hblank]
        exact if_neg hgo

/-- The whole loop, with as many rounds as it can need. -/
theorem argumentLoop_fields (h : Holds raw xs) (hline : ∀ c ∈ xs, ¬ IsEnd c) :
    argumentLoop (maxExecArguments + 1) 0 raw (fun _ => blank) =
      some (((fields xs).take maxExecArguments).length,
        rows (fun _ => blank) 0 ((fields xs).take maxExecArguments)) := by
  have hloop : argumentLoop (maxExecArguments + 1) 0 raw (fun _ => blank) = _ :=
    argumentLoop_eq h hline (fun _ _ => rfl) (Nat.zero_le _) (by decide)
  rwa [Nat.zero_add] at hloop

end Loop

/-! ## Tokens -/

/-- What is left of a string in front of the first end. -/
def lineOf (xs : List CChar) : List CChar := xs.takeWhile fun c => ¬ IsEnd c

/-- The arguments on a command line. -/
def argumentsOf (line : List CChar) : List (List CChar) :=
  (fields (second space line)).take maxExecArguments

section Tokens

variable {k m n : Nat} {src : Buffer CChar k} {command : Command} {xs w : List CChar} {d : CChar}

theorem lineOf_sublist (xs : List CChar) : (lineOf xs).Sublist xs := List.takeWhile_sublist _

theorem not_isEnd_of_mem {c : CChar} (hc : c ∈ lineOf xs) : ¬ IsEnd c := by
  have hpass := List.mem_takeWhile_imp hc
  simpa using hpass

/-- A part of a line is a string. -/
theorem holds_part (hw : w.Sublist (lineOf xs)) (hin : xs.length < n) :
    Holds (ofList w : Buffer CChar n) w := by
  refine holds_ofList (fun c hc he => not_isEnd_of_mem (hw.subset hc) (.inl he)) ?_
  exact Nat.lt_of_le_of_lt (hw.trans (lineOf_sublist xs)).length_le hin

theorem split_line (h : Holds src xs) (hm : xs.length < m) (hn : xs.length < n) :
    strsplit src d (blank : Buffer CChar m) (blank : Buffer CChar n) =
      some (ofList (first d (lineOf xs)), ofList (second d (lineOf xs))) := by
  have hle := (lineOf_sublist xs).length_le
  exact strsplit_eq (h.run (.inl rfl)) (Nat.lt_of_le_of_lt hle hm) (Nat.lt_of_le_of_lt hle hn)

/-- `strsplit` loses nothing, and the argument loop ends with the first fields behind the name of the
program. -/
theorem tokenised (h : Holds src xs) (hm : xs.length < m) (hn : xs.length < n) :
    (∃ dest1 dest2 a b,
      strsplit src d (blank : Buffer CChar m) (blank : Buffer CChar n) = some (dest1, dest2) ∧
        Holds dest1 a ∧ Holds dest2 b ∧ Splits d (lineOf xs) a b) ∧
      ∀ (command : Command) (ys : List CChar), Holds command ys →
        ∃ fileName argumentsRaw fuel arguments,
          strsplit command space (blank : Command) (blank : Command) =
              some (fileName, argumentsRaw) ∧
            argumentLoop fuel 0 argumentsRaw (fun _ => blank) =
              some ((argumentsOf (lineOf ys)).length, arguments) ∧
            ∀ i (hi : i < (argumentsOf (lineOf ys)).length),
              Holds (arguments i) (argumentsOf (lineOf ys))[i] := by
  refine ⟨⟨_, _, _, _, split_line h hm hn, holds_part (first_sublist d _) hm,
    holds_part (second_sublist d _) hn, splits_first_second d _⟩, fun command ys hys => ?_⟩
  have hraw : Holds (ofList (second space (lineOf ys)) : Command) (second space (lineOf ys)) :=
    holds_part (second_sublist space _) hys.inside
  have hline : ∀ c ∈ second space (lineOf ys), ¬ IsEnd c := fun c hc =>
    not_isEnd_of_mem ((second_sublist space _).subset hc)
  refine ⟨_, _, maxExecArguments + 1, _, split_line hys hys.inside hys.inside,
    argumentLoop_fields hraw hline, fun i hi => ?_⟩
  have hfield : (argumentsOf (lineOf ys))[i] ∈ fields (second space (lineOf ys)) :=
    List.mem_of_mem_take (List.getElem_mem hi)
  have hpart := (sublist_of_mem_fields hfield).trans (second_sublist space (lineOf ys))
  have hrow : rows (fun _ => blank) 0 (argumentsOf (lineOf ys)) i =
      (ofList (argumentsOf (lineOf ys))[i] : Argument) := by
    simp [rows, hi]
  have hholds : Holds (ofList (argumentsOf (lineOf ys))[i] : Argument) (argumentsOf (lineOf ys))[i] :=
    holds_part hpart hys.inside
  rw [← hrow] at hholds
  exact hholds

/-- `p a  b` and an end of the line -/
def threeFields : List CChar := [112, space, 97, space, space, 98, 10]

/-- Behind the name there are the arguments `a`, the empty one and `b`. -/
theorem tokenised_twoWords :
    (∃ dest1 dest2 a b,
      strsplit (ofList threeFields : Buffer CChar 8) space (blank : Buffer CChar 8)
          (blank : Buffer CChar 8) = some (dest1, dest2) ∧
        Holds dest1 a ∧ Holds dest2 b ∧ Splits space (lineOf threeFields) a b) ∧
    ∃ fileName argumentsRaw fuel arguments,
      strsplit (ofList threeFields : Command) space (blank : Command) (blank : Command) =
          some (fileName, argumentsRaw) ∧
        argumentLoop fuel 0 argumentsRaw (fun _ => blank) = some (3, arguments) ∧
        Holds (arguments 0) [97] ∧ Holds (arguments 1) [] ∧ Holds (arguments 2) [98] := by
  have harguments : argumentsOf (lineOf threeFields) = [[97], [], [98]] := by decide
  have hsrc : Holds (ofList threeFields : Buffer CChar 8) threeFields :=
    holds_ofList (by decide) (by decide)
  obtain ⟨hsplit, hloop⟩ := tokenised (d := space) (m := 8) (n := 8) hsrc (by decide) (by decide)
  obtain ⟨fileName, argumentsRaw, fuel, arguments, hraw, hrun, hholds⟩ :=
    hloop (ofList threeFields) threeFields (holds_ofList (by decide) (by decide))
  rw [harguments] at hrun hholds
  exact ⟨hsplit, fileName, argumentsRaw, fuel, arguments, hraw, hrun, hholds 0 (by decide),
    hholds 1 (by decide), hholds 2 (by decide)⟩

end Tokens

end Shell

end Demoos
