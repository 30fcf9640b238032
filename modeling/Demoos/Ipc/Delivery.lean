import Mathlib.Data.List.TakeWhile
import Demoos.Ipc.Mailbox
import Demoos.Lib.Transition

/-!
# Delivery

One mailbox between any number of senders in `send_message` and the pops of its
receiver, in any interleaving.

Every position of the ring is memory of its own here, the one behind `buffer`
too.  A sender is known by the pointer to its PCB, which is the source of its
messages.  Once it has begun to send it keeps its message until `push_message`
returns `0`.  The memory that a message is composed in, or copied to, holds what
the stack happens to hold.

A message is read as its letter: the two pointers, and the C string at the start
of the body.  The relation between the ring and the messages under way is the
one of `Ring.Holds`, and the histories `sent`, `pushed` and `popped` are compared
by their letters.
-/

namespace Demoos

open Function (update update_self update_of_ne)

/-! ## C strings -/

-- `MAX_MESSAGES_BODY_SIZE`
def maxBodySize : Nat := 256

/-- The C string at the start of an array. -/
def cString (a : List Byte) : List Byte := a.takeWhile (· ≠ 0)

section Strings

variable {dest src : List Byte}

theorem length_strcpy (dest src : List Byte) : (strcpy dest src).length = dest.length := by
  induction dest, src using strcpy.induct with
  | case1 dest => rw [strcpy]
  | case2 src h => rw [strcpy]; exact h
  | case3 _ dest => rw [strcpy, if_pos rfl]; rfl
  | case4 _ dest c src hc ih => rw [strcpy, if_neg hc, List.length_cons, ih]; rfl

/-- A string that fits is copied with its end. -/
theorem strcpy_fits (hend : 0 ∈ src) (hfit : (cString src).length < dest.length) :
    cString (strcpy dest src) = cString src ∧ 0 ∈ strcpy dest src := by
  induction dest, src using strcpy.induct with
  | case1 dest => exact absurd hend List.not_mem_nil
  | case2 src h => exact absurd hfit (Nat.not_lt_zero _)
  | case3 _ dest src => simp [strcpy, cString]
  | case4 _ dest c src hc ih =>
      have hrest : 0 ∈ src := (List.mem_cons.mp hend).resolve_left (Ne.symm hc)
      have hcons : ∀ l, cString (c :: l) = c :: cString l := fun l =>
        List.takeWhile_cons_of_pos (decide_eq_true hc)
      rw [hcons, List.length_cons, List.length_cons] at hfit
      obtain ⟨hstring, hmem⟩ := ih hrest (Nat.lt_of_succ_lt_succ hfit)
      rw [strcpy, if_neg hc, hcons, hcons, hstring]
      exact ⟨rfl, List.mem_cons_of_mem _ hmem⟩

end Strings

/-! ## Letters -/

/-- What a message says. -/
structure Letter where
  sourceProcess : BitVec 64
  destinationProcess : Option Pid
  text : List Byte
deriving DecidableEq, Repr

namespace Message

def letter (m : Message) : Letter := ⟨m.sourceProcess, m.destinationProcess, cString m.body⟩

/-- The body has its size and holds a C string. -/
structure Whole (m : Message) : Prop where
  size : m.body.length = maxBodySize
  ended : 0 ∈ m.body

/-- A string that ends inside an array is shorter than the array. -/
theorem Whole.text_lt {m : Message} (h : m.Whole) : (cString m.body).length < maxBodySize := by
  rw [← h.size]
  refine Nat.lt_of_le_of_ne (List.takeWhile_sublist _).length_le fun he => ?_
  have hall := List.takeWhile_eq_self_iff.mp ((List.takeWhile_sublist _).eq_of_length he)
  exact of_decide_eq_true (hall 0 h.ended) rfl

end Message

/-- The message that `send_message` composes in the memory `stack`. -/
def compose (stack : Message) (source : BitVec 64) (destination : Pid) (body : List Byte) :
    Message :=
  { stack with
    sourceProcess := source
    destinationProcess := some destination
    body := strcpy stack.body body }

/-! ## The system -/

/-- The ring of a mailbox. -/
structure Storage where
  head : Nat
  tail : Nat
  slot : Nat → Message

def Storage.mailbox : Mailbox Storage where
  head s := s.head
  setHead s i := { s with head := i }
  tail s := s.tail
  setTail s i := { s with tail := i }
  buffer s i := s.slot i
  setBuffer s i m := { s with slot := update s.slot i m }

/-- A mailbox, its senders, and what happened to them so far. -/
structure Traffic where
  storage : Storage
  pending : BitVec 64 → Option Message
  sent : BitVec 64 → List Letter
  pushed : List Message
  popped : List Message

namespace Traffic

/-- A call of `send_message`, up to its loop. -/
def send (s : Traffic) (stack : Message) (source : BitVec 64) (destination : Pid)
    (body : List Byte) : Traffic :=
  { s with
    pending := update s.pending source (some (compose stack source destination body))
    sent := update s.sent source
      (s.sent source ++ [⟨source, some destination, cString body⟩]) }

/-- One round of its loop. -/
def push (s : Traffic) (source : BitVec 64) (message : Message) : Traffic :=
  match storeMessage Storage.mailbox s.storage message with
  | (pushOk, storage) =>
      if pushOk = 0 then
        { s with
          storage := storage
          pending := update s.pending source none
          pushed := s.pushed ++ [message] }
      else { s with storage := storage }

/-- One call of `pop_message`. -/
def pop (s : Traffic) (stack : Message) : Traffic :=
  match popMessage Storage.mailbox s.storage stack with
  | (popOk, received, storage) =>
      if popOk = 0 then { s with storage := storage, popped := s.popped ++ [received] }
      else { s with storage := storage }

/-- A step of one of the parties. -/
inductive Next (destination : Pid) (s : Traffic) : Traffic → Prop
  | send (stack : Message) (source : BitVec 64) (body : List Byte)
      (idle : s.pending source = none) (size : stack.body.length = maxBodySize)
      (ended : 0 ∈ body) (fits : (cString body).length < maxBodySize) :
      Next destination s (s.send stack source destination body)
  | push (source : BitVec 64) (message : Message) (sending : s.pending source = some message) :
      Next destination s (s.push source message)
  | pop (stack : Message) (size : stack.body.length = maxBodySize) :
      Next destination s (s.pop stack)

/-- An empty mailbox, and nobody sends. -/
structure Start (s : Traffic) : Prop where
  empty : s.storage.head = s.storage.tail
  inRange : s.storage.tail ≤ maxMessages
  idle : ∀ i, s.pending i = none
  sent : ∀ i, s.sent i = []
  pushed : s.pushed = []
  popped : s.popped = []

/-- The letters pushed, and those popped. -/
def pushedLetters (s : Traffic) : List Letter := s.pushed.map Message.letter

def poppedLetters (s : Traffic) : List Letter := s.popped.map Message.letter

/-! ## The messages under way -/

/-- The ring holds the messages `queue`, which are those pushed and not popped, and
a sender has pushed what it has sent, up to the message it keeps. -/
structure Queued (s : Traffic) (queue : List Message) : Prop where
  holds : Ring.Holds maxMessages s.storage.head s.storage.tail s.storage.slot queue
  letters : s.pushedLetters = s.poppedLetters ++ queue.map Message.letter
  whole : ∀ m ∈ queue, m.Whole
  pending : ∀ i m, s.pending i = some m → m.Whole ∧ m.sourceProcess = i
  sent : ∀ i, s.sent i = s.pushedLetters.filter (·.sourceProcess = i) ++
    ((s.pending i).map Message.letter).toList

section Steps

variable {s : Traffic} {queue : List Message}

theorem Start.queued (h : s.Start) : s.Queued [] where
  holds := by rw [h.empty]; exact .nil h.inRange _
  letters := by simp [pushedLetters, poppedLetters, h.pushed, h.popped]
  whole := nofun
  pending i m hm := by rw [h.idle] at hm; exact nomatch hm
  sent i := by simp [pushedLetters, h.sent, h.pushed, h.idle]

/-- The test for a full mailbox. -/
theorem Queued.push_eq (h : s.Queued queue) (message : Message) :
    storeMessage Storage.mailbox s.storage message =
      if queue.length = maxMessages then (-1, s.storage)
      else (0, { head := Ring.advance maxMessages s.storage.head
                 tail := s.storage.tail
                 slot := update s.storage.slot s.storage.head message }) := by
  rw [storeMessage_eq]
  exact if_congr h.holds.spans.full_iff rfl rfl

/-- The test for an empty one. -/
theorem Queued.pop_eq (h : s.Queued queue) (stack : Message) :
    popMessage Storage.mailbox s.storage stack =
      if queue.length = 0 then (-1, stack, s.storage)
      else (0, { s.storage.slot s.storage.tail with
          body := strcpy stack.body (s.storage.slot s.storage.tail).body },
        { s.storage with tail := Ring.advance maxMessages s.storage.tail }) := by
  rw [popMessage_eq]
  exact if_congr h.holds.spans.empty_iff rfl rfl

theorem Queued.send (h : s.Queued queue) {stack : Message} {source : BitVec 64}
    {destination : Pid} {body : List Byte} (hidle : s.pending source = none)
    (hsize : stack.body.length = maxBodySize) (hended : 0 ∈ body)
    (hfits : (cString body).length < maxBodySize) :
    (s.send stack source destination body).Queued queue := by
  obtain ⟨htext, hmem⟩ := strcpy_fits hended (hsize ▸ hfits)
  have hletter : (compose stack source destination body).letter =
      ⟨source, some destination, cString body⟩ := by
    rw [Message.letter, compose, htext]
  refine ⟨h.holds, h.letters, h.whole, fun i m hm => ?_, fun i => ?_⟩
  · by_cases hi : i = source
    · subst hi
      simp only [Traffic.send, update_self] at hm
      obtain rfl := Option.some.inj hm
      exact ⟨⟨(length_strcpy _ _).trans hsize, hmem⟩, rfl⟩
    · simp only [Traffic.send, update_of_ne hi] at hm
      exact h.pending i m hm
  · by_cases hi : i = source
    · subst hi
      have hsent := h.sent i
      rw [hidle, Option.map_none, Option.toList_none, List.append_nil] at hsent
      simp only [Traffic.send, update_self, hsent, Option.map_some, Option.toList_some, hletter]
      rfl
    · simp only [Traffic.send, update_of_ne hi]
      exact h.sent i

theorem Queued.push (h : s.Queued queue) {source : BitVec 64} {message : Message}
    (hsending : s.pending source = some message) :
    ∃ queue', (s.push source message).Queued queue' := by
  rw [Traffic.push, h.push_eq]
  by_cases hfull : queue.length = maxMessages
  · rw [if_pos hfull]
    exact ⟨queue, h⟩
  · obtain ⟨hwhole, hsource⟩ := h.pending source message hsending
    have hroom : queue.length < maxMessages := Nat.lt_of_le_of_ne h.holds.spans.length_le hfull
    rw [if_neg hfull]
    refine ⟨queue ++ [message], h.holds.push hroom message, ?_, fun m hm => ?_, fun i m hm => ?_,
      fun i => ?_⟩
    · have hletters := h.letters
      simp only [pushedLetters, poppedLetters] at hletters
      simp [pushedLetters, poppedLetters, hletters]
    · rcases List.mem_append.mp hm with hm | hm
      · exact h.whole m hm
      · exact List.mem_singleton.mp hm ▸ hwhole
    · by_cases hi : i = source
      · subst hi
        simp at hm
      · simp only [if_true, update_of_ne hi] at hm
        exact h.pending i m hm
    · have hsent := h.sent i
      by_cases hi : i = source
      · subst hi
        have hfilter : decide (message.letter.sourceProcess = i) = true := decide_eq_true hsource
        simp only [pushedLetters] at hsent
        simp [pushedLetters, hsent, hsending, hfilter]
      · have hfilter : ¬ message.letter.sourceProcess = i :=
          fun e => hi (e.symm.trans hsource)
        simp only [pushedLetters] at hsent
        simp [pushedLetters, hsent, update_of_ne hi, hfilter]

theorem Queued.pop (h : s.Queued queue) {stack : Message}
    (hsize : stack.body.length = maxBodySize) : ∃ queue', (s.pop stack).Queued queue' := by
  rw [Traffic.pop, h.pop_eq]
  cases queue with
  | nil => exact ⟨[], h⟩
  | cons m queue =>
      obtain ⟨hslot, hholds⟩ := h.holds.pop
      have hwhole := h.whole m (List.mem_cons_self ..)
      have hletter : Message.letter { s.storage.slot s.storage.tail with
          body := strcpy stack.body (s.storage.slot s.storage.tail).body } = m.letter := by
        have htext := (strcpy_fits hwhole.ended (hsize ▸ hwhole.text_lt)).1
        rw [hslot, Message.letter, htext]
        rfl
      rw [if_neg (List.length_eq_zero_iff.not.mpr (List.cons_ne_nil m queue))]
      refine ⟨queue, hholds, ?_, fun m hm => h.whole m (List.mem_cons_of_mem _ hm), h.pending,
        h.sent⟩
      have hletters := h.letters
      simp only [pushedLetters, poppedLetters] at hletters
      simp [pushedLetters, poppedLetters, hletters, hletter]

theorem Queued.next {destination : Pid} {t : Traffic} (h : s.Queued queue)
    (hnext : Next destination s t) : ∃ queue', t.Queued queue' := by
  cases hnext with
  | send stack source body hidle hsize hended hfits => exact ⟨queue, h.send hidle hsize hended hfits⟩
  | push source message hsending => exact h.push hsending
  | pop stack hsize => exact h.pop hsize

end Steps

/-! ## Every run -/

/-- What a mailbox promises its senders and its receiver. -/
structure Delivers (s : Traffic) : Prop where
  inOrder : s.poppedLetters <+: s.pushedLetters
  bySender : ∀ i, s.poppedLetters.filter (·.sourceProcess = i) <+: s.sent i
  push : ∀ message, (storeMessage Storage.mailbox s.storage message).1 =
    if s.pushed.length = s.popped.length + maxMessages then -1 else 0
  pop : ∀ stack, (popMessage Storage.mailbox s.storage stack).1 =
    if s.pushed.length = s.popped.length then -1 else 0

theorem Queued.delivers {s : Traffic} {queue : List Message} (h : s.Queued queue) : s.Delivers := by
  have hpopped : s.poppedLetters <+: s.pushedLetters := ⟨_, h.letters.symm⟩
  have hlength : s.pushed.length = s.popped.length + queue.length := by
    simpa [pushedLetters, poppedLetters] using congrArg List.length h.letters
  refine ⟨hpopped, fun i => ?_, fun message => ?_, fun stack => ?_⟩
  · rw [h.sent i]
    exact (hpopped.filter _).trans (List.prefix_append _ _)
  · have hfull : queue.length = maxMessages ↔ s.pushed.length = s.popped.length + maxMessages := by
      omega
    rw [h.push_eq, ← if_congr hfull rfl rfl]
    split <;> rfl
  · have hempty : queue.length = 0 ↔ s.pushed.length = s.popped.length := by omega
    rw [h.pop_eq, ← if_congr hempty rfl rfl]
    split <;> rfl

end Traffic

/-- Messages arrive exactly once and in order. -/
theorem delivers_of_reachable {destination : Pid} {s : Traffic}
    (h : Transition.Reachable Traffic.Start (Traffic.Next destination) s) : s.Delivers := by
  have hinv : ∃ queue, s.Queued queue :=
    h.invariant (P := fun s => ∃ queue, s.Queued queue) (fun _ hs => ⟨[], hs.queued⟩)
      fun _ _ ⟨_, hq⟩ hnext => hq.next hnext
  exact hinv.choose_spec.delivers

/-- Memory before its first use. -/
def blankMessage : Message := ⟨0, none, List.replicate maxBodySize 0⟩

def Traffic.blank : Traffic where
  storage := { head := 0, tail := 0, slot := fun _ => blankMessage }
  pending _ := none
  sent _ := []
  pushed := []
  popped := []

/-- What the parties of a run do next. -/
inductive Turn where
  | send (source : BitVec 64) (body : List Byte)
  | push (source : BitVec 64)
  | pop

/-- A turn, if the sender is idle in `send` and has a message in `push`. -/
def Traffic.turn (destination : Pid) (s : Traffic) : Turn → Traffic
  | .send source body =>
      if (s.pending source).isNone ∧ 0 ∈ body ∧ (cString body).length < maxBodySize then
        s.send blankMessage source destination body
      else s
  | .push source =>
      match s.pending source with
      | none => s
      | some message => s.push source message
  | .pop => s.pop blankMessage

theorem reachable_turns {destination : Pid} {s : Traffic} (turns : List Turn)
    (h : Transition.Reachable Traffic.Start (Traffic.Next destination) s) :
    Transition.Reachable Traffic.Start (Traffic.Next destination)
      (turns.foldl (Traffic.turn destination) s) := by
  have hsize : blankMessage.body.length = maxBodySize := List.length_replicate
  induction turns generalizing s with
  | nil => exact h
  | cons turn turns ih =>
      refine ih ?_
      cases turn with
      | send source body =>
          rw [Traffic.turn]
          split
          next hsend =>
            obtain ⟨hidle, hended, hfits⟩ := hsend
            exact h.step (.send blankMessage source body (Option.isNone_iff_eq_none.mp hidle)
              hsize hended hfits)
          next => exact h
      | push source =>
          rw [Traffic.turn]
          split
          next => exact h
          next message hsending => exact h.step (.push source message hsending)
      | pop => exact h.step (.pop blankMessage hsize)

/-- Two senders fill the ring, and a fifth message is refused. -/
def greetings : List Turn :=
  [.send 0xFFFF000000400000 [72, 105, 0], .push 0xFFFF000000400000,
   .send 0xFFFF000000402000 [65, 0], .push 0xFFFF000000402000,
   .send 0xFFFF000000402000 [66, 0], .push 0xFFFF000000402000,
   .send 0xFFFF000000400000 [67, 0], .push 0xFFFF000000400000,
   .send 0xFFFF000000400000 [68, 0], .push 0xFFFF000000400000]

/-- The refused message follows once there is room, around the end of the ring. -/
def farewells : List Turn :=
  [.pop, .push 0xFFFF000000400000, .pop, .pop, .pop, .pop, .pop]

theorem delivers_greeting :
    ((greetings.foldl (Traffic.turn 1) .blank).Delivers ∧
      (greetings.foldl (Traffic.turn 1) .blank).pushed.length = 4 ∧
      ((greetings.foldl (Traffic.turn 1) .blank).pending 0xFFFF000000400000).isSome) ∧
    ((greetings ++ farewells).foldl (Traffic.turn 1) .blank).Delivers ∧
      ((greetings ++ farewells).foldl (Traffic.turn 1) .blank).storage.head = 0 ∧
      ((greetings ++ farewells).foldl (Traffic.turn 1) .blank).poppedLetters.map Letter.text =
        [[72, 105], [65], [66], [67], [68]] := by
  have hstart : Traffic.Start Traffic.blank :=
    ⟨rfl, Nat.zero_le _, fun _ => rfl, fun _ => rfl, rfl, rfl⟩
  have hreach : ∀ turns : List Turn, Transition.Reachable Traffic.Start (Traffic.Next 1)
      (turns.foldl (Traffic.turn 1) .blank) := fun turns => reachable_turns turns (.start hstart)
  exact ⟨⟨delivers_of_reachable (hreach greetings), by decide +kernel, by decide +kernel⟩,
    delivers_of_reachable (hreach (greetings ++ farewells)), by decide +kernel, by decide +kernel⟩

end Demoos
