import Demoos.Lib.Ring
import Demoos.Scheduler.Operations

/-!
# Mailboxes

`push_message` and `pop_message` of `libs/ipc.c`, and the memory they work on.

The functions are generic in that memory (`Mailbox`), because they use one
position more than there is.  The indices run from `0` to
`MAX_MESSAGES_PER_PROCESS`, and `buffer` has that many elements.  Behind
`messages_buffer` in `struct PCB` come `pending_signals`, `pid_to_wait` and
`next_ready`, and they end the PCB.  So the last position is these fields: the
pointer to the source falls on the two integers, the low half on the first, the
pointer to the destination falls on the link, and the body lies behind the PCB.
`IpcState` is this layout.

A pointer to a destination is followed, and it is a pid as everywhere.  A
pointer to a source is only copied, and it is its 64 bits.
-/

namespace Demoos

open Function (update)

/-! ## Messages -/

/-- `char`. -/
abbrev Byte := BitVec 8

-- `MAX_MESSAGES_PER_PROCESS`
def maxMessages : Nat := 4

structure Message where
  sourceProcess : BitVec 64
  destinationProcess : Option Pid
  body : List Byte
deriving DecidableEq, Repr

/-- `strcpy`, on the bytes of the two arrays. -/
def strcpy : List Byte → List Byte → List Byte
  | dest, [] => dest
  | [], _ => []
  | _ :: dest, c :: src => if c = 0 then 0 :: dest else c :: strcpy dest src

/-! ## Push and pop -/

/-- Access to the fields of a `MessagesCircularBuffer` in a memory `σ`. -/
structure Mailbox (σ : Type) where
  head : σ → Nat
  setHead : σ → Nat → σ
  tail : σ → Nat
  setTail : σ → Nat → σ
  buffer : σ → Nat → Message
  setBuffer : σ → Nat → Message → σ

variable {σ : Type}

/-- `push_message`, up to its wake-up. -/
def storeMessage (m : Mailbox σ) (s : σ) (message : Message) : Int × σ :=
  let nextHead := m.head s + 1
  let nextHead := if maxMessages < nextHead then 0 else nextHead
  if nextHead = m.tail s then (-1, s)
  else
    let s' := m.setBuffer s (m.head s) message
    (0, m.setHead s' nextHead)

/-- `message` is the memory that the message is copied to. -/
def popMessage (m : Mailbox σ) (s : σ) (message : Message) : Int × Message × σ :=
  if m.head s = m.tail s then (-1, message, s)
  else
    let nextTail := m.tail s + 1
    let nextTail := if maxMessages < nextTail then 0 else nextTail
    let received := m.buffer s (m.tail s)
    let message : Message :=
      { sourceProcess := received.sourceProcess
        destinationProcess := received.destinationProcess
        body := strcpy message.body received.body }
    (0, message, m.setTail s nextTail)

theorem storeMessage_eq (m : Mailbox σ) (s : σ) (message : Message) :
    storeMessage m s message =
      if Ring.advance maxMessages (m.head s) = m.tail s then (-1, s)
      else (0, m.setHead (m.setBuffer s (m.head s) message)
        (Ring.advance maxMessages (m.head s))) := rfl

theorem popMessage_eq (m : Mailbox σ) (s : σ) (message : Message) :
    popMessage m s message =
      if m.head s = m.tail s then (-1, message, s)
      else (0, { m.buffer s (m.tail s) with
          body := strcpy message.body (m.buffer s (m.tail s)).body },
        m.setTail s (Ring.advance maxMessages (m.tail s))) := rfl

/-! ## The memory of a PCB -/

/-- The scheduler and the mailboxes.  `buffer p` is used below `maxMessages`, and
`beyond p` is as much of the memory behind the PCB as a body takes. -/
structure IpcState extends KState where
  head : Pid → Nat
  tail : Pid → Nat
  buffer : Pid → Nat → Message
  beyond : Pid → List Byte

namespace IpcState

/-- What stands at a position of `buffer`. -/
def readBuffer (s : IpcState) (p : Pid) (i : Nat) : Message :=
  if i < maxMessages then s.buffer p i
  else
    { sourceProcess := BitVec.ofInt 32 (s.pcb p).pidToWait ++ (s.pcb p).pendingSignals
      destinationProcess := (s.pcb p).nextReady
      body := s.beyond p }

/-- The position behind the last element of `buffer`. -/
def overlay (s : IpcState) (p : Pid) (m : Message) : IpcState :=
  { s with
    toKState := (s.toKState.modify p fun b => { b with
      pendingSignals := m.sourceProcess.extractLsb' 0 32
      pidToWait := (m.sourceProcess.extractLsb' 32 32).toInt }).setNext p m.destinationProcess
    beyond := update s.beyond p m.body }

def writeBuffer (s : IpcState) (p : Pid) (i : Nat) (m : Message) : IpcState :=
  if i < maxMessages then { s with buffer := update s.buffer p (update (s.buffer p) i m) }
  else s.overlay p m

/-- `messages_buffer` of the process `p`. -/
def mailbox (p : Pid) : Mailbox IpcState where
  head s := s.head p
  setHead s i := { s with head := update s.head p i }
  tail s := s.tail p
  setTail s i := { s with tail := update s.tail p i }
  buffer s i := s.readBuffer p i
  setBuffer s i m := s.writeBuffer p i m

end IpcState

/-- Empty mailboxes, in zeroed memory. -/
def withMailboxes (s : KState) : IpcState where
  toKState := s
  head _ := 0
  tail _ := 0
  buffer _ _ := ⟨0, none, List.replicate 256 0⟩
  beyond _ := List.replicate 256 0

/-- The end of a successful `push_message`. -/
def wakeDestination (alg : Algorithm) (s : IpcState) (message : Message) : IpcState :=
  { s with toKState := match message.destinationProcess with
      | none => s.toKState
      | some d => wakeReceiver alg s.toKState d }

/-- `push_message` on the mailbox of `p`. -/
def pushMessage (alg : Algorithm) (s : IpcState) (p : Pid) (message : Message) : Int × IpcState :=
  match storeMessage (IpcState.mailbox p) s message with
  | (0, s) => (0, wakeDestination alg s message)
  | failed => failed

/-! ## Sequences of calls -/

/-- A call on one mailbox. -/
inductive Call where
  | push (message : Message)
  | pop (message : Message)
deriving DecidableEq, Repr

def call (alg : Algorithm) (p : Pid) (s : IpcState) : Call → IpcState
  | .push message => (pushMessage alg s p message).2
  | .pop message => (popMessage (IpcState.mailbox p) s message).2.2

/-- The position that a call reads or writes. -/
def touched (p : Pid) (s : IpcState) : Call → Option Nat
  | .push message => if (storeMessage (IpcState.mailbox p) s message).1 = 0 then some (s.head p)
      else none
  | .pop message => if (popMessage (IpcState.mailbox p) s message).1 = 0 then some (s.tail p)
      else none

/-- A message stored in an element of `buffer`. -/
def stored (s : IpcState) (p : Pid) (i h : Nat) (message : Message) : IpcState :=
  { s with
    head := update s.head p h
    buffer := update s.buffer p (update (s.buffer p) i message) }

/-- The call stays inside `buffer`.  A push writes nothing but the head and one
element, and wakes its destination, and a pop writes nothing but the tail. -/
structure Contained (alg : Algorithm) (p : Pid) (s : IpcState) (c : Call) : Prop where
  slot : ∀ i, touched p s c = some i → i < maxMessages
  push : ∀ message, c = .push message → call alg p s c = s ∨
    ∃ i < maxMessages, ∃ h, call alg p s c = wakeDestination alg (stored s p i h message) message
  pop : ∀ message, c = .pop message → ∃ t, call alg p s c = { s with tail := update s.tail p t }

/-- Every call of a sequence does. -/
def AllContained (alg : Algorithm) (p : Pid) : IpcState → List Call → Prop
  | _, [] => True
  | s, c :: cs => Contained alg p s c ∧ AllContained alg p (call alg p s c) cs

/-- The pushes of a sequence that find room, in a queue that holds `k` messages
and has room for `maxMessages`. -/
def accepted : Nat → List Call → Nat
  | _, [] => 0
  | k, .push _ :: cs => if k < maxMessages then accepted (k + 1) cs + 1 else accepted k cs
  | k, .pop _ :: cs => accepted (k - 1) cs

section Calls

variable {alg : Algorithm} {p : Pid} {s : IpcState} {k : Nat} {message : Message}

open Ring (Spans advance)

theorem store_full (h : advance maxMessages (s.head p) = s.tail p) :
    storeMessage (IpcState.mailbox p) s message = (-1, s) := by
  rw [storeMessage_eq]
  exact if_pos h

theorem store_room (h : advance maxMessages (s.head p) ≠ s.tail p) :
    storeMessage (IpcState.mailbox p) s message =
      (0, (IpcState.mailbox p).setHead (s.writeBuffer p (s.head p) message)
        (advance maxMessages (s.head p))) := by
  rw [storeMessage_eq]
  exact if_neg h

theorem pop_empty (h : s.head p = s.tail p) :
    popMessage (IpcState.mailbox p) s message = (-1, message, s) := by
  rw [popMessage_eq]
  exact if_pos h

theorem pop_some (h : s.head p ≠ s.tail p) :
    popMessage (IpcState.mailbox p) s message =
      (0, { s.readBuffer p (s.tail p) with
          body := strcpy message.body (s.readBuffer p (s.tail p)).body },
        { s with tail := update s.tail p (advance maxMessages (s.tail p)) }) := by
  rw [popMessage_eq]
  exact if_neg h

theorem call_push (h : advance maxMessages (s.head p) ≠ s.tail p) :
    call alg p s (.push message) = wakeDestination alg ((IpcState.mailbox p).setHead
      (s.writeBuffer p (s.head p) message) (advance maxMessages (s.head p))) message := by
  rw [call, pushMessage, store_room h]
  rfl

/-- The indices behind a push that finds room. -/
theorem indices_push (alg : Algorithm) (message : Message)
    (h : advance maxMessages (s.head p) ≠ s.tail p) :
    (call alg p s (.push message)).head p = advance maxMessages (s.head p) ∧
      (call alg p s (.push message)).tail p = s.tail p := by
  have hwrite : ∀ i, (s.writeBuffer p i message).tail = s.tail := by
    intro i
    unfold IpcState.writeBuffer
    split <;> rfl
  rw [call_push h]
  exact ⟨Function.update_self _ _ _, congrFun (hwrite _) p⟩

theorem contained_failed {c : Call} (hcall : call alg p s c = s) (ht : touched p s c = none) :
    Contained alg p s c where
  slot i hi := by rw [ht] at hi; exact nomatch hi
  push _ _ := .inl hcall
  pop _ _ := ⟨s.tail p, by rw [hcall, Function.update_eq_self]⟩

/-- A push that finds room stays inside `buffer` below the last position. -/
theorem contained_push_iff (h : advance maxMessages (s.head p) ≠ s.tail p) :
    Contained alg p s (.push message) ↔ s.head p < maxMessages := by
  have htouched : touched p s (.push message) = some (s.head p) := by
    rw [touched, store_room h]
    rfl
  refine ⟨fun hc => hc.slot _ htouched, fun hhead => ⟨fun i hi => ?_, fun m hm => ?_, nofun⟩⟩
  · exact Option.some.inj (htouched.symm.trans hi) ▸ hhead
  · obtain rfl := Call.push.inj hm
    refine .inr ⟨s.head p, hhead, advance maxMessages (s.head p), ?_⟩
    rw [call_push h, IpcState.writeBuffer, if_pos hhead]
    rfl

theorem contained_pop (h : s.head p ≠ s.tail p) (htail : s.tail p < maxMessages) :
    Contained alg p s (.pop message) where
  slot i hi := by
    rw [touched, pop_some h] at hi
    exact Option.some.inj hi ▸ htail
  push _ hm := nomatch hm
  pop m hm := by
    obtain rfl := Call.pop.inj hm
    exact ⟨_, by rw [call, pop_some h]⟩

/-- As long as the indices have not gone back to `0`, the head counts the pushes
that found room. -/
theorem allContained_iff_of_spans (calls : List Call)
    (hspans : Spans maxMessages (s.head p) (s.tail p) k) (hle : s.tail p ≤ s.head p) :
    AllContained alg p s calls ↔ s.head p + accepted k calls ≤ maxMessages := by
  induction calls generalizing s k with
  | nil => exact iff_of_true trivial hspans.head_le
  | cons c calls ih =>
      rw [AllContained]
      cases c with
      | push message =>
          rw [accepted]
          by_cases hfull : advance maxMessages (s.head p) = s.tail p
          · have hk : ¬ k < maxMessages := by rw [hspans.full_iff.mp hfull]; exact Nat.lt_irrefl _
            have hcall : call alg p s (.push message) = s := by
              rw [call, pushMessage, store_full hfull]
              rfl
            have ht : touched p s (.push message) = none := by
              rw [touched, store_full hfull]
              rfl
            rw [if_neg hk, and_iff_right (contained_failed hcall ht), hcall]
            exact ih hspans hle
          · have hk : k < maxMessages :=
              Nat.lt_of_le_of_ne hspans.length_le (hspans.full_iff.not.mp hfull)
            obtain ⟨hhead, htail⟩ := indices_push alg message hfull
            rw [if_pos hk, contained_push_iff hfull]
            rcases Nat.lt_or_ge (s.head p) maxMessages with hlt | hge
            · have hadvance : advance maxMessages (s.head p) = s.head p + 1 :=
                if_neg (Nat.not_lt.mpr hlt)
              rw [and_iff_right hlt, ih (k := k + 1) (by rw [hhead, htail]; exact hspans.push hk)
                (by rw [hhead, htail, hadvance]; exact Nat.le_succ_of_le hle), hhead, hadvance]
              omega
            · refine iff_of_false (fun h => Nat.not_lt.mpr hge h.1) ?_
              omega
      | pop message =>
          rw [accepted]
          by_cases hempty : s.head p = s.tail p
          · obtain rfl : k = 0 := hspans.empty_iff.mp hempty
            have hcall : call alg p s (.pop message) = s := by rw [call, pop_empty hempty]
            have ht : touched p s (.pop message) = none := by
              rw [touched, pop_empty hempty]
              rfl
            rw [and_iff_right (contained_failed hcall ht), hcall]
            exact ih hspans hle
          · have hlt : s.tail p < s.head p := Nat.lt_of_le_of_ne hle fun e => hempty e.symm
            have htail : s.tail p < maxMessages := Nat.lt_of_lt_of_le hlt hspans.head_le
            have hadvance : advance maxMessages (s.tail p) = s.tail p + 1 :=
              if_neg (Nat.not_lt.mpr htail)
            have hcall : (call alg p s (.pop message)).head p = s.head p ∧
                (call alg p s (.pop message)).tail p = s.tail p + 1 := by
              rw [call, pop_some hempty, ← hadvance]
              exact ⟨rfl, Function.update_self _ _ _⟩
            obtain ⟨j, rfl⟩ := Nat.exists_eq_succ_of_ne_zero (hspans.empty_iff.not.mp hempty)
            rw [and_iff_right (contained_pop hempty htail), ih (k := j)
              (by rw [hcall.1, hcall.2, ← hadvance]; exact hspans.pop)
              (by rw [hcall.1, hcall.2]; exact hlt), hcall.1]
            rfl

end Calls

/-- A sequence of calls on an empty mailbox stays inside `buffer` exactly when no
more pushes find room than `buffer` has elements. -/
theorem allContained_iff {alg : Algorithm} {p : Pid} {s : IpcState} (hhead : s.head p = 0)
    (htail : s.tail p = 0) (calls : List Call) :
    AllContained alg p s calls ↔ accepted 0 calls ≤ maxMessages := by
  have hspans : Ring.Spans maxMessages (s.head p) (s.tail p) 0 := by
    rw [hhead, htail]
    exact .zero (Nat.zero_le _)
  rw [allContained_iff_of_spans calls hspans (Nat.le_of_eq (htail.trans hhead.symm)),
    hhead, Nat.zero_add]

/-- Process `1` behind the first `fork`, and a message it gets. -/
def forked : IpcState := withMailboxes (copyProcess .roundRobin true (boot fun _ => 0)).2

def greeting : Message := ⟨0xFFFF000000400000, some 1, [72, 105, 0]⟩

theorem allContained_drained :
    AllContained .roundRobin 1 forked [.push greeting, .pop greeting, .push greeting] :=
  (allContained_iff rfl rfl _).mpr (by decide)

/-- The fifth message of a mailbox that is never full overwrites the pending
signals. -/
theorem overrun_fifth :
    let calls : List Call := [.push greeting, .pop greeting, .push greeting, .push greeting,
      .push greeting, .push greeting]
    ¬ AllContained .roundRobin 1 forked calls ∧
      (forked.pcb 1).pendingSignals = 0 ∧
      ((calls.foldl (call .roundRobin 1) forked).pcb 1).pendingSignals = 0x400000 := by
  refine ⟨fun h => ?_, by decide, by decide⟩
  exact absurd (h.2.2.2.2.2.1.slot 4 (by decide)) (Nat.lt_irrefl 4)

end Demoos
