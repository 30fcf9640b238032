import Demoos.Ipc.Delivery
import Demoos.Lib.CString

/-!
# Message bodies

The way of a body through memory: `send_message` copies it to a message on its stack, which
`push_message` copies to the mailbox; `pop_message` copies that to a message on the stack of
`receive_message`, which copies it to the receiver.  A memory begins with a body and goes on
with what is behind it, and nobody tests a length.

The mailbox is the one in the PCB, where the position behind `buffer` is no message.  Between
the push and the pop there are any calls on it, of which only the pops count: there are as many
as messages in front.
-/

namespace Demoos

open Function (update update_self update_of_ne)
open Ring (Spans advance index)

/-- The memories on the way: of the message that is sent, of the one that is received, behind the
bodies of the latter and of the element of the mailbox, and of the receiver. -/
structure Bodies where
  sent : Nat → Byte
  received : Message
  size : received.body.length = maxBodySize
  behindReceived : Nat → Byte
  behindElement : Nat → Byte
  buffer : Nat → Byte

/-! ## Arrays -/

/-- The memory that begins with the body of a message. -/
def Message.memory (m : Message) (behind : Nat → Byte) (i : Nat) : Byte :=
  if i < maxBodySize then m.body.getD i 0 else behind i

theorem strcpy_eq {dest xs rest : List Byte} (hproper : ∀ x ∈ xs, x ≠ 0)
    (hfit : xs.length < dest.length) :
    strcpy dest (xs ++ 0 :: rest) = xs ++ 0 :: dest.drop (xs.length + 1) := by
  induction xs generalizing dest with
  | nil =>
      cases dest with
      | nil => exact absurd hfit (Nat.not_lt_zero _)
      | cons d dest => rfl
  | cons x xs ih =>
      cases dest with
      | nil => exact absurd hfit (Nat.not_lt_zero _)
      | cons d dest =>
          have hrest := ih (fun y hy => hproper y (List.mem_cons_of_mem x hy))
            (Nat.lt_of_succ_lt_succ hfit)
          rw [List.cons_append, strcpy, if_neg (hproper x List.mem_cons_self), hrest]
          rfl

/-- The memory of a body with a string in front. -/
theorem stands_memory_body {m : Message} {xs rest : List Byte} (hproper : ∀ x ∈ xs, x ≠ 0)
    (hbody : m.body = xs ++ 0 :: rest) (hfit : xs.length < maxBodySize) (behind : Nat → Byte) :
    CString.Stands (m.memory behind) xs where
  text i hi := by
    rw [Message.memory, if_pos (Nat.lt_trans hi hfit), hbody]
    simp [List.getD, List.getElem?_append_left hi, hi]
  ended := by
    rw [Message.memory, if_pos hfit, hbody]
    simp [List.getD]
  proper := hproper

/-! ## The way of a body -/

namespace Bodies

/-- The message that `send_message` has composed in the memory `sent`. -/
def composed (source : BitVec 64) (p : Pid) (sent : Nat → Byte) : Message :=
  ⟨source, some p, (List.range maxBodySize).map sent⟩

/-- `receive_message` with a message in its mailbox, with at most `fuel` characters for a copy: what
is in the buffer then, and the last index of the received body that is written. -/
def receive (fuel : Nat) (b : Bodies) (p : Pid) (s : IpcState) : Option ((Nat → Byte) × Nat) := do
  let element := (s.readBuffer p (s.tail p)).memory b.behindElement
  let (_, n) ← CString.copy fuel (b.received.memory b.behindReceived) element
  let (popOk, received, _) := popMessage (IpcState.mailbox p) s b.received
  if popOk = 0 then do
    let (buffer, _) ← CString.copy fuel b.buffer (received.memory b.behindReceived)
    return (buffer, n)
  else none

/-- The messages in a mailbox. -/
def queued (p : Pid) (s : IpcState) : Nat :=
  (s.head p + (maxMessages + 1) - s.tail p) % (maxMessages + 1)

def isPop : Call → Bool
  | .push _ => false
  | .pop _ => true

variable {alg : Algorithm} {b : Bodies} {p : Pid} {source : BitVec 64} {s : IpcState}
  {body : Nat → Byte} {xs : List Byte} {m : Message} {i j k : Nat}

/-! ## The mailbox -/

theorem call_full (h : advance maxMessages (s.head p) = s.tail p) :
    call alg p s (.push m) = s := by
  rw [call, pushMessage, store_full h]
  rfl

theorem call_pop (h : s.head p ≠ s.tail p) :
    call alg p s (.pop m) =
      { s with tail := update s.tail p (advance maxMessages (s.tail p)) } := by
  rw [call, pop_some h]

/-- The element `i` holds `m`, with `j` messages in front of it. -/
structure Waits (p : Pid) (s : IpcState) (m : Message) (i j : Nat) : Prop where
  lt : i < maxMessages
  stored : s.buffer p i = m
  spans : ∃ k, Spans maxMessages (s.head p) (s.tail p) k ∧ j < k
  index_eq : i = index maxMessages (s.tail p) j

/-- A call that does not pop the message keeps it. -/
theorem Waits.call (h : Waits p s m i j) {c : Call} {j' : Nat}
    (hc : j = j' + if isPop c then 1 else 0) : Waits p (Demoos.call alg p s c) m i j' := by
  obtain ⟨k, hspans, hjk⟩ := h.spans
  have ht := hspans.tail_le
  have hk := hspans.length_le
  cases c with
  | push m' =>
      obtain rfl : j = j' := hc
      by_cases hfull : advance maxMessages (s.head p) = s.tail p
      · rw [call_full hfull]
        exact h
      · obtain ⟨hhead, htail⟩ := indices_push alg m' hfull
        have hlt : k < maxMessages := Nat.lt_of_le_of_ne hk (hspans.full_iff.not.mp hfull)
        have hne : i ≠ s.head p := by
          rw [h.index_eq, hspans.head_eq]
          exact fun he => Nat.ne_of_lt hjk (Ring.index_inj (by omega) hk he)
        refine ⟨h.lt, ?_, ⟨k + 1, ?_, by omega⟩, ?_⟩
        · rw [call_push hfull]
          have hwrite : (s.writeBuffer p (s.head p) m').buffer p i = s.buffer p i := by
            unfold IpcState.writeBuffer
            split
            next => simp [update_of_ne hne]
            next => rfl
          exact hwrite.trans h.stored
        · rw [hhead, htail]
          exact hspans.push hlt
        · rw [htail]
          exact h.index_eq
  | pop m' =>
      obtain rfl : j = j' + 1 := hc
      have hempty : s.head p ≠ s.tail p := fun he => by
        have := hspans.empty_iff.mp he
        omega
      obtain ⟨k, rfl⟩ := Nat.exists_eq_succ_of_ne_zero (hspans.empty_iff.not.mp hempty)
      rw [call_pop hempty]
      refine ⟨h.lt, h.stored, ⟨k, ?_, by omega⟩, ?_⟩
      · dsimp only
        rw [update_self]
        exact hspans.pop
      · dsimp only
        rw [update_self, Ring.index_advance ht (by omega)]
        exact h.index_eq

/-- Behind the pops of the messages in front it is the first. -/
theorem Waits.calls (h : Waits p s m i j) {calls : List Call} (hcalls : calls.countP isPop = j) :
    Waits p (calls.foldl (Demoos.call alg p) s) m i 0 := by
  induction calls generalizing s j with
  | nil =>
      obtain rfl := hcalls
      exact h
  | cons c calls ih =>
      rw [List.countP_cons] at hcalls
      exact ih (h.call hcalls.symm) rfl

/-- The pop of a message that ends inside of its body. -/
theorem Waits.received (h : Waits p s m i 0) {rest : List Byte} (hproper : ∀ x ∈ xs, x ≠ 0)
    (hbody : m.body = xs ++ 0 :: rest) (hfit : xs.length < maxBodySize) (b : Bodies) :
    ∃ fuel buffer n, receive fuel b p s = some (buffer, n) ∧ n < maxBodySize ∧
      CString.Stands buffer xs := by
  obtain ⟨k, hspans, hk⟩ := h.spans
  have htail : s.tail p = i := by rw [h.index_eq, Ring.index_zero hspans.tail_le]
  have hread : s.readBuffer p (s.tail p) = m := by
    rw [htail, IpcState.readBuffer, if_pos h.lt, h.stored]
  have hempty : s.head p ≠ s.tail p := fun he => by
    have := hspans.empty_iff.mp he
    omega
  have helement := stands_memory_body hproper hbody hfit b.behindElement
  have hreceived : (strcpy b.received.body m.body) =
      xs ++ 0 :: b.received.body.drop (xs.length + 1) := by
    rw [hbody]
    exact strcpy_eq hproper (b.size ▸ hfit)
  have hstands : CString.Stands (Message.memory { m with
      body := strcpy b.received.body m.body } b.behindReceived) xs :=
    stands_memory_body hproper hreceived hfit b.behindReceived
  refine ⟨xs.length + 1, CString.overwrite b.buffer _ xs.length, xs.length, ?_, hfit,
    hstands.overwrite b.buffer⟩
  unfold receive
  rw [hread, pop_some hempty, hread]
  dsimp only
  rw [CString.copy_eq helement (Nat.lt_succ_self _), Option.bind_eq_bind, Option.bind_some]
  dsimp only
  rw [if_pos rfl, CString.copy_eq hstands (Nat.lt_succ_self _), Option.bind_some]
  rfl

/-! ## Bodies that are handled -/

/-- Zeroed memories. -/
def blank : Bodies where
  sent _ := 0
  received := blankMessage
  size := List.length_replicate
  behindReceived _ := 0
  behindElement _ := 0
  buffer _ := 0

end Bodies

end Demoos
