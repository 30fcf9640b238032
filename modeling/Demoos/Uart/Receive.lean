import Demoos.Uart.Line

/-!
# The receive interrupt

`handle_uart_irq` reads the receive FIFO in two loops.  The loop of the receive interrupt
puts what it reads into the ring and wakes the readers; the loop of the receive timeout
only echoes.  Against that stands a ring that takes every character while it has room.

The interrupts come in any states of the kernel, and `syscall_input` reads in between.
-/

namespace Demoos

open Function (update update_self update_of_ne)

/-! ## The ring as a list -/

namespace Uart

variable {u : Uart} {xs : List Byte}

/-- The indices are in range. -/
structure InRange (u : Uart) : Prop where
  head : u.head < uartBufferSize
  tail : u.tail < uartBufferSize

/-- The characters in the ring. -/
def unread (u : Uart) : List Byte :=
  (List.range ((u.head + uartBufferSize - u.tail) % uartBufferSize)).map fun k =>
    u.buffer ((u.tail + k) % uartBufferSize)

theorem mod_eq_index {i k : Nat} (hi : i < uartBufferSize) (hk : k < uartBufferSize) :
    (i + k) % uartBufferSize = Ring.index (uartBufferSize - 1) i k := by
  unfold Ring.index uartBufferSize at *
  split <;> omega

theorem InRange.unread (h : u.InRange) : u.Unread u.unread := by
  obtain ⟨hhead, htail⟩ := h
  have hlen : u.unread.length = (u.head + uartBufferSize - u.tail) % uartBufferSize := by
    rw [Uart.unread, List.length_map, List.length_range]
  have hlt : (u.head + uartBufferSize - u.tail) % uartBufferSize < uartBufferSize :=
    Nat.mod_lt _ (by decide)
  refine ⟨⟨Nat.le_pred_of_lt htail, ?_, ?_⟩, fun k hk => ?_⟩
  · rw [hlen]
    exact Nat.le_pred_of_lt hlt
  · rw [hlen, ← mod_eq_index htail hlt]
    unfold uartBufferSize at *
    omega
  · rw [hlen] at hk
    rw [← mod_eq_index htail (Nat.lt_trans hk hlt)]
    simp only [Uart.unread, List.getElem_map, List.getElem_range]

theorem Unread.inRange (h : u.Unread xs) : u.InRange :=
  ⟨Nat.lt_of_le_pred (by decide) h.spans.head_le, Nat.lt_of_le_pred (by decide) h.spans.tail_le⟩

theorem Unread.eq (h : u.Unread xs) : u.unread = xs := by
  have hrange := h.inRange
  obtain ⟨⟨_, hle, hhead⟩, hslots⟩ := h
  have hlen : u.unread.length = xs.length := by
    have hspan := hrange.unread.spans
    exact Ring.index_inj hspan.length_le hle (hspan.head_eq.symm.trans hhead)
  refine List.ext_getElem hlen fun k hk hk' => ?_
  rw [← hslots k hk', ← hrange.unread.slots k hk]

/-- A ring that takes a character if it has room. -/
def offer (xs : List Byte) (ch : Byte) : List Byte :=
  if xs.length < uartBufferSize - 1 then xs ++ [ch] else xs

/-- The characters of the words without an error flag. -/
def characters (words : List (BitVec 32)) : List Byte :=
  (words.filter fun dr : BitVec 32 => (dr >>> 8) &&& 0xF#32 == 0#32).map (BitVec.setWidth 8)

theorem characters_of_ok {dr : BitVec 32} (hok : (dr >>> 8) &&& 0xF#32 = 0#32)
    (words : List (BitVec 32)) : characters (dr :: words) = dr.setWidth 8 :: characters words := by
  unfold characters
  rw [List.filter_cons_of_pos (by exact beq_iff_eq.mpr hok)]
  rfl

theorem characters_of_error {dr : BitVec 32} (herror : ¬ (dr >>> 8) &&& 0xF#32 = 0#32)
    (words : List (BitVec 32)) : characters (dr :: words) = characters words := by
  unfold characters
  rw [List.filter_cons_of_neg (by exact fun hc => herror (beq_iff_eq.mp hc))]

theorem exists_of_characters {words : List (BitVec 32)} (h : characters words ≠ []) :
    ∃ dr ∈ words, (dr >>> 8) &&& 0xF#32 = 0#32 := by
  obtain ⟨ch, hch⟩ := List.exists_mem_of_ne_nil _ h
  obtain ⟨dr, hdr, _⟩ := List.mem_map.mp hch
  obtain ⟨hmem, hok⟩ := List.mem_filter.mp hdr
  exact ⟨dr, hmem, beq_iff_eq.mp hok⟩

theorem Unread.offer (h : u.Unread xs) {dr : BitVec 32} (hok : (dr >>> 8) &&& 0xF#32 = 0#32) :
    xs ++ u.stored dr = Uart.offer xs (dr.setWidth 8) := by
  have hroom : (u.head + 1) % uartBufferSize ≠ u.tail ↔ xs.length < uartBufferSize - 1 := by
    have hlen : xs.length ≤ uartBufferSize - 1 := h.spans.length_le
    rw [mod_eq_advance h.spans.head_le, Ne, h.spans.full_iff]
    omega
  unfold stored Uart.offer
  by_cases hlt : xs.length < uartBufferSize - 1
  · rw [if_pos ⟨hok, hroom.mpr hlt⟩, if_pos hlt]
  · rw [if_neg fun hc => hlt (hroom.mp hc.2), if_neg hlt, List.append_nil]

/-- The loop of the receive interrupt. -/
theorem Unread.offerAll (h : u.Unread xs) (words : List (BitVec 32)) :
    (words.foldl Uart.receive u).Unread ((characters words).foldl Uart.offer xs) := by
  induction words generalizing u xs with
  | nil => exact h
  | cons dr words ih =>
      have hnext := h.receive dr
      by_cases hok : (dr >>> 8) &&& 0xF#32 = 0#32
      · rw [characters_of_ok hok]
        rw [h.offer hok] at hnext
        exact ih hnext
      · rw [characters_of_error hok]
        have hnone : u.stored dr = [] := if_neg fun hc => hok hc.1
        rw [hnone, List.append_nil] at hnext
        exact ih hnext

theorem length_offers (chs xs : List Byte) (h : xs.length ≤ uartBufferSize - 1) :
    (chs.foldl offer xs).length = min (xs.length + chs.length) (uartBufferSize - 1) := by
  induction chs generalizing xs with
  | nil => exact (Nat.min_eq_left h).symm
  | cons ch chs ih =>
      rw [List.foldl_cons, offer, List.length_cons]
      split
      next hlt =>
        rw [ih _ (by rw [List.length_append]; exact hlt), List.length_append, List.length_singleton]
        congr 1
        omega
      next hge =>
        rw [ih _ h]
        omega

/-- Nothing is taken exactly if there is nothing, or no room. -/
theorem offers_eq_iff (chs xs : List Byte) (h : xs.length ≤ uartBufferSize - 1) :
    chs.foldl offer xs = xs ↔ chs = [] ∨ uartBufferSize - 1 ≤ xs.length := by
  constructor
  · intro he
    have hlen := length_offers chs xs h
    rw [he] at hlen
    rcases Nat.eq_zero_or_pos chs.length with hzero | hpos
    · exact .inl (List.eq_nil_of_length_eq_zero hzero)
    · exact .inr (by omega)
  · rintro (rfl | hfull)
    · rfl
    · induction chs with
      | nil => rfl
      | cons ch chs ih => rw [List.foldl_cons, offer, if_neg (by omega), ih]

end Uart

/-! ## Interrupts -/

/-- What `handle_uart_irq` meets: the masked status, the words that its first loop reads until
the FIFO is empty, and those that its last loop reads then. -/
structure Interrupt where
  mis : BitVec 32
  fifo : List (BitVec 32)
  late : List (BitVec 32)

namespace Interrupt

/-- What the loop of the receive interrupt reads. -/
def received (i : Interrupt) : List (BitVec 32) := if i.mis.getLsbD 4 then i.fifo else []

/-- What the loop of the receive timeout reads. -/
def timedOut (i : Interrupt) : List (BitVec 32) := if i.mis.getLsbD 6 then i.late else []

end Interrupt

/-- An interrupt, a character that `syscall_input` takes from the ring, or anything else that
happens to the kernel. -/
inductive Arrival where
  | irq (i : Interrupt)
  | read (maxLen : Int)
  | others (kernel : KState)

namespace Console

variable {c d : Console}

-- The words of the timeout go to `uart_putc` and nowhere else.
def handleUartIrq (alg : Algorithm) (i : Interrupt) (c : Console) : Console :=
  { c with
    kernel := Demoos.handleUartIrq alg i.mis i.fifo c.kernel
    uart := c.uart.handleIrq i.mis i.fifo }

def arrive (alg : Algorithm) (c : Console) : Arrival → Option Console
  | .irq i => some (c.handleUartIrq alg i)
  | .read maxLen => if c.uart.head = c.uart.tail then none else some (c.readChar maxLen)
  | .others kernel => some { c with kernel := kernel }

/-- No character is lost by an interrupt while there is room for it, and whoever waited for
one is awake. -/
structure Lossless (i : Interrupt) (c d : Console) : Prop where
  unread : d.uart.unread =
    (Uart.characters (i.received ++ i.timedOut)).foldl Uart.offer c.uart.unread
  inRange : d.uart.InRange
  awake : d.uart.unread ≠ c.uart.unread → Awake d.kernel

/-- The receive timeout finds no character, or no room. -/
def Undelayed (c : Console) (i : Interrupt) : Prop :=
  Uart.characters i.timedOut = [] ∨
    uartBufferSize - 1 ≤ c.uart.unread.length + (Uart.characters i.received).length

/-- The interrupts of a run, with the states before and behind them. -/
def Keeps (alg : Algorithm) (c : Console) : Arrival → Prop
  | .irq i => Lossless i c (c.handleUartIrq alg i)
  | .read _ | .others _ => True

def Punctual (c : Console) : Arrival → Prop
  | .irq i => c.Undelayed i
  | .read _ | .others _ => True

theorem uart_handleUartIrq (alg : Algorithm) (i : Interrupt) (c : Console) :
    (c.handleUartIrq alg i).uart = i.received.foldl Uart.receive c.uart := by
  unfold handleUartIrq Uart.handleIrq Interrupt.received
  dsimp only
  split <;> rfl

theorem kernel_handleUartIrq (alg : Algorithm) (i : Interrupt) (c : Console) :
    (c.handleUartIrq alg i).kernel = i.received.foldl (uartReceive alg) c.kernel := by
  unfold handleUartIrq Demoos.handleUartIrq Interrupt.received
  dsimp only
  split <;> rfl

theorem characters_append (words words' : List (BitVec 32)) :
    Uart.characters (words ++ words') = Uart.characters words ++ Uart.characters words' := by
  unfold Uart.characters
  rw [List.filter_append, List.map_append]

theorem unread_handleUartIrq (alg : Algorithm) (i : Interrupt) (h : c.uart.InRange) :
    (c.handleUartIrq alg i).uart.Unread
      ((Uart.characters i.received).foldl Uart.offer c.uart.unread) := by
  rw [uart_handleUartIrq]
  exact h.unread.offerAll i.received

/-- An interrupt loses nothing exactly if its timeout finds nothing. -/
theorem lossless_iff (alg : Algorithm) (i : Interrupt) (h : c.uart.InRange) :
    Lossless i c (c.handleUartIrq alg i) ↔ c.Undelayed i := by
  have hnext := c.unread_handleUartIrq alg i h
  have hle : c.uart.unread.length ≤ uartBufferSize - 1 := h.unread.spans.length_le
  have hlen := Uart.length_offers (Uart.characters i.received) _ hle
  have hiff := Uart.offers_eq_iff (Uart.characters i.timedOut) _ hnext.spans.length_le
  have hfull : uartBufferSize - 1 ≤
      ((Uart.characters i.received).foldl Uart.offer c.uart.unread).length ↔
        uartBufferSize - 1 ≤ c.uart.unread.length + (Uart.characters i.received).length := by
    omega
  rw [hfull] at hiff
  have hkeep : (c.handleUartIrq alg i).uart.unread =
      (Uart.characters (i.received ++ i.timedOut)).foldl Uart.offer c.uart.unread ↔
        c.Undelayed i := by
    rw [hnext.eq, characters_append, List.foldl_append, eq_comm]
    exact hiff
  refine ⟨fun hl => hkeep.mp hl.unread, fun hu => ⟨hkeep.mpr hu, hnext.inRange, fun hne => ?_⟩⟩
  rw [kernel_handleUartIrq]
  refine awake_receiveAll (.inr (Uart.exists_of_characters fun hnil => hne ?_))
  rw [hnext.eq, hnil]
  rfl

theorem inRange_arrive {alg : Algorithm} {e : Arrival} (h : c.uart.InRange)
    (ht : c.arrive alg e = some d) : d.uart.InRange := by
  cases e with
  | irq i =>
      obtain rfl := Option.some.inj ht
      exact (c.unread_handleUartIrq alg i h).inRange
  | read maxLen =>
      unfold arrive at ht
      dsimp only at ht
      split at ht
      next => exact absurd ht nofun
      next =>
        obtain rfl := Option.some.inj ht
        unfold readChar
        dsimp only
        split <;> exact ⟨h.head, Nat.mod_lt _ (by decide)⟩
  | others kernel =>
      obtain rfl := Option.some.inj ht
      exact h

/-- A run of interrupts loses nothing exactly if no timeout in it does. -/
theorem lossless_run_iff (alg : Algorithm) (es : List Arrival) (c : Console)
    (h : c.uart.InRange) :
    Transition.EachStep (arrive alg) (Keeps alg) es c ↔
      Transition.EachStep (arrive alg) Punctual es c := by
  refine Transition.eachStep_congr (I := fun c => c.uart.InRange)
    (fun c e d hc ht => ⟨inRange_arrive hc ht, ?_⟩) h
  cases e with
  | irq i => exact lossless_iff alg i hc
  | read maxLen => exact .rfl
  | others kernel => exact .rfl

/-- Three words, one of them with an error flag, and a timeout that finds another error. -/
theorem lossless_letters : Transition.EachStep (arrive .fcfs) (Keeps .fcfs)
    [.irq ⟨0x10, [0x41, 0x142, 0x43], []⟩, .irq ⟨0x50, [0x44], [0x100]⟩] (boot fun _ => 0) := by
  refine (lossless_run_iff .fcfs _ _ ⟨by decide, by decide⟩).mpr ?_
  intro c hc
  obtain rfl := Option.some.inj hc
  refine ⟨.inl (by decide), fun d hd => ?_⟩
  obtain rfl := Option.some.inj hd
  exact ⟨.inl (by decide), trivial⟩

/-- A letter that comes with a timeout alone. -/
theorem not_lossless_timeout :
    ¬ Lossless ⟨0x40, [], [0x41]⟩ (boot fun _ => 0)
      ((boot fun _ => 0).handleUartIrq .fcfs ⟨0x40, [], [0x41]⟩) :=
  fun h => absurd h.unread (by decide)

end Console

end Demoos
