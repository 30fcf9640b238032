import Demoos.Lib.Ring
import Demoos.Uart.Sleepers

/-!
# Lines

What `syscall_input` makes of the characters that come through the ring.  A line is
edited as it is read: DEL takes the last character back, and characters for which the
buffer has no room are dropped.

A call has read some characters of the stream, none of which ends a line, and the others are
in the ring (`Typing`), until it has read one that does (`Entered`).  Every event keeps this up,
wherever the interrupts come that bring more of the stream.

The interrupt wakes readers that wait already, and a reader begins to wait behind its own look
at the ring.  A character that comes in between wakes nobody.  Without such a character no reader
sleeps while there is something to read (`Alert`), and the call returns.
-/

namespace Demoos

open Function (update update_self update_of_ne)

/-! ## Editing -/

/-- CR or LF. -/
def EndsLine (ch : Byte) : Prop := ch = 13 ∨ ch = 10

instance (ch : Byte) : Decidable (EndsLine ch) := inferInstanceAs (Decidable (_ ∨ _))

/-- What is kept of a line after one more character, in a buffer of length `len`. -/
def keep (len : Int) (kept : List Byte) (ch : Byte) : List Byte :=
  if ch = 0x7F then kept.dropLast
  else if kept.length < len - 1 then kept ++ [ch] else kept

def edited (len : Int) (line : List Byte) : List Byte := line.foldl (keep len) []

theorem edited_concat (len : Int) (line : List Byte) (ch : Byte) :
    edited len (line ++ [ch]) = keep len (edited len line) ch := by
  rw [edited, List.foldl_append]
  rfl

namespace Reader

variable {r : Reader} {len : Int} {before : Nat → Byte} {kept : List Byte}

/-- The buffer has the characters `kept`, and behind its length what was there `before`. -/
structure Shows (r : Reader) (len : Int) (before : Nat → Byte) (kept : List Byte) : Prop where
  length : r.currentLen = kept.length
  room : (kept.length : Int) < len
  text : ∀ i (hi : i < kept.length), r.buffer i = kept[i]
  beyond : ∀ i : Nat, len ≤ i → r.buffer i = before i

theorem Shows.erase (h : r.Shows len before kept) (hk : 0 < r.currentLen) :
    Shows { r with currentLen := r.currentLen - 1, buffer := update r.buffer (r.currentLen - 1) 0 }
      len before kept.dropLast := by
  have hlen := h.length
  have hroom := h.room
  refine ⟨?_, ?_, fun i hi => ?_, fun i hi => ?_⟩
  · rw [List.length_dropLast, ← hlen]
  · rw [List.length_dropLast]
    omega
  · rw [List.length_dropLast] at hi
    dsimp only
    rw [update_of_ne (by omega), List.getElem_dropLast]
    exact h.text i (by omega)
  · dsimp only
    rw [update_of_ne (by omega)]
    exact h.beyond i hi

theorem Shows.append (h : r.Shows len before kept) (hk : (r.currentLen : Int) < len - 1)
    (ch : Byte) :
    Shows { r with
      currentLen := r.currentLen + 1
      buffer := update (update r.buffer r.currentLen ch) (r.currentLen + 1) 0 }
      len before (kept ++ [ch]) := by
  have hlen := h.length
  refine ⟨?_, ?_, fun i hi => ?_, fun i hi => ?_⟩
  · rw [List.length_append, hlen]
    rfl
  · rw [List.length_append, ← hlen, List.length_singleton]
    omega
  · rw [List.length_append, List.length_singleton] at hi
    dsimp only
    rw [update_of_ne (by omega)]
    rcases Nat.lt_succ_iff_lt_or_eq.mp hi with hlt | rfl
    · rw [update_of_ne (by omega), List.getElem_append_left hlt]
      exact h.text i hlt
    · rw [hlen, update_self, List.getElem_concat_length rfl]
  · dsimp only
    rw [update_of_ne (by omega), update_of_ne (by omega)]
    exact h.beyond i hi

theorem Shows.edit (h : r.Shows len before kept) (ch : Byte) :
    (r.edit (len - 1) ch).Shows len before (keep len kept ch) := by
  have hlen := h.length
  unfold Reader.edit keep
  split
  next =>
    split
    next hk => exact h.erase hk
    next hk =>
      have hnil : kept = [] := List.eq_nil_of_length_eq_zero (by omega)
      rw [hnil] at h ⊢
      exact h
  next =>
    rw [hlen]
    split
    next hk =>
      rw [← hlen]
      exact h.append (by omega) ch
    next => exact h

theorem Shows.finish (h : r.Shows len before kept) :
    r.finish.Shows len before kept ∧ r.finish.buffer kept.length = 0 := by
  have hlen := h.length
  have hroom := h.room
  refine ⟨⟨hlen, hroom, fun i hi => ?_, fun i hi => ?_⟩, ?_⟩
  · exact (update_of_ne (by omega) ..).trans (h.text i hi)
  · exact (update_of_ne (by omega) ..).trans (h.beyond i hi)
  · rw [← hlen]
    exact update_self ..

end Reader

/-! ## The ring -/

namespace Uart

variable {u : Uart} {xs : List Byte} {ch : Byte}

/-- The characters in the ring, the next one to read in front. -/
def Unread (u : Uart) (xs : List Byte) : Prop :=
  Ring.Holds (uartBufferSize - 1) u.head u.tail u.buffer xs

/-- The characters that the interrupt stores for a word of the receive FIFO. -/
def stored (u : Uart) (dr : BitVec 32) : List Byte :=
  if (dr >>> 8) &&& 0xF#32 = 0#32 ∧ (u.head + 1) % uartBufferSize ≠ u.tail then [dr.setWidth 8]
  else []

def storedAll : List (BitVec 32) → Uart → List Byte
  | [], _ => []
  | dr :: fifo, u => u.stored dr ++ storedAll fifo (u.receive dr)

theorem mod_eq_advance {i : Nat} (hi : i ≤ uartBufferSize - 1) :
    (i + 1) % uartBufferSize = Ring.advance (uartBufferSize - 1) i := by
  unfold Ring.advance uartBufferSize at *
  split <;> omega

theorem Unread.receive (h : u.Unread xs) (dr : BitVec 32) :
    (u.receive dr).Unread (xs ++ u.stored dr) := by
  unfold Uart.receive stored
  split
  next hok =>
    dsimp only
    split
    next hroom =>
      rw [if_pos ⟨hok, hroom⟩]
      rw [mod_eq_advance h.spans.head_le] at hroom ⊢
      have hlen : xs.length < uartBufferSize - 1 :=
        Nat.lt_of_le_of_ne h.spans.length_le fun he => hroom (h.spans.full_iff.mpr he)
      exact h.push hlen _
    next hroom =>
      rw [if_neg fun hc => hroom hc.2, List.append_nil]
      exact h
  next hok =>
    rw [if_neg fun hc => hok hc.1, List.append_nil]
    exact h

theorem Unread.receiveAll (h : u.Unread xs) (fifo : List (BitVec 32)) :
    (fifo.foldl Uart.receive u).Unread (xs ++ storedAll fifo u) := by
  induction fifo generalizing u xs with
  | nil =>
      rw [storedAll, List.append_nil]
      exact h
  | cons dr fifo ih =>
      rw [storedAll, ← List.append_assoc]
      exact ih (h.receive dr)

theorem Unread.empty_iff (h : u.Unread xs) : u.head = u.tail ↔ xs = [] :=
  h.spans.empty_iff.trans List.length_eq_zero_iff

theorem Unread.pop (h : u.Unread (ch :: xs)) :
    u.buffer u.tail = ch ∧
      { u with tail := (u.tail + 1) % uartBufferSize }.Unread xs := by
  obtain ⟨hfirst, hrest⟩ := Ring.Holds.pop h
  refine ⟨hfirst, ?_⟩
  rw [mod_eq_advance h.spans.tail_le]
  exact hrest

end Uart

/-! ## The call -/

/-- Where a call with a buffer of length `len` can be. -/
def InputPoint.Inside (len : Int) : InputPoint → Prop
  | .outside => False
  | .contending n | .claiming n => n = len
  | .reading n | .blocking n => n = len - 1

namespace Console

variable {alg : Algorithm} {c d : Console} {e : Event} {p : Pid} {len : Int} {before : Nat → Byte}
  {read unread line : List Byte} {ch : Byte}

/-- The characters that an event stores in the ring. -/
def arrivals (c : Console) : Event → List Byte
  | .kernel (.uartIrq mis fifo) => if mis.getLsbD 4 then Uart.storedAll fifo c.uart else []
  | _ => []

/-- The characters that a run stores in the ring. -/
def stream (alg : Algorithm) : List Event → Console → List Byte
  | [], _ => []
  | e :: es, c => c.arrivals e ++ match c.next alg e with
      | some d => stream alg es d
      | none => []

/-- Nobody but `p` reads. -/
structure Alone (c : Console) (p : Pid) : Prop where
  others : ∀ q, q ≠ p → (c.reader q).point = .outside
  owner : ∀ q, c.uart.owner = some q → q = p

/-- The call has read `read` and waits for the end of the line. -/
structure Typing (c : Console) (p : Pid) (len : Int) (before : Nat → Byte)
    (read unread : List Byte) : Prop where
  alone : c.Alone p
  ring : c.uart.Unread unread
  endless : ∀ ch ∈ read, ¬ EndsLine ch
  buffer : (c.reader p).Shows len before (edited len read)
  point : (c.reader p).point.Inside len

/-- The call has returned with `line`. -/
structure Entered (c : Console) (p : Pid) (len : Int) (before : Nat → Byte)
    (line : List Byte) (ch : Byte) (unread : List Byte) : Prop where
  alone : c.Alone p
  ring : c.uart.Unread unread
  endless : ∀ ch ∈ line, ¬ EndsLine ch
  ending : EndsLine ch
  buffer : (c.reader p).Shows len before (edited len line)
  terminator : (c.reader p).buffer (edited len line).length = 0
  point : (c.reader p).point = .outside
  free : c.uart.owner = none

/-- How far the call is in the stream. -/
inductive Session (c : Console) (p : Pid) (len : Int) (before : Nat → Byte) : List Byte → Prop
  | typing {read unread : List Byte} (h : c.Typing p len before read unread) :
      Session c p len before (read ++ unread)
  | entered {line : List Byte} {ch : Byte} {unread : List Byte}
      (h : c.Entered p len before line ch unread) :
      Session c p len before (line ++ ch :: unread)

theorem Alone.current (h : c.Alone p) (hp : c.point ≠ .outside) : c.kernel.currentProcess = p :=
  Decidable.by_contra fun hne => hp (h.others _ hne)

theorem Alone.unowned (h : c.Alone p) : ¬ (c.uart.owner ≠ none ∧ c.uart.owner ≠ some p) := by
  rintro ⟨hnone, hother⟩
  obtain ⟨q, hq⟩ := Option.ne_none_iff_exists'.mp hnone
  exact hother (by rw [hq, h.owner q hq])

theorem Alone.setReader (h : c.Alone c.kernel.currentProcess) (f : Reader → Reader) :
    (c.setReader f).Alone c.kernel.currentProcess where
  others q hq := by
    rw [reader_setReader, if_neg hq]
    exact h.others q hq
  owner := h.owner

/-- A move of the reader that leaves its buffer alone. -/
theorem Typing.setPoint (h : c.Typing c.kernel.currentProcess len before read unread)
    {point : InputPoint} (hpoint : point.Inside len) :
    (c.setReader (·.setPoint point)).Typing c.kernel.currentProcess len before read unread := by
  refine ⟨h.alone.setReader _, h.ring, h.endless, ?_, ?_⟩
  · rw [reader_setReader, if_pos rfl]
    exact ⟨h.buffer.length, h.buffer.room, h.buffer.text, h.buffer.beyond⟩
  · rw [reader_setReader, if_pos rfl]
    exact hpoint

/-- A change of the kernel does not concern the reader. -/
theorem Typing.withKernel (h : c.Typing p len before read unread) (k : KState) :
    Typing { c with kernel := k } p len before read unread :=
  ⟨⟨h.alone.others, h.alone.owner⟩, h.ring, h.endless, h.buffer, h.point⟩

theorem Typing.claim (h : c.Typing c.kernel.currentProcess len before read unread) :
    Typing { c with uart.owner := some c.kernel.currentProcess } c.kernel.currentProcess len before
      read unread :=
  ⟨⟨h.alone.others, fun _ hq => (Option.some.inj hq).symm⟩, h.ring, h.endless, h.buffer, h.point⟩

/-! ## One character -/

theorem Typing.enter (h : c.Typing c.kernel.currentProcess len before read (ch :: unread))
    (hch : EndsLine ch) (maxLen : Int) :
    (c.readChar maxLen).Entered c.kernel.currentProcess len before read ch unread := by
  obtain ⟨hfirst, hrest⟩ := h.ring.pop
  have hch' : c.uart.buffer c.uart.tail = 13 ∨ c.uart.buffer c.uart.tail = 10 := by
    rw [hfirst]
    exact hch
  have hdone := h.buffer.finish
  unfold readChar
  dsimp only
  rw [if_pos hch']
  refine ⟨⟨fun q hq => ?_, nofun⟩, hrest, h.endless, hch, ?_, ?_, ?_, rfl⟩
  · rw [reader_setReader, if_neg hq]
    exact h.alone.others q hq
  · rw [reader_setReader, if_pos rfl]
    exact hdone.1
  · rw [reader_setReader, if_pos rfl]
    exact hdone.2
  · rw [reader_setReader, if_pos rfl]
    rfl

theorem Typing.readChar (h : c.Typing c.kernel.currentProcess len before read (ch :: unread))
    (hch : ¬ EndsLine ch) :
    (c.readChar (len - 1)).Typing c.kernel.currentProcess len before (read ++ [ch]) unread ∧
      (c.readChar (len - 1)).point = c.point := by
  obtain ⟨hfirst, hrest⟩ := h.ring.pop
  have hch' : ¬ (c.uart.buffer c.uart.tail = 13 ∨ c.uart.buffer c.uart.tail = 10) := by
    rw [hfirst]
    exact hch
  unfold Console.readChar
  dsimp only
  rw [if_neg hch', hfirst]
  have hpoint : ∀ r : Reader, (r.edit (len - 1) ch).point = r.point := fun r => r.point_edit _ _
  refine ⟨⟨⟨fun q hq => ?_, h.alone.owner⟩, hrest, fun x hx => ?_, ?_, ?_⟩, ?_⟩
  · rw [reader_setReader, if_neg hq]
    exact h.alone.others q hq
  · rcases List.mem_append.mp hx with hx | hx
    · exact h.endless x hx
    · rw [List.mem_singleton.mp hx]
      exact hch
  · rw [reader_setReader, if_pos rfl, edited_concat]
    exact h.buffer.edit ch
  · rw [reader_setReader, if_pos rfl, hpoint]
    exact h.point
  · change ((setReader _ _).reader c.kernel.currentProcess).point = _
    rw [reader_setReader, if_pos rfl, hpoint]
    rfl

/-! ## Events -/

theorem Typing.syscallInput (h : c.Typing c.kernel.currentProcess len before read unread)
    (hd : c.syscallInput alg = some d) :
    Session d c.kernel.currentProcess len before (read ++ unread) := by
  have hinside := h.point
  unfold Console.syscallInput at hd
  cases hp : c.point with
  | outside =>
      rw [hp] at hd
      exact absurd hd nofun
  | contending n =>
      rw [hp] at hd
      dsimp only at hd
      rw [if_neg h.alone.unowned] at hd
      obtain rfl := Option.some.inj hd
      rw [show (c.reader c.kernel.currentProcess).point = _ from hp] at hinside
      exact .typing (h.setPoint hinside)
  | claiming n =>
      rw [hp] at hd
      obtain rfl := Option.some.inj hd
      rw [show (c.reader c.kernel.currentProcess).point = _ from hp] at hinside
      obtain rfl : n = len := hinside
      have hroom := h.buffer.room
      have hmax : (if 0 < n then n - 1 else 0) = n - 1 := if_pos (by omega)
      exact .typing (h.claim.setPoint hmax)
  | reading n =>
      rw [hp] at hd
      rw [show (c.reader c.kernel.currentProcess).point = _ from hp] at hinside
      obtain rfl : n = len - 1 := hinside
      dsimp only at hd
      split at hd
      next =>
        obtain rfl := Option.some.inj hd
        exact .typing (h.setPoint (show (InputPoint.blocking (len - 1)).Inside len from rfl))
      next hne =>
        obtain rfl := Option.some.inj hd
        cases unread with
        | nil => exact absurd (h.ring.empty_iff.mpr rfl) hne
        | cons ch unread =>
            by_cases hch : EndsLine ch
            · exact .entered (h.enter hch _)
            · have hread := Session.typing (h.readChar hch).1
              rwa [List.append_assoc] at hread
  | blocking n =>
      rw [hp] at hd
      obtain ⟨k, hk, rfl⟩ := Option.map_eq_some_iff.mp hd
      rw [show (c.reader c.kernel.currentProcess).point = _ from hp] at hinside
      exact .typing ((h.setPoint (show (InputPoint.reading n).Inside len from hinside)).withKernel k)

/-- What an operation of the scheduler leaves of the UART. -/
theorem runOp_cases {op : Op} (hd : c.runOp alg op = some d) :
    d.reader = c.reader ∧ d.uart.owner = c.uart.owner ∧
      ∀ xs, c.uart.Unread xs → d.uart.Unread (xs ++ c.arrivals (.kernel op)) := by
  obtain ⟨k, hk, rfl⟩ := Option.map_eq_some_iff.mp hd
  cases op with
  | uartIrq mis fifo =>
      refine ⟨rfl, Uart.owner_handleIrq mis fifo c.uart, fun xs hxs => ?_⟩
      change (c.uart.handleIrq mis fifo).Unread (xs ++ if _ then _ else _)
      unfold Uart.handleIrq
      split
      next => exact hxs.receiveAll fifo
      next =>
        rw [List.append_nil]
        exact hxs
  | _ => exact ⟨rfl, rfl, fun xs hxs => by rwa [arrivals, List.append_nil]; exact nofun⟩

theorem reader_kernel {op : Op} (hd : c.next alg (.kernel op) = some d) : d.reader = c.reader :=
  (runOp_cases (Option.ite_none_right_eq_some.mp hd).2).1

theorem Session.runOp {op : Op} {xs : List Byte} (h : c.Session p len before xs)
    (hd : c.runOp alg op = some d) :
    d.Session p len before (xs ++ c.arrivals (.kernel op)) := by
  obtain ⟨hreader, howner, hring⟩ := runOp_cases hd
  have halone : ∀ {q}, c.Alone q → d.Alone q := fun {q} ha =>
    ⟨by rw [hreader]; exact ha.others, by rw [howner]; exact ha.owner⟩
  cases h with
  | typing h =>
      rw [List.append_assoc]
      refine .typing ⟨halone h.alone, hring _ h.ring, h.endless, ?_, ?_⟩
      · rw [hreader]
        exact h.buffer
      · rw [hreader]
        exact h.point
  | entered h =>
      rw [List.append_assoc, List.cons_append]
      refine .entered ⟨halone h.alone, hring _ h.ring, h.endless, h.ending, ?_, ?_, ?_, ?_⟩
      · rw [hreader]
        exact h.buffer
      · rw [hreader]
        exact h.terminator
      · rw [hreader]
        exact h.point
      · rw [howner]
        exact h.free

theorem Session.next {xs : List Byte} (h : c.Session p len before xs) (he : ∀ n, e ≠ .call n)
    (hd : c.next alg e = some d) : d.Session p len before (xs ++ c.arrivals e) := by
  obtain ⟨hen, hd⟩ := Option.ite_none_right_eq_some.mp hd
  cases e with
  | kernel op => exact h.runOp hd
  | call n => exact absurd rfl (he n)
  | input =>
      rw [arrivals, List.append_nil]
      · cases h with
        | typing h =>
            obtain rfl := h.alone.current hen
            exact h.syscallInput hd
        | entered h =>
            obtain rfl := h.alone.current hen
            exact absurd h.point hen
      · exact nofun

/-! ## Sleeping and waking -/

theorem exists_of_storedAll {u : Uart} {fifo : List (BitVec 32)}
    (h : Uart.storedAll fifo u ≠ []) : ∃ dr ∈ fifo, (dr >>> 8) &&& 0xF#32 = 0#32 := by
  induction fifo generalizing u with
  | nil => exact absurd rfl h
  | cons dr fifo ih =>
      by_cases hok : (dr >>> 8) &&& 0xF#32 = 0#32
      · exact ⟨dr, List.mem_cons_self, hok⟩
      · have hnone : u.stored dr = [] := if_neg fun hc => hok hc.1
        rw [Uart.storedAll, hnone, List.nil_append] at h
        obtain ⟨x, hx, hxok⟩ := ih h
        exact ⟨x, List.mem_cons_of_mem dr hx, hxok⟩

theorem Fit.running (h : c.Fit) (hi : c.kernel.currentProcess ≠ initProcess) :
    (c.kernel.pcb c.kernel.currentProcess).state = .running := by
  obtain ⟨a, ha⟩ := h.kernel
  have hcur := ha.refines.currentProcess
  rw [ha.refines.state_eq, hcur]
  exact ha.current.running (by rw [← hcur]; exact hi)

/-- A character that is stored makes a reader that waits ready. -/
theorem Fit.ready (h : c.Fit) (hin : (c.reader p).point ≠ .outside)
    (hw : (c.kernel.pcb p).state = .waitingUartInput) (harr : c.arrivals e ≠ [])
    (hd : c.next alg e = some d) : (d.kernel.pcb p).state = .ready := by
  obtain ⟨_, hreg⟩ := h.reader p hin
  obtain ⟨a, ha⟩ := h.kernel
  have hlt : p < c.kernel.nProcesses := ha.queueLaw.table.registered_iff.mp hreg
  obtain ⟨_, hd⟩ := Option.ite_none_right_eq_some.mp hd
  cases e with
  | kernel op =>
      cases op with
      | uartIrq mis fifo =>
          have hrun : c.runOp alg (.uartIrq mis fifo) = some d := hd
          obtain ⟨k, hk, rfl⟩ := Option.map_eq_some_iff.mp hrun
          obtain rfl := Option.some.inj hk
          rw [arrivals] at harr
          split at harr
          next hbit =>
            change ((handleUartIrq alg mis fifo c.kernel).pcb p).state = _
            rw [handleUartIrq, if_pos hbit]
            exact ready_receiveAll (exists_of_storedAll harr) hlt hreg hw
          next => exact absurd rfl harr
      | _ => exact absurd rfl harr
  | _ => exact absurd rfl harr

/-- The reader waits for the UART and for nothing else, and only while the ring is empty, as
it is when the reader is about to wait. -/
structure Alert (c : Console) (p : Pid) : Prop where
  waits : (c.kernel.pcb p).state.blocked = true →
    (c.kernel.pcb p).state = .waitingUartInput ∧ c.uart.head = c.uart.tail
  gap : ∀ n, (c.reader p).point = .blocking n → c.uart.head = c.uart.tail

/-- No character is stored between the look of `p` at the empty ring and its sleep. -/
def Prompt (p : Pid) (c : Console) (e : Event) : Prop :=
  match (c.reader p).point with
  | .blocking _ => c.arrivals e = []
  | _ => True

instance (p : Pid) (c : Console) (e : Event) : Decidable (c.Prompt p e) := by
  unfold Prompt
  split <;> infer_instance

/-- One event of a run in which no character comes in between. -/
def promptNext (alg : Algorithm) (p : Pid) (c : Console) (e : Event) : Option Console :=
  if c.Prompt p e then c.next alg e else none

theorem alert_of_running (hrun : (c.kernel.pcb p).state = .running)
    (hgap : ∀ n, (c.reader p).point = .blocking n → c.uart.head = c.uart.tail) : c.Alert p where
  waits hw := by
    rw [hrun] at hw
    exact absurd hw Bool.false_ne_true
  gap := hgap

theorem empty_runOp {op : Op} {xs : List Byte} (hring : c.uart.Unread xs)
    (hempty : c.uart.head = c.uart.tail) (harr : c.arrivals (.kernel op) = [])
    (hd : c.runOp alg op = some d) : d.uart.head = d.uart.tail := by
  have hd' := (runOp_cases hd).2.2 xs hring
  rw [harr, List.append_nil] at hd'
  exact hd'.empty_iff.mpr (hring.empty_iff.mp hempty)

theorem Alert.kernel {op : Op} {xs : List Byte} (h : c.Alert p) (hfit : c.Fit)
    (hring : c.uart.Unread xs) (hin : (c.reader p).point ≠ .outside)
    (hprompt : c.Prompt p (.kernel op)) (hd : c.next alg (.kernel op) = some d) : d.Alert p := by
  obtain ⟨hen, hrun⟩ := Option.ite_none_right_eq_some.mp hd
  obtain ⟨k, hk, hkernel⟩ := Option.map_eq_some_iff.mp hrun
  have hstep : Demoos.step alg c.kernel op = some d.kernel := by
    rw [← hkernel]
    exact hk
  obtain ⟨a, ha⟩ := hfit.kernel
  refine ⟨fun hw => ?_, fun n hn => ?_⟩
  · have hkeep : p = c.kernel.currentProcess → op.interrupt = true := by
      rintro rfl
      exact hen.2.2.resolve_right hin
    have hstate := ha.waits_step hen.1 hstep (hfit.reader p hin).2 hkeep hw
    rw [hstate] at hw ⊢
    obtain ⟨hwaits, hempty⟩ := h.waits hw
    refine ⟨hwaits, empty_runOp hring hempty ?_ hrun⟩
    by_contra harr
    have hready := hfit.ready hin hwaits harr hd
    exact absurd (hready.symm.trans (hstate.trans hwaits)) nofun
  · rw [reader_kernel hd] at hn
    refine empty_runOp hring (h.gap n hn) ?_ hrun
    rw [Prompt, hn] at hprompt
    exact hprompt

theorem Alert.input (h : c.Alert c.kernel.currentProcess) (hfit : c.Fit)
    (halone : c.Alone c.kernel.currentProcess) (hi : c.kernel.currentProcess ≠ initProcess)
    (hd : c.syscallInput alg = some d) : d.Alert c.kernel.currentProcess := by
  have hrun := hfit.running hi
  -- The reader runs until it blocks.
  have hmove (f : Reader → Reader) (u : Console) (hu : u.kernel = c.kernel)
      (hgap : ∀ n, (f (u.reader c.kernel.currentProcess)).point = .blocking n →
        u.uart.head = u.uart.tail) : (u.setReader f).Alert c.kernel.currentProcess := by
    refine alert_of_running (by rw [← hrun, ← hu]; rfl) fun n hn => ?_
    rw [reader_setReader, hu, if_pos rfl] at hn
    exact hgap n hn
  unfold syscallInput at hd
  cases hp : c.point with
  | outside =>
      rw [hp] at hd
      exact absurd hd nofun
  | contending len =>
      rw [hp] at hd
      dsimp only at hd
      rw [if_neg halone.unowned] at hd
      obtain rfl := Option.some.inj hd
      exact hmove _ c rfl nofun
  | claiming len =>
      rw [hp] at hd
      obtain rfl := Option.some.inj hd
      exact hmove _ _ rfl nofun
  | reading maxLen =>
      have hpoint : (c.reader c.kernel.currentProcess).point = .reading maxLen := hp
      rw [hp] at hd
      dsimp only at hd
      split at hd
      next hempty =>
        obtain rfl := Option.some.inj hd
        exact hmove _ c rfl fun _ _ => hempty
      next =>
        obtain rfl := Option.some.inj hd
        unfold readChar
        dsimp only
        split
        next => exact hmove _ _ rfl nofun
        next =>
          refine hmove _ _ rfl fun n hn => ?_
          rw [Reader.point_edit] at hn
          exact absurd (hpoint.symm.trans hn) nofun
  | blocking maxLen =>
      rw [hp] at hd
      obtain ⟨k, hk, rfl⟩ := Option.map_eq_some_iff.mp hd
      obtain ⟨a, ha⟩ := hfit.kernel
      refine ⟨fun hw => ⟨ha.waits_block hi hk hw, h.gap maxLen hp⟩, fun n hn => ?_⟩
      change ((c.setReader (·.setPoint (.reading maxLen))).reader _).point = _ at hn
      rw [reader_setReader, if_pos rfl] at hn
      exact absurd hn nofun

/-- A call in a run without characters in between. -/
structure Ongoing (c : Console) (p : Pid) (len : Int) (before : Nat → Byte) (xs : List Byte) :
    Prop where
  fit : c.Fit
  session : c.Session p len before xs
  alert : (c.reader p).point ≠ .outside → c.Alert p

theorem Session.typing_of {xs : List Byte} (h : c.Session p len before xs)
    (hin : (c.reader p).point ≠ .outside) :
    ∃ read unread, xs = read ++ unread ∧ c.Typing p len before read unread := by
  cases h with
  | typing h => exact ⟨_, _, rfl, h⟩
  | entered h => exact absurd h.point hin

theorem Ongoing.next {xs : List Byte} (h : c.Ongoing p len before xs) (he : ∀ n, e ≠ .call n)
    (hd : c.promptNext alg p e = some d) : d.Ongoing p len before (xs ++ c.arrivals e) := by
  obtain ⟨hprompt, hd⟩ := Option.ite_none_right_eq_some.mp hd
  refine ⟨h.fit.next hd, h.session.next he hd, fun hin => ?_⟩
  have hbefore : (c.reader p).point ≠ .outside := by
    cases e with
    | kernel op =>
        rw [reader_kernel hd] at hin
        exact hin
    | call n => exact absurd rfl (he n)
    | input =>
        obtain ⟨hen, _⟩ := Option.ite_none_right_eq_some.mp hd
        cases h.session with
        | typing ht => rwa [← ht.alone.current hen]
        | entered ht => rwa [← ht.alone.current hen]
  obtain ⟨read, unread, rfl, htyping⟩ := h.session.typing_of hbefore
  cases e with
  | kernel op => exact (h.alert hbefore).kernel h.fit htyping.ring hbefore hprompt hd
  | call n => exact absurd rfl (he n)
  | input =>
      obtain ⟨hen, hinput⟩ := Option.ite_none_right_eq_some.mp hd
      obtain rfl := htyping.alone.current hen
      exact (h.alert hbefore).input h.fit htyping.alone (h.fit.notInit hen) hinput

theorem Ongoing.run {xs : List Byte} {es : List Event} (h : c.Ongoing p len before xs)
    (hes : ∀ e ∈ es, ∀ n, e ≠ .call n) (hrun : Transition.exec (promptNext alg p) es c = some d) :
    d.Ongoing p len before (xs ++ stream alg es c) := by
  induction es generalizing c xs with
  | nil =>
      obtain rfl := Option.some.inj hrun
      rw [stream, List.append_nil]
      exact h
  | cons e es ih =>
      obtain ⟨u, hu, hrest⟩ := Option.bind_eq_some_iff.mp hrun
      rw [stream, (Option.ite_none_right_eq_some.mp hu).2, ← List.append_assoc]
      exact ih (h.next (hes e List.mem_cons_self) hu)
        (fun e' he' => hes e' (List.mem_cons_of_mem e he')) hrest

/-! ## The return -/

/-- If `p` runs on, its call returns. -/
def Returns (alg : Algorithm) (c : Console) (p : Pid) : Prop :=
  ∃ n d, Transition.exec (next alg) (List.replicate n .input) c = some d ∧
    (d.reader p).point = .outside

theorem Returns.step (hp : c.point ≠ .outside) (hu : c.syscallInput alg = some d)
    (h : d.Returns alg p) : c.Returns alg p := by
  obtain ⟨n, u, hrun, hout⟩ := h
  refine ⟨n + 1, u, ?_, hout⟩
  have hnext : c.next alg .input = some d := (if_pos hp).trans hu
  rw [List.replicate_succ, Transition.exec, hnext]
  exact hrun

/-- With the end of a line in the ring a reader in the loop returns. -/
theorem Typing.returns_reading (h : c.Typing c.kernel.currentProcess len before read unread)
    (hp : c.point = .reading (len - 1)) (hend : ∃ ch ∈ unread, EndsLine ch) :
    c.Returns alg c.kernel.currentProcess := by
  induction unread generalizing c read with
  | nil =>
      obtain ⟨_, hmem, _⟩ := hend
      exact absurd hmem List.not_mem_nil
  | cons ch unread ih =>
      have hne : ¬ c.uart.head = c.uart.tail := fun he =>
        absurd (h.ring.empty_iff.mp he) (List.cons_ne_nil _ _)
      have hread : c.syscallInput alg = some (c.readChar (len - 1)) := by
        unfold Console.syscallInput
        rw [hp]
        exact if_neg hne
      refine .step (by rw [hp]; nofun) hread ?_
      by_cases hch : EndsLine ch
      · exact ⟨0, _, rfl, (h.enter hch _).point⟩
      · obtain ⟨htyping, hpoint⟩ := h.readChar hch
        have hcur : (c.readChar (len - 1)).kernel.currentProcess = c.kernel.currentProcess := by
          unfold Console.readChar
          dsimp only
          split <;> rfl
        rw [← hcur] at htyping ⊢
        obtain ⟨x, hx, hxe⟩ := hend
        rcases List.mem_cons.mp hx with rfl | hx
        · exact absurd hxe hch
        · exact ih htyping (hpoint.trans hp) ⟨x, hx, hxe⟩

theorem Typing.returns_claiming (h : c.Typing c.kernel.currentProcess len before read unread)
    (hp : c.point = .claiming len) (hend : ∃ ch ∈ unread, EndsLine ch) :
    c.Returns alg c.kernel.currentProcess := by
  have hroom := h.buffer.room
  have hmax : (if 0 < len then len - 1 else 0) = len - 1 := if_pos (by omega)
  have hclaim := h.claim.setPoint (show (InputPoint.reading (len - 1)).Inside len from rfl)
  refine .step (by rw [hp]; nofun) ?_ (hclaim.returns_reading ?_ hend)
  · unfold Console.syscallInput
    rw [hp]
    dsimp only
    rw [hmax]
  · change ((setReader _ _).reader c.kernel.currentProcess).point = _
    rw [reader_setReader, if_pos rfl]
    rfl

theorem Typing.returns_contending (h : c.Typing c.kernel.currentProcess len before read unread)
    (hp : c.point = .contending len) (hend : ∃ ch ∈ unread, EndsLine ch) :
    c.Returns alg c.kernel.currentProcess := by
  have hclaim := h.setPoint (show (InputPoint.claiming len).Inside len from rfl)
  refine .step (by rw [hp]; nofun) ?_ (hclaim.returns_claiming ?_ hend)
  · unfold Console.syscallInput
    rw [hp]
    exact if_neg h.alone.unowned
  · change ((setReader _ _).reader c.kernel.currentProcess).point = _
    rw [reader_setReader, if_pos rfl]
    rfl

/-- Only a reader that is about to sleep does not see that the line has ended. -/
theorem Typing.returns (h : c.Typing c.kernel.currentProcess len before read unread)
    (hp : c.point ≠ .blocking (len - 1)) (hend : ∃ ch ∈ unread, EndsLine ch) :
    c.Returns alg c.kernel.currentProcess := by
  have hinside : c.point.Inside len := h.point
  cases hpt : c.point with
  | outside =>
      rw [hpt] at hinside
      exact hinside.elim
  | contending n =>
      rw [hpt] at hinside
      obtain rfl : n = len := hinside
      exact h.returns_contending hpt hend
  | claiming n =>
      rw [hpt] at hinside
      obtain rfl : n = len := hinside
      exact h.returns_claiming hpt hend
  | reading n =>
      rw [hpt] at hinside
      obtain rfl : n = len - 1 := hinside
      exact h.returns_reading hpt hend
  | blocking n =>
      rw [hpt] at hinside
      obtain rfl : n = len - 1 := hinside
      exact absurd hpt hp

/-- The end of a line in the stream is in the ring, or the call has returned. -/
theorem Ongoing.returns {xs : List Byte} (h : c.Ongoing p len before xs)
    (hcur : c.kernel.currentProcess = p) (hend : ∃ ch ∈ xs, EndsLine ch) : c.Returns alg p := by
  subst hcur
  by_cases hin : (c.reader c.kernel.currentProcess).point = .outside
  · exact ⟨0, c, rfl, hin⟩
  · obtain ⟨read, unread, rfl, htyping⟩ := h.session.typing_of hin
    obtain ⟨ch, hch, hends⟩ := hend
    have hmem : ch ∈ unread :=
      (List.mem_append.mp hch).resolve_left fun hread => htyping.endless ch hread hends
    refine htyping.returns (fun hp => ?_) ⟨ch, hmem, hends⟩
    have hnil := htyping.ring.empty_iff.mp ((h.alert hin).gap _ hp)
    exact absurd (hnil ▸ hmem) List.not_mem_nil

/-! ## A whole call -/

/-- The call of `p` has not returned: it has read the beginning of the stream.  It sleeps only
over an empty ring, and the next character wakes it.  With the end of a line in the ring it
returns when it is dispatched, now or at any later time. -/
structure AwaitsLine (alg : Algorithm) (c : Console) (p : Pid) (stream read unread : List Byte) :
    Prop where
  stream_eq : stream = read ++ unread
  ring : c.uart.Unread unread
  endless : ∀ ch ∈ read, ¬ EndsLine ch
  sleeps : (c.kernel.pcb p).state.blocked = true → unread = []
  wakes : (c.kernel.pcb p).state.blocked = true → ∀ e d, c.next alg e = some d →
    c.arrivals e ≠ [] → (d.kernel.pcb p).state = .ready
  returns : (∃ ch ∈ unread, EndsLine ch) → ∀ es d, (∀ e ∈ es, ∀ n, e ≠ .call n) →
    Transition.exec (promptNext alg p) es c = some d → d.kernel.currentProcess = p →
      d.Returns alg p

/-- The call of `p` has returned with the first line of the stream. -/
structure HasLine (c : Console) (p : Pid) (len : Int)
    (stream line : List Byte) (ch : Byte) (unread : List Byte) : Prop where
  stream_eq : stream = line ++ ch :: unread
  ring : c.uart.Unread unread
  endless : ∀ ch ∈ line, ¬ EndsLine ch
  ending : EndsLine ch
  returned : (c.reader p).currentLen = (edited len line).length
  text : ∀ i (hi : i < (edited len line).length), (c.reader p).buffer i = (edited len line)[i]
  terminator : (c.reader p).buffer (edited len line).length = 0
  free : c.uart.owner = none

/-- What a call of `p` has done when `stream` has been in the ring. -/
structure LineInput (alg : Algorithm) (c : Console) (p : Pid) (len : Int) (before : Nat → Byte)
    (stream : List Byte) : Prop where
  awaits : (c.reader p).point ≠ .outside →
    ∃ read unread, c.AwaitsLine alg p stream read unread
  returned : (c.reader p).point = .outside →
    ∃ line ch unread, c.HasLine p len stream line ch unread
  beyond : ∀ i : Nat, len ≤ i → (c.reader p).buffer i = before i

theorem Ongoing.lineInput {xs : List Byte} (h : c.Ongoing p len before xs) :
    c.LineInput alg p len before xs where
  awaits hin := by
    obtain ⟨read, unread, rfl, htyping⟩ := h.session.typing_of hin
    have halert := h.alert hin
    refine ⟨read, unread, rfl, htyping.ring, htyping.endless, fun hw => ?_, fun hw e d hd harr => ?_,
      fun hend es d hes hrun hcur => ?_⟩
    · exact htyping.ring.empty_iff.mp (halert.waits hw).2
    · exact h.fit.ready hin (halert.waits hw).1 harr hd
    · obtain ⟨ch, hch, hends⟩ := hend
      refine (h.run hes hrun).returns hcur ⟨ch, ?_, hends⟩
      exact List.mem_append_left _ (List.mem_append_right _ hch)
  returned hout := by
    cases h.session with
    | typing ht =>
        have hinside := ht.point
        rw [hout] at hinside
        exact hinside.elim
    | entered he =>
        exact ⟨_, _, _, rfl, he.ring, he.endless, he.ending, he.buffer.length, he.buffer.text,
          he.terminator, he.free⟩
  beyond := by
    cases h.session with
    | typing ht => exact ht.buffer.beyond
    | entered he => exact he.buffer.beyond

/-! ## The ring in a run -/

theorem exists_unread_syscallInput (h : ∃ xs, c.uart.Unread xs) (hd : c.syscallInput alg = some d) :
    ∃ xs, d.uart.Unread xs := by
  obtain ⟨xs, hxs⟩ := h
  unfold syscallInput at hd
  cases hp : c.point with
  | outside =>
      rw [hp] at hd
      exact absurd hd nofun
  | contending n =>
      rw [hp] at hd
      dsimp only at hd
      split at hd
      next =>
        obtain ⟨k, hk, rfl⟩ := Option.map_eq_some_iff.mp hd
        exact ⟨xs, hxs⟩
      next =>
        obtain rfl := Option.some.inj hd
        exact ⟨xs, hxs⟩
  | claiming n =>
      rw [hp] at hd
      obtain rfl := Option.some.inj hd
      exact ⟨xs, hxs⟩
  | reading n =>
      rw [hp] at hd
      dsimp only at hd
      split at hd
      next =>
        obtain rfl := Option.some.inj hd
        exact ⟨xs, hxs⟩
      next hne =>
        obtain rfl := Option.some.inj hd
        cases xs with
        | nil => exact absurd (hxs.empty_iff.mpr rfl) hne
        | cons ch xs =>
            unfold readChar
            dsimp only
            split <;> exact ⟨xs, hxs.pop.2⟩
  | blocking n =>
      rw [hp] at hd
      obtain ⟨k, hk, rfl⟩ := Option.map_eq_some_iff.mp hd
      exact ⟨xs, hxs⟩

theorem exists_unread_next (h : ∃ xs, c.uart.Unread xs) (hd : c.next alg e = some d) :
    ∃ xs, d.uart.Unread xs := by
  obtain ⟨_, hd⟩ := Option.ite_none_right_eq_some.mp hd
  cases e with
  | kernel op =>
      obtain ⟨xs, hxs⟩ := h
      exact ⟨_, (runOp_cases hd).2.2 xs hxs⟩
  | call n =>
      obtain rfl := Option.some.inj hd
      exact h
  | input => exact exists_unread_syscallInput h hd

/-- In every run the readers are processes, and the ring is in order. -/
theorem Reachable.fit (h : Reachable alg c) : c.Fit ∧ ∃ xs, c.uart.Unread xs := by
  obtain ⟨es, timer, hrun⟩ := h
  have hstart : (boot timer).Fit ∧ ∃ xs, (boot timer).uart.Unread xs :=
    ⟨fit_boot timer, [], Ring.Holds.nil (Nat.zero_le _) _⟩
  exact Transition.exec_invariant (P := fun _ c => c.Fit ∧ ∃ xs, c.uart.Unread xs)
    (fun _ _ _ _ hP hd => ⟨hP.1.next hd, exists_unread_next hP.2 hd⟩) hstart hrun

/-! ## Lines in a run -/

/-- A call reads the first line of what has been in the ring since, with nobody else in the
call, wherever the interrupts come, if none stores a character between a look at the empty ring and
the sleep that follows it. -/
theorem call_reads_line {es : List Event} {xs : List Byte} (h : Reachable alg c)
    (hring : c.uart.Unread xs) (hout : ∀ p, (c.reader p).point = .outside) (hlen : 1 ≤ len)
    (hes : ∀ e ∈ es, ∀ n, e ≠ .call n)
    (hrun : Transition.exec (promptNext alg c.kernel.currentProcess) (.call len :: es) c = some d) :
    d.LineInput alg c.kernel.currentProcess len (c.reader c.kernel.currentProcess).buffer
      (xs ++ stream alg (.call len :: es) c) := by
  obtain ⟨u, hu, hrest⟩ := Option.bind_eq_some_iff.mp hrun
  obtain ⟨_, hu⟩ := Option.ite_none_right_eq_some.mp hu
  obtain ⟨hen, hcall⟩ := Option.ite_none_right_eq_some.mp hu
  rw [stream, hu]
  have hfit := h.fit.1
  have hnext : u.Fit := hfit.next hu
  obtain rfl := Option.some.inj hcall
  have hstart : Typing (c.setReader fun r => ⟨.contending len, 0, r.buffer⟩)
      c.kernel.currentProcess len (c.reader c.kernel.currentProcess).buffer [] xs := by
    refine ⟨⟨fun q hq => ?_, fun q hq => ?_⟩, hring, nofun, ?_, ?_⟩
    · rw [reader_setReader, if_neg hq]
      exact hout q
    · exact absurd (hout q) (hfit.owner q hq)
    · rw [reader_setReader, if_pos rfl]
      exact ⟨rfl, by change (0 : Int) < len; omega, nofun, fun _ _ => rfl⟩
    · rw [reader_setReader, if_pos rfl]
      exact rfl
  refine (Ongoing.run ⟨hnext, .typing hstart, fun _ => ?_⟩ hes hrest).lineInput
  refine alert_of_running (hfit.running hen.1) fun n hn => ?_
  rw [reader_setReader, if_pos rfl] at hn
  exact absurd hn nofun

/-- Somebody who is about to read. -/
def readerReady : List Event := [.kernel (.copyProcess true), .kernel .timerTick]

/-- The letters, DEL, a receive error and the end of the line come while the reader sleeps and
between its pieces, and one character more behind the line. -/
def lineInPieces : List Event :=
  [.input, .input, .input, .input, .kernel (.uartIrq 0x10 [0x61]), .kernel .timerTick, .input,
    .kernel (.uartIrq 0x10 [0x62, 0x7F, 0x1FF]), .input, .input, .input, .input,
    .kernel (.uartIrq 0x10 [0x0D, 0x63]), .kernel .timerTick, .kernel (.uartIrq 0x10 [0x64]),
    .input]

theorem reader_readerReady {c : Console}
    (hc : Transition.exec (next alg) readerReady (boot fun _ => 0) = some c) (p : Pid) :
    (c.reader p).point = .outside := by
  obtain ⟨c₁, h₁, hrest⟩ := Option.bind_eq_some_iff.mp hc
  obtain ⟨c₂, h₂, hlast⟩ := Option.bind_eq_some_iff.mp hrest
  obtain rfl := Option.some.inj hlast
  rw [reader_kernel h₂, reader_kernel h₁]
  rfl

/-- Of the six characters the call takes four, and returns the first. -/
theorem call_reads_line_in_pieces : ∃ c d,
    Transition.exec (next .roundRobin) readerReady (boot fun _ => 0) = some c ∧
    Transition.exec (promptNext .roundRobin 1) (.call 16 :: lineInPieces) c = some d ∧
    (d.reader 1).point = .outside ∧ (d.reader 1).currentLen = 1 ∧
    d.LineInput .roundRobin 1 16 (c.reader 1).buffer [0x61, 0x62, 0x7F, 0x0D, 0x63, 0x64] := by
  obtain ⟨c, hc, hp⟩ := (Option.any_eq_true _ _).mp (show (Transition.exec (next .roundRobin)
    readerReady (boot fun _ => 0)).any (fun c =>
      (c.kernel.currentProcess = 1 ∧ c.uart.head = 0 ∧ c.uart.tail = 0 ∧
        stream .roundRobin (.call 16 :: lineInPieces) c = [0x61, 0x62, 0x7F, 0x0D, 0x63, 0x64]) &&
      (Transition.exec (promptNext .roundRobin 1) (.call 16 :: lineInPieces) c).any (fun d =>
        ((d.reader 1).point = .outside) && ((d.reader 1).currentLen = 1))) = true by
    decide +kernel)
  obtain ⟨hstart, hd⟩ := Bool.and_eq_true_iff.mp hp
  obtain ⟨hcur, hhead, htail, hstream⟩ := of_decide_eq_true hstart
  obtain ⟨d, hrun, hd⟩ := (Option.any_eq_true _ _).mp hd
  obtain ⟨hout, hlen⟩ := Bool.and_eq_true_iff.mp hd
  have hring : c.uart.Unread [] := by
    rw [Uart.Unread, hhead, htail]
    exact Ring.Holds.nil (Nat.zero_le _) _
  have hrun' : Transition.exec (promptNext .roundRobin c.kernel.currentProcess)
      (.call 16 :: lineInPieces) c = some d := by
    rw [hcur]
    exact hrun
  have hline := call_reads_line ⟨_, _, hc⟩ hring (reader_readerReady hc) (by decide)
    (by simp [lineInPieces]) hrun'
  rw [hcur, hstream] at hline
  exact ⟨c, d, hc, hrun, of_decide_eq_true hout, of_decide_eq_true hlen, hline⟩

/-- The end of the line comes when the reader has found the ring empty and does not wait yet. -/
def lineInGap : List Event :=
  [.input, .input, .input, .kernel (.uartIrq 0x10 [0x0D]), .input]

/-- The reader sleeps over a whole line. -/
theorem not_reads_line_gap : ∃ c d,
    Transition.exec (next .roundRobin) readerReady (boot fun _ => 0) = some c ∧
    Transition.exec (next .roundRobin) (.call 16 :: lineInGap) c = some d ∧
    d.uart.Unread [0x0D] ∧ (d.kernel.pcb 1).state = .waitingUartInput ∧
    ∀ before stream, ¬ d.LineInput .roundRobin 1 16 before stream := by
  obtain ⟨c, hc, hp⟩ := (Option.any_eq_true _ _).mp (show (Transition.exec (next .roundRobin)
    readerReady (boot fun _ => 0)).any (fun c =>
      (Transition.exec (next .roundRobin) (.call 16 :: lineInGap) c).any (fun d =>
        (d.reader 1).point ≠ .outside ∧ (d.kernel.pcb 1).state = .waitingUartInput ∧
          d.uart.head = 1 ∧ d.uart.tail = 0 ∧ d.uart.buffer 0 = 0x0D)) = true by
    decide +kernel)
  obtain ⟨d, hrun, hd⟩ := (Option.any_eq_true _ _).mp hp
  obtain ⟨hin, hwaits, hhead, htail, hfirst⟩ := of_decide_eq_true hd
  have hring : d.uart.Unread [0x0D] := by
    unfold Uart.Unread
    rw [hhead, htail]
    refine ⟨⟨by decide, by decide, rfl⟩, fun k hk => ?_⟩
    obtain rfl : k = 0 := Nat.lt_one_iff.mp hk
    exact hfirst
  refine ⟨c, d, hc, hrun, hring, hwaits, fun before stream hline => ?_⟩
  obtain ⟨read, unread, hawaits⟩ := hline.awaits hin
  have hnil : unread = [] := hawaits.sleeps (by rw [hwaits]; rfl)
  have hempty := hawaits.ring.empty_iff.mpr hnil
  rw [hhead, htail] at hempty
  exact absurd hempty (by decide)

end Console

end Demoos
