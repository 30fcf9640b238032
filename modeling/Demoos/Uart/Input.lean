import Demoos.Ipc.Mailbox
import Demoos.Lib.Transition

/-!
# The UART and `syscall_input`

The ring of `drivers/uart/uart.c`, with the interrupt that fills it, and the system
call that empties it.  One process at a time is `uart_owner`.

Interrupts are enabled in a system call.  `syscall_input` is therefore cut into
pieces, and interrupts come between any two of them; a process that is in the call
keeps where it is in it (`InputPoint`).  The assignment of `PROCESS_WAITING_UART_INPUT` and
the `schedule()` behind it are one piece.
-/

namespace Demoos

open Function (update)

/-! ## The ring -/

-- `UART_BUFFER_SIZE`
def uartBufferSize : Nat := 64

/-- The globals of `drivers/uart/uart.c`. -/
structure Uart where
  owner : Option Pid
  buffer : Nat → Byte
  head : Nat
  tail : Nat

namespace Uart

/-- What the interrupt does to the ring for one word of the receive FIFO. -/
def receive (u : Uart) (dr : BitVec 32) : Uart :=
  if (dr >>> 8) &&& 0xF#32 = 0#32 then
    let nextHead := (u.head + 1) % uartBufferSize
    if nextHead ≠ u.tail then
      { u with buffer := update u.buffer u.head (dr.setWidth 8), head := nextHead }
    else u
  else u

def handleIrq (mis : BitVec 32) (fifo : List (BitVec 32)) (u : Uart) : Uart :=
  if mis.getLsbD 4 then fifo.foldl receive u else u

theorem owner_receive (u : Uart) (dr : BitVec 32) : (u.receive dr).owner = u.owner := by
  unfold receive
  split
  next =>
    dsimp only
    split <;> rfl
  next => rfl

theorem owner_handleIrq (mis : BitVec 32) (fifo : List (BitVec 32)) (u : Uart) :
    (u.handleIrq mis fifo).owner = u.owner := by
  unfold handleIrq
  split
  next =>
    induction fifo generalizing u with
    | nil => rfl
    | cons dr fifo ih => exact (ih (u.receive dr)).trans (u.owner_receive dr)
  next => rfl

end Uart

/-! ## Readers -/

/-- Where a process is in `syscall_input`. -/
inductive InputPoint where
  | outside
  -- the loop that waits for the owner
  | contending (len : Int)
  -- behind it
  | claiming (len : Int)
  -- the loops over the ring
  | reading (maxLen : Int)
  -- they found the ring empty
  | blocking (maxLen : Int)
deriving DecidableEq, Repr

/-- A process with the buffer of its call, or with what its last call left there. -/
structure Reader where
  point : InputPoint
  currentLen : Nat
  buffer : Nat → Byte

namespace Reader

def setPoint (r : Reader) (point : InputPoint) : Reader := { r with point := point }

/-- A character other than the end of the line. -/
def edit (r : Reader) (maxLen : Int) (c : Byte) : Reader :=
  if c = 0x7F then
    if 0 < r.currentLen then
      { r with currentLen := r.currentLen - 1, buffer := update r.buffer (r.currentLen - 1) 0 }
    else r
  else if r.currentLen < maxLen then
    { r with
      currentLen := r.currentLen + 1
      buffer := update (update r.buffer r.currentLen c) (r.currentLen + 1) 0 }
  else r

/-- The end of the line. -/
def finish (r : Reader) : Reader :=
  { r with point := .outside, buffer := update r.buffer r.currentLen 0 }

theorem point_edit (r : Reader) (maxLen : Int) (c : Byte) : (r.edit maxLen c).point = r.point := by
  unfold edit
  split
  next => split <;> rfl
  next => split <;> rfl

end Reader

/-! ## Events -/

/-- The kernel with its UART and the processes that read from it. -/
structure Console where
  kernel : KState
  uart : Uart
  reader : Pid → Reader

/-- An interrupt or a call of a process outside `syscall_input`, the call of
`syscall_input`, and the next piece of the call that the current process is in. -/
inductive Event where
  | kernel (op : Op)
  | call (len : Int)
  | input
deriving DecidableEq, Repr

def Op.interrupt : Op → Bool
  | .timerTick | .uartIrq _ _ => true
  | _ => false

namespace Console

/-- Where the current process is. -/
def point (c : Console) : InputPoint := (c.reader c.kernel.currentProcess).point

def setReader (c : Console) (f : Reader → Reader) : Console :=
  { c with reader := update c.reader c.kernel.currentProcess (f (c.reader c.kernel.currentProcess)) }

/-- `syscall_input` blocks for itself. -/
def Enabled (c : Console) : Event → Prop
  | .kernel op => op.Enabled c.kernel.toGlobals ∧ op ≠ .block .uartInput ∧
      (op.interrupt = true ∨ c.point = .outside)
  | .call _ => c.kernel.currentProcess ≠ initProcess ∧ c.point = .outside
  | .input => c.point ≠ .outside

instance (c : Console) (e : Event) : Decidable (c.Enabled e) := by
  cases e <;> unfold Enabled <;> infer_instance

/-- An operation of the scheduler, and what the UART interrupt does to the ring. -/
def runOp (alg : Algorithm) (c : Console) (op : Op) : Option Console :=
  (step alg c.kernel op).map fun k =>
    { c with
      kernel := k
      uart := match op with
        | .uartIrq mis fifo => c.uart.handleIrq mis fifo
        | _ => c.uart }

/-- One character from the ring. -/
def readChar (c : Console) (maxLen : Int) : Console :=
  let ch := c.uart.buffer c.uart.tail
  let c := { c with uart.tail := (c.uart.tail + 1) % uartBufferSize }
  if ch = 13 ∨ ch = 10 then
    { c with uart.owner := none }.setReader Reader.finish
  else c.setReader fun r => r.edit maxLen ch

/-- The next piece of `syscall_input`. -/
def syscallInput (alg : Algorithm) (c : Console) : Option Console :=
  let p := c.kernel.currentProcess
  match c.point with
  | .outside => none
  | .contending len =>
      if c.uart.owner ≠ none ∧ c.uart.owner ≠ some p then
        (schedule alg c.kernel).map fun k => { c with kernel := k }
      else some (c.setReader (·.setPoint (.claiming len)))
  | .claiming len =>
      let maxLen := if 0 < len then len - 1 else 0
      some ({ c with uart.owner := some p }.setReader (·.setPoint (.reading maxLen)))
  | .reading maxLen =>
      if c.uart.head = c.uart.tail then some (c.setReader (·.setPoint (.blocking maxLen)))
      else some (c.readChar maxLen)
  | .blocking maxLen =>
      (block alg .uartInput c.kernel).map fun k =>
        { c.setReader (·.setPoint (.reading maxLen)) with kernel := k }

def step (alg : Algorithm) (c : Console) : Event → Option Console
  | .kernel op => c.runOp alg op
  | .call len => some (c.setReader fun r => ⟨.contending len, 0, r.buffer⟩)
  | .input => c.syscallInput alg

/-- One event of a run. -/
def next (alg : Algorithm) (c : Console) (e : Event) : Option Console :=
  if c.Enabled e then c.step alg e else none

/-- The UART with nobody in `syscall_input`. -/
def boot (timer : Nat → BitVec 32) : Console where
  kernel := Demoos.boot timer
  uart := ⟨none, fun _ => 0, 0, 0⟩
  reader _ := ⟨.outside, 0, fun _ => 0⟩

/-- The states of the runs. -/
def Reachable (alg : Algorithm) (c : Console) : Prop :=
  ∃ es timer, Transition.exec (next alg) es (boot timer) = some c

end Console

end Demoos
