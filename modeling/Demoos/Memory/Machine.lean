import Demoos.Lib.Transition
import Demoos.Memory.Tables

/-!
# Processes, their memory and their files

The system calls and kernel functions that allocate, free and map pages: the opens and
closes of `libs/syscalls.c`, `copy_process` and `move_to_user_mode` of `libs/fork.c`, and
`syscall_exec`.

Whatever the FAT library answers is an argument: an error, or what it read.  A call
that C gives no meaning ends in a `Fault`, and so does a call that has used a page
that it does not have.  A `FatResource` is in memory, and of a `File` or `Dir` the
machine knows which of the two the library has put into a page.

A PCB is kept apart from the page it is in.
-/

namespace Demoos

open Function (update)

/-! ## The machine -/

-- `MAX_PROCESS_PAGES` and `MAX_FILES_PER_PROCESS`.
def maxProcessPages : Nat := 16
def maxFilesPerProcess : Nat := 16

inductive ResourceType where
  | file
  | folder
deriving DecidableEq, Repr

/-- `RESOURCE_TYPE_FILE` and `RESOURCE_TYPE_FOLDER`. -/
def ResourceType.value : ResourceType → Nat
  | .file => 0
  | .folder => 1

/-- The history of a descriptor. -/
inductive Descriptor where
  | unused
  | opened (type : ResourceType)
  | closed
deriving DecidableEq, Repr

/-- The processes.  `pcb` is the address of the page of a PCB, `files` has kernel
addresses, and `userMode` says that a process is not a kernel thread any more. -/
structure Machine where
  ram : Ram
  nProcesses : Nat
  pcb : Pid → Nat
  mm : Pid → MmStruct
  files : Pid → Nat → Nat
  userMode : Pid → Bool
  object : Nat → Option ResourceType
  descriptor : Pid → Nat → Descriptor

inductive Fault where
  -- an index outside of `files[]`
  | index
  -- a `NULL` resource, `File`, `Dir` or buffer
  | null
  -- a `Dir` for a `File`, or a `File` for a `Dir`
  | type
  -- a page that the kernel does not have
  | memory
  -- a user address that is not mapped
  | translation
  -- something that is too long for its array
  | overflow
deriving DecidableEq, Repr

abbrev Result (α : Type) := Except Fault α

/-- The parts of a call that has come to its end. -/
theorem bind_ok {α β : Type} {x : Result α} {f : α → Result β} {b : β} (h : x >>= f = .ok b) :
    ∃ a, x = .ok a ∧ f a = .ok b := by
  cases x with
  | error e => exact absurd h nofun
  | ok a => exact ⟨a, rfl, h⟩

theorem error_bind {α β : Type} (e : Fault) (f : α → Result β) : (Except.error e >>= f) = .error e :=
  rfl

theorem ok_bind {α β : Type} (a : α) (f : α → Result β) : (Except.ok a >>= f) = f a := rfl

def deref (address : Nat) : Result Nat := if address = 0 then .error .null else .ok address

theorem deref_ok {a b : Nat} (h : deref a = .ok b) : a = b ∧ a ≠ 0 := by
  unfold deref at h
  split at h
  next => exact absurd h nofun
  next hne => exact ⟨Except.ok.inj h, hne⟩

theorem deref_zero : deref 0 = .error .null := rfl

theorem deref_of_ne {address : Nat} (h : address ≠ 0) : deref address = .ok address := if_neg h

namespace Ram

/-- `resource_type` of the `FatResource` at a kernel address. -/
def resourceType (r : Ram) (address : Nat) : Nat := Bytes.read (r.byte (address - vaStart)) 0 4

/-- The union of its two pointers. -/
def resourceObject (r : Ram) (address : Nat) : Nat := Bytes.read (r.byte (address - vaStart)) 8 8

def setResource (r : Ram) (address type object : Nat) : Ram :=
  let page := address - vaStart
  { r with byte :=
      update r.byte page (Bytes.write (Bytes.write (r.byte page) 0 4 type) 8 8 object) }

/-- The first `n` bytes of a page. -/
def fill (r : Ram) (page n : Nat) (byte : Nat → Byte) : Ram :=
  { r with byte := update r.byte page fun i => if i < n then byte i else r.byte page i }

/-- Bytes from a physical address on, over as many pages as they take. -/
def store (r : Ram) (page : Nat) (bytes : List Byte) : Ram :=
  { r with byte := fun g i => if page ≤ g + i ∧ i < pageSize then
      (bytes[g + i - page]?).getD (r.byte g i) else r.byte g i }

/-- Bytes from a user address on. -/
def storeUser (pgd : Nat) : Ram → Nat → List Byte → Result Ram
  | r, _, [] => .ok r
  | r, va, b :: bytes =>
      match translate r pgd va with
      | none => .error .translation
      | some g =>
          storeUser pgd { r with byte := update r.byte g (update (r.byte g) (va % pageSize) b) }
            (va + 1) bytes

end Ram

namespace Machine

/-! ## Descriptors -/

/-- `files[file_descriptor]`. -/
def slot (m : Machine) (p : Pid) (fd : Int) : Result Nat :=
  if 0 ≤ fd ∧ fd < maxFilesPerProcess then .ok (m.files p fd.toNat) else .error .index

/-- An argument of a function of the FAT library. -/
def fatObject (m : Machine) (address : Nat) (type : ResourceType) : Result Unit :=
  if address = 0 then .error .null
  else if m.object (address - vaStart) = some type then .ok () else .error .type

def allocate (m : Machine) : Nat × Machine :=
  (m.ram.allocateKernelPage.1, { m with ram := m.ram.allocateKernelPage.2 })

def free (m : Machine) (address : Nat) : Machine :=
  { m with
    ram := (m.ram.freePage address).2
    object := update m.object (address - vaStart) none }

def setFile (m : Machine) (p : Pid) (fd address : Nat) (d : Descriptor) : Machine :=
  { m with
    files := update m.files p (update (m.files p) fd address)
    descriptor := update m.descriptor p (update (m.descriptor p) fd d) }

def getFirstFreeFileDescriptor (m : Machine) (p : Pid) : Int :=
  match (List.range maxFilesPerProcess).find? fun i => m.files p i = 0 with
  | some i => i
  | none => -1

/-- `syscall_open_file`, `syscall_open_dir` and `syscall_create_dir`.  `error` is what the
FAT library returns, and `failure` what the call returns then. -/
def openResource (type : ResourceType) (failure : Int) (m : Machine) (p : Pid) (error : Int) :
    Result (Int × Machine) := do
  let fd := m.getFirstFreeFileDescriptor p
  if fd = -1 then return (-1, m)
  let (object, m) := m.allocate
  let object ← deref object
  if error ≠ 0 then return (failure, m.free object)
  let (resource, m) := m.allocate
  let resource ← deref resource
  let m := { m with
    ram := m.ram.setResource resource type.value object
    object := update m.object (object - vaStart) (some type) }
  return (fd, m.setFile p fd.toNat resource (.opened type))

def openFile (m : Machine) (p : Pid) (error : Int) : Result (Int × Machine) :=
  openResource .file (-1) m p error

def openDir (m : Machine) (p : Pid) (error : Int) : Result (Int × Machine) :=
  openResource .folder (-1) m p error

def createDir (m : Machine) (p : Pid) (error : Int) : Result (Int × Machine) :=
  openResource .folder error m p error

def closeFile (m : Machine) (p : Pid) (fd error : Int) : Result (Int × Machine) := do
  if fd < 0 ∨ maxFilesPerProcess ≤ fd then return (-1, m)
  let resource ← deref (← m.slot p fd)
  let file := m.ram.resourceObject resource
  m.fatObject file .file
  if error ≠ 0 then return (error, m)
  let m := m.free file
  let (resource, m) := m.allocate
  let m := m.setFile p fd.toNat resource .closed
  let resource ← deref resource
  return (0, { m with ram := m.ram.setResource resource 0 0 })

def writeFile (m : Machine) (p : Pid) (fd error : Int) : Result (Int × Machine) := do
  let resource ← m.slot p fd
  if resource = 0 then return (-1, m)
  m.fatObject (m.ram.resourceObject resource) .file
  return (error, m)

def readFile (m : Machine) (p : Pid) (fd error : Int) : Result (Int × Machine) := do
  let resource ← deref (← m.slot p fd)
  m.fatObject (m.ram.resourceObject resource) .file
  return (error, m)

/-- `readError` and `nextError` are what `fat_dir_read` and `fat_dir_next` return. -/
def getNextEntry (m : Machine) (p : Pid) (fd readError nextError : Int) :
    Result (Int × Machine) := do
  let resource ← deref (← m.slot p fd)
  let dir := m.ram.resourceObject resource
  if dir = 0 then return (-1, m)
  m.fatObject dir .folder
  if readError ≠ 0 then return (-1, m)
  if nextError ≠ 0 then return (-1, m)
  return (0, m)

end Machine

/-! ## Address spaces -/

/-- The loop of `copy_code`, with the bytes it has copied.  `source` is the buffer, which
may itself be in a page. -/
def copyCodePage (source : Ram → Nat → Byte) (size : Nat) (s : MmStruct × Ram × Nat) (i : Nat) :
    MmStruct × Ram × Nat :=
  let page := allocateUserPage s.1 s.2.1 (i * pageSize)
  let copied := s.2.2
  if copied < size then
    let n := if pageSize < size - copied then pageSize else size - copied
    let r := page.2.2.relyOn page.1
    (page.2.1, r.fill (page.1 - vaStart) n fun i => source r (copied + i), copied + n)
  else (page.2.1, page.2.2, copied)

def copyCode (source : Ram → Nat → Byte) (size : Nat) (mm : MmStruct) (r : Ram) :
    MmStruct × Ram :=
  let s := (List.range 16).foldl (copyCodePage source size) (mm, r, 0)
  (s.1, s.2.1)

/-- The loop of `copy_virtual_memory` over the user pages of `src`. -/
def copyPages (src : MmStruct) : List Nat → MmStruct → Ram → Int × MmStruct × Ram
  | [], mm, r => (0, mm, r)
  | i :: is, mm, r =>
      let page := allocateUserPage mm r (src.userPages i).virtualAddress
      if page.1 = 0 then (-1, page.2)
      else
        let r := page.2.2.memzero (page.1 - vaStart)
        let r := r.fill (page.1 - vaStart) pageSize (r.byte (src.userPages i).physicalAddress)
        copyPages src is page.2.1 r

def copyVirtualMemory (src mm : MmStruct) (r : Ram) : Int × MmStruct × Ram :=
  copyPages src (List.range src.nUserPages) mm r

/-- The loop of `syscall_exec` over the old user pages. -/
def freeUserPage (s : MmStruct × Ram) (i : Nat) : MmStruct × Ram :=
  let r := (s.2.freePage ((s.1.userPages i).physicalAddress + vaStart)).2
  ({ s.1 with
    nUserPages := s.1.nUserPages - 1
    userPages := update s.1.userPages i ⟨0, 0⟩ }, r)

def freeUserPages (mm : MmStruct) (r : Ram) : MmStruct × Ram :=
  (List.range mm.nUserPages).foldl freeUserPage (mm, r)

/-- `mm_struct` in zeroed memory. -/
def emptyMm : MmStruct where
  pgd := 0
  nUserPages := 0
  userPages := fun _ => ⟨0, 0⟩
  nKernelPages := 0
  kernelPages := fun _ => 0

-- `SYSCALL_EXEC_ARGUMENT_DIMENSION`
def execArgumentDimension : Nat := 64

-- `struct pt_regs` has 31 registers, `sp`, `pc` and `pstate`.
def trapFrameWords : Nat := 34

/-- The string at a user address, into an array of `n` bytes. -/
def loadString (pgd : Nat) (r : Ram) : Nat → Nat → Result (List Byte)
  | 0, _ => .error .overflow
  | n + 1, va =>
      match translate r pgd va with
      | none => .error .translation
      | some g =>
          let b := r.byte g (va % pageSize)
          if b = 0 then .ok [] else (loadString pgd r n (va + 1)).map (b :: ·)

/-- The loop of `syscall_exec` that saves `n` arguments from the user address `va` on. -/
def saveArguments (pgd : Nat) (r : Ram) : Nat → Nat → Result (List (List Byte))
  | 0, _ => .ok []
  | n + 1, va => do
      let argument ← loadString pgd r execArgumentDimension va
      let arguments ← saveArguments pgd r n (va + execArgumentDimension)
      return argument :: arguments

/-- The loop of `syscall_exec` that puts the arguments from number `i` on below the
stack pointer. -/
def pushArguments (pgd : Nat) : List (List Byte) → Nat → Nat → Ram → (Nat → Nat) →
    Result (Nat × Ram × (Nat → Nat))
  | [], _, sp, r, trapFrame => .ok (sp, r, trapFrame)
  | argument :: arguments, i, sp, r, trapFrame =>
      if trapFrameWords ≤ i + 1 then .error .overflow
      else if sp < execArgumentDimension then .error .translation
      else do
        let sp := sp - execArgumentDimension
        let r ← r.storeUser pgd sp (argument ++ [0])
        pushArguments pgd arguments (i + 1) sp r (update trapFrame (i + 1) sp)

namespace Machine

/-- The memory of the process `p` after a function that works on it. -/
def withSpace (m : Machine) (p : Pid) (s : MmStruct × Ram) : Machine :=
  { m with ram := s.2, mm := update m.mm p s.1 }

/-- The child in its page, with zeroed memory behind it. -/
def register (m : Machine) (page : Nat) (kernelThread : Bool) : Machine :=
  { m with
    nProcesses := m.nProcesses + 1
    pcb := update m.pcb m.nProcesses (page - vaStart)
    mm := update m.mm m.nProcesses emptyMm
    files := update m.files m.nProcesses fun _ => 0
    userMode := update m.userMode m.nProcesses !kernelThread
    descriptor := update m.descriptor m.nProcesses fun _ => .unused }

/-- `copy_process`, up to the fields that the scheduler owns. -/
def copyProcess (m : Machine) (p : Pid) (kernelThread : Bool) : Int × Machine :=
  let (page, m) := m.allocate
  if page = 0 ∨ maxProcesses ≤ m.nProcesses then (-1, m)
  else
    let child := m.nProcesses
    let space := if kernelThread then (emptyMm, m.ram) else (copyVirtualMemory (m.mm p) emptyMm m.ram).2
    (child, (m.register page kernelThread).withSpace child space)

def moveToUserMode (m : Machine) (p : Pid) (program : List Byte) : Int × Machine :=
  let space := copyCode (fun _ i => program.getD i 0) program.length (m.mm p) m.ram
  (0, { m.withSpace p space with userMode := update m.userMode p true })

/-- What the FAT library does for `syscall_exec`, and the file that it has. -/
structure ExecAnswers where
  openError : Int
  file : List Byte
  closeError : Int

/-- `syscall_exec`, with the trap frame that it writes.  The arguments are at a user
address. -/
def syscallExec (m : Machine) (p : Pid) (answers : ExecAnswers) (trapFrame : Nat → Nat)
    (nArguments arguments : Nat) : Result (Int × (Nat → Nat) × Machine) := do
  let (fd, m) ← m.openFile p answers.openError
  if fd = -1 then return (-1, trapFrame, m)
  let (buffer, m) := m.allocate
  let (_, m) ← m.readFile p fd 0
  let buffer ← deref buffer
  let bytes := answers.file.take (pageSize * 16)
  let m := { m with ram := m.ram.store (buffer - vaStart) bytes }
  let (_, m) ← m.closeFile p fd answers.closeError
  if pageSize * 15 < bytes.length then return (-1, trapFrame, m)
  let safeArguments ← saveArguments (m.mm p).pgd m.ram nArguments arguments
  let (mm, r) := freeUserPages (m.mm p) m.ram
  let source := fun (r : Ram) i =>
    r.byte (buffer - vaStart + i / pageSize * pageSize) (i % pageSize)
  let (mm, r) := copyCode source bytes.length mm r
  let (sp, r, trapFrame) ← pushArguments mm.pgd safeArguments 0 (16 * pageSize) r
    (update trapFrame 0 nArguments)
  return (0, update (update trapFrame 31 sp) 32 0, m.withSpace p (mm, r))

def syscallMalloc (m : Machine) : Int × Machine :=
  let (address, m) := m.allocate
  if address = 0 then (-1, m) else (address, m)

/-! ## Runs -/

/-- A call of a process. -/
inductive Call where
  | copyProcess (kernelThread : Bool)
  | moveToUserMode (program : List Byte)
  | exec (answers : ExecAnswers) (nArguments arguments : Nat)
  | malloc
  | openFile (error : Int)
  | openDir (error : Int)
  | createDir (error : Int)
  | closeFile (fd error : Int)
  | writeFile (fd error : Int)
  | readFile (fd error : Int)
  | getNextEntry (fd readError nextError : Int)

/-- A kernel thread moves to user mode once.  A process of user mode calls `exec`, with a file
that its buffer has room for. -/
def Enabled (m : Machine) (p : Pid) : Call → Prop
  | .moveToUserMode _ => p < m.nProcesses ∧ m.userMode p = false
  | .exec answers _ _ => p < m.nProcesses ∧ m.userMode p = true ∧ answers.file.length ≤ pageSize
  | _ => p < m.nProcesses

instance (m : Machine) (p : Pid) (c : Call) : Decidable (m.Enabled p c) := by
  cases c <;> unfold Enabled <;> infer_instance

def call (m : Machine) (p : Pid) : Call → Result (Int × Machine)
  | .copyProcess kernelThread => .ok (m.copyProcess p kernelThread)
  | .moveToUserMode program => .ok (m.moveToUserMode p program)
  | .exec answers nArguments arguments => do
      let (result, _, m) ← m.syscallExec p answers (fun _ => 0) nArguments arguments
      return (result, m)
  | .malloc => .ok m.syscallMalloc
  | .openFile error => m.openFile p error
  | .openDir error => m.openDir p error
  | .createDir error => m.createDir p error
  | .closeFile fd error => m.closeFile p fd error
  | .writeFile fd error => m.writeFile p fd error
  | .readFile fd error => m.readFile p fd error
  | .getNextEntry fd readError nextError => m.getNextEntry p fd readError nextError

/-- A call without a fault, in which `get_free_page` does not fail. -/
def next (m : Machine) (c : Pid × Call) : Option Machine :=
  if m.Enabled c.1 c.2 then
    match m.call c.1 c.2 with
    | .error _ => none
    | .ok (_, m) => if m.ram.exhausted then none else some m
  else none

/-- The machine with init alone. -/
def boot : Machine where
  ram := ⟨fun _ => false, fun _ _ => 0, false, false⟩
  nProcesses := 1
  pcb := fun _ => 0
  mm := fun _ => emptyMm
  files := fun _ _ => 0
  userMode := fun _ => false
  object := fun _ => none
  descriptor := fun _ _ => .unused

/-- The machines that calls of any processes lead to. -/
def Reachable (m : Machine) : Prop := ∃ cs, Transition.exec next cs boot = some m

end Machine

end Demoos
