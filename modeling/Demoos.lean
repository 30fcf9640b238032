import Demoos.Scheduler.Refinement
import Demoos.Scheduler.Upkeep
import Demoos.Scheduler.Decision
import Demoos.Scheduler.Selection
import Demoos.Lib.Transition
import Demoos.Scheduler.Simulation
import Demoos.Scheduler.Runs
import Demoos.Scheduler.Signals
import Demoos.Scheduler.Waiting
import Demoos.Scheduler.Idle
import Demoos.Scheduler.Guard
import Demoos.Scheduler.Protection
import Demoos.Lib.Ring
import Demoos.Ipc.Mailbox
import Demoos.Ipc.Delivery
import Demoos.Ipc.Wakeup
import Demoos.Scheduler.LifeCycle
import Demoos.Scheduler.Balance
import Demoos.Scheduler.Primitives
import Demoos.Scheduler.OneLevel
import Demoos.Scheduler.Levels
import Demoos.Scheduler.Overtaking
import Demoos.Scheduler.Locality
import Demoos.Scheduler.Conservation
import Demoos.Scheduler.Epochs
import Demoos.Uart.Input
import Demoos.Uart.Ownership
import Demoos.Lib.Bytes
import Demoos.Memory.Pages
import Demoos.Lib.Radix
import Demoos.Memory.Tables
import Demoos.Memory.Machine
import Demoos.Lib.Draw
import Demoos.Memory.Spaces
import Demoos.Scheduler.Tickets
import Demoos.Scheduler.Strict
import Demoos.Lib.Insertion
import Demoos.Scheduler.Release
import Demoos.Scheduler.Shortest
import Demoos.Memory.Pool
import Demoos.Memory.Walks
import Demoos.Memory.Shortage
import Demoos.Memory.Ownership
import Demoos.Memory.Calls
import Demoos.Memory.Isolation
import Demoos.Uart.Sleepers
import Demoos.Uart.Line
import Demoos.Uart.Receive
import Demoos.Files.Directory
import Demoos.Ipc.Bodies
import Demoos.Lib.Paths
import Demoos.Scheduler.Parameters
import Demoos.Shell.Climbing
import Demoos.Shell.Resolution
import Demoos.Files.Descriptors
import Demoos.Files.Reuse
import Demoos.Memory.Arguments
import Demoos.Memory.Borrowed
import Demoos.Memory.Spill
import Demoos.Memory.Copies
import Demoos.Fork.CopyProcess
import Demoos.Fork.Failure
import Demoos.Fork.Child
import Demoos.Lib.ShiftXor
import Demoos.Scheduler.Generator
import Demoos.Lib.Arm
import Demoos.Common.Memory
import Demoos.Lib.Buffer
import Demoos.Shell.Strings
import Demoos.Shell.Arguments
import Demoos.Shell.PathBuffer
import Demoos.Shell.Commands
import Demoos.Shell.Containment
import Demoos.Lib.Program
import Demoos.Lib.WriteBack
import Demoos.Lib.Chains
import Demoos.Lib.Tape
import Demoos.Fat.Volume
import Demoos.Fat.Buffer
import Demoos.Fat.Table
import Demoos.Fat.Alloc
import Demoos.Fat.Removal
import Demoos.Fat.Growth
import Demoos.Fat.Ownership
import Demoos.Fat.Entry
import Demoos.Fat.File
import Demoos.Fat.Seeking
import Demoos.Fat.Access
import Demoos.Fat.Syncing
import Demoos.Fat.Handles
import Demoos.Fat.Directory
import Demoos.Fat.Walking
import Demoos.Fat.Listing
import Demoos.Fat.Reading
import Demoos.Fat.Stretching
import Demoos.Fat.Rewriting
import Demoos.Fat.Insertion
import Demoos.Fat.Erasing
import Demoos.Fat.Folder
import Demoos.Fat.Following
