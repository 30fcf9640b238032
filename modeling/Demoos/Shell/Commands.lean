import Demoos.Shell.Arguments
import Demoos.Shell.PathBuffer

/-!
# The commands of the shell

The handlers of `app/shell.c` that compose a path.  A handler has no result if an access leaves a
buffer.  The answers of its system calls are given with the call (`Answers`); what a call reads of a
buffer is read in the model too.
-/

namespace Demoos

namespace Shell

open Buffer

-- `MAX_FILE_DIMENSION`
def maxFileDimension : Nat := 256

/-- `char[MAX_FILE_DIMENSION]` -/
abbrev FileContent := Buffer CChar maxFileDimension

/-- What the system calls of a command return. -/
structure Answers where
  createDir : Int
  openDir : Int
  openFile : Int
  readFile : Int
  /-- What `call_syscall_read_file` stores in its buffer. -/
  content : { xs : List CChar // xs.length ≤ maxFileDimension }
  writeFile : Int
  fork : Int
  exec : Int
  wait : Int
  /-- The answer to `print_tree` that opens the directory once more. -/
  treeDir : Int
  /-- `syscall_get_next_entry` returns nothing else. -/
  nextEntry : { r : Int // r = 0 ∨ r = -1 }

/-- The errors that the handlers report. -/
inductive ShellError where
  | noDirectoryName
  | workingDirectoryTooBig
  | cannotCreate (path : List CChar)
  | cannotChangeDirectory (path : List CChar)
  | cannotOpen (path : List CChar)
  | cannotRead (path : List CChar)
  | cannotOpenDirectory (path : List CChar)
  | filePathTooBig
  | cannotOpenFile (path : List CChar)
  | cannotWriteFile (path : List CChar)
  | noProgram
  | pathTooLong
  | cannotRun
  | cannotFindBinary (fileName : List CChar)
  | cannotFindProcess (pid : Int)
deriving DecidableEq, Repr

/-- A part of a message: a text, characters from a buffer, or a number in hexadecimal. -/
inductive Piece where
  | text (s : String)
  | chars (xs : List CChar)
  | hex (n : Int)
deriving DecidableEq, Repr

/-- What the shell prints. -/
def ShellError.message : ShellError → List Piece
  | noDirectoryName => [.text "[SHELL] Error: please specify the directory name.\n"]
  | workingDirectoryTooBig => [.text "[SHELL] Error: working directory string is too big.\n"]
  | cannotCreate path => [.text "[SHELL] Cannot create '", .chars path, .text "'.\n"]
  | cannotChangeDirectory path =>
      [.text "[SHELL] Error: cannot change directory to '", .chars path, .text "'.\n"]
  | cannotOpen path => [.text "[SHELL] Cannot open '", .chars path, .text "'.\n"]
  | cannotRead path => [.text "[SHELL] Cannot read '", .chars path, .text "'.\n"]
  | cannotOpenDirectory path =>
      [.text "[SHELL] Error: cannot open directory '", .chars path, .text "'.\n"]
  | filePathTooBig => [.text "[SHELL] Error: file path is too big\n"]
  | cannotOpenFile path => [.text "[SHELL] Error: cannot open file '", .chars path, .text "'.\n"]
  | cannotWriteFile path =>
      [.text "[SHELL] Error: cannot write on file '", .chars path, .text "'.\n"]
  | noProgram => [.text "[SHELL] Please specify the path of the new program to execute.\n"]
  | pathTooLong => [.text "[SHELL] Path is too long.\n"]
  | cannotRun => [.text "[SON] Error running new process.\n"]
  | cannotFindBinary fileName =>
      [.text "[SHELL] Cannot find '", .chars fileName, .text "' binary file.\n"]
  | cannotFindProcess pid => [.text "[SHELL] Cannot find process '", .hex pid, .text "'\n"]

/-- What a command leaves, and the errors that it has reported. -/
structure Outcome where
  workingDirectory : Command
  errors : List ShellError

/-- The characters of a string that a system call reads. -/
def chars {n : Nat} (b : Buffer CChar n) : Option (List CChar) := do
  let len ← strlen b
  some ((List.range len).map b.byte)

/-- `"/"` -/
def slashString : Buffer CChar 2 := ofList [slash]

/-- The report of a call that may fail. -/
def reportIf (p : Prop) [Decidable p] (e : ShellError) : List ShellError := if p then [e] else []

/-! ## Paths -/

/-- The path that `handle_mkdir` composes. -/
def composeChild (workingDirectory dirName : Command) : Option Command := do
  let temp ← strcat (blank : Command) workingDirectory
  let c ← dirName.load 0
  let temp ← (if c ≠ slash then strcat temp slashString else some temp)
  strcat temp dirName

def handleMkdir (a : Answers) (buffer workingDirectory : Command) : Option Outcome := do
  let (_, dirName) ← strsplit buffer space (blank : Command) (blank : Command)
  let c ← dirName.load 0
  if c = 0 then some ⟨workingDirectory, [.noDirectoryName]⟩
  else
    let len ← strlen workingDirectory
    if len < maxCommandDimension then
      let temp ← composeChild workingDirectory dirName
      let path ← chars temp
      some ⟨workingDirectory, reportIf (a.createDir = -1) (.cannotCreate path)⟩
    else some ⟨workingDirectory, [.workingDirectoryTooBig]⟩

/-- A slash behind the string of length `len` in `temp`. -/
def closePath (temp : Command) (len : Nat) : Option Command := do
  let temp ← temp.store len slash
  temp.store (len + 1) 0

/-- The path that `handle_cd` and `handle_show` compose of the working directory and a relative
path. -/
def composeRelative (workingDirectory destination : Command) : Option Command := do
  let temp ← (blank : Command).copy workingDirectory maxCommandDimension
  let len ← strlen temp
  let temp ←
    (if 2 < len then do
      let c ← temp.load ((len : Int) - 1)
      if c ≠ slash then closePath temp len else some temp
    else some temp)
  strcat temp destination

/-- The two cases of `handle_cd` and `handle_show`. -/
def composePath (workingDirectory destination : Command) : Option Command := do
  let c ← destination.load 0
  if c = slash then (blank : Command).copy destination maxCommandDimension
  else composeRelative workingDirectory destination

def handleCd (fuel : Nat) (a : Answers) (buffer workingDirectory : Command) : Option Outcome := do
  let (_, destination) ← strsplit buffer space (blank : Command) (blank : Command)
  let destinationLen ← strlen destination
  let c ← destination.load ((destinationLen : Int) - 1)
  let destination ← (if c ≠ slash then strcat destination slashString else some destination)
  let temp ← composePath workingDirectory destination
  let temp ← normalize fuel temp
  let path ← chars temp
  if a.openDir = -1 then some ⟨workingDirectory, [.cannotChangeDirectory path]⟩
  else
    let workingDirectory ← workingDirectory.copy temp maxCommandDimension
    some ⟨workingDirectory, []⟩

/-- What stands in `file_content` after the call that reads the file.  Only a part of what was there,
`stack`, is cleared. -/
def readContent (a : Answers) (stack : FileContent) : Option FileContent := do
  let fileContent ← stack.copy (blank : FileContent) maxCommandDimension
  fileContent.copy (ofList a.content : FileContent) a.content.val.length

def handleShow (fuel : Nat) (a : Answers) (stack : FileContent)
    (buffer workingDirectory : Command) : Option Outcome := do
  let (_, destination) ← strsplit buffer space (blank : Command) (blank : Command)
  let temp ← composePath workingDirectory destination
  let temp ← normalize fuel temp
  let path ← chars temp
  let errors := reportIf (a.openFile = -1) (.cannotOpen path)
  if -1 < a.openFile then
    let fileContent ← readContent a stack
    if a.readFile ≠ 0 then some ⟨workingDirectory, errors ++ [.cannotRead path]⟩
    else
      let _ ← chars fileContent
      some ⟨workingDirectory, errors⟩
  else some ⟨workingDirectory, errors⟩

/-- `print_tree`, up to the test that ends its loop: what follows it is not reached. -/
def printTree (a : Answers) (path : Command) : Option Unit := do
  let _ ← chars path
  if a.treeDir = -1 then some ()
  else if a.nextEntry.val ≠ 1 then some ()
  else none

/-- The three cases of `handle_tree`. -/
def composeTarget (workingDirectory target : Command) : Option Command := do
  let c ← target.load 0
  if c = 0 then (blank : Command).copy workingDirectory maxCommandDimension
  else if c = slash then (blank : Command).copy target maxCommandDimension
  else
    let fullpath ← (blank : Command).copy workingDirectory maxCommandDimension
    let len ← strlen fullpath
    let fullpath ←
      (if 1 < len then do
        let c ← fullpath.load ((len : Int) - 1)
        if c ≠ slash then strcat fullpath slashString else some fullpath
      else some fullpath)
    strcat fullpath target

def handleTree (fuel : Nat) (a : Answers) (buffer workingDirectory : Command) : Option Outcome := do
  let (_, target) ← strsplit buffer space (blank : Command) (blank : Command)
  let fullpath ← composeTarget workingDirectory target
  let fullpath ← normalize fuel fullpath
  let path ← chars fullpath
  if a.openDir = -1 then some ⟨workingDirectory, [.cannotOpenDirectory path]⟩
  else
    printTree a fullpath
    some ⟨workingDirectory, []⟩

/-! ## Files -/

/-- `'\0'` and `' '` -/
def IsWordEnd (c : CChar) : Prop := c = 0 ∨ c = space

instance : DecidablePred IsWordEnd := fun _ => inferInstanceAs (Decidable (_ ∨ _))

/-- The path that `handle_write` composes, or an empty one and the error. -/
def composeFile (workingDirectory fileName : Command) : Option (Command × List ShellError) := do
  let len ← strlen workingDirectory
  let nameLen ← strlen fileName
  if len + nameLen < maxCommandDimension then
    let filePath ← strcat (blank : Command) workingDirectory
    let filePath ← strcat filePath fileName
    some (filePath, [])
  else some (blank, [.filePathTooBig])

def handleWrite (a : Answers) (buffer workingDirectory : Command) : Option Outcome := do
  let p ← buffer.skip IsWordEnd 0
  let (p, fileName, i) ← buffer.copyUntil IsWordEnd (p + 1) (blank : Command) 0
  let fileName ← fileName.store i 0
  let (_, fileContent, i) ← buffer.copyUntil (· = 0) (p + 1) (blank : Command) 0
  let fileContent ← fileContent.store i 0
  let (filePath, errors) ← composeFile workingDirectory fileName
  let path ← chars filePath
  let errors := errors ++ reportIf (a.openFile = -1) (.cannotOpenFile path)
  if a.openFile ≠ -1 ∧ 0 < i then
    -- the call reads `MAX_FILE_DIMENSION` bytes
    let _ ← (blank : FileContent).copy fileContent maxFileDimension
    some ⟨workingDirectory, errors ++ reportIf (a.writeFile ≠ 0) (.cannotWriteFile path)⟩
  else some ⟨workingDirectory, errors⟩

/-! ## Programs -/

def handleExec (fuel : Nat) (a : Answers) (buffer workingDirectory : Command) : Option Outcome := do
  let (_, path) ← strsplit buffer space (blank : Command) (blank : Command)
  let pathLen ← strlen path
  if pathLen = 0 then some ⟨workingDirectory, [.noProgram]⟩
  else
    let len ← strlen workingDirectory
    if maxCommandDimension ≤ len + pathLen then some ⟨workingDirectory, [.pathTooLong]⟩
    else
      let completePath ← strcat (blank : Command) workingDirectory
      let completePath ← strcat completePath path
      let completePath ← normalize fuel completePath
      if a.fork = 0 then
        let _ ← chars completePath
        some ⟨workingDirectory, reportIf (a.exec ≠ 0) .cannotRun⟩
      else some ⟨workingDirectory, reportIf (a.wait ≠ 0) (.cannotFindProcess a.fork)⟩

/-- `"/bin/"` and `".bin"` -/
def binDirectory : List CChar := [slash, 98, 105, 110, slash]
def binSuffix : List CChar := [dot, 98, 105, 110]

/-- Each iteration of the argument loop counts `n_arguments` up to `MAX_EXEC_ARGUMENTS`. -/
def handleExecFromBin (fuel : Nat) (a : Answers) (buffer workingDirectory : Command) :
    Option Outcome := do
  let (fileName, argumentsRaw) ← strsplit buffer space (blank : Command) (blank : Command)
  let nameLen ← strlen fileName
  if maxCommandDimension ≤ binDirectory.length + nameLen + binSuffix.length then
    some ⟨workingDirectory, [.pathTooLong]⟩
  else
    let completePath ← strcat (blank : Command) (ofList binDirectory : Buffer CChar 6)
    let completePath ← strcat completePath fileName
    let completePath ← strcat completePath (ofList binSuffix : Buffer CChar 5)
    let completePath ← normalize fuel completePath
    let _ ← argumentLoop (maxExecArguments + 1) 0 argumentsRaw fun _ => blank
    if a.fork = 0 then
      let _ ← chars completePath
      let name ← chars fileName
      some ⟨workingDirectory, reportIf (a.exec ≠ 0) (.cannotFindBinary name)⟩
    else some ⟨workingDirectory, reportIf (a.wait ≠ 0) (.cannotFindProcess a.fork)⟩

end Shell

end Demoos
