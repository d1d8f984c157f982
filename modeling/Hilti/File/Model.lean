import Mathlib.Data.List.Basic
import Hilti.Lib.Machine

/-!
# Files that several threads write to

The model of file objects (`file.c`) and of the command queue that serialises what is done to the
files (`cmdqueue.c`).  The functions on file objects run in the thread that owns the object; the
records of open files are shared and guarded by a lock.  Commands of one thread are processed in
order, those of several threads in any order.  Without threads every command is processed right
away, which is one of these orders.

System calls succeed, and paths can be converted to native strings.  Of the data of a write the
model has the bytes that `hlt_file_write_bytes` puts into the command.
-/

namespace Hilti.File

open Hilti.Lib

set_option autoImplicit false

abbrev ThreadId := ℕ

/-- The address of a `__hlt_file_info`. -/
abbrev InfoId := ℕ

abbrev Data := List UInt8

/-- `__hlt_file_info`. -/
structure Info where
  path : String
  /-- `fd >= 0`. -/
  fdOpen : Bool
  writers : ℕ
  deriving DecidableEq

/-- `hlt_file`, with the thread that the object belongs to. -/
structure FileObj where
  thread : ThreadId
  info : Option InfoId
  isOpen : Bool
  deriving DecidableEq

/-- `__hlt_cmd_file`. -/
inductive Cmd where
  | open (info : InfoId)
  | write (info : InfoId) (data : Data)
  | close (info : InfoId)
  deriving DecidableEq

def Cmd.info : Cmd → InfoId
  | .open info => info
  | .write info _ => info
  | .close info => info

/-- The commands that the queue manager has not processed yet. -/
abbrev Queue := List (ThreadId × Cmd)

/-- Calls of a function, or of the operating system, with the thread they are made for. -/
abbrev Log := List (ThreadId × InfoId × Data)

structure State where
  objects : List FileObj
  infos : InfoId → Option Info
  /-- `__hlt_globals()->files`. -/
  files : List InfoId
  queue : Queue
  /-- The writes that were called for objects that were open. -/
  issued : Log
  /-- The writes that the operating system was called for, successfully. -/
  reached : Log

namespace State

def init : State where
  objects := []
  infos _ := none
  files := []
  queue := []
  issued := []
  reached := []

/-- `__hlt_cmdqueue_push`. -/
def push (s : State) (thread : ThreadId) (cmd : Cmd) : State :=
  { s with queue := s.queue ++ [(thread, cmd)] }

def setInfo (s : State) (i : InfoId) (info : Option Info) : State :=
  { s with infos := fun j => if j = i then info else s.infos j }

/-- `hlt_file_new`. -/
def fileNew (s : State) (thread : ThreadId) : State :=
  { s with objects := s.objects ++ [⟨thread, none, false⟩] }

/-- The search of `hlt_file_open` for a record with the path. -/
def findInfo (s : State) (path : String) : Option InfoId :=
  s.files.find? fun i => (s.infos i).any fun info => info.path = path

/-- The record that `hlt_file_open` finds or creates; `fresh` is new memory. -/
def openInfo (s : State) (path : String) (fresh : InfoId) : Option (State × InfoId) :=
  match s.findInfo path with
  | some i => (s.infos i).map fun info =>
      (s.setInfo i (some { info with writers := info.writers + 1 }), i)
  | none =>
    match s.infos fresh with
    | some _ => none
    | none => some ({ s.setInfo fresh (some ⟨path, false, 1⟩) with files := fresh :: s.files }, fresh)

/-- `hlt_file_open`; for an object that is open it raises an exception. -/
def fileOpen (s : State) (file : ℕ) (path : String) (fresh : InfoId) : Option State :=
  s.objects[file]?.bind fun obj =>
    if obj.isOpen then some s
    else (s.openInfo path fresh).map fun r =>
      { r.1 with objects := r.1.objects.set file ⟨obj.thread, some r.2, true⟩ }.push obj.thread
        (.open r.2)

/-- `hlt_file_write_bytes`; for an object that is not open it raises an exception. -/
def fileWrite (s : State) (file : ℕ) (data : Data) : Option State :=
  s.objects[file]?.bind fun obj =>
    if obj.isOpen then obj.info.map fun i =>
      { s with issued := s.issued ++ [(obj.thread, i, data)] }.push obj.thread (.write i data)
    else some s

/-- `hlt_file_close`; for an object that is not open it raises an exception. -/
def fileClose (s : State) (file : ℕ) : Option State :=
  s.objects[file]?.bind fun obj =>
    if obj.isOpen then obj.info.map fun i =>
      { s with objects := s.objects.set file { obj with isOpen := false } }.push obj.thread (.close i)
    else some s

/-- `hlt_file_clone_init`, for a clone that another thread gets. -/
def fileClone (s : State) (file : ℕ) (thread : ThreadId) : Option State :=
  s.objects[file]?.bind fun src =>
    let dst := { src with thread := thread }
    match src.info with
    | some i =>
      if src.isOpen then (s.infos i).map fun info =>
        { s.setInfo i (some { info with writers := info.writers + 1 }) with
          objects := s.objects ++ [dst] }
      else some { s with objects := s.objects ++ [dst] }
    | none => some { s with objects := s.objects ++ [dst] }

/-- `__hlt_file_cmd_internal`.  There is no result where the record of the command has been freed,
and where an assertion fails. -/
def cmdInternal (s : State) (thread : ThreadId) : Cmd → Option State
  | .open i => (s.infos i).map fun info =>
    if info.fdOpen then s else s.setInfo i (some { info with fdOpen := true })
  | .write i data => (s.infos i).map fun info =>
    -- `if ( cmd->info->fd < 0 ) return;`
    if !info.fdOpen then s
    else if data = [] then s
    else { s with reached := s.reached ++ [(thread, i, data)] }
  | .close i => (s.infos i).bind fun info =>
    if !info.fdOpen then some s
    else if info.writers = 0 then none
    else if info.writers - 1 = 0 then
      if i ∈ s.files then some { s.setInfo i none with files := s.files.erase i } else none
    else some (s.setInfo i (some { info with writers := info.writers - 1 }))

end State

/-- The first command of a thread, and what is left of the queue. -/
def takeFirst (thread : ThreadId) : Queue → Option (Cmd × Queue)
  | [] => none
  | (t, cmd) :: queue =>
    if t = thread then some (cmd, queue)
    else (takeFirst thread queue).map fun r => (r.1, (t, cmd) :: r.2)

/-- The manager executes the next command of a thread. -/
def State.process (s : State) (thread : ThreadId) : Option State :=
  (takeFirst thread s.queue).bind fun r => { s with queue := r.2 }.cmdInternal thread r.1

/-- What can happen next. -/
inductive Action where
  | fileNew (thread : ThreadId)
  | fileOpen (file : ℕ) (path : String) (fresh : InfoId)
  | fileWrite (file : ℕ) (data : Data)
  | fileClose (file : ℕ)
  | fileClone (file : ℕ) (thread : ThreadId)
  | process (thread : ThreadId)

def State.next (s : State) : Action → Option State
  | .fileNew thread => some (s.fileNew thread)
  | .fileOpen file path fresh => s.fileOpen file path fresh
  | .fileWrite file data => s.fileWrite file data
  | .fileClose file => s.fileClose file
  | .fileClone file thread => s.fileClone file thread
  | .process thread => s.process thread

/-- All interleavings of the threads and the queue manager. -/
def machine : Machine State Action where
  start := .init
  next := State.next

end Hilti.File
