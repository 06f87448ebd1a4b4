import Xv6.Proc
import Xv6.FileWrite
import Xv6.Lib.GuardedRun

/-!
# Open files

The table `ftable` of `file.c` and the calls that move references to its entries: `dup`, `close`,
`pipe`, `open`, `chdir`, `fork`, `exit` and `wait`. A call runs in sections: what it does under
`ftable.lock`, a pipe's lock or `icache.lock` is one step, and other processes may run before the
next one. What a process still has to do before its call returns is a list of tasks. An inode is a
count of references here: `namei` and `create` return one more of them, and `iput` takes one back.
The size of a process and its memory are left out. A panic, the use of a null pointer and the use of
a pipe that has been freed are the absence of a step.
-/

namespace Xv6.OpenFiles

open Fs (FileType InodePtr)

/-- `NFILE`. -/
def nfile : ℕ := 100

/-- A pointer to an entry of `ftable.file`. -/
abbrev FilePtr := Fin nfile

/-- A file descriptor. -/
abbrev Fd := Fin nofile

instance : NeZero nfile := ⟨by decide⟩

instance : NeZero nofile := ⟨by decide⟩

/-- A pointer to a pipe: the address of its page. -/
abbrev PipePtr := ℕ

/-- `struct file`. -/
structure File where
  /-- What the file refers to. -/
  type : FileType
  /-- The number of references. -/
  ref : ℤ
  /-- Whether the file may be read. -/
  readable : Bool
  /-- Whether the file may be written to. -/
  writable : Bool
  /-- The pipe of an `FD_PIPE` file. -/
  pipe : PipePtr
  /-- The inode of an `FD_INODE` file. -/
  ip : InodePtr
  /-- The offset of the next byte. -/
  off : ℕ

/-- What `struct pipe` says about its ends. -/
structure PipeEnds where
  /-- The read end is still open. -/
  readopen : Bool
  /-- The write end is still open. -/
  writeopen : Bool
deriving DecidableEq

/-- What a call still has to do. -/
inductive Task
  /-- `sys_dup`: the call of `filedup`. -/
  | filedup (f : FilePtr)
  /-- A call of `fileclose`. -/
  | fileclose (f : FilePtr)
  /-- `fileclose`: the call of `pipeclose`. -/
  | pipeclose (p : PipePtr) (writable : Bool)
  /-- A call of `iput` or of `iunlockput`. -/
  | iput (ip : InodePtr)
  /-- `pipealloc` after its first `filealloc`. -/
  | pipealloc (rf : FilePtr)
  /-- `pipealloc` after both, and `sys_pipe` from there on. -/
  | pipePage (rf wf : FilePtr)
  /-- `sys_open` with the inode. -/
  | openFile (ip : InodePtr) (omode : UInt32)
  /-- `sys_open` after `end_op`. -/
  | openFill (f : FilePtr) (ip : InodePtr) (omode : UInt32)
  /-- The loop of `fork` over the descriptors. -/
  | forkFile (np : Slot) (i : ℕ)
  /-- The loop of `exit` over the descriptors. -/
  | exitFile (fd : ℕ)
  /-- `exit`: `curproc->ofile[fd] = 0`. -/
  | exitSlot (fd : Fd) (f : FilePtr)
  /-- `exit` after `iput(curproc->cwd)`. -/
  | exitCwd (old : InodePtr)
  /-- `sys_chdir` after `iput(curproc->cwd)`. -/
  | setCwd (ip old : InodePtr)
deriving DecidableEq

/-- A slot of `ptable.proc`. -/
structure Process where
  /-- Process state. -/
  state : ProcState
  /-- Open files. -/
  ofile : Fd → Option FilePtr
  /-- Current directory. -/
  cwd : Option InodePtr
  /-- What the process has still to do in the kernel, the next task first. -/
  tasks : List Task

/-- A free slot. -/
def Process.free : Process := ⟨.unused, fun _ => none, none, []⟩

/-- The process runs, or could. -/
def Process.Live (q : Process) : Prop :=
  q.state = .sleeping ∨ q.state = .runnable ∨ q.state = .running

instance (q : Process) : Decidable q.Live := inferInstanceAs (Decidable (_ ∨ _ ∨ _))

/-- The tables. -/
structure State where
  /-- `ftable.file`. -/
  file : FilePtr → File
  /-- The pipes; `none` for a page that is not one. -/
  pipes : PipePtr → Option PipeEnds
  /-- The references to the inodes. -/
  iref : InodePtr → ℤ
  /-- `ptable.proc`. -/
  proc : Slot → Process
  /-- `initproc`. -/
  initproc : Slot

namespace State

variable (s : State)

/-- A file has changed. -/
def setFile (f : FilePtr) (v : File) : State := { s with file := Function.update s.file f v }

/-- A pipe has changed. -/
def setPipe (p : PipePtr) (v : Option PipeEnds) : State :=
  { s with pipes := Function.update s.pipes p v }

/-- A number of references to an inode has changed. -/
def setIref (ip : InodePtr) (n : ℤ) : State := { s with iref := Function.update s.iref ip n }

/-- A process has changed. -/
def setProc (p : Slot) (q : Process) : State := { s with proc := Function.update s.proc p q }

/-- A descriptor of a process has changed. -/
def setFd (p : Slot) (fd : Fd) (f : Option FilePtr) : State :=
  s.setProc p { s.proc p with ofile := Function.update (s.proc p).ofile fd f }

/-- The tasks of a process have changed. -/
def setTasks (p : Slot) (tasks : List Task) : State := s.setProc p { s.proc p with tasks := tasks }

section Updates

variable {s} (f g : FilePtr) (v : File) (p q : Slot) (r : Process) (pipe : PipePtr)
  (ends : Option PipeEnds) (ip : InodePtr) (n : ℤ) (fd : Fd) (o : Option FilePtr)
  (tasks : List Task)

@[simp] theorem setFile_file : (s.setFile f v).file = Function.update s.file f v := rfl
@[simp] theorem setFile_pipes : (s.setFile f v).pipes = s.pipes := rfl
@[simp] theorem setFile_iref : (s.setFile f v).iref = s.iref := rfl
@[simp] theorem setFile_proc : (s.setFile f v).proc = s.proc := rfl
@[simp] theorem setPipe_file : (s.setPipe pipe ends).file = s.file := rfl
@[simp] theorem setPipe_pipes :
    (s.setPipe pipe ends).pipes = Function.update s.pipes pipe ends := rfl
@[simp] theorem setPipe_proc : (s.setPipe pipe ends).proc = s.proc := rfl
@[simp] theorem setIref_file : (s.setIref ip n).file = s.file := rfl
@[simp] theorem setIref_pipes : (s.setIref ip n).pipes = s.pipes := rfl
@[simp] theorem setIref_proc : (s.setIref ip n).proc = s.proc := rfl
@[simp] theorem setProc_file : (s.setProc p r).file = s.file := rfl
@[simp] theorem setProc_pipes : (s.setProc p r).pipes = s.pipes := rfl
@[simp] theorem setProc_iref : (s.setProc p r).iref = s.iref := rfl
@[simp] theorem setFd_file : (s.setFd p fd o).file = s.file := rfl
@[simp] theorem setFd_pipes : (s.setFd p fd o).pipes = s.pipes := rfl
@[simp] theorem setTasks_file : (s.setTasks p tasks).file = s.file := rfl
@[simp] theorem setTasks_pipes : (s.setTasks p tasks).pipes = s.pipes := rfl

@[simp] theorem setProc_self : (s.setProc p r).proc p = r :=
  Function.update_self ..

@[simp] theorem setFd_self :
    (s.setFd p fd o).proc p =
      { s.proc p with ofile := Function.update (s.proc p).ofile fd o } :=
  Function.update_self ..

@[simp] theorem setTasks_self : (s.setTasks p tasks).proc p = { s.proc p with tasks := tasks } :=
  Function.update_self ..

variable {p q}

@[simp] theorem setProc_of_ne (h : q ≠ p) : (s.setProc p r).proc q = s.proc q :=
  Function.update_of_ne h ..

@[simp] theorem setFd_of_ne (h : q ≠ p) : (s.setFd p fd o).proc q = s.proc q :=
  Function.update_of_ne h ..

@[simp] theorem setTasks_of_ne (h : q ≠ p) : (s.setTasks p tasks).proc q = s.proc q :=
  Function.update_of_ne h ..

end Updates

/-! ## The functions of `file.c` -/

/-- `filealloc`. -/
def filealloc : Option (FilePtr × State) :=
  ((List.finRange nfile).find? fun f => (s.file f).ref = 0).map fun f =>
    (f, s.setFile f { s.file f with ref := 1 })

/-- `filedup`. -/
def filedup (f : FilePtr) : Option State :=
  if (s.file f).ref < 1 then none
  else some (s.setFile f { s.file f with ref := (s.file f).ref + 1 })

/-- What `fileclose` does with the copy `ff` after the last reference has gone. -/
def closing (ff : File) : List Task :=
  match ff.type with
  | .pipe => [.pipeclose ff.pipe ff.writable]
  | .inode => [.iput ff.ip]
  | .none => []

/-- The section of `fileclose`, and what is left to do. -/
def fileclose (f : FilePtr) : Option (State × List Task) :=
  if (s.file f).ref < 1 then none
  else if 0 < (s.file f).ref - 1 then
    some (s.setFile f { s.file f with ref := (s.file f).ref - 1 }, [])
  else some (s.setFile f { s.file f with ref := 0, type := .none }, closing (s.file f))

/-- `pipeclose`; the page is freed when both ends are closed. -/
def pipeclose (p : PipePtr) (writable : Bool) : Option State :=
  (s.pipes p).map fun ends =>
    let ends := if writable then { ends with writeopen := false }
      else { ends with readopen := false }
    s.setPipe p (if ends.readopen = false ∧ ends.writeopen = false then none else some ends)

/-- A reference more: `idup`, and what `namei` and `create` return. -/
def idup (ip : InodePtr) : State := s.setIref ip (s.iref ip + 1)

/-- `iput`. -/
def iput (ip : InodePtr) : State := s.setIref ip (s.iref ip - 1)

/-! ## The calls -/

/-- `fdalloc`. -/
def fdalloc (p : Slot) (f : FilePtr) : Option (Fd × State) :=
  ((List.finRange nofile).find? fun fd => (s.proc p).ofile fd = none).map fun fd =>
    (fd, s.setFd p fd (some f))

/-- `argfd`, with the argument that `argint` has fetched. -/
def argfd (p : Slot) (fd : ℤ) : Option (Fd × FilePtr) :=
  if h : 0 ≤ fd ∧ fd.toNat < nofile then ((s.proc p).ofile ⟨fd.toNat, h.2⟩).map (⟨fd.toNat, h.2⟩, ·)
  else none

/-- The pipe and its two files, as `pipealloc` sets them up. -/
def pipeFiles (rf wf : FilePtr) (page : PipePtr) : State :=
  let s := s.setPipe page (some ⟨true, true⟩)
  let s := s.setFile rf { s.file rf with
    type := .pipe, readable := true, writable := false, pipe := page }
  s.setFile wf { s.file wf with type := .pipe, readable := false, writable := true, pipe := page }

/-- `sys_pipe` after `pipealloc`. -/
def pipeFds (p : Slot) (rf wf : FilePtr) : State × List Task :=
  match s.fdalloc p rf with
  | none => (s, [.fileclose rf, .fileclose wf])
  | some (fd0, s) =>
      match s.fdalloc p wf with
      | none => (s.setFd p fd0 none, [.fileclose rf, .fileclose wf])
      | some (_, s) => (s, [])

/-- `sys_pipe` from `pipealloc`'s `kalloc` on. -/
def pipePage (p : Slot) (rf wf : FilePtr) : Option PipePtr → Option (State × List Task)
  | none => some (s, [.fileclose rf, .fileclose wf])
  | some page =>
      -- `kalloc` returns no page that is in use
      if (s.pipes page).isSome then none else some ((s.pipeFiles rf wf page).pipeFds p rf wf)

/-- `sys_open` from `filealloc` to `end_op`. -/
def openFile (p : Slot) (ip : InodePtr) (omode : UInt32) : State × List Task :=
  match s.filealloc with
  | none => (s, [.iput ip])
  | some (f, s) =>
      match s.fdalloc p f with
      | none => (s, [.fileclose f, .iput ip])
      | some (_, s) => (s, [.openFill f ip omode])

/-- `O_WRONLY`. -/
def oWronly : UInt32 := 1

/-- `O_RDWR`. -/
def oRdwr : UInt32 := 2

/-- `O_CREATE`. -/
def oCreate : UInt32 := 0x200

/-- `sys_open` after `end_op`. -/
def openFill (f : FilePtr) (ip : InodePtr) (omode : UInt32) : State :=
  s.setFile f { s.file f with
    type := .inode, ip := ip, off := 0, readable := decide (omode &&& oWronly = 0),
    writable := decide (omode &&& oWronly ≠ 0) || decide (omode &&& oRdwr ≠ 0) }

/-- A turn of the loop of `fork`; after the last one the child can run. -/
def forkFile (p np : Slot) (i : ℕ) : Option (State × List Task) :=
  if h : i < nofile then
    match (s.proc p).ofile ⟨i, h⟩ with
    | none => some (s, [.forkFile np (i + 1)])
    | some f => (s.filedup f).map fun s => (s.setFd np ⟨i, h⟩ (some f), [.forkFile np (i + 1)])
  else
    (s.proc p).cwd.map fun cwd =>
      let s := s.idup cwd
      (s.setProc np { s.proc np with cwd := some cwd, state := .runnable }, [])

/-- A turn of the loop of `exit`; after the last one comes `iput(curproc->cwd)`. -/
def exitFile (p : Slot) (fd : ℕ) : Option (State × List Task) :=
  if h : fd < nofile then
    match (s.proc p).ofile ⟨fd, h⟩ with
    | none => some (s, [.exitFile (fd + 1)])
    | some f => some (s, [.fileclose f, .exitSlot ⟨fd, h⟩ f])
  else (s.proc p).cwd.map fun cwd => (s, [.iput cwd, .exitCwd cwd])

/-- One task of a process, with what `kalloc` returns if it is called. -/
def runTask (p : Slot) (page : Option PipePtr) : Task → Option (State × List Task)
  | .filedup f => (s.filedup f).map (·, [])
  | .fileclose f => s.fileclose f
  | .pipeclose pipe writable => (s.pipeclose pipe writable).map (·, [])
  | .iput ip => some (s.iput ip, [])
  | .pipealloc rf =>
      match s.filealloc with
      | none => some (s, [.fileclose rf])
      | some (wf, s) => some (s, [.pipePage rf wf])
  | .pipePage rf wf => s.pipePage p rf wf page
  | .openFile ip omode => some (s.openFile p ip omode)
  | .openFill f ip omode => some (s.openFill f ip omode, [])
  | .forkFile np i => s.forkFile p np i
  | .exitFile fd => s.exitFile p fd
  | .exitSlot fd _ => some (s.setFd p fd none, [.exitFile (fd + 1)])
  | .exitCwd _ => some (s.setProc p { s.proc p with cwd := none, state := .zombie }, [])
  | .setCwd ip _ => some (s.setProc p { s.proc p with cwd := some ip }, [])

end State

/-- A call, with what it finds. -/
inductive Call
  | dup (fd : ℤ)
  | close (fd : ℤ)
  | pipe
  /-- What `create` or `namei` return, and whether the inode is a directory. -/
  | openat (found : Option InodePtr) (isDir : Bool) (omode : UInt32)
  /-- What `namei` returns, and whether the inode is a directory. -/
  | chdir (found : Option InodePtr) (isDir : Bool)
  /-- Whether there is memory for the child. -/
  | fork (copied : Bool)
  | exit
  /-- The zombie that `wait` finds. -/
  | wait (np : Slot)

/-- `allocproc`. -/
def State.allocproc (s : State) : Option Slot :=
  (List.finRange nproc).find? fun p => (s.proc p).state = .unused

/-- The first section of a call, and what is left to do. -/
def State.call (s : State) (p : Slot) : Call → Option (State × List Task)
  | .dup fd =>
      match s.argfd p fd with
      | none => some (s, [])
      | some (_, f) =>
          match s.fdalloc p f with
          | none => some (s, [])
          | some (_, s) => some (s, [.filedup f])
  | .close fd =>
      match s.argfd p fd with
      | none => some (s, [])
      | some (fd, f) => some (s.setFd p fd none, [.fileclose f])
  | .pipe =>
      match s.filealloc with
      | none => some (s, [])
      | some (rf, s) => some (s, [.pipealloc rf])
  | .openat none _ _ => some (s, [])
  | .openat (some ip) isDir omode =>
      if omode &&& oCreate = 0 ∧ isDir ∧ omode ≠ 0 then some (s.idup ip, [.iput ip])
      else some (s.idup ip, [.openFile ip omode])
  | .chdir none _ => some (s, [])
  | .chdir (some ip) isDir =>
      if isDir then (s.proc p).cwd.map fun old => (s.idup ip, [.iput old, .setCwd ip old])
      else some (s.idup ip, [.iput ip])
  | .fork copied =>
      match s.allocproc with
      | none => some (s, [])
      | some np =>
          if copied then
            some (s.setProc np { s.proc np with state := .embryo }, [.forkFile np 0])
          else some (s, [])
  | .exit => if p = s.initproc then none else some (s, [.exitFile 0])
  | .wait np =>
      if (s.proc np).state = .zombie then
        some (s.setProc np { s.proc np with state := .unused }, [])
      else none

/-- A step of a process. -/
inductive Action
  /-- A process that runs makes a call. -/
  | call (p : Slot) (c : Call)
  /-- A process goes on with its call; `page` is what `kalloc` returns. -/
  | run (p : Slot) (page : Option PipePtr)

/-- One step. -/
def step (s : State) : Action → Option State
  | .call p c =>
      if (s.proc p).Live ∧ (s.proc p).tasks = [] then
        (s.call p c).map fun (s, tasks) => s.setTasks p tasks
      else none
  | .run p page =>
      match (s.proc p).tasks with
      | [] => none
      | t :: rest => (s.runTask p page t).map fun (s, tasks) => s.setTasks p (tasks ++ rest)

/-- The tables after `userinit`. -/
def boot (initproc : Slot) (root : InodePtr) : State where
  file := fun _ => ⟨.none, 0, false, false, 0, 0, 0⟩
  pipes := fun _ => none
  iref := Function.update (fun _ => 0) root 1
  proc := Function.update (fun _ => .free) initproc ⟨.runnable, fun _ => none, some root, []⟩
  initproc := initproc

end Xv6.OpenFiles
