import Xv6.ShellParse
import Xv6.OpenFiles

/-!
# The shell runs a command

`runcmd` of `sh.c`, and what the system calls do to the descriptors of the processes it starts.
`runcmd` does not return: the code of a process is a list of calls that ends with `exit` or with
`runcmd` of a part of the command. The processes take turns in any order, each with a table of
descriptors of its own. A call may fail where it can; what a program does between `exec` and its
exit is left out, and so is what is printed.
-/

namespace Xv6.Shell

open OpenFiles (Fd)

/-- What a descriptor refers to. -/
inductive Opened
  /-- What the shell has open under a descriptor. -/
  | given (fd : Fd)
  /-- A file that a command has opened. -/
  | file (file : Word) (mode : ℕ)
  /-- An end of a pipe. -/
  | pipe (n : ℕ) (writable : Bool)
  deriving DecidableEq

/-- The descriptors of a process. -/
abbrev Fds := Fd → Option Opened

namespace Fds

variable (fds : Fds)

/-- `close`; a descriptor that is not open is an error. -/
def close (fd : ℕ) : Fds := if h : fd < nofile then Function.update fds ⟨fd, h⟩ none else fds

/-- The lowest descriptor that is free, and the table with it in use: `fdalloc`. -/
def alloc (o : Opened) : Option (Fd × Fds) :=
  ((List.finRange nofile).find? fun fd => fds fd = none).map fun fd =>
    (fd, Function.update fds fd (some o))

/-- `dup`; a descriptor that is not open, or a full table, is an error. -/
def dup (fd : ℕ) : Fds :=
  if h : fd < nofile then
    match fds ⟨fd, h⟩ with
    | none => fds
    | some o => ((fds.alloc o).map Prod.snd).getD fds
  else fds

end Fds

/-- A call that only changes descriptors, and cannot stop the process. -/
inductive FdOp
  | close (fd : ℕ)
  | dup (fd : ℕ)
  deriving DecidableEq

/-- The effect of such a call. -/
def FdOp.apply (fds : Fds) : FdOp → Fds
  | .close fd => fds.close fd
  | .dup fd => fds.dup fd

/-- A call of a process that runs `runcmd`. -/
inductive Instr
  /-- `runcmd(cmd)`. -/
  | run (cmd : Cmd)
  /-- `close` or `dup`. -/
  | op (op : FdOp)
  /-- `open(rcmd->file, rcmd->mode)`, and `exit` if it fails. -/
  | openFile (file : Word) (mode : ℕ)
  /-- `pipe(p)`, `panic` if it fails, and the rest of the case `PIPE`. -/
  | pipe (left right : Cmd)
  /-- `fork1()`; the child makes some calls and goes on with `runcmd`. -/
  | fork1 (child : List FdOp) (cmd : Cmd)
  /-- `wait()`. -/
  | wait
  /-- `exec(ecmd->argv[0], ecmd->argv)`. -/
  | exec (argv : List Word)
  /-- `exit()`. -/
  | exit
  deriving DecidableEq

/-- `runcmd`, a case for each kind of command. -/
def runcmd : Cmd → List Instr
  | .exec argv => if argv = [] then [.exit] else [.exec argv, .exit]
  | .redir cmd file mode fd => [.op (.close fd), .openFile file mode, .run cmd]
  | .list left right => [.fork1 [] left, .wait, .run right]
  | .pipe left right => [.pipe left right]
  | .back cmd => [.fork1 [] cmd, .exit]

/-- The calls of the left child of a pipe before its `runcmd`. -/
def leftOps (p0 p1 : ℕ) : List FdOp := [.close 1, .dup p1, .close p0, .close p1]

/-- The calls of the right child of a pipe before its `runcmd`. -/
def rightOps (p0 p1 : ℕ) : List FdOp := [.close 0, .dup p0, .close p0, .close p1]

/-- The case `PIPE` after `pipe`, which has returned two descriptors. -/
def pipeCode (left right : Cmd) (p0 p1 : ℕ) : List Instr :=
  [.fork1 (leftOps p0 p1) left, .fork1 (rightOps p0 p1) right, .op (.close p0), .op (.close p1),
    .wait, .wait, .exit]

/-- What a process does. -/
inductive Status
  /-- It runs the code of the shell. -/
  | shell (code : List Instr)
  /-- It runs a program. -/
  | program (argv : List Word)
  /-- It has exited. -/
  | zombie
  /-- Its parent has waited for it. -/
  | gone
  deriving DecidableEq

/-- A process. -/
structure Process where
  /-- The process that may wait for it; none for what init waits for. -/
  parent : Option ℕ
  /-- Its descriptors. -/
  fds : Fds
  /-- What it does. -/
  status : Status

/-- The processes that a command has started, the first one first, and the number of pipes. -/
structure State where
  /-- The processes. -/
  procs : List Process
  /-- How many pipes have been made. -/
  pipes : ℕ

namespace State

variable (s : State)

/-- A process has changed. -/
def setProc (p : ℕ) (q : Process) : State := { s with procs := s.procs.set p q }

/-- The children of a process. -/
def children (p : ℕ) : ℕ := s.procs.countP fun q => q.parent = some p

/-- `exit`: the descriptors are closed, and the children get another parent. -/
def exit (p : ℕ) (q : Process) : State :=
  { s with procs := ((s.setProc p { q with fds := fun _ => none, status := .zombie }).procs.map
      fun q => if q.parent = some p then { q with parent := none } else q) }

/-- `fork`. -/
def fork (p : ℕ) (q : Process) (code : List Instr) : State :=
  { s with procs := s.procs ++ [⟨some p, q.fds, .shell code⟩] }

/-- `pipe`, if there is room for two descriptors. -/
def pipe (q : Process) (left right : Cmd) : Option (State × Process) :=
  (q.fds.alloc (.pipe s.pipes false)).bind fun (p0, fds) =>
    (fds.alloc (.pipe s.pipes true)).map fun (p1, fds) =>
      ({ s with pipes := s.pipes + 1 },
        { q with fds := fds, status := .shell (pipeCode left right p0 p1) })

/-- One call of the process `q` at `p`; `ok` is whether a call that can fail succeeds. -/
def call (p : ℕ) (q : Process) (ok : Bool) : Instr → List Instr → Option State
  | .run cmd, _ => some (s.setProc p { q with status := .shell (runcmd cmd) })
  | .op op, rest => some (s.setProc p { q with fds := op.apply q.fds, status := .shell rest })
  | .openFile file mode, rest =>
      match ok, q.fds.alloc (.file file mode) with
      | true, some (_, fds) => some (s.setProc p { q with fds := fds, status := .shell rest })
      | _, _ => some (s.setProc p { q with status := .shell [.exit] })
  | .pipe left right, _ =>
      match ok, s.pipe q left right with
      | true, some (s, q) => some (s.setProc p q)
      | _, _ => some (s.setProc p { q with status := .shell [.exit] })
  | .fork1 child cmd, rest =>
      if ok then
        some ((s.fork p q (child.map .op ++ [.run cmd])).setProc p { q with status := .shell rest })
      else some (s.setProc p { q with status := .shell [.exit] })
  | .wait, rest =>
      -- `wait` only returns at once if there are no children
      if s.children p = 0 then some (s.setProc p { q with status := .shell rest }) else none
  | .exec argv, rest =>
      if ok then some (s.setProc p { q with status := .program argv })
      else some (s.setProc p { q with status := .shell rest })
  | .exit, _ => some (s.exit p q)

end State

/-- A step of a process. -/
inductive Action
  /-- The next call. -/
  | call (p : ℕ) (ok : Bool)
  /-- `wait` finds a child that has exited. -/
  | reap (p c : ℕ)
  /-- A program exits. -/
  | done (p : ℕ)
  deriving DecidableEq

/-- One step. -/
def step (s : State) : Action → Option State
  | .call p ok =>
      s.procs[p]?.bind fun q =>
        match q.status with
        | .shell (i :: rest) => s.call p q ok i rest
        | _ => none
  | .reap p c =>
      s.procs[p]?.bind fun q => s.procs[c]?.bind fun r =>
        match q.status with
        | .shell (.wait :: rest) =>
            if r.parent = some p ∧ r.status = .zombie then
              some ((s.setProc c { r with parent := none, status := .gone }).setProc p
                { q with status := .shell rest })
            else none
        | _ => none
  | .done p =>
      s.procs[p]?.bind fun q =>
        match q.status with
        | .program _ => some (s.exit p q)
        | _ => none

/-- The shell has forked, and the child runs the command. -/
def start (cmd : Cmd) (fds : Fds) : State := ⟨[⟨none, fds, .shell [.run cmd]⟩], 0⟩

end Xv6.Shell
