import Xv6.Param
import Xv6.Lib.RingBuffer
import Xv6.Lib.GuardedRun

/-!
# Console input

`input` of `console.c`, and the system of `consoleintr` and of any number of processes that
call `consoleread`. `cons.lock` is held from `acquire` to `release` or `sleep`, so a call of
`consoleintr` is one step, and a call of `consoleread` is one step for each time it takes the
lock. The readers are not killed.

What is echoed on the screen and the listing of `procdump` are left out.
-/

namespace Xv6.ConsoleInput

/-- `INPUT_BUF`. -/
def inputBuf : ℕ := 128

instance : NeZero inputBuf := ⟨by decide⟩

/-- `C(x)`: the character of Control and `x`. -/
def ctrl (x : Char) : UInt8 := UInt8.ofNat (x.toNat - '@'.toNat)

/-- `'\n'`. -/
def newline : UInt8 := 10

/-- `'\r'`. -/
def carriageReturn : UInt8 := 13

/-- `'\x7f'`. -/
def delete : UInt8 := 0x7f

/-- `input`. The indices are of type `uint`. -/
structure Input where
  /-- The characters. -/
  buf : Fin inputBuf → UInt8
  /-- Read index. -/
  r : ℕ
  /-- Write index. -/
  w : ℕ
  /-- Edit index. -/
  e : ℕ

namespace Input

/-- `input.e--`. -/
def unedit (i : Input) : Input := { i with e := (i.e + (2 ^ 32 - 1)) % 2 ^ 32 }

/-- `input.buf[(input.e-1) % INPUT_BUF]`. -/
def last (i : Input) : UInt8 := i.buf (Fin.ofNat inputBuf i.unedit.e)

/-- `input.buf[input.e++ % INPUT_BUF] = c`. -/
def store (i : Input) (c : UInt8) : Input :=
  { i with
    buf := fun j => if j = Fin.ofNat inputBuf i.e then c else i.buf j
    e := (i.e + 1) % 2 ^ 32 }

/-- `input.buf[input.r++ % INPUT_BUF]`, the value. -/
def next (i : Input) : UInt8 := i.buf (Fin.ofNat inputBuf i.r)

/-- `input.buf[input.r++ % INPUT_BUF]`, the effect. -/
def take (i : Input) : Input := { i with r := (i.r + 1) % 2 ^ 32 }

/-- `input.r--`. -/
def putBack (i : Input) : Input := { i with r := (i.r + (2 ^ 32 - 1)) % 2 ^ 32 }

/-- At most `k` turns of the loop that kills a line. -/
def killLine : ℕ → Input → Input
  | 0, i => i
  | k + 1, i => if i.e ≠ i.w ∧ i.last ≠ newline then killLine k i.unedit else i

/-- The body of the loop of `consoleintr`, and whether it calls `wakeup(&input.r)`. The loop
that kills a line counts `input.e` down to `input.w` at most. -/
def edit (i : Input) (c : UInt8) : Input × Bool :=
  if c = ctrl 'P' then (i, false)
  else if c = ctrl 'U' then (i.killLine (wrapUint (i.e - i.w)), false)
  else if c = ctrl 'H' ∨ c = delete then (if i.e ≠ i.w then i.unedit else i, false)
  else if c ≠ 0 ∧ wrapUint (i.e - i.r) < inputBuf then
    let c := if c = carriageReturn then newline else c
    let i := i.store c
    if c = newline ∨ c = ctrl 'D' ∨ i.e = (i.r + inputBuf) % 2 ^ 32 then
      ({ i with w := i.e }, true)
    else (i, false)
  else (i, false)

/-- `consoleintr` on the characters that `getc` returns before a negative number, and whether
it calls `wakeup(&input.r)`. -/
def consoleintr (i : Input) : List UInt8 → Input × Bool
  | [] => (i, false)
  | c :: cs =>
    let x := i.edit c
    let y := x.1.consoleintr cs
    (y.1, x.2 || y.2)

/-- Where `consoleread` gives up the lock. -/
inductive Stop
  /-- In `sleep`. -/
  | asleep
  /-- At the end, since `n` is 0. -/
  | filled
  /-- At the end, after a control-D. -/
  | eof
  /-- At the end, after a control-D that it has put back. -/
  | saved
  /-- At the end, after a newline. -/
  | newline
  deriving DecidableEq

/-- What `consoleread` has done when it gives up the lock. -/
structure Section where
  /-- `input`. -/
  input : Input
  /-- `n`. -/
  n : ℕ
  /-- The bytes it has stored at `dst`. -/
  bytes : List UInt8
  /-- Where it gives up the lock. -/
  stop : Stop

/-- The loop of `consoleread` while it has the lock. -/
def consoleread (target : ℕ) : ℕ → Input → Section
  | 0, i => ⟨i, 0, [], .filled⟩
  | n + 1, i =>
    if i.r = i.w then ⟨i, n + 1, [], .asleep⟩
    else if i.next = ctrl 'D' then
      -- saved for the next call, unless this one has nothing else to return
      if n + 1 < target then ⟨i.take.putBack, n + 1, [], .saved⟩
      else ⟨i.take, n + 1, [], .eof⟩
    else if i.next = ConsoleInput.newline then ⟨i.take, n, [i.next], .newline⟩
    else
      let x := consoleread target n i.take
      { x with bytes := i.next :: x.bytes }

/-- The characters that have left the buffer. -/
def Section.consumed (x : Section) : List UInt8 :=
  x.bytes ++ if x.stop = .eof then [ctrl 'D'] else []

end Input

/-! ## The line that is edited -/

/-- The input as its reader sees it: what has been committed so far, all of it, and the
characters that can still be edited. -/
structure Line where
  /-- All the input committed so far. -/
  committed : List UInt8
  /-- The characters typed since. -/
  pending : List UInt8

namespace Line

/-- All the input, committed or not. -/
def text (l : Line) : List UInt8 := l.committed ++ l.pending

/-- A character is typed when the readers have taken `taken` characters. -/
def type (taken : ℕ) (l : Line) (c : UInt8) : Line :=
  if c = ctrl 'P' ∨ c = 0 then l
  else if c = ctrl 'U' then { l with pending := [] }
  else if c = ctrl 'H' ∨ c = delete then { l with pending := l.pending.dropLast }
  else if taken + inputBuf ≤ l.text.length then l
  else
    let c := if c = carriageReturn then newline else c
    if c = newline ∨ c = ctrl 'D' ∨ l.text.length + 1 = taken + inputBuf then
      { committed := l.text ++ [c], pending := [] }
    else { l with pending := l.pending ++ [c] }

/-- What has been committed is never taken back. -/
theorem committed_prefix_type (taken : ℕ) (l : Line) (c : UInt8) :
    l.committed <+: (l.type taken c).committed := by
  unfold type
  dsimp only
  split_ifs
  all_goals simp [text]

theorem committed_prefix_foldl (taken : ℕ) (l : Line) (cs : List UInt8) :
    l.committed <+: (cs.foldl (type taken) l).committed := by
  induction cs generalizing l with
  | nil => exact List.prefix_rfl
  | cons c cs ih => exact (committed_prefix_type taken l c).trans (ih _)

end Line

/-! ## The system -/

variable {T : Type*} [DecidableEq T]

/-- A call of `consoleread` that has not returned. -/
structure Reading where
  /-- `target`. -/
  target : ℕ
  /-- `n`. -/
  n : ℕ
  /-- The bytes stored at `dst`. -/
  bytes : List UInt8

/-- What a process is doing. -/
inductive Phase
  /-- It is not in `consoleread`. -/
  | idle
  /-- In `consoleread`, about to take the lock. -/
  | ready (c : Reading)
  /-- In `consoleread`, asleep on `&input.r`. -/
  | asleep (c : Reading)

/-- A call of `consoleread` that has returned. -/
structure Call (T : Type*) where
  /-- The process. -/
  reader : T
  /-- `n`. -/
  n : ℕ
  /-- The bytes stored at `dst`. -/
  bytes : List UInt8
  /-- The value returned. -/
  result : ℕ

/-- The state, with the history of the input. -/
structure State (T : Type*) where
  /-- `input`. -/
  input : Input
  /-- What the processes are doing. -/
  phase : T → Phase
  /-- The input, as it has been edited. -/
  line : Line
  /-- The characters that the readers have taken, and who. -/
  taken : List (T × UInt8)
  /-- The calls that have returned. -/
  calls : List (Call T)

/-- At boot, `input` is zero. -/
def State.start : State T where
  input := ⟨fun _ => 0, 0, 0, 0⟩
  phase := fun _ => .idle
  line := ⟨[], []⟩
  taken := []
  calls := []

/-- A step of the system. -/
inductive Action (T : Type*)
  /-- `consoleintr` with the characters that `getc` returns. -/
  | intr (cs : List UInt8)
  /-- A process calls `consoleread`; `n` is not negative. -/
  | call (t : T) (n : ℕ)
  /-- A process takes the lock, and has it until it sleeps or returns. -/
  | go (t : T)

/-- `wakeup(&input.r)`, for one process. -/
def Phase.wake : Phase → Phase
  | .asleep c => .ready c
  | p => p

/-- A process does something else now. -/
def State.goto (s : State T) (t : T) (p : Phase) : State T :=
  { s with phase := fun u => if u = t then p else s.phase u }

/-- A process in `consoleread` has the lock. -/
def State.go (s : State T) (t : T) (c : Reading) : State T :=
  let x := s.input.consoleread c.target c.n
  let bytes := c.bytes ++ x.bytes
  let s := { s with input := x.input, taken := s.taken ++ x.consumed.map (t, ·) }
  if x.stop = .asleep then s.goto t (.asleep ⟨c.target, x.n, bytes⟩)
  else
    { s.goto t .idle with calls := s.calls ++ [⟨t, c.target, bytes, c.target - x.n⟩] }

/-- The steps. -/
def step (s : State T) : Action T → Option (State T)
  | .intr cs =>
    let x := s.input.consoleintr cs
    some { s with
      input := x.1
      line := cs.foldl (Line.type s.taken.length) s.line
      phase := fun t => if x.2 then (s.phase t).wake else s.phase t }
  | .call t n =>
    match s.phase t with
    | .idle => some (s.goto t (.ready ⟨n, n, []⟩))
    | _ => none
  | .go t =>
    match s.phase t with
    | .ready c => some (s.go t c)
    | _ => none

end Xv6.ConsoleInput
