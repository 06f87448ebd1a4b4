import Xv6.Param

/-!
# The parser of the shell

The parser of `sh.c`. The string that is parsed does not change before `nulterminate`, so a
pointer into it is the list of the characters from there to its end; the end, `es`, is the
empty list. Memory for the tree is always there, and so is room on the stack: the one page that
`exec` gives the process, which deep parentheses overflow, is not part of the model. `panic`
prints its message and exits.

The functions call each other with a bound on the depth of the calls; the loops have it as the
bound on their turns.
-/

namespace Xv6.Shell

/-- The code of a character. -/
def code (c : Char) : UInt8 := UInt8.ofNat c.toNat

/-- `whitespace`: blank, tab, carriage return, newline and vertical tab. -/
def whitespace : List UInt8 := [32, 9, 13, 10, 11]

/-- `symbols`. -/
def symbols : List UInt8 := ['<', '|', '>', '&', ';', '(', ')'].map code

/-- A character of a word: the condition of the last loop of `gettoken`. -/
def wordChar (c : UInt8) : Bool := c ∉ whitespace && c ∉ symbols

/-- A pointer into the string. -/
abbrev Ptr := List UInt8

/-- Two pointers into the string: the first character of a token and the one after its last. -/
structure Word where
  /-- `q`. -/
  q : Ptr
  /-- `eq`. -/
  eq : Ptr
  deriving DecidableEq

/-- `MAXARGS`. -/
def maxArgs : ℕ := 10

/-- `O_RDONLY`. -/
def oRdonly : ℕ := 0x000

/-- `O_WRONLY`. -/
def oWronly : ℕ := 0x001

/-- `O_CREATE`. -/
def oCreate : ℕ := 0x200

/-- `struct cmd`: a null pointer ends `argv`. -/
inductive Cmd
  /-- `struct execcmd`, with `argv` and `eargv`. -/
  | exec (argv : List Word)
  /-- `struct redircmd`, with `file` and `efile`. -/
  | redir (cmd : Cmd) (file : Word) (mode fd : ℕ)
  /-- `struct pipecmd`. -/
  | pipe (left right : Cmd)
  /-- `struct listcmd`. -/
  | list (left right : Cmd)
  /-- `struct backcmd`. -/
  | back (cmd : Cmd)
  deriving DecidableEq

/-- Why there is no tree. -/
inductive Stop
  /-- `panic` with a message. -/
  | panic (message : String)
  /-- The bound on the depth has been reached. -/
  | depth
  deriving DecidableEq

/-- The loop that skips blanks. -/
def skip (s : Ptr) : Ptr := s.dropWhile (· ∈ whitespace)

/-- `gettoken`: the value returned, the token, and `*ps`. -/
def gettoken (s : Ptr) : UInt8 × Word × Ptr :=
  let q := skip s
  match q with
  | [] => (0, ⟨q, []⟩, skip [])
  | c :: s =>
    if c = 0 then (0, ⟨q, q⟩, skip q)
    else if c ∈ ['|', '(', ')', ';', '&', '<'].map code then (c, ⟨q, s⟩, skip s)
    else if c = code '>' then
      match s with
      | [] => (c, ⟨q, []⟩, skip [])
      | d :: t =>
        if d = code '>' then (code '+', ⟨q, t⟩, skip t) else (c, ⟨q, d :: t⟩, skip (d :: t))
    else
      let eq := q.dropWhile wordChar
      (code 'a', ⟨q, eq⟩, skip eq)

/-- `peek`: the value returned, and `*ps`. -/
def peek (s : Ptr) (toks : List Char) : Bool × Ptr :=
  let s := skip s
  match s with
  | [] => (false, s)
  | c :: _ => (c ≠ 0 && c ∈ toks.map code, s)

/-- `cmd->argv[argc] = q; cmd->eargv[argc] = eq` for the `execcmd` inside the redirections. -/
def Cmd.addArg : Cmd → Word → Cmd
  | .exec argv, w => .exec (argv ++ [w])
  | .redir cmd file mode fd, w => .redir (cmd.addArg w) file mode fd
  | cmd, _ => cmd

/-- The `switch` of `parseredirs`. -/
def redirect (cmd : Cmd) (tok : UInt8) (file : Word) : Cmd :=
  if tok = code '<' then .redir cmd file oRdonly 0
  else if tok = code '>' then .redir cmd file (oWronly ||| oCreate) 1
  else if tok = code '+' then .redir cmd file (oWronly ||| oCreate) 1
  else cmd

/-- `parseredirs`. -/
def parseredirs : ℕ → Cmd → Ptr → Except Stop (Cmd × Ptr)
  | 0, _, _ => .error .depth
  | n + 1, cmd, s =>
    let (more, s) := peek s ['<', '>']
    if more then
      let (tok, _, s) := gettoken s
      let (tok', file, s) := gettoken s
      if tok' ≠ code 'a' then .error (.panic "missing file for redirection")
      else parseredirs n (redirect cmd tok file) s
    else .ok (cmd, s)

/-- The loop of `parseexec`. -/
def parseargs : ℕ → Cmd → ℕ → Ptr → Except Stop (Cmd × Ptr)
  | 0, _, _, _ => .error .depth
  | n + 1, ret, argc, s =>
    let (stop, s) := peek s ['|', ')', '&', ';']
    if stop then .ok (ret, s)
    else
      let (tok, w, s) := gettoken s
      if tok = 0 then .ok (ret, s)
      else if tok ≠ code 'a' then .error (.panic "syntax")
      else if argc + 1 ≥ maxArgs then .error (.panic "too many args")
      else do
        let (ret, s) ← parseredirs n (ret.addArg w) s
        parseargs n ret (argc + 1) s

/-- The loop of `parseline`. -/
def parsebacks : ℕ → Cmd → Ptr → Except Stop (Cmd × Ptr)
  | 0, _, _ => .error .depth
  | n + 1, cmd, s =>
    let (more, s) := peek s ['&']
    if more then
      let (_, _, s) := gettoken s
      parsebacks n (.back cmd) s
    else .ok (cmd, s)

mutual

/-- `parseline`. -/
def parseline : ℕ → Ptr → Except Stop (Cmd × Ptr)
  | 0, _ => .error .depth
  | n + 1, s => do
    let (cmd, s) ← parsepipe n s
    let (cmd, s) ← parsebacks n cmd s
    let (more, s) := peek s [';']
    if more then
      let (_, _, s) := gettoken s
      let (right, s) ← parseline n s
      .ok (.list cmd right, s)
    else .ok (cmd, s)

/-- `parsepipe`. -/
def parsepipe : ℕ → Ptr → Except Stop (Cmd × Ptr)
  | 0, _ => .error .depth
  | n + 1, s => do
    let (cmd, s) ← parseexec n s
    let (more, s) := peek s ['|']
    if more then
      let (_, _, s) := gettoken s
      let (right, s) ← parsepipe n s
      .ok (.pipe cmd right, s)
    else .ok (cmd, s)

/-- `parseblock`. -/
def parseblock : ℕ → Ptr → Except Stop (Cmd × Ptr)
  | 0, _ => .error .depth
  | n + 1, s => do
    let (opened, s) := peek s ['(']
    if !opened then .error (.panic "parseblock")
    else
      let (_, _, s) := gettoken s
      let (cmd, s) ← parseline n s
      let (closed, s) := peek s [')']
      if !closed then .error (.panic "syntax - missing )")
      else
        let (_, _, s) := gettoken s
        parseredirs n cmd s

/-- `parseexec`. -/
def parseexec : ℕ → Ptr → Except Stop (Cmd × Ptr)
  | 0, _ => .error .depth
  | n + 1, s => do
    let (block, s) := peek s ['(']
    if block then parseblock n s
    else
      let (ret, s) ← parseredirs n (.exec []) s
      parseargs n ret 0 s

end

/-- The position of a pointer in the string `s`. -/
def pos (s p : Ptr) : ℕ := s.length - p.length

/-- `*p = 0`, in the string `s` at address 0. -/
def setNul (s p : Ptr) (mem : ℕ → UInt8) : ℕ → UInt8 := Function.update mem (pos s p) 0

/-- `nulterminate`, on the memory with the string `s`. -/
def nulterminate (s : Ptr) : Cmd → (ℕ → UInt8) → ℕ → UInt8
  | .exec argv, mem => argv.foldl (fun mem w => setNul s w.eq mem) mem
  | .redir cmd file _ _, mem => setNul s file.eq (nulterminate s cmd mem)
  | .pipe left right, mem => nulterminate s right (nulterminate s left mem)
  | .list left right, mem => nulterminate s right (nulterminate s left mem)
  | .back cmd, mem => nulterminate s cmd mem

/-- More depth than the parser needs for the string. -/
def depth (s : Ptr) : ℕ := 4 * s.length + 4

/-- `parsecmd`, with the string at address 0: the tree, and the memory after `nulterminate`. -/
def parsecmd (s : Ptr) : Except Stop (Cmd × (ℕ → UInt8)) := do
  let (cmd, rest) ← parseline (depth s) s
  let (_, rest) := peek rest []
  if rest ≠ [] then .error (.panic "syntax")
  else .ok (cmd, nulterminate s cmd fun k => s.getD k 0)

end Xv6.Shell
