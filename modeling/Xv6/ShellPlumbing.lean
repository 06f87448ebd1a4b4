import Xv6.ShellRun
import Xv6.ShellStrings

/-!
# Every program gets its descriptors and no others

What the parser accepts, `runcmd` runs as it reads: redirections and pipes replace the descriptors
0 and 1 of the programs below them, a list waits for its left part, and no descriptor of a pipe is
left open elsewhere. Whatever calls fail and however the processes take turns, all of them end.
-/

namespace Xv6.Shell

open OpenFiles (Fd)

/-! ## Descriptors -/

/-- A redirection as the parser makes them: of descriptor 0 or 1. -/
def Cmd.Standard : Cmd → Prop
  | .exec _ => True
  | .redir cmd _ _ fd => fd < 2 ∧ cmd.Standard
  | .pipe left right => left.Standard ∧ right.Standard
  | .list left right => left.Standard ∧ right.Standard
  | .back cmd => cmd.Standard

namespace Fds

/-- Just the descriptors 0, 1 and 2 are open. -/
def Three (fds : Fds) : Prop := ∀ fd, (fds fd).isSome = decide (fd.val < 3)

/-- A descriptor refers to something else. -/
def put (fds : Fds) (fd : Fd) (o : Opened) : Fds := Function.update fds fd (some o)

/-- With the ends of a pipe under the next two descriptors. -/
def piped (fds : Fds) (n : ℕ) : Fds := (fds.put 3 (.pipe n false)).put 4 (.pipe n true)

variable {fds : Fds} {o : Opened} {n : ℕ} {fd : Fd}

theorem alloc_eq (fd : Fd) (hfree : fds fd = none) (hlow : ∀ fd' < fd, (fds fd').isSome) :
    fds.alloc o = some (fd, fds.put fd o) := by
  have hfind : (List.finRange nofile).find? (fun fd => fds fd = none) = some fd := by
    rw [List.find?_eq_some_iff_getElem]
    refine ⟨by simp [hfree], fd.val, by simp, by simp, fun j hj => ?_⟩
    have hsome := hlow ⟨j, hj.trans fd.isLt⟩ hj
    simpa [Option.isSome_iff_ne_none] using hsome
  unfold alloc
  rw [hfind]
  rfl

theorem Three.eq_none (h : fds.Three) (hfd : 3 ≤ fd.val) : fds fd = none := by
  have hsome := h fd
  rw [decide_eq_false (by omega)] at hsome
  simpa using hsome

theorem Three.isSome (h : fds.Three) (hfd : fd.val < 3) : (fds fd).isSome := by
  rw [h fd, decide_eq_true hfd]

theorem Three.put (h : fds.Three) (hfd : fd.val < 3) : (fds.put fd o).Three := by
  intro fd'
  unfold Fds.put
  by_cases heq : fd' = fd
  · rw [heq, Function.update_self, decide_eq_true hfd]
    rfl
  · rw [Function.update_of_ne heq]
    exact h fd'

/-- A redirection: `close` and `open` give the same descriptor. -/
theorem Three.reopen (h : fds.Three) (hfd : fd.val < 3) :
    (fds.close fd).alloc o = some (fd, fds.put fd o) := by
  have hclose : fds.close fd = Function.update fds fd none := dif_pos fd.isLt
  rw [hclose, alloc_eq fd (Function.update_self ..) fun fd' hlt => ?_]
  · unfold Fds.put
    rw [Function.update_idem]
  · rw [Function.update_of_ne hlt.ne]
    exact h.isSome (lt_trans hlt hfd)

/-- The descriptors that `pipe` returns. -/
theorem Three.pipe (h : fds.Three) :
    fds.alloc (.pipe n false) = some (3, fds.put 3 (.pipe n false)) ∧
      (fds.put 3 (.pipe n false)).alloc (.pipe n true) = some (4, fds.piped n) := by
  have hlow (fd : Fd) (hlt : fd < 3) : (fds fd).isSome := h.isSome hlt
  refine ⟨alloc_eq 3 (h.eq_none le_rfl) hlow, alloc_eq 4 ?_ fun fd hlt => ?_⟩
  · exact (Function.update_of_ne (by decide) ..).trans (h.eq_none (by decide))
  · unfold Fds.put
    by_cases heq : fd = 3
    · rw [heq, Function.update_self]
      rfl
    · rw [Function.update_of_ne heq]
      exact hlow fd (lt_of_le_of_ne (Nat.lt_succ_iff.mp hlt) heq)

/-- The parent closes both ends. -/
theorem Three.parentOps (h : fds.Three) :
    [FdOp.close 3, .close 4].foldl FdOp.apply (fds.piped n) = fds := by
  change Function.update (Function.update (fds.piped n) 3 none) 4 none = fds
  funext fd
  unfold piped Fds.put
  by_cases h4 : fd = 4
  · rw [h4, Function.update_self, h.eq_none (by decide)]
  · rw [Function.update_of_ne h4]
    by_cases h3 : fd = 3
    · rw [h3, Function.update_self, h.eq_none (by decide)]
    · rw [Function.update_of_ne h3, Function.update_of_ne h4, Function.update_of_ne h3]

/-- A child puts an end in the place of one of its descriptors, and closes both. -/
theorem Three.childOps (h : fds.Three) (fd src : Fd) (hend : src = 3 ∨ src = 4) (hfd : fd.val < 3) :
    [FdOp.close fd, .dup src, .close 3, .close 4].foldl FdOp.apply (fds.piped n) =
      fds.put fd (.pipe n (decide (src = 4))) := by
  have hne : src ≠ fd := by
    rintro rfl
    rcases hend with rfl | rfl <;> exact absurd hfd (by decide)
  have hopen : fds.piped n src = some (.pipe n (decide (src = 4))) := by
    rcases hend with rfl | rfl
    · rfl
    · rfl
  have hclose : (fds.piped n).close fd = Function.update (fds.piped n) fd none := dif_pos fd.isLt
  have hdup : ((fds.piped n).close fd).dup src =
      (fds.piped n).put fd (.pipe n (decide (src = 4))) := by
    unfold dup
    rw [dif_pos src.isLt, hclose, Function.update_of_ne hne, hopen]
    dsimp only
    rw [alloc_eq fd (Function.update_self ..) fun fd' hlt => ?_]
    · exact Function.update_idem ..
    · rw [Function.update_of_ne hlt.ne]
      unfold piped Fds.put
      have hlow : fd'.val < 3 := lt_trans hlt hfd
      have h4 : fd' ≠ 4 := by
        rintro rfl
        exact absurd hlow (by decide)
      have h3 : fd' ≠ 3 := by
        rintro rfl
        exact absurd hlow (by decide)
      rw [Function.update_of_ne h4, Function.update_of_ne h3]
      exact h.isSome hlow
  change Function.update (Function.update (((fds.piped n).close fd).dup src) 3 none) 4 none = _
  rw [hdup]
  have hparent := h.parentOps (n := n)
  change Function.update (Function.update (fds.piped n) 3 none) 4 none = fds at hparent
  have h3 : (3 : Fd) ≠ fd := by
    rintro rfl
    exact absurd hfd (by decide)
  have h4 : (4 : Fd) ≠ fd := by
    rintro rfl
    exact absurd hfd (by decide)
  unfold Fds.put
  rw [Function.update_comm (Ne.symm h3), Function.update_comm (Ne.symm h4), hparent]

theorem Three.leftOps (h : fds.Three) :
    (leftOps 3 4).foldl FdOp.apply (fds.piped n) = fds.put 1 (.pipe n true) :=
  h.childOps 1 4 (.inr rfl) (by decide)

theorem Three.rightOps (h : fds.Three) :
    (rightOps 3 4).foldl FdOp.apply (fds.piped n) = fds.put 0 (.pipe n false) :=
  h.childOps 0 3 (.inl rfl) (by decide)

end Fds

/-! ## Where a command gets its descriptors from -/

/-- A pipe that has been made: the two commands, and the descriptors of the process that made it. -/
abbrev Made := List (Cmd × Cmd × Fds)

/-- Running a command with some descriptors leads to running a part of it with others. -/
inductive Wired (made : Made) (root : Cmd) (fds₀ : Fds) : Cmd → Fds → Prop
  | root : Wired made root fds₀ root fds₀
  | redir {cmd : Cmd} {file : Word} {mode : ℕ} {fd : Fd} {fds : Fds} :
      Wired made root fds₀ (.redir cmd file mode fd) fds →
      Wired made root fds₀ cmd (fds.put fd (.file file mode))
  | listLeft {left right : Cmd} {fds : Fds} :
      Wired made root fds₀ (.list left right) fds → Wired made root fds₀ left fds
  | listRight {left right : Cmd} {fds : Fds} :
      Wired made root fds₀ (.list left right) fds → Wired made root fds₀ right fds
  | back {cmd : Cmd} {fds : Fds} :
      Wired made root fds₀ (.back cmd) fds → Wired made root fds₀ cmd fds
  | pipeLeft {left right : Cmd} {fds : Fds} {n : ℕ} :
      Wired made root fds₀ (.pipe left right) fds → made[n]? = some (left, right, fds) →
      Wired made root fds₀ left (fds.put 1 (.pipe n true))
  | pipeRight {left right : Cmd} {fds : Fds} {n : ℕ} :
      Wired made root fds₀ (.pipe left right) fds → made[n]? = some (left, right, fds) →
      Wired made root fds₀ right (fds.put 0 (.pipe n false))

section Wired

variable {made : Made} {root cmd : Cmd} {fds₀ fds : Fds}

/-- A pipe keeps its number. -/
theorem made_keep {n : ℕ} {e : Cmd × Cmd × Fds} (he : made[n]? = some e) (entry : Cmd × Cmd × Fds) :
    (made ++ [entry])[n]? = some e := by
  rw [List.getElem?_append_left (List.getElem?_eq_some_iff.mp he).1]
  exact he

/-- Another pipe changes nothing. -/
theorem Wired.mono (h : Wired made root fds₀ cmd fds) (entry : Cmd × Cmd × Fds) :
    Wired (made ++ [entry]) root fds₀ cmd fds := by
  induction h with
  | root => exact .root
  | redir _ ih => exact .redir ih
  | listLeft _ ih => exact .listLeft ih
  | listRight _ ih => exact .listRight ih
  | back _ ih => exact .back ih
  | pipeLeft _ hn ih => exact .pipeLeft ih (made_keep hn entry)
  | pipeRight _ hn ih => exact .pipeRight ih (made_keep hn entry)

/-- Every part is run with three descriptors, and is standard. -/
theorem Wired.three (h : Wired made root fds₀ cmd fds) (hfds : fds₀.Three)
    (hroot : root.Standard) : fds.Three ∧ cmd.Standard := by
  induction h with
  | root => exact ⟨hfds, hroot⟩
  | redir _ ih => exact ⟨ih.1.put (lt_trans ih.2.1 (by decide)), ih.2.2⟩
  | listLeft _ ih => exact ⟨ih.1, ih.2.1⟩
  | listRight _ ih => exact ⟨ih.1, ih.2.2⟩
  | back _ ih => exact ⟨ih.1, ih.2⟩
  | pipeLeft _ _ ih => exact ⟨ih.1.put (by decide), ih.2.1⟩
  | pipeRight _ _ ih => exact ⟨ih.1.put (by decide), ih.2.2⟩

/-- An end of a pipe comes from the side of the pipe that it belongs to. -/
theorem Wired.of_pipe (h : Wired made root fds₀ cmd fds) {fd : Fd} {n : ℕ} {w : Bool}
    (hfds : ∀ fd, fds₀ fd ≠ some (.pipe n w)) (hfd : fds fd = some (.pipe n w)) :
    ∃ left right above, made[n]? = some (left, right, above) ∧
      if w then Wired made left (above.put 1 (.pipe n true)) cmd fds
      else Wired made right (above.put 0 (.pipe n false)) cmd fds := by
  -- below the pipe, the way to the command is the same
  have hstep {cmd cmd' : Cmd} {fds fds' : Fds}
      (hwired : ∀ root fds₀, Wired made root fds₀ cmd fds → Wired made root fds₀ cmd' fds')
      (h : ∃ left right above, made[n]? = some (left, right, above) ∧
        if w then Wired made left (above.put 1 (.pipe n true)) cmd fds
        else Wired made right (above.put 0 (.pipe n false)) cmd fds) :
      ∃ left right above, made[n]? = some (left, right, above) ∧
        if w then Wired made left (above.put 1 (.pipe n true)) cmd' fds'
        else Wired made right (above.put 0 (.pipe n false)) cmd' fds' := by
    obtain ⟨left, right, above, hn, hside⟩ := h
    refine ⟨left, right, above, hn, ?_⟩
    split_ifs at hside ⊢
    · exact hwired _ _ hside
    · exact hwired _ _ hside
  induction h with
  | root => exact (hfds fd hfd).elim
  | @redir _ _ _ fd' fds _ ih =>
    by_cases heq : fd = fd'
    · rw [heq, Fds.put, Function.update_self] at hfd
      cases hfd
    · rw [Fds.put, Function.update_of_ne heq] at hfd
      exact hstep (fun _ _ h => h.redir) (ih hfd)
  | listLeft _ ih => exact hstep (fun _ _ h => h.listLeft) (ih hfd)
  | listRight _ ih => exact hstep (fun _ _ h => h.listRight) (ih hfd)
  | back _ ih => exact hstep (fun _ _ h => h.back) (ih hfd)
  | @pipeLeft left right fds m _ hm ih =>
    by_cases heq : fd = 1
    · rw [heq, Fds.put, Function.update_self] at hfd
      obtain ⟨rfl, rfl⟩ := Opened.pipe.inj (Option.some.inj hfd)
      exact ⟨left, right, fds, hm, .root⟩
    · rw [Fds.put, Function.update_of_ne heq] at hfd
      exact hstep (fun _ _ h => h.pipeLeft hm) (ih hfd)
  | @pipeRight left right fds m _ hm ih =>
    by_cases heq : fd = 0
    · rw [heq, Fds.put, Function.update_self] at hfd
      obtain ⟨rfl, rfl⟩ := Opened.pipe.inj (Option.some.inj hfd)
      exact ⟨left, right, fds, hm, .root⟩
    · rw [Fds.put, Function.update_of_ne heq] at hfd
      exact hstep (fun _ _ h => h.pipeRight hm) (ih hfd)

end Wired

/-! ## The processes -/

/-- What a process can be doing, with its descriptors and the number of its children. -/
inductive Shape (made : Made) (root : Cmd) (fds₀ : Fds) : Status → Fds → ℕ → Prop
  /-- It is to run a command, perhaps after a few calls. -/
  | run {ops : List FdOp} {cmd : Cmd} {fds fds' : Fds} : Wired made root fds₀ cmd fds' →
      ops.foldl FdOp.apply fds = fds' →
      Shape made root fds₀ (.shell (ops.map .op ++ [.run cmd])) fds 0
  | exec {argv : List Word} {fds : Fds} : Wired made root fds₀ (.exec argv) fds →
      Shape made root fds₀ (.shell [.exec argv, .exit]) fds 0
  | close {cmd : Cmd} {file : Word} {mode : ℕ} {fd : Fd} {fds : Fds} :
      Wired made root fds₀ (.redir cmd file mode fd) fds →
      Shape made root fds₀ (.shell [.op (.close fd), .openFile file mode, .run cmd]) fds 0
  | openFile {cmd : Cmd} {file : Word} {mode : ℕ} {fd : Fd} {fds : Fds} :
      Wired made root fds₀ (.redir cmd file mode fd) fds →
      Shape made root fds₀ (.shell [.openFile file mode, .run cmd]) (fds.close fd) 0
  | listFork {left right : Cmd} {fds : Fds} : Wired made root fds₀ (.list left right) fds →
      Shape made root fds₀ (.shell [.fork1 [] left, .wait, .run right]) fds 0
  | listWait {left right : Cmd} {fds : Fds} : Wired made root fds₀ (.list left right) fds →
      Shape made root fds₀ (.shell [.wait, .run right]) fds 1
  | pipe {left right : Cmd} {fds : Fds} : Wired made root fds₀ (.pipe left right) fds →
      Shape made root fds₀ (.shell [.pipe left right]) fds 0
  | forkLeft {left right : Cmd} {fds : Fds} {n : ℕ} :
      Wired made root fds₀ (.pipe left right) fds → made[n]? = some (left, right, fds) →
      Shape made root fds₀ (.shell (pipeCode left right 3 4)) (fds.piped n) 0
  | forkRight {left right : Cmd} {fds : Fds} {n : ℕ} :
      Wired made root fds₀ (.pipe left right) fds → made[n]? = some (left, right, fds) →
      Shape made root fds₀ (.shell (pipeCode left right 3 4).tail) (fds.piped n) 1
  /-- The parent of a pipe is to wait, perhaps after it has closed the ends. -/
  | waits {ops : List FdOp} {left right : Cmd} {fds fds' : Fds} :
      Wired made root fds₀ (.pipe left right) fds' → ops.foldl FdOp.apply fds = fds' →
      Shape made root fds₀ (.shell (ops.map .op ++ [.wait, .wait, .exit])) fds 2
  | wait {left right : Cmd} {fds : Fds} : Wired made root fds₀ (.pipe left right) fds →
      Shape made root fds₀ (.shell [.wait, .exit]) fds 1
  | back {cmd : Cmd} {fds : Fds} : Wired made root fds₀ (.back cmd) fds →
      Shape made root fds₀ (.shell [.fork1 [] cmd, .exit]) fds 0
  /-- It is to exit, perhaps because a call has failed. -/
  | exit {fds : Fds} {k : ℕ} : Shape made root fds₀ (.shell [.exit]) fds k
  | program {argv : List Word} {fds : Fds} : Wired made root fds₀ (.exec argv) fds →
      Shape made root fds₀ (.program argv) fds 0
  | zombie : Shape made root fds₀ .zombie (fun _ => none) 0
  | gone : Shape made root fds₀ .gone (fun _ => none) 0

/-- What holds between the steps. -/
structure Inv (made : Made) (root : Cmd) (fds₀ : Fds) (s : State) : Prop where
  /-- The pipes. -/
  pipes : made.length = s.pipes
  /-- The processes. -/
  shape : ∀ (p : ℕ) (q : Process), s.procs[p]? = some q →
    Shape made root fds₀ q.status q.fds (s.children p)
  /-- A parent is older than its child, and has not waited for it. -/
  parent : ∀ (p : ℕ) (q : Process) (k : ℕ), s.procs[p]? = some q → q.parent = some k →
    k < p ∧ q.status ≠ .gone

section Children

variable {s : State} {p j : ℕ} {q r : Process}

theorem countP_set (P : Process → Bool) {l : List Process} (hp : l[p]? = some q) :
    (l.set p r).countP P + (if P q then 1 else 0) = l.countP P + if P r then 1 else 0 := by
  induction l generalizing p with
  | nil => cases hp
  | cons a l ih =>
    cases p with
    | zero =>
      obtain rfl : a = q := by simpa using hp
      rw [List.set_cons_zero, List.countP_cons, List.countP_cons]
      omega
    | succ p =>
      have htail := ih (p := p) (by simpa using hp)
      rw [List.set_cons_succ, List.countP_cons, List.countP_cons]
      omega

/-- A process that keeps its parent. -/
theorem children_setProc (hp : s.procs[p]? = some q) (hparent : r.parent = q.parent) :
    (s.setProc p r).children j = s.children j := by
  have hcount := countP_set (r := r) (fun q => decide (q.parent = some j)) hp
  rw [hparent] at hcount
  unfold State.children State.setProc
  dsimp only
  omega

theorem getElem?_setProc (hp : s.procs[p]? = some q) :
    (s.setProc p r).procs[j]? = if j = p then some r else s.procs[j]? := by
  have hlt := (List.getElem?_eq_some_iff.mp hp).1
  unfold State.setProc
  rw [List.getElem?_set]
  split_ifs with h1 h2
  · rfl
  · exact (h2 h1.symm).elim
  · exact (h1 (by omega)).elim
  · rfl

/-- Who exits has no children, and is still a child. -/
theorem children_exit (hp : s.procs[p]? = some q) :
    (s.exit p q).children j = if j = p then 0 else s.children j := by
  have hsame := children_setProc (j := j)
    (r := { q with fds := fun _ => none, status := .zombie }) hp rfl
  unfold State.children at hsame ⊢
  unfold State.exit
  rw [List.countP_map]
  split_ifs with hj
  · rw [List.countP_eq_zero]
    intro x _
    simp only [Function.comp_apply, decide_eq_true_eq]
    split_ifs with hx
    · simp
    · rwa [hj]
  · rw [← hsame]
    refine List.countP_congr fun x _ => ?_
    simp only [Function.comp_apply, decide_eq_true_eq]
    split_ifs with hx
    · simp [hx, Ne.symm hj]
    · rfl

theorem getElem?_exit (hp : s.procs[p]? = some q) (hj : (s.exit p q).procs[j]? = some r) :
    j = p ∧ r.status = .zombie ∧ r.fds = (fun _ => none) ∧ (∀ k, r.parent = some k →
      q.parent = some k) ∨
    j ≠ p ∧ ∃ r', s.procs[j]? = some r' ∧ r.status = r'.status ∧ r.fds = r'.fds ∧
      ∀ k, r.parent = some k → r'.parent = some k := by
  unfold State.exit at hj
  rw [List.getElem?_map, getElem?_setProc hp] at hj
  obtain ⟨x, hx, rfl⟩ := Option.map_eq_some_iff.mp hj
  split_ifs at hx with hjp
  · obtain rfl := Option.some.inj hx
    refine .inl ⟨hjp, ?_⟩
    split_ifs
    · exact ⟨rfl, rfl, fun k hk => by cases hk⟩
    · exact ⟨rfl, rfl, fun k hk => hk⟩
  · refine .inr ⟨hjp, x, hx, ?_⟩
    split_ifs
    · exact ⟨rfl, rfl, fun k hk => by cases hk⟩
    · exact ⟨rfl, rfl, fun k hk => hk⟩

end Children

/-! ## One step -/

section Step

variable {made : Made} {root cmd : Cmd} {fds₀ : Fds} {s s' : State} {p c : ℕ} {q r : Process}
  {i : Instr} {rest : List Instr} {ok : Bool}

/-- A process goes on, with the same children. -/
theorem Inv.setProc (h : Inv made root fds₀ s) (hp : s.procs[p]? = some q)
    (hparent : r.parent = q.parent) (hgone : r.status ≠ .gone)
    (hshape : Shape made root fds₀ r.status r.fds (s.children p)) :
    Inv made root fds₀ (s.setProc p r) where
  pipes := h.pipes
  shape j x hj := by
    rw [children_setProc hp hparent]
    rw [getElem?_setProc hp] at hj
    split_ifs at hj with hjp
    · obtain rfl := Option.some.inj hj
      rwa [hjp]
    · exact h.shape j x hj
  parent j x k hj hk := by
    rw [getElem?_setProc hp] at hj
    split_ifs at hj with hjp
    · obtain rfl := Option.some.inj hj
      rw [hparent] at hk
      exact ⟨hjp ▸ (h.parent p q k hp hk).1, hgone⟩
    · exact h.parent j x k hj hk

/-- A process exits. -/
theorem Inv.exit (h : Inv made root fds₀ s) (hp : s.procs[p]? = some q) :
    Inv made root fds₀ (s.exit p q) where
  pipes := h.pipes
  shape j x hj := by
    rw [children_exit hp]
    rcases getElem?_exit hp hj with ⟨hjp, hstatus, hfds, -⟩ | ⟨hjp, x', hx', hstatus, hfds, -⟩
    · rw [if_pos hjp, hstatus, hfds]
      exact .zombie
    · rw [if_neg hjp, hstatus, hfds]
      exact h.shape j x' hx'
  parent j x k hj hk := by
    rcases getElem?_exit hp hj with ⟨hjp, hstatus, -, hparent⟩ | ⟨hjp, x', hx', hstatus, -, hparent⟩
    · refine ⟨hjp ▸ (h.parent p q k hp (hparent k hk)).1, ?_⟩
      rw [hstatus]
      simp
    · rw [hstatus]
      exact h.parent j x' k hx' (hparent k hk)

/-- A process has a child more. -/
theorem Inv.fork (h : Inv made root fds₀ s) (hp : s.procs[p]? = some q)
    {ops : List FdOp} (hchild : Shape made root fds₀
      (.shell (ops.map .op ++ [.run cmd])) q.fds 0)
    (hshape : Shape made root fds₀ (.shell rest) q.fds (s.children p + 1)) :
    Inv made root fds₀ ((s.fork p q (ops.map .op ++ [.run cmd])).setProc p
      { q with status := .shell rest }) := by
  have hlt := (List.getElem?_eq_some_iff.mp hp).1
  have hp' : (s.fork p q (ops.map .op ++ [.run cmd])).procs[p]? = some q := by
    unfold State.fork
    rwa [List.getElem?_append_left hlt]
  have hchildren (j : ℕ) : (s.fork p q (ops.map .op ++ [.run cmd])).children j =
      s.children j + if j = p then 1 else 0 := by
    unfold State.children State.fork
    rw [List.countP_append, List.countP_singleton]
    simp [eq_comm]
  have hold (j : ℕ) (x : Process) (hj : (s.fork p q (ops.map .op ++ [.run cmd])).procs[j]? =
      some x) : s.procs[j]? = some x ∨
        j = s.procs.length ∧ x = ⟨some p, q.fds, .shell (ops.map .op ++ [.run cmd])⟩ := by
    unfold State.fork at hj
    rw [List.getElem?_append] at hj
    split_ifs at hj with hjlt
    · exact .inl hj
    · rw [List.getElem?_singleton] at hj
      split_ifs at hj with hzero
      exact .inr ⟨by omega, (Option.some.inj hj).symm⟩
  have hnone (j : ℕ) (hj : s.procs.length ≤ j) : s.children j = 0 := by
    unfold State.children
    rw [List.countP_eq_zero]
    intro x hx
    obtain ⟨k, hk⟩ := List.mem_iff_getElem?.mp hx
    have hklt := (List.getElem?_eq_some_iff.mp hk).1
    rw [decide_eq_true_eq]
    intro hparent
    have := (h.parent k x j hk hparent).1
    omega
  constructor
  · exact h.pipes
  · intro j x hj
    rw [children_setProc hp' (r := { q with status := .shell rest }) rfl, hchildren]
    rw [getElem?_setProc hp'] at hj
    split_ifs at hj with hjp
    · obtain rfl := Option.some.inj hj
      rw [if_pos hjp, hjp]
      exact hshape
    · rw [if_neg hjp, add_zero]
      rcases hold j x hj with hj | ⟨rfl, rfl⟩
      · exact h.shape j x hj
      · rw [hnone _ le_rfl]
        exact hchild
  · intro j x k hj hk
    rw [getElem?_setProc hp'] at hj
    split_ifs at hj with hjp
    · obtain rfl := Option.some.inj hj
      exact ⟨hjp ▸ (h.parent p q k hp hk).1, by simp⟩
    · rcases hold j x hj with hj | ⟨rfl, rfl⟩
      · exact h.parent j x k hj hk
      · obtain rfl : p = k := Option.some.inj hk
        exact ⟨hlt, by simp⟩

/-- A process has waited for a child. -/
theorem Inv.reap (h : Inv made root fds₀ s) (hp : s.procs[p]? = some q) (hc : s.procs[c]? = some r)
    (hparent : r.parent = some p) (hzombie : r.status = .zombie)
    (hshape : Shape made root fds₀ (.shell rest) q.fds (s.children p - 1)) :
    Inv made root fds₀ ((s.setProc c { r with parent := none, status := .gone }).setProc p
      { q with status := .shell rest }) := by
  have hpc : p ≠ c := by
    have := (h.parent c r p hc hparent).1
    omega
  have hp' : (s.setProc c { r with parent := none, status := .gone }).procs[p]? = some q := by
    rwa [getElem?_setProc hc, if_neg hpc]
  have hchildren (j : ℕ) : (s.setProc c { r with parent := none, status := .gone }).children j +
      (if j = p then 1 else 0) = s.children j := by
    have hcount := countP_set (r := { r with parent := none, status := .gone })
      (fun q => decide (q.parent = some j)) hc
    rw [hparent] at hcount
    simp only [decide_eq_true_eq, Option.some.injEq, reduceCtorEq, if_false, add_zero] at hcount
    simp only [eq_comm (a := j)]
    exact hcount
  have hcshape := h.shape c r hc
  rw [hzombie] at hcshape
  constructor
  · exact h.pipes
  · intro j x hj
    have hj' := hchildren j
    rw [children_setProc hp' (r := { q with status := .shell rest }) rfl]
    rw [getElem?_setProc hp', getElem?_setProc hc] at hj
    split_ifs at hj with hjp hjc
    · obtain rfl := Option.some.inj hj
      rw [if_pos hjp] at hj'
      rw [Nat.eq_sub_of_add_eq hj', hjp]
      exact hshape
    · obtain rfl := Option.some.inj hj
      rw [if_neg hjp, add_zero] at hj'
      rw [hj', hjc]
      generalize r.fds = fds at hcshape
      generalize s.children c = k at hcshape
      cases hcshape
      exact .gone
    · rw [if_neg hjp, add_zero] at hj'
      rw [hj']
      exact h.shape j x hj
  · intro j x k hj hk
    rw [getElem?_setProc hp', getElem?_setProc hc] at hj
    split_ifs at hj with hjp hjc
    · obtain rfl := Option.some.inj hj
      exact ⟨hjp ▸ (h.parent p q k hp hk).1, by simp⟩
    · obtain rfl := Option.some.inj hj
      cases hk
    · exact h.parent j x k hj hk

/-- What `runcmd` does first. -/
theorem shape_runcmd {fds : Fds} (h : Wired made root fds₀ cmd fds) (hcmd : cmd.Standard) :
    Shape made root fds₀ (.shell (runcmd cmd)) fds 0 := by
  cases cmd with
  | exec argv =>
    dsimp only [runcmd]
    split_ifs
    · exact .exit
    · exact .exec h
  | redir cmd file mode fd =>
    have hlt : fd < nofile := lt_trans hcmd.1 (by decide)
    have hw : Wired made root fds₀ (.redir cmd file mode (⟨fd, hlt⟩ : Fd)) fds := h
    have hshape := Shape.close hw
    exact hshape
  | pipe left right => exact .pipe h
  | list left right => exact .listFork h
  | back cmd => exact .back h

/-- The code of a command that is run at once. -/
theorem Shape.now {fds : Fds} (h : Wired made root fds₀ cmd fds) :
    Shape made root fds₀ (.shell [.run cmd]) fds 0 := by
  have hops : ([] : List FdOp).foldl FdOp.apply fds = fds := rfl
  have hshape := Shape.run h hops
  exact hshape

/-- `pipe` returns the descriptors 3 and 4. -/
theorem pipe_eq {left right : Cmd} (h : q.fds.Three) :
    s.pipe q left right = some ({ s with pipes := s.pipes + 1 },
      { q with fds := q.fds.piped s.pipes, status := .shell (pipeCode left right 3 4) }) := by
  obtain ⟨h0, h1⟩ := h.pipe (n := s.pipes)
  unfold State.pipe
  rw [h0, Option.bind_some]
  dsimp only
  rw [h1]
  rfl

theorem Shape.mono {status : Status} {fds : Fds} {k : ℕ} (h : Shape made root fds₀ status fds k)
    (entry : Cmd × Cmd × Fds) : Shape (made ++ [entry]) root fds₀ status fds k := by
  cases h with
  | run hw hops => exact .run (hw.mono entry) hops
  | exec hw => exact .exec (hw.mono entry)
  | close hw => exact .close (hw.mono entry)
  | openFile hw => exact .openFile (hw.mono entry)
  | listFork hw => exact .listFork (hw.mono entry)
  | listWait hw => exact .listWait (hw.mono entry)
  | pipe hw => exact .pipe (hw.mono entry)
  | forkLeft hw hn => exact .forkLeft (hw.mono entry) (made_keep hn entry)
  | forkRight hw hn => exact .forkRight (hw.mono entry) (made_keep hn entry)
  | waits hw hops => exact .waits (hw.mono entry) hops
  | wait hw => exact .wait (hw.mono entry)
  | back hw => exact .back (hw.mono entry)
  | exit => exact .exit
  | program hw => exact .program (hw.mono entry)
  | zombie => exact .zombie
  | gone => exact .gone

/-- A pipe has been made. -/
theorem Inv.pipe (h : Inv made root fds₀ s) (entry : Cmd × Cmd × Fds) :
    Inv (made ++ [entry]) root fds₀ { s with pipes := s.pipes + 1 } where
  pipes := by
    rw [List.length_append, h.pipes]
    rfl
  shape p q hp := (h.shape p q hp).mono entry
  parent := h.parent

/-- The next call of a process keeps the invariant. -/
theorem Inv.call (h : Inv made root fds₀ s) (hfds : fds₀.Three) (hroot : root.Standard)
    (hp : s.procs[p]? = some q) (hstatus : q.status = .shell (i :: rest))
    (hcall : s.call p q ok i rest = some s') : ∃ made', Inv made' root fds₀ s' := by
  have hshape := h.shape p q hp
  rw [hstatus] at hshape
  -- a process that goes on
  have hset {r : Process} (hr : some (s.setProc p r) = some s') (hparent : r.parent = q.parent)
      (hgone : r.status ≠ .gone) (hnext : Shape made root fds₀ r.status r.fds (s.children p)) :
      ∃ made', Inv made' root fds₀ s' :=
    ⟨made, Option.some.inj hr ▸ h.setProc hp hparent hgone hnext⟩
  -- a call that fails
  have hfail (hr : some (s.setProc p { q with status := .shell [.exit] }) = some s') :
      ∃ made', Inv made' root fds₀ s' := hset hr rfl (by simp) .exit
  -- a fork
  have hfork {ops : List FdOp} {cmd : Cmd} (hr : s.call p q ok (.fork1 ops cmd) rest = some s')
      (hchild : Shape made root fds₀ (.shell (ops.map .op ++ [.run cmd])) q.fds 0)
      (hnext : Shape made root fds₀ (.shell rest) q.fds (s.children p + 1)) :
      ∃ made', Inv made' root fds₀ s' := by
    dsimp only [State.call] at hr
    split_ifs at hr
    · exact ⟨made, Option.some.inj hr ▸ h.fork hp hchild hnext⟩
    · exact hfail hr
  have hthree {cmd : Cmd} {fds : Fds} (hw : Wired made root fds₀ cmd fds) := hw.three hfds hroot
  generalize hcode : Status.shell (i :: rest) = st at hshape
  generalize hF : q.fds = F at hshape
  generalize hk : s.children p = k at hshape
  cases hshape with
  | @run ops cmd fds fds' hw hops =>
    cases ops with
    | nil =>
      obtain ⟨rfl, rfl⟩ := List.cons.inj (Status.shell.inj hcode)
      obtain rfl : F = fds' := hops
      refine hset hcall rfl (by simp) ?_
      rw [hk, hF]
      exact shape_runcmd hw (hthree hw).2
    | cons op ops =>
      obtain ⟨rfl, rfl⟩ := List.cons.inj (Status.shell.inj hcode)
      refine hset hcall rfl (by simp) ?_
      rw [hk, hF]
      exact .run hw hops
  | exec hw =>
    obtain ⟨rfl, rfl⟩ := List.cons.inj (Status.shell.inj hcode)
    dsimp only [State.call] at hcall
    split_ifs at hcall
    · refine hset hcall rfl (by simp) ?_
      rw [hk, hF]
      exact .program hw
    · exact hfail hcall
  | close hw =>
    obtain ⟨rfl, rfl⟩ := List.cons.inj (Status.shell.inj hcode)
    refine hset hcall rfl (by simp) ?_
    rw [hk, hF]
    exact .openFile hw
  | @openFile cmd file mode fd fds hw =>
    obtain ⟨rfl, rfl⟩ := List.cons.inj (Status.shell.inj hcode)
    obtain ⟨hopen, hlt, -⟩ := hthree hw
    dsimp only [State.call] at hcall
    rw [hF, hopen.reopen (lt_trans hlt (by decide))] at hcall
    cases ok with
    | true =>
      refine hset hcall rfl (by simp) ?_
      rw [hk]
      exact .now hw.redir
    | false =>
      rw [← hF] at hcall
      exact hfail hcall
  | listFork hw =>
    obtain ⟨rfl, rfl⟩ := List.cons.inj (Status.shell.inj hcode)
    refine hfork hcall ?_ ?_
    · rw [hF]
      exact .now hw.listLeft
    · rw [hF, hk]
      exact .listWait hw
  | listWait =>
    obtain ⟨rfl, rfl⟩ := List.cons.inj (Status.shell.inj hcode)
    dsimp only [State.call] at hcall
    rw [if_neg (by omega)] at hcall
    cases hcall
  | @pipe left right fds hw =>
    obtain ⟨rfl, rfl⟩ := List.cons.inj (Status.shell.inj hcode)
    dsimp only [State.call] at hcall
    cases ok with
    | true =>
      rw [pipe_eq (hF ▸ (hthree hw).1)] at hcall
      refine ⟨made ++ [(left, right, F)], Option.some.inj hcall ▸ ?_⟩
      refine (h.pipe (left, right, F)).setProc hp rfl (by simp) ?_
      change Shape _ _ _ _ _ (s.children p)
      rw [hk, hF]
      refine .forkLeft (hw.mono _) ?_
      rw [← h.pipes, List.getElem?_concat_length]
    | false => exact hfail hcall
  | forkLeft hw hn =>
    obtain ⟨rfl, rfl⟩ := List.cons.inj (Status.shell.inj hcode)
    refine hfork hcall ?_ ?_
    · rw [hF]
      exact .run (hw.pipeLeft hn) (hthree hw).1.leftOps
    · rw [hF, hk]
      exact .forkRight hw hn
  | @forkRight left right fds n hw hn =>
    obtain ⟨rfl, rfl⟩ := List.cons.inj (Status.shell.inj hcode)
    refine hfork hcall ?_ ?_
    · rw [hF]
      exact .run (hw.pipeRight hn) (hthree hw).1.rightOps
    · rw [hF, hk]
      have hparent := (hthree hw).1.parentOps (n := n)
      have hshape := Shape.waits hw hparent
      exact hshape
  | @waits ops left right fds fds' hw hops =>
    cases ops with
    | nil =>
      obtain ⟨rfl, rfl⟩ := List.cons.inj (Status.shell.inj hcode)
      dsimp only [State.call] at hcall
      rw [if_neg (by omega)] at hcall
      cases hcall
    | cons op ops =>
      obtain ⟨rfl, rfl⟩ := List.cons.inj (Status.shell.inj hcode)
      refine hset hcall rfl (by simp) ?_
      rw [hk, hF]
      exact .waits hw hops
  | wait =>
    obtain ⟨rfl, rfl⟩ := List.cons.inj (Status.shell.inj hcode)
    dsimp only [State.call] at hcall
    rw [if_neg (by omega)] at hcall
    cases hcall
  | back hw =>
    obtain ⟨rfl, rfl⟩ := List.cons.inj (Status.shell.inj hcode)
    refine hfork hcall ?_ .exit
    rw [hF]
    exact .now hw.back
  | exit =>
    obtain ⟨rfl, rfl⟩ := List.cons.inj (Status.shell.inj hcode)
    exact ⟨made, Option.some.inj hcall ▸ h.exit hp⟩
  | program | zombie | gone => cases hcode

/-- Who is to wait has three descriptors and a child, and goes on when it has waited. -/
theorem Shape.wait_next {fds : Fds} {k : ℕ}
    (h : Shape made root fds₀ (.shell (.wait :: rest)) fds k) :
    0 < k ∧ (∃ cmd, Wired made root fds₀ cmd fds) ∧
      Shape made root fds₀ (.shell rest) fds (k - 1) := by
  generalize hcode : Status.shell (.wait :: rest) = st at h
  cases h with
  | @run ops => cases ops <;> cases hcode
  | listWait hw =>
    obtain ⟨-, rfl⟩ := List.cons.inj (Status.shell.inj hcode)
    exact ⟨one_pos, ⟨_, hw⟩, .now hw.listRight⟩
  | @waits ops left right _ fds' hw hops =>
    cases ops with
    | nil =>
      obtain ⟨-, rfl⟩ := List.cons.inj (Status.shell.inj hcode)
      obtain rfl : fds = fds' := hops
      exact ⟨two_pos, ⟨_, hw⟩, .wait hw⟩
    | cons op ops => cases hcode
  | wait hw =>
    obtain ⟨-, rfl⟩ := List.cons.inj (Status.shell.inj hcode)
    exact ⟨one_pos, ⟨_, hw⟩, .exit⟩
  | _ => cases hcode

/-- A program has the descriptors of its command. -/
theorem Shape.wired_program {argv : List Word} {fds : Fds} {k : ℕ}
    (h : Shape made root fds₀ (.program argv) fds k) : Wired made root fds₀ (.exec argv) fds := by
  generalize hst : Status.program argv = st at h
  cases h with
  | program hw =>
    obtain rfl := Status.program.inj hst
    exact hw
  | _ => cases hst

/-- Who has exited has no descriptors. -/
theorem Shape.fds_none {status : Status} {fds : Fds} {k : ℕ}
    (h : Shape made root fds₀ status fds k) (hstatus : status = .zombie ∨ status = .gone)
    (fd : Fd) : fds fd = none := by
  cases h with
  | zombie | gone => rfl
  | _ => rcases hstatus with hstatus | hstatus <;> cases hstatus

/-- Who runs a command has waited for all its children. -/
theorem Shape.run_children {fds : Fds} {k : ℕ}
    (h : Shape made root fds₀ (.shell (.run cmd :: rest)) fds k) :
    k = 0 ∧ rest = [] ∧ Wired made root fds₀ cmd fds := by
  generalize hcode : Status.shell (.run cmd :: rest) = st at h
  cases h with
  | @run ops _ _ fds' hw hops =>
    cases ops with
    | nil =>
      obtain ⟨heq, rfl⟩ := List.cons.inj (Status.shell.inj hcode)
      obtain rfl := Instr.run.inj heq
      obtain rfl : fds = fds' := hops
      exact ⟨rfl, rfl, hw⟩
    | cons op ops => cases hcode
  | @waits ops => cases ops <;> cases hcode
  | _ => cases hcode

/-- The code ends with a call that does not return. -/
theorem Shape.ne_nil {fds : Fds} {k : ℕ} {code : List Instr}
    (h : Shape made root fds₀ (.shell code) fds k) : code ≠ [] := by
  rintro rfl
  generalize hcode : Status.shell [] = st at h
  cases h with
  | @run ops => cases ops <;> cases hcode
  | @waits ops => cases ops <;> cases hcode
  | _ => cases hcode

/-- Every step keeps the invariant. -/
theorem Inv.step {a : Action} (h : Inv made root fds₀ s) (hfds : fds₀.Three)
    (hroot : root.Standard) (hstep : step s a = some s') : ∃ made', Inv made' root fds₀ s' := by
  cases a with
  | call p ok =>
    obtain ⟨q, hp, hcall⟩ := Option.bind_eq_some_iff.mp hstep
    split at hcall
    · exact h.call hfds hroot hp ‹_› hcall
    · cases hcall
  | reap p c =>
    obtain ⟨q, hp, hrest⟩ := Option.bind_eq_some_iff.mp hstep
    obtain ⟨r, hc, hreap⟩ := Option.bind_eq_some_iff.mp hrest
    split at hreap
    · rename_i rest hstatus
      split_ifs at hreap with hzombie
      have hshape := h.shape p q hp
      rw [hstatus] at hshape
      exact ⟨made, Option.some.inj hreap ▸ h.reap hp hc hzombie.1 hzombie.2 hshape.wait_next.2.2⟩
    · cases hreap
  | done p =>
    obtain ⟨q, hp, hdone⟩ := Option.bind_eq_some_iff.mp hstep
    split at hdone
    · exact ⟨made, Option.some.inj hdone ▸ h.exit hp⟩
    · cases hdone

/-- As long as a process has not exited, some process can take a step. The last one of them that
has not exited does not wait for another. -/
theorem Inv.progress (h : Inv made root fds₀ s) (n : ℕ) (hp : s.procs[p]? = some q)
    (hn : s.procs.length ≤ p + n) (hlive : q.status ≠ .zombie ∧ q.status ≠ .gone) :
    ∃ a s', Shell.step s a = some s' := by
  induction n generalizing p q with
  | zero =>
    have := (List.getElem?_eq_some_iff.mp hp).1
    omega
  | succ n ih =>
    have hshape := h.shape p q hp
    cases hstatus : q.status with
    | zombie => exact (hlive.1 hstatus).elim
    | gone => exact (hlive.2 hstatus).elim
    | program argv => exact ⟨.done p, s.exit p q, by simp [Shell.step, hp, hstatus]⟩
    | shell code =>
      rw [hstatus] at hshape
      obtain ⟨i, rest, rfl⟩ := List.exists_cons_of_ne_nil hshape.ne_nil
      by_cases hwait : i = .wait
      · subst hwait
        obtain ⟨hpos, -, -⟩ := hshape.wait_next
        obtain ⟨r, hr, hparent⟩ := List.countP_pos_iff.mp hpos
        obtain ⟨c, hc⟩ := List.mem_iff_getElem?.mp hr
        have hparent := of_decide_eq_true hparent
        obtain ⟨hlt, hgone⟩ := h.parent c r p hc hparent
        by_cases hzombie : r.status = .zombie
        · refine ⟨.reap p c, (s.setProc c { r with parent := none, status := .gone }).setProc p
            { q with status := .shell rest }, ?_⟩
          simp [Shell.step, hp, hc, hstatus, hparent, hzombie]
        · exact ih hc (by omega) ⟨hzombie, hgone⟩
      · refine ⟨.call p false, ?_⟩
        simp only [Shell.step, hp, Option.bind_some, hstatus]
        cases i with
        | wait => exact (hwait rfl).elim
        | _ => exact ⟨_, rfl⟩

end Step

/-! ## Every run ends -/

/-- An upper bound on the steps of `runcmd`, and of the processes it starts. -/
def Cmd.weight : Cmd → ℕ
  | .exec _ => 4
  | .redir cmd _ _ _ => 4 + cmd.weight
  | .pipe left right => 17 + left.weight + right.weight
  | .list left right => 3 + left.weight + right.weight
  | .back cmd => 3 + cmd.weight

/-- The same for a call. -/
def Instr.weight : Instr → ℕ
  | .run cmd => cmd.weight
  | .op _ => 1
  | .openFile _ _ => 2
  | .pipe left right => 16 + left.weight + right.weight
  | .fork1 child cmd => 1 + child.length + cmd.weight
  | .wait => 1
  | .exec _ => 2
  | .exit => 1

/-- The same for a process. -/
def Status.weight : Status → ℕ
  | .shell code => (code.map Instr.weight).sum
  | .program _ => 1
  | .zombie => 0
  | .gone => 0

/-- The same for all of them. -/
def State.weight (s : State) : ℕ := (s.procs.map fun q => q.status.weight).sum

section Weight

variable {s s' : State} {p : ℕ} {q r : Process}

theorem Cmd.weight_pos (cmd : Cmd) : 3 ≤ cmd.weight := by
  cases cmd <;> simp only [Cmd.weight] <;> omega

theorem weight_runcmd (cmd : Cmd) : ((runcmd cmd).map Instr.weight).sum < cmd.weight := by
  cases cmd with
  | exec argv =>
    dsimp only [runcmd]
    split_ifs <;> simp [Instr.weight, Cmd.weight]
  | _ =>
    simp [runcmd, Instr.weight, Cmd.weight]
    try omega

theorem weight_pipeCode (left right : Cmd) (p0 p1 : ℕ) :
    ((pipeCode left right p0 p1).map Instr.weight).sum + 1 = (Instr.pipe left right).weight := by
  simp only [pipeCode, leftOps, rightOps, Instr.weight, List.map_cons, List.map_nil,
    List.sum_cons, List.sum_nil, List.length_cons, List.length_nil]
  omega

theorem sum_map_set (f : Process → ℕ) {l : List Process} (hp : l[p]? = some q) :
    ((l.set p r).map f).sum + f q = (l.map f).sum + f r := by
  induction l generalizing p with
  | nil => cases hp
  | cons a l ih =>
    cases p with
    | zero =>
      obtain rfl : a = q := by simpa using hp
      simp only [List.set_cons_zero, List.map_cons, List.sum_cons]
      omega
    | succ p =>
      have htail := ih (p := p) (by simpa using hp)
      simp only [List.set_cons_succ, List.map_cons, List.sum_cons]
      omega

theorem weight_setProc (hp : s.procs[p]? = some q) :
    (s.setProc p r).weight + q.status.weight = s.weight + r.status.weight :=
  sum_map_set (fun q => q.status.weight) hp

theorem weight_exit (hp : s.procs[p]? = some q) :
    (s.exit p q).weight + q.status.weight = s.weight := by
  have hset := weight_setProc (r := { q with fds := fun _ => none, status := .zombie }) hp
  have hsame : (s.exit p q).weight =
      (s.setProc p { q with fds := fun _ => none, status := .zombie }).weight := by
    unfold State.exit State.weight
    rw [List.map_map]
    refine congrArg List.sum (List.map_congr_left fun x _ => ?_)
    rw [Function.comp_apply]
    split_ifs <;> rfl
  rw [hsame]
  exact hset

theorem weight_fork (code : List Instr) :
    (s.fork p q code).weight = s.weight + (code.map Instr.weight).sum := by
  unfold State.fork State.weight
  simp [Status.weight]

/-- A call uses up some of the weight. -/
theorem weight_call {i : Instr} {rest : List Instr} {ok : Bool} (hp : s.procs[p]? = some q)
    (hstatus : q.status = .shell (i :: rest)) (hcall : s.call p q ok i rest = some s') :
    s'.weight < s.weight := by
  have hold : q.status.weight = i.weight + (rest.map Instr.weight).sum := by
    rw [hstatus]
    rfl
  -- the process goes on, and no other changes
  have hset {r : Process} (hr : some (s.setProc p r) = some s')
      (hlt : r.status.weight < q.status.weight) : s'.weight < s.weight := by
    have hweight := weight_setProc (r := r) hp
    rw [← Option.some.inj hr]
    omega
  have hfail (hr : some (s.setProc p { q with status := .shell [.exit] }) = some s')
      (hlt : 1 < i.weight) : s'.weight < s.weight :=
    hset hr (lt_of_lt_of_le hlt (by omega))
  cases i with
  | run cmd =>
    refine hset hcall ?_
    have hlt := weight_runcmd cmd
    rw [hold]
    change ((runcmd cmd).map Instr.weight).sum < cmd.weight + _
    omega
  | op op =>
    refine hset hcall ?_
    rw [hold]
    exact Nat.lt_add_of_pos_left one_pos
  | openFile file mode =>
    dsimp only [State.call] at hcall
    split at hcall
    · refine hset hcall ?_
      rw [hold]
      exact Nat.lt_add_of_pos_left two_pos
    · exact hfail hcall one_lt_two
  | pipe left right =>
    dsimp only [State.call] at hcall
    split at hcall
    · rename_i hpipe
      unfold State.pipe at hpipe
      obtain ⟨⟨p0, fds⟩, -, hrest⟩ := Option.bind_eq_some_iff.mp hpipe
      obtain ⟨⟨p1, fds'⟩, -, heq⟩ := Option.map_eq_some_iff.mp hrest
      obtain ⟨rfl, rfl⟩ := Prod.mk.inj heq
      have hweight := weight_setProc (s := { s with pipes := s.pipes + 1 })
        (r := { q with fds := fds', status := .shell (pipeCode left right p0 p1) }) hp
      have hsame : State.weight { s with pipes := s.pipes + 1 } = s.weight := rfl
      have hnew : (Status.shell (pipeCode left right p0 p1)).weight + 1 =
          (Instr.pipe left right).weight := weight_pipeCode left right p0 p1
      rw [← Option.some.inj hcall]
      rw [hsame, hold] at hweight
      dsimp only at hweight
      omega
    · exact hfail hcall (by simp only [Instr.weight]; omega)
  | fork1 child cmd =>
    have hpos := cmd.weight_pos
    dsimp only [State.call] at hcall
    split_ifs at hcall
    · have hp' : (s.fork p q (child.map .op ++ [.run cmd])).procs[p]? = some q := by
        unfold State.fork
        rwa [List.getElem?_append_left (List.getElem?_eq_some_iff.mp hp).1]
      have hweight := weight_setProc (r := { q with status := .shell rest }) hp'
      have hops : ((child.map Instr.op).map Instr.weight).sum = child.length := by
        have hone : Instr.weight ∘ Instr.op = fun _ => 1 := rfl
        rw [List.map_map, hone]
        simp
      rw [weight_fork, hold, List.map_append, List.sum_append, hops] at hweight
      rw [← Option.some.inj hcall]
      simp only [Status.weight, Instr.weight, List.map_cons, List.map_nil, List.sum_cons,
        List.sum_nil] at hweight
      omega
    · exact hfail hcall (by simp only [Instr.weight]; omega)
  | wait =>
    dsimp only [State.call] at hcall
    split_ifs at hcall
    refine hset hcall ?_
    rw [hold]
    exact Nat.lt_add_of_pos_left one_pos
  | exec argv =>
    dsimp only [State.call] at hcall
    split_ifs at hcall
    · refine hset hcall ?_
      rw [hold]
      exact Nat.lt_add_right _ one_lt_two
    · refine hset hcall ?_
      rw [hold]
      exact Nat.lt_add_of_pos_left two_pos
  | exit =>
    have hweight := weight_exit hp
    rw [← Option.some.inj hcall]
    rw [hold] at hweight
    have hone : Instr.exit.weight = 1 := rfl
    omega

/-- Every step uses up some of the weight. -/
theorem weight_step {a : Action} (hstep : step s a = some s') : s'.weight < s.weight := by
  cases a with
  | call p ok =>
    obtain ⟨q, hp, hcall⟩ := Option.bind_eq_some_iff.mp hstep
    split at hcall
    · exact weight_call hp ‹_› hcall
    · cases hcall
  | reap p c =>
    obtain ⟨q, hp, hrest⟩ := Option.bind_eq_some_iff.mp hstep
    obtain ⟨r, hc, hreap⟩ := Option.bind_eq_some_iff.mp hrest
    split at hreap
    · rename_i rest hstatus
      split_ifs at hreap with hzombie
      have hpc : p ≠ c := by
        rintro rfl
        rw [hp] at hc
        rw [Option.some.inj hc, hzombie.2] at hstatus
        cases hstatus
      have hp' : (s.setProc c { r with parent := none, status := .gone }).procs[p]? = some q := by
        rwa [getElem?_setProc hc, if_neg hpc]
      have hparent := weight_setProc (r := { q with status := .shell rest }) hp'
      have hchild := weight_setProc (r := { r with parent := none, status := .gone }) hc
      rw [hstatus] at hparent
      rw [hzombie.2] at hchild
      rw [← Option.some.inj hreap]
      simp only [Status.weight, List.map_cons, List.sum_cons, Instr.weight] at hparent hchild
      omega
    · cases hreap
  | done p =>
    obtain ⟨q, hp, hdone⟩ := Option.bind_eq_some_iff.mp hstep
    split at hdone
    · rename_i argv hstatus
      have hweight := weight_exit hp
      rw [hstatus] at hweight
      rw [← Option.some.inj hdone]
      have hone : (Status.program argv).weight = 1 := rfl
      omega
    · cases hdone

end Weight

/-! ## What the parser returns -/

theorem Redirs.fd_lt {ts : List Token} {rs : List Redirection} (h : Redirs ts rs) :
    ∀ r ∈ rs, r.fd < 2 := by
  induction h with
  | nil => simp
  | @cons y w r ts rs hr _ ih =>
    intro r' hr'
    rcases List.mem_cons.mp hr' with rfl | hr'
    · cases y <;> simp only [redirection, Option.some.injEq, reduceCtorEq] at hr <;> subst hr <;>
        simp
    · exact ih r' hr'

theorem Args.fd_lt {ts : List Token} {ws : List Word} {rs : List Redirection}
    (h : Args ts ws rs) : ∀ r ∈ rs, r.fd < 2 := by
  induction h with
  | nil => simp
  | cons hrs _ ih =>
    intro r hr
    rcases List.mem_append.mp hr with hr | hr
    · exact hrs.fd_lt r hr
    · exact ih r hr

theorem Cmd.Standard.wraps {cmd : Cmd} (h : cmd.Standard) {rs : List Redirection}
    (hrs : ∀ r ∈ rs, r.fd < 2) : (cmd.wraps rs).Standard := by
  induction rs generalizing cmd with
  | nil => exact h
  | cons r rs ih =>
    have hwrap : (cmd.wrap r).Standard := ⟨hrs r (by simp), h⟩
    exact ih hwrap fun r' hr' => hrs r' (by simp [hr'])

theorem Cmd.Standard.backs {cmd : Cmd} (h : cmd.Standard) (k : ℕ) : (cmd.backs k).Standard := by
  induction k generalizing cmd with
  | zero => exact h
  | succ k ih =>
    have hback : (Cmd.back cmd).Standard := h
    exact ih hback

/-- The grammar only redirects the descriptors 0 and 1. -/
theorem Derives.standard {kind : Kind} {ts : List Token} {cmd : Cmd} (h : Derives kind ts cmd) :
    cmd.Standard := by
  induction h with
  | block _ hrs ih => exact ih.wraps hrs.fd_lt
  | @words _ _ ws _ _ hrs hargs _ =>
    have hexec : (Cmd.exec ws).Standard := trivial
    refine hexec.wraps fun r hr => ?_
    rcases List.mem_append.mp hr with hr | hr
    · exact hrs.fd_lt r hr
    · exact hargs.fd_lt r hr
  | exec _ ih => exact ih
  | bar _ _ ihl ihr => exact ⟨ihl, ihr⟩
  | pipe _ ih => exact ih.backs _
  | semi _ _ ihl ihr => exact ⟨ihl.backs _, ihr⟩

theorem standard_of_parsecmd {str : Ptr} {cmd : Cmd} {mem : ℕ → UInt8} (hnul : 0 ∉ str)
    (hparse : parsecmd str = .ok (cmd, mem)) : cmd.Standard := by
  have hdepth : 4 * (tokens str).length + 4 ≤ depth str := by
    have := length_tokens_le str
    unfold depth
    omega
  rcases (yields_parse (depth str) ⟨hnul, rfl⟩).1 hdepth with
    ⟨message, herror⟩ | ⟨us, rest, c, s', hD, -, -, hline⟩
  · rw [parsecmd, herror] at hparse
    cases hparse
  · rw [parsecmd, hline] at hparse
    simp only [bind, Except.bind] at hparse
    split_ifs at hparse
    cases hparse
    exact hD.standard

/-! ## The whole command -/

/-- The descriptors of the shell. -/
def shellFds : Fds := fun fd => if fd.val < 3 then some (.given fd) else none

theorem three_shellFds : shellFds.Three := by
  intro fd
  unfold shellFds
  split_ifs with h <;> simp [h]

theorem inv_start (cmd : Cmd) (fds : Fds) : Inv [] cmd fds (start cmd fds) := by
  have honly (p : ℕ) (q : Process) (hp : (start cmd fds).procs[p]? = some q) :
      p = 0 ∧ q = ⟨none, fds, .shell [.run cmd]⟩ := by
    unfold start at hp
    rw [List.getElem?_singleton] at hp
    split_ifs at hp with hzero
    exact ⟨hzero, (Option.some.inj hp).symm⟩
  refine ⟨rfl, fun p q hp => ?_, fun p q k hp hk => ?_⟩
  · obtain ⟨rfl, rfl⟩ := honly p q hp
    exact .now .root
  · obtain ⟨-, rfl⟩ := honly p q hp
    cases hk

/-- In a run the invariant holds, and the steps are paid for. -/
theorem inv_of_run {cmd : Cmd} {fds : Fds} (hfds : fds.Three) (hcmd : cmd.Standard)
    {trace : List Action} {s : State}
    (hrun : GuardedRun.Run step GuardedRun.free (start cmd fds) trace s) :
    (∃ made, Inv made cmd fds s) ∧ trace.length + s.weight ≤ cmd.weight := by
  refine hrun.invariant (I := fun trace s => (∃ made, Inv made cmd fds s) ∧
    trace.length + s.weight ≤ cmd.weight) ⟨⟨[], inv_start cmd fds⟩, ?_⟩
    fun trace s a s' h _ hstep => ?_
  · simp [start, State.weight, Status.weight, Instr.weight]
  · obtain ⟨⟨made, hinv⟩, hle⟩ := h
    have hlt := weight_step hstep
    refine ⟨hinv.step hfds hcmd hstep, ?_⟩
    rw [List.length_cons]
    omega

/-- The shell runs a line as it reads, whatever calls fail and however the processes take turns.
A program has three descriptors, those that the redirections and pipes above it in the tree give
it; an end of a pipe that it has is an end of its own side of that pipe. A process that waits has no
descriptors besides, so that nothing keeps a pipe open that is done with; one that has exited has
none. A command begins when all that its process has started before has exited. As long as some
process has not exited, some process can take a step, and every run ends within a bound. -/
theorem line_plumbed {str : Ptr} {cmd : Cmd} {mem : ℕ → UInt8} (hnul : 0 ∉ str)
    (hparse : parsecmd str = .ok (cmd, mem)) {trace : List Action} {s : State}
    (hrun : GuardedRun.Run step GuardedRun.free (start cmd shellFds) trace s) :
    (∃ made : Made, made.length = s.pipes ∧ ∀ p q, s.procs[p]? = some q →
      (∀ argv, q.status = .program argv →
        q.fds.Three ∧ Wired made cmd shellFds (.exec argv) q.fds ∧
        ∀ fd n w, q.fds fd = some (.pipe n w) → ∃ left right fds,
          made[n]? = some (left, right, fds) ∧
          if w then Wired made left (fds.put 1 (.pipe n true)) (.exec argv) q.fds
          else Wired made right (fds.put 0 (.pipe n false)) (.exec argv) q.fds) ∧
      (∀ rest, q.status = .shell (.wait :: rest) → q.fds.Three) ∧
      (q.status = .zombie ∨ q.status = .gone → ∀ fd, q.fds fd = none) ∧
      ∀ c rest, q.status = .shell (.run c :: rest) → s.children p = 0) ∧
    ((∃ q ∈ s.procs, q.status ≠ .zombie ∧ q.status ≠ .gone) → ∃ a s', step s a = some s') ∧
    trace.length ≤ cmd.weight := by
  have hcmd := standard_of_parsecmd hnul hparse
  obtain ⟨⟨made, h⟩, hle⟩ := inv_of_run three_shellFds hcmd hrun
  refine ⟨⟨made, h.pipes, fun p q hp => ⟨fun argv hstatus => ?_, fun rest hstatus => ?_,
    fun hstatus => ?_, fun c rest hstatus => ?_⟩⟩, ?_, by omega⟩
  · have hshape := h.shape p q hp
    rw [hstatus] at hshape
    have hw := hshape.wired_program
    refine ⟨(hw.three three_shellFds hcmd).1, hw, fun fd n w hfd => hw.of_pipe (fun fd => ?_) hfd⟩
    unfold shellFds
    split_ifs <;> simp
  · have hshape := h.shape p q hp
    rw [hstatus] at hshape
    obtain ⟨-, ⟨c, hw⟩, -⟩ := hshape.wait_next
    exact (hw.three three_shellFds hcmd).1
  · exact (h.shape p q hp).fds_none hstatus
  · have hshape := h.shape p q hp
    rw [hstatus] at hshape
    exact hshape.run_children.1
  · rintro ⟨q, hq, hlive⟩
    obtain ⟨p, hp⟩ := List.mem_iff_getElem?.mp hq
    exact h.progress s.procs.length hp (by omega) hlive

/-- `a|b`, up to the program `a`. -/
def leftOfBar : List Action :=
  [.call 0 true, .call 0 true, .call 0 true, .call 0 true, .call 1 true, .call 1 true,
    .call 1 true, .call 1 true, .call 1 true, .call 1 true]

theorem line_plumbed_bar : ∃ s q,
    GuardedRun.exec step GuardedRun.free []
      (start (.pipe (.exec [⟨[97, 124, 98], [124, 98]⟩]) (.exec [⟨[98], []⟩])) shellFds)
      leftOfBar = some s ∧
    s.procs[1]? = some q ∧ q.fds.Three ∧ q.fds 1 = some (.pipe 0 true) := by
  have hparse : ∃ mem, parsecmd [97, 124, 98] =
      .ok (.pipe (.exec [⟨[97, 124, 98], [124, 98]⟩]) (.exec [⟨[98], []⟩]), mem) := ⟨_, rfl⟩
  obtain ⟨mem, hparse⟩ := hparse
  have hexec : ((GuardedRun.exec step GuardedRun.free []
      (start (.pipe (.exec [⟨[97, 124, 98], [124, 98]⟩]) (.exec [⟨[98], []⟩])) shellFds)
      leftOfBar).bind fun s => s.procs[1]?.map fun q =>
        decide (q.status = .program [⟨[97, 124, 98], [124, 98]⟩] ∧
          q.fds 1 = some (.pipe 0 true))) = some true := by decide +kernel
  obtain ⟨s, hs, hrest⟩ := Option.bind_eq_some_iff.mp hexec
  obtain ⟨q, hq, hd⟩ := Option.map_eq_some_iff.mp hrest
  obtain ⟨hstatus, hfd⟩ := of_decide_eq_true hd
  obtain ⟨⟨made, -, hall⟩, -⟩ := line_plumbed (by decide) hparse (GuardedRun.run_of_exec hs)
  exact ⟨s, q, hs, hq, ((hall 1 q hq).1 _ hstatus).1, hfd⟩

end Xv6.Shell
