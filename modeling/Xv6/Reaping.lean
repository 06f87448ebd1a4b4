import Xv6.ProcessTable

/-!
# Every child is reaped at most once

The events of a run describe a family tree: `fork` adds a child under its parent, `exit` marks
a process and passes its children to init, `wait` removes a child. The process table always
agrees with that tree, so `wait` returns the pids of exited children of its caller, each once.
No process sleeps in `wait` next to a zombie child.
-/

namespace Xv6.Cpus

open GuardedRun PTable
open ProcessRun (ForkPc)

/-! ## The tree that the events describe -/

/-- A child that was created and not reaped. -/
structure Member where
  /-- The pid that `fork` returned. -/
  pid : ℤ
  /-- The forker, or init after the forker has exited. -/
  parent : Slot
  /-- The child has called `exit`. -/
  exited : Bool
  deriving DecidableEq

/-- `q` exits: its children pass to init. -/
def Member.after (init q j : Slot) (m : Member) : Member :=
  { m with parent := if m.parent = q then init else m.parent, exited := m.exited || j = q }

/-- The children that a log leaves, the latest event first. -/
def family (init : Slot) : List Event → Slot → Option Member
  | [], _ => none
  | .forked p i pid :: log, j => if j = i then some ⟨pid, p, false⟩ else family init log j
  | .exited q :: log, j => (family init log j).map (Member.after init q j)
  | .reaped _ i _ :: log, j => if j = i then none else family init log j

/-- Every event of a log was possible in the tree before it: `fork` takes a slot that has no
child, and `wait` reaps a child of its caller that has exited. -/
def Legal (init : Slot) : List Event → Prop
  | [] => True
  | .forked _ i _ :: log => family init log i = none ∧ Legal init log
  | .exited _ :: log => Legal init log
  | .reaped p i pid :: log => family init log i = some ⟨pid, p, true⟩ ∧ Legal init log

/-- The event is a return of `pid` by `fork`. -/
def Event.forks (pid : ℤ) : Event → Bool
  | .forked _ _ k => k = pid
  | _ => false

/-- The event is a return of `pid` by `wait`. -/
def Event.reaps (pid : ℤ) : Event → Bool
  | .reaped _ _ k => k = pid
  | _ => false

section

variable {init : Slot} {log later earlier : List Event}

/-- In a legal log, what `wait` reaps is a child of its caller that has exited. -/
theorem Legal.reaped (h : Legal init log) {p i : Slot} {pid : ℤ}
    (hlog : log = later ++ .reaped p i pid :: earlier) :
    family init earlier i = some ⟨pid, p, true⟩ := by
  induction later generalizing log with
  | nil =>
    subst hlog
    exact h.1
  | cons e later ih =>
    subst hlog
    cases e with
    | forked _ _ _ => exact ih h.2 rfl
    | exited _ =>
      have hlegal : Legal init (later ++ .reaped p i pid :: earlier) := h
      exact ih hlegal rfl
    | reaped _ _ _ => exact ih h.2 rfl

/-- The slots whose child has a pid. -/
def holders (init : Slot) (log : List Event) (pid : ℤ) : Finset Slot :=
  Finset.univ.filter fun i => (family init log i).map Member.pid = some pid

theorem mem_holders {pid : ℤ} {i : Slot} :
    i ∈ holders init log pid ↔ (family init log i).map Member.pid = some pid := by
  simp [holders]

/-- Every return of a pid by `fork` is matched by one return of it by `wait`, or by a child
that has not been reaped. -/
theorem Legal.forks_eq (h : Legal init log) (pid : ℤ) :
    log.countP (Event.forks pid) =
      log.countP (Event.reaps pid) + (holders init log pid).card := by
  induction log with
  | nil => simp [holders, family]
  | cons e log ih =>
    cases e with
    | forked p i k =>
      obtain ⟨hnone, hlegal⟩ := h
      by_cases hk : k = pid
      · have hholders : holders init (.forked p i k :: log) pid =
            insert i (holders init log pid) := by
          ext j
          simp only [mem_holders, family, Finset.mem_insert]
          split_ifs with hj <;> simp [hj, hk]
        have hnew : i ∉ holders init log pid := by simp [mem_holders, hnone]
        rw [hholders, Finset.card_insert_of_notMem hnew]
        simp only [List.countP_cons, Event.forks, Event.reaps, hk, decide_true, if_true]
        have := ih hlegal
        simp
        omega
      · have hholders : holders init (.forked p i k :: log) pid = holders init log pid := by
          ext j
          simp only [mem_holders, family]
          split_ifs with hj <;> simp [hj, hk, hnone]
        rw [hholders]
        simpa [List.countP_cons, Event.forks, Event.reaps, hk] using ih hlegal
    | exited q =>
      have hholders : holders init (.exited q :: log) pid = holders init log pid := by
        ext j
        simp only [mem_holders, family, Option.map_map]
        have hpid : Member.pid ∘ Member.after init q j = Member.pid := rfl
        rw [hpid]
      rw [hholders]
      simpa [List.countP_cons, Event.forks, Event.reaps] using ih h
    | reaped p i k =>
      obtain ⟨hsome, hlegal⟩ := h
      by_cases hk : k = pid
      · have hholders : holders init (.reaped p i k :: log) pid =
            (holders init log pid).erase i := by
          ext j
          simp only [mem_holders, family, Finset.mem_erase]
          split_ifs with hj <;> simp [hj]
        have hold : i ∈ holders init log pid := by simp [mem_holders, hsome, hk]
        have hcard := Finset.card_erase_add_one hold
        rw [hholders]
        have := ih hlegal
        simp [Event.forks, Event.reaps, hk]
        omega
      · have hholders : holders init (.reaped p i k :: log) pid = holders init log pid := by
          ext j
          simp only [mem_holders, family]
          split_ifs with hj
          · subst hj
            simp [hsome, hk]
          · rfl
        rw [hholders]
        simpa [List.countP_cons, Event.forks, Event.reaps, hk] using ih hlegal

end

/-! ## The tree in the process table -/

/-- The slot holds a process that has been created and not reaped. -/
def created : ProcState → Bool
  | .unused | .embryo => false
  | _ => true

/-- The child that a slot holds. -/
def member (t : PTable) (i : Slot) : Option Member :=
  if created (t.proc i).state = true then
    (t.proc i).parent.map fun p => ⟨(t.proc i).pid, p, (t.proc i).state = .zombie⟩
  else none

/-- The second table holds the same processes, in the same families. -/
structure Same (t t' : PTable) : Prop where
  /-- `initproc` stays. -/
  initproc : t'.initproc = t.initproc
  /-- The same slots hold a process. -/
  created : ∀ j, created (t'.proc j).state = created (t.proc j).state
  /-- The same processes have exited. -/
  zombie : ∀ j, (t'.proc j).state = .zombie ↔ (t.proc j).state = .zombie
  /-- Parents and pids stay. -/
  fields : ∀ j, Cpus.created (t.proc j).state = true →
    (t'.proc j).parent = (t.proc j).parent ∧ (t'.proc j).pid = (t.proc j).pid

theorem Same.refl (t : PTable) : Same t t :=
  ⟨rfl, fun _ => rfl, fun _ => Iff.rfl, fun _ _ => ⟨rfl, rfl⟩⟩

theorem Same.member {t t' : PTable} (h : Same t t') (j : Slot) : member t' j = member t j := by
  unfold Cpus.member
  rw [h.created j]
  split_ifs with hj
  · obtain ⟨hparent, hpid⟩ := h.fields j hj
    simp only [hparent, hpid, h.zombie j]
  · rfl

/-- A change of one slot that keeps the process in it, if there is one. -/
theorem same_modify {t : PTable} {i : Slot} {f : Proc → Proc}
    (hcreated : created (f (t.proc i)).state = created (t.proc i).state)
    (hzombie : (f (t.proc i)).state = .zombie ↔ (t.proc i).state = .zombie)
    (hfields : created (t.proc i).state = true →
      (f (t.proc i)).parent = (t.proc i).parent ∧ (f (t.proc i)).pid = (t.proc i).pid) :
    Same t (t.modify i f) := by
  refine ⟨rfl, fun j => ?_, fun j => ?_, fun j hj => ?_⟩ <;> rw [modify_proc]
  · split_ifs with h
    · rwa [h]
    · rfl
  · split_ifs with h
    · rwa [h]
    · rfl
  · split_ifs with h
    · subst h
      exact hfields hj
    · exact ⟨rfl, rfl⟩

theorem same_wakes {t t' : PTable} (hwakes : Wakes t t')
    (hparent : ∀ j, (t'.proc j).parent = (t.proc j).parent) : Same t t' := by
  refine ⟨hwakes.initproc, fun j => ?_, fun j => ?_, fun j _ => ⟨hparent j, hwakes.pid j⟩⟩
  · rcases hwakes.state j with hsame | ⟨hsleeping, hwoken⟩
    · rw [hsame]
    · rw [hsleeping, hwoken]
      rfl
  · rcases hwakes.state j with hsame | ⟨hsleeping, hwoken⟩
    · rw [hsame]
    · simp [hsleeping, hwoken]

variable {C : Type*} [DecidableEq C]

/-- The table agrees with the tree of the events, and nobody waits next to a zombie child. -/
structure Tree (r : Slot) (s : State C) : Prop where
  /-- `r` is init. -/
  root : s.table.initproc = some r
  /-- Init has no parent. -/
  rootless : (s.table.proc r).parent = none
  /-- Nobody is its own parent. -/
  noSelf : ∀ i, created (s.table.proc i).state = true → (s.table.proc i).parent ≠ some i
  /-- The events describe the table. -/
  recorded : ∀ i, family r s.log i = member s.table i
  /-- The events were possible. -/
  legal : Legal r s.log
  /-- Who sleeps in `wait` sleeps on its own slot. -/
  asleep : ∀ i, (s.table.proc i).state = .sleeping → s.pc i = .wait →
    (s.table.proc i).chan = some (.proc i)
  /-- Who sleeps in `wait` has no zombie child. -/
  childless : ∀ i j, (s.table.proc i).state = .sleeping → s.pc i = .wait →
    (s.table.proc j).parent = some i → (s.table.proc j).state ≠ .zombie

section

variable {r cur : Slot} {c : C} {s : State C}

omit [DecidableEq C] in
/-- Steps without an event, after which no more processes sleep in `wait`. -/
theorem Tree.same (h : Tree r s) (hinit : created (s.table.proc r).state = true) {s' : State C}
    (hsame : Same s.table s'.table) (hlog : s'.log = s.log)
    (hasleep : ∀ i, (s'.table.proc i).state = .sleeping → s'.pc i = .wait →
      (s.table.proc i).state = .sleeping ∧ s.pc i = .wait ∧
        (s'.table.proc i).chan = (s.table.proc i).chan) : Tree r s' where
  root := hsame.initproc.trans h.root
  rootless := (hsame.fields r hinit).1.trans h.rootless
  noSelf := by
    intro i hi
    rw [hsame.created i] at hi
    rw [(hsame.fields i hi).1]
    exact h.noSelf i hi
  recorded := by
    intro i
    rw [hlog, hsame.member i]
    exact h.recorded i
  legal := hlog ▸ h.legal
  asleep := by
    intro i hi hpc
    obtain ⟨hold, holdpc, hchan⟩ := hasleep i hi hpc
    rw [hchan]
    exact h.asleep i hold holdpc
  childless := by
    intro i j hi hpc hparent hzombie
    obtain ⟨hold, holdpc, -⟩ := hasleep i hi hpc
    have hzombie' := (hsame.zombie j).mp hzombie
    have hcreated : created (s.table.proc j).state = true := by rw [hzombie']; rfl
    rw [(hsame.fields j hcreated).1] at hparent
    exact h.childless i j hold holdpc hparent hzombie'

/-- What one scan of `wait` does, and which child it reaps. -/
theorem wait_cases (t : PTable) (cur : Slot) :
    (∃ i, zombieChild t cur = some i ∧ (t.proc i).parent = some cur ∧
      (t.proc i).state = .zombie ∧ t.wait cur = .reaped (t.proc i).pid (t.modify i fun p =>
        { p with
          kstack := 0, pid := 0, parent := none, name := "", killed := 0, state := .unused })) ∨
      (∀ j, (t.proc j).parent = some cur → (t.proc j).state ≠ .zombie) ∧
        (t.wait cur = .fail ∨ t.wait cur = .sleeps (t.sleep cur (some (.proc cur)))) := by
  unfold PTable.wait zombieChild
  cases hfind : t.findSlot fun p => p.parent == some cur && p.state == .zombie with
  | some i =>
    have hchild := findSlot_some hfind
    simp only [Bool.and_eq_true, beq_iff_eq] at hchild
    exact .inl ⟨i, rfl, hchild.1, hchild.2, rfl⟩
  | none =>
    have hnone := findSlot_eq_none.mp hfind
    refine .inr ⟨fun j hparent hzombie => ?_, ?_⟩
    · have hj := hnone j
      simp [hparent, hzombie] at hj
    · dsimp only
      split_ifs
      · exact .inl rfl
      · exact .inr rfl

/-- The last section of `fork` adds the child to the tree. -/
theorem Tree.forkRunnable (h : Tree r s) (hinv : Inv s) {np : Slot}
    (henabled : Enabled s (.forkRunnable c cur np)) :
    Tree r (effect s (.forkRunnable c cur np)) := by
  obtain ⟨⟨hcpu, hpc⟩, hfork, -⟩ := henabled
  have hembryo := hinv.forks.child cur np (by simp [hfork, ForkPc.child])
  have hparent := (hinv.forks.copied cur np hfork).2.2
  have hrunning := hinv.cpus.running c cur hcpu
  have hcur : cur ≠ np := by
    rintro rfl
    simp [hrunning] at hembryo
  obtain ⟨r', hr', halive⟩ := hinv.families.init
  have hrr : r' = r := Option.some.inj (hr'.symm.trans h.root)
  have hne : r ≠ np := by
    rintro rfl
    rw [hrr] at halive
    simp [Alive, hembryo] at halive
  have hnone : family r s.log np = none := by
    rw [h.recorded np]
    simp [member, created, hembryo]
  simp only [Cpus.effect, State.setForkPc, PTable.forkRunnable]
  refine ⟨h.root, ?_, fun i hi => ?_, fun i => ?_, ⟨hnone, h.legal⟩, fun i hi hwait => ?_,
    fun i j hi hwait hj => ?_⟩ <;> simp only [modify_proc] at *
  · rw [if_neg hne]
    exact h.rootless
  · split_ifs at hi ⊢ with heq
    · rw [heq, hparent]
      simpa using hcur
    · exact h.noSelf i hi
  · simp only [family, member, modify_proc]
    split_ifs with heq h1 h2
    · simp [heq, hparent]
    · simp [created] at h1
    · exact (h.recorded i).trans (if_pos h2)
    · exact (h.recorded i).trans (if_neg h2)
  · split_ifs at hi ⊢ with heq
    exact h.asleep i hi hwait
  · split_ifs at hi hj ⊢ with h1 h2
    · simp
    · exact h.childless i j hi hwait hj

omit [DecidableEq C] in
/-- `wait` removes the child it reaps from the tree. -/
theorem Tree.reap (h : Tree r s) {i : Slot} (hparent : (s.table.proc i).parent = some cur)
    (hzombie : (s.table.proc i).state = .zombie) :
    Tree r ({ s with
      table := s.table.modify i fun p =>
        { p with kstack := 0, pid := 0, parent := none, name := "", killed := 0, state := .unused }
      lock := none
      log := .reaped cur i (s.table.proc i).pid :: s.log }.setPc cur .outside) := by
  have hsome : family r s.log i = some ⟨(s.table.proc i).pid, cur, true⟩ := by
    rw [h.recorded i]
    simp [member, created, hzombie, hparent]
  simp only [State.setPc]
  refine ⟨h.root, ?_, fun j hj => ?_, fun j => ?_, ⟨hsome, h.legal⟩, fun j hj hwait => ?_,
    fun j k hj hwait hk => ?_⟩ <;> simp only [modify_proc] at *
  · split_ifs
    · rfl
    · exact h.rootless
  · split_ifs at hj ⊢
    · simp
    · exact h.noSelf j hj
  · simp only [family, member, modify_proc]
    split_ifs with heq h1 h2
    · rfl
    · rfl
    · exact (h.recorded j).trans (if_pos h2)
    · exact (h.recorded j).trans (if_neg h2)
  · split_ifs at hj hwait ⊢
    exact h.asleep j hj hwait
  · split_ifs at hj hwait hk ⊢
    exact h.childless j k hj hwait hk

omit [DecidableEq C] in
/-- `exit` marks its caller in the tree and passes its children to init. -/
theorem Tree.exitMember (h : Tree r s) (hcur : created (s.table.proc cur).state = true)
    {t : PTable} (habandons : Abandons cur s.table t) {f : Proc → Proc}
    (hstate : (f (t.proc cur)).state = .zombie)
    (hparent : (f (t.proc cur)).parent = (t.proc cur).parent)
    (hpid : (f (t.proc cur)).pid = (t.proc cur).pid) (j : Slot) :
    member (t.modify cur f) j = (member s.table j).map (Member.after r cur j) := by
  obtain ⟨hwakes, hparents, -, -⟩ := habandons
  have hcreated : created (t.proc j).state = created (s.table.proc j).state := by
    rcases hwakes.state j with hsame | ⟨hsleeping, hwoken⟩
    · rw [hsame]
    · rw [hsleeping, hwoken]
      rfl
  have hzombie : (t.proc j).state = .zombie ↔ (s.table.proc j).state = .zombie := by
    rcases hwakes.state j with hsame | ⟨hsleeping, hwoken⟩
    · rw [hsame]
    · simp [hsleeping, hwoken]
  unfold member
  rw [modify_proc]
  by_cases hj : j = cur
  · subst hj
    have hexited : created .zombie = true := rfl
    rw [if_pos rfl, hstate, if_pos hexited, if_pos hcur, hparent, hparents j, hpid, hwakes.pid j,
      h.root]
    cases hold : (s.table.proc j).parent with
    | none => simp
    | some p =>
      by_cases hp : p = j <;> simp [Member.after, hp]
  · rw [if_neg hj, hcreated]
    split_ifs
    · rw [hparents j, hwakes.pid j, h.root]
      cases hold : (s.table.proc j).parent with
      | none => simp
      | some p =>
        by_cases hp : p = cur <;> simp [Member.after, hp, hzombie, hj]
    · rfl

/-- `exit` keeps the tree. -/
theorem Tree.exit (h : Tree r s) (hinv : Inv s) (henabled : Enabled s (.exit c cur)) :
    Tree r (effect s (.exit c cur)) := by
  obtain ⟨⟨⟨hcpu, -⟩, -, -⟩, hinit⟩ := henabled
  have habandons := abandons_exitFamily hinit
  have hrunning := hinv.cpus.running c cur hcpu
  have hcur : created (s.table.proc cur).state = true := by
    rw [hrunning]
    rfl
  simp only [Cpus.effect, PTable.exit]
  generalize s.table.exitFamily cur = t at habandons ⊢
  have hmember := h.exitMember hcur habandons (f := fun p =>
    { p with
      state := .zombie
      turnAroundTime := wrapUint ((s.table.ticks : ℤ) - p.turnAroundTime) }) rfl rfl rfl
  obtain ⟨hwakes, hparents, hparentWoken, hinitWoken⟩ := habandons
  have hne : r ≠ cur := by
    rintro rfl
    exact hinit h.root
  have hself := h.noSelf cur hcur
  have hasleep : ∀ i, i ≠ cur → (t.proc i).state = .sleeping → s.pc i = .wait →
      (s.table.proc i).state = .sleeping ∧ (s.table.proc i).chan = some (.proc i) := by
    intro i hi hsleep hwait
    rcases hwakes.state i with hsame | ⟨-, hwoken⟩
    · rw [hsame] at hsleep
      exact ⟨hsleep, h.asleep i hsleep hwait⟩
    · rw [hwoken] at hsleep
      cases hsleep
  have hcreated : ∀ j, created (t.proc j).state = created (s.table.proc j).state := by
    intro j
    rcases hwakes.state j with hsame | ⟨hsleeping, hwoken⟩
    · rw [hsame]
    · rw [hsleeping, hwoken]
      rfl
  simp only [State.sched, State.setPc, State.setCpu]
  refine ⟨hwakes.initproc.trans h.root, ?_, fun i hi => ?_, fun i => ?_, h.legal,
    fun i hi hwait => ?_, fun i j hi hwait hj => ?_⟩
  · simp only [modify_proc, if_neg hne, hparents r, h.rootless]
    simp
  · have hold : created (s.table.proc i).state = true := by
      simp only [modify_proc] at hi
      split_ifs at hi with heq
      · rw [heq]
        exact hcur
      · rwa [← hcreated i]
    have hparent : ((t.modify cur fun p =>
        { p with
          state := .zombie
          turnAroundTime := wrapUint ((s.table.ticks : ℤ) - p.turnAroundTime) }).proc i).parent =
        if (s.table.proc i).parent = some cur then s.table.initproc
        else (s.table.proc i).parent := by
      rw [← hparents i, modify_proc]
      split_ifs <;> rfl
    rw [hparent, h.root]
    split_ifs with hchild
    · intro heq
      have hir : r = i := by simpa using heq
      rw [← hir, h.rootless] at hchild
      cases hchild
    · exact h.noSelf i hold
  · rw [hmember i]
    simp only [family, h.recorded i]
  · simp only [modify_proc] at hi hwait ⊢
    split_ifs at hi hwait ⊢ with heq
    rw [hwakes.chan i]
    exact (hasleep i heq hi hwait).2
  · simp only [modify_proc] at hi hwait hj ⊢
    split_ifs at hi hwait with heq
    obtain ⟨hsleep, hchan⟩ := hasleep i heq hi hwait
    split_ifs at hj ⊢ with hjcur
    · -- the caller has woken its parent
      exfalso
      subst hjcur
      rw [hparents j, if_neg hself] at hj
      exact hparentWoken i hi (by rw [hchan, hj]; rfl)
    · intro hzombie
      have hold : (s.table.proc j).state = .zombie := by
        rcases hwakes.state j with hsame | ⟨-, hwoken⟩
        · rwa [← hsame]
        · rw [hwoken] at hzombie
          cases hzombie
      rw [hparents j] at hj
      split_ifs at hj with hchild
      · -- init has been woken for the zombies it inherits
        exact hinitWoken j hchild hold i hi (by rw [hchan, hj]; rfl)
      · exact h.childless i j hsleep hwait hj hold

/-- A scan of `wait` keeps the tree. -/
theorem Tree.scan (h : Tree r s) (hinv : Inv s) (hinit : created (s.table.proc r).state = true)
    (henabled : Enabled s (.scan c cur)) : Tree r (effect s (.scan c cur)) := by
  have hrunning := hinv.cpus.running c cur henabled.1
  simp only [Cpus.effect]
  rcases wait_cases s.table cur with ⟨i, hfind, hparent, hzombie, hwait⟩ | ⟨hnone, hwait | hwait⟩
  · simp only [hwait, hfind]
    exact h.reap hparent hzombie
  · simp only [hwait]
    refine h.same hinit (.refl s.table) rfl fun i hi hpc => ?_
    simp only [State.setPc] at hi hpc ⊢
    split_ifs at hpc
    exact ⟨hi, hpc, trivial⟩
  · simp only [hwait]
    have hsame : Same s.table (s.table.sleep cur (some (.proc cur))) := by
      refine same_modify ?_ ?_ fun _ => ⟨rfl, rfl⟩
      · rw [hrunning]
        rfl
      · simp [hrunning]
    -- the caller falls asleep on its own slot, and the scan has met no zombie child
    refine ⟨hsame.initproc.trans h.root, (hsame.fields r hinit).1.trans h.rootless,
      fun i hi => ?_, fun i => (h.recorded i).trans (hsame.member i).symm, h.legal,
      fun i hi hpc => ?_, fun i j hi hpc hj hzombie => ?_⟩ <;>
      simp only [State.sched, State.setPc, State.setCpu] at *
    · rw [hsame.created i] at hi
      rw [(hsame.fields i hi).1]
      exact h.noSelf i hi
    · simp only [PTable.sleep, modify_proc] at hi ⊢
      split_ifs at hi hpc ⊢ with heq
      · rw [heq]
      · exact h.asleep i hi hpc
    · have hold := (hsame.zombie j).mp hzombie
      have hcreated : created (s.table.proc j).state = true := by rw [hold]; rfl
      rw [(hsame.fields j hcreated).1] at hj
      simp only [PTable.sleep, modify_proc] at hi
      split_ifs at hi hpc with heq
      · exact hnone j (heq ▸ hj) hold
      · exact h.childless i j hi hpc hj hold

/-- Every step keeps the tree. -/
theorem Tree.effect (h : Tree r s) (hinv : Inv s) {a : Action C} (henabled : Enabled s a) :
    Tree r (effect s a) := by
  have hrunning : ∀ {c cur}, s.cpu c = some cur → (s.table.proc cur).state = .running :=
    fun hcpu => hinv.cpus.running _ _ hcpu
  have hinit : created (s.table.proc r).state = true := by
    obtain ⟨r', hr', halive⟩ := hinv.families.init
    have hrr : r' = r := Option.some.inj (hr'.symm.trans h.root)
    rw [hrr] at halive
    rcases halive with halive | halive | halive <;> rw [halive] <;> rfl
  cases a with
  | allocproc c cur np =>
    have hunused : (s.table.proc np).state = .unused := by simpa using findSlot_some henabled.2
    have hslot : Same s.table (s.table.modify np fun p =>
        { p with state := .embryo, pid := s.table.nextpid, syscallCount := fun _ => 0 }) :=
      same_modify (by rw [hunused]; rfl) (by simp [hunused]) (by simp [hunused, created])
    have hsame : Same s.table (s.table.allocprocEmbryo np) :=
      ⟨hslot.initproc, hslot.created, hslot.zombie, hslot.fields⟩
    refine h.same hinit hsame rfl fun i hi hpc => ?_
    simp only [Cpus.effect, State.setForkPc, allocprocEmbryo, modify_proc] at hi hpc ⊢
    split_ifs at hi ⊢
    exact ⟨hi, hpc, rfl⟩
  | kalloc c cur np kstack =>
    have hembryo := hinv.forks.child cur np (by simp [henabled.2, ForkPc.child])
    simp only [Cpus.effect]
    split_ifs
    · have hsame : Same s.table (s.table.allocprocFail np) :=
        same_modify (by rw [hembryo]; rfl) (by simp [hembryo]) (by simp [hembryo, created])
      refine h.same hinit hsame rfl fun i hi hpc => ?_
      simp only [State.setForkPc, allocprocFail, modify_proc] at hi hpc ⊢
      split_ifs at hi ⊢
      exact ⟨hi, hpc, rfl⟩
    · have hsame : Same s.table (s.table.allocprocInit np kstack) :=
        same_modify (by rw [hembryo]) (by simp [hembryo]) (by simp [hembryo, created])
      refine h.same hinit hsame rfl fun i hi hpc => ?_
      simp only [State.setForkPc, State.setPc, allocprocInit, modify_proc] at hi hpc ⊢
      split_ifs at hi hpc ⊢
      exact ⟨hi, hpc, rfl⟩
  | copyuvm c cur np pgdir =>
    have hembryo := hinv.forks.child cur np (by simp [henabled.2, ForkPc.child])
    simp only [Cpus.effect]
    split_ifs
    · have hsame : Same s.table (s.table.forkFail np) :=
        same_modify (by rw [hembryo]; rfl) (by simp [hembryo]) (by simp [hembryo, created])
      refine h.same hinit hsame rfl fun i hi hpc => ?_
      simp only [State.setForkPc, forkFail, modify_proc] at hi hpc ⊢
      split_ifs at hi ⊢
      exact ⟨hi, hpc, rfl⟩
    · have hsame : Same s.table (s.table.forkCopy cur np pgdir) :=
        same_modify (by rw [hembryo]) (by simp [hembryo]) (by simp [hembryo, created])
      refine h.same hinit hsame rfl fun i hi hpc => ?_
      simp only [State.setForkPc, forkCopy, modify_proc] at hi hpc ⊢
      split_ifs at hi ⊢ with heq
      · rw [heq, hembryo] at hi
        cases hi
      · exact ⟨hi, hpc, rfl⟩
  | forkRunnable c cur np => exact h.forkRunnable hinv henabled
  | exit c cur => exact h.exit hinv henabled
  | wait c cur =>
    refine h.same hinit (.refl s.table) rfl fun i hi hpc => ?_
    simp only [Cpus.effect, State.setPc] at hi hpc ⊢
    split_ifs at hpc
    exact ⟨hi, hpc, trivial⟩
  | scan c cur => exact h.scan hinv hinit henabled
  | kill c cur pid =>
    have hwakes := wakes_kill s.table pid
    refine h.same hinit (same_wakes hwakes (kill_parent s.table pid)) rfl fun i hi hpc => ?_
    rcases hwakes.state i with hsame | ⟨-, hwoken⟩
    · exact ⟨hsame.symm.trans hi, hpc, hwakes.chan i⟩
    · cases hwoken.symm.trans hi
  | yield c cur =>
    have hsame : Same s.table (s.table.yield cur) :=
      same_modify (by rw [hrunning henabled.1.1]; rfl) (by simp [hrunning henabled.1.1])
        fun _ => ⟨rfl, rfl⟩
    refine h.same hinit hsame rfl fun i hi hpc => ?_
    simp only [Cpus.effect, State.sched, State.setPc, State.setCpu, PTable.yield,
      modify_proc] at hi hpc ⊢
    split_ifs at hi hpc ⊢
    exact ⟨hi, hpc, rfl⟩
  | sleep c cur addr =>
    have hsame : Same s.table (s.table.sleep cur (some (.addr addr))) :=
      same_modify (by rw [hrunning henabled.1.1]; rfl) (by simp [hrunning henabled.1.1])
        fun _ => ⟨rfl, rfl⟩
    refine h.same hinit hsame rfl fun i hi hpc => ?_
    simp only [Cpus.effect, State.sched, State.setPc, State.setCpu, PTable.sleep,
      modify_proc] at hi hpc ⊢
    split_ifs at hi hpc ⊢
    exact ⟨hi, hpc, rfl⟩
  | resume c cur =>
    have hcur := hrunning henabled.1
    have hreturn : Same s.table (s.table.sleepReturn cur) :=
      same_modify rfl Iff.rfl fun _ => ⟨rfl, rfl⟩
    simp only [Cpus.effect]
    split
    · refine h.same hinit hreturn rfl fun i hi hpc => ?_
      simp only [State.setPc, sleepReturn, modify_proc] at hi hpc ⊢
      split_ifs at hi hpc ⊢
      exact ⟨hi, hpc, rfl⟩
    · refine h.same hinit hreturn rfl fun i hi hpc => ?_
      simp only [State.setPc, sleepReturn, modify_proc] at hi hpc ⊢
      split_ifs at hi hpc ⊢
      exact ⟨hi, hpc, rfl⟩
    · refine h.same hinit (.refl s.table) rfl fun i hi hpc => ?_
      simp only [State.setPc] at hi hpc ⊢
      split_ifs at hpc
      exact ⟨hi, hpc, trivial⟩
  | wakeup addr =>
    have hwakes := wakes_wakeup1 s.table (some (.addr addr))
    refine h.same hinit (same_wakes hwakes (wakeup1_parent _ _)) rfl fun i hi hpc => ?_
    rcases hwakes.state i with hsame | ⟨-, hwoken⟩
    · exact ⟨hsame.symm.trans hi, hpc, hwakes.chan i⟩
    · cases hwoken.symm.trans hi
  | dispatch c i =>
    have hsame : Same s.table (s.table.dispatch i) :=
      same_modify (by rw [henabled.2.2]; rfl) (by simp [henabled.2.2]) fun _ => ⟨rfl, rfl⟩
    refine h.same hinit hsame rfl fun j hj hpc => ?_
    simp only [Cpus.effect, State.setCpu, PTable.dispatch, modify_proc] at hj hpc ⊢
    split_ifs at hj ⊢
    exact ⟨hj, hpc, rfl⟩
  | enter c => exact h.same hinit (.refl s.table) rfl fun i hi hpc => ⟨hi, hpc, rfl⟩
  | leave c => exact h.same hinit (.refl s.table) rfl fun i hi hpc => ⟨hi, hpc, rfl⟩
  | tick =>
    have hsame : Same s.table { s.table with ticks := wrapUint (s.table.ticks + 1) } :=
      ⟨rfl, fun _ => rfl, fun _ => Iff.rfl, fun _ _ => ⟨rfl, rfl⟩⟩
    exact h.same hinit hsame rfl fun i hi hpc => ⟨hi, hpc, rfl⟩

/-! ## Pids in the history -/

/-- The pids that `fork` has returned were given out before, each was returned once, and those of
the children being created have not been returned. -/
structure Fresh (log : List Event) (t : PTable) : Prop where
  /-- Returned pids are below `nextpid`. -/
  given : ∀ pid, 0 < log.countP (Event.forks pid) → pid < t.nextpid
  /-- The pid of a child being created has not been returned. -/
  embryo : ∀ i, (t.proc i).state = .embryo → log.countP (Event.forks (t.proc i).pid) = 0
  /-- No pid was returned twice. -/
  once : ∀ pid, log.countP (Event.forks pid) ≤ 1

/-- Steps that take no pid and return none. -/
theorem Fresh.keeps {log log' : List Event} {t t' : PTable} (h : Fresh log t)
    (hkeeps : KeepsPids t t')
    (hlog : ∀ pid, log'.countP (Event.forks pid) = log.countP (Event.forks pid)) :
    Fresh log' t' := by
  refine ⟨fun pid hpid => ?_, fun i hi => ?_, fun pid => ?_⟩
  · rw [hkeeps.nextpid]
    exact h.given pid (by rwa [← hlog pid])
  · have hused := hkeeps.used i (by simp [hi])
    rw [hlog, hused.2]
    exact h.embryo i (hkeeps.embryo i hi)
  · rw [hlog]
    exact h.once pid

/-- `allocproc` takes a pid that has not been returned. -/
theorem Fresh.allocproc {log : List Event} {t : PTable} {given : ℕ} (h : Fresh log t)
    (hpids : Pids given t) (hfew : (given : ℤ) + 1 < intMax) (np : Slot) :
    Fresh log (t.allocprocEmbryo np) := by
  have hnext : (t.allocprocEmbryo np).nextpid = t.nextpid + 1 := by
    simp only [PTable.allocprocEmbryo]
    rw [hpids.nextpid]
    exact wrapInt_succ (by omega) hfew
  refine ⟨fun pid hpid => ?_, fun i hi => ?_, h.once⟩
  · have := h.given pid hpid
    omega
  · simp only [PTable.allocprocEmbryo, modify_proc] at hi ⊢
    split_ifs at hi ⊢
    · by_contra hreturned
      have := h.given t.nextpid (Nat.pos_of_ne_zero hreturned)
      omega
    · exact h.embryo i hi

/-- The last section of `fork` returns the pid of its child, for the first time. -/
theorem Fresh.forkRunnable {log : List Event} {t : PTable} {given : ℕ} {p np : Slot}
    (h : Fresh log t) (hpids : Pids given t) (hembryo : (t.proc np).state = .embryo) :
    Fresh (.forked p np (t.proc np).pid :: log) (t.forkRunnable np) := by
  have hcount : ∀ pid, (Event.forked p np (t.proc np).pid :: log).countP (Event.forks pid) =
      log.countP (Event.forks pid) + if (t.proc np).pid = pid then 1 else 0 := by
    intro pid
    simp [List.countP_cons, Event.forks]
  have hnew := h.embryo np hembryo
  have hused : ∀ i, (t.proc i).state = .embryo → (t.proc i).state ≠ .unused := by
    intro i hi
    simp [hi]
  refine ⟨fun pid hpid => ?_, fun i hi => ?_, fun pid => ?_⟩
  · rw [hcount] at hpid
    have hnext : (t.forkRunnable np).nextpid = t.nextpid := rfl
    rw [hnext]
    by_cases heq : (t.proc np).pid = pid
    · have hrange := (hpids.range np (hused np hembryo)).2
      rw [← heq, hpids.nextpid]
      omega
    · rw [if_neg heq] at hpid
      exact h.given pid (by omega)
  · simp only [PTable.forkRunnable, modify_proc] at hi ⊢
    split_ifs at hi ⊢ with heq
    rw [hcount, h.embryo i hi, if_neg]
    intro hpid
    exact heq (hpids.distinct i np (hused i hi) (hused np hembryo) hpid.symm)
  · rw [hcount]
    split_ifs with heq
    · rw [← heq, hnew]
    · have := h.once pid
      omega

/-! ## Runs -/

/-- What is claimed of `wait`. -/
structure Reaps (r : Slot) (s : State C) : Prop where
  /-- A pid that `wait` returns is that of a child of its caller at that time, which has called
  `exit`. -/
  child : ∀ later earlier p i pid, s.log = later ++ .reaped p i pid :: earlier →
    family r earlier i = some ⟨pid, p, true⟩
  /-- A pid is returned by `wait` at most as often as by `fork`. -/
  matched : ∀ pid, s.log.countP (Event.reaps pid) ≤ s.log.countP (Event.forks pid)
  /-- When `ptable.lock` is free, no process is asleep in `wait` while a child is a zombie. -/
  noneMissed : s.lock = none → ∀ i j, (s.table.proc i).state = .sleeping → s.pc i = .wait →
    (s.table.proc j).parent = some i → (s.table.proc j).state ≠ .zombie

section

variable {kstack pgdir root : ℕ} {trace : List (Action C)} {s : State C}

omit [DecidableEq C] in
/-- After `userinit` there is init and nobody else. -/
theorem tree_boot : Tree 0 (boot kstack pgdir root : State C) := by
  have hslot : ∀ i : Slot, ((boot kstack pgdir root : State C).table.proc i).parent = none ∧
      ((boot kstack pgdir root : State C).table.proc i).state ≠ .sleeping := by
    intro i
    by_cases hi : i = 0 <;>
      simp [boot, userinit, PTable.allocprocEmbryo, allocprocInit, modify_proc, hi, PTable.zero,
        Proc.zero]
  refine ⟨rfl, (hslot 0).1, fun i _ => by simp [(hslot i).1], fun i => ?_, trivial,
    fun i hi => absurd hi (hslot i).2, fun i j _ _ hj => by simp [(hslot j).1] at hj⟩
  have hnone : member (boot kstack pgdir root : State C).table i = none := by
    unfold member
    rw [(hslot i).1]
    simp
  rw [hnone]
  rfl

/-- Every run keeps the tree. -/
theorem tree_run (hkstack : kstack ≠ 0) (hpgdir : pgdir ≠ 0)
    (hrun : Run step free (boot kstack pgdir root) trace s) : Inv s ∧ Tree 0 s := by
  refine Run.invariant (I := fun _ s => Inv s ∧ Tree 0 s)
    ⟨inv_boot hkstack hpgdir, tree_boot⟩ ?_ hrun
  intro _ s a s' ⟨hinv, htree⟩ _ hstep
  obtain ⟨henabled, rfl⟩ := step_eq_some.mp hstep
  exact ⟨hinv.effect henabled, htree.effect hinv henabled⟩

/-- Only the last section of `fork` returns a pid. -/
theorem forks_effect {a : Action C} (hother : ∀ c cur np, a ≠ .forkRunnable c cur np) (pid : ℤ) :
    (effect s a).log.countP (Event.forks pid) = s.log.countP (Event.forks pid) := by
  cases a with
  | forkRunnable c cur np => exact absurd rfl (hother c cur np)
  | kalloc c cur np kstack =>
    simp only [Cpus.effect]
    split_ifs <;> rfl
  | copyuvm c cur np pgdir =>
    simp only [Cpus.effect]
    split_ifs <;> rfl
  | exit c cur => simp [Cpus.effect, State.sched, State.setPc, State.setCpu, Event.forks]
  | scan c cur =>
    simp only [Cpus.effect]
    split
    · cases zombieChild s.table cur <;> simp [State.setPc, Event.forks]
    · rfl
    · rfl
  | resume c cur =>
    simp only [Cpus.effect]
    split <;> rfl
  | _ => rfl

/-- With fewer than `2 ^ 31 - 1` allocations `fork` returns no pid twice. -/
theorem fresh_run (hkstack : kstack ≠ 0) (hpgdir : pgdir ≠ 0)
    (hrun : Run step free (boot kstack pgdir root) trace s)
    (hfew : (allocations trace : ℤ) < intMax) : Fresh s.log s.table := by
  induction hrun with
  | start =>
    refine ⟨fun pid hpid => by simp [boot] at hpid, fun i _ => rfl, fun pid => by simp [boot]⟩
  | @step trace s s' a hrun hguard hstep ih =>
    have hinv := inv_run hkstack hpgdir hrun
    obtain ⟨henabled, rfl⟩ := step_eq_some.mp hstep
    have hcount : allocations trace + (if a.allocates = true then 1 else 0) =
        allocations (a :: trace) := by
      cases halloc : a.allocates <;> simp [allocations, halloc]
    have hfew' : (allocations trace : ℤ) < intMax := by omega
    have hpids := pids_run hkstack hpgdir hrun hfew'
    cases a with
    | allocproc c cur np =>
      simp only [Action.allocates, if_true] at hcount
      exact (ih hfew').allocproc hpids (by omega) np
    | forkRunnable c cur np =>
      have hembryo := hinv.forks.child cur np (by simp [henabled.2.1, ForkPc.child])
      exact (ih hfew').forkRunnable hpids hembryo
    | _ =>
      exact (ih hfew').keeps (keepsPids_effect hinv.cpus hinv.forks henabled rfl)
        (forks_effect (by simp))

/-- In every run `wait` returns the pids of exited children of its caller, no pid more often
than `fork` has returned it, and nobody sleeps in `wait` next to a zombie child. With fewer than
`2 ^ 31 - 1` allocations, so that `nextpid` has not wrapped, no pid is returned twice. -/
theorem reaped_once (hkstack : kstack ≠ 0) (hpgdir : pgdir ≠ 0)
    (hrun : Run step free (boot kstack pgdir root) trace s) :
    Reaps 0 s ∧
      ((allocations trace : ℤ) < intMax → ∀ pid, s.log.countP (Event.reaps pid) ≤ 1) := by
  obtain ⟨-, htree⟩ := tree_run hkstack hpgdir hrun
  have hmatched : ∀ pid, s.log.countP (Event.reaps pid) ≤ s.log.countP (Event.forks pid) := by
    intro pid
    have := htree.legal.forks_eq pid
    omega
  refine ⟨⟨fun later earlier p i pid hlog => htree.legal.reaped hlog, hmatched,
    fun _ => htree.childless⟩, fun hfew pid => ?_⟩
  exact (hmatched pid).trans ((fresh_run hkstack hpgdir hrun hfew).once pid)

end

end

/-- Init forks a child, which forks another one and exits; the second child exits as a child of
init, which then reaps both. -/
def reapOrphan (c d : C) (parent child orphan : Slot) : List (Action C) :=
  [.enter c, .dispatch c parent, .resume c parent,
    .allocproc c parent child, .kalloc c parent child 4096, .copyuvm c parent child 8192,
    .forkRunnable c parent child, .enter d, .dispatch d child, .resume d child,
    .allocproc d child orphan, .kalloc d child orphan 12288, .copyuvm d child orphan 16384,
    .forkRunnable d child orphan, .exit d child, .dispatch d orphan, .resume d orphan,
    .exit d orphan, .leave d, .wait c parent, .scan c parent, .wait c parent, .scan c parent]

/-- In that run both pids are returned, once each. -/
theorem reaped_once_reapOrphan :
    ∃ s : State (Fin 2), exec step free [] (boot 4096 8192 1) (reapOrphan 0 1 0 1 2) = some s ∧
      s.log.countP (Event.reaps 2) = 1 ∧ s.log.countP (Event.reaps 3) = 1 ∧ Reaps 0 s ∧
        ∀ pid, s.log.countP (Event.reaps pid) ≤ 1 := by
  have hexec : (exec step free [] (boot 4096 8192 1 : State (Fin 2)) (reapOrphan 0 1 0 1 2)).any
      (fun s => s.log.countP (Event.reaps 2) == 1 && s.log.countP (Event.reaps 3) == 1) = true := by
    decide +kernel
  obtain ⟨s, hs, hlog⟩ := (Option.any_eq_true _ _).mp hexec
  simp only [Bool.and_eq_true, beq_iff_eq] at hlog
  obtain ⟨hreaps, honce⟩ := reaped_once (by decide) (by decide) (run_of_exec hs)
  exact ⟨s, hs, hlog.1, hlog.2, hreaps, honce (by decide)⟩

end Xv6.Cpus
