import Xv6.SpinLocks

/-!
# Deadlocks of the spin locks

At most two of the locks are held at a time, and one of them is then `ptable.lock`. The code
takes the other one first, except for `exit`, which takes `tickslock` and `cons.lock` while it
holds `ptable.lock`. A deadlock therefore needs a CPU in `exit` and another CPU that comes from
the other side; while no two CPUs take two locks in opposite orders at the same time, none of
the interleavings deadlocks.
-/

namespace Xv6.SpinLocks

open GuardedRun

/-- The locks that code acquires before it releases the given lock or passes it on. -/
def ahead (l : Lock) : Code → List Lock
  | [] => []
  | .acquire m :: rest => m :: ahead l rest
  | .release m :: rest => if m = l then [] else ahead l rest
  | .sched :: _ | .schedZombie :: _ => []
  | .scan :: rest | .spawn :: rest => ahead l rest

/-- Code that may run while the given locks are held: of two locks held together one is
`ptable.lock`, `sched` is called with `ptable.lock` and no other lock, a thread that comes back
from `sched` takes no further lock before it gives `ptable.lock` up, and the code ends without
locks. -/
def Ok : Finset Lock → Code → Prop
  | held, [] => held = ∅
  | held, .acquire l :: rest =>
      (∀ m ∈ held, m ≠ l ∧ (m = .ptable ∨ l = .ptable)) ∧ Ok (insert l held) rest
  | held, .release l :: rest => l ∈ held ∧ Ok (held.erase l) rest
  | held, .sched :: rest => held = {.ptable} ∧ Ok {.ptable} rest ∧ ahead .ptable rest = []
  | held, .schedZombie :: _ => held = {.ptable}
  | held, .scan :: rest | held, .spawn :: rest => held = {.ptable} ∧ Ok {.ptable} rest

/-! ## The kernel paths -/

/-- Code that follows does not matter to a lock that is given up before. -/
theorem ahead_append {held : Finset Lock} {code : Code} (hok : Ok held code) {l : Lock}
    (hl : l ∈ held) (rest : Code) : ahead l (code ++ rest) = ahead l code := by
  induction code generalizing held with
  | nil =>
    rw [show held = ∅ from hok] at hl
    cases hl
  | cons op code ih =>
    cases op with
    | acquire m => exact congrArg (m :: ·) (ih hok.2 (Finset.mem_insert_of_mem hl))
    | release m =>
      simp only [List.cons_append, ahead]
      split_ifs with hm
      · rfl
      · exact ih hok.2 (Finset.mem_erase.mpr ⟨Ne.symm hm, hl⟩)
    | sched | schedZombie => rfl
    | scan | spawn => exact ih hok.2 (hok.1 ▸ hl)

/-- Code that ends without locks may be followed by other code. -/
theorem ok_append {held : Finset Lock} {code rest : Code} (hok : Ok held code)
    (hrest : Ok ∅ rest) : Ok held (code ++ rest) := by
  induction code generalizing held with
  | nil =>
    rw [show held = ∅ from hok]
    exact hrest
  | cons op code ih =>
    cases op with
    | acquire l | release l => exact ⟨hok.1, ih hok.2⟩
    | sched =>
      have hsame := ahead_append hok.2.1 (Finset.mem_singleton_self _) rest
      exact ⟨hok.1, ih hok.2.1, hsame.trans hok.2.2⟩
    | schedZombie => exact hok
    | scan | spawn => exact ⟨hok.1, ih hok.2⟩

/-- What one round of a loop preserves, the loop preserves. -/
theorem times_induction {P : Code → Prop} {code : Code} (hround : ∀ rest, P rest → P (code ++ rest))
    (n : ℕ) {rest : Code} (hrest : P rest) : P (times n code ++ rest) := by
  induction n with
  | zero => exact hrest
  | succ n ih =>
    rw [times, List.replicate_succ, List.flatten_cons, List.append_assoc]
    exact hround _ ih

/-- `sleep` gives the lock back that it was called with. -/
theorem ok_sleep {l : Lock} (hl : l ≠ .ptable) {rest : Code} (hrest : Ok {l} rest) :
    Ok {l} (sleep (some l) ++ rest) := by
  cases l with
  | ptable => exact absurd rfl hl
  | ticks | cons =>
    refine ⟨by decide, by decide, by decide, ⟨by decide, by simp, ?_⟩, rfl⟩
    simpa using hrest

/-- `wait` sleeps on `ptable.lock` itself. -/
theorem ok_wait (sleeps : ℕ) : Ok ∅ (wait sleeps) := by
  have hend : Ok {.ptable} [.release .ptable] ∧ ahead .ptable [.release .ptable] = [] := by
    simp [Ok, ahead]
  have hround : ∀ rest, Ok {.ptable} rest ∧ ahead .ptable rest = [] →
      Ok {.ptable} (sleep (some .ptable) ++ rest) ∧
        ahead .ptable (sleep (some .ptable) ++ rest) = [] :=
    fun rest hrest => ⟨⟨rfl, hrest⟩, rfl⟩
  have hloop := times_induction hround sleeps hend
  exact ⟨by simp, by simpa using hloop.1⟩

/-- `sys_sleep` and `consoleread` hold one lock and sleep on it. -/
theorem ok_sleepLoop {l : Lock} (hl : l ≠ .ptable) (sleeps : ℕ) :
    Ok ∅ (.acquire l :: (times sleeps (sleep (some l)) ++ [.release l])) := by
  refine ⟨by simp, ?_⟩
  have hend : Ok {l} [.release l] := ⟨by simp, by simp [Ok]⟩
  exact times_induction (P := Ok {l}) (fun _ => ok_sleep hl) sleeps hend

theorem ok_cprintf {rest : Code} (hrest : Ok ∅ rest) : Ok ∅ (cprintf ++ rest) :=
  ⟨by simp, by decide, by simpa using hrest⟩

theorem ok_consoleintr (lines dumped : ℕ) : Ok ∅ (consoleintr lines dumped) := by
  refine ⟨by simp, ?_⟩
  have hdump : Ok ∅ (times dumped cprintf ++ []) :=
    times_induction (P := Ok ∅) (fun _ => ok_cprintf) dumped rfl
  rw [List.append_nil] at hdump
  have hround : ∀ rest, Ok {.cons} rest → Ok {.cons} (wakeup ++ rest) := by
    intro rest hrest
    refine ⟨by decide, by decide, ?_⟩
    simpa using hrest
  have hend : Ok {.cons} (.release .cons :: times dumped cprintf) :=
    ⟨by decide, by simpa using hdump⟩
  exact times_induction (P := Ok {.cons}) hround lines hend

/-- Every call keeps to the discipline. -/
theorem ok_call (k : Call) : Ok ∅ k.code := by
  cases k with
  | fork found copied => cases found <;> cases copied <;> simp [Call.code, fork, allocproc, Ok]
  | wait sleeps => exact ok_wait sleeps
  | sysSleep sleeps => exact ok_sleepLoop (l := .ticks) nofun sleeps
  | consoleread sleeps => exact ok_sleepLoop (l := .cons) nofun sleeps
  | exit | kill | sysUptime | consolewrite | cprintf | sleep | wakeup =>
    simp [Call.code, exit, kill, sysUptime, consolewrite, cprintf, sleep, wakeup, Ok, ahead]

/-- Every interrupt keeps to the discipline. -/
theorem ok_interrupt (first running : Bool) (i : Interrupt) : Ok ∅ (i.code first running) := by
  cases i with
  | timer =>
    cases first <;> cases running <;> simp [Interrupt.code, timer, wakeup, yield, Ok, ahead]
  | console lines dumped => exact ok_consoleintr lines dumped
  | ide | spurious => simp [Interrupt.code, wakeup, cprintf, Ok]

theorem ok_scheduler : Ok ∅ scheduler := by simp [scheduler, Ok]

/-! ## The invariant -/

section

variable {C : Type*} [DecidableEq C]

@[simp] theorem State.mem_held {s : State C} {c : C} {l : Lock} :
    l ∈ s.held c ↔ s.owner l = some c := by
  simp [State.held]

/-- Two CPUs are in sections of two locks, each of which goes on to take the other lock. -/
def State.Opposed (s : State C) (c d : C) (l m : Lock) : Prop :=
  s.owner l = some c ∧ s.owner m = some d ∧ m ∈ ahead l (s.code c) ∧ l ∈ ahead m (s.code d)

/-- If a CPU is at the acquisition of a lock, then no other CPU holds a second lock, which the
first CPU goes on to take in this section, in a section in which it goes on to take the
first lock. -/
def State.Clear (s : State C) (c : C) : Code → Prop
  | .acquire l :: rest => ∀ m ∈ ahead l rest, ∀ d ∈ s.owner m, d ≠ c → l ∉ ahead m (s.code d)
  | _ => True

instance (s : State C) (c : C) : ∀ code, Decidable (s.Clear c code)
  | .acquire l :: rest => inferInstanceAs
      (Decidable (∀ m ∈ ahead l rest, ∀ d ∈ s.owner m, d ≠ c → l ∉ ahead m (s.code d)))
  | [] | .release _ :: _ | .sched :: _ | .schedZombie :: _ | .scan :: _ | .spawn :: _ =>
      isTrue trivial

/-- No CPU takes a lock, in a section in which it goes on to take a second lock, while another
CPU holds the second lock in a section in which it goes on to take the first one. -/
def Unopposed (_ : List (Action C)) (s : State C) : Action C → Prop
  | .run c => s.Clear c (s.code c)
  | _ => True

instance (trace : List (Action C)) (s : State C) : ∀ a, Decidable (Unopposed trace s a)
  | .run c => inferInstanceAs (Decidable (s.Clear c (s.code c)))
  | .call _ _ | .interrupt _ _ | .scheduler _ | .dispatch _ _ => isTrue trivial

/-- The invariant of the runs without opposed acquisitions. -/
structure Inv (s : State C) : Prop where
  /-- Every CPU keeps to the discipline. -/
  ok : ∀ c, Ok (s.held c) (s.code c)
  /-- Every thread that has called `sched` comes back to give `ptable.lock` up. -/
  parked : ∀ t ∈ s.parked, Ok {.ptable} t ∧ ahead .ptable t = []
  /-- No two CPUs take two locks in opposite orders. -/
  unopposed : ∀ c d l m, c ≠ d → ¬ s.Opposed c d l m

omit [DecidableEq C] in
/-- Opposition is symmetric. -/
theorem State.Opposed.symm {s : State C} {c d : C} {l m : Lock} (hopposed : s.Opposed c d l m) :
    s.Opposed d c m l :=
  ⟨hopposed.2.1, hopposed.1, hopposed.2.2.2, hopposed.2.2.1⟩

omit [DecidableEq C] in
/-- Opposition between sections that were longer before is not new. -/
theorem State.Opposed.of_sub {s s' : State C} {c d : C} {l m : Lock}
    (hopposed : s'.Opposed c d l m) (hl : s.owner l = some c) (hm : s.owner m = some d)
    (hc : ∀ k ∈ ahead l (s'.code c), k ∈ ahead l (s.code c))
    (hd : ∀ k ∈ ahead m (s'.code d), k ∈ ahead m (s.code d)) : s.Opposed c d l m :=
  ⟨hl, hm, hc m hopposed.2.2.1, hd l hopposed.2.2.2⟩

/-- The code of the CPUs after a step of one of them. -/
theorem code_goto (s : State C) (c : C) (code : Code) (d : C) :
    (s.goto c code).code d = if d = c then code else s.code d := by
  simp only [State.goto, Function.update_apply]

/-- If the code of one CPU becomes shorter in a section, that of every CPU does. -/
theorem ahead_goto {s s₁ : State C} {c : C} {code : Code} {l : Lock} (hcode : s₁.code = s.code)
    (hsub : ∀ k ∈ ahead l code, k ∈ ahead l (s.code c)) (d : C) :
    ∀ k ∈ ahead l ((s₁.goto c code).code d), k ∈ ahead l (s.code d) := by
  intro k hk
  rw [code_goto] at hk
  split_ifs at hk with hd
  · exact hd ▸ hsub k hk
  · exact hcode ▸ hk

/-- A CPU goes on with code that is good for the locks it holds, and takes no further lock in
the sections that it is in. -/
theorem Inv.goto {s s₁ : State C} {c : C} {code : Code} (hinv : Inv s) (hcode : s₁.code = s.code)
    (howner : s₁.owner = s.owner) (hok : Ok (s.held c) code)
    (hparked : ∀ t ∈ s₁.parked, Ok {.ptable} t ∧ ahead .ptable t = [])
    (hahead : ∀ l, s.owner l = some c → ∀ m ∈ ahead l code, m ∈ ahead l (s.code c)) :
    Inv (s₁.goto c code) := by
  have hheld : ∀ d, (s₁.goto c code).held d = s.held d := by
    intro d
    simp only [State.held, State.goto, howner]
  constructor
  · intro d
    rw [hheld]
    by_cases hd : d = c
    · subst hd
      simpa only [State.goto, Function.update_self] using hok
    · simpa only [State.goto, Function.update_of_ne hd, hcode] using hinv.ok d
  · exact hparked
  · intro d e l m hne hopposed
    have hl : s.owner l = some d := howner ▸ hopposed.1
    have hm : s.owner m = some e := howner ▸ hopposed.2.1
    have hsub : ∀ d l, s.owner l = some d → ∀ k ∈ ahead l ((s₁.goto c code).code d),
        k ∈ ahead l (s.code d) := by
      intro d l hl
      by_cases hd : d = c
      · exact ahead_goto hcode (hahead l (hd ▸ hl)) d
      · intro k hk
        rwa [code_goto, if_neg hd, hcode] at hk
    exact hinv.unopposed d e l m hne (hopposed.of_sub hl hm (hsub d l hl) (hsub e m hm))

/-- A CPU without locks may start any disciplined code. -/
theorem Inv.start {s : State C} {c : C} {code : Code} (hinv : Inv s) (hfree : s.held c = ∅)
    (hok : Ok ∅ code) : Inv (s.goto c code) := by
  refine hinv.goto rfl rfl (hfree ▸ hok) hinv.parked fun l hl => ?_
  rw [← State.mem_held, hfree] at hl
  cases hl

/-- Who holds the locks after one of them is taken or released. -/
theorem owner_setOwner (s : State C) (l : Lock) (o : Option C) (c : C) (code : Code) (m : Lock) :
    ((s.setOwner l o).goto c code).owner m = if m = l then o else s.owner m := by
  simp only [State.goto, State.setOwner, Function.update_apply]

/-- A CPU takes a free lock without opposition. -/
theorem Inv.acquire {s : State C} {c : C} {l : Lock} {rest : Code} (hinv : Inv s)
    (hcode : s.code c = .acquire l :: rest) (hfree : s.owner l = none)
    (hguard : ∀ m ∈ ahead l rest, ∀ d ∈ s.owner m, d ≠ c → l ∉ ahead m (s.code d)) :
    Inv ((s.setOwner l (some c)).goto c rest) := by
  have howner := owner_setOwner s l (some c) c rest
  have hcode' : ∀ d, ((s.setOwner l (some c)).goto c rest).code d =
      if d = c then rest else s.code d := code_goto _ c rest
  constructor
  · intro d
    rw [hcode']
    split_ifs with hd
    · have hok := hinv.ok c
      rw [hcode] at hok
      have hheld : ((s.setOwner l (some c)).goto c rest).held d = insert l (s.held c) := by
        ext m
        by_cases hm : m = l <;> simp [howner, hm, hd]
      rw [hheld]
      exact hok.2
    · have hheld : ((s.setOwner l (some c)).goto c rest).held d = s.held d := by
        ext m
        by_cases hm : m = l
        · simp [howner, hm, hfree, Ne.symm hd]
        · simp [howner, hm]
      rw [hheld]
      exact hinv.ok d
  · exact hinv.parked
  · -- opposition to the new holder is excluded by the guard, other opposition is old
    have hnew : ∀ e m, e ≠ c → ¬ ((s.setOwner l (some c)).goto c rest).Opposed c e l m := by
      rintro e m he ⟨-, hm, hml, hlm⟩
      rw [hcode', if_pos rfl] at hml
      rw [hcode', if_neg he] at hlm
      rw [howner] at hm
      split_ifs at hm with hsame
      · exact he (Option.some.inj hm).symm
      · exact hguard m hml e hm he hlm
    intro d e l' m hne hopposed
    obtain ⟨hl', hm, hml, hlm⟩ := id hopposed
    rw [howner] at hl' hm
    by_cases hl : l' = l
    · rw [if_pos hl] at hl'
      obtain rfl := Option.some.inj hl'
      exact hnew e m hne.symm (hl ▸ hopposed)
    by_cases hm' : m = l
    · rw [if_pos hm'] at hm
      obtain rfl := Option.some.inj hm
      exact hnew d l' hne (hm' ▸ hopposed).symm
    rw [if_neg hl] at hl'
    rw [if_neg hm'] at hm
    have hsub : ∀ d l', ∀ k ∈ ahead l' (((s.setOwner l (some c)).goto c rest).code d),
        k ∈ ahead l' (s.code d) := fun d l' => by
      refine ahead_goto (by rfl) (fun k hk => ?_) d
      rw [hcode]
      exact List.mem_cons_of_mem _ hk
    exact hinv.unopposed d e l' m hne (hopposed.of_sub hl' hm (hsub d l') (hsub e m))

/-- A CPU releases a lock that it holds. -/
theorem Inv.release {s : State C} {c : C} {l : Lock} {rest : Code} (hinv : Inv s)
    (hcode : s.code c = .release l :: rest) (hl : s.owner l = some c) :
    Inv ((s.setOwner l none).goto c rest) := by
  have howner := owner_setOwner s l none c rest
  constructor
  · intro d
    have hcode' := code_goto (s.setOwner l none) c rest d
    rw [hcode']
    split_ifs with hd
    · have hok := hinv.ok c
      rw [hcode] at hok
      have hheld : ((s.setOwner l none).goto c rest).held d = (s.held c).erase l := by
        ext m
        by_cases hm : m = l <;> simp [howner, hm, hd]
      rw [hheld]
      exact hok.2
    · have hheld : ((s.setOwner l none).goto c rest).held d = s.held d := by
        ext m
        by_cases hm : m = l
        · simp [howner, hm, hl, Ne.symm hd]
        · simp [howner, hm]
      rw [hheld]
      exact hinv.ok d
  · exact hinv.parked
  · intro d e l' m hne hopposed
    have hold : ∀ {k : Lock} {b : C}, ((s.setOwner l none).goto c rest).owner k = some b →
        k ≠ l ∧ s.owner k = some b := by
      intro k b hk
      rw [howner] at hk
      split_ifs at hk with hkl
      exact ⟨hkl, hk⟩
    have hsub : ∀ d l', l' ≠ l → ∀ k ∈ ahead l' (((s.setOwner l none).goto c rest).code d),
        k ∈ ahead l' (s.code d) := fun d l' hne => by
      refine ahead_goto (by rfl) (fun k hk => ?_) d
      rw [hcode, ahead, if_neg hne.symm]
      exact hk
    obtain ⟨hl', hd⟩ := hold hopposed.1
    obtain ⟨hm', he⟩ := hold hopposed.2.1
    exact hinv.unopposed d e l' m hne (hopposed.of_sub hd he (hsub d l' hl') (hsub e m hm'))

/-- A CPU that passes `ptable.lock` on, to its scheduler or to a thread, takes no further lock. -/
theorem Inv.pass {s s₁ : State C} {c : C} {code : Code} (hinv : Inv s) (hcode : s₁.code = s.code)
    (howner : s₁.owner = s.owner) (hheld : s.held c = {.ptable}) (hok : Ok {.ptable} code)
    (hahead : ahead .ptable code = [])
    (hparked : ∀ t ∈ s₁.parked, Ok {.ptable} t ∧ ahead .ptable t = []) :
    Inv (s₁.goto c code) := by
  refine hinv.goto hcode howner (hheld ▸ hok) hparked fun l hl k hk => ?_
  rw [← State.mem_held, hheld, Finset.mem_singleton] at hl
  rw [hl, hahead] at hk
  cases hk

/-- The scheduler holds `ptable.lock` and will release it. -/
theorem ok_scan : Ok {.ptable} [.scan, .release .ptable] := by simp [Ok]

/-- Executing code without opposition keeps the invariant. -/
theorem Inv.run {s s' : State C} {trace : List (Action C)} {c : C} (hinv : Inv s)
    (hguard : Unopposed trace s (.run c)) (hs' : run s c = some s') : Inv s' := by
  have hok := hinv.ok c
  unfold SpinLocks.run at hs'
  split at hs'
  case h_1 => cases hs'
  case h_2 l rest hcode =>
    rw [Unopposed, hcode] at hguard
    split_ifs at hs' with hfree
    cases hs'
    exact hinv.acquire hcode hfree hguard
  case h_3 l rest hcode =>
    split_ifs at hs' with howner
    cases hs'
    exact hinv.release hcode howner
  case h_4 rest hcode =>
    rw [hcode] at hok
    cases hs'
    refine hinv.pass rfl rfl hok.1 ok_scan rfl fun t ht => ?_
    rcases List.mem_cons.mp ht with rfl | ht
    · exact hok.2
    · exact hinv.parked t ht
  case h_5 rest hcode =>
    rw [hcode] at hok
    cases hs'
    exact hinv.pass rfl rfl hok ok_scan rfl hinv.parked
  case h_6 rest hcode =>
    rw [hcode] at hok
    cases hs'
    refine hinv.goto rfl rfl (hok.1 ▸ hok.2) hinv.parked fun l _ k hk => ?_
    rw [hcode]
    exact hk
  case h_7 rest hcode =>
    rw [hcode] at hok
    cases hs'
    refine hinv.goto rfl rfl (hok.1 ▸ hok.2) (fun t ht => ?_) fun l _ k hk => ?_
    · rcases List.mem_cons.mp ht with rfl | ht
      · exact ⟨by simp [forkret, Ok], rfl⟩
      · exact hinv.parked t ht
    · rw [hcode]
      exact hk

/-- A switch to a thread keeps the invariant. -/
theorem Inv.dispatch {s s' : State C} {c : C} {i : ℕ} (hinv : Inv s)
    (hs' : dispatch s c i = some s') : Inv s' := by
  unfold SpinLocks.dispatch at hs'
  split at hs'
  case h_1 rest t hcode ht =>
    have hok := hinv.ok c
    rw [hcode] at hok
    have hthread := hinv.parked t (List.mem_of_getElem? ht)
    cases hs'
    exact hinv.pass rfl rfl hok.1 hthread.1 hthread.2 fun t' ht' =>
      hinv.parked t' (List.mem_of_mem_eraseIdx ht')
  case h_2 => cases hs'

/-- A CPU whose code has come to its end holds no lock. -/
theorem Inv.held_eq_empty {s : State C} {c : C} (hinv : Inv s) (hend : s.code c = []) :
    s.held c = ∅ := by
  have hok := hinv.ok c
  rw [hend] at hok
  exact hok

/-- Every step without opposition keeps the invariant. -/
theorem Inv.step {first : C} {s s' : State C} {trace : List (Action C)} {a : Action C}
    (hinv : Inv s) (hguard : Unopposed trace s a) (hs' : step first s a = some s') : Inv s' := by
  cases a with
  | call c k =>
    rw [SpinLocks.step] at hs'
    split_ifs at hs' with hc
    cases hs'
    exact hinv.start (hinv.held_eq_empty hc.2) (ok_call k)
  | interrupt c i =>
    rw [SpinLocks.step] at hs'
    split_ifs at hs' with hfree
    cases hs'
    exact hinv.start hfree (ok_append (ok_interrupt _ _ i) (hfree ▸ hinv.ok c))
  | scheduler c =>
    rw [SpinLocks.step] at hs'
    split_ifs at hs' with hc
    cases hs'
    exact hinv.start (hinv.held_eq_empty hc.2) ok_scheduler
  | run c => exact hinv.run hguard hs'
  | dispatch c i => exact hinv.dispatch hs'

/-- After `userinit` no lock is held. -/
theorem inv_boot : Inv (boot C) := by
  constructor
  · intro c
    simp [boot, State.held, Ok]
  · intro t ht
    rw [List.mem_singleton.mp ht]
    exact ⟨by simp [forkret, Ok], rfl⟩
  · rintro c d l m - ⟨hl, -⟩
    cases hl

/-- In a disciplined state without opposition there is no deadlock. -/
theorem Inv.not_deadlock {s : State C} (hinv : Inv s) : ¬ s.Deadlock := by
  intro hdead
  have hone : ∀ c l l', s.Wants c l → s.Wants c l' → l = l' := by
    intro c l l' hl hl'
    have hsame := hl.symm.trans hl'
    simpa using hsame
  have hnest : ∀ c m l, s.Holds c m → s.Wants c l → m ≠ l ∧ (m = .ptable ∨ l = .ptable) := by
    intro c m l hm hl
    obtain ⟨rest, hcode⟩ := List.head?_eq_some_iff.mp hl
    have hok := hinv.ok c
    rw [hcode] at hok
    exact hok.1 m (State.mem_held.mpr hm)
  -- `ptable.lock` comes after the other two
  obtain ⟨c, m, l, d, k, hcm, hcl, hdl, hdk, hrank⟩ :=
    hdead.exists_inversion (fun l => if l = .ptable then 1 else 0 : Lock → ℕ) hone
  have hml := hnest c m l hcm hcl
  have hlk := hnest d l k hdl hdk
  obtain rfl : m = .ptable := by
    rcases hml.2 with h | h
    · exact h
    · rw [h, if_pos rfl, if_neg (h ▸ hml.1)] at hrank
      omega
  obtain rfl : k = .ptable := hlk.2.resolve_left hml.1.symm
  obtain ⟨rest, hc⟩ := List.head?_eq_some_iff.mp hcl
  obtain ⟨rest', hd⟩ := List.head?_eq_some_iff.mp hdk
  have hne : c ≠ d := by
    rintro rfl
    exact hml.1 (hone c .ptable l hdk hcl)
  refine hinv.unopposed c d .ptable l hne ⟨hcm, hdl, ?_, ?_⟩
  · rw [hc]
    exact List.mem_cons_self
  · rw [hd]
    exact List.mem_cons_self

/-- No deadlock of the spin locks, on any number of CPUs and along every interleaving in which
no CPU takes a lock, on its way to a second one, while another CPU holds the second lock on its
way to the first one. -/
theorem no_deadlock {first : C} {trace : List (Action C)} {s : State C}
    (hrun : Run (step first) Unopposed (boot C) trace s) : ¬ s.Deadlock := by
  have hkeep : ∀ trace s a s', Inv s → Unopposed trace s a → step first s a = some s' → Inv s' :=
    fun _ _ _ _ hinv hguard hs' => hinv.step hguard hs'
  have hinv : Inv s := Run.invariant (I := fun _ s => Inv s) inv_boot hkeep hrun
  exact hinv.not_deadlock

omit [DecidableEq C] in
/-- Two CPUs that hold a lock each and want the lock of the other one. -/
theorem deadlock_of_two {s : State C} {c d : C} {l m : Lock} (hcl : s.Holds c l)
    (hcm : s.Wants c m) (hdm : s.Holds d m) (hdl : s.Wants d l) : s.Deadlock :=
  ⟨c, .tail (.single ⟨m, hcm, hdm⟩) ⟨l, hdl, hcl⟩⟩

/-- The first process starts on one CPU and forks, and the child starts on another one. -/
def forkedChild (c d : C) : List (Action C) :=
  [.scheduler c, .run c, .dispatch c 0, .run c, .call c (.fork true true)] ++
    List.replicate 7 (.run c) ++ [.scheduler d, .run d, .dispatch d 0, .run d]

/-- The child exits, and then the timer of the first CPU ticks. -/
def exitThenTick (c d : C) : List (Action C) :=
  forkedChild c d ++ .call d .exit :: List.replicate 8 (.run d) ++
    [.interrupt c .timer, .run c, .run c]

/-- The timer of the first CPU ticks while the child is in `exit`. -/
def exitAgainstTick (c d : C) : List (Action C) :=
  forkedChild c d ++ [.call d .exit, .run d, .interrupt c .timer, .run c]

end

/-- There is no deadlock when the timer ticks after the exit. -/
theorem no_deadlock_exitThenTick :
    ∃ s, exec (step 0) Unopposed [] (boot (Fin 2)) (exitThenTick 0 1) = some s ∧
      s.Holds 0 .ptable ∧ s.Holds 0 .ticks ∧ ¬ s.Deadlock := by
  have hexec : (exec (step 0) Unopposed [] (boot (Fin 2)) (exitThenTick 0 1)).any
      (fun s => s.owner .ptable == some 0 && s.owner .ticks == some 0) = true := by
    decide +kernel
  obtain ⟨s, hs, hend⟩ := (Option.any_eq_true _ _).mp hexec
  simp only [Bool.and_eq_true, beq_iff_eq] at hend
  exact ⟨s, hs, hend.1, hend.2, no_deadlock (run_of_exec hs)⟩

/-- CPU 1 holds `ptable.lock` and waits for `tickslock`, CPU 0 the other way round. -/
theorem deadlock_exitAgainstTick :
    ∃ s, Run (step 0) free (boot (Fin 2)) (exitAgainstTick 0 1).reverse s ∧ s.Deadlock := by
  have hexec : (exec (step 0) free [] (boot (Fin 2)) (exitAgainstTick 0 1)).any (fun s =>
      s.owner .ptable == some 1 && (s.code 1).head? == some (.acquire .ticks) &&
        (s.owner .ticks == some 0 && (s.code 0).head? == some (.acquire .ptable))) = true := by
    decide +kernel
  obtain ⟨s, hs, hend⟩ := (Option.any_eq_true _ _).mp hexec
  simp only [Bool.and_eq_true, beq_iff_eq] at hend
  obtain ⟨⟨howner₁, hcode₁⟩, howner₀, hcode₀⟩ := hend
  exact ⟨s, run_of_exec hs, deadlock_of_two howner₁ hcode₁ howner₀ hcode₀⟩

end Xv6.SpinLocks
