import Xv6.InterruptNesting

/-!
# Runs with interrupts and spin locks

Every step keeps the CPUs in order: each instruction on the CPU that executes it, and a switch on
the CPU, its scheduler and the process. So the nesting is exact in every run, and `sched` does
not panic.
-/

namespace Xv6.Interrupts

open GuardedRun

variable {C T L : Type*} [DecidableEq C] [DecidableEq T] [DecidableEq L] [Fintype L]
variable {K : Locks L} {s s' : State C T L} {c d : C} {t : T} {code : List (Instr L)} {lk : L}

/-! ## Instructions -/

variable {rest : List (Instr L)} {set : Bool}

theorem Inv.execPushcli (h : Inv K s) (hok : Ok K s c set)
    (hfits : Fits K (s.held c) (s.opened c + 1) set rest) :
    Inv K ((s.pushcli c).setCurrent c rest) := by
  have hcpu := hok.cpu.pushcli
  have hself : (s.pushcli c).cpu c = (s.cpu c).pushcli := Function.update_self _ _ _
  have hopened : (s.pushcli c).opened c = s.opened c + 1 := Function.update_self _ _ _
  have hbefore : (s.pushcli c).before c =
      if (s.cpu c).ncli = 0 then some (s.cpu c).intf else s.before c := by
    unfold State.pushcli
    dsimp only
    split
    · exact Function.update_self _ _ _
    · rfl
  refine h.onlyAt ((onlyAt_pushcli s c).trans (onlyAt_setCurrent _ c rest))
    ⟨set, ok_setCurrent ?_ ?_ hok.holds hok.scheduler hok.own⟩ ?_
  · rw [hself, hopened, hbefore]
    exact hcpu
  · rw [hopened]
    exact hfits
  · rw [State.setCurrent_restored]
    exact h.restored

theorem Inv.execPopcli (h : Inv K s) (hok : Ok K s c set) (hpos : 0 < s.opened c)
    (hfits : Fits K (s.held c) (s.opened c - 1) set rest)
    (hstep : s.exec c K rest .popcli = some s') : Inv K s' := by
  have hdepth : (s.held c).card + s.opened c = (s.held c).card + (s.opened c - 1) + 1 := by omega
  have hcpu := hok.cpu
  rw [hdepth] at hcpu
  obtain ⟨y, log, hpop, hy, hlog⟩ := popcli_eq hcpu h.restored
  rw [State.exec, hpop, Option.map_some] at hstep
  cases hstep
  refine h.onlyAt (((onlyAt_popcli hpop).trans (onlyAt_opened _ c _)).trans
    (onlyAt_setCurrent _ c rest)) ⟨set, ok_setCurrent ?_ ?_ hok.holds hok.scheduler hok.own⟩
    (by simpa using hlog)
  · dsimp only [State.setCpu]
    rw [Function.update_self, Function.update_self]
    exact hy
  · dsimp only
    rw [Function.update_self]
    exact hfits

theorem Inv.execTake (h : Inv K s) (hok : Ok K s c set) (hpos : 0 < s.opened c)
    (hfits : Fits K (insert lk (s.held c)) (s.opened c - 1) set rest)
    (hstep : s.exec c K rest (.take lk) = some s') : Inv K s' := by
  have hheld : s.holding c lk = some (decide (s.lock lk = some c), s.cpu c) :=
    holding_eq hok.cpu (by omega)
  rw [State.exec, State.take, hheld, Option.bind_some] at hstep
  obtain ⟨t, ht, rfl⟩ := Option.map_eq_some_iff.mp hstep
  obtain ⟨-, ht⟩ := Option.ite_none_left_eq_some.mp ht
  obtain ⟨hfree, ht⟩ := Option.ite_none_left_eq_some.mp ht
  cases ht
  have hlock : s.lock lk = none := by simpa using hfree
  have hnotMem : lk ∉ s.held c := by
    rw [mem_held, hlock]
    exact fun hno => by cases hno
  have hat : OnlyAt s c { s.setCpu c (s.cpu c) with
      lock := Function.update s.lock lk (some c)
      opened := Function.update s.opened c (s.opened c - 1) } := by
    refine ((onlyAt_setCpu s c _).trans (onlyAt_lock (x := some c) (fun d hd => ?_)
      (fun d hd => (Option.some.inj hd).symm))).trans (onlyAt_opened _ c _)
    exact absurd (hlock.symm.trans hd) (fun hno => by cases hno)
  have hinsert : State.held { s.setCpu c (s.cpu c) with
      lock := Function.update s.lock lk (some c)
      opened := Function.update s.opened c (s.opened c - 1) } c = insert lk (s.held c) := held_take
  have hcard : (insert lk (s.held c)).card + (s.opened c - 1) = (s.held c).card + s.opened c := by
    rw [Finset.card_insert_of_notMem hnotMem]
    omega
  refine h.onlyAt (hat.trans (onlyAt_setCurrent _ c rest))
    ⟨set, ok_setCurrent ?_ ?_ ?_ hok.scheduler hok.own⟩ ?_
  · rw [hinsert]
    dsimp only [State.setCpu]
    rw [Function.update_self, Function.update_self, hcard]
    exact hok.cpu
  · rw [hinsert]
    dsimp only
    rw [Function.update_self]
    exact hfits
  · rw [hinsert]
    exact fun hset => Finset.mem_insert_of_mem (hok.holds hset)
  · rw [State.setCurrent_restored]
    exact h.restored

theorem Inv.execRelease (h : Inv K s) (hok : Ok K s c set) (hmem : lk ∈ s.held c)
    (hne : set = true → lk ≠ K.ptable) (hfits : Fits K ((s.held c).erase lk) (s.opened c) set rest)
    (hstep : s.exec c K rest (.release lk) = some s') : Inv K s' := by
  have hcard : (s.held c).card + s.opened c =
      ((s.held c).erase lk).card + s.opened c + 1 := by
    have hpos := Finset.card_pos.mpr ⟨lk, hmem⟩
    rw [Finset.card_erase_of_mem hmem]
    omega
  have hcpu := hok.cpu
  rw [hcard] at hcpu
  have hlock : s.lock lk = some c := mem_held.mp hmem
  obtain ⟨u, hu⟩ : ∃ u, u = { s.setCpu c (s.cpu c) with
    lock := Function.update s.lock lk none } := ⟨_, rfl⟩
  have hucpu : u.cpu c = s.cpu c := by
    rw [hu]
    exact Function.update_self _ _ _
  have herase : u.held c = (s.held c).erase lk := by
    rw [hu]
    exact held_release
  have hat : OnlyAt s c u := by
    rw [hu]
    refine (onlyAt_setCpu s c _).trans (onlyAt_lock (x := none) (fun d hd => ?_)
      (fun d hd => by cases hd))
    exact (Option.some.inj (hlock.symm.trans hd)).symm
  have hsame : u.before = s.before ∧ u.opened = s.opened ∧ u.restored = s.restored ∧
      u.proc = s.proc ∧ u.state = s.state := by
    rw [hu]
    exact ⟨rfl, rfl, rfl, rfl, rfl⟩
  obtain ⟨hbefore, hopened, hrestored, hproc, hstate⟩ := hsame
  rw [← hucpu, ← congrFun hbefore c] at hcpu
  obtain ⟨y, log, hpop, hy, hlog⟩ := popcli_eq hcpu (by rw [hrestored]; exact h.restored)
  rw [State.exec, State.release, holding_eq hok.cpu (by omega), Option.bind_some,
    if_neg (by simp [hlock]), ← hu, hpop, Option.map_some] at hstep
  cases hstep
  refine h.onlyAt ((hat.trans (onlyAt_popcli hpop)).trans (onlyAt_setCurrent _ c rest))
    ⟨set, ok_setCurrent ?_ ?_ ?_ ?_ ?_⟩ (by simpa using hlog)
  · change CpuOk (Function.update u.cpu c y c) ((u.held c).card + u.opened c) (u.before c)
    rw [Function.update_self, herase, hopened]
    exact hy
  · change Fits K (u.held c) (u.opened c) set rest
    rw [herase, hopened]
    exact hfits
  · change set = true → K.ptable ∈ u.held c
    rw [herase]
    exact fun hset => Finset.mem_erase.mpr ⟨(hne hset).symm, hok.holds hset⟩
  · change u.proc c = none → set = false
    rw [hproc]
    exact hok.scheduler
  · change ∀ t, u.proc c = some t → Own set (u.state t)
    rw [hproc, hstate]
    exact hok.own

omit [DecidableEq T] [DecidableEq L] in
/-- Outside of the nesting, a CPU holds no lock. -/
theorem outside_eq (hzero : (s.held c).card + s.opened c = 0) :
    s.held c = ∅ ∧ s.opened c = 0 := by
  obtain ⟨hcard, hopened⟩ := Nat.add_eq_zero_iff.mp hzero
  exact ⟨Finset.card_eq_zero.mp hcard, hopened⟩

/-- The interrupt flag is changed outside of the nesting. -/
theorem Inv.setInterrupts (h : Inv K s) (hok : Ok K s c set)
    (hzero : (s.held c).card + s.opened c = 0) (intf : Bool)
    (hfits : Fits K (s.held c) (s.opened c) set code) :
    Inv K ((s.setCpu c { s.cpu c with intf := intf }).setCurrent c code) := by
  refine h.onlyAt ((onlyAt_setCpu s c _).trans (onlyAt_setCurrent _ c code))
    ⟨set, ok_setCurrent ?_ hfits hok.holds hok.scheduler hok.own⟩ ?_
  · change CpuOk (Function.update s.cpu c _ c) ((s.held c).card + s.opened c) (s.before c)
    have hncli := hok.cpu.ncli
    rw [Function.update_self]
    rw [hzero] at hncli ⊢
    exact ⟨hncli, fun hpos => absurd hpos (lt_irrefl 0), fun hpos => absurd hpos (lt_irrefl 0)⟩
  · rw [State.setCurrent_restored]
    exact h.restored

theorem Inv.execSetState (h : Inv K s) (hok : Ok K s c set) {x : ProcState}
    (hmem : K.ptable ∈ s.held c) (hx : Own true x)
    (hfits : Fits K (s.held c) (s.opened c) true rest)
    (hstep : s.exec c K rest (.setState x) = some s') : Inv K s' := by
  obtain ⟨t, ht, rfl⟩ := Option.map_eq_some_iff.mp hstep
  refine h.onlyAt ((onlyAt_state ht x).trans (onlyAt_setCurrent _ c rest))
    ⟨true, ok_setCurrent hok.cpu hfits (fun _ => hmem) ?_ ?_⟩ ?_
  · intro hproc
    rw [ht] at hproc
    cases hproc
  · intro u hu
    obtain rfl : t = u := Option.some.inj (ht.symm.trans hu)
    dsimp only
    rw [Function.update_self]
    exact hx
  · rw [State.setCurrent_restored]
    exact h.restored

theorem Inv.execRestore (h : Inv K s) (hok : Ok K s c set) {intena : Bool}
    {before : Option Bool} (hbefore : ∀ v, before = some v → intena = v)
    (hfits : Fits K (s.held c) (s.opened c) set rest)
    (hstep : s.exec c K rest (.restore intena before) = some s') : Inv K s' := by
  cases hstep
  refine h.onlyAt (((onlyAt_setCpu s c _).trans (onlyAt_before _ c before)).trans
    (onlyAt_setCurrent _ c rest)) ⟨set, ok_setCurrent ?_ hfits hok.holds hok.scheduler hok.own⟩ ?_
  · change CpuOk (Function.update s.cpu c _ c) ((s.held c).card + s.opened c)
      (Function.update s.before c before c)
    rw [Function.update_self, Function.update_self]
    exact ⟨hok.cpu.ncli, hok.cpu.off, fun _ => hbefore⟩
  · rw [State.setCurrent_restored]
    exact h.restored

/-! ## Switching -/

omit [DecidableEq T] in
/-- The tests of `sched`. -/
theorem Ok.schedTests (hok : Ok K s c set) (hproc : s.proc c = some t)
    (hcurrent : s.current c = .sched :: rest) : s.schedTests c K t = some (s.cpu c) := by
  have hfits := hok.fits
  rw [hcurrent] at hfits
  obtain ⟨hheld, hopened, hset, -⟩ := hfits
  have hcpu := hok.cpu
  rw [hheld, hopened, Finset.card_singleton] at hcpu
  have hlock : s.lock K.ptable = some c :=
    mem_held.mp (by rw [hheld]; exact Finset.mem_singleton_self _)
  have hstate : s.state t ≠ .running := by
    have hown := hok.own t hproc
    rw [hset] at hown
    rintro heq
    rw [heq] at hown
    rcases hown with hno | hno | hno <;> cases hno
  have hncli : (s.cpu c).ncli = 1 := hcpu.ncli
  have hoff := hcpu.off Nat.one_pos
  unfold State.schedTests
  rw [holding_eq hcpu Nat.one_pos, Option.bind_some]
  simp [hlock, hncli, hstate, hoff]

/-- A process switches to the scheduler of its CPU. -/
theorem Inv.execSched (h : Inv K s) (hok : Ok K s c set)
    (hcurrent : s.current c = .sched :: rest)
    (hstep : s.exec c K rest .sched = some s') : Inv K s' := by
  obtain ⟨t, ht, hstep⟩ := Option.bind_eq_some_iff.mp hstep
  rw [hok.schedTests ht hcurrent, Option.map_some] at hstep
  cases hstep
  have hfits := hok.fits
  rw [hcurrent] at hfits
  obtain ⟨hheld, hopened, -, hrest⟩ := hfits
  rw [hheld, hopened] at hrest
  have hcpu := hok.cpu
  rw [hheld, hopened, Finset.card_singleton] at hcpu
  obtain ⟨later, hscheduler, hlook⟩ := h.scheduler c t ht
  have hother {d : C} (hd : d ≠ c) : s.proc d ≠ some t := fun hno => hd (h.unique d c t hno ht)
  constructor
  · intro d
    by_cases hd : d = c
    · subst hd
      refine ⟨false, ?_, ?_, fun hno => (by cases hno), fun _ => rfl, fun u hu => ?_⟩
      · change CpuOk (Function.update s.cpu d _ d) ((s.held d).card + s.opened d)
          (Function.update s.before d none d)
        rw [Function.update_self, Function.update_self, hheld, hopened, Finset.card_singleton]
        exact ⟨hcpu.ncli, hcpu.off, fun _ v hv => by cases hv⟩
      · change Fits K (s.held d) (s.opened d) false _
        rw [hheld, hopened]
        unfold State.current
        dsimp only
        rw [Function.update_self]
        exact hscheduler ▸ hlook
      · dsimp only at hu
        rw [Function.update_self] at hu
        cases hu
    · obtain ⟨set', hok'⟩ := h.current d
      refine ⟨set', ?_, ?_, hok'.holds, ?_, ?_⟩
      · change CpuOk (Function.update s.cpu c _ d) ((s.held d).card + s.opened d)
          (Function.update s.before c none d)
        rw [Function.update_of_ne hd, Function.update_of_ne hd]
        exact hok'.cpu
      · have hsame : State.current { s.setCpu c (s.cpu c) with
            code := Function.update s.code t (.restore (s.cpu c).intena (s.before c) :: rest)
            proc := Function.update s.proc c none
            before := Function.update s.before c none } d = s.current d := by
          unfold State.current
          dsimp only
          rw [Function.update_of_ne hd]
          cases hproc : s.proc d with
          | none => rfl
          | some u =>
            have hne : u ≠ t := fun heq => hother hd (heq ▸ hproc)
            exact Function.update_of_ne hne _ _
        rw [hsame]
        exact hok'.fits
      · dsimp only
        rw [Function.update_of_ne hd]
        exact hok'.scheduler
      · dsimp only
        rw [Function.update_of_ne hd]
        exact hok'.own
  · intro d u hu
    dsimp only at hu
    by_cases hd : d = c
    · rw [hd, Function.update_self] at hu
      cases hu
    · rw [Function.update_of_ne hd] at hu
      exact h.scheduler d u hu
  · intro u hu hused
    dsimp only at hu hused ⊢
    by_cases hut : u = t
    · rw [hut, Function.update_self]
      exact ⟨rfl, rfl, hcpu.intena Nat.one_pos, hrest⟩
    · rw [Function.update_of_ne hut]
      refine h.parked u (fun d hd => ?_) hused
      by_cases hdc : d = c
      · rw [hdc, ht] at hd
        exact hut (Option.some.inj hd).symm
      · have hno := hu d
        rw [Function.update_of_ne hdc] at hno
        exact hno hd
  · intro d e u hd he
    dsimp only at hd he
    have hne {f : C} (hf : Function.update s.proc c none f = some u) : s.proc f = some u := by
      by_cases hfc : f = c
      · rw [hfc, Function.update_self] at hf
        cases hf
      · rwa [Function.update_of_ne hfc] at hf
    exact h.unique d e u (hne hd) (hne he)
  · exact h.restored

omit [DecidableEq T] in
/-- A process that runs and has set its state runs on the CPU that holds `ptable.lock`. -/
theorem Inv.holder (h : Inv K s) (hlock : s.lock K.ptable = some c) (hproc : s.proc d = some t)
    (hstate : s.state t ≠ .running) : d = c ∧ (s.state t = .runnable ∨ s.state t = .sleeping ∨
      s.state t = .zombie) := by
  obtain ⟨set, hok⟩ := h.current d
  have hown := hok.own t hproc
  cases set with
  | false => exact absurd hown hstate
  | true =>
    have hheld := mem_held.mp (hok.holds rfl)
    exact ⟨Option.some.inj (hheld.symm.trans hlock), hown⟩

omit [DecidableEq T] in
/-- A scheduler looks for a process with `ptable.lock` held. -/
theorem Inv.looks (h : Inv K s) (hnone : s.proc c = none)
    (hcode : s.schedulerCode c = .look :: rest) :
    s.held c = {K.ptable} ∧ s.opened c = 0 ∧ Fits K ∅ 0 false rest := by
  obtain ⟨set, hok⟩ := h.current c
  have hcurrent : s.current c = .look :: rest := by
    unfold State.current
    rw [hnone]
    exact hcode
  have hfits := hok.fits
  rw [hcurrent] at hfits
  obtain ⟨hheld, hopened, -, hrest⟩ := hfits
  exact ⟨hheld, hopened, hrest⟩

/-- The scheduler switches to a process. -/
theorem Inv.dispatch (h : Inv K s) (hnone : s.proc c = none) (hstate : s.state t = .runnable)
    (hcode : s.schedulerCode c = .look :: rest) : Inv K { s with
      proc := Function.update s.proc c (some t)
      state := Function.update s.state t .running
      before := Function.update s.before c none } := by
  obtain ⟨set, hok⟩ := h.current c
  obtain ⟨hheld, hopened, hrest⟩ := h.looks hnone hcode
  have hlock : s.lock K.ptable = some c :=
    mem_held.mp (by rw [hheld]; exact Finset.mem_singleton_self _)
  have hparked (d : C) : s.proc d ≠ some t := by
    intro hd
    obtain ⟨rfl, -⟩ := h.holder hlock hd (by rw [hstate]; exact fun hno => by cases hno)
    rw [hnone] at hd
    cases hd
  constructor
  · intro d
    by_cases hd : d = c
    · subst hd
      refine ⟨false, ?_, ?_, fun hno => (by cases hno), fun _ => rfl, fun u hu => ?_⟩
      · change CpuOk (s.cpu d) ((s.held d).card + s.opened d) (Function.update s.before d none d)
        rw [Function.update_self]
        exact ⟨hok.cpu.ncli, hok.cpu.off, fun _ v hv => by cases hv⟩
      · change Fits K (s.held d) (s.opened d) false _
        unfold State.current
        dsimp only
        rw [Function.update_self, hheld, hopened]
        exact h.parked t hparked (by rw [hstate]; exact fun hno => by cases hno)
      · dsimp only at hu ⊢
        rw [Function.update_self] at hu
        cases hu
        rw [Function.update_self]
        rfl
    · obtain ⟨set', hok'⟩ := h.current d
      refine ⟨set', ?_, ?_, hok'.holds, ?_, fun u hu => ?_⟩
      · change CpuOk (s.cpu d) ((s.held d).card + s.opened d) (Function.update s.before c none d)
        rw [Function.update_of_ne hd]
        exact hok'.cpu
      · change Fits K (s.held d) (s.opened d) set' _
        unfold State.current
        dsimp only
        rw [Function.update_of_ne hd]
        exact hok'.fits
      · dsimp only
        rw [Function.update_of_ne hd]
        exact hok'.scheduler
      · dsimp only at hu ⊢
        rw [Function.update_of_ne hd] at hu
        have hne : u ≠ t := fun heq => hparked d (heq ▸ hu)
        rw [Function.update_of_ne hne]
        exact hok'.own u hu
  · intro d u hu
    dsimp only at hu
    by_cases hd : d = c
    · rw [hd]
      exact ⟨rest, hcode, rfl, rfl, rfl, hrest⟩
    · rw [Function.update_of_ne hd] at hu
      exact h.scheduler d u hu
  · intro u hu hused
    dsimp only at hu hused ⊢
    have hne : u ≠ t := by
      rintro rfl
      exact hu c (Function.update_self _ _ _)
    rw [Function.update_of_ne hne] at hused
    refine h.parked u (fun d hd => hu d ?_) hused
    have hdc : d ≠ c := by
      rintro rfl
      rw [hnone] at hd
      cases hd
    rw [Function.update_of_ne hdc]
    exact hd
  · intro d e u hd he
    dsimp only at hd he
    by_cases hut : u = t
    · have honly {f : C} (hf : Function.update s.proc c (some t) f = some u) : f = c := by
        by_contra hfc
        rw [Function.update_of_ne hfc, hut] at hf
        exact hparked f hf
      exact (honly hd).trans (honly he).symm
    · have hold {f : C} (hf : Function.update s.proc c (some t) f = some u) :
          s.proc f = some u := by
        by_cases hfc : f = c
        · rw [hfc, Function.update_self] at hf
          exact absurd (Option.some.inj hf).symm hut
        · rwa [Function.update_of_ne hfc] at hf
      exact h.unique d e u (hold hd) (hold he)
  · exact h.restored

/-- The state of a process is changed by another. -/
theorem Inv.changeState (h : Inv K s) {y : ProcState} {code : List (Instr L)}
    (hown : ∀ d set, s.proc d = some t → Ok K s d set → Own set y ∧ code = s.code t)
    (hparked : (∀ d, s.proc d ≠ some t) → y ≠ .unused → Fits K {K.ptable} 0 false code) :
    Inv K { s with
      state := Function.update s.state t y
      code := Function.update s.code t code } := by
  constructor
  · intro d
    obtain ⟨set, hok⟩ := h.current d
    refine ⟨set, hok.cpu, ?_, hok.holds, hok.scheduler, fun u hu => ?_⟩
    · change Fits K (s.held d) (s.opened d) set _
      have hsame : State.current { s with
          state := Function.update s.state t y
          code := Function.update s.code t code } d = s.current d := by
        unfold State.current
        dsimp only
        cases hproc : s.proc d with
        | none => rfl
        | some u =>
          dsimp only
          by_cases hut : u = t
          · rw [hut, Function.update_self]
            exact (hown d set (hut ▸ hproc) hok).2
          · rw [Function.update_of_ne hut]
      rw [hsame]
      exact hok.fits
    · dsimp only at hu ⊢
      by_cases hut : u = t
      · rw [hut, Function.update_self]
        exact (hown d set (hut ▸ hu) hok).1
      · rw [Function.update_of_ne hut]
        exact hok.own u hu
  · exact h.scheduler
  · intro u hu hused
    dsimp only at hu hused ⊢
    by_cases hut : u = t
    · subst hut
      rw [Function.update_self] at hused ⊢
      exact hparked hu hused
    · rw [Function.update_of_ne hut] at hused ⊢
      exact h.parked u hu hused
  · exact h.unique
  · exact h.restored

/-- A CPU goes on with other code. -/
theorem Inv.call (h : Inv K s) (hok : Ok K s c set)
    (hfits : Fits K (s.held c) (s.opened c) set code) : Inv K (s.setCurrent c code) := by
  refine h.onlyAt (onlyAt_setCurrent s c code)
    ⟨set, ok_setCurrent hok.cpu hfits hok.holds hok.scheduler hok.own⟩ ?_
  rw [State.setCurrent_restored]
  exact h.restored

/-- Every instruction keeps the invariant. -/
theorem Inv.exec (h : Inv K s) {i : Instr L} (hcurrent : s.current c = i :: rest)
    (hstep : s.exec c K rest i = some s') : Inv K s' := by
  obtain ⟨set, hok⟩ := h.current c
  have hfits := hok.fits
  rw [hcurrent] at hfits
  cases i with
  | pushcli =>
    cases hstep
    exact h.execPushcli hok hfits
  | popcli => exact h.execPopcli hok hfits.1 hfits.2 hstep
  | take lk => exact h.execTake hok hfits.1 hfits.2 hstep
  | release lk => exact h.execRelease hok hfits.1 hfits.2.1 hfits.2.2 hstep
  | sti =>
    cases hstep
    obtain ⟨hheld, hopened, hrest⟩ := hfits
    exact h.setInterrupts hok (by rw [hheld, hopened]; rfl) true hrest
  | setState x => exact h.execSetState hok hfits.1 hfits.2.1 hfits.2.2 hstep
  | sched => exact h.execSched hok hcurrent hstep
  | restore intena before => exact h.execRestore hok hfits.2.2.1 hfits.2.2.2 hstep
  | look => cases hstep
  | iret =>
    obtain ⟨hzero, heq⟩ := Option.ite_none_right_eq_some.mp hstep
    cases heq
    have hdepth : (s.held c).card + s.opened c = 0 := by
      have hncli := hok.cpu.ncli
      omega
    obtain ⟨hheld, hopened⟩ := outside_eq hdepth
    refine h.setInterrupts hok hdepth true ?_
    rw [hheld, hopened, hfits.1]
    exact hfits.2
  | zombieExit => cases hstep

/-! ## Runs -/

omit [DecidableEq T] in
/-- Between two calls, the code may be executed with any locks. -/
theorem Ok.between (hok : Ok K s c set) (hbetween : s.between c = true) (H : Finset L) (n : ℕ) :
    set = false ∧ Fits K H n false (s.current c) :=
  hok.fits.between hbetween

omit [DecidableEq C] [DecidableEq T] [DecidableEq L] [Fintype L] in
/-- The state is the same when the code of a process is not changed. -/
theorem code_eq (s : State C T L) [DecidableEq T] (t : T) (y : ProcState) :
    { s with state := Function.update s.state t y } =
      { s with
        state := Function.update s.state t y
        code := Function.update s.code t (s.code t) } := by
  rw [Function.update_eq_self]

/-- Every step keeps the invariant. -/
theorem Inv.step (h : Inv K s) {a : Action C T L} (hstep : step K s a = some s') : Inv K s' := by
  cases a with
  | exec c =>
    rw [Interrupts.step] at hstep
    split at hstep
    next => cases hstep
    next i rest hcurrent => exact h.exec hcurrent hstep
  | acquire c lk =>
    obtain ⟨hbetween, heq⟩ := Option.ite_none_right_eq_some.mp hstep
    cases heq
    obtain ⟨set, hok⟩ := h.current c
    obtain ⟨rfl, hfits⟩ := hok.between hbetween (insert lk (s.held c)) (s.opened c)
    exact h.call hok (fits_acquire hfits)
  | release c lk =>
    obtain ⟨⟨hbetween, hlock⟩, heq⟩ := Option.ite_none_right_eq_some.mp hstep
    cases heq
    obtain ⟨set, hok⟩ := h.current c
    obtain ⟨rfl, hfits⟩ := hok.between hbetween ((s.held c).erase lk) (s.opened c)
    exact h.call hok ⟨mem_held.mpr hlock, fun hno => (by cases hno), hfits⟩
  | pushcli c =>
    obtain ⟨hbetween, heq⟩ := Option.ite_none_right_eq_some.mp hstep
    cases heq
    obtain ⟨set, hok⟩ := h.current c
    obtain ⟨rfl, hfits⟩ := hok.between hbetween (s.held c) (s.opened c + 1)
    exact h.call hok hfits
  | popcli c =>
    obtain ⟨⟨hbetween, hpos⟩, heq⟩ := Option.ite_none_right_eq_some.mp hstep
    cases heq
    obtain ⟨set, hok⟩ := h.current c
    obtain ⟨rfl, hfits⟩ := hok.between hbetween (s.held c) (s.opened c - 1)
    exact h.call hok ⟨hpos, hfits⟩
  | setInterrupts c intf =>
    obtain ⟨⟨hbetween, hheld, hopened⟩, heq⟩ := Option.ite_none_right_eq_some.mp hstep
    cases heq
    obtain ⟨set, hok⟩ := h.current c
    have hsame : s.setCpu c { s.cpu c with intf := intf } =
        (s.setCpu c { s.cpu c with intf := intf }).setCurrent c (s.current c) := by
      unfold State.setCurrent State.current
      cases hproc : s.proc c with
      | none => simp [State.setCpu, hproc]
      | some t => simp [State.setCpu, hproc]
    rw [hsame]
    exact h.setInterrupts hok (by rw [hheld, hopened]; rfl) intf hok.fits
  | yield c =>
    obtain ⟨⟨hbetween, -, hheld, hopened⟩, heq⟩ := Option.ite_none_right_eq_some.mp hstep
    cases heq
    obtain ⟨set, hok⟩ := h.current c
    obtain ⟨rfl, hfits⟩ := hok.between hbetween ∅ 0
    refine h.call hok ?_
    rw [hheld, hopened]
    exact fits_yield hfits
  | sleep c lk =>
    obtain ⟨⟨hbetween, -, hheld, hopened⟩, heq⟩ := Option.ite_none_right_eq_some.mp hstep
    cases heq
    obtain ⟨set, hok⟩ := h.current c
    obtain ⟨rfl, hfits⟩ := hok.between hbetween {lk} 0
    refine h.call hok ?_
    rw [hheld, hopened]
    exact fits_sleep hfits
  | exit c =>
    obtain ⟨⟨hbetween, -, hheld, hopened⟩, heq⟩ := Option.ite_none_right_eq_some.mp hstep
    cases heq
    obtain ⟨set, hok⟩ := h.current c
    obtain ⟨rfl, -⟩ := hok.between hbetween ∅ 0
    refine h.call hok ?_
    rw [hheld, hopened]
    exact fits_exit
  | interrupt c =>
    obtain ⟨hon, heq⟩ := Option.ite_none_right_eq_some.mp hstep
    cases heq
    obtain ⟨set, hok⟩ := h.current c
    have hdepth : (s.held c).card + s.opened c = 0 := by
      by_contra hne
      rw [hok.cpu.off (by omega)] at hon
      cases hon
    obtain ⟨hheld, hopened⟩ := outside_eq hdepth
    have hset : set = false := by
      by_contra hset
      have hmem := hok.holds (by simpa using hset)
      rw [hheld] at hmem
      exact Finset.notMem_empty _ hmem
    refine h.setInterrupts hok hdepth false ⟨hset, ?_⟩
    have hfits := hok.fits
    rwa [hheld, hopened, hset] at hfits
  | scheduler c =>
    obtain ⟨⟨hnone, hheld, hopened⟩, hrun⟩ := Option.ite_none_right_eq_some.mp hstep
    obtain ⟨set, hok⟩ := h.current c
    obtain rfl := hok.scheduler hnone
    split at hrun
    next =>
      cases hrun
      refine h.call hok ?_
      rw [hheld, hopened]
      exact fits_scheduler
    next => cases hrun
  | dispatch c t =>
    obtain ⟨⟨hnone, hstate⟩, hrun⟩ := Option.ite_none_right_eq_some.mp hstep
    split at hrun
    next rest hcode =>
      cases hrun
      exact h.dispatch hnone hstate hcode
    next => cases hrun
  | leave c =>
    obtain ⟨hnone, hrun⟩ := Option.ite_none_right_eq_some.mp hstep
    obtain ⟨set, hok⟩ := h.current c
    obtain rfl := hok.scheduler hnone
    split at hrun
    next rest hcode =>
      cases hrun
      obtain ⟨hheld, hopened, hrest⟩ := h.looks hnone hcode
      refine h.call hok ?_
      rw [hheld, hopened]
      refine ⟨Finset.mem_singleton_self _, fun hno => (by cases hno), ?_⟩
      rwa [Finset.erase_singleton]
    next => cases hrun
  | wakeup c t =>
    obtain ⟨⟨hlock, hstate⟩, heq⟩ := Option.ite_none_right_eq_some.mp hstep
    cases heq
    rw [code_eq]
    refine h.changeState (fun d set hproc hok => ⟨?_, rfl⟩) fun hparked _ => ?_
    · have hown := hok.own t hproc
      rw [hstate] at hown
      cases set with
      | false => cases hown
      | true => exact Or.inl rfl
    · exact h.parked t hparked (by rw [hstate]; exact fun hno => by cases hno)
  | alloc c t =>
    obtain ⟨⟨hlock, hstate⟩, heq⟩ := Option.ite_none_right_eq_some.mp hstep
    cases heq
    refine h.changeState (fun d set hproc hok => ?_) fun _ _ => fits_forkret
    obtain ⟨-, hno⟩ := h.holder hlock hproc (by rw [hstate]; exact fun hno => by cases hno)
    rw [hstate] at hno
    rcases hno with hno | hno | hno <;> cases hno
  | ready c t =>
    obtain ⟨⟨hlock, hstate⟩, heq⟩ := Option.ite_none_right_eq_some.mp hstep
    cases heq
    rw [code_eq]
    refine h.changeState (fun d set hproc hok => ?_) fun hparked _ => ?_
    · obtain ⟨-, hno⟩ := h.holder hlock hproc (by rw [hstate]; exact fun hno => by cases hno)
      rw [hstate] at hno
      rcases hno with hno | hno | hno <;> cases hno
    · exact h.parked t hparked (by rw [hstate]; exact fun hno => by cases hno)
  | reap c t =>
    obtain ⟨⟨hlock, hproc, hstate⟩, heq⟩ := Option.ite_none_right_eq_some.mp hstep
    cases heq
    rw [code_eq]
    refine h.changeState (fun d set hd hok => ?_) fun _ hno => absurd rfl hno
    obtain ⟨rfl, -⟩ := h.holder hlock hd (by rw [hstate]; exact fun hno => by cases hno)
    exact absurd hd hproc

omit [DecidableEq T] in
theorem inv_boot (K : Locks L) : Inv K (boot : State C T L) := by
  have hheld (c : C) : (boot : State C T L).held c = ∅ := by
    ext lk
    rw [mem_held]
    exact iff_of_false (fun hno => by cases hno) (Finset.notMem_empty _)
  constructor
  · intro c
    refine ⟨false, ?_, ?_, fun hno => (by cases hno), fun _ => rfl, fun t ht => by cases ht⟩
    · rw [hheld]
      exact ⟨rfl, fun hpos => absurd hpos (lt_irrefl 0), fun hpos => absurd hpos (lt_irrefl 0)⟩
    · rw [hheld]
      exact rfl
  · exact fun c t ht => by cases ht
  · exact fun t _ hused => absurd rfl hused
  · exact fun c d t ht => by cases ht
  · exact fun r hr => by cases hr

/-- In every run: `ncli` is the number of locks held and of calls of `pushcli` that have not been
undone, and interrupts are off when it is positive; each time that it has come back to 0, the flag
was again what it was before the first `pushcli`, also where the process has gone on on another
CPU; and whenever a process comes to `sched`, all of its tests are passed. -/
theorem nesting_exact {trace : List (Action C T L)}
    (hrun : Run (step K) GuardedRun.free boot trace s) :
    (∀ c, (s.cpu c).ncli = (s.held c).card + s.opened c ∧
      (0 < (s.cpu c).ncli → (s.cpu c).intf = false)) ∧
    (∀ r ∈ s.restored, ∀ v, r.1 = some v → r.2 = v) ∧
    ∀ c t rest, s.proc c = some t → s.current c = .sched :: rest →
      s.schedTests c K t = some (s.cpu c) := by
  have h : Inv K s := hrun.invariant (I := fun _ s => Inv K s) (inv_boot K)
    fun _ _ _ _ h _ hstep => h.step hstep
  refine ⟨fun c => ?_, h.restored, fun c t rest hproc hcurrent => ?_⟩
  · obtain ⟨set, hok⟩ := h.current c
    have hncli := hok.cpu.ncli
    push_cast at hncli
    exact ⟨hncli, fun hpos => hok.cpu.off (by omega)⟩
  · obtain ⟨set, hok⟩ := h.current c
    exact hok.schedTests hproc hcurrent

/-- Three locks. -/
def threeLocks : Locks (Fin 3) := ⟨0, 1, 2, by decide, by decide⟩

/-- A process is started on one CPU, enables interrupts and yields, and goes on on another CPU,
where interrupts are enabled when it has released `ptable.lock`. -/
theorem nesting_exact_migration : ∃ s : State Bool Unit (Fin 3),
    (s.proc true = some () ∧ s.restored.head? = some (some true, true)) ∧
    (∀ c, (s.cpu c).ncli = (s.held c).card + s.opened c ∧
      (0 < (s.cpu c).ncli → (s.cpu c).intf = false)) ∧
    (∀ r ∈ s.restored, ∀ v, r.1 = some v → r.2 = v) ∧
    ∀ c t rest, s.proc c = some t → s.current c = .sched :: rest →
      s.schedTests c threeLocks t = some (s.cpu c) := by
  have hexec : ∃ s : State Bool Unit (Fin 3),
      exec (step threeLocks) GuardedRun.free [] boot
        [.scheduler false, .exec false, .exec false, .exec false, .alloc false (),
          .ready false (), .dispatch false (), .exec false, .setInterrupts false true,
          .yield false, .exec false, .exec false, .exec false, .exec false, .leave false,
          .exec false, .scheduler true, .exec true, .exec true, .exec true, .dispatch true (),
          .exec true, .exec true] = some s ∧
      s.proc true = some () ∧ s.restored.head? = some (some true, true) := ⟨_, rfl, rfl, rfl⟩
  obtain ⟨s, hexec, hshape⟩ := hexec
  exact ⟨s, hshape, nesting_exact (run_of_exec hexec)⟩

end Xv6.Interrupts
