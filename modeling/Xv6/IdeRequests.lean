import Xv6.Ide

/-!
# Requests to the disk

Requests are completed in the order in which they have been queued, each once, and `iderw`
returns after its own. The first request of the queue is the one the disk works on: its command
has been started, or it has been performed and an interrupt is pending. Unless the disk has
reported an error, buffer and block are equal when the buffer is marked.
-/

namespace Xv6.Ide

open GuardedRun BufferCache

variable {P B α : Type*} {s s' : State P B α} {p q : P} {b c : B} {n : ℕ}

/-- A buffer with which `iderw` has been called, before the request is completed. -/
structure Buf.Requested (x : Buf α) : Prop where
  /-- The block is one of the file system. -/
  blockno_lt : x.blockno < fssize
  /-- It is dirty or not valid. -/
  not_synced : x.synced = false

/-- What the disk does for the first request of the queue. -/
def Device (s : State P B α) : Prop :=
  match s.idequeue with
  | [] => s.command = none ∧ s.irq = false
  | b :: _ =>
    (s.command = some (s.buf b).command ∧ s.irq = false) ∨
      (s.command = none ∧ s.irq = true ∧
        (s.err = false → (if (s.buf b).dirty then (s.buf b).data else s.port) = s.block b))

theorem device_nil (hq : s.idequeue = []) : Device s ↔ s.command = none ∧ s.irq = false := by
  unfold Device
  rw [hq]

theorem device_cons {rest : List B} (hq : s.idequeue = b :: rest) :
    Device s ↔ (s.command = some (s.buf b).command ∧ s.irq = false) ∨
      (s.command = none ∧ s.irq = true ∧
        (s.err = false → (if (s.buf b).dirty then (s.buf b).data else s.port) = s.block b)) := by
  unfold Device
  rw [hq]

/-- What holds in every state of a run. -/
structure Inv (s : State P B α) : Prop where
  /-- The requests queued are those completed and those that wait, in order. -/
  order : s.queued = s.completed.map Completion.buf ++ s.idequeue
  /-- A process that has called `iderw` has locked its buffer. -/
  entering : ∀ p b, s.pc p = .entering b → s.lock b = some p ∧ (s.buf b).Requested
  /-- So has a process that waits, and its `iderw` has not returned. -/
  numbered : ∀ p b n, (s.pc p).request = some (b, n) →
    s.lock b = some p ∧ s.queued[n]? = some b ∧ n ∉ s.returned.map Prod.snd
  /-- The request of a process that sleeps has not been completed. -/
  sleeping : ∀ p b n, s.pc p = .asleep b n → s.completed.length ≤ n
  /-- Some process waits for each request of the queue. -/
  waiting : ∀ (i : ℕ) b, s.idequeue[i]? = some b →
    ∃ p, (s.pc p).request = some (b, s.completed.length + i)
  /-- The buffers of the queue are dirty or not valid. -/
  requested : ∀ b ∈ s.idequeue, (s.buf b).Requested
  /-- A buffer whose request has been completed is valid and not dirty, until `iderw` returns. -/
  synced : ∀ p b n, (s.pc p).request = some (b, n) → n < s.completed.length →
    (s.buf b).synced = true
  /-- A call returns after its request has been completed. -/
  returned : ∀ r ∈ s.returned, (s.completed.map Completion.buf)[r.2]? = some r.1
  /-- It returns once. -/
  once : (s.returned.map Prod.snd).Nodup
  /-- The disk works on the first request. -/
  device : Device s
  /-- What has been marked without an error is what is on the disk. -/
  truthful : ∀ r ∈ s.completed, r.err = false → r.data = r.block

/-! ## Consequences -/

/-- The four ports take all bits of the number of a block of the file system. -/
theorem lba_eq {blockno : ℕ} (hlt : blockno < fssize) : lba blockno = blockno := by
  unfold fssize at hlt
  unfold lba
  omega

/-- The process that has locked a buffer is not in `iderw` with another request. -/
theorem Inv.request_inj {m : ℕ} (h : Inv s) (hp : (s.pc p).request = some (b, n))
    (hq : (s.pc q).request = some (b, m)) : p = q ∧ n = m := by
  have heq : p = q :=
    Option.some.inj ((h.numbered p b n hp).1.symm.trans (h.numbered q b m hq).1)
  subst heq
  rw [hp] at hq
  cases hq
  exact ⟨rfl, rfl⟩

/-- No buffer is in the queue twice. -/
theorem Inv.index_inj {i j : ℕ} (h : Inv s) (hi : s.idequeue[i]? = some b)
    (hj : s.idequeue[j]? = some b) : i = j := by
  obtain ⟨p, hp⟩ := h.waiting i b hi
  obtain ⟨q, hq⟩ := h.waiting j b hj
  have heq := (h.request_inj hp hq).2
  omega

/-- The buffer of a process that does not wait for a request is not in the queue. -/
theorem Inv.notMem_of_lock (h : Inv s) (hlock : s.lock b = some p)
    (hpc : (s.pc p).request = none) : b ∉ s.idequeue := by
  intro hb
  obtain ⟨i, hi⟩ := List.getElem?_of_mem hb
  obtain ⟨q, hq⟩ := h.waiting i b hi
  have heq : p = q := Option.some.inj (hlock.symm.trans (h.numbered q b _ hq).1)
  rw [heq, hq] at hpc
  cases hpc

/-- A buffer that nobody has locked is not in the queue. -/
theorem Inv.notMem_of_unlocked (h : Inv s) (hlock : s.lock b = none) : b ∉ s.idequeue := by
  intro hb
  obtain ⟨i, hi⟩ := List.getElem?_of_mem hb
  obtain ⟨q, hq⟩ := h.waiting i b hi
  rw [(h.numbered q b _ hq).1] at hlock
  cases hlock

/-- The number of a request that has not been completed says where it is in the queue. -/
theorem Inv.getElem?_sub (h : Inv s) (hp : (s.pc p).request = some (b, n))
    (hn : s.completed.length ≤ n) : s.idequeue[n - s.completed.length]? = some b := by
  have hqueued := (h.numbered p b n hp).2.1
  rw [h.order, List.getElem?_append_right (by rwa [List.length_map]), List.length_map] at hqueued
  exact hqueued

/-- A request of the queue has not been completed. -/
theorem Inv.le_of_not_synced (h : Inv s) (hp : (s.pc p).request = some (b, n))
    (hsynced : (s.buf b).synced = false) : s.completed.length ≤ n := by
  by_contra hlt
  rw [h.synced p b n hp (by omega)] at hsynced
  cases hsynced

/-- The number of a request that has been completed is one of those completed. -/
theorem Inv.completed_eq (h : Inv s) (hp : (s.pc p).request = some (b, n))
    (hsynced : (s.buf b).synced = true) : (s.completed.map Completion.buf)[n]? = some b := by
  have hlt : n < s.completed.length := by
    by_contra hge
    have hmem := List.mem_of_getElem? (h.getElem?_sub hp (by omega))
    rw [(h.requested b hmem).not_synced] at hsynced
    cases hsynced
  have hqueued := (h.numbered p b n hp).2.1
  rw [h.order, List.getElem?_append_left (by rwa [List.length_map])] at hqueued
  exact hqueued

/-- The command that has been started is the one for the first request. -/
theorem Inv.command_eq (h : Inv s) {x : Command α} (hcommand : s.command = some x) :
    ∃ b rest, s.idequeue = b :: rest ∧ x.drive = (s.buf b).dev % 2 ∧
      x.sector = (s.buf b).blockno ∧
      x.data = if (s.buf b).dirty then some (s.buf b).data else none := by
  cases hq : s.idequeue with
  | nil =>
    rw [((device_nil hq).mp h.device).1] at hcommand
    cases hcommand
  | cons b rest =>
    rcases (device_cons hq).mp h.device with ⟨hstarted, -⟩ | ⟨hnone, -⟩
    · have hblockno := (h.requested b (by rw [hq]; exact List.mem_cons_self)).blockno_lt
      rw [hstarted] at hcommand
      cases hcommand
      exact ⟨b, rest, rfl, rfl, lba_eq hblockno, rfl⟩
    · rw [hnone] at hcommand
      cases hcommand

/-- The buffer of a process in `iderw` is another one than a buffer that no such process has
locked. -/
theorem ne_of_free (hfree : ∀ p, s.lock b = some p → s.pc p = .idle) (hp : s.lock c = some p)
    (hpc : s.pc p ≠ .idle) : c ≠ b := by
  rintro rfl
  exact hpc (hfree p hp)

/-- A process that has called `iderw` is not idle. -/
theorem ne_idle_of_entering (hp : s.pc p = .entering b) : s.pc p ≠ .idle := by
  rw [hp]
  exact fun hidle => by cases hidle

/-- A process that waits for a request is not idle. -/
theorem ne_idle_of_request (hp : (s.pc p).request = some (b, n)) : s.pc p ≠ .idle := by
  intro hidle
  rw [hidle] at hp
  cases hp

/-- A buffer that no process in `iderw` has locked is not in the queue. -/
theorem Inv.notMem_of_free (h : Inv s) (hfree : ∀ p, s.lock b = some p → s.pc p = .idle) :
    b ∉ s.idequeue := by
  cases hlock : s.lock b with
  | none => exact h.notMem_of_unlocked hlock
  | some p => exact h.notMem_of_lock hlock (by rw [hfree p hlock]; rfl)

/-! ## Steps of the processes -/

section

variable [DecidableEq B]

/-- The lock of a buffer that no process in `iderw` has locked may change hands. -/
theorem Inv.setLock (h : Inv s) (hfree : ∀ p, s.lock b = some p → s.pc p = .idle)
    (x : Option P) : Inv { s with lock := Function.update s.lock b x } := by
  have hkeep {q : P} {c : B} (hlock : s.lock c = some q) (hpc : s.pc q ≠ .idle) :
      Function.update s.lock b x c = some q := by
    rw [Function.update_of_ne (ne_of_free hfree hlock hpc)]
    exact hlock
  refine { h with entering := fun q c hq => ?_, numbered := fun q c n hq => ?_ }
  · obtain ⟨hlock, hrequested⟩ := h.entering q c hq
    exact ⟨hkeep hlock (ne_idle_of_entering hq), hrequested⟩
  · obtain ⟨hlock, hrest⟩ := h.numbered q c n hq
    exact ⟨hkeep hlock (ne_idle_of_request hq), hrest⟩

/-- So may its contents. -/
theorem Inv.setBuf (h : Inv s) (hfree : ∀ p, s.lock b = some p → s.pc p = .idle) (x : Buf α) :
    Inv (s.setBuf b x) := by
  have hqueue := h.notMem_of_free hfree
  constructor
  · exact h.order
  · intro q c (hq : s.pc q = .entering c)
    obtain ⟨hlock, hrequested⟩ := h.entering q c hq
    refine ⟨hlock, ?_⟩
    rwa [State.setBuf_buf_of_ne (ne_of_free hfree hlock (ne_idle_of_entering hq))]
  · exact h.numbered
  · exact h.sleeping
  · exact h.waiting
  · intro c hc
    have hne : c ≠ b := fun heq => hqueue (heq ▸ hc)
    rw [State.setBuf_buf_of_ne hne]
    exact h.requested c hc
  · intro q c n hq hn
    have hlock := (h.numbered q c n hq).1
    rw [State.setBuf_buf_of_ne (ne_of_free hfree hlock (ne_idle_of_request hq))]
    exact h.synced q c n hq hn
  · exact h.returned
  · exact h.once
  · cases hq : s.idequeue with
    | nil => exact (device_nil (s := s.setBuf b x) hq).mpr ((device_nil hq).mp h.device)
    | cons c rest =>
      have hne : c ≠ b := fun heq => hqueue (by rw [hq, heq]; exact List.mem_cons_self)
      have hdevice := (device_cons hq).mp h.device
      apply (device_cons (s := s.setBuf b x) hq).mpr
      simp only [State.block, State.setBuf_buf_of_ne hne]
      exact hdevice
  · exact h.truthful

end

section

variable [DecidableEq P]

/-- A process goes on in `iderw` with the same request, or with none as before. -/
theorem Inv.goto (h : Inv s) {pc : Pc B} (hrequest : pc.request = (s.pc p).request)
    (hentering : ∀ b, pc = .entering b → s.lock b = some p ∧ (s.buf b).Requested)
    (hasleep : ∀ b n, pc = .asleep b n → s.completed.length ≤ n) : Inv (s.goto p pc) := by
  have hsame {q : P} : ((s.goto p pc).pc q).request = (s.pc q).request := by
    by_cases heq : q = p
    · rw [heq, State.goto_pc_self, hrequest]
    · rw [State.goto_pc_of_ne heq]
  refine { h with entering := ?_, numbered := ?_, sleeping := ?_, waiting := ?_, synced := ?_ }
  · intro q c hq
    by_cases heq : q = p
    · rw [heq, State.goto_pc_self] at hq
      exact heq ▸ hentering c hq
    · rw [State.goto_pc_of_ne heq] at hq
      exact h.entering q c hq
  · intro q c n hq
    rw [hsame] at hq
    exact h.numbered q c n hq
  · intro q c n hq
    by_cases heq : q = p
    · rw [heq, State.goto_pc_self] at hq
      exact hasleep c n hq
    · rw [State.goto_pc_of_ne heq] at hq
      exact h.sleeping q c n hq
  · intro i c hi
    obtain ⟨q, hq⟩ := h.waiting i c hi
    exact ⟨q, by rwa [hsame]⟩
  · intro q c n hq hn
    rw [hsame] at hq
    exact h.synced q c n hq hn

/-- A process calls `iderw`. -/
theorem Inv.call (h : Inv s) (hidle : s.pc p = .idle) (hlock : s.lock b = some p)
    (hrequested : (s.buf b).Requested) : Inv (s.goto p (.entering b)) := by
  refine h.goto (by rw [hidle]; rfl) (fun c hc => ?_) fun c n hc => by cases hc
  cases hc
  exact ⟨hlock, hrequested⟩

/-- A process that waits for a request is woken, or goes to sleep again. -/
theorem Inv.goto_waiting (h : Inv s) {pc : Pc B} (hp : (s.pc p).request = some (b, n))
    (hpc : pc.request = some (b, n)) (hsleep : pc = .asleep b n → s.completed.length ≤ n) :
    Inv (s.goto p pc) := by
  refine h.goto (hpc.trans hp.symm) (fun c hc => ?_) fun c m hc => ?_
  · rw [hc] at hpc
    cases hpc
  · have hsame := hpc
    rw [hc] at hsame
    cases hsame
    exact hsleep hc

/-- `iderw` returns. -/
theorem Inv.goto_idle (h : Inv s) (hp : (s.pc p).request = some (b, n))
    (hsynced : (s.buf b).synced = true) :
    Inv { s.goto p .idle with returned := (b, n) :: s.returned } := by
  have hcompleted := h.completed_eq hp hsynced
  have hlt : n < s.completed.length := by
    rw [← List.length_map (f := Completion.buf)]
    exact (List.getElem?_eq_some_iff.mp hcompleted).1
  have hmoved {q : P} {pc : Pc B} (hq : (s.goto p .idle).pc q = pc) (hpc : pc ≠ .idle) :
      q ≠ p ∧ s.pc q = pc := by
    by_cases heq : q = p
    · rw [heq, State.goto_pc_self] at hq
      exact absurd hq.symm hpc
    · rw [State.goto_pc_of_ne heq] at hq
      exact ⟨heq, hq⟩
  have hrequest {q : P} {c : B} {m : ℕ} (hq : ((s.goto p .idle).pc q).request = some (c, m)) :
      q ≠ p ∧ (s.pc q).request = some (c, m) := by
    obtain ⟨hne, hpc⟩ := hmoved rfl fun hidle => by rw [hidle] at hq; cases hq
    exact ⟨hne, by rwa [hpc]⟩
  constructor
  · exact h.order
  · exact fun q c hq => h.entering q c (hmoved hq fun hidle => by cases hidle).2
  · intro q c m hq
    obtain ⟨hne, hold⟩ := hrequest hq
    obtain ⟨hlock, hqueued, hnot⟩ := h.numbered q c m hold
    refine ⟨hlock, hqueued, ?_⟩
    rw [List.map_cons, List.mem_cons]
    rintro (rfl | hin)
    · obtain rfl : c = b := Option.some.inj (hqueued.symm.trans (h.numbered p b m hp).2.1)
      exact hne (h.request_inj hold hp).1
    · exact hnot hin
  · exact fun q c m hq => h.sleeping q c m (hmoved hq fun hidle => by cases hidle).2
  · intro i c hi
    obtain ⟨q, hq⟩ := h.waiting i c hi
    have hne : q ≠ p := by
      rintro rfl
      rw [hp] at hq
      cases hq
      exact absurd hlt (by omega)
    refine ⟨q, ?_⟩
    change ((s.goto p .idle).pc q).request = _
    rwa [State.goto_pc_of_ne hne]
  · exact h.requested
  · exact fun q c m hq hm => h.synced q c m (hrequest hq).2 hm
  · intro r hr
    rcases List.mem_cons.mp hr with rfl | hr
    · exact hcompleted
    · exact h.returned r hr
  · rw [List.map_cons, List.nodup_cons]
    exact ⟨(h.numbered p b n hp).2.2, h.once⟩
  · exact h.device
  · exact h.truthful

/-- The test of the `while` of `iderw`. -/
theorem Inv.iderwWait (h : Inv s) (hp : (s.pc p).request = some (b, n)) :
    Inv (iderwWait s p b n) := by
  unfold Ide.iderwWait
  split
  next hsynced => exact h.goto_idle hp hsynced
  next hsynced =>
    exact h.goto_waiting hp rfl fun _ => h.le_of_not_synced hp (Bool.not_eq_true _ ▸ hsynced)

end

/-! ## Queueing -/

variable [DecidableEq P] [DecidableEq B]

omit [DecidableEq P] [DecidableEq B] in
/-- `idestart` starts an idle disk. -/
theorem idestart_eq (hcommand : s.command = none) (hlt : (s.buf b).blockno < fssize) :
    idestart s b = some { s with command := some (s.buf b).command } := by
  unfold idestart
  rw [if_neg (not_le.mpr hlt), if_neg (by rw [hcommand]; exact Bool.false_ne_true)]

/-- The state after the critical section of `iderw`. -/
def enqueue (s : State P B α) (p : P) (b : B) : State P B α :=
  { s.goto p (.asleep b s.queued.length) with
    idequeue := s.idequeue ++ [b]
    queued := s.queued ++ [b]
    command := if s.idequeue = [] then some (s.buf b).command else s.command }

/-- `iderw` puts the buffer into the queue, starts the disk if the queue was empty, and sleeps. -/
theorem Inv.iderw_eq (h : Inv s) (hp : s.pc p = .entering b) :
    iderw s p b = some (enqueue s p b) := by
  obtain ⟨hlock, hrequested⟩ := h.entering p b hp
  unfold Ide.iderw enqueue
  cases hq : s.idequeue with
  | nil =>
    have hdevice := (device_nil hq).mp h.device
    have hstart := idestart_eq (s := { s with idequeue := [b], queued := s.queued ++ [b] })
      (b := b) hdevice.1 hrequested.blockno_lt
    simp only [List.nil_append, List.head?_cons, if_true, hstart, Option.map_some, Ide.iderwWait,
      hrequested.not_synced, Bool.false_eq_true, if_false]
    rfl
  | cons c rest =>
    have hne : c ≠ b := by
      rintro rfl
      exact h.notMem_of_lock hlock (by rw [hp]; rfl) (by rw [hq]; exact List.mem_cons_self)
    simp only [List.cons_append, List.head?_cons, Option.some.injEq, if_neg hne, Option.map_some,
      Ide.iderwWait, hrequested.not_synced, Bool.false_eq_true, if_false, reduceCtorEq]
    rfl

omit [DecidableEq B] in
/-- A buffer is put into the queue. -/
theorem Inv.enqueue (h : Inv s) (hp : s.pc p = .entering b) : Inv (enqueue s p b) := by
  obtain ⟨hlock, hrequested⟩ := h.entering p b hp
  have hlength : s.queued.length = s.completed.length + s.idequeue.length := by
    rw [h.order, List.length_append, List.length_map]
  have hself : (Ide.enqueue s p b).pc p = .asleep b s.queued.length := State.goto_pc_self
  have hother {q : P} (hne : q ≠ p) : (Ide.enqueue s p b).pc q = s.pc q := State.goto_pc_of_ne hne
  have hrequest {q : P} {c : B} {m : ℕ}
      (hq : ((Ide.enqueue s p b).pc q).request = some (c, m)) :
      (q = p ∧ c = b ∧ m = s.queued.length) ∨ (q ≠ p ∧ (s.pc q).request = some (c, m)) := by
    by_cases heq : q = p
    · rw [heq, hself] at hq
      cases hq
      exact Or.inl ⟨heq, rfl, rfl⟩
    · rw [hother heq] at hq
      exact Or.inr ⟨heq, hq⟩
  constructor
  · change s.queued ++ [b] = _ ++ (s.idequeue ++ [b])
    rw [h.order, List.append_assoc]
    rfl
  · intro q c hq
    by_cases heq : q = p
    · rw [heq, hself] at hq
      cases hq
    · rw [hother heq] at hq
      exact h.entering q c hq
  · intro q c m hq
    change s.lock c = some q ∧ (s.queued ++ [b])[m]? = some c ∧ _
    rcases hrequest hq with ⟨rfl, rfl, rfl⟩ | ⟨-, hold⟩
    · refine ⟨hlock, List.getElem?_concat_length, fun hin => ?_⟩
      obtain ⟨r, hr, heq⟩ := List.mem_map.mp hin
      have hlt := (List.getElem?_eq_some_iff.mp (h.returned r hr)).1
      rw [List.length_map] at hlt
      omega
    · obtain ⟨hlockq, hqueued, hnot⟩ := h.numbered q c m hold
      have hlt := (List.getElem?_eq_some_iff.mp hqueued).1
      exact ⟨hlockq, by rwa [List.getElem?_append_left hlt], hnot⟩
  · intro q c m hq
    change s.completed.length ≤ m
    by_cases heq : q = p
    · rw [heq, hself] at hq
      cases hq
      omega
    · rw [hother heq] at hq
      exact h.sleeping q c m hq
  · intro i c hi
    change (s.idequeue ++ [b])[i]? = some c at hi
    change ∃ q, _ = some (c, s.completed.length + i)
    rcases Nat.lt_or_ge i s.idequeue.length with hlt | hge
    · rw [List.getElem?_append_left hlt] at hi
      obtain ⟨q, hq⟩ := h.waiting i c hi
      have hne : q ≠ p := by
        rintro rfl
        rw [hp] at hq
        cases hq
      exact ⟨q, by rwa [hother hne]⟩
    · rw [List.getElem?_append_right hge] at hi
      obtain ⟨hzero, hc⟩ := List.getElem?_eq_some_iff.mp hi
      rw [List.length_singleton] at hzero
      obtain rfl : i = s.idequeue.length := by omega
      rw [List.getElem_singleton] at hc
      refine ⟨p, ?_⟩
      rw [hself, hlength, hc]
      rfl
  · intro c hc
    rcases List.mem_append.mp hc with hc | hc
    · exact h.requested c hc
    · obtain rfl := List.mem_singleton.mp hc
      exact hrequested
  · intro q c m hq hm
    change m < s.completed.length at hm
    rcases hrequest hq with ⟨-, -, rfl⟩ | ⟨-, hold⟩
    · omega
    · exact h.synced q c m hold hm
  · exact h.returned
  · exact h.once
  · cases hq : s.idequeue with
    | nil =>
      have hqueue : (Ide.enqueue s p b).idequeue = b :: [] := by
        change s.idequeue ++ [b] = _
        rw [hq]
        rfl
      exact (device_cons hqueue).mpr (Or.inl ⟨if_pos hq, ((device_nil hq).mp h.device).2⟩)
    | cons c rest =>
      have hqueue : (Ide.enqueue s p b).idequeue = c :: (rest ++ [b]) := by
        change s.idequeue ++ [b] = _
        rw [hq]
        rfl
      have hcommand : (Ide.enqueue s p b).command = s.command :=
        if_neg (by rw [hq]; exact List.cons_ne_nil c rest)
      apply (device_cons hqueue).mpr
      rw [hcommand]
      exact (device_cons hq).mp h.device
  · exact h.truthful

/-! ## The disk -/

omit [DecidableEq P] [DecidableEq B] in
/-- A disk performs the command, or reports an error. -/
theorem Inv.perform (h : Inv s) {fails : Bool} (hstep : perform s fails = some s') : Inv s' := by
  obtain ⟨x, hcommand, rfl⟩ := Option.map_eq_some_iff.mp hstep
  obtain ⟨b, rest, hq, hdrive, hsector, hdata⟩ := h.command_eq hcommand
  cases fails with
  | true =>
    rw [if_pos rfl]
    refine { h with device := ?_ }
    unfold Device
    simp [hq]
  | false =>
    simp only [Bool.false_eq_true, if_false, hdata]
    by_cases hdirty : (s.buf b).dirty = true
    · rw [if_pos hdirty]
      refine { h with device := ?_ }
      unfold Device
      simp [hq, if_pos hdirty, State.block, hdrive, hsector]
    · rw [if_neg hdirty]
      refine { h with device := ?_ }
      unfold Device
      simp [hq, if_neg hdirty, State.block, hdrive, hsector]

/-! ## The interrupt -/

/-- The first request of the queue has been completed. -/
structure Marked (s : State P B α) (b : B) (rest : List B) (t : State P B α) : Prop where
  /-- The others are still in the queue. -/
  idequeue : t.idequeue = rest
  /-- Nothing has been queued. -/
  queued : t.queued = s.queued
  /-- Nobody has locked or released a buffer. -/
  lock : t.lock = s.lock
  /-- No call has returned. -/
  returned : t.returned = s.returned
  /-- The other buffers have not changed. -/
  buf_of_ne : ∀ c, c ≠ b → t.buf c = s.buf c
  /-- The buffer has been marked. -/
  synced : (t.buf b).synced = true
  /-- The processes wait for the same requests. -/
  request : ∀ p, (t.pc p).request = (s.pc p).request
  /-- Those that have called `iderw` are where they were. -/
  entering : ∀ p c, t.pc p = .entering c → s.pc p = .entering c
  /-- The process that waits for the buffer does not sleep. -/
  asleep : ∀ p c n, t.pc p = .asleep c n → s.pc p = .asleep c n ∧ c ≠ b
  /-- The disk has not reported anything else. -/
  err : t.err = s.err
  /-- The request has been completed. -/
  completed : ∃ r, t.completed = s.completed ++ [r] ∧ r.buf = b ∧ r.err = s.err ∧
    (r.err = false → r.data = r.block)

omit [DecidableEq P] [DecidableEq B] in
/-- The first request of the queue is completed. -/
theorem Inv.marked {rest : List B} {t : State P B α} (h : Inv s) (hq : s.idequeue = b :: rest)
    (ht : Marked s b rest t) (hdevice : Device t) : Inv t := by
  obtain ⟨r, hcompleted, rfl, -, htruthful⟩ := ht.completed
  have hfirst : s.idequeue[0]? = some r.buf := by rw [hq]; rfl
  have hlength : t.completed.length = s.completed.length + 1 := by
    rw [hcompleted, List.length_append, List.length_singleton]
  have hne {c : B} {i : ℕ} (hi : rest[i]? = some c) : c ≠ r.buf := by
    rintro rfl
    have hlater : s.idequeue[i + 1]? = some r.buf := by rwa [hq, List.getElem?_cons_succ]
    have heq := h.index_inj hfirst hlater
    omega
  constructor
  · rw [ht.queued, ht.idequeue, h.order, hcompleted, hq, List.map_append, List.append_assoc]
    rfl
  · intro p c hp
    have hp := ht.entering p c hp
    obtain ⟨hlock, hrequested⟩ := h.entering p c hp
    have hc : c ≠ r.buf := by
      rintro rfl
      exact h.notMem_of_lock hlock (by rw [hp]; rfl) (List.mem_of_getElem? hfirst)
    rw [ht.lock, ht.buf_of_ne c hc]
    exact ⟨hlock, hrequested⟩
  · intro p c n hp
    rw [ht.request] at hp
    rw [ht.lock, ht.queued, ht.returned]
    exact h.numbered p c n hp
  · intro p c n hp
    obtain ⟨hp, hc⟩ := ht.asleep p c n hp
    have hrequest : (s.pc p).request = some (c, n) := by rw [hp]; rfl
    have hle := h.sleeping p c n hp
    have hindex := h.getElem?_sub hrequest hle
    have hlater : n ≠ s.completed.length := by
      rintro rfl
      rw [Nat.sub_self, hfirst] at hindex
      exact hc (Option.some.inj hindex).symm
    omega
  · intro i c hi
    rw [ht.idequeue] at hi
    have hlater : s.idequeue[i + 1]? = some c := by rwa [hq, List.getElem?_cons_succ]
    obtain ⟨p, hp⟩ := h.waiting (i + 1) c hlater
    refine ⟨p, ?_⟩
    rw [ht.request, hp, hlength, Nat.add_assoc, Nat.add_comm 1 i]
  · intro c hc
    rw [ht.idequeue] at hc
    obtain ⟨i, hi⟩ := List.getElem?_of_mem hc
    rw [ht.buf_of_ne c (hne hi)]
    exact h.requested c (by rw [hq]; exact List.mem_cons_of_mem _ hc)
  · intro p c n hp hn
    rw [ht.request] at hp
    by_cases hc : c = r.buf
    · rw [hc]
      exact ht.synced
    · rw [ht.buf_of_ne c hc]
      apply h.synced p c n hp
      by_contra hge
      have hindex := h.getElem?_sub hp (by omega)
      rw [show n - s.completed.length = 0 by omega, hfirst] at hindex
      exact hc (Option.some.inj hindex).symm
  · intro x hx
    rw [ht.returned] at hx
    have hold := h.returned x hx
    rw [hcompleted, List.map_append,
      List.getElem?_append_left (List.getElem?_eq_some_iff.mp hold).1]
    exact hold
  · rw [ht.returned]
    exact h.once
  · exact hdevice
  · intro x hx
    rw [hcompleted] at hx
    rcases List.mem_append.mp hx with hx | hx
    · exact h.truthful x hx
    · obtain rfl := List.mem_singleton.mp hx
      exact htruthful

omit [DecidableEq P] in
/-- `ideintr` reads the data of a request that is not a write, unless there has been an error. -/
theorem ideintrRead_eq (hcommand : s.command = none) (b : B) : ∃ x,
    ideintrRead s b = some (s.setBuf b { s.buf b with data := x }) ∧
      (s.err = false → x = if (s.buf b).dirty then (s.buf b).data else s.port) := by
  have hself : s.setBuf b { s.buf b with data := (s.buf b).data } = s := by
    unfold State.setBuf
    rw [Function.update_eq_self]
  unfold ideintrRead
  by_cases hdirty : (s.buf b).dirty = true
  · refine ⟨(s.buf b).data, ?_, fun _ => (if_pos hdirty).symm⟩
    rw [if_pos hdirty, hself]
  rw [if_neg hdirty, if_neg (by rw [hcommand]; exact Bool.false_ne_true)]
  by_cases herr : s.err = true
  · refine ⟨(s.buf b).data, by rw [if_pos herr, hself], fun hno => ?_⟩
    rw [herr] at hno
    cases hno
  · exact ⟨s.port, if_neg herr, fun _ => (if_neg hdirty).symm⟩

omit [DecidableEq P] in
/-- `ideintr` marks the buffer, in which it has put the data. -/
theorem marked_ideintrMark {rest : List B} {x : α}
    (htrue : s.err = false → x = s.block b) :
    Marked s b rest (ideintrMark (State.setBuf { s with irq := false, idequeue := rest } b
      { s.buf b with data := x }) b) := by
  constructor
  · rfl
  · rfl
  · rfl
  · rfl
  · intro c hc
    unfold ideintrMark State.wakeup
    dsimp only
    rw [State.setBuf_buf_of_ne hc, State.setBuf_buf_of_ne hc]
  · unfold ideintrMark State.wakeup
    dsimp only
    rw [State.setBuf_buf_self]
    rfl
  · exact fun p => State.wakeup_request
  · exact fun p c hp => State.wakeup_pc_eq_entering.mp hp
  · exact fun p c n hp => State.wakeup_pc_eq_asleep.mp hp
  · rfl
  · refine ⟨_, rfl, rfl, rfl, fun herr => ?_⟩
    simp only [State.setBuf_buf_self, State.block]
    exact htrue herr

omit [DecidableEq P] in
/-- The interrupt handler completes the first request of the queue and starts the disk for the
next one. It neither panics nor waits for the disk. -/
theorem Inv.ideintr_eq (h : Inv s) (hirq : s.irq = true) :
    ∃ b rest t, s.idequeue = b :: rest ∧ ideintr s = some t ∧ Marked s b rest t ∧ Device t := by
  cases hq : s.idequeue with
  | nil =>
    rw [((device_nil hq).mp h.device).2] at hirq
    cases hirq
  | cons b rest =>
    rcases (device_cons hq).mp h.device with ⟨-, hno⟩ | ⟨hcommand, -, htransferred⟩
    · rw [hno] at hirq
      cases hirq
    obtain ⟨x, hread, hx⟩ := ideintrRead_eq
      (s := { s with irq := false, idequeue := rest }) hcommand b
    have hmarked : Marked s b rest _ :=
      marked_ideintrMark fun herr => (hx herr).trans (htransferred herr)
    unfold ideintr
    simp only [hq, hread, Option.bind_some]
    obtain ⟨m, hm⟩ : ∃ m, m = ideintrMark (State.setBuf { s with irq := false, idequeue := rest } b
      { s.buf b with data := x }) b := ⟨_, rfl⟩
    have hidle : m.command = none ∧ m.irq = false := by
      rw [hm]
      exact ⟨hcommand, rfl⟩
    rw [← hm] at hmarked ⊢
    cases rest with
    | nil => exact ⟨b, [], m, rfl, rfl, hmarked, (device_nil hmarked.idequeue).mpr hidle⟩
    | cons c rest =>
      have hc : c ≠ b := by
        rintro rfl
        have heq := h.index_inj (i := 0) (j := 1) (by rw [hq]; rfl) (by rw [hq]; rfl)
        omega
      have hblockno := (h.requested c (by rw [hq]; simp)).blockno_lt
      rw [← hmarked.buf_of_ne c hc] at hblockno
      refine ⟨b, c :: rest, _, rfl, idestart_eq hidle.1 hblockno, { hmarked with }, ?_⟩
      exact (device_cons (s := { m with command := some (m.buf c).command })
        hmarked.idequeue).mpr (Or.inl ⟨rfl, hidle.2⟩)

/-! ## Runs -/

omit [DecidableEq P] [DecidableEq B] in
theorem inv_start (buf : B → Buf α) (disk : ℕ → ℕ → α) (port : α) :
    Inv (start (P := P) buf disk port) := by
  constructor
  · rfl
  · exact fun p b hp => by cases hp
  · exact fun p b n hp => by cases hp
  · exact fun p b n hp => by cases hp
  · exact fun i b hi => by cases hi
  · exact fun b hb => by cases hb
  · exact fun p b n hp => by cases hp
  · exact fun r hr => by cases hr
  · exact List.nodup_nil
  · exact ⟨rfl, rfl⟩
  · exact fun r hr => by cases hr

/-- Every step keeps the invariant. -/
theorem Inv.step {havedisk1 : Bool} {a : Action P B α} (h : Inv s)
    (hstep : step havedisk1 s a = some s') : Inv s' := by
  cases a with
  | lock p b =>
    obtain ⟨⟨-, hlock⟩, heq⟩ := Option.ite_none_right_eq_some.mp hstep
    cases heq
    exact h.setLock (fun q hq => by rw [hlock] at hq; cases hq) _
  | unlock p b =>
    obtain ⟨⟨hidle, hlock⟩, heq⟩ := Option.ite_none_right_eq_some.mp hstep
    cases heq
    refine h.setLock (fun q hq => ?_) _
    obtain rfl : p = q := Option.some.inj (hlock.symm.trans hq)
    exact hidle
  | change b x =>
    obtain ⟨hfree, heq⟩ := Option.ite_none_right_eq_some.mp hstep
    cases heq
    refine h.setBuf (fun q hq => ?_) x
    rw [hq] at hfree
    exact of_decide_eq_true hfree
  | call p b =>
    obtain ⟨⟨hidle, hlock, hlt, hsynced, -⟩, heq⟩ := Option.ite_none_right_eq_some.mp hstep
    cases heq
    exact h.call hidle hlock ⟨hlt, hsynced⟩
  | iderw p =>
    rw [Ide.step] at hstep
    split at hstep
    next b hp =>
      rw [h.iderw_eq hp] at hstep
      cases hstep
      exact h.enqueue hp
    next => cases hstep
  | wake p =>
    rw [Ide.step] at hstep
    split at hstep
    next b n hp =>
      cases hstep
      exact h.goto_waiting (by rw [hp]; rfl) rfl fun hsleep => by cases hsleep
    next => cases hstep
  | resume p =>
    rw [Ide.step] at hstep
    split at hstep
    next b n hp =>
      cases hstep
      exact h.iderwWait (by rw [hp]; rfl)
    next => cases hstep
  | ideintr =>
    obtain ⟨hirq, hrun⟩ := Option.ite_none_right_eq_some.mp hstep
    obtain ⟨b, rest, t, hq, heq, hmarked, hdevice⟩ := h.ideintr_eq hirq
    rw [heq] at hrun
    cases hrun
    exact h.marked hq hmarked hdevice
  | perform fails => exact h.perform hstep

/-- No disk has reported an error. -/
def Quiet (s : State P B α) : Prop := s.err = false ∧ ∀ r ∈ s.completed, r.err = false

/-- A step in which no disk reports an error. -/
theorem Quiet.step {havedisk1 : Bool} {a : Action P B α} {trace : List (Action P B α)}
    (hquiet : Quiet s) (h : Inv s) (hguard : noError trace s a)
    (hstep : step havedisk1 s a = some s') : Quiet s' := by
  have hsame {t : State P B α} (herr : t.err = s.err) (hcompleted : t.completed = s.completed) :
      Quiet t := by
    unfold Quiet
    rw [herr, hcompleted]
    exact hquiet
  cases a with
  | lock p b =>
    obtain ⟨-, heq⟩ := Option.ite_none_right_eq_some.mp hstep
    cases heq
    exact hsame rfl rfl
  | unlock p b =>
    obtain ⟨-, heq⟩ := Option.ite_none_right_eq_some.mp hstep
    cases heq
    exact hsame rfl rfl
  | change b x =>
    obtain ⟨-, heq⟩ := Option.ite_none_right_eq_some.mp hstep
    cases heq
    exact hsame rfl rfl
  | call p b =>
    obtain ⟨-, heq⟩ := Option.ite_none_right_eq_some.mp hstep
    cases heq
    exact hsame rfl rfl
  | iderw p =>
    rw [Ide.step] at hstep
    split at hstep
    next b hp =>
      rw [h.iderw_eq hp] at hstep
      cases hstep
      exact hsame rfl rfl
    next => cases hstep
  | wake p =>
    rw [Ide.step] at hstep
    split at hstep
    next b n hp =>
      cases hstep
      exact hsame rfl rfl
    next => cases hstep
  | resume p =>
    rw [Ide.step] at hstep
    split at hstep
    next b n hp =>
      cases hstep
      unfold Ide.iderwWait
      split <;> exact hsame rfl rfl
    next => cases hstep
  | ideintr =>
    obtain ⟨hirq, hrun⟩ := Option.ite_none_right_eq_some.mp hstep
    obtain ⟨b, rest, t, -, heq, hmarked, -⟩ := h.ideintr_eq hirq
    rw [heq] at hrun
    cases hrun
    obtain ⟨r, hcompleted, -, hr, -⟩ := hmarked.completed
    refine ⟨hmarked.err.trans hquiet.1, fun x hx => ?_⟩
    rw [hcompleted] at hx
    rcases List.mem_append.mp hx with hx | hx
    · exact hquiet.2 x hx
    · obtain rfl := List.mem_singleton.mp hx
      exact hr.trans hquiet.1
  | perform fails =>
    obtain rfl : fails = false := hguard
    obtain ⟨x, -, rfl⟩ := Option.map_eq_some_iff.mp hstep
    rw [if_neg Bool.false_ne_true]
    cases x.data with
    | none => exact ⟨rfl, hquiet.2⟩
    | some y => exact ⟨rfl, hquiet.2⟩

/-- What the requests of a run have in common, whatever the disks report. -/
structure Orderly (s : State P B α) : Prop where
  /-- The requests queued are those completed, in the same order, and those that wait. -/
  order : s.queued = s.completed.map Completion.buf ++ s.idequeue
  /-- A call returns after its request has been completed. -/
  returned : ∀ r ∈ s.returned, (s.completed.map Completion.buf)[r.2]? = some r.1
  /-- It returns once. -/
  once : (s.returned.map Prod.snd).Nodup
  /-- A process sleeps as long as its request is in the queue. -/
  asleep : ∀ p b n, s.pc p = .asleep b n →
    s.completed.length ≤ n ∧ s.idequeue[n - s.completed.length]? = some b
  /-- Nothing keeps a process out of the queue, and `idestart` does not panic. -/
  enters : ∀ p b, s.pc p = .entering b → (iderw s p b).isSome = true
  /-- While there are requests, the disk works on the first one, or has done so and the interrupt
  handler will complete it. -/
  proceeds : s.idequeue ≠ [] →
    s.command.isSome = true ∨ s.irq = true ∧ (ideintr s).isSome = true

theorem Inv.orderly (h : Inv s) : Orderly s := by
  constructor
  · exact h.order
  · exact h.returned
  · exact h.once
  · intro p b n hp
    have hle := h.sleeping p b n hp
    exact ⟨hle, h.getElem?_sub (by rw [hp]; rfl) hle⟩
  · intro p b hp
    rw [h.iderw_eq hp]
    rfl
  · intro hne
    obtain ⟨b, rest, hq⟩ := List.exists_cons_of_ne_nil hne
    rcases (device_cons hq).mp h.device with ⟨hcommand, -⟩ | ⟨-, hirq, -⟩
    · left
      rw [hcommand]
      rfl
    · obtain ⟨c, later, t, -, heq, -⟩ := h.ideintr_eq hirq
      right
      rw [heq]
      exact ⟨hirq, rfl⟩

/-- Requests are completed in order and once, whatever the disks report. -/
theorem orderly_run {havedisk1 : Bool} {buf : B → Buf α} {disk : ℕ → ℕ → α} {port : α}
    {trace : List (Action P B α)}
    (hrun : Run (step havedisk1) GuardedRun.free (start buf disk port) trace s) : Orderly s :=
  Inv.orderly (hrun.invariant (I := fun _ s => Inv s) (inv_start buf disk port)
    fun _ _ _ _ h _ hstep => h.step hstep)

/-- In every run in which no disk reports an error, requests are completed in the order in which
they have been queued, each once; `iderw` returns after its own; and a buffer that is marked valid
and not dirty is equal to its block of the disk then. -/
theorem requests_exact {havedisk1 : Bool} {buf : B → Buf α} {disk : ℕ → ℕ → α} {port : α}
    {trace : List (Action P B α)}
    (hrun : Run (step havedisk1) noError (start buf disk port) trace s) :
    Orderly s ∧ ∀ r ∈ s.completed, r.data = r.block := by
  have hboth : Inv s ∧ Quiet s := by
    refine hrun.invariant (I := fun _ s => Inv s ∧ Quiet s) ⟨inv_start buf disk port, rfl, ?_⟩ ?_
    · exact fun r hr => by cases hr
    · exact fun _ _ _ _ h hguard hstep => ⟨h.1.step hstep, h.2.step h.1 hguard hstep⟩
  exact ⟨hboth.1.orderly, fun r hr => hboth.1.truthful r hr (hboth.2.2 r hr)⟩

/-- Two processes and two buffers, of which the first is not valid and the second is dirty. -/
def twoBuffers : State Bool Bool Bool :=
  start (fun b => ⟨0, if b then 6 else 5, b, b, false⟩) (fun _ _ => true) false

/-- A block is read, and while the disk works on it a block to be written is queued. -/
theorem requests_exact_read : ∃ s : State Bool Bool Bool,
    (s.queued = [false, true] ∧ s.returned = [(false, 0), (true, 1)] ∧
      (s.buf false).data = true ∧ s.disk 0 6 = false) ∧
      Orderly s ∧ ∀ r ∈ s.completed, r.data = r.block := by
  have hexec : ∃ t, exec (step false) noError [] twoBuffers
      [.lock false false, .call false false, .iderw false, .lock true true, .call true true,
        .iderw true, .perform false, .ideintr, .perform false, .ideintr, .resume true,
        .resume false] = some t ∧
      t.queued = [false, true] ∧ t.returned = [(false, 0), (true, 1)] ∧
      (t.buf false).data = true ∧ t.disk 0 6 = false := ⟨_, rfl, rfl, rfl, rfl, rfl⟩
  obtain ⟨t, hexec, hshape⟩ := hexec
  exact ⟨t, hshape, requests_exact (run_of_exec hexec)⟩

/-- One process and one buffer, which is not valid. -/
def oneBuffer : State Unit Unit Bool := start (fun _ => ⟨0, 5, false, false, false⟩)
  (fun _ _ => true) false

/-- The disk reports an error for a read: the buffer is marked all the same. -/
theorem requests_not_truthful : ¬ ∀ (s : State Unit Unit Bool) (trace : List _),
    Run (step false) GuardedRun.free oneBuffer trace s →
      Orderly s ∧ ∀ r ∈ s.completed, r.data = r.block := by
  intro h
  have hexec : ∃ t, exec (step false) GuardedRun.free [] oneBuffer
      [.lock () (), .call () (), .iderw (), .perform true, .ideintr] = some t ∧
      t.completed = [⟨(), true, false, true⟩] := ⟨_, rfl, rfl⟩
  obtain ⟨t, hexec, hcompleted⟩ := hexec
  have hequal := (h t _ (run_of_exec hexec)).2 ⟨(), true, false, true⟩ (by simp [hcompleted])
  cases hequal

end Xv6.Ide
