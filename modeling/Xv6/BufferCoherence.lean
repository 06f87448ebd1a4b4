import Xv6.BufferCache

/-!
# The buffer cache is transparent

The reference count of a buffer is the number of processes that are about to lock it, hold it, or
are about to drop it. So a buffer that is reused is free, and if it is not dirty, the disk has
what its last holder left. Step by step this gives that what `bread` returns is what the last
holder of the block left, wherever it has been in between.
-/

namespace Xv6.BufferCache

open LinkedRing

variable {P α : Type*} {s s' : State P α} {b b' : Buf} {p : P}

/-! ## The list of buffers -/

/-- The links form a ring through all buffers. -/
def Linked (s : State P α) : Prop := ∃ l, s.links.Ring l ∧ ∀ b, b ∈ l

/-- A ring through all buffers has as many nodes as there are buffers. -/
theorem length_of_ring {l : List Buf} (hring : s.links.Ring l) : l.length ≤ nbuf := by
  simpa using hring.nodup.length_le_card

/-- Moving a buffer to the front keeps the ring. -/
theorem linked_moveHead {L : LinkedRing Buf} {l : List Buf} (hring : L.Ring l)
    (hall : ∀ b, b ∈ l) (b : Buf) :
    ∃ l', ((L.unlink b).insertHead b).Ring l' ∧ ∀ c, c ∈ l' := by
  obtain ⟨l₁, l₂, rfl⟩ := List.append_of_mem (hall b)
  refine ⟨_, hring.moveHead, fun c => ?_⟩
  have hmem := hall c
  simp only [List.mem_append, List.mem_cons] at hmem ⊢
  tauto

/-- `binit` puts the buffers into the ring one by one. -/
theorem ring_binit (bs : List Buf) (hnodup : bs.Nodup) {L : LinkedRing Buf} {l : List Buf}
    (hring : L.Ring l) (hfresh : ∀ b ∈ bs, b ∉ l) :
    (bs.foldl insertHead L).Ring (bs.reverse ++ l) := by
  induction bs generalizing L l with
  | nil => exact hring
  | cons b bs ih =>
    obtain ⟨hb, hnodup⟩ := List.nodup_cons.mp hnodup
    have hnext := ih hnodup (hring.insertHead (hfresh b List.mem_cons_self)) fun c hc => by
      rw [List.mem_cons, not_or]
      exact ⟨fun h => hb (h ▸ hc), hfresh c (List.mem_cons_of_mem _ hc)⟩
    simpa using hnext

theorem linked_binit (disk : ℕ → ℕ → α) (data : Buf → α) :
    Linked (binit disk data : State P α) := by
  have hring := ring_binit (List.finRange nbuf) (List.nodup_finRange _) ring_empty
    fun b _ => List.not_mem_nil
  exact ⟨_, hring, fun b => by simp [List.mem_finRange]⟩

/-- The first loop of `bget` finds a buffer of the block, if there is one. -/
theorem lookup_cases (hlinked : Linked s) (dev blockno : ℕ) :
    (∃ b, lookup s dev blockno = some b ∧ (s.buf b).dev = dev ∧ (s.buf b).blockno = blockno) ∨
      lookup s dev blockno = none ∧
        ∀ b, ¬ ((s.buf b).dev = dev ∧ (s.buf b).blockno = blockno) := by
  obtain ⟨l, hring, hall⟩ := hlinked
  unfold lookup
  rw [hring.findFrom_next _ (length_of_ring hring)]
  cases hfind : l.find? fun b => decide ((s.buf b).dev = dev ∧ (s.buf b).blockno = blockno) with
  | none =>
    refine .inr ⟨rfl, fun b => ?_⟩
    simpa using List.find?_eq_none.mp hfind b (hall b)
  | some b =>
    refine .inl ⟨b, rfl, ?_⟩
    simpa using List.find?_some hfind

/-- The second loop of `bget` finds a buffer that is not in use. -/
theorem unused_spec (hlinked : Linked s) (hunused : unused s = some b) :
    (s.buf b).refcnt = 0 ∧ (s.buf b).dirty = false := by
  obtain ⟨l, hring, hall⟩ := hlinked
  rw [unused, hring.findFrom_prev _ (length_of_ring hring)] at hunused
  simpa using List.find?_some hunused

/-! ## Reference counts -/

/-- A process in `bget` or `brelse` that counts as a user of the buffer. -/
def Pc.Claims (b : Buf) : Pc → Prop
  | .locking _ b' => b' = b
  | .dropping b' => b' = b
  | _ => False

instance (b : Buf) (pc : Pc) : Decidable (pc.Claims b) := by
  cases pc <;> unfold Pc.Claims <;> infer_instance

/-- What a process does with a buffer that it has locked. -/
inductive Phase
  /-- It is in `bread`, at the test of `B_VALID`. -/
  | test
  /-- It is in `iderw`, called by `bread`. -/
  | reading
  /-- It is in `iderw`, called by `bwrite`. -/
  | writing

/-- What a process does with a buffer in `bread` or `bwrite`. -/
def Pc.phase (b : Buf) : Pc → Option Phase
  | .test _ b' => if b' = b then some .test else none
  | .reading _ b' => if b' = b then some .reading else none
  | .writing b' => if b' = b then some .writing else none
  | _ => none

/-- A process in `bread` of this block, with this buffer. -/
def Pc.Reads (n : ℕ) (b : Buf) : Pc → Prop
  | .locking n' b' => n' = n ∧ b' = b
  | .test n' b' => n' = n ∧ b' = b
  | .reading n' b' => n' = n ∧ b' = b
  | _ => False

section

variable [Fintype P]

theorem Pc.Reads.claims_or {n : ℕ} {pc : Pc} (hreads : pc.Reads n b) :
    pc.Claims b ∨ pc.phase b ≠ none := by
  cases pc with
  | idle => exact hreads.elim
  | locking n' b' => exact .inl hreads.2
  | test n' b' => exact .inr (by rw [Pc.phase, if_pos hreads.2]; exact Option.some_ne_none _)
  | reading n' b' => exact .inr (by rw [Pc.phase, if_pos hreads.2]; exact Option.some_ne_none _)
  | writing b' => exact hreads.elim
  | dropping b' => exact hreads.elim

/-- The number of processes about to lock the buffer or to drop it. -/
def claimants (pc : P → Pc) (b : Buf) : ℕ := ∑ p, if (pc p).Claims b then 1 else 0

/-- One process moves. -/
theorem claimants_update [DecidableEq P] (pc : P → Pc) (p : P) (c : Pc) (b : Buf) :
    claimants (Function.update pc p c) b + (if (pc p).Claims b then 1 else 0) =
      claimants pc b + (if c.Claims b then 1 else 0) := by
  have hmove : (fun q => if ((Function.update pc p c) q).Claims b then 1 else 0) =
      Function.update (fun q => if (pc q).Claims b then 1 else 0) p
        (if c.Claims b then 1 else 0) := by
    funext q
    by_cases hq : q = p
    · rw [hq, Function.update_self, Function.update_self]
    · rw [Function.update_of_ne hq, Function.update_of_ne hq]
  have hsplit := Finset.sum_eq_add_sum_sdiff_singleton_of_mem (Finset.mem_univ p)
    fun q => if (pc q).Claims b then 1 else 0
  unfold claimants
  rw [hmove, Finset.sum_update_of_mem (Finset.mem_univ p), hsplit]
  omega

/-- The number of holders of a sleep lock. -/
def holders : Option P → ℕ
  | none => 0
  | some _ => 1

theorem claimants_pos {pc : P → Pc} (hclaims : (pc p).Claims b) : 0 < claimants pc b :=
  Finset.sum_pos' (fun _ _ => Nat.zero_le _) ⟨p, Finset.mem_univ p, by rw [if_pos hclaims]; omega⟩

/-- Who uses the buffers, and for which blocks. -/
structure Claimed (s : State P α) : Prop where
  /-- The reference counts. -/
  count : ∀ b, (s.buf b).refcnt = claimants s.pc b + holders (s.lock b)
  /-- A process in `bread` or `bwrite` has locked its buffer. -/
  holder : ∀ p b, (s.pc p).phase b ≠ none → s.lock b = some p
  /-- A process in `bread` has a buffer of the block. -/
  reads : ∀ p n b, (s.pc p).Reads n b → (s.buf b).dev = rootDev ∧ (s.buf b).blockno = n
  /-- A buffer in use belongs to `ROOTDEV`. -/
  root : ∀ b, 0 < (s.buf b).refcnt → (s.buf b).dev = rootDev
  /-- A block has at most one buffer. -/
  unique : ∀ b b', (s.buf b).dev = rootDev → (s.buf b').dev = rootDev →
    (s.buf b).blockno = (s.buf b').blockno → b = b'

/-- A buffer that nobody uses is not locked, and nobody is on the way to it. -/
theorem Claimed.free (hclaimed : Claimed s) (hfree : (s.buf b).refcnt = 0) :
    s.lock b = none ∧ (∀ p, ¬ (s.pc p).Claims b) ∧ ∀ p n, ¬ (s.pc p).Reads n b := by
  have hcount := hclaimed.count b
  rw [hfree] at hcount
  have hlock : s.lock b = none := by
    cases hlocked : s.lock b with
    | none => rfl
    | some p =>
      have hone : holders (some p) = 1 := rfl
      rw [hlocked, hone] at hcount
      omega
  have hclaims : ∀ p, ¬ (s.pc p).Claims b := fun p hp => by
    have hpos := claimants_pos hp
    omega
  refine ⟨hlock, hclaims, fun p n hreads => ?_⟩
  have hphase : (s.pc p).phase b = none := by
    by_contra hne
    rw [hclaimed.holder p b hne] at hlock
    cases hlock
  exact hreads.claims_or.elim (hclaims p) fun hne => hne hphase

/-- The holder of a buffer uses it. -/
theorem Claimed.root_of_lock (hclaimed : Claimed s) (hlock : s.lock b = some p) :
    (s.buf b).dev = rootDev := by
  apply hclaimed.root
  rw [hclaimed.count b, hlock]
  exact Nat.succ_pos _

end

/-! ## Contents -/

/-- The contents of one buffer. -/
structure Content.At (s : State P α) (b : Buf) : Prop where
  /-- Until the holder has it, a buffer that is not locked is unchanged. -/
  fresh : (∀ q, s.lock b = some q →
      (s.pc q).phase b = some .test ∨ (s.pc q).phase b = some .reading) →
    s.touched b = false ∧
      ((s.buf b).dev = rootDev → (s.buf b).valid = true → (s.buf b).data = s.left (s.buf b).blockno)
  /-- A buffer that a process has is valid. -/
  held : ∀ q, s.lock b = some q → (s.pc q).phase b ≠ some .test →
    (s.pc q).phase b ≠ some .reading → (s.buf b).valid = true
  /-- A queued buffer is to be read or to be written. -/
  queued : b ∈ s.idequeue → ∃ q, s.lock b = some q ∧
    ((s.pc q).phase b = some .reading ∧ (s.buf b).valid = false ∨
      (s.pc q).phase b = some .writing ∧ (s.buf b).dirty = true)
  /-- What `bwrite` writes is not changed again. -/
  writing : ∀ q, (s.pc q).phase b = some .writing → s.touched b = false
  /-- A buffer that is not valid is not in use for writing, and the disk has the block. -/
  absent : (s.buf b).dev = rootDev → (s.buf b).valid = false →
    s.disk (rootDev % 2) (s.buf b).blockno = s.left (s.buf b).blockno ∧
      (s.buf b).dirty = false ∧ s.touched b = false
  /-- A buffer that is neither dirty nor changed is what is on the disk. -/
  clean : (s.buf b).dev = rootDev → (s.buf b).valid = true → (s.buf b).dirty = false →
    s.touched b = false → s.disk (rootDev % 2) (s.buf b).blockno = (s.buf b).data

/-- The contents of the buffers and of the disk. -/
structure Content (s : State P α) : Prop where
  /-- Each buffer. -/
  at_buf : ∀ b, Content.At s b
  /-- A block that has no buffer is on the disk as its last holder left it. -/
  away : ∀ n, (∀ b, ¬ ((s.buf b).dev = rootDev ∧ (s.buf b).blockno = n)) →
    s.disk (rootDev % 2) n = s.left n
  /-- No buffer is queued twice. -/
  nodup : s.idequeue.Nodup

/-- What a step leaves alone as far as one buffer is concerned. -/
structure SameBuf (s s' : State P α) (b : Buf) : Prop where
  /-- The buffer, but for the reference count. -/
  buf : { s'.buf b with refcnt := 0 } = { s.buf b with refcnt := 0 }
  /-- Its lock. -/
  lock : s'.lock b = s.lock b
  /-- Whether it has been changed. -/
  touched : s'.touched b = s.touched b
  /-- Its block on the disk. -/
  disk : (s.buf b).dev = rootDev →
    s'.disk (rootDev % 2) (s.buf b).blockno = s.disk (rootDev % 2) (s.buf b).blockno
  /-- What its last holder left. -/
  left : (s.buf b).dev = rootDev → s'.left (s.buf b).blockno = s.left (s.buf b).blockno
  /-- It is not queued. -/
  queued : b ∈ s'.idequeue → b ∈ s.idequeue
  /-- What its holder does with it. -/
  phase : ∀ q, (s'.pc q).phase b = (s.pc q).phase b

theorem Content.At.congr (hat : Content.At s b) (hsame : SameBuf s s' b) : Content.At s' b := by
  obtain ⟨hbuf, hlock, htouched, hdisk, hleft, hqueued, hphase⟩ := hsame
  simp only [Buffer.mk.injEq, true_and] at hbuf
  obtain ⟨hdev, hblockno, hvalid, hdirty, hdata⟩ := hbuf
  refine ⟨fun hfresh => ?_, fun q hq htest hreading => ?_, fun hb => ?_, fun q hq => ?_,
    fun hroot hinvalid => ?_, fun hroot hval hclean hsynced => ?_⟩
  · obtain ⟨hun, hread⟩ := hat.fresh fun q hq => by
      rw [← hphase q]
      exact hfresh q (hlock.trans hq)
    refine ⟨htouched.trans hun, fun hroot hval => ?_⟩
    rw [hdev] at hroot
    rw [hdata, hblockno, hleft hroot]
    exact hread hroot (hvalid.symm.trans hval)
  · rw [hphase q] at htest hreading
    exact hvalid.trans (hat.held q (hlock.symm.trans hq) htest hreading)
  · obtain ⟨q, hq, hstate⟩ := hat.queued (hqueued hb)
    refine ⟨q, hlock.trans hq, ?_⟩
    rwa [hphase q, hvalid, hdirty]
  · exact htouched.trans (hat.writing q ((hphase q).symm.trans hq))
  · rw [hdev] at hroot
    rw [hblockno, hdisk hroot, hleft hroot, hdirty, htouched]
    exact hat.absent hroot (hvalid.symm.trans hinvalid)
  · rw [hdev] at hroot
    rw [hblockno, hdisk hroot, hdata]
    exact hat.clean hroot (hvalid.symm.trans hval) (hdirty.symm.trans hclean)
      (htouched.symm.trans hsynced)

/-- A step that leaves every buffer, the disk and the queue alone. -/
theorem Content.congr (hcontent : Content s) (hsame : ∀ b, SameBuf s s' b)
    (hdisk : s'.disk = s.disk) (hleft : s'.left = s.left) (hqueue : s'.idequeue = s.idequeue) :
    Content s' := by
  refine ⟨fun b => (hcontent.at_buf b).congr (hsame b), fun n haway => ?_, ?_⟩
  · rw [hdisk, hleft]
    refine hcontent.away n fun b hb => haway b ?_
    have hbuf := (hsame b).buf
    simp only [Buffer.mk.injEq, true_and] at hbuf
    rwa [hbuf.1, hbuf.2.1]
  · rw [hqueue]
    exact hcontent.nodup

/-- A move of one process does not concern a buffer that it does nothing with. -/
theorem phase_update [DecidableEq P] {pc : P → Pc} {c : Pc} (hsame : c.phase b = (pc p).phase b)
    (q : P) : (Function.update pc p c q).phase b = (pc q).phase b := by
  by_cases hq : q = p
  · rw [hq, Function.update_self, hsame]
  · rw [Function.update_of_ne hq]

/-- A step that concerns one buffer. -/
theorem Content.at_one (hcontent : Content s) (hsame : ∀ c, c ≠ b → SameBuf s s' c)
    (hat : Content.At s' b)
    (haway : ∀ n, (∀ b, ¬ ((s'.buf b).dev = rootDev ∧ (s'.buf b).blockno = n)) →
      s'.disk (rootDev % 2) n = s'.left n)
    (hnodup : s'.idequeue.Nodup) : Content s' := by
  refine ⟨fun c => ?_, haway, hnodup⟩
  by_cases hc : c = b
  · rwa [hc]
  · exact (hcontent.at_buf c).congr (hsame c hc)

/-- A buffer that is not in use has the contents that are on the disk. -/
theorem Content.idle_eq (hcontent : Content s) (hlock : s.lock b = none)
    (hroot : (s.buf b).dev = rootDev) (hdirty : (s.buf b).dirty = false) :
    s.disk (rootDev % 2) (s.buf b).blockno = s.left (s.buf b).blockno := by
  have hat := hcontent.at_buf b
  obtain ⟨huntouched, hdata⟩ := hat.fresh fun q hq => by
    rw [hlock] at hq
    cases hq
  cases hvalid : (s.buf b).valid with
  | false => exact (hat.absent hroot hvalid).1
  | true => rw [hat.clean hroot hvalid hdirty huntouched, hdata hroot hvalid]

/-! ## Steps -/

theorem drop_buf (s : State P α) (b : Buf) :
    (drop s b).buf = Function.update s.buf b { s.buf b with refcnt := (s.buf b).refcnt - 1 } := by
  unfold drop State.setBuf
  dsimp only
  split_ifs <;> rfl

theorem drop_eq (s : State P α) (b : Buf) :
    (drop s b).lock = s.lock ∧ (drop s b).pc = s.pc ∧ (drop s b).touched = s.touched ∧
      (drop s b).disk = s.disk ∧ (drop s b).left = s.left ∧
        (drop s b).idequeue = s.idequeue := by
  unfold drop State.setBuf
  dsimp only
  split_ifs <;> exact ⟨rfl, rfl, rfl, rfl, rfl, rfl⟩

section

variable [Fintype P]

/-- A step after which the same processes use the same buffers. -/
theorem Claimed.same (hclaimed : Claimed s)
    (hbuf : ∀ b, (s'.buf b).dev = (s.buf b).dev ∧ (s'.buf b).blockno = (s.buf b).blockno ∧
      (s'.buf b).refcnt = (s.buf b).refcnt)
    (hlock : s'.lock = s.lock) (hclaims : ∀ q b, (s'.pc q).Claims b ↔ (s.pc q).Claims b)
    (hphase : ∀ q b, (s'.pc q).phase b ≠ none → s.lock b = some q)
    (hreads : ∀ q n b, (s'.pc q).Reads n b → (s.pc q).Reads n b) : Claimed s' := by
  refine ⟨fun b => ?_, fun q b hq => ?_, fun q n b hq => ?_, fun b hb => ?_,
    fun b b' hb hb' heq => ?_⟩
  · rw [(hbuf b).2.2, hclaimed.count b, hlock, claimants, claimants]
    simp only [hclaims]
  · rw [hlock]
    exact hphase q b hq
  · rw [(hbuf b).1, (hbuf b).2.1]
    exact hclaimed.reads q n b (hreads q n b hq)
  · rw [(hbuf b).1]
    rw [(hbuf b).2.2] at hb
    exact hclaimed.root b hb
  · rw [(hbuf b).1] at hb
    rw [(hbuf b').1] at hb'
    rw [(hbuf b).2.1, (hbuf b').2.1] at heq
    exact hclaimed.unique b b' hb hb' heq

variable [DecidableEq P]

/-- A process moves on with the buffer that it has locked, or is done with it. -/
theorem Claimed.move {c : Pc} (hclaimed : Claimed s)
    (hbuf : ∀ b, (s'.buf b).dev = (s.buf b).dev ∧ (s'.buf b).blockno = (s.buf b).blockno ∧
      (s'.buf b).refcnt = (s.buf b).refcnt)
    (hlock : s'.lock = s.lock) (hpc : s'.pc = Function.update s.pc p c)
    (hclaims : ∀ b, c.Claims b ↔ (s.pc p).Claims b)
    (hphase : ∀ b, c.phase b ≠ none → s.lock b = some p)
    (hreads : ∀ n b, c.Reads n b → (s.pc p).Reads n b) : Claimed s' := by
  apply hclaimed.same hbuf hlock
  · rw [hpc]
    exact (Function.forall_update_iff _ fun q (c : Pc) => ∀ b, c.Claims b ↔ (s.pc q).Claims b).mpr
      ⟨hclaims, fun _ _ _ => Iff.rfl⟩
  · rw [hpc]
    exact (Function.forall_update_iff _ fun q (c : Pc) => ∀ b, c.phase b ≠ none →
      s.lock b = some q).mpr ⟨hphase, fun q _ b => hclaimed.holder q b⟩
  · rw [hpc]
    exact (Function.forall_update_iff _ fun q (c : Pc) => ∀ n b, c.Reads n b →
      (s.pc q).Reads n b).mpr ⟨hreads, fun _ _ _ _ h => h⟩

/-- `bget` of a block that is cached. -/
theorem Claimed.found {n : ℕ} (hclaimed : Claimed s) (hidle : s.pc p = .idle)
    (hdev : (s.buf b).dev = rootDev) (hblockno : (s.buf b).blockno = n) :
    Claimed ((s.setBuf b fun x => { x with refcnt := x.refcnt + 1 }).goto p (.locking n b)) := by
  have hkey : ∀ c, ((s.setBuf b fun x => { x with refcnt := x.refcnt + 1 }).buf c).dev =
      (s.buf c).dev ∧ ((s.setBuf b fun x => { x with refcnt := x.refcnt + 1 }).buf c).blockno =
        (s.buf c).blockno := by
    intro c
    unfold State.setBuf
    by_cases hc : c = b
    · subst hc
      simp
    · simp [hc]
  refine ⟨fun c => ?_, ?_, ?_, fun c hc => ?_, fun c c' hc hc' heq => ?_⟩
  · have hcount := hclaimed.count c
    have hmove := claimants_update s.pc p (.locking n b) c
    rw [hidle] at hmove
    have hnone : ¬ (Pc.idle).Claims c := id
    rw [if_neg hnone] at hmove
    unfold State.setBuf State.goto
    dsimp only
    by_cases hc : c = b
    · subst hc
      have hself : (Pc.locking n c).Claims c := rfl
      rw [if_pos hself] at hmove
      rw [Function.update_self]
      dsimp only
      omega
    · have hother : ¬ (Pc.locking n b).Claims c := fun h => hc h.symm
      rw [if_neg hother] at hmove
      rw [Function.update_of_ne hc]
      omega
  · exact (Function.forall_update_iff _ fun q (c' : Pc) => ∀ c, c'.phase c ≠ none →
      s.lock c = some q).mpr ⟨fun c h => absurd rfl h, fun q _ c => hclaimed.holder q c⟩
  · have hreads := (Function.forall_update_iff s.pc (a := p) (b := .locking n b)
      fun _ (c' : Pc) => ∀ m c, c'.Reads m c →
        (s.buf c).dev = rootDev ∧ (s.buf c).blockno = m).mpr
      ⟨fun m c h => h.2 ▸ h.1 ▸ ⟨hdev, hblockno⟩, fun q _ => hclaimed.reads q⟩
    exact fun q m c h => ⟨(hkey c).1.trans (hreads q m c h).1, (hkey c).2.trans (hreads q m c h).2⟩
  · by_cases hcb : c = b
    · rw [hcb]
      exact (hkey b).1.trans hdev
    · refine (hkey c).1.trans (hclaimed.root c ?_)
      unfold State.goto State.setBuf at hc
      dsimp only at hc
      rwa [Function.update_of_ne hcb] at hc
  · exact hclaimed.unique c c' ((hkey c).1.symm.trans hc) ((hkey c').1.symm.trans hc')
      ((hkey c).2.symm.trans (heq.trans (hkey c').2))

/-- `bget` of a block that is not cached. -/
theorem Claimed.recycled {n : ℕ} (hclaimed : Claimed s) (hidle : s.pc p = .idle)
    (hfree : (s.buf b).refcnt = 0)
    (habsent : ∀ b, ¬ ((s.buf b).dev = rootDev ∧ (s.buf b).blockno = n)) :
    Claimed ((s.setBuf b fun x => { x with
      dev := rootDev, blockno := n, valid := false, dirty := false, refcnt := 1 }).goto p
        (.locking n b)) := by
  obtain ⟨hlock, hclaims, hreads⟩ := hclaimed.free hfree
  unfold State.goto State.setBuf
  refine ⟨fun c => ?_, ?_, ?_, fun c hc => ?_, fun c c' hc hc' heq => ?_⟩
  · have hcount := hclaimed.count c
    have hmove := claimants_update s.pc p (.locking n b) c
    rw [hidle] at hmove
    have hnone : ¬ (Pc.idle).Claims c := id
    rw [if_neg hnone] at hmove
    dsimp only
    by_cases hc : c = b
    · subst hc
      have hself : (Pc.locking n c).Claims c := rfl
      rw [if_pos hself] at hmove
      rw [Function.update_self]
      dsimp only
      omega
    · have hother : ¬ (Pc.locking n b).Claims c := fun h => hc h.symm
      rw [if_neg hother] at hmove
      rw [Function.update_of_ne hc]
      omega
  · exact (Function.forall_update_iff _ fun q (c' : Pc) => ∀ c, c'.phase c ≠ none →
      s.lock c = some q).mpr ⟨fun c h => absurd rfl h, fun q _ c => hclaimed.holder q c⟩
  · intro q m c h
    dsimp only at h ⊢
    by_cases hc : c = b
    · subst hc
      rw [Function.update_self]
      by_cases hq : q = p
      · rw [hq, Function.update_self] at h
        exact ⟨rfl, h.1⟩
      · rw [Function.update_of_ne hq] at h
        exact absurd h (hreads q m)
    · rw [Function.update_of_ne hc]
      by_cases hq : q = p
      · rw [hq, Function.update_self] at h
        exact absurd h.2.symm hc
      · rw [Function.update_of_ne hq] at h
        exact hclaimed.reads q m c h
  · dsimp only at hc ⊢
    by_cases hcb : c = b
    · rw [hcb, Function.update_self]
    · rw [Function.update_of_ne hcb] at hc ⊢
      exact hclaimed.root c hc
  · dsimp only at hc hc' heq
    by_cases hcb : c = b
    · by_cases hcb' : c' = b
      · rw [hcb, hcb']
      · rw [hcb, Function.update_self, Function.update_of_ne hcb'] at heq
        rw [Function.update_of_ne hcb'] at hc'
        exact absurd ⟨hc', heq.symm⟩ (habsent c')
    · rw [Function.update_of_ne hcb] at hc heq
      by_cases hcb' : c' = b
      · rw [hcb', Function.update_self] at heq
        exact absurd ⟨hc, heq⟩ (habsent c)
      · rw [Function.update_of_ne hcb'] at hc' heq
        exact hclaimed.unique c c' hc hc' heq

/-- `acquiresleep` of a buffer. -/
theorem Claimed.locked {n : ℕ} (hclaimed : Claimed s) (hpc : s.pc p = .locking n b)
    (hlock : s.lock b = none) :
    Claimed ({ s with lock := Function.update s.lock b (some p) }.goto p (.test n b)) := by
  unfold State.goto
  refine ⟨fun c => ?_, fun q c hq => ?_, ?_, hclaimed.root, hclaimed.unique⟩
  · have hcount := hclaimed.count c
    have hmove := claimants_update s.pc p (.test n b) c
    rw [hpc] at hmove
    have hnone : ¬ (Pc.test n b).Claims c := id
    rw [if_neg hnone] at hmove
    dsimp only
    by_cases hc : c = b
    · subst hc
      have hself : (Pc.locking n c).Claims c := rfl
      rw [if_pos hself] at hmove
      have hzero : holders (none : Option P) = 0 := rfl
      have hone : holders (some p) = 1 := rfl
      rw [hlock, hzero] at hcount
      rw [Function.update_self, hone]
      omega
    · have hother : ¬ (Pc.locking n b).Claims c := fun h => hc h.symm
      rw [if_neg hother] at hmove
      rw [Function.update_of_ne hc]
      omega
  · dsimp only at hq ⊢
    by_cases hqp : q = p
    · rw [hqp, Function.update_self] at hq
      have hcb : c = b := by
        by_contra hne
        exact hq (if_neg (Ne.symm hne))
      rw [hcb, Function.update_self, hqp]
    · rw [Function.update_of_ne hqp] at hq
      have hold := hclaimed.holder q c hq
      have hcb : c ≠ b := by
        rintro rfl
        rw [hlock] at hold
        cases hold
      rw [Function.update_of_ne hcb]
      exact hold
  · exact (Function.forall_update_iff _ fun q (c' : Pc) => ∀ m c, c'.Reads m c →
      (s.buf c).dev = rootDev ∧ (s.buf c).blockno = m).mpr
      ⟨fun m c h => hclaimed.reads p m c (by rw [hpc]; exact h), fun q _ => hclaimed.reads q⟩

/-- `releasesleep` of a buffer. -/
theorem Claimed.released (hclaimed : Claimed s) (hidle : s.pc p = .idle)
    (hlock : s.lock b = some p) (left : ℕ → α) :
    Claimed ({ s with lock := Function.update s.lock b none, left := left }.goto p
      (.dropping b)) := by
  unfold State.goto
  refine ⟨fun c => ?_, fun q c hq => ?_, ?_, hclaimed.root, hclaimed.unique⟩
  · have hcount := hclaimed.count c
    have hmove := claimants_update s.pc p (.dropping b) c
    rw [hidle] at hmove
    have hnone : ¬ (Pc.idle).Claims c := id
    rw [if_neg hnone] at hmove
    dsimp only
    by_cases hc : c = b
    · subst hc
      have hself : (Pc.dropping c).Claims c := rfl
      rw [if_pos hself] at hmove
      have hzero : holders (none : Option P) = 0 := rfl
      have hone : holders (some p) = 1 := rfl
      rw [hlock, hone] at hcount
      rw [Function.update_self, hzero]
      omega
    · have hother : ¬ (Pc.dropping b).Claims c := fun h => hc h.symm
      rw [if_neg hother] at hmove
      rw [Function.update_of_ne hc]
      omega
  · dsimp only at hq ⊢
    by_cases hqp : q = p
    · rw [hqp, Function.update_self] at hq
      exact absurd rfl hq
    · rw [Function.update_of_ne hqp] at hq
      have hold := hclaimed.holder q c hq
      have hcb : c ≠ b := by
        rintro rfl
        rw [hlock] at hold
        exact hqp (Option.some.inj hold).symm
      rw [Function.update_of_ne hcb]
      exact hold
  · exact (Function.forall_update_iff _ fun q (c' : Pc) => ∀ m c, c'.Reads m c →
      (s.buf c).dev = rootDev ∧ (s.buf c).blockno = m).mpr
      ⟨fun m c h => h.elim, fun q _ => hclaimed.reads q⟩

/-- The end of `brelse`. -/
theorem Claimed.dropped (hclaimed : Claimed s) (hpc : s.pc p = .dropping b) :
    Claimed ((drop s b).goto p .idle) := by
  obtain ⟨hlock, hpcs, -⟩ := drop_eq s b
  have hkey : ∀ c, ((drop s b).buf c).dev = (s.buf c).dev ∧
      ((drop s b).buf c).blockno = (s.buf c).blockno ∧
        ((drop s b).buf c).refcnt ≤ (s.buf c).refcnt := by
    intro c
    rw [drop_buf]
    by_cases hc : c = b
    · subst hc
      simp
    · simp [hc]
  refine ⟨fun c => ?_, ?_, ?_, fun c hc => ?_, fun c c' hc hc' heq => ?_⟩
  · have hcount := hclaimed.count c
    have hmove := claimants_update s.pc p .idle c
    rw [hpc] at hmove
    have hnone : ¬ (Pc.idle).Claims c := id
    rw [if_neg hnone] at hmove
    unfold State.goto
    dsimp only
    rw [drop_buf, hlock, hpcs]
    by_cases hc : c = b
    · subst hc
      have hself : (Pc.dropping c).Claims c := rfl
      rw [if_pos hself] at hmove
      rw [Function.update_self]
      dsimp only
      omega
    · have hother : ¬ (Pc.dropping b).Claims c := fun h => hc h.symm
      rw [if_neg hother] at hmove
      rw [Function.update_of_ne hc]
      omega
  · unfold State.goto
    dsimp only
    rw [hlock, hpcs]
    exact (Function.forall_update_iff _ fun q (c' : Pc) => ∀ c, c'.phase c ≠ none →
      s.lock c = some q).mpr ⟨fun c h => absurd rfl h, fun q _ c => hclaimed.holder q c⟩
  · unfold State.goto
    dsimp only
    rw [hpcs]
    have hreads := (Function.forall_update_iff s.pc (a := p) (b := .idle)
      fun _ (c' : Pc) => ∀ m c, c'.Reads m c →
        (s.buf c).dev = rootDev ∧ (s.buf c).blockno = m).mpr
      ⟨fun m c h => h.elim, fun q _ => hclaimed.reads q⟩
    exact fun q m c h => ⟨(hkey c).1.trans (hreads q m c h).1,
      (hkey c).2.1.trans (hreads q m c h).2⟩
  · exact (hkey c).1.trans (hclaimed.root c (hc.trans_le (hkey c).2.2))
  · exact hclaimed.unique c c' ((hkey c).1.symm.trans hc) ((hkey c').1.symm.trans hc')
      ((hkey c).2.1.symm.trans (heq.trans (hkey c').2.1))

omit [Fintype P] in
/-- `bget` of a block that is cached. -/
theorem Content.found {n : ℕ} (hcontent : Content s) (hidle : s.pc p = .idle) :
    Content ((s.setBuf b fun x => { x with refcnt := x.refcnt + 1 }).goto p (.locking n b)) := by
  refine hcontent.congr (fun c => ⟨?_, rfl, rfl, fun _ => rfl, fun _ => rfl, id, ?_⟩) rfl rfl rfl
  · unfold State.goto State.setBuf
    by_cases hc : c = b
    · subst hc
      simp
    · simp [hc]
  · have hmove : (Pc.locking n b).phase c = (s.pc p).phase c := by rw [hidle]; rfl
    exact phase_update hmove

/-- `bget` of a block that is not cached. -/
theorem Content.recycled {n : ℕ} (hcontent : Content s) (hclaimed : Claimed s)
    (hidle : s.pc p = .idle) (hfree : (s.buf b).refcnt = 0) (hdirty : (s.buf b).dirty = false)
    (habsent : ∀ b, ¬ ((s.buf b).dev = rootDev ∧ (s.buf b).blockno = n)) :
    Content ((s.setBuf b fun x => { x with
      dev := rootDev, blockno := n, valid := false, dirty := false, refcnt := 1 }).goto p
        (.locking n b)) := by
  obtain ⟨hlock, -, -⟩ := hclaimed.free hfree
  have hat := hcontent.at_buf b
  have huntouched := (hat.fresh fun q hq => by rw [hlock] at hq; cases hq).1
  have hphase : ∀ q, (Function.update s.pc p (.locking n b) q).phase b = none := by
    intro q
    rw [phase_update (b := b) (c := .locking n b) (by rw [hidle]; rfl)]
    by_contra hne
    have hold := hclaimed.holder q b hne
    rw [hlock] at hold
    cases hold
  refine hcontent.at_one (b := b) (fun c hc => ⟨?_, rfl, rfl, fun _ => rfl, fun _ => rfl, id, ?_⟩)
    ⟨fun _ => ?_, fun q hq => ?_, fun hb => ?_, fun q hq => ?_, fun _ _ => ?_, fun _ hval => ?_⟩
    (fun m haway => ?_) hcontent.nodup
  · unfold State.goto State.setBuf
    simp [hc]
  · have hmove : (Pc.locking n b).phase c = (s.pc p).phase c := by rw [hidle]; rfl
    exact phase_update hmove
  · refine ⟨huntouched, fun _ hval => ?_⟩
    simp [State.goto, State.setBuf] at hval
  · exact absurd (hlock.symm.trans hq) (Option.some_ne_none q).symm
  · obtain ⟨q, hq, -⟩ := hat.queued hb
    exact absurd (hlock.symm.trans hq) (Option.some_ne_none q).symm
  · exact absurd ((hphase q).symm.trans hq) (Option.some_ne_none _).symm
  · have haway := hcontent.away n habsent
    simp only [State.goto, State.setBuf, Function.update_self]
    exact ⟨haway, trivial, huntouched⟩
  · simp [State.goto, State.setBuf] at hval
  · -- the block that loses its buffer is on the disk
    unfold State.goto State.setBuf at haway ⊢
    dsimp only at haway ⊢
    by_cases hold : (s.buf b).dev = rootDev ∧ (s.buf b).blockno = m
    · rw [← hold.2]
      exact hcontent.idle_eq hlock hold.1 hdirty
    · refine hcontent.away m fun c hc => ?_
      by_cases hcb : c = b
      · exact hold (hcb ▸ hc)
      · have hother := haway c
        rw [Function.update_of_ne hcb] at hother
        exact hother hc

omit [Fintype P] in
/-- `acquiresleep` of a buffer. -/
theorem Content.locked {n : ℕ} (hcontent : Content s)
    (hpc : s.pc p = .locking n b) (hlock : s.lock b = none) :
    Content ({ s with lock := Function.update s.lock b (some p) }.goto p (.test n b)) := by
  have hat := hcontent.at_buf b
  obtain ⟨huntouched, hdata⟩ := hat.fresh fun q hq => by rw [hlock] at hq; cases hq
  have htest : (Pc.test n b).phase b = some .test := if_pos rfl
  unfold State.goto
  refine hcontent.at_one (b := b)
    (fun c hc => ⟨rfl, Function.update_of_ne hc _ _, rfl, fun _ => rfl, fun _ => rfl, id, ?_⟩)
    ⟨fun _ => ⟨huntouched, hdata⟩, fun q hq hne => ?_, fun hb => ?_, fun _ _ => huntouched,
      hat.absent, hat.clean⟩ hcontent.away hcontent.nodup
  · refine phase_update ?_
    rw [hpc]
    exact if_neg (Ne.symm hc)
  · dsimp only at hq hne
    rw [Function.update_self] at hq
    obtain rfl := Option.some.inj hq
    rw [Function.update_self, htest] at hne
    exact absurd rfl hne
  · obtain ⟨q, hq, -⟩ := hat.queued hb
    exact absurd (hlock.symm.trans hq) (Option.some_ne_none q).symm

/-- The holder of a buffer is done with `bread` or `bwrite`. -/
theorem Content.returned {c : Pc} {ph : Phase} (hcontent : Content s) (hclaimed : Claimed s)
    (hphase : (s.pc p).phase b = some ph) (hother : ∀ c, c ≠ b → (s.pc p).phase c = none)
    (hc : ∀ c', c.phase c' = none) (hvalid : (s.buf b).valid = true)
    (hready : ph = .writing → (s.buf b).dirty = false) : Content (s.goto p c) := by
  have hat := hcontent.at_buf b
  have hlock : s.lock b = some p :=
    hclaimed.holder p b (by rw [hphase]; exact Option.some_ne_none _)
  unfold State.goto
  refine hcontent.at_one (b := b) (fun d hd => ⟨rfl, rfl, rfl, fun _ => rfl, fun _ => rfl, id, ?_⟩)
    ⟨fun hfresh => ?_, fun _ _ _ _ => hvalid, fun hb => ?_, fun q hq => ?_, fun _ hval => ?_,
      hat.clean⟩ hcontent.away hcontent.nodup
  · refine phase_update ?_
    rw [hc, hother d hd]
  · have hself := hfresh p hlock
    dsimp only at hself
    rw [Function.update_self, hc] at hself
    obtain h | h := hself <;> cases h
  · obtain ⟨q, hq, hstate⟩ := hat.queued hb
    obtain rfl : p = q := Option.some.inj (hlock.symm.trans hq)
    rw [hphase, hvalid] at hstate
    obtain ⟨-, hval⟩ | ⟨hwriting, hdirty⟩ := hstate
    · cases hval
    · rw [hready (Option.some.inj hwriting)] at hdirty
      cases hdirty
  · dsimp only at hq
    by_cases hqp : q = p
    · rw [hqp, Function.update_self, hc] at hq
      cases hq
    · rw [Function.update_of_ne hqp] at hq
      exact hat.writing q hq
  · exact absurd hval (by simp [hvalid])

/-- `bread` goes to the disk. -/
theorem Content.fetched {n : ℕ} (hcontent : Content s) (hclaimed : Claimed s)
    (hpc : s.pc p = .test n b) (hvalid : (s.buf b).valid = false) :
    Content ({ s with idequeue := s.idequeue ++ [b] }.goto p (.reading n b)) := by
  have hat := hcontent.at_buf b
  have hphase : (s.pc p).phase b = some .test := by rw [hpc]; exact if_pos rfl
  have hreading : (Pc.reading n b).phase b = some .reading := if_pos rfl
  have hlock : s.lock b = some p :=
    hclaimed.holder p b (by rw [hphase]; exact Option.some_ne_none _)
  have hroot := hclaimed.root_of_lock hlock
  have hout : b ∉ s.idequeue := fun hb => by
    obtain ⟨q, hq, hstate⟩ := hat.queued hb
    obtain rfl : p = q := Option.some.inj (hlock.symm.trans hq)
    rw [hphase] at hstate
    obtain ⟨h, -⟩ | ⟨h, -⟩ := hstate <;> cases h
  have huntouched := (hat.absent hroot hvalid).2.2
  unfold State.goto
  refine hcontent.at_one (b := b)
    (fun c hc => ⟨rfl, rfl, rfl, fun _ => rfl, fun _ => rfl, fun hmem => ?_, ?_⟩)
    ⟨fun _ => ⟨huntouched, fun _ hval => ?_⟩, fun q hq _ hne => ?_, fun _ => ?_,
      fun _ _ => huntouched, hat.absent, hat.clean⟩ hcontent.away ?_
  · rw [List.mem_append, List.mem_singleton] at hmem
    exact hmem.resolve_right hc
  · refine phase_update ?_
    rw [hpc]
    exact (if_neg (Ne.symm hc)).trans (if_neg (Ne.symm hc)).symm
  · exact absurd hval (by simp [hvalid])
  · obtain rfl : p = q := Option.some.inj (hlock.symm.trans hq)
    dsimp only at hne
    rw [Function.update_self, hreading] at hne
    exact absurd rfl hne
  · refine ⟨p, hlock, .inl ⟨?_, hvalid⟩⟩
    dsimp only
    rw [Function.update_self, hreading]
  · rw [List.nodup_append]
    refine ⟨hcontent.nodup, List.nodup_singleton b, fun c hc d hd heq => ?_⟩
    rw [List.mem_singleton] at hd
    exact hout (hd ▸ heq ▸ hc)

omit [DecidableEq P] in
/-- A holder changes the contents, or calls `log_write`. -/
theorem Content.changed {f : Buffer α → Buffer α} {t : Bool} (hcontent : Content s)
    (hclaimed : Claimed s) (hidle : s.pc p = .idle) (hlock : s.lock b = some p)
    (hkey : (f (s.buf b)).dev = (s.buf b).dev ∧ (f (s.buf b)).blockno = (s.buf b).blockno)
    (hvalid : (f (s.buf b)).valid = (s.buf b).valid)
    (hkept : (f (s.buf b)).dirty = true ∨ t = true) :
    Content { s.setBuf b f with touched := Function.update s.touched b t } := by
  have hat := hcontent.at_buf b
  have hphase : (s.pc p).phase b = none := by rw [hidle]; rfl
  have hheld : (s.buf b).valid = true :=
    hat.held p hlock (by rw [hphase]; exact (Option.some_ne_none _).symm)
      (by rw [hphase]; exact (Option.some_ne_none _).symm)
  have hdev : ∀ c, ((s.setBuf b f).buf c).dev = (s.buf c).dev ∧
      ((s.setBuf b f).buf c).blockno = (s.buf c).blockno := by
    intro c
    unfold State.setBuf
    dsimp only
    by_cases hc : c = b
    · rw [hc, Function.update_self]
      exact hkey
    · rw [Function.update_of_ne hc]
      exact ⟨rfl, rfl⟩
  have hbuf : (s.setBuf b f).buf b = f (s.buf b) := Function.update_self ..
  refine hcontent.at_one (b := b)
    (fun c hc => ⟨?_, rfl, Function.update_of_ne hc _ _, fun _ => rfl, fun _ => rfl, id,
      fun _ => rfl⟩)
    ⟨fun hfresh => ?_, fun _ _ _ _ => ?_, fun hb => ?_, fun q hq => ?_, fun _ hval => ?_,
      fun _ _ hclean huntouched => ?_⟩ (fun n haway => ?_) hcontent.nodup
  · unfold State.setBuf
    dsimp only
    rw [Function.update_of_ne hc]
  · have hself := hfresh p hlock
    rw [show ({ s.setBuf b f with touched := Function.update s.touched b t } : State P α).pc =
      s.pc from rfl, hphase] at hself
    obtain h | h := hself <;> cases h
  · dsimp only
    rw [hbuf, hvalid, hheld]
  · obtain ⟨q, hq, hstate⟩ := hat.queued hb
    obtain rfl : p = q := Option.some.inj (hlock.symm.trans hq)
    rw [hphase] at hstate
    obtain ⟨h, -⟩ | ⟨h, -⟩ := hstate <;> cases h
  · have hq' : (s.pc q).phase b = some .writing := hq
    have hholder := hclaimed.holder q b (by rw [hq']; exact Option.some_ne_none _)
    obtain rfl : p = q := Option.some.inj (hlock.symm.trans hholder)
    rw [hphase] at hq'
    cases hq'
  · dsimp only at hval
    rw [hbuf, hvalid, hheld] at hval
    cases hval
  · dsimp only at hclean huntouched
    rw [hbuf] at hclean
    rw [Function.update_self] at huntouched
    obtain h | h := hkept
    · rw [h] at hclean
      cases hclean
    · rw [h] at huntouched
      cases huntouched
  · refine hcontent.away n fun c hc => haway c ?_
    dsimp only
    rwa [(hdev c).1, (hdev c).2]

omit [Fintype P] in
/-- `bwrite` goes to the disk. -/
theorem Content.stored (hcontent : Content s) (hidle : s.pc p = .idle)
    (hlock : s.lock b = some p) (hdirty : (s.buf b).dirty = true)
    (huntouched : s.touched b = false) :
    Content ({ s with idequeue := s.idequeue ++ [b] }.goto p (.writing b)) := by
  have hat := hcontent.at_buf b
  have hphase : (s.pc p).phase b = none := by rw [hidle]; rfl
  have hwriting : (Pc.writing b).phase b = some .writing := if_pos rfl
  have hvalid : (s.buf b).valid = true :=
    hat.held p hlock (by rw [hphase]; exact (Option.some_ne_none _).symm)
      (by rw [hphase]; exact (Option.some_ne_none _).symm)
  have hout : b ∉ s.idequeue := fun hb => by
    obtain ⟨q, hq, hstate⟩ := hat.queued hb
    obtain rfl : p = q := Option.some.inj (hlock.symm.trans hq)
    rw [hphase] at hstate
    obtain ⟨h, -⟩ | ⟨h, -⟩ := hstate <;> cases h
  unfold State.goto
  refine hcontent.at_one (b := b)
    (fun c hc => ⟨rfl, rfl, rfl, fun _ => rfl, fun _ => rfl, fun hmem => ?_, ?_⟩)
    ⟨fun hfresh => ?_, fun _ _ _ _ => hvalid, fun _ => ?_, fun _ _ => huntouched,
      fun _ hval => ?_, hat.clean⟩ hcontent.away ?_
  · rw [List.mem_append, List.mem_singleton] at hmem
    exact hmem.resolve_right hc
  · refine phase_update ?_
    rw [hidle]
    exact if_neg (Ne.symm hc)
  · have hself := hfresh p hlock
    dsimp only at hself
    rw [Function.update_self, hwriting] at hself
    obtain h | h := hself <;> cases h
  · refine ⟨p, hlock, .inr ⟨?_, hdirty⟩⟩
    dsimp only
    rw [Function.update_self, hwriting]
  · exact absurd hval (by simp [hvalid])
  · rw [List.nodup_append]
    refine ⟨hcontent.nodup, List.nodup_singleton b, fun c hc d hd heq => ?_⟩
    rw [List.mem_singleton] at hd
    exact hout (hd ▸ heq ▸ hc)

/-- `releasesleep` of a buffer: what the process leaves counts from now on. -/
theorem Content.released (hcontent : Content s) (hclaimed : Claimed s) (hidle : s.pc p = .idle)
    (hlock : s.lock b = some p) (huntouched : s.touched b = false) :
    Content ({ s with
      lock := Function.update s.lock b none
      left := Function.update s.left (s.buf b).blockno (s.buf b).data }.goto p (.dropping b)) := by
  have hat := hcontent.at_buf b
  have hphase : (s.pc p).phase b = none := by rw [hidle]; rfl
  have hroot := hclaimed.root_of_lock hlock
  have hvalid : (s.buf b).valid = true :=
    hat.held p hlock (by rw [hphase]; exact (Option.some_ne_none _).symm)
      (by rw [hphase]; exact (Option.some_ne_none _).symm)
  unfold State.goto
  refine hcontent.at_one (b := b)
    (fun c hc => ⟨rfl, Function.update_of_ne hc _ _, rfl, fun _ => rfl, fun hdev => ?_, id, ?_⟩)
    ⟨fun _ => ⟨huntouched, fun _ _ => ?_⟩, fun q hq => ?_, fun hb => ?_, fun _ _ => huntouched,
      fun _ hval => ?_, hat.clean⟩ (fun n haway => ?_) hcontent.nodup
  · refine Function.update_of_ne (fun heq => hc ?_) _ _
    exact hclaimed.unique c b hdev hroot heq
  · refine phase_update ?_
    rw [hidle]
    rfl
  · dsimp only
    rw [Function.update_self]
  · dsimp only at hq
    rw [Function.update_self] at hq
    cases hq
  · obtain ⟨q, hq, hstate⟩ := hat.queued hb
    obtain rfl : p = q := Option.some.inj (hlock.symm.trans hq)
    rw [hphase] at hstate
    obtain ⟨h, -⟩ | ⟨h, -⟩ := hstate <;> cases h
  · exact absurd hval (by simp [hvalid])
  · dsimp only at haway ⊢
    rw [Function.update_of_ne fun heq => haway b ⟨hroot, heq.symm⟩]
    exact hcontent.away n haway

omit [Fintype P] in
/-- The end of `brelse`. -/
theorem Content.dropped (hcontent : Content s) (hpc : s.pc p = .dropping b) :
    Content ((drop s b).goto p .idle) := by
  obtain ⟨hlock, hpcs, htouched, hdisk, hleft, hqueue⟩ := drop_eq s b
  unfold State.goto
  refine hcontent.congr (fun c => ⟨?_, congrFun hlock c, congrFun htouched c, fun _ => ?_,
    fun _ => ?_, ?_, ?_⟩) hdisk hleft hqueue
  · dsimp only
    rw [drop_buf]
    by_cases hc : c = b
    · subst hc
      simp
    · simp [hc]
  · dsimp only
    rw [hdisk]
  · dsimp only
    rw [hleft]
  · dsimp only
    rw [hqueue]
    exact id
  · have hmove : Pc.idle.phase c = (s.pc p).phase c := by rw [hpc]; rfl
    dsimp only
    rw [hpcs]
    exact phase_update hmove

omit [DecidableEq P] in
/-- The transfer of the first buffer of the queue. -/
theorem Content.transferred {rest : List Buf} (hcontent : Content s) (hclaimed : Claimed s)
    (hqueue : s.idequeue = b :: rest) :
    Content (transfer { s with idequeue := rest } b) := by
  have hat := hcontent.at_buf b
  have hnodup := hcontent.nodup
  rw [hqueue, List.nodup_cons] at hnodup
  obtain ⟨q, hlock, hstate⟩ := hat.queued (by rw [hqueue]; exact List.mem_cons_self)
  have hroot := hclaimed.root_of_lock hlock
  have hdrive : (s.buf b).dev % 2 = rootDev % 2 := by rw [hroot]
  have hmem : ∀ c ∈ rest, c ∈ s.idequeue := fun c hc => by
    rw [hqueue]
    exact List.mem_cons_of_mem _ hc
  cases hdirty : (s.buf b).dirty with
  | true =>
    -- a write: the disk has what the process has passed to `bwrite`
    have hwriting : (s.pc q).phase b = some .writing := by
      obtain ⟨-, hvalid⟩ | ⟨h, -⟩ := hstate
      · rw [(hat.absent hroot hvalid).2.1] at hdirty
        cases hdirty
      · exact h
    have hvalid : (s.buf b).valid = true :=
      hat.held q hlock (by rw [hwriting]; rintro ⟨⟩) (by rw [hwriting]; rintro ⟨⟩)
    have heq : transfer { s with idequeue := rest } b = { s with
        buf := Function.update s.buf b { s.buf b with valid := true, dirty := false }
        idequeue := rest
        disk := Function.update s.disk (rootDev % 2)
          (Function.update (s.disk (rootDev % 2)) (s.buf b).blockno (s.buf b).data) } := by
      simp only [transfer, hdirty, if_true, State.setBuf, State.drive, hdrive]
    rw [heq]
    refine hcontent.at_one (b := b)
      (fun c hc => ⟨?_, rfl, rfl, fun hdev => ?_, fun _ => rfl, hmem c, fun _ => rfl⟩)
      ⟨fun hf => ?_, fun _ _ _ _ => ?_, fun hb => absurd hb hnodup.1, hat.writing,
        fun _ hval => ?_, fun _ _ _ _ => ?_⟩ (fun n haway => ?_) hnodup.2
    · dsimp only
      rw [Function.update_of_ne hc]
    · dsimp only
      rw [Function.update_self,
        Function.update_of_ne fun heq => hc (hclaimed.unique c b hdev hroot heq)]
    · obtain h | h := hf q hlock
      · cases hwriting.symm.trans h
      · cases hwriting.symm.trans h
    · dsimp only
      rw [Function.update_self]
    · dsimp only at hval
      rw [Function.update_self] at hval
      cases hval
    · dsimp only
      rw [Function.update_self, Function.update_self, Function.update_self]
    · dsimp only at haway ⊢
      have hself := haway b
      rw [Function.update_self] at hself
      rw [Function.update_self, Function.update_of_ne fun heq => hself ⟨hroot, heq.symm⟩]
      refine hcontent.away n fun c hc => ?_
      by_cases hcb : c = b
      · exact hself (hcb ▸ hc)
      · have hother := haway c
        rw [Function.update_of_ne hcb] at hother
        exact hother hc
  | false =>
    -- a read: the disk has what the last holder of the block left
    have hread : (s.pc q).phase b = some .reading ∧ (s.buf b).valid = false := by
      obtain h | ⟨-, h⟩ := hstate
      · exact h
      · rw [h] at hdirty
        cases hdirty
    obtain ⟨hreading, hvalid⟩ := hread
    obtain ⟨hdisk, -, huntouched⟩ := hat.absent hroot hvalid
    have heq : transfer { s with idequeue := rest } b = { s with
        buf := Function.update s.buf b { s.buf b with
          valid := true, dirty := false, data := s.left (s.buf b).blockno }
        idequeue := rest } := by
      simp only [transfer, hdirty, State.setBuf, State.drive, hdrive, hdisk]
      simp
    rw [heq]
    refine hcontent.at_one (b := b)
      (fun c hc => ⟨?_, rfl, rfl, fun _ => rfl, fun _ => rfl, hmem c, fun _ => rfl⟩)
      ⟨fun _ => ⟨huntouched, fun _ _ => ?_⟩, fun _ _ _ _ => ?_, fun hb => absurd hb hnodup.1,
        hat.writing, fun _ hval => ?_, fun _ _ _ _ => ?_⟩ (fun n haway => ?_) hnodup.2
    · dsimp only
      rw [Function.update_of_ne hc]
    · dsimp only
      rw [Function.update_self]
    · dsimp only
      rw [Function.update_self]
    · dsimp only at hval
      rw [Function.update_self] at hval
      cases hval
    · dsimp only
      rw [Function.update_self]
      exact hdisk
    · dsimp only at haway ⊢
      have hself := haway b
      rw [Function.update_self] at hself
      refine hcontent.away n fun c hc => ?_
      by_cases hcb : c = b
      · exact hself (hcb ▸ hc)
      · have hother := haway c
        rw [Function.update_of_ne hcb] at hother
        exact hother hc

/-! ## Runs -/

/-- The invariant. -/
structure Inv (s : State P α) : Prop where
  /-- The list of buffers. -/
  linked : Linked s
  /-- The uses of buffers. -/
  claimed : Claimed s
  /-- The contents of buffers. -/
  content : Content s

omit [DecidableEq P] in
theorem inv_binit (disk : ℕ → ℕ → α) (data : Buf → α) : Inv (binit disk data : State P α) := by
  have hdev : ¬ 0 = rootDev := by decide
  refine ⟨linked_binit disk data, ⟨fun b => ?_, fun p b h => absurd rfl h, fun _ _ _ h => h.elim,
    fun b hb => absurd hb (lt_irrefl 0), fun b b' hb => absurd hb hdev⟩,
    ⟨fun b => ⟨fun _ => ⟨rfl, fun h => absurd h hdev⟩, fun q hq => ?_, fun hb => ?_,
      fun q hq => ?_, fun h => absurd h hdev, fun h => absurd h hdev⟩, fun _ _ => rfl,
      List.nodup_nil⟩⟩
  · have hnone : claimants (fun _ : P => Pc.idle) b = 0 :=
      Finset.sum_eq_zero fun _ _ => if_neg id
    unfold binit
    dsimp only
    rw [hnone]
    rfl
  · cases hq
  · cases hb
  · cases hq

omit [Fintype P] [DecidableEq P] in
/-- The queueing of a buffer. -/
theorem iderw_eq_some (hcall : iderw s b = some s') :
    s' = { s with idequeue := s.idequeue ++ [b] } := by
  unfold iderw at hcall
  split_ifs at hcall
  exact (Option.some.inj hcall).symm

omit [DecidableEq P] in
/-- An interrupt keeps the invariant. -/
theorem Inv.ideintr (hinv : Inv s) (hcall : ideintr s = some s') : Inv s' := by
  unfold BufferCache.ideintr at hcall
  cases hqueue : s.idequeue with
  | nil =>
    rw [hqueue] at hcall
    obtain rfl := Option.some.inj hcall
    exact hinv
  | cons b rest =>
    rw [hqueue] at hcall
    have heq : s' = transfer { s with idequeue := rest } b := by
      cases rest with
      | nil => exact (Option.some.inj hcall).symm
      | cons b' rest =>
        dsimp only at hcall
        split_ifs at hcall
        exact (Option.some.inj hcall).symm
    subst heq
    refine ⟨?_, hinv.claimed.same (fun c => ?_) ?_ (fun q c => ?_) (fun q c hq => ?_)
      (fun q n c hq => ?_), hinv.content.transferred hinv.claimed hqueue⟩
    · have hlinks : (transfer { s with idequeue := rest } b).links = s.links := by
        unfold transfer State.setBuf
        dsimp only
        split_ifs <;> rfl
      unfold Linked
      rw [hlinks]
      exact hinv.linked
    · unfold transfer State.setBuf
      dsimp only
      by_cases hc : c = b
      · subst hc
        split_ifs <;> simp
      · split_ifs <;> simp [hc]
    · unfold transfer State.setBuf
      dsimp only
      split_ifs <;> rfl
    · unfold transfer State.setBuf
      dsimp only
      split_ifs <;> rfl
    · refine hinv.claimed.holder q c ?_
      unfold transfer State.setBuf at hq
      dsimp only at hq
      split_ifs at hq <;> exact hq
    · unfold transfer State.setBuf at hq
      dsimp only at hq
      split_ifs at hq <;> exact hq

/-- `bread` keeps the invariant. -/
theorem Inv.bread {n : ℕ} (hinv : Inv s) (hidle : s.pc p = .idle)
    (hcall : bget s rootDev n = some (b, s')) : Inv (s'.goto p (.locking n b)) := by
  unfold bget at hcall
  obtain ⟨c, hlookup, hdev, hblockno⟩ | ⟨hlookup, habsent⟩ := lookup_cases hinv.linked rootDev n
  · rw [hlookup] at hcall
    obtain ⟨rfl, rfl⟩ := Prod.mk.inj (Option.some.inj hcall)
    exact ⟨hinv.linked, hinv.claimed.found hidle hdev hblockno, hinv.content.found hidle⟩
  · rw [hlookup] at hcall
    obtain ⟨c, hunused, heq⟩ := Option.map_eq_some_iff.mp hcall
    obtain ⟨rfl, rfl⟩ := Prod.mk.inj heq
    obtain ⟨hfree, hdirty⟩ := unused_spec hinv.linked hunused
    exact ⟨hinv.linked, hinv.claimed.recycled hidle hfree habsent,
      hinv.content.recycled hinv.claimed hidle hfree hdirty habsent⟩

/-- A process with a valid buffer is done with `bread` or `bwrite`. -/
theorem Inv.returned {ph : Phase} (hinv : Inv s) (hphase : (s.pc p).phase b = some ph)
    (hother : ∀ c, c ≠ b → (s.pc p).phase c = none) (hclaims : ∀ c, ¬ (s.pc p).Claims c)
    (hvalid : (s.buf b).valid = true) (hready : ph = .writing → (s.buf b).dirty = false) :
    Inv (s.goto p .idle) :=
  ⟨hinv.linked, hinv.claimed.move (c := .idle) (fun _ => ⟨rfl, rfl, rfl⟩) rfl rfl
    (fun c => iff_of_false id (hclaims c)) (fun _ h => absurd rfl h) (fun _ _ h => h.elim),
    hinv.content.returned hinv.claimed hphase hother (fun _ => rfl) hvalid hready⟩

omit [DecidableEq P] in
/-- A holder changes a buffer. -/
theorem Inv.changed {f : Buffer α → Buffer α} {t : Bool} (hinv : Inv s) (hidle : s.pc p = .idle)
    (hlock : s.lock b = some p)
    (hkey : (f (s.buf b)).dev = (s.buf b).dev ∧ (f (s.buf b)).blockno = (s.buf b).blockno ∧
      (f (s.buf b)).refcnt = (s.buf b).refcnt)
    (hvalid : (f (s.buf b)).valid = (s.buf b).valid)
    (hkept : (f (s.buf b)).dirty = true ∨ t = true) :
    Inv { s.setBuf b f with touched := Function.update s.touched b t } := by
  refine ⟨hinv.linked, hinv.claimed.same (fun c => ?_) rfl (fun _ _ => Iff.rfl)
    hinv.claimed.holder (fun _ _ _ h => h),
    hinv.content.changed hinv.claimed hidle hlock ⟨hkey.1, hkey.2.1⟩ hvalid hkept⟩
  unfold State.setBuf
  dsimp only
  by_cases hc : c = b
  · rw [hc, Function.update_self]
    exact hkey
  · rw [Function.update_of_ne hc]
    exact ⟨rfl, rfl, rfl⟩

/-- Every step keeps the invariant. -/
theorem Inv.step {a : Action P α} (hinv : Inv s) (hstep : step s a = some s') : Inv s' := by
  cases a with
  | bread p n =>
    simp only [BufferCache.step] at hstep
    split_ifs at hstep with hidle
    obtain ⟨⟨b, s₁⟩, hcall, rfl⟩ := Option.map_eq_some_iff.mp hstep
    exact hinv.bread hidle hcall
  | acquiresleep p =>
    simp only [BufferCache.step] at hstep
    cases hpc : s.pc p with
    | locking n b =>
      rw [hpc] at hstep
      dsimp only at hstep
      split_ifs at hstep with hlock
      obtain rfl := Option.some.inj hstep
      exact ⟨hinv.linked, hinv.claimed.locked hpc hlock, hinv.content.locked hpc hlock⟩
    | _ => simp [hpc] at hstep
  | test p =>
    simp only [BufferCache.step] at hstep
    cases hpc : s.pc p with
    | test n b =>
      have hphase : (s.pc p).phase b = some .test := by rw [hpc]; exact if_pos rfl
      have hlock := hinv.claimed.holder p b (by rw [hphase]; exact Option.some_ne_none _)
      rw [hpc] at hstep
      dsimp only at hstep
      split_ifs at hstep with hvalid
      · obtain rfl := Option.some.inj hstep
        refine hinv.returned hphase (fun c hc => ?_) (fun c => ?_) hvalid (fun h => by cases h)
        · rw [hpc]
          exact if_neg (Ne.symm hc)
        · rw [hpc]
          exact id
      · obtain ⟨s₁, hcall, rfl⟩ := Option.map_eq_some_iff.mp hstep
        obtain rfl := iderw_eq_some hcall
        refine ⟨hinv.linked, hinv.claimed.move (c := .reading n b) (fun _ => ⟨rfl, rfl, rfl⟩) rfl
          rfl (fun c => ?_) (fun c hc => ?_) (fun m c h => ?_),
          hinv.content.fetched hinv.claimed hpc (Bool.eq_false_iff.mpr hvalid)⟩
        · rw [hpc]
          exact Iff.rfl
        · have hcb : b = c := by
            by_contra hne
            exact hc (if_neg hne)
          exact hcb ▸ hlock
        · rw [hpc]
          exact h
    | _ => simp [hpc] at hstep
  | ideintr => exact hinv.ideintr hstep
  | wake p =>
    simp only [BufferCache.step] at hstep
    cases hpc : s.pc p with
    | reading n b =>
      rw [hpc] at hstep
      dsimp only at hstep
      split_ifs at hstep with hsynced
      obtain rfl := Option.some.inj hstep
      obtain ⟨hvalid, -⟩ : (s.buf b).valid = true ∧ (s.buf b).dirty = false := by
        simpa [synced] using hsynced
      refine hinv.returned
        (show (s.pc p).phase b = some .reading by rw [hpc]; exact if_pos rfl)
        (fun c hc => ?_) (fun c => ?_) hvalid (fun h => by cases h)
      · rw [hpc]
        exact if_neg (Ne.symm hc)
      · rw [hpc]
        exact id
    | writing b =>
      rw [hpc] at hstep
      dsimp only at hstep
      split_ifs at hstep with hsynced
      obtain rfl := Option.some.inj hstep
      obtain ⟨hvalid, hclean⟩ : (s.buf b).valid = true ∧ (s.buf b).dirty = false := by
        simpa [synced] using hsynced
      refine hinv.returned
        (show (s.pc p).phase b = some .writing by rw [hpc]; exact if_pos rfl)
        (fun c hc => ?_) (fun c => ?_) hvalid fun _ => hclean
      · rw [hpc]
        exact if_neg (Ne.symm hc)
      · rw [hpc]
        exact id
    | _ => simp [hpc] at hstep
  | modify p b data =>
    simp only [BufferCache.step] at hstep
    split_ifs at hstep with hholds
    obtain rfl := Option.some.inj hstep
    exact hinv.changed hholds.1 hholds.2 ⟨rfl, rfl, rfl⟩ rfl (.inr rfl)
  | logWrite p b =>
    simp only [BufferCache.step] at hstep
    split_ifs at hstep with hholds
    obtain rfl := Option.some.inj hstep
    exact hinv.changed hholds.1 hholds.2 ⟨rfl, rfl, rfl⟩ rfl (.inl rfl)
  | bwrite p b =>
    simp only [BufferCache.step] at hstep
    split_ifs at hstep with hholds
    obtain ⟨s₁, hcall, rfl⟩ := Option.map_eq_some_iff.mp hstep
    obtain rfl := iderw_eq_some hcall
    have hchanged := hinv.changed (f := fun x => { x with dirty := true }) (t := false) hholds.1
      hholds.2 ⟨rfl, rfl, rfl⟩ rfl (.inl rfl)
    refine ⟨hinv.linked, hchanged.claimed.move (c := .writing b) (p := p)
      (fun _ => ⟨rfl, rfl, rfl⟩) rfl rfl (fun c => ?_) (fun c hc => ?_) (fun _ _ h => h.elim),
      hchanged.content.stored hholds.1 hholds.2 ?_ ?_⟩
    · have hidle : ({ s.setBuf b (fun x => { x with dirty := true }) with
          touched := Function.update s.touched b false } : State P α).pc p = .idle := hholds.1
      rw [hidle]
      exact Iff.rfl
    · have hcb : b = c := by
        by_contra hne
        exact hc (if_neg hne)
      exact hcb ▸ hholds.2
    · simp [State.setBuf]
    · simp
  | releasesleep p b =>
    simp only [BufferCache.step] at hstep
    split_ifs at hstep with hholds hroot
    · obtain rfl := Option.some.inj hstep
      exact ⟨hinv.linked, hinv.claimed.released hholds.1.1 hholds.1.2 _,
        hinv.content.released hinv.claimed hholds.1.1 hholds.1.2 hholds.2⟩
    · exact absurd (hinv.claimed.root_of_lock hholds.1.2) hroot
  | drop p =>
    simp only [BufferCache.step] at hstep
    cases hpc : s.pc p with
    | dropping b =>
      rw [hpc] at hstep
      obtain rfl := Option.some.inj hstep
      refine ⟨?_, hinv.claimed.dropped hpc, hinv.content.dropped hpc⟩
      obtain ⟨l, hring, hall⟩ := hinv.linked
      unfold State.goto Linked drop
      dsimp only
      split_ifs
      · exact linked_moveHead hring hall b
      · exact ⟨l, hring, hall⟩
    | _ => simp [hpc] at hstep

/-- A buffer that is in use or dirty keeps its block. -/
theorem Inv.keeps_block {a : Action P α} (hinv : Inv s)
    (hstep : BufferCache.step s a = some s')
    (hused : 0 < (s.buf b).refcnt ∨ (s.buf b).dirty = true) :
    (s'.buf b).dev = (s.buf b).dev ∧ (s'.buf b).blockno = (s.buf b).blockno := by
  have hchange : ∀ (c : Buf) (f : Buffer α → Buffer α),
      (f (s.buf c)).dev = (s.buf c).dev ∧ (f (s.buf c)).blockno = (s.buf c).blockno →
        (Function.update s.buf c (f (s.buf c)) b).dev = (s.buf b).dev ∧
          (Function.update s.buf c (f (s.buf c)) b).blockno = (s.buf b).blockno := by
    intro c f hkey
    by_cases hb : b = c
    · rw [hb, Function.update_self]
      exact hkey
    · rw [Function.update_of_ne hb]
      exact ⟨rfl, rfl⟩
  cases a with
  | bread p n =>
    simp only [BufferCache.step] at hstep
    split_ifs at hstep
    obtain ⟨⟨c, s₁⟩, hcall, rfl⟩ := Option.map_eq_some_iff.mp hstep
    unfold bget at hcall
    cases hlookup : lookup s rootDev n with
    | some c' =>
      rw [hlookup] at hcall
      obtain ⟨rfl, rfl⟩ := Prod.mk.inj (Option.some.inj hcall)
      exact hchange c' (fun x => { x with refcnt := x.refcnt + 1 }) ⟨rfl, rfl⟩
    | none =>
      rw [hlookup] at hcall
      obtain ⟨c', hunused, heq⟩ := Option.map_eq_some_iff.mp hcall
      obtain ⟨rfl, rfl⟩ := Prod.mk.inj heq
      obtain ⟨hfree, hdirty⟩ := unused_spec hinv.linked hunused
      have hne : b ≠ c' := by
        rintro rfl
        obtain h | h := hused
        · omega
        · rw [hdirty] at h
          cases h
      unfold State.goto State.setBuf
      dsimp only
      rw [Function.update_of_ne hne]
      exact ⟨rfl, rfl⟩
  | acquiresleep p =>
    simp only [BufferCache.step] at hstep
    split at hstep
    · split_ifs at hstep
      obtain rfl := Option.some.inj hstep
      exact ⟨rfl, rfl⟩
    · cases hstep
  | test p =>
    simp only [BufferCache.step] at hstep
    split at hstep
    · split_ifs at hstep
      · obtain rfl := Option.some.inj hstep
        exact ⟨rfl, rfl⟩
      · obtain ⟨s₁, hcall, rfl⟩ := Option.map_eq_some_iff.mp hstep
        obtain rfl := iderw_eq_some hcall
        exact ⟨rfl, rfl⟩
    · cases hstep
  | ideintr =>
    simp only [BufferCache.step, BufferCache.ideintr] at hstep
    have htransfer : ∀ (c : Buf) (rest : List Buf),
        ((transfer { s with idequeue := rest } c).buf b).dev = (s.buf b).dev ∧
          ((transfer { s with idequeue := rest } c).buf b).blockno = (s.buf b).blockno := by
      intro c rest
      unfold transfer State.setBuf
      dsimp only
      by_cases hb : b = c
      · subst hb
        split_ifs <;> simp
      · split_ifs <;> simp [hb]
    split at hstep
    · obtain rfl := Option.some.inj hstep
      exact ⟨rfl, rfl⟩
    · split at hstep
      · obtain rfl := Option.some.inj hstep
        exact htransfer _ _
      · split_ifs at hstep
        obtain rfl := Option.some.inj hstep
        exact htransfer _ _
  | wake p =>
    simp only [BufferCache.step] at hstep
    split at hstep
    · split_ifs at hstep
      obtain rfl := Option.some.inj hstep
      exact ⟨rfl, rfl⟩
    · split_ifs at hstep
      obtain rfl := Option.some.inj hstep
      exact ⟨rfl, rfl⟩
    · cases hstep
  | modify p c data =>
    simp only [BufferCache.step] at hstep
    split_ifs at hstep
    obtain rfl := Option.some.inj hstep
    exact hchange c (fun x => { x with data := data }) ⟨rfl, rfl⟩
  | logWrite p c =>
    simp only [BufferCache.step] at hstep
    split_ifs at hstep
    obtain rfl := Option.some.inj hstep
    exact hchange c (fun x => { x with dirty := true }) ⟨rfl, rfl⟩
  | bwrite p c =>
    simp only [BufferCache.step] at hstep
    split_ifs at hstep
    obtain ⟨s₁, hcall, rfl⟩ := Option.map_eq_some_iff.mp hstep
    obtain rfl := iderw_eq_some hcall
    exact hchange c (fun x => { x with dirty := true }) ⟨rfl, rfl⟩
  | releasesleep p c =>
    simp only [BufferCache.step] at hstep
    split_ifs at hstep <;> obtain rfl := Option.some.inj hstep <;> exact ⟨rfl, rfl⟩
  | drop p =>
    simp only [BufferCache.step] at hstep
    split at hstep
    · obtain rfl := Option.some.inj hstep
      unfold State.goto
      dsimp only
      rw [drop_buf]
      exact hchange _ (fun x => { x with refcnt := x.refcnt - 1 }) ⟨rfl, rfl⟩
    · cases hstep

/-- What `bread` returns is what the last holder left. -/
theorem Inv.returns {a : Action P α} {n : ℕ} (hinv : Inv s)
    (hstep : BufferCache.step s a = some s') (hreturns : Returns s a s' p n b) :
    s'.lock b = some p ∧ (s'.buf b).dev = rootDev ∧ (s'.buf b).blockno = n ∧
      (s'.buf b).data = s'.left n := by
  obtain ⟨⟨rfl, hpc⟩ | ⟨rfl, hpc⟩, hidle⟩ := hreturns
  · have hphase : (s.pc p).phase b = some .test := by rw [hpc]; exact if_pos rfl
    have hlock := hinv.claimed.holder p b (by rw [hphase]; exact Option.some_ne_none _)
    obtain ⟨hdev, hblockno⟩ := hinv.claimed.reads p n b (by rw [hpc]; exact ⟨rfl, rfl⟩)
    simp only [BufferCache.step, hpc] at hstep
    split_ifs at hstep with hvalid
    · obtain rfl := Option.some.inj hstep
      refine ⟨hlock, hdev, hblockno, ?_⟩
      have hdata := ((hinv.content.at_buf b).fresh fun q hq => by
        obtain rfl : p = q := Option.some.inj (hlock.symm.trans hq)
        exact .inl hphase).2 hdev hvalid
      rw [hblockno] at hdata
      exact hdata
    · obtain ⟨s₁, -, rfl⟩ := Option.map_eq_some_iff.mp hstep
      unfold State.goto at hidle
      dsimp only at hidle
      rw [Function.update_self] at hidle
      cases hidle
  · have hphase : (s.pc p).phase b = some .reading := by rw [hpc]; exact if_pos rfl
    have hlock := hinv.claimed.holder p b (by rw [hphase]; exact Option.some_ne_none _)
    obtain ⟨hdev, hblockno⟩ := hinv.claimed.reads p n b (by rw [hpc]; exact ⟨rfl, rfl⟩)
    simp only [BufferCache.step, hpc] at hstep
    split_ifs at hstep with hsynced
    obtain rfl := Option.some.inj hstep
    obtain ⟨hvalid, -⟩ : (s.buf b).valid = true ∧ (s.buf b).dirty = false := by
      simpa [synced] using hsynced
    refine ⟨hlock, hdev, hblockno, ?_⟩
    have hdata := ((hinv.content.at_buf b).fresh fun q hq => by
      obtain rfl : p = q := Option.some.inj (hlock.symm.trans hq)
      exact .inr hphase).2 hdev hvalid
    rw [hblockno] at hdata
    exact hdata

/-- What is said of every state that a run reaches. -/
structure Transparent (s : State P α) : Prop where
  /-- The links form a circular doubly linked list of all buffers, each once. -/
  linked : ∃ l, s.links.Ring l ∧ ∀ b, b ∈ l
  /-- A block of `ROOTDEV` has at most one buffer. -/
  unique : ∀ b b', (s.buf b).dev = rootDev → (s.buf b').dev = rootDev →
    (s.buf b).blockno = (s.buf b').blockno → b = b'
  /-- No step assigns a buffer that is in use or dirty to another block. -/
  keeps_block : ∀ (a : Action P α) (s' : State P α) (b : Buf), step s a = some s' →
    0 < (s.buf b).refcnt ∨ (s.buf b).dirty = true →
      (s'.buf b).dev = (s.buf b).dev ∧ (s'.buf b).blockno = (s.buf b).blockno
  /-- `bread` returns a locked buffer with what the last holder of the block left. -/
  returns : ∀ (a : Action P α) (s' : State P α) (p : P) (n : ℕ) (b : Buf), step s a = some s' →
    Returns s a s' p n b → s'.lock b = some p ∧ (s'.buf b).dev = rootDev ∧
      (s'.buf b).blockno = n ∧ (s'.buf b).data = s'.left n

/-- **The buffer cache is transparent.** -/
theorem transparent {disk : ℕ → ℕ → α} {data : Buf → α} {trace : List (Action P α)}
    (hrun : GuardedRun.Run step GuardedRun.free (binit disk data) trace s) : Transparent s := by
  have hinv : Inv s := hrun.invariant (I := fun _ s => Inv s) (inv_binit disk data)
    fun _ _ _ _ hinv _ hstep => hinv.step hstep
  exact ⟨hinv.linked, hinv.claimed.unique, fun _ _ _ hstep => hinv.keeps_block hstep,
    fun _ _ _ _ _ hstep => hinv.returns hstep⟩

end

/-- The first buffer, which `binit` leaves at the end of the list. -/
def firstBuf : Buf := ⟨0, by decide⟩

/-- One process reads block 5, changes it and passes it to `log_write`; another one reads it. -/
def twoReaders : List (Action (Bool) ℕ) :=
  [.bread false 5, .acquiresleep false, .test false, .ideintr, .wake false,
    .modify false firstBuf 7, .bread true 5, .logWrite false firstBuf,
    .releasesleep false firstBuf, .drop false, .acquiresleep true, .test true]

/-- The buffers after that. -/
def afterTwoReaders : Option (State (Bool) ℕ) :=
  GuardedRun.exec step GuardedRun.free [] (binit (fun _ _ => 0) fun _ => 0) twoReaders

theorem transparent_twoReaders : ∃ s : State (Bool) ℕ,
    afterTwoReaders = some s ∧ (s.buf firstBuf).data = 7 ∧ s.pc true = .idle ∧
      s.lock firstBuf = some true ∧ Transparent s := by
  have hexec : (afterTwoReaders.map fun s =>
      ((s.buf firstBuf).data, s.pc true, s.lock firstBuf)) = some (7, .idle, some true) := by
    decide +kernel
  obtain ⟨s, hs, heq⟩ := Option.map_eq_some_iff.mp hexec
  simp only [Prod.mk.injEq] at heq
  have hrun : GuardedRun.Run step GuardedRun.free (binit (fun _ _ => 0) fun _ => 0)
      (twoReaders.reverse ++ []) s := GuardedRun.Run.exec .start hs
  exact ⟨s, hs, heq.1, heq.2.1, heq.2.2, transparent hrun⟩

end Xv6.BufferCache
