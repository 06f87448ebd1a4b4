import Xv6.Directory

/-!
# A directory is a finite map

`dirlookup`, `dirlink` and the clearing of an entry on a directory whose lock is held, for any
other entries of the inode cache: they answer and change the directory as the operations of a
finite map from names to inode numbers.
-/

namespace Xv6.Fs

open LittleEndian StateProg SlotMap GuardedRun

/-! ## The other entries of the inode cache -/

/-- The state with other entries in the inode cache, apart from one. -/
def withOthers (dp : InodePtr) (others : InodePtr → Inode) (s : State) : State :=
  { s with icache := Function.update others dp (s.icache dp) }

section Others

variable {dp : InodePtr} {others : InodePtr → Inode} {s : State}

@[simp] theorem withOthers_self : (withOthers dp others s).icache dp = s.icache dp :=
  Function.update_self ..

/-- The other entries of the cache are those that are put there. -/
theorem withOthers_of_ne {q : InodePtr} (hq : q ≠ dp) :
    (withOthers dp others s).icache q = others q :=
  Function.update_of_ne hq ..

@[simp] theorem withOthers_withOthers {others' : InodePtr → Inode} :
    withOthers dp others (withOthers dp others' s) = withOthers dp others s := by
  simp [withOthers]

@[simp] theorem withOthers_icache : withOthers dp s.icache s = s := by
  simp [withOthers]

/-- Reading the entry of the directory. -/
theorem commutes_inode : Commutes (withOthers dp others) (inode dp) := by
  intro s
  change Except.ok ((withOthers dp others s).icache dp, withOthers dp others s) = _
  rw [withOthers_self]
  rfl

/-- Changing the entry of the directory. -/
theorem commutes_setInode (f : Inode → Inode) :
    Commutes (withOthers dp others) (setInode dp f) :=
  commutes_modify fun s => by simp [withOthers]

/-- Reading a block. -/
theorem commutes_bread (b : ℕ) : Commutes (withOthers dp others) (bread b) := fun _ => rfl

/-- Writing a block. -/
theorem commutes_logWrite (b : ℕ) (data : Bytes) :
    Commutes (withOthers dp others) (logWrite b data) :=
  commutes_modify fun _ => rfl

/-- Allocating a block. -/
theorem commutes_balloc : Commutes (withOthers dp others) balloc := by
  unfold balloc
  refine commutes_get_bind (fun s => ?_) fun _ => rfl
  split
  · exact commutes_throw _
  · exact (commutes_bread _).bind fun _ => (commutes_logWrite _ _).bind fun _ =>
      (commutes_logWrite _ _).bind fun _ => commutes_pure _

/-- An address in the inode of the directory. -/
theorem commutes_bmapAddr (k : Fin (ndirect + 1)) :
    Commutes (withOthers dp others) (bmapAddr dp k) := by
  unfold bmapAddr
  exact commutes_inode.bind fun _ => .ite (commutes_pure _) <| commutes_balloc.bind fun _ =>
    (commutes_setInode _).bind fun _ => commutes_pure _

/-- An address in an indirect block. -/
theorem commutes_bmapEntry (addr j : ℕ) :
    Commutes (withOthers dp others) (bmapEntry addr j) := by
  unfold bmapEntry
  exact (commutes_bread _).bind fun _ => .ite (commutes_pure _) <| commutes_balloc.bind fun _ =>
    (commutes_logWrite _ _).bind fun _ => commutes_pure _

/-- The block of the directory at an index. -/
theorem commutes_bmap (bn : ℕ) : Commutes (withOthers dp others) (bmap dp bn) := by
  unfold bmap
  refine .dite (fun _ => commutes_bmapAddr _) fun _ => .ite ?_ (commutes_throw _)
  exact (commutes_bmapAddr _).bind fun _ => commutes_bmapEntry _ _

/-- The loop of `readi`. -/
theorem commutes_readiLoop (n fuel tot off : ℕ) (dst : Bytes) :
    Commutes (withOthers dp others) (readiLoop dp n fuel tot off dst) := by
  induction fuel generalizing tot off dst with
  | zero => exact commutes_pure _
  | succ fuel ih =>
    unfold readiLoop
    exact .ite ((commutes_bmap _).bind fun _ => (commutes_bread _).bind fun _ => ih _ _ _)
      (commutes_pure _)

/-- `readi` of the directory does not look at the other entries of the cache. -/
theorem commutes_readi (off n : ℕ) : Commutes (withOthers dp others) (readi dp off n) := by
  unfold readi
  refine commutes_get_bind (fun s => ?_) fun _ => rfl
  refine commutes_inode.bind fun i => .ite (.dite (fun _ => ?_) fun _ => commutes_pure _)
    (.ite (commutes_pure _) ((commutes_readiLoop _ _ _ _ _).bind fun _ => commutes_pure _))
  split
  · exact commutes_pure _
  · exact commutes_pure _

/-- The loop of `writei`. -/
theorem commutes_writeiLoop (src : Bytes) (n fuel tot off : ℕ) :
    Commutes (withOthers dp others) (writeiLoop dp src n fuel tot off) := by
  induction fuel generalizing tot off with
  | zero => exact commutes_pure _
  | succ fuel ih =>
    unfold writeiLoop
    exact .ite ((commutes_bmap _).bind fun _ => (commutes_bread _).bind fun _ =>
      (commutes_logWrite _ _).bind fun _ => ih _ _) (commutes_pure _)

/-- Writing the inode of the directory back. -/
theorem commutes_iupdate : Commutes (withOthers dp others) (iupdate dp) := by
  unfold iupdate
  refine commutes_get_bind (fun s => ?_) fun _ => rfl
  exact commutes_inode.bind fun _ => (commutes_bread _).bind fun _ => commutes_logWrite _ _

/-- The end of `writei`, where the size may grow. -/
theorem commutes_writeiSize (off n : ℕ) :
    Commutes (withOthers dp others) (writeiSize dp off n) := by
  unfold writeiSize
  exact commutes_inode.bind fun _ =>
    .ite ((commutes_setInode _).bind fun _ => commutes_iupdate) (commutes_pure _)

/-- `writei` to the directory does not look at the other entries of the cache. -/
theorem commutes_writei (src : Bytes) (off n : ℕ) :
    Commutes (withOthers dp others) (writei dp src off n) := by
  unfold writei
  refine commutes_get_bind (fun s => ?_) fun _ => rfl
  refine commutes_inode.bind fun i => .ite (.dite (fun _ => ?_) fun _ => commutes_pure _)
    (.ite (commutes_pure _) (.ite (commutes_pure _)
      ((commutes_writeiLoop _ _ _ _ _).bind fun _ => (commutes_writeiSize _ _).bind fun _ =>
        commutes_pure _)))
  split
  · exact commutes_pure _
  · exact commutes_pure _

/-- A check. -/
theorem commutes_panicIf (c : Prop) [Decidable c] (halt : Halt) :
    Commutes (withOthers dp others) (panicIf c halt) :=
  .ite (commutes_throw _) (commutes_pure _)

/-- The loop of `dirlookup` reads the directory only. -/
theorem commutes_dirlookupLoop (name : Bytes) (offs : List ℕ) :
    Commutes (withOthers dp others) (dirlookupLoop dp name offs) := by
  induction offs with
  | nil => exact commutes_pure _
  | cons off offs ih =>
    unfold dirlookupLoop
    exact (commutes_readi _ _).bind fun _ => (commutes_panicIf _ _).bind fun _ =>
      .ite (commutes_pure _) ih

/-- The loop of `dirlink` reads the directory only. -/
theorem commutes_dirlinkFind (last : ℕ) (offs : List ℕ) :
    Commutes (withOthers dp others) (dirlinkFind dp last offs) := by
  induction offs with
  | nil => exact commutes_pure _
  | cons off offs ih =>
    unfold dirlinkFind
    exact (commutes_readi _ _).bind fun _ => (commutes_panicIf _ _).bind fun _ =>
      .ite (commutes_pure _) ih

/-- What a program that does not look at the other entries does is the same for all of them. -/
theorem wp_others {α : Type} {prog : FsM α} {post : α → State → Prop} {fail : Halt → Prop}
    (hprog : ∀ others, Commutes (withOthers dp others) prog)
    (hspec : wp prog post fail (withOthers dp others s)) :
    wp prog (fun a s' => ∃ s₁, post a s₁ ∧ s' = withOthers dp s.icache s₁) fail s := by
  have hall := (hprog s.icache).wp_change hspec
  rwa [withOthers_withOthers, withOthers_icache] at hall

end Others

/-! ## The inode cache -/

section Cache

variable {s : State} {ip : InodePtr} {i : Inode} {inum : ℕ}

@[simp] theorem setEntry_self : (setEntry s ip i).icache ip = i := Function.update_self ..

@[simp] theorem setEntry_setEntry {i' : Inode} :
    setEntry (setEntry s ip i) ip i' = setEntry s ip i' := by
  simp [setEntry]

@[simp] theorem setEntry_icache : setEntry s ip (s.icache ip) = s := by
  simp [setEntry]

/-- The inode is cached, or an entry of the cache is unused. -/
def Available (s : State) (inum : ℕ) : Prop :=
  ∃ q, (0 < (s.icache q).ref ∧ (s.icache q).inum = inum) ∨ (s.icache q).ref = 0

instance (s : State) (inum : ℕ) : Decidable (Available s inum) :=
  inferInstanceAs (Decidable (∃ _, _))

/-- What `iget` of an inode number does to an entry of the cache. -/
structure Got (s : State) (inum : ℕ) (ip : InodePtr) (i : Inode) : Prop where
  /-- The inode number. -/
  number : i.inum = inum
  /-- It has one more reference. -/
  ref : i.ref = (s.icache ip).ref + 1
  /-- The entry was that of the inode, or the inode was not cached and the entry was unused. -/
  entry : (0 < (s.icache ip).ref ∧ (s.icache ip).inum = inum ∧
      i = { s.icache ip with ref := (s.icache ip).ref + 1 }) ∨
    (s.icache ip).ref = 0 ∧ i.locked = (s.icache ip).locked ∧ i.valid = false ∧
      ∀ q, 0 < (s.icache q).ref → (s.icache q).inum ≠ inum

/-- `iget` of an inode for which there is an entry. -/
theorem iget_run (havailable : Available s inum) :
    ∃ ip i, iget inum s = .ok (ip, setEntry s ip i) ∧ Got s inum ip i := by
  have hspec : wp (iget inum) (fun ip s' => ∃ i, s' = setEntry s ip i ∧ Got s inum ip i)
      (fun _ => False) s := by
    unfold iget
    simp only [wp_bind, wp_get]
    cases hfind : (List.finRange ninode).find? fun ip =>
        decide (0 < (s.icache ip).ref ∧ (s.icache ip).inum = inum) with
    | some ip =>
      obtain ⟨href, hinum⟩ : 0 < (s.icache ip).ref ∧ (s.icache ip).inum = inum := by
        simpa using List.find?_some hfind
      simp only [wp_bind, wp_setInode, wp_pure]
      exact ⟨_, rfl, hinum, rfl, Or.inl ⟨href, hinum, rfl⟩⟩
    | none =>
      dsimp only
      cases hempty : (List.finRange ninode).find? fun ip => decide ((s.icache ip).ref = 0) with
      | none =>
        obtain ⟨q, hq | hq⟩ := havailable
        · have hno := List.find?_eq_none.mp hfind q (List.mem_finRange q)
          simp [hq] at hno
        · have hno := List.find?_eq_none.mp hempty q (List.mem_finRange q)
          simp [hq] at hno
      | some ip =>
        have href : (s.icache ip).ref = 0 := by simpa using List.find?_some hempty
        simp only [wp_bind, wp_setInode, wp_pure]
        refine ⟨_, rfl, rfl, by rw [href]; rfl, Or.inr ⟨href, rfl, rfl, fun q hq hinum => ?_⟩⟩
        have hno := List.find?_eq_none.mp hfind q (List.mem_finRange q)
        simp [hq, hinum] at hno
  obtain ⟨ip, s', hrun, i, rfl, hgot⟩ := exists_ok hspec
  exact ⟨ip, i, hrun, hgot⟩

/-- `iget` panics if there is no entry for the inode. -/
theorem iget_full (hfull : ¬ Available s inum) : iget inum s = .error .igetNoInodes := by
  have hcached : (List.finRange ninode).find? (fun ip =>
      decide (0 < (s.icache ip).ref ∧ (s.icache ip).inum = inum)) = none := by
    rw [List.find?_eq_none]
    intro q _ hq
    exact hfull ⟨q, .inl (of_decide_eq_true hq)⟩
  have hunused : (List.finRange ninode).find? (fun ip =>
      decide ((s.icache ip).ref = 0)) = none := by
    rw [List.find?_eq_none]
    intro q _ hq
    exact hfull ⟨q, .inr (of_decide_eq_true hq)⟩
  have hspec : wp (iget inum) (fun _ _ => False) (fun halt => halt = .igetNoInodes) s := by
    unfold iget
    simp only [wp_bind, wp_get, hcached, hunused, wp_throw]
  cases hrun : iget inum s with
  | ok r => exact (wp_ok hspec hrun).elim
  | error halt => rw [wp_error hspec hrun]

/-- `iput` of an inode that it does not free, and whose lock is free. -/
theorem iput_run (hunlocked : (s.icache ip).locked = false)
    (hkeep : ¬ ((s.icache ip).valid = true ∧ (s.icache ip).din.nlink = 0 ∧ (s.icache ip).ref = 1)) :
    iput ip s = .ok ((), setEntry s ip { s.icache ip with ref := (s.icache ip).ref - 1 }) := by
  have hspec : wp (iput ip) (fun _ s' =>
      s' = setEntry s ip { s.icache ip with ref := (s.icache ip).ref - 1 }) (fun _ => False) s := by
    unfold iput acquiresleep iputFree releasesleep
    simp only [wp_bind, wp_inode, wp_panicIf, wp_setInode, Function.update_self]
    refine ⟨fun hlock => absurd (hunlocked.symm.trans hlock) Bool.false_ne_true, fun _ => ?_⟩
    rw [if_neg hkeep, wp_pure]
    simp only [Function.update_self, Function.update_idem, setEntry, hunlocked]
  obtain ⟨_, s', hrun, rfl⟩ := exists_ok hspec
  exact hrun

/-- `iput` of an inode whose lock the thread itself holds waits for ever. -/
theorem iput_own (hlocked : (s.icache ip).locked = true) :
    iput ip s = .error .selfDeadlock := by
  have hspec : wp (iput ip) (fun _ _ => False) (fun halt => halt = .selfDeadlock) s := by
    unfold iput acquiresleep
    simp only [wp_bind, wp_inode, wp_panicIf]
    exact ⟨fun _ => trivial, fun hno => absurd hlocked hno⟩
  cases hrun : iput ip s with
  | ok r => exact (wp_ok hspec hrun).elim
  | error halt => rw [wp_error hspec hrun]

end Cache

/-! ## A directory whose lock is held -/

/-- An entry of the inode cache that is not used. -/
def unusedEntry : Inode := ⟨0, 0, false, false, Dinode.zero⟩

/-- A pointer to a locked and valid inode that is a directory of the bytes `c`, whatever else is
in the inode cache. -/
structure HeldDir (L : Layout) (s : State) (file : ℕ → Dinode) (dp : InodePtr)
    (c : List UInt8) : Prop where
  /-- The inode is locked and valid. -/
  held : Held L (withOthers dp (fun _ => unusedEntry) s) file dp c
  /-- It is a directory. -/
  type : (s.icache dp).din.type = tDir
  /-- It consists of entries. -/
  entries : sizeofDirent ∣ c.length
  /-- The unused entries of the inode cache are not locked. -/
  unused : ∀ q, (s.icache q).ref = 0 → (s.icache q).locked = false

variable {L : Layout} {s s' : State} {file file' : ℕ → Dinode} {dp ip : InodePtr} {i : Inode}
  {c : List UInt8} {name : Bytes} {inum : ℕ}

/-- The inode of a locked and valid inode. -/
theorem Held.din_eq (h : Held L s file dp c) : (s.icache dp).din = file (s.icache dp).inum :=
  h.base.din dp h.live.ref h.live.valid

/-- A locked and valid inode is one whatever else is in the inode cache. -/
theorem Held.recache (h : Held L s file dp c) (hsb : s'.sb = s.sb) (hdisk : s'.disk = s.disk)
    (href : 0 < (s'.icache dp).ref)
    (hself : s'.icache dp = { s.icache dp with ref := (s'.icache dp).ref })
    (hothers : ∀ q ≠ dp, ¬ 0 < (s'.icache q).ref) : Held L s' file dp c := by
  have hinum : (s'.icache dp).inum = (s.icache dp).inum := by rw [hself]
  have hvalid : (s'.icache dp).valid = (s.icache dp).valid := by rw [hself]
  refine ⟨h.base.recache hsb hdisk fun q hq => ?_, ⟨href, hvalid.trans h.live.valid⟩, ?_, ?_, ?_⟩
  · by_cases hqd : q = dp
    · rw [hqd]
      refine ⟨h.live.ref, hinum, fun _ => ⟨?_, h.base.alloc dp h.live.ref h.live.valid⟩⟩
      rw [hself]
      exact h.din_eq
    · exact absurd hq (hothers q hqd)
  · rw [hself]
    exact h.locked
  · rw [hinum]
    exact h.notDev
  · rw [hinum]
    exact h.represents.of_disk hdisk

/-- A locked inode of the type of a directory, with whole entries, is a directory that is held. -/
theorem Held.heldDir (h : Held L s file dp c) (htype : (s.icache dp).din.type = tDir)
    (hentries : sizeofDirent ∣ c.length)
    (hunused : ∀ q, (s.icache q).ref = 0 → (s.icache q).locked = false) :
    HeldDir L s file dp c := by
  refine ⟨h.recache rfl rfl ?_ ?_ fun q hq => ?_, htype, hentries, hunused⟩
  · rw [withOthers_self]
    exact h.live.ref
  · rw [withOthers_self]
  · rw [withOthers_of_ne hq]
    exact lt_irrefl 0

/-- The directory is there after a change of an entry of the inode cache, which for its own entry
is one of the number of references. -/
theorem HeldDir.setEntry (h : HeldDir L s file dp c)
    (hself : ip = dp → 0 < i.ref ∧ i = { s.icache dp with ref := i.ref })
    (hunused : i.ref = 0 → i.locked = false) : HeldDir L (setEntry s ip i) file dp c := by
  have hall (q : InodePtr) (hq : ((Fs.setEntry s ip i).icache q).ref = 0) :
      ((Fs.setEntry s ip i).icache q).locked = false := by
    by_cases hqi : q = ip
    · rw [hqi, setEntry_self] at hq ⊢
      exact hunused hq
    · have hsame : (Fs.setEntry s ip i).icache q = s.icache q := Function.update_of_ne hqi ..
      rw [hsame] at hq ⊢
      exact h.unused q hq
  by_cases hip : ip = dp
  · obtain ⟨href, hi⟩ := hself hip
    subst hip
    refine ⟨h.held.recache rfl rfl ?_ ?_ fun q hq => ?_, ?_, h.entries, hall⟩
    · rwa [withOthers_self, setEntry_self]
    · rw [withOthers_self, setEntry_self, withOthers_self]
      exact hi
    · rw [withOthers_of_ne hq]
      exact lt_irrefl 0
    · rw [setEntry_self, hi]
      exact h.type
  · have hdp : (Fs.setEntry s ip i).icache dp = s.icache dp :=
      Function.update_of_ne (Ne.symm hip) ..
    have hsame : withOthers dp (fun _ => unusedEntry) (Fs.setEntry s ip i) =
        withOthers dp (fun _ => unusedEntry) s := by
      rw [withOthers, hdp]
      rfl
    refine ⟨?_, ?_, h.entries, hall⟩
    · rw [hsame]
      exact h.held
    · rw [hdp]
      exact h.type

/-- The entry of the directory in the inode cache. -/
theorem HeldDir.entry (h : HeldDir L s file dp c) :
    0 < (s.icache dp).ref ∧ (s.icache dp).locked = true ∧
      (s.icache dp).din = file (s.icache dp).inum ∧ c.length = (s.icache dp).din.size.toNat := by
  have href := h.held.live.ref
  have hlocked := h.held.locked
  have hdin := h.held.din_eq
  have hlength := h.held.represents.length
  simp only [withOthers_self] at href hlocked hdin hlength
  exact ⟨href, hlocked, hdin, by rw [hlength, hdin]⟩

/-- `iget` leaves the directory as it is. -/
theorem HeldDir.got (h : HeldDir L s file dp c) (hgot : Got s inum ip i) :
    HeldDir L (Fs.setEntry s ip i) file dp c := by
  have hpos : 0 < i.ref := by
    have hmore := hgot.ref
    rcases hgot.entry with ⟨href, -⟩ | ⟨href, -⟩ <;> omega
  refine h.setEntry (fun hip => ⟨hpos, ?_⟩) fun hno => absurd hno hpos.ne'
  obtain ⟨href, -⟩ := h.entry
  subst hip
  rcases hgot.entry with ⟨-, -, hi⟩ | ⟨hno, -⟩
  · rw [hi]
  · exact absurd hno href.ne'

/-- The loop of `dirlookup` looks for the name in the directory. -/
theorem HeldDir.dirlookupLoop (h : HeldDir L s file dp c) (name : Bytes) :
    Fs.dirlookupLoop dp name (direntOffsets (s.icache dp).din.size.toNat) s =
      .ok ((find (nameOf name) (slotsOf c)).map fun r => (r.1, sizeofDirent * r.2), s) := by
  have htype := h.type
  rw [h.entry.2.2.1] at htype
  have hloop := dirlookupLoop_run h.held.base h.held.live
    (by rw [withOthers_self]; exact htype) h.held.represents name (Nat.zero_add _)
  rw [← direntOffsets_eq h.entries, h.entry.2.2.2, List.drop_zero] at hloop
  simp only [Nat.zero_add] at hloop
  obtain ⟨r, s', hrun, s₁, ⟨rfl, rfl⟩, rfl⟩ :=
    exists_ok (wp_others (fun _ => commutes_dirlookupLoop name _) hloop)
  rw [hrun, withOthers_withOthers, withOthers_icache]

/-- The loop of `dirlink` looks for an empty entry. -/
theorem HeldDir.dirlinkFind (h : HeldDir L s file dp c) :
    Fs.dirlinkFind dp c.length (direntOffsets (s.icache dp).din.size.toNat) s =
      .ok (sizeofDirent * firstFree (slotsOf c), s) := by
  have htype := h.type
  rw [h.entry.2.2.1] at htype
  have hloop := dirlinkFind_run h.held.base h.held.live
    (by rw [withOthers_self]; exact htype) h.held.represents (Nat.zero_add _)
  rw [← direntOffsets_eq h.entries, List.drop_zero, Nat.zero_add, Nat.zero_add,
    Nat.mul_div_cancel' h.entries] at hloop
  rw [← h.entry.2.2.2]
  obtain ⟨r, s', hrun, s₁, ⟨rfl, rfl⟩, rfl⟩ :=
    exists_ok (wp_others (fun _ => commutes_dirlinkFind _ _) hloop)
  rw [hrun, withOthers_withOthers, withOthers_icache]

/-! ## Looking up a name -/

/-- A check that does not panic. -/
theorem panicIf_of_not {p : Prop} [Decidable p] {halt : Halt} (hp : ¬ p) :
    panicIf p halt s = .ok ((), s) := by
  rw [panicIf, if_neg hp]
  rfl

/-- `dirlookup` up to the `iget`. -/
theorem HeldDir.dirlookup_eq (h : HeldDir L s file dp c) (name : Bytes) : dirlookup dp name s =
    match find (nameOf name) (slotsOf c) with
    | none => .ok (none, s)
    | some (inum, k) => (do
        let ip ← iget inum
        return some (ip, sizeofDirent * k) : FsM (Option (InodePtr × ℕ))) s := by
  have hentry : inode dp s = .ok (s.icache dp, s) := rfl
  unfold dirlookup
  rw [run_bind hentry, run_bind (panicIf_of_not (not_not.mpr h.type)),
    run_bind (h.dirlookupLoop name)]
  cases find (nameOf name) (slotsOf c) with
  | none => rfl
  | some r => rfl

/-- A name that is not in the directory. -/
theorem HeldDir.dirlookup_none (h : HeldDir L s file dp c)
    (hfind : find (nameOf name) (slotsOf c) = none) : dirlookup dp name s = .ok (none, s) := by
  rw [h.dirlookup_eq, hfind]

/-- A name that is in the directory. -/
theorem HeldDir.dirlookup_some (h : HeldDir L s file dp c) {k : ℕ}
    (hfind : find (nameOf name) (slotsOf c) = some (inum, k)) (havailable : Available s inum) :
    ∃ ip i, dirlookup dp name s = .ok (some (ip, sizeofDirent * k), Fs.setEntry s ip i) ∧
      Got s inum ip i := by
  obtain ⟨ip, i, hrun, hgot⟩ := iget_run havailable
  refine ⟨ip, i, ?_, hgot⟩
  rw [h.dirlookup_eq, hfind]
  dsimp only
  rw [run_bind hrun]
  rfl

/-- There is no entry of the inode cache for a name that is in the directory. -/
theorem HeldDir.dirlookup_full (h : HeldDir L s file dp c) {k : ℕ}
    (hfind : find (nameOf name) (slotsOf c) = some (inum, k)) (hfull : ¬ Available s inum) :
    dirlookup dp name s = .error .igetNoInodes := by
  rw [h.dirlookup_eq, hfind]
  dsimp only
  rw [run_bind_error (iget_full hfull)]

/-! ## Linking a name that is there -/

/-- The thread holds the lock of no cached inode of this number. -/
def Unheld (s : State) (inum : ℕ) : Prop :=
  ∀ q, 0 < (s.icache q).ref → (s.icache q).inum = inum → (s.icache q).locked = false

instance (s : State) (inum : ℕ) : Decidable (Unheld s inum) :=
  inferInstanceAs (Decidable (∀ _, _))

/-- The entry that `iget` returns is not locked. -/
theorem Got.unlocked (hgot : Got s inum ip i) (hunheld : Unheld s inum)
    (hunused : ∀ q, (s.icache q).ref = 0 → (s.icache q).locked = false) : i.locked = false := by
  rcases hgot.entry with ⟨href, hinum, hi⟩ | ⟨href, hlocked, -⟩
  · rw [hi]
    exact hunheld ip href hinum
  · rw [hlocked]
    exact hunused ip href

/-- The reference that `dirlookup` has taken is put again. -/
theorem Got.iput (hgot : Got s inum ip i) (hunheld : Unheld s inum)
    (hunused : ∀ q, (s.icache q).ref = 0 → (s.icache q).locked = false) :
    iput ip (setEntry s ip i) = .ok ((), setEntry s ip { i with ref := (s.icache ip).ref }) := by
  have hmore := hgot.ref
  have href : i.ref - 1 = (s.icache ip).ref := by omega
  have hunlocked : ((setEntry s ip i).icache ip).locked = false := by
    rw [setEntry_self]
    exact hgot.unlocked hunheld hunused
  have hkeep : ¬ (i.valid = true ∧ i.din.nlink = 0 ∧ i.ref = 1) := by
    rintro ⟨hvalid, -, hone⟩
    rcases hgot.entry with ⟨hpos, -⟩ | ⟨-, -, hno, -⟩
    · omega
    · rw [hno] at hvalid
      cases hvalid
  have hrun := iput_run hunlocked (by rwa [setEntry_self])
  rw [hrun, setEntry_setEntry, setEntry_self, href]

/-- `dirlink` of a name that is in the directory. -/
theorem HeldDir.dirlink_some (h : HeldDir L s file dp c) {k n : ℕ}
    (hfind : find (nameOf name) (slotsOf c) = some (n, k)) (havailable : Available s n)
    (hunheld : Unheld s n) :
    ∃ s', dirlink dp name inum s = .ok (-1, s') ∧ HeldDir L s' file dp c ∧
      s'.disk = s.disk ∧ s'.calls = s.calls ∧ ∀ q, (s'.icache q).ref = (s.icache q).ref := by
  obtain ⟨ip, i, hrun, hgot⟩ := h.dirlookup_some hfind havailable
  have hput := hgot.iput hunheld h.unused
  have hne : ip ≠ dp := by
    rintro rfl
    obtain ⟨href, hlocked, -⟩ := h.entry
    rcases hgot.entry with ⟨-, hinum, -⟩ | ⟨hno, -⟩
    · rw [hunheld ip href hinum] at hlocked
      cases hlocked
    · omega
  refine ⟨Fs.setEntry s ip { i with ref := (s.icache ip).ref }, ?_,
    h.setEntry (fun hip => absurd hip hne) fun _ => hgot.unlocked hunheld h.unused, rfl, rfl,
    fun q => ?_⟩
  · unfold dirlink
    rw [run_bind hrun]
    dsimp only
    rw [run_bind hput]
    rfl
  · by_cases hq : q = ip
    · rw [hq, setEntry_self]
    · exact congrArg Inode.ref (Function.update_of_ne hq ..)

/-- `dirlink` of a name that stands for an inode whose lock the thread holds, as `.` stands for the
directory itself, waits for ever. -/
theorem HeldDir.dirlink_own (h : HeldDir L s file dp c) {k n : ℕ}
    (hfind : find (nameOf name) (slotsOf c) = some (n, k)) {q : InodePtr}
    (href : 0 < (s.icache q).ref) (hinum : (s.icache q).inum = n)
    (hlocked : ∀ q, 0 < (s.icache q).ref → (s.icache q).inum = n → (s.icache q).locked = true) :
    dirlink dp name inum s = .error .selfDeadlock := by
  obtain ⟨ip, i, hrun, hgot⟩ := h.dirlookup_some hfind ⟨q, .inl ⟨href, hinum⟩⟩
  have hown : i.locked = true := by
    rcases hgot.entry with ⟨href', hinum', hi⟩ | ⟨-, -, -, hno⟩
    · rw [hi]
      exact hlocked ip href' hinum'
    · exact absurd hinum (hno q href)
  unfold dirlink
  rw [run_bind hrun]
  dsimp only
  rw [run_bind_error (iput_own (by rw [setEntry_self]; exact hown))]

/-! ## Writing an entry -/

/-- A block of a file that holds bytes has an address. -/
theorem Represents.addr_ne {n bn : ℕ} (h : Represents L s file n c) (hbn : bn * bsize < c.length) :
    ∃ hlt : bn < maxFile,
      addrMap file (L.view s.disk).block (n, Slot.ofIndex bn hlt) ≠ 0 := by
  have hblock := h.covered bn (by rwa [← h.length])
  unfold fileBlock at hblock
  split_ifs at hblock with hlt
  · exact ⟨hlt, hblock⟩
  · exact absurd rfl hblock

/-- The places of bytes that are there have addresses. -/
theorem Represents.place_ne {n off m : ℕ} (h : Represents L s file n c) (hend : off + m ≤ c.length)
    {p : Slot} (hp : p ∈ touched off m) : addrMap file (L.view s.disk).block (n, p) ≠ 0 := by
  have hplace := mem_touched.mp hp
  cases p with
  | addr k =>
    rw [Slot.Touched] at hplace
    split_ifs at hplace with hlast
    · -- the first block behind the direct ones is there, so the indirect block is
      obtain ⟨hlt, hne⟩ := h.addr_ne (show ndirect * bsize < c.length by omega)
      have hentry : Slot.ofIndex ndirect hlt = .entry ⟨ndirect - ndirect, by decide⟩ :=
        dif_neg (lt_irrefl _)
      rw [hentry] at hne
      unfold addrMap slotAddr at hne ⊢
      rw [hlast]
      split_ifs at hne ⊢ with htype haddr
      · exact absurd rfl hne
      · exact absurd rfl hne
      · exact haddr
    · obtain ⟨hlt, hne⟩ := h.addr_ne (hplace.2.2.trans_le hend)
      have hdirect : (k : ℕ) < ndirect := by
        have hle := k.isLt
        have hval : (k : ℕ) ≠ ndirect := fun heq => hlast (Fin.ext heq)
        omega
      rwa [Slot.ofIndex, dif_pos hdirect] at hne
  | entry j =>
    obtain ⟨hlt, hne⟩ := h.addr_ne (hplace.2.2.trans_le hend)
    rw [Slot.ofIndex, dif_neg (by omega)] at hne
    have hj : (⟨ndirect + j - ndirect, by omega⟩ : Fin nindirect) = j :=
      Fin.ext (Nat.add_sub_cancel_left ..)
    rwa [hj] at hne

/-- There is room for an entry behind the last one, and there are free blocks for it. -/
def CanGrow (L : Layout) (s : State) (dp : InodePtr) (size : ℕ) : Prop :=
  size + sizeofDirent ≤ maxFile * bsize ∧ Enough L s dp (touched size sizeofDirent)

instance (L : Layout) (s : State) (dp : InodePtr) (size : ℕ) : Decidable (CanGrow L s dp size) :=
  inferInstanceAs (Decidable (_ ∧ _))

/-- Whether there are blocks enough does not depend on the other entries of the cache. -/
theorem enough_withOthers {others : InodePtr → Inode} {places : Finset Slot} :
    Enough L (withOthers dp others s) dp places ↔ Enough L s dp places := by
  simp only [Enough, missing, slotAt, withOthers_self]
  rfl

/-- An entry is written over a slot of the directory, or behind the last one. -/
theorem HeldDir.writei_run (h : HeldDir L s file dp c) (de : Bytes) {k : ℕ}
    (hk : k ≤ (slotsOf c).length) (hgrow : k = (slotsOf c).length → CanGrow L s dp c.length) :
    ∃ s' file' c', writei dp de (sizeofDirent * k) sizeofDirent s = .ok ((sizeofDirent : ℕ), s') ∧
      HeldDir L s' file' dp c' ∧ slotsOf c' = put (slotsOf c) k (slotOf de) := by
  rw [length_slotsOf] at hk hgrow
  obtain ⟨n, hn⟩ := h.entries
  have hcount : c.length / sizeofDirent = n := by
    rw [hn]
    exact Nat.mul_div_cancel_left _ (by decide)
  rw [hcount] at hk hgrow
  have hle := h.held.represents.length_le
  have hoff : sizeofDirent * k ≤ c.length := by
    rw [hn]
    exact Nat.mul_le_mul_left _ hk
  have hbehind (hlt : k < n) : sizeofDirent * k + sizeofDirent ≤ c.length := by
    rw [hn]
    exact Nat.mul_le_mul_left sizeofDirent hlt
  have hlast (heq : k = n) : sizeofDirent * k = c.length := by rw [hn, heq]
  have hfits : Writable c (sizeofDirent * k) sizeofDirent := by
    refine ⟨hoff, ?_⟩
    by_cases hlt : k < n
    · exact (hbehind hlt).trans hle
    · have heq : k = n := by omega
      rw [hlast heq]
      exact (hgrow heq).1
  have henough : EnoughFor L (withOthers dp (fun _ => unusedEntry) s) file
      ((withOthers dp (fun _ => unusedEntry) s).icache dp).inum
      (touched (sizeofDirent * k) sizeofDirent) := by
    by_cases hlt : k < n
    · have hnone : (touched (sizeofDirent * k) sizeofDirent).filter (fun p =>
          addrMap file (L.view (withOthers dp (fun _ => unusedEntry) s).disk).block
            (((withOthers dp (fun _ => unusedEntry) s).icache dp).inum, p) = 0) = ∅ :=
        Finset.filter_eq_empty_iff.mpr fun p hp =>
          h.held.represents.place_ne (hbehind hlt) hp
      rw [EnoughFor, hnone]
      exact Nat.zero_le _
    · have heq : k = n := by omega
      rw [← h.held.base.enough_iff h.held.live, enough_withOthers, hlast heq]
      exact (hgrow heq).2
  have hspec := wp_and
    (h.held.writei_spec hfits henough (fun hn _ => covers_touched hn) de)
    (writei_wrote h.held.base h.held.live h.held.notDev h.held.represents de hfits)
  obtain ⟨r, s', hrun, s₁, ⟨⟨rfl, ⟨file', hheld, -⟩, -⟩, -, file₁, hwrote⟩, rfl⟩ := exists_ok
    (wp_others (fun _ => commutes_writei _ _ _)
      (wp_weaken hspec (fun _ _ hpost => hpost) fun _ hfail => hfail.1))
  have hslots := slotsOf_splice h.entries (hk.trans_eq hcount.symm) de
  refine ⟨_, file', _, hrun, ⟨?_, ?_, ?_, fun q hq => ?_⟩, hslots⟩
  · refine hheld.recache rfl rfl ?_ ?_ fun q hq => ?_
    · rw [withOthers_self, withOthers_self]
      exact hheld.live.ref
    · rw [withOthers_self, withOthers_self]
    · rw [withOthers_of_ne hq]
      exact lt_irrefl 0
  · have htype := h.type
    rw [h.entry.2.2.1] at htype
    rw [withOthers_self, hwrote.cache, setDin, Function.update_self]
    exact hwrote.type.trans (by rw [withOthers_self]; exact htype)
  · rw [length_splice _ hoff, length_firstBytes]
    rcases max_choice c.length (sizeofDirent * k + sizeofDirent) with hmax | hmax
    · rw [hmax]
      exact h.entries
    · rw [hmax]
      exact ⟨k + 1, rfl⟩
  · by_cases hqd : q = dp
    · rw [hqd, withOthers_self] at hq
      exact absurd hq hheld.live.ref.ne'
    · rw [withOthers_of_ne hqd] at hq ⊢
      exact h.unused q hq

/-- `dirlink` of a name that is not in the directory. -/
theorem HeldDir.dirlink_none (h : HeldDir L s file dp c)
    (hfind : find (nameOf name) (slotsOf c) = none) (hpos : 0 < inum) (hlt : inum < 65536)
    (hgrow : firstFree (slotsOf c) = (slotsOf c).length → CanGrow L s dp c.length) :
    ∃ s' file' c', dirlink dp name inum s = .ok (0, s') ∧ HeldDir L s' file' dp c' ∧
      slotsOf c' = put (slotsOf c) (firstFree (slotsOf c)) (some (nameOf name, inum)) := by
  have hentry : inode dp s = .ok (s.icache dp, s) := rfl
  have hlast : sizeofDirent * (direntOffsets (s.icache dp).din.size.toNat).length = c.length := by
    rw [← h.entry.2.2.2, direntOffsets_eq h.entries, List.length_map, List.length_range',
      Nat.mul_div_cancel' h.entries]
  obtain ⟨s', file', c', hrun, hdir, hslots⟩ := h.writei_run
    (dirent inum (strncpy name dirSiz)) (free_firstFree (slotsOf c)).le hgrow
  rw [slotOf_dirent hpos hlt] at hslots
  refine ⟨s', file', c', ?_, hdir, hslots⟩
  unfold dirlink
  rw [run_bind (h.dirlookup_none hfind)]
  dsimp only
  unfold dirlinkWrite
  rw [run_bind hentry, hlast, run_bind h.dirlinkFind, run_bind hrun,
    run_bind (panicIf_of_not (not_not.mpr rfl))]
  rfl

/-! ## Runs of the operations -/

/-- The clearing of the entry of a name, as `sys_unlink` does it. -/
def clearEntry (dp : InodePtr) (name : Bytes) : FsM ℤ := do
  match ← dirlookup dp name with
  | none => return -1
  | some (_, off) =>
    let r ← writei dp (fun _ => 0) off sizeofDirent
    panicIf (r ≠ sizeofDirent) .unlinkWritei
    return 0

/-- The operations on a directory. -/
inductive DirOp
  | lookup (name : Bytes)
  | link (name : Bytes) (inum : ℕ)
  | clear (name : Bytes)

/-- What they answer: `dirlookup` an inode, by its number, and an offset. -/
inductive DirAnswer
  | found (r : Option (ℕ × ℕ))
  | status (r : ℤ)
deriving DecidableEq

/-- An operation. -/
def DirOp.run (dp : InodePtr) : DirOp → FsM DirAnswer
  | .lookup name => do
    match ← dirlookup dp name with
    | none => return .found none
    | some (ip, off) =>
      let i ← inode ip
      return .found (some (i.inum, off))
  | .link name inum => do
    let r ← dirlink dp name inum
    return .status r
  | .clear name => do
    let r ← clearEntry dp name
    return .status r

/-- Operations one after the other. -/
def runOps (dp : InodePtr) : List DirOp → FsM (List DirAnswer)
  | [] => return []
  | op :: ops => do
    let a ← op.run dp
    let rest ← runOps dp ops
    return a :: rest

/-- What an operation answers for a table of names. -/
def DirOp.answer (d : Dir) : DirOp → DirAnswer
  | .lookup name => .found ((find (nameOf name) d).map fun r => (r.1, sizeofDirent * r.2))
  | .link name _ => .status (if (find (nameOf name) d).isSome then -1 else 0)
  | .clear name => .status (if (find (nameOf name) d).isSome then 0 else -1)

/-- What an operation does to a table of names. -/
def DirOp.table (d : Dir) : DirOp → Dir
  | .lookup _ => d
  | .link name inum =>
    if (find (nameOf name) d).isSome then d else put d (firstFree d) (some (nameOf name, inum))
  | .clear name => ((find (nameOf name) d).map fun r => put d r.2 none).getD d

/-- What an operation does to a map from names to inode numbers. -/
def DirOp.onNames (m : List UInt8 → Option ℕ) : DirOp → List UInt8 → Option ℕ
  | .lookup _ => m
  | .link name inum =>
    if (m (nameOf name)).isSome then m else Function.update m (nameOf name) (some inum)
  | .clear name => Function.update m (nameOf name) none

/-- The answers for a table of names. -/
def answers : List DirOp → Dir → List DirAnswer
  | [], _ => []
  | op :: ops, d => op.answer d :: answers ops (op.table d)

/-- When an operation returns: a number that is put has 16 bits and is not 0, a name that is there
can be cached, its inode is not locked by the thread if it is put again, and a directory that has
to grow can do so. -/
def DirOp.Admissible (L : Layout) (dp : InodePtr) (s : State) (d : Dir) : DirOp → Prop
  | .lookup name => ∀ r, find (nameOf name) d = some r → Available s r.1
  | .link name inum => (0 < inum ∧ inum < 65536) ∧
    (∀ r, find (nameOf name) d = some r → Available s r.1 ∧ Unheld s r.1) ∧
    (find (nameOf name) d = none → firstFree d = d.length →
      CanGrow L s dp (sizeofDirent * d.length))
  | .clear name => ∀ r, find (nameOf name) d = some r → Available s r.1

/-- The operations return, each in the state that those before it have left. -/
def Admitted (L : Layout) (dp : InodePtr) : List DirOp → Dir → State → Prop
  | [], _, _ => True
  | op :: ops, d, s => op.Admissible L dp s d ∧
    ∀ a s', op.run dp s = .ok (a, s') → Admitted L dp ops (op.table d) s'

instance decidableOnSome {α : Type} {P : α → Prop} [DecidablePred P] (o : Option α) :
    Decidable (∀ a, o = some a → P a) := inferInstanceAs (Decidable (∀ a ∈ o, P a))

instance (L : Layout) (dp : InodePtr) (s : State) (d : Dir) :
    ∀ op : DirOp, Decidable (op.Admissible L dp s d)
  | .lookup _ | .clear _ => inferInstanceAs (Decidable (∀ r, _ = some r → _))
  | .link _ _ => inferInstanceAs (Decidable (_ ∧ (∀ r, _ = some r → _) ∧ (_ → _ → _)))

/-- Whether operations return can be found out by running them. -/
def decideAdmitted (L : Layout) (dp : InodePtr) :
    ∀ (ops : List DirOp) (d : Dir) (s : State), Decidable (Admitted L dp ops d s)
  | [], _, _ => isTrue trivial
  | op :: ops, d, s =>
    haveI : DecidablePred fun s' => Admitted L dp ops (op.table d) s' :=
      decideAdmitted L dp ops (op.table d)
    haveI : Decidable (∀ a s', op.run dp s = .ok (a, s') → Admitted L dp ops (op.table d) s') :=
      decidable_of_iff (∀ r, (op.run dp s).toOption = some r → Admitted L dp ops (op.table d) r.2)
        (by
          cases op.run dp s with
          | error => simp [Except.toOption]
          | ok r => exact ⟨fun h a s' heq => by cases heq; exact h _ rfl,
              fun h r' heq => by cases heq; exact h _ _ rfl⟩)
    inferInstanceAs (Decidable (_ ∧ _))

instance (L : Layout) (dp : InodePtr) (ops : List DirOp) (d : Dir) (s : State) :
    Decidable (Admitted L dp ops d s) := decideAdmitted L dp ops d s

section Table

variable {d : Dir} {op : DirOp}

/-- The names stay distinct. -/
theorem DirOp.distinct_table (h : Distinct d) (op : DirOp) : Distinct (op.table d) := by
  cases op with
  | lookup name => exact h
  | link name inum =>
    unfold DirOp.table
    dsimp only
    split_ifs with hfind
    · exact h
    · exact h.put_some (free_firstFree d) (Option.not_isSome_iff_eq_none.mp hfind) inum
  | clear name =>
    unfold DirOp.table
    dsimp only
    cases hfind : find (nameOf name) d with
    | none => exact h
    | some r => exact h.put_none (List.getElem?_eq_some_iff.mp (getElem?_of_find hfind)).1.le

/-- The table is the map. -/
theorem DirOp.values_table (h : Distinct d) (op : DirOp) :
    values (op.table d) = op.onNames (values d) := by
  cases op with
  | lookup name => rfl
  | link name inum =>
    unfold DirOp.table DirOp.onNames
    dsimp only
    have hsome : (values d (nameOf name)).isSome = (find (nameOf name) d).isSome :=
      Option.isSome_map
    rw [hsome]
    split_ifs with hfind
    · rfl
    · exact h.values_put_some (free_firstFree d) (Option.not_isSome_iff_eq_none.mp hfind) inum
  | clear name =>
    unfold DirOp.table DirOp.onNames
    dsimp only
    cases hfind : find (nameOf name) d with
    | none =>
      have hnone : values d (nameOf name) = none := by rw [values, hfind, Option.map_none]
      rw [← hnone, Function.update_eq_self]
      rfl
    | some r => exact h.values_put_none hfind

end Table

/-- `clearEntry` of a name that is in the directory. -/
theorem HeldDir.clearEntry_some (h : HeldDir L s file dp c) {k : ℕ}
    (hfind : find (nameOf name) (slotsOf c) = some (inum, k)) (havailable : Available s inum) :
    ∃ s' file' c', clearEntry dp name s = .ok (0, s') ∧ HeldDir L s' file' dp c' ∧
      slotsOf c' = put (slotsOf c) k none := by
  obtain ⟨ip, i, hlookup, hgot⟩ := h.dirlookup_some hfind havailable
  have hlt := (List.getElem?_eq_some_iff.mp (getElem?_of_find hfind)).1
  obtain ⟨s', file', c', hrun, hdir, hslots⟩ := (h.got hgot).writei_run (fun _ => 0) hlt.le
    fun heq => absurd heq hlt.ne
  rw [slotOf_zero] at hslots
  refine ⟨s', file', c', ?_, hdir, hslots⟩
  unfold clearEntry
  rw [run_bind hlookup]
  dsimp only
  rw [run_bind hrun, run_bind (panicIf_of_not (not_not.mpr rfl))]
  rfl

/-- An operation answers and changes the directory as it does its table. -/
theorem HeldDir.run (h : HeldDir L s file dp c) {op : DirOp}
    (hadmissible : op.Admissible L dp s (slotsOf c)) : ∃ s' file' c',
      op.run dp s = .ok (op.answer (slotsOf c), s') ∧ HeldDir L s' file' dp c' ∧
        slotsOf c' = op.table (slotsOf c) := by
  cases op with
  | lookup name =>
    unfold DirOp.run DirOp.answer
    dsimp only
    cases hfind : find (nameOf name) (slotsOf c) with
    | none =>
      refine ⟨s, file, c, ?_, h, rfl⟩
      rw [run_bind (h.dirlookup_none hfind)]
      rfl
    | some r =>
      obtain ⟨ip, i, hrun, hgot⟩ := h.dirlookup_some hfind (hadmissible r hfind)
      have hentry : inode ip (Fs.setEntry s ip i) = .ok (i, Fs.setEntry s ip i) := by
        change Except.ok ((Fs.setEntry s ip i).icache ip, Fs.setEntry s ip i) = _
        rw [setEntry_self]
      refine ⟨Fs.setEntry s ip i, file, c, ?_, h.got hgot, rfl⟩
      rw [run_bind hrun]
      dsimp only
      rw [run_bind hentry, hgot.number]
      rfl
  | link name inum =>
    obtain ⟨⟨hpos, hlt⟩, hsome, hnone⟩ := hadmissible
    unfold DirOp.run DirOp.answer DirOp.table
    dsimp only
    cases hfind : find (nameOf name) (slotsOf c) with
    | none =>
      have hlength : sizeofDirent * (slotsOf c).length = c.length := by
        rw [length_slotsOf, Nat.mul_div_cancel' h.entries]
      rw [hlength] at hnone
      obtain ⟨s', file', c', hrun, hdir, hslots⟩ := h.dirlink_none hfind hpos hlt (hnone hfind)
      refine ⟨s', file', c', ?_, hdir, hslots⟩
      rw [run_bind hrun]
      rfl
    | some r =>
      obtain ⟨havailable, hunheld⟩ := hsome r hfind
      obtain ⟨s', hrun, hdir, -⟩ := h.dirlink_some hfind havailable hunheld
      refine ⟨s', file, c, ?_, hdir, rfl⟩
      rw [run_bind hrun]
      rfl
  | clear name =>
    unfold DirOp.run DirOp.answer DirOp.table
    dsimp only
    cases hfind : find (nameOf name) (slotsOf c) with
    | none =>
      refine ⟨s, file, c, ?_, h, rfl⟩
      have hrun : clearEntry dp name s = .ok (-1, s) := by
        unfold clearEntry
        rw [run_bind (h.dirlookup_none hfind)]
        rfl
      rw [run_bind hrun]
      rfl
    | some r =>
      obtain ⟨s', file', c', hrun, hdir, hslots⟩ :=
        h.clearEntry_some hfind (hadmissible r hfind)
      refine ⟨s', file', c', ?_, hdir, hslots⟩
      rw [run_bind hrun]
      rfl

/-- A run of operations answers and changes the directory as it does its table. -/
theorem HeldDir.runOps (h : HeldDir L s file dp c) {ops : List DirOp}
    (hadmitted : Admitted L dp ops (slotsOf c) s) : ∃ s' file' c',
      Fs.runOps dp ops s = .ok (answers ops (slotsOf c), s') ∧ HeldDir L s' file' dp c' ∧
        slotsOf c' = ops.foldl DirOp.table (slotsOf c) := by
  induction ops generalizing s file c with
  | nil => exact ⟨s, file, c, rfl, h, rfl⟩
  | cons op ops ih =>
    obtain ⟨hadmissible, hrest⟩ := hadmitted
    obtain ⟨s₁, file₁, c₁, hrun, hdir, hslots⟩ := h.run hadmissible
    have hlater := hrest _ s₁ hrun
    rw [← hslots] at hlater
    obtain ⟨s', file', c', hrun', hdir', hslots'⟩ := ih hdir hlater
    refine ⟨s', file', c', ?_, hdir', ?_⟩
    · unfold Fs.runOps answers
      rw [run_bind hrun, run_bind hrun', hslots]
      rfl
    · rw [hslots', hslots, List.foldl_cons]

/-- A table after operations is the map after them. -/
theorem values_foldl {d : Dir} (h : Distinct d) (ops : List DirOp) :
    Distinct (ops.foldl DirOp.table d) ∧
      values (ops.foldl DirOp.table d) = ops.foldl DirOp.onNames (values d) := by
  induction ops generalizing d with
  | nil => exact ⟨h, rfl⟩
  | cons op ops ih =>
    obtain ⟨hdistinct, hvalues⟩ := ih (op.distinct_table h)
    refine ⟨hdistinct, ?_⟩
    rw [List.foldl_cons, hvalues, op.values_table h, List.foldl_cons]

/-- A directory with distinct names is a finite map: in every run of operations that return,
`dirlookup` finds the number and the offset of the entry of a name, `dirlink` puts the binding of a
new name and refuses one that is there, and clearing an entry removes its binding; the names stay
distinct. A `dirlink` that refuses leaves the blocks and all references as they are. -/
theorem directory_is_map (h : HeldDir L s file dp c) (hdistinct : Distinct (slotsOf c))
    (ops : List DirOp) (hadmitted : Admitted L dp ops (slotsOf c) s) :
    (∃ s' file' c', Fs.runOps dp ops s = .ok (answers ops (slotsOf c), s') ∧
      HeldDir L s' file' dp c' ∧ slotsOf c' = ops.foldl DirOp.table (slotsOf c) ∧
      Distinct (slotsOf c') ∧ values (slotsOf c') = ops.foldl DirOp.onNames (values (slotsOf c))) ∧
    ∀ name inum r, find (nameOf name) (slotsOf c) = some r → Available s r.1 → Unheld s r.1 →
      ∃ s', dirlink dp name inum s = .ok (-1, s') ∧ HeldDir L s' file dp c ∧ s'.disk = s.disk ∧
        s'.calls = s.calls ∧ ∀ q, (s'.icache q).ref = (s.icache q).ref := by
  constructor
  · obtain ⟨s', file', c', hrun, hdir, hslots⟩ := h.runOps hadmitted
    obtain ⟨hstay, hvalues⟩ := values_foldl hdistinct ops
    rw [← hslots] at hstay hvalues
    exact ⟨s', file', c', hrun, hdir, hslots, hstay, hvalues⟩
  · intro name inum r hfind havailable hunheld
    exact h.dirlink_some hfind havailable hunheld

/-- A directory of the small disk, just created and locked. -/
def smallDir : Except Halt (InodePtr × State) :=
  (do
    let dp ← ialloc tDir
    ilock dp
    return dp : FsM InodePtr) (boot smallDisk fun _ => ⟨none, none⟩)

/-- A locked directory of the small disk without contents. -/
theorem heldDir_empty {s : State} {dp : InodePtr} (hinv : Inv smallLayout s file)
    (href : 0 < (s.icache dp).ref) (hvalid : (s.icache dp).valid = true)
    (hlocked : (s.icache dp).locked = true) (htype : (s.icache dp).din.type = tDir)
    (hsize : (s.icache dp).din.size = 0)
    (hunused : ∀ q, (s.icache q).ref = 0 → (s.icache q).locked = false) :
    HeldDir smallLayout s file dp [] := by
  have hdin := hinv.base.din dp href hvalid
  have hzero : (file (s.icache dp).inum).size = 0 := by rw [← hdin, hsize]
  refine Held.heldDir ⟨hinv.base, ⟨href, hvalid⟩, hlocked, ?_, (hinv.files _).synced,
    fun bn hbn => ?_, ?_⟩ htype (dvd_zero _) hunused
  · rw [← hdin, htype]
    decide
  · rw [hzero] at hbn
    exact absurd hbn (Nat.not_lt_zero _)
  · rw [hzero]
    rfl

/-- The small directory is empty, held and may grow. -/
theorem smallDir_spec : ∃ s file dp, smallDir = .ok (dp, s) ∧ HeldDir smallLayout s file dp [] ∧
    CanGrow smallLayout s dp 0 := by
  have hinv := inv_boot smallDisk_image fun _ => ⟨none, none⟩
  have hspec : wp (do
      let dp ← ialloc tDir
      ilock dp
      return dp : FsM InodePtr) (fun dp s => ∃ file, Inv smallLayout s file) NotFreeing
      (boot smallDisk fun _ => ⟨none, none⟩) := by
    rw [wp_bind]
    refine wp_mono (ialloc_spec hinv (by decide)) ?_
    rintro dp s ⟨file, hinv', -⟩
    rw [wp_bind]
    refine wp_mono (ilock_spec hinv') ?_
    rintro _ s' ⟨hinv₂, -⟩
    exact ⟨file, hinv₂⟩
  have hexec : (smallDir.toOption.map fun r => decide (0 < (r.2.icache r.1).ref ∧
      (r.2.icache r.1).valid = true ∧ (r.2.icache r.1).locked = true ∧
      (r.2.icache r.1).din.type = tDir ∧ (r.2.icache r.1).din.size = 0 ∧
      (∀ q, (r.2.icache q).ref = 0 → (r.2.icache q).locked = false) ∧
      CanGrow smallLayout r.2 r.1 0)) = some true := by decide +kernel
  cases hrun : smallDir with
  | error halt => simp [hrun, Except.toOption] at hexec
  | ok r =>
    obtain ⟨dp, s⟩ := r
    obtain ⟨file, hinv'⟩ := wp_ok hspec hrun
    simp only [hrun, Except.toOption, Option.map_some, Option.some.injEq,
      decide_eq_true_eq] at hexec
    obtain ⟨href, hvalid, hlocked, htype, hsize, hunused, hgrow⟩ := hexec
    exact ⟨s, file, dp, rfl, heldDir_empty hinv' href hvalid hlocked htype hsize hunused, hgrow⟩

/-- An empty table has no name twice. -/
theorem distinct_nil : Distinct (slotsOf []) := fun i j k v w hi => by
  simp [slotsOf] at hi

/-- A name is linked, found, refused a second time and cleared, and another one is not there. -/
def smallOps : List DirOp :=
  [.link dotName 2, .lookup dotName, .link dotName 3, .link dotdotName 1, .clear dotName,
    .lookup dotName, .clear dotName, .link dotName 4, .lookup dotName]

/-- The operations one after the other, in the directory that has been created. -/
theorem directory_is_map_small : ∃ s s' dp, smallDir = .ok (dp, s) ∧
    Fs.runOps dp smallOps s = .ok ([.status 0, .found (some (2, 0)), .status (-1), .status 0,
      .status 0, .found none, .status (-1), .status 0, .found (some (4, 0))], s') := by
  obtain ⟨s, file, dp, hrun, hdir, -⟩ := smallDir_spec
  have hexec : (smallDir.toOption.map fun r =>
      decide (Admitted smallLayout r.1 smallOps (slotsOf []) r.2)) = some true := by decide +kernel
  have hadmitted : Admitted smallLayout dp smallOps (slotsOf []) s := by
    simpa only [hrun, Except.toOption, Option.map_some, Option.some.injEq,
      decide_eq_true_eq] using hexec
  obtain ⟨⟨s', -, -, hops, -⟩, -⟩ := directory_is_map hdir distinct_nil _ hadmitted
  have hanswers : answers smallOps (slotsOf []) = [.status 0, .found (some (2, 0)), .status (-1),
      .status 0, .status 0, .found none, .status (-1), .status 0, .found (some (4, 0))] := by
    decide +kernel
  exact ⟨s, s', dp, hrun, hanswers ▸ hops⟩

/-- The directory of the small disk, with an entry for the name `.`. -/
def dotDir (inum : ℕ) : Except Halt (InodePtr × State) :=
  smallDir.bind fun r => (dirlink r.1 dotName inum r.2).map fun r' => (r.1, r'.2)

/-- The directory with an entry for `.` is held, and has that entry. -/
theorem dotDir_spec (hpos : 0 < inum) (hlt : inum < 65536) : ∃ s file dp c,
    dotDir inum = .ok (dp, s) ∧ HeldDir smallLayout s file dp c ∧
      slotsOf c = [some (nameOf dotName, inum)] := by
  obtain ⟨s, file, dp, hrun, hdir, hgrow⟩ := smallDir_spec
  have hnone : find (nameOf dotName) (slotsOf []) = none := rfl
  obtain ⟨s', file', c', hlink, hdir', hslots⟩ := hdir.dirlink_none hnone hpos hlt fun _ => hgrow
  refine ⟨s', file', dp, c', ?_, hdir', hslots⟩
  unfold dotDir
  rw [hrun]
  change (dirlink dp dotName inum s).map _ = _
  rw [hlink]
  rfl

/-- A table with one entry has no name twice. -/
theorem distinct_singleton {n : List UInt8} : Distinct [some (n, inum)] := by
  intro j k m v w hj hk
  have hzero {l : ℕ} {e : Option (List UInt8 × ℕ)} (hl : [some (n, inum)][l]? = some e) :
      l = 0 := by
    have hlt := (List.getElem?_eq_some_iff.mp hl).1
    rw [List.length_singleton] at hlt
    omega
  rw [hzero hj, hzero hk]

/-- A file takes all data blocks, and a directory is created. -/
def fillBlocks : List Op := [.ialloc tFile, .writei 0 (fun _ => 0) 0 (8 * bsize), .ialloc tDir]

/-- The state after that, with the directory locked. -/
def fullDir : Option State :=
  (exec (opStep smallLayout) free [] (boot smallDisk fun _ => ⟨none, none⟩) fillBlocks).bind
    fun s => ((ilock 1 s).map Prod.snd).toOption

/-- The directory is empty and held, and no name can be put there. -/
theorem fullDir_spec : ∃ s file, HeldDir smallLayout s file 1 [] ∧
    ¬ ∃ r, dirlink 1 dotName 1 s = .ok r := by
  have hexec : (fullDir.map fun s => decide (0 < (s.icache 1).ref ∧
      (s.icache 1).valid = true ∧ (s.icache 1).locked = true ∧
      (s.icache 1).din.type = tDir ∧ (s.icache 1).din.size = 0 ∧
      (∀ q, (s.icache q).ref = 0 → (s.icache q).locked = false) ∧
      (dirlink 1 dotName 1 s).toOption.isNone = true)) = some true := by decide +kernel
  obtain ⟨s, hs, hdecide⟩ := Option.map_eq_some_iff.mp hexec
  obtain ⟨href, hvalid, hlocked, htype, hsize, hunused, hnone⟩ := of_decide_eq_true hdecide
  obtain ⟨s₁, hrun, hlock⟩ := Option.bind_eq_some_iff.mp hs
  obtain ⟨file, hinv⟩ := inv_run smallDisk_image (run_of_exec hrun)
  cases hilock : ilock 1 s₁ with
  | error halt => simp [hilock, Except.map, Except.toOption] at hlock
  | ok r =>
    obtain ⟨u, s₂⟩ := r
    have hs₂ : s₂ = s := by simpa [hilock, Except.map, Except.toOption] using hlock
    subst hs₂
    have hinv₂ := (wp_ok (ilock_spec hinv) hilock).1
    refine ⟨s₂, file, heldDir_empty hinv₂ href hvalid hlocked htype hsize hunused, ?_⟩
    rintro ⟨r, hr⟩
    simp [hr, Except.toOption] at hnone

/-- An entry of the inode cache that is in use, for an inode of its own. -/
def busyEntry (q : InodePtr) : Inode := ⟨100 + q, 1, false, false, Dinode.zero⟩

/-- Nothing is said about the other entries of the inode cache but that unused ones are not
locked. -/
theorem HeldDir.withOthers (h : HeldDir L s file dp c) {others : InodePtr → Inode}
    (hunused : ∀ q, (others q).ref = 0 → (others q).locked = false) :
    HeldDir L (Fs.withOthers dp others s) file dp c := by
  refine ⟨?_, ?_, h.entries, fun q hq => ?_⟩
  · rw [withOthers_withOthers]
    exact h.held
  · rw [withOthers_self]
    exact h.type
  · by_cases hqd : q = dp
    · rw [hqd, withOthers_self] at hq
      exact absurd hq h.entry.1.ne'
    · rw [withOthers_of_ne hqd] at hq ⊢
      exact hunused q hq

/-- When the inode cache is full, the lookup of a name that is there panics; a link of a name
that is there waits for ever if it stands for the directory itself; and a link of a new name panics
when no block is free. -/
theorem present_name_fails :
    (¬ ∀ (L : Layout) (s : State) (file : ℕ → Dinode) (dp : InodePtr) (c : List UInt8)
      (name : Bytes), HeldDir L s file dp c → Distinct (slotsOf c) →
        ∀ r, find (nameOf name) (slotsOf c) = some r →
          ∃ ip s', dirlookup dp name s = .ok (some (ip, sizeofDirent * r.2), s')) ∧
    (¬ ∀ (L : Layout) (s : State) (file : ℕ → Dinode) (dp : InodePtr) (c : List UInt8)
      (name : Bytes) (inum : ℕ), HeldDir L s file dp c → Distinct (slotsOf c) → 0 < inum →
        inum < 65536 → ∀ r, find (nameOf name) (slotsOf c) = some r →
          ∃ s', dirlink dp name inum s = .ok (-1, s')) ∧
    ¬ ∀ (L : Layout) (s : State) (file : ℕ → Dinode) (dp : InodePtr) (c : List UInt8)
      (name : Bytes) (inum : ℕ), HeldDir L s file dp c → Distinct (slotsOf c) → 0 < inum →
        inum < 65536 → c.length + sizeofDirent ≤ maxFile * bsize →
          find (nameOf name) (slotsOf c) = none → ∃ s', dirlink dp name inum s = .ok (0, s') := by
  refine ⟨?_, ?_, ?_⟩
  · intro hclaim
    obtain ⟨s, file, dp, c, hrun, hdir, hslots⟩ :=
      dotDir_spec (show 0 < 2 by decide) (show 2 < 65536 by decide)
    have hexec : ((dotDir 2).toOption.map fun r => (r.2.icache r.1).inum) = some 1 := by
      decide +kernel
    have hinum : (s.icache dp).inum = 1 := by
      simpa only [hrun, Except.toOption, Option.map_some, Option.some.injEq] using hexec
    have hbusy : HeldDir smallLayout (withOthers dp busyEntry s) file dp c :=
      hdir.withOthers fun q hq => by cases hq
    have hfull : ¬ Available (withOthers dp busyEntry s) 2 := by
      rintro ⟨q, hq⟩
      by_cases hqd : q = dp
      · rw [hqd, withOthers_self, hinum] at hq
        have href := hdir.entry.1
        omega
      · rw [withOthers_of_ne hqd] at hq
        rcases hq with ⟨-, hq⟩ | hq
        · exact absurd hq (by unfold busyEntry; dsimp only; omega)
        · cases hq
    have hfind : find (nameOf dotName) (slotsOf c) = some (2, 0) := by
      rw [hslots]
      decide
    obtain ⟨ip, s', hno⟩ := hclaim smallLayout _ file dp c dotName hbusy
      (by rw [hslots]; exact distinct_singleton) (2, 0) hfind
    rw [hbusy.dirlookup_full hfind hfull] at hno
    cases hno
  · intro hclaim
    obtain ⟨s, file, dp, c, hrun, hdir, hslots⟩ :=
      dotDir_spec (show 0 < 1 by decide) (show 1 < 65536 by decide)
    have hexec : ((dotDir 1).toOption.map fun r => decide ((r.2.icache r.1).inum = 1 ∧
        ∀ q, 0 < (r.2.icache q).ref → (r.2.icache q).locked = true)) = some true := by
      decide +kernel
    simp only [hrun, Except.toOption, Option.map_some, Option.some.injEq,
      decide_eq_true_eq] at hexec
    obtain ⟨hinum, hlocked⟩ := hexec
    have hfind : find (nameOf dotName) (slotsOf c) = some (1, 0) := by
      rw [hslots]
      decide
    have hown : dirlink dp dotName 1 s = .error .selfDeadlock :=
      hdir.dirlink_own hfind hdir.entry.1 hinum fun q hq _ => hlocked q hq
    obtain ⟨s', hno⟩ := hclaim smallLayout s file dp c dotName 1 hdir
      (by rw [hslots]; exact distinct_singleton) (by decide) (by decide) (1, 0) hfind
    rw [hown] at hno
    cases hno
  · intro hclaim
    obtain ⟨s, file, hdir, hno⟩ := fullDir_spec
    obtain ⟨s', hlink⟩ := hclaim smallLayout s file 1 [] dotName 1 hdir distinct_nil (by decide)
      (by decide) (by decide) rfl
    exact hno ⟨_, hlink⟩

end Xv6.Fs
