import Xv6.FileBytes
import Xv6.Param

/-!
# Writing to an open file

`filewrite` cuts a write into pieces that fit a transaction of the log. Whatever the
alignment and the missing blocks, a piece logs at most `MAXOPBLOCKS` blocks, and the pieces
together do what one call of `writei` would do.
-/

namespace Xv6.Fs

open LittleEndian StateProg

/-- What `struct file` refers to. -/
inductive FileType
  | none
  | pipe
  | inode
deriving DecidableEq

/-- `struct file`; the pipe of an `FD_PIPE` file is left to the caller of `filewrite`. -/
structure File where
  /-- What the file refers to. -/
  type : FileType
  /-- Whether the file may be written to. -/
  writable : Bool
  /-- The inode. -/
  ip : InodePtr
  /-- The offset of the next byte. -/
  off : ℕ

/-- The most bytes that `filewrite` writes in one transaction. -/
def filewriteMax : ℕ := ((maxOpBlocks - 1 - 1 - 2) / 2) * 512

/-- `filewrite` between `ilock` and `iunlock`: the bytes are written at the offset, and the
offset moves on. -/
def filewriteAt (f : File) (src : Bytes) (n1 : ℕ) : FsM (ℤ × File) := do
  let r ← writei f.ip src f.off n1
  if 0 < r then return (r, { f with off := (f.off + r.toNat) % 2 ^ 32 })
  else return (r, f)

/-- `filewrite` from `ilock` to `iunlock`. -/
def filewriteLocked (f : File) (src : Bytes) (n1 : ℕ) : FsM (ℤ × File) := do
  ilock f.ip
  let res ← filewriteAt f src n1
  iunlock f.ip
  return res

/-- `filewrite`, one transaction. -/
def filewriteChunk (f : File) (src : Bytes) (n1 : ℕ) : FsM (ℤ × File) := do
  beginOp
  let res ← filewriteLocked f src n1
  endOp
  return res

/-- The loop of `filewrite`; the first argument bounds the rounds, and `n` of them suffice. It
returns the number of bytes written. -/
def filewriteLoop (src : Bytes) (n : ℕ) : ℕ → ℕ → File → FsM (ℕ × File)
  | 0, i, f => return (i, f)
  | fuel + 1, i, f =>
    if i < n then do
      let n1 := if n - i > filewriteMax then filewriteMax else n - i
      let (r, f) ← filewriteChunk f (fun k => src (i + k)) n1
      if r < 0 then return (i, f)
      else
        panicIf (r ≠ n1) .shortFilewrite
        filewriteLoop src n fuel (i + n1) f
    else return (i, f)

/-- `filewrite` of `n` bytes; `pipewrite` is what the pipe of the file does. -/
def filewrite (pipewrite : Bytes → ℕ → FsM ℤ) (f : File) (src : Bytes) (n : ℕ) :
    FsM (ℤ × File) :=
  if f.writable = false then return (-1, f)
  else
    match f.type with
    | .pipe => do
      let r ← pipewrite src n
      return (r, f)
    | .inode => do
      let (i, f) ← filewriteLoop src n n 0 f
      return (if i = n then n else -1, f)
    | .none => throw .filewrite

variable {L : Layout} {s s' : State} {file file' : ℕ → Dinode} {i : ℕ} {ip : InodePtr}
  {c : List UInt8} {places : Finset Slot}

/-- The inodes that count stay so for a cache with the same references. -/
theorem Base.recache (h : Base L s file) (hsb : s'.sb = s.sb) (hdisk : s'.disk = s.disk)
    (hcache : ∀ q, 0 < (s'.icache q).ref → 0 < (s.icache q).ref ∧
      (s'.icache q).inum = (s.icache q).inum ∧ ((s'.icache q).valid = true →
        (s'.icache q).din = file (s.icache q).inum ∧ (file (s.icache q).inum).type ≠ 0)) :
    Base L s' file := by
  constructor
  · rw [hsb, h.sb]
  · rw [hdisk, h.superblock]
  · intro q hq
    obtain ⟨href, hinum, -⟩ := hcache q hq
    rw [hinum]
    exact h.table q href
  · intro q q' hq hq' heq
    obtain ⟨href, hinum, -⟩ := hcache q hq
    obtain ⟨href', hinum', -⟩ := hcache q' hq'
    rw [hinum, hinum'] at heq
    exact h.inj q q' href href' heq
  · intro q hq hvalid
    obtain ⟨href, hinum, hval⟩ := hcache q hq
    rw [hinum]
    exact (hval hvalid).1
  · intro q hq hvalid
    obtain ⟨href, hinum, hval⟩ := hcache q hq
    rw [hinum]
    exact (hval hvalid).2
  · rw [hdisk]
    exact h.reserved
  · rw [hdisk]
    exact h.owned

theorem Represents.of_disk (h : Represents L s file i c) (hdisk : s'.disk = s.disk) :
    Represents L s' file i c := by
  obtain ⟨hsynced, hcovered, hbytes⟩ := h
  rw [← hdisk] at hsynced hcovered hbytes
  exact ⟨hsynced, hcovered, hbytes⟩

/-- A pointer to an unlocked inode that is a regular file or a directory of the bytes `c`. -/
structure Ready (L : Layout) (s : State) (file : ℕ → Dinode) (ip : InodePtr)
    (c : List UInt8) : Prop where
  /-- The owners of the blocks and the cache. -/
  base : Base L s file
  /-- A reference is held. -/
  ref : 0 < (s.icache ip).ref
  /-- Nobody holds the lock. -/
  unlocked : (s.icache ip).locked = false
  /-- The inode is allocated. -/
  alloc : (file (s.icache ip).inum).type ≠ 0
  /-- The inode is not that of a device. -/
  notDev : (file (s.icache ip).inum).type ≠ tDev
  /-- Its bytes. -/
  represents : Represents L s file (s.icache ip).inum c

/-- There are enough free blocks for these places of an inode, cached or not. -/
def EnoughFor (L : Layout) (s : State) (file : ℕ → Dinode) (i : ℕ) (places : Finset Slot) :
    Prop :=
  (places.filter fun p => addrMap file (L.view s.disk).block (i, p) = 0).card ≤
    (freeBlocks L s).card

theorem Base.enough_iff (h : Base L s file) (hip : Live s ip) :
    Enough L s ip places ↔ EnoughFor L s file (s.icache ip).inum places := by
  simp only [Enough, missing, EnoughFor, h.slotAt_eq hip]

/-- The state with another entry in the cache. -/
def setEntry (s : State) (ip : InodePtr) (i : Inode) : State :=
  { s with icache := Function.update s.icache ip i }

/-- The entry of the cache after `ilock`. -/
def lockedInode (i : Inode) (din : Dinode) : Inode :=
  { i with locked := true, valid := true, din }

/-- `ilock` of an unlocked inode takes the lock and reads the inode if it has to. -/
theorem ilock_run (h : Base L s file) (href : 0 < (s.icache ip).ref)
    (hunlocked : (s.icache ip).locked = false) (halloc : (file (s.icache ip).inum).type ≠ 0)
    (hsynced : (L.view s.disk).dinode (s.icache ip).inum = file (s.icache ip).inum) :
    ilock ip s =
      .ok ((), setEntry s ip (lockedInode (s.icache ip) (file (s.icache ip).inum))) := by
  have hspec : wp (ilock ip) (fun _ s' => s' =
      setEntry s ip (lockedInode (s.icache ip) (file (s.icache ip).inum)))
      (fun _ => False) s := by
    unfold ilock acquiresleep
    simp only [wp_bind, wp_inode, wp_panicIf, wp_setInode, hunlocked]
    refine ⟨fun hlt => absurd href (by omega), fun _ => ⟨fun hlock => by simp at hlock, ?_⟩⟩
    intro _
    by_cases hvalid : (s.icache ip).valid = true
    · rw [if_pos hvalid, wp_pure, ← h.din ip href hvalid]
      simp [setEntry, lockedInode, hvalid]
    · rw [if_neg hvalid]
      unfold ilockRead
      have htable := h.table ip href
      have hread : getDinode (s.disk (L.sb.iblock (s.icache ip).inum))
          ((s.icache ip).inum % ipb * sizeofDinode) = file (s.icache ip).inum := by
        rw [← hsynced]
        exact (if_pos htable).symm
      simp only [wp_bind, wp_get, wp_inode, wp_bread, wp_setInode, wp_panicIf, h.sb,
        Function.update_self, hread, Function.update_idem]
      refine ⟨fun hzero => absurd hzero halloc, fun _ => ?_⟩
      simp [setEntry, lockedInode, h.sb]
  obtain ⟨_, s', hrun, hs'⟩ := exists_ok hspec
  rw [hrun, hs']

/-- `iunlock` of a locked inode. -/
theorem iunlock_run (href : 0 < (s.icache ip).ref) (hlock : (s.icache ip).locked = true) :
    iunlock ip s = .ok ((), setEntry s ip { s.icache ip with locked := false }) := by
  have hspec : wp (iunlock ip) (fun _ s' => s' =
      setEntry s ip { s.icache ip with locked := false }) (fun _ => False) s := by
    unfold iunlock releasesleep
    simp only [wp_bind, wp_inode, wp_panicIf, wp_setInode, hlock]
    refine ⟨fun hbad => ?_, fun _ => rfl⟩
    rcases hbad with hbad | hbad
    · simp at hbad
    · omega
  obtain ⟨_, s', hrun, hs'⟩ := exists_ok hspec
  rw [hrun, hs']

theorem Keeps.of_disk (hdisk : s'.disk = s.disk) (j : ℕ) : Keeps L s s' file file j := by
  constructor
  · rfl
  · rw [hdisk]
  · intro p
    rw [hdisk]
  · intro p _
    rw [hdisk]

/-- A piece of a write has been done: the file holds the bytes `c'`, the free blocks still
suffice where they did, and nothing else has changed. -/
structure Piece (L : Layout) (ip : InodePtr) (s s' : State) (file file' : ℕ → Dinode)
    (c' : List UInt8) (places : Finset Slot) : Prop where
  /-- The inode after the piece. -/
  ready : Ready L s' file' ip c'
  /-- It is the same one. -/
  inum : (s'.icache ip).inum = (s.icache ip).inum
  /-- The free blocks. -/
  enough : EnoughFor L s file (s.icache ip).inum places →
    EnoughFor L s' file' (s.icache ip).inum places
  /-- The other inodes. -/
  keeps : ∀ j ≠ (s.icache ip).inum, Keeps L s s' file file' j

theorem Piece.refl (h : Ready L s file ip c) : Piece L ip s s file file c places :=
  ⟨h, rfl, id, fun _ _ => Keeps.refl⟩

theorem Piece.trans {s'' : State} {file'' : ℕ → Dinode} {c' c'' : List UInt8}
    (h : Piece L ip s s' file file' c' places) (h' : Piece L ip s' s'' file' file'' c'' places) :
    Piece L ip s s'' file file'' c'' places := by
  have henough := h'.enough
  have hkeeps := h'.keeps
  rw [h.inum] at henough hkeeps
  exact ⟨h'.ready, h'.inum.trans h.inum, fun hfirst => henough (h.enough hfirst),
    fun j hj => (h.keeps j hj).trans (hkeeps j hj)⟩

/-- The free blocks that suffice still do after some have been handed out. -/
theorem Grows.enough (h : Grows L ip s s' places) (henough : Enough L s ip places) :
    Enough L s' ip places := by
  have hcount := h.count
  unfold Enough at henough ⊢
  omega

/-- The blocks of a range and the indirect block are few. -/
theorem card_touched_le {off n : ℕ} (hn : n ≤ 3 * bsize) : (touched off n).card ≤ 5 := by
  have hsubset : touched off n ⊆ insert (.addr (Fin.last ndirect))
      ((Finset.Ico (off / bsize) (off / bsize + 4)).image fun bn =>
        if hbn : bn < maxFile then Slot.ofIndex bn hbn else .addr (Fin.last ndirect)) := by
    have hblock {bn : ℕ} (htouched : BlockTouched off n bn) :
        bn ∈ Finset.Ico (off / bsize) (off / bsize + 4) := by
      obtain ⟨-, hlo, hhi⟩ := htouched
      rw [Finset.mem_Ico]
      unfold bsize at *
      omega
    intro p hp
    have htouched := mem_touched.mp hp
    rw [Finset.mem_insert, Finset.mem_image]
    cases p with
    | addr k =>
      by_cases hk : k = Fin.last ndirect
      · exact .inl (congrArg Slot.addr hk)
      · rw [Slot.Touched, if_neg hk] at htouched
        have hdirect : (k : ℕ) < ndirect := by
          have hlt := k.isLt
          have hval : (k : ℕ) ≠ ndirect := fun heq => hk (Fin.ext heq)
          omega
        have hmax : (k : ℕ) < maxFile := by
          unfold maxFile
          omega
        refine .inr ⟨k, hblock htouched, ?_⟩
        rw [dif_pos hmax, Slot.ofIndex, dif_pos hdirect]
    | entry j =>
      have hmax : ndirect + (j : ℕ) < maxFile := by
        have hlt := j.isLt
        unfold maxFile
        omega
      have hind : ¬ ndirect + (j : ℕ) < ndirect := by omega
      refine .inr ⟨ndirect + j, hblock htouched, ?_⟩
      rw [dif_pos hmax, Slot.ofIndex, dif_neg hind, Slot.entry.injEq]
      exact Fin.ext (Nat.add_sub_cancel_left ..)
  calc (touched off n).card
      ≤ ((Finset.Ico (off / bsize) (off / bsize + 4)).image _).card + 1 :=
        (Finset.card_le_card hsubset).trans (Finset.card_insert_le _ _)
    _ ≤ (Finset.Ico (off / bsize) (off / bsize + 4)).card + 1 :=
        Nat.add_le_add_right Finset.card_image_le 1
    _ = 5 := by simp

/-- With a free map of one block, a piece logs the inode, the free map, the indirect block and
four blocks of data at most. -/
theorem Grows.card_logged {off n : ℕ} (h : Grows L ip s s' (touched off n))
    (hsize : L.sb.size ≤ bpb) (hn : n ≤ filewriteMax) :
    ∃ l : List ℕ, s'.calls = l.map LogCall.logWrite ++ s.calls ∧
      l.toFinset.card ≤ maxOpBlocks := by
  obtain ⟨l, hcalls, hl⟩ := h.calls
  refine ⟨l, hcalls, ?_⟩
  have hsubset : l.toFinset ⊆ {L.sb.iblock (s.icache ip).inum, L.sb.bmapstart} ∪
      (touched off n).image (slotAt L s' ip) := by
    intro b hb
    simp only [Finset.mem_union, Finset.mem_insert, Finset.mem_singleton, Finset.mem_image]
    obtain hinode | ⟨b', hdata, hmap⟩ | ⟨p, hp, hpb, -⟩ := hl b (List.mem_toFinset.mp hb)
    · exact .inl (.inl hinode)
    · have hlt : b' < bpb := hdata.2.trans_le hsize
      have hzero : b' / bpb = 0 := Nat.div_eq_of_lt hlt
      rw [Superblock.bblock, hzero, Nat.zero_add] at hmap
      exact .inl (.inr hmap)
    · exact .inr ⟨p, hp, hpb⟩
  calc l.toFinset.card
      ≤ ({L.sb.iblock (s.icache ip).inum, L.sb.bmapstart} : Finset ℕ).card +
          ((touched off n).image (slotAt L s' ip)).card :=
        (Finset.card_le_card hsubset).trans (Finset.card_union_le _ _)
    _ ≤ 2 + 5 := Nat.add_le_add Finset.card_le_two
        (Finset.card_image_le.trans (card_touched_le hn))
    _ ≤ maxOpBlocks := by decide

/-- A pointer to a locked and valid inode that is a regular file or a directory of the bytes
`c`. -/
structure Held (L : Layout) (s : State) (file : ℕ → Dinode) (ip : InodePtr)
    (c : List UInt8) : Prop where
  /-- The owners of the blocks and the cache. -/
  base : Base L s file
  /-- The inode is valid. -/
  live : Live s ip
  /-- The lock is held. -/
  locked : (s.icache ip).locked = true
  /-- The inode is not that of a device. -/
  notDev : (file (s.icache ip).inum).type ≠ tDev
  /-- Its bytes. -/
  represents : Represents L s file (s.icache ip).inum c

/-- A step that changes at most the entry of one inode in the cache. -/
structure EntryStep (ip : InodePtr) (s s' : State) : Prop where
  /-- The blocks. -/
  disk : s'.disk = s.disk
  /-- The calls of the log. -/
  calls : s'.calls = s.calls
  /-- The inode number. -/
  inum : (s'.icache ip).inum = (s.icache ip).inum

theorem EntryStep.enoughFor (h : EntryStep ip s s') :
    EnoughFor L s' file (s'.icache ip).inum places ↔
      EnoughFor L s file (s.icache ip).inum places := by
  rw [h.inum, EnoughFor, EnoughFor, freeBlocks, freeBlocks, h.disk]

/-- Taking the lock of an inode. -/
theorem Ready.lock (h : Ready L s file ip c) :
    ∃ s', ilock ip s = .ok ((), s') ∧ Held L s' file ip c ∧ EntryStep ip s s' := by
  refine ⟨_, ilock_run h.base h.ref h.unlocked h.alloc h.represents.synced, ?_⟩
  generalize hs' : setEntry s ip (lockedInode (s.icache ip) (file (s.icache ip).inum)) = s'
  have hself : s'.icache ip = lockedInode (s.icache ip) (file (s.icache ip).inum) := by
    rw [← hs']
    exact Function.update_self ..
  have hother {q : InodePtr} (hq : q ≠ ip) : s'.icache q = s.icache q := by
    rw [← hs']
    exact Function.update_of_ne hq ..
  have hdisk : s'.disk = s.disk := by rw [← hs']; rfl
  have hinum : (s'.icache ip).inum = (s.icache ip).inum := by rw [hself]; rfl
  have hbase : Base L s' file := by
    refine h.base.recache (by rw [← hs']; rfl) hdisk fun q hq => ?_
    by_cases hqi : q = ip
    · subst hqi
      rw [hself] at hq ⊢
      exact ⟨h.ref, rfl, fun _ => ⟨rfl, h.alloc⟩⟩
    · rw [hother hqi] at hq ⊢
      exact ⟨hq, rfl, fun hvalid => ⟨h.base.din q hq hvalid, h.base.alloc q hq hvalid⟩⟩
  refine ⟨⟨hbase, ⟨?_, ?_⟩, ?_, ?_, ?_⟩, hdisk, by rw [← hs']; rfl, hinum⟩
  · rw [hself]
    exact h.ref
  · rw [hself]
    rfl
  · rw [hself]
    rfl
  · rw [hinum]
    exact h.notDev
  · rw [hinum]
    exact h.represents.of_disk hdisk

/-- Giving the lock of an inode back. -/
theorem Held.unlock (h : Held L s file ip c) :
    ∃ s', iunlock ip s = .ok ((), s') ∧ Ready L s' file ip c ∧ EntryStep ip s s' := by
  refine ⟨_, iunlock_run h.live.ref h.locked, ?_⟩
  generalize hs' : setEntry s ip { s.icache ip with locked := false } = s'
  have hself : s'.icache ip = { s.icache ip with locked := false } := by
    rw [← hs']
    exact Function.update_self ..
  have hother {q : InodePtr} (hq : q ≠ ip) : s'.icache q = s.icache q := by
    rw [← hs']
    exact Function.update_of_ne hq ..
  have hdisk : s'.disk = s.disk := by rw [← hs']; rfl
  have hinum : (s'.icache ip).inum = (s.icache ip).inum := by rw [hself]
  have halloc := h.base.alloc ip h.live.ref h.live.valid
  have hbase : Base L s' file := by
    refine h.base.recache (by rw [← hs']; rfl) hdisk fun q hq => ?_
    by_cases hqi : q = ip
    · subst hqi
      rw [hself]
      exact ⟨h.live.ref, rfl, fun _ => ⟨h.base.din _ h.live.ref h.live.valid, halloc⟩⟩
    · rw [hother hqi] at hq ⊢
      exact ⟨hq, rfl, fun hvalid => ⟨h.base.din q hq hvalid, h.base.alloc q hq hvalid⟩⟩
  refine ⟨⟨hbase, ?_, ?_, ?_, ?_, ?_⟩, hdisk, by rw [← hs']; rfl, hinum⟩
  · rw [hself]
    exact h.live.ref
  · rw [hself]
  · rw [hinum]
    exact halloc
  · rw [hinum]
    exact h.notDev
  · rw [hinum]
    exact h.represents.of_disk hdisk

/-- `writei` into an inode whose lock is held. -/
theorem Held.writei_spec (h : Held L s file ip c) {off n : ℕ} (hfits : Writable c off n)
    (henough : EnoughFor L s file (s.icache ip).inum places)
    (hplaces : 0 < n → ∀ bn, off / bsize ≤ bn → bn * bsize < off + n → Covers places bn)
    (src : Bytes) :
    wp (writei ip src off n) (fun r s' => r = n ∧
      (∃ file', Held L s' file' ip (splice c off (firstBytes src n)) ∧
        EnoughFor L s' file' (s.icache ip).inum places ∧
        ∀ j ≠ (s.icache ip).inum, Keeps L s s' file file' j) ∧
      (s'.icache ip).inum = (s.icache ip).inum ∧
      (L.sb.size ≤ bpb → n ≤ filewriteMax → ∃ l : List ℕ,
        s'.calls = l.map LogCall.logWrite ++ s.calls ∧ l.toFinset.card ≤ maxOpBlocks))
      (fun _ => False) s := by
  obtain ⟨hbase, hlive, hlock, hdev, hc⟩ := h
  have henough' : Enough L s ip places := (hbase.enough_iff hlive).mpr henough
  have hspec := wp_and (wp_and (writei_grows hbase hlive hdev hc src hfits hplaces)
    (writei_grows hbase hlive hdev hc src hfits fun hn _ => covers_touched hn))
    (writei_wrote hbase hlive hdev hc src hfits)
  refine wp_weaken hspec ?_ fun halt hfail => hfail.1.1.2 henough'
  rintro r s' ⟨⟨hgrows, hlogged⟩, rfl, file', hwrote⟩
  have hfields := setDin_fields s ip (file' (s.icache ip).inum) ip
  rw [← hwrote.cache] at hfields
  obtain ⟨hinum, href, hvalid, hlock'⟩ := hfields
  have hlive' : Live s' ip := by
    constructor
    · rw [href]
      exact hlive.ref
    · rw [hvalid]
      exact hlive.valid
  refine ⟨rfl, ⟨file', ⟨hwrote.base, hlive', hlock'.trans hlock, ?_, ?_⟩, ?_, hwrote.keeps⟩,
    hinum, fun hsize hn => hlogged.card_logged hsize hn⟩
  · rw [hinum, hwrote.type]
    exact hdev
  · rw [hinum]
    exact hwrote.represents
  · rw [← hinum]
    exact (hwrote.base.enough_iff hlive').mp (hgrows.enough henough')

/-- What `filewrite` does under the lock of the inode: the bytes are written at the offset, and
the offset moves behind them. -/
theorem filewriteLocked_spec {f : File} {n1 : ℕ} (h : Ready L s file f.ip c)
    (hfits : Writable c f.off n1) (henough : EnoughFor L s file (s.icache f.ip).inum places)
    (hplaces : 0 < n1 → ∀ bn, f.off / bsize ≤ bn → bn * bsize < f.off + n1 → Covers places bn)
    (src : Bytes) :
    wp (filewriteLocked f src n1) (fun r s' => r = ((n1 : ℤ), { f with off := f.off + n1 }) ∧
      (∃ file', Piece L f.ip s s' file file' (splice c f.off (firstBytes src n1)) places) ∧
      (L.sb.size ≤ bpb → n1 ≤ filewriteMax → ∃ l : List ℕ,
        s'.calls = l.map LogCall.logWrite ++ s.calls ∧ l.toFinset.card ≤ maxOpBlocks))
      (fun _ => False) s := by
  obtain ⟨s₁, hlock, hheld₁, hstep₁⟩ := h.lock
  have henough₁ := hstep₁.enoughFor.mpr henough
  unfold filewriteLocked filewriteAt
  rw [wp_bind]
  apply wp_of_ok hlock
  simp only [wp_bind]
  refine wp_mono (hheld₁.writei_spec hfits henough₁ hplaces src) ?_
  rintro r s₂ ⟨rfl, ⟨file₂, hheld₂, henough₂, hkeeps⟩, hinum₂, hlogged⟩
  have hres : wp (if (0 : ℤ) < (n1 : ℤ) then
      pure ((n1 : ℤ), { f with off := (f.off + (n1 : ℤ).toNat) % 2 ^ 32 })
    else pure ((n1 : ℤ), f) : FsM (ℤ × File)) (fun r s' =>
      r = ((n1 : ℤ), { f with off := f.off + n1 }) ∧ s' = s₂) (fun _ => False) s₂ := by
    split_ifs with hpos
    · have hbound : maxFile * bsize < 2 ^ 32 := by decide
      have hmod : (f.off + n1) % 2 ^ 32 = f.off + n1 :=
        Nat.mod_eq_of_lt (by have := hfits.2; omega)
      rw [wp_pure, Int.toNat_natCast, hmod]
      exact ⟨rfl, rfl⟩
    · obtain rfl : n1 = 0 := by omega
      exact ⟨rfl, rfl⟩
  refine wp_mono hres ?_
  rintro _ s' ⟨rfl, hs'⟩
  rw [hs']
  obtain ⟨s₃, hunlock, hready₃, hstep₃⟩ := hheld₂.unlock
  apply wp_of_ok hunlock
  have hinum₃ : (s₃.icache f.ip).inum = (s.icache f.ip).inum :=
    hstep₃.inum.trans (hinum₂.trans hstep₁.inum)
  refine ⟨rfl, ⟨file₂, hready₃, hinum₃, fun _ => ?_, fun j hj => ?_⟩, fun hsize hn => ?_⟩
  · rw [← hinum₃, hstep₃.enoughFor, hinum₂]
    exact henough₂
  · rw [← hstep₁.inum] at hj
    exact ((Keeps.of_disk hstep₁.disk j).trans (hkeeps j hj)).trans (.of_disk hstep₃.disk j)
  · obtain ⟨l, hcalls, hcard⟩ := hlogged hsize hn
    refine ⟨l, ?_, hcard⟩
    rw [hstep₃.calls, hcalls, hstep₁.calls]

/-- The calls of an operation that has logged the blocks of a list, the last one first. -/
def opCalls (l : List ℕ) : List LogCall := .endOp :: (l.map .logWrite ++ [.beginOp])

/-- The log does not matter to an inode. -/
theorem Ready.of_same (h : Ready L s file ip c) (hsb : s'.sb = s.sb) (hdisk : s'.disk = s.disk)
    (hcache : s'.icache = s.icache) : Ready L s' file ip c := by
  obtain ⟨hbase, href, hunlocked, halloc, hdev, hc⟩ := h
  have hbase' : Base L s' file := by
    refine hbase.recache hsb hdisk fun q hq => ?_
    rw [hcache] at hq ⊢
    exact ⟨hq, rfl, fun hvalid => ⟨hbase.din q hq hvalid, hbase.alloc q hq hvalid⟩⟩
  rw [← hcache] at href hunlocked halloc hdev hc
  exact ⟨hbase', href, hunlocked, halloc, hdev, hc.of_disk hdisk⟩

/-- `filewrite`, one transaction. -/
theorem filewriteChunk_spec {f : File} {n1 : ℕ} (h : Ready L s file f.ip c)
    (hfits : Writable c f.off n1) (henough : EnoughFor L s file (s.icache f.ip).inum places)
    (hplaces : 0 < n1 → ∀ bn, f.off / bsize ≤ bn → bn * bsize < f.off + n1 → Covers places bn)
    (src : Bytes) (hsize : L.sb.size ≤ bpb) (hn : n1 ≤ filewriteMax) :
    wp (filewriteChunk f src n1) (fun r s' => r = ((n1 : ℤ), { f with off := f.off + n1 }) ∧
      (∃ file', Piece L f.ip s s' file file' (splice c f.off (firstBytes src n1)) places) ∧
      ∃ l : List ℕ, s'.calls = opCalls l ++ s.calls ∧ l.toFinset.card ≤ maxOpBlocks)
      (fun _ => False) s := by
  unfold filewriteChunk beginOp endOp
  simp only [wp_bind, wp_modify, wp_pure]
  generalize hs₁ : ({ s with calls := .beginOp :: s.calls } : State) = s₁
  have hdisk₁ : s₁.disk = s.disk := by rw [← hs₁]
  have hcache₁ : s₁.icache = s.icache := by rw [← hs₁]
  have hready₁ : Ready L s₁ file f.ip c := h.of_same (by rw [← hs₁]) hdisk₁ hcache₁
  have henough₁ : EnoughFor L s₁ file (s₁.icache f.ip).inum places := by
    rw [hcache₁, EnoughFor, freeBlocks, hdisk₁]
    exact henough
  refine wp_mono (filewriteLocked_spec hready₁ hfits henough₁ hplaces src) ?_
  rintro r s₂ ⟨rfl, ⟨file₂, hpiece⟩, hlogged⟩
  obtain ⟨l, hcalls, hcard⟩ := hlogged hsize hn
  refine ⟨rfl, ⟨file₂, ?_, ?_, ?_, ?_⟩, l, ?_, hcard⟩
  · exact hpiece.ready.of_same rfl rfl rfl
  · rw [← hcache₁]
    exact hpiece.inum
  · rw [← hcache₁]
    intro _
    exact hpiece.enough henough₁
  · intro j hj
    rw [← hcache₁] at hj
    have hend : Keeps L s₂ { s₂ with calls := .endOp :: s₂.calls } file₂ file₂ j := by
      apply Keeps.of_disk
      rfl
    exact (Keeps.of_disk hdisk₁ j).trans ((hpiece.keeps j hj).trans hend)
  · rw [hcalls, ← hs₁]
    simp [opCalls]

/-- Writing on behind the bytes that have been written. -/
theorem splice_splice {c data data' : List UInt8} {off : ℕ} (hoff : off ≤ c.length) :
    splice (splice c off data) (off + data.length) data' = splice c off (data ++ data') := by
  have hlen : (c.take off ++ data).length = off + data.length := by
    rw [List.length_append, List.length_take, Nat.min_eq_left hoff]
  have htake : (splice c off data).take (off + data.length) = c.take off ++ data := by
    rw [splice, ← hlen, List.take_left]
  have hdrop : (splice c off data).drop (off + data.length + data'.length) =
      c.drop (off + (data ++ data').length) := by
    rw [splice, ← hlen, List.drop_length_add_append, List.drop_drop]
    congr 1
    simp only [List.length_append, List.length_take]
    omega
  rw [splice, htake, hdrop, splice, ← List.append_assoc]

theorem firstBytes_add (src : Bytes) (n m : ℕ) :
    firstBytes src (n + m) = firstBytes src n ++ firstBytes (fun k => src (n + k)) m := by
  rw [firstBytes, firstBytes, firstBytes, List.range_add, List.map_append, List.map_map]
  rfl

/-- The loop of `filewrite` writes the bytes that are left, in transactions that fit the
log. -/
theorem filewriteLoop_spec {f : File} {i n fuel : ℕ} (h : Ready L s file f.ip c) (hi : i ≤ n)
    (hfuel : n - i ≤ fuel) (hfits : Writable c f.off (n - i))
    (henough : EnoughFor L s file (s.icache f.ip).inum places)
    (hplaces : i < n → ∀ bn, f.off / bsize ≤ bn → bn * bsize < f.off + (n - i) →
      Covers places bn) (src : Bytes) (hsize : L.sb.size ≤ bpb) :
    wp (filewriteLoop src n fuel i f) (fun r s' => r = (n, { f with off := f.off + (n - i) }) ∧
      (∃ file', Piece L f.ip s s' file file'
        (splice c f.off (firstBytes (fun k => src (i + k)) (n - i))) places) ∧
      ∃ ops : List (List ℕ), s'.calls = (ops.map opCalls).flatten ++ s.calls ∧
        ∀ l ∈ ops, l.toFinset.card ≤ maxOpBlocks) (fun _ => False) s := by
  have hdone (heq : n - i = 0) :
      splice c f.off (firstBytes (fun k => src (i + k)) (n - i)) = c := by
    rw [heq]
    simp [splice, firstBytes]
  induction fuel generalizing s file f c i with
  | zero =>
    have heq : n - i = 0 := by omega
    rw [hdone heq, heq, filewriteLoop, wp_pure]
    refine ⟨by rw [Nat.le_antisymm hi (by omega)]; rfl, ⟨file, .refl h⟩, [], rfl, by simp⟩
  | succ fuel ih =>
    rw [filewriteLoop]
    by_cases hlt : i < n
    · rw [if_pos hlt]
      generalize hn1 : (if n - i > filewriteMax then filewriteMax else n - i) = n1
      have hmax : 0 < filewriteMax := by decide
      have hle : n1 ≤ filewriteMax ∧ n1 ≤ n - i ∧ 0 < n1 := by
        rw [← hn1]
        split_ifs <;> omega
      obtain ⟨hlog, hrest, hpos⟩ := hle
      obtain ⟨hoff, hend⟩ := hfits
      dsimp only
      rw [wp_bind]
      refine wp_weaken (filewriteChunk_spec h ⟨hoff, by omega⟩ henough
        (fun _ bn hlo hhi => hplaces hlt bn hlo (by omega)) (fun k => src (i + k)) hsize hlog)
        ?_ fun _ hfail => hfail
      rintro r s₁ ⟨rfl, ⟨file₁, hpiece⟩, l, hcalls, hcard⟩
      dsimp only
      rw [if_neg (by omega), wp_bind, wp_panicIf]
      refine ⟨fun hne => absurd rfl hne, fun _ => ?_⟩
      have hsplit : n - i = n1 + (n - (i + n1)) := by omega
      have hlength := length_splice (firstBytes (fun k => src (i + k)) n1) hoff
      rw [length_firstBytes] at hlength
      have hdiv : f.off / bsize ≤ (f.off + n1) / bsize := Nat.div_le_div_right (by omega)
      have hinum := hpiece.inum
      refine wp_mono (ih (f := { f with off := f.off + n1 }) hpiece.ready (by omega) (by omega)
        ⟨by dsimp only; omega, by dsimp only; omega⟩ (by rw [hinum]; exact hpiece.enough henough)
        (fun hlt' bn hlo hhi => hplaces hlt bn (hdiv.trans hlo) (by dsimp only at hhi; omega))
        fun heq => by rw [heq]; simp [splice, firstBytes]) ?_
      rintro r s₂ ⟨rfl, ⟨file₂, hpiece₂⟩, ops, hops, hcards⟩
      dsimp only at hpiece₂
      refine ⟨?_, ⟨file₂, ?_⟩, ops ++ [l], ?_, fun l' hl' => ?_⟩
      · dsimp only
        rw [hsplit, Nat.add_assoc]
      · have hbytes := @splice_splice c (firstBytes (fun k => src (i + k)) n1)
          (firstBytes (fun k => src (i + n1 + k)) (n - (i + n1))) _ hoff
        rw [length_firstBytes] at hbytes
        rw [hbytes] at hpiece₂
        rw [hsplit, firstBytes_add]
        simp only [← Nat.add_assoc]
        exact hpiece.trans hpiece₂
      · rw [hops, hcalls]
        simp
      · rcases List.mem_append.mp hl' with hl' | hl'
        · exact hcards l' hl'
        · rwa [List.mem_singleton.mp hl']
    · have heq : n - i = 0 := by omega
      rw [if_neg hlt, hdone heq, heq, wp_pure]
      refine ⟨by rw [Nat.le_antisymm hi (by omega)]; rfl, ⟨file, .refl h⟩, [], rfl, by simp⟩

/-- `filewrite` of a range that the file can hold, with enough free blocks and a free map of one
block: every transaction logs at most `MAXOPBLOCKS` blocks, and the call returns `n` and leaves
the bytes and the offset as one `writei` of all `n` bytes does. -/
theorem filewrite_transactions (f : File) (h : Ready L s file f.ip c)
    (htype : f.type = .inode) (hwritable : f.writable = true) {n : ℕ}
    (hfits : Writable c f.off n)
    (henough : EnoughFor L s file (s.icache f.ip).inum (touched f.off n))
    (hsize : L.sb.size ≤ bpb) (pipewrite : Bytes → ℕ → FsM ℤ) (src : Bytes) :
    (∃ s' file', ∃ ops : List (List ℕ), filewrite pipewrite f src n s =
        .ok ((n, { f with off := f.off + n }), s') ∧
      s'.calls = (ops.map opCalls).flatten ++ s.calls ∧
      (∀ l ∈ ops, l.toFinset.card ≤ maxOpBlocks) ∧
      Ready L s' file' f.ip (splice c f.off (firstBytes src n)) ∧
      ∀ j ≠ (s.icache f.ip).inum, ∀ c', Represents L s file j c' →
        Represents L s' file' j c') ∧
    ∃ s' file', filewriteLocked f src n s = .ok ((n, { f with off := f.off + n }), s') ∧
      Ready L s' file' f.ip (splice c f.off (firstBytes src n)) := by
  have hplaces (hn : 0 < n) (bn : ℕ) (hlo : f.off / bsize ≤ bn) (hhi : bn * bsize < f.off + n) :
      Covers (touched f.off n) bn := covers_touched hn hlo hhi
  constructor
  · have hloop := filewriteLoop_spec (i := 0) h (Nat.zero_le n) le_rfl hfits henough hplaces src
      hsize
    simp only [Nat.sub_zero, Nat.zero_add] at hloop
    have hspec : wp (filewrite pipewrite f src n) (fun r s' =>
        r = ((n : ℤ), { f with off := f.off + n }) ∧
        (∃ file', Piece L f.ip s s' file file' (splice c f.off (firstBytes src n))
          (touched f.off n)) ∧
        ∃ ops : List (List ℕ), s'.calls = (ops.map opCalls).flatten ++ s.calls ∧
          ∀ l ∈ ops, l.toFinset.card ≤ maxOpBlocks) (fun _ => False) s := by
      obtain ⟨type, writable, ip, off⟩ := f
      obtain rfl : type = .inode := htype
      obtain rfl : writable = true := hwritable
      unfold filewrite
      rw [if_neg (by simp), wp_bind]
      refine wp_mono hloop ?_
      rintro r s' ⟨rfl, hpiece, hops⟩
      dsimp only
      rw [if_pos rfl]
      exact ⟨rfl, hpiece, hops⟩
    obtain ⟨r, s', hrun, rfl, ⟨file', hpiece⟩, ops, hops, hcards⟩ := exists_ok hspec
    exact ⟨s', file', ops, hrun, hops, hcards, hpiece.ready,
      fun j hj c' hc' => hc'.keep (hpiece.keeps j hj)⟩
  · obtain ⟨r, s', hrun, rfl, ⟨file', hpiece⟩, -⟩ :=
      exists_ok (filewriteLocked_spec h hfits henough hplaces src)
    exact ⟨s', file', hrun, hpiece.ready⟩

/-- A file of the small disk, just created. -/
def smallCreated : Except Halt (InodePtr × State) :=
  ialloc tFile (boot smallDisk fun _ => ⟨none, none⟩)

theorem smallCreated_spec : ∃ s file ip, smallCreated = .ok (ip, s) ∧
    Ready smallLayout s file ip [] ∧ (s.icache ip).inum = 1 ∧
    file 1 = (smallLayout.view s.disk).dinode 1 := by
  have hinv := inv_boot smallDisk_image fun _ => ⟨none, none⟩
  have hexec : (smallCreated.toOption.map fun r => ((r.2.icache r.1).inum,
      decide (0 < (r.2.icache r.1).ref), (r.2.icache r.1).locked,
      ((smallLayout.view r.2.disk).dinode 1).type, ((smallLayout.view r.2.disk).dinode 1).size)) =
      some (1, true, false, tFile, 0) := by decide +kernel
  have hspec : wp (ialloc tFile) (fun _ s' => ∃ file, Inv smallLayout s' file) NotFreeing
      (boot smallDisk fun _ => ⟨none, none⟩) := by
    refine wp_mono (ialloc_spec hinv (by decide)) ?_
    rintro _ s' ⟨file, hinv', -⟩
    exact ⟨file, hinv'⟩
  cases hrun : smallCreated with
  | error halt => simp [hrun, Except.toOption] at hexec
  | ok r =>
    obtain ⟨ip, s⟩ := r
    obtain ⟨file, hinv'⟩ := wp_ok hspec hrun
    simp only [hrun, Except.toOption, Option.map_some, Option.some.injEq, Prod.mk.injEq] at hexec
    obtain ⟨hinum, href, hlock, htype, hsize⟩ := hexec
    have hsynced := (hinv'.files 1).synced
    rw [hsynced] at htype hsize
    refine ⟨s, file, ip, rfl, ⟨hinv'.base, by simpa using href, hlock, ?_, ?_, ?_⟩, hinum,
      hsynced.symm⟩
    · rw [hinum, htype]
      decide
    · rw [hinum, htype]
      decide
    · rw [hinum]
      refine ⟨hsynced, fun bn hbn => ?_, ?_⟩
      · rw [hsize] at hbn
        exact absurd hbn (Nat.not_lt_zero _)
      · rw [hsize]
        rfl

theorem filewrite_transactions_small : ∃ s s' ip, smallCreated = .ok (ip, s) ∧
    filewrite (fun _ _ => pure 0) ⟨.inode, true, ip, 0⟩ (fun _ => 7) 2000 s =
      .ok ((2000, ⟨.inode, true, ip, 2000⟩), s') := by
  obtain ⟨s, file, ip, hrun, hready, hinum, hfile⟩ := smallCreated_spec
  have hfree : (smallCreated.toOption.map fun r => decide
      ((touched 0 2000).card ≤ (freeBlocks smallLayout r.2).card)) = some true := by
    decide +kernel
  rw [hrun] at hfree
  have henough : EnoughFor smallLayout s file (s.icache ip).inum (touched 0 2000) := by
    have hle : (touched 0 2000).card ≤ (freeBlocks smallLayout s).card := by
      simpa [Except.toOption] using hfree
    exact (Finset.card_filter_le _ _).trans hle
  obtain ⟨⟨s', -, -, hwrite, -⟩, -⟩ := filewrite_transactions ⟨.inode, true, ip, 0⟩ hready rfl rfl
    (n := 2000) (show Writable [] 0 2000 by decide) henough (by decide) (fun _ _ => pure 0)
    fun _ => 7
  exact ⟨s, s', ip, hrun, hwrite⟩

end Xv6.Fs
