import Xv6.BlockMap

/-!
# What the functions on inodes keep

One rule for every function of `fs.c`: the owners of the blocks, the inode cache and the
inodes that are not being changed. A function that fails does not fail by freeing a free
block.
-/

namespace Xv6.Fs

open LittleEndian StateProg

section Primitives

variable {α : Type} {fail : Halt → Prop} {s : State}

@[simp] theorem wp_panicIf (c : Prop) [Decidable c] (halt : Halt) {post : Unit → State → Prop} :
    wp (panicIf c halt) post fail s = ((c → fail halt) ∧ (¬ c → post () s)) := by
  unfold panicIf
  split_ifs with hc <;> simp [hc]

@[simp] theorem wp_bread (b : ℕ) {post : Bytes → State → Prop} :
    wp (bread b) post fail s = post (s.disk b) s := by
  simp [bread]

@[simp] theorem wp_logWrite (b : ℕ) (data : Bytes) {post : Unit → State → Prop} :
    wp (logWrite b data) post fail s =
      post () { s with
        disk := Function.update s.disk b data
        calls := .logWrite b :: s.calls } := by
  simp [logWrite]

@[simp] theorem wp_inode (ip : InodePtr) {post : Inode → State → Prop} :
    wp (inode ip) post fail s = post (s.icache ip) s := by
  simp [inode]

@[simp] theorem wp_setInode (ip : InodePtr) (f : Inode → Inode) {post : Unit → State → Prop} :
    wp (setInode ip f) post fail s =
      post () { s with icache := Function.update s.icache ip (f (s.icache ip)) } := by
  simp [setInode]

end Primitives

/-- The failures that are not the panic of `bfree`. -/
def NotFreeing (halt : Halt) : Prop := halt ≠ .freeingFreeBlock

instance (halt : Halt) : Decidable (NotFreeing halt) := inferInstanceAs (Decidable (_ ≠ _))

variable (L : Layout)

/-- What holds also while an inode is being changed: the inodes that count are `file`, the
cached ones where the cache is valid. -/
structure Base (s : State) (file : ℕ → Dinode) : Prop where
  /-- The superblock in memory. -/
  sb : s.sb = L.sb
  /-- The superblock on the disk. -/
  superblock : getSuperblock (s.disk 1) = L.sb
  /-- Cached inodes are in use. -/
  table : ∀ ip, 0 < (s.icache ip).ref → L.InTable (s.icache ip).inum
  /-- An inode is cached once. -/
  inj : ∀ ip ip', 0 < (s.icache ip).ref → 0 < (s.icache ip').ref →
    (s.icache ip).inum = (s.icache ip').inum → ip = ip'
  /-- A valid copy is the inode that counts. -/
  din : ∀ ip, 0 < (s.icache ip).ref → (s.icache ip).valid = true →
    (s.icache ip).din = file (s.icache ip).inum
  /-- A valid copy is of an allocated inode. -/
  alloc : ∀ ip, 0 < (s.icache ip).ref → (s.icache ip).valid = true →
    (file (s.icache ip).inum).type ≠ 0
  /-- The metadata blocks are marked as used. -/
  reserved : ∀ b < L.dataStart, (L.view s.disk).bit b = true
  /-- The data blocks have one owner. -/
  owned : OneOwner (addrMap file (L.view s.disk).block) (L.view s.disk).bit L.IsData

/-- A byte of a file. -/
def fileByte (file : ℕ → Dinode) (block : ℕ → Bytes) (i off : ℕ) : UInt8 :=
  block (fileBlock file block i (off / bsize)) (off % bsize)

/-- What holds of an inode that is not being changed. -/
structure FileOk (s : State) (file : ℕ → Dinode) (i : ℕ) : Prop where
  /-- It is on the disk as it counts. -/
  synced : (L.view s.disk).dinode i = file i
  /-- Every block below its size is allocated. -/
  covered : (file i).type ≠ 0 → ∀ bn, bn * bsize < (file i).size.toNat →
    fileBlock file (L.view s.disk).block i bn ≠ 0
  /-- The entries of a directory name inodes in use. -/
  entries : (file i).type = tDir → ∀ off, sizeofDirent ∣ off →
    off + sizeofDirent ≤ (file i).size.toNat →
    get (fun k => fileByte file (L.view s.disk).block i (off + k)) 0 2 < L.nino

/-- The invariant between the functions of `fs.c`. -/
structure Inv (s : State) (file : ℕ → Dinode) : Prop where
  /-- The owners of the blocks and the cache. -/
  base : Base L s file
  /-- All inodes. -/
  files : ∀ i, FileOk L s file i

/-- Nothing about this inode changes. -/
structure Keeps (s s' : State) (file file' : ℕ → Dinode) (i : ℕ) : Prop where
  /-- The inode that counts. -/
  same : file' i = file i
  /-- The inode on the disk. -/
  dinode : (L.view s'.disk).dinode i = (L.view s.disk).dinode i
  /-- Its block addresses. -/
  addr : ∀ p, addrMap file' (L.view s'.disk).block (i, p) =
    addrMap file (L.view s.disk).block (i, p)
  /-- The contents of its blocks. -/
  content : ∀ p, addrMap file (L.view s.disk).block (i, p) ≠ 0 →
    (L.view s'.disk).block (addrMap file (L.view s.disk).block (i, p)) =
      (L.view s.disk).block (addrMap file (L.view s.disk).block (i, p))

variable {L} {s s' s'' : State} {file file' file'' : ℕ → Dinode} {i : ℕ}

theorem Keeps.refl : Keeps L s s file file i := ⟨rfl, rfl, fun _ => rfl, fun _ _ => rfl⟩

theorem Keeps.trans (h : Keeps L s s' file file' i) (h' : Keeps L s' s'' file' file'' i) :
    Keeps L s s'' file file'' i where
  same := h'.same.trans h.same
  dinode := h'.dinode.trans h.dinode
  addr p := (h'.addr p).trans (h.addr p)
  content p hp := by
    have hcontent := h'.content p (by rwa [h.addr p])
    rw [h.addr p] at hcontent
    exact hcontent.trans (h.content p hp)

theorem Keeps.fileBlock_eq (h : Keeps L s s' file file' i) (bn : ℕ) :
    fileBlock file' (L.view s'.disk).block i bn =
      fileBlock file (L.view s.disk).block i bn := by
  unfold fileBlock
  split_ifs
  · exact h.addr _
  · rfl

theorem Keeps.fileByte_eq (h : Keeps L s s' file file' i) {off : ℕ}
    (hblock : fileBlock file (L.view s.disk).block i (off / bsize) ≠ 0) :
    fileByte file' (L.view s'.disk).block i off = fileByte file (L.view s.disk).block i off := by
  unfold fileByte
  rw [h.fileBlock_eq]
  unfold fileBlock at hblock ⊢
  split_ifs at hblock ⊢
  · rw [h.content _ hblock]
  · exact absurd rfl hblock

/-- The number of an entry does not change with bytes behind it or in other entries. -/
theorem get_fileByte_congr {block block' : ℕ → Bytes} {off : ℕ}
    (heq : ∀ k < 2, fileByte file' block' i (off + k) = fileByte file block i (off + k)) :
    get (fun k => fileByte file' block' i (off + k)) 0 2 =
      get (fun k => fileByte file block i (off + k)) 0 2 := by
  apply get_congr
  intro k hk
  rw [Nat.zero_add]
  exact heq k hk

/-- An inode that nothing touches stays in order. -/
theorem FileOk.keep (h : FileOk L s file i) (hkeep : Keeps L s s' file file' i) :
    FileOk L s' file' i where
  synced := by rw [hkeep.dinode, h.synced, hkeep.same]
  covered htype bn hbn := by
    rw [hkeep.same] at htype hbn
    rw [hkeep.fileBlock_eq]
    exact h.covered htype bn hbn
  entries htype off hdvd hoff := by
    rw [hkeep.same] at htype hoff
    have hne : (file i).type ≠ 0 := by rw [htype]; decide
    rw [get_fileByte_congr fun k hk => hkeep.fileByte_eq (h.covered hne _ ?_)]
    · exact h.entries htype off hdvd hoff
    · have hle := Nat.div_mul_le_self (off + k) bsize
      unfold sizeofDirent at hoff
      omega

/-- A pointer to a valid cached inode. -/
structure Live (s : State) (ip : InodePtr) : Prop where
  /-- A reference is held. -/
  ref : 0 < (s.icache ip).ref
  /-- The inode has been read. -/
  valid : (s.icache ip).valid = true

variable {ip : InodePtr}

/-- The cache after the change of the disk fields of one inode. -/
def setDin (s : State) (ip : InodePtr) (din : Dinode) : InodePtr → Inode :=
  Function.update s.icache ip { s.icache ip with din }

theorem setDin_self (s : State) (ip : InodePtr) : setDin s ip (s.icache ip).din = s.icache :=
  Function.update_eq_self ip s.icache

theorem setDin_fields (s : State) (ip : InodePtr) (din : Dinode) (q : InodePtr) :
    (setDin s ip din q).inum = (s.icache q).inum ∧ (setDin s ip din q).ref = (s.icache q).ref ∧
      (setDin s ip din q).valid = (s.icache q).valid ∧
      (setDin s ip din q).locked = (s.icache q).locked := by
  unfold setDin
  by_cases hq : q = ip
  · subst hq
    simp
  · simp [Function.update_of_ne hq]

/-- A change of the disk fields of one valid inode and of the free map and data blocks. -/
theorem Base.change (h : Base L s file) (hip : Live s ip)
    (hsb : s'.sb = s.sb) (hone : s'.disk 1 = s.disk 1)
    (hcache : s'.icache = setDin s ip (file' (s.icache ip).inum))
    (hother : ∀ j ≠ (s.icache ip).inum, file' j = file j)
    (htype : (file' (s.icache ip).inum).type ≠ 0)
    (hreserved : ∀ b < L.dataStart, (L.view s'.disk).bit b = true)
    (howned : OneOwner (addrMap file' (L.view s'.disk).block) (L.view s'.disk).bit L.IsData) :
    Base L s' file' := by
  have hfields := setDin_fields s ip (file' (s.icache ip).inum)
  have hfile {q : InodePtr} (hq : 0 < (s.icache q).ref) (hne : q ≠ ip) :
      file' (s.icache q).inum = file (s.icache q).inum :=
    hother _ fun heq => hne (h.inj q ip hq hip.ref heq)
  refine ⟨hsb.trans h.sb, by rw [hone, h.superblock], fun q hq => ?_, fun q q' hq hq' heq => ?_,
    fun q hq hvalid => ?_, fun q hq hvalid => ?_, hreserved, howned⟩
  · rw [hcache, (hfields q).2.1] at hq
    rw [hcache, (hfields q).1]
    exact h.table q hq
  · rw [hcache, (hfields q).2.1] at hq
    rw [hcache, (hfields q').2.1] at hq'
    rw [hcache, (hfields q).1, (hfields q').1] at heq
    exact h.inj q q' hq hq' heq
  · rw [hcache, (hfields q).2.1] at hq
    rw [hcache, (hfields q).2.2.1] at hvalid
    rw [hcache, (hfields q).1]
    by_cases hqi : q = ip
    · subst hqi
      simp [setDin]
    · rw [hfile hq hqi]
      simpa [setDin, Function.update_of_ne hqi] using h.din q hq hvalid
  · rw [hcache, (hfields q).2.1] at hq
    rw [hcache, (hfields q).2.2.1] at hvalid
    rw [hcache, (hfields q).1]
    by_cases hqi : q = ip
    · rwa [hqi]
    · rw [hfile hq hqi]
      exact h.alloc q hq hvalid

theorem Base.setDin_din (h : Base L s file) (hip : Live s ip) :
    setDin s ip (file (s.icache ip).inum) = s.icache := by
  rw [← h.din ip hip.ref hip.valid, setDin_self]

/-- A step that changes only the disk and the log, by what it does to the tables. -/
structure DiskStep (L : Layout) (s s' : State) (view : View) : Prop where
  /-- The rest of the state is as before. -/
  eq : s' = { s with disk := s'.disk, calls := s'.calls }
  /-- The tables after the step. -/
  view : L.view s'.disk = view
  /-- The block of the superblock is as before. -/
  superblock : s'.disk 1 = s.disk 1

/-- `balloc` hands out a free data block, marks it and clears it. -/
theorem balloc_spec (h : Base L s file) :
    wp balloc (fun b s' => L.IsData b ∧ (L.view s.disk).bit b = false ∧
      DiskStep L s s' { L.view s.disk with
        bit := Function.update (L.view s.disk).bit b true
        block := Function.update (L.view s.disk).block b fun _ => 0 }) NotFreeing s := by
  unfold balloc
  simp only [wp_bind, wp_get]
  cases hfind : (List.range s.sb.size).find?
      fun b => !bitSet (s.disk (s.sb.bblock b)) (b % bpb) with
  | none => simp [NotFreeing]
  | some b =>
    have hlt : b < L.sb.size := by
      rw [← h.sb]
      exact List.mem_range.mp (List.mem_of_find?_eq_some hfind)
    have hclear : bitSet (s.disk (s.sb.bblock b)) (b % bpb) = false := by
      simpa using List.find?_some hfind
    rw [h.sb] at hclear
    have hbit : (L.view s.disk).bit b = false := by simp [Layout.view, hclear]
    have hdata : L.IsData b := by
      refine ⟨?_, hlt⟩
      by_contra hmeta
      have hset := h.reserved b (by omega)
      simp [hbit] at hset
    have hbounds := Layout.bblock_bounds hlt
    simp only [wp_bind, wp_bread, wp_logWrite, bzero, wp_pure, h.sb]
    refine ⟨hdata, hbit, by rw [h.sb], ?_, ?_⟩
    · rw [Layout.view_block hdata, Layout.view_bitmap hlt (v := true)]
      intro bi
      rw [bitSet_setBit]
      by_cases hbi : bi = b % bpb <;> simp [hbi]
    · have hone := Layout.one_lt_of_isData hdata
      dsimp only
      rw [Function.update_of_ne (by omega), Function.update_of_ne (by omega)]

/-- The inode behind a pointer may have gained blocks, and bytes from `lo` to `hi` have been
written; nothing else changes. -/
structure Writes (L : Layout) (ip : InodePtr) (s s' : State) (file file' : ℕ → Dinode)
    (lo hi : ℕ) (src : Bytes) : Prop where
  /-- The cache changes in the addresses of this inode only. -/
  cache : s'.icache = setDin s ip (file' (s.icache ip).inum)
  /-- Its type. -/
  type : (file' (s.icache ip).inum).type = (file (s.icache ip).inum).type
  /-- Its size. -/
  size : (file' (s.icache ip).inum).size = (file (s.icache ip).inum).size
  /-- The other inodes. -/
  keeps : ∀ j ≠ (s.icache ip).inum, Keeps L s s' file file' j
  /-- The inode on the disk. -/
  dinode : (L.view s'.disk).dinode (s.icache ip).inum =
    (L.view s.disk).dinode (s.icache ip).inum
  /-- Blocks that the file has stay where they are. -/
  addr : ∀ bn, fileBlock file (L.view s.disk).block (s.icache ip).inum bn ≠ 0 →
    fileBlock file' (L.view s'.disk).block (s.icache ip).inum bn =
      fileBlock file (L.view s.disk).block (s.icache ip).inum bn
  /-- The bytes of such blocks. -/
  bytes : ∀ k, fileBlock file (L.view s.disk).block (s.icache ip).inum (k / bsize) ≠ 0 →
    fileByte file' (L.view s'.disk).block (s.icache ip).inum k =
      if lo ≤ k ∧ k < hi then src (k - lo)
      else fileByte file (L.view s.disk).block (s.icache ip).inum k
  /-- The bytes of new blocks. -/
  fresh : ∀ k, fileBlock file (L.view s.disk).block (s.icache ip).inum (k / bsize) = 0 →
    fileBlock file' (L.view s'.disk).block (s.icache ip).inum (k / bsize) ≠ 0 →
    fileByte file' (L.view s'.disk).block (s.icache ip).inum k =
      if lo ≤ k ∧ k < hi then src (k - lo) else 0
  /-- The written bytes are in blocks of the file. -/
  covered : ∀ k, lo ≤ k → k < hi →
    fileBlock file' (L.view s'.disk).block (s.icache ip).inum (k / bsize) ≠ 0

theorem Writes.refl (h : Base L s file) (hip : Live s ip) (lo : ℕ) (src : Bytes) :
    Writes L ip s s file file lo lo src where
  cache := (h.setDin_din hip).symm
  type := rfl
  size := rfl
  keeps _ _ := Keeps.refl
  dinode := rfl
  addr _ _ := rfl
  bytes k _ := by rw [if_neg (by omega)]
  fresh k hzero hne := absurd hzero hne
  covered k hlo hhi := absurd hhi (by omega)

theorem Writes.live {lo hi : ℕ} {src : Bytes} (h : Writes L ip s s' file file' lo hi src)
    (hip : Live s ip) : Live s' ip ∧ (s'.icache ip).inum = (s.icache ip).inum := by
  have hfields := setDin_fields s ip (file' (s.icache ip).inum) ip
  rw [← h.cache] at hfields
  exact ⟨⟨by rw [hfields.2.1]; exact hip.ref, by rw [hfields.2.2.1]; exact hip.valid⟩, hfields.1⟩

/-- Writing on behind what has been written. -/
theorem Writes.append {lo mid hi : ℕ} {src src' : Bytes} (hip : Live s ip)
    (h : Writes L ip s s' file file' lo mid src)
    (h' : Writes L ip s' s'' file' file'' mid hi src') (hlo : lo ≤ mid) (hhi : mid ≤ hi)
    (hsrc : ∀ k, src' k = src (mid - lo + k)) :
    Writes L ip s s'' file file'' lo hi src := by
  obtain ⟨-, hinum⟩ := h.live hip
  have hsrc' {k : ℕ} (hk : mid ≤ k) : src' (k - mid) = src (k - lo) := by
    rw [hsrc]
    congr 1
    omega
  have haddr := h'.addr
  have hbytes := h'.bytes
  have hfresh := h'.fresh
  rw [hinum] at haddr hbytes hfresh
  constructor
  · rw [h'.cache, hinum]
    unfold setDin
    rw [h.cache]
    simp [setDin]
  · rw [← h.type, ← hinum, h'.type]
  · rw [← h.size, ← hinum, h'.size]
  · intro j hj
    exact (h.keeps j hj).trans (h'.keeps j (by rwa [hinum]))
  · rw [← h.dinode, ← hinum, h'.dinode]
  · intro bn hbn
    have hfirst := h.addr bn hbn
    rw [haddr bn (by rwa [hfirst]), hfirst]
  · intro k hk
    have hfirst := h.addr _ hk
    rw [hbytes k (by rwa [hfirst]), h.bytes k hk]
    split_ifs <;> first | omega | rfl | exact hsrc' (by omega)
  · intro k hzero hne
    by_cases hmid : fileBlock file' (L.view s'.disk).block (s.icache ip).inum (k / bsize) = 0
    · have hout : ¬ (lo ≤ k ∧ k < mid) := fun hk => h.covered k hk.1 hk.2 hmid
      rw [hfresh k hmid hne]
      split_ifs <;> first | omega | rfl | exact hsrc' (by omega)
    · rw [hbytes k hmid, h.fresh k hzero hmid]
      split_ifs <;> first | omega | rfl | exact hsrc' (by omega)
  · intro k hklo hkhi
    by_cases hk : k < mid
    · have hfirst := h.covered k hklo hk
      rwa [haddr _ hfirst]
    · have hsecond := h'.covered k (by omega) hkhi
      rwa [hinum] at hsecond

/-- What `bmap` and its parts promise: the address is that of the place, and if there was one
already nothing changes. -/
def Mapped (L : Layout) (ip : InodePtr) (s : State) (file : ℕ → Dinode) (p : Slot) (b : ℕ)
    (s' : State) : Prop :=
  ∃ file', Base L s' file' ∧ (∀ lo src, Writes L ip s s' file file' lo lo src) ∧
    addrMap file' (L.view s'.disk).block ((s.icache ip).inum, p) = b ∧ b ≠ 0 ∧
    (addrMap file (L.view s.disk).block ((s.icache ip).inum, p) ≠ 0 → s' = s ∧ file' = file)

/-- Handing out a block for a place of an inode: the new block is empty, and of the other
blocks at most the indirect block of this inode changes. -/
theorem Mapped.assign (h : Base L s file) (hip : Live s ip) (file' : ℕ → Dinode) {p : Slot}
    {b : ℕ} (hnone : addrMap file (L.view s.disk).block ((s.icache ip).inum, p) = 0)
    (hdata : L.IsData b) (hfree : (L.view s.disk).bit b = false)
    (hsb : s'.sb = s.sb) (hone : s'.disk 1 = s.disk 1)
    (hcache : s'.icache = setDin s ip (file' (s.icache ip).inum))
    (hother : ∀ j ≠ (s.icache ip).inum, file' j = file j)
    (htype : (file' (s.icache ip).inum).type = (file (s.icache ip).inum).type)
    (hsize : (file' (s.icache ip).inum).size = (file (s.icache ip).inum).size)
    (hbit : (L.view s'.disk).bit = Function.update (L.view s.disk).bit b true)
    (hdinode : (L.view s'.disk).dinode = (L.view s.disk).dinode)
    (haddr : addrMap file' (L.view s'.disk).block =
      Function.update (addrMap file (L.view s.disk).block) ((s.icache ip).inum, p) b)
    (hblock : ∀ b', b' ≠ b → b' ≠ (file (s.icache ip).inum).addr (Fin.last ndirect) →
      (L.view s'.disk).block b' = (L.view s.disk).block b')
    (hzero : p ≠ .addr (Fin.last ndirect) → (L.view s'.disk).block b = fun _ => 0) :
    Mapped L ip s file p b s' := by
  have halloc := h.alloc ip hip.ref hip.valid
  have hfresh := h.owned.ne_of_free hdata hfree
  have hlast (q : ℕ × Slot) (hq : addrMap file (L.view s.disk).block q ≠ 0)
      (hne : q ≠ ((s.icache ip).inum, .addr (Fin.last ndirect))) :
      addrMap file (L.view s.disk).block q ≠
        (file (s.icache ip).inum).addr (Fin.last ndirect) := by
    intro heq
    rw [← addrMap_addr (L.view s.disk).block halloc] at heq
    exact hne (h.owned.inj _ _ heq hq)
  have hkept (q : ℕ × Slot) (hq : addrMap file (L.view s.disk).block q ≠ 0) :
      addrMap file' (L.view s'.disk).block q = addrMap file (L.view s.disk).block q := by
    rw [haddr, Function.update_of_ne]
    rintro rfl
    exact hq hnone
  refine ⟨file', h.change hip hsb hone hcache hother (by rwa [htype]) (fun b' hb' => ?_) ?_,
    fun lo src => ?_, by rw [haddr, Function.update_self], h.owned.ne_zero hdata,
    fun hne => absurd hnone hne⟩
  · have hne : b' ≠ b := by
      rintro rfl
      exact absurd hdata.1 (by omega)
    rw [hbit, Function.update_of_ne hne]
    exact h.reserved b' hb'
  · rw [haddr, hbit]
    exact h.owned.assign hnone hdata hfree
  · refine ⟨hcache, htype, hsize, fun j hj => ⟨hother j hj, by rw [hdinode], fun q => ?_,
      fun q hq => ?_⟩, by rw [hdinode], fun bn hbn => ?_, fun k hk => ?_, fun k hk hk' => ?_,
      fun k hlo hhi => absurd hhi (by omega)⟩
    · rw [haddr, Function.update_of_ne (by simp [hj])]
    · exact hblock _ (hfresh _) (hlast _ hq (by simp [hj]))
    · unfold fileBlock at hbn ⊢
      split_ifs at hbn ⊢ with hmax
      · exact hkept _ hbn
      · exact absurd rfl hbn
    · rw [if_neg (by omega)]
      unfold fileByte
      unfold fileBlock at hk ⊢
      split_ifs at hk ⊢ with hmax
      · rw [hkept _ hk, hblock _ (hfresh _) (hlast _ hk ?_)]
        simpa using Slot.ofIndex_ne_last _ hmax
      · exact absurd rfl hk
    · rw [if_neg (by omega)]
      unfold fileByte
      unfold fileBlock at hk hk' ⊢
      split_ifs at hk hk' ⊢ with hmax
      · have hslot : Slot.ofIndex (k / bsize) hmax = p := by
          by_contra hne
          rw [haddr, Function.update_of_ne (by simp [hne])] at hk'
          exact hk' hk
        rw [haddr, hslot, Function.update_self,
          hzero (hslot ▸ Slot.ofIndex_ne_last _ hmax)]
      · exact absurd rfl hk'

theorem bmapAddr_spec (h : Base L s file) (hip : Live s ip) (k : Fin (ndirect + 1)) :
    wp (bmapAddr ip k) (fun b s' => Mapped L ip s file (.addr k) b s') NotFreeing s := by
  have halloc := h.alloc ip hip.ref hip.valid
  have hdin := h.din ip hip.ref hip.valid
  unfold bmapAddr
  simp only [wp_bind, wp_inode]
  by_cases hne : (s.icache ip).din.addr k ≠ 0
  · rw [if_pos hne, wp_pure]
    refine ⟨file, h, Writes.refl h hip, ?_, hne, fun _ => ⟨rfl, rfl⟩⟩
    rw [addrMap_addr _ halloc, hdin]
  · rw [if_neg hne]
    have hnone : (file (s.icache ip).inum).addr k = 0 := by
      rw [← hdin]
      simpa using hne
    simp only [wp_bind, wp_setInode, wp_pure]
    refine wp_mono (balloc_spec h) ?_
    rintro b s₁ ⟨hdata, hfree, hstep⟩
    have haddr := addrMap_setAddr h.owned halloc hnone hdata hfree
    have hcache : s₁.icache = s.icache := by rw [hstep.eq]
    have hsb : s₁.sb = s.sb := by rw [hstep.eq]
    refine Mapped.assign h hip
      (Function.update file (s.icache ip).inum ((file (s.icache ip).inum).setAddr k b))
      (by rw [addrMap_addr _ halloc, hnone]) hdata hfree hsb hstep.superblock
      (by simp only [setDin, Function.update_self, hcache, hdin])
      (fun j hj => Function.update_of_ne hj ..) (by simp) (by simp) ?_ ?_ ?_
      (fun b' hb' _ => ?_) (fun _ => ?_)
    all_goals dsimp only; rw [hstep.view]
    · exact haddr
    · exact Function.update_of_ne hb' ..
    · exact Function.update_self ..

/-- `bmap` on the indirect block `addr` of the inode. -/
theorem bmapEntry_spec (h : Base L s file) (hip : Live s ip) {addr : ℕ} (hne : addr ≠ 0)
    (hind : addrMap file (L.view s.disk).block
      ((s.icache ip).inum, .addr (Fin.last ndirect)) = addr) (j : Fin nindirect) :
    wp (bmapEntry addr j) (fun b s' => Mapped L ip s file (.entry j) b s') NotFreeing s := by
  have halloc := h.alloc ip hip.ref hip.valid
  have hlast : (file (s.icache ip).inum).addr (Fin.last ndirect) = addr := by
    rwa [addrMap_addr _ halloc] at hind
  have hdata : L.IsData addr := by
    rw [← hind]
    exact h.owned.held _ (by rwa [hind])
  have hblock : (L.view s.disk).block addr = s.disk addr := by simp [Layout.view, hdata]
  have hentry : addrMap file (L.view s.disk).block ((s.icache ip).inum, .entry j) =
      word (s.disk addr) j := by
    rw [addrMap_entry halloc (by rwa [hlast]), hlast, hblock]
  unfold bmapEntry
  simp only [wp_bind, wp_bread]
  by_cases hword : word (s.disk addr) j ≠ 0
  · rw [if_pos hword, wp_pure]
    exact ⟨file, h, Writes.refl h hip, hentry, hword, fun _ => ⟨rfl, rfl⟩⟩
  · rw [if_neg hword]
    have hnone : addrMap file (L.view s.disk).block ((s.icache ip).inum, .entry j) = 0 := by
      rw [hentry]
      simpa using hword
    simp only [wp_bind, wp_logWrite, wp_pure]
    refine wp_mono (balloc_spec h) ?_
    rintro b s₁ ⟨hb, hfree, hstep⟩
    have haddr := addrMap_setWord h.owned halloc (by rwa [hlast]) (j := j) hb hfree
    rw [hlast, hblock] at haddr
    have hcache : s₁.icache = s.icache := by rw [hstep.eq]
    have hsb : s₁.sb = s.sb := by rw [hstep.eq]
    have hone := Layout.one_lt_of_isData hdata
    have hview : L.view (Function.update s₁.disk addr (setWord (s.disk addr) j b)) = _ :=
      Layout.view_block hdata _
    rw [hstep.view] at hview
    have hfresh : addr ≠ b := by
      rw [← hind]
      exact h.owned.ne_of_free hb hfree _
    refine Mapped.assign h hip file hnone hb hfree hsb ?_ ?_ (fun _ _ => rfl) rfl rfl
      ?_ ?_ ?_ (fun b' hb' hb'' => ?_) (fun _ => ?_)
    · dsimp only
      rw [Function.update_of_ne (by omega), hstep.superblock]
    · rw [h.setDin_din hip, ← hcache]
    all_goals dsimp only; rw [hview]
    · exact haddr
    · rw [hlast] at hb''
      dsimp only
      rw [Function.update_of_ne hb'', Function.update_of_ne hb']
    · dsimp only
      rw [Function.update_of_ne hfresh.symm, Function.update_self]

/-- `bmap` returns the block of the file, and changes nothing if there is one. -/
theorem bmap_spec (h : Base L s file) (hip : Live s ip) (bn : ℕ) :
    wp (bmap ip bn) (fun b s' => ∃ file', Base L s' file' ∧
      (∀ lo src, Writes L ip s s' file file' lo lo src) ∧
      fileBlock file' (L.view s'.disk).block (s.icache ip).inum bn = b ∧ b ≠ 0 ∧
      (fileBlock file (L.view s.disk).block (s.icache ip).inum bn ≠ 0 →
        s' = s ∧ file' = file)) NotFreeing s := by
  unfold bmap
  by_cases hdirect : bn < ndirect
  · rw [dif_pos hdirect]
    refine wp_mono (bmapAddr_spec h hip _) fun b s' hmapped => ?_
    have hmax : bn < maxFile := by unfold maxFile; omega
    unfold Mapped at hmapped
    simpa only [fileBlock, hmax, dite_true, Slot.ofIndex, hdirect] using hmapped
  · rw [dif_neg hdirect]
    by_cases hmax : bn - ndirect < nindirect
    · rw [if_pos hmax, wp_bind]
      refine wp_mono (bmapAddr_spec h hip _) fun addr s₁ hmapped => ?_
      obtain ⟨file₁, hbase₁, hwrites₁, haddr₁, hne₁, hsame₁⟩ := hmapped
      obtain ⟨hlive₁, hinum₁⟩ := (hwrites₁ 0 fun _ => 0).live hip
      refine wp_mono (bmapEntry_spec hbase₁ hlive₁ hne₁ (by rwa [hinum₁]) ⟨_, hmax⟩)
        fun b s₂ hmapped => ?_
      obtain ⟨file₂, hbase₂, hwrites₂, haddr₂, hne₂, hsame₂⟩ := hmapped
      have hbn : bn < maxFile := by unfold maxFile; omega
      have hslot : Slot.ofIndex bn hbn = .entry ⟨bn - ndirect, hmax⟩ := by
        simp [Slot.ofIndex, hdirect]
      refine ⟨file₂, hbase₂, fun lo src => ?_, ?_, hne₂, fun hne => ?_⟩
      · exact (hwrites₁ lo src).append hip (hwrites₂ lo src) le_rfl le_rfl (by simp)
      · rw [← hinum₁, fileBlock, dif_pos hbn, hslot, haddr₂]
      · rw [fileBlock, dif_pos hbn, hslot] at hne
        have hind : addrMap file (L.view s.disk).block
            ((s.icache ip).inum, .addr (Fin.last ndirect)) ≠ 0 := by
          have halloc := h.alloc ip hip.ref hip.valid
          rw [addrMap_addr _ halloc]
          intro hzero
          simp [addrMap, slotAddr, hzero] at hne
        obtain ⟨rfl, rfl⟩ := hsame₁ hind
        exact hsame₂ hne
    · rw [if_neg hmax, wp_throw]
      simp [NotFreeing]

/-- A block of a file is a data block. -/
theorem Base.isData_fileBlock (h : Base L s file) {bn : ℕ}
    (hne : fileBlock file (L.view s.disk).block i bn ≠ 0) :
    L.IsData (fileBlock file (L.view s.disk).block i bn) := by
  unfold fileBlock at hne ⊢
  split_ifs at hne ⊢ with hmax
  · exact h.owned.held _ hne
  · exact absurd rfl hne

/-- Reading a block of a file. -/
theorem Base.disk_fileBlock (h : Base L s file) {off : ℕ}
    (hne : fileBlock file (L.view s.disk).block i (off / bsize) ≠ 0) :
    s.disk (fileBlock file (L.view s.disk).block i (off / bsize)) (off % bsize) =
      fileByte file (L.view s.disk).block i off := by
  unfold fileByte
  rw [Layout.view_block_of_isData _ (h.isData_fileBlock hne)]

/-- Bytes in the same block. -/
theorem div_mod_add (off : ℕ) {k : ℕ} (hk : k < bsize - off % bsize) :
    (off + k) / bsize = off / bsize ∧ (off + k) % bsize = off % bsize + k := by
  unfold bsize at *
  omega

/-- The loop of `readi` below the size of a file that has its blocks changes nothing and
delivers the bytes of the file. -/
theorem readiLoop_spec (h : Base L s file) (hip : Live s ip) {n fuel tot off : ℕ} {dst : Bytes}
    (hcovered : ∀ bn, bn * bsize < off + (n - tot) →
      fileBlock file (L.view s.disk).block (s.icache ip).inum bn ≠ 0)
    (hfuel : n - tot ≤ fuel) :
    wp (readiLoop ip n fuel tot off dst) (fun dst' s' => s' = s ∧ ∀ k, dst' k =
      if tot ≤ k ∧ k < n then
        fileByte file (L.view s.disk).block (s.icache ip).inum (off + (k - tot))
      else dst k) NotFreeing s := by
  induction fuel generalizing tot off dst with
  | zero =>
    simp only [readiLoop, wp_pure, true_and]
    intro k
    rw [if_neg (by omega)]
  | succ fuel ih =>
    rw [readiLoop]
    by_cases htot : tot < n
    · rw [if_pos htot]
      simp only [wp_bind, wp_bread]
      have hle := Nat.div_mul_le_self off bsize
      have hblock := hcovered (off / bsize) (by omega)
      refine wp_mono (bmap_spec h hip _) ?_
      rintro b s' ⟨file', _, _, hb, _, hsame⟩
      obtain ⟨rfl, rfl⟩ := hsame hblock
      have hround : 0 < min (n - tot) (bsize - off % bsize) := by
        have := Nat.mod_lt off (show 0 < bsize by decide)
        omega
      refine wp_mono (ih (fun bn hbn => hcovered bn (by omega)) (by omega)) ?_
      rintro dst' s'' ⟨hs, hdst⟩
      refine ⟨hs, fun k => ?_⟩
      rw [hdst]
      by_cases hdone : tot ≤ k ∧ k < tot + min (n - tot) (bsize - off % bsize)
      · obtain ⟨hquot, hrem⟩ := div_mod_add off (k := k - tot) (by omega)
        rw [if_neg (by omega), copy_of_mem hdone.1 hdone.2, if_pos (by omega), ← hb, ← hrem,
          ← hquot]
        exact h.disk_fileBlock (by rwa [hquot])
      · rw [copy_of_not_mem (by omega)]
        split_ifs <;> first | omega | rfl | skip
        congr 1
        omega
    · rw [if_neg htot, wp_pure]
      refine ⟨rfl, fun k => ?_⟩
      rw [if_neg (by omega)]

/-- `readi` of a file that has its blocks changes nothing, and delivers its bytes. -/
theorem readi_spec (h : Base L s file) (hip : Live s ip)
    (hok : FileOk L s file (s.icache ip).inum) (off n : ℕ) :
    wp (readi ip off n) (fun r s' => s' = s ∧ ((file (s.icache ip).inum).type ≠ tDev →
      0 ≤ r.1 → off + r.1.toNat ≤ (file (s.icache ip).inum).size.toNat ∧
        ∀ k < r.1.toNat, r.2 k =
          fileByte file (L.view s.disk).block (s.icache ip).inum (off + k))) NotFreeing s := by
  have halloc := h.alloc ip hip.ref hip.valid
  have hdin := h.din ip hip.ref hip.valid
  unfold readi
  simp only [wp_bind, wp_get, wp_inode, hdin]
  by_cases hdev : (file (s.icache ip).inum).type = tDev
  · rw [if_pos hdev]
    split_ifs with hmajor
    · cases (s.devsw ⟨_, _⟩).read <;> simp [hdev]
    · simp
  · rw [if_neg hdev]
    by_cases hbad : off > (file (s.icache ip).inum).size.toNat ∨ (off + n) % 2 ^ 32 < off
    · rw [if_pos hbad, wp_pure]
      simp
    · rw [if_neg hbad]
      have hend : off + (if off + n > (file (s.icache ip).inum).size.toNat
          then (file (s.icache ip).inum).size.toNat - off else n) ≤
            (file (s.icache ip).inum).size.toNat := by
        split_ifs <;> omega
      generalize (if off + n > (file (s.icache ip).inum).size.toNat
        then (file (s.icache ip).inum).size.toNat - off else n) = m at hend ⊢
      rw [wp_bind]
      refine wp_mono (readiLoop_spec h hip (fun bn hbn => ?_) le_rfl) ?_
      · exact hok.covered halloc bn (by omega)
      · rintro dst s' ⟨hs, hdst⟩
        rw [wp_pure]
        refine ⟨hs, fun _ _ => ⟨by simpa using hend, fun k hk => ?_⟩⟩
        dsimp only at hk ⊢
        rw [hdst, if_pos ⟨Nat.zero_le _, by simpa using hk⟩, Nat.sub_zero]

/-- Writing into a block of a file that is not its indirect block changes no address. -/
theorem writeBlock_addr (h : Base L s file) {bn b : ℕ} (data : Bytes)
    (hne : fileBlock file (L.view s.disk).block i bn ≠ 0)
    (hb : fileBlock file (L.view s.disk).block i bn = b) :
    L.view (Function.update s.disk b data) = { L.view s.disk with
        block := Function.update (L.view s.disk).block b data } ∧
      addrMap file (L.view (Function.update s.disk b data)).block =
        addrMap file (L.view s.disk).block := by
  have hmax : bn < maxFile := by
    by_contra hmax
    exact hne (dif_neg hmax)
  have hheld : addrMap file (L.view s.disk).block (i, Slot.ofIndex _ hmax) = b := by
    rw [← hb, fileBlock, dif_pos hmax]
  have hview : L.view (Function.update s.disk b data) = { L.view s.disk with
      block := Function.update (L.view s.disk).block b data } :=
    L.view_block (hb ▸ h.isData_fileBlock hne) data
  rw [hview]
  exact ⟨rfl, addrMap_write h.owned (Slot.ofIndex_ne_last _ hmax) hheld (by rwa [← hb]) _⟩

/-- Writing into one block of a file. -/
theorem writeBlock_spec (h : Base L s file) (hip : Live s ip) {off m : ℕ} {src : Bytes}
    (hne : fileBlock file (L.view s.disk).block (s.icache ip).inum (off / bsize) ≠ 0)
    (hm : m ≤ bsize - off % bsize) {b : ℕ}
    (hb : fileBlock file (L.view s.disk).block (s.icache ip).inum (off / bsize) = b)
    (hs' : s' = { s with
      disk := Function.update s.disk b (copy (s.disk b) (off % bsize) m src)
      calls := .logWrite b :: s.calls }) :
    Base L s' file ∧ Writes L ip s s' file file off (off + m) src := by
  have halloc := h.alloc ip hip.ref hip.valid
  have hdata : L.IsData b := hb ▸ h.isData_fileBlock hne
  have hone := Layout.one_lt_of_isData hdata
  have hmax : off / bsize < maxFile := by
    by_contra hmax
    exact hne (dif_neg hmax)
  have hheld : addrMap file (L.view s.disk).block
      ((s.icache ip).inum, Slot.ofIndex _ hmax) = b := by
    rw [← hb, fileBlock, dif_pos hmax]
  obtain ⟨hview, haddr⟩ : L.view s'.disk = { L.view s.disk with
      block := Function.update (L.view s.disk).block b
        (copy (s.disk b) (off % bsize) m src) } ∧
      addrMap file (L.view s'.disk).block = addrMap file (L.view s.disk).block := by
    rw [hs']
    exact writeBlock_addr h _ hne hb
  have hfileBlock (j bn : ℕ) : fileBlock file (L.view s'.disk).block j bn =
      fileBlock file (L.view s.disk).block j bn := by
    unfold fileBlock
    rw [haddr]
  have hcache : s'.icache = setDin s ip (file (s.icache ip).inum) := by
    rw [h.setDin_din hip, hs']
  refine ⟨h.change hip (by rw [hs']) ?_ hcache (fun _ _ => rfl) halloc (fun b' hb' => ?_) ?_,
    hcache, rfl, rfl, fun j hj => ⟨rfl, by rw [hview], fun q => by rw [haddr], fun q hq => ?_⟩,
    by rw [hview], fun bn _ => hfileBlock _ bn, fun k hk => ?_, fun k hk hk' => ?_,
    fun k hlo hhi => ?_⟩
  · rw [hs']
    dsimp only
    rw [Function.update_of_ne (by omega)]
  · rw [hview]
    exact h.reserved b' hb'
  · rw [haddr, hview]
    exact h.owned
  · have hother : addrMap file (L.view s.disk).block (j, q) ≠ b := by
      intro heq
      have hkey := h.owned.inj _ _ (heq.trans hheld.symm) hq
      exact hj (congrArg Prod.fst hkey)
    rw [hview]
    exact Function.update_of_ne hother ..
  · unfold fileByte
    rw [hfileBlock, hview]
    dsimp only
    by_cases hblock : k / bsize = off / bsize
    · rw [hblock, hb, Function.update_self, ← Layout.view_block_of_isData s.disk hdata]
      unfold bsize at *
      split_ifs with hrange
      · rw [copy_of_mem (by omega) (by omega)]
        congr 1
        omega
      · rw [copy_of_not_mem (by omega)]
    · have hother : fileBlock file (L.view s.disk).block (s.icache ip).inum (k / bsize) ≠ b := by
        intro heq
        unfold fileBlock at hk heq
        split_ifs at hk heq with hmax'
        · have hkey := h.owned.inj _ _ (heq.trans hheld.symm) hk
          exact hblock (Slot.ofIndex_inj hmax' hmax (congrArg Prod.snd hkey))
        · exact hk rfl
      rw [Function.update_of_ne hother, if_neg]
      unfold bsize at *
      omega
  · rw [hfileBlock] at hk'
    exact absurd hk hk'
  · rw [hfileBlock]
    have hblock : k / bsize = off / bsize := by
      unfold bsize at *
      omega
    rwa [hblock]

/-- The loop of `writei` behind a file that has its blocks. The inode changes only if the
file has to grow. -/
theorem writeiLoop_spec (h : Base L s file) (hip : Live s ip) {src : Bytes}
    {n fuel tot off : ℕ} (size : ℕ) (htot : tot ≤ n)
    (hcovered : ∀ bn, bn * bsize < max size off →
      fileBlock file (L.view s.disk).block (s.icache ip).inum bn ≠ 0)
    (hfuel : n - tot ≤ fuel) :
    wp (writeiLoop ip src n fuel tot off) (fun off' s' => off' = off + (n - tot) ∧
      ∃ file', Base L s' file' ∧
        Writes L ip s s' file file' off off' (fun k => src (tot + k)) ∧
        (∀ bn, bn * bsize < max size off' →
          fileBlock file' (L.view s'.disk).block (s.icache ip).inum bn ≠ 0) ∧
        (off' ≤ size → file' = file)) NotFreeing s := by
  induction fuel generalizing tot off s file with
  | zero =>
    have hdone : n - tot = 0 := by omega
    simp only [writeiLoop, wp_pure, hdone, Nat.add_zero, true_and]
    exact ⟨file, h, Writes.refl h hip _ _, hcovered, fun _ => rfl⟩
  | succ fuel ih =>
    rw [writeiLoop]
    by_cases hlt : tot < n
    · rw [if_pos hlt]
      simp only [wp_bind, wp_bread, wp_logWrite]
      have hround : 0 < min (n - tot) (bsize - off % bsize) := by
        have := Nat.mod_lt off (show 0 < bsize by decide)
        omega
      refine wp_mono (bmap_spec h hip _) ?_
      rintro b s₁ ⟨file₁, hbase₁, hwrites₁, hb, hne, hsame⟩
      generalize hm : min (n - tot) (bsize - off % bsize) = m at hround ⊢
      obtain ⟨hlive₁, hinum₁⟩ := (hwrites₁ 0 fun _ => 0).live hip
      rw [← hinum₁] at hb
      generalize hs₂ : ({ s₁ with
        disk := Function.update s₁.disk b
          (copy (s₁.disk b) (off % bsize) m fun k => src (tot + k))
        calls := .logWrite b :: s₁.calls } : State) = s₂
      obtain ⟨hbase₂, hwrites₂⟩ := writeBlock_spec hbase₁ hlive₁ (by rwa [hb]) (by omega) hb
        hs₂.symm
      have hwrites := (hwrites₁ off fun k => src (tot + k)).append hip hwrites₂ le_rfl
        (by omega) (fun k => by rw [Nat.sub_self, Nat.zero_add])
      obtain ⟨hlive₂, hinum₂⟩ := hwrites.live hip
      have hcovered₂ (bn : ℕ) (hbn : bn * bsize < max size (off + m)) :
          fileBlock file₁ (L.view s₂.disk).block (s₂.icache ip).inum bn ≠ 0 := by
        rw [hinum₂]
        by_cases hold : bn * bsize < max size off
        · rw [hwrites.addr bn (hcovered bn hold)]
          exact hcovered bn hold
        · have hk := hwrites.covered (bn * bsize) (by omega) (by omega)
          rwa [Nat.mul_div_cancel _ (by decide)] at hk
      refine wp_mono (ih hbase₂ hlive₂ (by omega) hcovered₂ (by omega)) ?_
      rintro off' s' ⟨hoff', file', hbase', hwrites', hcovered', hsame'⟩
      refine ⟨by omega, file', hbase', ?_, by rwa [hinum₂] at hcovered', fun hle => ?_⟩
      · refine hwrites.append hip hwrites' (by omega) (by omega) fun k => ?_
        congr 1
        omega
      · rw [hsame' hle]
        have hle' := Nat.div_mul_le_self off bsize
        exact (hsame (hcovered _ (by omega))).2
    · have hdone : n - tot = 0 := by omega
      rw [if_neg hlt, wp_pure, hdone, Nat.add_zero]
      exact ⟨rfl, file, h, Writes.refl h hip _ _, hcovered, fun _ => rfl⟩

/-- `iupdate` stores the cached fields in the inode on the disk. -/
theorem iupdate_spec (hsb : s.sb = L.sb) (htable : L.InTable (s.icache ip).inum) :
    wp (iupdate ip) (fun _ s' => DiskStep L s s' { L.view s.disk with
      dinode := Function.update (L.view s.disk).dinode (s.icache ip).inum (s.icache ip).din })
      NotFreeing s := by
  unfold iupdate
  simp only [wp_bind, wp_get, wp_inode, wp_bread, wp_logWrite, hsb]
  have hbounds := Layout.iblock_bounds htable
  refine ⟨by rw [hsb], Layout.view_putDinode htable _, ?_⟩
  dsimp only
  rw [Function.update_of_ne (by omega)]

/-- The free map, the data blocks and the inodes in the cache stay as they are when inodes are
stored on the disk. -/
theorem Base.store (h : Base L s file) {dinode : ℕ → Dinode}
    (hstep : DiskStep L s s' { L.view s.disk with dinode }) : Base L s' file := by
  have hcache : s'.icache = s.icache := by rw [hstep.eq]
  have hsb : s'.sb = s.sb := by rw [hstep.eq]
  constructor
  · rw [hsb, h.sb]
  · rw [hstep.superblock, h.superblock]
  · rw [hcache]
    exact h.table
  · rw [hcache]
    exact h.inj
  · rw [hcache]
    exact h.din
  · rw [hcache]
    exact h.alloc
  · rw [hstep.view]
    exact h.reserved
  · rw [hstep.view]
    exact h.owned

/-- The entries of a directory after the writing of one entry. -/
theorem Writes.entries {off : ℕ} {src : Bytes}
    (h : Writes L ip s s' file file' off (off + sizeofDirent) src)
    (hok : FileOk L s file (s.icache ip).inum)
    (htype : (file (s.icache ip).inum).type = tDir) (hoff : sizeofDirent ∣ off)
    (hsrc : get src 0 2 < L.nino) {o : ℕ} (ho : sizeofDirent ∣ o)
    (hold : o + sizeofDirent ≤ (file (s.icache ip).inum).size.toNat ∨ o = off) :
    get (fun k => fileByte file' (L.view s'.disk).block (s.icache ip).inum (o + k)) 0 2 <
      L.nino := by
  have halloc : (file (s.icache ip).inum).type ≠ 0 := by rw [htype]; decide
  by_cases heq : o = off
  · subst heq
    have hbyte (k : ℕ) (hk : k < 2) :
        fileByte file' (L.view s'.disk).block (s.icache ip).inum (o + k) = src k := by
      have hrange : o ≤ o + k ∧ o + k < o + sizeofDirent := by unfold sizeofDirent; omega
      by_cases hblock :
          fileBlock file (L.view s.disk).block (s.icache ip).inum ((o + k) / bsize) = 0
      · rw [h.fresh _ hblock (h.covered _ hrange.1 hrange.2), if_pos hrange,
          Nat.add_sub_cancel_left]
      · rw [h.bytes _ hblock, if_pos hrange, Nat.add_sub_cancel_left]
    rwa [get_congr (fun k hk => by rw [Nat.zero_add, hbyte k hk] :
      ∀ k < 2, _ = src (0 + k))]
  · have hsize : o + sizeofDirent ≤ (file (s.icache ip).inum).size.toNat := by
      rcases hold with hle | h
      · exact hle
      · exact absurd h heq
    rw [get_fileByte_congr fun k hk => ?_]
    · exact hok.entries htype o ho hsize
    · have hle := Nat.div_mul_le_self (o + k) bsize
      unfold sizeofDirent at *
      rw [h.bytes _ (hok.covered halloc _ (by omega)), if_neg (by omega)]

/-- A pointer to a locked, valid inode stays one. -/
def Stays (s s' : State) (q : InodePtr) : Prop :=
  Live s q → (s.icache q).locked = true →
    Live s' q ∧ (s'.icache q).locked = true ∧ (s'.icache q).inum = (s.icache q).inum

theorem Stays.refl (s : State) (q : InodePtr) : Stays s s q := fun h hlock => ⟨h, hlock, rfl⟩

theorem Stays.trans {q : InodePtr} (h : Stays s s' q) (h' : Stays s' s'' q) : Stays s s'' q := by
  intro hq hlock
  obtain ⟨hq', hlock', hinum'⟩ := h hq hlock
  obtain ⟨hq'', hlock'', hinum''⟩ := h' hq' hlock'
  exact ⟨hq'', hlock'', hinum''.trans hinum'⟩

theorem stays_of_setDin {din : Dinode} (hcache : s'.icache = setDin s ip din) (q : InodePtr) :
    Stays s s' q := by
  intro hq hlock
  have hfields := setDin_fields s ip din q
  rw [← hcache] at hfields
  refine ⟨⟨?_, ?_⟩, ?_, hfields.1⟩
  · rw [hfields.2.1]
    exact hq.ref
  · rw [hfields.2.2.1]
    exact hq.valid
  · rw [hfields.2.2.2, hlock]

theorem stays_of_cache (hcache : s'.icache = s.icache) (q : InodePtr) : Stays s s' q := by
  intro hq hlock
  rw [hcache]
  exact ⟨⟨by rw [hcache]; exact hq.ref, by rw [hcache]; exact hq.valid⟩, hlock, rfl⟩

/-- Changing fields of an inode other than its type and its addresses, and storing it. -/
theorem store_spec (h : Base L s file) (hip : Live s ip) (f : Dinode → Dinode)
    (htype : ∀ din, (f din).type = din.type) (haddrs : ∀ din, (f din).addrs = din.addrs) :
    wp (do
        setInode ip fun i => { i with din := f i.din }
        iupdate ip)
      (fun _ s' => ∃ file', file' = Function.update file (s.icache ip).inum
          (f (file (s.icache ip).inum)) ∧ Base L s' file' ∧
        (∀ j ≠ (s.icache ip).inum, Keeps L s s' file file' j) ∧
        (L.view s'.disk).dinode (s.icache ip).inum = file' (s.icache ip).inum ∧
        s'.icache = setDin s ip (file' (s.icache ip).inum) ∧
        (L.view s'.disk).block = (L.view s.disk).block ∧
        addrMap file' (L.view s'.disk).block = addrMap file (L.view s.disk).block)
      NotFreeing s := by
  have halloc := h.alloc ip hip.ref hip.valid
  have hdin := h.din ip hip.ref hip.valid
  have htable := h.table ip hip.ref
  simp only [wp_bind, wp_setInode]
  generalize hs₁ : ({ s with
    icache := Function.update s.icache ip
      { s.icache ip with din := f (s.icache ip).din } } : State) = s₁
  generalize hfile : Function.update file (s.icache ip).inum (f (file (s.icache ip).inum)) =
    file'
  have hself : file' (s.icache ip).inum = f (file (s.icache ip).inum) := by
    rw [← hfile, Function.update_self]
  have hother (j : ℕ) (hj : j ≠ (s.icache ip).inum) : file' j = file j := by
    rw [← hfile, Function.update_of_ne hj]
  have hdisk : s₁.disk = s.disk := by rw [← hs₁]
  have hcache : s₁.icache = setDin s ip (file' (s.icache ip).inum) := by
    rw [← hs₁, hself, ← hdin]
    rfl
  have haddr : addrMap file' (L.view s.disk).block = addrMap file (L.view s.disk).block := by
    funext p
    obtain ⟨j, p⟩ := p
    by_cases hj : j = (s.icache ip).inum
    · subst hj
      unfold addrMap
      rw [hself, htype, slotAddr_congr (haddrs _)]
    · rw [addrMap, addrMap, hother j hj]
  have hbase₁ : Base L s₁ file' := by
    refine h.change hip (by rw [← hs₁]) (by rw [hdisk]) hcache hother ?_ ?_ ?_
    · rwa [hself, htype]
    · rw [hdisk]
      exact h.reserved
    · rw [hdisk, haddr]
      exact h.owned
  have hfields := setDin_fields s ip (file' (s.icache ip).inum) ip
  rw [← hcache] at hfields
  refine wp_mono (iupdate_spec hbase₁.sb (by rwa [hfields.1])) fun _ s₂ hstep => ?_
  have hdin₁ : (s₁.icache ip).din = file' (s.icache ip).inum := by
    rw [hcache]
    simp [setDin]
  rw [hfields.1, hdin₁, hdisk] at hstep
  refine ⟨file', rfl, ?_, fun j hj => ⟨hother j hj, ?_, fun p => ?_, fun p _ => ?_⟩, ?_, ?_, ?_,
    ?_⟩
  · exact hbase₁.store (by rw [hdisk]; exact hstep)
  · rw [hstep.view]
    exact Function.update_of_ne hj ..
  · rw [hstep.view, haddr]
  · rw [hstep.view]
  · rw [hstep.view]
    exact Function.update_self ..
  · rw [hstep.eq, hcache]
  · rw [hstep.view]
  · rw [hstep.view, haddr]

/-- An inode whose type and size stay the same stays in order if its blocks do. -/
theorem FileOk.of_same (h : FileOk L s file i)
    (hsynced : (L.view s'.disk).dinode i = file' i)
    (htype : (file' i).type = (file i).type) (hsize : (file' i).size = (file i).size)
    (hblock : (L.view s'.disk).block = (L.view s.disk).block)
    (haddr : addrMap file' (L.view s'.disk).block = addrMap file (L.view s.disk).block) :
    FileOk L s' file' i := by
  have hfileBlock (bn : ℕ) : fileBlock file' (L.view s'.disk).block i bn =
      fileBlock file (L.view s.disk).block i bn := by
    unfold fileBlock
    rw [haddr]
  refine ⟨hsynced, fun halloc bn hbn => ?_, fun hdir off hdvd hoff => ?_⟩
  · rw [htype] at halloc
    rw [hsize] at hbn
    rw [hfileBlock]
    exact h.covered halloc bn hbn
  · rw [htype] at hdir
    rw [hsize] at hoff
    have hbyte (k : ℕ) : fileByte file' (L.view s'.disk).block i (off + k) =
        fileByte file (L.view s.disk).block i (off + k) := by
      unfold fileByte
      rw [hfileBlock, hblock]
    simp only [hbyte]
    exact h.entries hdir off hdvd hoff

/-- Changing the device numbers or the link count of an inode, and storing it. -/
theorem links_spec (h : Inv L s file) (hip : Live s ip) (f : Dinode → Dinode)
    (htype : ∀ din, (f din).type = din.type) (hsize : ∀ din, (f din).size = din.size)
    (haddrs : ∀ din, (f din).addrs = din.addrs) :
    wp (do
        setInode ip fun i => { i with din := f i.din }
        iupdate ip)
      (fun _ s' => ∃ file', Inv L s' file' ∧
        s'.icache = setDin s ip (file' (s.icache ip).inum)) NotFreeing s := by
  refine wp_mono (store_spec h.base hip f htype haddrs) fun _ s' hstore => ?_
  obtain ⟨file', hfile, hbase, hkeep, hsynced, hcache, hblock, haddr⟩ := hstore
  refine ⟨file', ⟨hbase, fun j => ?_⟩, hcache⟩
  by_cases hj : j = (s.icache ip).inum
  · subst hj
    refine (h.files _).of_same hsynced ?_ ?_ hblock haddr
    · rw [hfile, Function.update_self, htype]
    · rw [hfile, Function.update_self, hsize]
  · exact (h.files j).keep (hkeep j hj)

/-- An inode that has been written and has the size it should have is in order. -/
theorem FileOk.of_writes {off hi : ℕ} {src : Bytes} {file₁ : ℕ → Dinode} {s₁ : State}
    (hok : FileOk L s file (s.icache ip).inum)
    (hwrites : Writes L ip s s₁ file file₁ off hi src)
    (hcovered : ∀ bn, bn * bsize < max (file (s.icache ip).inum).size.toNat hi →
      fileBlock file₁ (L.view s₁.disk).block (s.icache ip).inum bn ≠ 0)
    (hstart : off ≤ (file (s.icache ip).inum).size.toNat)
    (hdir : (file (s.icache ip).inum).type = tDir →
      sizeofDirent ∣ off ∧ hi = off + sizeofDirent ∧ get src 0 2 < L.nino)
    (hsynced : (L.view s'.disk).dinode (s.icache ip).inum = file' (s.icache ip).inum)
    (htype : (file' (s.icache ip).inum).type = (file₁ (s.icache ip).inum).type)
    (hsize : (file' (s.icache ip).inum).size.toNat ≤
      max (file (s.icache ip).inum).size.toNat hi)
    (hblock : (L.view s'.disk).block = (L.view s₁.disk).block)
    (haddr : addrMap file' (L.view s'.disk).block = addrMap file₁ (L.view s₁.disk).block) :
    FileOk L s' file' (s.icache ip).inum := by
  have hfileBlock (bn : ℕ) :
      fileBlock file' (L.view s'.disk).block (s.icache ip).inum bn =
        fileBlock file₁ (L.view s₁.disk).block (s.icache ip).inum bn := by
    unfold fileBlock
    rw [haddr]
  refine ⟨hsynced, fun _ bn hbn => ?_, fun hd o hdvd ho => ?_⟩
  · rw [hfileBlock]
    exact hcovered bn (by omega)
  · have hbyte (k : ℕ) : fileByte file' (L.view s'.disk).block (s.icache ip).inum (o + k) =
        fileByte file₁ (L.view s₁.disk).block (s.icache ip).inum (o + k) := by
      unfold fileByte
      rw [hfileBlock, hblock]
    simp only [hbyte]
    rw [htype, hwrites.type] at hd
    obtain ⟨hoff, rfl, hsrc⟩ := hdir hd
    refine hwrites.entries hok hd hoff hsrc hdvd ?_
    by_cases heq : o = off
    · exact .inr heq
    · left
      obtain ⟨a, rfl⟩ := hdvd
      obtain ⟨c, rfl⟩ := hoff
      unfold sizeofDirent at *
      omega

/-- `writei` keeps the invariant; into a directory it must write one entry. -/
theorem writei_spec (h : Inv L s file) (hip : Live s ip) {src : Bytes} {off n : ℕ}
    (hdir : (file (s.icache ip).inum).type = tDir →
      sizeofDirent ∣ off ∧ n = sizeofDirent ∧ get src 0 2 < L.nino) :
    wp (writei ip src off n) (fun _ s' => ∃ file', Inv L s' file' ∧
      s'.icache = setDin s ip (file' (s.icache ip).inum)) NotFreeing s := by
  have halloc := h.base.alloc ip hip.ref hip.valid
  have hdin := h.base.din ip hip.ref hip.valid
  have hok := h.files (s.icache ip).inum
  have hsame : Inv L s file ∧ s.icache = setDin s ip (file (s.icache ip).inum) :=
    ⟨h, (h.base.setDin_din hip).symm⟩
  unfold writei
  simp only [wp_bind, wp_get, wp_inode, hdin]
  by_cases hdev : (file (s.icache ip).inum).type = tDev
  · rw [if_pos hdev]
    split_ifs with hmajor
    · cases (s.devsw ⟨_, _⟩).write <;> exact ⟨file, hsame⟩
    · exact ⟨file, hsame⟩
  rw [if_neg hdev]
  by_cases hbad : off > (file (s.icache ip).inum).size.toNat ∨ (off + n) % 2 ^ 32 < off
  · rw [if_pos hbad]
    exact ⟨file, hsame⟩
  rw [if_neg hbad]
  by_cases hmax : off + n > maxFile * bsize
  · rw [if_pos hmax]
    exact ⟨file, hsame⟩
  rw [if_neg hmax, wp_bind]
  refine wp_mono (writeiLoop_spec h.base hip (file (s.icache ip).inum).size.toNat (Nat.zero_le _)
    (fun bn hbn => hok.covered halloc bn (by omega)) le_rfl) ?_
  rintro off' s₁ ⟨hoff', file₁, hbase₁, hwrites, hcovered, hgrow⟩
  obtain ⟨hlive₁, hinum₁⟩ := hwrites.live hip
  have hdin₁ := hbase₁.din ip hlive₁.ref hlive₁.valid
  rw [hinum₁] at hdin₁
  have hdir' : (file (s.icache ip).inum).type = tDir → sizeofDirent ∣ off ∧
      off' = off + sizeofDirent ∧ get (fun k => src (0 + k)) 0 2 < L.nino := by
    intro hd
    obtain ⟨hdvd, rfl, hsrc⟩ := hdir hd
    simp only [Nat.zero_add]
    exact ⟨hdvd, hoff', hsrc⟩
  unfold writeiSize
  simp only [wp_bind, wp_inode, hdin₁, hwrites.size]
  by_cases hgrown : 0 < n ∧ off' > (file (s.icache ip).inum).size.toNat
  · rw [if_pos hgrown]
    refine wp_mono (store_spec hbase₁ hlive₁ (fun din => { din with size := UInt32.ofNat off' })
      (fun _ => rfl) (fun _ => rfl)) fun _ s' hstore => ?_
    obtain ⟨file', hfile, hbase, hkeep, hsynced, hcache, hblock, haddr⟩ := hstore
    rw [hinum₁] at hfile hkeep hsynced hcache
    rw [wp_pure]
    refine ⟨file', ⟨hbase, fun j => ?_⟩, ?_⟩
    · by_cases hj : j = (s.icache ip).inum
      · subst hj
        refine hok.of_writes hwrites hcovered (by omega) hdir' hsynced ?_ ?_ hblock haddr
        · rw [hfile, Function.update_self]
        · have hbound : off' < 2 ^ 32 := by
            unfold maxFile ndirect nindirect bsize at hmax
            omega
          rw [hfile, Function.update_self]
          simp only [UInt32.toNat_ofNat_of_lt' hbound]
          omega
      · exact (h.files j).keep ((hwrites.keeps j hj).trans (hkeep j hj))
    · rw [hcache, setDin, hwrites.cache]
      simp [setDin]
  · rw [if_neg hgrown, wp_pure, wp_pure]
    have hfile₁ : file₁ = file := hgrow (by omega)
    subst hfile₁
    refine ⟨file₁, ⟨hbase₁, fun j => ?_⟩, hwrites.cache⟩
    by_cases hj : j = (s.icache ip).inum
    · subst hj
      refine hok.of_writes hwrites hcovered (by omega) hdir' ?_ rfl (by omega) rfl rfl
      rw [hwrites.dinode, hok.synced]
    · exact (h.files j).keep (hwrites.keeps j hj)

end Xv6.Fs
