import Xv6.InodeLife
import Xv6.Lib.GuardedRun

/-!
# Disk blocks have one owner

Runs of whole operations on inodes and directories: allocation, reading, writing, links,
entries and the dropping of references. In the states between them every data block has at
most one owner, the free map marks the owned blocks, and valid copies of inodes agree with
the disk.
-/

namespace Xv6.Fs

open LittleEndian StateProg GuardedRun

variable {L : Layout} {s s' : State} {file : ℕ → Dinode} {ip dp : InodePtr}

/-- `readi` of an entry of a directory, which `dirlookup`, `dirlink` and `isdirempty` take as
a panic if it is short. -/
theorem readDirent_spec (h : Inv L s file) (hip : Live s dp)
    (hdir : (file (s.icache dp).inum).type = tDir) {off : ℕ} (hoff : sizeofDirent ∣ off) :
    wp (readi dp off sizeofDirent) (fun r s' => s' = s ∧ (r.1 = sizeofDirent →
      direntInum r.2 ≠ 0 → L.InTable (direntInum r.2))) NotFreeing s := by
  refine wp_mono (readi_spec h.base hip (h.files _) off _) ?_
  rintro r s' ⟨hs, hread⟩
  refine ⟨hs, fun hr hne => ⟨Nat.pos_of_ne_zero hne, ?_⟩⟩
  obtain ⟨hsize, hbytes⟩ := hread (by rw [hdir]; decide) (by rw [hr]; exact Int.natCast_nonneg _)
  rw [hr, Int.toNat_natCast] at hsize hbytes
  have hentry := (h.files _).entries hdir off hoff hsize
  have hsame : direntInum r.2 =
      get (fun k => fileByte file (L.view s.disk).block (s.icache dp).inum (off + k)) 0 2 := by
    apply get_congr
    intro k hk
    rw [Nat.zero_add, hbytes k (by unfold sizeofDirent; omega)]
  rwa [hsame]

/-- The offsets in a directory are multiples of the size of an entry. -/
theorem dvd_of_mem_direntOffsets {size off : ℕ} (hoff : off ∈ direntOffsets size) :
    sizeofDirent ∣ off := by
  obtain ⟨k, -, rfl⟩ := List.mem_map.mp hoff
  exact Nat.dvd_mul_right _ k

theorem dirlookupLoop_spec (h : Inv L s file) (hip : Live s dp)
    (hdir : (file (s.icache dp).inum).type = tDir) {name : Bytes} {offs : List ℕ}
    (hoffs : ∀ off ∈ offs, sizeofDirent ∣ off) :
    wp (dirlookupLoop dp name offs) (fun r s' => s' = s ∧
      ∀ inum off, r = some (inum, off) → L.InTable inum ∧ sizeofDirent ∣ off) NotFreeing s := by
  induction offs with
  | nil => simp [dirlookupLoop]
  | cons off offs ih =>
    rw [dirlookupLoop, wp_bind]
    refine wp_mono (readDirent_spec h hip hdir (hoffs off List.mem_cons_self)) ?_
    rintro r s' ⟨hs, hread⟩
    subst hs
    obtain ⟨n, de⟩ := r
    simp only [wp_bind, wp_panicIf]
    refine ⟨fun _ => by decide, fun hr => ?_⟩
    split_ifs with hname
    · rw [wp_pure]
      refine ⟨rfl, fun inum off' heq => ?_⟩
      obtain ⟨rfl, rfl⟩ := Prod.mk.inj (Option.some.inj heq)
      exact ⟨hread (by simpa using hr) hname.1, hoffs off List.mem_cons_self⟩
    · exact ih fun off' hoff' => hoffs off' (List.mem_cons_of_mem _ hoff')

/-- `dirlookup` keeps the invariant and the locked inodes. -/
theorem dirlookup_spec (h : Inv L s file) (hip : Live s dp) (name : Bytes) :
    wp (dirlookup dp name) (fun r s' => Inv L s' file ∧ (∀ q, Stays s s' q) ∧
      (file (s.icache dp).inum).type = tDir ∧
      ∀ ip off, r = some (ip, off) → sizeofDirent ∣ off) NotFreeing s := by
  unfold dirlookup
  simp only [wp_bind, wp_inode, wp_panicIf]
  refine ⟨fun _ => by decide, fun hdir => ?_⟩
  rw [ne_eq, not_not, h.base.din dp hip.ref hip.valid] at hdir
  refine wp_mono (dirlookupLoop_spec h hip hdir fun off => dvd_of_mem_direntOffsets) ?_
  rintro r s' ⟨hs, hr⟩
  subst hs
  cases r with
  | none => exact ⟨h, fun q => Stays.refl s' q, hdir, by simp⟩
  | some r =>
    obtain ⟨inum, off⟩ := r
    obtain ⟨htable, hoff⟩ := hr inum off rfl
    simp only [wp_bind, wp_pure]
    refine wp_mono (iget_spec h htable) ?_
    rintro ip s'' ⟨hinv, hstays⟩
    refine ⟨hinv, hstays, hdir, ?_⟩
    rintro _ _ ⟨⟩
    exact hoff

theorem dirlinkFind_spec (h : Inv L s file) (hip : Live s dp)
    (hdir : (file (s.icache dp).inum).type = tDir) {last : ℕ} (hlast : sizeofDirent ∣ last)
    {offs : List ℕ} (hoffs : ∀ off ∈ offs, sizeofDirent ∣ off) :
    wp (dirlinkFind dp last offs) (fun off s' => s' = s ∧ sizeofDirent ∣ off) NotFreeing s := by
  induction offs with
  | nil => simpa [dirlinkFind] using hlast
  | cons off offs ih =>
    rw [dirlinkFind, wp_bind]
    refine wp_mono (readDirent_spec h hip hdir (hoffs off List.mem_cons_self)) ?_
    rintro r s' ⟨hs, hread⟩
    subst hs
    obtain ⟨n, de⟩ := r
    simp only [wp_bind, wp_panicIf]
    refine ⟨fun _ => by decide, fun hr => ?_⟩
    split_ifs with hfree
    · exact ⟨rfl, hoffs off List.mem_cons_self⟩
    · exact ih fun off' hoff' => hoffs off' (List.mem_cons_of_mem _ hoff')

/-- The number of an entry that `dirlink` writes. -/
theorem get_dirent (inum : ℕ) (name : Bytes) : get (dirent inum name) 0 2 = inum % 256 ^ 2 := by
  unfold dirent
  rw [get_copy_of_disjoint (by omega), get_digits]

/-- The writing of one entry of a directory. -/
theorem writeDirent_spec (h : Inv L s file) (hip : Live s dp) {de : Bytes} {off : ℕ}
    (hoff : sizeofDirent ∣ off) (hde : get de 0 2 < L.nino) :
    wp (writei dp de off sizeofDirent) (fun _ s' => ∃ file', Inv L s' file' ∧
      ∀ q, Stays s s' q) NotFreeing s := by
  refine wp_mono (writei_spec h hip fun _ => ⟨hoff, rfl, hde⟩) ?_
  rintro _ _ ⟨file', hinv, hcache⟩
  exact ⟨file', hinv, stays_of_setDin hcache⟩

/-- `dirlink` keeps the invariant and the locked inodes. -/
theorem dirlink_spec (h : Inv L s file) (hip : Live s dp) (hlock : (s.icache dp).locked = true)
    (name : Bytes) {inum : ℕ} (hinum : L.InTable inum) :
    wp (dirlink dp name inum) (fun _ s' => ∃ file', Inv L s' file' ∧ ∀ q, Stays s s' q)
      NotFreeing s := by
  unfold dirlink
  rw [wp_bind]
  refine wp_mono (dirlookup_spec h hip name) ?_
  rintro r s₁ ⟨hinv₁, hstays₁, hdir, _⟩
  obtain ⟨hlive₁, hlock₁, hinum₁⟩ := hstays₁ dp hip hlock
  rw [← hinum₁] at hdir
  cases r with
  | some r =>
    simp only [wp_bind, wp_pure]
    refine wp_mono (iput_spec hinv₁) ?_
    rintro _ s₂ ⟨file₂, hinv₂, hstays₂⟩
    exact ⟨file₂, hinv₂, fun q => (hstays₁ q).trans (hstays₂ q)⟩
  | none =>
    simp only [dirlinkWrite, wp_bind, wp_inode]
    refine wp_mono (dirlinkFind_spec hinv₁ hlive₁ hdir (Nat.dvd_mul_right _ _)
      fun off => dvd_of_mem_direntOffsets) ?_
    rintro off s₂ ⟨hs₂, hoff⟩
    subst hs₂
    have hde : get (dirent inum (strncpy name dirSiz)) 0 2 < L.nino := by
      rw [get_dirent]
      exact lt_of_le_of_lt (Nat.mod_le _ _) hinum.2
    refine wp_mono (writeDirent_spec hinv₁ hlive₁ hoff hde) ?_
    rintro r s₃ ⟨file₃, hinv₃, hstays₃⟩
    simp only [wp_panicIf, wp_pure]
    exact ⟨fun _ => by decide, fun _ => ⟨file₃, hinv₃, fun q => (hstays₁ q).trans (hstays₃ q)⟩⟩

theorem isdiremptyLoop_spec (h : Inv L s file) (hip : Live s dp) (offs : List ℕ) :
    wp (isdiremptyLoop dp offs) (fun _ s' => s' = s) NotFreeing s := by
  induction offs with
  | nil => simp [isdiremptyLoop]
  | cons off offs ih =>
    rw [isdiremptyLoop, wp_bind]
    refine wp_mono (readi_spec h.base hip (h.files _) off _) ?_
    rintro r s' ⟨hs, _⟩
    subst hs
    obtain ⟨n, de⟩ := r
    simp only [wp_bind, wp_panicIf]
    refine ⟨fun _ => by decide, fun _ => ?_⟩
    split_ifs
    · rfl
    · exact ih

theorem nonemptyDir_spec (h : Inv L s file) (hip : Live s ip) :
    wp (nonemptyDir ip) (fun _ s' => s' = s) NotFreeing s := by
  unfold nonemptyDir isdirempty
  simp only [wp_bind, wp_inode]
  split_ifs
  · simp only [wp_bind, wp_inode, wp_pure]
    exact isdiremptyLoop_spec h hip _
  · rfl

/-- Changing the link count keeps the locked inodes, too. -/
theorem nlink_spec (h : Inv L s file) (hip : Live s ip) (f : Dinode → Dinode)
    (htype : ∀ din, (f din).type = din.type) (hsize : ∀ din, (f din).size = din.size)
    (haddrs : ∀ din, (f din).addrs = din.addrs) :
    wp (do
        setInode ip fun i => { i with din := f i.din }
        iupdate ip)
      (fun _ s' => ∃ file', Inv L s' file' ∧ ∀ q, Stays s s' q) NotFreeing s := by
  refine wp_mono (links_spec h hip f htype hsize haddrs) ?_
  rintro _ _ ⟨file', hinv, hcache⟩
  exact ⟨file', hinv, stays_of_setDin hcache⟩

theorem unlinkParent_spec (h : Inv L s file) (hip : Live s dp) (isDir : Prop)
    [Decidable isDir] :
    wp (unlinkParent dp isDir) (fun _ s' => ∃ file', Inv L s' file' ∧ ∀ q, Stays s s' q)
      NotFreeing s := by
  unfold unlinkParent
  split_ifs
  · exact nlink_spec h hip (fun din => { din with nlink := din.nlink - 1 }) (fun _ => rfl)
      (fun _ => rfl) (fun _ => rfl)
  · exact ⟨file, h, Stays.refl s⟩

/-- `sys_unlink` from the clearing of the entry on. -/
theorem unlinkEntry_spec (h : Inv L s file) (hdp : Live s dp) (hip : Live s ip)
    (hlockd : (s.icache dp).locked = true) (hlocki : (s.icache ip).locked = true)
    (hne : ip ≠ dp) {off : ℕ} (hoff : sizeofDirent ∣ off) (hpos : 0 < L.nino) :
    wp (unlinkEntry dp ip off) (fun _ s' => ∃ file', Inv L s' file') NotFreeing s := by
  unfold unlinkEntry
  rw [wp_bind]
  refine wp_mono (writeDirent_spec h hdp hoff (by rwa [get_zero])) ?_
  rintro r s₁ ⟨file₁, hinv₁, hstays₁⟩
  obtain ⟨hdp₁, hlockd₁, -⟩ := hstays₁ dp hdp hlockd
  obtain ⟨hip₁, hlocki₁, -⟩ := hstays₁ ip hip hlocki
  simp only [wp_bind, wp_panicIf, wp_inode]
  refine ⟨fun _ => by decide, fun _ => ?_⟩
  refine wp_mono (unlinkParent_spec hinv₁ hdp₁ _) ?_
  rintro _ s₂ ⟨file₂, hinv₂, hstays₂⟩
  obtain ⟨hip₂, hlocki₂, -⟩ := hstays₂ ip hip₁ hlocki₁
  refine wp_mono (iunlockput_spec hinv₂) ?_
  rintro _ s₃ ⟨file₃, hinv₃, hstays₃⟩
  obtain ⟨hip₃, hlocki₃, -⟩ := hstays₃ ip hne hip₂ hlocki₂
  have hnlink := nlink_spec hinv₃ hip₃ (fun din => { din with nlink := din.nlink - 1 })
    (fun _ => rfl) (fun _ => rfl) (fun _ => rfl)
  rw [wp_bind] at hnlink
  refine wp_mono hnlink fun _ s₄ hupdate => ?_
  refine wp_mono hupdate ?_
  rintro _ s₅ ⟨file₅, hinv₅, _⟩
  refine wp_mono (iunlockput_spec hinv₅) ?_
  rintro _ _ ⟨file₆, hinv₆, _⟩
  exact ⟨file₆, hinv₆⟩

/-- `sys_unlink` keeps the invariant on every path. -/
theorem unlink_spec (h : Inv L s file) (dp : InodePtr) (name : Bytes) :
    wp (unlink dp name) (fun _ s' => ∃ file', Inv L s' file') NotFreeing s := by
  unfold unlink
  rw [wp_bind]
  refine wp_mono (ilock_spec h) ?_
  rintro _ s₁ ⟨hinv₁, hdp₁, hlock₁, _, _, _⟩
  split_ifs with hdots
  · simp only [wp_bind, wp_pure]
    refine wp_mono (iunlockput_spec hinv₁) ?_
    rintro _ _ ⟨file', hinv', _⟩
    exact ⟨file', hinv'⟩
  rw [wp_bind]
  refine wp_mono (dirlookup_spec hinv₁ hdp₁ name) ?_
  rintro r s₂ ⟨hinv₂, hstays₂, _, hr⟩
  obtain ⟨hdp₂, hlock₂, -⟩ := hstays₂ dp hdp₁ hlock₁
  cases r with
  | none =>
    simp only [wp_bind, wp_pure]
    refine wp_mono (iunlockput_spec hinv₂) ?_
    rintro _ _ ⟨file', hinv', _⟩
    exact ⟨file', hinv'⟩
  | some r =>
    obtain ⟨ip, off⟩ := r
    have hoff := hr ip off rfl
    simp only [wp_bind, wp_inode, wp_panicIf]
    refine wp_mono (ilock_spec hinv₂) ?_
    rintro _ s₃ ⟨hinv₃, hip₃, hlocki₃, hfree, _, hstays₃⟩
    have hne : ip ≠ dp := by
      rintro rfl
      rw [hlock₂] at hfree
      exact absurd hfree (by decide)
    obtain ⟨hdp₃, hlockd₃, -⟩ := hstays₃ dp (Ne.symm hne) hdp₂ hlock₂
    refine ⟨fun _ => by decide, fun _ => ?_⟩
    refine wp_mono (nonemptyDir_spec hinv₃ hip₃) fun nonempty s₄ hs₄ => ?_
    subst hs₄
    split_ifs with hnonempty
    · simp only [wp_bind, wp_pure]
      refine wp_mono (iunlockput_spec hinv₃) ?_
      rintro _ s₅ ⟨file₅, hinv₅, _⟩
      refine wp_mono (iunlockput_spec hinv₅) ?_
      rintro _ _ ⟨file', hinv', _⟩
      exact ⟨file', hinv'⟩
    · have htable := hinv₃.base.table dp hdp₃.ref
      exact unlinkEntry_spec hinv₃ hdp₃ hip₃ hlockd₃ hlocki₃ hne hoff
        (lt_of_le_of_lt (Nat.zero_le _) htable.2)

/-- The operations of a run, each by a thread that holds the references it uses. -/
inductive Op
  /-- `ialloc` of a type. -/
  | ialloc (type : Int16)
  /-- `iget` of an inode number that an entry names. -/
  | iget (inum : ℕ)
  /-- `idup`. -/
  | idup (ip : InodePtr)
  /-- `iput`. -/
  | iput (ip : InodePtr)
  /-- The device numbers and the link count, as `create` and `sys_link` set them. -/
  | setLinks (ip : InodePtr) (major minor nlink : Int16)
  /-- `fileread`. -/
  | readi (ip : InodePtr) (off n : ℕ)
  /-- `filewrite` of one piece. -/
  | writei (ip : InodePtr) (src : Bytes) (off n : ℕ)
  /-- `dirlink` into a directory. -/
  | dirlink (dp : InodePtr) (name : Bytes) (inum : ℕ)
  /-- `sys_unlink` from a directory. -/
  | unlink (dp : InodePtr) (name : Bytes)

/-- `filewrite` of one piece; `sys_open` opens no directory for writing. -/
def filewritePiece (ip : InodePtr) (src : Bytes) (off n : ℕ) : FsM Unit := do
  ilock ip
  let i ← inode ip
  if i.din.type = tDir then iunlock ip
  else
    let _ ← writei ip src off n
    iunlock ip

/-- The code of an operation. -/
def Op.run : Op → FsM Unit
  | .ialloc type => do
    let _ ← Fs.ialloc type
  | .iget inum => do
    let _ ← Fs.iget inum
  | .idup ip => Fs.idup ip
  | .iput ip => Fs.iput ip
  | .setLinks ip major minor nlink => do
    ilock ip
    setInode ip fun i => { i with din := { i.din with major, minor, nlink } }
    iupdate ip
    iunlock ip
  | .readi ip off n => do
    ilock ip
    let _ ← Fs.readi ip off n
    iunlock ip
  | .writei ip src off n => filewritePiece ip src off n
  | .dirlink dp name inum => do
    ilock dp
    let _ ← Fs.dirlink dp name inum
    iunlock dp
  | .unlink dp name => do
    let _ ← Fs.unlink dp name

/-- What a caller of an operation sees to: references are held, types are those of
`stat.h`, and inode numbers are those of inodes. -/
def Op.Enabled (L : Layout) (s : State) : Op → Prop
  | .ialloc type => type = tDir ∨ type = tFile ∨ type = tDev
  | .iget inum => L.InTable inum
  | .idup ip => 0 < (s.icache ip).ref
  | .iput ip => 0 < (s.icache ip).ref
  | .setLinks ip _ _ _ => 0 < (s.icache ip).ref
  | .readi ip _ _ => 0 < (s.icache ip).ref
  | .writei ip _ _ _ => 0 < (s.icache ip).ref
  | .dirlink dp _ inum => 0 < (s.icache dp).ref ∧ L.InTable inum
  | .unlink dp _ => 0 < (s.icache dp).ref

instance (L : Layout) (s : State) : (op : Op) → Decidable (op.Enabled L s)
  | .ialloc _ => inferInstanceAs (Decidable (_ ∨ _))
  | .iget _ => inferInstanceAs (Decidable (L.InTable _))
  | .idup _ => inferInstanceAs (Decidable (_ < _))
  | .iput _ => inferInstanceAs (Decidable (_ < _))
  | .setLinks _ _ _ _ => inferInstanceAs (Decidable (_ < _))
  | .readi _ _ _ => inferInstanceAs (Decidable (_ < _))
  | .writei _ _ _ _ => inferInstanceAs (Decidable (_ < _))
  | .dirlink _ _ _ => inferInstanceAs (Decidable (_ ∧ _))
  | .unlink _ _ => inferInstanceAs (Decidable (_ < _))

/-- Every operation keeps the invariant and does not free a free block. -/
theorem Op.run_spec (h : Inv L s file) {op : Op} (hop : op.Enabled L s) :
    wp op.run (fun _ s' => ∃ file', Inv L s' file') NotFreeing s := by
  cases op with
  | ialloc type =>
    have htype : type ≠ 0 := by rcases hop with rfl | rfl | rfl <;> decide
    simp only [Op.run, wp_bind, wp_pure]
    refine wp_mono (ialloc_spec h htype) ?_
    rintro _ _ ⟨file', hinv', _⟩
    exact ⟨file', hinv'⟩
  | iget inum =>
    simp only [Op.run, wp_bind, wp_pure]
    exact wp_mono (iget_spec h hop) fun _ _ hinv => ⟨file, hinv.1⟩
  | idup ip =>
    simp only [Op.run, Fs.idup, wp_setInode]
    refine ⟨file, h.recache rfl rfl fun q hq => ?_⟩
    by_cases hqi : q = ip
    · subst hqi
      exact ⟨hop, by simp, fun hval => by simpa using hval⟩
    · simpa [Function.update_of_ne hqi] using hq
  | iput ip =>
    refine wp_mono (iput_spec h) ?_
    rintro _ _ ⟨file', hinv', _⟩
    exact ⟨file', hinv'⟩
  | setLinks ip major minor nlink =>
    unfold Op.run
    rw [wp_bind]
    refine wp_mono (ilock_spec h) ?_
    rintro _ s₁ ⟨hinv₁, hip₁, _⟩
    have hlinks := nlink_spec hinv₁ hip₁ (fun din => { din with major, minor, nlink })
      (fun _ => rfl) (fun _ => rfl) (fun _ => rfl)
    rw [wp_bind] at hlinks ⊢
    refine wp_mono hlinks fun _ s₂ hupdate => ?_
    rw [wp_bind]
    refine wp_mono hupdate ?_
    rintro _ s₃ ⟨file₃, hinv₃, _⟩
    exact wp_mono (iunlock_spec hinv₃) fun _ _ hinv => ⟨file₃, hinv.1⟩
  | readi ip off n =>
    unfold Op.run
    rw [wp_bind]
    refine wp_mono (ilock_spec h) ?_
    rintro _ s₁ ⟨hinv₁, hip₁, _⟩
    rw [wp_bind]
    refine wp_mono (readi_spec hinv₁.base hip₁ (hinv₁.files _) off n) ?_
    rintro _ s₂ ⟨hs₂, _⟩
    subst hs₂
    exact wp_mono (iunlock_spec hinv₁) fun _ _ hinv => ⟨file, hinv.1⟩
  | writei ip src off n =>
    unfold Op.run filewritePiece
    rw [wp_bind]
    refine wp_mono (ilock_spec h) ?_
    rintro _ s₁ ⟨hinv₁, hip₁, _⟩
    simp only [wp_bind, wp_inode]
    split_ifs with hdir
    · exact wp_mono (iunlock_spec hinv₁) fun _ _ hinv => ⟨file, hinv.1⟩
    · rw [hinv₁.base.din ip hip₁.ref hip₁.valid] at hdir
      rw [wp_bind]
      refine wp_mono (writei_spec hinv₁ hip₁ fun hd => absurd hd hdir) ?_
      rintro _ s₂ ⟨file₂, hinv₂, _⟩
      exact wp_mono (iunlock_spec hinv₂) fun _ _ hinv => ⟨file₂, hinv.1⟩
  | dirlink dp name inum =>
    unfold Op.run
    rw [wp_bind]
    refine wp_mono (ilock_spec h) ?_
    rintro _ s₁ ⟨hinv₁, hip₁, hlock₁, _⟩
    rw [wp_bind]
    refine wp_mono (dirlink_spec hinv₁ hip₁ hlock₁ name hop.2) ?_
    rintro _ s₂ ⟨file₂, hinv₂, _⟩
    exact wp_mono (iunlock_spec hinv₂) fun _ _ hinv => ⟨file₂, hinv.1⟩
  | unlink dp name =>
    simp only [Op.run, wp_bind, wp_pure]
    exact unlink_spec h dp name

/-- A consistent image in which every block below the size of an inode is allocated. -/
structure Image (L : Layout) (disk : Disk) : Prop where
  /-- Block 1 holds the superblock. -/
  superblock : getSuperblock (disk 1) = L.sb
  /-- The metadata blocks are marked as used. -/
  reserved : ∀ b < L.dataStart, (L.view disk).bit b = true
  /-- The data blocks have one owner, and the free map marks those that are owned. -/
  owned : OneOwner (addrMap (L.view disk).dinode (L.view disk).block) (L.view disk).bit L.IsData
  /-- Every block below the size of an inode is allocated. -/
  covered : ∀ i, ((L.view disk).dinode i).type ≠ 0 → ∀ bn,
    bn * bsize < ((L.view disk).dinode i).size.toNat →
      fileBlock (L.view disk).dinode (L.view disk).block i bn ≠ 0
  /-- The entries of directories name inodes of the table. -/
  entries : ∀ i, ((L.view disk).dinode i).type = tDir → ∀ off, sizeofDirent ∣ off →
    off + sizeofDirent ≤ ((L.view disk).dinode i).size.toNat →
      get (fun k => fileByte (L.view disk).dinode (L.view disk).block i (off + k)) 0 2 < L.nino

/-- The inode cache after `iinit`. -/
def bootCache : InodePtr → Inode := fun _ => ⟨0, 0, false, false, Dinode.zero⟩

/-- The state after `iinit` on a disk. -/
def boot (disk : Disk) (devsw : Fin ndev → Devsw) : State :=
  ⟨getSuperblock (disk 1), disk, bootCache, devsw, []⟩

theorem inv_boot {disk : Disk} (h : Image L disk) (devsw : Fin ndev → Devsw) :
    Inv L (boot disk devsw) (L.view disk).dinode := by
  have hnone (q : InodePtr) : ¬ 0 < ((boot disk devsw).icache q).ref := by
    simp [boot, bootCache]
  exact ⟨⟨h.superblock, h.superblock, fun q hq => absurd hq (hnone q),
    fun q _ hq _ => absurd hq (hnone q), fun q hq => absurd hq (hnone q),
    fun q hq => absurd hq (hnone q), h.reserved, h.owned⟩,
    fun i => ⟨rfl, h.covered i, h.entries i⟩⟩

/-- One operation; an operation that halts has no next state. -/
def opStep (L : Layout) (s : State) (op : Op) : Option State :=
  if op.Enabled L s then
    match op.run s with
    | .ok (_, s') => some s'
    | .error _ => none
  else none

theorem inv_run {disk : Disk} (h : Image L disk) {devsw : Fin ndev → Devsw} {trace : List Op}
    (hrun : Run (opStep L) free (boot disk devsw) trace s) :
    ∃ file, Inv L s file := by
  refine hrun.invariant (I := fun _ s => ∃ file, Inv L s file) ⟨_, inv_boot h devsw⟩ ?_
  rintro trace s op s' ⟨file, hinv⟩ - hstep
  unfold opStep at hstep
  split_ifs at hstep with hop
  cases hrun : op.run s with
  | error halt => simp [hrun] at hstep
  | ok r =>
    simp only [hrun, Option.some.injEq] at hstep
    subst hstep
    exact wp_ok (Op.run_spec hinv hop) (show op.run s = .ok (r.1, r.2) from hrun)

/-- Disk blocks have one owner. -/
structure BlocksOwned (L : Layout) (s : State) : Prop where
  /-- A data block occurs at most once among the addresses of allocated inodes. -/
  once : ∀ i p i' p', addrMap (L.view s.disk).dinode (L.view s.disk).block (i, p) ≠ 0 →
    addrMap (L.view s.disk).dinode (L.view s.disk).block (i, p) =
      addrMap (L.view s.disk).dinode (L.view s.disk).block (i', p') → i = i' ∧ p = p'
  /-- Only data blocks occur. -/
  data : ∀ p, addrMap (L.view s.disk).dinode (L.view s.disk).block p ≠ 0 →
    L.IsData (addrMap (L.view s.disk).dinode (L.view s.disk).block p)
  /-- The bit of a data block is set exactly when the block occurs. -/
  bitmap : ∀ b, L.IsData b → ((L.view s.disk).bit b = true ↔
    ∃ p, addrMap (L.view s.disk).dinode (L.view s.disk).block p = b)
  /-- `balloc` hands out data blocks. -/
  balloc : ∀ b s', Fs.balloc s = .ok (b, s') → L.IsData b
  /-- The inode on the disk is its valid copy. -/
  copies : ∀ ip, 0 < (s.icache ip).ref → (s.icache ip).valid = true →
    (L.view s.disk).dinode (s.icache ip).inum = (s.icache ip).din
  /-- `bfree` does not reach its panic. -/
  bfree : ∀ op : Op, op.Enabled L s → op.run s ≠ .error .freeingFreeBlock

/-- In every state between the operations of a run from a consistent image, the disk blocks
have one owner, and no operation frees a free block. -/
theorem blocks_one_owner {disk : Disk} (h : Image L disk) {devsw : Fin ndev → Devsw}
    {trace : List Op} (hrun : Run (opStep L) free (boot disk devsw) trace s) :
    BlocksOwned L s := by
  obtain ⟨file, hinv⟩ := inv_run h hrun
  have hfile : file = (L.view s.disk).dinode := by
    funext i
    exact (hinv.files i).synced.symm
  subst hfile
  have hbase := hinv.base
  refine ⟨fun i p i' p' hne heq => ?_, hbase.owned.held, hbase.owned.used_iff,
    fun b s' hballoc => (wp_ok (balloc_spec hbase) hballoc).1,
    fun ip href hval => (hbase.din ip href hval).symm, fun op hop herror => ?_⟩
  · have hkey := hbase.owned.inj _ _ heq hne
    exact ⟨congrArg Prod.fst hkey, congrArg Prod.snd hkey⟩
  · exact wp_error (Op.run_spec hinv hop) herror rfl

/-- A superblock of a small disk with eight data blocks. -/
def smallSuperblock : Superblock := ⟨16, 8, 8, 2, 2, 4, 5⟩

/-- The layout of the small disk. -/
def smallLayout : Layout where
  sb := smallSuperblock
  nino := 8
  one_lt_inodestart := by decide
  inodestart_le := by decide
  ninodes_le := by decide
  nino_le := by decide
  freeMap_lt := by decide
  size_lt := by decide

/-- The small disk without files: block 1 holds the superblock, block 5 the free map. -/
def smallDisk : Disk
  | 1 => fun k => if k % 4 = 0 then [16, 8, 8, 2, 2, 4, 5].getD (k / 4) 0 else 0
  | 5 => fun k => if k = 0 then 255 else 0
  | _ => fun _ => 0

theorem smallDisk_image : Image smallLayout smallDisk := by
  have hdinode (i : ℕ) : (smallLayout.view smallDisk).dinode i = Dinode.zero := by
    simp only [Layout.view]
    split_ifs with hi
    · have hblock : smallLayout.sb.iblock i = 4 := by
        have := hi.2
        unfold Superblock.iblock smallLayout smallSuperblock ipb at *
        dsimp only at *
        omega
      rw [hblock]
      exact getDinode_zero _
    · rfl
  have haddr (p : ℕ × Slot) : addrMap (smallLayout.view smallDisk).dinode
      (smallLayout.view smallDisk).block p = 0 := by
    simp [addrMap, hdinode, Dinode.zero]
  refine ⟨by decide, ?_, ⟨by decide, fun p hp => absurd (haddr p) hp,
    fun p p' _ hp => absurd (haddr p) hp, fun b hb => ?_⟩, fun i hi => ?_, fun i hi => ?_⟩
  · decide
  · have hzero : b ≠ 0 := by rintro rfl; exact absurd hb (by decide)
    have hbit : (smallLayout.view smallDisk).bit b = false := by
      obtain ⟨hlo, hhi⟩ := hb
      have hlo' : 8 ≤ b := hlo
      have hhi' : b < 16 := hhi
      interval_cases b <;> decide
    simp [haddr, hbit, hzero.symm]
  · exact absurd (by rw [hdinode]; rfl) hi
  · rw [hdinode] at hi
    exact absurd hi (by decide)

/-- A file of two blocks is written and given up again. -/
def writeAndFree : List Op :=
  [.ialloc tFile, .writei 0 (fun _ => 7) 0 600, .readi 0 0 600, .iput 0, .ialloc tDir]

theorem blocks_one_owner_writeAndFree :
    ∃ s, Run (opStep smallLayout) free (boot smallDisk fun _ => ⟨none, none⟩)
      writeAndFree.reverse s ∧ BlocksOwned smallLayout s := by
  have hexec : (exec (opStep smallLayout) free [] (boot smallDisk fun _ => ⟨none, none⟩)
      writeAndFree).isSome = true := by decide +kernel
  obtain ⟨s, hs⟩ := Option.isSome_iff_exists.mp hexec
  exact ⟨s, run_of_exec hs, blocks_one_owner smallDisk_image (run_of_exec hs)⟩

end Xv6.Fs
