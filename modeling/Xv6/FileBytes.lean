import Xv6.FreeBlocks
import Xv6.BlockOwners

/-!
# A file is an array of bytes

What `readi` and `writei` do to the bytes of a file, for every offset and every number of
bytes: reading returns the bytes that there are, writing replaces and appends. Blocks that
are missing are allocated on the way.
-/

namespace Xv6.Fs

open LittleEndian StateProg GuardedRun

/-- The first bytes of a buffer. -/
def firstBytes (src : Bytes) (n : ℕ) : List UInt8 := (List.range n).map src

/-- The bytes `c` after the writing of `data` at an offset of them or behind the last one. -/
def splice (c : List UInt8) (off : ℕ) (data : List UInt8) : List UInt8 :=
  c.take off ++ data ++ c.drop (off + data.length)

@[simp] theorem length_firstBytes (src : Bytes) (n : ℕ) : (firstBytes src n).length = n := by
  simp [firstBytes]

theorem length_splice {c : List UInt8} {off : ℕ} (data : List UInt8) (hoff : off ≤ c.length) :
    (splice c off data).length = max c.length (off + data.length) := by
  simp only [splice, List.length_append, List.length_take, List.length_drop]
  omega

theorem getElem?_firstBytes (src : Bytes) (n k : ℕ) :
    (firstBytes src n)[k]? = if k < n then some (src k) else none := by
  rw [firstBytes, List.getElem?_map]
  split_ifs with hk
  · rw [List.getElem?_range hk, Option.map_some]
  · rw [List.getElem?_eq_none (by simpa using hk), Option.map_none]

/-- Writing into a buffer. -/
theorem splice_firstBytes {src data data' : Bytes} {off n size : ℕ} (hoff : off ≤ size)
    (hdata : ∀ k < max size (off + n),
      data' k = if off ≤ k ∧ k < off + n then src (k - off) else data k) :
    firstBytes data' (max size (off + n)) =
      splice (firstBytes data size) off (firstBytes src n) := by
  apply List.ext_getElem?
  intro k
  rw [splice, getElem?_firstBytes, length_firstBytes, List.append_assoc, List.getElem?_append,
    List.getElem?_append, List.getElem?_take, List.getElem?_drop, List.length_take,
    length_firstBytes, length_firstBytes, Nat.min_eq_left hoff]
  simp only [getElem?_firstBytes]
  by_cases hlo : k < off
  · rw [if_pos (by omega), if_pos hlo, if_pos hlo, if_pos (by omega), hdata k (by omega),
      if_neg (by omega)]
  rw [if_neg hlo]
  by_cases hhi : k < off + n
  · rw [if_pos (by omega), if_pos (by omega), if_pos (by omega), hdata k (by omega),
      if_pos (by omega)]
  · rw [if_neg (by omega : ¬ k - off < n)]
    have hk : off + n + (k - off - n) = k := by omega
    rw [hk]
    by_cases hsize : k < size
    · rw [if_pos (by omega), if_pos hsize, hdata k (by omega), if_neg (by omega)]
    · rw [if_neg (by omega), if_neg hsize]

/-- Reading from a buffer. -/
theorem firstBytes_drop_take {data dst : Bytes} {off n size : ℕ} (hend : off + n ≤ size)
    (hdst : ∀ k < n, dst k = data (off + k)) :
    firstBytes dst n = ((firstBytes data size).drop off).take n := by
  apply List.ext_getElem?
  intro k
  rw [List.getElem?_take, List.getElem?_drop, getElem?_firstBytes, getElem?_firstBytes]
  by_cases hk : k < n
  · rw [if_pos hk, if_pos hk, if_pos (by omega), hdst k hk]
  · rw [if_neg hk, if_neg hk]

/-- An inode holds the bytes `c`. -/
structure Represents (L : Layout) (s : State) (file : ℕ → Dinode) (i : ℕ) (c : List UInt8) :
    Prop where
  /-- It is on the disk as it counts. -/
  synced : (L.view s.disk).dinode i = file i
  /-- Every block below its size is allocated. -/
  covered : ∀ bn, bn * bsize < (file i).size.toNat →
    fileBlock file (L.view s.disk).block i bn ≠ 0
  /-- The bytes below its size. -/
  bytes : firstBytes (fileByte file (L.view s.disk).block i) (file i).size.toNat = c

variable {L : Layout} {s s' : State} {file file' : ℕ → Dinode} {i : ℕ} {ip : InodePtr}
  {c : List UInt8}

theorem Represents.length (h : Represents L s file i c) : c.length = (file i).size.toNat := by
  rw [← h.bytes, length_firstBytes]

/-- The bytes of an inode that nothing touches. -/
theorem Represents.keep (h : Represents L s file i c) (hkeep : Keeps L s s' file file' i) :
    Represents L s' file' i c where
  synced := by rw [hkeep.dinode, h.synced, hkeep.same]
  covered bn hbn := by
    rw [hkeep.same] at hbn
    rw [hkeep.fileBlock_eq]
    exact h.covered bn hbn
  bytes := by
    rw [← h.bytes, hkeep.same, firstBytes, firstBytes, List.map_inj_left]
    intro k hk
    have hlt := List.mem_range.mp hk
    have hle := Nat.div_mul_le_self k bsize
    exact hkeep.fileByte_eq (h.covered _ (by omega))

/-- The bytes of an inode are a matter of the inode and of its blocks. -/
theorem Represents.of_same {file₁ : ℕ → Dinode} {s₁ : State}
    (hsynced : (L.view s'.disk).dinode i = file' i)
    (hblock : (L.view s'.disk).block = (L.view s₁.disk).block)
    (haddr : addrMap file' (L.view s'.disk).block = addrMap file₁ (L.view s₁.disk).block)
    (hcovered : ∀ bn, bn * bsize < (file' i).size.toNat →
      fileBlock file₁ (L.view s₁.disk).block i bn ≠ 0)
    (hbytes : firstBytes (fileByte file₁ (L.view s₁.disk).block i) (file' i).size.toNat = c) :
    Represents L s' file' i c := by
  have hfileBlock (bn : ℕ) : fileBlock file' (L.view s'.disk).block i bn =
      fileBlock file₁ (L.view s₁.disk).block i bn := by
    unfold fileBlock
    rw [haddr]
  refine ⟨hsynced, fun bn hbn => ?_, ?_⟩
  · rw [hfileBlock]
    exact hcovered bn hbn
  · rw [← hbytes, firstBytes, firstBytes, List.map_inj_left]
    intro k _
    rw [fileByte, fileByte, hfileBlock, hblock]

/-- A file has no byte behind its last block. -/
theorem Represents.length_le (h : Represents L s file i c) : c.length ≤ maxFile * bsize := by
  rw [h.length]
  by_contra hlt
  have hblock := h.covered maxFile (by omega)
  exact hblock (dif_neg (lt_irrefl _))

/-- The bytes after the loop of `writei`. -/
theorem Represents.written {off n : ℕ} {src : Bytes} {file₁ : ℕ → Dinode} {s₁ : State}
    (h : Represents L s file (s.icache ip).inum c) (hoff : off ≤ c.length)
    (hwrites : Writes L ip s s₁ file file₁ off (off + n) src) :
    firstBytes (fileByte file₁ (L.view s₁.disk).block (s.icache ip).inum)
        (max (file (s.icache ip).inum).size.toNat (off + n)) =
      splice c off (firstBytes src n) := by
  rw [h.length] at hoff
  rw [← h.bytes]
  refine splice_firstBytes hoff fun k hk => ?_
  have hle := Nat.div_mul_le_self k bsize
  by_cases hblock : fileBlock file (L.view s.disk).block (s.icache ip).inum (k / bsize) = 0
  · -- a block that was missing lies behind the old end, so that its bytes have been written
    have hbehind : (file (s.icache ip).inum).size.toNat ≤ k := by
      by_contra hlt
      exact h.covered (k / bsize) (by omega) hblock
    have hrange : off ≤ k ∧ k < off + n := by omega
    rw [hwrites.fresh k hblock (hwrites.covered k hrange.1 hrange.2), if_pos hrange,
      if_pos hrange]
  · exact hwrites.bytes k hblock

/-- The inode behind a pointer has been written to and holds the bytes `c` now; nothing else
has changed. -/
structure Wrote (L : Layout) (ip : InodePtr) (s s' : State) (file file' : ℕ → Dinode)
    (c : List UInt8) : Prop where
  /-- The owners of the blocks and the cache. -/
  base : Base L s' file'
  /-- The cache changes in the disk fields of this inode only. -/
  cache : s'.icache = setDin s ip (file' (s.icache ip).inum)
  /-- Its type. -/
  type : (file' (s.icache ip).inum).type = (file (s.icache ip).inum).type
  /-- Its bytes. -/
  represents : Represents L s' file' (s.icache ip).inum c
  /-- The other inodes. -/
  keeps : ∀ j ≠ (s.icache ip).inum, Keeps L s s' file file' j

/-- The range of bytes can be written to a file of these bytes. -/
def Writable (c : List UInt8) (off n : ℕ) : Prop :=
  off ≤ c.length ∧ off + n ≤ maxFile * bsize

instance (c : List UInt8) (off n : ℕ) : Decidable (Writable c off n) :=
  inferInstanceAs (Decidable (_ ∧ _))

/-- The checks of `writei` on a file that is not a device. -/
theorem writei_checks (h : Base L s file) (hip : Live s ip)
    (hdev : (file (s.icache ip).inum).type ≠ tDev)
    (hc : Represents L s file (s.icache ip).inum c) (src : Bytes) {off n : ℕ}
    (hoff : off < 2 ^ 32) (hn : n < 2 ^ 32) :
    writei ip src off n s = if Writable c off n then
      (do
        let off ← writeiLoop ip src n n 0 off
        writeiSize ip off n
        return (n : ℤ)) s
    else .ok (-1, s) := by
  have hdin := h.din ip hip.ref hip.valid
  have hdev' : (s.icache ip).din.type ≠ tDev := by rwa [hdin]
  have hlength : c.length = (s.icache ip).din.size.toNat := by rw [hc.length, hdin]
  have hle := hc.length_le
  have hstart : writei ip src off n s = (if off > (s.icache ip).din.size.toNat ∨
      (off + n) % 2 ^ 32 < off then return -1
    else if off + n > maxFile * bsize then return -1
    else do
      let off ← writeiLoop ip src n n 0 off
      writeiSize ip off n
      return (n : ℤ) : FsM ℤ) s := by
    unfold writei
    change (if (s.icache ip).din.type = tDev then _ else _ : FsM ℤ) s = _
    rw [if_neg hdev']
  rw [hstart]
  have hbound : maxFile * bsize < 2 ^ 32 := by decide
  by_cases hfits : Writable c off n
  · rw [if_pos hfits]
    obtain ⟨hbegin, hend⟩ := hfits
    rw [if_neg (by omega), if_neg (by omega)]
  · rw [if_neg hfits]
    by_cases hbad : off > (s.icache ip).din.size.toNat ∨ (off + n) % 2 ^ 32 < off
    · rw [if_pos hbad]
      rfl
    · have hend : off + n > maxFile * bsize := by
        by_contra hend
        exact hfits ⟨by omega, by omega⟩
      rw [if_neg hbad, if_pos hend]
      rfl

/-- `writei` of a range that can be written replaces the bytes of the range. -/
theorem writei_wrote (h : Base L s file) (hip : Live s ip)
    (hdev : (file (s.icache ip).inum).type ≠ tDev)
    (hc : Represents L s file (s.icache ip).inum c) (src : Bytes) {off n : ℕ}
    (hfits : Writable c off n) :
    wp (writei ip src off n) (fun r s' => r = n ∧ ∃ file', Wrote L ip s s' file file'
      (splice c off (firstBytes src n))) NotFreeing s := by
  obtain ⟨hoff, hmax⟩ := hfits
  have hbound : maxFile * bsize < 2 ^ 32 := by decide
  rw [wp_congr ((writei_checks h hip hdev hc src (by omega) (by omega)).trans
    (if_pos ⟨hoff, hmax⟩)), wp_bind]
  have hsize := hc.length
  refine wp_mono (writeiLoop_spec h hip (file (s.icache ip).inum).size.toNat (Nat.zero_le _)
    (fun bn hbn => hc.covered bn (by omega)) le_rfl) ?_
  rintro off' s₁ ⟨hoff', file₁, hbase₁, hwrites, hcovered, hgrow⟩
  rw [Nat.sub_zero] at hoff'
  subst hoff'
  simp only [Nat.zero_add] at hwrites
  have hbytes := hc.written hoff hwrites
  obtain ⟨hlive₁, hinum₁⟩ := hwrites.live hip
  have hdin₁ := hbase₁.din ip hlive₁.ref hlive₁.valid
  rw [hinum₁] at hdin₁
  unfold writeiSize
  simp only [wp_bind, wp_inode, hdin₁, hwrites.size]
  by_cases hgrown : 0 < n ∧ off + n > (file (s.icache ip).inum).size.toNat
  · rw [if_pos hgrown]
    refine wp_mono (store_spec hbase₁ hlive₁
      (fun din => { din with size := UInt32.ofNat (off + n) }) (fun _ => rfl) (fun _ => rfl))
      fun _ s' hstore => ?_
    obtain ⟨file', hfile, hbase, hkeep, hsynced, hcache, hblock, haddr⟩ := hstore
    rw [hinum₁] at hfile hkeep hsynced hcache
    rw [wp_pure]
    have hself : file' (s.icache ip).inum = { file₁ (s.icache ip).inum with
        size := UInt32.ofNat (off + n) } := by
      rw [hfile, Function.update_self]
    have hnew : (file' (s.icache ip).inum).size.toNat =
        max (file (s.icache ip).inum).size.toNat (off + n) := by
      rw [hself]
      simp only [UInt32.toNat_ofNat_of_lt' (show off + n < 2 ^ 32 by omega)]
      omega
    refine ⟨rfl, file', hbase, ?_, ?_, ?_, fun j hj => (hwrites.keeps j hj).trans (hkeep j hj)⟩
    · rw [hcache, setDin, hwrites.cache]
      simp [setDin]
    · rw [hself, hwrites.type]
    · rw [← hnew] at hcovered hbytes
      exact .of_same hsynced hblock haddr hcovered hbytes
  · rw [if_neg hgrown, wp_pure, wp_pure]
    have hfile₁ : file₁ = file := hgrow (by omega)
    subst hfile₁
    have hend : max (file₁ (s.icache ip).inum).size.toNat (off + n) =
        (file₁ (s.icache ip).inum).size.toNat := by omega
    rw [hend] at hcovered hbytes
    exact ⟨rfl, file₁, hbase₁, hwrites.cache, rfl,
      .of_same (by rw [hwrites.dinode, hc.synced]) rfl rfl hcovered hbytes, hwrites.keeps⟩

/-- The new size of an inode changes no address; the log sees the block of the inode. -/
theorem writeiSize_grows (h : Base L s file) (hip : Live s ip) (off n : ℕ)
    (places : Finset Slot) :
    wp (writeiSize ip off n) (fun _ s' => Grows L ip s s' places) (fun _ => False) s := by
  unfold writeiSize
  simp only [wp_bind, wp_inode]
  split_ifs with hgrown
  · simp only [wp_bind, wp_setInode]
    generalize hs₁ : ({ s with icache := Function.update s.icache ip { s.icache ip with
      din := { (s.icache ip).din with size := UInt32.ofNat off } } } : State) = s₁
    have hsb : s₁.sb = L.sb := by rw [← hs₁, h.sb]
    have hinum : (s₁.icache ip).inum = (s.icache ip).inum := by
      rw [← hs₁]
      simp
    have htable : L.InTable (s₁.icache ip).inum := by
      rw [hinum]
      exact h.table ip hip.ref
    unfold iupdate
    simp only [wp_bind, wp_get, wp_inode, wp_bread, wp_logWrite, hsb]
    have hview := @Layout.view_putDinode L s₁.disk _ htable (s₁.icache ip).din
    generalize hs₂ : ({ s₁ with
      sb := L.sb
      disk := Function.update s₁.disk (L.sb.iblock (s₁.icache ip).inum)
        (putDinode (s₁.disk (L.sb.iblock (s₁.icache ip).inum))
          ((s₁.icache ip).inum % ipb * sizeofDinode) (s₁.icache ip).din)
      calls := .logWrite (L.sb.iblock (s₁.icache ip).inum) :: s₁.calls } : State) = s₂
    have hview₂ : L.view s₂.disk = { L.view s.disk with dinode := (L.view s₂.disk).dinode } := by
      rw [← hs₂, hview, ← hs₁]
    have hslot (p : Slot) : slotAt L s₂ ip p = slotAt L s ip p := by
      unfold slotAt
      rw [hview₂, ← hs₂, ← hs₁]
      exact slotAddr_congr (by simp) p
    have hfree : freeBlocks L s₂ = freeBlocks L s := by
      unfold freeBlocks
      rw [hview₂]
    have hmissing : missing L s₂ ip places = missing L s ip places := by
      simp only [missing, hslot]
    refine ⟨by rw [← hs₂, hinum], by rw [hfree, hmissing], fun p _ => hslot p,
      [L.sb.iblock (s₁.icache ip).inum], by rw [← hs₂, ← hs₁]; rfl, ?_⟩
    intro b hb
    rw [List.mem_singleton] at hb
    rw [hb, hinum]
    exact .inl rfl
  · exact Grows.refl

/-- `writei` of a range that can be written fails only if the free blocks do not suffice. -/
theorem writei_grows (h : Base L s file) (hip : Live s ip)
    (hdev : (file (s.icache ip).inum).type ≠ tDev)
    (hc : Represents L s file (s.icache ip).inum c) (src : Bytes) {off n : ℕ}
    (hfits : Writable c off n) {places : Finset Slot}
    (hplaces : 0 < n → ∀ bn, off / bsize ≤ bn → bn * bsize < off + n → Covers places bn) :
    wp (writei ip src off n) (fun _ s' => Grows L ip s s' places)
      (OutOfBlocks L s ip places) s := by
  obtain ⟨hoff, hmax⟩ := hfits
  have hbound : maxFile * bsize < 2 ^ 32 := by decide
  rw [wp_congr ((writei_checks h hip hdev hc src (by omega) (by omega)).trans
    (if_pos ⟨hoff, hmax⟩)), wp_bind]
  have hsize := hc.length
  refine wp_weaken (wp_and (writeiLoop_grows h hip (by rwa [Nat.sub_zero]) hplaces)
    (writeiLoop_spec h hip (file (s.icache ip).inum).size.toNat (Nat.zero_le _)
      (fun bn hbn => hc.covered bn (by omega)) le_rfl)) ?_ fun halt hfail => hfail.1
  rintro off' s₁ ⟨hgrows, -, file₁, hbase₁, hwrites, -, -⟩
  obtain ⟨hlive₁, -⟩ := hwrites.live hip
  rw [wp_bind]
  refine wp_weaken (writeiSize_grows hbase₁ hlive₁ off' n places) ?_ fun _ hfail => hfail.elim
  intro _ s' hgrows'
  exact hgrows.trans hgrows'

/-- `readi` on a file that is not a device returns the bytes that there are, or -1 for an offset
behind the end and for a range that wraps around. -/
theorem readi_bytes (h : Base L s file) (hip : Live s ip)
    (hdev : (file (s.icache ip).inum).type ≠ tDev)
    (hc : Represents L s file (s.icache ip).inum c) {off n : ℕ} (hn : n < 2 ^ 32) :
    if c.length < off ∨ 2 ^ 32 ≤ off + n then
      ∃ dst, readi ip off n s = .ok ((-1, dst), s)
    else ∃ dst, readi ip off n s = .ok ((((c.drop off).take n).length, dst), s) ∧
      firstBytes dst ((c.drop off).take n).length = (c.drop off).take n := by
  have hdin := h.din ip hip.ref hip.valid
  have hdev' : (s.icache ip).din.type ≠ tDev := by rwa [hdin]
  have hlength := hc.length
  have hle := hc.length_le
  have hbound : maxFile * bsize < 2 ^ 32 := by decide
  have hstart : readi ip off n s = (if off > (s.icache ip).din.size.toNat ∨
      (off + n) % 2 ^ 32 < off then return (-1, fun _ => 0)
    else do
      let n := if off + n > (s.icache ip).din.size.toNat then
        (s.icache ip).din.size.toNat - off else n
      let dst ← readiLoop ip n n 0 off fun _ => 0
      return ((n : ℤ), dst) : FsM (ℤ × Bytes)) s := by
    unfold readi
    change (if (s.icache ip).din.type = tDev then _ else _ : FsM (ℤ × Bytes)) s = _
    rw [if_neg hdev']
  rw [hstart, hdin, ← hlength]
  by_cases hbad : c.length < off ∨ 2 ^ 32 ≤ off + n
  · rw [if_pos hbad, if_pos (by omega)]
    exact ⟨_, rfl⟩
  rw [if_neg hbad, if_neg (by omega)]
  have hm : (if off + n > c.length then c.length - off else n) =
      ((c.drop off).take n).length := by
    rw [List.length_take, List.length_drop]
    split_ifs <;> omega
  simp only [hm]
  have hm' : ((c.drop off).take n).length ≤ c.length - off := by
    rw [List.length_take, List.length_drop]
    omega
  have hcovered (bn : ℕ) (hbn : bn * bsize < off + (((c.drop off).take n).length - 0)) :
      fileBlock file (L.view s.disk).block (s.icache ip).inum bn ≠ 0 := by
    refine hc.covered bn ?_
    omega
  have hspec : wp (readiLoop ip ((c.drop off).take n).length ((c.drop off).take n).length 0 off
      fun _ => 0) (fun dst s' => s' = s ∧ ∀ k < ((c.drop off).take n).length, dst k =
        fileByte file (L.view s.disk).block (s.icache ip).inum (off + k)) (fun _ => False) s := by
    refine wp_weaken (wp_and (readiLoop_spec h hip hcovered le_rfl)
      (readiLoop_total h hip hcovered)) ?_ fun _ hfail => hfail.2
    rintro dst s' ⟨⟨hs', hdst⟩, -⟩
    refine ⟨hs', fun k hk => ?_⟩
    rw [hdst, if_pos ⟨Nat.zero_le _, hk⟩, Nat.sub_zero]
  obtain ⟨dst, s', hrun, hs', hdst⟩ := exists_ok hspec
  subst hs'
  refine ⟨dst, ?_, ?_⟩
  · change (readiLoop ip _ _ 0 off _ s' >>= fun r => pure ((_, r.1), r.2) :
      Except Halt ((ℤ × Bytes) × State)) = _
    rw [hrun]
    rfl
  · have hbytes := hc.bytes
    rw [← hlength] at hbytes
    have hread : firstBytes dst ((c.drop off).take n).length =
        ((firstBytes (fileByte file (L.view s'.disk).block (s'.icache ip).inum) c.length).drop
          off).take ((c.drop off).take n).length := by
      apply firstBytes_drop_take
      · omega
      · exact hdst
    rw [hread, hbytes]
    simp

/-- A file is an array of bytes: writing to a range of a file that is not a device replaces the
bytes of the range and returns their number, and a range that the file cannot hold is refused
without a change; reading returns the bytes of the range that there are; the other inodes keep
their bytes. -/
theorem file_is_byte_array (h : Base L s file) (hip : Live s ip)
    (hdev : (file (s.icache ip).inum).type ≠ tDev)
    (hc : Represents L s file (s.icache ip).inum c) (off n : UInt32) :
    (∀ src, if Writable c off.toNat n.toNat then
      Enough L s ip (touched off.toNat n.toNat) →
        ∃ s' file', writei ip src off.toNat n.toNat s = .ok (n.toNat, s') ∧ Base L s' file' ∧
          s'.icache = setDin s ip (file' (s.icache ip).inum) ∧
          Represents L s' file' (s.icache ip).inum
            (splice c off.toNat (firstBytes src n.toNat)) ∧
          ∀ j ≠ (s.icache ip).inum, ∀ c', Represents L s file j c' →
            Represents L s' file' j c'
      else writei ip src off.toNat n.toNat s = .ok (-1, s)) ∧
    if c.length < off.toNat ∨ 2 ^ 32 ≤ off.toNat + n.toNat then
      ∃ dst, readi ip off.toNat n.toNat s = .ok ((-1, dst), s)
    else ∃ dst, readi ip off.toNat n.toNat s =
        .ok ((((c.drop off.toNat).take n.toNat).length, dst), s) ∧
      firstBytes dst ((c.drop off.toNat).take n.toNat).length =
        (c.drop off.toNat).take n.toNat := by
  refine ⟨fun src => ?_, readi_bytes h hip hdev hc n.toNat_lt⟩
  by_cases hfits : Writable c off.toNat n.toNat
  · rw [if_pos hfits]
    intro henough
    obtain ⟨r, s', hrun, -, hr, file', hwrote⟩ := exists_ok (wp_weaken
      (wp_and (writei_grows h hip hdev hc src hfits fun hn _ => covers_touched hn)
        (writei_wrote h hip hdev hc src hfits)) (fun _ _ hpost => hpost)
      fun halt hfail => hfail.1.2 henough)
    subst hr
    exact ⟨s', file', hrun, hwrote.base, hwrote.cache, hwrote.represents,
      fun j hj c' hc' => hc'.keep (hwrote.keeps j hj)⟩
  · rw [if_neg hfits, writei_checks h hip hdev hc src off.toNat_lt n.toNat_lt, if_neg hfits]

/-- A file of the small disk, just created and locked. -/
def smallFile : Except Halt (InodePtr × State) :=
  (do
    let ip ← ialloc tFile
    ilock ip
    return ip : FsM InodePtr) (boot smallDisk fun _ => ⟨none, none⟩)

/-- The small file is empty. -/
theorem smallFile_spec : ∃ s file ip, smallFile = .ok (ip, s) ∧ Inv smallLayout s file ∧
    Live s ip ∧ (file (s.icache ip).inum).type = tFile ∧ (s.icache ip).inum = 1 ∧
    Represents smallLayout s file (s.icache ip).inum [] := by
  have hinv := inv_boot smallDisk_image fun _ => ⟨none, none⟩
  have hspec : wp (do
      let ip ← ialloc tFile
      ilock ip
      return ip) (fun ip s' => ∃ file, Inv smallLayout s' file ∧ Live s' ip) NotFreeing
      (boot smallDisk fun _ => ⟨none, none⟩) := by
    rw [wp_bind]
    refine wp_mono (ialloc_spec hinv (by decide)) ?_
    rintro ip s₁ ⟨file₁, hinv₁, -⟩
    simp only [wp_bind, wp_pure]
    refine wp_mono (ilock_spec hinv₁) ?_
    rintro _ s₂ ⟨hinv₂, hip₂, -⟩
    exact ⟨file₁, hinv₂, hip₂⟩
  have hexec : (smallFile.toOption.map fun r => ((r.2.icache r.1).inum, (r.2.icache r.1).din.type,
      (r.2.icache r.1).din.size)) = some (1, tFile, 0) := by decide +kernel
  cases hrun : smallFile with
  | error halt => simp [hrun, Except.toOption] at hexec
  | ok r =>
    obtain ⟨ip, s⟩ := r
    obtain ⟨file, hinv', hip⟩ := wp_ok hspec hrun
    simp only [hrun, Except.toOption, Option.map_some, Option.some.injEq, Prod.mk.injEq] at hexec
    obtain ⟨hinum, htype, hsize⟩ := hexec
    have hdin := hinv'.base.din ip hip.ref hip.valid
    rw [hdin] at htype hsize
    refine ⟨s, file, ip, rfl, hinv', hip, htype, hinum, (hinv'.files _).synced, ?_, ?_⟩
    · intro bn hbn
      rw [hsize] at hbn
      exact absurd hbn (Nat.not_lt_zero _)
    · rw [hsize]
      rfl

theorem file_is_byte_array_small : ∃ s s' ip, smallFile = .ok (ip, s) ∧
    writei ip (fun _ => 7) 0 600 s = .ok (600, s') := by
  obtain ⟨s, file, ip, hrun, hinv, hip, htype, -, hc⟩ := smallFile_spec
  have hexec : (smallFile.toOption.map fun r => decide
      (Enough smallLayout r.2 r.1 (touched 0 600))) = some true := by decide +kernel
  rw [hrun] at hexec
  have henough : Enough smallLayout s ip (touched 0 600) := by
    simpa [Except.toOption] using hexec
  have hwrite := (file_is_byte_array hinv.base hip (by rw [htype]; decide) hc 0 600).1 fun _ => 7
  rw [if_pos (by decide)] at hwrite
  obtain ⟨s', -, hwrite', -⟩ := hwrite henough
  exact ⟨s, s', ip, hrun, hwrite'⟩

end Xv6.Fs
