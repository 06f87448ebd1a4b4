import Xv6.MkfsAppend

/-!
# The image is a file system

The inodes, the root directory and the files of the image, and the free map. The kernel starts from
an image like this.
-/

namespace Xv6.Mkfs

open Fs LittleEndian

/-! ## The tree -/

/-- The image while it is made: the inodes handed out hold the bytes `c`, and the others are
free. -/
structure Tree (s : State) (c : ℕ → List UInt8) : Prop where
  /-- The blocks. -/
  handed : Handed s s.dinode
  /-- The inodes are in the table. -/
  table : s.freeinode ≤ layout.nino
  /-- The files. -/
  filled : ∀ i, 0 < i → i < s.freeinode → Filled s s.dinode i (c i)
  /-- Their types. -/
  type : ∀ i, 0 < i → i < s.freeinode → (s.dinode i).type = if i = rootIno then tDir else tFile
  /-- Their links. -/
  nlink : ∀ i, 0 < i → i < s.freeinode → (s.dinode i).nlink = 1
  /-- Their sizes. -/
  size : ∀ i, 0 < i → i < s.freeinode → (s.dinode i).size.toNat = (c i).length
  /-- The other inodes. -/
  unused : ∀ i, s.freeinode ≤ i → s.dinode i = Dinode.zero
  /-- The superblock. -/
  super : s.disk 1 = sbBlock

section Tree

variable {s s' : State} {file file' : ℕ → Dinode} {i : ℕ} {c c' : ℕ → List UInt8}
  {d xs : List UInt8}

theorem Tree.congr (h : Tree s c) (hsame : ∀ i, 0 < i → i < s.freeinode → c' i = c i) :
    Tree s c' where
  handed := h.handed
  table := h.table
  filled i hi hlt := by
    rw [hsame i hi hlt]
    exact h.filled i hi hlt
  type := h.type
  nlink := h.nlink
  size i hi hlt := by
    rw [hsame i hi hlt]
    exact h.size i hi hlt
  unused := h.unused
  super := h.super

/-- The block addresses are those of the inodes in use. -/
theorem addrMap_congr {block : ℕ → Bytes}
    (h : ∀ j, (file' j).type = (file j).type ∧ (file' j).addrs = (file j).addrs) :
    addrMap file' block = addrMap file block := by
  funext ⟨j, p⟩
  unfold addrMap
  rw [(h j).1, slotAddr_congr (h j).2]

theorem Filled.congr (h : Filled s file i d)
    (hmap : addrMap file' s'.block = addrMap file s.block) (hblock : s'.block = s.block) :
    Filled s' file' i d := by
  have hfile (bn : ℕ) : fileBlock file' s'.block i bn = fileBlock file s.block i bn := by
    unfold fileBlock
    rw [hmap]
  refine ⟨fun bn => ?_, fun k hk => ?_⟩
  · rw [hfile]
    exact h.blocks bn
  · rw [hfile] at hk
    rw [fileByte, hfile, hblock]
    exact h.bytes k hk

/-- `rinode`. -/
theorem rinode_spec {din : Dinode} (hi : layout.InTable i) (hread : s.rinode i = some din) :
    din = s.dinode i := by
  obtain ⟨buf, hbuf, rfl⟩ := Option.map_eq_some_iff.mp hread
  obtain rfl := (rsect_eq hbuf).2
  exact (if_pos hi).symm

/-- An inode has been written. -/
structure Stored (s s' : State) (i : ℕ) (din : Dinode) : Prop where
  /-- The data blocks. -/
  block : s'.block = s.block
  /-- The inodes. -/
  dinode : s'.dinode = Function.update s.dinode i din
  /-- The blocks other than the inode blocks. -/
  disk : ∀ b, b ≤ 1 ∨ sb.bmapstart ≤ b → s'.disk b = s.disk b
  /-- The inodes handed out. -/
  freeinode : s'.freeinode = s.freeinode
  /-- The blocks handed out. -/
  freeblock : s'.freeblock = s.freeblock

/-- `winode`. -/
theorem winode_spec {din : Dinode} (hi : layout.InTable i) (hwrite : s.winode i din = some s') :
    Stored s s' i din := by
  obtain ⟨buf, hbuf, rfl⟩ := Option.map_eq_some_iff.mp hwrite
  obtain rfl := (rsect_eq hbuf).2
  have hview : layout.view (s.wsect (sb.iblock i)
      (putDinode (s.disk (sb.iblock i)) (i % ipb * sizeofDinode) din)).disk = _ :=
    Layout.view_putDinode hi din
  have hbounds : 1 < sb.iblock i ∧ _ ∧ sb.iblock i < sb.bmapstart := Layout.iblock_bounds hi
  refine ⟨?_, ?_, fun b hb => Function.update_of_ne (by omega) .., rfl, rfl⟩
  · rw [State.block, hview]
  · rw [State.dinode, hview]

theorem Handed.store {din : Dinode} (h : Handed s file) (hstored : Stored s s' i din)
    (hmap : addrMap file' s.block = addrMap file s.block) : Handed s' file' := by
  have hdata : sb.bmapstart ≤ layout.dataStart := by decide
  refine ⟨?_, ?_, ?_, fun b hb => ?_⟩
  · rw [hstored.freeblock]
    exact h.start
  · rw [hstored.freeblock]
    exact h.fits
  · rw [hstored.block, hstored.freeblock, hmap]
    exact h.owned
  · rw [hstored.freeblock] at hb
    rw [hstored.disk b (Or.inr (hdata.trans (h.start.trans hb)))]
    exact h.fresh b hb

/-- `iappend`. -/
theorem iappend_spec (h : Tree s c) (hi : 0 < i) (hlt : i < s.freeinode)
    (happ : s.iappend i xs = some s') :
    Tree s' (Function.update c i (c i ++ xs)) ∧ s'.freeinode = s.freeinode := by
  have htable : layout.InTable i := ⟨hi, hlt.trans_le h.table⟩
  have htype : (s.dinode i).type ≠ 0 := by
    rw [h.type i hi hlt]
    split_ifs <;> decide
  obtain ⟨din, hread, hrest⟩ := Option.bind_eq_some_iff.mp happ
  obtain rfl := rinode_spec htable hread
  obtain ⟨⟨t, din⟩, hloop, hwrite⟩ := Option.bind_eq_some_iff.mp hrest
  rw [h.size i hi hlt] at hloop hwrite
  obtain ⟨file', happended, rfl⟩ :=
    iappendLoop_spec le_rfl h.handed htype (h.filled i hi hlt) hloop
  dsimp only at hwrite
  set din' : Dinode := { file' i with size := UInt32.ofNat ((c i).length + xs.length) } with hdin'
  have hstored := winode_spec htable hwrite
  have hblock := hstored.block
  have hdinode : s'.dinode = Function.update s.dinode i din' := by
    rw [hstored.dinode, happended.inodes]
  have hfree : s'.freeinode = s.freeinode := hstored.freeinode.trans happended.freeinode
  have hmap : addrMap (Function.update s.dinode i din') t.block = addrMap file' t.block := by
    refine addrMap_congr fun j => ?_
    by_cases hj : j = i
    · rw [hj, Function.update_self]
      exact ⟨rfl, rfl⟩
    · rw [Function.update_of_ne hj, happended.files j hj]
      exact ⟨rfl, rfl⟩
  have hmap' : addrMap (Function.update s.dinode i din') s'.block = addrMap file' t.block := by
    rw [hblock, hmap]
  have hsize : din'.size.toNat = (c i ++ xs).length := by
    have hle := happended.filled.length_le
    have hmax : maxFile * bsize < 2 ^ 32 := by decide
    rw [hdin', List.length_append]
    rw [List.length_append] at hle
    exact UInt32.toNat_ofNat_of_lt' (hle.trans_lt hmax)
  refine ⟨⟨?_, ?_, fun j hj hjlt => ?_, fun j hj hjlt => ?_, fun j hj hjlt => ?_,
    fun j hj hjlt => ?_, fun j hj => ?_, ?_⟩, hfree⟩
  · rw [hdinode]
    exact happended.handed.store hstored hmap
  · rw [hfree]
    exact h.table
  · rw [hfree] at hjlt
    rw [hdinode]
    by_cases hji : j = i
    · rw [hji, Function.update_self]
      exact happended.filled.congr hmap' hblock
    · rw [Function.update_of_ne hji]
      exact (happended.others j hji _ (h.filled j hj hjlt)).congr hmap' hblock
  · rw [hfree] at hjlt
    rw [hdinode]
    by_cases hji : j = i
    · rw [hji, Function.update_self, ← h.type i hi hlt]
      change (file' i).type = _
      rw [happended.same]
    · rw [Function.update_of_ne hji]
      exact h.type j hj hjlt
  · rw [hfree] at hjlt
    rw [hdinode]
    by_cases hji : j = i
    · rw [hji, Function.update_self, ← h.nlink i hi hlt]
      change (file' i).nlink = _
      rw [happended.same]
    · rw [Function.update_of_ne hji]
      exact h.nlink j hj hjlt
  · rw [hfree] at hjlt
    rw [hdinode]
    by_cases hji : j = i
    · rw [hji, Function.update_self, Function.update_self, hsize]
    · rw [Function.update_of_ne hji, Function.update_of_ne hji]
      exact h.size j hj hjlt
  · rw [hfree] at hj
    rw [hdinode, Function.update_of_ne (by omega)]
    exact h.unused j hj
  · rw [hstored.disk 1 (Or.inl le_rfl), happended.super]
    exact h.super

/-- `ialloc`: an empty file. -/
theorem ialloc_spec (h : Tree s c) (hpos : 0 < s.freeinode) (hlt : s.freeinode < layout.nino)
    {type : Int16} (htype : type = if s.freeinode = rootIno then tDir else tFile)
    (halloc : s.ialloc type = some s') :
    Tree s' (Function.update c s.freeinode []) ∧ s'.freeinode = s.freeinode + 1 := by
  have htable : layout.InTable s.freeinode := ⟨hpos, hlt⟩
  have hstored := winode_spec htable halloc
  have hblock : s'.block = s.block := hstored.block
  have hdinode : s'.dinode = Function.update s.dinode s.freeinode (emptyInode type) :=
    hstored.dinode
  have hfree : s'.freeinode = s.freeinode + 1 := hstored.freeinode
  have hnone (p : Slot) : addrMap s.dinode s.block (s.freeinode, p) = 0 :=
    addrMap_of_type_eq_zero (by rw [h.unused _ le_rfl]; rfl)
  have hempty (p : Slot) : slotAddr s.block (emptyInode type) p = 0 := by
    cases p with
    | addr k => rfl
    | entry j => rfl
  have hmap : addrMap (Function.update s.dinode s.freeinode (emptyInode type)) s.block =
      addrMap s.dinode s.block := by
    funext ⟨j, p⟩
    by_cases hj : j = s.freeinode
    · rw [hj, addrMap_update_self, hempty, ite_self, hnone]
    · exact addrMap_update_of_ne hj
  have hmap' : addrMap (Function.update s.dinode s.freeinode (emptyInode type)) s'.block =
      addrMap s.dinode s.block := by rw [hblock, hmap]
  have hfresh : Filled s s.dinode s.freeinode [] := by
    have hzero (bn : ℕ) : fileBlock s.dinode s.block s.freeinode bn = 0 := by
      unfold fileBlock
      split_ifs
      · exact hnone _
      · rfl
    exact ⟨fun bn => by simp [hzero], fun k hk => absurd (hzero _) hk⟩
  have hold {j : ℕ} (hj : j < s'.freeinode) (hne : j ≠ s.freeinode) : j < s.freeinode := by
    omega
  refine ⟨⟨?_, hfree ▸ hlt, fun j hj hjlt => ?_, fun j hj hjlt => ?_, fun j hj hjlt => ?_,
    fun j hj hjlt => ?_, fun j hj => ?_, ?_⟩, hfree⟩
  · rw [hdinode]
    have hhanded : Handed { s with freeinode := s.freeinode + 1 } s.dinode :=
      ⟨h.handed.start, h.handed.fits, h.handed.owned, h.handed.fresh⟩
    exact hhanded.store hstored hmap
  · rw [hdinode]
    by_cases hji : j = s.freeinode
    · rw [hji, Function.update_self]
      exact hfresh.congr hmap' hblock
    · rw [Function.update_of_ne hji]
      exact (h.filled j hj (hold hjlt hji)).congr hmap' hblock
  · rw [hdinode]
    by_cases hji : j = s.freeinode
    · rw [hji, Function.update_self]
      exact htype
    · rw [Function.update_of_ne hji]
      exact h.type j hj (hold hjlt hji)
  · rw [hdinode]
    by_cases hji : j = s.freeinode
    · rw [hji, Function.update_self]
      rfl
    · rw [Function.update_of_ne hji]
      exact h.nlink j hj (hold hjlt hji)
  · rw [hdinode]
    by_cases hji : j = s.freeinode
    · rw [hji, Function.update_self, Function.update_self]
      rfl
    · rw [Function.update_of_ne hji, Function.update_of_ne hji]
      exact h.size j hj (hold hjlt hji)
  · rw [hfree] at hj
    rw [hdinode, Function.update_of_ne (by omega)]
    exact h.unused j (by omega)
  · exact (hstored.disk 1 (Or.inl le_rfl)).trans h.super

end Tree

/-! ## The files -/

/-- The entries of the root directory. -/
def rootEntries (files : List HostFile) : List (ℕ × Bytes) :=
  [(rootIno, dotName), (rootIno, dotdotName)] ++
    (files.zipIdx 2).map fun x => (x.2, strncpy x.1.target dirSiz)

/-- The bytes of the root directory. -/
def rootBytes (files : List HostFile) : List UInt8 :=
  (rootEntries files).flatMap fun e => entry e.1 e.2

/-- The bytes of the inodes: the root directory, and then the files in order. -/
def contents (files : List HostFile) (i : ℕ) : List UInt8 :=
  if i = rootIno then rootBytes files
  else (files[i - 2]?.map fun f => f.parts.flatten).getD []

section Files

variable {s s' : State} {i : ℕ} {c : ℕ → List UInt8} {f : HostFile} {files before : List HostFile}

/-- The parts of a file. -/
theorem appendParts_spec {parts : List (List UInt8)} (h : Tree s c) (hi : 0 < i)
    (hlt : i < s.freeinode) (hrun : parts.foldlM (fun t part => t.iappend i part) s = some s') :
    Tree s' (Function.update c i (c i ++ parts.flatten)) ∧ s'.freeinode = s.freeinode := by
  induction parts generalizing s c with
  | nil =>
    obtain rfl := Option.some.inj hrun
    rw [List.flatten_nil, List.append_nil, Function.update_eq_self]
    exact ⟨h, rfl⟩
  | cons part parts ih =>
    obtain ⟨t, ht, hrest⟩ := Option.bind_eq_some_iff.mp hrun
    obtain ⟨htree, hfree⟩ := iappend_spec h hi hlt ht
    obtain ⟨htree', hfree'⟩ := ih htree (by rwa [hfree]) hrest
    rw [Function.update_self, Function.update_idem, List.append_assoc] at htree'
    rw [List.flatten_cons]
    exact ⟨htree', hfree'.trans hfree⟩

theorem contents_concat (hpos : 0 < i) (hi : i < before.length + 3) : contents (before ++ [f]) i =
    Function.update (Function.update (contents before) rootIno
      (contents before rootIno ++ entry (before.length + 2) (strncpy f.target dirSiz)))
      (before.length + 2) f.parts.flatten i := by
  by_cases hnew : i = before.length + 2
  · rw [hnew, Function.update_self]
    simp [contents, rootIno]
  rw [Function.update_of_ne hnew]
  by_cases hroot : i = rootIno
  · rw [hroot, Function.update_self]
    simp [contents, rootBytes, rootEntries, List.zipIdx_append, Nat.add_comm]
  · rw [Function.update_of_ne hroot]
    have htwo : 2 ≤ i := by
      unfold rootIno at hroot
      omega
    simp only [contents, if_neg hroot]
    rw [List.getElem?_append_left (by omega)]

/-- A file is added. -/
theorem addFile_spec (h : Tree s (contents before)) (hfree : s.freeinode = before.length + 2)
    (hlt : s.freeinode < layout.nino) (hadd : s.addFile f = some s') :
    Tree s' (contents (before ++ [f])) ∧ s'.freeinode = (before ++ [f]).length + 2 := by
  unfold State.addFile at hadd
  split_ifs at hadd
  obtain ⟨t₁, ht₁, hadd⟩ := Option.bind_eq_some_iff.mp hadd
  obtain ⟨t₂, ht₂, hparts⟩ := Option.bind_eq_some_iff.mp hadd
  have hroot : s.freeinode ≠ rootIno := by
    rw [hfree]
    unfold rootIno
    omega
  obtain ⟨htree₁, hfree₁⟩ := ialloc_spec h (by omega) hlt (if_neg hroot).symm ht₁
  obtain ⟨htree₂, hfree₂⟩ := iappend_spec htree₁ (by decide : 0 < rootIno)
    (by rw [hfree₁, hfree]; unfold rootIno; omega) ht₂
  obtain ⟨htree, hfree'⟩ := appendParts_spec htree₂ (by omega : 0 < s.freeinode) (by omega) hparts
  rw [Function.update_of_ne hroot, Function.update_self, Function.update_of_ne hroot.symm,
    List.nil_append, Function.update_comm hroot, Function.update_idem] at htree
  refine ⟨htree.congr fun i hi hlt => ?_, ?_⟩
  · rw [contents_concat hi (by omega), hfree]
  · rw [List.length_append, List.length_singleton]
    omega

/-- All files are added. -/
theorem addFiles_spec (h : Tree s (contents before)) (hfree : s.freeinode = before.length + 2)
    (hroom : before.length + files.length + 2 ≤ layout.nino)
    (hrun : files.foldlM State.addFile s = some s') :
    Tree s' (contents (before ++ files)) ∧
      s'.freeinode = (before ++ files).length + 2 := by
  induction files generalizing s before with
  | nil =>
    obtain rfl := Option.some.inj hrun
    rw [List.append_nil]
    exact ⟨h, hfree⟩
  | cons f files ih =>
    obtain ⟨t, ht, hrest⟩ := Option.bind_eq_some_iff.mp hrun
    rw [List.length_cons] at hroom
    obtain ⟨htree, hfree'⟩ := addFile_spec h hfree (by omega) ht
    rw [List.append_cons]
    exact ih htree hfree' (by rw [List.length_append, List.length_singleton]; omega) hrest

/-- The image with nothing but the superblock. -/
theorem start_spec : Tree State.start fun _ => [] := by
  have hdisk : State.start.disk = Function.update (fun _ _ => 0) 1 sbBlock := rfl
  have hdinode (i : ℕ) : State.start.dinode i = Dinode.zero := by
    change (if layout.InTable i then
      getDinode (State.start.disk (layout.sb.iblock i)) (i % ipb * sizeofDinode)
      else Dinode.zero) = _
    split_ifs with hi
    · rw [hdisk, Function.update_of_ne (Layout.iblock_bounds hi).1.ne', getDinode_zero]
    · rfl
  have hmap (q : ℕ × Slot) : addrMap State.start.dinode State.start.block q = 0 :=
    addrMap_of_type_eq_zero (by rw [hdinode]; rfl)
  refine ⟨⟨by decide, by decide, ?_, fun b hb => ?_⟩, by decide, fun i hi hlt => ?_,
    fun i hi hlt => ?_, fun i hi hlt => ?_, fun i hi hlt => ?_, fun i _ => hdinode i,
    by rw [hdisk, Function.update_self]⟩
  · refine ⟨layout.not_isData_zero, fun q hq => absurd (hmap q) hq,
      fun q _ _ hq => absurd (hmap q) hq, fun b hb => ?_⟩
    have hstart : State.start.freeblock = layout.dataStart := by decide
    rw [hstart]
    refine iff_of_false (by simpa using hb.1) ?_
    rintro ⟨q, hq⟩
    have hpos := Layout.one_lt_of_isData hb
    rw [hmap q] at hq
    omega
  · have hb' : nmeta ≤ b := hb
    have hmeta : 1 < nmeta := by decide
    rw [hdisk, Function.update_of_ne (by omega)]
  all_goals
    have hone : i < 1 := hlt
    omega

/-- The root directory, without files. -/
theorem rootDir_spec (hrun : rootDir = some s) : Tree s (contents []) ∧ s.freeinode = 2 := by
  unfold rootDir at hrun
  rw [if_neg (by decide)] at hrun
  obtain ⟨t₁, ht₁, hrest⟩ := Option.bind_eq_some_iff.mp hrun
  obtain ⟨t₂, ht₂, ht₃⟩ := Option.bind_eq_some_iff.mp hrest
  have hroot : State.start.freeinode = rootIno := rfl
  obtain ⟨htree₁, hfree₁⟩ :=
    ialloc_spec start_spec (by decide) (by decide) (if_pos hroot).symm ht₁
  have hfree₁' : t₁.freeinode = 2 := hfree₁
  obtain ⟨htree₂, hfree₂⟩ := iappend_spec htree₁ (by decide : 0 < rootIno)
    (by rw [hfree₁']; decide) ht₂
  obtain ⟨htree₃, hfree₃⟩ := iappend_spec htree₂ (by decide : 0 < rootIno)
    (by rw [hfree₂, hfree₁']; decide) ht₃
  rw [hroot] at htree₃
  simp only [Function.update_self, Function.update_idem, List.nil_append] at htree₃
  have hfree : s.freeinode = 2 := hfree₃.trans (hfree₂.trans hfree₁')
  refine ⟨htree₃.congr fun i hi hlt => ?_, hfree⟩
  have hi : i = rootIno := by
    unfold rootIno
    omega
  rw [hi, Function.update_self]
  simp [contents, rootBytes, rootEntries]

end Files

/-! ## The result -/

section Result

variable {s s' : State} {files : List HostFile}

/-- The marks of the free map. -/
theorem bitSet_foldl (used b : ℕ) :
    bitSet ((List.range used).foldl setBit fun _ => 0) b = decide (b < used) := by
  induction used with
  | zero =>
    rw [bitSet_eq_testBit]
    simp
  | succ used ih =>
    rw [List.range_succ, List.foldl_append, List.foldl_cons, List.foldl_nil, bitSet_setBit, ih]
    rw [Bool.eq_iff_iff]
    simp only [Bool.or_eq_true, decide_eq_true_eq]
    omega

/-- `balloc`. -/
theorem balloc_spec {used : ℕ} (h : s.balloc used = some s') :
    s'.block = s.block ∧ s'.dinode = s.dinode ∧ s'.disk 1 = s.disk 1 ∧
      ∀ b < fssize, (layout.view s'.disk).bit b = decide (b < used) := by
  unfold State.balloc at h
  split_ifs at h
  obtain rfl := Option.some.inj h
  refine ⟨?_, ?_, ?_, fun b hb => ?_⟩
  · funext b
    change (if layout.IsData b then _ else _) = if layout.IsData b then _ else _
    split_ifs with hdata
    · have hmap : sb.bmapstart < layout.dataStart := by decide
      exact Function.update_of_ne (hmap.trans_le hdata.1).ne' ..
    · rfl
  · funext i
    change (if layout.InTable i then getDinode _ _ else _) = if layout.InTable i then _ else _
    split_ifs with hi
    · congr 1
      exact Function.update_of_ne (Layout.iblock_bounds hi).2.2.ne ..
    · rfl
  · have hne : 1 ≠ sb.bmapstart := by decide
    exact Function.update_of_ne hne ((List.range used).foldl setBit fun _ => 0) s.disk
  · have hblock : layout.sb.bblock b = sb.bmapstart := by
      change b / bpb + sb.bmapstart = sb.bmapstart
      unfold fssize at hb
      unfold bpb
      omega
    have hmod : b % bpb = b := by
      unfold fssize at hb
      unfold bpb
      omega
    change (decide (b < fssize) && bitSet (Function.update s.disk sb.bmapstart _
      (layout.sb.bblock b)) (b % bpb)) = _
    rw [hblock, Function.update_self, hmod, bitSet_foldl, decide_eq_true hb, Bool.true_and]

/-- The entries of a directory, byte by byte. -/
theorem getD_entries (es : List (ℕ × Bytes)) (e : ℕ) {k : ℕ} (hk : k < sizeofDirent) :
    (es.flatMap fun e => entry e.1 e.2).getD (sizeofDirent * e + k) 0 =
      (es[e]?.map fun x => dirent x.1 x.2 k).getD 0 := by
  induction es generalizing e with
  | nil => simp
  | cons x es ih =>
    have hlength : (entry x.1 x.2).length = sizeofDirent := length_firstBytes ..
    rw [List.flatMap_cons]
    cases e with
    | zero =>
      rw [Nat.mul_zero, Nat.zero_add, List.getD_append _ _ _ _ (by rw [hlength]; exact hk)]
      exact getD_firstBytes _ hk
    | succ e =>
      rw [List.getD_append_right _ _ _ _ (by rw [hlength, Nat.mul_succ]; omega), hlength,
        show sizeofDirent * (e + 1) + k - sizeofDirent = sizeofDirent * e + k by
          rw [Nat.mul_succ]; omega, ih, List.getElem?_cons_succ]

/-- The entries of the root directory. -/
theorem rootEntries_cases {e : ℕ} {x : ℕ × Bytes} (hx : (rootEntries files)[e]? = some x) :
    x = (rootIno, dotName) ∨ x = (rootIno, dotdotName) ∨
      ∃ f i, 2 ≤ i ∧ i < files.length + 2 ∧ x = (i, strncpy (HostFile.target f) dirSiz) := by
  rcases List.mem_append.mp (List.mem_of_getElem? hx) with hdots | hfile
  · simp only [List.mem_cons, List.not_mem_nil, or_false] at hdots
    rcases hdots with rfl | rfl
    · exact Or.inl rfl
    · exact Or.inr (Or.inl rfl)
  · obtain ⟨y, hy, rfl⟩ := List.mem_map.mp hfile
    exact Or.inr (Or.inr
      ⟨y.1, y.2, List.le_snd_of_mem_zipIdx hy, List.snd_lt_of_mem_zipIdx hy, rfl⟩)

theorem length_rootBytes (files : List HostFile) :
    (rootBytes files).length = sizeofDirent * (files.length + 2) := by
  have hentries (es : List (ℕ × Bytes)) :
      (es.flatMap fun e => entry e.1 e.2).length = sizeofDirent * es.length := by
    induction es with
    | nil => rfl
    | cons x es ih =>
      have hlength : (entry x.1 x.2).length = sizeofDirent := length_firstBytes ..
      rw [List.flatMap_cons, List.length_append, ih, List.length_cons, Nat.mul_succ, hlength,
        Nat.add_comm]
  have hlength : (rootEntries files).length = files.length + 2 := by
    simp [rootEntries]
  rw [rootBytes, hentries, hlength]

/-- The inode numbers of the root directory are in the table. -/
theorem get_rootBytes_lt (hroom : files.length + 2 ≤ layout.nino) (e : ℕ) :
    get (fun k => (rootBytes files).getD (sizeofDirent * e + k) 0) 0 2 < layout.nino := by
  have hbytes : get (fun k => (rootBytes files).getD (sizeofDirent * e + k) 0) 0 2 =
      get (fun k => ((rootEntries files)[e]?.map fun x => dirent x.1 x.2 k).getD 0) 0 2 := by
    apply get_congr
    intro k hk
    rw [Nat.zero_add]
    exact getD_entries _ _ (by unfold sizeofDirent; omega)
  rw [hbytes]
  cases hentry : (rootEntries files)[e]? with
  | none =>
    simp only [Option.map_none, Option.getD_none, get_zero]
    decide
  | some x =>
    simp only [Option.map_some, Option.getD_some]
    rw [get_dirent]
    refine (Nat.mod_le _ _).trans_lt ?_
    obtain rfl | rfl | ⟨f, i, hlow, hlt, rfl⟩ := rootEntries_cases hentry
    · decide
    · decide
    · exact hlt.trans_le hroom

/-- The bytes of the inodes, up to their sizes. -/
def State.bytes (s : State) (i : ℕ) : List UInt8 :=
  firstBytes (fileByte s.dinode s.block i) (s.dinode i).size.toNat

/-- What `mkfs` has made. -/
structure Made (s : State) (files : List HostFile) : Prop where
  /-- The bytes of the files. -/
  filled : ∀ i, 0 < i → i < files.length + 2 → Filled s s.dinode i (contents files i)
  /-- Their types. -/
  type : ∀ i, 0 < i → i < files.length + 2 →
    (s.dinode i).type = if i = rootIno then tDir else tFile
  /-- Their links. -/
  nlink : ∀ i, 0 < i → i < files.length + 2 → (s.dinode i).nlink = 1
  /-- Their sizes. -/
  size : ∀ i, 0 < i → i < files.length + 2 → (s.dinode i).size.toNat =
    if i = rootIno then ((contents files i).length / bsize + 1) * bsize
    else (contents files i).length
  /-- The other inodes. -/
  unused : ∀ i, ¬ (0 < i ∧ i < files.length + 2) → s.dinode i = Dinode.zero
  /-- The superblock. -/
  super : s.disk 1 = sbBlock
  /-- The metadata blocks are marked. -/
  reserved : ∀ b < layout.dataStart, (layout.view s.disk).bit b = true
  /-- The blocks that are held are marked. -/
  owned : OneOwner (addrMap s.dinode s.block) (layout.view s.disk).bit layout.IsData

theorem mkfs_made (hmkfs : mkfs files = some s) (hroom : files.length + 2 ≤ layout.nino) :
    Made s files := by
  obtain ⟨r, hr, hrest⟩ := Option.bind_eq_some_iff.mp hmkfs
  obtain ⟨t, ht, hrest⟩ := Option.bind_eq_some_iff.mp hrest
  obtain ⟨u, hu, hballoc⟩ := Option.bind_eq_some_iff.mp hrest
  obtain ⟨hroot, hfree⟩ := rootDir_spec hr
  obtain ⟨htree, hfree'⟩ := addFiles_spec hroot hfree (by rw [List.length_nil]; omega) ht
  rw [List.nil_append] at htree hfree'
  obtain ⟨din, hdin, hwrite⟩ := Option.bind_eq_some_iff.mp hu
  have htable : layout.InTable rootIno := by decide
  obtain rfl := rinode_spec htable hdin
  have hstored := winode_spec htable hwrite
  obtain ⟨hblock, hdinode, hsuper, hbit⟩ := balloc_spec hballoc
  set din : Dinode := { t.dinode rootIno with
    size := UInt32.ofNat (((t.dinode rootIno).size.toNat / bsize + 1) * bsize) } with hdindef
  have hdinode' : s.dinode = Function.update t.dinode rootIno din := hdinode.trans hstored.dinode
  have hblock' : s.block = t.block := hblock.trans hstored.block
  have hmap : addrMap s.dinode s.block = addrMap t.dinode t.block := by
    rw [hdinode', hblock']
    refine addrMap_congr fun j => ?_
    by_cases hj : j = rootIno
    · rw [hj, Function.update_self]
      exact ⟨rfl, rfl⟩
    · rw [Function.update_of_ne hj]
      exact ⟨rfl, rfl⟩
  have hmeta : layout.dataStart ≤ fssize := by decide
  refine ⟨fun i hi hlt => ?_, fun i hi hlt => ?_, fun i hi hlt => ?_, fun i hi hlt => ?_,
    fun i hi => ?_, ?_, fun b hb => ?_, ⟨htree.handed.owned.zero, ?_, ?_, fun b hb => ?_⟩⟩
  · exact (htree.filled i hi (by rwa [hfree'])).congr hmap hblock'
  · rw [← htree.type i hi (by rwa [hfree']), hdinode']
    by_cases hroot : i = rootIno
    · rw [hroot, Function.update_self]
    · rw [Function.update_of_ne hroot]
  · rw [← htree.nlink i hi (by rwa [hfree']), hdinode']
    by_cases hroot : i = rootIno
    · rw [hroot, Function.update_self]
    · rw [Function.update_of_ne hroot]
  · have hsize := htree.size i hi (by rwa [hfree'])
    have hlength := (htree.filled i hi (by rwa [hfree'])).length_le
    rw [hdinode']
    by_cases hroot : i = rootIno
    · rw [if_pos hroot]
      subst hroot
      have hmax : (maxFile * bsize / bsize + 1) * bsize < 2 ^ 32 := by decide
      have hle := Nat.div_le_div_right (c := bsize) hlength
      rw [Function.update_self, hdindef, hsize]
      exact UInt32.toNat_ofNat_of_lt'
        ((Nat.mul_le_mul_right _ (Nat.succ_le_succ hle)).trans_lt hmax)
    · rw [if_neg hroot, Function.update_of_ne hroot, hsize]
  · have hne : i ≠ rootIno := by
      unfold rootIno
      omega
    rw [hdinode', Function.update_of_ne hne]
    by_cases hzero : i = 0
    · have hout : ¬ layout.InTable i := fun h => h.1.ne' hzero
      exact if_neg hout
    · exact htree.unused i (by omega)
  · rw [hsuper, hstored.disk 1 (Or.inl le_rfl)]
    exact htree.super
  · rw [hbit b (hb.trans_le hmeta)]
    exact decide_eq_true (by rw [hstored.freeblock]; exact hb.trans_le htree.handed.start)
  · rw [hmap]
    exact htree.handed.owned.held
  · rw [hmap]
    exact htree.handed.owned.inj
  · rw [hmap, hbit b hb.2, hstored.freeblock]
    exact htree.handed.owned.used_iff b hb

/-- The bytes of the files. -/
theorem Made.bytes (h : Made s files) {i : ℕ} (hi : 0 < i) (hlt : i < files.length + 2) :
    firstBytes (fileByte s.dinode s.block i) (contents files i).length = contents files i := by
  have hfilled := h.filled i hi hlt
  apply List.ext_getElem (length_firstBytes ..)
  intro k hk hk'
  have hblock := (hfilled.blocks (k / bsize)).mpr ((Nat.div_mul_le_self _ _).trans_lt hk')
  simp only [firstBytes, List.getElem_map, List.getElem_range]
  rw [hfilled.bytes k hblock, List.getD_eq_getElem _ _ hk']

/-- The bytes of a file, up to its size. -/
theorem Made.bytes_file (h : Made s files) {j : ℕ} (hj : j < files.length) :
    s.bytes (j + 2) = files[j].parts.flatten := by
  have hne : j + 2 ≠ rootIno := by
    unfold rootIno
    omega
  have hbytes := h.bytes (by omega : 0 < j + 2) (by omega)
  have hcontents : contents files (j + 2) = files[j].parts.flatten := by
    simp [contents, hne, hj]
  rw [State.bytes, h.size _ (by omega) (by omega), if_neg hne, hbytes, hcontents]

/-- The entries of the root directory. -/
theorem Made.entries (h : Made s files) {e : ℕ} {x : ℕ × Bytes}
    (hx : (rootEntries files)[e]? = some x) {k : ℕ} (hk : k < sizeofDirent) :
    fileByte s.dinode s.block rootIno (sizeofDirent * e + k) = dirent x.1 x.2 k := by
  have hfilled := h.filled rootIno (by decide) (by unfold rootIno; omega)
  have hlength := length_rootBytes files
  have hlt : e < files.length + 2 := by
    have hsome := (List.getElem?_eq_some_iff.mp hx).1
    simp [rootEntries] at hsome
    omega
  have hcontents : contents files rootIno = rootBytes files := if_pos rfl
  rw [hcontents] at hfilled
  have hbelow : sizeofDirent * e + k < (rootBytes files).length := by
    rw [hlength]
    unfold sizeofDirent at hk ⊢
    omega
  rw [hfilled.bytes _ ((hfilled.blocks _).mpr ((Nat.div_mul_le_self _ _).trans_lt hbelow)),
    rootBytes, getD_entries _ _ hk, hx]
  rfl

theorem Made.slot (h : Made s files) (hroom : files.length + 2 ≤ layout.nino) {e : ℕ}
    {x : ℕ × Bytes} (hx : (rootEntries files)[e]? = some x) :
    slotOf (fun k => fileByte s.dinode s.block rootIno (sizeofDirent * e + k)) =
      some (nameOf x.2, x.1) := by
  rw [slotOf_congr fun k hk => h.entries hx hk]
  obtain rfl | rfl | ⟨f, i, hlow, hlt, rfl⟩ := rootEntries_cases hx
  · decide
  · decide
  · have htable : layout.nino < 65536 := by decide
    rw [slotOf_dirent (by omega) (by omega), nameOf_strncpy]

/-- The size of the root directory is rounded up to more than its blocks when they are full. -/
theorem Made.image_iff (h : Made s files) (hroom : files.length + 2 ≤ layout.nino) :
    Image layout s.disk ↔ (files.length + 2) % (bsize / sizeofDirent) ≠ 0 := by
  have hroot : rootIno < files.length + 2 := by
    unfold rootIno
    omega
  have hfilled := h.filled rootIno (by decide) hroot
  have hsize := h.size rootIno (by decide) hroot
  have hcontents : contents files rootIno = rootBytes files := if_pos rfl
  rw [if_pos rfl] at hsize
  rw [hcontents] at hfilled hsize
  have hlength := length_rootBytes files
  constructor
  · intro himage hfull
    have htype : (s.dinode rootIno).type ≠ 0 := by
      rw [h.type rootIno (by decide) hroot, if_pos rfl]
      decide
    -- the block behind the last full one is not allocated, but below the size
    have hblock := himage.covered rootIno htype ((rootBytes files).length / bsize) (by
      rw [hsize]
      unfold bsize
      omega)
    have hbelow := (hfilled.blocks _).mp hblock
    unfold bsize sizeofDirent at *
    omega
  · intro hpart
    have hused (i : ℕ) (htype : (s.dinode i).type ≠ 0) : 0 < i ∧ i < files.length + 2 := by
      by_contra hout
      exact htype (by rw [h.unused i hout]; rfl)
    have hcovered (bn : ℕ) (hbn : bn * bsize < (s.dinode rootIno).size.toNat) :
        fileBlock s.dinode s.block rootIno bn ≠ 0 := by
      rw [hfilled.blocks]
      rw [hsize] at hbn
      unfold bsize sizeofDirent at *
      omega
    refine ⟨?_, h.reserved, h.owned, fun i htype bn hbn => ?_, fun i htype off hoff hend => ?_⟩
    · rw [h.super]
      decide
    · obtain ⟨hi, hlt⟩ := hused i htype
      by_cases hroot : i = rootIno
      · subst hroot
        exact hcovered bn hbn
      · have hbelow := h.size i hi hlt
        rw [if_neg hroot] at hbelow
        rw [(h.filled i hi hlt).blocks, ← hbelow]
        exact hbn
    · have hdir : (s.dinode i).type = tDir := htype
      obtain ⟨hi, hlt⟩ := hused i (by rw [hdir]; decide)
      have hroot : i = rootIno := by
        by_contra hne
        rw [h.type i hi hlt, if_neg hne] at hdir
        exact absurd hdir (by decide)
      subst hroot
      obtain ⟨e, rfl⟩ := hoff
      have hget : get (fun k => fileByte s.dinode s.block rootIno (sizeofDirent * e + k)) 0 2 =
          get (fun k => (rootBytes files).getD (sizeofDirent * e + k) 0) 0 2 := by
        apply get_congr
        intro k hk
        rw [Nat.zero_add]
        refine hfilled.bytes _ (hcovered _ ((Nat.div_mul_le_self _ _).trans_lt ?_))
        have hend' : sizeofDirent * e + sizeofDirent ≤ (s.dinode rootIno).size.toNat := hend
        have hbytes : 2 ≤ sizeofDirent := by decide
        omega
      exact hget ▸ get_rootBytes_lt hroom e

/-- `mkfs` with files that fit makes a file system of them: the root directory has `.`, `..` and
each file under its name, and each file has its bytes. The image is one that the kernel can start
from, unless the entries of the root directory fill its last block. -/
theorem mkfs_image (hmkfs : mkfs files = some s) (hroom : files.length + 2 ≤ layout.nino) :
    (Image layout s.disk ↔ (files.length + 2) % (bsize / sizeofDirent) ≠ 0) ∧
    (s.dinode rootIno).type = tDir ∧
    (∀ e x, (rootEntries files)[e]? = some x →
      slotOf (fun k => fileByte s.dinode s.block rootIno (sizeofDirent * e + k)) =
        some (nameOf x.2, x.1)) ∧
    ∀ j (hj : j < files.length), (s.dinode (j + 2)).type = tFile ∧
      firstBytes (fileByte s.dinode s.block (j + 2)) (s.dinode (j + 2)).size.toNat =
        files[j].parts.flatten := by
  have h := mkfs_made hmkfs hroom
  have hroot : rootIno < files.length + 2 := by
    unfold rootIno
    omega
  refine ⟨h.image_iff hroom, ?_, fun e x hx => h.slot hroom hx, fun j hj => ?_⟩
  · rw [h.type rootIno (by decide) hroot, if_pos rfl]
  · have hne : j + 2 ≠ rootIno := by
      unfold rootIno
      omega
    rw [h.type _ (by omega) (by omega), if_neg hne]
    exact ⟨rfl, h.bytes_file hj⟩

/-- A program is put on the disk. -/
theorem mkfs_image_rm : ∃ s, mkfs [⟨[95, 114, 109], [[1, 2], [3]]⟩] = some s ∧
    Image layout s.disk ∧
    slotOf (fun k => fileByte s.dinode s.block rootIno (32 + k)) = some ([114, 109], 2) ∧
    firstBytes (fileByte s.dinode s.block 2) (s.dinode 2).size.toNat = [1, 2, 3] := by
  have hsome : (mkfs [⟨[95, 114, 109], [[1, 2], [3]]⟩]).isSome = true := by decide +kernel
  obtain ⟨s, hs⟩ := Option.isSome_iff_exists.mp hsome
  obtain ⟨himage, -, hentries, hfiles⟩ := mkfs_image hs (by decide)
  exact ⟨s, hs, himage.mpr (by decide), hentries 2 _ rfl, (hfiles 0 (by decide)).2⟩

end Result

end Xv6.Mkfs
