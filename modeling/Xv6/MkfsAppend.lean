import Xv6.Mkfs

/-!
# What `iappend` does to the image

Each block that `mkfs` has handed out is held at one place, and a block that it has not is zero. So
`iappend` appends bytes to a file and leaves the other files alone.
-/

namespace Xv6.Mkfs

open Fs LittleEndian

/-- The layout of the image. -/
def layout : Layout where
  sb := sb
  nino := ninodeblocks * ipb
  one_lt_inodestart := by decide
  inodestart_le := by decide
  ninodes_le := by decide
  nino_le := by decide
  freeMap_lt := by decide
  size_lt := by decide

/-- The data blocks of the image. -/
abbrev State.block (s : State) : ℕ → Bytes := (layout.view s.disk).block

/-- The inodes of the image. -/
abbrev State.dinode (s : State) : ℕ → Dinode := (layout.view s.disk).dinode

/-- The blocks are handed out in order. The inodes are `file`, on the disk or not. -/
structure Handed (s : State) (file : ℕ → Dinode) : Prop where
  /-- The metadata blocks are never handed out. -/
  start : layout.dataStart ≤ s.freeblock
  /-- The image has these blocks. -/
  fits : s.freeblock ≤ fssize
  /-- A block that is handed out has one owner. -/
  owned : OneOwner (addrMap file s.block) (fun b => decide (b < s.freeblock)) layout.IsData
  /-- The other blocks are zero. -/
  fresh : ∀ b, s.freeblock ≤ b → s.disk b = fun _ => 0

section Blocks

variable {s s' s'' : State} {file file' file'' : ℕ → Dinode} {i bn : ℕ} {p : Slot} {a : Place}

theorem Handed.block_fresh (h : Handed s file) {b : ℕ} (hb : s.freeblock ≤ b) :
    s.block b = fun _ => 0 := by
  change (if layout.IsData b then s.disk b else fun _ => 0) = _
  rw [h.fresh b hb, ite_self]

theorem used_succ (n : ℕ) :
    Function.update (fun b => decide (b < n)) n true = fun b => decide (b < n + 1) := by
  funext b
  by_cases hb : b = n
  · rw [hb, Function.update_self]
    exact (decide_eq_true (Nat.lt_succ_self n)).symm
  · rw [Function.update_of_ne hb, decide_eq_decide]
    omega

theorem rsect_eq {b : ℕ} {buf : Bytes} (hread : s.rsect b = some buf) :
    b < fssize ∧ s.disk b = buf := by
  unfold State.rsect at hread
  split_ifs at hread with hb
  exact ⟨hb, Option.some.inj hread⟩

/-- A data block is written. -/
theorem wsect_data (s : State) {b : ℕ} (hb : layout.IsData b) (buf : Bytes) :
    (s.wsect b buf).block = Function.update s.block b buf ∧ (s.wsect b buf).dinode = s.dinode ∧
      (s.wsect b buf).disk 1 = s.disk 1 := by
  have hview : layout.view (Function.update s.disk b buf) = _ := Layout.view_block hb buf
  have hdinode : (layout.view (Function.update s.disk b buf)).dinode = s.dinode := by rw [hview]
  exact ⟨congrArg View.block hview, hdinode,
    Function.update_of_ne (Layout.one_lt_of_isData hb).ne ..⟩

theorem Handed.freeblock_lt (h : Handed s file) : s.freeblock < 2 ^ 32 :=
  h.fits.trans_lt (by decide)

/-- What is held has been handed out. -/
theorem Handed.held_lt (h : Handed s file) {q : ℕ × Slot} (hq : addrMap file s.block q ≠ 0) :
    addrMap file s.block q < s.freeblock :=
  of_decide_eq_true (h.owned.used_of_held hq)

/-- A place of an inode has a block, which is new if it had none; nothing else has changed. -/
structure Assigned (s s' : State) (file file' : ℕ → Dinode) (i : ℕ) (p : Slot) : Prop where
  /-- The blocks. -/
  handed : Handed s' file'
  /-- There is a block. -/
  addr_ne : addrMap file' s'.block (i, p) ≠ 0
  /-- It is the one that was there. -/
  kept : addrMap file s.block (i, p) ≠ 0 →
    addrMap file' s'.block (i, p) = addrMap file s.block (i, p)
  /-- Or it is zero. -/
  fresh : addrMap file s.block (i, p) = 0 →
    s'.block (addrMap file' s'.block (i, p)) = fun _ => 0
  /-- The other blocks of files are where they were. -/
  others : ∀ q : ℕ × Slot, q.2 ≠ .addr (Fin.last ndirect) → q ≠ (i, p) →
    addrMap file' s'.block q = addrMap file s.block q
  /-- They hold what they held. -/
  content : ∀ q : ℕ × Slot, q.2 ≠ .addr (Fin.last ndirect) → addrMap file s.block q ≠ 0 →
    s'.block (addrMap file s.block q) = s.block (addrMap file s.block q)
  /-- The other inodes. -/
  files : ∀ j ≠ i, file' j = file j
  /-- The other fields of the inode. -/
  same : file' i = { file i with addrs := (file' i).addrs }
  /-- The inodes on the disk. -/
  inodes : s'.dinode = s.dinode
  /-- The superblock. -/
  super : s'.disk 1 = s.disk 1
  /-- The inodes handed out. -/
  freeinode : s'.freeinode = s.freeinode

namespace Assigned

theorem refl (h : Handed s file) (hp : addrMap file s.block (i, p) ≠ 0) :
    Assigned s s file file i p where
  handed := h
  addr_ne := hp
  kept _ := rfl
  fresh hzero := absurd hzero hp
  others _ _ _ := rfl
  content _ _ _ := rfl
  files _ _ := rfl
  same := rfl
  inodes := rfl
  super := rfl
  freeinode := rfl

/-- The indirect block, and then an entry of it. -/
theorem trans (h : Assigned s s' file file' i (.addr (Fin.last ndirect)))
    (h' : Assigned s' s'' file' file'' i p) (hp : p ≠ .addr (Fin.last ndirect)) :
    Assigned s s'' file file'' i p := by
  have hfirst (q : ℕ × Slot) (hq : q.2 ≠ .addr (Fin.last ndirect)) :
      addrMap file' s'.block q = addrMap file s.block q :=
    h.others q hq fun heq => hq (by rw [heq])
  refine ⟨h'.handed, h'.addr_ne, fun hne => ?_, fun hzero => ?_, fun q hq hqp => ?_,
    fun q hq hne => ?_, fun j hj => ?_, ?_, h'.inodes.trans h.inodes, h'.super.trans h.super,
    h'.freeinode.trans h.freeinode⟩
  · rw [h'.kept (by rwa [hfirst (i, p) hp]), hfirst (i, p) hp]
  · exact h'.fresh (by rwa [hfirst (i, p) hp])
  · rw [h'.others q hq hqp, hfirst q hq]
  · have hne' : addrMap file' s'.block q ≠ 0 := by rwa [hfirst q hq]
    rw [← h.content q hq hne, ← hfirst q hq]
    exact h'.content q hq hne'
  · rw [h'.files j hj, h.files j hj]
  · rw [h'.same, h.same]

end Assigned

theorem addrBlock_spec (h : Handed s file) (htype : (file i).type ≠ 0) (k : Fin (ndirect + 1))
    (ha : s.addrBlock (file i) k = a) (hx : a.x < fssize) :
    ∃ file', Assigned s a.state file file' i (.addr k) ∧ a.din = file' i ∧
      a.x = addrMap file' a.state.block (i, .addr k) := by
  have haddr := addrMap_addr s.block htype k
  unfold State.addrBlock at ha
  split_ifs at ha with hnone
  · subst ha
    have hnew : ((file i).setAddr k s.freeblock).addr k = s.freeblock :=
      Dinode.addr_setAddr_self h.freeblock_lt
    have hlt : s.freeblock < fssize := hnew ▸ hx
    have hdata : layout.IsData s.freeblock := ⟨h.start, hlt⟩
    have hfree : decide (s.freeblock < s.freeblock) = false := decide_eq_false (lt_irrefl _)
    have hzero : Function.update s.block s.freeblock (fun _ => 0) = s.block := by
      rw [← h.block_fresh le_rfl, Function.update_eq_self]
    have hmap := addrMap_setAddr h.owned htype hnone hdata hfree
    rw [hzero] at hmap
    refine ⟨Function.update file i ((file i).setAddr k s.freeblock), ?_,
      (Function.update_self i ((file i).setAddr k s.freeblock) file).symm, ?_⟩
    · refine ⟨⟨Nat.le_succ_of_le h.start, hlt, ?_, fun b hb => h.fresh b (Nat.le_of_succ_le hb)⟩,
        ?_, fun hne => absurd (haddr.trans hnone) hne, fun _ => ?_, fun q _ hq => ?_,
        fun _ _ _ => rfl, fun j hj => Function.update_of_ne hj .., ?_, rfl, rfl, rfl⟩
      · rw [hmap, ← used_succ]
        exact h.owned.assign (haddr.trans hnone) hdata hfree
      · rw [hmap, Function.update_self]
        exact h.owned.ne_zero hdata
      · rw [hmap, Function.update_self]
        exact h.block_fresh le_rfl
      · rw [hmap, Function.update_of_ne hq]
      · rw [Function.update_self]
        rfl
    · rw [hmap, Function.update_self]
      exact hnew
  · subst ha
    exact ⟨file, .refl h (by rwa [haddr]), rfl, haddr.symm⟩

theorem entryBlock_spec (h : Handed s file) (htype : (file i).type ≠ 0)
    (hind : (file i).addr (Fin.last ndirect) ≠ 0) (j : Fin nindirect)
    (ha : s.entryBlock (file i) ((file i).addr (Fin.last ndirect)) j = some a)
    (hx : a.x < fssize) :
    Assigned s a.state file file i (.entry j) ∧ a.din = file i ∧
      a.x = addrMap file a.state.block (i, .entry j) := by
  have hlast := addrMap_addr s.block htype (Fin.last ndirect)
  have hheld : addrMap file s.block (i, .addr (Fin.last ndirect)) ≠ 0 := by rwa [hlast]
  have hinddata := h.owned.held _ hheld
  have hindlt := h.held_lt hheld
  rw [hlast] at hinddata hindlt
  have hread : s.block ((file i).addr (Fin.last ndirect)) =
      s.disk ((file i).addr (Fin.last ndirect)) :=
    Layout.view_block_of_isData s.disk hinddata
  have haddr : addrMap file s.block (i, .entry j) =
      word (s.block ((file i).addr (Fin.last ndirect))) j := addrMap_entry htype hind j
  rw [hread] at haddr
  obtain ⟨buf, hbuf, ha⟩ := Option.map_eq_some_iff.mp ha
  obtain rfl := (rsect_eq hbuf).2
  split_ifs at ha with hnone
  · subst ha
    have hnew := word_setWord_self (s.disk ((file i).addr (Fin.last ndirect))) j h.freeblock_lt
    have hlt : s.freeblock < fssize := hnew ▸ hx
    have hdata : layout.IsData s.freeblock := ⟨h.start, hlt⟩
    have hfree : decide (s.freeblock < s.freeblock) = false := decide_eq_false (lt_irrefl _)
    have hzero : Function.update s.block s.freeblock (fun _ => 0) = s.block := by
      rw [← h.block_fresh le_rfl, Function.update_eq_self]
    have hmap := addrMap_setWord h.owned htype hind (j := j) hdata hfree
    rw [hzero, hread] at hmap
    obtain ⟨hblock, hdinode, hsuper⟩ := wsect_data { s with freeblock := s.freeblock + 1 } hinddata
      (setWord (s.disk ((file i).addr (Fin.last ndirect))) j s.freeblock)
    dsimp only
    refine ⟨⟨⟨Nat.le_succ_of_le h.start, hlt, ?_, fun b hb => ?_⟩, ?_,
      fun hne => absurd (haddr.trans hnone) hne, fun _ => ?_, fun q _ hq => ?_, fun q hq hne => ?_,
      fun _ _ => rfl, rfl, hdinode, hsuper, rfl⟩, rfl, ?_⟩
    · rw [hblock, hmap]
      exact used_succ s.freeblock ▸ h.owned.assign (haddr.trans hnone) hdata hfree
    · have hb' : s.freeblock + 1 ≤ b := hb
      exact (Function.update_of_ne (by omega) ..).trans (h.fresh b (by omega))
    · rw [hblock, hmap, Function.update_self]
      exact h.owned.ne_zero hdata
    · rw [hblock, hmap, Function.update_self, Function.update_of_ne (by omega)]
      exact h.block_fresh le_rfl
    · rw [hblock, hmap, Function.update_of_ne hq]
    · rw [hblock]
      refine Function.update_of_ne (fun heq => hq ?_) ..
      rw [← hlast] at heq
      rw [h.owned.inj _ _ heq hne]
    · rw [hblock, hmap, Function.update_self]
      exact hnew
  · subst ha
    exact ⟨.refl h (by rwa [haddr]), rfl, haddr.symm⟩

/-- The block of a file. -/
theorem fileBlock_spec (h : Handed s file) (htype : (file i).type ≠ 0) (hbn : bn < maxFile)
    (ha : s.fileBlock (file i) bn = some a) (hx : a.x < fssize) :
    ∃ file', Assigned s a.state file file' i (Slot.ofIndex bn hbn) ∧ a.din = file' i ∧
      a.x = addrMap file' a.state.block (i, Slot.ofIndex bn hbn) := by
  unfold State.fileBlock at ha
  unfold Slot.ofIndex
  split_ifs at ha ⊢ with hdirect
  · exact addrBlock_spec h htype _ (Option.some.inj ha) hx
  · obtain ⟨buf, hbuf, -⟩ := Option.map_eq_some_iff.mp ha
    obtain ⟨file', hfirst, hdin, hind⟩ :=
      addrBlock_spec h htype (Fin.last ndirect) rfl (rsect_eq hbuf).1
    have htype' : (file' i).type ≠ 0 := by
      rw [hfirst.same]
      exact htype
    rw [addrMap_addr _ htype'] at hind
    have hind_ne : (file' i).addr (Fin.last ndirect) ≠ 0 := by
      rw [← addrMap_addr (s.addrBlock (file i) (Fin.last ndirect)).state.block htype']
      exact hfirst.addr_ne
    dsimp only at ha
    rw [hdin, hind] at ha
    obtain ⟨hsecond, hdin', hx'⟩ :=
      entryBlock_spec hfirst.handed htype' hind_ne ⟨bn - ndirect, _⟩ ha hx
    exact ⟨file', hfirst.trans hsecond (by simp), hdin', hx'⟩

end Blocks

/-! ## Appending to a file -/

/-- The bytes of a file, which ends in its last block; what is behind them is zero. -/
structure Filled (s : State) (file : ℕ → Dinode) (i : ℕ) (c : List UInt8) : Prop where
  /-- The blocks that it has. -/
  blocks : ∀ bn, fileBlock file s.block i bn ≠ 0 ↔ bn * bsize < c.length
  /-- What is in them. -/
  bytes : ∀ k, fileBlock file s.block i (k / bsize) ≠ 0 →
    fileByte file s.block i k = c.getD k 0

/-- Bytes have been appended to a file, and nothing else has changed. -/
structure Appended (s s' : State) (file file' : ℕ → Dinode) (i : ℕ) (c xs : List UInt8) :
    Prop where
  /-- The blocks. -/
  handed : Handed s' file'
  /-- The file. -/
  filled : Filled s' file' i (c ++ xs)
  /-- The other files. -/
  others : ∀ j ≠ i, ∀ d, Filled s file j d → Filled s' file' j d
  /-- The other inodes. -/
  files : ∀ j ≠ i, file' j = file j
  /-- The other fields of the inode. -/
  same : file' i = { file i with addrs := (file' i).addrs }
  /-- The inodes on the disk. -/
  inodes : s'.dinode = s.dinode
  /-- The superblock. -/
  super : s'.disk 1 = s.disk 1
  /-- The inodes handed out. -/
  freeinode : s'.freeinode = s.freeinode

section Append

variable {s s' s'' : State} {file file' file'' : ℕ → Dinode} {i bn turns : ℕ} {din din' : Dinode}
  {c xs ys : List UInt8}

/-- A file has no byte behind its last block. -/
theorem Filled.length_le (h : Filled s file i c) : c.length ≤ maxFile * bsize := by
  by_contra hlt
  exact (h.blocks maxFile).mpr (by omega) (dif_neg (lt_irrefl _))

namespace Appended

theorem refl (h : Handed s file) (hc : Filled s file i c) : Appended s s file file i c [] where
  handed := h
  filled := by rwa [List.append_nil]
  others _ _ _ hd := hd
  files _ _ := rfl
  same := rfl
  inodes := rfl
  super := rfl
  freeinode := rfl

theorem trans (h : Appended s s' file file' i c xs)
    (h' : Appended s' s'' file' file'' i (c ++ xs) ys) :
    Appended s s'' file file'' i c (xs ++ ys) where
  handed := h'.handed
  filled := by
    rw [← List.append_assoc]
    exact h'.filled
  others j hj d hd := h'.others j hj d (h.others j hj d hd)
  files j hj := (h'.files j hj).trans (h.files j hj)
  same := by rw [h'.same, h.same]
  inodes := h'.inodes.trans h.inodes
  super := h'.super.trans h.super
  freeinode := h'.freeinode.trans h.freeinode

end Appended

/-- The blocks of files after the block of one place has been written. -/
theorem Assigned.fileBlock_write {hbn : bn < maxFile}
    (h : Assigned s s' file file' i (Slot.ofIndex bn hbn)) {block : ℕ → Bytes}
    (hmap : addrMap file' block = addrMap file' s'.block) (j bn' : ℕ) :
    fileBlock file' block j bn' = if (j, bn') = (i, bn) then
      addrMap file' s'.block (i, Slot.ofIndex bn hbn) else fileBlock file s.block j bn' := by
  unfold fileBlock
  rw [hmap]
  by_cases hhere : (j, bn') = (i, bn)
  · obtain ⟨rfl, rfl⟩ := Prod.mk.inj hhere
    rw [if_pos hhere, dif_pos hbn]
  · rw [if_neg hhere]
    split_ifs with hbn'
    · refine h.others _ (Slot.ofIndex_ne_last bn' hbn') fun heq => hhere ?_
      obtain ⟨rfl, hslot⟩ := Prod.mk.inj heq
      rw [Slot.ofIndex_inj _ _ hslot]
    · rfl

/-- A block of a file, other than the one that is written, holds what it held. -/
theorem Assigned.content_write {hbn : bn < maxFile}
    (h : Assigned s s' file file' i (Slot.ofIndex bn hbn)) (buf : Bytes) {j bn' : ℕ}
    (hother : (j, bn') ≠ (i, bn)) (hne : fileBlock file s.block j bn' ≠ 0) :
    Function.update s'.block (addrMap file' s'.block (i, Slot.ofIndex bn hbn)) buf
      (fileBlock file s.block j bn') = s.block (fileBlock file s.block j bn') := by
  unfold fileBlock at hne ⊢
  split_ifs at hne ⊢ with hbn'
  · have hslot : (j, Slot.ofIndex bn' hbn') ≠ (i, Slot.ofIndex bn hbn) := by
      intro heq
      obtain ⟨rfl, hslot⟩ := Prod.mk.inj heq
      exact hother (by rw [Slot.ofIndex_inj _ _ hslot])
    have hsame := h.others (j, Slot.ofIndex bn' hbn') (Slot.ofIndex_ne_last bn' hbn') hslot
    rw [Function.update_of_ne, h.content _ (Slot.ofIndex_ne_last bn' hbn') hne]
    intro heq
    rw [← hsame] at heq hne
    exact hslot (h.handed.owned.inj _ _ heq hne)
  · exact absurd rfl hne

theorem pieceSize_le (off n : ℕ) : pieceSize off n ≤ n := Nat.min_le_left ..

/-- A piece does not go behind the block that it is written to. -/
theorem add_pieceSize_le (off n : ℕ) : off + pieceSize off n ≤ (off / bsize + 1) * bsize := by
  unfold pieceSize bsize
  omega

theorem pieceSize_pos {off n : ℕ} (hn : 0 < n) : 0 < pieceSize off n := by
  unfold pieceSize bsize
  omega

theorem getD_append_take {k n : ℕ} (hn : n ≤ xs.length) :
    (c ++ xs.take n).getD k 0 =
      if c.length ≤ k ∧ k < c.length + n then xs.getD (k - c.length) 0 else c.getD k 0 := by
  by_cases hlow : k < c.length
  · rw [if_neg (by omega), List.getD_append _ _ _ _ hlow]
  rw [List.getD_append_right _ _ _ _ (Nat.not_lt.mp hlow)]
  by_cases hhigh : k < c.length + n
  · rw [if_pos ⟨Nat.not_lt.mp hlow, hhigh⟩, List.getD_eq_getElem?_getD,
      List.getD_eq_getElem?_getD, List.getElem?_take, if_pos (by omega)]
  · rw [if_neg (by omega), List.getD_eq_default _ _ (Nat.not_lt.mp hlow),
      List.getD_eq_default]
    rw [List.length_take]
    omega

/-- One turn of the loop appends a piece. -/
theorem iappendTurn_spec (h : Handed s file) (htype : (file i).type ≠ 0)
    (hc : Filled s file i c) (hxs : 0 < xs.length)
    (hturn : s.iappendTurn (file i) c.length xs = some (s', din)) :
    ∃ file', Appended s s' file file' i c (xs.take (pieceSize c.length xs.length)) ∧
      din = file' i := by
  unfold State.iappendTurn at hturn
  split_ifs at hturn with hbn
  obtain ⟨a, ha, hmapped⟩ := Option.bind_eq_some_iff.mp hturn
  obtain ⟨old, hold, hput⟩ := Option.map_eq_some_iff.mp hmapped
  obtain ⟨hxlt, rfl⟩ := rsect_eq hold
  obtain ⟨rfl, rfl⟩ := Prod.mk.inj hput
  obtain ⟨file', hassigned, hdin, hx⟩ := fileBlock_spec h htype hbn ha hxlt
  refine ⟨file', ?_, hdin⟩
  rw [hx]
  have hle := pieceSize_le c.length xs.length
  have hend := add_pieceSize_le c.length xs.length
  have hpos : 0 < pieceSize c.length xs.length := pieceSize_pos hxs
  have hstart := Nat.div_mul_le_self c.length bsize
  generalize pieceSize c.length xs.length = n at hle hend hpos
  have hdata := hassigned.handed.owned.held _ hassigned.addr_ne
  have hlt := hassigned.handed.held_lt hassigned.addr_ne
  have hread := Layout.view_block_of_isData a.state.disk hdata
  rw [← hread]
  set x := addrMap file' a.state.block (i, Slot.ofIndex (c.length / bsize) hbn) with hxdef
  set buf := copy (a.state.block x) (c.length - c.length / bsize * bsize) n (fun k => xs.getD k 0)
    with hbuf
  obtain ⟨hblock, hdinode, hsuper⟩ := wsect_data a.state hdata buf
  have hmap : addrMap file' (a.state.wsect x buf).block = addrMap file' a.state.block := by
    rw [hblock]
    exact addrMap_write hassigned.handed.owned (Slot.ofIndex_ne_last _ _) hxdef.symm
      hassigned.addr_ne buf
  have hfile := hassigned.fileBlock_write hmap
  have hkeep (j k : ℕ) (hother : (j, k / bsize) ≠ (i, c.length / bsize))
      (hne : fileBlock file s.block j (k / bsize) ≠ 0) :
      fileByte file' (a.state.wsect x buf).block j k = fileByte file s.block j k := by
    unfold fileByte
    rw [hfile, if_neg hother, hblock, hassigned.content_write buf hother hne]
  refine ⟨⟨hassigned.handed.start, hassigned.handed.fits, ?_, fun b hb => ?_⟩,
    ⟨fun bn => ?_, fun k hk => ?_⟩,
    fun j hj d hd => ⟨fun bn => ?_, fun k hk => ?_⟩, hassigned.files, hassigned.same,
    hdinode.trans hassigned.inodes, hsuper.trans hassigned.super, hassigned.freeinode⟩
  · rw [hmap]
    exact hassigned.handed.owned
  · have hb' : a.state.freeblock ≤ b := hb
    exact (Function.update_of_ne (by omega) ..).trans (hassigned.handed.fresh b hb)
  · rw [hfile, List.length_append, List.length_take, Nat.min_eq_left hle]
    by_cases hhere : bn = c.length / bsize
    · rw [if_pos (by rw [hhere]), hhere]
      exact iff_of_true hassigned.addr_ne (by omega)
    · rw [if_neg (by simpa using hhere), hc.blocks]
      unfold bsize at hend hstart hhere ⊢
      omega
  · rw [getD_append_take hle]
    by_cases hhere : k / bsize = c.length / bsize
    · have hold : fileBlock file s.block i (k / bsize) =
          addrMap file s.block (i, Slot.ofIndex (c.length / bsize) hbn) := by
        rw [hhere]
        exact dif_pos hbn
      have hrange : c.length ≤ k ∧ k < c.length + n ↔
          c.length - c.length / bsize * bsize ≤ k % bsize ∧
            k % bsize < c.length - c.length / bsize * bsize + n := by
        unfold bsize at hhere ⊢
        omega
      rw [fileByte, hfile, if_pos (by rw [hhere]), hblock, Function.update_self, hbuf]
      by_cases hin : c.length ≤ k ∧ k < c.length + n
      · rw [if_pos hin, copy_of_mem (hrange.mp hin).1 (hrange.mp hin).2]
        congr 1
        unfold bsize at hhere ⊢
        omega
      · have hout : k % bsize < c.length - c.length / bsize * bsize ∨
            c.length - c.length / bsize * bsize + n ≤ k % bsize := by
          rw [hrange] at hin
          omega
        rw [if_neg hin, copy_of_not_mem hout]
        by_cases hnone : addrMap file s.block (i, Slot.ofIndex (c.length / bsize) hbn) = 0
        · -- a new block is zero, and the file ends where it begins
          have hfull : ¬ k / bsize * bsize < c.length := by
            rw [← hc.blocks, hold]
            exact not_not.mpr hnone
          have hmod := Nat.div_mul_le_self k bsize
          rw [hassigned.fresh hnone, List.getD_eq_default _ _ (by omega)]
        · rw [← hc.bytes k (by rwa [hold]), fileByte, hold, hxdef, hassigned.kept hnone]
          exact congrFun (hassigned.content _ (Slot.ofIndex_ne_last _ hbn) hnone) _
    · have hother : (i, k / bsize) ≠ (i, c.length / bsize) := by simpa using hhere
      rw [hfile, if_neg hother] at hk
      rw [hkeep i k hother hk, hc.bytes k hk, if_neg]
      have hbelow := (hc.blocks _).mp hk
      unfold bsize at hbelow hhere
      omega
  · rw [hfile, if_neg (by simp [hj])]
    exact hd.blocks bn
  · have hother : (j, k / bsize) ≠ (i, c.length / bsize) := by simp [hj]
    rw [hfile, if_neg hother] at hk
    rw [hkeep j k hother hk, hd.bytes k hk]

/-- The loop appends all that it is given. The induction is on its turns, each of which appends a
byte at least. -/
theorem iappendLoop_spec (hturns : xs.length ≤ turns) (h : Handed s file)
    (htype : (file i).type ≠ 0) (hc : Filled s file i c)
    (hloop : State.iappendLoop turns s (file i) c.length xs = some (s', din)) :
    ∃ file', Appended s s' file file' i c xs ∧ din = file' i := by
  induction turns generalizing s file c xs with
  | zero =>
    obtain rfl := List.length_eq_zero_iff.mp (Nat.le_zero.mp hturns)
    obtain ⟨rfl, rfl⟩ := Prod.mk.inj (Option.some.inj hloop)
    exact ⟨file, .refl h hc, rfl⟩
  | succ turns ih =>
    rw [State.iappendLoop] at hloop
    split_ifs at hloop with hxs
    · obtain ⟨⟨t, din₁⟩, hturn, hrest⟩ := Option.bind_eq_some_iff.mp hloop
      obtain ⟨file', hfirst, rfl⟩ := iappendTurn_spec h htype hc hxs hturn
      have hpos : 0 < pieceSize c.length xs.length := pieceSize_pos hxs
      have hle := pieceSize_le c.length xs.length
      have htype' : (file' i).type ≠ 0 := by
        rw [hfirst.same]
        exact htype
      have hlength : c.length + pieceSize c.length xs.length =
          (c ++ xs.take (pieceSize c.length xs.length)).length := by
        rw [List.length_append, List.length_take, Nat.min_eq_left hle]
      dsimp only at hrest
      rw [hlength] at hrest
      obtain ⟨file'', hrest', hdin⟩ := ih (by rw [List.length_drop]; omega) hfirst.handed htype'
        hfirst.filled hrest
      have hall := hfirst.trans hrest'
      rw [List.take_append_drop] at hall
      exact ⟨file'', hall, hdin⟩
    · obtain rfl := List.length_eq_zero_iff.mp (Nat.not_lt.mp hxs |> Nat.le_zero.mp)
      obtain ⟨rfl, rfl⟩ := Prod.mk.inj (Option.some.inj hloop)
      exact ⟨file, .refl h hc, rfl⟩

end Append

end Xv6.Mkfs
