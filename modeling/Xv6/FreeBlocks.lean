import Xv6.InodeOps

/-!
# Free blocks and the places of a file

What an operation on a file needs of the free map: every place that holds no address costs
one free block. The places that a range of bytes touches are those of its blocks and, behind
the direct blocks, that of the indirect block.
-/

namespace Xv6.Fs

open LittleEndian StateProg

/-- The places of an inode as a finite type. -/
def Slot.equiv : Fin (ndirect + 1) ⊕ Fin nindirect ≃ Slot where
  toFun
    | .inl k => .addr k
    | .inr j => .entry j
  invFun
    | .addr k => .inl k
    | .entry j => .inr j
  left_inv p := by cases p <;> rfl
  right_inv p := by cases p <;> rfl

instance : Fintype Slot := Fintype.ofEquiv _ Slot.equiv

/-- A block of the file has bytes among the `n` bytes from `off` on. -/
def BlockTouched (off n bn : ℕ) : Prop := 0 < n ∧ off / bsize ≤ bn ∧ bn * bsize < off + n

instance (off n bn : ℕ) : Decidable (BlockTouched off n bn) :=
  inferInstanceAs (Decidable (_ ∧ _ ∧ _))

/-- The places that `bmap` looks at for the `n` bytes from `off` on. -/
def Slot.Touched (off n : ℕ) : Slot → Prop
  | .addr k =>
    if k = Fin.last ndirect then 0 < n ∧ ndirect * bsize < off + n else BlockTouched off n k
  | .entry j => BlockTouched off n (ndirect + j)

instance (off n : ℕ) : (p : Slot) → Decidable (p.Touched off n)
  | .addr _ => inferInstanceAs (Decidable (ite _ _ _))
  | .entry _ => inferInstanceAs (Decidable (BlockTouched _ _ _))

/-- The places that `bmap` looks at for the `n` bytes from `off` on. -/
def touched (off n : ℕ) : Finset Slot := Finset.univ.filter (Slot.Touched off n)

variable (L : Layout)

/-- The address at a place of a cached inode. -/
def slotAt (s : State) (ip : InodePtr) (p : Slot) : ℕ :=
  slotAddr (L.view s.disk).block (s.icache ip).din p

/-- The places of a set that hold no address. -/
def missing (s : State) (ip : InodePtr) (places : Finset Slot) : Finset Slot :=
  places.filter fun p => slotAt L s ip p = 0

/-- The blocks that `balloc` may hand out. -/
def freeBlocks (s : State) : Finset ℕ :=
  (Finset.range L.sb.size).filter fun b => (L.view s.disk).bit b = false

/-- There are enough free blocks for these places of an inode. -/
def Enough (s : State) (ip : InodePtr) (places : Finset Slot) : Prop :=
  (missing L s ip places).card ≤ (freeBlocks L s).card

instance (s : State) (ip : InodePtr) (places : Finset Slot) :
    Decidable (Enough L s ip places) := inferInstanceAs (Decidable (_ ≤ _))

/-- How an allocation for some places fails: the free blocks do not suffice for them. -/
def OutOfBlocks (s : State) (ip : InodePtr) (places : Finset Slot) (halt : Halt) : Prop :=
  halt = .ballocOutOfBlocks ∧ ¬ Enough L s ip places

/-- Some places of an inode may have been given blocks: each costs a free block, addresses stay,
and the log has seen the block of the inode, blocks of the free map and blocks of these places
only. -/
structure Grows (ip : InodePtr) (s s' : State) (places : Finset Slot) : Prop where
  /-- The cached inode. -/
  inum : (s'.icache ip).inum = (s.icache ip).inum
  /-- Every block that is handed out fills a place. -/
  count : (missing L s' ip places).card + (freeBlocks L s).card =
    (missing L s ip places).card + (freeBlocks L s').card
  /-- Addresses stay. -/
  addr : ∀ p, slotAt L s ip p ≠ 0 → slotAt L s' ip p = slotAt L s ip p
  /-- The blocks that the log has seen. -/
  calls : ∃ l : List ℕ, s'.calls = l.map LogCall.logWrite ++ s.calls ∧ ∀ b ∈ l,
    b = L.sb.iblock (s.icache ip).inum ∨ (∃ b', L.IsData b' ∧ b = L.sb.bblock b') ∨
      ∃ p ∈ places, slotAt L s' ip p = b ∧ b ≠ 0

variable {L} {s s' s'' : State} {file file' : ℕ → Dinode} {ip : InodePtr}
  {places : Finset Slot}

theorem Grows.refl : Grows L ip s s places :=
  ⟨rfl, rfl, fun _ _ => rfl, [], rfl, by simp⟩

theorem Grows.trans (h : Grows L ip s s' places) (h' : Grows L ip s' s'' places) :
    Grows L ip s s'' places where
  inum := h'.inum.trans h.inum
  count := by
    have hfirst := h.count
    have hsecond := h'.count
    omega
  addr p hp := by
    have hfirst := h.addr p hp
    rw [h'.addr p (by rwa [hfirst]), hfirst]
  calls := by
    obtain ⟨l, hcalls, hl⟩ := h.calls
    obtain ⟨l', hcalls', hl'⟩ := h'.calls
    refine ⟨l' ++ l, by rw [hcalls', hcalls, List.map_append, List.append_assoc], ?_⟩
    intro b hb
    rcases List.mem_append.mp hb with hb | hb
    · rw [← h.inum]
      exact hl' b hb
    · obtain hinode | hmap | ⟨p, hp, hpb, hb0⟩ := hl b hb
      · exact .inl hinode
      · exact .inr (.inl hmap)
      · exact .inr (.inr ⟨p, hp, by rw [h'.addr p (by rwa [hpb]), hpb], hb0⟩)

/-- What does not suffice after blocks have been handed out did not suffice before. -/
theorem Grows.outOfBlocks (h : Grows L ip s s' places) {halt : Halt}
    (hfail : OutOfBlocks L s' ip places halt) : OutOfBlocks L s ip places halt := by
  obtain ⟨hhalt, hnot⟩ := hfail
  refine ⟨hhalt, fun henough => hnot ?_⟩
  have hcount := h.count
  unfold Enough at henough ⊢
  omega

/-- The places of a valid cached inode are those of the inode that counts. -/
theorem Base.slotAt_eq (h : Base L s file) (hip : Live s ip) (p : Slot) :
    slotAt L s ip p = addrMap file (L.view s.disk).block ((s.icache ip).inum, p) := by
  rw [slotAt, addrMap, if_neg (h.alloc ip hip.ref hip.valid), h.din ip hip.ref hip.valid]

/-- A free block is given to a place that holds no address. -/
theorem Grows.assign {p : Slot} {b : ℕ} (hinum : (s'.icache ip).inum = (s.icache ip).inum)
    (hp : p ∈ places) (hnone : slotAt L s ip p = 0)
    (hdata : L.IsData b) (hfree : (L.view s.disk).bit b = false)
    (hbit : (L.view s'.disk).bit = Function.update (L.view s.disk).bit b true)
    (haddr : ∀ q, slotAt L s' ip q = if q = p then b else slotAt L s ip q)
    (hcalls : ∃ l : List ℕ, s'.calls = l.map LogCall.logWrite ++ s.calls ∧ ∀ b' ∈ l,
      b' = L.sb.bblock b ∨ ∃ q ∈ places, slotAt L s' ip q = b' ∧ b' ≠ 0) :
    Grows L ip s s' places := by
  have hb0 : b ≠ 0 := by
    rintro rfl
    exact L.not_isData_zero hdata
  have hplaces : missing L s' ip places = (missing L s ip places).erase p := by
    ext q
    simp only [missing, Finset.mem_filter, Finset.mem_erase, haddr]
    by_cases hq : q = p
    · subst hq
      simp [hb0]
    · simp [hq]
  have hmissing : p ∈ missing L s ip places := Finset.mem_filter.mpr ⟨hp, hnone⟩
  have hblocks : freeBlocks L s' = (freeBlocks L s).erase b := by
    ext b'
    simp only [freeBlocks, Finset.mem_filter, Finset.mem_erase, hbit]
    by_cases hb' : b' = b
    · subst hb'
      simp
    · simp [hb']
  have hblock : b ∈ freeBlocks L s :=
    Finset.mem_filter.mpr ⟨Finset.mem_range.mpr hdata.2, hfree⟩
  refine ⟨hinum, ?_, fun q hq => ?_, ?_⟩
  · have hone := Finset.card_erase_add_one hmissing
    have htwo := Finset.card_erase_add_one hblock
    rw [hplaces, hblocks]
    omega
  · have hqp : q ≠ p := by
      rintro rfl
      exact hq hnone
    rw [haddr, if_neg hqp]
  · obtain ⟨l, hl, hmem⟩ := hcalls
    refine ⟨l, hl, fun b' hb' => ?_⟩
    obtain rfl | hplace := hmem b' hb'
    · exact .inr (.inl ⟨b, hdata, rfl⟩)
    · exact .inr (.inr hplace)

/-- `balloc` fails only if no block is free; it logs the new block and its block of the free
map. -/
theorem balloc_free (h : Base L s file) :
    wp balloc (fun b s' => s'.calls = [.logWrite b, .logWrite (L.sb.bblock b)] ++ s.calls)
      (fun halt => halt = .ballocOutOfBlocks ∧ freeBlocks L s = ∅) s := by
  unfold balloc
  simp only [wp_bind, wp_get, h.sb]
  cases hfind : (List.range L.sb.size).find?
      fun b => !bitSet (s.disk (L.sb.bblock b)) (b % bpb) with
  | none =>
    rw [wp_throw]
    refine ⟨rfl, Finset.eq_empty_of_forall_notMem fun b hb => ?_⟩
    obtain ⟨hrange, hbit⟩ := Finset.mem_filter.mp hb
    have hlt := Finset.mem_range.mp hrange
    have hused := List.find?_eq_none.mp hfind b (List.mem_range.mpr hlt)
    simp only [Layout.view, hlt, decide_true, Bool.true_and] at hbit
    simp [hbit] at hused
  | some b =>
    simp only [wp_bind, wp_bread, wp_logWrite, bzero, wp_pure]
    rfl

/-- What `bmap` promises about the free blocks, for a place of the inode. -/
def Grown (L : Layout) (ip : InodePtr) (s : State) (places : Finset Slot) (p : Slot) (b : ℕ)
    (s' : State) : Prop :=
  Grows L ip s s' places ∧ slotAt L s' ip p = b ∧ b ≠ 0

/-- No free block is too few for a place without an address. -/
theorem outOfBlocks_of_empty {p : Slot} (hp : p ∈ places) (hnone : slotAt L s ip p = 0)
    {halt : Halt} (hfail : halt = .ballocOutOfBlocks ∧ freeBlocks L s = ∅) :
    OutOfBlocks L s ip places halt := by
  refine ⟨hfail.1, fun henough => ?_⟩
  rw [Enough, hfail.2, Finset.card_empty, Nat.le_zero, Finset.card_eq_zero] at henough
  have hmem : p ∈ missing L s ip places := Finset.mem_filter.mpr ⟨hp, hnone⟩
  simp [henough] at hmem

theorem bmapAddr_grows (h : Base L s file) (hip : Live s ip) (k : Fin (ndirect + 1))
    (hp : Slot.addr k ∈ places) :
    wp (bmapAddr ip k) (Grown L ip s places (.addr k)) (OutOfBlocks L s ip places) s := by
  have halloc := h.alloc ip hip.ref hip.valid
  have hdin := h.din ip hip.ref hip.valid
  unfold bmapAddr
  simp only [wp_bind, wp_inode]
  by_cases hne : (s.icache ip).din.addr k ≠ 0
  · rw [if_pos hne, wp_pure]
    exact ⟨Grows.refl, rfl, hne⟩
  rw [if_neg hne]
  rw [ne_eq, not_not] at hne
  simp only [wp_bind, wp_setInode, wp_pure]
  refine wp_weaken (wp_and (balloc_spec h) (balloc_free h)) ?_
    fun halt hfail => outOfBlocks_of_empty hp hne hfail.2
  rintro b s₁ ⟨⟨hdata, hfree, hstep⟩, hcalls⟩
  have hb0 : b ≠ 0 := h.owned.ne_zero hdata
  have hcache : s₁.icache = s.icache := by rw [hstep.eq]
  have hmap := addrMap_setAddr h.owned halloc (by rwa [← hdin]) hdata hfree
  generalize hs₂ : ({ s₁ with
    icache := Function.update s₁.icache ip { s₁.icache ip with
      din := (s₁.icache ip).din.setAddr k b } } : State) = s₂
  have haddr (q : Slot) : slotAt L s₂ ip q = if q = .addr k then b else slotAt L s ip q := by
    have hq := congrFun hmap ((s.icache ip).inum, q)
    rw [addrMap_update_self, Dinode.type_setAddr, if_neg halloc] at hq
    have hdin₂ : (s₂.icache ip).din = (file (s.icache ip).inum).setAddr k b := by
      rw [← hs₂, hcache, ← hdin]
      simp
    have hblock₂ : (L.view s₂.disk).block =
        Function.update (L.view s.disk).block b fun _ => 0 := by
      rw [← hs₂]
      exact congrArg View.block hstep.view
    rw [slotAt, hdin₂, hblock₂, hq, h.slotAt_eq hip]
    by_cases hqk : q = .addr k
    · rw [hqk, Function.update_self, if_pos rfl]
    · rw [Function.update_of_ne (by simpa using hqk), if_neg hqk]
  have hself : slotAt L s₂ ip (.addr k) = b := by rw [haddr, if_pos rfl]
  refine ⟨.assign ?_ hp hne hdata hfree ?_ haddr ⟨[b, L.sb.bblock b], ?_, ?_⟩, hself, hb0⟩
  · rw [← hs₂, hcache]
    simp
  · rw [← hs₂]
    exact congrArg View.bit hstep.view
  · rw [← hs₂]
    exact hcalls
  · intro b' hb'
    rw [List.mem_cons, List.mem_singleton] at hb'
    rcases hb' with rfl | rfl
    · exact .inr ⟨_, hp, hself, hb0⟩
    · exact .inl rfl

/-- `bmap` on the indirect block `addr` of the inode. -/
theorem bmapEntry_grows (h : Base L s file) (hip : Live s ip) {addr : ℕ} (hne : addr ≠ 0)
    (hind : slotAt L s ip (.addr (Fin.last ndirect)) = addr)
    (hlast : Slot.addr (Fin.last ndirect) ∈ places) (j : Fin nindirect)
    (hp : Slot.entry j ∈ places) :
    wp (bmapEntry addr j) (Grown L ip s places (.entry j)) (OutOfBlocks L s ip places) s := by
  have halloc := h.alloc ip hip.ref hip.valid
  have hheld := hind
  rw [h.slotAt_eq hip] at hheld
  have hdinLast : (file (s.icache ip).inum).addr (Fin.last ndirect) = addr := by
    rwa [addrMap_addr _ halloc] at hheld
  have hdata : L.IsData addr := by
    rw [← hheld]
    exact h.owned.held _ (by rwa [hheld])
  have hblock := Layout.view_block_of_isData s.disk hdata
  have hentry : slotAt L s ip (.entry j) = word (s.disk addr) j := by
    rw [h.slotAt_eq hip, addrMap_entry halloc (by rwa [hdinLast]), hdinLast, hblock]
  unfold bmapEntry
  simp only [wp_bind, wp_bread]
  by_cases hword : word (s.disk addr) j ≠ 0
  · rw [if_pos hword, wp_pure]
    exact ⟨Grows.refl, hentry, hword⟩
  rw [if_neg hword]
  rw [ne_eq, not_not] at hword
  have hnone : slotAt L s ip (.entry j) = 0 := by rw [hentry, hword]
  simp only [wp_bind, wp_logWrite, wp_pure]
  refine wp_weaken (wp_and (balloc_spec h) (balloc_free h)) ?_
    fun halt hfail => outOfBlocks_of_empty hp hnone hfail.2
  rintro b s₁ ⟨⟨hb, hfree, hstep⟩, hcalls⟩
  have hb0 : b ≠ 0 := h.owned.ne_zero hb
  have hcache : s₁.icache = s.icache := by rw [hstep.eq]
  have hmap := addrMap_setWord h.owned halloc (by rwa [hdinLast]) (j := j) hb hfree
  rw [hdinLast, hblock] at hmap
  have hview : L.view (Function.update s₁.disk addr (setWord (s.disk addr) j b)) = _ :=
    Layout.view_block hdata _
  rw [hstep.view] at hview
  generalize hs₂ : ({ s₁ with
    disk := Function.update s₁.disk addr (setWord (s.disk addr) j b)
    calls := .logWrite addr :: s₁.calls } : State) = s₂
  have hdisk₂ : s₂.disk = Function.update s₁.disk addr (setWord (s.disk addr) j b) := by
    rw [← hs₂]
  have haddr (q : Slot) : slotAt L s₂ ip q = if q = .entry j then b else slotAt L s ip q := by
    have hq := congrFun hmap ((s.icache ip).inum, q)
    have hdin₂ : (s₂.icache ip).din = file (s.icache ip).inum := by
      rw [← hs₂, ← h.din ip hip.ref hip.valid, hcache]
    rw [addrMap, if_neg halloc] at hq
    rw [slotAt, hdin₂, hdisk₂, hview, hq, h.slotAt_eq hip]
    by_cases hqj : q = .entry j
    · rw [hqj, Function.update_self, if_pos rfl]
    · rw [Function.update_of_ne (by simpa using hqj), if_neg hqj]
  have hself : slotAt L s₂ ip (.entry j) = b := by rw [haddr, if_pos rfl]
  refine ⟨.assign ?_ hp hnone hb hfree ?_ haddr ⟨[addr, b, L.sb.bblock b], ?_, ?_⟩, hself,
    hb0⟩
  · rw [← hs₂, hcache]
  · rw [hdisk₂, hview]
  · rw [← hs₂, hcalls]
    rfl
  · intro b' hb'
    simp only [List.mem_cons, List.not_mem_nil, or_false] at hb'
    rcases hb' with rfl | rfl | rfl
    · exact .inr ⟨_, hlast, by rw [haddr, if_neg (by simp), hind], hne⟩
    · exact .inr ⟨_, hp, hself, hb0⟩
    · exact .inl rfl

/-- A set of places has those that `bmap` looks at for a block of the file. -/
def Covers (places : Finset Slot) (bn : ℕ) : Prop :=
  (∀ hbn : bn < maxFile, Slot.ofIndex bn hbn ∈ places) ∧
    (ndirect ≤ bn → Slot.addr (Fin.last ndirect) ∈ places)

/-- `bmap` fails only if the free blocks do not suffice for the places. -/
theorem bmap_grows (h : Base L s file) (hip : Live s ip) {bn : ℕ} (hbn : bn < maxFile)
    (hplaces : Covers places bn) :
    wp (bmap ip bn) (Grown L ip s places (Slot.ofIndex bn hbn))
      (OutOfBlocks L s ip places) s := by
  obtain ⟨hslot, hlast⟩ := hplaces
  have hp := hslot hbn
  unfold bmap
  by_cases hdirect : bn < ndirect
  · have hofIndex : Slot.ofIndex bn hbn = .addr ⟨bn, Nat.lt_succ_of_lt hdirect⟩ :=
      dif_pos hdirect
    rw [dif_pos hdirect]
    rw [hofIndex] at hp ⊢
    exact bmapAddr_grows h hip _ hp
  · have hmax : bn - ndirect < nindirect := by
      unfold maxFile at hbn
      omega
    have hofIndex : Slot.ofIndex bn hbn = .entry ⟨bn - ndirect, hmax⟩ := dif_neg hdirect
    have hlast := hlast (by omega)
    rw [dif_neg hdirect, if_pos hmax, wp_bind]
    rw [hofIndex] at hp ⊢
    refine wp_weaken (wp_and (bmapAddr_grows h hip _ hlast) (bmapAddr_spec h hip _)) ?_
      fun halt hfail => hfail.1
    rintro addr s₁ ⟨⟨hgrows₁, haddr₁, hne₁⟩, file₁, hbase₁, hwrites₁, -⟩
    obtain ⟨hlive₁, -⟩ := (hwrites₁ 0 fun _ => 0).live hip
    refine wp_weaken (bmapEntry_grows hbase₁ hlive₁ hne₁ haddr₁ hlast ⟨_, hmax⟩ hp) ?_
      fun halt hfail => hgrows₁.outOfBlocks hfail
    rintro b s₂ ⟨hgrows₂, haddr₂, hne₂⟩
    exact ⟨hgrows₁.trans hgrows₂, haddr₂, hne₂⟩

/-- Writing into a block of the file. -/
theorem writeBlock_grows (h : Base L s file) (hip : Live s ip) {bn b : ℕ} (data : Bytes)
    (hbn : bn < maxFile) (hp : Slot.ofIndex bn hbn ∈ places)
    (haddr : slotAt L s ip (Slot.ofIndex bn hbn) = b) (hne : b ≠ 0) :
    Grows L ip s { s with
      disk := Function.update s.disk b data
      calls := .logWrite b :: s.calls } places := by
  have hblock : fileBlock file (L.view s.disk).block (s.icache ip).inum bn = b := by
    rw [fileBlock, dif_pos hbn, ← h.slotAt_eq hip, haddr]
  obtain ⟨hview, hmap⟩ := writeBlock_addr h data (by rwa [hblock]) hblock
  generalize hs' : ({ s with
    disk := Function.update s.disk b data
    calls := .logWrite b :: s.calls } : State) = s'
  have hslot (q : Slot) : slotAt L s' ip q = slotAt L s ip q := by
    have hq := congrFun hmap ((s.icache ip).inum, q)
    have halloc := h.alloc ip hip.ref hip.valid
    rw [addrMap, addrMap, if_neg halloc, if_neg halloc, ← h.din ip hip.ref hip.valid] at hq
    rw [← hs']
    exact hq
  have hmissing : missing L s' ip places = missing L s ip places := by
    simp only [missing, hslot]
  have hfree : freeBlocks L s' = freeBlocks L s := by
    rw [← hs']
    simp only [freeBlocks, hview]
  refine ⟨by rw [← hs'], by rw [hmissing, hfree], fun q _ => hslot q, [b], by rw [← hs']; rfl,
    ?_⟩
  intro b' hb'
  rw [List.mem_singleton] at hb'
  subst hb'
  exact .inr (.inr ⟨_, hp, (hslot _).trans haddr, hne⟩)

/-- The loop of `writei` fails only if the free blocks do not suffice for the places of the
bytes to write. -/
theorem writeiLoop_grows (h : Base L s file) (hip : Live s ip) {src : Bytes}
    {n fuel tot off : ℕ} (hmax : off + (n - tot) ≤ maxFile * bsize)
    (hplaces : tot < n → ∀ bn, off / bsize ≤ bn → bn * bsize < off + (n - tot) →
      Covers places bn) :
    wp (writeiLoop ip src n fuel tot off) (fun _ s' => Grows L ip s s' places)
      (OutOfBlocks L s ip places) s := by
  induction fuel generalizing tot off s file with
  | zero => exact Grows.refl
  | succ fuel ih =>
    rw [writeiLoop]
    by_cases hlt : tot < n
    · rw [if_pos hlt]
      simp only [wp_bind, wp_bread, wp_logWrite]
      have hle := Nat.div_mul_le_self off bsize
      have hmod := Nat.mod_lt off (show 0 < bsize by decide)
      have hround : 0 < min (n - tot) (bsize - off % bsize) := by omega
      have hbn : off / bsize < maxFile := by
        by_contra hbn
        have hmul := Nat.mul_le_mul_right bsize (Nat.le_of_not_lt hbn)
        omega
      have hcovers := hplaces hlt (off / bsize) le_rfl (by omega)
      refine wp_weaken (wp_and (bmap_grows h hip hbn hcovers) (bmap_spec h hip _)) ?_
        fun halt hfail => hfail.1
      rintro b s₁ ⟨⟨hgrows₁, haddr₁, hne⟩, file₁, hbase₁, hwrites₁, hb, -, -⟩
      generalize hm : min (n - tot) (bsize - off % bsize) = m at hround ⊢
      obtain ⟨hlive₁, hinum₁⟩ := (hwrites₁ 0 fun _ => 0).live hip
      rw [← hinum₁] at hb
      have hgrows₂ := writeBlock_grows hbase₁ hlive₁
        (copy (s₁.disk b) (off % bsize) m fun k => src (tot + k)) hbn (hcovers.1 hbn) haddr₁ hne
      generalize hs₂ : ({ s₁ with
        disk := Function.update s₁.disk b
          (copy (s₁.disk b) (off % bsize) m fun k => src (tot + k))
        calls := .logWrite b :: s₁.calls } : State) = s₂ at hgrows₂ ⊢
      obtain ⟨hbase₂, hwrites₂⟩ := writeBlock_spec hbase₁ hlive₁ (by rwa [hb]) (by omega) hb
        hs₂.symm
      obtain ⟨hlive₂, -⟩ := hwrites₂.live hlive₁
      have hgrows := hgrows₁.trans hgrows₂
      refine wp_weaken
        (ih hbase₂ hlive₂ (by omega) fun _ bn hlo hhi => hplaces hlt bn ?_ (by omega))
        ?_ fun halt hfail => hgrows.outOfBlocks hfail
      · exact (Nat.div_le_div_right (by omega)).trans hlo
      · intro _ s' hgrows'
        exact hgrows.trans hgrows'
    · rw [if_neg hlt, wp_pure]
      exact Grows.refl

theorem mem_touched {off n : ℕ} {p : Slot} : p ∈ touched off n ↔ p.Touched off n := by
  simp [touched]

/-- The places of a range of bytes have those that `bmap` looks at for its blocks. -/
theorem covers_touched {off n bn : ℕ} (hn : 0 < n) (hlo : off / bsize ≤ bn)
    (hhi : bn * bsize < off + n) : Covers (touched off n) bn := by
  refine ⟨fun hbn => mem_touched.mpr ?_, fun hind => mem_touched.mpr ?_⟩
  · unfold Slot.ofIndex
    split_ifs with hdirect
    · have hne : (⟨bn, Nat.lt_succ_of_lt hdirect⟩ : Fin (ndirect + 1)) ≠ Fin.last ndirect :=
        fun heq => absurd (congrArg Fin.val heq) (by simp only [Fin.val_last]; omega)
      rw [Slot.Touched, if_neg hne]
      exact ⟨hn, hlo, hhi⟩
    · have hbn' : ndirect + (bn - ndirect) = bn := by omega
      rw [Slot.Touched, hbn']
      exact ⟨hn, hlo, hhi⟩
  · rw [Slot.Touched, if_pos rfl]
    have hmul := Nat.mul_le_mul_right bsize hind
    omega

/-- The address of a block of a file is at its place. -/
theorem Base.fileBlock_eq (h : Base L s file) (hip : Live s ip) {bn : ℕ} (hbn : bn < maxFile) :
    fileBlock file (L.view s.disk).block (s.icache ip).inum bn =
      slotAt L s ip (Slot.ofIndex bn hbn) := by
  rw [fileBlock, dif_pos hbn, h.slotAt_eq hip]

/-- An entry of the indirect block needs the indirect block. -/
theorem slotAt_last_ne_zero {j : Fin nindirect} (hne : slotAt L s ip (.entry j) ≠ 0) :
    slotAt L s ip (.addr (Fin.last ndirect)) ≠ 0 := by
  intro hzero
  exact hne (if_pos hzero)

/-- Places of bytes whose blocks there are hold addresses. -/
theorem missing_touched (h : Base L s file) (hip : Live s ip) {off n : ℕ}
    (hcovered : ∀ k, off ≤ k → k < off + n →
      fileBlock file (L.view s.disk).block (s.icache ip).inum (k / bsize) ≠ 0) :
    missing L s ip (touched off n) = ∅ := by
  have hslot {bn : ℕ} (htouched : BlockTouched off n bn) :
      ∃ hbn : bn < maxFile, slotAt L s ip (Slot.ofIndex bn hbn) ≠ 0 := by
    obtain ⟨hn, hlo, hhi⟩ := htouched
    have hne := hcovered (max off (bn * bsize)) (by omega) (by omega)
    have hblock : max off (bn * bsize) / bsize = bn := by
      unfold bsize at *
      omega
    rw [hblock] at hne
    have hbn : bn < maxFile := by
      by_contra hbn
      exact hne (dif_neg hbn)
    exact ⟨hbn, by rwa [← h.fileBlock_eq hip]⟩
  refine Finset.filter_eq_empty_iff.mpr fun p hp hzero => ?_
  have htouched := mem_touched.mp hp
  cases p with
  | addr k =>
    by_cases hk : k = Fin.last ndirect
    · rw [Slot.Touched, if_pos hk] at htouched
      obtain ⟨hn, hend⟩ := htouched
      have hlast : BlockTouched off n ((off + n - 1) / bsize) := by
        refine ⟨hn, Nat.div_le_div_right (by omega), ?_⟩
        have hle := Nat.div_mul_le_self (off + n - 1) bsize
        omega
      obtain ⟨hbn, hne⟩ := hslot hlast
      have hind : ¬ (off + n - 1) / bsize < ndirect := by
        unfold bsize ndirect at *
        omega
      rw [Slot.ofIndex, dif_neg hind] at hne
      exact slotAt_last_ne_zero hne (hk ▸ hzero)
    · rw [Slot.Touched, if_neg hk] at htouched
      obtain ⟨hbn, hne⟩ := hslot htouched
      have hdirect : (k : ℕ) < ndirect := by
        have hlt := k.isLt
        have hval : (k : ℕ) ≠ ndirect := fun heq => hk (Fin.ext heq)
        omega
      rw [Slot.ofIndex, dif_pos hdirect] at hne
      exact hne hzero
  | entry j =>
    obtain ⟨hbn, hne⟩ := hslot htouched
    have hind : ¬ ndirect + (j : ℕ) < ndirect := by omega
    have hj : (⟨ndirect + j - ndirect, by omega⟩ : Fin nindirect) = j :=
      Fin.ext (Nat.add_sub_cancel_left ..)
    rw [Slot.ofIndex, dif_neg hind, hj] at hne
    exact hne hzero

/-- `bmap` of a block that the file has. -/
theorem bmap_present (h : Base L s file) (hip : Live s ip) {bn : ℕ}
    (hne : fileBlock file (L.view s.disk).block (s.icache ip).inum bn ≠ 0) :
    bmap ip bn s = .ok (fileBlock file (L.view s.disk).block (s.icache ip).inum bn, s) := by
  have hbn : bn < maxFile := by
    by_contra hbn
    exact hne (dif_neg hbn)
  have hpos : 0 < bsize := by decide
  have hblock (k : ℕ) (hlo : bn * bsize ≤ k) (hhi : k < bn * bsize + 1) : k / bsize = bn := by
    obtain rfl : k = bn * bsize := by omega
    exact Nat.mul_div_cancel bn hpos
  have hmissing : missing L s ip (touched (bn * bsize) 1) = ∅ :=
    missing_touched h hip fun k hlo hhi => by rwa [hblock k hlo hhi]
  have hcovers : Covers (touched (bn * bsize) 1) bn :=
    covers_touched one_pos (Nat.mul_div_cancel bn hpos).le (Nat.lt_succ_self _)
  obtain ⟨b, s', hrun, -, file', hbase, -, hb, -, hsame⟩ := exists_ok
    (wp_weaken (wp_and (bmap_grows h hip hbn hcovers) (bmap_spec h hip bn)) (fun _ _ hpost => hpost)
      fun halt hfail => hfail.1.2
        (by rw [Enough, hmissing, Finset.card_empty]; exact Nat.zero_le _))
  obtain ⟨rfl, rfl⟩ := hsame hne
  rw [hrun, hb]

/-- The loop of `readi` does not fail where the file has its blocks. -/
theorem readiLoop_total (h : Base L s file) (hip : Live s ip) {n fuel tot off : ℕ} {dst : Bytes}
    (hcovered : ∀ bn, bn * bsize < off + (n - tot) →
      fileBlock file (L.view s.disk).block (s.icache ip).inum bn ≠ 0) :
    wp (readiLoop ip n fuel tot off dst) (fun _ _ => True) (fun _ => False) s := by
  induction fuel generalizing tot off dst with
  | zero => trivial
  | succ fuel ih =>
    rw [readiLoop]
    by_cases htot : tot < n
    · have hle := Nat.div_mul_le_self off bsize
      rw [if_pos htot, wp_bind]
      apply wp_of_ok (bmap_present h hip (hcovered (off / bsize) (by omega)))
      simp only [wp_bind, wp_bread]
      exact ih fun bn hbn => hcovered bn (by omega)
    · rw [if_neg htot]
      trivial

end Xv6.Fs
