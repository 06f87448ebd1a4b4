import Xv6.InodeOps

/-!
# Allocation, locking and freeing of inodes

The rules for `bfree`, `itrunc` and `iput`, which give the blocks of an inode back one after
the other, and for `iget`, `ialloc`, `ilock` and `iunlock`.
-/

namespace Xv6.Fs

open LittleEndian StateProg

variable {L : Layout} {s s' s'' : State} {file file' file'' : ℕ → Dinode} {i : ℕ}
  {ip : InodePtr}

/-- `bfree` of a block that is marked clears the mark. -/
theorem bfree_spec (hsb : s.sb = L.sb) (hsuper : getSuperblock (s.disk 1) = L.sb) {b : ℕ}
    (hdata : L.IsData b) (hused : (L.view s.disk).bit b = true) :
    wp (bfree b) (fun _ s' => DiskStep L s s' { L.view s.disk with
      bit := Function.update (L.view s.disk).bit b false }) NotFreeing s := by
  have hset : bitSet (s.disk (L.sb.bblock b)) (b % bpb) = true := by
    simp only [Layout.view, Bool.and_eq_true] at hused
    exact hused.2
  have hbounds := Layout.bblock_bounds hdata.2
  unfold bfree readsb
  simp only [wp_bind, wp_modify, wp_get, wp_bread, wp_panicIf, wp_logWrite, hsuper, hset]
  refine ⟨by simp, fun _ => ⟨by rw [hsb], ?_, ?_⟩⟩
  · refine Layout.view_bitmap hdata.2 fun bi => ?_
    rw [bitSet_clearBit]
    by_cases hbi : bi = b % bpb <;> simp [hbi]
  · dsimp only
    rw [Function.update_of_ne (by omega)]

/-- The addresses without entries of the indirect block of `i` outside of a list. -/
def withoutEntries (addr : ℕ × Slot → ℕ) (i : ℕ) (l : List (Fin nindirect)) : ℕ × Slot → ℕ
  | (i', .addr k) => addr (i', .addr k)
  | (i', .entry j) => if i' = i ∧ j ∉ l then 0 else addr (i', .entry j)

theorem withoutEntries_cons (addr : ℕ × Slot → ℕ) (i : ℕ) {j : Fin nindirect}
    {l : List (Fin nindirect)} (hj : j ∉ l) :
    withoutEntries addr i l =
      Function.update (withoutEntries addr i (j :: l)) (i, .entry j) 0 := by
  funext q
  obtain ⟨i', q⟩ := q
  cases q with
  | addr k => rw [Function.update_of_ne (by simp)]; rfl
  | entry j' =>
    by_cases heq : i' = i ∧ j' = j
    · obtain ⟨rfl, rfl⟩ := heq
      rw [Function.update_self]
      simp [withoutEntries, hj]
    · rw [Function.update_of_ne (by simpa using heq)]
      simp only [withoutEntries, List.mem_cons]
      split_ifs <;> first | rfl | (exfalso; tauto)

theorem withoutEntries_of_zero {addr : ℕ × Slot → ℕ} {i : ℕ} {j : Fin nindirect}
    {l : List (Fin nindirect)} (hzero : addr (i, .entry j) = 0) (hj : j ∉ l) :
    withoutEntries addr i l = withoutEntries addr i (j :: l) := by
  funext q
  obtain ⟨i', q⟩ := q
  cases q with
  | addr k => rfl
  | entry j' =>
    simp only [withoutEntries, List.mem_cons]
    by_cases heq : i' = i ∧ j' = j
    · obtain ⟨rfl, rfl⟩ := heq
      simp [hj, hzero]
    · split_ifs <;> first | rfl | (exfalso; tauto)

theorem withoutEntries_finRange (addr : ℕ × Slot → ℕ) (i : ℕ) :
    withoutEntries addr i (List.finRange nindirect) = addr := by
  funext q
  obtain ⟨i', q⟩ := q
  cases q <;> simp [withoutEntries]

/-- `itrunc` gives back the blocks that the indirect block lists. -/
theorem freeEntries_spec (h : Base L s file) (hip : Live s ip) :
    wp (freeEntries ip) (fun _ s' => ∃ bit, DiskStep L s s' { L.view s.disk with bit } ∧
      (∀ b < L.dataStart, bit b = true) ∧
      OneOwner (withoutEntries (addrMap file (L.view s.disk).block) (s.icache ip).inum [])
        bit L.IsData) NotFreeing s := by
  have halloc := h.alloc ip hip.ref hip.valid
  have hdin := h.din ip hip.ref hip.valid
  unfold freeEntries
  simp only [wp_bind, wp_inode, hdin]
  by_cases hind : (file (s.icache ip).inum).addr (Fin.last ndirect) = 0
  · have hall : withoutEntries (addrMap file (L.view s.disk).block) (s.icache ip).inum [] =
        addrMap file (L.view s.disk).block := by
      funext q
      obtain ⟨i', q⟩ := q
      cases q with
      | addr k => rfl
      | entry j =>
        simp only [withoutEntries]
        split_ifs with hi
        · rw [hi.1]
          simp [addrMap, slotAddr, hind]
        · rfl
    rw [if_neg (by simpa using hind), wp_pure, hall]
    exact ⟨(L.view s.disk).bit, ⟨rfl, rfl, rfl⟩, h.reserved, h.owned⟩
  have hdata : L.IsData ((file (s.icache ip).inum).addr (Fin.last ndirect)) := by
    rw [← addrMap_addr (L.view s.disk).block halloc] at hind ⊢
    exact h.owned.held _ hind
  rw [if_pos hind]
  simp only [wp_bind, wp_bread]
  refine wp_mono (wp_forM (fun l s' => l.Nodup ∧ ∃ bit,
    DiskStep L s s' { L.view s.disk with bit } ∧ (∀ b < L.dataStart, bit b = true) ∧
      OneOwner (withoutEntries (addrMap file (L.view s.disk).block) (s.icache ip).inum l)
        bit L.IsData) (fun j rest s₁ hinv => ?_) ?_) fun _ s₁ hinv => hinv.2
  · obtain ⟨hnodup, bit, hstep, hreserved, howned⟩ := hinv
    rw [List.nodup_cons] at hnodup
    have hword : addrMap file (L.view s.disk).block ((s.icache ip).inum, .entry j) =
        word (s.disk ((file (s.icache ip).inum).addr (Fin.last ndirect))) j := by
      rw [addrMap_entry halloc hind, Layout.view_block_of_isData _ hdata]
    split_ifs with hne
    · rw [← hword] at hne ⊢
      have hkept : withoutEntries (addrMap file (L.view s.disk).block) (s.icache ip).inum
          (j :: rest) ((s.icache ip).inum, .entry j) =
            addrMap file (L.view s.disk).block ((s.icache ip).inum, .entry j) := by
        simp [withoutEntries]
      have hb : L.IsData (addrMap file (L.view s.disk).block ((s.icache ip).inum, .entry j)) :=
        h.owned.held _ hne
      have hused := howned.used_of_held (k := ((s.icache ip).inum, .entry j))
        (by rwa [hkept])
      rw [hkept] at hused
      refine wp_mono (bfree_spec (L := L) ?_ ?_ hb ?_) fun _ s₂ hstep₂ => ?_
      · rw [hstep.eq]
        exact h.sb
      · rw [hstep.superblock, h.superblock]
      · rw [hstep.view]
        exact hused
      · refine ⟨hnodup.2, Function.update bit (addrMap file (L.view s.disk).block
          ((s.icache ip).inum, .entry j)) false, ⟨?_, ?_, ?_⟩, fun b hb' => ?_, ?_⟩
        · rw [hstep₂.eq, hstep.eq]
        · rw [hstep₂.view, hstep.view]
        · rw [hstep₂.superblock, hstep.superblock]
        · have hne' : b ≠ addrMap file (L.view s.disk).block
              ((s.icache ip).inum, .entry j) := by
            rintro rfl
            exact absurd hb.1 (by omega)
          rw [Function.update_of_ne hne']
          exact hreserved b hb'
        · have hrelease := howned.release (by rwa [hkept])
          rwa [hkept, ← withoutEntries_cons _ _ hnodup.1] at hrelease
    · rw [← hword, ne_eq, not_not] at hne
      refine ⟨hnodup.2, bit, hstep, hreserved, ?_⟩
      rwa [withoutEntries_of_zero hne hnodup.1]
  · refine ⟨List.nodup_finRange _, (L.view s.disk).bit, ⟨rfl, rfl, rfl⟩, h.reserved, ?_⟩
    rw [withoutEntries_finRange]
    exact h.owned

/-- `itrunc` gives back the block at one address and clears the address. The owners are given
by any map that has the address. -/
theorem freeAddr_spec (h : Base L s file) (hip : Live s ip) {s₁ : State} {bit : ℕ → Bool}
    (hstep : DiskStep L s s₁ { L.view s.disk with bit }) {k : Fin (ndirect + 1)}
    {addr : ℕ × Slot → ℕ} (hreserved : ∀ b < L.dataStart, bit b = true)
    (howned : OneOwner addr bit L.IsData)
    (haddr : addr ((s.icache ip).inum, .addr k) = (file (s.icache ip).inum).addr k) :
    wp (freeAddr ip k) (fun _ s' => ∃ bit', s'.sb = s.sb ∧ s'.disk 1 = s.disk 1 ∧
      L.view s'.disk = { L.view s.disk with bit := bit' } ∧
      s'.icache = setDin s ip ((file (s.icache ip).inum).setAddr k 0) ∧
      (∀ b < L.dataStart, bit' b = true) ∧
      OneOwner (Function.update addr ((s.icache ip).inum, .addr k) 0) bit' L.IsData)
      NotFreeing s₁ := by
  have hcache : s₁.icache = s.icache := by rw [hstep.eq]
  have hsb : s₁.sb = s.sb := by rw [hstep.eq]
  have hdin : (s₁.icache ip).din = file (s.icache ip).inum := by
    rw [hcache, h.din ip hip.ref hip.valid]
  unfold freeAddr
  simp only [wp_bind, wp_inode, hdin]
  split_ifs with hne
  · have hne' : addr ((s.icache ip).inum, .addr k) ≠ 0 := by rwa [haddr]
    have hdata := howned.held _ hne'
    have hused := howned.used_of_held hne'
    rw [haddr] at hdata hused
    simp only [wp_bind, wp_setInode]
    refine wp_mono (bfree_spec (L := L) (by rw [hsb, h.sb])
      (by rw [hstep.superblock, h.superblock]) hdata (by rw [hstep.view]; exact hused))
      fun _ s₂ hstep₂ => ?_
    have hcache₂ : s₂.icache = s.icache := by rw [hstep₂.eq, hcache]
    refine ⟨Function.update bit ((file (s.icache ip).inum).addr k) false, ?_, ?_, ?_, ?_,
      fun b hb => ?_, ?_⟩
    · rw [hstep₂.eq, hsb]
    · rw [hstep₂.superblock, hstep.superblock]
    · rw [hstep₂.view, hstep.view]
    · rw [hcache₂, h.din ip hip.ref hip.valid]
      rfl
    · have hb' : b ≠ (file (s.icache ip).inum).addr k := by
        rintro rfl
        exact absurd hdata.1 (by omega)
      rw [Function.update_of_ne hb']
      exact hreserved b hb
    · rw [← haddr]
      exact howned.release hne'
  · have hzero : (file (s.icache ip).inum).addr k = 0 := by simpa using hne
    have hset : (file (s.icache ip).inum).setAddr k 0 = file (s.icache ip).inum := by
      have haddrs : (file (s.icache ip).inum).addrs k = UInt32.ofNat 0 := by
        rw [← UInt32.toNat_inj]
        exact hzero
      unfold Dinode.setAddr
      rw [← haddrs, Function.update_eq_self]
    rw [wp_pure]
    refine ⟨bit, hsb, hstep.superblock, hstep.view, ?_, hreserved, ?_⟩
    · rw [hcache, hset, h.setDin_din hip]
    · rw [← hzero, ← haddr, Function.update_eq_self]
      exact howned

/-- What `itrunc` has done to an inode: some addresses are cleared. -/
structure Frees (L : Layout) (ip : InodePtr) (s s' : State) (file file' : ℕ → Dinode) :
    Prop where
  /-- The owners of the blocks and the cache. -/
  base : Base L s' file'
  /-- The cache changes in this inode only. -/
  cache : s'.icache = setDin s ip (file' (s.icache ip).inum)
  /-- The other inodes. -/
  other : ∀ j ≠ (s.icache ip).inum, file' j = file j
  /-- The other fields. -/
  fields : file' (s.icache ip).inum =
    { file (s.icache ip).inum with addrs := (file' (s.icache ip).inum).addrs }
  /-- The contents of the data blocks and the inodes on the disk. -/
  view : ∃ bit, L.view s'.disk = { L.view s.disk with bit }

theorem Frees.refl (h : Base L s file) (hip : Live s ip) : Frees L ip s s file file :=
  ⟨h, (h.setDin_din hip).symm, fun _ _ => rfl, rfl, ⟨_, rfl⟩⟩

theorem Frees.live (h : Frees L ip s s' file file') (hip : Live s ip) :
    Live s' ip ∧ (s'.icache ip).inum = (s.icache ip).inum := by
  have hfields := setDin_fields s ip (file' (s.icache ip).inum) ip
  rw [← h.cache] at hfields
  exact ⟨⟨by rw [hfields.2.1]; exact hip.ref, by rw [hfields.2.2.1]; exact hip.valid⟩, hfields.1⟩

theorem Frees.trans (hip : Live s ip) (h : Frees L ip s s' file file')
    (h' : Frees L ip s' s'' file' file'') : Frees L ip s s'' file file'' := by
  obtain ⟨-, hinum⟩ := h.live hip
  have hcache := h'.cache
  have hother := h'.other
  have hfields := h'.fields
  rw [hinum] at hcache hother hfields
  refine ⟨h'.base, ?_, fun j hj => (hother j hj).trans (h.other j hj), ?_, ?_⟩
  · rw [hcache, setDin, h.cache]
    simp [setDin]
  · rw [hfields, h.fields]
  · obtain ⟨bit, hview⟩ := h.view
    obtain ⟨bit', hview'⟩ := h'.view
    exact ⟨bit', by rw [hview', hview]⟩

theorem Frees.keeps (h : Frees L ip s s' file file') {j : ℕ} (hj : j ≠ (s.icache ip).inum) :
    Keeps L s s' file file' j := by
  obtain ⟨bit, hview⟩ := h.view
  refine ⟨h.other j hj, by rw [hview], fun p => ?_, fun p _ => by rw [hview]⟩
  rw [hview, addrMap, addrMap, h.other j hj]

/-- Clearing one address, when the owners that remain have one owner for every block. -/
theorem Frees.clear (h : Base L s file) (hip : Live s ip) {k : Fin (ndirect + 1)}
    {bit : ℕ → Bool} (hsb : s'.sb = s.sb) (hone : s'.disk 1 = s.disk 1)
    (hview : L.view s'.disk = { L.view s.disk with bit })
    (hcache : s'.icache = setDin s ip ((file (s.icache ip).inum).setAddr k 0))
    (hreserved : ∀ b < L.dataStart, bit b = true)
    (howned : OneOwner (addrMap (Function.update file (s.icache ip).inum
      ((file (s.icache ip).inum).setAddr k 0)) (L.view s.disk).block) bit L.IsData) :
    Frees L ip s s' file (Function.update file (s.icache ip).inum
      ((file (s.icache ip).inum).setAddr k 0)) := by
  have halloc := h.alloc ip hip.ref hip.valid
  have hother (j : ℕ) (hj : j ≠ (s.icache ip).inum) :
      Function.update file (s.icache ip).inum ((file (s.icache ip).inum).setAddr k 0) j =
        file j := Function.update_of_ne hj ..
  refine ⟨h.change hip hsb hone ?_ hother ?_ ?_ ?_, ?_, hother, ?_, ⟨bit, hview⟩⟩
  · rw [Function.update_self, hcache]
  · rwa [Function.update_self, Dinode.type_setAddr]
  · rw [hview]
    exact hreserved
  · rw [hview]
    exact howned
  · rw [Function.update_self, hcache]
  · rw [Function.update_self]
    rfl

/-- Clearing an address in the map of all addresses. -/
theorem addrMap_setAddr_zero {block : ℕ → Bytes} {addr : ℕ × Slot → ℕ}
    {k : Fin (ndirect + 1)} (htype : (file i).type ≠ 0)
    (haddr : ∀ q, q ≠ (i, .addr k) → (k = Fin.last ndirect → ∀ j, q ≠ (i, .entry j)) →
      addr q = addrMap file block q)
    (hentry : k = Fin.last ndirect → ∀ j, addr (i, .entry j) = 0) :
    addrMap (Function.update file i ((file i).setAddr k 0)) block =
      Function.update addr (i, .addr k) 0 := by
  funext q
  obtain ⟨i', q⟩ := q
  by_cases hi : i' = i
  · subst hi
    rw [addrMap_update_self, Dinode.type_setAddr, if_neg htype]
    by_cases hq : q = .addr k
    · subst hq
      rw [Function.update_self]
      exact Dinode.addr_setAddr_self (by norm_num)
    · rw [Function.update_of_ne (by simpa using hq)]
      by_cases hlast : k = Fin.last ndirect ∧ ∃ j, q = .entry j
      · obtain ⟨hk, j, rfl⟩ := hlast
        have hzero : ((file i').setAddr k 0).addr (Fin.last ndirect) = 0 := by
          rw [← hk]
          exact Dinode.addr_setAddr_self (by norm_num)
        simp [slotAddr, hzero, hentry hk j]
      · have hentries (hk : k = Fin.last ndirect) (j : Fin nindirect) : q ≠ .entry j :=
          fun heq => hlast ⟨hk, j, heq⟩
        rw [slotAddr_setAddr_zero hq hentries,
          haddr _ (by simpa using hq) (fun hk j => by simpa using hentries hk j)]
        simp [addrMap, htype]
  · rw [addrMap_update_of_ne hi, Function.update_of_ne (by simp [hi]),
      haddr _ (by simp [hi]) (fun _ _ => by simp [hi])]

/-- `itrunc`, a direct block. -/
theorem freeDirect_spec (h : Base L s file) (hip : Live s ip) {k : Fin (ndirect + 1)}
    (hk : k ≠ Fin.last ndirect) :
    wp (freeAddr ip k) (fun _ s' => ∃ file', Frees L ip s s' file file' ∧
      file' (s.icache ip).inum = (file (s.icache ip).inum).setAddr k 0) NotFreeing s := by
  have halloc := h.alloc ip hip.ref hip.valid
  refine wp_mono (freeAddr_spec h hip ⟨rfl, rfl, rfl⟩ h.reserved h.owned
    (addrMap_addr _ halloc k)) ?_
  rintro _ s' ⟨bit, hsb, hone, hview, hcache, hreserved, howned⟩
  rw [← addrMap_setAddr_zero halloc (fun _ _ _ => rfl) fun hlast => absurd hlast hk] at howned
  exact ⟨_, .clear h hip hsb hone hview hcache hreserved howned, Function.update_self ..⟩

/-- `itrunc`, the direct blocks. -/
theorem freeDirects_spec (h : Base L s file) (hip : Live s ip) :
    wp (((List.finRange ndirect).map Fin.castSucc).forM (freeAddr ip))
      (fun _ s' => ∃ file', Frees L ip s s' file file' ∧
        ∀ k ≠ Fin.last ndirect, (file' (s.icache ip).inum).addrs k = 0) NotFreeing s := by
  refine wp_mono (wp_forM (fun l s' => Fin.last ndirect ∉ l ∧ ∃ file', Frees L ip s s' file file' ∧
    ∀ k ≠ Fin.last ndirect, k ∉ l → (file' (s.icache ip).inum).addrs k = 0)
    (fun k rest s₁ hinv => ?_) ?_) fun _ s' hinv => ?_
  · obtain ⟨hlast, file₁, hfrees₁, hcleared⟩ := hinv
    obtain ⟨hlive₁, hinum₁⟩ := hfrees₁.live hip
    rw [List.mem_cons, not_or] at hlast
    refine wp_mono (freeDirect_spec hfrees₁.base hlive₁ (Ne.symm hlast.1)) ?_
    rintro _ s₂ ⟨file₂, hfrees₂, hset⟩
    refine ⟨hlast.2, file₂, hfrees₁.trans hip hfrees₂, ?_⟩
    intro k' hk' hnot
    rw [hinum₁] at hset
    rw [hset]
    by_cases hkk : k' = k
    · subst hkk
      simp [Dinode.setAddr]
    · simp only [Dinode.setAddr, Function.update_of_ne hkk]
      exact hcleared k' hk' (by simp [hkk, hnot])
  · refine ⟨?_, file, Frees.refl h hip, fun k hk hnot => absurd ?_ hnot⟩
    · rw [List.mem_map]
      rintro ⟨a, -, ha⟩
      exact absurd ha (Fin.castSucc_ne_last a)
    · rw [List.mem_map]
      exact ⟨k.castPred hk, List.mem_finRange _, Fin.castSucc_castPred k hk⟩
  · obtain ⟨-, file', hfrees, hcleared⟩ := hinv
    exact ⟨file', hfrees, fun k hk => hcleared k hk List.not_mem_nil⟩

/-- `itrunc` gives back all blocks of the inode. -/
theorem itrunc_spec (h : Base L s file) (hip : Live s ip) :
    wp (itrunc ip) (fun _ s' => ∃ file', Base L s' file' ∧
      (∀ j ≠ (s.icache ip).inum, Keeps L s s' file file' j) ∧
      (L.view s'.disk).dinode (s.icache ip).inum = file' (s.icache ip).inum ∧
      s'.icache = setDin s ip (file' (s.icache ip).inum) ∧
      file' (s.icache ip).inum =
        { file (s.icache ip).inum with addrs := fun _ => 0, size := 0 }) NotFreeing s := by
  unfold itrunc
  rw [wp_bind]
  refine wp_mono (freeDirects_spec h hip) ?_
  rintro _ s₁ ⟨file₁, hfrees₁, hdirect⟩
  obtain ⟨hlive₁, hinum₁⟩ := hfrees₁.live hip
  have halloc₁ := hfrees₁.base.alloc ip hlive₁.ref hlive₁.valid
  rw [wp_bind]
  refine wp_mono (freeEntries_spec hfrees₁.base hlive₁) ?_
  rintro _ s₂ ⟨bit, hstep, hreserved, howned⟩
  rw [wp_bind]
  refine wp_mono (freeAddr_spec hfrees₁.base hlive₁ hstep hreserved howned
    (addrMap_addr _ halloc₁ _)) ?_
  rintro _ s₃ ⟨bit₃, hsb₃, hone₃, hview₃, hcache₃, hreserved₃, howned₃⟩
  rw [← addrMap_setAddr_zero (i := (s₁.icache ip).inum) halloc₁
    (fun q hq hentry => ?_) (fun _ j => by simp [withoutEntries])] at howned₃
  · have hfrees₃ := Frees.clear hfrees₁.base hlive₁ hsb₃ hone₃ hview₃ hcache₃ hreserved₃ howned₃
    have hfrees := hfrees₁.trans hip hfrees₃
    obtain ⟨hlive₃, hinum₃⟩ := hfrees.live hip
    have haddrs (k : Fin (ndirect + 1)) : (Function.update file₁ (s₁.icache ip).inum
        ((file₁ (s₁.icache ip).inum).setAddr (Fin.last ndirect) 0) (s.icache ip).inum).addrs k =
          0 := by
      rw [hinum₁, Function.update_self]
      by_cases hk : k = Fin.last ndirect
      · simp [Dinode.setAddr, hk]
      · simp only [Dinode.setAddr, Function.update_of_ne hk]
        exact hdirect k hk
    refine wp_mono (store_spec hfrees.base hlive₃ (fun din => { din with size := 0 })
      (fun _ => rfl) (fun _ => rfl)) fun _ s' hstore => ?_
    obtain ⟨file', hfile, hbase, hkeep, hsynced, hcache, -, -⟩ := hstore
    rw [hinum₃] at hfile hkeep hsynced hcache
    refine ⟨file', hbase, fun j hj => (hfrees.keeps hj).trans (hkeep j hj), hsynced, ?_, ?_⟩
    · rw [hcache, setDin, hfrees.cache]
      simp [setDin]
    · rw [hfile, Function.update_self, hfrees.fields]
      congr 1
      funext k
      exact haddrs k
  · obtain ⟨i', q⟩ := q
    cases q with
    | addr k => rfl
    | entry j =>
      have hi : i' ≠ (s₁.icache ip).inum := by
        rintro rfl
        exact hentry rfl j rfl
      simp [withoutEntries, hi]

/-- A change of the cache that at most gives up references and copies. -/
theorem Inv.recache (h : Inv L s file) (hsb : s'.sb = s.sb) (hdisk : s'.disk = s.disk)
    (hcache : ∀ q, 0 < (s'.icache q).ref → 0 < (s.icache q).ref ∧
      (s'.icache q).inum = (s.icache q).inum ∧ ((s'.icache q).valid = true →
        (s.icache q).valid = true ∧ (s'.icache q).din = (s.icache q).din)) :
    Inv L s' file := by
  have hbase := h.base
  refine ⟨⟨hsb.trans hbase.sb, by rw [hdisk, hbase.superblock], fun q hq => ?_,
    fun q q' hq hq' heq => ?_, fun q hq hvalid => ?_, fun q hq hvalid => ?_, ?_, ?_⟩,
    fun j => ⟨?_, ?_, ?_⟩⟩
  · obtain ⟨href, hinum, -⟩ := hcache q hq
    rw [hinum]
    exact hbase.table q href
  · obtain ⟨href, hinum, -⟩ := hcache q hq
    obtain ⟨href', hinum', -⟩ := hcache q' hq'
    rw [hinum, hinum'] at heq
    exact hbase.inj q q' href href' heq
  · obtain ⟨href, hinum, hval⟩ := hcache q hq
    rw [hinum, (hval hvalid).2]
    exact hbase.din q href (hval hvalid).1
  · obtain ⟨href, hinum, hval⟩ := hcache q hq
    rw [hinum]
    exact hbase.alloc q href (hval hvalid).1
  · rw [hdisk]
    exact hbase.reserved
  · rw [hdisk]
    exact hbase.owned
  · rw [hdisk]
    exact (h.files j).synced
  · rw [hdisk]
    exact (h.files j).covered
  · rw [hdisk]
    exact (h.files j).entries

/-- `acquiresleep` on an inode: it succeeds only if the lock was free. -/
theorem acquiresleep_spec (h : Inv L s file) :
    wp (acquiresleep ip) (fun _ s' => Inv L s' file ∧ (s.icache ip).locked = false ∧
      s' = { s with icache := Function.update s.icache ip { s.icache ip with locked := true } })
      NotFreeing s := by
  unfold acquiresleep
  simp only [wp_bind, wp_inode, wp_panicIf, wp_setInode]
  refine ⟨fun _ => by decide, fun hfree => ⟨h.recache rfl rfl fun q hq => ?_, by simpa using hfree,
    trivial⟩⟩
  by_cases hqi : q = ip
  · subst hqi
    simpa using hq
  · simpa [Function.update_of_ne hqi] using hq

theorem stays_of_update {f : Inode} (hcache : s'.icache = Function.update s.icache ip f)
    {q : InodePtr} (hq : q ≠ ip) : Stays s s' q := by
  intro hlive hlock
  have hsame : s'.icache q = s.icache q := by rw [hcache, Function.update_of_ne hq]
  exact ⟨⟨by rw [hsame]; exact hlive.ref, by rw [hsame]; exact hlive.valid⟩, by rw [hsame, hlock],
    by rw [hsame]⟩

/-- `ilock` returns with the inode locked and valid. -/
theorem ilock_spec (h : Inv L s file) :
    wp (ilock ip) (fun _ s' => Inv L s' file ∧ Live s' ip ∧ (s'.icache ip).locked = true ∧
      (s.icache ip).locked = false ∧ (s'.icache ip).inum = (s.icache ip).inum ∧
      ∀ q ≠ ip, Stays s s' q) NotFreeing s := by
  unfold ilock
  simp only [wp_bind, wp_inode, wp_panicIf]
  refine ⟨fun _ => by decide, fun href => ?_⟩
  refine wp_mono (acquiresleep_spec h) ?_
  rintro _ s₁ ⟨hinv₁, hfree, hs₁⟩
  have hcache₁ (q : InodePtr) : s₁.icache q =
      Function.update s.icache ip { s.icache ip with locked := true } q := by rw [hs₁]
  have hself := hcache₁ ip
  rw [Function.update_self] at hself
  have hpos : 0 < (s₁.icache ip).ref := by
    rw [hself]
    dsimp only
    omega
  split_ifs with hvalid
  · rw [wp_pure]
    refine ⟨hinv₁, ⟨hpos, by rw [hself]; exact hvalid⟩, by rw [hself], hfree, by rw [hself],
      fun q hq => ?_⟩
    exact stays_of_update (by rw [hs₁]) hq
  · unfold ilockRead
    simp only [wp_bind, wp_get, wp_inode, wp_bread, wp_setInode, wp_panicIf]
    refine ⟨fun _ => by decide, fun htype => ?_⟩
    have htable := hinv₁.base.table ip hpos
    have hread : getDinode (s₁.disk (s₁.sb.iblock (s₁.icache ip).inum))
        ((s₁.icache ip).inum % ipb * sizeofDinode) = file (s₁.icache ip).inum := by
      rw [← (hinv₁.files _).synced, hinv₁.base.sb]
      exact (if_pos htable).symm
    rw [hread] at htype ⊢
    have hbase := hinv₁.base
    have hinv₂ : Inv L { s₁ with
        icache := Function.update s₁.icache ip
          { s₁.icache ip with din := file (s₁.icache ip).inum, valid := true } } file := by
      refine ⟨⟨hbase.sb, hbase.superblock, fun q hq => ?_, fun q q' hq hq' heq => ?_,
        fun q hq hval => ?_, fun q hq hval => ?_, hbase.reserved, hbase.owned⟩,
        fun j => ⟨(hinv₁.files j).synced, (hinv₁.files j).covered, (hinv₁.files j).entries⟩⟩
      · by_cases hqi : q = ip
        · subst hqi
          simp [htable]
        · simp only [Function.update_of_ne hqi] at hq ⊢
          exact hbase.table q hq
      · refine hbase.inj q q' ?_ ?_ ?_
        · by_cases hqi : q = ip
          · rwa [hqi]
          · simpa [Function.update_of_ne hqi] using hq
        · by_cases hqi : q' = ip
          · rwa [hqi]
          · simpa [Function.update_of_ne hqi] using hq'
        · have hkeep (r : InodePtr) : (Function.update s₁.icache ip
              { s₁.icache ip with din := file (s₁.icache ip).inum, valid := true } r).inum =
                (s₁.icache r).inum := by
            by_cases hr : r = ip
            · subst hr
              simp
            · rw [Function.update_of_ne hr]
          rw [← hkeep q, ← hkeep q']
          exact heq
      · by_cases hqi : q = ip
        · subst hqi
          simp
        · simp only [Function.update_of_ne hqi] at hq hval ⊢
          exact hbase.din q hq hval
      · by_cases hqi : q = ip
        · subst hqi
          simp [htype]
        · simp only [Function.update_of_ne hqi] at hq hval ⊢
          exact hbase.alloc q hq hval
    refine ⟨hinv₂, ⟨?_, ?_⟩, ?_, hfree, ?_, fun q hq => ?_⟩
    · simpa using hpos
    · simp
    · simp [hself]
    · simp [hself]
    · have hlock : Stays s s₁ q := stays_of_update (by rw [hs₁]) hq
      exact hlock.trans (stays_of_update rfl hq)

/-- `iunlock` keeps everything. -/
theorem iunlock_spec (h : Inv L s file) :
    wp (iunlock ip) (fun _ s' => Inv L s' file ∧
      s'.icache = Function.update s.icache ip { s.icache ip with locked := false })
      NotFreeing s := by
  unfold iunlock releasesleep
  simp only [wp_bind, wp_inode, wp_panicIf, wp_setInode]
  refine ⟨fun _ => by decide, fun _ => ⟨h.recache rfl rfl fun q hq => ?_, trivial⟩⟩
  by_cases hqi : q = ip
  · subst hqi
    simpa using hq
  · simpa [Function.update_of_ne hqi] using hq

/-- `iput` truncates and frees an inode without links that nobody else holds. -/
theorem iputFree_spec (h : Inv L s file) :
    wp (iputFree ip) (fun _ s' => ∃ file', Inv L s' file' ∧ ∀ q ≠ ip, Stays s s' q)
      NotFreeing s := by
  unfold iputFree
  simp only [wp_bind, wp_inode]
  split_ifs with hfree
  · obtain ⟨hvalid, -, href⟩ := hfree
    have hip : Live s ip := ⟨by rw [href]; decide, hvalid⟩
    rw [wp_bind]
    refine wp_mono (itrunc_spec h.base hip) ?_
    rintro _ s₁ ⟨file₁, hbase₁, hkeep, hsynced, hcache₁, hfile₁⟩
    have hfields := setDin_fields s ip (file₁ (s.icache ip).inum)
    rw [← hcache₁] at hfields
    have htable := h.base.table ip hip.ref
    simp only [wp_bind, wp_setInode]
    refine wp_mono (iupdate_spec (L := L) hbase₁.sb ?_) fun _ s₂ hstep => ?_
    · simpa [(hfields ip).1] using htable
    have hdin₁ : (s₁.icache ip).din = file₁ (s.icache ip).inum := by
      rw [hcache₁]
      simp [setDin]
    have hview₂ := hstep.view
    simp only [Function.update_self, (hfields ip).1, hdin₁] at hview₂
    have hcache₂ : s₂.icache = Function.update s₁.icache ip
        { s₁.icache ip with din := { (s₁.icache ip).din with type := 0 } } := by rw [hstep.eq]
    generalize hs₃ : ({ s₂ with
      icache := Function.update s₂.icache ip { s₂.icache ip with valid := false } } : State) = s₃
    have hdisk₃ : s₃.disk = s₂.disk := by rw [← hs₃]
    have hcache₃ (q : InodePtr) : (s₃.icache q).inum = (s.icache q).inum ∧
        (s₃.icache q).ref = (s.icache q).ref ∧ (q = ip → (s₃.icache q).valid = false) ∧
        (q ≠ ip → s₃.icache q = s.icache q) := by
      by_cases hq : q = ip
      · subst hq
        rw [← hs₃]
        simp [hcache₂, (hfields q).1, (hfields q).2.1]
      · have hsame : s₃.icache q = s.icache q := by
          rw [← hs₃]
          simp [hcache₂, Function.update_of_ne hq, hcache₁, setDin]
        simp [hsame, hq]
    refine ⟨Function.update file₁ (s.icache ip).inum
      { file₁ (s.icache ip).inum with type := 0 }, ?_, fun q hq => ?_⟩
    · have haddr : addrMap (Function.update file₁ (s.icache ip).inum
          { file₁ (s.icache ip).inum with type := 0 }) (L.view s₃.disk).block =
            addrMap file₁ (L.view s₁.disk).block := by
        rw [hdisk₃, hview₂]
        funext p
        obtain ⟨j, p⟩ := p
        by_cases hj : j = (s.icache ip).inum
        · subst hj
          rw [addrMap_update_self, if_pos rfl, addrMap, hfile₁]
          cases p <;> simp [slotAddr, Dinode.addr]
        · rw [addrMap_update_of_ne hj]
      have hother {q : InodePtr} (hq : q ≠ ip) (href' : 0 < (s₃.icache q).ref) :
          (s₃.icache q).inum ≠ (s.icache ip).inum := by
        rw [(hcache₃ q).1]
        rw [(hcache₃ q).2.1] at href'
        exact fun heq => hq (h.base.inj q ip href' hip.ref heq)
      have hlive₁ {q : InodePtr} (hq : q ≠ ip) : s₁.icache q = s.icache q := by
        rw [hcache₁]
        simp [setDin, Function.update_of_ne hq]
      refine ⟨⟨?_, ?_, fun q hq => ?_, fun q q' hq hq' heq => ?_, fun q hq hval => ?_,
        fun q hq hval => ?_, ?_, ?_⟩, fun j => ?_⟩
      · rw [← hs₃]
        dsimp only
        rw [hstep.eq]
        exact hbase₁.sb
      · rw [hdisk₃, hstep.superblock]
        exact hbase₁.superblock
      · rw [(hcache₃ q).1]
        rw [(hcache₃ q).2.1] at hq
        exact h.base.table q hq
      · rw [(hcache₃ q).1, (hcache₃ q').1] at heq
        rw [(hcache₃ q).2.1] at hq
        rw [(hcache₃ q').2.1] at hq'
        exact h.base.inj q q' hq hq' heq
      · have hqi : q ≠ ip := by
          rintro rfl
          rw [(hcache₃ q).2.2.1 rfl] at hval
          exact absurd hval (by decide)
        rw [Function.update_of_ne (hother hqi hq)]
        have hsame := (hcache₃ q).2.2.2 hqi
        rw [hsame, ← hlive₁ hqi] at hq hval ⊢
        exact hbase₁.din q hq hval
      · have hqi : q ≠ ip := by
          rintro rfl
          rw [(hcache₃ q).2.2.1 rfl] at hval
          exact absurd hval (by decide)
        rw [Function.update_of_ne (hother hqi hq)]
        have hsame := (hcache₃ q).2.2.2 hqi
        rw [hsame, ← hlive₁ hqi] at hq hval ⊢
        exact hbase₁.alloc q hq hval
      · rw [hdisk₃, hview₂]
        exact hbase₁.reserved
      · rw [haddr, hdisk₃, hview₂]
        exact hbase₁.owned
      · by_cases hj : j = (s.icache ip).inum
        · subst hj
          refine ⟨?_, fun htype => ?_, fun htype => ?_⟩
          · rw [hdisk₃, hview₂, Function.update_self]
            exact Function.update_self ..
          · rw [Function.update_self] at htype
            exact absurd rfl htype
          · rw [Function.update_self] at htype
            exact absurd htype (show (0 : Int16) ≠ tDir by decide)
        · refine ((h.files j).keep (hkeep j hj)).keep ⟨?_, ?_, fun p => ?_, fun p _ => ?_⟩
          · rw [Function.update_of_ne hj]
          · rw [hdisk₃, hview₂]
            exact Function.update_of_ne hj ..
          · rw [haddr]
          · rw [hdisk₃, hview₂]
    · intro hlive hlock
      have hsame := (hcache₃ q).2.2.2 hq
      exact ⟨⟨by rw [hsame]; exact hlive.ref, by rw [hsame]; exact hlive.valid⟩,
        by rw [hsame, hlock], by rw [hsame]⟩
  · exact ⟨file, h, fun q _ => Stays.refl s q⟩

/-- `iput` keeps the invariant, whatever it does to the inode. -/
theorem iput_spec (h : Inv L s file) :
    wp (iput ip) (fun _ s' => ∃ file', Inv L s' file' ∧ ∀ q, Stays s s' q) NotFreeing s := by
  unfold iput releasesleep
  simp only [wp_bind, wp_setInode]
  refine wp_mono (acquiresleep_spec h) ?_
  rintro _ s₁ ⟨hinv₁, hfree, hs₁⟩
  refine wp_mono (iputFree_spec hinv₁) ?_
  rintro _ s₂ ⟨file₂, hinv₂, hstays⟩
  refine ⟨file₂, hinv₂.recache rfl rfl fun q hq => ?_, fun q => ?_⟩
  · by_cases hqi : q = ip
    · subst hqi
      simp only [Function.update_self] at hq ⊢
      exact ⟨by omega, trivial, fun hval => ⟨hval, trivial⟩⟩
    · simpa [Function.update_of_ne hqi] using hq
  · by_cases hqi : q = ip
    · subst hqi
      intro _ hlock
      rw [hfree] at hlock
      exact absurd hlock (by decide)
    · have hrelease : Stays s₂ { s₂ with
          icache := Function.update s₂.icache ip { s₂.icache ip with locked := false } } q :=
        stays_of_update rfl hqi
      exact (stays_of_update (by rw [hs₁]) hqi).trans
        ((hstays q hqi).trans (hrelease.trans (stays_of_update rfl hqi)))

/-- `iunlockput` keeps the invariant and the other locked inodes. -/
theorem iunlockput_spec (h : Inv L s file) :
    wp (iunlockput ip) (fun _ s' => ∃ file', Inv L s' file' ∧ ∀ q ≠ ip, Stays s s' q)
      NotFreeing s := by
  unfold iunlockput
  rw [wp_bind]
  refine wp_mono (iunlock_spec h) ?_
  rintro _ s₁ ⟨hinv₁, hcache₁⟩
  refine wp_mono (iput_spec hinv₁) ?_
  rintro _ s₂ ⟨file₂, hinv₂, hstays⟩
  refine ⟨file₂, hinv₂, fun q hq => ?_⟩
  exact (stays_of_update hcache₁ hq).trans (hstays q)

/-- `iget` of an inode number in use. -/
theorem iget_spec (h : Inv L s file) {inum : ℕ} (htable : L.InTable inum) :
    wp (iget inum) (fun _ s' => Inv L s' file ∧ ∀ q, Stays s s' q) NotFreeing s := by
  unfold iget
  simp only [wp_bind, wp_get]
  cases hfind : (List.finRange ninode).find? fun ip =>
      decide (0 < (s.icache ip).ref ∧ (s.icache ip).inum = inum) with
  | some ip =>
    obtain ⟨href, -⟩ : 0 < (s.icache ip).ref ∧ (s.icache ip).inum = inum := by
      simpa using List.find?_some hfind
    simp only [wp_bind, wp_setInode, wp_pure]
    refine ⟨h.recache rfl rfl fun q hq => ?_, fun q hlive hlock => ?_⟩
    · by_cases hqi : q = ip
      · subst hqi
        simp [href]
      · simpa [Function.update_of_ne hqi] using hq
    · by_cases hqi : q = ip
      · subst hqi
        refine ⟨⟨?_, ?_⟩, ?_, ?_⟩
        · simp only [Function.update_self]
          omega
        · simpa using hlive.valid
        · simpa using hlock
        · simp
      · exact stays_of_update rfl hqi hlive hlock
  | none =>
    dsimp only
    cases hempty : (List.finRange ninode).find? fun ip => decide ((s.icache ip).ref = 0) with
    | none => simp [NotFreeing]
    | some ip =>
      have href : (s.icache ip).ref = 0 := by simpa using List.find?_some hempty
      have hnone (q : InodePtr) (hq : 0 < (s.icache q).ref) : (s.icache q).inum ≠ inum := by
        intro heq
        have hall := List.find?_eq_none.mp hfind q (List.mem_finRange q)
        simp [hq, heq] at hall
      have hbase := h.base
      simp only [wp_bind, wp_setInode, wp_pure]
      refine ⟨⟨⟨hbase.sb, hbase.superblock, fun q hq => ?_, fun q q' hq hq' heq => ?_,
        fun q hq hval => ?_, fun q hq hval => ?_, hbase.reserved, hbase.owned⟩,
        fun j => ⟨(h.files j).synced, (h.files j).covered, (h.files j).entries⟩⟩, fun q => ?_⟩
      · by_cases hqi : q = ip
        · subst hqi
          simpa using htable
        · simp only [Function.update_of_ne hqi] at hq ⊢
          exact hbase.table q hq
      · by_cases hqi : q = ip <;> by_cases hqi' : q' = ip
        · rw [hqi, hqi']
        · subst hqi
          simp only [Function.update_self, Function.update_of_ne hqi'] at hq' heq
          exact absurd heq.symm (hnone q' hq')
        · subst hqi'
          simp only [Function.update_self, Function.update_of_ne hqi] at hq heq
          exact absurd heq (hnone q hq)
        · simp only [Function.update_of_ne hqi, Function.update_of_ne hqi'] at hq hq' heq
          exact hbase.inj q q' hq hq' heq
      · by_cases hqi : q = ip
        · subst hqi
          simp at hval
        · simp only [Function.update_of_ne hqi] at hq hval ⊢
          exact hbase.din q hq hval
      · by_cases hqi : q = ip
        · subst hqi
          simp at hval
        · simp only [Function.update_of_ne hqi] at hq hval ⊢
          exact hbase.alloc q hq hval
      · by_cases hqi : q = ip
        · subst hqi
          intro hlive _
          have hpos := hlive.ref
          omega
        · exact stays_of_update rfl hqi

/-- `ialloc` of a type takes a free inode and clears it. -/
theorem ialloc_spec (h : Inv L s file) {type : Int16} (htype : type ≠ 0) :
    wp (ialloc type) (fun _ s' => ∃ file', Inv L s' file' ∧ ∀ q, Stays s s' q) NotFreeing s := by
  unfold ialloc
  simp only [wp_bind, wp_get, h.base.sb]
  cases hfind : (List.range' 1 (L.sb.ninodes - 1)).find? fun inum =>
      decide ((getDinode (s.disk (L.sb.iblock inum)) (inum % ipb * sizeofDinode)).type = 0) with
  | none => simp [NotFreeing]
  | some inum =>
    have hmem := List.mem_range'_1.mp (List.mem_of_find?_eq_some hfind)
    have htable : L.InTable inum := ⟨by omega, by have := L.ninodes_le; omega⟩
    have hfree : (file inum).type = 0 := by
      rw [← (h.files inum).synced]
      simpa [Layout.view, htable] using List.find?_some hfind
    have hbounds := Layout.iblock_bounds htable
    simp only [wp_bind, wp_bread, wp_logWrite]
    generalize hs₁ : ({ s with
      disk := Function.update s.disk (L.sb.iblock inum)
        (putDinode (s.disk (L.sb.iblock inum)) (inum % ipb * sizeofDinode)
          { Dinode.zero with type })
      calls := .logWrite (L.sb.iblock inum) :: s.calls } : State) = s₁
    have hview : L.view s₁.disk = { L.view s.disk with
        dinode := Function.update (L.view s.disk).dinode inum { Dinode.zero with type } } := by
      rw [← hs₁]
      exact Layout.view_putDinode htable _
    have hcache₁ : s₁.icache = s.icache := by rw [← hs₁]
    have haddr : addrMap (Function.update file inum { Dinode.zero with type })
        (L.view s₁.disk).block = addrMap file (L.view s.disk).block := by
      rw [hview]
      funext p
      obtain ⟨j, p⟩ := p
      by_cases hj : j = inum
      · subst hj
        rw [addrMap_update_self, if_neg htype, addrMap_of_type_eq_zero hfree]
        cases p <;> simp [slotAddr, Dinode.addr, Dinode.zero]
      · rw [addrMap_update_of_ne hj]
    have hne (q : InodePtr) (hq : 0 < (s.icache q).ref) (hval : (s.icache q).valid = true) :
        (s.icache q).inum ≠ inum := by
      rintro rfl
      exact h.base.alloc q hq hval hfree
    have hbase := h.base
    have hinv₁ : Inv L s₁ (Function.update file inum { Dinode.zero with type }) := by
      refine ⟨⟨?_, ?_, fun q hq => ?_, fun q q' hq hq' heq => ?_, fun q hq hval => ?_,
        fun q hq hval => ?_, ?_, ?_⟩, fun j => ?_⟩
      · rw [← hs₁]
        exact hbase.sb
      · rw [← hs₁]
        dsimp only
        rw [Function.update_of_ne (by omega), hbase.superblock]
      · rw [hcache₁] at hq ⊢
        exact hbase.table q hq
      · rw [hcache₁] at hq hq' heq
        exact hbase.inj q q' hq hq' heq
      · rw [hcache₁] at hq hval ⊢
        rw [Function.update_of_ne (hne q hq hval)]
        exact hbase.din q hq hval
      · rw [hcache₁] at hq hval ⊢
        rw [Function.update_of_ne (hne q hq hval)]
        exact hbase.alloc q hq hval
      · rw [hview]
        exact hbase.reserved
      · rw [haddr, hview]
        exact hbase.owned
      · by_cases hj : j = inum
        · subst hj
          refine ⟨?_, fun _ bn hbn => ?_, fun _ off _ hoff => ?_⟩
          · rw [hview, Function.update_self]
            exact Function.update_self ..
          · simp [Dinode.zero] at hbn
          · simp [Dinode.zero, sizeofDirent] at hoff
        · refine (h.files j).keep ⟨?_, ?_, fun p => ?_, fun p _ => ?_⟩
          · rw [Function.update_of_ne hj]
          · rw [hview]
            exact Function.update_of_ne hj ..
          · rw [haddr]
          · rw [hview]
    refine wp_mono (iget_spec hinv₁ htable) ?_
    rintro _ s₂ ⟨hinv₂, hstays⟩
    refine ⟨_, hinv₂, fun q => ?_⟩
    exact (stays_of_cache hcache₁ q).trans (hstays q)

end Xv6.Fs
