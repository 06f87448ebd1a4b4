import Xv6.MkfsImage
import Xv6.PathResolution

/-!
# What the kernel finds on the disk

The kernel starts from the image that `mkfs` has made: `namei` finds the files under their names in
the root directory, and `readi` reads their bytes.
-/

namespace Xv6.Mkfs

open Fs LittleEndian StateProg SlotMap

/-- The inode with a name in the root directory: of the files with this name, the first. -/
def inodeNamed (files : List HostFile) (n : List UInt8) : Option ℕ :=
  if n = nameOf dotName ∨ n = nameOf dotdotName then some rootIno
  else (files.findIdx? fun f => nameOf f.target = n).map (· + 2)

/-- The inode that a path leads to. There is no directory but the root. -/
def inodeAt (files : List HostFile) (ns : List (List UInt8)) : Option ℕ :=
  ns.foldlM (fun i n => if i = rootIno then inodeNamed files n else none) rootIno

variable {s : State} {files : List HostFile} {path : List UInt8}

/-- The root is a directory, and there is no other. -/
theorem Made.dir_iff (h : Made s files) (i : ℕ) : (s.dinode i).type = tDir ↔ i = rootIno := by
  by_cases hused : 0 < i ∧ i < files.length + 2
  · rw [h.type i hused.1 hused.2]
    split_ifs with hi
    · exact iff_of_true rfl hi
    · exact iff_of_false (by decide) hi
  · rw [h.unused i hused]
    refine iff_of_false (by decide) fun hi => hused ?_
    rw [hi]
    exact ⟨by decide, by unfold rootIno; omega⟩

/-- The first entry with a name. -/
theorem find?_rootEntries (files : List HostFile) (n : List UInt8) :
    (((rootEntries files).map fun x => (nameOf x.2, x.1)).find? fun e => e.1 = n).map Prod.snd =
      inodeNamed files n := by
  have hfiles (k : ℕ) : ((((files.zipIdx k).map fun x => (x.2, strncpy x.1.target dirSiz)).map
      fun x => (nameOf x.2, x.1)).find? fun e => e.1 = n).map Prod.snd =
      (files.findIdx? fun f => nameOf f.target = n).map (· + k) := by
    induction files generalizing k with
    | nil => rfl
    | cons f files ih =>
      rw [List.zipIdx_cons, List.map_cons, List.map_cons, List.find?_cons, List.findIdx?_cons]
      dsimp only
      rw [nameOf_strncpy]
      by_cases hname : nameOf f.target = n
      · simp [hname]
      · simp only [hname, decide_false, Bool.false_eq_true, if_false]
        rw [ih, Option.map_map]
        congr 1
        funext i
        exact (Nat.add_right_comm i 1 k).symm ▸ rfl
  unfold rootEntries inodeNamed
  rw [List.map_append, List.map_cons, List.map_cons, List.map_nil, List.cons_append,
    List.cons_append, List.nil_append, List.find?_cons, List.find?_cons]
  by_cases hdot : n = nameOf dotName
  · simp [hdot]
  by_cases hdotdot : n = nameOf dotdotName
  · have hne : nameOf dotName ≠ nameOf dotdotName := by decide
    simp [hdotdot, hne]
  · simp only [Ne.symm hdot, Ne.symm hdotdot, hdot, hdotdot, decide_false, or_self, if_false]
    exact hfiles 2

/-- The root directory: the entries that `mkfs` has written, and free ones up to the end of the
block. -/
theorem Made.slotsOf_root (h : Made s files) (hroom : files.length + 2 ≤ layout.nino)
    (himage : Image layout s.disk) :
    ∃ n, slotsOf (s.bytes rootIno) =
      ((rootEntries files).map fun x => (nameOf x.2, x.1)).map some ++ List.replicate n none := by
  have hroot : rootIno < files.length + 2 := by
    unfold rootIno
    omega
  have hfilled := h.filled rootIno (by decide) hroot
  have hsize := h.size rootIno (by decide) hroot
  have hcontents : contents files rootIno = rootBytes files := if_pos rfl
  have hlength := length_rootBytes files
  have hentries : (rootEntries files).length = files.length + 2 := by simp [rootEntries]
  rw [if_pos rfl] at hsize
  rw [hcontents] at hfilled hsize
  have hdir : (s.dinode rootIno).type ≠ 0 := by
    rw [h.type rootIno (by decide) hroot, if_pos rfl]
    decide
  -- the size is that of a number of entries
  obtain ⟨m, hm, hmore⟩ : ∃ m, (s.dinode rootIno).size.toNat = sizeofDirent * m ∧
      files.length + 2 ≤ m := by
    refine ⟨(s.dinode rootIno).size.toNat / sizeofDirent, ?_, ?_⟩
    · unfold bsize sizeofDirent at *
      omega
    · unfold bsize sizeofDirent at *
      omega
  have hslots : (s.bytes rootIno).length / sizeofDirent = m := by
    rw [State.bytes, length_firstBytes, hm, Nat.mul_div_cancel_left _ (by decide)]
  have hbyte {k j : ℕ} (hk : k < m) (hj : j < sizeofDirent) :
      sizeofDirent * k + j < (s.dinode rootIno).size.toNat := by
    rw [hm]
    unfold sizeofDirent at *
    omega
  refine ⟨m - (files.length + 2), ?_⟩
  apply List.ext_getElem?
  intro k
  rw [getElem?_slotsOf, hslots]
  by_cases hk : k < (rootEntries files).length
  · have hslot : slotOf (fun j => (s.bytes rootIno).getD (sizeofDirent * k + j) 0) =
        some (nameOf ((rootEntries files)[k]).2, ((rootEntries files)[k]).1) := by
      rw [← h.slot hroom (List.getElem?_eq_getElem hk)]
      exact slotOf_congr fun j hj => getD_firstBytes _ (hbyte (by omega) hj)
    rw [if_pos (by omega), hslot, List.getElem?_append_left (by simpa using hk), List.map_map,
      List.getElem?_map, List.getElem?_eq_getElem hk, Option.map_some, Function.comp_apply]
  · rw [List.getElem?_append_right (by simpa using hk), List.getElem?_replicate]
    simp only [List.length_map, hentries]
    by_cases hend : k < m
    · rw [if_pos hend, if_pos (by omega)]
      have hzero (j : ℕ) (hj : j < sizeofDirent) :
          (s.bytes rootIno).getD (sizeofDirent * k + j) 0 = 0 := by
        have hbelow := hbyte hend hj
        -- behind the last entry, the block is as it was handed out
        rw [State.bytes, getD_firstBytes _ hbelow, hfilled.bytes _ (himage.covered rootIno hdir _
          ((Nat.div_mul_le_self _ _).trans_lt hbelow))]
        refine List.getD_eq_default _ _ ?_
        rw [hlength]
        unfold sizeofDirent
        omega
      rw [slotOf_congr hzero, slotOf_zero]
    · rw [if_neg hend, if_neg (by omega)]

/-- A name in the root directory. -/
theorem Made.lookupIn_eq (h : Made s files) (hroom : files.length + 2 ≤ layout.nino)
    (himage : Image layout s.disk) (i : ℕ) (n : List UInt8) :
    lookupIn s.dinode s.bytes i n = if i = rootIno then inodeNamed files n else none := by
  unfold lookupIn
  by_cases hi : i = rootIno
  · obtain ⟨k, hslots⟩ := h.slotsOf_root hroom himage
    rw [if_pos ((h.dir_iff i).mpr hi), if_pos hi, hi, hslots, values_filled, find?_rootEntries]
  · rw [if_neg fun hdir => hi ((h.dir_iff i).mp hdir), if_neg hi]

theorem Made.resolve_eq (h : Made s files) (hroom : files.length + 2 ≤ layout.nino)
    (himage : Image layout s.disk) (ns : List (List UInt8)) :
    resolve s.dinode s.bytes rootIno ns = inodeAt files ns := by
  have hlookup : lookupIn s.dinode s.bytes =
      fun i n => if i = rootIno then inodeNamed files n else none := by
    funext i n
    exact h.lookupIn_eq hroom himage i n
  rw [resolve, hlookup, inodeAt]

theorem inodeNamed_lt {n : List UInt8} {i : ℕ} (hn : inodeNamed files n = some i) :
    0 < i ∧ i < files.length + 2 := by
  unfold inodeNamed at hn
  split_ifs at hn
  · obtain rfl := Option.some.inj hn
    exact ⟨by decide, by unfold rootIno; omega⟩
  · obtain ⟨j, hj, rfl⟩ := Option.map_eq_some_iff.mp hn
    obtain ⟨hlt, -⟩ := List.findIdx?_eq_some_iff_getElem.mp hj
    omega

theorem inodeAt_lt {ns : List (List UInt8)} {i : ℕ} (hi : inodeAt files ns = some i) :
    0 < i ∧ i < files.length + 2 := by
  rcases List.eq_nil_or_concat ns with rfl | ⟨ns, n, rfl⟩
  · obtain rfl := Option.some.inj hi
    exact ⟨by decide, by unfold rootIno; omega⟩
  · -- the last name has been found in the root directory
    rw [inodeAt, List.concat_eq_append, List.foldlM_append] at hi
    obtain ⟨j, -, hlast⟩ := Option.bind_eq_some_iff.mp hi
    rw [List.foldlM_cons] at hlast
    obtain ⟨k, hk, hend⟩ := Option.bind_eq_some_iff.mp hlast
    obtain rfl := Option.some.inj hend
    split_ifs at hk
    exact inodeNamed_lt hk

/-- The inodes that have been handed out are linked. -/
theorem Made.stable (h : Made s files) (hroom : files.length + 2 ≤ layout.nino) (t : Fs.State)
    {i : ℕ} (hi : 0 < i) (hlt : i < files.length + 2) : Stable layout t s.dinode i := by
  refine ⟨⟨hi, hlt.trans_le hroom⟩, ?_, .inl ?_⟩
  · rw [h.type i hi hlt]
    split_ifs <;> decide
  · rw [h.nlink i hi hlt]
    decide

/-- The kernel starts in a consistent state. -/
theorem Made.consistent (h : Made s files) (hroom : files.length + 2 ≤ layout.nino)
    (himage : Image layout s.disk) (devsw : Fin ndev → Devsw) :
    Consistent layout (boot s.disk devsw) s.dinode s.bytes := by
  have hroot : rootIno < files.length + 2 := by
    unfold rootIno
    omega
  have hnone (q : InodePtr) : ¬ 0 < ((boot s.disk devsw).icache q).ref := by
    simp [boot, bootCache]
  refine ⟨(inv_boot himage devsw).base, fun q => le_rfl, fun q => rfl, fun i => rfl,
    fun q hq => absurd hq (hnone q), fun i hdir => ⟨⟨rfl, fun bn hbn => ?_, rfl⟩, ?_⟩,
    fun i hdir k n j hslot => ?_, h.stable hroom _ (by decide) hroot⟩
  · exact himage.covered i (by rw [hdir]; decide) bn hbn
  · obtain rfl := (h.dir_iff i).mp hdir
    rw [State.bytes, length_firstBytes, h.size rootIno (by decide) hroot, if_pos rfl]
    exact (by decide : sizeofDirent ∣ bsize).mul_left _
  · obtain rfl := (h.dir_iff i).mp hdir
    obtain ⟨m, hslots⟩ := h.slotsOf_root hroom himage
    rw [hslots] at hslot
    have hmem := List.mem_of_getElem? hslot
    simp only [List.mem_append, List.mem_map, List.mem_replicate, reduceCtorEq, and_false,
      or_false, Option.some.injEq] at hmem
    obtain ⟨-, ⟨x, hx, rfl⟩, heq⟩ := hmem
    obtain ⟨e, hentry⟩ := List.mem_iff_getElem?.mp hx
    obtain rfl : x.1 = j := congrArg Prod.snd heq
    obtain rfl | rfl | ⟨f, i, hlow, hlt, rfl⟩ := rootEntries_cases hentry
    · exact h.stable hroom _ (by decide) hroot
    · exact h.stable hroom _ (by decide) hroot
    · exact h.stable hroom _ (by omega) hlt

/-- A walk needs one entry of the inode cache besides those in use and the one it is at. -/
theorem room_of_card {C : Finset ℕ} (hcard : C.card + 1 < ninode) (file : ℕ → Dinode)
    (contents : ℕ → List UInt8) (i : ℕ) (ns : List (List UInt8)) : Room file contents C i ns := by
  induction ns generalizing i with
  | nil => trivial
  | cons n ns ih =>
    have hle := Finset.card_insert_le i C
    exact fun j _ => ⟨.inr (by omega), ih j⟩

/-- The first walk of the kernel, along an absolute path. -/
theorem Made.namei (h : Made s files) (hroom : files.length + 2 ≤ layout.nino)
    (himage : Image layout s.disk) (devsw : Fin ndev → Devsw) (cwd : InodePtr)
    (hslash : path.head? = some slash) (hnul : 0 ∉ path) (name : Bytes) :
    ∃ r s₁, Fs.namei cwd path name (boot s.disk devsw) = .ok (r, s₁) ∧
      Arrived layout (boot s.disk devsw) s₁ s.dinode (inodeAt files (components path)) r := by
  have hc := h.consistent hroom himage devsw
  have hcached : cached (boot s.disk devsw) = ∅ := by
    simp [cached, boot, bootCache]
  have hstart : startOf (boot s.disk devsw) cwd path = rootIno := if_pos hslash
  have hroom' : Room s.dinode s.bytes (cached (boot s.disk devsw))
      (startOf (boot s.disk devsw) cwd path) (lookedUp false (components path)) := by
    rw [hcached]
    exact room_of_card (by decide) ..
  obtain ⟨r, s₁, hrun, harrived, -⟩ := hc.namex (fun hno => absurd hslash hno) hnul
    (fun _ => .inr (by rw [hcached]; decide)) hroom' name
  have htarget : target s.dinode s.bytes false (startOf (boot s.disk devsw) cwd path)
      (components path) = inodeAt files (components path) := by
    rw [hstart]
    exact h.resolve_eq hroom himage _
  rw [htarget] at harrived
  refine ⟨r.map Prod.fst, s₁, ?_, harrived⟩
  unfold Fs.namei
  rw [run_bind hrun]
  rfl

/-- The kernel finds on the disk what `mkfs` has put there. An absolute path leads to the root, or
to the first file of this name in it, or nowhere; and what is read from a file are the bytes that
the file of the host had. -/
theorem mkfs_namei (hmkfs : mkfs files = some s) (hroom : files.length + 2 ≤ layout.nino)
    (hpart : (files.length + 2) % (bsize / sizeofDirent) ≠ 0) (devsw : Fin ndev → Devsw)
    (cwd : InodePtr) (hslash : path.head? = some slash) (hnul : 0 ∉ path) (name : Bytes) :
    (inodeAt files (components path) = none →
      ∃ s₁, namei cwd path name (boot s.disk devsw) = .ok (none, s₁)) ∧
    ∀ i, inodeAt files (components path) = some i → ∃ ip s₁ s₂,
      namei cwd path name (boot s.disk devsw) = .ok (some ip, s₁) ∧ (s₁.icache ip).inum = i ∧
      ilock ip s₁ = .ok ((), s₂) ∧ ∀ j (hj : j < files.length), i = j + 2 →
        ∀ off n, off ≤ files[j].parts.flatten.length → off + n < 2 ^ 32 →
          ∃ dst, readi ip off n s₂ =
              .ok ((((files[j].parts.flatten.drop off).take n).length, dst), s₂) ∧
            firstBytes dst ((files[j].parts.flatten.drop off).take n).length =
              (files[j].parts.flatten.drop off).take n := by
  have h := mkfs_made hmkfs hroom
  have himage := (h.image_iff hroom).mpr hpart
  have hc := h.consistent hroom himage devsw
  obtain ⟨r, s₁, hnamei, harrived⟩ := h.namei hroom himage devsw cwd hslash hnul name
  refine ⟨fun hnone => ?_, fun i hsome => ?_⟩
  · rw [hnone] at harrived
    rw [harrived.1] at hnamei
    exact ⟨s₁, hnamei⟩
  · rw [hsome] at harrived
    obtain ⟨ip, hip, hwalk⟩ := harrived
    rw [hip] at hnamei
    obtain ⟨hi, hlt⟩ := inodeAt_lt hsome
    obtain ⟨s₂, hlock, hholding⟩ := hwalk.ilock hc (h.stable hroom _ hi hlt)
    refine ⟨ip, s₁, s₂, hnamei, hwalk.inum, hlock, fun j hj hij off n hoff hn => ?_⟩
    have hne : i ≠ rootIno := by
      unfold rootIno
      omega
    have hinum : (s₂.icache ip).inum = i := hholding.inum
    have htype : (s.dinode i).type = tFile := by
      rw [h.type i hi hlt, if_neg hne]
    have hrepresents : Represents layout s₂ s.dinode (s₂.icache ip).inum
        files[j].parts.flatten := by
      rw [hinum, ← h.bytes_file hj, ← hij]
      have hstarted : Represents layout (boot s.disk devsw) s.dinode i (s.bytes i) :=
        ⟨rfl, himage.covered i (by rw [htype]; decide), rfl⟩
      exact hstarted.of_disk hholding.since.disk
    have hdev : (s.dinode (s₂.icache ip).inum).type ≠ tDev := by
      rw [hinum, htype]
      decide
    have hlive : Live s₂ ip := ⟨hholding.ref, hholding.valid⟩
    have hread := @readi_bytes _ _ _ _ _ hholding.since.base hlive hdev hrepresents off n (by omega)
    rwa [if_neg (by omega)] at hread

/-- A program is found and read. -/
theorem mkfs_namei_rm : ∃ s ip s₁ s₂ dst, mkfs [⟨[95, 114, 109], [[1, 2], [3]]⟩] = some s ∧
    namei 0 [slash, 114, 109] (fun _ => 0) (boot s.disk fun _ => ⟨none, none⟩) =
      .ok (some ip, s₁) ∧
    ilock ip s₁ = .ok ((), s₂) ∧ readi ip 0 512 s₂ = .ok ((3, dst), s₂) ∧
    firstBytes dst 3 = [1, 2, 3] := by
  have hsome : (mkfs [⟨[95, 114, 109], [[1, 2], [3]]⟩]).isSome = true := by decide +kernel
  obtain ⟨s, hs⟩ := Option.isSome_iff_exists.mp hsome
  obtain ⟨-, hfound⟩ := mkfs_namei hs (by decide) (by decide) (fun _ => ⟨none, none⟩) 0
    (rfl : [slash, 114, 109].head? = some slash) (by decide) fun _ => 0
  obtain ⟨ip, s₁, s₂, hnamei, -, hlock, hread⟩ := hfound 2 (by decide)
  obtain ⟨dst, hrun, hbytes⟩ := hread 0 (by decide) rfl 0 512 (by decide) (by decide)
  exact ⟨s, ip, s₁, s₂, dst, hs, hnamei, hlock, hrun, hbytes⟩

/-- A program is found from the current directory, which is the root. -/
theorem path_resolution_rm : ∃ s cwd s₁ ip s₂, mkfs [⟨[95, 114, 109], [[1, 2], [3]]⟩] = some s ∧
    namei 0 [slash] (fun _ => 0) (boot s.disk fun _ => ⟨none, none⟩) = .ok (some cwd, s₁) ∧
    namei cwd [114, 109] (fun _ => 0) s₁ = .ok (some ip, s₂) ∧ (s₂.icache ip).inum = 2 := by
  have hsome : (mkfs [⟨[95, 114, 109], [[1, 2], [3]]⟩]).isSome = true := by decide +kernel
  obtain ⟨s, hs⟩ := Option.isSome_iff_exists.mp hsome
  have hfits : ([⟨[95, 114, 109], [[1, 2], [3]]⟩] : List HostFile).length + 2 ≤ layout.nino := by
    decide
  have h := mkfs_made hs hfits
  have himage := (h.image_iff hfits).mpr (by decide)
  obtain ⟨r, s₁, hroot, harrived⟩ := h.namei hfits himage (fun _ => ⟨none, none⟩) 0
    (rfl : [slash].head? = some slash) (by decide) fun _ => 0
  have hempty : inodeAt [⟨[95, 114, 109], [[1, 2], [3]]⟩] (components [slash]) = some rootIno := by
    decide
  rw [hempty] at harrived
  -- the root becomes the current directory
  obtain ⟨cwd, rfl, hwalk⟩ := harrived
  have hc := h.consistent hfits himage fun _ => ⟨none, none⟩
  have hc₁ := hwalk.consistent hc (h.stable hfits _ (by decide) (by decide))
  have hcached : cached s₁ = {rootIno} := by
    rw [Walk.cached_eq hc hwalk.since]
    simp [cached, boot, bootCache]
  have hstart : startOf s₁ cwd [114, 109] = rootIno := (if_neg (by decide)).trans hwalk.inum
  obtain ⟨-, ⟨r, s₂, hnamei, harrived⟩, -⟩ := path_resolution hc₁ hwalk.ref
    (show 0 ∉ [114, 109] by decide) (fun hslash => by cases hslash)
    (by rw [hcached]; exact room_of_card (by decide) ..) fun _ => 0
  have htarget : resolve s.dinode s.bytes rootIno (components [114, 109]) = some 2 :=
    (h.resolve_eq hfits himage _).trans (by decide)
  rw [hstart, htarget] at harrived
  obtain ⟨ip, rfl, hfound⟩ := harrived
  exact ⟨s, cwd, s₁, ip, s₂, hs, hroot, hnamei, hfound.inum⟩

end Xv6.Mkfs
