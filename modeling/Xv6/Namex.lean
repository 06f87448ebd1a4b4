import Xv6.Path

/-!
# Walking along a path

`namex` walks along a path with one inode in its hands at a time. What its steps do to the locks
and to the references of the inode cache, from one call to the next.
-/

namespace Xv6.Fs

open LittleEndian StateProg SlotMap

/-- The loop of `namex`. -/
def namexLoop (nameiparent : Bool) (ip : InodePtr) (path : List UInt8) (name : Bytes) :
    FsM (Option (InodePtr × Bytes)) :=
  match _hnext : skipelem path name with
  | none =>
    if nameiparent then do
      iput ip
      return none
    else return some (ip, name)
  | some (rest, name') => do
    ilock ip
    let i ← inode ip
    if i.din.type ≠ tDir then
      iunlockput ip
      return none
    else if nameiparent = true ∧ rest = [] then
      iunlock ip
      return some (ip, name')
    else
      match ← dirlookup ip name' with
      | none =>
        iunlockput ip
        return none
      | some (next, _) =>
        iunlockput ip
        namexLoop nameiparent next rest name'
termination_by path.length
decreasing_by exact skipelem_length _hnext

/-- `namex`, the inode that the walk begins with. -/
def namexStart (cwd : InodePtr) (path : List UInt8) : FsM InodePtr :=
  if path.head? = some slash then iget rootIno
  else do
    idup cwd
    return cwd

/-- `namex`: the inode and the name in the buffer. -/
def namex (cwd : InodePtr) (path : List UInt8) (nameiparent : Bool) (name : Bytes) :
    FsM (Option (InodePtr × Bytes)) := do
  let ip ← namexStart cwd path
  namexLoop nameiparent ip path name

/-- `namei`; `name` is its buffer. -/
def namei (cwd : InodePtr) (path : List UInt8) (name : Bytes) : FsM (Option InodePtr) := do
  let r ← namex cwd path false name
  return r.map Prod.fst

/-- `nameiparent`. -/
def nameiparent (cwd : InodePtr) (path : List UInt8) (name : Bytes) :
    FsM (Option (InodePtr × Bytes)) := namex cwd path true name

/-! ## References -/

/-- The references to an inode. -/
def refs (s : State) (i : ℕ) : ℤ :=
  ∑ q, if (s.icache q).inum = i then (s.icache q).ref else 0

/-- The inodes that are cached. -/
def cached (s : State) : Finset ℕ :=
  (Finset.univ.filter fun q => 0 < (s.icache q).ref).image fun q => (s.icache q).inum

section Refs

variable {L : Layout} {s : State} {file : ℕ → Dinode} {ip q : InodePtr} {e : Inode} {i inum : ℕ}

theorem setEntry_of_ne (hq : q ≠ ip) : (setEntry s ip e).icache q = s.icache q :=
  Function.update_of_ne hq ..

/-- The references after a change of an entry of the cache. -/
theorem refs_setEntry (s : State) (ip : InodePtr) (e : Inode) (i : ℕ) :
    refs (setEntry s ip e) i = refs s i -
      (if (s.icache ip).inum = i then (s.icache ip).ref else 0) +
        if e.inum = i then e.ref else 0 := by
  have hupdate : (fun q => if ((setEntry s ip e).icache q).inum = i then
      ((setEntry s ip e).icache q).ref else 0) =
      Function.update (fun q => if (s.icache q).inum = i then (s.icache q).ref else 0) ip
        (if e.inum = i then e.ref else 0) := by
    funext q
    by_cases hq : q = ip
    · rw [hq, setEntry_self, Function.update_self]
    · rw [Function.update_of_ne hq, setEntry_of_ne hq]
  have hsplit := Finset.sum_eq_add_sum_sdiff_singleton_of_mem (Finset.mem_univ ip)
    (fun q => if (s.icache q).inum = i then (s.icache q).ref else 0)
  unfold refs
  rw [hupdate, Finset.sum_update_of_mem (Finset.mem_univ ip), hsplit]
  omega

theorem mem_cached : i ∈ cached s ↔ ∃ q, 0 < (s.icache q).ref ∧ (s.icache q).inum = i := by
  simp [cached]

theorem refs_nonneg (hnonneg : ∀ q, 0 ≤ (s.icache q).ref) (i : ℕ) : 0 ≤ refs s i :=
  Finset.sum_nonneg fun q _ => by
    split_ifs
    · exact hnonneg q
    · exact le_rfl

/-- An inode is cached just if there are references to it. -/
theorem mem_cached_iff (hnonneg : ∀ q, 0 ≤ (s.icache q).ref) :
    i ∈ cached s ↔ 0 < refs s i := by
  have hterm (q : InodePtr) :
      0 ≤ if (s.icache q).inum = i then (s.icache q).ref else 0 := by
    split_ifs
    · exact hnonneg q
    · exact le_rfl
  rw [mem_cached, refs, Finset.sum_pos_iff_of_nonneg fun q _ => hterm q]
  constructor
  · rintro ⟨q, href, hinum⟩
    exact ⟨q, Finset.mem_univ q, by rwa [if_pos hinum]⟩
  · rintro ⟨q, -, hq⟩
    split_ifs at hq with hinum
    · exact ⟨q, hq, hinum⟩
    · exact absurd hq (lt_irrefl 0)

/-- All references to an inode are in one entry. -/
theorem Base.refs_eq (h : Base L s file) (hnonneg : ∀ q, 0 ≤ (s.icache q).ref)
    (href : 0 < (s.icache ip).ref) : refs s (s.icache ip).inum = (s.icache ip).ref := by
  unfold refs
  rw [Finset.sum_eq_single ip]
  · rw [if_pos rfl]
  · intro q _ hq
    split_ifs with hinum
    · by_contra hne
      have hpos := lt_of_le_of_ne (hnonneg q) (Ne.symm hne)
      exact hq (h.inj q ip hpos href hinum)
    · rfl
  · exact fun hno => absurd (Finset.mem_univ ip) hno

/-- There is an entry for an inode that is cached, and for every one if not all are in use. -/
theorem Base.available (h : Base L s file) (hnonneg : ∀ q, 0 ≤ (s.icache q).ref)
    (hroom : i ∈ cached s ∨ (cached s).card < ninode) : Available s i := by
  rcases hroom with hmem | hcard
  · obtain ⟨q, href, hinum⟩ := mem_cached.mp hmem
    exact ⟨q, .inl ⟨href, hinum⟩⟩
  · by_contra hno
    have hpos (q : InodePtr) : 0 < (s.icache q).ref :=
      lt_of_le_of_ne (hnonneg q) fun hzero => hno ⟨q, .inr hzero.symm⟩
    have hall : Finset.univ.filter (fun q => 0 < (s.icache q).ref) = Finset.univ :=
      Finset.filter_true_of_mem fun q _ => hpos q
    have hinj : Function.Injective fun q => (s.icache q).inum :=
      fun q q' heq => h.inj q q' (hpos q) (hpos q') heq
    rw [cached, hall, Finset.card_image_of_injective _ hinj, Finset.card_univ,
      Fintype.card_fin] at hcard
    exact lt_irrefl _ hcard

/-- `iget` keeps the owners of the blocks and the cache in order. -/
theorem Base.got (h : Base L s file) (hgot : Got s inum q e) (htable : L.InTable inum) :
    Base L (setEntry s q e) file := by
  have hother {r : InodePtr} (hr : r ≠ q) : (setEntry s q e).icache r = s.icache r :=
    setEntry_of_ne hr
  rcases hgot.entry with ⟨href, hinum, he⟩ | ⟨hzero, -, hvalid, hnone⟩
  · refine h.recache rfl rfl fun r hr => ?_
    by_cases hrq : r = q
    · rw [hrq, setEntry_self, he]
      exact ⟨href, rfl, fun hval => ⟨h.din q href hval, h.alloc q href hval⟩⟩
    · rw [hother hrq] at hr ⊢
      exact ⟨hr, rfl, fun hval => ⟨h.din r hr hval, h.alloc r hr hval⟩⟩
  · refine ⟨h.sb, h.superblock, fun r hr => ?_, fun r r' hr hr' heq => ?_, fun r hr hval => ?_,
      fun r hr hval => ?_, h.reserved, h.owned⟩
    · by_cases hrq : r = q
      · rw [hrq, setEntry_self, hgot.number]
        exact htable
      · rw [hother hrq] at hr ⊢
        exact h.table r hr
    · by_cases hrq : r = q <;> by_cases hrq' : r' = q
      · rw [hrq, hrq']
      · rw [hrq, setEntry_self, hother hrq', hgot.number] at heq
        rw [hother hrq'] at hr'
        exact absurd heq.symm (hnone r' hr')
      · rw [hrq', setEntry_self, hother hrq, hgot.number] at heq
        rw [hother hrq] at hr
        exact absurd heq (hnone r hr)
      · rw [hother hrq] at hr heq
        rw [hother hrq'] at hr' heq
        exact h.inj r r' hr hr' heq
    · by_cases hrq : r = q
      · rw [hrq, setEntry_self, hvalid] at hval
        cases hval
      · rw [hother hrq] at hr hval ⊢
        exact h.din r hr hval
    · by_cases hrq : r = q
      · rw [hrq, setEntry_self, hvalid] at hval
        cases hval
      · rw [hother hrq] at hr hval ⊢
        exact h.alloc r hr hval

end Refs

/-! ## What a walk leaves alone -/

/-- One reference to an inode. -/
def one (i j : ℕ) : ℤ := if i = j then 1 else 0

/-- An inode that a name may stand for: it is allocated, and it is linked or in use. -/
structure Stable (L : Layout) (s : State) (file : ℕ → Dinode) (i : ℕ) : Prop where
  /-- Its number. -/
  table : L.InTable i
  /-- It is allocated. -/
  alloc : (file i).type ≠ 0
  /-- The last reference of a walk does not free it. -/
  stays : (file i).nlink ≠ 0 ∨ 0 < refs s i

/-- The state between two calls of functions of `fs.c`: the inodes are `file`, and the bytes of the
directories among them are `contents`. -/
structure Consistent (L : Layout) (s : State) (file : ℕ → Dinode) (contents : ℕ → List UInt8) :
    Prop where
  /-- The owners of the blocks and the cache. -/
  base : Base L s file
  /-- References are counted up from 0. -/
  nonneg : ∀ q, 0 ≤ (s.icache q).ref
  /-- All locks are free. -/
  unlocked : ∀ q, (s.icache q).locked = false
  /-- The inodes are on the disk. -/
  synced : ∀ i, (L.view s.disk).dinode i = file i
  /-- Cached inodes are allocated. -/
  alloc : ∀ q, 0 < (s.icache q).ref → (file (s.icache q).inum).type ≠ 0
  /-- The directories consist of entries. -/
  dirs : ∀ i, (file i).type = tDir →
    Represents L s file i (contents i) ∧ sizeofDirent ∣ (contents i).length
  /-- Their names stand for inodes. -/
  entries : ∀ i, (file i).type = tDir → ∀ (k : ℕ) (n : List UInt8) (j : ℕ),
    (slotsOf (contents i))[k]? = some (some (n, j)) → Stable L s file j
  /-- There is a root. -/
  root : Stable L s file rootIno

/-- Since the state `s₀`, at most the inode cache has changed: the lock of `own` is held, and there
are some references more. -/
structure Since (L : Layout) (s₀ s : State) (file : ℕ → Dinode) (own : Option InodePtr)
    (extra : ℕ → ℤ) : Prop where
  /-- The owners of the blocks and the cache. -/
  base : Base L s file
  /-- The blocks. -/
  disk : s.disk = s₀.disk
  /-- The calls of the log. -/
  calls : s.calls = s₀.calls
  /-- References are counted up from 0. -/
  nonneg : ∀ q, 0 ≤ (s.icache q).ref
  /-- The locks. -/
  locked : ∀ q, (s.icache q).locked = true ↔ own = some q
  /-- The references. -/
  refs : ∀ i, refs s i = refs s₀ i + extra i

section Walk

variable {L : Layout} {s₀ s : State} {file : ℕ → Dinode} {contents : ℕ → List UInt8}
  {own : Option InodePtr} {extra extra' : ℕ → ℤ} {ip q : InodePtr} {e : Inode} {i j : ℕ}
  {name : Bytes}

theorem Consistent.since (h : Consistent L s file contents) : Since L s s file none 0 :=
  ⟨h.base, rfl, rfl, h.nonneg, fun q => by simp [h.unlocked q], fun i => by simp⟩

/-- An entry of the cache is changed. -/
theorem Since.setEntry (h : Since L s₀ s file own extra) {own' : Option InodePtr}
    (hbase : Base L (setEntry s ip e) file) (href : 0 ≤ e.ref)
    (hlocked : e.locked = true ↔ own' = some ip)
    (hother : ∀ q ≠ ip, (own = some q ↔ own' = some q))
    (hrefs : ∀ i, extra' i = extra i - (if (s.icache ip).inum = i then (s.icache ip).ref else 0) +
      if e.inum = i then e.ref else 0) : Since L s₀ (setEntry s ip e) file own' extra' := by
  refine ⟨hbase, h.disk, h.calls, fun q => ?_, fun q => ?_, fun i => ?_⟩
  · by_cases hq : q = ip
    · rwa [hq, setEntry_self]
    · rw [setEntry_of_ne hq]
      exact h.nonneg q
  · by_cases hq : q = ip
    · rwa [hq, setEntry_self]
    · rw [setEntry_of_ne hq]
      exact (h.locked q).trans (hother q hq)
  · rw [refs_setEntry, h.refs, hrefs]
    omega

/-- Taking the lock of an inode. -/
theorem Since.ilock (h : Since L s₀ s file none extra) (href : 0 < (s.icache ip).ref)
    (halloc : (file (s.icache ip).inum).type ≠ 0)
    (hsynced : (L.view s.disk).dinode (s.icache ip).inum = file (s.icache ip).inum) :
    ∃ s', ilock ip s = .ok ((), s') ∧ Since L s₀ s' file (some ip) extra ∧
      s'.icache ip = lockedInode (s.icache ip) (file (s.icache ip).inum) := by
  have hunlocked : (s.icache ip).locked = false := by
    rw [← Bool.not_eq_true]
    exact fun hlocked => by cases (h.locked ip).mp hlocked
  refine ⟨_, ilock_run h.base href hunlocked halloc hsynced, ?_, setEntry_self⟩
  refine h.setEntry (h.base.recache rfl rfl fun q hq => ?_) href.le (iff_of_true rfl rfl)
    (fun q hq => ?_) fun i => ?_
  · by_cases hqi : q = ip
    · rw [hqi, setEntry_self]
      exact ⟨href, rfl, fun _ => ⟨rfl, halloc⟩⟩
    · rw [setEntry_of_ne hqi] at hq ⊢
      exact ⟨hq, rfl, fun hvalid => ⟨h.base.din q hq hvalid, h.base.alloc q hq hvalid⟩⟩
  · exact iff_of_false (fun hno => by cases hno) fun heq => hq (Option.some.inj heq).symm
  · unfold lockedInode
    dsimp only
    omega

/-- Giving the lock of an inode back. -/
theorem Since.iunlock (h : Since L s₀ s file (some ip) extra) (href : 0 < (s.icache ip).ref) :
    Fs.iunlock ip s = .ok ((), Fs.setEntry s ip { s.icache ip with locked := false }) ∧
      Since L s₀ (Fs.setEntry s ip { s.icache ip with locked := false }) file none extra := by
  refine ⟨iunlock_run href ((h.locked ip).mpr rfl), ?_⟩
  refine h.setEntry (h.base.recache rfl rfl fun q hq => ?_) href.le
    (iff_of_false Bool.false_ne_true fun hno => by cases hno) (fun q hq => ?_) fun i => ?_
  · by_cases hqi : q = ip
    · rw [hqi, setEntry_self]
      exact ⟨href, rfl, fun hvalid => ⟨h.base.din ip href hvalid, h.base.alloc ip href hvalid⟩⟩
    · rw [setEntry_of_ne hqi] at hq ⊢
      exact ⟨hq, rfl, fun hvalid => ⟨h.base.din q hq hvalid, h.base.alloc q hq hvalid⟩⟩
  · exact iff_of_false (fun heq => hq (Option.some.inj heq).symm) fun hno => by cases hno
  · dsimp only
    omega

/-- A reference of the walk is not the last one of an inode without links. -/
theorem Since.keeps (h : Since L s₀ s file own extra) (href : 0 < (s.icache ip).ref)
    (hstable : Stable L s₀ file (s.icache ip).inum) (hextra : 1 ≤ extra (s.icache ip).inum) :
    ¬ ((s.icache ip).valid = true ∧ (s.icache ip).din.nlink = 0 ∧ (s.icache ip).ref = 1) := by
  rintro ⟨hvalid, hnlink, hone⟩
  rw [h.base.din ip href hvalid] at hnlink
  rcases hstable.stays with hlinked | hused
  · exact hlinked hnlink
  · have hall := h.base.refs_eq h.nonneg href
    rw [h.refs] at hall
    omega

/-- Giving a reference back. -/
theorem Since.iput (h : Since L s₀ s file none extra) (extra' : ℕ → ℤ)
    (href : 0 < (s.icache ip).ref) (hstable : Stable L s₀ file (s.icache ip).inum)
    (hextra : 1 ≤ extra (s.icache ip).inum)
    (hrefs : ∀ i, extra i = extra' i + one (s.icache ip).inum i) :
    Fs.iput ip s = .ok ((), Fs.setEntry s ip { s.icache ip with ref := (s.icache ip).ref - 1 }) ∧
      Since L s₀ (Fs.setEntry s ip { s.icache ip with ref := (s.icache ip).ref - 1 }) file none
        extra' := by
  have hunlocked : (s.icache ip).locked = false := by
    rw [← Bool.not_eq_true]
    exact fun hlocked => by cases (h.locked ip).mp hlocked
  refine ⟨iput_run hunlocked (h.keeps href hstable hextra), ?_⟩
  refine h.setEntry (h.base.recache rfl rfl fun q hq => ?_) (by dsimp only; omega) ?_
    (fun q _ => Iff.rfl) fun i => ?_
  · by_cases hqi : q = ip
    · rw [hqi, setEntry_self]
      exact ⟨href, rfl, fun hvalid => ⟨h.base.din ip href hvalid, h.base.alloc ip href hvalid⟩⟩
    · rw [setEntry_of_ne hqi] at hq ⊢
      exact ⟨hq, rfl, fun hvalid => ⟨h.base.din q hq hvalid, h.base.alloc q hq hvalid⟩⟩
  · dsimp only
    rw [hunlocked]
    exact iff_of_false Bool.false_ne_true fun hno => by cases hno
  · have hone := hrefs i
    unfold one at hone
    dsimp only
    split_ifs at hone ⊢ <;> omega

/-- Giving the lock and a reference back. -/
theorem Since.iunlockput (h : Since L s₀ s file (some ip) extra) (extra' : ℕ → ℤ)
    (href : 0 < (s.icache ip).ref) (hstable : Stable L s₀ file (s.icache ip).inum)
    (hextra : 1 ≤ extra (s.icache ip).inum)
    (hrefs : ∀ i, extra i = extra' i + one (s.icache ip).inum i) :
    ∃ s', Fs.iunlockput ip s = .ok ((), s') ∧ Since L s₀ s' file none extra' ∧
      s' = Fs.setEntry s ip
        { s.icache ip with locked := false, ref := (s.icache ip).ref - 1 } := by
  obtain ⟨hunlock, hsince⟩ := h.iunlock href
  have hself : (Fs.setEntry s ip { s.icache ip with locked := false }).icache ip =
      { s.icache ip with locked := false } := setEntry_self
  obtain ⟨hput, hsince'⟩ := hsince.iput extra' (by rwa [hself]) (by rwa [hself])
    (by rwa [hself]) (by rwa [hself])
  rw [hself] at hput hsince'
  refine ⟨_, ?_, hsince', by rw [setEntry_setEntry]⟩
  unfold Fs.iunlockput
  rw [run_bind hunlock, hput]

/-- Taking a reference by number. -/
theorem Since.iget (h : Since L s₀ s file own extra) (htable : L.InTable j)
    (hroom : j ∈ cached s ∨ (cached s).card < ninode) :
    ∃ q e, Fs.iget j s = .ok (q, Fs.setEntry s q e) ∧ Got s j q e ∧
      Since L s₀ (Fs.setEntry s q e) file own fun i => extra i + one j i := by
  obtain ⟨q, e, hrun, hgot⟩ := iget_run (h.base.available h.nonneg hroom)
  have hpos := h.nonneg q
  have hmore := hgot.ref
  refine ⟨q, e, hrun, hgot, h.setEntry (h.base.got hgot htable) (by omega) ?_
    (fun _ _ => Iff.rfl) fun i => ?_⟩
  · rw [← h.locked q]
    rcases hgot.entry with ⟨-, -, he⟩ | ⟨-, hlocked, -⟩
    · rw [he]
    · rw [hlocked]
  · have hnumber := hgot.number
    unfold one
    rcases hgot.entry with ⟨-, hinum, -⟩ | ⟨hzero, -⟩
    · rw [hnumber, hinum]
      split_ifs <;> omega
    · rw [hnumber, hzero]
      split_ifs <;> omega

end Walk

end Xv6.Fs
