import Xv6.Namex

/-!
# Path resolution

What `namei` and `nameiparent` find is what the directories say: the components of the path are
looked up one after the other, from the root or from the current directory on. All locks are free
again, and the references are those of before and the one that is returned.
-/

namespace Xv6.Fs

open LittleEndian StateProg SlotMap

/-- The inode that a name stands for in a directory. -/
def lookupIn (file : ℕ → Dinode) (contents : ℕ → List UInt8) (i : ℕ) (n : List UInt8) : Option ℕ :=
  if (file i).type = tDir then values (slotsOf (contents i)) n else none

/-- The inode that a walk along some names ends with. -/
def resolve (file : ℕ → Dinode) (contents : ℕ → List UInt8) (i : ℕ) (ns : List (List UInt8)) :
    Option ℕ := ns.foldlM (lookupIn file contents) i

/-- The names that `namex` looks up. -/
def lookedUp (nameiparent : Bool) (ns : List (List UInt8)) : List (List UInt8) :=
  if nameiparent then ns.dropLast else ns

/-- The inode that `namex` is to find: for `nameiparent`, a directory, and none for a path without
components. -/
def target (file : ℕ → Dinode) (contents : ℕ → List UInt8) (nameiparent : Bool) (i : ℕ)
    (ns : List (List UInt8)) : Option ℕ :=
  if nameiparent then
    if ns = [] then none
    else (resolve file contents i ns.dropLast).filter fun d => (file d).type = tDir
  else resolve file contents i ns

/-- There is an entry of the inode cache for every inode that is looked up, while the inode whose
directory it is found in is held; `C` are those cached before. -/
def Room (file : ℕ → Dinode) (contents : ℕ → List UInt8) (C : Finset ℕ) :
    ℕ → List (List UInt8) → Prop
  | _, [] => True
  | i, n :: ns => ∀ j, lookupIn file contents i n = some j →
    (j ∈ insert i C ∨ (insert i C).card < ninode) ∧ Room file contents C j ns

/-- A walk holds a reference to an inode. -/
structure Walk (L : Layout) (s₀ s : State) (file : ℕ → Dinode) (ip : InodePtr) (i : ℕ) : Prop where
  /-- That is all that has changed. -/
  since : Since L s₀ s file none (one i)
  /-- The pointer. -/
  inum : (s.icache ip).inum = i
  /-- The reference. -/
  ref : 0 < (s.icache ip).ref

/-- A walk has the lock of an inode. -/
structure Holding (L : Layout) (s₀ s : State) (file : ℕ → Dinode) (ip : InodePtr) (i : ℕ) :
    Prop where
  /-- That is all that has changed. -/
  since : Since L s₀ s file (some ip) (one i)
  /-- The pointer. -/
  inum : (s.icache ip).inum = i
  /-- The reference. -/
  ref : 0 < (s.icache ip).ref
  /-- The inode has been read. -/
  valid : (s.icache ip).valid = true
  /-- From the disk. -/
  din : (s.icache ip).din = file i

/-- A walk has found an inode or has given up. -/
def Arrived (L : Layout) (s₀ s : State) (file : ℕ → Dinode) (found : Option ℕ)
    (r : Option InodePtr) : Prop :=
  match found with
  | none => r = none ∧ Since L s₀ s file none 0
  | some j => ∃ ip, r = some ip ∧ Walk L s₀ s file ip j

section Steps

variable {L : Layout} {s₀ s : State} {file : ℕ → Dinode} {contents : ℕ → List UInt8}
  {ip : InodePtr} {i j : ℕ} {name : Bytes}

theorem one_self (i : ℕ) : one i i = 1 := if_pos rfl

/-- The inodes that are cached during a walk. -/
theorem Walk.cached_eq (hc : Consistent L s₀ file contents) {own : Option InodePtr}
    (h : Since L s₀ s file own (one i)) : cached s = insert i (cached s₀) := by
  ext k
  have hrefs := h.refs k
  have hold := refs_nonneg hc.nonneg k
  rw [Finset.mem_insert, mem_cached_iff h.nonneg, mem_cached_iff hc.nonneg]
  unfold one at hrefs
  split_ifs at hrefs with hk
  · exact iff_of_true (by omega) (.inl hk.symm)
  · rw [add_zero] at hrefs
    rw [hrefs]
    exact ⟨.inr, fun hor => hor.resolve_left (Ne.symm hk)⟩

/-- After a walk the file system is at rest again, with one inode more in use. -/
theorem Walk.consistent (hc : Consistent L s₀ file contents) (h : Walk L s₀ s file ip i)
    (hstable : Stable L s₀ file i) : Consistent L s file contents := by
  have hmore (j : ℕ) : refs s₀ j ≤ refs s j := by
    have hrefs := h.since.refs j
    unfold one at hrefs
    split_ifs at hrefs <;> omega
  have hstays {j : ℕ} (hj : Stable L s₀ file j) : Stable L s file j :=
    ⟨hj.table, hj.alloc, hj.stays.imp_right fun hpos => hpos.trans_le (hmore j)⟩
  refine ⟨h.since.base, h.since.nonneg, fun q => ?_, fun j => ?_, fun q hq => ?_,
    fun j hdir => ⟨(hc.dirs j hdir).1.of_disk h.since.disk, (hc.dirs j hdir).2⟩,
    fun j hdir k n l hslot => hstays (hc.entries j hdir k n l hslot), hstays hc.root⟩
  · have hlocked := h.since.locked q
    simpa using hlocked
  · rw [h.since.disk]
    exact hc.synced j
  · have hmem : (s.icache q).inum ∈ cached s := mem_cached.mpr ⟨q, hq, rfl⟩
    rw [Walk.cached_eq hc h.since, Finset.mem_insert] at hmem
    obtain heq | hmem := hmem
    · rw [heq]
      exact hstable.alloc
    · obtain ⟨q', hq', heq⟩ := mem_cached.mp hmem
      rw [← heq]
      exact hc.alloc q' hq'

/-- The walk takes the lock. -/
theorem Walk.ilock (hc : Consistent L s₀ file contents) (h : Walk L s₀ s file ip i)
    (hstable : Stable L s₀ file i) :
    ∃ s', ilock ip s = .ok ((), s') ∧ Holding L s₀ s' file ip i := by
  have halloc := hstable.alloc
  have hsynced := hc.synced i
  rw [← h.since.disk] at hsynced
  rw [← h.inum] at halloc hsynced
  obtain ⟨s', hrun, hsince, hentry⟩ := h.since.ilock h.ref halloc hsynced
  refine ⟨s', hrun, hsince, ?_, ?_, ?_, ?_⟩
  · rw [hentry]
    exact h.inum
  · rw [hentry]
    exact h.ref
  · rw [hentry]
    rfl
  · rw [hentry, ← h.inum]
    rfl

/-- It gives it back. -/
theorem Holding.iunlock (h : Holding L s₀ s file ip i) :
    ∃ s', iunlock ip s = .ok ((), s') ∧ Walk L s₀ s' file ip i := by
  obtain ⟨hrun, hsince⟩ := h.since.iunlock h.ref
  refine ⟨_, hrun, hsince, ?_, ?_⟩
  · rw [setEntry_self]
    exact h.inum
  · rw [setEntry_self]
    exact h.ref

/-- It gives up. -/
theorem Holding.iunlockput (h : Holding L s₀ s file ip i) (hstable : Stable L s₀ file i) :
    ∃ s', iunlockput ip s = .ok ((), s') ∧ Since L s₀ s' file none 0 := by
  rw [← h.inum] at hstable
  obtain ⟨s', hrun, hsince, -⟩ := h.since.iunlockput 0 h.ref hstable
    (by rw [h.inum, one_self]) fun k => by rw [h.inum]; exact (zero_add _).symm
  exact ⟨s', hrun, hsince⟩

/-- It gives up without a lock. -/
theorem Walk.iput (h : Walk L s₀ s file ip i) (hstable : Stable L s₀ file i) :
    ∃ s', iput ip s = .ok ((), s') ∧ Since L s₀ s' file none 0 := by
  rw [← h.inum] at hstable
  obtain ⟨hrun, hsince⟩ := h.since.iput 0 h.ref hstable
    (by rw [h.inum, one_self]) fun k => by rw [h.inum]; exact (zero_add _).symm
  exact ⟨_, hrun, hsince⟩

/-- The inode is a directory. -/
theorem Holding.heldDir (hc : Consistent L s₀ file contents) (h : Holding L s₀ s file ip i)
    (htype : (file i).type = tDir) : HeldDir L s file ip (contents i) := by
  obtain ⟨hrepresents, hentries⟩ := hc.dirs i htype
  have hnotDev : (file i).type ≠ tDev := by
    rw [htype]
    decide
  refine Held.heldDir ⟨h.since.base, ⟨h.ref, h.valid⟩, (h.since.locked ip).mpr rfl, ?_, ?_⟩ ?_
    hentries fun q hq => ?_
  · rwa [h.inum]
  · rw [h.inum]
    exact hrepresents.of_disk h.since.disk
  · rwa [h.din]
  · by_contra hlocked
    have heq := (h.since.locked q).mp (by simpa using hlocked)
    rw [← Option.some.inj heq] at hq
    exact h.ref.ne' hq

/-- The walk finds a name in a directory and goes on from its inode. -/
theorem Holding.descend (hc : Consistent L s₀ file contents) (h : Holding L s₀ s file ip i)
    (hstable : Stable L s₀ file i) (htype : (file i).type = tDir) {k : ℕ}
    (hfind : find (nameOf name) (slotsOf (contents i)) = some (j, k))
    (hroom : j ∈ insert i (cached s₀) ∨ (insert i (cached s₀)).card < ninode) :
    Stable L s₀ file j ∧ ∃ q off s₁ s₂, dirlookup ip name s = .ok (some (q, off), s₁) ∧
      Fs.iunlockput ip s₁ = .ok ((), s₂) ∧ Walk L s₀ s₂ file q j := by
  have hnext := hc.entries i htype k _ j (getElem?_of_find hfind)
  rw [← Walk.cached_eq hc h.since] at hroom
  obtain ⟨q, e, hrun, hgot, hsince⟩ := h.since.iget hnext.table hroom
  have hlookup : dirlookup ip name s =
      .ok (some (q, sizeofDirent * k), setEntry s q e) := by
    rw [(h.heldDir hc htype).dirlookup_eq, hfind]
    dsimp only
    rw [run_bind hrun]
    rfl
  -- the entry of the directory is another one, or it has got one more reference
  have hentry : (setEntry s q e).icache ip = s.icache ip ∧ q ≠ ip ∨
      q = ip ∧ (setEntry s q e).icache ip = { s.icache ip with ref := (s.icache ip).ref + 1 } := by
    by_cases hq : q = ip
    · right
      subst hq
      refine ⟨rfl, ?_⟩
      rw [setEntry_self]
      rcases hgot.entry with ⟨-, -, he⟩ | ⟨hzero, -⟩
      · exact he
      · exact absurd hzero h.ref.ne'
    · exact .inl ⟨setEntry_of_ne (Ne.symm hq), hq⟩
  have hinum : ((setEntry s q e).icache ip).inum = i := by
    rcases hentry with ⟨hsame, -⟩ | ⟨-, hmore⟩
    · rw [hsame, h.inum]
    · rw [hmore]
      exact h.inum
  have href : 0 < ((setEntry s q e).icache ip).ref := by
    have hpos := h.ref
    rcases hentry with ⟨hsame, -⟩ | ⟨-, hmore⟩
    · rwa [hsame]
    · rw [hmore]
      dsimp only
      omega
  rw [← hinum] at hstable
  have hextra : (1 : ℤ) ≤ one i ((setEntry s q e).icache ip).inum +
      one j ((setEntry s q e).icache ip).inum := by
    rw [hinum, one_self]
    unfold one
    split_ifs <;> omega
  obtain ⟨s₂, hput, hsince₂, hs₂⟩ := hsince.iunlockput (one j) href hstable hextra
    fun k => by rw [hinum, add_comm]
  refine ⟨hnext, q, _, _, s₂, hlookup, hput, hsince₂, ?_, ?_⟩
  · rw [hs₂]
    rcases hentry with ⟨-, hq⟩ | ⟨rfl, -⟩
    · rw [setEntry_of_ne hq, setEntry_self, hgot.number]
    · rw [setEntry_self, setEntry_self]
      exact hgot.number
  · have hpos := h.ref
    have hmore := hgot.ref
    have hnonneg := h.since.nonneg q
    rw [hs₂]
    rcases hentry with ⟨-, hq⟩ | ⟨rfl, -⟩
    · rw [setEntry_of_ne hq, setEntry_self]
      omega
    · rw [setEntry_self, setEntry_self]
      dsimp only
      omega

end Steps

/-! ## The loop -/

section Loop

variable {L : Layout} {s₀ s : State} {file : ℕ → Dinode} {contents : ℕ → List UInt8}
  {ip : InodePtr} {i : ℕ} {path rest : List UInt8} {name name' : Bytes} {parent : Bool}
  {n : List UInt8} {ns : List (List UInt8)}

theorem namexLoop_none (h : skipelem path name = none) : namexLoop parent ip path name =
    if parent then (do
      iput ip
      return none)
    else return some (ip, name) := by
  rw [namexLoop]
  split
  next => rfl
  next hsome =>
    rw [h] at hsome
    cases hsome

theorem namexLoop_some (h : skipelem path name = some (rest, name')) :
    namexLoop parent ip path name = (do
      ilock ip
      let i ← inode ip
      if i.din.type ≠ tDir then
        iunlockput ip
        return none
      else if parent = true ∧ rest = [] then
        iunlock ip
        return some (ip, name')
      else
        match ← dirlookup ip name' with
        | none =>
          iunlockput ip
          return none
        | some (next, _) =>
          iunlockput ip
          namexLoop parent next rest name') := by
  conv_lhs => rw [namexLoop]
  split
  next hnone =>
    rw [h] at hnone
    cases hnone
  next hsome =>
    rw [h] at hsome
    cases hsome
    rfl

/-- The target of a walk that looks up a name first. -/
theorem target_cons (hmore : ¬ (parent = true ∧ ns = [])) :
    target file contents parent i (n :: ns) =
      (lookupIn file contents i n).bind fun j => target file contents parent j ns := by
  unfold target resolve
  cases parent with
  | false =>
    simp only [Bool.false_eq_true, if_false]
    rw [List.foldlM_cons]
    rfl
  | true =>
    have hns : ns ≠ [] := fun hns => hmore ⟨rfl, hns⟩
    simp only [if_true, List.cons_ne_nil, if_false, if_neg hns]
    rw [List.dropLast_cons_of_ne_nil hns, List.foldlM_cons]
    cases lookupIn file contents i n with
    | none => rfl
    | some j => rfl

theorem lookedUp_cons (hmore : ¬ (parent = true ∧ ns = [])) :
    lookedUp parent (n :: ns) = n :: lookedUp parent ns := by
  unfold lookedUp
  cases parent with
  | false => rfl
  | true =>
    rw [if_pos rfl, if_pos rfl, List.dropLast_cons_of_ne_nil fun hns => hmore ⟨rfl, hns⟩]

/-- The loop of `namex` finds its target, and for `nameiparent` the last component. -/
theorem Walk.namexLoop (hc : Consistent L s₀ file contents) (h : Walk L s₀ s file ip i)
    (hstable : Stable L s₀ file i) (hnul : 0 ∉ path)
    (hroom : Room file contents (cached s₀) i (lookedUp parent (components path)))
    (name : Bytes) : ∃ r s', Fs.namexLoop parent ip path name s = .ok (r, s') ∧
      Arrived L s₀ s' file (target file contents parent i (components path)) (r.map Prod.fst) ∧
      (parent = true → ∀ p, r = some p → (components path).getLast? = some (nameOf p.2)) := by
  induction hlength : path.length using Nat.strong_induction_on generalizing s ip i path name with
  | _ m ih =>
    cases hnext : skipelem path name with
    | none =>
      rw [skipelem_none hnext, namexLoop_none hnext]
      cases parent with
      | true =>
        obtain ⟨s', hput, hsince⟩ := h.iput hstable
        refine ⟨none, s', ?_, ⟨rfl, hsince⟩, fun _ p hp => by cases hp⟩
        rw [if_pos rfl, run_bind hput]
        rfl
      | false => exact ⟨some (ip, name), s, rfl, ⟨ip, rfl, h⟩, fun hno => by cases hno⟩
    | some r =>
      obtain ⟨rest, name'⟩ := r
      obtain ⟨hcomponents, hempty, hrest⟩ := skipelem_some hnul hnext
      rw [hcomponents] at hroom ⊢
      obtain ⟨s₁, hlock, hinside⟩ := h.ilock hc hstable
      have hentry : inode ip s₁ = .ok (s₁.icache ip, s₁) := rfl
      rw [namexLoop_some hnext, run_bind hlock, run_bind hentry, hinside.din]
      by_cases htype : (file i).type = tDir
      · rw [if_neg (not_not.mpr htype)]
        by_cases hlast : parent = true ∧ rest = []
        · -- the parent of the last component
          obtain ⟨rfl, hrestNil⟩ := hlast
          obtain ⟨s', hunlock, hwalk⟩ := hinside.iunlock
          rw [if_pos ⟨rfl, hrestNil⟩, hempty.mp hrestNil, run_bind hunlock]
          refine ⟨some (ip, name'), s', rfl, ?_, fun _ p hp => ?_⟩
          · have htarget : target file contents true i [nameOf name'] = some i := by
              simp [target, resolve, htype]
            rw [htarget]
            exact ⟨ip, rfl, hwalk⟩
          · cases hp
            rfl
        · have hmore : ¬ (parent = true ∧ components rest = []) := by rwa [← hempty]
          rw [if_neg hlast, target_cons hmore]
          rw [lookedUp_cons hmore] at hroom
          have hlookup : lookupIn file contents i (nameOf name') =
              (find (nameOf name') (slotsOf (contents i))).map Prod.fst := if_pos htype
          rw [hlookup]
          cases hfind : find (nameOf name') (slotsOf (contents i)) with
          | none =>
            obtain ⟨s', hput, hsince⟩ := hinside.iunlockput hstable
            refine ⟨none, s', ?_, ⟨rfl, hsince⟩, fun _ p hp => by cases hp⟩
            rw [run_bind ((hinside.heldDir hc htype).dirlookup_none hfind)]
            dsimp only
            rw [run_bind hput]
            rfl
          | some found =>
            obtain ⟨j, k⟩ := found
            obtain ⟨hcan, hroom'⟩ := hroom j (by rw [hlookup, hfind]; rfl)
            obtain ⟨hnextStable, q, off, s₂, s₃, hfound, hput, hwalk⟩ :=
              hinside.descend hc hstable htype hfind hcan
            obtain ⟨r, s', hrun, harrived, hname⟩ := ih rest.length
              (hlength ▸ skipelem_length hnext) hwalk hnextStable hrest hroom' name' rfl
            refine ⟨r, s', ?_, harrived, fun hparent p hp => ?_⟩
            · rw [run_bind hfound]
              dsimp only
              rw [run_bind hput, hrun]
            · have hlast' := hname hparent p hp
              rw [List.getLast?_cons, hlast']
              rfl
      · obtain ⟨s', hput, hsince⟩ := hinside.iunlockput hstable
        have htarget : target file contents parent i (nameOf name' :: components rest) = none := by
          by_cases hmore : parent = true ∧ components rest = []
          · obtain ⟨rfl, hnil⟩ := hmore
            rw [hnil]
            simp [target, resolve, htype]
          · rw [target_cons hmore, lookupIn, if_neg htype]
            rfl
        rw [if_pos htype, htarget]
        refine ⟨none, s', ?_, ⟨rfl, hsince⟩, fun _ p hp => by cases hp⟩
        rw [run_bind hput]
        rfl

end Loop

/-! ## From the beginning -/

section Start

variable {L : Layout} {s : State} {file : ℕ → Dinode} {contents : ℕ → List UInt8}
  {cwd : InodePtr} {i : ℕ} {path : List UInt8} {name : Bytes} {C : Finset ℕ}
  {ns : List (List UInt8)}

/-- The inode that a path begins with: the root, or the current directory. -/
def startOf (s : State) (cwd : InodePtr) (path : List UInt8) : ℕ :=
  if path.head? = some slash then rootIno else (s.icache cwd).inum

/-- The walk begins. -/
theorem Consistent.namexStart (hc : Consistent L s file contents)
    (hcwd : path.head? ≠ some slash → 0 < (s.icache cwd).ref)
    (hroot : path.head? = some slash → rootIno ∈ cached s ∨ (cached s).card < ninode) :
    Stable L s file (startOf s cwd path) ∧ ∃ ip s', Fs.namexStart cwd path s = .ok (ip, s') ∧
      Walk L s s' file ip (startOf s cwd path) := by
  have hsince := hc.since
  unfold startOf Fs.namexStart
  split_ifs with hslash
  · obtain ⟨q, e, hrun, hgot, hsince'⟩ := hsince.iget hc.root.table (hroot hslash)
    refine ⟨hc.root, q, _, hrun, ?_, ?_, ?_⟩
    · simpa using hsince'
    · rw [setEntry_self, hgot.number]
    · rw [setEntry_self]
      have hmore := hgot.ref
      have hnonneg := hc.nonneg q
      omega
  · have hcwd := hcwd hslash
    have hcached : (s.icache cwd).inum ∈ cached s := mem_cached.mpr ⟨cwd, hcwd, rfl⟩
    have hgot : Got s (s.icache cwd).inum cwd { s.icache cwd with ref := (s.icache cwd).ref + 1 } :=
      ⟨rfl, rfl, .inl ⟨hcwd, rfl, rfl⟩⟩
    have htable := hc.base.table cwd hcwd
    refine ⟨⟨htable, hc.alloc cwd hcwd, .inr ((mem_cached_iff hc.nonneg).mp hcached)⟩, cwd,
      setEntry s cwd { s.icache cwd with ref := (s.icache cwd).ref + 1 }, rfl, ?_, ?_, ?_⟩
    · refine hsince.setEntry (hc.base.got hgot htable) (by dsimp only; omega) (hsince.locked cwd)
        (fun _ _ => Iff.rfl) fun k => ?_
      simp only [Pi.zero_apply]
      unfold one
      split_ifs <;> omega
    · rw [setEntry_self]
    · rw [setEntry_self]
      dsimp only
      omega

/-- `namex` finds its target. -/
theorem Consistent.namex (hc : Consistent L s file contents)
    (hcwd : path.head? ≠ some slash → 0 < (s.icache cwd).ref) (hnul : 0 ∉ path)
    (hroot : path.head? = some slash → rootIno ∈ cached s ∨ (cached s).card < ninode)
    {parent : Bool} (hroom : Room file contents (cached s) (startOf s cwd path)
      (lookedUp parent (components path))) (name : Bytes) :
    ∃ r s', Fs.namex cwd path parent name s = .ok (r, s') ∧
      Arrived L s s' file (target file contents parent (startOf s cwd path) (components path))
        (r.map Prod.fst) ∧
      (parent = true → ∀ p, r = some p → (components path).getLast? = some (nameOf p.2)) := by
  obtain ⟨hstable, ip, s₁, hstart, hwalk⟩ := hc.namexStart hcwd hroot
  obtain ⟨r, s', hrun, harrived, hname⟩ := hwalk.namexLoop hc hstable hnul hroom name
  refine ⟨r, s', ?_, harrived, hname⟩
  unfold Fs.namex
  rw [run_bind hstart, hrun]

theorem Room.dropLast (h : Room file contents C i ns) : Room file contents C i ns.dropLast := by
  induction ns generalizing i with
  | nil => trivial
  | cons n ns ih =>
    cases ns with
    | nil => trivial
    | cons m ns => exact fun j hj => ⟨(h j hj).1, ih (h j hj).2⟩

/-- A path leads to an inode just if its parent is a directory in which the last component leads
to it. -/
theorem resolve_append (n : List UInt8) : resolve file contents i (ns ++ [n]) =
    (target file contents true i (ns ++ [n])).bind fun d => values (slotsOf (contents d)) n := by
  have hne : ns ++ [n] ≠ [] := by simp
  unfold target
  rw [if_pos rfl, if_neg hne, List.dropLast_concat]
  unfold resolve
  rw [List.foldlM_append]
  cases List.foldlM (lookupIn file contents) i ns with
  | none => rfl
  | some d =>
    have hlast : List.foldlM (lookupIn file contents) d [n] = lookupIn file contents d n := by
      rw [List.foldlM_cons]
      cases lookupIn file contents d n <;> rfl
    change List.foldlM (lookupIn file contents) d [n] = _
    rw [hlast, lookupIn, Option.filter_some]
    by_cases htype : (file d).type = tDir
    · simp [htype]
    · simp [htype]

/-- Paths are resolved as the directories say. `skipelem` yields the components of the path;
`namei` looks them up one after the other, from the root or the current directory on; `nameiparent`
finds the directory of the last component, and its name; and the path leads where this name in this
directory does. Both return with all locks free, no block changed, and no other reference than the
one that they return, provided that there are entries of the inode cache for the inodes on the
way. -/
theorem path_resolution (hc : Consistent L s file contents) (hcwd : 0 < (s.icache cwd).ref)
    (hnul : 0 ∉ path)
    (hroot : path.head? = some slash → rootIno ∈ cached s ∨ (cached s).card < ninode)
    (hroom : Room file contents (cached s) (startOf s cwd path) (components path))
    (name : Bytes) :
    elements path name = components path ∧
    (∃ r s', namei cwd path name s = .ok (r, s') ∧
      Arrived L s s' file (resolve file contents (startOf s cwd path) (components path)) r) ∧
    (∃ r s', nameiparent cwd path name s = .ok (r, s') ∧
      Arrived L s s' file (target file contents true (startOf s cwd path) (components path))
        (r.map Prod.fst) ∧
      ∀ p, r = some p → (components path).getLast? = some (nameOf p.2)) ∧
    ∀ ns n, components path = ns ++ [n] →
      resolve file contents (startOf s cwd path) (components path) =
        (target file contents true (startOf s cwd path) (components path)).bind fun d =>
          values (slotsOf (contents d)) n := by
  refine ⟨elements_eq hnul name, ?_, ?_, fun ns n heq => by rw [heq, resolve_append]⟩
  · have hroom' : Room file contents (cached s) (startOf s cwd path)
        (lookedUp false (components path)) := hroom
    obtain ⟨r, s', hrun, harrived, -⟩ := hc.namex (fun _ => hcwd) hnul hroot hroom' name
    refine ⟨r.map Prod.fst, s', ?_, harrived⟩
    unfold namei
    rw [run_bind hrun]
    rfl
  · have hroom' : Room file contents (cached s) (startOf s cwd path)
        (lookedUp true (components path)) := hroom.dropLast
    obtain ⟨r, s', hrun, harrived, hname⟩ := hc.namex (fun _ => hcwd) hnul hroot hroom' name
    exact ⟨r, s', hrun, harrived, hname rfl⟩

end Start

end Xv6.Fs
