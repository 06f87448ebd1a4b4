import Xv6.DirectoryMap

/-!
# Path names

`skipelem` takes the next element off a path, the characters of a string up to its null
character. Taking off one element after the other yields the components of the path.
-/

namespace Xv6.Fs

open LittleEndian

/-- The character `/`. -/
def slash : UInt8 := 47

/-- `name` after an element has been copied into it: `memmove`, and a null character behind an
element that is shorter than `DIRSIZ`. -/
def setName (name : Bytes) (elem : List UInt8) : Bytes :=
  if dirSiz ≤ elem.length then copy name 0 dirSiz fun k => elem.getD k 0
  else Function.update (copy name 0 elem.length fun k => elem.getD k 0) elem.length 0

/-- `skipelem`: the rest of the path and the name; nothing if there is no element. -/
def skipelem (path : List UInt8) (name : Bytes) : Option (List UInt8 × Bytes) :=
  let s := path.dropWhile (· == slash)
  if s = [] then none
  else
    let elem := s.takeWhile (· != slash)
    some ((s.dropWhile (· != slash)).dropWhile (· == slash), setName name elem)

/-- The non-empty parts of a path between slashes, each cut to `DIRSIZ` bytes. -/
def components (path : List UInt8) : List (List UInt8) :=
  ((path.splitOn slash).filter (· ≠ [])).map (·.take dirSiz)

variable {path rest elem : List UInt8} {name name' : Bytes}

/-- The name in the buffer is the element, cut to `DIRSIZ` bytes. -/
theorem nameOf_setName (hnul : 0 ∉ elem) : nameOf (setName name elem) = elem.take dirSiz := by
  have hne (k : ℕ) (hk : k < elem.length) : elem.getD k 0 ≠ 0 := by
    rw [List.getD_eq_getElem _ _ hk]
    exact fun hzero => hnul (hzero ▸ List.getElem_mem hk)
  have hfirst {t : Bytes} {n : ℕ} (hn : n ≤ elem.length) (ht : ∀ k < n, t k = elem.getD k 0) :
      firstBytes t n = elem.take n := by
    apply List.ext_getElem?
    intro k
    rw [getElem?_firstBytes, List.getElem?_take]
    split_ifs with hk
    · rw [ht k hk, List.getD_eq_getElem _ _ (by omega), List.getElem?_eq_getElem (by omega)]
    · rfl
  unfold nameOf setName
  split_ifs with hlong
  · rw [hfirst hlong fun k hk => by rw [copy_of_mem (Nat.zero_le _) (by omega), Nat.sub_zero],
      List.takeWhile_eq_self_iff]
    intro x hx
    have hzero : x ≠ 0 := fun hzero => hnul (hzero ▸ List.mem_of_mem_take hx)
    simpa using hzero
  · have hsplit : dirSiz = elem.length + (1 + (dirSiz - elem.length - 1)) := by omega
    have hhead : firstBytes (Function.update (copy name 0 elem.length fun k => elem.getD k 0)
        elem.length 0) elem.length = elem := by
      rw [hfirst le_rfl fun k hk => ?_, List.take_length]
      rw [Function.update_of_ne (by omega), copy_of_mem (Nat.zero_le _) (by omega), Nat.sub_zero]
    have hchars (x : UInt8) (hx : x ∈ elem) : decide (x ≠ 0) = true :=
      decide_eq_true fun hzero => hnul (hzero ▸ hx)
    rw [hsplit, firstBytes_add, hhead, firstBytes_add, List.takeWhile_append_of_pos hchars]
    simp [firstBytes]

theorem components_nil : components [] = [] := rfl

/-- A slash before a path does not matter. -/
theorem components_slash (path : List UInt8) : components (slash :: path) = components path := by
  have hsplit : (slash :: path).splitOn slash = [] :: path.splitOn slash :=
    List.splitOn_append_cons_self_of_not_mem (List.not_mem_nil (a := slash)) path
  rw [components, hsplit]
  rfl

/-- Slashes before a path do not matter. -/
theorem components_dropWhile (path : List UInt8) :
    components (path.dropWhile (· == slash)) = components path := by
  induction path with
  | nil => rfl
  | cons c path ih =>
    by_cases hc : c = slash
    · rw [hc, List.dropWhile_cons_of_pos (by simp), ih, components_slash]
    · rw [List.dropWhile_cons_of_neg (by simpa using hc)]

/-- The first component of a path that does not begin with a slash. -/
theorem components_elem (hne : path ≠ []) (hhead : path.head? ≠ some slash) :
    components path = (path.takeWhile (· != slash)).take dirSiz ::
      components (path.dropWhile (· != slash)) := by
  have hnotMem : slash ∉ path.takeWhile (· != slash) := by
    intro hmem
    simpa using List.mem_takeWhile_imp hmem
  have helem : path.takeWhile (· != slash) ≠ [] := by
    obtain ⟨c, path, rfl⟩ := List.exists_cons_of_ne_nil hne
    have hc : c ≠ slash := fun hc => hhead (by rw [hc]; rfl)
    rw [List.takeWhile_cons_of_pos (by simpa using hc)]
    exact List.cons_ne_nil _ _
  have hsplit := List.takeWhile_append_dropWhile (p := (· != slash)) (l := path)
  cases hrest : path.dropWhile (· != slash) with
  | nil =>
    rw [hrest, List.append_nil] at hsplit
    rw [hsplit] at hnotMem helem ⊢
    rw [components, List.splitOn_eq_singleton hnotMem, components_nil]
    simp [helem]
  | cons c rest =>
    have hc : c = slash := by
      have hno := List.head?_dropWhile_not (· != slash) path
      rw [hrest] at hno
      simpa using hno
    rw [hrest, hc] at hsplit
    rw [hc, components_slash]
    conv_lhs => rw [← hsplit]
    rw [components, List.splitOn_append_cons_self_of_not_mem hnotMem, components]
    simp [helem]

/-- `skipelem` finds no element just if the path has no component. -/
theorem skipelem_none (h : skipelem path name = none) : components path = [] := by
  unfold skipelem at h
  dsimp only at h
  split_ifs at h with hs
  rw [← components_dropWhile, hs, components_nil]

theorem head?_dropWhile_slash (path : List UInt8) :
    (path.dropWhile (· == slash)).head? ≠ some slash := by
  intro hhead
  have hno := List.head?_dropWhile_not (· == slash) path
  rw [hhead] at hno
  simp at hno

/-- What is left is shorter. -/
theorem skipelem_length (h : skipelem path name = some (rest, name')) :
    rest.length < path.length := by
  unfold skipelem at h
  dsimp only at h
  split_ifs at h with hs
  obtain ⟨hrest, -⟩ := Prod.mk.inj (Option.some.inj h)
  have hlength := (List.dropWhile_suffix (l := path) (· == slash)).length_le
  have hhead := head?_dropWhile_slash path
  cases hcs : path.dropWhile (· == slash) with
  | nil => exact absurd hcs hs
  | cons c s =>
    have hc : c ≠ slash := by
      rw [hcs] at hhead
      exact fun hc => hhead (by rw [hc]; rfl)
    rw [hcs, List.dropWhile_cons_of_pos (by simpa using hc)] at hrest
    have hdrop := (List.dropWhile_suffix (l := s) (· != slash)).length_le
    have hslash := (List.dropWhile_suffix (l := s.dropWhile (· != slash)) (· == slash)).length_le
    rw [hcs, List.length_cons] at hlength
    rw [hrest] at hslash
    omega

/-- `skipelem` takes the first component off. The rest is empty just if that was the last one. -/
theorem skipelem_some (hnul : 0 ∉ path) (h : skipelem path name = some (rest, name')) :
    components path = nameOf name' :: components rest ∧ (rest = [] ↔ components rest = []) ∧
      0 ∉ rest := by
  unfold skipelem at h
  dsimp only at h
  split_ifs at h with hs
  obtain ⟨hrest, hname⟩ := Prod.mk.inj (Option.some.inj h)
  have hpath := (List.dropWhile_suffix (l := path) (· == slash)).subset
  have hcomponents := components_elem hs (head?_dropWhile_slash path)
  have hmiddle := components_dropWhile ((path.dropWhile (· == slash)).dropWhile (· != slash))
  have hsuffix : rest <:+ (path.dropWhile (· == slash)).dropWhile (· != slash) :=
    hrest ▸ List.dropWhile_suffix _
  have helem : 0 ∉ (path.dropWhile (· == slash)).takeWhile (· != slash) :=
    fun hzero => hnul (hpath ((List.takeWhile_prefix _).subset hzero))
  refine ⟨?_, ⟨fun heq => by rw [heq, components_nil], fun hempty => ?_⟩, fun hzero => ?_⟩
  · rw [← components_dropWhile, hcomponents, ← hname, nameOf_setName helem, ← hmiddle, hrest]
  · by_contra hne
    have hmore := components_elem hne (hrest ▸ head?_dropWhile_slash _)
    rw [hempty] at hmore
    cases hmore
  · exact hnul (hpath ((List.dropWhile_suffix _).subset (hsuffix.subset hzero)))

/-- The names that `skipelem` yields, one after the other. -/
def elements (path : List UInt8) (name : Bytes) : List (List UInt8) :=
  match _hnext : skipelem path name with
  | none => []
  | some (rest, name') => nameOf name' :: elements rest name'
termination_by path.length
decreasing_by exact skipelem_length _hnext

/-- `skipelem` yields the components of the path. -/
theorem elements_eq (hnul : 0 ∉ path) (name : Bytes) : elements path name = components path := by
  induction hn : path.length using Nat.strong_induction_on generalizing path name with
  | _ n ih =>
    rw [elements]
    split
    next hnext => rw [skipelem_none hnext]
    next rest name' hnext =>
      obtain ⟨hcomponents, -, hrest⟩ := skipelem_some hnul hnext
      rw [hcomponents, ih _ (hn ▸ skipelem_length hnext) hrest name' rfl]

end Xv6.Fs
