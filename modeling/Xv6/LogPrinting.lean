import Xv6.Lib.CString
import Xv6.Lib.LittleEndian
import Xv6.LoggedArguments

/-!
# What the log prints for an argument

`log_syscalls` prints a row of `args` as a string, up to the first NUL behind its start.
`set_last_syscall_info` copies at most ten bytes into the row and no NUL, and the rows lie one
behind the other in memory, with `args_c` behind the last one. An entry is printed after further
rows have been logged and `register_syscall` has recorded it. The file settles when the string
printed is then the one that was logged.
-/

namespace Xv6.LogPrinting

open CString SyscallsHistory LoggedArguments

/-- A byte of an entry, counted from the start of `args`: the rows, then `args_c`. -/
def entryByte (e : SyscallInfo) (off : ℕ) : UInt8 :=
  if _h : off / 10 < 10 then e.args ⟨off / 10, by omega⟩ ⟨off % 10, by omega⟩
  else LittleEndian.digits e.argsC (off - 100)

/-- What `cprintf` prints for row `j` of an entry by `%s`; `none` if the string goes on behind
`args_c`, the last field of the entry. -/
def printRow (e : SyscallInfo) (j : ℕ) : Option (List UInt8) :=
  stringAt (entryByte e) (10 * j) (104 - 10 * j)

/-- What `log_syscalls` prints for the arguments, entry by entry. -/
def printedArgs (h : SyscallsHistory) : List (List (Option (List UInt8))) :=
  (List.range h.rscount).map fun i =>
    (List.range (h.sf i).argsC).map fun j => printRow (h.sf i) j

/-- Calls of `set_last_syscall_info`, one after the other. -/
def logRows (h : SyscallsHistory) (inputs : List (ℕ → UInt8)) : Option SyscallsHistory :=
  inputs.foldlM setLastSyscallInfo h

/-- Where `register_syscall` leaves the entry that it records: a compaction moves it. -/
def recordedAt (h : SyscallsHistory) : ℕ :=
  if rsCountMax ≤ h.rscount + 1 then h.rscount - keep else h.rscount

/-- A string in memory. -/
def bytesOf (s : List UInt8) : ℕ → UInt8 := fun i => s.getD i 0

variable {s : List UInt8} {e : SyscallInfo}

/-- The number of bytes the copying loop takes. -/
theorem argLength_eq {input : ℕ → UInt8} {m : ℕ} (hm : m ≤ 10)
    (hbefore : ∀ i < m, input i ≠ 0) (hend : m < 10 → input m = 0) : argLength input = m := by
  have hsplit : List.range 10 = List.range m ++ List.range' m (10 - m) := by
    have happend := List.range'_append_1 (s := 0) (m := m) (n := 10 - m)
    rw [Nat.zero_add, Nat.add_sub_cancel' hm] at happend
    rw [List.range_eq_range', List.range_eq_range', happend]
  have hrest : (List.range' m (10 - m)).takeWhile (fun i => input i != 0) = [] := by
    by_cases hlt : m < 10
    · rw [show 10 - m = (9 - m) + 1 by omega, List.range'_succ,
        List.takeWhile_cons_of_neg (by simp [hend hlt])]
    · rw [show 10 - m = 0 by omega]
      rfl
  rw [argLength, hsplit, List.takeWhile_append_of_pos, hrest, List.append_nil, List.length_range]
  intro i hi
  simpa using hbefore i (List.mem_range.mp hi)

theorem argLength_bytesOf (hs : 0 ∉ s) : argLength (bytesOf s) = (s.take 10).length := by
  rw [List.length_take]
  apply argLength_eq (Nat.min_le_left _ _)
  · intro i hi hnul
    have hlt : i < s.length := by omega
    rw [bytesOf, List.getD_eq_getElem _ _ hlt] at hnul
    exact hs (hnul ▸ List.getElem_mem hlt)
  · intro hlt
    exact List.getD_eq_default _ _ (by omega)

/-- A byte of a row. -/
theorem entryByte_row {j k : ℕ} (hj : j < 10) (hk : k < 10) :
    entryByte e (10 * j + k) = e.args ⟨j, hj⟩ ⟨k, hk⟩ := by
  have hdiv : (10 * j + k) / 10 = j := by omega
  have hmod : (10 * j + k) % 10 = k := by omega
  simp only [entryByte, hdiv, hmod, dif_pos hj]

/-- The loop copies nothing just if the string is empty. -/
theorem argLength_pos_iff (input : ℕ → UInt8) : 0 < argLength input ↔ input 0 ≠ 0 := by
  rw [argLength, List.range_succ_eq_map, List.takeWhile_cons]
  by_cases h : input 0 = 0
  · simp [h]
  · simp [h]

/-- The next entry after some calls of `set_last_syscall_info` with free rows: each has written its
row, and the other rows are as before. -/
theorem logRows_spec {h h' : SyscallsHistory} {inputs : List (ℕ → UInt8)}
    (hrows : (h.sf h.rscount).argsC + inputs.length ≤ 10) (hlog : logRows h inputs = some h') :
    h'.rscount = h.rscount ∧
      (h'.sf h.rscount).argsC = (h.sf h.rscount).argsC + inputs.length ∧
      (∀ j : Fin 10, j.val < (h.sf h.rscount).argsC →
        (h'.sf h.rscount).args j = (h.sf h.rscount).args j) ∧
      ∀ j : Fin 10, (h.sf h.rscount).argsC ≤ j.val → (h'.sf h.rscount).args j =
        (inputs[j.val - (h.sf h.rscount).argsC]?).elim ((h.sf h.rscount).args j)
          fun input => copyArg input ((h.sf h.rscount).args j) := by
  induction inputs generalizing h with
  | nil =>
    obtain rfl := Option.some.inj hlog
    exact ⟨rfl, rfl, fun _ _ => rfl, fun _ _ => rfl⟩
  | cons input inputs ih =>
    obtain ⟨h₁, hset, hrest⟩ := Option.bind_eq_some_iff.mp hlog
    rw [List.length_cons] at hrows
    have hrow : (h.sf h.rscount).argsC < 10 := by omega
    rw [setLastSyscallInfo, dif_pos hrow] at hset
    have hentry : h₁.sf h.rscount = { h.sf h.rscount with
        args := fun j => if j = ⟨(h.sf h.rscount).argsC, hrow⟩ then
          copyArg input ((h.sf h.rscount).args j) else (h.sf h.rscount).args j
        argsC := (h.sf h.rscount).argsC + 1 } := by
      rw [← Option.some.inj hset, modify_sf, if_pos rfl]
    have hcount : h₁.rscount = h.rscount := by
      rw [← Option.some.inj hset]
      rfl
    have hrest' := @ih h₁ (by rw [hcount, hentry]; dsimp only; omega) hrest
    rw [hcount, hentry] at hrest'
    obtain ⟨hcount', hargsC, hbelow, habove⟩ := hrest'
    refine ⟨hcount', ?_, fun j hj => ?_, fun j hj => ?_⟩
    · rw [hargsC, List.length_cons]
      dsimp only
      omega
    · rw [hbelow j (by dsimp only; omega)]
      exact if_neg fun heq => by rw [heq] at hj; exact absurd hj (lt_irrefl _)
    · by_cases hfirst : j.val = (h.sf h.rscount).argsC
      · rw [hbelow j (by dsimp only; omega), hfirst, Nat.sub_self]
        exact if_pos (Fin.ext hfirst)
      · have hindex : j.val - (h.sf h.rscount).argsC =
            j.val - ((h.sf h.rscount).argsC + 1) + 1 := by omega
        have hother : j ≠ ⟨(h.sf h.rscount).argsC, hrow⟩ := fun heq =>
          hfirst (congrArg Fin.val heq)
        rw [habove j (by dsimp only; omega), hindex, List.getElem?_cons_succ]
        simp only [if_neg hother]

/-- The entry that is recorded keeps its rows. -/
theorem register_recordedAt {h : SyscallsHistory} (c : Call) (hcount : h.rscount < rsCountMax) :
    recordedAt h < (h.register c).rscount ∧
      ((h.register c).sf (recordedAt h)).args = (h.sf h.rscount).args ∧
      ((h.register c).sf (recordedAt h)).argsC = (h.sf h.rscount).argsC := by
  have hmax : rsCountMax = 100 := rfl
  have hkeep : keep = 50 := rfl
  have hmoved : movedFrom h (recordedAt h) = h.rscount := by
    unfold movedFrom recordedAt
    split_ifs <;> omega
  have hlow : ¬ (rsCountMax ≤ h.rscount + 1 ∧ keep + 2 ≤ recordedAt h ∧
      recordedAt h < rsCountMax) := by
    unfold recordedAt
    split_ifs <;> omega
  refine ⟨?_, ?_, ?_⟩
  · rw [register_rscount, recordedAt]
    split_ifs <;> omega
  · rw [register_args, hmoved]
  · rw [register_argsC, if_neg hlow, hmoved]

/-- The byte behind the copied ones, when the entry is printed: in a row that is not full it is as
it was before the call, and behind a full row there are the next row and, at last, `args_c`. -/
theorem byte_behind {h h' : SyscallsHistory} {later : List (ℕ → UInt8)} (hs : 0 ∉ s)
    (hrows : (h.sf h.rscount).argsC + later.length < 10)
    (hlog : logRows h (bytesOf s :: later) = some h') :
    entryByte (h'.sf h.rscount) (10 * (h.sf h.rscount).argsC + min 10 s.length) = 0 ↔
      entryByte (h.sf h.rscount) (10 * (h.sf h.rscount).argsC + min 10 s.length) = 0 ∧
        (10 ≤ s.length → ∀ input ∈ later.head?, input 0 = 0) := by
  obtain ⟨-, hargsC, -, hnew⟩ := logRows_spec (by rw [List.length_cons]; omega) hlog
  have hcopied := argLength_bytesOf hs
  rw [List.length_take] at hcopied
  have hj : (h.sf h.rscount).argsC < 10 := by omega
  by_cases hlong : 10 ≤ s.length
  · rw [Nat.min_eq_left hlong]
    by_cases hlast : (h.sf h.rscount).argsC = 9
    · -- `args_c` is not 0
      have hnone : later.length = 0 := by omega
      rw [List.length_cons, hnone] at hargsC
      simp [entryByte, hlast, hargsC, LittleEndian.digits]
    · have hnext : 10 * (h.sf h.rscount).argsC + 10 = 10 * ((h.sf h.rscount).argsC + 1) + 0 := by
        ring
      have hj' : (h.sf h.rscount).argsC + 1 < 10 := by omega
      rw [hnext, entryByte_row hj' (by omega), entryByte_row hj' (by omega),
        hnew ⟨_, hj'⟩ (by dsimp only; omega)]
      dsimp only
      rw [Nat.add_sub_cancel_left, List.getElem?_cons_succ, ← List.head?_eq_getElem?]
      cases hhead : later.head? with
      | none => simp
      | some input =>
        have hpos := argLength_pos_iff input
        by_cases hzero : input 0 = 0
        · simp [copyArg, hzero, hpos]
        · have hcopy : 0 < argLength input := hpos.mpr hzero
          simp [copyArg, hzero, hcopy, hlong]
  · have hshort : s.length < 10 := by omega
    rw [Nat.min_eq_right (by omega), entryByte_row hj hshort, entryByte_row hj hshort,
      hnew ⟨_, hj⟩ le_rfl]
    dsimp only
    rw [Nat.sub_self, List.getElem?_cons_zero]
    simp [copyArg, hcopied, hlong]

/-- The copied bytes stand at the start of the row. -/
theorem bytes_copied {h h' : SyscallsHistory} {later : List (ℕ → UInt8)} (hs : 0 ∉ s)
    (hrows : (h.sf h.rscount).argsC + later.length < 10)
    (hlog : logRows h (bytesOf s :: later) = some h') :
    At (entryByte (h'.sf h.rscount)) (10 * (h.sf h.rscount).argsC) (s.take 10) := by
  obtain ⟨-, -, -, hnew⟩ := logRows_spec (by rw [List.length_cons]; omega) hlog
  have hj : (h.sf h.rscount).argsC < 10 := by omega
  intro k hk
  have hten : k < 10 := by
    rw [List.length_take] at hk
    omega
  rw [entryByte_row hj hten, hnew ⟨_, hj⟩ le_rfl]
  dsimp only
  rw [Nat.sub_self, List.getElem?_cons_zero, Option.elim_some]
  simp only [copyArg, argLength_bytesOf hs, hk, if_true, bytesOf]
  rw [List.length_take] at hk
  rw [List.getElem_take, List.getD_eq_getElem _ _ (by omega)]

/-- What `log_syscalls` prints for a row, in terms of the entry that was recorded. -/
theorem printedArgs_recordedAt {h h' : SyscallsHistory} (c : Call) {j : ℕ}
    (hcount : h.rscount < rsCountMax) (hsame : h'.rscount = h.rscount)
    (hj : j < (h'.sf h.rscount).argsC) :
    ((printedArgs (h'.register c))[recordedAt h]?.bind fun rows => rows[j]?) =
      some (printRow (h'.sf h.rscount) j) := by
  obtain ⟨hlt, hargs, hargsC⟩ := register_recordedAt c (hsame ▸ hcount : h'.rscount < rsCountMax)
  have hat : recordedAt h' = recordedAt h := by rw [recordedAt, hsame, recordedAt]
  rw [hat, hsame] at hargs hargsC
  rw [hat] at hlt
  have hbytes : entryByte ((h'.register c).sf (recordedAt h)) = entryByte (h'.sf h.rscount) := by
    funext off
    simp only [entryByte, hargs, hargsC]
  rw [printedArgs, List.getElem?_map, List.getElem?_range hlt, Option.map_some, Option.bind_some,
    List.getElem?_map, List.getElem?_range (by rw [hargsC]; exact hj), Option.map_some, printRow,
    printRow, hbytes]

/-- A logged argument is printed as it was logged, up to the size of the row, exactly when the byte
that follows the copied ones was 0 before the call and, behind a full row, no character has been
logged to the next row since: when more rows have been logged and the entry has been recorded,
`log_syscalls` prints the string. -/
theorem printedArgs_iff {h h' : SyscallsHistory} {later : List (ℕ → UInt8)} (c : Call)
    (hs : 0 ∉ s) (hcount : h.rscount < rsCountMax)
    (hrows : (h.sf h.rscount).argsC + later.length < 10)
    (hlog : logRows h (bytesOf s :: later) = some h') :
    ((printedArgs (h'.register c))[recordedAt h]?.bind fun rows =>
        rows[(h.sf h.rscount).argsC]?) = some (some (s.take 10)) ↔
      entryByte (h.sf h.rscount) (10 * (h.sf h.rscount).argsC + min 10 s.length) = 0 ∧
        (10 ≤ s.length → ∀ input ∈ later.head?, input 0 = 0) := by
  have hcopied := bytes_copied hs hrows hlog
  obtain ⟨hsame, hargsC, -⟩ := logRows_spec (by rw [List.length_cons]; omega) hlog
  rw [List.length_cons] at hargsC
  rw [printedArgs_recordedAt c hcount hsame (by omega), Option.some_inj, printRow,
    stringAt_eq_some_iff, at_append, at_singleton, List.length_take, ← byte_behind hs hrows hlog]
  constructor
  · rintro ⟨-, -, -, hnul⟩
    exact hnul
  · intro hnul
    exact ⟨by omega, fun hmem => hs (List.mem_of_mem_take hmem), hcopied, hnul⟩

/-- In the table as it is after boot, `int` is printed as `int`, with a number logged behind it. -/
theorem printedArgs_init : ∃ h',
    logRows init [bytesOf [105, 110, 116], bytesOf [49, 50]] = some h' ∧
    ((printedArgs (h'.register SyscallInfo.zero.call))[0]?.bind fun rows => rows[0]?) =
      some (some [105, 110, 116]) := by
  have hlog : logRows init [bytesOf [105, 110, 116], bytesOf [49, 50]] = some _ := rfl
  exact ⟨_, hlog, (printedArgs_iff _ (by decide) (by decide) (by decide) hlog).mpr (by decide)⟩

/-- A history whose next entry has the character `a` everywhere in its rows. -/
def used : SyscallsHistory := ⟨fun _ => ⟨SyscallInfo.zero.call, fun _ _ => 97, 0⟩, 0, 0⟩

/-- A row that has been used before is printed with what the older string leaves. -/
theorem printedArgs_not_logged : ¬ ∀ (h h' : SyscallsHistory) (s : List UInt8)
    (later : List (ℕ → UInt8)) (c : Call), 0 ∉ s → h.rscount < rsCountMax →
      (h.sf h.rscount).argsC + later.length < 10 → logRows h (bytesOf s :: later) = some h' →
        ((printedArgs (h'.register c))[recordedAt h]?.bind fun rows =>
          rows[(h.sf h.rscount).argsC]?) = some (some (s.take 10)) := by
  intro hall
  have hprinted := hall used _ [98] [] SyscallInfo.zero.call (by decide) (by decide) (by decide) rfl
  revert hprinted
  decide +kernel

end Xv6.LogPrinting
