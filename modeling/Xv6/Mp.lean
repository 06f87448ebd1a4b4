import Xv6.Lib.LittleEndian

/-!
# The MP configuration table

`mp.c`: the search for the MP structures that the firmware has left in memory, and the walk of
`mpinit` over the entries of the configuration table. Memory is named by physical addresses;
none of the tables lies at the end of the address space, so pointers do not wrap around.

The loop of `mpinit` runs for a number of turns. An entry of a type that it does not know makes
it leave the `switch`, not the loop, with the cursor where it was.
-/

namespace Xv6.Mp

open LittleEndian

/-- `NCPU`. -/
def nCpu : ℕ := 8

/-- `sizeof(struct mp)`. -/
def sizeofMp : ℕ := 16

/-- `sizeof(struct mpconf)`. -/
def sizeofMpconf : ℕ := 44

/-- `sizeof(struct mpproc)`. -/
def sizeofMpproc : ℕ := 20

/-- `sizeof(struct mpioapic)`. -/
def sizeofMpioapic : ℕ := 8

/-- `MPPROC`. -/
def mpProc : ℕ := 0

/-- `MPBUS`. -/
def mpBus : ℕ := 1

/-- `MPIOAPIC`. -/
def mpIoapic : ℕ := 2

/-- `MPIOINTR`. -/
def mpIointr : ℕ := 3

/-- `MPLINTR`. -/
def mpLintr : ℕ := 4

/-- Physical memory. -/
abbrev Memory := ℕ → UInt8

/-- `memcmp(p, text, 4) == 0`. -/
def signatureAt (mem : Memory) (p : ℕ) (text : List UInt8) : Bool :=
  (List.range 4).map (fun k => mem (p + k)) == text

/-- `sum`, as the `uchar` that it returns. -/
def sum (mem : Memory) (addr len : ℕ) : UInt8 :=
  UInt8.ofNat ((List.range len).map fun i => (mem (addr + i)).toNat).sum

/-- `mpsearch1`. -/
def mpsearch1 (mem : Memory) (a len : ℕ) : Option ℕ :=
  ((List.range ((len + (sizeofMp - 1)) / sizeofMp)).map (a + sizeofMp * ·)).find? fun p =>
    signatureAt mem p [0x5F, 0x4D, 0x50, 0x5F] && sum mem p sizeofMp == 0

/-- `mpsearch`: the first KB of the EBDA or the last KB of base memory, then the BIOS ROM. -/
def mpsearch (mem : Memory) : Option ℕ :=
  let p := ((mem 0x40F).toNat * 2 ^ 8 + (mem 0x40E).toNat) * 2 ^ 4
  let found :=
    if p ≠ 0 then mpsearch1 mem p 1024
    else
      let p := ((mem 0x414).toNat * 2 ^ 8 + (mem 0x413).toNat) * 1024
      mpsearch1 mem ((p + (2 ^ 32 - 1024)) % 2 ^ 32) 1024
  match found with
  | some mp => some mp
  | none => mpsearch1 mem 0xF0000 0x10000

/-- `mp->physaddr`. -/
def physaddr (mem : Memory) (mp : ℕ) : ℕ := get mem (mp + 4) 4

/-- `mp->imcrp`. -/
def imcrp (mem : Memory) (mp : ℕ) : UInt8 := mem (mp + 12)

/-- `conf->length`. -/
def length (mem : Memory) (conf : ℕ) : ℕ := get mem (conf + 4) 2

/-- `conf->version`. -/
def version (mem : Memory) (conf : ℕ) : UInt8 := mem (conf + 6)

/-- `conf->lapicaddr`. -/
def lapicaddr (mem : Memory) (conf : ℕ) : ℕ := get mem (conf + 36) 4

/-- `mpconfig`: the floating pointer and the configuration table. -/
def mpconfig (mem : Memory) : Option (ℕ × ℕ) :=
  match mpsearch mem with
  | none => none
  | some mp =>
      let conf := physaddr mem mp
      if conf = 0 then none
      else if !signatureAt mem conf [0x50, 0x43, 0x4D, 0x50] then none
      else if version mem conf ≠ 1 ∧ version mem conf ≠ 4 then none
      else if sum mem conf (length mem conf) ≠ 0 then none
      else some (mp, conf)

/-- What `mpinit` finds out. -/
structure Machine where
  /-- `cpus[].apicid`. -/
  apicid : Fin nCpu → UInt8
  /-- `ncpu`. -/
  ncpu : ℕ
  /-- `ioapicid`. -/
  ioapicid : UInt8
  /-- `lapic`. -/
  lapic : ℕ

/-- The variables before `mpinit`. -/
def Machine.zero : Machine := ⟨fun _ => 0, 0, 0, 0⟩

/-- A processor is registered, if there is room for it. -/
def Machine.register (m : Machine) (apicid : UInt8) : Machine :=
  if h : m.ncpu < nCpu then
    { m with apicid := Function.update m.apicid ⟨m.ncpu, h⟩ apicid, ncpu := m.ncpu + 1 }
  else m

/-- The variables of the loop of `mpinit`. -/
structure Walk where
  /-- `p`. -/
  p : ℕ
  /-- `ismp`. -/
  ismp : Bool
  /-- What has been found. -/
  machine : Machine

/-- One turn of the loop. -/
def Walk.turn (mem : Memory) (w : Walk) : Walk :=
  let type := (mem w.p).toNat
  if type = mpProc then
    { w with machine := w.machine.register (mem (w.p + 1)), p := w.p + sizeofMpproc }
  else if type = mpIoapic then
    { w with machine := { w.machine with ioapicid := mem (w.p + 1) }, p := w.p + sizeofMpioapic }
  else if type = mpBus ∨ type = mpIointr ∨ type = mpLintr then { w with p := w.p + 8 }
  else { w with ismp := false }

/-- The loop up to the end `e` of the table; nothing if the turns do not suffice. -/
def walk (mem : Memory) (e : ℕ) : ℕ → Walk → Option Walk
  | 0, w => if w.p < e then none else some w
  | n + 1, w => if w.p < e then walk mem e n (w.turn mem) else some w

/-- How `mpinit` ends. -/
inductive Outcome
  /-- `panic("Expect to run on an SMP")`. -/
  | notSmp
  /-- `panic("Didn't find a suitable machine")`. -/
  | unsuitable
  /-- It returns, and has masked external interrupts by the IMCR or not. -/
  | done (imcr : Bool)
  deriving DecidableEq

/-- `mpinit`, with a number of turns for its loop; nothing if they do not suffice. -/
def mpinit (mem : Memory) (turns : ℕ) : Option (Outcome × Machine) :=
  match mpconfig mem with
  | none => some (.notSmp, .zero)
  | some (mp, conf) =>
      let start := { Machine.zero with lapic := lapicaddr mem conf }
      (walk mem (conf + length mem conf) turns ⟨conf + sizeofMpconf, true, start⟩).map fun w =>
        if !w.ismp then (.unsuitable, w.machine)
        else (.done (imcrp mem mp ≠ 0), w.machine)

/-! ## Which tables are walked to their end -/

/-- The bytes that `mpinit` skips for an entry of a known type. -/
def entrySize (type : ℕ) : ℕ := if type = mpProc then sizeofMpproc else 8

/-- From entry to entry of known types, from one address to another one before the end `e`. -/
inductive Reaches (mem : Memory) (e : ℕ) : ℕ → ℕ → Prop
  | refl (p : ℕ) : Reaches mem e p p
  | next {p q : ℕ} : p < e → (mem p).toNat ≤ mpLintr →
      Reaches mem e (p + entrySize (mem p).toNat) q → Reaches mem e p q

/-- There is an entry of an unknown type behind entries of known types, from `p` on. -/
def UnknownFrom (mem : Memory) (e p : ℕ) : Prop :=
  ∃ q, Reaches mem e p q ∧ q < e ∧ mpLintr < (mem q).toNat

/-- The configuration table has an entry of an unknown type. -/
def Unknown (mem : Memory) (conf : ℕ) : Prop :=
  UnknownFrom mem (conf + length mem conf) (conf + sizeofMpconf)

/-- `mpinit` ends with at most `NCPU` processors, and on an entry of an unknown type in its
panic. -/
def Terminates (mem : Memory) (conf : ℕ) : Prop :=
  ∃ turns out m, mpinit mem turns = some (out, m) ∧ m.ncpu ≤ nCpu ∧
    (Unknown mem conf → out = .unsuitable)

variable {mem : Memory} {e n : ℕ} {w w' : Walk}

/-- An entry of a known type moves the cursor behind it. -/
theorem turn_known (htype : (mem w.p).toNat ≤ mpLintr) :
    (w.turn mem).p = w.p + entrySize (mem w.p).toNat ∧ (w.turn mem).ismp = w.ismp := by
  unfold mpLintr at htype
  unfold Walk.turn entrySize
  generalize (mem w.p).toNat = type at htype
  interval_cases type <;> exact ⟨rfl, rfl⟩

/-- An entry of an unknown type leaves the cursor where it is. -/
theorem turn_unknown (htype : mpLintr < (mem w.p).toNat) :
    w.turn mem = { w with ismp := false } := by
  unfold mpLintr at htype
  unfold Walk.turn mpProc mpIoapic mpBus mpIointr mpLintr
  rw [if_neg (by omega), if_neg (by omega), if_neg (by omega)]

theorem ncpu_register {m : Machine} (hm : m.ncpu ≤ nCpu) (apicid : UInt8) :
    (m.register apicid).ncpu ≤ nCpu := by
  unfold Machine.register
  split_ifs with hlt
  · exact hlt
  · exact hm

/-- No turn registers more than `NCPU` processors. -/
theorem ncpu_turn (hw : w.machine.ncpu ≤ nCpu) : (w.turn mem).machine.ncpu ≤ nCpu := by
  unfold Walk.turn
  dsimp only
  split_ifs
  · exact ncpu_register hw _
  · exact hw
  · exact hw
  · exact hw

theorem ncpu_walk (hw : w.machine.ncpu ≤ nCpu) (hrun : walk mem e n w = some w') :
    w'.machine.ncpu ≤ nCpu := by
  induction n generalizing w with
  | zero =>
      rw [walk] at hrun
      split_ifs at hrun
      obtain rfl := Option.some.inj hrun
      exact hw
  | succ n ih =>
      rw [walk] at hrun
      split_ifs at hrun
      · exact ih (ncpu_turn hw) hrun
      · obtain rfl := Option.some.inj hrun
        exact hw

/-- At an entry of an unknown type the loop goes on for ever. -/
theorem walk_stuck (hp : w.p < e) (htype : mpLintr < (mem w.p).toNat) : walk mem e n w = none := by
  induction n generalizing w with
  | zero => rw [walk, if_pos hp]
  | succ n ih =>
      rw [walk, if_pos hp, turn_unknown htype]
      exact ih hp htype

/-- The loop does not end if it meets an entry of an unknown type. -/
theorem walk_unknown {p : ℕ} (hunknown : UnknownFrom mem e p) (hp : w.p = p) :
    walk mem e n w = none := by
  obtain ⟨q, hreaches, hq, htype⟩ := hunknown
  induction hreaches generalizing w n with
  | refl p =>
      subst hp
      exact walk_stuck hq htype
  | next hlt hknown _ ih =>
      subst hp
      cases n with
      | zero => rw [walk, if_pos hlt]
      | succ n =>
          rw [walk, if_pos hlt]
          exact ih (turn_known hknown).1 hq htype

/-- A table of entries of known types is walked to its end: every turn moves the cursor. -/
theorem walk_ends (hknown : ¬ UnknownFrom mem e w.p) (hturns : e ≤ w.p + n) :
    ∃ w', walk mem e n w = some w' ∧ w'.ismp = w.ismp := by
  induction n generalizing w with
  | zero => exact ⟨w, by rw [walk, if_neg (by omega)], rfl⟩
  | succ n ih =>
      rw [walk]
      by_cases hp : w.p < e
      · have htype : (mem w.p).toNat ≤ mpLintr :=
          not_lt.mp fun htype => hknown ⟨w.p, .refl _, hp, htype⟩
        obtain ⟨hnext, hismp⟩ := turn_known htype
        have hsize : 0 < entrySize (mem w.p).toNat := by
          unfold entrySize sizeofMpproc
          split_ifs <;> omega
        rw [if_pos hp, ← hismp]
        refine ih (fun hunknown => ?_) (by omega)
        obtain ⟨q, hreaches, hq⟩ := hunknown
        rw [hnext] at hreaches
        exact hknown ⟨q, .next hp htype hreaches, hq⟩
      · exact ⟨w, by rw [if_neg hp], rfl⟩

/-- For a configuration table that passes the tests of `mpconfig`, `mpinit` does what it should
just when the table has no entry of an unknown type; else it does not end. -/
theorem mpinit_terminates_iff (mem : Memory) (mp conf : ℕ)
    (hconf : mpconfig mem = some (mp, conf)) : Terminates mem conf ↔ ¬ Unknown mem conf := by
  constructor
  · rintro ⟨turns, out, m, hrun, -⟩ hunknown
    rw [mpinit, hconf] at hrun
    dsimp only at hrun
    rw [walk_unknown hunknown rfl] at hrun
    simp at hrun
  · intro hknown
    obtain ⟨w, hwalk, hismp⟩ := walk_ends (n := length mem conf)
      (w := ⟨conf + sizeofMpconf, true, { Machine.zero with lapic := lapicaddr mem conf }⟩)
      hknown (by dsimp only; omega)
    refine ⟨length mem conf, .done (imcrp mem mp ≠ 0), w.machine, ?_,
      ncpu_walk (Nat.zero_le _) hwalk, fun hunknown => absurd hunknown hknown⟩
    rw [mpinit, hconf]
    dsimp only
    rw [hwalk, Option.map_some, hismp]
    rfl

/-- The memory of a machine with its floating pointer at the start of the EBDA and the
configuration table behind it. -/
def firmware (table : List UInt8) : Memory := fun a =>
  if a = 0x40F then 0x9F
  else if a < 0x9F000 then 0
  else if a < 0x9F400 then
    ([0x5F, 0x4D, 0x50, 0x5F, 0x00, 0xF4, 0x09, 0x00, 1, 4, 163, 0, 0, 0, 0, 0] :
      List UInt8).getD (a - 0x9F000) 0
  else table.getD (a - 0x9F400) 0

/-- A configuration table: its length, its checksum and its entries. -/
def tableOf (len checksum : UInt8) (entries : List UInt8) : List UInt8 :=
  [0x50, 0x43, 0x4D, 0x50, len, 0, 4, checksum] ++ List.replicate 36 0 ++ entries

/-- A table of one processor. -/
def oneProcessor : Memory := firmware (tableOf 64 140 [])

/-- A table of one entry of type 5. -/
def oneUnknown : Memory := firmware (tableOf 52 147 [5])

theorem mpinit_terminates_iff_oneProcessor : Terminates oneProcessor 0x9F400 := by
  refine (mpinit_terminates_iff oneProcessor 0x9F000 0x9F400 (by decide +kernel)).mpr ?_
  rintro ⟨q, hreaches, hq, htype⟩
  have hend : 0x9F400 + length oneProcessor 0x9F400 = 0x9F440 := by decide +kernel
  have hfirst : (oneProcessor (0x9F400 + sizeofMpconf)).toNat = 0 := by decide +kernel
  rw [hend] at hreaches hq
  cases hreaches with
  | refl => simp [hfirst] at htype
  | next _ _ hrest =>
      rw [hfirst] at hrest
      cases hrest with
      | refl => exact absurd hq (by decide)
      | next hlt => exact absurd hlt (by decide)

/-- A table of one entry of an unknown type passes the tests, and `mpinit` does not end. -/
theorem mpinit_unknown_entry :
    ¬ ∀ mem mp conf, mpconfig mem = some (mp, conf) → Terminates mem conf := by
  intro h
  have hconf : mpconfig oneUnknown = some (0x9F000, 0x9F400) := by decide +kernel
  obtain ⟨turns, out, m, hrun, -⟩ := h oneUnknown 0x9F000 0x9F400 hconf
  have hunknown : Unknown oneUnknown 0x9F400 := ⟨_, .refl _, by decide +kernel, by decide +kernel⟩
  rw [mpinit, hconf] at hrun
  dsimp only at hrun
  rw [walk_unknown hunknown rfl] at hrun
  simp at hrun

end Xv6.Mp
