import Xv6.Lib.CrashProg
import Xv6.Param

/-!
# The file-system log

The log of `log.c`: the header, the header block on the disk, and the programs that copy
blocks between the cache, the log region and their homes. A block is modelled by its words,
and blocks are read and written through the buffer cache, of which only the blocks that
differ from the disk matter.
-/

namespace Xv6

open CrashProg

/-- The words of a block; the header block holds `n` and then the block numbers. -/
abbrev Block := ℕ → ℕ

/-- `struct logheader`. -/
structure LogHeader where
  /-- The number of logged blocks. -/
  n : ℕ
  /-- The logged block numbers; only those below `n` count. -/
  block : ℕ → ℕ

/-- The header in memory when the kernel starts. -/
def LogHeader.zero : LogHeader := ⟨0, fun _ => 0⟩

/-- The logged block numbers. -/
def LogHeader.blocks (lh : LogHeader) : List ℕ := (List.range lh.n).map lh.block

/-- The loop of `log_write`: the first index that holds the block number, or `n`. -/
def LogHeader.find (lh : LogHeader) (b : ℕ) : ℕ :=
  ((List.range lh.n).find? fun i => lh.block i = b).getD lh.n

/-- `log_write`, the entry of a block number into the header. -/
def LogHeader.absorb (lh : LogHeader) (b : ℕ) : LogHeader where
  n := if lh.find b = lh.n then lh.n + 1 else lh.n
  block := Function.update lh.block (lh.find b) b

/-- The loop of `log_write` finds a block number that is logged, and runs through otherwise. -/
theorem LogHeader.find_spec (lh : LogHeader) (b : ℕ) :
    b ∈ lh.blocks ∧ lh.find b < lh.n ∧ lh.block (lh.find b) = b ∨
      b ∉ lh.blocks ∧ lh.find b = lh.n := by
  unfold find blocks
  cases hfind : (List.range lh.n).find? fun i => decide (lh.block i = b) with
  | some i =>
    have hi : i < lh.n := List.mem_range.mp (List.mem_of_find?_eq_some hfind)
    have hb : lh.block i = b := by simpa using List.find?_some hfind
    exact .inl ⟨List.mem_map.mpr ⟨i, List.mem_range.mpr hi, hb⟩, hi, hb⟩
  | none =>
    refine .inr ⟨fun hmem => ?_, rfl⟩
    obtain ⟨i, hi, hb⟩ := List.mem_map.mp hmem
    simpa [hb] using List.find?_eq_none.mp hfind i hi

/-- Log absorption: a block number that is logged stays where it is, another one is appended. -/
theorem LogHeader.blocks_absorb (lh : LogHeader) (b : ℕ) :
    (lh.absorb b).blocks = if b ∈ lh.blocks then lh.blocks else lh.blocks ++ [b] := by
  rcases lh.find_spec b with ⟨hmem, hlt, hblock⟩ | ⟨hnot, hfind⟩
  · have hsame : Function.update lh.block (lh.find b) b = lh.block := by
      rw [Function.update_eq_self_iff, hblock]
    rw [if_pos hmem]
    simp only [blocks, absorb, hsame, if_neg hlt.ne]
  · rw [if_neg hnot]
    simp only [blocks, absorb, hfind, if_pos, List.range_succ, List.map_append, List.map_cons,
      List.map_nil, Function.update_self]
    congr 1
    refine List.map_congr_left fun i hi => ?_
    exact Function.update_of_ne (List.mem_range.mp hi).ne _ _

theorem LogHeader.mem_blocks_absorb {lh : LogHeader} {b b' : ℕ} :
    b' ∈ (lh.absorb b).blocks ↔ b' = b ∨ b' ∈ lh.blocks := by
  rw [blocks_absorb]
  split_ifs with hmem
  · constructor
    · exact .inr
    · rintro (rfl | h)
      · exact hmem
      · exact h
  · rw [List.mem_append, List.mem_singleton, or_comm]

/-- Absorption never logs a block twice. -/
theorem LogHeader.nodup_absorb {lh : LogHeader} (hnodup : lh.blocks.Nodup) (b : ℕ) :
    (lh.absorb b).blocks.Nodup := by
  rw [blocks_absorb]
  split_ifs with hmem
  · exact hnodup
  · refine List.nodup_append.mpr ⟨hnodup, List.nodup_singleton b, fun a ha c hc hac => ?_⟩
    rw [List.mem_singleton] at hc
    exact hmem (hc ▸ hac ▸ ha)

@[simp] theorem LogHeader.length_blocks (lh : LogHeader) : lh.blocks.length = lh.n := by
  simp [blocks]

/-- `log.start` and `log.size`, from the superblock. -/
structure LogArea where
  /-- The block number of the header. -/
  start : ℕ
  /-- The number of blocks of the log, the header included. -/
  size : ℕ

/-- Programs over the disk. -/
abbrev LogProg := Prog ℕ Block

variable (log : LogArea) (lh : LogHeader)

/-- `install_trans`: copy committed blocks from the log to their homes. -/
def installTrans : LogProg Unit :=
  .loop (fun tail => do
    let lbuf ← Prog.read (log.start + tail + 1)
    let _dbuf ← Prog.read (lh.block tail)
    Prog.write (lh.block tail) lbuf) lh.n

/-- `read_head`, on the header in memory. -/
def readHead : LogProg LogHeader := do
  let buf ← Prog.read log.start
  return ⟨buf 0, fun i => if i < buf 0 then buf (i + 1) else lh.block i⟩

/-- The header block that `write_head` writes over `buf`. -/
def LogHeader.encode (buf : Block) : Block := fun word =>
  if word = 0 then lh.n else if word ≤ lh.n then lh.block (word - 1) else buf word

/-- `write_head`. -/
def writeHead : LogProg Unit := do
  let buf ← Prog.read log.start
  Prog.write log.start (lh.encode buf)

/-- `recover_from_log`. -/
def recoverFromLog : LogProg LogHeader := do
  let lh ← readHead log lh
  installTrans log lh
  let lh := { lh with n := 0 }
  writeHead log lh
  return lh

/-- `write_log`: copy modified blocks from the cache to the log. -/
def writeLog : LogProg Unit :=
  .loop (fun tail => do
    let _to ← Prog.read (log.start + tail + 1)
    let buf ← Prog.read (lh.block tail)
    Prog.write (log.start + tail + 1) buf) lh.n

/-- `commit`. -/
def commit : LogProg LogHeader :=
  if 0 < lh.n then do
    writeLog log lh
    writeHead log lh
    installTrans log lh
    let lh := { lh with n := 0 }
    writeHead log lh
    return lh
  else return lh

end Xv6
