import Xv6.Log

/-!
# Crash atomicity of the log

The machine may stop between any two block writes of `commit`, and again, any number of
times, between any two block writes of `recover_from_log`. Once a recovery has run to its end
the disk holds the transaction entirely or not at all, depending only on whether the
header had been written. A committed disk is described by its header and its log blocks
alone, so that recovery can start again wherever it was stopped.
-/

namespace Xv6

open CrashProg

/-- A transaction that is ready to be committed: its blocks are distinct, at home outside of
the log region, fit into the log, and are the only ones that differ from the disk. -/
structure Transaction (log : LogArea) (m : Machine ℕ Block) (lh : LogHeader) : Prop where
  /-- The transaction is not empty. -/
  pos : 1 ≤ lh.n
  /-- The log region has room for it. -/
  fits : lh.n ≤ log.size - 1
  /-- No block is logged twice. -/
  distinct : ∀ i < lh.n, ∀ j < lh.n, lh.block i = lh.block j → i = j
  /-- The home blocks are outside of the log region. -/
  home : ∀ i < lh.n, lh.block i < log.start ∨ log.start + log.size ≤ lh.block i
  /-- The header count on the disk is 0. -/
  empty : m.disk log.start 0 = 0
  /-- Blocks that were not logged are in the cache as they are on the disk. -/
  clean : ∀ b, (∀ i < lh.n, lh.block i ≠ b) → m.read b = m.disk b

/-- The disk after `commit` stopped after `k` writes, recovery stopped at each of some
points, and one recovery ran to its end. -/
def diskAfterStops (log : LogArea) (lh : LogHeader) (m : Machine ℕ Block) (k : ℕ)
    (stops : List ℕ) : ℕ → Block :=
  recoverThrough (recoverFromLog log .zero) stops ((commit log lh).stopped k m)

/-! ## Disk states -/

section

variable (log : LogArea) (lh : LogHeader) (new v : ℕ → Block)

/-- The blocks other than the header block and the log blocks in use. -/
def Outside (b : ℕ) : Prop := b < log.start ∨ log.start + lh.n < b

/-- No transaction is on the disk, and the blocks outside of the log have given contents. -/
structure Settled (d : ℕ → Block) : Prop where
  /-- The header count is 0. -/
  empty : d log.start 0 = 0
  /-- The contents of the other blocks. -/
  outside : ∀ b, Outside log lh b → d b = v b

/-- A transaction is on the disk: the header names its blocks, the log blocks hold its
contents, and blocks that it did not log have their contents. -/
structure Committed (d : ℕ → Block) : Prop where
  /-- The header count. -/
  count : d log.start 0 = lh.n
  /-- The header entries. -/
  entry : ∀ i < lh.n, d log.start (i + 1) = lh.block i
  /-- The log blocks. -/
  logged : ∀ i < lh.n, d (log.start + i + 1) = new (lh.block i)
  /-- Blocks that were not logged. -/
  outside : ∀ b, Outside log lh b → (∀ i < lh.n, lh.block i ≠ b) → d b = new b

/-- The invariant of `write_log`: the disk is as before, and the log blocks written so far
hold the new contents. -/
structure Writing (i : ℕ) (m : Machine ℕ Block) : Prop where
  /-- The disk outside of the log is as before. -/
  settled : Settled log lh v m.disk
  /-- The new contents are in memory. -/
  cached : ∀ b, Outside log lh b → m.read b = new b
  /-- The log blocks in memory. -/
  read : ∀ j < i, m.read (log.start + j + 1) = new (lh.block j)
  /-- The log blocks on the disk. -/
  disk : ∀ j < i, m.disk (log.start + j + 1) = new (lh.block j)

/-- The invariant of `install_trans`: the transaction is on the disk, and the blocks
installed so far hold the new contents. -/
structure Installing (i : ℕ) (m : Machine ℕ Block) : Prop where
  /-- The transaction is on the disk. -/
  committed : Committed log lh new m.disk
  /-- The log blocks in memory. -/
  read : ∀ j < lh.n, m.read (log.start + j + 1) = new (lh.block j)
  /-- The installed blocks. -/
  installed : ∀ j < i, m.disk (lh.block j) = new (lh.block j)

end

/-- The header of a transaction: distinct blocks outside of the log blocks. -/
structure LogHeader.Fits (log : LogArea) (lh : LogHeader) : Prop where
  /-- No block is logged twice. -/
  distinct : ∀ i < lh.n, ∀ j < lh.n, lh.block i = lh.block j → i = j
  /-- The blocks are not log blocks. -/
  home : ∀ i < lh.n, Outside log lh (lh.block i)

variable {log : LogArea} {lh : LogHeader} {new v : ℕ → Block}

/-! ## Single writes -/

/-- Writing a log block keeps the rest of the disk and adds the new contents to the log. -/
theorem Writing.write {i : ℕ} {m : Machine ℕ Block} (hfits : lh.Fits log) (hi : i < lh.n)
    (hm : Writing log lh new v i m) :
    Writing log lh new v (i + 1) (m.write (log.start + i + 1) (m.read (lh.block i))) := by
  have hnew : m.read (lh.block i) = new (lh.block i) := hm.cached _ (hfits.home i hi)
  have hne : ∀ b, Outside log lh b → b ≠ log.start + i + 1 := by
    intro b hb
    unfold Outside at hb
    omega
  refine ⟨⟨?_, fun b hb => ?_⟩, fun b hb => ?_, fun j hj => ?_, fun j hj => ?_⟩
  · rw [Machine.write_disk, if_neg (by omega)]
    exact hm.settled.empty
  · rw [Machine.write_disk, if_neg (hne b hb)]
    exact hm.settled.outside b hb
  · rw [Machine.write_read, if_neg (hne b hb)]
    exact hm.cached b hb
  · rw [Machine.write_read]
    split_ifs with hlast
    · rw [hnew, show j = i by omega]
    · exact hm.read j (by omega)
  · rw [Machine.write_disk]
    split_ifs with hlast
    · rw [hnew, show j = i by omega]
    · exact hm.disk j (by omega)

/-- The write of the header puts the transaction on the disk. -/
theorem Writing.commit {m : Machine ℕ Block} (hclean : ∀ b, (∀ i < lh.n, lh.block i ≠ b) →
    v b = new b) (hm : Writing log lh new v lh.n m) (buf : Block) :
    Installing log lh new 0 (m.write log.start (lh.encode buf)) := by
  have hne : ∀ b, Outside log lh b → b ≠ log.start := by
    intro b hb
    unfold Outside at hb
    omega
  refine ⟨⟨?_, fun i hi => ?_, fun i hi => ?_, fun b hb hlogged => ?_⟩, fun j hj => ?_,
    fun j hj => absurd hj (Nat.not_lt_zero j)⟩
  · simp [LogHeader.encode]
  · simp [LogHeader.encode, Nat.succ_le_of_lt hi]
  · rw [Machine.write_disk, if_neg (by omega)]
    exact hm.disk i hi
  · rw [Machine.write_disk, if_neg (hne b hb), hm.settled.outside b hb]
    exact hclean b hlogged
  · rw [Machine.write_read, if_neg (by omega)]
    exact hm.read j hj

/-- Installing a block keeps the transaction on the disk. -/
theorem Installing.write {i : ℕ} {m : Machine ℕ Block} (hfits : lh.Fits log) (hi : i < lh.n)
    (hm : Installing log lh new i m) :
    Installing log lh new (i + 1) (m.write (lh.block i) (m.read (log.start + i + 1))) := by
  have hhome := hfits.home i hi
  unfold Outside at hhome
  obtain ⟨hcommitted, hread, hinstalled⟩ := hm
  refine ⟨⟨?_, fun j hj => ?_, fun j hj => ?_, fun b hb hlogged => ?_⟩, fun j hj => ?_,
    fun j hj => ?_⟩
  · rw [Machine.write_disk, if_neg (by omega)]
    exact hcommitted.count
  · rw [Machine.write_disk, if_neg (by omega)]
    exact hcommitted.entry j hj
  · rw [Machine.write_disk, if_neg (by omega)]
    exact hcommitted.logged j hj
  · rw [Machine.write_disk, if_neg (hlogged i hi).symm]
    exact hcommitted.outside b hb hlogged
  · rw [Machine.write_read, if_neg (by omega)]
    exact hread j hj
  · rw [Machine.write_disk, hread i hi]
    by_cases hji : j = i
    · rw [hji, if_pos rfl]
    · rw [if_neg fun h => hji (hfits.distinct j (by omega) i hi h)]
      exact hinstalled j (by omega)

/-- Once every block is installed, the write of the empty header ends the transaction. -/
theorem Installing.clear {m : Machine ℕ Block} (hm : Installing log lh new lh.n m)
    (buf : Block) :
    Settled log lh new (m.write log.start (LogHeader.encode { lh with n := 0 } buf)).disk := by
  refine ⟨by simp [LogHeader.encode], fun b hb => ?_⟩
  have hne : b ≠ log.start := by
    unfold Outside at hb
    omega
  rw [Machine.write_disk, if_neg hne]
  by_cases hlogged : ∃ i < lh.n, lh.block i = b
  · obtain ⟨i, hi, rfl⟩ := hlogged
    exact hm.installed i hi
  · push Not at hlogged
    exact hm.committed.outside b hb hlogged

/-! ## The programs -/

/-- `write_log` leaves the disk outside of the log as it is, wherever it stops, and copies the
new contents to the log. -/
theorem writeLog_spec (hfits : lh.Fits log) :
    Triple (Writing log lh new v 0) (Settled log lh v) (writeLog log lh)
      fun _ => Writing log lh new v lh.n := by
  apply Triple.loop (I := Writing log lh new v)
  · intro m hm
    exact hm.settled
  · intro i hi
    apply Triple.bind (Triple.read fun m hm => hm.settled)
    intro _
    apply Triple.bind (Triple.read fun m hm => hm.1.settled)
    intro buf
    apply Triple.write
    · rintro m ⟨⟨hm, -⟩, -⟩
      exact hm.settled
    · rintro m ⟨⟨hm, -⟩, rfl⟩
      exact (hm.write hfits hi).settled
    · rintro m ⟨⟨hm, -⟩, rfl⟩
      exact hm.write hfits hi

/-- From a committed transaction, `install_trans` and the write of the empty header keep the
transaction on the disk until the last write ends it. -/
theorem installTrans_writeHead_spec (new : ℕ → Block) (hfits : lh.Fits log) :
    Triple (Installing log lh new 0) (fun d => Committed log lh new d ∨ Settled log lh new d)
      (do
        installTrans log lh
        writeHead log { lh with n := 0 }
        return { lh with n := 0 })
      fun _ m => Settled log lh new m.disk := by
  have hinstall : Triple (Installing log lh new 0)
      (fun d => Committed log lh new d ∨ Settled log lh new d) (installTrans log lh)
      fun _ => Installing log lh new lh.n := by
    apply Triple.loop (I := Installing log lh new)
    · intro m hm
      exact .inl hm.committed
    · intro i hi
      apply Triple.bind (Triple.read fun m hm => .inl hm.committed)
      intro lbuf
      apply Triple.bind (Triple.read fun m hm => .inl hm.1.committed)
      intro _
      apply Triple.write
      · rintro m ⟨⟨hm, -⟩, -⟩
        exact .inl hm.committed
      · rintro m ⟨⟨hm, rfl⟩, -⟩
        exact .inl (hm.write hfits hi).committed
      · rintro m ⟨⟨hm, rfl⟩, -⟩
        exact hm.write hfits hi
  have hclear : Triple (Installing log lh new lh.n)
      (fun d => Committed log lh new d ∨ Settled log lh new d)
      (writeHead log { lh with n := 0 }) fun _ m => Settled log lh new m.disk := by
    apply Triple.bind (Triple.read fun m hm => .inl hm.committed)
    intro buf
    apply Triple.write
    · rintro m ⟨hm, -⟩
      exact .inl hm.committed
    · rintro m ⟨hm, -⟩
      exact .inr (hm.clear buf)
    · rintro m ⟨hm, -⟩
      exact hm.clear buf
  apply Triple.bind hinstall
  intro _
  apply Triple.bind hclear
  intro _
  exact Triple.ret (fun m hm => .inr hm) fun m hm => hm

/-- After a start, `read_head` returns the header that is on the disk. -/
theorem readHead_spec {crash : (ℕ → Block) → Prop} (lh₀ : LogHeader) :
    Triple (fun m => ∃ d, crash d ∧ m = .boot d) crash (readHead log lh₀)
      fun lh m => ∃ d, crash d ∧ m = .boot d ∧ lh.n = d log.start 0 ∧
        ∀ i < lh.n, lh.block i = d log.start (i + 1) := by
  have hcrash : ∀ m : Machine ℕ Block, (∃ d, crash d ∧ m = .boot d) → crash m.disk := by
    rintro m ⟨d, hd, rfl⟩
    exact hd
  apply Triple.bind (Triple.read hcrash)
  intro buf
  apply Triple.ret
  · rintro m ⟨hm, -⟩
    exact hcrash m hm
  · rintro m ⟨⟨d, hd, rfl⟩, rfl⟩
    refine ⟨d, hd, rfl, rfl, fun i hi => ?_⟩
    rw [Machine.boot_read] at hi ⊢
    exact if_pos hi

/-- Without a transaction on the disk, recovery leaves the blocks outside of the log alone. -/
theorem recoverFromLog_settled :
    Triple (fun m => ∃ d, Settled log lh v d ∧ m = .boot d) (Settled log lh v)
      (recoverFromLog log .zero) fun _ m => Settled log lh v m.disk := by
  apply Triple.bind (readHead_spec .zero)
  intro lh'
  apply Triple.pointwise
  rintro m ⟨d, hd, rfl, hn, -⟩
  have hzero : lh'.n = 0 := hn.trans hd.empty
  have hne : ∀ b, Outside log lh b → b ≠ log.start := by
    intro b hb
    unfold Outside at hb
    omega
  have hboot : ∀ m : Machine ℕ Block, m = .boot d → Settled log lh v m.disk := by
    rintro m rfl
    exact hd
  have hwrite : ∀ buf, Settled log lh v
      ((Machine.boot d).write log.start (LogHeader.encode { lh' with n := 0 } buf)).disk := by
    intro buf
    refine ⟨by simp [LogHeader.encode], fun b hb => ?_⟩
    rw [Machine.write_disk, if_neg (hne b hb)]
    exact hd.outside b hb
  have hinstall : Triple (fun m => m = .boot d) (Settled log lh v) (installTrans log lh')
      fun _ m => m = .boot d := by
    rw [installTrans, hzero]
    exact Triple.ret hboot fun m hm => hm
  have hclear : Triple (fun m => m = .boot d) (Settled log lh v)
      (writeHead log { lh' with n := 0 }) fun _ m => Settled log lh v m.disk := by
    apply Triple.bind (Triple.read hboot)
    intro buf
    apply Triple.write
    · rintro m ⟨rfl, -⟩
      exact hd
    · rintro m ⟨rfl, -⟩
      exact hwrite buf
    · rintro m ⟨rfl, -⟩
      exact hwrite buf
  apply Triple.bind hinstall
  intro _
  apply Triple.bind hclear
  intro _
  exact Triple.ret (fun m hm => hm) fun m hm => hm

/-- Another header with the same blocks describes the same transaction. -/
theorem Committed.congr {lh' : LogHeader} {d : ℕ → Block} (hn : lh'.n = lh.n)
    (hblock : ∀ i < lh.n, lh'.block i = lh.block i) (hd : Committed log lh new d) :
    Committed log lh' new d := by
  obtain ⟨hcount, hentry, hlogged, houtside⟩ := hd
  refine ⟨by rw [hn, hcount], fun i hi => ?_, fun i hi => ?_, fun b hb hnot => ?_⟩
  · rw [hn] at hi
    rw [hentry i hi, hblock i hi]
  · rw [hn] at hi
    rw [hlogged i hi, hblock i hi]
  · refine houtside b (by unfold Outside at hb ⊢; omega) fun i hi => ?_
    rw [← hblock i hi]
    exact hnot i (by omega)

/-- Another header with the same blocks fits as well. -/
theorem LogHeader.Fits.congr {lh' : LogHeader} (hn : lh'.n = lh.n)
    (hblock : ∀ i < lh.n, lh'.block i = lh.block i) (hfits : lh.Fits log) : lh'.Fits log := by
  constructor
  · intro i hi j hj hij
    rw [hn] at hi hj
    rw [hblock i hi, hblock j hj] at hij
    exact hfits.distinct i hi j hj hij
  · intro i hi
    rw [hn] at hi
    have hhome := hfits.home i hi
    rw [hblock i hi]
    unfold Outside at hhome ⊢
    omega

/-- Recovery completes a transaction that is on the disk, and can start again wherever it
stops. -/
theorem recoverFromLog_committed (hfits : lh.Fits log) :
    Triple (fun m => ∃ d, (Committed log lh new d ∨ Settled log lh new d) ∧ m = .boot d)
      (fun d => Committed log lh new d ∨ Settled log lh new d) (recoverFromLog log .zero)
      fun _ m => Settled log lh new m.disk := by
  apply Triple.pointwise
  rintro m ⟨d, hd | hd, rfl⟩
  · have hread := @readHead_spec log (fun d' => d' = d) .zero
    apply Triple.bind
    · refine hread.consequence ?_ ?_ fun _ _ h => h
      · rintro m rfl
        exact ⟨d, rfl, rfl⟩
      · rintro d' rfl
        exact .inl hd
    · intro lh'
      apply Triple.pointwise
      rintro m ⟨d', rfl, rfl, hn, hblock⟩
      have hcount : lh'.n = lh.n := hn.trans hd.count
      have hsame : ∀ i < lh.n, lh'.block i = lh.block i := by
        intro i hi
        rw [hblock i (by omega), hd.entry i hi]
      have hd' : Committed log lh' new d' := hd.congr hcount hsame
      have hsettled : ∀ d, Settled log lh' new d → Settled log lh new d := by
        rintro d ⟨hempty, houtside⟩
        exact ⟨hempty, fun b hb => houtside b (by unfold Outside at hb ⊢; omega)⟩
      have hcommitted : ∀ d, Committed log lh' new d → Committed log lh new d := by
        intro d hd
        exact hd.congr hcount.symm fun i hi => (hsame i (by omega)).symm
      refine (installTrans_writeHead_spec new (hfits.congr hcount hsame)).consequence ?_ ?_ ?_
      · rintro m rfl
        exact ⟨hd', hd'.logged, fun j hj => absurd hj (Nat.not_lt_zero j)⟩
      · exact fun d hd => hd.imp (hcommitted d) (hsettled d)
      · exact fun _ m hm => hsettled _ hm
  · refine recoverFromLog_settled.consequence ?_ (fun _ h => .inr h) fun _ _ h => h
    rintro m rfl
    exact ⟨d, hd, rfl⟩

/-! ## Stopping a commit -/

/-- The header of a transaction fits. -/
theorem Transaction.headerFits {m : Machine ℕ Block} (ht : Transaction log m lh) :
    lh.Fits log := by
  refine ⟨ht.distinct, fun i hi => ?_⟩
  have hpos := ht.pos
  have hroom := ht.fits
  have hhome := ht.home i hi
  unfold Outside
  omega

/-- After at most as many writes as the transaction has blocks, a stopped `commit` has not
begun the transaction on the disk; after one more it has. -/
theorem commit_stopped {m : Machine ℕ Block} (ht : Transaction log m lh) (k : ℕ) :
    (k ≤ lh.n → Settled log lh m.disk ((commit log lh).stopped k m)) ∧
      (lh.n < k → Committed log lh m.read ((commit log lh).stopped k m) ∨
        Settled log lh m.read ((commit log lh).stopped k m)) := by
  have hfits := ht.headerFits
  have hstart : Writing log lh m.read m.disk 0 m :=
    ⟨⟨ht.empty, fun _ _ => rfl⟩, fun _ _ => rfl, fun j hj => absurd hj (Nat.not_lt_zero j),
      fun j hj => absurd hj (Nat.not_lt_zero j)⟩
  obtain ⟨hstop, hwritten⟩ := writeLog_spec hfits m hstart
  have hwrites : (writeLog log lh).writes m = lh.n := Prog.writes_loop (fun _ _ => rfl) lh.n m
  have hcommit : commit log lh = (writeLog log lh).bind fun _ => (writeHead log lh).bind fun _ =>
      (do
        installTrans log lh
        writeHead log { lh with n := 0 }
        return { lh with n := 0 }) := if_pos ht.pos
  have hclean : ∀ b, (∀ i < lh.n, lh.block i ≠ b) → m.disk b = m.read b := fun b hb =>
    (ht.clean b hb).symm
  have hinstalling := hwritten.commit hclean (((writeLog log lh).run m).2.read log.start)
  obtain ⟨hstop', -⟩ := installTrans_writeHead_spec m.read hfits _ hinstalling
  rw [hcommit]
  constructor
  · intro hk
    rw [Prog.stopped_bind, hwrites]
    split_ifs with hlt
    · exact hstop k
    · -- the machine stops right before the write of the header
      have hzero : k - lh.n = 0 := by omega
      rw [hzero]
      exact hwritten.settled
  · intro hk
    have hone : ∀ m', (writeHead log lh).writes m' = 1 := fun _ => rfl
    rw [Prog.stopped_bind, hwrites, if_neg (by omega), Prog.stopped_bind, hone, if_neg (by omega)]
    exact hstop' _

/-- Crash atomicity: wherever `commit` stops, and however often the recovery is stopped, once
a recovery has run to its end the header count is 0, the blocks that the transaction did not
log are unchanged, and all its blocks are as before if the header had not been written and
as after the transaction if it had. -/
theorem commit_crash_atomic {m : Machine ℕ Block} (ht : Transaction log m lh) (k : ℕ)
    (stops : List ℕ) :
    diskAfterStops log lh m k stops log.start 0 = 0 ∧
      (∀ b, b < log.start ∨ log.start + lh.n < b → (∀ i < lh.n, lh.block i ≠ b) →
        diskAfterStops log lh m k stops b = m.disk b) ∧
      (k ≤ lh.n → ∀ i < lh.n,
        diskAfterStops log lh m k stops (lh.block i) = m.disk (lh.block i)) ∧
      (lh.n < k → ∀ i < lh.n,
        diskAfterStops log lh m k stops (lh.block i) = m.read (lh.block i)) := by
  have hfits := ht.headerFits
  obtain ⟨hbefore, hafter⟩ := commit_stopped ht k
  by_cases hk : k ≤ lh.n
  · have hsettled : Settled log lh m.disk (diskAfterStops log lh m k stops) :=
      recoverFromLog_settled.recoverThrough (hbefore hk) stops
    refine ⟨hsettled.empty, fun b hb _ => hsettled.outside b hb, fun _ i hi => ?_, fun h => ?_⟩
    · exact hsettled.outside _ (hfits.home i hi)
    · omega
  · have hsettled : Settled log lh m.read (diskAfterStops log lh m k stops) :=
      (recoverFromLog_committed hfits).recoverThrough (hafter (by omega)) stops
    refine ⟨hsettled.empty, fun b hb hnot => ?_, fun h => ?_, fun _ i hi => ?_⟩
    · rw [hsettled.outside b hb]
      exact ht.clean b hnot
    · omega
    · exact hsettled.outside _ (hfits.home i hi)

/-- A transaction with two blocks, 40 and 41. -/
def twoBlocks : LogHeader := ⟨2, fun i => 40 + i⟩

/-- A disk of zeroes with both blocks modified in the cache. -/
def twoModified : Machine ℕ Block :=
  ⟨fun b => if b = 40 ∨ b = 41 then some fun _ => b else none, fun _ _ => 0⟩

/-- Both blocks make a transaction for a log of thirty blocks at block 2. -/
theorem transaction_twoBlocks : Transaction ⟨2, 30⟩ twoModified twoBlocks := by
  refine ⟨by decide, by decide, ?_, ?_, rfl, fun b hb => ?_⟩
  · intro i _ j _ hij
    simp only [twoBlocks] at hij
    omega
  · intro i _
    simp only [twoBlocks]
    omega
  · have h40 := hb 0 (by decide)
    have h41 := hb 1 (by decide)
    simp only [twoBlocks] at h40 h41
    simp [Machine.read, twoModified, Ne.symm h40, Ne.symm h41]

/-- A stop right after the header was written and two stops in the recovery do not lose the
second block. -/
theorem commit_crash_atomic_twoBlocks :
    diskAfterStops ⟨2, 30⟩ twoBlocks twoModified 3 [1, 0] 41 = fun _ => 41 :=
  (commit_crash_atomic transaction_twoBlocks 3 [1, 0]).2.2.2 (by decide) 1 (by decide)

end Xv6
