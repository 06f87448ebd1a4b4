import Xv6.FileWrite

/-!
# Writers that share an open file

Processes in the loop of `filewrite` on one `struct file`. Between `ilock` and `iunlock` a
process writes at the offset of the file, moves the offset, and gives the lock back; between
these steps others may run. No write is lost and none is torn apart.
-/

namespace Xv6.Fs

open StateProg GuardedRun

/-- Where a process is in the loop of `filewrite`. -/
inductive WriterPc
  /-- Before `ilock`, or behind the loop. -/
  | outside
  /-- Before `writei`. -/
  | locked
  /-- Before the assignment to the offset. -/
  | written
  /-- Before `iunlock`. -/
  | advanced
  /-- Behind the `break`. -/
  | broken
deriving DecidableEq

/-- The variables of a call of `filewrite`. -/
structure Writer where
  /-- The bytes to write. -/
  src : Bytes
  /-- Their number. -/
  n : ℕ
  /-- The number of bytes written. -/
  i : ℕ
  /-- The result of `writei`. -/
  r : ℤ
  /-- Where the call is. -/
  pc : WriterPc

/-- The number of bytes of the next piece. -/
def Writer.n1 (w : Writer) : ℕ := if w.n - w.i > filewriteMax then filewriteMax else w.n - w.i

/-- The bytes of the next piece. -/
def Writer.piece (w : Writer) : Bytes := fun k => w.src (w.i + k)

variable {P : Type} [DecidableEq P]

/-- The file system, the open file and the processes that write to it. -/
structure Writers (P : Type) where
  /-- The file system. -/
  fs : State
  /-- The open file. -/
  f : File
  /-- The processes. -/
  writer : P → Writer

/-- The steps of the processes. -/
inductive WriterAct (P : Type)
  | ilock (p : P)
  | writei (p : P)
  | advance (p : P)
  | iunlock (p : P)

/-- The state with other variables of a process. -/
def Writers.set (s : Writers P) (p : P) (w : Writer) : Writers P :=
  { s with writer := Function.update s.writer p w }

/-- One step of a process; it has none while it waits for the lock. -/
def Writers.run (s : Writers P) : WriterAct P → Except Halt (Option (Writers P))
  | .ilock p => do
    let w := s.writer p
    if w.pc = .outside ∧ w.i < w.n ∧ (s.fs.icache s.f.ip).locked = false then
      let (_, fs) ← ilock s.f.ip s.fs
      return some ({ s with fs }.set p { w with pc := .locked })
    else return none
  | .writei p => do
    let w := s.writer p
    if w.pc = .locked then
      let (r, fs) ← writei s.f.ip w.piece s.f.off w.n1 s.fs
      return some ({ s with fs }.set p { w with r, pc := .written })
    else return none
  | .advance p =>
    let w := s.writer p
    if w.pc = .written then
      let off := if 0 < w.r then (s.f.off + w.r.toNat) % 2 ^ 32 else s.f.off
      return some ({ s with f := { s.f with off } }.set p { w with pc := .advanced })
    else return none
  | .iunlock p => do
    let w := s.writer p
    if w.pc = .advanced then
      let (_, fs) ← iunlock s.f.ip s.fs
      if w.r < 0 then return some ({ s with fs }.set p { w with pc := .broken })
      else if w.r ≠ w.n1 then throw .shortFilewrite
      else return some ({ s with fs }.set p { w with i := w.i + w.n1, pc := .outside })
    else return none

/-- One step that does not panic. -/
def writerStep (s : Writers P) (a : WriterAct P) : Option (Writers P) :=
  match s.run a with
  | .ok next => next
  | .error _ => none

/-- The process whose piece a step writes. -/
def WriterAct.writes : WriterAct P → Option P
  | .writei p => some p
  | _ => none

/-- The processes in the order in which they wrote. -/
def writeOrder (trace : List (WriterAct P)) : List P := trace.reverse.filterMap WriterAct.writes

/-- The pieces of a call from byte `i` on; the first number bounds them. -/
def pieces (src : Bytes) (n : ℕ) : ℕ → ℕ → List (List UInt8)
  | 0, _ => []
  | fuel + 1, i =>
    if i < n then
      let n1 := if n - i > filewriteMax then filewriteMax else n - i
      firstBytes (fun k => src (i + k)) n1 :: pieces src n fuel (i + n1)
    else []

/-- More rounds than needed change nothing. -/
theorem pieces_fuel (src : Bytes) {n fuel fuel' i : ℕ} (hfuel : n - i ≤ fuel)
    (hfuel' : n - i ≤ fuel') : pieces src n fuel i = pieces src n fuel' i := by
  have hmax : 0 < filewriteMax := by decide
  induction fuel generalizing i fuel' with
  | zero =>
    cases fuel' with
    | zero => rfl
    | succ fuel' =>
      rw [pieces, pieces, if_neg (by omega)]
  | succ fuel ih =>
    cases fuel' with
    | zero => rw [pieces, pieces, if_neg (by omega)]
    | succ fuel' =>
      rw [pieces, pieces]
      by_cases hlt : i < n
      · rw [if_pos hlt, if_pos hlt]
        dsimp only
        congr 1
        apply ih
        · split_ifs <;> omega
        · split_ifs <;> omega
      · rw [if_neg hlt, if_neg hlt]

/-- The number of bytes of a call that are in the file. -/
def Writer.progress (w : Writer) : ℕ :=
  if w.pc = .written ∨ w.pc = .advanced then w.i + w.n1 else w.i

/-- The process that holds the lock, with its place in the loop. -/
structure Inside (w : Writer) (off len : ℕ) : Prop where
  /-- There are bytes left. -/
  left : w.i < w.n
  /-- Where the process is, the offset and the end of the file. -/
  place : (w.pc = .locked ∧ off = len) ∨ (w.pc = .written ∧ w.r = w.n1 ∧ off + w.n1 = len) ∨
    (w.pc = .advanced ∧ w.r = w.n1 ∧ off = len)

/-- The bytes of the file after the pieces of a list. -/
def appended (c₀ : List UInt8) (order : List (P × List UInt8)) : List UInt8 :=
  c₀ ++ (order.map Prod.snd).flatten

variable [Fintype P]

/-- What holds between any two steps: `c₀` are the bytes of the file at the beginning. -/
structure Appended (L : Layout) (init : Writers P) (c₀ : List UInt8) (trace : List (WriterAct P))
    (s : Writers P) (file : ℕ → Dinode) (order : List (P × List UInt8)) : Prop where
  /-- The lock is free, no process is between `ilock` and `iunlock`, and the offset is at the
  end; or one process is. -/
  lock : (Ready L s.fs file s.f.ip (appended c₀ order) ∧
      (∀ p, (s.writer p).pc = .outside) ∧
      s.f.off = (appended c₀ order).length) ∨
    ∃ p, Held L s.fs file s.f.ip (appended c₀ order) ∧
      Inside (s.writer p) s.f.off (appended c₀ order).length ∧
      ∀ q ≠ p, (s.writer q).pc = .outside
  /-- The free blocks suffice for all bytes of all calls. -/
  enough : EnoughFor L s.fs file (s.fs.icache s.f.ip).inum
    (touched c₀.length (∑ p, (init.writer p).n))
  /-- The pieces are those of the writes so far. -/
  sequence : order.map Prod.fst = writeOrder trace
  /-- The pieces of a process are the first ones of its call. -/
  own : ∀ p, (order.filter fun x => x.1 = p).map Prod.snd ++
    pieces (s.writer p).src (s.writer p).n (s.writer p).n (s.writer p).progress =
      pieces (s.writer p).src (s.writer p).n (s.writer p).n 0
  /-- The calls are those of the beginning. -/
  calls : ∀ p, (s.writer p).src = (init.writer p).src ∧ (s.writer p).n = (init.writer p).n ∧
    (s.writer p).progress ≤ (s.writer p).n
  /-- The bytes of all calls are in the file or to be written. -/
  length : (appended c₀ order).length + ∑ p, ((s.writer p).n - (s.writer p).progress) =
    c₀.length + ∑ p, (init.writer p).n
  /-- The open file. -/
  ip : s.f.ip = init.f.ip

variable {L : Layout} {init s s' : Writers P} {c₀ : List UInt8} {trace : List (WriterAct P)}
  {file : ℕ → Dinode} {order : List (P × List UInt8)}

/-- A step that writes nothing keeps the order of the pieces and what is left to write. -/
theorem Appended.move (h : Appended L init c₀ trace s file order) {a : WriterAct P} {p : P}
    {w : Writer} {fs : State} {f : File} (ha : a.writes = none)
    (hcall : w.src = (s.writer p).src ∧ w.n = (s.writer p).n ∧
      w.progress = (s.writer p).progress) (hip : f.ip = s.f.ip)
    (henough : EnoughFor L fs file (fs.icache f.ip).inum
      (touched c₀.length (∑ p, (init.writer p).n)))
    (hlock : (Ready L fs file f.ip (appended c₀ order) ∧
      (∀ q, (Function.update s.writer p w q).pc = .outside) ∧
      f.off = (appended c₀ order).length) ∨
    ∃ q, Held L fs file f.ip (appended c₀ order) ∧
      Inside (Function.update s.writer p w q) f.off (appended c₀ order).length ∧
      ∀ q' ≠ q, (Function.update s.writer p w q').pc = .outside) :
    Appended L init c₀ (a :: trace) (({ s with fs, f } : Writers P).set p w) file order := by
  obtain ⟨hsrc, hn, hprogress⟩ := hcall
  have hsame (q : P) : (Function.update s.writer p w q).src = (s.writer q).src ∧
      (Function.update s.writer p w q).n = (s.writer q).n ∧
      (Function.update s.writer p w q).progress = (s.writer q).progress := by
    by_cases hq : q = p
    · subst hq
      rw [Function.update_self]
      exact ⟨hsrc, hn, hprogress⟩
    · rw [Function.update_of_ne hq]
      exact ⟨rfl, rfl, rfl⟩
  constructor
  · exact hlock
  · exact henough
  · rw [h.sequence, writeOrder, writeOrder, List.reverse_cons, List.filterMap_append]
    simp [ha]
  · intro q
    obtain ⟨hsrcq, hnq, hprogressq⟩ := hsame q
    simp only [Writers.set]
    rw [hsrcq, hnq, hprogressq]
    exact h.own q
  · intro q
    obtain ⟨hsrcq, hnq, hprogressq⟩ := hsame q
    simp only [Writers.set]
    rw [hsrcq, hnq, hprogressq]
    exact h.calls q
  · rw [← h.length]
    congr 1
    apply Finset.sum_congr rfl
    intro q _
    obtain ⟨-, hnq, hprogressq⟩ := hsame q
    simp only [Writers.set]
    rw [hnq, hprogressq]
  · exact hip.trans h.ip

/-- The process between `ilock` and `iunlock`. -/
theorem Appended.inside (h : Appended L init c₀ trace s file order) {p : P}
    (hpc : (s.writer p).pc ≠ .outside) :
    Held L s.fs file s.f.ip (appended c₀ order) ∧
      Inside (s.writer p) s.f.off (appended c₀ order).length ∧
      ∀ q ≠ p, (s.writer q).pc = .outside := by
  rcases h.lock with ⟨-, hout, -⟩ | ⟨p', hheld, hinside, hout⟩
  · exact absurd (hout p) hpc
  · have hp : p = p' := by
      by_contra hne
      exact hpc (hout p hne)
    subst hp
    exact ⟨hheld, hinside, hout⟩

/-- The next piece of a process that has bytes left. -/
theorem Writer.n1_bounds {w : Writer} (hleft : w.i < w.n) :
    0 < w.n1 ∧ w.i + w.n1 ≤ w.n ∧ w.n1 ≤ filewriteMax := by
  have hmax : 0 < filewriteMax := by decide
  unfold Writer.n1
  split_ifs <;> omega

omit [Fintype P] in
/-- Other processes keep their places when one process moves. -/
theorem outside_update {p : P} {w : Writer} (hout : ∀ q ≠ p, (s.writer q).pc = .outside) :
    ∀ q ≠ p, (Function.update s.writer p w q).pc = .outside := by
  intro q hq
  rw [Function.update_of_ne hq]
  exact hout q hq

/-- `ilock` in the loop of `filewrite`. -/
theorem Appended.ilock (h : Appended L init c₀ trace s file order) (p : P) :
    ∃ next, s.run (.ilock p) = .ok next ∧ ∀ s', next = some s' →
      Appended L init c₀ (.ilock p :: trace) s' file order := by
  unfold Writers.run
  dsimp only
  split_ifs with hguard
  swap
  · exact ⟨none, rfl, fun s' hs' => by cases hs'⟩
  obtain ⟨hpc, hleft, hfree⟩ := hguard
  rcases h.lock with ⟨hready, hout, hoff⟩ | ⟨q, hheld, -⟩
  · obtain ⟨fs, hrun, hheld, hstep⟩ := hready.lock
    rw [hrun]
    refine ⟨_, rfl, ?_⟩
    rintro s' ⟨⟩
    refine h.move rfl ⟨rfl, rfl, ?_⟩ rfl (hstep.enoughFor.mpr h.enough)
      (.inr ⟨p, hheld, ?_, outside_update fun q _ => hout q⟩)
    · simp [Writer.progress, hpc]
    · rw [Function.update_self]
      exact ⟨hleft, .inl ⟨rfl, hoff⟩⟩
  · rw [hheld.locked] at hfree
    cases hfree

/-- The assignment to the offset in `filewrite`. -/
theorem Appended.advance (h : Appended L init c₀ trace s file order) (p : P)
    (hmax : c₀.length + ∑ p, (init.writer p).n ≤ maxFile * bsize) :
    ∃ next, s.run (.advance p) = .ok next ∧ ∀ s', next = some s' →
      Appended L init c₀ (.advance p :: trace) s' file order := by
  unfold Writers.run
  dsimp only
  split_ifs with hpc hpos
  rotate_left 2
  · exact ⟨none, rfl, fun s' hs' => by cases hs'⟩
  all_goals
    obtain ⟨hheld, ⟨hleft, hplace⟩, hout⟩ := h.inside (p := p) (by rw [hpc]; decide)
    rw [hpc] at hplace
    obtain ⟨hr, hoff⟩ : (s.writer p).r = (s.writer p).n1 ∧
        s.f.off + (s.writer p).n1 = (appended c₀ order).length := by
      rcases hplace with ⟨hbad, -⟩ | ⟨-, hplace⟩ | ⟨hbad, -⟩
      · cases hbad
      · exact hplace
      · cases hbad
  · have hbound : maxFile * bsize < 2 ^ 32 := by decide
    have hlength := h.length
    have hmod : (s.f.off + (s.writer p).n1) % 2 ^ 32 = s.f.off + (s.writer p).n1 :=
      Nat.mod_eq_of_lt (by omega)
    rw [hr, Int.toNat_natCast, hmod]
    refine ⟨_, rfl, ?_⟩
    rintro s' ⟨⟩
    refine h.move rfl ⟨rfl, rfl, ?_⟩ rfl h.enough (.inr ⟨p, hheld, ?_, outside_update hout⟩)
    · simp [Writer.progress, hpc, Writer.n1]
    · rw [Function.update_self]
      exact ⟨hleft, .inr (.inr ⟨rfl, rfl, hoff⟩)⟩
  · have hn1 := (Writer.n1_bounds hleft).1
    omega

/-- `iunlock` in the loop of `filewrite`. -/
theorem Appended.iunlock (h : Appended L init c₀ trace s file order) (p : P) :
    ∃ next, s.run (.iunlock p) = .ok next ∧ ∀ s', next = some s' →
      Appended L init c₀ (.iunlock p :: trace) s' file order := by
  by_cases hpc : (s.writer p).pc = .advanced
  swap
  · refine ⟨none, ?_, fun s' hs' => by cases hs'⟩
    unfold Writers.run
    dsimp only
    rw [if_neg hpc]
    rfl
  obtain ⟨hheld, ⟨hleft, hplace⟩, hout⟩ := h.inside (p := p) (by rw [hpc]; decide)
  rw [hpc] at hplace
  obtain ⟨hr, hoff⟩ : (s.writer p).r = (s.writer p).n1 ∧
      s.f.off = (appended c₀ order).length := by
    rcases hplace with ⟨hbad, -⟩ | ⟨hbad, -⟩ | ⟨-, hplace⟩
    · cases hbad
    · cases hbad
    · exact hplace
  obtain ⟨fs, hrun, hready, hstep⟩ := hheld.unlock
  unfold Writers.run
  dsimp only
  rw [if_pos hpc, hrun]
  have hpos : ¬ (s.writer p).r < 0 := by omega
  refine ⟨some (({ s with fs } : Writers P).set p { s.writer p with
    i := (s.writer p).i + (s.writer p).n1, pc := .outside }), ?_, ?_⟩
  · change (if (s.writer p).r < 0 then _ else _ : Except Halt (Option (Writers P))) = _
    rw [if_neg hpos, if_neg (by rw [hr]; simp)]
    rfl
  · rintro s' ⟨⟩
    refine h.move rfl ⟨rfl, rfl, ?_⟩ rfl (hstep.enoughFor.mpr h.enough)
      (.inl ⟨hready, fun q => ?_, hoff⟩)
    · simp [Writer.progress, hpc]
    · by_cases hq : q = p
      · subst hq
        rw [Function.update_self]
      · exact outside_update hout q hq

/-- One process has written its next piece: what is left to write has become less by as many
bytes. -/
theorem sum_left_update (n progress : P → ℕ) {p : P} {m : ℕ} (hm : progress p + m ≤ n p) :
    (∑ q, (n q - Function.update progress p (progress p + m) q)) + m =
      ∑ q, (n q - progress q) := by
  have hrest : ∑ q ∈ Finset.univ.erase p,
      (n q - Function.update progress p (progress p + m) q) =
        ∑ q ∈ Finset.univ.erase p, (n q - progress q) := by
    apply Finset.sum_congr rfl
    intro q hq
    rw [Function.update_of_ne (Finset.ne_of_mem_erase hq)]
  rw [← Finset.add_sum_erase _ _ (Finset.mem_univ p),
    ← Finset.add_sum_erase _ (fun q => n q - progress q) (Finset.mem_univ p), hrest,
    Function.update_self]
  omega

/-- The first piece of those that are left. -/
theorem pieces_next {w : Writer} (hleft : w.i < w.n) :
    pieces w.src w.n w.n w.i = firstBytes w.piece w.n1 :: pieces w.src w.n w.n (w.i + w.n1) := by
  obtain ⟨hpos, -, -⟩ := Writer.n1_bounds hleft
  rw [pieces_fuel w.src (by omega) (Nat.le_succ_of_le (by omega) : w.n - w.i ≤ w.n + 1), pieces,
    if_pos hleft]
  rfl

/-- `writei` in the loop of `filewrite`. -/
theorem Appended.writei (h : Appended L init c₀ trace s file order) (p : P)
    (hmax : c₀.length + ∑ p, (init.writer p).n ≤ maxFile * bsize) :
    ∃ next, s.run (.writei p) = .ok next ∧ ∀ s', next = some s' →
      ∃ file' order', Appended L init c₀ (.writei p :: trace) s' file' order' := by
  by_cases hpc : (s.writer p).pc = .locked
  swap
  · refine ⟨none, ?_, fun s' hs' => by cases hs'⟩
    unfold Writers.run
    dsimp only
    rw [if_neg hpc]
    rfl
  obtain ⟨hheld, ⟨hleft, hplace⟩, hout⟩ := h.inside (p := p) (by rw [hpc]; decide)
  rw [hpc] at hplace
  have hoff : s.f.off = (appended c₀ order).length := by
    rcases hplace with ⟨-, hplace⟩ | ⟨hbad, -⟩ | ⟨hbad, -⟩
    · exact hplace
    · cases hbad
    · cases hbad
  obtain ⟨hpos, hend, -⟩ := Writer.n1_bounds hleft
  have hprogress : (s.writer p).progress = (s.writer p).i := by simp [Writer.progress, hpc]
  have hlength := h.length
  have hsum : (s.writer p).n1 ≤ ∑ q, ((s.writer q).n - (s.writer q).progress) := by
    refine le_trans ?_ (Finset.single_le_sum (fun _ _ => Nat.zero_le _) (Finset.mem_univ p))
    rw [hprogress]
    omega
  have hstart : c₀.length ≤ (appended c₀ order).length := by
    rw [appended, List.length_append]
    omega
  have hplaces (_ : 0 < (s.writer p).n1) (bn : ℕ) (hlo : s.f.off / bsize ≤ bn)
      (hhi : bn * bsize < s.f.off + (s.writer p).n1) :
      Covers (touched c₀.length (∑ p, (init.writer p).n)) bn := by
    have hdiv : c₀.length / bsize ≤ s.f.off / bsize := Nat.div_le_div_right (by omega)
    exact covers_touched (by omega) (hdiv.trans hlo) (by omega)
  obtain ⟨r, fs, hrun, rfl, ⟨file', hheld', henough', -⟩, hinum', -⟩ := exists_ok
    (hheld.writei_spec ⟨hoff.le, by omega⟩ h.enough hplaces (s.writer p).piece)
  have hbytes : splice (appended c₀ order) s.f.off
      (firstBytes (s.writer p).piece (s.writer p).n1) = appended c₀
        (order ++ [(p, firstBytes (s.writer p).piece (s.writer p).n1)]) := by
    rw [splice, hoff, List.take_length, List.drop_eq_nil_of_le (by omega), List.append_nil,
      appended, appended, List.map_append, List.flatten_append, List.append_assoc]
    simp
  rw [hbytes] at hheld'
  refine ⟨some (({ s with fs } : Writers P).set p { s.writer p with
    r := (s.writer p).n1, pc := .written }), ?_, ?_⟩
  · unfold Writers.run
    dsimp only
    rw [if_pos hpc, hrun]
    rfl
  rintro s' ⟨⟩
  have hnew : Writer.progress { s.writer p with r := (s.writer p).n1, pc := .written } =
      (s.writer p).i + (s.writer p).n1 := by
    simp [Writer.progress, Writer.n1]
  refine ⟨file', order ++ [(p, firstBytes (s.writer p).piece (s.writer p).n1)], ?_⟩
  constructor
  · refine .inr ⟨p, hheld', ?_, outside_update hout⟩
    simp only [Writers.set, Function.update_self]
    refine ⟨hleft, .inr (.inl ⟨rfl, rfl, ?_⟩)⟩
    rw [hoff, appended, appended]
    simp [Writer.n1]
    omega
  · rw [← hinum'] at henough'
    exact henough'
  · rw [List.map_append, h.sequence, writeOrder, writeOrder, List.reverse_cons,
      List.filterMap_append]
    rfl
  · intro q
    simp only [Writers.set]
    by_cases hq : q = p
    · subst hq
      rw [Function.update_self, hnew, ← h.own q, hprogress, pieces_next hleft]
      simp
    · rw [Function.update_of_ne hq, ← h.own q, List.filter_append]
      simp [Ne.symm hq]
  · intro q
    simp only [Writers.set]
    by_cases hq : q = p
    · subst hq
      rw [Function.update_self, hnew]
      exact ⟨(h.calls q).1, (h.calls q).2.1, hend⟩
    · rw [Function.update_of_ne hq]
      exact h.calls q
  · have hupdate := sum_left_update (fun q => (s.writer q).n) (fun q => (s.writer q).progress)
      (p := p) (m := (s.writer p).n1) (by rw [hprogress]; exact hend)
    have hsame (q : P) : (Function.update s.writer p
        { s.writer p with r := (s.writer p).n1, pc := .written } q).n -
          (Function.update s.writer p
            { s.writer p with r := (s.writer p).n1, pc := .written } q).progress =
        (s.writer q).n - Function.update (fun q => (s.writer q).progress) p
          ((s.writer p).progress + (s.writer p).n1) q := by
      by_cases hq : q = p
      · subst hq
        rw [Function.update_self, Function.update_self, hnew, hprogress]
      · rw [Function.update_of_ne hq, Function.update_of_ne hq]
    simp only [Writers.set, hsame]
    rw [← hlength, ← hupdate, appended, appended]
    simp
    omega
  · exact h.ip

/-- Processes that are about to write to a file whose offset is at its end. -/
structure Start (L : Layout) (s : Writers P) (file : ℕ → Dinode) (c₀ : List UInt8) : Prop where
  /-- The file, which nobody has locked. -/
  ready : Ready L s.fs file s.f.ip c₀
  /-- The offset. -/
  off : s.f.off = c₀.length
  /-- Every process is at the beginning of its call. -/
  outside : ∀ p, (s.writer p).pc = .outside ∧ (s.writer p).i = 0
  /-- The file can hold all bytes. -/
  fits : c₀.length + ∑ p, (s.writer p).n ≤ maxFile * bsize
  /-- There are enough free blocks. -/
  enough : EnoughFor L s.fs file (s.fs.icache s.f.ip).inum
    (touched c₀.length (∑ p, (s.writer p).n))

theorem Start.appended (h : Start L init file c₀) : Appended L init c₀ [] init file [] := by
  have hprogress (p : P) : (init.writer p).progress = 0 := by
    simp [Writer.progress, h.outside p]
  have hnil : Fs.appended c₀ ([] : List (P × List UInt8)) = c₀ := by simp [Fs.appended]
  constructor
  · rw [hnil]
    exact .inl ⟨h.ready, fun p => (h.outside p).1, h.off⟩
  · exact h.enough
  · rfl
  · intro p
    rw [hprogress]
    rfl
  · intro p
    rw [hprogress]
    exact ⟨rfl, rfl, Nat.zero_le _⟩
  · rw [hnil]
    simp only [hprogress, Nat.sub_zero]
  · rfl

/-- Every step of every process keeps the pieces in order, and none of them panics. -/
theorem Appended.run (h : Appended L init c₀ trace s file order)
    (hmax : c₀.length + ∑ p, (init.writer p).n ≤ maxFile * bsize) (a : WriterAct P) :
    ∃ next, s.run a = .ok next ∧ ∀ s', next = some s' →
      ∃ file' order', Appended L init c₀ (a :: trace) s' file' order' := by
  cases a with
  | ilock p =>
    obtain ⟨next, hrun, hnext⟩ := h.ilock p
    exact ⟨next, hrun, fun s' hs' => ⟨file, order, hnext s' hs'⟩⟩
  | writei p => exact h.writei p hmax
  | advance p =>
    obtain ⟨next, hrun, hnext⟩ := h.advance p hmax
    exact ⟨next, hrun, fun s' hs' => ⟨file, order, hnext s' hs'⟩⟩
  | iunlock p =>
    obtain ⟨next, hrun, hnext⟩ := h.iunlock p
    exact ⟨next, hrun, fun s' hs' => ⟨file, order, hnext s' hs'⟩⟩

theorem Start.run (h : Start L init file c₀) (hrun : Run writerStep free init trace s) :
    ∃ file' order, Appended L init c₀ trace s file' order := by
  refine hrun.invariant (I := fun trace s => ∃ file' order,
    Appended L init c₀ trace s file' order) ⟨file, [], h.appended⟩ ?_
  intro trace s a s' hinv _ hstep
  obtain ⟨file', order, happended⟩ := hinv
  obtain ⟨next, hnext, hkeep⟩ := happended.run h.fits a
  rw [writerStep, hnext] at hstep
  exact hkeep s' hstep

end Xv6.Fs
