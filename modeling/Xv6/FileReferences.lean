import Xv6.OpenFiles
import Xv6.Lib.References

/-!
# The references to open files balance

A file has as many references as there are descriptors that refer to it, with what the calls under
way have still to add or to give back. So no file is closed twice or while somebody has it, an end
of a pipe is open as long as a file is that end, and an inode is put as often as it has been found.
-/

namespace Xv6.OpenFiles

open References
open Fs (FileType InodePtr)

/-! ## Shares -/

/-- The references to files that a task stands for: those it is to give back, less those it is to
take. -/
def Task.files : Task → FilePtr → ℤ
  | .filedup f => -Pi.single f 1
  | .fileclose f => Pi.single f 1
  | .pipealloc rf => Pi.single rf 1
  | .pipePage rf wf => Pi.single rf 1 + Pi.single wf 1
  | .exitSlot _ f => -Pi.single f 1
  | _ => 0

/-- The ends of pipes that a task is to close. -/
def Task.ends : Task → PipePtr × Bool → ℤ
  | .pipeclose p writable => Pi.single (p, writable) 1
  | _ => 0

/-- The references to inodes that a task stands for. -/
def Task.inodes : Task → InodePtr → ℤ
  | .iput ip => Pi.single ip 1
  | .openFile ip _ => Pi.single ip 1
  | .openFill _ ip _ => Pi.single ip 1
  | .exitCwd old => -Pi.single old 1
  | .setCwd ip old => Pi.single ip 1 - Pi.single old 1
  | _ => 0

/-- What several tasks stand for. -/
def total {O : Type*} (share : Task → O → ℤ) (tasks : List Task) (o : O) : ℤ :=
  (tasks.map fun t => share t o).sum

/-- How many descriptors refer to a file. -/
def descriptors (ofile : Fd → Option FilePtr) (f : FilePtr) : ℤ :=
  ∑ fd, if ofile fd = some f then 1 else 0

namespace Process

/-- The share of a process in the files. -/
def files (q : Process) (f : FilePtr) : ℤ := descriptors q.ofile f + total Task.files q.tasks f

/-- The share of a process in the ends of pipes. -/
def ends (q : Process) (e : PipePtr × Bool) : ℤ := total Task.ends q.tasks e

/-- The share of a process in the inodes. -/
def inodes (q : Process) (i : InodePtr) : ℤ :=
  (if q.cwd = some i then 1 else 0) + total Task.inodes q.tasks i

end Process

/-- The end of a pipe that a file is. -/
def File.ends (v : File) : PipePtr × Bool → ℤ :=
  if v.type = .pipe then Pi.single (v.pipe, v.writable) 1 else 0

/-- The inode that a file refers to. -/
def File.inodes (v : File) : InodePtr → ℤ :=
  if v.type = .inode then Pi.single v.ip 1 else 0

/-- Whether an end of a pipe is open. -/
def endOpen (pipe : Option PipeEnds) (writable : Bool) : ℤ :=
  match pipe with
  | none => 0
  | some ends => if (if writable then ends.writeopen else ends.readopen) then 1 else 0

section Total

variable {O : Type*} {share : Task → O → ℤ} {o : O}

@[simp] theorem total_nil : total share [] o = 0 := rfl

@[simp] theorem total_cons (t : Task) (ts : List Task) :
    total share (t :: ts) o = share t o + total share ts o := by
  unfold total
  rw [List.map_cons, List.sum_cons]

@[simp] theorem total_append (ts ts' : List Task) :
    total share (ts ++ ts') o = total share ts o + total share ts' o := by
  unfold total
  rw [List.map_append, List.sum_append]

/-- Shares that are not negative sum up to one that is not. -/
theorem total_nonneg {ts : List Task} (h : ∀ t ∈ ts, 0 ≤ share t o) : 0 ≤ total share ts o :=
  List.sum_nonneg fun x hx => by
    obtain ⟨t, ht, rfl⟩ := List.mem_map.mp hx
    exact h t ht

/-- The share of one task is at most that of all tasks. -/
theorem le_total {ts : List Task} (h : ∀ t ∈ ts, 0 ≤ share t o) {t : Task} (ht : t ∈ ts) :
    share t o ≤ total share ts o :=
  List.single_le_sum (fun x hx => by
    obtain ⟨t', ht', rfl⟩ := List.mem_map.mp hx
    exact h t' ht') _ (List.mem_map_of_mem ht)

end Total

section Descriptors

variable {ofile : Fd → Option FilePtr} {f : FilePtr}

/-- A number of descriptors. -/
theorem descriptors_nonneg : 0 ≤ descriptors ofile f :=
  Finset.sum_nonneg fun fd _ => by split_ifs <;> simp

/-- Without descriptors there is none of a file. -/
theorem descriptors_none (h : ∀ fd, ofile fd = none) : descriptors ofile f = 0 :=
  Finset.sum_eq_zero fun fd _ => by rw [h fd, if_neg (by simp)]

/-- A descriptor is counted. -/
theorem one_le_descriptors {fd : Fd} (h : ofile fd = some f) : 1 ≤ descriptors ofile f := by
  have hle := Finset.single_le_sum (f := fun fd => if ofile fd = some f then (1 : ℤ) else 0)
    (fun fd _ => by split_ifs <;> simp) (Finset.mem_univ fd)
  rw [if_pos h] at hle
  exact hle

/-- Two descriptors are counted. -/
theorem two_le_descriptors {a b : Fd} (hne : a ≠ b) (ha : ofile a = some f)
    (hb : ofile b = some f) : 2 ≤ descriptors ofile f := by
  have hle := Finset.sum_le_sum_of_subset_of_nonneg (Finset.subset_univ {a, b})
    fun fd _ _ => show (0 : ℤ) ≤ if ofile fd = some f then 1 else 0 by split_ifs <;> simp
  rw [Finset.sum_pair hne, if_pos ha, if_pos hb] at hle
  exact hle

/-- Setting a descriptor counts the new file and no longer the old one. -/
theorem descriptors_update (fd : Fd) (v : Option FilePtr) :
    descriptors (Function.update ofile fd v) f =
      descriptors ofile f + ((if v = some f then 1 else 0) - if ofile fd = some f then 1 else 0) :=
  sum_update (fun v : Option FilePtr => if v = some f then 1 else 0) ofile fd v

end Descriptors

/-! ## Gaps -/

namespace State

variable (s : State)

/-- By how much the references to a file exceed the shares in it. -/
def fileGap : FilePtr → ℤ := gap (fun f => (s.file f).ref) fun p => (s.proc p).files

/-- The same for the ends of pipes. -/
def endGap : PipePtr × Bool → ℤ :=
  gap (fun e => endOpen (s.pipes e.1) e.2)
    (Sum.elim (fun p => (s.proc p).ends) fun f => (s.file f).ends)

/-- The same for the inodes. -/
def inodeGap : InodePtr → ℤ :=
  gap s.iref (Sum.elim (fun p => (s.proc p).inodes) fun f => (s.file f).inodes)

section Updates

variable {s} (f g : FilePtr) (v : File) (p : Slot) (q : Process) (e : PipePtr × Bool)
  (i ip : InodePtr)

@[simp] theorem fileGap_setFile :
    (s.setFile f v).fileGap g = s.fileGap g + if g = f then v.ref - (s.file f).ref else 0 := by
  unfold fileGap
  rw [gap_count (fun g => (s.file g).ref)]
  congr 1
  dsimp only [setFile]
  by_cases h : g = f
  · rw [h, Function.update_self, if_pos rfl]
  · rw [Function.update_of_ne h, if_neg h, sub_self]

@[simp] theorem fileGap_setPipe (pipe : PipePtr) (ends : Option PipeEnds) :
    (s.setPipe pipe ends).fileGap g = s.fileGap g := rfl

@[simp] theorem fileGap_setIref (n : ℤ) : (s.setIref ip n).fileGap g = s.fileGap g := rfl

@[simp] theorem fileGap_setProc :
    (s.setProc p q).fileGap g = s.fileGap g - (q.files g - (s.proc p).files g) :=
  gap_update _ Process.files s.proc p q g

@[simp] theorem endGap_setFile :
    (s.setFile f v).endGap e = s.endGap e - (v.ends e - (s.file f).ends e) := by
  unfold endGap
  rw [gap_sum, gap_sum]
  have hsum := sum_update (fun v : File => v.ends e) s.file f v
  have hnew : ∑ g, ((s.setFile f v).file g).ends e =
      ∑ g, (s.file g).ends e + (v.ends e - (s.file f).ends e) := hsum
  rw [hnew, ← sub_sub]
  rfl

@[simp] theorem endGap_setPipe (pipe : PipePtr) (ends : Option PipeEnds) :
    (s.setPipe pipe ends).endGap e =
      s.endGap e + if e.1 = pipe then endOpen ends e.2 - endOpen (s.pipes pipe) e.2 else 0 := by
  unfold endGap
  rw [gap_count (fun e => endOpen (s.pipes e.1) e.2)]
  congr 1
  dsimp only [setPipe]
  by_cases h : e.1 = pipe
  · rw [h, Function.update_self, if_pos rfl]
  · rw [Function.update_of_ne h, if_neg h, sub_self]

@[simp] theorem endGap_setIref (n : ℤ) : (s.setIref ip n).endGap e = s.endGap e := rfl

@[simp] theorem endGap_setProc :
    (s.setProc p q).endGap e = s.endGap e - (q.ends e - (s.proc p).ends e) := by
  unfold endGap
  rw [gap_sum, gap_sum, sub_right_comm]
  congr 1
  exact gap_update _ Process.ends s.proc p q e

@[simp] theorem inodeGap_setFile :
    (s.setFile f v).inodeGap i = s.inodeGap i - (v.inodes i - (s.file f).inodes i) := by
  unfold inodeGap
  rw [gap_sum, gap_sum]
  have hsum := sum_update (fun v : File => v.inodes i) s.file f v
  have hnew : ∑ g, ((s.setFile f v).file g).inodes i =
      ∑ g, (s.file g).inodes i + (v.inodes i - (s.file f).inodes i) := hsum
  rw [hnew, ← sub_sub]
  rfl

@[simp] theorem inodeGap_setPipe (pipe : PipePtr) (ends : Option PipeEnds) :
    (s.setPipe pipe ends).inodeGap i = s.inodeGap i := rfl

@[simp] theorem inodeGap_setIref (n : ℤ) :
    (s.setIref ip n).inodeGap i = s.inodeGap i + if i = ip then n - s.iref ip else 0 := by
  unfold inodeGap
  rw [gap_count s.iref]
  congr 1
  dsimp only [setIref]
  by_cases h : i = ip
  · rw [h, Function.update_self, if_pos rfl]
  · rw [Function.update_of_ne h, if_neg h, sub_self]

@[simp] theorem inodeGap_setProc :
    (s.setProc p q).inodeGap i = s.inodeGap i - (q.inodes i - (s.proc p).inodes i) := by
  unfold inodeGap
  rw [gap_sum, gap_sum, sub_right_comm]
  congr 1
  exact gap_update _ Process.inodes s.proc p q i

variable (fd : Fd) (o : Option FilePtr) (tasks : List Task)

@[simp] theorem fileGap_setFd :
    (s.setFd p fd o).fileGap g = s.fileGap g -
      ((if o = some g then 1 else 0) - if (s.proc p).ofile fd = some g then 1 else 0) := by
  unfold setFd
  rw [fileGap_setProc]
  unfold Process.files
  rw [descriptors_update]
  ring

@[simp] theorem endGap_setFd : (s.setFd p fd o).endGap e = s.endGap e := by
  unfold setFd
  rw [endGap_setProc]
  exact (congrArg _ (sub_self _)).trans (sub_zero _)

@[simp] theorem inodeGap_setFd : (s.setFd p fd o).inodeGap i = s.inodeGap i := by
  unfold setFd
  rw [inodeGap_setProc]
  exact (congrArg _ (sub_self _)).trans (sub_zero _)

@[simp] theorem fileGap_setTasks :
    (s.setTasks p tasks).fileGap g =
      s.fileGap g - (total Task.files tasks g - total Task.files (s.proc p).tasks g) := by
  unfold setTasks
  rw [fileGap_setProc]
  unfold Process.files
  ring

@[simp] theorem endGap_setTasks :
    (s.setTasks p tasks).endGap e =
      s.endGap e - (total Task.ends tasks e - total Task.ends (s.proc p).tasks e) := by
  unfold setTasks
  rw [endGap_setProc]
  rfl

@[simp] theorem inodeGap_setTasks :
    (s.setTasks p tasks).inodeGap i =
      s.inodeGap i - (total Task.inodes tasks i - total Task.inodes (s.proc p).tasks i) := by
  unfold setTasks
  rw [inodeGap_setProc]
  unfold Process.inodes
  ring

end Updates

end State

/-! ## The invariant -/

/-- A task that gives something back. -/
def Task.IsRelease : Task → Prop
  | .fileclose _ | .pipeclose _ _ | .iput _ => True
  | _ => False

/-- A task that has a file without a type: it is to give the file one, or to close it. -/
def Task.Fills (f : FilePtr) : Task → Prop
  | .pipealloc rf => rf = f
  | .pipePage rf wf => rf = f ∨ wf = f
  | .openFill g _ _ => g = f
  | .fileclose g => g = f
  | _ => False

/-- What holds of a process before a task that is not a release. -/
def State.Ready (s : State) (p : Slot) : Task → Prop
  | .filedup f => ∃ a b, a ≠ b ∧ (s.proc p).ofile a = some f ∧ (s.proc p).ofile b = some f
  | .pipealloc rf => (s.file rf).type = .none
  | .pipePage rf wf => rf ≠ wf ∧ (s.file rf).type = .none ∧ (s.file wf).type = .none
  | .openFile _ _ => True
  | .openFill f _ _ => (∃ fd, (s.proc p).ofile fd = some f) ∧ (s.file f).type = .none
  | .forkFile np i => np ≠ p ∧ (s.proc np).state = .embryo ∧ (s.proc np).cwd = none ∧
      ∀ fd : Fd, i ≤ fd → (s.proc np).ofile fd = none
  | .exitFile i => ∀ fd : Fd, fd < i → (s.proc p).ofile fd = none
  | .exitSlot fd f => (s.proc p).ofile fd = some f ∧
      ∀ fd' : Fd, fd' < fd → (s.proc p).ofile fd' = none
  | .exitCwd old => (s.proc p).cwd = some old ∧ ∀ fd, (s.proc p).ofile fd = none
  | .setCwd _ old => (s.proc p).cwd = some old
  | .fileclose _ | .pipeclose _ _ | .iput _ => False

/-- The tasks of a process are releases, and after them at most one other task. -/
def State.Ordered (s : State) (p : Slot) (tasks : List Task) : Prop :=
  ∃ releases last, tasks = releases ++ Option.toList last ∧
    (∀ t ∈ releases, t.IsRelease) ∧ ∀ t ∈ last, s.Ready p t

/-- What holds of a process. -/
structure Placed (s : State) (p : Slot) : Prop where
  /-- Only a process that could run has something to do. -/
  idle : ¬ (s.proc p).Live → (s.proc p).tasks = []
  /-- A slot without a process refers to nothing. -/
  bare : (s.proc p).state = .unused ∨ (s.proc p).state = .zombie →
    (∀ fd, (s.proc p).ofile fd = none) ∧ (s.proc p).cwd = none
  /-- A process that could run has a current directory. -/
  home : (s.proc p).Live → (s.proc p).cwd.isSome
  /-- Its tasks. -/
  ordered : s.Ordered p (s.proc p).tasks

/-- What holds between the steps. -/
structure Inv (s : State) : Prop where
  /-- The references to files. -/
  files : ∀ f, s.fileGap f = 0
  /-- The ends of pipes. -/
  ends : ∀ e, s.endGap e = 0
  /-- The references to inodes. -/
  inodes : ∀ i, s.inodeGap i = 0
  /-- A free entry has no type. -/
  untyped : ∀ f, (s.file f).ref = 0 → (s.file f).type = .none
  /-- An entry in use that has no type is about to be given one, or to be closed. -/
  filled : ∀ f, (s.file f).type = .none →
    (s.file f).ref = 0 ∨ (s.file f).ref = 1 ∧ ∃ p, ∃ t ∈ (s.proc p).tasks, t.Fills f
  /-- A pipe whose ends are both closed has been freed. -/
  kept : ∀ pipe, s.pipes pipe ≠ some ⟨false, false⟩
  /-- The processes. -/
  placed : ∀ p, Placed s p
  /-- A child has one parent. -/
  apart : ∀ p q np i j, .forkFile np i ∈ (s.proc p).tasks → .forkFile np j ∈ (s.proc q).tasks →
    p = q

section Shares

variable {s : State} {p q : Slot} {t : Task} {tasks rest new : List Task} {f : FilePtr}
  {i : InodePtr}

/-- A task that releases something owns no negative number of files. -/
theorem Task.IsRelease.files_nonneg (h : t.IsRelease) : 0 ≤ t.files f := by
  cases t <;> simp only [Task.IsRelease] at h <;> simp only [Task.files, Pi.single_apply,
    Pi.zero_apply, le_refl]
  split_ifs <;> simp

/-- A task that releases something owns no negative number of inodes. -/
theorem Task.IsRelease.inodes_nonneg (h : t.IsRelease) : 0 ≤ t.inodes i := by
  cases t <;> simp only [Task.IsRelease] at h <;> simp only [Task.inodes, Pi.single_apply,
    Pi.zero_apply, le_refl]
  split_ifs <;> simp

/-- No task owns a negative number of pipe ends. -/
theorem Task.ends_nonneg (e : PipePtr × Bool) : 0 ≤ t.ends e := by
  cases t <;> simp only [Task.ends, Pi.single_apply, Pi.zero_apply, le_refl]
  split_ifs <;> simp

/-- With the descriptors, a process that is ready for a task owns no negative number of files. -/
theorem State.Ready.files_nonneg (h : s.Ready p t) :
    0 ≤ descriptors (s.proc p).ofile f + t.files f := by
  have hnonneg : 0 ≤ descriptors (s.proc p).ofile f := descriptors_nonneg
  cases t with
  | filedup g =>
    obtain ⟨a, b, hne, ha, hb⟩ := h
    simp only [Task.files, Pi.neg_apply, Pi.single_apply]
    split_ifs with hfg
    · subst hfg
      have := one_le_descriptors ha
      omega
    · omega
  | exitSlot fd g =>
    obtain ⟨hfd, -⟩ := h
    simp only [Task.files, Pi.neg_apply, Pi.single_apply]
    split_ifs with hfg
    · subst hfg
      have := one_le_descriptors hfd
      omega
    · omega
  | pipealloc rf =>
    simp only [Task.files, Pi.single_apply]
    split_ifs <;> omega
  | pipePage rf wf =>
    simp only [Task.files, Pi.add_apply, Pi.single_apply]
    split_ifs <;> omega
  | fileclose => exact h.elim
  | pipeclose | iput | openFile | openFill | forkFile | exitFile | exitCwd | setCwd =>
    exact (add_zero (descriptors (s.proc p).ofile f)).symm ▸ hnonneg

/-- With its directory, a process that is ready for a task owns no negative number of inodes. -/
theorem State.Ready.inodes_nonneg (h : s.Ready p t) :
    0 ≤ (if (s.proc p).cwd = some i then 1 else 0) + t.inodes i := by
  cases t with
  | exitCwd old =>
    rw [h.1]
    simp only [Task.inodes, Pi.neg_apply, Pi.single_apply, Option.some.injEq, eq_comm]
    split_ifs <;> simp
  | setCwd ip old =>
    have hcwd : (s.proc p).cwd = some old := h
    rw [hcwd]
    simp only [Task.inodes, Pi.sub_apply, Pi.single_apply, Option.some.injEq, eq_comm]
    split_ifs <;> simp
  | iput => exact h.elim
  | openFile | openFill =>
    simp only [Task.inodes, Pi.single_apply]
    split_ifs <;> simp
  | filedup | fileclose | pipeclose | pipealloc | pipePage | forkFile | exitFile | exitSlot =>
    simp only [Task.inodes, Pi.zero_apply, add_zero]
    split_ifs <;> simp

namespace State.Ordered

/-- Nothing is left to do. -/
theorem nil : s.Ordered p [] := ⟨[], none, rfl, by simp, by simp⟩

/-- One task is left, and the process is ready for it. -/
theorem single (h : s.Ready p t) : s.Ordered p [t] := ⟨[], some t, rfl, by simp, by simpa using h⟩

/-- Releases can come before. -/
theorem append (h : s.Ordered p rest) (hnew : ∀ t ∈ new, t.IsRelease) :
    s.Ordered p (new ++ rest) := by
  obtain ⟨releases, last, rfl, hreleases, hlast⟩ := h
  refine ⟨new ++ releases, last, (List.append_assoc ..).symm, fun t ht => ?_, hlast⟩
  rcases List.mem_append.mp ht with ht | ht
  · exact hnew t ht
  · exact hreleases t ht

/-- A task that releases something may be put in front. -/
theorem cons (h : s.Ordered p rest) (ht : t.IsRelease) : s.Ordered p (t :: rest) :=
  h.append fun t' ht' => by rwa [List.mem_singleton.mp ht']

/-- The first task is a release, or the only task. -/
theorem head (h : s.Ordered p (t :: rest)) :
    t.IsRelease ∧ s.Ordered p rest ∨ rest = [] ∧ s.Ready p t := by
  obtain ⟨releases, last, heq, hreleases, hlast⟩ := h
  cases releases with
  | nil =>
    cases last with
    | none => cases heq
    | some t' =>
      obtain ⟨rfl, rfl⟩ := List.cons.inj heq
      exact .inr ⟨rfl, hlast t rfl⟩
  | cons t' releases =>
    obtain ⟨rfl, rfl⟩ := List.cons.inj heq
    exact .inl ⟨hreleases t (by simp), releases, last, rfl,
      fun t' ht' => hreleases t' (by simp [ht']), hlast⟩

/-- A task that is not a release is ready. -/
theorem ready (h : s.Ordered p tasks) (ht : t ∈ tasks) : t.IsRelease ∨ s.Ready p t := by
  obtain ⟨releases, last, rfl, hreleases, hlast⟩ := h
  rcases List.mem_append.mp ht with ht | ht
  · exact .inl (hreleases t ht)
  · exact .inr (hlast t (by simpa using ht))

/-- The tasks do not depend on the rest of the system. -/
theorem congr {s' : State} (h : s.Ordered p tasks)
    (hready : ∀ t ∈ tasks, s.Ready p t → s'.Ready p t) : s'.Ordered p tasks := by
  obtain ⟨releases, last, rfl, hreleases, hlast⟩ := h
  exact ⟨releases, last, rfl, hreleases, fun t ht =>
    hready t (List.mem_append_right _ (Option.mem_toList.mpr ht)) (hlast t ht)⟩

/-- What a process has of a file is not negative. -/
theorem files_nonneg (h : s.Ordered p tasks) :
    0 ≤ descriptors (s.proc p).ofile f + total Task.files tasks f := by
  obtain ⟨releases, last, rfl, hreleases, hlast⟩ := h
  have hnonneg := total_nonneg (o := f) fun t ht => (hreleases t ht).files_nonneg
  rw [total_append]
  cases last with
  | none =>
    have : 0 ≤ descriptors (s.proc p).ofile f := descriptors_nonneg
    simp only [Option.toList_none, total_nil]
    omega
  | some t =>
    have := (hlast t rfl).files_nonneg (f := f)
    simp only [Option.toList_some, total_cons, total_nil]
    omega

/-- What a process has of an inode is not negative. -/
theorem inodes_nonneg (h : s.Ordered p tasks) :
    0 ≤ (if (s.proc p).cwd = some i then 1 else 0) + total Task.inodes tasks i := by
  obtain ⟨releases, last, rfl, hreleases, hlast⟩ := h
  have hnonneg := total_nonneg (o := i) fun t ht => (hreleases t ht).inodes_nonneg
  rw [total_append]
  cases last with
  | none =>
    simp only [Option.toList_none, total_nil]
    split_ifs <;> omega
  | some t =>
    have := (hlast t rfl).inodes_nonneg (i := i)
    simp only [Option.toList_some, total_cons, total_nil]
    omega

/-- Who is to give a file a type, or to close it, has a share in it. -/
theorem one_le_files (h : s.Ordered p tasks) (ht : t ∈ tasks) (hfills : t.Fills f) :
    1 ≤ descriptors (s.proc p).ofile f + total Task.files tasks f := by
  obtain ⟨releases, last, rfl, hreleases, hlast⟩ := h
  have hnonneg (t : Task) (ht : t ∈ releases) := (hreleases t ht).files_nonneg (f := f)
  have htotal := total_nonneg hnonneg
  have hslots : 0 ≤ descriptors (s.proc p).ofile f := descriptors_nonneg
  rw [total_append]
  rcases List.mem_append.mp ht with ht | ht
  · have hle := le_total hnonneg ht
    have hlast' := State.Ordered.files_nonneg ⟨[], last, rfl, by simp, hlast⟩ (f := f)
    rw [List.nil_append] at hlast'
    cases t with
    | fileclose g =>
      obtain rfl : g = f := hfills
      simp only [Task.files, Pi.single_eq_same] at hle
      omega
    | pipeclose | iput => exact hfills.elim
    | _ => exact (hreleases _ ht).elim
  · have hready := hlast t (by simpa using ht)
    obtain rfl : last = some t := by simpa using ht
    simp only [Option.toList_some, total_cons, total_nil, add_zero]
    cases t with
    | pipealloc rf =>
      obtain rfl : rf = f := hfills
      simp only [Task.files, Pi.single_eq_same]
      omega
    | pipePage rf wf =>
      simp only [Task.files, Pi.add_apply, Pi.single_apply]
      rcases hfills with rfl | rfl
      · rw [if_pos rfl]
        split_ifs <;> omega
      · rw [if_pos rfl]
        split_ifs <;> omega
    | openFill g ip omode =>
      obtain rfl : g = f := hfills
      obtain ⟨⟨fd, hfd⟩, -⟩ := hready
      have := one_le_descriptors hfd
      simp only [Task.files, Pi.zero_apply]
      omega
    | fileclose => exact hready.elim
    | _ => exact hfills.elim

end State.Ordered

/-! ## What a share means -/

namespace Inv

variable (h : Inv s)

include h

/-- What a process has of a file is not negative. -/
theorem files_nonneg (p : Slot) (f : FilePtr) : 0 ≤ (s.proc p).files f :=
  (h.placed p).ordered.files_nonneg

/-- A process has no more of a file than its references. -/
theorem files_le (p : Slot) (f : FilePtr) : (s.proc p).files f ≤ (s.file f).ref :=
  References.Balanced.le h.files h.files_nonneg p f

/-- What two processes have of a file is no more than its references. -/
theorem files_add_le (hne : p ≠ q) (f : FilePtr) :
    (s.proc p).files f + (s.proc q).files f ≤ (s.file f).ref :=
  References.Balanced.add_le h.files h.files_nonneg hne f

/-- A file without a type is nobody else's. -/
theorem files_eq_zero (hnone : (s.file f).type = .none) (hpos : 0 < (s.proc p).files f)
    (hne : q ≠ p) : (s.proc q).files f = 0 := by
  have hle := h.files_add_le hne f
  have hnonneg := h.files_nonneg q f
  rcases h.filled f hnone with href | ⟨href, -⟩ <;> omega

/-- Who is to give a file a type, or to close it, has a share in it. -/
theorem files_pos (ht : t ∈ (s.proc p).tasks) (hfills : t.Fills f) : 0 < (s.proc p).files f :=
  (h.placed p).ordered.one_le_files ht hfills

/-- The file of a share has a type, unless the process itself is to give it one. -/
theorem type_ne_none (hpos : 0 < (s.proc p).files f) (hno : ∀ t ∈ (s.proc p).tasks, ¬ t.Fills f) :
    (s.file f).type ≠ .none := by
  intro hnone
  rcases h.filled f hnone with href | ⟨-, q, t, ht, hfills⟩
  · have := h.files_le p f
    omega
  · by_cases hqp : q = p
    · subst hqp
      exact hno t ht hfills
    · have := h.files_eq_zero hnone (h.files_pos ht hfills) (Ne.symm hqp)
      omega

end Inv

/-! ## One step -/

/-- What a step of a process does, apart from the counts. -/
structure Moves (s s' : State) (p : Slot) : Prop where
  /-- A file that changes is one that the process has, or a free one. -/
  file : ∀ f, s'.file f ≠ s.file f → (0 < (s.proc p).files f ∨ (s.file f).ref = 0) ∧
    ((s'.file f).ref = 0 → (s'.file f).type = .none) ∧
    ((s'.file f).type = .none →
      (s'.file f).ref = 0 ∨ (s'.file f).ref = 1 ∧ ∃ t ∈ (s'.proc p).tasks, t.Fills f)
  /-- A file that does not change is still to be given a type. -/
  filler : ∀ f, s'.file f = s.file f → (s.file f).type = .none →
    ∀ t ∈ (s.proc p).tasks, t.Fills f → ∃ t ∈ (s'.proc p).tasks, t.Fills f
  /-- Another process that changes is nobody else's child, and has nothing to do. -/
  other : ∀ q ≠ p, s'.proc q ≠ s.proc q → Placed s' q ∧ (s.proc q).tasks = [] ∧
    (s'.proc q).tasks = [] ∧ ∀ r ≠ p, ∀ i, .forkFile q i ∉ (s.proc r).tasks
  /-- A child of the process is nobody else's. -/
  child : ∀ np i, .forkFile np i ∈ (s'.proc p).tasks →
    ∀ r ≠ p, ∀ j, .forkFile np j ∉ (s.proc r).tasks
  /-- A pipe whose ends are both closed is freed. -/
  pipes : ∀ pipe, s'.pipes pipe = s.pipes pipe ∨ s'.pipes pipe ≠ some ⟨false, false⟩
  /-- The process. -/
  placed : Placed s' p

section Next

variable {s' : State} (h : Inv s) (hlive : (s.proc p).Live) (hm : Moves s s' p)

include h hm

/-- Nobody touches a file that somebody else is to give a type. -/
theorem Moves.file_eq (hnone : (s.file f).type = .none) (hpos : 0 < (s.proc q).files f)
    (hne : q ≠ p) : s'.file f = s.file f := by
  by_contra hchanged
  have hzero := h.files_eq_zero hnone hpos (Ne.symm hne)
  have hle := h.files_le q f
  rcases (hm.file f hchanged).1 with hshare | href <;> omega

include hlive

/-- The tasks of another process stay ready. -/
theorem Moves.ready (hne : q ≠ p) (hproc : s'.proc q = s.proc q) (ht : t ∈ (s.proc q).tasks)
    (hready : s.Ready q t) : s'.Ready q t := by
  have hsame {f : FilePtr} (hnone : (s.file f).type = .none) (hfills : t.Fills f) :
      (s'.file f).type = .none := by
    rw [hm.file_eq h hnone (h.files_pos ht hfills) hne]
    exact hnone
  cases t with
  | filedup f =>
    obtain ⟨a, b, hab, ha, hb⟩ := hready
    exact ⟨a, b, hab, by rwa [hproc], by rwa [hproc]⟩
  | pipealloc rf => exact hsame hready rfl
  | pipePage rf wf =>
    exact ⟨hready.1, hsame hready.2.1 (.inl rfl), hsame hready.2.2 (.inr rfl)⟩
  | openFile => trivial
  | openFill f ip omode =>
    obtain ⟨⟨fd, hfd⟩, hnone⟩ := hready
    exact ⟨⟨fd, by rwa [hproc]⟩, hsame hnone rfl⟩
  | forkFile np i =>
    obtain ⟨hnp, hstate, hrest⟩ := hready
    have hnpp : np ≠ p := by
      rintro rfl
      simp [Process.Live, hstate] at hlive
    have hnp' : s'.proc np = s.proc np := by
      by_contra hchanged
      exact (hm.other np hnpp hchanged).2.2.2 q hne i ht
    exact ⟨hnp, by rwa [hnp'], by rwa [hnp']⟩
  | exitFile i => exact fun fd hfd => by rw [hproc]; exact hready fd hfd
  | exitSlot fd f => exact ⟨by rw [hproc]; exact hready.1, by rw [hproc]; exact hready.2⟩
  | exitCwd old => exact ⟨by rw [hproc]; exact hready.1, by rw [hproc]; exact hready.2⟩
  | setCwd ip old =>
    change (s'.proc q).cwd = some old
    rw [hproc]
    exact hready
  | fileclose | pipeclose | iput => exact hready.elim

/-- A step that keeps the counts right keeps the invariant. -/
theorem Inv.next (hfiles : ∀ f, s'.fileGap f = 0) (hends : ∀ e, s'.endGap e = 0)
    (hinodes : ∀ i, s'.inodeGap i = 0) : Inv s' where
  files := hfiles
  ends := hends
  inodes := hinodes
  untyped f := by
    by_cases hf : s'.file f = s.file f
    · rw [hf]
      exact h.untyped f
    · exact (hm.file f hf).2.1
  filled f := by
    by_cases hf : s'.file f = s.file f
    · intro hnone
      rw [hf] at hnone ⊢
      refine (h.filled f hnone).imp_right (And.imp_right ?_)
      rintro ⟨q, t, ht, hfills⟩
      by_cases hqp : q = p
      · subst hqp
        exact ⟨q, hm.filler f hf hnone t ht hfills⟩
      · have hq : s'.proc q = s.proc q := by
          by_contra hchanged
          rw [(hm.other q hqp hchanged).2.1] at ht
          cases ht
        exact ⟨q, t, by rwa [hq], hfills⟩
    · exact fun hnone => ((hm.file f hf).2.2 hnone).imp_right (And.imp_right fun ht => ⟨p, ht⟩)
  kept pipe := by
    rcases hm.pipes pipe with heq | hne
    · rw [heq]
      exact h.kept pipe
    · exact hne
  placed q := by
    by_cases hqp : q = p
    · rw [hqp]
      exact hm.placed
    · by_cases hq : s'.proc q = s.proc q
      · obtain ⟨hidle, hbare, hhome, hordered⟩ := h.placed q
        refine ⟨by rwa [hq], by rwa [hq], by rwa [hq], ?_⟩
        rw [hq]
        exact hordered.congr fun t ht => hm.ready h hlive hqp hq ht
      · exact (hm.other q hqp hq).1
  apart a b np i j ha hb := by
    have hold {q : Slot} {k : ℕ} (hqp : q ≠ p) (hq : .forkFile np k ∈ (s'.proc q).tasks) :
        .forkFile np k ∈ (s.proc q).tasks := by
      by_cases hsame : s'.proc q = s.proc q
      · rwa [hsame] at hq
      · rw [(hm.other q hqp hsame).2.2.1] at hq
        cases hq
    by_cases hap : a = p <;> by_cases hbp : b = p
    · rw [hap, hbp]
    · subst hap
      exact (hm.child np i ha b hbp j (hold hbp hb)).elim
    · subst hbp
      exact (hm.child np j hb a hap i (hold hap ha)).elim
    · exact h.apart a b np i j (hold hap ha) (hold hbp hb)

end Next

/-! ## The tasks -/

/-- A live process is in its place. -/
theorem Placed.of_live {s' : State} (hlive : (s'.proc p).Live) (hhome : (s'.proc p).cwd.isSome)
    (hordered : s'.Ordered p (s'.proc p).tasks) : Placed s' p where
  idle := fun hno => (hno hlive).elim
  bare hstate := by
    rcases hlive with h | h | h <;> rw [h] at hstate <;> simp at hstate
  home := fun _ => hhome
  ordered := hordered

/-- A process that has something to do is live. -/
theorem Inv.live (h : Inv s) (ht : t ∈ (s.proc p).tasks) : (s.proc p).Live := by
  by_contra hno
  rw [(h.placed p).idle hno] at ht
  cases ht

/-- A child that the process has already is nobody else's. -/
theorem Inv.child (h : Inv s) {np : Slot} {j : ℕ} (ht : .forkFile np j ∈ (s.proc p).tasks) :
    ∀ r ≠ p, ∀ i, .forkFile np i ∉ (s.proc r).tasks :=
  fun r hr i hi => hr (h.apart p r np j i ht hi).symm

/-- A task stays ready as long as no file gets a type. -/
theorem State.Ready.congr {s' : State} (hready : s.Ready p t)
    (hofile : ∀ q, (s'.proc q).ofile = (s.proc q).ofile)
    (hcwd : ∀ q, (s'.proc q).cwd = (s.proc q).cwd)
    (hstate : ∀ q, (s'.proc q).state = (s.proc q).state)
    (hnone : ∀ f, (s.file f).type = .none → (s'.file f).type = .none) : s'.Ready p t := by
  cases t <;> simp only [State.Ready, hofile, hcwd, hstate] at hready ⊢
  case pipealloc => exact hnone _ hready
  case pipePage => exact ⟨hready.1, hnone _ hready.2.1, hnone _ hready.2.2⟩
  case openFill => exact ⟨hready.1, hnone _ hready.2⟩
  all_goals exact hready

/-- A step after which the process only has to release more. -/
theorem Moves.release {s₁ : State} (h : Inv s) (htasks : (s.proc p).tasks = t :: rest)
    (hrest : s.Ordered p rest) (hproc : s₁.proc = s.proc) (hnew : ∀ t ∈ new, t.IsRelease)
    (hpipes : ∀ pipe, s₁.pipes pipe = s.pipes pipe ∨ s₁.pipes pipe ≠ some ⟨false, false⟩)
    (hfile : ∀ f, s₁.file f ≠ s.file f → 0 < (s.proc p).files f ∧
      ((s₁.file f).ref = 0 → (s₁.file f).type = .none) ∧
      ((s₁.file f).type = .none → (s₁.file f).ref = 0))
    (hnone : ∀ f, (s.file f).type = .none → (s₁.file f).type = .none)
    (hfills : ∀ f, s₁.file f = s.file f → ¬ t.Fills f) :
    Moves s (s₁.setTasks p (new ++ rest)) p where
  file f hf := by
    obtain ⟨hpos, huntyped, hfilled⟩ := hfile f hf
    exact ⟨.inl hpos, huntyped, fun hnone => .inl (hfilled hnone)⟩
  filler f hf _ t' ht' hfill := by
    rw [htasks] at ht'
    rcases List.mem_cons.mp ht' with rfl | ht'
    · exact (hfills f hf hfill).elim
    · exact ⟨t', by rw [State.setTasks_self]; exact List.mem_append_right _ ht', hfill⟩
  other q hq hchanged := by
    rw [State.setTasks_of_ne _ hq, hproc] at hchanged
    exact (hchanged rfl).elim
  child np i hi := by
    rw [State.setTasks_self] at hi
    refine h.child (j := i) ?_
    rw [htasks]
    rcases List.mem_append.mp hi with hi | hi
    · exact (hnew _ hi).elim
    · exact List.mem_cons_of_mem _ hi
  pipes := hpipes
  placed := by
    have hlive := h.live (htasks ▸ List.mem_cons_self : t ∈ (s.proc p).tasks)
    refine Placed.of_live ?_ ?_ ?_
    · rw [State.setTasks_self, hproc]
      exact hlive
    · rw [State.setTasks_self, hproc]
      exact (h.placed p).home hlive
    · rw [State.setTasks_self]
      have hsame (q : Slot) : ((s₁.setTasks p (new ++ rest)).proc q).ofile = (s.proc q).ofile ∧
          ((s₁.setTasks p (new ++ rest)).proc q).cwd = (s.proc q).cwd ∧
          ((s₁.setTasks p (new ++ rest)).proc q).state = (s.proc q).state := by
        by_cases hq : q = p
        · rw [hq, State.setTasks_self, hproc]
          exact ⟨rfl, rfl, rfl⟩
        · rw [State.setTasks_of_ne _ hq, hproc]
          exact ⟨rfl, rfl, rfl⟩
      exact State.Ordered.append (hrest.congr fun t' _ hready => hready.congr
        (fun q => (hsame q).1) (fun q => (hsame q).2.1) (fun q => (hsame q).2.2) hnone) hnew

/-- The pipe ends of a file do not depend on its references. -/
theorem File.ends_ref (v : File) (n : ℤ) (e : PipePtr × Bool) :
    File.ends { v with ref := n } e = v.ends e := rfl

/-- The inode of a file does not depend on its references. -/
theorem File.inodes_ref (v : File) (n : ℤ) (i : InodePtr) :
    File.inodes { v with ref := n } i = v.inodes i := rfl

/-- What a file is goes over to the tasks that close it. -/
theorem total_closing (v : File) (e : PipePtr × Bool) (i : InodePtr) (f : FilePtr) :
    total Task.ends (State.closing v) e = v.ends e ∧
      total Task.inodes (State.closing v) i = v.inodes i ∧
      total Task.files (State.closing v) f = 0 ∧ ∀ t ∈ State.closing v, t.IsRelease := by
  unfold State.closing File.ends File.inodes
  cases v.type <;> simp [Task.ends, Task.inodes, Task.files, Task.IsRelease]

/-- Only the file that is set changes. -/
theorem eq_of_changed {v : File} {g : FilePtr} (hg : (s.setFile f v).file g ≠ s.file g) :
    g = f := by
  by_contra hne
  exact hg (Function.update_of_ne hne _ _)

/-- `fileclose`, the section under the lock of the file table. -/
theorem Inv.fileclose (h : Inv s) (htasks : (s.proc p).tasks = .fileclose f :: rest)
    (hrest : s.Ordered p rest) :
    ∃ s₁ new, s.fileclose f = some (s₁, new) ∧ Inv (s₁.setTasks p (new ++ rest)) := by
  have hmem : .fileclose f ∈ (s.proc p).tasks := htasks ▸ List.mem_cons_self
  have hpos : 0 < (s.proc p).files f := h.files_pos hmem rfl
  have hle := h.files_le p f
  unfold State.fileclose
  rw [if_neg (by omega)]
  split_ifs with hmore
  · have htype : (s.file f).type ≠ .none := by
      intro hnone
      rcases h.filled f hnone with href | ⟨href, -⟩ <;> omega
    refine ⟨_, _, rfl, h.next (h.live hmem) (Moves.release h htasks hrest rfl (by simp)
      (fun _ => .inl rfl) (fun g hg => ?_) (fun g hnone => ?_) fun g hg => ?_) (fun g => ?_)
      (fun e => ?_) fun i => ?_⟩
    · obtain rfl := eq_of_changed hg
      simp only [State.setFile_file, Function.update_self]
      exact ⟨hpos, fun hzero => by omega, fun hnone => (htype hnone).elim⟩
    · by_cases hgf : g = f
      · rw [hgf] at hnone
        exact (htype hnone).elim
      · rwa [State.setFile_file, Function.update_of_ne hgf]
    · rintro (rfl : f = g)
      rw [State.setFile_file, Function.update_self] at hg
      have href := congrArg File.ref hg
      dsimp only at href
      omega
    · simp only [State.fileGap_setTasks, State.fileGap_setFile, h.files, State.setFile_proc,
        htasks, total_append, total_cons, total_nil, Task.files, Pi.single_apply]
      split_ifs <;> omega
    · simp only [State.endGap_setTasks, State.endGap_setFile, h.ends, State.setFile_proc, htasks,
        total_append, total_cons, total_nil, Task.ends, Pi.zero_apply, File.ends_ref]
      omega
    · simp only [State.inodeGap_setTasks, State.inodeGap_setFile, h.inodes, State.setFile_proc,
        htasks, total_append, total_cons, total_nil, Task.inodes, Pi.zero_apply, File.inodes_ref]
      omega
  · have href : (s.file f).ref = 1 := by omega
    have hclosing (e : PipePtr × Bool) (i : InodePtr) (g : FilePtr) :=
      total_closing (s.file f) e i g
    refine ⟨_, _, rfl, h.next (h.live hmem) (Moves.release h htasks hrest rfl
      (hclosing (0, false) 0 f).2.2.2 (fun _ => .inl rfl) (fun g hg => ?_) (fun g hnone => ?_)
      fun g hg => ?_) (fun g => ?_) (fun e => ?_) fun i => ?_⟩
    · obtain rfl := eq_of_changed hg
      simp only [State.setFile_file, Function.update_self]
      exact ⟨hpos, fun _ => trivial, fun _ => trivial⟩
    · by_cases hgf : g = f
      · rw [hgf, State.setFile_file, Function.update_self]
      · rwa [State.setFile_file, Function.update_of_ne hgf]
    · rintro (rfl : f = g)
      rw [State.setFile_file, Function.update_self] at hg
      have href' := congrArg File.ref hg
      dsimp only at href'
      omega
    · simp only [State.fileGap_setTasks, State.fileGap_setFile, h.files, State.setFile_proc,
        htasks, total_append, total_cons, (hclosing (0, false) 0 g).2.2.1, Task.files,
        Pi.single_apply]
      split_ifs <;> omega
    · simp only [State.endGap_setTasks, State.endGap_setFile, h.ends, State.setFile_proc, htasks,
        total_append, total_cons, (hclosing e 0 f).1, Task.ends, Pi.zero_apply]
      simp [File.ends]
    · simp only [State.inodeGap_setTasks, State.inodeGap_setFile, h.inodes, State.setFile_proc,
        htasks, total_append, total_cons, (hclosing (0, false) i f).2.1, Task.inodes,
        Pi.zero_apply]
      simp [File.inodes]

/-- An end of a pipe is open at most once. -/
theorem endOpen_le_one (pipe : Option PipeEnds) (writable : Bool) : endOpen pipe writable ≤ 1 := by
  unfold endOpen
  cases pipe with
  | none => exact zero_le_one
  | some ends =>
    dsimp only
    split_ifs <;> simp

/-- Who has an end of a pipe keeps it open. -/
theorem Inv.ends_le (h : Inv s) (o : Slot ⊕ FilePtr) (e : PipePtr × Bool) :
    Sum.elim (fun p => (s.proc p).ends) (fun f => (s.file f).ends) o e ≤
      endOpen (s.pipes e.1) e.2 := by
  refine References.Balanced.le h.ends (fun o e => ?_) o e
  cases o with
  | inl q => exact total_nonneg fun t _ => Task.ends_nonneg e
  | inr g =>
    simp only [Sum.elim_inr, File.ends]
    split_ifs
    · rw [Pi.single_apply]
      split_ifs <;> simp
    · exact le_rfl

/-- The end of a pipe that is to be closed is open. -/
theorem Inv.end_open (h : Inv s) {pipe : PipePtr} {writable : Bool}
    (ht : .pipeclose pipe writable ∈ (s.proc p).tasks) :
    endOpen (s.pipes pipe) writable = 1 := by
  have hle := h.ends_le (.inl p) (pipe, writable)
  have hone : Task.ends (.pipeclose pipe writable) (pipe, writable) ≤
      total Task.ends (s.proc p).tasks (pipe, writable) :=
    le_total (fun t _ => Task.ends_nonneg _) ht
  simp only [Sum.elim_inl, Process.ends, Task.ends, Pi.single_eq_same] at hle hone
  exact le_antisymm (endOpen_le_one _ _) (hone.trans hle)

/-- A release after which nothing more is to be released, and which is not about a file. -/
theorem Moves.pop {s₁ : State} (h : Inv s) (htasks : (s.proc p).tasks = t :: rest)
    (hrest : s.Ordered p rest) (hproc : s₁.proc = s.proc) (hfile : s₁.file = s.file)
    (hpipes : ∀ pipe, s₁.pipes pipe = s.pipes pipe ∨ s₁.pipes pipe ≠ some ⟨false, false⟩)
    (hfills : ∀ f, ¬ t.Fills f) : Moves s (s₁.setTasks p rest) p := by
  have hnew : ∀ t ∈ ([] : List Task), t.IsRelease := by
    rintro t ⟨⟩
  refine Moves.release h htasks hrest hproc hnew hpipes (fun f hf => ?_) (fun f hnone => ?_)
    fun f _ => hfills f
  · exact (hf (congrFun hfile f)).elim
  · rwa [hfile]

/-- `pipeclose`. -/
theorem Inv.pipeclose (h : Inv s) {pipe : PipePtr} {writable : Bool}
    (htasks : (s.proc p).tasks = .pipeclose pipe writable :: rest) (hrest : s.Ordered p rest) :
    ∃ s₁, s.pipeclose pipe writable = some s₁ ∧ Inv (s₁.setTasks p rest) := by
  have hmem : .pipeclose pipe writable ∈ (s.proc p).tasks := htasks ▸ List.mem_cons_self
  have hopen := h.end_open hmem
  cases hpipe : s.pipes pipe with
  | none =>
    rw [hpipe] at hopen
    cases hopen
  | some ends =>
    rw [hpipe] at hopen
    unfold State.pipeclose
    rw [hpipe, Option.map_some]
    refine ⟨_, rfl, h.next (h.live hmem) (Moves.pop h htasks hrest rfl rfl (fun other => ?_)
      fun _ => id) (fun g => ?_) (fun e => ?_) fun i => ?_⟩
    · rw [State.setPipe_pipes]
      by_cases hother : other = pipe
      · right
        rw [hother, Function.update_self]
        obtain ⟨r, w⟩ := ends
        cases writable <;> cases r <;> cases w <;> simp
      · exact .inl (Function.update_of_ne hother _ _)
    · simp only [State.fileGap_setTasks, State.fileGap_setPipe, h.files, State.setPipe_proc,
        htasks, total_cons, Task.files, Pi.zero_apply]
      omega
    · obtain ⟨pipe', w⟩ := e
      simp only [State.endGap_setTasks, State.endGap_setPipe, h.ends, State.setPipe_proc, htasks,
        total_cons, Task.ends, Pi.single_apply, hpipe, Prod.mk.injEq]
      obtain ⟨r, w'⟩ := ends
      by_cases hp : pipe' = pipe <;> cases w <;> cases writable <;> cases r <;> cases w' <;>
        simp_all [endOpen]
    · simp only [State.inodeGap_setTasks, State.inodeGap_setPipe, h.inodes, State.setPipe_proc,
        htasks, total_cons, Task.inodes, Pi.zero_apply]
      omega

/-- `iput`. -/
theorem Inv.iput (h : Inv s) {ip : InodePtr} (htasks : (s.proc p).tasks = .iput ip :: rest)
    (hrest : s.Ordered p rest) : Inv ((s.iput ip).setTasks p rest) := by
  have hmem : .iput ip ∈ (s.proc p).tasks := htasks ▸ List.mem_cons_self
  unfold State.iput
  refine h.next (h.live hmem) (Moves.pop h htasks hrest rfl rfl (fun _ => .inl rfl) fun _ => id)
    (fun g => ?_) (fun e => ?_) fun i => ?_
  · simp only [State.fileGap_setTasks, State.fileGap_setIref, h.files, State.setIref_proc,
      htasks, total_cons, Task.files, Pi.zero_apply]
    omega
  · simp only [State.endGap_setTasks, State.endGap_setIref, h.ends, State.setIref_proc, htasks,
      total_cons, Task.ends, Pi.zero_apply]
    omega
  · simp only [State.inodeGap_setTasks, State.inodeGap_setIref, h.inodes, State.setIref_proc,
      htasks, total_cons, Task.inodes, Pi.single_apply]
    split_ifs <;> omega

/-- A step after which the process is still live. -/
theorem Inv.advance {s₁ : State} (h : Inv s) (hlive : (s.proc p).Live)
    (hother : ∀ q ≠ p, s₁.proc q ≠ s.proc q → Placed (s₁.setTasks p new) q ∧
      (s.proc q).tasks = [] ∧ (s₁.proc q).tasks = [] ∧
      ∀ r ≠ p, ∀ i, .forkFile q i ∉ (s.proc r).tasks)
    (hfork : ∀ np i, .forkFile np i ∈ new → ∀ r ≠ p, ∀ j, .forkFile np j ∉ (s.proc r).tasks)
    (hpipes : ∀ pipe, s₁.pipes pipe = s.pipes pipe ∨ s₁.pipes pipe ≠ some ⟨false, false⟩)
    (hfile : ∀ f, s₁.file f ≠ s.file f → (0 < (s.proc p).files f ∨ (s.file f).ref = 0) ∧
      ((s₁.file f).ref = 0 → (s₁.file f).type = .none) ∧
      ((s₁.file f).type = .none → (s₁.file f).ref = 0 ∨ (s₁.file f).ref = 1 ∧
        ∃ t ∈ new, t.Fills f))
    (hfiller : ∀ f, s₁.file f = s.file f → (s.file f).type = .none →
      ∀ t ∈ (s.proc p).tasks, t.Fills f → ∃ t ∈ new, t.Fills f)
    (hlive' : (s₁.proc p).Live) (hhome : (s₁.proc p).cwd.isSome)
    (hordered : (s₁.setTasks p new).Ordered p new)
    (hfiles : ∀ f, (s₁.setTasks p new).fileGap f = 0)
    (hends : ∀ e, (s₁.setTasks p new).endGap e = 0)
    (hinodes : ∀ i, (s₁.setTasks p new).inodeGap i = 0) : Inv (s₁.setTasks p new) := by
  refine h.next hlive ⟨?_, ?_, fun q hq hchanged => ?_, ?_, hpipes, Placed.of_live ?_ ?_ ?_⟩ hfiles
    hends hinodes
  · rw [State.setTasks_self]
    exact hfile
  · rw [State.setTasks_self]
    exact hfiller
  · rw [State.setTasks_of_ne _ hq] at hchanged ⊢
    exact hother q hq hchanged
  · rw [State.setTasks_self]
    exact hfork
  · rw [State.setTasks_self]
    exact hlive'
  · rw [State.setTasks_self]
    exact hhome
  · rw [State.setTasks_self]
    exact hordered

/-- No task is a turn of `fork`. -/
theorem not_forkFile {P : Slot → ℕ → Prop} (hnew : ∀ t ∈ new, ∀ np i, t ≠ .forkFile np i)
    (np : Slot) (i : ℕ) (hi : .forkFile np i ∈ new) : P np i := (hnew _ hi np i rfl).elim

/-- `filealloc` fails, or finds a free file and takes a reference. -/
theorem filealloc_cases (s : State) : s.filealloc = none ∨
    ∃ f, (s.file f).ref = 0 ∧ s.filealloc = some (f, s.setFile f { s.file f with ref := 1 }) := by
  unfold State.filealloc
  cases hfind : (List.finRange nfile).find? fun f => (s.file f).ref = 0 with
  | none => exact .inl rfl
  | some f =>
    have hf := List.find?_some hfind
    exact .inr ⟨f, of_decide_eq_true hf, rfl⟩

/-- `fdalloc` fails, or sets a free descriptor. -/
theorem fdalloc_cases (s : State) (p : Slot) (f : FilePtr) : s.fdalloc p f = none ∨
    ∃ fd, (s.proc p).ofile fd = none ∧ s.fdalloc p f = some (fd, s.setFd p fd (some f)) := by
  unfold State.fdalloc
  cases hfind : (List.finRange nofile).find? fun fd => (s.proc p).ofile fd = none with
  | none => exact .inl rfl
  | some fd =>
    have hfd := List.find?_some hfind
    exact .inr ⟨fd, of_decide_eq_true hfd, rfl⟩

/-- `filedup`. -/
theorem Inv.filedup (h : Inv s) (htasks : (s.proc p).tasks = [.filedup f])
    (hready : s.Ready p (.filedup f)) :
    ∃ s₁, s.filedup f = some s₁ ∧ Inv (s₁.setTasks p []) := by
  have hmem : .filedup f ∈ (s.proc p).tasks := htasks ▸ List.mem_cons_self
  obtain ⟨a, b, hne, ha, hb⟩ := hready
  have hpos : 0 < (s.proc p).files f := by
    have htwo := two_le_descriptors hne ha hb
    unfold Process.files
    rw [htasks]
    simp only [total_cons, total_nil, Task.files, Pi.neg_apply, Pi.single_eq_same]
    omega
  have hle := h.files_le p f
  have htype : (s.file f).type ≠ .none := h.type_ne_none hpos fun t ht => by
    rw [htasks] at ht
    rw [List.mem_singleton.mp ht]
    exact id
  have hlive := h.live hmem
  unfold State.filedup
  rw [if_neg (by omega)]
  refine ⟨_, rfl, h.advance hlive (fun q _ hq => (hq rfl).elim) (not_forkFile (by simp))
    (fun _ => .inl rfl) (fun g hg => ?_) (fun g _ _ t ht hfills => ?_) hlive
    ((h.placed p).home hlive) .nil (fun g => ?_) (fun e => ?_) fun i => ?_⟩
  · obtain rfl := eq_of_changed hg
    simp only [State.setFile_file, Function.update_self]
    exact ⟨.inl hpos, fun hzero => by omega, fun hnone => (htype hnone).elim⟩
  · rw [htasks] at ht
    rw [List.mem_singleton.mp ht] at hfills
    exact hfills.elim
  · simp only [State.fileGap_setTasks, State.fileGap_setFile, h.files, State.setFile_proc,
      htasks, total_cons, total_nil, Task.files, Pi.neg_apply, Pi.single_apply]
    split_ifs <;> omega
  · simp [h.ends, htasks, Task.ends, File.ends_ref]
  · simp [h.inodes, htasks, Task.inodes, File.inodes_ref]

/-- `pipealloc`, the two files. -/
theorem Inv.pipealloc (h : Inv s) (htasks : (s.proc p).tasks = [.pipealloc f])
    (hready : s.Ready p (.pipealloc f)) :
    ∃ s₁ new, s.runTask p none (.pipealloc f) = some (s₁, new) ∧ Inv (s₁.setTasks p new) := by
  have hmem : .pipealloc f ∈ (s.proc p).tasks := htasks ▸ List.mem_cons_self
  have hlive := h.live hmem
  have hhome := (h.placed p).home hlive
  have hfills (g : FilePtr) (t : Task) (ht : t ∈ (s.proc p).tasks) (hg : t.Fills g) : f = g := by
    rw [htasks] at ht
    rwa [List.mem_singleton.mp ht] at hg
  unfold State.runTask
  rcases filealloc_cases s with hnone | ⟨wf, href, hsome⟩
  · rw [hnone]
    refine ⟨s, _, rfl, h.advance hlive (fun q _ hq => (hq rfl).elim) (not_forkFile (by simp))
      (fun _ => .inl rfl) (fun g hg => (hg rfl).elim)
      (fun g _ _ t ht hg => ⟨.fileclose f, by simp, hfills g t ht hg⟩) hlive hhome
      (State.Ordered.nil.cons trivial) (fun g => ?_) (fun e => ?_) fun i => ?_⟩
    · simp [h.files, htasks, Task.files]
    · simp [h.ends, htasks, Task.ends]
    · simp [h.inodes, htasks, Task.inodes]
  · have hpos := h.files_pos hmem rfl
    have hle := h.files_le p f
    have hne : f ≠ wf := by
      rintro rfl
      omega
    have hwf := h.untyped wf href
    rw [hsome]
    refine ⟨_, _, rfl, h.advance hlive (fun q _ hq => (hq rfl).elim) (not_forkFile (by simp))
      (fun _ => .inl rfl) (fun g hg => ?_)
      (fun g _ _ t ht hg => ⟨_, List.mem_singleton_self _, .inl (hfills g t ht hg)⟩) hlive hhome
      (State.Ordered.single ?_) (fun g => ?_) (fun e => ?_) fun i => ?_⟩
    · obtain rfl := eq_of_changed hg
      simp only [State.setFile_file, Function.update_self]
      exact ⟨.inr href, by simp, fun _ => .inr ⟨trivial, _, List.mem_singleton_self _, .inr rfl⟩⟩
    · refine ⟨hne, ?_, ?_⟩
      · rw [State.setTasks_file, State.setFile_file, Function.update_of_ne hne]
        exact hready
      · rw [State.setTasks_file, State.setFile_file, Function.update_self]
        exact hwf
    · simp only [State.fileGap_setTasks, State.fileGap_setFile, h.files, State.setFile_proc,
        htasks, total_cons, total_nil, Task.files, Pi.add_apply, Pi.single_apply, href]
      split_ifs <;> omega
    · simp [h.ends, htasks, Task.ends, File.ends_ref]
    · simp [h.inodes, htasks, Task.inodes, File.inodes_ref]

section PipeFiles

variable {rf wf g : FilePtr} {page : PipePtr}

/-- Filling the two files of a pipe keeps the references. -/
theorem pipeFiles_ref : ((s.pipeFiles rf wf page).file g).ref = (s.file g).ref := by
  simp only [State.pipeFiles, State.setFile_file, State.setPipe_file]
  by_cases hw : g = wf
  · subst hw
    rw [Function.update_self]
    by_cases hr : g = rf
    · subst hr
      rw [Function.update_self]
    · rw [Function.update_of_ne hr]
  · rw [Function.update_of_ne hw]
    by_cases hr : g = rf
    · subst hr
      rw [Function.update_self]
    · rw [Function.update_of_ne hr]

/-- Only the two files of a pipe change, and they get a type. -/
theorem pipeFiles_changed (hg : (s.pipeFiles rf wf page).file g ≠ s.file g) :
    (rf = g ∨ wf = g) ∧ ((s.pipeFiles rf wf page).file g).type ≠ .none := by
  simp only [State.pipeFiles, State.setFile_file, State.setPipe_file] at hg ⊢
  by_cases hw : g = wf
  · subst hw
    rw [Function.update_self]
    exact ⟨.inr rfl, by simp⟩
  · rw [Function.update_of_ne hw] at hg ⊢
    by_cases hr : g = rf
    · subst hr
      rw [Function.update_self]
      exact ⟨.inl rfl, by simp⟩
    · rw [Function.update_of_ne hr] at hg
      exact (hg rfl).elim

variable (hne : rf ≠ wf) (hrf : (s.file rf).type = .none) (hwf : (s.file wf).type = .none)
  (hpage : s.pipes page = none)

/-- The two files of a pipe are counted as before. -/
theorem fileGap_pipeFiles : (s.pipeFiles rf wf page).fileGap g = s.fileGap g := by
  simp only [State.pipeFiles, State.fileGap_setFile, State.fileGap_setPipe, State.setFile_file,
    State.setPipe_file, sub_self]
  simp

include hne hrf hwf

/-- The two files of a pipe have no inode. -/
theorem inodeGap_pipeFiles : (s.pipeFiles rf wf page).inodeGap i = s.inodeGap i := by
  simp only [State.pipeFiles, State.inodeGap_setFile, State.inodeGap_setPipe, State.setFile_file,
    State.setPipe_file, Function.update_of_ne (Ne.symm hne)]
  simp [File.inodes, hrf, hwf]

include hpage

/-- The two files of a pipe have its two ends. -/
theorem endGap_pipeFiles (e : PipePtr × Bool) :
    (s.pipeFiles rf wf page).endGap e = s.endGap e := by
  obtain ⟨pipe, w⟩ := e
  simp only [State.pipeFiles, State.endGap_setFile, State.endGap_setPipe, State.setFile_file,
    State.setPipe_file, Function.update_of_ne (Ne.symm hne), hpage]
  by_cases hpipe : pipe = page <;> cases w <;>
    simp [File.ends, hrf, hwf, endOpen, hpipe]

end PipeFiles

/-- Where `sys_pipe` goes on with the two files. -/
theorem Inv.pipeNext {rf wf : FilePtr} {page : PipePtr} {s₁ : State} (h : Inv s)
    (htasks : (s.proc p).tasks = [.pipePage rf wf]) (hready : s.Ready p (.pipePage rf wf))
    (hpage : s.pipes page = none) (hfile : s₁.file = (s.pipeFiles rf wf page).file)
    (hpipes : s₁.pipes = (s.pipeFiles rf wf page).pipes)
    (hother : ∀ q ≠ p, s₁.proc q = s.proc q) (hstate : (s₁.proc p).state = (s.proc p).state)
    (hcwd : (s₁.proc p).cwd = (s.proc p).cwd) (hnew : ∀ t ∈ new, t.IsRelease)
    (hfiles : ∀ f, (s₁.setTasks p new).fileGap f = (s.pipeFiles rf wf page).fileGap f)
    (hends : ∀ e, (s₁.setTasks p new).endGap e = (s.pipeFiles rf wf page).endGap e)
    (hinodes : ∀ i, (s₁.setTasks p new).inodeGap i = (s.pipeFiles rf wf page).inodeGap i) :
    Inv (s₁.setTasks p new) := by
  have hmem : .pipePage rf wf ∈ (s.proc p).tasks := htasks ▸ List.mem_cons_self
  have hlive := h.live hmem
  obtain ⟨hne, hrf, hwf⟩ := hready
  have hpos (g : FilePtr) (hg : rf = g ∨ wf = g) : 0 < (s.proc p).files g := h.files_pos hmem hg
  refine h.advance hlive (fun q hq hchanged => (hchanged (hother q hq)).elim)
    (not_forkFile fun t ht np i heq => ?_) (fun pipe => ?_) (fun g hg => ?_)
    (fun g hg hnone t ht hfills => ?_) ?_ ?_ ?_ (fun f => ?_) (fun e => ?_) fun i => ?_
  · have := hnew t ht
    rw [heq] at this
    exact this
  · rw [hpipes]
    by_cases hpipe : pipe = page
    · subst hpipe
      right
      simp [State.pipeFiles]
    · left
      simp [State.pipeFiles, hpipe]
  · rw [hfile] at hg ⊢
    obtain ⟨hg, htype⟩ := pipeFiles_changed hg
    have hle := h.files_le p g
    have := hpos g hg
    rw [pipeFiles_ref]
    exact ⟨.inl (hpos g hg), fun hzero => by omega, fun hnone => (htype hnone).elim⟩
  · rw [htasks] at ht
    rw [List.mem_singleton.mp ht] at hfills
    rw [hfile] at hg
    have htype : ((s.pipeFiles rf wf page).file g).type = .pipe := by
      rcases hfills with rfl | rfl
      · simp [State.pipeFiles, hne]
      · simp [State.pipeFiles]
    rw [hg, hnone] at htype
    cases htype
  · unfold Process.Live
    rwa [hstate]
  · rw [hcwd]
    exact (h.placed p).home hlive
  · have hordered := State.Ordered.append (s := s₁.setTasks p new) (p := p) .nil hnew
    rwa [List.append_nil] at hordered
  · rw [hfiles, fileGap_pipeFiles, h.files]
  · rw [hends, endGap_pipeFiles hne hrf hwf hpage, h.ends]
  · rw [hinodes, inodeGap_pipeFiles hne hrf hwf, h.inodes]

/-- `pipealloc`, from `kalloc` on, and the descriptors of `sys_pipe`. -/
theorem Inv.pipePage (h : Inv s) {rf wf : FilePtr}
    (htasks : (s.proc p).tasks = [.pipePage rf wf]) (hready : s.Ready p (.pipePage rf wf))
    (o : Option PipePtr) (ho : ∀ page ∈ o, s.pipes page = none) :
    ∃ s₁ new, s.pipePage p rf wf o = some (s₁, new) ∧ Inv (s₁.setTasks p new) := by
  have hmem : .pipePage rf wf ∈ (s.proc p).tasks := htasks ▸ List.mem_cons_self
  have hlive := h.live hmem
  have hclose : ∀ t ∈ [Task.fileclose rf, .fileclose wf], t.IsRelease := by
    simp [Task.IsRelease]
  cases o with
  | none =>
    refine ⟨s, _, rfl, h.advance hlive (fun q _ hq => (hq rfl).elim)
      (not_forkFile fun t ht np i heq => ?_) (fun _ => .inl rfl) (fun g hg => (hg rfl).elim)
      (fun g _ _ t ht hg => ?_) hlive ((h.placed p).home hlive) ?_ (fun g => ?_) (fun e => ?_)
      fun i => ?_⟩
    · have := hclose t ht
      rw [heq] at this
      exact this
    · rw [htasks] at ht
      rw [List.mem_singleton.mp ht] at hg
      rcases hg with rfl | rfl
      · exact ⟨.fileclose rf, by simp, rfl⟩
      · exact ⟨.fileclose wf, by simp, rfl⟩
    · exact State.Ordered.append .nil hclose
    · simp [h.files, htasks, Task.files]
    · simp [h.ends, htasks, Task.ends]
    · simp [h.inodes, htasks, Task.inodes]
  | some page =>
    have hpage := ho page rfl
    unfold State.pipePage
    dsimp only
    rw [if_neg (by simp [hpage])]
    suffices hinv : Inv (((s.pipeFiles rf wf page).pipeFds p rf wf).1.setTasks p
        ((s.pipeFiles rf wf page).pipeFds p rf wf).2) from ⟨_, _, rfl, hinv⟩
    unfold State.pipeFds
    have hproc : (s.pipeFiles rf wf page).proc = s.proc := rfl
    rcases fdalloc_cases (s.pipeFiles rf wf page) p rf with hnone | ⟨fd0, hfd0, hsome⟩
    · rw [hnone]
      refine h.pipeNext htasks hready hpage rfl rfl (fun _ _ => rfl) rfl rfl hclose
        (fun g => ?_) (fun e => ?_) fun i => ?_
      · simp [hproc, htasks, Task.files]
      · simp [hproc, htasks, Task.ends]
      · simp [hproc, htasks, Task.inodes]
    · rw [hsome]
      dsimp only
      rw [hproc] at hfd0
      rcases fdalloc_cases ((s.pipeFiles rf wf page).setFd p fd0 (some rf)) p wf with
        hnone | ⟨fd1, hfd1, hsome'⟩
      · rw [hnone]
        refine h.pipeNext htasks hready hpage rfl rfl (fun q hq => ?_) ?_ ?_ hclose
          (fun g => ?_) (fun e => ?_) fun i => ?_
        · rw [State.setFd_of_ne _ _ hq, State.setFd_of_ne _ _ hq, hproc]
        · rw [State.setFd_self, State.setFd_self, hproc]
        · rw [State.setFd_self, State.setFd_self, hproc]
        · simp [hproc, htasks, hfd0, Task.files]
        · simp [hproc, htasks, Task.ends]
        · simp [hproc, htasks, Task.inodes]
      · rw [hsome']
        rw [State.setFd_self, hproc] at hfd1
        refine h.pipeNext htasks hready hpage rfl rfl (fun q hq => ?_) ?_ ?_ (by simp)
          (fun g => ?_) (fun e => ?_) fun i => ?_
        · rw [State.setFd_of_ne _ _ hq, State.setFd_of_ne _ _ hq, hproc]
        · rw [State.setFd_self, State.setFd_self, hproc]
        · rw [State.setFd_self, State.setFd_self, hproc]
        · simp only [State.fileGap_setTasks, State.fileGap_setFd, State.setFd_self, hproc, htasks,
            hfd0, hfd1, total_cons, total_nil, Task.files, Pi.add_apply, Pi.single_apply,
            Option.some.injEq, reduceCtorEq, if_false, eq_comm (a := g)]
          split_ifs <;> omega
        · simp [hproc, htasks, Task.ends]
        · simp [hproc, htasks, Task.inodes]

/-- `sys_open`, the file and the descriptor. -/
theorem Inv.openFile (h : Inv s) {ip : InodePtr} {omode : UInt32}
    (htasks : (s.proc p).tasks = [.openFile ip omode]) :
    Inv ((s.openFile p ip omode).1.setTasks p (s.openFile p ip omode).2) := by
  have hmem : .openFile ip omode ∈ (s.proc p).tasks := htasks ▸ List.mem_cons_self
  have hlive := h.live hmem
  have hhome := (h.placed p).home hlive
  have hfills (g : FilePtr) (t : Task) (ht : t ∈ (s.proc p).tasks) : ¬ t.Fills g := by
    rw [htasks] at ht
    rw [List.mem_singleton.mp ht]
    exact id
  unfold State.openFile
  rcases filealloc_cases s with hnone | ⟨f, href, hsome⟩
  · rw [hnone]
    refine h.advance hlive (fun q _ hq => (hq rfl).elim) (not_forkFile (by simp))
      (fun _ => .inl rfl) (fun g hg => (hg rfl).elim)
      (fun g _ _ t ht hg => (hfills g t ht hg).elim) hlive hhome
      (State.Ordered.nil.cons trivial) (fun g => ?_) (fun e => ?_) fun i => ?_
    · simp [h.files, htasks, Task.files]
    · simp [h.ends, htasks, Task.ends]
    · simp [h.inodes, htasks, Task.inodes]
  · rw [hsome]
    dsimp only
    have huntyped := h.untyped f href
    rcases fdalloc_cases (s.setFile f { s.file f with ref := 1 }) p f with
      hnone | ⟨fd, hfd, hsome'⟩
    · rw [hnone]
      refine h.advance hlive (fun q _ hq => (hq rfl).elim) (not_forkFile (by simp))
        (fun _ => .inl rfl) (fun g hg => ?_) (fun g _ _ t ht hg => (hfills g t ht hg).elim) hlive
        hhome (State.Ordered.cons (.cons .nil trivial) trivial) (fun g => ?_) (fun e => ?_)
        fun i => ?_
      · obtain rfl := eq_of_changed hg
        simp only [State.setFile_file, Function.update_self]
        exact ⟨.inr href, by simp, fun _ => .inr ⟨trivial, _, List.mem_cons_self, rfl⟩⟩
      · simp [h.files, htasks, Task.files, Pi.single_apply, href]
      · simp [h.ends, htasks, Task.ends, File.ends_ref]
      · simp [h.inodes, htasks, Task.inodes, File.inodes_ref]
    · rw [hsome']
      rw [State.setFile_proc] at hfd
      refine h.advance hlive (fun q hq hchanged => ?_) (not_forkFile (by simp))
        (fun _ => .inl rfl) (fun g hg => ?_) (fun g _ _ t ht hg => (hfills g t ht hg).elim) ?_ ?_
        (.single ⟨⟨fd, ?_⟩, ?_⟩) (fun g => ?_) (fun e => ?_) fun i => ?_
      · rw [State.setFd_of_ne _ _ hq] at hchanged
        exact (hchanged rfl).elim
      · obtain rfl := eq_of_changed hg
        simp only [State.setFd_file, State.setFile_file, Function.update_self]
        exact ⟨.inr href, by simp, fun _ => .inr ⟨trivial, _, List.mem_cons_self, rfl⟩⟩
      · rw [State.setFd_self]
        exact hlive
      · rw [State.setFd_self]
        exact hhome
      · simp
      · simp [huntyped]
      · simp [h.files, htasks, Task.files, href, hfd, eq_comm (a := g)]
      · simp [h.ends, htasks, Task.ends, File.ends_ref]
      · simp [h.inodes, htasks, Task.inodes, File.inodes_ref]

/-- `sys_open`, the fields of the file. -/
theorem Inv.openFill (h : Inv s) {ip : InodePtr} {omode : UInt32}
    (htasks : (s.proc p).tasks = [.openFill f ip omode])
    (hready : s.Ready p (.openFill f ip omode)) :
    Inv ((s.openFill f ip omode).setTasks p []) := by
  have hmem : .openFill f ip omode ∈ (s.proc p).tasks := htasks ▸ List.mem_cons_self
  have hlive := h.live hmem
  have hpos : 0 < (s.proc p).files f := h.files_pos hmem rfl
  have hle := h.files_le p f
  have hnone := hready.2
  unfold State.openFill
  refine h.advance hlive (fun q _ hq => (hq rfl).elim) (not_forkFile (by simp))
    (fun _ => .inl rfl) (fun g hg => ?_) (fun g hg hnone' t ht hfills => ?_) hlive
    ((h.placed p).home hlive) .nil (fun g => ?_) (fun e => ?_) fun i => ?_
  · obtain rfl := eq_of_changed hg
    simp only [State.setFile_file, Function.update_self]
    exact ⟨.inl hpos, fun hzero => by omega, fun hnone => by cases hnone⟩
  · rw [htasks] at ht
    rw [List.mem_singleton.mp ht] at hfills
    obtain rfl : f = g := hfills
    rw [State.setFile_file, Function.update_self] at hg
    rw [← hg] at hnone'
    cases hnone'
  · simp [h.files, htasks, Task.files]
  · simp [h.ends, htasks, Task.ends, File.ends, hnone]
  · simp [h.inodes, htasks, Task.inodes, File.inodes, hnone]

/-- A turn of the loop of `fork`; after the last one the child can run. -/
theorem Inv.forkFile (h : Inv s) {np : Slot} {j : ℕ} (htasks : (s.proc p).tasks = [.forkFile np j])
    (hready : s.Ready p (.forkFile np j)) :
    ∃ s₁ new, s.forkFile p np j = some (s₁, new) ∧ Inv (s₁.setTasks p new) := by
  have hmem : .forkFile np j ∈ (s.proc p).tasks := htasks ▸ List.mem_cons_self
  have hlive := h.live hmem
  have hhome := (h.placed p).home hlive
  obtain ⟨hnp, hstate, hcwd, hfree⟩ := hready
  have hchild := h.child hmem
  have hdead : ¬ (s.proc np).Live := by simp [Process.Live, hstate]
  have hidle := (h.placed np).idle hdead
  have hfills (g : FilePtr) (t : Task) (ht : t ∈ (s.proc p).tasks) : ¬ t.Fills g := by
    rw [htasks] at ht
    rw [List.mem_singleton.mp ht]
    exact id
  have hfork (np' : Slot) (i : ℕ) (hi : .forkFile np' i ∈ [Task.forkFile np (j + 1)]) :
      ∀ r ≠ p, ∀ j, .forkFile np' j ∉ (s.proc r).tasks := by
    obtain ⟨rfl, -⟩ := Task.forkFile.inj (List.mem_singleton.mp hi)
    exact hchild
  unfold State.forkFile
  split_ifs with hj
  · cases hslot : (s.proc p).ofile ⟨j, hj⟩ with
    | none =>
      refine ⟨s, _, rfl, h.advance hlive (fun q _ hq => (hq rfl).elim) hfork (fun _ => .inl rfl)
        (fun g hg => (hg rfl).elim) (fun g _ _ t ht hg => (hfills g t ht hg).elim) hlive hhome
        (.single ?_) (fun g => ?_) (fun e => ?_) fun i => ?_⟩
      · rw [State.Ready, State.setTasks_of_ne _ hnp]
        exact ⟨hnp, hstate, hcwd, fun fd hfd => hfree fd (by omega)⟩
      · simp [h.files, htasks, Task.files]
      · simp [h.ends, htasks, Task.ends]
      · simp [h.inodes, htasks, Task.inodes]
    | some f =>
      have hpos : 0 < (s.proc p).files f := by
        have hone := one_le_descriptors hslot
        unfold Process.files
        rw [htasks]
        simp only [total_cons, total_nil, Task.files, Pi.zero_apply]
        omega
      have hle := h.files_le p f
      have htype := h.type_ne_none hpos (hfills f)
      have hnone := hfree ⟨j, hj⟩ le_rfl
      dsimp only
      unfold State.filedup
      rw [if_neg (by omega), Option.map_some]
      refine ⟨_, _, rfl, h.advance hlive (fun q hq hchanged => ?_) hfork (fun _ => .inl rfl)
        (fun g hg => ?_) (fun g _ _ t ht hg => (hfills g t ht hg).elim) ?_ ?_ (.single ?_)
        (fun g => ?_) (fun e => ?_) fun i => ?_⟩
      · by_cases hqnp : q = np
        · subst hqnp
          have hproc := State.setFd_self
            (s := s.setFile f { s.file f with ref := (s.file f).ref + 1 }) q ⟨j, hj⟩ (some f)
          refine ⟨?_, hidle, ?_, hchild⟩
          · constructor
            · rw [State.setTasks_of_ne _ hq, hproc]
              exact fun _ => hidle
            · rw [State.setTasks_of_ne _ hq, hproc]
              dsimp only
              rw [State.setFile_proc, hstate]
              simp
            · rw [State.setTasks_of_ne _ hq, hproc]
              exact fun hlive => (hdead hlive).elim
            · rw [State.setTasks_of_ne _ hq, hproc]
              dsimp only
              rw [State.setFile_proc, hidle]
              exact .nil
          · rw [hproc]
            exact hidle
        · rw [State.setFd_of_ne _ _ hqnp] at hchanged
          exact (hchanged rfl).elim
      · obtain rfl := eq_of_changed hg
        simp only [State.setFd_file, State.setFile_file, Function.update_self]
        exact ⟨.inl hpos, fun hzero => by omega, fun hnone => (htype hnone).elim⟩
      · rw [State.setFd_of_ne _ _ (Ne.symm hnp)]
        exact hlive
      · rw [State.setFd_of_ne _ _ (Ne.symm hnp)]
        exact hhome
      · rw [State.Ready, State.setTasks_of_ne _ hnp, State.setFd_self]
        refine ⟨hnp, hstate, hcwd, fun fd hfd => ?_⟩
        have hne : fd ≠ ⟨j, hj⟩ := by
          rintro rfl
          simp at hfd
        dsimp only
        rw [Function.update_of_ne hne]
        exact hfree fd (by omega)
      · simp [State.setFd_of_ne _ _ (Ne.symm hnp), h.files, htasks, Task.files, hnone,
          eq_comm (a := g)]
      · simp [State.setFd_of_ne _ _ (Ne.symm hnp), h.ends, htasks, Task.ends, File.ends_ref]
      · simp [State.setFd_of_ne _ _ (Ne.symm hnp), h.inodes, htasks, Task.inodes,
          File.inodes_ref]
  · obtain ⟨cwd, hsome⟩ := Option.isSome_iff_exists.mp hhome
    rw [hsome, Option.map_some]
    refine ⟨_, _, rfl, h.advance hlive (fun q hq hchanged => ?_) (not_forkFile (by simp))
      (fun _ => .inl rfl) (fun g hg => (hg rfl).elim)
      (fun g _ _ t ht hg => (hfills g t ht hg).elim) ?_ ?_ .nil (fun g => ?_) (fun e => ?_)
      fun i => ?_⟩
    · by_cases hqnp : q = np
      · subst hqnp
        refine ⟨Placed.of_live ?_ ?_ ?_, hidle, ?_, hchild⟩
        · rw [State.setTasks_of_ne _ hq, State.setProc_self]
          exact .inr (.inl rfl)
        · rw [State.setTasks_of_ne _ hq, State.setProc_self]
          rfl
        · rw [State.setTasks_of_ne _ hq, State.setProc_self]
          dsimp only
          rw [State.idup, State.setIref_proc, hidle]
          exact .nil
        · rw [State.setProc_self]
          exact hidle
      · rw [State.setProc_of_ne _ hqnp] at hchanged
        exact (hchanged rfl).elim
    · rw [State.setProc_of_ne _ (Ne.symm hnp)]
      exact hlive
    · rw [State.setProc_of_ne _ (Ne.symm hnp)]
      exact hhome
    · simp [State.idup, State.setProc_of_ne _ (Ne.symm hnp), h.files, htasks, Task.files,
        Process.files]
    · simp [State.idup, State.setProc_of_ne _ (Ne.symm hnp), h.ends, htasks, Task.ends,
        Process.ends]
    · simp [State.idup, State.setProc_of_ne _ (Ne.symm hnp), h.inodes, htasks, Task.inodes,
        Process.inodes, hcwd, eq_comm (a := i)]

/-- Nothing but the tasks of the process changes. -/
theorem Inv.retask (h : Inv s) (hlive : (s.proc p).Live)
    (hfills : ∀ g, ∀ t ∈ (s.proc p).tasks, ¬ t.Fills g)
    (hnew : ∀ t ∈ new, ∀ np i, t ≠ .forkFile np i) (hordered : (s.setTasks p new).Ordered p new)
    (hfiles : ∀ f, total Task.files new f = total Task.files (s.proc p).tasks f)
    (hends : ∀ e, total Task.ends new e = total Task.ends (s.proc p).tasks e)
    (hinodes : ∀ i, total Task.inodes new i = total Task.inodes (s.proc p).tasks i) :
    Inv (s.setTasks p new) := by
  refine h.advance hlive (fun q _ hq => (hq rfl).elim) (not_forkFile hnew) (fun _ => .inl rfl)
    (fun g hg => (hg rfl).elim) (fun g _ _ t ht hg => (hfills g t ht hg).elim) hlive
    ((h.placed p).home hlive) hordered (fun g => ?_) (fun e => ?_) fun i => ?_
  · rw [State.fileGap_setTasks, h.files, hfiles, sub_self, sub_zero]
  · rw [State.endGap_setTasks, h.ends, hends, sub_self, sub_zero]
  · rw [State.inodeGap_setTasks, h.inodes, hinodes, sub_self, sub_zero]

/-- A turn of the loop of `exit`. -/
theorem Inv.exitFile (h : Inv s) {j : ℕ} (htasks : (s.proc p).tasks = [.exitFile j])
    (hready : s.Ready p (.exitFile j)) :
    ∃ s₁ new, s.exitFile p j = some (s₁, new) ∧ Inv (s₁.setTasks p new) := by
  have hmem : .exitFile j ∈ (s.proc p).tasks := htasks ▸ List.mem_cons_self
  have hlive := h.live hmem
  have hhome := (h.placed p).home hlive
  have hfills (g : FilePtr) (t : Task) (ht : t ∈ (s.proc p).tasks) : ¬ t.Fills g := by
    rw [htasks] at ht
    rw [List.mem_singleton.mp ht]
    exact id
  have hretask {new : List Task} (hnew : ∀ t ∈ new, ∀ np i, t ≠ .forkFile np i)
      (hordered : (s.setTasks p new).Ordered p new)
      (htotal : (∀ f, total Task.files new f = 0) ∧ (∀ e, total Task.ends new e = 0) ∧
        ∀ i, total Task.inodes new i = 0) : Inv (s.setTasks p new) := by
    obtain ⟨hfiles, hends, hinodes⟩ := htotal
    refine h.retask hlive hfills hnew hordered (fun g => ?_) (fun e => ?_) fun i => ?_
    · rw [hfiles, htasks]
      rfl
    · rw [hends, htasks]
      rfl
    · rw [hinodes, htasks]
      rfl
  unfold State.exitFile
  split_ifs with hj
  · cases hslot : (s.proc p).ofile ⟨j, hj⟩ with
    | none =>
      refine ⟨s, _, rfl, hretask (by simp) (.single ?_) ?_⟩
      · intro fd hfd
        rw [State.setTasks_self]
        rcases Nat.lt_succ_iff_lt_or_eq.mp hfd with hlt | heq
        · exact hready fd hlt
        · obtain rfl : fd = ⟨j, hj⟩ := Fin.ext heq
          exact hslot
      · simp [Task.files, Task.ends, Task.inodes]
    | some f =>
      refine ⟨s, _, rfl, hretask (by simp)
        (State.Ordered.cons (.single ⟨?_, fun fd hfd => ?_⟩) trivial) ?_⟩
      · rwa [State.setTasks_self]
      · rw [State.setTasks_self]
        exact hready fd hfd
      · simp [Task.files, Task.ends, Task.inodes]
  · obtain ⟨cwd, hsome⟩ := Option.isSome_iff_exists.mp hhome
    rw [hsome, Option.map_some]
    refine ⟨s, _, rfl, hretask (by simp)
      (State.Ordered.cons (.single ⟨?_, fun fd => ?_⟩) trivial) ?_⟩
    · rwa [State.setTasks_self]
    · rw [State.setTasks_self]
      exact hready fd (by omega)
    · simp [Task.files, Task.ends, Task.inodes]

/-- `exit`, clearing a descriptor after `fileclose`. -/
theorem Inv.exitSlot (h : Inv s) {fd : Fd} (htasks : (s.proc p).tasks = [.exitSlot fd f])
    (hready : s.Ready p (.exitSlot fd f)) :
    Inv ((s.setFd p fd none).setTasks p [.exitFile (fd + 1)]) := by
  have hmem : .exitSlot fd f ∈ (s.proc p).tasks := htasks ▸ List.mem_cons_self
  have hlive := h.live hmem
  obtain ⟨hfd, hfree⟩ := hready
  refine h.advance hlive (fun q hq hchanged => ?_) (not_forkFile (by simp)) (fun _ => .inl rfl)
    (fun g hg => (hg rfl).elim) (fun g _ _ t ht hfills => ?_) ?_ ?_ (.single ?_) (fun g => ?_)
    (fun e => ?_) fun i => ?_
  · rw [State.setFd_of_ne _ _ hq] at hchanged
    exact (hchanged rfl).elim
  · rw [htasks] at ht
    rw [List.mem_singleton.mp ht] at hfills
    exact hfills.elim
  · rw [State.setFd_self]
    exact hlive
  · rw [State.setFd_self]
    exact (h.placed p).home hlive
  · intro fd' hfd'
    rw [State.setTasks_self, State.setFd_self]
    dsimp only
    by_cases heq : fd' = fd
    · rw [heq, Function.update_self]
    · have hval := Fin.val_ne_of_ne heq
      rw [Function.update_of_ne heq]
      exact hfree fd' (Fin.lt_def.mpr (by omega))
  · simp [h.files, htasks, Task.files, hfd, Pi.single_apply, eq_comm (a := g)]
  · simp [h.ends, htasks, Task.ends]
  · simp [h.inodes, htasks, Task.inodes]

/-- `sys_chdir`, the new directory after `iput` of the old one. -/
theorem Inv.setCwd (h : Inv s) {ip old : InodePtr} (htasks : (s.proc p).tasks = [.setCwd ip old])
    (hready : s.Ready p (.setCwd ip old)) :
    Inv ((s.setProc p { s.proc p with cwd := some ip }).setTasks p []) := by
  have hmem : .setCwd ip old ∈ (s.proc p).tasks := htasks ▸ List.mem_cons_self
  have hlive := h.live hmem
  have hcwd : (s.proc p).cwd = some old := hready
  refine h.advance hlive (fun q hq hchanged => ?_) (not_forkFile (by simp)) (fun _ => .inl rfl)
    (fun g hg => (hg rfl).elim) (fun g _ _ t ht hfills => ?_) ?_ ?_ .nil (fun g => ?_)
    (fun e => ?_) fun i => ?_
  · rw [State.setProc_of_ne _ hq] at hchanged
    exact (hchanged rfl).elim
  · rw [htasks] at ht
    rw [List.mem_singleton.mp ht] at hfills
    exact hfills.elim
  · rw [State.setProc_self]
    exact hlive
  · rw [State.setProc_self]
    rfl
  · simp [h.files, htasks, Task.files, Process.files]
  · simp [h.ends, htasks, Task.ends, Process.ends]
  · simp only [State.inodeGap_setTasks, State.inodeGap_setProc, State.setProc_self, h.inodes,
      htasks, Process.inodes, hcwd, total_cons, total_nil, Task.inodes, Pi.sub_apply,
      Pi.single_apply, Option.some.injEq, eq_comm (a := i)]
    split_ifs <;> omega

/-- `exit`, from clearing the directory on. -/
theorem Inv.exitCwd (h : Inv s) {old : InodePtr} (htasks : (s.proc p).tasks = [.exitCwd old])
    (hready : s.Ready p (.exitCwd old)) :
    Inv ((s.setProc p { s.proc p with cwd := none, state := .zombie }).setTasks p []) := by
  have hmem : .exitCwd old ∈ (s.proc p).tasks := htasks ▸ List.mem_cons_self
  have hlive := h.live hmem
  obtain ⟨hcwd, hfree⟩ := hready
  have hself := State.setTasks_self
    (s := s.setProc p { s.proc p with cwd := none, state := .zombie }) p []
  rw [State.setProc_self] at hself
  refine h.next hlive ⟨fun g hg => (hg rfl).elim, fun g _ _ t ht hfills => ?_,
    fun q hq hchanged => ?_, fun np i hi => ?_, fun _ => .inl rfl, ?_, ?_, ?_, ?_⟩ (fun g => ?_)
    (fun e => ?_) fun i => ?_
  · rw [htasks] at ht
    rw [List.mem_singleton.mp ht] at hfills
    exact hfills.elim
  · rw [State.setTasks_of_ne _ hq, State.setProc_of_ne _ hq] at hchanged
    exact (hchanged rfl).elim
  · rw [hself] at hi
    cases hi
  · rw [hself]
    exact fun _ => rfl
  · rw [hself]
    exact fun _ => ⟨hfree, rfl⟩
  · rw [hself]
    intro hlive
    simp [Process.Live] at hlive
  · rw [hself]
    exact .nil
  · simp [h.files, htasks, Task.files, Process.files]
  · simp [h.ends, htasks, Task.ends, Process.ends]
  · simp [h.inodes, htasks, Task.inodes, Process.inodes, hcwd, Pi.single_apply,
      eq_comm (a := i)]

/-- Every task can be done, and keeps the invariant. -/
theorem Inv.runTask (h : Inv s) (htasks : (s.proc p).tasks = t :: rest) (o : Option PipePtr)
    (ho : ∀ page ∈ o, s.pipes page = none) :
    ∃ s₁ new, s.runTask p o t = some (s₁, new) ∧ Inv (s₁.setTasks p (new ++ rest)) := by
  have hordered := (h.placed p).ordered
  rw [htasks] at hordered
  rcases hordered.head with ⟨hrelease, hrest⟩ | ⟨rfl, hready⟩
  · cases t with
    | fileclose f => exact h.fileclose htasks hrest
    | pipeclose pipe writable =>
      obtain ⟨s₁, heq, hinv⟩ := h.pipeclose htasks hrest
      exact ⟨s₁, [], congrArg (Option.map (·, [])) heq, hinv⟩
    | iput ip => exact ⟨_, [], rfl, h.iput htasks hrest⟩
    | _ => exact hrelease.elim
  · simp only [List.append_nil]
    cases t with
    | filedup f =>
      obtain ⟨s₁, heq, hinv⟩ := h.filedup htasks hready
      exact ⟨s₁, [], congrArg (Option.map (·, [])) heq, hinv⟩
    | pipealloc rf => exact h.pipealloc htasks hready
    | pipePage rf wf => exact h.pipePage htasks hready o ho
    | openFile ip omode => exact ⟨_, _, rfl, h.openFile htasks⟩
    | openFill f ip omode => exact ⟨_, _, rfl, h.openFill htasks hready⟩
    | forkFile np i => exact h.forkFile htasks hready
    | exitFile fd => exact h.exitFile htasks hready
    | exitSlot fd f => exact ⟨_, _, rfl, h.exitSlot htasks hready⟩
    | exitCwd old => exact ⟨_, _, rfl, h.exitCwd htasks hready⟩
    | setCwd ip old => exact ⟨_, _, rfl, h.setCwd htasks hready⟩
    | fileclose | pipeclose | iput => exact hready.elim

/-! ## The calls -/

/-- A slot that is not being set up is nobody's child. -/
theorem Inv.not_child {np : Slot} (h : Inv s) (hstate : (s.proc np).state ≠ .embryo) (r : Slot)
    (i : ℕ) : .forkFile np i ∉ (s.proc r).tasks := by
  intro hmem
  rcases (h.placed r).ordered.ready hmem with hrelease | hready
  · exact hrelease
  · exact hstate hready.2.1

/-- The state of a slot without a process changes. -/
theorem Inv.relabel (h : Inv s) (hlive : (s.proc p).Live) (hidle : (s.proc p).tasks = [])
    {np : Slot} {state : ProcState}
    (hold : (s.proc np).state = .unused ∨ (s.proc np).state = .zombie)
    (hnew : state = .unused ∨ state = .embryo)
    (ht : ∀ t ∈ new, t = .forkFile np 0 ∧ state = .embryo)
    (hlen : new = [] ∨ new = [.forkFile np 0]) :
    Inv ((s.setProc np { s.proc np with state := state }).setTasks p new) := by
  have hdead : ¬ (s.proc np).Live := by
    rintro (h | h | h) <;> rw [h] at hold <;> simp at hold
  have hidle' := (h.placed np).idle hdead
  obtain ⟨hfree, hcwd⟩ := (h.placed np).bare hold
  have hnp : p ≠ np := by
    rintro rfl
    exact hdead hlive
  have hembryo : (s.proc np).state ≠ .embryo := by
    rintro heq
    rw [heq] at hold
    simp at hold
  refine h.advance hlive (fun q hq hchanged => ?_) (fun np' i hi => ?_) (fun _ => .inl rfl)
    (fun g hg => (hg rfl).elim) (fun g _ _ t ht' _ => ?_) ?_ ?_ ?_ (fun g => ?_) (fun e => ?_)
    fun i => ?_
  · by_cases hqnp : q = np
    · subst hqnp
      have hproc : ((s.setProc q { s.proc q with state := state }).setTasks p new).proc q =
          { s.proc q with state := state } := by
        rw [State.setTasks_of_ne _ hq, State.setProc_self]
      refine ⟨⟨?_, ?_, ?_, ?_⟩, hidle', ?_, fun r _ i => h.not_child hembryo r i⟩
      · rw [hproc]
        exact fun _ => hidle'
      · rw [hproc]
        exact fun _ => ⟨hfree, hcwd⟩
      · rw [hproc]
        rintro (h | h | h) <;> subst h <;> simp at hnew
      · rw [hproc]
        dsimp only
        rw [hidle']
        exact .nil
      · rw [State.setProc_self]
        exact hidle'
    · rw [State.setProc_of_ne _ hqnp] at hchanged
      exact (hchanged rfl).elim
  · obtain ⟨rfl, -⟩ := Task.forkFile.inj (ht _ hi).1
    exact fun r _ j => h.not_child hembryo r j
  · rw [hidle] at ht'
    cases ht'
  · rw [State.setProc_of_ne _ hnp]
    exact hlive
  · rw [State.setProc_of_ne _ hnp]
    exact (h.placed p).home hlive
  · rcases hlen with rfl | rfl
    · exact .nil
    · obtain ⟨-, rfl⟩ := ht _ List.mem_cons_self
      refine .single ?_
      rw [State.Ready, State.setTasks_of_ne _ (Ne.symm hnp), State.setProc_self]
      exact ⟨Ne.symm hnp, rfl, hcwd, fun fd _ => hfree fd⟩
  all_goals rcases hlen with rfl | rfl
  · simp [State.setProc_of_ne _ hnp, h.files, hidle, Process.files]
  · simp [State.setProc_of_ne _ hnp, h.files, hidle, Process.files, Task.files]
  · simp [State.setProc_of_ne _ hnp, h.ends, hidle, Process.ends]
  · simp [State.setProc_of_ne _ hnp, h.ends, hidle, Process.ends, Task.ends]
  · simp [State.setProc_of_ne _ hnp, h.inodes, hidle, Process.inodes]
  · simp [State.setProc_of_ne _ hnp, h.inodes, hidle, Process.inodes, Task.inodes]

section Calls

variable (h : Inv s) (hlive : (s.proc p).Live) (hidle : (s.proc p).tasks = [])

/-- The file of a descriptor that `argfd` accepts. -/
theorem argfd_some {fd : ℤ} {fd' : Fd} (hsome : s.argfd p fd = some (fd', f)) :
    (s.proc p).ofile fd' = some f := by
  unfold State.argfd at hsome
  split_ifs at hsome with hfd
  obtain ⟨g, hg, heq⟩ := Option.map_eq_some_iff.mp hsome
  obtain ⟨rfl, rfl⟩ := Prod.mk.inj heq
  exact hg

include h hlive hidle

/-- A call that returns at once. -/
theorem Inv.return : Inv (s.setTasks p []) := by
  refine h.retask hlive (fun g t ht => ?_) (by simp) .nil (fun g => ?_) (fun e => ?_) fun i => ?_
  · rw [hidle] at ht
    cases ht
  all_goals rw [hidle]

/-- A call that finds an inode, and puts it or goes on. -/
theorem Inv.found {ip : InodePtr} {t : Task} (hfork : ∀ np i, t ≠ .forkFile np i)
    (hordered : ((s.idup ip).setTasks p [t]).Ordered p [t])
    (ht : (∀ g, t.files g = 0) ∧ (∀ e, t.ends e = 0) ∧ t.inodes = Pi.single ip 1) :
    Inv ((s.idup ip).setTasks p [t]) := by
  obtain ⟨hfiles, hends, hinodes⟩ := ht
  unfold State.idup at hordered ⊢
  refine h.advance hlive (fun q _ hq => (hq rfl).elim) (not_forkFile (by simpa using hfork))
    (fun _ => .inl rfl) (fun g hg => (hg rfl).elim) (fun g _ _ t' ht' _ => ?_) hlive
    ((h.placed p).home hlive) hordered (fun g => ?_) (fun e => ?_) fun i => ?_
  · rw [hidle] at ht'
    cases ht'
  · simp [h.files, hidle, hfiles]
  · simp [h.ends, hidle, hends]
  · simp [h.inodes, hidle, hinodes, Pi.single_apply]

/-- The first section of `sys_dup`. -/
theorem Inv.dup (fd : ℤ) :
    ∃ s₁ new, s.call p (.dup fd) = some (s₁, new) ∧ Inv (s₁.setTasks p new) := by
  unfold State.call
  dsimp only
  cases harg : s.argfd p fd with
  | none => exact ⟨s, [], rfl, h.return hlive hidle⟩
  | some pair =>
    obtain ⟨a, f⟩ := pair
    have ha := argfd_some harg
    dsimp only
    rcases fdalloc_cases s p f with hnone | ⟨b, hb, hsome⟩
    · rw [hnone]
      exact ⟨s, [], rfl, h.return hlive hidle⟩
    · have hab : a ≠ b := by
        rintro rfl
        rw [ha] at hb
        cases hb
      rw [hsome]
      refine ⟨_, _, rfl, h.advance hlive (fun q hq hchanged => ?_) (not_forkFile (by simp))
        (fun _ => .inl rfl) (fun g hg => (hg rfl).elim) (fun g _ _ t ht _ => ?_) ?_ ?_
        (.single ⟨a, b, hab, ?_, ?_⟩) (fun g => ?_) (fun e => ?_) fun i => ?_⟩
      · rw [State.setFd_of_ne _ _ hq] at hchanged
        exact (hchanged rfl).elim
      · rw [hidle] at ht
        cases ht
      · rw [State.setFd_self]
        exact hlive
      · rw [State.setFd_self]
        exact (h.placed p).home hlive
      · simp [hab, ha]
      · simp
      · simp [h.files, hidle, Task.files, hb, Pi.single_apply, eq_comm (a := g)]
      · simp [h.ends, hidle, Task.ends]
      · simp [h.inodes, hidle, Task.inodes]

/-- The first section of `sys_close`. -/
theorem Inv.close (fd : ℤ) :
    ∃ s₁ new, s.call p (.close fd) = some (s₁, new) ∧ Inv (s₁.setTasks p new) := by
  unfold State.call
  dsimp only
  cases harg : s.argfd p fd with
  | none => exact ⟨s, [], rfl, h.return hlive hidle⟩
  | some pair =>
    obtain ⟨a, f⟩ := pair
    have ha := argfd_some harg
    refine ⟨_, _, rfl, h.advance hlive (fun q hq hchanged => ?_) (not_forkFile (by simp))
      (fun _ => .inl rfl) (fun g hg => (hg rfl).elim) (fun g _ _ t ht _ => ?_) ?_ ?_
      (State.Ordered.nil.cons trivial) (fun g => ?_) (fun e => ?_) fun i => ?_⟩
    · rw [State.setFd_of_ne _ _ hq] at hchanged
      exact (hchanged rfl).elim
    · rw [hidle] at ht
      cases ht
    · rw [State.setFd_self]
      exact hlive
    · rw [State.setFd_self]
      exact (h.placed p).home hlive
    · simp [h.files, hidle, Task.files, ha, Pi.single_apply, eq_comm (a := g)]
    · simp [h.ends, hidle, Task.ends]
    · simp [h.inodes, hidle, Task.inodes]

/-- The first section of `sys_pipe`. -/
theorem Inv.pipe :
    ∃ s₁ new, s.call p .pipe = some (s₁, new) ∧ Inv (s₁.setTasks p new) := by
  unfold State.call
  dsimp only
  rcases filealloc_cases s with hnone | ⟨f, href, hsome⟩
  · rw [hnone]
    exact ⟨s, [], rfl, h.return hlive hidle⟩
  · have huntyped := h.untyped f href
    rw [hsome]
    refine ⟨_, _, rfl, h.advance hlive (fun q _ hq => (hq rfl).elim) (not_forkFile (by simp))
      (fun _ => .inl rfl) (fun g hg => ?_) (fun g _ _ t ht _ => ?_) hlive
      ((h.placed p).home hlive) (.single ?_) (fun g => ?_) (fun e => ?_) fun i => ?_⟩
    · obtain rfl := eq_of_changed hg
      simp only [State.setFile_file, Function.update_self]
      exact ⟨.inr href, by simp, fun _ => .inr ⟨trivial, _, List.mem_cons_self, rfl⟩⟩
    · rw [hidle] at ht
      cases ht
    · simp [State.Ready, huntyped]
    · simp [h.files, hidle, Task.files, Pi.single_apply, href]
    · simp [h.ends, hidle, Task.ends, File.ends_ref]
    · simp [h.inodes, hidle, Task.inodes, File.inodes_ref]

/-- The first section of `sys_open`. -/
theorem Inv.openat (o : Option InodePtr) (isDir : Bool) (omode : UInt32) :
    ∃ s₁ new, s.call p (.openat o isDir omode) = some (s₁, new) ∧ Inv (s₁.setTasks p new) := by
  unfold State.call
  cases o with
  | none => exact ⟨s, [], rfl, h.return hlive hidle⟩
  | some ip =>
    dsimp only
    split_ifs
    · exact ⟨_, _, rfl, h.found hlive hidle (by simp) (State.Ordered.nil.cons trivial)
        ⟨fun _ => rfl, fun _ => rfl, rfl⟩⟩
    · exact ⟨_, _, rfl, h.found hlive hidle (by simp) (.single trivial)
        ⟨fun _ => rfl, fun _ => rfl, rfl⟩⟩

/-- The first section of `sys_chdir`. -/
theorem Inv.chdir (o : Option InodePtr) (isDir : Bool) :
    ∃ s₁ new, s.call p (.chdir o isDir) = some (s₁, new) ∧ Inv (s₁.setTasks p new) := by
  have hhome := (h.placed p).home hlive
  unfold State.call
  cases o with
  | none => exact ⟨s, [], rfl, h.return hlive hidle⟩
  | some ip =>
    dsimp only
    split_ifs
    · obtain ⟨old, hold⟩ := Option.isSome_iff_exists.mp hhome
      rw [hold, Option.map_some]
      refine ⟨_, _, rfl, h.advance hlive (fun q _ hq => (hq rfl).elim) (not_forkFile (by simp))
        (fun _ => .inl rfl) (fun g hg => (hg rfl).elim) (fun g _ _ t ht _ => ?_) hlive hhome
        (State.Ordered.cons (.single ?_) trivial) (fun g => ?_) (fun e => ?_) fun i => ?_⟩
      · rw [hidle] at ht
        cases ht
      · rw [State.Ready, State.setTasks_self]
        exact hold
      · simp [State.idup, h.files, hidle, Task.files]
      · simp [State.idup, h.ends, hidle, Task.ends]
      · simp [State.idup, h.inodes, hidle, Task.inodes, Pi.single_apply]
    · exact ⟨_, _, rfl, h.found hlive hidle (by simp) (State.Ordered.nil.cons trivial)
        ⟨fun _ => rfl, fun _ => rfl, rfl⟩⟩

/-- The first section of `fork`. -/
theorem Inv.fork (copied : Bool) :
    ∃ s₁ new, s.call p (.fork copied) = some (s₁, new) ∧ Inv (s₁.setTasks p new) := by
  unfold State.call
  dsimp only
  cases hfind : s.allocproc with
  | none => exact ⟨s, [], rfl, h.return hlive hidle⟩
  | some np =>
    have hstate := List.find?_some hfind
    dsimp only
    split_ifs
    · exact ⟨_, _, rfl, h.relabel hlive hidle (.inl (of_decide_eq_true hstate)) (.inr rfl)
        (by simp) (.inr rfl)⟩
    · exact ⟨s, [], rfl, h.return hlive hidle⟩

/-- The first section of `exit`. -/
theorem Inv.exit {s₁ : State} (hcall : s.call p .exit = some (s₁, new)) :
    Inv (s₁.setTasks p new) := by
  unfold State.call at hcall
  dsimp only at hcall
  split_ifs at hcall
  obtain ⟨rfl, rfl⟩ := Prod.mk.inj (Option.some.inj hcall)
  refine h.retask hlive (fun g t ht => ?_) (by simp) (.single fun fd hfd => ?_) (fun g => ?_)
    (fun e => ?_) fun i => ?_
  · rw [hidle] at ht
    cases ht
  · exact absurd hfd (Nat.not_lt_zero _)
  all_goals
    rw [hidle]
    rfl

/-- The section of `wait` that frees a child. -/
theorem Inv.wait {s₁ : State} {np : Slot} (hcall : s.call p (.wait np) = some (s₁, new)) :
    Inv (s₁.setTasks p new) := by
  unfold State.call at hcall
  dsimp only at hcall
  split_ifs at hcall with hstate
  obtain ⟨rfl, rfl⟩ := Prod.mk.inj (Option.some.inj hcall)
  exact h.relabel hlive hidle (.inr hstate) (.inl rfl) (by simp) (.inl rfl)

/-- The first section of a call, unless it is the `exit` of init or `wait` finds no zombie. -/
theorem Inv.call (c : Call) (hexit : c = .exit → p ≠ s.initproc)
    (hwait : ∀ np, c = .wait np → (s.proc np).state = .zombie) :
    ∃ s₁ new, s.call p c = some (s₁, new) ∧ Inv (s₁.setTasks p new) := by
  cases c with
  | dup fd => exact h.dup hlive hidle fd
  | close fd => exact h.close hlive hidle fd
  | pipe => exact h.pipe hlive hidle
  | openat o isDir omode => exact h.openat hlive hidle o isDir omode
  | chdir o isDir => exact h.chdir hlive hidle o isDir
  | fork copied => exact h.fork hlive hidle copied
  | exit =>
    have hcall : s.call p .exit = some (s, [.exitFile 0]) := if_neg (hexit rfl)
    exact ⟨_, _, hcall, h.exit hlive hidle hcall⟩
  | wait np =>
    have hcall : s.call p (.wait np) =
        some (s.setProc np { s.proc np with state := .unused }, []) := if_pos (hwait np rfl)
    exact ⟨_, _, hcall, h.wait hlive hidle hcall⟩

end Calls

end Shares

/-- A page that `kalloc` returns is not a pipe; without `kalloc` there is none. -/
theorem runTask_page {s : State} {p : Slot} {o : Option PipePtr} {t : Task} {r : State × List Task}
    (hrun : s.runTask p o t = some r) :
    (∀ page ∈ o, s.pipes page = none) ∨ s.runTask p o t = s.runTask p none t := by
  cases t with
  | pipePage rf wf =>
    refine .inl fun page hpage => ?_
    obtain rfl : o = some page := hpage
    by_contra hused
    have hsome := Option.isSome_iff_ne_none.mpr hused
    simp [State.runTask, State.pipePage, hsome] at hrun
  | _ => exact .inr rfl

/-! ## Runs -/

/-- Every step keeps the invariant. -/
theorem Inv.step {s s' : State} {a : Action} (h : Inv s) (hstep : step s a = some s') :
    Inv s' := by
  cases a with
  | call p c =>
    unfold OpenFiles.step at hstep
    dsimp only at hstep
    split_ifs at hstep with hready
    obtain ⟨hlive, hidle⟩ := hready
    obtain ⟨⟨s₁, new⟩, hcall, rfl⟩ := Option.map_eq_some_iff.mp hstep
    obtain ⟨s₂, new', heq, hinv⟩ := h.call hlive hidle c
      (fun hc hinit => by
        rw [hc, hinit, State.call, if_pos rfl] at hcall
        cases hcall)
      (fun np hc => by
        by_contra hzombie
        rw [hc, State.call, if_neg hzombie] at hcall
        cases hcall)
    rw [hcall] at heq
    obtain ⟨rfl, rfl⟩ := Prod.mk.inj (Option.some.inj heq)
    exact hinv
  | run p o =>
    unfold OpenFiles.step at hstep
    dsimp only at hstep
    cases htasks : (s.proc p).tasks with
    | nil =>
      rw [htasks] at hstep
      cases hstep
    | cons t rest =>
      rw [htasks] at hstep
      obtain ⟨⟨s₁, new⟩, hrun, rfl⟩ := Option.map_eq_some_iff.mp hstep
      obtain ⟨s₂, new', heq, hinv⟩ : ∃ s₂ new', s.runTask p o t = some (s₂, new') ∧
          Inv (s₂.setTasks p (new' ++ rest)) := by
        rcases runTask_page hrun with ho | hnone
        · exact h.runTask htasks o ho
        · rw [hnone]
          exact h.runTask htasks none (by simp)
      rw [hrun] at heq
      obtain ⟨rfl, rfl⟩ := Prod.mk.inj (Option.some.inj heq)
      exact hinv

section Boot

variable (initproc : Slot) (root : InodePtr)

/-- The tables without any process. -/
def empty : State :=
  ⟨fun _ => ⟨.none, 0, false, false, 0, 0, 0⟩, fun _ => none, fun _ => 0, fun _ => .free, initproc⟩

/-- After boot, init has the root for its directory, and nothing is open. -/
theorem boot_eq : boot initproc root = ((empty initproc).setIref root 1).setProc initproc
    ⟨.runnable, fun _ => none, some root, []⟩ := rfl

/-- After boot only init is live. -/
theorem boot_proc (p : Slot) : ((boot initproc root).proc p).tasks = [] ∧
    (∀ fd, ((boot initproc root).proc p).ofile fd = none) ∧
    (((boot initproc root).proc p).Live ∧ ((boot initproc root).proc p).cwd = some root ∨
      ((boot initproc root).proc p).state = .unused ∧
        ((boot initproc root).proc p).cwd = none) := by
  rw [boot_eq]
  by_cases hp : p = initproc
  · rw [hp, State.setProc_self]
    exact ⟨rfl, fun _ => rfl, .inl ⟨.inr (.inl rfl), rfl⟩⟩
  · rw [State.setProc_of_ne _ hp]
    exact ⟨rfl, fun _ => rfl, .inr ⟨rfl, rfl⟩⟩

/-- The invariant holds after boot. -/
theorem inv_boot : Inv (boot initproc root) where
  files f := by
    have hzero : (empty initproc).fileGap f = 0 := by
      simp [State.fileGap, gap, empty, Process.files, Process.free, descriptors_none]
    have hproc : (empty initproc).proc initproc = .free := rfl
    simp [boot_eq, hzero, hproc, Process.files, Process.free]
  ends e := by
    have hzero : (empty initproc).endGap e = 0 := by
      simp [State.endGap, gap, empty, Process.ends, Process.free, endOpen, File.ends]
    have hproc : (empty initproc).proc initproc = .free := rfl
    simp [boot_eq, hzero, hproc, Process.ends, Process.free]
  inodes i := by
    have hzero : (empty initproc).inodeGap i = 0 := by
      simp [State.inodeGap, gap, empty, Process.inodes, Process.free, File.inodes]
    have hproc : (empty initproc).proc initproc = .free := rfl
    have hiref : (empty initproc).iref root = 0 := rfl
    simp [boot_eq, hzero, hproc, hiref, Process.inodes, Process.free, eq_comm (a := i)]
  untyped _ _ := rfl
  filled _ _ := .inl rfl
  kept _ := by
    rintro ⟨⟩
  placed p := by
    obtain ⟨htasks, hfree, hstate⟩ := boot_proc initproc root p
    refine ⟨fun _ => htasks, fun hbare => ⟨hfree, ?_⟩, fun hlive => ?_, ?_⟩
    · rcases hstate with ⟨hlive, -⟩ | ⟨-, hcwd⟩
      · rcases hlive with h | h | h <;> rw [h] at hbare <;> simp at hbare
      · exact hcwd
    · rcases hstate with ⟨-, hcwd⟩ | ⟨hunused, -⟩
      · rw [hcwd]
        rfl
      · rcases hlive with h | h | h <;> rw [h] at hunused <;> cases hunused
    · rw [htasks]
      exact .nil
  apart p q np i j hi := by
    rw [(boot_proc initproc root p).1] at hi
    cases hi

end Boot

/-- The invariant holds in every state. -/
theorem inv_of_run {initproc : Slot} {root : InodePtr} {trace : List Action} {s : State}
    (hrun : GuardedRun.Run step GuardedRun.free (boot initproc root) trace s) : Inv s :=
  hrun.invariant (I := fun _ s => Inv s) (inv_boot initproc root) fun _ _ _ _ h _ hstep =>
    h.step hstep

/-- The end of a pipe that a file is has not been closed. -/
theorem Inv.end_of_file {s : State} (h : Inv s) {f : FilePtr} (htype : (s.file f).type = .pipe) :
    endOpen (s.pipes (s.file f).pipe) (s.file f).writable = 1 := by
  have hle := h.ends_le (.inr f) ((s.file f).pipe, (s.file f).writable)
  simp only [Sum.elim_inr, File.ends, if_pos htype, Pi.single_eq_same] at hle
  exact le_antisymm (endOpen_le_one _ _) hle

/-- How often something holds of a descriptor, a file or a process. -/
theorem sum_eq_card {α : Type*} [Fintype α] (P : α → Prop) [DecidablePred P] :
    ∑ a, (if P a then (1 : ℤ) else 0) = ({a | P a} : Finset α).card := by
  rw [Finset.sum_boole]

/-- References balance in every run, however the calls of the processes interleave. No call meets a
panic, a null pointer or a freed pipe, in its first section or in a later one, other than the `exit`
of init; a `wait` without a zombie frees nothing. The end of a pipe that a file is, is open. What
a process has a descriptor for is in use and has a type, except during the call that gives it one.
While no call is under way, a file has one reference for each descriptor, an end of a pipe is open
as long as exactly one file is that end, and an inode has one reference for each current directory
and each file that it belongs to. -/
theorem references_balance {initproc : Slot} {root : InodePtr} {trace : List Action} {s : State}
    (hrun : GuardedRun.Run step GuardedRun.free (boot initproc root) trace s) :
    (∀ p c, (s.proc p).Live → (s.proc p).tasks = [] → (c = .exit → p ≠ s.initproc) →
      (∀ np, c = .wait np → (s.proc np).state = .zombie) → (step s (.call p c)).isSome) ∧
    (∀ p o, (s.proc p).tasks ≠ [] → (∀ page ∈ o, s.pipes page = none) →
      (step s (.run p o)).isSome) ∧
    (∀ f, (s.file f).type = .pipe →
      endOpen (s.pipes (s.file f).pipe) (s.file f).writable = 1) ∧
    (∀ p fd f, (s.proc p).tasks = [] → (s.proc p).ofile fd = some f →
      0 < (s.file f).ref ∧ (s.file f).type ≠ .none) ∧
    ((∀ p, (s.proc p).tasks = []) →
      (∀ f, (s.file f).ref =
        ({x | (s.proc x.1).ofile x.2 = some f} : Finset (Slot × Fd)).card) ∧
      (∀ f, (s.file f).ref = 0 ↔ (s.file f).type = .none) ∧
      (∀ pipe w, endOpen (s.pipes pipe) w = ({f | (s.file f).type = .pipe ∧
        (s.file f).pipe = pipe ∧ (s.file f).writable = w} : Finset FilePtr).card) ∧
      ∀ i, s.iref i = ({p | (s.proc p).cwd = some i} : Finset Slot).card +
        ({f | (s.file f).type = .inode ∧ (s.file f).ip = i} : Finset FilePtr).card) := by
  have h := inv_of_run hrun
  refine ⟨fun p c hlive hidle hexit hwait => ?_, fun p o htasks ho => ?_,
    fun f => h.end_of_file, fun p fd f hidle hfd => ?_,
    fun hidle => ⟨fun f => ?_, fun f => ⟨h.untyped f, fun hnone => ?_⟩, fun pipe w => ?_,
      fun i => ?_⟩⟩
  · obtain ⟨s₁, new, hsome, -⟩ := h.call hlive hidle c hexit hwait
    simp [step, hlive, hidle, hsome]
  · obtain ⟨t, rest, heq⟩ := List.exists_cons_of_ne_nil htasks
    obtain ⟨s₁, new, hsome, -⟩ := h.runTask heq o ho
    simp [step, heq, hsome]
  · have hpos : 0 < (s.proc p).files f := by
      have hone := one_le_descriptors hfd
      unfold Process.files
      rw [hidle, total_nil]
      omega
    refine ⟨lt_of_lt_of_le hpos (h.files_le p f), h.type_ne_none hpos fun t ht => ?_⟩
    rw [hidle] at ht
    cases ht
  · have hgap := h.files f
    unfold State.fileGap gap at hgap
    dsimp only at hgap
    have hfiles (p : Slot) : (s.proc p).files f =
        ∑ fd, if (s.proc p).ofile fd = some f then 1 else 0 := by
      unfold Process.files
      rw [hidle p, total_nil, add_zero]
      rfl
    rw [← sum_eq_card, Fintype.sum_prod_type, ← Finset.sum_congr rfl fun p _ => hfiles p]
    omega
  · rcases h.filled f hnone with href | ⟨-, p, t, ht, -⟩
    · exact href
    · rw [hidle p] at ht
      cases ht
  · have hgap := h.ends (pipe, w)
    unfold State.endGap at hgap
    rw [gap_sum] at hgap
    unfold gap at hgap
    have hends (p : Slot) : (s.proc p).ends (pipe, w) = 0 := by
      unfold Process.ends
      rw [hidle p, total_nil]
    have hfile (f : FilePtr) : (s.file f).ends (pipe, w) =
        if (s.file f).type = .pipe ∧ (s.file f).pipe = pipe ∧ (s.file f).writable = w
        then 1 else 0 := by
      unfold File.ends
      by_cases htype : (s.file f).type = .pipe
      · simp [htype, Pi.single_apply, eq_comm (a := pipe), eq_comm (a := w)]
      · simp [htype]
    rw [← sum_eq_card, ← Finset.sum_congr rfl fun f _ => hfile f]
    rw [Finset.sum_eq_zero fun p _ => hends p] at hgap
    dsimp only at hgap
    omega
  · have hgap := h.inodes i
    unfold State.inodeGap at hgap
    rw [gap_sum] at hgap
    unfold gap at hgap
    dsimp only at hgap
    have hproc (p : Slot) : (s.proc p).inodes i = if (s.proc p).cwd = some i then 1 else 0 := by
      unfold Process.inodes
      rw [hidle p, total_nil, add_zero]
    have hfile (f : FilePtr) : (s.file f).inodes i =
        if (s.file f).type = .inode ∧ (s.file f).ip = i then 1 else 0 := by
      unfold File.inodes
      by_cases htype : (s.file f).type = .inode
      · simp [htype, Pi.single_apply, eq_comm (a := i)]
      · simp [htype]
    rw [← sum_eq_card, ← sum_eq_card, ← Finset.sum_congr rfl fun f _ => hfile f,
      ← Finset.sum_congr rfl fun p _ => hproc p]
    omega

/-- A process makes a pipe and forks; parent and child close one end each. -/
def pipeAndFork : List Action :=
  [.call 0 .pipe, .run 0 none, .run 0 (some 4096), .call 0 (.fork true)] ++
    List.replicate 17 (.run 0 none) ++
    [.call 1 (.close 0), .call 0 (.close 1), .run 0 none, .run 1 none]

/-- A process makes a pipe and forks: both hold the two ends. -/
theorem references_balance_pipe : ∃ s,
    GuardedRun.exec step GuardedRun.free [] (boot 0 0) pipeAndFork = some s ∧
    endOpen (s.pipes 4096) false = 1 ∧ 0 < (s.file 1).ref ∧
    (s.file 0).ref = ({x | (s.proc x.1).ofile x.2 = some 0} : Finset (Slot × Fd)).card := by
  have hexec : ((GuardedRun.exec step GuardedRun.free [] (boot 0 0) pipeAndFork).map fun s =>
      decide ((∀ p, (s.proc p).tasks = []) ∧ (s.proc 0).ofile 0 = some 0 ∧
        (s.proc 1).ofile 1 = some 1 ∧ (s.file 0).type = .pipe ∧ (s.file 0).pipe = 4096 ∧
        (s.file 0).writable = false)) = some true := by decide +kernel
  obtain ⟨s, hs, hd⟩ := Option.map_eq_some_iff.mp hexec
  obtain ⟨hidle, h0, h1, htype, hpipe, hread⟩ := of_decide_eq_true hd
  obtain ⟨-, -, hends, hused, hquiet⟩ := references_balance (GuardedRun.run_of_exec hs)
  have hend := hends 0 htype
  rw [hpipe, hread] at hend
  exact ⟨s, hs, hend, (hused 1 1 1 (hidle 1) h1).1, (hquiet hidle).1 0⟩

end Xv6.OpenFiles
