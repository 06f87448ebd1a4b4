import Xv6.GrepMatch
import Xv6.Lib.CString

/-!
# The lines grep reads

The loop of `grep` fills `buf` behind what is left from the reads before, prints the complete
lines that match, and moves the rest of the buffer to its start. When a read leaves no newline
in the buffer, the code forgets what it has read (`if(p == buf) m = 0`). The file settles on
which cuts of the input the output is right, and on which inputs it is right for every cut.
-/

namespace Xv6.Grep

open CString

/-- `sizeof(buf)`. -/
def bufSize : ℕ := 1024

/-- `strchr`: the address of a character, if the string has it. The string is to end within
`n` bytes, the rest of `buf`; the outer `none` means that it does not. -/
def strchr (buf : ℕ → UInt8) (s : ℕ) (c : UInt8) : ℕ → Option (Option ℕ)
  | 0 => none
  | n + 1 =>
      if buf s = 0 then some none
      else if buf s = c then some (some s)
      else strchr buf (s + 1) c n

/-- `memmove` of `ulib.c`, which copies upwards. -/
def memmove (buf : ℕ → UInt8) (dst src : ℕ) : ℕ → ℕ → UInt8
  | 0 => buf
  | n + 1 => memmove (Function.update buf dst (buf src)) (dst + 1) (src + 1) n

/-- The inner loop of `grep`, for a number of rounds: the buffer, the pointer `p` and what was
written to the standard output. -/
def lineLoop (pattern : List UInt8) : ℕ → (ℕ → UInt8) → ℕ → List UInt8 →
    Option ((ℕ → UInt8) × ℕ × List UInt8)
  | 0, _, _, _ => none
  | n + 1, buf, p, out =>
      match strchr buf p 10 (bufSize - p) with
      | none => none
      | some none => some (buf, p, out)
      | some (some q) =>
          let buf := Function.update buf q 0
          match stringAt buf p (bufSize - p) with
          | none => none
          | some line =>
              if matchRe pattern line then
                let buf := Function.update buf q 10
                lineLoop pattern n buf (q + 1)
                  (out ++ (List.range (q + 1 - p)).map fun k => buf (p + k))
              else lineLoop pattern n buf (q + 1) out

/-- The variables of `grep`, and what it has written. -/
structure State where
  /-- `buf`. -/
  buf : ℕ → UInt8
  /-- `m`. -/
  m : ℕ
  /-- The bytes written to file descriptor 1. -/
  out : List UInt8

/-- `read(fd, buf+m, sizeof(buf)-m-1)` returns these bytes, and `buf[m] = '\0'`. -/
def State.fill (s : State) (piece : List UInt8) : State :=
  { s with
    buf := Function.update
      (fun k => if s.m ≤ k ∧ k < s.m + piece.length then piece.getD (k - s.m) 0 else s.buf k)
      (s.m + piece.length) 0
    m := s.m + piece.length }

/-- The outer loop's body, for the bytes that `read` returns. -/
def body (pattern : List UInt8) (s : State) (piece : List UInt8) : Option State :=
  let s := s.fill piece
  match lineLoop pattern bufSize s.buf 0 s.out with
  | none => none
  | some (buf, p, out) =>
      let m := if p = 0 then 0 else s.m
      if 0 < m then some ⟨memmove buf 0 p (m - p), m - p, out⟩ else some ⟨buf, m, out⟩

/-- `grep`, for the pieces that the calls of `read` return before the last one returns 0. -/
def run (pattern : List UInt8) : State → List (List UInt8) → Option State
  | s, [] => some s
  | s, piece :: pieces =>
      match body pattern s piece with
      | none => none
      | some s => run pattern s pieces

/-- The pieces are possible answers of `read`: not empty, and no longer than asked for. -/
def Answers (pattern : List UInt8) : State → List (List UInt8) → Prop
  | _, [] => True
  | s, piece :: pieces =>
      piece ≠ [] ∧ piece.length ≤ bufSize - s.m - 1 ∧
        ∀ s', body pattern s piece = some s' → Answers pattern s' pieces

/-! ## Lines -/

/-- The newline-terminated lines of a text, without their newlines. -/
def lines (text : List UInt8) : List (List UInt8) := (text.splitOn 10).dropLast

/-- What follows the last newline of a text. -/
def lastPart (text : List UInt8) : List UInt8 := (text.splitOn 10).getLast (by simp)

/-- What is to be printed: the lines that match, in order. -/
def output (pattern : List UInt8) (ls : List (List UInt8)) : List UInt8 :=
  (ls.filter fun l => matchRe pattern l).flatMap fun l => l ++ [10]

variable {pattern text l rest : List UInt8} {ls : List (List UInt8)}

theorem lines_of_notMem (h : 10 ∉ text) : lines text = [] := by
  simp [lines, List.splitOn_eq_singleton h]

theorem lastPart_of_notMem (h : 10 ∉ text) : lastPart text = text := by
  simp [lastPart, List.splitOn_eq_singleton h]

theorem lines_cons (h : 10 ∉ l) : lines (l ++ 10 :: rest) = l :: lines rest := by
  rw [lines, List.splitOn_append_cons_self_of_not_mem h,
    List.dropLast_cons_of_ne_nil (List.splitOn_ne_nil _ _), lines]

theorem lastPart_cons (h : 10 ∉ l) : lastPart (l ++ 10 :: rest) = lastPart rest := by
  simp [lastPart, List.splitOn_append_cons_self_of_not_mem h]

/-- Induction over a text line by line. -/
theorem line_induction {P : List UInt8 → Prop} (last : ∀ text, 10 ∉ text → P text)
    (line : ∀ l rest, 10 ∉ l → P rest → P (l ++ 10 :: rest)) (text : List UInt8) : P text := by
  induction hn : text.length using Nat.strong_induction_on generalizing text with
  | _ n ih =>
      by_cases h : 10 ∈ text
      · obtain ⟨l, rest, rfl, hl⟩ := List.eq_append_cons_of_mem h
        simp only [List.length_append, List.length_cons] at hn
        exact line l rest hl (ih rest.length (by omega) rest rfl)
      · exact last text h

/-- A text is its lines and what follows the last one. -/
theorem flatMap_lines (text : List UInt8) :
    (lines text).flatMap (fun l => l ++ [10]) ++ lastPart text = text := by
  induction text using line_induction with
  | last text h => simp [lines_of_notMem h, lastPart_of_notMem h]
  | line l rest h ih => simp [lines_cons h, lastPart_cons h, ih]

/-- The lines have no newline. -/
theorem notMem_of_mem_lines (hl : l ∈ lines text) : 10 ∉ l := by
  induction text using line_induction with
  | last text h => simp [lines_of_notMem h] at hl
  | line l' rest h ih =>
      rw [lines_cons h, List.mem_cons] at hl
      rcases hl with rfl | hl
      · exact h
      · exact ih hl

theorem notMem_lastPart (text : List UInt8) : 10 ∉ lastPart text := by
  induction text using line_induction with
  | last text h => rwa [lastPart_of_notMem h]
  | line l rest h ih => rwa [lastPart_cons h]

/-- The lines of a text in two parts: the last part of the first one is continued. -/
theorem lines_append (a b : List UInt8) :
    lines (a ++ b) = lines a ++ lines (lastPart a ++ b) := by
  induction a using line_induction with
  | last a h => simp [lines_of_notMem h, lastPart_of_notMem h]
  | line l rest h ih => simp [lines_cons h, lastPart_cons h, ih]

/-- A text has no complete line exactly when it has no newline. -/
theorem lines_eq_nil_iff : lines text = [] ↔ 10 ∉ text := by
  constructor
  · intro h hmem
    obtain ⟨l, rest, rfl, hl⟩ := List.eq_append_cons_of_mem hmem
    simp [lines_cons hl] at h
  · exact lines_of_notMem

theorem output_append (ls ls' : List (List UInt8)) :
    output pattern (ls ++ ls') = output pattern ls ++ output pattern ls' := by
  simp [output]

/-! ## The buffer -/

variable {buf : ℕ → UInt8} {p : ℕ}

/-- `strchr` does not find a character that the string has not. -/
theorem strchr_of_notMem {c : UInt8} {n : ℕ} (hat : At buf p (text ++ [0])) (hnul : 0 ∉ text)
    (hc : c ∉ text) (hn : text.length < n) : strchr buf p c n = some none := by
  induction text generalizing p n with
  | nil =>
      obtain ⟨n, rfl⟩ : ∃ m, n = m + 1 := ⟨n - 1, by simp at hn; omega⟩
      simp [strchr, (at_cons.mp hat).1]
  | cons b text ih =>
      obtain ⟨n, rfl⟩ : ∃ m, n = m + 1 := ⟨n - 1, by simp at hn; omega⟩
      obtain ⟨hb, htail⟩ := at_cons.mp hat
      simp only [List.mem_cons, not_or] at hnul hc
      rw [strchr, hb, if_neg (Ne.symm hnul.1), if_neg (Ne.symm hc.1)]
      exact ih htail hnul.2 hc.2 (by simpa using hn)

/-- `strchr` finds the first one. -/
theorem strchr_of_mem {c : UInt8} {n : ℕ} (hat : At buf p (l ++ c :: rest)) (hnul : 0 ∉ l)
    (hc : c ∉ l) (hc0 : c ≠ 0) (hn : l.length < n) :
    strchr buf p c n = some (some (p + l.length)) := by
  induction l generalizing p n with
  | nil =>
      obtain ⟨n, rfl⟩ : ∃ m, n = m + 1 := ⟨n - 1, by simp at hn; omega⟩
      simp [strchr, (at_cons.mp hat).1, hc0]
  | cons b l ih =>
      obtain ⟨n, rfl⟩ : ∃ m, n = m + 1 := ⟨n - 1, by simp at hn; omega⟩
      obtain ⟨hb, htail⟩ := at_cons.mp hat
      simp only [List.mem_cons, not_or] at hnul hc
      rw [strchr, hb, if_neg (Ne.symm hnul.1), if_neg (Ne.symm hc.1),
        ih htail hnul.2 hc.2 (by simpa using hn), List.length_cons]
      congr 2
      omega

/-- Moving downwards copies every byte before it is overwritten. -/
theorem memmove_apply {dst src n : ℕ} (hle : dst ≤ src) (k : ℕ) :
    memmove buf dst src n k = if dst ≤ k ∧ k < dst + n then buf (src + (k - dst)) else buf k := by
  induction n generalizing buf dst src with
  | zero =>
      rw [memmove, if_neg (by omega)]
  | succ n ih =>
      rw [memmove, ih (by omega)]
      by_cases hk : k = dst
      · rw [if_neg (by omega), if_pos (by omega), hk, Function.update_self, Nat.sub_self, add_zero]
      · by_cases hin : dst ≤ k ∧ k < dst + (n + 1)
        · rw [if_pos (by omega), if_pos hin, Function.update_of_ne (by omega)]
          congr 1
          omega
        · rw [if_neg (by omega), if_neg hin, Function.update_of_ne hk]

theorem at_memmove {bytes : List UInt8} (h : At buf p bytes) :
    At (memmove buf 0 p bytes.length) 0 bytes := by
  intro k hk
  rw [memmove_apply (Nat.zero_le p), if_pos (by omega), zero_add, Nat.sub_zero]
  exact h k hk

/-- What follows the last newline is not longer than the text, and shorter if there is one. -/
theorem length_lastPart (text : List UInt8) :
    (lastPart text).length + (lines text).length ≤ text.length := by
  induction text using line_induction with
  | last text h => simp [lines_of_notMem h, lastPart_of_notMem h]
  | line l rest h ih =>
      simp only [lines_cons h, lastPart_cons h, List.length_append, List.length_cons]
      omega

/-! ## One read -/

/-- One round of the inner loop: a line is written if it matches. -/
theorem lineLoop_line (pattern out : List UInt8) {n : ℕ} (hat : At buf p (l ++ 10 :: rest))
    (hnul : 0 ∉ l) (h : 10 ∉ l) (hp : p + l.length < bufSize) :
    ∃ buf', lineLoop pattern (n + 1) buf p out =
        lineLoop pattern n buf' (p + l.length + 1) (out ++ output pattern [l]) ∧
      At buf' (p + l.length + 1) rest := by
  obtain ⟨hl, hrest⟩ := at_append.mp hat
  have hrest' := (at_cons.mp hrest).2.update_lt (Nat.lt_succ_self _) 0
  have hcut := hl.snoc 0
  rw [lineLoop, strchr_of_mem hat hnul h (by decide) (by omega)]
  simp only [stringAt_spec hcut hnul (show l.length < bufSize - p by omega)]
  by_cases hmatch : matchRe pattern l
  · -- the newline is put back, so the bytes written are the line with its newline
    have hbytes := ((at_append.mp hcut).1.snoc 10).map_range
    rw [List.length_append, List.length_singleton] at hbytes
    rw [if_pos hmatch, show p + l.length + 1 - p = l.length + 1 by omega, hbytes]
    refine ⟨_, ?_, hrest'.update_lt (Nat.lt_succ_self _) 10⟩
    simp [output, hmatch]
  · rw [if_neg hmatch]
    refine ⟨_, ?_, hrest'⟩
    simp [output, hmatch]

/-- The inner loop writes the complete lines that match and stops behind the last newline. -/
theorem lineLoop_spec (pattern out : List UInt8) {n : ℕ} (hat : At buf p (text ++ [0]))
    (hnul : 0 ∉ text) (hp : p + text.length < bufSize) (hn : (lines text).length < n) :
    ∃ buf', lineLoop pattern n buf p out =
        some (buf', p + (text.length - (lastPart text).length),
          out ++ output pattern (lines text)) ∧
      At buf' (p + (text.length - (lastPart text).length)) (lastPart text ++ [0]) := by
  obtain ⟨n, rfl⟩ : ∃ m, n = m + 1 := ⟨n - 1, by omega⟩
  induction text using line_induction generalizing n buf p out with
  | last text h =>
      refine ⟨buf, ?_, ?_⟩
      · rw [lineLoop, strchr_of_notMem hat hnul h (by omega)]
        simp [lines_of_notMem h, lastPart_of_notMem h, output]
      · simpa [lastPart_of_notMem h] using hat
  | line l rest h ih =>
      rw [List.append_assoc, List.cons_append] at hat
      simp only [List.length_append, List.length_cons, List.mem_append, List.mem_cons,
        not_or, lines_cons h, lastPart_cons h] at *
      obtain ⟨buf', hround, hat'⟩ := lineLoop_line (n := n) pattern out hat hnul.1 h (by omega)
      obtain ⟨n, rfl⟩ : ∃ m, n = m + 1 := ⟨n - 1, by omega⟩
      obtain ⟨buf'', hloop, hat''⟩ := ih _ hat' hnul.2.2 (by omega) n (by omega)
      have hlast := length_lastPart rest
      have hp' : p + (l.length + (rest.length + 1) - (lastPart rest).length) =
          p + l.length + 1 + (rest.length - (lastPart rest).length) := by omega
      rw [hp']
      refine ⟨buf'', ?_, hat''⟩
      rw [hround, hloop, List.append_assoc, ← output_append]
      rfl

/-- What the buffer holds between two reads. -/
structure Reps (s : State) (part : List UInt8) : Prop where
  /-- `m` is its length. -/
  m : s.m = part.length
  /-- There is room for a NUL. -/
  lt : part.length < bufSize
  /-- It lies at the start of the buffer. -/
  buf : At s.buf 0 part
  /-- It has no NUL. -/
  nul : 0 ∉ part

/-- What is left of the input so far: nothing, if the last read left no newline. -/
def kept (part piece : List UInt8) : List UInt8 :=
  if lines (part ++ piece) = [] then [] else lastPart (part ++ piece)

theorem mem_of_mem_lastPart {c : UInt8} (hc : c ∈ lastPart text) : c ∈ text := by
  rw [← flatMap_lines text]
  exact List.mem_append_right _ hc

/-- The bytes of a read stand behind those that were left. -/
theorem Reps.fill {s : State} {part piece : List UInt8} (h : Reps s part) :
    At (s.fill piece).buf 0 (part ++ piece ++ [0]) := by
  have hboth : At (fun k => if s.m ≤ k ∧ k < s.m + piece.length then piece.getD (k - s.m) 0
      else s.buf k) 0 (part ++ piece) := by
    refine at_append.mpr ⟨h.buf.congr fun k _ hk => ?_, fun k hk => ?_⟩
    · exact if_neg (by have := h.m; omega)
    · simp [h.m, hk]
  have hsnoc := hboth.snoc 0
  rw [Nat.zero_add, List.length_append, ← h.m] at hsnoc
  exact hsnoc

/-- One round of the outer loop writes the complete lines that match, and keeps the last
part of the input if there was a complete line. -/
theorem body_spec (pattern : List UInt8) {s : State} {part piece : List UInt8}
    (h : Reps s part) (hnul : 0 ∉ piece)
    (hfit : piece.length ≤ bufSize - s.m - 1) :
    ∃ s', body pattern s piece = some s' ∧
      s'.out = s.out ++ output pattern (lines (part ++ piece)) ∧ Reps s' (kept part piece) := by
  have hm := h.m
  have hlt := h.lt
  have hboth : 0 ∉ part ++ piece := by simp [h.nul, hnul]
  have hlen : (part ++ piece).length < bufSize := by
    rw [List.length_append]
    omega
  have hlast := length_lastPart (part ++ piece)
  obtain ⟨buf', hloop, hat⟩ := lineLoop_spec (n := bufSize) pattern s.out h.fill hboth
    (by omega) (by omega)
  rw [Nat.zero_add] at hloop hat
  have hfill : (s.fill piece).m = (part ++ piece).length := by
    rw [List.length_append, ← hm]
    rfl
  have hout : (s.fill piece).out = s.out := rfl
  by_cases hlines : lines (part ++ piece) = []
  · have hzero : (part ++ piece).length - (lastPart (part ++ piece)).length = 0 := by
      rw [lastPart_of_notMem (lines_eq_nil_iff.mp hlines), Nat.sub_self]
    refine ⟨⟨buf', 0, s.out ++ output pattern (lines (part ++ piece))⟩, ?_, rfl, ?_⟩
    · simp only [body, hout, hloop, hzero, if_true, lt_irrefl, if_false]
    · rw [kept, if_pos hlines]
      exact ⟨rfl, by decide, by simp [At], by simp⟩
  · have hpos := List.length_pos_iff.mpr hlines
    have hrest : (part ++ piece).length -
        ((part ++ piece).length - (lastPart (part ++ piece)).length) =
          (lastPart (part ++ piece)).length := by omega
    refine ⟨⟨memmove buf' 0 ((part ++ piece).length - (lastPart (part ++ piece)).length)
      (lastPart (part ++ piece)).length, (lastPart (part ++ piece)).length,
      s.out ++ output pattern (lines (part ++ piece))⟩, ?_, rfl, ?_⟩
    · have hmoved : (part ++ piece).length - (lastPart (part ++ piece)).length ≠ 0 := by omega
      simp only [body, hout, hloop, hfill, if_neg hmoved, hrest]
      rw [if_pos (by omega)]
    · rw [kept, if_neg hlines]
      exact ⟨rfl, by omega, at_memmove (at_append.mp hat).1, fun hmem =>
        hboth (mem_of_mem_lastPart hmem)⟩

/-! ## All reads -/

/-- What the whole loop writes, by the pieces that are read. -/
def written (pattern : List UInt8) : List UInt8 → List (List UInt8) → List UInt8
  | _, [] => []
  | part, piece :: pieces =>
      output pattern (lines (part ++ piece)) ++ written pattern (kept part piece) pieces

/-- The pieces fit into the buffer behind what is left. -/
def Fits : List UInt8 → List (List UInt8) → Prop
  | _, [] => True
  | part, piece :: pieces =>
      piece ≠ [] ∧ part.length + piece.length < bufSize ∧ Fits (kept part piece) pieces

/-- The possible answers of `read` are the pieces that fit. -/
theorem answers_iff {s : State} {part : List UInt8} {pieces : List (List UInt8)}
    (h : Reps s part) (hnul : 0 ∉ pieces.flatten) :
    Answers pattern s pieces ↔ Fits part pieces := by
  induction pieces generalizing s part with
  | nil => simp [Answers, Fits]
  | cons piece pieces ih =>
      have hm := h.m
      have hlt := h.lt
      rw [List.flatten_cons, List.mem_append, not_or] at hnul
      have hfit : piece.length ≤ bufSize - s.m - 1 ↔ part.length + piece.length < bufSize := by
        omega
      rw [Answers, Fits, hfit]
      refine and_congr_right fun _ => and_congr_right fun hfit' => ?_
      obtain ⟨s', hbody, -, hreps⟩ := body_spec pattern h hnul.1 (hfit.mpr hfit')
      rw [hbody, ← ih hreps hnul.2]
      simp

/-- `grep` runs through, and writes the lines it has kept whole. -/
theorem run_spec (pattern : List UInt8) {s : State} {part : List UInt8} {pieces : List (List UInt8)}
    (h : Reps s part) (hnul : 0 ∉ pieces.flatten) (hfits : Fits part pieces) :
    ∃ s', run pattern s pieces = some s' ∧ s'.out = s.out ++ written pattern part pieces := by
  induction pieces generalizing s part with
  | nil => exact ⟨s, rfl, by simp [written]⟩
  | cons piece pieces ih =>
      have hm := h.m
      rw [List.flatten_cons, List.mem_append, not_or] at hnul
      obtain ⟨-, hfit, hfits⟩ := hfits
      obtain ⟨s₁, hbody, hout₁, hreps⟩ := body_spec pattern h hnul.1 (by omega)
      obtain ⟨s₂, hrun, hout₂⟩ := ih hreps hnul.2 hfits
      refine ⟨s₂, ?_, ?_⟩
      · rw [run, hbody]
        exact hrun
      · rw [hout₂, hout₁, written, List.append_assoc]

/-- However the text is cut by `read`, `grep` writes its lines that match. -/
def CutFree (pattern text : List UInt8) : Prop :=
  ∀ (buf : ℕ → UInt8) (pieces : List (List UInt8)), pieces.flatten = text →
    Answers pattern ⟨buf, 0, []⟩ pieces →
      ∃ s', run pattern ⟨buf, 0, []⟩ pieces = some s' ∧ s'.out = output pattern (lines text)

/-- No line but the empty one has a rest that matches. -/
def Quiet (pattern text : List UInt8) : Prop :=
  ∀ l ∈ lines text, l ≠ [] → ∀ t, t <:+ l → matchRe pattern t = false

theorem reps_empty (buf : ℕ → UInt8) (out : List UInt8) : Reps ⟨buf, 0, out⟩ [] :=
  ⟨rfl, by decide, by simp [At], by simp⟩

theorem cutFree_iff (hnul : 0 ∉ text) :
    CutFree pattern text ↔ ∀ pieces, pieces.flatten = text → Fits [] pieces →
      written pattern [] pieces = output pattern (lines text) := by
  constructor
  · intro h pieces hflat hfits
    have hnul' : 0 ∉ pieces.flatten := hflat ▸ hnul
    have hreps := reps_empty (fun _ => 0) []
    obtain ⟨s', hrun, hout⟩ := h _ pieces hflat ((answers_iff hreps hnul').mpr hfits)
    obtain ⟨s'', hrun', hout'⟩ := run_spec pattern hreps hnul' hfits
    obtain rfl := Option.some.inj (hrun.symm.trans hrun')
    rw [← hout, hout', List.nil_append]
  · intro h buf pieces hflat hanswers
    have hnul' : 0 ∉ pieces.flatten := hflat ▸ hnul
    have hreps := reps_empty buf []
    have hfits := (answers_iff hreps hnul').mp hanswers
    obtain ⟨s', hrun, hout⟩ := run_spec pattern hreps hnul' hfits
    exact ⟨s', hrun, by rw [hout, List.nil_append, h pieces hflat hfits]⟩

/-! ### Lines that lose their start -/

theorem output_singleton (l : List UInt8) :
    output pattern [l] = if matchRe pattern l then l ++ [10] else [] := by
  by_cases h : matchRe pattern l <;> simp [output, h]

theorem output_cons (l : List UInt8) (ls : List (List UInt8)) :
    output pattern (l :: ls) = output pattern [l] ++ output pattern ls :=
  output_append [l] ls

variable {part tail piece : List UInt8} {pieces : List (List UInt8)}

/-- A part of the first line is missing, and no line with something in it matters. -/
theorem output_of_suffix (hpart : part <:+ tail) (htail : 10 ∉ tail)
    (hquiet : Quiet pattern (tail ++ piece)) :
    output pattern (lines (part ++ piece)) = output pattern (lines (tail ++ piece)) := by
  have hpart' : 10 ∉ part := fun h => htail (hpart.subset h)
  by_cases h : 10 ∈ piece
  · obtain ⟨a, b, rfl, ha⟩ := List.eq_append_cons_of_mem h
    have hl : 10 ∉ part ++ a := by simp [hpart', ha]
    have hl' : 10 ∉ tail ++ a := by simp [htail, ha]
    have hlines : lines (tail ++ a ++ 10 :: b) = (tail ++ a) :: lines b := lines_cons hl'
    rw [List.append_assoc] at hlines
    rw [← List.append_assoc, lines_cons hl, hlines, output_cons, output_cons (tail ++ a)]
    congr 1
    by_cases hempty : tail ++ a = []
    · obtain ⟨rfl, rfl⟩ := List.append_eq_nil_iff.mp hempty
      rw [List.suffix_nil.mp hpart]
    · have hline := hquiet (tail ++ a) (by simp [hlines]) hempty
      obtain ⟨skipped, rfl⟩ := hpart
      rw [output_singleton, output_singleton, hline _ (List.suffix_refl _),
        hline (part ++ a) ⟨skipped, (List.append_assoc ..).symm⟩]
      rfl
  · rw [lines_of_notMem (by simp [hpart', h]), lines_of_notMem (by simp [htail, h])]

/-- What is kept is a rest of the last part of the input. -/
theorem kept_suffix (hpart : part <:+ tail) (htail : 10 ∉ tail) :
    kept part piece <:+ lastPart (tail ++ piece) := by
  have hpart' : 10 ∉ part := fun h => htail (hpart.subset h)
  unfold kept
  by_cases h : 10 ∈ piece
  · obtain ⟨a, b, rfl, ha⟩ := List.eq_append_cons_of_mem h
    have hl : 10 ∉ part ++ a := by simp [hpart', ha]
    have hl' : 10 ∉ tail ++ a := by simp [htail, ha]
    rw [← List.append_assoc, ← List.append_assoc, lines_cons hl, if_neg (by simp),
      lastPart_cons hl, lastPart_cons hl']
  · rw [lines_of_notMem (by simp [hpart', h]), if_pos rfl]
    exact List.nil_suffix

/-- If only empty lines matter, the output is right, whatever is lost. -/
theorem written_of_quiet (hpart : part <:+ tail) (htail : 10 ∉ tail)
    (hquiet : Quiet pattern (tail ++ pieces.flatten)) :
    written pattern part pieces = output pattern (lines (tail ++ pieces.flatten)) := by
  induction pieces generalizing part tail with
  | nil => simp [written, lines_of_notMem htail, output]
  | cons piece pieces ih =>
      have hlines := lines_append (tail ++ piece) pieces.flatten
      rw [List.append_assoc] at hlines
      rw [List.flatten_cons, Quiet, hlines] at hquiet
      have hfirst : Quiet pattern (tail ++ piece) := fun l hl =>
        hquiet l (List.mem_append_left _ hl)
      have hlater : Quiet pattern (lastPart (tail ++ piece) ++ pieces.flatten) := fun l hl =>
        hquiet l (List.mem_append_right _ hl)
      rw [written, List.flatten_cons, hlines, output_append,
        output_of_suffix hpart htail hfirst,
        ih (kept_suffix hpart htail) (notMem_lastPart _) hlater]

/-! ### A read that ends inside a line -/

theorem kept_line (h : 10 ∉ l) : kept [] (l ++ [10]) = [] := by
  rw [kept, List.nil_append, lines_cons h, if_neg (by simp), lastPart_cons h,
    lastPart_of_notMem (by simp)]

theorem written_line (h : 10 ∉ l) : written pattern [] ((l ++ [10]) :: pieces) =
    output pattern [l] ++ written pattern [] pieces := by
  rw [written, kept_line h, List.nil_append, lines_cons h, lines_of_notMem (by simp)]

/-- Reads of whole lines lose nothing. -/
theorem written_lines (h : ∀ l ∈ ls, 10 ∉ l) :
    written pattern [] (ls.map (fun l => l ++ [10]) ++ pieces) =
      output pattern ls ++ written pattern [] pieces := by
  induction ls with
  | nil => simp [output]
  | cons l ls ih =>
      rw [List.map_cons, List.cons_append, written_line (h l (by simp)),
        ih fun l hl => h l (by simp [hl]), output_cons l ls, List.append_assoc]

theorem fits_lines (h : ∀ l ∈ ls, 10 ∉ l ∧ l.length + 1 < bufSize) (hfits : Fits [] pieces) :
    Fits [] (ls.map (fun l => l ++ [10]) ++ pieces) := by
  induction ls with
  | nil => exact hfits
  | cons l ls ih =>
      obtain ⟨hl, hlen⟩ := h l (by simp)
      refine ⟨by simp, by simpa using hlen, ?_⟩
      rw [kept_line hl]
      exact ih fun l hl => h l (by simp [hl])

/-- The last piece, if there is anything behind the last newline. -/
def lastPiece (r : List UInt8) : List (List UInt8) := if r = [] then [] else [r]

theorem flatten_lastPiece (r : List UInt8) : (lastPiece r).flatten = r := by
  unfold lastPiece
  split <;> simp_all

theorem written_lastPiece (h : 10 ∉ l) : written pattern [] (lastPiece l) = [] := by
  unfold lastPiece
  split
  · rfl
  · simp [written, lines_of_notMem h, output]

theorem fits_lastPiece (hlen : l.length < bufSize) : Fits [] (lastPiece l) := by
  unfold lastPiece
  split
  · trivial
  · exact ⟨‹_›, by simpa using hlen, trivial⟩

/-- A read that ends inside a line makes `grep` take the rest of the line for the line. -/
theorem CutFree.output_rest {before after : List (List UInt8)} {d t : List UInt8}
    (hnul : 0 ∉ text) (hshort : ∀ l ∈ text.splitOn 10, l.length + 1 < bufSize)
    (hfree : CutFree pattern text) (hlines : lines text = before ++ (d ++ t) :: after)
    (hd : d ≠ []) : output pattern [t] = output pattern [d ++ t] := by
  have hline : ∀ l ∈ lines text, 10 ∉ l ∧ l.length + 1 < bufSize := fun l hl =>
    ⟨notMem_of_mem_lines hl, hshort l (List.mem_of_mem_dropLast hl)⟩
  have hlast : (lastPart text).length + 1 < bufSize := hshort _ (List.getLast_mem _)
  have hbefore : ∀ l ∈ before, 10 ∉ l ∧ l.length + 1 < bufSize := fun l hl =>
    hline l (by simp [hlines, hl])
  have hafter : ∀ l ∈ after, 10 ∉ l ∧ l.length + 1 < bufSize := fun l hl =>
    hline l (by simp [hlines, hl])
  obtain ⟨hcut, hcutLen⟩ := hline (d ++ t) (by simp [hlines])
  rw [List.mem_append, not_or] at hcut
  rw [List.length_append] at hcutLen
  have hkept : kept [] d = [] := by
    rw [kept, List.nil_append, lines_of_notMem hcut.1, if_pos rfl]
  -- whole lines, then the two parts of the line, then whole lines again
  have hwritten := (cutFree_iff hnul).mp hfree
    (before.map (fun l => l ++ [10]) ++ d :: (t ++ [10]) ::
      (after.map (fun l => l ++ [10]) ++ lastPiece (lastPart text))) ?_ ?_
  · rw [written_lines fun l hl => (hbefore l hl).1, written, hkept, List.nil_append,
      lines_of_notMem hcut.1, written_line hcut.2, written_lines fun l hl => (hafter l hl).1,
      written_lastPiece (notMem_lastPart _), hlines, output_append, output_cons (d ++ t)]
      at hwritten
    simpa [show output pattern [] = [] from rfl] using hwritten
  · have htext := flatMap_lines text
    rw [hlines] at htext
    simpa [List.flatMap_def, flatten_lastPiece] using htext
  · apply fits_lines hbefore
    refine ⟨hd, by simp; omega, ?_⟩
    rw [hkept]
    refine ⟨by simp, by simp; omega, ?_⟩
    rw [kept_line hcut.2]
    exact fits_lines hafter (fits_lastPiece (by omega))

/-- Every cut of the text gives the right output exactly when no rest of a line matches,
empty lines aside: the lines that are to be printed must all be empty ones. -/
theorem grep_cutFree_iff (pattern : List UInt8) {text : List UInt8} (hnul : 0 ∉ text)
    (hshort : ∀ l ∈ text.splitOn 10, l.length < 1023) :
    CutFree pattern text ↔
      ∀ l ∈ lines text, l ≠ [] → ∀ t, t <:+ l → matchRe pattern t = false := by
  have hshort' : ∀ l ∈ text.splitOn 10, l.length + 1 < bufSize := fun l hl => by
    have := hshort l hl
    unfold bufSize
    omega
  constructor
  · intro hfree l hl hne
    obtain ⟨before, after, hlines⟩ := List.append_of_mem hl
    have hrest : ∀ d t, d ++ t = l → d ≠ [] → output pattern [t] = output pattern [l] := by
      rintro d t rfl hd
      exact hfree.output_rest hnul hshort' hlines hd
    have hline : matchRe pattern l = false := by
      obtain ⟨c, l, rfl⟩ := List.exists_cons_of_ne_nil hne
      have hfirst := congrArg List.length (hrest [c] l rfl (by simp))
      rw [output_singleton, output_singleton] at hfirst
      by_contra hmatch
      rw [Bool.not_eq_false] at hmatch
      rw [hmatch, if_pos rfl] at hfirst
      split at hfirst <;> simp at hfirst
    rintro t ⟨d, rfl⟩
    by_cases hd : d = []
    · simpa [hd] using hline
    · have hnone := hrest d t rfl hd
      rw [output_singleton, output_singleton, hline] at hnone
      by_contra hmatch
      rw [if_pos (by simpa using hmatch)] at hnone
      simp at hnone
  · intro hquiet
    rw [cutFree_iff hnul]
    rintro pieces rfl -
    have hall : Quiet pattern ([] ++ pieces.flatten) := hquiet
    exact written_of_quiet (List.suffix_refl []) (by simp) hall

/-- The line `a` is not found when the first read ends before its newline. -/
theorem grep_not_cutFree : ¬ ∀ pattern text : List UInt8, 0 ∉ text →
    (∀ l ∈ text.splitOn 10, l.length < 1023) → CutFree pattern text := by
  intro hall
  have hfree := hall [97] [97, 10] (by decide) (by simp [List.splitOn_cons_eq_if_modifyHead])
  have hfirst : lines [97] = [] := lines_of_notMem (by decide)
  have hkept : kept [] [97] = [] := by rw [kept, List.nil_append, hfirst, if_pos rfl]
  have hnewline : lines [10] = [[]] := by
    rw [show ([10] : List UInt8) = [] ++ 10 :: [] from rfl, lines_cons (by decide),
      lines_of_notMem (by decide)]
  have hwhole : lines [97, 10] = [[97]] := by
    rw [show ([97, 10] : List UInt8) = [97] ++ 10 :: [] from rfl, lines_cons (by decide),
      lines_of_notMem (by decide)]
  have hwritten := (cutFree_iff (by decide)).mp hfree [[97], [10]] rfl
    ⟨by decide, by decide, by decide, by rw [hkept]; decide, trivial⟩
  rw [written, written, written, hkept, List.nil_append, List.nil_append, hfirst, hnewline,
    hwhole, output_singleton, output_singleton] at hwritten
  simp [matchRe, matchLoop, matchhere, output] at hwritten

/-! ### Reads that leave a newline -/

/-- Nothing is lost by a read that leaves a newline in the buffer. -/
theorem kept_of_mem (h : 10 ∈ piece) : kept part piece = lastPart (part ++ piece) := by
  rw [kept, if_neg]
  rw [lines_eq_nil_iff]
  simp [h]

/-- Pieces without a newline write nothing. -/
theorem written_of_notMem (hpart : 10 ∉ part) (h : ∀ piece ∈ pieces, 10 ∉ piece) :
    written pattern part pieces = [] := by
  induction pieces generalizing part with
  | nil => rfl
  | cons piece pieces ih =>
      have hnone : lines (part ++ piece) = [] :=
        lines_of_notMem (by simp [hpart, h piece (by simp)])
      rw [written, hnone, kept, if_pos hnone,
        ih (by simp) fun piece hp => h piece (List.mem_cons_of_mem _ hp)]
      rfl

/-- Whatever is read in pieces with a newline each, and without one from the last newline on,
is treated as a whole. -/
theorem written_of_newlines {pieces' : List (List UInt8)} (hpart : 10 ∉ part)
    (h : ∀ piece ∈ pieces, 10 ∈ piece) (h' : ∀ piece ∈ pieces', 10 ∉ piece) :
    written pattern part (pieces ++ pieces') =
      output pattern (lines (part ++ (pieces ++ pieces').flatten)) := by
  induction pieces generalizing part with
  | nil =>
      rw [List.nil_append, written_of_notMem hpart h', lines_of_notMem]
      · rfl
      · simpa [hpart] using fun piece hp => h' piece hp
  | cons piece pieces ih =>
      rw [List.cons_append, written, kept_of_mem (h piece (by simp)),
        ih (notMem_lastPart _) fun piece hp => h piece (List.mem_cons_of_mem _ hp),
        ← output_append, List.flatten_cons, ← List.append_assoc, ← lines_append]

/-- `grep` is right on every cut whose reads each leave a newline in the buffer, as long as
one is to come. -/
theorem grep_of_newlines (pattern : List UInt8) {buf : ℕ → UInt8}
    {pieces' : List (List UInt8)} (hnul : 0 ∉ (pieces ++ pieces').flatten)
    (hanswers : Answers pattern ⟨buf, 0, []⟩ (pieces ++ pieces'))
    (h : ∀ piece ∈ pieces, 10 ∈ piece) (h' : ∀ piece ∈ pieces', 10 ∉ piece) :
    ∃ s', run pattern ⟨buf, 0, []⟩ (pieces ++ pieces') = some s' ∧
      s'.out = output pattern (lines (pieces ++ pieces').flatten) := by
  have hreps := reps_empty buf []
  obtain ⟨s', hrun, hout⟩ :=
    run_spec pattern hreps hnul ((answers_iff hreps hnul).mp hanswers)
  refine ⟨s', hrun, ?_⟩
  rw [hout, written_of_newlines (by simp) h h', List.nil_append, List.nil_append]

/-! ### One cut -/

/-- What a cut leaves of the lines: if a read brings no newline, the line in which it ends keeps
only what comes after it. The argument `part` is the beginning of the first line. -/
def cutLines : List UInt8 → List (List UInt8) → List (List UInt8)
  | _, [] => []
  | part, piece :: pieces =>
      if 10 ∈ piece then lines (part ++ piece) ++ cutLines (lastPart (part ++ piece)) pieces
      else cutLines [] pieces

/-- A cut leaves a rest of each line. -/
theorem cutLines_suffix (hpart : part <:+ tail) (htail : 10 ∉ tail) :
    List.Forall₂ (· <:+ ·) (cutLines part pieces) (lines (tail ++ pieces.flatten)) := by
  induction pieces generalizing part tail with
  | nil =>
      rw [List.flatten_nil, List.append_nil, lines_of_notMem htail]
      exact .nil
  | cons piece pieces ih =>
      rw [cutLines, List.flatten_cons, ← List.append_assoc]
      by_cases h : 10 ∈ piece
      · obtain ⟨a, b, rfl, ha⟩ := List.eq_append_cons_of_mem h
        have hl : 10 ∉ part ++ a := fun hmem =>
          (List.mem_append.mp hmem).elim (fun hp => htail (hpart.subset hp)) ha
        have hl' : 10 ∉ tail ++ a := by simp [htail, ha]
        rw [if_pos h, lines_append (tail ++ _), ← List.append_assoc, ← List.append_assoc,
          lines_cons hl, lines_cons hl', lastPart_cons hl, lastPart_cons hl']
        refine List.rel_append (.cons ?_ (List.forall₂_same.mpr fun l _ => List.suffix_refl l))
          (ih (List.suffix_refl _) (notMem_lastPart b))
        obtain ⟨skipped, rfl⟩ := hpart
        exact ⟨skipped, (List.append_assoc ..).symm⟩
      · have hnone : 10 ∉ tail ++ piece := by simp [htail, h]
        rw [if_neg h]
        exact ih List.nil_suffix hnone

/-- `grep` prints the lines that are left, if they match. -/
theorem written_eq (hpart : 10 ∉ part) :
    written pattern part pieces = output pattern (cutLines part pieces) := by
  induction pieces generalizing part with
  | nil => rfl
  | cons piece pieces ih =>
      rw [written, cutLines]
      by_cases h : 10 ∈ piece
      · rw [if_pos h, kept_of_mem h, ih (notMem_lastPart _), output_append]
      · have hnone : lines (part ++ piece) = [] := lines_of_notMem (by simp [hpart, h])
        rw [if_neg h, hnone, kept, if_pos hnone, ih (by simp)]
        rfl

/-- The lines that are written can be read off the output. -/
theorem lines_flatMap (h : ∀ l ∈ ls, 10 ∉ l) : lines (ls.flatMap fun l => l ++ [10]) = ls := by
  induction ls with
  | nil => exact lines_of_notMem (by simp)
  | cons l ls ih =>
      rw [List.flatMap_cons, List.append_assoc, List.singleton_append, lines_cons (h l (by simp)),
        ih fun l hl => h l (by simp [hl])]

theorem output_eq_iff {ls' : List (List UInt8)} (h : ∀ l ∈ ls, 10 ∉ l) (h' : ∀ l ∈ ls', 10 ∉ l) :
    output pattern ls = output pattern ls' ↔
      ls.filter (matchRe pattern ·) = ls'.filter (matchRe pattern ·) := by
  constructor
  · intro heq
    have hlines := congrArg lines heq
    rwa [output, output, lines_flatMap fun l hl => h l (List.mem_of_mem_filter hl),
      lines_flatMap fun l hl => h' l (List.mem_of_mem_filter hl)] at hlines
  · intro heq
    rw [output, output, heq]

theorem notMem_of_mem_cutLines (hl : l ∈ cutLines [] pieces) : 10 ∉ l := by
  obtain ⟨k, hk, rfl⟩ := List.getElem_of_mem hl
  have hrests : List.Forall₂ (· <:+ ·) (cutLines [] pieces) (lines ([] ++ pieces.flatten)) :=
    cutLines_suffix (List.suffix_refl []) (by simp)
  obtain ⟨hlength, hall⟩ := List.forall₂_iff_get.mp hrests
  have hsuffix := hall k hk (hlength ▸ hk)
  exact fun h => notMem_of_mem_lines (List.get_mem ..) (hsuffix.subset h)

/-- On a given cut of its input `grep` writes the lines that match exactly when those that match are
the same among the lines of the text and among what the cut leaves of them. -/
theorem grep_lines_iff (pattern : List UInt8) {buf : ℕ → UInt8} (hnul : 0 ∉ pieces.flatten)
    (hanswers : Answers pattern ⟨buf, 0, []⟩ pieces) :
    (∃ s', run pattern ⟨buf, 0, []⟩ pieces = some s' ∧
        s'.out = output pattern (lines pieces.flatten)) ↔
      (cutLines [] pieces).filter (matchRe pattern ·) =
        (lines pieces.flatten).filter (matchRe pattern ·) := by
  have hreps := reps_empty buf []
  obtain ⟨s', hrun, hout⟩ :=
    run_spec pattern hreps hnul ((answers_iff hreps hnul).mp hanswers)
  rw [List.nil_append, written_eq (by simp)] at hout
  rw [← output_eq_iff (fun l => notMem_of_mem_cutLines) fun l => notMem_of_mem_lines, ← hout]
  constructor
  · rintro ⟨s'', hrun', hout'⟩
    obtain rfl := Option.some.inj (hrun.symm.trans hrun')
    exact hout'
  · exact fun heq => ⟨s', hrun, heq⟩

/-- Looking for `a`: the first read ends inside a line that does not match in whole nor in part, and
the second one behind a newline. -/
theorem grep_lines_twoLines :
    ∃ s', run [97] ⟨fun _ => 0, 0, []⟩ [[98], [98, 10, 97], [10]] = some s' ∧
      s'.out = [97, 10] := by
  have hwhole : lines [98, 98, 10, 97, 10] = [[98, 98], [97]] := by
    rw [show ([98, 98, 10, 97, 10] : List UInt8) = [98, 98] ++ 10 :: [97, 10] from rfl,
      lines_cons (by decide), show ([97, 10] : List UInt8) = [97] ++ 10 :: [] from rfl,
      lines_cons (by decide), lines_of_notMem (by decide)]
  have hfirst : lines [98, 10, 97] = [[98]] := by
    rw [show ([98, 10, 97] : List UInt8) = [98] ++ 10 :: [97] from rfl, lines_cons (by decide),
      lines_of_notMem (by decide)]
  have hpart : lastPart [98, 10, 97] = [97] := by
    rw [show ([98, 10, 97] : List UInt8) = [98] ++ 10 :: [97] from rfl, lastPart_cons (by decide),
      lastPart_of_notMem (by decide)]
  have hlast : lines [97, 10] = [[97]] := by
    rw [show ([97, 10] : List UInt8) = [97] ++ 10 :: [] from rfl, lines_cons (by decide),
      lines_of_notMem (by decide)]
  have hcut : cutLines [] [[98], [98, 10, 97], [10]] = [[98], [97]] := by
    simp [cutLines, hfirst, hpart, hlast]
  have hkept : kept [] [98] = [] := by
    rw [kept, List.nil_append, lines_of_notMem (by decide), if_pos rfl]
  have hfits : Fits [] [[98], [98, 10, 97], [10]] := by
    refine ⟨by decide, by decide, ?_⟩
    rw [hkept]
    refine ⟨by decide, by decide, ?_⟩
    rw [kept_of_mem (by decide), List.nil_append, hpart]
    exact ⟨by decide, by decide, trivial⟩
  have hmatch : matchRe [97] [97] = true ∧ matchRe [97] [98] = false ∧
      matchRe [97] [98, 98] = false := by
    simp [matchRe, matchLoop, matchhere]
  obtain ⟨s', hrun, hout⟩ := (grep_lines_iff [97] (by decide)
    ((answers_iff (reps_empty (fun _ => 0) []) (by decide)).mpr hfits)).mpr (by
      rw [hcut]
      simp [hwhole, hmatch])
  refine ⟨s', hrun, ?_⟩
  rw [hout]
  simp [hwhole, output, hmatch]

end Xv6.Grep
