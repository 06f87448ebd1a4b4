import Xv6.ConsoleInput

/-!
# The console delivers the committed lines

What `consoleread` delivers is, in order and each character once, what has been committed:
the ring buffer holds the input that the readers have not taken, `input.w` stands at the end
of what has been committed, and no newline comes after it.
-/

namespace Xv6.ConsoleInput

open GuardedRun

variable {T : Type*} {i : Input} {l : Line} {taken : List UInt8}

/-- The buffer as a ring with two counters, those of the characters taken and stored. -/
def Input.ring (i : Input) : RingBuffer UInt8 inputBuf (2 ^ 32) := ⟨i.buf, i.r, i.e⟩

theorem Input.unedit_w (i : Input) : i.unedit.w = i.w := by
  cases i
  rfl

theorem Input.ring_unedit (i : Input) : i.unedit.ring = i.ring.unpush := rfl

theorem dvd_modulus : inputBuf ∣ 2 ^ 32 := by decide

theorem inputBuf_lt_modulus : inputBuf < 2 ^ 32 := by decide

/-- The buffer holds the input `l`, of which the readers have taken `taken`. -/
structure Holds (i : Input) (l : Line) (taken : List UInt8) : Prop where
  /-- The characters not taken are in their slots. -/
  ring : i.ring.Models l.text taken
  /-- The write index counts what has been committed. -/
  write : i.w = l.committed.length % 2 ^ 32
  /-- Only what has been committed is taken. -/
  isPrefix : taken <+: l.committed
  /-- A newline is committed at once. -/
  typed : newline ∉ l.pending

/-- The difference of two counters. -/
theorem wrapUint_sub {a b : ℕ} (hle : b ≤ a) (hspan : a ≤ b + inputBuf) :
    wrapUint (((a % 2 ^ 32 : ℕ) : ℤ) - ((b % 2 ^ 32 : ℕ) : ℤ)) = a - b := by
  have hsmall : a - b < 2 ^ 32 := by
    have := inputBuf_lt_modulus
    omega
  unfold wrapUint
  omega

namespace Holds

/-- The number of characters in the buffer. -/
theorem length_text (h : Holds i l taken) :
    l.text.length = l.committed.length + l.pending.length ∧
      taken.length ≤ l.committed.length ∧ l.text.length ≤ taken.length + inputBuf :=
  ⟨by simp [Line.text], h.isPrefix.length_le, h.ring.outstanding⟩

/-- The edit index stands at the write index when nothing can be edited. -/
theorem edit_eq_write_iff (h : Holds i l taken) : i.e = i.w ↔ l.pending = [] := by
  obtain ⟨htext, htaken, hroom⟩ := h.length_text
  have htail : i.e = l.text.length % 2 ^ 32 := h.ring.tail
  rw [htail, h.write]
  constructor
  · intro heq
    have := RingBuffer.mod_modulus_inj inputBuf_lt_modulus (by omega) (by omega) heq.symm
    exact List.length_eq_zero_iff.mp (by omega)
  · intro hnil
    rw [htext, hnil, List.length_nil, Nat.add_zero]

/-- The read index stands at the write index when all that is committed has been taken. -/
theorem read_eq_write_iff (h : Holds i l taken) :
    i.r = i.w ↔ taken.length = l.committed.length := by
  obtain ⟨htext, htaken, hroom⟩ := h.length_text
  have hhead : i.r = taken.length % 2 ^ 32 := h.ring.head
  rw [hhead, h.write]
  constructor
  · exact RingBuffer.mod_modulus_inj inputBuf_lt_modulus htaken (by omega)
  · intro heq
    rw [heq]

/-- `input.e - input.r` is the number of characters in the buffer. -/
theorem edit_sub_read (h : Holds i l taken) :
    wrapUint (i.e - i.r) = l.text.length - taken.length := by
  obtain ⟨htext, htaken, hroom⟩ := h.length_text
  have htail : i.e = l.text.length % 2 ^ 32 := h.ring.tail
  have hhead : i.r = taken.length % 2 ^ 32 := h.ring.head
  rw [htail, hhead]
  exact wrapUint_sub (by omega) hroom

/-- `input.e - input.w` is the number of characters that can be edited. -/
theorem edit_sub_write (h : Holds i l taken) : wrapUint (i.e - i.w) = l.pending.length := by
  obtain ⟨htext, htaken, hroom⟩ := h.length_text
  have htail : i.e = l.text.length % 2 ^ 32 := h.ring.tail
  rw [htail, h.write, wrapUint_sub (by omega) (by omega)]
  omega

variable {committed pending : List UInt8} {c : UInt8}

/-- No character that can be edited has been taken. -/
theorem length_taken_le {p : List UInt8} (h : Holds i ⟨committed, p⟩ taken) :
    taken.length ≤ (committed ++ pending).length := by
  have hle : taken.length ≤ committed.length := h.isPrefix.length_le
  rw [List.length_append]
  omega

/-- The last character that can be edited. -/
theorem last_eq (h : Holds i ⟨committed, pending ++ [c]⟩ taken) : i.last = c := by
  have hring : i.ring.Models ((committed ++ pending) ++ [c]) taken := by
    rw [List.append_assoc]
    exact h.ring
  exact hring.back_eq dvd_modulus (by norm_num) h.length_taken_le

/-- The last character that can be edited is erased. -/
theorem unedit (h : Holds i ⟨committed, pending ++ [c]⟩ taken) :
    Holds i.unedit ⟨committed, pending⟩ taken := by
  have hring : i.ring.Models ((committed ++ pending) ++ [c]) taken := by
    rw [List.append_assoc]
    exact h.ring
  have hwrite : i.unedit.w = committed.length % 2 ^ 32 := by
    rw [Input.unedit_w]
    exact h.write
  refine ⟨?_, hwrite, h.isPrefix, fun hmem => h.typed (List.mem_append_left _ hmem)⟩
  rw [Input.ring_unedit]
  exact hring.unpush (by norm_num) h.length_taken_le

/-- Killing a line erases all that can be edited. The induction is on the turns of the loop;
no newline stops it. -/
theorem killLine {k : ℕ} (hk : pending.length ≤ k) (h : Holds i ⟨committed, pending⟩ taken) :
    Holds (i.killLine k) ⟨committed, []⟩ taken := by
  induction k generalizing i pending with
  | zero =>
    obtain rfl := List.length_eq_zero_iff.mp (Nat.le_zero.mp hk)
    exact h
  | succ k ih =>
    rw [Input.killLine]
    rcases List.eq_nil_or_concat' pending with rfl | ⟨rest, c, rfl⟩
    · rw [if_neg (fun hgo => hgo.1 (h.edit_eq_write_iff.mpr rfl))]
      exact h
    · have hsome : i.e ≠ i.w := by
        intro heq
        simpa using h.edit_eq_write_iff.mp heq
      have hlast : i.last ≠ newline := by
        rw [h.last_eq]
        rintro rfl
        exact h.typed (by simp)
      rw [if_pos ⟨hsome, hlast⟩]
      rw [List.length_append, List.length_singleton] at hk
      exact ih (by omega) h.unedit

/-- A character is stored when there is room. -/
theorem store (h : Holds i l taken) (hroom : l.text.length < taken.length + inputBuf)
    (c : UInt8) : (i.store c).ring.Models (l.text ++ [c]) taken := by
  have hnot : ¬ i.ring.Full := by
    rw [h.ring.full_iff inputBuf_lt_modulus]
    omega
  exact h.ring.push dvd_modulus inputBuf_lt_modulus hnot c

/-- After a character has been stored, `input.e == input.r+INPUT_BUF` is true if the buffer
is full. -/
theorem full_store_iff (h : Holds i l taken) (hroom : l.text.length < taken.length + inputBuf)
    (c : UInt8) : (i.store c).e = ((i.store c).r + inputBuf) % 2 ^ 32 ↔
      l.text.length + 1 = taken.length + inputBuf := by
  have hfull := (h.store hroom c).full_iff inputBuf_lt_modulus
  rwa [List.length_append, List.length_singleton] at hfull

/-- One character changes the line as `Line.type` says, and who waits for input is woken if
there is some. -/
theorem edit (h : Holds i l taken) (c : UInt8) :
    Holds (i.edit c).1 (l.type taken.length c) taken ∧
      ((i.edit c).2 = false → (l.type taken.length c).committed = l.committed) := by
  unfold Input.edit Line.type
  by_cases hlisting : c = ctrl 'P'
  · rw [if_pos hlisting, if_pos (Or.inl hlisting)]
    exact ⟨h, fun _ => rfl⟩
  by_cases hkill : c = ctrl 'U'
  · have hnul : ¬ (c = ctrl 'P' ∨ c = 0) := by
      subst hkill
      decide
    rw [if_neg hlisting, if_pos hkill, if_neg hnul, if_pos hkill]
    exact ⟨h.killLine h.edit_sub_write.ge, fun _ => rfl⟩
  by_cases hback : c = ctrl 'H' ∨ c = delete
  · have hnul : ¬ (c = ctrl 'P' ∨ c = 0) := by
      rcases hback with rfl | rfl <;> decide
    rw [if_neg hlisting, if_neg hkill, if_pos hback, if_neg hnul, if_neg hkill, if_pos hback]
    refine ⟨?_, fun _ => rfl⟩
    obtain ⟨committed, pending⟩ := l
    rcases List.eq_nil_or_concat' pending with rfl | ⟨rest, c, rfl⟩
    · rw [if_neg (not_not.mpr (h.edit_eq_write_iff.mpr rfl))]
      exact h
    · have hsome : i.e ≠ i.w := by
        intro heq
        simpa using h.edit_eq_write_iff.mp heq
      rw [if_pos hsome, List.dropLast_concat]
      exact h.unedit
  rw [if_neg hlisting, if_neg hkill, if_neg hback, if_neg hkill, if_neg hback]
  obtain ⟨htext, htaken, hspan⟩ := h.length_text
  rw [h.edit_sub_read]
  by_cases hnul : c = 0
  · rw [if_neg (fun hgo => hgo.1 hnul), if_pos (Or.inr hnul)]
    exact ⟨h, fun _ => rfl⟩
  rw [if_neg (not_or.mpr ⟨hlisting, hnul⟩)]
  by_cases hfull : taken.length + inputBuf ≤ l.text.length
  · rw [if_neg (by omega), if_pos hfull]
    exact ⟨h, fun _ => rfl⟩
  rw [if_pos ⟨hnul, by omega⟩, if_neg hfull]
  dsimp only
  generalize (if c = carriageReturn then newline else c) = d
  have hroom : l.text.length < taken.length + inputBuf := by omega
  have hstored := h.store hroom d
  simp only [h.full_store_iff hroom d]
  split_ifs with hcommit
  · refine ⟨⟨?_, ?_, ?_, ?_⟩, fun hno => by simp at hno⟩
    · have htext : Line.text ⟨l.text ++ [d], []⟩ = l.text ++ [d] := List.append_nil _
      rw [htext]
      exact hstored
    · exact hstored.tail
    · exact h.isPrefix.trans ((List.prefix_append _ _).trans (List.prefix_append _ _))
    · simp
  · refine ⟨⟨?_, h.write, h.isPrefix, ?_⟩, fun _ => rfl⟩
    · have htext : Line.text ⟨l.committed, l.pending ++ [d]⟩ = l.text ++ [d] :=
        (List.append_assoc _ _ _).symm
      rw [htext]
      exact hstored
    · intro hmem
      rcases List.mem_append.mp hmem with hold | hnew
      · exact h.typed hold
      · exact hcommit (Or.inl (List.mem_singleton.mp hnew).symm)

/-- `consoleintr`, over its characters. -/
theorem consoleintr (h : Holds i l taken) (cs : List UInt8) :
    Holds (i.consoleintr cs).1 (cs.foldl (Line.type taken.length) l) taken ∧
      ((i.consoleintr cs).2 = false →
        (cs.foldl (Line.type taken.length) l).committed = l.committed) := by
  induction cs generalizing i l with
  | nil => exact ⟨h, fun _ => rfl⟩
  | cons c cs ih =>
    obtain ⟨hedit, hquiet⟩ := h.edit c
    obtain ⟨hrest, hquiet'⟩ := ih hedit
    refine ⟨hrest, fun hno => ?_⟩
    obtain ⟨hfirst, hlast⟩ := Bool.or_eq_false_iff.mp hno
    rw [List.foldl_cons, hquiet' hlast, hquiet hfirst]

/-! ## Reading -/

/-- A character that has been committed is taken. -/
theorem take (h : Holds i l taken) (hsome : i.r ≠ i.w) : Holds i.take l (taken ++ [i.next]) := by
  obtain ⟨htext, hle, hroom⟩ := h.length_text
  have hlt : taken.length < l.committed.length := by
    rw [Ne, h.read_eq_write_iff] at hsome
    omega
  have hnot : ¬ i.ring.Empty := by
    rw [h.ring.empty_iff inputBuf_lt_modulus]
    omega
  have hpop : i.take.ring.Models l.text (taken ++ [i.next]) :=
    h.ring.pop dvd_modulus inputBuf_lt_modulus hnot
  refine ⟨hpop, h.write, ?_, h.typed⟩
  apply List.prefix_of_prefix_length_le hpop.isPrefix (List.prefix_append _ _)
  rw [List.length_append, List.length_singleton]
  omega

/-- Putting back the character that has been taken restores the buffer. -/
theorem putBack_take (h : Holds i l taken) : i.take.putBack = i := by
  have hlt : i.r < 2 ^ 32 := by
    have hhead : i.r = taken.length % 2 ^ 32 := h.ring.head
    rw [hhead]
    exact Nat.mod_lt _ (Nat.two_pow_pos 32)
  unfold Input.take Input.putBack
  dsimp only
  rw [RingBuffer.succ_mod_sub_one (Nat.two_pow_pos 32), Nat.mod_eq_of_lt hlt]

end Holds

/-- What one section of `consoleread` that starts with `n` of `target` bytes to go has done. -/
structure Reads (l : Line) (taken : List UInt8) (target n : ℕ) (x : Input.Section) : Prop where
  /-- What it has consumed is the input that comes next. -/
  holds : Holds x.input l (taken ++ x.consumed)
  /-- `n` counts the bytes to go. -/
  left : x.n + x.bytes.length = n
  /-- A control-D is not delivered. -/
  noEof : ctrl 'D' ∉ x.bytes
  /-- A newline is the last byte delivered. -/
  oneLine : newline ∉ x.bytes.dropLast
  /-- It sleeps when all that is committed has been taken, and no line is complete. -/
  asleep : x.stop = .asleep → newline ∉ x.bytes ∧
    (taken ++ x.consumed).length = l.committed.length
  /-- Else the call returns, and consumes a control-D exactly if it has no byte to return. -/
  eof : x.stop ≠ .asleep → (x.stop = .eof ↔ x.n = target ∧ target ≠ 0)

/-- One section of `consoleread`. The induction is on the bytes to go. -/
theorem Holds.consoleread {target n : ℕ} (hn : n ≤ target) (h : Holds i l taken) :
    Reads l taken target n (i.consoleread target n) := by
  induction n generalizing i taken with
  | zero =>
    constructor
    · simpa [Input.consoleread, Input.Section.consumed] using h
    all_goals simp [Input.consoleread]
    omega
  | succ n ih =>
    rw [Input.consoleread]
    by_cases hnone : i.r = i.w
    · have hall := h.read_eq_write_iff.mp hnone
      rw [if_pos hnone]
      constructor
      · simpa [Input.Section.consumed] using h
      all_goals simp [Input.Section.consumed, hall]
    rw [if_neg hnone]
    have htake := h.take hnone
    by_cases heof : i.next = ctrl 'D'
    · rw [if_pos heof]
      by_cases hsome : n + 1 < target
      · rw [if_pos hsome]
        constructor
        · simpa [Input.Section.consumed, h.putBack_take] using h
        all_goals simp
        omega
      · rw [if_neg hsome]
        constructor
        · simpa [Input.Section.consumed, ← heof] using htake
        all_goals simp
        omega
    rw [if_neg heof]
    by_cases hline : i.next = newline
    · rw [if_pos hline]
      constructor
      · simpa [Input.Section.consumed] using htake
      all_goals simp
      · exact fun h => heof h.symm
      · omega
    rw [if_neg hline]
    have hrest := ih (by omega) htake
    obtain ⟨hholds, hleft, hnoEof, honeLine, hasleep, heof'⟩ := hrest
    constructor
    · simpa [Input.Section.consumed] using hholds
    · simp only [List.length_cons]
      omega
    · simp [hnoEof, Ne.symm heof]
    · simp only
      generalize (i.take.consoleread target n).bytes = bytes at honeLine
      cases bytes with
      | nil => simp
      | cons c cs => simpa [Ne.symm hline] using honeLine
    · intro hstop
      obtain ⟨hno, hall⟩ := hasleep hstop
      refine ⟨by simp [hno, Ne.symm hline], ?_⟩
      simpa [Input.Section.consumed] using hall
    · exact heof'

/-! ## Runs -/

variable [DecidableEq T] {s s' : State T} {t : T} {c : Reading}

/-- The call of `consoleread` that a process is in. -/
def Phase.reading : Phase → Option Reading
  | .idle => none
  | .ready c | .asleep c => some c

/-- The bytes that the call a process is in has stored. -/
def Phase.bytes (p : Phase) : List UInt8 := (p.reading.map Reading.bytes).getD []

/-- A call that has consumed a control-D and returned 0 bytes. -/
def Call.Eof (c : Call T) : Prop := c.n ≠ 0 ∧ c.bytes = []

instance (c : Call T) : Decidable c.Eof := inferInstanceAs (Decidable (_ ∧ _))

/-- What a call has consumed: the bytes it has returned, or a control-D. -/
def Call.consumed (c : Call T) : List UInt8 := if c.Eof then [ctrl 'D'] else c.bytes

/-- What a call returns: the number of bytes it has stored, of one line at most. -/
structure Call.Sound (c : Call T) : Prop where
  /-- It returns the number of bytes. -/
  result : c.result = c.bytes.length
  /-- There is room for them at `dst`. -/
  bound : c.bytes.length ≤ c.n
  /-- A newline ends the call. -/
  oneLine : newline ∉ c.bytes.dropLast
  /-- A control-D is not delivered. -/
  noEof : ctrl 'D' ∉ c.bytes

/-- What a call has done that has not returned: no newline and no control-D has ended it. -/
structure Reading.Sound (c : Reading) : Prop where
  /-- `n` counts the bytes to go. -/
  left : c.n + c.bytes.length = c.target
  /-- No newline has ended it. -/
  noLine : newline ∉ c.bytes
  /-- No control-D has ended it. -/
  noEof : ctrl 'D' ∉ c.bytes

/-- The characters that a process has taken. -/
def State.takenBy (s : State T) (t : T) : List UInt8 :=
  (s.taken.filter fun x => x.1 = t).map Prod.snd

/-- The calls of a process that have returned. -/
def State.callsOf (s : State T) (t : T) : List (Call T) := s.calls.filter fun c => c.reader = t

/-- What holds in every state of a run. -/
structure Inv (s : State T) : Prop where
  /-- The buffer holds the input not taken. -/
  holds : Holds s.input s.line (s.taken.map Prod.snd)
  /-- The calls that have not returned. -/
  reading : ∀ t c, (s.phase t).reading = some c → c.Sound
  /-- The calls that have returned. -/
  returned : ∀ c ∈ s.calls, c.Sound
  /-- What a process has taken is what its calls have consumed. -/
  delivered : ∀ t, s.takenBy t = (s.callsOf t).flatMap Call.consumed ++ (s.phase t).bytes
  /-- The control-Ds taken are those that calls have returned 0 bytes for. -/
  eofs : (s.taken.map Prod.snd).count (ctrl 'D') = s.calls.countP (fun c => c.Eof)
  /-- Who sleeps has nothing to read. -/
  waiting : ∀ t c, s.phase t = .asleep c → s.taken.length = s.line.committed.length

@[simp] theorem reading_wake (p : Phase) : p.wake.reading = p.reading := by
  cases p <;> rfl

@[simp] theorem bytes_wake (p : Phase) : p.wake.bytes = p.bytes := by
  simp [Phase.bytes]

theorem wake_ne_asleep (p : Phase) : p.wake ≠ .asleep c := by
  cases p <;> simp [Phase.wake]

/-- At boot. -/
theorem inv_start : Inv (State.start : State T) := by
  constructor
  · constructor
    · exact RingBuffer.Models.start rfl rfl
    all_goals simp [State.start]
  all_goals simp [State.start, State.takenBy, State.callsOf, Phase.bytes, Phase.reading]

/-- `consoleintr` keeps the invariant. -/
theorem Inv.intr (h : Inv s) {cs : List UInt8} (hstep : step s (.intr cs) = some s') :
    Inv s' := by
  cases hstep
  have hlen : (s.taken.map Prod.snd).length = s.taken.length := List.length_map _
  obtain ⟨hholds, hquiet⟩ := h.holds.consoleintr cs
  rw [hlen] at hholds hquiet
  constructor
  · exact hholds
  · intro t c hc
    apply h.reading t c
    dsimp only at hc
    split_ifs at hc
    · rwa [reading_wake] at hc
    · exact hc
  · exact h.returned
  · intro t
    refine (h.delivered t).trans ?_
    congr 1
    dsimp only
    split_ifs
    · rw [bytes_wake]
    · rfl
  · exact h.eofs
  · intro t c hc
    dsimp only at hc ⊢
    split_ifs at hc with hwake
    · exact absurd hc (wake_ne_asleep _)
    · rw [hquiet (by simpa using hwake)]
      exact h.waiting t c hc

/-- A call of `consoleread` that begins keeps the invariant. -/
theorem Inv.call (h : Inv s) {n : ℕ} (hstep : step s (.call t n) = some s') : Inv s' := by
  simp only [step] at hstep
  split at hstep
  case h_2 => cases hstep
  case h_1 hidle =>
    cases hstep
    constructor
    · exact h.holds
    · intro u c hc
      simp only [State.goto] at hc
      split_ifs at hc
      · cases hc
        exact ⟨by simp, by simp, by simp⟩
      · exact h.reading u c hc
    · exact h.returned
    · intro u
      refine (h.delivered u).trans ?_
      simp only [State.goto]
      split_ifs with hu
      · rw [hu, hidle]
        rfl
      · rfl
    · exact h.eofs
    · intro u c hc
      simp only [State.goto] at hc
      split_ifs at hc
      exact h.waiting u c hc

/-- What the processes have taken when one of them takes more. -/
theorem takenBy_append (s : State T) (t u : T) (cs : List UInt8) :
    ((s.taken ++ cs.map (t, ·)).filter fun x => x.1 = u).map Prod.snd =
      s.takenBy u ++ if u = t then cs else [] := by
  rw [List.filter_append, List.map_append, State.takenBy, List.append_cancel_left_eq,
    List.filter_map]
  by_cases hu : u = t
  · simp [hu, Function.comp_def]
  · simp [hu, Ne.symm hu, Function.comp_def]

omit [DecidableEq T] in
/-- A call that returns has consumed what its sections have consumed. -/
theorem Reads.consumed_call {x : Input.Section} (h : Reads l taken c.target c.n x)
    (hc : c.Sound) (hreturn : x.stop ≠ .asleep) :
    (⟨t, c.target, c.bytes ++ x.bytes, c.target - x.n⟩ : Call T).consumed =
        c.bytes ++ x.consumed ∧
      ((⟨t, c.target, c.bytes ++ x.bytes, c.target - x.n⟩ : Call T).Eof ↔ x.stop = .eof) := by
  have hleft := h.left
  have hleft' := hc.left
  have hiff : (⟨t, c.target, c.bytes ++ x.bytes, c.target - x.n⟩ : Call T).Eof ↔
      x.stop = .eof := by
    rw [h.eof hreturn, Call.Eof, List.append_eq_nil_iff, ← List.length_eq_zero_iff,
      ← List.length_eq_zero_iff]
    dsimp only
    omega
  refine ⟨?_, hiff⟩
  unfold Call.consumed Input.Section.consumed
  by_cases hstop : x.stop = .eof
  · have hnil : c.bytes ++ x.bytes = [] := (hiff.mpr hstop).2
    rw [if_pos (hiff.mpr hstop), if_pos hstop, ← List.append_assoc, hnil, List.nil_append]
  · rw [if_neg (fun heof => hstop (hiff.mp heof)), if_neg hstop, List.append_nil]

/-- The control-Ds that a section has taken. -/
theorem Reads.count_eof {target n : ℕ} {x : Input.Section} (h : Reads l taken target n x) :
    x.consumed.count (ctrl 'D') = if x.stop = .eof then 1 else 0 := by
  rw [Input.Section.consumed, List.count_append, List.count_eq_zero.mpr h.noEof, Nat.zero_add]
  split_ifs <;> simp

/-- A newline that is the last byte of a section is the last byte of the call. -/
theorem newline_notMem_dropLast {bs cs : List UInt8} (hold : newline ∉ bs)
    (hnew : newline ∉ cs.dropLast) : newline ∉ (bs ++ cs).dropLast := by
  intro hmem
  rw [List.dropLast_append] at hmem
  split_ifs at hmem with hnil
  · exact hold (List.mem_of_mem_dropLast hmem)
  · rcases List.mem_append.mp hmem with hbs | hcs
    · exact hold hbs
    · exact hnew hcs

/-- A section of `consoleread` keeps the invariant. -/
theorem Inv.go (h : Inv s) (hstep : step s (.go t) = some s') : Inv s' := by
  simp only [step] at hstep
  split at hstep
  case h_2 => cases hstep
  case h_1 c hready =>
    cases hstep
    have hc : c.Sound := h.reading t c (by rw [hready]; rfl)
    have hreads := h.holds.consoleread (by have := hc.left; omega : c.n ≤ c.target)
    have hpending : (s.phase t).bytes = c.bytes := by
      rw [hready]
      rfl
    unfold State.go
    generalize s.input.consoleread c.target c.n = x at hreads
    have hleft := hreads.left
    have hleft' := hc.left
    have hmap : (s.taken ++ x.consumed.map (t, ·)).map Prod.snd =
        s.taken.map Prod.snd ++ x.consumed := by
      simp [Function.comp_def]
    have hholds : Holds x.input s.line
        ((s.taken ++ x.consumed.map (t, ·)).map Prod.snd) := by
      rw [hmap]
      exact hreads.holds
    -- who sleeps has nothing to read, so this section has found nothing either
    have hwaiting : ∀ u d, s.phase u = .asleep d →
        (s.taken ++ x.consumed.map (t, ·)).length = s.line.committed.length := by
      intro u d hu
      have hle := hholds.isPrefix.length_le
      have hall := h.waiting u d hu
      rw [List.length_map, List.length_append] at hle
      rw [List.length_append]
      omega
    dsimp only
    split_ifs with hsleep
    · obtain ⟨hnoLine, hall⟩ := hreads.asleep hsleep
      have hconsumed : x.consumed = x.bytes := by
        simp [Input.Section.consumed, hsleep]
      constructor
      · exact hholds
      · intro u d hu
        simp only [State.goto] at hu
        split_ifs at hu with hut
        · cases hu
          constructor
          · simp only [List.length_append]
            omega
          · simp [hc.noLine, hnoLine]
          · simp [hc.noEof, hreads.noEof]
        · exact h.reading u d hu
      · exact h.returned
      · intro u
        refine (takenBy_append s t u x.consumed).trans ?_
        rw [h.delivered u, hconsumed, List.append_assoc]
        simp only [State.goto]
        split_ifs with hut
        · rw [hut, hpending]
          rfl
        · rw [List.append_nil]
          rfl
      · simp only [State.goto]
        rw [hmap, List.count_append, hreads.count_eof, hsleep, h.eofs]
        simp
      · intro u d hu
        simp only [State.goto] at hu ⊢
        split_ifs at hu with hut
        · simpa using hall
        · exact hwaiting u d hu
    · obtain ⟨hconsumed, heof⟩ := hreads.consumed_call (t := t) hc hsleep
      constructor
      · exact hholds
      · intro u d hu
        simp only [State.goto] at hu
        split_ifs at hu with hut
        · cases hu
        · exact h.reading u d hu
      · intro k hk
        rcases List.mem_append.mp hk with hold | hnew
        · exact h.returned k hold
        · obtain rfl := List.mem_singleton.mp hnew
          constructor
          · simp only [List.length_append]
            omega
          · simp only [List.length_append]
            omega
          · exact newline_notMem_dropLast hc.noLine hreads.oneLine
          · simp [hc.noEof, hreads.noEof]
      · intro u
        refine (takenBy_append s t u x.consumed).trans ?_
        rw [h.delivered u, State.callsOf, State.callsOf]
        simp only [State.goto, List.filter_append, List.flatMap_append]
        by_cases hut : u = t
        · subst hut
          rw [hpending]
          simp [hconsumed, Phase.bytes, Phase.reading]
        · simp [hut, Ne.symm hut]
      · simp only [State.goto]
        rw [hmap, List.count_append, hreads.count_eof, h.eofs, List.countP_append,
          List.countP_singleton]
        simp [heof]
      · intro u d hu
        simp only [State.goto] at hu
        split_ifs at hu
        exact hwaiting u d hu

/-- What holds in every state a run reaches. -/
theorem run_inv {trace : List (Action T)} (hrun : Run step free State.start trace s) : Inv s := by
  refine hrun.invariant (I := fun _ s => Inv s) inv_start ?_
  intro trace s a s' h _ hstep
  cases a with
  | intr cs => exact h.intr hstep
  | call t n => exact h.call hstep
  | go t => exact h.go hstep

end Xv6.ConsoleInput
