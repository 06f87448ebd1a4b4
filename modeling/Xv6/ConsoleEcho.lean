import Xv6.ConsoleLines
import Xv6.ConsoleScreen

/-!
# The console shows what is typed and written

`consoleintr` prints the characters it stores, and a `BACKSPACE` for each it erases; `consolewrite`
prints its bytes, and `cprintf` its text. When nothing is written in the middle of a line, the
screen shows the transcript: what was written, the lines that were typed, and the line that is
edited, as it is now.
-/

namespace Xv6.ConsoleInput

open GuardedRun PaperRoll

variable {T : Type*} [DecidableEq T]

namespace Input

/-- What at most `k` turns of the loop that kills a line print. -/
def killed : ℕ → Input → List ℕ
  | 0, _ => []
  | k + 1, i => if i.e ≠ i.w ∧ i.last ≠ newline then backspace :: killed k i.unedit else []

/-- What the body of the loop of `consoleintr` prints. -/
def echo (i : Input) (c : UInt8) : List ℕ :=
  if c = ctrl 'P' then []
  else if c = ctrl 'U' then i.killed (wrapUint (i.e - i.w))
  else if c = ctrl 'H' ∨ c = delete then (if i.e ≠ i.w then [backspace] else [])
  else if c ≠ 0 ∧ wrapUint (i.e - i.r) < inputBuf then
    let c := if c = carriageReturn then newline else c
    [c.toNat]
  else []

/-- What `consoleintr` prints. -/
def echoes (i : Input) : List UInt8 → List ℕ
  | [] => []
  | c :: cs => i.echo c ++ (i.edit c).1.echoes cs

end Input

/-! ## The system -/

/-- The console, with its screen. -/
structure Terminal (T : Type*) where
  /-- The input, and who reads it. -/
  console : State T
  /-- The screen. -/
  screen : Screen
  /-- What has been written, and the input committed, in the order of the two. -/
  transcript : List UInt8
  /-- Something has been written in the middle of a line. -/
  mixed : Bool

namespace Terminal

/-- At boot, what is on the screen stays. -/
def start (screen : Screen) : Terminal T := ⟨.start, screen, [], false⟩

/-- A step of the system. -/
inductive Action (T : Type*)
  /-- A step of `consoleintr` or of a reader. -/
  | input (a : ConsoleInput.Action T)
  /-- `consolewrite`, or a call of `cprintf` that prints `buf`. -/
  | write (buf : List UInt8)

/-- The characters that `getc` returns in a step. -/
def Action.chars : ConsoleInput.Action T → List UInt8
  | .intr cs => cs
  | _ => []

/-- The console and the screen after a step of the input. -/
def typed (s : Terminal T) (console : State T) (screen : Screen) : Terminal T :=
  { s with
    console := console
    screen := screen
    transcript :=
      s.transcript ++ console.line.committed.drop s.console.line.committed.length }

/-- The screen after something is written. -/
def written (s : Terminal T) (buf : List UInt8) (screen : Screen) : Terminal T :=
  { s with
    screen := screen
    transcript := s.transcript ++ buf
    mixed := s.mixed || !s.console.line.pending.isEmpty }

/-- The steps. -/
def step (s : Terminal T) : Action T → Option (Terminal T)
  | .input a =>
    (ConsoleInput.step s.console a).bind fun console =>
      (s.screen.print (s.console.input.echoes (Action.chars a))).map (s.typed console)
  | .write buf => (s.screen.print (buf.map UInt8.toNat)).map (s.written buf)

end Terminal

/-! ## The line on the screen -/

/-- A text is on the roll that a screen shows, and its last `n` characters can be erased. -/
structure Edits (k : ℕ) (text : List UInt8) (n : ℕ) (r : Roll UInt16) (s : Screen) : Prop where
  /-- The screen shows the roll. -/
  shows : Shows r s
  /-- The text is on the roll. -/
  lays : Lays k text r
  /-- The characters are below the top of the screen. -/
  room : r.top + n ≤ r.cursor

namespace Edits

variable {k n m : ℕ} {text : List UInt8} {r : Roll UInt16} {s : Screen} {c : UInt8}

/-- A character is printed. -/
theorem put (h : Edits k text n r s) (c : UInt8)
    (hm : m = 0 ∨ c ≠ newline ∧ m = n + 1 ∧ n < inputBuf) :
    ∃ r' s', s.cgaputc c.toNat = some s' ∧ Edits k (text ++ [c]) m r' s' := by
  obtain ⟨s', hput, hshows⟩ := shows_cgaputc h.shows c.toNat
  refine ⟨_, s', hput, hshows, h.lays.printed c, ?_⟩
  rcases hm with rfl | ⟨hline, rfl, hn⟩
  · have := hshows.cursor
    omega
  · have hroom := h.room
    have hne : c.toNat ≠ newline.toNat := fun heq => hline (UInt8.toNat_inj.mp heq)
    have hsmall : inputBuf = 128 := rfl
    have hprinted : printed r c.toNat =
        ((r.write r.cursor (glyph c.toNat)).goto 80 24 (r.cursor + 1)).write (r.cursor + 1)
          blank := by
      unfold printed
      rw [if_neg hne, if_neg (ne_backspace c)]
      rfl
    rw [hprinted, Roll.write_top, Roll.write_cursor, Roll.goto_cursor]
    refine Roll.goto_top_room ?_ (by omega)
    rw [Roll.write_top]
    omega

/-- The last character is erased. -/
theorem back (h : Edits k (text ++ [c]) (n + 1) r s) (hline : c ≠ newline) :
    ∃ r' s', s.cgaputc backspace = some s' ∧ Edits k text n r' s' := by
  obtain ⟨s', hput, hshows⟩ := shows_cgaputc h.shows backspace
  have hroom := h.room
  have hcursor := h.shows.cursor
  have hvisible := h.shows.visible
  refine ⟨_, s', hput, hshows, h.lays.erased hline (by omega), ?_⟩
  have hgo : r.top < r.cursor := by omega
  unfold printed
  rw [if_neg (by decide), if_pos rfl, if_pos hgo]
  dsimp only [Roll.write_top, Roll.write_cursor, Roll.goto_cursor]
  rw [Roll.goto_top (by omega)]
  omega

/-- A text is written. -/
theorem print (h : Edits k text 0 r s) (buf : List UInt8) :
    ∃ r' s', s.print (buf.map UInt8.toNat) = some s' ∧ Edits k (text ++ buf) 0 r' s' := by
  induction buf generalizing text r s with
  | nil => exact ⟨r, s, rfl, by rwa [List.append_nil]⟩
  | cons c buf ih =>
    obtain ⟨r', s', hput, hedits⟩ := h.put c (Or.inl rfl)
    obtain ⟨r'', s'', hprint, hedits'⟩ := ih hedits
    refine ⟨r'', s'', ?_, by rwa [List.append_cons]⟩
    rw [List.map_cons, Screen.print, List.foldlM_cons, hput]
    exact hprint

end Edits

/-! ## Typing -/

theorem drop_text {l : Line} {n : ℕ} (hn : n ≤ l.committed.length) :
    l.text.drop n = l.committed.drop n ++ l.pending := List.drop_append_of_le_length hn

theorem print_append {s s' : Screen} {cs ds : List ℕ} (hprint : s.print cs = some s') :
    s.print (cs ++ ds) = s'.print ds := by
  unfold Screen.print at hprint ⊢
  rw [List.foldlM_append, hprint]
  rfl

namespace Edits

variable {k n : ℕ} {text : List UInt8} {r : Roll UInt16} {s : Screen} {i : Input} {l : Line}
  {taken : List UInt8}

/-- The loop that kills a line erases it. The induction is on its turns. -/
theorem killed {committed pending : List UInt8} {turns : ℕ} (hturns : pending.length ≤ turns)
    (h : Edits k (text ++ pending) pending.length r s) (hi : Holds i ⟨committed, pending⟩ taken) :
    ∃ r' s', s.print (i.killed turns) = some s' ∧ Edits k text 0 r' s' := by
  induction turns generalizing i pending r s with
  | zero =>
    obtain rfl := List.length_eq_zero_iff.mp (Nat.le_zero.mp hturns)
    exact ⟨r, s, rfl, by rwa [List.append_nil] at h⟩
  | succ turns ih =>
    rw [Input.killed]
    rcases List.eq_nil_or_concat' pending with rfl | ⟨rest, c, rfl⟩
    · rw [if_neg (fun hgo => hgo.1 (hi.edit_eq_write_iff.mpr rfl))]
      exact ⟨r, s, rfl, by rwa [List.append_nil] at h⟩
    · have hsome : i.e ≠ i.w := by
        intro heq
        simpa using hi.edit_eq_write_iff.mp heq
      have hline : c ≠ newline := by
        rintro rfl
        exact hi.typed (by simp)
      rw [if_pos ⟨hsome, by rwa [hi.last_eq]⟩]
      rw [← List.append_assoc, List.length_append, List.length_singleton] at h
      obtain ⟨r', s', hput, hedits⟩ := h.back hline
      rw [List.length_append, List.length_singleton] at hturns
      obtain ⟨r'', s'', hprint, hedits'⟩ := ih (by omega) hedits hi.unedit
      refine ⟨r'', s'', ?_, hedits'⟩
      rw [Screen.print, List.foldlM_cons, hput]
      exact hprint

/-- What is printed for a character that is typed. -/
theorem echo (h : Edits k (text ++ l.text.drop n) l.pending.length r s) (hi : Holds i l taken)
    (hn : n ≤ l.committed.length) (c : UInt8) :
    ∃ r' s', s.print (i.echo c) = some s' ∧
      Edits k (text ++ (l.type taken.length c).text.drop n)
        (l.type taken.length c).pending.length r' s' := by
  unfold Input.echo Line.type
  by_cases hlisting : c = ctrl 'P'
  · rw [if_pos hlisting, if_pos (Or.inl hlisting)]
    exact ⟨r, s, rfl, h⟩
  by_cases hkill : c = ctrl 'U'
  · have hnul : ¬ (c = ctrl 'P' ∨ c = 0) := by
      subst hkill
      decide
    rw [if_neg hlisting, if_pos hkill, if_neg hnul, if_pos hkill]
    rw [drop_text hn, ← List.append_assoc] at h
    obtain ⟨r', s', hprint, hedits⟩ := h.killed hi.edit_sub_write.ge hi
    refine ⟨r', s', hprint, ?_⟩
    rw [drop_text (l := ⟨l.committed, []⟩) hn, List.append_nil]
    exact hedits
  by_cases hback : c = ctrl 'H' ∨ c = delete
  · have hnul : ¬ (c = ctrl 'P' ∨ c = 0) := by
      rcases hback with rfl | rfl <;> decide
    rw [if_neg hlisting, if_neg hkill, if_pos hback, if_neg hnul, if_neg hkill, if_pos hback]
    obtain ⟨committed, pending⟩ := l
    rcases List.eq_nil_or_concat' pending with rfl | ⟨rest, d, rfl⟩
    · rw [if_neg (not_not.mpr (hi.edit_eq_write_iff.mpr rfl))]
      exact ⟨r, s, rfl, h⟩
    · have hsome : i.e ≠ i.w := by
        intro heq
        simpa using hi.edit_eq_write_iff.mp heq
      have hline : d ≠ newline := by
        rintro rfl
        exact hi.typed (by simp)
      rw [drop_text hn, ← List.append_assoc, ← List.append_assoc, List.length_append,
        List.length_singleton] at h
      obtain ⟨r', s', hput, hedits⟩ := h.back hline
      refine ⟨r', s', ?_, ?_⟩
      · rw [if_pos hsome, Screen.print, List.foldlM_cons, hput]
        rfl
      · rw [List.dropLast_concat, drop_text (l := ⟨committed, rest⟩) hn, ← List.append_assoc]
        exact hedits
  rw [if_neg hlisting, if_neg hkill, if_neg hback, if_neg hkill, if_neg hback]
  obtain ⟨htext, htaken, hspan⟩ := hi.length_text
  rw [hi.edit_sub_read]
  by_cases hnul : c = 0
  · rw [if_neg (fun hgo => hgo.1 hnul), if_pos (Or.inr hnul)]
    exact ⟨r, s, rfl, h⟩
  rw [if_neg (not_or.mpr ⟨hlisting, hnul⟩)]
  by_cases hfull : taken.length + inputBuf ≤ l.text.length
  · rw [if_neg (by omega), if_pos hfull]
    exact ⟨r, s, rfl, h⟩
  rw [if_pos ⟨hnul, by omega⟩, if_neg hfull]
  dsimp only
  generalize (if c = carriageReturn then newline else c) = d
  rw [drop_text hn, ← List.append_assoc] at h
  split_ifs with hcommit
  · obtain ⟨r', s', hput, hedits⟩ := h.put d (Or.inl rfl)
    refine ⟨r', s', ?_, ?_⟩
    · rw [Screen.print, List.foldlM_cons, hput]
      rfl
    · have hle : n ≤ (l.text ++ [d]).length := by
        rw [List.length_append, htext]
        omega
      have hdrop : (l.text ++ [d]).drop n = l.committed.drop n ++ l.pending ++ [d] := by
        rw [List.drop_append_of_le_length (by omega), drop_text hn]
      rw [drop_text (l := ⟨l.text ++ [d], []⟩) hle, List.append_nil, hdrop, ← List.append_assoc,
        ← List.append_assoc]
      exact hedits
  · obtain ⟨r', s', hput, hedits⟩ := h.put d
      (Or.inr ⟨fun heq => hcommit (Or.inl heq), rfl, by omega⟩)
    refine ⟨r', s', ?_, ?_⟩
    · rw [Screen.print, List.foldlM_cons, hput]
      rfl
    · rw [drop_text (l := ⟨l.committed, l.pending ++ [d]⟩) hn, ← List.append_assoc,
        ← List.append_assoc, List.length_append]
      exact hedits

/-- What `consoleintr` prints. -/
theorem echoes (h : Edits k (text ++ l.text.drop n) l.pending.length r s) (hi : Holds i l taken)
    (hn : n ≤ l.committed.length) (cs : List UInt8) :
    ∃ r' s', s.print (i.echoes cs) = some s' ∧
      Edits k (text ++ (cs.foldl (Line.type taken.length) l).text.drop n)
        (cs.foldl (Line.type taken.length) l).pending.length r' s' := by
  induction cs generalizing i l r s with
  | nil => exact ⟨r, s, rfl, h⟩
  | cons c cs ih =>
    obtain ⟨r', s', hprint, hedits⟩ := h.echo hi hn c
    have hgrow := (Line.committed_prefix_type taken.length l c).length_le
    obtain ⟨r'', s'', hprint', hedits'⟩ := ih hedits (hi.edit c).1 (hn.trans hgrow)
    refine ⟨r'', s'', ?_, hedits'⟩
    rw [Input.echoes, print_append hprint]
    exact hprint'

end Edits

/-! ## The runs -/

variable {k : ℕ} {s s' : Terminal T}

/-- What holds in every state of a run, if the screen is as at boot or not. -/
structure Terminal.Inv (k : ℕ) (s : Terminal T) : Prop where
  /-- The input. -/
  console : ConsoleInput.Inv s.console
  /-- The screen is the window of a roll. -/
  shows : ∃ r, Shows r s.screen
  /-- Nothing is after the cursor. -/
  clean : s.screen.Clean
  /-- The transcript is on the roll. -/
  edits : s.mixed = false → ∃ r, Edits k (s.transcript ++ s.console.line.pending)
    s.console.line.pending.length r s.screen

theorem inv_terminal {screen : Screen} (hpos : screen.pos < 80 * 24) (hclean : screen.Clean) :
    (Terminal.start screen : Terminal T).Inv screen.pos where
  console := inv_start
  shows := ⟨_, shows_roll hpos⟩
  clean := hclean
  edits _ := ⟨_, shows_roll hpos, .nil rfl, Nat.zero_le _⟩

/-- Printing keeps the screen a window of a roll, with nothing after the cursor. -/
theorem Terminal.Inv.print (h : s.Inv k) (cs : List ℕ) : ∃ screen, s.screen.print cs = some screen ∧
    (∃ r, Shows r screen) ∧ screen.Clean := by
  obtain ⟨r, hshows⟩ := h.shows
  obtain ⟨screen, hprint, hshows', -⟩ := shows_print hshows cs
  refine ⟨screen, hprint, ⟨_, hshows'⟩, ?_⟩
  rw [clean_iff hshows']
  exact ((clean_iff hshows).mp h.clean).foldl_printed cs

theorem inv_step {s s' : State T} {a : ConsoleInput.Action T} (h : ConsoleInput.Inv s)
    (hstep : ConsoleInput.step s a = some s') : ConsoleInput.Inv s' := by
  cases a with
  | intr cs => exact h.intr hstep
  | call t n => exact h.call hstep
  | go t => exact h.go hstep

/-- Only `consoleintr` edits the line. -/
theorem line_step {s s' : State T} {a : ConsoleInput.Action T}
    (hstep : ConsoleInput.step s a = some s') :
    s'.line = (Terminal.Action.chars a).foldl (Line.type s.taken.length) s.line := by
  cases a with
  | intr cs =>
    cases hstep
    rfl
  | call t n =>
    simp only [ConsoleInput.step] at hstep
    split at hstep <;> cases hstep
    rfl
  | go t =>
    simp only [ConsoleInput.step] at hstep
    split at hstep <;> cases hstep
    simp only [State.go]
    split_ifs <;> rfl

/-- The steps of `consoleintr` and of the readers. -/
theorem Terminal.Inv.input (h : s.Inv k) {a : ConsoleInput.Action T} {console : State T}
    (hconsole : ConsoleInput.step s.console a = some console) :
    ∃ s', Terminal.step s (.input a) = some s' ∧ s'.console = console ∧ s'.Inv k := by
  obtain ⟨screen, hprint, hshows, hclean⟩ :=
    h.print (s.console.input.echoes (Terminal.Action.chars a))
  refine ⟨s.typed console screen, ?_, rfl, inv_step h.console hconsole, hshows, hclean,
    fun hmixed => ?_⟩
  · rw [Terminal.step, hconsole, Option.bind_some, hprint]
    rfl
  · obtain ⟨r, hedits⟩ := h.edits hmixed
    have hline := line_step hconsole
    have htext : s.console.line.text.drop s.console.line.committed.length =
        s.console.line.pending := by
      rw [drop_text le_rfl, List.drop_length, List.nil_append]
    have hshown : Edits k
        (s.transcript ++ s.console.line.text.drop s.console.line.committed.length)
        s.console.line.pending.length r s.screen := by rwa [htext]
    obtain ⟨r', screen', hprint', hedits'⟩ :=
      hshown.echoes h.console.holds le_rfl (Terminal.Action.chars a)
    rw [List.length_map, ← hline] at hedits'
    obtain rfl := Option.some.inj (hprint.symm.trans hprint')
    have hgrow : s.console.line.committed.length ≤ console.line.committed.length := by
      rw [hline]
      exact (Line.committed_prefix_foldl _ _ _).length_le
    rw [drop_text hgrow, ← List.append_assoc] at hedits'
    exact ⟨r', hedits'⟩

/-- Something is written. -/
theorem Terminal.Inv.write (h : s.Inv k) (buf : List UInt8) :
    ∃ s', Terminal.step s (.write buf) = some s' ∧ s'.Inv k := by
  obtain ⟨screen, hprint, hshows, hclean⟩ := h.print (buf.map UInt8.toNat)
  refine ⟨s.written buf screen, ?_, h.console, hshows, hclean, fun hmixed => ?_⟩
  · rw [Terminal.step, hprint]
    rfl
  obtain ⟨hclear, hpending⟩ := Bool.or_eq_false_iff.mp hmixed
  have hnil : s.console.line.pending = [] := by simpa using hpending
  obtain ⟨r, hedits⟩ := h.edits hclear
  rw [hnil, List.append_nil] at hedits
  obtain ⟨r', screen', hprint', hedits'⟩ := hedits.print buf
  obtain rfl := Option.some.inj (hprint.symm.trans hprint')
  refine ⟨r', ?_⟩
  dsimp only [Terminal.written]
  rwa [hnil, List.append_nil]

/-- What holds in every state a run reaches. -/
theorem run_terminal {screen : Screen} (hpos : screen.pos < 80 * 24) (hclean : screen.Clean)
    {trace : List (Terminal.Action T)}
    (hrun : Run Terminal.step free (Terminal.start screen) trace s) : s.Inv screen.pos := by
  refine hrun.invariant (I := fun _ s => s.Inv screen.pos) (inv_terminal hpos hclean) ?_
  intro trace s a s' h _ hstep
  cases a with
  | input a =>
    obtain ⟨console, hconsole, -⟩ := Option.bind_eq_some_iff.mp hstep
    obtain ⟨t, ht, -, hinv⟩ := h.input hconsole
    rwa [Option.some.inj (hstep.symm.trans ht)]
  | write buf =>
    obtain ⟨t, ht, hinv⟩ := h.write buf
    rwa [Option.some.inj (hstep.symm.trans ht)]

/-- In every run of `consoleintr`, of readers and of writers, printing does not panic, the cursor
stays on the 24 lines, and nothing is after it. As long as nothing has been written in the middle
of a line, the screen shows the end of the transcript and of the line that is edited, each
character in its place; and all of the line is on the screen. -/
theorem screen_shows_transcript {screen : Screen} (hpos : screen.pos < 80 * 24)
    (hclean : screen.Clean) {trace : List (Terminal.Action T)}
    (hrun : Run Terminal.step free (Terminal.start screen) trace s) :
    (∀ a, (ConsoleInput.step s.console a).isSome → (Terminal.step s (.input a)).isSome) ∧
    (∀ buf, (Terminal.step s (.write buf)).isSome) ∧
    s.screen.pos < 80 * 24 ∧ s.screen.Clean ∧
    (s.mixed = false → ∃ top,
      top + s.screen.pos =
        ends 80 newline screen.pos (s.transcript ++ s.console.line.pending) ∧
      (∀ p ∈ places 80 newline screen.pos (s.transcript ++ s.console.line.pending), top ≤ p.1 →
        s.screen.crt (p.1 - top) = glyph p.2.toNat) ∧
      s.console.line.pending.length ≤ s.screen.pos) := by
  have h := run_terminal hpos hclean hrun
  obtain ⟨r, hshows⟩ := h.shows
  refine ⟨fun a ha => ?_, fun buf => ?_, hshows.visible, h.clean, fun hmixed => ?_⟩
  · obtain ⟨console, hconsole⟩ := Option.isSome_iff_exists.mp ha
    obtain ⟨t, ht, -⟩ := h.input hconsole
    rw [ht]
    rfl
  · obtain ⟨t, ht, -⟩ := h.write buf
    rw [ht]
    rfl
  · obtain ⟨r, hedits⟩ := h.edits hmixed
    have hcursor := hedits.shows.cursor
    have hroom := hedits.room
    have hends := hedits.lays.cursor
    refine ⟨r.top, hcursor.trans hends, fun p hp htop => ?_, by omega⟩
    have hlt := lt_ends_of_mem_places (by norm_num) hp
    have hvisible := hedits.shows.visible
    rw [hedits.shows.cells _ (by omega), Nat.add_sub_cancel' htop]
    exact hedits.lays.cells p hp

/-- A prompt is written, and a word is typed, with a character that is erased. -/
theorem screen_shows_transcript_ls : ∃ s : Terminal ℕ,
    (s.transcript = [36, 32] ∧ s.console.line.pending = [108, 115]) ∧ s.screen.Clean ∧
    ∃ top, top + s.screen.pos = 4 ∧ (top ≤ 3 → s.screen.crt (3 - top) = glyph 115) := by
  have hexec : ∃ s, exec Terminal.step free []
      (Terminal.start ⟨fun _ => 0, 0⟩ : Terminal ℕ)
      [.write [36, 32], .input (.intr [108, 122, ctrl 'H', 115])] = some s ∧
      s.transcript = [36, 32] ∧ s.console.line.pending = [108, 115] ∧ s.mixed = false :=
    ⟨_, rfl, by decide, by decide, by decide⟩
  obtain ⟨s, hexec, htranscript, hpending, hmixed⟩ := hexec
  obtain ⟨-, -, -, hclean, hshown⟩ := screen_shows_transcript (by decide)
    (fun _ _ _ => Or.inr rfl) (run_of_exec hexec)
  obtain ⟨top, hends, hcells, -⟩ := hshown hmixed
  rw [htranscript, hpending] at hends hcells
  exact ⟨s, ⟨htranscript, hpending⟩, hclean, top, hends, hcells (3, 115) (by decide)⟩

end Xv6.ConsoleInput
