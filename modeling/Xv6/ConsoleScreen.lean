import Xv6.ConsoleInput
import Xv6.Lib.PaperRoll

/-!
# The console screen

`cgaputc` of `console.c` writes to the screen of 25 lines, of which it uses 24, and keeps the cursor
in a register of the display. For what is printed, the screen is a window on a roll of paper. What
goes to the serial port is left out.
-/

namespace Xv6.ConsoleInput

open PaperRoll

/-- `BACKSPACE`. -/
def backspace : ℕ := 0x100

/-- A character, black on white. -/
def glyph (c : ℕ) : UInt16 := UInt16.ofNat (c &&& 0xff) ||| 0x0700

/-- A blank, black on white. -/
def blank : UInt16 := glyph ' '.toNat

/-- The screen. -/
structure Screen where
  /-- The memory at `crt`. -/
  crt : ℕ → UInt16
  /-- The register with the position of the cursor. -/
  pos : ℕ

namespace Screen

/-- `memmove(crt, crt+80, sizeof(crt[0])*23*80)`. -/
def moveUp (crt : ℕ → UInt16) : ℕ → UInt16 := fun k => if k < 23 * 80 then crt (k + 80) else crt k

/-- `memset(crt+pos, 0, sizeof(crt[0])*(24*80 - pos))`. -/
def clear (crt : ℕ → UInt16) (pos : ℕ) : ℕ → UInt16 :=
  fun k => if pos ≤ k ∧ k < 24 * 80 then 0 else crt k

/-- Where the character of `cgaputc` goes, and where the cursor is then. -/
def advance (s : Screen) (c : ℕ) : Screen :=
  if c = newline.toNat then { s with pos := s.pos + (80 - s.pos % 80) }
  else if c = backspace then { s with pos := if 0 < s.pos then s.pos - 1 else s.pos }
  else ⟨Function.update s.crt s.pos (glyph c), s.pos + 1⟩

/-- The rest of `cgaputc`; `none` for its panic. -/
def settle (s : Screen) : Option Screen :=
  if 25 * 80 < s.pos then none
  else
    -- scroll up
    let s := if 24 ≤ s.pos / 80 then ⟨clear (moveUp s.crt) (s.pos - 80), s.pos - 80⟩ else s
    some ⟨Function.update s.crt s.pos blank, s.pos⟩

/-- `cgaputc`. -/
def cgaputc (s : Screen) (c : ℕ) : Option Screen := (s.advance c).settle

end Screen

/-- Some characters are printed. -/
def Screen.print (s : Screen) (cs : List ℕ) : Option Screen := cs.foldlM Screen.cgaputc s

/-! ## The roll -/

/-- What is printed on a roll of paper; the cursor cannot go back above the window. -/
def printed (r : Roll UInt16) (c : ℕ) : Roll UInt16 :=
  let r :=
    if c = newline.toNat then r.goto 80 24 ((r.cursor / 80 + 1) * 80)
    else if c = backspace then r.goto 80 24 (if r.top < r.cursor then r.cursor - 1 else r.cursor)
    else (r.write r.cursor (glyph c)).goto 80 24 (r.cursor + 1)
  r.write r.cursor blank

/-- A screen shows the window of a roll. -/
abbrev Shows (r : Roll UInt16) (s : Screen) : Prop := PaperRoll.Shows 80 24 0 r s.crt s.pos

/-- The roll of a screen that nothing has been printed on. -/
def Screen.roll (s : Screen) : Roll UInt16 :=
  ⟨fun k => if k < 80 * 24 then s.crt k else 0, s.pos, 0⟩

section Shows

variable {r : Roll UInt16} {s : Screen} {c : ℕ}

theorem shows_roll (hpos : s.pos < 80 * 24) : Shows s.roll s where
  cursor := zero_add _
  visible := hpos
  line := dvd_zero _
  cells k hk := by
    unfold Screen.roll
    rw [zero_add]
    exact (if_pos hk).symm
  fresh k hk := by
    unfold Screen.roll at hk ⊢
    exact if_neg (by simpa using hk)

/-- Scrolling by `memmove` and `memset`. -/
theorem clear_moveUp (crt : ℕ → UInt16) {pos k : ℕ} (hpos : pos = 23 * 80) (hk : k < 80 * 24) :
    Screen.clear (Screen.moveUp crt) pos k = if k + 80 < 80 * 24 then crt (k + 80) else 0 := by
  unfold Screen.clear Screen.moveUp
  by_cases hlast : k + 80 < 80 * 24
  · rw [if_pos hlast, if_neg (by omega), if_pos (by omega)]
  · rw [if_neg hlast, if_pos (by omega)]

/-- After the cursor has moved within the window, or to the line below it. -/
theorem shows_settle {crt : ℕ → UInt16} {old pos : ℕ} (h : Shows r ⟨crt, old⟩)
    (hpos : pos ≤ 80 * 24) : ∃ s', Screen.settle ⟨crt, pos⟩ = some s' ∧
      Shows ((r.goto 80 24 (r.top + pos)).write (r.top + pos) blank) s' := by
  unfold Screen.settle
  dsimp only
  rw [if_neg (by omega)]
  refine ⟨_, rfl, ?_⟩
  by_cases hlast : pos < 80 * 24
  · have hwrite := (h.goto hlast).write (a := blank) hlast
    rw [Roll.goto_top (by omega)] at hwrite
    rw [if_neg (by omega)]
    exact hwrite
  · have hline : pos - 80 = 23 * 80 := by omega
    have hscroll := h.scroll (Nat.not_lt.mp hlast) (by omega)
      (fun k hk => clear_moveUp crt hline hk)
    have hwrite := hscroll.write (a := blank) hscroll.visible
    rw [hscroll.cursor, Roll.goto_cursor] at hwrite
    rw [if_pos (by omega)]
    exact hwrite

/-- A character that `cgaputc` prints is printed on the roll, and it does not panic. -/
theorem shows_cgaputc (h : Shows r s) (c : ℕ) :
    ∃ s', s.cgaputc c = some s' ∧ Shows (printed r c) s' := by
  have hcursor := h.cursor
  have hvisible := h.visible
  unfold Screen.cgaputc Screen.advance printed
  by_cases hline : c = newline.toNat
  · rw [if_pos hline, if_pos hline]
    -- the window begins with a line, so both cursors are at the same column
    obtain ⟨lines, hlines⟩ := h.line
    have hnext : (r.cursor / 80 + 1) * 80 = r.top + (s.pos + (80 - s.pos % 80)) := by omega
    rw [hnext]
    exact shows_settle h (by omega)
  rw [if_neg hline, if_neg hline]
  by_cases hback : c = backspace
  · rw [if_pos hback, if_pos hback]
    have hnext : (if r.top < r.cursor then r.cursor - 1 else r.cursor) =
        r.top + if 0 < s.pos then s.pos - 1 else s.pos := by
      split_ifs <;> omega
    rw [hnext]
    exact shows_settle h (by split_ifs <;> omega)
  rw [if_neg hback, if_neg hback]
  have hwrite := h.write (a := glyph c) hvisible
  rw [hcursor] at hwrite
  have hnext : r.cursor + 1 = (r.write r.cursor (glyph c)).top + (s.pos + 1) := by
    rw [Roll.write_top]
    omega
  dsimp only
  rw [hnext]
  exact shows_settle hwrite hvisible

theorem crt_settle {crt : ℕ → UInt16} {pos k : ℕ} {s' : Screen} (hpos : pos ≤ 80 * 24)
    (hput : Screen.settle ⟨crt, pos⟩ = some s') (hk : 80 * 24 ≤ k) : s'.crt k = crt k := by
  unfold Screen.settle at hput
  dsimp only at hput
  rw [if_neg (by omega)] at hput
  by_cases hlast : 24 ≤ pos / 80
  · rw [if_pos hlast] at hput
    obtain rfl := Option.some.inj hput
    have hclear : Screen.clear (Screen.moveUp crt) (pos - 80) k = crt k := by
      unfold Screen.clear Screen.moveUp
      rw [if_neg (by omega), if_neg (by omega)]
    have hne : k ≠ pos - 80 := by omega
    exact (Function.update_of_ne hne ..).trans hclear
  · rw [if_neg hlast] at hput
    obtain rfl := Option.some.inj hput
    have hne : k ≠ pos := by omega
    exact Function.update_of_ne hne ..

/-- The cells below the lines that `cgaputc` uses are left alone. -/
theorem crt_cgaputc {s' : Screen} (hpos : s.pos < 80 * 24) (hput : s.cgaputc c = some s') {k : ℕ}
    (hk : 80 * 24 ≤ k) : s'.crt k = s.crt k := by
  unfold Screen.cgaputc Screen.advance at hput
  by_cases hline : c = newline.toNat
  · rw [if_pos hline] at hput
    exact crt_settle (by omega) hput hk
  rw [if_neg hline] at hput
  by_cases hback : c = backspace
  · rw [if_pos hback] at hput
    exact crt_settle (by split_ifs <;> omega) hput hk
  · rw [if_neg hback] at hput
    rw [crt_settle (by omega) hput hk]
    exact Function.update_of_ne (by omega) ..

/-- What is printed on the screen is printed on the roll. -/
theorem shows_print (h : Shows r s) (cs : List ℕ) : ∃ s', s.print cs = some s' ∧
    Shows (cs.foldl printed r) s' ∧ ∀ k, 80 * 24 ≤ k → s'.crt k = s.crt k := by
  induction cs generalizing r s with
  | nil => exact ⟨s, rfl, h, fun _ _ => rfl⟩
  | cons c cs ih =>
    obtain ⟨s', hput, hshows⟩ := shows_cgaputc h c
    obtain ⟨s'', hprint, hshows', hbelow⟩ := ih hshows
    refine ⟨s'', ?_, hshows', fun k hk => ?_⟩
    · rw [Screen.print, List.foldlM_cons, hput]
      exact hprint
    · rw [hbelow k hk, crt_cgaputc h.visible hput hk]

end Shows

/-! ## After the cursor -/

/-- Nothing is after the cursor. -/
def Screen.Clean (s : Screen) : Prop :=
  ∀ k, s.pos ≤ k → k < 80 * 24 → s.crt k = blank ∨ s.crt k = 0

/-- Nothing is after the cursor of the roll. -/
def Clean (r : Roll UInt16) : Prop := ∀ k, r.cursor ≤ k → r.cell k = blank ∨ r.cell k = 0

section Clean

variable {r : Roll UInt16} {s : Screen} {c : ℕ}

theorem clean_iff (h : Shows r s) : s.Clean ↔ Clean r := by
  have hcursor := h.cursor
  constructor
  · intro hclean k hk
    by_cases hshown : k < r.top + 80 * 24
    · obtain ⟨j, rfl⟩ := Nat.exists_eq_add_of_le (show r.top ≤ k by omega)
      rw [← h.cells j (by omega)]
      exact hclean j (by omega) (by omega)
    · exact Or.inr (h.fresh k (Nat.not_lt.mp hshown))
  · intro hclean k hk hshown
    rw [h.cells k hshown]
    exact hclean _ (by omega)

/-- A cell is written after the cursor, or where it is. -/
theorem Clean.write (h : Clean r) (k : ℕ) : Clean (r.write k blank) := by
  intro j hj
  by_cases heq : j = k
  · rw [heq]
    exact Or.inl Roll.write_self
  · rw [Roll.write_of_ne heq]
    exact h j hj

/-- An erased character is gone. -/
theorem Clean.printed (h : Clean r) (c : ℕ) : Clean (printed r c) := by
  unfold ConsoleInput.printed
  by_cases hline : c = newline.toNat
  · rw [if_pos hline]
    refine Clean.write (fun k hk => ?_) _
    rw [Roll.goto_cursor] at hk
    exact h k (by omega)
  rw [if_neg hline]
  by_cases hback : c = backspace
  · rw [if_pos hback]
    intro k hk
    dsimp only [Roll.goto_cursor] at hk ⊢
    -- the cursor is on the erased character, or where it was
    by_cases heq : k = if r.top < r.cursor then r.cursor - 1 else r.cursor
    · rw [heq]
      exact Or.inl Roll.write_self
    · rw [Roll.write_of_ne heq]
      refine h k ?_
      dsimp only [Roll.write_cursor, Roll.goto_cursor] at hk
      split_ifs at heq hk <;> omega
  · rw [if_neg hback]
    refine Clean.write (fun k hk => ?_) _
    rw [Roll.goto_cursor] at hk
    rw [Roll.goto_cell, Roll.write_of_ne (by omega)]
    exact h k (by omega)

theorem Clean.foldl_printed (h : Clean r) (cs : List ℕ) :
    Clean (cs.foldl ConsoleInput.printed r) := by
  induction cs generalizing r with
  | nil => exact h
  | cons c cs ih => exact ih (h.printed c)

end Clean

/-- Whatever is printed, with erased characters or not, `cgaputc` does not panic, the screen shows
the last lines of what a roll of paper would show, nothing remains of the erased characters, and
the cells below the 24 lines are left alone. -/
theorem screen_shows_roll {s : Screen} (hpos : s.pos < 80 * 24) (cs : List ℕ) :
    ∃ s', s.print cs = some s' ∧ Shows (cs.foldl printed s.roll) s' ∧ (s.Clean → s'.Clean) ∧
      ∀ k, 80 * 24 ≤ k → s'.crt k = s.crt k := by
  have hroll := shows_roll hpos
  obtain ⟨s', hprint, hshows, hbelow⟩ := shows_print hroll cs
  refine ⟨s', hprint, hshows, fun hclean => ?_, hbelow⟩
  rw [clean_iff hshows]
  exact ((clean_iff hroll).mp hclean).foldl_printed cs

/-- A character is printed at the end of the last line, and one that is erased. -/
theorem screen_shows_roll_last :
    ((⟨fun _ => 0, 80 * 24 - 1⟩ : Screen).print [97, 98, backspace]).map
      (fun s => (s.pos, s.crt (80 * 23 - 1), s.crt (80 * 23))) =
        some (80 * 23, glyph 97, blank) ∧
    ∃ s', (⟨fun _ => 0, 80 * 24 - 1⟩ : Screen).print [97, 98, backspace] = some s' ∧ s'.Clean := by
  obtain ⟨s', hprint, _, hclean, _⟩ := screen_shows_roll
    (s := ⟨fun _ => 0, 80 * 24 - 1⟩) (by decide) [97, 98, backspace]
  exact ⟨by decide +kernel, s', hprint, hclean fun k _ _ => Or.inr rfl⟩

/-! ## Text on the roll -/

/-- A text is on a roll, from `k` to the cursor. -/
abbrev Lays (k : ℕ) (text : List UInt8) (r : Roll UInt16) : Prop :=
  PaperRoll.Lays 80 newline (fun c => glyph c.toNat) k text r

section Lays

variable {r : Roll UInt16} {k : ℕ} {text : List UInt8} {c : UInt8}

theorem ne_backspace (c : UInt8) : c.toNat ≠ backspace := by
  have := c.toNat_lt
  unfold backspace
  omega

/-- A character is printed. -/
theorem Lays.printed (h : Lays k text r) (c : UInt8) :
    Lays k (text ++ [c]) (printed r c.toNat) := by
  unfold ConsoleInput.printed
  rw [if_neg (ne_backspace c)]
  by_cases hline : c = newline
  · have hafter : (r.cursor / 80 + 1) * 80 = after 80 newline r.cursor c := (if_pos hline).symm
    have hlt := lt_after (by norm_num : 0 < 80) newline r.cursor c
    rw [if_pos (congrArg UInt8.toNat hline), hafter]
    refine PaperRoll.Lays.concat (by norm_num) h rfl (fun j hj => ?_) (fun hno => absurd hline hno)
    exact Roll.write_of_ne (hj.trans hlt).ne
  · rw [if_neg (fun heq => hline (UInt8.toNat_inj.mp heq))]
    refine PaperRoll.Lays.concat (by norm_num) h (if_neg hline).symm (fun j hj => ?_) (fun _ => ?_)
    · rw [Roll.write_of_ne (by dsimp only [Roll.goto_cursor]; omega), Roll.goto_cell]
      exact Roll.write_of_ne hj.ne
    · rw [Roll.write_of_ne (by dsimp only [Roll.goto_cursor]; omega), Roll.goto_cell]
      exact Roll.write_self

/-- The last character is erased. -/
theorem Lays.erased (h : Lays k (text ++ [c]) r) (hline : c ≠ newline) (htop : r.top < r.cursor) :
    Lays k text (ConsoleInput.printed r backspace) := by
  unfold ConsoleInput.printed
  rw [if_neg (by decide), if_pos rfl, if_pos htop]
  refine PaperRoll.Lays.erase (by norm_num) h hline ?_ (fun j hj => ?_)
  · exact Nat.sub_add_cancel (by omega)
  · exact Roll.write_of_ne hj.ne

end Lays

end Xv6.ConsoleInput
