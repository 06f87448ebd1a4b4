import Mathlib

/-!
# A screen as a window on a roll of paper

A roll of paper has lines of a fixed length and no end. What is written stays, and a cursor says
where to write next. A screen shows some lines of it: when the cursor leaves the last of them, the
screen moves on by one line.
-/

namespace PaperRoll

/-- A roll, with the cells above the window counted by `top`. -/
structure Roll (α : Type*) where
  /-- What is written. -/
  cell : ℕ → α
  /-- Where to write next. -/
  cursor : ℕ
  /-- The first cell of the window. -/
  top : ℕ

variable {α : Type*} {cols rows : ℕ} {r : Roll α} {screen : ℕ → α} {pos k : ℕ} {empty a : α}

namespace Roll

/-- Write a cell. -/
def write (r : Roll α) (k : ℕ) (a : α) : Roll α := { r with cell := Function.update r.cell k a }

/-- Move the cursor; if it leaves the window at the bottom, the window moves on. -/
def goto (cols rows : ℕ) (r : Roll α) (cursor : ℕ) : Roll α :=
  { r with
    cursor := cursor
    top := if cursor < r.top + cols * rows then r.top else r.top + cols }

@[simp] theorem write_cursor : (r.write k a).cursor = r.cursor := rfl
@[simp] theorem write_top : (r.write k a).top = r.top := rfl
@[simp] theorem write_self : (r.write k a).cell k = a := Function.update_self ..
@[simp] theorem goto_cell : (r.goto cols rows k).cell = r.cell := rfl
@[simp] theorem goto_cursor : (r.goto cols rows k).cursor = k := rfl

theorem write_of_ne {j : ℕ} (h : j ≠ k) : (r.write k a).cell j = r.cell j :=
  Function.update_of_ne h ..

theorem goto_top (h : k < r.top + cols * rows) : (r.goto cols rows k).top = r.top := if_pos h

/-- What is below the top of the window stays below it, if it is shorter than the window. -/
theorem goto_top_room {n : ℕ} (hroom : r.top + n ≤ k) (hshort : cols + n ≤ cols * rows) :
    (r.goto cols rows k).top + n ≤ k := by
  unfold goto
  dsimp only
  split_ifs <;> omega

end Roll

/-- A screen with its cursor at `pos` shows the window of a roll, which is empty below it. -/
structure Shows (cols rows : ℕ) (empty : α) (r : Roll α) (screen : ℕ → α) (pos : ℕ) : Prop where
  /-- The cursor. -/
  cursor : r.top + pos = r.cursor
  /-- It is on the screen. -/
  visible : pos < cols * rows
  /-- The window begins with a line. -/
  line : cols ∣ r.top
  /-- What the screen shows. -/
  cells : ∀ k < cols * rows, screen k = r.cell (r.top + k)
  /-- Nothing has been written below. -/
  fresh : ∀ k, r.top + cols * rows ≤ k → r.cell k = empty

namespace Shows

variable (h : Shows cols rows empty r screen pos)

include h

/-- A cell of the window is written. -/
theorem write (hk : k < cols * rows) :
    Shows cols rows empty (r.write (r.top + k) a) (Function.update screen k a) pos where
  cursor := h.cursor
  visible := h.visible
  line := h.line
  cells j hj := by
    by_cases heq : j = k
    · rw [heq, Function.update_self]
      exact Roll.write_self.symm
    · rw [Function.update_of_ne heq, h.cells j hj]
      exact (Roll.write_of_ne (by omega)).symm
  fresh j hj := by
    rw [Roll.write_top] at hj
    rw [Roll.write_of_ne (by omega)]
    exact h.fresh j hj

/-- The cursor moves within the window. -/
theorem goto {pos' : ℕ} (hpos : pos' < cols * rows) :
    Shows cols rows empty (r.goto cols rows (r.top + pos')) screen pos' := by
  have htop : (r.goto cols rows (r.top + pos')).top = r.top := Roll.goto_top (by omega)
  refine ⟨?_, hpos, ?_, ?_, ?_⟩
  · rw [htop, Roll.goto_cursor]
  · rw [htop]
    exact h.line
  · rw [htop]
    exact h.cells
  · rw [htop]
    exact h.fresh

/-- The cursor leaves the window at the bottom: the screen scrolls. -/
theorem scroll {pos' : ℕ} (hlow : cols * rows ≤ pos') (hpos : pos' < cols * rows + cols)
    {screen' : ℕ → α}
    (hscreen : ∀ k < cols * rows,
      screen' k = if k + cols < cols * rows then screen (k + cols) else empty) :
    Shows cols rows empty (r.goto cols rows (r.top + pos')) screen' (pos' - cols) := by
  have hvisible := h.visible
  have hcols : cols ≤ cols * rows := by
    rcases Nat.eq_zero_or_pos rows with rfl | hrows
    · omega
    · exact Nat.le_mul_of_pos_right cols hrows
  have htop : (r.goto cols rows (r.top + pos')).top = r.top + cols := if_neg (by omega)
  refine ⟨?_, by omega, ?_, fun k hk => ?_, fun k hk => ?_⟩
  · rw [htop, Roll.goto_cursor]
    omega
  · rw [htop]
    exact (Nat.dvd_add_right h.line).mpr dvd_rfl
  · rw [htop, hscreen k hk, Roll.goto_cell]
    split_ifs with hlast
    · rw [h.cells _ hlast]
      congr 1
      omega
    · exact (h.fresh _ (by omega)).symm
  · rw [htop] at hk
    exact h.fresh k (by omega)

end Shows

/-! ## Text -/

section Text

variable {β : Type*} [DecidableEq β]

/-- Where the cursor is after a character of a text. -/
def after (cols : ℕ) (newline : β) (k : ℕ) (b : β) : ℕ :=
  if b = newline then (k / cols + 1) * cols else k + 1

/-- The characters of a text that is begun at `k`, each with its cell. -/
def places (cols : ℕ) (newline : β) (k : ℕ) : List β → List (ℕ × β)
  | [] => []
  | b :: text =>
    (if b = newline then [] else [(k, b)]) ++ places cols newline (after cols newline k b) text

/-- Where the cursor is after a text. -/
def ends (cols : ℕ) (newline : β) (k : ℕ) (text : List β) : ℕ :=
  text.foldl (after cols newline) k

variable {newline b : β} {text : List β} {p : ℕ × β}

theorem lt_after (hcols : 0 < cols) (newline : β) (k : ℕ) (b : β) :
    k < after cols newline k b := by
  unfold after
  split_ifs
  · rw [Nat.add_mul, Nat.one_mul]
    have := Nat.div_add_mod' k cols
    have := Nat.mod_lt k hcols
    omega
  · omega

theorem ends_concat (k : ℕ) (text : List β) (b : β) :
    ends cols newline k (text ++ [b]) = after cols newline (ends cols newline k text) b :=
  List.foldl_concat ..

theorem places_concat (k : ℕ) (text : List β) (b : β) :
    places cols newline k (text ++ [b]) =
      places cols newline k text ++
        if b = newline then [] else [(ends cols newline k text, b)] := by
  induction text generalizing k with
  | nil => simp [places, ends]
  | cons c text ih =>
    rw [List.cons_append, places, places, ih, List.append_assoc]
    rfl

/-- A text lies before the cursor. -/
theorem lt_ends_of_mem_places (hcols : 0 < cols) (hp : p ∈ places cols newline k text) :
    p.1 < ends cols newline k text := by
  induction text using List.reverseRecOn with
  | nil => simp [places] at hp
  | append_singleton text b ih =>
    have hlt := lt_after hcols newline (ends cols newline k text) b
    rw [places_concat, List.mem_append] at hp
    rw [ends_concat]
    rcases hp with hold | hnew
    · exact (ih hold).trans hlt
    · split_ifs at hnew
      · simp at hnew
      · rw [List.mem_singleton.mp hnew]
        exact hlt

/-- A roll has a text on it, which begins at `k` and ends at the cursor. -/
structure Lays (cols : ℕ) (newline : β) (ink : β → α) (k : ℕ) (text : List β) (r : Roll α) :
    Prop where
  /-- The end. -/
  cursor : r.cursor = ends cols newline k text
  /-- Each character is in its cell. -/
  cells : ∀ p ∈ places cols newline k text, r.cell p.1 = ink p.2

namespace Lays

variable {ink : β → α} {r' : Roll α}

theorem nil (hcursor : r.cursor = k) : Lays cols newline ink k [] r where
  cursor := hcursor
  cells p hp := by simp [places] at hp

/-- A character is written. -/
theorem concat (hcols : 0 < cols) (h : Lays cols newline ink k text r)
    (hcursor : r'.cursor = after cols newline r.cursor b)
    (hkeep : ∀ j < r.cursor, r'.cell j = r.cell j)
    (hput : b ≠ newline → r'.cell r.cursor = ink b) :
    Lays cols newline ink k (text ++ [b]) r' where
  cursor := by rw [ends_concat, ← h.cursor, hcursor]
  cells p hp := by
    rw [places_concat, List.mem_append] at hp
    rcases hp with hold | hnew
    · have hlt := lt_ends_of_mem_places hcols hold
      rw [← h.cursor] at hlt
      rw [hkeep _ hlt]
      exact h.cells p hold
    · split_ifs at hnew with hline
      · simp at hnew
      · rw [List.mem_singleton.mp hnew, ← h.cursor]
        exact hput hline

/-- A character is erased. -/
theorem erase (hcols : 0 < cols) (h : Lays cols newline ink k (text ++ [b]) r)
    (hline : b ≠ newline) (hcursor : r'.cursor + 1 = r.cursor)
    (hkeep : ∀ j < r'.cursor, r'.cell j = r.cell j) :
    Lays cols newline ink k text r' := by
  have hends : r'.cursor = ends cols newline k text := by
    have hold := h.cursor
    rw [ends_concat, after, if_neg hline] at hold
    omega
  refine ⟨hends, fun p hp => ?_⟩
  have hlt := lt_ends_of_mem_places hcols hp
  rw [← hends] at hlt
  rw [hkeep _ hlt]
  refine h.cells p ?_
  rw [places_concat]
  exact List.mem_append_left _ hp

end Lays

end Text

end PaperRoll
