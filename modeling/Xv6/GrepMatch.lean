import Xv6.Param

/-!
# The pattern matcher of grep

`match`, `matchhere` and `matchstar` of `grep.c` try the ways a pattern can match one after
another. Here a pattern is read as a language, with a flag for each end of the text, and the
matcher decides whether a substring of the text is in it. A C string is the list of its
bytes before the NUL.
-/

namespace Xv6.Grep

open Computability

mutual

/-- `matchhere`: search for `re` at the beginning of `text`. -/
def matchhere (re text : List UInt8) : Bool :=
  match re with
  | [] => true
  | c :: re =>
      match re with
      | 42 :: re => matchstar c re text
      | re =>
          if c = 36 ∧ re = [] then text.isEmpty
          else
            match text with
            | [] => false
            | t :: text => (c = 46 ∨ c = t) && matchhere re text
termination_by (re.length, text.length, 0)

/-- `matchstar`: search for `c*re` at the beginning of `text`. -/
def matchstar (c : UInt8) (re text : List UInt8) : Bool :=
  matchhere re text ||
    match text with
    | [] => false
    | t :: text => (t = c ∨ c = 46) && matchstar c re text
termination_by (re.length, text.length, 1)

end

/-- The loop of `match`, which must look at the empty string too. -/
def matchLoop (re : List UInt8) : List UInt8 → Bool
  | [] => matchhere re []
  | t :: text => matchhere re (t :: text) || matchLoop re text

/-- `match`. -/
def matchRe (re text : List UInt8) : Bool :=
  match re with
  | 94 :: re => matchhere re text
  | re => matchLoop re text

/-! ## What a pattern denotes -/

/-- A pattern without its leading `^`. -/
inductive Pattern
  /-- The end of the pattern. -/
  | done
  /-- A `$` that ends the pattern. -/
  | atEnd
  /-- One character. -/
  | one (c : UInt8) (rest : Pattern)
  /-- A character followed by `*`. -/
  | star (c : UInt8) (rest : Pattern)

/-- The pattern that a string spells. -/
def Pattern.read : List UInt8 → Pattern
  | [] => .done
  | c :: 42 :: re => .star c (read re)
  | [36] => .atEnd
  | c :: re => .one c (read re)

/-- The strings a character of a pattern stands for: itself, and every character if it is
a dot. -/
def charLang (c : UInt8) : Language UInt8 := {x | ∃ t, x = [t] ∧ (c = 46 ∨ t = c)}

namespace Pattern

/-- The strings a pattern stands for. -/
def lang : Pattern → Language UInt8
  | done => 1
  | atEnd => 1
  | one c rest => charLang c * rest.lang
  | star c rest => (charLang c)∗ * rest.lang

/-- A `$` ends the pattern: it matches only at the end of the text. -/
def ToEnd : Pattern → Prop
  | done => False
  | atEnd => True
  | one _ rest => rest.ToEnd
  | star _ rest => rest.ToEnd

/-- A pattern matches some characters of a text from its first one on. -/
def MatchesHere (p : Pattern) (text : List UInt8) : Prop :=
  ∃ found after, text = found ++ after ∧ found ∈ p.lang ∧ (p.ToEnd → after = [])

/-- A pattern matches some substring of a text. -/
def MatchesSome (p : Pattern) (text : List UInt8) : Prop :=
  ∃ before rest, text = before ++ rest ∧ p.MatchesHere rest

variable {p : Pattern} {c : UInt8} {text : List UInt8}

theorem matchesHere_done : done.MatchesHere text := ⟨[], text, rfl, rfl, False.elim⟩

theorem matchesHere_atEnd : atEnd.MatchesHere text ↔ text = [] := by
  constructor
  · rintro ⟨found, after, rfl, rfl, hafter⟩
    exact hafter trivial
  · rintro rfl
    exact ⟨[], [], rfl, rfl, fun _ => rfl⟩

/-- A character of the pattern takes the first character of the text. -/
theorem matchesHere_one : (one c p).MatchesHere text ↔
    ∃ t rest, text = t :: rest ∧ (c = 46 ∨ t = c) ∧ p.MatchesHere rest := by
  constructor
  · rintro ⟨found, after, rfl, hfound, hafter⟩
    obtain ⟨x, ⟨t, rfl, ht⟩, found, hp, rfl⟩ := Language.mem_mul.mp hfound
    exact ⟨t, found ++ after, rfl, ht, found, after, rfl, hp, hafter⟩
  · rintro ⟨t, rest, rfl, ht, found, after, rfl, hp, hafter⟩
    have hsingle : [t] ∈ charLang c := ⟨t, rfl, ht⟩
    exact ⟨t :: found, after, rfl, Language.append_mem_mul hsingle hp, hafter⟩

/-- A repetition is nothing, or one character and the repetition again. -/
theorem lang_star : (star c p).lang = p.lang + (one c (star c p)).lang := by
  calc (charLang c)∗ * p.lang = (1 + charLang c * (charLang c)∗) * p.lang := by
        rw [Language.one_add_self_mul_kstar_eq_kstar]
    _ = p.lang + charLang c * ((charLang c)∗ * p.lang) := by
        rw [add_mul, one_mul, mul_assoc]

theorem matchesHere_star : (star c p).MatchesHere text ↔
    p.MatchesHere text ∨ (one c (star c p)).MatchesHere text := by
  constructor
  · rintro ⟨found, after, rfl, hfound, hafter⟩
    rw [lang_star, Language.mem_add] at hfound
    rcases hfound with hp | hstar
    · exact Or.inl ⟨found, after, rfl, hp, hafter⟩
    · exact Or.inr ⟨found, after, rfl, hstar, hafter⟩
  · rintro (⟨found, after, rfl, hp, hafter⟩ | ⟨found, after, rfl, hstar, hafter⟩)
    · exact ⟨found, after, rfl, lang_star ▸ Or.inl hp, hafter⟩
    · exact ⟨found, after, rfl, lang_star ▸ Or.inr hstar, hafter⟩

/-- A match in a text starts at its first character or behind it. -/
theorem matchesSome_cons {t : UInt8} :
    p.MatchesSome (t :: text) ↔ p.MatchesHere (t :: text) ∨ p.MatchesSome text := by
  constructor
  · rintro ⟨before, rest, htext, hrest⟩
    cases before with
    | nil => exact Or.inl (htext ▸ hrest)
    | cons t' before =>
        obtain ⟨-, rfl⟩ := List.cons.inj htext
        exact Or.inr ⟨before, rest, rfl, hrest⟩
  · rintro (hhere | ⟨before, rest, rfl, hrest⟩)
    · exact ⟨[], t :: text, rfl, hhere⟩
    · exact ⟨t :: before, rest, rfl, hrest⟩

end Pattern

/-- What `match` is to decide: a leading `^` restricts the match to the start of the text. -/
def Matches (re text : List UInt8) : Prop :=
  match re with
  | 94 :: re => (Pattern.read re).MatchesHere text
  | re => (Pattern.read re).MatchesSome text

/-! ## The matcher decides it -/

theorem matchstar_iff {c : UInt8} {re : List UInt8} {p : Pattern}
    (hre : ∀ text, matchhere re text ↔ p.MatchesHere text) (text : List UInt8) :
    matchstar c re text ↔ (Pattern.star c p).MatchesHere text := by
  induction text with
  | nil =>
      rw [matchstar, Pattern.matchesHere_star, Pattern.matchesHere_one, ← hre]
      simp
  | cons t text ih =>
      rw [matchstar, Pattern.matchesHere_star, Pattern.matchesHere_one, ← hre]
      simp [ih, or_comm]

/-- `matchhere` decides whether the pattern matches at the beginning of the text. -/
theorem matchhere_iff (re text : List UInt8) :
    matchhere re text ↔ (Pattern.read re).MatchesHere text := by
  induction re using Pattern.read.induct generalizing text with
  | case1 =>
      rw [matchhere, Pattern.read]
      simp [Pattern.matchesHere_done]
  | case2 c re ih =>
      rw [matchhere, Pattern.read]
      exact matchstar_iff ih text
  | case3 =>
      rw [matchhere.eq_def, Pattern.read, Pattern.matchesHere_atEnd]
      simp
  | case4 c re hstar hend ih =>
      rw [matchhere.eq_def, Pattern.read, Pattern.matchesHere_one]
      · dsimp only
        split
        · exact (hstar _ rfl).elim
        · rw [if_neg (not_and.mpr hend)]
          cases text with
          | nil => simp
          | cons t text => simp [ih, @eq_comm _ c t]
      · exact hstar
      · exact hend

/-- The loop of `match` tries the rests of the text, the empty one included. -/
theorem matchLoop_iff (re text : List UInt8) :
    matchLoop re text ↔ (Pattern.read re).MatchesSome text := by
  induction text with
  | nil =>
      rw [matchLoop, matchhere_iff]
      simp [Pattern.MatchesSome]
  | cons t text ih =>
      rw [matchLoop, Bool.or_eq_true, matchhere_iff, ih]
      exact Pattern.matchesSome_cons.symm

/-- `match` decides the pattern language. -/
theorem matchRe_iff (re text : List UInt8) : matchRe re text ↔ Matches re text := by
  unfold matchRe Matches
  split
  · exact matchhere_iff _ text
  · exact matchLoop_iff re text

end Xv6.Grep
