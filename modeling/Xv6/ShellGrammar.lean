import Xv6.ShellParse

/-!
# The grammar of the shell

A string is a sequence of tokens, with blanks between them that do not matter: a word is as long
as it can be, and so is `>>`. The grammar says which sequences are a line, and which tree a
line stands for. `gettoken` and `peek` see the tokens one after the other.
-/

namespace Xv6.Shell

/-! ## Tokens -/

/-- The tokens that are not words. -/
inductive Sym
  | lt | gt | gtgt | bar | amp | semi | lpar | rpar
  deriving DecidableEq

/-- What `gettoken` returns for a symbol. -/
def Sym.tok : Sym → UInt8
  | .lt => code '<'
  | .gt => code '>'
  | .gtgt => code '+'
  | .bar => code '|'
  | .amp => code '&'
  | .semi => code ';'
  | .lpar => code '('
  | .rpar => code ')'

/-- The first character of a symbol. -/
def Sym.first : Sym → UInt8
  | .gtgt => code '>'
  | y => y.tok

/-- A token. -/
inductive Token
  /-- A word, from one place in the string to another. -/
  | word (w : Word)
  /-- A symbol. -/
  | sym (y : Sym)

/-- What `gettoken` returns for a token. -/
def Token.tok : Token → UInt8
  | .word _ => code 'a'
  | .sym y => y.tok

/-- The symbol of one character. -/
def symbol (c : UInt8) : Option Sym :=
  [.lt, .bar, .gt, .amp, .semi, .lpar, .rpar].find? fun y => y.first = c

/-- The tokens of a string. -/
def tokens : List UInt8 → List Token
  | [] => []
  | c :: s =>
    if c ∈ whitespace then tokens s
    else
      match symbol c with
      | some y =>
        if y = .gt ∧ s.head? = some (code '>') then .sym .gtgt :: tokens s.tail
        else .sym y :: tokens s
      | none => .word ⟨c :: s, s.dropWhile wordChar⟩ :: tokens (s.dropWhile wordChar)
termination_by s => s.length
decreasing_by
  · exact Nat.lt_succ_self _
  · rw [List.length_tail, List.length_cons]
    omega
  · exact Nat.lt_succ_self _
  · exact Nat.lt_succ_of_le (List.length_dropWhile_le _ _)

/-! ## Lines -/

/-- A redirection. -/
structure Redirection where
  /-- The file. -/
  file : Word
  /-- How it is opened. -/
  mode : ℕ
  /-- The file descriptor. -/
  fd : ℕ

/-- A command with one redirection more. -/
def Cmd.wrap (cmd : Cmd) (r : Redirection) : Cmd := .redir cmd r.file r.mode r.fd

/-- A command with its redirections, the first one inside. -/
def Cmd.wraps (cmd : Cmd) (rs : List Redirection) : Cmd := rs.foldl Cmd.wrap cmd

/-- `redir ::= ('<' or '>' or '>>') word`. -/
def redirection : Sym → Word → Option Redirection
  | .lt, w => some ⟨w, oRdonly, 0⟩
  | .gt, w => some ⟨w, oWronly ||| oCreate, 1⟩
  | .gtgt, w => some ⟨w, oWronly ||| oCreate, 1⟩
  | _, _ => none

/-- `redir*`. -/
inductive Redirs : List Token → List Redirection → Prop
  /-- No redirection. -/
  | nil : Redirs [] []
  /-- One, and then others. -/
  | cons {y : Sym} {w : Word} {r : Redirection} {ts : List Token} {rs : List Redirection} :
      redirection y w = some r → Redirs ts rs → Redirs (.sym y :: .word w :: ts) (r :: rs)

/-- `(word redir*)*`, with its words and its redirections. -/
inductive Args : List Token → List Word → List Redirection → Prop
  /-- No word. -/
  | nil : Args [] [] []
  /-- A word, its redirections, and then others. -/
  | cons {w : Word} {ts us : List Token} {ws : List Word} {rs rs' : List Redirection} :
      Redirs ts rs → Args us ws rs' → Args (.word w :: (ts ++ us)) (w :: ws) (rs ++ rs')

/-- The nonterminals of the grammar. -/
inductive Kind
  | line | pipe | exec

/-- A command that runs in the background, as often as the line says so. -/
def Cmd.backs (cmd : Cmd) : ℕ → Cmd
  | 0 => cmd
  | k + 1 => (Cmd.back cmd).backs k

/-- The grammar, with the trees. -/
inductive Derives : Kind → List Token → Cmd → Prop
  /-- `exec ::= '(' line ')' redir*`. -/
  | block {ts us : List Token} {cmd : Cmd} {rs : List Redirection} :
      Derives .line ts cmd → Redirs us rs →
        Derives .exec (.sym .lpar :: (ts ++ .sym .rpar :: us)) (cmd.wraps rs)
  /-- `exec ::= redir* (word redir*)*`, with fewer than `MAXARGS` words. -/
  | words {ts us : List Token} {ws : List Word} {rs rs' : List Redirection} :
      Redirs ts rs → Args us ws rs' → ws.length < maxArgs →
        Derives .exec (ts ++ us) ((Cmd.exec ws).wraps (rs ++ rs'))
  /-- `pipe ::= exec`. -/
  | exec {ts : List Token} {cmd : Cmd} : Derives .exec ts cmd → Derives .pipe ts cmd
  /-- `pipe ::= exec '|' pipe`. -/
  | bar {ts us : List Token} {left right : Cmd} : Derives .exec ts left →
      Derives .pipe us right → Derives .pipe (ts ++ .sym .bar :: us) (.pipe left right)
  /-- `line ::= pipe '&'*`. -/
  | pipe {ts : List Token} {cmd : Cmd} {k : ℕ} : Derives .pipe ts cmd →
      Derives .line (ts ++ List.replicate k (.sym .amp)) (cmd.backs k)
  /-- `line ::= pipe '&'* ';' line`. -/
  | semi {ts us : List Token} {cmd right : Cmd} {k : ℕ} : Derives .pipe ts cmd →
      Derives .line us right →
        Derives .line (ts ++ (List.replicate k (.sym .amp) ++ .sym .semi :: us))
          (.list (cmd.backs k) right)

/-! ## The tokenizer -/

/-- The pointer stands before the tokens `ts`. -/
def Before (s : Ptr) (ts : List Token) : Prop := 0 ∉ s ∧ tokens s = ts

/-- The next token is one of the symbols that begin with a character of `toks`. -/
def ahead (toks : List Char) : List Token → Bool
  | .sym y :: _ => y.first ∈ toks.map code
  | _ => false

variable {s s' : Ptr} {t : Token} {ts us rest : List Token} {c : UInt8}

theorem tokens_nil : tokens [] = [] := by
  rw [tokens]

/-- Blanks do not matter. -/
theorem tokens_skip (s : Ptr) : tokens (skip s) = tokens s := by
  induction s with
  | nil => rfl
  | cons c s ih =>
    by_cases hblank : c ∈ whitespace
    · rw [skip, List.dropWhile_cons_of_pos (by simpa using hblank), tokens, if_pos hblank]
      exact ih
    · rw [skip, List.dropWhile_cons_of_neg (by simpa using hblank)]

/-- No blank is left at the front. -/
theorem skip_cases (s : Ptr) : skip s = [] ∨ ∃ c t, skip s = c :: t ∧ c ∉ whitespace := by
  rcases hs : skip s with _ | ⟨c, t⟩
  · exact Or.inl rfl
  · refine Or.inr ⟨c, t, rfl, ?_⟩
    have hhead := List.head?_dropWhile_not (· ∈ whitespace) s
    rw [show s.dropWhile (· ∈ whitespace) = skip s from rfl, hs] at hhead
    simpa using hhead

theorem skip_suffix (s : Ptr) : skip s <:+ s := List.dropWhile_suffix _

/-- A suffix has no NUL either. -/
theorem notMem_of_suffix (hs : s' <:+ s) (h : 0 ∉ s) : 0 ∉ s' := fun hmem => h (hs.subset hmem)

/-- Skipping blanks does not move the pointer past a token. -/
theorem Before.skip (h : Before s ts) : Before (skip s) ts :=
  ⟨notMem_of_suffix (skip_suffix s) h.1, (tokens_skip s).trans h.2⟩

/-- A symbol of one character begins with it. -/
theorem first_of_symbol {y : Sym} (h : symbol c = some y) : y.first = c ∧ y ≠ .gtgt := by
  have hmem := List.mem_of_find?_eq_some h
  have hfirst : y.first = c := by simpa using List.find?_some h
  refine ⟨hfirst, ?_⟩
  rintro rfl
  simp at hmem

/-- A character that is not a symbol is none of `symbols`. -/
theorem notMem_of_symbol (h : symbol c = none) : c ∉ symbols := by
  rw [symbol, List.find?_eq_none] at h
  intro hmem
  obtain ⟨d, hd, rfl⟩ := List.mem_map.mp hmem
  simp only [List.mem_cons, List.not_mem_nil, or_false] at hd
  rcases hd with rfl | rfl | rfl | rfl | rfl | rfl | rfl
  · exact h .lt (by decide) (by decide)
  · exact h .bar (by decide) (by decide)
  · exact h .gt (by decide) (by decide)
  · exact h .amp (by decide) (by decide)
  · exact h .semi (by decide) (by decide)
  · exact h .lpar (by decide) (by decide)
  · exact h .rpar (by decide) (by decide)

/-- The first token of a string that begins with a word. -/
theorem tokens_word (hblank : c ∉ whitespace) (hsymbol : symbol c = none) :
    tokens (c :: s) = .word ⟨c :: s, s.dropWhile wordChar⟩ :: tokens (s.dropWhile wordChar) := by
  rw [tokens, if_neg hblank, hsymbol]

/-- The first token of a string that begins with a symbol other than `>`. -/
theorem tokens_symbol {y : Sym} (hblank : c ∉ whitespace) (hsymbol : symbol c = some y)
    (hgt : y ≠ .gt) : tokens (c :: s) = .sym y :: tokens s := by
  rw [tokens, if_neg hblank, hsymbol]
  exact if_neg fun h => hgt h.1

/-- The first token of a string that begins with `>`. -/
theorem tokens_gt (s : Ptr) : tokens (code '>' :: s) =
    if s.head? = some (code '>') then .sym .gtgt :: tokens s.tail else .sym .gt :: tokens s := by
  have hsymbol : symbol (code '>') = some .gt := by decide
  rw [tokens, if_neg (by decide), hsymbol]
  simp only [true_and]

/-- `peek` sees the next token. -/
theorem Before.peek {toks : List Char} (htoks : ∀ d ∈ toks.map code, d ∈ symbols)
    (h : Before s ts) : (peek s toks).1 = ahead toks ts ∧ Before (Shell.peek s toks).2 ts := by
  have hskip := h.skip
  unfold Shell.peek
  rcases skip_cases s with hs | ⟨c, t, hs, hblank⟩
  · rw [hs] at hskip ⊢
    refine ⟨?_, hskip⟩
    rw [← hskip.2, tokens_nil]
    rfl
  · rw [hs] at hskip ⊢
    refine ⟨?_, hskip⟩
    have hc : c ≠ 0 := by
      rintro rfl
      exact hskip.1 List.mem_cons_self
    have hfirst : ahead toks ts = decide (c ∈ toks.map code) := by
      rw [← hskip.2]
      cases hsymbol : symbol c with
      | none =>
        rw [tokens_word hblank hsymbol, eq_comm]
        exact decide_eq_false fun hmem => notMem_of_symbol hsymbol (htoks c hmem)
      | some y =>
        obtain ⟨hy, -⟩ := first_of_symbol hsymbol
        by_cases hgt : y = .gt
        · subst hgt
          obtain rfl : code '>' = c := hy
          rw [tokens_gt]
          split_ifs <;> rfl
        · rw [tokens_symbol hblank hsymbol hgt, ahead, hy]
    rw [hfirst]
    simp [hc]

/-- `gettoken` at the end of the string. -/
theorem Before.gettoken_nil (h : Before s []) :
    (gettoken s).1 = 0 ∧ Before (gettoken s).2.2 [] := by
  have hskip := h.skip
  have hnil : Before [] [] := ⟨List.not_mem_nil, tokens_nil⟩
  unfold gettoken
  rcases skip_cases s with hs | ⟨c, t, hs, hblank⟩
  · rw [hs]
    exact ⟨rfl, hnil⟩
  · rw [hs] at hskip
    have hnone := hskip.2
    exfalso
    cases hsymbol : symbol c with
    | none => simp [tokens_word hblank hsymbol] at hnone
    | some y =>
      by_cases hgt : y = .gt
      · subst hgt
        obtain rfl : code '>' = c := (first_of_symbol hsymbol).1
        rw [tokens_gt] at hnone
        split_ifs at hnone
      · simp [tokens_symbol hblank hsymbol hgt] at hnone

/-- `gettoken` takes the next token. -/
theorem Before.gettoken (h : Before s (t :: ts)) :
    (gettoken s).1 = t.tok ∧ Before (Shell.gettoken s).2.2 ts ∧
      ∀ w, t = .word w → (Shell.gettoken s).2.1 = w := by
  have hskip := h.skip
  unfold Shell.gettoken
  rcases skip_cases s with hs | ⟨c, u, hs, hblank⟩
  · have hnone := hskip.2
    rw [hs, tokens_nil] at hnone
    cases hnone
  rw [hs] at hskip ⊢
  obtain ⟨hclean, htokens⟩ := hskip
  have hc : c ≠ 0 := by
    rintro rfl
    exact hclean List.mem_cons_self
  have hu : 0 ∉ u := fun hmem => hclean (List.mem_cons_of_mem _ hmem)
  dsimp only
  rw [if_neg hc]
  cases hsymbol : symbol c with
  | none =>
    have hother := notMem_of_symbol hsymbol
    have hgt : c ≠ code '>' := by
      rintro rfl
      exact hother (by decide)
    have hlist : c ∉ ['|', '(', ')', ';', '&', '<'].map code := by
      intro hmem
      apply hother
      simp only [symbols, List.map_cons, List.map_nil, List.mem_cons, List.not_mem_nil,
        or_false] at hmem ⊢
      tauto
    have hword : wordChar c = true := by simp [wordChar, hblank, hother]
    rw [tokens_word hblank hsymbol] at htokens
    obtain ⟨rfl, rfl⟩ := List.cons.inj htokens
    rw [if_neg hlist, if_neg hgt, List.dropWhile_cons_of_pos hword]
    refine ⟨rfl, Before.skip ⟨notMem_of_suffix (List.dropWhile_suffix _) hu, rfl⟩, ?_⟩
    intro w hw
    exact Token.word.inj hw
  | some y =>
    obtain ⟨hfirst, hgtgt⟩ := first_of_symbol hsymbol
    by_cases hgt : y = .gt
    · subst hgt
      obtain rfl : code '>' = c := hfirst
      rw [if_neg (by decide), if_pos rfl]
      rw [tokens_gt] at htokens
      cases u with
      | nil =>
        rw [List.head?_nil, if_neg (by simp)] at htokens
        obtain ⟨rfl, rfl⟩ := List.cons.inj htokens
        exact ⟨rfl, Before.skip ⟨hu, rfl⟩, by simp⟩
      | cons d v =>
        have hv : 0 ∉ v := fun hmem => hu (List.mem_cons_of_mem _ hmem)
        rw [List.head?_cons, List.tail_cons] at htokens
        by_cases hd : d = code '>'
        · rw [if_pos (by rw [hd])] at htokens
          obtain ⟨rfl, rfl⟩ := List.cons.inj htokens
          simp only [if_pos hd]
          exact ⟨rfl, Before.skip ⟨hv, rfl⟩, by simp⟩
        · rw [if_neg (by simpa using hd)] at htokens
          obtain ⟨rfl, rfl⟩ := List.cons.inj htokens
          simp only [if_neg hd]
          exact ⟨rfl, Before.skip ⟨hu, rfl⟩, by simp⟩
    · have hlist : c ∈ ['|', '(', ')', ';', '&', '<'].map code := by
        rw [← hfirst]
        cases y <;> first | decide | exact absurd rfl hgt | exact absurd rfl hgtgt
      rw [tokens_symbol hblank hsymbol hgt] at htokens
      obtain ⟨rfl, rfl⟩ := List.cons.inj htokens
      rw [if_pos hlist]
      refine ⟨?_, Before.skip ⟨hu, rfl⟩, by simp⟩
      rw [← hfirst]
      cases y <;> first | rfl | exact absurd rfl hgtgt

end Xv6.Shell
