import Xv6.ShellSyntax
import Xv6.Lib.CString

/-!
# The strings of the shell's commands

`nulterminate` ends each token by a NUL. The byte it overwrites belongs to no word: it is a
blank, the first character of a symbol, or the end of the string. So after all of them have
been overwritten, each word of the tree still reads as it was typed.
-/

namespace Xv6.Shell

variable {s p : Ptr} {ts : List Token} {cmd : Cmd} {k : Kind} {w : Word}

/-! ## The words of a tree -/

/-- The words of a command, in the order in which `nulterminate` comes to them. -/
def Cmd.words : Cmd → List Word
  | .exec argv => argv
  | .redir cmd file _ _ => cmd.words ++ [file]
  | .pipe left right => left.words ++ right.words
  | .list left right => left.words ++ right.words
  | .back cmd => cmd.words

theorem words_wraps (cmd : Cmd) (rs : List Redirection) :
    (cmd.wraps rs).words = cmd.words ++ rs.map Redirection.file := by
  induction rs generalizing cmd with
  | nil => exact (List.append_nil _).symm
  | cons r rs ih =>
    rw [Cmd.wraps, List.foldl_cons, ← Cmd.wraps, ih, Cmd.wrap, Cmd.words, List.append_assoc]
    rfl

theorem words_backs (cmd : Cmd) (k : ℕ) : (cmd.backs k).words = cmd.words := by
  induction k generalizing cmd with
  | zero => rfl
  | succ k ih =>
    rw [Cmd.backs, ih]
    rfl

/-- The files of redirections are tokens. -/
theorem mem_of_redirs {rs : List Redirection} (h : Redirs ts rs) :
    ∀ w ∈ rs.map Redirection.file, .word w ∈ ts := by
  induction h with
  | nil => simp
  | @cons y w r ts rs hr _ ih =>
    have hfile : r.file = w := by
      cases y <;> cases hr <;> rfl
    intro v hv
    rw [List.map_cons, List.mem_cons, hfile] at hv
    rcases hv with rfl | hv
    · simp
    · exact List.mem_cons_of_mem _ (List.mem_cons_of_mem _ (ih v hv))

/-- The words of a command, and the files of its redirections, are tokens. -/
theorem mem_of_args {ws : List Word} {rs : List Redirection} (h : Args ts ws rs) :
    ∀ w ∈ ws ++ rs.map Redirection.file, .word w ∈ ts := by
  induction h with
  | nil => simp
  | cons hrs _ ih =>
    intro v hv
    have hredirs := mem_of_redirs hrs v
    have hargs := ih v
    simp only [List.map_append, List.mem_append, List.mem_cons, Token.word.injEq] at hv hargs ⊢
    tauto

/-- The words of a tree are tokens of the line. -/
theorem mem_of_derives (h : Derives k ts cmd) : ∀ w ∈ cmd.words, .word w ∈ ts := by
  induction h with
  | block _ hrs ih =>
    intro v hv
    have hredirs := mem_of_redirs hrs v
    have hline := ih v
    simp only [words_wraps, List.mem_append, List.mem_cons] at hv ⊢
    tauto
  | words hrs hargs _ =>
    intro v hv
    have hredirs := mem_of_redirs hrs v
    have hmem := mem_of_args hargs v
    simp only [words_wraps, Cmd.words, List.map_append, List.mem_append] at hv hmem ⊢
    tauto
  | exec _ ih => exact ih
  | bar _ _ ihl ihr =>
    intro v hv
    have hl := ihl v
    have hr := ihr v
    simp only [Cmd.words, List.mem_append, List.mem_cons] at hv ⊢
    tauto
  | pipe _ ih =>
    intro v hv
    rw [words_backs] at hv
    exact List.mem_append_left _ (ih v hv)
  | semi _ _ ihp ihl =>
    intro v hv
    have hp := ihp v
    have hl := ihl v
    simp only [Cmd.words, words_backs, List.mem_append, List.mem_cons] at hv ⊢
    tauto

/-! ## The words of a string -/

/-- The characters of a token. -/
def Word.text (w : Word) : List UInt8 := w.q.take (w.q.length - w.eq.length)

/-- A character is skipped, or it begins a token; the other tokens are those of a suffix. -/
theorem tokens_cons_cases (c : UInt8) (u : Ptr) : ∃ v, v <:+ u ∧
    (tokens (c :: u) = tokens v ∨ ∃ t, tokens (c :: u) = t :: tokens v ∧
      ∀ w, t = .word w → w.q = c :: u ∧ w.eq = w.q.dropWhile wordChar) := by
  by_cases hblank : c ∈ whitespace
  · exact ⟨u, List.suffix_refl u, Or.inl (by rw [tokens, if_pos hblank])⟩
  cases hsymbol : symbol c with
  | none =>
    have hword : wordChar c = true := by simp [wordChar, hblank, notMem_of_symbol hsymbol]
    refine ⟨_, List.dropWhile_suffix _, Or.inr ⟨_, tokens_word hblank hsymbol, ?_⟩⟩
    intro w hw
    obtain rfl := Token.word.inj hw
    exact ⟨rfl, (List.dropWhile_cons_of_pos hword).symm⟩
  | some y =>
    have htokens : tokens (c :: u) = if y = .gt ∧ u.head? = some (code '>')
        then .sym .gtgt :: tokens u.tail else .sym y :: tokens u := by
      rw [tokens, if_neg hblank, hsymbol]
    split_ifs at htokens
    · exact ⟨_, List.tail_suffix u, Or.inr ⟨_, htokens, by simp⟩⟩
    · exact ⟨_, List.suffix_refl u, Or.inr ⟨_, htokens, by simp⟩⟩

/-- A word of the string: it is as long as it can be. -/
theorem mem_tokens (h : .word w ∈ tokens s) : w.q <:+ s ∧ w.eq = w.q.dropWhile wordChar := by
  induction hn : s.length using Nat.strong_induction_on generalizing s with
  | _ n ih =>
    cases s with
    | nil =>
      rw [tokens_nil] at h
      cases h
    | cons c u =>
      obtain ⟨v, hv, htokens⟩ := tokens_cons_cases c u
      have hlater : .word w ∈ tokens v → w.q <:+ c :: u ∧ w.eq = w.q.dropWhile wordChar := by
        intro hmem
        have hlen : v.length < n := by
          rw [← hn]
          exact Nat.lt_succ_of_le hv.length_le
        obtain ⟨hq, heq⟩ := ih v.length hlen hmem rfl
        exact ⟨hq.trans (hv.trans (List.suffix_cons c u)), heq⟩
      rcases htokens with htokens | ⟨t, htokens, hword⟩
      · exact hlater (htokens ▸ h)
      · rw [htokens, List.mem_cons] at h
        rcases h with ht | hmem
        · obtain ⟨hq, heq⟩ := hword w ht.symm
          exact ⟨hq ▸ List.suffix_refl _, heq⟩
        · exact hlater hmem

/-- What a pointer points to. -/
theorem getElem?_pos (hp : p <:+ s) (j : ℕ) : s[pos s p + j]? = p[j]? := by
  obtain ⟨u, rfl⟩ := hp
  have hpos : pos (u ++ p) p = u.length := by
    rw [pos, List.length_append, Nat.add_sub_cancel]
  rw [hpos, List.getElem?_append_right (Nat.le_add_right _ _), Nat.add_sub_cancel_left]

/-- A word of the string: its characters are characters of words, and the one after it is not. -/
structure IsWord (s : Ptr) (w : Word) : Prop where
  /-- It is in the string. -/
  suffix : w.q <:+ s
  /-- It is followed by the rest. -/
  append : w.q = w.text ++ w.eq
  /-- Its characters. -/
  inside : ∀ c ∈ w.text, wordChar c = true
  /-- The character after it. -/
  after : ∀ c, w.eq.head? = some c → wordChar c = false

theorem isWord_of_mem (h : .word w ∈ tokens s) : IsWord s w := by
  obtain ⟨hq, heq⟩ := mem_tokens h
  have hsplit : w.q.takeWhile wordChar ++ w.eq = w.q := by
    rw [heq]
    exact List.takeWhile_append_dropWhile
  have htext : w.text = w.q.takeWhile wordChar := by
    have hlen := congrArg List.length hsplit
    rw [List.length_append] at hlen
    have htake : w.q.length - w.eq.length = (w.q.takeWhile wordChar).length := by omega
    rw [Word.text, htake]
    exact (List.prefix_iff_eq_take.mp (List.takeWhile_prefix _)).symm
  refine ⟨hq, by rw [htext, hsplit], fun c hc => ?_, fun c hc => ?_⟩
  · rw [htext] at hc
    exact List.mem_takeWhile_imp hc
  · have hnot := List.head?_dropWhile_not wordChar w.q
    rw [← heq, hc] at hnot
    simpa using hnot

namespace IsWord

variable {v : Word}

theorem suffix_eq (h : IsWord s w) : w.eq <:+ s :=
  (List.suffix_append w.text w.eq).trans (h.append ▸ h.suffix)

/-- A token ends where its characters do. -/
theorem pos_eq (h : IsWord s w) : pos s w.eq = pos s w.q + w.text.length := by
  have hlen := congrArg List.length h.append
  have hle := h.suffix.length_le
  rw [List.length_append] at hlen
  unfold pos
  omega

/-- No word ends inside a word. -/
theorem end_notMem (hw : IsWord s w) (hv : IsWord s v) {j : ℕ} (hj : j < w.text.length) :
    pos s w.q + j ≠ pos s v.eq := by
  intro heq
  have hchar : s[pos s w.q + j]? = some w.text[j] := by
    rw [getElem?_pos hw.suffix, hw.append, List.getElem?_append_left hj,
      List.getElem?_eq_getElem hj]
  have hend : s[pos s v.eq]? = v.eq.head? := by
    have hfirst := getElem?_pos hv.suffix_eq 0
    rw [Nat.add_zero] at hfirst
    rw [hfirst, List.head?_eq_getElem?]
  rw [heq, hend] at hchar
  have hin := hw.inside _ (List.getElem_mem hj)
  rw [hv.after _ hchar] at hin
  cases hin

end IsWord

/-! ## The strings -/

/-- `nulterminate` ends the words of the tree, one after the other. -/
theorem nulterminate_eq (s : Ptr) (cmd : Cmd) (mem : ℕ → UInt8) :
    nulterminate s cmd mem = cmd.words.foldl (fun mem w => setNul s w.eq mem) mem := by
  induction cmd generalizing mem with
  | exec argv => rfl
  | redir cmd file mode fd ih =>
    rw [nulterminate, ih, Cmd.words, List.foldl_append]
    rfl
  | pipe left right ihl ihr => rw [nulterminate, ihl, ihr, Cmd.words, List.foldl_append]
  | list left right ihl ihr => rw [nulterminate, ihl, ihr, Cmd.words, List.foldl_append]
  | back cmd ih => rw [nulterminate, ih, Cmd.words]

/-- The bytes that are not overwritten, and those that are. -/
theorem foldl_setNul (s : Ptr) (ws : List Word) (mem : ℕ → UInt8) (j : ℕ) :
    ((∀ w ∈ ws, j ≠ pos s w.eq) → ws.foldl (fun mem w => setNul s w.eq mem) mem j = mem j) ∧
      ((∃ w ∈ ws, j = pos s w.eq) ∨ mem j = 0 →
        ws.foldl (fun mem w => setNul s w.eq mem) mem j = 0) := by
  induction ws generalizing mem with
  | nil => simp
  | cons w ws ih =>
    rw [List.foldl_cons]
    obtain ⟨hkeep, hset⟩ := ih (setNul s w.eq mem)
    constructor
    · intro hother
      rw [hkeep fun v hv => hother v (List.mem_cons_of_mem _ hv)]
      exact Function.update_of_ne (hother w List.mem_cons_self) _ _
    · intro hend
      apply hset
      by_cases hj : j = pos s w.eq
      · right
        rw [hj]
        exact Function.update_self ..
      · have hsame : setNul s w.eq mem j = mem j := Function.update_of_ne hj _ _
        rw [hsame]
        rcases hend with ⟨v, hv, hjv⟩ | hzero
        · rcases List.mem_cons.mp hv with rfl | hv
          · exact absurd hjv hj
          · exact Or.inl ⟨v, hv, hjv⟩
        · exact Or.inr hzero

/-- After `nulterminate`, each word of the tree is a string, the text of its token. -/
theorem stringAt_nulterminate (hclean : 0 ∉ s) (hwords : ∀ w ∈ cmd.words, IsWord s w)
    (hw : w ∈ cmd.words) :
    CString.stringAt (nulterminate s cmd fun j => s.getD j 0) (pos s w.q) (s.length + 1) =
      some w.text := by
  have hword := hwords w hw
  have hsub : ∀ c ∈ w.text, c ∈ s := by
    intro c hc
    apply hword.suffix.subset
    rw [hword.append]
    exact List.mem_append_left _ hc
  have hlen : w.text.length ≤ s.length := by
    have hq := hword.suffix.length_le
    have happend := congrArg List.length hword.append
    rw [List.length_append] at happend
    omega
  rw [CString.stringAt_eq_some_iff, nulterminate_eq]
  refine ⟨Nat.lt_succ_of_le hlen, fun hzero => hclean (hsub 0 hzero), ?_⟩
  apply CString.at_append.mpr
  constructor
  · intro j hj
    rw [(foldl_setNul s cmd.words _ _).1 fun v hv => hword.end_notMem (hwords v hv) hj]
    rw [List.getD_eq_getElem?_getD, getElem?_pos hword.suffix, hword.append,
      List.getElem?_append_left hj, List.getElem?_eq_getElem hj, Option.getD_some]
  · apply CString.at_singleton.mpr
    exact (foldl_setNul s cmd.words _ _).2 (Or.inl ⟨w, hw, hword.pos_eq.symm⟩)

/-! ## The parser -/

/-- A string has no more tokens than characters. -/
theorem length_tokens_le (s : Ptr) : (tokens s).length ≤ s.length := by
  induction hn : s.length using Nat.strong_induction_on generalizing s with
  | _ n ih =>
    cases s with
    | nil => simp [tokens_nil]
    | cons c u =>
      obtain ⟨v, hv, htokens⟩ := tokens_cons_cases c u
      have hlen : v.length < n := by
        rw [← hn]
        exact Nat.lt_succ_of_le hv.length_le
      have hlater := ih v.length hlen v rfl
      rcases htokens with htokens | ⟨t, htokens, -⟩
      · rw [htokens]
        omega
      · rw [htokens, List.length_cons]
        omega

/-- Nothing but blanks is left when there are no tokens. -/
theorem peek_nil_eq (h : Before s ts) : (peek s []).2 = [] ↔ ts = [] := by
  obtain ⟨-, hbefore⟩ := h.peek (by simp : ∀ d ∈ ([] : List Char).map code, d ∈ symbols)
  constructor
  · intro hnil
    rw [hnil] at hbefore
    rw [← hbefore.2, tokens_nil]
  · rintro rfl
    have hpeek : (peek s []).2 = skip s := by
      unfold peek
      cases hs : skip s <;> simp
    rw [hpeek] at hbefore ⊢
    rcases skip_cases s with hs | ⟨c, u, hs, hblank⟩
    · exact hs
    · exfalso
      have hnone := hbefore.2
      rw [hs, tokens, if_neg hblank] at hnone
      cases hsymbol : symbol c with
      | none => simp [hsymbol] at hnone
      | some y =>
        simp only [hsymbol] at hnone
        split_ifs at hnone

/-- The shell parser accepts its grammar, for every string without a NUL: it ends, with a tree
or with a panic; it returns the trees that the grammar derives from the tokens of the string,
and no others; and after `nulterminate` every word of the tree is a string, the text of a token
of the string. -/
theorem parsecmd_accepts (s : Ptr) (hclean : 0 ∉ s) :
    parsecmd s ≠ .error .depth ∧
    (∀ cmd, (∃ mem, parsecmd s = .ok (cmd, mem)) ↔ Derives .line (tokens s) cmd) ∧
    ∀ cmd mem, parsecmd s = .ok (cmd, mem) → ∀ w ∈ cmd.words,
      .word w ∈ tokens s ∧
        CString.stringAt mem (pos s w.q) (s.length + 1) = some w.text := by
  have hstart : Before s (tokens s) := ⟨hclean, rfl⟩
  have hdepth : 4 * (tokens s).length + 4 ≤ depth s := by
    have := length_tokens_le s
    unfold depth
    omega
  have hyields := (yields_parse (depth s) hstart).1 hdepth
  -- what `parsecmd` returns is derived
  have hsound : ∀ cmd mem, parsecmd s = .ok (cmd, mem) →
      Derives .line (tokens s) cmd ∧ mem = nulterminate s cmd fun k => s.getD k 0 := by
    intro cmd mem hok
    rcases hyields with ⟨message, herror⟩ | ⟨us, rest, c, s', hD, hts, hbefore, hline⟩
    · rw [parsecmd, herror] at hok
      cases hok
    · rw [parsecmd, hline] at hok
      simp only [bind, Except.bind] at hok
      by_cases hleft : (peek s' []).2 = []
      · rw [if_neg (not_not.mpr hleft)] at hok
        cases hok
        obtain rfl := (peek_nil_eq hbefore).mp hleft
        rw [List.append_nil] at hts
        rw [hts]
        exact ⟨hD, rfl⟩
      · rw [if_pos hleft] at hok
        cases hok
  refine ⟨?_, ?_, ?_⟩
  · rcases hyields with ⟨message, herror⟩ | ⟨us, rest, c, s', -, -, -, hline⟩
    · rw [parsecmd, herror]
      simp [bind, Except.bind]
    · rw [parsecmd, hline]
      simp only [bind, Except.bind]
      split_ifs <;> simp
  · intro cmd
    constructor
    · rintro ⟨mem, hok⟩
      exact (hsound cmd mem hok).1
    · intro hD
      have hbefore : Before s (tokens s ++ []) := by rwa [List.append_nil]
      obtain ⟨s', hline, hend⟩ := returns_parse hD (Or.inl rfl) hbefore hdepth
      refine ⟨nulterminate s cmd fun k => s.getD k 0, ?_⟩
      have hline' : parseline (depth s) s = .ok (cmd, s') := hline
      rw [parsecmd, hline']
      simp only [bind, Except.bind]
      rw [if_neg (not_not.mpr ((peek_nil_eq hend).mpr rfl))]
  · intro cmd mem hok w hw
    obtain ⟨hD, rfl⟩ := hsound cmd mem hok
    have hmem := mem_of_derives hD
    exact ⟨hmem w hw,
      stringAt_nulterminate hclean (fun v hv => isWord_of_mem (hmem v hv)) hw⟩

/-- `a<b`: the word and the file touch the symbol, whose byte `nulterminate` overwrites. -/
theorem parsecmd_accepts_redirection : ∃ mem,
    parsecmd [97, 60, 98] =
      .ok (.redir (.exec [⟨[97, 60, 98], [60, 98]⟩]) ⟨[98], []⟩ oRdonly 0, mem) ∧
    CString.stringAt mem 0 4 = some [97] ∧ CString.stringAt mem 2 4 = some [98] := by
  have hparse : ∃ mem, parsecmd [97, 60, 98] =
      .ok (.redir (.exec [⟨[97, 60, 98], [60, 98]⟩]) ⟨[98], []⟩ oRdonly 0, mem) := ⟨_, rfl⟩
  obtain ⟨mem, hparse⟩ := hparse
  have hwords := (parsecmd_accepts [97, 60, 98] (by decide)).2.2 _ mem hparse
  exact ⟨mem, hparse, (hwords ⟨[97, 60, 98], [60, 98]⟩ (by simp [Cmd.words])).2,
    (hwords ⟨[98], []⟩ (by simp [Cmd.words])).2⟩

end Xv6.Shell
