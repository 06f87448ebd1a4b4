import Xv6.ShellGrammar

/-!
# The shell parser accepts its grammar

What a function of the parser returns is derived by its nonterminal from the tokens that it
has taken; and what is derived, in front of a token that may follow, is returned. The depth
that `parsecmd` allows is never reached, since each call has taken a token after four calls
at most.
-/

namespace Xv6.Shell

variable {s s' : Ptr} {t : Token} {ts us vs rest : List Token} {cmd : Cmd} {n : ℕ}
  {toks : List Char}

/-! ## The next token -/

theorem Before.peek_eq (h : Before s ts) (toks : List Char)
    (htoks : ∀ d ∈ toks.map code, d ∈ symbols) :
    ∃ s', Shell.peek s toks = (ahead toks ts, s') ∧ Before s' ts := by
  obtain ⟨hahead, hbefore⟩ := h.peek htoks
  exact ⟨_, by rw [← hahead], hbefore⟩

theorem Before.gettoken_eq (h : Before s (t :: ts)) : ∃ w s',
    Shell.gettoken s = (t.tok, w, s') ∧ Before s' ts ∧ ∀ v, t = .word v → w = v := by
  obtain ⟨htok, hbefore, hword⟩ := h.gettoken
  exact ⟨_, _, by rw [← htok], hbefore, hword⟩

theorem Before.gettoken_nil_eq (h : Before s []) : ∃ w s',
    Shell.gettoken s = (0, w, s') ∧ Before s' [] := by
  obtain ⟨htok, hbefore⟩ := h.gettoken_nil
  exact ⟨_, _, by rw [← htok], hbefore⟩

theorem ahead_nil : ahead toks [] = false := rfl

/-- A token that `ahead` accepts is a symbol. -/
theorem ahead_cases (h : ahead toks ts = true) :
    ∃ y us, ts = .sym y :: us ∧ y.first ∈ toks.map code := by
  cases ts with
  | nil => cases h
  | cons t us =>
    cases t with
    | word w => cases h
    | sym y => exact ⟨y, us, rfl, by simpa [ahead] using h⟩

/-- Only words are returned as `'a'`. -/
theorem tok_sym_ne (y : Sym) : y.tok ≠ code 'a' := by
  cases y <;> decide

theorem tok_ne_zero (t : Token) : t.tok ≠ 0 := by
  cases t with
  | word w => exact (by decide : code 'a' ≠ 0)
  | sym y => cases y <;> decide

/-- A symbol that begins a redirection. -/
theorem redirect_of_ahead {y : Sym} (h : y.first ∈ ['<', '>'].map code) (w : Word) :
    ∃ r, redirection y w = some r ∧ ∀ cmd, redirect cmd y.tok w = cmd.wrap r := by
  cases y
  case lt => exact ⟨_, rfl, fun _ => rfl⟩
  case gt => exact ⟨_, rfl, fun _ => rfl⟩
  case gtgt => exact ⟨_, rfl, fun _ => rfl⟩
  all_goals exact absurd h (by decide)

theorem ahead_of_redirection {y : Sym} {w : Word} {r : Redirection}
    (h : redirection y w = some r) : ahead ['<', '>'] (.sym y :: ts) = true := by
  cases y
  case lt => rfl
  case gt => rfl
  case gtgt => rfl
  all_goals cases h

/-! ## What is returned is derived -/

/-- A parser panics, or it takes tokens from which `D` derives the command it returns. -/
def Yields (x : Except Stop (Cmd × Ptr)) (ts : List Token) (D : List Token → Cmd → Prop) : Prop :=
  (∃ message, x = .error (.panic message)) ∨
    ∃ us rest cmd s', D us cmd ∧ ts = us ++ rest ∧ Before s' rest ∧ x = .ok (cmd, s')

variable {D E : List Token → Cmd → Prop} {x : Except Stop (Cmd × Ptr)}

theorem Yields.panic (message : String) : Yields (.error (.panic message)) ts D :=
  Or.inl ⟨message, rfl⟩

theorem Yields.ok (hbefore : Before s ts) (hD : D [] cmd) : Yields (.ok (cmd, s)) ts D :=
  Or.inr ⟨[], ts, cmd, s, hD, rfl, hbefore, rfl⟩

/-- Tokens have been taken before. -/
theorem Yields.prepend (us : List Token) (h : Yields x ts fun vs cmd => D (us ++ vs) cmd) :
    Yields x (us ++ ts) D := by
  rcases h with hpanic | ⟨vs, rest, cmd, s', hD, rfl, hbefore, hx⟩
  · exact Or.inl hpanic
  · exact Or.inr ⟨us ++ vs, rest, cmd, s', hD, by rw [List.append_assoc], hbefore, hx⟩

theorem Yields.mono (h : Yields x ts D) (himp : ∀ us cmd, D us cmd → E us cmd) :
    Yields x ts E := by
  rcases h with hpanic | ⟨vs, rest, cmd, s', hD, hts, hbefore, hx⟩
  · exact Or.inl hpanic
  · exact Or.inr ⟨vs, rest, cmd, s', himp _ _ hD, hts, hbefore, hx⟩

/-- One parser after another. -/
theorem Yields.bind {f : Cmd × Ptr → Except Stop (Cmd × Ptr)} (h : Yields x ts D)
    (hf : ∀ us rest cmd s', D us cmd → ts = us ++ rest → Before s' rest →
      Yields (f (cmd, s')) rest fun vs cmd => E (us ++ vs) cmd) : Yields (x >>= f) ts E := by
  rcases h with ⟨message, rfl⟩ | ⟨us, rest, cmd, s', hD, rfl, hbefore, rfl⟩
  · exact Yields.panic message
  · exact (hf us rest cmd s' hD rfl hbefore).prepend us

/-- `parseredirs` takes redirections. The induction is on the turns of its loop. -/
theorem yields_parseredirs (h : Before s ts) (hn : ts.length < n) :
    Yields (parseredirs n cmd s) ts fun us c => ∃ rs, Redirs us rs ∧ c = cmd.wraps rs := by
  induction n generalizing s ts cmd with
  | zero => cases hn
  | succ n ih =>
    obtain ⟨s₁, hpeek, h₁⟩ := h.peek_eq ['<', '>'] (by simp [symbols])
    rw [parseredirs, hpeek]
    cases hmore : ahead ['<', '>'] ts with
    | false => exact Yields.ok h₁ ⟨[], .nil, rfl⟩
    | true =>
      obtain ⟨y, us, rfl, hy⟩ := ahead_cases hmore
      obtain ⟨w, s₂, htok, h₂, -⟩ := h₁.gettoken_eq
      simp only [if_true, htok]
      cases us with
      | nil =>
        obtain ⟨w, s₃, hnone, -⟩ := h₂.gettoken_nil_eq
        rw [hnone]
        exact Yields.panic _
      | cons t us =>
        obtain ⟨file, s₃, hfile, h₃, hword⟩ := h₂.gettoken_eq
        rw [hfile]
        cases t with
        | sym z =>
          simp only [Token.tok, ne_eq, tok_sym_ne z, not_false_eq_true, if_true]
          exact Yields.panic _
        | word v =>
          obtain rfl := hword v rfl
          obtain ⟨r, hr, hredirect⟩ := redirect_of_ahead hy file
          simp only [Token.tok, ne_eq, not_true_eq_false, if_false, hredirect]
          simp only [List.length_cons] at hn
          have hrest : Yields (parseredirs n (cmd.wrap r) s₃) us _ := ih h₃ (by omega)
          apply Yields.prepend [.sym y, .word file]
          apply hrest.mono
          rintro vs c ⟨rs, hrs, rfl⟩
          exact ⟨r :: rs, .cons hr hrs, rfl⟩

/-- The command inside its redirections. -/
theorem addArg_wraps (ws : List Word) (rs : List Redirection) (w : Word) :
    ((Cmd.exec ws).wraps rs).addArg w = (Cmd.exec (ws ++ [w])).wraps rs := by
  induction rs using List.reverseRecOn with
  | nil => rfl
  | append_singleton rs r ih =>
    simp only [Cmd.wraps, List.foldl_append, List.foldl_cons, List.foldl_nil] at ih ⊢
    rw [Cmd.wrap, Cmd.addArg, ih]
    rfl

theorem wraps_append (cmd : Cmd) (rs rs' : List Redirection) :
    (cmd.wraps rs).wraps rs' = cmd.wraps (rs ++ rs') :=
  List.foldl_append.symm

/-- The loop of `parseexec` takes words and redirections. The induction is on its turns. -/
theorem yields_parseargs {ws : List Word} {rs : List Redirection} (h : Before s ts)
    (hn : ts.length < n) (hws : ws.length < maxArgs) :
    Yields (parseargs n ((Cmd.exec ws).wraps rs) ws.length s) ts fun us c => ∃ ws' rs',
      Args us ws' rs' ∧ (ws ++ ws').length < maxArgs ∧
        c = (Cmd.exec (ws ++ ws')).wraps (rs ++ rs') := by
  induction n generalizing s ts ws rs with
  | zero => cases hn
  | succ n ih =>
    obtain ⟨s₁, hpeek, h₁⟩ := h.peek_eq ['|', ')', '&', ';'] (by simp [symbols])
    have hdone : ∃ ws' rs', Args [] ws' rs' ∧ (ws ++ ws').length < maxArgs ∧
        (Cmd.exec ws).wraps rs = (Cmd.exec (ws ++ ws')).wraps (rs ++ rs') :=
      ⟨[], [], .nil, by rwa [List.append_nil], by rw [List.append_nil, List.append_nil]⟩
    rw [parseargs, hpeek]
    cases hstop : ahead ['|', ')', '&', ';'] ts with
    | true => exact Yields.ok h₁ hdone
    | false =>
      simp only [Bool.false_eq_true, if_false]
      cases ts with
      | nil =>
        obtain ⟨w, s₂, hnone, h₂⟩ := h₁.gettoken_nil_eq
        rw [hnone]
        exact Yields.ok h₂ hdone
      | cons t us =>
        obtain ⟨w, s₂, htok, h₂, hword⟩ := h₁.gettoken_eq
        simp only [htok, tok_ne_zero t, if_false]
        cases t with
        | sym y =>
          simp only [Token.tok, ne_eq, tok_sym_ne y, not_false_eq_true, if_true]
          exact Yields.panic _
        | word v =>
          obtain rfl := hword v rfl
          simp only [Token.tok, ne_eq, not_true_eq_false, if_false]
          by_cases hmany : ws.length + 1 ≥ maxArgs
          · rw [if_pos hmany]
            exact Yields.panic _
          · rw [if_neg hmany, addArg_wraps]
            rw [List.length_cons] at hn
            apply Yields.prepend [.word w]
            apply (yields_parseredirs h₂ (by omega)).bind
            rintro vs rest c s₃ ⟨rs', hrs', rfl⟩ rfl h₃
            have hlen : (ws ++ [w]).length = ws.length + 1 := by simp
            rw [List.length_append] at hn
            have hfew : (ws ++ [w]).length < maxArgs := by omega
            have hrest : Yields (parseargs n ((Cmd.exec (ws ++ [w])).wraps (rs ++ rs'))
                (ws ++ [w]).length s₃) rest _ := ih h₃ (by omega) hfew
            rw [hlen] at hrest
            rw [wraps_append]
            apply hrest.mono
            rintro xs c ⟨ws', rs'', hargs, hfew, rfl⟩
            have hmore : Args (.word w :: (vs ++ xs)) (w :: ws') (rs' ++ rs'') :=
              .cons hrs' hargs
            refine ⟨w :: ws', rs' ++ rs'', hmore, ?_, ?_⟩
            · simpa using hfew
            · simp

/-- The loop of `parseline` takes `&`s. The induction is on its turns. -/
theorem yields_parsebacks (h : Before s ts) (hn : ts.length < n) :
    Yields (parsebacks n cmd s) ts fun us c =>
      ∃ k, us = List.replicate k (.sym .amp) ∧ c = cmd.backs k := by
  induction n generalizing s ts cmd with
  | zero => cases hn
  | succ n ih =>
    obtain ⟨s₁, hpeek, h₁⟩ := h.peek_eq ['&'] (by simp [symbols])
    rw [parsebacks, hpeek]
    cases hmore : ahead ['&'] ts with
    | false => exact Yields.ok h₁ ⟨0, rfl, rfl⟩
    | true =>
      obtain ⟨y, us, rfl, hy⟩ := ahead_cases hmore
      obtain rfl : y = .amp := by
        cases y <;> first | rfl | exact absurd hy (by decide)
      obtain ⟨w, s₂, htok, h₂, -⟩ := h₁.gettoken_eq
      simp only [if_true, htok]
      rw [List.length_cons] at hn
      apply Yields.prepend [.sym .amp]
      apply (ih h₂ (by omega)).mono
      rintro vs c ⟨k, rfl, rfl⟩
      exact ⟨k + 1, rfl, rfl⟩

/-- A symbol with the first character of `toks`, if there is only one in `toks`. -/
theorem eq_of_first {y z : Sym} (hz : z ≠ .gt) (hz' : z ≠ .gtgt) (h : y.first = z.first) :
    y = z := by
  cases y <;> cases z <;>
    first | rfl | exact absurd rfl hz | exact absurd rfl hz' | exact absurd h (by decide)

/-- What each function returns is derived by its nonterminal. The induction is on the depth of
the calls. -/
theorem yields_parse (n : ℕ) {s : Ptr} {ts : List Token} (h : Before s ts) :
    (4 * ts.length + 4 ≤ n → Yields (parseline n s) ts (Derives .line)) ∧
    (4 * ts.length + 3 ≤ n → Yields (parsepipe n s) ts (Derives .pipe)) ∧
    (4 * ts.length + 1 ≤ n → Yields (parseblock n s) ts (Derives .exec)) ∧
    (4 * ts.length + 2 ≤ n → Yields (parseexec n s) ts (Derives .exec)) := by
  induction n generalizing s ts with
  | zero => refine ⟨?_, ?_, ?_, ?_⟩ <;> intro hn <;> omega
  | succ n ih =>
    refine ⟨fun hn => ?_, fun hn => ?_, fun hn => ?_, fun hn => ?_⟩
    · -- `parseline`
      rw [parseline]
      apply ((ih h).2.1 (by omega)).bind
      rintro us rest cmd s₁ hpipe rfl h₁
      rw [List.length_append] at hn
      apply (yields_parsebacks h₁ (by omega)).bind
      rintro vs rest c s₂ ⟨k, rfl, rfl⟩ rfl h₂
      rw [List.length_append] at hn
      obtain ⟨s₃, hpeek, h₃⟩ := h₂.peek_eq [';'] (by simp [symbols])
      simp only [hpeek]
      cases hmore : ahead [';'] rest with
      | false =>
        apply Yields.ok h₃
        rw [List.append_nil]
        exact .pipe hpipe
      | true =>
        obtain ⟨y, rest, rfl, hy⟩ := ahead_cases hmore
        obtain rfl : y = .semi := eq_of_first (by decide) (by decide) (List.mem_singleton.mp hy)
        obtain ⟨w, s₄, htok, h₄, -⟩ := h₃.gettoken_eq
        simp only [if_true, htok]
        rw [List.length_cons] at hn
        apply Yields.prepend [.sym .semi]
        apply ((ih h₄).1 (by omega)).bind
        rintro xs rest right s₅ hline rfl h₅
        apply Yields.ok h₅
        rw [List.append_nil]
        exact .semi hpipe hline
    · -- `parsepipe`
      rw [parsepipe]
      apply ((ih h).2.2.2 (by omega)).bind
      rintro us rest cmd s₁ hexec rfl h₁
      rw [List.length_append] at hn
      obtain ⟨s₂, hpeek, h₂⟩ := h₁.peek_eq ['|'] (by simp [symbols])
      simp only [hpeek]
      cases hmore : ahead ['|'] rest with
      | false =>
        apply Yields.ok h₂
        rw [List.append_nil]
        exact .exec hexec
      | true =>
        obtain ⟨y, rest, rfl, hy⟩ := ahead_cases hmore
        obtain rfl : y = .bar := eq_of_first (by decide) (by decide) (List.mem_singleton.mp hy)
        obtain ⟨w, s₃, htok, h₃, -⟩ := h₂.gettoken_eq
        simp only [if_true, htok]
        rw [List.length_cons] at hn
        apply Yields.prepend [.sym .bar]
        apply ((ih h₃).2.1 (by omega)).bind
        rintro xs rest right s₄ hpipe rfl h₄
        apply Yields.ok h₄
        rw [List.append_nil]
        exact .bar hexec hpipe
    · -- `parseblock`
      rw [parseblock]
      obtain ⟨s₁, hpeek, h₁⟩ := h.peek_eq ['('] (by simp [symbols])
      simp only [hpeek]
      cases hopen : ahead ['('] ts with
      | false => exact Yields.panic _
      | true =>
        obtain ⟨y, us, rfl, hy⟩ := ahead_cases hopen
        obtain rfl : y = .lpar := eq_of_first (by decide) (by decide) (List.mem_singleton.mp hy)
        obtain ⟨w, s₂, htok, h₂, -⟩ := h₁.gettoken_eq
        simp only [Bool.not_true, Bool.false_eq_true, if_false, htok]
        rw [List.length_cons] at hn
        apply Yields.prepend [.sym .lpar]
        apply ((ih h₂).1 (by omega)).bind
        rintro vs rest cmd s₃ hline rfl h₃
        obtain ⟨s₄, hpeek', h₄⟩ := h₃.peek_eq [')'] (by simp [symbols])
        simp only [hpeek']
        cases hclose : ahead [')'] rest with
        | false => exact Yields.panic _
        | true =>
          obtain ⟨y, rest, rfl, hy⟩ := ahead_cases hclose
          obtain rfl : y = .rpar :=
            eq_of_first (by decide) (by decide) (List.mem_singleton.mp hy)
          obtain ⟨w, s₅, htok', h₅, -⟩ := h₄.gettoken_eq
          simp only [Bool.not_true, Bool.false_eq_true, if_false, htok']
          rw [List.length_append, List.length_cons] at hn
          apply Yields.prepend [.sym .rpar]
          apply (yields_parseredirs h₅ (by omega)).mono
          rintro xs c ⟨rs, hrs, rfl⟩
          exact .block hline hrs
    · -- `parseexec`
      rw [parseexec]
      obtain ⟨s₁, hpeek, h₁⟩ := h.peek_eq ['('] (by simp [symbols])
      simp only [hpeek]
      cases hopen : ahead ['('] ts with
      | true => exact (ih h₁).2.2.1 (by omega)
      | false =>
        simp only [Bool.false_eq_true, if_false]
        apply (yields_parseredirs h₁ (by omega)).bind
        rintro us rest c s₂ ⟨rs, hrs, rfl⟩ rfl h₂
        rw [List.length_append] at hn
        have hargs : Yields (parseargs n ((Cmd.exec []).wraps rs) ([] : List Word).length s₂)
            rest _ := yields_parseargs h₂ (by omega) (by decide)
        apply hargs.mono
        rintro vs c ⟨ws, rs', hws, hfew, rfl⟩
        exact .words hrs hws hfew

/-! ## What is derived is returned -/

/-- A parser returns a command and stands before `rest`. -/
def Returns (x : Except Stop (Cmd × Ptr)) (cmd : Cmd) (rest : List Token) : Prop :=
  ∃ s, x = .ok (cmd, s) ∧ Before s rest

/-- The symbols that may follow a nonterminal. -/
def Kind.follow : Kind → List Char
  | .line => [')']
  | .pipe => [')', '&', ';']
  | .exec => [')', '&', ';', '|']

/-- The tokens may follow a nonterminal. -/
def Follows (k : Kind) (rest : List Token) : Prop := rest = [] ∨ ahead k.follow rest = true

/-- The function of a nonterminal. -/
def parse : Kind → ℕ → Ptr → Except Stop (Cmd × Ptr)
  | .line => parseline
  | .pipe => parsepipe
  | .exec => parseexec

/-- The calls down to `parseexec`. -/
def Kind.depth : Kind → ℕ
  | .line => 4
  | .pipe => 3
  | .exec => 2

/-- What may follow a line may follow a pipe, and what may follow a pipe may follow a command. -/
theorem Follows.weaken {k : Kind} (h : Follows k rest) (hsub : k.follow ⊆ toks) :
    rest = [] ∨ ahead toks rest = true := by
  rcases h with hnil | hahead
  · exact Or.inl hnil
  · obtain ⟨y, us, rfl, hy⟩ := ahead_cases hahead
    right
    simp only [ahead, decide_eq_true_eq]
    exact List.map_subset code hsub hy

/-- A token that may follow is not one of the others. -/
theorem Follows.ahead_eq_false {k : Kind} (h : Follows k rest)
    (hdisjoint : ∀ d ∈ toks.map code, d ∉ k.follow.map code) : ahead toks rest = false := by
  rcases h with rfl | hahead
  · rfl
  · obtain ⟨y, us, rfl, hy⟩ := ahead_cases hahead
    simp only [ahead, decide_eq_false_iff_not]
    exact fun hmem => hdisjoint _ hmem hy

/-- Redirections are taken, up to something else. -/
theorem returns_parseredirs {rs : List Redirection} (hD : Redirs us rs)
    (hrest : ahead ['<', '>'] rest = false) (h : Before s (us ++ rest)) (hn : us.length < n) :
    Returns (parseredirs n cmd s) (cmd.wraps rs) rest := by
  induction hD generalizing s n cmd with
  | nil =>
    obtain ⟨m, rfl⟩ : ∃ m, n = m + 1 := ⟨n - 1, by omega⟩
    obtain ⟨s₁, hpeek, h₁⟩ := h.peek_eq ['<', '>'] (by simp [symbols])
    rw [List.nil_append] at hpeek h₁
    rw [parseredirs, hpeek, hrest]
    exact ⟨s₁, rfl, h₁⟩
  | @cons y w r ts rs hr _ ih =>
    obtain ⟨m, rfl⟩ : ∃ m, n = m + 1 := ⟨n - 1, by omega⟩
    obtain ⟨s₁, hpeek, h₁⟩ := h.peek_eq ['<', '>'] (by simp [symbols])
    have hmore : ahead ['<', '>'] (.sym y :: .word w :: (ts ++ rest)) = true :=
      ahead_of_redirection hr
    obtain ⟨y', us', heq, hy⟩ := ahead_cases hmore
    obtain ⟨rfl, rfl⟩ : y = y' ∧ .word w :: (ts ++ rest) = us' := by simpa using heq
    obtain ⟨v, s₂, htok, h₂, -⟩ := h₁.gettoken_eq
    obtain ⟨file, s₃, hfile, h₃, hword⟩ := h₂.gettoken_eq
    obtain rfl := hword w rfl
    obtain ⟨r', hr', hredirect⟩ := redirect_of_ahead hy file
    obtain rfl : r = r' := Option.some.inj (hr.symm.trans hr')
    have hahead : ahead ['<', '>'] (.sym y :: .word file :: ts ++ rest) = true := hmore
    simp only [List.length_cons] at hn
    rw [parseredirs, hpeek, hahead]
    simp only [if_true, htok, hfile, Token.tok, ne_eq, not_true_eq_false, if_false, hredirect]
    exact ih h₃ (by omega)

/-- `&`s are taken, up to something else. -/
theorem returns_parsebacks {k : ℕ} (hrest : ahead ['&'] rest = false)
    (h : Before s (List.replicate k (.sym .amp) ++ rest)) (hn : k < n) :
    Returns (parsebacks n cmd s) (cmd.backs k) rest := by
  induction k generalizing s n cmd with
  | zero =>
    obtain ⟨m, rfl⟩ : ∃ m, n = m + 1 := ⟨n - 1, by omega⟩
    obtain ⟨s₁, hpeek, h₁⟩ := h.peek_eq ['&'] (by simp [symbols])
    rw [List.replicate_zero, List.nil_append] at hpeek h₁
    rw [parsebacks, hpeek, hrest]
    exact ⟨s₁, rfl, h₁⟩
  | succ k ih =>
    obtain ⟨m, rfl⟩ : ∃ m, n = m + 1 := ⟨n - 1, by omega⟩
    rw [List.replicate_succ, List.cons_append] at h
    obtain ⟨s₁, hpeek, h₁⟩ := h.peek_eq ['&'] (by simp [symbols])
    obtain ⟨w, s₂, htok, h₂, -⟩ := h₁.gettoken_eq
    have hmore : ahead ['&'] (.sym .amp :: (List.replicate k (.sym .amp) ++ rest)) = true := rfl
    rw [parsebacks, hpeek, hmore]
    simp only [if_true, htok]
    exact ih h₂ (by omega)

/-- One parser after another. -/
theorem Returns.bind {f : Cmd × Ptr → Except Stop (Cmd × Ptr)} {cmd' : Cmd} {rest' : List Token}
    (h : Returns x cmd rest) (hf : ∀ s, Before s rest → Returns (f (cmd, s)) cmd' rest') :
    Returns (x >>= f) cmd' rest' := by
  obtain ⟨s, rfl, hbefore⟩ := h
  exact hf s hbefore

/-- No redirection comes next after `(word redir*)*`. -/
theorem ahead_args {ws : List Word} {rs : List Redirection} (hD : Args us ws rs)
    (hrest : Follows .exec rest) : ahead ['<', '>'] (us ++ rest) = false := by
  cases hD with
  | nil => exact hrest.ahead_eq_false (by simp [Kind.follow, code])
  | cons => rfl

/-- Words and their redirections are taken, up to something that may follow. -/
theorem returns_parseargs {ws ws' : List Word} {rs rs' : List Redirection}
    (hD : Args us ws' rs') (hrest : Follows .exec rest) (h : Before s (us ++ rest))
    (hfew : (ws ++ ws').length < maxArgs) (hn : us.length < n) :
    Returns (parseargs n ((Cmd.exec ws).wraps rs) ws.length s)
      ((Cmd.exec (ws ++ ws')).wraps (rs ++ rs')) rest := by
  induction hD generalizing s n ws rs with
  | nil =>
    obtain ⟨m, rfl⟩ : ∃ m, n = m + 1 := ⟨n - 1, by omega⟩
    obtain ⟨s₁, hpeek, h₁⟩ := h.peek_eq ['|', ')', '&', ';'] (by simp [symbols])
    rw [List.nil_append] at hpeek h₁
    rw [parseargs, hpeek, List.append_nil, List.append_nil]
    have hsub : Kind.exec.follow ⊆ ['|', ')', '&', ';'] := by simp [Kind.follow]
    rcases hrest.weaken hsub with rfl | hstop
    · obtain ⟨w, s₂, hnone, h₂⟩ := h₁.gettoken_nil_eq
      simp only [ahead_nil, Bool.false_eq_true, if_false, hnone, if_true]
      exact ⟨s₂, rfl, h₂⟩
    · rw [hstop]
      exact ⟨s₁, rfl, h₁⟩
  | @cons w ts us ws' rs' rs'' hrs hargs ih =>
    obtain ⟨m, rfl⟩ : ∃ m, n = m + 1 := ⟨n - 1, by omega⟩
    obtain ⟨s₁, hpeek, h₁⟩ := h.peek_eq ['|', ')', '&', ';'] (by simp [symbols])
    obtain ⟨v, s₂, htok, h₂, hword⟩ := h₁.gettoken_eq
    obtain rfl := hword w rfl
    have hfew' : ¬ ws.length + 1 ≥ maxArgs := by
      simp only [List.length_append, List.length_cons] at hfew
      omega
    simp only [List.length_cons, List.length_append] at hn
    have hlen : (ws ++ [v]).length = ws.length + 1 := by simp
    have hnone : ahead ['|', ')', '&', ';'] (.word v :: (ts ++ us) ++ rest) = false := rfl
    rw [parseargs, hpeek, hnone]
    simp only [Bool.false_eq_true, if_false, htok, Token.tok, ne_eq, not_true_eq_false,
      if_neg hfew', addArg_wraps]
    have ha : code 'a' ≠ 0 := by decide
    rw [if_neg ha]
    have h₂' : Before s₂ (ts ++ (us ++ rest)) := by
      rw [← List.append_assoc]
      exact h₂
    apply (returns_parseredirs hrs (ahead_args hargs hrest) h₂' (by omega)).bind
    intro s₃ h₃
    have hfew'' : ((ws ++ [v]) ++ ws').length < maxArgs := by simpa using hfew
    have hnext : Returns (parseargs m ((Cmd.exec (ws ++ [v])).wraps (rs ++ rs'))
        (ws ++ [v]).length s₃) _ rest := ih h₃ hfew'' (by omega)
    rw [hlen] at hnext
    simpa [wraps_append] using hnext

/-- What is derived in front of a token that may follow is returned. The induction is on the
derivation. -/
theorem returns_parse {k : Kind} (hD : Derives k ts cmd) (hrest : Follows k rest)
    (h : Before s (ts ++ rest)) (hn : 4 * ts.length + k.depth ≤ n) :
    Returns (parse k n s) cmd rest := by
  induction hD generalizing s n rest with
  | @block ts us cmd rs _ hrs ih =>
    obtain ⟨m, rfl⟩ : ∃ m, n = m + 1 + 1 :=
      ⟨n - 2, by simp only [Kind.depth] at hn; omega⟩
    simp only [List.length_cons, List.length_append, Kind.depth] at hn
    have hshape : Before s (.sym .lpar :: (ts ++ .sym .rpar :: (us ++ rest))) := by
      simpa using h
    obtain ⟨s₁, hpeek, h₁⟩ := hshape.peek_eq ['('] (by simp [symbols])
    obtain ⟨s₂, hpeek', h₂⟩ := h₁.peek_eq ['('] (by simp [symbols])
    obtain ⟨w, s₃, htok, h₃, -⟩ := h₂.gettoken_eq
    have hopen : ahead ['('] (.sym .lpar :: (ts ++ .sym .rpar :: (us ++ rest))) = true := rfl
    rw [parse, parseexec, hpeek, hopen]
    simp only [if_true]
    rw [parseblock, hpeek', hopen]
    simp only [Bool.not_true, Bool.false_eq_true, if_false, htok]
    have hline : Returns (parseline m s₃) _ (.sym .rpar :: (us ++ rest)) :=
      ih (Or.inr rfl) h₃ (by simp only [Kind.depth]; omega)
    apply hline.bind
    intro s₄ h₄
    obtain ⟨s₅, hpeek₅, h₅⟩ := h₄.peek_eq [')'] (by simp [symbols])
    obtain ⟨w, s₆, htok₆, h₆, -⟩ := h₅.gettoken_eq
    have hclose : ahead [')'] (.sym .rpar :: (us ++ rest)) = true := rfl
    simp only [hpeek₅, hclose, Bool.not_true, Bool.false_eq_true, if_false, htok₆]
    exact returns_parseredirs hrs (hrest.ahead_eq_false (by simp [Kind.follow, code])) h₆ (by omega)
  | @words ts us ws rs rs' hrs hargs hfew =>
    obtain ⟨m, rfl⟩ : ∃ m, n = m + 1 := ⟨n - 1, by simp only [Kind.depth] at hn; omega⟩
    simp only [List.length_append, Kind.depth] at hn
    rw [List.append_assoc] at h
    obtain ⟨s₁, hpeek, h₁⟩ := h.peek_eq ['('] (by simp [symbols])
    have hopen : ahead ['('] (ts ++ (us ++ rest)) = false := by
      cases hrs with
      | nil =>
        cases hargs with
        | nil => exact hrest.ahead_eq_false (by simp [Kind.follow, code])
        | cons => rfl
      | @cons y w r ts rs hr _ =>
        cases y <;> first | rfl | cases hr
    rw [parse, parseexec, hpeek, hopen]
    simp only [Bool.false_eq_true, if_false]
    apply (returns_parseredirs hrs (ahead_args hargs hrest) h₁ (by omega)).bind
    intro s₂ h₂
    have hall : Returns (parseargs m ((Cmd.exec []).wraps rs) ([] : List Word).length s₂) _
        rest := returns_parseargs hargs hrest h₂ hfew (by omega)
    simpa using hall
  | exec _ ih =>
    obtain ⟨m, rfl⟩ : ∃ m, n = m + 1 := ⟨n - 1, by simp only [Kind.depth] at hn; omega⟩
    simp only [Kind.depth] at hn
    rw [parse, parsepipe]
    apply (ih (hrest.weaken (by simp [Kind.follow])) h (by simp only [Kind.depth]; omega) :
      Returns (parseexec m s) _ _).bind
    intro s₁ h₁
    obtain ⟨s₂, hpeek, h₂⟩ := h₁.peek_eq ['|'] (by simp [symbols])
    have hno : ahead ['|'] rest = false := hrest.ahead_eq_false (by simp [Kind.follow, code])
    simp only [hpeek, hno,
      Bool.false_eq_true, if_false]
    exact ⟨s₂, rfl, h₂⟩
  | @bar ts us left right _ _ ihl ihr =>
    obtain ⟨m, rfl⟩ : ∃ m, n = m + 1 := ⟨n - 1, by simp only [Kind.depth] at hn; omega⟩
    simp only [List.length_append, List.length_cons, Kind.depth] at hn
    rw [List.append_assoc, List.cons_append] at h
    rw [parse, parsepipe]
    apply (ihl (Or.inr rfl) h (by simp only [Kind.depth]; omega) :
      Returns (parseexec m s) _ _).bind
    intro s₁ h₁
    obtain ⟨s₂, hpeek, h₂⟩ := h₁.peek_eq ['|'] (by simp [symbols])
    obtain ⟨w, s₃, htok, h₃, -⟩ := h₂.gettoken_eq
    have hmore : ahead ['|'] (.sym .bar :: (us ++ rest)) = true := rfl
    simp only [hpeek, hmore, if_true, htok]
    apply (ihr hrest h₃ (by simp only [Kind.depth]; omega) : Returns (parsepipe m s₃) _ _).bind
    intro s₄ h₄
    exact ⟨s₄, rfl, h₄⟩
  | @pipe ts cmd k _ ih =>
    obtain ⟨m, rfl⟩ : ∃ m, n = m + 1 := ⟨n - 1, by simp only [Kind.depth] at hn; omega⟩
    simp only [List.length_append, List.length_replicate, Kind.depth] at hn
    rw [List.append_assoc] at h
    rw [parse, parseline]
    have hfollow : Follows .pipe (List.replicate k (.sym .amp) ++ rest) := by
      cases k with
      | zero => exact hrest.weaken (by simp [Kind.follow])
      | succ k => exact Or.inr rfl
    apply (ih hfollow h (by simp only [Kind.depth]; omega) : Returns (parsepipe m s) _ _).bind
    intro s₁ h₁
    have hno' : ahead ['&'] rest = false := hrest.ahead_eq_false (by simp [Kind.follow, code])
    apply (returns_parsebacks hno' h₁ (by omega)).bind
    intro s₂ h₂
    obtain ⟨s₃, hpeek, h₃⟩ := h₂.peek_eq [';'] (by simp [symbols])
    have hno : ahead [';'] rest = false := hrest.ahead_eq_false (by simp [Kind.follow, code])
    simp only [hpeek, hno,
      Bool.false_eq_true, if_false]
    exact ⟨s₃, rfl, h₃⟩
  | @semi ts us cmd right k _ _ ihp ihl =>
    obtain ⟨m, rfl⟩ : ∃ m, n = m + 1 := ⟨n - 1, by simp only [Kind.depth] at hn; omega⟩
    simp only [List.length_append, List.length_cons, List.length_replicate, Kind.depth] at hn
    have hshape : Before s
        (ts ++ (List.replicate k (.sym .amp) ++ .sym .semi :: (us ++ rest))) := by
      simpa using h
    rw [parse, parseline]
    have hfollow : Follows .pipe
        (List.replicate k (.sym .amp) ++ .sym .semi :: (us ++ rest)) := by
      cases k with
      | zero => exact Or.inr rfl
      | succ k => exact Or.inr rfl
    apply (ihp hfollow hshape (by simp only [Kind.depth]; omega) :
      Returns (parsepipe m s) _ _).bind
    intro s₁ h₁
    apply (returns_parsebacks rfl h₁ (by omega)).bind
    intro s₂ h₂
    obtain ⟨s₃, hpeek, h₃⟩ := h₂.peek_eq [';'] (by simp [symbols])
    obtain ⟨w, s₄, htok, h₄, -⟩ := h₃.gettoken_eq
    have hmore : ahead [';'] (.sym .semi :: (us ++ rest)) = true := rfl
    simp only [hpeek, hmore, if_true, htok]
    apply (ihl hrest h₄ (by simp only [Kind.depth]; omega) : Returns (parseline m s₄) _ _).bind
    intro s₅ h₅
    exact ⟨s₅, rfl, h₅⟩

end Xv6.Shell
