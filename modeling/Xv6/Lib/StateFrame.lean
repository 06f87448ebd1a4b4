import Xv6.Lib.StateProg

/-!
# Programs that leave a part of the state alone

Programs are run one after the other. A program commutes with a change of the state if it runs
after the change as it does before: with the same result or failure, and with the change applied
to the state that it leaves. What a program is known to do in one state then holds in every state
that such a change leads to.
-/

namespace StateProg

variable {σ ε α β : Type} {change : σ → σ}

/-- After a program that ends, the next one runs on. -/
theorem run_bind {prog : StateT σ (Except ε) α} {next : α → StateT σ (Except ε) β} {s s' : σ}
    {a : α} (hrun : prog s = .ok (a, s')) : (prog >>= next) s = next a s' := by
  simp only [Bind.bind, StateT.bind, Except.bind, hrun]

/-- After a program that fails, nothing runs. -/
theorem run_bind_error {prog : StateT σ (Except ε) α} {next : α → StateT σ (Except ε) β} {s : σ}
    {e : ε} (hrun : prog s = .error e) : (prog >>= next) s = .error e := by
  simp only [Bind.bind, StateT.bind, Except.bind, hrun]

/-- The program neither sees nor touches what the change is about. -/
def Commutes (change : σ → σ) (prog : StateT σ (Except ε) α) : Prop :=
  ∀ s, prog (change s) = (prog s).map fun r => (r.1, change r.2)

theorem commutes_pure (a : α) : Commutes change (pure a : StateT σ (Except ε) α) := fun _ => rfl

theorem commutes_throw (e : ε) : Commutes change (throw e : StateT σ (Except ε) α) :=
  fun _ => rfl

theorem Commutes.bind {prog : StateT σ (Except ε) α} {next : α → StateT σ (Except ε) β}
    (hprog : Commutes change prog) (hnext : ∀ a, Commutes change (next a)) :
    Commutes change (prog >>= next) := by
  intro s
  simp only [Bind.bind, StateT.bind, Except.bind, hprog s]
  cases prog s with
  | error e => rfl
  | ok r => exact hnext r.1 r.2

/-- Reading the state, if what is done with it does not depend on the change. -/
theorem commutes_get_bind {next : σ → StateT σ (Except ε) α} (hnext : ∀ s, Commutes change (next s))
    (hsame : ∀ s, next (change s) = next s) : Commutes change (get >>= next) := by
  intro s
  change next (change s) (change s) = (next s s).map _
  rw [hsame]
  exact hnext s s

theorem commutes_modify {f : σ → σ} (hf : ∀ s, f (change s) = change (f s)) :
    Commutes change (modify f : StateT σ (Except ε) Unit) := by
  intro s
  change Except.ok ((), f (change s)) = Except.ok ((), change (f s))
  rw [hf]

theorem Commutes.ite {c : Prop} [Decidable c] {prog prog' : StateT σ (Except ε) α}
    (hprog : Commutes change prog) (hprog' : Commutes change prog') :
    Commutes change (if c then prog else prog') := by
  split_ifs
  · exact hprog
  · exact hprog'

theorem Commutes.dite {c : Prop} [Decidable c] {prog : c → StateT σ (Except ε) α}
    {prog' : ¬ c → StateT σ (Except ε) α} (hprog : ∀ h, Commutes change (prog h))
    (hprog' : ∀ h, Commutes change (prog' h)) :
    Commutes change (if h : c then prog h else prog' h) := by
  split_ifs with h
  · exact hprog h
  · exact hprog' h

/-- A specification at a state is one at the changed state. -/
theorem Commutes.wp_change {prog : StateT σ (Except ε) α} (hprog : Commutes change prog)
    {post : α → σ → Prop} {fail : ε → Prop} {s : σ} (hspec : wp prog post fail s) :
    wp prog (fun a s' => ∃ s₁, post a s₁ ∧ s' = change s₁) fail (change s) := by
  unfold wp at *
  rw [hprog s]
  cases hrun : prog s with
  | error e =>
    rw [hrun] at hspec
    exact hspec
  | ok r =>
    rw [hrun] at hspec
    exact ⟨r.2, hspec, rfl⟩

end StateProg
