import Mathlib

/-!
# Programs that change a state and may fail

Weakest preconditions for `StateT σ (Except ε)`: what holds of the result and the state
when the program ends, and which failures are allowed. The rules follow the `do` block.
-/

namespace StateProg

variable {σ ε α β : Type}

/-- From this state the program ends as the postcondition says, or in a failure that is
allowed. -/
def wp (prog : StateT σ (Except ε) α) (post : α → σ → Prop) (fail : ε → Prop) (s : σ) : Prop :=
  match prog s with
  | .ok (a, s') => post a s'
  | .error e => fail e

variable {post : α → σ → Prop} {fail : ε → Prop} {s : σ}

@[simp] theorem wp_pure (a : α) :
    wp (pure a : StateT σ (Except ε) α) post fail s = post a s := rfl

@[simp] theorem wp_throw (e : ε) :
    wp (throw e : StateT σ (Except ε) α) post fail s = fail e := rfl

@[simp] theorem wp_get {post : σ → σ → Prop} :
    wp (get : StateT σ (Except ε) σ) post fail s = post s s := rfl

@[simp] theorem wp_modify {post : Unit → σ → Prop} (f : σ → σ) :
    wp (modify f : StateT σ (Except ε) Unit) post fail s = post ⟨⟩ (f s) := rfl

@[simp] theorem wp_bind {post : β → σ → Prop} (prog : StateT σ (Except ε) α)
    (next : α → StateT σ (Except ε) β) :
    wp (prog >>= next) post fail s = wp prog (fun a s' => wp (next a) post fail s') fail s := by
  simp only [wp, bind, StateT.bind, Except.bind]
  cases prog s <;> rfl

@[simp] theorem wp_map {post : β → σ → Prop} (f : α → β) (prog : StateT σ (Except ε) α) :
    wp (f <$> prog) post fail s = wp prog (fun a s' => post (f a) s') fail s := by
  simp only [wp, Functor.map, StateT.map, bind, Except.bind]
  cases prog s <;> rfl

/-- A program that meets a specification meets every weaker one. -/
theorem wp_mono {prog : StateT σ (Except ε) α} {post' : α → σ → Prop}
    (hprog : wp prog post fail s) (hweak : ∀ a s', post a s' → post' a s') :
    wp prog post' fail s := by
  unfold wp at *
  cases hrun : prog s with
  | error e => simpa [hrun] using hprog
  | ok r => exact hweak r.1 r.2 (by simpa [hrun] using hprog)

/-- A program that meets a specification meets every one with a weaker postcondition that
allows more failures. -/
theorem wp_weaken {prog : StateT σ (Except ε) α} {post' : α → σ → Prop} {fail' : ε → Prop}
    (hprog : wp prog post fail s) (hpost : ∀ a s', post a s' → post' a s')
    (hfail : ∀ e, fail e → fail' e) : wp prog post' fail' s := by
  unfold wp at *
  cases hrun : prog s with
  | error e => exact hfail e (by simpa [hrun] using hprog)
  | ok r => exact hpost r.1 r.2 (by simpa [hrun] using hprog)

/-- Two specifications of a program hold together. -/
theorem wp_and {prog : StateT σ (Except ε) α} {post' : α → σ → Prop} {fail' : ε → Prop}
    (hprog : wp prog post fail s) (hprog' : wp prog post' fail' s) :
    wp prog (fun a s' => post a s' ∧ post' a s') (fun e => fail e ∧ fail' e) s := by
  unfold wp at *
  cases hrun : prog s with
  | error e =>
    rw [hrun] at hprog hprog'
    exact ⟨hprog, hprog'⟩
  | ok r =>
    rw [hrun] at hprog hprog'
    exact ⟨hprog, hprog'⟩

/-- A program that is allowed no failure ends. -/
theorem exists_ok {prog : StateT σ (Except ε) α} (hprog : wp prog post (fun _ => False) s) :
    ∃ a s', prog s = .ok (a, s') ∧ post a s' := by
  unfold wp at hprog
  cases hrun : prog s with
  | error e => simp [hrun] at hprog
  | ok r => exact ⟨r.1, r.2, rfl, by simpa [hrun] using hprog⟩

/-- A program that ends meets a specification that its end meets. -/
theorem wp_of_ok {prog : StateT σ (Except ε) α} {a : α} {s' : σ} (hrun : prog s = .ok (a, s'))
    (hpost : post a s') : wp prog post fail s := by
  unfold wp
  rw [hrun]
  exact hpost

/-- A specification speaks about the run from the state only. -/
theorem wp_congr {prog prog' : StateT σ (Except ε) α} (heq : prog s = prog' s) :
    wp prog post fail s = wp prog' post fail s := by
  unfold wp
  rw [heq]

/-- A program that ends has met its specification. -/
theorem wp_ok {prog : StateT σ (Except ε) α} (hprog : wp prog post fail s) {a : α} {s' : σ}
    (hrun : prog s = .ok (a, s')) : post a s' := by
  simpa [wp, hrun] using hprog

/-- A program that fails does so in a way that its specification allows. -/
theorem wp_error {prog : StateT σ (Except ε) α} (hprog : wp prog post fail s) {e : ε}
    (hrun : prog s = .error e) : fail e := by
  simpa [wp, hrun] using hprog

/-- The rule for loops over a list: the invariant speaks about the elements to come. -/
theorem wp_forM {f : α → StateT σ (Except ε) Unit} (Inv : List α → σ → Prop)
    (hstep : ∀ a rest s, Inv (a :: rest) s → wp (f a) (fun _ s' => Inv rest s') fail s)
    {l : List α} (hinit : Inv l s) : wp (l.forM f) (fun _ s' => Inv [] s') fail s := by
  induction l generalizing s with
  | nil => exact hinit
  | cons a rest ih =>
    change wp (f a >>= fun _ => rest.forM f) _ _ _
    rw [wp_bind]
    exact wp_mono (hstep a rest s hinit) fun _ _ h => ih h

end StateProg
