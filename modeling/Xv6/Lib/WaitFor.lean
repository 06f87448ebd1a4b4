import Mathlib

/-!
# Waiting for locks

Agents hold locks and want to take others. An agent waits for whoever holds the lock it
wants, and a deadlock is a cycle of agents that wait for one another. Where an agent wants
one lock at a time, a deadlock needs an agent that takes locks against any given order.
-/

namespace WaitFor

variable {A L R : Type*} [LinearOrder R] {wants holds : A → L → Prop}

/-- The first agent wants a lock that the second one holds. -/
def Waits (wants holds : A → L → Prop) (a b : A) : Prop := ∃ l, wants a l ∧ holds b l

/-- A cycle of agents, each holding a lock that the one before it wants. -/
def Deadlock (wants holds : A → L → Prop) : Prop :=
  ∃ a, Relation.TransGen (Waits wants holds) a a

/-- If locks are taken in the order of their ranks, the ranks of the locks that agents want
increase along every path of waiting agents. -/
theorem rank_lt_of_path {rank : L → R} (hone : ∀ a l l', wants a l → wants a l' → l = l')
    (hrank : ∀ a m l b k, holds a m → wants a l → holds b l → wants b k → rank m < rank l)
    {a c d e : A} (hpath : Relation.TransGen (Waits wants holds) a c)
    (hcd : Waits wants holds c d) (hde : Waits wants holds d e) {l k : L} (hl : wants a l)
    (hk : wants c k) : rank l < rank k := by
  induction hpath generalizing d e k with
  | @single c hac =>
    obtain ⟨l', hl', hheld⟩ := hac
    obtain ⟨k', hk', hheld'⟩ := hcd
    obtain ⟨j, hj, -⟩ := hde
    have hsame := hone a l l' hl hl'
    have hsame' := hone c k k' hk hk'
    subst hsame hsame'
    exact hrank c l k d j hheld hk hheld' hj
  | @tail b c hab hbc ih =>
    obtain ⟨m, hm, hheld⟩ := hbc
    have hlt := ih ⟨m, hm, hheld⟩ hcd hm
    obtain ⟨k', hk', hheld'⟩ := hcd
    obtain ⟨j, hj, -⟩ := hde
    have hsame := hone c k k' hk hk'
    subst hsame
    exact lt_trans hlt (hrank c m k d j hheld hk hheld' hj)

/-- In a deadlock, whatever the ranks of the locks, some agent holds a lock and wants one of no
larger rank, whose holder waits as well. -/
theorem Deadlock.exists_inversion (hdead : Deadlock wants holds) (rank : L → R)
    (hone : ∀ a l l', wants a l → wants a l' → l = l') :
    ∃ a m l b k, holds a m ∧ wants a l ∧ holds b l ∧ wants b k ∧ rank l ≤ rank m := by
  by_contra hno
  push Not at hno
  obtain ⟨a, hcycle⟩ := hdead
  obtain ⟨b, hab, hba⟩ := Relation.TransGen.head'_iff.mp hcycle
  obtain ⟨l, hl, -⟩ := id hab
  have hnext : ∃ c, Waits wants holds b c := by
    rcases hba.cases_head with rfl | ⟨c, hbc, -⟩
    · exact ⟨_, hab⟩
    · exact ⟨c, hbc⟩
  obtain ⟨c, hbc⟩ := hnext
  exact lt_irrefl _ (rank_lt_of_path hone hno hcycle hab hbc hl hl)

end WaitFor
