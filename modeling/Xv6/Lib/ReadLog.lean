import Mathlib

/-!
# Computations that record what they read

A computation over a memory with addresses in a type `A`, as its result and the list of the
addresses it has read. A property of all addresses read follows the structure of the code.
-/

namespace ReadLog

/-- A result, and the addresses read for it, in order. -/
structure Reading (A α : Type) where
  /-- The result. -/
  value : α
  /-- The addresses read. -/
  addrs : List A

variable {A α β : Type}

instance : Monad (Reading A) where
  pure x := ⟨x, []⟩
  bind x f := ⟨(f x.value).value, x.addrs ++ (f x.value).addrs⟩

/-- Read one address of a memory. -/
def read (mem : A → β) (a : A) : Reading A β := ⟨mem a, [a]⟩

@[simp] theorem value_pure (x : α) : (pure x : Reading A α).value = x := rfl

@[simp] theorem addrs_pure (x : α) : (pure x : Reading A α).addrs = [] := rfl

@[simp] theorem value_bind (x : Reading A α) (f : α → Reading A β) :
    (x >>= f).value = (f x.value).value := rfl

@[simp] theorem addrs_bind (x : Reading A α) (f : α → Reading A β) :
    (x >>= f).addrs = x.addrs ++ (f x.value).addrs := rfl

@[simp] theorem value_read (mem : A → β) (a : A) : (read mem a).value = mem a := rfl

@[simp] theorem addrs_read (mem : A → β) (a : A) : (read mem a).addrs = [a] := rfl

/-- All addresses read have a property. -/
def Within (P : A → Prop) (x : Reading A α) : Prop := ∀ a ∈ x.addrs, P a

variable {P : A → Prop}

theorem within_pure (x : α) : Within P (pure x : Reading A α) := by simp [Within]

theorem within_read {mem : A → β} {a : A} (h : P a) : Within P (read mem a) := by
  simpa [Within] using h

/-- A sequence of two computations reads what the two read. -/
theorem within_bind {x : Reading A α} {f : α → Reading A β} (hx : Within P x)
    (hf : Within P (f x.value)) : Within P (x >>= f) := by
  intro a ha
  rw [addrs_bind, List.mem_append] at ha
  exact ha.elim (hx a) (hf a)

/-! ## Code that can fail -/

/-- All addresses read have the property `P`, and a result has the property `Q`. -/
def Spec (P : A → Prop) (x : Reading A (Option α)) (Q : α → Prop) : Prop :=
  Within P x ∧ ∀ c, x.value = some c → Q c

variable {Q : α → Prop} {R : β → Prop}

theorem spec_none : Spec P (pure none : Reading A (Option α)) Q :=
  ⟨within_pure none, by simp⟩

theorem spec_some {c : α} (hc : Q c) : Spec P (pure (some c) : Reading A (Option α)) Q := by
  refine ⟨within_pure _, fun c' hc' => ?_⟩
  obtain rfl := Option.some.inj hc'
  exact hc

theorem spec_bind {x : Reading A β} {f : β → Reading A (Option α)} (hx : Within P x)
    (hf : Spec P (f x.value) Q) : Spec P (x >>= f) Q :=
  ⟨within_bind hx hf.1, hf.2⟩

/-- A computation that goes on only if the first one does not fail. -/
theorem spec_andThen {x : Reading A (Option β)} {f : Option β → Reading A (Option α)}
    (hx : Spec P x R) (hnone : f none = pure none)
    (hsome : ∀ b, R b → Spec P (f (some b)) Q) : Spec P (x >>= f) Q := by
  apply spec_bind hx.1
  cases hvalue : x.value with
  | none => exact hnone ▸ spec_none
  | some b => exact hsome b (hx.2 b hvalue)

theorem Spec.mono {Q' : α → Prop} {x : Reading A (Option α)} (hx : Spec P x Q)
    (hQ : ∀ c, Q c → Q' c) : Spec P x Q' :=
  ⟨hx.1, fun c hc => hQ c (hx.2 c hc)⟩

end ReadLog
