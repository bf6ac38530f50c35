import LsvmTools.Lib.Loop

/-! # Recursions that need not end

A function that calls itself is what it delivers with a limit on the nesting of the calls. Its
body must not deliver more where the calls deliver less; then the function has the results of
its body with the function itself for the calls. -/
namespace LsvmTools.Lib.Loop
open Lib.Program

namespace Exec

variable {ε α β σ : Type}

/-- A computation without a result. -/
def diverge : Exec ε α := ⟨fun _ => none, fun h => by cases h⟩

/-- What `m` delivers within `n` rounds, `m'` delivers within them. -/
def Under (n : Nat) (m m' : Exec ε α) : Prop := ∀ r, m.run n = some r → m'.run n = some r

variable {n : Nat}

theorem Under.refl (m : Exec ε α) : Under n m m := fun _ h => h

theorem Under.bind {m m' : Exec ε α} {k k' : α → Exec ε β} (hm : Under n m m')
    (hk : ∀ a, Under n (k a) (k' a)) : Under n (m >>= k) (m' >>= k') := by
  intro r h
  change andThen (m.run n) (fun a => (k a).run n) = some r at h
  show andThen (m'.run n) (fun a => (k' a).run n) = some r
  cases hx : m.run n with
  | none => rw [hx] at h; cases h
  | some x =>
    rw [hx] at h
    rw [hm x hx]
    cases x with
    | ok a => exact hk a r h
    | err e => exact h
    | stuck => exact h

/-- The body asks nothing of its calls but their results. -/
def Rising (body : (σ → Exec ε β) → σ → Exec ε β) : Prop :=
  ∀ n call call', (∀ s, Under n (call s) (call' s)) → ∀ s, Under n (body call s) (body call' s)

/-- The function with its calls nested no deeper than `n`. -/
def nested (body : (σ → Exec ε β) → σ → Exec ε β) : Nat → σ → Exec ε β
  | 0 => fun _ => diverge
  | n + 1 => body (nested body n)

variable {body : (σ → Exec ε β) → σ → Exec ε β}

theorem nested_under (hb : Rising body) (n k : Nat) (s : σ) :
    Under n (nested body k s) (nested body (k + 1) s) := by
  induction k generalizing s with
  | zero => intro r h; cases h
  | succ k ih => exact hb n _ _ ih s

/-- The function that the body defines. -/
def recursion (body : (σ → Exec ε β) → σ → Exec ε β) (hb : Rising body) (s : σ) : Exec ε β where
  run n := (nested body n s).run n
  mono := fun {n _} h => nested_under hb (n + 1) n s _ ((nested body n s).mono h)

variable {hb : Rising body} {s : σ} {r : Out ε β}

/-- A call has the results of the body. -/
theorem ends_recursion :
    (recursion body hb s).Ends r ↔ (body (recursion body hb) s).Ends r := by
  constructor
  · rintro ⟨n, h⟩
    cases n with
    | zero => cases h
    | succ n =>
      have hcall : ∀ t, Under (n + 1) (nested body n t) (recursion body hb t) :=
        fun t r h => nested_under hb (n + 1) n t r h
      exact ⟨n + 1, hb (n + 1) _ _ hcall s r h⟩
  · rintro ⟨n, h⟩
    have hcall : ∀ t, Under n (recursion body hb t) (nested body n t) := fun t r h => h
    exact ⟨n + 1, (nested body (n + 1) s).mono (hb n _ _ hcall s r h)⟩

theorem nested_ends {n : Nat} (h : (nested body n s).Ends r) : (recursion body hb s).Ends r := by
  obtain ⟨k, hk⟩ := h
  have hmax : (nested body n s).run (max n k) = some r := run_le hk (Nat.le_max_right n k)
  have hle : ∀ j, n ≤ j → Under (max n k) (nested body n s) (nested body j s) := by
    intro j hj
    induction hj with
    | refl => exact Under.refl _
    | step _ ih => exact fun r h => nested_under hb _ _ s r (ih r h)
  exact ⟨max n k, hle _ (Nat.le_max_left n k) r hmax⟩

/-- A property that the body hands on from the results of its calls is one of every result. -/
theorem recursion_induct {P : σ → Out ε β → Prop}
    (h : ∀ call : σ → Exec ε β,
      (∀ s r, (call s).Ends r → (recursion body hb s).Ends r ∧ P s r) →
      ∀ s r, (body call s).Ends r → P s r)
    (hr : (recursion body hb s).Ends r) : P s r := by
  have hn : ∀ n s r, (nested body n s).Ends r → P s r := by
    intro n
    induction n with
    | zero => rintro s r ⟨k, hk⟩; cases hk
    | succ n ih => exact h _ fun s r hs => ⟨nested_ends hs, ih s r hs⟩
  obtain ⟨n, hr⟩ := hr
  exact hn n s r ⟨n, hr⟩

end Exec

end LsvmTools.Lib.Loop
