import LsvmTools.Lib.Program

/-! # Loops that need not end

A computation with loops is what it delivers within a number of rounds. More rounds
never change what is delivered, so the computation has at most one result; it has
none where some loop does not end. -/
namespace LsvmTools.Lib.Loop
open Lib.Program

structure Exec (ε α : Type) where
  run : Nat → Option (Out ε α)
  mono : ∀ {n r}, run n = some r → run (n + 1) = some r

/-- What a round of a loop leads to. -/
inductive Step (σ ρ : Type) where
  | next (s : σ)
  | done (r : ρ)
deriving DecidableEq

variable {ε α β σ : Type}

namespace Exec

/-- The computation ends with the result `r`. -/
def Ends (m : Exec ε α) (r : Out ε α) : Prop := ∃ n, m.run n = some r

def Terminates (m : Exec ε α) : Prop := ∃ r, m.Ends r

theorem run_le {m : Exec ε α} {r : Out ε α} {n k : Nat} (h : m.run n = some r) (hk : n ≤ k) :
    m.run k = some r := by
  induction hk with
  | refl => exact h
  | step _ ih => exact m.mono ih

theorem Ends.unique {m : Exec ε α} {r r' : Out ε α} (h : m.Ends r) (h' : m.Ends r') : r = r' := by
  obtain ⟨n, hn⟩ := h
  obtain ⟨k, hk⟩ := h'
  have h1 := run_le hn (Nat.le_max_left n k)
  rw [run_le hk (Nat.le_max_right n k)] at h1
  exact (Option.some.inj h1).symm

/-! ## Sequences -/

def andThen (x : Option (Out ε α)) (k : α → Option (Out ε β)) : Option (Out ε β) :=
  match x with
  | none => none
  | some (.ok a) => k a
  | some (.err e) => some (.err e)
  | some .stuck => some .stuck

/-- A computation without loops. -/
def of (r : Out ε α) : Exec ε α := ⟨fun _ => some r, id⟩

def bind (m : Exec ε α) (k : α → Exec ε β) : Exec ε β where
  run n := andThen (m.run n) fun a => (k a).run n
  mono := by
    intro n r h
    cases hm : m.run n with
    | none => rw [hm] at h; cases h
    | some x =>
      rw [hm] at h
      rw [m.mono hm]
      cases x with
      | ok a => exact (k a).mono h
      | err e => exact h
      | stuck => exact h

instance : Monad (Exec ε) where
  pure a := of (.ok a)
  bind := bind

instance : MonadLift (Out ε) (Exec ε) := ⟨of⟩

def throw (e : ε) : Exec ε α := of (.err e)

/-- The result, or none where there is an error. -/
def attempt (m : Exec ε α) : Exec β (Option α) where
  run n := (m.run n).map fun
    | .ok a => .ok (some a)
    | .err _ => .ok none
    | .stuck => .stuck
  mono := by
    intro n r h
    obtain ⟨x, hx, rfl⟩ := Option.map_eq_some_iff.mp h
    rw [m.mono hx]
    rfl

theorem ends_of {x r : Out ε α} : (of x).Ends r ↔ r = x :=
  ⟨fun ⟨_, h⟩ => (Option.some.inj h).symm, fun h => ⟨0, congrArg some h.symm⟩⟩

theorem ends_pure {a : α} {r : Out ε α} : (pure a : Exec ε α).Ends r ↔ r = .ok a := ends_of

theorem Ends.bind {m : Exec ε α} {k : α → Exec ε β} {a : α} {r : Out ε β} (h : m.Ends (.ok a))
    (hk : (k a).Ends r) : (m >>= k).Ends r := by
  obtain ⟨n, hn⟩ := h
  obtain ⟨j, hj⟩ := hk
  refine ⟨max n j, ?_⟩
  show andThen (m.run (max n j)) (fun a => (k a).run (max n j)) = some r
  rw [run_le hn (Nat.le_max_left n j)]
  exact run_le hj (Nat.le_max_right n j)

theorem Ends.bind_err {m : Exec ε α} {e : ε} (h : m.Ends (.err e)) (k : α → Exec ε β) :
    (m >>= k).Ends (.err e) := by
  obtain ⟨n, hn⟩ := h
  exact ⟨n, show andThen (m.run n) _ = _ by rw [hn]; rfl⟩

theorem Ends.bind_stuck {m : Exec ε α} (h : m.Ends .stuck) (k : α → Exec ε β) :
    (m >>= k).Ends .stuck := by
  obtain ⟨n, hn⟩ := h
  exact ⟨n, show andThen (m.run n) _ = _ by rw [hn]; rfl⟩

theorem ends_bind {m : Exec ε α} {k : α → Exec ε β} {r : Out ε β} :
    (m >>= k).Ends r ↔ (∃ a, m.Ends (.ok a) ∧ (k a).Ends r) ∨
      (∃ e, m.Ends (.err e) ∧ r = .err e) ∨ (m.Ends .stuck ∧ r = .stuck) := by
  constructor
  · rintro ⟨n, h⟩
    change andThen (m.run n) (fun a => (k a).run n) = some r at h
    cases hm : m.run n with
    | none => rw [hm] at h; cases h
    | some x =>
      rw [hm] at h
      cases x with
      | ok a => exact .inl ⟨a, ⟨n, hm⟩, n, h⟩
      | err e => exact .inr (.inl ⟨e, ⟨n, hm⟩, (Option.some.inj h).symm⟩)
      | stuck => exact .inr (.inr ⟨⟨n, hm⟩, (Option.some.inj h).symm⟩)
  · rintro (⟨a, h, hk⟩ | ⟨e, h, rfl⟩ | ⟨h, rfl⟩)
    · exact h.bind hk
    · exact h.bind_err k
    · exact h.bind_stuck k

theorem ends_bind_ok {m : Exec ε α} {k : α → Exec ε β} {b : β} :
    (m >>= k).Ends (.ok b) ↔ ∃ a, m.Ends (.ok a) ∧ (k a).Ends (.ok b) := by
  rw [ends_bind]
  simp

theorem of_bind {x : Out ε α} {k : α → Exec ε β} {r : Out ε β} :
    (of x >>= k).Ends r ↔ match x with
      | .ok a => (k a).Ends r
      | .err e => r = .err e
      | .stuck => r = .stuck := by
  rw [ends_bind]
  cases x <;> simp [ends_of]

theorem terminates_of (x : Out ε α) : (of x).Terminates := ⟨x, ends_of.mpr rfl⟩

theorem Terminates.bind {m : Exec ε α} {k : α → Exec ε β} (h : m.Terminates)
    (hk : ∀ a, m.Ends (.ok a) → (k a).Terminates) : (m >>= k).Terminates := by
  obtain ⟨x, hx⟩ := h
  cases x with
  | ok a =>
    obtain ⟨r, hr⟩ := hk a hx
    exact ⟨r, hx.bind hr⟩
  | err e => exact ⟨_, hx.bind_err k⟩
  | stuck => exact ⟨_, hx.bind_stuck k⟩

theorem Ends.attempt {m : Exec ε α} {a : α} (h : m.Ends (.ok a)) :
    (m.attempt : Exec σ (Option α)).Ends (.ok (some a)) := by
  obtain ⟨n, hn⟩ := h
  exact ⟨n, show (m.run n).map _ = _ by rw [hn]; rfl⟩

theorem Ends.attempt_err {m : Exec ε α} {e : ε} (h : m.Ends (.err e)) :
    (m.attempt : Exec σ (Option α)).Ends (.ok none) := by
  obtain ⟨n, hn⟩ := h
  exact ⟨n, show (m.run n).map _ = _ by rw [hn]; rfl⟩

theorem attempt_some {m : Exec ε α} {a : α} :
    (m.attempt : Exec σ (Option α)).Ends (.ok (some a)) ↔ m.Ends (.ok a) := by
  refine ⟨fun ⟨n, hn⟩ => ⟨n, ?_⟩, .attempt⟩
  obtain ⟨x, hx, h⟩ := Option.map_eq_some_iff.mp hn
  cases x with
  | ok b => cases h; exact hx
  | err e => cases h
  | stuck => cases h

/-! ## Loops -/

def rounds (body : σ → Exec ε (Step σ β)) : Nat → σ → Option (Out ε β)
  | 0, _ => none
  | n + 1, s => andThen ((body s).run n) fun
    | .next t => rounds body n t
    | .done b => some (.ok b)

theorem rounds_mono {body : σ → Exec ε (Step σ β)} {n : Nat} {s : σ} {r : Out ε β}
    (h : rounds body n s = some r) : rounds body (n + 1) s = some r := by
  induction n generalizing s with
  | zero => cases h
  | succ n ih =>
    rw [rounds] at h ⊢
    cases hb : (body s).run n with
    | none => rw [hb] at h; cases h
    | some x =>
      rw [hb] at h
      rw [(body s).mono hb]
      cases x with
      | ok a =>
        cases a with
        | next t => exact ih h
        | done b => exact h
      | err e => exact h
      | stuck => exact h

def loop (body : σ → Exec ε (Step σ β)) (s : σ) : Exec ε β :=
  ⟨fun n => rounds body n s, rounds_mono⟩

variable {body : σ → Exec ε (Step σ β)} {s t : σ} {r : Out ε β} {b : β}

/-- A loop is a round and then the rest of the loop. -/
theorem ends_loop : (loop body s).Ends r ↔ (body s >>= fun
    | .next t => loop body t
    | .done b => pure b).Ends r := by
  constructor
  · rintro ⟨n, h⟩
    cases n with
    | zero => cases h
    | succ n =>
      change andThen ((body s).run n) _ = some r at h
      refine ⟨n, ?_⟩
      change andThen ((body s).run n) _ = some r
      rw [← h]
      cases (body s).run n with
      | none => rfl
      | some x =>
        cases x with
        | ok a => cases a <;> rfl
        | err e => rfl
        | stuck => rfl
  · rintro ⟨n, h⟩
    refine ⟨n + 1, ?_⟩
    change andThen ((body s).run n) _ = some r at h
    change andThen ((body s).run n) _ = some r
    rw [← h]
    cases (body s).run n with
    | none => rfl
    | some x =>
      cases x with
      | ok a => cases a <;> rfl
      | err e => rfl
      | stuck => rfl

theorem loop_next (hb : (body s).Ends (.ok (.next t))) :
    (loop body s).Ends r ↔ (loop body t).Ends r := by
  rw [ends_loop]
  constructor
  · intro h
    rcases ends_bind.mp h with ⟨a, ha, hr⟩ | ⟨e, he, -⟩ | ⟨he, -⟩
    · cases ha.unique hb; exact hr
    · cases he.unique hb
    · cases he.unique hb
  · exact fun h => hb.bind h

theorem loop_done (hb : (body s).Ends (.ok (.done b))) : (loop body s).Ends (.ok b) :=
  ends_loop.mpr (hb.bind (ends_pure.mpr rfl))

theorem loop_err {e : ε} (hb : (body s).Ends (.err e)) : (loop body s).Ends (.err e) :=
  ends_loop.mpr (hb.bind_err _)

theorem loop_stuck (hb : (body s).Ends .stuck) : (loop body s).Ends .stuck :=
  ends_loop.mpr (hb.bind_stuck _)

/-- A loop ends where each round does and brings a measure down. -/
theorem loop_terminates (I : σ → Prop) (size : σ → Nat)
    (hround : ∀ s, I s → (body s).Terminates)
    (hnext : ∀ s t, I s → (body s).Ends (.ok (.next t)) → I t ∧ size t < size s) (hs : I s) :
    (loop body s).Terminates := by
  induction hn : size s using Nat.strong_induction_on generalizing s with
  | _ n ih =>
    obtain ⟨x, hx⟩ := hround s hs
    cases x with
    | ok a =>
      cases a with
      | next t =>
        obtain ⟨ht, hlt⟩ := hnext s t hs hx
        obtain ⟨r, hr⟩ := ih (size t) (hn ▸ hlt) ht rfl
        exact ⟨r, (loop_next hx).mpr hr⟩
      | done b => exact ⟨_, loop_done hx⟩
    | err e => exact ⟨_, loop_err hx⟩
    | stuck => exact ⟨_, loop_stuck hx⟩

/-- What each round keeps holds in the round that ends the loop. -/
theorem loop_ok (I : σ → Prop) (hnext : ∀ s t, I s → (body s).Ends (.ok (.next t)) → I t)
    (hs : I s) (h : (loop body s).Ends (.ok b)) : ∃ t, I t ∧ (body t).Ends (.ok (.done b)) := by
  obtain ⟨n, hn⟩ := h
  change rounds body n s = _ at hn
  induction n generalizing s with
  | zero => cases hn
  | succ n ih =>
    rw [rounds] at hn
    cases hb : (body s).run n with
    | none => rw [hb] at hn; cases hn
    | some x =>
      rw [hb] at hn
      cases x with
      | ok a =>
        cases a with
        | next t => exact ih (hnext s t hs ⟨n, hb⟩) hn
        | done c => cases hn; exact ⟨s, hs, n, hb⟩
      | err e => cases hn
      | stuck => cases hn

/-- A loop that comes back to states of one kind does not end. -/
theorem not_terminates (I : σ → Prop)
    (hround : ∀ s, I s → ∃ t, (body s).Ends (.ok (.next t)) ∧ I t) (hs : I s) :
    ¬ (loop body s).Terminates := by
  rintro ⟨r, n, hn⟩
  change rounds body n s = _ at hn
  induction n generalizing s with
  | zero => cases hn
  | succ n ih =>
    obtain ⟨t, ht, hI⟩ := hround s hs
    rw [rounds] at hn
    cases hb : (body s).run n with
    | none => rw [hb] at hn; cases hn
    | some x =>
      have hx : (body s).Ends x := ⟨n, hb⟩
      rw [hx.unique ht] at hb
      rw [hb] at hn
      exact ih hI hn

end Exec

end LsvmTools.Lib.Loop
