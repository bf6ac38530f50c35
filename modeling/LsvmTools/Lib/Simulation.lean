import Mathlib

/-! # Calls one after another

A system answers calls and changes its state. Its specification is a function that says what a
call returns and what it leads to. Where each call keeps a relation between the two, a run of
calls does, whatever the calls are. -/
namespace LsvmTools.Lib.Simulation

variable {σ τ κ ρ : Type} {step : κ → σ → ρ → σ → Prop} {apply : κ → τ → ρ × τ}

/-- The calls in order, with what each one returns. -/
inductive Runs (step : κ → σ → ρ → σ → Prop) : List κ → σ → List ρ → σ → Prop
  | nil {s : σ} : Runs step [] s [] s
  | cons {k : κ} {ks : List κ} {s s' u : σ} {r : ρ} {rs : List ρ} (h : step k s r s')
      (rest : Runs step ks s' rs u) : Runs step (k :: ks) s (r :: rs) u

section Specification

variable (apply)

/-- What the calls return. -/
def replies : List κ → τ → List ρ
  | [], _ => []
  | k :: ks, t => (apply k t).1 :: replies ks (apply k t).2

/-- What the calls lead to. -/
def after : List κ → τ → τ
  | [], t => t
  | k :: ks, t => after ks (apply k t).2

/-- Every call may be made where it is made. -/
def Allowed (may : κ → τ → Prop) : List κ → τ → Prop
  | [], _ => True
  | k :: ks, t => may k t ∧ Allowed may ks (apply k t).2

end Specification

/-- A call returns one thing and leads to one state. -/
def Functional (step : κ → σ → ρ → σ → Prop) : Prop :=
  ∀ ⦃k : κ⦄ ⦃s s' u : σ⦄ ⦃r r' : ρ⦄, step k s r s' → step k s r' u → r = r' ∧ s' = u

/-- A call that may be made does what the specification says. -/
def Simulates (step : κ → σ → ρ → σ → Prop) (apply : κ → τ → ρ × τ) (may : κ → τ → Prop)
    (R : σ → τ → Prop) : Prop :=
  ∀ ⦃k : κ⦄ ⦃s : σ⦄ ⦃t : τ⦄, R s t → may k t → ∃ s', step k s (apply k t).1 s' ∧ R s' (apply k t).2

/-- The same where a call costs something and no more than `limit` may be spent. -/
def SimulatesWithin (step : κ → σ → ρ → σ → Prop) (apply : κ → τ → ρ × τ) (proper : κ → Prop)
    (cost : κ → Nat) (limit : Nat) (R : Nat → σ → τ → Prop) : Prop :=
  ∀ ⦃k : κ⦄ ⦃s : σ⦄ ⦃t : τ⦄ ⦃n : Nat⦄, R n s t → proper k → n + cost k ≤ limit →
    ∃ s', step k s (apply k t).1 s' ∧ R (n + cost k) s' (apply k t).2

section Runs

variable {may : κ → τ → Prop} {proper : κ → Prop} {cost : κ → Nat} {limit n : Nat}
  {R : σ → τ → Prop} {S : Nat → σ → τ → Prop} {ks : List κ} {s u v : σ} {t : τ} {rs rs' : List ρ}

theorem Simulates.runs (h : Simulates step apply may R) (hr : R s t)
    (hallowed : Allowed apply may ks t) :
    ∃ s', Runs step ks s (replies apply ks t) s' ∧ R s' (after apply ks t) := by
  induction ks generalizing s t with
  | nil => exact ⟨s, .nil, hr⟩
  | cons k ks ih =>
    obtain ⟨hmay, hrest⟩ := hallowed
    obtain ⟨s', hstep, hr'⟩ := h hr hmay
    obtain ⟨u, hruns, hu⟩ := ih hr' hrest
    exact ⟨u, .cons hstep hruns, hu⟩

theorem SimulatesWithin.runs (h : SimulatesWithin step apply proper cost limit S) (hr : S n s t)
    (hproper : ∀ k ∈ ks, proper k) (hlimit : n + (ks.map cost).sum ≤ limit) :
    ∃ s', Runs step ks s (replies apply ks t) s' ∧
      S (n + (ks.map cost).sum) s' (after apply ks t) := by
  induction ks generalizing n s t with
  | nil => exact ⟨s, .nil, hr⟩
  | cons k ks ih =>
    rw [List.map_cons, List.sum_cons, ← Nat.add_assoc] at hlimit ⊢
    obtain ⟨s', hstep, hr'⟩ := h hr (hproper k List.mem_cons_self) (by omega)
    obtain ⟨u, hruns, hu⟩ := ih hr' (fun k hk => hproper k (List.mem_cons_of_mem _ hk)) hlimit
    exact ⟨u, .cons hstep hruns, hu⟩

/-- There is one run only. -/
theorem Runs.unique (hf : Functional step) (h : Runs step ks s rs u) (h' : Runs step ks s rs' v) :
    rs = rs' ∧ u = v := by
  induction h generalizing rs' v with
  | nil =>
    cases h'
    exact ⟨rfl, rfl⟩
  | cons hstep _ ih =>
    cases h' with
    | cons hstep' hrest' =>
      obtain ⟨rfl, rfl⟩ := hf hstep hstep'
      obtain ⟨rfl, rfl⟩ := ih hrest'
      exact ⟨rfl, rfl⟩

end Runs

end LsvmTools.Lib.Simulation
