import LsvmTools.Lib.Program

/-! # Weakest preconditions

`Meets m Q`: `m` has a result, and where the result is a value, that satisfies `Q`. The rules
are exact, so that what they compute for a program with demands is not only enough for the
demands to hold but needed. `Checked m m'`: where it has a result, `m` delivers what `m'`
does, so that `m` may be `m'` with demands. -/
namespace LsvmTools.Lib.Precondition
open Program

variable {ε α β : Type}

structure Meets (m : Out ε α) (Q : α → Prop) : Prop where
  returns : m ≠ .stuck
  ok : ∀ a, m = .ok a → Q a

def Checked (m m' : Out ε α) : Prop := m ≠ .stuck → m' = m

/-- What has to hold for there to be a result. -/
def demand (p : Prop) [Decidable p] : Out ε Unit := if p then .ok () else .stuck

section Meets

variable {m m' : Out ε α} {k : α → Out ε β} {Q : α → Prop} {R : β → Prop} {p : Prop}

theorem meets_ok {a : α} : Meets (.ok a : Out ε α) Q ↔ Q a := by
  constructor
  · intro h
    exact h.ok a rfl
  · intro h
    refine ⟨fun hs => (by cases hs), fun a' ha => ?_⟩
    cases ha
    exact h

theorem meets_pure {a : α} : Meets (pure a : Out ε α) Q ↔ Q a := meets_ok

theorem meets_err {e : ε} : Meets (.err e : Out ε α) Q ↔ True :=
  iff_true_intro ⟨fun h => (by cases h), fun _ h => (by cases h)⟩

theorem meets_stuck : Meets (.stuck : Out ε α) Q ↔ False :=
  iff_false_intro fun h => h.returns rfl

theorem meets_bind : Meets (m >>= k) R ↔ Meets m fun a => Meets (k a) R := by
  cases m with
  | ok a => rw [Out.ok_bind, meets_ok]
  | err e => rw [Out.err_bind, meets_err, meets_err]
  | stuck => rw [Out.stuck_bind, meets_stuck, meets_stuck]

theorem meets_ite [Decidable p] :
    Meets (if p then m else m') Q ↔ (p → Meets m Q) ∧ (¬ p → Meets m' Q) := by
  by_cases hp : p <;> simp [hp]

theorem meets_demand [Decidable p] {Q : Unit → Prop} :
    Meets (demand p : Out ε Unit) Q ↔ p ∧ Q () := by
  unfold demand
  by_cases hp : p
  · rw [if_pos hp, meets_ok]
    exact (and_iff_right hp).symm
  · rw [if_neg hp, meets_stuck]
    exact (iff_false_intro fun h => hp h.1).symm

theorem Meets.mono {Q' : α → Prop} (h : Meets m Q) (hq : ∀ a, Q a → Q' a) : Meets m Q' :=
  ⟨h.returns, fun a ha => hq a (h.ok a ha)⟩

theorem meets_true : Meets m (fun _ => True) ↔ m ≠ .stuck :=
  ⟨fun h => h.returns, fun h => ⟨h, fun _ _ => trivial⟩⟩

/-- What returns, and is not refused, delivers. -/
theorem ok_of_meets (h : Meets m Q) (hno : ¬ Meets m fun _ => False) : ∃ a, m = .ok a ∧ Q a := by
  cases m with
  | ok a => exact ⟨a, rfl, h.ok a rfl⟩
  | err e => exact absurd (meets_err.mpr trivial) hno
  | stuck => exact absurd rfl h.returns

end Meets

theorem bind_assoc {γ : Type} {m : Out ε α} {k : α → Out ε β} {l : β → Out ε γ} :
    (m >>= k) >>= l = m >>= fun a => k a >>= l := by
  cases m <;> rfl

section Checked

variable {m m' : Out ε α} {k k' : α → Out ε β} {p : Prop}

theorem Checked.refl (m : Out ε α) : Checked m m := fun _ => rfl

theorem Checked.stuck (m : Out ε α) : Checked .stuck m := fun h => absurd rfl h

theorem Checked.bind (hm : Checked m m') (hk : ∀ a, Checked (k a) (k' a)) :
    Checked (m >>= k) (m' >>= k') := by
  intro h
  cases m with
  | ok a =>
    rw [hm (fun hs => by cases hs)]
    exact hk a h
  | err e =>
    rw [hm (fun hs => by cases hs)]
    rfl
  | stuck => exact absurd rfl h

theorem Checked.demand [Decidable p] {k : Unit → Out ε α} (h : Checked (k ()) m) :
    Checked (demand p >>= k) m := by
  unfold Precondition.demand
  split
  · exact h
  · exact .stuck m

theorem Checked.ite [Decidable p] {n n' : Out ε α} (h : Checked m m') (h' : Checked n n') :
    Checked (if p then m else n) (if p then m' else n') := by
  split
  · exact h
  · exact h'

end Checked

end LsvmTools.Lib.Precondition
