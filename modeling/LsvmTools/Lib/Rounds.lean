import LsvmTools.Lib.Loop
import LsvmTools.Lib.Precondition
import Mathlib.Logic.Relation

/-! # The states that a loop comes to

A loop whose rounds have no loops of their own is a walk along the states that its rounds
lead to. Such a loop is sound where each state it comes to either is good or is refused with
an error; where good states become smaller, that is a matter of the single rounds. -/
namespace LsvmTools.Lib.Rounds
open Program Loop Precondition

variable {ε σ β : Type}

def Next (round : σ → Out ε (Step σ β)) (s t : σ) : Prop := round s = .ok (.next t)

abbrev Comes (round : σ → Out ε (Step σ β)) : σ → σ → Prop := Relation.ReflTransGen (Next round)

abbrev loop (round : σ → Out ε (Step σ β)) (s : σ) : Exec ε β :=
  Exec.loop (fun s => .of (round s)) s

/-- The loop ends, each of its rounds has a result, and what is not good is refused. -/
structure Sound (round : σ → Out ε (Step σ β)) (good : σ → Prop) (s : σ) : Prop where
  terminates : (loop round s).Terminates
  returns : ¬ (loop round s).Ends .stuck
  refuses : ∀ t, Comes round s t → ¬ good t → ∃ e, round t = .err e

/-- It ends, and has a result. -/
structure Safe (m : Exec ε β) : Prop where
  terminates : m.Terminates
  returns : ¬ m.Ends .stuck

section Rules

variable {round : σ → Out ε (Step σ β)} {good : σ → Prop} {s t : σ} {r : Out ε β}

theorem ends_of_comes (h : Comes round s t) : (loop round s).Ends r ↔ (loop round t).Ends r := by
  induction h with
  | refl => rfl
  | tail _ hnext ih => exact ih.trans (Exec.loop_next (Exec.ends_of.mpr hnext.symm))

/-- A loop has no result only where one of its rounds has none. -/
theorem comes_of_stuck (h : (loop round s).Ends .stuck) :
    ∃ t, Comes round s t ∧ round t = .stuck := by
  obtain ⟨n, hn⟩ := h
  change Exec.rounds (fun s => .of (round s)) n s = _ at hn
  induction n generalizing s with
  | zero => cases hn
  | succ n ih =>
    change Exec.andThen (some (round s)) _ = _ at hn
    cases hs : round s with
    | ok a =>
      rw [hs] at hn
      cases a with
      | next u =>
        obtain ⟨t, ht, hstuck⟩ := ih hn
        exact ⟨t, .head hs ht, hstuck⟩
      | done b => cases hn
    | err e => rw [hs] at hn; cases hn
    | stuck => exact ⟨s, .refl, hs⟩

/-- A loop delivers what the last of the rounds that it comes to does. -/
theorem ends_ok_iff {b : β} : (loop round s).Ends (.ok b) ↔
    ∃ t, Comes round s t ∧ round t = .ok (.done b) := by
  constructor
  · intro h
    obtain ⟨t, ht, hb⟩ := Exec.loop_ok (Comes round s)
      (fun t u ht hu => ht.tail (Exec.ends_of.mp hu).symm) .refl h
    exact ⟨t, ht, (Exec.ends_of.mp hb).symm⟩
  · rintro ⟨t, ht, hb⟩
    exact (ends_of_comes ht).mpr (Exec.loop_done (Exec.ends_of.mpr hb.symm))

/-- A loop is sound exactly where each state that it comes to is good or refused. -/
theorem sound_iff (size : σ → Nat)
    (hsize : ∀ t u, good t → Next round t u → size u < size t) :
    Sound round good s ↔ ∀ t, Comes round s t → Meets (round t) fun _ => good t := by
  constructor
  · intro h t ht
    refine ⟨fun hs => ?_, fun a ha => ?_⟩
    · exact h.returns ((ends_of_comes ht).mpr (Exec.loop_stuck (Exec.ends_of.mpr hs.symm)))
    · by_contra hg
      obtain ⟨e, he⟩ := h.refuses t ht hg
      rw [ha] at he
      cases he
  · intro h
    refine ⟨?_, fun hs => ?_, fun t ht hg => ?_⟩
    · refine Exec.loop_terminates (Comes round s) size (fun t _ => Exec.terminates_of _) ?_ .refl
      intro t u ht hu
      have hnext : Next round t u := (Exec.ends_of.mp hu).symm
      exact ⟨ht.tail hnext, hsize t u ((h t ht).ok _ hnext) hnext⟩
    · obtain ⟨t, ht, hstuck⟩ := comes_of_stuck hs
      exact (h t ht).returns hstuck
    · cases hround : round t with
      | ok a => exact absurd ((h t ht).ok a hround) hg
      | err e => exact ⟨e, rfl⟩
      | stuck => exact absurd hround (h t ht).returns

/-- A loop that goes on to smaller states is safe exactly where each of its rounds returns. -/
theorem safe_loop_iff (size : σ → Nat) (hsize : ∀ t u, Next round t u → size u < size t) :
    Safe (loop round s) ↔ ∀ t, Comes round s t → round t ≠ .stuck := by
  have hsound : Safe (loop round s) ↔ Sound round (fun _ => True) s :=
    ⟨fun h => ⟨h.terminates, h.returns, fun _ _ hg => absurd trivial hg⟩,
      fun h => ⟨h.terminates, h.returns⟩⟩
  rw [hsound, sound_iff size fun t u _ => hsize t u]
  exact forall₂_congr fun t _ => ⟨fun h => h.returns, fun h => ⟨h, fun _ _ => trivial⟩⟩

/-- Where a round depends on a part of the state only, each round that is come to returns exactly
if each place that the walk along these parts comes to is fine. -/
theorem returns_iff_walk {τ : Type} (pos : σ → τ) {follows : τ → τ → Prop} {fine : τ → Prop}
    (hfine : ∀ t, round t ≠ .stuck ↔ fine (pos t))
    (hnext : ∀ t u, Next round t u → follows (pos t) (pos u))
    (hfollows : ∀ t p, fine (pos t) → follows (pos t) p → ∃ u, Next round t u ∧ pos u = p) :
    (∀ t, Comes round s t → round t ≠ .stuck) ↔
      ∀ p, Relation.ReflTransGen follows (pos s) p → fine p := by
  constructor
  · intro h p hwalk
    have hcomes : ∃ t, Comes round s t ∧ pos t = p := by
      induction hwalk with
      | refl => exact ⟨s, .refl, rfl⟩
      | tail _ hstep ih =>
        obtain ⟨t, ht, rfl⟩ := ih
        obtain ⟨u, hu, hpos⟩ := hfollows t _ ((hfine t).mp (h t ht)) hstep
        exact ⟨u, ht.tail hu, hpos⟩
    obtain ⟨t, ht, rfl⟩ := hcomes
    exact (hfine t).mp (h t ht)
  · intro h t ht
    exact (hfine t).mpr (h _ (ht.lift pos hnext))

end Rules

section Safe

variable {α : Type} {m : Out ε α} {k : α → Exec ε β}

theorem safe_of : Safe (.of m : Exec ε α) ↔ m ≠ .stuck :=
  ⟨fun h hs => h.returns (Exec.ends_of.mpr hs.symm),
    fun h => ⟨Exec.terminates_of m, fun hs => h (Exec.ends_of.mp hs).symm⟩⟩

theorem safe_of_bind : Safe (.of m >>= k) ↔ Meets m fun a => Safe (k a) := by
  cases m with
  | ok a =>
    have h : ∀ r, (Exec.of (.ok a) >>= k).Ends r ↔ (k a).Ends r := fun r => Exec.of_bind
    rw [meets_ok]
    exact ⟨fun hs => ⟨hs.terminates.imp fun r => (h r).mp, fun he => hs.returns ((h _).mpr he)⟩,
      fun hs => ⟨hs.terminates.imp fun r => (h r).mpr, fun he => hs.returns ((h _).mp he)⟩⟩
  | err e =>
    have h : ∀ r, (Exec.of (.err e) >>= k).Ends r ↔ r = .err e := fun r => Exec.of_bind
    exact iff_of_true ⟨⟨_, (h _).mpr rfl⟩, fun he => by cases (h _).mp he⟩ (meets_err.mpr trivial)
  | stuck =>
    have h : ∀ r, (Exec.of .stuck >>= k).Ends r ↔ r = .stuck := fun r => Exec.of_bind
    exact iff_of_false (fun hs => hs.returns ((h _).mpr rfl)) fun hs => hs.returns rfl

/-- What has no demands can follow. -/
theorem safe_bind_of {m : Exec ε α} {k : α → Out ε β} (hk : ∀ a, k a ≠ .stuck) :
    Safe (m >>= fun a => .of (k a)) ↔ Safe m := by
  constructor
  · intro h
    obtain ⟨r, hr⟩ := h.terminates
    refine ⟨?_, fun hs => h.returns (hs.bind_stuck _)⟩
    rcases Exec.ends_bind.mp hr with ⟨a, ha, -⟩ | ⟨e, he, -⟩ | ⟨hs, -⟩
    · exact ⟨_, ha⟩
    · exact ⟨_, he⟩
    · exact ⟨_, hs⟩
  · intro h
    refine ⟨h.terminates.bind fun a _ => Exec.terminates_of _, fun hs => ?_⟩
    rcases Exec.ends_bind.mp hs with ⟨a, -, ha⟩ | ⟨e, -, he⟩ | ⟨he, -⟩
    · exact hk a (Exec.ends_of.mp ha).symm
    · cases he
    · exact h.returns he

end Safe

/-! ## Loops that stall -/

section Stall

variable {ε σ β : Type} {round : σ → Out ε (Step σ β)} {size : σ → Nat} {s t : σ}

/-- From the state on the loop goes on without end, and the measure stays where it is. -/
def Stalls (round : σ → Out ε (Step σ β)) (size : σ → Nat) (t : σ) : Prop :=
  ∃ run : Nat → σ, run 0 = t ∧
    ∀ k, Next round (run k) (run (k + 1)) ∧ size (run (k + 1)) = size t

theorem Stalls.not_terminates (h : Stalls round size t) : ¬ (loop round t).Terminates := by
  obtain ⟨run, rfl, hrun⟩ := h
  refine Exec.not_terminates (fun u => ∃ k, run k = u) ?_ ⟨0, rfl⟩
  rintro u ⟨k, rfl⟩
  exact ⟨run (k + 1), Exec.ends_of.mpr (hrun k).1.symm, k + 1, rfl⟩

variable (round) in
/-- A loop that has not ended has a next state, from which it does not end either. -/
theorem exists_next (h : ¬ (loop round s).Terminates) :
    ∃ t, Next round s t ∧ ¬ (loop round t).Terminates := by
  cases hs : round s with
  | ok a =>
    cases a with
    | next t =>
      refine ⟨t, hs, fun ⟨r, hr⟩ => h ⟨r, ?_⟩⟩
      exact (Exec.loop_next (Exec.ends_of.mpr hs.symm)).mpr hr
    | done b => exact absurd ⟨_, Exec.loop_done (Exec.ends_of.mpr hs.symm)⟩ h
  | err e => exact absurd ⟨_, Exec.loop_err (Exec.ends_of.mpr hs.symm)⟩ h
  | stuck => exact absurd ⟨_, Exec.loop_stuck (Exec.ends_of.mpr hs.symm)⟩ h

/-- A loop whose measure does not grow ends unless it comes to where it stalls. -/
theorem terminates_iff_not_stalls (hsize : ∀ t u, Next round t u → size u ≤ size t) :
    (loop round s).Terminates ↔ ¬ ∃ t, Comes round s t ∧ Stalls round size t := by
  constructor
  · rintro ⟨r, hr⟩ ⟨t, ht, hstall⟩
    exact hstall.not_terminates ⟨r, (ends_of_comes ht).mp hr⟩
  · intro hno
    induction hn : size s using Nat.strong_induction_on generalizing s with
    | _ n ih =>
      by_contra hs
      choose! follow hnext hgoes using fun s => exists_next round (s := s)
      have hrun : ∀ k, ¬ (loop round (follow^[k] s)).Terminates ∧ Comes round s (follow^[k] s) := by
        intro k
        induction k with
        | zero => exact ⟨hs, .refl⟩
        | succ k ihk =>
          rw [Function.iterate_succ_apply']
          exact ⟨hgoes _ ihk.1, ihk.2.tail (hnext _ ihk.1)⟩
      have hle : ∀ k, size (follow^[k] s) ≤ size s := by
        intro k
        induction k with
        | zero => exact Nat.le_refl _
        | succ k ihk =>
          rw [Function.iterate_succ_apply']
          exact Nat.le_trans (hsize _ _ (hnext _ (hrun k).1)) ihk
      -- where the measure has come down the loop ends
      have hstays : ∀ k, size (follow^[k] s) = size s := by
        intro k
        by_contra hne
        refine (hrun k).1 (ih _ ?_ (fun ⟨t, ht, hstall⟩ => hno ⟨t, (hrun k).2.trans ht, hstall⟩) rfl)
        have hk := hle k
        omega
      refine hno ⟨s, .refl, fun k => follow^[k] s, rfl, fun k => ⟨?_, hstays _⟩⟩
      dsimp only
      rw [Function.iterate_succ_apply']
      exact hnext _ (hrun k).1

end Stall
end LsvmTools.Lib.Rounds
