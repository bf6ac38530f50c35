import LsvmTools.Lib.Bubble
import LsvmTools.Lib.Program

/-! # Bubble sort in place

The sort compares and exchanges neighbours of an array, each time one element less, until it has
gone through the array without an exchange. What an array is does not matter, as long as its
neighbours are compared and exchanged like those of a list. -/
namespace LsvmTools.Lib.InPlace
open Program Bubble

/-- What is done with the elements `j` and `j + 1` of an array. -/
structure Neighbours (ε M : Type) where
  greater : M → Nat → Out ε Bool
  swap : M → Nat → Out ε M

variable {ε M α : Type}

/-- The inner loop from `j` on, for `n` rounds, with the flag. -/
def sweep (A : Neighbours ε M) : Nat → Nat → M → Bool → Out ε (M × Bool)
  | 0, _, m, swapped => .ok (m, swapped)
  | n + 1, j, m, swapped => do
    let greater ← A.greater m j
    if greater then do
      let m ← A.swap m j
      sweep A n (j + 1) m true
    else sweep A n (j + 1) m swapped

/-- The outer loop, for so many rounds at most. -/
def sortRounds (A : Neighbours ε M) : Nat → Nat → M → Out ε M
  | 0, _, m => .ok m
  | rounds + 1, n, m => do
    let (m, swapped) ← sweep A n 0 m false
    if swapped then sortRounds A rounds (n - 1) m else pure m

/-! ## Arrays that are lists -/

/-- Neighbours are those of the list that the array holds. -/
structure Lawful (A : Neighbours ε M) (gt : α → α → Bool) (holds : M → List α → Prop) : Prop where
  greater : ∀ {m pre a b post}, holds m (pre ++ a :: b :: post) →
    A.greater m pre.length = .ok (gt a b)
  swap : ∀ {m pre a b post}, holds m (pre ++ a :: b :: post) →
    ∃ m', A.swap m pre.length = .ok m' ∧ holds m' (pre ++ b :: a :: post)

section Spec

variable {A : Neighbours ε M} {gt : α → α → Bool} {holds : M → List α → Prop} {m : M}
  {le : α → α → Prop}

/-- The inner loop carries the greatest element to the end; where nothing is exchanged there was
nothing to do. -/
theorem sweep_spec (h : Lawful A gt holds) (pre : List α) {x : α} {l post : List α} {s : Bool}
    (hm : holds m (pre ++ x :: l ++ post)) :
    ∃ m' s', sweep A l.length pre.length m s = .ok (m', s') ∧
      holds m' (pre ++ carry gt x l ++ post) ∧
      (s' = false → s = false ∧ (x :: l).IsChain fun a b => gt a b = false) := by
  induction l generalizing pre x m s with
  | nil => exact ⟨m, s, rfl, hm, fun hs => ⟨hs, .singleton x⟩⟩
  | cons y l ih =>
    have hm' : holds m (pre ++ x :: y :: (l ++ post)) := by
      rwa [List.append_assoc] at hm
    have hlen : ∀ z : α, (pre ++ [z]).length = pre.length + 1 := fun z => List.length_append
    rw [List.length_cons, sweep, h.greater hm', Out.ok_bind, carry]
    cases hg : gt x y with
    | true =>
      obtain ⟨m₁, hswap, hm₁⟩ := h.swap hm'
      have hnext : holds m₁ (pre ++ [y] ++ x :: l ++ post) := by
        simpa using hm₁
      obtain ⟨m', s', hrun, hm', hs⟩ := ih _ (s := true) hnext
      rw [if_pos rfl, hswap, Out.ok_bind, ← hlen y, if_pos rfl]
      refine ⟨m', s', hrun, by simpa using hm', fun hf => ?_⟩
      cases (hs hf).1
    | false =>
      have hnext : holds m (pre ++ [x] ++ y :: l ++ post) := by
        simpa using hm'
      obtain ⟨m', s', hrun, hm', hs⟩ := ih _ (s := s) hnext
      rw [if_neg Bool.false_ne_true, ← hlen x, if_neg Bool.false_ne_true]
      refine ⟨m', s', hrun, by simpa using hm', fun hf => ?_⟩
      exact ⟨(hs hf).1, List.isChain_cons_cons.mpr ⟨hg, (hs hf).2⟩⟩

variable [DecidableRel le]

/-- The outer loop, with elements in their places behind the ones to be sorted. -/
theorem sortRounds_spec (h : Lawful A gt holds) (hle : TotalPreorder le)
    (hgt : ∀ a b, gt a b = true ↔ ¬ le a b) (front back : List α) {n : Nat}
    (hlen : front.length = n + 1) (hback : back.Pairwise le)
    (hfb : ∀ a ∈ front, ∀ b ∈ back, le a b) (hm : holds m (front ++ back)) :
    ∃ m' sorted, sortRounds A n n m = .ok m' ∧ holds m' sorted ∧
      StableSort le (front ++ back) sorted := by
  induction n generalizing front back m with
  | zero =>
    obtain ⟨a, rfl⟩ := List.length_eq_one_iff.mp hlen
    refine ⟨m, _, rfl, hm, .refl _, ?_, fun c => rfl⟩
    exact List.pairwise_cons.mpr ⟨hfb a (List.mem_singleton.mpr rfl), hback⟩
  | succ n ih =>
    obtain ⟨x, l, rfl⟩ : ∃ x l, front = x :: l :=
      List.exists_cons_of_ne_nil (List.ne_nil_of_length_pos (by omega))
    have hl : l.length = n + 1 := Nat.succ.inj hlen
    obtain ⟨m₁, s, hsweep, hm₁, hs⟩ := sweep_spec h [] (s := false) hm
    rw [hl, List.length_nil] at hsweep
    rw [sortRounds, hsweep, Out.ok_bind]
    dsimp only
    cases s with
    | false =>
      -- nothing has been exchanged: the elements are in order
      have hchain := (hs rfl).2
      have hsorted := ascending_of_chain hle (fun a _ b _ => hgt a b) hchain
      rw [List.nil_append, carry_of_chain hchain] at hm₁
      refine ⟨m₁, _, rfl, hm₁, .refl _, ?_, fun c => rfl⟩
      exact List.pairwise_append.mpr ⟨hsorted, hback, hfb⟩
    | true =>
      obtain ⟨f, y, hperm, hmax, hcarry⟩ := carry_append (l := l) hle fun a _ b _ => hgt a b
      have hc : carry gt x l = f ++ [y] := by
        have hnil := hcarry []
        rwa [List.append_nil] at hnil
      have hfilter : ∀ c, (carry gt x l).filter (fun a => le a c ∧ le c a) =
          (x :: l).filter fun a => le a c ∧ le c a := by
        refine fun c => carry_filter (fun {a b} ha hb => ?_) x l
        rw [decide_eq_true_eq] at ha hb
        rw [← Bool.not_eq_true, hgt]
        exact not_not.mpr (hle.trans ha.1 hb.2)
      have hflen : f.length = n + 1 := by
        have hplen := hperm.length_eq
        rw [List.length_append, List.length_singleton, List.length_cons, hl] at hplen
        omega
      have hy : y ∈ x :: l := hperm.mem_iff.mp (by simp)
      have hf : ∀ a ∈ f, a ∈ x :: l := fun a ha => hperm.mem_iff.mp (by simp [ha])
      have hm₂ : holds m₁ (f ++ y :: back) := by
        rw [List.nil_append, hc, List.append_assoc] at hm₁
        exact hm₁
      obtain ⟨m', sorted, hrun, hm', hstable⟩ := ih _ _ hflen
        (List.pairwise_cons.mpr ⟨hfb y hy, hback⟩) (fun a ha b hb => by
          rcases List.mem_cons.mp hb with rfl | hb
          · exact hmax a (hf a ha)
          · exact hfb a (hf a ha) b hb) hm₂
      refine ⟨m', sorted, hrun, hm', .trans ?_ (fun c => ?_) hstable⟩
      · rw [List.append_cons]
        exact hperm.append_right back
      · rw [List.append_cons, List.filter_append, ← hc, hfilter, ← List.filter_append]

end Spec

end LsvmTools.Lib.InPlace
