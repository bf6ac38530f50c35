import Mathlib.Data.Multiset.Count

/-! # Ledgers

A ledger records what was acquired and what was released. `Leaves es held` says that nothing
was released that was not held at that time, and that `held` is what is left of it. -/
namespace LsvmTools.Lib.Ledger

variable {α : Type} [DecidableEq α]

inductive Entry (α : Type) where
  | acquired (a : α)
  | released (a : α)
deriving DecidableEq

def acquisitions (a : α) (es : List (Entry α)) : Nat := es.count (.acquired a)

def releases (a : α) (es : List (Entry α)) : Nat := es.count (.released a)

structure Leaves (es : List (Entry α)) (held : Multiset α) : Prop where
  /-- At no time has a value been released more often than acquired. -/
  covered : ∀ pre, pre <+: es → ∀ a, releases a pre ≤ acquisitions a pre
  /-- What was acquired was released or is held. -/
  left : ∀ a, acquisitions a es = releases a es + held.count a

/-- Each acquisition has its release. -/
abbrev Settled (es : List (Entry α)) : Prop := Leaves es 0

@[simp] theorem acquisitions_append (a : α) (es fs : List (Entry α)) :
    acquisitions a (es ++ fs) = acquisitions a es + acquisitions a fs := List.count_append

@[simp] theorem releases_append (a : α) (es fs : List (Entry α)) :
    releases a (es ++ fs) = releases a es + releases a fs := List.count_append

@[simp] theorem acquisitions_acquired (a b : α) :
    acquisitions a [.acquired b] = if b = a then 1 else 0 := by
  simp [acquisitions, List.count_singleton]

@[simp] theorem acquisitions_released (a b : α) : acquisitions a [.released b] = 0 := by
  simp [acquisitions]

@[simp] theorem releases_acquired (a b : α) : releases a [.acquired b] = 0 := by
  simp [releases]

@[simp] theorem releases_released (a b : α) :
    releases a [.released b] = if b = a then 1 else 0 := by
  simp [releases, List.count_singleton]

theorem count_cons (a b : α) (s : Multiset α) :
    (a ::ₘ s).count b = s.count b + if a = b then 1 else 0 := by
  rw [Multiset.count_cons]
  simp only [eq_comm]

variable {es : List (Entry α)} {held : Multiset α} {a : α}

theorem Leaves.nil : Leaves ([] : List (Entry α)) 0 where
  covered pre hpre a := by
    rw [List.prefix_nil.mp hpre]
    exact Nat.le_refl _
  left _ := rfl

/-- Where one more entry is covered, so is the longer ledger. -/
theorem Leaves.covered_snoc {e : Entry α} (h : Leaves es held)
    (hlast : ∀ a, releases a (es ++ [e]) ≤ acquisitions a (es ++ [e])) {pre : List (Entry α)}
    (hpre : pre <+: es ++ [e]) (a : α) : releases a pre ≤ acquisitions a pre := by
  rcases List.prefix_concat_iff.mp hpre with rfl | hpre
  · exact hlast a
  · exact h.covered pre hpre a

theorem Leaves.acquire (h : Leaves es held) (a : α) :
    Leaves (es ++ [.acquired a]) (a ::ₘ held) where
  covered pre hpre b := by
    refine h.covered_snoc (fun c => ?_) hpre b
    have := h.covered es (List.prefix_refl es) c
    simp only [releases_append, releases_acquired, acquisitions_append]
    omega
  left b := by
    have := h.left b
    simp only [releases_append, releases_acquired, acquisitions_append, acquisitions_acquired,
      count_cons]
    omega

theorem Leaves.release (h : Leaves es (a ::ₘ held)) : Leaves (es ++ [.released a]) held where
  covered pre hpre b := by
    refine h.covered_snoc (fun c => ?_) hpre b
    have := h.left c
    rw [count_cons] at this
    simp only [releases_append, releases_released, acquisitions_append, acquisitions_released]
    omega
  left b := by
    have := h.left b
    rw [count_cons] at this
    simp only [releases_append, releases_released, acquisitions_append, acquisitions_released]
    omega

/-- A release of what was never acquired is not covered. -/
theorem Leaves.released_acquired (h : Leaves es held) (ha : .released a ∈ es) :
    .acquired a ∈ es := by
  have hle := h.covered es (List.prefix_refl es) a
  have hpos : 0 < releases a es := List.count_pos_iff.mpr ha
  exact List.count_pos_iff.mp (Nat.lt_of_lt_of_le hpos hle)

end LsvmTools.Lib.Ledger
