import Mathlib

/-! # Ranges that follow one another

Ranges of integers, put in order, follow one another from `a` to `n` with no gap but
inside a hole exactly where no two of them meet, they stay between `a` and `n`, and
whatever lies there is in one of them or in the hole. -/
namespace LsvmTools.Lib.Ranges

structure Range where
  lo : Int
  hi : Int
deriving DecidableEq

namespace Range

def Has (r : Range) (i : Int) : Prop := r.lo ≤ i ∧ i < r.hi

def Nonempty (r : Range) : Prop := r.lo < r.hi

instance (r : Range) : Decidable r.Nonempty := inferInstanceAs (Decidable (_ < _))

/-- No integer is in both ranges. -/
def Apart (r r' : Range) : Prop := ∀ i, r.Has i → ¬ r'.Has i

theorem Apart.symm {r r' : Range} (h : r.Apart r') : r'.Apart r := fun i h' hi => h i hi h'

theorem apart_iff {r r' : Range} :
    r.Apart r' ↔ r.hi ≤ r'.lo ∨ r'.hi ≤ r.lo ∨ r.hi ≤ r.lo ∨ r'.hi ≤ r'.lo := by
  constructor
  · intro h
    by_contra hne
    exact h (max r.lo r'.lo) ⟨by omega, by omega⟩ ⟨by omega, by omega⟩
  · rintro h i ⟨h1, h2⟩ ⟨h3, h4⟩
    omega

instance (r r' : Range) : Decidable (r.Apart r') := decidable_of_iff _ apart_iff.symm

/-- The first range does not start after the other. -/
def Before (r r' : Range) : Prop := r.lo ≤ r'.lo

instance (r r' : Range) : Decidable (r.Before r') := inferInstanceAs (Decidable (_ ≤ _))

instance : Std.Total Before := ⟨fun r r' => Int.le_total r.lo r'.lo⟩

instance : IsTrans Range Before := ⟨fun _ _ _ h h' => Int.le_trans h h'⟩

end Range

open Range

variable {hole : Range} {a n : Int} {rs rs' : List Range}

/-- There is nothing from `x` to `y` but what is in the hole. -/
def Filled (hole : Range) (x y : Int) : Prop := x = y ∨ x < y ∧ hole.lo ≤ x ∧ y ≤ hole.hi

/-- The ranges follow one another from `a` to `n`. -/
def Follow (hole : Range) : Int → List Range → Int → Prop
  | a, [], n => Filled hole a n
  | a, r :: rs, n => Filled hole a r.lo ∧ Follow hole r.hi rs n

instance (hole : Range) (x y : Int) : Decidable (Filled hole x y) :=
  inferInstanceAs (Decidable (_ ∨ _))

instance (hole : Range) : ∀ (a : Int) (rs : List Range) (n : Int), Decidable (Follow hole a rs n)
  | a, [], n => inferInstanceAs (Decidable (Filled hole a n))
  | a, r :: rs, n =>
    have := instDecidableFollow hole r.hi rs n
    inferInstanceAs (Decidable (Filled hole a r.lo ∧ Follow hole r.hi rs n))

/-- The ranges cover what lies between `a` and `n` and is not in the hole, and no two of
them meet. -/
structure Cover (hole : Range) (a : Int) (rs : List Range) (n : Int) : Prop where
  le : a ≤ n
  inside : ∀ r ∈ rs, a ≤ r.lo ∧ r.hi ≤ n
  apart : rs.Pairwise Apart
  all : ∀ i, a ≤ i → i < n → (∃ r ∈ rs, r.Has i) ∨ hole.Has i

theorem Filled.le {x y : Int} (h : Filled hole x y) : x ≤ y := by
  rcases h with h | h <;> omega

theorem filled_of_all {x y : Int} (hle : x ≤ y) (h : ∀ i, x ≤ i → i < y → hole.Has i) :
    Filled hole x y := by
  rcases Int.le_iff_eq_or_lt.mp hle with rfl | hlt
  · exact .inl rfl
  · obtain ⟨h1, -⟩ := h x (Int.le_refl x) hlt
    obtain ⟨-, h2⟩ := h (y - 1) (by omega) (by omega)
    exact .inr ⟨hlt, h1, by omega⟩

theorem Follow.cover (hne : ∀ r ∈ rs, r.Nonempty) (h : Follow hole a rs n) : Cover hole a rs n := by
  induction rs generalizing a with
  | nil =>
    refine ⟨h.le, fun r hr => (by cases hr), .nil, fun i h1 h2 => ?_⟩
    rcases h with rfl | ⟨-, h3, h4⟩
    · omega
    · exact .inr ⟨by omega, by omega⟩
  | cons r rs ih =>
    obtain ⟨hfill, hrest⟩ := h
    have hc := ih (fun r' hr' => hne r' (List.mem_cons_of_mem _ hr')) hrest
    have hr : r.lo < r.hi := hne r List.mem_cons_self
    have hle := hfill.le
    have hend := hc.le
    refine ⟨by omega, ?_, .cons ?_ hc.apart, ?_⟩
    · intro r' hr'
      rcases List.mem_cons.mp hr' with rfl | hr'
      · exact ⟨hle, hend⟩
      · have := hc.inside r' hr'
        omega
    · intro r' hr'
      have := hc.inside r' hr'
      exact apart_iff.mpr (.inl this.1)
    · intro i h1 h2
      by_cases hlo : i < r.lo
      · rcases hfill with hfill | ⟨-, h3, h4⟩
        · omega
        · exact .inr ⟨by omega, by omega⟩
      · by_cases hhi : i < r.hi
        · exact .inl ⟨r, List.mem_cons_self, by omega, hhi⟩
        · rcases hc.all i (by omega) h2 with ⟨r', hr', hi⟩ | hi
          · exact .inl ⟨r', List.mem_cons_of_mem _ hr', hi⟩
          · exact .inr hi

theorem Cover.follow (hne : ∀ r ∈ rs, r.Nonempty) (hsort : rs.Pairwise Before)
    (h : Cover hole a rs n) : Follow hole a rs n := by
  induction rs generalizing a with
  | nil =>
    refine filled_of_all h.le fun i h1 h2 => ?_
    rcases h.all i h1 h2 with ⟨r, hr, -⟩ | hi
    · cases hr
    · exact hi
  | cons r rs ih =>
    have hr : r.lo < r.hi := hne r List.mem_cons_self
    obtain ⟨h1, h2⟩ := h.inside r List.mem_cons_self
    obtain ⟨hbefore, hsort⟩ := List.pairwise_cons.mp hsort
    obtain ⟨hapart, hrest⟩ := List.pairwise_cons.mp h.apart
    have hnext : ∀ r' ∈ rs, r.hi ≤ r'.lo := by
      intro r' hr'
      have h3 : r'.lo < r'.hi := hne r' (List.mem_cons_of_mem _ hr')
      have h4 : r.lo ≤ r'.lo := hbefore r' hr'
      rcases apart_iff.mp (hapart r' hr') with h5 | h5 | h5 | h5 <;> omega
    refine ⟨filled_of_all h1 fun i h3 h4 => ?_, ih (fun r' hr' => hne r' (List.mem_cons_of_mem _ hr'))
      hsort ⟨h2, fun r' hr' => ⟨hnext r' hr', (h.inside r' (List.mem_cons_of_mem _ hr')).2⟩, hrest,
        fun i h3 h4 => ?_⟩⟩
    · rcases h.all i h3 (by omega) with ⟨r', hr', hi⟩ | hi
      · rcases List.mem_cons.mp hr' with rfl | hr'
        · have := hi.1
          omega
        · have := hnext r' hr'
          have := hi.1
          omega
      · exact hi
    · rcases h.all i (by omega) h4 with ⟨r', hr', hi⟩ | hi
      · rcases List.mem_cons.mp hr' with rfl | hr'
        · have := hi.2
          omega
        · exact .inl ⟨r', hr', hi⟩
      · exact .inr hi

theorem Cover.perm (hp : rs.Perm rs') (h : Cover hole a rs n) : Cover hole a rs' n where
  le := h.le
  inside := fun r hr => h.inside r (hp.mem_iff.mpr hr)
  apart := (hp.pairwise_iff Apart.symm).mp h.apart
  all := fun i h1 h2 => (h.all i h1 h2).imp_left fun ⟨r, hr, hi⟩ => ⟨r, hp.mem_iff.mp hr, hi⟩

/-- The ranges that are not empty, in order. -/
def ordered (rs : List Range) : List Range :=
  (rs.filter fun r => decide r.Nonempty).insertionSort Before

theorem cover_filter : Cover hole a (rs.filter fun r => decide r.Nonempty) n ↔
    a ≤ n ∧ (∀ r ∈ rs, r.Nonempty → a ≤ r.lo ∧ r.hi ≤ n) ∧ rs.Pairwise Apart ∧
      ∀ i, a ≤ i → i < n → (∃ r ∈ rs, r.Has i) ∨ hole.Has i := by
  have hempty : ∀ r : Range, ¬ r.Nonempty → ∀ i, ¬ r.Has i := by
    intro r hr i hi
    exact hr (by have := hi.1; have := hi.2; unfold Range.Nonempty; omega)
  have hpair : (rs.filter fun r => decide r.Nonempty).Pairwise Apart ↔ rs.Pairwise Apart := by
    rw [List.pairwise_filter]
    refine List.Pairwise.iff fun r r' => ⟨fun h i hi hi' => ?_, fun h _ _ => h⟩
    by_cases hr : r.Nonempty
    · by_cases hr' : r'.Nonempty
      · exact h (decide_eq_true hr) (decide_eq_true hr') i hi hi'
      · exact hempty r' hr' i hi'
    · exact hempty r hr i hi
  have hmem : ∀ i, (∃ r ∈ rs.filter fun r => decide r.Nonempty, r.Has i) ↔ ∃ r ∈ rs, r.Has i := by
    intro i
    constructor
    · rintro ⟨r, hr, hi⟩
      exact ⟨r, (List.mem_filter.mp hr).1, hi⟩
    · rintro ⟨r, hr, hi⟩
      exact ⟨r, List.mem_filter.mpr ⟨hr, decide_eq_true (by
        by_contra hne
        exact hempty r hne i hi)⟩, hi⟩
  constructor
  · rintro ⟨h1, h2, h3, h4⟩
    refine ⟨h1, fun r hr hne => h2 r (List.mem_filter.mpr ⟨hr, decide_eq_true hne⟩), hpair.mp h3,
      fun i hi hi' => (h4 i hi hi').imp_left (hmem i).mp⟩
  · rintro ⟨h1, h2, h3, h4⟩
    refine ⟨h1, fun r hr => ?_, hpair.mpr h3, fun i hi hi' => (h4 i hi hi').imp_left (hmem i).mpr⟩
    obtain ⟨hr, hne⟩ := List.mem_filter.mp hr
    exact h2 r hr (of_decide_eq_true hne)

/-- The ranges are the same but for empty ones. -/
def Same (rs rs' : List Range) : Prop :=
  (rs.filter fun r => decide r.Nonempty).Perm (rs'.filter fun r => decide r.Nonempty)

theorem Same.symm (h : Same rs rs') : Same rs' rs := List.Perm.symm h

theorem Same.forall_apart (h : Same rs rs') {r : Range} (hr : ∀ r' ∈ rs, r'.Apart r) :
    ∀ r' ∈ rs', r'.Apart r := by
  intro r' hr'
  by_cases hne : r'.Nonempty
  · have hmem : r' ∈ rs'.filter fun r => decide r.Nonempty :=
      List.mem_filter.mpr ⟨hr', decide_eq_true hne⟩
    exact hr r' (List.mem_filter.mp (h.mem_iff.mpr hmem)).1
  · unfold Range.Nonempty at hne
    exact apart_iff.mpr (by omega)

/-- In order, the ranges follow one another exactly where they cover what is not in the
hole and no two of them meet. -/
theorem follow_ordered (h : Same rs rs') : Follow hole a (ordered rs) n ↔
    a ≤ n ∧ (∀ r ∈ rs', r.Nonempty → a ≤ r.lo ∧ r.hi ≤ n) ∧ rs'.Pairwise Apart ∧
      ∀ i, a ≤ i → i < n → (∃ r ∈ rs', r.Has i) ∨ hole.Has i := by
  have hperm : (ordered rs).Perm (rs.filter fun r => decide r.Nonempty) :=
    List.perm_insertionSort ..
  have hne : ∀ r ∈ ordered rs, r.Nonempty := fun r hr =>
    of_decide_eq_true (List.mem_filter.mp (hperm.mem_iff.mp hr)).2
  rw [← cover_filter]
  constructor
  · exact fun hf => (hf.cover hne).perm (hperm.trans h)
  · exact fun hc => (hc.perm (hperm.trans h).symm).follow hne (List.pairwise_insertionSort ..)

end LsvmTools.Lib.Ranges
