import Mathlib.Data.List.Chain
import Mathlib.Data.List.Sort
import Mathlib.Logic.Function.Iterate

/-! # Bubble sort by any comparison

`sort gt` makes one pass less than the list is long, whatever `gt` is. The result is a
permutation; a list without an element that is greater than its successor stays as it is; and
where `gt` compares by a total preorder, the result is ascending. -/
namespace LsvmTools.Lib.Bubble

variable {α β : Type} (gt : α → α → Bool)

/-- The inner loop, with the element that is moved on. -/
def carry : α → List α → List α
  | x, [] => [x]
  | x, y :: rest => if gt x y then y :: carry x rest else x :: carry y rest

def pass : List α → List α
  | [] => []
  | x :: rest => carry gt x rest

def sort (l : List α) : List α := (pass gt)^[l.length - 1] l

variable {gt}

/-! ## Permutations -/

theorem carry_perm (x : α) (l : List α) : (carry gt x l).Perm (x :: l) := by
  induction l generalizing x with
  | nil => exact .refl _
  | cons y l ih =>
    rw [carry]
    split
    · exact ((ih x).cons y).trans (.swap x y l)
    · exact (ih y).cons x

theorem pass_perm (l : List α) : (pass gt l).Perm l := by
  cases l with
  | nil => exact .refl _
  | cons x l => exact carry_perm x l

theorem passes_perm (n : Nat) (l : List α) : ((pass gt)^[n] l).Perm l := by
  induction n with
  | zero => exact .refl _
  | succ n ih =>
    rw [Function.iterate_succ_apply']
    exact (pass_perm _).trans ih

theorem sort_perm (l : List α) : (sort gt l).Perm l := passes_perm _ l

/-! ## Lists that stay -/

theorem carry_of_chain {x : α} {l : List α} (h : (x :: l).IsChain fun a b => gt a b = false) :
    carry gt x l = x :: l := by
  induction l generalizing x with
  | nil => rfl
  | cons y l ih =>
    obtain ⟨hxy, hl⟩ := List.isChain_cons_cons.mp h
    rw [carry, hxy, if_neg Bool.false_ne_true, ih hl]

theorem pass_of_chain {l : List α} (h : l.IsChain fun a b => gt a b = false) : pass gt l = l := by
  cases l with
  | nil => rfl
  | cons x l => exact carry_of_chain h

theorem sort_of_chain {l : List α} (h : l.IsChain fun a b => gt a b = false) : sort gt l = l :=
  Function.iterate_fixed (pass_of_chain h) _

/-! ## Order -/

/-- Any two elements compare, and comparisons go on. -/
structure TotalPreorder (le : α → α → Prop) : Prop where
  total : ∀ a b, le a b ∨ le b a
  trans : ∀ {a b c}, le a b → le b c → le a c

variable {le : α → α → Prop}

/-- The last `n` elements are in their places. -/
def Settled (le : α → α → Prop) (n : Nat) (l : List α) : Prop :=
  ∃ front back, l = front ++ back ∧ n ≤ back.length ∧ back.Pairwise le ∧
    ∀ a ∈ front, ∀ b ∈ back, le a b

/-- What a pass does before it comes to the elements in their places. -/
theorem carry_append (hle : TotalPreorder le) {x : α} {l : List α}
    (hgt : ∀ a ∈ x :: l, ∀ b ∈ x :: l, gt a b = true ↔ ¬ le a b) :
    ∃ front m, (front ++ [m]).Perm (x :: l) ∧ (∀ a ∈ x :: l, le a m) ∧
      ∀ back, carry gt x (l ++ back) = front ++ carry gt m back := by
  have hrefl : ∀ a, le a a := fun a => (hle.total a a).elim id id
  induction l generalizing x with
  | nil =>
    exact ⟨[], x, .refl _, fun a ha => by rw [List.mem_singleton.mp ha]; exact hrefl x, fun _ => rfl⟩
  | cons y l ih =>
    have hxy := hgt x (by simp) y (by simp)
    by_cases hg : gt x y = true
    · obtain ⟨front, m, hperm, hmax, hcarry⟩ := @ih x fun a ha b hb =>
        hgt a (by simp at ha ⊢; tauto) b (by simp at hb ⊢; tauto)
      refine ⟨y :: front, m, (hperm.cons y).trans (.swap x y l), fun a ha => ?_, fun back => ?_⟩
      · have hx := hmax x (by simp)
        rcases List.mem_cons.mp ha with rfl | ha
        · exact hx
        · rcases List.mem_cons.mp ha with rfl | ha
          · exact hle.trans ((hle.total _ _).resolve_left (hxy.mp hg)) hx
          · exact hmax a (by simp [ha])
      · rw [List.cons_append, carry, if_pos hg, hcarry]
        rfl
    · obtain ⟨front, m, hperm, hmax, hcarry⟩ := @ih y fun a ha b hb =>
        hgt a (List.mem_cons_of_mem _ ha) b (List.mem_cons_of_mem _ hb)
      refine ⟨x :: front, m, hperm.cons x, fun a ha => ?_, fun back => ?_⟩
      · rcases List.mem_cons.mp ha with rfl | ha
        · exact hle.trans (not_not.mp (mt hxy.mpr hg)) (hmax y (by simp))
        · exact hmax a ha
      · rw [List.cons_append, carry, if_neg hg, hcarry]
        rfl

theorem chain_of_ascending {l : List α} (hgt : ∀ a ∈ l, ∀ b ∈ l, gt a b = true ↔ ¬ le a b)
    (h : l.Pairwise le) : l.IsChain fun a b => gt a b = false := by
  refine List.Pairwise.isChain (h.imp_of_mem fun {a b} ha hb hab => ?_)
  rw [← Bool.not_eq_true, hgt a ha b hb]
  exact not_not.mpr hab

theorem ascending_of_chain (hle : TotalPreorder le) {l : List α}
    (hgt : ∀ a ∈ l, ∀ b ∈ l, gt a b = true ↔ ¬ le a b)
    (h : l.IsChain fun a b => gt a b = false) : l.Pairwise le := by
  have htrans : IsTrans α le := ⟨fun _ _ _ => hle.trans⟩
  refine List.isChain_iff_pairwise.mp (h.imp_of_mem_imp fun a b ha hb hg => ?_)
  by_contra hno
  rw [(hgt a ha b hb).mpr hno] at hg
  cases hg

/-- Each pass puts one more element in its place. -/
theorem Settled.pass (hle : TotalPreorder le) {n : Nat} {l : List α}
    (hgt : ∀ a ∈ l, ∀ b ∈ l, gt a b = true ↔ ¬ le a b) (hn : n < l.length)
    (h : Settled le n l) : Settled le (n + 1) (pass gt l) := by
  obtain ⟨front, back, rfl, hlen, hback, hfb⟩ := h
  cases front with
  | nil =>
    rw [List.nil_append] at hgt hn ⊢
    rw [pass_of_chain (chain_of_ascending hgt hback)]
    exact ⟨[], back, rfl, hn, hback, fun a ha => by cases ha⟩
  | cons x rest =>
    obtain ⟨front, m, hperm, hmax, hcarry⟩ := @carry_append _ gt le hle x rest fun a ha b hb =>
      hgt a (List.mem_append_left _ ha) b (List.mem_append_left _ hb)
    have hm : m ∈ x :: rest := hperm.mem_iff.mp (by simp)
    have hsorted : (m :: back).Pairwise le := List.pairwise_cons.mpr ⟨hfb m hm, hback⟩
    have hchain := chain_of_ascending (fun a ha b hb => hgt a (by
      rcases List.mem_cons.mp ha with rfl | ha
      · exact List.mem_append_left _ hm
      · exact List.mem_append_right _ ha) b (by
      rcases List.mem_cons.mp hb with rfl | hb
      · exact List.mem_append_left _ hm
      · exact List.mem_append_right _ hb)) hsorted
    refine ⟨front, m :: back, ?_, Nat.succ_le_succ hlen, hsorted, fun a ha b hb => ?_⟩
    · rw [List.cons_append, Bubble.pass, hcarry, carry_of_chain hchain]
    · have hain : a ∈ x :: rest := hperm.mem_iff.mp (by simp [ha])
      rcases List.mem_cons.mp hb with rfl | hb
      · exact hmax a hain
      · exact hfb a hain b hb

theorem settled_passes (hle : TotalPreorder le) {l : List α}
    (hgt : ∀ a ∈ l, ∀ b ∈ l, gt a b = true ↔ ¬ le a b) {n : Nat} (hn : n ≤ l.length) :
    Settled le n ((Bubble.pass gt)^[n] l) := by
  induction n with
  | zero => exact ⟨l, [], (List.append_nil l).symm, Nat.le_refl _, .nil, fun _ _ _ hb => by cases hb⟩
  | succ n ih =>
    have hp := @passes_perm _ gt n l
    rw [Function.iterate_succ_apply']
    refine (ih (by omega)).pass hle (fun a ha b hb => ?_) (by rw [hp.length_eq]; omega)
    exact hgt a (hp.mem_iff.mp ha) b (hp.mem_iff.mp hb)

/-- A comparison by a total preorder sorts by it. -/
theorem sort_sorted (hle : TotalPreorder le) {l : List α}
    (hgt : ∀ a ∈ l, ∀ b ∈ l, gt a b = true ↔ ¬ le a b) : (sort gt l).Pairwise le := by
  obtain ⟨front, back, heq, hlen, hback, hfb⟩ := settled_passes hle hgt (Nat.sub_le l.length 1)
  have hfront : front.length ≤ 1 := by
    have := congrArg List.length heq
    rw [(passes_perm _ l).length_eq, List.length_append] at this
    omega
  rw [sort, heq]
  cases front with
  | nil => exact hback
  | cons a rest =>
    have hrest : rest = [] := List.length_eq_zero_iff.mp (by
      rw [List.length_cons] at hfront
      omega)
    subst hrest
    exact List.pairwise_cons.mpr ⟨hfb a (by simp), hback⟩

theorem totalPreorder_key [LinearOrder β] (key : α → β) :
    TotalPreorder fun a b => key a ≤ key b := ⟨fun a b => le_total (key a) (key b), le_trans⟩

/-- A comparison of keys sorts by them. -/
theorem sort_ascending [LinearOrder β] {key : α → β} {l : List α}
    (hgt : ∀ a ∈ l, ∀ b ∈ l, gt a b = true ↔ key b < key a) :
    (sort gt l).Pairwise fun a b => key a ≤ key b :=
  sort_sorted (totalPreorder_key key) fun a ha b hb => (hgt a ha b hb).trans not_le.symm

/-! ## Stability -/

/-- The list sorted, where elements that are neither way apart keep their order. -/
structure StableSort (le : α → α → Prop) [DecidableRel le] (l sorted : List α) : Prop where
  perm : sorted.Perm l
  ascending : sorted.Pairwise le
  stable : ∀ c, sorted.filter (fun a => le a c ∧ le c a) = l.filter fun a => le a c ∧ le c a

theorem StableSort.trans [DecidableRel le] {l₁ l₂ l₃ : List α}
    (hperm : l₂.Perm l₁)
    (hfilter : ∀ c, l₂.filter (fun a => le a c ∧ le c a) = l₁.filter fun a => le a c ∧ le c a)
    (h : StableSort le l₂ l₃) : StableSort le l₁ l₃ :=
  ⟨h.perm.trans hperm, h.ascending, fun c => (h.stable c).trans (hfilter c)⟩

/-- Elements that are not exchanged stay in order. -/
theorem carry_filter {p : α → Bool} (hp : ∀ {a b}, p a = true → p b = true → gt a b = false)
    (x : α) (l : List α) : (carry gt x l).filter p = (x :: l).filter p := by
  induction l generalizing x with
  | nil => rfl
  | cons y l ih =>
    rw [carry]
    split
    · rename_i hg
      rw [List.filter_cons, ih, List.filter_cons, List.filter_cons, List.filter_cons]
      by_cases hx : p x = true
      · by_cases hy : p y = true
        · rw [hp hx hy] at hg
          cases hg
        · rw [if_neg hy, if_neg hy]
      · rw [if_neg hx, if_neg hx]
    · rw [List.filter_cons, ih, ← List.filter_cons]

end LsvmTools.Lib.Bubble
