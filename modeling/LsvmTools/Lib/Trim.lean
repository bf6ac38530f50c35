import Mathlib.Data.List.DropRight

/-! # Trimming -/
namespace LsvmTools.Lib.Trim

variable {α : Type} {p : α → Bool} {c : α}

/-- Without what satisfies `p` at both ends. -/
def trim (p : α → Bool) (b : List α) : List α := (b.dropWhile p).rdropWhile p

/-- What comes behind an element that stays does not matter at the front. -/
theorem dropWhile_append_cons (hc : p c = false) (f rest : List α) :
    (f ++ c :: rest).dropWhile p = f.dropWhile p ++ c :: rest := by
  induction f with
  | nil => simp [hc]
  | cons d f ih =>
    rw [List.cons_append, List.dropWhile_cons, List.dropWhile_cons]
    split
    · exact ih
    · rfl

/-- What comes before an element that stays does not matter at the end. -/
theorem rdropWhile_append_cons (hc : p c = false) (pre f : List α) :
    (pre ++ c :: f).rdropWhile p = pre ++ c :: f.rdropWhile p := by
  induction f using List.reverseRecOn with
  | nil => simp [List.rdropWhile, hc]
  | append_singleton f d ih =>
    by_cases hd : p d = true
    · rw [← List.cons_append, ← List.append_assoc, List.rdropWhile_concat_pos _ _ _ hd, ih,
        List.rdropWhile_concat_pos _ _ _ hd]
    · rw [← List.cons_append, ← List.append_assoc, List.rdropWhile_concat_neg _ _ _ hd,
        List.rdropWhile_concat_neg _ _ _ hd]
      simp

/-- The end may be trimmed first. -/
theorem dropWhile_rdropWhile (f : List α) : (f.rdropWhile p).dropWhile p = trim p f := by
  induction f using List.reverseRecOn with
  | nil => rfl
  | append_singleton f c ih =>
    by_cases hc : p c = true
    · rw [List.rdropWhile_concat_pos _ _ _ hc, ih, trim, trim, List.dropWhile_append]
      split
      · next h => simp [List.isEmpty_iff.mp h, hc]
      · rw [List.rdropWhile_concat_pos _ _ _ hc]
    · have hc' : p c = false := by simpa using hc
      rw [List.rdropWhile_concat_neg _ _ _ hc, trim, dropWhile_append_cons hc',
        List.rdropWhile_concat_neg _ _ _ hc]

theorem trim_rdropWhile (f : List α) : trim p (f.rdropWhile p) = trim p f := by
  rw [← dropWhile_rdropWhile, ← dropWhile_rdropWhile, List.rdropWhile_idempotent]

theorem length_trim_le (f : List α) : (trim p f).length ≤ f.length :=
  ((List.rdropWhile_prefix _ _).sublist.trans (List.dropWhile_sublist _)).length_le

end LsvmTools.Lib.Trim
