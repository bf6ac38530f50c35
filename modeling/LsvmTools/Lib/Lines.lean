import Mathlib.Data.List.Basic

/-! # Cutting a text into lines

A text is cut behind every separator and, where pieces are read into an array, wherever the
array is full. -/
namespace LsvmTools.Lib.Lines

variable {α : Type} [DecidableEq α]

/-- The pieces of a text of which `buf` has been read already. -/
def chop (sep : α) (full : Nat → Bool) : List α → List α → List (List α)
  | buf, [] => if buf = [] then [] else [buf]
  | buf, c :: text =>
    if c = sep || full (buf.length + 1) then (buf ++ [c]) :: chop sep full [] text
    else chop sep full (buf ++ [c]) text

/-- The lines of a text, each with the separator that ends it. -/
def lines (sep : α) (text : List α) : List (List α) := chop sep (fun _ => false) [] text

variable {sep c : α} {full : Nat → Bool} {buf text : List α}

theorem chop_cut (h : c = sep ∨ full (buf.length + 1) = true) :
    chop sep full buf (c :: text) = (buf ++ [c]) :: chop sep full [] text := by
  rw [chop, if_pos]
  rcases h with h | h <;> simp [h]

theorem chop_next (hc : c ≠ sep) (h : full (buf.length + 1) = false) :
    chop sep full buf (c :: text) = chop sep full (buf ++ [c]) text := by
  rw [chop, if_neg]
  simp [hc, h]

/-- Nothing is lost. -/
theorem chop_flatten : (chop sep full buf text).flatten = buf ++ text := by
  induction text generalizing buf with
  | nil =>
    rw [chop]
    split
    · next h => simp [h]
    · simp
  | cons c text ih =>
    rw [chop]
    split <;> simp [ih]

theorem lines_flatten (sep : α) (text : List α) : (lines sep text).flatten = text := chop_flatten

/-- A line is no shorter than what has been read of it. -/
theorem exists_line (h : buf ≠ []) :
    ∃ l ∈ chop sep (fun _ => false) buf text, buf.length ≤ l.length := by
  induction text generalizing buf with
  | nil => exact ⟨buf, by simp [chop, h], Nat.le_refl _⟩
  | cons c text ih =>
    rw [chop]
    split
    · exact ⟨buf ++ [c], by simp, by simp⟩
    · obtain ⟨l, hl, hlen⟩ := ih (List.append_ne_nil_of_right_ne_nil buf (List.cons_ne_nil c []))
      rw [List.length_append] at hlen
      exact ⟨l, hl, by omega⟩

theorem long_line (buf : List α) (c : α) (text : List α) :
    ∃ l ∈ chop sep (fun _ => false) buf (c :: text), buf.length < l.length := by
  rw [chop]
  split
  · exact ⟨buf ++ [c], by simp, by simp⟩
  · obtain ⟨l, hl, hlen⟩ := exists_line
      (List.append_ne_nil_of_right_ne_nil buf (List.cons_ne_nil c []))
    rw [List.length_append, List.length_singleton] at hlen
    exact ⟨l, hl, hlen⟩

/-- Where no line is longer than a full array, the array does not matter. -/
theorem chop_eq {n : Nat} (hbuf : buf.length < n)
    (h : ∀ l ∈ chop sep (fun _ => false) buf text, l.length ≤ n) :
    chop sep (fun k => decide (k = n)) buf text = chop sep (fun _ => false) buf text := by
  induction text generalizing buf with
  | nil => rfl
  | cons c text ih =>
    by_cases hc : c = sep
    · have hn : ([] : List α).length < n := Nat.zero_lt_of_lt hbuf
      rw [chop_cut (.inl hc)] at h ⊢
      rw [chop_cut (.inl hc), ih hn fun l hl => h l (List.mem_cons_of_mem _ hl)]
    · have hraw : chop sep (fun _ => false) buf (c :: text) =
          chop sep (fun _ => false) (buf ++ [c]) text := chop_next hc rfl
      rw [hraw] at h ⊢
      by_cases hfull : buf.length + 1 = n
      · -- The array is full; then the text must end here.
        rw [chop_cut (.inr (decide_eq_true hfull))]
        cases text with
        | nil => simp [chop]
        | cons d text =>
          exfalso
          obtain ⟨l, hl, hlen⟩ := long_line (buf ++ [c]) d text
          rw [List.length_append, List.length_singleton, hfull] at hlen
          exact absurd (h l hl) (Nat.not_le.mpr hlen)
      · rw [chop_next hc (decide_eq_false hfull)]
        exact ih (by rw [List.length_append, List.length_singleton]; omega) h

end LsvmTools.Lib.Lines
