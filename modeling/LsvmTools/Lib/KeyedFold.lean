import Mathlib

/-! # Folds with one accumulator for each key

A list is folded into a family of accumulators, each element into the one its key names.
What ends up under a key depends only on the elements of that key and their order. -/
namespace LsvmTools.Lib.KeyedFold

variable {α β κ : Type} [DecidableEq κ]

def foldKeyed (key : α → κ) (step : β → α → β) (f : κ → β) (l : List α) : κ → β :=
  l.foldl (fun f a => Function.update f (key a) (step (f (key a)) a)) f

variable {key : α → κ} {step : β → α → β}

theorem foldKeyed_cons (f : κ → β) (a : α) (l : List α) :
    foldKeyed key step f (a :: l) =
      foldKeyed key step (Function.update f (key a) (step (f (key a)) a)) l := rfl

theorem foldKeyed_apply (f : κ → β) (l : List α) (k : κ) :
    foldKeyed key step f l k = (l.filter (key · = k)).foldl step (f k) := by
  induction l generalizing f with
  | nil => rfl
  | cons a l ih =>
    rw [foldKeyed_cons, ih]
    by_cases hk : key a = k
    · subst hk
      rw [Function.update_self, List.filter_cons_of_pos (by simp), List.foldl_cons]
    · rw [Function.update_of_ne (Ne.symm hk), List.filter_cons_of_neg (by simpa using hk)]

/-- Elements of different keys may change places. -/
theorem foldKeyed_congr {l l' : List α} (h : ∀ k, l.filter (key · = k) = l'.filter (key · = k))
    (f : κ → β) : foldKeyed key step f l = foldKeyed key step f l' := by
  funext k
  rw [foldKeyed_apply, foldKeyed_apply, h k]

end LsvmTools.Lib.KeyedFold
