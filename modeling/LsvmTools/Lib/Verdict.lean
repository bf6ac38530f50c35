import LsvmTools.Lib.Loop

/-! # Computations that succeed under a condition

`Succeeds m c`: `m` ends with a result where `c` holds and with an error where it does not, so
it is never stuck and its loops end. -/
namespace LsvmTools.Lib.Verdict
open Lib.Program Lib.Loop

variable {ε α β : Type} {m : Exec ε α} {k : α → Exec ε β} {a : α} {e : ε} {c d : Prop}

structure Succeeds (m : Exec ε α) (c : Prop) : Prop where
  ok : c → ∃ a, m.Ends (.ok a)
  err : ¬ c → ∃ e, m.Ends (.err e)

namespace Succeeds

theorem of_ok (h : m.Ends (.ok a)) (hc : c) : Succeeds m c :=
  ⟨fun _ => ⟨a, h⟩, fun hno => absurd hc hno⟩

theorem of_err (h : m.Ends (.err e)) (hc : ¬ c) : Succeeds m c :=
  ⟨fun hyes => absurd hyes hc, fun _ => ⟨e, h⟩⟩

theorem congr (h : Succeeds m c) (hcd : c ↔ d) : Succeeds m d :=
  ⟨fun hd => h.ok (hcd.mpr hd), fun hd => h.err (mt hcd.mp hd)⟩

/-- Both steps have to succeed. -/
theorem bind (h : Succeeds m c) (hk : ∀ a, m.Ends (.ok a) → Succeeds (k a) d) :
    Succeeds (m >>= k) (c ∧ d) := by
  by_cases hc : c
  · obtain ⟨a, ha⟩ := h.ok hc
    have hka := hk a ha
    constructor
    · rintro ⟨-, hd⟩
      obtain ⟨b, hb⟩ := hka.ok hd
      exact ⟨b, ha.bind hb⟩
    · intro hno
      obtain ⟨e, he⟩ := hka.err fun hd => hno ⟨hc, hd⟩
      exact ⟨e, ha.bind he⟩
  · obtain ⟨e, he⟩ := h.err hc
    exact ⟨fun hcd => absurd hcd.1 hc, fun _ => ⟨e, he.bind_err k⟩⟩

/-- A step that succeeds. -/
theorem after (ha : m.Ends (.ok a)) (hk : Succeeds (k a) d) : Succeeds (m >>= k) d := by
  constructor
  · intro hd
    obtain ⟨b, hb⟩ := hk.ok hd
    exact ⟨b, ha.bind hb⟩
  · intro hd
    obtain ⟨e, he⟩ := hk.err hd
    exact ⟨e, ha.bind he⟩

theorem map (h : Succeeds m c) (g : α → β) : Succeeds (m >>= fun a => pure (g a)) c :=
  (h.bind fun _ _ => .of_ok (Exec.ends_pure.mpr rfl) trivial).congr (and_iff_left trivial)

theorem ok_iff (h : Succeeds m c) : (∃ a, m.Ends (.ok a)) ↔ c := by
  constructor
  · rintro ⟨a, ha⟩
    by_contra hc
    obtain ⟨e, he⟩ := h.err hc
    have heq := ha.unique he
    cases heq
  · exact h.ok

end Succeeds

end LsvmTools.Lib.Verdict
