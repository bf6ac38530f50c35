import LsvmTools.Lib.Codec
import LsvmTools.Lib.ByteString

/-! # Formats of sized fields

A format says which fields follow each other, which of them are sizes, and how much room there
is for what a size counts. Sizes are big-endian. What a reader of a format does is told from
the bytes: it goes past an array, it takes all fields, or it fails in between. -/
namespace LsvmTools.Lib.SizedFormat
open Lib.ByteString Lib.Program Lib.Codec

/-- The value of big-endian bytes. -/
def bigEndian (bs : Bytes) : Nat := bs.foldl (fun n b => 256 * n + b.toNat) 0

inductive Format where
  /-- The end. -/
  | done
  /-- What was read so far is refused. -/
  | refused
  /-- What was read so far leads outside an array. -/
  | outside
  /-- Bytes that stand for themselves. -/
  | skip (n : Nat) (next : Format)
  /-- A number that the rest depends on. -/
  | tagged (width : Nat) (next : Nat → Format)
  /-- A number of elements, with room for `cap`; where it is missing the reader takes `stale`
  for it. -/
  | counted (width stale cap : Nat) (next : Nat → Format)
  /-- A size of what follows which the reader makes no use of. -/
  | claimed (width : Nat) (next : Format)
  /-- A size and so many bytes, moved one by one into an array. -/
  | sized (width cap : Nat) (next : Format)
  /-- A size and so many bytes, moved at once into an array. -/
  | block (width cap : Nat) (next : Format)

namespace Format

/-- The format again and again. -/
def times (f : Format → Format) : Nat → Format → Format
  | 0, next => next
  | n + 1, next => f (times f n next)

/-- A size is met that is larger than its array, and there is a byte to go behind it. -/
def Overruns : Format → Bytes → Prop
  | done, _ => False
  | refused, _ => False
  | outside, _ => True
  | skip n next, bs => n ≤ bs.length ∧ next.Overruns (bs.drop n)
  | tagged width next, bs =>
    width ≤ bs.length ∧ (next (bigEndian (bs.take width))).Overruns (bs.drop width)
  | counted width stale cap next, bs => bs.length < width ∧ cap < stale ∨
    width ≤ bs.length ∧ (cap < bigEndian (bs.take width) ∨
      bigEndian (bs.take width) ≤ cap ∧
        (next (bigEndian (bs.take width))).Overruns (bs.drop width))
  | claimed width next, bs => width ≤ bs.length ∧ next.Overruns (bs.drop width)
  | sized width cap next, bs => width ≤ bs.length ∧
    (cap < bigEndian (bs.take width) ∧ cap < (bs.drop width).length ∨
      bigEndian (bs.take width) ≤ cap ∧ bigEndian (bs.take width) ≤ (bs.drop width).length ∧
        next.Overruns ((bs.drop width).drop (bigEndian (bs.take width))))
  | block width cap next, bs => width ≤ bs.length ∧
    bigEndian (bs.take width) ≤ (bs.drop width).length ∧
    (cap < bigEndian (bs.take width) ∨
      bigEndian (bs.take width) ≤ cap ∧
        next.Overruns ((bs.drop width).drop (bigEndian (bs.take width))))

/-- All fields are there, and no larger than their arrays. -/
def Completes : Format → Bytes → Prop
  | done, _ => True
  | refused, _ => False
  | outside, _ => False
  | skip n next, bs => n ≤ bs.length ∧ next.Completes (bs.drop n)
  | tagged width next, bs =>
    width ≤ bs.length ∧ (next (bigEndian (bs.take width))).Completes (bs.drop width)
  | counted width _ cap next, bs => width ≤ bs.length ∧ bigEndian (bs.take width) ≤ cap ∧
    (next (bigEndian (bs.take width))).Completes (bs.drop width)
  | claimed width next, bs => width ≤ bs.length ∧ next.Completes (bs.drop width)
  | sized width cap next, bs => width ≤ bs.length ∧ bigEndian (bs.take width) ≤ cap ∧
    bigEndian (bs.take width) ≤ (bs.drop width).length ∧
    next.Completes ((bs.drop width).drop (bigEndian (bs.take width)))
  | block width cap next, bs => width ≤ bs.length ∧ bigEndian (bs.take width) ≤ cap ∧
    bigEndian (bs.take width) ≤ (bs.drop width).length ∧
    next.Completes ((bs.drop width).drop (bigEndian (bs.take width)))

/-- A size that the reader makes no use of is larger than what follows it. -/
def Overclaims : Format → Bytes → Prop
  | done, _ => False
  | refused, _ => False
  | outside, _ => False
  | skip n next, bs => next.Overclaims (bs.drop n)
  | tagged width next, bs => (next (bigEndian (bs.take width))).Overclaims (bs.drop width)
  | counted width _ _ next, bs => (next (bigEndian (bs.take width))).Overclaims (bs.drop width)
  | claimed width next, bs => (bs.drop width).length < bigEndian (bs.take width) ∨
    next.Overclaims (bs.drop width)
  | sized width _ next, bs =>
    next.Overclaims ((bs.drop width).drop (bigEndian (bs.take width)))
  | block width _ next, bs =>
    next.Overclaims ((bs.drop width).drop (bigEndian (bs.take width)))

end Format

/-! ## Readers of formats -/

variable {α γ : Type}

/-- A result where the array is left if `goes`, and all is taken off `bs` if `complete`. -/
def Agrees (x : Out Unit (α × Bytes)) (goes complete : Prop) (bs : Bytes) : Prop :=
  match x with
  | .stuck => goes
  | .err _ => ¬ goes ∧ ¬ complete
  | .ok (_, rest) => ¬ goes ∧ complete ∧ rest <:+ bs

/-- The reader does what the format says. -/
def Follows (r : Reader UInt8 α) (f : Format) : Prop :=
  ∀ bs, Agrees (r.read bs) (f.Overruns bs) (f.Completes bs) bs

/-- The reader takes `width` bytes for a number. -/
def Fixed (r : Reader UInt8 α) (width : Nat) (value : Nat → α) : Prop :=
  ∀ bs, r.read bs = if width ≤ bs.length then .ok (value (bigEndian (bs.take width)), bs.drop width)
    else .err ()

/-- Reading `n` bytes one by one into an array of `cap`. -/
structure Fills (r : Nat → Reader UInt8 α) (cap : Nat) : Prop where
  fits : ∀ n bs, n ≤ cap → n ≤ bs.length → ∃ a, (r n).read bs = .ok (a, bs.drop n)
  goes : ∀ n bs, cap < n → cap < bs.length → (r n).read bs = .stuck
  short : ∀ n bs, bs.length < n → bs.length ≤ cap → (r n).read bs = .err ()

/-- Reading `n` bytes at once into an array of `cap`. -/
structure Moves (r : Nat → Reader UInt8 α) (cap : Nat) : Prop where
  fits : ∀ n bs, n ≤ cap → n ≤ bs.length → ∃ a, (r n).read bs = .ok (a, bs.drop n)
  goes : ∀ n bs, cap < n → n ≤ bs.length → (r n).read bs = .stuck
  short : ∀ n bs, bs.length < n → (r n).read bs = .err ()

theorem foldl_lt (bs : Bytes) (n : Nat) :
    bs.foldl (fun n b => 256 * n + b.toNat) n < 256 ^ bs.length * (n + 1) := by
  induction bs generalizing n with
  | nil => simp
  | cons b bs ih =>
    have hb := b.toNat_lt
    have hle : 256 * n + b.toNat + 1 ≤ 256 * (n + 1) := by omega
    calc (b :: bs).foldl (fun n b => 256 * n + b.toNat) n
        < 256 ^ bs.length * (256 * n + b.toNat + 1) := ih _
      _ ≤ 256 ^ bs.length * (256 * (n + 1)) := Nat.mul_le_mul_left _ hle
      _ = 256 ^ (b :: bs).length * (n + 1) := by
        rw [List.length_cons, Nat.pow_succ, Nat.mul_assoc]

/-- The elements of a list; what is missing or too many leads outside. -/
structure Counts (r : Nat → Reader UInt8 α) (cap : Nat) (g : Nat → Format) : Prop where
  fits : ∀ n, n ≤ cap → Follows (r n) (g n)
  goes : ∀ n bs, cap < n → (r n).read bs = .stuck

theorem bigEndian_lt {bs : Bytes} {width : Nat} (h : width ≤ bs.length) :
    bigEndian (bs.take width) < 256 ^ width := by
  have hlt := foldl_lt (bs.take width) 0
  rwa [List.length_take, Nat.min_eq_left h, Nat.zero_add, Nat.mul_one] at hlt

theorem Agrees.mono {x : Out Unit (α × Bytes)} {goes goes' complete complete' : Prop}
    {bs bs' : Bytes} (h : Agrees x goes complete bs) (ho : goes' ↔ goes)
    (hc : complete' ↔ complete) (hs : bs <:+ bs') : Agrees x goes' complete' bs' := by
  unfold Agrees at h ⊢
  rw [ho, hc]
  cases x with
  | stuck => exact h
  | err _ => exact h
  | ok x => exact ⟨h.1, h.2.1, h.2.2.trans hs⟩

theorem Follows.pure (a : α) : Follows (Pure.pure a) .done :=
  fun bs => ⟨id, trivial, List.suffix_refl bs⟩

theorem Follows.fail : Follows (Reader.fail : Reader UInt8 α) .refused :=
  fun _ => ⟨id, id⟩

theorem Follows.stuck : Follows (Reader.stuck : Reader UInt8 α) .outside := fun _ => trivial

section Rules

variable {r : Reader UInt8 α} {k : α → Reader UInt8 γ} {f : Format} {width cap : Nat}
  {value : Nat → α}

theorem Follows.tagged {g : Nat → Format} (hr : Fixed r width value)
    (hk : ∀ n, n < 256 ^ width → Follows (k (value n)) (g n)) :
    Follows (r >>= k) (.tagged width g) := by
  intro bs
  rw [Reader.read_bind, hr]
  by_cases h : width ≤ bs.length
  · rw [if_pos h, Out.ok_bind]
    exact (hk _ (bigEndian_lt h) _).mono (and_iff_right h) (and_iff_right h)
      (List.drop_suffix width bs)
  · rw [if_neg h]
    exact ⟨fun ho => h ho.1, fun hc => h hc.1⟩

theorem Follows.skip (hr : Fixed r width value) (hk : ∀ a, Follows (k a) f) :
    Follows (r >>= k) (.skip width f) := by
  intro bs
  rw [Reader.read_bind, hr]
  by_cases h : width ≤ bs.length
  · rw [if_pos h, Out.ok_bind]
    exact (hk _ _).mono (and_iff_right h) (and_iff_right h) (List.drop_suffix width bs)
  · rw [if_neg h]
    exact ⟨fun ho => h ho.1, fun hc => h hc.1⟩

theorem Follows.claimed (hr : Fixed r width value) (hk : ∀ a, Follows (k a) f) :
    Follows (r >>= k) (.claimed width f) := by
  intro bs
  rw [Reader.read_bind, hr]
  by_cases h : width ≤ bs.length
  · rw [if_pos h, Out.ok_bind]
    exact (hk _ _).mono (and_iff_right h) (and_iff_right h) (List.drop_suffix width bs)
  · rw [if_neg h]
    exact ⟨fun ho => h ho.1, fun hc => h hc.1⟩

theorem Follows.counted {stale : Nat} {g : Nat → Format} {s : Reader UInt8 γ}
    {elements : Nat → Reader UInt8 γ} (hcount : Counts elements cap g)
    (hread : ∀ bs, s.read bs = if width ≤ bs.length
      then (elements (bigEndian (bs.take width))).read (bs.drop width)
      else if cap < stale then .stuck else .err ()) :
    Follows s (.counted width stale cap g) := by
  intro bs
  rw [hread]
  by_cases h : width ≤ bs.length
  · rw [if_pos h]
    dsimp only [Format.Overruns, Format.Completes]
    generalize bigEndian (bs.take width) = n
    by_cases hcap : n ≤ cap
    · refine (hcount.fits n hcap _).mono ?_ ?_ (List.drop_suffix width bs)
      · simp only [h, hcap, Nat.not_lt.mpr h, Nat.not_lt.mpr hcap, true_and, false_and, false_or]
      · simp only [h, hcap, true_and]
    · rw [hcount.goes n _ (by omega)]
      exact .inr ⟨h, .inl (by omega)⟩
  · rw [if_neg h]
    by_cases hstale : cap < stale
    · rw [if_pos hstale]
      exact .inl ⟨by omega, hstale⟩
    · rw [if_neg hstale]
      refine ⟨?_, fun hc => h hc.1⟩
      rintro (hgo | hgo)
      · exact hstale hgo.2
      · exact h hgo.1

variable {β : Type} {fill : Nat → Reader UInt8 β} {kb : β → Reader UInt8 γ} {size : α → Nat}

theorem Follows.sized (hr : Fixed r width value)
    (hsize : ∀ n, n < 256 ^ width → size (value n) = n) (hfill : Fills fill cap)
    (hk : ∀ b, Follows (kb b) f) :
    Follows (r >>= fun a => fill (size a) >>= kb) (.sized width cap f) := by
  intro bs
  rw [Reader.read_bind, hr]
  by_cases h : width ≤ bs.length
  · rw [if_pos h, Out.ok_bind]
    dsimp only [Format.Overruns, Format.Completes]
    rw [hsize _ (bigEndian_lt h), Reader.read_bind]
    generalize bigEndian (bs.take width) = n
    have hsuffix := List.drop_suffix width bs
    generalize bs.drop width = rest at hsuffix
    by_cases hcap : n ≤ cap
    · by_cases hlen : n ≤ rest.length
      · obtain ⟨b, hb⟩ := hfill.fits n rest hcap hlen
        rw [hb, Out.ok_bind]
        refine (hk b _).mono ?_ ?_ ((List.drop_suffix n rest).trans hsuffix)
        · simp only [h, hcap, hlen, true_and, Nat.not_lt.mpr hcap, false_and, false_or]
        · simp only [h, hcap, hlen, true_and]
      · rw [hfill.short n rest (by omega) (by omega)]
        refine ⟨?_, fun hc => hlen hc.2.2.1⟩
        rintro ⟨-, hgo | hfit⟩
        · omega
        · exact hlen hfit.2.1
    · by_cases hlen : cap < rest.length
      · rw [hfill.goes n rest (by omega) hlen]
        exact ⟨h, .inl ⟨by omega, hlen⟩⟩
      · rw [hfill.short n rest (by omega) (by omega)]
        refine ⟨?_, fun hc => hcap hc.2.1⟩
        rintro ⟨-, hgo | hfit⟩
        · exact hlen hgo.2
        · exact hcap hfit.1
  · rw [if_neg h]
    exact ⟨fun ho => h ho.1, fun hc => h hc.1⟩

theorem Follows.block (hr : Fixed r width value)
    (hsize : ∀ n, n < 256 ^ width → size (value n) = n) (hmove : Moves fill cap)
    (hk : ∀ b, Follows (kb b) f) :
    Follows (r >>= fun a => fill (size a) >>= kb) (.block width cap f) := by
  intro bs
  rw [Reader.read_bind, hr]
  by_cases h : width ≤ bs.length
  · rw [if_pos h, Out.ok_bind]
    dsimp only [Format.Overruns, Format.Completes]
    rw [hsize _ (bigEndian_lt h), Reader.read_bind]
    generalize bigEndian (bs.take width) = n
    have hsuffix := List.drop_suffix width bs
    generalize bs.drop width = rest at hsuffix
    by_cases hlen : n ≤ rest.length
    · by_cases hcap : n ≤ cap
      · obtain ⟨b, hb⟩ := hmove.fits n rest hcap hlen
        rw [hb, Out.ok_bind]
        refine (hk b _).mono ?_ ?_ ((List.drop_suffix n rest).trans hsuffix)
        · simp only [h, hcap, hlen, true_and, Nat.not_lt.mpr hcap, false_or]
        · simp only [h, hcap, hlen, true_and]
      · rw [hmove.goes n rest (by omega) hlen]
        exact ⟨h, hlen, .inl (by omega)⟩
    · rw [hmove.short n rest (by omega)]
      exact ⟨fun ho => hlen ho.2.1, fun hc => hlen hc.2.2.1⟩
  · rw [if_neg h]
    exact ⟨fun ho => h ho.1, fun hc => h hc.1⟩

end Rules

end LsvmTools.Lib.SizedFormat
