import LsvmTools.Lib.Program

/-! # Writers and readers of one format

A writer appends to a buffer of some capacity; a reader takes a value off the front of what
it is given. They carry a value when what the writer appends is read back, whatever follows
it, and whatever cuts it short is an error. -/
namespace LsvmTools.Lib.Codec
open Lib.Program

variable {β α γ : Type}

/-! ## Readers -/

structure Reader (β α : Type) where
  read : List β → Out Unit (α × List β)

namespace Reader

def bind (r : Reader β α) (f : α → Reader β γ) : Reader β γ where
  read bs := r.read bs >>= fun x => (f x.1).read x.2

instance : Monad (Reader β) where
  pure a := ⟨fun bs => .ok (a, bs)⟩
  bind := bind

def fail : Reader β α := ⟨fun _ => .err ()⟩

def stuck : Reader β α := ⟨fun _ => .stuck⟩

/-- Take one element. -/
def next : Reader β β where
  read
    | [] => .err ()
    | b :: bs => .ok (b, bs)

theorem read_bind (r : Reader β α) (f : α → Reader β γ) (bs : List β) :
    (r >>= f).read bs = (r.read bs >>= fun x => (f x.1).read x.2) := rfl

theorem bind_assoc {δ : Type} (r : Reader β α) (f : α → Reader β γ) (g : γ → Reader β δ) :
    r >>= f >>= g = r >>= fun a => f a >>= g := by
  have hread : ∀ bs, (r >>= f >>= g).read bs = (r >>= fun a => f a >>= g).read bs := by
    intro bs
    rw [read_bind, read_bind, read_bind]
    cases r.read bs <;> rfl
  exact congrArg Reader.mk (funext hread)

theorem pure_bind (a : α) (f : α → Reader β γ) : (Pure.pure a : Reader β α) >>= f = f a := rfl

end Reader

/-- The reader takes `a` off `bs`, and cannot do with less. -/
def Reads (r : Reader β α) (a : α) (bs : List β) : Prop :=
  (∀ rest, r.read (bs ++ rest) = .ok (a, rest)) ∧ ∀ p, p <+: bs → p ≠ bs → r.read p = .err ()

theorem Reads.pure (a : α) : Reads (Pure.pure a : Reader β α) a [] :=
  ⟨fun _ => rfl, fun _ hp hne => absurd (List.prefix_nil.mp hp) hne⟩

theorem Reads.next (b : β) : Reads Reader.next b [b] := by
  refine ⟨fun _ => rfl, fun p hp hne => ?_⟩
  cases p with
  | nil => rfl
  | cons c p =>
    obtain ⟨hc, hp⟩ := List.cons_prefix_cons.mp hp
    rw [hc, List.prefix_nil.mp hp] at hne
    exact absurd rfl hne

theorem Reads.bind {r : Reader β α} {f : α → Reader β γ} {a : α} {c : γ} {bs cs : List β}
    (h : Reads r a bs) (h' : Reads (f a) c cs) : Reads (r >>= f) c (bs ++ cs) := by
  refine ⟨fun rest => ?_, fun p hp hne => ?_⟩
  · rw [Reader.read_bind, List.append_assoc, h.1]
    exact h'.1 rest
  · rw [Reader.read_bind]
    rcases List.prefix_or_prefix_of_prefix hp (List.prefix_append bs cs) with hle | hle
    · by_cases hpb : p = bs
      · subst hpb
        have hcs : cs ≠ [] := fun hcs => hne (by rw [hcs, List.append_nil])
        rw [← List.append_nil p, h.1]
        exact h'.2 [] (List.nil_prefix) (Ne.symm hcs)
      · rw [h.2 p hle hpb]
        rfl
    · obtain ⟨q, rfl⟩ := hle
      rw [h.1]
      exact h'.2 q ((List.prefix_append_right_inj bs).mp hp) fun hq => hne (by rw [hq])

theorem Reads.map {r : Reader β α} {a : α} {bs : List β} (h : Reads r a bs) (k : α → γ) :
    Reads (r >>= fun x => Pure.pure (k x)) (k a) bs := by
  have h' : Reads (r >>= fun x => Pure.pure (k x)) (k a) (bs ++ []) := h.bind (.pure (k a))
  rwa [List.append_nil] at h'

/-! ## Writers -/

/-- Append to a buffer, or fail. -/
abbrev Writer (β : Type) := List β → Out Unit (List β)

namespace Writer

/-- One writer after another. -/
def seq (w w' : Writer β) : Writer β := fun buf => w buf >>= w'

def nothing : Writer β := fun buf => .ok buf

def fail : Writer β := fun _ => .err ()

/-- Whatever the buffer, the writer comes to an end. -/
def Returns (w : Writer β) : Prop := ∀ buf, w buf ≠ .stuck

theorem Returns.nothing : (nothing : Writer β).Returns := by
  intro buf
  rintro ⟨⟩

theorem Returns.fail : (fail : Writer β).Returns := by
  intro buf
  rintro ⟨⟩

theorem Returns.seq {w w' : Writer β} (h : w.Returns) (h' : w'.Returns) :
    (w.seq w').Returns := by
  intro buf
  unfold Writer.seq
  cases hw : w buf with
  | ok b => exact h' b
  | err e => rintro ⟨⟩
  | stuck => exact absurd hw (h buf)

end Writer

/-- What the writer appends, at most `n` elements, is read back as `a`; it appends the same
to any buffer with room for it. -/
def Carries (cap : Nat) (w : Writer β) (r : Reader β α) (a : α) (n : Nat) : Prop :=
  ∀ buf buf', w buf = .ok buf' → ∃ bs, buf' = buf ++ bs ∧ bs.length ≤ n ∧ Reads r a bs ∧
    ∀ b, b.length + bs.length ≤ cap → w b = .ok (b ++ bs)

variable {cap : Nat} {w w' : Writer β} {r : Reader β α} {f : α → Reader β γ} {a : α} {c : γ}
  {m n n' : Nat}

theorem Carries.nothing (a : α) : Carries cap (Writer.nothing : Writer β) (Pure.pure a) a n := by
  rintro buf _ ⟨⟩
  exact ⟨[], by simp, Nat.zero_le n, .pure a, fun b _ => by rw [List.append_nil]; rfl⟩

theorem Carries.fail : Carries cap Writer.fail r a n := by
  rintro buf buf' ⟨⟩

theorem Carries.seq (h : Carries cap w r a n) (h' : Carries cap w' (f a) c n')
    (hm : n + n' ≤ m) : Carries cap (w.seq w') (r >>= f) c m := by
  intro buf buf' hw
  obtain ⟨mid, hw1, hw2⟩ := Out.bind_eq_ok.mp hw
  obtain ⟨bs, rfl, hle, hr, hroom⟩ := h buf mid hw1
  obtain ⟨cs, rfl, hle', hr', hroom'⟩ := h' _ _ hw2
  refine ⟨bs ++ cs, List.append_assoc .., ?_, hr.bind hr', fun b hb => ?_⟩
  · rw [List.length_append]
    omega
  · rw [List.length_append] at hb
    rw [Writer.seq, hroom b (by omega), Out.ok_bind, ← List.append_assoc]
    exact hroom' _ (by rw [List.length_append]; omega)

/-- The last reader of a sequence puts the value together. -/
theorem Carries.last {k : α → γ} (h : Carries cap w r a n) (hm : n ≤ m) :
    Carries cap w (r >>= fun x => Pure.pure (k x)) (k a) m := by
  intro buf buf' hw
  obtain ⟨bs, heq, hle, hr, hroom⟩ := h buf buf' hw
  exact ⟨bs, heq, hle.trans hm, hr.map k, hroom⟩

theorem Carries.mono (h : Carries cap w r a n) (hm : n ≤ m) : Carries cap w r a m := by
  intro buf buf' hw
  obtain ⟨bs, heq, hle, hr⟩ := h buf buf' hw
  exact ⟨bs, heq, hle.trans hm, hr⟩

/-- The elements one after the other. -/
theorem Carries.of_reads {bs : List β} (hr : Reads r a bs) (hn : bs.length ≤ n)
    (hw : ∀ buf, w buf = if buf.length + bs.length ≤ cap then .ok (buf ++ bs) else .err ()) :
    Carries cap w r a n := by
  intro buf buf' h
  rw [hw] at h
  split at h
  · cases h
    exact ⟨bs, rfl, hn, hr, fun b hb => by rw [hw, if_pos hb]⟩
  · cases h

end LsvmTools.Lib.Codec
