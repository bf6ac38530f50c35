import LsvmTools.Lib.ByteString
import Mathlib.Data.Set.Pairwise.Basic

/-! # Pools of memory blocks

A pool hands out blocks of a memory and takes them back. `Sound` is what its users rely on: a
block is as large as asked for and apart from the others, and what the others hold is kept. -/
namespace LsvmTools.Lib.Pool
open ByteString

structure Block where
  addr : Nat
  size : Nat

def Block.Apart (a b : Block) : Prop := a.addr + a.size ≤ b.addr ∨ b.addr + b.size ≤ a.addr

/-- The memory and what the pool knows of it. -/
structure Heap (π : Type) where
  mem : Nat → UInt8
  pool : π

/-- The calls of a pool, and the blocks that it has handed out. -/
structure Firmware (π : Type) where
  blocks : π → Set Block
  allocate : Heap π → Nat → Option Nat × Heap π
  free : Heap π → Nat → Heap π
  reallocate : Heap π → Nat → Nat → Nat → Option Nat × Heap π

variable {π : Type}

/-- What the blocks hold is the same. -/
def Keeps (bs : Set Block) (m m' : Nat → UInt8) : Prop :=
  ∀ b ∈ bs, ∀ i < b.size, m' (b.addr + i) = m (b.addr + i)

/-- A block at `a` has been handed out besides `bs`. -/
def Granted (P : Firmware π) (bs : Set Block) (n a : Nat) (h h' : Heap π) : Prop :=
  ∃ k, n ≤ k ∧ P.blocks h'.pool = insert ⟨a, k⟩ bs ∧ (∀ b ∈ bs, Block.Apart ⟨a, k⟩ b) ∧
    Keeps bs h.mem h'.mem

structure Sound (P : Firmware π) : Prop where
  refuses : ∀ {h n h'}, P.allocate h n = (none, h') →
    P.blocks h'.pool = P.blocks h.pool ∧ Keeps (P.blocks h.pool) h.mem h'.mem
  grants : ∀ {h n a h'}, P.allocate h n = (some a, h') → Granted P (P.blocks h.pool) n a h h'
  frees : ∀ {h b}, b ∈ P.blocks h.pool →
    P.blocks (P.free h b.addr).pool = P.blocks h.pool \ {b} ∧
      Keeps (P.blocks h.pool \ {b}) h.mem (P.free h b.addr).mem
  /-- What the block holds is copied. -/
  moves : ∀ {h b old new a h'}, b ∈ P.blocks h.pool → old ≤ b.size →
    P.reallocate h b.addr old new = (some a, h') →
      Granted P (P.blocks h.pool \ {b}) new a h h' ∧
        ∀ i < min old new, h'.mem (a + i) = h.mem (b.addr + i)
  /-- The block is kept, or is gone. -/
  fails : ∀ {h b old new h'}, b ∈ P.blocks h.pool → old ≤ b.size →
    P.reallocate h b.addr old new = (none, h') →
      (P.blocks h'.pool = P.blocks h.pool ∨ P.blocks h'.pool = P.blocks h.pool \ {b}) ∧
        Keeps (P.blocks h'.pool) h.mem h'.mem

/-- No two blocks overlap. -/
abbrev Separate (bs : Set Block) : Prop := bs.Pairwise Block.Apart

section Rules

variable {bs cs : Set Block} {b : Block} {m m' m'' : Nat → UInt8} {n : Nat} {d : Bytes}

theorem Block.Apart.symm {a b : Block} (h : a.Apart b) : b.Apart a := Or.symm h

theorem Keeps.trans (h : Keeps bs m m') (h' : Keeps bs m' m'') : Keeps bs m m'' :=
  fun b hb i hi => (h' b hb i hi).trans (h b hb i hi)

theorem Keeps.subset (h : Keeps bs m m') (hs : cs ⊆ bs) : Keeps cs m m' := fun b hb => h b (hs hb)

/-- Writing in one block changes no other. -/
theorem keeps_write (hin : b.addr ≤ n ∧ n + d.length ≤ b.addr + b.size)
    (hapart : ∀ c ∈ bs, b.Apart c) : Keeps bs m (writeMem m n d) := by
  intro c hc i hi
  have hbc := hapart c hc
  unfold Block.Apart at hbc
  rw [writeMem, if_neg]
  omega

theorem Separate.insert (h : Separate bs) (hb : ∀ c ∈ bs, b.Apart c) : Separate (insert b bs) :=
  Set.Pairwise.insert h fun _ hc _ => ⟨hb _ hc, (hb _ hc).symm⟩

/-- The blocks besides one are apart from it. -/
theorem Separate.others (h : Separate bs) (hb : b ∈ bs) : ∀ c ∈ bs \ {b}, b.Apart c :=
  fun _ hc => h hb hc.1 fun he => hc.2 he.symm

end Rules

end LsvmTools.Lib.Pool
