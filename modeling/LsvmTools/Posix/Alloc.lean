import LsvmTools.Lib.Pool

/-! # The allocator of the posix layer

A header with the size and a magic number stands in front of each block. `posix_calloc` adds its
arguments where the contract multiplies them, so the contract is kept where the product is not
above the sum and no size wraps. -/
namespace LsvmTools.Posix.Alloc
open Lib.ByteString Lib.Pool

def allocMagic : Nat := 0xEA9D41BDA0837D71

/-- `sizeof(AllocHeader)`; the size is its first field, the magic number its second. -/
def headerSize : Nat := 16

/-! ## Words of the memory -/

def word (m : Nat → UInt8) (a : Nat) : Nat :=
  le32 (readMem m a 8) 0 + 2 ^ 32 * le32 (readMem m a 8) 4

def setWord (m : Nat → UInt8) (a n : Nat) : Nat → UInt8 :=
  writeMem m a (enc32 n ++ enc32 (n / 2 ^ 32))

section Words

variable {m m' : Nat → UInt8} {a b n : Nat}

theorem word_congr (h : ∀ i < 8, m' (b + i) = m (a + i)) : word m' b = word m a := by
  have hbytes : readMem m' b 8 = readMem m a 8 := by
    refine ext_byteAt (by simp) fun i hi => ?_
    rw [length_readMem] at hi
    rw [byteAt_readMem hi, byteAt_readMem hi, h i hi]
  rw [word, word, hbytes]

theorem word_setWord (h : n < 2 ^ 64) : word (setWord m a n) a = n := by
  have hbytes : readMem (setWord m a n) a 8 = enc32 n ++ enc32 (n / 2 ^ 32) :=
    readMem_writeMem m a (enc32 n ++ enc32 (n / 2 ^ 32))
  have hhigh : n / 2 ^ 32 < 2 ^ 32 := by omega
  rw [word, hbytes, le32_enc32_append, le32_append_right (by simp), length_enc32,
    Nat.sub_self, le32_enc32, u32_of_lt hhigh]
  unfold u32
  omega

theorem setWord_of_outside (h : b < a ∨ a + 8 ≤ b) : setWord m a n b = m b := by
  rw [setWord, writeMem, if_neg]
  simp only [List.length_append, length_enc32]
  omega

theorem word_setWord_of_apart (h : b + 8 ≤ a ∨ a + 8 ≤ b) :
    word (setWord m a n) b = word m b :=
  word_congr fun _ _ => setWord_of_outside (by omega)

end Words

/-! ## The calls -/

section Calls

variable {π : Type} (P : Firmware π)

def posixMalloc (size : Nat) (heap : Heap π) : Option Nat × Heap π :=
  match P.allocate heap (u64 (headerSize + size)) with
  | (none, heap) => (none, heap)
  | (some h, heap) =>
    (some (h + headerSize), ⟨setWord (setWord heap.mem (h + 8) allocMagic) h size, heap.pool⟩)

def posixCalloc (nmemb size : Nat) (heap : Heap π) : Option Nat × Heap π :=
  let n := u64 (nmemb + size)
  match posixMalloc P n heap with
  | (none, heap) => (none, heap)
  | (some p, heap) => (some p, ⟨writeMem heap.mem p (List.replicate n 0), heap.pool⟩)

/-- `none` is a panic. -/
def posixRealloc (ptr : Option Nat) (size : Nat) (heap : Heap π) : Option (Option Nat × Heap π) :=
  match ptr with
  | none => some (posixMalloc P size heap)
  | some ptr =>
    let h := ptr - headerSize
    if word heap.mem (h + 8) ≠ allocMagic then none else
      let oldsize := u64 (headerSize + word heap.mem h)
      let newsize := u64 (headerSize + size)
      match P.reallocate heap h oldsize newsize with
      | (none, heap) => some (none, heap)
      | (some h, heap) =>
        if word heap.mem (h + 8) ≠ allocMagic then none else
          some (some (h + headerSize), ⟨setWord heap.mem h size, heap.pool⟩)

def posixFree (ptr : Option Nat) (heap : Heap π) : Heap π :=
  match ptr with
  | none => heap
  | some ptr =>
    let h := ptr - headerSize
    if word heap.mem (h + 8) = allocMagic then P.free heap h else heap

end Calls

/-! ## Runs of the users -/

/-- What a user holds: where it is, and the size asked for. -/
structure Live where
  ptr : Nat
  size : Nat

structure State (π : Type) where
  heap : Heap π
  live : Set Live

inductive Act
  | malloc (size : Nat)
  | calloc (nmemb size : Nat)
  | realloc (l : Option Live) (size : Nat)
  | free (l : Option Live)
  | write (l : Live) (off : Nat) (data : Bytes)

section Runs

variable {π : Type} (P : Firmware π)

/-- What is asked for is live if it has been granted. -/
def granted (live : Set Live) (size : Nat) (r : Option Nat × Heap π) : Option Nat × State π :=
  match r with
  | (none, heap) => (none, ⟨heap, live⟩)
  | (some p, heap) => (some p, ⟨heap, insert ⟨p, size⟩ live⟩)

/-- After a reallocation that fails the block is live unless the pool has taken it. -/
def reallocated (s : State π) (l : Live) (size : Nat) (r : Option Nat × Heap π) :
    Option Nat × State π :=
  match r with
  | (none, heap) =>
    (none, ⟨heap, {x ∈ s.live | x = l → P.blocks heap.pool = P.blocks s.heap.pool}⟩)
  | (some p, heap) => (some p, ⟨heap, insert ⟨p, size⟩ (s.live \ {l})⟩)

/-- The pointer that a call returns, and the state behind it. -/
def step (s : State π) : Act → Option (Option Nat × State π)
  | .malloc size => some (granted s.live size (posixMalloc P size s.heap))
  | .calloc nmemb size => some (granted s.live (nmemb * size) (posixCalloc P nmemb size s.heap))
  | .realloc none size => (posixRealloc P none size s.heap).map (granted s.live size)
  | .realloc (some l) size => (posixRealloc P (some l.ptr) size s.heap).map (reallocated P s l size)
  | .free none => some (none, ⟨posixFree P none s.heap, s.live⟩)
  | .free (some l) => some (none, ⟨posixFree P (some l.ptr) s.heap, s.live \ {l}⟩)
  | .write l off data =>
    some (none, ⟨⟨writeMem s.heap.mem (l.ptr + off) data, s.heap.pool⟩, s.live⟩)

/-- The user passes on what it holds, and writes nowhere else. -/
def Allowed (live : Set Live) : Act → Prop
  | .realloc (some l) _ => l ∈ live
  | .free (some l) => l ∈ live
  | .write l off data => l ∈ live ∧ off + data.length ≤ l.size
  | _ => True

/-- No size wraps, and the sum that `posix_calloc` computes is enough for the product. -/
def Fits : Act → Prop
  | .malloc size => headerSize + size < 2 ^ 64
  | .calloc nmemb size => nmemb * size ≤ nmemb + size ∧ headerSize + (nmemb + size) < 2 ^ 64
  | .realloc _ size => headerSize + size < 2 ^ 64
  | _ => True

/-- What is live lies in a block of the pool, and apart from what else is. -/
structure Held (s : State π) : Prop where
  inside : ∀ l ∈ s.live, ∃ b ∈ P.blocks s.heap.pool,
    b.addr ≤ l.ptr ∧ l.ptr + l.size ≤ b.addr + b.size
  apart : s.live.Pairwise fun l k => l.ptr + l.size ≤ k.ptr ∨ k.ptr + k.size ≤ l.ptr

/-- What is live holds the same bytes. -/
def Kept (live : Set Live) (m m' : Nat → UInt8) : Prop :=
  ∀ l ∈ live, ∀ i < l.size, m' (l.ptr + i) = m (l.ptr + i)

/-- What a call does. -/
def Served (s : State π) (p : Option Nat) (s' : State π) : Act → Prop
  | .calloc nmemb size => Kept s.live s.heap.mem s'.heap.mem ∧
      ∀ a, p = some a → ∀ i < nmemb * size, s'.heap.mem (a + i) = 0
  | .realloc (some l) size => Kept (s.live \ {l}) s.heap.mem s'.heap.mem ∧
      (p = none → Kept s'.live s.heap.mem s'.heap.mem) ∧
      ∀ a, p = some a → ∀ i < min l.size size, s'.heap.mem (a + i) = s.heap.mem (l.ptr + i)
  | .free (some l) => Kept s'.live s.heap.mem s'.heap.mem ∧
      ∃ b ∈ P.blocks s.heap.pool, b.addr ≤ l.ptr ∧ l.ptr + l.size ≤ b.addr + b.size ∧
        s'.heap = P.free s.heap b.addr
  | .write l _ _ => Kept (s.live \ {l}) s.heap.mem s'.heap.mem
  | _ => Kept s.live s.heap.mem s'.heap.mem

/-- The call returns, what is live fits and the call has done what it is for. -/
def Contract (s : State π) (a : Act) : Prop :=
  ∃ p s', step P s a = some (p, s') ∧ Held P s' ∧ Served P s p s' a

/-- The states of the runs whose calls fit. -/
inductive Reached (heap : Heap π) : State π → Prop
  | start : Reached heap ⟨heap, ∅⟩
  | next {s a p s'} : Reached heap s → Allowed s.live a → Fits a → step P s a = some (p, s') →
      Reached heap s'

end Runs

/-! ## What is live is behind a header -/

/-- `l` is in `b` behind a header that knows a size that is large enough. -/
structure Bears (m : Nat → UInt8) (b : Block) (l : Live) : Prop where
  ptr : l.ptr = b.addr + headerSize
  size : l.size ≤ word m b.addr
  room : headerSize + word m b.addr ≤ b.size
  small : headerSize + word m b.addr < 2 ^ 64
  magic : word m (b.addr + 8) = allocMagic

structure Inv (bs : Set Block) (m : Nat → UInt8) (live : Set Live) : Prop where
  separate : Separate bs
  bears : ∀ l ∈ live, ∃ b ∈ bs, Bears m b l
  distinct : ∀ l ∈ live, ∀ k ∈ live, l.ptr = k.ptr → l = k

/-- A block with a header for `n` bytes is there besides `bs`, and `p` is behind it. -/
def Placed (bs : Set Block) (n p : Nat) (m : Nat → UInt8) (bs' : Set Block) (m' : Nat → UInt8) :
    Prop :=
  ∃ b, bs' = insert b bs ∧ (∀ c ∈ bs, b.Apart c) ∧ Keeps bs m m' ∧ p = b.addr + headerSize ∧
    headerSize + n ≤ b.size ∧ word m' b.addr = n ∧ word m' (b.addr + 8) = allocMagic

section Headers

variable {bs bs' : Set Block} {b c : Block} {m m' : Nat → UInt8} {l k : Live} {live : Set Live}
  {n p size off : Nat} {d : Bytes}

theorem Keeps.word (h : Keeps bs m m') (hb : b ∈ bs) (hn : n + 8 ≤ b.size) :
    word m' (b.addr + n) = word m (b.addr + n) := by
  refine word_congr fun i hi => ?_
  rw [Nat.add_assoc]
  exact h b hb (n + i) (by omega)

theorem Bears.transfer (h : Bears m b l) (hsize : Alloc.word m' b.addr = Alloc.word m b.addr)
    (hmagic : Alloc.word m' (b.addr + 8) = Alloc.word m (b.addr + 8)) : Bears m' b l := by
  refine ⟨h.ptr, ?_, ?_, ?_, ?_⟩
  · rw [hsize]; exact h.size
  · rw [hsize]; exact h.room
  · rw [hsize]; exact h.small
  · rw [hmagic]; exact h.magic

theorem Bears.keeps (h : Bears m b l) (hk : Keeps bs m m') (hb : b ∈ bs) : Bears m' b l := by
  have hroom := h.room
  unfold headerSize at hroom
  exact h.transfer (Keeps.word (n := 0) hk hb (by omega)) (Keeps.word hk hb (by omega))

theorem Bears.inside (h : Bears m b l) :
    b.addr ≤ l.ptr ∧ l.ptr + l.size ≤ b.addr + b.size := by
  have hptr := h.ptr
  have hsize := h.size
  have hroom := h.room
  omega

/-- What is behind the header of one block is apart from what is behind that of another. -/
theorem Bears.apart (hl : Bears m b l) (hk : Bears m c k) (h : b.Apart c) :
    l.ptr + l.size ≤ k.ptr ∨ k.ptr + k.size ≤ l.ptr := by
  have hlb := hl.inside
  have hkc := hk.inside
  unfold Block.Apart at h
  omega

/-- Blocks that are apart are not at the same address, since a header is in each. -/
theorem Bears.ptr_ne (hl : Bears m b l) (hk : Bears m c k) (h : b.Apart c) : l.ptr ≠ k.ptr := by
  have hlp := hl.ptr
  have hkp := hk.ptr
  have hlr := hl.room
  have hkr := hk.room
  unfold headerSize at hlp hkp hlr hkr
  unfold Block.Apart at h
  omega

theorem Bears.write (h : Bears m b l) :
    Bears (writeMem m (l.ptr + off) d) b l := by
  have hptr := h.ptr
  unfold headerSize at hptr
  refine h.transfer (word_congr fun i hi => ?_) (word_congr fun i hi => ?_)
  · rw [writeMem, if_neg (by omega)]
  · rw [writeMem, if_neg (by omega)]

theorem Inv.mono (h : Inv bs m live) {live' : Set Live} (hs : live' ⊆ live) : Inv bs m live' :=
  ⟨h.separate, fun l hl => h.bears l (hs hl), fun l hl k hk => h.distinct l (hs hl) k (hs hk)⟩

theorem Inv.keeps (h : Inv bs m live) (hk : Keeps bs m m') : Inv bs m' live := by
  refine ⟨h.separate, fun l hl => ?_, h.distinct⟩
  obtain ⟨b, hb, hbears⟩ := h.bears l hl
  exact ⟨b, hb, hbears.keeps hk hb⟩

theorem Inv.kept (h : Inv bs m live) (hk : Keeps bs m m') : Kept live m m' := by
  intro l hl i hi
  obtain ⟨b, hb, hbears⟩ := h.bears l hl
  have hin := hbears.inside
  rw [show l.ptr + i = b.addr + (l.ptr - b.addr + i) by omega]
  exact hk b hb _ (by omega)

/-- Without a block, what is in the others is live still. -/
theorem Inv.remove (h : Inv bs m live) (hl : l ∈ live) (hbears : Bears m b l) :
    Inv (bs \ {b}) m (live \ {l}) := by
  refine ⟨h.separate.mono Set.sdiff_subset, fun k hk => ?_, fun k hk k' hk' =>
    h.distinct k hk.1 k' hk'.1⟩
  obtain ⟨c, hc, hck⟩ := h.bears k hk.1
  refine ⟨c, ⟨hc, fun he => hk.2 ?_⟩, hck⟩
  rw [Set.mem_singleton_iff] at he
  rw [he] at hck
  exact h.distinct k hk.1 l hl (hck.ptr.trans hbears.ptr.symm)

theorem Placed.bears (h : Placed bs n p m bs' m') (hn : headerSize + n < 2 ^ 64)
    (hsize : size ≤ n) : ∃ b, bs' = insert b bs ∧ (∀ c ∈ bs, b.Apart c) ∧ Bears m' b ⟨p, size⟩ := by
  obtain ⟨b, rfl, hapart, -, hp, hroom, hword, hmagic⟩ := h
  refine ⟨b, rfl, hapart, hp, ?_, ?_, ?_, hmagic⟩
  · rw [hword]; exact hsize
  · rw [hword]; exact hroom
  · rw [hword]; exact hn

theorem Placed.keeps (h : Placed bs n p m bs' m') : Keeps bs m m' := by
  obtain ⟨b, -, -, hk, -⟩ := h
  exact hk

theorem Inv.place (h : Inv bs m live) (hp : Placed bs n p m bs' m')
    (hn : headerSize + n < 2 ^ 64) (hsize : size ≤ n) : Inv bs' m' (insert ⟨p, size⟩ live) := by
  have hkeep := h.keeps hp.keeps
  obtain ⟨b, rfl, hapart, hbears⟩ := hp.bears hn hsize
  -- the new block is at no address that is behind an old header
  have hnew : ∀ k ∈ live, p ≠ k.ptr := by
    intro k hk
    obtain ⟨c, hc, hck⟩ := hkeep.bears k hk
    exact hbears.ptr_ne hck (hapart c hc)
  refine ⟨h.separate.insert hapart, fun k hk => ?_, fun k hk k' hk' he => ?_⟩
  · rcases Set.mem_insert_iff.mp hk with rfl | hold
    · exact ⟨b, Set.mem_insert _ _, hbears⟩
    · obtain ⟨c, hc, hck⟩ := hkeep.bears k hold
      exact ⟨c, Set.mem_insert_of_mem _ hc, hck⟩
  · rcases Set.mem_insert_iff.mp hk with rfl | hold
    · rcases Set.mem_insert_iff.mp hk' with rfl | hold'
      · rfl
      · exact absurd he (hnew k' hold')
    · rcases Set.mem_insert_iff.mp hk' with rfl | hold'
      · exact absurd he.symm (hnew k hold)
      · exact h.distinct k hold k' hold' he

/-- Writing behind a header, within the size asked for. -/
theorem Inv.write (h : Inv bs m live) (hl : l ∈ live) (hin : off + d.length ≤ l.size) :
    Inv bs (writeMem m (l.ptr + off) d) live ∧
      Kept (live \ {l}) m (writeMem m (l.ptr + off) d) := by
  obtain ⟨b, hb, hbears⟩ := h.bears l hl
  have hinside := hbears.inside
  have hother : Keeps (bs \ {b}) m (writeMem m (l.ptr + off) d) :=
    keeps_write (by omega) (h.separate.others hb)
  refine ⟨⟨h.separate, fun k hk => ?_, h.distinct⟩, (h.remove hl hbears).kept hother⟩
  by_cases he : k = l
  · rw [he]
    exact ⟨b, hb, hbears.write⟩
  · obtain ⟨c, hc, hck⟩ := (h.remove hl hbears).bears k ⟨hk, he⟩
    exact ⟨c, hc.1, hck.keeps hother hc⟩

end Headers

/-! ## What the calls do -/

section Sound

variable {π : Type} {P : Firmware π} {heap heap' : Heap π} {n p nmemb size : Nat} {b : Block}
  {bs : Set Block} {l : Live} {r : Option Nat × Heap π}

theorem u64_header (h : headerSize + n < 2 ^ 64) : u64 (headerSize + n) = headerSize + n := by
  unfold u64
  exact Nat.mod_eq_of_lt h

/-- A block that has been granted, once the header is written into it. -/
theorem placed_of_granted {g : Heap π} {a : Nat} {m : Nat → UInt8}
    (hg : Granted P bs (headerSize + n) a heap g)
    (hout : ∀ i, i < a ∨ a + headerSize ≤ i → m i = g.mem i)
    (hsize : word m a = n) (hmagic : word m (a + 8) = allocMagic) :
    Placed bs n (a + headerSize) heap.mem (P.blocks g.pool) m := by
  obtain ⟨k, hk, hblocks, hapart, hkeep⟩ := hg
  refine ⟨⟨a, k⟩, hblocks, hapart, fun c hc i hi => ?_, rfl, hk, hsize, hmagic⟩
  have hac := hapart c hc
  unfold Block.Apart at hac
  dsimp only at hac
  rw [hout _ (by omega)]
  exact hkeep c hc i hi

theorem posixMalloc_placed (hP : Sound P) (hn : headerSize + n < 2 ^ 64)
    (h : posixMalloc P n heap = (some p, heap')) :
    Placed (P.blocks heap.pool) n p heap.mem (P.blocks heap'.pool) heap'.mem := by
  unfold posixMalloc at h
  rw [u64_header hn] at h
  split at h
  · cases h
  · rename_i a heap₁ hcall
    cases h
    refine placed_of_granted (g := heap₁) (hP.grants hcall) (fun i hi => ?_) (word_setWord (by omega)) ?_
    · dsimp only [headerSize] at hi ⊢
      rw [setWord_of_outside (by omega), setWord_of_outside (by omega)]
    · rw [word_setWord_of_apart (by omega), word_setWord (by decide)]

theorem posixMalloc_refused (hP : Sound P) (h : posixMalloc P n heap = (none, heap')) :
    P.blocks heap'.pool = P.blocks heap.pool ∧
      Keeps (P.blocks heap.pool) heap.mem heap'.mem := by
  unfold posixMalloc at h
  split at h
  · rename_i heap₁ hcall
    cases h
    exact hP.refuses hcall
  · cases h

/-- The block is zero behind its header. -/
theorem posixCalloc_placed (hP : Sound P) (hn : headerSize + (nmemb + size) < 2 ^ 64)
    (h : posixCalloc P nmemb size heap = (some p, heap')) :
    Placed (P.blocks heap.pool) (nmemb + size) p heap.mem (P.blocks heap'.pool) heap'.mem ∧
      ∀ i < nmemb + size, heap'.mem (p + i) = 0 := by
  have hu : u64 (nmemb + size) = nmemb + size := by
    unfold u64
    exact Nat.mod_eq_of_lt (by omega)
  unfold posixCalloc at h
  dsimp only at h
  rw [hu] at h
  split at h
  · cases h
  · rename_i a heap₁ hcall
    cases h
    obtain ⟨b, hblocks, hapart, hkeep, rfl, hroom, hword, hmagic⟩ := posixMalloc_placed hP hn hcall
    have hlength : (List.replicate (nmemb + size) (0 : UInt8)).length = nmemb + size :=
      List.length_replicate
    have hbears : Bears heap₁.mem b ⟨b.addr + headerSize, 0⟩ := by
      refine ⟨rfl, Nat.zero_le _, ?_, ?_, hmagic⟩
      · rw [hword]; exact hroom
      · rw [hword]; exact hn
    have hzero : Keeps (P.blocks heap.pool) heap₁.mem
        (writeMem heap₁.mem (b.addr + headerSize) (List.replicate (nmemb + size) 0)) :=
      keeps_write (by omega) hapart
    refine ⟨⟨b, hblocks, hapart, hkeep.trans hzero, rfl, hroom, ?_, ?_⟩, fun i hi => ?_⟩
    · refine (word_congr fun i hi => ?_).trans hword
      dsimp only [headerSize]
      rw [writeMem, if_neg (by omega)]
    · refine (word_congr fun i hi => ?_).trans hmagic
      dsimp only [headerSize]
      rw [writeMem, if_neg (by omega)]
    · dsimp only
      rw [writeMem, if_pos (by omega), byteAt_replicate]

theorem posixCalloc_refused (hP : Sound P) (h : posixCalloc P nmemb size heap = (none, heap')) :
    P.blocks heap'.pool = P.blocks heap.pool ∧
      Keeps (P.blocks heap.pool) heap.mem heap'.mem := by
  unfold posixCalloc at h
  dsimp only at h
  split at h
  · rename_i heap₁ hcall
    cases h
    exact posixMalloc_refused hP hcall
  · cases h

/-- What a reallocation of `b` with a header for `old` bytes does. -/
def Moves (P : Firmware π) (b : Block) (size : Nat) (heap : Heap π) (r : Option Nat × Heap π) :
    Prop :=
  match r with
  | (none, heap') => (P.blocks heap'.pool = P.blocks heap.pool ∨
      P.blocks heap'.pool = P.blocks heap.pool \ {b}) ∧
        Keeps (P.blocks heap'.pool) heap.mem heap'.mem
  | (some p, heap') =>
    Placed (P.blocks heap.pool \ {b}) size p heap.mem (P.blocks heap'.pool) heap'.mem ∧
      ∀ i < min (word heap.mem b.addr) size,
        heap'.mem (p + i) = heap.mem (b.addr + headerSize + i)

theorem posixRealloc_some (hP : Sound P) (hb : b ∈ P.blocks heap.pool)
    (hbears : Bears heap.mem b l) (hn : headerSize + size < 2 ^ 64) :
    ∃ r, posixRealloc P (some l.ptr) size heap = some r ∧ Moves P b size heap r := by
  have hptr : l.ptr - headerSize = b.addr := by rw [hbears.ptr, Nat.add_sub_cancel]
  unfold posixRealloc
  dsimp only
  rw [hptr, if_neg (not_not.mpr hbears.magic), u64_header hbears.small, u64_header hn]
  split
  · rename_i heap₁ hcall
    exact ⟨_, rfl, hP.fails hb hbears.room hcall⟩
  · rename_i a heap₁ hcall
    obtain ⟨hgrant, hcopy⟩ := hP.moves hb hbears.room hcall
    -- the magic number is among the bytes that are copied
    have hmagic : word heap₁.mem (a + 8) = allocMagic := by
      refine (word_congr fun i hi => ?_).trans hbears.magic
      rw [Nat.add_assoc, Nat.add_assoc]
      exact hcopy (8 + i) (by unfold headerSize; omega)
    rw [if_neg (not_not.mpr hmagic)]
    refine ⟨_, rfl, ?_, fun i hi => ?_⟩
    · refine placed_of_granted (g := heap₁) hgrant (fun i hi => ?_) (word_setWord (by omega)) ?_
      · dsimp only [headerSize] at hi ⊢
        rw [setWord_of_outside (by omega)]
      · rw [word_setWord_of_apart (by omega), hmagic]
    · dsimp only
      rw [setWord_of_outside (by unfold headerSize; omega), Nat.add_assoc, Nat.add_assoc]
      exact hcopy (headerSize + i) (by omega)

theorem posixFree_some (hbears : Bears heap.mem b l) :
    posixFree P (some l.ptr) heap = P.free heap b.addr := by
  have hptr : l.ptr - headerSize = b.addr := by rw [hbears.ptr, Nat.add_sub_cancel]
  unfold posixFree
  dsimp only
  rw [hptr, if_pos hbears.magic]

end Sound

/-! ## Runs keep the contract -/

section Runs

variable {π : Type} {P : Firmware π} {heap : Heap π} {s s' : State π} {a : Act} {p : Option Nat}
  {n size : Nat} {l : Live} {r : Option Nat × Heap π}

def Valid (P : Firmware π) (s : State π) : Prop :=
  Inv (P.blocks s.heap.pool) s.heap.mem s.live

theorem Valid.held (h : Valid P s) : Held P s := by
  refine ⟨fun l hl => ?_, fun l hl k hk hne => ?_⟩
  · obtain ⟨b, hb, hbears⟩ := h.bears l hl
    exact ⟨b, hb, hbears.inside⟩
  · obtain ⟨b, hb, hbl⟩ := h.bears l hl
    obtain ⟨c, hc, hck⟩ := h.bears k hk
    by_cases he : b = c
    · rw [← he] at hck
      exact absurd (h.distinct l hl k hk (hbl.ptr.trans hck.ptr.symm)) hne
    · exact hbl.apart hck (h.separate hb hc he)

/-- The two results of an allocation: the header is placed, or nothing has changed. -/
def Allocates (P : Firmware π) (n : Nat) (heap : Heap π) (r : Option Nat × Heap π) : Prop :=
  match r with
  | (none, heap') => P.blocks heap'.pool = P.blocks heap.pool ∧
      Keeps (P.blocks heap.pool) heap.mem heap'.mem
  | (some p, heap') =>
    Placed (P.blocks heap.pool) n p heap.mem (P.blocks heap'.pool) heap'.mem

theorem posixMalloc_allocates (hP : Sound P) (hn : headerSize + n < 2 ^ 64) :
    Allocates P n heap (posixMalloc P n heap) := by
  rcases h : posixMalloc P n heap with ⟨_ | p, heap'⟩
  · exact posixMalloc_refused hP h
  · exact posixMalloc_placed hP hn h

theorem granted_valid (h : Valid P s) (hr : Allocates P n s.heap r)
    (hn : headerSize + n < 2 ^ 64) (hsize : size ≤ n) :
    Valid P (granted s.live size r).2 ∧
      Kept s.live s.heap.mem (granted s.live size r).2.heap.mem := by
  rcases r with ⟨_ | p, heap'⟩
  · obtain ⟨hblocks, hkeep⟩ := hr
    refine ⟨?_, h.kept hkeep⟩
    unfold Valid granted
    dsimp only
    rw [hblocks]
    exact h.keeps hkeep
  · exact ⟨h.place hr hn hsize, h.kept hr.keeps⟩

theorem calloc_serves {nmemb : Nat} (hP : Sound P) (h : Valid P s)
    (hf : Fits (.calloc nmemb size)) :
    ∃ p s', step P s (.calloc nmemb size) = some (p, s') ∧ Valid P s' ∧
      Served P s p s' (.calloc nmemb size) := by
  obtain ⟨hle, hn⟩ := hf
  refine ⟨_, _, rfl, ?_⟩
  rcases hcall : posixCalloc P nmemb size s.heap with ⟨_ | p, heap'⟩
  · obtain ⟨hvalid, hkept⟩ := granted_valid (r := (none, heap')) h
      (posixCalloc_refused hP hcall) hn hle
    exact ⟨hvalid, hkept, fun a ha => by cases ha⟩
  · obtain ⟨hplaced, hzero⟩ := posixCalloc_placed hP hn hcall
    obtain ⟨hvalid, hkept⟩ := granted_valid (r := (some p, heap')) h hplaced hn hle
    refine ⟨hvalid, hkept, fun a ha i hi => ?_⟩
    cases ha
    exact hzero i (by omega)

theorem realloc_serves (hP : Sound P) (h : Valid P s) (hl : l ∈ s.live)
    (hn : headerSize + size < 2 ^ 64) :
    ∃ p s', step P s (.realloc (some l) size) = some (p, s') ∧ Valid P s' ∧
      Served P s p s' (.realloc (some l) size) := by
  obtain ⟨b, hb, hbears⟩ := h.bears l hl
  obtain ⟨r, hcall, hmoves⟩ := posixRealloc_some hP hb hbears hn
  have hrest := h.remove hl hbears
  refine ⟨(reallocated P s l size r).1, (reallocated P s l size r).2, ?_, ?_⟩
  · rw [step, hcall]
    rfl
  · rcases r with ⟨_ | p, heap'⟩
    · obtain ⟨hkept | hgone, hkeep⟩ := hmoves
      · -- the block is there still
        rw [hkept] at hkeep
        have hall : Kept s.live s.heap.mem heap'.mem := h.kept hkeep
        refine ⟨?_, fun k hk => hall k hk.1, fun _ k hk => hall k hk.1, fun a ha => by cases ha⟩
        unfold Valid reallocated
        dsimp only
        rw [hkept]
        exact (h.keeps hkeep).mono fun k hk => hk.1
      · rw [hgone] at hkeep
        have hne : P.blocks heap'.pool ≠ P.blocks s.heap.pool := by
          intro he
          rw [← he, hgone] at hb
          exact hb.2 rfl
        have hlive : (reallocated P s l size (none, heap')).2.live ⊆ s.live \ {l} :=
          fun k hk => ⟨hk.1, fun he => hne (hk.2 he)⟩
        have hothers : Kept (s.live \ {l}) s.heap.mem heap'.mem := hrest.kept hkeep
        refine ⟨?_, hothers, fun _ k hk => hothers k (hlive hk), fun a ha => by cases ha⟩
        unfold Valid
        rw [show P.blocks (reallocated P s l size (none, heap')).2.heap.pool =
          P.blocks s.heap.pool \ {b} from hgone]
        exact (hrest.keeps hkeep).mono hlive
    · obtain ⟨hplaced, hcopy⟩ := hmoves
      refine ⟨hrest.place hplaced hn (Nat.le_refl _), hrest.kept hplaced.keeps,
        fun hp => (by cases hp), fun a ha i hi => ?_⟩
      cases ha
      have hsize := hbears.size
      rw [hbears.ptr]
      exact hcopy i (by omega)

theorem free_serves (hP : Sound P) (h : Valid P s) (hl : l ∈ s.live) :
    ∃ p s', step P s (.free (some l)) = some (p, s') ∧ Valid P s' ∧
      Served P s p s' (.free (some l)) := by
  obtain ⟨b, hb, hbears⟩ := h.bears l hl
  have hrest := h.remove hl hbears
  obtain ⟨hblocks, hkeep⟩ := hP.frees hb
  refine ⟨none, ⟨P.free s.heap b.addr, s.live \ {l}⟩, ?_, ?_, hrest.kept hkeep, b, hb,
    hbears.inside.1, hbears.inside.2, rfl⟩
  · rw [step, posixFree_some hbears]
  · unfold Valid
    dsimp only
    rw [hblocks]
    exact hrest.keeps hkeep

/-- Each call that is allowed and fits returns, and keeps what the blocks rely on. -/
theorem Valid.serves (hP : Sound P) (h : Valid P s) (ha : Allowed s.live a) (hf : Fits a) :
    ∃ p s', step P s a = some (p, s') ∧ Valid P s' ∧ Served P s p s' a := by
  cases a with
  | malloc size =>
    exact ⟨_, _, rfl, granted_valid h (posixMalloc_allocates hP hf) hf (Nat.le_refl _)⟩
  | calloc nmemb size => exact calloc_serves hP h hf
  | realloc l size =>
    cases l with
    | none => exact ⟨_, _, rfl, granted_valid h (posixMalloc_allocates hP hf) hf (Nat.le_refl _)⟩
    | some l => exact realloc_serves hP h ha hf
  | free l =>
    cases l with
    | none => exact ⟨_, _, rfl, h, fun _ _ _ _ => rfl⟩
    | some l => exact free_serves hP h ha
  | write l off data =>
    obtain ⟨hvalid, hkept⟩ := h.write ha.1 ha.2
    exact ⟨_, _, rfl, hvalid, hkept⟩

theorem Reached.valid (hP : Sound P) (hs : Separate (P.blocks heap.pool))
    (h : Reached P heap s) : Valid P s := by
  induction h with
  | start => exact ⟨hs, fun _ hl => absurd hl (Set.notMem_empty _), fun _ hl =>
      absurd hl (Set.notMem_empty _)⟩
  | next _ ha hf hstep ih =>
    obtain ⟨p, t, hstep', hvalid, -⟩ := ih.serves hP ha hf
    rw [hstep] at hstep'
    cases hstep'
    exact hvalid

end Runs

/-! ## A pool that goes upwards -/

structure Bump where
  next : Nat
  sizes : Nat → Option Nat
  below : ∀ a k, sizes a = some k → a < next ∧ a + k ≤ next

theorem below_grant (b : Bump) (n : Nat) (a k : Nat)
    (h : Function.update b.sizes b.next (some (max n 1)) a = some k) :
    a < b.next + max n 1 ∧ a + k ≤ b.next + max n 1 := by
  by_cases he : a = b.next
  · rw [he, Function.update_self] at h
    cases h
    omega
  · rw [Function.update_of_ne he] at h
    have hb := b.below a k h
    omega

theorem below_drop (b : Bump) (x a k : Nat) (h : Function.update b.sizes x none a = some k) :
    a < b.next ∧ a + k ≤ b.next := by
  by_cases he : a = x
  · rw [he, Function.update_self] at h
    cases h
  · rw [Function.update_of_ne he] at h
    exact b.below a k h

def Bump.grant (b : Bump) (n : Nat) : Bump :=
  ⟨b.next + max n 1, Function.update b.sizes b.next (some (max n 1)), below_grant b n⟩

def Bump.drop (b : Bump) (a : Nat) : Bump := ⟨b.next, Function.update b.sizes a none, below_drop b a⟩

def bump : Firmware Bump where
  blocks b := {c | b.sizes c.addr = some c.size}
  allocate h n := (some h.pool.next, ⟨h.mem, h.pool.grant n⟩)
  free h a := ⟨h.mem, h.pool.drop a⟩
  reallocate h a old new := (some h.pool.next,
    ⟨writeMem h.mem h.pool.next (readMem h.mem a (min old new)), (h.pool.drop a).grant new⟩)

/-- Nothing has been handed out yet. -/
def freshHeap : Heap Bump := ⟨fun _ => 255, ⟨4096, fun _ => none, fun _ _ h => nomatch h⟩⟩

section Bump

variable {b : Bump} {c : Block} {n : Nat}

theorem mem_bump : c ∈ bump.blocks b ↔ b.sizes c.addr = some c.size := Iff.rfl

theorem bump_grant : bump.blocks (b.grant n) = insert ⟨b.next, max n 1⟩ (bump.blocks b) := by
  ext ⟨a, k⟩
  rw [Set.mem_insert_iff, mem_bump, mem_bump, Block.mk.injEq]
  dsimp only [Bump.grant]
  by_cases he : a = b.next
  · have hnone : b.sizes b.next ≠ some k := fun h => absurd (b.below _ _ h).1 (Nat.lt_irrefl _)
    rw [he, Function.update_self, Option.some.injEq]
    constructor
    · rintro rfl
      exact .inl ⟨rfl, rfl⟩
    · rintro (⟨-, rfl⟩ | h)
      · rfl
      · exact absurd h hnone
  · rw [Function.update_of_ne he]
    constructor
    · exact .inr
    · rintro (⟨h, -⟩ | h)
      · exact absurd h he
      · exact h

theorem bump_drop (h : c ∈ bump.blocks b) :
    bump.blocks (b.drop c.addr) = bump.blocks b \ {c} := by
  obtain ⟨a, k⟩ := c
  rw [mem_bump] at h
  ext ⟨a', k'⟩
  rw [Set.mem_sdiff, Set.mem_singleton_iff, mem_bump, mem_bump, Block.mk.injEq]
  dsimp only [Bump.drop] at h ⊢
  by_cases he : a' = a
  · rw [he, Function.update_self, h, Option.some.injEq]
    exact ⟨fun h => (nomatch h), fun ⟨hk, hne⟩ => absurd ⟨rfl, hk.symm⟩ hne⟩
  · rw [Function.update_of_ne he]
    exact ⟨fun h => ⟨h, fun hh => he hh.1⟩, fun h => h.1⟩

theorem bump_apart (h : c ∈ bump.blocks b) : Block.Apart ⟨b.next, n⟩ c :=
  .inr (b.below _ _ h).2

theorem bump_sound : Sound bump where
  refuses h := nomatch h
  fails _ _ h := nomatch h
  grants h := by
    cases h
    exact ⟨_, Nat.le_max_left _ _, bump_grant, fun _ => bump_apart, fun _ _ _ _ => rfl⟩
  frees h := ⟨bump_drop h, fun _ _ _ _ => rfl⟩
  moves {h b old new a h'} hb _ hcall := by
    cases hcall
    have hbelow := h.pool.below _ _ hb
    refine ⟨⟨_, Nat.le_max_left new 1, ?_, fun c hc => bump_apart hc.1, fun c hc i hi => ?_⟩,
      fun i hi => ?_⟩
    · rw [← bump_drop hb]
      exact bump_grant
    · have hc' := h.pool.below _ _ hc.1
      dsimp only
      rw [writeMem, if_neg (by omega)]
    · dsimp only
      rw [writeMem, if_pos, Nat.add_sub_cancel_left, byteAt_readMem hi]
      rw [length_readMem]
      omega

theorem freshHeap_separate : Separate (bump.blocks freshHeap.pool) := fun _ h => nomatch h

end Bump

/-! ## The contract -/

/-- In every run whose calls fit, what is live fits into the blocks of the pool, and each further
call that is allowed and fits keeps the contract. -/
theorem contract_of_fits {π : Type} {P : Firmware π} (hP : Sound P) {heap : Heap π}
    (hs : Separate (P.blocks heap.pool)) {s : State π} (h : Reached P heap s) :
    Held P s ∧ ∀ a, Allowed s.live a → Fits a → Contract P s a := by
  have hvalid := h.valid hP hs
  refine ⟨hvalid.held, fun a ha hf => ?_⟩
  obtain ⟨p, s', hstep, hvalid', hserved⟩ := hvalid.serves hP ha hf
  exact ⟨p, s', hstep, hvalid'.held, hserved⟩

/-- After an allocation, twice two bytes. -/
theorem contract_twoByTwo : Contract bump
    (granted ∅ 10 (posixMalloc bump 10 freshHeap)).2 (.calloc 2 2) :=
  (contract_of_fits bump_sound freshHeap_separate
    (Reached.next (a := .malloc 10) .start trivial
      (show headerSize + 10 < 2 ^ 64 by decide) rfl)).2
    (.calloc 2 2) trivial ⟨by decide, by decide⟩

/-- Of three times three bytes only six are there. -/
theorem calloc_short : Sound bump ∧ Separate (bump.blocks freshHeap.pool) ∧
    ¬ Contract bump ⟨freshHeap, ∅⟩ (.calloc 3 3) := by
  refine ⟨bump_sound, freshHeap_separate, ?_⟩
  rintro ⟨p, s', hstep, hheld, -⟩
  have hn : u64 (headerSize + u64 (3 + 3)) = 22 := by
    unfold u64
    rfl
  unfold step posixCalloc posixMalloc at hstep
  dsimp only at hstep
  rw [hn] at hstep
  cases hstep
  obtain ⟨⟨a, k⟩, hb, hlow, hhigh⟩ := hheld.inside ⟨4096 + headerSize, 3 * 3⟩ (Set.mem_insert _ _)
  dsimp only [headerSize] at hlow hhigh
  have hblock : (freshHeap.pool.grant 22).sizes a = some k := hb
  unfold Bump.grant at hblock
  dsimp only [freshHeap] at hblock
  by_cases he : a = 4096
  · rw [he, Function.update_self] at hblock
    cases hblock
    omega
  · rw [Function.update_of_ne he] at hblock
    cases hblock

end LsvmTools.Posix.Alloc
