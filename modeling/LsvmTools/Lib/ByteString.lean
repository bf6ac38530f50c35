import Mathlib

/-! # Byte strings and byte-addressed memory

A C struct is the bytes it occupies: its fields are little-endian words read
at fixed offsets and updated by splicing, so two fields at different offsets
never interfere. A memory is a function from addresses to bytes; a range of
it is read as a byte string and overwritten by one. -/
namespace LsvmTools.Lib.ByteString

abbrev Bytes := List UInt8

/-! ## Fixed-width arithmetic

The widths are irreducible: unification never computes with 2^32. -/

@[irreducible] def u16 (n : Nat) : Nat := n % 2 ^ 16

@[irreducible] def u32 (n : Nat) : Nat := n % 2 ^ 32

@[irreducible] def u64 (n : Nat) : Nat := n % 2 ^ 64

theorem u16_of_lt {n : Nat} (h : n < 2 ^ 16) : u16 n = n := by
  unfold u16; exact Nat.mod_eq_of_lt h

theorem u32_of_lt {n : Nat} (h : n < 2 ^ 32) : u32 n = n := by
  unfold u32; exact Nat.mod_eq_of_lt h

theorem u32_lt (n : Nat) : u32 n < 2 ^ 32 := by
  unfold u32; exact Nat.mod_lt _ (by decide)

theorem u32_le (n : Nat) : u32 n ≤ n := by
  unfold u32; exact Nat.mod_le _ _

/-! ## Indexing, splicing and words -/

def byteAt (d : Bytes) (i : Nat) : UInt8 := d.getD i 0

theorem take_of_length {a b : Bytes} {n : Nat} (h : a.length = n) : (a ++ b).take n = a := by
  rw [← h, List.take_left]

theorem drop_of_length {a b : Bytes} {n : Nat} (h : a.length = n) : (a ++ b).drop n = b := by
  rw [← h, List.drop_left]

/-- Overwrite `b.length` bytes of `d` from offset `off` on. -/
def splice (d : Bytes) (off : Nat) (b : Bytes) : Bytes :=
  d.take off ++ b ++ d.drop (off + b.length)

def le16 (d : Bytes) (off : Nat) : Nat :=
  (byteAt d off).toNat + 256 * (byteAt d (off + 1)).toNat

def le32 (d : Bytes) (off : Nat) : Nat := le16 d off + 65536 * le16 d (off + 2)

def enc16 (v : Nat) : Bytes := [UInt8.ofNat v, UInt8.ofNat (v / 256)]

def enc32 (v : Nat) : Bytes := enc16 v ++ enc16 (v / 65536)

def put16 (d : Bytes) (off v : Nat) : Bytes := splice d off (enc16 v)

def put32 (d : Bytes) (off v : Nat) : Bytes := splice d off (enc32 v)

@[simp] theorem byteAt_nil (i : Nat) : byteAt [] i = 0 := by simp [byteAt]

theorem byteAt_eq_getElem {d : Bytes} {i : Nat} (h : i < d.length) : byteAt d i = d[i] := by
  simp [byteAt, h]

theorem byteAt_of_length_le {d : Bytes} {i : Nat} (h : d.length ≤ i) : byteAt d i = 0 := by
  simp [byteAt, h]

theorem byteAt_append (a b : Bytes) (i : Nat) :
    byteAt (a ++ b) i = if i < a.length then byteAt a i else byteAt b (i - a.length) := by
  unfold byteAt
  split
  · rename_i h; exact List.getD_append _ _ _ _ h
  · rename_i h; exact List.getD_append_right _ _ _ _ (by omega)

theorem byteAt_take (d : Bytes) (n i : Nat) :
    byteAt (d.take n) i = if i < n then byteAt d i else 0 := by
  simp only [byteAt, List.getD_eq_getElem?_getD, List.getElem?_take]
  split <;> simp

theorem byteAt_drop (d : Bytes) (n i : Nat) : byteAt (d.drop n) i = byteAt d (n + i) := by
  simp [byteAt, List.getD_eq_getElem?_getD, List.getElem?_drop]

theorem byteAt_replicate (n i : Nat) : byteAt (List.replicate n 0) i = 0 := by
  simp only [byteAt, List.getD_eq_getElem?_getD, List.getElem?_replicate]
  split <;> simp

/-- Byte strings of one length with the same bytes are equal. -/
theorem ext_byteAt {a b : Bytes} (hl : a.length = b.length)
    (h : ∀ i, i < a.length → byteAt a i = byteAt b i) : a = b := by
  apply List.ext_getElem hl
  intro i ha hb
  rw [← byteAt_eq_getElem ha, ← byteAt_eq_getElem hb]
  exact h i ha

theorem length_splice {d b : Bytes} {off : Nat} (h : off + b.length ≤ d.length) :
    (splice d off b).length = d.length := by
  simp [splice]; omega

theorem byteAt_splice {d b : Bytes} {off : Nat} (h : off + b.length ≤ d.length) (i : Nat) :
    byteAt (splice d off b) i =
      if off ≤ i ∧ i < off + b.length then byteAt b (i - off) else byteAt d i := by
  simp only [splice, byteAt_append, byteAt_take, byteAt_drop, List.length_append,
    List.length_take]
  have hm : min off d.length = off := by omega
  rw [hm]
  by_cases h1 : i < off
  · simp [h1, show i < off + b.length by omega, show ¬ off ≤ i by omega]
  · by_cases h2 : i < off + b.length
    · simp [h1, h2, show off ≤ i by omega]
    · simp only [h2, if_false, and_false]
      congr 1; omega

theorem splice_nil (d : Bytes) (off : Nat) : splice d off [] = d := by simp [splice]

theorem splice_all {d b : Bytes} (h : b.length = d.length) : splice d 0 b = b := by
  simp [splice, h]

theorem take_splice {d b : Bytes} {off n : Nat} (h : off + b.length ≤ d.length) (hn : n ≤ off) :
    (splice d off b).take n = d.take n := by
  have hl : n ≤ (d.take off).length := by simp; omega
  simp only [splice, List.append_assoc]
  rw [List.take_append_of_le_length hl, List.take_take, Nat.min_eq_left hn]

@[simp] theorem length_enc16 (v : Nat) : (enc16 v).length = 2 := rfl

@[simp] theorem length_enc32 (v : Nat) : (enc32 v).length = 4 := rfl

theorem length_put16 {d : Bytes} {off v : Nat} (h : off + 2 ≤ d.length) :
    (put16 d off v).length = d.length := length_splice h

theorem length_put32 {d : Bytes} {off v : Nat} (h : off + 4 ≤ d.length) :
    (put32 d off v).length = d.length := length_splice h

theorem le16_lt (d : Bytes) (off : Nat) : le16 d off < 2 ^ 16 := by
  have h1 := (byteAt d off).toNat_lt
  have h2 := (byteAt d (off + 1)).toNat_lt
  unfold le16; omega

theorem le32_lt (d : Bytes) (off : Nat) : le32 d off < 2 ^ 32 := by
  have h1 := le16_lt d off
  have h2 := le16_lt d (off + 2)
  unfold le32; omega

theorem le16_congr {a b : Bytes} {i j : Nat}
    (h : ∀ k, k < 2 → byteAt a (i + k) = byteAt b (j + k)) : le16 a i = le16 b j := by
  simp only [le16, h 1 (by omega)]
  rw [show byteAt a i = byteAt b j by simpa using h 0 (by omega)]

theorem le32_congr {a b : Bytes} {i j : Nat}
    (h : ∀ k, k < 4 → byteAt a (i + k) = byteAt b (j + k)) : le32 a i = le32 b j := by
  have h1 : le16 a i = le16 b j := le16_congr fun k hk => h k (by omega)
  have h2 : le16 a (i + 2) = le16 b (j + 2) := le16_congr fun k hk => by
    rw [Nat.add_assoc, Nat.add_assoc]; exact h (2 + k) (by omega)
  simp [le32, h1, h2]

theorem le16_enc16 (v : Nat) : le16 (enc16 v) 0 = u16 v := by
  simp only [le16, enc16, byteAt, u16, List.getD_cons_zero, List.getD_cons_succ, Nat.zero_add,
    UInt8.toNat_ofNat']
  omega

theorem le32_enc32 (v : Nat) : le32 (enc32 v) 0 = u32 v := by
  simp only [le32, le16, enc32, enc16, byteAt, u32, List.cons_append, List.nil_append,
    List.getD_cons_zero, List.getD_cons_succ, Nat.zero_add, UInt8.toNat_ofNat']
  omega

theorem le16_splice {d b : Bytes} {off : Nat} (h : off + b.length ≤ d.length) {i : Nat}
    (hd : i + 2 ≤ off ∨ off + b.length ≤ i) : le16 (splice d off b) i = le16 d i := by
  apply le16_congr
  intro k hk
  rw [byteAt_splice h, if_neg (by omega)]

theorem le32_splice {d b : Bytes} {off : Nat} (h : off + b.length ≤ d.length) {i : Nat}
    (hd : i + 4 ≤ off ∨ off + b.length ≤ i) : le32 (splice d off b) i = le32 d i := by
  apply le32_congr
  intro k hk
  rw [byteAt_splice h, if_neg (by omega)]

theorem le16_splice_inside {d b : Bytes} {off : Nat} (h : off + b.length ≤ d.length) {i : Nat}
    (hi : off ≤ i) (hb : i + 2 ≤ off + b.length) : le16 (splice d off b) i = le16 b (i - off) := by
  apply le16_congr
  intro k hk
  rw [byteAt_splice h, if_pos (by omega)]
  congr 1; omega

theorem le32_splice_inside {d b : Bytes} {off : Nat} (h : off + b.length ≤ d.length) {i : Nat}
    (hi : off ≤ i) (hb : i + 4 ≤ off + b.length) : le32 (splice d off b) i = le32 b (i - off) := by
  apply le32_congr
  intro k hk
  rw [byteAt_splice h, if_pos (by omega)]
  congr 1; omega

theorem le16_put16 {d : Bytes} {off v : Nat} (h : off + 2 ≤ d.length) :
    le16 (put16 d off v) off = u16 v := by
  have hi := le16_splice_inside (d := d) (b := enc16 v) h (Nat.le_refl off) (by simp)
  rw [put16, hi, Nat.sub_self]
  exact le16_enc16 v

theorem le32_put32 {d : Bytes} {off v : Nat} (h : off + 4 ≤ d.length) :
    le32 (put32 d off v) off = u32 v := by
  have hi := le32_splice_inside (d := d) (b := enc32 v) h (Nat.le_refl off) (by simp)
  rw [put32, hi, Nat.sub_self]
  exact le32_enc32 v

theorem le32_append_left {a b : Bytes} {i : Nat} (h : i + 4 ≤ a.length) :
    le32 (a ++ b) i = le32 a i := by
  apply le32_congr
  intro k hk
  rw [byteAt_append, if_pos (by omega)]

theorem le32_append_right {a b : Bytes} {i : Nat} (h : a.length ≤ i) :
    le32 (a ++ b) i = le32 b (i - a.length) := by
  apply le32_congr
  intro k hk
  rw [byteAt_append, if_neg (by omega)]
  congr 1; omega

theorem le32_enc32_append (v : Nat) (b : Bytes) : le32 (enc32 v ++ b) 0 = u32 v := by
  rw [le32_append_left (by simp), le32_enc32]

theorem le32_skip (v : Nat) (b : Bytes) (i : Nat) : le32 (enc32 v ++ b) (i + 4) = le32 b i := by
  rw [le32_append_right (by simp), length_enc32, Nat.add_sub_cancel]

theorem le16_take {d : Bytes} {i n : Nat} (h : i + 2 ≤ n) : le16 (d.take n) i = le16 d i := by
  apply le16_congr
  intro k hk
  rw [byteAt_take, if_pos (by omega)]

theorem le32_take {d : Bytes} {i n : Nat} (h : i + 4 ≤ n) : le32 (d.take n) i = le32 d i := by
  apply le32_congr
  intro k hk
  rw [byteAt_take, if_pos (by omega)]

theorem le16_append_left {a b : Bytes} {i : Nat} (h : i + 2 ≤ a.length) :
    le16 (a ++ b) i = le16 a i := by
  apply le16_congr
  intro k hk
  rw [byteAt_append, if_pos (by omega)]

theorem le16_append_right {a b : Bytes} {i : Nat} (h : a.length ≤ i) :
    le16 (a ++ b) i = le16 b (i - a.length) := by
  apply le16_congr
  intro k hk
  rw [byteAt_append, if_neg (by omega), show i + k - a.length = i - a.length + k by omega]

/-! ## Arrays of 32-bit words -/

/-- A byte string read as an array of 32-bit words. -/
def words (d : Bytes) : List Nat := (List.range (d.length / 4)).map fun i => le32 d (4 * i)

def encWords (ws : List Nat) : Bytes := ws.flatMap enc32

@[simp] theorem length_encWords (ws : List Nat) : (encWords ws).length = 4 * ws.length := by
  induction ws with
  | nil => rfl
  | cons w ws ih =>
    have h : (encWords (w :: ws)).length = 4 + (encWords ws).length := by simp [encWords]
    rw [h, ih, List.length_cons]; omega

theorem length_words (d : Bytes) : (words d).length = d.length / 4 := by simp [words]

theorem words_cons (w : Nat) (d : Bytes) : words (enc32 w ++ d) = u32 w :: words d := by
  have hl : (enc32 w ++ d).length / 4 = d.length / 4 + 1 := by
    rw [List.length_append, length_enc32]; omega
  simp only [words, hl, List.range_succ_eq_map, List.map_cons, List.map_map, Nat.mul_zero]
  rw [le32_append_left (by simp), le32_enc32]
  congr 1

theorem words_replicate (n : Nat) : words (List.replicate n 0) = List.replicate (n / 4) 0 := by
  apply List.ext_getElem
  · simp [length_words]
  · intro i h1 h2
    simp [words, le32, le16, byteAt_replicate]

/-- Words survive being stored, whatever padding follows them. -/
theorem words_encWords_append (ws : List Nat) (d : Bytes) (h : ∀ w ∈ ws, w < 2 ^ 32) :
    words (encWords ws ++ d) = ws ++ words d := by
  induction ws with
  | nil => simp [encWords]
  | cons w ws ih =>
    have he : encWords (w :: ws) ++ d = enc32 w ++ (encWords ws ++ d) := by
      simp [encWords]
    rw [he, words_cons, u32_of_lt (h w (by simp)), ih fun x hx => h x (by simp [hx])]
    rfl

/-! ## Memory -/

/-- The bytes of `m` in the range `[off, off + n)`. -/
def readMem (m : Nat → UInt8) (off n : Nat) : Bytes := (List.range' off n).map m

def writeMem (m : Nat → UInt8) (off : Nat) (b : Bytes) : Nat → UInt8 := fun a =>
  if off ≤ a ∧ a < off + b.length then byteAt b (a - off) else m a

@[simp] theorem length_readMem (m : Nat → UInt8) (off n : Nat) : (readMem m off n).length = n := by
  simp [readMem]

@[simp] theorem readMem_zero (m : Nat → UInt8) (off : Nat) : readMem m off 0 = [] := rfl

theorem byteAt_readMem {m : Nat → UInt8} {off n i : Nat} (h : i < n) :
    byteAt (readMem m off n) i = m (off + i) := by
  rw [byteAt_eq_getElem (by simpa using h)]
  simp [readMem]

theorem readMem_append (m : Nat → UInt8) (off n k : Nat) :
    readMem m off (n + k) = readMem m off n ++ readMem m (off + n) k := by
  simp only [readMem, ← List.range'_append_1, List.map_append]

theorem readMem_congr {m m' : Nat → UInt8} {off n : Nat}
    (h : ∀ a, off ≤ a → a < off + n → m a = m' a) : readMem m off n = readMem m' off n := by
  apply List.map_congr_left
  intro a ha
  rw [List.mem_range'_1] at ha
  exact h a ha.1 ha.2

theorem readMem_take (m : Nat → UInt8) (off n k : Nat) :
    (readMem m off n).take k = readMem m off (min k n) := by
  rcases Nat.le_total k n with h | h
  · obtain ⟨j, rfl⟩ := Nat.exists_eq_add_of_le h
    rw [readMem_append, List.take_left' (by simp), Nat.min_eq_left (by omega)]
  · rw [List.take_of_length_le (by simpa using h), Nat.min_eq_right h]

theorem readMem_drop (m : Nat → UInt8) (off n k : Nat) :
    (readMem m off n).drop k = readMem m (off + k) (n - k) := by
  rcases Nat.le_total k n with h | h
  · obtain ⟨j, rfl⟩ := Nat.exists_eq_add_of_le h
    rw [readMem_append, List.drop_left' (by simp), Nat.add_sub_cancel_left]
  · rw [List.drop_eq_nil_of_le (by simpa using h), Nat.sub_eq_zero_of_le h]
    rfl

theorem writeMem_nil (m : Nat → UInt8) (off : Nat) : writeMem m off [] = m := by
  funext a
  simp only [writeMem, List.length_nil, Nat.add_zero]
  rw [if_neg (by omega)]

theorem writeMem_append (m : Nat → UInt8) (off : Nat) (a b : Bytes) :
    writeMem (writeMem m off a) (off + a.length) b = writeMem m off (a ++ b) := by
  funext x
  simp only [writeMem, byteAt_append, List.length_append]
  by_cases h1 : off + a.length ≤ x ∧ x < off + a.length + b.length
  · rw [if_pos h1, if_pos (by omega), if_neg (by omega)]
    congr 1; omega
  · rw [if_neg h1]
    by_cases h2 : off ≤ x ∧ x < off + a.length
    · rw [if_pos h2, if_pos (by omega), if_pos (by omega)]
    · rw [if_neg h2, if_neg (by omega)]

/-- Rewriting a range with some of its bytes replaced writes only those. -/
theorem writeMem_splice (m : Nat → UInt8) (off n k : Nat) (b : Bytes) (h : k + b.length ≤ n) :
    writeMem m off (splice (readMem m off n) k b) = writeMem m (off + k) b := by
  have hs : k + b.length ≤ (readMem m off n).length := by simpa using h
  funext a
  simp only [writeMem, length_splice hs, length_readMem]
  by_cases h1 : off ≤ a ∧ a < off + n
  · rw [if_pos h1, byteAt_splice hs]
    by_cases h2 : k ≤ a - off ∧ a - off < k + b.length
    · rw [if_pos h2, if_pos (by omega)]
      congr 1; omega
    · rw [if_neg h2, if_neg (by omega), byteAt_readMem (by omega)]
      congr 1; omega
  · rw [if_neg h1, if_neg (by omega)]

theorem readMem_writeMem_of_disjoint {m : Nat → UInt8} {off n a : Nat} {b : Bytes}
    (h : a + b.length ≤ off ∨ off + n ≤ a) :
    readMem (writeMem m a b) off n = readMem m off n := by
  apply readMem_congr
  intro x hx hxn
  simp only [writeMem]
  rw [if_neg (by omega)]

theorem readMem_writeMem_inside {m : Nat → UInt8} {off n k : Nat} {b : Bytes}
    (h : k + b.length ≤ n) :
    readMem (writeMem m (off + k) b) off n = splice (readMem m off n) k b := by
  have hs : k + b.length ≤ (readMem m off n).length := by simpa using h
  apply ext_byteAt
  · rw [length_splice hs]; simp
  · intro i hi
    rw [length_readMem] at hi
    rw [byteAt_readMem hi, byteAt_splice hs]
    simp only [writeMem]
    by_cases h2 : k ≤ i ∧ i < k + b.length
    · rw [if_pos h2, if_pos (by omega)]
      congr 1; omega
    · rw [if_neg h2, if_neg (by omega), byteAt_readMem hi]

theorem readMem_writeMem (m : Nat → UInt8) (off : Nat) (b : Bytes) :
    readMem (writeMem m off b) off b.length = b := by
  have h : readMem (writeMem m (off + 0) b) off b.length = splice (readMem m off b.length) 0 b :=
    readMem_writeMem_inside (by simp)
  rw [Nat.add_zero] at h
  rw [h, splice_all (by simp)]

end LsvmTools.Lib.ByteString
