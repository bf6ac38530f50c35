import LsvmTools.Lib.ShaCrypt
import LsvmTools.ShaHash
import LsvmTools.Strings

/-! # Password hashes

`SHA512Crypt` is SHA-crypt with 5000 rounds for passwords of less than 2^32 bytes: the size that
`Malloc` takes is an `unsigned int`, and the loops over the password go by a `size_t`. -/
namespace LsvmTools.Pass
open Lib.ByteString Lib.Program Lib.ShaCrypt Strings PeImage ShaHash

abbrev SHA512Hash := Digest 64

def saltSize : Nat := 16

def lsvmpassSha512Pre : Bytes := text "$6$"

def lsvmpassSha512PassSize : Nat := 86

def lsvmpassRoundsDefault : Nat := 5000

def base64Table : Bytes :=
  text "./0123456789ABCDEFGHIJKLMNOPQRSTUVWXYZabcdefghijklmnopqrstuvwxyz"

/-! ## Allocations -/

/-- An allocation, where `none` is a byte that has not been written yet. -/
abbrev Block := List (Option UInt8)

/-- `Malloc`, where `mem` says which allocations succeed. -/
def malloc (mem : Nat → Bool) (size : Nat) : Out Unit Block :=
  if mem (u32 size) then .ok (List.replicate (u32 size) none) else .err ()

def store (b : Block) (off : Nat) (data : Bytes) : Out Unit Block :=
  if off + data.length ≤ b.length then
    .ok (b.take off ++ data.map some ++ b.drop (off + data.length))
  else .stuck

/-- The first `n` bytes, which must have been written. -/
def load (b : Block) (n : Nat) : Out Unit Bytes :=
  if n ≤ b.length ∧ none ∉ b.take n then .ok ((b.take n).filterMap id) else .stuck

/-- `n` bytes of a hash value. -/
def Digest.first (d : SHA512Hash) (n : Nat) : Out Unit Bytes :=
  if n ≤ 64 then .ok (d.buf.take n) else .stuck

/-! ## The loops -/

/-- `for (; i + __SHA512_SIZE <= size; i += __SHA512_SIZE)`. -/
def forBlocks {σ : Type} (body : Nat → σ → Out Unit σ) (size i : Nat) (s : σ) :
    Out Unit (Nat × σ) :=
  if i + 64 ≤ size then do
    let s ← body i s
    forBlocks body size (i + 64) s
  else .ok (i, s)
termination_by size - i

/-- `Memcpy` of the hash value over and over. -/
def copyDigest (d : SHA512Hash) (size : Nat) (p : Block) : Out Unit Block := do
  let (i, p) ← forBlocks (fun i p => store p i d.buf) size 0 p
  store p i (← Digest.first d (size - i))

section Contexts

variable {Ctx : Type} (f : Sha Ctx SHA512Hash)

def shaInit : Out Unit Ctx := .ofOption () f.init

def shaUpdate (c : Ctx) (data : Bytes) : Out Unit Ctx := .ofOption () (f.update c data)

def shaFinal (c : Ctx) : Out Unit SHA512Hash := .ofOption () (f.final c)

/-- `for (i = 0; i < n; i++)`. -/
def updateTimes (data : Bytes) : Nat → Ctx → Out Unit Ctx
  | 0, c => .ok c
  | n + 1, c => do updateTimes data n (← shaUpdate f c data)

/-- `for (i = passLen; i > 0; i >>= 1)`. -/
def updateBits (password : Bytes) (b : SHA512Hash) (i : Nat) (c : Ctx) : Out Unit Ctx :=
  if i > 0 then do
    let c ← shaUpdate f c (if i % 2 = 1 then b.buf else password)
    updateBits password b (i / 2) c
  else .ok c
termination_by i

/-- One of the rounds that burn CPU time. -/
def cryptRound (p s : Block) (passLen saltLen : Nat) (aHash : SHA512Hash) (i : Nat) :
    Out Unit SHA512Hash := do
  let ctx ← shaInit f
  let ctx ← shaUpdate f ctx (← if i % 2 = 1 then load p passLen else .ok aHash.buf)
  let ctx ← if i % 3 ≠ 0 then do shaUpdate f ctx (← load s saltLen) else .ok ctx
  let ctx ← if i % 7 ≠ 0 then do shaUpdate f ctx (← load p passLen) else .ok ctx
  let ctx ← shaUpdate f ctx (← if i % 2 = 1 then .ok aHash.buf else load p passLen)
  shaFinal f ctx

end Contexts

/-- `while (salt[saltLen] != 0 && saltLen < SALT_SIZE)`. -/
def countSalt : Bytes → Nat → Nat
  | [], saltLen => saltLen
  | _ :: salt, saltLen =>
    if saltLen < saltSize then countSalt salt (saltLen + 1) else saltLen

/-! ## The text -/

/-- Which bytes a row takes: `b3`, `b2` and `b1`. -/
def rowIndices (i : Nat) : Nat × Nat × Nat :=
  ((0 + 22 * i) % 63, (21 + 22 * i) % 63, (42 + 22 * i) % 63)

/-- `while (n > 0)`. -/
def writeSextets : Nat → Nat → Block × Nat → Out Unit (Block × Nat)
  | 0, _, r => .ok r
  | n + 1, all, (result, resultPtr) => do
    let result ← store result resultPtr [byteAt base64Table (all &&& 0x3f)]
    writeSextets n (all >>> 6) (result, resultPtr + 1)

def writeRow (aHash : SHA512Hash) (r : Block × Nat) (i : Nat) : Out Unit (Block × Nat) :=
  let (i3, i2, i1) := rowIndices i
  let b3 := (byteAt aHash.buf i3).toNat
  let b2 := (byteAt aHash.buf i2).toNat
  let b1 := (byteAt aHash.buf i1).toNat
  let all := b3 <<< 16 ||| b2 <<< 8 ||| b1
  writeSextets 4 all r

/-- What `result` holds in the end. -/
def writeResult (salt : Bytes) (aHash : SHA512Hash) (result : Block) : Out Unit Block := do
  let result ← store result 0 lsvmpassSha512Pre
  let result ← store result 3 salt
  let result ← store result (3 + salt.length) [36]
  let (result, resultPtr) ←
    (List.range 21).foldlM (writeRow aHash) (result, 3 + salt.length + 1)
  let b := (byteAt aHash.buf 63).toNat
  let result ← store result resultPtr [byteAt base64Table (b &&& 0x3f)]
  let result ← store result (resultPtr + 1) [byteAt base64Table (b >>> 6)]
  store result (resultPtr + 2) [0]

section Crypt

variable {Ctx : Type} (f : Sha Ctx SHA512Hash) (mem : Nat → Bool) (password salt : Bytes)

/-- Digests A and B. -/
def cryptDigestA : Out Unit SHA512Hash := do
  let passLen := password.length
  let a ← shaInit f
  let a ← shaUpdate f a password
  let a ← shaUpdate f a salt
  let b ← shaInit f
  let b ← shaUpdate f b password
  let b ← shaUpdate f b salt
  let b ← shaUpdate f b password
  let bHash ← shaFinal f b
  let (i, a) ← forBlocks (fun _ a => shaUpdate f a bHash.buf) passLen 0 a
  let a ← shaUpdate f a (← Digest.first bHash (passLen - i))
  let a ← updateBits f password bHash passLen a
  shaFinal f a

/-- Digest DP and sequence P. -/
def cryptSequenceP : Out Unit Block := do
  let passLen := password.length
  let dp ← shaInit f
  let dp ← updateTimes f password passLen dp
  let dpHash ← shaFinal f dp
  let p ← malloc mem passLen
  copyDigest dpHash passLen p

/-- Digest DS and sequence S. -/
def cryptSequenceS (aHash : SHA512Hash) : Out Unit Block := do
  let saltLen := salt.length
  let ds ← shaInit f
  let ds ← updateTimes f salt (16 + (byteAt aHash.buf 0).toNat) ds
  let dsHash ← shaFinal f ds
  let s ← malloc mem saltLen
  copyDigest dsHash saltLen s

end Crypt

/-- `SHA512Crypt`; an error is `NULL`. -/
def sha512Crypt {Ctx : Type} (f : Sha Ctx SHA512Hash) (mem : Nat → Bool) (password salt : CStr) :
    Out Unit Block := do
  if salt.bytes.take 3 ≠ lsvmpassSha512Pre then .err () else
    let salt := salt.bytes.drop 3
    let salt := salt.take (countSalt salt 0)
    let aHash ← cryptDigestA f password.bytes salt
    let p ← cryptSequenceP f mem password.bytes
    let s ← cryptSequenceS f mem salt aHash
    let aHash ← (List.range lsvmpassRoundsDefault).foldlM
      (cryptRound f p s password.bytes.length salt.length) aHash
    let resultSize := 4 + salt.length + 1 + lsvmpassSha512PassSize
    let result ← malloc mem resultSize
    writeResult salt aHash result

/-! ## Blocks that are filled from the front -/

/-- A block of `k` bytes whose first ones have been written. -/
def filled (k : Nat) (x : Bytes) : Block := x.map some ++ List.replicate (k - x.length) none

section Filled

variable {k size i : Nat} {x data : Bytes} {d : SHA512Hash}

theorem filled_nil (k : Nat) : filled k [] = List.replicate k none := rfl

theorem filled_all (x : Bytes) : filled x.length x = x.map some := by
  rw [filled, Nat.sub_self, List.replicate_zero, List.append_nil]

theorem length_filled (h : x.length ≤ k) : (filled k x).length = k := by
  rw [filled, List.length_append, List.length_map, List.length_replicate]
  omega

theorem store_filled (h : x.length + data.length ≤ k) :
    store (filled k x) x.length data = .ok (filled k (x ++ data)) := by
  have hmap : (x.map some : Block).length = x.length := List.length_map some
  rw [store, length_filled (by omega), if_pos h]
  congr 1
  rw [filled, List.take_left' hmap, List.drop_append, hmap, List.drop_eq_nil_of_le (by omega),
    List.nil_append, List.drop_replicate, filled, List.map_append, List.length_append]
  congr 2
  omega

theorem store_stuck (hx : x.length ≤ k) (h : k < x.length + data.length) :
    store (filled k x) x.length data = .stuck := by
  rw [store, length_filled hx, if_neg (by omega)]

theorem load_filled (h : x.length ≤ k) : load (filled k x) x.length = .ok x := by
  have htake : (filled k x).take x.length = x.map some :=
    List.take_left' (List.length_map some)
  have hnone : none ∉ (x.map some : Block) := by
    intro hmem
    obtain ⟨b, -, hb⟩ := List.mem_map.mp hmem
    cases hb
  rw [load, length_filled h, htake, if_pos ⟨h, hnone⟩, List.filterMap_map]
  exact congrArg Out.ok List.filterMap_some

theorem forBlocks_next {σ : Type} {body : Nat → σ → Out Unit σ} {s : σ} (h : i + 64 ≤ size) :
    forBlocks body size i s = body i s >>= forBlocks body size (i + 64) := by
  rw [forBlocks, if_pos h]

theorem forBlocks_done {σ : Type} {body : Nat → σ → Out Unit σ} {s : σ} (h : ¬ i + 64 ≤ size) :
    forBlocks body size i s = .ok (i, s) := by
  rw [forBlocks, if_neg h]

theorem stretch_next (d : SHA512Hash) (h : i + 64 ≤ size) :
    stretch d.buf (size - i) = d.buf ++ stretch d.buf (size - (i + 64)) := by
  have hd : d.buf ≠ [] := by
    intro he
    have hsize := d.size
    rw [he] at hsize
    cases hsize
  rw [show size - i = size - (i + 64) + d.buf.length by rw [d.size]; omega, stretch_add hd]

theorem stretch_done (d : SHA512Hash) (h : ¬ i + 64 ≤ size) :
    stretch d.buf (size - i) = d.buf.take (size - i) :=
  stretch_of_lt (by rw [d.size]; omega)

/-- The copies are made, unless the block is too small. -/
theorem forBlocks_store (hi : i ≤ size) (hk : x.length ≤ k) (hx : x.length = i) :
    (k < size ∧ forBlocks (fun i p => store p i d.buf) size i (filled k x) = .stuck) ∨
      ∃ y, forBlocks (fun i p => store p i d.buf) size i (filled k x) =
          .ok (y.length, filled k y) ∧ y.length ≤ k ∧ y.length ≤ size ∧ size - y.length < 64 ∧
        y ++ d.buf.take (size - y.length) = x ++ stretch d.buf (size - i) := by
  obtain ⟨n, hn⟩ : ∃ n, n = size - i := ⟨_, rfl⟩
  induction n using Nat.strongRecOn generalizing i x with
  | ind n ih =>
    subst hx
    by_cases h : x.length + 64 ≤ size
    · rw [forBlocks_next h]
      by_cases hroom : x.length + d.buf.length ≤ k
      · have hlength : (x ++ d.buf).length = x.length + 64 := by rw [List.length_append, d.size]
        rw [store_filled hroom, Out.ok_bind, stretch_next d h, ← List.append_assoc]
        exact ih (size - (x.length + 64)) (by omega) h (by rw [List.length_append]; exact hroom)
          hlength rfl
      · rw [store_stuck hk (by omega)]
        rw [d.size] at hroom
        exact .inl ⟨by omega, rfl⟩
    · rw [forBlocks_done h, stretch_done d h]
      exact .inr ⟨x, rfl, hk, hi, by omega, rfl⟩

theorem copyDigest_enough (h : size ≤ k) :
    copyDigest d size (filled k []) = .ok (filled k (stretch d.buf size)) := by
  unfold copyDigest
  obtain ⟨hlt, -⟩ | ⟨y, hrun, hyk, hys, hrest, hy⟩ :=
    forBlocks_store (d := d) (x := []) (Nat.zero_le size) (Nat.zero_le k) rfl
  · omega
  · rw [hrun, Out.ok_bind]
    dsimp only
    rw [Digest.first, if_pos (by omega), Out.ok_bind, store_filled, hy]
    · rfl
    · rw [List.length_take, d.size]
      omega

theorem copyDigest_short (h : k < size) : copyDigest d size (filled k []) = .stuck := by
  unfold copyDigest
  obtain ⟨-, hrun⟩ | ⟨y, hrun, hyk, hys, hrest, -⟩ :=
    forBlocks_store (d := d) (x := []) (Nat.zero_le size) (Nat.zero_le k) rfl
  · rw [hrun]
    rfl
  · rw [hrun, Out.ok_bind]
    dsimp only
    rw [Digest.first, if_pos (by omega), Out.ok_bind]
    refine store_stuck hyk ?_
    rw [List.length_take, d.size]
    omega

end Filled

/-! ## Contexts that keep what they are given -/

section Contexts

variable {hash : Bytes → SHA512Hash} {k k' size i : Nat} {c x data password salt : Bytes}
  {d : SHA512Hash}

/-- The hash function on byte strings. -/
def bytesHash (hash : Bytes → SHA512Hash) (b : Bytes) : Bytes := (hash b).buf

@[simp] theorem shaInit_sha : shaInit (sha hash true) = .ok [] := rfl

@[simp] theorem shaUpdate_sha : shaUpdate (sha hash true) c data = .ok (c ++ data) := rfl

@[simp] theorem shaFinal_sha : shaFinal (sha hash true) c = .ok (hash c) := rfl

theorem updateTimes_sha (n : Nat) :
    updateTimes (sha hash true) data n c = .ok (c ++ times n data) := by
  induction n generalizing c with
  | zero =>
    rw [updateTimes, times, List.replicate_zero, List.flatten_nil, List.append_nil]
  | succ n ih =>
    rw [updateTimes, shaUpdate_sha, Out.ok_bind, ih, times_succ, List.append_assoc]

theorem updateBits_sha (i : Nat) : updateBits (sha hash true) password d i c =
    .ok (c ++ (Nat.digits 2 i).flatMap fun bit => if bit = 1 then d.buf else password) := by
  induction i using Nat.strongRecOn generalizing c with
  | ind i ih =>
    rw [updateBits]
    by_cases h : i > 0
    · rw [if_pos h, shaUpdate_sha, Out.ok_bind, ih (i / 2) (by omega),
        Nat.digits_def' (by decide) h, List.flatMap_cons, List.append_assoc]
    · rw [if_neg h, Nat.eq_zero_of_not_pos h, Nat.digits_zero, List.flatMap_nil, List.append_nil]

variable (hash) in
theorem forBlocks_update (hi : i ≤ size) : ∃ j a,
    forBlocks (fun _ a => shaUpdate (sha hash true) a d.buf) size i c = .ok (j, a) ∧
      size - j < 64 ∧ a ++ d.buf.take (size - j) = c ++ stretch d.buf (size - i) := by
  obtain ⟨n, hn⟩ : ∃ n, n = size - i := ⟨_, rfl⟩
  induction n using Nat.strongRecOn generalizing i c with
  | ind n ih =>
    by_cases h : i + 64 ≤ size
    · rw [forBlocks_next h, shaUpdate_sha, Out.ok_bind, stretch_next d h, ← List.append_assoc]
      exact ih (size - (i + 64)) (by omega) h rfl
    · rw [forBlocks_done h, stretch_done d h]
      exact ⟨i, c, rfl, by omega, rfl⟩

theorem cryptRound_sha {p s : Bytes} (hp : p.length ≤ k) (hs : s.length ≤ k') :
    cryptRound (sha hash true) (filled k p) (filled k' s) p.length s.length d i =
      .ok (hash ((if i % 2 = 1 then p else d.buf) ++ (if i % 3 ≠ 0 then s else []) ++
        (if i % 7 ≠ 0 then p else []) ++ (if i % 2 = 1 then d.buf else p))) := by
  unfold cryptRound
  rw [load_filled hp, load_filled hs]
  by_cases h2 : i % 2 = 1 <;> by_cases h3 : i % 3 ≠ 0 <;> by_cases h7 : i % 7 ≠ 0 <;>
    simp [h2, h3, h7]

variable (hash) in
theorem foldlM_cryptRound {p s : Bytes} (hp : p.length ≤ k) (hs : s.length ≤ k')
    (rounds : List Nat) : ∃ d', rounds.foldlM
      (cryptRound (sha hash true) (filled k p) (filled k' s) p.length s.length) d = .ok d' ∧
        d'.buf = rounds.foldl (round (bytesHash hash) p s) d.buf := by
  induction rounds generalizing d with
  | nil => exact ⟨d, rfl, rfl⟩
  | cons i rounds ih =>
    rw [List.foldlM_cons, cryptRound_sha hp hs, Out.ok_bind, List.foldl_cons]
    exact ih

end Contexts

/-! ## The text -/

section Text

variable {k n v i : Nat} {x salt : Bytes} {d : SHA512Hash}

theorem and_63 (v : Nat) : v &&& 0x3f = v % 64 := Nat.and_two_pow_sub_one_eq_mod v 6

theorem shiftRight_6 (v : Nat) : v >>> 6 = v / 64 := Nat.shiftRight_eq_div_pow v 6

theorem base64Table_eq : base64Table = alphabet := by decide

theorem writeSextets_filled (h : x.length + n ≤ k) :
    writeSextets n v (filled k x, x.length) =
      .ok (filled k (x ++ (sextets n v).map (byteAt alphabet)), x.length + n) := by
  induction n generalizing v x with
  | zero => rw [writeSextets, sextets, List.map_nil, List.append_nil, Nat.add_zero]
  | succ n ih =>
    have hlength : (x ++ [byteAt alphabet (v % 64)]).length = x.length + 1 :=
      List.length_append
    rw [writeSextets, and_63, shiftRight_6, base64Table_eq, store_filled (by rw [List.length_singleton]; omega),
      Out.ok_bind, ← hlength, ih (by omega), hlength, sextets, List.map_cons, List.append_assoc,
      List.singleton_append, Nat.add_assoc, Nat.add_comm 1 n]

/-- The rows are those of the table. -/
theorem rows_eq : (List.range 21).map rowIndices = groups := by decide

theorem rowValue_eq (d : Bytes) (g : Nat × Nat × Nat) :
    (byteAt d g.1).toNat <<< 16 ||| (byteAt d g.2.1).toNat <<< 8 ||| (byteAt d g.2.2).toNat =
      groupValue d g := by
  have h2 := (byteAt d g.2.1).toNat_lt
  have h1 := (byteAt d g.2.2).toNat_lt
  have hlow : (byteAt d g.2.1).toNat <<< 8 ||| (byteAt d g.2.2).toNat =
      2 ^ 8 * (byteAt d g.2.1).toNat + (byteAt d g.2.2).toNat := by
    rw [Nat.shiftLeft_eq, Nat.mul_comm, Nat.two_pow_add_eq_or_of_lt h1]
  rw [Nat.lor_assoc, hlow, Nat.shiftLeft_eq, Nat.mul_comm,
    ← Nat.two_pow_add_eq_or_of_lt (by omega), groupValue]
  omega

theorem writeRow_filled (h : x.length + 4 ≤ k) :
    writeRow d (filled k x, x.length) i =
      .ok (filled k (x ++ (sextets 4 (groupValue d.buf (rowIndices i))).map
        (byteAt alphabet)), x.length + 4) := by
  unfold writeRow
  dsimp only
  rw [rowValue_eq d.buf (rowIndices i)]
  exact writeSextets_filled h

theorem foldlM_writeRow (rows : List Nat) (h : x.length + 4 * rows.length ≤ k) :
    rows.foldlM (writeRow d) (filled k x, x.length) =
      .ok (filled k (x ++ ((rows.map rowIndices).flatMap fun g =>
        sextets 4 (groupValue d.buf g)).map (byteAt alphabet)), x.length + 4 * rows.length) := by
  induction rows generalizing x with
  | nil => rw [List.foldlM_nil, List.map_nil, List.flatMap_nil, List.map_nil, List.append_nil]; rfl
  | cons i rows ih =>
    rw [List.length_cons] at h
    have hlength : (x ++ (sextets 4 (groupValue d.buf (rowIndices i))).map
        (byteAt alphabet)).length = x.length + 4 := by
      rw [List.length_append, List.length_map, length_sextets]
    rw [List.foldlM_cons, writeRow_filled (by omega), Out.ok_bind, ← hlength, ih (by omega),
      hlength, List.map_cons, List.flatMap_cons, List.map_append, List.append_assoc,
      List.length_cons]
    congr 2
    omega

theorem store_three {a b c : UInt8} (h : x.length + 3 ≤ k) :
    (do
      let r ← store (filled k x) x.length [a]
      let r ← store r (x.length + 1) [b]
      store r (x.length + 2) [c]) = .ok (filled k (x ++ [a, b, c])) := by
  have h2 : (x ++ [a]).length = x.length + 1 := List.length_append
  have h3 : (x ++ [a] ++ [b]).length = x.length + 2 := by
    rw [List.length_append, h2, List.length_singleton]
  rw [store_filled (by rw [List.length_singleton]; omega), Out.ok_bind, ← h2,
    store_filled (by rw [List.length_singleton]; omega), Out.ok_bind, ← h3,
    store_filled (by rw [List.length_singleton]; omega), List.append_assoc, List.append_assoc]
  rfl

/-- The last byte has two digits. -/
theorem lastSextets (d : Bytes) : (sextets 2 (byteAt d 63).toNat).map (byteAt alphabet) =
    [byteAt base64Table ((byteAt d 63).toNat &&& 0x3f),
      byteAt base64Table ((byteAt d 63).toNat >>> 6)] := by
  have hlt := (byteAt d 63).toNat_lt
  have hhigh : (byteAt d 63).toNat / 64 % 64 = (byteAt d 63).toNat / 64 := Nat.mod_eq_of_lt (by omega)
  rw [and_63, shiftRight_6, sextets, sextets, sextets, hhigh, base64Table_eq]
  rfl

/-- Everything that is written goes to the end of what has been written before. -/
theorem writeResult_filled :
    writeResult salt d (filled (salt.length + 91) []) =
      .ok ((lsvmpassSha512Pre ++ salt ++ [36] ++ encode d.buf ++ [0]).map some) := by
  obtain ⟨k, hk⟩ : ∃ k, k = salt.length + 91 := ⟨_, rfl⟩
  have hpre : lsvmpassSha512Pre.length = 3 := by decide
  have hsalt : (lsvmpassSha512Pre ++ salt).length = 3 + salt.length := by
    rw [List.length_append, hpre]
  have hhead : (lsvmpassSha512Pre ++ salt ++ [36]).length = 3 + salt.length + 1 := by
    rw [List.length_append, hsalt, List.length_singleton]
  have h1 : store (filled k []) 0 lsvmpassSha512Pre = .ok (filled k lsvmpassSha512Pre) :=
    store_filled (x := []) (by rw [List.length_nil, hpre]; omega)
  have h2 : store (filled k lsvmpassSha512Pre) 3 salt =
      .ok (filled k (lsvmpassSha512Pre ++ salt)) := by
    rw [← hpre, store_filled (by omega)]
  have h3 : store (filled k (lsvmpassSha512Pre ++ salt)) (3 + salt.length) [36] =
      .ok (filled k (lsvmpassSha512Pre ++ salt ++ [36])) := by
    rw [← hsalt, store_filled (by rw [hsalt, List.length_singleton]; omega)]
  have hrows := foldlM_writeRow (x := lsvmpassSha512Pre ++ salt ++ [36]) (k := k) (d := d)
    (List.range 21) (by rw [hhead, List.length_range]; omega)
  rw [rows_eq, List.length_range] at hrows
  obtain ⟨y, hy⟩ : ∃ y, y = lsvmpassSha512Pre ++ salt ++ [36] ++
    (groups.flatMap fun g => sextets 4 (groupValue d.buf g)).map (byteAt alphabet) := ⟨_, rfl⟩
  have hlast : y ++ [byteAt base64Table ((byteAt d.buf 63).toNat &&& 0x3f),
      byteAt base64Table ((byteAt d.buf 63).toNat >>> 6), 0] =
        lsvmpassSha512Pre ++ salt ++ [36] ++ encode d.buf ++ [0] := by
    rw [hy, encode, List.map_append, lastSextets]
    simp only [List.append_assoc, List.cons_append, List.nil_append]
  have hfull : (lsvmpassSha512Pre ++ salt ++ [36] ++ encode d.buf ++ [0]).length =
      k := by
    rw [List.length_append, List.length_append, hhead, length_encode, List.length_singleton]
    omega
  have hylength : y.length = 3 + salt.length + 1 + 84 := by
    rw [← hlast, List.length_append] at hfull
    simp only [List.length_cons, List.length_nil] at hfull
    omega
  have hend : List.length (lsvmpassSha512Pre ++ salt ++ [36]) + 4 * 21 = y.length := by omega
  rw [hend, ← hy] at hrows
  unfold writeResult
  rw [← hk, h1, Out.ok_bind, h2, Out.ok_bind, h3, Out.ok_bind, ← hhead, hrows, Out.ok_bind]
  dsimp only
  rw [store_three (by omega), hlast, ← hfull, filled_all]

/-! ## The whole -/

theorem countSalt_eq (salt : Bytes) (n : Nat) (h : n ≤ 16) :
    countSalt salt n = min (n + salt.length) 16 := by
  induction salt generalizing n with
  | nil => rw [countSalt, List.length_nil]; omega
  | cons c salt ih =>
    rw [countSalt, List.length_cons]
    unfold saltSize
    split
    · rw [ih (n + 1) (by omega)]
      omega
    · omega

end Text

section Crypt

variable {hash : Bytes → SHA512Hash} {password salt : Bytes} {d : SHA512Hash}

variable (hash password salt) in
theorem cryptDigestA_sha : ∃ d, cryptDigestA (sha hash true) password salt = .ok d ∧
    d.buf = digestA (bytesHash hash) password salt := by
  refine ⟨hash (password ++ salt ++ stretch (digestB (bytesHash hash) password salt)
    password.length ++ lengthBits password (digestB (bytesHash hash) password salt)), ?_, rfl⟩
  unfold cryptDigestA
  simp only [shaInit_sha, shaUpdate_sha, shaFinal_sha, Out.ok_bind, List.nil_append]
  obtain ⟨j, a, hrun, hrest, ha⟩ := forBlocks_update hash
    (d := hash (password ++ salt ++ password)) (c := password ++ salt) (Nat.zero_le password.length)
  simp only [shaUpdate_sha] at hrun
  rw [hrun, Out.ok_bind]
  dsimp only
  rw [Digest.first, if_pos (by omega), Out.ok_bind, ha, updateBits_sha, Out.ok_bind]
  rfl

theorem malloc_filled (n : Nat) : malloc (fun _ => true) n = .ok (filled (u32 n) []) := rfl

theorem cryptSequenceP_sha (h : password.length < 2 ^ 32) :
    cryptSequenceP (sha hash true) (fun _ => true) password =
      .ok (filled password.length (sequenceP (bytesHash hash) password)) := by
  unfold cryptSequenceP
  simp only [shaInit_sha, updateTimes_sha, shaFinal_sha, malloc_filled, Out.ok_bind,
    List.nil_append, u32_of_lt h]
  exact copyDigest_enough (Nat.le_refl _)

/-- The block for the sequence P is too small. -/
theorem cryptSequenceP_stuck (h : 2 ^ 32 ≤ password.length) :
    cryptSequenceP (sha hash true) (fun _ => true) password = .stuck := by
  unfold cryptSequenceP
  simp only [shaInit_sha, updateTimes_sha, shaFinal_sha, malloc_filled, Out.ok_bind]
  exact copyDigest_short (Nat.lt_of_lt_of_le (u32_lt _) h)

theorem cryptSequenceS_sha (h : salt.length < 2 ^ 32)
    (hd : d.buf = digestA (bytesHash hash) password salt) :
    cryptSequenceS (sha hash true) (fun _ => true) salt d =
      .ok (filled salt.length (sequenceS (bytesHash hash) password salt)) := by
  unfold cryptSequenceS
  simp only [shaInit_sha, updateTimes_sha, shaFinal_sha, malloc_filled, Out.ok_bind,
    List.nil_append, u32_of_lt h, hd]
  exact copyDigest_enough (Nat.le_refl _)

end Crypt

section Whole

variable {hash : Bytes → SHA512Hash} {password password' salt : CStr} {t : Bytes}

/-- What follows the prefix, as far as it counts. -/
theorem salt_taken (h : salt.bytes = lsvmpassSha512Pre ++ t) :
    salt.bytes.take 3 = lsvmpassSha512Pre ∧
      (salt.bytes.drop 3).take (countSalt (salt.bytes.drop 3) 0) = t.take 16 := by
  have hpre : lsvmpassSha512Pre.length = 3 := by decide
  have hdrop : salt.bytes.drop 3 = t := by rw [h, List.drop_left' hpre]
  refine ⟨by rw [h, List.take_left' hpre], ?_⟩
  rw [hdrop, countSalt_eq t 0 (by decide), Nat.zero_add, Nat.min_comm, ← List.take_take,
    List.take_length]

theorem length_stretch_digest (d : SHA512Hash) (n : Nat) : (stretch d.buf n).length = n := by
  refine length_stretch (fun he => ?_) n
  have hsize := d.size
  rw [he] at hsize
  cases hsize

theorem sha512Crypt_short (hs : salt.bytes = lsvmpassSha512Pre ++ t) (ht : 36 ∉ t)
    (h : password.bytes.length < 2 ^ 32) :
    sha512Crypt (sha hash true) (fun _ => true) password salt =
      .ok ((crypt (bytesHash hash) 5000 password.bytes t ++ [0]).map some) := by
  obtain ⟨hpre, htake⟩ := salt_taken hs
  have hlength : (t.take 16).length ≤ 16 := by rw [List.length_take]; omega
  have hP : (sequenceP (bytesHash hash) password.bytes).length = password.bytes.length :=
    length_stretch_digest _ _
  have hS : (sequenceS (bytesHash hash) password.bytes (t.take 16)).length = (t.take 16).length :=
    length_stretch_digest _ _
  have hsize : u32 (4 + (t.take 16).length + 1 + lsvmpassSha512PassSize) =
      (t.take 16).length + 91 := by
    unfold lsvmpassSha512PassSize
    rw [u32_of_lt (by omega)]
    omega
  obtain ⟨a, hrunA, ha⟩ :=
    cryptDigestA_sha hash password.bytes (t.take 16)
  obtain ⟨d, hrun, hd⟩ := foldlM_cryptRound hash (d := a) hP.le hS.le
    (List.range lsvmpassRoundsDefault)
  rw [hP, hS] at hrun
  unfold sha512Crypt
  rw [if_neg (not_not.mpr hpre)]
  dsimp only
  rw [htake, hrunA, Out.ok_bind, cryptSequenceP_sha h, Out.ok_bind,
    cryptSequenceS_sha (by omega) ha, Out.ok_bind, hrun, Out.ok_bind, malloc_filled, hsize,
    Out.ok_bind, writeResult_filled, hd, ha, crypt, saltOf_eq ht]
  rfl

theorem sha512Crypt_long (hs : salt.bytes = lsvmpassSha512Pre ++ t)
    (h : 2 ^ 32 ≤ password.bytes.length) :
    sha512Crypt (sha hash true) (fun _ => true) password salt = .stuck := by
  obtain ⟨hpre, htake⟩ := salt_taken hs
  obtain ⟨a, hrun, -⟩ :=
    cryptDigestA_sha hash password.bytes (t.take 16)
  unfold sha512Crypt
  rw [if_neg (not_not.mpr hpre)]
  dsimp only
  rw [htake, hrun, Out.ok_bind, cryptSequenceP_stuck h]
  rfl

end Whole

/-- A salt string: nothing behind its prefix ends it. -/
structure Salt where
  str : CStr
  rest : Bytes
  split : str.bytes = lsvmpassSha512Pre ++ rest
  noDollar : 36 ∉ rest

/-- The bytes of the hash value that the rows write. -/
def written : List Nat :=
  ((List.range 21).flatMap fun i => [(rowIndices i).1, (rowIndices i).2.1, (rowIndices i).2.2]) ++
    [63]

/-- SHA-crypt with 5000 rounds: the text fills the allocation, and tells the digest. -/
structure Crypts (hash : Bytes → SHA512Hash) (password : CStr) (salt : Salt) : Prop where
  text : sha512Crypt (sha hash true) (fun _ => true) password salt.str =
    .ok ((crypt (bytesHash hash) 5000 password.bytes salt.rest ++ [0]).map some)
  covers : written.Perm (List.range 64)
  digests : ∀ other : CStr, sha512Crypt (sha hash true) (fun _ => true) other salt.str =
      sha512Crypt (sha hash true) (fun _ => true) password salt.str →
    finalDigest (bytesHash hash) other.bytes (saltOf salt.rest) 5000 =
      finalDigest (bytesHash hash) password.bytes (saltOf salt.rest) 5000

theorem crypts_iff (hash : Bytes → SHA512Hash) (password : CStr) (salt : Salt) :
    Crypts hash password salt ↔ password.bytes.length < 2 ^ 32 := by
  constructor
  · intro h
    by_contra hlong
    have htext := h.text
    rw [sha512Crypt_long salt.split (by omega)] at htext
    cases htext
  · intro h
    have htext : sha512Crypt (sha hash true) (fun _ => true) password salt.str = _ :=
      sha512Crypt_short salt.split salt.noDollar h
    refine ⟨htext, by decide, fun other he => ?_⟩
    by_cases hother : other.bytes.length < 2 ^ 32
    · rw [htext, sha512Crypt_short salt.split salt.noDollar hother] at he
      have htexts := List.map_injective_iff.mpr (Option.some_injective _) (Out.ok.inj he)
      exact crypt_injective (fun b => (hash b).size) (List.append_cancel_right htexts)
    · rw [htext, sha512Crypt_long salt.split (by omega)] at he
      cases he

/-! ## A password that is too long -/

theorem longPassword_noNul : (0 : UInt8) ∉ List.replicate (2 ^ 32) (97 : UInt8) := fun h =>
  absurd (List.eq_of_mem_replicate h) (by decide)

def longPassword : CStr := ⟨List.replicate (2 ^ 32) 97, longPassword_noNul⟩

theorem shortSalt_noNul : (0 : UInt8) ∉ text "$6$ab" := by decide

theorem shortSalt_split : text "$6$ab" = lsvmpassSha512Pre ++ text "ab" := by decide

theorem shortSalt_noDollar : (36 : UInt8) ∉ text "ab" := by decide

def shortSalt : Salt := ⟨⟨text "$6$ab", shortSalt_noNul⟩, text "ab", shortSalt_split, shortSalt_noDollar⟩

/-- The copies of the digest go beyond the block for the sequence P. -/
theorem not_crypts_longPassword : ¬ Crypts (fun _ => Digest.zero 64) longPassword shortSalt := by
  intro h
  have hlength : longPassword.bytes.length = 2 ^ 32 := List.length_replicate
  have htext := h.text
  rw [sha512Crypt_long shortSalt.split hlength.ge] at htext
  cases htext

end LsvmTools.Pass
