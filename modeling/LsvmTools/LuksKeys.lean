import LsvmTools.LuksHeader
import LsvmTools.ShaHash

/-! # LUKS key slots

A key slot holds the master key split into stripes and encrypted with a key that is derived
from a passphrase. `_UnsealMasterKey` decrypts the stripes into a buffer and merges them.
The sizes come from the disk: the buffer has the 32-bit product of two of them, `LUKSCrypt`
fills whole sectors of it, and `_AFMerge` reads one stripe after another. -/
namespace LsvmTools.LuksKeys
open Lib.ByteString Lib.Program BlockDevice Strings Luks LuksHeader ShaHash

/-- `SHAAlgorithm`. -/
inductive SHAAlgorithm where
  | sha1
  | sha256
  | sha384
  | sha512
deriving DecidableEq

/-- `SHAHashSize`. -/
def shaHashSize : SHAAlgorithm → Nat
  | .sha1 => 20
  | .sha256 => 32
  | .sha384 => 48
  | .sha512 => 64

/-- The ciphers, and `PKCS5_PBKDF2_HMAC` (password, salt, iterations, name of the digest,
length of the key) and the hash functions. -/
structure Crypto extends OpenSSL where
  pbkdf2 : Bytes → Bytes → UInt32 → Bytes → Nat → Option Bytes
  sha : (alg : SHAAlgorithm) → Bytes → Digest (shaHashSize alg)

/-- What is relied on: without padding a cipher delivers as many bytes as it is given, and
there is no cipher with keys of 0 bits. -/
structure Crypto.Documented (crypto : Crypto) : Prop where
  size : ∀ evp key iv enc x y, crypto.cipher evp key iv enc x = some y → y.length = x.length
  bits : ∀ mode, crypto.known ⟨0, mode⟩ = false

variable (crypto : Crypto)

/-- `LUKSDeriveKey`. -/
def luksDeriveKey (pass salt : Bytes) (iter : UInt32) (hashspec : Bytes) (keylen : Nat) :
    Option Bytes := crypto.pbkdf2 pass salt iter hashspec keylen

/-! ## Merging -/

/-- The algorithms that `_Diffuse` knows. -/
def diffuseAlg (hashSpec : Bytes) : Option SHAAlgorithm :=
  if hashSpec = text "sha1" then some .sha1
  else if hashSpec = text "sha256" then some .sha256
  else if hashSpec = text "sha384" then some .sha384
  else if hashSpec = text "sha512" then some .sha512
  else none

/-- The big-endian bytes of a number. -/
def be32 (n : Nat) : Bytes := (enc32 n).reverse

/-- One block of `_DiffuseSHA`. -/
def diffuseBlock (alg : SHAAlgorithm) (data : Bytes) (i : Nat) : Bytes :=
  let block := (data.drop (i * shaHashSize alg)).take (shaHashSize alg)
  (crypto.sha alg (be32 i ++ block)).buf.take block.length

/-- `_DiffuseSHA`. -/
def diffuseSHA (alg : SHAAlgorithm) (data : Bytes) : Bytes :=
  let pad := if data.length % shaHashSize alg ≠ 0 then 1 else 0
  (List.range (data.length / shaHashSize alg + pad)).flatMap (diffuseBlock crypto alg data)

/-- `_Diffuse`. -/
def diffuse (header : Header) (data : Bytes) : Option Bytes :=
  (diffuseAlg header.hashSpec).map fun alg => diffuseSHA crypto alg data

/-- `_ComputeXOR`. -/
def computeXOR (lhs rhs : Bytes) : Bytes := List.zipWith (· ^^^ ·) lhs rhs

/-- A buffer of `size` bytes whose first ones have been written. -/
structure Stripes where
  size : Nat
  written : Bytes
  le : written.length ≤ size
deriving DecidableEq

/-- Bytes of the buffer. There is no result where one lies outside or was never written. -/
def Stripes.read (stripes : Stripes) (off n : Nat) : Out Unit Bytes :=
  if off + n ≤ stripes.written.length then .ok ((stripes.written.drop off).take n) else .stuck

/-- The loop of `_AFMerge`, with the number of stripes that are left. -/
def afMergeFrom (header : Header) (slot : KeySlot) (stripes : Stripes) :
    Nat → Bytes → Out Unit Bytes
  | 0, masterKey => pure masterKey
  | left + 1, masterKey => do
    let i := slot.afStripes.toNat - (left + 1)
    let stripe ← stripes.read (u32 (i * header.keyBytes.toNat)) header.keyBytes.toNat
    let masterKey := computeXOR masterKey stripe
    -- all but the last stripe
    if left ≠ 0 then do
      let masterKey ← Out.ofOption () (diffuse crypto header masterKey)
      afMergeFrom header slot stripes left masterKey
    else pure masterKey

/-- `_AFMerge`. -/
def afMerge (header : Header) (slot : KeySlot) (stripes : Stripes) : Out Unit Bytes :=
  afMergeFrom crypto header slot stripes slot.afStripes.toNat
    (List.replicate header.keyBytes.toNat 0)

/-! ## Unsealing -/

/-- `stripesBytes`, a product of 32-bit words. -/
def stripesBytes (header : Header) (slot : KeySlot) : Nat :=
  u32 (header.keyBytes.toNat * slot.afStripes.toNat)

/-- `LUKSCrypt` into a buffer of the size of the data. There is no result where it writes
more. -/
def decryptStripes (header : Header) (derivedKey encryptedStripes : Bytes) : Out Unit Stripes :=
  match luksCrypt crypto.toOpenSSL false header.cipher derivedKey encryptedStripes 0 with
  | .ok written =>
    if h : written.length ≤ encryptedStripes.length then
      .ok ⟨encryptedStripes.length, written, h⟩
    else .stuck
  | .err e => .err e
  | .stuck => .stuck

/-- `LUKSComputeMKDigest`. -/
def luksComputeMKDigest (header : Header) (masterKey : Bytes) : Option Bytes :=
  luksDeriveKey crypto masterKey header.mkDigestSalt header.mkDigestIter header.hashSpec 20

/-- The key that the material is encrypted with. -/
def slotKey (header : Header) (slot : KeySlot) (passphrase : Bytes) : Option Bytes :=
  luksDeriveKey crypto passphrase slot.passwordSalt slot.passwordIters header.hashSpec
    header.keyBytes.toNat

/-- The material of a slot. -/
def keyMaterial (rawdev : Blkdev) (header : Header) (slot : KeySlot) : Out Unit Bytes :=
  blkdevRead rawdev slot.keyMaterialOffset.toNat (stripesBytes header slot)

/-- `_UnsealMasterKey`. -/
def unsealMasterKey (rawdev : Blkdev) (header : Header) (slot : KeySlot) (passphrase : Bytes) :
    Out Unit Bytes := do
  let derivedKey ← Out.ofOption () (slotKey crypto header slot passphrase)
  let encryptedStripes ← keyMaterial rawdev header slot
  let decryptedStripes ← decryptStripes crypto header derivedKey encryptedStripes
  let masterKey ← afMerge crypto header slot decryptedStripes
  let mkDigest ← Out.ofOption () (luksComputeMKDigest crypto header masterKey)
  if mkDigest ≠ header.mkDigest then .err () else pure masterKey

/-! ## What is read -/

/-- The rounds of `LUKSCrypt` over `n` bytes. -/
def cryptRounds (header : Header) (n : Nat) : Nat :=
  if header.cipher.cipherMode = "ecb" then 1 else n / 512

/-- The bytes of a round. -/
def cryptBlock (header : Header) (n : Nat) : Nat :=
  if header.cipher.cipherMode = "ecb" then n else 512

/-- The call has come to `_AFMerge`: the material has been read and decrypted. -/
structure Merges (rawdev : Blkdev) (header : Header) (slot : KeySlot) (passphrase : Bytes)
    (material : Bytes) (stripes : Stripes) : Prop where
  read : keyMaterial rawdev header slot = .ok material
  decrypted : ∃ derivedKey, slotKey crypto header slot passphrase = some derivedKey ∧
    decryptStripes crypto header derivedKey material = .ok stripes

/-- Each stripe that is read lies in the buffer and was written, and each byte that was
decrypted was read from the device. -/
structure Inside (header : Header) (slot : KeySlot) (material : Bytes) (stripes : Stripes) :
    Prop where
  size : stripes.size = stripesBytes header slot
  merge : afMerge crypto header slot stripes ≠ .stuck
  crypt : ∀ i, i < cryptRounds header stripes.size →
    i * cryptBlock header stripes.size + cryptBlock header stripes.size ≤ material.length

/-- The stripes that are read: only the first one where the hash is none of those that
`_Diffuse` knows. -/
def mergedStripes (header : Header) (slot : KeySlot) : Nat :=
  if (diffuseAlg header.hashSpec).isSome then slot.afStripes.toNat else min slot.afStripes.toNat 1

/-- The bytes that are decrypted. -/
def decryptedBytes (header : Header) (slot : KeySlot) : Nat :=
  if header.cipher.cipherMode = "ecb" then stripesBytes header slot
  else stripesBytes header slot / 512 * 512

variable {crypto} {rawdev : Blkdev} {header : Header} {slot : KeySlot} {passphrase : Bytes}
  {material : Bytes} {stripes : Stripes}

theorem length_gather {f : Nat → Out Unit Bytes} {is : List Nat} {k : Nat} {data : Bytes}
    (hf : ∀ i ∈ is, ∀ b, f i = .ok b → b.length = k) (h : Out.gather f is = .ok data) :
    data.length = is.length * k := by
  induction is generalizing data with
  | nil =>
    injection h with h
    rw [← h, List.length_nil, List.length_nil, Nat.zero_mul]
  | cons i is ih =>
    obtain ⟨b, bs, hb, hbs, rfl⟩ := Out.gather_cons_ok.mp h
    rw [List.length_append, hf i List.mem_cons_self b hb,
      ih (fun j hj => hf j (List.mem_cons_of_mem _ hj)) hbs, List.length_cons, Nat.succ_mul,
      Nat.add_comm]

/-- A round lies inside the data. -/
theorem round_inside (header : Header) (n i : Nat) (hi : i < cryptRounds header n) :
    i * cryptBlock header n + cryptBlock header n ≤ n := by
  unfold cryptRounds at hi
  unfold cryptBlock
  split at hi
  · rename_i hecb
    rw [if_pos hecb]
    have h0 : i = 0 := by omega
    rw [h0, Nat.zero_mul, Nat.zero_add]
  · rename_i hecb
    rw [if_neg hecb]
    omega

theorem length_cryptRound (hc : crypto.Documented) {key data b : Bytes} {cipher : LUKSCipher}
    {len i : Nat} (hin : i * len + len ≤ data.length)
    (h : cryptRound crypto.toOpenSSL header.cipher key cipher false 0 data len i = .ok b) :
    b.length = len := by
  obtain ⟨iv, -, h⟩ := Out.bind_eq_ok.mp h
  unfold luksCryptData at h
  split at h
  · cases h
  · generalize hx : (data.drop (i * len)).take len = x at h
    cases hy : crypto.cipher cipher.evp cipher.key iv false x with
    | none =>
      rw [hy] at h
      cases h
    | some y =>
      rw [hy] at h
      injection h with h
      rw [← h, hc.size _ _ _ _ _ _ hy, ← hx, List.length_take, List.length_drop]
      omega

theorem length_crypt (hc : crypto.Documented) {key data written : Bytes}
    (h : luksCrypt crypto.toOpenSSL false header.cipher key data 0 = .ok written) :
    written.length = cryptRounds header data.length * cryptBlock header data.length := by
  obtain ⟨cipher, -, h⟩ := Out.bind_eq_ok.mp h
  have hg : Out.gather (cryptRound crypto.toOpenSSL header.cipher key cipher false 0 data
      (cryptBlock header data.length)) (List.range (cryptRounds header data.length)) =
      .ok written := h
  have hlen := length_gather (fun i hi b hb =>
    length_cryptRound hc (round_inside header data.length i (List.mem_range.mp hi)) hb) hg
  rwa [List.length_range] at hlen

theorem Merges.sizes (hc : crypto.Documented)
    (h : Merges crypto rawdev header slot passphrase material stripes) :
    material.length = stripesBytes header slot ∧ stripes.size = stripesBytes header slot ∧
      stripes.written.length = decryptedBytes header slot := by
  have hmat : material.length = stripesBytes header slot := length_blkdevRead h.read
  obtain ⟨key, -, hdec⟩ := h.decrypted
  unfold decryptStripes at hdec
  split at hdec
  · rename_i written hw
    split at hdec
    · injection hdec with hdec
      subst hdec
      refine ⟨hmat, hmat, ?_⟩
      rw [length_crypt hc hw, hmat]
      unfold cryptRounds cryptBlock decryptedBytes
      split
      · rw [Nat.one_mul]
      · rfl
    · cases hdec
  · cases hdec
  · cases hdec

/-! ## Stripe by stripe -/

/-- Where a stripe starts, a product of 32-bit words. -/
def stripeStart (header : Header) (i : Nat) : Nat := u32 (i * header.keyBytes.toNat)

/-- The stripes from number `i` on can be read where the first ones that are read lie in what
was written. -/
theorem afMergeFrom_returns {left : Nat} {key : Bytes} (hle : left ≤ slot.afStripes.toNat)
    (h : ∀ i, slot.afStripes.toNat - left ≤ i → i < slot.afStripes.toNat →
      (i = slot.afStripes.toNat - left ∨ (diffuseAlg header.hashSpec).isSome) →
      stripeStart header i + header.keyBytes.toNat ≤ stripes.written.length) :
    afMergeFrom crypto header slot stripes left key ≠ .stuck := by
  induction left generalizing key with
  | zero => exact fun he => by cases he
  | succ left ih =>
    have hfirst := h (slot.afStripes.toNat - (left + 1)) (Nat.le_refl _) (by omega) (.inl rfl)
    unfold stripeStart at hfirst
    unfold afMergeFrom
    dsimp only
    rw [Stripes.read, if_pos hfirst, Out.ok_bind]
    split
    · cases hd : diffuse crypto header _ with
      | none => exact fun he => by cases he
      | some key' =>
        have hknown : (diffuseAlg header.hashSpec).isSome = true := by
          unfold diffuse at hd
          obtain ⟨alg, ha, -⟩ := Option.map_eq_some_iff.mp hd
          rw [ha, Option.isSome_some]
        exact ih (by omega) fun i hi hlt _ => h i (by omega) hlt (.inr hknown)
    · exact fun he => by cases he

/-- A stripe that is read and does not lie in what was written. -/
theorem afMergeFrom_stuck {left i : Nat} {key : Bytes} (hle : left ≤ slot.afStripes.toNat)
    (hi : slot.afStripes.toNat - left ≤ i) (hlt : i < slot.afStripes.toNat)
    (hread : i = slot.afStripes.toNat - left ∨ (diffuseAlg header.hashSpec).isSome)
    (h : stripes.written.length < stripeStart header i + header.keyBytes.toNat) :
    afMergeFrom crypto header slot stripes left key = .stuck := by
  unfold stripeStart at h
  induction left generalizing key with
  | zero => omega
  | succ left ih =>
    unfold afMergeFrom
    dsimp only
    by_cases hfirst : u32 ((slot.afStripes.toNat - (left + 1)) * header.keyBytes.toNat) +
        header.keyBytes.toNat ≤ stripes.written.length
    · have hne : i ≠ slot.afStripes.toNat - (left + 1) := by
        intro he
        rw [he] at h
        omega
      obtain ⟨alg, halg⟩ := Option.isSome_iff_exists.mp (hread.resolve_left hne)
      rw [Stripes.read, if_pos hfirst, Out.ok_bind, if_pos (by omega), diffuse, halg]
      exact ih (by omega) (by omega) (.inr (by rw [halg, Option.isSome_some]))
    · rw [Stripes.read, if_neg hfirst, Out.stuck_bind]

/-- The starts of the stripes do not wrap around before one of them ends behind 2^32. -/
theorem starts_inside_iff {kb n len : Nat} (hlen : len < 2 ^ 32) :
    (∀ i, i < n → u32 (i * kb) + kb ≤ len) ↔ kb * n ≤ len ∨ n = 0 := by
  constructor
  · intro h
    by_cases h0 : n = 0
    · exact .inr h0
    · left
      -- by induction on the stripes: as long as they end in the buffer they do not wrap around
      have hall : ∀ m, m ≤ n → kb * m ≤ len := by
        intro m
        induction m with
        | zero => intro _; omega
        | succ m ih =>
          intro hm
          have hprev := ih (by omega)
          have hread := h m (by omega)
          rw [Nat.mul_comm m kb, u32_of_lt (by omega)] at hread
          rw [Nat.mul_succ]
          exact hread
      exact hall n (Nat.le_refl _)
  · rintro (h | h) i hi
    · have hle : kb * (i + 1) ≤ kb * n := Nat.mul_le_mul_left _ hi
      rw [Nat.mul_succ] at hle
      rw [Nat.mul_comm i kb, u32_of_lt (by omega)]
      omega
    · omega

/-- The merge reads what was written exactly if the stripes that it reads fit into it. -/
theorem afMerge_returns_iff (hlen : stripes.written.length < 2 ^ 32) :
    afMerge crypto header slot stripes ≠ .stuck ↔
      header.keyBytes.toNat * mergedStripes header slot ≤ stripes.written.length := by
  have hstarts := @starts_inside_iff header.keyBytes.toNat (mergedStripes header slot)
    stripes.written.length hlen
  have hmul : header.keyBytes.toNat * mergedStripes header slot ≤ stripes.written.length ∨
      mergedStripes header slot = 0 ↔
      header.keyBytes.toNat * mergedStripes header slot ≤ stripes.written.length := by
    refine ⟨fun h => h.elim id fun h0 => ?_, .inl⟩
    rw [h0, Nat.mul_zero]
    exact Nat.zero_le _
  rw [← hmul, ← hstarts]
  have hle : mergedStripes header slot ≤ slot.afStripes.toNat := by
    unfold mergedStripes
    split
    · exact Nat.le_refl _
    · exact Nat.min_le_left _ _
  have hread : ∀ i, i < slot.afStripes.toNat → (i < mergedStripes header slot ↔
      (i = slot.afStripes.toNat - slot.afStripes.toNat ∨
        (diffuseAlg header.hashSpec).isSome)) := by
    intro i hi
    unfold mergedStripes
    split
    · rename_i hk
      exact ⟨fun _ => .inr hk, fun _ => hi⟩
    · rename_i hk
      rw [Nat.sub_self, or_iff_left hk]
      omega
  constructor
  · intro h i hi
    by_contra hout
    exact h (afMergeFrom_stuck (Nat.le_refl _) (by omega) (by omega)
      ((hread i (by omega)).mp hi) (Nat.lt_of_not_le hout))
  · intro h
    exact afMergeFrom_returns (Nat.le_refl _) fun i _ hlt hr => h i ((hread i hlt).mpr hr)

/-- For every device, header, slot and passphrase: once the stripes are decrypted, the merge
reads only bytes of the buffer that were written, and only bytes read from the device were
decrypted, exactly if the stripes that are merged take no more bytes than were decrypted. -/
theorem merge_inside_iff (hc : crypto.Documented)
    (h : Merges crypto rawdev header slot passphrase material stripes) :
    Inside crypto header slot material stripes ↔
      header.keyBytes.toNat * mergedStripes header slot ≤ decryptedBytes header slot := by
  obtain ⟨hmat, hsize, hwritten⟩ := h.sizes hc
  have hlt : stripes.written.length < 2 ^ 32 := by
    have hle := stripes.le
    have hu : stripesBytes header slot < 2 ^ 32 := u32_lt _
    omega
  have hmerge := @afMerge_returns_iff crypto header slot stripes hlt
  rw [hwritten] at hmerge
  refine ⟨fun hi => hmerge.mp hi.merge, fun hle => ⟨hsize, hmerge.mpr hle, fun i hi => ?_⟩⟩
  rw [hmat, ← hsize]
  exact round_inside header stripes.size i hi

/-! ## A small device -/

/-- A cipher that leaves the data alone, keys and hash values of zeroes. -/
def plainCrypto : Crypto where
  known evp := evp.bits ≠ 0
  cipher _ _ _ _ x := some x
  sha256 _ := List.replicate 32 0
  pbkdf2 _ _ _ _ keylen := some (List.replicate keylen 0)
  sha _ _ := Digest.zero _

theorem plainCrypto_documented : plainCrypto.Documented where
  size _ _ _ _ _ _ h := by rw [Option.some.inj h]
  bits _ := rfl

/-- A text in an array of 32 characters. -/
def field (s : String) : Bytes := text s ++ List.replicate (32 - (text s).length) 0

/-- A slot on disk, with its material from sector 2 on. -/
def diskSlot (enabled : UInt32) (stripes : Nat) : Bytes :=
  be32 enabled.toNat ++ be32 1 ++ List.replicate 32 0 ++ be32 2 ++ be32 stripes

/-- The header on disk before the slots, with keys of 16 bytes. -/
def diskBase (mode : String) : Bytes :=
  [luksMagic, [0, 1], field "aes", field mode, field "sha1", be32 8, be32 16,
    List.replicate 52 0, be32 1, List.replicate 40 0].flatten

/-- A header with one enabled slot, and two sectors of zeroes. -/
def smallDevice (mode : String) (stripes : Nat) : Blkdev where
  nblks := 4
  data a :=
    if a < 208 then byteAt (diskBase mode) a
    else if a < 256 then byteAt (diskSlot slotEnabled stripes) (a - 208)
    else if a < 592 then byteAt (diskSlot slotDisabled 0) ((a - 208) % 48)
    else 0
  readable _ := true
  writable _ := true

/-- The slot in the machine's byte order. -/
def smallSlot (stripes : Nat) : KeySlot :=
  ⟨enc32 slotEnabled.toNat ++ enc32 1 ++ List.replicate 32 0 ++ enc32 2 ++ enc32 stripes, rfl⟩

/-- The header in the machine's byte order. -/
def smallHeader : Header where
  raw := luksMagic ++ [1, 0] ++ field "aes" ++ field "cbc-plain" ++ field "sha1" ++ enc32 8 ++
    enc32 16 ++ List.replicate 52 0 ++ enc32 1 ++ List.replicate 424 0
  size := by decide +kernel

/-- 32 stripes, which fill a sector. -/
theorem inside_small : ∃ material stripes,
    Merges plainCrypto (smallDevice "cbc-plain" 32) smallHeader (smallSlot 32) [] material stripes ∧
      Inside plainCrypto smallHeader (smallSlot 32) material stripes := by
  have hm : Merges plainCrypto (smallDevice "cbc-plain" 32) smallHeader (smallSlot 32) []
      (List.replicate 512 0) ⟨512, List.replicate 512 0, by decide +kernel⟩ :=
    ⟨by decide +kernel, List.replicate 16 0, by decide +kernel, by decide +kernel⟩
  exact ⟨_, _, hm, (merge_inside_iff plainCrypto_documented hm).mpr (by decide +kernel)⟩

/-- One stripe of 16 bytes: no sector is decrypted, and the merge reads what nobody wrote. -/
theorem one_stripe_not_written :
    ¬ ∀ crypto : Crypto, crypto.Documented → ∀ rawdev header slot passphrase material stripes,
      Merges crypto rawdev header slot passphrase material stripes →
        Inside crypto header slot material stripes := by
  intro h
  have hm : Merges plainCrypto (smallDevice "cbc-plain" 1) smallHeader (smallSlot 1) []
      (List.replicate 16 0) ⟨16, [], by decide⟩ :=
    ⟨by decide +kernel, List.replicate 16 0, by decide +kernel, by decide +kernel⟩
  exact (h _ plainCrypto_documented _ _ _ _ _ _ hm).merge (by decide +kernel)

end LsvmTools.LuksKeys
