import LsvmTools.Blkdev

/-! # LUKS sector encryption

`LUKSCrypt` encrypts and decrypts runs of sectors. Every sector has its own
initialisation vector, made from its number as the cipher mode says; in the mode
`ecb` there is none and the run is handled as a whole. The ciphers themselves are
OpenSSL's. -/
namespace LsvmTools.Luks
open Lib.ByteString Lib.Program Lib.Sectors Blkdev

inductive CipherMode where
  | ecb
  | cbc
  | xts
deriving DecidableEq

/-- An OpenSSL cipher `AES-<bits>-<mode>`. -/
structure Evp where
  bits : Nat
  mode : CipherMode
deriving DecidableEq

/-- What the driver uses of OpenSSL: the ciphers that `EVP_get_cipherbyname` knows,
`EVP_CipherInit_ex`, `EVP_CipherUpdate` and `EVP_CipherFinal_ex` without padding
(key, initialisation vector, whether to encrypt, data), and SHA-256. -/
structure OpenSSL where
  known : Evp → Bool
  cipher : Evp → Bytes → Bytes → Bool → Bytes → Option Bytes
  sha256 : Bytes → Bytes

structure LUKSHeader where
  cipherName : String
  cipherMode : String
  payloadOffset : UInt32
  keyBytes : UInt32

structure LUKSCipher where
  evp : Evp
  key : Bytes

variable (ssl : OpenSSL)

/-- `LUKSGetCipher`. -/
def luksGetCipher (header : LUKSHeader) (key : Bytes) : Option LUKSCipher :=
  if header.cipherName ≠ "aes" then none
  else do
    let keyBits := u32 (header.keyBytes.toNat * 8)
    let evp : Evp ←
      if header.cipherMode = "ecb" then some ⟨keyBits, .ecb⟩
      else if header.cipherMode = "cbc-plain" then some ⟨keyBits, .cbc⟩
      else if header.cipherMode = "cbc-essiv:" then some ⟨keyBits, .cbc⟩
      else if header.cipherMode = "xts-plain64" then some ⟨keyBits / 2, .xts⟩
      else none
    if ssl.known evp then some ⟨evp, key.take header.keyBytes.toNat⟩ else none

/-- `LUKSGetAES256ECBCipher`. -/
def luksGetAES256ECBCipher (key : Bytes) : LUKSCipher := ⟨⟨256, .ecb⟩, key⟩

/-- `LUKSCryptData`. The size is passed on as an `int`: from 2^31 on there is no
result that the rest of the output buffer could be told from. -/
def luksCryptData (cipher : LUKSCipher) (enc : Bool) (iv input : Bytes) : Out Unit Bytes :=
  if 2 ^ 31 ≤ input.length then .stuck
  else Out.ofOption () (ssl.cipher cipher.evp cipher.key iv enc input)

/-- The bytes of a sector number in memory. -/
def enc64 (v : UInt64) : Bytes := enc32 v.toNat ++ enc32 (v.toNat / 2 ^ 32)

/-- `_GenIV`, into a vector of 16 (`LUKS_IV_SIZE`) zeros. -/
def genIV (header : LUKSHeader) (sec : UInt64) (key : Bytes) : Out Unit Bytes :=
  if header.cipherMode = "ecb" then pure (List.replicate 16 0)
  else if header.cipherMode = "xts-plain64" then pure (enc64 sec ++ List.replicate 8 0)
  else if header.cipherMode = "cbc-plain" then
    pure ((enc64 sec).take 4 ++ List.replicate 12 0)
  else
    let hash := ssl.sha256 (key.take header.keyBytes.toNat)
    luksCryptData ssl (luksGetAES256ECBCipher hash) true [] (enc64 sec ++ List.replicate 8 0)

/-- One round of the loop of `LUKSCrypt`. -/
def cryptRound (header : LUKSHeader) (key : Bytes) (cipher : LUKSCipher) (enc : Bool)
    (sector : UInt64) (input : Bytes) (blockLen i : Nat) : Out Unit Bytes := do
  let iv ← genIV ssl header (Addr.nth sector i) key
  luksCryptData ssl cipher enc iv ((input.drop (i * blockLen)).take blockLen)

/-- `LUKSCrypt`. -/
def luksCrypt (enc : Bool) (header : LUKSHeader) (key input : Bytes) (sector : UInt64) :
    Out Unit Bytes := do
  let cipher ← Out.ofOption () (luksGetCipher ssl header key)
  let ecb := header.cipherMode = "ecb"
  let iters := if ecb then 1 else input.length / 512
  let blockLen := if ecb then input.length else 512
  Out.gather (cryptRound ssl header key cipher enc sector input blockLen) (List.range iters)

/-! ## Runs of sectors -/

/-- What the driver relies on: a sector is decrypted to what was encrypted, its size
stays, and `ECB` handles one sector after another. -/
structure OpenSSL.Sound (ssl : OpenSSL) : Prop where
  decrypt : ∀ evp key iv x y, x.length = 512 → ssl.cipher evp key iv true x = some y →
    ssl.cipher evp key iv false y = some x
  size : ∀ evp key iv enc x y, x.length = 512 → ssl.cipher evp key iv enc x = some y →
    y.length = 512
  ecb : ∀ bits key iv enc x xs, x.length = 512 → xs ≠ [] →
    ssl.cipher ⟨bits, .ecb⟩ key iv enc (x ++ xs) = (do
      let y ← ssl.cipher ⟨bits, .ecb⟩ key iv enc x
      let ys ← ssl.cipher ⟨bits, .ecb⟩ key iv enc xs
      some (y ++ ys))

variable {ssl} {header : LUKSHeader} {key : Bytes} {enc : Bool}

/-- A sector on its own. -/
def cryptSector (ssl : OpenSSL) (enc : Bool) (header : LUKSHeader) (key : Bytes) (sec : UInt64)
    (d : Sector) : Out Unit Bytes := luksCrypt ssl enc header key d.bytes sec

/-- The sectors `es` are what the sectors `ds`, the first of them the `k`-th after
`sec`, turn into one by one. -/
def Crypts (ssl : OpenSSL) (enc : Bool) (header : LUKSHeader) (key : Bytes) (sec : UInt64) :
    Nat → List Sector → List Sector → Prop
  | _, [], es => es = []
  | k, d :: ds, es => ∃ e es', es = e :: es' ∧
      cryptSector ssl enc header key (Addr.nth sec k) d = .ok e.bytes ∧
      Crypts ssl enc header key sec (k + 1) ds es'

theorem cryptSector_eq (sec : UInt64) (d : Sector) :
    cryptSector ssl enc header key sec d = (do
      let cipher ← Out.ofOption () (luksGetCipher ssl header key)
      let iv ← genIV ssl header sec key
      luksCryptData ssl cipher enc iv d.bytes) := by
  have hd := d.size
  have hn : (Addr.nth sec 0 : UInt64) = sec := UInt64.add_zero sec
  unfold cryptSector luksCrypt
  cases luksGetCipher ssl header key with
  | none => rfl
  | some cipher =>
    have hround : ∀ len, 512 ≤ len → cryptRound ssl header key cipher enc sec d.bytes len 0 = (do
        let iv ← genIV ssl header sec key
        luksCryptData ssl cipher enc iv d.bytes) := by
      intro len hlen
      unfold cryptRound
      rw [hn, Nat.zero_mul, List.drop_zero, List.take_of_length_le (by omega)]
    have hone : ∀ x : Out Unit Bytes, (do
        let xs ← x
        let ys ← Out.ok []
        pure (xs ++ ys)) = x := by
      intro x
      cases x <;> simp
    simp only [Out.ofOption, Out.ok_bind, hd, Nat.div_self (show 0 < 512 by decide), ite_self,
      List.range_one, Out.gather, hround 512 (Nat.le_refl _)]
    exact hone _

theorem cryptSector_size (h : ssl.Sound) {sec : UInt64} {d : Sector} {b : Bytes}
    (hb : cryptSector ssl enc header key sec d = .ok b) : b.length = 512 := by
  rw [cryptSector_eq] at hb
  obtain ⟨cipher, -, hb⟩ := Out.bind_eq_ok.mp hb
  obtain ⟨iv, -, hb⟩ := Out.bind_eq_ok.mp hb
  unfold luksCryptData at hb
  split at hb
  · cases hb
  · cases hc : ssl.cipher cipher.evp cipher.key iv enc d.bytes with
    | none => rw [hc] at hb; cases hb
    | some y => rw [hc] at hb; cases hb; exact h.size _ _ _ _ _ _ d.size hc

/-- A sector is decrypted to what was encrypted. -/
theorem decrypt_encrypt (h : ssl.Sound) {sec : UInt64} {d e : Sector}
    (he : cryptSector ssl true header key sec d = .ok e.bytes) :
    cryptSector ssl false header key sec e = .ok d.bytes := by
  have hd := d.size
  have hsz := e.size
  rw [cryptSector_eq] at he ⊢
  obtain ⟨cipher, hc, he⟩ := Out.bind_eq_ok.mp he
  obtain ⟨iv, hiv, he⟩ := Out.bind_eq_ok.mp he
  rw [hc, Out.ok_bind, hiv, Out.ok_bind]
  unfold luksCryptData at he ⊢
  rw [if_neg (by omega)] at he ⊢
  cases hy : ssl.cipher cipher.evp cipher.key iv true d.bytes with
  | none => rw [hy] at he; cases he
  | some y =>
    rw [hy] at he
    cases he
    rw [h.decrypt _ _ _ _ _ hd hy]
    rfl

/-- Where each round handles one sector, so does the loop. -/
theorem crypts_of_gather (h : ssl.Sound) {sec : UInt64} {f : Nat → Out Unit Bytes}
    {ds : List Sector} {k : Nat} {out : Bytes}
    (hf : ∀ j (hj : j < ds.length), f (k + j) =
      cryptSector ssl enc header key (Addr.nth sec (k + j)) ds[j])
    (hg : Out.gather f (List.range' k ds.length) = .ok out) :
    ∃ es, out = concat es ∧ Crypts ssl enc header key sec k ds es := by
  induction ds generalizing k out with
  | nil => cases hg; exact ⟨[], rfl, rfl⟩
  | cons d ds ih =>
    rw [List.length_cons, List.range'_succ] at hg
    obtain ⟨b, bs, hb, hbs, rfl⟩ := Out.gather_cons_ok.mp hg
    have hd := hf 0 (by simp)
    rw [Nat.add_zero, List.getElem_cons_zero, hb] at hd
    obtain ⟨es, rfl, hes⟩ := ih (fun j hj => by
      have := hf (j + 1) (by simpa using hj)
      rwa [List.getElem_cons_succ, show k + (j + 1) = k + 1 + j by omega] at this) hbs
    have hsz := cryptSector_size h hd.symm
    exact ⟨⟨b, hsz⟩ :: es, rfl, _, _, rfl, hd.symm, hes⟩

theorem crypts_ecb (h : ssl.Sound) {bits : Nat} {k0 iv : Bytes} {sec : UInt64}
    (hsec : ∀ x d, cryptSector ssl enc header key x d =
      Out.ofOption () (ssl.cipher ⟨bits, .ecb⟩ k0 iv enc d.bytes))
    {ds : List Sector} (hne : ds ≠ []) {k : Nat} {out : Bytes}
    (hc : ssl.cipher ⟨bits, .ecb⟩ k0 iv enc (concat ds) = some out) :
    ∃ es, out = concat es ∧ Crypts ssl enc header key sec k ds es := by
  induction ds generalizing k out with
  | nil => exact absurd rfl hne
  | cons d ds ih =>
    change ssl.cipher ⟨bits, .ecb⟩ k0 iv enc (d.bytes ++ concat ds) = some out at hc
    cases ds with
    | nil =>
      rw [show concat [] = [] from rfl, List.append_nil] at hc
      have hd : cryptSector ssl enc header key (Addr.nth sec k) d = .ok out := by rw [hsec, hc]; rfl
      exact ⟨[⟨out, cryptSector_size h hd⟩], by simp [concat], _, _, rfl, hd, rfl⟩
    | cons d' ds =>
      have hemp : concat (d' :: ds) ≠ [] := by
        intro he
        have := length_concat (d' :: ds)
        rw [he, List.length_cons] at this
        simp at this
      rw [h.ecb _ _ _ _ _ _ d.size hemp] at hc
      obtain ⟨y, hy, hc⟩ := Option.bind_eq_some_iff.mp hc
      obtain ⟨ys, hys, hc⟩ := Option.bind_eq_some_iff.mp hc
      cases hc
      have hd : cryptSector ssl enc header key (Addr.nth sec k) d = .ok y := by rw [hsec, hy]; rfl
      obtain ⟨es, rfl, hes⟩ := ih (by simp) (k := k + 1) hys
      exact ⟨⟨y, cryptSector_size h hd⟩ :: es, rfl, _, _, rfl, hd, hes⟩

theorem concat_sector {ds : List Sector} {j : Nat} (hj : j < ds.length) :
    ((concat ds).drop (j * 512)).take 512 = ds[j].bytes := by
  induction ds generalizing j with
  | nil => cases hj
  | cons d ds ih =>
    have hd := d.size
    cases j with
    | zero =>
      rw [Nat.zero_mul, List.drop_zero, List.getElem_cons_zero, concat, List.flatMap_cons,
        List.take_append_of_le_length (by omega), List.take_of_length_le (by omega)]
    | succ j =>
      have hdrop : (concat (d :: ds)).drop ((j + 1) * 512) = (concat ds).drop (j * 512) := by
        rw [concat, List.flatMap_cons, List.drop_append, List.drop_eq_nil_of_le (by omega),
          List.nil_append]
        congr 1; omega
      rw [hdrop, List.getElem_cons_succ]
      exact ih (by simpa using hj)

/-- `LUKSCrypt` handles a run of sectors one by one. -/
theorem luksCrypt_crypts (h : ssl.Sound) {ds : List Sector} (hne : ds ≠ []) {sec : UInt64}
    {out : Bytes} (hc : luksCrypt ssl enc header key (concat ds) sec = .ok out) :
    ∃ es, out = concat es ∧ Crypts ssl enc header key sec 0 ds es := by
  have hlen := length_concat ds
  obtain ⟨cipher, hcipher, hc⟩ := Out.bind_eq_ok.mp hc
  by_cases hecb : header.cipherMode = "ecb"
  · obtain ⟨bits, k0, rfl⟩ : ∃ bits k0, cipher = ⟨⟨bits, .ecb⟩, k0⟩ := by
      unfold luksGetCipher at hcipher
      split at hcipher
      · cases hcipher
      · simp only [Option.bind_eq_bind, Option.bind_some] at hcipher
        split at hcipher
        · cases hcipher; exact ⟨_, _, rfl⟩
        · cases hcipher
    have hiv : ∀ x, genIV ssl header x key = .ok (List.replicate 16 0) := fun x => by
      unfold genIV; rw [if_pos hecb]; rfl
    have hsec : ∀ x d, cryptSector ssl enc header key x d =
        Out.ofOption () (ssl.cipher ⟨bits, .ecb⟩ k0 (List.replicate 16 0) enc d.bytes) := by
      intro x d
      have hd := d.size
      rw [cryptSector_eq, hcipher, Out.ok_bind, hiv, Out.ok_bind, luksCryptData,
        if_neg (by omega)]
    simp only [hecb, if_true, List.range_one] at hc
    obtain ⟨b, bs, hb, hbs, rfl⟩ := Out.gather_cons_ok.mp hc
    cases hbs
    unfold cryptRound at hb
    rw [hiv, Out.ok_bind, Nat.zero_mul, List.drop_zero, List.take_length, luksCryptData] at hb
    split at hb
    · cases hb
    · cases hy : ssl.cipher ⟨bits, .ecb⟩ k0 (List.replicate 16 0) enc (concat ds) with
      | none => rw [hy] at hb; cases hb
      | some y =>
        rw [hy] at hb
        cases hb
        rw [List.append_nil]
        exact crypts_ecb h hsec hne hy
  · simp only [hecb, if_false, hlen, Nat.mul_div_cancel _ (show 0 < 512 by decide)] at hc
    rw [List.range_eq_range'] at hc
    refine crypts_of_gather h (fun j hj => ?_) hc
    rw [Nat.zero_add, cryptSector_eq, hcipher, Out.ok_bind]
    unfold cryptRound
    rw [concat_sector hj]

/-- The content of the sectors after a run is encrypted or decrypted. -/
theorem Crypts.length_eq {sec : UInt64} {k : Nat} {ds es : List Sector}
    (h : Crypts ssl enc header key sec k ds es) : es.length = ds.length := by
  induction ds generalizing k es with
  | nil => cases h; rfl
  | cons d ds ih =>
    obtain ⟨e, es', rfl, -, h⟩ := h
    rw [List.length_cons, List.length_cons, ih h]

end LsvmTools.Luks
