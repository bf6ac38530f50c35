import LsvmTools.Lib.Codec
import LsvmTools.Lib.ByteString

/-! # Sealed blobs

How the parts of a `TPM2X_BLOB` are packed and unpacked. A union is the member its selector
names; a buffer is the bytes that its size counts. -/
namespace LsvmTools.TpmBlob
open Lib.ByteString Lib.Program Lib.Codec

/-! ## Types -/

/-- A buffer of `cap` bytes behind its size. -/
@[ext] structure Sized (cap : Nat) where
  bytes : Bytes
  size_le : bytes.length ≤ cap

instance {cap : Nat} : DecidableEq (Sized cap) := fun _ _ => decidable_of_iff _ Sized.ext_iff.symm

def Sized.empty (cap : Nat) : Sized cap := ⟨[], Nat.zero_le cap⟩

/-- The ciphers that have key bits and a mode. -/
inductive BlockCipher where
  | aes
  | sm4
  | camellia
deriving DecidableEq

def BlockCipher.alg : BlockCipher → UInt16
  | .aes => 0x0006
  | .sm4 => 0x0013
  | .camellia => 0x0026

def blockCipher (alg : UInt16) : Option BlockCipher :=
  if alg = 0x0006 then some .aes
  else if alg = 0x0013 then some .sm4
  else if alg = 0x0026 then some .camellia
  else none

/-- `TPM_ALG_XOR`. -/
def algXor : UInt16 := 0x000A

/-- `TPM_ALG_HMAC`. -/
def algHmac : UInt16 := 0x0005

/-- `TPM_ALG_NULL`. -/
def algNull : UInt16 := 0x0010

/-- `TPMT_SYM_DEF_OBJECT`. -/
inductive SymDef where
  | block (cipher : BlockCipher) (keyBits mode : UInt16)
  | xor (keyBits : UInt16)
  | other (algorithm : UInt16) (unknown : blockCipher algorithm = none) (ne : algorithm ≠ algXor)
deriving DecidableEq

def SymDef.algorithm : SymDef → UInt16
  | .block cipher _ _ => cipher.alg
  | .xor _ => algXor
  | .other algorithm _ _ => algorithm

/-- `TPMT_KEYEDHASH_SCHEME`. -/
inductive KeyedHashScheme where
  | hmac (hashAlg : UInt16)
  | xor (hashAlg kdf : UInt16)
  | null
  | other (scheme : UInt16)
deriving DecidableEq

def KeyedHashScheme.scheme : KeyedHashScheme → UInt16
  | .hmac _ => algHmac
  | .xor _ _ => algXor
  | .null => algNull
  | .other scheme => scheme

/-- `TPMT_RSA_SCHEME` and `TPMT_ECC_SCHEME`. -/
inductive AsymScheme where
  | null
  | other (scheme : UInt16)
deriving DecidableEq

def AsymScheme.scheme : AsymScheme → UInt16
  | .null => algNull
  | .other scheme => scheme

/-- The key derivation functions that name a hash. -/
inductive Kdf where
  | mgf1
  | kdf1Sp80056a
  | kdf2
  | kdf1Sp800108
deriving DecidableEq

def Kdf.alg : Kdf → UInt16
  | .mgf1 => 0x0007
  | .kdf1Sp80056a => 0x0020
  | .kdf2 => 0x0021
  | .kdf1Sp800108 => 0x0022

def kdf (alg : UInt16) : Option Kdf :=
  if alg = 0x0007 then some .mgf1
  else if alg = 0x0020 then some .kdf1Sp80056a
  else if alg = 0x0021 then some .kdf2
  else if alg = 0x0022 then some .kdf1Sp800108
  else none

/-- `TPMT_KDF_SCHEME`. -/
inductive KdfScheme where
  | hash (kdf : Kdf) (hashAlg : UInt16)
  | null
  | other (scheme : UInt16)
deriving DecidableEq

def KdfScheme.scheme : KdfScheme → UInt16
  | .hash kdf _ => kdf.alg
  | .null => algNull
  | .other scheme => scheme

/-- `TPMS_RSA_PARMS`. -/
structure RsaParms where
  symmetric : SymDef
  scheme : AsymScheme
  keyBits : UInt16
  exponent : UInt32
deriving DecidableEq

/-- `TPMS_ECC_PARMS`. -/
structure EccParms where
  symmetric : SymDef
  scheme : AsymScheme
  curveID : UInt16
  kdf : KdfScheme
deriving DecidableEq

/-- The type of a `TPMT_PUBLIC` with the members of `TPMU_PUBLIC_PARMS` and `TPMU_PUBLIC_ID`
that it selects. -/
inductive PublicMember where
  | keyedHash (detail : KeyedHashScheme) (unique : Sized 64)
  | symCipher (detail : SymDef) (unique : Sized 64)
  | rsa (detail : RsaParms) (unique : Sized 256)
  | ecc (detail : EccParms) (x y : Sized 48)
  | other (type : UInt16)
deriving DecidableEq

def PublicMember.type : PublicMember → UInt16
  | .keyedHash _ _ => 0x0008
  | .symCipher _ _ => 0x0025
  | .rsa _ _ => 0x0001
  | .ecc _ _ _ => 0x0023
  | .other type => type

/-- `TPMT_PUBLIC`. -/
structure TpmtPublic where
  nameAlg : UInt16
  objectAttributes : UInt32
  authPolicy : Sized 64
  member : PublicMember
deriving DecidableEq

/-- `TPM2B_PUBLIC`. -/
structure Tpm2bPublic where
  size : UInt16
  publicArea : TpmtPublic
deriving DecidableEq

/-- `TPM2X_BLOB`. -/
structure Blob where
  priv : Sized 910
  pub : Tpm2bPublic
  hash : Sized 64
  pcr : Sized 3
deriving DecidableEq

/-- `sizeof(TPM2X_BLOB)`. -/
def sizeofBlob : Nat := 1344

/-! ## Packing -/

/-- `__BUF_CAPACITY`. -/
def bufCapacity : Nat := 4096

/-- `ByteSwapU16`, as it lies in memory. -/
def be16 (x : UInt16) : Bytes := [UInt8.ofNat (x.toNat / 256), UInt8.ofNat x.toNat]

/-- `ByteSwapU32`, as it lies in memory. -/
def be32 (x : UInt32) : Bytes :=
  [UInt8.ofNat (x.toNat / 16777216), UInt8.ofNat (x.toNat / 65536),
    UInt8.ofNat (x.toNat / 256), UInt8.ofNat x.toNat]

/-- `TPMBufPack`; once there has been an error nothing more is packed. -/
def tpmBufPack (data : Bytes) : Writer UInt8 := fun buf =>
  if data.length > bufCapacity - buf.length then .err () else .ok (buf ++ data)

def tpmBufPackU8 (x : UInt8) : Writer UInt8 := tpmBufPack [x]

def tpmBufPackU16 (x : UInt16) : Writer UInt8 := tpmBufPack (be16 x)

def tpmBufPackU32 (x : UInt32) : Writer UInt8 := tpmBufPack (be32 x)

/-- The loop that packs the bytes of a buffer. -/
def packBytes : Bytes → Writer UInt8
  | [] => .nothing
  | x :: xs => (tpmBufPackU8 x).seq (packBytes xs)

variable {cap : Nat}

/-- `_Pack_TPM2B`. -/
def packTpm2b (p : Sized cap) : Writer UInt8 :=
  (tpmBufPackU16 (UInt16.ofNat p.bytes.length)).seq (packBytes p.bytes)

/-- `_Pack_TPMS_PCR_SELECT`. -/
def packPcrSelect (pcr : Sized 3) : Writer UInt8 :=
  (tpmBufPackU8 (UInt8.ofNat pcr.bytes.length)).seq (packBytes pcr.bytes)

/-- `_Pack_TPMU_SCHEME_KEYEDHASH`. -/
def packSchemeKeyedHash : KeyedHashScheme → Writer UInt8
  | .hmac hashAlg => tpmBufPackU16 hashAlg
  | .xor hashAlg kdf => (tpmBufPackU16 hashAlg).seq (tpmBufPackU16 kdf)
  | .null => .nothing
  | .other _ => .fail

/-- `_Pack_TPMT_KEYEDHASH_SCHEME`. -/
def packKeyedHashScheme (p : KeyedHashScheme) : Writer UInt8 :=
  (tpmBufPackU16 p.scheme).seq (packSchemeKeyedHash p)

/-- `_Pack_TPMU_SYM_KEY_BITS`. -/
def packSymKeyBits : SymDef → Writer UInt8
  | .block _ keyBits _ => tpmBufPackU16 keyBits
  | .xor keyBits => tpmBufPackU16 keyBits
  | .other _ _ _ => .nothing

/-- `_Pack_TPMU_SYM_MODE`. -/
def packSymMode : SymDef → Writer UInt8
  | .block _ _ mode => tpmBufPackU16 mode
  | .xor _ => .nothing
  | .other _ _ _ => .nothing

/-- `_Pack_TPMT_SYM_DEF_OBJECT`. -/
def packSymDef (p : SymDef) : Writer UInt8 :=
  (tpmBufPackU16 p.algorithm).seq ((packSymKeyBits p).seq (packSymMode p))

/-- `_Pack_TPMU_ASYM_SCHEME`. -/
def packAsymDetails : AsymScheme → Writer UInt8
  | .null => .nothing
  | .other _ => .fail

/-- `_Pack_TPMT_RSA_SCHEME` and `_Pack_TPMT_ECC_SCHEME`. -/
def packAsymScheme (p : AsymScheme) : Writer UInt8 :=
  (tpmBufPackU16 p.scheme).seq (packAsymDetails p)

/-- `_Pack_TPMS_RSA_PARMS`. -/
def packRsaParms (p : RsaParms) : Writer UInt8 :=
  (packSymDef p.symmetric).seq ((packAsymScheme p.scheme).seq
    ((tpmBufPackU16 p.keyBits).seq (tpmBufPackU32 p.exponent)))

/-- `_Pack_TPMU_KDF_SCHEME`. -/
def packKdfDetails : KdfScheme → Writer UInt8
  | .hash _ hashAlg => tpmBufPackU16 hashAlg
  | .null => .nothing
  | .other _ => .fail

/-- `_Pack_TPMT_KDF_SCHEME`. -/
def packKdfScheme (p : KdfScheme) : Writer UInt8 :=
  (tpmBufPackU16 p.scheme).seq (packKdfDetails p)

/-- `_Pack_TPMS_ECC_PARMS`. -/
def packEccParms (p : EccParms) : Writer UInt8 :=
  (packSymDef p.symmetric).seq ((packAsymScheme p.scheme).seq
    ((tpmBufPackU16 p.curveID).seq (packKdfScheme p.kdf)))

/-- `_Pack_TPMU_PUBLIC_PARMS`. -/
def packPublicParms : PublicMember → Writer UInt8
  | .keyedHash detail _ => packKeyedHashScheme detail
  | .symCipher detail _ => packSymDef detail
  | .rsa detail _ => packRsaParms detail
  | .ecc detail _ _ => packEccParms detail
  | .other _ => .fail

/-- `_Pack_TPMU_PUBLIC_ID`. -/
def packPublicId : PublicMember → Writer UInt8
  | .keyedHash _ unique => packTpm2b unique
  | .symCipher _ unique => packTpm2b unique
  | .rsa _ unique => packTpm2b unique
  | .ecc _ x y => (packTpm2b x).seq (packTpm2b y)
  | .other _ => .nothing

/-- `_Pack_TPMT_PUBLIC`. -/
def packTpmtPublic (p : TpmtPublic) : Writer UInt8 :=
  (tpmBufPackU16 p.member.type).seq ((tpmBufPackU16 p.nameAlg).seq
    ((tpmBufPackU32 p.objectAttributes).seq ((packTpm2b p.authPolicy).seq
      ((packPublicParms p.member).seq (packPublicId p.member)))))

/-- `_Pack_TPM2B_PUBLIC`: the size is packed as it is and overwritten when the rest is there. -/
def packTpm2bPublic (p : Tpm2bPublic) : Writer UInt8 := fun buf => do
  let buf ← tpmBufPackU16 p.size buf
  let start := buf.length
  let buf ← packTpmtPublic p.publicArea buf
  pure (splice buf (start - 2) (be16 (UInt16.ofNat (buf.length - start))))

/-- `TPM2X_SerializeBlob`. -/
def serializeBlob (blob : Blob) (blobBufferSize : Nat) : Out Unit Bytes :=
  if blobBufferSize < sizeofBlob then .err ()
  else (packTpm2b blob.priv).seq ((packTpm2bPublic blob.pub).seq
    ((packTpm2b blob.hash).seq (packPcrSelect blob.pcr))) []

/-! ## Unpacking -/

def tpmBufUnpackU8 : Reader UInt8 UInt8 := .next

def tpmBufUnpackU16 : Reader UInt8 UInt16 where
  read
    | x :: y :: rest => .ok (UInt16.ofNat (256 * x.toNat + y.toNat), rest)
    | _ => .err ()

def tpmBufUnpackU32 : Reader UInt8 UInt32 where
  read
    | x :: y :: z :: w :: rest =>
      .ok (UInt32.ofNat (16777216 * x.toNat + 65536 * y.toNat + 256 * z.toNat + w.toNat), rest)
    | _ => .err ()

/-- The loop that unpacks `n` bytes into a buffer of `cap`. -/
def unpackBytes : (n cap : Nat) → Reader UInt8 (Sized cap)
  | 0, cap => pure ⟨[], Nat.zero_le cap⟩
  | _ + 1, 0 => do
    let _ ← tpmBufUnpackU8
    .stuck
  | n + 1, cap + 1 => do
    let x ← tpmBufUnpackU8
    let p ← unpackBytes n cap
    pure ⟨x :: p.bytes, Nat.succ_le_succ p.size_le⟩

/-- `_Unpack_TPM2B`. -/
def unpackTpm2b (cap : Nat) : Reader UInt8 (Sized cap) := do
  let size ← tpmBufUnpackU16
  unpackBytes size.toNat cap

/-- `_Unpack_TPMS_PCR_SELECT`. -/
def unpackPcrSelect : Reader UInt8 (Sized 3) := do
  let sizeofSelect ← tpmBufUnpackU8
  unpackBytes sizeofSelect.toNat 3

/-- `_Unpack_TPMU_SCHEME_KEYEDHASH`. -/
def unpackSchemeKeyedHash (scheme : UInt16) : Reader UInt8 KeyedHashScheme :=
  if scheme = algHmac then do
    let hashAlg ← tpmBufUnpackU16
    pure (.hmac hashAlg)
  else if scheme = algXor then do
    let hashAlg ← tpmBufUnpackU16
    let kdf ← tpmBufUnpackU16
    pure (.xor hashAlg kdf)
  else if scheme = algNull then pure .null
  else .fail

/-- `_Unpack_TPMT_KEYEDHASH_SCHEME`. -/
def unpackKeyedHashScheme : Reader UInt8 KeyedHashScheme := do
  let scheme ← tpmBufUnpackU16
  unpackSchemeKeyedHash scheme

/-- `_Unpack_TPMU_SYM_KEY_BITS` and `_Unpack_TPMU_SYM_MODE`. -/
def unpackSymDetails (algorithm : UInt16) : Reader UInt8 SymDef :=
  match h : blockCipher algorithm with
  | some cipher => do
    let keyBits ← tpmBufUnpackU16
    let mode ← tpmBufUnpackU16
    pure (.block cipher keyBits mode)
  | none =>
    if hx : algorithm = algXor then do
      let keyBits ← tpmBufUnpackU16
      pure (.xor keyBits)
    else pure (.other algorithm h hx)

/-- `_Unpack_TPMT_SYM_DEF_OBJECT`. -/
def unpackSymDef : Reader UInt8 SymDef := do
  let algorithm ← tpmBufUnpackU16
  unpackSymDetails algorithm

/-- `_Unpack_TPMU_ASYM_SCHEME`. -/
def unpackAsymDetails (scheme : UInt16) : Reader UInt8 AsymScheme :=
  if scheme = algNull then pure .null else .fail

/-- `_Unpack_TPMT_RSA_SCHEME` and `_Unpack_TPMT_ECC_SCHEME`. -/
def unpackAsymScheme : Reader UInt8 AsymScheme := do
  let scheme ← tpmBufUnpackU16
  unpackAsymDetails scheme

/-- `_Unpack_TPMS_RSA_PARMS`. -/
def unpackRsaParms : Reader UInt8 RsaParms := do
  let symmetric ← unpackSymDef
  let scheme ← unpackAsymScheme
  let keyBits ← tpmBufUnpackU16
  let exponent ← tpmBufUnpackU32
  pure ⟨symmetric, scheme, keyBits, exponent⟩

/-- `_Unpack_TPMU_KDF_SCHEME`. -/
def unpackKdfDetails (scheme : UInt16) : Reader UInt8 KdfScheme :=
  match kdf scheme with
  | some kdf => do
    let hashAlg ← tpmBufUnpackU16
    pure (.hash kdf hashAlg)
  | none => if scheme = algNull then pure .null else .fail

/-- `_Unpack_TPMT_KDF_SCHEME`. -/
def unpackKdfScheme : Reader UInt8 KdfScheme := do
  let scheme ← tpmBufUnpackU16
  unpackKdfDetails scheme

/-- `_Unpack_TPMS_ECC_PARMS`. -/
def unpackEccParms : Reader UInt8 EccParms := do
  let symmetric ← unpackSymDef
  let scheme ← unpackAsymScheme
  let curveID ← tpmBufUnpackU16
  let kdf ← unpackKdfScheme
  pure ⟨symmetric, scheme, curveID, kdf⟩

/-- `_Unpack_TPMU_PUBLIC_PARMS` and `_Unpack_TPMU_PUBLIC_ID`. -/
def unpackPublicMember (type : UInt16) : Reader UInt8 PublicMember :=
  if type = 0x0008 then do
    let detail ← unpackKeyedHashScheme
    let unique ← unpackTpm2b 64
    pure (.keyedHash detail unique)
  else if type = 0x0025 then do
    let detail ← unpackSymDef
    let unique ← unpackTpm2b 64
    pure (.symCipher detail unique)
  else if type = 0x0001 then do
    let detail ← unpackRsaParms
    let unique ← unpackTpm2b 256
    pure (.rsa detail unique)
  else if type = 0x0023 then do
    let detail ← unpackEccParms
    let x ← unpackTpm2b 48
    let y ← unpackTpm2b 48
    pure (.ecc detail x y)
  else .fail

/-- `_Unpack_TPMT_PUBLIC`. -/
def unpackTpmtPublic : Reader UInt8 TpmtPublic := do
  let type ← tpmBufUnpackU16
  let nameAlg ← tpmBufUnpackU16
  let objectAttributes ← tpmBufUnpackU32
  let authPolicy ← unpackTpm2b 64
  let member ← unpackPublicMember type
  pure ⟨nameAlg, objectAttributes, authPolicy, member⟩

/-- `_Unpack_TPM2B_PUBLIC`. -/
def unpackTpm2bPublic : Reader UInt8 Tpm2bPublic := do
  let size ← tpmBufUnpackU16
  let publicArea ← unpackTpmtPublic
  pure ⟨size, publicArea⟩

/-- The parts of a blob, in order. -/
def unpackBlob : Reader UInt8 Blob := do
  let priv ← unpackTpm2b 910
  let pub ← unpackTpm2bPublic
  let hash ← unpackTpm2b 64
  let pcr ← unpackPcrSelect
  pure ⟨priv, pub, hash, pcr⟩

/-- `TPM2X_DeserializeBlob`. -/
def deserializeBlob (blobBuffer : Bytes) : Out Unit Blob :=
  if blobBuffer.length > sizeofBlob then .err ()
  else do
    let buf ← tpmBufPack blobBuffer []
    let x ← unpackBlob.read buf
    pure x.1

end LsvmTools.TpmBlob
