import LsvmTools.TpmBlob

/-! # Sealed blobs round trip

What each part packs, its unpacker reads back; cut short, it is an error. -/
namespace LsvmTools.TpmBlobCodec
open Lib.ByteString Lib.Program Lib.Codec TpmBlob

variable {α β : Type} {cap n : Nat}

/-! ## Integers -/

theorem reads_u16 (x : UInt16) : Reads tpmBufUnpackU16 x (be16 x) := by
  have hx := x.toNat_lt
  have hvalue : UInt16.ofNat (256 * (UInt8.ofNat (x.toNat / 256)).toNat +
      (UInt8.ofNat x.toNat).toNat) = x := by
    apply UInt16.toNat_inj.mp
    rw [UInt8.toNat_ofNat', UInt8.toNat_ofNat', UInt16.toNat_ofNat']
    omega
  refine ⟨fun rest => ?_, fun p hp hne => ?_⟩
  · exact congrArg (fun v => Out.ok (v, rest)) hvalue
  · have hlen : p.length < 2 := lt_of_le_of_ne hp.length_le fun h => hne (hp.eq_of_length h)
    match p, hlen with
    | [], _ => rfl
    | [_], _ => rfl

theorem reads_u32 (x : UInt32) : Reads tpmBufUnpackU32 x (be32 x) := by
  have hx := x.toNat_lt
  have hvalue : UInt32.ofNat (16777216 * (UInt8.ofNat (x.toNat / 16777216)).toNat +
      65536 * (UInt8.ofNat (x.toNat / 65536)).toNat + 256 * (UInt8.ofNat (x.toNat / 256)).toNat +
        (UInt8.ofNat x.toNat).toNat) = x := by
    apply UInt32.toNat_inj.mp
    simp only [UInt8.toNat_ofNat', UInt32.toNat_ofNat']
    omega
  refine ⟨fun rest => ?_, fun p hp hne => ?_⟩
  · exact congrArg (fun v => Out.ok (v, rest)) hvalue
  · have hlen : p.length < 4 := lt_of_le_of_ne hp.length_le fun h => hne (hp.eq_of_length h)
    match p, hlen with
    | [], _ => rfl
    | [_], _ => rfl
    | [_, _], _ => rfl
    | [_, _, _], _ => rfl

theorem tpmBufPack_eq {data : Bytes} (h : data ≠ []) (buf : Bytes) : tpmBufPack data buf =
    if buf.length + data.length ≤ bufCapacity then .ok (buf ++ data) else .err () := by
  have hpos := List.length_pos_iff.mpr h
  unfold tpmBufPack
  by_cases hroom : buf.length + data.length ≤ bufCapacity
  · rw [if_neg (by omega), if_pos hroom]
  · rw [if_pos (by omega), if_neg hroom]

theorem carries_pack {r : Reader UInt8 α} {a : α} {data : Bytes} (h : data ≠ [])
    (hr : Reads r a data) : Carries bufCapacity (tpmBufPack data) r a data.length :=
  .of_reads hr (Nat.le_refl _) (tpmBufPack_eq h)

theorem carries_u8 (x : UInt8) : Carries bufCapacity (tpmBufPackU8 x) tpmBufUnpackU8 x 1 :=
  carries_pack (List.cons_ne_nil _ _) (.next x)

theorem carries_u16 (x : UInt16) : Carries bufCapacity (tpmBufPackU16 x) tpmBufUnpackU16 x 2 :=
  carries_pack (List.cons_ne_nil _ _) (reads_u16 x)

theorem carries_u32 (x : UInt32) : Carries bufCapacity (tpmBufPackU32 x) tpmBufUnpackU32 x 4 :=
  carries_pack (List.cons_ne_nil _ _) (reads_u32 x)

/-! ## Buffers -/

theorem carries_bytes (bs : Bytes) (h : bs.length ≤ cap) :
    Carries bufCapacity (packBytes bs) (unpackBytes bs.length cap) ⟨bs, h⟩ bs.length := by
  induction bs generalizing cap with
  | nil => exact .nothing _
  | cons x xs ih =>
    cases cap with
    | zero => cases h
    | succ cap =>
      have hrest := ih (Nat.le_of_succ_le_succ h)
      exact .seq (carries_u8 x) (.last hrest (Nat.le_refl _)) (by rw [List.length_cons]; omega)

theorem carries_tpm2b (hcap : cap < 2 ^ 16) (p : Sized cap) :
    Carries bufCapacity (packTpm2b p) (unpackTpm2b cap) p (2 + cap) := by
  have hsize : (UInt16.ofNat p.bytes.length).toNat = p.bytes.length :=
    UInt16.toNat_ofNat_of_lt' (lt_of_le_of_lt p.size_le hcap)
  refine .seq (carries_u16 _) ?_ (Nat.le_refl _)
  rw [hsize]
  exact (carries_bytes p.bytes p.size_le).mono p.size_le

theorem carries_pcrSelect (pcr : Sized 3) :
    Carries bufCapacity (packPcrSelect pcr) unpackPcrSelect pcr 4 := by
  have hsize : (UInt8.ofNat pcr.bytes.length).toNat = pcr.bytes.length :=
    UInt8.toNat_ofNat_of_lt' (lt_of_le_of_lt pcr.size_le (by decide))
  have hbytes := (carries_bytes pcr.bytes pcr.size_le).mono pcr.size_le
  refine .seq (carries_u8 _) ?_ (Nat.le_refl (1 + 3))
  rw [hsize]
  exact hbytes

/-! ## Unions

Each member is read back under the selector that was packed before it. -/

theorem carries_schemeKeyedHash (p : KeyedHashScheme) :
    Carries bufCapacity (packSchemeKeyedHash p) (unpackSchemeKeyedHash p.scheme) p 4 := by
  cases p with
  | hmac hashAlg => exact .last (carries_u16 hashAlg) (by decide)
  | xor hashAlg kdf =>
    exact .seq (carries_u16 hashAlg) (.last (carries_u16 kdf) (Nat.le_refl _)) (by decide)
  | null => exact .nothing _
  | other scheme => exact .fail

theorem carries_keyedHashScheme (p : KeyedHashScheme) :
    Carries bufCapacity (packKeyedHashScheme p) unpackKeyedHashScheme p 6 :=
  .seq (carries_u16 p.scheme) (carries_schemeKeyedHash p) (by decide)

theorem unpackSymDetails_block (c : BlockCipher) : unpackSymDetails c.alg = (do
    let keyBits ← tpmBufUnpackU16
    let mode ← tpmBufUnpackU16
    pure (.block c keyBits mode)) := by
  cases c <;> rfl

theorem unpackSymDetails_other {algorithm : UInt16} (h : blockCipher algorithm = none)
    (hx : algorithm ≠ algXor) : unpackSymDetails algorithm = pure (.other algorithm h hx) := by
  unfold unpackSymDetails
  split
  · rename_i cipher hc
    rw [h] at hc
    cases hc
  · rw [dif_neg hx]

theorem carries_symDetails (p : SymDef) : Carries bufCapacity
    ((packSymKeyBits p).seq (packSymMode p)) (unpackSymDetails p.algorithm) p 4 := by
  cases p with
  | block c keyBits mode =>
    rw [SymDef.algorithm, unpackSymDetails_block]
    exact .seq (carries_u16 keyBits) (.last (carries_u16 mode) (Nat.le_refl _)) (by decide)
  | xor keyBits =>
    exact .seq (carries_u16 keyBits) (.nothing (n := 0) _) (by decide)
  | other algorithm h hx =>
    rw [SymDef.algorithm, unpackSymDetails_other h hx]
    exact Carries.nothing (SymDef.other algorithm h hx)

theorem carries_symDef (p : SymDef) : Carries bufCapacity (packSymDef p) unpackSymDef p 6 :=
  .seq (carries_u16 p.algorithm) (carries_symDetails p) (by decide)

theorem carries_asymScheme (p : AsymScheme) :
    Carries bufCapacity (packAsymScheme p) unpackAsymScheme p 2 := by
  refine .seq (carries_u16 p.scheme) ?_ (Nat.le_refl (2 + 0))
  cases p with
  | null => exact .nothing _
  | other scheme => exact .fail

theorem carries_rsaParms (p : RsaParms) :
    Carries bufCapacity (packRsaParms p) unpackRsaParms p 14 :=
  .seq (carries_symDef p.symmetric) (.seq (carries_asymScheme p.scheme)
    (.seq (carries_u16 p.keyBits) (.last (carries_u32 p.exponent) (Nat.le_refl 4))
      (Nat.le_refl 6)) (Nat.le_refl 8)) (by decide)

theorem unpackKdfDetails_hash (k : Kdf) : unpackKdfDetails k.alg = (do
    let hashAlg ← tpmBufUnpackU16
    pure (.hash k hashAlg)) := by
  cases k <;> rfl

theorem carries_kdfScheme (p : KdfScheme) :
    Carries bufCapacity (packKdfScheme p) unpackKdfScheme p 4 := by
  refine .seq (carries_u16 p.scheme) ?_ (Nat.le_refl (2 + 2))
  cases p with
  | hash k hashAlg =>
    rw [KdfScheme.scheme, unpackKdfDetails_hash]
    exact .last (carries_u16 hashAlg) (Nat.le_refl _)
  | null => exact .nothing _
  | other scheme => exact .fail

theorem carries_eccParms (p : EccParms) :
    Carries bufCapacity (packEccParms p) unpackEccParms p 14 :=
  .seq (carries_symDef p.symmetric) (.seq (carries_asymScheme p.scheme)
    (.seq (carries_u16 p.curveID) (.last (carries_kdfScheme p.kdf) (Nat.le_refl 4))
      (Nat.le_refl 6)) (Nat.le_refl 8)) (by decide)

theorem carries_publicMember (p : PublicMember) : Carries bufCapacity
    ((packPublicParms p).seq (packPublicId p)) (unpackPublicMember p.type) p 272 := by
  cases p with
  | keyedHash detail unique =>
    exact .seq (carries_keyedHashScheme detail)
      (.last (carries_tpm2b (by decide) unique) (Nat.le_refl _)) (by decide)
  | symCipher detail unique =>
    exact .seq (carries_symDef detail)
      (.last (carries_tpm2b (by decide) unique) (Nat.le_refl _)) (by decide)
  | rsa detail unique =>
    exact .seq (carries_rsaParms detail)
      (.last (carries_tpm2b (by decide) unique) (Nat.le_refl _)) (by decide)
  | ecc detail x y =>
    exact .seq (carries_eccParms detail) (.seq (carries_tpm2b (by decide) x)
      (.last (carries_tpm2b (by decide) y) (Nat.le_refl _)) (Nat.le_refl _)) (by decide)
  | other type =>
    rintro buf buf' ⟨⟩

/-! ## The blob -/

theorem carries_tpmtPublic (p : TpmtPublic) :
    Carries bufCapacity (packTpmtPublic p) unpackTpmtPublic p 346 :=
  .seq (carries_u16 p.member.type) (.seq (carries_u16 p.nameAlg)
    (.seq (carries_u32 p.objectAttributes) (.seq (carries_tpm2b (by decide) p.authPolicy)
      (.last (carries_publicMember p.member) (Nat.le_refl _)) (Nat.le_refl _)) (Nat.le_refl _))
    (Nat.le_refl _)) (by decide)

theorem splice_middle {a b c d : Bytes} (h : d.length = b.length) :
    splice (a ++ b ++ c) a.length d = a ++ d ++ c := by
  unfold splice
  rw [h, List.append_assoc a b c, List.take_left, ← List.append_assoc a b c,
    ← List.length_append, List.drop_left]

/-- The public area is written behind its own size, whatever the size was before. -/
theorem packTpm2bPublic_ok {p : Tpm2bPublic} {buf buf' : Bytes}
    (h : packTpm2bPublic p buf = .ok buf') :
    ∃ area, packTpmtPublic p.publicArea [] = .ok area ∧ area.length ≤ 346 ∧
      Reads unpackTpmtPublic p.publicArea area ∧
      buf' = buf ++ be16 (UInt16.ofNat area.length) ++ area := by
  unfold packTpm2bPublic at h
  obtain ⟨mid, h1, h2⟩ := Out.bind_eq_ok.mp h
  obtain ⟨all, h3, h4⟩ := Out.bind_eq_ok.mp h2
  have hmid : mid = buf ++ be16 p.size := by
    have hne : be16 p.size ≠ [] := List.cons_ne_nil _ _
    rw [tpmBufPackU16, tpmBufPack_eq hne] at h1
    split at h1
    · exact (Out.ok.inj h1).symm
    · cases h1
  obtain ⟨area, hall, hle, hr, hroom⟩ := carries_tpmtPublic p.publicArea mid all h3
  have harea : packTpmtPublic p.publicArea [] = .ok ([] ++ area) :=
    hroom [] (by rw [List.length_nil]; unfold bufCapacity; omega)
  refine ⟨area, harea, hle, hr, ?_⟩
  have hstart : mid.length - 2 = buf.length := by
    rw [hmid, List.length_append]
    rfl
  have hsize : all.length - mid.length = area.length := by
    rw [hall, List.length_append, Nat.add_sub_cancel_left]
  have hsame : (be16 (UInt16.ofNat area.length)).length = (be16 p.size).length := rfl
  rw [Out.pure_eq, Out.ok.injEq, hsize, hstart, hall, hmid, splice_middle hsame] at h4
  exact h4.symm

theorem reads_tpm2bPublic {p : TpmtPublic} {area : Bytes} (h : Reads unpackTpmtPublic p area)
    (size : UInt16) : Reads unpackTpm2bPublic ⟨size, p⟩ (be16 size ++ area) :=
  (reads_u16 size).bind (h.map _)

theorem deserializeBlob_eq {bs : Bytes} (h : bs.length ≤ sizeofBlob) :
    deserializeBlob bs = (unpackBlob.read bs >>= fun x => pure x.1) := by
  have hpack : tpmBufPack bs [] = .ok bs := by
    unfold sizeofBlob at h
    unfold tpmBufPack bufCapacity
    rw [if_neg (by rw [List.length_nil]; omega), List.nil_append]
  unfold deserializeBlob
  rw [if_neg (Nat.not_lt.mpr h), hpack, Out.ok_bind]

/-- What `TPM2X_SerializeBlob` writes: the public area stands behind its size, the blob is
read back, and cut short it is an error. -/
theorem serializeBlob_roundTrip {blob : Blob} {blobBufferSize : Nat} {out : Bytes}
    (h : serializeBlob blob blobBufferSize = .ok out) :
    out.length ≤ sizeofBlob ∧
    (∃ before area after, packTpm2b blob.priv [] = .ok before ∧
      packTpmtPublic blob.pub.publicArea [] = .ok area ∧ area.length < 2 ^ 16 ∧
      out = before ++ be16 (UInt16.ofNat area.length) ++ area ++ after ∧
      deserializeBlob out =
        .ok { blob with pub := { blob.pub with size := UInt16.ofNat area.length } }) ∧
    ∀ p, p <+: out → p ≠ out → deserializeBlob p = .err () := by
  unfold serializeBlob at h
  split at h
  · cases h
  obtain ⟨priv, h1, h⟩ := Out.bind_eq_ok.mp h
  obtain ⟨mid2, h2, h⟩ := Out.bind_eq_ok.mp h
  obtain ⟨mid3, h3, h4⟩ := Out.bind_eq_ok.mp h
  obtain ⟨_, rfl, hle1, hr1, hroom1⟩ := carries_tpm2b (by decide) blob.priv [] priv h1
  obtain ⟨area, harea, hle2, hr2, rfl⟩ := packTpm2bPublic_ok h2
  obtain ⟨hash, rfl, hle3, hr3, -⟩ := carries_tpm2b (by decide) blob.hash _ mid3 h3
  obtain ⟨pcr, rfl, hle4, hr4, -⟩ := carries_pcrSelect blob.pcr _ out h4
  have hreads : Reads unpackBlob
      { blob with pub := { blob.pub with size := UInt16.ofNat area.length } }
      (priv ++ ((be16 (UInt16.ofNat area.length) ++ area) ++ (hash ++ pcr))) :=
    hr1.bind ((reads_tpm2bPublic hr2 _).bind (hr3.bind (hr4.map _)))
  have hshape : priv ++ be16 (UInt16.ofNat area.length) ++ area ++ hash ++ pcr =
      priv ++ ((be16 (UInt16.ofNat area.length) ++ area) ++ (hash ++ pcr)) := by
    simp only [List.append_assoc]
  rw [hshape]
  generalize hout : priv ++ ((be16 (UInt16.ofNat area.length) ++ area) ++ (hash ++ pcr)) = out
  have hlen : out.length ≤ sizeofBlob := by
    have h16 : (be16 (UInt16.ofNat area.length)).length = 2 := rfl
    rw [← hout]
    simp only [List.length_append, h16]
    unfold sizeofBlob
    omega
  refine ⟨hlen, ⟨priv, area, hash ++ pcr, ?_, harea, by omega, ?_, ?_⟩, fun p hp hne => ?_⟩
  · exact hroom1 [] (by rw [List.length_nil]; unfold bufCapacity; omega)
  · rw [← hout]
    simp only [List.append_assoc]
  · have hread := hreads.1 []
    rw [List.append_nil, hout] at hread
    rw [deserializeBlob_eq hlen, hread]
    rfl
  · rw [hout] at hreads
    rw [deserializeBlob_eq (hp.length_le.trans hlen), hreads.2 p hp hne]
    rfl

/-! ## Serializing comes to an end -/

theorem tpmBufPack_returns (data : Bytes) : (tpmBufPack data).Returns := by
  intro buf
  unfold tpmBufPack
  split <;> rintro ⟨⟩

theorem packBytes_returns (bs : Bytes) : (packBytes bs).Returns := by
  induction bs with
  | nil => exact .nothing
  | cons x xs ih => exact .seq (tpmBufPack_returns _) ih

theorem packTpm2b_returns (p : Sized cap) : (packTpm2b p).Returns :=
  .seq (tpmBufPack_returns _) (packBytes_returns _)

theorem packPcrSelect_returns (pcr : Sized 3) : (packPcrSelect pcr).Returns :=
  .seq (tpmBufPack_returns _) (packBytes_returns _)

theorem packKeyedHashScheme_returns (p : KeyedHashScheme) : (packKeyedHashScheme p).Returns := by
  refine .seq (tpmBufPack_returns _) ?_
  cases p with
  | hmac hashAlg => exact tpmBufPack_returns _
  | xor hashAlg kdf => exact .seq (tpmBufPack_returns _) (tpmBufPack_returns _)
  | null => exact .nothing
  | other scheme => exact .fail

theorem packSymDef_returns (p : SymDef) : (packSymDef p).Returns := by
  refine .seq (tpmBufPack_returns _) ?_
  cases p with
  | block cipher keyBits mode => exact .seq (tpmBufPack_returns _) (tpmBufPack_returns _)
  | xor keyBits => exact .seq (tpmBufPack_returns _) .nothing
  | other algorithm unknown ne => exact .seq .nothing .nothing

theorem packAsymScheme_returns (p : AsymScheme) : (packAsymScheme p).Returns := by
  refine .seq (tpmBufPack_returns _) ?_
  cases p with
  | null => exact .nothing
  | other scheme => exact .fail

theorem packKdfScheme_returns (p : KdfScheme) : (packKdfScheme p).Returns := by
  refine .seq (tpmBufPack_returns _) ?_
  cases p with
  | hash kdf hashAlg => exact tpmBufPack_returns _
  | null => exact .nothing
  | other scheme => exact .fail

theorem packPublicParms_returns (p : PublicMember) : (packPublicParms p).Returns := by
  cases p with
  | keyedHash detail unique => exact packKeyedHashScheme_returns detail
  | symCipher detail unique => exact packSymDef_returns detail
  | rsa detail unique =>
    exact .seq (packSymDef_returns _) (.seq (packAsymScheme_returns _)
      (.seq (tpmBufPack_returns _) (tpmBufPack_returns _)))
  | ecc detail x y =>
    exact .seq (packSymDef_returns _) (.seq (packAsymScheme_returns _)
      (.seq (tpmBufPack_returns _) (packKdfScheme_returns _)))
  | other type => exact .fail

theorem packPublicId_returns (p : PublicMember) : (packPublicId p).Returns := by
  cases p with
  | keyedHash detail unique => exact packTpm2b_returns unique
  | symCipher detail unique => exact packTpm2b_returns unique
  | rsa detail unique => exact packTpm2b_returns unique
  | ecc detail x y => exact .seq (packTpm2b_returns x) (packTpm2b_returns y)
  | other type => exact .nothing

theorem packTpmtPublic_returns (p : TpmtPublic) : (packTpmtPublic p).Returns :=
  .seq (tpmBufPack_returns _) (.seq (tpmBufPack_returns _) (.seq (tpmBufPack_returns _)
    (.seq (packTpm2b_returns _) (.seq (packPublicParms_returns _) (packPublicId_returns _)))))

theorem packTpm2bPublic_returns (p : Tpm2bPublic) : (packTpm2bPublic p).Returns := by
  intro buf
  unfold packTpm2bPublic
  cases h : tpmBufPackU16 p.size buf with
  | err e => rintro ⟨⟩
  | stuck => exact absurd h (tpmBufPack_returns _ buf)
  | ok b =>
    rw [Out.ok_bind]
    cases h' : packTpmtPublic p.publicArea b with
    | err e => rintro ⟨⟩
    | stuck => exact absurd h' (packTpmtPublic_returns _ b)
    | ok b' => rintro ⟨⟩

theorem serializeBlob_returns (blob : Blob) (size : Nat) : serializeBlob blob size ≠ .stuck := by
  unfold serializeBlob
  split
  · rintro ⟨⟩
  · exact Writer.Returns.seq (packTpm2b_returns _) (.seq (packTpm2bPublic_returns _)
      (.seq (packTpm2b_returns _) (packPcrSelect_returns _))) []

theorem oneByte_le {cap : Nat} (x : UInt8) (h : 0 < cap) : [x].length ≤ cap := h

theorem noBytes_le (cap : Nat) : ([] : Bytes).length ≤ cap := Nat.zero_le cap

/-- A sealed object without a scheme, whose own size is not set. -/
def keyedBlob : Blob where
  priv := ⟨[7], oneByte_le 7 (by decide)⟩
  pub := ⟨0, ⟨0x000B, 0x40, ⟨[], noBytes_le 64⟩,
    .keyedHash (.xor 0x000B 0x0021) ⟨[9], oneByte_le 9 (by decide)⟩⟩⟩
  hash := ⟨[], noBytes_le 64⟩
  pcr := ⟨[8], oneByte_le 8 (by decide)⟩

def keyedBytes : Bytes :=
  [0, 1, 7, 0, 19, 0, 8, 0, 11, 0, 0, 0, 64, 0, 0, 0, 10, 0, 11, 0, 33, 0, 1, 9, 0, 0, 1, 8]

theorem serializeBlob_roundTrip_keyed :
    keyedBytes.length ≤ sizeofBlob ∧
    (∃ before area after, packTpm2b keyedBlob.priv [] = .ok before ∧
      packTpmtPublic keyedBlob.pub.publicArea [] = .ok area ∧ area.length < 2 ^ 16 ∧
      keyedBytes = before ++ be16 (UInt16.ofNat area.length) ++ area ++ after ∧
      deserializeBlob keyedBytes =
        .ok { keyedBlob with pub := { keyedBlob.pub with size := UInt16.ofNat area.length } }) ∧
    ∀ p, p <+: keyedBytes → p ≠ keyedBytes → deserializeBlob p = .err () :=
  @serializeBlob_roundTrip keyedBlob sizeofBlob keyedBytes (by decide +kernel)

end LsvmTools.TpmBlobCodec
