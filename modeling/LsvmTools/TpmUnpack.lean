import LsvmTools.Lib.SizedFormat
import LsvmTools.TpmBlobCodec
import LsvmTools.TpmSeal

/-! # Unpacking what the TPM answers

The unpackers of `tpm2.c` take a size or a count from the response and move as many bytes
into arrays of fixed length, and `_SubmitCommand` takes the size of its buffer from the
response. None of these is compared with what there is room for. -/
namespace LsvmTools.TpmUnpack
open Lib.ByteString Lib.Program Lib.Codec Lib.SizedFormat TpmBlob TpmBlobCodec TpmSeal

variable {α β γ : Type} {cap : Nat}

/-! ## The unpackers -/

/-- A loop over `n` elements of an array that has `room` of them left. An error does not end
the loop: it goes on to look at the sizes of the elements behind. -/
def unpackElements (r : Reader UInt8 α) : (n room : Nat) → Reader UInt8 (List α)
  | 0, _ => pure []
  | _ + 1, 0 => .stuck
  | n + 1, room + 1 => ⟨fun bs => match r.read bs with
    | .ok (x, rest) => do
      let (xs, rest) ← (unpackElements r n room).read rest
      pure (x :: xs, rest)
    | .err () => if room < n then .stuck else .err ()
    | .stuck => .stuck⟩

/-- A count and its elements. `stale` is what the count holds before. -/
def unpackCounted (r : Reader UInt8 α) (stale cap : Nat) : Reader UInt8 (List α) where
  read bs := match tpmBufUnpackU32.read bs with
    | .ok (count, rest) => (unpackElements r count.toNat cap).read rest
    | .err () => if cap < stale then .stuck else .err ()
    | .stuck => .stuck

/-- `_Unpack_TPMS_PCR_SELECTION`. -/
def unpackPcrSelection : Reader UInt8 PcrSelection := do
  let hash ← tpmBufUnpackU16
  let pcrSelect ← unpackPcrSelect
  pure ⟨hash, pcrSelect⟩

/-- `HASH_COUNT`. -/
abbrev hashCount : Nat := 8

/-- `_Unpack_TPML_PCR_SELECTION`. -/
def unpackPcrSelections (stale : Nat) : Reader UInt8 (List PcrSelection) :=
  unpackCounted unpackPcrSelection stale hashCount

/-- `_Unpack_TPML_DIGEST`. -/
def unpackDigests (stale : Nat) : Reader UInt8 (List (Sized 64)) :=
  unpackCounted (unpackTpm2b 64) stale 8

/-- `_Unpack_TPMS_TAGGED_PROPERTY`. -/
def unpackTaggedProperty : Reader UInt8 (UInt32 × UInt32) := do
  let property ← tpmBufUnpackU32
  let value ← tpmBufUnpackU32
  pure (property, value)

/-- The loop over the properties, which looks at nothing behind an error. -/
def unpackProperties : (n room : Nat) → Reader UInt8 (List (UInt32 × UInt32))
  | 0, _ => pure []
  | _ + 1, 0 => do
    let _ ← tpmBufUnpackU32
    .stuck
  | n + 1, room + 1 => do
    let x ← unpackTaggedProperty
    let xs ← unpackProperties n room
    pure (x :: xs)

/-- `MAX_TPM_PROPERTIES`. -/
abbrev maxTpmProperties : Nat := 8

/-- `_Unpack_TPMS_CAPABILITY_DATA_tpmProperties`. -/
def unpackCapabilityData : Reader UInt8 (List (UInt32 × UInt32)) := do
  let count ← tpmBufUnpackU32
  unpackProperties count.toNat maxTpmProperties

/-- `TPMBufUnpack` of `n` bytes into a buffer of `cap`. -/
def unpackBlock (cap n : Nat) : Reader UInt8 (Sized cap) where
  read bs :=
    if bs.length < n then .err ()
    else if h : (bs.take n).length ≤ cap then .ok (⟨bs.take n, h⟩, bs.drop n)
    else .stuck

/-- `TPMS_AUTH_RESPONSE`. -/
structure AuthResponse where
  nonce : Sized 64
  sessionAttributes : UInt8
  hmac : Sized 64

/-- `_Unpack_TPMS_AUTH_RESPONSE`. -/
def unpackAuthResponse : Reader UInt8 AuthResponse := do
  let nonceSize ← tpmBufUnpackU16
  let nonce ← unpackBlock 64 nonceSize.toNat
  let sessionAttributes ← tpmBufUnpackU8
  let hmacSize ← tpmBufUnpackU16
  let hmac ← unpackBlock 64 hmacSize.toNat
  pure ⟨nonce, sessionAttributes, hmac⟩

/-- `_Unpack_TPMT_TK_CREATION` and `_Unpack_TPMT_TK_HASHCHECK`. -/
def unpackTicket : Reader UInt8 (UInt16 × UInt32 × Sized 64) := do
  let tag ← tpmBufUnpackU16
  let hierarchy ← tpmBufUnpackU32
  let digest ← unpackTpm2b 64
  pure (tag, hierarchy, digest)

/-- The unpackers, with what their counts hold before. -/
inductive Unpacker where
  | tpm2b (cap : Nat)
  | pcrSelect
  | pcrSelection
  | pcrSelections (stale : Nat)
  | digests (stale : Nat)
  | capabilityData
  | authResponse
  | ticket
  | tpm2bPublic

def Unpacker.Value : Unpacker → Type
  | .tpm2b cap => Sized cap
  | .pcrSelect => Sized 3
  | .pcrSelection => PcrSelection
  | .pcrSelections _ => List PcrSelection
  | .digests _ => List (Sized 64)
  | .capabilityData => List (UInt32 × UInt32)
  | .authResponse => AuthResponse
  | .ticket => UInt16 × UInt32 × Sized 64
  | .tpm2bPublic => Tpm2bPublic

def Unpacker.reader : (u : Unpacker) → Reader UInt8 u.Value
  | .tpm2b cap => unpackTpm2b cap
  | .pcrSelect => unpackPcrSelect
  | .pcrSelection => unpackPcrSelection
  | .pcrSelections stale => unpackPcrSelections stale
  | .digests stale => unpackDigests stale
  | .capabilityData => unpackCapabilityData
  | .authResponse => unpackAuthResponse
  | .ticket => unpackTicket
  | .tpm2bPublic => unpackTpm2bPublic

/-! ## Their formats -/

def symDetailsFormat (algorithm : Nat) (next : Format) : Format :=
  match blockCipher (UInt16.ofNat algorithm) with
  | some _ => .skip 2 (.skip 2 next)
  | none => if UInt16.ofNat algorithm = algXor then .skip 2 next else next

def symDefFormat (next : Format) : Format := .tagged 2 fun algorithm => symDetailsFormat algorithm next

def keyedHashFormat (next : Format) : Format :=
  .tagged 2 fun scheme =>
    if UInt16.ofNat scheme = algHmac then .skip 2 next
    else if UInt16.ofNat scheme = algXor then .skip 2 (.skip 2 next)
    else if UInt16.ofNat scheme = algNull then next
    else .refused

def asymFormat (next : Format) : Format :=
  .tagged 2 fun scheme => if UInt16.ofNat scheme = algNull then next else .refused

def rsaFormat (next : Format) : Format := symDefFormat (asymFormat (.skip 2 (.skip 4 next)))

def kdfFormat (next : Format) : Format :=
  .tagged 2 fun scheme =>
    match kdf (UInt16.ofNat scheme) with
    | some _ => .skip 2 next
    | none => if UInt16.ofNat scheme = algNull then next else .refused

def eccFormat (next : Format) : Format := symDefFormat (asymFormat (.skip 2 (kdfFormat next)))

def memberFormat (type : Nat) (next : Format) : Format :=
  if UInt16.ofNat type = 0x0008 then keyedHashFormat (.sized 2 64 next)
  else if UInt16.ofNat type = 0x0025 then symDefFormat (.sized 2 64 next)
  else if UInt16.ofNat type = 0x0001 then rsaFormat (.sized 2 256 next)
  else if UInt16.ofNat type = 0x0023 then eccFormat (.sized 2 48 (.sized 2 48 next))
  else .refused

/-- The size in front of a public area is not used. -/
def publicFormat (next : Format) : Format :=
  .claimed 2 (.tagged 2 fun type => .skip 2 (.skip 4 (.sized 2 64 (memberFormat type next))))

def pcrSelectionFormat (next : Format) : Format := .skip 2 (.sized 1 3 next)

def propertyFormat (next : Format) : Format := .skip 4 (.skip 4 next)

def Unpacker.format : Unpacker → Format
  | .tpm2b cap => .sized 2 cap .done
  | .pcrSelect => .sized 1 3 .done
  | .pcrSelection => pcrSelectionFormat .done
  | .pcrSelections stale => .counted 4 stale hashCount fun n => .times pcrSelectionFormat n .done
  | .digests stale => .counted 4 stale 8 fun n => .times (.sized 2 64) n .done
  | .capabilityData => .tagged 4 fun n =>
      if n ≤ maxTpmProperties then .times propertyFormat n .done
      else .times propertyFormat maxTpmProperties (.skip 4 .outside)
  | .authResponse => .block 2 64 (.skip 1 (.block 2 64 .done))
  | .ticket => .skip 2 (.skip 4 (.sized 2 64 .done))
  | .tpm2bPublic => publicFormat .done

/-- The format of a sealed blob. -/
def blobFormat : Format := .sized 2 910 (publicFormat (.sized 2 64 (.sized 1 3 .done)))

/-! ## Numbers and buffers -/

theorem fixed_u8 : Fixed tpmBufUnpackU8 1 UInt8.ofNat := by
  intro bs
  rcases bs with - | ⟨b, bs⟩
  · rfl
  · have h : UInt8.ofNat (bigEndian [b]) = b := by
      simp [bigEndian]
    simp [tpmBufUnpackU8, Reader.next, h]

theorem fixed_u16 : Fixed tpmBufUnpackU16 2 UInt16.ofNat := by
  intro bs
  rcases bs with - | ⟨b, - | ⟨c, bs⟩⟩
  · rfl
  · rfl
  · simp [tpmBufUnpackU16, bigEndian]

theorem fixed_u32 : Fixed tpmBufUnpackU32 4 UInt32.ofNat := by
  intro bs
  rcases bs with - | ⟨b, - | ⟨c, - | ⟨d, - | ⟨e, bs⟩⟩⟩⟩
  · rfl
  · rfl
  · rfl
  · rfl
  · have h : 256 * (256 * (256 * b.toNat + c.toNat) + d.toNat) + e.toNat =
        16777216 * b.toNat + 65536 * c.toNat + 256 * d.toNat + e.toNat := by omega
    simp [tpmBufUnpackU32, bigEndian, h]

theorem u8_value {n : Nat} (h : n < 256 ^ 1) : (UInt8.ofNat n).toNat = n := by
  rw [UInt8.toNat_ofNat']
  exact Nat.mod_eq_of_lt h

theorem u16_value {n : Nat} (h : n < 256 ^ 2) : (UInt16.ofNat n).toNat = n := by
  rw [UInt16.toNat_ofNat']
  exact Nat.mod_eq_of_lt h

theorem u32_value {n : Nat} (h : n < 256 ^ 4) : (UInt32.ofNat n).toNat = n := by
  rw [UInt32.toNat_ofNat']
  exact Nat.mod_eq_of_lt h

theorem fills_bytes (cap : Nat) : Fills (unpackBytes · cap) cap := by
  induction cap with
  | zero =>
    refine ⟨fun n bs hn hlen => ?_, fun n bs hn hlen => ?_, fun n bs hn hlen => ?_⟩
    · rw [Nat.le_zero.mp hn]
      exact ⟨_, rfl⟩
    · obtain ⟨n, rfl⟩ := Nat.exists_eq_succ_of_ne_zero (Nat.pos_iff_ne_zero.mp hn)
      obtain ⟨b, bs, rfl⟩ := List.exists_cons_of_length_pos hlen
      rfl
    · obtain ⟨n, rfl⟩ := Nat.exists_eq_succ_of_ne_zero (Nat.ne_of_gt (Nat.zero_lt_of_lt hn))
      rw [List.eq_nil_of_length_eq_zero (Nat.le_zero.mp hlen)]
      rfl
  | succ cap ih =>
    refine ⟨fun n bs hn hlen => ?_, fun n bs hn hlen => ?_, fun n bs hn hlen => ?_⟩ <;>
      rcases n with - | n
    · exact ⟨_, rfl⟩
    · obtain ⟨b, bs, rfl⟩ := List.exists_cons_of_length_pos (Nat.zero_lt_of_lt hlen)
      obtain ⟨p, hp⟩ := ih.fits n bs (Nat.le_of_succ_le_succ hn) (Nat.le_of_succ_le_succ hlen)
      refine ⟨⟨b :: p.bytes, Nat.succ_le_succ p.size_le⟩, ?_⟩
      rw [unpackBytes, Reader.read_bind, tpmBufUnpackU8, Reader.next, Out.ok_bind]
      dsimp only
      rw [Reader.read_bind, hp]
      rfl
    · omega
    · obtain ⟨b, bs, rfl⟩ := List.exists_cons_of_length_pos (Nat.zero_lt_of_lt hlen)
      have hgoes := ih.goes n bs (Nat.lt_of_succ_lt_succ hn) (Nat.lt_of_succ_lt_succ hlen)
      rw [unpackBytes, Reader.read_bind, tpmBufUnpackU8, Reader.next, Out.ok_bind]
      dsimp only
      rw [Reader.read_bind, hgoes]
      rfl
    · omega
    · rcases bs with - | ⟨b, bs⟩
      · rfl
      · have hshort := ih.short n bs (Nat.lt_of_succ_lt_succ hn) (Nat.le_of_succ_le_succ hlen)
        rw [unpackBytes, Reader.read_bind, tpmBufUnpackU8, Reader.next, Out.ok_bind]
        dsimp only
        rw [Reader.read_bind, hshort]
        rfl

theorem moves_block (cap : Nat) : Moves (unpackBlock cap) cap := by
  refine ⟨fun n bs hn hlen => ?_, fun n bs hn hlen => ?_, fun n bs hn => ?_⟩
  · have h : (bs.take n).length ≤ cap := by
      rw [List.length_take, Nat.min_eq_left hlen]
      exact hn
    exact ⟨⟨bs.take n, h⟩, by simp only [unpackBlock, if_neg (Nat.not_lt.mpr hlen), dif_pos h]⟩
  · have h : ¬ (bs.take n).length ≤ cap := by
      rw [List.length_take, Nat.min_eq_left hlen]
      omega
    simp only [unpackBlock, if_neg (Nat.not_lt.mpr hlen), dif_neg h]
  · simp only [unpackBlock, if_pos hn]

/-! ## Each unpacker and its format -/

section Formats

variable {k : α → Reader UInt8 β} {next : Format}

theorem unpackTpm2b_follows {k : Sized cap → Reader UInt8 β} (hk : ∀ p, Follows (k p) next) :
    Follows (unpackTpm2b cap >>= k) (.sized 2 cap next) := by
  rw [unpackTpm2b, Reader.bind_assoc]
  exact .sized fixed_u16 (fun _ => u16_value) (fills_bytes cap) hk

theorem unpackPcrSelect_follows {k : Sized 3 → Reader UInt8 β} (hk : ∀ p, Follows (k p) next) :
    Follows (unpackPcrSelect >>= k) (.sized 1 3 next) := by
  rw [unpackPcrSelect, Reader.bind_assoc]
  exact .sized fixed_u8 (fun _ => u8_value) (fills_bytes 3) hk

/-! ### Public areas -/

theorem unpackSymDef_follows {k : SymDef → Reader UInt8 β} (hk : ∀ p, Follows (k p) next) :
    Follows (unpackSymDef >>= k) (symDefFormat next) := by
  rw [unpackSymDef, Reader.bind_assoc]
  refine .tagged fixed_u16 fun n _ => ?_
  unfold unpackSymDetails
  split
  · rename_i cipher hc
    have hf : symDetailsFormat n next = .skip 2 (.skip 2 next) := by
      rw [symDetailsFormat, hc]
    rw [hf, Reader.bind_assoc]
    refine .skip fixed_u16 fun keyBits => ?_
    rw [Reader.bind_assoc]
    exact .skip fixed_u16 fun mode => hk _
  · rename_i hc
    have hf : symDetailsFormat n next =
        if UInt16.ofNat n = algXor then .skip 2 next else next := by
      rw [symDetailsFormat, hc]
    rw [hf]
    split
    · rw [Reader.bind_assoc]
      exact .skip fixed_u16 fun keyBits => hk _
    · exact hk _

theorem unpackKeyedHashScheme_follows {k : KeyedHashScheme → Reader UInt8 β}
    (hk : ∀ p, Follows (k p) next) :
    Follows (unpackKeyedHashScheme >>= k) (keyedHashFormat next) := by
  rw [unpackKeyedHashScheme, Reader.bind_assoc]
  refine .tagged fixed_u16 fun n _ => ?_
  unfold unpackSchemeKeyedHash
  split
  · rw [Reader.bind_assoc]
    exact .skip fixed_u16 fun hashAlg => hk _
  · split
    · rw [Reader.bind_assoc]
      refine .skip fixed_u16 fun hashAlg => ?_
      rw [Reader.bind_assoc]
      exact .skip fixed_u16 fun kdf => hk _
    · split
      · exact hk _
      · exact .fail

theorem unpackAsymScheme_follows {k : AsymScheme → Reader UInt8 β}
    (hk : ∀ p, Follows (k p) next) : Follows (unpackAsymScheme >>= k) (asymFormat next) := by
  rw [unpackAsymScheme, Reader.bind_assoc]
  refine .tagged fixed_u16 fun n _ => ?_
  unfold unpackAsymDetails
  split
  · exact hk _
  · exact .fail

theorem unpackRsaParms_follows {k : RsaParms → Reader UInt8 β} (hk : ∀ p, Follows (k p) next) :
    Follows (unpackRsaParms >>= k) (rsaFormat next) := by
  rw [unpackRsaParms, Reader.bind_assoc]
  refine unpackSymDef_follows fun symmetric => ?_
  rw [Reader.bind_assoc]
  refine unpackAsymScheme_follows fun scheme => ?_
  rw [Reader.bind_assoc]
  refine .skip fixed_u16 fun keyBits => ?_
  rw [Reader.bind_assoc]
  exact .skip fixed_u32 fun exponent => hk _

theorem unpackKdfScheme_follows {k : KdfScheme → Reader UInt8 β} (hk : ∀ p, Follows (k p) next) :
    Follows (unpackKdfScheme >>= k) (kdfFormat next) := by
  rw [unpackKdfScheme, Reader.bind_assoc]
  refine .tagged fixed_u16 fun n _ => ?_
  unfold unpackKdfDetails
  cases kdf (UInt16.ofNat n) with
  | some kdf =>
    dsimp only
    rw [Reader.bind_assoc]
    exact .skip fixed_u16 fun hashAlg => hk _
  | none =>
    dsimp only
    split
    · exact hk _
    · exact .fail

theorem unpackEccParms_follows {k : EccParms → Reader UInt8 β} (hk : ∀ p, Follows (k p) next) :
    Follows (unpackEccParms >>= k) (eccFormat next) := by
  rw [unpackEccParms, Reader.bind_assoc]
  refine unpackSymDef_follows fun symmetric => ?_
  rw [Reader.bind_assoc]
  refine unpackAsymScheme_follows fun scheme => ?_
  rw [Reader.bind_assoc]
  refine .skip fixed_u16 fun curveID => ?_
  rw [Reader.bind_assoc]
  exact unpackKdfScheme_follows fun kdf => hk _

theorem unpackPublicMember_follows {k : PublicMember → Reader UInt8 β} (type : Nat)
    (hk : ∀ p, Follows (k p) next) :
    Follows (unpackPublicMember (UInt16.ofNat type) >>= k) (memberFormat type next) := by
  unfold unpackPublicMember memberFormat
  split
  · rw [Reader.bind_assoc]
    refine unpackKeyedHashScheme_follows fun detail => ?_
    rw [Reader.bind_assoc]
    exact unpackTpm2b_follows fun unique => hk _
  split
  · rw [Reader.bind_assoc]
    refine unpackSymDef_follows fun detail => ?_
    rw [Reader.bind_assoc]
    exact unpackTpm2b_follows fun unique => hk _
  split
  · rw [Reader.bind_assoc]
    refine unpackRsaParms_follows fun detail => ?_
    rw [Reader.bind_assoc]
    exact unpackTpm2b_follows fun unique => hk _
  split
  · rw [Reader.bind_assoc]
    refine unpackEccParms_follows fun detail => ?_
    rw [Reader.bind_assoc]
    refine unpackTpm2b_follows fun x => ?_
    rw [Reader.bind_assoc]
    exact unpackTpm2b_follows fun y => hk _
  · exact .fail

theorem unpackTpm2bPublic_follows {k : Tpm2bPublic → Reader UInt8 β}
    (hk : ∀ p, Follows (k p) next) : Follows (unpackTpm2bPublic >>= k) (publicFormat next) := by
  rw [unpackTpm2bPublic, Reader.bind_assoc]
  refine .claimed fixed_u16 fun size => ?_
  rw [Reader.bind_assoc, unpackTpmtPublic, Reader.bind_assoc]
  refine .tagged fixed_u16 fun type _ => ?_
  rw [Reader.bind_assoc]
  refine .skip fixed_u16 fun nameAlg => ?_
  rw [Reader.bind_assoc]
  refine .skip fixed_u32 fun objectAttributes => ?_
  rw [Reader.bind_assoc]
  refine unpackTpm2b_follows fun authPolicy => ?_
  rw [Reader.bind_assoc]
  refine unpackPublicMember_follows type fun member => ?_
  rw [Reader.pure_bind, Reader.pure_bind]
  exact hk _

theorem unpackBlob_follows : Follows unpackBlob blobFormat :=
  unpackTpm2b_follows fun _ => unpackTpm2bPublic_follows fun _ => unpackTpm2b_follows fun _ =>
    unpackPcrSelect_follows fun _ => .pure _

/-! ### Lists -/

theorem unpackPcrSelection_follows {k : PcrSelection → Reader UInt8 β}
    (hk : ∀ p, Follows (k p) next) :
    Follows (unpackPcrSelection >>= k) (pcrSelectionFormat next) := by
  rw [unpackPcrSelection, Reader.bind_assoc]
  refine .skip fixed_u16 fun hash => ?_
  rw [Reader.bind_assoc]
  exact unpackPcrSelect_follows fun pcrSelect => hk _

/-- With room for what is left the loop is a sequence. -/
theorem unpackElements_succ (r : Reader UInt8 α) {n room : Nat} (h : n ≤ room) :
    unpackElements r (n + 1) (room + 1) =
      r >>= fun x => unpackElements r n room >>= fun xs => pure (x :: xs) := by
  have hread : ∀ bs, (unpackElements r (n + 1) (room + 1)).read bs =
      (r >>= fun x => unpackElements r n room >>= fun xs => pure (x :: xs)).read bs := by
    intro bs
    rw [Reader.read_bind, unpackElements]
    dsimp only
    rw [if_neg (Nat.not_lt.mpr h)]
    cases r.read bs <;> rfl
  exact congrArg Reader.mk (funext hread)

theorem unpackElements_fits {r : Reader UInt8 α} {f : Format → Format}
    (hr : ∀ {β : Type} (k : α → Reader UInt8 β) (next : Format), (∀ x, Follows (k x) next) →
      Follows (r >>= k) (f next)) {n room : Nat} (h : n ≤ room) (k : List α → Reader UInt8 β)
    (hk : ∀ xs, Follows (k xs) next) :
    Follows (unpackElements r n room >>= k) (.times f n next) := by
  induction n generalizing room k with
  | zero =>
    rw [unpackElements, Reader.pure_bind]
    exact hk []
  | succ n ih =>
    obtain ⟨room, rfl⟩ := Nat.exists_eq_succ_of_ne_zero (Nat.ne_zero_of_lt h)
    rw [unpackElements_succ r (Nat.le_of_succ_le_succ h), Reader.bind_assoc]
    refine hr _ _ fun x => ?_
    rw [Reader.bind_assoc]
    exact ih (Nat.le_of_succ_le_succ h) _ fun xs => hk _

/-- A count beyond the array leads outside, whatever the elements are. -/
theorem unpackElements_goes (r : Reader UInt8 α) {n room : Nat} (bs : Bytes) (h : room < n) :
    (unpackElements r n room).read bs = .stuck := by
  induction n generalizing room bs with
  | zero => exact absurd h (Nat.not_lt_zero room)
  | succ n ih =>
    cases room with
    | zero => rfl
    | succ room =>
      rw [unpackElements]
      dsimp only
      cases r.read bs with
      | ok x =>
        dsimp only
        rw [ih x.2 (Nat.lt_of_succ_lt_succ h)]
        rfl
      | err _ =>
        dsimp only
        rw [if_pos (Nat.lt_of_succ_lt_succ h)]
      | stuck => rfl

theorem bind_pure (r : Reader UInt8 α) : r >>= pure = r := by
  have hread : ∀ bs, (r >>= pure).read bs = r.read bs := by
    intro bs
    rw [Reader.read_bind]
    cases r.read bs <;> rfl
  exact congrArg Reader.mk (funext hread)

theorem unpackCounted_follows {r : Reader UInt8 α} {f : Format → Format}
    (hr : ∀ {β : Type} (k : α → Reader UInt8 β) (next : Format), (∀ x, Follows (k x) next) →
      Follows (r >>= k) (f next)) (stale cap : Nat) :
    Follows (unpackCounted r stale cap) (.counted 4 stale cap fun n => .times f n .done) := by
  refine @Follows.counted _ _ _ _ _ _ (fun n => unpackElements r n cap) ⟨fun n hn => ?_, fun n bs hn => ?_⟩
    fun bs => ?_
  · rw [← bind_pure (unpackElements r n cap)]
    exact unpackElements_fits hr hn _ fun xs => .pure xs
  · exact unpackElements_goes r bs hn
  · unfold unpackCounted
    dsimp only
    rw [fixed_u32]
    by_cases h : 4 ≤ bs.length
    · rw [if_pos h, if_pos h]
      dsimp only
      rw [u32_value (bigEndian_lt h)]
    · rw [if_neg h, if_neg h]

theorem unpackTaggedProperty_follows {k : UInt32 × UInt32 → Reader UInt8 β}
    (hk : ∀ p, Follows (k p) next) : Follows (unpackTaggedProperty >>= k) (propertyFormat next) := by
  rw [unpackTaggedProperty, Reader.bind_assoc]
  refine .skip fixed_u32 fun property => ?_
  rw [Reader.bind_assoc]
  exact .skip fixed_u32 fun value => hk _

/-- Without a look at what is behind an error, a large count leads outside only where the
properties are there. -/
theorem unpackProperties_follows (n room : Nat) (k : List (UInt32 × UInt32) → Reader UInt8 β)
    (hk : ∀ xs, Follows (k xs) next) :
    Follows (unpackProperties n room >>= k)
      (if n ≤ room then .times propertyFormat n next
        else .times propertyFormat room (.skip 4 .outside)) := by
  induction n generalizing room k with
  | zero =>
    rw [if_pos (Nat.zero_le room), unpackProperties, Reader.pure_bind]
    exact hk []
  | succ n ih =>
    cases room with
    | zero =>
      rw [if_neg (Nat.not_succ_le_zero n), unpackProperties, Reader.bind_assoc]
      exact .skip fixed_u32 fun _ => .stuck
    | succ room =>
      rw [unpackProperties, Reader.bind_assoc]
      have hrest := fun x => ih room (fun xs => pure (x :: xs) >>= k) fun xs => hk _
      by_cases h : n ≤ room
      · simp only [if_pos h] at hrest
        rw [if_pos (Nat.succ_le_succ h)]
        refine unpackTaggedProperty_follows fun x => ?_
        rw [Reader.bind_assoc]
        exact hrest x
      · simp only [if_neg h] at hrest
        rw [if_neg (fun hle => h (Nat.le_of_succ_le_succ hle))]
        refine unpackTaggedProperty_follows fun x => ?_
        rw [Reader.bind_assoc]
        exact hrest x

theorem unpackCapabilityData_follows :
    Follows unpackCapabilityData Unpacker.capabilityData.format := by
  refine .tagged fixed_u32 fun n hn => ?_
  rw [u32_value hn, ← bind_pure (unpackProperties n maxTpmProperties)]
  exact unpackProperties_follows n maxTpmProperties _ fun xs => .pure xs

theorem unpackAuthResponse_follows :
    Follows unpackAuthResponse Unpacker.authResponse.format := by
  refine .block fixed_u16 (fun _ => u16_value) (moves_block 64) fun nonce => ?_
  refine .skip fixed_u8 fun sessionAttributes => ?_
  exact .block fixed_u16 (fun _ => u16_value) (moves_block 64) fun hmac => .pure _

end Formats

/-- Each unpacker does what its format says. -/
theorem reader_follows (u : Unpacker) : Follows u.reader u.format := by
  cases u with
  | tpm2b cap =>
    rw [Unpacker.reader, ← bind_pure (unpackTpm2b cap)]
    exact unpackTpm2b_follows .pure
  | pcrSelect =>
    rw [Unpacker.reader, ← bind_pure unpackPcrSelect]
    exact unpackPcrSelect_follows .pure
  | pcrSelection =>
    rw [Unpacker.reader, ← bind_pure unpackPcrSelection]
    exact unpackPcrSelection_follows .pure
  | pcrSelections stale =>
    exact unpackCounted_follows (fun _ _ hk => unpackPcrSelection_follows hk) stale hashCount
  | digests stale =>
    exact unpackCounted_follows (fun _ _ hk => unpackTpm2b_follows hk) stale 8
  | capabilityData => exact unpackCapabilityData_follows
  | authResponse => exact unpackAuthResponse_follows
  | ticket =>
    refine .skip fixed_u16 fun tag => ?_
    refine .skip fixed_u32 fun hierarchy => ?_
    exact unpackTpm2b_follows fun digest => .pure _
  | tpm2bPublic =>
    rw [Unpacker.reader, ← bind_pure unpackTpm2bPublic]
    exact unpackTpm2bPublic_follows .pure

/-! ## What unpacking may do -/

/-- The input is refused, or it is well formed: its sizes and counts are within their arrays
and within what is there, and nothing behind it was read. -/
def Contained (x : Out Unit (α × Bytes)) (f : Format) (bs : Bytes) : Prop :=
  match x with
  | .stuck => False
  | .err _ => True
  | .ok (_, rest) => f.Completes bs ∧ ¬ f.Overclaims bs ∧ rest <:+ bs

/-- No size or count leads out of an array, and none that goes unused is too large in an input
that is taken. -/
def Harmless (f : Format) (bs : Bytes) : Prop :=
  ¬ f.Overruns bs ∧ (f.Completes bs → ¬ f.Overclaims bs)

theorem contained_iff {r : Reader UInt8 α} {f : Format} (h : Follows r f) (bs : Bytes) :
    Contained (r.read bs) f bs ↔ Harmless f bs := by
  have hbs := h bs
  unfold Agrees at hbs
  unfold Contained Harmless
  revert hbs
  cases r.read bs with
  | stuck => exact fun hgoes => iff_of_false id fun hh => hh.1 hgoes
  | err e => exact fun hbs => iff_of_true trivial ⟨hbs.1, fun hc => absurd hc hbs.2⟩
  | ok x =>
    rintro ⟨hgoes, hcompletes, hsuffix⟩
    exact ⟨fun hx => ⟨hgoes, fun _ => hx.2.1⟩, fun hh => ⟨hcompletes, hh.2 hcompletes, hsuffix⟩⟩

/-- The same of `TPM2X_DeserializeBlob`, which takes no more than a blob's size. -/
def BlobContained (bs : Bytes) : Prop :=
  match deserializeBlob bs with
  | .stuck => False
  | .err _ => True
  | .ok _ => bs.length ≤ sizeofBlob ∧ blobFormat.Completes bs ∧ ¬ blobFormat.Overclaims bs

theorem blobContained_iff (bs : Bytes) :
    BlobContained bs ↔ sizeofBlob < bs.length ∨ Harmless blobFormat bs := by
  by_cases h : bs.length ≤ sizeofBlob
  · rw [or_iff_right (Nat.not_lt.mpr h), ← contained_iff unpackBlob_follows]
    have hbs := unpackBlob_follows bs
    unfold Agrees at hbs
    unfold BlobContained Contained
    rw [deserializeBlob_eq h]
    revert hbs
    cases unpackBlob.read bs with
    | stuck => exact fun _ => Iff.rfl
    | err e => exact fun _ => Iff.rfl
    | ok x => exact fun hbs => ⟨fun hx => ⟨hx.2.1, hx.2.2, hbs.2.2⟩, fun hx => ⟨h, hx.1, hx.2.1⟩⟩
  · refine iff_of_true ?_ (.inl (Nat.lt_of_not_le h))
    unfold BlobContained deserializeBlob
    rw [if_pos (Nat.lt_of_not_le h)]
    trivial

/-! ## The buffer of a response -/

/-- `TPMBuf`. -/
structure TPMBuf where
  data : Bytes
  data_length : data.length = bufCapacity
  size : Nat
  offset : Nat

/-- `TPMBufUnpack` of `n` bytes. The difference is that of 32-bit numbers. -/
def TPMBuf.unpack (self : TPMBuf) (n : Nat) : Out Unit (Bytes × TPMBuf) :=
  if u32 (self.size + 2 ^ 32 - self.offset) < n then .err ()
  else if bufCapacity < self.offset + n then .stuck
  else .ok ((self.data.drop self.offset).take n, { self with offset := self.offset + n })

/-- The request of `_SubmitCommand`. -/
def request (tag : UInt16) (commandCode : UInt32) (input : Bytes) : Out Unit Bytes := do
  let buf ← ((tpmBufPackU16 tag).seq ((tpmBufPackU32 0).seq
    ((tpmBufPackU32 commandCode).seq (tpmBufPack input)))) []
  pure (splice buf 2 (be32 (UInt32.ofNat buf.length)))

/-- `outputParameterBlockSize`. -/
def blockSize (maxResponseSize : Nat) : Nat :=
  if 0 < maxResponseSize then min (maxResponseSize - 1) bufCapacity else bufCapacity - 1

/-- `out->data` with a response in it. Behind the response is what `TPMBufInit` left. -/
def responseData (maxResponseSize : Nat) (response : Bytes) : Bytes :=
  let response := response.take (blockSize maxResponseSize)
  response ++ List.replicate (bufCapacity - response.length) 0xDD

theorem blockSize_le (maxResponseSize : Nat) : blockSize maxResponseSize ≤ bufCapacity := by
  unfold blockSize
  split <;> omega

theorem responseData_length (maxResponseSize : Nat) (response : Bytes) :
    (responseData maxResponseSize response).length = bufCapacity := by
  have hle := blockSize_le maxResponseSize
  unfold responseData
  rw [List.length_append, List.length_replicate, List.length_take]
  omega

/-- `_SubmitCommand`: the response code and the buffer to unpack from. `submit` is
`TCG2_SubmitCommand`. -/
def submitCommand (submit : (input : Bytes) → (outputSize : Nat) → Option Bytes)
    (maxResponseSize : Nat) (tag : UInt16) (commandCode : UInt32) (input : Bytes) :
    Out Unit (UInt32 × TPMBuf) := do
  let buf ← request tag commandCode input
  let response ← .ofOption () (submit buf (blockSize maxResponseSize))
  let out : TPMBuf :=
    ⟨responseData maxResponseSize response, responseData_length maxResponseSize response, 10, 0⟩
  let (_, out) ← out.unpack 2
  let (commandSize, out) ← out.unpack 4
  let (responseCode, out) ← out.unpack 4
  pure (UInt32.ofNat (bigEndian responseCode), { out with size := bigEndian commandSize })

/-- The size that a response claims to have. -/
def claimedSize (maxResponseSize : Nat) (response : Bytes) : Nat :=
  bigEndian (((responseData maxResponseSize response).drop 2).take 4)

/-- What is unpacked from the buffer is within its array. -/
def Presents (out : TPMBuf) : Prop := ∀ n, n < 2 ^ 32 → out.unpack n ≠ .stuck

theorem unpack_header {data : Bytes} (hlen : data.length = bufCapacity) {offset n : Nat}
    (h : offset + n ≤ 10) : (TPMBuf.mk data hlen 10 offset).unpack n =
      .ok ((data.drop offset).take n, ⟨data, hlen, 10, offset + n⟩) := by
  have hr : u32 (10 + 2 ^ 32 - offset) = 10 - offset := by
    unfold u32
    omega
  have hcap : ¬ bufCapacity < offset + n := by
    unfold bufCapacity
    omega
  unfold TPMBuf.unpack
  dsimp only
  rw [hr, if_neg (by omega), if_neg hcap]

variable (submit : Bytes → Nat → Option Bytes) (maxResponseSize : Nat) (tag : UInt16)
  (commandCode : UInt32) (input : Bytes)

theorem submitCommand_ok {rc : UInt32} {out : TPMBuf} :
    submitCommand submit maxResponseSize tag commandCode input = .ok (rc, out) ↔
      ∃ buf response, request tag commandCode input = .ok buf ∧
        submit buf (blockSize maxResponseSize) = some response ∧
        rc = UInt32.ofNat (bigEndian (((responseData maxResponseSize response).drop 6).take 4)) ∧
        out = ⟨responseData maxResponseSize response, responseData_length maxResponseSize response,
          claimedSize maxResponseSize response, 10⟩ := by
  unfold submitCommand
  cases hreq : request tag commandCode input with
  | err e => simp
  | stuck => simp
  | ok buf =>
    rw [Out.ok_bind]
    cases hsub : submit buf (blockSize maxResponseSize) with
    | none => simp [Out.ofOption, hsub]
    | some response =>
      have hlen := responseData_length maxResponseSize response
      rw [Out.ofOption, Out.ok_bind]
      dsimp only
      rw [unpack_header hlen (by decide), Out.ok_bind]
      dsimp only
      rw [unpack_header hlen (by decide), Out.ok_bind]
      dsimp only
      rw [unpack_header hlen (by decide), Out.ok_bind]
      constructor
      · intro h
        cases h
        exact ⟨buf, response, rfl, hsub, rfl, rfl⟩
      · rintro ⟨buf', response', hbuf, hresp, rfl, rfl⟩
        cases hbuf
        rw [hsub] at hresp
        cases hresp
        rfl

/-- The buffer holds what it presents where its size is between that of a header and its
capacity: below, the difference from the offset wraps around. -/
theorem presents_iff {data : Bytes} (hlen : data.length = bufCapacity) {size : Nat}
    (hsize : size < 2 ^ 32) :
    Presents ⟨data, hlen, size, 10⟩ ↔ 10 ≤ size ∧ size ≤ bufCapacity := by
  have hr : u32 (size + 2 ^ 32 - 10) = if 10 ≤ size then size - 10 else size + 2 ^ 32 - 10 := by
    unfold u32
    split <;> omega
  unfold Presents TPMBuf.unpack
  dsimp only
  rw [hr]
  constructor
  · intro h
    have hall := h (bufCapacity - 9) (by decide)
    by_contra hnot
    have hlt : ¬ (if 10 ≤ size then size - 10 else size + 2 ^ 32 - 10) < bufCapacity - 9 := by
      unfold bufCapacity at hnot ⊢
      split <;> omega
    rw [if_neg hlt, if_pos (by decide)] at hall
    exact hall rfl
  · rintro ⟨hle, hcap⟩ n - hstuck
    rw [if_pos hle] at hstuck
    split at hstuck
    · cases hstuck
    · rw [if_neg (by omega)] at hstuck
      cases hstuck

theorem claimedSize_lt (maxResponseSize : Nat) (response : Bytes) :
    claimedSize maxResponseSize response < 2 ^ 32 := by
  have hlen : 4 ≤ ((responseData maxResponseSize response).drop 2).length := by
    rw [List.length_drop, responseData_length]
    decide
  exact bigEndian_lt hlen

/-- A response that is delivered claims a size that the buffer holds. -/
def ClaimsWithin : Prop :=
  ∀ buf response, request tag commandCode input = .ok buf →
    submit buf (blockSize maxResponseSize) = some response →
    10 ≤ claimedSize maxResponseSize response ∧ claimedSize maxResponseSize response ≤ bufCapacity

/-- What `_SubmitCommand` delivers presents no more than it holds. -/
def SubmitPresents : Prop :=
  ∀ rc out, submitCommand submit maxResponseSize tag commandCode input = .ok (rc, out) →
    Presents out

theorem submitPresents_iff : SubmitPresents submit maxResponseSize tag commandCode input ↔
    ClaimsWithin submit maxResponseSize tag commandCode input := by
  constructor
  · intro h buf response hbuf hresponse
    have hout := h _ _ ((submitCommand_ok submit maxResponseSize tag commandCode input).mpr
      ⟨buf, response, hbuf, hresponse, rfl, rfl⟩)
    exact (presents_iff _ (claimedSize_lt _ _)).mp hout
  · intro h rc out hok
    obtain ⟨buf, response, hbuf, hresponse, rfl, rfl⟩ :=
      (submitCommand_ok submit maxResponseSize tag commandCode input).mp hok
    exact (presents_iff _ (claimedSize_lt _ _)).mpr (h buf response hbuf hresponse)

/-- Every unpacker stays within its arrays and its input, and every buffer of a response within
its capacity, exactly where the sizes and counts that are taken from outside are harmless. -/
theorem unpacking_contained_iff (u : Unpacker) (bs blob : Bytes) :
    (Contained (u.reader.read bs) u.format bs ∧ BlobContained blob ∧
      SubmitPresents submit maxResponseSize tag commandCode input) ↔
    (Harmless u.format bs ∧ (sizeofBlob < blob.length ∨ Harmless blobFormat blob) ∧
      ClaimsWithin submit maxResponseSize tag commandCode input) :=
  and_congr (contained_iff (reader_follows u) bs)
    (and_congr (blobContained_iff blob)
      (submitPresents_iff submit maxResponseSize tag commandCode input))

/-- A selection of four bytes goes past the three of `TPMS_PCR_SELECT`. -/
theorem long_select_overruns :
    ¬ Contained (Unpacker.pcrSelect.reader.read [4, 0xFF, 0xFF, 0xFF, 0xFF])
      Unpacker.pcrSelect.format [4, 0xFF, 0xFF, 0xFF, 0xFF] := by
  intro h
  have hstuck : unpackPcrSelect.read [4, 0xFF, 0xFF, 0xFF, 0xFF] = .stuck := rfl
  unfold Unpacker.reader at h
  rw [hstuck] at h
  exact h

end LsvmTools.TpmUnpack
