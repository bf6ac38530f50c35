import LsvmTools.LuksKeys

/-! # Unlocking a LUKS device

`LUKSGetMasterKey` tries one enabled slot after another. What it means that a slot opens is
said here without the loops: the stripes are a list, merged from the left. `LUKSMatchHeader`
looks at the same header on its own path, from the raw sectors. -/
namespace LsvmTools.LuksUnlock
open Lib.ByteString Lib.Program BlockDevice Luks LuksHeader LuksKeys

variable (crypto : Crypto)

/-- The loop of `LUKSGetMasterKey`. -/
def luksGetMasterKeyFrom (rawdev : Blkdev) (header : Header) (passphrase : Bytes) :
    List KeySlot → Out Unit Bytes
  | [] => .err ()
  | slot :: slots =>
    if slot.enabled = slotDisabled then luksGetMasterKeyFrom rawdev header passphrase slots
    else if slot.enabled = slotEnabled then
      match unsealMasterKey crypto rawdev header slot passphrase with
      | .ok masterKey => .ok masterKey
      | .err _ => luksGetMasterKeyFrom rawdev header passphrase slots
      | .stuck => .stuck
    else luksGetMasterKeyFrom rawdev header passphrase slots

/-- `LUKSGetMasterKey`. -/
def luksGetMasterKey (rawdev : Blkdev) (header : Header) (passphrase : Bytes) : Out Unit Bytes :=
  luksGetMasterKeyFrom crypto rawdev header passphrase header.slots

/-- Two sectors. -/
structure HeaderSectors where
  bytes : Bytes
  size : bytes.length = 2 * 512

/-- The header at the start of the sectors, as it is on disk. -/
def HeaderSectors.header (sectors : HeaderSectors) : Header :=
  ⟨sectors.bytes.take 592, by rw [List.length_take, sectors.size]; rfl⟩

/-- `LUKSMatchHeader`. -/
def luksMatchHeader (sectors : HeaderSectors) (masterkeyData : Bytes) (masterkeySize : UInt32) :
    Bool :=
  if masterkeySize = 0 then false
  else if sectors.header.magic ≠ luksMagic then false
  else
    let header := luksFixByteOrder sectors.header
    if masterkeySize ≠ header.keyBytes then false
    else match luksComputeMKDigest crypto header masterkeyData with
      | none => false
      | some mkDigest => header.mkDigest = mkDigest

/-! ## Slots that open -/

/-- The stripes merged from the left, with a diffusion between two of them. -/
def mergeStripes (diffuse : Bytes → Option Bytes) : List Bytes → Bytes → Option Bytes
  | [], key => some key
  | [stripe], key => some (computeXOR key stripe)
  | stripe :: next :: rest, key => do
    let key ← diffuse (computeXOR key stripe)
    mergeStripes diffuse (next :: rest) key

/-- Stripe number `i`. -/
def stripe (kb : Nat) (plain : Bytes) (i : Nat) : Bytes := (plain.drop (i * kb)).take kb

/-- The material of the slot, decrypted with the key derived from the passphrase, holds all
stripes, and they merge into the key. -/
structure Unlocks (rawdev : Blkdev) (header : Header) (slot : KeySlot)
    (passphrase derivedKey material plain key : Bytes) : Prop where
  derive : slotKey crypto header slot passphrase = some derivedKey
  read : keyMaterial rawdev header slot = .ok material
  crypt : luksCrypt crypto.toOpenSSL false header.cipher derivedKey material 0 = .ok plain
  whole : header.keyBytes.toNat * slot.afStripes.toNat ≤ plain.length
  merge : mergeStripes (diffuse crypto header)
    ((List.range slot.afStripes.toNat).map (stripe header.keyBytes.toNat plain))
    (List.replicate header.keyBytes.toNat 0) = some key

/-- An enabled slot whose key has the digest of the header. -/
structure Opens (rawdev : Blkdev) (header : Header) (passphrase : Bytes) (slot : KeySlot)
    (key : Bytes) : Prop where
  enabled : slot.enabled = slotEnabled
  unlocks : ∃ derivedKey material plain,
    Unlocks crypto rawdev header slot passphrase derivedKey material plain key
  digest : luksComputeMKDigest crypto header key = some header.mkDigest

/-- No slot of the list opens. -/
def NoneOpens (rawdev : Blkdev) (header : Header) (passphrase : Bytes) (slots : List KeySlot) :
    Prop := ∀ slot ∈ slots, ∀ key, ¬ Opens crypto rawdev header passphrase slot key

/-- The key comes from the first slot that opens, whatever slots that are not enabled stand
before it and whatever comes after it, and it matches the header on the device. -/
structure Verifies (rawdev : Blkdev) (header : Header) (passphrase : Bytes) : Prop where
  returns : luksGetMasterKey crypto rawdev header passphrase ≠ .stuck
  first : ∀ key, luksGetMasterKey crypto rawdev header passphrase = .ok key ↔
    ∃ pre slot post, header.slots = pre ++ slot :: post ∧
      NoneOpens crypto rawdev header passphrase pre ∧
      Opens crypto rawdev header passphrase slot key
  influence : ∀ pre slot post key, header.slots = pre ++ slot :: post →
    NoneOpens crypto rawdev header passphrase pre →
    Opens crypto rawdev header passphrase slot key →
    ∀ post', luksGetMasterKeyFrom crypto rawdev header passphrase
      (pre.filter (fun s => s.enabled = slotEnabled) ++ slot :: post') = .ok key
  matched : ∀ key, luksGetMasterKey crypto rawdev header passphrase = .ok key →
    ∃ sectors : HeaderSectors, getN rawdev 0 2 = some sectors.bytes ∧
      luksMatchHeader crypto sectors key header.keyBytes = true

/-- Where the material of a slot is read and its cipher is known, the size of the material is
one that OpenSSL takes, and once it is decrypted the stripes that are merged take no more
bytes than were decrypted. -/
def Bounded (rawdev : Blkdev) (header : Header) (passphrase : Bytes) (slot : KeySlot) : Prop :=
  ∀ derivedKey material, slotKey crypto header slot passphrase = some derivedKey →
    keyMaterial rawdev header slot = .ok material →
    luksCrypt crypto.toOpenSSL false header.cipher derivedKey material 0 ≠ .stuck ∧
    ∀ plain, luksCrypt crypto.toOpenSSL false header.cipher derivedKey material 0 = .ok plain →
      header.keyBytes.toNat * mergedStripes header slot ≤ decryptedBytes header slot

section

variable {crypto} {rawdev : Blkdev} {header : Header} {slot : KeySlot} {passphrase key : Bytes}
  {stripes : Stripes}

/-! ## The merge of a list -/

theorem afMergeFrom_eq (hlen : stripes.written.length < 2 ^ 32)
    (h : header.keyBytes.toNat * slot.afStripes.toNat ≤ stripes.written.length) {left : Nat}
    (hle : left ≤ slot.afStripes.toNat) (key : Bytes) :
    afMergeFrom crypto header slot stripes left key =
      Out.ofOption () (mergeStripes (diffuse crypto header)
        ((List.range' (slot.afStripes.toNat - left) left).map
          (stripe header.keyBytes.toNat stripes.written)) key) := by
  induction left generalizing key with
  | zero => rfl
  | succ left ih =>
    have hin := (starts_inside_iff hlen).mpr (.inl h) (slot.afStripes.toNat - (left + 1)) (by omega)
    have hmul : header.keyBytes.toNat * (slot.afStripes.toNat - (left + 1)) ≤
        header.keyBytes.toNat * slot.afStripes.toNat := Nat.mul_le_mul_left _ (by omega)
    rw [Nat.mul_comm _ (slot.afStripes.toNat - (left + 1))] at hmul
    have hstart : u32 ((slot.afStripes.toNat - (left + 1)) * header.keyBytes.toNat) =
        (slot.afStripes.toNat - (left + 1)) * header.keyBytes.toNat := u32_of_lt (by omega)
    have hnext : slot.afStripes.toNat - (left + 1) + 1 = slot.afStripes.toNat - left := by omega
    have hstripe : ∀ i, (stripes.written.drop (i * header.keyBytes.toNat)).take
        header.keyBytes.toNat = stripe header.keyBytes.toNat stripes.written i := fun _ => rfl
    unfold afMergeFrom
    dsimp only
    rw [Stripes.read, if_pos hin, Out.ok_bind, hstart, hstripe, List.range'_succ, List.map_cons,
      hnext]
    cases left with
    | zero => rfl
    | succ left =>
      rw [if_pos (by omega), List.range'_succ, List.map_cons, mergeStripes]
      change _ = Out.ofOption () ((diffuse crypto header _).bind _)
      cases diffuse crypto header (computeXOR key (stripe header.keyBytes.toNat stripes.written
        (slot.afStripes.toNat - (left + 1 + 1)))) with
      | none => rfl
      | some key' =>
        have := ih (by omega) key'
        rwa [List.range'_succ, List.map_cons] at this

/-- The merge delivers a key exactly where the stripes are all there and merge into it. -/
theorem afMerge_ok_iff (hlen : stripes.written.length < 2 ^ 32) :
    afMerge crypto header slot stripes = .ok key ↔
      header.keyBytes.toNat * slot.afStripes.toNat ≤ stripes.written.length ∧
        mergeStripes (diffuse crypto header)
          ((List.range slot.afStripes.toNat).map (stripe header.keyBytes.toNat stripes.written))
          (List.replicate header.keyBytes.toNat 0) = some key := by
  by_cases h : header.keyBytes.toNat * slot.afStripes.toNat ≤ stripes.written.length
  · rw [and_iff_right h, afMerge, afMergeFrom_eq hlen h (Nat.le_refl _), Nat.sub_self,
      ← List.range_eq_range']
    cases mergeStripes (diffuse crypto header)
      ((List.range slot.afStripes.toNat).map (stripe header.keyBytes.toNat stripes.written))
      (List.replicate header.keyBytes.toNat 0) with
    | none =>
      constructor
      · intro he; cases he
      · intro he; cases he
    | some k =>
      constructor
      · intro he; cases he; rfl
      · intro he; cases he; rfl
  · refine ⟨fun hok => absurd ?_ h, fun hand => absurd hand.1 h⟩
    have hret : afMerge crypto header slot stripes ≠ .stuck := by
      rw [hok]
      exact fun he => by cases he
    have hle := (afMerge_returns_iff hlen).mp hret
    unfold mergedStripes at hle
    split at hle
    · exact hle
    · rename_i hunknown
      by_cases hone : slot.afStripes.toNat ≤ 1
      · rwa [Nat.min_eq_left hone] at hle
      · -- the diffusion of the first stripe fails
        exfalso
        obtain ⟨left, hleft⟩ : ∃ left, slot.afStripes.toNat = left + 2 :=
          ⟨slot.afStripes.toNat - 2, by omega⟩
        unfold afMerge at hok
        rw [hleft, afMergeFrom] at hok
        dsimp only at hok
        obtain ⟨s, -, hok⟩ := Out.bind_eq_ok.mp hok
        rw [if_pos (Nat.succ_ne_zero _)] at hok
        obtain ⟨k, hk, -⟩ := Out.bind_eq_ok.mp hok
        have hnone : diffuseAlg header.hashSpec = none := Option.not_isSome_iff_eq_none.mp hunknown
        rw [diffuse, hnone] at hk
        cases hk

/-! ## One slot -/

theorem ofOption_ok {α : Type} {o : Option α} {a : α} (h : Out.ofOption () o = .ok a) :
    o = some a := by
  cases o with
  | none => cases h
  | some b => injection h with h; rw [h]

theorem crypt_le (hc : crypto.Documented) {derivedKey material plain : Bytes}
    (h : luksCrypt crypto.toOpenSSL false header.cipher derivedKey material 0 = .ok plain) :
    plain.length ≤ material.length := by
  rw [length_crypt hc h]
  unfold cryptRounds cryptBlock
  split
  · rw [Nat.one_mul]
  · exact Nat.div_mul_le_self _ _

theorem decrypt_ok_iff (hc : crypto.Documented) {derivedKey material : Bytes} :
    decryptStripes crypto header derivedKey material = .ok stripes ↔
      luksCrypt crypto.toOpenSSL false header.cipher derivedKey material 0 = .ok stripes.written ∧
        stripes.size = material.length := by
  unfold decryptStripes
  split
  · rename_i plain hplain
    have hle := crypt_le hc hplain
    rw [dif_pos hle, hplain]
    obtain ⟨size, written, hw⟩ := stripes
    simp only [Out.ok.injEq, Stripes.mk.injEq]
    exact ⟨fun h => ⟨h.2, h.1.symm⟩, fun h => ⟨h.2.symm, h.1⟩⟩
  · rename_i e herr
    rw [herr]
    constructor
    · intro h; cases h
    · intro h; cases h.1
  · rename_i hstuck
    rw [hstuck]
    constructor
    · intro h; cases h
    · intro h; cases h.1

theorem written_lt {material : Bytes} (hmat : keyMaterial rawdev header slot = .ok material)
    (hsize : stripes.size = material.length) : stripes.written.length < 2 ^ 32 := by
  have hlen : material.length = stripesBytes header slot := length_blkdevRead hmat
  have hlt : stripesBytes header slot < 2 ^ 32 := u32_lt _
  have hle := stripes.le
  omega

/-- A slot is unsealed with the key that its stripes merge into, where it has the digest of the
header. -/
theorem unseal_ok_iff (hc : crypto.Documented) :
    unsealMasterKey crypto rawdev header slot passphrase = .ok key ↔
      (∃ derivedKey material plain,
        Unlocks crypto rawdev header slot passphrase derivedKey material plain key) ∧
      luksComputeMKDigest crypto header key = some header.mkDigest := by
  constructor
  · intro h
    obtain ⟨derivedKey, hder, h⟩ := Out.bind_eq_ok.mp h
    obtain ⟨material, hmat, h⟩ := Out.bind_eq_ok.mp h
    obtain ⟨stripes, hdec, h⟩ := Out.bind_eq_ok.mp h
    obtain ⟨key', hmerge, h⟩ := Out.bind_eq_ok.mp h
    obtain ⟨digest, hdig, h⟩ := Out.bind_eq_ok.mp h
    obtain ⟨hcrypt, hsize⟩ := (decrypt_ok_iff hc).mp hdec
    obtain ⟨hwhole, hlist⟩ := (afMerge_ok_iff (written_lt hmat hsize)).mp hmerge
    split at h
    · cases h
    · rename_i heq
      injection h with h
      subst h
      exact ⟨⟨derivedKey, material, _, ofOption_ok hder, hmat, hcrypt, hwhole, hlist⟩,
        (ofOption_ok hdig).trans (congrArg some (not_not.mp heq))⟩
  · rintro ⟨⟨derivedKey, material, plain, hu⟩, hdig⟩
    have hle := crypt_le hc hu.crypt
    have hdec : decryptStripes crypto header derivedKey material =
        .ok ⟨material.length, plain, hle⟩ := (decrypt_ok_iff hc).mpr ⟨hu.crypt, rfl⟩
    have hmerge : afMerge crypto header slot ⟨material.length, plain, hle⟩ = .ok key :=
      (afMerge_ok_iff (written_lt hu.read rfl)).mpr ⟨hu.whole, hu.merge⟩
    unfold unsealMasterKey
    rw [hu.derive, hu.read]
    change decryptStripes crypto header derivedKey material >>= _ = _
    rw [hdec, Out.ok_bind, hmerge, Out.ok_bind, hdig]
    change (if header.mkDigest ≠ header.mkDigest then _ else _) = _
    rw [if_neg (not_not.mpr rfl)]
    rfl

theorem ofOption_ne_stuck {α : Type} (o : Option α) : Out.ofOption () o ≠ .stuck := by
  cases o with
  | none => exact fun h => by cases h
  | some a => exact fun h => by cases h

theorem blkdevRead_ne_stuck (dev : Blkdev) (blkno size : Nat) :
    blkdevRead dev blkno size ≠ .stuck := by
  unfold blkdevRead
  dsimp only
  split
  · exact fun h => by cases h
  · split
    · exact ofOption_ne_stuck _
    · cases h1 : Out.ofOption () (getN dev blkno ((size + 512 - 1) / 512 - 1)) with
      | stuck => exact absurd h1 (ofOption_ne_stuck _)
      | err e => exact fun h => by cases h
      | ok data =>
        rw [Out.ok_bind]
        cases h2 : Out.ofOption () (getN dev (blkno + (size + 512 - 1) / 512 - 1) 1) with
        | stuck => exact absurd h2 (ofOption_ne_stuck _)
        | err e => exact fun h => by cases h
        | ok block => exact fun h => by cases h

/-- The run of a slot once its key is derived and its material is read. -/
theorem unseal_read {derivedKey material : Bytes}
    (hder : slotKey crypto header slot passphrase = some derivedKey)
    (hmat : keyMaterial rawdev header slot = .ok material) :
    unsealMasterKey crypto rawdev header slot passphrase = (do
      let decryptedStripes ← decryptStripes crypto header derivedKey material
      let masterKey ← afMerge crypto header slot decryptedStripes
      let mkDigest ← Out.ofOption () (luksComputeMKDigest crypto header masterKey)
      if mkDigest ≠ header.mkDigest then .err () else pure masterKey) := by
  unfold unsealMasterKey
  rw [hder, hmat]
  rfl

theorem bind_ne_stuck {α β : Type} {x : Out Unit α} {k : α → Out Unit β} (hx : x ≠ .stuck)
    (hk : ∀ a, x = .ok a → k a ≠ .stuck) : x >>= k ≠ .stuck := by
  cases x with
  | ok a => exact hk a rfl
  | err e => exact fun h => by cases h
  | stuck => exact absurd rfl hx

theorem unseal_returns_iff (hc : crypto.Documented) :
    unsealMasterKey crypto rawdev header slot passphrase ≠ .stuck ↔
      Bounded crypto rawdev header passphrase slot := by
  constructor
  · intro hne derivedKey material hder hmat
    rw [unseal_read hder hmat] at hne
    constructor
    · intro hs
      have hdec : decryptStripes crypto header derivedKey material = .stuck := by
        unfold decryptStripes
        rw [hs]
      exact hne (by rw [hdec, Out.stuck_bind])
    · intro plain hplain
      have hle := crypt_le hc hplain
      have hdec : decryptStripes crypto header derivedKey material =
          .ok ⟨material.length, plain, hle⟩ := (decrypt_ok_iff hc).mpr ⟨hplain, rfl⟩
      have hm : Merges crypto rawdev header slot passphrase material
          ⟨material.length, plain, hle⟩ := ⟨hmat, derivedKey, hder, hdec⟩
      obtain ⟨-, -, hwritten⟩ := hm.sizes hc
      rw [← hwritten]
      have hret := @afMerge_returns_iff crypto header slot ⟨material.length, plain, hle⟩
        (written_lt hmat rfl)
      refine hret.mp fun hs => hne ?_
      rw [hdec, Out.ok_bind, hs, Out.stuck_bind]
  · intro hb
    unfold unsealMasterKey
    refine bind_ne_stuck (ofOption_ne_stuck _) fun derivedKey hder => ?_
    refine bind_ne_stuck (blkdevRead_ne_stuck _ _ _) fun material hmat => ?_
    obtain ⟨hcrypt, hmerge⟩ := hb derivedKey material (ofOption_ok hder) hmat
    refine bind_ne_stuck ?_ fun stripes hdec => ?_
    · unfold decryptStripes
      split
      · rename_i plain hplain
        rw [dif_pos (crypt_le hc hplain)]
        exact fun h => by cases h
      · exact fun h => by cases h
      · rename_i hs
        exact absurd hs hcrypt
    · have hm : Merges crypto rawdev header slot passphrase material stripes :=
        ⟨hmat, derivedKey, ofOption_ok hder, hdec⟩
      obtain ⟨hplain, hsize⟩ := (decrypt_ok_iff hc).mp hdec
      obtain ⟨-, -, hwritten⟩ := hm.sizes hc
      refine bind_ne_stuck ((afMerge_returns_iff (written_lt hmat hsize)).mpr ?_) fun key _ => ?_
      · rw [hwritten]
        exact hmerge _ hplain
      · refine bind_ne_stuck (ofOption_ne_stuck _) fun digest _ => ?_
        split
        · exact fun h => by cases h
        · exact fun h => by cases h

/-! ## The loop over the slots -/

theorem enabled_ne_disabled : slotEnabled ≠ slotDisabled := by decide

theorem getFrom_skip {slots : List KeySlot} (h : slot.enabled ≠ slotEnabled) :
    luksGetMasterKeyFrom crypto rawdev header passphrase (slot :: slots) =
      luksGetMasterKeyFrom crypto rawdev header passphrase slots := by
  rw [luksGetMasterKeyFrom]
  split
  · rfl
  · rfl

theorem getFrom_try {slots : List KeySlot} (h : slot.enabled = slotEnabled) :
    luksGetMasterKeyFrom crypto rawdev header passphrase (slot :: slots) =
      match unsealMasterKey crypto rawdev header slot passphrase with
      | .ok masterKey => .ok masterKey
      | .err _ => luksGetMasterKeyFrom crypto rawdev header passphrase slots
      | .stuck => .stuck := by
  rw [luksGetMasterKeyFrom, if_neg (by rw [h]; exact enabled_ne_disabled), if_pos h]

theorem opens_iff (hc : crypto.Documented) (h : slot.enabled = slotEnabled) :
    Opens crypto rawdev header passphrase slot key ↔
      unsealMasterKey crypto rawdev header slot passphrase = .ok key := by
  rw [unseal_ok_iff hc]
  exact ⟨fun ho => ⟨ho.unlocks, ho.digest⟩, fun ho => ⟨h, ho.1, ho.2⟩⟩

/-- Every enabled slot of the list can be tried. -/
def AllBounded (crypto : Crypto) (rawdev : Blkdev) (header : Header) (passphrase : Bytes)
    (slots : List KeySlot) : Prop :=
  ∀ slot ∈ slots, slot.enabled = slotEnabled → Bounded crypto rawdev header passphrase slot

/-- Slots that do not open are passed over. -/
theorem getFrom_none (hc : crypto.Documented) {pre : List KeySlot} (slots : List KeySlot)
    (hn : NoneOpens crypto rawdev header passphrase pre)
    (hb : AllBounded crypto rawdev header passphrase pre) :
    luksGetMasterKeyFrom crypto rawdev header passphrase (pre ++ slots) =
      luksGetMasterKeyFrom crypto rawdev header passphrase slots := by
  induction pre with
  | nil => rfl
  | cons slot pre ih =>
    have hrest := ih (fun s hs => hn s (List.mem_cons_of_mem _ hs))
      (fun s hs => hb s (List.mem_cons_of_mem _ hs))
    rw [List.cons_append]
    by_cases he : slot.enabled = slotEnabled
    · rw [getFrom_try he]
      have hne := (unseal_returns_iff hc).mpr (hb slot List.mem_cons_self he)
      split
      · rename_i key hk
        exact absurd ((opens_iff hc he).mpr hk) (hn slot List.mem_cons_self key)
      · exact hrest
      · rename_i hs
        exact absurd hs hne
    · rw [getFrom_skip he, hrest]

theorem getFrom_opens (hc : crypto.Documented) (slots : List KeySlot)
    (h : Opens crypto rawdev header passphrase slot key) :
    luksGetMasterKeyFrom crypto rawdev header passphrase (slot :: slots) = .ok key := by
  rw [getFrom_try h.enabled, (opens_iff hc h.enabled).mp h]

/-- A slot that cannot be tried and is not behind one that opens. -/
theorem getFrom_stuck (hc : crypto.Documented) {pre : List KeySlot} (slots : List KeySlot)
    (hn : NoneOpens crypto rawdev header passphrase pre) (he : slot.enabled = slotEnabled)
    (hs : ¬ Bounded crypto rawdev header passphrase slot) :
    luksGetMasterKeyFrom crypto rawdev header passphrase (pre ++ slot :: slots) = .stuck := by
  induction pre with
  | nil =>
    have hst : unsealMasterKey crypto rawdev header slot passphrase = .stuck := by
      by_contra hne
      exact hs ((unseal_returns_iff hc).mp hne)
    rw [List.nil_append, getFrom_try he, hst]
  | cons s pre ih =>
    have hrest := ih fun s hs => hn s (List.mem_cons_of_mem _ hs)
    rw [List.cons_append]
    by_cases hse : s.enabled = slotEnabled
    · rw [getFrom_try hse]
      split
      · rename_i key hk
        exact absurd ((opens_iff hc hse).mpr hk) (hn s List.mem_cons_self key)
      · exact hrest
      · rfl
    · rw [getFrom_skip hse, hrest]

/-- The list up to the first slot that opens. -/
theorem first_opens (slots : List KeySlot) :
    NoneOpens crypto rawdev header passphrase slots ∨
      ∃ pre slot post key, slots = pre ++ slot :: post ∧
        NoneOpens crypto rawdev header passphrase pre ∧
        Opens crypto rawdev header passphrase slot key := by
  induction slots with
  | nil => exact .inl fun s hs => by cases hs
  | cons slot slots ih =>
    by_cases ho : ∃ key, Opens crypto rawdev header passphrase slot key
    · obtain ⟨key, ho⟩ := ho
      exact .inr ⟨[], slot, slots, key, rfl, fun s hs => (by cases hs), ho⟩
    · rcases ih with hn | ⟨pre, s, post, key, rfl, hn, hs⟩
      · left
        intro s hs key hk
        rcases List.mem_cons.mp hs with rfl | hs
        · exact ho ⟨key, hk⟩
        · exact hn s hs key hk
      · right
        refine ⟨slot :: pre, s, post, key, rfl, fun t ht k hk => ?_, hs⟩
        rcases List.mem_cons.mp ht with rfl | ht
        · exact ho ⟨k, hk⟩
        · exact hn t ht k hk

/-! ## The header on the device -/

theorem getN_two {a b : Bytes} (ha : getN rawdev 0 1 = some a) (hb : getN rawdev 1 1 = some b) :
    getN rawdev 0 2 = some (a ++ b) := by
  unfold getN at ha hb ⊢
  split at ha
  · rename_i h0
    split at hb
    · rename_i h1
      injection ha with ha
      injection hb with hb
      have hall : (List.range' 0 2).all rawdev.readable = true := by
        have hr0 := List.all_eq_true.mp h0.2 0 (by decide)
        have hr1 := List.all_eq_true.mp h1.2 1 (by decide)
        refine List.all_eq_true.mpr fun i hi => ?_
        have hi2 : i = 0 ∨ i = 1 := by
          have := (List.mem_range'_1.mp hi).2
          omega
        rcases hi2 with rfl | rfl
        · exact hr0
        · exact hr1
      rw [if_pos ⟨h1.1, hall⟩, ← ha, ← hb]
      exact congrArg some (readMem_append rawdev.data 0 512 512)
    · cases hb
  · cases ha

theorem length_getN {blkno n : Nat} {data : Bytes} (h : getN rawdev blkno n = some data) :
    data.length = n * 512 := by
  unfold getN at h
  split at h
  · injection h with h
    rw [← h, length_readMem]
  · cases h

/-- The header that is read is the one at the start of the first two sectors. -/
theorem readHeader_sectors (h : luksReadHeader rawdev = .ok header) :
    ∃ sectors : HeaderSectors, getN rawdev 0 2 = some sectors.bytes ∧
      sectors.header.magic = luksMagic ∧ luksFixByteOrder sectors.header = header := by
  unfold luksReadHeader at h
  split at h
  · rename_i raw hraw
    dsimp only at h
    split at h
    · cases h
    · rename_i hmagic
      injection h with h
      have hraw' := hraw
      unfold blkdevRead at hraw'
      rw [if_neg (by decide), if_neg (by decide)] at hraw'
      obtain ⟨a, ha, hraw'⟩ := Out.bind_eq_ok.mp hraw'
      obtain ⟨b, hb, hraw'⟩ := Out.bind_eq_ok.mp hraw'
      injection hraw' with hraw'
      have ha' := ofOption_ok ha
      have hb' := ofOption_ok hb
      have hla := length_getN ha'
      have hlb := length_getN hb'
      refine ⟨⟨a ++ b, by rw [List.length_append, hla, hlb]⟩, getN_two ha' hb', ?_⟩
      have hheader : ∀ hs, (HeaderSectors.mk (a ++ b) hs).header =
          ⟨raw, length_blkdevRead hraw⟩ := by
        intro hs
        simp only [HeaderSectors.header, Header.mk.injEq]
        rw [← hraw', List.take_append, List.take_of_length_le (by rw [hla]; decide), hla]
      rw [hheader]
      exact ⟨not_not.mp hmagic, h⟩
  · cases h
  · cases h

/-- A key that opens a slot has at least one byte. -/
theorem Opens.keyBytes (hc : crypto.Documented)
    (h : Opens crypto rawdev header passphrase slot key) : header.keyBytes ≠ 0 := by
  intro h0
  obtain ⟨derivedKey, material, plain, hu⟩ := h.unlocks
  obtain ⟨cipher, hcipher, -⟩ := Out.bind_eq_ok.mp hu.crypt
  have hcipher := ofOption_ok hcipher
  have hkey : header.cipher.keyBytes = 0 := h0
  have hbits : u32 (header.cipher.keyBytes.toNat * 8) = 0 := by
    rw [hkey]
    exact u32_of_lt (by decide)
  unfold luksGetCipher at hcipher
  simp only [hbits, Nat.zero_div, Option.bind_eq_bind, Option.bind_some, Option.bind_none,
    hc.bits, Bool.false_eq_true, if_false, ite_self, reduceCtorEq] at hcipher

end

/-! ## Small devices -/

/-- The header of the small device in the machine's byte order. -/
def unlockedHeader (mode : String) (stripes : Nat) : Bytes :=
  luksMagic ++ [1, 0] ++ field "aes" ++ field mode ++ field "sha1" ++ enc32 8 ++ enc32 16 ++
    List.replicate 52 0 ++ enc32 1 ++ List.replicate 40 0 ++ (smallSlot stripes).raw ++
    (List.replicate 7 (enc32 slotDisabled.toNat ++ enc32 1 ++ List.replicate 32 0 ++ enc32 2 ++
      enc32 0)).flatten

def ecbHeader : Header := ⟨unlockedHeader "ecb" 2, by decide +kernel⟩

def cbcHeader : Header := ⟨unlockedHeader "cbc-plain" 1, by decide +kernel⟩

end LsvmTools.LuksUnlock
