import LsvmTools.Lib.Precondition

/-! # The sealed keys

`keys.c` puts the boot key and the root key into one string of bytes and takes them out again:
a count and then, for each key, its type and its size before it. A pointer into the data is
what is left of them. -/
namespace LsvmTools.Keys
open Lib.ByteString Lib.Program Lib.Precondition

/-- `KEYS_BOOTKEY_TYPE`. -/
def bootkeyType : Nat := 1

/-- `KEYS_ROOTKEY_TYPE`. -/
def rootkeyType : Nat := 2

/-- `KEYS_SEALED_HEADER_SIZE`. -/
def sealedHeaderSize : Nat := 2

/-- `KEYS_SEALED_KEY_HEADER_SIZE`. -/
def sealedKeyHeaderSize : Nat := 4

/-! ## Writing -/

/-- `_SerializeKey`. -/
def serializeKey (keyType : Nat) (key : Bytes) : Bytes := enc16 keyType ++ enc16 key.length ++ key

/-- `CombineKeys`. -/
def combineKeys (bootkey rootkey : Bytes) : Bytes :=
  enc16 2 ++ serializeKey bootkeyType bootkey ++ serializeKey rootkeyType rootkey

/-! ## Reading -/

/-- `bootkeyTmp` and `rootkeyTmp`. -/
structure Found where
  bootkey : Option Bytes
  rootkey : Option Bytes
deriving DecidableEq

def Found.put (found : Found) (keyType : Nat) (key : Bytes) : Found :=
  if keyType = bootkeyType then { found with bootkey := some key }
  else { found with rootkey := some key }

def IsKeyType (keyType : Nat) : Prop := keyType = bootkeyType ∨ keyType = rootkeyType

instance (keyType : Nat) : Decidable (IsKeyType keyType) := inferInstanceAs (Decidable (_ ∨ _))

/-- `_DeserializeKey`: what is left of the data, and the keys found so far. -/
def deserializeKey (rest : Bytes) (found : Found) : Out Unit (Bytes × Found) := do
  demand (2 ≤ rest.length)
  let keyType := le16 rest 0
  if IsKeyType keyType then do
    demand (sealedKeyHeaderSize ≤ rest.length)
    let keySize := le16 rest 2
    demand (sealedKeyHeaderSize + keySize ≤ rest.length)
    let rest := rest.drop sealedKeyHeaderSize
    pure (rest.drop keySize, found.put keyType (rest.take keySize))
  else .err ()

def bothKeys : Found → Out Unit (Bytes × Bytes)
  | ⟨some bootkey, some rootkey⟩ => pure (bootkey, rootkey)
  | _ => .err ()

/-- `SplitKeys`. -/
def splitKeys (inData : Bytes) : Out Unit (Bytes × Bytes) :=
  if inData.length < sealedHeaderSize then .err ()
  else if le16 inData 0 ≠ 2 ∨ inData.length < sealedHeaderSize + 2 * sealedKeyHeaderSize then
    .err ()
  else do
    let (rest, found) ← deserializeKey (inData.drop sealedHeaderSize) ⟨none, none⟩
    let (_, found) ← deserializeKey rest found
    bothKeys found

/-! ## What a bundle is -/

/-- The data begin with a header that declares two keys and with a record of each key. -/
def Bundles (inData bootkey rootkey : Bytes) : Prop :=
  bootkey.length < 2 ^ 16 ∧ rootkey.length < 2 ^ 16 ∧ ∃ tail,
    inData = enc16 2 ++ (serializeKey bootkeyType bootkey ++
      (serializeKey rootkeyType rootkey ++ tail)) ∨
    inData = enc16 2 ++ (serializeKey rootkeyType rootkey ++
      (serializeKey bootkeyType bootkey ++ tail))

/-- Keys that were put together are taken apart, and any data are read inside their bounds and
taken for a bundle exactly if they are one. -/
structure KeysRight (bootkey rootkey inData : Bytes) : Prop where
  roundTrip : splitKeys (combineKeys bootkey rootkey) = .ok (bootkey, rootkey)
  inside : splitKeys inData ≠ .stuck
  exact : ∀ b r, splitKeys inData = .ok (b, r) ↔ Bundles inData b r

/-- The record that begins here ends inside the data, as far as it is looked at. -/
def RecordInside (rest : Bytes) : Prop :=
  2 ≤ rest.length ∧
    (IsKeyType (le16 rest 0) → sealedKeyHeaderSize + le16 rest 2 ≤ rest.length)

/-- The records of data that declare two keys end inside the data. -/
def RecordsInside (inData : Bytes) : Prop :=
  le16 inData 0 = 2 → sealedHeaderSize + 2 * sealedKeyHeaderSize ≤ inData.length →
    IsKeyType (le16 inData 2) →
      sealedHeaderSize + sealedKeyHeaderSize + le16 inData 4 ≤ inData.length ∧
        RecordInside (inData.drop (sealedHeaderSize + sealedKeyHeaderSize + le16 inData 4))

section Records

variable {rest key tail : Bytes} {found found' : Found} {keyType : Nat}

theorem enc16_le16 (h : 2 ≤ rest.length) : rest = enc16 (le16 rest 0) ++ rest.drop 2 := by
  match rest, h with
  | a :: b :: rest, _ =>
    have ha := a.toNat_lt
    have hb := b.toNat_lt
    have h0 : UInt8.ofNat (a.toNat + 256 * b.toNat) = a := by
      rw [← UInt8.toNat_inj, UInt8.toNat_ofNat']
      omega
    have h1 : UInt8.ofNat ((a.toNat + 256 * b.toNat) / 256) = b := by
      rw [← UInt8.toNat_inj, UInt8.toNat_ofNat']
      omega
    simp [enc16, le16, byteAt, h0, h1]

theorem le16_append_at {a b : Bytes} {i : Nat} (h : a.length = i) :
    le16 (a ++ b) i = le16 b 0 := by
  rw [le16_append_right (Nat.le_of_eq h), h, Nat.sub_self]

theorem serializeKey_append (keyType : Nat) (key tail : Bytes) :
    serializeKey keyType key ++ tail = enc16 keyType ++ (enc16 key.length ++ (key ++ tail)) := by
  simp [serializeKey]

theorem le16_type (h : keyType < 2 ^ 16) :
    le16 (serializeKey keyType key ++ tail) 0 = keyType := by
  rw [serializeKey_append, le16_append_left (Nat.le_refl 2), le16_enc16, u16_of_lt h]

theorem le16_size (h : key.length < 2 ^ 16) :
    le16 (serializeKey keyType key ++ tail) 2 = key.length := by
  have h2 : (enc16 keyType).length = 2 := rfl
  rw [serializeKey_append, le16_append_at h2, le16_append_left (Nat.le_refl 2), le16_enc16,
    u16_of_lt h]

theorem drop_header :
    (serializeKey keyType key ++ tail).drop sealedKeyHeaderSize = key ++ tail := by
  rw [serializeKey_append]
  rfl

theorem isKeyType_lt (h : IsKeyType keyType) : keyType < 2 ^ 16 := by
  rcases h with rfl | rfl <;> decide

theorem demand_true {p : Prop} [Decidable p] (h : p) : (demand p : Out Unit Unit) = .ok () :=
  if_pos h

theorem demand_false {p : Prop} [Decidable p] (h : ¬ p) : (demand p : Out Unit Unit) = .stuck :=
  if_neg h

/-- A record of a key that is inside the data is read. -/
theorem deserialize_inside (ht : IsKeyType (le16 rest 0))
    (h : sealedKeyHeaderSize + le16 rest 2 ≤ rest.length) :
    deserializeKey rest found = .ok ((rest.drop sealedKeyHeaderSize).drop (le16 rest 2),
      found.put (le16 rest 0) ((rest.drop sealedKeyHeaderSize).take (le16 rest 2))) := by
  have h4 : sealedKeyHeaderSize ≤ rest.length := Nat.le_trans (Nat.le_add_right _ _) h
  have h2 : 2 ≤ rest.length := Nat.le_trans (by decide) h4
  unfold deserializeKey
  dsimp only
  rw [demand_true h2, Out.ok_bind, if_pos ht, demand_true h4, Out.ok_bind, demand_true h]
  rfl

theorem deserialize_other (h : 2 ≤ rest.length) (ht : ¬ IsKeyType (le16 rest 0)) :
    deserializeKey rest found = .err () := by
  unfold deserializeKey
  dsimp only
  rw [demand_true h, Out.ok_bind, if_neg ht]

theorem deserialize_stuck (h : ¬ RecordInside rest) : deserializeKey rest found = .stuck := by
  unfold deserializeKey
  dsimp only
  by_cases h2 : 2 ≤ rest.length
  · have ht : IsKeyType (le16 rest 0) ∧ ¬ sealedKeyHeaderSize + le16 rest 2 ≤ rest.length := by
      refine ⟨?_, fun hle => h ⟨h2, fun _ => hle⟩⟩
      by_contra ht
      exact h ⟨h2, fun ht' => absurd ht' ht⟩
    rw [demand_true h2, Out.ok_bind, if_pos ht.1]
    by_cases h4 : sealedKeyHeaderSize ≤ rest.length
    · rw [demand_true h4, Out.ok_bind, demand_false ht.2]
      rfl
    · rw [demand_false h4]
      rfl
  · rw [demand_false h2]
    rfl

/-- A record that was written is read back. -/
theorem deserialize_serialize (ht : IsKeyType keyType) (hk : key.length < 2 ^ 16) :
    deserializeKey (serializeKey keyType key ++ tail) found =
      .ok (tail, found.put keyType key) := by
  have htype := @le16_type key tail keyType (isKeyType_lt ht)
  have hsize := @le16_size key tail keyType hk
  have hlen : (serializeKey keyType key ++ tail).length = 4 + key.length + tail.length := by
    rw [serializeKey_append]
    simp only [List.length_append, enc16, List.length_cons, List.length_nil]
    omega
  rw [deserialize_inside (by rwa [htype]) (by rw [hsize, hlen]; exact Nat.le_add_right _ _), hsize,
    htype, drop_header, List.drop_left, List.take_left]

/-- What is read is a record. -/
theorem of_deserialize {left : Bytes} (h : deserializeKey rest found = .ok (left, found')) :
    ∃ keyType key, IsKeyType keyType ∧ key.length < 2 ^ 16 ∧
      rest = serializeKey keyType key ++ left ∧ found' = found.put keyType key := by
  by_cases hin : RecordInside rest
  · by_cases ht : IsKeyType (le16 rest 0)
    · have hle := hin.2 ht
      rw [deserialize_inside ht hle] at h
      cases h
      have h4 : sealedKeyHeaderSize ≤ rest.length := Nat.le_trans (Nat.le_add_right _ _) hle
      have hlen : ((rest.drop sealedKeyHeaderSize).take (le16 rest 2)).length = le16 rest 2 := by
        rw [List.length_take, List.length_drop]
        omega
      refine ⟨_, _, ht, by rw [hlen]; exact le16_lt rest 2, ?_, rfl⟩
      have hfirst := enc16_le16 hin.1
      have hsecond : rest.drop 2 = enc16 (le16 rest 2) ++ rest.drop sealedKeyHeaderSize := by
        have hroom : 2 ≤ (rest.drop 2).length := by
          rw [List.length_drop]
          exact Nat.le_sub_of_add_le h4
        have h2 := @enc16_le16 (rest.drop 2) hroom
        have hsize : le16 (rest.drop 2) 0 = le16 rest 2 :=
          le16_congr fun k _ => by rw [byteAt_drop, Nat.zero_add]
        rw [List.drop_drop, hsize] at h2
        exact h2
      rw [serializeKey_append, hlen, List.take_append_drop, ← hsecond]
      exact hfirst
    · rw [deserialize_other hin.1 ht] at h
      cases h
  · rw [deserialize_stuck hin] at h
    cases h

theorem deserialize_ne_stuck : deserializeKey rest found ≠ .stuck ↔ RecordInside rest := by
  constructor
  · intro h
    by_contra hin
    exact h (deserialize_stuck hin)
  · intro hin h
    by_cases ht : IsKeyType (le16 rest 0)
    · rw [deserialize_inside ht (hin.2 ht)] at h
      cases h
    · rw [deserialize_other hin.1 ht] at h
      cases h

end Records

/-! ## Bundles -/

section Bundles

variable {inData bootkey rootkey b r : Bytes}

/-- The data declare two keys and have room for two headers. -/
def Opens (inData : Bytes) : Prop :=
  le16 inData 0 = 2 ∧ sealedHeaderSize + 2 * sealedKeyHeaderSize ≤ inData.length

theorem splitKeys_opens (h : Opens inData) : splitKeys inData = (do
    let (rest, found) ← deserializeKey (inData.drop sealedHeaderSize) ⟨none, none⟩
    let (_, found) ← deserializeKey rest found
    bothKeys found) := by
  have hlen : ¬ inData.length < sealedHeaderSize := by
    have := h.2
    simp only [sealedHeaderSize, sealedKeyHeaderSize] at this ⊢
    omega
  have hopen : ¬ (le16 inData 0 ≠ 2 ∨
      inData.length < sealedHeaderSize + 2 * sealedKeyHeaderSize) := by
    rintro (hc | hl)
    · exact hc h.1
    · exact Nat.not_lt.mpr h.2 hl
  unfold splitKeys
  rw [if_neg hlen, if_neg hopen]

theorem splitKeys_closed (h : ¬ Opens inData) : splitKeys inData = .err () := by
  have hopen : le16 inData 0 ≠ 2 ∨
      inData.length < sealedHeaderSize + 2 * sealedKeyHeaderSize := by
    by_contra hc
    simp only [not_or, not_not, Nat.not_lt] at hc
    exact h hc
  unfold splitKeys
  rw [if_pos hopen, ite_self]

theorem bothKeys_ok {found : Found} :
    bothKeys found = .ok (b, r) ↔ found = ⟨some b, some r⟩ := by
  obtain ⟨bootkey, rootkey⟩ := found
  cases bootkey <;> cases rootkey <;> simp [bothKeys]

theorem bothKeys_ne_stuck (found : Found) : bothKeys found ≠ .stuck := by
  obtain ⟨bootkey, rootkey⟩ := found
  cases bootkey <;> cases rootkey <;> simp [bothKeys]

/-- Two keys fill both places only if they are of both types. -/
theorem put_both {t₁ t₂ : Nat} {k₁ k₂ : Bytes} (h₁ : IsKeyType t₁) (h₂ : IsKeyType t₂)
    (h : ((⟨none, none⟩ : Found).put t₁ k₁).put t₂ k₂ = ⟨some b, some r⟩) :
    (t₁ = bootkeyType ∧ k₁ = b ∧ t₂ = rootkeyType ∧ k₂ = r) ∨
      (t₁ = rootkeyType ∧ k₁ = r ∧ t₂ = bootkeyType ∧ k₂ = b) := by
  rcases h₁ with rfl | rfl <;> rcases h₂ with rfl | rfl <;>
    simp [Found.put, bootkeyType, rootkeyType] at h ⊢ <;> tauto

theorem bundles_opens (h : Bundles inData b r) : Opens inData := by
  obtain ⟨-, -, tail, rfl | rfl⟩ := h <;>
  · refine ⟨?_, ?_⟩
    · rw [le16_append_left (Nat.le_refl 2), le16_enc16, u16_of_lt (by decide)]
    · simp only [serializeKey_append, List.length_append, enc16, List.length_cons, List.length_nil,
        sealedHeaderSize, sealedKeyHeaderSize]
      omega

/-- The data are taken apart into two keys exactly if they are a bundle of them. -/
theorem splitKeys_ok : splitKeys inData = .ok (b, r) ↔ Bundles inData b r := by
  constructor
  · intro h
    by_cases ho : Opens inData
    · rw [splitKeys_opens ho] at h
      obtain ⟨⟨rest, found⟩, h1, h⟩ := Out.bind_eq_ok.mp h
      obtain ⟨⟨left, found'⟩, h2, h⟩ := Out.bind_eq_ok.mp h
      obtain ⟨t₁, k₁, ht₁, hk₁, hd, rfl⟩ := of_deserialize h1
      obtain ⟨t₂, k₂, ht₂, hk₂, rfl, rfl⟩ := of_deserialize h2
      have hhead := @enc16_le16 inData (Nat.le_trans (by decide) ho.2)
      rw [ho.1] at hhead
      change inData.drop 2 = _ at hd
      rw [hd] at hhead
      rcases put_both ht₁ ht₂ (bothKeys_ok.mp h) with ⟨rfl, rfl, rfl, rfl⟩ | ⟨rfl, rfl, rfl, rfl⟩
      · exact ⟨hk₁, hk₂, left, .inl hhead⟩
      · exact ⟨hk₂, hk₁, left, .inr hhead⟩
    · rw [splitKeys_closed ho] at h
      cases h
  · intro h
    rw [splitKeys_opens (bundles_opens h)]
    have hdrop : ∀ rest : Bytes, (enc16 2 ++ rest).drop sealedHeaderSize = rest := fun _ => rfl
    obtain ⟨hb, hr, tail, rfl | rfl⟩ := h
    · rw [hdrop, deserialize_serialize (.inl rfl) hb, Out.ok_bind]
      dsimp only
      rw [deserialize_serialize (.inr rfl) hr]
      rfl
    · rw [hdrop, deserialize_serialize (.inr rfl) hr, Out.ok_bind]
      dsimp only
      rw [deserialize_serialize (.inl rfl) hb]
      rfl

theorem split_combine (hb : bootkey.length < 2 ^ 16) (hr : rootkey.length < 2 ^ 16) :
    splitKeys (combineKeys bootkey rootkey) = .ok (bootkey, rootkey) :=
  splitKeys_ok.mpr ⟨hb, hr, [], .inl (by simp [combineKeys])⟩

theorem second_ne_stuck (rest : Bytes) (found : Found) :
    (do
      let (_, found) ← deserializeKey rest found
      bothKeys found) ≠ .stuck ↔ RecordInside rest := by
  rw [← @deserialize_ne_stuck rest found]
  cases deserializeKey rest found with
  | ok x => exact iff_of_true (bothKeys_ne_stuck x.2) (fun h => by cases h)
  | err e => exact iff_of_true (fun h => by cases h) (fun h => by cases h)
  | stuck => exact iff_of_false (fun h => h rfl) (fun h => h rfl)

theorem drop_drop_record (inData : Bytes) (n : Nat) :
    ((inData.drop sealedHeaderSize).drop sealedKeyHeaderSize).drop n =
      inData.drop (sealedHeaderSize + sealedKeyHeaderSize + n) := by
  rw [List.drop_drop, List.drop_drop, Nat.add_assoc]

/-- The data are read inside their bounds exactly if the records are. -/
theorem splitKeys_inside : splitKeys inData ≠ .stuck ↔ RecordsInside inData := by
  by_cases ho : Opens inData
  · have htype : le16 (inData.drop sealedHeaderSize) 0 = le16 inData 2 :=
      le16_congr fun k _ => by rw [byteAt_drop, Nat.zero_add]; rfl
    have hsize : le16 (inData.drop sealedHeaderSize) 2 = le16 inData 4 :=
      le16_congr fun k _ => by rw [byteAt_drop, ← Nat.add_assoc]; rfl
    have hlen : (inData.drop sealedHeaderSize).length = inData.length - sealedHeaderSize :=
      List.length_drop
    have h2 : 2 ≤ (inData.drop sealedHeaderSize).length := by
      have := ho.2
      simp only [sealedHeaderSize, sealedKeyHeaderSize] at this hlen ⊢
      omega
    have hroom : sealedKeyHeaderSize + le16 inData 4 ≤ (inData.drop sealedHeaderSize).length ↔
        sealedHeaderSize + sealedKeyHeaderSize + le16 inData 4 ≤ inData.length := by
      have := ho.2
      simp only [sealedHeaderSize, sealedKeyHeaderSize] at this hlen ⊢
      omega
    rw [splitKeys_opens ho, RecordsInside]
    simp only [ho.1, ho.2, forall_const]
    by_cases ht : IsKeyType (le16 inData 2)
    · by_cases hin : sealedHeaderSize + sealedKeyHeaderSize + le16 inData 4 ≤ inData.length
      · rw [deserialize_inside (by rwa [htype]) (by rw [hsize]; exact hroom.mpr hin), Out.ok_bind]
        dsimp only
        rw [second_ne_stuck, hsize, drop_drop_record]
        simp only [ht, hin, forall_const, true_and]
      · rw [deserialize_stuck, Out.stuck_bind]
        · simp [ht, hin]
        · rintro ⟨-, h⟩
          rw [htype, hsize] at h
          exact hin (hroom.mp (h ht))
    · rw [deserialize_other h2 (by rwa [htype])]
      simp [ht]
  · rw [splitKeys_closed ho]
    refine iff_of_true (fun h => by cases h) fun h1 h2 => absurd ⟨h1, h2⟩ ho

end Bundles

/-- The keys are handled right if and only if the records that the data are said to have end inside
them. -/
theorem keys_right_iff (bootkey rootkey inData : Bytes) (hb : bootkey.length < 2 ^ 16)
    (hr : rootkey.length < 2 ^ 16) :
    KeysRight bootkey rootkey inData ↔ RecordsInside inData := by
  constructor
  · intro h
    exact splitKeys_inside.mp h.inside
  · intro h
    exact ⟨split_combine hb hr, splitKeys_inside.mpr h, fun _ _ => splitKeys_ok⟩

theorem one_byte_keys_right : KeysRight [1] [2] (combineKeys [1] [2]) :=
  (keys_right_iff [1] [2] (combineKeys [1] [2]) (by decide) (by decide)).mpr
    fun _ _ _ => ⟨by decide, by decide, fun _ => by decide⟩

/-- Two keys are declared, and the first is said to have 65535 bytes. -/
def overlong : Bytes := [2, 0, 1, 0, 255, 255, 0, 0, 0, 0]

theorem overlong_not_right : ¬ KeysRight [1] [2] overlong := by
  intro h
  exact h.inside (by decide +kernel)

end LsvmTools.Keys
