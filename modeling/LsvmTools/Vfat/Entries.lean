import LsvmTools.Vfat.Volume

/-! # Entries of the table

An entry that is set reads back, and the others keep their values, although the 12-bit ones
share bytes. -/
namespace LsvmTools.Vfat.Entries
open Lib.ByteString Lib.Program Volume

/-- The place of an entry, not reduced to 32 bits. -/
def place (ty : FATType) (clustno : Nat) : Nat :=
  match ty with
  | .fat12 => clustno + clustno / 2
  | .fat16 => clustno * 2
  | .fat32 => clustno * 4

/-- The entry lies inside the table. -/
def Inside (ty : FATType) (data : Bytes) (clustno : Nat) : Prop :=
  place ty clustno + width ty ≤ data.length

instance (ty : FATType) (data : Bytes) (clustno : Nat) : Decidable (Inside ty data clustno) :=
  inferInstanceAs (Decidable (_ ≤ _))

/-- The number of values of an entry. -/
@[irreducible] def entryMod (ty : FATType) : Nat :=
  match ty with
  | .fat12 => 2 ^ 12
  | .fat16 => 2 ^ 16
  | .fat32 => 2 ^ 28

variable {ty : FATType} {data : Bytes} {i j off v x : Nat}

theorem fatOffset_eq (h : place ty i < 2 ^ 32) : fatOffset ty i = place ty i := by
  cases ty <;> exact u32_of_lt h

theorem Inside.offset (h : Inside ty data i) (hl : data.length < 2 ^ 32) :
    fatOffset ty i = place ty i := by
  unfold Inside at h
  exact fatOffset_eq (by omega)

theorem Inside.of_le (h : Inside ty data j) (hij : i ≤ j) : Inside ty data i := by
  unfold Inside at h ⊢
  refine Nat.le_trans (Nat.add_le_add_right ?_ _) h
  cases ty <;> simp only [place] <;> omega

theorem Inside.congr {data' : Bytes} (h : Inside ty data i) (hl : data'.length = data.length) :
    Inside ty data' i := by
  unfold Inside at h ⊢
  rwa [hl]

theorem entryMod_pos (ty : FATType) : 0 < entryMod ty := by
  unfold entryMod
  cases ty <;> norm_num

/-- An end marker is found where an entry can hold it. -/
theorem eofMin_lt (ty : FATType) : eofMin ty < entryMod ty := by
  unfold eofMin entryMod
  cases ty <;> norm_num

/-! ## Words side by side -/

theorem byteAt_put16_low (h : off + 2 ≤ data.length) :
    (byteAt (put16 data off v) off).toNat = v % 256 := by
  rw [put16, byteAt_splice h, if_pos (by simp), Nat.sub_self]
  simp [enc16, byteAt]

theorem byteAt_put16_high (h : off + 2 ≤ data.length) :
    (byteAt (put16 data off v) (off + 1)).toNat = v / 256 % 256 := by
  rw [put16, byteAt_splice h, if_pos (by simp), Nat.add_sub_cancel_left]
  simp [enc16, byteAt]

theorem byteAt_put16_other (h : off + 2 ≤ data.length) (hi : i < off ∨ off + 2 ≤ i) :
    byteAt (put16 data off v) i = byteAt data i := by
  rw [put16, byteAt_splice h, if_neg (by rw [length_enc16]; omega)]

theorem le16_put16_same (h : off + 2 ≤ data.length) : le16 (put16 data off v) off = v % 2 ^ 16 := by
  rw [le16, byteAt_put16_low h, byteAt_put16_high h]
  omega

theorem le16_put16_next (h : off + 2 ≤ data.length) :
    le16 (put16 data off v) (off + 1) = v / 256 % 256 + 256 * (byteAt data (off + 2)).toNat := by
  rw [le16, byteAt_put16_high h, byteAt_put16_other h (by omega)]

theorem le16_put16_prev (h : off + 1 + 2 ≤ data.length) :
    le16 (put16 data (off + 1) v) off = (byteAt data off).toNat + 256 * (v % 256) := by
  rw [le16, byteAt_put16_low h, byteAt_put16_other h (by omega)]

theorem le16_put16_other (h : off + 2 ≤ data.length) (hi : i + 2 ≤ off ∨ off + 2 ≤ i) :
    le16 (put16 data off v) i = le16 data i :=
  le16_splice h hi

/-! ## One entry -/

theorem entryAt_putEntry (h : Inside ty data i) (hl : data.length < 2 ^ 32) :
    entryAt ty (putEntry ty data i x) i = x % entryMod ty := by
  have ho := h.offset hl
  unfold Inside at h
  cases ty with
  | fat12 =>
    unfold entryAt putEntry entryMod
    dsimp only
    rw [ho]
    by_cases hodd : i % 2 = 1
    · rw [if_pos hodd, if_pos hodd, le16_put16_same h]
      omega
    · rw [if_neg hodd, if_neg hodd, le16_put16_same h]
      omega
  | fat16 =>
    unfold entryAt putEntry entryMod
    rw [ho]
    exact le16_put16_same h
  | fat32 =>
    have hr := le32_lt data (place .fat32 i)
    unfold entryAt putEntry entryMod
    dsimp only
    rw [ho, le32_put32 h, u32_of_lt (by omega)]
    omega

/-- An entry is no neighbour's. -/
theorem entryAt_putEntry_other (hi : Inside ty data i) (hj : Inside ty data j)
    (hl : data.length < 2 ^ 32) (hne : j ≠ i) :
    entryAt ty (putEntry ty data i x) j = entryAt ty data j := by
  have hoi := hi.offset hl
  have hoj := hj.offset hl
  unfold Inside at hi hj
  cases ty with
  | fat12 =>
    unfold entryAt putEntry
    dsimp only
    rw [hoi, hoj]
    simp only [place, width] at hi hj ⊢
    by_cases hodd : i % 2 = 1
    · rw [if_pos hodd]
      by_cases hprev : j + 1 = i
      · -- the low entry of the pair: its upper half byte is kept
        have hoff : i + i / 2 = j + j / 2 + 1 := by omega
        have hb := (byteAt data (j + j / 2)).toNat_lt
        have hv := le16_lt data (j + j / 2 + 1)
        have hlow : le16 data (j + j / 2) =
            (byteAt data (j + j / 2)).toNat + 256 * (byteAt data (j + j / 2 + 1)).toNat := rfl
        have hhigh : le16 data (j + j / 2 + 1) =
            (byteAt data (j + j / 2 + 1)).toNat + 256 * (byteAt data (j + j / 2 + 2)).toNat := rfl
        rw [if_neg (by omega), if_neg (by omega), hoff, le16_put16_prev (by omega)]
        omega
      · rw [le16_put16_other (by omega) (by omega)]
    · rw [if_neg hodd]
      by_cases hnext : j = i + 1
      · -- the high entry of the pair: its lower half byte is kept
        have hoff : j + j / 2 = i + i / 2 + 1 := by omega
        have hv := le16_lt data (i + i / 2)
        have hlow : le16 data (i + i / 2) =
            (byteAt data (i + i / 2)).toNat + 256 * (byteAt data (i + i / 2 + 1)).toNat := rfl
        have hb := (byteAt data (i + i / 2)).toNat_lt
        have hb1 := (byteAt data (i + i / 2 + 1)).toNat_lt
        have hhigh : le16 data (i + i / 2 + 1) =
            (byteAt data (i + i / 2 + 1)).toNat + 256 * (byteAt data (i + i / 2 + 2)).toNat := rfl
        rw [if_pos (by omega), if_pos (by omega), hoff, le16_put16_next (by omega)]
        omega
      · rw [le16_put16_other (by omega) (by omega)]
  | fat16 =>
    unfold entryAt putEntry
    rw [hoi, hoj]
    simp only [place, width] at hi hj ⊢
    exact le16_put16_other hi (by omega)
  | fat32 =>
    unfold entryAt putEntry
    dsimp only
    rw [hoi, hoj]
    simp only [place, width] at hi hj ⊢
    exact congrArg (· % 2 ^ 28) (le32_splice hi (by rw [length_enc32]; omega))

/-- The bits of a 32-bit entry that do not belong to the number. -/
def reserved (vfat : VFAT) (i : Nat) : Nat := le32 vfat.fat.data (place .fat32 i) / 2 ^ 28

theorem reserved_putEntry (h : Inside .fat32 data i) (hl : data.length < 2 ^ 32) :
    le32 (putEntry .fat32 data i x) (place .fat32 i) / 2 ^ 28 =
      le32 data (place .fat32 i) / 2 ^ 28 := by
  have ho := h.offset hl
  have hr := le32_lt data (place .fat32 i)
  unfold Inside at h
  unfold putEntry
  dsimp only
  rw [ho, le32_put32 h, u32_of_lt (by omega)]
  omega

section Volume

variable {vfat : VFAT}

theorem getFATEntry_inside (h : Inside vfat.fatType vfat.fat.data i) :
    getFATEntry vfat i = .ok (entryAt vfat.fatType vfat.fat.data i) := by
  rw [getFATEntry, h.offset vfat.fat.size_lt]
  exact if_pos h

/-- The table after one entry is set. -/
theorem setFATEntry_ok (hin : Inside vfat.fatType vfat.fat.data i) (x : Nat) :
    ∃ fat : Fat, setFATEntry vfat i x = .ok { vfat with fat := fat } ∧
      fat.data = putEntry vfat.fatType vfat.fat.data i x := by
  have ho : fatOffset vfat.fatType i + width vfat.fatType ≤ vfat.fat.data.length := by
    rw [hin.offset vfat.fat.size_lt]
    exact hin
  unfold setFATEntry
  rw [dif_pos ho]
  exact ⟨_, rfl, rfl⟩

/-- Entries of a volume are set one by one. -/
theorem setFATEntry_independent (hi : Inside vfat.fatType vfat.fat.data i)
    (hx : x < entryMod vfat.fatType) : ∃ vfat', setFATEntry vfat i x = .ok vfat' ∧
      getFATEntry vfat' i = .ok x ∧
      (∀ j, Inside vfat.fatType vfat.fat.data j → j ≠ i →
        ∃ y, getFATEntry vfat j = .ok y ∧ getFATEntry vfat' j = .ok y) ∧
      (vfat.fatType = .fat32 → reserved vfat' i = reserved vfat i) := by
  have hl := vfat.fat.size_lt
  obtain ⟨fat, hset, hdata⟩ := setFATEntry_ok hi x
  have hlen : fat.data.length = vfat.fat.data.length := by
    rw [hdata, length_putEntry]
    rw [hi.offset hl]
    exact hi
  have hget : ∀ {j}, Inside vfat.fatType vfat.fat.data j →
      getFATEntry { vfat with fat := fat } j = .ok (entryAt vfat.fatType fat.data j) := by
    intro j hj
    refine getFATEntry_inside ?_
    exact hj.congr hlen
  refine ⟨_, hset, ?_, fun j hj hne => ⟨_, getFATEntry_inside hj, ?_⟩, fun hty => ?_⟩
  · rw [hget hi, hdata, entryAt_putEntry hi hl, Nat.mod_eq_of_lt hx]
  · rw [hget hj, hdata, entryAt_putEntry_other hi hj hl hne]
  · rw [hty] at hi hdata
    unfold reserved
    dsimp only
    rw [hdata, reserved_putEntry hi hl]

theorem setFATEntry_small12 : ∃ vfat', setFATEntry small12 3 0x123 = .ok vfat' ∧
    getFATEntry vfat' 3 = .ok 0x123 ∧
    (∀ j, Inside small12.fatType small12.fat.data j → j ≠ 3 →
      ∃ y, getFATEntry small12 j = .ok y ∧ getFATEntry vfat' j = .ok y) ∧
    (small12.fatType = .fat32 → reserved vfat' 3 = reserved small12 3) :=
  setFATEntry_independent (by decide +kernel) (by unfold entryMod; decide +kernel)

end Volume

end LsvmTools.Vfat.Entries
