import LsvmTools.Guid

/-! # The texts of a GUID

Two functions write the text of a GUID, one with dashes and small letters, one without and with
capital ones; `StrToGUID` reads both. `GUIDToStr` writes one byte behind its buffer. -/
namespace LsvmTools.GuidText
open Lib.ByteString Strings Guid

/-- A GUID whose fields have the widths of the struct. -/
structure GuidValue extends EfiGuid where
  data1_lt : data1 < 2 ^ 32
  data2_lt : data2 < 2 ^ 16
  data3_lt : data3 < 2 ^ 16
  data4_length : data4.length = 8

/-- `GUID_STR_SIZE`. -/
def guidStrSize : Nat := 16 * 2 + 1

/-- `GUID_STRING_SIZE`. -/
def guidStringSize : Nat := 36 + 1

/-! ## Without dashes -/

/-- `ByteSwapU32`. -/
def byteSwapU32 (x : Nat) : Nat :=
  (x &&& 0x000000FF) <<< 24 ||| (x &&& 0x0000FF00) <<< 8 ||| (x &&& 0x00FF0000) >>> 8 |||
    (x &&& 0xFF000000) >>> 24

/-- `ByteSwapU16`. -/
def byteSwapU16 (x : Nat) : Nat := (x &&& 0x00FF) <<< 8 ||| (x &&& 0xFF00) >>> 8

/-- `_HexNibbleToChar`. -/
def hexNibbleToChar (x : UInt8) : UInt8 :=
  if x ≤ 9 then 48 + x else if 10 ≤ x ∧ x ≤ 15 then 65 + (x - 10) else 255

/-- `_HexByteToStr`. -/
def hexByteToStr (x : UInt8) : Bytes :=
  [hexNibbleToChar ((x &&& 0xF0) >>> 4), hexNibbleToChar (0x0F &&& x)]

/-- `TPM2X_BinaryToHexStr`: the memory behind it. -/
def binaryToHexStr (binary : Bytes) (hexstr : Nat) (m : Nat → UInt8) : Nat → UInt8 :=
  let (m, j) := binary.foldl
    (fun (m, j) x => (writeMem m (hexstr + j) (hexByteToStr x), j + 2)) (m, 0)
  writeMem m (hexstr + j) [0]

/-- `GUIDToStr`. -/
def guidToStr (guid : EfiGuid) (str : Nat) (m : Nat → UInt8) : Nat → UInt8 :=
  let tmp : EfiGuid := {
    data1 := byteSwapU32 guid.data1
    data2 := byteSwapU16 guid.data2
    data3 := byteSwapU16 guid.data3
    data4 := guid.data4 }
  let m := binaryToHexStr tmp.bytes str m
  writeMem m (str + guidStrSize) [0]

/-! ## With dashes -/

/-- `_hexchar`. -/
def hexchar : Bytes := text "0123456789ABCDEF"

def tolower (c : UInt8) : UInt8 := if 65 ≤ c ∧ c ≤ 90 then c + 32 else c

def isxdigit (c : UInt8) : Bool :=
  (48 ≤ c && c ≤ 57) || (65 ≤ c && c ≤ 70) || (97 ≤ c && c ≤ 102)

/-- What `FormatGUID` puts into its buffer next. -/
inductive Item
  | hex (x : Nat)
  | dash

/-- `FormatHexByte`, which ends what it writes, and `buf[n++] = '-'`. -/
def putItem (buf : Nat) (s : (Nat → UInt8) × Nat) : Item → (Nat → UInt8) × Nat
  | .hex x =>
    (writeMem s.1 (buf + s.2)
      [byteAt hexchar ((0xF0 &&& x) >>> 4), byteAt hexchar (0x0F &&& x), 0], s.2 + 2)
  | .dash => (writeMem s.1 (buf + s.2) [45], s.2 + 1)

def guidItems (guid : EfiGuid) : List Item :=
  let data4 := fun m => Item.hex (byteAt guid.data4 m).toNat
  [.hex ((guid.data1 &&& 0xFF000000) >>> 24), .hex ((guid.data1 &&& 0x00FF0000) >>> 16),
    .hex ((guid.data1 &&& 0x0000FF00) >>> 8), .hex (guid.data1 &&& 0x000000FF), .dash,
    .hex ((guid.data2 &&& 0xFF00) >>> 8), .hex (guid.data2 &&& 0x00FF), .dash,
    .hex ((guid.data3 &&& 0xFF00) >>> 8), .hex (guid.data3 &&& 0x00FF), .dash,
    data4 0, data4 1, .dash, data4 2, data4 3, data4 4, data4 5, data4 6, data4 7]

/-- `FormatGUID`. -/
def formatGUID (guid : EfiGuid) (buf : Nat) (m : Nat → UInt8) : Nat → UInt8 :=
  let (m, n) := (guidItems guid).foldl (putItem buf) (m, 0)
  let m := writeMem m (buf + n) [0]
  writeMem m buf ((readMem m buf (n + 1)).map tolower)

/-- What `ValidGUIDStr` asks of the character at `i`. -/
def validGUIDChar (i : Nat) (c : UInt8) : Bool :=
  if i = 8 ∨ i = 13 ∨ i = 18 ∨ i = 23 then c = 45 else c = tolower c && isxdigit c

/-- `ValidGUIDStr`. -/
def validGUIDStr (str : Bytes) : Bool :=
  str.length = guidStringSize - 1 &&
    (List.range (guidStringSize - 1)).all fun i => validGUIDChar i (byteAt str i)

/-! ## Digits -/

/-- The sixteen bytes in the order of the text. -/
def octets (guid : EfiGuid) : Bytes :=
  [UInt8.ofNat (guid.data1 / 2 ^ 24), UInt8.ofNat (guid.data1 / 2 ^ 16),
    UInt8.ofNat (guid.data1 / 2 ^ 8), UInt8.ofNat guid.data1, UInt8.ofNat (guid.data2 / 2 ^ 8),
    UInt8.ofNat guid.data2, UInt8.ofNat (guid.data3 / 2 ^ 8), UInt8.ofNat guid.data3] ++ guid.data4

section Digits

variable {c x : UInt8} {s : Bytes}

/-- What holds of all bytes that there are. -/
theorem forall_byte {p : UInt8 → Prop} (h : ∀ n < 256, p (UInt8.ofNat n)) (x : UInt8) : p x := by
  have hx := h x.toNat x.toNat_lt
  rwa [UInt8.ofNat_toNat] at hx

/-- What `_HexByteToStr` writes for a byte, and how a character is read. -/
def ByteFacts (x : UInt8) : Prop :=
  (charToHex (hexNibbleToChar ((x &&& 0xF0) >>> 4)) = some ((x &&& 0xF0) >>> 4) ∧
    charToHex (hexNibbleToChar (0x0F &&& x)) = some (0x0F &&& x) ∧
      ((x &&& 0xF0) >>> 4 <<< 4 ||| 0x0F &&& x) = x) ∧
  (charToHex (tolower x) = charToHex x ∧ (charToHex x).isSome = isxdigit x) ∧
  ((x &&& 0xF0) >>> 4 < 16 ∧ 0x0F &&& x < 16) ∧
  (x < 16 → isxdigit (hexNibbleToChar x) = true ∧ isxdigit (tolower (hexNibbleToChar x)) = true ∧
    tolower (hexNibbleToChar x) = tolower (tolower (hexNibbleToChar x)))

instance (x : UInt8) : Decidable (ByteFacts x) :=
  inferInstanceAs (Decidable ((_ ∧ _ ∧ _) ∧ (_ ∧ _) ∧ (_ ∧ _) ∧ (_ → _)))

theorem byteFacts : ∀ x, ByteFacts x := forall_byte (by decide +kernel)

theorem hexByte_read (x : UInt8) : ∃ a b,
    charToHex (hexNibbleToChar ((x &&& 0xF0) >>> 4)) = some a ∧
      charToHex (hexNibbleToChar (0x0F &&& x)) = some b ∧ (a <<< 4 ||| b) = x :=
  ⟨_, _, (byteFacts x).1⟩

/-- What is written is read. -/
theorem hexStrToBinary_text (binary : Bytes) :
    hexStrToBinary (binary.flatMap hexByteToStr) = some binary := by
  induction binary with
  | nil => rfl
  | cons x binary ih =>
    obtain ⟨a, b, ha, hb, hx⟩ := hexByte_read x
    have hcons : (x :: binary).flatMap hexByteToStr =
        hexNibbleToChar ((x &&& 0xF0) >>> 4) :: hexNibbleToChar (0x0F &&& x) ::
          binary.flatMap hexByteToStr := rfl
    rw [hcons, hexStrToBinary, ha, hb, ih]
    exact congrArg (fun y => some (y :: binary)) hx

/-- Small and capital letters are read in the same way. -/
theorem charToHex_tolower (c : UInt8) : charToHex (tolower c) = charToHex c := (byteFacts c).2.1.1

theorem hexStrToBinary_map : hexStrToBinary (s.map tolower) = hexStrToBinary s := by
  fun_induction hexStrToBinary s with
  | case1 => rfl
  | case2 x => rfl
  | case3 x y str ih =>
    rw [List.map_cons, List.map_cons, hexStrToBinary, charToHex_tolower, charToHex_tolower, ih]

theorem charToHex_isSome (c : UInt8) : (charToHex c).isSome = isxdigit c := (byteFacts c).2.1.2

/-- An even number of digits is read. -/
theorem hexStrToBinary_isSome :
    (hexStrToBinary s).isSome ↔ s.length % 2 = 0 ∧ ∀ c ∈ s, isxdigit c = true := by
  fun_induction hexStrToBinary s with
  | case1 => simp
  | case2 x => simp
  | case3 x y str ih =>
    have hlength : (x :: y :: str).length % 2 = str.length % 2 := by
      rw [List.length_cons, List.length_cons]
      omega
    rw [hlength, List.forall_mem_cons, List.forall_mem_cons, ← charToHex_isSome x,
      ← charToHex_isSome y]
    cases charToHex x with
    | none => simp
    | some hi =>
      cases charToHex y with
      | none => simp
      | some lo =>
        cases hrest : hexStrToBinary str with
        | none =>
          rw [hrest] at ih
          simpa using ih
        | some rest =>
          rw [hrest] at ih
          simpa using ih

end Digits

/-! ## What is written -/

section Writing

variable {m : Nat → UInt8} {n k : Nat} {a b z : Bytes}

/-- What has been written last counts. -/
theorem writeMem_again (h : z.length ≤ b.length) :
    writeMem (writeMem m n (a ++ z)) (n + a.length) b = writeMem m n (a ++ b) := by
  funext x
  simp only [writeMem, byteAt_append, List.length_append]
  by_cases h1 : n + a.length ≤ x ∧ x < n + a.length + b.length
  · rw [if_pos h1, if_pos (by omega), if_neg (by omega)]
    congr 1
    omega
  · rw [if_neg h1]
    by_cases h2 : n ≤ x ∧ x < n + a.length
    · rw [if_pos (by omega), if_pos (by omega), if_pos (by omega), if_pos (by omega)]
    · rw [if_neg (by omega), if_neg (by omega)]

theorem foldl_hexByteToStr (binary : Bytes) :
    binary.foldl (fun (s : (Nat → UInt8) × Nat) x =>
      (writeMem s.1 (k + s.2) (hexByteToStr x), s.2 + 2)) (writeMem m k a, a.length) =
        (writeMem m k (a ++ binary.flatMap hexByteToStr),
          (a ++ binary.flatMap hexByteToStr).length) := by
  induction binary generalizing a with
  | nil => rw [List.flatMap_nil, List.append_nil]; rfl
  | cons x binary ih =>
    have hlength : (a ++ hexByteToStr x).length = a.length + 2 := List.length_append
    rw [List.foldl_cons, writeMem_append, ← hlength, ih, List.flatMap_cons, List.append_assoc]

theorem binaryToHexStr_eq (binary : Bytes) :
    binaryToHexStr binary k m = writeMem m k (binary.flatMap hexByteToStr ++ [0]) := by
  have hrun := foldl_hexByteToStr (m := m) (k := k) (a := []) binary
  rw [writeMem_nil] at hrun
  unfold binaryToHexStr
  rw [show ([] : Bytes).length = 0 from rfl] at hrun
  rw [hrun, List.nil_append]
  exact writeMem_append m k _ _

/-- The characters of an item. -/
def itemText : Item → Bytes
  | .hex x => [byteAt hexchar ((0xF0 &&& x) >>> 4), byteAt hexchar (0x0F &&& x)]
  | .dash => [45]

/-- The terminator behind a pair of digits is written over. -/
theorem foldl_putItem (items : List Item) (hz : z.length ≤ 1) : ∃ z', z'.length ≤ 1 ∧
    items.foldl (putItem k) (writeMem m k (a ++ z), a.length) =
      (writeMem m k (a ++ items.flatMap itemText ++ z'),
        (a ++ items.flatMap itemText).length) := by
  induction items generalizing a z with
  | nil => exact ⟨z, hz, by rw [List.flatMap_nil, List.append_nil]; rfl⟩
  | cons item items ih =>
    rw [List.foldl_cons, List.flatMap_cons, ← List.append_assoc]
    cases item with
    | hex x =>
      have hput : putItem k (writeMem m k (a ++ z), a.length) (.hex x) =
          (writeMem m k (a ++ itemText (.hex x) ++ [0]), (a ++ itemText (.hex x)).length) := by
        rw [putItem, writeMem_again (by rw [List.length_cons]; omega), List.length_append,
          List.append_assoc]
        rfl
      rw [hput]
      exact ih (Nat.le_refl 1)
    | dash =>
      have hput : putItem k (writeMem m k (a ++ z), a.length) .dash =
          (writeMem m k (a ++ itemText .dash ++ []), (a ++ itemText .dash).length) := by
        rw [putItem, writeMem_again hz, List.length_append, List.append_nil]
        rfl
      rw [hput]
      exact ih (Nat.zero_le 1)

theorem formatGUID_eq (guid : EfiGuid) : formatGUID guid k m =
    writeMem m k (((guidItems guid).flatMap itemText).map tolower ++ [0]) := by
  obtain ⟨z, hz, hrun⟩ := foldl_putItem (m := m) (k := k) (a := []) (z := [])
    (guidItems guid) (Nat.zero_le 1)
  rw [List.append_nil, List.nil_append, writeMem_nil] at hrun
  unfold formatGUID
  rw [show ([] : Bytes).length = 0 from rfl] at hrun
  rw [hrun]
  dsimp only
  have hread : readMem (writeMem m k ((guidItems guid).flatMap itemText ++ [0])) k
      (((guidItems guid).flatMap itemText).length + 1) =
        (guidItems guid).flatMap itemText ++ [0] := by
    have h := readMem_writeMem m k ((guidItems guid).flatMap itemText ++ [0])
    rwa [List.length_append, List.length_singleton] at h
  rw [writeMem_again hz, hread, List.map_append]
  have hover := writeMem_again (m := m) (n := k) (a := [])
    (z := (guidItems guid).flatMap itemText ++ [0])
    (b := ((guidItems guid).flatMap itemText).map tolower ++ [0])
    (by rw [List.length_append, List.length_append, List.length_map])
  exact hover

end Writing

/-! ## The bytes of a GUID -/

section Octets

theorem and_mask (x k : Nat) : x &&& 255 <<< k = (x / 2 ^ k % 256) * 2 ^ k := by
  rw [← Nat.shiftRight_eq_div_pow, show (256 : Nat) = 2 ^ 8 from rfl,
    ← Nat.and_two_pow_sub_one_eq_mod, ← Nat.shiftLeft_eq, Nat.shiftLeft_and_distrib]
  refine Nat.eq_of_testBit_eq fun i => ?_
  simp only [Nat.testBit_and, Nat.testBit_shiftLeft, Nat.testBit_shiftRight]
  by_cases h : k ≤ i
  · simp [h]
  · simp [h]

theorem mask_shift (x k : Nat) : (x &&& 255 <<< k) >>> k = x / 2 ^ k % 256 := by
  rw [and_mask, Nat.shiftRight_eq_div_pow, Nat.mul_div_cancel _ (Nat.two_pow_pos k)]

theorem or_eq_add {a b k : Nat} (h : b < 2 ^ k) : a * 2 ^ k ||| b = a * 2 ^ k + b := by
  rw [Nat.mul_comm, ← Nat.two_pow_add_eq_or_of_lt h]

theorem byteSwapU16_eq (x : Nat) : byteSwapU16 x = x % 256 * 2 ^ 8 + x / 2 ^ 8 % 256 := by
  have h0 : x &&& 0x00FF = x % 256 := Nat.and_two_pow_sub_one_eq_mod x 8
  have h8 : (x &&& 0xFF00) >>> 8 = x / 2 ^ 8 % 256 := mask_shift x 8
  rw [byteSwapU16, h0, h8, Nat.shiftLeft_eq, or_eq_add (by omega)]

theorem byteSwapU32_eq (x : Nat) : byteSwapU32 x =
    x % 256 * 2 ^ 24 + (x / 2 ^ 8 % 256 * 2 ^ 16 + (x / 2 ^ 16 % 256 * 2 ^ 8 +
      x / 2 ^ 24 % 256)) := by
  have h0 : x &&& 0x000000FF = x % 256 := Nat.and_two_pow_sub_one_eq_mod x 8
  have h8 : x &&& 0x0000FF00 = x / 2 ^ 8 % 256 * 2 ^ 8 := and_mask x 8
  have h16 : x &&& 0x00FF0000 = x / 2 ^ 16 % 256 * 2 ^ 16 := and_mask x 16
  have h24 : (x &&& 0xFF000000) >>> 24 = x / 2 ^ 24 % 256 := mask_shift x 24
  have hup : (x / 2 ^ 8 % 256 * 2 ^ 8) <<< 8 = x / 2 ^ 8 % 256 * 2 ^ 16 := by
    rw [Nat.shiftLeft_eq]
    omega
  have hdown : (x / 2 ^ 16 % 256 * 2 ^ 16) >>> 8 = x / 2 ^ 16 % 256 * 2 ^ 8 := by
    rw [Nat.shiftRight_eq_div_pow]
    omega
  have h1 := Nat.mod_lt (x / 2 ^ 8) (show 0 < 256 by decide)
  have h2 := Nat.mod_lt (x / 2 ^ 16) (show 0 < 256 by decide)
  have h3 := Nat.mod_lt (x / 2 ^ 24) (show 0 < 256 by decide)
  rw [byteSwapU32, h0, h8, h16, h24, hup, hdown, Nat.shiftLeft_eq, Nat.lor_assoc, Nat.lor_assoc,
    or_eq_add (a := x / 2 ^ 16 % 256) (by omega), or_eq_add (a := x / 2 ^ 8 % 256) (by omega),
    or_eq_add (by omega)]

theorem ofNat_congr {a b : Nat} (h : a % 256 = b % 256) : UInt8.ofNat a = UInt8.ofNat b := by
  rw [← UInt8.toNat_inj, UInt8.toNat_ofNat', UInt8.toNat_ofNat']
  exact h

theorem enc16_bytes {a b : Nat} (hb : b < 256) :
    enc16 (a * 2 ^ 8 + b) = [UInt8.ofNat b, UInt8.ofNat a] := by
  rw [enc16, ofNat_congr (a := a * 2 ^ 8 + b) (b := b) (by omega),
    ofNat_congr (a := (a * 2 ^ 8 + b) / 256) (b := a) (by omega)]

theorem enc32_bytes {a b c d : Nat} (hb : b < 256) (hc : c < 256) (hd : d < 256) :
    enc32 (a * 2 ^ 24 + (b * 2 ^ 16 + (c * 2 ^ 8 + d))) =
      [UInt8.ofNat d, UInt8.ofNat c, UInt8.ofNat b, UInt8.ofNat a] := by
  have hlow : a * 2 ^ 24 + (b * 2 ^ 16 + (c * 2 ^ 8 + d)) =
      (a * 2 ^ 16 + b * 2 ^ 8 + c) * 2 ^ 8 + d := by omega
  have hhigh : (a * 2 ^ 24 + (b * 2 ^ 16 + (c * 2 ^ 8 + d))) / 65536 = a * 2 ^ 8 + b := by omega
  rw [enc32, hhigh, enc16_bytes hb, hlow, enc16_bytes hd,
    ofNat_congr (a := a * 2 ^ 16 + b * 2 ^ 8 + c) (b := c) (by omega)]
  rfl

theorem ofNat_mod (x : Nat) : UInt8.ofNat (x % 256) = UInt8.ofNat x := ofNat_congr (by omega)

/-- `GUIDToStr` puts the first three fields into the order of the text. -/
theorem swapped_bytes (guid : EfiGuid) :
    EfiGuid.bytes ⟨byteSwapU32 guid.data1, byteSwapU16 guid.data2, byteSwapU16 guid.data3,
      guid.data4⟩ = octets guid := by
  have hlt : ∀ x, x % 256 < 256 := fun x => Nat.mod_lt x (by decide)
  rw [EfiGuid.bytes, byteSwapU32_eq, byteSwapU16_eq, byteSwapU16_eq,
    enc32_bytes (hlt _) (hlt _) (hlt _), enc16_bytes (hlt _), enc16_bytes (hlt _)]
  simp only [ofNat_mod]
  rfl

theorem hexchar_eq : hexchar = [48, 49, 50, 51, 52, 53, 54, 55, 56, 57, 65, 66, 67, 68, 69, 70] := by
  rfl

theorem itemText_byte (x : UInt8) : itemText (.hex x.toNat) = hexByteToStr x := by
  rw [itemText, hexchar_eq]
  exact forall_byte (p := fun x =>
    [byteAt [48, 49, 50, 51, 52, 53, 54, 55, 56, 57, 65, 66, 67, 68, 69, 70]
        ((0xF0 &&& x.toNat) >>> 4),
      byteAt [48, 49, 50, 51, 52, 53, 54, 55, 56, 57, 65, 66, 67, 68, 69, 70] (0x0F &&& x.toNat)] =
        hexByteToStr x) (by decide +kernel) x

end Octets

/-! ## Segments -/

/-- The digits of bytes, in small letters. -/
def smallText (b : Bytes) : Bytes := (b.flatMap hexByteToStr).map tolower

section Segments

variable {a b c d e s t : Bytes} {x : UInt8}

theorem nibbles_lt (y : UInt8) : (y &&& 0xF0) >>> 4 < 16 ∧ 0x0F &&& y < 16 := (byteFacts y).2.2.1

/-- The characters of the texts. -/
theorem hexNibbleToChar_digit (h : x < 16) : isxdigit (hexNibbleToChar x) = true ∧
    isxdigit (tolower (hexNibbleToChar x)) = true ∧
      tolower (hexNibbleToChar x) = tolower (tolower (hexNibbleToChar x)) :=
  (byteFacts x).2.2.2 h

theorem hexByteToStr_mem (h : x ∈ b.flatMap hexByteToStr) :
    isxdigit x = true ∧ isxdigit (tolower x) = true ∧ tolower x = tolower (tolower x) := by
  obtain ⟨y, -, hx⟩ := List.mem_flatMap.mp h
  obtain ⟨hhi, hlo⟩ := nibbles_lt y
  rcases List.mem_cons.mp hx with rfl | hx
  · exact hexNibbleToChar_digit hhi
  · rw [List.mem_singleton] at hx
    rw [hx]
    exact hexNibbleToChar_digit hlo

theorem smallText_mem (h : x ∈ smallText b) : isxdigit x = true ∧ x = tolower x := by
  obtain ⟨y, hy, rfl⟩ := List.mem_map.mp h
  obtain ⟨-, hdigit, hsmall⟩ := hexByteToStr_mem hy
  exact ⟨hdigit, hsmall⟩

theorem isxdigit_ne (h : isxdigit x = true) : x ≠ 0 ∧ x ≠ 45 := by
  constructor
  · rintro rfl
    cases h
  · rintro rfl
    cases h

theorem length_hexText (b : Bytes) : (b.flatMap hexByteToStr).length = 2 * b.length := by
  induction b with
  | nil => rfl
  | cons x b ih =>
    have hx : (hexByteToStr x).length = 2 := rfl
    rw [List.flatMap_cons, List.length_append, ih, hx, List.length_cons]
    omega

theorem length_smallText (b : Bytes) : (smallText b).length = 2 * b.length := by
  rw [smallText, List.length_map, length_hexText]

theorem smallText_append (a b : Bytes) : smallText (a ++ b) = smallText a ++ smallText b := by
  rw [smallText, List.flatMap_append, List.map_append, smallText, smallText]

theorem byteAt_mem {i : Nat} (h : i < d.length) : byteAt d i ∈ d := by
  rw [byteAt_eq_getElem h]
  exact List.getElem_mem h

/-- Up to `n` all characters are where they should be. -/
def ValidUpTo (s : Bytes) (n : Nat) : Prop :=
  s.length = n ∧ ∀ i < n, validGUIDChar i (byteAt s i) = true

theorem ValidUpTo.append {n k : Nat} (h : ValidUpTo s n) (ht : t.length = k)
    (hv : ∀ i < k, validGUIDChar (n + i) (byteAt t i) = true) : ValidUpTo (s ++ t) (n + k) := by
  refine ⟨by rw [List.length_append, h.1, ht], fun i hi => ?_⟩
  rw [byteAt_append, h.1]
  split
  · exact h.2 i ‹_›
  · have hlast := hv (i - n) (by omega)
    rwa [Nat.add_sub_of_le (by omega)] at hlast

theorem ValidUpTo.dash {n : Nat} (h : ValidUpTo s n) (hn : validGUIDChar n 45 = true) :
    ValidUpTo (s ++ [45]) (n + 1) :=
  h.append rfl fun i hi => by
    rw [Nat.lt_one_iff.mp hi]
    exact hn

theorem ValidUpTo.digits {n : Nat} (h : ValidUpTo s n) (k : Nat) (ht : t.length = k)
    (hs : ∀ x ∈ t, isxdigit x = true ∧ x = tolower x)
    (hn : ∀ i < k, ¬ (n + i = 8 ∨ n + i = 13 ∨ n + i = 18 ∨ n + i = 23)) :
    ValidUpTo (s ++ t) (n + k) := by
  refine h.append ht fun i hi => ?_
  obtain ⟨hdigit, hsmall⟩ := hs _ (byteAt_mem (ht ▸ hi))
  rw [validGUIDChar, if_neg (hn i hi), Bool.and_eq_true, decide_eq_true_iff]
  exact ⟨hsmall, hdigit⟩

/-- Small digits in segments of the right lengths are a valid text. -/
theorem validGUIDStr_segments (ha : a.length = 8) (hb : b.length = 4) (hc : c.length = 4)
    (hd : d.length = 4) (he : e.length = 12)
    (h : ∀ x ∈ a ++ b ++ c ++ d ++ e, isxdigit x = true ∧ x = tolower x) :
    validGUIDStr (a ++ [45] ++ b ++ [45] ++ c ++ [45] ++ d ++ [45] ++ e) = true := by
  simp only [List.forall_mem_append] at h
  obtain ⟨⟨⟨⟨h1, h2⟩, h3⟩, h4⟩, h5⟩ := h
  have hnil : ValidUpTo [] 0 := ⟨rfl, fun i hi => absurd hi (Nat.not_lt_zero i)⟩
  have hall := ((((((((hnil.digits 8 ha h1 (by omega)).dash rfl).digits 4 hb h2 (by omega)).dash
    rfl).digits 4 hc h3 (by omega)).dash rfl).digits 4 hd h4 (by omega)).dash rfl).digits 12 he h5
      (by omega)
  unfold validGUIDStr guidStringSize
  rw [Bool.and_eq_true, decide_eq_true_iff, List.all_eq_true]
  exact ⟨hall.1, fun i hi => hall.2 i (List.mem_range.mp hi)⟩

theorem filter_dashes (h : ∀ x ∈ s, isxdigit x = true) : s.filter (· ≠ 45) = s :=
  List.filter_eq_self.mpr fun x hx => decide_eq_true (isxdigit_ne (h x hx)).2

/-- The text of a string in an array. -/
theorem cstr_terminated (h : ∀ x ∈ s, x ≠ 0) : cstr (s ++ [0]) = s := by
  have hall : ∀ x ∈ s, decide (x ≠ 0) = true := fun x hx => decide_eq_true (h x hx)
  rw [cstr, List.takeWhile_append_of_pos hall]
  exact List.append_nil s

end Segments

/-! ## The text with dashes -/

section Dashes

variable {guid : EfiGuid} {d : Bytes}

theorem eight_bytes (h : d.length = 8) : d = [byteAt d 0, byteAt d 1, byteAt d 2, byteAt d 3,
    byteAt d 4, byteAt d 5, byteAt d 6, byteAt d 7] := by
  refine ext_byteAt h fun i hi => ?_
  rw [h] at hi
  interval_cases i <;> rfl

theorem item_byte (x k : Nat) : Item.hex ((x &&& 255 <<< k) >>> k) =
    .hex (UInt8.ofNat (x / 2 ^ k)).toNat := by
  rw [mask_shift, UInt8.toNat_ofNat']

def dashedText (guid : EfiGuid) : Bytes :=
  smallText ((octets guid).take 4) ++ [45] ++ smallText (((octets guid).drop 4).take 2) ++ [45] ++
    smallText (((octets guid).drop 6).take 2) ++ [45] ++ smallText (guid.data4.take 2) ++ [45] ++
      smallText (guid.data4.drop 2)

theorem guidItems_text (h : guid.data4.length = 8) :
    ((guidItems guid).flatMap itemText).map tolower = dashedText guid := by
  have h1 : Item.hex ((guid.data1 &&& 0xFF000000) >>> 24) = _ := item_byte guid.data1 24
  have h2 : Item.hex ((guid.data1 &&& 0x00FF0000) >>> 16) = _ := item_byte guid.data1 16
  have h3 : Item.hex ((guid.data1 &&& 0x0000FF00) >>> 8) = _ := item_byte guid.data1 8
  have h4 : Item.hex (guid.data1 &&& 0x000000FF) = .hex (UInt8.ofNat guid.data1).toNat := by
    rw [UInt8.toNat_ofNat', Nat.and_two_pow_sub_one_eq_mod guid.data1 8]
  have h5 : Item.hex ((guid.data2 &&& 0xFF00) >>> 8) = _ := item_byte guid.data2 8
  have h6 : Item.hex (guid.data2 &&& 0x00FF) = .hex (UInt8.ofNat guid.data2).toNat := by
    rw [UInt8.toNat_ofNat', Nat.and_two_pow_sub_one_eq_mod guid.data2 8]
  have h7 : Item.hex ((guid.data3 &&& 0xFF00) >>> 8) = _ := item_byte guid.data3 8
  have h8 : Item.hex (guid.data3 &&& 0x00FF) = .hex (UInt8.ofNat guid.data3).toNat := by
    rw [UInt8.toNat_ofNat', Nat.and_two_pow_sub_one_eq_mod guid.data3 8]
  unfold dashedText octets
  rw [eight_bytes h]
  simp only [guidItems, h1, h2, h3, h4, h5, h6, h7, h8, List.flatMap_cons, List.flatMap_nil,
    itemText_byte]
  rfl

end Dashes

/-! ## Reading -/

section Reading

variable {g : GuidValue} {str s : Bytes}

theorem length_octets (g : GuidValue) : (octets g.toEfiGuid).length = 16 := by
  rw [octets, List.length_append, g.data4_length]
  rfl

theorem newHexStrToBinary_eq (hl : s.length = 32) :
    newHexStrToBinary (fun _ => true) s = hexStrToBinary s := by
  unfold newHexStrToBinary
  rw [if_neg (by omega)]
  rfl

theorem join16 {x : Nat} (h : x < 2 ^ 16) :
    (UInt8.ofNat (x / 2 ^ 8)).toNat * 2 ^ 8 + (UInt8.ofNat x).toNat = x := by
  have hhigh : (UInt8.ofNat (x / 2 ^ 8)).toNat = x / 2 ^ 8 % 256 := UInt8.toNat_ofNat'
  have hlow : (UInt8.ofNat x).toNat = x % 256 := UInt8.toNat_ofNat'
  rw [hhigh, hlow]
  omega

theorem join32 {x : Nat} (h : x < 2 ^ 32) : (UInt8.ofNat (x / 2 ^ 24)).toNat * 2 ^ 24 +
    (UInt8.ofNat (x / 2 ^ 16)).toNat * 2 ^ 16 + (UInt8.ofNat (x / 2 ^ 8)).toNat * 2 ^ 8 +
      (UInt8.ofNat x).toNat = x := by
  have h3 : (UInt8.ofNat (x / 2 ^ 24)).toNat = x / 2 ^ 24 % 256 := UInt8.toNat_ofNat'
  have h2 : (UInt8.ofNat (x / 2 ^ 16)).toNat = x / 2 ^ 16 % 256 := UInt8.toNat_ofNat'
  have h1 : (UInt8.ofNat (x / 2 ^ 8)).toNat = x / 2 ^ 8 % 256 := UInt8.toNat_ofNat'
  have h0 : (UInt8.ofNat x).toNat = x % 256 := UInt8.toNat_ofNat'
  rw [h3, h2, h1, h0]
  omega

/-- The sixteen bytes give the fields. -/
theorem strToGUID_octets (hs : str.filter (· ≠ 45) = s)
    (hb : hexStrToBinary s = some (octets g.toEfiGuid)) (hl : s.length = 32) :
    strToGUID (fun _ => true) str = some g.toEfiGuid := by
  have hdata4 : ((octets g.toEfiGuid).drop 8).take 8 = g.data4 :=
    List.take_of_length_le g.data4_length.le
  have hfields : EfiGuid.mk _ _ _ _ = g.toEfiGuid := (EfiGuid.mk.injEq ..).mpr
    ⟨join32 g.data1_lt, join16 g.data2_lt, join16 g.data3_lt, hdata4⟩
  unfold strToGUID
  dsimp only
  rw [hs, if_neg (by decide), if_neg (not_not.mpr hl), newHexStrToBinary_eq hl, hb]
  exact congrArg some hfields

/-- What is read is thirty-two digits, dashes aside. -/
theorem strToGUID_isSome (str : Bytes) : (strToGUID (fun _ => true) str).isSome ↔
    (str.filter (· ≠ 45)).length = 32 ∧ ∀ c ∈ str.filter (· ≠ 45), isxdigit c = true := by
  unfold strToGUID
  dsimp only
  rw [if_neg (by decide)]
  by_cases hl : (str.filter (· ≠ 45)).length = 32
  · have hdigits := hexStrToBinary_isSome (s := str.filter (· ≠ 45))
    rw [if_neg (not_not.mpr hl), newHexStrToBinary_eq hl]
    cases hb : hexStrToBinary (str.filter (· ≠ 45)) with
    | none =>
      rw [hb, hl] at hdigits
      exact ⟨fun h => (by cases h), fun h => hdigits.mpr ⟨rfl, h.2⟩⟩
    | some p =>
      rw [hb] at hdigits
      exact ⟨fun _ => ⟨hl, (hdigits.mp rfl).2⟩, fun _ => rfl⟩
  · rw [if_pos hl]
    exact ⟨fun h => (by cases h), fun h => absurd h.1 hl⟩

end Reading

/-! ## Both texts -/

section Texts

variable {m : Nat → UInt8} {str : Nat} {guid : EfiGuid}

/-- The terminator is written twice, behind the text and behind the buffer. -/
theorem guidToStr_eq (h : (octets guid).length = 16) : guidToStr guid str m =
    writeMem m str ((octets guid).flatMap hexByteToStr ++ [0] ++ [0]) := by
  have hlength : ((octets guid).flatMap hexByteToStr ++ [0]).length = guidStrSize := by
    rw [List.length_append, length_hexText, h]
    rfl
  unfold guidToStr
  dsimp only
  rw [swapped_bytes, binaryToHexStr_eq, ← hlength, writeMem_append]

theorem readMem_guidToStr (h : (octets guid).length = 16) :
    readMem (guidToStr guid str m) str guidStrSize =
      (octets guid).flatMap hexByteToStr ++ [0] := by
  have hall := readMem_writeMem m str ((octets guid).flatMap hexByteToStr ++ [0] ++ [0])
  have hlength : ((octets guid).flatMap hexByteToStr ++ [0]).length = guidStrSize := by
    rw [List.length_append, length_hexText, h]
    rfl
  rw [List.length_append, List.length_singleton, hlength, readMem_append] at hall
  rw [guidToStr_eq h]
  exact (List.append_inj hall (by rw [length_readMem, hlength])).1

/-- The byte behind the buffer. -/
theorem guidToStr_behind (h : (octets guid).length = 16) :
    guidToStr guid str m (str + guidStrSize) = 0 := by
  have hlength : ((octets guid).flatMap hexByteToStr ++ [0]).length = guidStrSize := by
    rw [List.length_append, length_hexText, h]
    rfl
  rw [guidToStr_eq h, writeMem, if_pos, Nat.add_sub_cancel_left, byteAt_append, hlength,
    if_neg (Nat.lt_irrefl _), Nat.sub_self]
  · rfl
  · rw [List.length_append, hlength, List.length_singleton]
    omega

theorem dashedText_mem {x : UInt8} (h : x ∈ dashedText guid) : x ≠ 0 := by
  unfold dashedText at h
  simp only [List.mem_append, List.mem_singleton] at h
  rcases h with (((((((h | rfl) | h) | rfl) | h) | rfl) | h) | rfl) | h <;>
    first
      | exact (isxdigit_ne (smallText_mem h).1).1
      | decide

theorem readMem_formatGUID (g : GuidValue) :
    readMem (formatGUID g.toEfiGuid str m) str guidStringSize = dashedText g.toEfiGuid ++ [0] := by
  have hall := readMem_writeMem m str (dashedText g.toEfiGuid ++ [0])
  have hlength : (dashedText g.toEfiGuid ++ [0]).length = guidStringSize := by
    unfold dashedText
    simp only [List.length_append, length_smallText, List.length_take, List.length_drop,
      length_octets, g.data4_length, List.length_singleton]
    rfl
  rw [hlength] at hall
  rw [formatGUID_eq, guidItems_text g.data4_length]
  exact hall

/-- Without the dashes the text is that of all bytes. -/
theorem dashedText_filter (g : GuidValue) :
    (dashedText g.toEfiGuid).filter (· ≠ 45) = smallText (octets g.toEfiGuid) := by
  have hdigits : ∀ b, (smallText b).filter (· ≠ 45) = smallText b := fun b =>
    filter_dashes fun x hx => (smallText_mem hx).1
  have hdash : ([45] : Bytes).filter (· ≠ 45) = [] := rfl
  have hparts : (octets g.toEfiGuid).take 4 ++ ((octets g.toEfiGuid).drop 4).take 2 ++
      ((octets g.toEfiGuid).drop 6).take 2 ++ g.data4.take 2 ++ g.data4.drop 2 =
        octets g.toEfiGuid := by
    rw [List.append_assoc _ (g.data4.take 2), List.take_append_drop]
    rfl
  unfold dashedText
  simp only [List.filter_append, hdigits, hdash, List.append_nil]
  rw [← smallText_append, ← smallText_append, ← smallText_append, ← smallText_append, hparts]

end Texts

/-- The texts are valid, and read they give the GUID. -/
structure Agrees (g : GuidValue) : Prop where
  terminated : ∀ m str, 0 ∈ readMem (guidToStr g.toEfiGuid str m) str guidStrSize
  readBack : ∀ m str, strToGUID (fun _ => true)
    (cstr (readMem (guidToStr g.toEfiGuid str m) str guidStrSize)) = some g.toEfiGuid
  valid : ∀ m buf,
    validGUIDStr (cstr (readMem (formatGUID g.toEfiGuid buf m) buf guidStringSize)) = true
  formattedBack : ∀ m buf, strToGUID (fun _ => true)
    (cstr (readMem (formatGUID g.toEfiGuid buf m) buf guidStringSize)) = some g.toEfiGuid
  /-- A longer text does not fit into the copy that `StrToGUID` makes. -/
  accepts : ∀ str : Bytes, str.length + 1 < 2 ^ 32 → ((strToGUID (fun _ => true) str).isSome ↔
    (str.filter (· ≠ 45)).length = 32 ∧ ∀ c ∈ str.filter (· ≠ 45), isxdigit c = true)

/-- `GUIDToStr` stays in its buffer, too. -/
structure TextsAgree (g : GuidValue) : Prop extends Agrees g where
  inside : ∀ m str x, x < str ∨ str + guidStrSize ≤ x → guidToStr g.toEfiGuid str m x = m x

theorem agrees (g : GuidValue) : Agrees g := by
  have hdigits : ∀ x ∈ (octets g.toEfiGuid).flatMap hexByteToStr, isxdigit x = true :=
    fun x hx => (hexByteToStr_mem hx).1
  have htext : ∀ m str, cstr (readMem (guidToStr g.toEfiGuid str m) str guidStrSize) =
      (octets g.toEfiGuid).flatMap hexByteToStr := fun m str => by
    rw [readMem_guidToStr (length_octets g)]
    exact cstr_terminated fun x hx => (isxdigit_ne (hdigits x hx)).1
  have hformat : ∀ m buf, cstr (readMem (formatGUID g.toEfiGuid buf m) buf guidStringSize) =
      dashedText g.toEfiGuid := fun m buf => by
    rw [readMem_formatGUID]
    exact cstr_terminated fun x hx => dashedText_mem hx
  refine ⟨fun m str => ?_, fun m str => ?_, fun m buf => ?_, fun m buf => ?_,
    fun str _ => strToGUID_isSome str⟩
  · rw [readMem_guidToStr (length_octets g)]
    exact List.mem_append_right _ (List.mem_singleton_self 0)
  · rw [htext]
    exact strToGUID_octets (filter_dashes hdigits) (hexStrToBinary_text _)
      (by rw [length_hexText, length_octets])
  · rw [hformat]
    refine validGUIDStr_segments ?_ ?_ ?_ ?_ ?_ fun x hx => ?_
    · rw [length_smallText, List.length_take, length_octets]; rfl
    · rw [length_smallText, List.length_take, List.length_drop, length_octets]; rfl
    · rw [length_smallText, List.length_take, List.length_drop, length_octets]; rfl
    · rw [length_smallText, List.length_take, g.data4_length]; rfl
    · rw [length_smallText, List.length_drop, g.data4_length]
    · rw [← smallText_append, ← smallText_append, ← smallText_append, ← smallText_append] at hx
      exact smallText_mem hx
  · rw [hformat]
    refine strToGUID_octets (dashedText_filter g) ?_ (by rw [length_smallText, length_octets])
    rw [smallText, hexStrToBinary_map, hexStrToBinary_text]

/-- For every GUID all holds but that `GUIDToStr` stays in its buffer. -/
theorem agrees_and_not_textsAgree (g : GuidValue) : Agrees g ∧ ¬ TextsAgree g := by
  refine ⟨agrees g, fun h => ?_⟩
  have hbehind := h.inside (fun _ => 1) 0 (0 + guidStrSize) (.inr (Nat.le_refl _))
  rw [guidToStr_behind (length_octets g)] at hbehind
  cases hbehind

theorem zero_lt_width (k : Nat) : 0 < 2 ^ k := Nat.two_pow_pos k

theorem zeroData4_length : (List.replicate 8 (0 : UInt8)).length = 8 := rfl

def zeroGuid : GuidValue :=
  ⟨⟨0, 0, 0, List.replicate 8 0⟩, zero_lt_width 32, zero_lt_width 16, zero_lt_width 16,
    zeroData4_length⟩

theorem not_textsAgree_zero : ¬ TextsAgree zeroGuid := by
  intro h
  have hbehind := h.inside (fun _ => 1) 0 (0 + guidStrSize) (.inr (Nat.le_refl _))
  rw [guidToStr_behind (length_octets zeroGuid)] at hbehind
  cases hbehind

end LsvmTools.GuidText
