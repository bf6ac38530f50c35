import LsvmTools.Cpio

/-! # The newc format

An archive is a list of entries, each a header of hexadecimal fields, a name and the
data, both of them padded to a multiple of four bytes. Where a buffer holds an entry,
the functions of `cpio.c` read from it what it was made of. -/
namespace LsvmTools.CpioFormat
open Lib.ByteString Lib.Program Lib.Loop Strings Cpio

/-! ## Integers -/

theorem toInt_of_lt {x : Int} (h0 : -2 ^ 31 ≤ x) (h : x < 2 ^ 31) : toInt x = x := by
  unfold toInt
  exact Int.bmod_eq_of_le (by omega) (by omega)

theorem toInt_add_toInt (x y : Int) : toInt (x + toInt y) = toInt (x + y) := by
  unfold toInt
  exact Int.add_bmod_bmod ..

theorem toInt_toInt_add (x y : Int) : toInt (toInt x + y) = toInt (x + y) := by
  unfold toInt
  exact Int.bmod_add_bmod ..

theorem toInt_toInt_mul (x y : Int) : toInt (toInt x * y) = toInt (x * y) := by
  unfold toInt
  exact Int.bmod_mul_bmod ..

theorem toInt_lt (x : Int) : toInt x < 2 ^ 31 := by
  unfold toInt
  have := Int.bmod_lt (x := x) (m := 2 ^ 32) (by decide)
  omega

theorem le_toInt (x : Int) : -2 ^ 31 ≤ toInt x := by
  unfold toInt
  have := Int.le_bmod (x := x) (m := 2 ^ 32) (by decide)
  omega

/-- Truncation keeps no more than there was. -/
theorem toInt_le {x : Int} (h : 0 ≤ x) : toInt x ≤ x := by
  unfold toInt
  rw [Int.bmod_def]
  split <;> omega

theorem toUintn_of_lt {x : Int} (h0 : 0 ≤ x) (h : x < 2 ^ 64) : toUintn x = x := by
  unfold toUintn
  exact Int.emod_eq_of_lt h0 h

theorem toUintn_nonneg (x : Int) : 0 ≤ toUintn x := by
  unfold toUintn
  exact Int.emod_nonneg _ (by decide)

theorem toUintn_lt (x : Int) : toUintn x < 2 ^ 64 := by
  unfold toUintn
  exact Int.emod_lt_of_pos _ (by decide)

theorem toPtr_of_lt {x : Int} (h0 : -2 ^ 63 ≤ x) (h : x < 2 ^ 63) : toPtr x = x := by
  unfold toPtr
  exact Int.bmod_eq_of_le (by omega) (by omega)

/-- The next multiple of `m`. -/
def ceil (x m : Nat) : Nat := (x + (m - 1)) / m * m

theorem le_ceil {m : Nat} (hm : 0 < m) (x : Nat) : x ≤ ceil x m := by
  have h1 := Nat.div_add_mod (x + (m - 1)) m
  have h2 := Nat.mod_lt (x + (m - 1)) hm
  rw [Nat.mul_comm] at h1
  unfold ceil
  omega

theorem ceil_lt {m : Nat} (hm : 0 < m) (x : Nat) : ceil x m < x + m := by
  have := Nat.div_mul_le_self (x + (m - 1)) m
  unfold ceil
  omega

theorem dvd_ceil (x m : Nat) : m ∣ ceil x m := ⟨_, Nat.mul_comm ..⟩

theorem ceil_of_dvd {x m : Nat} (hm : 0 < m) (h : m ∣ x) : ceil x m = x := by
  obtain ⟨k, rfl⟩ := h
  unfold ceil
  rw [show m * k + (m - 1) = (m - 1) + m * k by omega, Nat.add_mul_div_left _ _ hm,
    Nat.div_eq_of_lt (by omega), Nat.zero_add, Nat.mul_comm]

theorem ceil_mono {x y m : Nat} (h : x ≤ y) : ceil x m ≤ ceil y m :=
  Nat.mul_le_mul_right _ (Nat.div_le_div_right (by omega))

theorem roundUp_eq {x m : Nat} (hm : 0 < m) (hm' : m < 2 ^ 31) (hx : ceil x m < 2 ^ 31) :
    roundUpToMultiple x m = ceil x m := by
  have h1 := le_ceil hm x
  have h2 : ((x : Int) + ((m : Int) - 1)) = ((x + (m - 1) : Nat) : Int) := by omega
  unfold roundUpToMultiple
  rw [h2, toUintn_of_lt (by omega) (by omega)]
  have h3 : ((x + (m - 1) : Nat) : Int) / m * m = (ceil x m : Nat) := by
    unfold ceil
    push_cast
    rfl
  rw [h3, toInt_of_lt (by omega) (by omega)]

/-! ## Hexadecimal numbers -/

theorem hexValue_hexDigit {d : Nat} (h : d < 16) : hexValue (hexDigit d) = some (d : Int) := by
  interval_cases d <;> rfl

/-- The value of digits, the last one first. -/
def digitsValue : List Nat → Nat
  | [] => 0
  | d :: ds => d + 16 * digitsValue ds

theorem hexLoop_digits (ds : List Nat) (h : ∀ d ∈ ds, d < 16) (r x : Int) :
    hexLoop (ds.map hexDigit) (toInt r) (toInt x) = toInt (x + r * digitsValue ds) := by
  induction ds generalizing r x with
  | nil => simp [hexLoop, digitsValue]
  | cons d ds ih =>
    rw [List.map_cons, hexLoop, hexValue_hexDigit (h d (by simp))]
    simp only [toInt_toInt_mul, toInt_add_toInt, toInt_toInt_add]
    rw [ih fun d hd => h d (by simp [hd])]
    congr 1
    simp only [digitsValue]
    push_cast
    ring

/-- `_HexToInt` reads what `_IntToHex` writes, where an `int` can hold it. -/
theorem hexToInt_intToHex {n : Nat} (hn : n < 2 ^ 31) :
    hexToInt (intToHex (UInt32.ofNat n)) = n := by
  have hto : (UInt32.ofNat n).toNat = n := UInt32.toNat_ofNat_of_lt' (by
    show n < 2 ^ 32
    omega)
  have hdigits : (intToHex (UInt32.ofNat n)).reverse =
      ([0, 4, 8, 12, 16, 20, 24, 28].map fun k => n / 2 ^ k % 16).map hexDigit := by
    unfold intToHex
    rw [hto]
    rfl
  have hval : digitsValue ([0, 4, 8, 12, 16, 20, 24, 28].map fun k => n / 2 ^ k % 16) = n := by
    simp only [List.map_cons, List.map_nil, digitsValue]
    omega
  have h1 : toInt 1 = 1 := toInt_of_lt (by decide) (by decide)
  have h0 : toInt 0 = 0 := toInt_of_lt (by decide) (by decide)
  unfold hexToInt
  have h := hexLoop_digits ([0, 4, 8, 12, 16, 20, 24, 28].map fun k => n / 2 ^ k % 16)
    (by simp; omega) 1 0
  rw [h1, h0] at h
  rw [hdigits, h, hval, Int.zero_add, Int.one_mul, toInt_of_lt (by omega) (by omega)]

@[simp] theorem length_intToHex (x : UInt32) : (intToHex x).length = 8 := by simp [intToHex]

/-! ## Headers -/

/-- Every field is as wide as in a header. -/
structure CPIOHeader.Sized (x : CPIOHeader) : Prop where
  magic : x.magic.length = 6
  ino : x.ino.length = 8
  mode : x.mode.length = 8
  uid : x.uid.length = 8
  gid : x.gid.length = 8
  nlink : x.nlink.length = 8
  mtime : x.mtime.length = 8
  filesize : x.filesize.length = 8
  devmajor : x.devmajor.length = 8
  devminor : x.devminor.length = 8
  rdevmajor : x.rdevmajor.length = 8
  rdevminor : x.rdevminor.length = 8
  namesize : x.namesize.length = 8
  check : x.check.length = 8

theorem CPIOHeader.Sized.length {x : CPIOHeader} (h : CPIOHeader.Sized x) : x.bytes.length = 110 := by
  obtain ⟨h0, h1, h2, h3, h4, h5, h6, h7, h8, h9, h10, h11, h12, h13⟩ := h
  simp only [CPIOHeader.bytes, List.length_append]
  omega

/-- The fields of the header that the bytes begin with. -/
def ofBytes (d : Bytes) : CPIOHeader where
  magic := d.take 6
  ino := (d.drop 6).take 8
  mode := (d.drop 14).take 8
  uid := (d.drop 22).take 8
  gid := (d.drop 30).take 8
  nlink := (d.drop 38).take 8
  mtime := (d.drop 46).take 8
  filesize := (d.drop 54).take 8
  devmajor := (d.drop 62).take 8
  devminor := (d.drop 70).take 8
  rdevmajor := (d.drop 78).take 8
  rdevminor := (d.drop 86).take 8
  namesize := (d.drop 94).take 8
  check := (d.drop 102).take 8

theorem ofBytes_bytes {x : CPIOHeader} (h : CPIOHeader.Sized x) (d : Bytes) :
    ofBytes (x.bytes ++ d) = x := by
  obtain ⟨h0, h1, h2, h3, h4, h5, h6, h7, h8, h9, h10, h11, h12, h13⟩ := h
  cases x
  simp only at h0 h1 h2 h3 h4 h5 h6 h7 h8 h9 h10 h11 h12 h13
  simp [ofBytes, CPIOHeader.bytes, List.drop_append, List.drop_eq_nil_of_le, *]

theorem bytes_length (b : Buffer) (i : Int) (n : Nat) : (b.bytes i n).length = n := by
  simp [Buffer.bytes]

theorem bytes_slice (b : Buffer) (i : Int) {k n m : Nat} (h : k + n ≤ m) :
    b.bytes (i + k) n = ((b.bytes i m).drop k).take n := by
  apply List.ext_getElem (by simp [Buffer.bytes]; omega)
  intro j h1 h2
  simp [Buffer.bytes, Int.add_assoc]

theorem header_eq (b : Buffer) (h : Int) : b.header h = ofBytes (b.bytes h 110) := by
  have hfield : ∀ k n : Nat, k + n ≤ 110 → b.bytes (h + k) n = ((b.bytes h 110).drop k).take n :=
    fun _ _ hk => bytes_slice b h hk
  have hmagic := hfield 0 6 (by decide)
  rw [List.drop_zero, Int.natCast_zero, Int.add_zero] at hmagic
  unfold Buffer.header ofBytes
  rw [hmagic, ← hfield 6 8 (by decide), ← hfield 14 8 (by decide), ← hfield 22 8 (by decide),
    ← hfield 30 8 (by decide), ← hfield 38 8 (by decide), ← hfield 46 8 (by decide),
    ← hfield 54 8 (by decide), ← hfield 62 8 (by decide), ← hfield 70 8 (by decide),
    ← hfield 78 8 (by decide), ← hfield 86 8 (by decide), ← hfield 94 8 (by decide),
    ← hfield 102 8 (by decide)]
  rfl

/-- A header whose numbers are zero but for the sizes. -/
def plainHeader (namesize filesize : Nat) : CPIOHeader where
  magic := [48, 55, 48, 55, 48, 49]
  ino := intToHex 0
  mode := intToHex 0
  uid := intToHex 0
  gid := intToHex 0
  nlink := intToHex 1
  mtime := intToHex 0
  filesize := intToHex (UInt32.ofNat filesize)
  devmajor := intToHex 0
  devminor := intToHex 0
  rdevmajor := intToHex 0
  rdevminor := intToHex 0
  namesize := intToHex (UInt32.ofNat namesize)
  check := intToHex 0

theorem plainHeader_sized (namesize filesize : Nat) :
    CPIOHeader.Sized (plainHeader namesize filesize) := by
  constructor <;> rfl

/-! ## Entries -/

/-- A header, a name with its terminator and data, both with their padding. -/
structure Entry where
  header : CPIOHeader
  name : CStr
  namePad : Bytes
  data : Bytes
  dataPad : Bytes
  sized : CPIOHeader.Sized header
  magic : cpioMatchMagicNumber header.magic = true
  namesize : header.namesize = intToHex (UInt32.ofNat (name.bytes.length + 1))
  namesize_lt : name.bytes.length + 1 < 2 ^ 32
  filesize : header.filesize = intToHex (UInt32.ofNat data.length)
  filesize_lt : data.length < 2 ^ 32
  namePad_size : 110 + (name.bytes.length + 1) + namePad.length =
    ceil (110 + (name.bytes.length + 1)) 4
  dataPad_size : data.length + dataPad.length = ceil data.length 4

namespace Entry

def bytes (e : Entry) : Bytes :=
  e.header.bytes ++ (e.name.bytes ++ [0] ++ e.namePad ++ (e.data ++ e.dataPad))

def size (e : Entry) : Nat := ceil (110 + (e.name.bytes.length + 1)) 4 + ceil e.data.length 4

theorem length_bytes (e : Entry) : e.bytes.length = e.size := by
  have h1 := e.namePad_size
  have h2 := e.dataPad_size
  have h3 := e.sized.length
  simp only [bytes, size, List.length_append, List.length_singleton]
  omega

theorem four_dvd_size (e : Entry) : 4 ∣ e.size := Nat.dvd_add (dvd_ceil _ _) (dvd_ceil _ _)

theorem le_size (e : Entry) : 110 + (e.name.bytes.length + 1) + e.data.length ≤ e.size := by
  have h1 := le_ceil (show 0 < 4 by decide) (110 + (e.name.bytes.length + 1))
  have h2 := le_ceil (show 0 < 4 by decide) e.data.length
  unfold size
  omega

end Entry

/-- The buffer holds the entry at `h`. -/
def Holds (b : Buffer) (h : Int) (e : Entry) : Prop := b.bytes h e.size = e.bytes

variable {b : Buffer} {h cpioEnd : Int} {e : Entry}

theorem peek_eq (b : Buffer) (i : Int) {k n : Nat} (hk : k < n) :
    b.peek (i + k) = byteAt (b.bytes i n) k := by
  rw [byteAt_eq_getElem (by simpa [Buffer.bytes] using hk)]
  simp [Buffer.bytes]

theorem Holds.header (he : Holds b h e) : b.header h = e.header := by
  have hle := e.le_size
  have h110 : b.bytes h 110 = e.bytes.take 110 := by
    have := bytes_slice b h (show 0 + 110 ≤ e.size by omega)
    rw [Int.natCast_zero, Int.add_zero, List.drop_zero, he] at this
    exact this
  rw [header_eq, h110, Entry.bytes, List.take_append_of_le_length (by rw [e.sized.length]),
    List.take_of_length_le (by rw [e.sized.length])]
  have := ofBytes_bytes e.sized []
  rwa [List.append_nil] at this

/-- The name is read with its terminator. -/
theorem Holds.peek_name (he : Holds b h e) {k : Nat} (hk : k ≤ e.name.bytes.length) :
    b.peek (getName h + k) = byteAt (e.name.bytes ++ [0]) k := by
  have hle := e.le_size
  have h1 : getName h + (k : Int) = h + ((110 + k : Nat) : Int) := by
    unfold getName
    omega
  rw [h1, peek_eq b h (show 110 + k < e.size by omega), he, Entry.bytes, byteAt_append,
    if_neg (by rw [e.sized.length]; omega), e.sized.length, Nat.add_sub_cancel_left,
    List.append_assoc, byteAt_append, if_pos (by simp; omega)]

theorem strcmpEq_of {i : Int} {p name : Bytes} (hp : (0 : UInt8) ∉ p) (hn : (0 : UInt8) ∉ name)
    (h : ∀ k : Nat, k ≤ name.length → b.peek (i + k) = byteAt (name ++ [0]) k) :
    b.strcmpEq i p = decide (p = name) := by
  induction p generalizing i name with
  | nil =>
    have h0 := h 0 (Nat.zero_le _)
    rw [Int.natCast_zero, Int.add_zero] at h0
    cases name with
    | nil => simp [Buffer.strcmpEq, h0, byteAt]
    | cons c cs =>
      have hc : c ≠ 0 := fun he => hn (by simp [he])
      simp [Buffer.strcmpEq, h0, byteAt, hc]
  | cons c cs ih =>
    have hc : c ≠ 0 := fun he => hp (by simp [he])
    have h0 := h 0 (Nat.zero_le _)
    rw [Int.natCast_zero, Int.add_zero] at h0
    cases name with
    | nil => simp [Buffer.strcmpEq, h0, byteAt, Ne.symm hc]
    | cons d ds =>
      have hrest : ∀ k : Nat, k ≤ ds.length → b.peek (i + 1 + k) = byteAt (ds ++ [0]) k := by
        intro k hk
        have := h (k + 1) (by simpa using hk)
        rw [show i + ((k + 1 : Nat) : Int) = i + 1 + k by omega] at this
        rw [this]
        simp [byteAt]
      rw [Buffer.strcmpEq, h0, ih (fun hm => hp (by simp [hm])) (fun hm => hn (by simp [hm])) hrest]
      have hd : byteAt (d :: ds ++ [0]) 0 = d := rfl
      rw [hd]
      by_cases hdc : d = c
      · subst hdc; simp
      · simp [hdc, Ne.symm hdc]

/-- A name is compared with the entry's. -/
theorem Holds.strcmp (he : Holds b h e) (p : CStr) :
    b.strcmpEq (getName h) p.bytes = decide (p = e.name) := by
  rw [strcmpEq_of p.noNul e.name.noNul fun k hk => he.peek_name hk]
  cases p
  cases hn : e.name
  simp

theorem Holds.entrySize (he : Holds b h e) (hlt : e.size < 2 ^ 31) :
    cpioGetEntrySize (b.header h) = e.size := by
  have hle := e.le_size
  have hn : getNameSize e.header = ((e.name.bytes.length + 1 : Nat) : Int) := by
    rw [getNameSize, e.namesize, hexToInt_intToHex (by omega)]
  have hf : getFileSize e.header = (e.data.length : Int) := by
    rw [getFileSize, e.filesize, hexToInt_intToHex (by omega)]
  have h1 := le_ceil (show 0 < 4 by decide) (110 + (e.name.bytes.length + 1))
  have h2 := le_ceil (show 0 < 4 by decide) e.data.length
  have h3 := ceil_lt (show 0 < 4 by decide) (110 + (e.name.bytes.length + 1))
  have h4 := ceil_lt (show 0 < 4 by decide) e.data.length
  have hs : e.size = ceil (110 + (e.name.bytes.length + 1)) 4 + ceil e.data.length 4 := rfl
  have hname : roundUpToMultiple (toUintn (110 + ((e.name.bytes.length + 1 : Nat) : Int))) 4 =
      ceil (110 + (e.name.bytes.length + 1)) 4 := by
    rw [toUintn_of_lt (by omega) (by omega)]
    exact roundUp_eq (x := 110 + (e.name.bytes.length + 1)) (m := 4) (by decide) (by decide)
      (by omega)
  have hdata : roundUpToMultiple (toUintn (e.data.length : Int)) 4 = ceil e.data.length 4 := by
    rw [toUintn_of_lt (by omega) (by omega)]
    exact roundUp_eq (m := 4) (by decide) (by decide) (by omega)
  rw [he.header]
  unfold cpioGetEntrySize
  simp only [hf, hn, hname, hdata]
  rw [if_neg (by omega), if_neg (by omega), toInt_of_lt (by omega) (by omega)]
  omega

/-! ## Walking an archive -/

theorem toInt_sub {x : Int} {s : Nat} (hs : s ≤ toInt x) : toInt (x - s) = toInt x - s := by
  have h1 := toInt_lt x
  have h2 : toInt (x - s) = toInt (toInt x - s) := (toInt_toInt_add x (-(s : Int))).symm
  rw [h2, toInt_of_lt (by omega) (by omega)]

theorem Holds.check (he : Holds b h e) (hroom : e.size ≤ toInt (cpioEnd - h)) :
    cpioCheckEntry b h cpioEnd = .ok () := by
  have hle := e.le_size
  have hlt := toInt_lt (cpioEnd - h)
  unfold cpioCheckEntry
  simp only [he.entrySize (by omega)]
  rw [toUintn_of_lt (by omega) (by omega), if_neg (by omega), he.header, e.magic,
    if_neg (by decide), if_neg (by omega), if_neg (by omega)]

/-- An entry that does not fit what is left is refused. -/
theorem Holds.check_err (he : Holds b h e) (hlt : e.size < 2 ^ 31)
    (hroom : toInt (cpioEnd - h) < e.size) : cpioCheckEntry b h cpioEnd = .err () := by
  unfold cpioCheckEntry
  simp only [he.entrySize hlt]
  split
  · rfl
  · rw [he.header, e.magic, if_neg (by decide), if_neg (by omega)]

theorem next_trailer (he : Holds b h e) (hname : e.name = trailerName)
    (hc : cpioCheckEntry b h cpioEnd = .ok ()) : cpioNextHeader b h cpioEnd = .ok none := by
  unfold cpioNextHeader
  rw [hc, he.strcmp, hname]
  simp

theorem next_entry (he : Holds b h e) (hlt : e.size < 2 ^ 31) (hname : e.name ≠ trailerName)
    (hc : cpioCheckEntry b h cpioEnd = .ok ()) :
    cpioNextHeader b h cpioEnd = (do
      cpioCheckEntry b (h + e.size) cpioEnd
      pure (some (h + e.size))) := by
  have hne : ¬ (e.size : Int) = -1 := by omega
  unfold cpioNextHeader
  rw [hc, he.strcmp]
  simp only [Out.ok_bind, decide_eq_true_eq, Ne.symm hname, if_false, he.entrySize hlt, hne]

/-- Walking from `h` on finds the entries and then the trailer. -/
inductive Parses (b : Buffer) (cpioEnd : Int) : Int → List Entry → Entry → Prop
  | trailer {h : Int} {t : Entry} (he : Holds b h t) (hname : t.name = trailerName)
      (hc : cpioCheckEntry b h cpioEnd = .ok ())
      (hn : cpioNextHeader b h cpioEnd = .ok none) : Parses b cpioEnd h [] t
  | entry {h : Int} {e : Entry} {es : List Entry} {t : Entry} (he : Holds b h e)
      (hname : e.name ≠ trailerName) (hc : cpioCheckEntry b h cpioEnd = .ok ())
      (hn : cpioNextHeader b h cpioEnd = .ok (some (h + e.size)))
      (rest : Parses b cpioEnd (h + e.size) es t) : Parses b cpioEnd h (e :: es) t

def total (es : List Entry) : Nat := (es.map Entry.size).sum

@[simp] theorem total_nil : total [] = 0 := rfl

@[simp] theorem total_cons (e : Entry) (es : List Entry) : total (e :: es) = e.size + total es := by
  simp [total]

@[simp] theorem total_append (es fs : List Entry) : total (es ++ fs) = total es + total fs := by
  simp [total]

theorem length_flatMap (es : List Entry) : (es.flatMap Entry.bytes).length = total es := by
  induction es with
  | nil => rfl
  | cons e es ih => simp [e.length_bytes, ih]

theorem four_dvd_total (es : List Entry) : 4 ∣ total es := by
  induction es with
  | nil => exact Nat.dvd_zero 4
  | cons e es ih =>
    rw [total_cons]
    exact Nat.dvd_add e.four_dvd_size ih

theorem bytes_append (b : Buffer) (i : Int) (n m : Nat) :
    b.bytes i (n + m) = b.bytes i n ++ b.bytes (i + n) m := by
  apply List.ext_getElem (by simp [Buffer.bytes])
  intro k h1 h2
  rw [List.getElem_append]
  split
  · simp [Buffer.bytes]
  · rename_i hk
    rw [bytes_length] at hk
    simp only [Buffer.bytes, List.getElem_map, List.getElem_range, List.length_map, List.length_range]
    congr 1
    omega

theorem holds_cons {es : List Entry}
    (hb : b.bytes h (total (e :: es)) = (e :: es).flatMap Entry.bytes) :
    Holds b h e ∧ b.bytes (h + e.size) (total es) = es.flatMap Entry.bytes := by
  rw [total_cons, bytes_append, List.flatMap_cons] at hb
  exact List.append_inj hb (by rw [bytes_length, e.length_bytes])

/-- A buffer that holds entries and a trailer is walked as such where the sizes leave
room in an `int`. -/
theorem parses_of_bytes {es : List Entry} {t : Entry} (hes : ∀ e ∈ es, e.name ≠ trailerName)
    (ht : t.name = trailerName)
    (hb : b.bytes h (total (es ++ [t])) = (es ++ [t]).flatMap Entry.bytes)
    (hroom : total (es ++ [t]) ≤ toInt (cpioEnd - h)) : Parses b cpioEnd h es t := by
  induction es generalizing h with
  | nil =>
    obtain ⟨he, -⟩ := holds_cons hb
    simp only [List.nil_append, total_cons, total_nil] at hroom
    have hc := he.check (by omega)
    exact .trailer he ht hc (next_trailer he ht hc)
  | cons e es ih =>
    obtain ⟨he, hrest⟩ := holds_cons hb
    rw [List.cons_append, total_cons] at hroom
    have hlt := toInt_lt (cpioEnd - h)
    have hleft : toInt (cpioEnd - (h + e.size)) = toInt (cpioEnd - h) - e.size := by
      rw [← toInt_sub (show e.size ≤ toInt (cpioEnd - h) by omega)]
      congr 1
      omega
    have hc : cpioCheckEntry b h cpioEnd = .ok () := he.check (by omega)
    have hp := ih (fun e he => hes e (by simp [he])) hrest (by omega)
    have hname := hes e (by simp)
    refine .entry he hname hc ?_ hp
    have hc' : cpioCheckEntry b (h + e.size) cpioEnd = .ok () := by
      cases hp with
      | trailer _ _ hc _ => exact hc
      | entry _ _ hc _ _ => exact hc
    rw [next_entry he (by omega) hname hc, hc']
    rfl

/-! ## Finding and reading a file -/

/-- Where the first entry with a name stands. -/
def locate (p : CStr) : Int → List Entry → Option (Int × Entry)
  | _, [] => none
  | h, e :: es => if e.name = p then some (h, e) else locate p (h + e.size) es

/-- The data of the first entry with a name. -/
def lookup (p : CStr) : List Entry → Out Unit Bytes
  | [] => .err ()
  | e :: es => if e.name = p then .ok e.data else lookup p es

theorem locate_lookup (p : CStr) (h : Int) (es : List Entry) :
    lookup p es = match locate p h es with
      | some (_, e) => .ok e.data
      | none => .err () := by
  induction es generalizing h with
  | nil => rfl
  | cons e es ih =>
    rw [lookup, locate, ih (h + e.size)]
    split <;> rfl

theorem locate_mem {p : CStr} {h h' : Int} {e : Entry} {es : List Entry}
    (hl : locate p h es = some (h', e)) : e ∈ es := by
  induction es generalizing h with
  | nil => cases hl
  | cons e' es ih =>
    rw [locate] at hl
    split at hl
    · cases hl; exact List.mem_cons_self
    · exact List.mem_cons_of_mem _ (ih hl)

theorem locate_some {p : CStr} {h : Int} {e : Entry} {es : List Entry} (hname : e.name = p)
    (he : e ∈ es) : ∃ h' e', locate p h es = some (h', e') := by
  induction es generalizing h with
  | nil => cases he
  | cons e' es ih =>
    rw [locate]
    split
    · exact ⟨h, e', rfl⟩
    · rename_i hne
      rcases List.mem_cons.mp he with rfl | he
      · exact absurd hname hne
      · exact ih he

theorem lookup_append {p : CStr} {es fs gs : List Entry} (h : lookup p fs = lookup p gs) :
    lookup p (es ++ fs) = lookup p (es ++ gs) := by
  induction es with
  | nil => exact h
  | cons e es ih => rw [List.cons_append, List.cons_append, lookup, lookup, ih]

theorem lookup_skip {p : CStr} {es fs : List Entry} (h : ∀ e ∈ es, e.name ≠ p) :
    lookup p (es ++ fs) = lookup p fs := by
  induction es with
  | nil => rfl
  | cons e es ih =>
    rw [List.cons_append, lookup, if_neg (h e (by simp)), ih fun e he => h e (by simp [he])]

theorem Parses.locate {es : List Entry} {t : Entry} (hp : Parses b cpioEnd h es t) {p : CStr}
    {h' : Int} {e : Entry} (hl : locate p h (es ++ [t]) = some (h', e)) :
    Holds b h' e ∧ e.name = p ∧ cpioCheckEntry b h' cpioEnd = .ok () := by
  induction hp with
  | trailer he _ hc _ =>
    rw [List.nil_append, CpioFormat.locate] at hl
    split at hl
    · rename_i hn; cases hl; exact ⟨he, hn, hc⟩
    · cases hl
  | entry he _ hc _ _ ih =>
    rw [List.cons_append, CpioFormat.locate] at hl
    split at hl
    · rename_i hn; cases hl; exact ⟨he, hn, hc⟩
    · exact ih hl

theorem Parses.findLoop {es : List Entry} {t : Entry} (hp : Parses b b.size h es t) (p : CStr) :
    (Exec.loop (fun h => Exec.of (findHeaderRound b p h)) h).Ends
      (.ok ((CpioFormat.locate p h (es ++ [t])).map (·.1))) := by
  induction hp with
  | @trailer h t he hname hc hn =>
    apply Exec.loop_done
    rw [Exec.ends_of, findHeaderRound, hc, he.strcmp, List.nil_append, CpioFormat.locate]
    by_cases hpt : t.name = p
    · simp [hpt]
    · simp [hpt, Ne.symm hpt, advance, hn, CpioFormat.locate]
  | @entry h e es t he hname hc hn rest ih =>
    rw [List.cons_append, CpioFormat.locate]
    by_cases hpe : e.name = p
    · apply Exec.loop_done
      rw [Exec.ends_of, findHeaderRound, hc, he.strcmp]
      simp [hpe]
    · rw [if_neg hpe]
      refine (Exec.loop_next ?_).mpr ih
      rw [Exec.ends_of, findHeaderRound, hc, he.strcmp]
      simp [Ne.symm hpe, advance, hn]

theorem Parses.findHeader {es : List Entry} {t : Entry} (hp : Parses b b.size 0 es t) (p : CStr) :
    (Cpio.findHeader b p).Ends (match CpioFormat.locate p 0 (es ++ [t]) with
      | some (h, _) => .ok h
      | none => .err ()) := by
  refine (hp.findLoop p).bind ?_
  cases CpioFormat.locate p 0 (es ++ [t]) with
  | none => exact Exec.ends_of.mpr rfl
  | some x => exact Exec.ends_pure.mpr rfl

theorem Holds.data (he : Holds b h e) :
    b.bytes (h + (ceil (110 + (e.name.bytes.length + 1)) 4 : Nat)) e.data.length = e.data := by
  have hpad := e.namePad_size
  have hle : ceil (110 + (e.name.bytes.length + 1)) 4 + e.data.length ≤ e.size :=
    Nat.add_le_add_left (le_ceil (by decide) _) _
  have hlen : (e.header.bytes ++ (e.name.bytes ++ [0] ++ e.namePad)).length =
      ceil (110 + (e.name.bytes.length + 1)) 4 := by
    rw [List.length_append, List.length_append, List.length_append, e.sized.length,
      List.length_singleton]
    omega
  rw [bytes_slice b h hle, he, Entry.bytes, ← List.append_assoc, ← hlen, List.drop_left,
    List.take_left]

/-- Reading a file of an archive. -/
theorem Parses.getFile {mem : Nat → Bool} (hmem : ∀ n, n < 2 ^ 31 → mem n = true)
    (h0 : b.size ≠ 0) {es : List Entry} {t : Entry} (hp : Parses b b.size 0 es t)
    (hlt : ∀ e ∈ es ++ [t], e.size < 2 ^ 31) (p : CStr) :
    (cpioGetFile mem b p).Ends (lookup p (es ++ [t])) := by
  have hfind := hp.findHeader p
  have hloc := locate_lookup p 0 (es ++ [t])
  unfold cpioGetFile
  rw [if_neg h0]
  cases hl : CpioFormat.locate p 0 (es ++ [t]) with
  | none =>
    rw [hl] at hfind hloc
    rw [hloc]
    exact hfind.bind_err _
  | some x =>
    obtain ⟨h, e⟩ := x
    rw [hl] at hfind hloc
    rw [hloc]
    obtain ⟨he, hname, -⟩ := hp.locate hl
    have hsize := hlt e (locate_mem hl)
    have hle := e.le_size
    have hhdr : ceil (110 + (e.name.bytes.length + 1)) 4 ≤ e.size := Nat.le_add_right _ _
    have hn : getNameSize e.header = ((e.name.bytes.length + 1 : Nat) : Int) := by
      rw [getNameSize, e.namesize, hexToInt_intToHex (by omega)]
    have hf : getFileSize e.header = (e.data.length : Int) := by
      rw [getFileSize, e.filesize, hexToInt_intToHex (by omega)]
    have hround : roundUpToMultiple (toUintn (110 + ((e.name.bytes.length + 1 : Nat) : Int))) 4 =
        ceil (110 + (e.name.bytes.length + 1)) 4 := by
      rw [toUintn_of_lt (by omega) (by omega)]
      exact roundUp_eq (x := 110 + (e.name.bytes.length + 1)) (m := 4) (by decide) (by decide)
        (by omega)
    have hu : toUintn (e.data.length : Int) = e.data.length := toUintn_of_lt (by omega) (by omega)
    refine hfind.bind ?_
    simp only [he.header, hf, hu, hn, hround]
    by_cases hd : e.data = []
    · rw [if_pos (by rw [hd]; rfl)]
      exact Exec.ends_pure.mpr (congrArg Out.ok hd)
    · have hpos := List.length_pos_iff.mpr hd
      have h32 : u32 (e.data.length : Int).toNat = e.data.length := u32_of_lt (by omega)
      rw [if_neg (by omega), h32, hmem _ (by omega), if_neg (by decide), if_neg (by omega),
        toUintn_of_lt (by omega) (by omega)]
      exact Exec.ends_pure.mpr (congrArg Out.ok he.data.symm)

/-! ## Archives -/

/-- An archive: the entries before the trailer, the trailer and what follows it. -/
structure Archive where
  entries : List Entry
  trailer : Entry
  rest : Bytes
  named : ∀ e ∈ entries, e.name ≠ trailerName
  trailer_name : trailer.name = trailerName
  trailer_data : trailer.data = []

namespace Archive

def all (a : Archive) : List Entry := a.entries ++ [a.trailer]

def bytes (a : Archive) : Bytes := a.all.flatMap Entry.bytes ++ a.rest

theorem length_bytes (a : Archive) : a.bytes.length = total a.all + a.rest.length := by
  rw [bytes, List.length_append, length_flatMap]

theorem trailer_size (a : Archive) : a.trailer.size = 124 := by
  unfold Entry.size
  rw [a.trailer_name, a.trailer_data]
  rfl

theorem total_all (a : Archive) : total a.all = total a.entries + 124 := by
  rw [all, total_append, total_cons, total_nil, trailer_size]

end Archive

theorem bytes_zero (b : Buffer) {n : Nat} (hn : n ≤ b.data.length) : b.bytes 0 n = b.data.take n := by
  apply List.ext_getElem (by simp [Buffer.bytes, hn])
  intro k h1 h2
  rw [bytes_length] at h1
  have hk : (k : Int) < b.size := by unfold Buffer.size; omega
  simp [Buffer.bytes, Buffer.peek, hk, byteAt, show k < b.data.length by omega]

theorem Archive.parses {a : Archive} (hb : b.data = a.bytes) (hroom : total a.all ≤ toInt b.size) :
    Parses b b.size 0 a.entries a.trailer := by
  refine parses_of_bytes a.named a.trailer_name ?_ (by rwa [Int.sub_zero])
  change b.bytes 0 (total a.all) = a.all.flatMap Entry.bytes
  rw [bytes_zero b (by rw [hb, a.length_bytes]; omega), hb, Archive.bytes, ← length_flatMap,
    List.take_left]

theorem size_le_total {es : List Entry} (he : e ∈ es) : e.size ≤ total es :=
  List.single_le_sum (by simp) _ (List.mem_map_of_mem he)

/-! ## The bytes say what the entries are -/

theorem hexDigit_inj {d d' : Nat} (hd : d < 16) (hd' : d' < 16) (h : hexDigit d = hexDigit d') :
    d = d' := by
  have hvalue := hexValue_hexDigit hd
  rw [h, hexValue_hexDigit hd'] at hvalue
  have := Option.some.inj hvalue
  omega

theorem intToHex_inj {n k : Nat} (hn : n < 2 ^ 32) (hk : k < 2 ^ 32)
    (h : intToHex (UInt32.ofNat n) = intToHex (UInt32.ofNat k)) : n = k := by
  have hto : ∀ m, m < 2 ^ 32 → (UInt32.ofNat m).toNat = m := fun m hm =>
    UInt32.toNat_ofNat_of_lt' hm
  have hdigit : ∀ j ∈ [28, 24, 20, 16, 12, 8, 4, 0], n / 2 ^ j % 16 = k / 2 ^ j % 16 := by
    intro j hj
    unfold intToHex at h
    rw [hto n hn, hto k hk] at h
    exact hexDigit_inj (Nat.mod_lt _ (by decide)) (Nat.mod_lt _ (by decide))
      (List.map_inj_left.mp h j hj)
  simp only [List.mem_cons, List.not_mem_nil, or_false, forall_eq_or_imp, forall_eq] at hdigit
  omega

theorem header_inj {x y : CPIOHeader} (hx : CPIOHeader.Sized x) (hy : CPIOHeader.Sized y)
    {r r' : Bytes} (h : x.bytes ++ r = y.bytes ++ r') : x = y ∧ r = r' := by
  have hxy : x = y := by rw [← ofBytes_bytes hx r, h, ofBytes_bytes hy]
  subst hxy
  exact ⟨rfl, List.append_cancel_left h⟩

/-- An entry is what it consists of. -/
theorem entry_ext {e e' : Entry} (hheader : e.header = e'.header) (hname : e.name = e'.name)
    (hnamePad : e.namePad = e'.namePad) (hdata : e.data = e'.data)
    (hdataPad : e.dataPad = e'.dataPad) : e = e' := by
  cases e
  cases e'
  cases hheader
  cases hname
  cases hnamePad
  cases hdata
  cases hdataPad
  rfl

theorem entry_inj {e e' : Entry} {r r' : Bytes} (h : e.bytes ++ r = e'.bytes ++ r') :
    e = e' ∧ r = r' := by
  simp only [Entry.bytes, List.append_assoc] at h
  obtain ⟨hheader, h⟩ := header_inj e.sized e'.sized h
  have hname := e.namesize
  have hdata := e.filesize
  rw [hheader, e'.namesize] at hname
  rw [hheader, e'.filesize] at hdata
  have hnlen : e'.name.bytes.length + 1 = e.name.bytes.length + 1 :=
    intToHex_inj (n := e'.name.bytes.length + 1) (k := e.name.bytes.length + 1) e'.namesize_lt
      e.namesize_lt hname
  have hdlen : e'.data.length = e.data.length :=
    intToHex_inj (n := e'.data.length) (k := e.data.length) e'.filesize_lt e.filesize_lt hdata
  have hnpad := e.namePad_size
  have hnpad' := e'.namePad_size
  have hdpad := e.dataPad_size
  have hdpad' := e'.dataPad_size
  rw [hnlen] at hnpad'
  rw [hdlen] at hdpad'
  obtain ⟨h1, h⟩ := List.append_inj h (by omega)
  obtain ⟨-, h⟩ := List.append_inj h rfl
  obtain ⟨h2, h⟩ := List.append_inj h (by omega)
  obtain ⟨h3, h⟩ := List.append_inj h hdlen.symm
  obtain ⟨h4, h⟩ := List.append_inj h (by omega)
  have hcstr : e.name = e'.name := by
    cases hn : e.name
    cases hn' : e'.name
    simp only [hn, hn'] at h1
    simp only [h1]
  exact ⟨entry_ext hheader hcstr h2 h3 h4, h⟩

/-- Entries up to the trailer are read in one way only. -/
theorem entries_inj {es es' : List Entry} {t t' : Entry} {r r' : Bytes}
    (hes : ∀ e ∈ es, e.name ≠ trailerName) (hes' : ∀ e ∈ es', e.name ≠ trailerName)
    (ht : t.name = trailerName) (ht' : t'.name = trailerName)
    (h : (es ++ [t]).flatMap Entry.bytes ++ r = (es' ++ [t']).flatMap Entry.bytes ++ r') :
    es = es' := by
  induction es generalizing es' with
  | nil =>
    cases es' with
    | nil => rfl
    | cons e' es' =>
      simp only [List.nil_append, List.cons_append, List.flatMap_cons, List.append_assoc] at h
      obtain ⟨rfl, -⟩ := entry_inj h
      exact absurd ht (hes' _ (by simp))
  | cons e es ih =>
    cases es' with
    | nil =>
      simp only [List.nil_append, List.cons_append, List.flatMap_cons, List.append_assoc] at h
      obtain ⟨rfl, -⟩ := entry_inj h
      exact absurd ht' (hes _ (by simp))
    | cons e' es' =>
      simp only [List.cons_append, List.flatMap_cons, List.append_assoc] at h
      obtain ⟨he, hrest⟩ := entry_inj h
      rw [he, ih (fun e he => hes e (List.mem_cons_of_mem _ he))
        (fun e he => hes' e (List.mem_cons_of_mem _ he)) hrest]

theorem Archive.entries_unique {a a' : Archive} (h : a.bytes = a'.bytes) : a.entries = a'.entries :=
  entries_inj a.named a'.named a.trailer_name a'.trailer_name h

end LsvmTools.CpioFormat
