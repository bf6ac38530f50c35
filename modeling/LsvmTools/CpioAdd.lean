import LsvmTools.CpioFormat

/-! # Adding a file to an archive

`CPIOAddFile` writes the new archive from left to right into an allocation of zeros, so
padding is what it steps over. The result is an archive of the format, with the new
entry before the trailer. -/
namespace LsvmTools.CpioAdd
open Lib.ByteString Lib.Program Lib.Loop Strings Cpio CpioFormat

/-! ## Filling an allocation -/

/-- An allocation of `n` zeros whose first bytes have been written. -/
def fill (n : Nat) (written : Bytes) : Bytes := written ++ List.replicate (n - written.length) 0

theorem memcpy_fill {n : Nat} {written d : Bytes} (h : written.length + d.length ≤ n) :
    memcpy (fill n written) written.length d = .ok (fill n (written ++ d)) := by
  have hlen : (fill n written).length = n := by
    simp only [fill, List.length_append, List.length_replicate]
    omega
  have hsplice : splice (fill n written) written.length d = fill n (written ++ d) := by
    unfold splice fill
    rw [List.take_left, ← List.drop_drop, List.drop_left, List.drop_replicate, List.length_append,
      List.append_assoc, List.append_assoc, Nat.sub_sub]
  unfold memcpy
  rw [if_pos (by omega), Int.toNat_natCast, hsplice]
  rfl

theorem memcpy_at {n k : Nat} {written d : Bytes} (hk : written.length = k)
    (h : k + d.length ≤ n) : memcpy (fill n written) (k : Int) d = .ok (fill n (written ++ d)) := by
  subst hk
  exact memcpy_fill h

/-- What is stepped over is zero. -/
theorem fill_zeros {n k : Nat} {written : Bytes} (h : written.length + k ≤ n) :
    fill n (written ++ List.replicate k 0) = fill n written := by
  unfold fill
  rw [List.append_assoc, List.replicate_append_replicate, List.length_append, List.length_replicate]
  congr 2
  omega

theorem fill_nil (n : Nat) : fill n [] = List.replicate n 0 := by simp [fill]

/-! ## The new archive -/

/-- The padding of `n` bytes. -/
def pad (n m : Nat) : Bytes := List.replicate (ceil n m - n) 0

theorem length_pad {m : Nat} (hm : 0 < m) (n : Nat) : n + (pad n m).length = ceil n m := by
  have := le_ceil hm n
  rw [pad, List.length_replicate]
  omega

/-- An entry whose padding is zero. -/
def Entry.make (header : CPIOHeader) (name : CStr) (data : Bytes) (sized : CPIOHeader.Sized header)
    (magic : cpioMatchMagicNumber header.magic = true)
    (namesize : header.namesize = intToHex (UInt32.ofNat (name.bytes.length + 1)))
    (filesize : header.filesize = intToHex (UInt32.ofNat data.length))
    (hn : name.bytes.length + 1 < 2 ^ 32) (hd : data.length < 2 ^ 32) : Entry where
  header := header
  name := name
  namePad := pad (110 + (name.bytes.length + 1)) 4
  data := data
  dataPad := pad data.length 4
  sized := sized
  magic := magic
  namesize := namesize
  namesize_lt := hn
  filesize := filesize
  filesize_lt := hd
  namePad_size := length_pad (by decide) _
  dataPad_size := length_pad (by decide) _

theorem newHeader_sized {trailer : CPIOHeader} (h : CPIOHeader.Sized trailer) (p : CStr)
    (size : Int) (mode : UInt32) : CPIOHeader.Sized (newHeader trailer p size mode) where
  magic := h.magic
  ino := length_intToHex _
  mode := length_intToHex _
  uid := length_intToHex _
  gid := length_intToHex _
  nlink := length_intToHex _
  mtime := length_intToHex _
  filesize := length_intToHex _
  devmajor := length_intToHex _
  devminor := length_intToHex _
  rdevmajor := length_intToHex _
  rdevminor := length_intToHex _
  namesize := length_intToHex _
  check := length_intToHex _

/-- A file to add: its name and data have sizes that a header can say. -/
structure NewFile where
  path : CStr
  mode : UInt32
  data : Bytes
  path_ne : path ≠ trailerName
  path_lt : path.bytes.length + 1 < 2 ^ 32
  data_lt : data.length < 2 ^ 32

/-- The entry of a new file. -/
def NewFile.entry (f : NewFile) (trailer : Entry) : Entry :=
  Entry.make (newHeader trailer.header f.path f.data.length f.mode) f.path f.data
    (newHeader_sized trailer.sized _ _ _) trailer.magic rfl
    (by rw [newHeader, Int.toNat_natCast]) f.path_lt f.data_lt

/-- The size of the entry of a new file. -/
def NewFile.size (f : NewFile) : Nat :=
  ceil (110 + (f.path.bytes.length + 1)) 4 + ceil f.data.length 4

/-- The trailer is written anew, with the old header. -/
theorem trailerName_lt : trailerName.bytes.length + 1 < 2 ^ 32 := by decide

theorem nil_lt : ([] : Bytes).length < 2 ^ 32 := by decide

def newTrailer (a : Archive) : Entry :=
  Entry.make a.trailer.header trailerName [] a.trailer.sized a.trailer.magic
    (by rw [a.trailer.namesize, a.trailer_name]) (by rw [a.trailer.filesize, a.trailer_data])
    trailerName_lt nil_lt

def sizeWith (a : Archive) (f : NewFile) : Nat := total a.entries + f.size + 124

/-- The archive with a new file. -/
def add (a : Archive) (f : NewFile) : Archive where
  entries := a.entries ++ [f.entry a.trailer]
  trailer := newTrailer a
  rest := pad (sizeWith a f) 512
  named := by
    intro e he
    rcases List.mem_append.mp he with h | h
    · exact a.named e h
    · rw [List.mem_singleton.mp h]
      exact f.path_ne
  trailer_name := rfl
  trailer_data := rfl

theorem length_add (a : Archive) (f : NewFile) :
    (add a f).bytes.length = ceil (sizeWith a f) 512 := by
  rw [Archive.length_bytes, Archive.total_all]
  have h : total (add a f).entries + 124 = sizeWith a f := by
    simp only [add, total_append, total_cons, total_nil]
    rfl
  have hpad := length_pad (show 0 < 512 by omega) (sizeWith a f)
  rw [h]
  simp only [add, hpad]

/-! ## What the function does -/

theorem ceil_add {m x : Nat} (hm : 0 < m) (hx : m ∣ x) (y : Nat) : ceil (x + y) m = x + ceil y m := by
  obtain ⟨k, rfl⟩ := hx
  unfold ceil
  rw [show m * k + y + (m - 1) = y + (m - 1) + m * k by omega, Nat.add_mul_div_left _ _ hm,
    Nat.add_mul, Nat.mul_comm k m, Nat.add_comm]

theorem uintn_nat {n : Nat} (h : n < 2 ^ 64) : toUintn (n : Int) = n :=
  toUintn_of_lt (by omega) (by omega)

theorem uintn_add {n k : Nat} (h : n + k < 2 ^ 64) :
    toUintn ((n : Int) + (k : Int)) = ((n + k : Nat) : Int) := by
  rw [← Int.natCast_add, uintn_nat h]

theorem uintn_round {n m : Nat} (hm : 0 < m) (hm' : m < 2 ^ 31) (h : ceil n m < 2 ^ 31) :
    toUintn (roundUpToMultiple (n : Int) (m : Int)) = (ceil n m : Nat) := by
  rw [roundUp_eq hm hm' h, uintn_nat (by omega)]

theorem uintn_block {x n : Nat} (h : ceil x 512 = n) (hlt : n < 2 ^ 31) :
    toUintn (roundUpToMultiple (x : Int) 512) = (n : Int) := by
  have hu := uintn_round (n := x) (m := 512) (by omega) (by omega) (by omega)
  rwa [Nat.cast_ofNat, h] at hu

theorem uintn_align {m x y : Nat} (hm : 0 < m) (hm' : m < 2 ^ 31) (hx : m ∣ x)
    (h : x + ceil y m < 2 ^ 31) :
    toUintn (roundUpToMultiple ((x + y : Nat) : Int) (m : Int)) = ((x + ceil y m : Nat) : Int) := by
  rw [← ceil_add hm hx] at h ⊢
  exact uintn_round hm hm' h

/-- What `CPIOAddFile` computes before it writes. -/
theorem computeHeaderSize_eq (f : NewFile) (h : f.size < 2 ^ 31) :
    computeHeaderSize f.path f.data.length = f.size := by
  have h1 := le_ceil (show 0 < 4 by decide) (110 + (f.path.bytes.length + 1))
  have h2 := le_ceil (show 0 < 4 by decide) f.data.length
  have hs : f.size = ceil (110 + (f.path.bytes.length + 1)) 4 + ceil f.data.length 4 := rfl
  have hsum : ceil (ceil (110 + (f.path.bytes.length + 1)) 4 + f.data.length) 4 = f.size :=
    ceil_add (by decide) (dvd_ceil _ _) _
  have hr1 := uintn_round (n := 110 + (f.path.bytes.length + 1)) (m := 4) (by decide) (by decide)
    (by omega)
  have hr2 := uintn_round (n := ceil (110 + (f.path.bytes.length + 1)) 4 + f.data.length) (m := 4)
    (by decide) (by decide) (by omega)
  have hu1 := uintn_nat (n := 110 + (f.path.bytes.length + 1)) (by omega)
  have hu2 := uintn_nat (n := ceil (110 + (f.path.bytes.length + 1)) 4 + f.data.length) (by omega)
  push_cast at hu1 hr1 hu2 hr2
  unfold computeHeaderSize
  simp only [hu1, hr1, hu2, hr2, hsum]

theorem computeTrailerSize_eq : computeTrailerSize = 124 := by
  have hu : toUintn (110 + 11) = 121 := toUintn_of_lt (by decide) (by decide)
  have hr : toUintn (roundUpToMultiple 121 4) = (ceil 121 4 : Nat) :=
    uintn_round (n := 121) (m := 4) (by decide) (by decide) (by decide)
  unfold computeTrailerSize
  rw [hu, hr]
  rfl

variable {b : Buffer} {a : Archive} {f : NewFile}

theorem appendData_eq {n k : Nat} {written d : Bytes} {fileData : Option Bytes}
    (hdata : fileData.getD [] = d) (hk : written.length = k) (h : k + d.length ≤ n) :
    appendData (fill n written) (k : Int) fileData d.length = .ok (fill n (written ++ d)) := by
  cases fileData with
  | none =>
    obtain rfl : [] = d := hdata
    rw [List.append_nil]
    rfl
  | some d' =>
    obtain rfl : d' = d := hdata
    simp only [appendData, if_true, memcpy_at hk h]

theorem offset_eq {k : Nat} {d : Bytes} {fileData : Option Bytes} (hdata : fileData.getD [] = d)
    (h : k + d.length < 2 ^ 64) :
    (if fileData.isSome then toUintn ((k : Int) + d.length) else (k : Int)) =
      ((k + d.length : Nat) : Int) := by
  cases fileData with
  | none =>
    obtain rfl : [] = d := hdata
    rfl
  | some d' => exact uintn_add h

theorem fillArchive_eq {n : Nat} (hb : b.bytes 0 (total a.entries) = a.entries.flatMap Entry.bytes)
    (ht : Holds b (total a.entries) a.trailer) {fileData : Option Bytes}
    (hdata : fileData.getD [] = f.data) (hn : n = ceil (sizeWith a f) 512) (hlt : n < 2 ^ 31) :
    fillArchive b (total a.entries) f.path fileData f.data.length f.mode (List.replicate n 0) =
      .ok ((add a f).bytes, (n : Int)) := by
  have hsize : sizeWith a f = total a.entries + f.size + 124 := rfl
  have hfsize : f.size = ceil (110 + (f.path.bytes.length + 1)) 4 + ceil f.data.length 4 := rfl
  have hle := le_ceil (show 0 < 512 by omega) (sizeWith a f)
  have h1 := le_ceil (show 0 < 4 by decide) (110 + (f.path.bytes.length + 1))
  have h2 := le_ceil (show 0 < 4 by decide) f.data.length
  have h4 := four_dvd_total a.entries
  have hhdr := (newHeader_sized a.trailer.sized f.path f.data.length f.mode).length
  have hthdr := a.trailer.sized.length
  have hent := length_flatMap a.entries
  have hrestSize : (add a f).rest = List.replicate (n - sizeWith a f) 0 := by
    rw [hn]
    unfold add pad
    simp only
  generalize hE : a.entries.flatMap Entry.bytes = E at hb hent
  generalize hT : total a.entries = T at *
  generalize hc1 : ceil (110 + (f.path.bytes.length + 1)) 4 = c1 at *
  have hbytes : ceil (sizeWith a f) 512 = n := hn.symm
  generalize hS : f.size = S at *
  generalize hW : sizeWith a f = W at *
  generalize hH : newHeader a.trailer.header f.path f.data.length f.mode = H at *
  have hS4 : 4 ∣ T + S := by
    rw [hfsize, ← Nat.add_assoc]
    exact Nat.dvd_add (Nat.dvd_add h4 (hc1 ▸ dvd_ceil _ _)) (dvd_ceil _ _)
  have hT4 : 4 ∣ T + c1 := Nat.dvd_add h4 (hc1 ▸ dvd_ceil _ _)
  have b0 : T < 2 ^ 64 := by omega
  have b1 : T + 110 < 2 ^ 64 := by omega
  have b2 : T + 110 + (f.path.bytes.length + 1) < 2 ^ 64 := by omega
  have b3 : T + c1 < 2 ^ 31 := by omega
  have b3' : T + c1 + f.data.length < 2 ^ 64 := by omega
  have b4 : T + c1 + ceil f.data.length 4 < 2 ^ 31 := by omega
  have b5 : T + S + 110 < 2 ^ 64 := by omega
  have b6 : T + S + 110 + 11 < 2 ^ 64 := by omega
  have b7 : T + S + ceil 121 4 < 2 ^ 31 := by
    rw [show ceil 121 4 = 124 from rfl]
    omega
  -- What has been written after each step.
  let w1 := E ++ H.bytes
  let w2 := w1 ++ (f.path.bytes ++ [0])
  let w3 := w2 ++ pad (110 + (f.path.bytes.length + 1)) 4
  let w4 := w3 ++ f.data
  let w5 := w4 ++ pad f.data.length 4
  let w6 := w5 ++ a.trailer.header.bytes
  let w7 := w6 ++ (trailerName.bytes ++ [0])
  have hp1 := length_pad (show 0 < 4 by decide) (110 + (f.path.bytes.length + 1))
  have hp2 := length_pad (show 0 < 4 by decide) f.data.length
  have l1 : w1.length = T + 110 := by rw [List.length_append, hent, hhdr]
  have l2 : w2.length = T + 110 + (f.path.bytes.length + 1) := by
    rw [List.length_append, l1, List.length_append, List.length_singleton]
  have l3 : w3.length = T + c1 := by rw [List.length_append, l2]; omega
  have l4 : w4.length = T + c1 + f.data.length := by rw [List.length_append, l3]
  have l5 : w5.length = T + S := by rw [List.length_append, l4]; omega
  have l6 : w6.length = T + S + 110 := by rw [List.length_append, l5, hthdr]
  have hname : (trailerName.bytes ++ [(0 : UInt8)]).length = 11 := rfl
  have l7 : w7.length = T + S + 121 := by rw [List.length_append, l6, hname]
  have m0 : memcpy (List.replicate n 0) 0 (b.bytes 0 T) = .ok (fill n E) := by
    have : memcpy (fill n []) ((0 : Nat) : Int) E = .ok (fill n ([] ++ E)) :=
      memcpy_at rfl (by omega)
    rw [fill_nil, List.nil_append] at this
    rw [hb]
    exact this
  have m1 : memcpy (fill n E) (T : Int) H.bytes = .ok (fill n w1) := memcpy_at hent (by omega)
  have m2 : memcpy (fill n w1) ((T + 110 : Nat) : Int) (f.path.bytes ++ [0]) = .ok (fill n w3) := by
    have hz : fill n w3 = fill n w2 := fill_zeros (by
      rw [pad, List.length_replicate] at hp1
      omega)
    rw [hz]
    exact memcpy_at l1 (by simp; omega)
  have m3 : appendData (fill n w3) ((T + c1 : Nat) : Int) fileData f.data.length =
      .ok (fill n w5) := by
    have hz : fill n w5 = fill n w4 := fill_zeros (by
      rw [pad, List.length_replicate] at hp2
      omega)
    rw [hz]
    exact appendData_eq hdata l3 (by omega)
  have m5 : memcpy (fill n w5) ((T + S : Nat) : Int) a.trailer.header.bytes = .ok (fill n w6) :=
    memcpy_at l5 (by omega)
  have m6 : memcpy (fill n w6) ((T + S + 110 : Nat) : Int) (trailerName.bytes ++ [0]) =
      .ok (fill n w7) := memcpy_at l6 (by simp [trailerName]; omega)
  have z7 : fill n w7 = (add a f).bytes := by
    have htrailer : (newTrailer a).bytes =
        a.trailer.header.bytes ++ (trailerName.bytes ++ [0] ++ List.replicate 3 0) :=
      congrArg (a.trailer.header.bytes ++ ·) (List.append_nil _)
    have hentry : (f.entry a.trailer).bytes = H.bytes ++ (f.path.bytes ++ [0] ++
        pad (110 + (f.path.bytes.length + 1)) 4 ++ (f.data ++ pad f.data.length 4)) := by
      rw [← hH]
      rfl
    have hrest : (add a f).rest = List.replicate (n - (T + S + 121 + 3)) 0 := by
      rw [hrestSize, hsize]
    rw [← fill_zeros (k := 3) (by omega), Archive.bytes, hrest, fill, List.length_append, l7,
      List.length_replicate]
    simp only [Archive.all, add, List.flatMap_append, List.flatMap_cons, List.flatMap_nil,
      List.append_nil, hE, hentry, htrailer, w1, w2, w3, w4, w5, w6, w7, List.append_assoc]
  -- The offsets.
  have u0 : toUintn (T : Int) = T := uintn_nat b0
  have u1 : toUintn ((T : Int) + 110) = ((T + 110 : Nat) : Int) := uintn_add (k := 110) b1
  have u2 : toUintn (((T + 110 : Nat) : Int) + (f.path.bytes.length + 1)) =
      ((T + 110 + (f.path.bytes.length + 1) : Nat) : Int) :=
    uintn_add (k := f.path.bytes.length + 1) b2
  have u3 : toUintn (roundUpToMultiple ((T + 110 + (f.path.bytes.length + 1) : Nat) : Int) 4) =
      ((T + c1 : Nat) : Int) := by
    have hu := uintn_align (m := 4) (by decide) (by decide) h4 (hc1.symm ▸ b3)
    rwa [hc1, ← Nat.add_assoc] at hu
  have u3' : (if fileData.isSome then toUintn (((T + c1 : Nat) : Int) + f.data.length)
      else ((T + c1 : Nat) : Int)) = ((T + c1 + f.data.length : Nat) : Int) := offset_eq hdata b3'
  have u4 : toUintn (roundUpToMultiple ((T + c1 + f.data.length : Nat) : Int) 4) =
      ((T + S : Nat) : Int) := by
    rw [hfsize, ← Nat.add_assoc]
    exact uintn_align (m := 4) (by decide) (by decide) hT4 b4
  have u5 : toUintn (((T + S : Nat) : Int) + 110) = ((T + S + 110 : Nat) : Int) :=
    uintn_add (k := 110) b5
  have u6 : toUintn (((T + S + 110 : Nat) : Int) + 11) = ((T + S + 121 : Nat) : Int) := by
    have hu := uintn_add (k := 11) b6
    rwa [Nat.add_assoc _ 110 11, show 110 + 11 = 121 from rfl] at hu
  have u7 : toUintn (roundUpToMultiple ((T + S + 121 : Nat) : Int) 4) = (W : Int) := by
    have hu := uintn_align (m := 4) (by decide) (by decide) hS4 b7
    rwa [show ceil 121 4 = 124 from rfl, ← hsize] at hu
  have u8 : toUintn (roundUpToMultiple (W : Int) 512) = (n : Int) := uintn_block hbytes hlt
  unfold fillArchive
  rw [if_neg (Int.not_lt.mpr (Int.natCast_nonneg T)), Int.toNat_natCast, ht.header]
  simp only [hH, m0, m1, m2, m3, m5, m6, u0, u1, u2, u3, u3', u4, u5, u6, u7, u8, Out.ok_bind, z7,
    Out.pure_eq]

variable {mem : Nat → Bool}

theorem size_pos (hb : b.data = a.bytes) : b.size ≠ 0 := by
  have h := a.length_bytes
  rw [← hb, Archive.total_all] at h
  unfold Buffer.size
  omega

theorem parses_small (hb : b.data = a.bytes) (ha : a.bytes.length < 2 ^ 31) :
    Parses b b.size 0 a.entries a.trailer := by
  have h := a.length_bytes
  refine a.parses hb ?_
  unfold Buffer.size
  rw [hb, toInt_of_lt (by omega) (by omega)]
  omega

theorem size_small (ha : a.bytes.length < 2 ^ 31) : ∀ e ∈ a.all, e.size < 2 ^ 31 := by
  intro e he
  have h := a.length_bytes
  have := size_le_total he
  omega

theorem locate_append {p : CStr} {h : Int} {es fs : List Entry} (hes : ∀ e ∈ es, e.name ≠ p) :
    locate p h (es ++ fs) = locate p (h + total es) fs := by
  induction es generalizing h with
  | nil => simp
  | cons e es ih =>
    rw [List.cons_append, locate, if_neg (hes e (by simp)), ih fun e he => hes e (by simp [he])]
    congr 1
    rw [total_cons]
    omega

/-- The trailer is found after the entries. -/
theorem findHeader_trailer (hp : Parses b b.size 0 a.entries a.trailer) :
    (findHeader b trailerName).Ends (.ok (total a.entries)) ∧
      Holds b (total a.entries) a.trailer := by
  have hl : locate trailerName 0 (a.entries ++ [a.trailer]) =
      some ((total a.entries : Int), a.trailer) := by
    rw [locate_append a.named, Int.zero_add, locate, if_pos a.trailer_name]
  have hfind := hp.findHeader trailerName
  rw [hl] at hfind
  exact ⟨hfind, (hp.locate hl).1⟩

theorem bytes_entries (hb : b.data = a.bytes) :
    b.bytes 0 (total a.entries) = a.entries.flatMap Entry.bytes := by
  have h := a.length_bytes
  rw [Archive.total_all] at h
  rw [bytes_zero b (by rw [hb]; omega), hb, Archive.bytes, Archive.all, List.flatMap_append,
    List.append_assoc, ← length_flatMap, List.take_left]

/-- The result is the archive with the new entry. -/
theorem cpioAddFile_eq (hmem : ∀ n, n < 2 ^ 31 → mem n = true) (hb : b.data = a.bytes)
    (ha : a.bytes.length < 2 ^ 31) {fileData : Option Bytes} (hdata : fileData.getD [] = f.data)
    (hlt : ceil (sizeWith a f) 512 < 2 ^ 31) :
    (cpioAddFile mem b f.path fileData f.data.length f.mode).Ends
      (.ok ⟨(add a f).bytes, (add a f).bytes.length⟩) := by
  obtain ⟨hfind, ht⟩ := findHeader_trailer (parses_small hb ha)
  have hfill := fillArchive_eq (bytes_entries hb) ht hdata rfl hlt
  have hle := le_ceil (show 0 < 512 by omega) (sizeWith a f)
  have hsize : sizeWith a f = total a.entries + f.size + 124 := rfl
  have b1 : total a.entries + f.size < 2 ^ 64 := by omega
  have b2 : total a.entries + f.size + 124 < 2 ^ 64 := by omega
  have h32 : u32 (ceil (sizeWith a f) 512) = ceil (sizeWith a f) 512 := u32_of_lt (by omega)
  have u0 : toUintn (total a.entries : Int) = total a.entries := uintn_nat (by omega)
  have u1 : toUintn ((total a.entries : Int) + computeHeaderSize f.path f.data.length) =
      ((total a.entries + f.size : Nat) : Int) := by
    rw [computeHeaderSize_eq f (by omega)]
    exact uintn_add b1
  have u2 : toUintn (((total a.entries + f.size : Nat) : Int) + computeTrailerSize) =
      (sizeWith a f : Int) := by
    rw [computeTrailerSize_eq, hsize]
    exact uintn_add (k := 124) b2
  have u3 : toUintn (roundUpToMultiple (sizeWith a f : Int) 512) =
      (ceil (sizeWith a f) 512 : Nat) := uintn_block rfl hlt
  have hcalloc : calloc mem ((ceil (sizeWith a f) 512 : Nat) : Int) =
      .ok (List.replicate (ceil (sizeWith a f) 512) 0) := by
    unfold calloc
    simp only [Int.toNat_natCast, h32, hmem _ hlt, if_true, Out.pure_eq]
  unfold cpioAddFile
  rw [if_neg (size_pos hb)]
  refine hfind.bind ?_
  simp only [u0, u1, u2, u3]
  refine (Exec.ends_of.mpr hcalloc.symm).bind ?_
  refine (Exec.ends_of.mpr hfill.symm).bind ?_
  rw [length_add]
  simp only [ne_eq, not_true_eq_false, if_false]
  exact Exec.ends_pure.mpr rfl

/-! ## What is in the new archive -/

/-- The buffer `b'` holds what `b` does and the file that was added. -/
structure Added (mem : Nat → Bool) (b b' : Buffer) (a : Archive) (p : CStr) (mode : UInt32)
    (d : Bytes) : Prop where
  parses : ∃ e t, Parses b' b'.size 0 (a.entries ++ [e]) t ∧ e.name = p ∧
    e.header.mode = intToHex mode ∧ e.data = d
  added : (cpioGetFile mem b' p).Ends (.ok d)
  others : ∀ q, q ≠ p → ∀ r, (cpioGetFile mem b q).Ends r ↔ (cpioGetFile mem b' q).Ends r

/-- How long the archive with a file added is. -/
def addedSize (a : Archive) (p : CStr) (d : Bytes) : Nat :=
  ceil (total a.entries + (ceil (110 + (p.bytes.length + 1)) 4 + ceil d.length 4) + 124) 512

theorem added_of_bytes {b' : Buffer} (hmem : ∀ n, n < 2 ^ 31 → mem n = true)
    (hb : b.data = a.bytes) (ha : a.bytes.length < 2 ^ 31) (hb' : b'.data = (add a f).bytes)
    (hlt : (add a f).bytes.length < 2 ^ 31) (hnew : ∀ e ∈ a.entries, e.name ≠ f.path) :
    Added mem b b' a f.path f.mode f.data := by
  have hp := parses_small hb ha
  have hp' := parses_small hb' hlt
  have hget := fun q => hp.getFile hmem (size_pos hb) (size_small ha) q
  have hget' := fun q => hp'.getFile hmem (size_pos hb') (size_small hlt) q
  have hall : (add a f).entries ++ [(add a f).trailer] =
      a.entries ++ [f.entry a.trailer, newTrailer a] := List.append_assoc _ _ _
  have hname : (f.entry a.trailer).name = f.path := rfl
  have htname : (newTrailer a).name = trailerName := rfl
  have htdata : (newTrailer a).data = a.trailer.data := a.trailer_data.symm
  rw [hall] at hget'
  refine ⟨⟨f.entry a.trailer, newTrailer a, hp', rfl, rfl, rfl⟩, ?_, ?_⟩
  · have h := hget' f.path
    rw [lookup_skip hnew, lookup, if_pos hname] at h
    exact h
  · intro q hq r
    have h := hget q
    have h' := hget' q
    have hsame : lookup q [f.entry a.trailer, newTrailer a] = lookup q [a.trailer] := by
      simp only [lookup, hname, htname, htdata, a.trailer_name, Ne.symm hq, if_false]
    rw [lookup_append hsame] at h'
    exact ⟨fun hr => by rw [hr.unique h]; exact h', fun hr => by rw [hr.unique h']; exact h⟩

/-- Adding a file is exact. -/
theorem cpioAddFile_exact (hmem : ∀ n, n < 2 ^ 31 → mem n = true) (hb : b.data = a.bytes)
    (ha : a.bytes.length < 2 ^ 31) {p : CStr} (hp : p ≠ trailerName)
    (hnew : ∀ e ∈ a.entries, e.name ≠ p) (mode : UInt32) {d : Bytes} {fileData : Option Bytes}
    (hdata : fileData.getD [] = d) (hlt : addedSize a p d < 2 ^ 31) :
    ∃ out : Bytes, (cpioAddFile mem b p fileData d.length mode).Ends (.ok ⟨out, out.length⟩) ∧
      512 ∣ out.length ∧ ∀ b' : Buffer, b'.data = out → Added mem b b' a p mode d := by
  have h1 := le_ceil (show 0 < 4 by decide) (110 + (p.bytes.length + 1))
  have h2 := le_ceil (show 0 < 4 by decide) d.length
  have h3 := le_ceil (show 0 < 512 by omega)
    (total a.entries + (ceil (110 + (p.bytes.length + 1)) 4 + ceil d.length 4) + 124)
  unfold addedSize at hlt
  let f : NewFile := ⟨p, mode, d, hp, by omega, by omega⟩
  have hlen := length_add a f
  refine ⟨(add a f).bytes, cpioAddFile_eq (f := f) hmem hb ha hdata hlt, ?_, ?_⟩
  · rw [hlen]
    exact dvd_ceil _ _
  · exact fun b' hb' => added_of_bytes (f := f) hmem hb ha hb' (hlen ▸ hlt) hnew

/-! ## An archive to compute with -/

def plainEntry (name : CStr) (data : Bytes) (hn : name.bytes.length + 1 < 2 ^ 32)
    (hd : data.length < 2 ^ 32) : Entry :=
  Entry.make (plainHeader (name.bytes.length + 1) data.length) name data (plainHeader_sized _ _)
    rfl rfl rfl hn hd

theorem plainTrailer_name : (plainEntry trailerName [] trailerName_lt nil_lt).name = trailerName :=
  rfl

theorem plainTrailer_data : (plainEntry trailerName [] trailerName_lt nil_lt).data = [] := rfl

/-- An archive of a trailer only. -/
def emptyArchive : Archive where
  entries := []
  trailer := plainEntry trailerName [] trailerName_lt nil_lt
  rest := []
  named := by simp
  trailer_name := plainTrailer_name
  trailer_data := plainTrailer_data

theorem length_emptyArchive : emptyArchive.bytes.length = 124 := by
  rw [Archive.length_bytes, Archive.total_all]
  rfl

def emptyBuffer : Buffer :=
  ⟨emptyArchive.bytes, fun _ => 0, by rw [length_emptyArchive]; decide⟩

theorem cpioAddFile_exact_empty : ∃ out : Bytes,
    (cpioAddFile (fun _ => true) emptyBuffer ⟨[97], by decide⟩ (some [120])
      ([120] : Bytes).length 0x81A4).Ends
      (.ok ⟨out, out.length⟩) ∧ 512 ∣ out.length ∧ ∀ b' : Buffer, b'.data = out →
        Added (fun _ => true) emptyBuffer b' emptyArchive ⟨[97], by decide⟩ 0x81A4 [120] :=
  have hb : emptyBuffer.data = emptyArchive.bytes := rfl
  cpioAddFile_exact (fun _ _ => rfl) hb (by rw [length_emptyArchive]; decide) (by decide)
    (by simp [emptyArchive]) 0x81A4 rfl (by decide)

end LsvmTools.CpioAdd
