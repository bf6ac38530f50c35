import LsvmTools.Lib.ByteString

/-! # Short names

A directory entry holds a name of eight characters and an extension of three, both
filled up with spaces and in upper case. A file name is the bytes before its zero. -/
namespace LsvmTools.Vfat.Shortname
open Lib.ByteString

def dot : UInt8 := 46

def space : UInt8 := 32

/-- `Toupper`. -/
def toupper (c : UInt8) : UInt8 := if 97 ≤ c ∧ c ≤ 122 then c - 32 else c

def upper (b : Bytes) : Bytes := b.map toupper

/-- Fill up to `n` characters. -/
def pad (n : Nat) (b : Bytes) : Bytes := b ++ List.replicate (n - b.length) space

/-- `InternShortname`: the eleven characters of the entry, nothing where the name is
refused. -/
def internShortname (shortname : Bytes) : Option Bytes :=
  if dot ∈ shortname then
    let name := shortname.takeWhile (· ≠ dot)
    let ext := shortname.drop (name.length + 1)
    if 8 < name.length ∨ 3 < ext.length then none
    else some (upper (pad 8 name ++ pad 3 ext))
  else if 11 < shortname.length then none
  else some (upper (pad 11 shortname))

def squeeze (b : Bytes) : Bytes := b.filter (· ≠ space)

/-- `ExternShortname`. -/
def externShortname (shortname : Bytes) : Bytes :=
  let ext := (shortname.drop 8).take 3
  if ext.any (· ≠ space) then squeeze (shortname.take 8) ++ dot :: squeeze ext
  else squeeze (shortname.take 8)

/-! ## The two fields -/

variable {a b r : Bytes}

/-- The part of a name that goes into the first eight characters. -/
def stem (a : Bytes) : Bytes := if dot ∈ a then a.takeWhile (· ≠ dot) else a.take 8

/-- The part that goes into the last three. -/
def ext (a : Bytes) : Bytes :=
  if dot ∈ a then a.drop ((a.takeWhile (· ≠ dot)).length + 1) else a.drop 8

/-- What the name splits into, where there is a dot. -/
theorem split_dot (h : dot ∈ a) : a = stem a ++ dot :: ext a := by
  rw [stem, ext, if_pos h, if_pos h]
  induction a with
  | nil => cases h
  | cons c a ih =>
    by_cases hc : c = dot
    · simp [hc]
    · have hm : dot ∈ a := by
        rcases List.mem_cons.mp h with rfl | hm
        · exact absurd rfl hc
        · exact hm
      rw [List.takeWhile_cons_of_pos (by simpa using hc), List.length_cons, List.drop_succ_cons,
        List.cons_append]
      exact congrArg (c :: ·) (ih hm)

theorem split_no_dot (h : dot ∉ a) : a = stem a ++ ext a := by
  rw [stem, ext, if_neg h, if_neg h, List.take_append_drop]

theorem pad_eleven (h : a.length ≤ 11) : pad 11 a = pad 8 (a.take 8) ++ pad 3 (a.drop 8) := by
  unfold pad
  rcases Nat.le_total a.length 8 with h8 | h8
  · have hr : List.replicate (11 - a.length) space =
        List.replicate (8 - a.length) space ++ List.replicate 3 space := by
      rw [← List.replicate_add]
      congr 1; omega
    rw [List.take_of_length_le h8, List.drop_eq_nil_of_le h8, hr, List.append_assoc]
    rfl
  · have hl : (a.take 8).length = 8 := by
      rw [List.length_take]
      exact Nat.min_eq_left h8
    have hr : 3 - (a.drop 8).length = 11 - a.length := by
      rw [List.length_drop]; omega
    rw [hl, Nat.sub_self, List.replicate_zero, List.append_nil, hr, ← List.append_assoc,
      List.take_append_drop]

/-- An accepted name becomes its two fields. -/
theorem intern_fields (h : internShortname a = some r) :
    (stem a).length ≤ 8 ∧ (ext a).length ≤ 3 ∧ r = upper (pad 8 (stem a) ++ pad 3 (ext a)) := by
  unfold internShortname at h
  dsimp only at h
  split at h
  · rename_i hd
    split at h
    · cases h
    · injection h with h
      rw [stem, ext, if_pos hd, if_pos hd, ← h]
      exact ⟨by omega, by omega, rfl⟩
  · rename_i hd
    split at h
    · cases h
    · injection h with h
      rw [stem, ext, if_neg hd, if_neg hd, ← h, pad_eleven (by omega), List.length_take,
        List.length_drop]
      exact ⟨by omega, by omega, rfl⟩

theorem length_pad {n : Nat} (h : a.length ≤ n) : (pad n a).length = n := by
  unfold pad
  rw [List.length_append, List.length_replicate]; omega

/-- Two accepted names share an entry exactly if they agree in both fields, up to case and
the spaces they are filled up with. -/
theorem intern_eq_iff {r' : Bytes} (ha : internShortname a = some r)
    (hb : internShortname b = some r') :
    r = r' ↔ upper (pad 8 (stem a)) = upper (pad 8 (stem b)) ∧
      upper (pad 3 (ext a)) = upper (pad 3 (ext b)) := by
  obtain ⟨ha8, -, rfl⟩ := intern_fields ha
  obtain ⟨hb8, -, rfl⟩ := intern_fields hb
  have hl : (upper (pad 8 (stem a))).length = (upper (pad 8 (stem b))).length := by
    simp only [upper, List.length_map, length_pad ha8, length_pad hb8]
  unfold upper at hl ⊢
  rw [List.map_append, List.map_append]
  exact ⟨fun h => List.append_inj h hl, fun h => by rw [h.1, h.2]⟩

/-! ## Reading a name back -/

theorem toupper_eq {c d : UInt8} (hd : d.toNat < 65) : toupper c = d ↔ c = d := by
  unfold toupper
  split
  · rename_i hc
    have h1 : (97 : UInt8).toNat ≤ c.toNat := UInt8.le_iff_toNat_le.mp hc.1
    have h2 : (c - 32).toNat = c.toNat - 32 :=
      UInt8.toNat_sub_of_le _ _ (UInt8.le_iff_toNat_le.mpr (Nat.le_trans (by decide) h1))
    have h97 : (97 : UInt8).toNat = 97 := rfl
    constructor
    · intro h
      have := congrArg UInt8.toNat h
      omega
    · intro h
      rw [h] at h1
      omega
  · exact Iff.rfl

theorem toupper_eq_space (c : UInt8) : toupper c = space ↔ c = space := toupper_eq (by decide)

theorem toupper_eq_dot (c : UInt8) : toupper c = dot ↔ c = dot := toupper_eq (by decide)

theorem mem_upper_dot : dot ∈ upper a ↔ dot ∈ a := by
  unfold upper
  rw [List.mem_map]
  exact ⟨fun ⟨c, hc, he⟩ => (toupper_eq_dot c).mp he ▸ hc, fun h => ⟨dot, h, by decide⟩⟩

@[simp] theorem length_upper (a : Bytes) : (upper a).length = a.length := List.length_map _

theorem length_internShortname (h : internShortname a = some r) : r.length = 11 := by
  obtain ⟨h8, h3, rfl⟩ := intern_fields h
  rw [length_upper, List.length_append, length_pad h8, length_pad h3]

theorem upper_append (a b : Bytes) : upper (a ++ b) = upper a ++ upper b := List.map_append

theorem squeeze_append (a b : Bytes) : squeeze (a ++ b) = squeeze a ++ squeeze b :=
  List.filter_append _ _

theorem squeeze_upper (a : Bytes) : squeeze (upper a) = upper (squeeze a) := by
  unfold squeeze upper
  rw [List.filter_map]
  refine congrArg _ (List.filter_congr fun c _ => ?_)
  simp [toupper_eq_space]

theorem squeeze_pad (n : Nat) (a : Bytes) : squeeze (pad n a) = squeeze a := by
  rw [pad, squeeze_append]
  simp [squeeze]

theorem squeeze_of_not_mem (h : space ∉ a) : squeeze a = a := by
  unfold squeeze
  rw [List.filter_eq_self]
  intro c hc
  simpa using fun he : c = space => h (he ▸ hc)

theorem length_squeeze_le (a : Bytes) : (squeeze a).length ≤ a.length := List.length_filter_le _ _

theorem not_mem_of_length (h : a.length ≤ (squeeze a).length) : space ∉ a := by
  intro hm
  have he : squeeze a = a :=
    List.Sublist.eq_of_length (List.filter_sublist) (Nat.le_antisymm (length_squeeze_le a) h)
  rw [← he] at hm
  simp [squeeze] at hm

theorem any_eq (a : Bytes) : a.any (· ≠ space) = !(squeeze a).isEmpty := by
  induction a with
  | nil => rfl
  | cons c a ih =>
    unfold squeeze at ih ⊢
    rw [List.any_cons, ih, List.filter_cons]
    by_cases hc : c = space <;> simp [hc]

/-- What `ExternShortname` makes of the entry of an accepted name. -/
theorem extern_intern (h : internShortname a = some r) :
    externShortname r =
      upper (if (squeeze (ext a)).isEmpty then squeeze (stem a)
        else squeeze (stem a) ++ dot :: squeeze (ext a)) := by
  obtain ⟨h8, h3, rfl⟩ := intern_fields h
  have hs : (upper (pad 8 (stem a))).length = 8 := by rw [length_upper, length_pad h8]
  have he : (upper (pad 3 (ext a))).length = 3 := by rw [length_upper, length_pad h3]
  have hempty : (upper (squeeze (ext a))).isEmpty = (squeeze (ext a)).isEmpty := by
    cases squeeze (ext a) <;> rfl
  unfold externShortname
  dsimp only
  rw [upper_append, take_of_length hs, drop_of_length hs, List.take_of_length_le he.le, any_eq,
    squeeze_upper, squeeze_upper, squeeze_pad, squeeze_pad, hempty]
  cases hc : (squeeze (ext a)).isEmpty with
  | true => rfl
  | false =>
    rw [Bool.not_false, if_pos rfl, if_neg Bool.false_ne_true, upper_append]
    rfl

/-- A name of the 8.3 format: no spaces, something behind the first dot, and no more than
eight characters where there is none. -/
def Regular (a : Bytes) : Prop := space ∉ a ∧ if dot ∈ a then ext a ≠ [] else a.length ≤ 8

/-- An accepted name is read back, in upper case, exactly if it has the 8.3 format. -/
theorem extern_intern_iff (h : internShortname a = some r) :
    externShortname r = upper a ↔ Regular a := by
  rw [extern_intern h, Regular]
  have hls := length_squeeze_le (stem a)
  have hle := length_squeeze_le (ext a)
  by_cases hd : dot ∈ a
  · rw [if_pos hd]
    have ha := split_dot hd
    have hlen := congrArg List.length ha
    rw [List.length_append, List.length_cons] at hlen
    constructor
    · intro he
      have hl := congrArg List.length he
      rw [length_upper, length_upper] at hl
      cases hc : (squeeze (ext a)).isEmpty with
      | true =>
        rw [hc, if_pos rfl] at hl
        omega
      | false =>
        rw [hc, if_neg Bool.false_ne_true, List.length_append, List.length_cons] at hl
        have h1 : space ∉ stem a := not_mem_of_length (by omega)
        have h2 : space ∉ ext a := not_mem_of_length (by omega)
        refine ⟨fun hm => ?_, fun hn => by rw [hn] at hc; cases hc⟩
        rw [ha, List.mem_append, List.mem_cons] at hm
        rcases hm with hm | hm | hm
        · exact h1 hm
        · exact absurd hm (by decide)
        · exact h2 hm
    · rintro ⟨hsp, hne⟩
      have h1 : space ∉ stem a := fun hm => hsp (by rw [ha]; exact List.mem_append_left _ hm)
      have h2 : space ∉ ext a := fun hm => hsp (by
        rw [ha]; exact List.mem_append_right _ (List.mem_cons_of_mem _ hm))
      rw [squeeze_of_not_mem h1, squeeze_of_not_mem h2,
        if_neg (by rwa [List.isEmpty_iff]), ← ha]
  · rw [if_neg hd]
    have ha := split_no_dot hd
    have hlen := congrArg List.length ha
    rw [List.length_append] at hlen
    constructor
    · intro he
      cases hc : (squeeze (ext a)).isEmpty with
      | true =>
        rw [hc, if_pos rfl] at he
        have hl := congrArg List.length he
        rw [length_upper, length_upper] at hl
        have h1 : space ∉ stem a := not_mem_of_length (by omega)
        have h2 : ext a = [] := List.length_eq_zero_iff.mp (by omega)
        have h8 := (intern_fields h).1
        rw [h2, List.length_nil] at hlen
        rw [h2, List.append_nil] at ha
        exact ⟨by rw [ha]; exact h1, by omega⟩
      | false =>
        -- the dot that is put in is not in the name
        rw [hc, if_neg Bool.false_ne_true] at he
        refine absurd (mem_upper_dot.mp ?_) hd
        rw [← he]
        exact mem_upper_dot.mpr (List.mem_append_right _ List.mem_cons_self)
    · rintro ⟨hsp, h8⟩
      have h1 : stem a = a := by rw [stem, if_neg hd, List.take_of_length_le h8]
      have h2 : ext a = [] := by rw [ext, if_neg hd, List.drop_eq_nil_of_le h8]
      rw [h1, h2, squeeze_of_not_mem hsp]
      rfl

/-- Two accepted names are read back, in upper case, and share an entry only if they are
equal up to case, exactly if both have the 8.3 format. -/
theorem faithful_iff {ra rb : Bytes} (ha : internShortname a = some ra)
    (hb : internShortname b = some rb) :
    (externShortname ra = upper a ∧ externShortname rb = upper b ∧
      (ra = rb → upper a = upper b)) ↔ Regular a ∧ Regular b := by
  constructor
  · rintro ⟨h1, h2, -⟩
    exact ⟨(extern_intern_iff ha).mp h1, (extern_intern_iff hb).mp h2⟩
  · rintro ⟨h1, h2⟩
    have e1 := (extern_intern_iff ha).mpr h1
    have e2 := (extern_intern_iff hb).mpr h2
    exact ⟨e1, e2, fun he => by rw [← e1, ← e2, he]⟩

/-- `boot` and `grub.cfg`. -/
theorem faithful_boot_grub :
    externShortname (upper (pad 8 [98, 111, 111, 116] ++ pad 3 [])) = upper [98, 111, 111, 116] := by
  have ha : internShortname [98, 111, 111, 116] =
      some (upper (pad 8 [98, 111, 111, 116] ++ pad 3 [])) := by decide
  have hb : internShortname [103, 114, 117, 98, 46, 99, 102, 103] =
      some (upper (pad 8 [103, 114, 117, 98] ++ pad 3 [99, 102, 103])) := by decide
  exact ((faithful_iff ha hb).mpr ⟨⟨by decide, by decide⟩, by decide, by decide⟩).1

/-- `ABCDEFGH.IJK` and `ABCDEFGHIJK` share an entry. -/
theorem eleven_collides : ¬ ∀ a b ra rb : Bytes, a ≠ [dot] → a ≠ [dot, dot] → b ≠ [dot] →
    b ≠ [dot, dot] → internShortname a = some ra → internShortname b = some rb →
    externShortname ra = upper a ∧ externShortname rb = upper b ∧
      (ra = rb → upper a = upper b) := by
  intro h
  have h1 := h [65, 66, 67, 68, 69, 70, 71, 72, 46, 73, 74, 75]
    [65, 66, 67, 68, 69, 70, 71, 72, 73, 74, 75] [65, 66, 67, 68, 69, 70, 71, 72, 73, 74, 75]
    [65, 66, 67, 68, 69, 70, 71, 72, 73, 74, 75] (by decide) (by decide) (by decide) (by decide)
    (by decide) (by decide)
  exact absurd (h1.2.2 rfl) (by decide)

end LsvmTools.Vfat.Shortname
