import LsvmTools.PeLoader

/-! # The memory of a loaded image

What `_FixupImage` leaves behind where it succeeds: the headers, over them what the sections have,
and at each relocation what was there, moved by how far the image is from where it was linked for.
An image of which no section is taken for the relocations is not moved at all. -/
namespace LsvmTools.PeMemory
open Lib.ByteString Lib.Program Lib.Loop Lib.Precondition Lib.Rounds PeLoader

/-! ## The image as it is laid out -/

section Layout

variable (image : Bytes)

/-- The headers of the sections. -/
def sections : List Nat := (List.range (numberOfSections image)).map (sectionHeader image)

/-- What a section puts at `x`: what the file has of it, and zeros up to its end. -/
def sectionByte (x s : Nat) : Option UInt8 :=
  if discardable image s = true ∨ x < virtualAddress image s ∨
    virtualAddress image s + virtualSize image s ≤ x then none
  else if x < virtualAddress image s + baseSize image s then
    some (byteAt image (pointerToRawData image s + (x - virtualAddress image s)))
  else some 0

/-- What the last one of these sections puts at `x`, over `b`. -/
def covered (ss : List Nat) (x : Nat) (b : UInt8) : UInt8 :=
  (ss.reverse.findSome? (sectionByte image x)).getD b

/-- The byte at `x` before the relocations. -/
def laidOut (x : Nat) : UInt8 :=
  covered image (sections image) x (if x < sizeOfHeaders image then byteAt image x else 0)

end Layout

section Copying

variable {image : Bytes} {size s x : Nat}

theorem store_ok {m m' : NewImage size} {off : Nat} {b : Bytes} (h : m.store off b = .ok m') :
    off + b.length ≤ size ∧ ∀ x, byteAt m'.bytes x =
      if off ≤ x ∧ x < off + b.length then byteAt b (x - off) else byteAt m.bytes x := by
  unfold NewImage.store at h
  split at h
  · rename_i hin
    cases h
    exact ⟨hin, byteAt_splice (by rw [m.length_eq]; exact hin)⟩
  · cases h

theorem copy_ok {m m' : NewImage size} {off src n : Nat} (h : m.copy image off src n = .ok m') :
    ∀ x, byteAt m'.bytes x =
      if off ≤ x ∧ x < off + n then byteAt image (src + (x - off)) else byteAt m.bytes x := by
  obtain ⟨_, hin, h⟩ := Out.bind_eq_ok.mp h
  have hin : src + n ≤ image.length := by
    unfold demand at hin
    split at hin
    · assumption
    · cases hin
  have hlen : ((image.drop src).take n).length = n := by
    rw [List.length_take, List.length_drop]
    omega
  intro x
  rw [(store_ok h).2 x, hlen]
  split
  · rename_i hx
    rw [byteAt_take, if_pos (by omega), byteAt_drop]
  · rfl

theorem copyData_ok {m m' : Loading image} (h : copyData image s m = .ok m') (x : Nat) :
    byteAt m'.bytes x =
      if virtualAddress image s ≤ x ∧ x < virtualAddress image s + baseSize image s then
        byteAt image (pointerToRawData image s + (x - virtualAddress image s))
      else byteAt m.bytes x := by
  unfold copyData at h
  split at h
  · obtain ⟨-, -, h⟩ := Out.bind_eq_ok.mp h
    exact copy_ok h x
  · rename_i hraw
    cases h
    have hbase : baseSize image s ≤ sizeOfRawData image s := Nat.min_le_right _ _
    rw [if_neg (by omega)]

theorem clearRest_ok {m m' : Loading image} (h : clearRest image s m = .ok m') (x : Nat) :
    byteAt m'.bytes x = if virtualAddress image s + baseSize image s ≤ x ∧
        x < virtualAddress image s + virtualSize image s then 0
      else byteAt m.bytes x := by
  have hbase : baseSize image s ≤ virtualSize image s := baseSize_le
  unfold clearRest at h
  dsimp only at h
  split at h
  · obtain ⟨-, -, h⟩ := Out.bind_eq_ok.mp h
    have hstore := (store_ok h).2 x
    rw [List.length_replicate, byteAt_replicate, Nat.add_assoc, Nat.add_sub_cancel' hbase] at hstore
    exact hstore
  · cases h
    rw [if_neg (by omega)]

theorem copySection_ok {m m' : Loading image} (h : copySection image s m = .ok m') (x : Nat) :
    byteAt m'.bytes x = (sectionByte image x s).getD (byteAt m.bytes x) := by
  unfold copySection at h
  unfold sectionByte
  split at h
  · rename_i hdiscard
    cases h
    rw [if_pos (.inl hdiscard)]
    rfl
  · rename_i hdiscard
    have hbase : baseSize image s ≤ virtualSize image s := baseSize_le
    obtain ⟨m1, h1, h2⟩ := Out.bind_eq_ok.mp h
    rw [clearRest_ok h2 x, copyData_ok h1 x]
    by_cases hout : x < virtualAddress image s ∨ virtualAddress image s + virtualSize image s ≤ x
    · rw [if_neg (by omega), if_neg (by omega), if_pos (.inr hout)]
      rfl
    · have hin : ¬ (discardable image s = true ∨ x < virtualAddress image s ∨
          virtualAddress image s + virtualSize image s ≤ x) := fun hno => hno.elim hdiscard hout
      by_cases hdata : x < virtualAddress image s + baseSize image s
      · rw [if_neg (by omega), if_pos (by omega), if_neg hin, if_pos hdata]
        rfl
      · rw [if_pos (by omega), if_neg hin, if_neg hdata]
        rfl

theorem covered_cons (ss : List Nat) (b : UInt8) :
    covered image (s :: ss) x b = covered image ss x ((sectionByte image x s).getD b) := by
  unfold covered
  rw [List.reverse_cons, List.findSome?_append, List.findSome?_singleton]
  cases ss.reverse.findSome? (sectionByte image x) <;> rfl

theorem copySections_ok {n : Nat} {reloc found : Option Nat} {m m' : Loading image}
    (h : copySections image n s reloc m = .ok (some (found, m'))) (x : Nat) :
    byteAt m'.bytes x =
      covered image ((List.range n).map fun i => s + 40 * i) x (byteAt m.bytes x) := by
  induction n generalizing s reloc m with
  | zero =>
    cases h
    rfl
  | succ n ih =>
    obtain ⟨-, -, h⟩ := Out.bind_eq_ok.mp h
    obtain ⟨-, -, h⟩ := Out.bind_eq_ok.mp h
    obtain ⟨-, -, h⟩ := Out.bind_eq_ok.mp h
    obtain ⟨-, -, h⟩ := Out.bind_eq_ok.mp h
    split at h
    · cases h
    · obtain ⟨m1, h1, h⟩ := Out.bind_eq_ok.mp h
      have hsucc : ((fun i => s + 40 * i) ∘ Nat.succ) = fun i => s + 40 + 40 * i :=
        funext fun i => by simp only [Function.comp]; omega
      rw [List.range_succ_eq_map, List.map_cons, List.map_map, hsucc, Nat.mul_zero, Nat.add_zero,
        covered_cons, ← copySection_ok h1 x, ih h]

end Copying

/-! ## Relocations -/

/-- A word of a block of relocations: its tag, and where in the new image it applies. -/
structure Relocation where
  tag : Nat
  target : Nat

/-- How many bytes a relocation changes. -/
def width : Nat → Nat
  | 1 | 2 => 2
  | 3 => 4
  | 10 => 8
  | _ => 0

/-- The number that a relocation changes. -/
def field (tag : Nat) (b : Bytes) (off : Nat) : Nat :=
  match tag with
  | 1 | 2 => le16 b off
  | 3 => le32 b off
  | 10 => le64 b off
  | _ => 0

/-- What it is changed to where the image is `offset` away from where it was linked for. -/
def moved (offset tag v : Nat) : Nat :=
  match tag with
  | 1 => u16 (v + u32 offset / 2 ^ 16)
  | 2 => u16 (v + offset)
  | 3 => u32 (v + offset)
  | 10 => u64 (v + offset)
  | _ => v

namespace Relocation

def Covers (r : Relocation) (x : Nat) : Prop := r.target ≤ x ∧ x < r.target + width r.tag

/-- The two change no byte in common. -/
def Apart (r r' : Relocation) : Prop := ∀ x, r.Covers x → ¬ r'.Covers x

end Relocation

section Tables

variable (image : Bytes)

/-- The relocations of the block at `p`. -/
def blockRelocs (p : Nat) : List Relocation := (List.range (blockWords image p)).map fun i =>
  ⟨le16 image (p + 8 + 2 * i) / 2 ^ 12, le32 image p + le16 image (p + 8 + 2 * i) % 2 ^ 12⟩

/-- The relocations of the blocks from `p` on. -/
inductive Blocks (pend : Nat) : Nat → List Relocation → Prop
  | done {p : Nat} (h : pend ≤ p) : Blocks pend p []
  | block {p : Nat} {rs : List Relocation} (h : p < pend)
      (rest : Blocks pend (p + sizeOfBlock image p) rs) : Blocks pend p (blockRelocs image p ++ rs)

end Tables

section Applying

variable {image : Bytes} {size offset : Nat}

theorem le64_congr {a b : Bytes} {i j : Nat} (h : ∀ k, k < 8 → byteAt a (i + k) = byteAt b (j + k)) :
    le64 a i = le64 b j := by
  have h1 : le32 a i = le32 b j := le32_congr fun k hk => h k (by omega)
  have h2 : le32 a (i + 4) = le32 b (j + 4) := le32_congr fun k hk => by
    rw [Nat.add_assoc, Nat.add_assoc]
    exact h (4 + k) (by omega)
  rw [le64, le64, h1, h2]

theorem le64_enc64 (v : Nat) : le64 (enc64 v) 0 = u64 v := by
  have h1 : le32 (enc64 v) 0 = u32 v := le32_enc32_append v _
  have h2 : le32 (enc64 v) (0 + 4) = u32 (v / 2 ^ 32) := by
    rw [enc64, le32_skip, le32_enc32]
  rw [le64, h1, h2]
  unfold u32 u64
  omega

theorem field_congr {a b : Bytes} {tag i : Nat}
    (h : ∀ x, i ≤ x → x < i + width tag → byteAt a x = byteAt b x) :
    field tag a i = field tag b i := by
  unfold field width at *
  split at h
  · exact le16_congr fun k hk => h (i + k) (by omega) (by omega)
  · exact le16_congr fun k hk => h (i + k) (by omega) (by omega)
  · exact le32_congr fun k hk => h (i + k) (by omega) (by omega)
  · exact le64_congr fun k hk => h (i + k) (by omega) (by omega)
  · rfl

section Adjust

variable {m m' : NewImage size} {off n : Nat} {f : Bytes → Bytes}

theorem adjust_ok (hf : ∀ b, (f b).length = n) (h : m.adjust off n f = .ok m') (x : Nat) :
    byteAt m'.bytes x = if off ≤ x ∧ x < off + n then
      byteAt (f ((m.bytes.drop off).take n)) (x - off) else byteAt m.bytes x := by
  obtain ⟨_, -, h⟩ := Out.bind_eq_ok.mp h
  obtain ⟨_, -, h⟩ := Out.bind_eq_ok.mp h
  have hstore := (store_ok h).2 x
  rw [hf] at hstore
  exact hstore

theorem adjust_kept (hf : ∀ b, (f b).length = n) (h : m.adjust off n f = .ok m') {x : Nat}
    (hx : ¬ (off ≤ x ∧ x < off + n)) : byteAt m'.bytes x = byteAt m.bytes x := by
  rw [adjust_ok hf h, if_neg hx]

theorem adjust_changed (hf : ∀ b, (f b).length = n) (h : m.adjust off n f = .ok m') {k : Nat}
    (hk : k < n) :
    byteAt m'.bytes (off + k) = byteAt (f ((m.bytes.drop off).take n)) (0 + k) := by
  rw [adjust_ok hf h, if_pos (by omega), Nat.add_sub_cancel_left, Nat.zero_add]

theorem byteAt_slice {b : Bytes} {k : Nat} (hk : k < n) :
    byteAt ((b.drop off).take n) (0 + k) = byteAt b (off + k) := by
  rw [byteAt_take, if_pos (by omega), byteAt_drop, Nat.zero_add]

end Adjust

/-- One relocation changes its number and nothing else. -/
theorem relocate_ok {m m' : NewImage size} {tag target : Nat}
    (h : relocate offset tag target m = .ok m') :
    (∀ x, ¬ (target ≤ x ∧ x < target + width tag) → byteAt m'.bytes x = byteAt m.bytes x) ∧
      field tag m'.bytes target = moved offset tag (field tag m.bytes target) := by
  unfold relocate at h
  split at h
  · cases h
    exact ⟨fun _ _ => rfl, rfl⟩
  · have hlen : ∀ b : Bytes, (enc16 (le16 b 0 + u32 offset / 2 ^ 16)).length = 2 := fun _ => rfl
    refine ⟨fun x hx => adjust_kept hlen h hx, ?_⟩
    have hnew : le16 m'.bytes target = _ := le16_congr fun k hk => adjust_changed hlen h hk
    rw [le16_enc16, le16_congr fun k hk => byteAt_slice hk] at hnew
    exact hnew
  · have hlen : ∀ b : Bytes, (enc16 (le16 b 0 + offset)).length = 2 := fun _ => rfl
    refine ⟨fun x hx => adjust_kept hlen h hx, ?_⟩
    have hnew : le16 m'.bytes target = _ := le16_congr fun k hk => adjust_changed hlen h hk
    rw [le16_enc16, le16_congr fun k hk => byteAt_slice hk] at hnew
    exact hnew
  · have hlen : ∀ b : Bytes, (enc32 (le32 b 0 + offset)).length = 4 := fun _ => rfl
    refine ⟨fun x hx => adjust_kept hlen h hx, ?_⟩
    have hnew : le32 m'.bytes target = _ := le32_congr fun k hk => adjust_changed hlen h hk
    rw [le32_enc32, le32_congr fun k hk => byteAt_slice hk] at hnew
    exact hnew
  · have hlen : ∀ b : Bytes, (enc64 (le64 b 0 + offset)).length = 8 := fun _ => rfl
    refine ⟨fun x hx => adjust_kept hlen h hx, ?_⟩
    have hnew : le64 m'.bytes target = _ := le64_congr fun k hk => adjust_changed hlen h hk
    rw [le64_enc64, le64_congr fun k hk => byteAt_slice hk] at hnew
    exact hnew
  · cases h

/-- The relocations are applied one after another. -/
inductive Applied (offset : Nat) : List Relocation → NewImage size → NewImage size → Prop
  | nil (m : NewImage size) : Applied offset [] m m
  | cons {r : Relocation} {rs : List Relocation} {m m1 m' : NewImage size}
      (h : relocate offset r.tag r.target m = .ok m1) (rest : Applied offset rs m1 m') :
      Applied offset (r :: rs) m m'

theorem Applied.append {rs rs' : List Relocation} {m m1 m' : NewImage size}
    (h : Applied offset rs m m1) (h' : Applied offset rs' m1 m') :
    Applied offset (rs ++ rs') m m' := by
  induction h with
  | nil => exact h'
  | cons h _ ih => exact .cons h (ih h')

theorem Applied.kept {rs : List Relocation} {m m' : NewImage size} (h : Applied offset rs m m')
    {x : Nat} (hx : ∀ r ∈ rs, ¬ r.Covers x) : byteAt m'.bytes x = byteAt m.bytes x := by
  induction h with
  | nil => rfl
  | cons h _ ih =>
    rw [ih fun r hr => hx r (List.mem_cons_of_mem _ hr)]
    exact (relocate_ok h).1 x (hx _ List.mem_cons_self)

theorem Applied.field_kept {rs : List Relocation} {m m' : NewImage size}
    (h : Applied offset rs m m') {r : Relocation} (hr : ∀ r' ∈ rs, r'.Apart r) :
    field r.tag m'.bytes r.target = field r.tag m.bytes r.target :=
  field_congr fun x h1 h2 => h.kept fun r' hr' hcovers => hr r' hr' x hcovers ⟨h1, h2⟩

/-- A relocation that shares no byte with the others moves what was there in the beginning. -/
theorem Applied.moves {pre post : List Relocation} {r : Relocation} {m m' : NewImage size}
    (h : Applied offset (pre ++ r :: post) m m') (hapart : ∀ r' ∈ pre ++ post, r'.Apart r) :
    field r.tag m'.bytes r.target = moved offset r.tag (field r.tag m.bytes r.target) := by
  induction pre generalizing m with
  | nil =>
    cases h with
    | cons h rest => rw [rest.field_kept hapart, (relocate_ok h).2]
  | cons r' pre ih =>
    cases h with
    | cons h rest =>
      rw [ih rest fun r' hr => hapart r' (List.mem_cons_of_mem _ hr)]
      have hone : Applied offset [r'] m _ := .cons h (.nil _)
      rw [hone.field_kept fun r'' hr => ?_]
      rw [List.mem_singleton.mp hr]
      exact hapart r' List.mem_cons_self

theorem relocateWords_ok {base n q : Nat} {m m' : NewImage size}
    (h : relocateWords image offset base n q m = .ok m') :
    Applied offset ((List.range n).map fun i =>
      ⟨le16 image (q + 2 * i) / 2 ^ 12, base + le16 image (q + 2 * i) % 2 ^ 12⟩) m m' := by
  induction n generalizing q m with
  | zero =>
    cases h
    exact .nil _
  | succ n ih =>
    obtain ⟨_, -, h⟩ := Out.bind_eq_ok.mp h
    obtain ⟨m1, h1, h⟩ := Out.bind_eq_ok.mp h
    rw [List.range_succ_eq_map, List.map_cons, List.map_map]
    refine .cons h1 ?_
    have hrest := ih h
    have hq : ∀ i, q + 2 + 2 * i = q + 2 * (i + 1) := fun i => by omega
    simp only [hq] at hrest
    exact hrest

theorem round_next {dirSize pend : Nat} {t u : Nat × NewImage size}
    (h : relocRound image offset dirSize pend t = .ok (.next u)) :
    t.1 < pend ∧ u.1 = t.1 + sizeOfBlock image t.1 ∧
      Applied offset (blockRelocs image t.1) t.2 u.2 := by
  unfold relocRound at h
  split at h
  · rename_i hp
    obtain ⟨_, -, h⟩ := Out.bind_eq_ok.mp h
    obtain ⟨_, -, h⟩ := Out.bind_eq_ok.mp h
    obtain ⟨_, -, h⟩ := Out.bind_eq_ok.mp h
    obtain ⟨m, hm, h⟩ := Out.bind_eq_ok.mp h
    cases h
    exact ⟨hp, rfl, relocateWords_ok hm⟩
  · cases h

theorem round_done {dirSize pend : Nat} {t : Nat × NewImage size} {m : NewImage size}
    (h : relocRound image offset dirSize pend t = .ok (.done m)) : pend ≤ t.1 ∧ m = t.2 := by
  unfold relocRound at h
  split at h
  · obtain ⟨_, -, h⟩ := Out.bind_eq_ok.mp h
    obtain ⟨_, -, h⟩ := Out.bind_eq_ok.mp h
    obtain ⟨_, -, h⟩ := Out.bind_eq_ok.mp h
    obtain ⟨m, hm, h⟩ := Out.bind_eq_ok.mp h
    cases h
  · rename_i hp
    cases h
    exact ⟨Nat.le_of_not_lt hp, rfl⟩

/-- The loop applies the relocations of all the blocks. -/
theorem loop_applies {dirSize pend : Nat} {t : Nat × NewImage size} {m' : NewImage size}
    (h : (loop (relocRound image offset dirSize pend) t).Ends (.ok m')) :
    ∃ rs, Blocks image pend t.1 rs ∧ Applied offset rs t.2 m' := by
  obtain ⟨u, hcomes, hdone⟩ := ends_ok_iff.mp h
  induction hcomes using Relation.ReflTransGen.head_induction_on with
  | refl =>
    obtain ⟨hend, rfl⟩ := round_done hdone
    exact ⟨[], .done hend, .nil _⟩
  | head hnext _ ih =>
    obtain ⟨hp, hpos, happlied⟩ := round_next hnext
    obtain ⟨rs, hblocks, hrest⟩ := ih ((ends_of_comes (.single hnext)).mp h)
    rw [hpos] at hblocks
    exact ⟨_, .block hp hblocks, happlied.append hrest⟩

end Applying

/-! ## The image in memory -/

section Loaded

variable (image : Bytes)

/-- The new image before the relocations. -/
def laid : Bytes := readMem (laidOut image) 0 (sizeOfImage image)

/-- The relocations that `_FixupImage` applies to an image at `address`: those of the relocation
section, or none where there is none, the directory is empty or the image stays where it is. -/
def Relocations (address : UInt64) (rs : List Relocation) : Prop :=
  (∃ k, Relocated image k ∧ 0 < relocSize image ∧ relocOffset image address ≠ 0 ∧
    Blocks (withBase image address)
      (pointerToRawData (withBase image address) (sectionHeader image k) +
        virtualSize (withBase image address) (sectionHeader image k))
      (pointerToRawData (withBase image address) (sectionHeader image k)) rs) ∨
  (rs = [] ∧ (relocSize image = 0 ∨ relocOffset image address = 0 ∨
    ∀ i < numberOfSections image, isRelocSection image (sectionHeader image i) = false))

/-- The image is laid out, and each of the relocations is applied to it once. -/
structure LoadedWith (li : LoadedImage) (rs : List Relocation) : Prop where
  size : li.bytes.length = sizeOfImage image
  entry : li.entryPoint = li.address.toNat + addressOfEntryPoint image
  kept : ∀ x < sizeOfImage image, (∀ r ∈ rs, ¬ r.Covers x) →
    byteAt li.bytes x = laidOut image x
  moves : ∀ pre r post, rs = pre ++ r :: post → (∀ r' ∈ pre ++ post, r'.Apart r) →
    field r.tag li.bytes r.target =
      moved (relocOffset image li.address) r.tag (field r.tag (laid image) r.target)

end Loaded

section Fixup

variable {image : Bytes} {imageSize : Nat} {calloc : Option UInt64} {address : UInt64}
  {li : LoadedImage} {reloc : Option Nat} {m m' : Loading image}

/-- No section is taken for the relocations where none is found. -/
theorem not_reloc_of_finds {n s : Nat} (h : Finds image n s none none) :
    ∀ i < n, isRelocSection image (s + 40 * i) = false := by
  induction n generalizing s with
  | zero => exact fun i hi => absurd hi (Nat.not_lt_zero i)
  | succ n ih =>
    obtain ⟨-, -, h⟩ := h
    cases hreloc : isRelocSection image s with
    | true =>
      rw [hreloc, if_pos rfl] at h
      cases (finds_some_iff.mp h).1
    | false =>
      rw [hreloc, if_neg Bool.false_ne_true] at h
      intro i hi
      cases i with
      | zero => exact hreloc
      | succ i =>
        rw [show s + 40 * (i + 1) = s + 40 + 40 * i by omega]
        exact ih h i (Nat.lt_of_succ_lt_succ hi)

theorem copyTo_ok {address' : UInt64} (himage : sizeOfImage image ≤ image.length)
    (htable : sectionHeader image 0 + 40 * numberOfSections image ≤ image.length)
    (h : copyTo image address = .ok (some (address', reloc, m))) :
    address' = address ∧ Finds image (numberOfSections image) (sectionHeader image 0) none reloc ∧
      ∀ x, byteAt m.bytes x = laidOut image x := by
  obtain ⟨_, -, h⟩ := Out.bind_eq_ok.mp h
  obtain ⟨m0, hheaders, h⟩ := Out.bind_eq_ok.mp h
  obtain ⟨_, -, h⟩ := Out.bind_eq_ok.mp h
  obtain ⟨copied, hcopied, h⟩ := Out.bind_eq_ok.mp h
  cases copied with
  | none => cases h
  | some c =>
    obtain ⟨found, m1⟩ := c
    unfold keepCopy at h
    dsimp only at h
    split at h
    · cases h
    · cases h
      have hfinds := (@meets_copySections image (numberOfSections image) (sectionHeader image 0) m0
        none (Finds image (numberOfSections image) (sectionHeader image 0) none) himage htable).mpr
        fun _ h => h
      refine ⟨rfl, hfinds.ok _ hcopied _ rfl, fun x => ?_⟩
      rw [copySections_ok hcopied x, copy_ok hheaders x, Nat.zero_add, Nat.sub_zero, Nat.zero_add]
      unfold laidOut sections NewImage.zero
      simp only [Nat.zero_le, true_and, byteAt_replicate]
      rfl

theorem setEntryPoint_ok {loaded : Option LoadedImage}
    (h : setEntryPoint image address m = .ok loaded) :
    loaded = some ⟨address, m.bytes, address.toNat + addressOfEntryPoint image⟩ := by
  obtain ⟨_, -, h⟩ := Out.bind_eq_ok.mp h
  obtain ⟨_, -, h⟩ := Out.bind_eq_ok.mp h
  cases h
  rfl

theorem applyRelocations_ok {s : Nat} (h : (applyRelocations image address s m).Ends (.ok m')) :
    (relocOffset image address = 0 ∧ m' = m) ∨ (relocOffset image address ≠ 0 ∧ ∃ rs,
      Blocks (withBase image address)
        (pointerToRawData (withBase image address) s + virtualSize (withBase image address) s)
        (pointerToRawData (withBase image address) s) rs ∧
      Applied (relocOffset image address) rs m m') := by
  unfold applyRelocations at h
  obtain ⟨_, -, h⟩ := Exec.ends_bind_ok.mp h
  obtain ⟨_, -, h⟩ := Exec.ends_bind_ok.mp h
  obtain ⟨_, -, h⟩ := Exec.ends_bind_ok.mp h
  split at h
  · rename_i h0
    cases Exec.ends_pure.mp h
    exact .inl ⟨h0, rfl⟩
  · rename_i h0
    exact .inr ⟨h0, loop_applies h⟩

theorem loaded_with {rs : List Relocation} (hlaid : ∀ x, byteAt m.bytes x = laidOut image x)
    (h : Applied (relocOffset image address) rs m m') :
    LoadedWith image ⟨address, m'.bytes, address.toNat + addressOfEntryPoint image⟩ rs where
  size := m'.length_eq
  entry := rfl
  kept x _ hx := by rw [h.kept hx, hlaid]
  moves pre r post hrs hapart := by
    subst hrs
    have hbytes : m.bytes = laid image := by
      refine ext_byteAt (by rw [m.length_eq, laid, length_readMem]) fun i hi => ?_
      rw [m.length_eq] at hi
      rw [hlaid, laid, byteAt_readMem hi, Nat.zero_add]
    rw [← hbytes]
    exact h.moves hapart

theorem plausible_of_ok (hsize : imageSize ≤ image.length)
    (h : getHeaders image imageSize = .ok ()) : Plausible image imageSize := by
  by_contra hno
  have hmeets : Meets (getHeaders image imageSize) (fun _ => False) :=
    (meets_getHeaders hsize).mpr fun hp => absurd hp hno
  exact hmeets.ok () h

theorem copyImage_ok (hsize : imageSize ≤ image.length)
    (h : copyImage image imageSize calloc = .ok (some (address, reloc, m))) :
    calloc = some address ∧
      Finds image (numberOfSections image) (sectionHeader image 0) none reloc ∧
        ∀ x, byteAt m.bytes x = laidOut image x := by
  obtain ⟨⟨⟩, hheaders, h⟩ := Out.bind_eq_ok.mp h
  have hp := plausible_of_ok hsize hheaders
  cases calloc with
  | none => cases h
  | some address' =>
    obtain ⟨rfl, hfinds, hlaid⟩ := copyTo_ok (Nat.le_trans hp.size hsize)
      (Nat.le_trans hp.sections hsize) h
    exact ⟨rfl, hfinds, hlaid⟩

/-- What is loaded is the image as it is laid out, with the relocations of the relocation section
applied once each where there is one, and with none applied where there is not. -/
theorem image_loaded (h : (fixupImage image calloc).Ends (.ok (some li))) :
    calloc = some li.address ∧ ∃ rs, Relocations image li.address rs ∧ LoadedWith image li rs := by
  obtain ⟨copied, hcopied, h⟩ := Exec.ends_bind_ok.mp h
  have hcopied := (Exec.ends_of.mp hcopied).symm
  cases copied with
  | none => cases Exec.ends_pure.mp h
  | some c =>
    obtain ⟨address, reloc, m⟩ := c
    obtain ⟨hcalloc, hfinds, hlaid⟩ := copyImage_ok (u32_le _) hcopied
    cases reloc with
    | none =>
      cases setEntryPoint_ok (Exec.ends_of.mp h).symm
      exact ⟨hcalloc, [], .inr ⟨rfl, .inr (.inr (not_reloc_of_finds hfinds))⟩,
        loaded_with hlaid (.nil m)⟩
    | some s =>
      obtain ⟨k, hk, rfl⟩ := relocated_of_finds hfinds
      replace h : (if 0 < relocSize image then
          applyRelocations image address (sectionHeader image k) m >>= fun m' =>
            (setEntryPoint image address m' : Exec EfiStatus (Option LoadedImage))
        else setEntryPoint image address m).Ends (.ok (some li)) := h
      by_cases hpos : 0 < relocSize image
      · rw [if_pos hpos] at h
        obtain ⟨m', hm', h⟩ := Exec.ends_bind_ok.mp h
        cases setEntryPoint_ok (Exec.ends_of.mp h).symm
        obtain ⟨h0, rfl⟩ | ⟨h0, rs, hblocks, happlied⟩ := applyRelocations_ok hm'
        · exact ⟨hcalloc, [], .inr ⟨rfl, .inr (.inl h0)⟩, loaded_with hlaid (.nil _)⟩
        · exact ⟨hcalloc, rs, .inl ⟨k, hk, hpos, h0, hblocks⟩, loaded_with hlaid happlied⟩
      · rw [if_neg hpos] at h
        cases setEntryPoint_ok (Exec.ends_of.mp h).symm
        exact ⟨hcalloc, [], .inr ⟨rfl, .inl (by omega)⟩, loaded_with hlaid (.nil m)⟩

end Fixup

/-! ## An image with one relocation -/

/-- An image whose only section has a relocation of the eight bytes behind it. -/
def relocatable : Bytes :=
  [0x4D, 0x5A] ++ List.replicate 58 0 ++ enc32 64 ++
    (enc32 ntSignature ++ enc16 machineX64 ++ [1, 0] ++ List.replicate 12 0 ++ [240, 0, 0, 0]) ++
    (enc16 optionalHdr64Magic ++ List.replicate 14 0 ++ enc32 380 ++ List.replicate 16 0 ++
      enc32 1 ++ List.replicate 16 0 ++ enc32 388 ++ enc32 368 ++ List.replicate 44 0) ++
    (enc32 16 ++ List.replicate 40 0 ++ enc32 368 ++ enc32 12 ++ List.replicate 80 0) ++
    (relocName ++ enc32 12 ++ enc32 368 ++ enc32 12 ++ enc32 368 ++ List.replicate 16 0) ++
    (enc32 0 ++ enc32 12 ++ [0x7C, 0xA1, 0, 0]) ++ [1, 2, 3, 4, 5, 6, 7, 8]

/-- Whether something is loaded in so many steps. -/
def loads (image : Bytes) (calloc : Option UInt64) (n : Nat) : Bool :=
  match (fixupImage image calloc).run n with
  | some (.ok (some _)) => true
  | _ => false

theorem ends_of_loads {image : Bytes} {calloc : Option UInt64} {n : Nat}
    (h : loads image calloc n = true) :
    ∃ li, (fixupImage image calloc).Ends (.ok (some li)) := by
  unfold loads at h
  split at h
  · rename_i li hrun
    exact ⟨li, n, hrun⟩
  · cases h

theorem image_loaded_relocatable : ∃ li : LoadedImage, li.address = 0x10000 ∧
    ∃ rs, Relocations relocatable li.address rs ∧ LoadedWith relocatable li rs := by
  obtain ⟨li, hli⟩ := ends_of_loads
    (show loads relocatable (some 0x10000) 3 = true by decide +kernel)
  obtain ⟨haddress, hrs⟩ := image_loaded hli
  exact ⟨li, (Option.some.inj haddress).symm, hrs⟩

end LsvmTools.PeMemory
