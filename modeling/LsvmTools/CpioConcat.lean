import LsvmTools.CpioSplit

/-! # Archives one after another

Archives that are padded to whole blocks, with something else after them or not, are
split into just what they are made of. -/
namespace LsvmTools.CpioConcat
open Lib.ByteString Lib.Program Lib.Loop Strings Cpio CpioFormat CpioAdd CpioSafe CpioSplit

variable {b : Buffer} {d : Nat} {a : Archive} {plain : List Archive} {c : Bytes}

/-- The archive has no more after its trailer than what makes up a block. -/
def Padded (a : Archive) : Prop := a.bytes.length = ceil (total a.all) 512

/-- What is split: archives and, at the end, something else. -/
def parts (plain : List Archive) (tail : Option Bytes) : List Bytes :=
  plain.map Archive.bytes ++ tail.toList

/-- Something that is not taken for an archive. -/
def Other (c : Bytes) : Prop := c ≠ [] ∧ cpioMatchMagicNumber (c.take 6) = false

/-- The subfiles that the parts are from an address on. -/
def tiles : Int → List Bytes → List Subfile
  | _, [] => []
  | d, x :: xs => ⟨d, x.length⟩ :: tiles (d + x.length) xs

/-! ## Reading in the middle -/

theorem bytes_drop (b : Buffer) {n : Nat} (h : d + n ≤ b.data.length) :
    b.bytes d n = (b.data.drop d).take n := by
  have hslice := bytes_slice b 0 (k := d) (n := n) (m := b.data.length) h
  rwa [Int.zero_add, bytes_zero b (Nat.le_refl _), List.take_length] at hslice

/-- What stands at `d`. -/
theorem bytes_at {x rest : Bytes} (hd : b.data.drop d = x ++ rest) : b.bytes d x.length = x := by
  have hlen := congrArg List.length hd
  rw [List.length_drop, List.length_append] at hlen
  by_cases h0 : x = []
  · rw [h0]; rfl
  · have hpos := List.length_pos_iff.mpr h0
    rw [bytes_drop b (by omega), hd, List.take_left]

theorem drop_at {x rest : Bytes} (hd : b.data.drop d = x ++ rest) :
    b.data.drop (d + x.length) = rest := by
  rw [← List.drop_drop, hd, List.drop_left]

theorem slice_tiles {xs : List Bytes} (hd : b.data.drop d = xs.flatten) :
    (tiles d xs).map (slice b) = xs := by
  induction xs generalizing d with
  | nil => rfl
  | cons x xs ih =>
    rw [List.flatten_cons] at hd
    have hrest := ih (d := d + x.length) (drop_at hd)
    rw [Int.natCast_add] at hrest
    rw [tiles, List.map_cons, hrest]
    simp only [slice, Int.toNat_natCast, hd, List.take_left]

/-! ## Archives -/

theorem roundUp_block {x n : Nat} (h : ceil x 512 = n) (hn : n < 2 ^ 31) :
    roundUpToMultiple (x : Int) 512 = n := by
  have hu := roundUp_eq (x := x) (m := 512) (by omega) (by omega) (by omega)
  rwa [Nat.cast_ofNat, h] at hu

theorem roundUp_four {x : Nat} (h : 4 ∣ x) (hx : x < 2 ^ 31) :
    roundUpToMultiple (x : Int) 4 = x := by
  have hceil := ceil_of_dvd (show 0 < 4 by decide) h
  have hu := roundUp_eq (x := x) (m := 4) (by decide) (by decide) (by omega)
  rwa [Nat.cast_ofNat, hceil] at hu

theorem trailerAt_of_parses {h : Int} {es : List Entry} {t : Entry}
    (hp : Parses b b.size h es t) : TrailerAt b h (h + total es) ∧ Holds b (h + total es) t := by
  induction hp with
  | trailer he _ _ hn =>
    rw [total_nil, Int.natCast_zero, Int.add_zero]
    exact ⟨⟨walks_start b _, hn⟩, he⟩
  | @entry h e es t _ _ _ hn _ ih =>
    rw [show h + (total (e :: es) : Int) = h + e.size + total es by rw [total_cons]; omega]
    exact ⟨⟨Relation.ReflTransGen.head hn ih.1.1, ih.1.2⟩, ih.2⟩

/-- An archive at `d` has its trailer there, and takes its blocks. -/
theorem archive_at {rest : Bytes} (hsmall : b.data.length < 2 ^ 31)
    (hd : b.data.drop d = a.bytes ++ rest) (hpad : Padded a) :
    TrailerAt b d (d + total a.entries) ∧
      archiveSize b d (d + total a.entries) = a.bytes.length := by
  have hlen := congrArg List.length hd
  have halen := a.length_bytes
  have hall := a.total_all
  have hpos := a.length_bytes
  rw [List.length_drop, List.length_append] at hlen
  have hbytes : b.bytes d (total a.all) = a.all.flatMap Entry.bytes := by
    rw [bytes_drop b (by omega), hd, Archive.bytes, List.append_assoc, ← length_flatMap,
      List.take_left]
  have hsize : b.size = b.data.length := rfl
  have hparse : Parses b b.size d a.entries a.trailer := by
    refine parses_of_bytes a.named a.trailer_name hbytes ?_
    rw [toInt_of_lt (by omega) (by omega)]
    change (total a.all : Int) ≤ _
    omega
  obtain ⟨htrailer, hholds⟩ := trailerAt_of_parses hparse
  refine ⟨htrailer, ?_⟩
  have hentry : entrySize b (d + total a.entries) = 124 := by
    unfold entrySize
    rw [hholds.entrySize (by rw [a.trailer_size]; decide), a.trailer_size]
    rfl
  have hn : total a.all < 2 ^ 31 := by omega
  have hblocks : a.bytes.length < 2 ^ 31 := by omega
  have hsum : (d : Int) + total a.entries + 124 - d = (total a.all : Nat) := by omega
  have hu : toUintn (total a.all : Int) = total a.all := uintn_nat (by omega)
  unfold archiveSize
  rw [hentry, hsum, hu, roundUp_four (four_dvd_total _) hn, hu, roundUp_block hpad.symm hblocks]

/-! ## Splitting -/

/-- From `d` on `CPIOSplitFile` finds the parts to have their sizes. -/
inductive Found (b : Buffer) : Nat → List Bytes → Prop
  | last : Found b b.data.length []
  | part {d : Nat} {x : Bytes} {xs : List Bytes} (hx : x ≠ [])
      (hle : d + x.length ≤ b.data.length)
      (hsize : (subfileSize b d (b.size - d)).Ends (.ok x.length))
      (rest : Found b (d + x.length) xs) : Found b d (x :: xs)

theorem part_round {x : Bytes} {subs : List Subfile} (hx : x ≠ [])
    (hle : d + x.length ≤ b.data.length)
    (hsize : (subfileSize b d (b.size - d)).Ends (.ok x.length)) (h8 : subs.length < 8) :
    (splitRound b ⟨d, b.size - d, subs⟩).Ends (.ok (.next
      ⟨(d + x.length : Nat), b.size - (d + x.length : Nat), subs ++ [⟨d, x.length⟩]⟩)) := by
  have hpos := List.length_pos_iff.mpr hx
  have hlt := b.size_lt
  have hb : b.size = b.data.length := rfl
  have hptr : toPtr ((d : Int) + x.length) = (d + x.length : Nat) := by
    rw [← Int.natCast_add, toPtr_of_lt (by omega) (by omega)]
  have hleft : toUintn (b.size - d - x.length) = b.size - (d + x.length : Nat) := by
    rw [toUintn_of_lt (by omega) (by omega)]
    omega
  unfold splitRound
  simp only [show ¬ b.size - (d : Int) = 0 by omega, show ¬ subs.length ≥ 8 by omega, if_false]
  refine hsize.bind ?_
  rw [hptr, hleft]
  exact Exec.ends_pure.mpr rfl

/-- The parts are the subfiles where there are no more than eight of them. -/
theorem Found.split {xs : List Bytes} (subs : List Subfile) (hf : Found b d xs)
    (h8 : subs.length ≤ 8) :
    (Exec.loop (splitRound b) ⟨d, b.size - d, subs⟩).Ends
      (if subs.length + xs.length ≤ 8 then .ok (subs ++ tiles d xs) else .err ()) := by
  induction hf generalizing subs with
  | last =>
    have hb : b.size - (b.data.length : Int) = 0 := Int.sub_self _
    rw [List.length_nil, Nat.add_zero, if_pos h8, hb, tiles, List.append_nil]
    refine Exec.loop_done ?_
    unfold splitRound
    rw [if_pos rfl]
    exact Exec.ends_pure.mpr rfl
  | @part d x xs hx hle hsize _ ih =>
    have hpos := List.length_pos_iff.mpr hx
    have hb : b.size = b.data.length := rfl
    by_cases hlt : subs.length < 8
    · have hrest := ih (subs ++ [⟨d, x.length⟩]) (by simp; omega)
      refine (Exec.loop_next (part_round hx hle hsize hlt)).mpr ?_
      have hlen : (subs ++ [(⟨d, x.length⟩ : Subfile)]).length + xs.length =
          subs.length + (x :: xs).length := by simp; omega
      rwa [hlen, List.append_assoc, List.singleton_append, Int.natCast_add] at hrest
    · rw [if_neg (by simp; omega)]
      refine Exec.loop_err ?_
      unfold splitRound
      rw [if_neg (by simp only; omega), if_pos (by simp only; omega)]
      exact Exec.ends_of.mpr rfl

theorem other_size (hd : b.data.drop d = c) (hc : Other c) :
    (subfileSize b d (b.size - d)).Ends (.ok c.length) := by
  have hlen := congrArg List.length hd
  have hb : b.size = b.data.length := rfl
  rw [List.length_drop] at hlen
  have hpos := List.length_pos_iff.mpr hc.1
  have hsize : b.size - d = c.length := by omega
  unfold subfileSize
  split
  · rename_i h110
    have hmagic : (b.header d).magic = c.take 6 := by
      rw [← hd]
      exact bytes_drop b (by omega)
    have hround : subfileRound b (b.size - d) (toPtr (d + (b.size - d))) (d, 0) =
        .ok (.done (b.size - d, false)) := by
      unfold subfileRound
      simp only [hmagic, hc.2, Bool.not_false, if_true, Out.pure_eq]
    refine (Exec.loop_done (Exec.ends_of.mpr hround.symm)).bind ?_
    simp only [Bool.false_eq_true, if_false, hsize]
    exact Exec.ends_pure.mpr rfl
  · rw [hsize]
    exact Exec.ends_pure.mpr rfl

/-- Padded archives and what follows them are found. -/
theorem found_parts {tail : Option Bytes} (hsmall : b.data.length < 2 ^ 31)
    (hle : d ≤ b.data.length) (hd : b.data.drop d = (parts plain tail).flatten)
    (hpad : ∀ a ∈ plain, Padded a) (htail : ∀ c ∈ tail, Other c) :
    Found b d (parts plain tail) := by
  have hlen := congrArg List.length hd
  rw [List.length_drop] at hlen
  induction plain generalizing d with
  | nil =>
    cases tail with
    | none =>
      have hend : d = b.data.length := by
        have h0 : (parts [] none).flatten.length = 0 := rfl
        omega
      rw [hend]
      exact .last
    | some c =>
      have hc := htail c rfl
      have hparts : (parts [] (some c)).flatten = c := by simp [parts]
      rw [hparts] at hd hlen
      have hend : b.data.length = d + c.length := by omega
      refine .part hc.1 (by omega) (other_size hd hc) ?_
      rw [← hend]
      exact .last
  | cons a plain ih =>
    have hparts : (parts (a :: plain) tail).flatten = a.bytes ++ (parts plain tail).flatten := by
      simp [parts]
    rw [hparts] at hd hlen
    rw [List.length_append] at hlen
    have halen := a.length_bytes
    have hall := a.total_all
    obtain ⟨htrailer, hsize⟩ := archive_at hsmall hd (hpad a (by simp))
    have hb : b.size = b.data.length := rfl
    have hends := subfileSize_trailer (by omega) htrailer
    rw [hsize, uintn_nat (by omega)] at hends
    refine .part ?_ (by omega) hends (ih (by omega) (drop_at hd) (fun a ha => hpad a (by simp [ha]))
      (by omega))
    exact List.length_pos_iff.mp (by omega)

end LsvmTools.CpioConcat
