import LsvmTools.Ext2.Blocks
import LsvmTools.Lib.InPlace

/-! # Sorting

`posix_qsort` and `_Sort` of the file system are one sort; `_Sort` lacks the test for an empty
array. -/
namespace LsvmTools.Sorting
open Lib.ByteString Lib.Program Lib.Bubble Lib.InPlace

/-! ## Arrays of any elements -/

abbrev Element (size : Nat) := { b : Bytes // b.length = size }

/-- The loop over the bytes of two elements, from `k` on. -/
def swapBytes (lhs rhs : Nat) : Nat → Nat → Bytes → Bytes
  | 0, _, m => m
  | n + 1, k, m =>
    swapBytes lhs rhs n (k + 1)
      ((m.set (lhs + k) (byteAt m (rhs + k))).set (rhs + k) (byteAt m (lhs + k)))

theorem length_element {m : Bytes} {size j i : Nat} (h : (j + 2) * size ≤ m.length) (hi : i ≤ j + 1) :
    ((m.drop (i * size)).take size).length = size := by
  have hle : (i + 1) * size ≤ (j + 2) * size := Nat.mul_le_mul_right size (Nat.succ_le_succ hi)
  rw [Nat.succ_mul] at hle
  rw [List.length_take, List.length_drop]
  omega

/-- What `posix_qsort` does with two neighbours; outside the array nothing is known. -/
def elements (size : Nat) (compar : Element size → Element size → Int) : Neighbours Empty Bytes where
  greater m j :=
    if h : (j + 2) * size ≤ m.length then
      .ok (0 < compar ⟨(m.drop (j * size)).take size, length_element h (Nat.le_succ j)⟩
        ⟨(m.drop ((j + 1) * size)).take size, length_element h (Nat.le_refl _)⟩)
    else .stuck
  swap m j :=
    if (j + 2) * size ≤ m.length then .ok (swapBytes (j * size) ((j + 1) * size) size 0 m)
    else .stuck

/-- `posix_qsort`. -/
def posixQsort (base : Bytes) (nmemb size : Nat) (compar : Element size → Element size → Int) :
    Out Empty Bytes :=
  if nmemb = 0 then .ok base else sortRounds (elements size compar) (nmemb - 1) (nmemb - 1) base

/-! ## Arrays of block numbers -/

/-- What `_Sort` does with two neighbours. -/
def blknos : Neighbours Empty (List UInt32) where
  greater blks j :=
    match blks[j]?, blks[j + 1]? with
    | some a, some b => .ok (b < a)
    | _, _ => .stuck
  swap blks j :=
    match blks[j]?, blks[j + 1]? with
    | some a, some b => .ok ((blks.set j b).set (j + 1) a)
    | _, _ => .stuck

/-- `_Sort`; the number of elements is a 32-bit word. -/
def sortBlks (blks : List UInt32) : Out Empty (List UInt32) :=
  sortRounds blknos (u32 (blks.length + 2 ^ 32 - 1)) (u32 (blks.length + 2 ^ 32 - 1)) blks

/-! ## Elements side by side -/

section Elements

variable {size lhs rhs n k : Nat} {compar : Element size → Element size → Int}

theorem set_append_cons {α : Type} (p q : List α) (a b : α) {i : Nat} (hi : i = p.length) :
    (p ++ a :: q).set i b = p ++ b :: q := by
  rw [hi, List.set_append_right _ _ (Nat.le_refl _), Nat.sub_self, List.set_cons_zero]

theorem byteAt_append_cons (p q : Bytes) (a : UInt8) {i : Nat} (hi : i = p.length) :
    byteAt (p ++ a :: q) i = a := by
  rw [byteAt_append, hi, if_neg (Nat.lt_irrefl _), Nat.sub_self]
  rfl

/-- Some bytes of the elements have been exchanged, and the others are. -/
theorem swapBytes_eq {p a a' b b' q : Bytes} (hlhs : lhs = p.length) (hrhs : rhs = lhs + k + n)
    (hb' : b'.length = k) (ha' : a'.length = k) (ha : a.length = n) (hb : b.length = n) :
    swapBytes lhs rhs n k (p ++ b' ++ a ++ a' ++ b ++ q) = p ++ b' ++ b ++ a' ++ a ++ q := by
  induction n generalizing k a b a' b' with
  | zero =>
    rw [List.length_eq_zero_iff.mp ha, List.length_eq_zero_iff.mp hb, swapBytes]
  | succ n ih =>
    obtain ⟨x, a, rfl⟩ := List.exists_cons_of_ne_nil (List.ne_nil_of_length_pos (by omega : 0 < a.length))
    obtain ⟨y, b, rfl⟩ := List.exists_cons_of_ne_nil (List.ne_nil_of_length_pos (by omega : 0 < b.length))
    rw [List.length_cons] at ha hb
    have hfirst : p ++ b' ++ x :: a ++ a' ++ y :: b ++ q =
        (p ++ b') ++ x :: (a ++ a' ++ y :: b ++ q) := by simp
    have hsecond : ∀ z, (p ++ b') ++ z :: (a ++ a' ++ y :: b ++ q) =
        (p ++ b' ++ z :: (a ++ a')) ++ y :: (b ++ q) := fun z => by simp
    have hlen1 : lhs + k = (p ++ b').length := by rw [List.length_append]; omega
    have hlen2 : ∀ z, rhs + k = (p ++ b' ++ z :: (a ++ a')).length := fun z => by
      simp only [List.length_append, List.length_cons]
      omega
    rw [swapBytes, hfirst, byteAt_append_cons _ _ _ hlen1, hsecond, byteAt_append_cons _ _ _ (hlen2 x),
      ← hsecond, set_append_cons _ _ _ _ hlen1, hsecond, set_append_cons _ _ _ _ (hlen2 y)]
    have hb1 : (b' ++ [y]).length = k + 1 := by rw [List.length_append, hb', List.length_singleton]
    have ha1 : (a' ++ [x]).length = k + 1 := by rw [List.length_append, ha', List.length_singleton]
    have hnext := ih (k := k + 1) (a := a) (b := b) (by omega) hb1 ha1 (by omega) (by omega)
    simpa using hnext

/-- The bytes of the elements. -/
def bytesOf (l : List (Element size)) : Bytes := l.flatMap (·.val)

theorem bytesOf_cons (a : Element size) (l : List (Element size)) :
    bytesOf (a :: l) = a.val ++ bytesOf l := List.flatMap_cons

theorem length_bytesOf (l : List (Element size)) : (bytesOf l).length = l.length * size := by
  induction l with
  | nil => rw [bytesOf, List.flatMap_nil, List.length_nil, List.length_nil, Nat.zero_mul]
  | cons a l ih =>
    rw [bytesOf_cons, List.length_append, ih, a.2, List.length_cons, Nat.succ_mul, Nat.add_comm]

theorem bytesOf_append (l l' : List (Element size)) : bytesOf (l ++ l') = bytesOf l ++ bytesOf l' :=
  List.flatMap_append

theorem slice_bytesOf (pre post : List (Element size)) (a : Element size) :
    ((bytesOf (pre ++ a :: post)).drop (pre.length * size)).take size = a.val := by
  rw [bytesOf_append, List.drop_left' (length_bytesOf pre), bytesOf_cons, List.take_left' a.2]

theorem inside_bytesOf (pre post : List (Element size)) (a b : Element size) :
    (pre.length + 2) * size ≤ (bytesOf (pre ++ a :: b :: post)).length := by
  rw [length_bytesOf]
  refine Nat.mul_le_mul_right size ?_
  simp only [List.length_append, List.length_cons]
  omega

variable (compar) in
theorem elements_lawful : Lawful (elements size compar) (fun a b => 0 < compar a b)
    fun m l => m = bytesOf l where
  greater := by
    rintro _ pre a b post rfl
    have hsecond := slice_bytesOf (pre ++ [a]) post b
    rw [List.length_append, List.length_singleton, List.append_assoc, List.singleton_append] at hsecond
    have hin := inside_bytesOf pre post a b
    have ha : (⟨((bytesOf (pre ++ a :: b :: post)).drop (pre.length * size)).take size,
        length_element hin (Nat.le_succ _)⟩ : Element size) = a :=
      Subtype.ext (slice_bytesOf pre (b :: post) a)
    have hb : (⟨((bytesOf (pre ++ a :: b :: post)).drop ((pre.length + 1) * size)).take size,
        length_element hin (Nat.le_refl _)⟩ : Element size) = b := Subtype.ext hsecond
    dsimp only [elements]
    rw [dif_pos hin, ha, hb]
  swap := by
    rintro _ pre a b post rfl
    have hin := inside_bytesOf pre post a b
    refine ⟨bytesOf (pre ++ b :: a :: post), ?_, rfl⟩
    have hsplit : ∀ a b : Element size, bytesOf (pre ++ a :: b :: post) =
        bytesOf pre ++ [] ++ a.val ++ [] ++ b.val ++ bytesOf post := by
      intro a b
      rw [bytesOf_append, bytesOf_cons, bytesOf_cons]
      simp
    have hrhs : (pre.length + 1) * size = pre.length * size + 0 + size := by
      rw [Nat.succ_mul, Nat.add_zero]
    have hswap := swapBytes_eq (q := bytesOf post) (length_bytesOf pre).symm hrhs List.length_nil
      List.length_nil a.2 b.2
    dsimp only [elements]
    rw [if_pos hin, hsplit, hswap, ← hsplit]

/-- Any elements are sorted by any comparison that is a total preorder. -/
def QsortSorts : Prop :=
  ∀ (size : Nat) (compar : Element size → Element size → Int) (l : List (Element size)),
    TotalPreorder (fun a b => compar a b ≤ 0) →
      ∃ sorted, posixQsort (bytesOf l) l.length size compar = .ok (bytesOf sorted) ∧
        StableSort (fun a b => compar a b ≤ 0) l sorted

theorem qsortSorts : QsortSorts := by
  intro size compar l hle
  cases l with
  | nil => exact ⟨[], rfl, .refl _, .nil, fun c => rfl⟩
  | cons a l =>
    have hgt : ∀ a b, decide (0 < compar a b) = true ↔ ¬ compar a b ≤ 0 := fun a b => by
      rw [decide_eq_true_eq, not_le]
    obtain ⟨m, sorted, hrun, rfl, hstable⟩ := sortRounds_spec (elements_lawful compar)
      hle hgt (a :: l) [] rfl .nil (fun _ _ _ hb => (by cases hb))
      (by rw [List.append_nil])
    rw [List.append_nil] at hstable
    exact ⟨sorted, hrun, hstable⟩

end Elements

/-! ## Block numbers -/

section Blknos

variable {blks : List UInt32}

theorem blknos_lawful : Lawful blknos (fun a b => b < a) fun m l => m = l where
  greater := by
    rintro _ pre a b post rfl
    have ha : (pre ++ a :: b :: post)[pre.length]? = some a := by simp
    have hb : (pre ++ a :: b :: post)[pre.length + 1]? = some b := by simp
    dsimp only [blknos]
    rw [ha, hb]
  swap := by
    rintro _ pre a b post rfl
    have ha : (pre ++ a :: b :: post)[pre.length]? = some a := by simp
    have hb : (pre ++ a :: b :: post)[pre.length + 1]? = some b := by simp
    have hset : ((pre ++ a :: b :: post).set pre.length b).set (pre.length + 1) a =
        pre ++ b :: a :: post := by
      rw [set_append_cons _ _ _ _ rfl, List.append_cons, set_append_cons _ _ _ _ (by simp)]
      simp
    dsimp only [blknos]
    rw [ha, hb]
    exact ⟨_, congrArg Out.ok hset, rfl⟩

theorem totalPreorder_le : TotalPreorder fun a b : UInt32 => a ≤ b :=
  ⟨fun a b => UInt32.le_total a b, fun h h' => UInt32.le_trans h h'⟩

/-- Numbers are sorted, from one on. -/
theorem sortBlks_ok (hne : blks ≠ []) (hlen : blks.length < 2 ^ 32) :
    ∃ sorted, sortBlks blks = .ok sorted ∧ sorted.Perm blks ∧ sorted.Pairwise (· ≤ ·) := by
  obtain ⟨n, hn⟩ := Nat.exists_eq_succ_of_ne_zero (mt List.length_eq_zero_iff.mp hne)
  have hword : u32 (blks.length + 2 ^ 32 - 1) = n := by
    have hsum : blks.length + 2 ^ 32 - 1 = n + 2 ^ 32 := by omega
    rw [hsum]
    unfold u32
    omega
  have hgt : ∀ a b : UInt32, decide (b < a) = true ↔ ¬ a ≤ b := fun a b => by
    rw [decide_eq_true_eq, UInt32.not_le]
  obtain ⟨m, sorted, hrun, rfl, hstable⟩ := sortRounds_spec blknos_lawful totalPreorder_le hgt
    blks [] hn .nil (fun _ _ _ hb => (by cases hb)) (List.append_nil blks).symm
  rw [List.append_nil] at hstable
  exact ⟨m, by rw [sortBlks, hword, hrun], hstable.perm, hstable.ascending⟩

/-- Of no numbers two are read. -/
theorem sortBlks_nil : sortBlks [] = .stuck := by
  have hword : u32 (([] : List UInt32).length + 2 ^ 32 - 1) ≠ 0 := by
    unfold u32
    rw [List.length_nil]
    omega
  obtain ⟨k, hk⟩ := Nat.exists_eq_succ_of_ne_zero hword
  rw [sortBlks, hk]
  rfl

/-- The numbers that `_PutBlocks` goes through are the ones that `_Sort` leaves. -/
theorem putBlocks_sorted (hne : blks ≠ []) (hlen : blks.length < 2 ^ 32) :
    ∃ sorted, sortBlks blks = .ok sorted ∧
      Ext2.Blocks.putBlocks (blks.map UInt32.toNat) = (do
        Ext2.Blocks.putBlocksLoop none (sorted.map UInt32.toNat)
        Ext2.Blocks.writeSuperBlock) := by
  obtain ⟨sorted, hsort, hperm, hasc⟩ := sortBlks_ok hne hlen
  refine ⟨sorted, hsort, ?_⟩
  have hsame : (blks.map UInt32.toNat).mergeSort (· ≤ ·) = sorted.map UInt32.toNat := by
    have htrans : ∀ a b c : Nat, decide (a ≤ b) = true → decide (b ≤ c) = true →
        decide (a ≤ c) = true := fun a b c hab hbc =>
      decide_eq_true (Nat.le_trans (of_decide_eq_true hab) (of_decide_eq_true hbc))
    have htotal : ∀ a b : Nat, (decide (a ≤ b) || decide (b ≤ a)) = true := fun a b => by
      rw [Bool.or_eq_true, decide_eq_true_eq, decide_eq_true_eq]
      exact Nat.le_total a b
    have hanti : ∀ a b : Nat, a ∈ (blks.map UInt32.toNat).mergeSort (· ≤ ·) →
        b ∈ sorted.map UInt32.toNat → a ≤ b → b ≤ a → a = b := fun a b _ _ => Nat.le_antisymm
    refine List.Perm.eq_of_pairwise hanti ?_ ?_ ?_
    · exact (List.pairwise_mergeSort htrans htotal (blks.map UInt32.toNat)).imp of_decide_eq_true
    · rw [List.pairwise_map]
      exact hasc
    · exact (List.mergeSort_perm _ _).trans (hperm.symm.map _)
  rw [Ext2.Blocks.putBlocks, hsame]

/-- The number array is sorted, with no access outside it. -/
def BlknosSorted (blks : List UInt32) : Prop :=
  ∃ sorted, sortBlks blks = .ok sorted ∧ sorted.Perm blks ∧ sorted.Pairwise (· ≤ ·)

/-- Both routines sort exactly where there is a block number. -/
theorem sorts_iff (blks : List UInt32) (hlen : blks.length < 2 ^ 32) :
    QsortSorts ∧ BlknosSorted blks ↔ blks ≠ [] := by
  rw [and_iff_right qsortSorts]
  constructor
  · rintro ⟨sorted, hrun, -⟩ rfl
    rw [sortBlks_nil] at hrun
    cases hrun
  · exact fun hne => sortBlks_ok hne hlen

theorem sorts_two : QsortSorts ∧ BlknosSorted [2, 1] :=
  (sorts_iff [2, 1] (by decide)).mpr (List.cons_ne_nil _ _)

theorem not_sorted_nil : sortBlks [] = .stuck ∧ ¬ BlknosSorted [] := by
  refine ⟨sortBlks_nil, ?_⟩
  rintro ⟨sorted, hrun, -⟩
  rw [sortBlks_nil] at hrun
  cases hrun

end Blknos

end LsvmTools.Sorting
