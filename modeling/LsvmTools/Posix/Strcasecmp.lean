import LsvmTools.Strings

/-! # Comparison without regard to case

`posix_strcasecmp` returns 1 as soon as the first string has a character left, also where both
have one and it is the smaller; `posix_strncasecmp` returns -1 where both strings end. -/
namespace LsvmTools.Posix.Strcasecmp
open Lib.ByteString Strings

/-- The value of a `char`. -/
def charValue (c : UInt8) : Int := if c.toNat < 128 then c.toNat else c.toNat - 256

/-- `posix_toupper`. -/
def toupper (c : Int) : Int := if 97 ≤ c ∧ c ≤ 122 then c - 32 else c

/-- The loop of `posix_strcasecmp`: what is left of the two strings. -/
def common : Bytes → Bytes → Bytes × Bytes
  | c :: s1, d :: s2 =>
    if toupper (charValue c) = toupper (charValue d) then common s1 s2 else (c :: s1, d :: s2)
  | s1, s2 => (s1, s2)

/-- `posix_strcasecmp`. -/
def strcasecmp (s1 s2 : CStr) : Int :=
  if (common s1.bytes s2.bytes).1 ≠ [] then 1
  else if (common s1.bytes s2.bytes).2 ≠ [] then -1
  else 0

/-- The loop of `posix_strncasecmp`, with the counter. -/
def commonN : Nat → Bytes → Bytes → Nat × Bytes × Bytes
  | n + 1, c :: s1, d :: s2 =>
    if toupper (charValue c) = toupper (charValue d) then commonN n s1 s2
    else (n + 1, c :: s1, d :: s2)
  | n, s1, s2 => (n, s1, s2)

/-- `posix_strncasecmp`. -/
def strncasecmp (s1 s2 : CStr) (n : Nat) : Int :=
  match commonN n s1.bytes s2.bytes with
  | (0, _, _) => 0
  | (_, [], _) => -1
  | (_, _, []) => 1
  | (_, c :: _, d :: _) => toupper (charValue c) - toupper (charValue d)

/-! ## What it is for -/

/-- Two characters are the same letter, or the same. -/
def SameLetter (c d : UInt8) : Prop :=
  c = d ∨ (97 ≤ c.toNat ∧ c.toNat ≤ 122 ∧ c.toNat = d.toNat + 32) ∨
    (97 ≤ d.toNat ∧ d.toNat ≤ 122 ∧ d.toNat = c.toNat + 32)

def SameUpToCase (s1 s2 : Bytes) : Prop := List.Forall₂ SameLetter s1 s2

/-- The second string goes on where the first has ended. -/
def Shorter (s1 s2 : Bytes) : Prop := ∃ p c rest, s2 = p ++ c :: rest ∧ SameUpToCase s1 p

/-- What is expected of the comparison. -/
structure Ordered (a b c : CStr) : Prop where
  opposite : (strcasecmp a b).sign = -(strcasecmp b a).sign
  transitive : strcasecmp a b ≤ 0 → strcasecmp b c ≤ 0 → strcasecmp a c ≤ 0
  zero : strcasecmp a b = 0 ↔ SameUpToCase a.bytes b.bytes
  agrees : ∀ n, a.bytes.length < n → b.bytes.length < n →
    (strcasecmp a b).sign = (strncasecmp a b n).sign

/-! ## The common part -/

section Common

variable {c d : UInt8} {s1 s2 : Bytes} {a b : CStr} {n : Nat}

/-- The character that decides the comparison. -/
def fold (s : Bytes) : List Int := s.map fun c => toupper (charValue c)

theorem toupper_eq_iff : toupper (charValue c) = toupper (charValue d) ↔ SameLetter c d := by
  have hc := c.toNat_lt
  have hd := d.toNat_lt
  rw [SameLetter, ← UInt8.toNat_inj]
  unfold toupper charValue
  split_ifs <;> omega

theorem sameUpToCase_iff : SameUpToCase s1 s2 ↔ fold s1 = fold s2 := by
  have hrel : SameLetter = fun c d => toupper (charValue c) = toupper (charValue d) :=
    funext₂ fun c d => propext (Iff.symm toupper_eq_iff)
  rw [SameUpToCase, fold, fold, ← List.forall₂_eq_eq_eq, List.forall₂_map_left_iff,
    List.forall₂_map_right_iff, hrel]

/-- A proper prefix, up to case. -/
theorem shorter_iff : Shorter s1 s2 ↔ fold s1 <+: fold s2 ∧ ¬ fold s2 <+: fold s1 := by
  constructor
  · rintro ⟨p, c, rest, rfl, hsame⟩
    rw [Iff.mp sameUpToCase_iff hsame, fold, fold, List.map_append]
    refine ⟨List.prefix_append _ _, fun h => ?_⟩
    have hlen := h.length_le
    simp at hlen
  · rintro ⟨⟨t, ht⟩, hno⟩
    obtain ⟨p, q, rfl, hp, hq⟩ := List.map_eq_append_iff.mp ht.symm
    cases q with
    | nil =>
      refine absurd ?_ hno
      rw [List.append_nil, fold, hp]
    | cons c rest => exact ⟨p, c, rest, rfl, Iff.mpr sameUpToCase_iff hp.symm⟩

theorem common_swap (s1 s2 : Bytes) : common s2 s1 = (common s1 s2).swap := by
  induction s1 generalizing s2 with
  | nil => cases s2 <;> rfl
  | cons c s1 ih =>
    cases s2 with
    | nil => rfl
    | cons d s2 =>
      rw [common, common]
      by_cases h : toupper (charValue c) = toupper (charValue d)
      · rw [if_pos h, if_pos h.symm, ih]
      · rw [if_neg h, if_neg (Ne.symm h)]
        rfl

/-- Nothing is left of a string that the other one begins with. -/
theorem common_fst_nil : (common s1 s2).1 = [] ↔ fold s1 <+: fold s2 := by
  induction s1 generalizing s2 with
  | nil => cases s2 <;> simp [common, fold]
  | cons c s1 ih =>
    cases s2 with
    | nil => simp [common, fold]
    | cons d s2 =>
      rw [common, fold, fold, List.map_cons, List.map_cons, List.cons_prefix_cons]
      by_cases h : toupper (charValue c) = toupper (charValue d)
      · rw [if_pos h, ih, and_iff_right h]
        rfl
      · rw [if_neg h]
        exact iff_of_false (List.cons_ne_nil _ _) fun hp => h hp.1

theorem common_snd_nil : (common s1 s2).2 = [] ↔ fold s2 <+: fold s1 := by
  rw [← common_fst_nil, common_swap s1 s2, Prod.fst_swap]

/-- A counter that is large enough makes no difference. -/
theorem commonN_eq (h1 : s1.length < n) (h2 : s2.length < n) :
    ∃ k, commonN n s1 s2 = (k + 1, common s1 s2) := by
  obtain ⟨m, rfl⟩ := Nat.exists_eq_succ_of_ne_zero (Nat.ne_zero_of_lt h1)
  induction s1 generalizing s2 m with
  | nil => cases s2 <;> exact ⟨m, rfl⟩
  | cons c s1 ih =>
    cases s2 with
    | nil => exact ⟨m, rfl⟩
    | cons d s2 =>
      rw [common, commonN]
      by_cases h : toupper (charValue c) = toupper (charValue d)
      · rw [if_pos h, if_pos h]
        have h1' := Nat.lt_of_succ_lt_succ h1
        have h2' := Nat.lt_of_succ_lt_succ h2
        obtain ⟨m, rfl⟩ := Nat.exists_eq_succ_of_ne_zero (Nat.ne_zero_of_lt h1')
        exact ih m h1' h2'
      · rw [if_neg h, if_neg h]
        exact ⟨m, rfl⟩

end Common

/-! ## The comparison -/

section Comparison

variable {a b c : CStr} {n : Nat}

theorem strcasecmp_pos (h : ¬ fold a.bytes <+: fold b.bytes) : strcasecmp a b = 1 :=
  if_pos (mt (Iff.mp common_fst_nil) h)

theorem strcasecmp_neg (h : Shorter a.bytes b.bytes) : strcasecmp a b = -1 := by
  obtain ⟨hpre, hno⟩ := Iff.mp shorter_iff h
  rw [strcasecmp, if_neg (not_not.mpr (Iff.mpr common_fst_nil hpre)),
    if_pos (mt (Iff.mp common_snd_nil) hno)]

theorem strcasecmp_zero (h : SameUpToCase a.bytes b.bytes) : strcasecmp a b = 0 := by
  have heq := Iff.mp sameUpToCase_iff h
  have h1 : (common a.bytes b.bytes).1 = [] := Iff.mpr common_fst_nil (heq ▸ List.prefix_rfl)
  have h2 : (common a.bytes b.bytes).2 = [] := Iff.mpr common_snd_nil (heq ▸ List.prefix_rfl)
  rw [strcasecmp, if_neg (not_not.mpr h1), if_neg (not_not.mpr h2)]

/-- Two strings are the same, one is shorter, or they differ in a character. -/
theorem cases_of (a b : CStr) : SameUpToCase a.bytes b.bytes ∨ Shorter a.bytes b.bytes ∨
    Shorter b.bytes a.bytes ∨
      ¬ fold a.bytes <+: fold b.bytes ∧ ¬ fold b.bytes <+: fold a.bytes := by
  rw [sameUpToCase_iff, shorter_iff, shorter_iff]
  by_cases h1 : fold a.bytes <+: fold b.bytes
  · by_cases h2 : fold b.bytes <+: fold a.bytes
    · exact .inl (h1.eq_of_length_le h2.length_le)
    · exact .inr (.inl ⟨h1, h2⟩)
  · by_cases h2 : fold b.bytes <+: fold a.bytes
    · exact .inr (.inr (.inl ⟨h2, h1⟩))
    · exact .inr (.inr (.inr ⟨h1, h2⟩))

theorem strcasecmp_le_iff : strcasecmp a b ≤ 0 ↔ fold a.bytes <+: fold b.bytes := by
  by_cases h : fold a.bytes <+: fold b.bytes
  · refine iff_of_true ?_ h
    have h1 : (common a.bytes b.bytes).1 = [] := Iff.mpr common_fst_nil h
    rw [strcasecmp, if_neg (not_not.mpr h1)]
    split <;> decide
  · rw [strcasecmp_pos h]
    exact iff_of_false (by decide) h

/-- A string is taken for smaller if it is a prefix. -/
theorem strcasecmp_trans (hab : strcasecmp a b ≤ 0) (hbc : strcasecmp b c ≤ 0) :
    strcasecmp a c ≤ 0 :=
  Iff.mpr strcasecmp_le_iff
    ((Iff.mp strcasecmp_le_iff hab).trans (Iff.mp strcasecmp_le_iff hbc))

theorem strcasecmp_zero_iff : strcasecmp a b = 0 ↔ SameUpToCase a.bytes b.bytes := by
  refine ⟨fun h => ?_, strcasecmp_zero⟩
  rcases cases_of a b with hsame | hshort | hshort | ⟨hno, -⟩
  · exact hsame
  · rw [strcasecmp_neg hshort] at h
    cases h
  · rw [strcasecmp_pos (Iff.mp shorter_iff hshort).2] at h
    cases h
  · rw [strcasecmp_pos hno] at h
    cases h

/-- Where the first string has ended, also where the second has. -/
theorem strncasecmp_neg (ha : a.bytes.length < n) (hb : b.bytes.length < n)
    (h : fold a.bytes <+: fold b.bytes) : strncasecmp a b n = -1 := by
  obtain ⟨k, hk⟩ := commonN_eq ha hb
  have h1 := Iff.mpr common_fst_nil h
  rw [strncasecmp, hk]
  generalize common a.bytes b.bytes = r at h1
  obtain ⟨r1, r2⟩ := r
  rw [show r1 = [] from h1]
  rfl

theorem strncasecmp_pos (ha : a.bytes.length < n) (hb : b.bytes.length < n)
    (h : Shorter b.bytes a.bytes) : strncasecmp a b n = 1 := by
  obtain ⟨hpre, hno⟩ := Iff.mp shorter_iff h
  obtain ⟨k, hk⟩ := commonN_eq ha hb
  have h1 := mt (Iff.mp common_fst_nil) hno
  have h2 := Iff.mpr common_snd_nil hpre
  rw [strncasecmp, hk]
  generalize common a.bytes b.bytes = r at h1 h2
  obtain ⟨r1, r2⟩ := r
  rw [show r2 = [] from h2]
  cases r1 with
  | nil => exact absurd rfl h1
  | cons x r1 => rfl

/-- The comparison is what is expected exactly where one string is a proper prefix of the
other. -/
theorem ordered_iff (a b c : CStr) :
    Ordered a b c ↔ Shorter a.bytes b.bytes ∨ Shorter b.bytes a.bytes := by
  constructor
  · intro h
    rcases cases_of a b with hsame | hshort | hshort | ⟨hab, hba⟩
    · -- the two functions do not agree
      have hpre : fold a.bytes <+: fold b.bytes := sameUpToCase_iff.mp hsame ▸ List.prefix_rfl
      have hn := h.agrees (a.bytes.length + b.bytes.length + 1) (by omega) (by omega)
      rw [strcasecmp_zero hsame, strncasecmp_neg (by omega) (by omega) hpre] at hn
      cases hn
    · exact .inl hshort
    · exact .inr hshort
    · -- each one is greater than the other
      have hopp := h.opposite
      rw [strcasecmp_pos hab, strcasecmp_pos hba] at hopp
      cases hopp
  · rintro (h | h)
    · have hpos := strcasecmp_pos (shorter_iff.mp h).2
      refine ⟨?_, strcasecmp_trans, strcasecmp_zero_iff, fun n ha hb => ?_⟩
      · rw [strcasecmp_neg h, hpos]
        rfl
      · rw [strcasecmp_neg h, strncasecmp_neg ha hb (shorter_iff.mp h).1]
    · have hpos := strcasecmp_pos (shorter_iff.mp h).2
      refine ⟨?_, strcasecmp_trans, strcasecmp_zero_iff, fun n ha hb => ?_⟩
      · rw [strcasecmp_neg h, hpos]
        rfl
      · rw [hpos, strncasecmp_pos ha hb h]

theorem noNul_ab : (0 : UInt8) ∉ [(97 : UInt8)] ∧ (0 : UInt8) ∉ [(98 : UInt8)] := by decide

/-- Each of `a` and `b` is greater than the other, and `a` is not equal to itself for a length
of two. -/
theorem not_ordered_ab : strcasecmp ⟨[97], noNul_ab.1⟩ ⟨[98], noNul_ab.2⟩ = 1 ∧
    strcasecmp ⟨[98], noNul_ab.2⟩ ⟨[97], noNul_ab.1⟩ = 1 ∧
    strncasecmp ⟨[97], noNul_ab.1⟩ ⟨[97], noNul_ab.1⟩ 2 = -1 ∧
    ¬ ∀ a b c, Ordered a b c := by
  refine ⟨by decide, by decide, by decide, fun h => ?_⟩
  have hopp := (h ⟨[97], noNul_ab.1⟩ ⟨[98], noNul_ab.2⟩ ⟨[98], noNul_ab.2⟩).opposite
  exact absurd hopp (by decide)

end Comparison

end LsvmTools.Posix.Strcasecmp
