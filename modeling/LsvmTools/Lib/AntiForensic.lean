import LsvmTools.Lib.ByteString

/-! # Anti-forensic merging

A key is kept as stripes of its own length, all of which are needed to get it back. Merging
goes from stripe to stripe with a state that is xored with each and diffused between two of
them. Diffusion replaces each piece of the state by its tagged hash value. -/
namespace LsvmTools.Lib.AntiForensic
open ByteString

/-! ## Exclusive or -/

/-- Byte by byte. -/
def xor (a b : Bytes) : Bytes := List.zipWith (· ^^^ ·) a b

theorem length_xor {a b : Bytes} (h : a.length = b.length) : (xor a b).length = b.length := by
  rw [xor, List.length_zipWith, h, Nat.min_self]

theorem xor_xor_cancel {a b : Bytes} (h : a.length = b.length) : xor a (xor a b) = b := by
  induction a generalizing b with
  | nil => exact (List.eq_nil_of_length_eq_zero h.symm).symm
  | cons x a ih =>
    cases b with
    | nil => cases h
    | cons y b =>
      have hxy : x ^^^ (x ^^^ y) = y := by
        rw [← UInt8.xor_assoc, UInt8.xor_self, UInt8.zero_xor]
      exact congrArg₂ List.cons hxy (ih (Nat.succ.inj h))

/-! ## Diffusion -/

section Diffusion

variable (hash : Bytes → Bytes) (tag : Nat → Bytes) (h : Nat)

/-- Piece number `j` of `h` bytes; the last one may be shorter. -/
def piece (data : Bytes) (j : Nat) : Bytes := (data.drop (j * h)).take h

/-- The hash value of a tagged piece, cut to the length of the piece. -/
def diffusePiece (data : Bytes) (j : Nat) : Bytes :=
  (hash (tag j ++ piece h data j)).take (piece h data j).length

/-- How many pieces there are. -/
def pieceCount (n : Nat) : Nat := (n + h - 1) / h

/-- All pieces, each from the data as it was before. -/
def diffusion (data : Bytes) : Bytes :=
  (List.range (pieceCount h data.length)).flatMap (diffusePiece hash tag h data)

/-- One piece overwritten where it lies. -/
def diffuseStep (data : Bytes) (j : Nat) : Bytes :=
  splice data (j * h) (diffusePiece hash tag h data j)

variable {hash tag h} {data : Bytes} {m : Nat}

theorem length_diffusePiece (hh : ∀ x, (hash x).length = h) (j : Nat) :
    (diffusePiece hash tag h data j).length = min h (data.length - j * h) := by
  rw [diffusePiece, piece, List.length_take, hh, List.length_take, List.length_drop]
  omega

theorem lt_of_pieceCount (h0 : 0 < h) {j n : Nat} (hj : j < pieceCount h n) : j * h < n := by
  have hle := (Nat.le_div_iff_mul_le h0).mp (Nat.succ_le_of_lt hj)
  rw [Nat.succ_mul] at hle
  omega

theorem le_pieceCount_mul (h0 : 0 < h) (n : Nat) : n ≤ pieceCount h n * h := by
  have hdiv := Nat.div_add_mod (n + h - 1) h
  have hmod := Nat.mod_lt (n + h - 1) h0
  rw [pieceCount, Nat.mul_comm]
  omega

theorem length_diffused (hh : ∀ x, (hash x).length = h) (h0 : 0 < h)
    (hm : m ≤ pieceCount h data.length) :
    ((List.range m).flatMap (diffusePiece hash tag h data)).length = min (m * h) data.length := by
  induction m with
  | zero => rw [Nat.zero_mul, Nat.zero_min]; rfl
  | succ m ih =>
    have hlt := lt_of_pieceCount h0 hm
    rw [List.range_succ, List.flatMap_append, List.length_append, ih (by omega),
      List.flatMap_singleton, length_diffusePiece hh, Nat.succ_mul]
    omega

theorem length_diffusion (hh : ∀ x, (hash x).length = h) (h0 : 0 < h) :
    (diffusion hash tag h data).length = data.length := by
  rw [diffusion, length_diffused hh h0 (Nat.le_refl _)]
  exact Nat.min_eq_right (le_pieceCount_mul h0 _)

/-- A piece that is overwritten early is not looked at again. -/
theorem foldl_diffuseStep (hh : ∀ x, (hash x).length = h) (h0 : 0 < h)
    (hm : m ≤ pieceCount h data.length) :
    (List.range m).foldl (diffuseStep hash tag h) data =
      (List.range m).flatMap (diffusePiece hash tag h data) ++ data.drop (m * h) := by
  induction m with
  | zero => rw [Nat.zero_mul]; rfl
  | succ m ih =>
    have hlt := lt_of_pieceCount h0 hm
    have hlen : ((List.range m).flatMap (diffusePiece hash tag h data)).length = m * h := by
      rw [length_diffused hh h0 (by omega)]
      omega
    rw [List.range_succ, List.foldl_append, ih (by omega), List.foldl_cons, List.foldl_nil,
      List.flatMap_append, List.flatMap_singleton]
    -- the piece that is hashed is still the one of the original data
    have hsame : diffusePiece hash tag h
        ((List.range m).flatMap (diffusePiece hash tag h data) ++ data.drop (m * h)) m =
        diffusePiece hash tag h data m := by
      rw [diffusePiece, diffusePiece, piece, drop_of_length hlen, piece]
    have hrest : (List.flatMap (diffusePiece hash tag h data) (List.range m) ++
        data.drop (m * h)).drop (m * h + (diffusePiece hash tag h data m).length) =
        data.drop ((m + 1) * h) := by
      rw [← List.drop_drop, drop_of_length hlen, List.drop_drop, length_diffusePiece hh,
        Nat.succ_mul]
      by_cases hfull : h ≤ data.length - m * h
      · rw [Nat.min_eq_left hfull]
      · rw [List.drop_eq_nil_of_le (by omega), List.drop_eq_nil_of_le (by omega)]
    rw [diffuseStep, hsame, splice, take_of_length hlen, hrest]

theorem diffuse_in_place (hh : ∀ x, (hash x).length = h) (h0 : 0 < h) :
    (List.range (pieceCount h data.length)).foldl (diffuseStep hash tag h) data =
      diffusion hash tag h data := by
  rw [foldl_diffuseStep hh h0 (Nat.le_refl _), diffusion,
    List.drop_eq_nil_of_le (le_pieceCount_mul h0 _), List.append_nil]

end Diffusion

/-! ## Merging -/

/-- The state before the last stripe. -/
def absorb (D : Bytes → Bytes) (k : Nat) (init : List Bytes) : Bytes :=
  init.foldl (fun d s => D (xor d s)) (List.replicate k 0)

/-- The key that all stripes but the last one and the last one merge into. -/
def merge (D : Bytes → Bytes) (k : Nat) (init : List Bytes) (last : Bytes) : Bytes :=
  xor (absorb D k init) last

variable {D : Bytes → Bytes} {k : Nat} {init : List Bytes} {key : Bytes}

theorem length_absorb (hD : ∀ d, d.length = k → (D d).length = k)
    (hinit : ∀ s ∈ init, s.length = k) : (absorb D k init).length = k := by
  have hfold : ∀ (l : List Bytes) (d : Bytes), (∀ s ∈ l, s.length = k) → d.length = k →
      (l.foldl (fun d s => D (xor d s)) d).length = k := by
    intro l
    induction l with
    | nil => exact fun d _ hd => hd
    | cons s l ih =>
      intro d hl hd
      have hs := hl s List.mem_cons_self
      refine ih _ (fun x hx => hl x (List.mem_cons_of_mem _ hx)) (hD _ ?_)
      rw [length_xor (hd.trans hs.symm), hs]
  exact hfold init _ hinit List.length_replicate

/-- Each key has exactly one last stripe. -/
theorem merge_unique (hD : ∀ d, d.length = k → (D d).length = k)
    (hinit : ∀ s ∈ init, s.length = k) (hk : key.length = k) :
    ∃! last, last.length = k ∧ merge D k init last = key := by
  have hlen := length_absorb hD hinit
  refine ⟨xor (absorb D k init) key, ⟨?_, ?_⟩, ?_⟩
  · rw [length_xor (hlen.trans hk.symm), hk]
  · exact xor_xor_cancel (hlen.trans hk.symm)
  · rintro last ⟨hl, hmerge⟩
    rw [← hmerge, merge, xor_xor_cancel (hlen.trans hl.symm)]

end LsvmTools.Lib.AntiForensic
