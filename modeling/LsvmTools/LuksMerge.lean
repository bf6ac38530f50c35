import LsvmTools.Lib.AntiForensic
import LsvmTools.LuksKeys

/-! # The anti-forensic merge

`_DiffuseSHA` overwrites the master key piece by piece; `_AFMerge` goes through the stripes,
whose starts are products of 32-bit words. -/
namespace LsvmTools.LuksMerge
open Lib.ByteString Lib.Program Lib.AntiForensic LuksHeader LuksKeys ShaHash

variable (crypto : Crypto)

/-- A round of `_DiffuseSHA` on the data where it lies. -/
def diffuseRound (alg : SHAAlgorithm) (bytes : Nat) (data : Bytes) (i : Nat) : Bytes :=
  let off := u32 (i * shaHashSize alg)
  let left := u32 (bytes + 2 ^ 32 - off)
  let size := if shaHashSize alg > left then left else shaHashSize alg
  let hash := crypto.sha alg (be32 i ++ (data.drop off).take size)
  splice data off (hash.buf.take size)

/-- `_DiffuseSHA` on the data where it lies. -/
def diffuseInPlace (alg : SHAAlgorithm) (data : Bytes) : Bytes :=
  let pad := if data.length % shaHashSize alg ≠ 0 then 1 else 0
  (List.range (data.length / shaHashSize alg + pad)).foldl
    (diffuseRound crypto alg data.length) data

/-! ## What is expected -/

/-- The hash function as one on byte strings. -/
def digest (alg : SHAAlgorithm) (x : Bytes) : Bytes := (crypto.sha alg x).buf

/-- The diffusion of LUKS1: the pieces are tagged with their big-endian numbers. -/
def luksDiffusion (alg : SHAAlgorithm) : Bytes → Bytes :=
  diffusion (digest crypto alg) be32 (shaHashSize alg)

/-- The buffer with all the stripes. -/
def stripesOf (init : List Bytes) (last : Bytes) : Stripes :=
  ⟨(init.flatten ++ last).length, init.flatten ++ last, Nat.le_refl _⟩

/-- All stripes but the last one. -/
structure Split (header : Header) (slot : KeySlot) (init : List Bytes) : Prop where
  count : init.length + 1 = slot.afStripes.toNat
  size : ∀ s ∈ init, s.length = header.keyBytes.toNat

/-- The diffusion in place is the one of LUKS1, the merge follows its recursion, and there is
one last stripe for each key. -/
structure Follows (alg : SHAAlgorithm) (header : Header) (slot : KeySlot) : Prop where
  diffuses : ∀ data : Bytes, data.length = header.keyBytes.toNat →
    diffuseInPlace crypto alg data = luksDiffusion crypto alg data
  merges : ∀ init last, Split header slot init → last.length = header.keyBytes.toNat →
    afMerge crypto header slot (stripesOf init last) =
      .ok (merge (luksDiffusion crypto alg) header.keyBytes.toNat init last)
  unique : ∀ init, Split header slot init → ∀ key : Bytes, key.length = header.keyBytes.toNat →
    ∃! last, last.length = header.keyBytes.toNat ∧
      afMerge crypto header slot (stripesOf init last) = .ok key

/-! ## Diffusion -/

variable {crypto} {alg : SHAAlgorithm} {header : Header} {slot : KeySlot} {data last : Bytes}
  {init : List Bytes}

theorem shaHashSize_pos (alg : SHAAlgorithm) : 0 < shaHashSize alg := by
  cases alg <;> decide

theorem length_digest (alg : SHAAlgorithm) (x : Bytes) :
    (digest crypto alg x).length = shaHashSize alg := (crypto.sha alg x).size

/-- The number of rounds. -/
theorem rounds_eq (alg : SHAAlgorithm) (n : Nat) :
    n / shaHashSize alg + (if n % shaHashSize alg ≠ 0 then 1 else 0) =
      pieceCount (shaHashSize alg) n := by
  rw [pieceCount]
  by_cases h : n % shaHashSize alg = 0
  · rw [if_neg (not_not.mpr h)]
    revert h
    cases alg <;> simp only [shaHashSize] <;> omega
  · rw [if_pos h]
    revert h
    cases alg <;> simp only [shaHashSize] <;> omega

theorem diffuseSHA_eq (data : Bytes) :
    diffuseSHA crypto alg data = luksDiffusion crypto alg data := by
  rw [diffuseSHA, luksDiffusion, diffusion, ← rounds_eq]
  rfl

/-- A round replaces a piece. -/
theorem diffuseRound_eq {i : Nat} (hlen : data.length < 2 ^ 32)
    (hi : i * shaHashSize alg < data.length) :
    diffuseRound crypto alg data.length data i =
      diffuseStep (digest crypto alg) be32 (shaHashSize alg) data i := by
  have hpos := shaHashSize_pos alg
  have hoff : u32 (i * shaHashSize alg) = i * shaHashSize alg := u32_of_lt (by omega)
  have hleft : u32 (data.length + 2 ^ 32 - i * shaHashSize alg) =
      data.length - i * shaHashSize alg := by
    unfold u32
    omega
  have hsize : (if shaHashSize alg > data.length - i * shaHashSize alg then
      data.length - i * shaHashSize alg else shaHashSize alg) =
      (piece (shaHashSize alg) data i).length := by
    rw [piece, List.length_take, List.length_drop]
    split <;> omega
  have hpiece : (data.drop (i * shaHashSize alg)).take (piece (shaHashSize alg) data i).length =
      piece (shaHashSize alg) data i := by
    rw [piece, List.length_take, ← List.take_eq_take_min]
  rw [diffuseRound, hoff, hleft, hsize, hpiece]
  rfl

/-- Round by round, for the data keeps its length. -/
theorem rounds_in_place (hlen : data.length < 2 ^ 32) {m : Nat}
    (hm : m ≤ pieceCount (shaHashSize alg) data.length) :
    (List.range m).foldl (diffuseRound crypto alg data.length) data =
      (List.range m).foldl (diffuseStep (digest crypto alg) be32 (shaHashSize alg)) data := by
  have hh := @length_digest crypto alg
  have h0 := shaHashSize_pos alg
  induction m with
  | zero => rw [List.range_zero, List.foldl_nil, List.foldl_nil]
  | succ m ih =>
    have hlt := lt_of_pieceCount h0 hm
    have hkept : ((List.range m).foldl
        (diffuseStep (digest crypto alg) be32 (shaHashSize alg)) data).length =
        data.length := by
      rw [foldl_diffuseStep hh h0 (by omega), List.length_append,
        length_diffused hh h0 (by omega), List.length_drop]
      omega
    rw [List.range_succ, List.foldl_append, List.foldl_append, ih (by omega), List.foldl_cons,
      List.foldl_nil, List.foldl_cons, List.foldl_nil]
    generalize (List.range m).foldl
      (diffuseStep (digest crypto alg) be32 (shaHashSize alg)) data = s at hkept
    rw [← hkept]
    exact diffuseRound_eq (by omega) (by omega)

theorem diffuseInPlace_eq (hlen : data.length < 2 ^ 32) :
    diffuseInPlace crypto alg data = luksDiffusion crypto alg data := by
  rw [diffuseInPlace, luksDiffusion, rounds_eq, rounds_in_place hlen (Nat.le_refl _),
    diffuse_in_place (length_digest alg) (shaHashSize_pos alg)]

theorem length_luksDiffusion (data : Bytes) :
    (luksDiffusion crypto alg data).length = data.length :=
  length_diffusion (length_digest alg) (shaHashSize_pos alg)

/-! ## Stripes -/

theorem length_flatten {kb : Nat} (h : ∀ s ∈ init, s.length = kb) :
    init.flatten.length = init.length * kb := by
  induction init with
  | nil => rw [List.flatten_nil, List.length_nil, List.length_nil, Nat.zero_mul]
  | cons s init ih =>
    rw [List.flatten_cons, List.length_append, ih fun x hx => h x (List.mem_cons_of_mem _ hx),
      h s List.mem_cons_self, List.length_cons, Nat.succ_mul, Nat.add_comm]

/-- A stripe whose start does not wrap around. -/
theorem read_stripe {stripes : Stripes} {pre : List Bytes} {s rest : Bytes} {kb : Nat}
    (hw : stripes.written = pre.flatten ++ (s ++ rest)) (hpre : ∀ x ∈ pre, x.length = kb)
    (hs : s.length = kb) (hsmall : pre.length * kb < 2 ^ 32) :
    stripes.read (u32 (pre.length * kb)) kb = .ok s := by
  have hlen := length_flatten hpre
  rw [u32_of_lt hsmall, Stripes.read, hw, if_pos, drop_of_length hlen, take_of_length hs]
  rw [List.length_append, List.length_append, hlen, hs]
  omega

/-- The merge from the stripes `rest` and the last one on. -/
theorem afMergeFrom_follows (halg : diffuseAlg header.hashSpec = some alg)
    (hsmall : (slot.afStripes.toNat - 1) * header.keyBytes.toNat < 2 ^ 32)
    {pre rest : List Bytes} {stripes : Stripes}
    (hw : stripes.written = pre.flatten ++ (rest.flatten ++ last))
    (hn : pre.length + rest.length + 1 = slot.afStripes.toNat)
    (hpre : ∀ x ∈ pre, x.length = header.keyBytes.toNat)
    (hrest : ∀ x ∈ rest, x.length = header.keyBytes.toNat)
    (hl : last.length = header.keyBytes.toNat) (key : Bytes) :
    afMergeFrom crypto header slot stripes (rest.length + 1) key =
      .ok (xor (rest.foldl (fun d s => luksDiffusion crypto alg (xor d s)) key) last) := by
  induction rest generalizing pre key with
  | nil =>
    have hstart : pre.length * header.keyBytes.toNat < 2 ^ 32 :=
      Nat.lt_of_le_of_lt (Nat.mul_le_mul_right _ (by omega)) hsmall
    have hi : slot.afStripes.toNat - (([] : List Bytes).length + 1) = pre.length := by omega
    rw [List.flatten_nil, List.nil_append] at hw
    rw [afMergeFrom]
    dsimp only
    rw [hi, read_stripe (by rw [hw, List.append_nil]) hpre hl hstart, Out.ok_bind,
      if_neg (by simp)]
    rfl
  | cons s rest ih =>
    have hs := hrest s List.mem_cons_self
    have hstart : pre.length * header.keyBytes.toNat < 2 ^ 32 :=
      Nat.lt_of_le_of_lt (Nat.mul_le_mul_right _ (by omega)) hsmall
    rw [List.length_cons] at hn
    have hi : slot.afStripes.toNat - ((s :: rest).length + 1) = pre.length := by
      rw [List.length_cons]
      omega
    rw [List.flatten_cons, List.append_assoc] at hw
    rw [afMergeFrom]
    dsimp only
    rw [hi, read_stripe hw hpre hs hstart, Out.ok_bind, if_pos (by simp), diffuse, halg,
      Option.map_some, diffuseSHA_eq]
    refine @ih (pre ++ [s]) ?_ ?_ ?_ (fun x hx => hrest x (List.mem_cons_of_mem _ hx)) _
    · rw [hw, List.flatten_append, List.flatten_singleton, List.append_assoc]
    · rw [List.length_append, List.length_singleton]
      omega
    · intro x hx
      rcases List.mem_append.mp hx with hx | hx
      · exact hpre x hx
      · rw [List.mem_singleton.mp hx]
        exact hs

/-- Where no start wraps around the merge is the one of LUKS1. -/
theorem afMerge_follows (halg : diffuseAlg header.hashSpec = some alg)
    (hsmall : (slot.afStripes.toNat - 1) * header.keyBytes.toNat < 2 ^ 32)
    (hinit : Split header slot init) (hl : last.length = header.keyBytes.toNat) :
    afMerge crypto header slot (stripesOf init last) =
      .ok (merge (luksDiffusion crypto alg) header.keyBytes.toNat init last) := by
  have hw : (stripesOf init last).written = ([] : List Bytes).flatten ++ (init.flatten ++ last) :=
    rfl
  rw [afMerge, ← hinit.count]
  exact afMergeFrom_follows halg hsmall hw (by rw [List.length_nil, ← hinit.count]; omega)
    (fun x hx => by cases hx) hinit.size hl _

/-- A start that wraps around lies before the last stripe, and so does the stripe read there. -/
theorem start_inside {n kb i m : Nat} (hbig : 2 ^ 32 ≤ (n - 1) * kb) (hkb : kb < 2 ^ 32)
    (hm : m + 1 = n) (hi : i < n) : u32 (i * kb) + kb ≤ m * kb := by
  have hmn : m = n - 1 := by omega
  rw [← hmn] at hbig
  have hle : u32 (i * kb) ≤ i * kb := by
    unfold u32
    exact Nat.mod_le _ _
  rcases Nat.lt_or_ge i m with hlt | hge
  · have hmul : (i + 1) * kb ≤ m * kb := Nat.mul_le_mul_right _ hlt
    rw [Nat.succ_mul] at hmul
    omega
  · have him : i = m := by omega
    rw [him]
    unfold u32
    omega

/-- Where the start of the last stripe wraps around its bytes are never looked at. -/
theorem afMergeFrom_congr (hbig : 2 ^ 32 ≤ (slot.afStripes.toNat - 1) * header.keyBytes.toNat)
    (hinit : Split header slot init) {last last' : Bytes} {left : Nat}
    (hle : left ≤ slot.afStripes.toNat) (key : Bytes) :
    afMergeFrom crypto header slot (stripesOf init last) left key =
      afMergeFrom crypto header slot (stripesOf init last') left key := by
  induction left generalizing key with
  | zero => rw [afMergeFrom, afMergeFrom]
  | succ left ih =>
    have hkb := header.keyBytes.toNat_lt
    have hlen := length_flatten hinit.size
    have hin : u32 ((slot.afStripes.toNat - (left + 1)) * header.keyBytes.toNat) +
        header.keyBytes.toNat ≤ init.flatten.length := by
      rw [hlen]
      exact start_inside hbig hkb hinit.count (by omega)
    have hread : ∀ x : Bytes, (stripesOf init x).read
        (u32 ((slot.afStripes.toNat - (left + 1)) * header.keyBytes.toNat)) header.keyBytes.toNat =
        .ok ((init.flatten.drop (u32 ((slot.afStripes.toNat - (left + 1)) *
          header.keyBytes.toNat))).take header.keyBytes.toNat) := by
      intro x
      have hwritten : (stripesOf init x).written = init.flatten ++ x := rfl
      rw [Stripes.read, hwritten, if_pos (by rw [List.length_append]; omega),
        List.drop_append_of_le_length (by omega),
        List.take_append_of_le_length (by rw [List.length_drop]; omega)]
    rw [afMergeFrom, afMergeFrom]
    dsimp only
    rw [hread, hread, Out.ok_bind, Out.ok_bind]
    split
    · cases diffuse crypto header _ with
      | none => rfl
      | some key' => exact ih (by omega) key'
    · rfl

/-- The merge follows the recursion only where the last start does not wrap around. -/
theorem Follows.small (h : Follows crypto alg header slot) (hk : 1 ≤ header.keyBytes.toNat)
    (hn : 1 ≤ slot.afStripes.toNat) :
    (slot.afStripes.toNat - 1) * header.keyBytes.toNat < 2 ^ 32 := by
  by_contra hbig
  rw [Nat.not_lt] at hbig
  have hinit : Split header slot (List.replicate (slot.afStripes.toNat - 1)
      (List.replicate header.keyBytes.toNat 0)) := by
    refine ⟨by rw [List.length_replicate]; omega, fun s hs => ?_⟩
    rw [List.eq_of_mem_replicate hs, List.length_replicate]
  -- two last stripes that are not told apart
  have hzero := h.merges _ (List.replicate header.keyBytes.toNat 0) hinit List.length_replicate
  have hone := h.merges _ (List.replicate header.keyBytes.toNat 1) hinit List.length_replicate
  rw [afMerge, afMergeFrom_congr hbig hinit (Nat.le_refl _), ← afMerge, hone] at hzero
  injection hzero with hzero
  have hlen := length_absorb (D := luksDiffusion crypto alg)
    (fun d hd => (length_luksDiffusion d).trans hd) hinit.size
  have hsame := congrArg (xor (absorb (luksDiffusion crypto alg) header.keyBytes.toNat
    (List.replicate (slot.afStripes.toNat - 1) (List.replicate header.keyBytes.toNat 0)))) hzero
  rw [merge, merge, xor_xor_cancel (hlen.trans List.length_replicate.symm),
    xor_xor_cancel (hlen.trans List.length_replicate.symm)] at hsame
  have hbyte := List.eq_of_mem_replicate (hsame ▸ List.mem_replicate.mpr ⟨by omega, rfl⟩ :
    (1 : UInt8) ∈ List.replicate header.keyBytes.toNat 0)
  exact absurd hbyte (by decide)

/-- For every hash function, header and slot whose hash is known, with keys of at least one byte
and at least one stripe: the diffusion in place is the one of LUKS1, the merge follows its
recursion and each key has exactly one last stripe, exactly if the start of the last stripe is
below 2^32. -/
theorem follows_iff (crypto : Crypto) (header : Header) (slot : KeySlot)
    (halg : diffuseAlg header.hashSpec = some alg) (hk : 1 ≤ header.keyBytes.toNat)
    (hn : 1 ≤ slot.afStripes.toNat) :
    Follows crypto alg header slot ↔
      (slot.afStripes.toNat - 1) * header.keyBytes.toNat < 2 ^ 32 := by
  have hkb := header.keyBytes.toNat_lt
  constructor
  · exact fun h => h.small hk hn
  · intro hsmall
    refine ⟨fun data hd => diffuseInPlace_eq (by omega),
      fun init last hinit hl => afMerge_follows halg hsmall hinit hl, fun init hinit key hkey => ?_⟩
    obtain ⟨last, ⟨hl, hmerge⟩, honly⟩ := merge_unique (D := luksDiffusion crypto alg)
      (fun d hd => (length_luksDiffusion d).trans hd) hinit.size hkey
    refine ⟨last, ⟨hl, ?_⟩, ?_⟩
    · rw [afMerge_follows halg hsmall hinit hl, hmerge]
    · rintro last' ⟨hl', hmerge'⟩
      rw [afMerge_follows halg hsmall hinit hl'] at hmerge'
      injection hmerge' with hmerge'
      exact honly last' ⟨hl', hmerge'⟩

/-- Keys of 16 bytes in two stripes. -/
theorem follows_small : Follows plainCrypto .sha1 smallHeader (smallSlot 2) :=
  (follows_iff plainCrypto smallHeader (smallSlot 2) (by decide +kernel) (by decide +kernel)
    (by decide +kernel)).mpr (by decide +kernel)

/-- A header with keys of 2^31 bytes. -/
def largeHeader : Header where
  raw := luksMagic ++ [1, 0] ++ field "aes" ++ field "cbc-plain" ++ field "sha1" ++ enc32 8 ++
    enc32 (2 ^ 31) ++ List.replicate 52 0 ++ enc32 1 ++ List.replicate 424 0
  size := by decide +kernel

/-- Three stripes of 2^31 bytes: the third one is read where the first one lies. -/
theorem third_stripe_lost : ¬ ∀ crypto alg header slot, diffuseAlg header.hashSpec = some alg →
    1 ≤ header.keyBytes.toNat → 1 ≤ slot.afStripes.toNat → Follows crypto alg header slot := by
  intro h
  have hf := h plainCrypto .sha1 largeHeader (smallSlot 3) (by decide +kernel) (by decide +kernel)
    (by decide +kernel)
  exact absurd (hf.small (by decide +kernel) (by decide +kernel)) (by decide +kernel)

end LsvmTools.LuksMerge
