import LsvmTools.Lib.ByteString

/-! # SHA-crypt

The digest of a password and a salt after a number of rounds, and its text for a hash function of
64 bytes. -/
namespace LsvmTools.Lib.ShaCrypt
open ByteString

/-! ## The digest -/

def times (n : Nat) (b : Bytes) : Bytes := (List.replicate n b).flatten

/-- `n` bytes, which are the digest over and over. -/
def stretch (digest : Bytes) (n : Nat) : Bytes :=
  times (n / digest.length) digest ++ digest.take (n % digest.length)

section Digests

variable (hash : Bytes → Bytes) (password salt : Bytes)

def digestB : Bytes := hash (password ++ salt ++ password)

/-- The digest B for each 1 of the length, the password for each 0, the lowest first. -/
def lengthBits (b : Bytes) : Bytes :=
  (Nat.digits 2 password.length).flatMap fun bit => if bit = 1 then b else password

def digestA : Bytes :=
  let b := digestB hash password salt
  hash (password ++ salt ++ stretch b password.length ++ lengthBits password b)

def sequenceP : Bytes := stretch (hash (times password.length password)) password.length

def sequenceS : Bytes :=
  stretch (hash (times (16 + (byteAt (digestA hash password salt) 0).toNat) salt)) salt.length

def round (p s : Bytes) (c : Bytes) (i : Nat) : Bytes :=
  hash ((if i % 2 = 1 then p else c) ++ (if i % 3 ≠ 0 then s else []) ++
    (if i % 7 ≠ 0 then p else []) ++ (if i % 2 = 1 then c else p))

def finalDigest (rounds : Nat) : Bytes :=
  (List.range rounds).foldl
    (round hash (sequenceP hash password) (sequenceS hash password salt))
    (digestA hash password salt)

end Digests

theorem times_succ (n : Nat) (b : Bytes) : times (n + 1) b = b ++ times n b := by
  rw [times, List.replicate_succ, List.flatten_cons, times]

theorem stretch_of_lt {d : Bytes} {n : Nat} (h : n < d.length) : stretch d n = d.take n := by
  rw [stretch, Nat.div_eq_of_lt h, Nat.mod_eq_of_lt h]
  rfl

theorem stretch_add {d : Bytes} (h : d ≠ []) (n : Nat) :
    stretch d (n + d.length) = d ++ stretch d n := by
  have hpos : 0 < d.length := List.length_pos_iff.mpr h
  rw [stretch, Nat.add_div_right n hpos, Nat.add_mod_right, times_succ, List.append_assoc, stretch]

theorem length_times (n : Nat) (b : Bytes) : (times n b).length = n * b.length := by
  rw [times, List.length_flatten, List.map_replicate, List.sum_replicate, smul_eq_mul]

theorem length_stretch {d : Bytes} (h : d ≠ []) (n : Nat) : (stretch d n).length = n := by
  have hlt := Nat.mod_lt n (List.length_pos_iff.mpr h)
  rw [stretch, List.length_append, length_times, List.length_take, Nat.min_eq_left hlt.le,
    Nat.mul_comm, Nat.div_add_mod]

theorem length_finalDigest {hash : Bytes → Bytes} {k : Nat} (h : ∀ b, (hash b).length = k)
    (password salt : Bytes) (rounds : Nat) :
    (finalDigest hash password salt rounds).length = k := by
  cases rounds with
  | zero => exact h _
  | succ n =>
    rw [finalDigest, List.range_succ, List.foldl_append]
    exact h _

/-! ## The text -/

/-- `./0-9A-Za-z`. -/
def alphabet : Bytes :=
  [46, 47] ++ (List.range' 48 10 ++ List.range' 65 26 ++ List.range' 97 26).map UInt8.ofNat

/-- The digits of six bits, the lowest first. -/
def sextets : Nat → Nat → List Nat
  | 0, _ => []
  | n + 1, v => v % 64 :: sextets n (v / 64)

/-- Which bytes are written together, the highest first. -/
def groups : List (Nat × Nat × Nat) :=
  [(0, 21, 42), (22, 43, 1), (44, 2, 23), (3, 24, 45), (25, 46, 4), (47, 5, 26), (6, 27, 48),
    (28, 49, 7), (50, 8, 29), (9, 30, 51), (31, 52, 10), (53, 11, 32), (12, 33, 54), (34, 55, 13),
    (56, 14, 35), (15, 36, 57), (37, 58, 16), (59, 17, 38), (18, 39, 60), (40, 61, 19),
    (62, 20, 41)]

def groupValue (digest : Bytes) (g : Nat × Nat × Nat) : Nat :=
  2 ^ 16 * (byteAt digest g.1).toNat + 2 ^ 8 * (byteAt digest g.2.1).toNat +
    (byteAt digest g.2.2).toNat

/-- The last byte stands alone. -/
def encode (digest : Bytes) : Bytes :=
  ((groups.flatMap fun g => sextets 4 (groupValue digest g)) ++
    sextets 2 (byteAt digest 63).toNat).map (byteAt alphabet)

/-- The part of a salt that counts. -/
def saltOf (salt : Bytes) : Bytes := (salt.takeWhile (· ≠ 36)).take 16

/-- The text for a password and what follows the prefix `$6$`. -/
def crypt (hash : Bytes → Bytes) (rounds : Nat) (password salt : Bytes) : Bytes :=
  [36, 54, 36] ++ saltOf salt ++ [36] ++ encode (finalDigest hash password (saltOf salt) rounds)

section Text

variable {n v w : Nat} {d d' : Bytes}

theorem length_sextets (n v : Nat) : (sextets n v).length = n := by
  induction n generalizing v with
  | zero => rfl
  | succ n ih => rw [sextets, List.length_cons, ih]

theorem sextets_lt (h : w ∈ sextets n v) : w < 64 := by
  induction n generalizing v with
  | zero => cases h
  | succ n ih =>
    rcases List.mem_cons.mp h with rfl | h
    · exact Nat.mod_lt _ (by decide)
    · exact ih h

theorem sextets_injective (hv : v < 64 ^ n) (hw : w < 64 ^ n) (h : sextets n v = sextets n w) :
    v = w := by
  induction n generalizing v w with
  | zero => omega
  | succ n ih =>
    injection h with hlow hrest
    rw [Nat.pow_succ] at hv hw
    have hhigh := ih (Nat.div_lt_of_lt_mul (by omega)) (Nat.div_lt_of_lt_mul (by omega)) hrest
    omega

theorem groupValue_lt (d : Bytes) (g : Nat × Nat × Nat) : groupValue d g < 64 ^ 4 := by
  have h1 := (byteAt d g.1).toNat_lt
  have h2 := (byteAt d g.2.1).toNat_lt
  have h3 := (byteAt d g.2.2).toNat_lt
  unfold groupValue
  omega

/-- Three bytes are known from their group. -/
theorem groupValue_injective {g : Nat × Nat × Nat} (h : groupValue d g = groupValue d' g) :
    byteAt d g.1 = byteAt d' g.1 ∧ byteAt d g.2.1 = byteAt d' g.2.1 ∧
      byteAt d g.2.2 = byteAt d' g.2.2 := by
  have h1 := (byteAt d g.1).toNat_lt
  have h2 := (byteAt d g.2.1).toNat_lt
  have h3 := (byteAt d g.2.2).toNat_lt
  have h1' := (byteAt d' g.1).toNat_lt
  have h2' := (byteAt d' g.2.1).toNat_lt
  have h3' := (byteAt d' g.2.2).toNat_lt
  unfold groupValue at h
  refine ⟨UInt8.toNat_inj.mp ?_, UInt8.toNat_inj.mp ?_, UInt8.toNat_inj.mp ?_⟩ <;> omega

/-- The parts of texts whose parts are of the same lengths. -/
theorem flatMap_injective {α β : Type} {f g : α → List β} {xs : List α}
    (hl : ∀ x, (f x).length = (g x).length) (h : xs.flatMap f = xs.flatMap g) :
    ∀ x ∈ xs, f x = g x := by
  induction xs with
  | nil => exact fun x hx => absurd hx List.not_mem_nil
  | cons x xs ih =>
    rw [List.flatMap_cons, List.flatMap_cons] at h
    obtain ⟨hx, hxs⟩ := List.append_inj h (hl x)
    intro y hy
    rcases List.mem_cons.mp hy with rfl | hy
    · exact hx
    · exact ih hxs y hy

theorem map_injective {α β : Type} {f : α → β} {p : α → Prop}
    (hf : ∀ x y, p x → p y → f x = f y → x = y) {xs ys : List α} (hx : ∀ x ∈ xs, p x)
    (hy : ∀ y ∈ ys, p y) (h : xs.map f = ys.map f) : xs = ys := by
  induction xs generalizing ys with
  | nil =>
    rw [List.map_nil, eq_comm, List.map_eq_nil_iff] at h
    exact h.symm
  | cons x xs ih =>
    cases ys with
    | nil => cases h
    | cons y ys =>
      injection h with hhead htail
      rw [hf x y (hx x List.mem_cons_self) (hy y List.mem_cons_self) hhead,
        ih (fun z hz => hx z (List.mem_cons_of_mem _ hz))
          (fun z hz => hy z (List.mem_cons_of_mem _ hz)) htail]

theorem encoded_lt (h : w ∈ (groups.flatMap fun g => sextets 4 (groupValue d g)) ++
    sextets 2 (byteAt d 63).toNat) : w < 64 := by
  rcases List.mem_append.mp h with h | h
  · obtain ⟨g, -, hw⟩ := List.mem_flatMap.mp h
    exact sextets_lt hw
  · exact sextets_lt h

theorem length_groups : groups.length = 21 := rfl

theorem length_encode (d : Bytes) : (encode d).length = 86 := by
  have hgroups : (groups.flatMap fun g => sextets 4 (groupValue d g)).length = 84 := by
    rw [List.length_flatMap, List.map_congr_left fun g _ => length_sextets 4 (groupValue d g)]
    rfl
  rw [encode, List.length_map, List.length_append, hgroups, length_sextets]

/-- Each byte of the digest is in one group, or the last. -/
theorem groups_cover : ∀ i < 64, i = 63 ∨ ∃ g ∈ groups, i = g.1 ∨ i = g.2.1 ∨ i = g.2.2 := by
  decide

theorem alphabet_injective : ∀ v < 64, ∀ w < 64,
    byteAt alphabet v = byteAt alphabet w → v = w := by
  decide

/-- The text tells the digest. -/
theorem encode_injective (hd : d.length = 64) (hd' : d'.length = 64) (h : encode d = encode d') :
    d = d' := by
  have hvalues := map_injective
    (fun v w hv hw he => alphabet_injective v hv w hw he) (fun _ => encoded_lt) (fun _ => encoded_lt) h
  obtain ⟨hgroups, hlast⟩ := List.append_inj' hvalues (by rw [length_sextets, length_sextets])
  have hgroup := flatMap_injective (fun g => by rw [length_sextets, length_sextets]) hgroups
  refine ext_byteAt (hd.trans hd'.symm) fun i hi => ?_
  rcases groups_cover i (by omega) with rfl | ⟨g, hg, hi⟩
  · have h63 := (byteAt d 63).toNat_lt
    have h63' := (byteAt d' 63).toNat_lt
    exact UInt8.toNat_inj.mp (sextets_injective (by omega) (by omega) hlast)
  · obtain ⟨h1, h2, h3⟩ := groupValue_injective
      (sextets_injective (groupValue_lt d g) (groupValue_lt d' g) (hgroup g hg))
    rcases hi with rfl | rfl | rfl
    · exact h1
    · exact h2
    · exact h3

theorem saltOf_eq {salt : Bytes} (h : 36 ∉ salt) : saltOf salt = salt.take 16 := by
  rw [saltOf, List.takeWhile_eq_self_iff.mpr fun c hc => ?_]
  exact decide_eq_true fun he => h (he ▸ hc)

/-- For one salt, the text tells the digest. -/
theorem crypt_injective {hash : Bytes → Bytes} {rounds : Nat} {password password' salt : Bytes}
    (hh : ∀ b, (hash b).length = 64)
    (h : crypt hash rounds password salt = crypt hash rounds password' salt) :
    finalDigest hash password (saltOf salt) rounds =
      finalDigest hash password' (saltOf salt) rounds :=
  encode_injective (length_finalDigest hh _ _ _) (length_finalDigest hh _ _ _)
    (List.append_cancel_left h)

end Text

end LsvmTools.Lib.ShaCrypt
