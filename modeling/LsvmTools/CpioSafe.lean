import LsvmTools.CpioFormat

/-! # Walking any bytes

Entry sizes are read from the archive into an `int`, so an entry can have a size of
zero or less, and a name can run on after the end of its entry. The functions of
`cpio.c` walk a buffer safely exactly where every name that the walk comes to ends
inside its entry, and every archive of the buffer ends inside the buffer when it is
rounded up to whole blocks. -/
namespace LsvmTools.CpioSafe
open Lib.ByteString Lib.Program Lib.Loop Strings Cpio CpioFormat

variable {b : Buffer} {d h h' : Int} {mem : Nat → Bool}

/-! ## Steps of the walk -/

/-- `CPIONextHeader` leads from the header at `d` to the header at `h`. -/
def Walks (b : Buffer) : Int → Int → Prop :=
  Relation.ReflTransGen fun h h' => cpioNextHeader b h b.size = .ok (some h')

def entrySize (b : Buffer) (h : Int) : Int := cpioGetEntrySize (b.header h)

/-- The name of the entry at `h` ends inside the entry. -/
def NameEnds (b : Buffer) (h : Int) : Prop :=
  ∃ k : Nat, 110 + (k : Int) < entrySize b h ∧ b.peek (getName h + k) = 0

/-- All names that the walk from `d` comes to end inside their entries. -/
def Sound (b : Buffer) (d : Int) : Prop :=
  ∀ h, Walks b d h → cpioCheckEntry b h b.size = .ok () → NameEnds b h

theorem next_check {cpioEnd : Int} {o : Option Int} (hn : cpioNextHeader b h cpioEnd = .ok o) :
    cpioCheckEntry b h cpioEnd = .ok () := by
  obtain ⟨_, hc, -⟩ := Out.bind_eq_ok.mp hn
  exact hc

theorem next_eq {cpioEnd : Int} (hn : cpioNextHeader b h cpioEnd = .ok (some h')) :
    h' = h + entrySize b h ∧ cpioCheckEntry b h' cpioEnd = .ok () := by
  obtain ⟨_, -, hn⟩ := Out.bind_eq_ok.mp hn
  split at hn
  · cases hn
  · simp only at hn
    split at hn
    · cases hn
    · obtain ⟨_, hc, hn⟩ := Out.bind_eq_ok.mp hn
      cases hn
      exact ⟨rfl, hc⟩

/-- What `CPIOCheckEntry` tests. -/
theorem check_ok {cpioEnd : Int} (hc : cpioCheckEntry b h cpioEnd = .ok ()) :
    110 ≤ toUintn (toInt (cpioEnd - h)) ∧ cpioMatchMagicNumber (b.header h).magic = true ∧
      entrySize b h ≤ toInt (cpioEnd - h) := by
  unfold cpioCheckEntry at hc
  simp only at hc
  split at hc
  · cases hc
  · split at hc
    · cases hc
    · split at hc
      · cases hc
      · split at hc
        · cases hc
        · rename_i h1 h2 _ h4
          exact ⟨by omega, by simpa using h2, by unfold entrySize; omega⟩

theorem size_lt (b : Buffer) : b.size < 2 ^ 63 := by
  have := b.size_lt
  unfold Buffer.size
  omega

theorem size_nonneg (b : Buffer) : 0 ≤ b.size := Int.natCast_nonneg _

/-- A header that the first test lets pass lies in the buffer. -/
theorem room (h1 : h ≤ b.size) (hr : 110 ≤ toUintn (toInt (b.size - h))) : h + 110 ≤ b.size := by
  by_contra hlt
  rw [toInt_of_lt (by omega) (by omega), toUintn_of_lt (by omega) (by omega)] at hr
  omega

/-- An entry that passes the check lies in the buffer. -/
theorem check_inside (h1 : h ≤ b.size) (hc : cpioCheckEntry b h b.size = .ok ()) :
    h + entrySize b h ≤ b.size := by
  have := (check_ok hc).2.2
  have := toInt_le (show 0 ≤ b.size - h by omega)
  omega

theorem NameEnds.size (hn : NameEnds b h) : 110 < entrySize b h := by
  obtain ⟨k, hk, -⟩ := hn
  omega

/-- The walk goes forward and stays in the buffer. -/
theorem Sound.walk (hs : Sound b d) (h1 : d ≤ b.size) (hw : Walks b d h) :
    d ≤ h ∧ h ≤ b.size := by
  induction hw with
  | refl => exact ⟨Int.le_refl _, h1⟩
  | @tail h h' hw hn ih =>
    obtain ⟨rfl, -⟩ := next_eq hn
    have hsize := (hs h hw (next_check hn)).size
    have := check_inside ih.2 (next_check hn)
    omega

/-- A loop that goes from header to header ends. -/
theorem walk_terminates {σ β : Type} {body : σ → Exec Unit (Step σ β)} (header : σ → Int)
    (hs : Sound b d) (h1 : d ≤ b.size)
    (hround : ∀ s, Walks b d (header s) → (body s).Terminates)
    (hnext : ∀ s t, (body s).Ends (.ok (.next t)) →
      cpioNextHeader b (header s) b.size = .ok (some (header t)))
    {s : σ} (hw : Walks b d (header s)) : (Exec.loop body s).Terminates := by
  refine Exec.loop_terminates (fun s => Walks b d (header s))
    (fun s => (b.size - header s).toNat) hround (fun s t hw ht => ?_) hw
  have hn := hnext s t ht
  have hw' : Walks b d (header t) := hw.tail hn
  refine ⟨hw', ?_⟩
  have hsize := (hs _ hw (next_check hn)).size
  have hle := hs.walk h1 hw'
  obtain ⟨he, -⟩ := next_eq hn
  omega

theorem advance_next {σ ρ : Type} {cpioEnd : Int} {f : Int → σ} {r : ρ} {x : Step σ ρ}
    (ha : advance b h cpioEnd f r = .ok x) :
    (∃ h', cpioNextHeader b h cpioEnd = .ok (some h') ∧ x = .next (f h')) ∨
      (cpioNextHeader b h cpioEnd = .ok none ∧ x = .done r) := by
  obtain ⟨o, ho, hx⟩ := Out.bind_eq_ok.mp ha
  cases o with
  | some h' => cases hx; exact .inl ⟨h', ho, rfl⟩
  | none => cases hx; exact .inr ⟨ho, rfl⟩

/-! ## Names -/

theorem strlen_terminates {i : Int} {k : Nat} (hk : b.peek (i + k) = 0) :
    (b.strlen i).Terminates := by
  refine Exec.loop_terminates (fun n => n ≤ k) (fun n => k - n)
    (fun n _ => Exec.terminates_of _) (fun n m hn hm => ?_) (Nat.zero_le k)
  have hx := Exec.ends_pure.mp hm
  by_cases h0 : b.peek (i + n) = 0
  · rw [if_pos h0] at hx
    cases hx
  · rw [if_neg h0] at hx
    cases hx
    have : n ≠ k := fun he => h0 (he ▸ hk)
    omega

theorem NameEnds.string (hn : NameEnds b h) : (b.string (getName h)).Terminates := by
  obtain ⟨k, -, hk⟩ := hn
  exact (strlen_terminates hk).bind fun _ _ => Exec.terminates_of _

/-- A comparison reads no further than the name goes. -/
theorem strcmpReads_le {i : Int} {k : Nat} {p : Bytes} (hk : b.peek (i + k) = 0)
    (hp : (0 : UInt8) ∉ p) : b.strcmpReads i p ≤ k + 1 := by
  induction p generalizing i k with
  | nil => simp [Buffer.strcmpReads]
  | cons c cs ih =>
    rw [Buffer.strcmpReads]
    split
    · rename_i hc
      cases k with
      | zero =>
        rw [Int.natCast_zero, Int.add_zero, hc] at hk
        exact absurd hk fun h => hp (by simp [h])
      | succ k =>
        have := ih (i := i + 1) (k := k) (by rw [← hk]; congr 1; omega)
          fun hm => hp (by simp [hm])
        omega
    · omega

theorem bytes_succ (b : Buffer) (i : Int) (n : Nat) :
    b.bytes i (n + 1) = b.peek i :: b.bytes (i + 1) n := by
  have h := bytes_append b i 1 n
  rw [Nat.add_comm 1 n] at h
  rw [h]
  simp [Buffer.bytes]

/-- A comparison with the bytes that are there goes past them. -/
theorem strcmpReads_bytes (b : Buffer) (i : Int) (n : Nat) :
    b.strcmpReads i (b.bytes i n) = n + 1 := by
  induction n generalizing i with
  | zero => rfl
  | succ n ih => rw [bytes_succ, Buffer.strcmpReads, if_pos rfl, ih]

theorem mem_bytes {i : Int} {n : Nat} {c : UInt8} (hc : c ∈ b.bytes i n) :
    ∃ k : Nat, k < n ∧ b.peek (i + k) = c := by
  obtain ⟨k, hk, rfl⟩ := List.mem_map.mp hc
  exact ⟨k, List.mem_range.mp hk, rfl⟩

/-- Where no comparison goes past the entry, the name ends inside it. -/
theorem nameEnds_of_reads (hr : ∀ path : CStr,
    110 + (b.strcmpReads (getName h) path.bytes : Int) ≤ entrySize b h) : NameEnds b h := by
  by_contra hne
  have hzero : (0 : UInt8) ∉ b.bytes (getName h) (entrySize b h - 110).toNat := by
    intro hm
    obtain ⟨k, hk, h0⟩ := mem_bytes hm
    exact hne ⟨k, by omega, h0⟩
  have := hr ⟨_, hzero⟩
  rw [strcmpReads_bytes] at this
  omega

/-! ## The functions end -/

theorem walks_start (b : Buffer) (d : Int) : Walks b d d := Relation.ReflTransGen.refl

theorem findHeader_next {p : CStr} {t : Int}
    (hr : findHeaderRound b p h = .ok (.next t)) : cpioNextHeader b h b.size = .ok (some t) := by
  obtain ⟨_, -, hr⟩ := Out.bind_eq_ok.mp hr
  split at hr
  · cases hr
  · rcases advance_next hr with ⟨h', hn, ht⟩ | ⟨-, ht⟩
    · cases ht; exact hn
    · cases ht

theorem findHeader_terminates (hs : Sound b 0) (p : CStr) : (findHeader b p).Terminates := by
  refine Exec.Terminates.bind (walk_terminates id hs (size_nonneg b)
    (fun _ _ => Exec.terminates_of _)
    (fun s t ht => findHeader_next (Exec.ends_of.mp ht).symm) (walks_start b 0)) fun o _ => ?_
  cases o <;> exact Exec.terminates_of _

theorem checkFile_next {p : CStr} {t : Int}
    (hr : checkFileRound b p h = .ok (.next t)) : cpioNextHeader b h b.size = .ok (some t) := by
  obtain ⟨_, -, hr⟩ := Out.bind_eq_ok.mp hr
  split at hr
  · cases hr
  · rcases advance_next hr with ⟨h', hn, ht⟩ | ⟨-, ht⟩
    · cases ht; exact hn
    · cases ht

theorem checkFile_terminates (hs : Sound b 0) (p : CStr) : (cpioCheckFile b p).Terminates := by
  unfold cpioCheckFile
  split
  · exact Exec.terminates_of _
  · exact walk_terminates id hs (size_nonneg b) (fun _ _ => Exec.terminates_of _)
      (fun s t ht => checkFile_next (Exec.ends_of.mp ht).symm) (walks_start b 0)

/-- A round that reads the name of an entry ends. -/
theorem named_terminates {α : Type} (hs : Sound b d) (hw : Walks b d h) (k : CStr → Exec Unit α)
    (hk : ∀ name, (k name).Terminates) :
    (do
      Exec.of (cpioCheckEntry b h b.size)
      let name ← b.string (getName h)
      k name : Exec Unit α).Terminates :=
  Exec.Terminates.bind (Exec.terminates_of _) fun _ hc =>
    (hs h hw (Exec.ends_of.mp hc).symm).string.bind fun name _ => hk name

theorem dumpFile_terminates (hs : Sound b 0) : (cpioDumpFile b).Terminates := by
  unfold cpioDumpFile
  split
  · exact Exec.terminates_of _
  · refine walk_terminates Prod.fst hs (size_nonneg b)
      (fun s hw => named_terminates hs hw _ fun name => Exec.terminates_of _)
      (fun s t ht => ?_) (walks_start b 0)
    obtain ⟨_, -, ht⟩ := Exec.ends_bind_ok.mp ht
    obtain ⟨name, -, ht⟩ := Exec.ends_bind_ok.mp ht
    rcases advance_next (Exec.ends_of.mp ht).symm with ⟨h', hn, hx⟩ | ⟨-, hx⟩
    · cases hx; exact hn
    · cases hx

theorem findFiles_terminates (hs : Sound b 0) (base : CStr) :
    (cpioFindFilesByBaseName mem b base).Terminates := by
  unfold cpioFindFilesByBaseName
  split
  · exact Exec.terminates_of _
  · refine walk_terminates Prod.fst hs (size_nonneg b)
      (fun s hw => named_terminates hs hw _ fun name =>
        Exec.Terminates.bind (Exec.terminates_of _) fun _ _ => Exec.terminates_of _)
      (fun s t ht => ?_) (walks_start b 0)
    obtain ⟨_, -, ht⟩ := Exec.ends_bind_ok.mp ht
    obtain ⟨name, -, ht⟩ := Exec.ends_bind_ok.mp ht
    obtain ⟨arr, -, ht⟩ := Exec.ends_bind_ok.mp ht
    rcases advance_next (Exec.ends_of.mp ht).symm with ⟨h', hn, hx⟩ | ⟨-, hx⟩
    · cases hx; exact hn
    · cases hx

theorem copyEntry_header {p : CStr} {s s' : Copy} (h : copyEntry b p s = .ok s') :
    s'.header = s.header := by
  unfold copyEntry at h
  split at h
  · cases h; rfl
  · simp only at h
    split at h
    · cases h
    · obtain ⟨out, -, h⟩ := Out.bind_eq_ok.mp h
      cases h
      rfl

theorem removeRound_next {p : CStr} {s : Copy} {x : Step Copy Copy}
    (hr : removeRound b p s = .ok x) :
    (∃ s', cpioNextHeader b s.header b.size = .ok (some s'.header) ∧ x = .next s') ∨
      cpioNextHeader b s.header b.size = .ok none ∧ ∃ s', x = .done s' := by
  obtain ⟨_, -, hr⟩ := Out.bind_eq_ok.mp hr
  obtain ⟨s', hs, hr⟩ := Out.bind_eq_ok.mp hr
  rw [copyEntry_header hs] at hr
  rcases advance_next hr with ⟨h', hn, rfl⟩ | ⟨hn, rfl⟩
  · exact .inl ⟨_, hn, rfl⟩
  · exact .inr ⟨hn, _, rfl⟩

theorem removeFile_terminates (hs : Sound b 0) (p : CStr) :
    (cpioRemoveFile mem b p).Terminates := by
  unfold cpioRemoveFile
  split
  · exact Exec.terminates_of _
  · refine (findHeader_terminates hs p).bind fun _ _ => ?_
    refine Exec.Terminates.bind (Exec.terminates_of _) fun out _ => ?_
    refine Exec.Terminates.bind (walk_terminates Copy.header hs (size_nonneg b)
      (fun _ _ => Exec.terminates_of _) (fun s t ht => ?_) (walks_start b 0)) fun s _ => ?_
    · rcases removeRound_next (Exec.ends_of.mp ht).symm with ⟨s', hn, hx⟩ | ⟨-, s', hx⟩
      · cases hx; exact hn
      · cases hx
    · split <;> exact Exec.terminates_of _

/-! ## Subfiles -/

/-- How far an archive at `d` reaches whose trailer is at `h`, in whole blocks. -/
def archiveSize (b : Buffer) (d h : Int) : Int :=
  roundUpToMultiple
    (toUintn (roundUpToMultiple (toUintn (h + entrySize b h - d)) 4)) 512

/-- The archive at `d` has its trailer at `h`. -/
def TrailerAt (b : Buffer) (d h : Int) : Prop :=
  Walks b d h ∧ cpioNextHeader b h b.size = .ok none

theorem toUintn_toUintn_add (x y : Int) : toUintn (toUintn x + y) = toUintn (x + y) := by
  unfold toUintn
  exact Int.emod_add_emod ..

theorem subfileRound_cases {cpioSize cpioEnd acc : Int} {x : Step (Int × Int) (Int × Bool)}
    (hr : subfileRound b cpioSize cpioEnd (h, acc) = .ok x) :
    x = .done (cpioSize, false) ∧ cpioMatchMagicNumber (b.header h).magic = false ∨
      (∃ h', cpioNextHeader b h cpioEnd = .ok (some h') ∧
        x = .next (h', toUintn (acc + entrySize b h))) ∨
      (cpioNextHeader b h cpioEnd = .ok none ∧ x = .done (toUintn (acc + entrySize b h), true)) := by
  unfold subfileRound at hr
  cases hm : cpioMatchMagicNumber (b.header h).magic with
  | false =>
    simp only [hm, Bool.not_false, if_true] at hr
    cases hr
    exact .inl ⟨rfl, rfl⟩
  | true =>
    simp only [hm, Bool.not_true, Bool.false_eq_true, if_false] at hr
    obtain ⟨_, -, hr⟩ := Out.bind_eq_ok.mp hr
    rcases advance_next hr with ⟨h', hn, rfl⟩ | ⟨hn, rfl⟩
    · exact .inr (.inl ⟨h', hn, rfl⟩)
    · exact .inr (.inr ⟨hn, rfl⟩)

theorem subfileRound_next {cpioSize cpioEnd acc : Int} {o : Option Int}
    (hn : cpioNextHeader b h cpioEnd = .ok o) :
    subfileRound b cpioSize cpioEnd (h, acc) = .ok (match o with
      | some h' => .next (h', toUintn (acc + entrySize b h))
      | none => .done (toUintn (acc + entrySize b h), true)) := by
  have hc := next_check hn
  unfold subfileRound
  simp only [(check_ok hc).2.1, Bool.not_true, Bool.false_eq_true, if_false, hc, Out.ok_bind,
    advance, hn]
  cases o <;> rfl

/-- The inner loop adds up the sizes up to the trailer. -/
theorem subfileLoop_ends {cpioSize acc : Int} (ht : TrailerAt b d h) :
    (Exec.loop (fun s => Exec.of (subfileRound b cpioSize b.size s)) (d, acc)).Ends
      (.ok (toUintn (acc + (h + entrySize b h - d)), true)) := by
  obtain ⟨hw, hn⟩ := ht
  induction hw using Relation.ReflTransGen.head_induction_on generalizing acc with
  | refl =>
    have hlast : (Exec.of (subfileRound b cpioSize b.size (h, acc))).Ends
        (.ok (.done (toUintn (acc + entrySize b h), true))) :=
      Exec.ends_of.mpr (subfileRound_next hn).symm
    have : (Exec.loop (fun s => Exec.of (subfileRound b cpioSize b.size s)) (h, acc)).Ends _ :=
      Exec.loop_done hlast
    rwa [show acc + (h + entrySize b h - h) = acc + entrySize b h by omega]
  | @head d d' hd _ ih =>
    obtain ⟨hd', -⟩ := next_eq hd
    refine (Exec.loop_next (Exec.ends_of.mpr (subfileRound_next hd).symm)).mpr ?_
    have := @ih (toUintn (acc + entrySize b d))
    rw [toUintn_toUintn_add] at this
    rwa [show acc + (h + entrySize b h - d) = acc + entrySize b d + (h + entrySize b h - d') by
      omega]

/-- What the inner loop ends with. -/
theorem subfileLoop_ok {cpioSize : Int} {r : Int × Bool}
    (hr : (Exec.loop (fun s => Exec.of (subfileRound b cpioSize b.size s)) (d, 0)).Ends (.ok r)) :
    r = (cpioSize, false) ∧ cpioMatchMagicNumber (b.header d).magic = false ∨
      ∃ h, TrailerAt b d h ∧ r = (toUintn (h + entrySize b h - d), true) := by
  obtain ⟨⟨h, acc⟩, ⟨hw, hacc, hm⟩, hdone⟩ := Exec.loop_ok
    (fun s : Int × Int => Walks b d s.1 ∧ s.2 = toUintn (s.1 - d) ∧
      (s.1 = d ∨ cpioMatchMagicNumber (b.header s.1).magic = true)) (by
      rintro ⟨h, acc⟩ t ⟨hw, hacc, -⟩ ht
      rcases subfileRound_cases (Exec.ends_of.mp ht).symm with ⟨hx, -⟩ | ⟨h', hn, hx⟩ | ⟨-, hx⟩
      · cases hx
      · cases hx
        obtain ⟨rfl, hc⟩ := next_eq hn
        refine ⟨hw.tail hn, ?_, .inr (check_ok hc).2.1⟩
        simp only at hacc ⊢
        rw [hacc, toUintn_toUintn_add]
        congr 1
        omega
      · cases hx)
    ⟨walks_start b d, by
      rw [show d - d = 0 by omega, toUintn_of_lt (by decide) (by decide)], .inl rfl⟩ hr
  rcases subfileRound_cases (Exec.ends_of.mp hdone).symm with ⟨hx, hno⟩ | ⟨h', -, hx⟩ | ⟨hn, hx⟩
  · cases hx
    rcases hm with rfl | hm
    · exact .inl ⟨rfl, hno⟩
    · rw [hm] at hno
      cases hno
  · cases hx
  · cases hx
    refine .inr ⟨h, ⟨hw, hn⟩, ?_⟩
    simp only at hacc
    rw [hacc, toUintn_toUintn_add]
    congr 2
    omega

theorem subfileLoop_terminates {cpioSize : Int} (hs : Sound b d) (h1 : d ≤ b.size) :
    (Exec.loop (fun s => Exec.of (subfileRound b cpioSize b.size s)) (d, 0)).Terminates := by
  refine walk_terminates Prod.fst hs h1 (fun _ _ => Exec.terminates_of _) (fun s t ht => ?_)
    (walks_start b d)
  rcases subfileRound_cases (Exec.ends_of.mp ht).symm with ⟨hx, -⟩ | ⟨h', hn, hx⟩ | ⟨-, hx⟩
  · cases hx
  · cases hx; exact hn
  · cases hx

/-- The end of the archive is where the buffer ends. -/
theorem cpioEnd_eq (b : Buffer) (d : Int) : toPtr (d + (b.size - d)) = b.size := by
  have h1 := size_lt b
  have h2 := size_nonneg b
  rw [show d + (b.size - d) = b.size by omega, toPtr_of_lt (by omega) (by omega)]

/-- The start of an archive has room for a header. -/
theorem TrailerAt.check (ht : TrailerAt b d h) : cpioCheckEntry b d b.size = .ok () := by
  obtain ⟨hw, hn⟩ := ht
  rcases Relation.ReflTransGen.cases_head hw with rfl | ⟨c, hc, -⟩
  · exact next_check hn
  · exact next_check hc

theorem subfileSize_trailer (h1 : d ≤ b.size) (ht : TrailerAt b d h) :
    (subfileSize b d (b.size - d)).Ends (.ok (toUintn (archiveSize b d h))) := by
  have hroom := room h1 (check_ok ht.check).1
  unfold subfileSize
  rw [if_pos (by omega)]
  have hloop := @subfileLoop_ends _ _ _ (b.size - d) 0 ht
  rw [Int.zero_add] at hloop
  simp only [cpioEnd_eq]
  exact hloop.bind (Exec.ends_pure.mpr rfl)

theorem subfileSize_ok {r : Int} (hr : (subfileSize b d (b.size - d)).Ends (.ok r)) :
    (r = b.size - d ∧ (b.size - d < 110 ∨ cpioMatchMagicNumber (b.header d).magic = false)) ∨
      ∃ h, TrailerAt b d h ∧ r = toUintn (archiveSize b d h) := by
  unfold subfileSize at hr
  split at hr
  · simp only [cpioEnd_eq] at hr
    obtain ⟨⟨size, isCPIO⟩, hloop, hr⟩ := Exec.ends_bind_ok.mp hr
    rcases subfileLoop_ok hloop with ⟨hx, hm⟩ | ⟨h, ht, hx⟩
    · cases hx
      cases Exec.ends_pure.mp hr
      exact .inl ⟨rfl, .inr hm⟩
    · cases hx
      cases Exec.ends_pure.mp hr
      exact .inr ⟨h, ht, rfl⟩
  · rename_i hlt
    cases Exec.ends_pure.mp hr
    exact .inl ⟨rfl, .inl (by omega)⟩

theorem subfileSize_terminates (hs : Sound b d) (h1 : d ≤ b.size) :
    (subfileSize b d (b.size - d)).Terminates := by
  unfold subfileSize
  split
  · simp only [cpioEnd_eq]
    refine (subfileLoop_terminates hs h1).bind fun x _ => ?_
    obtain ⟨size, isCPIO⟩ := x
    cases isCPIO <;> exact Exec.terminates_of _
  · exact Exec.terminates_of _

/-! ## Splitting -/

/-- The states of the outer loop of `CPIOSplitFile`. -/
def Starts (b : Buffer) : Split → Prop :=
  Relation.ReflTransGen (fun s t => (splitRound b s).Ends (.ok (.next t))) ⟨0, b.size, []⟩

/-- Where the `i`-th subfile of the buffer starts: an archive before it ends there. -/
inductive SubfileAt (b : Buffer) : Nat → Int → Prop
  | first : SubfileAt b 0 0
  | next {i : Nat} {d h : Int} (hs : SubfileAt b i d) (ht : TrailerAt b d h)
      (h0 : 0 ≤ d + archiveSize b d h) (h1 : d + archiveSize b d h ≤ b.size) :
      SubfileAt b (i + 1) (d + archiveSize b d h)

theorem SubfileAt.inside {i : Nat} (hs : SubfileAt b i d) : 0 ≤ d ∧ d ≤ b.size := by
  cases hs with
  | first => exact ⟨Int.le_refl _, size_nonneg b⟩
  | next _ _ h0 h1 => exact ⟨h0, h1⟩

theorem archiveSize_lt (b : Buffer) (d h : Int) :
    -2 ^ 31 ≤ archiveSize b d h ∧ archiveSize b d h < 2 ^ 31 := ⟨le_toInt _, toInt_lt _⟩

theorem toPtr_add_toUintn (x y : Int) : toPtr (x + toUintn y) = toPtr (x + y) := by
  unfold toPtr toUintn
  exact Int.add_emod_bmod y (2 ^ 64)

theorem toUintn_sub_toUintn (x y : Int) : toUintn (x - toUintn y) = toUintn (x - y) := by
  unfold toUintn
  exact Int.sub_emod_emod ..

theorem splitRound_next {s t : Split} (hr : (splitRound b s).Ends (.ok (.next t))) :
    s.size ≠ 0 ∧ s.subfiles.length < 8 ∧ ∃ r, (subfileSize b s.data s.size).Ends (.ok r) ∧
      t = ⟨toPtr (s.data + r), toUintn (s.size - r), s.subfiles ++ [⟨s.data, r⟩]⟩ := by
  unfold splitRound at hr
  split at hr
  · cases Exec.ends_pure.mp hr
  · rename_i h0
    split at hr
    · cases Exec.ends_of.mp hr
    · rename_i h8
      obtain ⟨r, hsize, hr⟩ := Exec.ends_bind_ok.mp hr
      cases Exec.ends_pure.mp hr
      exact ⟨h0, by omega, r, hsize, rfl⟩

theorem splitRound_trailer {subs : List Subfile} (h8 : subs.length < 8) (h1 : d ≤ b.size)
    (ht : TrailerAt b d h) :
    (splitRound b ⟨d, b.size - d, subs⟩).Ends (.ok (.next
      ⟨toPtr (d + archiveSize b d h), toUintn (b.size - d - archiveSize b d h),
        subs ++ [⟨d, toUintn (archiveSize b d h)⟩]⟩)) := by
  have hroom := room h1 (check_ok ht.check).1
  have hends := subfileSize_trailer h1 ht
  unfold splitRound
  simp only [show ¬ b.size - d = 0 by omega, show ¬ subs.length ≥ 8 by omega, if_false]
  refine hends.bind ?_
  rw [toPtr_add_toUintn, toUintn_sub_toUintn]
  exact Exec.ends_pure.mpr rfl

/-- The outer loop comes to every subfile. -/
theorem SubfileAt.starts {i : Nat} (hs : SubfileAt b i d) (hi : i ≤ 8) :
    ∃ subs, subs.length = i ∧ Starts b ⟨d, b.size - d, subs⟩ := by
  induction hs with
  | first => exact ⟨[], rfl, by rw [Int.sub_zero]; exact Relation.ReflTransGen.refl⟩
  | @next i d h hs ht h0 h1 ih =>
    obtain ⟨subs, hlen, hstart⟩ := ih (by omega)
    have hlt := size_lt b
    have hn := hstart.tail (splitRound_trailer (by omega) hs.inside.2 ht)
    rw [toPtr_of_lt (by omega) (by omega), toUintn_of_lt (by omega) (by omega),
      show b.size - d - archiveSize b d h = b.size - (d + archiveSize b d h) by omega] at hn
    exact ⟨_, by rw [List.length_append, hlen, List.length_singleton], hn⟩

/-- The headers that the functions look at. -/
inductive Visited (b : Buffer) : Int → Prop
  | first (hr : 110 ≤ toUintn (toInt b.size)) : Visited b 0
  | subfile {s : Split} (hs : Starts b s) (h8 : s.subfiles.length < 8) (hr : 110 ≤ s.size) :
      Visited b s.data
  | next {h h' : Int} (hv : Visited b h) (hn : cpioNextHeader b h b.size = .ok (some h')) :
      Visited b h'

/-- The functions end, and stay in the buffer and in the entries. -/
structure Safe (mem : Nat → Bool) (b : Buffer) : Prop where
  findHeader : ∀ path, (findHeader b path).Terminates
  checkFile : ∀ path, (cpioCheckFile b path).Terminates
  dumpFile : (cpioDumpFile b).Terminates
  findFilesByBaseName : ∀ baseName, (cpioFindFilesByBaseName mem b baseName).Terminates
  removeFile : ∀ path, (cpioRemoveFile mem b path).Terminates
  splitFile : (cpioSplitFile b).Terminates
  forward : ∀ h h', Visited b h → cpioNextHeader b h b.size = .ok (some h') → h < h'
  inside : ∀ h, Visited b h → 0 ≤ h ∧ h + 110 ≤ b.size
  names : ∀ h, Visited b h → cpioCheckEntry b h b.size = .ok () → ∀ path : CStr,
    110 + (b.strcmpReads (getName h) path.bytes : Int) ≤ entrySize b h

/-- Names end inside their entries, and archives inside the buffer. -/
structure Walkable (b : Buffer) : Prop where
  names : ∀ i d, SubfileAt b i d → i < 8 → Sound b d
  blocks : ∀ i d h, SubfileAt b i d → i < 7 → TrailerAt b d h →
    0 ≤ d + archiveSize b d h ∧ d + archiveSize b d h ≤ b.size

/-! ## The condition is enough -/

/-- What the outer loop keeps: it is at a subfile, or it has come to its end. -/
def AtSubfile (b : Buffer) (s : Split) : Prop :=
  s.size = 0 ∨ 8 ≤ s.subfiles.length ∨
    SubfileAt b s.subfiles.length s.data ∧ s.size = b.size - s.data

theorem Walkable.next (hw : Walkable b) {s t : Split} (hs : AtSubfile b s)
    (hr : (splitRound b s).Ends (.ok (.next t))) : AtSubfile b t := by
  obtain ⟨h0, h8, r, hsize, rfl⟩ := splitRound_next hr
  rcases hs with hs | hs | ⟨hs, hd⟩
  · exact absurd hs h0
  · omega
  · rw [hd] at hsize
    rcases subfileSize_ok hsize with ⟨rfl, -⟩ | ⟨h, ht, rfl⟩
    · refine .inl ?_
      rw [hd, Int.sub_self, toUintn_of_lt (by decide) (by decide)]
    · by_cases h7 : s.subfiles.length < 7
      · obtain ⟨h0, h1⟩ := hw.blocks _ _ _ hs h7 ht
        have hlt := size_lt b
        refine .inr (.inr ⟨?_, ?_⟩)
        · rw [toPtr_add_toUintn, toPtr_of_lt (by omega) (by omega), List.length_append,
            List.length_singleton]
          exact .next hs ht h0 h1
        · simp only
          rw [hd, toPtr_add_toUintn, toUintn_sub_toUintn, toPtr_of_lt (by omega) (by omega),
            toUintn_of_lt (by omega) (by omega)]
          omega
      · refine .inr (.inl ?_)
        rw [List.length_append, List.length_singleton]
        omega

theorem Walkable.starts (hw : Walkable b) {s : Split} (hs : Starts b s) : AtSubfile b s := by
  induction hs with
  | refl => exact .inr (.inr ⟨.first, by simp⟩)
  | tail _ hr ih => exact hw.next ih hr

/-- A header that is looked at belongs to a subfile. -/
theorem Walkable.visited (hw : Walkable b) (hv : Visited b h) :
    (∃ i d, SubfileAt b i d ∧ i < 8 ∧ Walks b d h) ∧ h + 110 ≤ b.size := by
  induction hv with
  | first hr =>
    refine ⟨⟨0, 0, .first, by decide, walks_start b 0⟩, room (size_nonneg b) ?_⟩
    rwa [Int.sub_zero]
  | @subfile s hs h8 hr =>
    rcases hw.starts hs with h0 | h0 | ⟨hat, hd⟩
    · omega
    · omega
    · exact ⟨⟨_, _, hat, h8, walks_start b _⟩, by omega⟩
  | @next h h' _ hn ih =>
    obtain ⟨⟨i, d, hs, hi, hwalk⟩, -⟩ := ih
    have hwalk' := hwalk.tail hn
    have hle := (hw.names i d hs hi).walk hs.inside.2 hwalk'
    exact ⟨⟨i, d, hs, hi, hwalk'⟩, room hle.2 (check_ok (next_eq hn).2).1⟩

theorem Walkable.splitFile (hw : Walkable b) : (cpioSplitFile b).Terminates := by
  unfold cpioSplitFile
  split
  · exact Exec.terminates_of _
  · refine Exec.loop_terminates (AtSubfile b) (fun s => 8 - s.subfiles.length) (fun s hs => ?_)
      (fun s t hs hr => ⟨hw.next hs hr, ?_⟩) (.inr (.inr ⟨.first, by simp⟩))
    · unfold splitRound
      split
      · exact Exec.terminates_of _
      · split
        · exact Exec.terminates_of _
        · rename_i h0 h8
          rcases hs with hs | hs | ⟨hs, hd⟩
          · exact absurd hs h0
          · exact absurd hs h8
          · rw [hd]
            exact (subfileSize_terminates (hw.names _ _ hs (by omega)) hs.inside.2).bind
              fun _ _ => Exec.terminates_of _
    · obtain ⟨-, h8, r, -, rfl⟩ := splitRound_next hr
      simp only [List.length_append, List.length_singleton]
      omega

theorem Walkable.safe (hw : Walkable b) : Safe mem b where
  findHeader := findHeader_terminates (hw.names 0 0 .first (by decide))
  checkFile := checkFile_terminates (hw.names 0 0 .first (by decide))
  dumpFile := dumpFile_terminates (hw.names 0 0 .first (by decide))
  findFilesByBaseName := findFiles_terminates (hw.names 0 0 .first (by decide))
  removeFile := removeFile_terminates (hw.names 0 0 .first (by decide))
  splitFile := hw.splitFile
  forward := by
    intro h h' hv hn
    obtain ⟨⟨i, d, hs, hi, hwalk⟩, -⟩ := hw.visited hv
    have hsize := (hw.names i d hs hi h hwalk (next_check hn)).size
    obtain ⟨rfl, -⟩ := next_eq hn
    omega
  inside := by
    intro h hv
    obtain ⟨⟨i, d, hs, hi, hwalk⟩, hle⟩ := hw.visited hv
    have := (hw.names i d hs hi).walk hs.inside.2 hwalk
    have := hs.inside.1
    omega
  names := by
    intro h hv hc path
    obtain ⟨⟨i, d, hs, hi, hwalk⟩, -⟩ := hw.visited hv
    obtain ⟨k, hk, h0⟩ := hw.names i d hs hi h hwalk hc
    have := strcmpReads_le h0 path.noNul
    omega

/-! ## The condition is needed -/

theorem visited_start {i : Nat} (hs : SubfileAt b i d) (hi : i < 8)
    (hc : cpioCheckEntry b d b.size = .ok ()) : Visited b d := by
  obtain ⟨subs, hlen, hstart⟩ := hs.starts (by omega)
  have hroom := room hs.inside.2 (check_ok hc).1
  exact .subfile hstart (by simp only [hlen, hi]) (by simp only; omega)

theorem visited_walk (hw : Walks b d h) (hv : Visited b d) : Visited b h := by
  induction hw with
  | refl => exact hv
  | tail _ hn ih => exact .next ih hn

theorem Safe.walkable (hs : Safe mem b) : Walkable b where
  names := by
    intro i d hat hi h hwalk hc
    have hd : cpioCheckEntry b d b.size = .ok () := by
      rcases Relation.ReflTransGen.cases_head hwalk with rfl | ⟨c, hn, -⟩
      · exact hc
      · exact next_check hn
    exact nameEnds_of_reads (hs.names h (visited_walk hwalk (visited_start hat hi hd)) hc)
  blocks := by
    intro i d h hat hi ht
    by_contra hout
    obtain ⟨subs, hlen, hstart⟩ := hat.starts (by omega)
    have hnext := hstart.tail (splitRound_trailer (by omega) hat.inside.2 ht)
    have hroom := room hat.inside.2 (check_ok ht.check).1
    have hd := hat.inside
    have hlt := size_lt b
    have ha := archiveSize_lt b d h
    have hsize : 110 ≤ toUintn (b.size - d - archiveSize b d h) := by
      unfold toUintn
      omega
    have hv : Visited b (toPtr (d + archiveSize b d h)) :=
      .subfile hnext (by simp only [List.length_append, List.length_singleton]; omega) hsize
    have hin := hs.inside _ hv
    unfold toPtr at hin
    rw [Int.bmod_def] at hin
    split at hin <;> omega

/-- The functions walk a buffer safely exactly where names end inside their entries and
archives inside the buffer. -/
theorem safe_iff_walkable (mem : Nat → Bool) (b : Buffer) : Safe mem b ↔ Walkable b :=
  ⟨Safe.walkable, Walkable.safe⟩

/-! ## An entry of no size -/

/-- An entry `a` whose data is said to have 2^32 - 112 bytes, as many as take back the
size of the header and the name. -/
def endless : Buffer where
  data := (plainHeader 2 (2 ^ 32 - 112)).bytes ++ [97, 0]
  around _ := 0
  size_lt := by decide

theorem endless_next : cpioNextHeader endless 0 endless.size = .ok (some 0) := by decide +kernel

/-- The walk never leaves the entry. -/
theorem endless_walk : ¬ (findHeader endless trailerName).Terminates ∧
    ¬ Safe (fun _ => true) endless := by
  have hround : findHeaderRound endless trailerName 0 = .ok (.next 0) := by decide +kernel
  have hstay : ∀ h : Int, h = 0 →
      ∃ t, (Exec.of (findHeaderRound endless trailerName h)).Ends (.ok (.next t)) ∧ t = 0 :=
    fun h hh => ⟨0, Exec.ends_of.mpr (by rw [hh, hround]), rfl⟩
  have hloop := Exec.not_terminates (fun h => h = 0) hstay rfl
  have hfind : ¬ (findHeader endless trailerName).Terminates := by
    rintro ⟨r, hr⟩
    rcases Exec.ends_bind.mp hr with ⟨o, ho, -⟩ | ⟨e, he, -⟩ | ⟨he, -⟩
    · exact hloop ⟨_, ho⟩
    · exact hloop ⟨_, he⟩
    · exact hloop ⟨_, he⟩
  exact ⟨hfind, fun hs => hfind (hs.findHeader trailerName)⟩

end LsvmTools.CpioSafe
