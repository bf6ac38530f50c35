import LsvmTools.Lib.ByteString
import LsvmTools.Lib.Rounds

/-! # Reading and writing files of the boot volume

`ReadFileN` and `WriteFileN` call the file again until nothing is left. A call may succeed
without a byte transferred, and then they go on. -/
namespace LsvmTools.EfiFile
open Lib.ByteString Lib.Program Lib.Loop Lib.Rounds

abbrev Status := UInt64

def efiDeviceError : Status := 0x8000000000000007
def efiOutOfResources : Status := 0x8000000000000009
def efiNotFound : Status := 0x800000000000000E

/-- An `EFI_FILE` with states `σ`: what its calls return, and how they leave it. No call
transfers more than it is asked for. -/
structure File (σ : Type) where
  read : σ → Nat → Except Status Bytes × σ
  read_le : ∀ {s n b t}, read s n = (.ok b, t) → b.length ≤ n
  write : σ → Bytes → Except Status Nat × σ
  write_le : ∀ {s data n t}, write s data = (.ok n, t) → n ≤ data.length
  fileSize : σ → Except Status Nat × σ

/-! ## The loops -/

/-- The variables of the loops; `p` counts from the start of the buffer. -/
structure Progress (τ : Type) where
  p : Nat
  total : Nat
  state : τ

variable {σ τ : Type}

/-- A round of the loops, which call for what lies between `p` and the end. -/
def round (call : τ → Nat → Nat → Except Status Nat × τ) (size : Nat) (st : Progress τ) :
    Out Status (Step (Progress τ) (Progress τ)) :=
  if st.p = size then .ok (.done st)
  else match call st.state st.p (size - st.p) with
    | (.error e, _) => .err e
    | (.ok n, t) => .ok (.next ⟨st.p + n, st.total + n, t⟩)

/-- `ReadFileN` and `WriteFileN` but for the call. -/
def transferN (call : τ → Nat → Nat → Except Status Nat × τ) (size : Nat) (s : τ) :
    Exec Status τ := do
  let st ← loop (round call size) ⟨0, 0, s⟩
  if st.total ≠ size then Exec.throw efiDeviceError else pure st.state

/-- `ReadFile`, into a buffer at `p`. -/
def readFile (file : File σ) (s : σ × Bytes) (p n : Nat) : Except Status Nat × σ × Bytes :=
  match file.read s.1 n with
  | (.error e, t) => (.error e, t, s.2)
  | (.ok b, t) => (.ok b.length, t, splice s.2 p b)

/-- `WriteFile`, from a buffer at `p`. -/
def writeFile (file : File σ) (data : Bytes) (s : σ) (p n : Nat) : Except Status Nat × σ :=
  file.write s ((data.drop p).take n)

/-- `ReadFileN`, for a buffer of the size asked for. -/
def readFileN (file : File σ) (buffer : Bytes) (s : σ) : Exec Status (σ × Bytes) :=
  transferN (readFile file) buffer.length (s, buffer)

/-- `WriteFileN`. -/
def writeFileN (file : File σ) (data : Bytes) (s : σ) : Exec Status σ :=
  transferN (writeFile file data) data.length s

/-- `EFILoadFile`, with what `OpenFile` and `AllocatePool` return: the data and the size. -/
def efiLoadFile (file : File σ) (opened : Option σ)
    (pool : (n : Nat) → Option { b : Bytes // b.length = n }) : Exec Status (Bytes × Nat) :=
  match opened with
  | none => Exec.throw efiNotFound
  | some s => match file.fileSize s with
    | (.error e, _) => Exec.throw e
    | (.ok size, t) => match pool size with
      | none => Exec.throw efiOutOfResources
      | some buffer => do
        let (_, data) ← readFileN file buffer.1 t
        pure (data, size)

/-! ## What they are for -/

/-- Calls of `Read` that succeed, each for what is left, until nothing is left: what each of
them has read. -/
inductive Reads (file : File σ) : Nat → σ → List Bytes → σ → Prop where
  | nil {s : σ} : Reads file 0 s [] s
  | cons {n : Nat} {s t u : σ} {b : Bytes} {bs : List Bytes} (hn : 0 < n)
      (h : file.read s n = (.ok b, t)) (rest : Reads file (n - b.length) t bs u) :
      Reads file n s (b :: bs) u

/-- Calls of `Write` that succeed, each with what is left, until nothing is left: what each of
them has written. -/
inductive Writes (file : File σ) : Bytes → σ → List Bytes → σ → Prop where
  | nil {s : σ} : Writes file [] s [] s
  | cons {n : Nat} {s t u : σ} {data : Bytes} {bs : List Bytes} (hn : data ≠ [])
      (h : file.write s data = (.ok n, t)) (rest : Writes file (data.drop n) t bs u) :
      Writes file data s (data.take n :: bs) u

/-- It ends, and what it delivers is good. -/
structure Complete {α : Type} (m : Exec Status α) (good : α → Prop) : Prop where
  terminates : m.Terminates
  exact : ∀ {a}, m.Ends (.ok a) → good a

/-- The buffer holds what has been read, in order. -/
def ReadComplete (file : File σ) (buffer : Bytes) (s : σ) : Prop :=
  Complete (readFileN file buffer s) fun r =>
    ∃ bs, Reads file buffer.length s bs r.1 ∧ r.2 = bs.flatten

/-- What has been written is the data, in order. -/
def WriteComplete (file : File σ) (data : Bytes) (s : σ) : Prop :=
  Complete (writeFileN file data s) fun t => ∃ bs, Writes file data s bs t ∧ bs.flatten = data

/-- What is loaded is as much as the size of the file, read in order. -/
def LoadExact (file : File σ) (opened : Option σ)
    (pool : (n : Nat) → Option { b : Bytes // b.length = n }) : Prop :=
  ∀ data size, (efiLoadFile file opened pool).Ends (.ok (data, size)) →
    data.length = size ∧ ∃ s t u bs, opened = some s ∧ file.fileSize s = (.ok size, t) ∧
      Reads file size t bs u ∧ data = bs.flatten

/-- What is left comes to so many bytes and the file to the state. -/
inductive Leaves (step : σ → Nat → Except Status Nat × σ) (size : Nat) (s : σ) : Nat → σ → Prop where
  | start : Leaves step size s size s
  | call {n k : Nat} {t u : σ} (h : Leaves step size s n t) (hn : 0 < n)
      (hstep : step t n = (.ok k, u)) : Leaves step size s (n - k) u

/-- From some call on each one succeeds without a byte transferred, with bytes left. -/
def Stalls (step : σ → Nat → Except Status Nat × σ) (size : Nat) (s : σ) : Prop :=
  ∃ n t, Leaves step size s n t ∧ 0 < n ∧
    ∃ run : Nat → σ, run 0 = t ∧ ∀ k, step (run k) n = (.ok 0, run (k + 1))

/-- A call of `Read` for so many bytes. -/
def readStep (file : File σ) (s : σ) (n : Nat) : Except Status Nat × σ :=
  ((file.read s n).1.map List.length, (file.read s n).2)

/-- A call of `Write` for the last `n` bytes of the data. -/
def writeStep (file : File σ) (data : Bytes) (s : σ) (n : Nat) : Except Status Nat × σ :=
  writeFile file data s (data.length - n) n

/-! ## Rounds -/

section Rounds

variable {call : τ → Nat → Nat → Except Status Nat × τ} {size n : Nat} {s t : τ}
  {st st' : Progress τ}

/-- What the calls leave. -/
structure Counted (call : τ → Nat → Nat → Except Status Nat × τ) (size : Nat) (s : τ)
    (st : Progress τ) : Prop where
  total : st.total = st.p
  inside : st.p ≤ size
  leaves : Leaves (fun t n => call t (size - n) n) size s (size - st.p) st.state

theorem next_iff : Next (round call size) st st' ↔ st.p ≠ size ∧ ∃ k t,
    call st.state st.p (size - st.p) = (.ok k, t) ∧ st' = ⟨st.p + k, st.total + k, t⟩ := by
  unfold Next round
  by_cases h : st.p = size
  · rw [if_pos h]
    refine ⟨fun hd => (by cases hd), fun hd => absurd h hd.1⟩
  · rw [if_neg h]
    rcases hc : call st.state st.p (size - st.p) with ⟨e | k, t⟩
    · refine ⟨fun hd => (by cases hd), ?_⟩
      rintro ⟨-, k, u, hk, -⟩
      cases hk
    · constructor
      · intro hd
        cases hd
        exact ⟨h, k, t, rfl, rfl⟩
      · rintro ⟨-, k', t', hk, rfl⟩
        cases hk
        rfl

theorem counted_start : Counted call size s ⟨0, 0, s⟩ := ⟨rfl, Nat.zero_le _, .start⟩

theorem Counted.next (hle : ∀ {t p n k u}, call t p n = (.ok k, u) → k ≤ n)
    (h : Counted call size s st) (hnext : Next (round call size) st st') :
    Counted call size s st' := by
  obtain ⟨hne, k, t, hk, rfl⟩ := next_iff.mp hnext
  have hin := h.inside
  have hkn := hle hk
  have hpos : 0 < size - st.p := by omega
  have hback : size - (size - st.p) = st.p := by omega
  refine ⟨congrArg (· + k) h.total, ?_, ?_⟩
  · dsimp only
    omega
  · dsimp only
    rw [← Nat.sub_sub]
    refine h.leaves.call hpos ?_
    rw [hback]
    exact hk

theorem Counted.run (hle : ∀ {t p n k u}, call t p n = (.ok k, u) → k ≤ n)
    (h : Lib.Rounds.Comes (round call size) ⟨0, 0, s⟩ st) : Counted call size s st := by
  induction h with
  | refl => exact counted_start
  | tail _ hnext ih => exact ih.next hle hnext

theorem exists_progress (h : Leaves (fun t n => call t (size - n) n) size s n t)
    (hle : ∀ {t p n k u}, call t p n = (.ok k, u) → k ≤ n) :
    n ≤ size ∧ Lib.Rounds.Comes (round call size) ⟨0, 0, s⟩ ⟨size - n, size - n, t⟩ := by
  induction h with
  | start => exact ⟨Nat.le_refl _, by rw [Nat.sub_self]⟩
  | @call n k t u h hn hstep ih =>
    obtain ⟨hin, hcomes⟩ := ih
    have hkn := hle hstep
    have hback : size - (size - n) = n := by omega
    have hsum : size - (n - k) = size - n + k := by omega
    refine ⟨by omega, hcomes.tail (next_iff.mpr ⟨by dsimp only; omega, k, u, ?_, ?_⟩)⟩
    · dsimp only
      rw [hback]
      exact hstep
    · rw [hsum]

variable (call) in
/-- The loop stalls where the calls do. -/
theorem stalls_iff (hle : ∀ {t p n k u}, call t p n = (.ok k, u) → k ≤ n) :
    (∃ st, Lib.Rounds.Comes (round call size) ⟨0, 0, s⟩ st ∧
      Lib.Rounds.Stalls (round call size) (fun st => size - st.p) st) ↔
      Stalls (fun t n => call t (size - n) n) size s := by
  constructor
  · rintro ⟨st, hst, run, h0, hrun⟩
    have hcomes : ∀ k, Lib.Rounds.Comes (round call size) ⟨0, 0, s⟩ (run k) := by
      intro k
      induction k with
      | zero => exact h0 ▸ hst
      | succ k ih => exact ih.tail (hrun k).1
    have hsame : ∀ k, (run k).p = st.p := by
      intro k
      cases k with
      | zero => rw [h0]
      | succ k =>
        have hin := (Counted.run hle (hcomes (k + 1))).inside
        have hin' := (Counted.run hle hst).inside
        have hsize : size - (run (k + 1)).p = size - st.p := (hrun k).2
        omega
    have hne : st.p ≠ size := by
      obtain ⟨hne, -⟩ := next_iff.mp (hrun 0).1
      rwa [hsame] at hne
    have hcount := Counted.run hle hst
    have hin := hcount.inside
    have hback : size - (size - st.p) = st.p := by omega
    refine ⟨size - st.p, st.state, hcount.leaves, by omega, fun k => (run k).state,
      congrArg Progress.state h0, fun k => ?_⟩
    obtain ⟨-, n, t, hcall, hnext⟩ := next_iff.mp (hrun k).1
    have hp : (run (k + 1)).p = (run k).p + n := congrArg Progress.p hnext
    have hn : n = 0 := by
      rw [hsame, hsame] at hp
      omega
    have ht : (run (k + 1)).state = t := congrArg Progress.state hnext
    dsimp only
    rw [hback, ht, ← hn, ← hcall, hsame]
  · rintro ⟨n, t, hleaves, hn, run, h0, hrun⟩
    obtain ⟨hin, hcomes⟩ := exists_progress hleaves hle
    have hback : size - (size - n) = n := by omega
    refine ⟨_, hcomes, fun k => ⟨size - n, size - n, run k⟩,
      congrArg (Progress.mk (size - n) (size - n)) h0, fun k => ⟨?_, rfl⟩⟩
    refine next_iff.mpr ⟨by dsimp only; omega, 0, run (k + 1), ?_, rfl⟩
    dsimp only
    rw [hback]
    exact hrun k

variable (call size) in
theorem transferN_terminates_iff (hle : ∀ {t p n k u}, call t p n = (.ok k, u) → k ≤ n) :
    (transferN call size s).Terminates ↔ ¬ Stalls (fun t n => call t (size - n) n) size s := by
  have hsize : ∀ t u, Next (round call size) t u → size - u.p ≤ size - t.p := by
    intro t u hnext
    obtain ⟨-, k, v, -, rfl⟩ := next_iff.mp hnext
    dsimp only
    omega
  rw [← stalls_iff call hle, ← terminates_iff_not_stalls hsize]
  constructor
  · rintro ⟨r, hr⟩
    rcases Exec.ends_bind.mp hr with ⟨st, hst, -⟩ | ⟨e, he, -⟩ | ⟨he, -⟩
    · exact ⟨_, hst⟩
    · exact ⟨_, he⟩
    · exact ⟨_, he⟩
  · intro h
    refine h.bind fun st _ => ?_
    split
    · exact ⟨_, Exec.ends_of.mpr rfl⟩
    · exact ⟨_, Exec.ends_pure.mpr rfl⟩

/-- What is delivered has been left by calls for all there was. -/
theorem transferN_ok (hle : ∀ {t p n k u}, call t p n = (.ok k, u) → k ≤ n)
    (h : (transferN call size s).Ends (.ok t)) :
    Leaves (fun t n => call t (size - n) n) size s 0 t := by
  obtain ⟨st, hloop, h⟩ := Exec.ends_bind_ok.mp h
  obtain ⟨st', hcomes, hdone⟩ := ends_ok_iff.mp hloop
  have hcount := Counted.run hle hcomes
  have hp : st'.p = size ∧ st' = st := by
    unfold round at hdone
    split at hdone
    · injection hdone with hdone
      injection hdone with hdone
      exact ⟨‹_›, hdone⟩
    · split at hdone <;> cases hdone
  obtain ⟨hp, rfl⟩ := hp
  rw [if_neg (not_not.mpr (hcount.total.trans hp)), Exec.ends_pure] at h
  injection h with ht
  have hleaves := hcount.leaves
  rw [hp, Nat.sub_self] at hleaves
  rwa [ht]

end Rounds

/-! ## Reading -/

section Read

variable {file : File σ} {size n : Nat} {s t : σ} {buffer : Bytes} {r : σ × Bytes}

/-- Parts of the state that decide what the calls do. -/
theorem leaves_lift {step : τ → Nat → Except Status Nat × τ}
    {step' : σ → Nat → Except Status Nat × σ} (f : τ → σ)
    (hf : ∀ t n, step' (f t) n = ((step t n).1, f (step t n).2)) {a : τ} {b : σ}
    (h : Leaves step' size (f a) n b) : ∃ a', f a' = b ∧ Leaves step size a n a' := by
  induction h with
  | start => exact ⟨a, rfl, .start⟩
  | @call n k t u _ hn hstep ih =>
    obtain ⟨a', rfl, hleaves⟩ := ih
    rw [hf] at hstep
    injection hstep with h1 h2
    exact ⟨_, h2, hleaves.call hn (Prod.ext h1 rfl)⟩

theorem leaves_map {step : τ → Nat → Except Status Nat × τ}
    {step' : σ → Nat → Except Status Nat × σ} (f : τ → σ)
    (hf : ∀ t n, step' (f t) n = ((step t n).1, f (step t n).2)) {a b : τ}
    (h : Leaves step size a n b) : Leaves step' size (f a) n (f b) := by
  induction h with
  | start => exact .start
  | call _ hn hstep ih =>
    refine ih.call hn ?_
    rw [hf, hstep]

theorem stalls_map {step : τ → Nat → Except Status Nat × τ}
    {step' : σ → Nat → Except Status Nat × σ} (f : τ → σ)
    (hf : ∀ t n, step' (f t) n = ((step t n).1, f (step t n).2)) {a : τ} :
    Stalls step size a ↔ Stalls step' size (f a) := by
  constructor
  · rintro ⟨n, t, hleaves, hn, run, rfl, hrun⟩
    refine ⟨n, _, leaves_map f hf hleaves, hn, fun k => f (run k), rfl, fun k => ?_⟩
    rw [hf, hrun k]
  · rintro ⟨n, t, hleaves, hn, run, rfl, hrun⟩
    obtain ⟨a', ha, hleaves'⟩ := leaves_lift f hf hleaves
    have hlift : ∀ k, f ((fun a => (step a n).2)^[k] a') = run k := by
      intro k
      induction k with
      | zero => exact ha
      | succ k ih =>
        have hk := hf ((fun a => (step a n).2)^[k] a') n
        rw [ih, hrun k] at hk
        injection hk with _ hk
        rw [Function.iterate_succ_apply']
        exact hk.symm
    refine ⟨n, a', hleaves', hn, fun k => (fun a => (step a n).2)^[k] a', rfl, fun k => ?_⟩
    have hk := hf ((fun a => (step a n).2)^[k] a') n
    rw [hlift, hrun k] at hk
    injection hk with hk _
    dsimp only
    rw [Function.iterate_succ_apply']
    exact Prod.ext hk.symm rfl

theorem readFile_le {p k : Nat} {a b : σ × Bytes} (h : readFile file a p n = (.ok k, b)) :
    k ≤ n := by
  unfold readFile at h
  split at h
  · cases h
  · rename_i hread
    injection h with hk
    injection hk with hk
    exact hk ▸ file.read_le hread

theorem readFile_step (a : σ × Bytes) (p n : Nat) :
    readStep file a.1 n = ((readFile file a p n).1, (readFile file a p n).2.1) := by
  unfold readStep readFile
  rcases file.read a.1 n with ⟨e | b, t⟩ <;> rfl

/-- What has been read is in front in the buffer. -/
theorem leaves_reads
    (h : Leaves (fun a n => readFile file a (size - n) n) size (s, buffer) n r) :
    n ≤ size ∧ ∃ bs, (∀ us u, Reads file n r.1 us u → Reads file size s (bs ++ us) u) ∧
      bs.flatten.length = size - n ∧ r.2 = bs.flatten ++ buffer.drop (size - n) := by
  induction h with
  | start =>
    refine ⟨Nat.le_refl _, [], fun us u h => h, ?_, ?_⟩
    · rw [Nat.sub_self]
      rfl
    · rw [Nat.sub_self]
      rfl
  | @call n k a a' _ hn hstep ih =>
    obtain ⟨hin, bs, hreads, hlen, hdata⟩ := ih
    have hkn := readFile_le hstep
    unfold readFile at hstep
    split at hstep
    · cases hstep
    · rename_i b t hread
      injection hstep with hk ht
      injection hk with hk
      subst hk ht
      have hsum : size - (n - b.length) = size - n + b.length := by omega
      refine ⟨by omega, bs ++ [b], fun us u hus => ?_, ?_, ?_⟩
      · rw [List.append_assoc]
        exact hreads _ _ (.cons hn hread hus)
      · rw [List.flatten_append, List.flatten_singleton, List.length_append, hlen, hsum]
      · dsimp only at hdata ⊢
        rw [hdata, List.flatten_append, List.flatten_singleton, hsum, ← List.drop_drop, splice,
          List.take_left' hlen, ← hlen, List.drop_length_add_append]

theorem readFileN_terminates_iff :
    (readFileN file buffer s).Terminates ↔ ¬ Stalls (readStep file) buffer.length s := by
  have hproj : Stalls (fun a n => readFile file a (buffer.length - n) n) buffer.length (s, buffer) ↔
      Stalls (readStep file) buffer.length s :=
    stalls_map Prod.fst fun a n => readFile_step a _ n
  rw [← hproj, ← transferN_terminates_iff (readFile file) buffer.length readFile_le, readFileN]

/-- Nothing but stalling keeps the buffer from being filled. -/
theorem readComplete_iff : ReadComplete file buffer s ↔ ¬ Stalls (readStep file) buffer.length s := by
  rw [← readFileN_terminates_iff]
  refine ⟨fun h => h.terminates, fun h => ⟨h, fun hr => ?_⟩⟩
  obtain ⟨-, bs, hreads, -, hdata⟩ := leaves_reads (transferN_ok readFile_le hr)
  refine ⟨bs, ?_, ?_⟩
  · rw [← List.append_nil bs]
    exact hreads _ _ .nil
  · rw [hdata, Nat.sub_zero, List.drop_length, List.append_nil]

/-- Calls of `Read` for all of it have read as much. -/
theorem Reads.length {bs : List Bytes} (h : Reads file n s bs t) : bs.flatten.length = n := by
  induction h with
  | nil => rfl
  | cons hn hread _ ih =>
    have hle := file.read_le hread
    rw [List.flatten_cons, List.length_append, ih]
    omega

end Read

/-! ## Writing -/

section Write

variable {file : File σ} {n : Nat} {s t : σ} {data : Bytes}

theorem writeFile_le {p k : Nat} (h : writeFile file data s p n = (.ok k, t)) : k ≤ n :=
  Nat.le_trans (file.write_le h) (List.length_take_le _ _)

/-- What has been written is the front of the data. -/
theorem leaves_writes (h : Leaves (writeStep file data) data.length s n t) :
    n ≤ data.length ∧ ∃ bs,
      (∀ us u, Writes file (data.drop (data.length - n)) t us u → Writes file data s (bs ++ us) u) ∧
        bs.flatten = data.take (data.length - n) := by
  induction h with
  | start =>
    refine ⟨Nat.le_refl _, [], fun us u h => ?_, ?_⟩
    · rwa [Nat.sub_self] at h
    · rw [Nat.sub_self]
      rfl
  | @call n k t u _ hn hstep ih =>
    obtain ⟨hin, bs, hwrites, hdata⟩ := ih
    have hkn := writeFile_le hstep
    have hrest : (data.drop (data.length - n)).take n = data.drop (data.length - n) := by
      refine List.take_of_length_le ?_
      rw [List.length_drop]
      omega
    have hsum : data.length - (n - k) = data.length - n + k := by omega
    unfold writeStep writeFile at hstep
    rw [hrest] at hstep
    refine ⟨by omega, bs ++ [(data.drop (data.length - n)).take k], fun us v hus => ?_, ?_⟩
    · rw [hsum, ← List.drop_drop] at hus
      rw [List.append_assoc]
      refine hwrites _ _ (.cons ?_ hstep hus)
      intro hnil
      have hlen := congrArg List.length hnil
      rw [List.length_drop, List.length_nil] at hlen
      omega
    · rw [List.flatten_append, List.flatten_singleton, hdata, hsum, List.take_add]

/-- Nothing but stalling keeps the data from being written. -/
theorem writeComplete_iff :
    WriteComplete file data s ↔ ¬ Stalls (writeStep file data) data.length s := by
  have hterm := transferN_terminates_iff (writeFile file data) data.length (s := s)
    writeFile_le
  refine ⟨fun h => hterm.mp h.terminates, fun h => ⟨hterm.mpr h, fun hr => ?_⟩⟩
  obtain ⟨-, bs, hwrites, hdata⟩ := leaves_writes (transferN_ok writeFile_le hr)
  refine ⟨bs, ?_, ?_⟩
  · rw [← List.append_nil bs]
    refine hwrites _ _ ?_
    rw [Nat.sub_zero, List.drop_length]
    exact .nil
  · rw [hdata, Nat.sub_zero, List.take_length]

end Write

/-! ## Loading -/

section Load

variable {file : File σ} {s : σ}

theorem loadExact (file : File σ) (opened : Option σ)
    (pool : (n : Nat) → Option { b : Bytes // b.length = n }) : LoadExact file opened pool := by
  intro data size h
  unfold efiLoadFile at h
  cases opened with
  | none => cases Exec.ends_of.mp h
  | some s =>
    dsimp only at h
    rcases hsize : file.fileSize s with ⟨e | n, t⟩
    · rw [hsize] at h
      cases Exec.ends_of.mp h
    · rw [hsize] at h
      dsimp only at h
      cases hpool : pool n with
      | none =>
        rw [hpool] at h
        cases Exec.ends_of.mp h
      | some buffer =>
        rw [hpool] at h
        obtain ⟨⟨u, b⟩, hread, h⟩ := Exec.ends_bind_ok.mp h
        injection Exec.ends_pure.mp h with h
        injection h with hb hn
        subst hb hn
        obtain ⟨-, bs, hreads, -, hdata⟩ := leaves_reads (transferN_ok readFile_le hread)
        have hall : Reads file size t bs u := by
          have hr := hreads _ _ .nil
          rwa [List.append_nil, buffer.2] at hr
        have hflat : data = bs.flatten := by
          refine hdata.trans ?_
          rw [Nat.sub_zero, List.drop_length, List.append_nil]
        exact ⟨hflat ▸ hall.length, s, t, u, bs, rfl, hsize, hall, hflat⟩

/-- Reading and writing are complete, and loading exact, unless a file stalls. -/
theorem transfer_complete_iff (file : File σ) (buffer data : Bytes) (s t : σ) (opened : Option σ)
    (pool : (n : Nat) → Option { b : Bytes // b.length = n }) :
    ReadComplete file buffer s ∧ WriteComplete file data t ∧ LoadExact file opened pool ↔
      ¬ Stalls (readStep file) buffer.length s ∧ ¬ Stalls (writeStep file data) data.length t := by
  rw [readComplete_iff, writeComplete_iff, and_iff_left (loadExact file opened pool)]

/-- A file that is at its end and takes no data. -/
def atEnd : File Unit where
  read s _ := (.ok [], s)
  read_le h := by
    injection h with h
    injection h with h
    exact h ▸ Nat.zero_le _
  write s _ := (.ok 0, s)
  write_le h := by
    injection h with h
    injection h with h
    exact h ▸ Nat.zero_le _
  fileSize s := (.ok 1, s)

/-- Such a file is called again and again. -/
theorem transfer_atEnd : ¬ (readFileN atEnd [0] ()).Terminates ∧
    ¬ (writeFileN atEnd [0] ()).Terminates ∧
    ¬ (ReadComplete atEnd [0] () ∧ WriteComplete atEnd [0] ()) := by
  have hread : Stalls (readStep atEnd) 1 () :=
    ⟨1, (), .start, Nat.one_pos, fun _ => (), rfl, fun _ => rfl⟩
  have hwrite : Stalls (writeStep atEnd [0]) 1 () :=
    ⟨1, (), .start, Nat.one_pos, fun _ => (), rfl, fun _ => rfl⟩
  refine ⟨fun h => readFileN_terminates_iff.mp h hread, fun h => ?_, fun h => ?_⟩
  · exact (transferN_terminates_iff _ _ writeFile_le).mp h hwrite
  · exact readComplete_iff.mp h.1 hread

end Load

end LsvmTools.EfiFile
