import Mathlib.Logic.Relation
import LsvmTools.Ext2.Write

/-! # The loops over the records of a directory

`_CountDirectoryEntries`, `_FindDirectoryEntry`, `EXT2Rm` and
`_IndexDirectoryToLinkedListDirectory` follow `rec_len` through the content of a
directory. `walk` is the loop they share; it delivers the offsets of the headers
they read and is stuck where a header is not inside the content or where the loop
does not end. What a loop does with a record, and whether it leaves there, is the
step it is run with. -/
namespace LsvmTools.Ext2.DirWalk
open Lib.ByteString Lib.Program Strings Volume Dir Write Relation

variable {σ : Type}

/-- The loop from `pos` on. The step delivers no state where the loop is left. -/
def walk (mem : Bytes) (step : Nat → Head → σ → Option σ) : Nat → Nat → σ → Out Err (List Nat)
  | 0, pos, _ => if pos < mem.length then .stuck else pure []
  | fuel + 1, pos, s =>
    if mem.length ≤ pos then pure []
    else do
      let head ← headAt mem pos
      match step pos head s with
      | none => pure [pos]
      | some s => do
        let rest ← walk mem step fuel (pos + head.recLen) s
        pure (pos :: rest)

/-- The loop ends, having read only headers inside the content. -/
def Ends (mem : Bytes) (step : Nat → Head → σ → Option σ) (s : σ) : Prop :=
  ∃ fuel visited, walk mem step fuel 0 s = .ok visited

/-! ## The four loops -/

/-- The `nameLen` bytes behind the header at `pos`. Those past the end of the content
are whatever is behind it in memory. -/
def nameBytes (mem behind : Bytes) (pos nameLen : Nat) : Bytes :=
  ((mem ++ behind).drop (pos + 8)).take nameLen

/-- `_CountDirectoryEntries`, with the count so far. -/
def countStep (_ : Nat) (head : Head) (count : Nat) : Option Nat :=
  some (if head.nameLen ≠ 0 then count + 1 else count)

/-- `_FindDirectoryEntry`: it returns at the first record with the name. -/
def findStep (mem behind name : Bytes) (pos : Nat) (head : Head) (_ : Unit) : Option Unit :=
  if cstr (nameBytes mem behind pos head.nameLen) = name then none else some ()

/-- How far the new directory is filled, and whether it holds a record. -/
structure Filled where
  dest : Nat
  prev : Bool

def Filled.init : Filled := ⟨0, false⟩

/-- The place for a record with a name of `nameLen` characters. There is none where
the record does not fit the block and no record is before it. -/
def Filled.append (blksize : Nat) (s : Filled) (nameLen : Nat) : Option Filled :=
  let recLen := recSize nameLen
  let offset := s.dest % blksize
  if offset + recLen > blksize then
    if s.prev then some ⟨s.dest + (blksize - offset) + recLen, true⟩ else none
  else some ⟨s.dest + recLen, true⟩

/-- The copy loop of `EXT2Rm`, which skips the record at `ent`. -/
def rmStep (blksize ent : Nat) (pos : Nat) (head : Head) (s : Filled) : Option Filled :=
  if pos = ent then some s else s.append blksize head.nameLen

/-- `rm_name && Strncmp(rm_name, ent->name, ent->name_len) == 0`. -/
def isRemoved (rmName : Option Bytes) (name : Bytes) : Bool :=
  match rmName with
  | none => false
  | some rm => rm.take name.length = cstr name

/-- The copy loop of `_IndexDirectoryToLinkedListDirectory`. -/
def indexStep (blksize : Nat) (mem behind : Bytes) (rmName : Option Bytes) (pos : Nat)
    (head : Head) (s : Filled) : Option Filled :=
  if isRemoved rmName (nameBytes mem behind pos head.nameLen) then some s
  else s.append blksize head.nameLen

/-- All four loops end, whatever they look for, skip or remove. -/
structure AllEnd (blksize : Nat) (mem behind : Bytes) : Prop where
  count : Ends mem countStep 0
  find : ∀ name, Ends mem (findStep mem behind name) ()
  rm : ∀ ent, Ends mem (rmStep blksize ent) Filled.init
  index : ∀ rmName, Ends mem (indexStep blksize mem behind rmName) Filled.init

/-! ## The loops of the directory operations -/

variable {mem : Bytes} {step : Nat → Head → σ → Option σ} {fuel pos : Nat}

theorem headAt_of_inside (h : pos + 8 ≤ mem.length) :
    ∃ head, headAt mem pos = .ok head ∧ head.recLen = le16 mem (pos + 4) := by
  unfold headAt
  rw [if_pos h]
  exact ⟨_, rfl, rfl⟩

theorem headAt_inside {head : Head} (h : headAt mem pos = .ok head) :
    pos + 8 ≤ mem.length ∧ head.recLen = le16 mem (pos + 4) := by
  unfold headAt at h
  split at h
  · rename_i hin
    injection h with h
    exact ⟨hin, by rw [← h]⟩
  · cases h

theorem walk_succ {s s' : σ} {head : Head} (hlt : pos < mem.length)
    (hh : headAt mem pos = .ok head) (hs : step pos head s = some s') :
    walk mem step (fuel + 1) pos s =
      walk mem step fuel (pos + head.recLen) s' >>= fun rest => pure (pos :: rest) := by
  rw [walk, if_neg (by omega), hh, Out.ok_bind, hs]

theorem walk_leave {s : σ} {head : Head} (hlt : pos < mem.length)
    (hh : headAt mem pos = .ok head) (hs : step pos head s = none) :
    walk mem step (fuel + 1) pos s = .ok [pos] := by
  rw [walk, if_neg (by omega), hh, Out.ok_bind, hs, Out.pure_eq]

theorem walk_end {s : σ} (hle : mem.length ≤ pos) : walk mem step fuel pos s = .ok [] := by
  cases fuel with
  | zero => rw [walk, if_neg (by omega), Out.pure_eq]
  | succ fuel => rw [walk, if_pos hle, Out.pure_eq]

/-- The rest of a loop that stays at a record, once it has ended. -/
theorem walk_next {s s' : σ} {head : Head} (hlt : pos < mem.length)
    (hh : headAt mem pos = .ok head) (hs : step pos head s = some s')
    (h : ∃ vs, walk mem step fuel (pos + head.recLen) s' = .ok vs) :
    ∃ vs, walk mem step (fuel + 1) pos s = .ok vs := by
  obtain ⟨vs, hvs⟩ := h
  exact ⟨pos :: vs, by rw [walk_succ hlt hh hs, hvs, Out.ok_bind, Out.pure_eq]⟩

theorem ok_map {α β : Type} {x : Out Err α} (f : α → β) :
    (∃ b, (x >>= fun a => pure (f a)) = .ok b) ↔ ∃ a, x = .ok a := by
  cases x <;> simp

theorem stuck_map {α β : Type} {x : Out Err α} (f : α → β) :
    (x >>= fun a => pure (f a)) = .stuck ↔ x = .stuck := by
  cases x <;> simp

/-- `_CountDirectoryEntries` has a result exactly when its loop ends. -/
theorem countDirectoryEntriesFrom_ends (n : Nat) :
    (∃ vs, walk mem countStep fuel pos n = .ok vs) ↔
      countDirectoryEntriesFrom mem mem.length fuel pos ≠ .stuck := by
  induction fuel generalizing pos n with
  | zero =>
    unfold walk countDirectoryEntriesFrom
    split
    · simp
    · split <;> simp
  | succ fuel ih =>
    unfold countDirectoryEntriesFrom
    split
    · rename_i hle
      rw [walk_end hle]
      split <;> simp
    · rename_i hlt
      unfold walk
      rw [if_neg hlt]
      by_cases hin : pos + 8 ≤ mem.length
      · obtain ⟨head, hh, -⟩ := headAt_of_inside hin
        rw [hh, Out.ok_bind, Out.ok_bind, countStep]
        dsimp only
        rw [ok_map, ih]
        exact not_congr (stuck_map _).symm
      · unfold headAt
        rw [if_neg hin]
        simp

/-- `_FindDirectoryEntry` has a result only where its loop ends. -/
theorem findDirectoryEntryFrom_ends {name behind : Bytes} {r : Option Nat}
    (h : findDirectoryEntryFrom name mem mem.length fuel pos = .ok r) :
    ∃ vs, walk mem (findStep mem behind name) fuel pos () = .ok vs := by
  induction fuel generalizing pos with
  | zero =>
    unfold findDirectoryEntryFrom at h
    split at h
    · cases h
    · exact ⟨_, walk_end (by omega)⟩
  | succ fuel ih =>
    unfold findDirectoryEntryFrom at h
    split at h
    · exact ⟨_, walk_end (by assumption)⟩
    · rename_i hlt
      obtain ⟨head, hh, h⟩ := Out.bind_eq_ok.mp h
      obtain ⟨tmp, ht, h⟩ := Out.bind_eq_ok.mp h
      have hstep : findStep mem behind name pos head () = if tmp = name then none else some () := by
        unfold nameAt at ht
        split at ht
        · injection ht with ht
          rw [findStep, nameBytes, List.drop_append_of_le_length (by omega),
            List.take_append_of_le_length (by rw [List.length_drop]; omega), ht]
        · cases ht
      split at h
      · rename_i hn
        exact ⟨_, walk_leave (by omega) hh (by rw [hstep, if_pos hn])⟩
      · rename_i hn
        exact walk_next (by omega) hh (by rw [hstep, if_neg hn]) (ih h)

/-- What is known of a buffer for the control flow of the copy loops. -/
def filled (pk : Packer) : Filled := ⟨pk.dest, pk.prev.isSome⟩

theorem filled_place {pk pk' : Packer} {recLen : Nat} {bytes : Bytes}
    (h : pk.place recLen bytes = .ok pk') : filled pk' = ⟨pk.dest + recLen, true⟩ := by
  unfold Packer.place at h
  split at h
  · injection h with h
    rw [← h]; rfl
  · cases h

theorem filled_append {blksize nameLen : Nat} {pk : Packer} {bytes : Bytes} {r : Option Packer}
    (h : pk.append blksize nameLen bytes = .ok r) :
    (filled pk).append blksize nameLen = r.map filled := by
  unfold Packer.append at h
  have hprev : (filled pk).prev = pk.prev.isSome := rfl
  unfold Filled.append
  dsimp only at h ⊢
  split at h
  · rename_i hfull
    rw [if_pos (show (filled pk).dest % blksize + recSize nameLen > blksize from hfull)]
    split at h
    · rename_i hp
      injection h with h
      rw [← h, if_neg (by rw [hprev, hp]; simp)]
      rfl
    · rename_i prev hp
      rw [if_pos (by rw [hprev, hp]; rfl)]
      obtain ⟨pk1, h1, h⟩ := Out.bind_eq_ok.mp h
      obtain ⟨pk2, h2, h⟩ := Out.bind_eq_ok.mp h
      injection h with h
      have hd : pk1.dest = pk.dest + (blksize - pk.dest % blksize) := by
        unfold Packer.extend at h1
        split at h1
        · injection h1 with h1
          rw [← h1]
        · cases h1
      rw [← h, Option.map_some, filled_place h2, hd]
      rfl
  · rename_i hfit
    rw [if_neg (show ¬ (filled pk).dest % blksize + recSize nameLen > blksize from hfit)]
    obtain ⟨pk2, h2, h⟩ := Out.bind_eq_ok.mp h
    injection h with h
    rw [← h, Option.map_some, filled_place h2]
    rfl

/-- The copy loop of `EXT2Rm` has a result only where its loop ends. -/
theorem rmEntries_ends {blksize ent : Nat} {pk : Packer} {r : Option Packer}
    (h : rmEntries blksize mem mem.length ent fuel pos pk = .ok r) :
    ∃ vs, walk mem (rmStep blksize ent) fuel pos (filled pk) = .ok vs := by
  induction fuel generalizing pos pk with
  | zero =>
    unfold rmEntries at h
    split at h
    · cases h
    · exact ⟨_, walk_end (by omega)⟩
  | succ fuel ih =>
    unfold rmEntries at h
    split at h
    · exact ⟨_, walk_end (by assumption)⟩
    · rename_i hlt
      obtain ⟨head, hh, h⟩ := Out.bind_eq_ok.mp h
      split at h
      · rename_i hent
        exact walk_next (by omega) hh (by rw [rmStep, if_pos hent]) (ih h)
      · rename_i hent
        obtain ⟨bytes, -, h⟩ := Out.bind_eq_ok.mp h
        obtain ⟨pk', hpk, h⟩ := Out.bind_eq_ok.mp h
        have hstep : rmStep blksize ent pos head (filled pk) = pk'.map filled := by
          rw [rmStep, if_neg hent, filled_append hpk]
        cases pk' with
        | none => exact ⟨_, walk_leave (by omega) hh hstep⟩
        | some pk' => exact walk_next (by omega) hh hstep (ih h)

/-- The copy loop of `_IndexDirectoryToLinkedListDirectory`, with no name to remove,
has a result only where its loop ends. -/
theorem copyEntries_ends {blksize : Nat} {behind : Bytes} {pk pk' : Packer}
    (h : copyEntries blksize mem mem.length fuel pos pk = .ok pk') :
    ∃ vs, walk mem (indexStep blksize mem behind none) fuel pos (filled pk) = .ok vs := by
  induction fuel generalizing pos pk with
  | zero =>
    unfold copyEntries at h
    split at h
    · cases h
    · exact ⟨_, walk_end (by omega)⟩
  | succ fuel ih =>
    unfold copyEntries at h
    split at h
    · exact ⟨_, walk_end (by assumption)⟩
    · rename_i hlt
      obtain ⟨head, hh, h⟩ := Out.bind_eq_ok.mp h
      obtain ⟨pk1, hpk, h⟩ := Out.bind_eq_ok.mp h
      have hstep : indexStep blksize mem behind none pos head (filled pk) = some (filled pk1) := by
        unfold appendDirectoryEntry at hpk
        rw [hh, Out.ok_bind] at hpk
        obtain ⟨bytes, -, hpk⟩ := Out.bind_eq_ok.mp hpk
        obtain ⟨r, hr, hpk⟩ := Out.bind_eq_ok.mp hpk
        have ha := filled_append hr
        cases r with
        | none => cases hpk
        | some pk2 =>
          injection hpk with hpk
          rw [hpk] at ha
          exact ha
      exact walk_next (by omega) hh hstep (ih h)

/-! ## When the loops end -/

/-- The loops go on from the record at `p` to an offset `q`. -/
def Next (mem : Bytes) (p q : Nat) : Prop := p < mem.length ∧ q = p + le16 mem (p + 4)

/-- The offsets the record lengths lead to from `start` on. -/
def Reached (mem : Bytes) (start pos : Nat) : Prop := ReflTransGen (Next mem) start pos

/-- Whatever record the lengths lead to from `start` on has a length, and does not
begin in the last seven bytes of the content. -/
def Passable (mem : Bytes) (start : Nat) : Prop :=
  ∀ pos, Reached mem start pos → pos < mem.length →
    le16 mem (pos + 4) ≠ 0 ∧ pos + 8 ≤ mem.length

theorem Passable.next (h : Passable mem pos) (hlt : pos < mem.length) :
    Passable mem (pos + le16 mem (pos + 4)) :=
  fun q hq => h q (.head ⟨hlt, rfl⟩ hq)

/-- Any loop ends in such a content: every record moves it on. -/
theorem walk_of_passable (h : Passable mem pos) (hf : mem.length - pos ≤ fuel) (s : σ) :
    ∃ vs, walk mem step fuel pos s = .ok vs := by
  induction fuel generalizing pos s with
  | zero => exact ⟨_, walk_end (by omega)⟩
  | succ fuel ih =>
    by_cases hlt : pos < mem.length
    · obtain ⟨hlen, hin⟩ := h pos .refl hlt
      obtain ⟨head, hh, hrec⟩ := headAt_of_inside hin
      cases hs : step pos head s with
      | none => exact ⟨_, walk_leave hlt hh hs⟩
      | some s' =>
        refine walk_next hlt hh hs (ih ?_ (by omega) s')
        rw [hrec]
        exact h.next hlt
    · exact ⟨_, walk_end (by omega)⟩

/-- A loop that no record makes leave reads every header there is. -/
theorem passable_of_walk (hstay : ∀ pos head s, step pos head s ≠ none) {s : σ} {vs : List Nat}
    (h : walk mem step fuel pos s = .ok vs) : Passable mem pos := by
  induction fuel generalizing pos s vs with
  | zero =>
    unfold walk at h
    split at h
    · cases h
    · rename_i hge
      intro q hq hlt
      rcases ReflTransGen.cases_head hq with rfl | ⟨r, hr, -⟩
      · exact absurd hlt hge
      · exact absurd hr.1 hge
  | succ fuel ih =>
    by_cases hge : mem.length ≤ pos
    · intro q hq hlt
      rcases ReflTransGen.cases_head hq with rfl | ⟨r, hr, -⟩
      · omega
      · exact absurd hr.1 (by omega)
    · unfold walk at h
      rw [if_neg hge] at h
      obtain ⟨head, hh, h⟩ := Out.bind_eq_ok.mp h
      obtain ⟨hin, hrec⟩ := headAt_inside hh
      cases hs : step pos head s with
      | none => exact absurd hs (hstay _ _ _)
      | some s' =>
        rw [hs] at h
        obtain ⟨rest, hrest, -⟩ := Out.bind_eq_ok.mp h
        have hnext := ih hrest
        rw [hrec] at hnext
        intro q hq hlt
        rcases ReflTransGen.cases_head hq with rfl | ⟨r, ⟨-, rfl⟩, hr⟩
        · refine ⟨fun h0 => ?_, hin⟩
          -- the rest of the loop is then at the same record again
          rw [h0, Nat.add_zero] at hnext
          exact (hnext pos .refl hlt).1 h0
        · exact hnext q hr hlt

/-- The four loops end, having read only headers inside the content, exactly where the
record lengths, followed from the first record, meet no length of 0 and no record that
begins in the last seven bytes. -/
theorem allEnd_iff (blksize : Nat) (mem behind : Bytes) :
    AllEnd blksize mem behind ↔ Passable mem 0 := by
  constructor
  · intro h
    obtain ⟨fuel, vs, hvs⟩ := h.count
    exact passable_of_walk (fun _ _ _ => by simp [countStep]) hvs
  · intro h
    exact ⟨⟨_, walk_of_passable h (Nat.le_refl _) _⟩,
      fun _ => ⟨_, walk_of_passable h (Nat.le_refl _) _⟩,
      fun _ => ⟨_, walk_of_passable h (Nat.le_refl _) _⟩,
      fun _ => ⟨_, walk_of_passable h (Nat.le_refl _) _⟩⟩

/-- A block of zeroes: its first record has the length 0. -/
theorem zero_block_never_ends : ¬ ∀ blksize mem behind, 0 < blksize → mem.length % blksize = 0 →
    AllEnd blksize mem behind := by
  intro h
  obtain ⟨fuel, vs, hvs⟩ := (h 1024 (List.replicate 1024 0) [] (by decide)
    (by rw [List.length_replicate])).count
  have hp := passable_of_walk (fun _ _ _ => by simp [countStep]) hvs
  exact (hp 0 .refl (by rw [List.length_replicate]; decide)).1 (by decide +kernel)

end LsvmTools.Ext2.DirWalk
