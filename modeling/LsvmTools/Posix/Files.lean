import LsvmTools.Strings
import Mathlib.Data.Fintype.Card
import Mathlib.Data.Fin.Basic

/-! # Files in memory

The table of the registered files has a number of its entries that only grows: what
`posix_close` clears is not used again. -/
namespace LsvmTools.Posix.Files
open Strings

def maxFiles : Nat := 64

/-- `File`; the context and the callbacks are one value. -/
structure File (κ : Type) where
  path : CStr
  handlers : κ

/-- What is registered, by descriptor. -/
abbrev Registry (κ : Type) := Fin maxFiles → Option (File κ)

variable {κ : Type}

/-- `_path_to_fd`. -/
def pathToFd (files : Registry κ) (path : CStr) : Int :=
  match (List.finRange maxFiles).find? fun fd => (files fd).any (·.path = path) with
  | some fd => fd.val
  | none => -1

/-! ## Registered paths -/

/-- The path is one of a registered file. -/
def Registered (files : Registry κ) (path : CStr) : Prop :=
  ∃ fd file, files fd = some file ∧ file.path = path

def Distinct (files : Registry κ) : Prop :=
  ∀ i j f g, files i = some f → files j = some g → f.path = g.path → i = j

section Descriptors

variable {files : Registry κ} {path : CStr} {fd : Fin maxFiles} {file : File κ}

theorem any_path : (files fd).any (·.path = path) = true ↔
    ∃ file, files fd = some file ∧ file.path = path := by
  cases files fd with
  | none => simp
  | some f => simp

theorem pathToFd_missing (h : ¬ Registered files path) : pathToFd files path = -1 := by
  have hnone : (List.finRange maxFiles).find? (fun fd => (files fd).any (·.path = path)) = none := by
    rw [List.find?_eq_none]
    intro fd _ hany
    exact h ⟨fd, any_path.mp hany⟩
  rw [pathToFd, hnone]

/-- The descriptor of a path. -/
theorem pathToFd_of (hd : Distinct files) (h : files fd = some file) :
    pathToFd files file.path = fd.val := by
  rw [pathToFd]
  split
  · rename_i i hi
    have hany := List.find?_some hi
    obtain ⟨f, hf, hpath⟩ := any_path.mp hany
    rw [hd i fd f file hf h hpath]
  · rename_i hnone
    rw [List.find?_eq_none] at hnone
    exact absurd (any_path.mpr ⟨file, h, rfl⟩) (hnone fd (List.mem_finRange fd))

theorem pathToFd_nonneg_iff (hd : Distinct files) :
    0 ≤ pathToFd files path ↔ Registered files path := by
  constructor
  · intro h
    by_contra hno
    rw [pathToFd_missing hno] at h
    exact absurd h (by decide)
  · rintro ⟨fd, file, h, rfl⟩
    rw [pathToFd_of hd h]
    exact Int.natCast_nonneg _

theorem Distinct.update_none (hd : Distinct files) (fd : Fin maxFiles) :
    Distinct (Function.update files fd none) := by
  intro i j f g hi hj hpath
  by_cases hif : i = fd
  · rw [hif, Function.update_self] at hi
    cases hi
  · by_cases hjf : j = fd
    · rw [hjf, Function.update_self] at hj
      cases hj
    · rw [Function.update_of_ne hif] at hi
      rw [Function.update_of_ne hjf] at hj
      exact hd i j f g hi hj hpath

theorem Distinct.update_some (hd : Distinct files) (h : ¬ Registered files path) (fd : Fin maxFiles)
    (handlers : κ) : Distinct (Function.update files fd (some ⟨path, handlers⟩)) := by
  intro i j f g hi hj hpath
  by_cases hif : i = fd
  · by_cases hjf : j = fd
    · rw [hif, hjf]
    · rw [hif, Function.update_self] at hi
      rw [Function.update_of_ne hjf] at hj
      injection hi with hi
      exact absurd ⟨j, g, hj, by rw [← hpath, ← hi]⟩ h
  · by_cases hjf : j = fd
    · rw [hjf, Function.update_self] at hj
      rw [Function.update_of_ne hif] at hi
      injection hj with hj
      exact absurd ⟨i, f, hi, by rw [hpath, ← hj]⟩ h
    · rw [Function.update_of_ne hif] at hi
      rw [Function.update_of_ne hjf] at hj
      exact hd i j f g hi hj hpath

end Descriptors

/-! ## The calls -/

/-- `_files` and `_nfiles`. -/
@[ext]
structure Table (κ : Type) where
  files : Registry κ
  nfiles : Nat
  nfiles_le : nfiles ≤ maxFiles
  free : ∀ fd : Fin maxFiles, nfiles ≤ fd.val → files fd = none
  distinct : Distinct files

namespace Table

def init (κ : Type) : Table κ :=
  ⟨fun _ => none, 0, Nat.zero_le _, fun _ _ => rfl, fun _ _ _ _ h => (by cases h)⟩

variable (t : Table κ)

/-- The table with a file at its end. -/
def append (path : CStr) (handlers : κ) (h : t.nfiles < maxFiles) (hpath : ¬ Registered t.files path) :
    Table κ where
  files := Function.update t.files ⟨t.nfiles, h⟩ (some ⟨path, handlers⟩)
  nfiles := t.nfiles + 1
  nfiles_le := h
  free fd hfd := by
    rw [Function.update_of_ne (Fin.ne_of_val_ne (Nat.ne_of_gt (Nat.lt_of_succ_le hfd)))]
    exact t.free fd (Nat.le_of_succ_le hfd)
  distinct := t.distinct.update_some hpath _ handlers

/-- The table with an entry cleared. -/
def clear (fd : Fin maxFiles) : Table κ where
  files := Function.update t.files fd none
  nfiles := t.nfiles
  nfiles_le := t.nfiles_le
  free i hi := by
    by_cases h : i = fd
    · rw [h, Function.update_self]
    · rw [Function.update_of_ne h]
      exact t.free i hi
  distinct := t.distinct.update_none fd

end Table

/-- `posix_register_file`, where `posix_strdup` succeeds. -/
def posixRegisterFile (t : Table κ) (path : CStr) (handlers : κ) : Int × Table κ :=
  if hpath : 0 ≤ pathToFd t.files path then (-1, t)
  else if hfull : t.nfiles = maxFiles then (-1, t)
  else
    (0, t.append path handlers (Nat.lt_of_le_of_ne t.nfiles_le hfull)
      (mt (pathToFd_nonneg_iff t.distinct).mpr hpath))

/-- `posix_open`. -/
def posixOpen (t : Table κ) (path : CStr) : Int := pathToFd t.files path

/-- `posix_close`. -/
def posixClose (t : Table κ) (fd : Int) : Int × Table κ :=
  if h : 0 ≤ fd ∧ fd.toNat < maxFiles then
    if (t.files ⟨fd.toNat, h.2⟩).isNone then (-1, t) else (0, t.clear ⟨fd.toNat, h.2⟩)
  else (-1, t)

inductive Call (κ : Type) where
  | registerFile (path : CStr) (handlers : κ)
  | openFile (path : CStr)
  | close (fd : Int)

def Call.run (t : Table κ) : Call κ → Int × Table κ
  | registerFile path handlers => posixRegisterFile t path handlers
  | openFile path => (posixOpen t path, t)
  | close fd => posixClose t fd

/-- A call, with the table before and after it. -/
structure Event (κ : Type) where
  before : Table κ
  call : Call κ

def Event.result (e : Event κ) : Int := (e.call.run e.before).1

def Event.after (e : Event κ) : Table κ := (e.call.run e.before).2

/-- The calls one after the other. -/
def events : Table κ → List (Call κ) → List (Event κ)
  | _, [] => []
  | t, c :: cs => ⟨t, c⟩ :: events (c.run t).2 cs

/-! ## What it is for -/

/-- The number of files that are registered. -/
def count (files : Registry κ) : Nat := (Finset.univ.filter fun fd => (files fd).isSome).card

/-- What a call may return and change, whatever table there is behind. -/
inductive Serves : Registry κ → Call κ → Int → Registry κ → Prop where
  | registered {files : Registry κ} {path : CStr} {handlers : κ} {fd : Fin maxFiles}
      (hnew : ¬ Registered files path) (hroom : count files < maxFiles) (hfree : files fd = none) :
      Serves files (.registerFile path handlers) 0
        (Function.update files fd (some ⟨path, handlers⟩))
  | refused {files : Registry κ} {path : CStr} {handlers : κ}
      (h : Registered files path ∨ ¬ count files < maxFiles) :
      Serves files (.registerFile path handlers) (-1) files
  | opened {files : Registry κ} {file : File κ} {fd : Fin maxFiles} (h : files fd = some file) :
      Serves files (.openFile file.path) fd.val files
  | missing {files : Registry κ} {path : CStr} (h : ¬ Registered files path) :
      Serves files (.openFile path) (-1) files
  | closed {files : Registry κ} {file : File κ} {fd : Fin maxFiles} (h : files fd = some file) :
      Serves files (.close fd.val) 0 (Function.update files fd none)
  | notOpen {files : Registry κ} {fd : Int}
      (h : ∀ i : Fin maxFiles, (i.val : Int) = fd → files i = none) :
      Serves files (.close fd) (-1) files

/-- The call is served, and no path is registered twice. -/
structure Event.Sound (e : Event κ) : Prop where
  serves : Serves e.before.files e.call e.result e.after.files
  distinct : Distinct e.before.files ∧ Distinct e.after.files

/-- A new file meets a table whose entries have all been used, one of which is free again. -/
def Event.UsedUp (e : Event κ) : Prop :=
  ∃ path handlers, e.call = .registerFile path handlers ∧ ¬ Registered e.before.files path ∧
    count e.before.files < maxFiles ∧ e.before.nfiles = maxFiles

/-! ## Every run -/

section Runs

variable {t : Table κ} {path : CStr} {handlers : κ} {fd : Int} {e : Event κ}

/-- The entries that have never been used are free. -/
theorem Table.count_lt (t : Table κ) (h : t.nfiles < maxFiles) : count t.files < maxFiles := by
  have hsub : (Finset.univ.filter fun fd => (t.files fd).isSome) ⊂ Finset.univ := by
    rw [Finset.filter_ssubset]
    refine ⟨⟨t.nfiles, h⟩, Finset.mem_univ _, ?_⟩
    rw [t.free _ (Nat.le_refl _)]
    exact Bool.false_ne_true
  have hlt := Finset.card_lt_card hsub
  rwa [Finset.card_univ, Fintype.card_fin] at hlt

theorem posixRegisterFile_append (hlt : t.nfiles < maxFiles) (hpath : ¬ Registered t.files path) :
    posixRegisterFile t path handlers = (0, t.append path handlers hlt hpath) := by
  have hfd := mt (pathToFd_nonneg_iff t.distinct).mp hpath
  rw [posixRegisterFile, dif_neg hfd, dif_neg (Nat.ne_of_lt hlt)]

theorem posixClose_clear {fd : Fin maxFiles} {file : File κ} (h : t.files fd = some file) :
    posixClose t fd.val = (0, t.clear fd) := by
  have hfd : 0 ≤ (fd.val : Int) ∧ (fd.val : Int).toNat < maxFiles :=
    ⟨Int.natCast_nonneg _, fd.isLt⟩
  have hsome : (t.files ⟨(fd.val : Int).toNat, hfd.2⟩).isNone = false :=
    Option.isNone_eq_false_iff.mpr (Option.isSome_iff_exists.mpr ⟨file, h⟩)
  rw [posixClose, dif_pos hfd, hsome, if_neg Bool.false_ne_true]
  rfl

theorem serves_open : Serves t.files (.openFile path) (posixOpen t path) t.files := by
  by_cases h : Registered t.files path
  · obtain ⟨fd, file, hfile, rfl⟩ := h
    rw [posixOpen, pathToFd_of t.distinct hfile]
    exact .opened hfile
  · rw [posixOpen, pathToFd_missing h]
    exact .missing h

theorem serves_close : Serves t.files (.close fd) (posixClose t fd).1 (posixClose t fd).2.files := by
  by_cases h : 0 ≤ fd ∧ fd.toNat < maxFiles
  · obtain ⟨i, rfl⟩ : ∃ i : Fin maxFiles, (i.val : Int) = fd :=
      ⟨⟨fd.toNat, h.2⟩, Int.toNat_of_nonneg h.1⟩
    cases hfile : t.files i with
    | none =>
      have hnone : (t.files ⟨(i.val : Int).toNat, h.2⟩).isNone = true :=
        Option.isNone_iff_eq_none.mpr hfile
      rw [posixClose, dif_pos h, hnone, if_pos rfl]
      refine .notOpen fun j hj => ?_
      rw [Fin.ext (Int.ofNat_inj.mp hj), hfile]
    | some file =>
      rw [posixClose_clear hfile]
      exact .closed hfile
  · rw [posixClose, dif_neg h]
    exact .notOpen fun i hi => absurd ⟨by omega, by have := i.isLt; omega⟩ h

/-- A registration is served unless the table is used up. -/
theorem serves_register_iff : Serves t.files (.registerFile path handlers)
      (posixRegisterFile t path handlers).1 (posixRegisterFile t path handlers).2.files ↔
    ¬ (¬ Registered t.files path ∧ count t.files < maxFiles ∧ t.nfiles = maxFiles) := by
  by_cases hreg : Registered t.files path
  · have hpath := (pathToFd_nonneg_iff t.distinct).mpr hreg
    rw [posixRegisterFile, dif_pos hpath]
    exact iff_of_true (.refused (.inl hreg)) fun h => h.1 hreg
  · have hpath := mt (pathToFd_nonneg_iff t.distinct).mp hreg
    by_cases hfull : t.nfiles = maxFiles
    · rw [posixRegisterFile, dif_neg hpath, dif_pos hfull, and_iff_right hreg, and_iff_left hfull]
      refine ⟨fun h => ?_, fun h => .refused (.inr h)⟩
      cases h with
      | refused h => exact h.resolve_left hreg
    · have hlt := Nat.lt_of_le_of_ne t.nfiles_le hfull
      rw [posixRegisterFile_append hlt hreg]
      exact iff_of_true (.registered hreg (t.count_lt hlt) (t.free _ (Nat.le_refl _)))
        fun h => hfull h.2.2

theorem sound_iff : e.Sound ↔ ¬ e.UsedUp := by
  have hserves : e.Sound ↔ Serves e.before.files e.call e.result e.after.files :=
    ⟨fun h => h.serves, fun h => ⟨h, e.before.distinct, e.after.distinct⟩⟩
  rw [hserves, Event.UsedUp]
  obtain ⟨t, c⟩ := e
  cases c with
  | registerFile path handlers =>
    refine serves_register_iff.trans (not_congr ⟨fun h => ⟨path, handlers, rfl, h⟩, ?_⟩)
    rintro ⟨p, k, hcall, h⟩
    injection hcall with hp
    rwa [← hp] at h
  | openFile path =>
    refine iff_of_true serves_open ?_
    rintro ⟨p, k, hcall, -⟩
    cases hcall
  | close fd =>
    refine iff_of_true serves_close ?_
    rintro ⟨p, k, hcall, -⟩
    cases hcall

/-- A run is served throughout exactly if no new file meets a table that is used up. -/
theorem events_sound_iff (calls : List (Call κ)) :
    (∀ e ∈ events (Table.init κ) calls, e.Sound) ↔
      ∀ e ∈ events (Table.init κ) calls, ¬ e.UsedUp :=
  forall₂_congr fun _ _ => sound_iff

end Runs

/-! ## A table that is used up -/

/-- The table after the calls. -/
def tableAfter (t : Table κ) (calls : List (Call κ)) : Table κ :=
  calls.foldl (fun t c => (c.run t).2) t

theorem mem_events (t : Table κ) (calls : List (Call κ)) (c : Call κ) :
    ⟨tableAfter t calls, c⟩ ∈ events t (calls ++ [c]) := by
  induction calls generalizing t with
  | nil => exact List.mem_singleton.mpr rfl
  | cons d calls ih => exact List.mem_cons_of_mem _ (ih _)

/-- An empty table whose first `n` entries have been used. -/
def Table.used (κ : Type) (n : Nat) (h : n ≤ maxFiles) : Table κ :=
  ⟨fun _ => none, n, h, fun _ _ => rfl, fun _ _ _ _ h => (by cases h)⟩

/-- A file that comes and goes, again and again. -/
def comeAndGo (path : CStr) (n : Nat) : List (Call Unit) :=
  (List.range n).flatMap fun i : Nat => [.registerFile path (), .close i]

theorem not_registered_used {n : Nat} (h : n ≤ maxFiles) (path : CStr) :
    ¬ Registered (Table.used Unit n h).files path := by
  rintro ⟨fd, file, hfile, -⟩
  cases hfile

theorem Table.files_append_clear (t : Table κ) {path : CStr} {handlers : κ}
    (hlt : t.nfiles < maxFiles) (hpath : ¬ Registered t.files path) :
    ((t.append path handlers hlt hpath).clear ⟨t.nfiles, hlt⟩).files = t.files := by
  have hnone := t.free ⟨t.nfiles, hlt⟩ (Nat.le_refl _)
  calc ((t.append path handlers hlt hpath).clear ⟨t.nfiles, hlt⟩).files
      = Function.update t.files ⟨t.nfiles, hlt⟩ none := Function.update_idem _ _ _
    _ = t.files := by rw [← hnone]; exact Function.update_eq_self _ _

theorem register_close (path : CStr) {n : Nat} (h : n < maxFiles) :
    tableAfter (.used Unit n (Nat.le_of_lt h)) [.registerFile path (), .close n] =
      .used Unit (n + 1) h := by
  have hnew := not_registered_used (Nat.le_of_lt h) path
  have hfile : ((Table.used Unit n (Nat.le_of_lt h)).append path () h hnew).files ⟨n, h⟩ =
      some ⟨path, ()⟩ := Function.update_self _ _ _
  have hclose := posixClose_clear hfile
  have hafter : tableAfter (.used Unit n (Nat.le_of_lt h)) [.registerFile path (), .close n] =
      (posixClose (posixRegisterFile (.used Unit n (Nat.le_of_lt h)) path ()).2 n).2 := rfl
  rw [hafter, posixRegisterFile_append h hnew, hclose]
  exact Table.ext (Table.files_append_clear _ h hnew) rfl

theorem tableAfter_comeAndGo (path : CStr) {n : Nat} (h : n ≤ maxFiles) :
    tableAfter (.init Unit) (comeAndGo path n) = .used Unit n h := by
  induction n with
  | zero => rfl
  | succ n ih =>
    have hsplit : comeAndGo path (n + 1) =
        comeAndGo path n ++ [.registerFile path (), .close n] := by
      rw [comeAndGo, List.range_succ, List.flatMap_append, List.flatMap_singleton, comeAndGo]
    rw [hsplit, ← register_close path h, ← ih (Nat.le_of_succ_le h)]
    exact List.foldl_append

theorem noNul_p : (0 : UInt8) ∉ [(112 : UInt8)] := by decide

/-- After a file has come and gone 64 times it is refused, although none is registered. -/
theorem used_up : ∃ e ∈ events (Table.init Unit)
      (comeAndGo ⟨[112], noNul_p⟩ 64 ++ [.registerFile ⟨[112], noNul_p⟩ ()]),
    (∀ fd, e.before.files fd = none) ∧ e.result = -1 ∧ ¬ e.Sound := by
  refine ⟨_, mem_events _ _ _, ?_⟩
  rw [tableAfter_comeAndGo _ (Nat.le_refl 64)]
  have hnew := not_registered_used (Nat.le_refl 64) ⟨[112], noNul_p⟩
  have hcount : count (Table.used Unit 64 (Nat.le_refl 64)).files = 0 := rfl
  refine ⟨fun fd => rfl, ?_, fun h => sound_iff.mp h ⟨_, _, rfl, hnew, ?_, rfl⟩⟩
  · have hfd := pathToFd_missing hnew
    change (posixRegisterFile _ _ _).1 = _
    rw [posixRegisterFile, dif_neg (by rw [hfd]; decide)]
    rfl
  · dsimp only
    rw [hcount]
    decide

end LsvmTools.Posix.Files
