import LsvmTools.InitrdArchive
import LsvmTools.Lib.Simulation

/-! # An archive as a store of files

Calls on an archive, each on what the call before has made. The archive is a list of files:
adding appends to it also where the name is taken, looking takes the first file with a name and
removing takes all of them. -/
namespace LsvmTools.CpioStore
open Lib.ByteString Lib.Program Lib.Loop Lib.Simulation Strings Cpio CpioFormat CpioAdd CpioRemove
open Initrd InitrdArchive

/-! ## The calls -/

inductive Call where
  | addFile (path : CStr) (data : Bytes) (mode : UInt32)
  | removeFile (path : CStr)
  | getFile (path : CStr)
  | isFile (path : CStr)
  | isDir (path : CStr)
  | findFiles (base : CStr)

inductive Reply where
  | done
  | failed
  | data (d : Bytes)
  | flag (b : Bool)
  | paths (ps : List CStr)
deriving DecidableEq

-- Which allocations succeed, and what memory holds around one with the given bytes.
variable (mem : Nat → Bool) (around : Bytes → Int → UInt8)

/-- The archive that a function makes, in the place of the one before. -/
def replaced (made : Exec Unit Made) (b : Buffer) : Exec Unit (Reply × Buffer) := do
  match ← (do let m ← made; madeBuffer around m).attempt with
  | some b' => pure (.done, b')
  | none => pure (.failed, b)

/-- What a function finds in an archive. -/
def found {α : Type} (m : Exec Unit α) (reply : α → Reply) (b : Buffer) :
    Exec Unit (Reply × Buffer) := do
  match ← m.attempt with
  | some a => pure (reply a, b)
  | none => pure (.failed, b)

def Call.exec (b : Buffer) : Call → Exec Unit (Reply × Buffer)
  | .addFile path data mode =>
    replaced around (cpioAddFile mem b path (some data) data.length mode) b
  | .removeFile path => replaced around (cpioRemoveFile mem b path) b
  | .getFile path => found (cpioGetFile mem b path) .data b
  | .isFile path => found (cpioIsFile b path) .flag b
  | .isDir path => found (cpioIsDir b path) .flag b
  | .findFiles base => found (cpioFindFilesByBaseName mem b base) (fun arr => .paths arr.data) b

/-- A call and what it delivers. -/
def Does (call : Call) (b : Buffer) (reply : Reply) (b' : Buffer) : Prop :=
  (call.exec mem around b).Ends (.ok (reply, b'))

/-! ## What they are for -/

structure Item where
  path : CStr
  mode : Nat
  data : Bytes

/-- What an entry says of a file. -/
def item (e : Entry) : Item := ⟨e.name, u32 (toUintn (getFileMode e.header)).toNat, e.data⟩

def first (path : CStr) (t : List Item) : Option Item := t.find? (·.path = path)

def Call.apply : Call → List Item → Reply × List Item
  | .addFile path data mode, t => (.done, t ++ [⟨path, mode.toNat, data⟩])
  | .removeFile path, t =>
    if t.any (·.path = path) then (.done, t.filter (·.path ≠ path)) else (.failed, t)
  | .getFile path, t => ((first path t).elim .failed (.data ·.data), t)
  | .isFile path, t => (.flag ((first path t).any (·.mode.testBit 15)), t)
  | .isDir path, t => (.flag ((first path t).any (·.mode.testBit 14)), t)
  | .findFiles base, t =>
    (.paths ((t.filter fun x => afterLastSlash x.path.bytes = base.bytes).map (·.path)), t)

/-- The trailer is no file. -/
def Call.Proper : Call → Prop
  | .addFile path _ _ | .removeFile path | .getFile path | .isFile path | .isDir path =>
    path ≠ trailerName
  | .findFiles base => base ≠ trailerName

/-- How many bytes a call adds to the archive. -/
def Call.cost : Call → Nat
  | .addFile path data _ => ceil (110 + (path.bytes.length + 1)) 4 + ceil data.length 4
  | _ => 0

/-! ## The files of an archive -/

section Items

variable {es : List Entry} {p : CStr} {f : NewFile}

/-- `_HexToInt` reads what `_IntToHex` writes, as far as an `int` can hold it. -/
theorem hexToInt_any (x : UInt32) : hexToInt (intToHex x) = toInt x.toNat := by
  have hlt := x.toNat_lt
  have hdigits : (intToHex x).reverse =
      ([0, 4, 8, 12, 16, 20, 24, 28].map fun k => x.toNat / 2 ^ k % 16).map hexDigit := rfl
  have hval : digitsValue ([0, 4, 8, 12, 16, 20, 24, 28].map fun k => x.toNat / 2 ^ k % 16) =
      x.toNat := by
    simp only [List.map_cons, List.map_nil, digitsValue]
    omega
  have h1 : toInt 1 = 1 := toInt_of_lt (by decide) (by decide)
  have h0 : toInt 0 = 0 := toInt_of_lt (by decide) (by decide)
  have h := hexLoop_digits ([0, 4, 8, 12, 16, 20, 24, 28].map fun k => x.toNat / 2 ^ k % 16)
    (by simp; omega) 1 0
  rw [h1, h0, hval, Int.zero_add, Int.one_mul] at h
  rw [hexToInt, hdigits, h]

theorem mode_any (x : UInt32) : u32 (toUintn (toInt x.toNat)).toNat = x.toNat := by
  have hlt := x.toNat_lt
  by_cases hx : x.toNat < 2 ^ 31
  · rw [toInt_of_lt (by omega) (by omega), toUintn_of_lt (by omega) (by omega), Int.toNat_natCast,
      u32_of_lt hlt]
  · have hneg : toInt (x.toNat : Int) = (x.toNat : Int) - 2 ^ 32 := by
      unfold toInt
      rw [Int.bmod_def]
      split <;> omega
    rw [hneg]
    unfold toUintn u32
    omega

theorem item_made (f : NewFile) : item (made f) = ⟨f.path, f.mode.toNat, f.data⟩ := by
  have hmode : getFileMode (made f).header = toInt f.mode.toNat := hexToInt_any f.mode
  rw [item, hmode, mode_any]
  rfl

theorem first_item : first p (es.map item) = (named p es).head?.map item := by
  rw [first, List.find?_map, named, List.head?_filter]
  rfl

theorem lookup_item {t : Entry} (ht : t.name ≠ p) :
    lookup p (es ++ [t]) = (first p (es.map item)).elim (.err ()) (.ok ·.data) := by
  induction es with
  | nil => rw [List.nil_append, lookup, if_neg ht, lookup]; rfl
  | cons e es ih =>
    rw [List.cons_append, lookup, List.map_cons, first, List.find?_cons]
    by_cases he : e.name = p
    · rw [if_pos he, show (item e).path = p from he, decide_eq_true rfl]
      rfl
    · rw [if_neg he, show decide ((item e).path = p) = false from decide_eq_false he]
      exact ih

theorem bitAt_item (bit : Nat) (p : CStr) (es : List Entry) :
    bitAt bit p es = (first p (es.map item)).any (·.mode.testBit bit) := by
  rw [first_item, bitAt]
  cases (named p es).head? <;> rfl

theorem keep_item : (keep p es).map item = (es.map item).filter (·.path ≠ p) := by
  rw [List.filter_map, keep]
  rfl

theorem any_item : (es.map item).any (·.path = p) = true ↔ ∃ e ∈ es, e.name = p := by
  rw [List.any_map, List.any_eq_true]
  exact exists_congr fun e => and_congr_right fun _ => decide_eq_true_iff

theorem pathsTo_item (base : CStr) (es : List Entry) : pathsTo base es =
    ((es.map item).filter fun x => afterLastSlash x.path.bytes = base.bytes).map (·.path) := by
  rw [List.filter_map, List.map_map]
  rfl

end Items

/-! ## Each call -/

section Calls

variable {mem : Nat → Bool} {around : Bytes → Int → UInt8} {b b' : Buffer} {p base : CStr}
  {es : List Entry} {t : Entry} {n : Nat} {f : NewFile} {made : Exec Unit Made} {m : Made} {h : Int}

theorem found_ok {α : Type} {x : Exec Unit α} {a : α} (reply : α → Reply) (hx : x.Ends (.ok a)) :
    (found x reply b).Ends (.ok (reply a, b)) :=
  hx.attempt.bind (Exec.ends_pure.mpr rfl)

theorem found_err {α : Type} {x : Exec Unit α} (reply : α → Reply) (hx : x.Ends (.err ())) :
    (found x reply b).Ends (.ok (.failed, b)) :=
  hx.attempt_err.bind (Exec.ends_pure.mpr rfl)

theorem replaced_ok (hm : made.Ends (.ok m)) (hb : madeBuffer around m = .ok b') :
    (replaced around made b).Ends (.ok (.done, b')) :=
  (hm.bind (Exec.ends_of.mpr hb.symm)).attempt.bind (Exec.ends_pure.mpr rfl)

theorem replaced_err (hm : made.Ends (.err ())) :
    (replaced around made b).Ends (.ok (.failed, b)) :=
  (hm.bind_err _).attempt_err.bind (Exec.ends_pure.mpr rfl)

/-- The archive that was made can be handed on. -/
theorem exists_made (around : Bytes → Int → UInt8) (hm : m.size.toNat < 2 ^ 63) :
    ∃ b', madeBuffer around m = .ok b' := by
  unfold madeBuffer allocated
  rw [dif_pos]
  · exact ⟨_, rfl⟩
  · rw [List.length_append, List.length_take, length_readMem]
    omega

variable (around) in
theorem Carries.add_ends {pad : Prop} (data : Option Bytes) (hc : Carries pad b es n)
    (hn : n + f.size < 2 ^ 31) (hdata : data.getD [] = f.data)
    (hmem : ∀ k, k < 2 ^ 32 → mem k = true) :
    ∃ m b', (cpioAddFile mem b f.path data f.data.length f.mode).Ends (.ok m) ∧
      madeBuffer around m = .ok b' ∧ Carries True b' (es ++ [InitrdArchive.made f]) (n + f.size) := by
  have hcarries := hc
  obtain ⟨a, hb, rfl, htotal, hlen, -⟩ := hc
  have hall := a.total_all
  have hsize : sizeWith a f = total a.entries + f.size + 124 := rfl
  have hceil := ceil_lt (show 0 < 512 by omega) (sizeWith a f)
  have hmake := cpioAddFile_eq (fun k hk => hmem k (by omega)) hb (by omega) hdata (by omega)
  obtain ⟨b', hb'⟩ := exists_made around (m := ⟨(add a f).bytes, (add a f).bytes.length⟩) (by
    rw [Int.toNat_natCast, length_add]
    omega)
  exact ⟨_, b', hmake, hb', carries_add hcarries hn hdata hmake hb'⟩

theorem Carries.find_none {pad : Prop} (hc : Carries pad b es n) (hn : n < 2 ^ 31)
    (hp : p ≠ trailerName) (hno : ¬ ∃ e ∈ es, e.name = p) : (findHeader b p).Ends (.err ()) := by
  obtain ⟨a, hb, rfl, -, hlen, -⟩ := hc
  have hfind := (parses_small hb (by omega)).findHeader p
  have hloc : (locate p 0 (a.entries ++ [a.trailer])).map (·.2) = (named p a.entries).head? :=
    locate_named (by rw [a.trailer_name]; exact Ne.symm hp)
  have hnamed : named p a.entries = [] :=
    List.filter_eq_nil_iff.mpr fun e he hname => hno ⟨e, he, of_decide_eq_true hname⟩
  rw [hnamed, List.head?_nil, Option.map_eq_none_iff] at hloc
  rwa [hloc] at hfind

variable (around) in
theorem Carries.remove_ends {pad : Prop} (hc : Carries pad b es n) (hn : n < 2 ^ 31)
    (hp : p ≠ trailerName) (hmem : ∀ k, k < 2 ^ 32 → mem k = true) (hin : ∃ e ∈ es, e.name = p) :
    ∃ m b', (cpioRemoveFile mem b p).Ends (.ok m) ∧ madeBuffer around m = .ok b' ∧
      Carries True b' (keep p es) n := by
  have hcarries := hc
  obtain ⟨a, hb, rfl, htotal, hlen, -⟩ := hc
  have hlength := a.length_bytes
  have hroom : total a.all ≤ toInt b.size := by
    rw [show b.size = (a.bytes.length : Int) from congrArg (fun d : Bytes => (d.length : Int)) hb,
      toInt_of_lt (by omega) (by omega)]
    omega
  have hmake := cpioRemoveFile_eq hmem hb hp hin hroom
  have hkeep := total_keep p a.all
  have hceil := ceil_lt (show 0 < 512 by omega) (total (keep p a.all))
  rw [uintn_block rfl (by omega)] at hmake
  obtain ⟨b', hb'⟩ := exists_made around (m := ⟨fill (u32 b.data.length)
    ((keep p a.all).flatMap Entry.bytes), (ceil (total (keep p a.all)) 512 : Nat)⟩) (by
      rw [Int.toNat_natCast]
      omega)
  exact ⟨_, b', hmake, hb', carries_remove hcarries hn hp hmake hb'⟩

theorem Carries.remove_err {pad : Prop} (hc : Carries pad b es n) (hn : n < 2 ^ 31)
    (hp : p ≠ trailerName) (hno : ¬ ∃ e ∈ es, e.name = p) :
    (cpioRemoveFile mem b p).Ends (.err ()) := by
  have hfind := Carries.find_none hc hn hp hno
  obtain ⟨a, hb, -⟩ := hc
  unfold cpioRemoveFile
  rw [if_neg (size_pos hb)]
  exact hfind.bind_err _

theorem Carries.getFile_ends {pad : Prop} (hc : Carries pad b es n) (hn : n < 2 ^ 31)
    (hp : p ≠ trailerName) (hmem : ∀ k, k < 2 ^ 32 → mem k = true) :
    (cpioGetFile mem b p).Ends ((first p (es.map item)).elim (.err ()) (.ok ·.data)) := by
  obtain ⟨a, hb, rfl, -, hlen, -⟩ := hc
  rw [← lookup_item (t := a.trailer) (by rw [a.trailer_name]; exact Ne.symm hp)]
  exact (parses_small hb (by omega)).getFile (fun k hk => hmem k (by omega)) (size_pos hb)
    (size_small (by omega)) p

theorem appendIfBaseName_ends (hmem : ∀ k, k < 2 ^ 32 → mem k = true) (base : CStr)
    (arr : StrArr) (path : CStr) : ∃ arr', appendIfBaseName mem base arr path = .ok arr' := by
  unfold appendIfBaseName
  split
  · have happend : ∃ arr', arr.append mem path = some arr' := by
      unfold StrArr.append
      simp only [hmem _ (u32_lt _), Bool.not_true, Bool.and_false, Bool.false_eq_true, if_false]
      exact ⟨_, rfl⟩
    obtain ⟨arr', h⟩ := happend
    exact ⟨arr', by rw [h]; rfl⟩
  · exact ⟨arr, rfl⟩

theorem findFiles_ends (hmem : ∀ k, k < 2 ^ 32 → mem k = true) (base : CStr) (arr : StrArr)
    (hp : Parses b b.size h es t) :
    ∃ out, (Exec.loop (findFilesRound mem b base) (h, arr)).Ends (.ok out) := by
  induction hp generalizing arr with
  | @trailer h t he hname hc hn =>
    obtain ⟨arr', harr⟩ := appendIfBaseName_ends hmem base arr t.name
    refine ⟨arr', Exec.loop_done ((Exec.ends_of.mpr hc.symm).bind ((string_name he).bind
      ((Exec.ends_of.mpr harr.symm).bind (Exec.ends_of.mpr ?_))))⟩
    rw [advance, hn]
    rfl
  | @entry h e es t he hname hc hn rest ih =>
    obtain ⟨arr', harr⟩ := appendIfBaseName_ends hmem base arr e.name
    obtain ⟨out, hout⟩ := ih arr'
    refine ⟨out, (Exec.loop_next ((Exec.ends_of.mpr hc.symm).bind ((string_name he).bind
      ((Exec.ends_of.mpr harr.symm).bind (Exec.ends_of.mpr ?_))))).mpr hout⟩
    rw [advance, hn]
    rfl

theorem cstr_ext {p q : CStr} (h : p.bytes = q.bytes) : p = q := by
  obtain ⟨p, _⟩ := p
  obtain rfl := h
  rfl

theorem Carries.findFiles_ends {pad : Prop} (hc : Carries pad b es n) (hn : n < 2 ^ 31)
    (hbase : base ≠ trailerName) (hmem : ∀ k, k < 2 ^ 32 → mem k = true) :
    ∃ arr, (cpioFindFilesByBaseName mem b base).Ends (.ok arr) ∧ arr.data = pathsTo base es := by
  have hcarries := hc
  obtain ⟨a, hb, rfl, -, hlen, -⟩ := hc
  have hall := a.total_all
  have hlength := a.length_bytes
  have hsize : ¬ b.size < 110 := by
    unfold Buffer.size
    rw [hb]
    omega
  obtain ⟨arr, harr⟩ := CpioStore.findFiles_ends hmem base .empty (parses_small hb (by omega))
  have hfound : (cpioFindFilesByBaseName mem b base).Ends (.ok arr) := by
    unfold cpioFindFilesByBaseName
    rw [if_neg hsize]
    exact harr
  exact ⟨arr, hfound, hcarries.findFiles hn (mt cstr_ext hbase) hfound⟩

end Calls

/-! ## Runs -/

/-- The buffer holds an archive of these files, for which `n` bytes are enough. -/
def Keeps (n : Nat) (b : Buffer) (t : List Item) : Prop :=
  ∃ es, Carries False b es n ∧ es.map item = t

section Runs

variable {mem : Nat → Bool} {around : Bytes → Int → UInt8} {b b' : Buffer} {n : Nat}
  {t : List Item} {calls : List Call}

theorem does_functional : Functional (Does mem around) := by
  intro call b b' u r r' h h'
  have heq := h.unique h'
  injection heq with heq
  exact Prod.mk.inj heq

variable (around) in
/-- Each call does with the archive what it is for. -/
theorem does_simulates (hmem : ∀ k, k < 2 ^ 32 → mem k = true) :
    SimulatesWithin (Does mem around) Call.apply Call.Proper Call.cost (2 ^ 31 - 1) Keeps := by
  rintro call b t n ⟨es, hc, rfl⟩ hproper hlimit
  have hn : n < 2 ^ 31 := by omega
  have hbit : ∀ {p : CStr}, p ≠ trailerName → ∀ bit, (hasModeBit bit b p).Ends
      (.ok ((first p (es.map item)).any (·.mode.testBit bit))) := fun hp bit => by
    rw [← bitAt_item]
    exact hc.bit hn hp bit
  cases call with
  | addFile path data mode =>
    have hpath := le_ceil (show 0 < 4 by decide) (110 + (path.bytes.length + 1))
    have hdata := le_ceil (show 0 < 4 by decide) data.length
    have hcost : Call.cost (.addFile path data mode) =
      ceil (110 + (path.bytes.length + 1)) 4 + ceil data.length 4 := rfl
    let f : NewFile := ⟨path, mode, data, hproper, by omega, by omega⟩
    obtain ⟨m, b', hm, hb', hc'⟩ := Carries.add_ends (f := f) around (some data) hc
      (by show n + (ceil (110 + (path.bytes.length + 1)) 4 + ceil data.length 4) < 2 ^ 31; omega)
      rfl hmem
    refine ⟨b', replaced_ok hm hb', _, hc'.weaken (fun h => h.elim) (Nat.le_refl _), ?_⟩
    rw [List.map_append, List.map_singleton, item_made]
    rfl
  | removeFile path =>
    by_cases hin : ∃ e ∈ es, e.name = path
    · obtain ⟨m, b', hm, hb', hc'⟩ := Carries.remove_ends around hc hn hproper hmem hin
      rw [Call.apply, if_pos (any_item.mpr hin)]
      exact ⟨b', replaced_ok hm hb', _, hc'.weaken (fun h => h.elim) (Nat.le_refl _), keep_item⟩
    · rw [Call.apply, if_neg (mt any_item.mp hin)]
      exact ⟨b, replaced_err (Carries.remove_err hc hn hproper hin), es, hc, rfl⟩
  | getFile path =>
    have hget := Carries.getFile_ends hc hn hproper hmem
    refine ⟨b, ?_, es, hc, rfl⟩
    rw [Call.apply]
    cases hfirst : first path (es.map item) with
    | none =>
      rw [hfirst] at hget
      exact found_err _ hget
    | some x =>
      rw [hfirst] at hget
      exact found_ok _ hget
  | isFile path => exact ⟨b, found_ok _ (hbit hproper 15), es, hc, rfl⟩
  | isDir path => exact ⟨b, found_ok _ (hbit hproper 14), es, hc, rfl⟩
  | findFiles base =>
    obtain ⟨arr, harr, hdata⟩ := Carries.findFiles_ends hc hn hproper hmem
    refine ⟨b, ?_, es, hc, rfl⟩
    rw [Call.apply, ← pathsTo_item, ← hdata]
    exact found_ok (fun arr : StrArr => .paths arr.data) harr

end Runs

/-- The first of two files with one name is read, and both are removed. -/
def twice : List Call :=
  [.addFile bootkey [7] fileMode, .addFile bootkey [8] fileMode, .isDir bootkey, .getFile bootkey,
    .removeFile bootkey, .getFile bootkey]

end LsvmTools.CpioStore
