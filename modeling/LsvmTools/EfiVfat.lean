import LsvmTools.Grub.Patch
import LsvmTools.Vfat.Create

/-! # Placing grub.cfg

`MapEFIVFAT` fills an embedded volume: the patched grub.cfg goes into the directory of the vendor
and into the directory that lsvmload was started from. -/
namespace LsvmTools.EfiVfat
open Lib.ByteString Lib.Program Lib.FileTree Strings Vfat.Volume Vfat.Shortname Vfat.Put Vfat.Layout
open Vfat.Nodes Vfat.Create Grub.Patch

/-! ## Wide strings -/

/-- `CHAR16` characters cast to `char`. -/
def narrow (s : List UInt16) : Bytes := s.map fun c => UInt8.ofNat c.toNat

/-- `StrWcslcpy`. -/
def strWcslcpy (src : List UInt16) (size : Nat) : Bytes := cstr ((narrow src).take (size - 1))

/-- `StrWcslcat`. -/
def strWcslcat (dest : Bytes) (src : List UInt16) (size : Nat) : Bytes :=
  cstr ((dest ++ narrow src).take (size - 1))

/-- `Strncat`. -/
def strncat (dest : Bytes) (destSize : Nat) (src : Bytes) (len : Nat) : Bytes :=
  (dest ++ src.take len).take (destSize - 1)

/-- `Wcsrchr`: the place of the last `c`. -/
def wcsrchr (s : List UInt16) (c : UInt16) : Option Nat :=
  if c ∈ s then some (s.length - (s.reverse.takeWhile (· ≠ c)).length - 1) else none

def backslash : UInt8 := 92

/-- `Dirname`. -/
def dirname (path : List UInt16) : Option (List UInt16) :=
  ((wcsrchr path 92).or (wcsrchr path 47)).map fun n => path.take (if n = 0 then 1 else n)

/-- The string in an array. -/
def ofArray (b : Bytes) : CStr := ⟨cstr b, noNul_cstr b⟩

/-! ## The creation step -/

/-- `_Contains`. -/
def contains (value : Bytes) (skiplist : List Bytes) : Bool :=
  skiplist.any fun s => s.length = value.length && s.take value.length = value

/-- What `_AddCwdGrubcfg` does with one of the directories on the way. -/
def makeParent (uninit : Nat → UInt8) (skiplist : List Bytes) (path : Bytes) :
    Prog VFAT Fail Unit :=
  if contains path skiplist then pure () else vfatMkdir uninit (ofArray path)

/-- "Make all the parent directories before making the grub.cfg": the loop over the path, with
what is before the character and what is left. -/
def makeParents (uninit : Nat → UInt8) (skiplist : List Bytes) (pathSep : UInt8) :
    Bytes → Bytes → Prog VFAT Fail Unit
  | _, [] => pure ()
  | pre, c :: rest =>
    if pre = [] ∨ c ≠ pathSep ∧ rest ≠ [] then
      makeParents uninit skiplist pathSep (pre ++ [c]) rest
    else do
      makeParent uninit skiplist (if c = pathSep then pre else pre ++ [c])
      makeParents uninit skiplist pathSep (pre ++ [c]) rest

/-- The path with the separator that VFAT uses. -/
def cwdPath (dirName : List UInt16) (pathSep : UInt8) : Bytes :=
  (strWcslcpy dirName 256).map fun c => if c = backslash then pathSep else c

/-- `_AddCwdGrubcfg`. -/
def addCwdGrubcfg (uninit : Nat → UInt8) (skiplist : List Bytes) (pathSep : UInt8)
    (lsvmloadPath : List UInt16) (grubcfgData : Bytes) : Prog VFAT Fail Unit :=
  match dirname lsvmloadPath with
  | none => Prog.throw .failed
  | some dirName =>
    if 256 < dirName.length + 10 then Prog.throw .failed
    else do
      makeParents uninit skiplist pathSep [] (cwdPath dirName pathSep)
      vfatPutFile uninit (ofArray (strncat (cwdPath dirName pathSep) 256 (text "/grub.cfg") 9))
        grubcfgData

/-- The path of the vendor directory. -/
def vendorPath (efiVendorDir : List UInt16) : Bytes :=
  strWcslcat (strlcpy (text "/EFI/") 256) efiVendorDir 256

/-- The part of `MapEFIVFAT` that fills the volume. -/
def mapEFIVFAT (uninit : Nat → UInt8) (efiVendorDir lsvmloadPath : List UInt16)
    (grubcfgData : Bytes) : Prog VFAT Fail Unit := do
  vfatMkdir uninit (ofArray (text "/EFI"))
  vfatMkdir uninit (ofArray (vendorPath efiVendorDir))
  vfatPutFile uninit (ofArray (strlcat (vendorPath efiVendorDir) (text "/GRUB.CFG") 256))
    grubcfgData
  addCwdGrubcfg uninit [text "/EFI", vendorPath efiVendorDir] slash lsvmloadPath grubcfgData

/-- What `GrubcfgPatch` leaves in the buffer. -/
def patched (grubcfg : Bytes) : Bytes := (grubcfgPatch grubcfg).getD grubcfg

/-! ## What it is for -/

/-- The text of a path below the root. -/
def pathText (p : List ShortName) : Bytes := p.flatMap fun a => slash :: a.bytes

def wide (b : Bytes) : List UInt16 := b.map fun c => UInt16.ofNat c.toNat

/-- The name of the vendor directory as it is configured, below `/EFI`. -/
def vendorDir : List ShortName → List UInt16
  | [] => []
  | v :: rest => wide (v.bytes ++ pathText rest)

/-- The path of the program `file` in the directory. -/
def programPath (dir : List ShortName) (file : List UInt16) : List UInt16 :=
  dir.flatMap (fun a => 92 :: wide a.bytes) ++ 92 :: file

theorem length_efi : 0 < (text "EFI").length ∧ (text "EFI").length ≤ 8 := by decide

theorem chars_efi : ∀ c ∈ text "EFI" ++ [], isShortChar c = true := by decide +kernel

def efi : ShortName := ⟨text "EFI", [], length_efi.1, length_efi.2, Nat.zero_le 3, chars_efi⟩

theorem length_grub : 0 < (text "grub").length ∧ (text "grub").length ≤ 8 ∧
    (text "cfg").length ≤ 3 ∧ 0 < (text "GRUB").length ∧ (text "GRUB").length ≤ 8 ∧
    (text "CFG").length ≤ 3 := by decide

theorem chars_grub : (∀ c ∈ text "grub" ++ text "cfg", isShortChar c = true) ∧
    ∀ c ∈ text "GRUB" ++ text "CFG", isShortChar c = true := by decide +kernel

def grubCfg : ShortName :=
  ⟨text "grub", text "cfg", length_grub.1, length_grub.2.1, length_grub.2.2.1, chars_grub.1⟩

def grubCfgUpper : ShortName :=
  ⟨text "GRUB", text "CFG", length_grub.2.2.2.1, length_grub.2.2.2.2.1, length_grub.2.2.2.2.2,
    chars_grub.2⟩

/-- A path of the volume. -/
def pathOf (p : List ShortName) : CStr := ofArray (pathText p)

/-- The creation step succeeds, and the patched grub.cfg is read from both directories. -/
def Placed (uninit : Nat → UInt8) (vfat : VFAT) (vendor dir : List ShortName)
    (file : List UInt16) (grubcfg : Bytes) : Prop :=
  ∃ vfat', (mapEFIVFAT uninit (vendorDir vendor) (programPath dir file) (patched grubcfg)).run vfat =
      .ok () vfat' ∧
    vfatGetFile vfat' (pathOf (efi :: vendor ++ [grubCfgUpper])) = .ok (patched grubcfg) ∧
    vfatGetFile vfat' (pathOf (dir ++ [grubCfg])) = .ok (patched grubcfg)

/-- The volume is empty. -/
structure Fresh (vfat : VFAT) : Prop where
  laid : Laid vfat
  root : vfat.rootdir = List.replicate (32 * rootEntries vfat) 0
  free : ∀ c, InRange vfat c → Vfat.Volume.entryAt vfat.fatType vfat.fat.data c = 0

/-- The directories on the way to one, itself included. -/
def ways (p : List ShortName) : List (List Bytes) :=
  (List.range p.length).map fun i => keys (p.take (i + 1))

/-- There are clusters for the directories on both ways and for two files. -/
def Enough (vfat : VFAT) (vendor dir : List ShortName) (data : Bytes) : Prop :=
  (ways (efi :: vendor) ++ ways dir).dedup.length + 2 * clusterCount vfat data ≤
    vfat.countOfClusters

instance (vfat : VFAT) (vendor dir : List ShortName) (data : Bytes) :
    Decidable (Enough vfat vendor dir data) := inferInstanceAs (Decidable (_ ≤ _))

/-- What makes the two directories go together. -/
structure GoTogether (v : ShortName) (dir : List ShortName) : Prop where
  depth : dir.length ≤ 30
  length : (pathText dir).length ≤ 246
  spelled : ∀ d rest, dir = d :: rest → d.key = efi.key → d.bytes = efi.bytes
  vendor : ∀ d e rest, dir = d :: e :: rest → d.key = efi.key → e.key = v.key → e.bytes = v.bytes
  apart : keys dir ≠ [efi.key, v.key]
  file : ∀ d e f rest, dir = d :: e :: f :: rest → d.key = efi.key → e.key = v.key →
    f.key ≠ grubCfg.key
  above : keys dir = [efi.key] → v.key ≠ grubCfg.key

/-! ## The texts of the paths -/

section Texts

variable {p dir rest : List ShortName} {a b v : ShortName} {file : List UInt16}

theorem narrow_wide (b : Bytes) : narrow (wide b) = b := by
  rw [narrow, wide, List.map_map]
  refine (List.map_congr_left fun c _ => ?_).trans (List.map_id b)
  have hc := c.toNat_lt
  simp only [Function.comp, id]
  rw [UInt16.toNat_ofNat', ← UInt8.toNat_inj, UInt8.toNat_ofNat']
  omega

theorem pathText_snoc : pathText (p ++ [a]) = pathText p ++ slash :: a.bytes := by
  rw [pathText, List.flatMap_append, List.flatMap_singleton, pathText]

theorem pathText_leads (p : List ShortName) : Leads (pathText p) p := by
  induction p using List.reverseRecOn with
  | nil => exact .empty
  | append_singleton p a ih =>
    rw [pathText_snoc]
    exact .snoc a ih

theorem pathText_noNul (p : List ShortName) : (0 : UInt8) ∉ pathText p :=
  (pathText_leads p).zero_not_mem

theorem ofArray_bytes {b : Bytes} (h : (0 : UInt8) ∉ b) : (ofArray b).bytes = b := cstr_eq h

theorem pathOf_bytes (p : List ShortName) : (pathOf p).bytes = pathText p :=
  ofArray_bytes (pathText_noNul p)

/-- The path to a name in a directory, where it is not too long. -/
theorem pathOf_pathTo (h : (pathText (p ++ [a])).length ≤ 255) :
    PathTo (pathOf (p ++ [a])) (pathText p) p a where
  bytes := by rw [pathOf_bytes, pathText_snoc]
  leads := pathText_leads p
  short := by rwa [pathOf_bytes]

theorem pathText_inj (h : pathText p = pathText dir) : keys p = keys dir := by
  have hnames : p.map ShortName.bytes = dir.map ShortName.bytes := by
    rw [← (pathText_leads p).strtok, h, (pathText_leads dir).strtok]
  -- the name in the entry is computed from the text
  have hkeys : ∀ l : List ShortName, (keys l).map some = (l.map ShortName.bytes).map internShortname := by
    intro l
    rw [keys, List.map_map, List.map_map]
    exact List.map_congr_left fun a _ => a.intern.symm
  refine List.map_injective_iff.mpr (Option.some_injective _) ?_
  rw [hkeys, hkeys, hnames]

theorem length_pathText_le (p : List ShortName) : (pathText p).length ≤ 13 * p.length := by
  induction p with
  | nil => exact Nat.le_refl _
  | cons a p ih =>
    have ha := a.length_bytes_le
    rw [pathText, List.flatMap_cons, ← pathText, List.length_append, List.length_cons,
      List.length_cons]
    omega

theorem text_efi : text "/EFI" = pathText [efi] := by decide

/-- The path that is put together for the vendor directory, cut off where it is too long. -/
theorem vendorPath_eq (v : ShortName) (rest : List ShortName) :
    vendorPath (vendorDir (v :: rest)) = (pathText (efi :: v :: rest)).take 255 := by
  have hefi : strlcpy (text "/EFI/") 256 = pathText [efi] ++ [slash] := by decide
  have hall : pathText [efi] ++ [slash] ++ (v.bytes ++ pathText rest) =
      pathText (efi :: v :: rest) := by
    rw [List.append_assoc, pathText, pathText, pathText, List.flatMap_cons, List.flatMap_cons,
      List.flatMap_cons, List.flatMap_nil, List.append_nil]
    rfl
  have hno : (0 : UInt8) ∉ (pathText (efi :: v :: rest)).take 255 := fun h =>
    pathText_noNul _ (List.mem_of_mem_take h)
  rw [vendorPath, vendorDir, strWcslcat, narrow_wide, hefi, hall, cstr_eq hno]

theorem wcsrchr_append {x file : List UInt16} {c : UInt16} (h : c ∉ file) :
    wcsrchr (x ++ c :: file) c = some x.length := by
  have hall : ∀ d ∈ file.reverse, decide (d ≠ c) = true :=
    fun d hd => decide_eq_true fun he => h (he ▸ List.mem_reverse.mp hd)
  rw [wcsrchr, if_pos (by simp), List.reverse_append, List.reverse_cons, List.append_assoc,
    List.takeWhile_append_of_pos hall, List.singleton_append, List.takeWhile_cons,
    if_neg (by simp), List.append_nil, List.length_reverse, List.length_append, List.length_cons]
  congr 1
  omega

/-- The directory part of the path of the program. -/
theorem dirname_programPath (h : 92 ∉ file) : dirname (programPath dir file) =
    some (if dir = [] then [92] else dir.flatMap fun a => 92 :: wide a.bytes) := by
  rw [dirname, programPath, wcsrchr_append h, Option.some_or, Option.map_some]
  cases dir with
  | nil => rfl
  | cons a dir =>
    rw [if_neg (by simp), if_neg (List.cons_ne_nil _ _), List.take_left]

theorem narrow_dir (dir : List ShortName) :
    narrow (dir.flatMap fun a => 92 :: wide a.bytes) = dir.flatMap fun a => backslash :: a.bytes := by
  induction dir with
  | nil => rfl
  | cons a dir ih =>
    have hcons : narrow (92 :: wide a.bytes) = backslash :: a.bytes := by
      rw [narrow, List.map_cons, ← narrow, narrow_wide]
      rfl
    rw [List.flatMap_cons, List.flatMap_cons, ← ih, ← hcons]
    exact List.map_append

theorem backslash_not_mem (a : ShortName) : backslash ∉ a.bytes := by
  intro h
  rcases a.mem_bytes h with h | h
  · exact absurd h (by decide)
  · exact absurd h (by decide)

theorem map_backslash (dir : List ShortName) :
    (dir.flatMap fun a => backslash :: a.bytes).map (fun c => if c = backslash then slash else c) =
      pathText dir := by
  rw [List.map_flatMap, pathText]
  refine List.flatMap_congr fun a _ => ?_
  rw [List.map_cons, if_pos rfl]
  congr 1
  refine (List.map_congr_left fun c hc => ?_).trans (List.map_id a.bytes)
  exact if_neg fun he : c = backslash => backslash_not_mem a (he ▸ hc)

theorem length_backslash (dir : List ShortName) :
    (dir.flatMap fun a => backslash :: a.bytes).length = (pathText dir).length := by
  rw [← map_backslash, List.length_map]

theorem backslash_noNul (dir : List ShortName) :
    (0 : UInt8) ∉ dir.flatMap fun a => backslash :: a.bytes := by
  intro h
  obtain ⟨a, -, ha⟩ := List.mem_flatMap.mp h
  rcases List.mem_cons.mp ha with ha | ha
  · exact absurd ha (by decide)
  · exact a.zero_not_mem ha

/-- The text of the directory, with a slash for the root. -/
def cwdText (dir : List ShortName) : Bytes := if dir = [] then [slash] else pathText dir

theorem cwdText_leads (dir : List ShortName) : Leads (cwdText dir) dir := by
  unfold cwdText
  split
  · rename_i h
    rw [h]
    exact .root
  · exact pathText_leads dir

/-- The length of the directory part. -/
theorem length_dirname (dir : List ShortName) :
    (if dir = [] then [92] else dir.flatMap fun a => 92 :: wide a.bytes : List UInt16).length =
      (cwdText dir).length := by
  unfold cwdText
  split
  · rfl
  · rw [← length_backslash, ← narrow_dir, narrow, List.length_map]

theorem cwdPath_eq (h : (cwdText dir).length ≤ 255) :
    cwdPath (if dir = [] then [92] else dir.flatMap fun a => 92 :: wide a.bytes) slash =
      cwdText dir := by
  unfold cwdText at h ⊢
  split
  · decide
  · rename_i hne
    rw [if_neg hne] at h
    rw [cwdPath, strWcslcpy, narrow_dir, List.take_of_length_le (by rwa [length_backslash]),
      cstr_eq (backslash_noNul dir), map_backslash]

end Texts

/-! ## The calls -/

/-- Making the directories on the way from `q` on. -/
def steps (q : List ShortName) : List ShortName → List (Make ShortName Bytes)
  | [] => []
  | d :: ds => ⟨q, d, none⟩ :: steps (q ++ [d]) ds

/-- `_AddCwdGrubcfg` takes the directory for one that is there. -/
def skipped (skiplist : List Bytes) (m : Make ShortName Bytes) : Bool :=
  contains (pathText m.path) skiplist

/-- The directories that `_AddCwdGrubcfg` makes. -/
def cwdMakes (skiplist : List Bytes) (q dir : List ShortName) : List (Make ShortName Bytes) :=
  (steps q dir).filter (!skipped skiplist ·)

def mkdirCall (m : Make ShortName Bytes) : Call := .mkdir (pathOf m.path)

/-- The calls of the creation step. -/
def calls (v : ShortName) (dir : List ShortName) (data : Bytes) : List Call :=
  [.mkdir (pathOf [efi]), .mkdir (pathOf [efi, v]), .putFile (pathOf [efi, v, grubCfgUpper]) data] ++
    (cwdMakes [pathText [efi], pathText [efi, v]] [] dir).map mkdirCall ++
    [.putFile (ofArray (cwdText dir ++ slash :: grubCfg.bytes)) data]

/-- What they are to make. -/
def makes (v : ShortName) (dir : List ShortName) (data : Bytes) : List (Make ShortName Bytes) :=
  [⟨[], efi, none⟩, ⟨[efi], v, none⟩, ⟨[efi, v], grubCfgUpper, some data⟩] ++
    cwdMakes [pathText [efi], pathText [efi, v]] [] dir ++ [⟨dir, grubCfg, some data⟩]

section Runs

variable {uninit : Nat → UInt8} {skiplist : List Bytes} {pre b tail data : Bytes}
  {q dir : List ShortName} {d v : ShortName} {m : Make ShortName Bytes} {vfat : VFAT}
  {cs : List Call} {file : List UInt16}

/-- The loop over the last name of the path. -/
theorem makeParents_last (hb : slash ∉ b) (hne : b ≠ []) (hpre : pre ≠ []) :
    makeParents uninit skiplist slash pre b =
      (makeParent uninit skiplist (pre ++ b) >>= fun _ => runCalls uninit []) := by
  induction b generalizing pre with
  | nil => exact absurd rfl hne
  | cons c b ih =>
    have hc : c ≠ slash := fun h => hb (h ▸ List.mem_cons_self)
    cases b with
    | nil =>
      rw [makeParents, if_neg (by simp [hpre]), if_neg hc]
      rfl
    | cons c' b =>
      rw [makeParents, if_pos (.inr ⟨hc, List.cons_ne_nil _ _⟩),
        ih (fun h => hb (List.mem_cons_of_mem _ h)) (List.cons_ne_nil _ _) (by simp),
        List.append_assoc, List.singleton_append]

/-- The loop over a name with a separator behind it. -/
theorem makeParents_name (hb : slash ∉ b) (hpre : pre ≠ []) :
    makeParents uninit skiplist slash pre (b ++ slash :: tail) =
      (makeParent uninit skiplist (pre ++ b) >>= fun _ =>
        makeParents uninit skiplist slash (pre ++ b ++ [slash]) tail) := by
  induction b generalizing pre with
  | nil =>
    rw [List.nil_append, makeParents, if_neg (by simp [hpre]), if_pos rfl, List.append_nil]
  | cons c b ih =>
    have hc : c ≠ slash := fun h => hb (h ▸ List.mem_cons_self)
    rw [List.cons_append, makeParents, if_pos (.inr ⟨hc, by simp⟩),
      ih (fun h => hb (List.mem_cons_of_mem _ h)) (by simp), List.append_assoc pre [c] b,
      List.singleton_append]

theorem run_congr {m k k' : Prog VFAT Fail Unit} (h : ∀ s, k.run s = k'.run s) (s : VFAT) :
    (m >>= fun _ => k).run s = (m >>= fun _ => k').run s := by
  rw [Prog.run_bind, Prog.run_bind]
  cases m.run s with
  | ok u t => exact h t
  | err e t => rfl
  | stuck => rfl

/-- A directory is made unless it is skipped. -/
theorem makeParent_run (s : VFAT) :
    (makeParent uninit skiplist (pathText m.path) >>= fun _ => runCalls uninit cs).run s =
      (runCalls uninit ((if skipped skiplist m then [] else [mkdirCall m]) ++ cs)).run s := by
  rw [makeParent, skipped]
  cases contains (pathText m.path) skiplist with
  | true => rfl
  | false => rfl

theorem cwdMakes_cons : cwdMakes skiplist q (d :: dir) =
    (if skipped skiplist ⟨q, d, none⟩ then [] else [⟨q, d, none⟩]) ++
      cwdMakes skiplist (q ++ [d]) dir := by
  rw [cwdMakes, steps, List.filter_cons]
  cases skipped skiplist ⟨q, d, none⟩ with
  | true => rfl
  | false => rfl

/-- The loop makes the directories on the way, from a separator on. -/
theorem makeParents_run (s : VFAT) :
    (makeParents uninit skiplist slash (pathText q ++ [slash]) (d.bytes ++ pathText dir)).run s =
      (runCalls uninit ((cwdMakes skiplist q (d :: dir)).map mkdirCall)).run s := by
  have hmap : ∀ {q d dir}, (cwdMakes skiplist q (d :: dir)).map mkdirCall =
      (if skipped skiplist ⟨q, d, none⟩ then [] else [mkdirCall ⟨q, d, none⟩]) ++
        (cwdMakes skiplist (q ++ [d]) dir).map mkdirCall := by
    intro q d dir
    rw [cwdMakes_cons, List.map_append, apply_ite (List.map mkdirCall), List.map_nil,
      List.map_singleton]
  have hpath : ∀ {q : List ShortName} {d : ShortName}, pathText q ++ [slash] ++ d.bytes =
      pathText (Make.path (⟨q, d, none⟩ : Make ShortName Bytes)) := by
    intro q d
    rw [Make.path, pathText_snoc, List.append_assoc, List.singleton_append]
  induction dir generalizing q d s with
  | nil =>
    rw [show pathText [] = [] from rfl, List.append_nil, hmap,
      makeParents_last d.slash_not_mem d.bytes_ne_nil (by simp), hpath, makeParent_run]
    rfl
  | cons e dir ih =>
    have hcons : pathText (e :: dir) = slash :: (e.bytes ++ pathText dir) := rfl
    have hnext : ∀ s, (makeParents uninit skiplist slash
        (pathText (Make.path (⟨q, d, none⟩ : Make ShortName Bytes)) ++ [slash])
        (e.bytes ++ pathText dir)).run s =
          (runCalls uninit ((cwdMakes skiplist (q ++ [d]) (e :: dir)).map mkdirCall)).run s :=
      fun s => ih s
    rw [hcons, makeParents_name d.slash_not_mem (by simp), hpath, hmap, ← makeParent_run]
    exact run_congr hnext s

theorem runCalls_append (cs cs' : List Call) (s : VFAT) :
    (runCalls uninit (cs ++ cs')).run s =
      (runCalls uninit cs >>= fun _ => runCalls uninit cs').run s := by
  induction cs generalizing s with
  | nil => rfl
  | cons c cs ih =>
    rw [List.cons_append, runCalls, runCalls, run_congr ih, Prog.run_bind, Prog.run_bind,
      Prog.run_bind]
    cases (c.prog uninit).run s <;> rfl

variable (uninit skiplist data) in
/-- `_AddCwdGrubcfg` as calls. -/
theorem addCwdGrubcfg_run (hfile : 92 ∉ file) (hlen : (cwdText dir).length ≤ 246) (s : VFAT) :
    (addCwdGrubcfg uninit skiplist slash (programPath dir file) data).run s =
      (runCalls uninit ((cwdMakes skiplist [] dir).map mkdirCall ++
        [.putFile (ofArray (cwdText dir ++ slash :: grubCfg.bytes)) data])).run s := by
  have hgrub : (text "/grub.cfg").take 9 = slash :: grubCfg.bytes := by decide
  have hcat : strncat (cwdText dir) 256 (text "/grub.cfg") 9 =
      cwdText dir ++ slash :: grubCfg.bytes := by
    rw [strncat, hgrub, List.take_of_length_le]
    have h9 : (slash :: grubCfg.bytes).length = 9 := by decide
    rw [List.length_append, h9]
    omega
  have hparents : ∀ s, (makeParents uninit skiplist slash [] (cwdText dir)).run s =
      (runCalls uninit ((cwdMakes skiplist [] dir).map mkdirCall)).run s := by
    intro s
    cases dir with
    | nil => rfl
    | cons d dir =>
      have hcons : cwdText (d :: dir) = slash :: (d.bytes ++ pathText dir) := rfl
      rw [hcons, makeParents, if_pos (.inl rfl)]
      exact makeParents_run (q := []) s
  unfold addCwdGrubcfg
  rw [dirname_programPath hfile]
  dsimp only
  rw [length_dirname, if_neg (by omega), cwdPath_eq (by omega), hcat, runCalls_append, Prog.run_bind,
    Prog.run_bind, hparents]
  cases (runCalls uninit ((cwdMakes skiplist [] dir).map mkdirCall)).run s with
  | ok u t =>
    dsimp only
    rw [runCalls, Prog.run_bind, Call.prog]
    cases (vfatPutFile uninit (ofArray (cwdText dir ++ slash :: grubCfg.bytes)) data).run t <;> rfl
  | err e t => rfl
  | stuck => rfl

theorem length_pathText_efi (v : ShortName) : (pathText [efi, v]).length ≤ 17 := by
  have hv := v.length_bytes_le
  have hefi : efi.bytes.length = 3 := by decide
  rw [pathText, List.flatMap_cons, List.flatMap_singleton, List.length_append, List.length_cons,
    List.length_cons, hefi]
  omega

variable (uninit data) in
/-- The creation step as calls, for a vendor directory right below `/EFI`. -/
theorem mapEFIVFAT_run (hfile : 92 ∉ file) (hlen : (cwdText dir).length ≤ 246) (s : VFAT) :
    (mapEFIVFAT uninit (vendorDir [v]) (programPath dir file) data).run s =
      (runCalls uninit (calls v dir data)).run s := by
  have hv := length_pathText_efi v
  have hvendor : vendorPath (vendorDir [v]) = pathText [efi, v] := by
    rw [vendorPath_eq, List.take_of_length_le (by omega)]
  have hput : strlcat (pathText [efi, v]) (text "/GRUB.CFG") 256 =
      pathText [efi, v, grubCfgUpper] := by
    have hgrub : text "/GRUB.CFG" = slash :: grubCfgUpper.bytes := by decide
    have h9 : (slash :: grubCfgUpper.bytes).length = 9 := by decide
    rw [strlcat, hgrub, List.take_of_length_le (by rw [List.length_append, h9]; omega)]
    exact pathText_snoc.symm
  have hrest := addCwdGrubcfg_run uninit [pathText [efi], pathText [efi, v]] data
    hfile hlen
  rw [mapEFIVFAT, hvendor, hput, text_efi, calls, List.append_assoc]
  exact run_congr (fun s => run_congr (fun s => run_congr hrest s) s) s

end Runs

/-! ## What the calls make -/

section Script

variable {skiplist : List Bytes} {q dir rest : List ShortName} {d v : ShortName} {data : Bytes}
  {m : Make ShortName Bytes} {vfat : VFAT} {p : List Bytes} {t : List (Make Bytes Bytes)}

theorem mem_steps : m ∈ steps q dir ↔ ∃ a d b, dir = a ++ d :: b ∧ m = ⟨q ++ a, d, none⟩ := by
  induction dir generalizing q with
  | nil =>
    refine ⟨fun h => (by cases h), ?_⟩
    rintro ⟨a, d, b, h, -⟩
    exact absurd h.symm (by simp)
  | cons e dir ih =>
    rw [steps, List.mem_cons, ih]
    constructor
    · rintro (rfl | ⟨a, d, b, rfl, rfl⟩)
      · exact ⟨[], e, dir, rfl, by rw [List.append_nil]⟩
      · exact ⟨e :: a, d, b, rfl, by rw [← List.append_cons]⟩
    · rintro ⟨a, d, b, hsplit, rfl⟩
      cases a with
      | nil =>
        injection hsplit with he
        exact .inl (by rw [he, List.append_nil])
      | cons x a =>
        injection hsplit with he hrest
        exact .inr ⟨a, d, b, hrest, by rw [he, List.append_cons]⟩

theorem mem_cwdMakes : m ∈ cwdMakes skiplist q dir ↔
    (∃ a d b, dir = a ++ d :: b ∧ m = ⟨q ++ a, d, none⟩) ∧ skipped skiplist m = false := by
  rw [cwdMakes, List.mem_filter, mem_steps, Bool.not_eq_true']

theorem pathText_eq_iff {a b : List ShortName} :
    pathText a = pathText b ↔ a.map ShortName.bytes = b.map ShortName.bytes := by
  constructor
  · intro h
    rw [← (pathText_leads a).strtok, h, (pathText_leads b).strtok]
  · intro h
    have hmap : ∀ l : List ShortName, pathText l = (l.map ShortName.bytes).flatMap (slash :: ·) :=
      fun l => by rw [List.flatMap_map]; rfl
    rw [hmap, h, ← hmap]

/-- What is taken for a directory that is there. -/
theorem skipped_iff : skipped [pathText [efi], pathText [efi, v]] m = true ↔
    m.path.map ShortName.bytes = [efi.bytes] ∨
      m.path.map ShortName.bytes = [efi.bytes, v.bytes] := by
  have hone : ∀ s : Bytes, (decide (s.length = (pathText m.path).length) &&
      decide (s.take (pathText m.path).length = pathText m.path)) = true ↔ pathText m.path = s := by
    intro s
    rw [Bool.and_eq_true, decide_eq_true_iff, decide_eq_true_iff]
    constructor
    · rintro ⟨hlen, htake⟩
      rw [← htake, ← hlen, List.take_length]
    · rintro rfl
      exact ⟨rfl, List.take_length⟩
  rw [skipped, contains, List.any_cons, List.any_cons, List.any_nil, Bool.or_false, Bool.or_eq_true,
    hone, hone, pathText_eq_iff, pathText_eq_iff]
  rfl

theorem keys_of_bytes {a b : List ShortName} (h : a.map ShortName.bytes = b.map ShortName.bytes) :
    keys a = keys b := pathText_inj (pathText_eq_iff.mpr h)

theorem keyed_path (m : Make ShortName Bytes) : (keyed m).path = keys m.path := keys_snoc.symm

variable (dir) in
/-- The directories on the way are made one in the other. -/
theorem based_cwd (hq : IsDir t (keys q))
    (hskip : ∀ m : Make ShortName Bytes, skipped skiplist m = true → IsDir t (keys m.path)) :
    Based t ((cwdMakes skiplist q dir).map keyed) ∧
      IsDir (t ++ (cwdMakes skiplist q dir).map keyed) (keys (q ++ dir)) := by
  induction dir generalizing q t with
  | nil =>
    refine ⟨trivial, ?_⟩
    rw [List.append_nil]
    exact hq.append _
  | cons d dir ih =>
    rw [List.append_cons, cwdMakes_cons]
    cases hs : skipped skiplist ⟨q, d, none⟩ with
    | true =>
      rw [if_pos rfl, List.nil_append]
      exact ih (hskip _ hs) hskip
    | false =>
      have hmade : IsDir (t ++ [keyed ⟨q, d, none⟩]) (keys (q ++ [d])) := by
        have hpath : (keyed ⟨q, d, none⟩).path = keys (q ++ [d]) := keyed_path _
        rw [← hpath]
        exact IsDir.made rfl (List.mem_append_right _ (List.mem_singleton.mpr rfl))
      obtain ⟨hbased, hdir⟩ := ih hmade fun m hm => (hskip m hm).append _
      rw [if_neg Bool.false_ne_true, List.map_append, List.map_singleton, ← List.append_assoc]
      exact ⟨⟨hq, hbased⟩, hdir⟩

/-- Directories that have been made before `_AddCwdGrubcfg`, and the file. -/
def vendorMakes (v : ShortName) (data : Bytes) : List (Make Bytes Bytes) :=
  [⟨[], efi.key, none⟩, ⟨[efi.key], v.key, none⟩, ⟨[efi.key, v.key], grubCfg.key, some data⟩]

theorem grub_key : grubCfgUpper.key = grubCfg.key := by decide

theorem makes_keyed : (makes v dir data).map keyed = vendorMakes v data ++
    (cwdMakes [pathText [efi], pathText [efi, v]] [] dir).map keyed ++
      [⟨keys dir, grubCfg.key, some data⟩] := by
  have hvendor : ([⟨[], efi, none⟩, ⟨[efi], v, none⟩, ⟨[efi, v], grubCfgUpper, some data⟩] :
      List (Make ShortName Bytes)).map keyed = vendorMakes v data := by
    rw [vendorMakes, ← grub_key]
    rfl
  rw [makes, List.map_append, List.map_append, hvendor]
  rfl

theorem vendor_isDir (hs : skipped [pathText [efi], pathText [efi, v]] m = true) :
    IsDir (vendorMakes v data) (keys m.path) := by
  rcases skipped_iff.mp hs with h | h
  · rw [keys_of_bytes (b := [efi]) h]
    exact .inr ⟨⟨[], efi.key, none⟩, List.mem_cons_self, rfl, rfl⟩
  · rw [keys_of_bytes (b := [efi, v]) h]
    exact .inr ⟨⟨[efi.key], v.key, none⟩, List.mem_cons_of_mem _ List.mem_cons_self, rfl, rfl⟩

/-- Each call finds its directory. -/
theorem makes_based : Based [] ((makes v dir data).map keyed) := by
  have hvendor : Based [] (vendorMakes v data) := by
    refine ⟨.inl rfl, ?_, ?_, trivial⟩
    · exact .inr ⟨⟨[], efi.key, none⟩, List.mem_cons_self, rfl, rfl⟩
    · exact .inr ⟨⟨[efi.key], v.key, none⟩, by simp, rfl, rfl⟩
  obtain ⟨hbased, hdir⟩ := based_cwd (t := vendorMakes v data) (q := []) dir (.inl rfl)
    fun _ => vendor_isDir
  rw [makes_keyed, based_snoc, based_append]
  exact ⟨⟨hvendor, hbased⟩, hdir⟩

theorem pairwise_steps :
    (steps q dir).Pairwise fun m m' => m.path.length < m'.path.length := by
  induction dir generalizing q with
  | nil => exact List.Pairwise.nil
  | cons d dir ih =>
    refine List.Pairwise.cons (fun m hm => ?_) ih
    obtain ⟨a, e, b, -, rfl⟩ := mem_steps.mp hm
    simp only [Make.path, List.length_append, List.length_singleton]
    omega

/-- The paths that `_AddCwdGrubcfg` makes. -/
def cwdPaths (v : ShortName) (dir : List ShortName) : List (List Bytes) :=
  (cwdMakes [pathText [efi], pathText [efi, v]] [] dir).map (fun m => keys m.path) ++
    [keys dir ++ [grubCfg.key]]

theorem paths_makes : paths ((makes v dir data).map keyed) =
    [[efi.key], [efi.key, v.key], [efi.key, v.key, grubCfg.key]] ++ cwdPaths v dir := by
  rw [makes_keyed, paths_append, paths_append, cwdPaths, List.append_assoc]
  congr 2
  rw [paths, List.map_map]
  exact List.map_congr_left fun m _ => keyed_path m

theorem cwdPaths_nodup (v : ShortName) (dir : List ShortName) : (cwdPaths v dir).Nodup := by
  have hlen : (cwdPaths v dir).Pairwise fun a b => a.length < b.length := by
    refine List.pairwise_append.mpr ⟨?_, List.pairwise_singleton _ _, fun a ha b hb => ?_⟩
    · rw [List.pairwise_map]
      refine (pairwise_steps.filter _).imp fun h => ?_
      rwa [keys, keys, List.length_map, List.length_map]
    · obtain ⟨m, hm, rfl⟩ := List.mem_map.mp ha
      obtain ⟨⟨x, d, y, rfl, rfl⟩, -⟩ := mem_cwdMakes.mp hm
      rw [List.mem_singleton.mp hb]
      simp only [keys, Make.path, List.length_map, List.length_append, List.length_cons,
        List.length_nil]
      omega
  exact hlen.imp fun h he => absurd h (by rw [he]; exact Nat.lt_irrefl _)

theorem mem_cwdPaths : p ∈ cwdPaths v dir ↔
    (∃ a d b, dir = a ++ d :: b ∧ keys (a ++ [d]) = p ∧
      (a ++ [d]).map ShortName.bytes ≠ [efi.bytes] ∧
      (a ++ [d]).map ShortName.bytes ≠ [efi.bytes, v.bytes]) ∨ p = keys dir ++ [grubCfg.key] := by
  rw [cwdPaths, List.mem_append, List.mem_singleton, List.mem_map]
  refine or_congr_left ⟨?_, ?_⟩
  · rintro ⟨m, hm, rfl⟩
    obtain ⟨⟨a, d, b, hsplit, rfl⟩, hs⟩ := mem_cwdMakes.mp hm
    rw [← Bool.not_eq_true, skipped_iff, not_or] at hs
    exact ⟨a, d, b, hsplit, rfl, hs⟩
  · rintro ⟨a, d, b, hsplit, rfl, hs⟩
    refine ⟨⟨a, d, none⟩, mem_cwdMakes.mpr ⟨⟨a, d, b, hsplit, rfl⟩, ?_⟩, rfl⟩
    rw [← Bool.not_eq_true, skipped_iff, not_or]
    exact hs

theorem makes_nodup_iff : (paths ((makes v dir data).map keyed)).Nodup ↔
    [efi.key] ∉ cwdPaths v dir ∧ [efi.key, v.key] ∉ cwdPaths v dir ∧
      [efi.key, v.key, grubCfg.key] ∉ cwdPaths v dir := by
  rw [paths_makes, List.nodup_append]
  have hthree : [[efi.key], [efi.key, v.key], [efi.key, v.key, grubCfg.key]].Nodup := by simp
  rw [and_iff_right hthree, and_iff_right (cwdPaths_nodup v dir)]
  constructor
  · intro h
    exact ⟨fun hm => h _ (by simp) _ hm rfl, fun hm => h _ (by simp) _ hm rfl,
      fun hm => h _ (by simp) _ hm rfl⟩
  · rintro ⟨h1, h2, h3⟩ a ha b hb rfl
    simp only [List.mem_cons, List.not_mem_nil, or_false] at ha
    rcases ha with rfl | rfl | rfl
    · exact h1 hb
    · exact h2 hb
    · exact h3 hb

theorem efi_ne_grub : efi.key ≠ grubCfg.key := by decide

theorem keys_one {a : List ShortName} {x : Bytes} (h : keys (a ++ [d]) = [x]) :
    a = [] ∧ d.key = x := by
  rcases a with _ | ⟨e, a⟩
  · exact ⟨rfl, List.singleton_inj.mp h⟩
  · simp [keys] at h

theorem keys_two {a : List ShortName} {x y : Bytes} (h : keys (a ++ [d]) = [x, y]) :
    ∃ e, a = [e] ∧ e.key = x ∧ d.key = y := by
  rcases a with _ | ⟨e, a⟩
  · simp [keys] at h
  · injection h with hx h
    obtain ⟨rfl, hy⟩ := keys_one h
    exact ⟨e, rfl, hx, hy⟩

theorem keys_three {a : List ShortName} {x y z : Bytes} (h : keys (a ++ [d]) = [x, y, z]) :
    ∃ e f, a = [e, f] ∧ e.key = x ∧ f.key = y ∧ d.key = z := by
  rcases a with _ | ⟨e, a⟩
  · simp [keys] at h
  · injection h with hx h
    obtain ⟨f, rfl, hy, hz⟩ := keys_two h
    exact ⟨e, f, rfl, hx, hy, hz⟩

/-- Directories that go together are made under different paths. -/
theorem apart_paths (h : GoTogether v dir) : [efi.key] ∉ cwdPaths v dir ∧
    [efi.key, v.key] ∉ cwdPaths v dir ∧ [efi.key, v.key, grubCfg.key] ∉ cwdPaths v dir := by
  rw [mem_cwdPaths, mem_cwdPaths, mem_cwdPaths]
  refine ⟨?_, ?_, ?_⟩
  · rintro (⟨a, d, b, hsplit, hkeys, hno, -⟩ | hlast)
    · obtain ⟨rfl, hd⟩ := keys_one hkeys
      exact hno (congrArg (fun x => [x]) (h.spelled d b hsplit hd))
    · have hsame : [] ++ [efi.key] = keys dir ++ [grubCfg.key] := hlast
      exact efi_ne_grub (List.singleton_inj.mp (List.append_inj' hsame rfl).2)
  · rintro (⟨a, d, b, hsplit, hkeys, -, hno⟩ | hlast)
    · obtain ⟨e, rfl, he, hd⟩ := keys_two hkeys
      have hbytes := h.spelled e (d :: b) hsplit he
      exact hno (congrArg₂ (fun x y => [x, y]) hbytes (h.vendor e d b hsplit he hd))
    · have hsame : [efi.key] ++ [v.key] = keys dir ++ [grubCfg.key] := hlast
      obtain ⟨hdir, hv⟩ := List.append_inj' hsame rfl
      exact h.above hdir.symm (List.singleton_inj.mp hv)
  · rintro (⟨a, d, b, hsplit, hkeys, -, -⟩ | hlast)
    · obtain ⟨e, f, rfl, he, hf, hd⟩ := keys_three hkeys
      exact h.file e f d b hsplit he hf hd
    · have hsame : [efi.key, v.key] ++ [grubCfg.key] = keys dir ++ [grubCfg.key] := hlast
      exact h.apart (List.append_inj' hsame rfl).1.symm

/-- The calls make different things exactly if the two directories go together. -/
theorem goTogether_iff (hdepth : dir.length ≤ 30) (hlen : (pathText dir).length ≤ 246) :
    GoTogether v dir ↔ (paths ((makes v dir data).map keyed)).Nodup := by
  rw [makes_nodup_iff]
  refine ⟨apart_paths, ?_⟩
  rintro ⟨h1, h2, h3⟩
  rw [mem_cwdPaths, not_or] at h1 h2 h3
  refine ⟨hdepth, hlen, fun d rest hdir hd => ?_, fun d e rest hdir hd he => ?_, fun hdir => ?_,
    fun d e f rest hdir hd he hf => ?_, fun hdir hv => ?_⟩
  · by_contra hne
    refine h1.1 ⟨[], d, rest, hdir, congrArg (fun x => [x]) hd, fun h => ?_, fun h => ?_⟩
    · exact hne (List.singleton_inj.mp h)
    · simp at h
  · by_contra hne
    refine h2.1 ⟨[d], e, rest, hdir, congrArg₂ (fun x y => [x, y]) hd he, fun h => ?_, fun h => ?_⟩
    · simp at h
    · injection h with _ h
      exact hne (List.singleton_inj.mp h)
  · exact h3.2 (by rw [hdir]; rfl)
  · refine h3.1 ⟨[d, e], f, rest, hdir, ?_, fun h => ?_, fun h => ?_⟩
    · rw [← hd, ← he, ← hf]
      rfl
    · simp at h
    · simp at h
  · exact h2.2 (by rw [hdir, ← hv]; rfl)

theorem cwdText_length (h : (pathText dir).length ≤ 246) : (cwdText dir).length ≤ 246 := by
  unfold cwdText
  split
  · decide
  · exact h

/-- The calls are the ones to make these. -/
theorem calls_names (hlen : (pathText dir).length ≤ 246) :
    List.Forall₂ Names (calls v dir data) (makes v dir data) := by
  have hv := length_pathText_efi v
  have hgrub : grubCfgUpper.bytes.length = 8 ∧ grubCfg.bytes.length = 8 := by decide
  have hcwd := cwdText_length hlen
  refine List.rel_append (List.rel_append ?_ ?_) (.cons ?_ .nil)
  · refine .cons (.mkdir (pathOf_pathTo (p := []) ?_)) (.cons (.mkdir (pathOf_pathTo (p := [efi]) ?_))
      (.cons (.putFile data (pathOf_pathTo (p := [efi, v]) ?_)) .nil))
    · exact (by decide : (pathText [efi]).length ≤ 255)
    · exact Nat.le_trans hv (by decide)
    · rw [pathText_snoc, List.length_append, List.length_cons, hgrub.1]
      omega
  · rw [List.forall₂_map_left_iff, List.forall₂_same]
    intro m hm
    obtain ⟨⟨a, d, b, hsplit, rfl⟩, -⟩ := mem_cwdMakes.mp hm
    refine .mkdir (pathOf_pathTo ?_)
    have hall : pathText dir = pathText (a ++ [d]) ++ pathText b := by
      rw [hsplit, List.append_cons, pathText, List.flatMap_append, pathText, pathText]
    rw [hall, List.length_append] at hlen
    exact Nat.le_trans (Nat.le_of_add_right_le hlen) (by decide)
  · have hno : (0 : UInt8) ∉ cwdText dir ++ slash :: grubCfg.bytes :=
      (Leads.snoc grubCfg (cwdText_leads dir)).zero_not_mem
    refine .putFile data ⟨ofArray_bytes hno, cwdText_leads dir, ?_⟩
    rw [ofArray_bytes hno, List.length_append, List.length_cons, hgrub.2]
    omega

/-- A list whose elements are in order but not related has no two. -/
theorem length_le_one {α : Type} {r : α → α → Prop} {l : List α} (h : l.Pairwise r)
    (hno : ∀ a ∈ l, ∀ b ∈ l, ¬ r a b) : l.length ≤ 1 := by
  cases h with
  | nil => exact Nat.zero_le _
  | @cons a l ha _ =>
    cases l with
    | nil => exact Nat.le_refl _
    | cons b l => exact absurd (ha b (by simp)) (hno a (by simp) b (by simp))

/-- No directory gets more than five entries. -/
theorem makes_room (p : List Bytes) :
    (((makes v dir data).map keyed).filter (·.dir = p)).length ≤ 5 := by
  have hcwd : (((cwdMakes [pathText [efi], pathText [efi, v]] [] dir).map keyed).filter
      (·.dir = p)).length ≤ 1 := by
    rw [List.filter_map, List.length_map]
    refine length_le_one ((pairwise_steps.filter _).filter _) fun a ha b hb => ?_
    have ha' := of_decide_eq_true (List.mem_filter.mp ha).2
    have hb' := of_decide_eq_true (List.mem_filter.mp hb).2
    have hlen := congrArg List.length (ha'.trans hb'.symm)
    simp only [keyed, keys, List.length_map] at hlen
    simp only [Make.path, List.length_append, List.length_singleton]
    omega
  have hvendor : ((vendorMakes v data).filter (·.dir = p)).length ≤ 3 :=
    List.length_filter_le _ _
  have hlast : ([⟨keys dir, grubCfg.key, some data⟩].filter
      fun m : Make Bytes Bytes => decide (m.dir = p)).length ≤ 1 := List.length_filter_le _ _
  rw [makes_keyed, List.filter_append, List.filter_append, List.length_append, List.length_append]
  omega

theorem mem_ways {a b : List ShortName} : keys (a ++ [d]) ∈ ways (a ++ d :: b) := by
  refine List.mem_map.mpr ⟨a.length, ?_, ?_⟩
  · rw [List.mem_range, List.length_append, List.length_cons]
    omega
  · rw [List.append_cons, List.take_left' (by rw [List.length_append, List.length_singleton])]

/-- Every directory that is made is one on the way. -/
theorem mem_ways_of_makes {x : Make Bytes Bytes} (hx : x ∈ (makes v dir data).map keyed)
    (hnone : x.content = none) : x.path ∈ ways [efi, v] ++ ways dir := by
  rw [makes_keyed, List.mem_append, List.mem_append, List.mem_singleton] at hx
  rcases hx with (hx | hx) | rfl
  · refine List.mem_append_left _ ?_
    simp only [vendorMakes, List.mem_cons, List.not_mem_nil, or_false] at hx
    rcases hx with rfl | rfl | rfl
    · exact mem_ways (a := []) (d := efi) (b := [v])
    · exact mem_ways (a := [efi]) (d := v) (b := [])
    · cases hnone
  · obtain ⟨m, hm, rfl⟩ := List.mem_map.mp hx
    obtain ⟨⟨a, d, b, rfl, rfl⟩, -⟩ := mem_cwdMakes.mp hm
    rw [keyed_path]
    exact List.mem_append_right _ mem_ways
  · cases hnone

/-- What a part of the script takes, in directories and in files. -/
theorem used_eq (h : ∀ x ∈ t, x.content = none ∨ x.content = some data) :
    used vfat t = (t.filter (·.content = none)).length +
      (t.filter (·.content ≠ none)).length * clusterCount vfat data := by
  induction t with
  | nil => simp [used]
  | cons x t ih =>
    have hcons : used vfat (x :: t) = cost vfat x + used vfat t := by
      rw [used, List.map_cons, List.sum_cons, used]
    rw [hcons, ih fun y hy => h y (List.mem_cons_of_mem _ hy), List.filter_cons, List.filter_cons]
    rcases h x List.mem_cons_self with hx | hx
    · rw [if_pos (by simp [hx]), if_neg (by simp [hx]), List.length_cons, cost, hx]
      dsimp only
      omega
    · rw [if_neg (by simp [hx]), if_pos (by simp [hx]), List.length_cons, cost, hx, Nat.succ_mul]
      dsimp only
      omega

/-- As long as no path is used twice there are clusters. -/
theorem makes_free (henough : Enough vfat [v] dir data) {s : List (Make Bytes Bytes)}
    (hs : s <+: (makes v dir data).map keyed) (hnd : (paths s).Nodup) :
    used vfat s ≤ vfat.countOfClusters := by
  have hkind : ∀ x ∈ (makes v dir data).map keyed, x.content = none ∨ x.content = some data := by
    intro x hx
    rw [makes_keyed, List.mem_append, List.mem_append, List.mem_singleton] at hx
    rcases hx with (hx | hx) | rfl
    · simp only [vendorMakes, List.mem_cons, List.not_mem_nil, or_false] at hx
      rcases hx with rfl | rfl | rfl
      · exact .inl rfl
      · exact .inl rfl
      · exact .inr rfl
    · obtain ⟨m, hm, rfl⟩ := List.mem_map.mp hx
      obtain ⟨⟨a, d, b, -, rfl⟩, -⟩ := mem_cwdMakes.mp hm
      exact .inl rfl
    · exact .inr rfl
  have hfiles : (s.filter (·.content ≠ none)).length ≤ 2 := by
    refine Nat.le_trans (hs.sublist.filter _).length_le ?_
    have hcwd : ((cwdMakes [pathText [efi], pathText [efi, v]] [] dir).map keyed).filter
        (·.content ≠ none) = [] := by
      rw [List.filter_eq_nil_iff]
      intro x hx
      obtain ⟨m, hm, rfl⟩ := List.mem_map.mp hx
      obtain ⟨⟨a, d, b, -, rfl⟩, -⟩ := mem_cwdMakes.mp hm
      simp [keyed]
    rw [makes_keyed, List.filter_append, List.filter_append, hcwd, List.append_nil]
    exact Nat.le_refl 2
  have hdirs : (s.filter (·.content = none)).length ≤ (ways [efi, v] ++ ways dir).dedup.length := by
    have hsub : paths (s.filter (·.content = none)) ⊆ (ways [efi, v] ++ ways dir).dedup := by
      intro p hp
      obtain ⟨x, hx, rfl⟩ := mem_paths.mp hp
      obtain ⟨hx, hnone⟩ := List.mem_filter.mp hx
      exact List.mem_dedup.mpr
        (mem_ways_of_makes (hs.subset hx) (of_decide_eq_true hnone))
    have hnodup : (paths (s.filter (·.content = none))).Nodup :=
      hnd.sublist (List.filter_sublist.map _)
    have hle := (hnodup.subperm hsub).length_le
    rwa [paths, List.length_map] at hle
  rw [used_eq fun x hx => hkind x (hs.subset hx)]
  refine Nat.le_trans (Nat.add_le_add hdirs (Nat.mul_le_mul_right _ hfiles)) henough

/-- The run meets directories that are there, room in them, and clusters. -/
theorem makes_possible (hdepth : dir.length ≤ 30) (henough : Enough vfat [v] dir data) :
    Possible vfat [] (makes v dir data) where
  based := makes_based
  deep m hm := by
    rw [makes, List.mem_append, List.mem_append, List.mem_singleton] at hm
    rcases hm with (hm | hm) | rfl
    · simp only [List.mem_cons, List.not_mem_nil, or_false] at hm
      rcases hm with rfl | rfl | rfl
      · exact Nat.zero_le 30
      · exact (by decide : 1 ≤ 30)
      · exact (by decide : 2 ≤ 30)
    · obtain ⟨⟨a, d, b, rfl, rfl⟩, -⟩ := mem_cwdMakes.mp hm
      rw [List.length_append] at hdepth
      exact Nat.le_of_add_right_le hdepth
    · exact hdepth
  room p := by
    rw [List.nil_append]
    exact Nat.le_trans (makes_room p) (by decide)
  free s hs hnd := makes_free henough hs hnd

end Script

/-! ## When grub.cfg is placed -/

section Law

variable {uninit : Nat → UInt8} {vfat vfat' : VFAT} {vendor dir rest : List ShortName}
  {v w : ShortName} {file : List UInt16} {data grubcfg : Bytes} {path : CStr}

theorem fresh_shows (h : Fresh vfat) : Shows vfat [] := by
  have hm := rootEntries_pos h.laid
  refine ⟨[], rfl, h.laid, grown_nil, ?_, Nat.lt_of_lt_of_le (by decide) hm,
    fun n hn => (by cases hn), List.nodup_nil, fun c hc _ => h.free c hc⟩
  rw [h.root]
  rfl

/-- A path that is too long for the buffer. -/
theorem addCwdGrubcfg_long (hfile : 92 ∉ file) (hlen : ¬ (pathText dir).length ≤ 246)
    {skiplist : List Bytes} (s : VFAT) :
    (addCwdGrubcfg uninit skiplist slash (programPath dir file) data).run s = .err .failed s := by
  have hne : dir ≠ [] := by
    rintro rfl
    exact hlen (by decide)
  have hcwd : (cwdText dir).length = (pathText dir).length := by rw [cwdText, if_neg hne]
  unfold addCwdGrubcfg
  rw [dirname_programPath hfile]
  dsimp only
  rw [length_dirname, if_pos (by omega)]
  rfl

/-- A creation step that succeeds has succeeded in all its parts. -/
theorem mapEFIVFAT_ok {vendorDir lsvmloadPath : List UInt16}
    (h : (mapEFIVFAT uninit vendorDir lsvmloadPath data).run vfat = .ok () vfat') :
    ∃ s₁ s₂ s₃, (vfatMkdir uninit (ofArray (text "/EFI"))).run vfat = .ok () s₁ ∧
      (vfatMkdir uninit (ofArray (vendorPath vendorDir))).run s₁ = .ok () s₂ ∧
      (addCwdGrubcfg uninit [text "/EFI", vendorPath vendorDir] slash lsvmloadPath data).run s₃ =
        .ok () vfat' := by
  rw [mapEFIVFAT] at h
  obtain ⟨_, s₁, h1, h⟩ := Prog.bind_eq_ok.mp h
  obtain ⟨_, s₂, h2, h⟩ := Prog.bind_eq_ok.mp h
  obtain ⟨_, s₃, -, h⟩ := Prog.bind_eq_ok.mp h
  exact ⟨s₁, s₂, s₃, h1, h2, h⟩

/-- For a vendor directory right below `/EFI`. -/
theorem placed_single (h : Fresh vfat) (hfile : 92 ∉ file)
    (henough : Enough vfat [v] dir (patched grubcfg)) :
    Placed uninit vfat [v] dir file grubcfg ↔ GoTogether v dir := by
  have hgrub : grubCfg.bytes.length = 8 ∧ grubCfgUpper.bytes.length = 8 := by decide
  by_cases hlen : (pathText dir).length ≤ 246
  · have hp : PathTo (pathOf (dir ++ [grubCfg])) (pathText dir) dir grubCfg := by
      refine pathOf_pathTo ?_
      rw [pathText_snoc, List.length_append, List.length_cons, hgrub.1]
      omega
    by_cases hdepth : dir.length ≤ 30
    · have hrun := fun s => mapEFIVFAT_run uninit (v := v) (patched grubcfg)
        hfile (cwdText_length hlen) s
      obtain ⟨hok, herr⟩ := runCalls_ends uninit (fresh_shows h) (calls_names hlen)
        (makes_possible hdepth henough)
      rw [List.nil_append, ← goTogether_iff hdepth hlen] at hok herr
      constructor
      · rintro ⟨vfat', hmap, -⟩
        by_contra hno
        obtain ⟨e, s, hrun'⟩ := herr hno
        rw [hrun, hrun'] at hmap
        cases hmap
      · intro hgo
        obtain ⟨u, vfat', hrun', hshows⟩ := hok hgo
        have hv := length_pathText_efi v
        have hpv : PathTo (pathOf ([efi, v] ++ [grubCfgUpper])) (pathText [efi, v]) [efi, v]
            grubCfgUpper := by
          refine pathOf_pathTo ?_
          rw [pathText_snoc, List.length_append, List.length_cons, hgrub.2]
          omega
        refine ⟨vfat', by rw [hrun, hrun'], ?_, ?_⟩
        · refine shows_get (x := ⟨[efi.key, v.key], grubCfg.key, some (patched grubcfg)⟩) hshows ?_
            hpv (by decide : 2 + 1 ≤ 31) ?_ rfl
          · rw [makes_keyed]
            exact List.mem_append_left _ (List.mem_append_left _ (by simp [vendorMakes]))
          · rw [grub_key]
            rfl
        · refine shows_get (x := ⟨keys dir, grubCfg.key, some (patched grubcfg)⟩) hshows ?_ hp
            (Nat.succ_le_succ hdepth) rfl rfl
          rw [makes_keyed]
          exact List.mem_append_right _ (List.mem_singleton.mpr rfl)
    · -- a path that deep is not looked up any more
      refine ⟨?_, fun hgo => absurd hgo.depth hdepth⟩
      rintro ⟨vfat', -, -, hget⟩
      rw [vfatGetFile_deep hp (Nat.lt_of_not_le hdepth)] at hget
      cases hget
  · refine ⟨?_, fun hgo => absurd hgo.length hlen⟩
    rintro ⟨vfat', hmap, -⟩
    obtain ⟨s₁, s₂, s₃, -, -, hadd⟩ := mapEFIVFAT_ok hmap
    rw [addCwdGrubcfg_long hfile hlen] at hadd
    cases hadd

/-- The first directory is made. -/
theorem efi_made (h : Fresh vfat) (henough : Enough vfat vendor dir data)
    (hrun : (vfatMkdir uninit (ofArray (text "/EFI"))).run vfat = .ok () vfat') :
    Shows vfat' [⟨[], efi.key, none⟩] := by
  have hpos : 0 < (ways (efi :: vendor) ++ ways dir).dedup.length := by
    refine List.length_pos_of_mem (a := keys ([] ++ [efi])) (List.mem_dedup.mpr ?_)
    exact List.mem_append_left _ (mem_ways (a := []) (d := efi) (b := vendor))
  unfold Enough at henough
  have hp : PathTo (pathOf ([] ++ [efi])) (pathText []) [] efi :=
    pathOf_pathTo (by decide : (pathText [efi]).length ≤ 255)
  have hfree : used vfat ([] ++ [keyed ⟨[], efi, none⟩]) ≤ vfat.countOfClusters := by
    have hone : used vfat ([] ++ [keyed ⟨[], efi, none⟩]) = 1 := rfl
    rw [hone]
    omega
  have hmade := call_makes uninit (fresh_shows h) (.mkdir hp) (Nat.zero_le 30)
    (.inl rfl) (Nat.zero_le 12) List.not_mem_nil hfree
  rw [text_efi] at hrun
  exact (hmade.of_ok hrun).2

/-- Below a directory that is not there. -/
theorem stat_nested (h : Shows vfat [⟨[], efi.key, none⟩]) {r : Bytes}
    (hr : r = [] ∨ r.head? = some slash) (hbytes : path.bytes = pathText [efi, v] ++ r)
    (hlen : path.bytes.length ≤ 255) : Vfat.Lookup.vfatStatFile vfat path = .err .failed := by
  obtain ⟨ns, hns, hrep⟩ := h
  have hno : ∀ n ∈ ns, n.path ≠ keys [efi] ++ [v.key] := by
    intro n hn hpath
    have hm : n.make ∈ [(⟨[], efi.key, none⟩ : Make Bytes Bytes)] := hns ▸ List.mem_map_of_mem hn
    have hpath' : n.make.path = [efi.key] ++ [v.key] := hpath
    rw [List.mem_singleton.mp hm] at hpath'
    have hlen' := congrArg List.length hpath'
    simp [Make.path] at hlen'
  have hdir : IsDir (ns.map Node.make) (keys [efi]) := by
    rw [hns]
    exact .inr ⟨_, List.mem_singleton.mpr rfl, rfl, rfl⟩
  obtain ⟨more, hmore⟩ : ∃ more, strtok (pathText [efi, v] ++ r) =
      [efi].map ShortName.bytes ++ v.bytes :: more := by
    rcases hr with rfl | hr
    · refine ⟨[], ?_⟩
      rw [List.append_nil, (pathText_leads _).strtok]
      rfl
    · obtain ⟨m, rfl⟩ := List.head?_eq_some_iff.mp hr
      refine ⟨strtok m, ?_⟩
      rw [strtok_append_cons, (pathText_leads _).strtok]
      rfl
  have helements : Vfat.Lookup.elements path = [efi].map ShortName.bytes ++ v.bytes :: more := by
    rw [Vfat.Lookup.elements, strlcpy, List.take_of_length_le hlen, hbytes, hmore]
  have hhead : path.bytes.head? = some slash := by
    rw [hbytes]
    rfl
  rw [Vfat.Lookup.vfatStatFile, if_neg (not_not.mpr hhead), helements, hrep.lookup_missing hdir hno,
    ite_self]

theorem length_afterLastSlash_le (p q : Bytes) :
    (afterLastSlash (p ++ slash :: q)).length ≤ q.length := by
  rw [afterLastSlash, List.length_reverse, List.reverse_append, List.reverse_cons,
    List.append_assoc, List.takeWhile_append]
  split
  · rw [List.singleton_append, List.takeWhile_cons, if_neg (by simp), List.append_nil,
      List.length_reverse]
  · exact Nat.le_trans (List.takeWhile_sublist _).length_le (Nat.le_of_eq List.length_reverse)

/-- The directory part of a path below such a directory. -/
theorem getDirName_nested {r : Bytes} (hbytes : path.bytes = pathText [efi, v] ++ slash :: r)
    (hlen : path.bytes.length ≤ 255) : ∃ dirname m, getDirName path = some dirname ∧
      (m = [] ∨ m.head? = some slash) ∧ dirname.bytes = pathText [efi, v] ++ m := by
  have hbuf : strlcpy path.bytes 256 = pathText [efi, v] ++ slash :: r := by
    rw [strlcpy, List.take_of_length_le hlen, hbytes]
  have hlast := length_afterLastSlash_le (pathText [efi, v]) r
  have hpos : 0 < (pathText [efi, v]).length := by
    rw [pathText, List.flatMap_cons, List.length_append, List.length_cons]
    omega
  have hmem : slash ∈ strlcpy path.bytes 256 := by
    rw [hbuf]
    exact List.mem_append_right _ List.mem_cons_self
  have hn : (pathText [efi, v]).length ≤ (strlcpy path.bytes 256).length -
      (afterLastSlash (strlcpy path.bytes 256)).length - 1 := by
    rw [hbuf, List.length_append, List.length_cons]
    omega
  rw [getDirName]
  dsimp only
  rw [if_pos hmem]
  refine ⟨_, (slash :: r).take ((strlcpy path.bytes 256).length -
    (afterLastSlash (strlcpy path.bytes 256)).length - 1 - (pathText [efi, v]).length), rfl, ?_, ?_⟩
  · generalize (strlcpy path.bytes 256).length - (afterLastSlash (strlcpy path.bytes 256)).length -
      1 - (pathText [efi, v]).length = k
    cases k with
    | zero => exact .inl rfl
    | succ k => exact .inr rfl
  · dsimp only
    rw [if_neg (by omega)]
    rw [hbuf] at hn ⊢
    rw [List.take_append, List.take_of_length_le hn]

/-- Nothing is made below a directory that is not there. -/
theorem prepare_nested (h : Shows vfat [⟨[], efi.key, none⟩]) {r : Bytes}
    (hbytes : path.bytes = pathText [efi, v] ++ slash :: r) (hlen : path.bytes.length ≤ 255) :
    prepare vfat path = .err .failed := by
  obtain ⟨dirname, m, hdirname, hm, hdir⟩ := getDirName_nested hbytes hlen
  have hsub : dirname.bytes.length ≤ 255 := by
    rw [getDirName] at hdirname
    dsimp only at hdirname
    split at hdirname
    · injection hdirname with he
      rw [← he]
      refine Nat.le_trans (List.length_take_le' _ _) ?_
      rw [strlcpy]
      exact List.length_take_le _ _
    · cases hdirname
  have hroot : dirname.bytes ≠ [slash] := by
    intro he
    have hlen' := congrArg List.length (hdir.symm.trans he)
    have hefi : efi.bytes.length = 3 := by decide
    rw [pathText, List.flatMap_cons, List.length_append, List.length_append, List.length_cons,
      hefi, List.length_singleton] at hlen'
    omega
  have hload : loadDir vfat dirname = .err .failed := by
    rw [loadDir, if_neg hroot, stat_nested h hm hdir hsub, Out.err_bind]
  have hhead : path.bytes.head? = some slash := by
    rw [hbytes]
    rfl
  rw [prepare, stat_nested h (.inr rfl) hbytes hlen]
  dsimp only
  rw [if_neg (not_not.mpr hhead), hdirname]
  cases getBaseName path with
  | none => rfl
  | some b =>
    dsimp only
    rw [hload, Out.err_bind]

theorem vfatMkdir_err (h : prepare vfat path = .err .failed) :
    (vfatMkdir uninit path).run vfat = .err .failed vfat := by
  rw [vfatMkdir, Prog.get_bind, putFile,
    Prog.bind_err (Prog.read_err (f := fun vfat => prepare vfat path) h)]

/-- The name `/EFI/` is taken. -/
theorem mkdir_unnamed (h : Shows vfat [⟨[], efi.key, none⟩]) :
    (vfatMkdir uninit (ofArray (vendorPath (vendorDir [])))).run vfat = .err .failed vfat := by
  obtain ⟨ns, hns, hrep⟩ := h
  obtain ⟨n, hn, hmake⟩ : ∃ n ∈ ns, n.make = ⟨[], efi.key, none⟩ := by
    have hm : (⟨[], efi.key, none⟩ : Make Bytes Bytes) ∈ ns.map Node.make :=
      hns ▸ List.mem_singleton.mpr rfl
    exact List.mem_map.mp hm
  have hpath : n.path = keys [] ++ [efi.key] := by
    rw [Node.path, hmake]
    rfl
  have helements : Vfat.Lookup.elements (ofArray (vendorPath (vendorDir []))) =
      [].map ShortName.bytes ++ [efi.bytes] := by decide
  have hhead : (ofArray (vendorPath (vendorDir []))).bytes.head? = some slash := by decide
  refine vfatMkdir_err ?_
  rw [prepare, Vfat.Lookup.vfatStatFile, if_neg (not_not.mpr hhead), helements,
    hrep.lookup_found hn hpath]
  rfl

/-- A vendor directory in a directory that is not made. -/
theorem mkdir_nested (h : Shows vfat [⟨[], efi.key, none⟩]) :
    (vfatMkdir uninit (ofArray (vendorPath (vendorDir (v :: w :: rest))))).run vfat =
      .err .failed vfat := by
  have hv := length_pathText_efi v
  have hall : pathText (efi :: v :: w :: rest) =
      pathText [efi, v] ++ slash :: (w.bytes ++ pathText rest) := by
    rw [pathText, pathText, pathText, List.flatMap_cons, List.flatMap_cons, List.flatMap_cons,
      List.flatMap_cons, List.flatMap_singleton, List.append_assoc]
    rfl
  have htake : vendorPath (vendorDir (v :: w :: rest)) = pathText [efi, v] ++
      slash :: (w.bytes ++ pathText rest).take (254 - (pathText [efi, v]).length) := by
    rw [vendorPath_eq, hall, List.take_append, List.take_of_length_le (by omega),
      ← List.take_succ_cons]
    congr 2
    omega
  have hno : (0 : UInt8) ∉ vendorPath (vendorDir (v :: w :: rest)) := by
    rw [vendorPath_eq]
    exact fun hmem => pathText_noNul _ (List.mem_of_mem_take hmem)
  have hbytes := ofArray_bytes hno
  refine vfatMkdir_err (prepare_nested h (hbytes.trans htake) ?_)
  rw [hbytes, vendorPath_eq]
  exact List.length_take_le _ _

/-- The patched grub.cfg is placed exactly for a vendor directory right below `/EFI` and a
directory of lsvmload that goes together with it. -/
theorem placed_iff (h : Fresh vfat) (hfile : 92 ∉ file)
    (henough : Enough vfat vendor dir (patched grubcfg)) :
    Placed uninit vfat vendor dir file grubcfg ↔ ∃ v, vendor = [v] ∧ GoTogether v dir := by
  have hfails : (∀ s, Shows s [⟨[], efi.key, none⟩] →
      (vfatMkdir uninit (ofArray (vendorPath (vendorDir vendor)))).run s = .err .failed s) →
        ¬ Placed uninit vfat vendor dir file grubcfg := by
    rintro hmkdir ⟨vfat', hmap, -⟩
    obtain ⟨s₁, s₂, -, hefi, hvendor, -⟩ := mapEFIVFAT_ok hmap
    rw [hmkdir s₁ (efi_made h henough hefi)] at hvendor
    cases hvendor
  rcases vendor with _ | ⟨v, _ | ⟨w, rest⟩⟩
  · refine iff_of_false (hfails fun s hs => mkdir_unnamed hs) ?_
    rintro ⟨v, hv, -⟩
    cases hv
  · rw [placed_single h hfile henough]
    constructor
    · exact fun hgo => ⟨v, rfl, hgo⟩
    · rintro ⟨v', hv, hgo⟩
      rwa [List.singleton_inj.mp hv]
  · refine iff_of_false (hfails fun s hs => mkdir_nested hs) ?_
    rintro ⟨v, hv, -⟩
    cases hv

end Law

/-! ## A small volume -/

theorem smallBpb_sector : (smallBpb 23 1).bytsPerSec = 512 ∧ (smallBpb 23 1).secPerClus ≠ 0 := by
  decide

theorem smallBpb_fat12 : FATType.fat12 = (smallBpb 23 1).fatType := by decide +kernel

theorem length_fat20 : ([0xF8, 0xFF, 0xFF] ++ List.replicate 509 0 : Bytes).length < 2 ^ 32 := by
  rw [List.length_append, List.length_replicate]
  decide

/-- An empty volume with twenty clusters. -/
def small20 : VFAT where
  bpb := smallBpb 23 1
  bytsPerSec_eq := smallBpb_sector.1
  secPerClus_ne := smallBpb_sector.2
  fatType := .fat12
  fatType_eq := smallBpb_fat12
  dev := zeroDevice 23
  fat := ⟨[0xF8, 0xFF, 0xFF] ++ List.replicate 509 0, length_fat20⟩
  rootdir := List.replicate 512 0

theorem length_ubuntu : 0 < (text "ubuntu").length ∧ (text "ubuntu").length ≤ 8 := by
  decide

theorem chars_ubuntu : ∀ c ∈ text "ubuntu" ++ [], isShortChar c = true := by decide +kernel

def ubuntu : ShortName :=
  ⟨text "ubuntu", [], length_ubuntu.1, length_ubuntu.2, Nat.zero_le 3, chars_ubuntu⟩

theorem length_boot : 0 < (text "BOOT").length ∧ (text "BOOT").length ≤ 8 := by decide

theorem chars_boot : ∀ c ∈ text "BOOT" ++ [], isShortChar c = true := by decide +kernel

def boot : ShortName := ⟨text "BOOT", [], length_boot.1, length_boot.2, Nat.zero_le 3, chars_boot⟩

def lsvmloadEfi : List UInt16 := wide (text "lsvmload.efi")

theorem lsvmloadEfi_file : 92 ∉ lsvmloadEfi := by decide

theorem small20_fresh : Fresh small20 where
  laid := by
    refine ⟨rfl, by decide +kernel, by decide +kernel, by decide +kernel, by decide +kernel,
      by decide +kernel, fun i _ => rfl, fun i _ => rfl⟩
  root := by decide +kernel
  free c hc := by
    have hcount : small20.countOfClusters = 20 := by decide +kernel
    have hall : ∀ c, c < 22 → 2 ≤ c → Vfat.Volume.entryAt .fat12 small20.fat.data c = 0 := by
      decide +kernel
    exact hall c (by have := hc.2; omega) hc.1

/-- With lsvmload in `/EFI/BOOT` and a vendor directory `ubuntu`. -/
theorem placed_boot : Placed (fun _ => 0) small20 [ubuntu] [efi, boot] lsvmloadEfi
    (text "linux /vmlinuz root=/dev/sda1\n") := by
  refine (placed_iff small20_fresh lsvmloadEfi_file (by decide +kernel)).mpr ⟨ubuntu, rfl, ?_⟩
  refine ⟨by decide, by decide +kernel, ?_, ?_, by decide +kernel, ?_, by decide +kernel⟩
  · rintro d rest h -
    injection h with hd
    rw [← hd]
  · rintro d e rest h - he
    injection h with _ h
    injection h with hb
    rw [← hb] at he
    exact absurd he (by decide +kernel)
  · rintro d e f rest h
    simp at h

/-- With lsvmload in the vendor directory the second grub.cfg meets the first. -/
theorem vendor_directory_taken : Fresh small20 ∧ 92 ∉ lsvmloadEfi ∧
    Enough small20 [ubuntu] [efi, ubuntu] (patched (text "linux /vmlinuz root=/dev/sda1\n")) ∧
    ¬ Placed (fun _ => 0) small20 [ubuntu] [efi, ubuntu] lsvmloadEfi
      (text "linux /vmlinuz root=/dev/sda1\n") := by
  have henough : Enough small20 [ubuntu] [efi, ubuntu]
      (patched (text "linux /vmlinuz root=/dev/sda1\n")) := by decide +kernel
  refine ⟨small20_fresh, lsvmloadEfi_file, henough, fun h => ?_⟩
  exact ((placed_single small20_fresh lsvmloadEfi_file henough).mp h).apart rfl

end LsvmTools.EfiVfat
