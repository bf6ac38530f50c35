import LsvmTools.EfiVfat
import LsvmTools.Lib.Simulation

/-! # A volume as a store of files

Calls on a volume, each on what the call before has left, also where it has failed. A name that is
there is not written again and nothing is made where there is no directory; what has been made is
read as it was put. -/
namespace LsvmTools.Vfat.Store
open Lib.ByteString Lib.Program Lib.FileTree Lib.Simulation Strings Volume Entries Alloc Walk Files
open Shortname Lookup Put Layout Nodes Write Create EfiVfat

/-! ## The calls -/

/-- A path with the names that it is made of. -/
structure Target where
  path : CStr
  pre : Bytes
  dir : List ShortName
  name : ShortName
  leads : PathTo path pre dir name
  deep : dir.length ≤ 30

namespace Target

variable (p : Target)

def parent : List Bytes := keys p.dir

def key : List Bytes := p.parent ++ [p.name.key]

end Target

inductive Request where
  | putFile (p : Target) (data : Bytes)
  | mkdir (p : Target)
  | getFile (p : Target)
  | statFile (p : Target)

def Request.target : Request → Target
  | putFile p _ | mkdir p | getFile p | statFile p => p

inductive Reply where
  | done
  | failed
  | data (d : Bytes)
  | entry (isDir : Bool) (size : Nat)
deriving DecidableEq

/-- What a call that changes the volume returns and leaves. -/
def changed (m : Prog VFAT Fail Unit) (vfat : VFAT) : Option (Reply × VFAT) :=
  match m.run vfat with
  | .ok () vfat' => some (.done, vfat')
  | .err _ vfat' => some (.failed, vfat')
  | .stuck => none

/-- What a call that reads the volume returns. -/
def told {α : Type} (x : Out Fail α) (reply : α → Reply) (vfat : VFAT) : Option (Reply × VFAT) :=
  match x with
  | .ok a => some (reply a, vfat)
  | .err _ => some (.failed, vfat)
  | .stuck => none

/-- What the bytes of a new entry were before. -/
def Request.answer (uninit : Nat → UInt8) (vfat : VFAT) : Request → Option (Reply × VFAT)
  | putFile p data => changed (vfatPutFile uninit p.path data) vfat
  | mkdir p => changed (vfatMkdir uninit p.path) vfat
  | getFile p => told (vfatGetFile vfat p.path) .data vfat
  | statFile p =>
    told (vfatStatFile vfat p.path) (fun e => .entry (isDirectory e) e.fileSize) vfat

def Does (uninit : Nat → UInt8) (req : Request) (vfat : VFAT) (reply : Reply) (vfat' : VFAT) :
    Prop := req.answer uninit vfat = some (reply, vfat')

/-! ## What they are for -/

abbrev Tree : Type := List (Make Bytes Bytes)

def at? (p : List Bytes) (t : Tree) : Option (Make Bytes Bytes) := t.find? (·.path = p)

def isDir (p : List Bytes) (t : Tree) : Bool := p = [] || (at? p t).any (·.content.isNone)

/-- A directory, or a file with its content, where there is a directory for it and its name is not
taken. -/
def make (p : Target) (content : Option Bytes) (t : Tree) : Reply × Tree :=
  if isDir p.parent t && (at? p.key t).isNone then (.done, t ++ [⟨p.parent, p.name.key, content⟩])
  else (.failed, t)

def size (m : Make Bytes Bytes) : Nat := (m.content.getD []).length

def Request.apply : Request → Tree → Reply × Tree
  | putFile p data, t => make p (some data) t
  | mkdir p, t => make p none t
  | getFile p, t => (((at? p.key t).bind (·.content)).elim .failed .data, t)
  | statFile p, t => ((at? p.key t).elim .failed fun m => .entry m.content.isNone (size m), t)

/-- There is room for what is made. -/
structure Fits (vfat : VFAT) (t : Tree) (p : Target) (content : Option Bytes) : Prop where
  room : (t.filter (·.dir = p.parent)).length ≤ 12
  free : used vfat (t ++ [⟨p.parent, p.name.key, content⟩]) ≤ vfat.countOfClusters

/-- No file is on the way to a directory. -/
def Clear (t : Tree) (p : List Bytes) : Prop := ∀ x ∈ t, x.path <+: p → x.content = none

instance (t : Tree) (p : List Bytes) : Decidable (Clear t p) :=
  inferInstanceAs (Decidable (∀ x ∈ t, x.path <+: p → x.content = none))

/-- No file is taken for a directory, no directory is read as a file, and where something is made
there is room for it. -/
def May (vfat : VFAT) (req : Request) (t : Tree) : Prop :=
  Clear t req.target.parent ∧ match req with
    | .putFile p data => (make p (some data) t).1 = .done → Fits vfat t p (some data)
    | .mkdir p => (make p none t).1 = .done → Fits vfat t p none
    | .getFile p => ∀ x ∈ t, x.path = p.key → x.content ≠ none
    | .statFile _ => True

/-! ## The tree -/

section Tree

variable {vfat : VFAT} {t : Tree} {x : Make Bytes Bytes} {p : List Bytes} {q : Target}

theorem at?_eq_none : at? p t = none ↔ p ∉ paths t := by
  rw [at?, List.find?_eq_none, mem_paths]
  simp

theorem at?_eq_some (hg : Grown t) : at? p t = some x ↔ x ∈ t ∧ x.path = p := by
  constructor
  · intro h
    have hp := List.find?_some h
    exact ⟨List.mem_of_find?_eq_some h, of_decide_eq_true hp⟩
  · rintro ⟨hx, hp⟩
    cases hat : at? p t with
    | none => exact absurd (mem_paths.mpr ⟨x, hx, hp⟩) (at?_eq_none.mp hat)
    | some y =>
      have hy := List.find?_some hat
      rw [hg.unique (List.mem_of_find?_eq_some hat) hx ((of_decide_eq_true hy).trans hp.symm)]

theorem isDir_iff (hg : Grown t) : isDir p t = true ↔ IsDir t p := by
  rw [isDir, Bool.or_eq_true, decide_eq_true_iff, Option.any_eq_true]
  refine or_congr_right (exists_congr fun x => ?_)
  rw [at?_eq_some hg, Option.isNone_iff_eq_none, and_assoc]

theorem Shows.grown (h : Shows vfat t) : Grown t := by
  obtain ⟨ns, rfl, hrep⟩ := h
  exact hrep.grown

/-- The way to a directory that is not there ends at a name that is not there. -/
theorem orphan_split (hclear : Clear t q.parent) (hno : ¬ IsDir t q.parent) : ∃ names b rest, q.dir = names ++ b :: rest ∧
      IsDir t (keys names) ∧ keys names ++ [b.key] ∉ paths t := by
  obtain ⟨p, k, r, hsplit, hdir, hmissing⟩ := exists_missing hno
  obtain ⟨names, more, hnames, rfl, hmore⟩ := List.map_eq_append_iff.mp hsplit
  obtain ⟨b, rest, rfl, rfl, rfl⟩ := List.map_eq_cons_iff.mp hmore
  refine ⟨names, b, rest, hnames, hdir, fun hmem => ?_⟩
  obtain ⟨x, hx, hpath⟩ := mem_paths.mp hmem
  refine hmissing (.inr ⟨x, hx, hpath, hclear x hx ?_⟩)
  rw [hpath, hsplit]
  exact ⟨keys rest, by rw [List.append_assoc]; rfl⟩

/-- The same for any name that is not there. -/
theorem missing_split (hclear : Clear t q.parent) (hno : q.key ∉ paths t) : ∃ names b rest, q.dir ++ [q.name] = names ++ b :: rest ∧
      IsDir t (keys names) ∧ keys names ++ [b.key] ∉ paths t := by
  by_cases hdir : IsDir t q.parent
  · exact ⟨q.dir, q.name, [], rfl, hdir, hno⟩
  · obtain ⟨names, b, rest, hsplit, hrest⟩ := orphan_split hclear hdir
    exact ⟨names, b, rest ++ [q.name], by rw [hsplit, List.append_assoc, List.cons_append], hrest⟩

end Tree

/-! ## Each call -/

section Calls

variable {uninit : Nat → UInt8} {vfat vfat' : VFAT} {t : Tree} {q : Target}
  {content : Option Bytes} {reqs : List Request}

theorem changed_ok {m : Prog VFAT Fail Unit} (h : m.run vfat = .ok () vfat') :
    changed m vfat = some (.done, vfat') := by
  rw [changed, h]

theorem changed_err {m : Prog VFAT Fail Unit} {e : Fail} (h : m.run vfat = .err e vfat') :
    changed m vfat = some (.failed, vfat') := by
  rw [changed, h]

/-- The call that makes a directory or a file. -/
def callFor (q : Target) : Option Bytes → Call
  | none => .mkdir q.path
  | some data => .putFile q.path data

theorem callFor_names (q : Target) (content : Option Bytes) :
    Names (callFor q content) ⟨q.dir, q.name, content⟩ := by
  cases content with
  | none => exact .mkdir q.leads
  | some data => exact .putFile data q.leads

variable (uninit) in
theorem make_simulates (h : Shows vfat t)
    (hclear : Clear t q.parent)
    (hfits : (make q content t).1 = .done → Fits vfat t q content) :
    ∃ vfat', changed ((callFor q content).prog uninit) vfat =
        some ((make q content t).1, vfat') ∧
      vfat'.bpb = vfat.bpb ∧ Shows vfat' (make q content t).2 := by
  have hg := Shows.grown h
  by_cases htaken : q.key ∈ paths t
  · -- the name is taken
    have hat : (at? q.key t).isNone = false := by
      rw [Bool.eq_false_iff, Ne, Option.isNone_iff_eq_none, at?_eq_none]
      exact not_not.mpr htaken
    rw [make, hat, Bool.and_false, if_neg Bool.false_ne_true]
    exact ⟨vfat, changed_err (call_taken h (callFor_names q content) q.deep htaken), rfl, h⟩
  · have hat : (at? q.key t).isNone = true :=
      Option.isNone_iff_eq_none.mpr (at?_eq_none.mpr htaken)
    by_cases hdir : IsDir t q.parent
    · have hmake : make q content t = (.done, t ++ [⟨q.parent, q.name.key, content⟩]) := by
        rw [make, (isDir_iff hg).mpr hdir, hat, Bool.and_true, if_pos rfl]
      rw [hmake] at hfits ⊢
      obtain ⟨hroom, hfree⟩ := hfits rfl
      obtain ⟨u, vfat', hrun, hbpb, hshows⟩ :=
        call_makes uninit h (callFor_names q content) q.deep hdir hroom htaken hfree
      exact ⟨vfat', changed_ok hrun, hbpb, hshows⟩
    · -- there is no directory for it
      have hparent : isDir q.parent t = false := Bool.eq_false_iff.mpr (mt (isDir_iff hg).mp hdir)
      obtain ⟨names, b, rest, hsplit, hnames, hno⟩ := orphan_split hclear hdir
      obtain ⟨ns, rfl, hrep⟩ := h
      have hfail : ((callFor q content).prog uninit).run vfat = .err .failed vfat := by
        rw [prog_run]
        cases content with
        | none => exact putFile_orphan hrep q.leads hsplit hnames hno
        | some data => exact putFile_orphan hrep q.leads hsplit hnames hno
      rw [make, hparent, Bool.false_and, if_neg Bool.false_ne_true]
      exact ⟨vfat, changed_err hfail, rfl, ns, rfl, hrep⟩

/-- What is there is found, and nothing else. -/
theorem stat_eq {ns : List Node} (h : Represents vfat ns)
    (hclear : Clear (ns.map Node.make) q.parent) :
    vfatStatFile vfat q.path =
      Out.ofOption .failed ((ns.find? (·.path = q.key)).map (·.entry)) := by
  cases hfind : ns.find? (·.path = q.key) with
  | none =>
    have hno : q.key ∉ paths (ns.map Node.make) := by
      rintro hmem
      obtain ⟨x, hx, hpath⟩ := mem_paths.mp hmem
      obtain ⟨n, hn, rfl⟩ := List.mem_map.mp hx
      exact List.find?_eq_none.mp hfind n hn (decide_eq_true hpath)
    obtain ⟨names, b, rest, hsplit, hdir, hmissing⟩ := missing_split hclear hno
    exact h.stat_missing rest q.leads hsplit hdir fun n hn hpath =>
      hmissing (mem_paths.mpr ⟨n.make, Represents.mem_make hn, hpath⟩)
  | some n =>
    have hpath := List.find?_some hfind
    exact h.stat_found q.leads (Nat.succ_le_succ q.deep) (List.mem_of_find?_eq_some hfind)
      (of_decide_eq_true hpath)

theorem at?_make (p : List Bytes) (ns : List Node) :
    at? p (ns.map Node.make) = (ns.find? (·.path = p)).map Node.make := by
  rw [at?, List.find?_map]
  rfl

theorem told_stat (h : Shows vfat t)
    (hclear : Clear t q.parent) :
    (Request.statFile q).answer uninit vfat = some (((Request.statFile q).apply t).1, vfat) := by
  obtain ⟨ns, rfl, hrep⟩ := h
  rw [Request.answer, stat_eq hrep hclear, Request.apply, at?_make]
  cases hfind : ns.find? (·.path = q.key) with
  | none => rfl
  | some n =>
    have hs := hrep.stored n (List.mem_of_find?_eq_some hfind)
    have hentry : isDirectory n.entry = n.content.isNone ∧ n.entry.fileSize = size n.make := by
      cases hc : n.content with
      | none =>
        have hsize : size n.make = 0 := by rw [size, show n.make.content = none from hc]; rfl
        exact ⟨(hs.isDir hc).directory, (hs.isDir hc).size.trans hsize.symm⟩
      | some b =>
        have hsize : size n.make = b.length := by
          rw [size, show n.make.content = some b from hc]
          rfl
        exact ⟨(hs.isFile b hc).file, (hs.isFile b hc).size.trans hsize.symm⟩
    rw [Option.map_some, Option.map_some, Option.elim_some, Out.ofOption, told, hentry.1, hentry.2]
    rfl

theorem told_get (h : Shows vfat t) (hclear : Clear t q.parent)
    (hfile : ∀ x ∈ t, x.path = q.key → x.content ≠ none) :
    (Request.getFile q).answer uninit vfat = some (((Request.getFile q).apply t).1, vfat) := by
  obtain ⟨ns, rfl, hrep⟩ := h
  rw [Request.answer, Request.apply, at?_make]
  cases hfind : ns.find? (·.path = q.key) with
  | none =>
    rw [Nodes.vfatGetFile, stat_eq hrep hclear, hfind]
    rfl
  | some n =>
    have hn := List.mem_of_find?_eq_some hfind
    have hfound := List.find?_some hfind
    have hpath : n.path = q.key := of_decide_eq_true hfound
    obtain ⟨d, hd⟩ := Option.ne_none_iff_exists'.mp
      (hfile n.make (Represents.mem_make hn) hpath)
    rw [hrep.vfatGetFile q.leads (Nat.succ_le_succ q.deep) hn hpath hd, Option.map_some,
      Option.bind_some, hd, Option.elim_some]
    rfl

/-! ## Runs -/

/-- The volume has the same layout as at first and holds the tree. -/
def Holds (first vfat : VFAT) (t : Tree) : Prop := vfat.bpb = first.bpb ∧ Shows vfat t

theorem does_functional : Functional (Does uninit) := by
  intro req vfat vfat' u r r' h h'
  rw [Does, show req.answer uninit vfat = _ from h] at h'
  injection h' with h'
  exact Prod.mk.inj h'

theorem Fits.congr (hbpb : vfat'.bpb = vfat.bpb) (h : Fits vfat t q content) :
    Fits vfat' t q content := by
  refine ⟨h.room, ?_⟩
  rw [used, cost_congr hbpb, VFAT.countOfClusters, hbpb]
  exact h.free

/-- Each call does with the volume what it is for. -/
theorem does_simulates (first : VFAT) :
    Simulates (Does uninit) Request.apply (May first) (Holds first) := by
  rintro req vfat t ⟨hbpb, h⟩ ⟨hclear, hmay⟩
  cases req with
  | putFile q data =>
    obtain ⟨vfat', hrun, hbpb', hshows⟩ := make_simulates uninit h hclear
      fun hdone => (hmay hdone).congr hbpb
    exact ⟨vfat', hrun, hbpb'.trans hbpb, hshows⟩
  | mkdir q =>
    obtain ⟨vfat', hrun, hbpb', hshows⟩ := make_simulates uninit h hclear
      fun hdone => (hmay hdone).congr hbpb
    exact ⟨vfat', hrun, hbpb'.trans hbpb, hshows⟩
  | getFile q => exact ⟨vfat, told_get h hclear hmay, hbpb, h⟩
  | statFile q => exact ⟨vfat, told_stat h hclear, hbpb, h⟩

end Calls

/-! ## A run -/

/-- The directory `/EFI`. -/
def efiDir : Target :=
  ⟨pathOf ([] ++ [efi]), pathText [], [], efi,
    pathOf_pathTo (by decide : (pathText [efi]).length ≤ 255), Nat.zero_le 30⟩

/-- The file `/EFI/BOOT`. -/
def bootFile : Target :=
  ⟨pathOf ([efi] ++ [boot]), pathText [efi], [efi], boot,
    pathOf_pathTo (by decide : (pathText [efi, boot]).length ≤ 255), by decide⟩

/-- A file is put where there is no directory, in a new one, and again. -/
def bootRun : List Request :=
  [.putFile bootFile [1], .mkdir efiDir, .putFile bootFile [2], .putFile bootFile [3],
    .getFile bootFile, .statFile efiDir]

theorem small20_room : used small20 [⟨[], efi.key, none⟩, ⟨[efi.key], boot.key, some [2]⟩] ≤
    small20.countOfClusters := by decide +kernel

theorem bootRun_may : Allowed Request.apply (May small20) bootRun [] := by
  have hboot : (make bootFile (some [1]) []).1 = .failed := by decide
  have htaken : (make bootFile (some [3])
    [⟨[], efi.key, none⟩, ⟨[efi.key], boot.key, some [2]⟩]).1 = .failed := by decide
  refine ⟨⟨by decide, fun h => ?_⟩, ⟨by decide, fun _ => ⟨by decide, ?_⟩⟩,
    ⟨by decide, fun _ => ⟨by decide, small20_room⟩⟩, ⟨by decide, fun h => ?_⟩,
    ⟨by decide, by decide⟩, ⟨by decide, trivial⟩, trivial⟩
  · rw [hboot] at h
    cases h
  · exact Nat.le_trans (Nat.le_succ 1) small20_room
  · have h : (make bootFile (some [3])
      [⟨[], efi.key, none⟩, ⟨[efi.key], boot.key, some [2]⟩]).1 = .done := h
    rw [htaken] at h
    cases h

end LsvmTools.Vfat.Store
