import LsvmTools.Grub.Config

/-! # The default entry of a menu

What `_ResolveInitrd` finds in its one pass over the commands, for a menu of nested blocks: the
first entry, in the order of the text, whose place answers to the default value level by level. -/
namespace LsvmTools.Grub.DefaultEntry
open Lib.ByteString Lib.Program Strings Config

/-! ## Menus -/

/-- A menu as it is written: entries and submenus, with other commands between them. A block
comes with the commands that open and close it. -/
inductive Menu where
  | nil
  | other (cmd : GRUBCommand) (rest : Menu)
  | entry (cmd : GRUBCommand) (body : List GRUBCommand) (close : GRUBCommand) (rest : Menu)
  | submenu (cmd : GRUBCommand) (items : Menu) (close : GRUBCommand) (rest : Menu)

/-- The first word is `name`. -/
def Named (cmd : GRUBCommand) (name : Bytes) : Prop := cmd.argv.head? = some name

instance (cmd : GRUBCommand) (name : Bytes) : Decidable (Named cmd name) :=
  inferInstanceAs (Decidable (_ = _))

/-- The command neither opens a block nor, inside one, closes it. -/
structure Neutral (inside : Bool) (cmd : GRUBCommand) : Prop where
  words : cmd.argv ≠ []
  entry : ¬ Named cmd (text "menuentry")
  submenu : ¬ Named cmd (text "submenu")
  close : inside = true → ¬ Named cmd (text "\x7d")

instance (inside : Bool) (cmd : GRUBCommand) : Decidable (Neutral inside cmd) :=
  decidable_of_iff (cmd.argv ≠ [] ∧ ¬ Named cmd (text "menuentry") ∧ ¬ Named cmd (text "submenu") ∧
    (inside = true → ¬ Named cmd (text "\x7d")))
    ⟨fun h => ⟨h.1, h.2.1, h.2.2.1, h.2.2.2⟩, fun h => ⟨h.words, h.entry, h.submenu, h.close⟩⟩

/-- What `initrd` and `initrdefi` name, if the command is one of them with two words. -/
def initrdPath (cmd : GRUBCommand) : Option Bytes :=
  match cmd.argv with
  | [name, path] => if name = text "initrd" ∨ name = text "initrdefi" then some path else none
  | _ => none

/-- The last path that the commands of an entry name, after `path`. -/
def initrdAfter (path : Bytes) (body : List GRUBCommand) : Bytes :=
  body.foldl (fun path cmd => (initrdPath cmd).getD path) path

def title (cmd : GRUBCommand) : Bytes := cmd.argv[1]?.getD []

/-- The `i`th block of a level answers to a part of the default value: its number, its title or the
word in front of the brace is that part. Without a default value every block answers. -/
def answers (hasDefault : Bool) (i : Nat) (cmd : GRUBCommand) (name : Bytes) : Bool :=
  3 ≤ cmd.argv.length && (!hasDefault || (u64tostr i = name || cmd.argv[1]? = some name ||
    cmd.argv[cmd.argv.length - 2]? = some name))

/-- What is left of the default value below a block, if the block answers to its first part. -/
def within (hasDefault : Bool) (i : Nat) (cmd : GRUBCommand) : List Bytes → Option (List Bytes)
  | [] => none
  | name :: names => if answers hasDefault i cmd name then some names else none

namespace Menu

/-- The commands one after the other. -/
def commands : Menu → List GRUBCommand
  | nil => []
  | other cmd rest => cmd :: rest.commands
  | entry cmd body close rest => cmd :: (body ++ close :: rest.commands)
  | submenu cmd items close rest => cmd :: (items.commands ++ close :: rest.commands)

/-- How deep the blocks are nested. -/
def depth : Menu → Nat
  | nil => 0
  | other _ rest => rest.depth
  | entry _ _ _ rest => max 1 rest.depth
  | submenu _ items _ rest => max (items.depth + 1) rest.depth

/-- The number of blocks at the top. -/
def count : Menu → Nat
  | nil => 0
  | other _ rest => rest.count
  | entry _ _ _ rest => rest.count + 1
  | submenu _ _ _ rest => rest.count + 1

/-- The blocks are opened and closed, and only by the commands that are there for it. Outside all
blocks a brace closes nothing. -/
def Proper : Bool → Menu → Prop
  | _, nil => True
  | inside, other cmd rest => Neutral inside cmd ∧ rest.Proper inside
  | inside, entry cmd body close rest => Named cmd (text "menuentry") ∧
      (∀ c ∈ body, Neutral true c) ∧ Named close (text "\x7d") ∧ rest.Proper inside
  | inside, submenu cmd items close rest => Named cmd (text "submenu") ∧ items.Proper true ∧
      Named close (text "\x7d") ∧ rest.Proper inside

instance decProper : (inside : Bool) → (menu : Menu) → Decidable (menu.Proper inside)
  | _, nil => .isTrue trivial
  | inside, other _ rest =>
    haveI := decProper inside rest
    inferInstanceAs (Decidable (_ ∧ _))
  | inside, entry _ _ _ rest =>
    haveI := decProper inside rest
    inferInstanceAs (Decidable (_ ∧ _ ∧ _ ∧ _))
  | inside, submenu _ items _ rest =>
    haveI := decProper true items
    haveI := decProper inside rest
    inferInstanceAs (Decidable (_ ∧ _ ∧ _ ∧ _))

/-- The title and the initrd of the first entry whose place answers to the names, where the blocks
at the top are counted from `i`. -/
def lookup (hasDefault : Bool) : Nat → List Bytes → Menu → Option (Bytes × Bytes)
  | _, _, nil => none
  | i, names, other _ rest => rest.lookup hasDefault i names
  | i, names, entry cmd body _ rest =>
    ((within hasDefault i cmd names).bind fun names =>
      if names = [] then some (title cmd, initrdAfter [] body) else none) <|>
      rest.lookup hasDefault (i + 1) names
  | i, names, submenu cmd items _ rest =>
    ((within hasDefault i cmd names).bind fun names => items.lookup hasDefault 0 names) <|>
      rest.lookup hasDefault (i + 1) names

end Menu

/-! ## The stack -/

/-- A state of the loop inside the blocks `path`. -/
def inside (path tail : List Element) (matched : Bytes) : Resolve :=
  ⟨path ++ tail, path.length, matched⟩

/-- The elements above the stack: the next block is number `i`, and all else is as at first. -/
def Fresh (i : Nat) : List Element → Prop
  | [] => True
  | e :: tail => e.index = i ∧ e.initrd = [] ∧ ∀ e ∈ tail, e.index = 0 ∧ e.initrd = []

/-- The loop is inside the submenus `path`, before block number `i`. -/
structure Level (path tail : List Element) (i : Nat) : Prop where
  room : path.length + tail.length = stackSize
  menus : ∀ e ∈ path, isMenuEntry e = false
  fresh : Fresh i tail

/-- The block of an element answers, whatever its initrd. -/
def responds (hasDefault : Bool) (e : Element) (name : Bytes) : Bool :=
  match e.command with
  | none => false
  | some cmd => answers hasDefault e.index cmd name

/-- What is left of the names below the blocks `path`, if each answers to its part. -/
def along (hasDefault : Bool) : List Element → List Bytes → Option (List Bytes)
  | [], names => some names
  | _ :: _, [] => none
  | e :: path, name :: names =>
    if responds hasDefault e name then along hasDefault path names else none

/-- The element above the stack is numbered from zero again. -/
def resetHead : List Element → List Element
  | [] => []
  | e :: tail => { e with index := 0 } :: tail

section Stack

variable {pathMax : Nat} {names : List Bytes} {hasDefault : Bool} {path tail : List Element}
  {e : Element} {cmd : GRUBCommand} {matched : Bytes} {i : Nat}

theorem modify_append (path : List Element) (e : Element) (tail : List Element)
    (f : Element → Element) : (path ++ e :: tail).modify path.length f = path ++ f e :: tail := by
  induction path with
  | nil => rfl
  | cons a path ih =>
    rw [List.cons_append, List.length_cons, List.modify_succ_cons, ih, List.cons_append]

theorem getElem?_append_length (path : List Element) (e : Element) (tail : List Element) :
    (path ++ e :: tail)[path.length]? = some e := by
  rw [List.getElem?_append_right (Nat.le_refl _), Nat.sub_self]
  rfl

theorem inside_append (path tail : List Element) (e : Element) (matched : Bytes) :
    inside (path ++ [e]) tail matched = ⟨path ++ e :: tail, path.length + 1, matched⟩ := by
  rw [inside, List.append_assoc, List.length_append]
  rfl

theorem reset_next (hroom : path.length + tail.length = stackSize) :
    (if path.length ≠ stackSize then (path ++ tail).modify path.length ({ · with index := 0 })
      else path ++ tail) = path ++ resetHead tail := by
  cases tail with
  | nil =>
    rw [if_neg (not_not.mpr (show path.length = stackSize from hroom)), List.append_nil]
    exact (List.append_nil path).symm
  | cons e tail =>
    rw [List.length_cons] at hroom
    rw [if_pos (by omega), modify_append]
    rfl

theorem fresh_tail (h : Fresh i (e :: tail)) : Fresh 0 tail := by
  obtain ⟨-, -, h⟩ := h
  cases tail with
  | nil => trivial
  | cons e' tail =>
    obtain ⟨hindex, hinitrd⟩ := h e' List.mem_cons_self
    exact ⟨hindex, hinitrd, fun e he => h e (List.mem_cons_of_mem e' he)⟩

theorem fresh_resetHead (h : Fresh i tail) :
    ∀ e ∈ resetHead tail, e.index = 0 ∧ e.initrd = [] := by
  cases tail with
  | nil => exact fun e he => absurd he List.not_mem_nil
  | cons e' tail =>
    obtain ⟨-, hinitrd, h⟩ := h
    intro e he
    cases List.mem_cons.mp he with
    | inl heq => exact heq ▸ ⟨rfl, hinitrd⟩
    | inr he => exact h e he

theorem length_resetHead (tail : List Element) : (resetHead tail).length = tail.length := by
  cases tail <;> rfl

/-! ## Matching -/

theorem along_append (path : List Element) (e : Element) (names : List Bytes) :
    along hasDefault (path ++ [e]) names =
      (along hasDefault path names).bind (along hasDefault [e]) := by
  induction path generalizing names with
  | nil => rfl
  | cons a path ih =>
    cases names with
    | nil => rfl
    | cons name names =>
      rw [List.cons_append, along, along, ih]
      split
      · rfl
      · rfl

theorem along_single (he : e.command = some cmd) (names : List Bytes) :
    along hasDefault [e] names = within hasDefault e.index cmd names := by
  cases names with
  | nil => rfl
  | cons name names =>
    rw [along, within, responds, he]
    rfl

theorem along_eq_nil : along hasDefault path names = some [] ↔ names.length = path.length ∧
    ∀ p ∈ path.zip names, responds hasDefault p.1 p.2 = true := by
  induction path generalizing names with
  | nil =>
    cases names with
    | nil => simp [along]
    | cons name names => simp [along]
  | cons e path ih =>
    cases names with
    | nil => simp [along]
    | cons name names =>
      rw [along]
      cases hresp : responds hasDefault e name with
      | false => simp [hresp]
      | true => simp [hresp, ih]

theorem matchFrom_cons (top : Nat) (name : Bytes) (rest : List (Element × Bytes)) (ms : Nat)
    (matched : Bytes) : ∃ matched', matchFrom pathMax hasDefault top ((e, name) :: rest) ms matched =
      matchFrom pathMax hasDefault top rest (if responds hasDefault e name then ms + 1 else ms)
        matched' := by
  rw [matchFrom]
  unfold responds answers levelMatches
  cases e.command with
  | none => exact ⟨_, rfl⟩
  | some cmd =>
    dsimp only
    by_cases hshort : cmd.argv.length < 3
    · simp only [if_pos hshort, decide_eq_false (Nat.not_le.mpr hshort), Bool.false_and,
        Bool.false_eq_true, if_false]
      exact ⟨_, rfl⟩
    · simp only [if_neg hshort, decide_eq_true (Nat.not_lt.mp hshort), Bool.true_and]
      cases hasDefault with
      | false => exact ⟨_, rfl⟩
      | true =>
        simp only [Bool.not_true, Bool.false_or, Bool.false_eq_true, if_false]
        split
        · exact ⟨_, rfl⟩
        · exact ⟨_, rfl⟩

theorem matchFrom_fst (top : Nat) (l : List (Element × Bytes)) (ms : Nat) (matched : Bytes) :
    (matchFrom pathMax hasDefault top l ms matched).1 =
      ms + l.countP fun p => responds hasDefault p.1 p.2 := by
  induction l generalizing ms matched with
  | nil => rfl
  | cons p l ih =>
    obtain ⟨e, name⟩ := p
    obtain ⟨matched', h⟩ := @matchFrom_cons pathMax hasDefault e top name l ms matched
    rw [h, ih, List.countP_cons]
    split
    · omega
    · omega

/-- An entry is taken where the whole default value leads to it. -/
theorem matchEntry_iff : (matchEntry pathMax names hasDefault (inside path tail matched)).1 = true ↔
    along hasDefault path names = some [] := by
  rw [along_eq_nil]
  unfold matchEntry inside
  dsimp only
  by_cases hlen : names.length = path.length
  · rw [if_neg (not_not.mpr hlen), List.take_left]
    dsimp only
    rw [matchFrom_fst, Nat.zero_add, decide_eq_true_iff, and_iff_right hlen, ← List.countP_eq_length,
      List.length_zip, hlen, Nat.min_self]
  · rw [if_pos hlen]
    exact iff_of_false Bool.false_ne_true fun h => hlen h.1

end Stack

/-! ## One command -/

section Steps

variable {pathMax : Nat} {names : List Bytes} {hasDefault : Bool} {path tail : List Element}
  {e : Element} {cmd : GRUBCommand} {matched : Bytes} {i : Nat} {isInside : Bool}

theorem menuentry_ne_submenu : text "menuentry" ≠ text "submenu" := by decide

theorem close_ne_menuentry : text "\x7d" ≠ text "menuentry" := by decide

theorem close_ne_submenu : text "\x7d" ≠ text "submenu" := by decide

theorem close_ne_initrd : text "\x7d" ≠ text "initrd" := by decide

theorem close_ne_initrdefi : text "\x7d" ≠ text "initrdefi" := by decide

theorem named_cons {name : Bytes} (h : Named cmd name) : ∃ args, cmd.argv = name :: args := by
  unfold Named at h
  cases hargv : cmd.argv with
  | nil => rw [hargv] at h; cases h
  | cons a args =>
    rw [hargv] at h
    exact ⟨args, congrArg (· :: args) (Option.some.inj h)⟩

theorem resolveStep_open (h : Named cmd (text "menuentry") ∨ Named cmd (text "submenu"))
    (hroom : path.length + (e :: tail).length = stackSize) :
    resolveStep pathMax names hasDefault (inside path (e :: tail) matched) cmd =
      .ok (inside (path ++ [{ e with command := some cmd }]) tail matched, none) := by
  have hblock : ∃ name args, cmd.argv = name :: args ∧
      (name = text "menuentry" ∨ name = text "submenu") := by
    rcases h with h | h
    · obtain ⟨args, hargv⟩ := named_cons h
      exact ⟨_, args, hargv, .inl rfl⟩
    · obtain ⟨args, hargv⟩ := named_cons h
      exact ⟨_, args, hargv, .inr rfl⟩
  obtain ⟨name, args, hargv, hname⟩ := hblock
  have htop : path.length ≠ stackSize := by
    rw [List.length_cons] at hroom
    omega
  unfold resolveStep
  rw [hargv]
  dsimp only
  rw [if_pos (by simpa using hname), inside_append]
  unfold inside
  dsimp only
  rw [if_neg htop, modify_append]
  rfl

theorem resolveStep_close (h : Named cmd (text "\x7d")) (s : Resolve) :
    resolveStep pathMax names hasDefault s cmd = closeBlock pathMax names hasDefault s := by
  obtain ⟨args, hargv⟩ := named_cons h
  unfold resolveStep
  rw [hargv]
  dsimp only
  rw [if_neg (by simp [close_ne_menuentry, close_ne_submenu]),
    if_neg (by simp [close_ne_initrd, close_ne_initrdefi]), if_pos rfl]

theorem initrdPath_some {p : Bytes} (h : initrdPath cmd = some p) :
    ∃ name, cmd.argv = [name, p] ∧ (name = text "initrd" ∨ name = text "initrdefi") := by
  unfold initrdPath at h
  split at h
  · rename_i name path hargv
    split at h
    · rename_i hname
      exact ⟨name, Option.some.inj h ▸ hargv, hname⟩
    · cases h
  · cases h

theorem resolveStep_initrd {p : Bytes} (hneutral : Neutral isInside cmd)
    (h : initrdPath cmd = some p) (s : Resolve) :
    resolveStep pathMax names hasDefault s cmd =
      match s.top with
      | 0 => pure (s, none)
      | top + 1 =>
        if (s.stack[top]?.map isMenuEntry).getD false then
          if pathMax ≤ p.length then .stuck
          else pure ({ s with stack := s.stack.modify top ({ · with initrd := p }) }, none)
        else pure (s, none) := by
  obtain ⟨-, hentry, hsubmenu, -⟩ := hneutral
  obtain ⟨name, hargv, hname⟩ := initrdPath_some h
  unfold Named at hentry hsubmenu
  rw [hargv, List.head?_cons, Option.some_inj] at hentry hsubmenu
  unfold resolveStep
  rw [hargv]
  dsimp only
  rw [if_neg (by simp [hentry, hsubmenu]), if_pos (by simpa using hname)]
  rfl

theorem resolveStep_other (hneutral : Neutral isInside cmd) (h : initrdPath cmd = none)
    (hclose : ¬ Named cmd (text "\x7d")) (s : Resolve) :
    resolveStep pathMax names hasDefault s cmd = .ok (s, none) := by
  obtain ⟨hwords, hentry, hsubmenu, -⟩ := hneutral
  obtain ⟨name, args, hargv⟩ := List.exists_cons_of_ne_nil hwords
  unfold Named at hentry hsubmenu hclose
  rw [hargv, List.head?_cons, Option.some_inj] at hentry hsubmenu hclose
  have hinitrd : ¬ ((name = text "initrd" ∨ name = text "initrdefi") ∧ args.length = 1) := by
    intro ⟨hname, hlen⟩
    obtain ⟨p, rfl⟩ := List.length_eq_one_iff.mp hlen
    rw [initrdPath, hargv] at h
    dsimp only at h
    rw [if_pos hname] at h
    cases h
  unfold resolveStep
  rw [hargv]
  dsimp only
  rw [if_neg (by simp [hentry, hsubmenu]), if_neg (by simpa using hinitrd), if_neg hclose]
  rfl

/-- Outside an entry a neutral command does nothing. -/
theorem resolveStep_neutral (h : Neutral isInside cmd) (hout : isInside = false → path = [])
    (hmenus : ∀ e ∈ path, isMenuEntry e = false) :
    resolveStep pathMax names hasDefault (inside path tail matched) cmd =
      .ok (inside path tail matched, none) := by
  cases hp : initrdPath cmd with
  | none =>
    by_cases hclose : Named cmd (text "\x7d")
    · have hpath : path = [] := hout (by
        cases isInside with
        | false => rfl
        | true => exact absurd hclose (h.close rfl))
      subst hpath
      rw [resolveStep_close hclose]
      rfl
    · exact resolveStep_other h hp hclose _
  | some p =>
    rw [resolveStep_initrd h hp]
    cases path using List.reverseRecOn with
    | nil => rfl
    | append_singleton path e =>
      rw [inside_append]
      dsimp only
      rw [getElem?_append_length, Option.map_some, hmenus e (by simp)]
      rfl

/-- In an entry it may set the initrd. -/
theorem resolveStep_body (h : Neutral true cmd) (he : isMenuEntry e = true)
    (hshort : ∀ w ∈ cmd.argv, w.length < pathMax) :
    resolveStep pathMax names hasDefault (inside (path ++ [e]) tail matched) cmd =
      .ok (inside (path ++ [{ e with initrd := (initrdPath cmd).getD e.initrd }]) tail matched,
        none) := by
  cases hp : initrdPath cmd with
  | none => exact resolveStep_other h hp (h.close rfl) _
  | some p =>
    obtain ⟨name, hargv, -⟩ := initrdPath_some hp
    have hlen : p.length < pathMax := hshort p (by simp [hargv])
    rw [resolveStep_initrd h hp, inside_append, inside_append]
    dsimp only
    rw [getElem?_append_length, Option.map_some, he, Option.getD_some, if_pos rfl,
      if_neg (by omega), modify_append]
    rfl

/-! ## Closing a block -/

theorem closeBlock_inside (hroom : (path ++ [e]).length + tail.length = stackSize) :
    closeBlock pathMax names hasDefault (inside (path ++ [e]) tail matched) =
      let r := if isMenuEntry e
        then matchEntry pathMax names hasDefault (inside (path ++ [e]) (resetHead tail) matched)
        else (false, matched)
      if r.1 then
        match e.command.bind (·.argv[1]?) with
        | none => .stuck
        | some title =>
          if pathMax ≤ title.length then .stuck
          else .ok (inside (path ++ [e]) tail matched, some ⟨r.2, title, e.initrd⟩)
      else .ok (inside path ({ e with initrd := [], index := e.index + 1 } :: resetHead tail) r.2,
        none) := by
  have hreset : (if path.length + 1 ≠ stackSize then
      (path ++ e :: tail).modify (path.length + 1) ({ · with index := 0 })
      else path ++ e :: tail) = path ++ e :: resetHead tail := by
    have h := reset_next hroom
    rw [List.length_append, List.append_assoc, List.append_assoc] at h
    exact h
  rw [inside_append, inside_append]
  unfold closeBlock
  dsimp only
  rw [hreset, getElem?_append_length]
  dsimp only
  rw [modify_append]
  rfl

/-- A block that is not the entry looked for is left behind. -/
theorem closeBlock_on (hroom : (path ++ [e]).length + tail.length = stackSize)
    (hno : isMenuEntry e = true → along hasDefault (path ++ [e]) names ≠ some []) :
    ∃ matched', closeBlock pathMax names hasDefault (inside (path ++ [e]) tail matched) =
      .ok (inside path ({ e with initrd := [], index := e.index + 1 } :: resetHead tail) matched',
        none) := by
  rw [closeBlock_inside hroom]
  dsimp only
  cases hentry : isMenuEntry e with
  | false => exact ⟨_, rfl⟩
  | true =>
    have hfst : ¬ (matchEntry pathMax names hasDefault
        (inside (path ++ [e]) (resetHead tail) matched)).1 = true :=
      fun h => hno hentry (matchEntry_iff.mp h)
    rw [if_pos rfl, if_neg hfst]
    exact ⟨_, rfl⟩

/-- The entry looked for ends the loop. -/
theorem closeBlock_found (hroom : (path ++ [e]).length + tail.length = stackSize)
    (hentry : isMenuEntry e = true) (hall : along hasDefault (path ++ [e]) names = some [])
    (hcmd : e.command = some cmd) (hlen : 3 ≤ cmd.argv.length)
    (hshort : ∀ w ∈ cmd.argv, w.length < pathMax) :
    ∃ s matched', closeBlock pathMax names hasDefault (inside (path ++ [e]) tail matched) =
      .ok (s, some ⟨matched', title cmd, e.initrd⟩) := by
  have hfst : (matchEntry pathMax names hasDefault
      (inside (path ++ [e]) (resetHead tail) matched)).1 = true := matchEntry_iff.mpr hall
  have hword : cmd.argv[1]? = some (title cmd) := by
    rw [title, List.getElem?_eq_getElem (by omega), Option.getD_some]
  have htitle : (title cmd).length < pathMax := hshort _ (List.mem_of_getElem? hword)
  rw [closeBlock_inside hroom]
  dsimp only
  rw [hentry, if_pos rfl, if_pos hfst, hcmd, Option.bind_some, hword]
  dsimp only
  rw [if_neg (by omega)]
  exact ⟨_, _, rfl⟩

end Steps

/-! ## The loop -/

/-- How the loop goes on from the commands of a menu inside the blocks `path`: it ends with the
entry that is found, or comes to the `rest` before block number `i`. -/
def Goes (pathMax : Nat) (names : List Bytes) (hasDefault : Bool) (path : List Element) (i : Nat)
    (commands rest : List GRUBCommand) (s : Resolve) : Option (Bytes × Bytes) → Prop
  | some (title, initrd) => ∃ matched,
    resolveFrom pathMax names hasDefault commands s = .ok ⟨matched, title, initrd⟩
  | none => ∃ tail matched, Level path tail i ∧
    resolveFrom pathMax names hasDefault commands s =
      resolveFrom pathMax names hasDefault rest (inside path tail matched)

section Loop

variable {pathMax : Nat} {names : List Bytes} {hasDefault : Bool} {path tail : List Element}
  {e : Element} {cmd : GRUBCommand} {matched : Bytes} {i : Nat} {isInside : Bool}
  {commands commands' rest body : List GRUBCommand} {s s' : Resolve}

theorem resolveFrom_on (h : resolveStep pathMax names hasDefault s cmd = .ok (s', none)) :
    resolveFrom pathMax names hasDefault (cmd :: rest) s =
      resolveFrom pathMax names hasDefault rest s' := by
  rw [resolveFrom, h]
  rfl

theorem resolveFrom_found {found : Found}
    (h : resolveStep pathMax names hasDefault s cmd = .ok (s', some found)) :
    resolveFrom pathMax names hasDefault (cmd :: rest) s = .ok found := by
  rw [resolveFrom, h]
  rfl

theorem Goes.of_eq {found : Option (Bytes × Bytes)}
    (h : Goes pathMax names hasDefault path i commands' rest s' found)
    (heq : resolveFrom pathMax names hasDefault commands s =
      resolveFrom pathMax names hasDefault commands' s') :
    Goes pathMax names hasDefault path i commands rest s found := by
  cases found with
  | none =>
    obtain ⟨tail, matched, hlevel, hrun⟩ := h
    exact ⟨tail, matched, hlevel, heq.trans hrun⟩
  | some found =>
    obtain ⟨matched, hrun⟩ := h
    exact ⟨matched, heq.trans hrun⟩

theorem resolveFrom_body (hbody : ∀ c ∈ body, Neutral true c) (he : isMenuEntry e = true)
    (hshort : ∀ c ∈ body, ∀ w ∈ c.argv, w.length < pathMax) :
    resolveFrom pathMax names hasDefault (body ++ rest) (inside (path ++ [e]) tail matched) =
      resolveFrom pathMax names hasDefault rest
        (inside (path ++ [{ e with initrd := initrdAfter e.initrd body }]) tail matched) := by
  induction body generalizing e with
  | nil => rfl
  | cons cmd body ih =>
    have hstep := @resolveStep_body pathMax names hasDefault path tail e cmd matched
      (hbody cmd List.mem_cons_self) he (hshort cmd List.mem_cons_self)
    rw [List.cons_append, resolveFrom_on hstep]
    exact ih (fun c hc => hbody c (List.mem_cons_of_mem cmd hc)) he
      fun c hc => hshort c (List.mem_cons_of_mem cmd hc)

theorem isMenuEntry_menuentry (h : Named cmd (text "menuentry")) (hcmd : e.command = some cmd) :
    isMenuEntry e = true := by
  rw [isMenuEntry, hcmd]
  exact decide_eq_true h

theorem isMenuEntry_submenu (h : Named cmd (text "submenu")) (hcmd : e.command = some cmd) :
    isMenuEntry e = false := by
  rw [isMenuEntry, hcmd]
  exact decide_eq_false fun h' => menuentry_ne_submenu (Option.some.inj (h'.symm.trans h))

/-- There is room for a block that the depth allows for. -/
theorem Level.room_for (h : Level path tail i) (hdepth : path.length + 1 ≤ stackSize) :
    ∃ e rest, tail = e :: rest ∧ e.index = i ∧ e.initrd = [] ∧ Fresh 0 rest := by
  cases tail with
  | nil =>
    have hroom : path.length = stackSize := h.room
    omega
  | cons e rest => exact ⟨e, rest, rfl, h.fresh.1, h.fresh.2.1, fresh_tail h.fresh⟩

theorem Level.room_above (h : Level path (e :: tail) i) (e' : Element) :
    (path ++ [e']).length + tail.length = stackSize := by
  have hroom := h.room
  rw [List.length_cons] at hroom
  rw [List.length_append, List.length_singleton]
  omega

/-- Behind a block the next one has the next number. -/
theorem Level.next {j : Nat} (h : Level path (e :: tail) i) {rest : List Element}
    (hlen : rest.length = tail.length) (hfresh : Fresh j rest) (command : Option GRUBCommand) :
    Level path (⟨i + 1, command, []⟩ :: resetHead rest) (i + 1) where
  room := by
    have hroom := h.room
    rw [List.length_cons] at hroom ⊢
    rw [length_resetHead, hlen]
    exact hroom
  menus := h.menus
  fresh := ⟨rfl, rfl, fresh_resetHead hfresh⟩

theorem along_bind {α : Type} (hcmd : e.command = some cmd) (k : List Bytes → Option α) :
    ((along hasDefault path names).bind fun names => (within hasDefault e.index cmd names).bind k) =
      (along hasDefault (path ++ [e]) names).bind k := by
  rw [along_append, Option.bind_assoc]
  simp only [along_single hcmd]

theorem bind_orElse_some {α β : Type} {x : Option α} {f g : α → Option β} {b : β}
    (h : x.bind f = some b) : (x.bind fun a => f a <|> g a) = some b := by
  cases x with
  | none => cases h
  | some a =>
    rw [Option.bind_some] at h ⊢
    rw [h]
    rfl

theorem bind_orElse_none {α β : Type} {x : Option α} {f g : α → Option β}
    (h : x.bind f = none) : (x.bind fun a => f a <|> g a) = x.bind g := by
  cases x with
  | none => rfl
  | some a =>
    rw [Option.bind_some] at h ⊢
    rw [h]
    rfl

theorem length_of_within {names' : List Bytes} (h : within hasDefault i cmd names = some names') :
    3 ≤ cmd.argv.length := by
  cases names with
  | nil => cases h
  | cons name names =>
    rw [within] at h
    split at h
    · rename_i hanswers
      exact of_decide_eq_true (Bool.and_eq_true_iff.mp hanswers).1
    · cases h

theorem goes_entry {close : GRUBCommand} {g : List Bytes → Option (Bytes × Bytes)} {j : Nat}
    (hentry : Named cmd (text "menuentry")) (hbody : ∀ c ∈ body, Neutral true c)
    (hclose : Named close (text "\x7d")) (hlevel : Level path tail i)
    (hdepth : path.length + 1 ≤ stackSize) (hcmd : ∀ w ∈ cmd.argv, w.length < pathMax)
    (hshort : ∀ c ∈ body, ∀ w ∈ c.argv, w.length < pathMax)
    (hrest : ∀ tail matched, Level path tail (i + 1) → Goes pathMax names hasDefault path j commands
      rest (inside path tail matched) ((along hasDefault path names).bind g)) :
    Goes pathMax names hasDefault path j (cmd :: (body ++ close :: commands)) rest
      (inside path tail matched)
      ((along hasDefault path names).bind fun names =>
        ((within hasDefault i cmd names).bind fun names =>
          if names = [] then some (title cmd, initrdAfter [] body) else none) <|> g names) := by
  obtain ⟨e, tail, rfl, rfl, hinitrd, hfresh⟩ := hlevel.room_for hdepth
  -- the element on top of the stack where the entry is closed
  let last : Element := ⟨e.index, some cmd, initrdAfter e.initrd body⟩
  have hlast : isMenuEntry last = true := isMenuEntry_menuentry hentry rfl
  have hroom : (path ++ [last]).length + tail.length = stackSize := hlevel.room_above last
  have hrun : resolveFrom pathMax names hasDefault (cmd :: (body ++ close :: commands))
      (inside path (e :: tail) matched) =
        resolveFrom pathMax names hasDefault (close :: commands)
          (inside (path ++ [last]) tail matched) :=
    (resolveFrom_on (resolveStep_open (.inl hentry) hlevel.room)).trans
      (resolveFrom_body hbody (isMenuEntry_menuentry hentry rfl) hshort)
  have halong : _ = (along hasDefault (path ++ [last]) names).bind _ :=
    along_bind (e := last) rfl fun names =>
      if names = [] then some (title cmd, initrdAfter [] body) else none
  by_cases hall : along hasDefault (path ++ [last]) names = some []
  · rw [hall, Option.bind_some, if_pos rfl] at halong
    rw [bind_orElse_some halong]
    have hlen : 3 ≤ cmd.argv.length := by
      rw [along_append, Option.bind_eq_some_iff] at hall
      obtain ⟨_, -, hwithin⟩ := hall
      rw [along_single rfl] at hwithin
      exact length_of_within hwithin
    obtain ⟨_, matched', hfound⟩ := closeBlock_found hroom hlast hall rfl hlen hcmd
    refine ⟨matched', hrun.trans ?_⟩
    rw [resolveFrom_found ((resolveStep_close hclose _).trans hfound), ← hinitrd]
  · have hnone : (along hasDefault (path ++ [last]) names).bind (fun names =>
        if names = [] then some (title cmd, initrdAfter [] body) else none) = none := by
      cases hleft : along hasDefault (path ++ [last]) names with
      | none => rfl
      | some left => exact if_neg fun (h : left = []) => hall (by rw [hleft, h])
    rw [bind_orElse_none (halong.trans hnone)]
    obtain ⟨matched', hon⟩ := closeBlock_on hroom fun _ => hall
    exact (hrest _ matched' (hlevel.next rfl hfresh (some cmd))).of_eq
      (hrun.trans (resolveFrom_on ((resolveStep_close hclose _).trans hon)))

theorem goes_submenu {close : GRUBCommand} {items : List GRUBCommand} {j : Nat} (n : Nat)
    {f g : List Bytes → Option (Bytes × Bytes)}
    (hsubmenu : Named cmd (text "submenu")) (hclose : Named close (text "\x7d"))
    (hlevel : Level path tail i) (hdepth : path.length + 1 ≤ stackSize)
    (hitems : ∀ tail, Level (path ++ [⟨i, some cmd, []⟩]) tail 0 →
      Goes pathMax names hasDefault (path ++ [⟨i, some cmd, []⟩]) n (items ++ close :: commands)
        (close :: commands) (inside (path ++ [⟨i, some cmd, []⟩]) tail matched)
        ((along hasDefault (path ++ [⟨i, some cmd, []⟩]) names).bind f))
    (hrest : ∀ tail matched, Level path tail (i + 1) → Goes pathMax names hasDefault path j commands
      rest (inside path tail matched) ((along hasDefault path names).bind g)) :
    Goes pathMax names hasDefault path j (cmd :: (items ++ close :: commands)) rest
      (inside path tail matched)
      ((along hasDefault path names).bind fun names =>
        ((within hasDefault i cmd names).bind f) <|> g names) := by
  obtain ⟨e, tail, rfl, rfl, hinitrd, hfresh⟩ := hlevel.room_for hdepth
  let block : Element := ⟨e.index, some cmd, []⟩
  have hblock : isMenuEntry block = false := isMenuEntry_submenu hsubmenu rfl
  have hroom : (path ++ [block]).length + tail.length = stackSize := hlevel.room_above block
  have hmenus : ∀ e ∈ path ++ [block], isMenuEntry e = false := by
    intro e he
    cases List.mem_append.mp he with
    | inl he => exact hlevel.menus e he
    | inr he => exact List.mem_singleton.mp he ▸ hblock
  have hopen : resolveFrom pathMax names hasDefault (cmd :: (items ++ close :: commands))
      (inside path (e :: tail) matched) =
        resolveFrom pathMax names hasDefault (items ++ close :: commands)
          (inside (path ++ [block]) tail matched) := by
    rw [resolveFrom_on (resolveStep_open (.inr hsubmenu) hlevel.room), hinitrd]
  have halong : _ = (along hasDefault (path ++ [block]) names).bind f :=
    along_bind (e := block) rfl f
  have hgoes := hitems tail ⟨hroom, hmenus, hfresh⟩
  cases hfound : (along hasDefault (path ++ [block]) names).bind f with
  | some found =>
    rw [hfound] at hgoes halong
    obtain ⟨matched', hrun⟩ := hgoes
    rw [bind_orElse_some halong]
    exact ⟨matched', hopen.trans hrun⟩
  | none =>
    rw [hfound] at hgoes halong
    obtain ⟨tail', matched', hinner, hrun⟩ := hgoes
    rw [bind_orElse_none halong]
    obtain ⟨matched'', hon⟩ := @closeBlock_on pathMax names hasDefault path tail' block matched'
      hinner.room fun h => absurd (hblock.symm.trans h) Bool.false_ne_true
    have hlen : tail'.length = tail.length := by
      have hroom' : (path ++ [block]).length + tail'.length = stackSize := hinner.room
      omega
    exact (hrest _ matched'' (hlevel.next hlen hinner.fresh (some cmd))).of_eq
      ((hopen.trans hrun).trans (resolveFrom_on ((resolveStep_close hclose _).trans hon)))

/-- The loop finds in the commands of a menu what the menu has for what is left of the names. -/
theorem goes_menu (menu : Menu) (hproper : menu.Proper isInside)
    (hout : isInside = false → path = []) (hlevel : Level path tail i)
    (hdepth : path.length + menu.depth ≤ stackSize)
    (hshort : ∀ cmd ∈ menu.commands, ∀ w ∈ cmd.argv, w.length < pathMax) :
    Goes pathMax names hasDefault path (i + menu.count) (menu.commands ++ rest) rest
      (inside path tail matched)
      ((along hasDefault path names).bind fun names => menu.lookup hasDefault i names) := by
  induction menu generalizing isInside path tail i matched rest with
  | nil =>
    have hnone : ((along hasDefault path names).bind fun names =>
        Menu.nil.lookup hasDefault i names) = none := by
      cases along hasDefault path names <;> rfl
    rw [hnone]
    exact ⟨tail, matched, hlevel, rfl⟩
  | other cmd menu ih =>
    obtain ⟨hneutral, hproper⟩ := hproper
    exact (ih hproper hout hlevel hdepth fun c hc => hshort c (List.mem_cons_of_mem cmd hc)).of_eq
      (resolveFrom_on (resolveStep_neutral hneutral hout hlevel.menus))
  | entry cmd body close menu ih =>
    obtain ⟨hentry, hbody, hclose, hproper⟩ := hproper
    rw [Menu.depth] at hdepth
    have hcount : i + (menu.count + 1) = i + 1 + menu.count := by omega
    rw [Menu.count, hcount, Menu.commands, List.cons_append, List.append_assoc, List.cons_append]
    refine goes_entry hentry hbody hclose hlevel (by omega) (hshort cmd List.mem_cons_self)
      (fun c hc => hshort c (by simp [Menu.commands, hc])) fun tail matched hnext => ?_
    exact ih hproper hout hnext (by omega) fun c hc => hshort c (by simp [Menu.commands, hc])
  | submenu cmd items close menu ihitems ih =>
    obtain ⟨hsubmenu, hitems, hclose, hproper⟩ := hproper
    rw [Menu.depth] at hdepth
    have hcount : i + (menu.count + 1) = i + 1 + menu.count := by omega
    rw [Menu.count, hcount, Menu.commands, List.cons_append, List.append_assoc, List.cons_append]
    refine goes_submenu (0 + items.count) hsubmenu hclose hlevel (by omega) (fun tail hinner => ?_)
      fun tail matched hnext => ?_
    · refine ihitems hitems (fun h => (by cases h)) hinner ?_ fun c hc =>
        hshort c (by simp [Menu.commands, hc])
      rw [List.length_append, List.length_singleton]
      omega
    · exact ih hproper hout hnext (by omega) fun c hc => hshort c (by simp [Menu.commands, hc])

end Loop

/-! ## The menu's default entry -/

/-- The title and the initrd of the default entry, or nothing. -/
def Menu.defaultEntry (menu : Menu) : Option (Bytes × Bytes) :=
  menu.lookup (defaultValue menu.commands).isSome 0
    (splitNames ((defaultValue menu.commands).getD (text "0")))

/-- A menu that the loop can follow: its blocks fit on the stack, and its words into the arrays. -/
structure Menu.Readable (pathMax : Nat) (menu : Menu) : Prop where
  proper : menu.Proper false
  depth : menu.depth ≤ stackSize
  short : ∀ cmd ∈ menu.commands, ∀ w ∈ cmd.argv, w.length < pathMax
  commands : menu.commands ≠ []
  default : splitNames ((defaultValue menu.commands).getD (text "0")) ≠ []

theorem level_start : Level [] (List.replicate stackSize ⟨0, none, []⟩) 0 where
  room := by rw [List.length_nil, List.length_replicate, Nat.zero_add]
  menus e he := absurd he List.not_mem_nil
  fresh := by
    refine ⟨rfl, rfl, fun e he => ?_⟩
    rw [List.eq_of_mem_replicate he]
    exact ⟨rfl, rfl⟩

def nestedText : Bytes := text ("set default=1>b\x0amenuentry a \x7b\x0a initrd /a\x0a\x7d\x0a" ++
  "submenu s \x7b\x0a menuentry b \x7b\x0a  linux /v\x0a  initrd /b\x0a \x7d\x0a\x7d\x0a")

/-- The words of a line. -/
def line (n : Nat) (words : List String) : GRUBCommand := ⟨n, words.map text⟩

def nested : Menu :=
  .other (line 1 ["set", "default=1>b"]) <|
    .entry (line 2 ["menuentry", "a", "\x7b"]) [line 3 ["initrd", "/a"]] (line 4 ["\x7d"]) <|
      .submenu (line 5 ["submenu", "s", "\x7b"])
        (.entry (line 6 ["menuentry", "b", "\x7b"])
          [line 7 ["linux", "/v"], line 8 ["initrd", "/b"]] (line 9 ["\x7d"]) .nil)
        (line 10 ["\x7d"]) .nil

theorem nested_readable : nested.Readable 256 where
  proper := by decide +kernel
  depth := by decide
  short := by decide +kernel
  commands := by decide
  default := by decide +kernel

theorem nested_defaultEntry : nested.defaultEntry = some (text "b", text "/b") := by
  decide +kernel

end LsvmTools.Grub.DefaultEntry
