import LsvmTools.Grub.Config

/-! # Taking the crypto modules out

`GrubcfgPatch` overwrites the commands that load them, line by line. `Neutral` says what may
happen to a line. -/
namespace LsvmTools.Grub.Patch
open Lib.ByteString Strings Config

/-- `commands`. -/
def commands : List Bytes :=
  [text "insmod cryptodisk", text "insmod luks", text "insmod gcry_rijndael",
    text "insmod gcry_sha1"]

/-- `_GetLine`: the line with its newline, if it has one, and the text behind it. -/
def getLine (text : Bytes) : Bytes × Bytes :=
  let n := (text.takeWhile (· ≠ newline)).length
  (text.take (n + 1), text.drop (n + 1))

/-- The first `n` bytes overwritten. -/
def overwrite (p : Bytes) (n : Nat) : Bytes := List.replicate n hash ++ p.drop n

/-- The comparison with one of the commands, where `len` bytes are left without the blanks at
the end of the line. -/
def patchCommand (len : Nat) (p s : Bytes) : Bytes :=
  if s.length ≤ len && p.take s.length = s then overwrite p s.length else p

/-- What happens to a line. -/
def patchLine (line : Bytes) : Bytes :=
  let p := line.dropWhile isspace
  -- blank lines and comments
  if p = [] || p.head? = some hash then line
  else line.takeWhile isspace ++ commands.foldl (patchCommand (p.rdropWhile isspace).length) p

/-- The loop of `GrubcfgPatch`, over what is left of the text. -/
def patchFrom : Nat → Bytes → Bytes
  | 0, text => text
  | fuel + 1, text =>
    if text = [] then []
    else patchLine (getLine text).1 ++ patchFrom fuel (getLine text).2

/-- `GrubcfgPatch`. There are no more lines than characters. -/
def grubcfgPatch (data : Bytes) : Option Bytes :=
  if data = [] then none else some (patchFrom data.length data)

/-! ## What it is for -/

/-- Behind blanks the line begins with a command. -/
structure Split (line blank c rest : Bytes) : Prop where
  line : line = blank ++ (c ++ rest)
  blank : ∀ x ∈ blank, isspace x = true
  command : c ∈ commands

/-- The line loads one of the modules. -/
def Loads (line : Bytes) : Prop := ∃ blank c rest, Split line blank c rest

/-- The command behind the blanks of a line is overwritten; any other line stays as it is. -/
inductive Neutral : Bytes → Bytes → Prop
  | patched {line blank c rest : Bytes} : Split line blank c rest →
      Neutral line (blank ++ (List.replicate c.length hash ++ rest))
  | same {line : Bytes} : ¬ Loads line → Neutral line line

/-- The lines, without their newlines. -/
def lines (text : Bytes) : List Bytes := text.splitOn newline

/-- The text is patched line by line, and once and for all. -/
structure Neutralised (old new : Bytes) : Prop where
  lines : List.Forall₂ Neutral (lines old) (lines new)
  length : new.length = old.length
  clean : ∀ line ∈ Patch.lines new, ¬ Loads line
  again : grubcfgPatch new = some new

/-! ## One line -/

variable {line p blank c rest text : Bytes} {len : Nat} {cs : List Bytes}

/-- No command begins like another one. -/
theorem commands_prefix : ∀ c ∈ commands, ∀ d ∈ commands, c <+: d → c = d := by decide

theorem commands_newline : ∀ c ∈ commands, newline ∉ c := by decide

/-- Each begins with an i. -/
theorem commands_head : ∀ c ∈ commands, c.head? = some 105 := by decide

/-- None ends with a blank. -/
theorem commands_last : ∀ c ∈ commands, c.getLast?.map isspace = some false := by decide

theorem command_cons (h : c ∈ commands) : ∃ r, c = 105 :: r := by
  cases c with
  | nil => exact absurd (commands_head _ h) (by decide)
  | cons x r => exact ⟨r, by rw [Option.some.inj (commands_head _ h)]⟩

theorem le_length_dropWhile {q : UInt8 → Bool} {x : UInt8} (hx : q x = false) (a b : Bytes) :
    (x :: b).length ≤ ((a ++ x :: b).dropWhile q).length := by
  induction a with
  | nil => rw [List.nil_append, List.dropWhile_cons, hx, if_neg Bool.false_ne_true]
  | cons y a ih =>
    rw [List.cons_append, List.dropWhile_cons]
    split
    · exact ih
    · rw [List.length_cons, List.length_cons, List.length_append, List.length_cons]
      omega

/-- The blanks at the end of the line are behind the command. -/
theorem le_trimmed (h : c ∈ commands) (rest : Bytes) :
    c.length ≤ ((c ++ rest).rdropWhile isspace).length := by
  have hlast := commands_last c h
  obtain ⟨x, hx, hspace⟩ := Option.map_eq_some_iff.mp hlast
  obtain ⟨r, hr⟩ := List.getLast?_eq_some_iff.mp hx
  rw [List.rdropWhile, List.length_reverse, List.reverse_append, hr, List.reverse_append,
    List.reverse_singleton, List.singleton_append]
  refine Nat.le_trans (Nat.le_of_eq ?_) (le_length_dropWhile hspace _ _)
  rw [List.length_append, List.length_cons, List.length_cons, List.length_reverse,
    List.length_nil]

theorem foldl_none (h : ∀ c ∈ cs, ¬ c <+: p) : cs.foldl (patchCommand len) p = p := by
  induction cs with
  | nil => rfl
  | cons c cs ih =>
    have hc : patchCommand len p c = p := by
      rw [patchCommand, if_neg]
      rw [Bool.and_eq_true, decide_eq_true_iff, decide_eq_true_iff, not_and]
      exact fun _ heq => h c List.mem_cons_self (List.prefix_iff_eq_take.mpr heq.symm)
    rw [List.foldl_cons, hc]
    exact ih fun d hd => h d (List.mem_cons_of_mem _ hd)

/-- What is overwritten is no command any more. -/
theorem not_prefix_hash (h : c ∈ commands) {n : Nat} (hn : n ≠ 0) (q : Bytes) :
    ¬ c <+: List.replicate n hash ++ q := by
  obtain ⟨r, rfl⟩ := command_cons h
  obtain ⟨m, rfl⟩ := Nat.exists_eq_succ_of_ne_zero hn
  intro hp
  rw [List.replicate_succ, List.cons_append, List.cons_prefix_cons] at hp
  exact absurd hp.1 (by decide)

theorem foldl_some (hsub : cs ⊆ commands) (hc : c ∈ cs) (hp : c <+: p) (hlen : c.length ≤ len) :
    cs.foldl (patchCommand len) p = overwrite p c.length := by
  induction cs with
  | nil => cases hc
  | cons d cs ih =>
    have hd := hsub List.mem_cons_self
    have hcc := hsub hc
    by_cases hdp : d <+: p
    · -- it is the same command
      have hdc : d = c := by
        rcases Nat.le_total d.length c.length with hle | hle
        · exact commands_prefix d hd c hcc (List.prefix_of_prefix_length_le hdp hp hle)
        · exact ( commands_prefix c hcc d hd (List.prefix_of_prefix_length_le hp hdp hle)).symm
      subst hdc
      have hhit : patchCommand len p d = overwrite p d.length := by
        rw [patchCommand, if_pos]
        rw [Bool.and_eq_true, decide_eq_true_iff, decide_eq_true_iff]
        exact ⟨hlen, (List.prefix_iff_eq_take.mp hdp).symm⟩
      have hne : d.length ≠ 0 := by
        obtain ⟨r, rfl⟩ := command_cons hd
        exact Nat.succ_ne_zero _
      rw [List.foldl_cons, hhit]
      exact foldl_none fun e he => not_prefix_hash (hsub (List.mem_cons_of_mem _ he)) hne _
    · have hmiss : patchCommand len p d = p := by
        rw [patchCommand, if_neg]
        rw [Bool.and_eq_true, decide_eq_true_iff, decide_eq_true_iff, not_and]
        exact fun _ heq => hdp (List.prefix_iff_eq_take.mpr heq.symm)
      rw [List.foldl_cons, hmiss]
      refine ih (fun e he => hsub (List.mem_cons_of_mem _ he)) ?_
      rcases List.mem_cons.mp hc with rfl | hc
      · exact absurd hp hdp
      · exact hc

theorem Split.dropWhile (h : Split line blank c rest) : line.dropWhile isspace = c ++ rest := by
  obtain ⟨r, rfl⟩ := command_cons h.command
  rw [h.line, List.dropWhile_append_of_pos h.blank, List.cons_append, List.dropWhile_cons,
    if_neg (by decide)]

theorem Split.takeWhile (h : Split line blank c rest) : line.takeWhile isspace = blank := by
  have hd := h.dropWhile
  have hsplit := List.takeWhile_append_dropWhile (p := isspace) (l := line)
  rw [hd] at hsplit
  exact List.append_cancel_right (hsplit.trans h.line)

theorem patchLine_split (h : Split line blank c rest) :
    patchLine line = blank ++ (List.replicate c.length hash ++ rest) := by
  have hfold := foldl_some (fun _ hc => hc) h.command (List.prefix_append c rest)
    (le_trimmed h.command rest)
  have hcond : ¬ ((c ++ rest = [] || (c ++ rest).head? = some hash) = true) := by
    obtain ⟨r, rfl⟩ := command_cons h.command
    rw [List.cons_append, List.head?_cons, Bool.or_eq_true, decide_eq_true_iff,
      decide_eq_true_iff, not_or]
    exact ⟨List.cons_ne_nil _ _, by decide⟩
  rw [patchLine, h.dropWhile, h.takeWhile]
  rw [if_neg hcond, hfold, overwrite, List.drop_left]

theorem patchLine_same (h : ¬ Loads line) : patchLine line = line := by
  rw [patchLine]
  split
  · rfl
  · rw [foldl_none, List.takeWhile_append_dropWhile]
    rintro c hc ⟨rest, hrest⟩
    refine h ⟨line.takeWhile isspace, c, rest, ?_, fun x hx => ?_, hc⟩
    · rw [hrest, List.takeWhile_append_dropWhile]
    · exact List.mem_takeWhile_imp hx

theorem neutral_patchLine (line : Bytes) : Neutral line (patchLine line) := by
  by_cases h : Loads line
  · obtain ⟨blank, c, rest, h⟩ := h
    rw [patchLine_split h]
    exact .patched h
  · rw [patchLine_same h]
    exact .same h

/-- A patched line loads nothing. -/
theorem not_loads_patchLine (line : Bytes) : ¬ Loads (patchLine line) := by
  by_cases h : Loads line
  · obtain ⟨blank, c, rest, h⟩ := h
    rw [patchLine_split h]
    rintro ⟨blank', c', rest', h'⟩
    have hne : c.length ≠ 0 := by
      obtain ⟨r, rfl⟩ := command_cons h.command
      exact Nat.succ_ne_zero _
    have hdrop := h'.dropWhile
    rw [List.dropWhile_append_of_pos h.blank] at hdrop
    obtain ⟨m, hm⟩ := Nat.exists_eq_succ_of_ne_zero hne
    obtain ⟨r, rfl⟩ := command_cons h'.command
    rw [hm, List.replicate_succ, List.cons_append, List.dropWhile_cons, if_neg (by decide),
      List.cons_append] at hdrop
    injection hdrop with hhead _
    exact absurd hhead (by decide)
  · rw [patchLine_same h]
    exact h

theorem length_patchLine (line : Bytes) : (patchLine line).length = line.length := by
  by_cases h : Loads line
  · obtain ⟨blank, c, rest, h⟩ := h
    rw [patchLine_split h, h.line, List.length_append, List.length_append, List.length_append,
      List.length_append, List.length_replicate]
  · rw [patchLine_same h]

theorem newline_patchLine (h : newline ∉ line) : newline ∉ patchLine line := by
  by_cases hl : Loads line
  · obtain ⟨blank, c, rest, hs⟩ := hl
    rw [patchLine_split hs]
    rw [hs.line] at h
    simp only [List.mem_append, not_or] at h ⊢
    refine ⟨h.1, fun hm => ?_, h.2.2⟩
    exact absurd (List.eq_of_mem_replicate hm) (by decide)
  · rwa [patchLine_same hl]

/-- The newline at the end of a line is a blank like others. -/
theorem patchLine_newline (line : Bytes) :
    patchLine (line ++ [newline]) = patchLine line ++ [newline] := by
  by_cases hl : Loads line
  · obtain ⟨blank, c, rest, hs⟩ := hl
    have hs' : Split (line ++ [newline]) blank c (rest ++ [newline]) :=
      ⟨by rw [hs.line, List.append_assoc, List.append_assoc], hs.blank, hs.command⟩
    rw [patchLine_split hs, patchLine_split hs', List.append_assoc, List.append_assoc]
  · have hl' : ¬ Loads (line ++ [newline]) := by
      rintro ⟨blank, c, rest, hs⟩
      rcases List.eq_nil_or_concat rest with rfl | ⟨rest', x, rfl⟩
      · rcases List.eq_nil_or_concat c with rfl | ⟨r, x, rfl⟩
        · exact absurd hs.command (by decide)
        · have hline := hs.line
          rw [List.append_nil, List.concat_eq_append, ← List.append_assoc] at hline
          obtain ⟨-, hx⟩ := List.append_inj' hline rfl
          refine commands_newline _ hs.command ?_
          rw [List.concat_eq_append, ← hx]
          exact List.mem_append_right _ List.mem_cons_self
      · have hline := hs.line
        rw [List.concat_eq_append, ← List.append_assoc, ← List.append_assoc] at hline
        obtain ⟨hline, -⟩ := List.append_inj' hline rfl
        exact hl ⟨blank, c, rest', by rw [hline, List.append_assoc], hs.blank, hs.command⟩
    rw [patchLine_same hl, patchLine_same hl']

/-! ## All lines -/

theorem takeWhile_line (h : newline ∉ line) (rest : Bytes) :
    (line ++ rest).takeWhile (fun c => decide (c ≠ newline)) =
      line ++ rest.takeWhile fun c => decide (c ≠ newline) :=
  List.takeWhile_append_of_pos fun _ hx => decide_eq_true fun he => h (he ▸ hx)

theorem getLine_newline (h : newline ∉ line) (rest : Bytes) :
    getLine (line ++ newline :: rest) = (line ++ [newline], rest) := by
  have hcons : line ++ newline :: rest = (line ++ [newline]) ++ rest := by
    rw [List.append_assoc]
    rfl
  have hlen : (line ++ [newline]).length = line.length + 1 := List.length_append
  rw [getLine, takeWhile_line h, List.takeWhile_cons, if_neg (by decide), List.append_nil, hcons,
    take_of_length hlen, drop_of_length hlen]

theorem getLine_last (h : newline ∉ line) : getLine line = (line, []) := by
  have htake := takeWhile_line h []
  rw [List.append_nil, List.takeWhile_nil, List.append_nil] at htake
  rw [getLine, htake, List.take_of_length_le (Nat.le_succ _), List.drop_eq_nil_of_le (Nat.le_succ _)]

/-- The text is patched line by line. -/
theorem patchFrom_eq {fuel : Nat} (hf : text.length ≤ fuel) :
    patchFrom fuel text = [newline].intercalate ((lines text).map patchLine) := by
  induction fuel generalizing text with
  | zero =>
    have ht : text = [] := List.eq_nil_of_length_eq_zero (by omega)
    rw [ht]
    rfl
  | succ fuel ih =>
    rw [patchFrom]
    by_cases ht : text = []
    · rw [if_pos ht, ht]
      rfl
    rw [if_neg ht]
    by_cases hn : newline ∈ text
    · obtain ⟨line, rest, rfl, hline⟩ := List.eq_append_cons_of_mem hn
      have hlen : rest.length ≤ fuel := by
        rw [List.length_append, List.length_cons] at hf
        omega
      have hlines : lines (line ++ newline :: rest) = line :: lines rest :=
        List.splitOn_append_cons_self_of_not_mem hline rest
      have hne : (lines rest).map patchLine ≠ [] := fun he =>
        List.splitOn_ne_nil newline rest (List.map_eq_nil_iff.mp he)
      rw [getLine_newline hline, hlines, List.map_cons, List.intercalate_cons_of_ne_nil hne,
        ih hlen, patchLine_newline line, List.append_assoc]
    · have hlines : lines text = [text] := List.splitOn_eq_singleton hn
      rw [getLine_last hn, hlines]
      dsimp only
      rw [ih (Nat.zero_le _), List.map_singleton, List.intercalate_singleton]
      exact List.append_nil _

theorem lines_newline (text : Bytes) : ∀ line ∈ lines text, newline ∉ line := by
  induction text with
  | nil =>
    intro line hl
    rw [List.mem_singleton.mp hl]
    exact List.not_mem_nil
  | cons c text ih =>
    intro line hl
    rw [lines, List.splitOn_cons_eq_if_modifyHead] at hl
    split at hl
    · rcases List.mem_cons.mp hl with rfl | hl
      · exact List.not_mem_nil
      · exact ih line hl
    · rename_i hc
      obtain ⟨first, others, hs⟩ := List.exists_cons_of_ne_nil (List.splitOn_ne_nil newline text)
      rw [hs, List.modifyHead_cons] at hl
      rw [lines, hs] at ih
      rcases List.mem_cons.mp hl with rfl | hl
      · rw [List.mem_cons, not_or]
        exact ⟨fun he => hc (beq_iff_eq.mpr he.symm), ih first List.mem_cons_self⟩
      · exact ih line (List.mem_cons_of_mem _ hl)

theorem length_intercalate (ls : List Bytes) :
    ([newline].intercalate (ls.map patchLine)).length = ([newline].intercalate ls).length := by
  induction ls with
  | nil => rfl
  | cons l ls ih =>
    by_cases hl : ls = []
    · rw [hl, List.map_singleton, List.intercalate_singleton, List.intercalate_singleton,
        length_patchLine]
    · rw [List.map_cons, List.intercalate_cons_of_ne_nil hl,
        List.intercalate_cons_of_ne_nil fun he => hl (List.map_eq_nil_iff.mp he),
        List.length_append, List.length_append, List.length_append, List.length_append, ih,
        length_patchLine]

/-- For every text that is not empty: the call keeps its length and its newlines, overwrites only
the commands that load one of the modules, leaves none of them, and does nothing when it is made
again. -/
theorem patch_neutralises (text : Bytes) (h : text ≠ []) :
    ∃ new, grubcfgPatch text = some new ∧ Neutralised text new := by
  have hcall : ∀ t : Bytes, t ≠ [] → grubcfgPatch t =
      some ([newline].intercalate ((lines t).map patchLine)) := fun t ht => by
    rw [grubcfgPatch, if_neg ht, patchFrom_eq (Nat.le_refl _)]
  have hjoin : [newline].intercalate (lines text) = text := List.intercalate_splitOn newline
  have hlines : lines ([newline].intercalate ((lines text).map patchLine)) =
      (lines text).map patchLine := by
    refine List.splitOn_intercalate newline (fun line hl => ?_) (fun he => ?_)
    · obtain ⟨old, hold, rfl⟩ := List.mem_map.mp hl
      exact newline_patchLine (lines_newline text old hold)
    · exact List.splitOn_ne_nil newline text (List.map_eq_nil_iff.mp he)
  have hlen : ([newline].intercalate ((lines text).map patchLine)).length = text.length := by
    rw [length_intercalate, hjoin]
  refine ⟨_, hcall text h, ?_, hlen, ?_, ?_⟩
  · rw [hlines, List.forall₂_map_right_iff, List.forall₂_same]
    exact fun line _ => neutral_patchLine line
  · rw [hlines]
    intro line hl
    obtain ⟨old, -, rfl⟩ := List.mem_map.mp hl
    exact not_loads_patchLine old
  · rw [hcall _ fun he => h (List.eq_nil_of_length_eq_zero (by rw [← hlen, he]; rfl)), hlines,
      List.map_map]
    have hagain : patchLine ∘ patchLine = patchLine :=
      funext fun line => patchLine_same (not_loads_patchLine line)
    rw [hagain]

/-- A line to patch, a comment and a module that is needed. -/
def sample : Bytes := Strings.text "  insmod luks\x0a#insmod luks\x0ainsmod ext2"

example : grubcfgPatch sample =
    some (Strings.text "  ###########\x0a#insmod luks\x0ainsmod ext2") := by decide +kernel

theorem patch_sample : ∃ new, grubcfgPatch sample = some new ∧ Neutralised sample new :=
  patch_neutralises sample (by decide +kernel)

end LsvmTools.Grub.Patch
