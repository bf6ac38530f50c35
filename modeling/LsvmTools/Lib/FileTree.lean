import Mathlib.Data.List.Induction
import Mathlib.Data.List.Nodup

/-! # Trees of files

A tree is the list of the files and directories that have been made, each under a name in a
directory. It is well grown if each was made in a directory that was there before and no path
was used twice. -/
namespace LsvmTools.Lib.FileTree

/-- A directory, or a file with its content, in a directory. -/
structure Make (κ β : Type) where
  dir : List κ
  name : κ
  content : Option β

variable {κ β : Type}

def Make.path (m : Make κ β) : List κ := m.dir ++ [m.name]

/-- The path is that of the root or of a directory that was made. -/
def IsDir (t : List (Make κ β)) (p : List κ) : Prop :=
  p = [] ∨ ∃ m ∈ t, m.path = p ∧ m.content = none

/-- What is made after `t` is made in directories that are there. -/
def Based (t : List (Make κ β)) : List (Make κ β) → Prop
  | [] => True
  | m :: ms => IsDir t m.dir ∧ Based (t ++ [m]) ms

def paths (t : List (Make κ β)) : List (List κ) := t.map Make.path

structure Grown (t : List (Make κ β)) : Prop where
  based : Based [] t
  distinct : (paths t).Nodup

variable {t ms ms' : List (Make κ β)} {m x : Make κ β} {p q : List κ} {k : κ}

theorem mem_paths : p ∈ paths t ↔ ∃ m ∈ t, m.path = p := List.mem_map

theorem paths_append : paths (t ++ ms) = paths t ++ paths ms := List.map_append

/-- A path has one last name. -/
theorem Make.path_eq (h : m.path = p ++ [k]) : m.dir = p ∧ m.name = k := by
  have hsame := List.append_inj' h rfl
  exact ⟨hsame.1, List.singleton_inj.mp hsame.2⟩

theorem IsDir.append (h : IsDir t p) (ms : List (Make κ β)) : IsDir (t ++ ms) p := by
  rcases h with h | ⟨m, hm, h⟩
  · exact .inl h
  · exact .inr ⟨m, List.mem_append_left _ hm, h⟩

theorem IsDir.made (h : m.content = none) (hm : m ∈ t) : IsDir t m.path := .inr ⟨m, hm, rfl, h⟩

theorem IsDir.of_snoc (h : IsDir (t ++ [m]) p) : IsDir t p ∨ p = m.path ∧ m.content = none := by
  rcases h with h | ⟨x, hx, hpath, hnone⟩
  · exact .inl (.inl h)
  · rcases List.mem_append.mp hx with hx | hx
    · exact .inl (.inr ⟨x, hx, hpath, hnone⟩)
    · rw [List.mem_singleton] at hx
      exact .inr ⟨hx ▸ hpath.symm, hx ▸ hnone⟩

theorem based_append : Based t (ms ++ ms') ↔ Based t ms ∧ Based (t ++ ms) ms' := by
  induction ms generalizing t with
  | nil => rw [List.nil_append, List.append_nil, Based, true_and]
  | cons m ms ih =>
    rw [List.cons_append, Based, Based, ih, and_assoc, List.append_assoc, List.singleton_append]

theorem based_snoc : Based t (ms ++ [m]) ↔ Based t ms ∧ IsDir (t ++ ms) m.dir := by
  rw [based_append, Based, Based, and_true]

theorem grown_nil : Grown ([] : List (Make κ β)) := ⟨trivial, List.nodup_nil⟩

/-- A tree grows by what has a directory and a new path. -/
theorem grown_snoc : Grown (t ++ [m]) ↔ Grown t ∧ IsDir t m.dir ∧ m.path ∉ paths t := by
  have hpaths : (paths (t ++ [m])).Nodup ↔ (paths t).Nodup ∧ m.path ∉ paths t := by
    rw [paths_append, show paths [m] = [m.path] from rfl, List.nodup_append]
    simp only [List.nodup_singleton, List.mem_singleton, true_and]
    refine and_congr_right fun _ => ⟨fun h hm => h _ hm _ rfl rfl, fun h a ha b hb hab => ?_⟩
    exact h (by rw [← hb, ← hab]; exact ha)
  constructor
  · intro h
    obtain ⟨hbased, hdir⟩ := based_snoc.mp h.based
    obtain ⟨hdistinct, hnew⟩ := hpaths.mp h.distinct
    exact ⟨⟨hbased, hdistinct⟩, hdir, hnew⟩
  · rintro ⟨h, hdir, hnew⟩
    exact ⟨based_snoc.mpr ⟨h.based, hdir⟩, hpaths.mpr ⟨h.distinct, hnew⟩⟩

/-- What is on the way to a directory is a directory. -/
theorem Grown.isDir_of_append (h : Grown t) (hp : IsDir t (p ++ q)) : IsDir t p := by
  induction q using List.reverseRecOn with
  | nil => rwa [List.append_nil] at hp
  | append_singleton q k ih =>
    refine ih ?_
    clear ih
    induction t using List.reverseRecOn with
    | nil =>
      rcases hp with hp | ⟨x, hx, -⟩
      · rw [← List.append_assoc] at hp
        exact absurd hp (List.append_ne_nil_of_right_ne_nil _ (List.cons_ne_nil _ _))
      · cases hx
    | append_singleton t m iht =>
      obtain ⟨ht, hdir, -⟩ := grown_snoc.mp h
      rcases hp.of_snoc with hp | ⟨hp, -⟩
      · exact (iht ht hp).append [m]
      · rw [← List.append_assoc] at hp
        rw [← (Make.path_eq hp.symm).1]
        exact hdir.append [m]

/-- On the way to what is no directory there is a first name that leads to none. -/
theorem exists_missing (h : ¬ IsDir t p) :
    ∃ q k r, p = q ++ k :: r ∧ IsDir t q ∧ ¬ IsDir t (q ++ [k]) := by
  induction p using List.reverseRecOn with
  | nil => exact absurd (.inl rfl) h
  | append_singleton p k ih =>
    by_cases hp : IsDir t p
    · exact ⟨p, k, [], rfl, hp, h⟩
    · obtain ⟨q, k', r, rfl, hq, hno⟩ := ih hp
      exact ⟨q, k', r ++ [k], by rw [List.append_assoc, List.cons_append], hq, hno⟩

/-- The parent of what was made is a directory. -/
theorem Grown.isDir_dir (h : Grown t) (hm : m ∈ t) : IsDir t m.dir := by
  induction t using List.reverseRecOn with
  | nil => cases hm
  | append_singleton t x ih =>
    obtain ⟨ht, hdir, -⟩ := grown_snoc.mp h
    rcases List.mem_append.mp hm with hm | hm
    · exact (ih ht hm).append [x]
    · rw [List.mem_singleton] at hm
      rw [hm]
      exact hdir.append [x]

theorem Grown.unique (h : Grown t) (hm : m ∈ t) (hx : x ∈ t) (hp : m.path = x.path) : m = x :=
  List.inj_on_of_nodup_map h.distinct hm hx hp

end LsvmTools.Lib.FileTree
