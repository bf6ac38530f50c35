import LsvmTools.Lib.Trim
import LsvmTools.PolicyReading

/-! # What policy files are accepted

What `LoadPolicy` takes is compared with the grammar of a policy: lines `path:type:pcr`, with
the lines of an included file in the place of its include. The code takes more than that, and
the exact condition for it to keep to the grammar says which lines it must not be given. -/
namespace LsvmTools.PolicyGrammar
open Relation
open Lib.ByteString Lib.Program Lib.Loop Lib.Lines Lib.Trim Lib.Inclusion Strings MeasurePolicy
open PolicyFile PolicyReading
open Grub.Config (isspace hash)

/-! ## Fields -/

def typeName : PolicyEntryType → Bytes
  | .efivar => text "EFIVAR"
  | .peimage => text "PEIMAGE"
  | .binary => text "BINARY"
  | .binary32 => text "BINARY32"
  | .cap => text "CAP"
  | .pcr => text "PCR"

variable (expand : Bytes → Option PathBuf)

/-- The line is `path:type:pcr`, up to blanks around the fields, and stands for the entry. -/
structure IsEntry (l : Bytes) (ent : PolicyEntry) : Prop where
  noNul : (0 : UInt8) ∉ l
  fields : ∃ path type pcr, l = path ++ colon :: (type ++ colon :: pcr) ∧ colon ∉ path ∧
    colon ∉ type ∧ colon ∉ pcr ∧ expand (trim isspace path) = some ⟨ent.path, ent.path_lt⟩ ∧
    trim isspace type = typeName ent.type ∧ trim isspace pcr ≠ [] ∧
    (∀ c ∈ trim isspace pcr, isdigit c = true) ∧ value (trim isspace pcr) = ent.pcr

/-- The third field of a line. -/
def pcrField (l : Bytes) : Bytes := (getNextField (getNextField (getNextField l).2).2).1

/-- The line has no zero byte, two colons, and a `pcr` that begins with a digit. -/
structure WellMade (l : Bytes) : Prop where
  noNul : (0 : UInt8) ∉ l
  colons : l.count colon = 2
  pcr : ((pcrField l).head?.map isdigit) = some true

section Fields

variable {f rest path type pcr l : Bytes}

theorem isspace_colon : isspace colon = false := by decide

theorem not_mem_dropWhile (hf : colon ∉ f) : colon ∉ f.dropWhile isspace :=
  fun h => hf ((List.dropWhile_sublist _).subset h)

theorem takeWhile_field (hf : colon ∉ f) (rest : Bytes) :
    (f ++ colon :: rest).takeWhile (· ≠ colon) = f := by
  rw [List.takeWhile_append_of_pos]
  · simp
  · intro c hc
    simpa using fun h : c = colon => hf (h ▸ hc)

theorem getNextField_colon (hf : colon ∉ f) (rest : Bytes) :
    getNextField (f ++ colon :: rest) = (trim isspace f, rest) := by
  unfold getNextField
  simp only [dropWhile_append_cons isspace_colon, takeWhile_field (not_mem_dropWhile hf), trim]
  rw [List.drop_append, List.drop_of_length_le (Nat.le_add_right _ 1)]
  simp

theorem getNextField_last (hf : colon ∉ f) : getNextField f = (trim isspace f, []) := by
  have htake : (f.dropWhile isspace).takeWhile (· ≠ colon) = f.dropWhile isspace := by
    rw [List.takeWhile_eq_self_iff]
    intro c hc
    simpa using fun h : c = colon => not_mem_dropWhile hf (h ▸ hc)
  unfold getNextField
  simp only [htake, trim]
  rw [List.drop_of_length_le (Nat.le_add_right _ 1)]

theorem not_mem_rdropWhile (hf : colon ∉ f) : colon ∉ f.rdropWhile isspace :=
  fun h => hf ((List.rdropWhile_prefix _ _).subset h)

theorem strlcpy_eq {b : Bytes} {n : Nat} (h : b.length < n) : strlcpy b n = b :=
  List.take_of_length_le (Nat.le_sub_one_of_lt h)

/-- A line with two colons is taken by its three fields. -/
theorem parseEntry_fields (hp : colon ∉ path) (ht : colon ∉ type) (hc : colon ∉ pcr)
    (hl : path.length < maxLine) :
    parseEntry expand (path ++ colon :: (type ++ colon :: pcr)) = (do
      let path ← expand (trim isspace path)
      let type ← typeOf (trim isspace type)
      let pcr ← pcrOf (trim isspace pcr)
      some ⟨path.path, type, pcr, path.length_lt⟩) := by
  have hline : (path ++ colon :: (type ++ colon :: pcr)).rdropWhile isspace =
      path ++ colon :: (type ++ colon :: pcr.rdropWhile isspace) := by
    have h := rdropWhile_append_cons isspace_colon (path ++ colon :: type) pcr
    simpa using h
  unfold parseEntry
  simp only [hline, getNextField_colon hp, getNextField_colon ht,
    getNextField_last (not_mem_rdropWhile hc), trim_rdropWhile, ↓reduceIte]
  rw [strlcpy_eq (Nat.lt_of_le_of_lt (length_trim_le path) hl)]

theorem typeOf_iff {t : PolicyEntryType} : typeOf type = some t ↔ type = typeName t := by
  constructor
  · intro h
    unfold typeOf at h
    split_ifs at h with h1 h2 h3 h4 h5 h6 <;> cases h <;> assumption
  · rintro rfl
    cases t <;> decide

/-! ## Numbers -/

theorem isdigit_cases {c : UInt8} (h : isdigit c = true) :
    isspace c = false ∧ c ≠ 45 ∧ c ≠ 43 := by
  simp only [isdigit, Bool.and_eq_true, decide_eq_true_eq, UInt8.le_iff_toNat_le] at h
  simp only [isspace, Bool.or_eq_false_iff, Bool.and_eq_false_iff, decide_eq_false_iff_not,
    UInt8.le_iff_toNat_le, ne_eq, ← UInt8.toNat_inj]
  simp only [UInt8.reduceToNat] at h ⊢
  omega

/-- A string that begins with a digit is taken up to the first character that is none. -/
theorem strtoul_digits (h : (f.head?.map isdigit) = some true) :
    strtoul f = (if 2 ^ 64 ≤ value (f.takeWhile isdigit) then 2 ^ 64 - 1
      else value (f.takeWhile isdigit), f.dropWhile isdigit) := by
  cases f with
  | nil => cases h
  | cons c f =>
    have hc : isdigit c = true := Option.some.inj h
    obtain ⟨hs, hm, hp⟩ := isdigit_cases hc
    have hblank : (c :: f).dropWhile isspace = c :: f := by
      rw [List.dropWhile_cons_of_neg (by simp [hs])]
    have hdigits : (c :: f).takeWhile isdigit ≠ [] := by
      rw [List.takeWhile_cons_of_pos hc]
      exact List.cons_ne_nil _ _
    unfold strtoul
    simp only [hblank, List.head?_cons, Option.some.injEq, hm, hp, or_self, ↓reduceIte, hdigits]
    rw [List.dropWhile_eq_drop_findIdx_not, List.takeWhile_eq_take_findIdx_not]
    simp

theorem pcrOf_iff {k : Fin maxPcrs} (h : (f.head?.map isdigit) = some true) :
    pcrOf f = some k ↔ (∀ c ∈ f, isdigit c = true) ∧ value f = k := by
  have hrest : f.dropWhile isdigit = [] ↔ ∀ c ∈ f, isdigit c = true := List.dropWhile_eq_nil_iff
  unfold pcrOf
  rw [strtoul_digits h]
  dsimp only
  by_cases hall : ∀ c ∈ f, isdigit c = true
  · have htake : f.takeWhile isdigit = f := List.takeWhile_eq_self_iff.mpr hall
    rw [htake, hrest.mpr hall]
    have hmax : maxPcrs = 16 := rfl
    have hk : k.val < maxPcrs := k.isLt
    simp only [and_iff_right hall]
    split_ifs <;> simp only [Option.some.injEq, Fin.ext_iff, false_iff] <;> omega
  · have hne : f.dropWhile isdigit ≠ [] := fun hd => hall (hrest.mp hd)
    split_ifs <;> simp [hall]

end Fields

/-! ## Entries -/

section Entries

variable {expand} {l : Bytes} {ent : PolicyEntry}

/-- A line with two colons has three fields. -/
theorem exists_fields (h : l.count colon = 2) : ∃ path type pcr,
    l = path ++ colon :: (type ++ colon :: pcr) ∧ colon ∉ path ∧ colon ∉ type ∧ colon ∉ pcr := by
  have h1 : colon ∈ l := List.count_pos_iff.mp (by omega)
  obtain ⟨path, rest, rfl, hp⟩ := List.eq_append_cons_of_mem h1
  rw [List.count_append, List.count_cons_self, List.count_eq_zero_of_not_mem hp] at h
  have h2 : colon ∈ rest := List.count_pos_iff.mp (by omega)
  obtain ⟨type, pcr, rfl, ht⟩ := List.eq_append_cons_of_mem h2
  rw [List.count_append, List.count_cons_self, List.count_eq_zero_of_not_mem ht] at h
  exact ⟨path, type, pcr, rfl, hp, ht, List.count_eq_zero.mp (by omega)⟩

theorem pcrField_eq {path type pcr : Bytes} (hp : colon ∉ path) (ht : colon ∉ type)
    (hc : colon ∉ pcr) : pcrField (path ++ colon :: (type ++ colon :: pcr)) = trim isspace pcr := by
  unfold pcrField
  rw [getNextField_colon hp, getNextField_colon ht, getNextField_last hc]

theorem parse_fields_iff {path type pcr : Bytes} (hp : colon ∉ path) (ht : colon ∉ type)
    (hc : colon ∉ pcr) (hl : path.length < maxLine)
    (hd : ((trim isspace pcr).head?.map isdigit) = some true) :
    parseEntry expand (path ++ colon :: (type ++ colon :: pcr)) = some ent ↔
      expand (trim isspace path) = some ⟨ent.path, ent.path_lt⟩ ∧
        trim isspace type = typeName ent.type ∧ (∀ c ∈ trim isspace pcr, isdigit c = true) ∧ value (trim isspace pcr) = ent.pcr := by
  rw [parseEntry_fields expand hp ht hc hl, ← pcrOf_iff hd, ← typeOf_iff]
  simp only [Option.bind_eq_bind, Option.bind_eq_some_iff, Option.some.injEq]
  constructor
  · rintro ⟨path', hpath, type', htype, pcr', hpcr, rfl⟩
    exact ⟨hpath, htype, hpcr⟩
  · rintro ⟨hpath, htype, hpcr⟩
    exact ⟨_, hpath, _, htype, _, hpcr, rfl⟩

theorem head_digit {f : Bytes} (hne : f ≠ []) (h : ∀ c ∈ f, isdigit c = true) :
    (f.head?.map isdigit) = some true := by
  cases f with
  | nil => exact absurd rfl hne
  | cons c f => exact congrArg some (h c (List.mem_cons_self ..))

theorem ne_nil_of_head {f : Bytes} (h : (f.head?.map isdigit) = some true) : f ≠ [] := by
  rintro rfl
  cases h

/-- The grammar is what is taken of well-made lines. -/
theorem isEntry_iff (hl : l.length < maxLine) :
    IsEntry expand l ent ↔ WellMade l ∧ parseEntry expand l = some ent := by
  constructor
  · rintro ⟨hz, path, type, pcr, rfl, hp, ht, hc, hpath, htype, hne, hall, hval⟩
    have hd := head_digit hne hall
    have hlen : path.length < maxLine := by rw [List.length_append] at hl; omega
    refine ⟨⟨hz, ?_, by rwa [pcrField_eq hp ht hc]⟩,
      (parse_fields_iff hp ht hc hlen hd).mpr ⟨hpath, htype, hall, hval⟩⟩
    simp [List.count_eq_zero_of_not_mem, hp, ht, hc]
  · rintro ⟨hw, h⟩
    obtain ⟨path, type, pcr, rfl, hp, ht, hc⟩ := exists_fields hw.colons
    have hlen : path.length < maxLine := by rw [List.length_append] at hl; omega
    have hd : ((trim isspace pcr).head?.map isdigit) = some true := by
      rw [← pcrField_eq hp ht hc]
      exact hw.pcr
    obtain ⟨hpath, htype, hall, hval⟩ := (parse_fields_iff hp ht hc hlen hd).mp h
    exact ⟨hw.noNul, path, type, pcr, rfl, hp, ht, hc, hpath, htype, ne_nil_of_head hd, hall, hval⟩

end Entries

/-! ## Strings -/

section Strings

variable {expand} {strs : List Bytes} {policy policy' : Policy}

theorem not_entry_of_line {l : Bytes} (h : startsWith l "#line" = true) : entryLine l = false := by
  simp [entryLine, startsWith_head h]

variable {p : Bytes} {rest : List Bytes}

theorem policy_ext (h : policy.entries = policy'.entries) : policy = policy' := by
  obtain ⟨entries, hle⟩ := policy
  obtain ⟨entries', hle'⟩ := policy'
  cases h
  rfl

theorem parseLines_line (h : startsWith p "#line" = true) :
    parseLines expand (p :: rest) policy = .ok policy' ↔
      parseLineDirective p ≠ none ∧ parseLines expand rest policy = .ok policy' := by
  rw [parseLines, if_pos h]
  cases parseLineDirective p with
  | none => simp [Out.ofOption]
  | some filename => simp [Out.ofOption]

theorem parseLines_comment (hl : startsWith p "#line" = false) (h : entryLine p = false) :
    parseLines expand (p :: rest) policy = parseLines expand rest policy := by
  have hhash : p.head? = some hash := by simpa [entryLine] using h
  rw [parseLines, hl, if_neg Bool.false_ne_true, if_pos hhash]

theorem parseLines_entry (h : entryLine p = true) :
    parseLines expand (p :: rest) policy = .ok policy' ↔ ∃ ent hn,
      parseEntry expand p = some ent ∧
        parseLines expand rest (addEntry policy ent hn) = .ok policy' := by
  have hhash : p.head? ≠ some hash := by simpa [entryLine] using h
  have hl : ¬ startsWith p "#line" = true := fun hs => hhash (startsWith_head hs)
  rw [parseLines, if_neg hl, if_neg hhash]
  by_cases hn : policy.entries.length = 16
  · simp [hn]
  · rw [dif_neg hn]
    cases parseEntry expand p with
    | none => simp [Out.ofOption]
    | some ent => simp [Out.ofOption, hn]

theorem entries_full {ents : List PolicyEntry} {ent : PolicyEntry}
    (h : policy'.entries = policy.entries ++ ent :: ents) : policy.entries.length ≠ 16 := by
  have hle := policy'.nentries_le
  rw [h, List.length_append, List.length_cons] at hle
  omega

/-- What the loop over the strings accepts. -/
theorem parseLines_ok : parseLines expand strs policy = .ok policy' ↔
    (∀ d ∈ strs, startsWith d "#line" = true → parseLineDirective d ≠ none) ∧
      ∃ ents, List.Forall₂ (fun l ent => parseEntry expand l = some ent)
        (strs.filter entryLine) ents ∧ policy'.entries = policy.entries ++ ents := by
  induction strs generalizing policy with
  | nil =>
    simp only [parseLines, Out.pure_eq, Out.ok.injEq, List.filter_nil, List.forall₂_nil_left_iff,
      List.not_mem_nil, false_implies, implies_true, true_and, exists_eq_left, List.append_nil]
    exact ⟨fun h => h ▸ rfl, fun h => (policy_ext h).symm⟩
  | cons p rest ih =>
    rw [List.forall_mem_cons]
    cases hl : startsWith p "#line" with
    | true =>
      rw [parseLines_line hl, ih, List.filter_cons_of_neg (by simp [not_entry_of_line hl])]
      simp only [forall_const, and_assoc]
    | false =>
      simp only [Bool.false_eq_true, false_implies, true_and]
      cases he : entryLine p with
      | false => rw [parseLines_comment hl he, ih, List.filter_cons_of_neg (by simp [he])]
      | true =>
        rw [parseLines_entry he, List.filter_cons_of_pos he]
        simp only [ih, List.forall₂_cons_left_iff]
        constructor
        · rintro ⟨ent, hn, hp, hd, ents, hents, heq⟩
          refine ⟨hd, ent :: ents, ⟨ent, ents, hp, hents, rfl⟩, ?_⟩
          rw [heq, addEntry, List.append_assoc]
          rfl
        · rintro ⟨hd, _, ⟨ent, ents, hp, hents, rfl⟩, heq⟩
          refine ⟨ent, entries_full heq, hp, hd, ents, hents, ?_⟩
          rw [heq, addEntry, List.append_assoc]
          rfl

end Strings

/-! ## Policies -/

/-- The `#line` directives that are come to in a file: those put in and those of the file. -/
def directives (path is : Bytes) : List Bytes :=
  marks path is ++ ((fgetsAll is).map cstr).filter (startsWith · "#line")

/-- All `#line` directives can be parsed. -/
def DirectivesParse (files : Files) (path : Bytes) : Prop :=
  ∀ q, (pieceSources files).Reaches path q → ∀ is, fopen files q = some is →
    ∀ d ∈ directives q is, parseLineDirective d ≠ none

/-- The policy is the entries of the pieces, the included files spliced in. -/
structure Taken (files : Files) (path : Bytes) (policy : Policy) : Prop where
  entries : ∃ out, (pieceSources files).SplicedFile path out ∧
    List.Forall₂ (fun l ent => parseEntry expand (cstr l) = some ent) (out.filter entryLine)
      policy.entries
  directives : DirectivesParse files path

/-- The grammar of a policy: the includes can be resolved, no line is too long, and the entries
are the lines that are not for comments or includes, in order. -/
structure Accepts (files : Files) (path : Bytes) (policy : Policy) : Prop where
  resolvable : (lineSources files).Resolvable path
  short : ∀ q, (lineSources files).Reaches path q → ∀ is, fopen files q = some is → ShortLines is
  entries : ∃ out, (lineSources files).SplicedFile path out ∧
    List.Forall₂ (IsEntry expand) (out.filter entryLine) policy.entries

/-- The lines of the files are short, and those for entries are well made. -/
def LinesWellMade (files : Files) (path : Bytes) : Prop :=
  ∀ q, (pieceSources files).Reaches path q → ∀ is, fopen files q = some is → ∀ l ∈ textLines is,
    l.length < maxLine ∧ (entryLine l = true → WellMade l)

/-- Policy files are parsed exactly. -/
structure Exactly (files : Files) (path : CStr) : Prop where
  terminates : (loadPolicy expand files path).Terminates
  accepts : ∀ policy, (loadPolicy expand files path).Ends (.ok policy) ↔
    Accepts expand files path.bytes policy

/-- No file that is come to includes itself in a roundabout way. Where a policy would be accepted,
all `#line` directives can be parsed. Where one is taken, its lines are short and well made. -/
structure Careful (files : Files) (path : Bytes) : Prop where
  acyclic : ∀ q, ReflTransGen (pieceSources files).Visits path q →
    ¬ TransGen (pieceSources files).Visits q q
  directives : ∀ policy, Accepts expand files path policy → DirectivesParse files path
  lines : ∀ policy, Taken expand files path policy → LinesWellMade files path

section Policies

variable {expand} {files : Files} {path is d l : Bytes} {out strs : List Bytes} {policy : Policy}

theorem startsWith_include (h : startsWith d "#line" = true) : startsWith d "#include" = false := by
  obtain ⟨rest, rfl⟩ := List.isPrefixOf_iff_prefix.mp h
  rfl

theorem target_line (h : startsWith (cstr l) "#line" = true) : target l = .plain := by
  rw [target, startsWith_include h]
  rfl

theorem resumes_line {line : Nat} {bufs : List Bytes} (h : d ∈ resumes path line bufs) :
    startsWith d "#line" = true := by
  induction bufs generalizing line with
  | nil => cases h
  | cons buf rest ih =>
    rw [resumes] at h
    split at h
    · rcases List.mem_cons.mp h with rfl | h
      · exact lineDirective_line
      · exact ih h
    · exact ih h

theorem directives_line (h : d ∈ directives path is) : startsWith d "#line" = true := by
  rcases List.mem_append.mp h with h | h
  · rcases List.mem_cons.mp h with rfl | h
    · exact lineDirective_line
    · exact resumes_line h
  · exact (List.mem_filter.mp h).2

theorem own_iff {q : Bytes} (h : fopen files q = some is) :
    (pieceSources files).Own q l ↔ l ∈ fgetsAll is ∧ target l = .plain := by
  constructor
  · rintro ⟨ls, hq, hm, ht⟩
    rw [contents_eq h] at hq
    cases hq
    exact ⟨hm, ht⟩
  · rintro ⟨hm, ht⟩
    exact ⟨_, contents_eq h, hm, ht⟩

/-- The strings that begin with `#line` are the directives of the files that are reached. -/
theorem line_string_iff (hout : (pieceSources files).SplicedFile path out)
    (hg : Gathers (FileMarks files path) out strs) :
    d ∈ strs ∧ startsWith d "#line" = true ↔ ∃ q is, (pieceSources files).Reaches path q ∧
      fopen files q = some is ∧ d ∈ directives q is := by
  rw [hg.mem d]
  constructor
  · rintro ⟨hd | ⟨q, hr, is, hf, hd⟩, hline⟩
    · obtain ⟨l, hl, rfl⟩ := List.mem_map.mp hd
      obtain ⟨q, hr, ls, hq, hm, -⟩ := hout.mem_iff.mp hl
      obtain ⟨is, hf, rfl⟩ := fopen_of_contents hq
      exact ⟨q, is, hr, hf, List.mem_append_right _
        (List.mem_filter.mpr ⟨List.mem_map_of_mem hm, hline⟩)⟩
    · exact ⟨q, is, hr, hf, List.mem_append_left _ hd⟩
  · rintro ⟨q, is, hr, hf, hd⟩
    refine ⟨?_, directives_line hd⟩
    rcases List.mem_append.mp hd with hd | hd
    · exact .inr ⟨q, hr, is, hf, hd⟩
    · obtain ⟨hm, hline⟩ := List.mem_filter.mp hd
      obtain ⟨l, hl, rfl⟩ := List.mem_map.mp hm
      exact .inl (List.mem_map_of_mem
        (hout.mem_iff.mpr ⟨q, hr, (own_iff hf).mpr ⟨hl, target_line hline⟩⟩))

theorem filter_cstr (out : List Bytes) :
    (out.map cstr).filter entryLine = (out.filter entryLine).map cstr := by
  rw [List.filter_map]
  congr 1
  exact List.filter_congr fun l _ => entryLine_cstr l

theorem parse_strings_iff (hout : (pieceSources files).SplicedFile path out)
    (hg : Gathers (FileMarks files path) out strs) :
    parseLines expand strs noEntries = .ok policy ↔ Taken expand files path policy := by
  rw [parseLines_ok, hg.entries, filter_cstr]
  constructor
  · rintro ⟨hd, ents, hents, heq⟩
    obtain rfl : policy.entries = ents := heq
    refine ⟨⟨out, hout, List.forall₂_map_left_iff.mp hents⟩, fun q hr is hf d hmem => ?_⟩
    obtain ⟨hs, hline⟩ := (line_string_iff hout hg).mpr ⟨q, is, hr, hf, hmem⟩
    exact hd d hs hline
  · rintro ⟨⟨out', hout', hents⟩, hd⟩
    obtain rfl := hout.unique hout'
    refine ⟨fun d hs hline => ?_, _, List.forall₂_map_left_iff.mpr hents, rfl⟩
    obtain ⟨q, is, hr, hf, hmem⟩ := (line_string_iff hout hg).mp ⟨hs, hline⟩
    exact hd q hr is hf d hmem

/-- What `LoadPolicy` takes. -/
theorem loadPolicy_ok {path : CStr} : (loadPolicy expand files path).Ends (.ok policy) ↔
    Taken expand files path.bytes policy := by
  unfold loadPolicy
  rw [Exec.ends_bind_ok]
  constructor
  · rintro ⟨strs, hr, hp⟩
    obtain ⟨out, hout, hg⟩ := readFile_gathers hr
    exact (parse_strings_iff hout hg).mp (Exec.ends_of.mp hp).symm
  · intro h
    obtain ⟨out, hout, -⟩ := h.entries
    obtain ⟨strs, hr, hg⟩ := readFile_of_spliced hout
    exact ⟨strs, hr, Exec.ends_of.mpr ((parse_strings_iff hout hg).mpr h).symm⟩

theorem loadPolicy_terminates {path : CStr} : (loadPolicy expand files path).Terminates ↔
    (readFile files path.bytes).Terminates := by
  constructor
  · rintro ⟨r, h⟩
    exact ends_of_bind h
  · intro h
    exact h.bind fun strs _ => Exec.terminates_of _

/-! ## The code and the grammar -/

theorem agree_of_short
    (h : ∀ q, (lineSources files).Reaches path q → ∀ is, fopen files q = some is → ShortLines is) :
    (lineSources files).Agree (pieceSources files) path where
  target := rfl
  contents q hr := by
    cases hf : fopen files q with
    | none => simp [lineSources, pieceSources, hf]
    | some is => simp [lineSources, pieceSources, hf, fgetsAll_eq (h q hr is hf)]

theorem agree_of_short_pieces
    (h : ∀ q, (pieceSources files).Reaches path q → ∀ is, fopen files q = some is → ShortLines is) :
    (pieceSources files).Agree (lineSources files) path where
  target := rfl
  contents q hr := by
    cases hf : fopen files q with
    | none => simp [lineSources, pieceSources, hf]
    | some is => simp [lineSources, pieceSources, hf, fgetsAll_eq (h q hr is hf)]

theorem forall₂_iff {α β : Type} {R S : α → β → Prop} {xs : List α} {ys : List β}
    (h : ∀ x ∈ xs, ∀ y, R x y ↔ S x y) : List.Forall₂ R xs ys ↔ List.Forall₂ S xs ys := by
  induction xs generalizing ys with
  | nil => simp
  | cons x xs ih =>
    simp only [List.forall₂_cons_left_iff, h x (List.mem_cons_self ..),
      ih fun y hy => h y (List.mem_cons_of_mem _ hy)]

theorem forall₂_exists {α β : Type} {R : α → β → Prop} {xs : List α} {ys : List β}
    (h : List.Forall₂ R xs ys) {x : α} (hx : x ∈ xs) : ∃ y, R x y := by
  induction h with
  | nil => cases hx
  | cons hr _ ih =>
    rcases List.mem_cons.mp hx with rfl | hx
    · exact ⟨_, hr⟩
    · exact ih hx

theorem target_entry (h : entryLine l = true) : target l = .plain := by
  have hs : ¬ startsWith (cstr l) "#include" = true := by
    intro hs
    obtain ⟨rest, hrest⟩ := List.isPrefixOf_iff_prefix.mp hs
    have hhash : (cstr l).head? = some hash := by rw [← hrest]; rfl
    rw [← entryLine_cstr] at h
    simp [entryLine, hhash] at h
  rw [target, if_neg hs]

/-- Among short lines, the grammar and the code differ in what is well made. -/
theorem entries_iff (hshort : ∀ l ∈ out, l.length < maxLine) {ents : List PolicyEntry} :
    List.Forall₂ (IsEntry expand) (out.filter entryLine) ents ↔
      List.Forall₂ (fun l ent => parseEntry expand (cstr l) = some ent) (out.filter entryLine)
        ents ∧ ∀ l ∈ out, entryLine l = true → WellMade l := by
  have hiff : ∀ l ∈ out.filter entryLine, ∀ ent, IsEntry expand l ent ↔
      WellMade l ∧ parseEntry expand (cstr l) = some ent := by
    intro l hl ent
    rw [isEntry_iff (hshort l (List.mem_filter.mp hl).1)]
    exact and_congr_right fun hw => by rw [cstr_eq hw.noNul]
  constructor
  · intro h
    have hw : ∀ l ∈ out, entryLine l = true → WellMade l := by
      intro l hl he
      have hm := List.mem_filter.mpr ⟨hl, he⟩
      obtain ⟨ent, hent⟩ := forall₂_exists h hm
      exact ((hiff l hm ent).mp hent).1
    refine ⟨(forall₂_iff fun l hl ent => ?_).mp h, hw⟩
    rw [hiff l hl ent]
    obtain ⟨hm, he⟩ := List.mem_filter.mp hl
    exact and_iff_right (hw l hm he)
  · rintro ⟨h, hw⟩
    refine (forall₂_iff fun l hl ent => ?_).mpr h
    rw [hiff l hl ent]
    obtain ⟨hm, he⟩ := List.mem_filter.mp hl
    exact and_iff_right (hw l hm he)

theorem short_of_lines {out : List Bytes} (hout : (lineSources files).SplicedFile path out)
    (h : ∀ q, (lineSources files).Reaches path q → ∀ is, fopen files q = some is → ShortLines is) :
    ∀ l ∈ out, l.length < maxLine := by
  intro l hl
  obtain ⟨q, hr, ls, hq, hm, -⟩ := hout.mem_iff.mp hl
  obtain ⟨is, hf, rfl⟩ := Option.map_eq_some_iff.mp hq
  exact h q hr is hf l hm

theorem mem_of_line {q : Bytes} (hout : (lineSources files).SplicedFile path out)
    (hr : (lineSources files).Reaches path q) (hf : fopen files q = some is)
    (hl : l ∈ textLines is) (he : entryLine l = true) : l ∈ out :=
  hout.mem_iff.mpr ⟨q, hr, _, by simp [lineSources, hf], hl, target_entry he⟩

/-- What the grammar accepts, if the directives can be parsed, is what is taken of lines that are
short and well made. -/
theorem accepts_iff_taken : Accepts expand files path policy ∧ DirectivesParse files path ↔
    Taken expand files path policy ∧ LinesWellMade files path := by
  constructor
  · rintro ⟨⟨-, hshort, out, hout, hents⟩, hd⟩
    have hag := agree_of_short hshort
    obtain ⟨htaken, hw⟩ := (entries_iff (short_of_lines hout hshort)).mp hents
    refine ⟨⟨⟨out, hag.spliced hout, htaken⟩, hd⟩, fun q hr is hf l hl => ?_⟩
    have hr' := hag.reaches.mp hr
    exact ⟨hshort q hr' is hf l hl, fun he => hw l (mem_of_line hout hr' hf hl he) he⟩
  · rintro ⟨⟨⟨out, hout, hents⟩, hd⟩, hlines⟩
    have hag := agree_of_short_pieces fun q hr is hf l hl => (hlines q hr is hf l hl).1
    have hout' := hag.spliced hout
    have hshort : ∀ q, (lineSources files).Reaches path q → ∀ is, fopen files q = some is →
        ShortLines is := fun q hr is hf l hl => (hlines q (hag.reaches.mp hr) is hf l hl).1
    refine ⟨⟨hout'.resolvable, hshort, out, hout', ?_⟩, hd⟩
    refine (entries_iff (short_of_lines hout' hshort)).mpr ⟨hents, fun l hl he => ?_⟩
    obtain ⟨q, hr, ls, hq, hm, -⟩ := hout'.mem_iff.mp hl
    obtain ⟨is, hf, rfl⟩ := Option.map_eq_some_iff.mp hq
    exact (hlines q (hag.reaches.mp hr) is hf l hm).2 he

end Policies

/-- The one file `p`, with the line `a:CAP:` and no newline. -/
def emptyPcr : Files := [(text "p", text "a:CAP:")]

/-- Expansion where there are no variables. -/
def keep (b : Bytes) : Option PathBuf :=
  if h : b.length < maxLine ∧ (0 : UInt8) ∉ b then some ⟨⟨b, h.2⟩, h.1⟩ else none

theorem noNul_p : (0 : UInt8) ∉ text "p" := by decide

/-- The empty `pcr` is taken for 0. -/
theorem emptyPcr_taken :
    ((loadPolicy keep emptyPcr ⟨text "p", noNul_p⟩).run 1).map
      (Out.passes fun policy => decide (policy.entries.map (fun ent => ent.pcr) = [0])) =
        some true := by decide +kernel

end LsvmTools.PolicyGrammar
