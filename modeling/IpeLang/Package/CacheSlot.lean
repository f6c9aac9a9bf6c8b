import IpeLang.Lib.PathText
import IpeLang.Package.Lockfile
import Mathlib

/-!
# The slots of the package cache

Where a fetched package is kept, from `resolve.rs` of `ipe-cli`: a directory below
`.ipe/packages` of the project, named by the key of the package and its slot.

* `CacheSlot.key_injective`: two slots have one key only if they are the same slot of the same package;
* `components_cache_dir`: a key is a single name, so that a slot is one level below the tree.
-/

namespace IpeLang.Package

open IpeLang.Lib Semver PathText

/-! ### Keys -/

/-- Which fetched source a directory of the cache holds. -/
inductive CacheSlot
  | Index (version : PublishedVersion)
  | Escape (pinned : PinnedRev)
  | EscapeFetch
  deriving DecidableEq

/-- The name of the directory of a slot. -/
def CacheSlot.key [Library] (name : PackageName) : CacheSlot → Str
  | .Index version => name.raw ++ '-' :: display version
  | .Escape pinned => ".git-".toList ++ name.raw ++ '-' :: pinned.raw
  | .EscapeFetch => ".fetch-".toList ++ name.raw

theorem CacheSlot.key_index [Library] (name : PackageName) (version : PublishedVersion) :
    (CacheSlot.Index version).key name = name.raw ++ '-' :: display version := rfl

theorem CacheSlot.key_escape [Library] (name : PackageName) (pinned : PinnedRev) :
    (CacheSlot.Escape pinned).key name = ".git-".toList ++ name.raw ++ '-' :: pinned.raw := rfl

/-- The directory of a slot of a package. -/
def cache_dir [Library] (project_root : Str) (name : PackageName) (slot : CacheSlot) : Str :=
  join (join (join project_root ".ipe".toList) "packages".toList) (slot.key name)

/-- The slot of a locked dependency. What is read in place has none. -/
def LockedDep.slot (dep : LockedDep) : Option CacheSlot :=
  match dep.origin with
  | .git _ rev => some (.Escape rev)
  | .index _ _ => some (.Index dep.version)
  | .path _ => none

/-- The directory of a locked dependency. -/
def dep_cache_dir [Library] (project_root : Str) (dep : LockedDep) : Option Str :=
  dep.slot.map (cache_dir project_root dep.name)

theorem isIdentsChar_of_isNameByte {c : Char} (h : isNameByte c = true) :
    isIdentsChar c = true := by
  unfold isNameByte isAsciiLowercase at h
  unfold isIdentsChar isIdentChar Char.isAlphanum Char.isAlpha Char.isLower
  simp only [Bool.or_eq_true, Bool.and_eq_true, decide_eq_true_eq, beq_iff_eq] at h ⊢
  rcases h with (⟨h₁, h₂⟩ | h) | h
  · exact Or.inl (Or.inl (Or.inl (Or.inr ⟨h₁, h₂⟩)))
  · exact Or.inl (Or.inl (Or.inr h))
  · exact Or.inl (Or.inr h)

theorem isNameByte_of_isDigit {c : Char} (h : c.isDigit = true) : isNameByte c = true := by
  simp [isNameByte, h]

theorem isNameByte_of_isLowerHex {c : Char} (h : isLowerHex c = true) : isNameByte c = true := by
  unfold isLowerHex at h
  unfold isNameByte isAsciiLowercase
  simp only [Bool.or_eq_true, Bool.and_eq_true, decide_eq_true_eq] at h ⊢
  rcases h with h | ⟨h₁, h₂⟩
  · exact Or.inl (Or.inr h)
  · exact Or.inl (Or.inl ⟨h₁, h₂.trans (by decide)⟩)

theorem PinnedRev.isLowerHex_of_mem_raw (r : PinnedRev) {c : Char} (h : c ∈ r.raw) :
    isLowerHex c = true :=
  List.all_eq_true.1 ((Bool.and_eq_true _ _).mp r.valid).2 c h

/-- The characters of a key are those of a version. -/
theorem CacheSlot.isIdentsChar_of_mem_key [Library] {name : PackageName} {slot : CacheSlot} {c : Char}
    (h : c ∈ slot.key name) : isIdentsChar c = true := by
  have hname : c ∈ name.raw → isIdentsChar c = true := fun hc =>
    isIdentsChar_of_isNameByte (name.isNameByte_of_mem_raw hc)
  have hpre : c ∈ ".git-".toList ++ ".fetch-".toList → isIdentsChar c = true := by
    have hall : (".git-".toList ++ ".fetch-".toList).all isIdentsChar = true := by decide
    exact List.all_eq_true.1 hall c
  cases slot with
  | Index version =>
    rcases List.mem_append.1 h with h | h
    · exact hname h
    · rcases List.mem_cons.1 h with rfl | h
      · rfl
      · exact Library.display_chars _ _ h
  | Escape pinned =>
    rcases List.mem_append.1 h with h | h
    · rcases List.mem_append.1 h with h | h
      · exact hpre (List.mem_append_left _ h)
      · exact hname h
    · rcases List.mem_cons.1 h with rfl | h
      · rfl
      · exact isIdentsChar_of_isNameByte (isNameByte_of_isLowerHex (pinned.isLowerHex_of_mem_raw h))
  | EscapeFetch =>
    rcases List.mem_append.1 h with h | h
    · exact hpre (List.mem_append_right _ h)
    · exact hname h

theorem CacheSlot.dash_mem_key [Library] (name : PackageName) (slot : CacheSlot) : '-' ∈ slot.key name := by
  cases slot with
  | Index version => exact List.mem_append_right _ List.mem_cons_self
  | Escape pinned => exact List.mem_append_right _ List.mem_cons_self
  | EscapeFetch => exact List.mem_append_left _ (by decide)

/-- A key is a single name. -/
theorem CacheSlot.isEntryName_key [Library] (name : PackageName) (slot : CacheSlot) :
    IsEntryName (slot.key name) := by
  have hdash := slot.dash_mem_key name
  constructor
  · exact List.ne_nil_of_mem hdash
  · intro h
    rw [h] at hdash
    revert hdash
    decide
  · intro h
    rw [h] at hdash
    revert hdash
    decide
  · intro h
    cases slot.isIdentsChar_of_mem_key h
  · intro h
    cases slot.isIdentsChar_of_mem_key h
  · intro h
    cases slot.isIdentsChar_of_mem_key h

/-! ### Reading a key back -/

/-- A text is cut at the first occurrence of a character in one way. -/
theorem cut_first {a a' b b' : Str} {x : Char} (ha : x ∉ a) (ha' : x ∉ a')
    (h : a ++ x :: b = a' ++ x :: b') : a = a' ∧ b = b' := by
  have hcut : ∀ {l s : Str}, x ∉ l →
      (l ++ x :: s).takeWhile (· != x) = l ∧ (l ++ x :: s).dropWhile (· != x) = x :: s := by
    intro l s hl
    refine takeWhile_append_of_all (fun c hc => ?_) (by simp)
    simpa using fun hx : c = x => hl (hx ▸ hc)
  obtain ⟨ht, hd⟩ := hcut (s := b) ha
  obtain ⟨ht', hd'⟩ := hcut (s := b') ha'
  rw [h] at ht hd
  exact ⟨ht.symm.trans ht', List.tail_eq_of_cons_eq (hd.symm.trans hd')⟩

/-- A text is cut at the last occurrence of a character in one way. -/
theorem cut_last {a a' b b' : Str} {x : Char} (hb : x ∉ b) (hb' : x ∉ b')
    (h : a ++ x :: b = a' ++ x :: b') : a = a' ∧ b = b' := by
  have hrev : b.reverse ++ x :: a.reverse = b'.reverse ++ x :: a'.reverse := by
    simpa using congrArg List.reverse h
  obtain ⟨hb, ha⟩ := cut_first (by simpa using hb) (by simpa using hb') hrev
  exact ⟨List.reverse_injective ha, List.reverse_injective hb⟩

theorem not_mem_of_isNameByte {s : Str} (h : ∀ c ∈ s, isNameByte c = true) : '.' ∉ s := by
  intro hmem
  cases h _ hmem

theorem dash_not_mem_decimal (n : ℕ) : '-' ∉ decimal n := by
  intro hmem
  cases isDigit_of_mem_decimal hmem

theorem PinnedRev.dash_not_mem_raw (r : PinnedRev) : '-' ∉ r.raw := by
  intro hmem
  cases r.isLowerHex_of_mem_raw hmem

theorem display_injective [Library] {v v' : Version} (h : display v = display v') : v = v' := by
  have hparse := congrArg Semver.parse h
  rw [parse_display, parse_display] at hparse
  simpa using hparse

theorem PinnedRev.raw_injective {r r' : PinnedRev} (h : r.raw = r'.raw) : r = r' := by
  obtain ⟨raw, valid⟩ := r
  obtain ⟨raw', valid'⟩ := r'
  cases h
  rfl

/-- The version starts at the last dash before the first dot. -/
theorem index_key_injective [Library] {name name' : PackageName} {version version' : PublishedVersion}
    (h : (CacheSlot.Index version).key name = (CacheSlot.Index version').key name') :
    name = name' ∧ version = version' := by
  have hcut : ∀ (n : PackageName) (v : PublishedVersion), ∃ rest,
      display v = decimal v.major ++ '.' :: rest ∧
        (CacheSlot.Index v).key n = (n.raw ++ '-' :: decimal v.major) ++ '.' :: rest := by
    intro n v
    obtain ⟨rest, hrest⟩ := Library.display_major v
    refine ⟨rest, hrest, ?_⟩
    rw [CacheSlot.key_index, hrest, List.append_assoc]
    rfl
  have hdot : ∀ (n : PackageName) (v : PublishedVersion), '.' ∉ n.raw ++ '-' :: decimal v.major := by
    intro n v
    refine not_mem_of_isNameByte fun c hc => ?_
    rcases List.mem_append.1 hc with hc | hc
    · exact n.isNameByte_of_mem_raw hc
    · rcases List.mem_cons.1 hc with rfl | hc
      · rfl
      · exact isNameByte_of_isDigit (isDigit_of_mem_decimal hc)
  obtain ⟨rest, hv, hk⟩ := hcut name version
  obtain ⟨rest', hv', hk'⟩ := hcut name' version'
  rw [hk, hk'] at h
  obtain ⟨hfront, hrest⟩ := cut_first (hdot name version) (hdot name' version') h
  obtain ⟨hname, hmajor⟩ := cut_last (dash_not_mem_decimal _) (dash_not_mem_decimal _) hfront
  exact ⟨PackageName.raw_injective hname, display_injective (by rw [hv, hv', hmajor, hrest])⟩

theorem escape_key_injective [Library] {name name' : PackageName} {pinned pinned' : PinnedRev}
    (h : (CacheSlot.Escape pinned).key name = (CacheSlot.Escape pinned').key name') :
    name = name' ∧ pinned = pinned' := by
  rw [CacheSlot.key_escape, CacheSlot.key_escape] at h
  obtain ⟨hfront, hraw⟩ := cut_last pinned.dash_not_mem_raw pinned'.dash_not_mem_raw h
  exact ⟨PackageName.raw_injective (List.append_cancel_left hfront), PinnedRev.raw_injective hraw⟩

/-- A package name has no dot at its start, unlike the key of an escape. -/
theorem head?_index_key [Library] (name : PackageName) (version : PublishedVersion) :
    ((CacheSlot.Index version).key name).head? ≠ some '.' := by
  obtain ⟨first, rest, hraw, hfirst, -⟩ := name.exists_raw
  intro h
  rw [CacheSlot.key_index, hraw, List.cons_append, List.head?_cons] at h
  cases h
  cases hfirst

/-- Two slots have one key only if they are the same slot of the same package. -/
theorem CacheSlot.key_injective [Library] {name name' : PackageName} {slot slot' : CacheSlot}
    (h : slot.key name = slot'.key name') : name = name' ∧ slot = slot' := by
  cases slot with
  | Index version =>
    cases slot' with
    | Index version' =>
      obtain ⟨rfl, rfl⟩ := index_key_injective h
      exact ⟨rfl, rfl⟩
    | Escape pinned' => exact absurd (congrArg List.head? h) (head?_index_key name version)
    | EscapeFetch => exact absurd (congrArg List.head? h) (head?_index_key name version)
  | Escape pinned =>
    cases slot' with
    | Index version' => exact absurd (congrArg List.head? h.symm) (head?_index_key name' version')
    | Escape pinned' =>
      obtain ⟨rfl, rfl⟩ := escape_key_injective h
      exact ⟨rfl, rfl⟩
    | EscapeFetch => cases congrArg (List.drop 1) h
  | EscapeFetch =>
    cases slot' with
    | Index version' => exact absurd (congrArg List.head? h.symm) (head?_index_key name' version')
    | Escape pinned' => cases congrArg (List.drop 1) h
    | EscapeFetch => exact ⟨PackageName.raw_injective (List.append_cancel_left h), rfl⟩

/-! ### Directories -/

theorem isEntryName_ipe : IsEntryName ".ipe".toList := by
  constructor <;> decide

theorem isEntryName_packages : IsEntryName "packages".toList := by
  constructor <;> decide

/-- A slot is a directory right below the tree of the cache. -/
theorem components_cache_dir [Library] (project_root : Str) (name : PackageName) (slot : CacheSlot) :
    components (cache_dir project_root name slot) = components project_root ++
      [.Normal ".ipe".toList, .Normal "packages".toList, .Normal (slot.key name)] := by
  unfold cache_dir
  rw [(slot.isEntryName_key name).components_join, isEntryName_packages.components_join,
    isEntryName_ipe.components_join]
  simp

/-- No two slots share a directory, and each is one component below the tree of the cache. -/
theorem cache_dir_slots [Library] (project_root : Str) :
    (∀ (name name' : PackageName) (slot slot' : CacheSlot),
      components (cache_dir project_root name slot) =
        components (cache_dir project_root name' slot') ↔ name = name' ∧ slot = slot') ∧
    ∀ (name : PackageName) (slot : CacheSlot), ∃ key, IsEntryName key ∧
      components (cache_dir project_root name slot) = components project_root ++
        [.Normal ".ipe".toList, .Normal "packages".toList, .Normal key] := by
  constructor
  · intro name name' slot slot'
    constructor
    · intro h
      rw [components_cache_dir, components_cache_dir] at h
      have hkey : slot.key name = slot'.key name' := by
        simpa using List.append_cancel_left h
      exact CacheSlot.key_injective hkey
    · rintro ⟨rfl, rfl⟩
      rfl
  · intro name slot
    exact ⟨slot.key name, slot.isEntryName_key name, components_cache_dir project_root name slot⟩

end IpeLang.Package
