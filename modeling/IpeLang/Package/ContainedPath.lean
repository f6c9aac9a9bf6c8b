import IpeLang.Lib.PathText

/-!
# Paths inside a project root

`ContainedRelPath::parse` of `ipe-cli/src/contained_path.rs`, over a tree of files with symbolic
links. A path that exists is resolved; otherwise the deepest ancestor that can be resolved is, and
the rest of the names are put behind it as they are, each with a separator after it. A path is what a
walk reads of its text, so that the separator at its end is the step `.CurDir` into a directory.

* `ContainedRelPath.parse`, `parse_spec`: the code, and what it answers;
* `Behind`: the names that are put behind an ancestor;
* `Contained`, `parse_contained`: what is found at an accepted path, and what is made on the way to it,
  is below the root.
-/

namespace IpeLang.Package.ContainedPath

open Lib (Str)
open Lib.FileTree
open Lib.FileTree.FileSystem
open Lib.PathText (components walked join)

inductive PathEscape
  | ParentTraversal
  | Absolute
  | NotUnderRoot
  deriving DecidableEq

/-- The first component that is refused before the file system is looked at. -/
def refused : Path Str → Option PathEscape
  | [] => none
  | .RootDir :: _ => some .Absolute
  | .ParentDir :: _ => some .ParentTraversal
  | .CurDir :: rest => refused rest
  | .Normal _ :: rest => refused rest

/-- The deepest ancestor that can be resolved, and the tail below it. The components of the ancestor come
last first; a separator at its end is no component. The tail starts as the empty path, which leaves a
separator behind the name that it is joined to. -/
def deepest (fs : FileSystem Str) (ancestor tail : Path Str) : Option (Loc Str × Path Str) :=
  match fs.canonicalize ancestor.reverse with
  | some canon => some (canon, tail)
  | none =>
    match ancestor with
    | .Normal name :: parent => deepest fs parent (.Normal name :: tail)
    | .CurDir :: .Normal name :: parent => deepest fs parent (.Normal name :: tail)
    | _ => none

def ContainedRelPath.parse (fs : FileSystem Str) (root raw : Str) : Except PathEscape (Path Str) :=
  match refused (components raw) with
  | some e => .error e
  | none =>
    let joined := walked (join root raw)
    match fs.canonicalize (walked root) with
    | none => .error .NotUnderRoot
    | some canon_root =>
      match fs.canonicalize joined with
      | some canon_joined =>
        if canon_root <+: canon_joined then .ok (pathOf canon_joined) else .error .NotUnderRoot
      | none =>
        match deepest fs joined.reverse [.CurDir] with
        | none => .error .NotUnderRoot
        | some (canon_existing, tail) =>
          if canon_root <+: canon_existing then .ok (pathOf canon_existing ++ tail) else .error .NotUnderRoot

/-! ### The ancestor -/

variable {fs : FileSystem Str}

theorem canonicalize_append {front : Path Str} {base : Loc Str} (h : fs.canonicalize front = some base)
    (back : Path Str) : fs.canonicalize (front ++ back) = fs.walk fs.follow base back := by
  unfold canonicalize at h ⊢
  split_ifs at h with hnil
  rw [if_neg fun h => hnil (List.append_eq_nil_iff.1 h).1, walk_append, h, Option.bind_some]

/-- A name behind an ancestor that leads into no directory. -/
structure Behind (fs : FileSystem Str) (base : Loc Str) (name : Str) : Prop where
  canon : fs.Canon base
  stuck : ∀ l, fs.step fs.follow base (.Normal name) = some l → fs.kind l ≠ some .dir

/-- The path of names behind an ancestor, with the separator after the last one. -/
def behindPath (base : Loc Str) (names : List Str) : Path Str := pathOf (base ++ names) ++ [.CurDir]

/-- Where a path that is not found leaves its parent. -/
theorem behind_of_parent {parent back : Path Str} {name : Str} {base : Loc Str}
    (hparent : fs.canonicalize parent.reverse = some base) (hback : back = [] ∨ back = [.CurDir])
    (hnone : fs.canonicalize (parent.reverse ++ .Normal name :: back) = none) : Behind fs base name where
  canon := canonicalize_canon hparent
  stuck := by
    intro l hl hdir
    rw [canonicalize_append hparent, walk_cons, hl, Option.bind_some] at hnone
    rcases hback with rfl | rfl
    · cases hnone
    · have hcur : fs.step fs.follow l .CurDir = some l := if_pos hdir
      rw [walk_singleton, hcur] at hnone
      cases hnone

/-- One name further up, the parent is found, or the search goes on from it. -/
theorem deepest_up {parent back out : Path Str} {name : Str} {names : List Str} {base : Loc Str}
    (hback : back = [] ∨ back = [.CurDir]) (hnone : fs.canonicalize (parent.reverse ++ .Normal name :: back) = none)
    (h : deepest fs parent ((name :: names).map .Normal ++ [.CurDir]) = some (base, out))
    (hrec : fs.canonicalize parent.reverse = none →
      ∃ name rest, pathOf base ++ out = behindPath base (name :: rest) ∧ Behind fs base name) :
    ∃ name rest, pathOf base ++ out = behindPath base (name :: rest) ∧ Behind fs base name := by
  cases hparent : fs.canonicalize parent.reverse with
  | none => exact hrec hparent
  | some canon =>
    unfold deepest at h
    rw [hparent] at h
    cases h
    refine ⟨name, names, ?_, behind_of_parent hparent hback hnone⟩
    unfold behindPath pathOf
    rw [List.map_append, List.cons_append, List.cons_append, List.append_assoc]

theorem deepest_spec {ancestor tail out : Path Str} {names : List Str} {base : Loc Str}
    (htail : tail = names.map .Normal ++ [.CurDir]) (hnone : fs.canonicalize ancestor.reverse = none)
    (h : deepest fs ancestor tail = some (base, out)) :
    ∃ name rest, pathOf base ++ out = behindPath base (name :: rest) ∧ Behind fs base name := by
  fun_induction deepest fs ancestor tail generalizing names with
  | case1 ancestor tail canon hsome => exact absurd (hnone.symm.trans hsome) (by simp)
  | case2 tail name parent _ ih =>
    have hcons : Component.Normal name :: tail = (name :: names).map .Normal ++ [.CurDir] := by rw [htail]; rfl
    rw [List.reverse_cons] at hnone
    exact deepest_up (.inl rfl) hnone (hcons ▸ h) fun hparent => ih hcons hparent h
  | case3 tail name parent _ ih =>
    have hcons : Component.Normal name :: tail = (name :: names).map .Normal ++ [.CurDir] := by rw [htail]; rfl
    rw [List.reverse_cons, List.reverse_cons, List.append_assoc] at hnone
    exact deepest_up (.inr rfl) hnone (hcons ▸ h) fun hparent => ih hcons hparent h
  | case4 => cases h

/-- What `parse` accepts: a path that exists below the root, or names behind an ancestor there. -/
theorem parse_spec {root raw : Str} {canon_root : Loc Str} {p : Path Str}
    (hroot : fs.canonicalize (walked root) = some canon_root) (h : ContainedRelPath.parse fs root raw = .ok p) :
    (∃ q, p = pathOf q ∧ fs.Canon q ∧ canon_root <+: q) ∨
      ∃ base name rest, p = behindPath base (name :: rest) ∧ canon_root <+: base ∧ Behind fs base name := by
  unfold ContainedRelPath.parse at h
  cases hrefused : refused (components raw) with
  | some e => rw [hrefused] at h; cases h
  | none =>
    rw [hrefused, hroot] at h
    dsimp only at h
    cases hjoined : fs.canonicalize (walked (join root raw)) with
    | some canon =>
      rw [hjoined] at h
      dsimp only at h
      split_ifs at h with hunder
      cases h
      exact .inl ⟨canon, rfl, canonicalize_canon hjoined, hunder⟩
    | none =>
      rw [hjoined] at h
      dsimp only at h
      cases hdeepest : deepest fs (walked (join root raw)).reverse [.CurDir] with
      | none => rw [hdeepest] at h; cases h
      | some found =>
        -- The path does not exist: what is behind its deepest ancestor is left as it was written.
        obtain ⟨base, tail⟩ := found
        rw [hdeepest] at h
        dsimp only at h
        split_ifs at h with hunder
        cases h
        rw [← List.reverse_reverse (walked (join root raw))] at hjoined
        have htail : [Component.CurDir] = ([] : List Str).map .Normal ++ [.CurDir] := rfl
        obtain ⟨name, rest, hpath, hbehind⟩ := deepest_spec htail hjoined hdeepest
        exact .inr ⟨base, name, rest, hpath, hunder, hbehind⟩

/-! ### Containment -/

/-- What is found at a path is below the root, now or after something was made on the way to it or at it; and
what is made is below the root. -/
structure Contained (fs : FileSystem Str) (canon_root : Loc Str) (p : Path Str) : Prop where
  now : ∀ q, fs.canonicalize p = some q → canon_root <+: q
  later : ∀ fs', Creates fs p fs' → ∀ q, fs'.canonicalize p = some q → canon_root <+: q
  made : ∀ fs', Creates fs p fs' → ∀ q, fs.kind q = none → fs'.kind q ≠ none → canon_root <+: q

/-- At a path that exists, and on the way to it, nothing is made. -/
theorem eq_of_creates_canon {q : Loc Str} (hq : fs.Canon q) {fs' : FileSystem Str} (h : Creates fs (pathOf q) fs') :
    fs' = fs := by
  cases h with
  | dirs hpath hdirs => exact eq_of_makeDirs hq (prefix_of_pathOf hpath) hdirs
  | @file names name m fs₁ dir d hpath hdirs hleads =>
    obtain rfl := pathOf_injective hpath
    rw [← List.append_nil names, makeDirs_of_canon hq.of_append, makeDirs] at hdirs
    split_ifs at hdirs
    cases hdirs
    exact absurd hq hleads.not_canon

/-- A path that exists below the root is contained. -/
theorem contained_of_canon {canon_root q : Loc Str} (hq : fs.Canon q) (hunder : canon_root <+: q) :
    Contained fs canon_root (pathOf q) := by
  have hfound : ∀ q', fs.canonicalize (pathOf q) = some q' → canon_root <+: q' := by
    intro q' hq'
    rw [canonicalize_of_canon hq] at hq'
    exact Option.some.inj hq' ▸ hunder
  refine ⟨hfound, fun fs' hfs' => ?_, fun fs' hfs' q' hnone hsome => ?_⟩
  · rw [eq_of_creates_canon hq hfs']
    exact hfound
  · rw [eq_of_creates_canon hq hfs'] at hsome
    exact absurd hnone hsome

/-- Names behind an ancestor lead nowhere yet. -/
theorem Behind.canonicalize_eq_none {base : Loc Str} {name : Str} (h : Behind fs base name) (rest : List Str) :
    fs.canonicalize (behindPath base (name :: rest)) = none := by
  have hbase : fs.canonicalize (pathOf base) = some base := canonicalize_of_canon h.canon
  have hpath : behindPath base (name :: rest) = pathOf base ++ (.Normal name :: (rest.map .Normal ++ [.CurDir])) := by
    unfold behindPath pathOf
    simp
  rw [hpath, canonicalize_append hbase, walk_cons]
  cases hstep : fs.step fs.follow base (.Normal name) with
  | none => rfl
  | some l =>
    have hdir := h.stuck l hstep
    rw [Option.bind_some]
    cases rest with
    | nil =>
      have hcur : fs.step fs.follow l .CurDir = none := if_neg hdir
      rw [List.map_nil, List.nil_append, walk_singleton, hcur]
    | cons next rest =>
      have habsent : fs.kind (l ++ [next]) = none := by
        cases hk : fs.kind (l ++ [next]) with
        | none => rfl
        | some k => exact absurd (fs.kind_of_kind_append hk) hdir
      rw [List.map_cons, List.cons_append, walk_cons, step_normal_none habsent, Option.bind_none]

/-- What may be made on the way to names behind an ancestor: nothing, or fresh directories from the first
name on. -/
theorem Behind.creates {base : Loc Str} {name : Str} (h : Behind fs base name) {rest : List Str}
    {fs' : FileSystem Str} (hfs' : Creates fs (behindPath base (name :: rest)) fs') :
    fs' = fs ∨ ∃ front, front <+: rest ∧ MadeBelow fs fs' (base ++ [name]) front := by
  cases hfs' with
  | file hpath =>
    have hmem : Component.CurDir ∈ behindPath base (name :: rest) := List.mem_append_right _ List.mem_cons_self
    exact absurd (hpath ▸ hmem) (curDir_not_mem_pathOf _)
  | @dirs names _ dir hpath hdirs =>
    have hnames : names <+: base ++ name :: rest := prefix_of_pathOf_concat hpath
    rcases List.prefix_or_prefix_of_prefix hnames (List.prefix_append base _) with hinside | ⟨more, rfl⟩
    · exact .inl (eq_of_makeDirs h.canon hinside hdirs)
    · cases more with
      | nil =>
        rw [List.append_nil] at hdirs
        exact .inl (eq_of_makeDirs h.canon List.prefix_rfl hdirs)
      | cons name' front =>
        obtain ⟨rfl, hfront⟩ := List.cons_prefix_cons.1 ((List.prefix_append_right_inj base).1 hnames)
        rw [makeDirs_of_canon h.canon] at hdirs
        by_cases hbase : fs.kind base = some .dir
        · by_cases habsent : fs.kind (base ++ [name']) = none
          · exact .inr ⟨front, hfront, makeDirs_absent hbase habsent hdirs⟩
          · -- a link that leads nowhere, or no directory
            rw [makeDirs_cons_step hbase habsent, Option.bind_eq_some_iff] at hdirs
            obtain ⟨l, hl, hdirs⟩ := hdirs
            rw [makeDirs_not_dir (h.stuck l hl)] at hdirs
            cases hdirs
        · rw [makeDirs_not_dir hbase] at hdirs
          cases hdirs

/-- No link stands on the way through fresh directories. -/
theorem ne_link_of_madeBelow {base : Loc Str} {name : Str} {rest front more : List Str} {fs' : FileSystem Str}
    (hbase : fs.Canon base) (hfront : front <+: rest) (hmade : MadeBelow fs fs' (base ++ [name]) front)
    (hmore : more <+: base ++ name :: rest) (target : Path Str) : fs'.kind more ≠ some (.link target) := by
  rcases List.prefix_or_prefix_of_prefix hmore (List.prefix_append base _) with ⟨back, rfl⟩ | ⟨below, rfl⟩
  · obtain ⟨k, hk, hne⟩ := hbase.of_append
    rw [hmade.kept hk]
    simpa using hne target
  · cases below with
    | nil =>
      obtain ⟨k, hk, hne⟩ := hbase
      rw [List.append_nil, hmade.kept hk]
      simpa using hne target
    | cons name' below =>
      obtain ⟨rfl, hbelow⟩ := List.cons_prefix_cons.1 ((List.prefix_append_right_inj base).1 hmore)
      rw [List.append_cons]
      rcases List.prefix_or_prefix_of_prefix hbelow hfront with hinside | ⟨beyond, rfl⟩
      · rw [hmade.dirs below hinside]
        simp
      · cases beyond with
        | nil =>
          rw [List.append_nil, hmade.dirs front List.prefix_rfl]
          simp
        | cons next beyond =>
          -- nothing is below the last directory that was made
          intro hlink
          rw [← List.append_assoc, List.append_cons] at hlink
          obtain ⟨k, hk⟩ : ∃ k, fs'.kind (base ++ [name'] ++ front ++ [next]) = some k := by
            by_cases hnil : beyond = []
            · rw [hnil, List.append_nil] at hlink
              exact ⟨_, hlink⟩
            · exact ⟨_, kind_of_append hnil hlink⟩
          exact absurd ((hmade.fresh next).symm.trans hk) (by simp)

/-- Where the fresh directories lead. -/
theorem eq_of_madeBelow {base : Loc Str} {name : Str} {rest front : List Str} {fs' : FileSystem Str} {q : Loc Str}
    (hbase : fs.Canon base) (hfront : front <+: rest) (hmade : MadeBelow fs fs' (base ++ [name]) front)
    (hq : fs'.canonicalize (behindPath base (name :: rest)) = some q) : q = base ++ name :: rest := by
  unfold canonicalize behindPath at hq
  rw [if_neg (by simp [pathOf]), walk_append, Option.bind_eq_some_iff] at hq
  obtain ⟨l, hl, hcur⟩ := hq
  have hnames : l = [] ++ (base ++ name :: rest) :=
    eq_of_walk_names (fun more hmore _ target => ne_link_of_madeBelow hbase hfront hmade hmore target) hl
  rw [walk_singleton] at hcur
  unfold step at hcur
  dsimp only at hcur
  split_ifs at hcur
  cases hcur
  exact hnames

/-- Names behind an ancestor below the root are contained. -/
theorem contained_of_behind {canon_root base : Loc Str} {name : Str} {rest : List Str} (h : Behind fs base name)
    (hunder : canon_root <+: base) : Contained fs canon_root (behindPath base (name :: rest)) := by
  have hnone := h.canonicalize_eq_none rest
  refine ⟨fun q hq => ?_, fun fs' hfs' q hq => ?_, fun fs' hfs' q hq hne => ?_⟩
  · rw [hnone] at hq
    cases hq
  · obtain rfl | ⟨front, hfront, hmade⟩ := h.creates hfs'
    · rw [hnone] at hq
      cases hq
    · rw [eq_of_madeBelow h.canon hfront hmade hq]
      exact hunder.trans (List.prefix_append _ _)
  · obtain rfl | ⟨front, -, hmade⟩ := h.creates hfs'
    · exact absurd hq hne
    · exact hunder.trans ((List.prefix_append base [name]).trans (hmade.made q hq hne))

/-- An accepted path is contained. -/
theorem parse_contained {root raw : Str} {canon_root : Loc Str} {p : Path Str}
    (hroot : fs.canonicalize (walked root) = some canon_root) (h : ContainedRelPath.parse fs root raw = .ok p) :
    Contained fs canon_root p := by
  obtain ⟨q, rfl, hq, hunder⟩ | ⟨base, name, rest, rfl, hunder, hbehind⟩ := parse_spec hroot h
  · exact contained_of_canon hq hunder
  · exact contained_of_behind hbehind hunder

/-- The links of `/p`, whose file `x` leads to an absent name of `/o`. -/
def danglingTree : FileSystem Str :=
  ((({ entries := [], cwd := [], tree := by simp [kindIn], cwd_dir := rfl } : FileSystem Str).add [] ['p'] .dir rfl
    rfl).add [] ['o'] .dir (by decide) (by decide)).add [['p']] ['x']
      (.link [.RootDir, .Normal ['o'], .Normal ['y']]) (by decide) (by decide)

theorem parse_contained_dangling :
    Contained danglingTree [['p']] (behindPath [['p']] [['x']]) ∧
    Contained danglingTree [['p']] (behindPath [['p']] [['d'], ['z']]) :=
  ⟨parse_contained (show danglingTree.canonicalize (walked ['/', 'p']) = some [['p']] by decide)
      (show ContainedRelPath.parse danglingTree ['/', 'p'] ['x'] = .ok (behindPath [['p']] [['x']]) by decide),
    parse_contained (show danglingTree.canonicalize (walked ['/', 'p']) = some [['p']] by decide)
      (show ContainedRelPath.parse danglingTree ['/', 'p'] ['d', '/', 'z'] =
        .ok (behindPath [['p']] [['d'], ['z']]) by decide)⟩

end IpeLang.Package.ContainedPath
