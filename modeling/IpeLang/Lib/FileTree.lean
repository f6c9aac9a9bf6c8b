import Mathlib.Tactic
import Mathlib.Data.Finset.Card

/-!
# A tree of files with symbolic links

A place of the tree is the list of names that leads to it from the root, and holds a directory, a
file or a link. A path is walked from a place, name by name; a link is followed from its directory
before the walk goes on. Links may be chained, lead nowhere or lead back to themselves, so following
is iterated: as often as there are entries, which is enough (`follow_eq`).

* `walk`, `follow`, `canonicalize`: full resolution;
* `Canon`, `walk_names`: the places that resolution ends in lead to themselves;
* `add`, `makeDirs`, `Leads`: new directories, and where an absent name is created through links;
* `Creates`: what may be made on the way to a path, and at it.
-/

namespace IpeLang.Lib.FileTree

variable {N : Type}

/-- A place, by the names from the root. -/
abbrev Loc (N : Type) := List N

inductive Component (N : Type)
  | RootDir
  | CurDir
  | ParentDir
  | Normal (name : N)
  deriving DecidableEq

abbrev Path (N : Type) := List (Component N)

inductive Kind (N : Type)
  | dir
  | file
  | link (target : Path N)
  deriving DecidableEq

variable [DecidableEq N]

/-- What the entries have at a place. The root is a directory. -/
def kindIn (entries : List (Loc N × Kind N)) (loc : Loc N) : Option (Kind N) :=
  if loc = [] then some .dir else entries.lookup loc

/-- A finite tree: only directories have something below them. -/
structure FileSystem (N : Type) [DecidableEq N] where
  entries : List (Loc N × Kind N)
  cwd : Loc N
  tree : ∀ (loc : Loc N) (name : N), (kindIn entries (loc ++ [name])).isSome = true →
    kindIn entries loc = some .dir
  cwd_dir : kindIn entries cwd = some .dir

namespace FileSystem

variable (fs : FileSystem N)

def kind (loc : Loc N) : Option (Kind N) := kindIn fs.entries loc

theorem kind_nil : fs.kind [] = some .dir := rfl

theorem kind_of_kind_append {loc : Loc N} {name : N} {k : Kind N} (h : fs.kind (loc ++ [name]) = some k) :
    fs.kind loc = some .dir := by
  refine fs.tree loc name ?_
  show (fs.kind (loc ++ [name])).isSome = true
  rw [h]
  rfl

/-! ### Resolution -/

/-- One component of a walk, given how links are followed from their directory. -/
def step (follow : Loc N → Path N → Option (Loc N)) (loc : Loc N) : Component N → Option (Loc N)
  | .RootDir => some []
  | .CurDir => if fs.kind loc = some .dir then some loc else none
  | .ParentDir => if fs.kind loc = some .dir then some loc.dropLast else none
  | .Normal name =>
    match fs.kind (loc ++ [name]) with
    | none => none
    | some (.link target) => follow loc target
    | some _ => some (loc ++ [name])

def walk (follow : Loc N → Path N → Option (Loc N)) (loc : Loc N) (path : Path N) : Option (Loc N) :=
  path.foldlM (fs.step follow) loc

/-- Following links that are nested in each other at most so deep. -/
def links : ℕ → Loc N → Path N → Option (Loc N)
  | 0 => fun _ _ => none
  | n + 1 => fs.walk (links n)

/-- Following a link. -/
def follow : Loc N → Path N → Option (Loc N) := fs.links (fs.entries.length + 1)

/-- Resolve every link on a path, which fails where a component is missing. -/
def canonicalize (path : Path N) : Option (Loc N) :=
  if path = [] then none else fs.walk fs.follow fs.cwd path

/-! ### Walks -/

variable {fs} {f g : Loc N → Path N → Option (Loc N)} {loc l : Loc N} {path : Path N} {name : N}

@[simp] theorem walk_nil (f : Loc N → Path N → Option (Loc N)) (loc : Loc N) : fs.walk f loc [] = some loc := rfl

theorem walk_cons (f : Loc N → Path N → Option (Loc N)) (loc : Loc N) (c : Component N) (path : Path N) :
    fs.walk f loc (c :: path) = (fs.step f loc c).bind (fs.walk f · path) := rfl

theorem walk_append (f : Loc N → Path N → Option (Loc N)) (loc : Loc N) (front back : Path N) :
    fs.walk f loc (front ++ back) = (fs.walk f loc front).bind (fs.walk f · back) := List.foldlM_append

theorem walk_singleton (f : Loc N → Path N → Option (Loc N)) (loc : Loc N) (c : Component N) :
    fs.walk f loc [c] = fs.step f loc c := by
  rw [walk_cons]
  cases fs.step f loc c <;> rfl

theorem step_normal_eq_some {k : Kind N} (hk : fs.kind (loc ++ [name]) = some k) (hne : ∀ t, k ≠ .link t) :
    fs.step f loc (.Normal name) = some (loc ++ [name]) := by
  unfold step
  dsimp only
  rw [hk]
  cases k with
  | link t => exact absurd rfl (hne t)
  | _ => rfl

theorem step_normal_link {target : Path N} (hk : fs.kind (loc ++ [name]) = some (.link target)) :
    fs.step f loc (.Normal name) = f loc target := by
  unfold step
  dsimp only
  rw [hk]

theorem step_normal_none (hk : fs.kind (loc ++ [name]) = none) : fs.step f loc (.Normal name) = none := by
  unfold step
  dsimp only
  rw [hk]

/-- The steps depend on how the links of the tree are followed. -/
theorem step_congr {c : Component N}
    (h : ∀ name target, fs.kind (loc ++ [name]) = some (.link target) → f loc target = g loc target) :
    fs.step f loc c = fs.step g loc c := by
  cases c with
  | Normal name =>
    cases hk : fs.kind (loc ++ [name]) with
    | none => rw [step_normal_none hk, step_normal_none hk]
    | some k =>
      cases k with
      | link t => rw [step_normal_link hk, step_normal_link hk, h name t hk]
      | _ => rw [step_normal_eq_some hk (by simp), step_normal_eq_some hk (by simp)]
  | _ => rfl

theorem walk_congr (h : ∀ loc name target, fs.kind (loc ++ [name]) = some (.link target) →
    f loc target = g loc target) : fs.walk f loc path = fs.walk g loc path := by
  induction path generalizing loc with
  | nil => rfl
  | cons c path ih =>
    rw [walk_cons, walk_cons, step_congr (h loc)]
    exact congrArg (Option.bind _) (funext fun l => ih)

theorem step_mono {c : Component N} (h : ∀ target l, f loc target = some l → g loc target = some l)
    (hl : fs.step f loc c = some l) : fs.step g loc c = some l := by
  cases c with
  | Normal name =>
    cases hk : fs.kind (loc ++ [name]) with
    | none =>
      rw [step_normal_none hk] at hl
      cases hl
    | some k =>
      cases k with
      | link t =>
        rw [step_normal_link hk] at hl ⊢
        exact h t l hl
      | _ =>
        rw [step_normal_eq_some hk (by simp)] at hl ⊢
        exact hl
  | _ => exact hl

theorem walk_mono (h : ∀ loc target l, f loc target = some l → g loc target = some l)
    (hl : fs.walk f loc path = some l) : fs.walk g loc path = some l := by
  induction path generalizing loc with
  | nil => exact hl
  | cons c path ih =>
    rw [walk_cons, Option.bind_eq_some_iff] at hl ⊢
    obtain ⟨m, hm, hl⟩ := hl
    exact ⟨m, step_mono (h loc) hm, ih hl⟩

/-! ### Following is iterated often enough -/

theorem links_mono_succ (n : ℕ) : ∀ loc target l, fs.links n loc target = some l →
    fs.links (n + 1) loc target = some l := by
  induction n with
  | zero =>
    intro _ _ _ h
    cases h
  | succ n ih => exact fun loc target l h => walk_mono ih h

variable (fs) in
/-- Whether the place holds a link that is followed to its end. -/
def isFollowed (n : ℕ) (loc : Loc N) : Bool :=
  match fs.kind loc with
  | some (.link target) => (fs.links n loc.dropLast target).isSome
  | _ => false

variable (fs) in
/-- The links that are followed to their end. -/
def followed (n : ℕ) : Finset (Loc N) :=
  (fs.entries.map Prod.fst).toFinset.filter fun loc => fs.isFollowed n loc = true

theorem mem_followed {n : ℕ} {target : Path N} (hk : fs.kind (loc ++ [name]) = some (.link target)) :
    loc ++ [name] ∈ fs.followed n ↔ (fs.links n loc target).isSome = true := by
  have hmem : loc ++ [name] ∈ (fs.entries.map Prod.fst).toFinset := by
    have hlookup : fs.entries.lookup (loc ++ [name]) = some (.link target) := by
      unfold kind kindIn at hk
      rwa [if_neg (by simp)] at hk
    rw [List.mem_toFinset, List.mem_map]
    by_contra hno
    rw [List.lookup_eq_none_iff.2 fun p hp => by
      rw [bne_iff_ne]
      exact fun heq => hno ⟨p, hp, heq.symm⟩] at hlookup
    cases hlookup
  unfold followed
  rw [Finset.mem_filter, and_iff_right hmem]
  unfold isFollowed
  rw [hk]
  dsimp only
  rw [List.dropLast_concat]

end FileSystem

/-- A growing sequence of parts of a finite set pauses. -/
theorem exists_pause {A : Type} {S : ℕ → Finset A} {U : Finset A} (hmono : ∀ n, S n ⊆ S (n + 1))
    (hsub : ∀ n, S n ⊆ U) : ∃ n ≤ U.card, S n = S (n + 1) := by
  by_contra hno
  push Not at hno
  have hgrow : ∀ n ≤ U.card + 1, n ≤ (S n).card := by
    intro n
    induction n with
    | zero => exact fun _ => Nat.zero_le _
    | succ n ih =>
      intro hn
      have hlt := Finset.card_lt_card ((hmono n).ssubset_of_ne (hno n (by omega)))
      have := ih (by omega)
      omega
  have hle := Finset.card_le_card (hsub (U.card + 1))
  have := hgrow (U.card + 1) le_rfl
  omega

namespace FileSystem

variable {fs : FileSystem N}

theorem followed_subset_succ (n : ℕ) : fs.followed n ⊆ fs.followed (n + 1) := by
  intro loc hloc
  unfold followed at hloc ⊢
  rw [Finset.mem_filter] at hloc ⊢
  refine ⟨hloc.1, ?_⟩
  have hsome := hloc.2
  unfold isFollowed at hsome ⊢
  cases hk : fs.kind loc with
  | none => rw [hk] at hsome; cases hsome
  | some k =>
    rw [hk] at hsome
    cases k with
    | link target =>
      obtain ⟨l, hl⟩ := Option.isSome_iff_exists.1 hsome
      exact Option.isSome_iff_exists.2 ⟨l, links_mono_succ n _ _ l hl⟩
    | _ => cases hsome

/-- Once no more links are followed, none ever will be. -/
theorem links_eq_of_followed {n : ℕ} (h : fs.followed n = fs.followed (n + 1)) (k : ℕ) :
    fs.links (n + 1 + k) = fs.links (n + 1) := by
  have hlink : ∀ (loc : Loc N) (name : N) (target : Path N), fs.kind (loc ++ [name]) = some (.link target) →
      fs.links n loc target = fs.links (n + 1) loc target := by
    intro loc name target hk
    cases hn : fs.links n loc target with
    | some l => exact (links_mono_succ n _ _ l hn).symm
    | none =>
      have hnot : loc ++ [name] ∉ fs.followed (n + 1) := by
        rw [← h, mem_followed hk, hn]
        exact Bool.false_ne_true
      rw [mem_followed hk, Option.isSome_iff_ne_none, not_not] at hnot
      exact hnot.symm
  induction k with
  | zero => rfl
  | succ k ih =>
    funext loc target
    have hstep : fs.walk (fs.links (n + 1 + k)) loc target = fs.walk (fs.links n) loc target := by
      rw [ih]
      exact walk_congr fun loc name target hk => (hlink loc name target hk).symm
    exact hstep

/-- A link leads where its target is walked to. -/
theorem follow_eq (fs : FileSystem N) : fs.follow = fs.walk fs.follow := by
  obtain ⟨n, hn, hpause⟩ := exists_pause (S := fs.followed) (U := (fs.entries.map Prod.fst).toFinset)
    followed_subset_succ fun n => Finset.filter_subset _ _
  have hcard : n ≤ fs.entries.length := by
    refine hn.trans ((List.toFinset_card_le _).trans ?_)
    rw [List.length_map]
  obtain ⟨k, hk⟩ := Nat.exists_eq_add_of_le hcard
  have hnow : fs.follow = fs.links (n + 1) := by
    unfold follow
    rw [hk, Nat.add_right_comm]
    exact links_eq_of_followed hpause k
  have hnext : fs.links (n + 1) = fs.links (n + 1 + 1) := (links_eq_of_followed hpause 1).symm
  rw [hnow]
  exact hnext

/-! ### Places that lead to themselves -/

variable {f g : Loc N → Path N → Option (Loc N)} {loc l : Loc N} {path : Path N} {name : N}

variable (fs) in
/-- Something is there, and it is no link. -/
def Canon (loc : Loc N) : Prop := ∃ k, fs.kind loc = some k ∧ ∀ target, k ≠ .link target

theorem canon_of_dir (h : fs.kind loc = some .dir) : fs.Canon loc := ⟨.dir, h, by simp⟩

theorem canon_nil : fs.Canon [] := canon_of_dir fs.kind_nil

/-- Only a directory has something below it. -/
theorem kind_of_append {k : Kind N} {more : List N} (hmore : more ≠ []) (h : fs.kind (loc ++ more) = some k) :
    fs.kind loc = some .dir := by
  induction more using List.reverseRecOn generalizing k with
  | nil => exact absurd rfl hmore
  | append_singleton more name ih =>
    rw [← List.append_assoc] at h
    have hdir := fs.kind_of_kind_append h
    by_cases hnil : more = []
    · rwa [hnil, List.append_nil] at hdir
    · exact ih hnil hdir

theorem Canon.of_append {more : List N} (h : fs.Canon (loc ++ more)) : fs.Canon loc := by
  by_cases hmore : more = []
  · rwa [hmore, List.append_nil] at h
  · obtain ⟨k, hk, -⟩ := h
    exact canon_of_dir (kind_of_append hmore hk)

theorem canon_dropLast (h : fs.kind loc = some .dir) : fs.Canon loc.dropLast := by
  induction loc using List.reverseRecOn with
  | nil => exact canon_nil
  | append_singleton loc name _ =>
    rw [List.dropLast_concat]
    exact (canon_of_dir h).of_append

theorem step_canon (hf : ∀ {loc target l}, fs.Canon loc → f loc target = some l → fs.Canon l)
    (hloc : fs.Canon loc) {c : Component N} (h : fs.step f loc c = some l) : fs.Canon l := by
  cases c with
  | RootDir =>
    cases h
    exact canon_nil
  | CurDir =>
    unfold step at h
    dsimp only at h
    split_ifs at h
    cases h
    exact hloc
  | ParentDir =>
    unfold step at h
    dsimp only at h
    split_ifs at h with hdir
    cases h
    exact canon_dropLast hdir
  | Normal name =>
    cases hk : fs.kind (loc ++ [name]) with
    | none =>
      rw [step_normal_none hk] at h
      cases h
    | some k =>
      cases k with
      | link target =>
        rw [step_normal_link hk] at h
        exact hf hloc h
      | _ =>
        rw [step_normal_eq_some hk (by simp)] at h
        cases h
        exact ⟨_, hk, by simp⟩

theorem walk_canon (hf : ∀ {loc target l}, fs.Canon loc → f loc target = some l → fs.Canon l)
    (hloc : fs.Canon loc) (h : fs.walk f loc path = some l) : fs.Canon l := by
  induction path generalizing loc with
  | nil =>
    cases h
    exact hloc
  | cons c path ih =>
    rw [walk_cons, Option.bind_eq_some_iff] at h
    obtain ⟨m, hm, h⟩ := h
    exact ih (step_canon hf hloc hm) h

theorem links_canon (n : ℕ) : ∀ {loc target l}, fs.Canon loc → fs.links n loc target = some l → fs.Canon l := by
  induction n with
  | zero =>
    intro _ _ _ _ h
    cases h
  | succ n ih => exact fun hloc h => walk_canon ih hloc h

/-- Resolution ends at a place that leads to itself. -/
theorem walk_follow_canon (hloc : fs.Canon loc) (h : fs.walk fs.follow loc path = some l) : fs.Canon l :=
  walk_canon (links_canon _) hloc h

theorem canonicalize_canon (h : fs.canonicalize path = some l) : fs.Canon l := by
  unfold canonicalize at h
  split_ifs at h
  exact walk_follow_canon (canon_of_dir fs.cwd_dir) h

theorem walk_names (loc : Loc N) {names : List N} (h : fs.Canon (loc ++ names)) :
    fs.walk f loc (names.map .Normal) = some (loc ++ names) := by
  induction names generalizing loc with
  | nil => rw [List.append_nil]; rfl
  | cons name names ih =>
    rw [List.append_cons] at h
    obtain ⟨k, hk, hne⟩ := h.of_append
    rw [List.map_cons, walk_cons, step_normal_eq_some hk hne, Option.bind_some, ih _ h, ← List.append_cons]

/-- The path of a place. -/
def pathOf (loc : Loc N) : Path N := .RootDir :: loc.map .Normal

omit [DecidableEq N] in
theorem pathOf_injective {l l' : Loc N} (h : pathOf l = pathOf l') : l = l' :=
  List.map_injective_iff.2 (fun _ _ => Component.Normal.inj) (List.cons.inj h).2

omit [DecidableEq N] in
theorem prefix_of_pathOf {l l' : Loc N} (h : pathOf l <+: pathOf l') : l <+: l' :=
  (List.prefix_map_iff_of_injective fun _ _ => Component.Normal.inj).1 (List.cons_prefix_cons.1 h).2

omit [DecidableEq N] in
theorem curDir_not_mem_pathOf (loc : Loc N) : Component.CurDir ∉ pathOf loc := by simp [pathOf]

omit [DecidableEq N] in
/-- The separator at the end is no name. -/
theorem prefix_of_pathOf_concat {l l' : Loc N} (h : pathOf l <+: pathOf l' ++ [.CurDir]) : l <+: l' := by
  rcases List.prefix_concat_iff.1 h with heq | h
  · exact absurd (heq ▸ List.mem_append_right _ List.mem_cons_self) (curDir_not_mem_pathOf l)
  · exact prefix_of_pathOf h

theorem canonicalize_pathOf (loc : Loc N) : fs.canonicalize (pathOf loc) = fs.walk fs.follow [] (loc.map .Normal) := by
  unfold canonicalize pathOf
  rw [if_neg (List.cons_ne_nil _ _), walk_cons]
  rfl

theorem canonicalize_of_canon (h : fs.Canon loc) : fs.canonicalize (pathOf loc) = some loc := by
  rw [canonicalize_pathOf]
  exact walk_names [] h

/-! ### New entries -/

omit [DecidableEq N] in
theorem append_singleton_ne_self (loc : Loc N) (name : N) : loc ≠ loc ++ [name] := fun h => by
  have := congrArg List.length h
  rw [List.length_append, List.length_singleton] at this
  omega

theorem kindIn_cons (entries : List (Loc N × Kind N)) (dir : Loc N) (name : N) (k : Kind N) (loc : Loc N) :
    kindIn ((dir ++ [name], k) :: entries) loc = if loc = dir ++ [name] then some k else kindIn entries loc := by
  unfold kindIn
  by_cases hnil : loc = []
  · subst hnil
    rw [if_pos rfl, if_pos rfl, if_neg (by simp)]
  · rw [if_neg hnil, if_neg hnil, List.lookup_cons]
    by_cases heq : loc = dir ++ [name]
    · rw [if_pos heq, beq_iff_eq.2 heq]
    · rw [if_neg heq, beq_eq_false_iff_ne.2 heq]

variable (fs) in
/-- Make an entry where there is none. -/
def add (dir : Loc N) (name : N) (k : Kind N) (hdir : fs.kind dir = some .dir)
    (habsent : fs.kind (dir ++ [name]) = none) : FileSystem N where
  entries := (dir ++ [name], k) :: fs.entries
  cwd := fs.cwd
  tree := by
    intro loc name' h
    rw [kindIn_cons] at h ⊢
    have hloc : fs.kind loc = some .dir := by
      by_cases heq : loc ++ [name'] = dir ++ [name]
      · rw [(List.append_inj' heq rfl).1]
        exact hdir
      · rw [if_neg heq] at h
        exact fs.tree loc name' h
    have hne : loc ≠ dir ++ [name] := by
      rintro rfl
      rw [habsent] at hloc
      cases hloc
    rw [if_neg hne]
    exact hloc
  cwd_dir := by
    have hne : fs.cwd ≠ dir ++ [name] := fun heq => by
      have hcwd := fs.cwd_dir
      rw [heq] at hcwd
      exact absurd (habsent.symm.trans hcwd) (by simp)
    rw [kindIn_cons, if_neg hne]
    exact fs.cwd_dir

section Add

variable {dir : Loc N} {k : Kind N} {hdir : fs.kind dir = some .dir} {habsent : fs.kind (dir ++ [name]) = none}

theorem kind_add (loc : Loc N) :
    (fs.add dir name k hdir habsent).kind loc = if loc = dir ++ [name] then some k else fs.kind loc :=
  kindIn_cons _ _ _ _ _

theorem kind_add_self : (fs.add dir name k hdir habsent).kind (dir ++ [name]) = some k := by
  rw [kind_add, if_pos rfl]

end Add

/-! ### Creating -/

/-- Creating a name in a directory makes an entry at an absent name: that one, or the one its link
leads to. -/
inductive Leads (fs : FileSystem N) : Loc N → N → Loc N → N → Prop
  | absent {dir : Loc N} {name : N} (hdir : fs.kind dir = some .dir)
      (habsent : fs.kind (dir ++ [name]) = none) : Leads fs dir name dir name
  | link {dir dir' d : Loc N} {name last m : N} {front : Path N}
      (hlink : fs.kind (dir ++ [name]) = some (.link (front ++ [.Normal last])))
      (hfront : fs.walk fs.follow dir front = some dir') (h : Leads fs dir' last d m) : Leads fs dir name d m

/-- Nothing is made in the place of what is there. -/
theorem Leads.not_canon {dir d : Loc N} {m : N} (h : Leads fs dir name d m) : ¬ fs.Canon (dir ++ [name]) := by
  rintro ⟨k, hk, hne⟩
  cases h with
  | absent _ habsent => exact absurd (habsent.symm.trans hk) (by simp)
  | link hlink => exact hne _ (Option.some.inj (hk.symm.trans hlink))

/-- Make the missing directories of a path of names. -/
def makeDirs : FileSystem N → Loc N → List N → Option (FileSystem N × Loc N)
  | fs, loc, [] => if fs.kind loc = some .dir then some (fs, loc) else none
  | fs, loc, name :: rest =>
    if hdir : fs.kind loc = some .dir then
      if habsent : fs.kind (loc ++ [name]) = none then
        makeDirs (fs.add loc name .dir hdir habsent) (loc ++ [name]) rest
      else
        match fs.step fs.follow loc (.Normal name) with
        | some l => makeDirs fs l rest
        | none => none
    else none

theorem makeDirs_cons_absent {rest : List N} (hdir : fs.kind loc = some .dir)
    (habsent : fs.kind (loc ++ [name]) = none) :
    makeDirs fs loc (name :: rest) = makeDirs (fs.add loc name .dir hdir habsent) (loc ++ [name]) rest := by
  rw [makeDirs, dif_pos hdir, dif_pos habsent]

theorem makeDirs_cons_step {rest : List N} (hdir : fs.kind loc = some .dir)
    (hpresent : fs.kind (loc ++ [name]) ≠ none) :
    makeDirs fs loc (name :: rest) =
      (fs.step fs.follow loc (.Normal name)).bind fun l => makeDirs fs l rest := by
  rw [makeDirs, dif_pos hdir, dif_neg hpresent]
  cases fs.step fs.follow loc (.Normal name) <;> rfl

theorem makeDirs_not_dir {names : List N} (h : fs.kind loc ≠ some .dir) : makeDirs fs loc names = none := by
  cases names with
  | nil => exact if_neg h
  | cons name rest => rw [makeDirs, dif_neg h]

/-- Directories that are there are walked through. -/
theorem makeDirs_append {names more : List N} (h : fs.Canon (loc ++ names)) (hdir : fs.kind loc = some .dir) :
    makeDirs fs loc (names ++ more) = makeDirs fs (loc ++ names) more := by
  induction names generalizing loc with
  | nil => rw [List.append_nil, List.nil_append]
  | cons name names ih =>
    rw [List.append_cons] at h
    obtain ⟨k, hk, hne⟩ := h.of_append
    have hpresent : fs.kind (loc ++ [name]) ≠ none := by
      rw [hk]
      simp
    rw [List.cons_append, makeDirs_cons_step hdir hpresent, step_normal_eq_some hk hne, Option.bind_some,
      List.append_cons loc name names]
    by_cases hname : fs.kind (loc ++ [name]) = some .dir
    · exact ih h hname
    · by_cases hnil : names = []
      · subst hnil
        rw [List.append_nil, List.nil_append]
      · obtain ⟨k', hk', -⟩ := h
        exact absurd (kind_of_append hnil hk') hname

theorem makeDirs_of_canon {base more : List N} (h : fs.Canon base) :
    makeDirs fs [] (base ++ more) = makeDirs fs base more := makeDirs_append h fs.kind_nil

/-- Where all directories are there, none is made. -/
theorem eq_of_makeDirs {base names : List N} {fs' : FileSystem N} (hbase : fs.Canon base) (hnames : names <+: base)
    (h : makeDirs fs [] names = some (fs', l)) : fs' = fs := by
  obtain ⟨more, rfl⟩ := hnames
  have hcanon : fs.Canon names := hbase.of_append
  rw [← List.append_nil names, makeDirs_of_canon hcanon, makeDirs] at h
  split_ifs at h
  cases h
  rfl

/-- Below a place there are only the directories of a path of names, beside what was there. -/
structure MadeBelow (fs fs' : FileSystem N) (loc : Loc N) (names : List N) : Prop where
  kept : ∀ {l k}, fs.kind l = some k → fs'.kind l = some k
  made : ∀ l, fs.kind l = none → fs'.kind l ≠ none → loc <+: l
  dirs : ∀ more, more <+: names → fs'.kind (loc ++ more) = some .dir
  fresh : ∀ name, fs'.kind (loc ++ names ++ [name]) = none

section Fresh

variable {fs' : FileSystem N} {names : List N}

theorem MadeBelow.of_add {hdir : fs.kind loc = some .dir} {habsent : fs.kind (loc ++ [name]) = none}
    (h : MadeBelow (fs.add loc name .dir hdir habsent) fs' (loc ++ [name]) names) :
    MadeBelow fs fs' (loc ++ [name]) names where
  kept := by
    intro l k hk
    refine h.kept ?_
    rw [kind_add, if_neg]
    · exact hk
    · rintro rfl
      exact absurd (habsent.symm.trans hk) (by simp)
  made := by
    intro l hl hne
    by_cases heq : l = loc ++ [name]
    · exact heq ▸ List.prefix_rfl
    · refine h.made l ?_ hne
      rw [kind_add, if_neg heq, hl]
  dirs := h.dirs
  fresh := h.fresh

/-- In a directory that was just made there is nothing. -/
theorem kind_below_add (hdir : fs.kind loc = some .dir) (habsent : fs.kind (loc ++ [name]) = none) (name' : N) :
    (fs.add loc name .dir hdir habsent).kind (loc ++ [name] ++ [name']) = none := by
  rw [kind_add, if_neg (append_singleton_ne_self _ _).symm]
  cases hk : fs.kind (loc ++ [name] ++ [name']) with
  | none => rfl
  | some k => exact absurd (habsent.symm.trans (fs.kind_of_kind_append hk)) (by simp)

/-- In a directory without entries new directories are made, one in the other. -/
theorem makeDirs_fresh (hdir : fs.kind loc = some .dir) (hnone : ∀ name, fs.kind (loc ++ [name]) = none)
    (h : makeDirs fs loc names = some (fs', l)) : MadeBelow fs fs' loc names := by
  induction names generalizing fs loc with
  | nil =>
    rw [makeDirs, if_pos hdir] at h
    cases h
    refine ⟨id, fun l hl hne => absurd hl hne, fun more hmore => ?_, by simpa using hnone⟩
    rw [List.prefix_nil.1 hmore, List.append_nil]
    exact hdir
  | cons name rest ih =>
    rw [makeDirs_cons_absent hdir (hnone name)] at h
    have hbelow := (ih kind_add_self (kind_below_add hdir (hnone name)) h).of_add
    refine ⟨hbelow.kept, fun l hl hne => (List.prefix_append loc [name]).trans (hbelow.made l hl hne),
      fun more hmore => ?_, fun name' => ?_⟩
    · cases more with
      | nil =>
        rw [List.append_nil]
        exact hbelow.kept hdir
      | cons name' more =>
        obtain ⟨rfl, hrest⟩ := List.cons_prefix_cons.1 hmore
        rw [List.append_cons]
        exact hbelow.dirs more hrest
    · rw [List.append_cons loc name rest]
      exact hbelow.fresh name'

/-- Directories are made from an absent name on. -/
theorem makeDirs_absent (hdir : fs.kind loc = some .dir) (habsent : fs.kind (loc ++ [name]) = none)
    (h : makeDirs fs loc (name :: names) = some (fs', l)) : MadeBelow fs fs' (loc ++ [name]) names := by
  rw [makeDirs_cons_absent hdir habsent] at h
  exact (makeDirs_fresh kind_add_self (kind_below_add hdir habsent) h).of_add

end Fresh

/-- A walk by names that are no links stays on them. -/
theorem eq_of_walk_names {names : List N} (hnames : ∀ more, more <+: names → more ≠ [] →
    ∀ target, fs.kind (loc ++ more) ≠ some (.link target)) (h : fs.walk f loc (names.map .Normal) = some l) :
    l = loc ++ names := by
  induction names generalizing loc with
  | nil =>
    cases h
    exact (List.append_nil _).symm
  | cons name names ih =>
    rw [List.map_cons, walk_cons, Option.bind_eq_some_iff] at h
    obtain ⟨m, hm, h⟩ := h
    cases hk : fs.kind (loc ++ [name]) with
    | none =>
      rw [step_normal_none hk] at hm
      cases hm
    | some k =>
      have hne : ∀ target, k ≠ .link target := by
        rintro target rfl
        exact hnames [name] (List.prefix_append [name] names) (by simp) target hk
      rw [step_normal_eq_some hk hne] at hm
      cases hm
      rw [List.append_cons]
      refine ih (fun more hmore hne target => ?_) h
      rw [← List.append_cons]
      exact hnames (name :: more) (List.cons_prefix_cons.2 ⟨rfl, hmore⟩) (by simp) target

/-- What may be made on the way to a path, and at it: missing directories of the path, as far as one gets;
and at its last name a file, through links. A path that a separator ends is one of a directory: no file is
made there. -/
inductive Creates (fs : FileSystem N) (path : Path N) : FileSystem N → Prop
  | dirs {names : List N} {fs' : FileSystem N} {dir : Loc N} (hpath : pathOf names <+: path)
      (hdirs : makeDirs fs [] names = some (fs', dir)) : Creates fs path fs'
  | file {names : List N} {name m : N} {fs₁ : FileSystem N} {dir d : Loc N}
      (hpath : path = pathOf (names ++ [name])) (hdirs : makeDirs fs [] names = some (fs₁, dir))
      (hleads : Leads fs₁ dir name d m) (hdir : fs₁.kind d = some .dir) (habsent : fs₁.kind (d ++ [m]) = none) :
      Creates fs path (fs₁.add d m .file hdir habsent)

end FileSystem

end IpeLang.Lib.FileTree
