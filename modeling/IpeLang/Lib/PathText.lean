import IpeLang.Lib.FileTree
import IpeLang.Lib.Text

/-!
# Texts of paths

What a system with the separator `/` makes of the text of a path.

* `components`: what two equal paths share, whatever separators and dots stand between;
* `walked`: what a walk reads, which a separator at the end sends into a directory;
* `join`, `IsEntryName.components_join`: a path below another one.
-/

namespace IpeLang.Lib.PathText

open FileTree (Component Path)

/-- What a path starts with before its names. -/
def leading (path : Str) : Path Str :=
  if path.head? = some '/' then [.RootDir]
  else if (path.splitOn '/').head? = some ['.'] then [.CurDir]
  else []

/-- The component that the text between two separators stands for. -/
def component (text : Str) : Option (Component Str) :=
  if text = [] ∨ text = ['.'] then none
  else if text = ['.', '.'] then some .ParentDir
  else some (.Normal text)

/-- The components of a path. Two paths are equal if these are. -/
def components (path : Str) : Path Str :=
  leading path ++ (path.splitOn '/').filterMap component

/-- A separator, or a dot behind one, stands at the end. -/
def endsOpen (path : Str) : Bool :=
  (path.splitOn '/').getLast?.any fun text => text = [] || text = ['.']

/-- What a walk reads. A separator at the end is one step more, which only a directory takes. -/
def walked (path : Str) : Path Str :=
  if path = [] then [] else if endsOpen path then components path ++ [.CurDir] else components path

/-- A path below another one, or the path itself if it is absolute. -/
def join (base path : Str) : Str :=
  if path.head? = some '/' then path
  else if base = [] ∨ base.getLast? = some '/' then base ++ path
  else base ++ '/' :: path

/-- A name of an entry of a directory, on any system. -/
structure IsEntryName (name : Str) : Prop where
  nonempty : name ≠ []
  ne_cur : name ≠ ['.']
  ne_parent : name ≠ ['.', '.']
  slash : '/' ∉ name
  backslash : '\\' ∉ name
  colon : ':' ∉ name

theorem splitOn_eq_singleton {name : Str} (h : '/' ∉ name) : name.splitOn '/' = [name] := by
  refine List.splitOnP_eq_singleton fun c hc => ?_
  simpa using fun hsep : c = '/' => h (hsep ▸ hc)

theorem splitOn_append_slash (base path : Str) :
    (base ++ '/' :: path).splitOn '/' = base.splitOn '/' ++ path.splitOn '/' :=
  List.splitOnP_append_cons base path (beq_self_eq_true '/')

theorem head?_splitOn_append_slash (base path : Str) :
    ((base ++ '/' :: path).splitOn '/').head? = (base.splitOn '/').head? := by
  have hne : base.splitOn '/' ≠ [] := List.splitOnP_ne_nil _ base
  rw [splitOn_append_slash, List.head?_append_of_ne_nil _ hne]

theorem leading_append_slash (base path path' : Str) :
    leading (base ++ '/' :: path) = leading (base ++ '/' :: path') := by
  have hhead : ∀ p : Str, (base ++ '/' :: p).head? = (base ++ ['/']).head? := fun p => by
    cases base <;> rfl
  unfold leading
  rw [hhead, head?_splitOn_append_slash, hhead path', head?_splitOn_append_slash]

theorem leading_append_of_ne_nil {base : Str} (path : Str) (h : base ≠ []) :
    leading (base ++ '/' :: path) = leading base := by
  unfold leading
  rw [head?_splitOn_append_slash, List.head?_append_of_ne_nil _ h]

theorem IsEntryName.head_ne {name : Str} (h : IsEntryName name) : name.head? ≠ some '/' :=
  fun hhead => h.slash (List.mem_of_head? hhead)

theorem IsEntryName.filterMap_splitOn {name : Str} (h : IsEntryName name) :
    (name.splitOn '/').filterMap component = [.Normal name] := by
  have hnot : ¬ (name = [] ∨ name = ['.']) := not_or.2 ⟨h.nonempty, h.ne_cur⟩
  rw [splitOn_eq_singleton h.slash]
  simp [component, hnot, h.ne_parent]

/-- A name is joined to a path as its last component. -/
theorem IsEntryName.components_join {name : Str} (h : IsEntryName name) (base : Str) :
    components (join base name) = components base ++ [.Normal name] := by
  unfold join
  rw [if_neg h.head_ne]
  by_cases hnil : base = []
  · subst hnil
    have hlead : leading name = [] := by
      unfold leading
      rw [if_neg h.head_ne, splitOn_eq_singleton h.slash, if_neg]
      simpa using h.ne_cur
    rw [if_pos (Or.inl rfl), List.nil_append, components, hlead, h.filterMap_splitOn]
    rfl
  · by_cases hlast : base.getLast? = some '/'
    · obtain ⟨base, rfl⟩ : ∃ b, base = b ++ ['/'] := by
        rcases List.eq_nil_or_concat' base with rfl | ⟨l, c, rfl⟩
        · exact absurd rfl hnil
        · exact ⟨l, by simpa using hlast⟩
      rw [if_pos (Or.inr hlast)]
      have htext : base ++ ['/'] ++ name = base ++ '/' :: name := by simp
      rw [htext, components, components, leading_append_slash _ _ [], splitOn_append_slash,
        splitOn_append_slash, List.filterMap_append, h.filterMap_splitOn, List.filterMap_append,
        List.append_assoc]
      simp [component]
    · rw [if_neg (not_or.2 ⟨hnil, hlast⟩), components, leading_append_of_ne_nil _ hnil,
        splitOn_append_slash, List.filterMap_append, h.filterMap_splitOn, components,
        List.append_assoc]

end IpeLang.Lib.PathText
