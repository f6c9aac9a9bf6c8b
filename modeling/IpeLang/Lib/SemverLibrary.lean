import IpeLang.Lib.SemverText

/-!
# A library of versions

What is relied on of a library that reads, writes, orders and matches versions.

* `Library`: its functions and the facts that are used of them;
* `documented`: the behaviour that is documented of such a library, which has these facts.
-/

namespace IpeLang.Lib.Semver

/-- What the requirement `^v` matches, for a release `v`. -/
def CaretMatches (v w : Version) : Prop :=
  w.isPrerelease = false ∧ w.major = v.major ∧
    if 0 < v.major then v.minor < w.minor ∨ w.minor = v.minor ∧ v.patch ≤ w.patch
    else if 0 < v.minor then w.minor = v.minor ∧ v.patch ≤ w.patch
    else w.minor = v.minor ∧ w.patch = v.patch

/-- A library of versions. -/
class Library where
  order : LinearOrder Version
  /-- Read a version and its build metadata. -/
  parse : Str → Option (Version × Str)
  display : Version → Str
  exactReq : Version → Version → Bool
  caretReq : Version → Version → Bool
  /-- Releases compare by their three numbers. -/
  release_le {v w : Version} (hv : v.isPrerelease = false) (hw : w.isPrerelease = false) :
    order.le v w ↔ v.major < w.major ∨ v.major = w.major ∧
      (v.minor < w.minor ∨ v.minor = w.minor ∧ v.patch ≤ w.patch)
  /-- What is written is read back. -/
  parse_display (v : Version) : parse (display v) = some (v, [])
  display_chars (v : Version) : ∀ c ∈ display v, isIdentsChar c = true
  display_major (v : Version) : ∃ rest, display v = decimal v.major ++ '.' :: rest
  exactReq_iff {v w : Version} : exactReq v w = true ↔ w = v
  caretReq_iff {v w : Version} (hv : v.isPrerelease = false) : caretReq v w = true ↔ CaretMatches v w

export Library (parse display exactReq caretReq parse_display)

instance [Library] : LinearOrder Version := Library.order

/-- The documented behaviour. -/
instance documented : Library where
  order := Version.precedence
  parse := Version.parse
  display := Version.display
  exactReq := Version.exactReq
  caretReq := Version.caretReq
  release_le := Version.precedence_release
  parse_display := Version.parse_display
  display_chars _ _ := Version.isIdentsChar_of_mem_display
  display_major := Version.display_major
  exactReq_iff := beq_iff_eq
  caretReq_iff {v w} _ := by
    unfold Version.caretReq CaretMatches
    simp only [Bool.and_eq_true, Bool.not_eq_true', beq_iff_eq, and_assoc]
    split_ifs <;> simp only [Bool.or_eq_true, Bool.and_eq_true, decide_eq_true_eq, beq_iff_eq]

end IpeLang.Lib.Semver
