import IpeLang.Lib.Text
import Mathlib.Data.Char
import Mathlib.Data.Nat.Digits.Defs
import Mathlib.Data.List.Lex
import Mathlib.Data.Sum.Order
import Mathlib.Data.Prod.Lex
import Mathlib.Order.WithBot

/-!
# Semantic versions

A version `major.minor.patch` with a list of prerelease identifiers, its documented precedence, and the
two kinds of requirements that name a version in full.

* `Version.precedence`: numbers first, then the identifiers one by one, numeric ones below the others,
  and a release above its prereleases;
* `Version.exactReq`, `Version.caretReq`: the versions that `=v` and `^v` match.

A number fits 64 bits. Build metadata is no part of a version here.
-/

namespace IpeLang.Lib

/-- A number of 64 bits. -/
abbrev U64 := Fin (2 ^ 64)

instance U64.neZero : NeZero (2 ^ 64 : ℕ) := ⟨pow_ne_zero 64 two_ne_zero⟩

/-- The next number, if there is one. -/
def U64.succ? (n : U64) : Option U64 := if h : n.val + 1 < 2 ^ 64 then some ⟨n.val + 1, h⟩ else none

namespace Semver

/-! ### Identifiers -/

/-- The characters of an identifier. -/
def isIdentChar (c : Char) : Bool := c.isAlphanum || c == '-'

/-- An identifier that is no number. -/
def isAlphanumeric (s : Str) : Bool := s.all isIdentChar && s.any fun c => !c.isDigit

/-- An identifier of a prerelease. -/
inductive Identifier
  | numeric (n : ℕ)
  | alphanumeric (s : { s : Str // isAlphanumeric s = true })
  deriving DecidableEq

/-- Numbers come before words. -/
def Identifier.rank : Identifier → ℕ ⊕ₗ Str
  | .numeric n => Sum.inlₗ n
  | .alphanumeric s => Sum.inrₗ s.1

theorem Identifier.rank_injective : Function.Injective Identifier.rank := by
  intro a b h
  cases a <;> cases b <;> simp_all [rank, Subtype.ext_iff]

instance : LinearOrder Identifier := LinearOrder.lift' _ Identifier.rank_injective

/-! ### Versions -/

/-- A version without build metadata. A release has no prerelease identifiers. -/
@[ext] structure Version where
  major : U64
  minor : U64
  patch : U64
  pre : List Identifier := []
  deriving DecidableEq

namespace Version

/-- The rank of the prerelease identifiers: a release is above all its prereleases. -/
def preRank (pre : List Identifier) : WithTop (List Identifier) := if pre = [] then ⊤ else pre

theorem preRank_injective : Function.Injective preRank := by
  intro p q h
  unfold preRank at h
  split_ifs at h with hp hq hq
  · rw [hp, hq]
  · cases h
  · cases h
  · exact WithTop.coe_injective h

/-- The precedence of a version. -/
def rank (v : Version) : U64 ×ₗ U64 ×ₗ U64 ×ₗ WithTop (List Identifier) :=
  toLex (v.major, toLex (v.minor, toLex (v.patch, preRank v.pre)))

theorem rank_injective : Function.Injective rank := by
  intro v w h
  simp only [rank, EmbeddingLike.apply_eq_iff_eq, Prod.mk.injEq] at h
  obtain ⟨h₁, h₂, h₃, h₄⟩ := h
  exact Version.ext h₁ h₂ h₃ (preRank_injective h₄)

/-- The order of precedence. -/
abbrev precedence : LinearOrder Version := LinearOrder.lift' _ rank_injective

def isPrerelease (v : Version) : Bool := !v.pre.isEmpty

/-- The version without its prerelease identifiers. -/
def core (v : Version) : Version := ⟨v.major, v.minor, v.patch, []⟩

/-! ### Requirements -/

/-- The requirement `=v`. -/
def exactReq (v w : Version) : Bool := w == v

/-- The requirement `^v`, for a release. -/
def caretReq (v w : Version) : Bool :=
  !w.isPrerelease && w.major == v.major &&
    if 0 < v.major then v.minor < w.minor || (w.minor == v.minor && v.patch ≤ w.patch)
    else if 0 < v.minor then w.minor == v.minor && v.patch ≤ w.patch
    else w.minor == v.minor && w.patch == v.patch

/-- Releases compare by their three numbers. -/
theorem precedence_release {v w : Version} (hv : v.isPrerelease = false) (hw : w.isPrerelease = false) :
    precedence.le v w ↔ v.major < w.major ∨ v.major = w.major ∧
      (v.minor < w.minor ∨ v.minor = w.minor ∧ v.patch ≤ w.patch) := by
  have hpre : ∀ u : Version, u.isPrerelease = false → u.pre = [] := by
    intro u hu
    simpa [Version.isPrerelease] using hu
  have hle : precedence.le v w ↔ v.rank ≤ w.rank := Iff.rfl
  rw [hle, Version.rank, Version.rank, hpre v hv, hpre w hw]
  simp only [Prod.Lex.toLex_le_toLex, le_refl, and_true, ← le_iff_lt_or_eq]

end Version

end Semver

end IpeLang.Lib
