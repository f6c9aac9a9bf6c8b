import Mathlib.Computability.Language

/-!
# Letters that come last

Parts of a program that use up a resource: a letter is a use of it. Some letters may only end a word, and
may not occur at all while more is to come.

* `Ways`: the words of a part, and those of what it puts off;
* `Silent`: the empty word at most;
* `Lacks`: the letters do not occur;
* `LastOnly`: the letters come last, if nothing is to come;
* `Thrifty`: a pass that counts the letters to come down, and keeps them for the end.
-/

namespace IpeLang.Lib

variable {α : Type}

/-! ### Words -/

section

variable {A B : Language α}

/-- The language has no other word than the empty one. -/
def SilentWords (A : Language α) : Prop := ∀ w ∈ A, w = []

theorem silentWords_one : SilentWords (1 : Language α) := fun w hw => (Language.mem_one w).1 hw

theorem SilentWords.mul (hA : SilentWords A) (hB : SilentWords B) : SilentWords (A * B) := by
  rintro w hw
  obtain ⟨a, ha, b, hb, rfl⟩ := Language.mem_mul.1 hw
  rw [hA a ha, hB b hb, List.append_nil]

theorem SilentWords.kstar (hA : SilentWords A) : SilentWords (KStar.kstar A) := by
  intro w hw
  obtain ⟨words, rfl, hwords⟩ := Language.mem_kstar.1 hw
  exact List.flatten_eq_nil_iff.2 fun a ha => hA a (hwords a ha)

variable {p : α → Prop} {later n : ℕ}

/-- No word has one of the letters. -/
def LacksWords (p : α → Prop) (A : Language α) : Prop := ∀ w ∈ A, ∀ a ∈ w, ¬ p a

theorem SilentWords.lacks (hA : SilentWords A) : LacksWords p A := by
  intro w hw a ha
  rw [hA w hw] at ha
  cases ha

theorem LacksWords.mul (hA : LacksWords p A) (hB : LacksWords p B) : LacksWords p (A * B) := by
  intro w hw x hx
  obtain ⟨a, ha, b, hb, rfl⟩ := Language.mem_mul.1 hw
  exact (List.mem_append.1 hx).elim (hA a ha x) (hB b hb x)

theorem LacksWords.kstar (hA : LacksWords p A) : LacksWords p (KStar.kstar A) := by
  intro w hw x hx
  obtain ⟨words, rfl, hwords⟩ := Language.mem_kstar.1 hw
  obtain ⟨a, ha, hxa⟩ := List.mem_flatten.1 hx
  exact hA a (hwords a ha) x hxa

/-- The letters may end a word, and may not occur in it at all if more is to come. -/
def LastWords (p : α → Prop) (later : ℕ) (A : Language α) : Prop :=
  ∀ w ∈ A, ∀ a ∈ if later = 0 then w.dropLast else w, ¬ p a

theorem SilentWords.last (hA : SilentWords A) : LastWords p later A := by
  intro w hw a ha
  rw [hA w hw] at ha
  split_ifs at ha
  · cases ha
  · cases ha

/-- What is allowed while more is to come is allowed at the end. -/
theorem LastWords.weaken {later' : ℕ} (hA : LastWords p later A) (h : later = 0 → later' = 0) :
    LastWords p later' A := by
  intro w hw a ha
  refine hA w hw a ?_
  by_cases hlater : later = 0
  · rw [if_pos hlater]
    rwa [if_pos (h hlater)] at ha
  · rw [if_neg hlater]
    split_ifs at ha
    · exact List.mem_of_mem_dropLast ha
    · exact ha

/-- Two languages one after the other, where `n` bounds what the second one uses. -/
theorem LastWords.mul (hA : LastWords p (n + later) A) (hB : LastWords p later B)
    (hn : n = 0 → SilentWords B) : LastWords p later (A * B) := by
  intro w hw x hx
  obtain ⟨a, ha, b, hb, rfl⟩ := Language.mem_mul.1 hw
  by_cases hzero : n + later = 0
  · have hempty : b = [] := hn (by omega) b hb
    have hlater : later = 0 := by omega
    rw [hempty, List.append_nil, if_pos hlater] at hx
    exact hA a ha x (by rwa [if_pos hzero])
  · have hfirst : ∀ y ∈ a, ¬ p y := fun y hy => hA a ha y (by rwa [if_neg hzero])
    by_cases hlater : later = 0
    · rw [if_pos hlater] at hx
      by_cases hempty : b = []
      · rw [hempty, List.append_nil] at hx
        exact hfirst x (List.mem_of_mem_dropLast hx)
      · rw [List.dropLast_append_of_ne_nil hempty] at hx
        rcases List.mem_append.1 hx with hx | hx
        · exact hfirst x hx
        · exact hB b hb x (by rwa [if_pos hlater])
    · rw [if_neg hlater] at hx
      rcases List.mem_append.1 hx with hx | hx
      · exact hfirst x hx
      · exact hB b hb x (by rwa [if_neg hlater])

end

/-! ### Ways -/

/-- The words of a part of a program. It may put off pieces of itself; each of them runs by itself and
has words of its own. -/
@[ext]
structure Ways (α : Type) where
  now : Language α
  deferred : Set (Language α)

namespace Ways

instance : Zero (Ways α) := ⟨⟨0, ∅⟩⟩

instance : Add (Ways α) := ⟨fun A B => ⟨A.now + B.now, A.deferred ∪ B.deferred⟩⟩

instance : MulOneClass (Ways α) where
  one := ⟨1, ∅⟩
  mul A B := ⟨A.now * B.now, A.deferred ∪ B.deferred⟩
  one_mul A := Ways.ext (one_mul A.now) (Set.empty_union A.deferred)
  mul_one A := Ways.ext (mul_one A.now) (Set.union_empty A.deferred)

instance : KStar (Ways α) := ⟨fun A => ⟨KStar.kstar A.now, A.deferred⟩⟩

def letter (a : α) : Ways α := ⟨{[a]}, ∅⟩

/-- The words of `A`, where `B` is put off. -/
def defer (A B : Ways α) : Ways α := ⟨A.now, A.deferred ∪ insert B.now B.deferred⟩

end Ways

section

variable {A B : Ways α} {p : α → Prop} {later n : ℕ}

theorem forall_deferred {P : Language α → Prop} {S T : Set (Language α)} (hS : ∀ L ∈ S, P L)
    (hT : ∀ L ∈ T, P L) : ∀ L ∈ S ∪ T, P L := fun L hL => hL.elim (hS L) (hT L)

theorem forall_insert {P : Language α → Prop} (hnow : P B.now) (hdeferred : ∀ L ∈ B.deferred, P L) :
    ∀ L ∈ insert B.now B.deferred, P L := by
  rintro L (rfl | hL)
  · exact hnow
  · exact hdeferred L hL

/-- The part has no letter, now and later. -/
def Silent (A : Ways α) : Prop := SilentWords A.now ∧ ∀ L ∈ A.deferred, SilentWords L

theorem silent_one : Silent (1 : Ways α) := ⟨silentWords_one, fun _ hL => hL.elim⟩

theorem silent_zero : Silent (0 : Ways α) :=
  ⟨fun w hw => absurd hw (Language.notMem_zero w), fun _ hL => hL.elim⟩

theorem Silent.mul (hA : Silent A) (hB : Silent B) : Silent (A * B) :=
  ⟨hA.1.mul hB.1, forall_deferred hA.2 hB.2⟩

theorem Silent.add (hA : Silent A) (hB : Silent B) : Silent (A + B) :=
  ⟨fun w hw => ((Language.mem_add _ _ w).1 hw).elim (hA.1 w) (hB.1 w), forall_deferred hA.2 hB.2⟩

theorem Silent.kstar (hA : Silent A) : Silent (KStar.kstar A) := ⟨hA.1.kstar, hA.2⟩

theorem Silent.defer (hA : Silent A) (hB : Silent B) : Silent (A.defer B) :=
  ⟨hA.1, forall_deferred hA.2 (forall_insert hB.1 hB.2)⟩

/-- None of the letters occurs, now and later. -/
def Lacks (p : α → Prop) (A : Ways α) : Prop := LacksWords p A.now ∧ ∀ L ∈ A.deferred, LacksWords p L

theorem Silent.lacks (hA : Silent A) : Lacks p A := ⟨hA.1.lacks, fun L hL => (hA.2 L hL).lacks⟩

theorem lacks_letter {a : α} (ha : ¬ p a) : Lacks p (.letter a) := by
  refine ⟨fun w hw b hb => ?_, fun _ hL => hL.elim⟩
  rw [Set.mem_singleton_iff.1 hw, List.mem_singleton] at hb
  rwa [hb]

theorem Lacks.mul (hA : Lacks p A) (hB : Lacks p B) : Lacks p (A * B) :=
  ⟨hA.1.mul hB.1, forall_deferred hA.2 hB.2⟩

theorem Lacks.add (hA : Lacks p A) (hB : Lacks p B) : Lacks p (A + B) :=
  ⟨fun w hw => ((Language.mem_add _ _ w).1 hw).elim (hA.1 w) (hB.1 w), forall_deferred hA.2 hB.2⟩

theorem Lacks.kstar (hA : Lacks p A) : Lacks p (KStar.kstar A) := ⟨hA.1.kstar, hA.2⟩

theorem Lacks.defer (hA : Lacks p A) (hB : Lacks p B) : Lacks p (A.defer B) :=
  ⟨hA.1, forall_deferred hA.2 (forall_insert hB.1 hB.2)⟩

/-- The letters come last. After what is put off nothing is to come. -/
def LastOnly (p : α → Prop) (later : ℕ) (A : Ways α) : Prop :=
  LastWords p later A.now ∧ ∀ L ∈ A.deferred, LastWords p 0 L

theorem Silent.lastOnly (hA : Silent A) : LastOnly p later A := ⟨hA.1.last, fun L hL => (hA.2 L hL).last⟩

theorem lastOnly_last (a : α) : LastOnly p 0 (.letter a) := by
  refine ⟨fun w hw b hb => ?_, fun _ hL => hL.elim⟩
  rw [Set.mem_singleton_iff.1 hw] at hb
  cases hb

theorem lastOnly_letter {a : α} (ha : ¬ p a) : LastOnly p later (.letter a) := by
  refine ⟨fun w hw b hb => ?_, fun _ hL => hL.elim⟩
  have hmem : b ∈ w := by
    split_ifs at hb
    · exact List.mem_of_mem_dropLast hb
    · exact hb
  rw [Set.mem_singleton_iff.1 hw, List.mem_singleton] at hmem
  rwa [hmem]

theorem LastOnly.weaken {later' : ℕ} (hA : LastOnly p later A) (h : later = 0 → later' = 0) :
    LastOnly p later' A :=
  ⟨hA.1.weaken h, hA.2⟩

/-- Two parts one after the other, where `n` bounds what the second one uses. -/
theorem LastOnly.mul (hA : LastOnly p (n + later) A) (hB : LastOnly p later B)
    (hn : n = 0 → Silent B) : LastOnly p later (A * B) :=
  ⟨hA.1.mul hB.1 fun h => (hn h).1, forall_deferred hA.2 hB.2⟩

theorem LastOnly.add (hA : LastOnly p later A) (hB : LastOnly p later B) : LastOnly p later (A + B) :=
  ⟨fun w hw => ((Language.mem_add _ _ w).1 hw).elim (hA.1 w) (hB.1 w), forall_deferred hA.2 hB.2⟩

theorem LastOnly.defer (hA : LastOnly p later A) (hB : LastOnly p 0 B) : LastOnly p later (A.defer B) :=
  ⟨hA.1, forall_deferred hA.2 (forall_insert hB.1 hB.2)⟩

end

/-! ### Counting down -/

/-- A part with `count` letters to come and `later` after it leaves `later`. Its letters come last, and
it has none if it counts none. -/
structure Spends (p : α → Prop) (count later : ℕ) (A : Ways α) (left : ℕ) : Prop where
  left_eq : left = later
  last : LastOnly p later A
  silent : count = 0 → Silent A

section

variable {A B : Ways α} {p : α → Prop} {later count more left : ℕ}

theorem Silent.spends (hA : Silent A) : Spends p count later A later := ⟨rfl, hA.lastOnly, fun _ => hA⟩

theorem Spends.mul {left' : ℕ} (hA : Spends p count (more + later) A left')
    (hB : Spends p more later B left) : Spends p (count + more) later (A * B) left where
  left_eq := hB.left_eq
  last := hA.last.mul hB.last hB.silent
  silent h := (hA.silent (by omega)).mul (hB.silent (by omega))

end

/-- A pass over a part: it is told how many letters are to come, with those of the part, and says which
words there are and how many letters are left. -/
abbrev Pass (α : Type) := ℕ → Ways α × ℕ

/-- One part after the other. -/
def Pass.seq (f g : Pass α) : Pass α := fun n => ((f n).1 * (g (f n).2).1, (g (f n).2).2)

/-- One of several parts, of which none has more than `peak` letters. They are told whether any letters
come after them. -/
def Pass.branch (peak : ℕ) (arms : ℕ → Ways α) : Pass α := fun n =>
  (arms (if n - peak > 0 then 1 else 0), n - peak)

/-- One letter, another one while more are to come. -/
def Pass.take (early : α) (last : Ways α) : Pass α := fun n =>
  (if n > 1 then .letter early else last, n - 1)

/-- A pass over a part that counts `count` letters, with `later` ones after it. -/
def Thrifty (p : α → Prop) (count later : ℕ) (f : Pass α) : Prop :=
  Spends p count later (f (count + later)).1 (f (count + later)).2

section

variable {A : Ways α} {p : α → Prop} {count more later : ℕ} {f g : Pass α}

theorem Thrifty.seq (hf : Thrifty p count (more + later) f) (hg : Thrifty p more later g) :
    Thrifty p (count + more) later (f.seq g) := by
  have hfirst : Spends p count (more + later) (f (count + (more + later))).1 _ := hf
  rw [Thrifty, Nat.add_assoc, Pass.seq, hfirst.left_eq]
  exact hfirst.mul hg

theorem thrifty_silent (hA : Silent A) : Thrifty p 0 later (fun n => (A, n)) := by
  rw [Thrifty, Nat.zero_add]
  exact hA.spends

theorem Thrifty.kstar (hf : Thrifty p 0 later f) :
    Thrifty p 0 later (fun n => (KStar.kstar (f n).1, (f n).2)) :=
  ⟨hf.left_eq, (hf.silent rfl).kstar.lastOnly, fun _ => (hf.silent rfl).kstar⟩

/-- A part that may be skipped. -/
theorem Thrifty.skip (hf : Thrifty p count later f) :
    Thrifty p count later (fun n => (1 + (f n).1, (f n).2)) :=
  ⟨hf.left_eq, silent_one.lastOnly.add hf.last, fun hcount => silent_one.add (hf.silent hcount)⟩

/-- A part that is put off, with the words that put it off. -/
theorem Thrifty.defer {early : ℕ → Ways α} (hf : Thrifty p count later f)
    (hlast : LastOnly p later (early (count + later)))
    (hsilent : count = 0 → Silent (early (count + later))) :
    Thrifty p count later (fun n => ((early n).defer (f n).1, (f n).2)) :=
  ⟨hf.left_eq, hlast.defer (hf.last.weaken fun _ => rfl), fun hcount =>
    (hsilent hcount).defer (hf.silent hcount)⟩

theorem thrifty_take {early : α} (hearly : ¬ p early) (hA : LastOnly p 0 A) :
    Thrifty p 1 later (Pass.take early A) := by
  refine ⟨by simp [Pass.take], ?_, fun h => absurd h one_ne_zero⟩
  rw [Pass.take]
  by_cases hlater : later = 0
  · rw [hlater, if_neg (by omega)]
    exact hA
  · rw [if_pos (by omega)]
    exact lastOnly_letter hearly

theorem thrifty_branch {peak : ℕ} {arms : ℕ → Ways α}
    (hlast : LastOnly p (if later > 0 then 1 else 0) (arms (if later > 0 then 1 else 0)))
    (hsilent : peak = 0 → Silent (arms (if later > 0 then 1 else 0))) :
    Thrifty p peak later (Pass.branch peak arms) := by
  have hleft : peak + later - peak = later := by omega
  rw [Thrifty, Pass.branch, hleft]
  refine ⟨rfl, hlast.weaken fun h => ?_, hsilent⟩
  by_cases hlater : later = 0
  · exact hlater
  · rw [if_pos (by omega)] at h
    cases h

end

end IpeLang.Lib
