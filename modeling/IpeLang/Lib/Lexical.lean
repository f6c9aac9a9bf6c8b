import Mathlib.Data.List.Infix
import Mathlib.Tactic.Ring

/-!
# Lexical resolution

A walk is a list of moves in a tree: to a child, to the parent, or nowhere. Its resolution is the place
where it ends, seen from where it starts: a number of levels above, and the names below there.

* `resolve`: the place that a walk ends at, from a root (above which there is nothing) or not;
* `resolve_moves`: a place is where its own walk ends, so that a resolution is resolved;
* `ups_eq_zero_iff`, `head_names_iff`: walks that never leave the start, and the first name that
  stays;
* `splitOnP_intercalate`: elements with separators between them are split into themselves.
-/

namespace IpeLang.Lib.Lexical

variable {α : Type*}

/-! ### Locations -/

inductive Move (α : Type*)
  | stay
  | up
  | down (a : α)
  deriving DecidableEq, Repr

/-- A location: so many levels above the start, and the names below. -/
structure Location (α : Type*) where
  ups : ℕ
  names : List α
  deriving DecidableEq, Repr

namespace Location

/-- The start. -/
def start : Location α := ⟨0, []⟩

/-- Go up: to the parent, or above the start, unless it is the root. -/
def goUp (rooted : Bool) (p : Location α) : Location α :=
  if p.names = [] then (if rooted then p else ⟨p.ups + 1, []⟩) else ⟨p.ups, p.names.dropLast⟩

def move (rooted : Bool) (p : Location α) : Move α → Location α
  | .stay => p
  | .up => p.goUp rooted
  | .down a => ⟨p.ups, p.names ++ [a]⟩

/-- The shortest walk to a place. -/
def moves (p : Location α) : List (Move α) := List.replicate p.ups .up ++ p.names.map .down

theorem goUp_nil (n : ℕ) : (⟨n, []⟩ : Location α).goUp false = ⟨n + 1, []⟩ := rfl

theorem goUp_concat (rooted : Bool) (n : ℕ) (l : List α) (a : α) :
    (⟨n, l ++ [a]⟩ : Location α).goUp rooted = ⟨n, l⟩ := by
  have hne : l ++ [a] ≠ [] := by simp
  simp only [goUp, if_neg hne, List.dropLast_concat]

theorem ups_move_rooted (p : Location α) (m : Move α) : (p.move true m).ups = p.ups := by
  cases m with
  | stay => rfl
  | up =>
    simp only [move, goUp]
    split_ifs <;> rfl
  | down a => rfl

end Location

/-! ### Walks -/

/-- The place that a walk ends at. -/
def walk (rooted : Bool) (p : Location α) (ms : List (Move α)) : Location α := ms.foldl (Location.move rooted) p

/-- The resolution of a walk. -/
def resolve (rooted : Bool) (ms : List (Move α)) : Location α := walk rooted Location.start ms

@[simp] theorem walk_nil (rooted : Bool) (p : Location α) : walk rooted p [] = p := rfl

@[simp] theorem walk_cons (rooted : Bool) (p : Location α) (m : Move α) (ms : List (Move α)) :
    walk rooted p (m :: ms) = walk rooted (p.move rooted m) ms := rfl

theorem walk_append (rooted : Bool) (p : Location α) (l r : List (Move α)) :
    walk rooted p (l ++ r) = walk rooted (walk rooted p l) r := List.foldl_append

/-- Nothing is above the root. -/
theorem ups_walk_rooted (p : Location α) (ms : List (Move α)) : (walk true p ms).ups = p.ups := by
  induction ms generalizing p with
  | nil => rfl
  | cons m ms ih => rw [walk_cons, ih, p.ups_move_rooted]

theorem walk_down (rooted : Bool) (p : Location α) (l : List α) :
    walk rooted p (l.map .down) = ⟨p.ups, p.names ++ l⟩ := by
  induction l generalizing p with
  | nil => simp
  | cons a l ih =>
    rw [List.map_cons, walk_cons, ih]
    simp [Location.move]

theorem walk_up (n k : ℕ) : walk false (⟨n, []⟩ : Location α) (List.replicate k .up) = ⟨n + k, []⟩ := by
  induction k generalizing n with
  | zero => rfl
  | succ k ih =>
    rw [List.replicate_succ, walk_cons, Location.move, Location.goUp_nil, ih, Nat.add_right_comm]
    rfl

/-- A place is where its own walk ends. -/
theorem resolve_moves {rooted : Bool} {p : Location α} (h : rooted = true → p.ups = 0) :
    resolve rooted p.moves = p := by
  unfold resolve Location.moves
  rw [walk_append]
  cases rooted with
  | true => rw [h rfl, List.replicate_zero, walk_nil, walk_down]; simp [Location.start, ← h rfl]
  | false =>
    rw [Location.start, walk_up, walk_down]
    simp

theorem ups_resolve_rooted {rooted : Bool} (ms : List (Move α)) (h : rooted = true) :
    (resolve rooted ms).ups = 0 := by
  rw [h]
  exact ups_walk_rooted _ _

/-- The names of a resolution are those of the walk. -/
theorem mem_names_walk {rooted : Bool} {p : Location α} {ms : List (Move α)} {a : α}
    (h : a ∈ (walk rooted p ms).names) : a ∈ p.names ∨ .down a ∈ ms := by
  induction ms generalizing p with
  | nil => exact Or.inl h
  | cons m ms ih =>
    rcases ih h with hp | hms
    · cases m with
      | stay => exact Or.inl hp
      | up =>
        simp only [Location.move, Location.goUp] at hp
        split_ifs at hp
        · exact Or.inl hp
        · cases hp
        · exact Or.inl (List.mem_of_mem_dropLast hp)
      | down b =>
        rcases List.mem_append.1 hp with hp | hp
        · exact Or.inl hp
        · rw [List.mem_singleton.1 hp]
          exact Or.inr List.mem_cons_self
    · exact Or.inr (List.mem_cons_of_mem _ hms)

theorem mem_names_resolve {rooted : Bool} {ms : List (Move α)} {a : α}
    (h : a ∈ (resolve rooted ms).names) : .down a ∈ ms := by
  rcases mem_names_walk h with hp | hms
  · cases hp
  · exact hms

/-! ### Walks that stay below their start -/

/-- How much deeper a walk ends. -/
def height : List (Move α) → ℤ
  | [] => 0
  | .stay :: ms => height ms
  | .up :: ms => height ms - 1
  | .down _ :: ms => height ms + 1

theorem height_append (l r : List (Move α)) : height (l ++ r) = height l + height r := by
  induction l with
  | nil => simp [height]
  | cons m l ih => cases m <;> simp only [List.cons_append, height, ih] <;> ring

/-- A walk that is never above its start. -/
def Stays (ms : List (Move α)) : Prop := ∀ l, l <+: ms → 0 ≤ height l

theorem stays_nil : Stays ([] : List (Move α)) := by
  intro l hl
  rw [List.prefix_nil.1 hl]
  rfl

theorem stays_concat {ms : List (Move α)} {m : Move α} :
    Stays (ms ++ [m]) ↔ Stays ms ∧ 0 ≤ height (ms ++ [m]) := by
  constructor
  · intro h
    exact ⟨fun l hl => h l (hl.trans (List.prefix_append _ _)), h _ List.prefix_rfl⟩
  · rintro ⟨hms, hlast⟩ l hl
    rcases List.prefix_concat_iff.1 hl with rfl | hl
    · exact hlast
    · exact hms l hl

theorem stays_of_not_up {ms : List (Move α)} (h : ∀ m ∈ ms, m ≠ .up) : Stays ms := by
  intro l hl
  have hl' : ∀ m ∈ l, m ≠ .up := fun m hm => h m (hl.subset hm)
  clear hl
  induction l with
  | nil => exact le_rfl
  | cons m l ih =>
    obtain ⟨hm, hl⟩ := List.forall_mem_cons.1 hl'
    have hpos := ih hl
    cases m with
    | stay => exact hpos
    | up => exact absurd rfl hm
    | down a =>
      simp only [height]
      omega

/-- A walk that is never above its start ends below it, as deep as it is high. -/
theorem stays_iff (ms : List (Move α)) : ((resolve false ms).ups = 0 ↔ Stays ms) ∧
    (Stays ms → ((resolve false ms).names.length : ℤ) = height ms) := by
  induction ms using List.reverseRecOn with
  | nil => exact ⟨⟨fun _ => stays_nil, fun _ => rfl⟩, fun _ => rfl⟩
  | append_singleton ms m ih =>
    obtain ⟨hiff, hlength⟩ := ih
    have hwalk : resolve false (ms ++ [m]) = (resolve false ms).move false m := by
      unfold resolve
      rw [walk_append]
      rfl
    rw [stays_concat, hwalk, height_append]
    generalize hplace : resolve false ms = p at hiff hlength
    obtain ⟨n, l⟩ := p
    cases m with
    | stay =>
      refine ⟨⟨fun hn => ⟨hiff.1 hn, ?_⟩, fun h => hiff.2 h.1⟩, fun h => ?_⟩
      · have := hlength (hiff.1 hn)
        simp only [height]
        omega
      · simpa [height, Location.move] using hlength h.1
    | down a =>
      refine ⟨⟨fun hn => ⟨hiff.1 hn, ?_⟩, fun h => hiff.2 h.1⟩, fun h => ?_⟩
      · have := hlength (hiff.1 hn)
        simp only [height]
        omega
      · have := hlength h.1
        simp only [Location.move, height, List.length_append, List.length_singleton] at this ⊢
        push_cast
        omega
    | up =>
      simp only [Location.move, height]
      rcases List.eq_nil_or_concat' l with rfl | ⟨l, a, rfl⟩
      · rw [Location.goUp_nil]
        refine ⟨⟨fun hn => absurd hn (Nat.succ_ne_zero n), fun h => ?_⟩, fun h => ?_⟩
        · have := hlength h.1
          simp only [List.length_nil] at this
          omega
        · have := hlength h.1
          simp only [List.length_nil] at this
          omega
      · rw [Location.goUp_concat]
        simp only [List.length_append, List.length_singleton] at hlength
        refine ⟨⟨fun hn => ⟨hiff.1 hn, ?_⟩, fun h => hiff.2 h.1⟩, fun h => ?_⟩
        · have := hlength (hiff.1 hn)
          push_cast at this
          omega
        · have := hlength h.1
          push_cast at this
          simp only
          omega

theorem ups_eq_zero_iff {ms : List (Move α)} : (resolve false ms).ups = 0 ↔ Stays ms :=
  (stays_iff ms).1

/-- A walk that stays below its start stays below what is above that. -/
theorem walk_of_stays {ms : List (Move α)} (h : Stays ms) (rooted : Bool) (n : ℕ) (base : List α) :
    walk rooted ⟨n, base⟩ ms = ⟨n, base ++ (resolve false ms).names⟩ := by
  induction ms using List.reverseRecOn with
  | nil => simp [resolve, Location.start]
  | append_singleton ms m ih =>
    obtain ⟨hms, hlast⟩ := stays_concat.1 h
    have hups := (stays_iff ms).1.2 hms
    have hlength := (stays_iff ms).2 hms
    have hwalk : resolve false (ms ++ [m]) = (resolve false ms).move false m := by
      unfold resolve
      rw [walk_append]
      rfl
    rw [walk_append, ih hms, hwalk]
    generalize resolve false ms = p at hups hlength
    obtain ⟨k, l⟩ := p
    cases m with
    | stay => rfl
    | down a => simp [Location.move]
    | up =>
      rw [height_append] at hlast
      simp only [height] at hlast
      rcases List.eq_nil_or_concat' l with rfl | ⟨l, a, rfl⟩
      · simp only [List.length_nil] at hlength
        omega
      · simp only [walk_cons, walk_nil, Location.move]
        rw [← List.append_assoc, Location.goUp_concat, Location.goUp_concat]

/-- The first name that stays: what is before it is left again, and it is not left after that. -/
def First (ms : List (Move α)) (a : α) : Prop :=
  ∃ before after, ms = before ++ .down a :: after ∧ Stays before ∧ height before = 0 ∧ Stays after

theorem First.stays {ms : List (Move α)} {a : α} (h : First ms a) :
    (resolve false ms).ups = 0 ∧ (resolve false ms).names.head? = some a := by
  obtain ⟨before, after, rfl, hbefore, hzero, hafter⟩ := h
  have hups := (stays_iff before).1.2 hbefore
  have hlength := (stays_iff before).2 hbefore
  unfold resolve at hups hlength ⊢
  rw [walk_append, walk_cons]
  generalize walk false Location.start before = p at hups hlength
  obtain ⟨n, l⟩ := p
  have hnil : l = [] := List.length_eq_zero_iff.1 (by exact_mod_cast hlength.trans hzero)
  rw [hnil, Location.move, walk_of_stays hafter]
  exact ⟨hups, rfl⟩

/-- The first name of a resolution that is below the start. -/
theorem head_names_iff {ms : List (Move α)} {a : α} :
    (resolve false ms).ups = 0 ∧ (resolve false ms).names.head? = some a ↔ First ms a := by
  refine ⟨fun h => ?_, First.stays⟩
  induction ms using List.reverseRecOn with
  | nil => cases h.2
  | append_singleton ms m ih =>
    obtain ⟨hups, hhead⟩ := h
    have hstays := stays_concat.1 (ups_eq_zero_iff.1 hups)
    have hms := (stays_iff ms).1.2 hstays.1
    have hlength := (stays_iff ms).2 hstays.1
    have hwalk : resolve false (ms ++ [m]) = (resolve false ms).move false m := by
      unfold resolve
      rw [walk_append]
      rfl
    rw [hwalk] at hhead
    -- A walk that has a first name, and goes on without leaving it.
    have hextend : First ms a → 0 < height (ms ++ [m]) → First (ms ++ [m]) a := by
      rintro ⟨before, after, rfl, hbefore, hzero, hafter⟩ hpos
      refine ⟨before, after ++ [m], by simp, hbefore, hzero, stays_concat.2 ⟨hafter, ?_⟩⟩
      simp only [height_append, height] at hpos ⊢
      omega
    generalize hplace : resolve false ms = p at ih hms hlength hhead
    obtain ⟨n, l⟩ := p
    cases m with
    | stay =>
      have hfirst := ih ⟨hms, hhead⟩
      refine hextend hfirst ?_
      cases l with
      | nil => cases hhead
      | cons b l =>
        simp only [height_append, height, List.length_cons] at hlength ⊢
        push_cast at hlength
        omega
    | down b =>
      cases l with
      | nil =>
        cases hhead
        refine ⟨ms, [], rfl, hstays.1, ?_, stays_nil⟩
        simpa using hlength.symm
      | cons c l =>
        refine hextend (ih ⟨hms, hhead⟩) ?_
        simp only [height_append, height, List.length_cons] at hlength ⊢
        push_cast at hlength
        omega
    | up =>
      rcases List.eq_nil_or_concat' l with rfl | ⟨l, b, rfl⟩
      · cases hhead
      · rw [Location.move, Location.goUp_concat] at hhead
        cases l with
        | nil => cases hhead
        | cons c l =>
          refine hextend (ih ⟨hms, hhead⟩) ?_
          simp only [height_append, height, List.length_cons, List.length_append] at hlength ⊢
          push_cast at hlength
          omega

/-- The name that a walk starts with is the first one of its place, or it is not there any more, unless
it comes again. -/
theorem head_or_not_mem {ms : List (Move α)} {a : α} (h : .down a ∉ ms) :
    ((walk false ⟨0, [a]⟩ ms).ups = 0 ∧ (walk false ⟨0, [a]⟩ ms).names.head? = some a) ∨
      a ∉ (walk false ⟨0, [a]⟩ ms).names := by
  induction ms using List.reverseRecOn with
  | nil => exact Or.inl ⟨rfl, rfl⟩
  | append_singleton ms m ih =>
    obtain ⟨hms, hm⟩ := not_or.1 (mt List.mem_append.2 h)
    have hm' : m ≠ .down a := fun heq => hm (List.mem_singleton.2 heq.symm)
    have hih := ih hms
    rw [walk_append]
    generalize walk false (⟨0, [a]⟩ : Location α) ms = p at hih
    obtain ⟨n, l⟩ := p
    rw [walk_cons, walk_nil]
    cases m with
    | stay => exact hih
    | down b =>
      have hab : a ≠ b := by
        rintro rfl
        exact hm' rfl
      rcases hih with ⟨hn, hl⟩ | hl
      · refine Or.inl ⟨hn, ?_⟩
        cases l with
        | nil => cases hl
        | cons c l => exact hl
      · refine Or.inr fun hmem => ?_
        rcases List.mem_append.1 hmem with hmem | hmem
        · exact hl hmem
        · exact hab (List.mem_singleton.1 hmem)
    | up =>
      rcases List.eq_nil_or_concat' l with rfl | ⟨l, b, rfl⟩
      · exact Or.inr List.not_mem_nil
      · rw [Location.move, Location.goUp_concat]
        rcases hih with ⟨hn, hl⟩ | hl
        · cases l with
          | nil => exact Or.inr List.not_mem_nil
          | cons c l => exact Or.inl ⟨hn, hl⟩
        · exact Or.inr fun hmem => hl (List.mem_append_left _ hmem)

/-! ### Elements and separators -/

theorem splitOnP_sep {p : α → Bool} {sep : α} (hsep : p sep = true) (s : List α) :
    (sep :: s).splitOnP p = [] :: s.splitOnP p := by
  rw [List.splitOnP_cons_eq_if_modifyHead, if_pos hsep]

theorem splitOnP_intercalate {p : α → Bool} {sep : α} (hsep : p sep = true) {es : List (List α)}
    (hne : es ≠ []) (hes : ∀ e ∈ es, ∀ a ∈ e, p a = false) :
    ([sep].intercalate es).splitOnP p = es := by
  induction es with
  | nil => exact absurd rfl hne
  | cons e es ih =>
    obtain ⟨he, hes⟩ := List.forall_mem_cons.1 hes
    cases es with
    | nil =>
      rw [List.intercalate_singleton]
      exact List.splitOnP_eq_singleton he
    | cons e' es =>
      rw [List.intercalate_cons_cons, List.append_assoc, List.singleton_append,
        List.splitOnP_append_cons_of_forall_mem he sep hsep, ih (by simp) hes]

/-- The elements have no separators. -/
theorem not_mem_splitOnP {p : α → Bool} {s e : List α} (he : e ∈ s.splitOnP p) :
    ∀ a ∈ e, p a = false := by
  induction s generalizing e with
  | nil =>
    rw [List.splitOnP_nil, List.mem_singleton] at he
    subst he
    simp
  | cons c s ih =>
    rw [List.splitOnP_cons_eq_if_modifyHead] at he
    split_ifs at he with hc
    · rcases List.mem_cons.1 he with rfl | he
      · simp
      · exact ih he
    · cases hs : s.splitOnP p with
      | nil => exact absurd hs (List.splitOnP_ne_nil p s)
      | cons e' es =>
        rw [hs] at he
        have hall : ∀ e ∈ e' :: es, ∀ a ∈ e, p a = false := fun e he => ih (hs ▸ he)
        obtain ⟨he', hes⟩ := List.forall_mem_cons.1 hall
        rcases List.mem_cons.1 he with rfl | he
        · exact List.forall_mem_cons.2 ⟨by simpa using hc, he'⟩
        · exact hes e he

/-- The elements are made of what the text is made of. -/
theorem mem_of_mem_splitOnP {p : α → Bool} {s e : List α} {a : α} (he : e ∈ s.splitOnP p) (ha : a ∈ e) :
    a ∈ s := by
  induction s generalizing e with
  | nil =>
    rw [List.splitOnP_nil, List.mem_singleton] at he
    rwa [he] at ha
  | cons c s ih =>
    rw [List.splitOnP_cons_eq_if_modifyHead] at he
    split_ifs at he
    · rcases List.mem_cons.1 he with rfl | he
      · cases ha
      · exact List.mem_cons_of_mem _ (ih he ha)
    · cases hs : s.splitOnP p with
      | nil => exact absurd hs (List.splitOnP_ne_nil p s)
      | cons e' es =>
        rw [hs] at he
        rcases List.mem_cons.1 he with rfl | he
        · rcases List.mem_cons.1 ha with rfl | ha
          · exact List.mem_cons_self
          · exact List.mem_cons_of_mem _ (ih (hs ▸ List.mem_cons_self) ha)
        · exact List.mem_cons_of_mem _ (ih (hs ▸ List.mem_cons_of_mem _ he) ha)

/-- What is before the first separator belongs to the first element. -/
theorem splitOnP_append_of_not {p : α → Bool} {l : List α} (hl : ∀ a ∈ l, p a = false) {s e : List α}
    {es : List (List α)} (hs : s.splitOnP p = e :: es) : (l ++ s).splitOnP p = (l ++ e) :: es := by
  induction l with
  | nil => exact hs
  | cons a l ih =>
    obtain ⟨ha, hl⟩ := List.forall_mem_cons.1 hl
    rw [List.cons_append, List.splitOnP_cons_eq_if_modifyHead, ha, ih hl]
    rfl

end IpeLang.Lib.Lexical
