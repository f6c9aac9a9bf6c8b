import IpeLang.Runtime.PathCore

/-!
# What a cleaned path denotes

The cleaner writes the resolution of the elements of a path after its volume. Read again, this is the
same location, unless the first element of a relative Windows path, which nothing stands before any
more, looks like a drive.

* `Form`: the volume, the root and the place of a path;
* `clean_eq`: a cleaned path is the text of its form;
* `form_text`: a text of a form has this form, if it does not begin like a drive by chance;
* `clean_denotes_iff`: which paths keep what they denote.
-/

namespace IpeLang.Runtime.PathCore

open Lib (Str)
open Lib.Lexical (Move Location walk resolve First)

variable {regime : Regime}

/-! ### Texts of places -/

/-- The elements of a place. -/
def placeElements (p : Location Str) : List Str := List.replicate p.ups ['.', '.'] ++ p.names

def joined (regime : Regime) (es : List Str) : Str := [regime.separator].intercalate es

theorem joined_concat (es : List Str) (e : Str) :
    joined regime (es ++ [e]) = if es = [] then e else joined regime es ++ regime.separator :: e := by
  unfold joined
  induction es with
  | nil => simp
  | cons a es ih =>
    rw [if_neg (List.cons_ne_nil a es)]
    cases es with
    | nil => simp
    | cons b es =>
      rw [if_neg (List.cons_ne_nil b es)] at ih
      rw [List.cons_append, List.cons_append, List.intercalate_cons_cons, ← List.cons_append, ih,
        List.intercalate_cons_cons]
      simp

theorem prefix_joined (l r : List Str) : joined regime l <+: joined regime (l ++ r) := by
  induction r using List.reverseRecOn with
  | nil => rw [List.append_nil]
  | append_singleton r e ih =>
    rw [← List.append_assoc, joined_concat]
    split_ifs with hnil
    · rw [(List.append_eq_nil_iff.1 hnil).1]
      exact List.nil_prefix
    · exact ih.trans (List.prefix_append _ _)

/-- A name of an entry: it has no separators, and is none of the elements that are resolved. -/
structure IsName (regime : Regime) (e : Str) : Prop where
  move : moveOf e = .down e
  no_sep : ∀ c ∈ e, is_sep c regime = false

theorem IsName.ne_nil {e : Str} (h : IsName regime e) : e ≠ [] := by
  rintro rfl
  cases h.move

theorem moveOf_eq_down {e e' : Str} (h : moveOf e = .down e') : e' = e := by
  unfold moveOf at h
  split_ifs at h
  cases h
  rfl

/-- All elements of a place are elements of a text. -/
def GoodPlace (regime : Regime) (p : Location Str) : Prop := ∀ e ∈ p.names, IsName regime e

theorem GoodPlace.elements {p : Location Str} (h : GoodPlace regime p) {e : Str}
    (he : e ∈ placeElements p) : e ≠ [] ∧ ∀ c ∈ e, is_sep c regime = false := by
  rcases List.mem_append.1 he with he | he
  · rw [List.eq_of_mem_replicate he]
    exact ⟨by simp, by simp [is_sep_dot]⟩
  · exact ⟨(h e he).ne_nil, (h e he).no_sep⟩

theorem GoodPlace.moves {p : Location Str} (h : GoodPlace regime p) :
    (placeElements p).map moveOf = p.moves := by
  unfold placeElements Location.moves
  rw [List.map_append, List.map_replicate]
  have hnames : p.names.map moveOf = p.names.map .down := List.map_congr_left fun e he => (h e he).move
  rw [hnames]
  rfl

theorem joined_eq_nil {es : List Str} (h : ∀ e ∈ es, e ≠ []) : joined regime es = [] ↔ es = [] := by
  constructor
  · intro hjoined
    by_contra hne
    obtain ⟨es', e, rfl⟩ := List.eq_nil_or_concat' es |>.resolve_left hne
    have he := h e (by simp)
    rw [joined_concat] at hjoined
    split_ifs at hjoined
    · exact he hjoined
    · simp at hjoined
  · rintro rfl
    rfl

/-! ### The cleaner writes a place -/

/-- What has been written shows a place. -/
structure Shows (regime : Regime) (rooted : Bool) (base : Str) (p : Location Str) (st : Cleaning) :
    Prop where
  out : st.out = base ++ joined regime (placeElements p)
  dotdot : st.dotdot = (base ++ joined regime (List.replicate p.ups ['.', '.'])).length
  good : GoodPlace regime p
  root : rooted = true → p.ups = 0

/-- Where going back stops. -/
theorem popIndex_eq {sep : Char} {st : Cleaning} {front mid : Str} (hout : st.out = front ++ mid)
    (hstop : st.dotdot = front.length ∨ mid.head? = some sep) (hle : st.dotdot ≤ front.length)
    (hmid : ∀ c ∈ mid.tail, c ≠ sep) {w : ℕ} (hw : front.length ≤ w) :
    popIndex sep st w = front.length := by
  induction w with
  | zero => exact (Nat.le_zero.1 hw).symm
  | succ w ih =>
    have hget : st.out[w + 1]? = mid[w + 1 - front.length]? := by
      rw [hout, List.getElem?_append_right hw]
    unfold popIndex
    rw [hget]
    rcases Nat.lt_or_ge w front.length with hlt | hge
    · have heq : w + 1 = front.length := by omega
      rw [if_neg]
      · exact heq
      rintro ⟨hfloor, hsep⟩
      rcases hstop with hstop | hstop
      · omega
      · rw [heq, Nat.sub_self, ← List.head?_eq_getElem?] at hsep
        exact hsep hstop
    · have hne : mid[w + 1 - front.length]? ≠ some sep := by
        intro hsep
        rw [Nat.sub_add_comm hge, ← List.getElem?_tail] at hsep
        exact hmid sep (List.mem_of_getElem? hsep) rfl
      rw [if_pos ⟨by omega, hne⟩, ih hge]

section Shows

variable {rooted : Bool} {base : Str} {volw : ℕ} {p : Location Str} {st : Cleaning}

theorem separator_ne {c : Char} (hc : is_sep c regime = false) : c ≠ regime.separator := by
  rintro rfl
  rw [is_sep_separator] at hc
  cases hc

theorem shows_backUp (h : Shows regime rooted base p st) (hvol : rooted = false → volw = base.length) :
    Shows regime rooted base (p.goUp rooted) (st.backUp regime rooted volw) := by
  obtain ⟨hout, hdotdot, hgood, hroot⟩ := h
  obtain ⟨n, l⟩ := p
  -- Above the names of the place there is nothing to take back: a root stays, and else a `..` is written.
  rcases List.eq_nil_or_concat' l with rfl | ⟨l, a, rfl⟩
  · have helements : placeElements ⟨n, []⟩ = List.replicate n ['.', '.'] := List.append_nil _
    rw [helements] at hout
    have hfloor : ¬ st.dotdot < st.out.length := by
      rw [hdotdot, hout]
      exact lt_irrefl _
    unfold Cleaning.backUp
    rw [if_neg hfloor]
    cases rooted with
    | true =>
      have hroot' : (⟨n, []⟩ : Location Str).goUp true = ⟨n, []⟩ := rfl
      rw [if_pos rfl, hroot']
      exact ⟨by rw [hout, helements], hdotdot, hgood, hroot⟩
    | false =>
      rw [Location.goUp_nil, hvol rfl]
      have hwritten : (if base.length < st.out.length then st.out ++ [regime.separator] else st.out) ++
          ['.', '.'] = base ++ joined regime (List.replicate (n + 1) ['.', '.']) := by
        rw [List.replicate_succ', joined_concat, hout]
        cases n with
        | zero => simp [joined]
        | succ n =>
          have hne : joined regime (List.replicate (n + 1) ['.', '.']) ≠ [] := by
            rw [Ne, joined_eq_nil (fun e he => by rw [List.eq_of_mem_replicate he]; simp)]
            simp
          rw [if_pos, if_neg (by simp)]
          · simp
          · rw [List.length_append]
            exact Nat.lt_add_of_pos_right (List.length_pos_iff.2 hne)
      refine ⟨?_, ?_, fun e he => (List.not_mem_nil he).elim, fun h => Bool.noConfusion h⟩
      · rw [placeElements, List.append_nil]
        exact hwritten
      · exact congrArg List.length hwritten
  · have ha : IsName regime a := hgood a (by simp)
    have hl : GoodPlace regime ⟨n, l⟩ := fun e he => hgood e (List.mem_append_left _ he)
    rw [Location.goUp_concat]
    have helements : placeElements ⟨n, l ++ [a]⟩ = placeElements ⟨n, l⟩ ++ [a] :=
      (List.append_assoc _ _ _).symm
    have hle : st.dotdot ≤ (base ++ joined regime (placeElements ⟨n, l⟩)).length := by
      rw [hdotdot, List.length_append, List.length_append]
      exact Nat.add_le_add_left (prefix_joined _ _).length_le _
    -- The last element, and the separator before it if there is one.
    obtain ⟨mid, hmid, hne, hstop, htail⟩ : ∃ mid,
        st.out = (base ++ joined regime (placeElements ⟨n, l⟩)) ++ mid ∧ mid ≠ [] ∧
        (st.dotdot = (base ++ joined regime (placeElements ⟨n, l⟩)).length ∨
          mid.head? = some regime.separator) ∧ ∀ c ∈ mid.tail, c ≠ regime.separator := by
      rw [hout, helements, joined_concat]
      split_ifs with hnil
      · refine ⟨a, ?_, ha.ne_nil, Or.inl ?_, fun c hc => ?_⟩
        · rw [hnil]
          simp [joined]
        · have hups : List.replicate n ['.', '.'] = ([] : List Str) := (List.append_eq_nil_iff.1 hnil).1
          rw [hdotdot, hnil]
          exact congrArg _ (congrArg _ (congrArg _ hups))
        · exact separator_ne (ha.no_sep c (List.mem_of_mem_tail hc))
      · refine ⟨regime.separator :: a, by simp, by simp, Or.inr rfl, fun c hc => ?_⟩
        exact separator_ne (ha.no_sep c hc)
    have hlt : st.dotdot < st.out.length := by
      rw [hmid, List.length_append]
      exact hle.trans_lt (Nat.lt_add_of_pos_right (List.length_pos_iff.2 hne))
    have hlast : (base ++ joined regime (placeElements ⟨n, l⟩)).length ≤ st.out.length - 1 := by
      have hlength := congrArg List.length hmid
      have hpos := List.length_pos_iff.2 hne
      rw [List.length_append] at hlength
      omega
    unfold Cleaning.backUp
    rw [if_pos hlt, popIndex_eq hmid hstop hle htail hlast, hmid, List.take_left]
    exact ⟨rfl, hdotdot, hl, hroot⟩

theorem shows_append (h : Shows regime rooted base p st) (hvol : rooted = false → volw = base.length)
    {e : Str} (he : IsName regime e) :
    Shows regime rooted base ⟨p.ups, p.names ++ [e]⟩ (st.append regime rooted volw e) := by
  obtain ⟨hout, hdotdot, hgood, hroot⟩ := h
  have hiff : ((rooted = true ∧ st.out.length ≠ st.dotdot) ∨
      (rooted = false ∧ st.out.length ≠ volw)) ↔ placeElements p ≠ [] := by
    have hjoined : (st.out.length ≠ base.length) ↔ placeElements p ≠ [] := by
      rw [hout, List.length_append, Ne, Nat.add_eq_left, List.length_eq_zero_iff,
        joined_eq_nil fun e he => (hgood.elements he).1]
    cases rooted with
    | true =>
      have hfloor : st.dotdot = base.length := by
        rw [hdotdot, hroot rfl]
        simp [joined]
      simp [hfloor, hjoined]
    | false => simp [hvol rfl, hjoined]
  have helements : placeElements ⟨p.ups, p.names ++ [e]⟩ = placeElements p ++ [e] :=
    (List.append_assoc _ _ _).symm
  have hgood' : GoodPlace regime ⟨p.ups, p.names ++ [e]⟩ := by
    intro a ha
    rcases List.mem_append.1 ha with ha | ha
    · exact hgood a ha
    · rw [List.mem_singleton.1 ha]
      exact he
  unfold Cleaning.append
  split_ifs with hsep
  · refine ⟨?_, hdotdot, hgood', hroot⟩
    rw [helements, joined_concat, if_neg (hiff.1 hsep), hout]
    simp
  · have hnil : placeElements p = [] := not_not.1 (mt hiff.2 hsep)
    refine ⟨?_, hdotdot, hgood', hroot⟩
    rw [helements, joined_concat, if_pos hnil, hout, hnil]
    simp [joined]

theorem shows_move (h : Shows regime rooted base p st) (hvol : rooted = false → volw = base.length)
    {e : Str} (he : ∀ c ∈ e, is_sep c regime = false) :
    Shows regime rooted base (p.move rooted (moveOf e)) (st.move regime rooted volw (moveOf e)) := by
  cases hm : moveOf e with
  | stay => exact h
  | up => exact shows_backUp h hvol
  | down e' =>
    have heq := moveOf_eq_down hm
    subst heq
    exact shows_append h hvol ⟨hm, he⟩

/-- The cleaner writes the place that the elements lead to. -/
theorem shows_read (h : Shows regime rooted base p st) (hvol : rooted = false → volw = base.length)
    (s : Str) : Shows regime rooted base (walk rooted p ((elementsOf regime s).map moveOf))
      (st.read regime rooted volw s) := by
  have helements : ∀ e ∈ elementsOf regime s, ∀ c ∈ e, is_sep c regime = false :=
    fun e he => Lib.Lexical.not_mem_splitOnP he
  unfold Cleaning.read
  generalize elementsOf regime s = es at helements
  induction es generalizing p st with
  | nil => exact h
  | cons e es ih =>
    obtain ⟨he, hes⟩ := List.forall_mem_cons.1 helements
    exact ih (shows_move h hvol he) hes

end Shows

/-! ### The form of a path -/

/-- What a path denotes: the volume it begins with, whether it starts at a root, and the place that
its elements lead to. -/
structure Form where
  volume : Str
  rooted : Bool
  place : Location Str

def form (path : Str) (regime : Regime) : Form where
  volume := (volumeText path regime).map (normalise regime)
  rooted := is_rooted path regime
  place := resolve (is_rooted path regime) ((elementsOf regime (afterVolume path regime)).map moveOf)

/-- The text after the volume. -/
def Form.rest (regime : Regime) (f : Form) : Str :=
  (if f.rooted then [regime.separator] else []) ++ joined regime (placeElements f.place)

def Form.text (regime : Regime) (f : Form) : Str := f.volume ++ f.rest regime

theorem goodPlace_form (path : Str) : GoodPlace regime (form path regime).place := by
  intro e he
  obtain ⟨e', he', hmove⟩ := List.mem_map.1 (Lib.Lexical.mem_names_resolve he)
  have heq := moveOf_eq_down hmove
  subst heq
  exact ⟨hmove, Lib.Lexical.not_mem_splitOnP he'⟩

theorem ups_form {path : Str} (h : (form path regime).rooted = true) :
    (form path regime).place.ups = 0 := Lib.Lexical.ups_resolve_rooted _ h

/-- The elements after a separator, and those with it. -/
theorem map_moveOf_sep {c : Char} (hc : is_sep c regime = true) (s : Str) :
    (elementsOf regime (c :: s)).map moveOf = .stay :: (elementsOf regime s).map moveOf := by
  rw [elementsOf_sep hc]
  rfl

/-- What the cleaner writes after its volume and its root. -/
theorem read_out {path rest base : Str} {rooted : Bool} {n : ℕ} (hrooted : is_rooted path regime = rooted)
    (hbase : base = (form path regime).volume ++ if rooted then [regime.separator] else [])
    (hrest : rest = if rooted then (afterVolume path regime).tail else afterVolume path regime)
    (hn : n = (form path regime).volume.length) :
    ((⟨base, base.length⟩ : Cleaning).read regime rooted n rest).out = (form path regime).text regime := by
  have hstart : Shows regime rooted base Location.start ⟨base, base.length⟩ :=
    ⟨(List.append_nil _).symm, by simp [joined, Location.start], fun e he => (List.not_mem_nil he).elim,
      fun _ => rfl⟩
  have hvol : rooted = false → n = base.length := by
    rintro rfl
    rw [hn, hbase]
    simp
  have hplace : walk rooted Location.start ((elementsOf regime rest).map moveOf) =
      (form path regime).place := by
    unfold form
    rw [hrooted, hrest]
    cases rooted with
    | false => rfl
    | true =>
      unfold is_rooted at hrooted
      cases hafter : afterVolume path regime with
      | nil =>
        rw [hafter] at hrooted
        cases hrooted
      | cons c s =>
        rw [hafter] at hrooted
        rw [map_moveOf_sep (by simpa using hrooted)]
        rfl
  rw [(shows_read hstart hvol rest).out, hplace, hbase]
  unfold Form.text Form.rest
  rw [show (form path regime).rooted = rooted from hrooted, List.append_assoc]

/-- A cleaned path is the text of its form, and the empty text is the current directory. -/
theorem clean_eq (path : Str) : clean_with path regime =
    if (form path regime).text regime = [] then ['.'] else (form path regime).text regime := by
  unfold clean_with
  by_cases hnil : path = []
  · subst hnil
    cases regime <;> rfl
  rw [if_neg hnil]
  dsimp only
  rw [cleanLoop_eq le_rfl]
  have hbase : (if is_rooted path regime then (volumeText path regime).map (normalise regime) ++
      [regime.separator] else (volumeText path regime).map (normalise regime)) =
      (form path regime).volume ++ if is_rooted path regime then [regime.separator] else [] := by
    split_ifs
    · rfl
    · exact (List.append_nil _).symm
  rw [read_out (n := ((volumeText path regime).map (normalise regime)).length) rfl hbase rfl rfl]

end IpeLang.Runtime.PathCore
