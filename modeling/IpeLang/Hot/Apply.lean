import IpeLang.Hot.Classify

/-!
# Running a transition

The running program decodes the text of a transition and applies it to the JSON object of the model,
which is then decoded again.

* `apply_transition`: the next model, or the same one when the transition is refused;
* `apply_transition_hot`: the same for the text of a transition, with the replacements of a
  development session;
* `apply_transition_hot_sets`: what the text of a transition does to a model.
-/

namespace IpeLang.Hot

open Lib (Str Json Spells toBytes from_utf8 from_utf8_toBytes unitEscape intText)
open IpeLang.Types (Symbol)

/-- Largest text of a model that is decoded again. -/
def MAX_TRANSITION_MODEL_BYTES : ℕ := 64 * 1024 * 1024

theorem spells_escape (c : Char) : Spells c (escape c) := by
  unfold escape
  split_ifs with h₁ h₂ h₃ h₄ h₅ h₆ h₇ h₈
  · subst h₁
    exact .short (by decide)
  · subst h₂
    exact .short (by decide)
  · subst h₃
    exact .short (by decide)
  · subst h₄
    exact .short (by decide)
  · subst h₅
    exact .short (by decide)
  · subst h₆
    exact .short (by decide)
  · subst h₇
    exact .short (by decide)
  · exact .unit (by omega)
  · refine .plain ?_
    simp [Lib.isPlain, h₁, h₂]
    omega

/-! ### The datum -/

def asI64 (j : Json) : Option (BitVec 64) := j.asInt.bind fun z =>
  if -2 ^ 63 ≤ z ∧ z < 2 ^ 63 then some (BitVec.ofInt 64 z) else none

def asBool : Json → Option Bool
  | .bool b => some b
  | _ => none

@[simp] theorem asI64_int (n : BitVec 64) : asI64 (.int n.toInt) = some n := by
  have hle := BitVec.le_toInt n
  have hlt := BitVec.toInt_lt (x := n)
  unfold asI64
  rw [Json.asInt_int, Option.bind_some, if_pos ⟨by simpa using hle, by simpa using hlt⟩,
    BitVec.ofInt_toInt]

def Source.toJson : Source → Json
  | .Int n => .obj [("Int".toList, .int n.toInt)]
  | .Bool b => .obj [("Bool".toList, .bool b)]
  | .Str s => .obj [("Str".toList, .str s)]
  | .Field name => .obj [("Field".toList, .str name)]

def Transition.toJson (t : Transition) : Json :=
  .obj [("field".toList, .str t.field), ("op".toList, .str t.op.name),
    ("source".toList, t.source.toJson)]

def Source.ofJson : Json → Option Source
  | .obj [(name, content)] =>
    if name = "Int".toList then (asI64 content).map .Int
    else if name = "Bool".toList then (asBool content).map .Bool
    else if name = "Str".toList then content.asStr.map .Str
    else if name = "Field".toList then content.asStr.map .Field
    else none
  | _ => none

def TransitionOp.ofName (name : Str) : Option TransitionOp :=
  if name = "Set".toList then some .Set
  else if name = "IntAdd".toList then some .IntAdd
  else if name = "IntSub".toList then some .IntSub
  else if name = "BoolNot".toList then some .BoolNot
  else none

def TransitionOp.ofJson : Json → Option TransitionOp
  | .str name => TransitionOp.ofName name
  | .obj [(name, .null)] => TransitionOp.ofName name
  | _ => none

def Transition.ofJson (j : Json) : Option Transition :=
  match j.record ["field".toList, "op".toList, "source".toList] with
  | some [field, op, source] => do
    some ⟨← field.asStr, ← TransitionOp.ofJson op, ← Source.ofJson source⟩
  | _ => none

theorem write_json_eq_print (source : Source) :
    source.write_json = source.toJson.print escape := by
  cases source with
  | Int n => rfl
  | Bool b => cases b <;> rfl
  | Str s => rfl
  | Field name => rfl

theorem printString_keys :
    Lib.printString escape "field".toList = "\"field\"".toList ∧
    Lib.printString escape "op".toList = "\"op\"".toList ∧
    Lib.printString escape "source".toList = "\"source\"".toList := ⟨rfl, rfl, rfl⟩

theorem printString_name (op : TransitionOp) :
    Lib.printString escape op.name = '"' :: (op.name ++ ['"']) := by
  cases op <;> rfl

/-- The text of a transition is that of its JSON value. -/
theorem to_json_eq_print (t : Transition) : t.to_json = t.toJson.print escape := by
  obtain ⟨field, op, source⟩ := t
  obtain ⟨hfield, hop, hsource⟩ := printString_keys
  simp only [Transition.toJson, Json.print, Lib.printFields]
  rw [hfield, hop, hsource, printString_name, ← write_json_eq_print]
  unfold Transition.to_json
  simp only [List.append_assoc, List.cons_append, write_json_string, Lib.printString]
  rfl

theorem Transition.ofJson_toJson (t : Transition) : Transition.ofJson t.toJson = some t := by
  obtain ⟨field, op, source⟩ := t
  have hsource : Source.ofJson source.toJson = some source := by
    cases source <;> simp [Source.toJson, Source.ofJson, asBool, Json.asStr]
  have hop : TransitionOp.ofJson (.str op.name) = some op := by
    cases op <;> rfl
  have hrecord : (Transition.toJson ⟨field, op, source⟩).record
      ["field".toList, "op".toList, "source".toList] =
      some [.str field, .str op.name, source.toJson] := rfl
  unfold Transition.ofJson
  rw [hrecord]
  simp [hsource, hop, Json.asStr]

/-- The text of a transition is read back. -/
theorem read_to_json [Json.Library] (t : Transition) :
    (Json.parse t.to_json).bind Transition.ofJson = some t := by
  rw [to_json_eq_print, Json.parse, Json.Library.parse_print spells_escape, Option.bind_some, Transition.ofJson_toJson]

/-! ### The model as an object -/

/-- How the values of the other types are written and read in the object of a model. `decode` is told
the type. -/
structure Serde (D T : Type) where
  encode : Value D → Json
  decode : T → Json → Option (Value D)

/-- The type of a field. -/
inductive FieldTy (T : Type)
  | int
  | bool
  | str
  | other (ty : T)

/-- The fields of the model and their types, in their order. -/
abbrev Shape (T : Type) := List (Symbol × FieldTy T)

section Serde

variable {D T : Type} (serde : Serde D T)

def encode : Value D → Json
  | .int n => .int n.toInt
  | .bool b => .bool b
  | .str s => .str s
  | v => serde.encode v

def decode : FieldTy T → Json → Option (Value D)
  | .int, j => (asI64 j).map .int
  | .bool, j => (asBool j).map .bool
  | .str, j => j.asStr.map .str
  | .other ty, j => serde.decode ty j

/-- The fields of the object of a model. -/
def to_value (key : Symbol → Str) (model : Fields D) : List (Str × Json) :=
  model.map fun f => (key f.1, encode serde f.2)

def decodeFields : Shape T → List Json → Option (Fields D)
  | [], [] => some []
  | (name, ty) :: shape, j :: js =>
    (decode serde ty j).bind fun v => (decodeFields shape js).map fun fs => (name, v) :: fs
  | _, _ => none

/-- Decode a model. -/
def decodeModel (key : Symbol → Str) (shape : Shape T) (j : Json) : Option (Fields D) :=
  (j.record (shape.map fun f => key f.1)).bind (decodeFields serde shape)

/-! ### Applying a transition -/

def resolve_source (obj : List (Str × Json)) : Source → Option Json
  | .Int n => some (.int n.toInt)
  | .Bool b => some (.bool b)
  | .Str s => some (.str s)
  | .Field name => obj.lookup name

/-- The next JSON value of a field. -/
def compute_next (op : TransitionOp) (current : Json) (source : Source) (obj : List (Str × Json)) :
    Option Json :=
  match op with
  | .Set => resolve_source obj source
  | .IntAdd => do
    let a ← asI64 current
    let b ← (resolve_source obj source).bind asI64
    some (.int (a + b).toInt)
  | .IntSub => do
    let a ← asI64 current
    let b ← (resolve_source obj source).bind asI64
    some (.int (a - b).toInt)
  | .BoolNot => (asBool current).map fun b => .bool (!b)

/-- The fields of an object with another value in one that it has. -/
def insert (obj : List (Str × Json)) (name : Str) (value : Json) : List (Str × Json) :=
  obj.map fun f => if f.1 = name then (f.1, value) else f

variable [Json.Library]

/-- Decode the bytes of a model. -/
def from_slice (key : Symbol → Str) (shape : Shape T) (bytes : ByteArray) : Option (Fields D) :=
  ((from_utf8 bytes).bind Json.parse).bind (decodeModel serde key shape)

def try_apply (key : Symbol → Str) (shape : Shape T) (t : Transition) (model : Fields D) :
    Option (Fields D) := do
  let obj := to_value serde key model
  let current ← obj.lookup t.field
  let next_field ← compute_next t.op current t.source obj
  let bytes := toBytes ((Json.obj (insert obj t.field next_field)).write escape)
  if MAX_TRANSITION_MODEL_BYTES < bytes.size then none else from_slice serde key shape bytes

/-- The next model, or the same one when the transition is refused. -/
def apply_transition (key : Symbol → Str) (shape : Shape T) (t : Transition) (model : Fields D) :
    Fields D := (try_apply serde key shape t model).getD model

/-- The replacements of a development session, by the text of the transition that they replace. -/
abbrev DevTransitionOverlay := List (Str × Transition)

def apply_transition_hot (active : Bool) (overlay : DevTransitionOverlay) (key : Symbol → Str)
    (shape : Shape T) (default_json : Str) (model : Fields D) : Fields D :=
  match if active then overlay.lookup default_json else none with
  | some replacement => apply_transition serde key shape replacement model
  | none =>
    match (Json.parse default_json).bind Transition.ofJson with
    | some baked => apply_transition serde key shape baked model
    | none => model

end Serde

/-! ### What a transition does to an object -/

section Sound

variable {D T : Type} {serde : Serde D T} {key : Symbol → Str} {shape : Shape T}
  {model next : Fields D}

theorem lookup_to_value (hkey : Function.Injective key) (name : Symbol) :
    (to_value serde key model).lookup (key name) = (model.lookup name).map (encode serde) := by
  induction model with
  | nil => rfl
  | cons f model ih =>
    unfold to_value at ih ⊢
    rw [List.map_cons, List.lookup_cons, List.lookup_cons, ih]
    by_cases h : name = f.1
    · rw [h, beq_self_eq_true, beq_self_eq_true]
      rfl
    · have hne : key name ≠ key f.1 := fun heq => h (hkey heq)
      rw [beq_eq_false_iff_ne.2 h, beq_eq_false_iff_ne.2 hne]

theorem insert_to_value (hkey : Function.Injective key) (name : Symbol) (v : Value D) :
    insert (to_value serde key model) (key name) (encode serde v) =
      to_value serde key (model.map fun f => if f.1 = name then (f.1, v) else f) := by
  simp only [insert, to_value, List.map_map]
  refine List.map_congr_left fun f _ => ?_
  by_cases h : f.1 = name
  · simp [h]
  · have hne : key f.1 ≠ key name := fun heq => h (hkey heq)
    simp [h, hne]

/-- The next JSON value of a field is that of the value that the transition gives to it. -/
theorem compute_next_gives (hkey : Function.Injective key) {field : Symbol} {op : TransitionOp}
    {source : Source} {v current : Value D} (h : Gives key model field op source v)
    (hcurrent : model.lookup field = some current) :
    compute_next op (encode serde current) source (to_value serde key model) =
      some (encode serde v) := by
  cases h with
  | int n => rfl
  | bool b => rfl
  | str s => rfl
  | field h =>
    rw [compute_next, resolve_source, lookup_to_value hkey, h]
    rfl
  | add n h =>
    cases hcurrent.symm.trans h
    simp [compute_next, resolve_source, encode]
  | sub n h =>
    cases hcurrent.symm.trans h
    simp [compute_next, resolve_source, encode]
  | not source h =>
    cases hcurrent.symm.trans h
    rfl

/-- A record of the type of the model: the same fields in the same order. -/
def OfShape (shape : Shape T) (model : Fields D) : Prop := model.map Prod.fst = shape.map Prod.fst

theorem OfShape.setField (hmodel : OfShape shape model) {field : Symbol} {v : Value D}
    (h : setField model field v = some next) :
    OfShape shape next ∧ next = model.map fun f => if f.1 = field then (f.1, v) else f := by
  unfold Hot.setField at h
  split_ifs at h with hmem
  cases h
  refine ⟨?_, rfl⟩
  unfold OfShape
  rw [← hmodel, List.map_map]
  refine List.map_congr_left fun f _ => ?_
  by_cases hf : f.1 = field <;> simp [hf]

/-- The object of a record of the type of the model is decoded field by field. -/
theorem decodeModel_to_value (hkey : Function.Injective key) (hnodup : (shape.map Prod.fst).Nodup)
    (hnext : OfShape shape next) :
    decodeModel serde key shape (.obj (to_value serde key next)) =
      decodeFields serde shape (next.map fun f => encode serde f.2) := by
  have hkeys : shape.map (fun f => key f.1) = (to_value serde key next).map Prod.fst := by
    have := congrArg (List.map key) hnext
    simp only [List.map_map] at this
    simp only [to_value, List.map_map]
    exact this.symm
  have hdistinct : ((to_value serde key next).map Prod.fst).Nodup := by
    rw [← hkeys]
    have := hnodup.map hkey
    rwa [List.map_map] at this
  unfold decodeModel
  rw [hkeys, Json.record_obj hdistinct, Option.bind_some]
  simp only [to_value, List.map_map]
  rfl

/-- Every field is read back from its JSON value as it was. -/
def ReadBack (serde : Serde D T) (shape : Shape T) (model : Fields D) : Prop :=
  ∀ p ∈ shape.zip model, decode serde p.1.2 (encode serde p.2.2) = some p.2.2

/-- Every field is read from its JSON value. -/
def Readable (serde : Serde D T) (shape : Shape T) (model : Fields D) : Prop :=
  ∀ p ∈ shape.zip model, (decode serde p.1.2 (encode serde p.2.2)).isSome = true

/-- The text of the model is not too long. -/
def Fits [Json.Library] (serde : Serde D T) (key : Symbol → Str) (model : Fields D) : Prop :=
  (toBytes ((Json.obj (to_value serde key model)).write escape)).size ≤ MAX_TRANSITION_MODEL_BYTES

theorem decodeFields_eq_some_iff (hnext : OfShape shape next) :
    decodeFields serde shape (next.map fun f => encode serde f.2) = some next ↔
      ReadBack serde shape next := by
  unfold ReadBack
  induction shape generalizing next with
  | nil =>
    obtain rfl : next = [] := List.map_eq_nil_iff.1 hnext
    simp [decodeFields]
  | cons s shape ih =>
    cases next with
    | nil => cases hnext
    | cons f next =>
      obtain ⟨hname, hrest⟩ := List.cons.inj hnext
      obtain ⟨name, v⟩ := f
      obtain ⟨name', ty⟩ := s
      cases hname
      rw [List.zip_cons_cons, List.forall_mem_cons, List.map_cons, decodeFields, ← ih hrest]
      simp only [Option.bind_eq_some_iff, Option.map_eq_some_iff, List.cons.injEq, Prod.mk.injEq,
        true_and]
      constructor
      · rintro ⟨w, hw, fs, hfs, rfl, rfl⟩
        exact ⟨hw, hfs⟩
      · rintro ⟨hw, hfs⟩
        exact ⟨v, hw, next, hfs, rfl, rfl⟩

theorem decodeFields_isSome_iff (hnext : OfShape shape next) :
    (decodeFields serde shape (next.map fun f => encode serde f.2)).isSome = true ↔
      Readable serde shape next := by
  unfold Readable
  induction shape generalizing next with
  | nil =>
    obtain rfl : next = [] := List.map_eq_nil_iff.1 hnext
    simp [decodeFields]
  | cons s shape ih =>
    cases next with
    | nil => cases hnext
    | cons f next =>
      obtain ⟨-, hrest⟩ := List.cons.inj hnext
      obtain ⟨name', ty⟩ := s
      rw [List.zip_cons_cons, List.forall_mem_cons, List.map_cons, decodeFields, ← ih hrest]
      cases decode serde ty (encode serde f.2) with
      | none => simp
      | some w => simp

variable [Json.Library]

/-- What a transition does to a model: the record that it describes, as far as that is read back. -/
theorem apply_transition_sets (hkey : Function.Injective key)
    (hnodup : (shape.map Prod.fst).Nodup) (hmodel : OfShape shape model) {t : Transition}
    (h : Sets key t model next) :
    apply_transition serde key shape t model =
      (if MAX_TRANSITION_MODEL_BYTES <
          (toBytes ((Json.obj (to_value serde key next)).write escape)).size then none
        else decodeFields serde shape (next.map fun f => encode serde f.2)).getD model := by
  obtain ⟨field, v, hfield, hgives, hset⟩ := h
  obtain ⟨hnext, hnext_eq⟩ := hmodel.setField hset
  obtain ⟨current, hcurrent⟩ : ∃ current, model.lookup field = some current := by
    rw [← Option.isSome_iff_exists, List.lookup_isSome_iff]
    unfold setField at hset
    split_ifs at hset with hmem
    obtain ⟨f, hf, rfl⟩ := List.mem_map.1 hmem
    exact ⟨f, hf, beq_self_eq_true _⟩
  have hcompute : compute_next t.op (encode serde current) t.source (to_value serde key model) =
      some (encode serde v) := compute_next_gives hkey hgives hcurrent
  have hinsert : insert (to_value serde key model) (key field) (encode serde v) =
      to_value serde key next := by
    rw [insert_to_value hkey, hnext_eq]
  have hslice : from_slice serde key shape
      (toBytes ((Json.obj (to_value serde key next)).write escape)) =
      decodeFields serde shape (next.map fun f => encode serde f.2) := by
    unfold from_slice
    rw [from_utf8_toBytes, Option.bind_some, Json.parse_write spells_escape, Option.bind_some,
      decodeModel_to_value hkey hnodup hnext]
  unfold apply_transition try_apply
  rw [hfield]
  simp only [lookup_to_value hkey, hcurrent, Option.map_some, Option.bind_eq_bind, Option.bind_some,
    hcompute, hinsert, hslice]

/-- A transition has its effect on a model exactly when the next model is read back, or when it is
refused and the next model is the same. -/
theorem apply_transition_eq_iff (hkey : Function.Injective key)
    (hnodup : (shape.map Prod.fst).Nodup) (hmodel : OfShape shape model) {t : Transition}
    (h : Sets key t model next) :
    apply_transition serde key shape t model = next ↔
      Fits serde key next ∧ ReadBack serde shape next ∨
        next = model ∧ ¬ (Fits serde key next ∧ Readable serde shape next) := by
  have hnext : OfShape shape next := by
    obtain ⟨field, v, -, -, hset⟩ := h
    exact (hmodel.setField hset).1
  rw [apply_transition_sets hkey hnodup hmodel h, ← decodeFields_eq_some_iff hnext,
    ← decodeFields_isSome_iff hnext, Fits]
  split_ifs with hfits
  · have hnot : ¬ (toBytes ((Json.obj (to_value serde key next)).write escape)).size ≤
        MAX_TRANSITION_MODEL_BYTES := by omega
    rw [Option.getD_none]
    constructor
    · intro hsame
      exact Or.inr ⟨hsame.symm, fun hread => hnot hread.1⟩
    · rintro (⟨hfit, -⟩ | ⟨hsame, -⟩)
      · exact absurd hfit hnot
      · exact hsame.symm
  · have hle : (toBytes ((Json.obj (to_value serde key next)).write escape)).size ≤
        MAX_TRANSITION_MODEL_BYTES := by omega
    cases decodeFields serde shape (next.map fun f => encode serde f.2) with
    | none =>
      rw [Option.getD_none]
      constructor
      · intro hsame
        exact Or.inr ⟨hsame.symm, fun hread => by cases hread.2⟩
      · rintro (⟨-, hsome⟩ | ⟨hsame, -⟩)
        · cases hsome
        · exact hsame.symm
    | some r =>
      rw [Option.getD_some]
      constructor
      · rintro rfl
        exact Or.inl ⟨hle, rfl⟩
      · rintro (⟨-, hsome⟩ | ⟨-, hnot⟩)
        · exact Option.some.inj hsome
        · exact absurd ⟨hle, rfl⟩ hnot

end Sound

/-! ### Arms -/

section Arm

variable {D T : Type} {serde : Serde D T} {key : Symbol → Str} {shape : Shape T}
  {model : Fields D} [Json.Library]

theorem apply_transition_hot_to_json (active : Bool) (t : Transition) :
    apply_transition_hot serde active [] key shape t.to_json model =
      apply_transition serde key shape t model := by
  have hnone : (if active then ([] : DevTransitionOverlay).lookup t.to_json else none) = none := by
    cases active <;> rfl
  unfold apply_transition_hot
  rw [hnone, read_to_json]

/-- The text of an arm that is reduced to a transition leads from a model to the one that the arm
evaluates to exactly when that model fits and is read back from its JSON values, or when it is refused
and the arm leaves the model as it is. -/
theorem hot_arm_agrees_iff (sem : Semantics D) {ρ : Env D} {m : Symbol}
    {resolve : Symbol → Option Str} (active : Bool) (hkey : Function.Injective key)
    (hresolve : ∀ s k, resolve s = some k → k = key s) (hshape : (shape.map Prod.fst).Nodup)
    (hmodel : OfShape shape model) (hρ : ρ.lookup m = some (.record model)) {e : Expr}
    (hnodup : (armNames e).Nodup) (hm : m ∉ armNames e) {t : Transition}
    (ht : transition_of_arm m resolve e = some t) {v : Value D} (hv : eval sem ρ e = some v) :
    ∃ next, v = .tuple [.record next, .cmdNone] ∧
      (apply_transition_hot serde active [] key shape t.to_json model = next ↔
        Fits serde key next ∧ ReadBack serde shape next ∨
          next = model ∧ ¬ (Fits serde key next ∧ Readable serde shape next)) := by
  obtain ⟨next, rfl, hsets⟩ := transition_of_arm_sets hρ hresolve hkey hnodup hm ht hv
  refine ⟨next, rfl, ?_⟩
  rw [apply_transition_hot_to_json]
  exact apply_transition_eq_iff hkey hshape hmodel hsets

end Arm

/-! ### A counter beside a number that may not be finite -/

/-- Numbers that are not finite are written as null. -/
def floatSerde : Serde (Option ℤ) Unit where
  encode
    | .data (some z) => .int z
    | _ => .null
  decode _ j := j.asInt.map fun z => .data (some z)

def noSemantics : Semantics (Option ℤ) where
  binOp _ _ _ := none
  call _ _ := none
  other _ _ := none

/-- The key of a symbol. -/
def numberedKey (s : Symbol) : Str := 'f' :: Lib.Semver.decimal s

theorem numberedKey_injective : Function.Injective numberedKey := by
  intro a b h
  rw [← Lib.Semver.ofDecimal_decimal a, ← Lib.Semver.ofDecimal_decimal b, (List.cons.inj h).2]

/-- `{ model | count = count + 1 }`, as it is lowered; `model` is 0 and `count` is 2. -/
def increment : Expr :=
  .Tuple [.Let 1 (.BinOp .IntAdd (.Access (.Var 0) 2) (.Int 1)) (.Update (.CloneVar 0) [(2, .Var 1)]),
    .Call .CmdNone []]

def incremented : Transition := ⟨numberedKey 2, .IntAdd, .Int 1⟩

def counterShape : Shape Unit := [(2, .int), (3, .other ())]

/-- A model with its count and its number. -/
def counterModel (count : BitVec 64) (ratio : Option ℤ) : Fields (Option ℤ) :=
  [(2, .int count), (3, .data ratio)]

theorem counterModel_ofShape (count : BitVec 64) (ratio : Option ℤ) :
    OfShape counterShape (counterModel count ratio) := rfl

theorem increment_incremented :
    transition_of_arm 0 (fun s => some (numberedKey s)) increment = some incremented := by decide

theorem eval_increment (ratio : Option ℤ) :
    eval noSemantics [(0, .record (counterModel 0 ratio))] increment =
      some (.tuple [.record (counterModel 1 ratio), .cmdNone]) := rfl

theorem counterModel_fits : Fits floatSerde numberedKey (counterModel 1 (some 5)) := by
  rw [Fits, show (Json.obj (to_value floatSerde numberedKey (counterModel 1 (some 5)))).write escape =
    "\x7b\"f2\":1,\"f3\":5\x7d".toList by decide +kernel]
  decide +kernel

theorem counterModel_readBack : ReadBack floatSerde counterShape (counterModel 1 (some 5)) := by
  intro p hp
  simp only [counterShape, counterModel, List.zip_cons_cons, List.zip_nil_right, List.mem_cons,
    List.not_mem_nil, or_false] at hp
  rcases hp with rfl | rfl
  · rfl
  · rfl

/-- A number that is finite is read back, and the arms agree. -/
theorem counter_arm_agrees :
    apply_transition_hot floatSerde true [] numberedKey counterShape incremented.to_json
      (counterModel 0 (some 5)) = counterModel 1 (some 5) := by
  have hagrees : ∃ next, (.tuple [.record (counterModel 1 (some 5)), .cmdNone] : Value (Option ℤ)) =
        .tuple [.record next, .cmdNone] ∧
      (apply_transition_hot floatSerde true [] numberedKey counterShape incremented.to_json
          (counterModel 0 (some 5)) = next ↔
        Fits floatSerde numberedKey next ∧ ReadBack floatSerde counterShape next ∨
          next = counterModel 0 (some 5) ∧
            ¬ (Fits floatSerde numberedKey next ∧ Readable floatSerde counterShape next)) :=
    hot_arm_agrees_iff noSemantics true numberedKey_injective
      (fun _ _ h => (Option.some.inj h).symm) (by decide) (counterModel_ofShape 0 (some 5)) rfl
      (by decide) (by decide) increment_incremented (eval_increment (some 5))
  obtain ⟨next, heq, hiff⟩ := hagrees
  cases heq
  exact hiff.2 (Or.inl ⟨counterModel_fits, counterModel_readBack⟩)

/-- The compiled arm counts on, and the transition is refused: the number is not read back. -/
theorem nan_arm_refused :
    transition_of_arm 0 (fun s => some (numberedKey s)) increment = some incremented ∧
    eval noSemantics [(0, .record (counterModel 0 none))] increment =
      some (.tuple [.record (counterModel 1 none), .cmdNone]) ∧
    apply_transition_hot floatSerde true [] numberedKey counterShape incremented.to_json
      (counterModel 0 none) ≠ counterModel 1 none := by
  refine ⟨increment_incremented, eval_increment none, ?_⟩
  have hsets : Sets numberedKey incremented (counterModel 0 none) (counterModel 1 none) :=
    ⟨2, .int 1, rfl, Gives.add (D := Option ℤ) (a := 0) 1 rfl, rfl⟩
  rw [apply_transition_hot_to_json]
  rw [ne_eq, apply_transition_eq_iff numberedKey_injective (by decide) (counterModel_ofShape 0 none)
    hsets]
  rintro (⟨-, hread⟩ | ⟨hsame, -⟩)
  · have := hread ((3, .other ()), (3, .data none)) (by simp [counterShape, counterModel])
    cases this
  · cases hsame

end IpeLang.Hot
