import IpeLang.Lib.Json
import IpeLang.Debugger.RecordBuffer

/-!
# Session logs

A recorded session is written as one JSON object, and a replay folds `update` over its messages
again, without their commands.

* `encode_wire`: the log of a buffer;
* `checked_header`: what a log must be before its messages are decoded;
* `Full`, `MsgsOnly`: the codecs of programs whose `Model` is or is not encodable;
* `replayed`: the steps that a replay passes through, `render_replay`: their lines.
-/

namespace IpeLang.Debugger

open Lib (Str Json Spells isControl unitEscape highUnit lowUnit toBytes from_utf8 from_utf8_toBytes
  replay endOf)

/-! ### Text that is safe to show -/

/-- Format characters that reorder, hide, or break a log line without being control bytes. -/
def LOG_FORMAT_HAZARDS : List (ℕ × ℕ) :=
  [(0x00AD, 0x00AD), (0x0600, 0x0605), (0x061C, 0x061C), (0x06DD, 0x06DD), (0x070F, 0x070F),
    (0x0890, 0x0891), (0x08E2, 0x08E2), (0x180E, 0x180E), (0x200B, 0x200F), (0x2028, 0x2029),
    (0x202A, 0x202E), (0x2060, 0x2064), (0x2066, 0x206F), (0xFEFF, 0xFEFF), (0xFFF9, 0xFFFB),
    (0x110BD, 0x110BD), (0x110CD, 0x110CD), (0x13430, 0x1343F), (0x1BCA0, 0x1BCA3),
    (0x1D173, 0x1D17A), (0xE0000, 0xE007F)]

def is_log_hazard (c : Char) : Bool :=
  if ' ' ≤ c ∧ c ≤ '~' then false
  else isControl c || LOG_FORMAT_HAZARDS.any fun r => decide (r.1 ≤ c.toNat ∧ c.toNat ≤ r.2)

/-- A line without hazards, with its end. -/
def plain_line (body : Str) : Str := body.filter (fun c => !is_log_hazard c) ++ ['\n']

/-- The escapes of the units of a character. -/
def JsonHazardEscape (c : Char) : Str :=
  if c.toNat < 0x10000 then unitEscape c.toNat
  else unitEscape (highUnit c) ++ unitEscape (lowUnit c)

/-- The spelling of a character in a log. -/
def ControlEscaping (c : Char) : Str :=
  if c = '"' then ['\\', '"']
  else if c = '\\' then ['\\', '\\']
  else if c = '\x08' then ['\\', 'b']
  else if c = '\t' then ['\\', 't']
  else if c = '\n' then ['\\', 'n']
  else if c = '\x0c' then ['\\', 'f']
  else if c = '\r' then ['\\', 'r']
  else if c.toNat < 0x20 then unitEscape c.toNat
  else if is_log_hazard c then JsonHazardEscape c
  else [c]

theorem spells_controlEscaping (c : Char) : Spells c (ControlEscaping c) := by
  unfold ControlEscaping
  split_ifs with h₁ h₂ h₃ h₄ h₅ h₆ h₇ h₈ h₉
  · subst h₁
    exact .short (by decide)
  · subst h₂
    exact .short (by decide)
  · subst h₃
    exact .short (by decide)
  · subst h₄
    exact .short (by decide)
  · subst h₅
    exact .short (by decide)
  · subst h₆
    exact .short (by decide)
  · subst h₇
    exact .short (by decide)
  · exact .unit (by omega)
  · unfold JsonHazardEscape
    split_ifs with hunit
    · exact .unit hunit
    · exact .pair (by omega)
  · refine .plain ?_
    simp [Lib.isPlain, h₁, h₂]
    omega

/-! ### Bytes -/

/-- The largest log that is read. -/
def DEFAULT_SEAL_MAX_INPUT_BYTES : ℕ := 5 * 1024 * 1024

/-! ### The wire form -/

/-- The wire-format number that is written and accepted. -/
def FORMAT : ℕ := 1

/-- A structural fingerprint of an emitted type. -/
abbrev SchemaTag := { bytes : List UInt8 // bytes.length = 32 }

/-- Lowercase hex of a schema tag. -/
def hex (tag : SchemaTag) : Str :=
  tag.1.flatMap fun byte => [Nat.digitChar (byte.toNat / 16), Nat.digitChar (byte.toNat % 16)]

/-- The schema tags of the running program's `Msg` and `Model` types. -/
structure Tags where
  msg : SchemaTag
  model : SchemaTag

inductive Unreplayable
  | MsgNotEncodable
  | TypeUnknown
  deriving DecidableEq, Repr

/-- Why a replay was refused. -/
inductive ReplayError
  | Unreplayable (reason : Unreplayable)
  | Oversized (cap : ℕ)
  | NotUtf8
  | Truncated
  | Malformed
  | UnsupportedFormat (format : ℕ)
  | MsgTypeChanged
  | ModelTypeChanged
  | Overflowed
  | TooManySteps (cap : ℕ)
  | Encode
  deriving DecidableEq, Repr

/-- Where a replay's fold starts, as written in the log. -/
inductive Start (B : Type)
  | Init
  | Base (b : B)
  | Lost

def Start.toJson {B : Type} (encode : B → Json) : Start B → Json
  | .Init => .str "Init".toList
  | .Base b => .obj [("Base".toList, encode b)]
  | .Lost => .str "Lost".toList

/-- The start of a variant's name and content. A variant without content may be written as its name
alone. -/
def Start.ofVariant {B : Type} (decode : Json → Option B) (name : Str) (content : Option Json) :
    Option (Start B) :=
  if name = "Init".toList then
    match content with
    | none | some .null => some .Init
    | _ => none
  else if name = "Base".toList then (content.bind decode).map .Base
  else if name = "Lost".toList then
    match content with
    | none | some .null => some .Lost
    | _ => none
  else none

def Start.ofJson {B : Type} (decode : Json → Option B) : Json → Option (Start B)
  | .str name => Start.ofVariant decode name none
  | .obj [(name, content)] => Start.ofVariant decode name (some content)
  | _ => none

def Start.map {B C : Type} (f : B → C) : Start B → Start C
  | .Init => .Init
  | .Base b => .Base (f b)
  | .Lost => .Lost

/-- The session overflowed and its base could not be encoded. -/
def Start.isLost {B : Type} : Start B → Bool
  | .Lost => true
  | _ => false

theorem Start.ofJson_toJson {B C : Type} {encode : B → Json} {decode : Json → Option C} (f : B → C)
    (h : ∀ b, decode (encode b) = some (f b)) (start : Start B) :
    Start.ofJson decode (start.toJson encode) = some (start.map f) := by
  cases start with
  | Init => rfl
  | Base b => simp [Start.toJson, Start.ofJson, Start.ofVariant, Start.map, h]
  | Lost => rfl

/-- The levels of nesting that the JSON reader follows. -/
def RECURSION_LIMIT : ℕ := 128

/-- The levels that are left for a value in a log, which is in an object and in one of its fields. -/
def NESTED : ℕ := RECURSION_LIMIT - 2

/-- How the values of a type are written and read. `decode` is told how many levels of nesting are
left. -/
structure Codec (T : Type) where
  encode : T → Json
  decode : ℕ → Json → Option T
  decode_encode : ∀ v, decode NESTED (encode v) = some v

/-- Any value, unread. -/
def IgnoredAny : Json → Option Unit := fun _ => some ()

variable {Msg Model Cmd B : Type}

/-- The log as written. -/
def WireOut (tags : Tags) (start : Json) (msgs : List Json) : Json :=
  .obj [("format".toList, .int FORMAT), ("msg_tag".toList, .str (hex tags.msg)),
    ("model_tag".toList, .str (hex tags.model)), ("start".toList, start),
    ("msgs".toList, .arr msgs)]

/-- The text of a log. -/
def logText [Json.Library] (tags : Tags) (msg : Codec Msg) (encode : B → Json) (start : Start B) (msgs : List Msg) :
    Str :=
  (WireOut tags (start.toJson encode) (msgs.map msg.encode)).write ControlEscaping

/-- The log's header, read before any typed value is decoded. -/
structure WireHeader where
  format : ℕ
  msg_tag : Str
  model_tag : Str
  start : Start Unit

/-- A number of 32 bits. -/
def asU32 (j : Json) : Option ℕ := j.asInt.bind fun z =>
  if 0 ≤ z ∧ z < 2 ^ 32 then some z.toNat else none

def WireHeader.ofJson (j : Json) : Option WireHeader :=
  match j.record ["format".toList, "msg_tag".toList, "model_tag".toList, "start".toList,
    "msgs".toList] with
  | some [format, msg_tag, model_tag, start, _] => do
    some ⟨← asU32 format, ← msg_tag.asStr, ← model_tag.asStr, ← Start.ofJson IgnoredAny start⟩
  | _ => none

/-- The log's typed body; the header fields are skipped. -/
structure WireIn (Msg B : Type) where
  start : Start B
  msgs : List Msg

def WireIn.ofJson (decodeMsg : Json → Option Msg) (decodeBase : Json → Option B) (j : Json) :
    Option (WireIn Msg B) :=
  match j.record ["start".toList, "msgs".toList] with
  | some [start, msgs] => do
    some ⟨← Start.ofJson decodeBase start, ← msgs.asList decodeMsg⟩
  | _ => none

/-! ### Writing -/

/-- Encode the messages of a buffer with a start under the program's tags. -/
def encode_wire [Json.Library] (tags : Tags) (msg : Codec Msg) (encode : B → Json) (start : Start B)
    (buf : RecordBuffer Msg Model) : Except ReplayError ByteArray :=
  .ok (toBytes (logText tags msg encode start buf.msgs))

/-! ### Reading -/

/-- A decoded log, ready to fold. -/
structure Plan (Msg Model : Type) where
  /-- The recorded base, or none to start from the program's `init`. -/
  base : Option Model
  msgs : List Msg

/-- Build a plan, refusing more messages than a recorder retains. -/
def bounded_plan (base : Option Model) (msgs : List Msg) : Except ReplayError (Plan Msg Model) :=
  if DEFAULT_HISTORY_CAP < msgs.length then .error (.TooManySteps DEFAULT_HISTORY_CAP)
  else .ok ⟨base, msgs⟩

/-- Decode a text. `is_eof` says of a text that cannot be decoded whether it ends too early. -/
def from_str [Json.Library] {T : Type} (is_eof : Str → Bool) (decode : Json → Option T) (text : Str) :
    Except ReplayError T :=
  match (Json.parse text).bind decode with
  | some v => .ok v
  | none => .error (if is_eof text then .Truncated else .Malformed)

/-- Check a log's size, encoding, format and schema tags before any typed decode. -/
def checked_header [Json.Library] (is_eof : Str → Bool) (bytes : ByteArray) (tags : Tags) :
    Except ReplayError Str :=
  if DEFAULT_SEAL_MAX_INPUT_BYTES < bytes.size then
    .error (.Oversized DEFAULT_SEAL_MAX_INPUT_BYTES)
  else
    match from_utf8 bytes with
    | none => .error .NotUtf8
    | some text => do
      let header ← from_str is_eof WireHeader.ofJson text
      if header.format ≠ FORMAT then .error (.UnsupportedFormat header.format)
      else if header.msg_tag ≠ hex tags.msg then .error .MsgTypeChanged
      else
        match header.start with
        | .Init => .ok text
        | .Lost => .error .Overflowed
        | .Base _ => if header.model_tag ≠ hex tags.model then .error .ModelTypeChanged else .ok text

/-! ### The codecs -/

section Codecs

variable [Json.Library] (header_eof body_eof : Str → Bool) (tags : Tags) (msg : Codec Msg)
  (model : Codec Model)

/-- The log of a program whose `Model` is not encodable: an overflowed session has lost its start. -/
def MsgsOnly.encode (buf : RecordBuffer Msg Model) : Except ReplayError ByteArray :=
  encode_wire tags msg (fun _ : Unit => .null) (if buf.overflowed then .Lost else .Init) buf

/-- A base in the log of a program without an encoding of its `Model` was not written by its
recorder. -/
def MsgsOnly.plan (wire : WireIn Msg Unit) : Except ReplayError (Plan Msg Model) :=
  match wire.start with
  | .Init => bounded_plan none wire.msgs
  | .Base _ | .Lost => .error .Malformed

def MsgsOnly.decode (bytes : ByteArray) : Except ReplayError (Plan Msg Model) := do
  let text ← checked_header header_eof bytes tags
  let wire ← from_str body_eof (WireIn.ofJson (msg.decode NESTED) IgnoredAny) text
  MsgsOnly.plan wire

/-- The log of a program whose `Model` is encodable: an overflowed session carries its base. -/
def Full.encode (buf : RecordBuffer Msg Model) : Except ReplayError ByteArray :=
  encode_wire tags msg model.encode (if buf.overflowed then .Base buf.base else .Init) buf

def Full.plan (wire : WireIn Msg Model) : Except ReplayError (Plan Msg Model) :=
  match wire.start with
  | .Init => bounded_plan none wire.msgs
  | .Base base => bounded_plan (some base) wire.msgs
  | .Lost => .error .Overflowed

def Full.decode (bytes : ByteArray) : Except ReplayError (Plan Msg Model) := do
  let text ← checked_header header_eof bytes tags
  let wire ← from_str body_eof (WireIn.ofJson (msg.decode NESTED) (model.decode NESTED)) text
  Full.plan wire

end Codecs

/-! ### Replay -/

section Replay

variable (update : Msg → Model → Model × Cmd) (plan : Plan Msg Model) (init : Model)

/-- The steps that the fold of a plan passes through. -/
def replayed : List (Step Msg Model) := replay (next update) (plan.base.getD init) plan.msgs

variable (showMsg : Msg → Str) (showModel : Model → Str)

/-- One message of a plan: the next model, and its line after the others. -/
def renderStep (acc : Model × Str) (msg : Msg) : Model × Str :=
  let model := next update msg acc.1
  (model, acc.2 ++ plain_line (showMsg msg ++ " => ".toList ++ showModel model))

def startLine : Str :=
  let origin := if plan.base.isSome then "recorded base" else "init"
  plain_line ("start (".toList ++ origin.toList ++ "): ".toList ++ showModel (plan.base.getD init))

def finalLine (model : Model) : Str := plain_line ("final: ".toList ++ showModel model)

/-- One line for the start model, one for each step, and one for the final model. -/
def render_replay : Str :=
  let (model, out) := plan.msgs.foldl (renderStep update showMsg showModel)
    (plan.base.getD init, startLine plan init showModel)
  out ++ finalLine showModel model

/-- The lines of the steps of a history. -/
def stepLines (steps : List (Step Msg Model)) : Str :=
  steps.flatMap fun step => plain_line (showMsg step.1 ++ " => ".toList ++ showModel step.2)

/-- The replay of a plan passes through these steps, and shows them. -/
def Replays (steps : List (Step Msg Model)) : Prop :=
  replayed update plan init = steps ∧
    ∀ showMsg showModel, render_replay update plan init showMsg showModel =
      startLine plan init showModel ++ stepLines showMsg showModel steps ++
        finalLine showModel (endOf (plan.base.getD init) steps)

variable {update plan init}

theorem foldl_renderStep (msgs : List Msg) (model : Model) (out : Str) :
    msgs.foldl (renderStep update showMsg showModel) (model, out) =
      (endOf model (replay (next update) model msgs),
        out ++ stepLines showMsg showModel (replay (next update) model msgs)) := by
  induction msgs generalizing model out with
  | nil => rw [replay, stepLines, List.flatMap_nil, List.append_nil]; rfl
  | cons msg msgs ih =>
    rw [List.foldl_cons, renderStep, ih, replay, Lib.endOf_cons, stepLines, stepLines, List.flatMap_cons,
      List.append_assoc]

/-- The loop of a replay shows exactly the steps of the fold. -/
theorem replays_iff {steps : List (Step Msg Model)} :
    Replays update plan init steps ↔ replayed update plan init = steps := by
  refine ⟨And.left, fun h => ⟨h, fun showMsg showModel => ?_⟩⟩
  rw [render_replay, foldl_renderStep]
  subst h
  rfl

end Replay

/-! ### What is written is read -/

theorem record_header (tags : Tags) (start : Json) (msgs : List Json) :
    (WireOut tags start msgs).record ["format".toList, "msg_tag".toList, "model_tag".toList,
      "start".toList, "msgs".toList] =
      some [.int FORMAT, .str (hex tags.msg), .str (hex tags.model), start, .arr msgs] := rfl

theorem record_body (tags : Tags) (start : Json) (msgs : List Json) :
    (WireOut tags start msgs).record ["start".toList, "msgs".toList] = some [start, .arr msgs] := rfl

theorem asU32_format : asU32 (.int FORMAT) = some FORMAT := by
  unfold asU32
  rw [Json.asInt_int]
  rfl

theorem from_str_write [Json.Library] {T : Type} (is_eof : Str → Bool) {decode : Json → Option T}
    {j : Json} {v : T} (h : decode j = some v) :
    from_str is_eof decode (j.write ControlEscaping) = .ok v := by
  unfold from_str
  rw [Json.parse_write spells_controlEscaping, Option.bind_some, h]

theorem bounded_plan_of_le (base : Option Model) {msgs : List Msg}
    (h : msgs.length ≤ DEFAULT_HISTORY_CAP) : bounded_plan base msgs = .ok ⟨base, msgs⟩ :=
  if_neg (by omega)

section Written

variable [Json.Library] {header_eof body_eof : Str → Bool} {tags : Tags} {msg : Codec Msg} {model : Codec Model}
  {start : Start B} {encode : B → Json} {msgs : List Msg} {bytes : ByteArray}

/-- The header of a written log is accepted, unless its start was lost. -/
theorem checked_header_written
    (hsize : (toBytes (logText tags msg encode start msgs)).size ≤ DEFAULT_SEAL_MAX_INPUT_BYTES) :
    checked_header header_eof (toBytes (logText tags msg encode start msgs)) tags =
      if start.isLost then .error .Overflowed else .ok (logText tags msg encode start msgs) := by
  have hheader : WireHeader.ofJson (WireOut tags (start.toJson encode) (msgs.map msg.encode)) =
      some ⟨FORMAT, hex tags.msg, hex tags.model, start.map fun _ => ()⟩ := by
    have hstart : Start.ofJson IgnoredAny (start.toJson encode) = some (start.map fun _ => ()) :=
      Start.ofJson_toJson (fun _ => ()) (fun _ => rfl) start
    unfold WireHeader.ofJson
    rw [record_header]
    simp only [hstart, asU32_format, Json.asStr, Option.bind_eq_bind, Option.bind_some]
  unfold checked_header
  rw [if_neg (by omega), from_utf8_toBytes]
  simp only [logText, from_str_write header_eof hheader]
  cases start <;> simp [bind, Except.bind, Start.map, Start.isLost]

/-- The body of a written log is read back. -/
theorem body_written {C : Type} {decode : Json → Option C} (f : B → C)
    (h : ∀ b, decode (encode b) = some (f b)) :
    from_str body_eof (WireIn.ofJson (msg.decode NESTED) decode) (logText tags msg encode start msgs) =
      .ok ⟨start.map f, msgs⟩ := by
  refine from_str_write body_eof ?_
  unfold WireIn.ofJson
  rw [record_body]
  simp only [Start.ofJson_toJson f h start, Json.asList_map msg.decode_encode, Option.bind_eq_bind,
    Option.bind_some]

theorem MsgsOnly.decode_written {start : Start Unit} {encode : Unit → Json}
    (hsize : (toBytes (logText tags msg encode start msgs)).size ≤ DEFAULT_SEAL_MAX_INPUT_BYTES) :
    (MsgsOnly.decode header_eof body_eof tags msg (toBytes (logText tags msg encode start msgs)) :
        Except ReplayError (Plan Msg Model)) =
      if start.isLost then .error .Overflowed else MsgsOnly.plan ⟨start, msgs⟩ := by
  have hbody : from_str body_eof (WireIn.ofJson (msg.decode NESTED) IgnoredAny)
      (logText tags msg encode start msgs) = .ok ⟨start.map fun b => b, msgs⟩ :=
    body_written _ fun _ => rfl
  unfold MsgsOnly.decode
  rw [checked_header_written hsize]
  cases start <;> simp [Start.isLost, bind, Except.bind, hbody, Start.map]

theorem Full.decode_written {start : Start Model}
    (hsize : (toBytes (logText tags msg model.encode start msgs)).size ≤
      DEFAULT_SEAL_MAX_INPUT_BYTES) :
    Full.decode header_eof body_eof tags msg model
        (toBytes (logText tags msg model.encode start msgs)) = Full.plan ⟨start, msgs⟩ := by
  have hbody : from_str body_eof (WireIn.ofJson (msg.decode NESTED) (model.decode NESTED))
      (logText tags msg model.encode start msgs) = .ok ⟨start.map fun b => b, msgs⟩ :=
    body_written _ model.decode_encode
  unfold Full.decode
  rw [checked_header_written hsize]
  cases start <;> simp [Start.isLost, bind, Except.bind, hbody, Start.map, Full.plan]

end Written

/-! ### Time travel -/

section Session

variable {update : Msg → Model → Model × Cmd} {init : Model} {cap : ℕ} {s : Session Msg Model}
  {t : Timeline Msg Model}

theorem length_msgs_le (hcap : cap ≤ DEFAULT_HISTORY_CAP) (h : Agrees init cap s t) :
    s.buf.msgs.length ≤ DEFAULT_HISTORY_CAP := by
  have hle := s.buf.length_le
  have hbound : max cap 1 ≤ DEFAULT_HISTORY_CAP := max_le hcap (by decide)
  rw [h.cap] at hle
  rw [RecordBuffer.msgs, List.length_map]
  omega

/-- The fold of the retained messages from the base passes through the retained steps. -/
theorem replayed_retained (h : Agrees init cap s t) (ht : t.Sound update init cap)
    {plan : Plan Msg Model} (hmsgs : plan.msgs = s.buf.msgs)
    (hbase : plan.base.getD init = s.buf.base) : replayed update plan init = t.retained := by
  unfold replayed
  rw [hmsgs, hbase, RecordBuffer.msgs, h.log, h.base]
  exact ht.isReplay.drop t.evicted

/-- The base of a buffer that has not overflowed is the initial model. -/
theorem base_eq_init (h : Agrees init cap s t) (hzero : t.evicted = 0) : s.buf.base = init := by
  rw [h.base, Timeline.base, hzero]
  rfl

variable [Json.Library] (header_eof body_eof : Str → Bool) (tags : Tags) (msg : Codec Msg)
  (model : Codec Model)

/-- A log with its base, or without one when nothing was evicted, replays the retained steps. -/
theorem full_replayed (h : Agrees init cap s t) (ht : t.Sound update init cap)
    (hcap : cap ≤ DEFAULT_HISTORY_CAP) :
    ∃ bytes, Full.encode tags msg model s.buf = .ok bytes ∧
      (bytes.size ≤ DEFAULT_SEAL_MAX_INPUT_BYTES →
        ∃ plan, Full.decode header_eof body_eof tags msg model bytes = .ok plan ∧
          Replays update plan init t.retained) := by
  refine ⟨_, rfl, fun hsize => ?_⟩
  have hlen := length_msgs_le hcap h
  rw [Full.decode_written hsize]
  by_cases hzero : t.evicted = 0
  · rw [if_neg (mt h.overflowed.1 (not_not.2 hzero))]
    exact ⟨_, bounded_plan_of_le none hlen,
      replays_iff.2 (replayed_retained h ht rfl (base_eq_init h hzero).symm)⟩
  · rw [if_pos (h.overflowed.2 hzero)]
    exact ⟨_, bounded_plan_of_le (some s.buf.base) hlen, replays_iff.2 (replayed_retained h ht rfl rfl)⟩

/-- A log without a base replays the retained steps as long as nothing was evicted, and is refused
afterwards. -/
theorem msgsOnly_replayed (h : Agrees init cap s t) (ht : t.Sound update init cap)
    (hcap : cap ≤ DEFAULT_HISTORY_CAP) :
    ∃ bytes, MsgsOnly.encode tags msg s.buf = .ok bytes ∧
      (bytes.size ≤ DEFAULT_SEAL_MAX_INPUT_BYTES →
        ((∃ plan : Plan Msg Model, MsgsOnly.decode header_eof body_eof tags msg bytes = .ok plan ∧
          Replays update plan init t.retained) ↔ t.evicted = 0) ∧
        (t.evicted ≠ 0 → MsgsOnly.decode header_eof body_eof tags msg bytes =
          (.error .Overflowed : Except ReplayError (Plan Msg Model)))) := by
  refine ⟨_, rfl, fun hsize => ?_⟩
  have hlen := length_msgs_le hcap h
  rw [MsgsOnly.decode_written hsize]
  by_cases hzero : t.evicted = 0
  · rw [if_neg (mt h.overflowed.1 (not_not.2 hzero))]
    have hplan : ∃ plan : Plan Msg Model,
        MsgsOnly.plan ⟨.Init, s.buf.msgs⟩ = .ok plan ∧ Replays update plan init t.retained :=
      ⟨_, bounded_plan_of_le none hlen,
        replays_iff.2 (replayed_retained h ht rfl (base_eq_init h hzero).symm)⟩
    exact ⟨⟨fun _ => hzero, fun _ => hplan⟩, fun hne => absurd hzero hne⟩
  · rw [if_pos (h.overflowed.2 hzero)]
    refine ⟨⟨?_, fun h => absurd h hzero⟩, fun _ => rfl⟩
    rintro ⟨plan, hplan, -⟩
    cases hplan

end Session

section Reproduces

variable [Json.Library] (update : Msg → Model → Model × Cmd) (init : Model) (cap : ℕ)
  (ops : List (Op Msg))

/-- In every session the buffer retains steps that were live, and shows their models; and its log
replays them, unless it could not carry the model before them. -/
theorem time_travel_reproduces (header_eof body_eof : Str → Bool) (tags : Tags) (msg : Codec Msg)
    (model : Codec Model) :
    (session update init cap ops).live = (timeline update init cap ops).live init ∧
    (session update init cap ops).buf.log = (timeline update init cap ops).retained ∧
    (session update init cap ops).buf.log.length ≤ max cap 1 ∧
    (∀ (k : ℕ) (step : Step Msg Model), (timeline update init cap ops).retained[k]? = some step →
      (session update init cap ops).buf.reconstruct update k = some step.2) ∧
    (cap ≤ DEFAULT_HISTORY_CAP →
      (∃ bytes, Full.encode tags msg model (session update init cap ops).buf = .ok bytes ∧
        (bytes.size ≤ DEFAULT_SEAL_MAX_INPUT_BYTES →
          ∃ plan, Full.decode header_eof body_eof tags msg model bytes = .ok plan ∧
            Replays update plan init (timeline update init cap ops).retained)) ∧
      (∃ bytes, MsgsOnly.encode tags msg (session update init cap ops).buf = .ok bytes ∧
        (bytes.size ≤ DEFAULT_SEAL_MAX_INPUT_BYTES →
          ((∃ plan : Plan Msg Model,
              MsgsOnly.decode header_eof body_eof tags msg bytes = .ok plan ∧
              Replays update plan init (timeline update init cap ops).retained) ↔
            (timeline update init cap ops).evicted = 0) ∧
          ((timeline update init cap ops).evicted ≠ 0 →
            MsgsOnly.decode header_eof body_eof tags msg bytes =
              (.error .Overflowed : Except ReplayError (Plan Msg Model)))))) := by
  obtain ⟨h, ht⟩ : Agrees init cap (session update init cap ops) (timeline update init cap ops) ∧
      (timeline update init cap ops).Sound update init cap := agrees_session ops
  refine ⟨h.live, h.log, ?_, fun k step hk => h.reconstruct ht hk, fun hcap => ⟨?_, ?_⟩⟩
  · rw [h.log]
    exact ht.retained_le
  · exact full_replayed header_eof body_eof tags msg model h ht hcap
  · exact msgsOnly_replayed header_eof body_eof tags msg h ht hcap

end Reproduces

/-- A counter, whose messages are added to it. -/
def counter (n model : ℕ) : ℕ × Unit := (model + n, ())

/-- A buffer of no capacity retains a step nevertheless. -/
theorem counter_cap_zero : ¬ (session counter 0 0 [.live 5]).buf.log.length ≤ 0 := by decide

/-- Counts are written as numbers. -/
def natCodec : Codec ℕ where
  encode n := .int n
  decode _ j := j.asInt.bind fun z => if 0 ≤ z then some z.toNat else none
  decode_encode n := by simp

def counterTags : Tags := ⟨⟨List.replicate 32 1, by simp⟩, ⟨List.replicate 32 2, by simp⟩⟩

theorem counter_log_size : ∀ bytes,
    Full.encode counterTags natCodec natCodec (session counter 0 1 [.live 5, .live 7]).buf = .ok bytes →
      bytes.size ≤ DEFAULT_SEAL_MAX_INPUT_BYTES := by
  intro bytes h
  obtain rfl := Except.ok.inj h
  exact Nat.le_of_ble_eq_true (by decide +kernel)

/-- A session that has overflowed is replayed from its base. -/
theorem counter_log_replayed : ∃ bytes plan,
    Full.encode counterTags natCodec natCodec (session counter 0 1 [.live 5, .live 7]).buf = .ok bytes ∧
    Full.decode (fun _ => false) (fun _ => false) counterTags natCodec natCodec bytes = .ok plan ∧
    replayed counter plan 0 = [(7, 12)] := by
  obtain ⟨-, -, -, -, h⟩ := time_travel_reproduces counter 0 1 [.live 5, .live 7] (fun _ => false)
    (fun _ => false) counterTags natCodec natCodec
  obtain ⟨⟨bytes, hencode, hdecode⟩, -⟩ := h (by decide)
  obtain ⟨plan, hplan, hreplayed⟩ := hdecode (counter_log_size bytes hencode)
  exact ⟨bytes, plan, hencode, hplan, hreplayed.1⟩

end IpeLang.Debugger
