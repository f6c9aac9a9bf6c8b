import IpeLang.Lib.Text
import IpeLang.Lib.SortedMap
import Mathlib.Data.Char

/-!
# Trees of HTML

The tree that a view returns, the policy for what may reach a browser, and the text of a tree.

* `SafeAttrName`: a name that may be set; `safe_patch_attr`: a pair that may be;
* `neutralise_script_close`, `strip_style_close`: bodies that do not end their element;
* `render_into_ctx`: the text of a tree.
-/

namespace IpeLang.Runtime.Dom

open Lib (Str SortedMap isWhiteSpace)

/-- The fields of a form that was sent. -/
abbrev FormData := SortedMap Str Str

/-- A handler, by the name of its event. -/
inductive Event (M : Type)
  | OnMsg (name : Str) (msg : M)
  | OnString (name : Str) (handler : Str → M)
  | OnBool (name : Str) (handler : Bool → M)
  | OnForm (name : Str) (handler : FormData → Option M)
  | OnWidget (name : Str) (handler : Str → Option M)

inductive Attribute (M : Type)
  | Attr (key value : Str)
  | BoolAttr (key : Str) (present : Bool)
  | EventAttr (event : Event M)
  | NoAttr

inductive Html (M : Type)
  | HElement (tag : Str) (attrs : List (Attribute M)) (kids : List (Html M))
  | HText (text : Str)
  | HRaw (raw : Str)

variable {M : Type}

def Event.name : Event M → Str
  | .OnMsg name _ => name
  | .OnString name _ => name
  | .OnBool name _ => name
  | .OnForm name _ => name
  | .OnWidget name _ => name

/-- Nodes at this depth are neither rendered nor stamped. -/
def MAX_HTML_DEPTH : ℕ := 1024

/-! ### Names -/

def isNameChar (c : Char) : Bool := c.isAlphanum || c == '-' || c == '_' || c == ':' || c == '.'

/-- A name that may stand unescaped in a tag. -/
def is_safe_html_name (name : Str) : Bool := !name.isEmpty && name.all isNameChar

def to_ascii_lowercase (s : Str) : Str := s.map Char.toLower

/-- Attributes that run scripts, whatever their values are. -/
def is_dangerous_attr_name (name : Str) : Bool :=
  "on".toList.isPrefixOf (to_ascii_lowercase name) || to_ascii_lowercase name == "srcdoc".toList

/-- The name of an attribute that passed the policy. -/
structure SafeAttrName where
  name : Str
  safe : is_safe_html_name name = true
  harmless : is_dangerous_attr_name name = false

def SafeAttrName.parse (name : Str) : Option SafeAttrName :=
  if h : is_safe_html_name name = true ∧ is_dangerous_attr_name name = false then some ⟨name, h.1, h.2⟩
  else none

/-! ### Addresses of other documents -/

def is_url_attr (name : Str) : Bool :=
  ["href".toList, "src".toList, "xlink:href".toList, "formaction".toList, "action".toList, "poster".toList,
    "cite".toList, "background".toList, "manifest".toList, "longdesc".toList, "data".toList].contains
    (to_ascii_lowercase name)

/-- Attributes for pictures. -/
def is_media_url_attr (name : Str) : Bool :=
  ["src".toList, "poster".toList, "background".toList].contains (to_ascii_lowercase name)

/-- The scheme, after what was read of it: up to the first colon, without controls and spaces. -/
def urlSchemeFrom (scheme : Str) : Str → Option Str
  | [] => none
  | c :: s =>
    if c = ':' then some scheme
    else if c = '/' ∨ c = '?' ∨ c = '#' then none
    else if c.toNat ≤ 0x20 then urlSchemeFrom scheme s
    else urlSchemeFrom (scheme ++ [c.toLower]) s

def url_scheme (value : Str) : Option Str := urlSchemeFrom [] value

/-- The raster formats of pictures. -/
def RASTER : List Str :=
  ["png".toList, "jpeg".toList, "jpg".toList, "gif".toList, "webp".toList, "bmp".toList, "avif".toList,
    "x-icon".toList, "vnd.microsoft.icon".toList]

/-- A picture in a raster format that stands in the address itself. -/
def is_inert_data_image (value : Str) : Bool :=
  match Lib.splitOnce ':' value with
  | none => false
  | some (_, rest) =>
    match (to_ascii_lowercase (rest.dropWhile isWhiteSpace)).dropPrefix? "image/".toList with
    | some after => RASTER.contains (after.takeWhile fun c => c != ';' && c != ',')
    | none => false

def is_dangerous_url (name value : Str) : Bool :=
  match url_scheme value with
  | none => false
  | some scheme =>
    if scheme = "javascript".toList ∨ scheme = "vbscript".toList then true
    else if scheme = "data".toList then !(is_media_url_attr name && is_inert_data_image value)
    else false

def sanitise_url_attr (name value : Str) : Str :=
  if is_url_attr name && is_dangerous_url name value then [] else value

/-- The pair that a patch may set. -/
def safe_patch_attr (name value : Str) : Option (Str × Str) :=
  (SafeAttrName.parse name).map fun safe => (safe.name, sanitise_url_attr name value)

/-! ### Bodies of scripts and styles -/

/-- Whether a text begins with a word, in any case of the letters. -/
def startsWithNoCase (needle s : Str) : Bool := needle.isPrefixOf (to_ascii_lowercase s)

/-- Escape what would end a script. -/
def neutralise_script_close : Str → Str
  | [] => []
  | c :: s =>
    if startsWithNoCase "</script".toList (c :: s) then "<\\/script".toList ++ neutralise_script_close (s.drop 7)
    else c :: neutralise_script_close s
  termination_by body => body.length
  decreasing_by
    · simp only [List.length_drop, List.length_cons]
      omega
    · simp only [List.length_cons]
      omega

/-- Without the first `</style`, if there is one. -/
def removeStyleClose : Str → Option Str
  | [] => none
  | c :: s =>
    if startsWithNoCase "</style".toList (c :: s) then some (s.drop 6) else (removeStyleClose s).map (c :: ·)

theorem length_removeStyleClose {s t : Str} (h : removeStyleClose s = some t) : t.length < s.length := by
  induction s generalizing t with
  | nil => cases h
  | cons c s ih =>
    unfold removeStyleClose at h
    split at h
    · cases h
      simp only [List.length_drop, List.length_cons]
      omega
    · obtain ⟨u, hu, rfl⟩ := Option.map_eq_some_iff.1 h
      exact Nat.succ_lt_succ (ih hu)

/-- Remove what would end a style, until nothing of it is left. -/
def strip_style_close (s : Str) : Str :=
  match _h : removeStyleClose s with
  | none => s
  | some t => strip_style_close t
  termination_by s.length
  decreasing_by exact length_removeStyleClose _h

/-! ### Text -/

def escapeChar (escape_quote : Bool) (c : Char) : Str :=
  if c = '&' then "&amp;".toList
  else if c = '<' then "&lt;".toList
  else if c = '>' then "&gt;".toList
  else if c = '\'' then "&#39;".toList
  else if c = '"' ∧ escape_quote = true then "&#34;".toList
  else [c]

def html_text (t : Str) : Str := t.flatMap (escapeChar false)

def html_attr (t : Str) : Str := t.flatMap (escapeChar true)

/-! ### Attributes of an element -/

/-- Elements without children. -/
def VOID : List Str :=
  ["area".toList, "base".toList, "br".toList, "col".toList, "embed".toList, "hr".toList, "img".toList,
    "input".toList, "link".toList, "meta".toList, "param".toList, "source".toList, "track".toList, "wbr".toList]

/-- Change the value of a key, or put a value for it at the end. -/
def put (k : Str) (change : Str → Str) (v : Str) : List (Str × Str) → List (Str × Str)
  | [] => [(k, v)]
  | (pk, existing) :: pairs =>
    if pk = k then (pk, change existing) :: pairs else (pk, existing) :: put k change v pairs

/-- A further value of a key: classes and styles are joined, other values replaced. -/
def joinValue (k v existing : Str) : Str :=
  if !existing.isEmpty && k == "class".toList then existing ++ ' ' :: v
  else if !existing.isEmpty && k == "style".toList then
    if existing.getLast? = some ';' then existing ++ ' ' :: v else existing ++ ';' :: ' ' :: v
  else v

def addPair (pairs : List (Str × Str)) : Attribute M → List (Str × Str)
  | .Attr k v => put k (joinValue k v) v pairs
  | .BoolAttr k true => put k (fun _ => "true".toList) "true".toList pairs
  | .BoolAttr _ false => pairs
  | .EventAttr _ => pairs
  | .NoAttr => pairs

def attrPairs (attrs : List (Attribute M)) : List (Str × Str) := attrs.foldl addPair []

def Attribute.eventName : Attribute M → Option Str
  | .EventAttr event => some event.name
  | _ => none

/-- The values of the attributes of a name. -/
def attrValues (attrs : List (Attribute M)) (key : Str) : List Str :=
  attrs.filterMap fun
    | .Attr k v => if k = key then some v else none
    | _ => none

/-- Controls that show their `value` as content. -/
def showsValue (tag : Str) : Bool := tag == "textarea".toList || tag == "select".toList

/-- Select the option that has the value of its control, and no other. -/
def selectOption (tag : Str) (select_value : Option Str) (pairs : List (Str × Str)) : List (Str × Str) :=
  match select_value with
  | some sv =>
    if tag = "option".toList then
      let kept := pairs.filter fun p => p.1 ≠ "selected".toList
      if kept.any fun p => p.1 = "value".toList && p.2 = sv then
        kept ++ [("selected".toList, "selected".toList)]
      else kept
    else pairs
  | none => pairs

/-- The pairs of an element, in the order of their keys. -/
def writtenPairs (tag : Str) (attrs : List (Attribute M)) (select_value : Option Str) : List (Str × Str) :=
  let pairs := attrPairs attrs
  let own := if showsValue tag then pairs.eraseP fun p => p.1 = "value".toList else pairs
  (selectOption tag select_value own).insertionSort fun p q => p.1 ≤ q.1

/-- The value that a control shows as content. -/
def textareaValue (tag : Str) (attrs : List (Attribute M)) : Option Str :=
  if showsValue tag then ((attrPairs attrs).find? (·.1 = "value".toList)).map Prod.snd else none

def pairText (pair : Str × Str) : Str :=
  match SafeAttrName.parse pair.1 with
  | some safe => ' ' :: safe.name ++ "=\"".toList ++ html_attr (sanitise_url_attr pair.1 pair.2) ++ "\"".toList
  | none => []

/-- The attribute that marks an element as listening to an event. -/
def ev_key (ev : Str) : Str :=
  if "ipe-".toList.isPrefixOf ev then "data-ipe-ev-".toList ++ ev else "ipe-".toList ++ ev

def eventsText (events : List Str) (ipe_id : Option Str) : Str :=
  if events.isEmpty then []
  else
    " data-ipe-on=\"".toList ++ [' '].intercalate events ++ "\"".toList ++
      (match ipe_id with
        | some id => " data-ipe-hid=\"".toList ++ html_attr id ++ "\"".toList
        | none => []) ++
      events.flatMap fun ev => ' ' :: ev_key ev ++ "=\"".toList ++ ev ++ "\"".toList

/-- The inside of a start tag, after the name. -/
def attrsText (tag : Str) (attrs : List (Attribute M)) (select_value : Option Str) : Str :=
  (writtenPairs tag attrs select_value).flatMap pairText ++
    eventsText ((attrs.filterMap Attribute.eventName).filter is_safe_html_name)
      (attrValues attrs "ipe-id".toList).getLast?

/-! ### Rendering -/

mutual

/-- The text of a node. In a `select` with a value, the option of that value is selected; in a script or a
style, text is not escaped. -/
def render_into_ctx : Html M → Option Str → Bool → ℕ → Str
  | .HText t, _, raw_text, depth =>
    if MAX_HTML_DEPTH ≤ depth then [] else if raw_text then t else html_text t
  | .HRaw r, _, _, depth => if MAX_HTML_DEPTH ≤ depth then [] else r
  | .HElement tag attrs kids, select_value, _, depth =>
    if MAX_HTML_DEPTH ≤ depth then []
    else if tag = "!doctype-wrapper".toList then
      "<!DOCTYPE html>".toList ++ render_kids kids none false (depth + 1)
    else if is_safe_html_name tag = false then []
    else if VOID.contains tag then '<' :: tag ++ attrsText tag attrs select_value ++ " />".toList
    else
      let value := textareaValue tag attrs
      let shown := if tag = "textarea".toList ∧ kids.isEmpty = true then html_text (value.getD []) else []
      let body :=
        if tag = "style".toList then strip_style_close (render_kids kids none true (depth + 1))
        else if tag = "script".toList then neutralise_script_close (render_kids kids none true (depth + 1))
        else if tag = "select".toList then
          render_kids kids (value.filter fun v => !v.isEmpty) false (depth + 1)
        else render_kids kids none false (depth + 1)
      '<' :: tag ++ attrsText tag attrs select_value ++ '>' :: shown ++ body ++ "</".toList ++ tag ++ ['>']

def render_kids : List (Html M) → Option Str → Bool → ℕ → Str
  | [], _, _, _ => []
  | c :: kids, select_value, raw_text, depth =>
    render_into_ctx c select_value raw_text depth ++ render_kids kids select_value raw_text depth

end

def render_into (node : Html M) : Str := render_into_ctx node none false 0

/-- Render into the body of a script or a style. -/
def render_into_raw_text (node : Html M) : Str := render_into_ctx node none true 0

def render_html (node : Html M) : Str := render_into node

end IpeLang.Runtime.Dom
