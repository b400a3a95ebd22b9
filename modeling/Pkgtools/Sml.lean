import Pkgtools.CLib.BlockText

namespace Pkgtools
open CLib
set_option autoImplicit true

def MAX_SML_COMPONENT_LENGTH : Nat := 16384

structure SmlParam where
  name : Str
  value : Str
  deriving DecidableEq, Repr

/-- `SML_TAG`: an element with its parameters and its sub-elements. -/
inductive SmlTag where
  | mk (name : Str) (params : List SmlParam) (tags : List SmlTag)
  deriving Repr

/-- The characters that `sml_XmlEncodeString` passes on as they are. -/
def isPlain (c : Char) : Bool :=
  32 ≤ c.toNat && c.toNat ≤ 126 && !("\"$&\\`".toList.contains c)

/-- One character; others are written as a character reference with `"&#%x;"`. -/
def encodeChar (c : Char) : Str :=
  if isPlain c then [c] else '&' :: '#' :: (Nat.toDigits 16 (c.toNat % 256) ++ [';'])

def smlXmlEncodeString (s : Str) : Str := s.flatMap encodeChar

/-- The states of the decoder, with the characters of a reference that were collected. -/
inductive Fsms where
  | text
  | seenAmp
  | seenPound
  | collect (rs : Str)
  deriving DecidableEq, Repr

def isHexDigit (c : Char) : Bool :=
  c.isDigit || ('a' ≤ c && c ≤ 'f') || ('A' ≤ c && c ≤ 'F')

def hexDigitValue (c : Char) : Nat :=
  if c.isDigit then c.toNat - '0'.toNat
  else if 'a' ≤ c then c.toNat - 'a'.toNat + 10
  else c.toNat - 'A'.toNat + 10

/-- `sscanf (rs, "%lx", &rv)`. -/
def hexValue (rs : Str) : Nat :=
  min (rs.foldl (fun v c => v * 16 + hexDigitValue c) 0) (2 ^ 64 - 1)

def refByte (rs : Str) : Char := if rs = [] then '?' else Char.ofNat (hexValue rs % 256)

/-- A character inside a reference: the next state and the bytes that are put out. With nothing
collected, `strncpy` is called with a negative length. -/
def collectChar (rs : Str) (c : Char) : Option (Fsms × Str) :=
  if c = ';' then some (.text, [refByte rs])
  else if isHexDigit c then some (.collect (rs ++ [c]), [])
  else if rs = [] then none
  else some (.text, ['&', '#', c])

/-- A character of the encoded string, in front of the rest of it. -/
def decodeStep (st : Fsms) (c : Char) (s : Str) : Option (Fsms × Str) :=
  match st with
  | .text => if c = '&' then some (.seenAmp, []) else some (.text, [c])
  | .seenAmp => if c = '#' then some (.seenPound, []) else some (.text, ['&', c])
  | .seenPound => if ';' ∈ c :: s then collectChar [] c else some (.text, ['&', '#', c])
  | .collect rs => collectChar rs c

def decodeFrom : Fsms → Str → Option Str
  | _, [] => some []
  | st, c :: s =>
    match decodeStep st c s with
    | none => none
    | some (st, out) => (decodeFrom st s).map (out ++ ·)

/-- `sml_XmlDecodeString`; undefined where the library call is. -/
def smlXmlDecodeString (s : Str) : Option Str := (decodeFrom .text s).map cstr

/-- What stands in front of a tag. -/
inductive Lead where
  | opened (rest : Str)
  | empty (rest : Str)
  | bad
  deriving DecidableEq, Repr

/-- The loop of `_smlReadTag` up to the character that opens a tag. Inside a tag everything is
passed over. -/
def readLead (inside : Bool) : Str → Lead
  | [] => if inside then .bad else .empty []
  | c :: s =>
    if c = '<' then .opened s
    else if inside then readLead inside s
    else if c = ' ' ∨ c = '\t' then readLead inside s
    else if c = '\n' then .empty s
    else .bad

/-- Add a character to the name accumulator if there is room left. -/
def accumulate (name : Str) (c : Char) : Str :=
  if name.length < MAX_SML_COMPONENT_LENGTH - 1 then name ++ [c] else name

def closeIllegal : Str := "/ \t\n\":<?$'\\`!@#%^&*()+=|[]\x7b\x7d;,".toList

def readClose (name : Str) : Str → Option (Str × Str)
  | [] => none
  | c :: s =>
    if c = '>' then some (name, s)
    else if c ∈ closeIllegal then none
    else readClose (accumulate name c) s

def nameSeparators : Str := " >\t\n".toList

def nameIllegal : Str := "\":<>?$'\\`!@#%^&*()+=|[]\x7b\x7d;,".toList

/-- How the name of a tag ends: with a separator, or with the end of the tag. -/
inductive NameEnd where
  | separator (name : Str) (c : Char) (rest : Str)
  | closed (name : Str) (rest : Str)
  | bad
  deriving DecidableEq, Repr

def readName (name : Str) : Str → NameEnd
  | [] => .bad
  | c :: s =>
    if c ∈ nameSeparators then .separator name c s
    else if c ∈ nameIllegal then .bad
    else if c = '/' then
      if s.head? = some '>' ∧ name ≠ [] then .closed name s.tail else .bad
    else readName (accumulate name c) s

def paramSeparators : Str := " \t\n".toList

def paramStartIllegal : Str := "\":<?$'\\`!@#%^&*()+=|[]\x7b\x7d;,.".toList

def paramIllegal : Str := "\t \n\":<>?$'\\`!@%^*()+|[]\x7b\x7d,./".toList

/-- Where the reader is among the parameters of a tag. -/
inductive ParamState where
  | gap
  | name (name : Str)
  | sep (name : Str)
  | value (name value : Str)
  deriving DecidableEq, Repr

/-- How the parameters of a tag end: the tag is opened, closed at once, or malformed, or a value is
decoded with a library call that is undefined. -/
inductive ParamEnd where
  | opened (params : List SmlParam) (rest : Str)
  | closed (params : List SmlParam) (rest : Str)
  | bad
  | undecoded
  deriving DecidableEq, Repr

/-- The loop of `_smlReadTag` over the parameters. -/
def readParams : ParamState → List SmlParam → Str → ParamEnd
  | _, _, [] => .bad
  | .gap, params, c :: s =>
    if c ∈ paramSeparators then readParams .gap params s
    else if c ∈ paramStartIllegal then .bad
    else if c = '>' then .opened params s
    else if c = '/' then if s.head? = some '>' then .closed params s.tail else .bad
    else readParams (.name [c]) params s
  | .name name, params, c :: s =>
    if c ∈ paramIllegal then .bad
    else if c = '=' then if name = [] then .bad else readParams (.sep name) params s
    else readParams (.name (accumulate name c)) params s
  | .sep name, params, c :: s =>
    if c = '"' then readParams (.value name []) params s else .bad
  | .value name value, params, c :: s =>
    if c = '"' then
      match smlXmlDecodeString value with
      | none => .undecoded
      | some v => readParams .gap (params ++ [⟨name, v⟩]) s
    else if c = '\n' then .bad
    else readParams (.value name (accumulate value c)) params s

/-- Why the reader gives no tag: `RESULT_ERR`, or nothing is returned, since an assertion fails, a
library call is undefined or the rounds run out. -/
inductive SmlFault where
  | resultErr
  | undefined
  deriving DecidableEq, Repr

theorem map_eq_ok_iff {x : Except ε α} {f : α → β} :
    x.map f = .ok b ↔ ∃ a, x = .ok a ∧ f a = b := by
  cases x with
  | error e => exact iff_of_false (fun h => by cases h) (by rintro ⟨a, h, -⟩; cases h)
  | ok a => simp [Except.map]

mutual

/-- `_smlReadTag` in front of the string: the tag, if there is one, and what is left of the
string. -/
def smlReadTag : Nat → Option Str → Str → Except SmlFault (Option SmlTag × Str)
  | 0, _, _ => .error .undefined
  | fuel + 1, parent, s =>
    match readLead parent.isSome s with
    | .bad => .error .resultErr
    | .empty s => .ok (none, s)
    | .opened s =>
      if s.head? = some '/' then
        match readClose [] s.tail with
        | none => .error .resultErr
        | some (name, s) =>
          if name ≠ [] ∧ parent = some name then .ok (none, s) else .error .resultErr
      else match readName [] s with
        | .bad => .error .resultErr
        | .closed name s => .ok (some (.mk name [] []), s)
        | .separator name c s =>
          if name = [] then .error .resultErr
          else match if c = '>' then .opened [] s else readParams .gap [] s with
            | .bad => .error .resultErr
            | .undecoded => .error .undefined
            | .closed params s => .ok (some (.mk name params []), s)
            | .opened params s =>
              -- the character behind the closing tag is taken as well
              (readTags fuel name s).map fun r => (some (.mk name params r.1), r.2.tail)

/-- The loop over the sub-elements, up to the closing tag. -/
def readTags : Nat → Str → Str → Except SmlFault (List SmlTag × Str)
  | 0, _, _ => .error .undefined
  | fuel + 1, name, s =>
    match smlReadTag fuel (some name) s with
    | .error e => .error e
    | .ok (none, s) => .ok ([], s)
    | .ok (some tag, s) => (readTags fuel name s).map fun r => (tag :: r.1, r.2)

end

/-- The loop of `smlConvertStringToTag`. -/
def convertLoop : Nat → List SmlTag → Str → Except SmlFault (List SmlTag)
  | 0, _, _ => .error .undefined
  | passes + 1, tags, s =>
    match smlReadTag (s.length + 1) none s with
    | .error e => .error e
    | .ok (none, s) => if s = [] then .ok tags else convertLoop passes tags s
    | .ok (some tag, s) => convertLoop passes (tags ++ [tag]) s

/-- `smlConvertStringToTag`, which asserts that the string is not empty. Every tag or blank line
takes a character off the string. -/
def smlConvertStringToTag (str : Str) : Except SmlFault SmlTag :=
  if str = [] then .error .undefined
  else (convertLoop (str.length + 1) [] str).map fun tags => .mk "tagfile".toList [] tags

/-- `_smlWriteParamValue`. -/
def smlWriteParamValue (a : Str) (value : Str) : Str :=
  a ++ '"' :: smlXmlEncodeString value ++ ['"']

def writeParams (a : Str) : List SmlParam → Str
  | [] => a
  | p :: ps => writeParams (a ++ ' ' :: p.name ++ '=' :: smlWriteParamValue [] p.value) ps

mutual

/-- `_smlWriteSimpleTag` behind the text that was written before. -/
def smlWriteSimpleTag (a : Str) : SmlTag → Str
  | .mk name params tags =>
    let a := writeParams (a ++ '<' :: name) params
    match tags with
    | [] => a ++ "/>\n".toList
    | tag :: tags => writeTags (a ++ ">\n".toList) (tag :: tags) ++ "</".toList ++ name ++
        ">\n".toList

def writeTags (a : Str) : List SmlTag → Str
  | [] => a
  | tag :: tags => writeTags (smlWriteSimpleTag a tag) tags

end

end Pkgtools
