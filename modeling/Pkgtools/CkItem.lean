import Pkgtools.CLib.Scanf
import Pkgtools.CLib.Text

namespace Pkgtools
open CLib
set_option autoImplicit true

/-- `struct _choice_`, without the link. -/
structure Choice where
  token : Str
  text : Option Str
  deriving DecidableEq, Repr

/-- `CKMENU`, without its label; `invis` is up to its NULL. -/
structure CkMenu where
  unnum : Bool
  alpha : Bool
  longest : Int
  nchoices : Int
  choice : List Choice
  invis : List Str
  deriving DecidableEq, Repr

/-- `allocmenu`. -/
def allocmenu (unnum alpha : Bool) : CkMenu := ⟨unnum, alpha, 0, 0, [], []⟩

def isTokenSep (c : Char) : Bool := c == ' ' || c == '\t' || c == '\n'

/-- `insert`: the list with the choice, in order if it is kept in order; a choice that is there is
not added. -/
def insertChoice (chp : Choice) (alpha : Bool) : List Choice → Option (List Choice)
  | [] => some [chp]
  | base :: rest =>
    if base.token = chp.token then none
    else if alpha ∧ chp.token < base.token then some (chp :: base :: rest)
    else (insertChoice chp alpha rest).map (base :: ·)

/-- `setitem` with a choice. -/
def setitem (menu : CkMenu) (choice : Str) : CkMenu × Nat :=
  if choice.head?.all isspace then (menu, 2)
  else
    let rest := (choice.dropWhile fun c => !isTokenSep c).tail
    let chp : Choice :=
      { token := choice.takeWhile fun c => !isTokenSep c
        text := if rest = [] then none else some (rest.dropWhile isspace) }
    let n : Int := chp.token.length
    let menu := if menu.longest < n then { menu with longest := wrap 16 n } else menu
    match insertChoice chp menu.alpha menu.choice with
    | some list => ({ menu with choice := list, nchoices := wrap 16 (menu.nchoices + 1) }, 0)
    | none => (menu, 0)

/-- `setinvis` with a choice. -/
def setinvis (menu : CkMenu) (choice : Str) : CkMenu :=
  { menu with invis := menu.invis ++ [choice] }

inductive MenuCall where
  | item (choice : Str)
  | invisible (choice : Str)

def buildMenu (unnum alpha : Bool) (calls : List MenuCall) : CkMenu :=
  calls.foldl (fun menu call => match call with
    | .item choice => (setitem menu choice).1
    | .invisible choice => setinvis menu choice) (allocmenu unnum alpha)

/-- The messages of `match`; without one the error text of the caller is used. -/
inductive MatchErr where
  | tooMany
  | badNum
  | notUniq
  | noMessage
  deriving DecidableEq, Repr

/-- The loop of `getnum`, with what `*begin` has so far: `*begin` and `*end`. -/
def CkItem.getnumLoop (max : Int) : (fuel : Nat) → Str → Int → Option (Int × Int)
  | 0, _, _ => none
  | fuel + 1, pt, begin =>
    let item := match pt with
      | '$' :: pt => some (max, pt)
      | pt => (scanInt 32 pt).bind fun (n, pt) => if n ≤ 0 ∨ max < n then none else some (n, pt)
    item.bind fun (n, pt) =>
      let pt := pt.dropWhile isspace
      if begin = 0 ∧ pt.head? = some '-' then
        CkItem.getnumLoop max fuel (pt.tail.dropWhile isspace) n
      else if pt ≠ [] then none
      else if begin ≠ 0 then some (begin, n)
      else some (n, 0)

/-- `getnum`. -/
def CkItem.getnum (strval : Str) (max : Int) : Option (Int × Int) :=
  (CkItem.getnumLoop max (strval.length + 1) strval 0).bind fun (begin, last) =>
    let last := if last = 0 then begin else last
    if begin ≤ last then some (begin, last) else none

/-- The choices from the `first`th to the `last`th are added, from the `i`th on. -/
def addNumbered (max : Nat) (first last : Int) :
    (i : Int) → List Choice → List Str → Except MatchErr (List Str)
  | _, [], choice => .ok choice
  | i, chp :: rest, choice =>
    if first ≤ i ∧ i ≤ last then
      if max ≤ choice.length then .error .tooMany
      else addNumbered max first last (i + 1) rest (choice ++ [chp.token])
    else addNumbered max first last (i + 1) rest choice

/-- A loop of `match` over choices, with the one that was found so far; `none` if it is
not unique. -/
def scanChoices (strval : Str) : List Str → Option Str → Option (Option Str)
  | [], found => some found
  | t :: rest, found =>
    if strncmp t strval strval.length = 0 then
      if (t.drop strval.length).headD nul = nul then some (some t)
      else if found.isSome then none
      else scanChoices strval rest (some t)
    else scanChoices strval rest found

def CkMenu.tokens (menu : CkMenu) : List Str := menu.choice.map Choice.token

/-- The choice for a word that is not a number. -/
def matchWord (menu : CkMenu) (strval : Str) : Except MatchErr Str :=
  match (scanChoices strval menu.tokens none).bind (scanChoices strval menu.invis) with
  | none => .error .notUniq
  | some none => .error .noMessage
  | some (some found) => .ok found

def addChoices (menu : CkMenu) (max : Nat) (strval : Str) (choice : List Str) :
    Except MatchErr (List Str) :=
  if menu.unnum = false ∧ (strval.headD nul).isDigit then
    match CkItem.getnum strval menu.nchoices with
    | none => .error .badNum
    | some (first, last) => addNumbered max first last 1 menu.choice choice
  else match matchWord menu strval with
    | .error e => .error e
    | .ok found => .ok (choice ++ [found])

def isAnswerSep (c : Char) : Bool := c == ' ' || c == '\t' || c == ','

/-- `do *pt++ = '\0'; while (strchr(" \t,", *pt))`: the NUL counts as found, and a byte behind the
buffer is not read. -/
def skipSeps : (fuel : Nat) → Str → (pt : Nat) → Option (Str × Nat)
  | 0, _, _ => none
  | fuel + 1, buf, pt =>
    let buf := buf.set pt nul
    match buf[pt + 1]? with
    | none => none
    | some c => if isAnswerSep c || c == nul then skipSeps fuel buf (pt + 1) else some (buf, pt + 1)

/-- The word at `strval` is cut off: the buffer, and where the next one begins. -/
def splitWord (buf : Str) (strval : Nat) : Option (Str × Option Nat) :=
  let pt := strval + ((buf.drop strval).takeWhile fun c => !(isAnswerSep c || c == nul)).length
  (buf[pt]?).bind fun c =>
    if c = nul then some (buf, none)
    else (skipSeps (buf.length - pt) buf pt).map fun (buf, pt) => (buf, some pt)

/-- The loop of `match`; the buffer is the answer with its NUL. -/
def matchLoop (menu : CkMenu) (max : Nat) :
    (fuel : Nat) → Str → (strval : Nat) → List Str → Option (Except MatchErr (List Str))
  | 0, _, _, _ => none
  | fuel + 1, buf, strval, choice =>
    (splitWord buf strval).bind fun (buf, pt) =>
      if max ≤ choice.length then some (.error .tooMany)
      else match addChoices menu max ((buf.drop strval).takeWhile (· ≠ nul)) choice with
        | .error e => some (.error e)
        | .ok choice => match pt with
          | none => some (.ok choice)
          | some pt => (buf[pt]?).bind fun c =>
            if c = nul then some (.ok choice) else matchLoop menu max fuel buf pt choice

/-- `match`: undefined if a byte behind the answer is read. -/
def matchMenu (menu : CkMenu) (strval : Str) (max : Nat) : Option (Except MatchErr (List Str)) :=
  matchLoop menu max (strval.length + 1) (strval ++ [nul]) 0 []

end Pkgtools
