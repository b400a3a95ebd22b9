import Pkgtools.CLib.StringHeap
import Mathlib.Logic.Relation

namespace Pkgtools
open CLib
set_option autoImplicit true

/-- The commands and entries of a prototype file, with their variables resolved. Garbled ones end
the reading of the file. -/
inductive ProtoCmd where
  | includeFile (file : Str)
  | search (dirs : List Str)
  | rsearch (dirs : List Str)
  | default (mode : Nat) (owner group : Str)
  | garbledDefault
  | entry (ok : Bool)
  | other
  deriving DecidableEq, Repr

/-- One level of the arrays `sfp`, `dname`, `srchp`, `rootp`, `d_mod`, `d_own` and `d_grp`; the
strings are allocated. -/
structure ProtoCtx where
  fp : List ProtoCmd
  dname : Str
  srchp : List Nat
  rootp : List Nat
  dMod : Option Nat
  dOwn : Option Nat
  dGrp : Option Nat
  deriving DecidableEq, Repr

/-- What `d_owner` and `d_group` point to: a string of the program or an allocated one. -/
inductive StrRef where
  | const (s : Str)
  | heap (p : Nat)
  deriving DecidableEq, Repr

def StrRef.get (h : StrHeap) : StrRef → Option Str
  | .const s => some s
  | .heap p => h.get p

/-- The static data of `mkpkgmap.c`, the innermost file first, and of `gpkgmap.c`. -/
structure PkgmkSt where
  levels : List ProtoCtx
  heap : StrHeap
  dMode : Nat
  dOwner : StrRef
  dGroup : StrRef
  errflg : Nat
  deriving DecidableEq, Repr

/-- The files, the directories that can be changed to, and `canonize`. -/
structure ProtoEnv where
  fopen : Str → Option (List ProtoCmd)
  chdir : Str → Bool
  canonize : Str → Str

/-- The next state, the end of the top file, or an access outside of an array or to memory that is
not allocated. -/
inductive ProtoStep where
  | next (st : PkgmkSt)
  | done (st : PkgmkSt)
  | fault
  deriving DecidableEq, Repr

def NRECURS : Nat := 20

/-- The size of a row of `srchp` and of `rootp`. -/
def searchMax : Nat := 16

def NOMODE : Nat := 65534
def NOOWNER : Str := "@".toList
def NOGROUP : Str := "@".toList

/-- The default mode, owner and group that `gpkgmap` uses; `none` when the memory was freed. -/
def PkgmkSt.defaults (st : PkgmkSt) : Option (Nat × Str × Str) :=
  match st.dOwner.get st.heap, st.dGroup.get st.heap with
  | some owner, some group => some (st.dMode, owner, group)
  | _, _ => none

def attrdefault (st : PkgmkSt) : PkgmkSt :=
  { st with dMode := NOMODE, dOwner := .const NOOWNER, dGroup := .const NOGROUP }

def attrpreset (st : PkgmkSt) (mode : Nat) (owner group : StrRef) : PkgmkSt :=
  { st with dMode := mode, dOwner := owner, dGroup := group }

/-- The strings that a level owns. -/
def ProtoCtx.owned (c : ProtoCtx) : List Nat := c.srchp ++ c.rootp ++ c.dOwn.toList ++ c.dGrp.toList

section Ops
variable (env : ProtoEnv)

/-- `popenv`. When the directory of the including file is gone that file is left too. -/
def popenv : List ProtoCtx → PkgmkSt → ProtoStep
  | c :: c' :: below, st =>
    match st.heap.freeAll c.owned with
    | none => .fault
    | some heap =>
      if env.chdir c'.dname then .next { st with levels := c' :: below, heap := heap }
      else popenv (c' :: below) { st with heap := heap, errflg := st.errflg + 1 }
  | levels, st => .done { st with levels := levels }

def dirPart (file : Str) : Option Str :=
  if '/' ∈ file then some ((file.reverse.dropWhile (· != '/')).drop 1).reverse else none

/-- `pushenv` for an included file. -/
def pushenv (st : PkgmkSt) (dname file : Str) : ProtoStep :=
  if NRECURS ≤ st.levels.length then .next { st with errflg := st.errflg + 1 }
  else match env.fopen file with
    | none => .next { st with errflg := st.errflg + 1 }
    | some cmds =>
      match dirPart file with
      | none => .next { st with levels := ⟨cmds, dname, [], [], none, none, none⟩ :: st.levels }
      | some dir =>
        let ctx : ProtoCtx := ⟨cmds, env.canonize dir, [], [], none, none, none⟩
        if env.chdir (env.canonize dir) then .next { st with levels := ctx :: st.levels }
        else popenv env (ctx :: st.levels) { st with errflg := st.errflg + 1 }

def doinclude (st : PkgmkSt) (dname file : Str) : ProtoStep :=
  match env.canonize file with
  | [] => .next st
  | c :: s =>
    pushenv env st dname (env.canonize (if c = '/' then c :: s else dname ++ '/' :: c :: s))

/-- The directories of a search list, absolute and canonical. -/
def searchDirs (dname : Str) (dirs : List Str) : List Str :=
  dirs.map fun d => env.canonize (if d.head? = some '/' then d else dname ++ '/' :: d)

/-- `dosearch`. Without a directory the old list stays although its strings were freed. -/
def dosearch (st : PkgmkSt) (c : ProtoCtx) (below : List ProtoCtx) (dirs : List Str) : ProtoStep :=
  match st.heap.freeAll c.srchp with
  | none => .fault
  | some heap =>
    if dirs = [] then .next { st with levels := c :: below, heap := heap }
    else if dirs.length < searchMax then
      let (ps, heap) := heap.dupAll (searchDirs env c.dname dirs)
      .next { st with levels := { c with srchp := ps } :: below, heap := heap }
    else .fault

/-- `dorsearch`, which follows a NULL pointer when there is no directory. -/
def dorsearch (st : PkgmkSt) (c : ProtoCtx) (below : List ProtoCtx) (dirs : List Str) : ProtoStep :=
  match st.heap.freeAll c.rootp with
  | none => .fault
  | some heap =>
    if dirs ≠ [] ∧ dirs.length < searchMax then
      let (ps, heap) := heap.dupAll (searchDirs env c.dname dirs)
      .next { st with levels := { c with rootp := ps } :: below, heap := heap }
    else .fault

/-- `doattrib` on a proper line. -/
def doattrib (st : PkgmkSt) (c : ProtoCtx) (below : List ProtoCtx) (mode : Nat)
    (owner group : Str) : ProtoStep :=
  match st.heap.freeAll (c.dOwn.toList ++ c.dGrp.toList) with
  | none => .fault
  | some heap =>
    let p := heap.length
    .next (attrpreset { st with
      levels := { c with dMod := some mode, dOwn := some p, dGrp := some (p + 1) } :: below
      heap := (heap.dupAll [owner, group]).2 } mode (.heap p) (.heap (p + 1)))

/-- One turn of the loop of `mkpkgmap`. -/
def protoStep (st : PkgmkSt) : ProtoStep :=
  match st.levels with
  | [] => .done st
  | c :: below =>
    match c.fp with
    | [] => popenv env (c :: below) st
    | cmd :: rest =>
      let c := { c with fp := rest }
      let st := { st with levels := c :: below }
      match cmd with
      | .includeFile file => doinclude env st c.dname file
      | .search dirs => dosearch env st c below dirs
      | .rsearch dirs => dorsearch env st c below dirs
      | .default mode owner group => doattrib st c below mode owner group
      | .garbledDefault => popenv env (c :: below) { st with errflg := st.errflg + 1 }
      | .entry ok =>
        match st.defaults with
        | none => .fault
        | some _ =>
          if ok then .next st else popenv env (c :: below) { st with errflg := st.errflg + 1 }
      | .other => .next st

end Ops

def mkpkgmapStart (cmds : List ProtoCmd) (dname : Str) : PkgmkSt :=
  attrdefault ⟨[⟨cmds, dname, [], [], none, none, none⟩], [], 0, .const [], .const [], 0⟩

/-- The states that the reading of a prototype file goes through. -/
def ProtoReaches (env : ProtoEnv) (cmds : List ProtoCmd) (dname : Str) (st : PkgmkSt) : Prop :=
  Relation.ReflTransGen (fun a b => protoStep env a = .next b) (mkpkgmapStart cmds dname) st

/-- The next command of the innermost file is a proper `!default`. -/
def PkgmkSt.setsDefault (st : PkgmkSt) : Bool :=
  match st.levels.head?.bind fun c => c.fp.head? with
  | some (.default ..) => true
  | _ => false

def PkgmkSt.searchList (st : PkgmkSt) : List (Option Str) :=
  match st.levels with
  | [] => []
  | c :: _ => c.srchp.map st.heap.get

/-- The reading above `n` levels, as long as it lasts. -/
def ReadsAbove (env : ProtoEnv) (n : Nat) (ok : PkgmkSt → Prop) : PkgmkSt → PkgmkSt → Prop :=
  Relation.ReflTransGen fun a b => protoStep env a = .next b ∧ n < a.levels.length ∧ ok a

/-- The including file goes on as if there had been no include. -/
structure Restored (s t : PkgmkSt) (c : ProtoCtx) (rest : List ProtoCmd) (below : List ProtoCtx) :
    Prop where
  levels : t.levels = { c with fp := rest } :: below
  search : t.searchList = s.searchList
  defaults : t.defaults = s.defaults

end Pkgtools
