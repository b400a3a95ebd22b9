import Pkgtools.Vfp

namespace Pkgtools
open CLib
set_option autoImplicit true

/-- `struct pinfo`, without its link to the next one. -/
structure Pinfo where
  /-- NUL when the package has no status. -/
  status : Char
  pkg : Str
  editflag : Nat
  aclass : Str
  deriving DecidableEq, Repr

/-- `struct ainfo`, with a 16-bit `mode_t` and 32-bit device numbers. -/
structure Ainfo where
  localPath : Option Str
  mode : Nat
  owner : Str
  group : Str
  major : Int
  minor : Int
  deriving DecidableEq, Repr

structure Cinfo where
  cksum : Int
  size : Int
  modtime : Int
  deriving DecidableEq, Repr

/-- `struct cfent`, an entry of the contents file. -/
structure Cfent where
  volno : Int
  ftype : Char
  pkgClass : Str
  pkgClassIdx : Int
  path : Option Str
  ainfo : Ainfo
  cinfo : Cinfo
  npkgs : Int
  pinfo : List Pinfo
  deriving DecidableEq, Repr

/-- An entry of all zeros, as `calloc` makes it. -/
def zeroEntry : Cfent :=
  ⟨0, nul, [], 0, none, ⟨none, 0, [], [], 0, 0⟩, ⟨0, 0, 0⟩, 0, []⟩

/-- `CLSSIZ`, `PKGSIZ` and `ATRSIZ`. -/
def clssiz : Nat := 64
def pkgsiz : Nat := 64
def atrsiz : Nat := 64

/-- `PATH_MAX`. -/
def pathMax : Nat := 1024

def badMode : Nat := 65535
def badMajor : Int := -1
def badMinor : Int := -1
def badCont : Int := -1
def badOwner : Str := "?".toList
def badGroup : Str := "?".toList
def badClass : Str := "none".toList

def isFtype (c : Char) : Bool := c ∈ "?fvelspcbdx".toList

def isDevice (c : Char) : Bool := c = 'c' ∨ c = 'b'

def isLink (c : Char) : Bool := c = 's' ∨ c = 'l'

def hasAttrs (c : Char) : Bool := c ∈ "dxcbpfve".toList

def hasContent (c : Char) : Bool := c = 'f' ∨ c = 'v' ∨ c = 'e'

/-- `' ' ?` for the sentinel, else the number. -/
def putDevice (v : Vfp) (n bad : Int) : Vfp :=
  let v := vfpPutc v ' '
  if n = bad then vfpPutc v '?' else vfpPutInteger v n

def putMode (v : Vfp) (mode : Nat) : Vfp :=
  vfpPutFormat v (if mode = badMode then " ?".toList else ' ' :: fmtO4 mode)

def putContent (v : Vfp) (n : Int) : Vfp :=
  vfpPutFormat v (if n = badCont then " ?".toList else ' ' :: fmtD n)

def putPinfo (v : Vfp) (p : Pinfo) : Vfp :=
  let v := vfpPutc v ' '
  let v := if p.status ≠ nul then vfpPutc v p.status else v
  let v := vfpPuts v p.pkg
  let v := if p.editflag ≠ 0 then vfpPutc v '\\' else v
  if p.aclass ≠ [] then vfpPuts (vfpPutc v ':') p.aclass else v

def putDevices (v : Vfp) (e : Cfent) : Vfp :=
  if isDevice e.ftype then putDevice (putDevice v e.ainfo.major badMajor) e.ainfo.minor badMinor
  else v

def putAttrs (v : Vfp) (e : Cfent) : Vfp :=
  if hasAttrs e.ftype then
    let v := putMode v e.ainfo.mode
    let v := vfpPuts (vfpPutc v ' ') e.ainfo.owner
    vfpPuts (vfpPutc v ' ') e.ainfo.group
  else v

def putContents (v : Vfp) (e : Cfent) : Vfp :=
  if hasContent e.ftype then
    putContent (putContent (putContent v e.cinfo.size) e.cinfo.cksum) e.cinfo.modtime
  else v

/-- `putcvfpfile`: write an entry as a line of the contents file. -/
def putcvfpfile (e : Cfent) (v : Vfp) : Int × Vfp :=
  if e.ftype = 'i' then (0, v)
  else match e.path with
    | none => (-1, v)
    | some path =>
      let v := vfpPuts (vfpSetModified v) path
      let v := match e.ainfo.localPath with
        | some l => vfpPuts (vfpPutc v '=') l
        | none => v
      let v := if e.volno ≠ 0 then vfpPutInteger (vfpPutc v ' ') e.volno else v
      let v := vfpPutc (vfpPutc v ' ') e.ftype
      let v := vfpPuts (vfpPutc v ' ') e.pkgClass
      let v := putContents (putAttrs (putDevices v e) e) e
      (0, vfpPutc (e.pinfo.foldl putPinfo v) '\n')

/-- The text of a number field, `?` for the sentinel. -/
def numText (n bad : Int) : Str := if n = bad then "?".toList else fmtD n

def modeText (mode : Nat) : Str := if mode = badMode then "?".toList else fmtO4 mode

def pinfoText (p : Pinfo) : Str :=
  ' ' :: ((if p.status ≠ nul then [p.status] else []) ++ p.pkg ++
    (if p.editflag ≠ 0 then ['\\'] else []) ++ if p.aclass ≠ [] then ':' :: p.aclass else [])

def deviceText (e : Cfent) : Str :=
  if isDevice e.ftype then
    ' ' :: numText e.ainfo.major badMajor ++ ' ' :: numText e.ainfo.minor badMinor
  else []

def attrText (e : Cfent) : Str :=
  if hasAttrs e.ftype then
    ' ' :: modeText e.ainfo.mode ++ ' ' :: e.ainfo.owner ++ ' ' :: e.ainfo.group
  else []

def contentText (e : Cfent) : Str :=
  if hasContent e.ftype then
    ' ' :: numText e.cinfo.size badCont ++ ' ' :: numText e.cinfo.cksum badCont ++
      ' ' :: numText e.cinfo.modtime badCont
  else []

/-- The line of an entry without a volume number, less its newline. -/
def entryText (e : Cfent) (path : Str) : Str :=
  path ++ (match e.ainfo.localPath with
    | some l => '=' :: l
    | none => []) ++ ' ' :: e.ftype :: ' ' :: e.pkgClass ++ deviceText e ++ attrText e ++
    contentText e ++ e.pinfo.flatMap pinfoText

/-- The number fields hold values of their C types. -/
structure Cfent.Typed (e : Cfent) : Prop where
  mode : e.ainfo.mode < 2 ^ 16
  major : -2 ^ 31 ≤ e.ainfo.major ∧ e.ainfo.major < 2 ^ 31
  minor : -2 ^ 31 ≤ e.ainfo.minor ∧ e.ainfo.minor < 2 ^ 31
  size : -2 ^ 63 ≤ e.cinfo.size ∧ e.cinfo.size < 2 ^ 63
  cksum : -2 ^ 63 ≤ e.cinfo.cksum ∧ e.cinfo.cksum < 2 ^ 63
  modtime : -2 ^ 63 ≤ e.cinfo.modtime ∧ e.cinfo.modtime < 2 ^ 63

theorem vfpPutField_appends (v : Vfp) (s : Str) :
    Appends v (vfpPuts (vfpPutc v ' ') s) (' ' :: s) :=
  (vfpPutc_appends v ' ').trans (vfpPuts_appends _ s)

theorem putDevice_appends (v : Vfp) (bad : Int) (h : -2 ^ 31 ≤ n ∧ n < 2 ^ 31) :
    Appends v (putDevice v n bad) (' ' :: numText n bad) := by
  have hl := fmtD_length (x := n) (by omega) (by omega)
  rw [putDevice, numText]
  split
  · exact (vfpPutc_appends v ' ').trans (vfpPutc_appends _ '?')
  · exact (vfpPutc_appends v ' ').trans (vfpPutFormat_appends _ _ (by omega))

theorem putMode_appends (v : Vfp) (h : mode < 2 ^ 16) :
    Appends v (putMode v mode) (' ' :: modeText mode) := by
  have hl := fmtO4_length h
  rw [putMode, modeText]
  split
  · exact vfpPutFormat_appends v _ (by decide)
  · exact vfpPutFormat_appends v _ (by rw [List.length_cons]; omega)

theorem putContent_appends (v : Vfp) (h : -2 ^ 63 ≤ n ∧ n < 2 ^ 63) :
    Appends v (putContent v n) (' ' :: numText n badCont) := by
  have hl := fmtD_length h.1 h.2
  rw [putContent, numText]
  split
  · exact vfpPutFormat_appends v _ (by decide)
  · exact vfpPutFormat_appends v _ (by rw [List.length_cons]; omega)

theorem Appends.ite {p : Prop} [Decidable p] {v w : Vfp} (h : Appends v w s) :
    Appends v (if p then w else v) (if p then s else []) := by
  split
  · exact h
  · exact Appends.refl v

theorem putPinfo_appends (v : Vfp) (p : Pinfo) : Appends v (putPinfo v p) (pinfoText p) := by
  have h₁ := vfpPutc_appends v ' '
  have h₂ := h₁.trans (Appends.ite (p := p.status ≠ nul) (vfpPutc_appends _ p.status))
  have h₃ := h₂.trans (vfpPuts_appends _ p.pkg)
  have h₄ := h₃.trans (Appends.ite (p := p.editflag ≠ 0) (vfpPutc_appends _ '\\'))
  have h₅ := h₄.trans (Appends.ite (p := p.aclass ≠ [])
    ((vfpPutc_appends _ ':').trans (vfpPuts_appends _ p.aclass)))
  simpa only [putPinfo, pinfoText, List.nil_append, List.cons_append, List.append_assoc] using h₅

theorem putPinfos_appends (v : Vfp) (ps : List Pinfo) :
    Appends v (ps.foldl putPinfo v) (ps.flatMap pinfoText) := by
  induction ps generalizing v with
  | nil => exact Appends.refl v
  | cons p ps ih => exact (putPinfo_appends v p).trans (ih _)

theorem putDevices_appends (v : Vfp) (ht : e.Typed) :
    Appends v (putDevices v e) (deviceText e) := by
  have h := (putDevice_appends v badMajor ht.major).trans
    (putDevice_appends _ badMinor ht.minor)
  exact Appends.ite h

theorem putAttrs_appends (v : Vfp) (ht : e.Typed) : Appends v (putAttrs v e) (attrText e) := by
  have h := ((putMode_appends v ht.mode).trans (vfpPutField_appends _ e.ainfo.owner)).trans
    (vfpPutField_appends _ e.ainfo.group)
  exact Appends.ite h

theorem putContents_appends (v : Vfp) (ht : e.Typed) :
    Appends v (putContents v e) (contentText e) := by
  have h := ((putContent_appends v ht.size).trans (putContent_appends _ ht.cksum)).trans
    (putContent_appends _ ht.modtime)
  exact Appends.ite h

theorem putcvfpfile_appends (v : Vfp) (ht : e.Typed) (hi : e.ftype ≠ 'i') (hv : e.volno = 0)
    (hp : e.path = some path) :
    Appends v (putcvfpfile e v).2 (entryText e path ++ ['\n']) := by
  have h₁ := (vfpSetModified_appends v).trans (vfpPuts_appends _ path)
  have h₂ : Appends v (match e.ainfo.localPath with
      | some l => vfpPuts (vfpPutc (vfpPuts (vfpSetModified v) path) '=') l
      | none => vfpPuts (vfpSetModified v) path)
      (path ++ match e.ainfo.localPath with
      | some l => '=' :: l
      | none => []) := by
    cases e.ainfo.localPath with
    | none =>
      rw [List.append_nil]
      exact h₁
    | some l => exact h₁.trans ((vfpPutc_appends _ '=').trans (vfpPuts_appends _ l))
  have h₃ := h₂.trans ((vfpPutc_appends _ ' ').trans (vfpPutc_appends _ e.ftype))
  have h₄ := h₃.trans (vfpPutField_appends _ e.pkgClass)
  have h₅ := ((h₄.trans (putDevices_appends _ ht)).trans (putAttrs_appends _ ht)).trans
    (putContents_appends _ ht)
  have h₆ := (h₅.trans (putPinfos_appends _ e.pinfo)).trans (vfpPutc_appends _ '\n')
  simp only [putcvfpfile, if_neg hi, hp, hv, ne_eq, not_true_eq_false, if_false]
  simpa only [entryText, List.nil_append, List.cons_append, List.append_assoc] using h₆

end Pkgtools
