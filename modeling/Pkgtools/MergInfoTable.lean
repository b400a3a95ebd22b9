import Pkgtools.CLib.Halving
import Pkgtools.CLib.Words
import Pkgtools.MergInfo

namespace Pkgtools
open CLib
set_option autoImplicit true

/-- What is done with an attribute of the table when it is found. -/
inductive TblFlag where
  | exclude
  | identical
  deriving DecidableEq, Repr

/-- An entry of `attrTbl`. -/
structure NameList where
  nlName : Str
  nlLen : Nat
  nlFlag : TblFlag
  deriving DecidableEq, Repr

/-- `TBL_ENTRY`. -/
def tblEntry (name : String) (flag : TblFlag) : NameList := ⟨name.toList, name.toList.length, flag⟩

def attrTbl : List NameList :=
  [tblEntry "BASEDIR=" .exclude,
    tblEntry "CLASSES=" .exclude,
    tblEntry "CLIENT_BASEDIR=" .exclude,
    tblEntry "INST_DATADIR=" .exclude,
    tblEntry "PKG_CAS_PASSRELATIVE=" .exclude,
    tblEntry "PKG_DST_QKVERIFY=" .exclude,
    tblEntry "PKG_INIT_INSTALL=" .exclude,
    tblEntry "PKG_INSTALL_ROOT=" .exclude,
    tblEntry "PKG_SRC_NOVERIFY=" .exclude,
    tblEntry "SUNW_PKGCOND_GLOBAL_DATA=" .exclude,
    tblEntry "SUNW_PKG_ALLZONES=" .identical,
    tblEntry "SUNW_PKG_DIR=" .exclude,
    tblEntry "SUNW_PKG_HOLLOW=" .identical,
    tblEntry "SUNW_PKG_INSTALL_ZONENAME=" .exclude,
    tblEntry "SUNW_PKG_THISZONE=" .identical]

/-- `attrTbl[pos]`, undefined outside of the table. -/
def attrAt (pos : Int) : Option NameList := if 0 ≤ pos then attrTbl[pos.toNat]? else none

def attrCmp (ep : Str) (pos : Int) : Option Int :=
  (attrAt pos).map fun pp => strncmp pp.nlName ep pp.nlLen

/-- The position in `attrTbl` that `merginfo` finds for an environment string. -/
def attrSearch (ep : Str) : Option (Option Int) :=
  (attrAt 0).bind fun first =>
    (attrAt (attrTbl.length - 1)).bind fun last =>
      if strncmp ep first.nlName first.nlLen < 0 then some none
      else if strncmp ep last.nlName last.nlLen > 0 then some none
      else halvingSearch (attrCmp ep) (attrTbl.length >>> 1 + 1) ↑(attrTbl.length >>> 1)

/-- What `merginfo` knows when it puts out the environment: the parameters of the installed package
if its file is open, the saved directory, and whether `UPDATE=` is left out. -/
structure MergEnv where
  fpkgparam : Option (Str → Option Str)
  infoloc : Str
  pkginst : Str
  noUpdate : Bool

/-- The errors about an attribute that must not change. -/
inductive MergQuit where
  | attrAdded (ep : Str)
  | attrChanged (theAttr src trg : Str)

def identicalQuit (m : MergEnv) (pp : NameList) (ep : Str) : Option MergQuit :=
  match m.fpkgparam with
  | none => none
  | some fpkgparam =>
    let theAttr := pp.nlName.take (pp.nlLen - 1)
    match fpkgparam theAttr with
    | none => some (.attrAdded ep)
    | some trg =>
      if ep.drop pp.nlLen ≠ trg then some (.attrChanged theAttr (ep.drop pp.nlLen) trg) else none

def merginfoLine (m : MergEnv) (ep : Str) : Str :=
  if strncmp ep "PKGSAV=".toList 7 = 0 then
    "PKGSAV=".toList ++ m.infoloc ++ "/".toList ++ m.pkginst ++ "/save\n".toList
  else if strncmp ep "UPDATE=".toList 7 = 0 ∧ m.noUpdate then []
  else ep ++ "\n".toList

/-- A turn of the loop of `merginfo` over the environment: the text that is put out. -/
def merginfoEntry (m : MergEnv) (ep : Str) : Option (Except MergQuit Str) :=
  (attrSearch ep).bind fun
    | none => some (.ok (merginfoLine m ep))
    | some attrPos => (attrAt attrPos).map fun pp =>
      match pp.nlFlag with
      | .exclude => .ok []
      | .identical =>
        match identicalQuit m pp ep with
        | some quit => .error quit
        | none => .ok (merginfoLine m ep)

/-- The loop of `merginfo` over the environment. -/
def merginfoEnviron (m : MergEnv) : List Str → Option (Except MergQuit Str)
  | [] => some (.ok [])
  | ep :: environ =>
    (merginfoEntry m ep).bind fun
      | .error quit => some (.error quit)
      | .ok text => (merginfoEnviron m environ).map fun r => r.map (text ++ ·)

section Table
variable {s t ep : Str} {i k pos : Int} {e : NameList}

/-- One name comes before another one, and they part before either ends. -/
def NameBefore (a b : NameList) : Prop :=
  ¬ a.nlName <+: b.nlName ∧ ¬ b.nlName <+: a.nlName ∧
    strncmp a.nlName b.nlName a.nlName.length < 0 ∧ 0 < strncmp b.nlName a.nlName b.nlName.length

instance (a b : NameList) : Decidable (NameBefore a b) := inferInstanceAs (Decidable (_ ∧ _))

theorem attrTbl_ordered : attrTbl.Pairwise NameBefore := by decide

theorem attrTbl_entry : ∀ e ∈ attrTbl, NulFree e.nlName ∧ e.nlLen = e.nlName.length := by decide

theorem attrAt_eq_some_iff (pos : Int) (e : NameList) :
    attrAt pos = some e ↔ ∃ h : pos.toNat < attrTbl.length, 0 ≤ pos ∧ attrTbl[pos.toNat] = e := by
  rw [attrAt]
  by_cases hpos : 0 ≤ pos
  · rw [if_pos hpos, List.getElem?_eq_some_iff]
    simp [hpos]
  · simp [hpos]

/-- The comparison is 0 at the names with which the string begins. -/
theorem attrCmp_eq_zero_iff (ep : Str) (pos : Int) :
    attrCmp ep pos = some 0 ↔ ∃ e, attrAt pos = some e ∧ e.nlName <+: ep := by
  rw [attrCmp, Option.map_eq_some_iff]
  apply exists_congr
  intro e
  apply and_congr_right
  intro he
  obtain ⟨h, -, rfl⟩ := (attrAt_eq_some_iff pos e).mp he
  obtain ⟨hfree, hlen⟩ := attrTbl_entry _ (List.getElem_mem h)
  rw [hlen, strncmp_length_eq_zero_iff hfree]

theorem attrAt_total (h : 0 ≤ pos) (hlt : pos < attrTbl.length) : ∃ e, attrAt pos = some e := by
  have hlt' : pos.toNat < attrTbl.length := by omega
  exact ⟨attrTbl[pos.toNat], (attrAt_eq_some_iff pos _).mpr ⟨hlt', h, rfl⟩⟩

/-- In front of the name with which the string begins the comparison is negative, behind it
positive. -/
theorem attrCmp_of_zero (h : attrCmp ep i = some 0) (hk : attrAt k = some e) :
    ∃ r, attrCmp ep k = some r ∧ (k < i → r < 0) ∧ (i < k → 0 < r) := by
  obtain ⟨d, hd, u, rfl⟩ := (attrCmp_eq_zero_iff ep i).mp h
  obtain ⟨hi, hi0, rfl⟩ := (attrAt_eq_some_iff i d).mp hd
  obtain ⟨hk', hk0, rfl⟩ := (attrAt_eq_some_iff k e).mp hk
  have hlen := (attrTbl_entry _ (List.getElem_mem hk')).2
  have hordered := List.pairwise_iff_getElem.mp attrTbl_ordered
  refine ⟨_, by rw [attrCmp, hk, Option.map_some], ?_, ?_⟩
  · intro hlt
    obtain ⟨h₁, h₂, hneg, -⟩ := hordered k.toNat i.toNat hk' hi (by omega)
    rwa [hlen, strncmp_append_right h₁ h₂]
  · intro hlt
    obtain ⟨h₁, h₂, -, hpos⟩ := hordered i.toNat k.toNat hi hk' (by omega)
    rwa [hlen, strncmp_append_right h₂ h₁]

theorem attrSearch_spec (ep : Str) :
    ∃ found, attrSearch ep = some found ∧ ∀ i, found = some i ↔ attrCmp ep i = some 0 := by
  obtain ⟨first, hfirst⟩ := @attrAt_total 0 (by decide) (by decide)
  obtain ⟨last, hlast⟩ := @attrAt_total (attrTbl.length - 1) (by decide) (by decide)
  have hreach (i : Int) : InReach 3 7 i ↔ 0 ≤ i ∧ i < attrTbl.length := by
    have hsize : (attrTbl.length : Int) = 15 := by decide
    rw [InReach, hsize]
    omega
  have hcmp (ep : Str) {k : Int} {e : NameList} (hk : attrAt k = some e) :
      attrCmp ep k = some (-strncmp ep e.nlName e.nlLen) := by
    rw [attrCmp, hk, Option.map_some, strncmp_swap]
  rw [attrSearch, hfirst, Option.bind_some, hlast, Option.bind_some]
  split
  · rename_i hneg
    refine ⟨none, rfl, fun i => iff_of_false (by simp) fun hi => ?_⟩
    obtain ⟨r, hr, hbelow, -⟩ := attrCmp_of_zero hi hfirst
    rw [hcmp ep hfirst, Option.some_inj] at hr
    rcases lt_trichotomy 0 i with hlt | rfl | hgt
    · have := hbelow hlt
      omega
    · rw [hcmp ep hfirst, Option.some_inj] at hi
      omega
    · obtain ⟨e, he, -⟩ := (attrCmp_eq_zero_iff ep i).mp hi
      have := ((attrAt_eq_some_iff i e).mp he).2.1
      omega
  · split
    · rename_i hpos
      refine ⟨none, rfl, fun i => iff_of_false (by simp) fun hi => ?_⟩
      obtain ⟨r, hr, -, habove⟩ := attrCmp_of_zero hi hlast
      rw [hcmp ep hlast, Option.some_inj] at hr
      rcases lt_trichotomy i (attrTbl.length - 1) with hlt | rfl | hgt
      · have := habove hlt
        omega
      · rw [hcmp ep hlast, Option.some_inj] at hi
        omega
      · obtain ⟨e, he, -⟩ := (attrCmp_eq_zero_iff ep i).mp hi
        obtain ⟨hlt, h0, -⟩ := (attrAt_eq_some_iff i e).mp he
        omega
    · obtain ⟨found, hrun, hfound⟩ := @halvingSearch_spec (attrCmp ep) 7 3
        (by
          intro i hi
          obtain ⟨h0, hlt⟩ := (hreach i).mp hi
          obtain ⟨e, he⟩ := attrAt_total h0 hlt
          exact ⟨_, hcmp ep he⟩)
        (by
          intro i k hi hk hlt
          obtain ⟨h0, hlen⟩ := (hreach k).mp hk
          obtain ⟨e, he⟩ := attrAt_total h0 hlen
          obtain ⟨r, hr, hneg, -⟩ := attrCmp_of_zero hi he
          exact ⟨r, hr, hneg hlt⟩)
        (by
          intro i k hi hk hlt
          obtain ⟨h0, hlen⟩ := (hreach k).mp hk
          obtain ⟨e, he⟩ := attrAt_total h0 hlen
          obtain ⟨r, hr, -, hpos⟩ := attrCmp_of_zero hi he
          exact ⟨r, hr, hpos hlt⟩)
      refine ⟨found, hrun, fun i => (hfound i).trans (and_iff_right_of_imp fun hi => ?_)⟩
      obtain ⟨e, he, -⟩ := (attrCmp_eq_zero_iff ep i).mp hi
      obtain ⟨hlt, h0, -⟩ := (attrAt_eq_some_iff i e).mp he
      rw [hreach]
      omega

end Table

/-- The search stays inside the table and finds a position just if the environment string begins
with the name there; so it finds what a scan of the table finds. -/
theorem attrSearch_iff (ep : Str) : ∃ found, attrSearch ep = some found ∧
    (∀ pos, found = some pos ↔ ∃ e, attrAt pos = some e ∧ e.nlName <+: ep) ∧
    found = (attrTbl.findIdx? fun e => e.nlName.isPrefixOf ep).map Int.ofNat := by
  obtain ⟨found, hrun, hfound⟩ := attrSearch_spec ep
  have hiff (pos : Int) : found = some pos ↔ ∃ e, attrAt pos = some e ∧ e.nlName <+: ep :=
    (hfound pos).trans (attrCmp_eq_zero_iff ep pos)
  refine ⟨found, hrun, hiff, ?_⟩
  cases hscan : attrTbl.findIdx? fun e => e.nlName.isPrefixOf ep with
  | none =>
    rw [List.findIdx?_eq_none_iff] at hscan
    cases hf : found with
    | none => rfl
    | some pos =>
      obtain ⟨e, he, hpre⟩ := (hiff pos).mp hf
      obtain ⟨hlt, -, rfl⟩ := (attrAt_eq_some_iff pos e).mp he
      have hno := hscan _ (List.getElem_mem hlt)
      rw [List.isPrefixOf_iff_prefix.mpr hpre] at hno
      cases hno
  | some p =>
    obtain ⟨hlt, hpre, -⟩ := List.findIdx?_eq_some_iff_getElem.mp hscan
    refine (hiff p).mpr ⟨attrTbl[p], (attrAt_eq_some_iff p _).mpr ⟨hlt, ?_, rfl⟩, ?_⟩
    · exact Int.natCast_nonneg p
    · exact List.isPrefixOf_iff_prefix.mp hpre

def InstallOnly (ep : Str) : Prop :=
  ∃ e ∈ attrTbl, e.nlFlag = .exclude ∧ e.nlName <+: ep

instance (ep : Str) : Decidable (InstallOnly ep) :=
  inferInstanceAs (Decidable (∃ e ∈ attrTbl, _))

theorem merginfoEntry_of_installOnly (m : MergEnv) (h : InstallOnly ep) :
    merginfoEntry m ep = some (.ok []) := by
  obtain ⟨e, he, hflag, hpre⟩ := h
  obtain ⟨p, hp, rfl⟩ := List.getElem_of_mem he
  have hat : attrAt p = some attrTbl[p] :=
    (attrAt_eq_some_iff p _).mpr ⟨hp, Int.natCast_nonneg p, rfl⟩
  obtain ⟨found, hrun, hfound⟩ := attrSearch_spec ep
  obtain rfl := (hfound p).mpr ((attrCmp_eq_zero_iff ep p).mpr ⟨_, hat, hpre⟩)
  rw [merginfoEntry, hrun, Option.bind_some]
  dsimp only
  rw [hat, Option.map_some, hflag]

/-- The pkginfo file is the one that the environment without the attributes of the installation
gives. -/
theorem merginfoEnviron_drops (m : MergEnv) (environ : List Str) :
    merginfoEnviron m environ = merginfoEnviron m (environ.filter fun ep => ¬ InstallOnly ep) := by
  induction environ with
  | nil => rfl
  | cons ep environ ih =>
    by_cases h : InstallOnly ep
    · rw [List.filter_cons_of_neg (by simpa using h), merginfoEnviron,
        merginfoEntry_of_installOnly m h, Option.bind_some, ← ih]
      cases merginfoEnviron m environ with
      | none => rfl
      | some r => cases r <;> rfl
    · rw [List.filter_cons_of_pos (by simpa using h), merginfoEnviron, merginfoEnviron, ih]

end Pkgtools
