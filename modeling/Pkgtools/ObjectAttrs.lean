import Pkgtools.Merge

namespace Pkgtools
open CLib
set_option autoImplicit true

def Ainfo.names (a : Ainfo) : Nat × Str × Str := (a.mode, a.owner, a.group)

/-- The object of the path, if its attributes are checked and it is of the type. -/
def System.objectOf (sys : System) (ftype : Char) (path : Str) : Option Stat :=
  if sys.disableAttributeCheck then none
  else (if sys.nonAbiSymlinks then sys.stat path else sys.lstat path).filter fun status =>
    (fileType status).any fun myftype =>
      ftype = myftype ∨ myftype = 'f' ∧ ftype ∈ "ev".toList ∨ myftype = 'd' ∧ ftype = 'x'

def Ainfo.readOff (sys : System) (a : Ainfo) (status : Stat) : Ainfo :=
  { a with
    mode := if a.mode = badMode ∨ a.mode = wildcard then status.mode &&& 0o7777 else a.mode
    owner := if a.owner = badOwner then (sys.cpwuid status.uid).getD a.owner else a.owner
    group := if a.group = badGroup then (sys.cgrgid status.gid).getD a.group else a.group }

/-- The object that `set_change` compares the attributes of an element with. -/
def Cfextra.object (sys : System) (el : Cfextra) : Option Stat :=
  if el.mstat.attrchg = false ∧ (hasContent el.cfEnt.ftype → el.mstat.contchg = false ∧
    (Pkgtools.cverify sys el.cfEnt.ftype el.serverPath el.cfEnt.cinfo).1 = 0) then
    sys.objectOf el.cfEnt.ftype el.serverPath
  else none

section Object
variable {sys : System} {a : Ainfo} {el : Cfextra}

theorem verifyName_snd {setval : Prop} [Decidable setval] (hs : ¬ setval)
    (byId : Int → Option Str) (byName : Str → Option Int) (bad name : Str) (id retcode : Int) :
    (verifyName byId byName setval bad name id retcode).2 =
      if name = bad then (byId id).getD name else name := by
  rw [verifyName]
  by_cases hname : name = bad
  · rw [if_pos (.inr hname), if_pos hname]
    cases byId id <;> rfl
  · rw [if_neg (not_or.mpr ⟨hs, hname⟩), if_neg hname]
    split <;> rfl

theorem verifyAttrs_names {setval : Prop} [Decidable setval] (hs : ¬ setval) (path : Str)
    (myftype : Char) (status : Stat) (a : Ainfo) :
    (verifyAttrs sys setval path myftype status a).2.names = (a.readOff sys status).names := by
  have hmode : (if ¬ (setval ∨ a.mode = badMode ∨ a.mode = wildcard) then a.mode
      else status.mode &&& 0o7777) =
      if a.mode = badMode ∨ a.mode = wildcard then status.mode &&& 0o7777 else a.mode := by
    simp only [hs, false_or, ite_not]
  refine Prod.ext hmode (Prod.ext ?_ ?_)
  · exact verifyName_snd hs _ _ _ _ _ _
  · exact verifyName_snd hs _ _ _ _ _ _

theorem hasAttrs_cases (h : hasAttrs c) :
    c ≠ 's' ∧ c ≠ 'l' ∧ c ≠ 'i' ∧ c ≠ '?' ∧ c ≠ nul ∧ c ≠ rmRdy := by
  have hall : ∀ t ∈ "dxcbpfve".toList,
      t ≠ 's' ∧ t ≠ 'l' ∧ t ≠ 'i' ∧ t ≠ '?' ∧ t ≠ nul ∧ t ≠ rmRdy := by decide
  exact hall c (of_decide_eq_true h)

/-- The check of an object takes what is not given from it. -/
theorem averify_names (h : hasAttrs ftype) (sys : System) (path : Str) (a : Ainfo) :
    (averify sys ftype path a).2.2.names =
      ((sys.objectOf ftype path).elim a (a.readOff sys)).names := by
  obtain ⟨hs, hl, hi, hany, hnul, -⟩ := hasAttrs_cases h
  unfold averify System.objectOf
  by_cases hoff : sys.disableAttributeCheck
  · rw [if_pos hoff, if_pos hoff]
    rfl
  rw [if_neg hoff, if_neg hoff, if_neg hl]
  simp only [hs, ne_eq, not_false_eq_true, and_true]
  cases (if sys.nonAbiSymlinks then sys.stat path else sys.lstat path) with
  | none => rfl
  | some status =>
    dsimp only
    cases hfile : fileType status with
    | none =>
      rw [Option.filter_some, hfile]
      rfl
    | some myftype =>
      have hsame : (ftype = myftype ∨ myftype = 'f' ∧ ftype ∈ nul :: "ilev".toList ∨
          myftype = 'd' ∧ ftype = 'x') ↔
          (ftype = myftype ∨ myftype = 'f' ∧ ftype ∈ "ev".toList ∨
            myftype = 'd' ∧ ftype = 'x') := by
        simp [hl, hi, hnul]
      rw [Option.filter_some, hfile]
      simp only [hany, not_false_eq_true, true_and, if_false, hsame, Option.any_some,
        decide_eq_true_eq]
      by_cases hsame' : ftype = myftype ∨ myftype = 'f' ∧ ftype ∈ "ev".toList ∨
          myftype = 'd' ∧ ftype = 'x'
      · rw [if_neg (not_not.mpr hsame'), if_pos hsame', verifyTyped, if_neg hs, if_neg hi]
        exact verifyAttrs_names not_false path myftype status a
      · rw [if_pos hsame', if_neg hsame']
        rfl

theorem setChange_names (h : hasAttrs el.cfEnt.ftype) :
    (setChange sys el).cfEnt.ainfo.names =
      ((el.object sys).elim el.cfEnt.ainfo (el.cfEnt.ainfo.readOff sys)).names := by
  have hav := averify_names h sys el.serverPath el.cfEnt.ainfo
  have htypes : hasContent el.cfEnt.ftype = false → el.cfEnt.ftype ∈ "dxcbp".toList := by
    have hall : ∀ t ∈ "dxcbpfve".toList, hasContent t = false → t ∈ "dxcbp".toList := by decide
    exact hall _ (of_decide_eq_true h)
  have hcompared (hflag : el.mstat.attrchg = false) (hcont : hasContent el.cfEnt.ftype →
      el.mstat.contchg = false ∧
        (Pkgtools.cverify sys el.cfEnt.ftype el.serverPath el.cfEnt.cinfo).1 = 0) :
      el.object sys = sys.objectOf el.cfEnt.ftype el.serverPath := if_pos ⟨hflag, hcont⟩
  unfold setChange
  by_cases hc : hasContent el.cfEnt.ftype
  · rw [if_pos hc]
    dsimp only [Cfextra.cverify, Cfextra.averify]
    by_cases hcont : (Pkgtools.cverify sys el.cfEnt.ftype el.serverPath el.cfEnt.cinfo).1 = 0
    · rw [if_neg (not_not.mpr hcont)]
      by_cases hflags : el.mstat.contchg = false ∧ el.mstat.attrchg = false
      · rw [if_pos hflags, hcompared hflags.2 fun _ => ⟨hflags.1, hcont⟩, ← hav]
        split <;> rfl
      · rw [if_neg hflags, Cfextra.object, if_neg fun h => hflags ⟨(h.2 hc).1, h.1⟩]
        rfl
    · rw [if_pos hcont, Cfextra.object, if_neg fun h => hcont (h.2 hc).2]
      rfl
  · have hdx := htypes (by simpa using hc)
    rw [if_neg hc]
    dsimp only [Cfextra.averify]
    by_cases hflag : el.mstat.attrchg = false
    · rw [if_pos ⟨hflag, hdx⟩, hcompared hflag fun h => absurd h hc, ← hav]
      split
      · rfl
      · split <;> rfl
    · have hlink : ¬ isLink el.cfEnt.ftype := by
        obtain ⟨hs, hl, -⟩ := hasAttrs_cases h
        simp [isLink, hs, hl]
      rw [if_neg fun h => hflag h.1, if_neg fun h => hlink h.2, Cfextra.object,
        if_neg fun h => hflag h.1]
      rfl

end Object

end Pkgtools
