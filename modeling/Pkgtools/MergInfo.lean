import Pkgtools.ClassList

namespace Pkgtools
open CLib
set_option autoImplicit true

/-- `cl_NClasses`, for the array `cl_Classes` or without one. -/
def clGetn (clClasses : Option (List ClAttr)) : Int :=
  match clClasses with
  | none => -1
  | some list => list.length

/-- `cl_idx`: the index of the class with the name. -/
def clIdx (clClasses : Option (List ClAttr)) (nam : Str) : Int :=
  match (clClasses.getD []).findIdx? (·.name = nam) with
  | none => -1
  | some n => n

/-- `cl_nam`: the name of the class with the index. -/
def clNam (clClasses : Option (List ClAttr)) (idx : Int) : Option Str :=
  if 0 ≤ idx ∧ idx < clGetn clClasses then ((clClasses.getD [])[idx.toNat]?).map ClAttr.name
  else none

/-- Names that are put out behind `out` others. -/
def putNames : (out : Nat) → List Str → Str
  | _, [] => []
  | out, s :: ss => (if out > 0 then [' '] else []) ++ s ++ putNames (out + 1) ss

/-- The inner loop of `merginfo`: the class that is looked up is the installed one. -/
def foundClass (pclass clClasses : Option (List ClAttr)) : Bool :=
  (pclass.getD []).any fun p => clIdx clClasses p.name ≠ -1

/-- A class of the package, with what is put out so far and the number of names in it. -/
def merginfoClass (pclass clClasses : Option (List ClAttr)) (st : Str × Nat) (i : Nat) :
    Str × Nat :=
  if foundClass pclass clClasses then st
  else (st.1 ++ putNames st.2 [(clNam clClasses i).getD []], st.2 + 1)

def classesKey : Str := "CLASSES=".toList

/-- The line with the classes in `merginfo`; undefined for an array without a class, which is read
before it is looked at. -/
def merginfoClasses (pclass clClasses : Option (List ClAttr)) : Option Str :=
  if pclass = some [] then none
  else
    let installed := (pclass.getD []).map ClAttr.name
    let st := (List.range (clGetn clClasses).toNat).foldl (merginfoClass pclass clClasses)
      (classesKey ++ putNames 0 installed, installed.length)
    some (st.1 ++ ['\n'])

def classesLine (names : List Str) : Str := classesKey ++ putNames 0 names ++ ['\n']

def classNames (cls : Option (List ClAttr)) : List Str := (cls.getD []).map ClAttr.name

theorem putNames_append (out : Nat) (a b : List Str) :
    putNames out (a ++ b) = putNames out a ++ putNames (out + a.length) b := by
  induction a generalizing out with
  | nil => rfl
  | cons s a ih =>
    rw [List.cons_append, putNames, ih, putNames, List.length_cons, Nat.add_comm a.length 1,
      ← Nat.add_assoc]
    simp only [List.append_assoc]

theorem putNames_ne_nil (hout : 0 < out) (h : names ≠ []) : putNames out names ≠ [] := by
  cases names with
  | nil => exact absurd rfl h
  | cons s ss =>
    rw [putNames, if_pos hout]
    exact List.cons_ne_nil _ _

theorem clIdx_ne_iff (cls : Option (List ClAttr)) (nam : Str) :
    clIdx cls nam ≠ -1 ↔ nam ∈ classNames cls := by
  rw [clIdx, classNames, List.mem_map]
  cases h : (cls.getD []).findIdx? (·.name = nam) with
  | none =>
    rw [List.findIdx?_eq_none_iff] at h
    refine ⟨fun hne => absurd rfl hne, ?_⟩
    rintro ⟨cl, hcl, hname⟩
    exact absurd hname (of_decide_eq_false (h cl hcl))
  | some n =>
    obtain ⟨a, cl, b, hcls, -, hname, -⟩ := findIdx_split h
    refine ⟨fun _ => ⟨cl, ?_, of_decide_eq_true hname⟩, fun _ => by dsimp only; omega⟩
    rw [hcls]
    exact List.mem_append_right _ List.mem_cons_self

theorem foundClass_iff (pclass cls : Option (List ClAttr)) :
    foundClass pclass cls ↔ ∃ c ∈ classNames pclass, c ∈ classNames cls := by
  simp only [foundClass, List.any_eq_true, decide_eq_true_eq, clIdx_ne_iff]
  rw [classNames]
  constructor
  · rintro ⟨p, hp, hc⟩
    exact ⟨p.name, List.mem_map_of_mem hp, hc⟩
  · rintro ⟨c, hc, hc'⟩
    obtain ⟨p, hp, rfl⟩ := List.mem_map.mp hc
    exact ⟨p, hp, hc'⟩

theorem length_classNames (cls : Option (List ClAttr)) :
    (classNames cls).length = (clGetn cls).toNat := by
  cases cls with
  | none => rfl
  | some list => simp [classNames, clGetn]

theorem clNam_eq (h : i < (clGetn cls).toNat) : clNam cls i = (classNames cls)[i]? := by
  have hlt : (0 : Int) ≤ i ∧ (i : Int) < clGetn cls := by omega
  rw [clNam, if_pos hlt, classNames, List.getElem?_map, Int.toNat_natCast]

theorem fold_found (h : foundClass pclass cls) (st : Str × Nat) (l : List Nat) :
    l.foldl (merginfoClass pclass cls) st = st := by
  induction l with
  | nil => rfl
  | cons i l ih => rw [List.foldl_cons, merginfoClass, if_pos h, ih]

theorem fold_not_found (h : foundClass pclass cls = false) (text : Str) (out : Nat)
    (hk : k ≤ (clGetn cls).toNat) :
    (List.range k).foldl (merginfoClass pclass cls) (text, out) =
      (text ++ putNames out ((classNames cls).take k), out + k) := by
  induction k with
  | zero => simp [putNames]
  | succ k ih =>
    have hlen := length_classNames cls
    have hget : (classNames cls)[k]? = some (classNames cls)[k] :=
      List.getElem?_eq_getElem (by omega)
    rw [List.range_succ, List.foldl_append, ih (by omega), List.foldl_cons, List.foldl_nil,
      merginfoClass, h, if_neg Bool.false_ne_true, clNam_eq (by omega), hget, Option.getD_some,
      List.take_add_one, hget, putNames_append, List.length_take_of_le (by omega)]
    simp only [Option.toList_some, List.append_assoc, Nat.add_assoc]

/-- The merged line keeps all classes if the two packages have no class in common, or the new one
brings no class of its own. -/
theorem merginfoClasses_keeps_iff {pclass : Option (List ClAttr)} (hp : pclass ≠ some [])
    (cls : Option (List ClAttr)) :
    merginfoClasses pclass cls = some (classesLine
        (classNames pclass ++ (classNames cls).filter (· ∉ classNames pclass))) ↔
      (∀ c ∈ classNames pclass, c ∉ classNames cls) ∨
        ∀ c ∈ classNames cls, c ∈ classNames pclass := by
  rw [merginfoClasses, if_neg hp, classesLine]
  dsimp only
  rw [Option.some_inj, List.append_left_inj, ← classNames]
  cases hfound : foundClass pclass cls with
  | true =>
    obtain ⟨c, hc, hc'⟩ := (foundClass_iff pclass cls).mp hfound
    have hpos : 0 < (classNames pclass).length := List.length_pos_of_mem hc
    rw [fold_found hfound, putNames_append, ← List.append_assoc, List.self_eq_append_right,
      Nat.zero_add]
    constructor
    · intro h
      refine .inr fun d hd => ?_
      by_contra hno
      refine putNames_ne_nil hpos ?_ h
      exact List.ne_nil_of_mem (List.mem_filter.mpr ⟨hd, decide_eq_true hno⟩)
    · rintro (h | h)
      · exact absurd hc' (h c hc)
      · rw [List.filter_eq_nil_iff.mpr fun d hd => by simpa using h d hd]
        rfl
  | false =>
    have hdisj : ∀ c ∈ classNames pclass, c ∉ classNames cls := by
      intro c hc hc'
      rw [(foundClass_iff pclass cls).mpr ⟨c, hc, hc'⟩] at hfound
      cases hfound
    have hall : (classNames cls).filter (· ∉ classNames pclass) = classNames cls :=
      List.filter_eq_self.mpr fun c hc => decide_eq_true fun hc' => hdisj c hc' hc
    rw [fold_not_found hfound _ _ le_rfl, hall, ← length_classNames, List.take_length,
      putNames_append, Nat.zero_add, List.append_assoc]
    exact iff_of_true rfl (.inl hdisj)

def sampleClass (name : String) : ClAttr := ⟨name.toList, 0, 0, 0⟩

/-- Neither of two packages has a class of the other one. -/
theorem merginfoClasses_keeps_apart :
    merginfoClasses (some [sampleClass "none", sampleClass "conf"])
        (some [sampleClass "build", sampleClass "doc"]) =
      some (classesLine (["none", "conf", "build", "doc"].map String.toList)) := by
  have hkept := (merginfoClasses_keeps_iff
    (show some [sampleClass "none", sampleClass "conf"] ≠ some [] by simp)
    (some [sampleClass "build", sampleClass "doc"])).mpr (.inl (by decide +kernel))
  rw [hkept]
  decide +kernel

/-- A package that shares one class with the installed one loses its other class. -/
theorem merginfoClasses_loses :
    ¬ ∀ installed classes : List ClAttr, installed ≠ [] → (installed.map ClAttr.name).Nodup →
      (classes.map ClAttr.name).Nodup →
        merginfoClasses (some installed) (some classes) = some (classesLine
          (installed.map ClAttr.name ++
            (classes.map ClAttr.name).filter (· ∉ installed.map ClAttr.name))) := by
  intro h
  have hlost := h [sampleClass "none"] [sampleClass "none", sampleClass "build"] (by decide)
    (by decide +kernel) (by decide +kernel)
  exact absurd hlost (by decide +kernel)

end Pkgtools
