import Pkgtools.CLib.BlockText
import Pkgtools.CLib.KeyTable

namespace Pkgtools
open CLib
set_option autoImplicit true

/-- The value in an entry of `environ`, if it is for the parameter. -/
def entryValue (param entry : Str) : Option Str :=
  if entry.take param.length = param ∧ entry[param.length]? = some '=' then
    some (entry.drop (param.length + 1))
  else none

/-- `getenv` of the C library. -/
def environValue (environ : List Str) (name : Str) : Option Str :=
  environ.findSome? (entryValue name)

/-- `putparam`. An entry that has the value already is left as it is. -/
def putparam (param value : Str) : List Str → List Str
  | [] => [param ++ '=' :: value]
  | entry :: environ =>
    match entryValue param entry with
    | some old => if old = value then entry :: environ else (param ++ '=' :: value) :: environ
    | none => entry :: putparam param value environ

def putparams (environ : List Str) (params : List (Str × Str)) : List Str :=
  params.foldl (fun environ p => putparam p.1 p.2 environ) environ

abbrev EnvName := { name : Str // '=' ∉ name }

section Environ

theorem entryValue_eq_some : entryValue name entry = some value ↔ entry = name ++ '=' :: value := by
  rw [entryValue]
  constructor
  · intro h
    split at h
    · rename_i hentry
      obtain ⟨htake, hsep⟩ := hentry
      cases h
      obtain ⟨hlt, hget⟩ := List.getElem?_eq_some_iff.mp hsep
      have hdrop : entry.drop name.length = '=' :: entry.drop (name.length + 1) := by
        rw [List.drop_eq_getElem_cons hlt, hget]
      calc entry = entry.take name.length ++ entry.drop name.length :=
            (List.take_append_drop _ _).symm
        _ = name ++ '=' :: entry.drop (name.length + 1) := by rw [htake, hdrop]
    · cases h
  · rintro rfl
    have hdrop : (name ++ '=' :: value).drop (name.length + 1) = value := by
      rw [List.drop_append, List.drop_eq_nil_of_le (Nat.le_succ _), Nat.add_sub_cancel_left,
        List.nil_append, List.drop_succ_cons, List.drop_zero]
    have hsep : (name ++ '=' :: value)[name.length]? = some '=' := by
      rw [List.getElem?_append_right (Nat.le_refl _), Nat.sub_self, List.getElem?_cons_zero]
    rw [if_pos ⟨List.take_left, hsep⟩, hdrop]

theorem entryValue_append (name value : Str) :
    entryValue name (name ++ '=' :: value) = some value :=
  entryValue_eq_some.mpr rfl

theorem append_eq_unique (h : '=' ∉ name) (h' : '=' ∉ name')
    (heq : name ++ '=' :: value = name' ++ '=' :: value') : name = name' := by
  induction name generalizing name' with
  | nil =>
    cases name' with
    | nil => rfl
    | cons c name' =>
      cases heq
      exact absurd List.mem_cons_self h'
  | cons c name ih =>
    cases name' with
    | nil =>
      cases heq
      exact absurd List.mem_cons_self h
    | cons c' name' =>
      obtain ⟨rfl, htail⟩ := List.cons.inj heq
      rw [ih (fun hc => h (List.mem_cons_of_mem _ hc)) (fun hc => h' (List.mem_cons_of_mem _ hc))
        htail]

/-- `environ` as a table. -/
def environTable : KeyTable EnvName Str Str where
  get name entry := entryValue name.val entry
  separate name name' entry h h' := by
    obtain ⟨value, hvalue⟩ := Option.isSome_iff_exists.mp h
    obtain ⟨value', hvalue'⟩ := Option.isSome_iff_exists.mp h'
    have heq : name.val ++ '=' :: value = name'.val ++ '=' :: value' := by
      rw [← entryValue_eq_some.mp hvalue, ← entryValue_eq_some.mp hvalue']
    exact Subtype.ext (append_eq_unique name.property name'.property heq)

theorem environValue_eq (environ : List Str) (name : EnvName) :
    environValue environ name = environTable.lookup environ name := rfl

theorem putparam_eq (param : EnvName) (value : Str) (environ : List Str) :
    putparam param value environ = environTable.assign param (param ++ '=' :: value) environ := by
  induction environ with
  | nil => rfl
  | cons entry environ ih =>
    have hget : environTable.get param entry = entryValue param entry := rfl
    rw [putparam, KeyTable.assign, hget]
    cases hentry : entryValue param entry with
    | none =>
      dsimp only
      rw [Option.isSome_none, if_neg Bool.false_ne_true, ih]
    | some old =>
      dsimp only
      rw [Option.isSome_some, if_pos rfl]
      split
      · rename_i hold
        rw [entryValue_eq_some.mp hentry, hold]
      · rfl

theorem environValue_putparam (param : EnvName) (value : Str) (environ : List Str)
    (name : EnvName) :
    environValue (putparam param value environ) name =
      if name = param then some value else environValue environ name := by
  rw [environValue_eq, putparam_eq, KeyTable.lookup_assign (entryValue_append param.val value),
    Function.update_apply, environValue_eq]

/-- Whatever parameters are put, in any order: a variable has the value that was put last, all
others keep theirs, and no variable gets a second entry. -/
theorem putparams_spec (environ : List Str) (params : List (EnvName × Str)) :
    (∀ name : EnvName, environValue (putparams environ (params.map fun p => (p.1.val, p.2))) name =
      ((params.reverse.find? (·.1 = name)).map Prod.snd).or (environValue environ name)) ∧
    (environTable.Distinct environ →
      environTable.Distinct (putparams environ (params.map fun p => (p.1.val, p.2)))) := by
  induction params generalizing environ with
  | nil => exact ⟨fun _ => rfl, id⟩
  | cons p params ih =>
    obtain ⟨ihget, ihdistinct⟩ := ih (putparam p.1 p.2 environ)
    refine ⟨fun name => ?_, fun h => ihdistinct ?_⟩
    · rw [List.map_cons, putparams, List.foldl_cons, ← putparams, ihget, environValue_putparam,
        List.reverse_cons, List.find?_append]
      cases params.reverse.find? (·.1 = name) with
      | some q => rfl
      | none =>
        rw [Option.map_none, Option.none_or, Option.none_or, List.find?_singleton]
        by_cases hname : name = p.1
        · rw [if_pos hname, decide_eq_true hname.symm]
          rfl
        · rw [if_neg hname, decide_eq_false fun h => hname h.symm]
          rfl
    · rw [putparam_eq]
      exact h.assign (Option.isSome_iff_exists.mpr ⟨_, entryValue_append p.1.val p.2⟩)

theorem putparams_spec_path :
    (∀ name : EnvName, environValue (putparams ["A=1".toList] [("B".toList, "2".toList)]) name =
      (([((⟨"B".toList, by decide⟩ : EnvName), "2".toList)].find? (·.1 = name)).map Prod.snd).or
        (environValue ["A=1".toList] name)) ∧
    environTable.Distinct (putparams ["A=1".toList] [("B".toList, "2".toList)]) :=
  have h := putparams_spec ["A=1".toList] [(⟨"B".toList, by decide⟩, "2".toList)]
  ⟨h.1, h.2 (List.pairwise_singleton _ _)⟩

end Environ

end Pkgtools
