import Mathlib.Logic.Function.Basic

namespace CLib
set_option autoImplicit true

/-- How the entries of a table are read: the value that an entry has for a key. An entry has a value
for one key at most. -/
structure KeyTable (κ α β : Type) where
  get : κ → α → Option β
  separate : ∀ k k' a, (get k a).isSome → (get k' a).isSome → k = k'

namespace KeyTable
variable {κ α β : Type} (t : KeyTable κ α β)

def lookup (l : List α) (k : κ) : Option β := l.findSome? (t.get k)

/-- The first entry for the key is replaced. A new one goes to the end. -/
def assign (k : κ) (e : α) : List α → List α
  | [] => [e]
  | a :: l => if (t.get k a).isSome then e :: l else a :: assign k e l

def remove (k : κ) : List α → List α
  | [] => []
  | a :: l => if (t.get k a).isSome then l else a :: remove k l

def Distinct (l : List α) : Prop := l.Pairwise fun a b => ∀ k, (t.get k a).isSome → t.get k b = none

end KeyTable

section Tables
variable {κ α β : Type} {t : KeyTable κ α β} {k k' : κ} {a e : α} {l : List α} {v : β}

theorem KeyTable.get_eq_none (h : (t.get k a).isSome) (hne : k' ≠ k) : t.get k' a = none := by
  cases hget : t.get k' a with
  | none => rfl
  | some w =>
    have hsome : (t.get k' a).isSome := by rw [hget, Option.isSome_some]
    exact absurd (t.separate k' k a hsome h) hne

theorem KeyTable.lookup_cons : t.lookup (a :: l) k = (t.get k a).or (t.lookup l k) := by
  rw [lookup, List.findSome?_cons]
  cases t.get k a with
  | none => rfl
  | some w => rfl

theorem KeyTable.lookup_assign [DecidableEq κ] (he : t.get k e = some v) (l : List α) :
    t.lookup (t.assign k e l) = Function.update (t.lookup l) k (some v) := by
  have hsome : (t.get k e).isSome := by rw [he, Option.isSome_some]
  funext k'
  induction l with
  | nil =>
    rw [assign, lookup_cons]
    by_cases hk : k' = k
    · rw [hk, Function.update_self, he, Option.some_or]
    · rw [Function.update_of_ne hk, get_eq_none hsome hk, Option.none_or]
  | cons a l ih =>
    rw [assign]
    split
    · -- the entry that was replaced was for the same key
      rename_i ha
      by_cases hk : k' = k
      · rw [lookup_cons, hk, Function.update_self, he, Option.some_or]
      · rw [lookup_cons, Function.update_of_ne hk, get_eq_none hsome hk, lookup_cons,
          get_eq_none ha hk]
    · rename_i ha
      rw [lookup_cons, ih]
      by_cases hk : k' = k
      · rw [hk, Function.update_self, Function.update_self, Option.not_isSome_iff_eq_none.mp ha,
          Option.none_or]
      · rw [Function.update_of_ne hk, Function.update_of_ne hk, lookup_cons]

theorem KeyTable.assign_new (h : ∀ a ∈ l, t.get k a = none) (e : α) :
    t.assign k e l = l ++ [e] := by
  induction l with
  | nil => rfl
  | cons a l ih =>
    rw [assign, h a List.mem_cons_self, Option.isSome_none, if_neg Bool.false_ne_true,
      ih fun b hb => h b (List.mem_cons_of_mem _ hb), List.cons_append]

theorem KeyTable.lookup_eq_none (h : ∀ b ∈ l, t.get k b = none) : t.lookup l k = none :=
  List.findSome?_eq_none_iff.mpr h

theorem KeyTable.lookup_remove [DecidableEq κ] (h : t.Distinct l) (k : κ) :
    t.lookup (t.remove k l) = Function.update (t.lookup l) k none := by
  funext k'
  induction l with
  | nil =>
    by_cases hk : k' = k
    · rw [hk, Function.update_self, remove, lookup, List.findSome?_nil]
    · rw [Function.update_of_ne hk, remove]
  | cons a l ih =>
    obtain ⟨hhead, htail⟩ := List.pairwise_cons.mp h
    rw [remove]
    split
    · rename_i ha
      by_cases hk : k' = k
      · rw [hk, Function.update_self]
        exact lookup_eq_none fun b hb => hhead b hb k ha
      · rw [Function.update_of_ne hk, lookup_cons, get_eq_none ha hk, Option.none_or]
    · rename_i ha
      rw [lookup_cons, ih htail]
      by_cases hk : k' = k
      · rw [hk, Function.update_self, Function.update_self, Option.not_isSome_iff_eq_none.mp ha,
          Option.none_or]
      · rw [Function.update_of_ne hk, Function.update_of_ne hk, lookup_cons]

theorem KeyTable.mem_assign (h : a ∈ t.assign k e l) : a = e ∨ a ∈ l := by
  induction l with
  | nil => exact .inl (List.mem_singleton.mp h)
  | cons b l ih =>
    rw [assign] at h
    split at h
    · cases h with
      | head => exact .inl rfl
      | tail _ h => exact .inr (List.mem_cons_of_mem _ h)
    · cases h with
      | head => exact .inr List.mem_cons_self
      | tail _ h => exact (ih h).imp id (List.mem_cons_of_mem _)

theorem KeyTable.remove_sublist (k : κ) (l : List α) : (t.remove k l).Sublist l := by
  induction l with
  | nil => exact List.Sublist.slnil
  | cons a l ih =>
    rw [remove]
    split
    · exact List.sublist_cons_self a l
    · exact ih.cons_cons a

theorem KeyTable.Distinct.remove (h : t.Distinct l) (k : κ) : t.Distinct (t.remove k l) :=
  List.Pairwise.sublist (remove_sublist k l) h

theorem KeyTable.Distinct.assign (h : t.Distinct l) (he : (t.get k e).isSome) :
    t.Distinct (t.assign k e l) := by
  induction l with
  | nil => exact List.pairwise_singleton _ _
  | cons a l ih =>
    obtain ⟨hhead, htail⟩ := List.pairwise_cons.mp h
    rw [KeyTable.assign]
    split
    · rename_i ha
      refine List.pairwise_cons.mpr ⟨fun b hb k' hk' => ?_, htail⟩
      rw [t.separate k' k e hk' he]
      exact hhead b hb k ha
    · rename_i ha
      refine List.pairwise_cons.mpr ⟨fun b hb k' hk' => ?_, ih htail⟩
      rcases mem_assign hb with hb | hb
      · -- the entry in front is not for the key of the new one
        rw [hb]
        refine get_eq_none he fun hkk => ha ?_
        rw [← hkk]
        exact hk'
      · exact hhead b hb k' hk'

end Tables

end CLib
