import Pkgtools.CLib.ArrayShift

namespace CLib
set_option autoImplicit true

/-- A growable array of pointers to records, with a NULL behind the last one. The records that were
deleted are kept behind the NULL. `avail` is the number of pointers in front of it. -/
structure PointerArray (α : Type) where
  slots : List (Option α)
  avail : Nat
  full : Bool
  block : Nat

namespace PointerArray
variable {α : Type}

def create (block : Nat) : PointerArray α := ⟨[], 0, false, block⟩

def allocNextSeg (a : PointerArray α) : PointerArray α :=
  { a with slots := a.slots ++ List.replicate a.block none, full := false }

def nextSlot (a : PointerArray α) (x : α) : PointerArray α :=
  let a := if a.slots = [] ∨ a.full then a.allocNextSeg else a
  { a with
    slots := a.slots.set a.avail (some x)
    avail := a.avail + 1
    full := a.slots.length ≤ a.avail + 1 }

/-- A record at the end of the array: one that was deleted before, or a new one. -/
def nextAvail (blank : α) (a : PointerArray α) : PointerArray α :=
  match a.slots[a.avail + 1]? with
  | some (some x) =>
    { a with slots := (a.slots.set a.avail (some x)).set (a.avail + 1) none, avail := a.avail + 1 }
  | _ =>
    let a := a.nextSlot blank
    if a.full then a.allocNextSeg else a

def put (a : PointerArray α) (i : Nat) (x : α) : PointerArray α :=
  { a with slots := a.slots.set i (some x) }

/-- Take out a record: the pointers up to the NULL move down, and the cleared record is kept behind
it. A round of the loop leaves the slots alone that it still has to look at. -/
def delete (blank : α) (a : PointerArray α) (index : Nat) : PointerArray α :=
  if a.slots = [] ∨ a.avail < index then a
  else
    let rounds := ((a.slots.drop index).takeWhile Option.isSome).length
    { a with
      slots := (shiftDown rounds index a.slots).set (index + rounds) (some blank)
      avail := a.avail - 1
      full := false }

/-- The record at `j` goes to `i`, in front of those between. -/
def move (a : PointerArray α) (j i : Nat) : PointerArray α :=
  { a with slots := moveBack a.slots j i }

/-- The slots of an array: the records, the NULL, the deleted records and the slots never used. -/
def layout (blank : α) (live : List α) (j k : Nat) : List (Option α) :=
  live.map some ++ none :: (List.replicate j (some blank) ++ List.replicate k none)

/-- The array points to the records `live`. -/
structure Holds (blank : α) (a : PointerArray α) (live : List α) : Prop where
  slots : a.slots = [] ∧ live = [] ∨ ∃ j k, a.slots = layout blank live j k
  avail : a.avail = live.length
  room : a.full = false
  block : 0 < a.block

section Holds
variable {blank : α} {a : PointerArray α} {live : List α}

theorem holds_create (blank : α) {n : Nat} (h : 0 < n) : Holds blank (create n) [] :=
  ⟨.inl ⟨rfl, rfl⟩, rfl, rfl, h⟩

theorem layout_append (blank : α) (l₁ l₂ : List α) (j k : Nat) :
    layout blank (l₁ ++ l₂) j k = l₁.map some ++ layout blank l₂ j k := by
  rw [layout, List.map_append, List.append_assoc]
  rfl

theorem layout_cons (blank x : α) (live : List α) (j k : Nat) :
    layout blank (x :: live) j k = some x :: layout blank live j k := rfl

theorem getElem?_layout {n : Nat} (h : n < live.length) (blank : α) (j k : Nat) :
    (layout blank live j k)[n]? = some (some (live.get ⟨n, h⟩)) := by
  rw [layout, List.getElem?_append_left (by rwa [List.length_map]), List.getElem?_map,
    List.getElem?_eq_getElem h]
  rfl

theorem Holds.getElem? (h : Holds blank a live) (hn : n < live.length) :
    a.slots[n]? = some (some (live.get ⟨n, hn⟩)) := by
  rcases h.slots with ⟨-, rfl⟩ | ⟨j, k, hs⟩
  · exact absurd hn (Nat.not_lt_zero _)
  · rw [hs, getElem?_layout hn]

theorem Holds.terminated (h : Holds blank a live) (hne : live ≠ []) :
    a.slots.take (live.length + 1) = live.map some ++ [none] := by
  rcases h.slots with ⟨-, rfl⟩ | ⟨j, k, hs⟩
  · exact absurd rfl hne
  · rw [hs, layout, List.take_append, List.take_of_length_le (by simp)]
    simp

theorem set_behind (x : α) (live : List α) (y : Option α) (u : List (Option α)) :
    (live.map some ++ y :: u).set live.length (some x) = (live ++ [x]).map some ++ u := by
  rw [List.set_append_right _ _ (by simp)]
  simp

theorem replicate_pos (x : α) (h : 0 < n) : List.replicate n x = x :: List.replicate (n - 1) x := by
  obtain ⟨m, rfl⟩ := Nat.exists_eq_add_of_lt h
  simp [List.replicate_succ]

/-- With nothing to reclaim, the record goes to a new slot. -/
theorem holds_nextSlot (hs : a.slots = layout blank live 0 k) (havail : a.avail = live.length)
    (hfull : a.full = false) (hblock : 0 < a.block) :
    Holds blank (if (a.nextSlot blank).full then (a.nextSlot blank).allocNextSeg
      else a.nextSlot blank)
      (live ++ [blank]) := by
  have hopen : ¬ (a.slots = [] ∨ a.full = true) := by
    rw [hs, hfull]
    simp [layout]
  have hset : (a.nextSlot blank).slots = (live ++ [blank]).map some ++ List.replicate k none := by
    simp only [nextSlot, if_neg hopen]
    rw [hs, havail, layout, set_behind]
    rfl
  have hlast : (a.nextSlot blank).full = decide (k = 0) := by
    simp only [nextSlot, if_neg hopen]
    rw [hs, havail]
    simp [layout]
  have hnext : (a.nextSlot blank).avail = (live ++ [blank]).length ∧
      (a.nextSlot blank).block = a.block := by
    simp [nextSlot, if_neg hopen, havail]
  rw [hlast]
  by_cases hk : k = 0
  · subst hk
    rw [if_pos (by decide)]
    refine ⟨.inr ⟨0, a.block - 1, ?_⟩, hnext.1, rfl, hnext.2 ▸ hblock⟩
    simp only [allocNextSeg, hset, hnext.2]
    rw [replicate_pos none hblock]
    simp [layout]
  · rw [if_neg (by simpa using hk)]
    refine ⟨.inr ⟨0, k - 1, ?_⟩, hnext.1, ?_, hnext.2 ▸ hblock⟩
    · rw [hset, replicate_pos none (Nat.pos_of_ne_zero hk)]
      simp [layout]
    · rw [hlast]
      simpa using hk

theorem nextSlot_create (h : a.slots = []) (hb : 0 < a.block) :
    a.nextSlot blank = a.allocNextSeg.nextSlot blank := by
  have hne : a.allocNextSeg.slots ≠ [] := by simp [allocNextSeg, Nat.ne_of_gt hb]
  have hfull : a.allocNextSeg.full = false := rfl
  simp only [nextSlot, if_pos (Or.inl h), hne, hfull, false_or, Bool.false_eq_true, if_false]

theorem Holds.nextAvail (h : Holds blank a live) :
    Holds blank (a.nextAvail blank) (live ++ [blank]) := by
  rcases h.slots with ⟨hs, rfl⟩ | ⟨j, k, hs⟩
  · have hseg : a.allocNextSeg.slots = layout blank [] 0 (a.block - 1) := by
      simp only [allocNextSeg, hs, List.nil_append]
      rw [replicate_pos none h.block]
      rfl
    have hnew := holds_nextSlot hseg h.avail rfl h.block
    rw [← nextSlot_create hs h.block] at hnew
    rw [PointerArray.nextAvail, hs]
    exact hnew
  · have hbehind : a.slots[a.avail + 1]? =
        (List.replicate j (some blank) ++ List.replicate k none)[0]? := by
      rw [hs, h.avail, layout, List.getElem?_append_right (by simp)]
      simp
    cases j with
    | zero =>
      have hnone : ∀ x, a.slots[a.avail + 1]? ≠ some (some x) := by
        intro x hx
        rw [hbehind] at hx
        cases k <;> cases hx
      rw [PointerArray.nextAvail]
      split
      · next x hx => exact absurd hx (hnone x)
      · exact holds_nextSlot hs h.avail h.room h.block
    | succ j =>
      have hsome : a.slots[a.avail + 1]? = some (some blank) := hbehind
      simp only [PointerArray.nextAvail, hsome]
      refine ⟨.inr ⟨j, k, ?_⟩, ?_, h.room, h.block⟩
      · rw [hs, h.avail, layout, set_behind, List.replicate_succ, List.cons_append]
        rw [List.set_append_right _ _ (by simp)]
        simp [layout]
      · rw [List.length_append, List.length_singleton, ← h.avail]

theorem Holds.put (h : Holds blank a live) (hi : i < live.length) (x : α) :
    Holds blank (a.put i x) (live.set i x) := by
  rcases h.slots with ⟨-, rfl⟩ | ⟨j, k, hs⟩
  · exact absurd hi (Nat.not_lt_zero _)
  · refine ⟨.inr ⟨j, k, ?_⟩, h.avail.trans List.length_set.symm, h.room, h.block⟩
    show a.slots.set i (some x) = _
    rw [hs, layout, List.set_append_left _ _ (by rwa [List.length_map]), layout, List.map_set]

theorem Holds.delete {l₁ l₂ : List α} (h : Holds blank a (l₁ ++ x :: l₂)) :
    Holds blank (a.delete blank l₁.length) (l₁ ++ l₂) := by
  rcases h.slots with ⟨-, hnil⟩ | ⟨j, k, hs⟩
  · exact absurd hnil (by simp)
  · have havail := h.avail
    rw [List.length_append, List.length_cons] at havail
    have hguard : ¬ (a.slots = [] ∨ a.avail < l₁.length) := by
      rw [hs, layout_append, havail]
      simp [layout]
    have hlen : (l₁.map some : List (Option α)).length = l₁.length := List.length_map _
    have hrounds : ((a.slots.drop l₁.length).takeWhile Option.isSome).length = l₂.length + 1 := by
      rw [hs, layout_append, List.drop_left' hlen, layout]
      rw [List.takeWhile_append_of_pos (by simp), List.takeWhile_cons_of_neg (by simp)]
      simp
    have hshift := shiftDown_eq (l₁.map some) (some x) (l₂.map some ++ [none])
      (List.replicate j (some blank) ++ List.replicate k none)
    have hlast : (some x :: (l₂.map some ++ [none])).getLast (List.cons_ne_nil _ _) = none :=
      List.getLast_concat (l := some x :: l₂.map some)
    rw [List.length_append, List.length_map, List.length_singleton, hlen, hlast] at hshift
    rw [PointerArray.delete, if_neg hguard]
    simp only [hrounds]
    refine ⟨.inr ⟨j + 1, k, ?_⟩, ?_, rfl, h.block⟩
    · have hslots : a.slots = l₁.map some ++ some x ::
          (l₂.map some ++ [none] ++ (List.replicate j (some blank) ++ List.replicate k none)) := by
        rw [hs, layout_append, layout_cons, layout]
        simp
      rw [hslots, hshift, layout, List.map_append, List.replicate_succ]
      rw [List.set_append_right _ _ (by simp)]
      simp
    · show a.avail - 1 = _
      rw [List.length_append, havail]
      omega

theorem Holds.move {l₁ l₂ l₃ : List α} (h : Holds blank a (l₁ ++ l₂ ++ x :: l₃)) :
    Holds blank (a.move (l₁.length + l₂.length) l₁.length) (l₁ ++ x :: (l₂ ++ l₃)) := by
  rcases h.slots with ⟨-, hnil⟩ | ⟨j, k, hs⟩
  · exact absurd hnil (by simp)
  · refine ⟨.inr ⟨j, k, ?_⟩, ?_, h.room, h.block⟩
    · have hmove := moveBack_eq (l₁.map some) (l₂.map some) (some x) (layout blank l₃ j k)
      rw [List.length_map, List.length_map, ← List.map_append, ← layout_cons, ← layout_append]
        at hmove
      show moveBack a.slots _ _ = _
      rw [hs, hmove, layout_append, layout_cons, layout_append]
    · show a.avail = _
      rw [h.avail]
      simp only [List.length_append, List.length_cons]
      omega

end Holds

end PointerArray

end CLib
