import Pkgtools.CLib.Text

namespace CLib
set_option autoImplicit true

/-- The strings that `strdup` has allocated, in order; a freed one is `none`. -/
abbrev StrHeap := List (Option Str)

namespace StrHeap

/-- The string behind a pointer, unless it has been freed. -/
def get (h : StrHeap) (p : Nat) : Option Str := h[p]?.join

/-- Duplicate strings: the pointers and the heap. -/
def dupAll (h : StrHeap) (ss : List Str) : List Nat × StrHeap :=
  (List.range' h.length ss.length, h ++ ss.map some)

/-- `free`. `none` is a pointer that is not allocated. -/
def free (h : StrHeap) (p : Nat) : Option StrHeap :=
  match h.get p with
  | none => none
  | some _ => some (h.set p none)

def freeAll : StrHeap → List Nat → Option StrHeap
  | h, [] => some h
  | h, p :: ps =>
    match h.free p with
    | none => none
    | some h => freeAll h ps

/-- The strings below `n` are the same. -/
structure Agrees (n : Nat) (h h' : StrHeap) : Prop where
  length_le : h.length ≤ h'.length
  get_eq : ∀ p, p < n → h'.get p = h.get p

theorem Agrees.refl (n : Nat) (h : StrHeap) : Agrees n h h := ⟨Nat.le_refl _, fun _ _ => rfl⟩

theorem Agrees.trans (h₁ : Agrees n a b) (h₂ : Agrees n b c) : Agrees n a c :=
  ⟨h₁.length_le.trans h₂.length_le, fun p hp => (h₂.get_eq p hp).trans (h₁.get_eq p hp)⟩

theorem free_agrees {h : StrHeap} (hf : h.free p = some h') (hp : n ≤ p) : Agrees n h h' := by
  rw [free] at hf
  split at hf
  · cases hf
  · cases hf
    refine ⟨by simp, ?_⟩
    intro q hq
    have hne : p ≠ q := by omega
    rw [get, get, List.getElem?_set_ne hne]

theorem freeAll_agrees {h : StrHeap} (hf : h.freeAll ps = some h') (hp : ∀ p ∈ ps, n ≤ p) :
    Agrees n h h' := by
  induction ps generalizing h with
  | nil =>
    cases hf
    exact .refl n _
  | cons p ps ih =>
    rw [freeAll] at hf
    cases hq : h.free p with
    | none =>
      rw [hq] at hf
      cases hf
    | some h₁ =>
      rw [hq] at hf
      exact (free_agrees hq (hp p (List.mem_cons_self ..))).trans
        (ih hf fun q hq => hp q (List.mem_cons_of_mem _ hq))

theorem dupAll_agrees (h : StrHeap) (ss : List Str) (hn : n ≤ h.length) :
    Agrees n h (h.dupAll ss).2 := by
  refine ⟨by simp [dupAll], ?_⟩
  intro p hp
  rw [dupAll, get, get, List.getElem?_append_left (by omega)]

theorem mem_dupAll {h : StrHeap} (hp : p ∈ (h.dupAll ss).1) :
    h.length ≤ p ∧ p < (h.dupAll ss).2.length := by
  simp only [dupAll, List.mem_range'_1, List.length_append, List.length_map] at hp ⊢
  exact hp

end StrHeap

end CLib
