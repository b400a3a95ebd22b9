import Pkgtools.CLib.Numeral

namespace CLib
set_option autoImplicit true

def unlines (ls : List Str) : Str := ls.flatMap fun l => l ++ ['\n']

/-- A text that can stand on a line of its own. -/
def OneLine (l : Str) : Prop := '\n' ∉ l ∧ nul ∉ l

instance (l : Str) : Decidable (OneLine l) := inferInstanceAs (Decidable (_ ∧ _))

theorem oneLine_nil : OneLine [] := ⟨List.not_mem_nil, List.not_mem_nil⟩

theorem OneLine.sublist (h : OneLine s) (hs : List.Sublist t s) : OneLine t :=
  ⟨fun hm => h.1 (hs.subset hm), fun hm => h.2 (hs.subset hm)⟩

theorem OneLine.append (hs : OneLine s) (ht : OneLine t) : OneLine (s ++ t) :=
  ⟨fun hm => (List.mem_append.mp hm).elim hs.1 ht.1,
    fun hm => (List.mem_append.mp hm).elim hs.2 ht.2⟩

theorem OneLine.cons (hc : OneLine [c]) (hs : OneLine s) : OneLine (c :: s) :=
  OneLine.append (s := [c]) hc hs

theorem OneLine.ite {p : Prop} [Decidable p] (hs : OneLine s) : OneLine (if p then s else []) := by
  split
  · exact hs
  · exact oneLine_nil

theorem oneLine_of_forall {p : Char → Prop} (hs : ∀ c ∈ s, p c) (h₁ : ¬ p '\n') (h₂ : ¬ p nul) :
    OneLine s :=
  ⟨fun hm => h₁ (hs _ hm), fun hm => h₂ (hs _ hm)⟩

theorem oneLine_of_isDigit (h : ∀ c ∈ s, c.isDigit) : OneLine s :=
  oneLine_of_forall h (by decide) (by decide)

theorem oneLine_fmtD (n : Int) : OneLine (fmtD n) := by
  have hd : OneLine (Nat.toDigits 10 n.natAbs) :=
    oneLine_of_isDigit (toDigits_isDigit (by decide) (by decide))
  rw [fmtD]
  split
  · exact OneLine.cons (by decide) hd
  · exact hd

theorem oneLine_field (hs : OneLine s) : OneLine (' ' :: s) := OneLine.cons (by decide) hs

@[simp] theorem unlines_nil : unlines [] = [] := rfl

theorem unlines_cons (l : Str) (ls : List Str) : unlines (l :: ls) = l ++ '\n' :: unlines ls := by
  simp [unlines]

theorem unlines_append (ls ms : List Str) : unlines (ls ++ ms) = unlines ls ++ unlines ms :=
  List.flatMap_append

theorem length_le_unlines (ls : List Str) : ls.length ≤ (unlines ls).length := by
  induction ls with
  | nil => exact Nat.le_refl _
  | cons l ls ih =>
    rw [unlines_cons, List.length_append, List.length_cons, List.length_cons]
    omega

theorem nulFree_unlines (h : ∀ l ∈ ls, OneLine l) : NulFree (unlines ls) := by
  intro hm
  obtain ⟨l, hl, hc⟩ := List.mem_flatMap.mp hm
  rcases List.mem_append.mp hc with hc | hc
  · exact (h l hl).2 hc
  · exact absurd (List.mem_singleton.mp hc) (by decide)

/-- The lines of a text; what is left behind the last newline is a line too. -/
def splitLines : Str → List Str
  | [] => []
  | c :: s =>
    if c = '\n' then [] :: splitLines s
    else match splitLines s with
      | [] => [[c]]
      | l :: ls => (c :: l) :: ls

theorem splitLines_append (h : '\n' ∉ l) (s : Str) :
    splitLines (l ++ '\n' :: s) = l :: splitLines s := by
  induction l with
  | nil => rfl
  | cons c l ih =>
    have hc : c ≠ '\n' := fun he => h (he ▸ List.mem_cons_self)
    rw [List.cons_append, splitLines, if_neg hc, ih fun hm => h (List.mem_cons_of_mem _ hm)]

theorem splitLines_unlines (ls : List Str) (h : ∀ l ∈ ls, OneLine l) :
    splitLines (unlines ls) = ls := by
  induction ls with
  | nil => rfl
  | cons l ls ih =>
    rw [unlines_cons, splitLines_append (h l List.mem_cons_self).1,
      ih fun m hm => h m (List.mem_cons_of_mem _ hm)]

def isprint (c : Char) : Bool := 32 ≤ c.toNat && c.toNat ≤ 126

def Printable (l : Str) : Prop := ∀ c ∈ l, isprint c

instance (l : Str) : Decidable (Printable l) := inferInstanceAs (Decidable (∀ _ ∈ _, _))

theorem Printable.oneLine (h : Printable l) : OneLine l :=
  oneLine_of_forall h (by decide) (by decide)

end CLib
