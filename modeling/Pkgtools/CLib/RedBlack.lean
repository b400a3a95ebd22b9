import Mathlib.Algebra.Group.Nat.Defs
import Mathlib.Data.Nat.Log
import Pkgtools.CLib.ParentTree

namespace CLib
set_option autoImplicit true

section RedBlack
variable {α : Type} (black : α → Bool)

def PTree.isBlack : PTree α → Bool
  | .nil => true
  | .node _ _ x _ => black x

def NoRedRed : PTree α → Prop
  | .nil => True
  | .node _ l x r =>
    (black x = false → l.isBlack black = true ∧ r.isBlack black = true) ∧ NoRedRed l ∧ NoRedRed r

def NoRedRedBelow : PTree α → Prop
  | .nil => True
  | .node _ l _ r => NoRedRed black l ∧ NoRedRed black r

/-- Each path down to an empty tree has `n` black records. -/
def Balanced : PTree α → Nat → Prop
  | .nil, n => n = 0
  | .node _ l x r, n => ∃ m, Balanced l m ∧ Balanced r m ∧ n = m + (black x).toNat

/-- Around a subtree whose root is black or red, no red record has a red child. -/
def NoRedRedCtx : TreeCtx α → Bool → Prop
  | .top, _ => True
  | .node _ c _ x u, b =>
    (black x = false → b = true ∧ u.isBlack black = true) ∧ NoRedRed black u ∧
      NoRedRedCtx c (black x)

/-- A subtree with `m` black records on each path makes a tree with `n`. -/
def BalancedCtx : TreeCtx α → Nat → Nat → Prop
  | .top, m, n => m = n
  | .node _ c _ x u, m, n => Balanced black u m ∧ BalancedCtx c (m + (black x).toNat) n

def RootBlack : TreeCtx α → Prop
  | .top => True
  | .node _ .top _ x _ => black x = true
  | .node _ (.node d c p y u) _ _ _ => RootBlack (.node d c p y u)

variable {black} {c : TreeCtx α} {t u : PTree α} {d : Side}

theorem isBlack_join : (PTree.join d p x t u).isBlack black = black x := by
  cases d <;> rfl

theorem noRedRed_join : NoRedRed black (.join d p x t u) ↔
    (black x = false → t.isBlack black = true ∧ u.isBlack black = true) ∧ NoRedRed black t ∧
      NoRedRed black u := by
  cases d with
  | left => exact Iff.rfl
  | right => exact and_congr (forall_congr' fun _ => and_comm) and_comm

theorem noRedRedBelow_join : NoRedRedBelow black (.join d p x t u) ↔
    NoRedRed black t ∧ NoRedRed black u := by
  cases d with
  | left => exact Iff.rfl
  | right => exact and_comm

theorem NoRedRed.below (h : NoRedRed black t) : NoRedRedBelow black t := by
  cases t with
  | nil => trivial
  | node p l x r => exact h.2

theorem NoRedRedBelow.of_black (h : NoRedRedBelow black t) (ht : t.isBlack black = true) :
    NoRedRed black t := by
  cases t with
  | nil => trivial
  | node p l x r =>
    refine ⟨fun hx => ?_, h⟩
    rw [PTree.isBlack, hx] at ht
    cases ht

theorem balanced_join : Balanced black (.join d p x t u) n ↔
    ∃ m, Balanced black t m ∧ Balanced black u m ∧ n = m + (black x).toNat := by
  cases d with
  | left => exact Iff.rfl
  | right => exact exists_congr fun m => and_left_comm

theorem Balanced.unique (hm : Balanced black t m) (hn : Balanced black t n) : m = n := by
  induction t generalizing m n with
  | nil =>
    rw [Balanced] at hm hn
    rw [hm, hn]
  | node p l x r ihl ihr =>
    obtain ⟨m', hm', -, rfl⟩ := hm
    obtain ⟨n', hn', -, rfl⟩ := hn
    rw [ihl hm' hn']

theorem noRedRed_fill : NoRedRed black (c.fill t) ↔
    NoRedRed black t ∧ NoRedRedCtx black c (t.isBlack black) := by
  induction c generalizing t with
  | top => exact (and_iff_left trivial).symm
  | node d c p x u ih =>
    rw [TreeCtx.fill, ih, noRedRed_join, isBlack_join, NoRedRedCtx]
    constructor
    · rintro ⟨⟨hx, ht, hu⟩, hc⟩
      exact ⟨ht, hx, hu, hc⟩
    · rintro ⟨ht, hx, hu, hc⟩
      exact ⟨⟨hx, ht, hu⟩, hc⟩

theorem balanced_fill : Balanced black (c.fill t) n ↔
    ∃ m, Balanced black t m ∧ BalancedCtx black c m n := by
  induction c generalizing t with
  | top => simp [TreeCtx.fill, BalancedCtx]
  | node d c p x u ih =>
    rw [TreeCtx.fill, ih]
    constructor
    · rintro ⟨k, hk, hc⟩
      obtain ⟨m, ht, hu, rfl⟩ := balanced_join.mp hk
      exact ⟨m, ht, hu, hc⟩
    · rintro ⟨m, ht, hu, hc⟩
      exact ⟨_, balanced_join.mpr ⟨m, ht, hu, rfl⟩, hc⟩

theorem NoRedRedCtx.mono (h : NoRedRedCtx black c b) (hb : b = true → b' = true) :
    NoRedRedCtx black c b' := by
  cases c with
  | top => trivial
  | node d c p x u => exact ⟨fun hx => (h.1 hx).imp hb id, h.2⟩

theorem RootBlack.tail (h : RootBlack black (.node d c p x u)) : RootBlack black c := by
  cases c with
  | top => trivial
  | node d' c q y v => exact h

theorem RootBlack.cons (h : RootBlack black c) (hx : black x = true) :
    RootBlack black (.node d c p x u) := by
  cases c with
  | top => exact hx
  | node d' c q y v => exact h

theorem isBlack_fill (c : TreeCtx α) (h : t.isBlack black = t'.isBlack black) :
    (c.fill t).isBlack black = (c.fill t').isBlack black := by
  induction c generalizing t t' with
  | top => exact h
  | node d c q y v ih => exact ih (by rw [isBlack_join, isBlack_join])

theorem rootBlack_iff : RootBlack black (.node d c p x u) ↔
    (c.fill (.join d p x t u)).isBlack black = true := by
  induction c generalizing d p x t u with
  | top => rw [RootBlack, TreeCtx.fill, isBlack_join]
  | node d' c q y v ih => exact ih

theorem noRedRed_replace (hxy : black y = black x) (h : NoRedRed black (c.fill (.node p l x r))) :
    NoRedRed black (c.fill (.node p l y r)) := by
  obtain ⟨⟨hx, hl, hr⟩, hc⟩ := noRedRed_fill.mp h
  rw [PTree.isBlack, ← hxy] at hc
  exact noRedRed_fill.mpr ⟨⟨fun hy => hx (hxy ▸ hy), hl, hr⟩, hc⟩

theorem balanced_replace (hxy : black y = black x) (h : Balanced black (c.fill (.node p l x r)) n) :
    Balanced black (c.fill (.node p l y r)) n := by
  obtain ⟨_, ⟨m, hl, hr, rfl⟩, hc⟩ := balanced_fill.mp h
  rw [← hxy] at hc
  exact balanced_fill.mpr ⟨_, ⟨m, hl, hr, rfl⟩, hc⟩

theorem Balanced.pow_le (h : Balanced black t n) : 2 ^ n ≤ t.toList.length + 1 := by
  induction t generalizing n with
  | nil =>
    rw [Balanced] at h
    rw [h]
    exact Nat.le_refl _
  | node p l x r ihl ihr =>
    obtain ⟨m, hl, hr, rfl⟩ := h
    have hl := ihl hl
    have hr := ihr hr
    rw [PTree.toList, List.length_append, List.length_cons]
    cases black x with
    | false =>
      rw [Bool.toNat_false, Nat.add_zero]
      omega
    | true =>
      rw [Bool.toNat_true, Nat.pow_succ]
      omega

/-- A path is at most twice as long as there are black records on it, and one more below a red
root. -/
theorem NoRedRed.depth_le (hr : NoRedRed black t) (hb : Balanced black t n) :
    t.depth ≤ 2 * n + if t.isBlack black then 0 else 1 := by
  induction t generalizing n with
  | nil => exact Nat.zero_le _
  | node p l x r ihl ihr =>
    obtain ⟨hx, hrl, hrr⟩ := hr
    obtain ⟨m, hl, hr, rfl⟩ := hb
    have hl := ihl hrl hl
    have hr := ihr hrr hr
    rw [PTree.depth, PTree.isBlack]
    cases hc : black x with
    | false =>
      obtain ⟨hbl, hbr⟩ := hx hc
      rw [hbl, if_pos rfl] at hl
      rw [hbr, if_pos rfl] at hr
      simp only [Bool.toNat_false, Bool.false_eq_true, if_false]
      omega
    | true =>
      simp only [Bool.toNat_true, if_true]
      split at hl <;> split at hr <;> omega

end RedBlack

end CLib
