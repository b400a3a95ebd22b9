import Mathlib.Data.List.Zip
import Pkgtools.AdminLock

namespace Pkgtools
open CLib
set_option autoImplicit true

theorem sameNode_comm (n₁ n₂ : Str) : sameNode n₁ n₂ = sameNode n₂ n₁ := by
  simp only [sameNode, or_comm (a := hasSuffix n₁ = false), Bool.beq_comm (a := n₁),
    Bool.beq_comm (a := pkgstrGetToken '.' n₁ 0)]

theorem compareNodes_comm (s₁ s₂ : Str) : compareNodes s₁ s₂ = compareNodes s₂ s₁ := by
  rw [compareNodes, compareNodes, ← List.zip_swap (lockNodes s₁), List.all_map]
  exact List.all_congr rfl fun p => Bool.or_comm _ _

/-- An anchor: the first node of the first object that is in the second one, and the first place
where it is. -/
structure IsAnchor (nodes₁ nodes₂ : List Str) (i j : Nat) : Prop where
  pair : ∃ n₁ n₂, nodes₁[i]? = some n₁ ∧ nodes₂[j]? = some n₂ ∧ sameNode n₁ n₂
  first : ∀ (k : Nat) n₁ (l : Nat) n₂, nodes₁[k]? = some n₁ → nodes₂[l]? = some n₂ →
    sameNode n₁ n₂ → i ≤ k
  place : ∀ n₁ (l : Nat) n₂, nodes₁[i]? = some n₁ → nodes₂[l]? = some n₂ → sameNode n₁ n₂ → j ≤ l

theorem findAnchor_eq_some (h : findAnchor nodes₁ nodes₂ = some (i, j)) :
    IsAnchor nodes₁ nodes₂ i j := by
  rw [findAnchor, Option.bind_eq_some_iff] at h
  obtain ⟨i', hi, h⟩ := h
  rw [Option.bind_eq_some_iff] at h
  obtain ⟨n₁, hn₁, h⟩ := h
  obtain ⟨j', hj, h⟩ := Option.map_eq_some_iff.mp h
  obtain ⟨rfl, rfl⟩ := Prod.mk.inj h
  obtain ⟨hilt, -, hibefore⟩ := List.findIdx?_eq_some_iff_getElem.mp hi
  obtain ⟨hjlt, hsame, hjbefore⟩ := List.findIdx?_eq_some_iff_getElem.mp hj
  refine ⟨⟨n₁, nodes₂[j'], hn₁, List.getElem?_eq_getElem hjlt, hsame⟩, ?_, ?_⟩
  · intro k m l n hk hl hm
    by_contra hlt
    obtain ⟨hklt, hk⟩ := List.getElem?_eq_some_iff.mp hk
    refine hibefore k (by omega) (List.any_eq_true.mpr ⟨n, List.mem_of_getElem? hl, ?_⟩)
    rw [hk]
    exact hm
  · intro m l n hm hl hs
    rw [hn₁] at hm
    obtain rfl := Option.some.inj hm
    by_contra hlt
    obtain ⟨hllt, hl⟩ := List.getElem?_eq_some_iff.mp hl
    exact hjbefore l (by omega) (hl ▸ hs)

theorem findAnchor_eq_none_iff : findAnchor nodes₁ nodes₂ = none ↔
    ∀ n₁ ∈ nodes₁, ∀ n₂ ∈ nodes₂, sameNode n₁ n₂ = false := by
  constructor
  · intro h n₁ h₁ n₂ h₂
    by_contra hsame
    rw [Bool.not_eq_false] at hsame
    have hany : nodes₂.any (sameNode n₁) := List.any_eq_true.mpr ⟨n₂, h₂, hsame⟩
    cases hi : nodes₁.findIdx? fun n₁ => nodes₂.any (sameNode n₁) with
    | none => exact Bool.eq_false_iff.mp (List.findIdx?_eq_none_iff.mp hi n₁ h₁) hany
    | some i =>
      obtain ⟨hlt, hi', -⟩ := List.findIdx?_eq_some_iff_getElem.mp hi
      obtain ⟨n, hn, hs⟩ := List.any_eq_true.mp hi'
      rw [findAnchor, hi, Option.bind_some, List.getElem?_eq_getElem hlt, Option.bind_some,
        Option.map_eq_none_iff, List.findIdx?_eq_none_iff] at h
      exact Bool.eq_false_iff.mp (h n hn) hs
  · intro h
    have hnone : (nodes₁.findIdx? fun n₁ => nodes₂.any (sameNode n₁)) = none := by
      refine List.findIdx?_eq_none_iff.mpr fun n₁ h₁ => List.any_eq_false.mpr fun n₂ h₂ => ?_
      rw [h n₁ h₁ n₂ h₂]
      exact Bool.false_ne_true
    rw [findAnchor, hnone]
    rfl

theorem findAnchor_none_comm (h : findAnchor nodes₁ nodes₂ = none) :
    findAnchor nodes₂ nodes₁ = none :=
  findAnchor_eq_none_iff.mpr fun n₂ h₂ n₁ h₁ =>
    (sameNode_comm n₂ n₁).trans (findAnchor_eq_none_iff.mp h n₁ h₁ n₂ h₂)

/-- The two anchors are the same, or each object has its own first common node. -/
theorem IsAnchor.same_or_cross (h : IsAnchor nodes₁ nodes₂ i j)
    (h' : IsAnchor nodes₂ nodes₁ j' i') :
    i = i' ∧ j = j' ∨ i < i' ∧ j' < j := by
  obtain ⟨n₁, n₂, hn₁, hn₂, hs⟩ := h.pair
  obtain ⟨m₂, m₁, hm₂, hm₁, hs'⟩ := h'.pair
  rw [sameNode_comm] at hs'
  have hi : i ≤ i' := h.first i' m₁ j' m₂ hm₁ hm₂ hs'
  have hj : j' ≤ j := h'.first j n₂ i n₁ hn₂ hn₁ (sameNode_comm n₁ n₂ ▸ hs)
  by_cases hie : i = i'
  · subst hie
    have := h.place m₁ j' m₂ hm₁ hm₂ hs'
    omega
  · by_cases hje : j = j'
    · subst hje
      have := h'.place n₂ i n₁ hn₂ hn₁ (sameNode_comm n₁ n₂ ▸ hs)
      omega
    · omega

/-- The nodes of a lock object behind its `n`-th slash. -/
def nodesBehind (n : Nat) (s : Str) : List Str :=
  (((s.splitOn '/').drop n).filter (· ≠ [])).map (·.take 1023)

/-- The first node of `nodes₁` is in `nodes₂`, and `j` is the first place where it is. -/
structure FirstNodeAt (nodes₁ nodes₂ : List Str) (j : Nat) : Prop where
  found : ∃ n₁ n₂, nodes₁[0]? = some n₁ ∧ nodes₂[j]? = some n₂ ∧ sameNode n₁ n₂
  first : ∀ n₁ (k : Nat) n₂, nodes₁[0]? = some n₁ → nodes₂[k]? = some n₂ → sameNode n₁ n₂ → j ≤ k

/-- At some place both have a node, and neither of the two matches the other as a pattern. -/
def Clash (nodes₁ nodes₂ : List Str) : Prop :=
  ∃ (k : Nat) (n₁ n₂ : Str), nodes₁[k]? = some n₁ ∧ nodes₂[k]? = some n₂ ∧ fnmatch n₁ n₂ = false ∧
    fnmatch n₂ n₁ = false

/-- The first object lies in the second one behind a node that the two have in common too, and the
second one does not lie in the first. -/
def OneSided (a b : Str) : Prop :=
  ∃ j, FirstNodeAt (lockNodes a) (lockNodes b) j ∧
    (∃ k < j, ∃ n₁ ∈ lockNodes a, ∃ n₂, (lockNodes b)[k]? = some n₂ ∧ sameNode n₁ n₂) ∧
    ¬ Clash (lockNodes a) (nodesBehind j b) ∧
    ∀ i, FirstNodeAt (lockNodes b) (lockNodes a) i → Clash (lockNodes b) (nodesBehind i a)

theorem lockNodes_skipSlashes (n : Nat) (s : Str) :
    lockNodes (skipSlashes n s) = nodesBehind n s := by
  induction s generalizing n with
  | nil =>
    cases n with
    | zero => rfl
    | succ n => simp [skipSlashes, lockNodes, strtok, nodesBehind, List.splitOn]
  | cons c s ih =>
    cases n with
    | zero => rfl
    | succ n =>
      rw [skipSlashes, nodesBehind, List.splitOn, List.splitOnP_cons_eq_if_modifyHead]
      split
      · rename_i hc
        rw [ih, if_pos (beq_iff_eq.mpr hc), List.drop_succ_cons, nodesBehind, List.splitOn]
      · rename_i hc
        rw [ih, if_neg (mt beq_iff_eq.mp hc), nodesBehind, List.splitOn]
        cases s.splitOnP (· == '/') with
        | nil => rfl
        | cons t ts => rfl

theorem all_zip_iff {p : α → α → Bool} {l m : List α} :
    ((l.zip m).all fun x => p x.1 x.2) = true ↔
      ∀ (k : Nat) x y, l[k]? = some x → m[k]? = some y → p x y = true := by
  rw [List.all_eq_true]
  constructor
  · intro h k x y hx hy
    exact h (x, y) (List.mem_of_getElem? (List.getElem?_zip_eq_some.mpr ⟨hx, hy⟩))
  · rintro h ⟨x, y⟩ hmem
    obtain ⟨k, hk⟩ := List.mem_iff_getElem?.mp hmem
    obtain ⟨hx, hy⟩ := List.getElem?_zip_eq_some.mp hk
    exact h k x y hx hy

/-- The final comparison succeeds unless two nodes clash. -/
theorem compareNodes_iff (s₁ s₂ : Str) (n : Nat) :
    compareNodes s₁ (skipSlashes n s₂) = true ↔ ¬ Clash (lockNodes s₁) (nodesBehind n s₂) := by
  rw [compareNodes, lockNodes_skipSlashes,
    all_zip_iff (p := fun n₁ n₂ => fnmatch n₁ n₂ || fnmatch n₂ n₁), Clash]
  constructor
  · rintro h ⟨k, n₁, n₂, h₁, h₂, hno, hno'⟩
    have hor := h k n₁ n₂ h₁ h₂
    rw [hno, hno'] at hor
    cases hor
  · intro h k n₁ n₂ h₁ h₂
    by_contra hor
    rw [Bool.or_eq_true, not_or, Bool.not_eq_true, Bool.not_eq_true] at hor
    exact h ⟨k, n₁, n₂, h₁, h₂, hor.1, hor.2⟩

theorem findAnchor_first (h : FirstNodeAt nodes₁ nodes₂ j) :
    findAnchor nodes₁ nodes₂ = some (0, j) := by
  obtain ⟨n₁, n₂, h₁, h₂, hsame⟩ := h.found
  cases ha : findAnchor nodes₁ nodes₂ with
  | none =>
    rw [findAnchor_eq_none_iff.mp ha n₁ (List.mem_of_getElem? h₁) n₂ (List.mem_of_getElem? h₂)]
      at hsame
    cases hsame
  | some p =>
    obtain ⟨i, j'⟩ := p
    have hanchor := findAnchor_eq_some ha
    obtain rfl : i = 0 := Nat.le_zero.mp (hanchor.first 0 n₁ j n₂ h₁ h₂ hsame)
    obtain ⟨m₁, m₂, hm₁, hm₂, hsame'⟩ := hanchor.pair
    have hle : j' ≤ j := hanchor.place n₁ j n₂ h₁ h₂ hsame
    have hge : j ≤ j' := h.first m₁ j' m₂ hm₁ hm₂ hsame'
    rw [Nat.le_antisymm hle hge]

theorem IsAnchor.firstNodeAt (h : IsAnchor nodes₁ nodes₂ 0 j) : FirstNodeAt nodes₁ nodes₂ j :=
  ⟨h.pair, fun n₁ k n₂ h₁ h₂ hsame => h.place n₁ k n₂ h₁ h₂ hsame⟩

theorem lockMatch_anchor (h : findAnchor (lockNodes a) (lockNodes b) = some (i, j)) (hj : 0 < j) :
    lockMatch g a b = true ↔ i = 0 ∧ compareNodes a (skipSlashes j b) := by
  rw [lockMatch, h]
  dsimp only
  cases i with
  | zero => simp [skipSlashes]
  | succ i => simp [hj]

/-- Where each object has its own first common node, it matches if its first node is that one and
nothing clashes. -/
theorem lockMatch_crossed (h : findAnchor (lockNodes a) (lockNodes b) = some (i, j)) (hj : 0 < j) :
    lockMatch g a b = true ↔
      ∃ j, FirstNodeAt (lockNodes a) (lockNodes b) j ∧ ¬ Clash (lockNodes a) (nodesBehind j b) := by
  rw [lockMatch_anchor h hj, compareNodes_iff]
  constructor
  · rintro ⟨rfl, hclash⟩
    exact ⟨j, (findAnchor_eq_some h).firstNodeAt, hclash⟩
  · rintro ⟨j₀, hfirst, hclash⟩
    rw [findAnchor_first hfirst] at h
    cases h
    exact ⟨rfl, hclash⟩

theorem oneSided_crossed (ha : IsAnchor (lockNodes b) (lockNodes a) j' i')
    (h : findAnchor (lockNodes a) (lockNodes b) = some (i, j)) (hj : j' < j)
    (h' : findAnchor (lockNodes b) (lockNodes a) = some (j', i')) (hi : 0 < i') :
    OneSided a b ↔ lockMatch g a b = true ∧ lockMatch g' b a = false := by
  rw [lockMatch_crossed h (Nat.zero_lt_of_lt hj), Bool.eq_false_iff, Ne, lockMatch_crossed h' hi]
  constructor
  · rintro ⟨j₀, hfirst, -, hclash, hother⟩
    exact ⟨⟨j₀, hfirst, hclash⟩, fun ⟨i₀, hi₀, hno⟩ => hno (hother i₀ hi₀)⟩
  · rintro ⟨⟨j₀, hfirst, hclash⟩, hother⟩
    have hj₀ : j' < j₀ := by
      rw [findAnchor_first hfirst] at h
      cases h
      exact hj
    obtain ⟨n₂, n₁, h₂, h₁, hsame⟩ := ha.pair
    refine ⟨j₀, hfirst, ⟨j', hj₀, n₁, List.mem_of_getElem? h₁, n₂, h₂, ?_⟩, hclash,
      fun i₀ hi₀ => ?_⟩
    · rw [sameNode_comm]
      exact hsame
    · by_contra hno
      exact hother ⟨i₀, hi₀, hno⟩

theorem IsAnchor.not_oneSided (h : findAnchor (lockNodes a) (lockNodes b) = some (i, j))
    (h' : IsAnchor (lockNodes b) (lockNodes a) j i) : ¬ OneSided a b := by
  rintro ⟨j₀, hfirst, ⟨k, hk, n₁, hn₁, n₂, hn₂, hsame⟩, -⟩
  rw [findAnchor_first hfirst] at h
  cases h
  obtain ⟨l, hl⟩ := List.mem_iff_getElem?.mp hn₁
  have hle := h'.first k n₂ l n₁ hn₂ hl (sameNode_comm n₁ n₂ ▸ hsame)
  omega

theorem not_oneSided_of_none (h : findAnchor (lockNodes a) (lockNodes b) = none) :
    ¬ OneSided a b := by
  rintro ⟨j, hfirst, -⟩
  rw [findAnchor_first hfirst] at h
  cases h

theorem lockMatch_agree_iff (ha : lockNodes a ≠ []) (hb : lockNodes b ≠ []) :
    lockMatch g a b = lockMatch g' b a ↔ ¬ OneSided a b ∧ ¬ OneSided b a := by
  cases h : findAnchor (lockNodes a) (lockNodes b) with
  | none =>
    have h' := findAnchor_none_comm h
    refine iff_of_true ?_ ⟨not_oneSided_of_none h, not_oneSided_of_none h'⟩
    rw [lockMatch, lockMatch, h, h']
    dsimp only
    have hcast (n : Nat) : ((n : Int) == 1) = (n == 1) := by
      rw [Bool.eq_iff_iff, beq_iff_eq, beq_iff_eq]
      omega
    rw [if_neg ha, if_neg hb, if_neg ha, if_neg hb, hcast, hcast, Bool.or_comm (_ == 1),
      Bool.or_comm (!_)]
  | some p =>
    obtain ⟨i, j⟩ := p
    cases h' : findAnchor (lockNodes b) (lockNodes a) with
    | none =>
      rw [findAnchor_none_comm h'] at h
      cases h
    | some p =>
      obtain ⟨j', i'⟩ := p
      have hanchor := findAnchor_eq_some h
      have hanchor' := findAnchor_eq_some h'
      obtain ⟨rfl, rfl⟩ | ⟨hi, hj⟩ := hanchor.same_or_cross hanchor'
      · refine iff_of_true ?_ ⟨hanchor'.not_oneSided h, hanchor.not_oneSided h'⟩
        rw [lockMatch, lockMatch, h, h']
        dsimp only
        rw [compareNodes_comm]
        exact if_congr and_comm rfl rfl
      · have hab : OneSided a b ↔ lockMatch g a b = true ∧ lockMatch g' b a = false :=
          oneSided_crossed hanchor' h hj h' (by omega)
        have hba : OneSided b a ↔ lockMatch g' b a = true ∧ lockMatch g a b = false :=
          oneSided_crossed hanchor h' hi h (by omega)
        rw [hab, hba]
        cases lockMatch g a b <;> cases lockMatch g' b a <;> simp

/-- Without a node in the first object the uninitialised counter decides. -/
theorem lockMatch_no_node (h : lockNodes a = []) (n : Int) (b : Str) :
    lockMatch (fun _ _ => n) a b = !(n == 1) := by
  simp [lockMatch, h, findAnchor]

theorem lockMatch_no_node_ne (h : lockNodes a = []) (m : Bool) (b : Str) :
    ∃ n : Int, lockMatch (fun _ _ => n) a b ≠ m := by
  cases m with
  | false => exact ⟨0, by rw [lockMatch_no_node h]; decide⟩
  | true => exact ⟨1, by rw [lockMatch_no_node h]; decide⟩

/-- When matching does not depend on the order of the objects, whatever the uninitialised counters
hold. -/
theorem lockMatch_symm_iff (a b : Str) :
    (∀ g g', lockMatch g a b = lockMatch g' b a) ↔
      lockNodes a ≠ [] ∧ lockNodes b ≠ [] ∧ ¬ OneSided a b ∧ ¬ OneSided b a := by
  constructor
  · intro h
    have ha : lockNodes a ≠ [] := by
      intro ha
      obtain ⟨n, hn⟩ := lockMatch_no_node_ne ha (lockMatch (fun _ _ => 0) b a) b
      exact hn (h _ _)
    have hb : lockNodes b ≠ [] := by
      intro hb
      obtain ⟨n, hn⟩ := lockMatch_no_node_ne hb (lockMatch (fun _ _ => 0) a b) a
      exact hn (h _ _).symm
    exact ⟨ha, hb, (lockMatch_agree_iff ha hb).mp (h (fun _ _ => 0) fun _ _ => 0)⟩
  · rintro ⟨ha, hb, hag⟩ g g'
    exact (lockMatch_agree_iff ha hb).mpr hag

/-- The node `a` is found first in one order, and the node `b` in the other. -/
theorem lockMatch_not_symm :
    ¬ ∀ a b : Str, a ≠ [] → b ≠ [] → ∀ g g', lockMatch g a b = lockMatch g' b a := by
  intro h
  have hsymm := h "a/b/c".toList "b/a".toList (by decide) (by decide) (fun _ _ => 0) fun _ _ => 0
  exact absurd hsymm (by decide +kernel)

end Pkgtools
