import Pkgtools.DevTabUpdate

namespace Pkgtools
open CLib
set_option autoImplicit true

/-- The value that `devattr` finds for an attribute. -/
def attrMap (l : List AttrVal) (name : Str) : Option Str :=
  (l.find? fun x => x.attr == name).map AttrVal.val

/-- The names that stand for a field of the record and not for an attribute of its list. -/
def isFieldName (name : Str) : Bool :=
  name == DTAB_CDEVICE || name == DTAB_BDEVICE || name == DTAB_PATHNAME

/-- The `attr=value` pairs of a request. -/
def pairsOf (attrval : List Str) : List AttrVal := attrval.filterMap splitPair

def requested (attrval : List Str) (name : Str) : Option Str := attrMap (pairsOf attrval) name

/-- The fields and the attribute map of `new` are those of `old` with the requested pairs. -/
structure Overrides (old new : DevData) (attrval : List Str) : Prop where
  aliasName : new.aliasName = old.aliasName
  cdevice : new.cdevice = (requested attrval DTAB_CDEVICE).or old.cdevice
  bdevice : new.bdevice = (requested attrval DTAB_BDEVICE).or old.bdevice
  pathname : new.pathname = (requested attrval DTAB_PATHNAME).or old.pathname
  attrs : ∀ name, attrMap new.attrlist name =
    (if isFieldName name then none else requested attrval name).or (attrMap old.attrlist name)

/-- `new` is `old` without the named fields and attributes. -/
structure Strips (old new : DevData) (attributes : List Str) : Prop where
  aliasName : new.aliasName = old.aliasName
  cdevice : new.cdevice = if DTAB_CDEVICE ∈ attributes then none else old.cdevice
  bdevice : new.bdevice = if DTAB_BDEVICE ∈ attributes then none else old.bdevice
  pathname : new.pathname = if DTAB_PATHNAME ∈ attributes then none else old.pathname
  attrlist : new.attrlist =
    old.attrlist.filter fun a => isFieldName a.attr || decide (a.attr ∉ attributes)

section Lookup

@[simp] theorem attrMap_nil (name : Str) : attrMap [] name = none := rfl

theorem attrMap_cons (a : AttrVal) (l : List AttrVal) (name : Str) :
    attrMap (a :: l) name = if a.attr = name then some a.val else attrMap l name := by
  by_cases h : a.attr = name
  · simp [attrMap, h]
  · have hb : (a.attr == name) = false := beq_eq_false_iff_ne.mpr h
    rw [attrMap, List.find?_cons, hb, if_neg h]
    rfl

theorem attrMap_eq_none : attrMap l name = none ↔ ∀ a ∈ l, a.attr ≠ name := by
  simp [attrMap]

theorem attrMap_filter (l : List AttrVal) (name : Str) :
    attrMap (l.filter fun a => !isFieldName a.attr) name =
      if isFieldName name then none else attrMap l name := by
  induction l with
  | nil => simp
  | cons a l ih =>
    rw [List.filter_cons, attrMap_cons]
    by_cases h : a.attr = name
    · subst h
      by_cases hf : isFieldName a.attr = true
      · simp [hf, ih]
      · simp [hf, attrMap_cons]
    · by_cases hf : isFieldName a.attr = true
      · simp [hf, ih, h]
      · simp [hf, ih, h, attrMap_cons]

theorem attrMap_setVal (a : AttrVal) (l : List AttrVal) (h : ∃ x ∈ l, x.attr = a.attr)
    (name : Str) :
    attrMap (setVal a l) name = if a.attr = name then some a.val else attrMap l name := by
  induction l with
  | nil =>
    obtain ⟨x, hx, -⟩ := h
    cases hx
  | cons x l ih =>
    rw [setVal]
    by_cases hx : x.attr = a.attr
    · rw [if_pos hx, attrMap_cons, attrMap_cons]
      simp only [hx]
      split <;> rfl
    · have hl : ∃ y ∈ l, y.attr = a.attr := by
        obtain ⟨y, hy, he⟩ := h
        rcases List.mem_cons.mp hy with rfl | hy
        · exact absurd he hx
        · exact ⟨y, hy, he⟩
      rw [if_neg hx, attrMap_cons, attrMap_cons, ih hl]
      by_cases hn : x.attr = name
      · have hne : a.attr ≠ name := fun he => hx (hn.trans he.symm)
        simp [hn, hne]
      · simp [hn]

theorem attrMap_setAttr (l : List AttrVal) (a : AttrVal) (name : Str) :
    attrMap (setAttr l a) name = if a.attr = name then some a.val else attrMap l name := by
  rw [setAttr]
  split
  · rename_i h
    rw [List.any_eq_true] at h
    obtain ⟨x, hx, he⟩ := h
    exact attrMap_setVal a l ⟨x, hx, beq_iff_eq.mp he⟩ name
  · exact attrMap_cons a l name

theorem attrMap_foldl (chg l : List AttrVal) (hn : (chg.map AttrVal.attr).Nodup) (name : Str) :
    attrMap (chg.foldl setAttr l) name = (attrMap chg name).or (attrMap l name) := by
  induction chg generalizing l with
  | nil => rfl
  | cons a chg ih =>
    rw [List.map_cons, List.nodup_cons] at hn
    rw [List.foldl_cons, ih (setAttr l a) hn.2, attrMap_setAttr, attrMap_cons]
    by_cases h : a.attr = name
    · have hnone : attrMap chg name = none := by
        rw [attrMap_eq_none]
        rintro x hx rfl
        exact hn.1 (h ▸ List.mem_map_of_mem hx)
      simp [h, hnone]
    · simp [h]

end Lookup

section Request

/-- What `mkdevtabent` builds from a request that it accepts. -/
structure Built (ent chg : DevData) (pp : List Str) : Prop where
  aliasName : chg.aliasName = ent.aliasName
  cdevice : chg.cdevice = ent.cdevice.or (requested pp DTAB_CDEVICE)
  bdevice : chg.bdevice = ent.bdevice.or (requested pp DTAB_BDEVICE)
  pathname : chg.pathname = ent.pathname.or (requested pp DTAB_PATHNAME)
  attrlist : chg.attrlist = ent.attrlist ++ (pairsOf pp).filter fun a => !isFieldName a.attr
  nodup : (ent.attrlist.map AttrVal.attr).Nodup → (chg.attrlist.map AttrVal.attr).Nodup

theorem newPath_some (h : newPath old val = some f) : old = none ∧ f = some val := by
  rw [newPath] at h
  split at h
  · rename_i hp
    cases h
    exact ⟨hp.1, rfl⟩
  · cases h

theorem requested_cons_none (h : splitPair p = none) (pp : List Str) (name : Str) :
    requested (p :: pp) name = requested pp name := by
  rw [requested, pairsOf, List.filterMap_cons, h]
  rfl

theorem requested_cons_some (h : splitPair p = some a) (pp : List Str) (name : Str) :
    requested (p :: pp) name = if a.attr = name then some a.val else requested pp name := by
  rw [requested, pairsOf, List.filterMap_cons, h]
  exact attrMap_cons a _ name

theorem mkdevtabentLoop_some (h : mkdevtabentLoop ent pp = some chg) : Built ent chg pp := by
  induction pp generalizing ent with
  | nil =>
    cases h
    refine ⟨rfl, ?_, ?_, ?_, ?_, id⟩
    · exact (Option.or_none ..).symm
    · exact (Option.or_none ..).symm
    · exact (Option.or_none ..).symm
    · exact (List.append_nil _).symm
  | cons p pp ih =>
    rw [mkdevtabentLoop] at h
    cases hadd : addPair ent p with
    | none =>
      rw [hadd] at h
      cases h
    | some ent' =>
      rw [hadd] at h
      have hb := ih h
      rw [addPair] at hadd
      cases hsp : splitPair p with
      | none =>
        rw [hsp] at hadd
        cases hadd
        refine ⟨hb.aliasName, ?_, ?_, ?_, ?_, hb.nodup⟩
        · rw [requested_cons_none hsp, hb.cdevice]
        · rw [requested_cons_none hsp, hb.bdevice]
        · rw [requested_cons_none hsp, hb.pathname]
        · rw [pairsOf, List.filterMap_cons, hsp, hb.attrlist]
          rfl
      | some a =>
        simp only [hsp] at hadd
        have hreq (name : Str) := requested_cons_some hsp pp name
        have hpairs : pairsOf (p :: pp) = a :: pairsOf pp := by
          rw [pairsOf, List.filterMap_cons, hsp]
          rfl
        split_ifs at hadd with h₁ h₂ h₃ h₄ h₅
        · obtain ⟨f, hf, rfl⟩ := Option.map_eq_some_iff.mp hadd
          obtain ⟨hnone, rfl⟩ := newPath_some hf
          refine ⟨hb.aliasName, ?_, ?_, ?_, ?_, hb.nodup⟩
          · rw [hb.cdevice, hreq, if_pos h₂, hnone]
            rfl
          · rw [hb.bdevice, hreq, if_neg (by rw [h₂]; decide)]
          · rw [hb.pathname, hreq, if_neg (by rw [h₂]; decide)]
          · rw [hb.attrlist, hpairs, List.filter_cons, if_neg (by rw [h₂]; decide)]
        · obtain ⟨f, hf, rfl⟩ := Option.map_eq_some_iff.mp hadd
          obtain ⟨hnone, rfl⟩ := newPath_some hf
          refine ⟨hb.aliasName, ?_, ?_, ?_, ?_, hb.nodup⟩
          · rw [hb.cdevice, hreq, if_neg h₂]
          · rw [hb.bdevice, hreq, if_pos h₃, hnone]
            rfl
          · rw [hb.pathname, hreq, if_neg (by rw [h₃]; decide)]
          · rw [hb.attrlist, hpairs, List.filter_cons, if_neg (by rw [h₃]; decide)]
        · obtain ⟨f, hf, rfl⟩ := Option.map_eq_some_iff.mp hadd
          obtain ⟨hnone, rfl⟩ := newPath_some hf
          refine ⟨hb.aliasName, ?_, ?_, ?_, ?_, hb.nodup⟩
          · rw [hb.cdevice, hreq, if_neg h₂]
          · rw [hb.bdevice, hreq, if_neg h₃]
          · rw [hb.pathname, hreq, if_pos h₄, hnone]
            rfl
          · rw [hb.attrlist, hpairs, List.filter_cons, if_neg (by rw [h₄]; decide)]
        · cases hadd
          have hnot : isFieldName a.attr = false := by
            simp [isFieldName, h₂, h₃, h₄]
          refine ⟨hb.aliasName, ?_, ?_, ?_, ?_, ?_⟩
          · rw [hb.cdevice, hreq, if_neg h₂]
          · rw [hb.bdevice, hreq, if_neg h₃]
          · rw [hb.pathname, hreq, if_neg h₄]
          · rw [hb.attrlist, hpairs, List.filter_cons, if_pos (by simp [hnot]), List.append_assoc]
            rfl
          · intro hn
            apply hb.nodup
            rw [List.map_append]
            refine List.nodup_append.mpr ⟨hn, by simp, ?_⟩
            rintro x hx y hy rfl
            simp only [List.map_cons, List.map_nil, List.mem_singleton] at hy
            subst hy
            obtain ⟨z, hz, he⟩ := List.mem_map.mp hx
            apply h₅
            rw [List.any_eq_true]
            exact ⟨z, hz, beq_iff_eq.mpr he⟩

theorem mkdevtabent_built (h : mkdevtabent device attrval = some chg) :
    Built ⟨some device, none, none, none, []⟩ chg attrval := mkdevtabentLoop_some h

theorem applyChg_overrides (h : mkdevtabent device attrval = some chg) (ent : DevData) :
    Overrides ent (applyChg ent chg) attrval := by
  have hb := mkdevtabent_built h
  have hlist : chg.attrlist = (pairsOf attrval).filter fun a => !isFieldName a.attr := hb.attrlist
  refine ⟨rfl, ?_, ?_, ?_, ?_⟩
  · exact congrArg (Option.or · ent.cdevice) hb.cdevice
  · exact congrArg (Option.or · ent.bdevice) hb.bdevice
  · exact congrArg (Option.or · ent.pathname) hb.pathname
  · intro name
    have hchg : attrMap chg.attrlist name =
        if isFieldName name then none else requested attrval name := by
      rw [hlist, attrMap_filter]
      rfl
    rw [← hchg, applyChg]
    simp only
    split
    · rename_i hnil
      rw [hnil, attrMap_nil, Option.or_none]
    · exact attrMap_foldl _ _ (hb.nodup (by simp)) name

end Request

section Removal

def listed (l : List AttrVal) (name : Str) : Nat := l.countP fun x => x.attr == name

def plainNames (attributes : List Str) : List Str := attributes.filter fun n => !isFieldName n

theorem filter_eraseP_of {p q : α → Bool} (h : ∀ x, q x = true → p x = false) (l : List α) :
    (l.eraseP q).filter p = l.filter p := by
  induction l with
  | nil => rfl
  | cons x l ih =>
    rw [List.eraseP_cons]
    cases hq : q x with
    | true =>
      have hp := h x hq
      rw [cond_true, List.filter_cons_of_neg (by simp [hp])]
    | false =>
      rw [cond_false, List.filter_cons, List.filter_cons, ih]

theorem listed_eraseP (l : List AttrVal) (m name : Str) :
    listed (l.eraseP fun x => x.attr == m) name =
      listed l name - if m = name then 1 else 0 := by
  induction l with
  | nil => simp [listed]
  | cons x l ih =>
    rw [List.eraseP_cons]
    simp only [listed] at ih ⊢
    by_cases hm : x.attr = m
    · by_cases hn : m = name
      · simp [hm, hn]
      · simp [hm, hn]
    · rw [beq_eq_false_iff_ne.mpr hm, cond_false, List.countP_cons, List.countP_cons, ih]
      by_cases hn : x.attr = name
      · have hne : m ≠ name := fun he => hm (hn.trans he.symm)
        simp [hn, hne]
      · simp [hn]

/-- What the loop of `_rmdevtabattrs` leaves of the attribute list. -/
structure Erased (l l' : List AttrVal) (names : List Str) : Prop where
  kept : l'.filter (fun a => decide (a.attr ∉ names)) = l.filter fun a => decide (a.attr ∉ names)
  left : ∀ name, listed l' name = listed l name - names.count name

theorem Erased.cons {l l' : List AttrVal} {m : Str} {names : List Str}
    (h : Erased (l.eraseP fun x => x.attr == m) l' names) : Erased l l' (m :: names) := by
  constructor
  · have hsplit (l : List AttrVal) : l.filter (fun a => decide (a.attr ∉ m :: names)) =
        (l.filter fun a => decide (a.attr ∉ names)).filter fun a => decide (a.attr ≠ m) := by
      rw [List.filter_filter]
      apply List.filter_congr
      intro a _
      simp [not_or]
    rw [hsplit, hsplit, h.kept, ← hsplit, ← hsplit]
    apply filter_eraseP_of
    intro x hx
    simp [beq_iff_eq.mp hx]
  · intro name
    rw [h.left, listed_eraseP, List.count_cons]
    by_cases hm : m = name
    · simp only [hm, beq_self_eq_true, if_true]
      omega
    · simp [hm]

theorem rmAttrs_erased (d : DevData) (names : List Str) :
    Erased d.attrlist (rmAttrs d names).1.attrlist (plainNames names) := by
  induction names generalizing d with
  | nil => exact ⟨rfl, fun _ => rfl⟩
  | cons name names ih =>
    have hd := ih (rmAttr d name).1
    rw [plainNames, List.filter_cons]
    by_cases hf : isFieldName name = true
    · rw [if_neg (by simp [hf])]
      have hsame : (rmAttr d name).1.attrlist = d.attrlist := by
        simp only [isFieldName, Bool.or_eq_true, beq_iff_eq] at hf
        rcases hf with (rfl | rfl) | rfl <;> rfl
      rw [hsame] at hd
      exact hd
    · rw [if_pos (by simp [hf])]
      have herase : (rmAttr d name).1.attrlist = d.attrlist.eraseP fun x => x.attr == name := by
        simp only [isFieldName, Bool.or_eq_true, beq_iff_eq, not_or] at hf
        rw [rmAttr, if_neg hf.1.1, if_neg hf.1.2, if_neg hf.2]
      rw [herase] at hd
      exact hd.cons

theorem rmAttrs_subset (d : DevData) (names : List Str) :
    (rmAttrs d names).1.attrlist ⊆ d.attrlist := by
  induction names generalizing d with
  | nil => exact List.Subset.refl _
  | cons name names ih =>
    refine List.Subset.trans (ih (rmAttr d name).1) ?_
    rw [rmAttr]
    split_ifs
    · exact List.Subset.refl _
    · exact List.Subset.refl _
    · exact List.Subset.refl _
    · exact List.eraseP_subset

theorem rmAttr_fields (d : DevData) (name : Str) :
    (rmAttr d name).1.aliasName = d.aliasName ∧
      (rmAttr d name).1.cdevice = (if DTAB_CDEVICE = name then none else d.cdevice) ∧
      (rmAttr d name).1.bdevice = (if DTAB_BDEVICE = name then none else d.bdevice) ∧
      (rmAttr d name).1.pathname = if DTAB_PATHNAME = name then none else d.pathname := by
  have hcb : DTAB_CDEVICE ≠ DTAB_BDEVICE := by decide
  have hcp : DTAB_CDEVICE ≠ DTAB_PATHNAME := by decide
  have hbp : DTAB_BDEVICE ≠ DTAB_PATHNAME := by decide
  rw [rmAttr]
  by_cases hc : name = DTAB_CDEVICE
  · subst hc
    rw [if_pos rfl, if_pos rfl, if_neg hcb.symm, if_neg hcp.symm]
    exact ⟨rfl, rfl, rfl, rfl⟩
  · rw [if_neg hc, if_neg (Ne.symm hc)]
    by_cases hb : name = DTAB_BDEVICE
    · subst hb
      rw [if_pos rfl, if_pos rfl, if_neg hbp.symm]
      exact ⟨rfl, rfl, rfl, rfl⟩
    · rw [if_neg hb, if_neg (Ne.symm hb)]
      by_cases hp : name = DTAB_PATHNAME
      · subst hp
        rw [if_pos rfl, if_pos rfl]
        exact ⟨rfl, rfl, rfl, rfl⟩
      · rw [if_neg hp, if_neg (Ne.symm hp)]
        exact ⟨rfl, rfl, rfl, rfl⟩

theorem ite_mem_cons (x name : Str) (names : List Str) (f : Option Str) :
    (if x ∈ names then none else if x = name then none else f) =
      if x ∈ name :: names then none else f := by
  by_cases h : x ∈ names
  · rw [if_pos h, if_pos (List.mem_cons_of_mem _ h)]
  · rw [if_neg h]
    by_cases hx : x = name
    · rw [if_pos hx, if_pos (hx ▸ List.mem_cons_self ..)]
    · rw [if_neg hx, if_neg (fun hm => (List.mem_cons.mp hm).elim hx h)]

theorem rmAttrs_fields (d : DevData) (names : List Str) :
    (rmAttrs d names).1.aliasName = d.aliasName ∧
      (rmAttrs d names).1.cdevice = (if DTAB_CDEVICE ∈ names then none else d.cdevice) ∧
      (rmAttrs d names).1.bdevice = (if DTAB_BDEVICE ∈ names then none else d.bdevice) ∧
      (rmAttrs d names).1.pathname = if DTAB_PATHNAME ∈ names then none else d.pathname := by
  induction names generalizing d with
  | nil => exact ⟨rfl, rfl, rfl, rfl⟩
  | cons name names ih =>
    obtain ⟨h₀, h₁, h₂, h₃⟩ := ih (rmAttr d name).1
    obtain ⟨g₀, g₁, g₂, g₃⟩ := rmAttr_fields d name
    rw [g₀] at h₀
    rw [g₁, ite_mem_cons] at h₁
    rw [g₂, ite_mem_cons] at h₂
    rw [g₃, ite_mem_cons] at h₃
    exact ⟨h₀, h₁, h₂, h₃⟩

/-- The loop removes exactly the named attributes when none is left over. -/
theorem rmAttrs_strips (d : DevData) (names : List Str) :
    Strips d (rmAttrs d names).1 names ↔
      ∀ name ∈ plainNames names, listed d.attrlist name ≤ names.count name := by
  have he := rmAttrs_erased d names
  obtain ⟨h₀, h₁, h₂, h₃⟩ := rmAttrs_fields d names
  have hplain (n : Str) : n ∈ plainNames names ↔ n ∈ names ∧ isFieldName n = false := by
    simp [plainNames, List.mem_filter]
  have hfilter (l : List AttrVal) :
      l.filter (fun a => isFieldName a.attr || decide (a.attr ∉ names)) =
        l.filter fun a => decide (a.attr ∉ plainNames names) := by
    apply List.filter_congr
    intro a _
    rw [Bool.eq_iff_iff]
    simp only [Bool.or_eq_true, decide_eq_true_eq, hplain]
    cases isFieldName a.attr <;> simp
  have hcount (n : Str) (hn : isFieldName n = false) :
      (plainNames names).count n = names.count n := by
    rw [plainNames, List.count_filter]
    simp [hn]
  constructor
  · intro hs name hname
    have hnone : listed (rmAttrs d names).1.attrlist name = 0 := by
      rw [hs.attrlist, hfilter, listed, List.countP_eq_zero]
      intro a ha
      have := (List.mem_filter.mp ha).2
      rw [decide_eq_true_eq] at this
      intro hx
      exact this (beq_iff_eq.mp hx ▸ hname)
    rw [he.left, hcount name ((hplain name).mp hname).2] at hnone
    omega
  · intro hle
    refine ⟨h₀, h₁, h₂, h₃, ?_⟩
    rw [hfilter, ← he.kept, eq_comm, List.filter_eq_self]
    intro a ha
    rw [decide_eq_true_eq]
    intro hmem
    have hz := he.left a.attr
    rw [hcount a.attr ((hplain a.attr).mp hmem).2] at hz
    have hpos : 0 < listed (rmAttrs d names).1.attrlist a.attr := by
      rw [listed, List.countP_pos_iff]
      exact ⟨a, ha, beq_self_eq_true _⟩
    have := hle a.attr hmem
    omega

end Removal

end Pkgtools
