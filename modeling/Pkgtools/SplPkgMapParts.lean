import Pkgtools.SplPkgMapRuns

namespace Pkgtools
open CLib
set_option autoImplicit true

section Virtual
variable {v before : Int} {cl : List ClassType} {f : List PartData} {d : PartData}

def virtualFor : (before : Int) → List ClassType → PartData → PartData
  | _, [], d => d
  | before, c :: cl, d =>
    virtualFor (c.lastFor before) cl
      (if d.ept.volno = 0 ∧ d.ept.pkgClass = c.name then
        d.setVol (if strchr "sl".toList d.ept.ftype then c.lastFor before else c.firstFor before)
      else d)

theorem ClassOn.firstFor (h : ClassOn v c) (hb : 1 ≤ before ∧ before ≤ v) :
    1 ≤ c.firstFor before ∧ c.firstFor before ≤ v := by
  rw [ClassOn] at h
  rw [ClassType.firstFor]
  split <;> omega

theorem ClassOn.lastFor (h : ClassOn v c) (hb : 1 ≤ before ∧ before ≤ v) :
    1 ≤ c.lastFor before ∧ c.lastFor before ≤ v := by
  rw [ClassOn] at h
  rw [ClassType.lastFor]
  split <;> omega

theorem placeVirtual_eq (before : Int) (cl : List ClassType) (f : List PartData) :
    placeVirtual before cl f = f.map (virtualFor before cl) := by
  induction cl generalizing before f with
  | nil => exact (List.map_id f).symm
  | cons c cl ih =>
    rw [placeVirtual]
    rw [ih, List.map_map]
    rfl

theorem virtualFor_assigned (h : d.ept.volno ≠ 0) (before : Int) (cl : List ClassType) :
    virtualFor before cl d = d := by
  induction cl generalizing before with
  | nil => rfl
  | cons c cl ih =>
    rw [virtualFor]
    rw [if_neg fun hc => h hc.1]
    exact ih _

theorem virtualFor_placed (hd : d.ept.volno = 0) (hb : 1 ≤ before ∧ before ≤ v)
    (hcl : ∀ c ∈ cl, ClassOn v c) (hname : ∃ c ∈ cl, c.name = d.ept.pkgClass) :
    ∃ p, virtualFor before cl d = d.setVol p ∧ 1 ≤ p ∧ p ≤ v := by
  induction cl generalizing before with
  | nil =>
    obtain ⟨c, hc, -⟩ := hname
    cases hc
  | cons c cl ih =>
    obtain ⟨hc, hrest⟩ := List.forall_mem_cons.mp hcl
    have hlast := hc.lastFor hb
    rw [virtualFor]
    by_cases hc' : d.ept.pkgClass = c.name
    · rw [if_pos ⟨hd, hc'⟩]
      have hpart : 1 ≤ (if strchr "sl".toList d.ept.ftype then c.lastFor before
            else c.firstFor before) ∧
          (if strchr "sl".toList d.ept.ftype then c.lastFor before else c.firstFor before) ≤ v := by
        split
        · exact hlast
        · exact hc.firstFor hb
      have hne : (if strchr "sl".toList d.ept.ftype then c.lastFor before
          else c.firstFor before) ≠ 0 := by omega
      exact ⟨_, virtualFor_assigned (d := d.setVol _) hne _ _, hpart⟩
    · rw [if_neg fun h => hc' h.2]
      apply ih hlast hrest
      obtain ⟨c', hmem, hname'⟩ := hname
      rcases List.mem_cons.mp hmem with rfl | hmem
      · exact absurd hname'.symm hc'
      · exact ⟨c', hmem, hname'⟩

theorem forced_map (g : PartData → PartData) (w : Int)
    (hg : ∀ d ∈ f, g d = d ∨ d.ept.volno ≠ w ∧ (g d).ept.volno ≠ w) :
    forced (f.map g) w = forced f w := by
  induction f with
  | nil => rfl
  | cons d f ih =>
    obtain ⟨hd, hf⟩ := List.forall_mem_cons.mp hg
    have ih := ih hf
    rw [forced] at ih ⊢
    rw [List.map_cons, forced]
    rcases hd with hd | ⟨h₁, h₂⟩
    · rw [hd, List.filter_cons, List.filter_cons, ih, forced]
    · rw [List.filter_cons_of_neg (by simpa using h₂),
        List.filter_cons_of_neg (by simpa using h₁), ih, forced]

end Virtual

/-- What holds of the objects when all of them have a part. -/
structure Assigned (a : SplArgs) (v : Int) (f : List PartData) : Prop where
  length : f.length = a.data.length
  kept : ∀ (i : Nat) (d : PartData), f[i]? = some d →
    d.ept.volno ≠ 0 ∧ ∃ e, a.data[i]? = some e ∧ Kept v e d

section Finish
variable {a : SplArgs} {s : Packing}

theorem virtualFor_kept (h : SplInv a s) {i : Nat} (hd : s.f[i]? = some d) :
    (virtualFor 1 s.cl d).ept.volno ≠ 0 ∧
      ∃ e, a.data[i]? = some e ∧ Kept s.volno e (virtualFor 1 s.cl d) := by
  obtain ⟨e, he, hk⟩ := h.objects i d hd
  have hv := h.volno
  by_cases h0 : d.ept.volno = 0
  · have hclass : d.ept.pkgClass = e.ept.pkgClass := by
      rw [hk.same]
      rfl
    obtain ⟨p, hp, hp₁, hp₂⟩ := virtualFor_placed h0 ⟨le_refl 1, hv.1⟩ h.cl
      (hclass ▸ h.names e (List.mem_of_getElem? he))
    rw [hp]
    refine ⟨show p ≠ 0 by omega, e, he, ?_⟩
    exact ⟨by rw [hk.same]; rfl, fun he0 => absurd ((hk.assigned he0).symm.trans h0) he0,
      fun _ => ⟨show 0 ≤ p by omega, hp₂⟩⟩
  · rw [virtualFor_assigned h0]
    exact ⟨h0, e, he, hk⟩

theorem SplInv.assigned (h : SplInv a s) : Assigned a s.volno (placeVirtual 1 s.cl s.f) where
  length := by
    rw [placeVirtual_eq, List.length_map]
    exact h.length
  kept i d hd := by
    rw [placeVirtual_eq, List.getElem?_map] at hd
    obtain ⟨d', hd', rfl⟩ := Option.map_eq_some_iff.mp hd
    exact virtualFor_kept h hd'

theorem SplInv.forced_virtual (h : SplInv a s) (hw : s.volno < w) :
    forced (placeVirtual 1 s.cl s.f) w = forced s.f w := by
  rw [placeVirtual_eq]
  apply forced_map
  intro d hd
  obtain ⟨i, hi⟩ := List.mem_iff_getElem?.mp hd
  by_cases h0 : d.ept.volno = 0
  · right
    obtain ⟨e, he, hk⟩ := h.objects i d hi
    obtain ⟨-, e', he', hk'⟩ := virtualFor_kept h hi
    cases he.symm.trans he'
    have hv := h.volno
    have he0 : e.ept.volno = 0 := by
      by_contra hne
      exact hne ((hk.assigned hne).symm.trans h0)
    have := hk'.placed he0
    omega
  · exact .inl (virtualFor_assigned h0 _ _)

end Finish

/-- The new part numbers, when the loop has come to part `i`: they are in the same order, without a
gap behind part `v`, and those from `i` on are the old ones. -/
structure Renumbers (v : Int) (f : List PartData) (i newVol : Int) (g : Int → Int) : Prop where
  above : v < newVol
  le : newVol ≤ i
  low : ∀ p, p ≤ v → g p = p
  high : ∀ p, i ≤ p → g p = p
  below : ∀ d ∈ f, d.ept.volno < i → g d.ept.volno < newVol
  behind : ∀ d ∈ f, v < d.ept.volno → v < g d.ept.volno
  mono : ∀ d ∈ f, ∀ e ∈ f, d.ept.volno < e.ept.volno → g d.ept.volno < g e.ept.volno
  onto : ∀ p, v < p → p < newVol → ∃ d ∈ f, v < d.ept.volno ∧ g d.ept.volno = p

section Renumber
variable {v i newVol : Int} {f : List PartData} {g : Int → Int}

theorem partsFrom_succ (f : List PartData) (i : Int) (n : Nat) :
    partsFrom f i (n + 1) =
      (if f.any (fun d => d.ept.volno == i) then 1 else 0) + partsFrom f (i + 1) n := by
  rw [partsFrom, List.range_succ_eq_map, List.countP_cons, List.countP_map, partsFrom, Nat.add_comm]
  congr 1
  · simp
  · congr 1
    funext k
    simp only [Function.comp_apply, Nat.succ_eq_add_one, Nat.cast_add, Nat.cast_one]
    congr 2
    funext d
    congr 1
    ring

theorem Renumbers.start (f : List PartData) (v : Int) : Renumbers v f (v + 1) (v + 1) id where
  above := by omega
  le := le_refl _
  low _ _ := rfl
  high _ _ := rfl
  below _ _ h := h
  behind _ _ h := h
  mono _ _ _ _ h := h
  onto p h₁ h₂ := by omega

theorem Renumbers.used (h : Renumbers v f i newVol g) (hd : d ∈ f) (hi : d.ept.volno = i) :
    Renumbers v f (i + 1) (newVol + 1) fun p => if p = i then newVol else g p := by
  have habove := h.above
  have hle := h.le
  refine ⟨by omega, by omega, ?_, ?_, ?_, ?_, ?_, ?_⟩
  · intro p hp
    rw [if_neg (by omega)]
    exact h.low p hp
  · intro p hp
    rw [if_neg (by omega)]
    exact h.high p (by omega)
  · intro e he hlt
    split
    · omega
    · have := h.below e he (by omega)
      omega
  · intro e he hlt
    split
    · exact habove
    · exact h.behind e he hlt
  · intro e he e' he' hlt
    by_cases h₁ : e.ept.volno = i
    · have hhigh := h.high e'.ept.volno (by omega)
      rw [if_pos h₁, if_neg (by omega)]
      omega
    · rw [if_neg h₁]
      by_cases h₂ : e'.ept.volno = i
      · rw [if_pos h₂]
        exact h.below e he (by omega)
      · rw [if_neg h₂]
        exact h.mono e he e' he' hlt
  · intro p hp hlt
    by_cases hp' : p = newVol
    · exact ⟨d, hd, by omega, by rw [if_pos hi, hp']⟩
    · obtain ⟨e, he, hv, hg⟩ := h.onto p hp (by omega)
      refine ⟨e, he, hv, ?_⟩
      by_cases hei : e.ept.volno = i
      · rw [if_pos hei]
        have := h.high e.ept.volno (by omega)
        omega
      · rw [if_neg hei]
        exact hg

theorem Renumbers.unused (h : Renumbers v f i newVol g) (hi : ∀ d ∈ f, d.ept.volno ≠ i) :
    Renumbers v f (i + 1) newVol g where
  above := h.above
  le := by have := h.le; omega
  low := h.low
  high p hp := h.high p (by omega)
  below d hd hlt := h.below d hd (by have := hi d hd; omega)
  behind := h.behind
  mono := h.mono
  onto := h.onto

theorem Renumbers.eq_iff (h : Renumbers v f i newVol g) (hd : d ∈ f) :
    g d.ept.volno = i ↔ d.ept.volno = i := by
  constructor
  · intro hg
    by_contra hne
    have hle := h.le
    by_cases hlt : d.ept.volno < i
    · have := h.below d hd hlt
      omega
    · have := h.high d.ept.volno (by omega)
      omega
  · intro hi
    rw [h.high _ (by omega), hi]

def withParts (g : Int → Int) (f : List PartData) : List PartData :=
  f.map fun d => d.setVol (g d.ept.volno)

theorem any_withParts (h : Renumbers v f i newVol g) :
    (withParts g f).any (fun d => d.ept.volno == i) = f.any fun d => d.ept.volno == i := by
  rw [Bool.eq_iff_iff, List.any_eq_true, List.any_eq_true]
  constructor
  · rintro ⟨d', hd', hi⟩
    obtain ⟨d, hd, rfl⟩ := List.mem_map.mp hd'
    have hi : g d.ept.volno = i := beq_iff_eq.mp hi
    exact ⟨d, hd, beq_iff_eq.mpr ((h.eq_iff hd).mp hi)⟩
  · rintro ⟨d, hd, hi⟩
    exact ⟨_, List.mem_map_of_mem hd, beq_iff_eq.mpr ((h.eq_iff hd).mpr (beq_iff_eq.mp hi))⟩

theorem map_withParts (h : Renumbers v f i newVol g) :
    (withParts g f).map (fun d => if d.ept.volno = i then d.setVol newVol else d) =
      withParts (fun p => if p = i then newVol else g p) f := by
  rw [withParts, withParts, List.map_map]
  apply List.map_congr_left
  intro d hd
  show (if g d.ept.volno = i then (d.setVol (g d.ept.volno)).setVol newVol
    else d.setVol (g d.ept.volno)) = d.setVol (if d.ept.volno = i then newVol else g d.ept.volno)
  by_cases hi : d.ept.volno = i
  · rw [if_pos ((h.eq_iff hd).mpr hi), if_pos hi]
    rfl
  · rw [if_neg (mt (h.eq_iff hd).mp hi), if_neg hi]

/-- The loop gives every part with objects its new number. -/
theorem renumber_spec (h : Renumbers v f i newVol g) (hv : 0 ≤ v) (n : Nat)
    (hn : newVol + partsFrom f i n ≤ 32767) :
    ∃ g', renumber n i newVol (withParts g f) = (newVol + partsFrom f i n, withParts g' f) ∧
      Renumbers v f (i + n) (newVol + partsFrom f i n) g' := by
  induction n generalizing i newVol g with
  | zero =>
    refine ⟨g, ?_, ?_⟩
    · rw [renumber, partsFrom]
      simp
    · simpa [partsFrom] using h
  | succ n ih =>
    have habove := h.above
    rw [partsFrom_succ] at hn ⊢
    rw [renumber, any_withParts h, map_withParts h, show i + ((n + 1 : Nat) : Int) = i + 1 + n by
      push_cast; ring]
    by_cases hused : f.any (fun d => d.ept.volno == i) = true
    · obtain ⟨d, hd, hi⟩ := List.any_eq_true.mp hused
      rw [if_pos hused] at hn ⊢
      have hwrap : wrap 16 (newVol + 1) = newVol + 1 :=
        wrap_of_signed (by decide) (by omega) (by omega)
      rw [if_pos hused, hwrap]
      obtain ⟨g', hg', hr⟩ := ih (h.used hd (beq_iff_eq.mp hi)) (by omega)
      rw [show newVol + ((1 + partsFrom f (i + 1) n : Nat) : Int) =
        newVol + 1 + (partsFrom f (i + 1) n : Nat) by omega]
      exact ⟨g', hg', hr⟩
    · rw [if_neg hused, Nat.zero_add] at hn
      rw [if_neg hused, if_neg hused, Nat.zero_add]
      have hno : ∀ d ∈ f, d.ept.volno ≠ i := by
        intro d hd hi
        exact hused (List.any_eq_true.mpr ⟨d, hd, beq_iff_eq.mpr hi⟩)
      have hsame : withParts (fun p => if p = i then newVol else g p) f = withParts g f := by
        apply List.map_congr_left
        intro d hd
        exact congrArg d.setVol (if_neg (hno d hd))
      rw [hsame]
      exact ih (h.unused hno) hn

end Renumber

section Result
variable {a : SplArgs} {s : Packing}

theorem any_iff_forced (f : List PartData) (w : Int) :
    (f.any fun d => d.ept.volno == w) = true ↔ forced f w ≠ [] := by
  rw [List.any_eq_true, ne_eq, forced, List.filter_eq_nil_iff]
  push Not
  rfl

theorem SplInv.partsFrom_virtual (h : SplInv a s) (n : Nat) :
    partsFrom (placeVirtual 1 s.cl s.f) (s.volno + 1) n = partsFrom s.f (s.volno + 1) n := by
  rw [partsFrom, partsFrom]
  congr 1
  funext k
  rw [Bool.eq_iff_iff, any_iff_forced, any_iff_forced, h.forced_virtual (by omega)]

theorem splFinish_spec (h : SplInv a s) (hok : LastOpens a.env a.nparts s) :
    ∃ newVol i g r, splFinish a.env a.nparts s = .ok r ∧ r.nparts = newVol - 1 ∧
      r.f = withParts g (placeVirtual 1 s.cl s.f) ∧
      r.log = s.log ++ [(s.volno, s.btotal, s.ftotal)] ∧
      r.last = (s.volno + 1, a.env.bpkginfo + 2 + forcedBlocks a.env s.f (s.volno + 1),
        2 + forcedEntries s.f (s.volno + 1)) ∧
      Renumbers s.volno (placeVirtual 1 s.cl s.f) i newVol g ∧ a.nparts < i := by
  obtain ⟨hopens, -, -, hbound⟩ := hok
  have hvol := h.volno
  have hperm := h.sf_perm
  have hopen : newvolume a.env { s with f := placeVirtual 1 s.cl s.f } =
      .ok (Packing.opened { s with f := placeVirtual 1 s.cl s.f } a.env) := by
    apply newvolume_opened
    · show a.env.sf.Perm (List.range (placeVirtual 1 s.cl s.f).length)
      rw [h.assigned.length, ← h.length]
      exact hperm
    · exact hvol.1
    · show s.volno < 32767
      omega
    · show Opens a.env (placeVirtual 1 s.cl s.f) (s.volno + 1) (a.env.bpkginfo + 2)
      rw [Opens, forcedBlocks, h.forced_virtual (by omega)]
      exact hopens
  have hforced := h.forced_virtual (w := s.volno + 1) (by omega)
  have hlast : (s.volno + 1, a.env.bpkginfo + 2 + forcedBlocks a.env (placeVirtual 1 s.cl s.f)
        (s.volno + 1), 2 + forcedEntries (placeVirtual 1 s.cl s.f) (s.volno + 1)) =
      (s.volno + 1, a.env.bpkginfo + 2 + forcedBlocks a.env s.f (s.volno + 1),
        2 + forcedEntries s.f (s.volno + 1)) := by
    rw [forcedBlocks, forcedEntries, hforced, forcedBlocks, forcedEntries]
  have hstart : splFinish a.env a.nparts s =
      if s.volno + 1 - 1 < a.nparts then
        let r := renumber (a.nparts + 1 - (s.volno + 1)).toNat (s.volno + 1) (s.volno + 1)
          (placeVirtual 1 s.cl s.f)
        .ok ⟨r.1 - 1, r.2, max s.bmax s.btotal, max s.fmax s.ftotal,
          s.log ++ [(s.volno, s.btotal, s.ftotal)],
          (s.volno + 1, a.env.bpkginfo + 2 + forcedBlocks a.env (placeVirtual 1 s.cl s.f)
            (s.volno + 1), 2 + forcedEntries (placeVirtual 1 s.cl s.f) (s.volno + 1))⟩
      else .ok ⟨s.volno + 1 - 1, placeVirtual 1 s.cl s.f, max s.bmax s.btotal, max s.fmax s.ftotal,
          s.log ++ [(s.volno, s.btotal, s.ftotal)],
          (s.volno + 1, a.env.bpkginfo + 2 + forcedBlocks a.env (placeVirtual 1 s.cl s.f)
            (s.volno + 1), 2 + forcedEntries (placeVirtual 1 s.cl s.f) (s.volno + 1))⟩ := by
    rw [splFinish]
    dsimp only
    rw [if_pos (Nat.ne_of_gt h.started), hopen]
    rfl
  rw [hstart]
  have hid : withParts id (placeVirtual 1 s.cl s.f) = placeVirtual 1 s.cl s.f := List.map_id _
  by_cases hlt : s.volno + 1 - 1 < a.nparts
  · rw [if_pos hlt]
    obtain ⟨g, hg, hr⟩ := renumber_spec (Renumbers.start (placeVirtual 1 s.cl s.f) s.volno)
      (by omega) (a.nparts + 1 - (s.volno + 1)).toNat (by
        rw [h.partsFrom_virtual, show a.nparts + 1 - (s.volno + 1) = a.nparts - s.volno by omega]
        exact hbound)
    rw [hid] at hg
    rw [hg]
    exact ⟨_, _, g, _, rfl, rfl, rfl, rfl, hlast, hr, by omega⟩
  · rw [if_neg hlt]
    exact ⟨s.volno + 1, s.volno + 1, id, _, rfl, rfl, hid.symm, rfl, hlast, .start _ _, by omega⟩

/-- The package is split well: every object has a part, the parts that were assigned are in the same
order, and no part has more blocks or entries than the limits: as they are counted when a part is
filled, or for a part that is only renumbered, what its objects take with their directories. -/
structure Splits (a : SplArgs) (r : SplResult) : Prop where
  length : r.f.length = a.data.length
  same : ∀ (i : Nat) (d : PartData), r.f[i]? = some d →
    ∃ e, a.data[i]? = some e ∧ d = e.setVol d.ept.volno
  parts : ∀ d ∈ r.f, 1 ≤ d.ept.volno ∧ d.ept.volno ≤ r.nparts
  order : ∀ (i j : Nat) (d e d' e' : PartData), a.data[i]? = some d → a.data[j]? = some e →
    r.f[i]? = some d' → r.f[j]? = some e' → d.ept.volno ≠ 0 → e.ept.volno ≠ 0 →
      (d.ept.volno < e.ept.volno ↔ d'.ept.volno < e'.ept.volno)
  limits : ∀ p, 1 ≤ p → p ≤ r.nparts →
    (∃ b t, (p, b, t) ∈ r.log ∧ a.env.Within b t) ∨
      a.env.Within (partBlocks a.env r.f p) (partEntries r.f p) ∧
      ∃ q, a.partFits q = true ∧ (q = r.last.1 → a.env.Within r.last.2.1 r.last.2.2) ∧
        ∀ (i : Nat) (d d' : PartData), a.data[i]? = some d → r.f[i]? = some d' →
          (d'.ept.volno = p ↔ d.ept.volno = q)

theorem getElem?_withParts {i : Nat} (h : (withParts g f)[i]? = some d') :
    ∃ d, f[i]? = some d ∧ d' = d.setVol (g d.ept.volno) := by
  rw [withParts, List.getElem?_map] at h
  obtain ⟨d, hd, rfl⟩ := Option.map_eq_some_iff.mp h
  exact ⟨d, hd, rfl⟩

theorem Renumbers.lt_iff (h : Renumbers v f i newVol g) (hd : d ∈ f) (he : e ∈ f) :
    d.ept.volno < e.ept.volno ↔ g d.ept.volno < g e.ept.volno := by
  refine ⟨h.mono d hd e he, fun hlt => ?_⟩
  by_contra hle
  rcases Int.lt_or_eq_of_le (Int.not_lt.mp hle) with hlt' | heq
  · have := h.mono e he d hd hlt'
    omega
  · rw [heq] at hlt
    omega

theorem Renumbers.eq_iff_eq (h : Renumbers v f i newVol g) (hd : d ∈ f) (he : e ∈ f) :
    g d.ept.volno = g e.ept.volno ↔ d.ept.volno = e.ept.volno := by
  have h₁ := h.lt_iff hd he
  have h₂ := h.lt_iff he hd
  omega

theorem part_congr (env : SplEnv) (h : forced f p = (forced f' q).map (·.setVol p)) :
    partBlocks env f p = partBlocks env f' q ∧ partEntries f p = partEntries f' q := by
  have hdirs : partDirs f p = partDirs f' q := by
    rw [partDirs, h, List.foldl_map]
    rfl
  have hblks : (forced f p).map PartData.blks = (forced f' q).map PartData.blks := by
    rw [h, List.map_map]
    rfl
  have hlen : (forced f p).length = (forced f' q).length := by rw [h, List.length_map]
  constructor
  · rw [partBlocks, hblks, hdirs, partBlocks]
  · rw [partEntries, hlen, hdirs, partEntries]

theorem Renumbers.forced_eq (h : Renumbers v f i newVol g) (hd : d ∈ f) :
    forced (withParts g f) (g d.ept.volno) =
      (forced f d.ept.volno).map (·.setVol (g d.ept.volno)) := by
  have hpart : ∀ e ∈ f, (e.setVol (g e.ept.volno)).ept.volno = g d.ept.volno ↔
      e.ept.volno = d.ept.volno := fun e he => h.eq_iff_eq he hd
  rw [forced, withParts, List.filter_map, forced]
  have hfilter : f.filter ((fun e => e.ept.volno == g d.ept.volno) ∘
      fun e => e.setVol (g e.ept.volno)) = f.filter fun e => e.ept.volno == d.ept.volno := by
    apply List.filter_congr
    intro e he
    rw [Function.comp_apply, Bool.eq_iff_iff, beq_iff_eq, beq_iff_eq]
    exact hpart e he
  rw [hfilter]
  apply List.map_congr_left
  intro e he
  rw [beq_iff_eq.mp (List.mem_filter.mp he).2]

/-- A part that is only renumbered takes what its objects took when all was placed. -/
theorem SplInv.within_renumbered (h : SplInv a s) (hok : LastOpens a.env a.nparts s)
    (hr : Renumbers s.volno (placeVirtual 1 s.cl s.f) i newVol g)
    (hd : d ∈ placeVirtual 1 s.cl s.f) (hv : s.volno < d.ept.volno) :
    a.env.Within (partBlocks a.env (withParts g (placeVirtual 1 s.cl s.f)) (g d.ept.volno))
      (partEntries (withParts g (placeVirtual 1 s.cl s.f)) (g d.ept.volno)) := by
  have hforced := h.forced_virtual hv
  have heq := hr.forced_eq hd
  rw [hforced] at heq
  obtain ⟨hblocks, hentries⟩ := part_congr a.env heq
  have hmem : d ∈ forced s.f d.ept.volno := by
    rw [← hforced]
    exact List.mem_filter.mpr ⟨hd, beq_self_eq_true _⟩
  rw [hblocks, hentries]
  exact hok.behind d (List.mem_filter.mp hmem).1 hv

/-- The volume that is opened last is within the limits when objects were assigned to it. -/
theorem SplInv.within_last (h : SplInv a s) (hok : LastOpens a.env a.nparts s)
    (hd : d ∈ placeVirtual 1 s.cl s.f) (hv : d.ept.volno = s.volno + 1) :
    a.env.Within (a.env.bpkginfo + 2 + forcedBlocks a.env s.f (s.volno + 1))
      (2 + forcedEntries s.f (s.volno + 1)) := by
  refine ⟨?_, hok.entries⟩
  have hmem : d ∈ forced s.f (s.volno + 1) := by
    rw [← h.forced_virtual (by omega)]
    exact List.mem_filter.mpr ⟨hd, beq_iff_eq.mpr hv⟩
  rcases hok.opens with hnil | ⟨-, hle⟩
  · rw [hnil] at hmem
    cases hmem
  · exact hle

theorem Kept.volno_eq_iff (h : Kept v e d) (hv : v < q) :
    d.ept.volno = q ↔ e.ept.volno = q := by
  by_cases h0 : e.ept.volno = 0
  · have := h.placed h0
    omega
  · rw [h.assigned h0]

theorem SplInv.kept_withParts {j : Nat} (h : SplInv a s)
    (hj : (withParts g (placeVirtual 1 s.cl s.f))[j]? = some d') :
    ∃ d e, d ∈ placeVirtual 1 s.cl s.f ∧ a.data[j]? = some e ∧ d' = d.setVol (g d.ept.volno) ∧
      d.ept.volno ≠ 0 ∧ Kept s.volno e d := by
  obtain ⟨d, hd, rfl⟩ := getElem?_withParts hj
  obtain ⟨hne, e, he, hk⟩ := h.assigned.kept j d hd
  exact ⟨d, e, List.mem_of_getElem? hd, he, rfl, hne, hk⟩

/-- The objects of a renumbered part are those that were assigned to one part. -/
theorem SplInv.renumbered_part {d' : PartData} {j : Nat} (h : SplInv a s)
    (hr : Renumbers s.volno (placeVirtual 1 s.cl s.f) i newVol g)
    (hd : d ∈ placeVirtual 1 s.cl s.f) (hv : s.volno < d.ept.volno) (hj : a.data[j]? = some e)
    (hj' : (withParts g (placeVirtual 1 s.cl s.f))[j]? = some d') :
    d'.ept.volno = g d.ept.volno ↔ e.ept.volno = d.ept.volno := by
  obtain ⟨d₁, e₁, hd₁, he₁, rfl, -, hkept⟩ := h.kept_withParts hj'
  cases hj.symm.trans he₁
  exact (hr.eq_iff_eq hd₁ hd).trans (hkept.volno_eq_iff hv)

theorem SplInv.renumbered_le (h : SplInv a s) (hd : d ∈ placeVirtual 1 s.cl s.f)
    (hv : s.volno < d.ept.volno) : d.ept.volno ≤ a.nparts := by
  obtain ⟨k, hk⟩ := List.mem_iff_getElem?.mp hd
  obtain ⟨-, e, he, hkept⟩ := h.assigned.kept k d hk
  rw [← (hkept.volno_eq_iff hv).mp rfl]
  exact volno_le_nparts (List.mem_of_getElem? he)

theorem splits_of_renumbers (h : SplInv a s) (hok : LastOpens a.env a.nparts s)
    (hpos : ∀ e ∈ a.data, 0 ≤ e.ept.volno)
    (hfits : ∀ q, 1 ≤ q → q ≤ a.nparts → a.partFits q = true)
    (hr : Renumbers s.volno (placeVirtual 1 s.cl s.f) i newVol g) (hi : a.nparts < i)
    (hn : r.nparts = newVol - 1) (hf : r.f = withParts g (placeVirtual 1 s.cl s.f))
    (hlog : r.log = s.log ++ [(s.volno, s.btotal, s.ftotal)])
    (hlast : r.last = (s.volno + 1, a.env.bpkginfo + 2 + forcedBlocks a.env s.f (s.volno + 1),
      2 + forcedEntries s.f (s.volno + 1))) : Splits a r := by
  have hvol := h.volno
  have habove := hr.above
  refine ⟨?_, ?_, ?_, ?_, ?_⟩
  · rw [hf, withParts, List.length_map]
    exact h.assigned.length
  · intro j d' hj
    rw [hf] at hj
    obtain ⟨d, e, hd, he, rfl, hne, hk⟩ := h.kept_withParts hj
    refine ⟨e, he, ?_⟩
    rw [hk.same]
    rfl
  · intro d' hd'
    obtain ⟨j, hj⟩ := List.mem_iff_getElem?.mp hd'
    rw [hf] at hj
    obtain ⟨d, e, hd, he, rfl, hne, hk⟩ := h.kept_withParts hj
    have he' := List.mem_of_getElem? he
    have hmax := volno_le_nparts he'
    have hmin := hpos e he'
    have hlow := hr.low d.ept.volno
    have hbehind := hr.behind d hd
    have hbelow := hr.below d hd
    show 1 ≤ g d.ept.volno ∧ g d.ept.volno ≤ r.nparts
    by_cases h0 : e.ept.volno = 0
    · have := hk.placed h0
      omega
    · have := hk.assigned h0
      omega
  · intro j k d e d' e' hj hk hj' hk' hd0 he0
    rw [hf] at hj' hk'
    obtain ⟨d₁, d₂, hd₁, hd₂, rfl, -, hkept₁⟩ := h.kept_withParts hj'
    obtain ⟨e₁, e₂, he₁, he₂, rfl, -, hkept₂⟩ := h.kept_withParts hk'
    cases hj.symm.trans hd₂
    cases hk.symm.trans he₂
    rw [← hkept₁.assigned hd0, ← hkept₂.assigned he0]
    exact hr.lt_iff hd₁ he₁
  · intro p hp hle
    by_cases hpv : p ≤ s.volno
    · left
      rw [hlog]
      rcases Int.lt_or_eq_of_le hpv with hlt | rfl
      · obtain ⟨b, t, hmem⟩ := h.log p hp hlt
        exact ⟨b, t, List.mem_append_left _ hmem, h.logged _ hmem⟩
      · exact ⟨_, _, List.mem_append_right _ (List.mem_singleton_self _), h.blocks, h.entries⟩
    · right
      obtain ⟨d, hd, hdv, rfl⟩ := hr.onto p (by omega) (by omega)
      rw [hf, hlast]
      exact ⟨h.within_renumbered hok hr hd hdv, d.ept.volno,
        hfits _ (by omega) (h.renumbered_le hd hdv), h.within_last hok hd,
        fun j d₂ d' hj hj' => h.renumbered_part hr hd hdv hj hj'⟩

end Result

section Start
variable {a : SplArgs}

def isInstall (d : PartData) : Bool := d.ept.ftype == 'i'

/-- The entries of the first part before anything is placed: the `pkgmap` file, the objects that are
assigned to the part, the install directory and the installation files. -/
def SplArgs.firstEntries (a : SplArgs) : Nat :=
  2 + forcedEntries a.data 1 + (if a.data.any isInstall then 1 else 0) +
    a.data.countP fun d => isInstall d && d.ept.volno == 0

theorem foldl_installStep (f : List PartData) (r : Installing) :
    r.btotal ≤ (f.foldl installStep r).btotal ∧
      (f.foldl installStep r).ftotal = r.ftotal +
        (if r.flag = false ∧ f.any isInstall = true then 1 else 0) +
        f.countP fun d => isInstall d && d.ept.volno == 0 := by
  induction f generalizing r with
  | nil => simp
  | cons d f ih =>
    rw [List.foldl_cons, List.any_cons, List.countP_cons]
    obtain ⟨hb, ht⟩ := ih (installStep r d)
    rw [ht]
    by_cases hi : d.ept.ftype = 'i'
    · have hins : isInstall d = true := beq_iff_eq.mpr hi
      rw [installStep, if_neg (not_not.mpr hi)] at hb ⊢
      rw [hins]
      cases hflag : r.flag <;> by_cases h0 : d.ept.volno = 0 <;> by_cases h1 : d.ept.volno = 1 <;>
        simp [hflag, h0, h1] at hb ⊢ <;> omega
    · have hins : isInstall d = false := beq_eq_false_iff_ne.mpr hi
      have hstep : installStep r d = r := by rw [installStep, if_pos hi]
      rw [hstep] at hb ⊢
      rw [hins]
      simp
      exact hb

theorem installFile_kept (d : PartData) : Kept 1 d (installFile d) := by
  rw [installFile]
  split
  · rename_i hi
    exact ⟨rfl, fun h => absurd hi.2 h, fun _ => ⟨Int.one_nonneg, le_refl 1⟩⟩
  · exact ⟨rfl, fun _ => rfl, fun h => by omega⟩

theorem classes_on (a : SplArgs) (v : Int) (hv : 0 ≤ v) : ∀ c ∈ a.classes, ClassOn v c := by
  have hfold : ∀ (es : List PartEnt) (cl : List ClassType), (∀ c ∈ cl, ClassOn v c) →
      ∀ c ∈ es.foldl (fun cl e => addclass e.pkgClass 0 cl) cl, ClassOn v c := by
    intro es
    induction es with
    | nil => exact fun cl h => h
    | cons e es ih =>
      intro cl h
      exact ih _ (addclass_on (le_refl 0) hv h _)
  exact hfold a.eptlist [] fun c hc => absurd hc List.not_mem_nil

theorem classes_names (a : SplArgs) (h : d ∈ a.data) :
    ∃ c ∈ a.classes, c.name = d.ept.pkgClass := by
  have hkeep : ∀ (es : List PartEnt) (cl : List ClassType) (name : Str),
      (∃ c ∈ cl, c.name = name) →
        ∃ c ∈ es.foldl (fun cl e => addclass e.pkgClass 0 cl) cl, c.name = name := by
    intro es
    induction es with
    | nil => exact fun cl name h => h
    | cons e es ih =>
      intro cl name h
      exact ih _ name (addclass_keeps h _ _)
  have hfold : ∀ (es : List PartEnt) (cl : List ClassType), ∀ e ∈ es,
      ∃ c ∈ es.foldl (fun cl e => addclass e.pkgClass 0 cl) cl, c.name = e.pkgClass := by
    intro es
    induction es with
    | nil => exact fun cl e he => absurd he List.not_mem_nil
    | cons b es ih =>
      intro cl e he
      rcases List.mem_cons.mp he with rfl | he
      · exact hkeep es _ _ (mem_addclass _ _ _)
      · exact ih _ e he
  obtain ⟨e, he, rfl⟩ := List.mem_map.mp h
  exact hfold a.eptlist [] e he

theorem newvolume_first (h : Opens a.env a.data 1 2) :
    newvolume a.env ⟨0, 0, 0, 0, 0, [], a.classes, a.data, []⟩ =
      .ok ⟨1, 2 + forcedBlocks a.env a.data 1, 1 + forcedEntries a.data 1, 0, 0, [], a.classes,
        a.data, []⟩ := by
  have hforce := force_sorted (t := 1) (sortsize_perm a.data) h
  have hwrap : wrap 16 (0 + 1) = 1 := by decide
  rw [newvolume]
  dsimp only
  rw [if_neg (not_not.mpr rfl), hwrap, hforce]
  rfl

/-- No check of `splpkgmap` fails. -/
def SplArgs.Checked (a : SplArgs) : Prop := ∀ q, splStart a = .error q → ¬ q.IsCheck

/-- If no check fails and the first volume can be opened, the loops over `store` begin with the
invariant. -/
theorem splStart_spec (hcheck : a.Checked)
    (hopen : Opens a.env a.data 1 2) (hent : a.pilimit = 0 ∨ a.firstEntries ≤ a.pilimit) :
    ∃ s, splStart a = .ok s ∧ SplInv a s ∧ a.Roomy ∧
      ∀ q, 1 ≤ q → q ≤ a.nparts → a.partFits q = true := by
  rw [SplArgs.Checked, splStart] at hcheck
  rw [splStart]
  rw [newvolume_first hopen] at hcheck ⊢
  by_cases hfree : (!a.isFree) = true
  · rw [if_pos hfree] at hcheck
    exact absurd trivial (hcheck _ rfl)
  rw [if_neg hfree] at hcheck ⊢
  by_cases hparts : (!(List.range a.nparts.toNat).all fun k => a.partFits (k + 1)) = true
  · rw [if_pos hparts] at hcheck
    exact absurd trivial (hcheck _ rfl)
  rw [if_neg hparts] at hcheck ⊢
  dsimp only [bind, Except.bind] at hcheck ⊢
  obtain ⟨hb, ht⟩ := foldl_installStep a.data ⟨false, false, 2 + forcedBlocks a.env a.data 1 +
    a.mapBlocks, 1 + forcedEntries a.data 1 + 1⟩
  generalize a.data.foldl installStep ⟨false, false, 2 + forcedBlocks a.env a.data 1 +
    a.mapBlocks, 1 + forcedEntries a.data 1 + 1⟩ = r at hb ht hcheck ⊢
  by_cases herr : r.errflg = true
  · rw [if_pos herr] at hcheck
    exact absurd trivial (hcheck _ rfl)
  rw [if_neg herr] at hcheck ⊢
  by_cases hspace : a.env.limit < r.btotal
  · rw [if_pos hspace] at hcheck
    exact absurd trivial (hcheck _ rfl)
  rw [if_neg hspace] at hcheck ⊢
  by_cases hbig : (a.data.map installFile).any (tooBig a.env []) = true
  · rw [if_pos hbig] at hcheck
    exact absurd trivial (hcheck _ rfl)
  rw [if_neg hbig]
  refine ⟨_, rfl, ⟨?_, ?_, ?_, ?_, ?_, ?_, ?_, ?_, ?_, ?_⟩, ?_, ?_⟩
  · exact List.length_map _
  · show (1 : Int) ≤ 1 ∧ (1 : Int) ≤ 127
    decide
  · show 0 < r.btotal
    dsimp only at hb
    omega
  · exact Nat.not_lt.mp hspace
  · show a.pilimit = 0 ∨ r.ftotal ≤ a.pilimit
    rw [SplArgs.firstEntries] at hent
    dsimp only at ht
    rw [ht]
    simp only [true_and]
    apply hent.imp id
    intro hle
    omega
  · intro l hl
    cases hl
  · intro p h₁ h₂
    change p < 1 at h₂
    omega
  · intro i d hd
    change (a.data.map installFile)[i]? = some d at hd
    rw [List.getElem?_map] at hd
    obtain ⟨e, he, rfl⟩ := Option.map_eq_some_iff.mp hd
    exact ⟨e, he, installFile_kept e⟩
  · exact classes_on a 1 (by decide)
  · intro d hd
    exact classes_names a hd
  · intro e he
    have hone : ¬ tooBig a.env [] (installFile e) = true := fun hbig' =>
      hbig (List.any_eq_true.mpr ⟨_, List.mem_map_of_mem he, hbig'⟩)
    have hk := installFile_kept e
    rw [tooBig, nodecount_nil, ← PartData.dirs, hk.dirs_eq, hk.blks_eq, decide_eq_true_eq] at hone
    exact Nat.not_lt.mp hone
  · intro q h₁ h₂
    have hall : (List.range a.nparts.toNat).all (fun k => a.partFits (k + 1)) = true := by
      simpa using hparts
    have hq := List.all_eq_true.mp hall (q - 1).toNat (List.mem_range.mpr (by omega))
    rwa [show (((q - 1).toNat : Nat) : Int) + 1 = q by omega] at hq

end Start

/-- The condition under which a package is split well: no part number is negative, the first part
can be opened and its entries are within the limit, and every step of the loops over `store` starts
in a state that meets its condition. -/
structure GoodRun (a : SplArgs) : Prop where
  parts : ∀ e ∈ a.data, 0 ≤ e.ept.volno
  first : Opens a.env a.data 1 2
  entries : a.pilimit = 0 ∨ a.firstEntries ≤ a.pilimit
  steps : ∀ s c, splStart a = .ok s → Passes (packStep a.env) (a.todo, s) c →
    StepOk a.env a.nparts c

/-- If no check of `splpkgmap` fails and every step of the run meets its condition, `splpkgmap`
terminates without quitting and splits the package well. -/
theorem splpkgmap_splits (a : SplArgs) (hcheck : a.Checked) (hrun : GoodRun a) :
    ∃ fuel r, splpkgmap fuel a = .ok r ∧ Splits a r := by
  obtain ⟨s, hs, hinv, hroom, hfits⟩ := splStart_spec hcheck hrun.first hrun.entries
  have hlimit : 0 < a.limit := Nat.lt_of_lt_of_le hinv.started hinv.blocks
  obtain ⟨fuel, ⟨todo, s'⟩, hfuel, hinv', hpass, hend⟩ :=
    exists_runSteps SplQuit.running (fun c : Packer => SplInv a c.2) (stepsLeft a)
      (fun c hc hinv => packStep_ok hlimit hroom c hinv (hrun.steps s c hs hc)) hinv
  have htodo : todo = [] := packStep_end hend
  subst htodo
  have hok : LastOpens a.env a.nparts s' := hrun.steps s _ hs hpass
  obtain ⟨newVol, i, g, r, hr, hn, hf, hlog, hlast, hren, hi⟩ := splFinish_spec hinv' hok
  refine ⟨fuel, r, ?_,
    splits_of_renumbers hinv' hok hrun.parts hfits hren hi hn hf hlog hlast⟩
  rw [splpkgmap, hs]
  show (runSteps (packStep a.env) .running fuel (a.todo, s) >>= _) = _
  rw [hfuel]
  exact hr

/-- An object of the class `none`. -/
def splObj (ftype : Char) (path : String) (volno : Int) (size : Nat) : PartEnt :=
  ⟨ftype, path.toList, "none".toList, volno, size⟩

def threeFiles : SplArgs where
  eptlist := [splObj 'i' "pkginfo" 0 100, splObj 'f' "a/b" 0 100000, splObj 'f' "a/c" 0 100000,
    splObj 'd' "a" 0 0, splObj 'f' "d/e/f" 5 20000]
  order := []
  bsize := 8192
  frsize := 1024
  plimit := 250
  pilimit := 100
  pllimit := 0
  mount := true

theorem splpkgmap_splits_three :
    ∃ fuel r, splpkgmap fuel threeFiles = .ok r ∧ Splits threeFiles r := by
  have hstart : ∃ s, splStart threeFiles = .ok s ∧
      everyState (packStep threeFiles.env)
        (fun c => decide (StepOk threeFiles.env threeFiles.nparts c)) 6 (threeFiles.todo, s) =
          true := by
    refine ⟨⟨1, 8, 4, 0, 0, [], threeFiles.classes, threeFiles.data.map installFile, []⟩, ?_, ?_⟩
    · decide +kernel
    · decide +kernel
  obtain ⟨s, hs, hevery⟩ := hstart
  apply splpkgmap_splits
  · intro q hq
    rw [hs] at hq
    cases hq
  · refine ⟨by decide, by decide +kernel, by decide +kernel, ?_⟩
    intro s' c hs' hc
    rw [hs] at hs'
    cases hs'
    have hok := everyState_passes hevery hc
    exact of_decide_eq_true hok

def oneFile : SplArgs := ⟨[splObj 'f' "a" 1 100], [], 8192, 1024, 250, 0, 0, true⟩

/-- With no limit for the entries, `newvolume` quits at the first object that has been assigned. -/
theorem splpkgmap_quits_unlimited :
    oneFile.Checked ∧ ¬ ∃ fuel r, splpkgmap fuel oneFile = .ok r ∧ Splits oneFile r := by
  have hstart : splStart oneFile = .error (.volfiles 1 3) := by decide +kernel
  constructor
  · intro q hq
    rw [hstart] at hq
    cases hq
    exact id
  · rintro ⟨fuel, r, hr, -⟩
    rw [splpkgmap, hstart] at hr
    cases hr

end Pkgtools
