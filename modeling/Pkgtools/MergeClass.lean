import Pkgtools.Delmap

namespace Pkgtools
open CLib
set_option autoImplicit true

/-- The class of a package for an entry: its own one, or else the class of the entry. -/
def effectiveClass (e : Cfent) (p : Pinfo) : Str := if p.aclass ≠ [] then p.aclass else e.pkgClass

def otherClasses (pkg : Str) (e : Cfent) : List (Str × Str) :=
  (e.pinfo.filter fun p => p.pkg ≠ pkg).map fun p => (p.pkg, effectiveClass e p)

/-- The type of the new entry, as `merg` sets it first. -/
def mergFtype (inst : Install) (el cf : Cfent) : Char :=
  if inst.dbst = instRdy ∧ el.ftype = '?' then cf.ftype else el.ftype

/-- The new entry is not allowed to be in conflict with other packages. -/
def conflicts (inst : Install) (el : Cfextra) (cf : Cfent) : Bool :=
  inst.nocnflct ∧ (el.mstat.shared || othersToo cf inst.pkginst) ∧ el.cfEnt.ftype ≠ 'e'

/-- How `merg` sees the change of the type. -/
def mergTypechg (inst : Install) (el : Cfextra) (cf : Cfent) : TypeChange :=
  (typechg { el.cfEnt with ftype := mergFtype inst el.cfEnt cf } cf el.mstat).1

/-- The classes of other packages do not depend on that of the new entry. -/
def KeepsClasses (inst : Install) (el : Cfextra) (cf : Cfent) : Prop :=
  (∀ p ∈ cf.pinfo, p.pkg ≠ inst.pkginst → p.aclass ≠ []) ∨ el.cfEnt.ftype = rmRdy ∨
  if conflicts inst el cf ∨ mergTypechg inst el cf = .ignored then
    strlcpy (clssiz + 1) el.cfEnt.pkgClass = cf.pkgClass
  else mergTypechg inst el cf = .replace ∨ cf.pkgClass ≠ "?".toList ∨ el.cfEnt.pkgClass = "?".toList

def others (pkg : Str) (ps : List Pinfo) : List (Str × Str) :=
  (ps.filter fun p => p.pkg ≠ pkg).map fun p => (p.pkg, p.aclass)

section Others
variable {e e' : Cfent} {pkg : Str} {ps qs : List Pinfo}

theorem otherClasses_eq (pkg : Str) (e : Cfent) : otherClasses pkg e =
    (others pkg e.pinfo).map fun q => (q.1, if q.2 ≠ [] then q.2 else e.pkgClass) := by
  rw [otherClasses, others, List.map_map]
  rfl

theorem mem_others : q ∈ others pkg ps ↔ ∃ p ∈ ps, p.pkg ≠ pkg ∧ (p.pkg, p.aclass) = q := by
  rw [others, List.mem_map]
  constructor
  · rintro ⟨p, hp, rfl⟩
    obtain ⟨hp, hne⟩ := List.mem_filter.mp hp
    exact ⟨p, hp, of_decide_eq_true hne, rfl⟩
  · rintro ⟨p, hp, hne, rfl⟩
    exact ⟨p, List.mem_filter.mpr ⟨hp, decide_eq_true hne⟩, rfl⟩

/-- No other package relies on the class of the entry. -/
def OwnClasses (pkg : Str) (e : Cfent) : Prop := ∀ p ∈ e.pinfo, p.pkg ≠ pkg → p.aclass ≠ []

theorem ownClasses_iff : OwnClasses pkg e ↔ ∀ q ∈ others pkg e.pinfo, q.2 ≠ [] := by
  constructor
  · intro h q hq
    obtain ⟨p, hp, hne, rfl⟩ := mem_others.mp hq
    exact h p hp hne
  · intro h p hp hne
    exact h (p.pkg, p.aclass) (mem_others.mpr ⟨p, hp, hne, rfl⟩)

/-- The classes of others are kept exactly if none of them relies on the class of the entry, or it
stays. -/
theorem otherClasses_iff (h : others pkg e'.pinfo = others pkg e.pinfo) :
    otherClasses pkg e' = otherClasses pkg e ↔ OwnClasses pkg e ∨ e'.pkgClass = e.pkgClass := by
  rw [otherClasses_eq, otherClasses_eq, h, List.map_inj_left, ownClasses_iff]
  constructor
  · intro hsame
    by_cases hown : ∀ q ∈ others pkg e.pinfo, q.2 ≠ []
    · exact .inl hown
    · right
      push Not at hown
      obtain ⟨q, hq, hnil⟩ := hown
      simpa [hnil] using hsame q hq
  · intro hor q hq
    rcases hor with hown | hclass
    · rw [if_pos (hown q hq), if_pos (hown q hq)]
    · rw [hclass]

theorem otherClasses_of_class (h : others pkg e'.pinfo = others pkg e.pinfo)
    (hclass : e'.pkgClass = e.pkgClass) : otherClasses pkg e' = otherClasses pkg e :=
  (otherClasses_iff h).mpr (.inr hclass)

theorem others_split (A B : List Pinfo) {p : Pinfo} (hp : p.pkg = pkg) :
    others pkg (A ++ p :: B) = others pkg (A ++ B) := by
  rw [others, others, List.filter_append, List.filter_cons_of_neg (by simpa using hp),
    List.filter_append]

theorem others_modify (ps : List Pinfo) (i : Nat) {f : Pinfo → Pinfo}
    (hf : ∀ p, (f p).pkg = p.pkg ∧ (f p).aclass = p.aclass) :
    others pkg (ps.modify i f) = others pkg ps := by
  induction ps generalizing i with
  | nil => rw [List.modify_nil]
  | cons p ps ih =>
    cases i with
    | zero =>
      rw [List.modify_zero_cons, others, others]
      by_cases hp : p.pkg = pkg
      · rw [List.filter_cons_of_neg (by simpa [(hf p).1] using hp),
          List.filter_cons_of_neg (by simpa using hp)]
      · rw [List.filter_cons_of_pos (by simpa [(hf p).1] using hp),
          List.filter_cons_of_pos (by simpa using hp), List.map_cons, List.map_cons, (hf p).1,
            (hf p).2]
    | succ i =>
      have htail := ih i
      rw [others, others] at htail
      rw [List.modify_succ_cons, others, others, List.filter_cons, List.filter_cons]
      split
      · rw [List.map_cons, List.map_cons, htail]
      · exact htail

/-- Taking a record of the package out of the list, or adding one, does not change the others. -/
theorem findPinfo_split (h : findPinfo pkg ps = some i) :
    ∃ (A : List Pinfo) (p : Pinfo) (B : List Pinfo), ps = A ++ p :: B ∧ A.length = i ∧
      p.pkg = pkg := by
  induction ps generalizing i with
  | nil => cases h
  | cons q ps ih =>
    rw [findPinfo] at h
    cases hf : findPinfo pkg ps with
    | some j =>
      rw [hf] at h
      obtain rfl := Option.some.inj h
      obtain ⟨A, p, B, rfl, rfl, hp⟩ := ih hf
      exact ⟨q :: A, p, B, rfl, rfl, hp⟩
    | none =>
      rw [hf] at h
      by_cases hq : q.pkg = pkg
      · rw [if_pos hq] at h
        obtain rfl := Option.some.inj h
        exact ⟨[], q, ps, rfl, rfl, hq⟩
      · rw [if_neg hq] at h
        cases h

theorem eptstat_others (hpkg : pkg.length ≤ pkgsiz) (e : Cfent) (c : Char) :
    others pkg (eptstat e pkg c).1.pinfo = others pkg e.pinfo := by
  have hme (p : Pinfo) : (markPinfo pkg c p).pkg = pkg := List.take_of_length_le hpkg
  rw [eptstat]
  split
  · rfl
  · split
    · rename_i i hf
      obtain ⟨A, p, B, hps, rfl, hp⟩ := findPinfo_split hf
      have herase : e.pinfo.eraseIdx A.length = A ++ B := by
        rw [hps, List.eraseIdx_append_of_length_le (Nat.le_refl _), Nat.sub_self,
          List.eraseIdx_cons_zero]
      dsimp only
      split
      · rw [herase, hps, others_split A B hp]
      · rw [herase, others_split (A ++ B) [] (hme _), List.append_nil, hps, others_split A B hp]
    · split
      · rfl
      · dsimp only
        rw [others_split _ [] (hme _), List.append_nil]

theorem eptstat_class (hcount : (∃ p ∈ e.pinfo, p.pkg = pkg) →
    wrap 16 (wrap 16 (e.npkgs - 1) + 1) ≠ 1) (c : Char) :
    (eptstat e pkg c).1.pkgClass = e.pkgClass := by
  rw [eptstat]
  split
  · rfl
  · split
    · rename_i i hf
      obtain ⟨A, p, B, hps, -, hp⟩ := findPinfo_split hf
      dsimp only
      split
      · rfl
      · exact if_neg fun h => hcount ⟨p, by rw [hps]; simp, hp⟩ h.1
    · split <;> rfl

theorem eptstat_pinfoAt (h : (eptstat e pkg c).2 = some i) (hpkg : pkg.length ≤ pkgsiz) :
    ∃ (A : List Pinfo) (p : Pinfo) (B : List Pinfo), (eptstat e pkg c).1.pinfo = A ++ p :: B ∧
      A.length = i ∧ p.pkg = pkg := by
  have hme (p : Pinfo) : (markPinfo pkg c p).pkg = pkg := List.take_of_length_le hpkg
  rw [eptstat] at h ⊢
  split
  · rename_i hc
    rw [if_pos hc] at h
    exact findPinfo_split h
  · rename_i hc
    rw [if_neg hc] at h
    split
    · rename_i j hf
      rw [hf] at h
      dsimp only at h ⊢
      split
      · rename_i hnext
        rw [if_pos hnext] at h
        cases h
      · rename_i hnext
        rw [if_neg hnext] at h
        exact ⟨_, _, [], rfl, Option.some.inj h, hme _⟩
    · rename_i hf
      rw [hf] at h
      dsimp only at h
      split
      · rename_i hnone
        rw [if_pos hnone] at h
        cases h
      · rename_i hnone
        rw [if_neg hnone] at h
        exact ⟨_, _, [], rfl, Option.some.inj h, hme _⟩

theorem modify_split (A B : List Pinfo) (p : Pinfo) (f : Pinfo → Pinfo) :
    (A ++ p :: B).modify A.length f = A ++ f p :: B := by
  induction A with
  | nil => rfl
  | cons a A ih => rw [List.cons_append, List.length_cons, List.modify_succ_cons, ih,
      List.cons_append]

theorem chgclass_otherClasses (hclass : e.pkgClass ≠ []) (pkg : Str) (i : Nat) :
    otherClasses pkg (chgclass e i) = otherClasses pkg e := by
  unfold chgclass
  dsimp only
  split
  · rw [otherClasses, otherClasses, List.filter_map, List.map_map]
    have hpkg (p : Pinfo) : ((fun p : Pinfo => decide (p.pkg ≠ pkg)) ∘ fun p =>
        if p.aclass = [] then { p with aclass := e.pkgClass }
        else if p.aclass = strlcpy (clssiz + 1) (e.pinfo.getD i ⟨nul, [], 0, []⟩).aclass then
          { p with aclass := [] } else p) p = decide (p.pkg ≠ pkg) := by
      dsimp only [Function.comp_apply]
      split
      · rfl
      · split <;> rfl
    rw [funext hpkg]
    apply List.map_congr_left
    intro p _
    simp only [Function.comp_apply, effectiveClass]
    by_cases hnil : p.aclass = []
    · rw [if_pos hnil, if_pos hclass, if_neg (not_not.mpr hnil)]
    · rw [if_neg hnil, if_pos hnil]
      split
      · rename_i heq
        rw [if_neg (not_not.mpr rfl), heq]
      · rfl
  · rfl

end Others

section Merge
variable {sys : System} {inst : Install} {el el' : Cfextra} {cf : Cfent} {pkg : Str}

def refs (el : Cfextra) : Str × Int × List Pinfo :=
  (el.cfEnt.pkgClass, el.cfEnt.npkgs, el.cfEnt.pinfo)

theorem setChange_refs (sys : System) (el : Cfextra) : refs (setChange sys el) = refs el :=
  setChange_induct (P := fun x => refs x = refs el) rfl rfl (fun _ _ _ h => h) (fun _ h => h)
    fun _ h => h

theorem mergSteps_ne_replace (fs : List (Cfextra → Bool × Cfextra)) (changed : Bool)
    (el : Cfextra) :
    (mergSteps changed el fs).1 ≠ .replace := by
  induction fs generalizing changed el with
  | nil =>
    rw [mergSteps]
    dsimp only
    split <;> decide
  | cons f fs ih => exact ih _ _

theorem mergAttrs_refs (sys : System) (cf : Cfent) (link : Prop) [Decidable link] :
    ∀ f ∈ (if link then [(mergLink · cf)]
      else [(mergContent sys · cf), (mergDevice · cf), (mergMode · cf), (mergOwner · cf),
        (mergGroup · cf)]), ∀ el, refs (f el).2 = refs el := by
  intro f hf el
  split at hf
  · rw [List.mem_singleton.mp hf]
    unfold mergLink
    dsimp only
    split
    · split
      · rfl
      · split <;> rfl
    · rfl
  · simp only [List.mem_cons, List.not_mem_nil, or_false] at hf
    rcases hf with rfl | rfl | rfl | rfl | rfl
    · unfold mergContent
      dsimp only
      split
      · rfl
      · split
        · split <;> rfl
        · rfl
    · unfold mergDevice
      dsimp only
      split <;> rfl
    · unfold mergMode
      dsimp only
      split
      · rfl
      · split
        · rfl
        · split <;> rfl
    · unfold mergOwner
      dsimp only
      split
      · rfl
      · split <;> rfl
    · unfold mergGroup
      dsimp only
      split
      · rfl
      · split <;> rfl

theorem mergClass_otherClasses {A B : List Pinfo} {p : Pinfo} (hel : el.cfEnt.pinfo = cf.pinfo)
    (hcf : cf.pinfo = A ++ p :: B) (hp : p.pkg = pkg) (hclass : cf.pkgClass ≠ []) :
    otherClasses pkg (mergClass el cf A.length).2.cfEnt = otherClasses pkg cf ↔
      OwnClasses pkg cf ∨ cf.pkgClass ≠ "?".toList ∨ el.cfEnt.pkgClass = "?".toList := by
  have hsame : others pkg el.cfEnt.pinfo = others pkg cf.pinfo := by rw [hel]
  unfold mergClass
  split
  · rename_i heq
    rw [otherClasses_iff hsame, heq]
    tauto
  · rename_i hne
    split
    · rename_i hq
      rw [otherClasses_iff hsame, hq]
      rw [hq] at hne
      tauto
    · rename_i hq
      refine iff_of_true ((chgclass_otherClasses (by exact hclass) _ _).trans
        (otherClasses_of_class ?_ rfl)) (.inr (.inl hq))
      rw [Cfent.modifyPinfo, hel, hcf]
      dsimp only
      rw [modify_split, others_split A B hp]
      exact others_split A B hp

/-- More than one package refers to the entry, if any other does. -/
def Shared (pkg : Str) (e : Cfent) : Prop :=
  others pkg e.pinfo ≠ [] → (∃ p ∈ e.pinfo, p.pkg = pkg) → wrap 16 (wrap 16 (e.npkgs - 1) + 1) ≠ 1

theorem eptstat_otherClasses (hpkg : pkg.length ≤ pkgsiz) (hs : Shared pkg e) (c : Char) :
    otherClasses pkg (eptstat e pkg c).1 = otherClasses pkg e := by
  by_cases h : others pkg e.pinfo = []
  · have hnil : others pkg (eptstat e pkg c).1.pinfo = [] := (eptstat_others hpkg e c).trans h
    rw [otherClasses_eq, otherClasses_eq, hnil, h]
    rfl
  · exact otherClasses_of_class (eptstat_others hpkg e c) (eptstat_class (hs h) c)

theorem likeStatus_others (hpkg : inst.pkginst.length ≤ pkgsiz)
    (hr : likeStatus sys inst ctrl ignore stflag i el = some (changed, el', i')) :
    others inst.pkginst el'.cfEnt.pinfo = others inst.pkginst el.cfEnt.pinfo ∧
      (Shared inst.pkginst el.cfEnt →
        otherClasses inst.pkginst el'.cfEnt = otherClasses inst.pkginst el.cfEnt) := by
  refine likeStatus_induct (P := fun x =>
    others inst.pkginst x.cfEnt.pinfo = others inst.pkginst el.cfEnt.pinfo ∧
      (Shared inst.pkginst el.cfEnt →
        otherClasses inst.pkginst x.cfEnt = otherClasses inst.pkginst el.cfEnt))
    ⟨rfl, fun _ => rfl⟩ ?_ ?_ hr
  · intro c i _ _
    exact ⟨eptstat_others hpkg _ _, fun hs => eptstat_otherClasses hpkg hs _⟩
  · intro x i hx
    have hmod : others inst.pkginst ((x.cfEnt.modifyPinfo i fun p =>
        { p with status := servedFile }).pinfo) = others inst.pkginst x.cfEnt.pinfo :=
      others_modify _ _ fun p => ⟨rfl, rfl⟩
    exact ⟨hmod.trans hx.1, fun hs => (otherClasses_of_class hmod rfl).trans (hx.2 hs)⟩

theorem outputEntry_otherClasses (e : Cfent) (i : Nat) (pkg : Str) :
    otherClasses pkg (outputEntry e i) = otherClasses pkg e :=
  otherClasses_of_class (others_modify _ _ fun _ => ⟨rfl, rfl⟩) rfl

theorem output_tmp (h : output v e i = some w) : w = (putcvfpfile (outputEntry e i) v).2 := by
  unfold output at h
  dsimp only at h
  split at h
  · cases h
  · exact (Option.some.inj h).symm

theorem refs_eq (h : refs el' = refs el) : el'.cfEnt.pkgClass = el.cfEnt.pkgClass ∧
    el'.cfEnt.npkgs = el.cfEnt.npkgs ∧ el'.cfEnt.pinfo = el.cfEnt.pinfo := by
  obtain ⟨hclass, hrest⟩ := Prod.mk.inj h
  exact ⟨hclass, Prod.mk.inj hrest⟩

theorem refs_otherClasses (h : refs el' = refs el) (pkg : Str) :
    otherClasses pkg el'.cfEnt = otherClasses pkg el.cfEnt := by
  obtain ⟨hclass, -, hpinfo⟩ := refs_eq h
  exact otherClasses_of_class (by rw [hpinfo]) hclass

theorem refs_shared (h : refs el' = refs el) (hs : Shared pkg el.cfEnt) : Shared pkg el'.cfEnt := by
  obtain ⟨-, hnpkgs, hpinfo⟩ := refs_eq h
  rw [Shared, hnpkgs, hpinfo]
  exact hs

theorem typechg_ftype {el el' cf cf' : Cfent} (hel : el'.ftype = el.ftype)
    (hcf : cf'.ftype = cf.ftype)
    (mstat mstat' : Mergstat) : (typechg el' cf' mstat').1 = (typechg el cf mstat).1 := by
  unfold typechg
  rw [hel, hcf]
  dsimp only
  split
  · rfl
  · split
    · rfl
    · split
      · rfl
      · split
        · rfl
        · split
          · rfl
          · split <;> rfl

theorem typechg_refs (el cf : Cfent) (mstat : Mergstat) :
    (typechg el cf mstat).2.1.pkgClass = cf.pkgClass ∧ (typechg el cf mstat).2.1.pinfo =
      cf.pinfo := by
  rcases typechg_cases el cf mstat with ⟨_, -, h⟩ | ⟨-, h⟩ | h | h
  · rw [h]
    exact ⟨rfl, rfl⟩
  · rw [h]
    exact ⟨rfl, rfl⟩
  · rw [h]
    exact ⟨rfl, rfl⟩
  · rw [h]
    exact ⟨rfl, rfl⟩

theorem mergClass_npkgs (el : Cfextra) (cf : Cfent) (i : Nat) :
    (mergClass el cf i).2.cfEnt.npkgs = el.cfEnt.npkgs := by
  have hchg (e : Cfent) : (chgclass e i).npkgs = e.npkgs := by
    unfold chgclass
    dsimp only
    split <;> rfl
  unfold mergClass
  split
  · rfl
  · split
    · rfl
    · exact hchg _

theorem cpCfent_refs (cf : Cfent) (el : Cfextra) :
    refs (cpCfent cf el) = (strlcpy (clssiz + 1) el.cfEnt.pkgClass, cf.npkgs, cf.pinfo) := by
  unfold cpCfent
  dsimp only
  split <;> rfl

/-- What `merg` leaves of the classes; the record of the package is behind `A`. -/
theorem merg_otherClasses {A B : List Pinfo} {p : Pinfo} (hcf : cf.pinfo = A ++ p :: B)
    (hp : p.pkg = pkg) (hclass : cf.pkgClass ≠ []) (hshared : Shared pkg cf)
    (hnpkgs : el.cfEnt.npkgs = 0) (sys : System) (inst : Install) :
    (mergTypechg inst el cf = .replace ∧ (merg sys inst el cf A.length).1 = .replace ∧
      (merg sys inst el cf A.length).2.cfEnt.pinfo = cf.pinfo) ∨
    (mergTypechg inst el cf ≠ .replace ∧ (merg sys inst el cf A.length).1 ≠ .replace ∧
      Shared pkg (merg sys inst el cf A.length).2.cfEnt ∧
      (otherClasses pkg (merg sys inst el cf A.length).2.cfEnt = otherClasses pkg cf ↔
        OwnClasses pkg cf ∨
        if mergTypechg inst el cf = .ignored then strlcpy (clssiz + 1) el.cfEnt.pkgClass =
          cf.pkgClass
        else cf.pkgClass ≠ "?".toList ∨ el.cfEnt.pkgClass = "?".toList)) := by
  unfold merg
  dsimp only
  generalize hstart : (if inst.dbst = instRdy ∧ el.cfEnt.ftype = '?' then
    ({ el with cfEnt := { el.cfEnt with pinfo := cf.pinfo, ftype := cf.ftype } } : Cfextra)
    else { el with cfEnt := { el.cfEnt with pinfo := cf.pinfo } }) = el₀
  have hftype : el₀.cfEnt.ftype = mergFtype inst el.cfEnt cf := by
    rw [← hstart, mergFtype]
    split <;> rfl
  have hrefs : refs el₀ = (el.cfEnt.pkgClass, el.cfEnt.npkgs, cf.pinfo) := by
    rw [← hstart]
    split <;> rfl
  have htype : (typechg el₀.cfEnt cf el₀.mstat).1 = mergTypechg inst el cf :=
    typechg_ftype hftype rfl _ _
  obtain ⟨hclass₀, hrest⟩ := Prod.mk.inj hrefs
  obtain ⟨hnpkgs₀, hpinfo₀⟩ := Prod.mk.inj hrest
  obtain ⟨hcfclass, hcfpinfo⟩ := typechg_refs el₀.cfEnt cf el₀.mstat
  generalize typechg el₀.cfEnt cf el₀.mstat = t at htype hcfclass hcfpinfo ⊢
  obtain ⟨n, cf', mstat⟩ := t
  dsimp only at htype hcfclass hcfpinfo ⊢
  -- the steps of a merge: the class first, and then what does not touch it
  have hsteps (changed : Bool) (mstat : Mergstat) (link : Prop) [Decidable link] :
      (mergSteps changed { el₀ with mstat := mstat } ((mergClass · cf' A.length) :: if link then
        [(mergLink · cf')] else [(mergContent sys · cf'), (mergDevice · cf'), (mergMode · cf'),
          (mergOwner · cf'), (mergGroup · cf')])).1 ≠ .replace ∧
      Shared pkg (mergSteps changed { el₀ with mstat := mstat } ((mergClass · cf' A.length) ::
        if link then [(mergLink · cf')] else [(mergContent sys · cf'), (mergDevice · cf'),
          (mergMode · cf'), (mergOwner · cf'), (mergGroup · cf')])).2.cfEnt ∧
      (otherClasses pkg (mergSteps changed { el₀ with mstat := mstat }
        ((mergClass · cf' A.length) ::
        if link then [(mergLink · cf')] else [(mergContent sys · cf'), (mergDevice · cf'),
          (mergMode · cf'), (mergOwner · cf'), (mergGroup · cf')])).2.cfEnt = otherClasses pkg cf ↔
        OwnClasses pkg cf ∨ cf.pkgClass ≠ "?".toList ∨ el.cfEnt.pkgClass = "?".toList) := by
    rw [mergSteps]
    have hkeep := mergSteps_keeps refs _ (mergAttrs_refs sys cf' link)
      (changed || (mergClass { el₀ with mstat := mstat } cf' A.length).1)
      (mergClass { el₀ with mstat := mstat } cf' A.length).2
    refine ⟨mergSteps_ne_replace _ _ _, refs_shared hkeep ?_, ?_⟩
    · rw [Shared, mergClass_npkgs]
      dsimp only
      rw [hnpkgs₀, hnpkgs]
      exact fun _ _ => by decide
    · have hother : otherClasses pkg cf' = otherClasses pkg cf :=
        otherClasses_of_class (by rw [hcfpinfo]) hcfclass
      have hown : OwnClasses pkg cf' ↔ OwnClasses pkg cf := by rw [OwnClasses, OwnClasses, hcfpinfo]
      have hel : ({ el₀ with mstat := mstat } : Cfextra).cfEnt.pinfo = cf'.pinfo :=
        hpinfo₀.trans hcfpinfo.symm
      have hmerg := mergClass_otherClasses hel (hcfpinfo.trans hcf) hp (by rwa [hcfclass])
      rw [refs_otherClasses hkeep, ← hother, hmerg, hown, hcfclass]
      dsimp only
      rw [hclass₀]
  rw [← htype]
  cases n with
  | replace => exact .inl ⟨rfl, rfl, hpinfo₀⟩
  | ignored =>
    have hcp := cpCfent_refs cf el₀
    obtain ⟨hcpclass, hcprest⟩ := Prod.mk.inj hcp
    obtain ⟨hcpnpkgs, hcppinfo⟩ := Prod.mk.inj hcprest
    refine .inr ⟨nofun, nofun, ?_, ?_⟩
    · rw [Shared]
      dsimp only
      rw [hcpnpkgs, hcppinfo]
      exact hshared
    · rw [if_pos rfl, otherClasses_iff (by dsimp only; rw [hcppinfo])]
      dsimp only
      rw [hcpclass, hclass₀]
  | ok =>
    have hne : ¬ TypeChange.ok = .ignored := nofun
    rw [if_neg hne]
    exact .inr ⟨nofun, hsteps _ _ _⟩
  | warning =>
    have hne : ¬ TypeChange.warning = .ignored := nofun
    rw [if_neg hne]
    exact .inr ⟨nofun, hsteps _ _ _⟩

theorem likeMerg_otherClasses {A B : List Pinfo} {p : Pinfo} (hcf : cf.pinfo = A ++ p :: B)
    (hp : p.pkg = pkg) (hclass : cf.pkgClass ≠ []) (hshared : Shared pkg cf)
    (hnpkgs : el.cfEnt.npkgs = 0) (sys : System) (inst : Install) :
    (¬ (inst.nocnflct ∧ el.mstat.shared ∧ el.cfEnt.ftype ≠ 'e') ∧
      mergTypechg inst el cf = .replace ∧ (likeMerg sys inst el cf A.length).1 = .replace ∧
      (likeMerg sys inst el cf A.length).2.2.cfEnt.pinfo = cf.pinfo) ∨
    ((likeMerg sys inst el cf A.length).1 ≠ .replace ∧
      Shared pkg (likeMerg sys inst el cf A.length).2.2.cfEnt ∧
      (otherClasses pkg (likeMerg sys inst el cf A.length).2.2.cfEnt = otherClasses pkg cf ↔
        OwnClasses pkg cf ∨
        if (inst.nocnflct ∧ el.mstat.shared ∧ el.cfEnt.ftype ≠ 'e') ∨ mergTypechg inst el cf =
          .ignored
        then strlcpy (clssiz + 1) el.cfEnt.pkgClass = cf.pkgClass
        else mergTypechg inst el cf = .replace ∨ cf.pkgClass ≠ "?".toList ∨
          el.cfEnt.pkgClass = "?".toList)) := by
  unfold likeMerg
  by_cases hconf : inst.nocnflct ∧ el.mstat.shared ∧ el.cfEnt.ftype ≠ 'e'
  · -- the entry of the database is copied over the new one
    right
    simp only [if_pos hconf]
    rw [if_pos (Or.inl hconf)]
    obtain ⟨hcpclass, hcprest⟩ := Prod.mk.inj (cpCfent_refs cf (setChange sys el))
    obtain ⟨hcpnpkgs, hcppinfo⟩ := Prod.mk.inj hcprest
    refine ⟨nofun, ?_, ?_⟩
    · rw [Shared, hcpnpkgs, hcppinfo]
      exact hshared
    · rw [otherClasses_iff (by rw [hcppinfo]), hcpclass, (refs_eq (setChange_refs sys el)).1]
  · simp only [if_neg hconf]
    have hmerg := merg_otherClasses hcf hp hclass hshared hnpkgs sys inst
    generalize merg sys inst el cf A.length = mr at hmerg ⊢
    obtain ⟨res, el₁⟩ := mr
    rcases hmerg with ⟨htype, rfl, hpinfo⟩ | ⟨htype, hres, hsh, hiff⟩
    · exact .inl ⟨hconf, htype, rfl, hpinfo⟩
    · right
      have hkeep : refs (if el₁.mstat.contchg = false then setChange sys el₁ else el₁) =
          refs el₁ := by
        split
        · exact setChange_refs sys el₁
        · rfl
      have hdone : Shared pkg (if el₁.mstat.contchg = false then setChange sys el₁ else el₁).cfEnt ∧
          (otherClasses pkg (if el₁.mstat.contchg = false then setChange sys el₁ else el₁).cfEnt =
            otherClasses pkg cf ↔ OwnClasses pkg cf ∨
            if (inst.nocnflct ∧ el.mstat.shared ∧ el.cfEnt.ftype ≠ 'e') ∨
              mergTypechg inst el cf = .ignored
            then strlcpy (clssiz + 1) el.cfEnt.pkgClass = cf.pkgClass
            else mergTypechg inst el cf = .replace ∨ cf.pkgClass ≠ "?".toList ∨
              el.cfEnt.pkgClass = "?".toList) := by
        refine ⟨refs_shared hkeep hsh, ?_⟩
        rw [refs_otherClasses hkeep, hiff]
        simp only [hconf, htype, false_or]
      cases res with
      | replace => exact absurd rfl hres
      | same => exact ⟨nofun, hdone⟩
      | different => exact ⟨nofun, hdone⟩

theorem mergeLike_otherClasses {A B : List Pinfo} {p : Pinfo} (hcf : cf.pinfo = A ++ p :: B)
    (hp : p.pkg = inst.pkginst) (hpkg : inst.pkginst.length ≤ pkgsiz) (hclass : cf.pkgClass ≠ [])
    (hshared : Shared inst.pkginst cf) (hnpkgs : el.cfEnt.npkgs = 0)
    (hr : mergeLike sys inst v el cf A.length ctrl = some r) :
    ∃ w, r.tmp = (putcvfpfile w v).2 ∧
      (otherClasses inst.pkginst w = otherClasses inst.pkginst cf ↔ OwnClasses inst.pkginst cf ∨
        if (inst.nocnflct ∧ el.mstat.shared ∧ el.cfEnt.ftype ≠ 'e') ∨ mergTypechg inst el cf =
          .ignored
        then strlcpy (clssiz + 1) el.cfEnt.pkgClass = cf.pkgClass
        else mergTypechg inst el cf = .replace ∨ cf.pkgClass ≠ "?".toList ∨
          el.cfEnt.pkgClass = "?".toList) := by
  have hlike := likeMerg_otherClasses hcf hp hclass hshared hnpkgs sys inst
  unfold mergeLike at hr
  dsimp only at hr
  generalize likeMerg sys inst el cf A.length = lm at hlike hr
  obtain ⟨res, ignore, el₁⟩ := lm
  obtain ⟨⟨changed, el', i'⟩, hst, hr⟩ := Option.bind_eq_some_iff.mp hr
  obtain ⟨w, hw, hr⟩ := Option.bind_eq_some_iff.mp hr
  obtain ⟨hothers, hclasses⟩ := likeStatus_others hpkg hst
  refine ⟨_, (congrArg EntResult.tmp (Option.some.inj hr)).symm.trans (output_tmp hw), ?_⟩
  rw [outputEntry_otherClasses]
  dsimp only at hlike hothers hclasses ⊢
  rcases hlike with ⟨hconf, htype, rfl, hpinfo⟩ | ⟨hres, hsh, hiff⟩
  · -- the entry of the database stays until it is known which one is used
    rw [hpinfo] at hothers
    rw [htype, if_pos rfl, if_neg (not_or.mpr ⟨hconf, nofun⟩)]
    exact iff_of_true (otherClasses_of_class hothers rfl) (.inr (.inl rfl))
  · rw [if_neg hres, hclasses hsh, hiff]

end Merge

section Like
variable {sys : System} {inst : Install} {el : Cfextra} {cf : Cfent} {v : Vfp}

/-- A package map entry that meets the entry of its path in the database. -/
structure LikeInput (inst : Install) (el : Cfextra) (cf : Cfent) : Prop where
  pkginst : inst.pkginst.length ≤ pkgsiz
  preloaded : el.mstat.preloaded = false
  npkgs : el.cfEnt.npkgs = 0
  pkgClass : cf.pkgClass ≠ []
  counted : cf.npkgs = cf.pinfo.length ∧ cf.pinfo.length < 2 ^ 15

theorem two_le_of_others (ho : others pkg ps ≠ []) (hp : ∃ p ∈ ps, Pinfo.pkg p = pkg) :
    2 ≤ ps.length := by
  obtain ⟨p, hp, rfl⟩ := hp
  obtain ⟨A, B, rfl⟩ := List.append_of_mem hp
  rw [others_split A B rfl] at ho
  have hne : A ++ B ≠ [] := by
    intro hnil
    rw [hnil] at ho
    exact ho rfl
  have hpos := List.length_pos_iff.mpr hne
  rw [List.length_append] at hpos
  rw [List.length_append, List.length_cons]
  omega

theorem wrap16_ne_one {k : Nat} (h₂ : 2 ≤ k) (hk : k ≤ 2 ^ 15) : wrap 16 k ≠ 1 := by
  intro h
  have hpos := (wrap16_pos k).mp (by rw [h]; decide)
  have hlt : k < 2 ^ 15 := by omega
  have hid : wrap 16 k = k :=
    wrap_of_range (by decide) (Int.natCast_nonneg k) (by exact_mod_cast hlt)
  rw [hid] at h
  omega

theorem wrap16_again (n : Int) : wrap 16 (wrap 16 (wrap 16 n - 1) + 1) = wrap 16 n := by
  have hpred : wrap 16 (wrap 16 n - 1) = wrap 16 (n - 1) := wrap_wrap_add 16 n (-1)
  rw [hpred, wrap_wrap_add, Int.sub_add_cancel]

theorem shared_of_count {e : Cfent} (hn : e.npkgs = wrap 16 e.pinfo.length)
    (hlen : e.pinfo.length ≤ 2 ^ 15) : Shared pkg e := by
  intro ho hp
  rw [hn, wrap16_again]
  exact wrap16_ne_one (two_le_of_others ho hp) hlen

theorem LikeInput.npkgs_eq (h : LikeInput inst el cf) : cf.npkgs = wrap 16 cf.pinfo.length := by
  rw [h.counted.1]
  exact (wrap_of_range (by decide) (Int.natCast_nonneg _) (by exact_mod_cast h.counted.2)).symm

theorem eptstat_dup_count (hn : cf.npkgs = wrap 16 cf.pinfo.length) (pkg : Str) :
    (eptstat cf pkg dupEntry).1.npkgs = wrap 16 (eptstat cf pkg dupEntry).1.pinfo.length ∧
      (eptstat cf pkg dupEntry).1.pinfo.length ≤ cf.pinfo.length + 1 := by
  have hnul : ¬ dupEntry = nul := by decide
  have hnext : ¬ dupEntry = statNext := by decide
  have hdup : ¬ (dupEntry = statNext ∨ dupEntry = rmRdy) := by decide
  rw [eptstat, if_neg hnul]
  split
  · rename_i i hf
    have hlen := length_eraseIdx_findPinfo hf
    dsimp only
    rw [if_neg hnext]
    dsimp only
    rw [List.length_append, List.length_singleton, hlen, hn, wrap16_again]
    exact ⟨rfl, Nat.le_succ _⟩
  · rw [if_neg hdup]
    dsimp only
    rw [List.length_append, List.length_singleton, hn, wrap_wrap_add]
    exact ⟨by push_cast; rfl, Nat.le_refl _⟩

theorem eptstat_class_ne_nil (h : e.pkgClass ≠ []) (pkg : Str) (c : Char) :
    (eptstat e pkg c).1.pkgClass ≠ [] := by
  rw [eptstat]
  split
  · exact h
  · split
    · dsimp only
      split
      · exact h
      · dsimp only
        split
        · rename_i hc
          exact hc.2
        · exact h
    · split <;> exact h

theorem eptstat_ftype (e : Cfent) (pkg : Str) (c : Char) : (eptstat e pkg c).1.ftype = e.ftype := by
  rw [eptstat]
  split
  · rfl
  · split
    · dsimp only
      split <;> rfl
    · split <;> rfl

theorem eraseEnt_otherClasses (hpkg : inst.pkginst.length ≤ pkgsiz) (hs : Shared inst.pkginst cf)
    (hr : eraseEnt inst v el cf = some r) :
    ∃ w, r.tmp = (putcvfpfile w v).2 ∧ otherClasses inst.pkginst w =
      otherClasses inst.pkginst cf := by
  unfold eraseEnt at hr
  dsimp only at hr
  obtain ⟨i, -, hr⟩ := Option.bind_eq_some_iff.mp hr
  split at hr
  · cases hr
  · refine ⟨_, (congrArg EntResult.tmp (Option.some.inj hr)).symm, ?_⟩
    have hmod : others inst.pkginst (((eptstat cf inst.pkginst rmRdy).1.modifyPinfo i fun p =>
        { p with status := rmRdy }).pinfo) =
          others inst.pkginst (eptstat cf inst.pkginst rmRdy).1.pinfo :=
      others_modify _ _ fun p => ⟨rfl, rfl⟩
    exact (otherClasses_of_class hmod rfl).trans (eptstat_otherClasses hpkg hs rmRdy)

/-- The classes of other packages are kept exactly if the entry is not written with the class of the
new one, or none of them relies on it. -/
theorem doLikeEnt_classes_iff (h : LikeInput inst el cf)
    (hr : doLikeEnt sys inst v el cf ctrl = some r) :
    ∃ w, r.tmp = (putcvfpfile w v).2 ∧
      (otherClasses inst.pkginst w = otherClasses inst.pkginst cf ↔ KeepsClasses inst el cf) := by
  have hshared : Shared inst.pkginst cf := shared_of_count h.npkgs_eq (Nat.le_of_lt h.counted.2)
  obtain ⟨hcount, hlen⟩ := eptstat_dup_count h.npkgs_eq inst.pkginst
  have hshared' : Shared inst.pkginst (eptstat cf inst.pkginst dupEntry).1 :=
    shared_of_count hcount (Nat.le_trans hlen h.counted.2)
  have hsame := eptstat_otherClasses h.pkginst hshared dupEntry
  have hothers := eptstat_others h.pkginst cf dupEntry
  unfold doLikeEnt at hr
  dsimp only at hr
  rw [if_neg (by rw [h.preloaded]; decide)] at hr
  obtain ⟨i, hi, hr⟩ := Option.bind_eq_some_iff.mp hr
  split at hr
  · rename_i hrm
    obtain ⟨w, hw, hkeep⟩ := eraseEnt_otherClasses h.pkginst hshared' hr
    exact ⟨w, hw, iff_of_true (hkeep.trans hsame) (.inr (.inl hrm))⟩
  · rename_i hrm
    obtain ⟨A, p, B, hps, rfl, hp⟩ := eptstat_pinfoAt hi h.pkginst
    obtain ⟨w, hw, hiff⟩ := mergeLike_otherClasses hps hp h.pkginst
      (eptstat_class_ne_nil h.pkgClass _ _) hshared' (by exact h.npkgs) hr
    refine ⟨w, hw, ?_⟩
    rw [← hsame, hiff, KeepsClasses]
    have hown : OwnClasses inst.pkginst (eptstat cf inst.pkginst dupEntry).1 ↔
        OwnClasses inst.pkginst cf := by rw [ownClasses_iff, ownClasses_iff, hothers]
    have htype : mergTypechg inst { el with mstat := { el.mstat with
          shared := el.mstat.shared || othersToo cf inst.pkginst } }
        (eptstat cf inst.pkginst dupEntry).1 = mergTypechg inst el cf := by
      refine typechg_ftype ?_ (eptstat_ftype _ _ _) _ _
      simp only [mergFtype, eptstat_ftype]
    by_cases hnil : others inst.pkginst cf.pinfo = []
    · have hall : OwnClasses inst.pkginst cf := ownClasses_iff.mpr (by rw [hnil]; exact nofun)
      exact iff_of_true (.inl (hown.mpr hall)) (.inl hall)
    · rw [hown, htype, eptstat_class (hshared hnil)]
      have hconf : (inst.nocnflct ∧ (el.mstat.shared || othersToo cf inst.pkginst) ∧
          el.cfEnt.ftype ≠ 'e') ↔ conflicts inst el cf := by rw [conflicts, decide_eq_true_eq]
      simp only [hconf, hrm, false_or, OwnClasses]

end Like

def sampleOwned : Cfent :=
  ⟨0, 'd', "none".toList, -1, some "/opt".toList, ⟨none, 0o755, "root".toList, "sys".toList, 0, 0⟩,
    ⟨-1, -1, -1⟩, 1, [⟨nul, "SUNWa".toList, 0, []⟩]⟩

def sampleNew : Cfextra :=
  ⟨{ sampleOwned with pkgClass := "app".toList, npkgs := 0, pinfo := [] },
    ⟨false, false, false, false, false, false, false, false, false, false, false, false⟩,
    "/opt".toList, "/opt".toList, none⟩

theorem sampleNew_input (nocnflct : Bool) :
    LikeInput ⟨nul, "SUNWb".toList, false, nocnflct⟩ sampleNew sampleOwned := by
  have hlen : "SUNWb".toList.length ≤ pkgsiz := by decide
  exact ⟨hlen, rfl, rfl, by decide, by decide⟩

/-- The copy for an installation without conflicts changes the class that the other package has. -/
theorem doLikeEnt_copies_class :
    LikeInput ⟨nul, "SUNWb".toList, false, true⟩ sampleNew sampleOwned ∧
    ∃ r w, doLikeEnt bareSystem ⟨nul, "SUNWb".toList, false, true⟩ (vfpAnonymous 96 0 fun _ => nul)
        sampleNew sampleOwned false = some r ∧
      r.tmp.text = "/opt d app 0755 root sys SUNWa SUNWb\n".toList ∧
      parseLine (initEntry zeroEntry) r.tmp.text.dropLast = some (.ok w) ∧
      otherClasses "SUNWb".toList w = [("SUNWa".toList, "app".toList)] ∧
      otherClasses "SUNWb".toList sampleOwned = [("SUNWa".toList, "none".toList)] := by
  refine ⟨sampleNew_input true, ?_⟩
  have hrun : (doLikeEnt bareSystem ⟨nul, "SUNWb".toList, false, true⟩
      (vfpAnonymous 96 0 fun _ => nul) sampleNew sampleOwned false).any
      (fun r => r.tmp.text = "/opt d app 0755 root sys SUNWa SUNWb\n".toList) := by decide +kernel
  rw [Option.any_eq_true] at hrun
  obtain ⟨r, hr, htext⟩ := hrun
  have htext := of_decide_eq_true htext
  refine ⟨r, { sampleOwned with
    pkgClass := "app".toList
    npkgs := 2
    pinfo := [⟨nul, "SUNWa".toList, 0, []⟩, ⟨nul, "SUNWb".toList, 0, []⟩] }, hr, htext, ?_,
    by decide +kernel, by decide +kernel⟩
  rw [htext]
  decide +kernel

/-- A merge that makes the class of the new package that of the entry. -/
theorem doLikeEnt_classes_merged :
    ∃ r w, doLikeEnt bareSystem ⟨nul, "SUNWb".toList, false, false⟩ (vfpAnonymous 96 0 fun _ => nul)
        sampleNew sampleOwned false = some r ∧
          r.tmp = (putcvfpfile w (vfpAnonymous 96 0 fun _ => nul)).2 ∧
      otherClasses "SUNWb".toList w = otherClasses "SUNWb".toList sampleOwned := by
  have hrun : (doLikeEnt bareSystem ⟨nul, "SUNWb".toList, false, false⟩
      (vfpAnonymous 96 0 fun _ => nul) sampleNew sampleOwned false).isSome := by decide +kernel
  obtain ⟨r, hr⟩ := Option.isSome_iff_exists.mp hrun
  obtain ⟨w, hw, hiff⟩ := doLikeEnt_classes_iff (sampleNew_input false) hr
  refine ⟨r, w, hr, hw, hiff.mpr (.inr (.inr ?_))⟩
  rw [if_neg (by decide +kernel)]
  exact .inr (.inl (by decide))

end Pkgtools
