import Pkgtools.CLib.Words
import Pkgtools.MergeVerifyMode

namespace Pkgtools
open CLib
set_option autoImplicit true

/-- The flag of an element that stands inside of a directory that was a symbolic link. -/
def Cfextra.marked (el : Cfextra) : Bool := el.mstat.parentsyml2dir

section Kept
variable {sys : System} {inst : Install} {el : Cfextra} {cf : Cfent}

theorem setChange_marked (sys : System) (el : Cfextra) : (setChange sys el).marked = el.marked :=
  setChange_induct (P := fun x => x.marked = el.marked) rfl rfl (fun _ _ _ h => h) (fun _ h => h)
    fun _ h => h

theorem cpCfent_marked (cf : Cfent) (el : Cfextra) : (cpCfent cf el).marked = el.marked := by
  unfold cpCfent
  dsimp only
  split <;> rfl

theorem mergAttrs_marked (sys : System) (ftype : Char) (cf : Cfent) (i : Nat) :
    ∀ f ∈ mergAttrs sys ftype cf i, ∀ el : Cfextra, (f el).2.marked = el.marked := by
  intro f hf el
  rw [mergAttrs] at hf
  rcases List.mem_cons.mp hf with rfl | hf
  · show (mergClass el cf i).2.marked = el.marked
    unfold mergClass
    split
    · rfl
    · split <;> rfl
  split at hf
  · rw [List.mem_singleton.mp hf]
    show (mergLink el cf).2.marked = el.marked
    unfold mergLink
    split
    · split
      · rfl
      · split <;> rfl
    · rfl
  · simp only [List.mem_cons, List.not_mem_nil, or_false] at hf
    rcases hf with rfl | rfl | rfl | rfl | rfl
    · show (mergContent sys el cf).2.marked = el.marked
      unfold mergContent
      split
      · rfl
      · split
        · split <;> rfl
        · rfl
    · show (mergDevice el cf).2.marked = el.marked
      unfold mergDevice
      split <;> rfl
    · show (mergMode el cf).2.marked = el.marked
      unfold mergMode
      dsimp only
      split
      · rfl
      · split
        · rfl
        · split <;> rfl
    · show (mergOwner el cf).2.marked = el.marked
      unfold mergOwner
      dsimp only
      split
      · rfl
      · split <;> rfl
    · show (mergGroup el cf).2.marked = el.marked
      unfold mergGroup
      dsimp only
      split
      · rfl
      · split <;> rfl

theorem typechg_marked (el cf : Cfent) (mstat : Mergstat) :
    (typechg el cf mstat).2.2.parentsyml2dir = mstat.parentsyml2dir := by
  rcases typechg_cases el cf mstat with ⟨_, -, h⟩ | ⟨-, h⟩ | h | h <;> rw [h]

theorem merg_marked (sys : System) (inst : Install) (el : Cfextra) (cf : Cfent) (i : Nat) :
    (merg sys inst el cf i).2.marked = el.marked := by
  unfold merg
  dsimp only
  generalize hx : (if inst.dbst = instRdy ∧ el.cfEnt.ftype = '?' then _ else _ : Cfextra) = x
  have hmarked : x.marked = el.marked := by
    rw [← hx]
    split <;> rfl
  rw [← hmarked]
  have htype := typechg_marked x.cfEnt cf x.mstat
  generalize typechg x.cfEnt cf x.mstat = t at htype ⊢
  obtain ⟨n, cf', mstat⟩ := t
  have hsteps (changed : Bool) (y : Cfextra) :
      (mergSteps changed y (mergAttrs sys x.cfEnt.ftype cf' i)).2.marked = y.marked :=
    mergSteps_keeps Cfextra.marked _ (mergAttrs_marked sys x.cfEnt.ftype cf' i) changed y
  cases n with
  | ignored => exact cpCfent_marked cf x
  | replace => exact htype
  | ok => exact (hsteps _ _).trans htype
  | warning => exact (hsteps _ _).trans htype

theorem likeMerg_marked (sys : System) (inst : Install) (el : Cfextra) (cf : Cfent) (i : Nat) :
    (likeMerg sys inst el cf i).2.2.marked = el.marked := by
  unfold likeMerg
  split
  · exact (cpCfent_marked cf _).trans (setChange_marked sys el)
  · have hmerg := merg_marked sys inst el cf i
    generalize merg sys inst el cf i = r at hmerg ⊢
    obtain ⟨res, x⟩ := r
    have hchange : (if x.mstat.contchg = false then setChange sys x else x).marked = x.marked := by
      split
      · exact setChange_marked sys x
      · rfl
    cases res with
    | replace => exact hmerg
    | same => exact hchange.trans hmerg
    | different => exact hchange.trans hmerg

theorem likeStatus_mstat (h : likeStatus sys inst ctrl ignore stflag i el = some (changed, x, j)) :
    x.mstat = el.mstat :=
  likeStatus_induct (P := fun y => y.mstat = el.mstat) rfl (fun _ _ _ _ => rfl) (fun _ _ hy => hy) h

theorem eraseEnt_marked (h : eraseEnt inst v el cf = some r) : r.el.marked = el.marked := by
  unfold eraseEnt at h
  dsimp only at h
  obtain ⟨j, -, h⟩ := Option.bind_eq_some_iff.mp h
  split at h
  · cases h
  · rw [← Option.some.inj h]
    dsimp only
    split <;> rfl

theorem doLikeEnt_marked (h : doLikeEnt sys inst v el cf ctrl = some r) :
    r.el.marked = el.marked := by
  unfold doLikeEnt at h
  dsimp only at h
  obtain ⟨i, -, h⟩ := Option.bind_eq_some_iff.mp h
  split at h
  · have hkept := eraseEnt_marked h
    exact hkept
  · unfold mergeLike at h
    dsimp only at h
    obtain ⟨⟨changed, x, j⟩, hstatus, h⟩ := Option.bind_eq_some_iff.mp h
    obtain ⟨t, -, h⟩ := Option.bind_eq_some_iff.mp h
    rw [← Option.some.inj h]
    have hmstat := congrArg Mergstat.parentsyml2dir (likeStatus_mstat hstatus)
    exact hmstat.trans (likeMerg_marked sys inst _ _ _)

theorem doNewEnt_marked (h : doNewEnt sys inst v el ctrl = some r) : r.el.marked = el.marked := by
  unfold doNewEnt at h
  split at h
  · rw [← Option.some.inj h]
  · dsimp only at h
    generalize hx : (if el.mstat.parentsyml2dir = false ∧ sys.access el.serverPath then _ else _ :
      Cfextra) = x at h
    have hmarked : x.marked = el.marked := by
      rw [← hx]
      split
      · exact setChange_marked sys _
      · rfl
    split at h
    · rw [← Option.some.inj h]
      exact hmarked
    · obtain ⟨i, -, h⟩ := Option.bind_eq_some_iff.mp h
      obtain ⟨t, -, h⟩ := Option.bind_eq_some_iff.mp h
      rw [← Option.some.inj h]
      exact hmarked

end Kept

def lineType (l : Str) : Option Char :=
  match parseLine (initEntry zeroEntry) l with
  | some (.ok e) => some e.ftype
  | _ => none

/-- The element is a directory, and the entry of its path in the database is a symbolic link. -/
def Cfextra.Replaces (ls : List Str) (d : Cfextra) : Prop :=
  d.cfEnt.ftype = 'd' ∧ ∃ l ∈ ls, linePath l = d.path ∧ lineType l = some 's'

def Inside (d path : Str) : Prop := ∃ rest, path = d ++ '/' :: rest

/-- The path of the element begins with that of such a directory among `ds`. -/
def MarkedBy (ls : List Str) (ds : List Cfextra) (el : Cfextra) : Prop :=
  ∃ d ∈ ds, d.Replaces ls ∧ d.path <+: el.path ∧ d.path ≠ el.path

section Marking

def Cfextra.mark (el : Cfextra) : Cfextra :=
  { el with mstat := { el.mstat with parentsyml2dir := true } }

/-- The loop that marks the elements stops behind the last of those it is for. -/
theorem markInside_eq_map (hp : NulFree path) (hs : todo.Pairwise fun a b => a.path < b.path)
    (hlt : ∀ y ∈ todo, path < y.path) :
    markInside path todo = todo.map fun y => if path <+: y.path then y.mark else y := by
  have hcmp (y : Cfextra) : decide (strncmp path y.path path.length = 0) = true ↔
      path <+: y.path := by
    rw [decide_eq_true_eq, strncmp_length_eq_zero_iff hp]
  have hrun : todo.Pairwise fun a b => decide (strncmp path b.path path.length = 0) →
      decide (strncmp path a.path path.length = 0) := by
    refine hs.imp_of_mem fun {a b} ha _ hab h => (hcmp a).mpr ?_
    obtain ⟨v, hv⟩ := (hcmp b).mp h
    refine prefix_of_between (u := []) (v := v) ?_ ?_
    · rw [List.append_nil]
      exact le_of_lt (hlt a ha)
    · rw [hv]
      exact le_of_lt hab
  refine (map_takeWhile_append Cfextra.mark hrun).trans (List.map_congr_left fun y _ => ?_)
  by_cases hy : path <+: y.path
  · rw [if_pos hy, if_pos ((hcmp y).mpr hy)]
  · rw [if_neg hy, if_neg fun h => hy ((hcmp y).mp h)]

theorem lineType_of_parse (hhead : l.head? = some '/') (hwf : WellFormed l)
    (h : parseLine (initEntry ept) l = some (.ok e)) : lineType l = some e.ftype := by
  obtain ⟨e₀, h₀⟩ := hwf.parses zeroEntry
  rw [lineType, h₀]
  exact congrArg some (parseLine_deviceTwin hhead h h₀).ftype

theorem markedBy_concat {el : Cfextra} : MarkedBy ls (front ++ [el]) y ↔
    MarkedBy ls front y ∨ el.Replaces ls ∧ el.path <+: y.path ∧ el.path ≠ y.path := by
  simp only [MarkedBy, List.mem_append, List.mem_singleton]
  constructor
  · rintro ⟨d, hd | rfl, h⟩
    · exact .inl ⟨d, hd, h⟩
    · exact .inr h
  · rintro (⟨d, hd, h⟩ | h)
    · exact ⟨d, .inl hd, h⟩
    · exact ⟨el, .inr rfl, h⟩

theorem markedBy_concat_of_le (h : y.path ≤ el.path) :
    MarkedBy ls (front ++ [el]) y ↔ MarkedBy ls front y := by
  rw [markedBy_concat, or_iff_left]
  rintro ⟨-, hpre, hne⟩
  have hlen : y.path.length ≠ el.path.length := fun hl => hne (hpre.eq_of_length hl.symm)
  exact absurd h (not_le_of_gt (lt_of_prefix_of_length_ne hpre hlen))

/-- How far the elements are marked: `front` is merged, and `back` is still to do. -/
structure Marks (ls : List Str) (front back : List Cfextra) (m : Merge) : Prop where
  behind : List.Forall₂ (fun el x => x.marked = true ↔ MarkedBy ls front el) front m.done
  ahead : List.Forall₂ (fun el x => x.cfEnt = el.cfEnt ∧ (x.marked = true ↔ MarkedBy ls front el))
    back m.todo

/-- One element is done, and those behind it are marked if it takes the place of a link. -/
theorem Marks.next (h : Marks ls front (el :: back) m) (hm : m.todo = x :: todo)
    (hs : (front ++ el :: back).Pairwise fun a b => a.path < b.path)
    (hsorted : m.todo.Pairwise fun a b => a.path < b.path) (hp : el.Replaces ls → NulFree el.path)
    (hdone : m'.done = m.done ++ [x']) (hx : x'.marked = x.marked)
    (htodo : el.Replaces ls ∧ m'.todo = markInside el.path todo ∨
      ¬ el.Replaces ls ∧ m'.todo = todo) :
    Marks ls (front ++ [el]) back m' := by
  obtain ⟨-, hback, hfront⟩ := List.pairwise_append.mp hs
  obtain ⟨hlt, hback⟩ := List.pairwise_cons.mp hback
  have hrest := h.ahead
  rw [hm] at hrest
  obtain ⟨⟨hent, hmark⟩, hrest⟩ := List.forall₂_cons.mp hrest
  constructor
  · rw [hdone]
    refine List.rel_append ?_ (.cons ?_ .nil)
    · have hold := (List.forall₂_and_left _ _).mpr
        ⟨fun a ha => le_of_lt (hfront a ha el List.mem_cons_self), h.behind⟩
      exact hold.imp fun a b hab => hab.2.trans (markedBy_concat_of_le hab.1).symm
    · rw [hx, markedBy_concat_of_le le_rfl]
      exact hmark
  · have hnew := (List.forall₂_and_left _ _).mpr ⟨hlt, hrest⟩
    rcases htodo with ⟨hrep, htodo⟩ | ⟨hrep, htodo⟩
    · obtain ⟨hgt, hsorted⟩ := List.pairwise_cons.mp (hm ▸ hsorted)
      have hpath : x.path = el.path := by rw [Cfextra.path, hent]; rfl
      rw [hpath] at hgt
      rw [htodo, markInside_eq_map (hp hrep) hsorted hgt, List.forall₂_map_right_iff]
      refine hnew.imp fun a b hab => ?_
      obtain ⟨hlt, hent, hmark⟩ := hab
      have hpath : b.path = a.path := by rw [Cfextra.path, hent]; rfl
      rw [markedBy_concat, hpath]
      by_cases hpre : el.path <+: a.path
      · rw [if_pos hpre]
        exact ⟨hent, iff_of_true rfl (.inr ⟨hrep, hpre, ne_of_lt hlt⟩)⟩
      · rw [if_neg hpre]
        exact ⟨hent, hmark.trans (or_iff_left fun h => hpre h.2.1).symm⟩
    · rw [htodo]
      refine hrest.imp fun a b hab => ⟨hab.1, hab.2.trans ?_⟩
      rw [markedBy_concat]
      exact (or_iff_left fun h => hrep h.1).symm

end Marking

section Runs
variable {sys : System} {inst : Install} {ls cs before rest out names : List Str} {start : Vfp}
  {m m' : Merge} {el x : Cfextra} {extlist front back todo : List Cfextra}

theorem Merge.mergeEnt_marks (h : m.mergeEnt sys inst stack el = some (.ok m')) :
    (∃ x, m'.done = m.done ++ [x] ∧ x.marked = el.marked) ∧
      m'.todo = if m.eocontents = false ∧
          (srchcfile stack m.cfEnt el.cfEnt.path m.map (some m.tmp)).ret = 1 ∧
          (srchcfile stack m.cfEnt el.cfEnt.path m.map (some m.tmp)).ept.ftype = 's' ∧
          el.cfEnt.ftype = 'd' then markInside el.path m.todo else m.todo := by
  have hpath : (adminSetuid inst el).cfEnt.path = el.cfEnt.path := rfl
  unfold Merge.mergeEnt at h
  dsimp only at h
  rw [hpath] at h
  split at h
  · rename_i heof
    obtain ⟨r, hr, hstep⟩ := Option.bind_eq_some_iff.mp h
    rw [← Except.ok.inj (Option.some.inj hstep), heof]
    have hkept := doNewEnt_marked hr
    exact ⟨⟨r.el, rfl, hkept⟩, (if_neg fun h => absurd h.1 (by decide)).symm⟩
  · rename_i heof
    generalize srchcfile stack m.cfEnt el.cfEnt.path m.map (some m.tmp) = found at h ⊢
    split at h
    · cases h
    · split at h
      · rename_i hone
        obtain ⟨r, hr, hstep⟩ := Option.bind_eq_some_iff.mp h
        rw [← Except.ok.inj (Option.some.inj hstep)]
        have hkept := doLikeEnt_marked hr
        refine ⟨⟨r.el, rfl, hkept⟩, ?_⟩
        have heof' : m.eocontents = false := by simpa using heof
        simp only [heof', hone, true_and]
        rfl
      · rename_i hne
        obtain ⟨r, hr, hstep⟩ := Option.bind_eq_some_iff.mp h
        rw [← Except.ok.inj (Option.some.inj hstep)]
        have hkept := doNewEnt_marked hr
        exact ⟨⟨r.el, rfl, hkept⟩, (if_neg fun h => hne h.2.1).symm⟩

theorem Progress.mergeEnt_ok (hc : Contents ls cs)
    (h : Progress ls cs extlist start m before rest out names) (hm : m.todo = el :: todo)
    (hmeta : el.isMetafile = false) :
    Merge.mergeEnt sys inst stack { m with todo := todo } el ≠ some (.error m') := by
  obtain ⟨hpath, hel⟩ := h.todo.mergeable el (by rw [hm]; exact List.mem_cons_self) hmeta
  have hstart : (adminSetuid inst el).cfEnt.path = some el.path :=
    (adminSetuid_mergeable hel inst).cfEnt.path
  intro hstep
  unfold Merge.mergeEnt at hstep
  dsimp only at hstep
  split at hstep
  · obtain ⟨r, -, hstep⟩ := Option.bind_eq_some_iff.mp hstep
    cases Option.some.inj hstep
  · rename_i heof
    have hreads := h.reads (by simpa using heof)
    have hfile := hc.file
    rw [h.lines] at hfile
    have hret : 0 ≤ (srchcfile stack m.cfEnt (some el.path) m.map (some m.tmp)).ret := by
      cases srchcfile_outcome hfile hc.comments hreads hpath.oneLine.2 hpath.absolute stack
        m.cfEnt m.tmp with
      | same A l B hr hA hl hfound =>
        have hmem : l ∈ ls := by
          rw [h.lines, hr]
          simp
        obtain ⟨e, he⟩ := (hc.entry l hmem).parses m.cfEnt
        obtain ⟨t, -, hres⟩ := hfound e he
        rw [hres]
        exact (by decide : (0 : Int) ≤ 1)
      | greater A l B hr hA hl t ht e hfound =>
        rw [hfound]
        exact (by decide : (0 : Int) ≤ 2)
      | atEnd hls t ht hret htmp₀ => rw [hret]
    rw [hstart, if_neg (by omega)] at hstep
    split at hstep
    · obtain ⟨r, -, hstep⟩ := Option.bind_eq_some_iff.mp hstep
      cases Option.some.inj hstep
    · obtain ⟨r, -, hstep⟩ := Option.bind_eq_some_iff.mp hstep
      cases Option.some.inj hstep

theorem Cfextra.replaces_iff (hc : Contents ls cs) (hl : l ∈ ls) (hpath : linePath l = el.path)
    (hparse : parseLine (initEntry ept) l = some (.ok e)) :
    el.Replaces ls ↔ e.ftype = 's' ∧ el.cfEnt.ftype = 'd' := by
  have htype := lineType_of_parse (hc.entry l hl).head (hc.entry l hl) hparse
  constructor
  · rintro ⟨hdir, l', hl', hpath', htype'⟩
    obtain rfl := eq_of_sorted hc.file.sorted hl' hl (hpath'.trans hpath.symm)
    exact ⟨Option.some.inj (htype.symm.trans htype'), hdir⟩
  · rintro ⟨hlink, hdir⟩
    exact ⟨hdir, l, hl, hpath, by rw [htype, hlink]⟩

theorem Cfextra.Replaces.isMetafile (h : el.Replaces ls) : el.isMetafile = false := by
  simp [Cfextra.isMetafile, h.1]

theorem Marks.step (hc : Contents ls cs)
    (hp : Progress ls cs extlist start m before rest out names) (h : Marks ls front (el :: back) m)
    (hs : (front ++ el :: back).Pairwise fun a b => a.path < b.path) (hm : m.todo = x :: todo)
    (hstep : m.step sys inst stack x todo = some (.ok m')) : Marks ls (front ++ [el]) back m' := by
  have hent : x.cfEnt = el.cfEnt := by
    have hahead := h.ahead
    rw [hm] at hahead
    exact (List.forall₂_cons.mp hahead).1.1
  have hpath : x.path = el.path := by rw [Cfextra.path, hent]; rfl
  have hsorted := hp.todo.sorted
  have hmem : x ∈ m.todo := by rw [hm]; exact List.mem_cons_self
  have hnul (hrep : el.Replaces ls) : NulFree el.path := by
    have hmeta : x.isMetafile = false := by
      rw [Cfextra.isMetafile, hent]
      exact hrep.isMetafile
    rw [← hpath]
    exact (hp.todo.mergeable x hmem hmeta).1.oneLine.2
  have hnext := next_path_ne (hm ▸ hsorted)
  unfold Merge.step at hstep
  dsimp only at hstep
  by_cases hmeta : x.isMetafile
  · rw [if_pos (.inl hmeta)] at hstep
    rw [← Except.ok.inj (Option.some.inj hstep)]
    refine h.next hm hs hsorted hnul rfl rfl (.inr ⟨fun hrep => ?_, rfl⟩)
    rw [Cfextra.isMetafile, hent] at hmeta
    exact absurd hrep.isMetafile (by rw [Cfextra.isMetafile, hmeta]; decide)
  · rw [if_neg (not_or.mpr ⟨hmeta, by rw [hnext]; decide⟩)] at hstep
    obtain ⟨⟨x', hdone, hmarked⟩, htodo⟩ := Merge.mergeEnt_marks hstep
    refine h.next hm hs hsorted hnul hdone hmarked ?_
    have hstart : x.cfEnt.path = some x.path :=
      (hp.todo.mergeable x hmem (by simpa using hmeta)).2.cfEnt.path
    rw [hstart, hent, hpath] at htodo
    rw [← hpath] at htodo ⊢
    cases hp.mergeCase hc hm (by simpa using hmeta) hstep with
    | new A B t ctrl r hrest hA hB ht hfound hdo htmp htodo' hreads hended =>
      refine .inr ⟨?_, htodo'⟩
      rintro ⟨-, l, hl, hline, -⟩
      rw [← hpath] at hline
      rw [hp.lines, hrest] at hl
      rcases List.mem_append.mp hl with hl | hl
      · exact ne_of_lt ((hp.ahead x hmem).1 l hl) hline
      · rcases List.mem_append.mp hl with hl | hl
        · exact ne_of_lt (hA l hl) hline
        · exact ne_of_gt (hB l hl) hline
    | like A l B t ctrl r e mstat hrest hA hl ht hparse hfound hshared hdo htmp htodo' hreads
        hended =>
      have hls : l ∈ ls := by
        rw [hp.lines, hrest]
        simp
      rw [Cfextra.replaces_iff hc hls (hl.trans hpath) hparse]
      obtain ⟨heof, hone, hept⟩ := hfound
      by_cases hrep : e.ftype = 's' ∧ el.cfEnt.ftype = 'd'
      · refine .inl ⟨hrep, htodo.trans (if_pos ?_)⟩
        exact ⟨heof, hone, by rw [hept]; exact hrep.1, hrep.2⟩
      · refine .inr ⟨hrep, htodo.trans (if_neg ?_)⟩
        rintro ⟨-, -, htype, hdir⟩
        rw [hept] at htype
        exact hrep ⟨htype, hdir⟩

theorem Progress.step_ok (hc : Contents ls cs)
    (h : Progress ls cs extlist start m before rest out names) (hm : m.todo = el :: todo) :
    m.step sys inst stack el todo ≠ some (.error m') := by
  intro hstep
  unfold Merge.step at hstep
  dsimp only at hstep
  split at hstep
  · cases Option.some.inj hstep
  · rename_i hcond
    exact h.mergeEnt_ok hc hm (by simpa using (not_or.mp hcond).1) hstep

/-- A whole run marks every element whose path begins with that of a directory for a link. -/
theorem Marks.run (hc : Contents ls cs) (hs : sys.Plain) (hi : inst.Plain) {n : Nat}
    (hext : (front ++ back).Pairwise fun a b => a.path < b.path)
    (hp : Progress ls cs extlist start m before rest out names) (h : Marks ls front back m)
    (hn : m.todo.length = n) (hrun : m.run sys inst stack n = some (ret, m')) :
    List.Forall₂ (fun el x => x.marked = true ↔ MarkedBy ls (front ++ back) el) (front ++ back)
      m'.done := by
  have hdone (m : Merge) (stack : Str) : (m.finish stack).2.done = m.done := by
    unfold Merge.finish
    split <;> rfl
  induction n generalizing m front back before rest out names with
  | zero =>
    have hback : back = [] := by
      have hlen := h.ahead.length_eq
      rw [hn] at hlen
      exact List.eq_nil_of_length_eq_zero hlen
    have hm' : m' = (m.finish (stack 0)).2 := (congrArg Prod.snd (Option.some.inj hrun)).symm
    rw [hm', hdone, hback, List.append_nil]
    exact h.behind
  | succ n ih =>
    rw [Merge.run] at hrun
    split at hrun
    · rename_i hnil
      rw [hnil] at hn
      cases hn
    · rename_i x todo hm
      obtain ⟨r, hstep, hrun⟩ := Option.bind_eq_some_iff.mp hrun
      cases r with
      | error m₁ => exact absurd hstep (hp.step_ok hc hm)
      | ok m₁ =>
        obtain ⟨hlen, _, _, _, _, hnext⟩ := hp.step hc hs hi hm hstep
        rw [hm, List.length_cons] at hn
        cases back with
        | nil =>
          have hahead := h.ahead
          rw [hm] at hahead
          cases hahead
        | cons el back =>
          have hmarks := h.step hc hp hext hm hstep
          rw [List.append_cons] at hext ⊢
          exact ih hext hnext hmarks (by omega) hrun

end Runs

section Exact
variable {sys : System} {inst : Install} {ls cs : List Str} {m : Merge} {extlist : List Cfextra}

theorem pkgdbmerg_marks (hs : sys.Plain) (hi : inst.Plain) (hdb : ContentsFile ls cs)
    (hext : SortedList extlist) (hclear : ∀ el ∈ extlist, el.mstat.parentsyml2dir = false)
    (hrun : pkgdbmerg sys inst stack cfEnt (vfpOpen (unlines (ls ++ cs))) tmp extlist =
      some (ret, m)) :
    List.Forall₂ (fun el x => x.mstat.parentsyml2dir = true ↔ MarkedBy ls extlist el) extlist
      m.done := by
  have hc := hdb.contents
  have hstart := progress_start hc hext cfEnt tmp
  have hunmarked : Marks ls [] extlist
      ⟨vfpRewind (vfpOpen (unlines (ls ++ cs))), vfpRewind tmp, { cfEnt with pinfo := [] }, [],
        extlist, false, false, 0, 0⟩ := by
    refine ⟨.nil, List.forall₂_same.mpr fun el hel => ⟨rfl, ?_⟩⟩
    rw [Cfextra.marked, hclear el hel]
    exact iff_of_false (by decide) fun ⟨d, hd, _⟩ => absurd hd List.not_mem_nil
  have hsorted : ([] ++ extlist : List Cfextra).Pairwise fun a b => a.path < b.path := hext.sorted
  have hall := hunmarked.run hc hs hi hsorted hstart rfl hrun
  exact hall

/-- The elements that are marked are those inside of a directory that takes the place of a link
exactly if none has only the beginning of its path in common with one. -/
theorem pkgdbmerg_marks_iff (hs : sys.Plain) (hi : inst.Plain) (hdb : ContentsFile ls cs)
    (hext : SortedList extlist) (hclear : ∀ el ∈ extlist, el.mstat.parentsyml2dir = false)
    (hrun : pkgdbmerg sys inst stack cfEnt (vfpOpen (unlines (ls ++ cs))) tmp extlist =
      some (ret, m)) :
    List.Forall₂ (fun el x => x.mstat.parentsyml2dir = true ↔
        ∃ d ∈ extlist, d.Replaces ls ∧ Inside d.path el.path) extlist m.done ↔
      ∀ el ∈ extlist, ∀ d ∈ extlist, d.Replaces ls → d.path <+: el.path → d.path ≠ el.path →
        ∃ d' ∈ extlist, d'.Replaces ls ∧ Inside d'.path el.path := by
  have hmarks := pkgdbmerg_marks hs hi hdb hext hclear hrun
  have hinside {el : Cfextra} (h : ∃ d ∈ extlist, d.Replaces ls ∧ Inside d.path el.path) :
      MarkedBy ls extlist el := by
    obtain ⟨d, hd, hrep, rest, hpath⟩ := h
    refine ⟨d, hd, hrep, ⟨_, hpath.symm⟩, fun he => ?_⟩
    have hlen := congrArg List.length (he.trans hpath)
    rw [List.length_append, List.length_cons] at hlen
    omega
  constructor
  · intro h el hel d hd hrep hpre hne
    obtain ⟨i, hi, rfl⟩ := List.getElem_of_mem hel
    have hi' : i < m.done.length := hmarks.length_eq ▸ hi
    have hmarked := (hmarks.get hi hi').mpr ⟨d, hd, hrep, hpre, hne⟩
    exact (h.get hi hi').mp hmarked
  · intro h
    have hall := (List.forall₂_and_left _ _).mpr ⟨h, hmarks⟩
    refine hall.imp fun el x hx => hx.2.trans ⟨?_, hinside⟩
    rintro ⟨d, hd, hrep, hpre, hne⟩
    exact hx.1 d hd hrep hpre hne

def siblingDirs (path : String) : List Cfextra :=
  [sampleOfClass "none" 0 "/usr/adm", sampleOfClass "none" 0 path]

def siblingMerge (path : String) : Option (Int × Merge) :=
  pkgdbmerg bareSystem ⟨nul, "SUNWnew".toList, false, false⟩ (fun _ => []) zeroEntry
    (vfpOpen (unlines ([entryText sampleLink "/usr/adm".toList] ++ ["# end".toList])))
    (vfpAnonymous 160 0 fun _ => nul) (siblingDirs path)

theorem sampleLink_contents :
    ContentsFile [entryText sampleLink "/usr/adm".toList] ["# end".toList] := by
  refine ⟨fun l hl => ?_, List.pairwise_singleton _ _, by decide +kernel, by decide⟩
  rw [List.mem_singleton.mp hl]
  exact ⟨by decide +kernel, by decide +kernel, by decide +kernel,
    fun ept => ⟨_, parseLine_entryText sampleLink_writable.legible
      sampleLink_writable.numbered ept⟩⟩

theorem siblingDirs_sorted (hlt : "/usr/adm".toList < path.toList) (hp : IsPath path.toList) :
    SortedList (siblingDirs path) := by
  have hmergeable (path : String) :
      (sampleOfClass "none" 0 path).Mergeable (sampleOfClass "none" 0 path).path := by
    have htype : OneLine ['d'] := by decide
    have hclass : OneLine "none".toList := by decide
    have howner : OneLine "root".toList := by decide
    have hgroup : OneLine "sys".toList := by decide
    have hfile : 'd' ≠ 'i' := by decide
    exact ⟨⟨⟨htype, hclass, ⟨nofun, howner, hgroup⟩, nofun⟩, hfile, rfl⟩, rfl, nofun⟩
  refine ⟨List.pairwise_pair.mpr hlt, fun el hel _ => ?_⟩
  rcases List.mem_pair.mp hel with rfl | rfl
  · exact ⟨⟨by decide, by decide +kernel⟩, hmergeable "/usr/adm"⟩
  · exact ⟨hp, hmergeable path⟩

theorem siblingMerge_isSome (path : String) (flag : Bool)
    (h : (siblingMerge path).map (fun r => r.2.done.map Cfextra.marked) = some [false, flag]) :
    ∃ ret m, siblingMerge path = some (ret, m) ∧ m.done.map Cfextra.marked = [false, flag] := by
  obtain ⟨⟨ret, m⟩, hrun, hm⟩ := Option.map_eq_some_iff.mp h
  exact ⟨ret, m, hrun, hm⟩

/-- A directory inside of the one for the link is marked. -/
theorem pkgdbmerg_marks_iff_inside : ∃ ret m, siblingMerge "/usr/adm/log" = some (ret, m) ∧
    List.Forall₂ (fun el x => x.mstat.parentsyml2dir = true ↔
      ∃ d ∈ siblingDirs "/usr/adm/log", d.Replaces [entryText sampleLink "/usr/adm".toList] ∧
        Inside d.path el.path) (siblingDirs "/usr/adm/log") m.done := by
  obtain ⟨ret, m, hrun, -⟩ := siblingMerge_isSome "/usr/adm/log" true (by decide +kernel)
  refine ⟨ret, m, hrun, ?_⟩
  refine (pkgdbmerg_marks_iff bareSystem_plain ⟨by decide, by decide +kernel⟩ sampleLink_contents
    (siblingDirs_sorted (by decide +kernel) ⟨by decide, by decide +kernel⟩) ?_ hrun).mpr ?_
  · intro el hel
    rcases List.mem_pair.mp hel with rfl | rfl <;> rfl
  · intro el hel d hd hrep hpre hne
    have hlink : (sampleOfClass "none" 0 "/usr/adm").Replaces
        [entryText sampleLink "/usr/adm".toList] :=
      ⟨rfl, _, List.mem_singleton_self _, by decide +kernel, by decide +kernel⟩
    refine ⟨_, List.mem_cons_self, hlink, ?_⟩
    rcases List.mem_pair.mp hel with rfl | rfl
    · rcases List.mem_pair.mp hd with rfl | rfl
      · exact absurd rfl hne
      · exact absurd hpre (by decide +kernel)
    · exact ⟨"log".toList, by decide +kernel⟩

/-- A directory beside the one for the link is marked as well. -/
theorem pkgdbmerg_marks_sibling :
    ¬ ∀ (sys : System) (inst : Install) (stack : Nat → Str) (cfEnt : Cfent) (tmp : Vfp)
      (ls cs : List Str) (extlist : List Cfextra) (ret : Int) (m : Merge), sys.Plain → inst.Plain →
      ContentsFile ls cs → SortedList extlist →
      (∀ el ∈ extlist, el.mstat.parentsyml2dir = false) →
      pkgdbmerg sys inst stack cfEnt (vfpOpen (unlines (ls ++ cs))) tmp extlist = some (ret, m) →
      List.Forall₂ (fun el x => x.mstat.parentsyml2dir = true ↔
        ∃ d ∈ extlist, d.Replaces ls ∧ Inside d.path el.path) extlist m.done := by
  intro h
  obtain ⟨ret, m, hrun, hmarks⟩ := siblingMerge_isSome "/usr/adm-old" true (by decide +kernel)
  have hall := h bareSystem ⟨nul, "SUNWnew".toList, false, false⟩ (fun _ => []) zeroEntry _
    [entryText sampleLink "/usr/adm".toList] ["# end".toList] (siblingDirs "/usr/adm-old") ret m
    bareSystem_plain ⟨by decide, by decide +kernel⟩ sampleLink_contents
    (siblingDirs_sorted (by decide +kernel) ⟨by decide, by decide +kernel⟩)
    (fun el hel => by rcases List.mem_pair.mp hel with rfl | rfl <;> rfl) hrun
  obtain ⟨x, y, hdone⟩ : ∃ x y, m.done = [x, y] := List.length_eq_two.mp hall.length_eq.symm
  rw [hdone] at hall hmarks
  obtain ⟨-, hlast⟩ := List.forall₂_cons.mp hall
  have hy : y.mstat.parentsyml2dir = true := (List.cons.inj (List.cons.inj hmarks).2).1
  obtain ⟨d, hd, -, rest, hpath⟩ := (List.forall₂_cons.mp hlast).1.mp hy
  rcases List.mem_pair.mp hd with rfl | rfl
  · have htail := congrArg (List.drop 8) hpath
    rw [show (sampleOfClass "none" 0 "/usr/adm").path = "/usr/adm".toList from rfl,
      List.drop_left' (by decide)] at htail
    have hhead : some '-' = some '/' := congrArg List.head? htail
    exact absurd hhead (by decide)
  · have hlen := congrArg List.length hpath
    rw [List.length_append, List.length_cons] at hlen
    omega

end Exact

end Pkgtools
