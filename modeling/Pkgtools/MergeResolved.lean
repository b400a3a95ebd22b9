import Pkgtools.MergeAttrs
import Pkgtools.MergeSymlink
import Pkgtools.PkgMap

namespace Pkgtools
open CLib
set_option autoImplicit true

/-- A line that `putcvfpfile` writes for an entry with the path of the line. -/
structure WrittenFor (e : Cfent) (l : Str) : Prop where
  lineFor : e.LineFor (linePath l)
  writes : ∃ v w, putEntry v e = some w ∧ Appends v w (l ++ ['\n'])

section Writes
variable {sys : System} {inst : Install} {el : Cfextra} {cf e : Cfent} {ctrl : Bool} {v w : Vfp}
  {path : Str}

theorem mergeLikeEntry_lineFor (hs : sys.Plain) (hi : inst.Plain) (h : el.Mergeable path)
    (hcf : cf.LineFor path) (he : mergeLikeEntry sys inst el cf i ctrl = some e) :
    e.LineFor path := by
  have hm := likeMerg_mergeable hs h hcf inst i
  unfold mergeLikeEntry at he
  generalize likeMerg sys inst el cf i = x at hm he
  obtain ⟨res, ignore, el₁⟩ := x
  obtain ⟨⟨changed, el₂, i₂⟩, hstatus, he⟩ := Option.bind_eq_some_iff.mp he
  have hm' := likeStatus_mergeable hi hm hstatus
  rw [← Option.some.inj he]
  apply outputEntry_lineFor
  split
  · exact ⟨⟨hcf.plain.ftype, hcf.plain.pkgClass, hcf.plain.ainfo, hm'.cfEnt.plain.pinfo⟩, hcf.ftype,
      hcf.path⟩
  · exact hm'.cfEnt

theorem likeEntry_lineFor (hs : sys.Plain) (hi : inst.Plain) (h : el.Mergeable path)
    (hcf : cf.LineFor path) (he : likeEntry sys inst el cf ctrl = some e) : e.LineFor path := by
  have hdb : (dbEntry el cf).LineFor path := by
    unfold dbEntry
    split
    · exact ⟨⟨hcf.plain.ftype, hcf.plain.pkgClass, hcf.plain.ainfo, h.cfEnt.plain.pinfo⟩, hcf.ftype,
        hcf.path⟩
    · exact hcf
  unfold likeEntry at he
  dsimp only at he
  obtain ⟨i, -, he⟩ := Option.bind_eq_some_iff.mp he
  have hmarked := eptstat_lineFor hdb hi.pkginst (c := dupEntry) (by decide)
  unfold keptEntry at he
  split at he
  · obtain ⟨j, -, rfl⟩ := Option.map_eq_some_iff.mp he
    have hrm : rmRdy ≠ '\n' := by decide
    exact (eptstat_lineFor hmarked hi.pkginst hrm).modifyPinfo j fun p hp =>
      ⟨hrm, hp.pkg, hp.aclass⟩
  · exact mergeLikeEntry_lineFor hs hi (h.withMstat _) hmarked he

theorem newElement_mergeable (hs : sys.Plain) (h : el.Mergeable path) :
    (newElement sys el).Mergeable path := by
  unfold newElement
  split
  · exact setChange_mergeable hs (h.withMstat _)
  · exact h.withMstat _

theorem insertedEntry_lineFor (hs : sys.Plain) (hi : inst.Plain) (h : el.Mergeable path)
    (he : insertedEntry sys inst el ctrl = some e) : e.LineFor path := by
  have hnew := newDefaults_lineFor (newElement_mergeable hs h).cfEnt
  unfold insertedEntry at he
  split at he
  · cases he
  · dsimp only at he
    split at he
    · cases he
    · rw [← Option.some.inj he]
      apply outputEntry_lineFor
      refine Cfent.LineFor.modifyPinfo ?_ _ fun p hp => ⟨?_, hp.pkg, hp.aclass⟩
      · split
        · exact eptstat_lineFor hnew hi.pkginst (by decide)
        · refine ⟨⟨hnew.plain.ftype, hnew.plain.pkgClass, hnew.plain.ainfo, ?_⟩, hnew.ftype,
            hnew.path⟩
          intro p hp
          rw [List.mem_singleton.mp hp]
          exact ⟨emptyPinfo_plain.status, hi.pkginst, oneLine_nil⟩
      · dsimp only
        split
        · decide
        · split
          · exact hi.dbst
          · split <;> decide

theorem MadeFrom.lineFor (hs : sys.Plain) (hi : inst.Plain) (hc : Contents ls cs)
    (hm : el.Mergeable el.path) (h : MadeFrom sys inst ls el ctrl e) : e.LineFor el.path := by
  have hadmin := adminSetuid_mergeable hm inst
  cases h with
  | new inside hls he => exact insertedEntry_lineFor hs hi (hadmin.withMstat _) he
  | like inside l hl hpath ept cf hparse he =>
    have hwf := hc.entry l hl
    have hparsed := parseLine_parsed (hc.file.entry l hl).oneLine hwf.head hparse
    rw [copyPath_of_le hwf.length, hpath] at hparsed
    exact likeEntry_lineFor hs hi (hadmin.withMstat _) hparsed.lineFor he

theorem putEntry_writes (hp : IsPath path) (h : e.LineFor path) (hput : putEntry v e = some w) :
    ∃ l, IsEntry l ∧ Appends v w (l ++ ['\n']) ∧ WrittenFor e l := by
  obtain ⟨hr, l, hl, hpath, happ⟩ := putcvfpfile_writes hp h v
  have hw : (putcvfpfile e v).2 = w := by
    unfold putEntry at hput
    simp only [hr, ne_eq, not_true_eq_false, if_false] at hput
    exact Option.some.inj hput
  rw [hw] at happ
  exact ⟨l, hl, happ, by rwa [hpath], v, w, hput, happ⟩

end Writes

section Lines
variable {sys : System} {inst : Install} {ls cs before rest out names lines : List Str}
  {start : Vfp}
  {m m' : Merge} {el x : Cfextra} {extlist todo : List Cfextra} {es : List (Str × Cfent)}

theorem Progress.copies (hc : Contents ls cs)
    (h : Progress ls cs extlist start m before rest out names) (heof : m.eocontents = false)
    (hp : IsPath el.path) (hpath : el.cfEnt.path = some el.path) (stack : Str) :
    ∃ A, (∀ l ∈ A, l ∈ ls) ∧ Appends m.tmp
      ((srchcfile stack m.cfEnt el.cfEnt.path m.map (some m.tmp)).tmp.getD m.tmp) (unlines A) := by
  have hfile := hc.file
  rw [h.lines] at hfile
  have hsearch := srchcfile_outcome hfile hc.comments (h.reads heof) hp.oneLine.2 hp.absolute stack
    m.cfEnt m.tmp
  rw [hpath]
  have hrest (A : List Str) (hA : ∀ l ∈ A, l ∈ rest) : ∀ l ∈ A, l ∈ ls := by
    intro l hl
    rw [h.lines]
    exact List.mem_append_right _ (hA l hl)
  cases hsearch with
  | same A l B hr hA hl hfound =>
    have hmem : l ∈ ls := by
      rw [h.lines, hr]
      simp
    obtain ⟨e, he⟩ := (hc.entry l hmem).parses m.cfEnt
    obtain ⟨t, ht, hres⟩ := hfound e he
    rw [hres]
    refine ⟨A, hrest A fun x hx => ?_, ht⟩
    rw [hr]
    exact List.mem_append_left _ hx
  | greater A l B hr hA hl t ht e hfound =>
    rw [hfound]
    refine ⟨A, hrest A fun x hx => ?_, ht⟩
    rw [hr]
    exact List.mem_append_left _ hx
  | atEnd hls t ht hret htmp =>
    rw [htmp]
    exact ⟨rest, hrest rest fun _ hx => hx, ht⟩

/-- Entry lines are those of the database or of the entries, and each of the entries has one. -/
structure WrittenLines (ls : List Str) (es : List (Str × Cfent)) (A : List Str) : Prop where
  lines : ∀ l ∈ A, l ∈ ls ∨ ∃ p ∈ es, WrittenFor p.2 l
  entries : ∀ p ∈ es, ∃ l ∈ A, WrittenFor p.2 l

theorem WrittenLines.append {es₁ es₂ : List (Str × Cfent)} {A B : List Str}
    (h₁ : WrittenLines ls es₁ A) (h₂ : WrittenLines ls es₂ B) :
    WrittenLines ls (es₁ ++ es₂) (A ++ B) := by
  constructor
  · intro l hl
    rcases List.mem_append.mp hl with hl | hl
    · exact (h₁.lines l hl).imp_right fun ⟨p, hp, hw⟩ => ⟨p, List.mem_append_left _ hp, hw⟩
    · exact (h₂.lines l hl).imp_right fun ⟨p, hp, hw⟩ => ⟨p, List.mem_append_right _ hp, hw⟩
  · intro p hp
    rcases List.mem_append.mp hp with hp | hp
    · obtain ⟨l, hl, hw⟩ := h₁.entries p hp
      exact ⟨l, List.mem_append_left _ hl, hw⟩
    · obtain ⟨l, hl, hw⟩ := h₂.entries p hp
      exact ⟨l, List.mem_append_right _ hl, hw⟩

theorem writtenLines_copied {A : List Str} (hA : ∀ l ∈ A, l ∈ ls) : WrittenLines ls [] A :=
  ⟨fun l hl => .inl (hA l hl), fun _ hp => absurd hp List.not_mem_nil⟩

theorem writtenLines_entry {e : Cfent} {l : Str} (hw : WrittenFor e l) (path : Str) :
    WrittenLines ls [(path, e)] [l] := by
  constructor
  · intro x hx
    rw [List.mem_singleton.mp hx]
    exact .inr ⟨(path, e), List.mem_singleton_self _, hw⟩
  · intro p hp
    rw [List.mem_singleton.mp hp]
    exact ⟨l, List.mem_singleton_self _, hw⟩

theorem Progress.mergeEnt_lines (hc : Contents ls cs) (hs : sys.Plain) (hi : inst.Plain)
    (h : Progress ls cs extlist start m before rest out names)
    (hm : m.todo = el.vary none inside :: todo)
    (hmeta : el.isMetafile = false)
    (hstep : Merge.mergeEnt sys inst stack { m with todo := todo } (el.vary none inside) =
      some (.ok m')) :
    ∃ A, Appends m.tmp m'.tmp (unlines A) ∧ (∀ l ∈ A, IsEntry l) ∧ WrittenLines ls
      ((m.entry sys inst stack (el.vary none inside)).map fun e => (el.path, e)).toList A := by
  obtain ⟨hp, hel⟩ := h.todo.mergeable (el.vary none inside)
    (by rw [hm]; exact List.mem_cons_self) hmeta
  have hp' : IsPath el.path := hp
  have hel' : el.Mergeable el.path := hel.withMstat el.mstat
  obtain ⟨t, ht, hput⟩ := Merge.mergeEnt_tmp hstep
  have hcopy : ∃ A, (∀ l ∈ A, l ∈ ls) ∧ Appends m.tmp t (unlines A) := by
    rcases ht with rfl | ⟨heof, rfl⟩
    · exact ⟨[], by simp, Appends.refl _⟩
    · exact h.copies hc heof hp hel.cfEnt.path stack
  obtain ⟨A, hA, happ⟩ := hcopy
  have hentry : ({ m with todo := todo } : Merge).entry sys inst stack (el.vary none inside) =
    m.entry sys inst stack (el.vary none inside) := rfl
  rw [hentry] at hput
  cases he : m.entry sys inst stack (el.vary none inside) with
  | none =>
    rw [he] at hput
    rw [← Option.some.inj hput]
    exact ⟨A, happ, fun l hl => hc.file.entry l (hA l hl), writtenLines_copied hA⟩
  | some e =>
    rw [he] at hput
    have hfor := (Merge.entry_from hc h hm hmeta hstep he).lineFor hs hi hc hel'
    obtain ⟨l, hl, hline, hw⟩ := putEntry_writes hp' hfor hput
    refine ⟨A ++ [l], ?_, fun x hx => ?_, ?_⟩
    · rw [unlines_append, unlines_cons, unlines_nil]
      exact happ.trans hline
    · rcases List.mem_append.mp hx with hx | hx
      · exact hc.file.entry x (hA x hx)
      · rw [List.mem_singleton.mp hx]
        exact hl
    · exact (writtenLines_copied hA).append (writtenLines_entry hw el.path)

/-- A round of the loop adds lines of the database and the line of its entry, if it has one. -/
theorem Progress.step_lines (hc : Contents ls cs) (hs : sys.Plain) (hi : inst.Plain)
    (h : Progress ls cs extlist start m before rest out names) (hp : Pending sys extlist m)
    (hm : m.todo = x :: todo) (hstep : m.step sys inst stack x todo = some (.ok m')) :
    ∃ A, Appends m.tmp m'.tmp (unlines A) ∧ (∀ l ∈ A, IsEntry l) ∧ WrittenLines ls
      ((if x.isMetafile ∨ (todo.head?.any fun next => next.path = x.path) then none
        else m.entry sys inst stack x).map fun e => (x.path, e)).toList A := by
  unfold Merge.step at hstep
  dsimp only at hstep
  split at hstep
  · rename_i hskip
    rw [← Except.ok.inj (Option.some.inj hstep), if_pos hskip]
    exact ⟨[], Appends.refl _, by simp, writtenLines_copied (by simp)⟩
  · rename_i hskip
    rw [if_neg hskip]
    have hmeta : x.isMetafile = false := by simpa using fun hx => hskip (.inl hx)
    obtain ⟨el, -, inside, rfl⟩ := hp.elements x (by rw [hm]; exact List.mem_cons_self)
    exact h.mergeEnt_lines hc hs hi hm hmeta hstep

theorem Progress.run_lines (hc : Contents ls cs) (hs : sys.Plain) (hi : inst.Plain) (n : Nat)
    (h : Progress ls cs extlist start m before rest out names) (hp : Pending sys extlist m)
    (hn : m.todo.length = n) (hrun : m.run sys inst stack n = some (ret, m')) (hret : 0 ≤ ret) :
    ∃ A, (Appends m.tmp m'.tmp (unlines A) ∨ Appends m.tmp m'.tmp (unlines (A ++ cs))) ∧
      (∀ l ∈ A, IsEntry l) ∧ WrittenLines ls (m.entries sys inst stack n) A := by
  induction n generalizing m before rest out names with
  | zero =>
    have hfinish := h.finish_copies hc (stack 0)
    rw [show m.finish (stack 0) = (ret, m') from Option.some.inj hrun] at hfinish
    have hrest : ∀ l ∈ rest, l ∈ ls := by
      intro l hl
      rw [h.lines]
      exact List.mem_append_right _ hl
    exact ⟨rest, hfinish, fun l hl => hc.file.entry l (hrest l hl), writtenLines_copied hrest⟩
  | succ n ih =>
    rw [Merge.run] at hrun
    cases hm : m.todo with
    | nil =>
      rw [hm] at hn
      cases hn
    | cons x todo =>
      rw [hm] at hrun
      obtain ⟨r, hstep, hrun⟩ := Option.bind_eq_some_iff.mp hrun
      cases r with
      | error m₁ =>
        obtain ⟨rfl, -⟩ := Prod.mk.inj (Option.some.inj hrun)
        exact absurd hret (by decide)
      | ok m₁ =>
        obtain ⟨hlen, _, _, _, _, hprogress⟩ := h.step hc hs hi hm hstep
        rw [hm, List.length_cons] at hn
        obtain ⟨A₁, happ₁, hA₁, hlines₁⟩ := h.step_lines hc hs hi hp hm hstep
        obtain ⟨A₂, happ₂, hA₂, hlines₂⟩ := ih hprogress (hp.step hc h hm hstep) (by omega) hrun
        refine ⟨A₁ ++ A₂, ?_, fun l hl => ?_, ?_⟩
        · rw [List.append_assoc, unlines_append, unlines_append]
          exact happ₂.imp happ₁.trans happ₁.trans
        · exact (List.mem_append.mp hl).elim (hA₁ l) (hA₂ l)
        · simp only [Merge.entries, hm, hstep]
          exact hlines₁.append hlines₂

/-- The entries in the file that is written are lines of the database and those of the merged
entries. -/
theorem pkgdbmerg_lines (hs : sys.Plain) (hi : inst.Plain) (hdb : ContentsFile ls cs)
    (hext : SortedList extlist) (htmp : tmp.Wf) (hcurr : tmp.curr = 0)
    (hrun : pkgdbmerg sys inst stack cfEnt (vfpOpen (unlines (ls ++ cs))) tmp extlist =
      some (ret, m))
    (hret : 0 ≤ ret) (hroom : m.tmp.HasRoom) :
    WrittenLines ls (mergedEntries sys inst stack cfEnt (vfpOpen (unlines (ls ++ cs))) tmp extlist)
      (entryLines m.tmp.text) := by
  have hc := hdb.contents
  have hstart := progress_start hc hext cfEnt tmp
  have hpending : Pending sys extlist ⟨vfpRewind (vfpOpen (unlines (ls ++ cs))), vfpRewind tmp,
      { cfEnt with pinfo := [] }, [], extlist, false, false, 0, 0⟩ :=
    ⟨fun x hx => ⟨x, hx, x.mstat.parentsyml2dir, rfl⟩, nofun⟩
  obtain ⟨A, happ, hA, hlines⟩ := hstart.run_lines hc hs hi _ hpending rfl hrun hret
  have hempty : tmp.text = [] := by
    rw [Vfp.text, hcurr]
    rfl
  obtain ⟨hout, hboth⟩ := entryLines_unlines hA
    fun c hcc => ⟨(hdb.comment c hcc).1.oneLine, (hdb.comment c hcc).2⟩
  have hentries : entryLines m.tmp.text = A := by
    dsimp only at happ
    rw [vfpRewind_wf htmp hcurr] at happ
    rcases happ with happ | happ
    · rwa [happ.text htmp hroom, hempty, List.nil_append]
    · rwa [happ.text htmp hroom, hempty, List.nil_append]
  rw [hentries]
  exact hlines

end Lines

/-- What a round of the loop hands to `putcvfpfile` for an element: a new entry, unless it is left
out, or one that is merged with the line of its path. -/
inductive RoundOf (sys : System) (inst : Install) (ls : List Str) (extlist : List Cfextra)
    (el : Cfextra) : Option Cfent → Prop where
  | new (inside ctrl : Bool) (hinside : inside = true ↔ MarkedBy ls extlist el)
      (hls : ∀ l ∈ ls, linePath l ≠ el.path) :
      RoundOf sys inst ls extlist el
        (insertedEntry sys inst ((adminSetuid inst el).vary none inside) ctrl)
  | like (inside ctrl : Bool) (l : Str) (hl : l ∈ ls) (hpath : linePath l = el.path)
      (ept cf : Cfent) (hparse : parseLine (initEntry ept) l = some (.ok cf)) (e : Cfent)
      (he : likeEntry sys inst ((overwriting cf (adminSetuid inst el)).vary none inside) cf ctrl =
        some e) : RoundOf sys inst ls extlist el (some e)

/-- The rounds for the elements of a list, with the entries that they hand to `putcvfpfile`. -/
inductive Rounds (sys : System) (inst : Install) (ls : List Str) (extlist : List Cfextra) :
    List Cfextra → List (Str × Cfent) → Prop where
  | nil : Rounds sys inst ls extlist [] []
  | skip {el : Cfextra} {els : List Cfextra} {es : List (Str × Cfent)}
      (hmeta : el.isMetafile = true) (h : Rounds sys inst ls extlist els es) :
      Rounds sys inst ls extlist (el :: els) es
  | merge {el : Cfextra} {r : Option Cfent} {els : List Cfextra} {es : List (Str × Cfent)}
      (hmeta : el.isMetafile = false) (hr : RoundOf sys inst ls extlist el r)
      (h : Rounds sys inst ls extlist els es) :
      Rounds sys inst ls extlist (el :: els) ((r.map fun e => (el.path, e)).toList ++ es)

section Rounds
variable {sys : System} {inst : Install} {ls cs before rest out names : List Str} {start : Vfp}
  {m m' : Merge} {el x : Cfextra} {extlist front back todo : List Cfextra}

theorem markedBy_append_of_le {ds : List Cfextra} (h : ∀ y ∈ ds, el.path ≤ y.path) :
    MarkedBy ls (front ++ ds) el ↔ MarkedBy ls front el := by
  constructor
  · rintro ⟨d, hd, hrep, hpre, hne⟩
    rcases List.mem_append.mp hd with hd | hd
    · exact ⟨d, hd, hrep, hpre, hne⟩
    · have hlen : el.path.length ≠ d.path.length := fun hl => hne (hpre.eq_of_length hl.symm)
      exact absurd (h d hd) (not_le_of_gt (lt_of_prefix_of_length_ne hpre hlen))
  · rintro ⟨d, hd, hrest⟩
    exact ⟨d, List.mem_append_left _ hd, hrest⟩

/-- An element that meets an entry of the database is never left out. -/
theorem Merge.mergeEnt_entry (h : m.mergeEnt sys inst stack el = some (.ok m'))
    (heof : m.eocontents = false)
    (hone : (srchcfile stack m.cfEnt el.cfEnt.path m.map (some m.tmp)).ret = 1) :
    ∃ e, m.entry sys inst stack el = some e := by
  have hpath : (adminSetuid inst el).cfEnt.path = el.cfEnt.path := rfl
  unfold Merge.mergeEnt at h
  unfold Merge.entry Cfextra.quick
  dsimp only at h ⊢
  rw [hpath] at h ⊢
  rw [if_neg (by rw [heof]; decide)] at h ⊢
  generalize srchcfile stack m.cfEnt el.cfEnt.path m.map (some m.tmp) = found at h hone ⊢
  rw [hone] at h ⊢
  rw [if_neg (by decide), if_pos rfl] at h ⊢
  obtain ⟨r, hr, -⟩ := Option.bind_eq_some_iff.mp h
  have hput := doLikeEnt_tmp sys inst (found.tmp.getD m.tmp)
    (overwriting found.ept (adminSetuid inst el)) found.ept
    (m.assumeOk || inst.dbst == nul && sys.clDvfy el.cfEnt.pkgClassIdx == qkVerify)
  have hr' : doLikeEnt sys inst (found.tmp.getD m.tmp)
      (overwriting found.ept (adminSetuid inst el)) found.ept
      (m.assumeOk || inst.dbst == nul && sys.clDvfy el.cfEnt.pkgClassIdx == qkVerify) = some r := hr
  rw [hr'] at hput
  obtain ⟨e, he, -⟩ := Option.bind_eq_some_iff.mp hput.symm
  exact ⟨e, he⟩

theorem Merge.entry_new (h : Merge.mergeEnt sys inst stack { m with todo := todo } el =
    some (.ok m'))
    (hfound : m.eocontents ∨ (srchcfile stack m.cfEnt el.cfEnt.path m.map (some m.tmp)).ret ≠ 1) :
    m.entry sys inst stack el = insertedEntry sys inst (adminSetuid inst el)
      (m.assumeOk || inst.dbst == nul && el.quick sys) := by
  have hpath : (adminSetuid inst el).cfEnt.path = el.cfEnt.path := rfl
  unfold Merge.mergeEnt at h
  unfold Merge.entry
  dsimp only at h ⊢
  rw [hpath] at h ⊢
  split
  · rfl
  · rename_i heof
    rw [if_neg heof] at h
    split at h
    · cases h
    · rename_i hret
      rw [if_neg hret, if_neg (hfound.resolve_left heof)]

theorem Merge.entry_round (hc : Contents ls cs)
    (h : Progress ls cs extlist start m before rest out names)
    (hm : m.todo = el.vary none inside :: todo) (hmeta : el.isMetafile = false)
    (hinside : inside = true ↔ MarkedBy ls extlist el)
    (hstep : Merge.mergeEnt sys inst stack { m with todo := todo } (el.vary none inside) =
      some (.ok m')) :
    RoundOf sys inst ls extlist el (m.entry sys inst stack (el.vary none inside)) := by
  have hmem : el.vary none inside ∈ m.todo := by
    rw [hm]
    exact List.mem_cons_self
  have hpath' : (el.vary none inside).cfEnt.path = some (el.vary none inside).path :=
    (h.todo.mergeable (el.vary none inside) hmem hmeta).2.cfEnt.path
  have hahead := (h.ahead (el.vary none inside) hmem).1
  cases h.mergeCase hc hm hmeta hstep with
  | new A B t ctrl r hrest hA hB ht hfound hdo htmp htodo hreads hended =>
    have hls : ∀ l ∈ ls, linePath l ≠ el.path := by
      intro l hl
      rw [h.lines, hrest] at hl
      rcases List.mem_append.mp hl with hl | hl
      · exact ne_of_lt (hahead l hl)
      · rcases List.mem_append.mp hl with hl | hl
        · exact ne_of_lt (hA l hl)
        · exact ne_of_gt (hB l hl)
    rw [← hpath'] at hfound
    rw [Merge.entry_new hstep hfound]
    exact .new inside _ hinside hls
  | like A l B t ctrl r cf mstat hrest hA hl ht hparse hfound hshared hdo htmp htodo hreads
      hended =>
    obtain ⟨heof, hone, hept⟩ := hfound
    have hls : l ∈ ls := by
      rw [h.lines, hrest]
      simp
    rw [← hpath'] at hone
    obtain ⟨e, he⟩ := Merge.mergeEnt_entry hstep heof hone
    have he' : m.entry sys inst stack (el.vary none inside) = some e := he
    rw [he']
    cases Merge.entry_from hc h hm hmeta hstep he' with
    | new inside' hnew _ => exact absurd hl (hnew l hls)
    | like inside' l' hl' hpath' ept cf' hparse' he₂ =>
      exact .like inside' _ l' hl' hpath' ept cf' hparse' e he₂

/-- The next element to do is that of the extlist, marked if it is to be. -/
theorem Marks.vary (hmarks : Marks ls front (el :: back) m) (hp : Pending sys extlist m)
    (hm : m.todo = x :: todo) (hext : extlist = front ++ el :: back)
    (hsorted : extlist.Pairwise fun a b => a.path < b.path) :
    ∃ inside, x = el.vary none inside ∧ (inside = true ↔ MarkedBy ls extlist el) := by
  have hahead := hmarks.ahead
  rw [hm] at hahead
  obtain ⟨⟨hent, hmarked⟩, -⟩ := List.forall₂_cons.mp hahead
  obtain ⟨el', hel', inside, rfl⟩ := hp.elements x (by rw [hm]; exact List.mem_cons_self)
  have hel : el ∈ extlist := by
    rw [hext]
    simp
  have hpath : el'.path = el.path := congrArg (fun e => e.path.getD []) hent
  obtain rfl := eq_of_sorted hsorted hel' hel hpath
  refine ⟨inside, rfl, hmarked.trans ?_⟩
  rw [hext] at hsorted ⊢
  refine (markedBy_append_of_le fun y hy => ?_).symm
  rcases List.mem_cons.mp hy with rfl | hy
  · exact le_rfl
  · exact le_of_lt ((List.pairwise_cons.mp (List.pairwise_append.mp hsorted).2.1).1 y hy)

/-- The entries of a run are those of its first round, if it has any, and of the rounds behind. -/
theorem Merge.entries_cons {n : Nat} (hm : m.todo = x :: todo)
    (hstep : m.step sys inst (stack (n + 1)) x todo = some (.ok m₁)) :
    m.entries sys inst stack (n + 1) =
      ((if x.isMetafile ∨ (todo.head?.any fun next => next.path = x.path) then none
        else m.entry sys inst (stack (n + 1)) x).map fun e => (x.path, e)).toList ++
        m₁.entries sys inst stack n := by
  rw [Merge.entries, hm]
  dsimp only
  rw [hstep]

/-- In a run, every element has its round. -/
theorem Merge.entries_rounds (hc : Contents ls cs) (hs : sys.Plain) (hi : inst.Plain) {n : Nat}
    (hext : extlist = front ++ back) (hsorted : extlist.Pairwise fun a b => a.path < b.path)
    (h : Progress ls cs extlist start m before rest out names) (hp : Pending sys extlist m)
    (hmarks : Marks ls front back m) (hn : m.todo.length = n)
    (hrun : m.run sys inst stack n = some (ret, m')) :
    Rounds sys inst ls extlist back (m.entries sys inst stack n) := by
  induction n generalizing m front back before rest out names with
  | zero =>
    have hback : back = [] := by
      have hlen := hmarks.ahead.length_eq
      rw [hn] at hlen
      exact List.eq_nil_of_length_eq_zero hlen
    rw [hback]
    exact .nil
  | succ n ih =>
    rw [Merge.run] at hrun
    split at hrun
    · rename_i hnil
      rw [hnil] at hn
      cases hn
    · rename_i x todo hm
      obtain ⟨r, hstep, hrun⟩ := Option.bind_eq_some_iff.mp hrun
      cases r with
      | error m₁ => exact absurd hstep (h.step_ok hc hm)
      | ok m₁ =>
        obtain ⟨hlen, _, _, _, _, hnext⟩ := h.step hc hs hi hm hstep
        have hpending := hp.step hc h hm hstep
        rw [hm, List.length_cons] at hn
        cases back with
        | nil =>
          have hahead := hmarks.ahead
          rw [hm] at hahead
          cases hahead
        | cons el back =>
          have hmarks' := hmarks.step hc h (hext ▸ hsorted) hm hstep
          have hrounds := ih (hext.trans (List.append_cons front el back)) hnext hpending hmarks'
            (by omega) hrun
          obtain ⟨inside, rfl, hinside⟩ := hmarks.vary hp hm hext hsorted
          have hdup := next_path_ne (hm ▸ h.todo.sorted)
          rw [Merge.entries_cons hm hstep]
          unfold Merge.step at hstep
          dsimp only at hstep
          rw [hdup] at hstep ⊢
          by_cases hmeta : el.isMetafile
          · rw [if_pos (.inl hmeta)]
            exact .skip hmeta hrounds
          · have hmeta' : el.isMetafile = false := by simpa using hmeta
            have hskip : ¬ ((el.vary none inside).isMetafile = true ∨ false = true) :=
              not_or.mpr ⟨hmeta, by decide⟩
            rw [if_neg hskip] at hstep ⊢
            exact .merge hmeta' (Merge.entry_round hc h hm hmeta' hinside hstep) hrounds

end Rounds

/-- An entry that is read from the line has known attributes, if its type has any. -/
def ResolvedLine (l : Str) : Prop := ∀ ept e, parseLine (initEntry ept) l = some (.ok e) →
    e.Resolved

/-- The attributes of an element can be found out, with the mode that the administration file leaves
it: as those of a new element, or where it meets the line of its path. -/
structure Cfextra.Resolvable (sys : System) (inst : Install) (ls : List Str)
    (extlist : List Cfextra) (el : Cfextra) : Prop where
  new : (∀ l ∈ ls, linePath l ≠ el.path) →
    (adminSetuid inst el).ResolvableNew sys inst (MarkedBy ls extlist el)
  like : ∀ l ∈ ls, linePath l = el.path → ∀ ept cf, parseLine (initEntry ept) l = some (.ok cf) →
    (adminSetuid inst el).ResolvableLike sys inst cf

/-- A device with numbers of its own does not meet an entry of unknown type, which is left with the
numbers of another entry. -/
def Cfextra.MeetsOwnNumbers (ls : List Str) (el : Cfextra) : Prop :=
  isDevice el.cfEnt.ftype → (∃ l ∈ ls, linePath l = el.path ∧ lineType l = some '?') →
    el.cfEnt.ainfo.major = badMajor ∧ el.cfEnt.ainfo.minor = badMinor

section Resolved
variable {sys : System} {inst : Install} {ls cs : List Str} {el x : Cfextra}
  {extlist els : List Cfextra}
  {cf cf' : Cfent} {r : Option Cfent} {es : List (Str × Cfent)}

theorem resolvableNew_congr {p q : Prop} (h : p ↔ q) :
    el.ResolvableNew sys inst p ↔ el.ResolvableNew sys inst q := by
  rw [Cfextra.ResolvableNew, Cfextra.ResolvableNew, h]

theorem resolvableLike_vary (el : Cfextra) (cf : Cfent) (inside : Bool) :
    ((overwriting cf el).vary none inside).ResolvableLike sys inst cf' ↔
      el.ResolvableLike sys inst cf' := by
  have hent : ((overwriting cf el).vary none inside).cfEnt = el.cfEnt := rfl
  have hshared : ((overwriting cf el).vary none inside).mstat.shared = el.mstat.shared := rfl
  have hdb : dbEntry ((overwriting cf el).vary none inside) cf' = dbEntry el cf' := rfl
  have htakes : ((overwriting cf el).vary none inside).TakesAll sys ↔ el.TakesAll sys :=
    ⟨fun h => h.congr rfl rfl rfl rfl, fun h => h.congr rfl rfl rfl rfl⟩
  rw [Cfextra.ResolvableLike, Cfextra.ResolvableLike, hdb, conflicts, conflicts, hent, hshared,
    htakes]

/-- The numbers that an entry is left with make no difference to its conflicts. -/
theorem resolvableLike_twin (h : DeviceTwin cf cf') :
    el.ResolvableLike sys inst cf' ↔ el.ResolvableLike sys inst cf := by
  have hdb := h.dbEntry el el.mstat.parentsyml2dir
  have hconf : conflicts inst el (dbEntry el cf') = conflicts inst el (dbEntry el cf) := by
    have hpinfo : (dbEntry el cf').pinfo = (dbEntry el cf).pinfo := hdb.pinfo
    rw [conflicts, conflicts, othersToo, othersToo, hpinfo]
  rw [Cfextra.ResolvableLike, Cfextra.ResolvableLike, h.ftype, hconf]

theorem entry_of_line (hc : Contents ls cs) (hres : ∀ l ∈ ls, ResolvedLine l) (hl : l ∈ ls)
    (hparse : parseLine (initEntry ept) l = some (.ok cf)) :
    cf.Resolved ∧ cf.OfType ∧ isFtype cf.ftype ∧ lineType l = some cf.ftype := by
  have hwf := hc.entry l hl
  have hone := (hc.file.entry l hl).oneLine
  exact ⟨hres l hl ept cf hparse, parseLine_ofType hone hwf.head hparse,
    (parseLine_parsed hone hwf.head hparse).ftype, lineType_of_parse hwf.head hwf hparse⟩

theorem hasAttrs_inserted (he : insertedEntry sys inst el ctrl = some e) (h : hasAttrs e.ftype) :
    hasAttrs el.cfEnt.ftype := by
  have hftype : e.ftype = (newElement sys el).cfEnt.ftype :=
    congrArg Prod.fst (insertedEntry_attrs he)
  rwa [hftype, newElement_ftype] at h

/-- What a round writes has known attributes if they can be found out. -/
theorem RoundOf.resolved (hdbst : inst.dbst = nul) (hc : Contents ls cs)
    (hres : ∀ l ∈ ls, ResolvedLine l) (hr : RoundOf sys inst ls extlist el r)
    (hok : hasAttrs el.cfEnt.ftype → el.Resolvable sys inst ls extlist) :
    ∀ e, r = some e → e.Resolved := by
  cases hr with
  | new inside ctrl hinside hls =>
    intro e he ha
    have hattrs : hasAttrs ((adminSetuid inst el).vary none inside).cfEnt.ftype :=
      hasAttrs_inserted he ha
    have hnew := (resolvableNew_congr hinside).mpr ((hok hattrs).new hls)
    exact (insertedEntry_resolved_iff hattrs).mpr hnew e he ha
  | like inside ctrl l hl hpath ept cf hparse e he =>
    intro e' he'
    obtain rfl := Option.some.inj he'
    obtain ⟨hcf, hof, hft, -⟩ := entry_of_line hc hres hl hparse
    refine likeEntry_resolved_of hdbst hcf hof hft (fun ha => ?_) he
    exact (resolvableLike_vary _ cf inside).mpr ((hok ha).like l hl hpath ept cf hparse)

theorem RoundOf.resolvable (hdbst : inst.dbst = nul) (hc : Contents ls cs)
    (hres : ∀ l ∈ ls, ResolvedLine l) (hr : RoundOf sys inst ls extlist el r)
    (hnum : el.MeetsOwnNumbers ls) (ha : hasAttrs el.cfEnt.ftype)
    (hknown : ∀ e, r = some e → e.Resolved) : el.Resolvable sys inst ls extlist := by
  cases hr with
  | new inside ctrl hinside hls =>
    refine ⟨fun _ => (resolvableNew_congr hinside).mp ?_, fun l hl hpath => absurd hpath (hls l hl)⟩
    have hattrs : hasAttrs ((adminSetuid inst el).vary none inside).cfEnt.ftype := ha
    exact (insertedEntry_resolved_iff hattrs).mp hknown
  | like inside ctrl l hl hpath ept cf hparse e he =>
    refine ⟨fun hnew => absurd hpath (hnew l hl), fun l' hl' hpath' ept' cf' hparse' => ?_⟩
    obtain ⟨hcf, hof, hft, htype⟩ := entry_of_line hc hres hl hparse
    obtain rfl := eq_of_sorted hc.file.sorted hl' hl (hpath'.trans hpath.symm)
    have htwin := parseLine_deviceTwin (hc.entry l' hl').head hparse hparse'
    refine (resolvableLike_twin htwin).mpr ((resolvableLike_vary _ cf inside).mp ?_)
    have hattrs : hasAttrs ((overwriting cf (adminSetuid inst el)).vary none inside).cfEnt.ftype :=
      ha
    refine (likeEntry_resolved_iff hdbst hcf hof hft hattrs (fun hany hdev => ?_) he).mp
      (hknown e rfl)
    exact hnum hdev ⟨l', hl, hpath, hany ▸ htype⟩

theorem Rounds.resolved (hdbst : inst.dbst = nul) (hc : Contents ls cs)
    (hres : ∀ l ∈ ls, ResolvedLine l) (h : Rounds sys inst ls extlist els es)
    (hok : ∀ el ∈ els, el.isMetafile = false → hasAttrs el.cfEnt.ftype →
      el.Resolvable sys inst ls extlist) : ∀ p ∈ es, p.2.Resolved := by
  induction h with
  | nil => exact fun p hp => absurd hp List.not_mem_nil
  | skip hmeta h ih => exact ih fun el hel => hok el (List.mem_cons_of_mem _ hel)
  | @merge el r els es hmeta hr h ih =>
    intro p hp
    rcases List.mem_append.mp hp with hp | hp
    · obtain ⟨e, rfl, rfl⟩ := Option.map_eq_some_iff.mp (Option.mem_toList.mp hp)
      exact hr.resolved hdbst hc hres (hok el List.mem_cons_self hmeta) e rfl
    · exact ih (fun el hel => hok el (List.mem_cons_of_mem _ hel)) p hp

theorem Rounds.resolvable (hdbst : inst.dbst = nul) (hc : Contents ls cs)
    (hres : ∀ l ∈ ls, ResolvedLine l) (h : Rounds sys inst ls extlist els es)
    (hnum : ∀ el ∈ els, el.MeetsOwnNumbers ls) (hknown : ∀ p ∈ es, p.2.Resolved) :
    ∀ el ∈ els, el.isMetafile = false → hasAttrs el.cfEnt.ftype →
      el.Resolvable sys inst ls extlist := by
  induction h with
  | nil => exact fun el hel => absurd hel List.not_mem_nil
  | skip hmeta h ih =>
    intro el hel hmeta'
    rcases List.mem_cons.mp hel with rfl | hel
    · rw [hmeta] at hmeta'
      cases hmeta'
    · exact ih (fun el hel => hnum el (List.mem_cons_of_mem _ hel)) hknown el hel hmeta'
  | @merge el₀ r els es hmeta hr h ih =>
    intro el hel hmeta' ha
    rcases List.mem_cons.mp hel with rfl | hel
    · refine hr.resolvable hdbst hc hres (hnum el List.mem_cons_self) ha fun e he => ?_
      refine hknown (el.path, e) (List.mem_append_left _ ?_)
      rw [he]
      exact List.mem_singleton_self _
    · exact ih (fun el hel => hnum el (List.mem_cons_of_mem _ hel))
        (fun p hp => hknown p (List.mem_append_right _ hp)) el hel hmeta' ha

theorem pkgdbmerg_rounds (hs : sys.Plain) (hi : inst.Plain) (hdb : ContentsFile ls cs)
    (hext : SortedList extlist) (hclear : ∀ el ∈ extlist, el.mstat.parentsyml2dir = false)
    (hrun : pkgdbmerg sys inst stack cfEnt (vfpOpen (unlines (ls ++ cs))) tmp extlist =
      some (ret, m)) :
    Rounds sys inst ls extlist extlist
      (mergedEntries sys inst stack cfEnt (vfpOpen (unlines (ls ++ cs))) tmp extlist) := by
  have hstart := progress_start hdb.contents hext cfEnt tmp
  refine Merge.entries_rounds hdb.contents hs hi (List.nil_append extlist).symm hext.sorted hstart
    ⟨fun x hx => ⟨x, hx, x.mstat.parentsyml2dir, rfl⟩,
      fun h => absurd h Bool.false_ne_true⟩ ?_ rfl hrun
  refine ⟨.nil, List.forall₂_same.mpr fun el hel => ⟨rfl, ?_⟩⟩
  rw [Cfextra.marked, hclear el hel]
  refine iff_of_false (by decide) ?_
  rintro ⟨d, hd, -⟩
  exact absurd hd List.not_mem_nil

end Resolved

def sampleMapDir (mode : Nat) (owner group path : String) : Cfextra :=
  ⟨⟨1, 'd', "none".toList, -1, some path.toList,
      ⟨none, mode, owner.toList, group.toList, -1, -1⟩, ⟨-1, -1, -1⟩, 0, []⟩,
    ⟨false, false, false, false, false, false, false, false, false, false, false, false⟩,
      path.toList,
    path.toList, none⟩

/-- A directory that is not in the database, and one for a path that is a symbolic link there. -/
def sampleMapDirs (mode₁ mode₂ : Nat) : List Cfextra :=
  [sampleMapDir mode₁ "?" "?" "/opt", sampleMapDir mode₂ "root" "sys" "/usr/adm"]

def sampleMapMerge (sys : System) (mode₁ mode₂ : Nat) : Option (Int × Merge) :=
  pkgdbmerg sys ⟨nul, "SUNWnew".toList, false, false⟩ (fun _ => []) zeroEntry
    (vfpOpen (unlines ([entryText sampleLink "/usr/adm".toList] ++ ["# end".toList])))
    (vfpAnonymous 160 0 fun _ => nul) (sampleMapDirs mode₁ mode₂)

theorem sampleMapDirs_sorted (mode₁ mode₂ : Nat) : SortedList (sampleMapDirs mode₁ mode₂) := by
  have htype : OneLine ['d'] := by decide
  have hclass : OneLine "none".toList := by decide
  have hfile : 'd' ≠ 'i' := by decide
  have hmergeable {owner group : String} (mode : Nat) (path : String)
    (howner : OneLine owner.toList)
      (hgroup : OneLine group.toList) : (sampleMapDir mode owner group path).Mergeable
        (sampleMapDir mode owner group path).path :=
    ⟨⟨⟨htype, hclass, ⟨nofun, howner, hgroup⟩, nofun⟩, hfile, rfl⟩, rfl, nofun⟩
  have hlt : "/opt".toList < "/usr/adm".toList := by decide +kernel
  have hopt : IsPath "/opt".toList := ⟨by decide, by decide +kernel⟩
  have hadm : IsPath "/usr/adm".toList := ⟨by decide, by decide +kernel⟩
  refine ⟨List.pairwise_pair.mpr hlt, fun el hel _ => ?_⟩
  rcases List.mem_pair.mp hel with rfl | rfl
  · exact ⟨hopt, hmergeable mode₁ "/opt" (by decide) (by decide)⟩
  · exact ⟨hadm, hmergeable mode₂ "/usr/adm" (by decide) (by decide)⟩

theorem sampleLink_resolved (l : Str) (hl : l ∈ [entryText sampleLink "/usr/adm".toList]) :
    ResolvedLine l := by
  intro ept e he hattrs
  rw [List.mem_singleton.mp hl, parseLine_entryText sampleLink_writable.legible
    sampleLink_writable.numbered] at he
  obtain rfl := Except.ok.inj (Option.some.inj he)
  rw [(readBack_agrees sampleLink ept).ftype] at hattrs
  exact absurd hattrs (by decide)

/-- A system on which `/opt` is a directory of user 0 and group 3. -/
def sampleOptSystem : System :=
  { bareSystem with
    lstat := fun p => if p = "/opt".toList then some ⟨0, 0, 0o040755, 2, 0, 3, 0, 0, 0⟩ else none
    access := fun p => p == "/opt".toList
    cpwuid := fun id => if id = 0 then some "root".toList else none
    cgrgid := fun id => if id = 3 then some "sys".toList else none }

theorem sampleOptSystem_plain : sampleOptSystem.Plain := by
  have hsys : OneLine "sys".toList := by decide
  have hroot : OneLine "root".toList := by decide
  refine ⟨nofun, fun id name h => ?_, fun id name h => ?_⟩
  · obtain ⟨-, h⟩ := Option.ite_none_right_eq_some.mp h
    exact Option.some.inj h ▸ hsys
  · obtain ⟨-, h⟩ := Option.ite_none_right_eq_some.mp h
    exact Option.some.inj h ▸ hroot

end Pkgtools
