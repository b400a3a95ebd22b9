import Pkgtools.CLib.KeyedMerge
import Pkgtools.EntryText
import Pkgtools.MergeEntry
import Pkgtools.SearchOutcome

namespace Pkgtools
open CLib
set_option autoImplicit true

/-- A new-style line that is read as an entry, within the limits of the reader. -/
structure WellFormed (l : Str) : Prop where
  head : l.head? = some '/'
  length : (linePath l).length ≤ pathMax
  parses : ∀ ept, ∃ e, parseLine (initEntry ept) l = some (.ok e)

theorem copyPath_of_le (h : path.length ≤ pathMax) : copyPath path = path :=
  if_neg (Nat.not_lt.mpr h)

theorem WellFormed.isEntry (h : WellFormed l) (hl : OneLine l) : IsEntry l := by
  refine ⟨hl, h.head, fun he => ?_⟩
  obtain ⟨e, hp⟩ := h.parses zeroEntry
  rw [parseLine, if_pos h.head, he, List.drop_length] at hp
  cases hp

def mergedPaths (els : List Cfextra) : List Str :=
  (els.filter fun el => !el.isMetafile).map Cfextra.path

/-- The lines of a contents file that are not comments. -/
def entryLines (text : Str) : List Str := (splitLines text).filter fun l => l.head? != some '#'

/-- Elements that are sorted by path, those that are merged with paths of their own. -/
structure SortedList (els : List Cfextra) : Prop where
  sorted : els.Pairwise fun a b => a.path < b.path
  mergeable : ∀ el ∈ els, el.isMetafile = false → IsPath el.path ∧ el.Mergeable el.path

theorem SortedList.tail (h : SortedList (el :: els)) : SortedList els :=
  ⟨(List.pairwise_cons.mp h.sorted).2, fun x hx => h.mergeable x (List.mem_cons_of_mem _ hx)⟩

theorem next_path_ne (h : (el :: els).Pairwise fun a b : Cfextra => a.path < b.path) :
    (els.head?.any fun next => next.path = el.path) = false := by
  cases els with
  | nil => rfl
  | cons next els =>
    have hlt := (List.pairwise_cons.mp h).1 next List.mem_cons_self
    simpa using hlt.ne'

theorem mem_markInside (h : el ∈ markInside path todo) :
    ∃ el₀ ∈ todo, ∃ mstat, el = { el₀ with mstat := mstat } := by
  rcases List.mem_append.mp h with h | h
  · obtain ⟨el₀, hel, rfl⟩ := List.mem_map.mp h
    exact ⟨el₀, (List.takeWhile_sublist _).subset hel, _, rfl⟩
  · exact ⟨el, (List.dropWhile_sublist _).subset h, el.mstat, rfl⟩

theorem markInside_paths (path : Str) (todo : List Cfextra) :
    (markInside path todo).map Cfextra.path = todo.map Cfextra.path := by
  unfold markInside
  dsimp only
  rw [List.map_append, List.map_map]
  exact (List.map_append.symm.trans (congrArg _ List.takeWhile_append_dropWhile))

theorem mergedPaths_append (xs ys : List Cfextra) :
    mergedPaths (xs ++ ys) = mergedPaths xs ++ mergedPaths ys := by
  rw [mergedPaths, List.filter_append, List.map_append]
  rfl

theorem mergedPaths_markInside (path : Str) (todo : List Cfextra) :
    mergedPaths (markInside path todo) = mergedPaths todo := by
  have hmap (f : Cfextra → Mergstat) (xs : List Cfextra) :
      mergedPaths (xs.map fun el => { el with mstat := f el }) = mergedPaths xs := by
    rw [mergedPaths, List.filter_map, List.map_map]
    rfl
  unfold markInside
  dsimp only
  rw [mergedPaths_append, hmap, ← mergedPaths_append, List.takeWhile_append_dropWhile]

theorem SortedList.markInside (h : SortedList todo) (path : Str) :
    SortedList (markInside path todo) := by
  constructor
  · rw [← List.pairwise_map (f := Cfextra.path) (R := (· < ·)), markInside_paths, List.pairwise_map]
    exact h.sorted
  · intro el hel hmeta
    obtain ⟨el₀, h₀, mstat, rfl⟩ := mem_markInside hel
    obtain ⟨hp, hm⟩ := h.mergeable el₀ h₀ hmeta
    exact ⟨hp, hm.withMstat mstat⟩

theorem adminSetuid_mergeable (h : el.Mergeable path) (inst : Install) :
    (adminSetuid inst el).Mergeable path :=
  ⟨h.cfEnt.withAinfo ⟨h.cfEnt.plain.ainfo.localPath, h.cfEnt.plain.ainfo.owner,
    h.cfEnt.plain.ainfo.group⟩, h.client, h.clientLocal⟩

/-- A contents file with well-formed entries, sorted by path, and comments at its end. -/
structure Contents (ls cs : List Str) : Prop where
  file : SortedFile ls cs
  entry : ∀ l ∈ ls, WellFormed l
  comments : cs ≠ []

/-- How far the merge is: the lines `before` were read and the elements with the paths `names` were
merged, which made the lines `out`. -/
structure Progress (ls cs : List Str) (extlist : List Cfextra) (start : Vfp) (m : Merge)
    (before rest out names : List Str) : Prop where
  lines : ls = before ++ rest
  reads : m.eocontents = false → m.map.Reads (unlines before) (unlines (rest ++ cs))
  ended : m.eocontents → rest = []
  tmp : Appends start m.tmp (unlines out)
  entries : ∀ o ∈ out, IsEntry o
  merged : Merged linePath before names out
  named : names ++ mergedPaths m.todo = mergedPaths extlist
  todo : SortedList m.todo
  ahead : ∀ el ∈ m.todo, Before linePath before names el.path
  behind : ∀ x ∈ rest, ∀ n ∈ names, n < linePath x

section Progress
variable {ls cs before rest out names before' rest' out' A B : List Str} {start t : Vfp}
  {m m' : Merge} {el : Cfextra} {extlist todo todo' : List Cfextra} {l : Str}

/-- The lines in front of the path that is looked for are copied. -/
theorem Progress.pass (hc : Contents ls cs)
    (h : Progress ls cs extlist start m before rest out names)
    (hr : rest = A ++ B) (hel : el ∈ m.todo) (hA : ∀ x ∈ A, linePath x < el.path) :
    Merged linePath (before ++ A) names (out ++ A) ∧
      Before linePath (before ++ A) names el.path ∧ ∀ o ∈ out ++ A, IsEntry o := by
  have hls : ls = (before ++ A) ++ B := by rw [h.lines, hr, List.append_assoc]
  have hsorted := hc.file.sorted
  rw [hls] at hsorted
  refine ⟨?_, ⟨?_, (h.ahead el hel).2⟩, ?_⟩
  · exact h.merged.copyAll A (List.pairwise_append.mp hsorted).1
      fun x hx => h.behind x (by rw [hr]; exact List.mem_append_left _ hx)
  · intro x hx
    rcases List.mem_append.mp hx with hx | hx
    · exact (h.ahead el hel).1 x hx
    · exact hA x hx
  · intro o ho
    rcases List.mem_append.mp ho with ho | ho
    · exact h.entries o ho
    · exact hc.file.entry o (by rw [hls]; simp [ho])

/-- The elements still to do after one was merged, some of them marked. -/
def Remains (todo todo' : List Cfextra) : Prop :=
  todo' = todo ∨ ∃ path, todo' = markInside path todo

theorem Remains.sorted (h : Remains todo todo') (hs : SortedList todo) : SortedList todo' := by
  rcases h with rfl | ⟨path, rfl⟩
  · exact hs
  · exact hs.markInside path

theorem Remains.paths (h : Remains todo todo') :
    todo'.map Cfextra.path = todo.map Cfextra.path ∧ mergedPaths todo' = mergedPaths todo := by
  rcases h with rfl | ⟨path, rfl⟩
  · exact ⟨rfl, rfl⟩
  · exact ⟨markInside_paths path todo, mergedPaths_markInside path todo⟩

theorem mergedPaths_cons (h : el.isMetafile = false) (todo : List Cfextra) :
    mergedPaths (el :: todo) = el.path :: mergedPaths todo := by
  rw [mergedPaths, List.filter_cons_of_pos (by simp [h]), List.map_cons]
  rfl

theorem Progress.next (h : Progress ls cs extlist start m before rest out names)
    (hm : m.todo = el :: todo) (hmeta : el.isMetafile = false) (htodo : Remains todo m'.todo)
    (hlines : ls = before' ++ rest')
    (hreads : m'.eocontents = false → m'.map.Reads (unlines before') (unlines (rest' ++ cs)))
    (hended : m'.eocontents → rest' = []) (htmp : Appends start m'.tmp (unlines out'))
    (hentries : ∀ o ∈ out', IsEntry o) (hmerged : Merged linePath before' (names ++ [el.path]) out')
    (hle : ∀ x ∈ before', linePath x ≤ el.path) (hgt : ∀ x ∈ rest', el.path < linePath x) :
    Progress ls cs extlist start m' before' rest' out' (names ++ [el.path]) := by
  have hsorted := h.todo
  have hnamed := h.named
  have hahead := h.ahead el (by rw [hm]; exact List.mem_cons_self)
  rw [hm] at hsorted
  rw [hm, mergedPaths_cons hmeta] at hnamed
  have hafter (x) (hx : x ∈ m'.todo) : el.path < x.path := by
    have hmem : x.path ∈ todo.map Cfextra.path := by
      rw [← htodo.paths.1]
      exact List.mem_map_of_mem hx
    obtain ⟨y, hy, hpath⟩ := List.mem_map.mp hmem
    rw [← hpath]
    exact (List.pairwise_cons.mp hsorted.sorted).1 y hy
  have hnames (n) (hn : n ∈ names ++ [el.path]) : n ≤ el.path := by
    rcases List.mem_append.mp hn with hn | hn
    · exact le_of_lt (hahead.2 n hn)
    · exact le_of_eq (List.mem_singleton.mp hn)
  refine ⟨hlines, hreads, hended, htmp, hentries, hmerged, ?_, htodo.sorted hsorted.tail, ?_, ?_⟩
  · rw [htodo.paths.2, List.append_assoc]
    exact hnamed
  · exact fun x hx => ⟨fun l hl => lt_of_le_of_lt (hle l hl) (hafter x hx),
      fun n hn => lt_of_le_of_lt (hnames n hn) (hafter x hx)⟩
  · exact fun x hx n hn => lt_of_le_of_lt (hnames n hn) (hgt x hx)

/-- A new entry, behind the lines `A`: it is inserted or left out. -/
theorem Progress.new (hc : Contents ls cs)
    (h : Progress ls cs extlist start m before rest out names)
    (hm : m.todo = el :: todo) (hmeta : el.isMetafile = false) (htodo : Remains todo m'.todo)
    (hr : rest = A ++ B) (hA : ∀ x ∈ A, linePath x < el.path) (hB : ∀ x ∈ B, el.path < linePath x)
    (htmp : Appends m.tmp t (unlines A)) (hw : m'.tmp = t ∨ WritesLine el.path t m'.tmp)
    (hreads : m'.eocontents = false → m'.map.Reads (unlines (before ++ A)) (unlines (B ++ cs)))
    (hended : m'.eocontents → B = []) :
    ∃ out', Progress ls cs extlist start m' (before ++ A) B out' (names ++ [el.path]) := by
  obtain ⟨hmerged, hbefore, hentries⟩ :=
    h.pass hc hr (by rw [hm]; exact List.mem_cons_self) hA
  have hlines : ls = (before ++ A) ++ B := by rw [h.lines, hr, List.append_assoc]
  have happ := h.tmp.trans htmp
  rw [← unlines_append] at happ
  have hle (x) (hx : x ∈ before ++ A) : linePath x ≤ el.path := le_of_lt (hbefore.1 x hx)
  rcases hw with hw | ⟨l, hl, hpath, hline⟩
  · refine ⟨out ++ A, h.next hm hmeta htodo hlines hreads hended ?_ hentries (hmerged.leave hbefore)
      hle hB⟩
    rw [hw]
    exact happ
  · refine ⟨out ++ A ++ [l], h.next hm hmeta htodo hlines hreads hended ?_ ?_ ?_ hle hB⟩
    · rw [unlines_append, unlines_cons, unlines_nil]
      exact happ.trans hline
    · intro o ho
      rcases List.mem_append.mp ho with ho | ho
      · exact hentries o ho
      · rw [List.mem_singleton.mp ho]
        exact hl
    · rw [← hpath] at hbefore ⊢
      exact hmerged.insert hbefore

theorem Progress.like (hc : Contents ls cs)
    (h : Progress ls cs extlist start m before rest out names)
    (hm : m.todo = el :: todo) (hmeta : el.isMetafile = false) (htodo : Remains todo m'.todo)
    (hr : rest = A ++ l :: B) (hA : ∀ x ∈ A, linePath x < el.path) (hl : linePath l = el.path)
    (htmp : Appends m.tmp t (unlines A)) (hw : WritesLine el.path t m'.tmp)
    (hreads : m'.map.Reads (unlines (before ++ (A ++ [l]))) (unlines (B ++ cs)))
    (hended : m'.eocontents = false) :
    ∃ out', Progress ls cs extlist start m' (before ++ (A ++ [l])) B out' (names ++ [el.path]) := by
  obtain ⟨hmerged, hbefore, hentries⟩ :=
    h.pass hc hr (by rw [hm]; exact List.mem_cons_self) hA
  have hlines : ls = (before ++ (A ++ [l])) ++ B := by
    rw [h.lines, hr]
    simp
  have happ := h.tmp.trans htmp
  rw [← unlines_append] at happ
  obtain ⟨o, ho, hpath, hline⟩ := hw
  have hsorted := hc.file.sorted
  rw [h.lines, hr, List.pairwise_append] at hsorted
  have hgt := (List.pairwise_cons.mp (List.pairwise_append.mp hsorted.2.1).2.1).1
  refine ⟨out ++ A ++ [o], h.next hm hmeta htodo hlines (fun _ => hreads) ?_ ?_ ?_ ?_ ?_ ?_⟩
  · intro he
    rw [hended] at he
    cases he
  · rw [unlines_append, unlines_cons, unlines_nil]
    exact happ.trans hline
  · intro x hx
    rcases List.mem_append.mp hx with hx | hx
    · exact hentries x hx
    · rw [List.mem_singleton.mp hx]
      exact ho
  · rw [← hl] at hbefore hpath ⊢
    rw [← List.append_assoc]
    exact hmerged.replace hbefore hpath
  · intro x hx
    rw [← List.append_assoc] at hx
    rcases List.mem_append.mp hx with hx | hx
    · exact le_of_lt (hbefore.1 x hx)
    · rw [List.mem_singleton.mp hx, hl]
  · intro x hx
    rw [← hl]
    exact hgt x hx

theorem Progress.skip (h : Progress ls cs extlist start m before rest out names)
    (hm : m.todo = el :: todo) (hmeta : el.isMetafile) (done : List Cfextra) :
    Progress ls cs extlist start { m with todo := todo, done := done } before rest out names := by
  have hnamed := h.named
  have hsorted := h.todo
  have hahead := h.ahead
  rw [hm, mergedPaths, List.filter_cons_of_neg (by simp [hmeta])] at hnamed
  rw [hm] at hsorted hahead
  exact ⟨h.lines, h.reads, h.ended, h.tmp, h.entries, h.merged, hnamed, hsorted.tail,
    fun x hx => hahead x (List.mem_cons_of_mem _ hx), h.behind⟩

variable {sys : System} {inst : Install}

/-- How an element is merged: it is new and comes behind the lines `A`, or it meets the entry on the
line `l`. -/
inductive MergeCase (sys : System) (inst : Install) (stack : Str) (cs before rest : List Str)
    (el : Cfextra) (todo : List Cfextra) (m m' : Merge) : Prop where
  | new (A B : List Str) (t : Vfp) (ctrl : Bool) (r : EntResult) (hrest : rest = A ++ B)
      (hA : ∀ x ∈ A, linePath x < el.path) (hB : ∀ x ∈ B, el.path < linePath x)
      (ht : Appends m.tmp t (unlines A))
      (hfound : m.eocontents ∨
        (srchcfile stack m.cfEnt (some el.path) m.map (some m.tmp)).ret ≠ 1)
      (hdo : doNewEnt sys inst t (adminSetuid inst el) ctrl = some r)
      (htmp : m'.tmp = r.tmp) (htodo : m'.todo = todo)
      (hreads : m'.eocontents = false → m'.map.Reads (unlines (before ++ A)) (unlines (B ++ cs)))
      (hended : m'.eocontents → B = [])
  | like (A : List Str) (l : Str) (B : List Str) (t : Vfp) (ctrl : Bool) (r : EntResult) (e : Cfent)
      (mstat : Mergstat) (hrest : rest = A ++ l :: B) (hA : ∀ x ∈ A, linePath x < el.path)
      (hl : linePath l = el.path) (ht : Appends m.tmp t (unlines A))
      (hparse : parseLine (initEntry m.cfEnt) l = some (.ok e))
      (hfound : m.eocontents = false ∧
        (srchcfile stack m.cfEnt (some el.path) m.map (some m.tmp)).ret = 1 ∧
        (srchcfile stack m.cfEnt (some el.path) m.map (some m.tmp)).ept = e)
      (hshared : mstat.shared = el.mstat.shared)
      (hdo : doLikeEnt sys inst t { adminSetuid inst el with mstat := mstat } e ctrl = some r)
      (htmp : m'.tmp = r.tmp) (htodo : Remains todo m'.todo)
      (hreads : m'.map.Reads (unlines (before ++ (A ++ [l]))) (unlines (B ++ cs)))
      (hended : m'.eocontents = false)

theorem Progress.mergeCase (hc : Contents ls cs)
    (h : Progress ls cs extlist start m before rest out names) (hm : m.todo = el :: todo)
    (hmeta : el.isMetafile = false)
    (hstep : Merge.mergeEnt sys inst stack { m with todo := todo } el = some (.ok m')) :
    MergeCase sys inst stack cs before rest el todo m m' := by
  obtain ⟨hpath, hel⟩ := h.todo.mergeable el (by rw [hm]; exact List.mem_cons_self) hmeta
  have hstart : (adminSetuid inst el).cfEnt.path = some el.path :=
    (adminSetuid_mergeable hel inst).cfEnt.path
  unfold Merge.mergeEnt at hstep
  dsimp only at hstep
  split at hstep
  · -- the contents file is at its end
    rename_i heof
    obtain ⟨r, hr, hstep⟩ := Option.bind_eq_some_iff.mp hstep
    have hm' := Except.ok.inj (Option.some.inj hstep)
    have heof' : m'.eocontents = true := by rw [← hm']; exact heof
    exact .new [] [] m.tmp _ r (h.ended heof) (by simp) (by simp) (Appends.refl _) (.inl heof) hr
      (by rw [← hm']; rfl) (by rw [← hm']; rfl) (fun he => by rw [heof'] at he; cases he)
      fun _ => rfl
  · rename_i heof
    have hreads := h.reads (by simpa using heof)
    have hfile := hc.file
    rw [h.lines] at hfile
    have hsearch := srchcfile_outcome hfile hc.comments hreads hpath.oneLine.2 hpath.absolute stack
      m.cfEnt m.tmp
    rw [hstart] at hstep
    cases hsearch with
    | same A l B hr hA hl hfound =>
      have hmem : l ∈ ls := by
        rw [h.lines, hr]
        simp
      obtain ⟨e, he⟩ := (hc.entry l hmem).parses m.cfEnt
      obtain ⟨t, ht, hres⟩ := hfound e he
      have hret : (srchcfile stack m.cfEnt (some el.path) m.map (some m.tmp)).ret = 1 ∧
          (srchcfile stack m.cfEnt (some el.path) m.map (some m.tmp)).ept = e := by
        rw [hres]
        exact ⟨rfl, rfl⟩
      rw [hres] at hstep
      simp only [if_neg (show ¬ (1 : Int) < 0 by decide), if_true, Option.getD_some] at hstep
      obtain ⟨r, hlike, hstep⟩ := Option.bind_eq_some_iff.mp hstep
      have hm' := Except.ok.inj (Option.some.inj hstep)
      have htodo : Remains todo m'.todo := by
        rw [← hm', Merge.record]
        dsimp only
        split
        · exact .inr ⟨_, rfl⟩
        · exact .inl rfl
      have heof' : m'.eocontents = false := by rw [← hm']; simpa [Merge.record] using heof
      have hmap : m'.map = m.map.moveTo
        (unlines (before ++ (A ++ [l]))).length := by rw [← hm']; rfl
      have hnext : m'.map.Reads (unlines (before ++ (A ++ [l]))) (unlines (B ++ cs)) := by
        rw [hmap]
        have hsplit : unlines (rest ++ cs) = unlines (A ++ [l]) ++ unlines (B ++ cs) := by
          rw [← unlines_append, hr]
          simp
        rw [hsplit] at hreads
        rw [unlines_append before, List.length_append]
        exact hreads.moveTo
      refine .like A l B t _ r e _ hr hA hl ht he ⟨by simpa using heof, hret⟩ ?_ hlike
        (by rw [← hm']; rfl) htodo hnext heof'
      rfl
    | greater A l B hr hA hl t ht e hfound =>
      have hret : (srchcfile stack m.cfEnt (some el.path) m.map (some m.tmp)).ret ≠ 1 := by
        rw [hfound]
        exact (by decide : (2 : Int) ≠ 1)
      rw [hfound] at hstep
      simp only [if_neg (show ¬ (2 : Int) < 0 by decide), if_neg (show ¬ (2 : Int) = 1 by decide),
        Option.getD_some] at hstep
      obtain ⟨r, hnew, hstep⟩ := Option.bind_eq_some_iff.mp hstep
      have hm' := Except.ok.inj (Option.some.inj hstep)
      have heof' : m'.eocontents = false := by rw [← hm']; rfl
      have hmap : m'.map = m.map.moveTo (unlines (before ++ A)).length := by rw [← hm']; rfl
      have hsorted := hfile.sorted
      rw [hr, List.pairwise_append] at hsorted
      have hgt := (List.pairwise_cons.mp (List.pairwise_append.mp hsorted.2.1).2.1).1
      have hnext : m'.map.Reads (unlines (before ++ A)) (unlines (l :: B ++ cs)) := by
        rw [hmap]
        have hsplit : unlines (rest ++ cs) = unlines A ++ unlines (l :: B ++ cs) := by
          rw [← unlines_append, hr]
          simp
        rw [hsplit] at hreads
        rw [unlines_append before, List.length_append]
        exact hreads.moveTo
      have hB : ∀ x ∈ l :: B, el.path < linePath x := by
        intro x hx
        rcases List.mem_cons.mp hx with rfl | hx
        · exact hl
        · exact lt_trans hl (hgt x hx)
      exact .new A (l :: B) t _ r hr hA hB ht (.inr hret) hnew (by rw [← hm']; rfl)
        (by rw [← hm']; rfl) (fun _ => hnext) fun he => by rw [heof'] at he; cases he
    | atEnd hls t ht hret htmp₀ =>
      have hne : (srchcfile stack m.cfEnt (some el.path) m.map (some m.tmp)).ret ≠ 1 := by
        rw [hret]
        decide
      simp only [hret, if_neg (show ¬ (0 : Int) < 0 by decide),
        if_neg (show ¬ (0 : Int) = 1 by decide), htmp₀, Option.getD_some] at hstep
      obtain ⟨r, hnew, hstep⟩ := Option.bind_eq_some_iff.mp hstep
      have hm' := Except.ok.inj (Option.some.inj hstep)
      have heof' : m'.eocontents = true := by rw [← hm']; rfl
      exact .new rest [] t _ r (List.append_nil rest).symm hls (by simp) ht (.inr hne) hnew
        (by rw [← hm']; rfl) (by rw [← hm']; rfl) (fun he => by rw [heof'] at he; cases he)
        fun _ => rfl

theorem MergeCase.remains (h : MergeCase sys inst stack cs before rest el todo m m') :
    Remains todo m'.todo := by
  cases h with
  | new A B t ctrl r hrest hA hB ht hfound hdo htmp htodo hreads hended => exact .inl htodo
  | like A l B t ctrl r e mstat hrest hA hl ht hparse hfound hshared hdo htmp htodo hreads hended =>
    exact htodo

theorem Progress.mergeEnt (hc : Contents ls cs) (hs : sys.Plain) (hi : inst.Plain)
    (h : Progress ls cs extlist start m before rest out names) (hm : m.todo = el :: todo)
    (hmeta : el.isMetafile = false) (hcase : MergeCase sys inst stack cs before rest el todo m m') :
    ∃ before' rest' out' names', Progress ls cs extlist start m' before' rest' out' names' := by
  obtain ⟨hpath, hel⟩ := h.todo.mergeable el (by rw [hm]; exact List.mem_cons_self) hmeta
  have hadmin := adminSetuid_mergeable hel inst
  have hremains := hcase.remains
  cases hcase with
  | new A B t ctrl r hrest hA hB ht hfound hdo htmp htodo hreads hended =>
    have hw := doNewEnt_writes hs hpath hi hadmin hdo
    rw [← htmp] at hw
    obtain ⟨out', hp⟩ := h.new hc hm hmeta hremains hrest hA hB ht hw hreads hended
    exact ⟨_, _, out', _, hp⟩
  | like A l B t ctrl r e mstat hrest hA hl ht hparse hfound hshared hdo htmp htodo hreads hended =>
    have hmem : l ∈ ls := by
      rw [h.lines, hrest]
      simp
    have hwf := hc.entry l hmem
    have hparsed := parseLine_parsed (hc.file.entry l hmem).oneLine hwf.head hparse
    rw [copyPath_of_le hwf.length, hl] at hparsed
    have hw := doLikeEnt_writes hs hpath hi (hadmin.withMstat mstat) hparsed.lineFor hdo
    rw [← htmp] at hw
    obtain ⟨out', hp⟩ := h.like hc hm hmeta hremains hrest hA hl ht hw hreads hended
    exact ⟨_, _, out', _, hp⟩

/-- One round of the loop: metafiles are passed over, and no path stands twice in the extlist. -/
theorem Progress.step (hc : Contents ls cs) (hs : sys.Plain) (hi : inst.Plain)
    (h : Progress ls cs extlist start m before rest out names) (hm : m.todo = el :: todo)
    (hstep : m.step sys inst stack el todo = some (.ok m')) :
    m'.todo.length = todo.length ∧ ∃ before' rest' out' names',
      Progress ls cs extlist start m' before' rest' out' names' := by
  have hsorted := h.todo.sorted
  rw [hm] at hsorted
  have hnext := next_path_ne hsorted
  unfold Merge.step at hstep
  dsimp only at hstep
  by_cases hmeta : el.isMetafile
  · rw [if_pos (.inl hmeta)] at hstep
    have hm' := Except.ok.inj (Option.some.inj hstep)
    rw [← hm']
    exact ⟨rfl, before, rest, out, names, h.skip hm hmeta _⟩
  · rw [if_neg (not_or.mpr ⟨hmeta, by rw [hnext]; decide⟩)] at hstep
    have hcase := h.mergeCase hc hm (by simpa using hmeta) hstep
    have htodo := hcase.remains
    refine ⟨?_, h.mergeEnt hc hs hi hm (by simpa using hmeta) hcase⟩
    have hlen := congrArg List.length htodo.paths.1
    rwa [List.length_map, List.length_map] at hlen

/-- What the merge of all elements has written: the merged lines, with or without the comments. -/
def MergedTo (ls cs : List Str) (extlist : List Cfextra) (start t : Vfp) : Prop :=
  ∃ out, Merged linePath ls (mergedPaths extlist) out ∧ (∀ o ∈ out, IsEntry o) ∧
    (Appends start t (unlines out) ∨ Appends start t (unlines (out ++ cs)))

theorem Progress.finish_copies (hc : Contents ls cs)
    (h : Progress ls cs extlist start m before rest out names) (stack : Str) :
    Appends m.tmp (m.finish stack).2.tmp (unlines rest) ∨
      Appends m.tmp (m.finish stack).2.tmp (unlines (rest ++ cs)) := by
  rw [Merge.finish]
  by_cases heof : m.eocontents
  · rw [if_pos heof, h.ended heof]
    exact .inl (Appends.refl _)
  · obtain ⟨t, ht, hcopy⟩ := srchcfile_rest (h.reads (by simpa using heof)) stack m.cfEnt m.tmp
    rw [if_neg heof]
    dsimp only
    rw [ht, Option.getD_some]
    rcases hcopy with hcopy | ⟨hlen, rfl⟩
    · exact .inr hcopy
    · -- only a comment of one character is that short
      left
      have hrest : rest = [] := by
        cases hr : rest with
        | nil => rfl
        | cons l rest' =>
          have hl := (hc.file.entry l (by rw [h.lines, hr]; simp)).two_le_length
          rw [hr, List.cons_append, unlines_cons, List.length_append, List.length_cons] at hlen
          omega
      rw [hrest]
      exact Appends.refl _

theorem Progress.finish (hc : Contents ls cs)
    (h : Progress ls cs extlist start m before rest out names) (hm : m.todo = []) (stack : Str) :
    MergedTo ls cs extlist start (m.finish stack).2.tmp := by
  have hnames : names = mergedPaths extlist := by
    rw [← h.named, hm]
    exact (List.append_nil names).symm
  have hentries (o) (ho : o ∈ out ++ rest) : IsEntry o := by
    rcases List.mem_append.mp ho with ho | ho
    · exact h.entries o ho
    · exact hc.file.entry o (by rw [h.lines]; exact List.mem_append_right _ ho)
  have hmerged : Merged linePath ls (mergedPaths extlist) (out ++ rest) := by
    have hsorted := hc.file.sorted
    rw [h.lines] at hsorted ⊢
    rw [← hnames]
    exact h.merged.copyAll rest hsorted h.behind
  refine ⟨out ++ rest, hmerged, hentries, ?_⟩
  rw [List.append_assoc, unlines_append, unlines_append]
  exact (h.finish_copies hc stack).imp h.tmp.trans h.tmp.trans

theorem Progress.run (hc : Contents ls cs) (hs : sys.Plain) (hi : inst.Plain) {n : Nat}
    (h : Progress ls cs extlist start m before rest out names) (hn : m.todo.length = n)
    (hrun : m.run sys inst stack n = some (ret, m')) (hret : 0 ≤ ret) :
    MergedTo ls cs extlist start m'.tmp := by
  induction n generalizing m before rest out names with
  | zero =>
    have hm' := Option.some.inj hrun
    have hfinish := h.finish hc (List.eq_nil_of_length_eq_zero hn) (stack 0)
    rw [hm'] at hfinish
    exact hfinish
  | succ n ih =>
    rw [Merge.run] at hrun
    split at hrun
    · rename_i hnil
      rw [hnil] at hn
      cases hn
    · rename_i el todo hm
      obtain ⟨r, hstep, hrun⟩ := Option.bind_eq_some_iff.mp hrun
      cases r with
      | error m₁ =>
        obtain ⟨rfl, -⟩ := Prod.mk.inj (Option.some.inj hrun)
        exact absurd hret (by decide)
      | ok m₁ =>
        obtain ⟨hlen, _, _, _, _, hnext⟩ := h.step hc hs hi hm hstep
        rw [hm, List.length_cons] at hn
        exact ih hnext (by omega) hrun

end Progress

theorem entryLines_unlines (hout : ∀ o ∈ out, IsEntry o)
    (hcs : ∀ c ∈ cs, OneLine c ∧ c.head? = some '#') :
    entryLines (unlines out) = out ∧ entryLines (unlines (out ++ cs)) = out := by
  have hkeep : (out.filter fun l => l.head? != some '#') = out := by
    apply List.filter_eq_self.mpr
    intro l hl
    rw [(hout l hl).head]
    rfl
  have hdrop : (cs.filter fun l => l.head? != some '#') = [] := by
    apply List.filter_eq_nil_iff.mpr
    intro c hc
    rw [(hcs c hc).2]
    decide
  constructor
  · rw [entryLines, splitLines_unlines out fun o ho => (hout o ho).oneLine, hkeep]
  · have hlines (l) (hl : l ∈ out ++ cs) : OneLine l := by
      rcases List.mem_append.mp hl with hl | hl
      · exact (hout l hl).oneLine
      · exact (hcs l hl).1
    rw [entryLines, splitLines_unlines _ hlines, List.filter_append, hkeep, hdrop, List.append_nil]

theorem MergedTo.entryLines (h : MergedTo ls cs extlist start t)
    (hcs : ∀ c ∈ cs, OneLine c ∧ c.head? = some '#') (hstart : start.Wf) (hcurr : start.curr = 0)
    (hroom : t.HasRoom) : Merged linePath ls (mergedPaths extlist) (entryLines t.text) := by
  obtain ⟨out, hmerged, hentries, happ⟩ := h
  obtain ⟨hout, hboth⟩ := entryLines_unlines hentries hcs
  have hempty : start.text = [] := by
    rw [Vfp.text, hcurr]
    rfl
  rcases happ with happ | happ
  · rwa [happ.text hstart hroom, hempty, List.nil_append, hout]
  · rwa [happ.text hstart hroom, hempty, List.nil_append, hboth]

theorem vfpRewind_wf (h : v.Wf) (hcurr : v.curr = 0) : vfpRewind v = v := by
  have hhigh : ¬ v.highWater < (v.curr : Int) := by
    rw [h.highWater_eq]
    exact lt_irrefl _
  rw [vfpRewind, vfpSetCurrCharPtr, if_neg hhigh, ← hcurr]

theorem vfpRewind_vfpOpen (h : NulFree file) (hne : file ≠ []) :
    (vfpRewind (vfpOpen file)).Reads [] file := by
  have hhigh : ¬ (vfpOpen file).highWater < ((vfpOpen file).curr : Int) := by
    have hpos := List.length_pos_iff.mpr hne
    simp only [vfpOpen]
    omega
  rw [vfpRewind, vfpSetCurrCharPtr, if_neg hhigh]
  exact vfpOpen_reads h

theorem contents_of_printable (hls : ∀ l ∈ ls, Printable l ∧ WellFormed l)
    (hsorted : ls.Pairwise fun a b => linePath a < linePath b)
    (hcs : ∀ c ∈ cs, Printable c ∧ c.head? = some '#') (hne : cs ≠ []) : Contents ls cs := by
  have hcomment (c) (hc : c ∈ cs) : OneLine c ∧ c ≠ [] ∧ isSkipped c := by
    obtain ⟨hp, hhead⟩ := hcs c hc
    cases c with
    | nil => cases hhead
    | cons x c =>
      obtain rfl := Option.some.inj hhead
      exact ⟨hp.oneLine, List.cons_ne_nil _ _, rfl⟩
  have hentry (l) (hl : l ∈ ls) : IsEntry l := (hls l hl).2.isEntry (hls l hl).1.oneLine
  exact ⟨⟨hentry, hsorted, hcomment⟩, fun l hl => (hls l hl).2, hne⟩

theorem progress_start (hc : Contents ls cs) (hext : SortedList extlist) (cfEnt : Cfent)
    (tmp : Vfp) : Progress ls cs extlist (vfpRewind tmp)
      ⟨vfpRewind (vfpOpen (unlines (ls ++ cs))), vfpRewind tmp, { cfEnt with pinfo := [] }, [],
        extlist, false, false, 0, 0⟩ [] ls [] [] := by
  have hfile : unlines (ls ++ cs) ≠ [] := by
    have hlen := length_le_unlines (ls ++ cs)
    have hpos := List.length_pos_iff.mpr hc.comments
    rw [List.length_append] at hlen
    exact List.length_pos_iff.mp (by omega)
  exact ⟨rfl, fun _ => vfpRewind_vfpOpen (nulFree_unlines hc.file.oneLine) hfile, nofun,
    Appends.refl _, by simp, .nil _, rfl, hext, fun _ _ => ⟨by simp, by simp⟩, by simp⟩

/-- The merge of packages into the contents file loses nothing and invents nothing: all entries for
other paths are kept as they are, one entry at most stands for each path, and the order is kept. -/
theorem pkgdbmerg_merges (hs : sys.Plain) (hi : inst.Plain)
    (hls : ∀ l ∈ ls, Printable l ∧ WellFormed l)
    (hsorted : ls.Pairwise fun a b => linePath a < linePath b)
    (hcs : ∀ c ∈ cs, Printable c ∧ c.head? = some '#') (hne : cs ≠ [])
    (hext : SortedList extlist) (htmp : tmp.Wf) (hcurr : tmp.curr = 0)
    (hrun : pkgdbmerg sys inst stack cfEnt (vfpOpen (unlines (ls ++ cs))) tmp extlist =
      some (ret, m))
    (hret : 0 ≤ ret) (hroom : m.tmp.HasRoom) :
    ((entryLines m.tmp.text).filter fun l => linePath l ∉ mergedPaths extlist) =
      (ls.filter fun l => linePath l ∉ mergedPaths extlist) ∧
    (∀ path ∈ extlist.map Cfextra.path,
      ((entryLines m.tmp.text).filter fun l => linePath l = path).length ≤ 1 ∧
      (path ∈ ls.map linePath →
        ((entryLines m.tmp.text).filter fun l => linePath l = path).length = 1)) ∧
    (∀ l ∈ entryLines m.tmp.text,
      linePath l ∈ ls.map linePath ∨ linePath l ∈ extlist.map Cfextra.path) ∧
    (entryLines m.tmp.text).Pairwise fun a b => linePath a < linePath b := by
  have hc := contents_of_printable hls hsorted hcs hne
  have hstart := progress_start hc hext cfEnt tmp
  rw [vfpRewind_wf htmp hcurr] at hstart
  rw [pkgdbmerg, vfpRewind_wf htmp hcurr] at hrun
  have hdone := (hstart.run hc hs hi rfl hrun hret).entryLines
    (fun c hcc => ⟨(hcs c hcc).1.oneLine, (hcs c hcc).2⟩) htmp hcurr hroom
  refine ⟨by convert hdone.kept, fun path _ => ⟨?_, fun hpath => ?_⟩, ?_, hdone.sorted⟩
  · convert hdone.length_le_one path
  · convert hdone.length_eq_one hpath
  intro l hl
  refine (hdone.known l hl).imp_right fun hm => ?_
  obtain ⟨el, hel, hpath⟩ := List.mem_map.mp hm
  rw [← hpath]
  exact List.mem_map_of_mem (List.mem_filter.mp hel).1

/-- A directory and a symbolic link, the link with an entry in the database. -/
def sampleExtlist : List Cfextra :=
  let mstat : Mergstat := ⟨false, false, false, false, false, false, false, false, false, false,
    false,
    false⟩
  [⟨⟨0, 'd', "none".toList, 0, some "/etc".toList, ⟨none, 0o755, "root".toList, "sys".toList, 0, 0⟩,
      ⟨-1, -1, -1⟩, 0, []⟩, mstat, "/etc".toList, "/etc".toList, none⟩,
    ⟨{ sampleLink with npkgs := 0, pinfo := [] }, mstat, "/usr/adm".toList, "/usr/adm".toList,
      none⟩]

theorem sampleExtlist_sorted : SortedList sampleExtlist := by
  refine ⟨by decide +kernel, fun el hel _ => ?_⟩
  rcases List.mem_pair.mp hel with rfl | rfl
  · exact ⟨⟨by decide, by decide +kernel⟩, ⟨⟨by decide, by decide, ⟨nofun, by decide, by decide⟩,
      nofun⟩, by decide, rfl⟩, rfl, nofun⟩
  · refine ⟨⟨by decide, by decide +kernel⟩, ⟨⟨by decide, by decide, ⟨?_, by decide, by decide⟩,
      nofun⟩, by decide, rfl⟩, rfl, nofun⟩
    intro l hl
    rw [← Option.some.inj hl]
    decide +kernel

/-- Both elements are merged into a database with the link. -/
theorem pkgdbmerg_merges_link :
    ∃ ret m, pkgdbmerg bareSystem ⟨nul, "SUNWnew".toList, false, false⟩ (fun _ => []) zeroEntry
        (vfpOpen (unlines [entryText sampleLink "/usr/adm".toList, "# end".toList]))
        (vfpAnonymous 160 0 fun _ => nul) sampleExtlist = some (ret, m) ∧ ret = 1 ∧
      (entryLines m.tmp.text).map linePath = ["/etc".toList, "/usr/adm".toList] ∧
      (entryLines m.tmp.text).Pairwise fun a b => linePath a < linePath b := by
  have hrun : (pkgdbmerg bareSystem ⟨nul, "SUNWnew".toList, false, false⟩ (fun _ => []) zeroEntry
      (vfpOpen (unlines [entryText sampleLink "/usr/adm".toList, "# end".toList]))
      (vfpAnonymous 160 0 fun _ => nul) sampleExtlist).any (fun r => r.1 = 1 ∧ r.2.tmp.HasRoom ∧
        (entryLines r.2.tmp.text).map linePath = ["/etc".toList, "/usr/adm".toList]) := by
    decide +kernel
  rw [Option.any_eq_true] at hrun
  obtain ⟨⟨ret, m⟩, hsome, hm⟩ := hrun
  dsimp only at hm
  obtain ⟨rfl, hroom, hpaths⟩ := of_decide_eq_true hm
  have hls : ∀ l ∈ [entryText sampleLink "/usr/adm".toList], Printable l ∧ WellFormed l := by
    intro l hl
    rw [List.mem_singleton.mp hl]
    exact ⟨by decide +kernel, by decide +kernel, by decide +kernel,
      fun ept => ⟨_, parseLine_entryText sampleLink_writable.legible
        sampleLink_writable.numbered ept⟩⟩
  have hcs : ∀ c ∈ ["# end".toList], Printable c ∧ c.head? = some '#' := by decide +kernel
  refine ⟨1, m, hsome, rfl, hpaths, ?_⟩
  exact (pkgdbmerg_merges bareSystem_plain ⟨by decide, by decide +kernel⟩ hls
    (List.pairwise_singleton _ _) hcs (by decide) sampleExtlist_sorted
    (vfpAnonymous_wf 160 0 _ (by decide)) rfl hsome (by decide) hroom).2.2.2

end Pkgtools
