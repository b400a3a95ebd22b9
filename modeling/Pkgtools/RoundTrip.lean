import Mathlib.Tactic.Positivity
import Pkgtools.EntryText

namespace Pkgtools
open CLib
set_option autoImplicit true

def putEntries (es : List Cfent) (v : Vfp) : Vfp := es.foldl (fun v e => (putcvfpfile e v).2) v

/-- Call `srchcfile` with path `*` again and again, on the same file and into the same structure. -/
def searchCalls (stack : Nat → Str) : Nat → Cfent → Vfp → List Found
  | 0, _, _ => []
  | n + 1, ept, cf =>
    let found := srchcfile (stack n) ept (some ['*']) cf none
    found :: searchCalls stack n found.ept found.cf

/-- The entry read back agrees with the one written in every field that its line holds, and has the
sentinels in the others. -/
structure Agrees (e e' : Cfent) : Prop where
  path : e'.path = e.path
  ftype : e'.ftype = e.ftype
  pkgClass : e'.pkgClass = e.pkgClass
  localPath : e'.ainfo.localPath = e.ainfo.localPath
  devices : isDevice e.ftype → e'.ainfo.major = e.ainfo.major ∧ e'.ainfo.minor = e.ainfo.minor
  attrs : hasAttrs e.ftype → e'.ainfo.mode = e.ainfo.mode ∧ e'.ainfo.owner = e.ainfo.owner ∧
    e'.ainfo.group = e.ainfo.group
  noAttrs : hasAttrs e.ftype = false →
    e'.ainfo.mode = badMode ∧ e'.ainfo.owner = badOwner ∧ e'.ainfo.group = badGroup
  content : hasContent e.ftype → e'.cinfo = e.cinfo
  noContent : hasContent e.ftype = false → e'.cinfo = ⟨badCont, badCont, badCont⟩
  npkgs : e'.npkgs = e.npkgs
  pinfo : e'.pinfo.map (fun p => (p.pkg, p.status, p.editflag != 0, p.aclass)) =
    e.pinfo.map fun p => (p.pkg, p.status, p.editflag != 0, p.aclass)

theorem fillDevices_eq (e ept : Cfent) : fillDevices e ept = { ept with ainfo := { ept.ainfo with
    major := if isDevice e.ftype then e.ainfo.major else ept.ainfo.major
    minor := if isDevice e.ftype then e.ainfo.minor else ept.ainfo.minor } } := by
  by_cases h : isDevice e.ftype
  · simp only [fillDevices, if_pos h]
  · simp only [fillDevices, if_neg h]

theorem fillAttrs_eq (e ept : Cfent) : fillAttrs e ept = { ept with ainfo := { ept.ainfo with
    mode := if hasAttrs e.ftype then e.ainfo.mode else ept.ainfo.mode
    owner := if hasAttrs e.ftype then e.ainfo.owner else ept.ainfo.owner
    group := if hasAttrs e.ftype then e.ainfo.group else ept.ainfo.group } } := by
  by_cases h : hasAttrs e.ftype
  · simp only [fillAttrs, if_pos h]
  · simp only [fillAttrs, if_neg h]

theorem fillContent_eq (e ept : Cfent) : fillContent e ept =
    { ept with cinfo := if hasContent e.ftype then e.cinfo else ept.cinfo } := by
  by_cases h : hasContent e.ftype
  · simp only [fillContent, if_pos h]
  · simp only [fillContent, if_neg h]

theorem readBack_agrees (e ept : Cfent) : Agrees e (e.readBack ept) := by
  have hpinfo : (e.pinfo.map Pinfo.readBack).map
      (fun p => (p.pkg, p.status, p.editflag != 0, p.aclass)) =
      e.pinfo.map fun p => (p.pkg, p.status, p.editflag != 0, p.aclass) := by
    rw [List.map_map]
    apply List.map_congr_left
    intro p _
    by_cases h : p.editflag = 0
    · simp [Pinfo.readBack, h]
    · simp [Pinfo.readBack, h]
  rw [Cfent.readBack, fillContent_eq, fillAttrs_eq, fillDevices_eq]
  have hfalse {b : Bool} (h : b = false) : ¬ b = true := by simp [h]
  exact {
    path := rfl
    ftype := rfl
    pkgClass := rfl
    localPath := rfl
    devices := fun h => ⟨if_pos h, if_pos h⟩
    attrs := fun h => ⟨if_pos h, if_pos h, if_pos h⟩
    noAttrs := fun h => ⟨if_neg (hfalse h), if_neg (hfalse h), if_neg (hfalse h)⟩
    content := fun h => if_pos h
    noContent := fun h => if_neg (hfalse h)
    npkgs := rfl
    pinfo := hpinfo }

theorem InRange.bounds (h : InRange w n (-1)) : -2 ^ (w - 1) ≤ n ∧ n < 2 ^ (w - 1) := by
  have hpos : (0 : Int) < 2 ^ (w - 1) := by positivity
  rcases h with ⟨h₀, h₁⟩ | rfl
  · exact ⟨by omega, h₁⟩
  · omega

theorem Cfent.Writable.typed {e : Cfent} {path : Str} (hw : e.Writable path) : e.Typed where
  mode := hw.mode
  major := hw.major.bounds
  minor := hw.minor.bounds
  size := hw.size.bounds
  cksum := hw.cksum.bounds
  modtime := hw.modtime.bounds

def lineOf (e : Cfent) : Str := entryText e (e.path.getD [])

theorem putEntries_appends (es : List Cfent) (hes : ∀ e ∈ es, ∃ path, e.Writable path) (v : Vfp) :
    Appends v (putEntries es v) (unlines (es.map lineOf)) := by
  induction es generalizing v with
  | nil => exact Appends.refl v
  | cons e es ih =>
    obtain ⟨path, hw⟩ := hes e List.mem_cons_self
    have hput := putcvfpfile_appends v hw.typed (isFtype_nonspace hw.ftype).2 hw.volno hw.named
    have hline : unlines ((e :: es).map lineOf) =
        (entryText e path ++ ['\n']) ++ unlines (es.map lineOf) := by
      rw [List.map_cons, unlines_cons, lineOf, hw.named, List.append_assoc]
      rfl
    rw [hline]
    exact hput.trans (ih (fun x hx => hes x (List.mem_cons_of_mem _ hx)) _)

theorem srchcfile_entry (hw : e.Legible path) (hc : e.Numbered)
    (h : cf.Reads before (entryText e path ++ '\n' :: R)) (stack : Str) (ept : Cfent)
    (tmp : Option Vfp) :
    srchcfile stack ept (some ['*']) cf tmp =
      ⟨1, none, e.readBack ept, cf.moveTo (before.length + (entryText e path).length + 1),
        tmp⟩ := by
  have hread : cf.Reads before (unlines [] ++ (entryText e path ++ '\n' :: R)) := h
  exact srchcfile_of_parseLine hread (by simp) hw.oneLine hw.found.1 hw.found.2
    (parseLine_entryText hw hc ept) stack tmp

theorem searchCalls_entries (es : List Cfent) (hes : ∀ e ∈ es, ∃ path, e.Writable path)
    (h : cf.Reads before (unlines (es.map lineOf))) (stack : Nat → Str) (ept : Cfent) :
    ∃ founds final, searchCalls stack (es.length + 1) ept cf = founds ++ [final] ∧
      List.Forall₂ (fun (e : Cfent) (found : Found) => found.ret = 1 ∧
        Agrees e found.ept) es founds ∧
      final.ret = 0 := by
  induction es generalizing before ept cf with
  | nil =>
    refine ⟨[], _, rfl, .nil, ?_⟩
    rw [srchcfile_atEnd h]
  | cons e es ih =>
    obtain ⟨path, hw⟩ := hes e List.mem_cons_self
    have hline : lineOf e = entryText e path := by rw [lineOf, hw.named]; rfl
    rw [List.map_cons, unlines_cons, hline] at h
    have hcall := srchcfile_entry hw.legible hw.numbered h (stack (es.length + 1)) ept none
    have hnext : (cf.moveTo (before.length + (entryText e path).length + 1)).Reads
        (before ++ (entryText e path ++ ['\n'])) (unlines (es.map lineOf)) := by
      rw [Nat.add_assoc]
      exact h.line
    obtain ⟨founds, final, hcalls, hfounds, hfinal⟩ :=
      ih (fun x hx => hes x (List.mem_cons_of_mem _ hx)) hnext (e.readBack ept)
    refine ⟨srchcfile (stack (es.length + 1)) ept (some ['*']) cf none :: founds, final, ?_,
      .cons ?_ hfounds, hfinal⟩
    · rw [List.length_cons, searchCalls]
      simp only [hcall, hcalls, List.cons_append]
    · rw [hcall]
      exact ⟨rfl, readBack_agrees e ept⟩

/-- The lines of the entries are read entry by entry. -/
theorem searchCalls_unlines (es : List Cfent) (hes : ∀ e ∈ es, ∃ path, e.Writable path)
    (stack : Nat → Str) (ept : Cfent) :
    ∃ founds final, searchCalls stack (es.length + 1) ept (vfpOpen (unlines (es.map lineOf))) =
        founds ++ [final] ∧
      List.Forall₂ (fun e found => found.ret = 1 ∧ Agrees e found.ept) es founds ∧
      final.ret = 0 := by
  have hlines : ∀ l ∈ es.map lineOf, OneLine l := by
    intro l hl
    obtain ⟨e, he, rfl⟩ := List.mem_map.mp hl
    obtain ⟨path, hw⟩ := hes e he
    rw [lineOf, hw.named]
    exact hw.legible.oneLine
  exact searchCalls_entries es hes (vfpOpen_reads (nulFree_unlines hlines)) stack ept

/-- What `putcvfpfile` writes for a sequence of entries, `srchcfile` reads back entry by entry. -/
theorem putcvfpfile_srchcfile (es : List Cfent) (hes : ∀ e ∈ es, ∃ path, e.Writable path) (v : Vfp)
    (hv : v.Wf) (hempty : v.text = []) (hroom : (putEntries es v).HasRoom) (stack : Nat → Str)
    (ept : Cfent) :
    ∃ founds final,
      searchCalls stack (es.length + 1) ept (vfpOpen (putEntries es v).text) = founds ++ [final] ∧
      List.Forall₂ (fun e found => found.ret = 1 ∧ Agrees e found.ept) es founds ∧
      final.ret = 0 := by
  have htext : (putEntries es v).text = unlines (es.map lineOf) := by
    rw [(putEntries_appends es hes v).text hv hroom, hempty, List.nil_append]
  rw [htext]
  exact searchCalls_unlines es hes stack ept

def threeObjects : List Cfent := [sampleLink, sharedDir, ownedFile]

theorem threeObjects_writable : ∀ e ∈ threeObjects, ∃ path, e.Writable path :=
  List.forall_mem_cons.mpr ⟨⟨_, sampleLink_writable⟩, List.forall_mem_cons.mpr
    ⟨⟨_, sharedDir_writable⟩, List.forall_mem_singleton.mpr ⟨_, ownedFile_writable⟩⟩⟩

/-- A link, a directory of two packages and a file. -/
theorem putcvfpfile_srchcfile_three :
    ∃ founds final, searchCalls (fun _ => []) 4 zeroEntry
        (vfpOpen (putEntries threeObjects (vfpAnonymous 256 256 fun _ => nul)).text) =
          founds ++ [final] ∧
      List.Forall₂ (fun e found => found.ret = 1 ∧ Agrees e found.ept) threeObjects founds ∧
      final.ret = 0 :=
  putcvfpfile_srchcfile threeObjects threeObjects_writable _
    (vfpAnonymous_wf 256 256 _ (by decide)) rfl (by decide +kernel) (fun _ => []) zeroEntry

/-- The mode of a link is not written, so it is read back as the sentinel. -/
theorem srchcfile_drops_link_mode :
    sampleLink.Writable "/usr/adm".toList ∧
    (putEntries [sampleLink] (vfpAnonymous 64 64 fun _ => nul)).HasRoom ∧
    sampleLink.ainfo.mode = 0o644 ∧
    (srchcfile [] zeroEntry (some ['*'])
      (vfpOpen (putEntries [sampleLink] (vfpAnonymous 64 64 fun _ => nul)).text)
      none).ept.ainfo.mode = badMode :=
  ⟨sampleLink_writable, by decide +kernel, rfl, by decide +kernel⟩

end Pkgtools
