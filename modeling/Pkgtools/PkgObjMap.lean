import Pkgtools.CLib.Collect
import Pkgtools.CLib.PointerArray
import Pkgtools.InstallRoot
import Pkgtools.MergInfo
import Pkgtools.PkgMap

namespace Pkgtools
open CLib
set_option autoImplicit true

/-- `struct cfextra` as `pkgobjmap` fills it in; the flags of the merge are all clear. -/
structure PkgObj where
  cfEnt : Cfent
  serverLocal : Option Str
  clientLocal : Option Str
  serverPath : Option Str
  clientPath : Option Str
  mapPath : Option Str
  fsysValue : Int
  fsysBase : Int
  deriving DecidableEq, Repr

/-- A record that was just allocated or cleared. -/
def blankObj : PkgObj := ⟨zeroEntry, none, none, none, none, none, 0, 0⟩

def PkgObj.path (o : PkgObj) : Str := o.cfEnt.path.getD []

def badFsys : Int := -1

def eptMalloc : Nat := 512

/-- What `eval_path` makes of a path. -/
structure EvalPath where
  server : Str
  client : Str
  map : Str

/-- The evaluation of paths: `mappath` in the mode of the program, and `eval_path`. -/
structure PathEval where
  mappath : Str → Str
  evalPath : Str → EvalPath

/-- `strchr (set, c)`, which also finds the terminator. -/
def inSet (set : String) (c : Char) : Bool := c ∈ nul :: set.toList

/-- `ainfo.local` with the pointers into it. -/
structure LocalPath where
  path : Option Str
  server : Option Str
  client : Option Str
  duped : Bool

/-- The delivered source of a file that names none. -/
def deliveredLocal (mapflag : Int) (ept : Cfent) : LocalPath :=
  if 1 < mapflag ∧ inSet "fve" ept.ftype ∧ ept.ainfo.localPath = none then
    let source := '~' :: strlcpy pathMax (ept.path.getD [])
    ⟨some source, some source, some source, true⟩
  else ⟨ept.ainfo.localPath, none, none, false⟩

def linkLocal (ev : PathEval) (mapflag : Int) (ftype : Char) (loc : LocalPath) : LocalPath :=
  if inSet "sl" ftype ∧ mapflag ≠ 0 then
    match loc.path with
    | none => loc
    | some path =>
      let path := ev.mappath path
      if path.head? = some '/' then
        let path := canonize path
        if ftype = 'l' then
          let e := ev.evalPath path
          ⟨some e.server, some e.server, some e.client, true⟩
        else { loc with path := some path }
      else { loc with path := some path }
  else loc

/-- `pkgobjassign`, once the class was found to be selected. -/
def assignPaths (ev : PathEval) (mapflag : Int) (ept : Cfent) : PkgObj :=
  let path := ept.path.getD []
  let loc := linkLocal ev mapflag ept.ftype (deliveredLocal mapflag ept)
  let ent (path : Str) : Cfent :=
    { ept with path := some path, ainfo := { ept.ainfo with localPath := loc.path } }
  let server := if loc.duped then loc.server else loc.path
  let client := if loc.duped then loc.client else loc.path
  if mapflag ≠ 0 ∧ ept.ftype ≠ 'i' then
    let e := ev.evalPath (canonize (ev.mappath path))
    ⟨ent e.server, server, client, some e.server, some e.client, some e.map, badFsys, badFsys⟩
  else ⟨ent path, server, client, some path, some path, none, badFsys, badFsys⟩

/-- `pkgobjassign`; it does not take an object of a class that is not selected. -/
def pkgobjassign (ev : PathEval) (clClasses : Option (List ClAttr)) (mapflag : Int) (ept : Cfent) :
    Option PkgObj :=
  if 0 ≤ clGetn clClasses ∧ ept.ftype ≠ 'i' then
    let idx := clIdx clClasses ept.pkgClass
    if idx = -1 then none else some (assignPaths ev mapflag { ept with pkgClassIdx := idx })
  else some (assignPaths ev mapflag ept)

/-- `ckdup`: whether the two can be one, and the entry that is kept, with what was merged into it up
to then. -/
def ckdup (ept1 ept2 : Cfent) : Bool × Cfent :=
  if inSet "?dx" ept1.ftype = false ∨ inSet "?dx" ept2.ftype = false then (false, ept2)
  else
    let ept2 := if ept2.ainfo.mode = badMode then storeModeT ept1.ainfo.mode ept2 else ept2
    if ept1.ainfo.mode ≠ ept2.ainfo.mode ∧ ept1.ainfo.mode ≠ badMode then (false, ept2)
    else
      let ept2 := if ept2.ainfo.owner = "?".toList then
        storeOwner (strlcpy (atrsiz + 1) ept1.ainfo.owner) ept2 else ept2
      if ept1.ainfo.owner ≠ ept2.ainfo.owner ∧ ept1.ainfo.owner ≠ "?".toList then (false, ept2)
      else
        let ept2 := if ept2.ainfo.group = "?".toList then
          storeGroup (strlcpy (atrsiz + 1) ept1.ainfo.group) ept2 else ept2
        if ept1.ainfo.group ≠ ept2.ainfo.group ∧ ept1.ainfo.group ≠ "?".toList then (false, ept2)
        else
          let ept2 := if ept1.pinfo ≠ [] then { ept2 with npkgs := ept1.npkgs, pinfo := ept1.pinfo }
            else ept2
          (true, ept2)

/-- The first loop of `pkgobjmap`: the array and the number of objects at the end of the map, or
`none` for a bad entry. It is undefined when the rounds do not do. -/
def readObjects (ev : PathEval) (clClasses : Option (List ClAttr)) (cfg : MapConfig)
    (mapflag : Int) :
    Nat → Vfp → PointerArray PkgObj → Nat → Option (Option (PointerArray PkgObj × Nat))
  | 0, _, _, _ => none
  | rounds + 1, vfp, xspace, eptnum =>
    match gpkgmapvfp cfg zeroEntry vfp with
    | none => none
    | some (.error _, _) => some none
    | some (.ok (n, mapEntry), vfp) =>
      if n = 0 then some (some (xspace, eptnum))
      else
        let next := xspace.nextAvail blankObj
        match pkgobjassign ev clClasses mapflag mapEntry with
        | none =>
          -- it didn't take
          readObjects ev clClasses cfg mapflag rounds vfp (next.delete blankObj eptnum) eptnum
        | some ext =>
          readObjects ev clClasses cfg mapflag rounds vfp (next.put xspace.avail ext) (eptnum + 1)

/-- Where the search of `sortentry` ends: at an object with the path, or where it belongs. -/
inductive Place where
  | same (i : Nat)
  | before (i : Nat)
  deriving DecidableEq, Repr

/-- The search of `sortentry` for the place of a path among the objects in front of `index`. It is
undefined where it looks at any other slot. -/
def sortSearch (path : Str) (extlist : List (Option PkgObj)) (index : Nat) :
    Nat → Int → Int → Int → Option Place
  | 0, _, _, _ => none
  | fuel + 1, lower, upper, i =>
    if 0 ≤ i ∧ i < index then
      match extlist[i.toNat]? with
      | some (some ext) =>
        if path = ext.path then some (.same i.toNat)
        else if path < ext.path then
          if i = lower then some (.before i.toNat)
          else sortSearch path extlist index fuel lower i (lower + (i - lower) / 2)
        else
          let lower := i + 1
          if upper = lower then some (.before upper.toNat)
          else sortSearch path extlist index fuel lower upper (upper - (upper - lower) / 2 - 1)
      | _ => none
    else none

structure ObjSort where
  extlist : PointerArray PkgObj
  eptnum : Nat
  last : Nat
  errflg : Nat

/-- `sortentry` for an index that is not negative; whether the index is to be used again. -/
def sortentry (index : Nat) (st : ObjSort) : Option (Bool × ObjSort) :=
  if index = 0 then some (false, st)
  else match st.extlist.slots[index]?, st.extlist.slots[index - 1]? with
    | some (some ext), some (some prev) =>
      -- quick comparison optimization for pre-sorted arrays
      if prev.path < ext.path then some (false, { st with last := index - 1 })
      else match sortSearch ext.path st.extlist.slots index (index + 1) 0 index st.last with
        | some (.same i) => match st.extlist.slots[i]? with
          | some (some old) =>
            let (ok, ept) := ckdup ext.cfEnt old.cfEnt
            let extlist := st.extlist.put i { old with cfEnt := ept }
            some (true, { st with
              extlist := extlist.delete blankObj index
              eptnum := st.eptnum - 1
              errflg := if ok then st.errflg else st.errflg + 1 })
          | _ => none
        | some (.before i) =>
          some (false, { st with extlist := st.extlist.move index i, last := i })
        | none => none
    | _, _ => none

/-- The second loop of `pkgobjmap`. Every round goes on to the next object or takes one out. -/
def sortObjects : Nat → Nat → ObjSort → Option ObjSort
  | 0, _, _ => none
  | fuel + 1, i, st =>
    if i < st.eptnum then
      match sortentry i st with
      | none => none
      | some (true, st) => sortObjects fuel i st
      | some (false, st) => sortObjects fuel (i + 1) st
    else some st

/-- `pkgobjmap` without preloaded objects: the list, or `none` for NULL. -/
def pkgobjmap (ev : PathEval) (clClasses : Option (List ClAttr)) (cfg : MapConfig) (mapflag : Int)
    (rounds : Nat) (vfp : Vfp) : Option (Option (List (Option PkgObj))) :=
  match readObjects ev clClasses cfg mapflag rounds vfp (PointerArray.create eptMalloc) 0 with
  | none => none
  | some none => some none
  | some (some (xspace, eptnum)) =>
    if eptnum = 0 then some none
    else (sortObjects (eptnum + 1) 0 ⟨xspace, eptnum, 0, 0⟩).map fun st =>
      if st.errflg ≠ 0 then none else some st.extlist.slots

section Search
variable {pre : List PkgObj} {path : Str} {extlist : List (Option PkgObj)}

def Place.Fits (path : Str) (pre : List PkgObj) : Place → Prop
  | .same i => ∃ a y b, pre = a ++ y :: b ∧ a.length = i ∧ y.path = path
  | .before i => ∃ a b, pre = a ++ b ∧ a.length = i ∧ (∀ y ∈ a, y.path < path) ∧
      ∀ y ∈ b, path < y.path

theorem fits_before {i : Nat} (hi : i ≤ pre.length)
    (hlow : ∀ k (h : k < pre.length), k < i → (pre.get ⟨k, h⟩).path < path)
    (hup : ∀ k (h : k < pre.length), i ≤ k → path < (pre.get ⟨k, h⟩).path) :
    (Place.before i).Fits path pre := by
  refine ⟨pre.take i, pre.drop i, (List.take_append_drop i pre).symm,
    List.length_take_of_le hi, fun y hy => ?_, fun y hy => ?_⟩
  · obtain ⟨k, hk, rfl⟩ := List.getElem_of_mem hy
    rw [List.length_take] at hk
    rw [List.getElem_take]
    exact hlow k (by omega) (by omega)
  · obtain ⟨k, hk, rfl⟩ := List.getElem_of_mem hy
    rw [List.length_drop] at hk
    rw [List.getElem_drop]
    exact hup (i + k) (by omega) (by omega)

theorem fits_same {i : Nat} (hi : i < pre.length) (hp : (pre.get ⟨i, hi⟩).path = path) :
    (Place.same i).Fits path pre := by
  refine ⟨pre.take i, pre.get ⟨i, hi⟩, pre.drop (i + 1), ?_, List.length_take_of_le (by omega), hp⟩
  rw [List.get_eq_getElem, List.getElem_cons_drop, List.take_append_drop]

/-- The search stays between its bounds, wherever it starts, and what is outside of them is smaller
or greater than the path. -/
theorem sortSearch_fits (hget : ∀ k (h : k < pre.length),
    extlist[k]? = some (some (pre.get ⟨k, h⟩)))
    (hsorted : pre.Pairwise fun a b => a.path < b.path) {fuel : Nat} {lower upper i : Int}
    (h0 : 0 ≤ lower) (hl : lower ≤ i) (hu : i < upper) (hn : upper ≤ pre.length)
    (hfuel : upper - lower ≤ fuel)
    (hlow : ∀ k (h : k < pre.length), (k : Int) < lower → (pre.get ⟨k, h⟩).path < path)
    (hup : ∀ k (h : k < pre.length), upper ≤ k → path < (pre.get ⟨k, h⟩).path) :
    ∃ place, sortSearch path extlist pre.length fuel lower upper i = some place ∧
      place.Fits path pre := by
  have hlt {j k : Nat} (hj : j < pre.length) (hk : k < pre.length) (h : j < k) :
      (pre.get ⟨j, hj⟩).path < (pre.get ⟨k, hk⟩).path :=
    List.pairwise_iff_getElem.mp hsorted j k hj hk h
  induction fuel generalizing lower upper i with
  | zero => omega
  | succ fuel ih =>
    have hi : i.toNat < pre.length := by omega
    have hin : 0 ≤ i ∧ i < (pre.length : Int) := by omega
    rw [sortSearch, if_pos hin, hget i.toNat hi]
    dsimp only
    by_cases hsame : path = (pre.get ⟨i.toNat, hi⟩).path
    · rw [if_pos hsame]
      exact ⟨_, rfl, fits_same hi hsame.symm⟩
    rw [if_neg hsame]
    by_cases hless : path < (pre.get ⟨i.toNat, hi⟩).path
    · rw [if_pos hless]
      have hup' (k : Nat) (h : k < pre.length) (hk : i ≤ k) : path < (pre.get ⟨k, h⟩).path := by
        rcases Nat.eq_or_lt_of_le (show i.toNat ≤ k by omega) with rfl | hik
        · exact hless
        · exact lt_trans hless (hlt hi h hik)
      by_cases hend : i = lower
      · rw [if_pos hend]
        exact ⟨_, rfl, fits_before (by omega) (fun k h hk => hlow k h (by omega))
          fun k h hk => hup' k h (by omega)⟩
      · rw [if_neg hend]
        exact ih h0 (by omega) (by omega) (by omega) (by omega) hlow hup'
    · rw [if_neg hless]
      have hmore : (pre.get ⟨i.toNat, hi⟩).path < path :=
        lt_of_le_of_ne (not_lt.mp hless) (Ne.symm hsame)
      have hlow' (k : Nat) (h : k < pre.length) (hk : (k : Int) < i + 1) :
          (pre.get ⟨k, h⟩).path < path := by
        rcases Nat.eq_or_lt_of_le (show k ≤ i.toNat by omega) with rfl | hik
        · exact hmore
        · exact lt_trans (hlt h hi hik) hmore
      by_cases hend : upper = i + 1
      · rw [if_pos hend]
        exact ⟨_, rfl, fits_before (by omega) (fun k h hk => hlow' k h (by omega))
          fun k h hk => hup k h (by omega)⟩
      · rw [if_neg hend]
        exact ih (by omega) (by omega) (by omega) hn (by omega) hlow' hup

end Search

section Rounds
variable {seen pre rest : List PkgObj} {x y : PkgObj} {st : ObjSort}

/-- The types of which there may be more than one object for a path. -/
def Shares (o : PkgObj) : Prop := inSet "?dx" o.cfEnt.ftype

theorem ckdup_path (ept1 ept2 : Cfent) : (ckdup ept1 ept2).2.path = ept2.path := by
  have hite {p : Prop} [Decidable p] {a b : Bool × Cfent} {q : Option Str} (ha : a.2.path = q)
      (hb : b.2.path = q) : (if p then a else b).2.path = q := by
    split
    · exact ha
    · exact hb
  have hset {p : Prop} [Decidable p] {a b : Cfent} {q : Option Str} (ha : a.path = q)
      (hb : b.path = q) : (if p then a else b).path = q := by
    split
    · exact ha
    · exact hb
  unfold ckdup
  refine hite rfl ?_
  extract_lets merged withOwner withGroup withPkgs
  have hm : merged.path = ept2.path := hset rfl rfl
  have ho : withOwner.path = ept2.path := hset hm hm
  have hg : withGroup.path = ept2.path := hset ho ho
  exact hite hm (hite ho (hite hg (hset hg hg)))

theorem ckdup_shares (h : (ckdup ept1 ept2).1 = true) :
    inSet "?dx" ept1.ftype ∧ inSet "?dx" ept2.ftype := by
  by_contra hset
  rw [not_and_or, Bool.not_eq_true, Bool.not_eq_true] at hset
  rw [ckdup, if_pos hset] at h
  cases h

/-- How far the sort is: the objects `seen` were collected into `pre`, and `rest` is behind. -/
structure Sorting (seen pre rest : List PkgObj) (st : ObjSort) : Prop where
  holds : st.extlist.Holds blankObj (pre ++ rest)
  count : st.eptnum = (pre ++ rest).length
  last : st.last < max 1 pre.length
  collected : Collected PkgObj.path Shares (st.errflg = 0) seen pre

theorem Sorting.getElem? (h : Sorting seen pre rest st) {k : Nat} (hk : k < pre.length) :
    st.extlist.slots[k]? = some (some (pre.get ⟨k, hk⟩)) := by
  rw [h.holds.getElem? (show k < (pre ++ rest).length by rw [List.length_append]; omega)]
  simp only [List.get_eq_getElem, List.getElem_append_left hk]

theorem Sorting.getElem?_index (h : Sorting seen pre (x :: rest) st) :
    st.extlist.slots[pre.length]? = some (some x) := by
  rw [h.holds.getElem? (by simp)]
  simp

theorem Sorting.insert {a b : List PkgObj} (h : Sorting seen (a ++ b) (x :: rest) st)
    (hx : st'.extlist.Holds blankObj ((a ++ x :: b) ++ rest)) (hcount : st'.eptnum = st.eptnum)
    (herr : st'.errflg = st.errflg) (hlast : st'.last ≤ (a ++ b).length)
    (ha : ∀ y ∈ a, y.path < x.path) (hb : ∀ y ∈ b, x.path < y.path) :
    Sorting (seen ++ [x]) (a ++ x :: b) rest st' := by
  refine ⟨hx, ?_, ?_, ?_⟩
  · rw [hcount, h.count]
    simp only [List.length_append, List.length_cons]
    omega
  · rw [List.length_append] at hlast
    rw [List.length_append, List.length_cons]
    omega
  · rw [herr]
    exact h.collected.insert ha hb

theorem Sorting.move {a b : List PkgObj} (h : Sorting seen (a ++ b) (x :: rest) st)
    (ha : ∀ y ∈ a, y.path < x.path) (hb : ∀ y ∈ b, x.path < y.path) :
    Sorting (seen ++ [x]) (a ++ x :: b) rest
      { st with extlist := st.extlist.move (a ++ b).length a.length, last := a.length } := by
  refine h.insert ?_ rfl rfl (by simp) ha hb
  have hmove := h.holds.move
  rw [List.length_append, List.append_assoc, List.cons_append]
  exact hmove

theorem Sorting.merge {a b : List PkgObj} (h : Sorting seen (a ++ y :: b) (x :: rest) st)
    (hp : x.path = y.path) :
    Sorting (seen ++ [x]) (a ++ { y with cfEnt := (ckdup x.cfEnt y.cfEnt).2 } :: b) rest
      { st with
        extlist := (st.extlist.put a.length { y with cfEnt := (ckdup x.cfEnt y.cfEnt).2 }).delete
          blankObj (a ++ y :: b).length
        eptnum := st.eptnum - 1
        errflg := if (ckdup x.cfEnt y.cfEnt).1 then st.errflg else st.errflg + 1 } := by
  have hkept : PkgObj.path { y with cfEnt := (ckdup x.cfEnt y.cfEnt).2 } = y.path := by
    rw [PkgObj.path, ckdup_path]
    rfl
  generalize hz : ({ y with cfEnt := (ckdup x.cfEnt y.cfEnt).2 } : PkgObj) = z at hkept ⊢
  refine ⟨?_, ?_, ?_, ?_⟩
  · have hput := h.holds.put (i := a.length) (by simp) z
    have hset : (a ++ y :: b ++ x :: rest).set a.length z = (a ++ z :: b) ++ x :: rest := by
      simp
    rw [hset] at hput
    have hdelete := hput.delete
    rw [List.length_append, List.length_cons] at hdelete ⊢
    exact hdelete
  · show st.eptnum - 1 = _
    rw [h.count]
    simp only [List.length_append, List.length_cons]
    omega
  · have hlast := h.last
    simp only [List.length_append, List.length_cons] at hlast ⊢
    exact hlast
  · refine h.collected.merge hp hkept fun herr => ?_
    dsimp only at herr
    split at herr
    · rename_i hok
      obtain ⟨hx, hy⟩ := ckdup_shares hok
      exact ⟨herr, hx, hy⟩
    · cases herr

/-- One round: the object at the index goes to its place, or is merged into another one. -/
theorem Sorting.sortentry (h : Sorting seen pre (x :: rest) st) :
    ∃ again st' pre', sortentry pre.length st = some (again, st') ∧
      Sorting (seen ++ [x]) pre' rest st' ∧
      pre'.length = if again then pre.length else pre.length + 1 := by
  rw [Pkgtools.sortentry]
  by_cases h0 : pre.length = 0
  · obtain rfl := List.eq_nil_of_length_eq_zero h0
    refine ⟨false, st, [x], if_pos rfl, ?_, rfl⟩
    have hlast := h.last
    exact h.insert (a := []) (b := []) h.holds rfl rfl (by simpa using hlast)
      (fun _ hy => absurd hy List.not_mem_nil) fun _ hy => absurd hy List.not_mem_nil
  · have hprev : pre.length - 1 < pre.length := by omega
    rw [if_neg h0, h.getElem?_index, h.getElem? hprev]
    dsimp only
    by_cases hquick : (pre.get ⟨pre.length - 1, hprev⟩).path < x.path
    · rw [if_pos hquick]
      refine ⟨false, _, pre ++ [x], rfl, ?_, by simp⟩
      have hless (y) (hy : y ∈ pre) : y.path < x.path := by
        obtain ⟨k, hk, rfl⟩ := List.getElem_of_mem hy
        rcases Nat.eq_or_lt_of_le (show k ≤ pre.length - 1 by omega) with rfl | hlt
        · exact hquick
        · exact lt_trans (List.pairwise_iff_getElem.mp h.collected.sorted k _ hk hprev hlt) hquick
      have hstay : Sorting seen (pre ++ []) (x :: rest) st := by rwa [List.append_nil]
      refine hstay.insert ?_ rfl rfl ?_ hless fun _ hy => absurd hy List.not_mem_nil
      · rw [List.append_assoc]
        exact h.holds
      · rw [List.append_nil]
        exact Nat.sub_le _ _
    · rw [if_neg hquick]
      have hlast := h.last
      obtain ⟨place, hsearch, hfits⟩ : ∃ place, sortSearch x.path st.extlist.slots pre.length
          (pre.length + 1) 0 pre.length st.last = some place ∧ place.Fits x.path pre :=
        sortSearch_fits (fun k hk => h.getElem? hk) h.collected.sorted (by omega) (by omega)
          (by omega) (by omega) (by omega) (fun k _ hk => by omega) fun k hk hle => by omega
      rw [hsearch]
      cases place with
      | same i =>
        obtain ⟨a, y, b, rfl, rfl, hp⟩ := hfits
        have hy : st.extlist.slots[a.length]? = some (some y) := by
          rw [h.getElem? (by simp)]
          simp
        simp only [hy]
        exact ⟨true, _, _, rfl, h.merge hp.symm, by simp⟩
      | before i =>
        obtain ⟨a, b, rfl, rfl, ha, hb⟩ := hfits
        exact ⟨false, _, _, rfl, h.move ha hb, by simp; omega⟩

theorem Sorting.run (h : Sorting seen pre rest st) {fuel : Nat} (hfuel : rest.length < fuel) :
    ∃ st' pre', sortObjects fuel pre.length st = some st' ∧ Sorting (seen ++ rest) pre' [] st' := by
  induction rest generalizing seen pre st fuel with
  | nil =>
    obtain ⟨fuel, rfl⟩ := Nat.exists_eq_add_of_lt hfuel
    have hend : ¬ pre.length < st.eptnum := by
      rw [h.count, List.append_nil]
      exact Nat.lt_irrefl _
    refine ⟨st, pre, ?_, by rwa [List.append_nil]⟩
    rw [sortObjects, if_neg hend]
  | cons x rest ih =>
    rw [List.length_cons] at hfuel
    obtain ⟨fuel, rfl⟩ := Nat.exists_eq_add_of_lt hfuel
    have hmore : pre.length < st.eptnum := by
      rw [h.count, List.length_append, List.length_cons]
      omega
    obtain ⟨again, st', pre', hentry, hsorting, hlen⟩ := h.sortentry
    obtain ⟨st'', pre'', hrun, hend⟩ :=
      ih hsorting (show rest.length < rest.length + 1 + fuel by omega)
    rw [List.append_assoc] at hend
    refine ⟨st'', pre'', ?_, hend⟩
    rw [hlen] at hrun
    rw [sortObjects, if_pos hmore, hentry]
    cases again <;> exact hrun

end Rounds

section Types
variable {R : MapReaders σ} {cfg : MapConfig} {ept : Cfent} {t : Char}

def KeepsType (store : α → Cfent → Cfent) : Prop := ∀ v e, (store v e).ftype = e.ftype

theorem elim_ftype (store : α → Cfent → Cfent) (hs : KeepsType store) (v : Option α)
    (h : ept.ftype = t) : (v.elim ept fun v => store v ept).ftype = t := by
  cases v with
  | none => exact h
  | some v => exact (hs v ept).trans h

theorem mapError_yields (errstr : Str) (ept : Cfent) (P : α → Prop) :
    Parse.Yields (mapError R errstr ept) P :=
  Parse.Yields.after (fun _ => Parse.Yields.raise _) _

theorem mapNum_ftype (store : Int → Cfent → Cfent) (hs : KeepsType store) (h : ept.ftype = t)
    (bad : Int) (errstr : String) :
    Parse.Yields (mapNum R bad store errstr ept) fun e => e.ftype = t := by
  refine Parse.Yields.after (fun r => ?_) _
  exact Parse.Yields.ite (mapError_yields _ _ _) (Parse.Yields.ret (elim_ftype store hs r.2 h))

theorem mapStr_ftype (store : Str → Cfent → Cfent) (hs : KeepsType store) (h : ept.ftype = t)
    (sep : Str) (n size : Nat) (errstr : String) :
    Parse.Yields (mapStr R sep n size store errstr ept) fun e => e.ftype = t := by
  refine Parse.Yields.after (fun r => ?_) _
  exact Parse.Yields.ite (mapError_yields _ _ _) (Parse.Yields.ret (elim_ftype store hs r.2 h))

theorem mapContent_ftype (h : ept.ftype = t) :
    Parse.Yields (mapContent R ept) fun e => e.ftype = t := by
  refine Parse.Yields.after (fun r => ?_) _
  have hr := elim_ftype storeSize (fun _ _ => rfl) r.2 h
  refine Parse.Yields.ite (Parse.Yields.ret hr) ?_
  exact Parse.Yields.bind (mapNum_ftype storeCksum (fun _ _ => rfl) hr _ _) fun e he =>
    mapNum_ftype storeModtime (fun _ _ => rfl) he _ _

theorem mapNoLocal_ftype (h : ept.ftype = t) (c : Option Char) :
    Parse.Yields (mapNoLocal R c ept) fun e => e.ftype = t := by
  refine Parse.Yields.after (fun _ => ?_) _
  exact Parse.Yields.ret h

theorem mapPath_ftype (h : ept.ftype = t) : Parse.Yields (mapPath R ept) fun e => e.ftype = t :=
  mapStr_ftype storePath (fun _ _ => rfl) h _ _ _ _

theorem mapPathLocal_ftype (h : ept.ftype = t) :
    Parse.Yields (mapPathLocal R ept) fun e => e.ftype = t := by
  refine Parse.Yields.after (fun c => ?_) _
  exact Parse.Yields.ite (mapStr_ftype storeLocal (fun _ _ => rfl) h _ _ _ _) (mapNoLocal_ftype h c)

theorem mapPathEnd_ftype (h : ept.ftype = t) :
    Parse.Yields (mapPathEnd R ept) fun r => r.2.ftype = t := by
  refine Parse.Yields.bind (Parse.Yields.onlyIf (mapContent_ftype h) h) fun e he => ?_
  refine Parse.Yields.after (fun extra => ?_) _
  exact Parse.Yields.ite (Parse.Yields.raise _) (Parse.Yields.ret he)

theorem mapPathOnly_ftype (h : ept.ftype = t) :
    Parse.Yields (mapPathOnly R ept) fun r => r.2.ftype = t :=
  Parse.Yields.bind (mapPath_ftype h) fun _ he =>
    Parse.Yields.bind (mapPathLocal_ftype he) fun _ he => mapPathEnd_ftype he

theorem mapLocal_ftype (h : ept.ftype = t) :
    Parse.Yields (mapLocal R ept) fun e => e.ftype = t := by
  refine Parse.Yields.after (fun c => ?_) _
  refine Parse.Yields.ite (mapStr_ftype storeLocal (fun _ _ => rfl) h _ _ _ _) ?_
  refine Parse.Yields.ite (Parse.Yields.ite ?_ (Parse.Yields.raise _)) (mapNoLocal_ftype h c)
  exact Parse.Yields.after (fun _ => Parse.Yields.raise _) _

theorem mapDevice_ftype (h : ept.ftype = t) :
    Parse.Yields (mapDevice R ept) fun e => e.ftype = t :=
  Parse.Yields.bind
    (mapNum_ftype storeMajor (fun _ _ => rfl)
      (show (storeMinor badMinor (storeMajor badMajor ept)).ftype = t from h) _ _)
    fun _ he => mapNum_ftype storeMinor (fun _ _ => rfl) he _ _

theorem mapName_ftype (store : Str → Cfent → Cfent) (hs : KeepsType store) (h : ept.ftype = t)
    (name : Str) : Parse.Yields (mapName R cfg name store ept) fun e => e.ftype = t := by
  unfold mapName
  cases mapvar cfg (atrsiz + 1) name with
  | none => exact fun _ _ _ hr => by cases hr
  | some r => exact Parse.Yields.ite (mapError_yields _ _ _) (Parse.Yields.ret ((hs _ _).trans h))

theorem mapNames_ftype (h : ept.ftype = t) :
    Parse.Yields (mapNames R cfg ept) fun e => e.ftype = t :=
  Parse.Yields.bind (mapName_ftype storeOwner (fun _ _ => rfl) h _) fun _ he =>
    mapName_ftype storeGroup (fun _ _ => rfl) he _

theorem mapAttr_ftype (store : Str → Cfent → Cfent) (hs : KeepsType store) (h : ept.ftype = t)
    (errstr : String) : Parse.Yields (mapAttr R store errstr ept) fun r => r.2.ftype = t := by
  refine Parse.Yields.after (fun r => ?_) _
  refine Parse.Yields.ite (Parse.Yields.ret h) ?_
  exact Parse.Yields.ite (mapError_yields _ _ _) (Parse.Yields.ret (elim_ftype store hs r.2 h))

theorem mapMode_ftype (h : ept.ftype = t) :
    Parse.Yields (mapMode R cfg ept) fun r => r.2.ftype = t := by
  refine Parse.Yields.after (fun r => ?_) _
  refine Parse.Yields.ite (Parse.Yields.ret h) (Parse.Yields.ite (mapError_yields _ _ _) ?_)
  cases modeValue cfg R.modeSize (r.2.getD []) with
  | none => exact fun _ _ _ hr => by cases hr
  | some v =>
    cases v with
    | error errstr => exact mapError_yields _ _ _
    | ok mode => exact Parse.Yields.ret h

theorem mapAttrs_ftype (h : ept.ftype = t) :
    Parse.Yields (mapAttrs R cfg ept) fun r => r.2.ftype = t := by
  refine Parse.Yields.bind (mapMode_ftype h) fun r hr => ?_
  refine Parse.Yields.ite (Parse.Yields.ret hr) ?_
  refine Parse.Yields.bind (mapAttr_ftype storeOwner (fun _ _ => rfl) hr _) fun r hr => ?_
  refine Parse.Yields.ite (Parse.Yields.ret hr) ?_
  refine Parse.Yields.bind (mapAttr_ftype storeGroup (fun _ _ => rfl) hr _) fun r hr => ?_
  refine Parse.Yields.ite (Parse.Yields.ret hr) ?_
  exact Parse.Yields.bind (Parse.Yields.onlyIf (mapNames_ftype hr) hr) fun e he =>
    Parse.Yields.ret he

theorem mapFields_ftype (h : ept.ftype = t) :
    Parse.Yields (mapFields R cfg ept) fun r => r.2.ftype = t := by
  refine Parse.Yields.ite (mapError_yields _ _ _) ?_
  refine Parse.Yields.bind (Parse.Yields.onlyIf (mapDevice_ftype h) h) fun e he => ?_
  refine Parse.Yields.bind (Parse.Yields.ite (mapAttrs_ftype he) (Parse.Yields.ret he)) fun r hr =>
    ?_
  have hcontent : Parse.Yields (mapTypedContent R r.1 r.2) fun e => e.ftype = t :=
    Parse.Yields.ite (Parse.Yields.onlyIf (mapContent_ftype hr) hr) (Parse.Yields.ret hr)
  refine Parse.Yields.bind hcontent fun e he => Parse.Yields.after (fun extra => ?_) _
  exact Parse.Yields.ite (Parse.Yields.raise _) (Parse.Yields.ret he)

theorem mapTyped_ftype (c : Char) (ept : Cfent) :
    Parse.Yields (mapTyped R cfg c ept) fun r => r.2.ftype = c := by
  refine Parse.Yields.bind (mapStr_ftype storeClass (fun _ _ => rfl)
    (show ({ ept with ftype := c } : Cfent).ftype = c from rfl) _ _ _ _) fun e he => ?_
  refine Parse.Yields.bind (mapPath_ftype he) fun e he => ?_
  exact Parse.Yields.bind (mapLocal_ftype he) fun e he => mapFields_ftype he

def MapType (c : Char) : Prop := isFtype c ∨ c = 'i'

/-- What the first character of an entry leads to: an entry, or another character of its line. -/
def SwitchType : (Int × Cfent) ⊕ Cfent → Prop
  | .inl r => MapType r.2.ftype
  | .inr e => e.ftype = '?'

theorem mapSwitch_ftype (h : ept.ftype = '?') (fuel : Nat) (c : Char) :
    Parse.Yields (mapSwitch R cfg fuel c ept) SwitchType := by
  have hdone {m : Parse σ Fail (Int × Cfent)} {t : Char} (ht : MapType t)
      (hm : Parse.Yields m fun r => r.2.ftype = t) :
      Parse.Yields (m >>= fun r => pure (Sum.inl r)) SwitchType :=
    Parse.Yields.bind hm fun r hr => Parse.Yields.ret (show MapType r.2.ftype from hr ▸ ht)
  have hagain {e : Cfent} (he : e.ftype = '?') :
      Parse.Yields (pure (.inr e) : Parse σ Fail ((Int × Cfent) ⊕ Cfent)) SwitchType :=
    Parse.Yields.ret he
  unfold mapSwitch
  refine Parse.Yields.ite (Parse.Yields.ite (mapError_yields _ _ _) ?_) ?_
  · refine Parse.Yields.after (fun v => ?_) _
    exact hagain h
  refine Parse.Yields.ite (Parse.Yields.after (fun _ => hagain h) _) ?_
  refine Parse.Yields.ite (hagain h) (Parse.Yields.ite ?_ (Parse.Yields.ite ?_ ?_))
  · refine Parse.Yields.after (fun d => Parse.Yields.after (fun _ => ?_) _) _
    exact hdone (.inr rfl) (mapPathOnly_ftype rfl)
  · exact Parse.Yields.after (fun _ => hdone (.inl (by decide)) (mapPathOnly_ftype h)) _
  · split
    · rename_i hc
      exact hdone (.inl hc) (mapTyped_ftype c ept)
    · exact mapError_yields _ _ _

theorem readline_ftype (fuel f : Nat) (h : ept.ftype = '?') :
    Parse.Yields (readline R cfg fuel f ept) fun r => r.1 ≠ 0 → MapType r.2.ftype := by
  induction f generalizing ept with
  | zero => exact fun _ _ _ hr => by cases hr
  | succ f ih =>
    refine Parse.Yields.after (fun c => ?_) _
    cases c with
    | none => exact Parse.Yields.ret fun hr => absurd rfl hr
    | some c =>
      refine Parse.Yields.bind (mapSwitch_ftype h fuel c) fun r hr => ?_
      cases r with
      | inl x => exact Parse.Yields.ret fun _ => hr
      | inr e => exact ih hr

theorem gpkgmapvfp_ftype {n : Int} {e : Cfent} {vfp vfp' : Vfp} {before : Cfent}
    (h : gpkgmapvfp cfg before vfp = some (.ok (n, e), vfp')) (hn : n ≠ 0) : MapType e.ftype :=
  readline_ftype _ _ rfl vfp (n, e) vfp' h hn

end Types

/-- The entries that are read from the map, up to its end. -/
inductive MapReads (cfg : MapConfig) : Vfp → List Cfent → Prop
  | done : gpkgmapvfp cfg zeroEntry vfp = some (.ok (0, e), vfp') → MapReads cfg vfp []
  | entry : gpkgmapvfp cfg zeroEntry vfp = some (.ok (n, e), vfp') → n ≠ 0 →
      MapReads cfg vfp' entries → MapReads cfg vfp (e :: entries)

/-- Every entry is taken if no classes were selected, and one of type `i` always. -/
def TakenEntry (clClasses : Option (List ClAttr)) (e : Cfent) : Prop :=
  clClasses.isNone ∨ e.ftype = 'i' ∨ e.pkgClass ∈ classNames clClasses

instance : Decidable (TakenEntry cls e) := inferInstanceAs (Decidable (_ ∨ _ ∨ _))

/-- The path an entry is installed at. -/
def evaluatedPath (ev : PathEval) (mapflag : Int) (e : Cfent) : Str :=
  if mapflag ≠ 0 ∧ e.ftype ≠ 'i' then
    (ev.evalPath (canonize (ev.mappath (e.path.getD [])))).server
  else e.path.getD []

section Objects
variable {ev : PathEval} {cls : Option (List ClAttr)} {cfg : MapConfig} {mapflag : Int}

theorem assignPaths_spec (ev : PathEval) (mapflag : Int) (e : Cfent) :
    (assignPaths ev mapflag e).path = evaluatedPath ev mapflag e ∧
      (assignPaths ev mapflag e).cfEnt.ftype = e.ftype := by
  unfold assignPaths evaluatedPath
  extract_lets
  by_cases h : mapflag ≠ 0 ∧ e.ftype ≠ 'i'
  · rw [if_pos h, if_pos h]
    exact ⟨rfl, rfl⟩
  · rw [if_neg h, if_neg h]
    exact ⟨rfl, rfl⟩

theorem pkgobjassign_eq_none_iff (ev : PathEval) (mapflag : Int) (e : Cfent) :
    pkgobjassign ev cls mapflag e = none ↔ ¬ TakenEntry cls e := by
  unfold pkgobjassign TakenEntry
  cases cls with
  | none => simp [clGetn]
  | some list =>
    have hclass := clIdx_ne_iff (some list) e.pkgClass
    by_cases hi : e.ftype = 'i'
    · simp [hi]
    · have hsel : 0 ≤ clGetn (some list) ∧ e.ftype ≠ 'i' := ⟨Int.natCast_nonneg _, hi⟩
      rw [if_pos hsel]
      by_cases hc : e.pkgClass ∈ classNames (some list)
      · simp [hclass.mpr hc, hc]
      · simp [not_not.mp (mt hclass.mp hc), hc, hi]

theorem pkgobjassign_eq_some {e : Cfent} {o : PkgObj} (h : pkgobjassign ev cls mapflag e = some o) :
    o.path = evaluatedPath ev mapflag e ∧ o.cfEnt.ftype = e.ftype := by
  have hfound (e' : Cfent) (ho : some (assignPaths ev mapflag e') = some o)
      (hp : evaluatedPath ev mapflag e' = evaluatedPath ev mapflag e) (ht : e'.ftype = e.ftype) :
      o.path = evaluatedPath ev mapflag e ∧ o.cfEnt.ftype = e.ftype := by
    obtain ⟨hpath, htype⟩ := assignPaths_spec ev mapflag e'
    rw [← Option.some.inj ho]
    exact ⟨hpath.trans hp, htype.trans ht⟩
  unfold pkgobjassign at h
  split at h
  · dsimp only at h
    split at h
    · cases h
    · exact hfound _ h rfl rfl
  · exact hfound _ h rfl rfl

theorem assigned_paths (entries : List Cfent) :
    (entries.filterMap (pkgobjassign ev cls mapflag)).map PkgObj.path =
      (entries.filter (TakenEntry cls ·)).map (evaluatedPath ev mapflag) := by
  induction entries with
  | nil => rfl
  | cons e entries ih =>
    have hnone : _ ↔ ¬ TakenEntry cls e := pkgobjassign_eq_none_iff ev mapflag e
    cases ho : pkgobjassign ev cls mapflag e with
    | none =>
      have ha := hnone.mp ho
      rw [List.filterMap_cons_none ho, List.filter_cons_of_neg (by simpa using ha), ih]
    | some o =>
      have ha : TakenEntry cls e := not_not.mp (mt hnone.mpr (by simp [ho]))
      rw [List.filterMap_cons_some ho, List.filter_cons_of_pos (by simpa using ha), List.map_cons,
        List.map_cons, (pkgobjassign_eq_some ho).1, ih]

theorem readObjects_holds {rounds : Nat} {vfp : Vfp} {xspace xspace' : PointerArray PkgObj}
    {live : List PkgObj} {eptnum : Nat} (h : xspace.Holds blankObj live)
    (hr : readObjects ev cls cfg mapflag rounds vfp xspace live.length =
      some (some (xspace', eptnum))) :
    ∃ entries, MapReads cfg vfp entries ∧
      xspace'.Holds blankObj (live ++ entries.filterMap (pkgobjassign ev cls mapflag)) ∧
      eptnum = (live ++ entries.filterMap (pkgobjassign ev cls mapflag)).length := by
  induction rounds generalizing vfp xspace live with
  | zero => cases hr
  | succ rounds ih =>
    rw [readObjects] at hr
    cases hread : gpkgmapvfp cfg zeroEntry vfp with
    | none => rw [hread] at hr; cases hr
    | some r =>
      obtain ⟨r, vfp'⟩ := r
      rw [hread] at hr
      cases r with
      | error err => cases hr
      | ok r =>
        obtain ⟨n, e⟩ := r
        dsimp only at hr
        by_cases hn : n = 0
        · subst hn
          rw [if_pos rfl] at hr
          cases hr
          refine ⟨[], .done hread, ?_⟩
          simpa using h
        · rw [if_neg hn] at hr
          cases ho : pkgobjassign ev cls mapflag e with
          | none =>
            rw [ho] at hr
            have hdelete := h.nextAvail.delete
            rw [List.append_nil] at hdelete
            obtain ⟨entries, hreads, hend⟩ := ih hdelete hr
            refine ⟨e :: entries, .entry hread hn hreads, ?_⟩
            rwa [List.filterMap_cons_none ho]
          | some o =>
            rw [ho] at hr
            have hput := h.nextAvail.put (i := live.length) (by simp) o
            have hset : (live ++ [blankObj]).set live.length o = live ++ [o] := by simp
            rw [hset] at hput
            rw [h.avail, show live.length + 1 = (live ++ [o]).length by simp] at hr
            obtain ⟨entries, hreads, hend⟩ := ih hput hr
            refine ⟨e :: entries, .entry hread hn hreads, ?_⟩
            rw [List.append_assoc] at hend
            rwa [List.filterMap_cons_some ho]

end Objects

/-- The list is a map of the entries that are accepted: it ends with a NULL, no path is twice in it,
and nothing is lost. -/
structure ObjectMap (ev : PathEval) (cls : Option (List ClAttr)) (mapflag : Int)
    (entries : List Cfent) (extlist : List (Option PkgObj)) (objs : List PkgObj) : Prop where
  terminated : extlist.take (objs.length + 1) = objs.map some ++ [none]
  sorted : objs.Pairwise fun a b => a.path < b.path
  paths : ∀ p, p ∈ objs.map PkgObj.path ↔
    ∃ e ∈ entries, TakenEntry cls e ∧ evaluatedPath ev mapflag e = p
  once : ∀ e ∈ entries, TakenEntry cls e →
    ((entries.filter (TakenEntry cls ·)).map (evaluatedPath ev mapflag)).count
      (evaluatedPath ev mapflag e) = 1 →
    ∃ o ∈ objs, pkgobjassign ev cls mapflag e = some o
  shared : ∀ e ∈ entries, TakenEntry cls e →
    1 < ((entries.filter (TakenEntry cls ·)).map (evaluatedPath ev mapflag)).count
      (evaluatedPath ev mapflag e) →
    e.ftype = '?' ∨ e.ftype = 'd' ∨ e.ftype = 'x'

theorem MapReads.ftype {cfg : MapConfig} {vfp : Vfp} {entries : List Cfent}
    (h : MapReads cfg vfp entries) : ∀ e ∈ entries, MapType e.ftype := by
  induction h with
  | done _ => exact fun _ he => absurd he List.not_mem_nil
  | entry hread hn _ ih => exact List.forall_mem_cons.mpr ⟨gpkgmapvfp_ftype hread hn, ih⟩

theorem shares_iff {o : PkgObj} (h : MapType o.cfEnt.ftype) (hs : Shares o) :
    o.cfEnt.ftype = '?' ∨ o.cfEnt.ftype = 'd' ∨ o.cfEnt.ftype = 'x' := by
  have hmem : o.cfEnt.ftype ∈ [nul, '?', 'd', 'x'] := by simpa [Shares, inSet] using hs
  rcases List.mem_cons.mp hmem with hnul | hmem
  · rw [hnul] at h
    exact absurd h (by unfold MapType; decide)
  · simpa using hmem

/-- The objects that were collected from all entries make the map. -/
theorem objectMap_of_collected {ev : PathEval} {cls : Option (List ClAttr)} {mapflag : Int}
    {entries : List Cfent} {objs : List PkgObj} {errflg : Nat} {a : PointerArray PkgObj}
    (h : Collected PkgObj.path Shares (errflg = 0)
      (entries.filterMap (pkgobjassign ev cls mapflag)) objs) (herr : errflg = 0)
    (hm : ∀ e ∈ entries, MapType e.ftype) (ha : a.Holds blankObj objs) (hne : objs ≠ []) :
    ObjectMap ev cls mapflag entries a.slots objs := by
  have htaken (e) (he : e ∈ entries) (hacc : TakenEntry cls e) :
      ∃ o, pkgobjassign ev cls mapflag e = some o ∧
        o ∈ entries.filterMap (pkgobjassign ev cls mapflag) ∧
        o.path = evaluatedPath ev mapflag e ∧ o.cfEnt.ftype = e.ftype := by
    have hsome : pkgobjassign ev cls mapflag e ≠ none :=
      fun hnone => (pkgobjassign_eq_none_iff ev mapflag e).mp hnone hacc
    obtain ⟨o, ho⟩ := Option.ne_none_iff_exists'.mp hsome
    exact ⟨o, ho, List.mem_filterMap.mpr ⟨e, he, ho⟩, pkgobjassign_eq_some ho⟩
  refine ⟨ha.terminated hne, h.sorted, fun p => ?_, fun e he hacc hc => ?_, fun e he hacc hc => ?_⟩
  · rw [h.keys, assigned_paths]
    simp [and_assoc]
  · obtain ⟨o, ho, hmem, hp, -⟩ := htaken e he hacc
    rw [← assigned_paths, ← hp] at hc
    exact ⟨o, h.once o hmem hc, ho⟩
  · obtain ⟨o, -, hmem, hp, ht⟩ := htaken e he hacc
    rw [← assigned_paths, ← hp] at hc
    rw [← ht]
    exact shares_iff (ht ▸ hm e he) (h.shared herr o hmem hc)

/-- The search never looks outside of the sorted objects and comes to an end, and a list that is
returned is the map of the entries that are accepted. -/
theorem pkgobjmap_sorted (ev : PathEval) (cls : Option (List ClAttr)) (cfg : MapConfig)
    (mapflag : Int) (rounds : Nat) (vfp : Vfp) :
    (readObjects ev cls cfg mapflag rounds vfp (PointerArray.create eptMalloc) 0 ≠ none →
      pkgobjmap ev cls cfg mapflag rounds vfp ≠ none) ∧
    ∀ extlist, pkgobjmap ev cls cfg mapflag rounds vfp = some (some extlist) →
      ∃ entries objs, MapReads cfg vfp entries ∧
        ObjectMap ev cls mapflag entries extlist objs := by
  rw [pkgobjmap]
  cases hread : readObjects ev cls cfg mapflag rounds vfp (PointerArray.create eptMalloc) 0 with
  | none => exact ⟨fun h => absurd rfl h, fun _ h => by cases h⟩
  | some r =>
    cases r with
    | none => exact ⟨fun _ => Option.some_ne_none _, fun _ h => by cases h⟩
    | some r =>
      obtain ⟨xspace, eptnum⟩ := r
      dsimp only
      by_cases hnum : eptnum = 0
      · rw [if_pos hnum]
        exact ⟨fun _ => Option.some_ne_none _, fun _ h => by cases h⟩
      · obtain ⟨entries, hreads, hholds, rfl⟩ :=
          readObjects_holds (PointerArray.holds_create blankObj (by decide)) hread
        rw [List.nil_append] at hholds hnum ⊢
        have hstart : Sorting [] [] (entries.filterMap (pkgobjassign ev cls mapflag))
            ⟨xspace, (entries.filterMap (pkgobjassign ev cls mapflag)).length, 0, 0⟩ :=
          ⟨hholds, rfl, Nat.one_pos, Collected.nil _ _ _⟩
        obtain ⟨st, objs, hrun, hend⟩ := hstart.run (Nat.lt_succ_self _)
        rw [List.nil_append] at hend
        have hobjs := hend.holds
        rw [List.append_nil] at hobjs
        have hne : objs ≠ [] := by
          intro hnil
          have hkeys := hend.collected.keys
          obtain ⟨o, hmem⟩ := List.exists_mem_of_length_pos (Nat.pos_of_ne_zero hnum)
          have hpath := (hkeys o.path).mpr (List.mem_map_of_mem hmem)
          rw [hnil] at hpath
          cases hpath
        rw [if_neg hnum, show sortObjects _ 0 _ = some st from hrun, Option.map_some]
        refine ⟨fun _ => Option.some_ne_none _, fun extlist h => ⟨entries, objs, hreads, ?_⟩⟩
        by_cases herr : st.errflg = 0
        · rw [if_neg (not_not.mpr herr)] at h
          cases h
          exact objectMap_of_collected hend.collected herr hreads.ftype hobjs hne
        · rw [if_pos herr] at h
          cases h

/-- A map in no order, which has a directory twice and an object of a class that is not selected. -/
def sampleObjects : Str :=
  unlines [": 1 1".toList, "1 d none usr 0755 root sys".toList,
    "1 f app opt/b 0644 root bin 3 4 5".toList, "1 f doc opt/c 0644 root bin 3 4 5".toList,
    "1 d none usr 0755 root ?".toList, "1 f app etc/x 0644 root bin 3 4 5".toList]

def samplePathEval : PathEval := ⟨id, fun p => ⟨p, p, p⟩⟩

def sampleSelected : Option (List ClAttr) :=
  some [⟨"none".toList, 0, 0, 0⟩, ⟨"app".toList, 0, 0, 0⟩]

theorem pkgobjmap_sorted_listed :
    ∃ extlist entries objs,
      pkgobjmap samplePathEval sampleSelected (MapConfig.initial fun _ => none) 0 9
        (vfpOpen sampleObjects) = some (some extlist) ∧
      ObjectMap samplePathEval sampleSelected 0 entries extlist objs ∧
      (extlist.takeWhile Option.isSome).map (Option.map PkgObj.path) =
        ["etc/x", "opt/b", "usr"].map (fun p => some p.toList) := by
  have hrun : (pkgobjmap samplePathEval sampleSelected (MapConfig.initial fun _ => none) 0 9
      (vfpOpen sampleObjects)).map (Option.map fun extlist =>
        (extlist.takeWhile Option.isSome).map (Option.map PkgObj.path)) =
      some (some (["etc/x", "opt/b", "usr"].map fun p => some p.toList)) := by
    decide +kernel
  obtain ⟨run, hsome, hlisted⟩ := Option.map_eq_some_iff.mp hrun
  obtain ⟨extlist, rfl, hpaths⟩ := Option.map_eq_some_iff.mp hlisted
  obtain ⟨entries, objs, -, hmap⟩ := (pkgobjmap_sorted _ _ _ _ _ _).2 extlist hsome
  exact ⟨extlist, entries, objs, hsome, hmap, hpaths⟩

end Pkgtools
