import Pkgtools.CLib.Squeeze
import Pkgtools.CLib.Text
import Mathlib.Data.List.Forall2

namespace Pkgtools
open CLib
set_option autoImplicit true

/-- `struct devlks`: one reservation. An empty alias marks a free slot. -/
structure Devlk where
  lkKey : Int
  lkAlias : Str
  deriving DecidableEq, Repr

/-- The values of `errno` that the reservation functions tell apart. -/
inductive DevErrno where
  | eagain
  | enodev
  | eperm
  | einval
  | other
  deriving DecidableEq, Repr

/-- The reservation file: the count in its header and the records behind it. Records behind the
first `count` are left over from longer tables; an empty file reads as a count of 0. -/
structure LkFile where
  count : Nat
  recs : List Devlk
  deriving DecidableEq, Repr

def LkFile.empty : LkFile := ⟨0, []⟩

/-- The live entries of the reservation table. -/
def LkFile.table (f : LkFile) : List Devlk := f.recs.take f.count

def DTAB_MXALIASLN : Nat := 14

/-- `sizeof (lk_alias)`. -/
def aliasBytes : Nat := (DTAB_MXALIASLN + 2) / 2 * 2

def isanullstr (lk : Devlk) : Bool := lk.lkAlias.isEmpty

/-- `readlocks`: a file shorter than its count says is an error. -/
def readlocks (f : LkFile) : Option (List Devlk) :=
  if f.count ≤ f.recs.length then some f.table else none

/-- `writelks`: the count that will eventually hold and the first `tblcnt` entries; what lies
behind them in the file stays. -/
def writelks (f : LkFile) (lockcount : Nat) (locklist : List Devlk) (tblcnt : Nat) : LkFile :=
  ⟨lockcount, locklist.take tblcnt ++ f.recs.drop tblcnt⟩

/-- `appendlk` for each alias, from the current position on. -/
def appendlks (key : Int) : LkFile → Nat → List Str → LkFile
  | f, _, [] => f
  | f, pos, name :: pp =>
    appendlks key { f with recs := f.recs.take pos ++ ⟨key, name⟩ :: f.recs.drop (pos + 1) }
      (pos + 1) pp

def compresslks (locklist : List Devlk) : List Devlk × Nat :=
  squeeze isanullstr locklist.length locklist 0 none locklist.length

def rewritelks (f : LkFile) (locklist : List Devlk) : LkFile :=
  let (locklist, lockcount) := compresslks locklist
  writelks f lockcount locklist lockcount

/-- The first loop of `putlocks`: free slots take new aliases; what is left of these is returned. -/
def fillHoles (key : Int) : List Devlk → List Str → List Devlk × List Str
  | l, [] => (l, [])
  | [], pp => ([], pp)
  | lk :: l, name :: pp =>
    if isanullstr lk then
      let (l, rest) := fillHoles key l pp
      (⟨key, name⟩ :: l, rest)
    else
      let (l, rest) := fillHoles key l (name :: pp)
      (lk :: l, rest)

/-- `putlocks`. `none` is a `strcpy` past the end of `lk_alias`. -/
def putlocks (f : LkFile) (locklist : List Devlk) (newlist : List Str) (key : Int) :
    Option LkFile :=
  if ∀ name ∈ newlist, name.length < aliasBytes then
    match fillHoles key locklist newlist with
    | (locklist, []) => some (rewritelks f locklist)
    | (locklist, pp) =>
      let lksintbl := locklist.length
      some (appendlks key (writelks f (lksintbl + pp.length) locklist lksintbl) lksintbl pp)
  else none

section Calls
-- `devattr (device, DTAB_ALIAS)` for the fixed device table.
variable (devattr : Str → Except DevErrno Str)

def islocked (locklist : List Devlk) (device : Str) : Except DevErrno Str :=
  match devattr device with
  | .error e => .error e
  | .ok name =>
    if locklist.any fun lk => strncmp name lk.lkAlias DTAB_MXALIASLN == 0 then .error .eagain
    else .ok name

/-- `devreserv` on one list: the device taken and its alias. -/
def reservOne (locklist : List Devlk) : List Str → (foundone : Bool) → Except DevErrno (Str × Str)
  | [], foundone => .error (if foundone then .eagain else .enodev)
  | device :: pp, foundone =>
    match islocked devattr locklist device with
    | .ok name => .ok (device, name)
    | .error .eagain => reservOne locklist pp true
    | .error .enodev => reservOne locklist pp foundone
    | .error e => .error e

/-- The loop of `devreserv` over the lists: nothing is recorded until every list has its pick. -/
def reservAll (locklist : List Devlk) : List (List Str) → Except DevErrno (List (Str × Str))
  | [] => .ok []
  | l :: ls =>
    match reservOne devattr locklist l false with
    | .error e => .error e
    | .ok pick =>
      match reservAll locklist ls with
      | .error e => .error e
      | .ok picks => .ok (pick :: picks)

/-- `devreserv`: the names of the devices taken, as the caller spelled them. -/
def devreserv (f : LkFile) (key : Int) (rsvlst : List (List Str)) :
    Option (Except DevErrno (List Str) × LkFile) :=
  match readlocks f with
  | none => some (.error .other, f)
  | some locklist =>
    match reservAll devattr locklist rsvlst with
    | .error e => some (.error e, f)
    | .ok picks =>
      (putlocks f locklist (picks.map Prod.snd) key).map fun f => (.ok (picks.map Prod.fst), f)

/-- The alias that `unreserv` looks for. -/
def srchalias (device : Str) : Str :=
  match devattr device with
  | .ok name => name
  | .error _ => device

/-- The search loop of `unreserv`, which blanks the first entry for the alias. -/
def blankEntry (key : Int) (name : Str) : List Devlk → Except DevErrno (List Devlk)
  | [] => .error .einval
  | lk :: l =>
    if name = lk.lkAlias then
      if lk.lkKey = key then .ok ({ lk with lkAlias := [] } :: l) else .error .eperm
    else
      match blankEntry key name l with
      | .error e => .error e
      | .ok l => .ok (lk :: l)

def unreserv (key : Int) (device : Str) (locklist : List Devlk) : Except DevErrno (List Devlk) :=
  blankEntry key (srchalias devattr device) locklist

def devfree (f : LkFile) (key : Int) (device : Str) : Except DevErrno Unit × LkFile :=
  match readlocks f with
  | none => (.error .other, f)
  | some locklist =>
    match unreserv devattr key device locklist with
    | .error e => (.error e, f)
    | .ok locklist => (.ok (), rewritelks f locklist)

end Calls

/-- A call by some process; the lock on the file makes each one atomic. -/
inductive DevCall where
  | reserv (key : Int) (rsvlst : List (List Str))
  | free (key : Int) (device : Str)

inductive DevReply where
  | reserved (r : Except DevErrno (List Str))
  | freed (r : Except DevErrno Unit)

def DevCall.exec (devattr : Str → Except DevErrno Str) (f : LkFile) :
    DevCall → Option (DevReply × LkFile)
  | .reserv key rsvlst => (devreserv devattr f key rsvlst).map fun (r, f) => (.reserved r, f)
  | .free key device =>
    let (r, f) := devfree devattr f key device
    some (.freed r, f)

/-- The file after a sequence of calls, if none of them overruns a buffer. -/
def devRun (devattr : Str → Except DevErrno Str) : LkFile → List DevCall → Option LkFile
  | f, [] => some f
  | f, c :: cs =>
    match c.exec devattr f with
    | none => none
    | some (_, f) => devRun devattr f cs

/-- The count agrees with the records and no live entry is a free slot. -/
structure LkFile.Wf (f : LkFile) : Prop where
  count_le : f.count ≤ f.recs.length
  inUse : ∀ lk ∈ f.table, lk.lkAlias ≠ []

theorem LkFile.Wf.length_table {f : LkFile} (h : f.Wf) : f.table.length = f.count := by
  rw [LkFile.table, List.length_take, Nat.min_eq_left h.count_le]

theorem LkFile.empty_wf : LkFile.empty.Wf := by
  constructor
  · exact Nat.le_refl 0
  · intro lk hlk
    cases hlk

theorem readlocks_wf {f : LkFile} (h : f.Wf) : readlocks f = some f.table := by
  rw [readlocks, if_pos h.count_le]

theorem isanullstr_false (h : lk.lkAlias ≠ []) : isanullstr lk = false := by
  rw [isanullstr, List.isEmpty_eq_false_iff]
  exact h

theorem filter_inUse {l : List Devlk} (h : ∀ lk ∈ l, lk.lkAlias ≠ []) :
    l.filter (fun lk => !isanullstr lk) = l := by
  apply List.filter_eq_self.mpr
  intro lk hlk
  rw [isanullstr_false (h lk hlk)]
  rfl

theorem fillHoles_inUse (key : Int) (h : ∀ lk ∈ l, lk.lkAlias ≠ []) (pp : List Str) :
    fillHoles key l pp = (l, pp) := by
  induction l with
  | nil =>
    cases pp with
    | nil => rfl
    | cons name pp => rfl
  | cons lk l ih =>
    cases pp with
    | nil => rfl
    | cons name pp =>
      have hlk := isanullstr_false (h lk (List.mem_cons_self ..))
      rw [fillHoles, hlk]
      simp only [Bool.false_eq_true, if_false]
      rw [ih fun x hx => h x (List.mem_cons_of_mem _ hx)]

theorem rewritelks_table (f : LkFile) (locklist : List Devlk) :
    (rewritelks f locklist).table = locklist.filter fun lk => !isanullstr lk := by
  obtain ⟨hn, hl⟩ := squeeze_spec isanullstr locklist
  simp only [rewritelks, compresslks, writelks, LkFile.table, hn, hl]
  exact List.take_left

theorem rewritelks_wf (f : LkFile) (locklist : List Devlk) : (rewritelks f locklist).Wf := by
  constructor
  · obtain ⟨hn, hl⟩ := squeeze_spec isanullstr locklist
    simp only [rewritelks, compresslks, writelks, hn, hl, List.length_append]
    exact Nat.le_add_right _ _
  · intro lk hlk
    rw [rewritelks_table, List.mem_filter] at hlk
    intro he
    simp [isanullstr, he] at hlk

/-- Appending overwrites whatever a longer table left in the file. -/
theorem appendlks_spec (key : Int) (pp : List Str) (A B : List Devlk) (n : Nat) :
    ∃ C, appendlks key ⟨n, A ++ B⟩ A.length pp = ⟨n, A ++ pp.map (Devlk.mk key) ++ C⟩ := by
  induction pp generalizing A B with
  | nil => exact ⟨B, by simp [appendlks]⟩
  | cons name pp ih =>
    obtain ⟨C, hC⟩ := ih (A ++ [⟨key, name⟩]) (B.drop 1)
    refine ⟨C, ?_⟩
    rw [appendlks]
    have hrecs : (A ++ B).take A.length ++ ⟨key, name⟩ :: (A ++ B).drop (A.length + 1) =
        A ++ [⟨key, name⟩] ++ B.drop 1 := by
      rw [List.take_left, ← List.drop_drop, List.drop_left]
      simp
    have hpos : A.length + 1 = (A ++ [(⟨key, name⟩ : Devlk)]).length := by simp
    simp only [hrecs]
    rw [hpos, hC]
    simp

theorem putlocks_spec {f : LkFile} (h : f.Wf) (key : Int) (newlist : List Str)
    (hfit : ∀ name ∈ newlist, name.length < aliasBytes) (hne : ∀ name ∈ newlist, name ≠ []) :
    ∃ f', putlocks f f.table newlist key = some f' ∧ f'.Wf ∧
      f'.table = f.table ++ newlist.map (Devlk.mk key) := by
  have hfill := fillHoles_inUse key h.inUse newlist
  cases newlist with
  | nil =>
    refine ⟨rewritelks f f.table, ?_, rewritelks_wf f f.table, ?_⟩
    · rw [putlocks, if_pos hfit, hfill]
    · rw [rewritelks_table, filter_inUse h.inUse, List.map_nil, List.append_nil]
  | cons name pp =>
    obtain ⟨C, hC⟩ := appendlks_spec key (name :: pp) f.table (f.recs.drop f.table.length)
      (f.table.length + (name :: pp).length)
    have hlen : (f.table ++ (name :: pp).map (Devlk.mk key)).length =
        f.table.length + (name :: pp).length := by
      rw [List.length_append, List.length_map]
    have htable : LkFile.table ⟨f.table.length + (name :: pp).length,
        f.table ++ (name :: pp).map (Devlk.mk key) ++ C⟩ =
          f.table ++ (name :: pp).map (Devlk.mk key) := by
      rw [LkFile.table, ← hlen, List.take_left]
    refine ⟨_, ?_, ?_, htable⟩
    · rw [putlocks, if_pos hfit, hfill]
      simp only [writelks, List.take_length, hC]
    · constructor
      · simp only [List.length_append, List.length_map]
        omega
      · intro lk hlk
        rw [htable, List.mem_append, List.mem_map] at hlk
        rcases hlk with hlk | ⟨a, ha, rfl⟩
        · exact h.inUse lk hlk
        · exact hne a ha

theorem blankEntry_ok {l l' : List Devlk} (h : blankEntry key name l = .ok l') :
    ∃ (A : List Devlk) (lk : Devlk) (B : List Devlk), l = A ++ lk :: B ∧ lk.lkAlias = name ∧
      lk.lkKey = key ∧
      (∀ x ∈ A, x.lkAlias ≠ name) ∧ l' = A ++ { lk with lkAlias := [] } :: B := by
  induction l generalizing l' with
  | nil => cases h
  | cons lk l ih =>
    rw [blankEntry] at h
    by_cases hn : name = lk.lkAlias
    · rw [if_pos hn] at h
      by_cases hk : lk.lkKey = key
      · rw [if_pos hk] at h
        cases h
        exact ⟨[], lk, l, rfl, hn.symm, hk, by simp, rfl⟩
      · rw [if_neg hk] at h
        cases h
    · rw [if_neg hn] at h
      cases hb : blankEntry key name l with
      | error e =>
        rw [hb] at h
        cases h
      | ok m =>
        rw [hb] at h
        cases h
        obtain ⟨A, x, B, rfl, hx, hk, hA, rfl⟩ := ih hb
        refine ⟨lk :: A, x, B, rfl, hx, hk, ?_, rfl⟩
        intro y hy
        rcases List.mem_cons.mp hy with rfl | hy
        · exact fun he => hn he.symm
        · exact hA y hy

section Steps
variable {devattr : Str → Except DevErrno Str} {f : LkFile}

/-- `name` is the alias of the first device of the list that is free; those before it are
reserved or unknown. -/
def Chosen (devattr : Str → Except DevErrno Str) (table : List Devlk) (l : List Str)
    (pick : Str × Str) : Prop :=
  ∃ A B, l = A ++ pick.1 :: B ∧ islocked devattr table pick.1 = .ok pick.2 ∧
    ∀ d ∈ A, ∀ name, islocked devattr table d ≠ .ok name

theorem reservOne_ok {table : List Devlk} (h : reservOne devattr table l b = .ok pick) :
    Chosen devattr table l pick := by
  induction l generalizing b with
  | nil => cases h
  | cons d l ih =>
    rw [reservOne] at h
    cases hd : islocked devattr table d with
    | ok name =>
      rw [hd] at h
      cases h
      exact ⟨[], l, rfl, hd, by simp⟩
    | error e =>
      have hrest (hr : ∃ b, reservOne devattr table l b = .ok pick) :
          Chosen devattr table (d :: l) pick := by
        obtain ⟨b, hb⟩ := hr
        obtain ⟨A, B, rfl, hp, hA⟩ := ih hb
        refine ⟨d :: A, B, rfl, hp, ?_⟩
        intro x hx name hname
        rcases List.mem_cons.mp hx with rfl | hx
        · rw [hd] at hname
          cases hname
        · exact hA x hx name hname
      rw [hd] at h
      cases e with
      | eagain => exact hrest ⟨_, h⟩
      | enodev => exact hrest ⟨_, h⟩
      | eperm => cases h
      | einval => cases h
      | other => cases h

theorem reservAll_ok {table : List Devlk} (h : reservAll devattr table ls = .ok picks) :
    List.Forall₂ (Chosen devattr table) ls picks := by
  induction ls generalizing picks with
  | nil =>
    cases h
    exact .nil
  | cons l ls ih =>
    rw [reservAll] at h
    cases hl : reservOne devattr table l false with
    | error e =>
      rw [hl] at h
      cases h
    | ok pick =>
      cases hr : reservAll devattr table ls with
      | error e =>
        rw [hl, hr] at h
        cases h
      | ok rest =>
        rw [hl, hr] at h
        cases h
        exact .cons (reservOne_ok hl) (ih hr)

theorem islocked_ok {table : List Devlk} (h : islocked devattr table d = .ok name) :
    devattr d = .ok name ∧ ∀ lk ∈ table, lk.lkAlias ≠ name := by
  rw [islocked] at h
  cases hd : devattr d with
  | error e =>
    rw [hd] at h
    cases h
  | ok a =>
    simp only [hd] at h
    split at h
    · cases h
    · rename_i hany
      cases h
      refine ⟨rfl, ?_⟩
      rintro lk hlk rfl
      apply hany
      rw [List.any_eq_true]
      exact ⟨lk, hlk, by rw [strncmp_self, beq_self_eq_true]⟩

theorem devreserv_error (h : f.Wf) (he : reservAll devattr f.table rsvlst = .error e) :
    devreserv devattr f key rsvlst = some (.error e, f) := by
  simp only [devreserv, readlocks_wf h, he]

theorem devreserv_ok (h : f.Wf) (hp : reservAll devattr f.table rsvlst = .ok picks)
    (hfit : ∀ p ∈ picks, p.2.length < aliasBytes) (hne : ∀ p ∈ picks, p.2 ≠ []) (key : Int) :
    ∃ f', devreserv devattr f key rsvlst = some (.ok (picks.map Prod.fst), f') ∧ f'.Wf ∧
      f'.table = f.table ++ picks.map fun p => ⟨key, p.2⟩ := by
  have hfit' : ∀ name ∈ picks.map Prod.snd, name.length < aliasBytes := by
    simpa using fun a b => hfit (b, a)
  have hne' : ∀ name ∈ picks.map Prod.snd, name ≠ [] := by
    simpa using fun a b => hne (b, a)
  obtain ⟨f', hput, hw, ht⟩ := putlocks_spec h key _ hfit' hne'
  refine ⟨f', ?_, hw, ?_⟩
  · simp only [devreserv, readlocks_wf h, hp, hput, Option.map_some]
  · rw [ht, List.map_map]
    rfl

/-- What `devfree` does to the table. -/
def Frees (key : Int) (name : Str) (table table' : List Devlk) : Prop :=
  ∃ A lk B, table = A ++ lk :: B ∧ lk.lkAlias = name ∧ lk.lkKey = key ∧ table' = A ++ B

theorem devfree_cases (devattr : Str → Except DevErrno Str) (h : f.Wf) (key : Int) (d : Str) :
    (∃ e, devfree devattr f key d = (.error e, f)) ∨
    ∃ f', devfree devattr f key d = (.ok (), f') ∧ f'.Wf ∧
      Frees key (srchalias devattr d) f.table f'.table := by
  rw [devfree, readlocks_wf h]
  simp only
  cases hu : unreserv devattr key d f.table with
  | error e => exact .inl ⟨e, rfl⟩
  | ok l =>
    obtain ⟨A, lk, B, ht, hn, hk, -, rfl⟩ := blankEntry_ok hu
    have huse := h.inUse
    rw [ht] at huse
    have hA := filter_inUse fun x hx => huse x (List.mem_append_left _ hx)
    have hB := filter_inUse fun x hx =>
      huse x (List.mem_append_right _ (List.mem_cons_of_mem _ hx))
    refine .inr ⟨_, rfl, rewritelks_wf f _, A, lk, B, ht, hn, hk, ?_⟩
    rw [rewritelks_table, List.filter_append, List.filter_cons, hA, hB]
    rfl

end Steps

end Pkgtools
