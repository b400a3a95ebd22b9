import Pkgtools.DevReserv

namespace Pkgtools
open CLib
set_option autoImplicit true

/-- The reservation table as its users see it: what each call answers and how the list of
(alias, key) entries changes. -/
inductive TableStep (devattr : Str → Except DevErrno Str) (table : List Devlk) :
    DevCall → DevReply → List Devlk → Prop where
  | granted {key : Int} {rsvlst : List (List Str)} {picks : List (Str × Str)}
      (chosen : List.Forall₂ (Chosen devattr table) rsvlst picks) :
      TableStep devattr table (.reserv key rsvlst) (.reserved (.ok (picks.map Prod.fst)))
        (table ++ picks.map fun p => ⟨key, p.2⟩)
  | refused {key : Int} {rsvlst : List (List Str)} {e : DevErrno} :
      TableStep devattr table (.reserv key rsvlst) (.reserved (.error e)) table
  | freed {key : Int} {device : Str} {table' : List Devlk}
      (frees : Frees key (srchalias devattr device) table table') :
      TableStep devattr table (.free key device) (.freed (.ok ())) table'
  | kept {key : Int} {device : Str} {e : DevErrno} :
      TableStep devattr table (.free key device) (.freed (.error e)) table

def DevCall.firstFree (devattr : Str → Except DevErrno Str) (table : List Devlk) :
    DevCall → List Str
  | .reserv _ rsvlst => rsvlst.filterMap fun l =>
      l.findSome? fun d => (islocked devattr table d).toOption
  | .free _ _ => []

def DevCall.Grantable (devattr : Str → Except DevErrno Str) (table : List Devlk) :
    DevCall → Prop
  | .reserv _ rsvlst => ∀ l ∈ rsvlst, ∃ d ∈ l, ∃ name, islocked devattr table d = .ok name
  | .free _ _ => False

section Step
variable {devattr : Str → Except DevErrno Str} {f : LkFile}

theorem Chosen.firstFree {table : List Devlk} (h : Chosen devattr table l pick) :
    (l.findSome? fun d => (islocked devattr table d).toOption) = some pick.2 := by
  obtain ⟨A, B, rfl, hp, hA⟩ := h
  have hnone : (A.findSome? fun d => (islocked devattr table d).toOption) = none := by
    rw [List.findSome?_eq_none_iff]
    intro d hd
    cases hi : islocked devattr table d with
    | ok name => exact absurd hi (hA d hd name)
    | error e => rfl
  rw [List.findSome?_append, hnone, List.findSome?_cons, hp]
  rfl

theorem firstFree_picks {table : List Devlk}
    (h : List.Forall₂ (Chosen devattr table) rsvlst picks) (key : Int) :
    (DevCall.reserv key rsvlst).firstFree devattr table = picks.map Prod.snd := by
  induction h with
  | nil => rfl
  | cons hp _ ih =>
    rw [DevCall.firstFree, List.filterMap_cons, hp.firstFree]
    exact congrArg (_ :: ·) ih

theorem grantable_of_picks {table : List Devlk}
    (h : List.Forall₂ (Chosen devattr table) rsvlst picks) (key : Int) :
    (DevCall.reserv key rsvlst).Grantable devattr table := by
  induction h with
  | nil =>
    intro l hl
    cases hl
  | cons hp _ ih =>
    intro l hl
    rcases List.mem_cons.mp hl with rfl | hl
    · obtain ⟨A, B, rfl, hi, -⟩ := hp
      exact ⟨_, List.mem_append_right _ (List.mem_cons_self ..), _, hi⟩
    · exact ih l hl

def DevCall.Storable (devattr : Str → Except DevErrno Str) (table : List Devlk) (c : DevCall) :
    Prop :=
  c.Grantable devattr table →
    ∀ name ∈ c.firstFree devattr table, name ≠ [] ∧ name.length < aliasBytes

/-- One call on the file is one step of the abstract table, and a failing one writes nothing. -/
theorem exec_refines (h : f.Wf) (c : DevCall) (hs : c.Storable devattr f.table) :
    ∃ r f', c.exec devattr f = some (r, f') ∧ f'.Wf ∧
      TableStep devattr f.table c r f'.table ∧
      ((∃ e, r = .reserved (.error e) ∨ r = .freed (.error e)) → f' = f) := by
  cases c with
  | reserv key rsvlst =>
    cases hp : reservAll devattr f.table rsvlst with
    | error e =>
      refine ⟨.reserved (.error e), f, ?_, h, .refused, fun _ => rfl⟩
      rw [DevCall.exec, devreserv_error h hp]
      rfl
    | ok picks =>
      have hch := reservAll_ok hp
      have hst := hs (grantable_of_picks hch key)
      rw [firstFree_picks hch] at hst
      have hmem {p : Str × Str} (hp : p ∈ picks) := hst p.2 (List.mem_map_of_mem hp)
      obtain ⟨f', hr, hw, ht⟩ := devreserv_ok h hp (fun p hp => (hmem hp).2)
        (fun p hp => (hmem hp).1) key
      refine ⟨.reserved (.ok (picks.map Prod.fst)), f', ?_, hw, ?_, ?_⟩
      · rw [DevCall.exec, hr]
        rfl
      · rw [ht]
        exact .granted hch
      · rintro ⟨e, he | he⟩
        · cases he
        · cases he
  | free key device =>
    rcases devfree_cases devattr h key device with ⟨e, he⟩ | ⟨f', hf, hw, ht⟩
    · refine ⟨.freed (.error e), f, ?_, h, .kept, fun _ => rfl⟩
      rw [DevCall.exec, he]
    · refine ⟨.freed (.ok ()), f', ?_, hw, .freed ht, ?_⟩
      · rw [DevCall.exec, hf]
      · rintro ⟨e, he | he⟩
        · cases he
        · cases he

end Step

def ShortAliases (devattr : Str → Except DevErrno Str) : Prop :=
  ∀ d name, devattr d = .ok name → name ≠ [] ∧ name.length ≤ DTAB_MXALIASLN

theorem ShortAliases.storable {devattr : Str → Except DevErrno Str} (ha : ShortAliases devattr)
    (table : List Devlk) (c : DevCall) : c.Storable devattr table := by
  intro _ name hn
  cases c with
  | free key device => cases hn
  | reserv key rsvlst =>
    obtain ⟨l, -, hl⟩ := List.mem_filterMap.mp hn
    obtain ⟨d, -, hd⟩ := List.exists_of_findSome?_eq_some hl
    cases hi : islocked devattr table d with
    | error e =>
      rw [hi] at hd
      cases hd
    | ok a =>
      rw [hi] at hd
      cases hd
      obtain ⟨h₁, h₂⟩ := ha d name (islocked_ok hi).1
      exact ⟨h₁, Nat.lt_of_le_of_lt h₂ (by decide)⟩

theorem devRun_wf {devattr : Str → Except DevErrno Str} (ha : ShortAliases devattr) {f : LkFile}
    (h : f.Wf) (cs : List DevCall) : ∃ f', devRun devattr f cs = some f' ∧ f'.Wf := by
  induction cs generalizing f with
  | nil => exact ⟨f, rfl, h⟩
  | cons c cs ih =>
    obtain ⟨r, f', he, hw, -⟩ := exec_refines h c (ha.storable f.table c)
    obtain ⟨f'', hr, hw'⟩ := ih hw
    refine ⟨f'', ?_, hw'⟩
    rw [devRun, he]
    exact hr

/-- The content of the reservation file after any sequence of calls, and what the next call does
to it. -/
theorem reservation_table (devattr : Str → Except DevErrno Str) (ha : ShortAliases devattr)
    (cs : List DevCall) :
    ∃ f, devRun devattr .empty cs = some f ∧ f.table.length = f.count ∧
      (∀ lk ∈ f.table, lk.lkAlias ≠ []) ∧
      ∀ c, ∃ r f', c.exec devattr f = some (r, f') ∧ TableStep devattr f.table c r f'.table ∧
        ((∃ e, r = .reserved (.error e) ∨ r = .freed (.error e)) → f' = f) := by
  obtain ⟨f, hr, hw⟩ := devRun_wf ha LkFile.empty_wf cs
  refine ⟨f, hr, hw.length_table, hw.inUse, ?_⟩
  intro c
  obtain ⟨r, f', he, -, ht, hk⟩ := exec_refines hw c (ha.storable f.table c)
  exact ⟨r, f', he, ht, hk⟩

def diskAndTape (device : Str) : Except DevErrno Str :=
  if device = "disk1".toList ∨ device = "/dev/rdsk/d1".toList then .ok "disk1".toList
  else if device = "tape".toList then .ok "tape".toList
  else .error .enodev

theorem diskAndTape_short : ShortAliases diskAndTape := by
  intro d name h
  rw [diskAndTape] at h
  split_ifs at h <;> cases h <;> decide

theorem reservation_table_disk :
    ShortAliases diskAndTape ∧
    ∃ f, devRun diskAndTape .empty
      [.reserv 7 [["disk1".toList], ["none".toList, "tape".toList]],
        .free 7 "/dev/rdsk/d1".toList] = some f ∧ f.table.length = f.count := by
  refine ⟨diskAndTape_short, ?_⟩
  obtain ⟨f, hr, hl, -⟩ := reservation_table diskAndTape diskAndTape_short
    [.reserv 7 [["disk1".toList], ["none".toList, "tape".toList]], .free 7 "/dev/rdsk/d1".toList]
  exact ⟨f, hr, hl⟩

def unnamedDevice (device : Str) : Except DevErrno Str :=
  if device = "/dev/x".toList then .ok [] else .error .enodev

/-- The empty alias is recorded as a free slot. -/
theorem reservation_unnamed :
    (∀ d name, unnamedDevice d = .ok name → name.length ≤ DTAB_MXALIASLN) ∧
    ∃ f, devRun unnamedDevice .empty [.reserv 7 [["/dev/x".toList]]] = some f ∧
      ∃ lk ∈ f.table, lk.lkAlias = [] := by
  constructor
  · intro d name h
    rw [unnamedDevice] at h
    split_ifs at h
    cases h
    decide
  · exact ⟨⟨1, [⟨7, []⟩]⟩, by decide, ⟨7, []⟩, by decide, rfl⟩

section Exclusion
variable {devattr : Str → Except DevErrno Str}

/-- No two lists of the request have first free devices with one alias. -/
def DevCall.Exclusive (devattr : Str → Except DevErrno Str) (table : List Devlk) (c : DevCall) :
    Prop :=
  c.Grantable devattr table → (c.firstFree devattr table).Nodup

/-- Every call of the run asks for storable aliases, one from each of its lists. -/
def ExclusiveRun (devattr : Str → Except DevErrno Str) : LkFile → List DevCall → Prop
  | _, [] => True
  | f, c :: cs =>
    c.Storable devattr f.table ∧ c.Exclusive devattr f.table ∧
      ∀ r f', c.exec devattr f = some (r, f') → ExclusiveRun devattr f' cs

def DevCall.Grants (devattr : Str → Except DevErrno Str) (f : LkFile) (c : DevCall) (name : Str) :
    Prop :=
  ∃ ds f', c.exec devattr f = some (.reserved (.ok ds), f') ∧ ∃ d ∈ ds, devattr d = .ok name

def DevCall.Releases (devattr : Str → Except DevErrno Str) (f : LkFile) (c : DevCall)
    (name : Str) : Prop :=
  ∃ key d f', c = .free key d ∧ c.exec devattr f = some (.freed (.ok ()), f') ∧
    srchalias devattr d = name

def aliasesOf (table : List Devlk) : List Str := table.map Devlk.lkAlias

theorem chosen_fresh {table : List Devlk}
    (h : List.Forall₂ (Chosen devattr table) rsvlst picks) (hp : p ∈ picks) :
    devattr p.1 = .ok p.2 ∧ p.2 ∉ aliasesOf table := by
  induction h with
  | nil => cases hp
  | cons hc _ ih =>
    rcases List.mem_cons.mp hp with rfl | hp
    · obtain ⟨A, B, -, hi, -⟩ := hc
      obtain ⟨hd, hf⟩ := islocked_ok hi
      refine ⟨hd, ?_⟩
      intro hm
      obtain ⟨lk, hlk, he⟩ := List.mem_map.mp hm
      exact hf lk hlk he
    · exact ih hp

theorem TableStep.nodup (h : TableStep devattr table c r table')
    (hx : c.Exclusive devattr table) (hn : (aliasesOf table).Nodup) :
    (aliasesOf table').Nodup := by
  cases h with
  | refused => exact hn
  | kept => exact hn
  | freed hf =>
    obtain ⟨A, lk, B, rfl, -, -, rfl⟩ := hf
    refine List.Nodup.sublist ?_ hn
    exact ((List.Sublist.refl A).append (List.sublist_cons_self lk B)).map _
  | granted hch =>
    have hd := hx (grantable_of_picks hch _)
    rw [firstFree_picks hch] at hd
    rw [aliasesOf, List.map_append, List.map_map]
    refine List.nodup_append.mpr ⟨hn, hd, ?_⟩
    rintro name h₁ _ h₂ rfl
    obtain ⟨p, hp, rfl⟩ := List.mem_map.mp h₂
    exact (chosen_fresh hch hp).2 h₁

/-- A reserved alias stays reserved through every call that does not free it. -/
theorem TableStep.live (h : TableStep devattr table c r table') (hl : name ∈ aliasesOf table) :
    name ∈ aliasesOf table' ∨
      ∃ key d, c = .free key d ∧ r = .freed (.ok ()) ∧ srchalias devattr d = name := by
  cases h with
  | refused => exact .inl hl
  | kept => exact .inl hl
  | granted _ =>
    rw [aliasesOf, List.map_append]
    exact .inl (List.mem_append_left _ hl)
  | @freed key d table' hf =>
    obtain ⟨A, lk, B, rfl, hlk, -, rfl⟩ := hf
    by_cases he : srchalias devattr d = name
    · exact .inr ⟨key, d, rfl, rfl, he⟩
    · refine .inl ?_
      obtain ⟨x, hx, rfl⟩ := List.mem_map.mp hl
      rcases List.mem_append.mp hx with hx | hx
      · exact List.mem_map_of_mem (List.mem_append_left _ hx)
      · rcases List.mem_cons.mp hx with rfl | hx
        · exact absurd hlk.symm he
        · exact List.mem_map_of_mem (List.mem_append_right _ hx)

theorem devRun_append {f : LkFile} (h : devRun devattr f xs = some g) (ys : List DevCall) :
    devRun devattr f (xs ++ ys) = devRun devattr g ys := by
  induction xs generalizing f with
  | nil =>
    cases h
    rfl
  | cons c xs ih =>
    rw [List.cons_append, devRun]
    rw [devRun] at h
    cases he : c.exec devattr f with
    | none =>
      rw [he] at h
      cases h
    | some p =>
      rw [he] at h
      exact ih h

/-- The files a run leads to are well formed and list every alias once; the rest of the run is
exclusive from there. -/
theorem ExclusiveRun.state {f : LkFile} (h : ExclusiveRun devattr f (xs ++ ys)) (hw : f.Wf)
    (hn : (aliasesOf f.table).Nodup) :
    ∃ g, devRun devattr f xs = some g ∧ g.Wf ∧ (aliasesOf g.table).Nodup ∧
      ExclusiveRun devattr g ys := by
  induction xs generalizing f with
  | nil => exact ⟨f, rfl, hw, hn, h⟩
  | cons c xs ih =>
    obtain ⟨hs, hx, hrest⟩ := h
    obtain ⟨r, f', he, hw', ht, -⟩ := exec_refines hw c hs
    obtain ⟨g, hg, hgw, hgn, hgr⟩ := ih (hrest r f' he) hw' (ht.nodup hx hn)
    refine ⟨g, ?_, hgw, hgn, hgr⟩
    rw [devRun, he]
    exact hg

/-- Along a run a reserved alias is still reserved, or some call has freed it. -/
theorem ExclusiveRun.live {f : LkFile} (h : ExclusiveRun devattr f (ys ++ zs)) (hw : f.Wf)
    (hr : devRun devattr f ys = some g) (hl : name ∈ aliasesOf f.table) :
    name ∈ aliasesOf g.table ∨
      ∃ us c vs f', ys = us ++ c :: vs ∧ devRun devattr f us = some f' ∧
        c.Releases devattr f' name := by
  induction ys generalizing f with
  | nil =>
    cases hr
    exact .inl hl
  | cons c ys ih =>
    obtain ⟨hs, -, hrest⟩ := h
    obtain ⟨r, f', he, hw', ht, -⟩ := exec_refines hw c hs
    rw [devRun, he] at hr
    rcases ht.live hl with hl' | ⟨key, d, rfl, rfl, hd⟩
    · rcases ih (hrest r f' he) hw' hr hl' with hg | ⟨us, c', vs, g', rfl, hus, hrel⟩
      · exact .inl hg
      · refine .inr ⟨c :: us, c', vs, g', rfl, ?_, hrel⟩
        rw [devRun, he]
        exact hus
    · exact .inr ⟨[], _, ys, f, rfl, rfl, key, d, f', rfl, he, hd⟩

theorem DevCall.Grants.fresh {f f' : LkFile} {c : DevCall} (hw : f.Wf)
    (hs : c.Storable devattr f.table)
    (hg : c.Grants devattr f name) (he : c.exec devattr f = some (r, f')) :
    name ∉ aliasesOf f.table ∧ name ∈ aliasesOf f'.table := by
  obtain ⟨r', g, he', -, ht, -⟩ := exec_refines hw c hs
  obtain ⟨ds, g', hr, d, hd, hname⟩ := hg
  rw [he] at hr he'
  cases hr
  cases he'
  generalize f'.table = table' at ht ⊢
  cases ht with
  | granted hch =>
    obtain ⟨p, hp, rfl⟩ := List.mem_map.mp hd
    obtain ⟨hp', hfresh⟩ := chosen_fresh hch hp
    rw [hp'] at hname
    cases hname
    refine ⟨hfresh, ?_⟩
    rw [aliasesOf, List.map_append, List.map_map]
    exact List.mem_append_right _ (List.mem_map_of_mem (f := fun p : Str × Str => p.2) hp)

end Exclusion

/-- In every run whose requests pick distinct storable aliases, no alias is reserved twice at a
time, and between two grants of an alias some call frees it. -/
theorem reservations_exclusive (devattr : Str → Except DevErrno Str) (cs : List DevCall)
    (hok : ExclusiveRun devattr .empty cs) :
    (∀ xs ys, cs = xs ++ ys → ∃ f, devRun devattr .empty xs = some f ∧
      (aliasesOf f.table).Nodup) ∧
    ∀ xs c₁ ys c₂ zs, cs = xs ++ c₁ :: (ys ++ c₂ :: zs) → ∀ f₁ f₂ name,
      devRun devattr .empty xs = some f₁ → devRun devattr .empty (xs ++ c₁ :: ys) = some f₂ →
      c₁.Grants devattr f₁ name → c₂.Grants devattr f₂ name →
      ∃ us c vs f, ys = us ++ c :: vs ∧ devRun devattr .empty (xs ++ c₁ :: us) = some f ∧
        c.Releases devattr f name := by
  have hnil : (aliasesOf LkFile.empty.table).Nodup := List.nodup_nil
  constructor
  · rintro xs ys rfl
    obtain ⟨f, hf, -, hn, -⟩ := hok.state LkFile.empty_wf hnil
    exact ⟨f, hf, hn⟩
  · rintro xs c₁ ys c₂ zs rfl f₁ f₂ name hf₁ hf₂ hg₁ hg₂
    obtain ⟨g, hg, hgw, hgn, hrun⟩ := hok.state LkFile.empty_wf hnil
    rw [hf₁] at hg
    cases hg
    obtain ⟨hs₁, hx₁, hrest⟩ := hrun
    obtain ⟨r, f', he, hw', ht, -⟩ := exec_refines hgw c₁ hs₁
    have hrun' := hrest r f' he
    have hf' : devRun devattr f₁ [c₁] = some f' := by
      rw [devRun, he]
      rfl
    have hstep (us : List DevCall) :
        devRun devattr .empty (xs ++ c₁ :: us) = devRun devattr f' us := by
      rw [devRun_append hf₁, devRun, he]
    rw [hstep] at hf₂
    have hlive := (hg₁.fresh hgw hs₁ he).2
    obtain ⟨g₂, hg₂', hw₂, -, hs₂, -, -⟩ := hrun'.state hw' (ht.nodup hx₁ hgn)
    rw [hf₂] at hg₂'
    cases hg₂'
    rcases hrun'.live hw' hf₂ hlive with hl | ⟨us, c, vs, f, rfl, hus, hrel⟩
    · obtain ⟨r₂, f₃, he₂, -⟩ := exec_refines hw₂ c₂ hs₂
      exact absurd hl (hg₂.fresh hw₂ hs₂ he₂).1
    · exact ⟨us, c, vs, f, rfl, (hstep us).trans hus, hrel⟩

theorem reservations_exclusive_tape :
    ExclusiveRun diskAndTape .empty [.reserv 1 [["disk1".toList], ["tape".toList]]] ∧
    ∃ f, devRun diskAndTape .empty [.reserv 1 [["disk1".toList], ["tape".toList]]] = some f ∧
      (aliasesOf f.table).Nodup := by
  have hok : ExclusiveRun diskAndTape .empty [.reserv 1 [["disk1".toList], ["tape".toList]]] := by
    refine ⟨diskAndTape_short.storable _ _, fun _ => ?_, fun _ _ _ => trivial⟩
    decide
  refine ⟨hok, ?_⟩
  exact (reservations_exclusive diskAndTape _ hok).1 _ [] (List.append_nil _).symm

/-- Two lists that name one disk in two ways both get it. -/
theorem reservations_double :
    ∃ f, devRun diskAndTape .empty
      [.reserv 1 [["disk1".toList], ["/dev/rdsk/d1".toList]]] = some f ∧
      ¬ (aliasesOf f.table).Nodup :=
  ⟨⟨2, [⟨1, "disk1".toList⟩, ⟨1, "disk1".toList⟩]⟩, by decide, by decide⟩

end Pkgtools
