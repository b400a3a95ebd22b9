import Pkgtools.DgrpTabRead

namespace Pkgtools
open CLib
set_option autoImplicit true

section Members

theorem removeDuplicates_eq (fuel : Nat) (ms : List Str) (h : ms.length ≤ fuel) :
    removeDuplicates fuel ms = ms.eraseDups := by
  induction fuel generalizing ms with
  | zero =>
    rw [List.eq_nil_of_length_eq_zero (Nat.le_zero.mp h)]
    rfl
  | succ fuel ih =>
    cases ms with
    | nil => rfl
    | cons m ms =>
      have hlen : (ms.filter (· ≠ m)).length ≤ fuel :=
        (List.length_filter_le _ _).trans (Nat.le_of_succ_le_succ h)
      have hfilter : ms.filter (· ≠ m) = ms.filter fun b => !b == m := by
        apply List.filter_congr
        intro x _
        rw [Bool.eq_iff_iff]
        simp
      rw [removeDuplicates, ih _ hlen, List.eraseDups_cons, hfilter]

theorem nodup_eraseDups (n : Nat) (l : List Str) (h : l.length ≤ n) : l.eraseDups.Nodup := by
  induction n generalizing l with
  | zero =>
    rw [List.eq_nil_of_length_eq_zero (Nat.le_zero.mp h)]
    exact List.nodup_nil
  | succ n ih =>
    cases l with
    | nil => exact List.nodup_nil
    | cons a l =>
      rw [List.eraseDups_cons, List.nodup_cons]
      constructor
      · rw [List.mem_eraseDups, List.mem_filter]
        simp
      · exact ih _ ((List.length_filter_le _ _).trans (Nat.le_of_succ_le_succ h))

theorem eraseDups_eq_self : l.eraseDups = l ↔ (l : List Str).Nodup := by
  constructor
  · intro h
    rw [← h]
    exact nodup_eraseDups l.length l (Nat.le_refl _)
  · intro h
    induction l with
    | nil => rfl
    | cons a l ih =>
      obtain ⟨ha, hl⟩ := List.nodup_cons.mp h
      have hf : (l.filter fun b => !b == a) = l := by
        rw [List.filter_eq_self]
        rintro x hx
        have : x ≠ a := fun he => ha (he ▸ hx)
        simp [this]
      rw [List.eraseDups_cons, hf, ih hl]

/-- Adding to a group that has members is a union; an empty one takes the list as it is. -/
theorem addMembers_eq (ms new : List Str) :
    addMembers ms new = if ms = [] then new else (ms ++ new).eraseDups := by
  rw [addMembers]
  split
  · rfl
  · exact removeDuplicates_eq _ _ (Nat.le_refl _)

theorem addMembers_union_iff (ms new : List Str) :
    addMembers ms new = (ms ++ new).eraseDups ↔ (ms = [] → new.Nodup) := by
  rw [addMembers_eq]
  by_cases h : ms = []
  · rw [if_pos h, h, List.nil_append, eq_comm, eraseDups_eq_self]
    simp
  · simp [h]

end Members

section Group
variable {rs : List DgrpRec}

def oldMembers (dgrp : Str) : List DgrpRec → Option (List Str)
  | [] => none
  | .comment _ :: rs => oldMembers dgrp rs
  | .group name membership :: rs => if dgrp = name then some membership else oldMembers dgrp rs

theorem oldMembers_none (h : oldMembers dgrp rs = none) (n : Nat) (members : List Str) :
    getdgrprec (entriesFrom n rs) dgrp = none ∧
      unionTable dgrp members rs = rs ++ [.group dgrp members.eraseDups] := by
  induction rs generalizing n with
  | nil => exact ⟨rfl, rfl⟩
  | cons r rs ih =>
    rw [entriesFrom_cons]
    cases r with
    | comment t =>
      obtain ⟨h₁, h₂⟩ := ih h (n + 1)
      refine ⟨?_, by rw [unionTable, h₂]; rfl⟩
      rw [getdgrprec, List.find?_cons_of_neg (by simp [DgrpRec.isGroup])]
      exact h₁
    | group name ms =>
      rw [oldMembers] at h
      split at h
      · cases h
      · rename_i hne
        obtain ⟨h₁, h₂⟩ := ih h (n + 1)
        refine ⟨?_, by rw [unionTable, if_neg hne, h₂]; rfl⟩
        rw [getdgrprec, List.find?_cons_of_neg (by simpa [DgrpRec.isGroup] using hne)]
        exact h₁

theorem oldMembers_some (h : oldMembers dgrp rs = some ms) (n : Nat) (members : List Str) :
    ∃ i, i < rs.length ∧ rs[i]? = some (.group dgrp ms) ∧
      getdgrprec (entriesFrom n rs) dgrp = some ⟨n + i, .group dgrp ms⟩ ∧
      unionTable dgrp members rs = rs.set i (.group dgrp (ms ++ members).eraseDups) := by
  induction rs generalizing n with
  | nil => cases h
  | cons r rs ih =>
    rw [entriesFrom_cons]
    cases r with
    | comment t =>
      obtain ⟨i, hi, h₁, h₂, h₃⟩ := ih h (n + 1)
      refine ⟨i + 1, Nat.succ_lt_succ hi, h₁, ?_, by rw [unionTable, h₃]; rfl⟩
      rw [getdgrprec, List.find?_cons_of_neg (by simp [DgrpRec.isGroup])]
      rw [show n + (i + 1) = n + 1 + i by omega]
      exact h₂
    | group name ms' =>
      rw [oldMembers] at h
      split at h
      · rename_i he
        cases h
        subst he
        refine ⟨0, Nat.succ_pos _, rfl, ?_, by rw [unionTable, if_pos rfl]; rfl⟩
        rw [getdgrprec, List.find?_cons_of_pos (by simp [DgrpRec.isGroup])]
        rfl
      · rename_i hne
        obtain ⟨i, hi, h₁, h₂, h₃⟩ := ih h (n + 1)
        refine ⟨i + 1, Nat.succ_lt_succ hi, h₁, ?_, by rw [unionTable, if_neg hne, h₃]; rfl⟩
        rw [getdgrprec, List.find?_cons_of_neg (by simpa [DgrpRec.isGroup] using hne)]
        rw [show n + (i + 1) = n + 1 + i by omega]
        exact h₂

theorem entriesFrom_copy (i : Nat) (r : DgrpRec) (rs : List DgrpRec) :
    (entriesFrom 0 rs).filterMap (fun e => some (if e.entryno ≠ i then e.body else r)) =
      rs.set i r := by
  rw [List.filterMap_eq_map', entriesFrom, List.map_map]
  apply List.ext_getElem?
  intro k
  rw [List.getElem?_map, List.getElem?_zipIdx, List.getElem?_set]
  by_cases hk : i = k
  · subst hk
    by_cases hlt : i < rs.length
    · simp [hlt]
    · simp [hlt]
  · have hki : k ≠ i := fun he => hk he.symm
    simp [hk, hki, Function.comp_def]

end Group

section Addition
variable {rs us ws : List DgrpRec} {ls : List Str} {o : TabOutcomes} {a : AppendOutcomes}
  {b b' : RecBuf} {dgrp contents : Str} {members : List Str}

theorem readsGroups_iff (hr : ∀ l ∈ ls, IsRecord dgrpComplete l)
    (hp : ls.map parseDgrpRec = ws.map some) (hlen : us.length = ws.length) :
    ReadsGroups ls.flatten us ↔ us = ws ∧ ∀ l ∈ ls, l.length ≤ dgrpGrowth.limit := by
  have hls : ls.length = ws.length := by
    simpa using congrArg List.length hp
  constructor
  · intro h
    have hlim := readsGroups_limit hr h (by omega)
    exact ⟨h.eq (readsGroups_lines hr hlim hp), hlim⟩
  · rintro ⟨rfl, hlim⟩
    exact readsGroups_lines hr hlim hp

theorem readsGroups_put_iff (hw : ∀ r ∈ ws, r.Wf) (hlen : us.length = ws.length) :
    ReadsGroups (ws.map putdgrptabrec).flatten us ↔ us = ws ∧ ∀ r ∈ ws, r.Short := by
  have hr : ∀ l ∈ ws.map putdgrptabrec, IsRecord dgrpComplete l := by
    intro l hl
    obtain ⟨r, hr, rfl⟩ := List.mem_map.mp hl
    exact (putdgrptabrec_parse (hw r hr)).1
  have hp : (ws.map putdgrptabrec).map parseDgrpRec = ws.map some := by
    rw [List.map_map]
    exact List.map_congr_left fun r hr => (putdgrptabrec_parse (hw r hr)).2
  rw [readsGroups_iff hr hp hlen, List.forall_mem_map]
  rfl

def Rewritten (o : TabOutcomes) (a : AppendOutcomes) (old : Option (List Str))
    (members : List Str) : Prop :=
  match old with
  | none => a.seek = true
  | some _ => members ≠ [] → o.openOld = true ∧ o.openTemp = true

/-- What an addition needs: the temporary file can be opened or the end of the table reached, what
is written gets there, the new members can be told apart and are distinct unless they join others,
and the records fit. -/
def Addable (o : TabOutcomes) (a : AppendOutcomes) (dgrp : Str) (members : List Str)
    (rs : List DgrpRec) : Prop :=
  match oldMembers dgrp rs with
  | none => a.seek = true ∧ Flushes a.flush (putdgrptabrec (.group dgrp members)) ∧
      (∀ m ∈ members, MemberOk m) ∧ members.Nodup ∧ (DgrpRec.group dgrp members).Short
  | some membership =>
    if members = [] then membership.Nodup
    else (o.openOld = true ∧ o.openTemp = true) ∧
      Flushes o.flush ((unionTable dgrp members rs).map putdgrptabrec).flatten ∧
      (∀ m ∈ members, MemberOk m) ∧ (membership = [] → members.Nodup) ∧
      ∀ r ∈ unionTable dgrp members rs, r.Short

theorem adddgrptabrec_eq (d : TabDir) (hread : d.dir.read .table = some contents)
    (hlock : o.lock = true) :
    adddgrptabrec b b' o a dgrp members d.dir =
      match getdgrprec (readDgrptab b contents) dgrp with
      | some ent =>
        if members = [] then ⟨true, false, d.dir⟩
        else if o.openOld = true ∧ o.openTemp = true then
          installTable mknewdgrptab o (d.dir.create .temp []) (addTexts b' ent members contents)
            true
        else ⟨true, false, d.dir⟩
      | none =>
        if a.seek then
          if a.put then
            ⟨true, false, d.dir.create .table
              (contents ++ flushed a.flush (putdgrptabrec (.group dgrp members)))⟩
          else ⟨false, true, d.dir.create .table
            (contents ++ (putdgrptabrec (.group dgrp members)).take a.part)⟩
        else ⟨true, false, d.dir⟩ := by
  simp only [adddgrptabrec, hlock, if_true, d.table, hread, Option.getD_some, d.opennewtab]
  cases getdgrprec (readDgrptab b contents) dgrp with
  | none => rfl
  | some ent =>
    by_cases hopen : o.openOld = true ∧ o.openTemp = true
    · simp only [if_pos hopen]
    · simp only [if_neg hopen]

theorem append_union_iff (hT : DgrpTable contents rs) (hold : oldMembers dgrp rs = none)
    (hn : GroupName dgrp) (hm : ∀ m ∈ members, NulFree m) :
    ReadsGroups (contents ++ putdgrptabrec (.group dgrp members)) (unionTable dgrp members rs) ↔
      (∀ m ∈ members, MemberOk m) ∧ members.Nodup ∧ (DgrpRec.group dgrp members).Short := by
  obtain ⟨ls, rfl, hr, hlim, hp⟩ := hT.lines
  have hunion := (oldMembers_none hold 0 members).2
  have hout : ls.flatten ++ putdgrptabrec (.group dgrp members) =
      (ls ++ [putdgrptabrec (.group dgrp members)]).flatten := by
    simp
  rw [hout, hunion]
  have hkey (hok : ∀ m ∈ members, MemberOk m) :
      ReadsGroups (ls ++ [putdgrptabrec (.group dgrp members)]).flatten
        (rs ++ [.group dgrp members.eraseDups]) ↔
      members.Nodup ∧ (DgrpRec.group dgrp members).Short := by
    obtain ⟨h₁, h₂⟩ := putdgrptabrec_parse (r := .group dgrp members)
      ⟨hn, fun m hm' => ⟨hok m hm', hm m hm'⟩⟩
    have hr' : ∀ l ∈ ls ++ [putdgrptabrec (.group dgrp members)], IsRecord dgrpComplete l := by
      intro l hl
      rcases List.mem_append.mp hl with hl | hl
      · exact hr l hl
      · rw [List.mem_singleton] at hl
        exact hl ▸ h₁
    have hp' : (ls ++ [putdgrptabrec (.group dgrp members)]).map parseDgrpRec =
        (rs ++ [DgrpRec.group dgrp members]).map some := by
      rw [List.map_append, List.map_append, hp, List.map_singleton, h₂]
      rfl
    rw [readsGroups_iff hr' hp' (by simp)]
    constructor
    · rintro ⟨he, hl⟩
      have heq := List.append_cancel_left he
      simp only [List.cons.injEq, DgrpRec.group.injEq, true_and, and_true] at heq
      exact ⟨eraseDups_eq_self.mp heq, hl _ (List.mem_append_right _ (List.mem_singleton.mpr rfl))⟩
    · rintro ⟨hnd, hs⟩
      rw [eraseDups_eq_self.mpr hnd]
      refine ⟨rfl, ?_⟩
      intro l hl
      rcases List.mem_append.mp hl with hl | hl
      · exact hlim l hl
      · rw [List.mem_singleton] at hl
        exact hl ▸ hs
  constructor
  · intro h
    have hok : ∀ m ∈ members, MemberOk m := fun m hm' =>
      h.memberOk (List.mem_append_right _ (List.mem_singleton.mpr rfl)) (List.mem_eraseDups.mpr hm')
    exact ⟨hok, (hkey hok).mp h⟩
  · rintro ⟨hok, h⟩
    exact (hkey hok).mpr h

/-- The new record counts only once it is written to its end. -/
theorem append_flushed_iff (hT : DgrpTable contents rs) (hold : oldMembers dgrp rs = none)
    (hn : GroupName dgrp) (hm : ∀ m ∈ members, NulFree m) :
    ReadsGroups (contents ++ flushed a.flush (putdgrptabrec (.group dgrp members)))
        (unionTable dgrp members rs) ↔
      Flushes a.flush (putdgrptabrec (.group dgrp members)) ∧ (∀ m ∈ members, MemberOk m) ∧
        members.Nodup ∧ (DgrpRec.group dgrp members).Short := by
  rw [← append_union_iff hT hold hn hm, ← flushed_eq_iff]
  constructor
  · intro h
    have hunion := (oldMembers_none hold 0 members).2
    have hok : ∀ m ∈ members, MemberOk m := by
      intro m hm'
      have hgroup : DgrpRec.group dgrp members.eraseDups ∈ unionTable dgrp members rs := by
        rw [hunion]
        exact List.mem_append_right _ (List.mem_singleton.mpr rfl)
      exact h.memberOk hgroup (List.mem_eraseDups.mpr hm')
    obtain ⟨ls, rfl, hr, -, hp⟩ := hT.lines
    have hlines : ∀ l ∈ ls ++ [putdgrptabrec (.group dgrp members)], IsRecord dgrpComplete l := by
      intro l hl
      rcases List.mem_append.mp hl with hl | hl
      · exact hr l hl
      · rw [List.mem_singleton.mp hl]
        exact (putdgrptabrec_parse (r := .group dgrp members)
          ⟨hn, fun m hm' => ⟨hok m hm', hm m hm'⟩⟩).1
    have hwhole := h.whole hlines
      (by simpa using (flushed_start a.flush (putdgrptabrec (.group dgrp members))))
      (by rw [hunion]; simpa using (congrArg List.length hp).le)
    simp only [List.flatten_append, List.flatten_singleton, List.append_cancel_left_eq] at hwhole
    rw [hwhole] at h
    exact ⟨hwhole, h⟩
  · rintro ⟨hf, h⟩
    rw [hf]
    exact h

theorem addMembers_subset (h : m ∈ addMembers ms members) : m ∈ ms ∨ m ∈ members := by
  rw [addMembers_eq] at h
  split at h
  · exact .inr h
  · exact List.mem_append.mp (List.mem_eraseDups.mp h)

theorem set_addMembers_wf (hw : ∀ r ∈ rs, r.Wf) (hi : rs[i]? = some (.group dgrp ms))
    (hm : ∀ m ∈ members, NulFree m) (hok : ∀ m ∈ members, MemberOk m) :
    ∀ r ∈ rs.set i (.group dgrp (addMembers ms members)), r.Wf := by
  have hold := hw _ (List.mem_of_getElem? hi)
  intro r hr
  rcases List.mem_or_eq_of_mem_set hr with hr | rfl
  · exact hw r hr
  · refine ⟨hold.1, ?_⟩
    intro m hm'
    rcases addMembers_subset hm' with h | h
    · exact hold.2 m h
    · exact ⟨hok m h, hm m h⟩

theorem set_group_inj (hlt : i < rs.length) :
    rs.set i (.group dgrp ms) = rs.set i (.group dgrp ms') ↔ ms = ms' := by
  constructor
  · intro h
    have heq := congrArg (fun l => l[i]?) h
    simpa only [List.getElem?_set_self hlt, Option.some.injEq, DgrpRec.group.injEq,
      true_and] using heq
  · intro h
    rw [h]

theorem ReadsGroups.unchanged_iff (h : ReadsGroups contents rs)
    (hi : rs[i]? = some (.group dgrp ms)) :
    ReadsGroups contents (rs.set i (.group dgrp ms.eraseDups)) ↔ ms.Nodup := by
  obtain ⟨hlt, hget⟩ := List.getElem?_eq_some_iff.mp hi
  have hself : rs.set i (.group dgrp ms) = rs := by rw [← hget, List.set_getElem_self]
  rw [← eraseDups_eq_self, ← set_group_inj hlt, hself]
  constructor
  · intro h'
    exact (h.eq h').symm
  · intro he
    rw [he]
    exact h

theorem rewrite_union_iff (hw : ∀ r ∈ rs, r.Wf) (hi : rs[i]? = some (.group dgrp ms))
    (hm : ∀ m ∈ members, NulFree m) :
    ReadsGroups ((rs.set i (.group dgrp (addMembers ms members))).map putdgrptabrec).flatten
        (rs.set i (.group dgrp (ms ++ members).eraseDups)) ↔
      (∀ m ∈ members, MemberOk m) ∧ (ms = [] → members.Nodup) ∧
        ∀ r ∈ rs.set i (.group dgrp (ms ++ members).eraseDups), r.Short := by
  have hlt : i < rs.length := (List.getElem?_eq_some_iff.mp hi).1
  have hmem (r : DgrpRec) : r ∈ rs.set i r := List.mem_set hlt r
  have hkey (hok : ∀ m ∈ members, MemberOk m) :
      ReadsGroups ((rs.set i (.group dgrp (addMembers ms members))).map putdgrptabrec).flatten
        (rs.set i (.group dgrp (ms ++ members).eraseDups)) ↔
      (ms = [] → members.Nodup) ∧
        ∀ r ∈ rs.set i (.group dgrp (ms ++ members).eraseDups), r.Short := by
    rw [readsGroups_put_iff (set_addMembers_wf hw hi hm hok) (by simp), ← addMembers_union_iff,
      set_group_inj hlt, eq_comm]
    exact and_congr_right fun he => by rw [he]
  constructor
  · intro h
    have hok : ∀ m ∈ members, MemberOk m := fun m hm' =>
      h.memberOk (hmem _) (List.mem_eraseDups.mpr (List.mem_append_right _ hm'))
    exact ⟨hok, (hkey hok).mp h⟩
  · rintro ⟨hok, h⟩
    exact (hkey hok).mpr h

/-- The new table counts only once it is written to its end. -/
theorem rewrite_flushed_iff (hw : ∀ r ∈ rs, r.Wf) (hi : rs[i]? = some (.group dgrp ms))
    (hm : ∀ m ∈ members, NulFree m) :
    ReadsGroups
        (flushed o.flush ((rs.set i (.group dgrp (addMembers ms members))).map
          putdgrptabrec).flatten)
        (rs.set i (.group dgrp (ms ++ members).eraseDups)) ↔
      Flushes o.flush
          ((rs.set i (.group dgrp (ms ++ members).eraseDups)).map putdgrptabrec).flatten ∧
        (∀ m ∈ members, MemberOk m) ∧ (ms = [] → members.Nodup) ∧
        ∀ r ∈ rs.set i (.group dgrp (ms ++ members).eraseDups), r.Short := by
  have hlt : i < rs.length := (List.getElem?_eq_some_iff.mp hi).1
  constructor
  · intro h
    have hok : ∀ m ∈ members, MemberOk m := fun m hm' =>
      h.memberOk (List.mem_set hlt _) (List.mem_eraseDups.mpr (List.mem_append_right _ hm'))
    have hlines : ∀ l ∈ (rs.set i (.group dgrp (addMembers ms members))).map putdgrptabrec,
        IsRecord dgrpComplete l := by
      intro l hl
      obtain ⟨r, hr, rfl⟩ := List.mem_map.mp hl
      exact (putdgrptabrec_parse (set_addMembers_wf hw hi hm hok r hr)).1
    have hwhole := h.whole hlines (flushed_start _ _) (by simp)
    rw [hwhole] at h
    have hunion := (rewrite_union_iff hw hi hm).mp h
    rw [flushed_eq_iff, (addMembers_union_iff ms members).mpr hunion.2.1] at hwhole
    exact ⟨hwhole, hunion⟩
  · rintro ⟨hf, hunion⟩
    have hout := (rewrite_union_iff hw hi hm).mpr hunion
    rw [(addMembers_union_iff ms members).mpr hunion.2.1] at hout ⊢
    rw [flushed_eq_iff.mpr hf]
    exact hout

end Addition

section Samples

def sampleGroups : List DgrpRec := [.group "g".toList ["a".toList]]

theorem sampleGroups_wf : ∀ r ∈ sampleGroups, r.Wf := by
  intro r hr
  rw [sampleGroups, List.mem_singleton] at hr
  subst hr
  refine ⟨⟨by decide, ?_, by decide, by decide, by decide⟩, ?_⟩
  · rintro c ⟨⟩
    decide
  · intro m hm
    rw [List.mem_singleton] at hm
    subst hm
    refine ⟨⟨by decide, ?_, by decide, by decide⟩, by decide⟩
    rintro c ⟨⟩
    decide

theorem sampleGroups_table : DgrpTable "g:a\n".toList sampleGroups := by
  have hline : IsRecord dgrpComplete ("g:a".toList ++ ['\n']) :=
    isRecord_line (by decide) (by decide)
  exact ⟨["g:a\n".toList], rfl, .cons ⟨hline, by decide, by decide⟩ .nil⟩

end Samples

end Pkgtools
