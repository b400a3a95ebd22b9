import Pkgtools.DevTabFrame
import Pkgtools.DevTabRequest

namespace Pkgtools
open CLib
set_option autoImplicit true

section Found

theorem findAlias_some (h : findAlias device ents = some (some e)) :
    e ∈ ents ∧ ∃ d, e.body = .data d := by
  induction ents with
  | nil => cases h
  | cons x ents ih =>
    rw [findAlias] at h
    cases hx : x.body with
    | comment t =>
      rw [hx] at h
      obtain ⟨h₁, h₂⟩ := ih h
      exact ⟨List.mem_cons_of_mem _ h₁, h₂⟩
    | data d =>
      simp only [hx] at h
      cases hn : d.aliasName with
      | none =>
        rw [hn] at h
        cases h
      | some name =>
        simp only [hn] at h
        split at h
        · cases h
          exact ⟨List.mem_cons_self .., d, hx⟩
        · obtain ⟨h₁, h₂⟩ := ih h
          exact ⟨List.mem_cons_of_mem _ h₁, h₂⟩

theorem getdevrec_some (h : getdevrec stat ents device = some (some e)) :
    e ∈ ents ∧ ∃ d, e.body = .data d := by
  rw [getdevrec] at h
  split at h
  · exact findAlias_some h
  · split at h
    · rename_i x hx
      cases h
      refine ⟨List.mem_of_find?_eq_some hx, ?_⟩
      have hn := List.find?_some hx
      rw [Devtabent.names] at hn
      split at hn
      · cases hn
      · rename_i d hd
        exact ⟨d, hd⟩
    · split at h
      · cases h
      · have hx := Option.some.inj h
        refine ⟨List.mem_of_find?_eq_some hx, ?_⟩
        have hn := List.find?_some hx
        rw [Devtabent.sameAs] at hn
        split at hn
        · cases hn
        · rename_i d hd
          exact ⟨d, hd⟩

theorem updateTable_true {o : TabOutcomes} (d : TabDir) (hread : d.dir.read .table = some old)
    (hflush : o.flush = none) (h : updateTable mknewdevtab plan o d.dir = some res)
    (ht : res.ret = true) :
    ∃ texts, plan old = .write texts true ∧ res.dir.read .table = some texts.flatten := by
  cases hlock : o.lock with
  | false =>
    rw [updateTable, hlock] at h
    cases h
    cases ht
  | true =>
    simp only [updateTable, hlock, hread] at h
    cases hplan : plan old with
    | crash =>
      rw [hplan] at h
      cases h
    | refuse =>
      rw [hplan] at h
      cases h
      cases ht
    | write texts noerr =>
      simp only [hplan, d.opennewtab] at h
      split_ifs at h with hopen
      · cases h
        obtain ⟨h₁, h₂⟩ := (installTable_dev d hread texts noerr).of_ret ht
        rw [Bool.true_and] at h₁
        rw [hflush] at h₂
        exact ⟨texts, by rw [h₁], h₂⟩
      · cases h
        cases ht

theorem updateTable_ok (texts : List Str) (h : plan contents = .write texts noerr) :
    ∃ res, updateTable mknewdevtab plan .ok (TabDir.of contents).dir = some res ∧
      res.ret = noerr := by
  have hread : (TabDir.of contents).dir.read .table = some contents := rfl
  have hi := installTable_dev (o := .ok) (TabDir.of contents) hread texts noerr
  refine ⟨_, ?_, (hi.done (fun _ _ => rfl) rfl rfl).2.1⟩
  simp only [updateTable, TabOutcomes.ok, hread, h]
  rfl

end Found

section Rewrite
variable {rs : List DevRec} {d' new : DevData}

theorem map_stripped (hw : ∀ r ∈ rs, DevRec.Wf r) : rs.map DevRec.stripped = rs := by
  have he : rs.map DevRec.stripped = rs.map id := List.map_congr_left fun r hr => (hw r hr).stripped
  rw [he, List.map_id]

/-- The table with one record replaced reads as such exactly when all records fit. -/
theorem readsAs_set_iff (hw : ∀ r ∈ rs, DevRec.Wf r) (hi : i < rs.length) (hp : d'.Plain)
    (hputs : putRecs (rs.set i (.data d')) = some ts) :
    ReadsAs ts.flatten (rs.set i (.data new)) ↔
      (∀ r ∈ rs.set i (.data d'), r.Short) ∧ new = d'.stripped := by
  have hplain : ∀ r ∈ rs.set i (.data d'), r.Plain := by
    intro r hr
    rcases List.mem_or_eq_of_mem_set hr with hr | rfl
    · exact (hw r hr).plain
    · exact hp
  have hstrip : (rs.set i (.data d')).map DevRec.stripped = rs.set i (.data d'.stripped) := by
    rw [List.map_set, map_stripped hw]
    rfl
  constructor
  · intro h
    have hs := readsAs_all_short hplain hputs h (by simp)
    refine ⟨hs, ?_⟩
    have hput := readsAs_put _ hplain hs hputs
    rw [hstrip] at hput
    have heq := congrArg (fun l => l[i]?) (h.eq hput)
    simp only [List.getElem?_set_self hi, Option.some.injEq, DevRec.data.injEq] at heq
    exact heq
  · rintro ⟨hs, rfl⟩
    rw [← hstrip]
    exact readsAs_put _ hplain hs hputs

theorem readsAs_erase_iff (hw : ∀ r ∈ rs, DevRec.Wf r) (hputs : putRecs (rs.eraseIdx i) = some ts) :
    ReadsAs ts.flatten (rs.eraseIdx i) ↔ ∀ r ∈ rs.eraseIdx i, r.Short := by
  have hw' : ∀ r ∈ rs.eraseIdx i, r.Wf := fun r hr => hw r (List.mem_of_mem_eraseIdx hr)
  have hplain : ∀ r ∈ rs.eraseIdx i, r.Plain := fun r hr => (hw' r hr).plain
  constructor
  · intro h
    exact readsAs_all_short hplain hputs h (Nat.le_refl _)
  · intro hs
    have hput := readsAs_put _ hplain hs hputs
    rwa [map_stripped hw'] at hput

end Rewrite

section Change

theorem mem_setVal (h : x ∈ setVal a l) : x ∈ l ∨ x = a := by
  induction l with
  | nil => cases h
  | cons y l ih =>
    rw [setVal] at h
    split at h
    · rename_i he
      rcases List.mem_cons.mp h with rfl | h
      · exact .inr (by rw [he])
      · exact .inl (List.mem_cons_of_mem _ h)
    · rcases List.mem_cons.mp h with rfl | h
      · exact .inl (List.mem_cons_self ..)
      · exact (ih h).imp_left (List.mem_cons_of_mem _)

theorem mem_setAttrs (h : x ∈ List.foldl setAttr l chg) : x ∈ l ∨ x ∈ chg := by
  induction chg generalizing l with
  | nil => exact .inl h
  | cons a chg ih =>
    rcases ih h with h | h
    · rw [setAttr] at h
      split at h
      · rcases mem_setVal h with h | rfl
        · exact .inl h
        · exact .inr (List.mem_cons_self ..)
      · rcases List.mem_cons.mp h with rfl | h
        · exact .inr (List.mem_cons_self ..)
        · exact .inl h
    · exact .inr (List.mem_cons_of_mem _ h)

theorem mem_applyChg (h : x ∈ (applyChg dat chg).attrlist) :
    x ∈ dat.attrlist ∨ x ∈ chg.attrlist := by
  simp only [applyChg] at h
  split at h
  · exact .inr h
  · exact mem_setAttrs h

theorem splitPair_plain (h : splitPair p = some a) (hp : NulFree p) : a.Plain := by
  have hsplit := List.takeWhile_append_dropWhile (p := (· != '=')) (l := p)
  rw [splitPair] at h
  split at h
  · cases h
  · rename_i c val hval
    split at h
    · cases h
    · cases h
      refine ⟨?_, ?_, ?_⟩
      · intro hm
        have := List.mem_takeWhile_imp hm
        simp at this
      · exact hp.sublist (List.takeWhile_sublist _)
      · rw [hval] at hsplit
        refine hp.sublist ?_
        rw [← hsplit]
        exact (List.sublist_cons_self c val).trans (List.sublist_append_right _ _)

def DevData.Paths (d : DevData) : Prop := DevField d.cdevice ∧ DevField d.bdevice ∧
    DevField d.pathname

theorem newPath_field (h : newPath old val = some f) (hv : NulFree val) : DevField f := by
  rw [newPath] at h
  split at h
  · rename_i hp
    cases h
    rintro s ⟨⟩
    refine ⟨?_, hv⟩
    rintro rfl
    cases hp.2
  · cases h

theorem addPair_paths (h : addPair ent p = some ent') (hp : NulFree p) (he : ent.Paths) :
    ent'.Paths := by
  obtain ⟨h₁, h₂, h₃⟩ := he
  rw [addPair] at h
  cases hsp : splitPair p with
  | none =>
    rw [hsp] at h
    cases h
    exact ⟨h₁, h₂, h₃⟩
  | some a =>
    have hv := (splitPair_plain hsp hp).val_nul
    simp only [hsp] at h
    split_ifs at h
    · obtain ⟨f, hf, rfl⟩ := Option.map_eq_some_iff.mp h
      exact ⟨newPath_field hf hv, h₂, h₃⟩
    · obtain ⟨f, hf, rfl⟩ := Option.map_eq_some_iff.mp h
      exact ⟨h₁, newPath_field hf hv, h₃⟩
    · obtain ⟨f, hf, rfl⟩ := Option.map_eq_some_iff.mp h
      exact ⟨h₁, h₂, newPath_field hf hv⟩
    · cases h
      exact ⟨h₁, h₂, h₃⟩

theorem mkdevtabentLoop_paths (h : mkdevtabentLoop ent pp = some chg) (hp : ∀ p ∈ pp, NulFree p)
    (he : ent.Paths) : chg.Paths := by
  induction pp generalizing ent with
  | nil =>
    cases h
    exact he
  | cons p pp ih =>
    rw [mkdevtabentLoop] at h
    cases hadd : addPair ent p with
    | none =>
      rw [hadd] at h
      cases h
    | some ent' =>
      rw [hadd] at h
      exact ih h (fun q hq => hp q (List.mem_cons_of_mem _ hq))
        (addPair_paths hadd (hp p (List.mem_cons_self ..)) he)

theorem DevField.or {f g : Option Str} (hf : DevField f) (hg : DevField g) : DevField (f.or g) := by
  cases f with
  | none => exact hg
  | some s => exact hf

theorem mkdevtabent_attr (h : mkdevtabent device attrval = some chg) (ha : a ∈ chg.attrlist) :
    a ∈ pairsOf attrval := by
  have hlist : chg.attrlist = (pairsOf attrval).filter fun a => !isFieldName a.attr :=
    (mkdevtabent_built h).attrlist
  rw [hlist] at ha
  exact (List.mem_filter.mp ha).1

theorem applyChg_plain (h : mkdevtabent device attrval = some chg) (hd : dat.Plain)
    (hn : ∀ p ∈ attrval, NulFree p) : (applyChg dat chg).Plain := by
  have hnone : DevField none := by
    rintro s ⟨⟩
  obtain ⟨h₁, h₂, h₃⟩ := mkdevtabentLoop_paths h hn ⟨hnone, hnone, hnone⟩
  refine ⟨hd.aliasName, h₁.or hd.cdevice, h₂.or hd.bdevice, h₃.or hd.pathname, ?_⟩
  intro a ha
  rcases mem_applyChg ha with ha | ha
  · exact hd.attrlist a ha
  · obtain ⟨p, hp, hsp⟩ := List.mem_filterMap.mp (mkdevtabent_attr h ha)
    exact splitPair_plain hsp (hn p hp)

theorem dropWhile_head (p : α → Bool) (s : List α) (h : (s.dropWhile p).head? = some c) :
    p c = false := by
  have hne : s.dropWhile p ≠ [] := by
    intro he
    rw [he] at h
    cases h
  have hh := List.head_dropWhile_not p hne
  rw [List.head?_eq_some_head hne, Option.some.injEq] at h
  rw [← h]
  exact hh

theorem isFieldName_named (h : isFieldName name = true) (hc : name.head? = some c) :
    strippable c = false := by
  simp only [isFieldName, Bool.or_eq_true, beq_iff_eq] at h
  rcases h with (rfl | rfl) | rfl <;> cases hc <;> decide

/-- What is read back has the requested attributes exactly when their names can be read back. -/
theorem applyChg_stripped_iff (h : mkdevtabent device attrval = some chg) (hd : dat.Wf) :
    Overrides dat (applyChg dat chg).stripped attrval ↔ ∀ a ∈ pairsOf attrval, a.Named := by
  have hover := applyChg_overrides h dat
  constructor
  · intro ho a ha c hc
    cases hf : isFieldName a.attr with
    | true => exact isFieldName_named hf hc
    | false =>
      have hmap := ho.attrs a.attr
      have hreq : requested attrval a.attr ≠ none := by
        intro hnone
        exact attrMap_eq_none.mp hnone a ha rfl
      obtain ⟨v, hv⟩ := Option.ne_none_iff_exists'.mp hreq
      rw [hf, hv] at hmap
      have hsome : attrMap (applyChg dat chg).stripped.attrlist a.attr ≠ none := by
        rw [hmap]
        simp
      rw [Ne, attrMap_eq_none] at hsome
      push Not at hsome
      obtain ⟨x, hx, he⟩ := hsome
      obtain ⟨y, -, rfl⟩ := List.mem_map.mp hx
      rw [← he] at hc
      exact dropWhile_head strippable y.attr hc
  · intro hn
    have hself : (applyChg dat chg).attrlist.map AttrVal.stripped =
        (applyChg dat chg).attrlist := by
      have he : (applyChg dat chg).attrlist.map AttrVal.stripped =
          (applyChg dat chg).attrlist.map id := by
        apply List.map_congr_left
        intro a ha
        rcases mem_applyChg ha with ha | ha
        · exact (hd.named a ha).stripped
        · exact (hn a (mkdevtabent_attr h ha)).stripped
      rw [he, List.map_id]
    rw [DevData.stripped, hself]
    exact hover

theorem rmAttrs_wf (hd : dat.Wf) (names : List Str) : (rmAttrs dat names).1.Wf := by
  obtain ⟨h₀, h₁, h₂, h₃⟩ := rmAttrs_fields dat names
  have hnone : DevField none := by
    rintro s ⟨⟩
  have hmem {a : AttrVal} (ha : a ∈ (rmAttrs dat names).1.attrlist) : a ∈ dat.attrlist :=
    rmAttrs_subset dat names ha
  refine ⟨⟨?_, ?_, ?_, ?_, fun a ha => hd.attrlist a (hmem ha)⟩, fun a ha => hd.named a (hmem ha)⟩
  · rw [h₀]
    exact hd.aliasName
  · rw [h₁]
    split
    · exact hnone
    · exact hd.cdevice
  · rw [h₂]
    split
    · exact hnone
    · exact hd.bdevice
  · rw [h₃]
    split
    · exact hnone
    · exact hd.pathname

end Change

section Updates
variable {stat : Str → Option Stat64} {b b' : RecBuf} {device old : Str} {rs : List DevRec}

/-- The device is the record `i` of the table. -/
structure FoundAt (stat : Str → Option Stat64) (rs : List DevRec) (device : Str) (i : Nat)
    (dat : DevData) : Prop where
  found : getdevrec stat (numbered 0 rs) device = some (some ⟨i, .data dat⟩)
  record : rs[i]? = some (.data dat)

theorem FoundAt.of_getdevrec (h : getdevrec stat (numbered 0 rs) device = some (some ent)) :
    ∃ dat, ent = ⟨ent.entryno, .data dat⟩ ∧ FoundAt stat rs device ent.entryno dat := by
  obtain ⟨hmem, dat, hdat⟩ := getdevrec_some h
  have hent : ent = ⟨ent.entryno, .data dat⟩ := by
    rw [← hdat]
  refine ⟨dat, hent, ?_, ?_⟩
  · rw [h]
    exact congrArg (fun e => some (some e)) hent
  · have hr := (mem_numbered hmem).2
    rwa [Nat.sub_zero, hdat] at hr

theorem FoundAt.lt (h : FoundAt stat rs device i dat) : i < rs.length :=
  (List.getElem?_eq_some_iff.mp h.record).1

theorem FoundAt.wf (h : FoundAt stat rs device i dat) (hw : ∀ r ∈ rs, DevRec.Wf r) : dat.Wf :=
  hw _ (List.mem_of_getElem? h.record)

theorem devPlan_write (h : devPlan f ents noerr = .write texts noerr') :
    putRecs (ents.filterMap f) = some texts ∧ noerr = noerr' := by
  rw [devPlan] at h
  split at h
  · cases h
  · rename_i ts hts
    cases h
    exact ⟨hts, rfl⟩

theorem moddevtabrec_write (hrs : ReadsAs old rs) (hb : devtabGrowth.BufOk b)
    (hb' : devtabGrowth.BufOk b')
    (h : moddevtabrec stat b b' device attrval old = .write texts noerr) :
    ∃ i dat chg, FoundAt stat rs device i dat ∧ mkdevtabent device attrval = some chg ∧
      putRecs (rs.set i (.data (applyChg dat chg))) = some texts := by
  rw [moddevtabrec, hrs b hb, hrs b' hb'] at h
  split at h
  · cases h
  · cases h
  · rename_i ent hent
    obtain ⟨dat, he, hat⟩ := FoundAt.of_getdevrec hent
    split at h
    · rename_i d chg hbody hmk
      rw [he] at hbody
      cases hbody
      obtain ⟨hputs, -⟩ := devPlan_write h
      have hcopy := (numbered_copy 0 ent.entryno (.data (applyChg dat chg)) rs).1
      rw [Nat.zero_add] at hcopy
      rw [hcopy] at hputs
      exact ⟨_, dat, chg, hat, hmk, hputs⟩
    · cases h

theorem rmdevtabrec_write (hrs : ReadsAs old rs) (hb : devtabGrowth.BufOk b)
    (hb' : devtabGrowth.BufOk b') (h : rmdevtabrec stat b b' device old = .write texts noerr) :
    ∃ i dat, FoundAt stat rs device i dat ∧ putRecs (rs.eraseIdx i) = some texts := by
  rw [rmdevtabrec, hrs b hb, hrs b' hb'] at h
  split at h
  · cases h
  · cases h
  · rename_i ent hent
    obtain ⟨dat, he, hat⟩ := FoundAt.of_getdevrec hent
    obtain ⟨hputs, -⟩ := devPlan_write h
    have hcopy := (numbered_copy 0 ent.entryno (.data dat) rs).2
    rw [Nat.zero_add] at hcopy
    rw [hcopy] at hputs
    exact ⟨_, dat, hat, hputs⟩

theorem rmdevtabattrs_write (hrs : ReadsAs old rs) (hb : devtabGrowth.BufOk b)
    (hb' : devtabGrowth.BufOk b')
    (h : rmdevtabattrs stat b b' device attributes old = .write texts noerr) :
    ∃ i dat, FoundAt stat rs device i dat ∧
      putRecs (rs.set i (.data (rmAttrs dat attributes).1)) = some texts := by
  rw [rmdevtabattrs, hrs b hb, hrs b' hb'] at h
  split at h
  · cases h
  split at h
  · cases h
  · cases h
  · rename_i ent hent
    obtain ⟨dat, he, hat⟩ := FoundAt.of_getdevrec hent
    split at h
    · cases h
    · rename_i d hbody
      rw [he] at hbody
      cases hbody
      obtain ⟨hputs, -⟩ := devPlan_write h
      have hcopy := (numbered_copy 0 ent.entryno (.data (rmAttrs dat attributes).1) rs).1
      rw [Nat.zero_add] at hcopy
      rw [hcopy] at hputs
      exact ⟨_, dat, hat, hputs⟩

theorem moddevtabrec_true {o : TabOutcomes} (d : TabDir) (hread : d.dir.read .table = some old)
    (hflush : o.flush = none) (hrs : ReadsAs old rs) (hw : ∀ r ∈ rs, r.Wf)
    (hb : devtabGrowth.BufOk b)
    (hb' : devtabGrowth.BufOk b') (hnul : ∀ p ∈ attrval, NulFree p)
    (hup : updateTable mknewdevtab (moddevtabrec stat b b' device attrval) o d.dir = some res)
    (ht : res.ret = true) :
    ∃ i dat chg, FoundAt stat rs device i dat ∧ mkdevtabent device attrval = some chg ∧
      ((∃ new out, res.dir.read .table = some out ∧ ReadsAs out (rs.set i (.data new)) ∧
          Overrides dat new attrval) ↔
        (∀ r ∈ rs.set i (.data (applyChg dat chg)), r.Short) ∧
          ∀ a ∈ pairsOf attrval, a.Named) := by
  obtain ⟨texts, hplan, hnew⟩ := updateTable_true d hread hflush hup ht
  obtain ⟨i, dat, chg, hat, hmk, hputs⟩ := moddevtabrec_write hrs hb hb' hplan
  have hdat := hat.wf hw
  have hplain := applyChg_plain hmk hdat.toPlain hnul
  refine ⟨i, dat, chg, hat, hmk, ?_⟩
  rw [← applyChg_stripped_iff hmk hdat]
  constructor
  · rintro ⟨new, out, hout, hreads, hover⟩
    rw [hnew] at hout
    cases hout
    obtain ⟨hshort, rfl⟩ := (readsAs_set_iff hw hat.lt hplain hputs).mp hreads
    exact ⟨hshort, hover⟩
  · rintro ⟨hshort, hover⟩
    exact ⟨_, _, hnew, (readsAs_set_iff hw hat.lt hplain hputs).mpr ⟨hshort, rfl⟩, hover⟩

theorem rmdevtabrec_true {o : TabOutcomes} (d : TabDir) (hread : d.dir.read .table = some old)
    (hflush : o.flush = none) (hrs : ReadsAs old rs) (hw : ∀ r ∈ rs, r.Wf)
    (hb : devtabGrowth.BufOk b)
    (hb' : devtabGrowth.BufOk b')
    (hup : updateTable mknewdevtab (rmdevtabrec stat b b' device) o d.dir = some res)
    (ht : res.ret = true) :
    ∃ i dat, FoundAt stat rs device i dat ∧
      ((∃ out, res.dir.read .table = some out ∧ ReadsAs out (rs.eraseIdx i)) ↔
        ∀ r ∈ rs.eraseIdx i, r.Short) := by
  obtain ⟨texts, hplan, hnew⟩ := updateTable_true d hread hflush hup ht
  obtain ⟨i, dat, hat, hputs⟩ := rmdevtabrec_write hrs hb hb' hplan
  refine ⟨i, dat, hat, ?_⟩
  rw [← readsAs_erase_iff hw hputs]
  constructor
  · rintro ⟨out, hout, hreads⟩
    rw [hnew] at hout
    cases hout
    exact hreads
  · intro hreads
    exact ⟨_, hnew, hreads⟩

theorem rmdevtabattrs_true {o : TabOutcomes} (d : TabDir) (hread : d.dir.read .table = some old)
    (hflush : o.flush = none) (hrs : ReadsAs old rs) (hw : ∀ r ∈ rs, r.Wf)
    (hb : devtabGrowth.BufOk b)
    (hb' : devtabGrowth.BufOk b')
    (hup : updateTable mknewdevtab (rmdevtabattrs stat b b' device attributes) o d.dir = some res)
    (ht : res.ret = true) :
    ∃ i dat, FoundAt stat rs device i dat ∧
      ((∃ new out, res.dir.read .table = some out ∧ ReadsAs out (rs.set i (.data new)) ∧
          Strips dat new attributes) ↔
        (∀ r ∈ rs.set i (.data (rmAttrs dat attributes).1), r.Short) ∧
          ∀ name ∈ plainNames attributes, listed dat.attrlist name ≤ attributes.count name) := by
  obtain ⟨texts, hplan, hnew⟩ := updateTable_true d hread hflush hup ht
  obtain ⟨i, dat, hat, hputs⟩ := rmdevtabattrs_write hrs hb hb' hplan
  have hwf := rmAttrs_wf (hat.wf hw) attributes
  refine ⟨i, dat, hat, ?_⟩
  rw [← rmAttrs_strips]
  constructor
  · rintro ⟨new, out, hout, hreads, hstrips⟩
    rw [hnew] at hout
    cases hout
    obtain ⟨hshort, rfl⟩ := (readsAs_set_iff hw hat.lt hwf.toPlain hputs).mp hreads
    rw [hwf.stripped] at hstrips
    exact ⟨hshort, hstrips⟩
  · rintro ⟨hshort, hstrips⟩
    refine ⟨_, _, hnew, (readsAs_set_iff hw hat.lt hwf.toPlain hputs).mpr ⟨hshort, rfl⟩, ?_⟩
    rw [hwf.stripped]
    exact hstrips

/-- Exactly when an update that returns TRUE has touched only its record: the records fit as they
are written, a requested attribute does not start with white space, and an attribute to remove is
not listed more often than it is named. -/
theorem devtab_update_iff {o : TabOutcomes} (d : TabDir) (hread : d.dir.read .table = some old)
    (hflush : o.flush = none) (hrs : ReadsAs old rs) (hw : ∀ r ∈ rs, r.Wf)
    (hb : devtabGrowth.BufOk b)
    (hb' : devtabGrowth.BufOk b') (stat : Str → Option Stat64) (device : Str) :
    (∀ attrval res, (∀ p ∈ attrval, NulFree p) →
      updateTable mknewdevtab (moddevtabrec stat b b' device attrval) o d.dir = some res →
      res.ret = true →
      ∃ i dat chg, FoundAt stat rs device i dat ∧ mkdevtabent device attrval = some chg ∧
        ((∃ new out, res.dir.read .table = some out ∧ ReadsAs out (rs.set i (.data new)) ∧
            Overrides dat new attrval) ↔
          (∀ r ∈ rs.set i (.data (applyChg dat chg)), r.Short) ∧
            ∀ a ∈ pairsOf attrval, a.Named)) ∧
    (∀ res, updateTable mknewdevtab (rmdevtabrec stat b b' device) o d.dir = some res →
      res.ret = true →
      ∃ i dat, FoundAt stat rs device i dat ∧
        ((∃ out, res.dir.read .table = some out ∧ ReadsAs out (rs.eraseIdx i)) ↔
          ∀ r ∈ rs.eraseIdx i, r.Short)) ∧
    ∀ attributes res,
      updateTable mknewdevtab (rmdevtabattrs stat b b' device attributes) o d.dir = some res →
      res.ret = true →
      ∃ i dat, FoundAt stat rs device i dat ∧
        ((∃ new out, res.dir.read .table = some out ∧ ReadsAs out (rs.set i (.data new)) ∧
            Strips dat new attributes) ↔
          (∀ r ∈ rs.set i (.data (rmAttrs dat attributes).1), r.Short) ∧
            ∀ name ∈ plainNames attributes, listed dat.attrlist name ≤ attributes.count name) := by
  refine ⟨?_, ?_, ?_⟩
  · intro attrval res hnul hup ht
    exact moddevtabrec_true d hread hflush hrs hw hb hb' hnul hup ht
  · intro res hup ht
    exact rmdevtabrec_true d hread hflush hrs hw hb hb' hup ht
  · intro attributes res hup ht
    exact rmdevtabattrs_true d hread hflush hrs hw hb hb' hup ht

end Updates

section Samples

def sampleTape : DevData := ⟨some "tp".toList, none, none, none, []⟩

def sampleTable : TabDir := TabDir.of "tp::::\n".toList

theorem sampleTape_wf : ∀ r ∈ [DevRec.data sampleTape], r.Wf := by
  intro r hr
  rw [List.mem_singleton] at hr
  subst hr
  have hnone : DevField none := by
    rintro s ⟨⟩
  refine ⟨⟨⟨"tp".toList, rfl, by decide⟩, hnone, hnone, hnone, ?_⟩, ?_⟩
  · intro a ha
    cases ha
  · intro a ha
    cases ha

theorem sampleTape_reads : ReadsAs "tp::::\n".toList [.data sampleTape] := by
  have hputs : putRecs [.data sampleTape] = some ["tp::::\n".toList] := rfl
  refine readsAs_put [.data sampleTape] ?_ ?_ hputs
  · intro r hr
    exact (sampleTape_wf r hr).plain
  · intro r hr
    rw [List.mem_singleton] at hr
    subst hr
    rintro s ⟨⟩
    decide

theorem FoundAt.tape {stat : Str → Option Stat64} {device : Str}
    (h : FoundAt stat [.data sampleTape] device i dat) : i = 0 ∧ dat = sampleTape := by
  have hr := h.record
  cases i with
  | zero =>
    cases hr
    exact ⟨rfl, rfl⟩
  | succ i => cases hr

theorem devtab_update_tape :
    ∃ res new out, updateTable mknewdevtab
        (moddevtabrec (fun _ => none) ⟨0, 0⟩ ⟨0, 0⟩ "tp".toList ["x=1".toList])
          .ok sampleTable.dir = some res ∧ res.ret = true ∧ res.dir.read .table = some out ∧
      ReadsAs out [.data new] ∧ Overrides sampleTape new ["x=1".toList] := by
  obtain ⟨res, hup, ht⟩ : ∃ res, updateTable mknewdevtab
      (moddevtabrec (fun _ => none) ⟨0, 0⟩ ⟨0, 0⟩ "tp".toList ["x=1".toList])
        .ok sampleTable.dir = some res ∧ res.ret = true :=
    updateTable_ok ["tp::::x=\"1\"\n".toList] (by decide +kernel)
  obtain ⟨i, dat, chg, hat, hmk, hiff⟩ := (devtab_update_iff (o := .ok) sampleTable rfl rfl
    sampleTape_reads sampleTape_wf (.inl rfl) (.inl rfl) (fun _ => none) "tp".toList).1
      ["x=1".toList] res (by decide) hup ht
  obtain ⟨rfl, rfl⟩ := hat.tape
  cases hmk
  obtain ⟨new, out, h₁, h₂, h₃⟩ := hiff.mpr (by
    constructor
    · intro r hr
      rw [List.set_cons_zero, List.mem_singleton] at hr
      subst hr
      rintro s ⟨⟩
      decide
    · intro a ha
      rcases List.mem_singleton.mp ha with rfl
      rintro c ⟨⟩
      decide)
  exact ⟨res, new, out, hup, ht, h₁, h₂, h₃⟩

/-- An attribute whose name starts with a space is read back under another name. -/
theorem devtab_update_space :
    ∃ res, updateTable mknewdevtab
        (moddevtabrec (fun _ => none) ⟨0, 0⟩ ⟨0, 0⟩ "tp".toList [" x=1".toList])
          .ok sampleTable.dir = some res ∧ res.ret = true ∧
      (∀ r ∈ [DevRec.data sampleTape], r.Wf ∧ r.Short) ∧
      ReadsAs "tp::::\n".toList [.data sampleTape] ∧
      getdevrec (fun _ => none) (numbered 0 [.data sampleTape]) "tp".toList =
        some (some ⟨0, .data sampleTape⟩) ∧
      ¬ ∃ new out, res.dir.read .table = some out ∧ ReadsAs out [.data new] ∧
        Overrides sampleTape new [" x=1".toList] := by
  obtain ⟨res, hup, ht⟩ : ∃ res, updateTable mknewdevtab
      (moddevtabrec (fun _ => none) ⟨0, 0⟩ ⟨0, 0⟩ "tp".toList [" x=1".toList])
        .ok sampleTable.dir = some res ∧ res.ret = true :=
    updateTable_ok ["tp:::: x=\"1\"\n".toList] (by decide +kernel)
  refine ⟨res, hup, ht, ?_, sampleTape_reads, rfl, ?_⟩
  · intro r hr
    refine ⟨sampleTape_wf r hr, ?_⟩
    rw [List.mem_singleton] at hr
    subst hr
    rintro s ⟨⟩
    decide
  · intro hex
    obtain ⟨i, dat, chg, hat, hmk, hiff⟩ := moddevtabrec_true (o := .ok) sampleTable rfl rfl
      sampleTape_reads sampleTape_wf (.inl rfl) (.inl rfl) (by decide) hup ht
    obtain ⟨rfl, rfl⟩ := hat.tape
    have hnamed := (hiff.mp hex).2 ⟨" x".toList, "1".toList⟩ (by decide) ' ' rfl
    cases hnamed

end Samples

end Pkgtools
