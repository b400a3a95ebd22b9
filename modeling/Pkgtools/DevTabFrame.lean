import Pkgtools.DevTabUpdate

namespace Pkgtools
open CLib
set_option autoImplicit true

/-- The table reads as these records, whatever the reader's buffer is. -/
def ReadsAs (contents : Str) (rs : List DevRec) : Prop :=
  ∀ b, devtabGrowth.BufOk b → readDevtab b contents = numbered 0 rs

section Written

theorem putRecs_cons (h : putRecs (r :: rs) = some ts) :
    ∃ s ts', putdevtabrec r = some s ∧ putRecs rs = some ts' ∧ ts = s :: ts' := by
  rw [putRecs] at h
  split at h
  · rename_i s ts' hs hts
    exact ⟨s, ts', hs, hts, (Option.some.inj h).symm⟩
  · cases h

theorem readDevtabLoop_put (rs : List DevRec) (hp : ∀ r ∈ rs, r.Plain) (hs : ∀ r ∈ rs, r.Short)
    (hb : devtabGrowth.BufOk b) (hputs : putRecs rs = some ts) (hf : ts.flatten.length < fuel)
    (n : Nat) :
    readDevtabLoop fuel ⟨ts.flatten, b, n⟩ = numbered n (rs.map DevRec.stripped) := by
  induction rs generalizing b n ts fuel with
  | nil =>
    cases hputs
    obtain ⟨k, rfl⟩ := Nat.exists_eq_succ_of_ne_zero (Nat.ne_of_gt hf)
    rfl
  | cons r rs ih =>
    obtain ⟨s, ts', hput, hrs, rfl⟩ := putRecs_cons hputs
    obtain ⟨s', b', hput', hne, hb', hget⟩ := getdevtabent_put (hp r (List.mem_cons_self ..))
      (hs r (List.mem_cons_self ..)) hb ts'.flatten n
    obtain rfl := Option.some.inj (hput'.symm.trans hput)
    have hlen := List.length_pos_iff.mpr hne
    rw [List.flatten_cons, List.length_append] at hf
    obtain ⟨k, rfl⟩ := Nat.exists_eq_succ_of_ne_zero (Nat.ne_of_gt (Nat.zero_lt_of_lt hf))
    rw [List.flatten_cons, readDevtabLoop, hget]
    exact congrArg (_ :: ·) (ih (fun x hx => hp x (List.mem_cons_of_mem _ hx))
      (fun x hx => hs x (List.mem_cons_of_mem _ hx)) hb' hrs (by omega) (n + 1))

/-- Records that fit are read back, without the white space before attribute names. -/
theorem readsAs_put (rs : List DevRec) (hp : ∀ r ∈ rs, r.Plain) (hs : ∀ r ∈ rs, r.Short)
    (hputs : putRecs rs = some ts) : ReadsAs ts.flatten (rs.map DevRec.stripped) := by
  intro b hb
  exact readDevtabLoop_put rs hp hs hb hputs (Nat.lt_succ_self _) 0

theorem putRecs_records (hp : ∀ r ∈ rs, r.Plain) (hputs : putRecs rs = some ts) :
    ts.length = rs.length ∧
      (∀ t ∈ ts, IsRecord devtabComplete t ∧ (parseDevRec t).isSome) ∧
      ∀ r ∈ rs, ∃ t ∈ ts, putdevtabrec r = some t := by
  induction rs generalizing ts with
  | nil =>
    cases hputs
    exact ⟨rfl, by simp, by simp⟩
  | cons r rs ih =>
    obtain ⟨s, ts', hput, hrs, rfl⟩ := putRecs_cons hputs
    obtain ⟨hlen, hts, hmem⟩ := ih (fun x hx => hp x (List.mem_cons_of_mem _ hx)) hrs
    obtain ⟨s', hput', hrec, hparse⟩ := putdevtabrec_record (hp r (List.mem_cons_self ..))
    obtain rfl := Option.some.inj (hput'.symm.trans hput)
    refine ⟨congrArg (· + 1) hlen, ?_, ?_⟩
    · exact List.forall_mem_cons.mpr ⟨⟨hrec, by rw [hparse]; rfl⟩, hts⟩
    · intro x hx
      rcases List.mem_cons.mp hx with rfl | hx
      · exact ⟨s', List.mem_cons_self .., hput⟩
      · obtain ⟨t, ht, hx⟩ := hmem x hx
        exact ⟨t, List.mem_cons_of_mem _ ht, hx⟩

theorem readDevtabLoop_le_records (ts : List Str)
    (hts : ∀ t ∈ ts, IsRecord devtabComplete t ∧ (parseDevRec t).isSome)
    (hb : b.size = 0 ∨ devtabGrowth.BufExact b) (n fuel : Nat) :
    (readDevtabLoop fuel ⟨ts.flatten, b, n⟩).length ≤
      (devtabGrowth.records devtabComplete fuel b ts.flatten).length := by
  induction fuel generalizing ts b n with
  | zero => exact Nat.le_refl 0
  | succ fuel ih =>
    have hexact := Growth.BufExact.getRecord hb devtabComplete ts.flatten
    rcases hr : devtabGrowth.getRecord devtabComplete b ts.flatten with ⟨o, b', rest⟩
    rw [hr] at hexact
    cases o with
    | none => simp [readDevtabLoop, getdevtabent, getdevtabentLoop, hr]
    | some record =>
      cases ts with
      | nil => cases hr
      | cons t ts =>
        obtain ⟨ht, hparse⟩ := hts t (List.mem_cons_self ..)
        obtain ⟨body, hbody⟩ := Option.isSome_iff_exists.mp hparse
        have hshort : t.length ≤ devtabGrowth.limit := by
          by_contra hlong
          have hnone := Growth.getRecord_long ht (Nat.lt_of_not_le hlong) hb ts.flatten
          rw [← List.flatten_cons, hr] at hnone
          cases hnone
        obtain ⟨b₁, hget, -⟩ := Growth.getRecord_record ht hshort (hb.elim .inl fun h => h.bufOk)
          ts.flatten
        rw [← List.flatten_cons, hr] at hget
        cases hget
        have hent : getdevtabent ⟨(record :: ts).flatten, b, n⟩ =
            (some ⟨n, body⟩, ⟨ts.flatten, b', n + 1⟩) := by
          simp only [getdevtabent, getdevtabentLoop, hr, hbody]
        rw [readDevtabLoop, hent, Growth.records, hr]
        exact Nat.succ_le_succ (ih ts (fun x hx => hts x (List.mem_cons_of_mem _ hx)) (.inr hexact)
          (n + 1))

theorem numbered_length (n : Nat) (rs : List DevRec) : (numbered n rs).length = rs.length := by
  induction rs generalizing n with
  | nil => rfl
  | cons r rs ih => exact congrArg (· + 1) (ih (n + 1))

theorem numbered_inj (h : numbered n rs = numbered n rs') : rs = rs' := by
  induction rs generalizing n rs' with
  | nil =>
    cases rs' with
    | nil => rfl
    | cons r rs' => cases h
  | cons r rs ih =>
    cases rs' with
    | nil => cases h
    | cons r' rs' =>
      obtain ⟨h₁, h₂⟩ := List.cons.inj h
      rw [ih h₂]
      cases h₁
      rfl

/-- A table that reads as many records as were written has none that is too long. -/
theorem readsAs_all_short (hp : ∀ x ∈ xs, x.Plain) (hputs : putRecs xs = some ts)
    (h : ReadsAs ts.flatten ys) (hlen : xs.length ≤ ys.length) : ∀ x ∈ xs, x.Short := by
  obtain ⟨hts, hrec, hmem⟩ := putRecs_records hp hputs
  have hread := h ⟨0, 0⟩ (.inl rfl)
  have hle := readDevtabLoop_le_records ts hrec (b := ⟨0, 0⟩) (.inl rfl) 0 (ts.flatten.length + 1)
  rw [show readDevtabLoop (ts.flatten.length + 1) ⟨ts.flatten, ⟨0, 0⟩, 0⟩ =
    numbered 0 ys from hread,
    numbered_length] at hle
  have hlimit := Growth.records_limit (fun t ht => (hrec t ht).1) (.inl rfl)
    (hts.le.trans (hlen.trans hle))
  intro x hx s hs
  obtain ⟨t, ht, hxt⟩ := hmem x hx
  obtain rfl := Option.some.inj (hxt.symm.trans hs)
  exact hlimit t ht

theorem ReadsAs.eq (h : ReadsAs c rs) (h' : ReadsAs c rs') : rs = rs' := by
  have h₁ := h ⟨0, 0⟩ (.inl rfl)
  rw [h' ⟨0, 0⟩ (.inl rfl)] at h₁
  exact (numbered_inj h₁).symm

end Written

section Entries

theorem mem_numbered (h : e ∈ numbered n rs) :
    n ≤ e.entryno ∧ rs[e.entryno - n]? = some e.body := by
  induction rs generalizing n with
  | nil => cases h
  | cons r rs ih =>
    rcases List.mem_cons.mp h with rfl | h
    · exact ⟨Nat.le_refl n, by simp⟩
    · obtain ⟨h₁, h₂⟩ := ih h
      refine ⟨by omega, ?_⟩
      rw [show e.entryno - n = e.entryno - (n + 1) + 1 by omega, List.getElem?_cons_succ]
      exact h₂

theorem numbered_bodies (h : i < n) (r : DevRec) (rs : List DevRec) :
    (numbered n rs).filterMap (fun e => some (if e.entryno ≠ i then e.body else r)) = rs ∧
      (numbered n rs).filterMap (fun e => if e.entryno ≠ i then some e.body else none) = rs := by
  induction rs generalizing n with
  | nil => exact ⟨rfl, rfl⟩
  | cons x rs ih =>
    have hne : n ≠ i := by omega
    obtain ⟨h₁, h₂⟩ := ih (n := n + 1) (by omega)
    simp only [ne_eq] at h₁ h₂
    constructor
    · rw [numbered, List.filterMap_cons]
      simp only [ne_eq, hne, not_false_eq_true, if_true, h₁]
    · rw [numbered, List.filterMap_cons]
      simp only [ne_eq, hne, not_false_eq_true, if_true, h₂]

theorem numbered_copy (n i : Nat) (r : DevRec) (rs : List DevRec) :
    (numbered n rs).filterMap (fun e => some (if e.entryno ≠ n + i then e.body else r)) =
        rs.set i r ∧
      (numbered n rs).filterMap (fun e => if e.entryno ≠ n + i then some e.body else none) =
        rs.eraseIdx i := by
  induction rs generalizing n i with
  | nil => exact ⟨rfl, rfl⟩
  | cons x rs ih =>
    cases i with
    | zero =>
      obtain ⟨h₁, h₂⟩ := numbered_bodies (Nat.lt_succ_self n) r rs
      simp only [ne_eq] at h₁ h₂
      constructor
      · rw [numbered, List.filterMap_cons]
        simp only [Nat.add_zero, ne_eq, not_true, if_false, h₁, List.set_cons_zero]
      · rw [numbered, List.filterMap_cons]
        simp only [Nat.add_zero, ne_eq, not_true, if_false, h₂, List.eraseIdx_cons_zero]
    | succ i =>
      have hne : n ≠ n + (i + 1) := by omega
      have hn : n + 1 + i = n + (i + 1) := by omega
      obtain ⟨h₁, h₂⟩ := ih (n + 1) i
      rw [hn] at h₁ h₂
      simp only [ne_eq] at h₁ h₂
      constructor
      · rw [numbered, List.filterMap_cons]
        simp only [ne_eq, hne, not_false_eq_true, if_true, h₁, List.set_cons_succ]
      · rw [numbered, List.filterMap_cons]
        simp only [ne_eq, hne, not_false_eq_true, if_true, h₂, List.eraseIdx_cons_succ]

end Entries

end Pkgtools
