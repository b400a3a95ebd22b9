import Pkgtools.DgrpTab

namespace Pkgtools
open CLib
set_option autoImplicit true

section Written

theorem isRecord_line (h : '\n' ∉ body) (hn : NulFree body) :
    IsRecord dgrpComplete (body ++ ['\n']) where
  whole := by simp [dgrpComplete]
  ends := List.getLast?_concat
  nulFree := by
    intro hm
    rcases List.mem_append.mp hm with hm | hm
    · exact hn hm
    · exact absurd (List.mem_singleton.mp hm) (by decide)
  minimal := by
    intro a c he _ hc
    obtain ⟨c', x, rfl⟩ := List.eq_nil_or_concat c |>.resolve_left hc
    have hbody : body = a ++ c' := by
      rw [List.concat_eq_append, ← List.append_assoc] at he
      exact List.append_inj_left' he rfl
    rw [dgrpComplete, beq_eq_false_iff_ne]
    intro hlast
    apply h
    rw [hbody]
    exact List.mem_append_left _ (List.mem_of_getLast? hlast)

theorem mem_membersText (h : c ∈ membersText ms) : c = ',' ∨ ∃ m ∈ ms, c ∈ m := by
  induction ms with
  | nil => cases h
  | cons m ms ih =>
    cases ms with
    | nil => exact .inr ⟨m, List.mem_cons_self .., h⟩
    | cons m' ms =>
      rcases List.mem_append.mp h with h | h
      · exact .inr ⟨m, List.mem_cons_self .., h⟩
      · rcases List.mem_cons.mp h with h | h
        · exact .inl h
        · rcases ih h with h | ⟨x, hx, hc⟩
          · exact .inl h
          · exact .inr ⟨x, List.mem_cons_of_mem _ hx, hc⟩

theorem getfld_field (hne : f ≠ []) (hs : ∀ c, f.head? = some c → isspace c = false)
    (hf : ∀ c ∈ f, c ∉ delims) (hd : d ∈ delims) (q : Str) :
    getfld delims (some (f ++ d :: q)) = some (f, some q) := by
  cases f with
  | nil => exact absurd rfl hne
  | cons c f =>
    have hc := hs c rfl
    have hstop : (c :: f ++ d :: q).dropWhile (· ∉ delims) = d :: q := by
      rw [List.dropWhile_append_of_pos (fun x hx => by simpa using hf x hx),
        List.dropWhile_cons_of_neg (by simpa using hd)]
    have htake : (c :: f ++ d :: q).takeWhile (· ∉ delims) = c :: f := by
      rw [List.takeWhile_append_of_pos (fun x hx => by simpa using hf x hx),
        List.takeWhile_cons_of_neg (by simpa using hd), List.append_nil]
    have hskip : (c :: f ++ d :: q).dropWhile isspace = c :: f ++ d :: q :=
      List.dropWhile_cons_of_neg (by simp [hc])
    rw [List.cons_append] at hstop htake hskip ⊢
    simp only [getfld, hskip, hstop, htake]

theorem getmembers_nil (fuel : Nat) : getmembers fuel (some []) = [] := by
  cases fuel <;> rfl

theorem getmembers_text (h : ∀ m ∈ ms, MemberOk m) (hf : ms.length < fuel) :
    getmembers fuel (some (membersText ms ++ ['\n'])) = ms := by
  induction ms generalizing fuel with
  | nil =>
    obtain ⟨k, rfl⟩ := Nat.exists_eq_succ_of_ne_zero (Nat.ne_of_gt hf)
    rfl
  | cons m ms ih =>
    obtain ⟨k, rfl⟩ := Nat.exists_eq_succ_of_ne_zero (Nat.ne_of_gt (Nat.zero_lt_of_lt hf))
    have hm := h m (List.mem_cons_self ..)
    have hdelims : ∀ c ∈ m, c ∉ [',', '\n'] := by
      rintro c hc hd
      rcases List.mem_cons.mp hd with rfl | hd
      · exact hm.comma hc
      · rw [List.mem_singleton] at hd
        exact hm.newline (hd ▸ hc)
    cases ms with
    | nil =>
      have hg := getfld_field hm.ne_nil hm.starts hdelims (d := '\n') (by decide) []
      rw [getmembers, membersText, hg]
      simp only [if_neg hm.ne_nil, getmembers_nil]
    | cons m' ms =>
      have hg := getfld_field hm.ne_nil hm.starts hdelims (d := ',') (by decide)
        (membersText (m' :: ms) ++ ['\n'])
      have htext : membersText (m :: m' :: ms) ++ ['\n'] =
          m ++ ',' :: (membersText (m' :: ms) ++ ['\n']) := by
        rw [membersText, List.append_assoc, List.cons_append]
        simp
      rw [getmembers, htext, hg]
      simp only [if_neg hm.ne_nil]
      rw [ih (fun x hx => h x (List.mem_cons_of_mem _ hx)) (Nat.lt_of_succ_lt_succ hf)]

theorem membersText_length (h : ∀ m ∈ ms, MemberOk m) : ms.length ≤ (membersText ms).length := by
  induction ms with
  | nil => exact Nat.le_refl 0
  | cons m ms ih =>
    have hm := List.length_pos_iff.mpr (h m (List.mem_cons_self ..)).ne_nil
    have := ih fun x hx => h x (List.mem_cons_of_mem _ hx)
    cases ms with
    | nil =>
      rw [membersText, List.length_singleton]
      exact hm
    | cons m' ms =>
      simp only [membersText, List.length_append, List.length_cons] at this ⊢
      omega

theorem parseDgrpRec_group (hn : GroupName name) (hm : ∀ m ∈ ms, MemberOk m) :
    parseDgrpRec (putdgrptabrec (.group name ms)) = some (.group name ms) := by
  have hcom : isDgrpComment (putdgrptabrec (.group name ms)) = false := by
    cases hname : name with
    | nil => exact absurd hname hn.ne_nil
    | cons c s =>
      obtain ⟨h₁, h₂⟩ := hn.starts c (by rw [hname]; rfl)
      have h₃ : c ≠ '\n' := by
        rintro rfl
        cases h₂
      simp [putdgrptabrec, isDgrpComment, h₁, h₂, h₃]
  have hcolon : ∀ c ∈ name, c ∉ [':'] := by
    intro c hc hd
    rw [List.mem_singleton] at hd
    exact hn.colon (hd ▸ hc)
  have hg := getfld_field hn.ne_nil (fun c hc => (hn.starts c hc).2) hcolon (d := ':') (by decide)
    (membersText ms ++ ['\n'])
  have hfuel : ms.length < (putdgrptabrec (.group name ms)).length + 1 := by
    have := membersText_length hm
    simp only [putdgrptabrec, List.length_append, List.length_cons]
    omega
  rw [parseDgrpRec, hcom]
  simp only [Bool.false_eq_true, if_false]
  rw [show putdgrptabrec (.group name ms) = name ++ ':' :: (membersText ms ++ ['\n']) from rfl]
    at hfuel ⊢
  rw [hg]
  simp only
  rw [getmembers_text hm hfuel]

theorem putdgrptabrec_parse {r : DgrpRec} (h : r.Wf) :
    IsRecord dgrpComplete (putdgrptabrec r) ∧ parseDgrpRec (putdgrptabrec r) = some r := by
  cases r with
  | comment t =>
    refine ⟨h.1, ?_⟩
    rw [parseDgrpRec, putdgrptabrec, if_pos h.2]
  | group name ms =>
    obtain ⟨hn, hm⟩ := h
    refine ⟨?_, parseDgrpRec_group hn fun m hm' => (hm m hm').1⟩
    have hbody : putdgrptabrec (.group name ms) = (name ++ ':' :: membersText ms) ++ ['\n'] := by
      simp [putdgrptabrec]
    rw [hbody]
    apply isRecord_line
    · intro hc
      rcases List.mem_append.mp hc with hc | hc
      · exact hn.newline hc
      · rcases List.mem_cons.mp hc with hc | hc
        · exact absurd hc (by decide)
        · rcases mem_membersText hc with hc | ⟨m, hm', hc⟩
          · exact absurd hc (by decide)
          · exact (hm m hm').1.newline hc
    · intro hc
      rcases List.mem_append.mp hc with hc | hc
      · exact hn.nulFree hc
      · rcases List.mem_cons.mp hc with hc | hc
        · exact absurd hc (by decide)
        · rcases mem_membersText hc with hc | ⟨m, hm', hc⟩
          · exact absurd hc (by decide)
          · exact (hm m hm').2 hc

end Written

section Read
variable {ls : List Str} {rs : List DgrpRec}

/-- The entries of the table, numbered from `n` on. -/
def entriesFrom (n : Nat) (rs : List DgrpRec) : List Dgrptabent :=
  (rs.zipIdx n).map fun p => ⟨p.2, p.1⟩

theorem entriesFrom_cons (n : Nat) (r : DgrpRec) (rs : List DgrpRec) :
    entriesFrom n (r :: rs) = ⟨n, r⟩ :: entriesFrom (n + 1) rs := by
  rw [entriesFrom, List.zipIdx_cons, List.map_cons]
  rfl

theorem parseDgrpRec_isSome (h : record ≠ []) : (parseDgrpRec record).isSome := by
  cases record with
  | nil => exact absurd rfl h
  | cons c s =>
    rw [parseDgrpRec]
    split
    · rfl
    · rename_i hc
      have hsp : isspace c = false := by
        simp only [isDgrpComment, Bool.or_eq_true, not_or] at hc
        simpa using hc.2
      have hskip : (c :: s).dropWhile isspace = c :: s :=
        List.dropWhile_cons_of_neg (by simp [hsp])
      simp only [getfld, hskip]
      cases (c :: s).dropWhile (· ∉ [':']) <;> rfl

theorem getdgrptabent_none (h : dgrpGrowth.getRecord dgrpComplete b file = (none, b', rest)) :
    (getdgrptabent ⟨file, b, n⟩).1 = none := by
  rw [getdgrptabent, getdgrptabentLoop, h]

theorem getdgrptabent_some (h : dgrpGrowth.getRecord dgrpComplete b file = (some record, b', rest))
    (hp : parseDgrpRec record = some r) :
    getdgrptabent ⟨file, b, n⟩ = (some ⟨n, r⟩, ⟨rest, b', n + 1⟩) := by
  rw [getdgrptabent, getdgrptabentLoop, h]
  simp only [hp]

theorem readDgrptabLoop_records (fuel : Nat) (b : RecBuf) (file : Str) (n : Nat) :
    readDgrptabLoop fuel ⟨file, b, n⟩ =
      entriesFrom n ((dgrpGrowth.records dgrpComplete fuel b file).filterMap parseDgrpRec) := by
  induction fuel generalizing b file n with
  | zero => rfl
  | succ fuel ih =>
    rw [readDgrptabLoop, Growth.records]
    rcases hget : dgrpGrowth.getRecord dgrpComplete b file with ⟨o, b', rest⟩
    cases o with
    | none =>
      have hnone := getdgrptabent_none hget (n := n)
      rcases he : getdgrptabent ⟨file, b, n⟩ with ⟨e, st⟩
      rw [he] at hnone
      simp only at hnone
      subst hnone
      rfl
    | some record =>
      have hne := (Growth.getRecord_some hget).2.2.1
      obtain ⟨r, hr⟩ := Option.isSome_iff_exists.mp (parseDgrpRec_isSome hne)
      rw [getdgrptabent_some hget hr]
      simp only [List.filterMap_cons, hr]
      rw [ih, entriesFrom_cons]

theorem entriesFrom_body (n : Nat) (rs : List DgrpRec) :
    (entriesFrom n rs).map Dgrptabent.body = rs := by
  induction rs generalizing n with
  | nil => rfl
  | cons r rs ih => rw [entriesFrom_cons, List.map_cons, ih]

theorem readDgrptab_eq (b : RecBuf) (contents : Str) :
    readDgrptab b contents = entriesFrom 0 ((readDgrptab b contents).map Dgrptabent.body) := by
  rw [readDgrptab, readDgrptabLoop_records, entriesFrom_body]

theorem ReadsGroups.read (h : ReadsGroups contents rs) (hb : dgrpGrowth.BufOk b) :
    readDgrptab b contents = entriesFrom 0 rs := by
  rw [readDgrptab_eq, h b hb]

theorem ReadsGroups.eq (h : ReadsGroups c rs) (h' : ReadsGroups c rs') : rs = rs' :=
  (h ⟨0, 0⟩ (.inl rfl)).symm.trans (h' ⟨0, 0⟩ (.inl rfl))

theorem DgrpTable.lines (h : DgrpTable contents rs) :
    ∃ ls : List Str, contents = ls.flatten ∧ (∀ l ∈ ls, IsRecord dgrpComplete l) ∧
      (∀ l ∈ ls, l.length ≤ dgrpGrowth.limit) ∧ ls.map parseDgrpRec = rs.map some := by
  obtain ⟨ls, rfl, hall⟩ := h
  refine ⟨ls, rfl, ?_⟩
  induction hall with
  | nil => exact ⟨fun _ h => absurd h List.not_mem_nil, fun _ h => absurd h List.not_mem_nil, rfl⟩
  | cons hx _ ih =>
    obtain ⟨h₁, h₂, h₃⟩ := ih
    refine ⟨List.forall_mem_cons.mpr ⟨hx.1, h₁⟩, List.forall_mem_cons.mpr ⟨hx.2.1, h₂⟩, ?_⟩
    rw [List.map_cons, List.map_cons, h₃, hx.2.2]

theorem readsGroups_lines (hr : ∀ l ∈ ls, IsRecord dgrpComplete l)
    (hlim : ∀ l ∈ ls, l.length ≤ dgrpGrowth.limit) (hp : ls.map parseDgrpRec = rs.map some) :
    ReadsGroups ls.flatten rs := by
  intro b hb
  have hlen := length_le_flatten fun l hl => (hr l hl).ne_nil
  rw [readDgrptab, readDgrptabLoop_records, entriesFrom_body,
    Growth.records_lines hr hlim hb (Nat.lt_succ_of_le hlen)]
  have : ls.filterMap parseDgrpRec = (ls.map parseDgrpRec).filterMap id := by
    rw [List.filterMap_map]
    rfl
  rw [this, hp, List.filterMap_map]
  exact List.filterMap_some

/-- A table that reads as many records as it has lines has none that is too long. -/
theorem readsGroups_limit (hr : ∀ l ∈ ls, IsRecord dgrpComplete l) (h : ReadsGroups ls.flatten rs)
    (hlen : ls.length ≤ rs.length) : ∀ l ∈ ls, l.length ≤ dgrpGrowth.limit := by
  have hread := h ⟨0, 0⟩ (.inl rfl)
  rw [readDgrptab, readDgrptabLoop_records, entriesFrom_body] at hread
  rw [← hread] at hlen
  exact Growth.records_limit hr (.inl rfl) (hlen.trans (List.length_filterMap_le _ _))

theorem mem_of_dgrpComplete (record : Str) (h : dgrpComplete record = true) : '\n' ∈ record :=
  List.mem_of_getLast? (by simpa [dgrpComplete] using h)

theorem count_newline (h : IsRecord dgrpComplete l) : l.count '\n' = 1 := by
  obtain ⟨body, c, rfl⟩ := List.eq_nil_or_concat l |>.resolve_left h.ne_nil
  have hends := h.ends
  have hmin := h.minimal
  rw [List.concat_eq_append] at hends hmin ⊢
  rw [List.getLast?_concat, Option.some.injEq] at hends
  subst hends
  have hbody : '\n' ∉ body := by
    intro hm
    obtain ⟨x, y, rfl⟩ := List.append_of_mem hm
    have := hmin (x ++ ['\n']) (y ++ ['\n']) (by simp) (by simp) (by simp)
    simp [dgrpComplete] at this
  simp [List.count_append, List.count_eq_zero_of_not_mem hbody]

theorem count_newlines (hr : ∀ l ∈ ls, IsRecord dgrpComplete l) :
    ls.flatten.count '\n' = ls.length := by
  induction ls with
  | nil => rfl
  | cons l ls ih =>
    obtain ⟨hl, hls⟩ := List.forall_mem_cons.mp hr
    rw [List.flatten_cons, List.count_append, count_newline hl, ih hls, List.length_cons,
      Nat.add_comm]

/-- A table that was cut off reads as fewer records than were written. -/
theorem ReadsGroups.whole (h : ReadsGroups out rs) (hr : ∀ l ∈ ls, IsRecord dgrpComplete l)
    (hcut : out <+: ls.flatten) (hlen : ls.length ≤ rs.length) : out = ls.flatten := by
  obtain ⟨rest, hrest⟩ := hcut
  have hread := h ⟨0, 0⟩ (.inl rfl)
  rw [readDgrptab, readDgrptabLoop_records, entriesFrom_body] at hread
  have hcount : rs.length ≤ out.count '\n' := by
    rw [← hread]
    exact (List.length_filterMap_le _ _).trans (Growth.records_newlines mem_of_dgrpComplete)
  have hnone : rest.count '\n' = 0 := by
    have hall := count_newlines hr
    rw [← hrest, List.count_append] at hall
    omega
  cases hnil : rest.getLast? with
  | none => rw [← hrest, List.getLast?_eq_none_iff.mp hnil, List.append_nil]
  | some c =>
    -- what is missing would end with the newline of the last record
    obtain ⟨l, hl, hlast⟩ : ∃ l ∈ ls, l.getLast? = some c := by
      have hlast : ls.flatten.getLast? = some c := by
        rw [← hrest, List.getLast?_append, hnil, Option.some_or]
      rw [List.getLast?_flatten] at hlast
      obtain ⟨l, hl, hc⟩ := List.exists_of_findSome?_eq_some hlast
      exact ⟨l, List.mem_reverse.mp hl, hc⟩
    rw [(hr l hl).ends, Option.some.injEq] at hlast
    exact absurd (hlast ▸ List.mem_of_getLast? hnil) (List.count_eq_zero.mp hnone)

theorem getfld_some (h : getfld delims leftoff = some (p, q)) :
    (∀ c, p.head? = some c → isspace c = false) ∧ ∀ c ∈ p, c ∉ delims := by
  cases leftoff with
  | none => cases h
  | some s =>
    rw [getfld] at h
    split at h
    · cases h
    · rename_i c t hs
      have hc : isspace c = false := by
        have hhead := List.head_dropWhile_not isspace (l := s)
          (by rw [hs]; exact List.cons_ne_nil _ _)
        simpa [hs] using hhead
      have hp : p = (c :: t).takeWhile (· ∉ delims) := by
        split at h <;> cases h <;> rfl
      subst hp
      constructor
      · intro x hx
        rw [List.takeWhile_cons] at hx
        split at hx
        · cases hx
          exact hc
        · cases hx
      · intro x hx
        simpa using List.mem_takeWhile_imp hx

theorem mem_getmembers (h : m ∈ getmembers fuel leftoff) : MemberOk m := by
  induction fuel generalizing leftoff with
  | zero => cases h
  | succ fuel ih =>
    rw [getmembers] at h
    split at h
    · cases h
    · rename_i p q hg
      split at h
      · exact ih h
      · rename_i hne
        rcases List.mem_cons.mp h with rfl | h
        · obtain ⟨h₁, h₂⟩ := getfld_some hg
          refine ⟨hne, h₁, fun hc => ?_, fun hc => ?_⟩
          · exact h₂ _ hc (by decide)
          · exact h₂ _ hc (by decide)
        · exact ih h

theorem ReadsGroups.memberOk (h : ReadsGroups contents rs) (hr : .group name ms ∈ rs)
    (hm : m ∈ ms) :
    MemberOk m := by
  have hread := h ⟨0, 0⟩ (.inl rfl)
  rw [readDgrptab, readDgrptabLoop_records, entriesFrom_body] at hread
  rw [← hread] at hr
  obtain ⟨record, -, hp⟩ := List.mem_filterMap.mp hr
  rw [parseDgrpRec] at hp
  split at hp
  · cases hp
  · split at hp
    · cases hp
    · cases hp
      exact mem_getmembers hm

end Read

end Pkgtools
