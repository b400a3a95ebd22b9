import Pkgtools.DevTab

namespace Pkgtools
open CLib
set_option autoImplicit true

/-- A line whose newlines are escaped and that does not end in a backslash. -/
structure RecordBody (s : Str) : Prop where
  escaped : NlEscaped s
  ends : s.getLast? ≠ some '\\'
  nulFree : NulFree s

theorem RecordBody.isRecord (h : RecordBody s) : IsRecord devtabComplete (s ++ ['\n']) where
  whole := by
    have hdrop : (s ++ ['\n']).dropLast = s := List.dropLast_concat
    have hlast : (s ++ ['\n']).getLast? = some '\n' := List.getLast?_concat
    rw [devtabComplete, hdrop, hlast]
    simp [h.ends]
  ends := List.getLast?_concat
  nulFree := by
    intro hm
    rcases List.mem_append.mp hm with hm | hm
    · exact h.nulFree hm
    · exact absurd (List.mem_singleton.mp hm) (by decide)
  minimal := by
    intro a c he ha hc
    by_cases hl : a.getLast? = some '\n'
    · -- the newline lies inside the line, so a backslash stands before it
      obtain ⟨a', rfl⟩ := List.getLast?_eq_some_iff.mp hl
      obtain ⟨c', x, rfl⟩ := (List.eq_nil_or_concat c).resolve_left hc
      have hs : s = a' ++ '\n' :: c' := by
        have he' : s ++ ['\n'] = (a' ++ '\n' :: c') ++ [x] := by simpa using he
        exact (List.append_inj' he' rfl).1
      have hb := h.escaped a' c' hs
      have hne : a' ≠ [] := by
        rintro rfl
        cases hb
      have hdrop : (a' ++ ['\n']).dropLast = a' := List.dropLast_concat
      rw [devtabComplete, hdrop, hb]
      have hlen : (a' ++ ['\n']).length ≠ 1 := by
        have hpos := List.length_pos_iff.mpr hne
        rw [List.length_append, List.length_singleton]
        omega
      simp [hne]
    · have hne : (a.getLast? == some '\n') = false := by simpa using hl
      rw [devtabComplete, hne, Bool.false_and]

theorem backslash_mem_dtabEscs : '\\' ∈ dtabEscs := by decide

theorem newline_mem_dtabEscs : '\n' ∈ dtabEscs := by decide

theorem unescape_strcatesc (s : Str) : unescape (strcatesc s) = s :=
  unescape_escape backslash_mem_dtabEscs s

theorem strcatesc_nlEscaped (s : Str) : NlEscaped (strcatesc s) :=
  nlEscaped_escape newline_mem_dtabEscs s

theorem splitField_strcatesc (hd : d ∈ delims) (hsub : ∀ c ∈ delims, c ∈ dtabEscs) (hne : d ≠ '\\')
    (s t : Str) : splitField delims (strcatesc s ++ d :: t) = some (strcatesc s, t) := by
  apply splitField_escape backslash_mem_dtabEscs _ hd hne
  intro c _
  by_cases hc : c ∈ delims
  · exact .inl (hsub c hc)
  · exact .inr hc

theorem devField_fieldText (h : DevField f) : devField (fieldText f) = f := by
  cases f with
  | none => rfl
  | some s =>
    have hne : strcatesc s ≠ [] := escape_ne_nil (h s rfl).1
    change devField (strcatesc s) = some s
    rw [devField, if_neg hne, unescape_strcatesc]

theorem dropWhile_strcatesc (s t : Str) : (strcatesc s ++ '=' :: t).dropWhile isspace =
    strcatesc (s.dropWhile strippable) ++ '=' :: t := by
  induction s with
  | nil => rfl
  | cons c s ih =>
    by_cases hc : c ∈ dtabEscs
    · have hstrip : strippable c = false := by
        revert hc
        simp only [dtabEscs, List.mem_cons, List.not_mem_nil, or_false]
        rintro (rfl | rfl | rfl | rfl) <;> decide
      rw [List.dropWhile_cons_of_neg (by simp [hstrip]), strcatesc, escape_cons, if_pos hc]
      rfl
    · have hnl : c ≠ '\n' := by
        rintro rfl
        exact hc newline_mem_dtabEscs
      have hcons : strcatesc (c :: s) = c :: strcatesc s := by
        rw [strcatesc, escape_cons, if_neg hc]
        rfl
      by_cases hsp : isspace c = true
      · have hstrip : strippable c = true := by
          simp [strippable, hsp, hnl]
        rw [hcons, List.cons_append, List.dropWhile_cons_of_pos hsp,
          List.dropWhile_cons_of_pos hstrip, ih]
      · have hstrip : ¬ strippable c = true := by
          simp [strippable, hsp]
        rw [List.dropWhile_cons_of_neg hstrip, hcons, List.cons_append,
          List.dropWhile_cons_of_neg hsp]

theorem getattrval_pairText (h : a.Plain) (hsp : ∀ c ∈ sp, isspace c = true) (t : Str) :
    getattrval (sp ++ pairText a ++ t) = some (a.stripped, t) := by
  have htext : pairText a ++ t =
      strcatesc a.attr ++ '=' :: '"' :: (strcatesc a.val ++ '"' :: t) := by
    simp [pairText]
  have hdrop : (sp ++ pairText a ++ t).dropWhile isspace =
      strcatesc a.stripped.attr ++ '=' :: '"' :: (strcatesc a.val ++ '"' :: t) := by
    rw [List.append_assoc, List.dropWhile_append_of_pos hsp, htext, dropWhile_strcatesc]
    rfl
  have hname : splitField ['='] (strcatesc a.stripped.attr ++
      '=' :: '"' :: (strcatesc a.val ++ '"' :: t)) =
        some (strcatesc a.stripped.attr, '"' :: (strcatesc a.val ++ '"' :: t)) := by
    apply splitField_escape backslash_mem_dtabEscs _ (by decide) (by decide)
    intro c hc
    refine .inr ?_
    intro hm
    rw [List.mem_singleton] at hm
    exact h.attr_eq (hm ▸ (List.dropWhile_sublist strippable).subset hc)
  have hval : getquoted ('"' :: (strcatesc a.val ++ '"' :: t)) = some (a.val, t) := by
    rw [getquoted, splitField_strcatesc (by decide) (by decide) (by decide)]
    simp only [Option.map_some, unescape_strcatesc]
  rw [getattrval, hdrop]
  cases he : strcatesc a.stripped.attr ++ '=' :: '"' :: (strcatesc a.val ++ '"' :: t) with
  | nil =>
    rw [he] at hname
    cases hname
  | cons c s =>
    rw [he] at hname
    simp only [hname, hval, unescape_strcatesc]
    rfl

theorem getattrvals_attrsText (h : ∀ a ∈ as, a.Plain) (hsp : ∀ c ∈ sp, isspace c = true)
    (hf : as.length < fuel) :
    getattrvals fuel (sp ++ attrsText as ++ ['\n']) = as.map AttrVal.stripped := by
  induction as generalizing sp fuel with
  | nil =>
    obtain ⟨n, rfl⟩ := Nat.exists_eq_succ_of_ne_zero (Nat.ne_of_gt hf)
    have hall : ∀ c ∈ sp ++ attrsText [] ++ ['\n'], isspace c = true := by
      intro c hc
      simp only [attrsText, List.append_nil, List.mem_append, List.mem_singleton] at hc
      rcases hc with hc | rfl
      · exact hsp c hc
      · decide
    have hnone : getattrval (sp ++ attrsText [] ++ ['\n']) = none := by
      rw [getattrval, List.dropWhile_eq_nil_iff.mpr hall]
    rw [getattrvals, hnone]
    rfl
  | cons a as ih =>
    obtain ⟨n, rfl⟩ := Nat.exists_eq_succ_of_ne_zero (Nat.ne_of_gt (Nat.zero_lt_of_lt hf))
    have ha := h a (List.mem_cons_self ..)
    have has := fun x hx => h x (List.mem_cons_of_mem _ hx)
    have hn : as.length < n := Nat.lt_of_succ_lt_succ hf
    obtain ⟨sp', hsp', htext⟩ : ∃ sp', (∀ c ∈ sp', isspace c = true) ∧
        sp ++ attrsText (a :: as) ++ ['\n'] =
          sp ++ pairText a ++ (sp' ++ attrsText as ++ ['\n']) := by
      cases as with
      | nil => exact ⟨[], by simp, by simp [attrsText]⟩
      | cons b bs => exact ⟨[' '], by decide, by simp [attrsText]⟩
    rw [getattrvals, htext, getattrval_pairText ha hsp]
    exact congrArg (a.stripped :: ·) (ih has hsp' hn)

theorem attrsText_length (as : List AttrVal) : as.length ≤ (attrsText as).length := by
  induction as with
  | nil => exact Nat.le_refl 0
  | cons a as ih =>
    have ha : 0 < (pairText a).length := by
      rw [pairText, List.length_append]
      exact Nat.lt_of_lt_of_le Nat.one_pos (Nat.le_add_left _ _)
    cases as with
    | nil => exact ha
    | cons b bs =>
      have hlen : (attrsText (a :: b :: bs)).length =
          (pairText a).length + ((attrsText (b :: bs)).length + 1) := List.length_append
      rw [hlen, List.length_cons]
      omega

theorem validalias_char (h : validalias (c :: s) = true) (hd₁ : isalnum d = false)
    (hd₂ : "@#$_-+.".toList.contains d = false) : d ∉ s ∧ (c ≠ d) := by
  simp only [validalias, Bool.and_eq_true, List.all_eq_true, Bool.or_eq_true] at h
  obtain ⟨⟨-, hc⟩, hs⟩ := h
  constructor
  · intro hm
    rcases hs d hm with h₁ | h₁
    · rw [hd₁] at h₁
      cases h₁
    · rw [hd₂] at h₁
      cases h₁
  · rintro rfl
    rcases hc with h₁ | h₁
    · rw [hd₁] at h₁
      cases h₁
    · have hsub : ∀ x, "@$_.".toList.contains x = true → "@#$_-+.".toList.contains x = true := by
        intro x hx
        simp only [List.contains_eq_mem, decide_eq_true_eq] at hx ⊢
        revert hx
        simp
        tauto
      rw [hsub c h₁] at hd₂
      cases hd₂

theorem validalias_not_mem (h : validalias s = true) (hd₁ : isalnum d = false)
    (hd₂ : "@#$_-+.".toList.contains d = false) : d ∉ s := by
  cases s with
  | nil => exact List.not_mem_nil
  | cons c s =>
    obtain ⟨h₁, h₂⟩ := validalias_char h hd₁ hd₂
    intro hm
    rcases List.mem_cons.mp hm with he | hm
    · exact h₂ he.symm
    · exact h₁ hm

theorem validalias_nulFree (h : validalias s = true) : NulFree s :=
  validalias_not_mem h (by decide) (by decide)

theorem isDevComment_alias (h : validalias s = true) (t : Str) :
    isDevComment (strcatesc s ++ t) = false := by
  cases s with
  | nil => cases h
  | cons c s =>
    have hne {d : Char} (h₁ : isalnum d = false) (h₂ : "@#$_-+.".toList.contains d = false) :
        c ≠ d := (validalias_char h h₁ h₂).2
    have hc : c ∉ dtabEscs := by
      simp only [dtabEscs, List.mem_cons, List.not_mem_nil, or_false, not_or]
      exact ⟨hne (by decide) (by decide), hne (by decide) (by decide), hne (by decide) (by decide),
        hne (by decide) (by decide)⟩
    have hsharp : c ≠ '#' := by
      rintro rfl
      simp [validalias, isalnum] at h
    have hspace : isspace c = false := by
      simp only [isspace, Bool.or_eq_false_iff, beq_eq_false_iff_ne]
      refine ⟨⟨⟨⟨⟨?_, ?_⟩, ?_⟩, ?_⟩, ?_⟩, ?_⟩ <;> exact hne (by decide) (by decide)
    have hnl : c ≠ '\n' := hne (by decide) (by decide)
    rw [strcatesc, escape_cons, if_neg hc]
    simp [isDevComment, hsharp, hnl, hspace]

/-- The record as it is read back. -/
def DevData.stripped (d : DevData) : DevData :=
  { d with attrlist := d.attrlist.map AttrVal.stripped }

/-- A data record is parsed as it was written, up to white space before a name. -/
theorem parseDevData_text (h : d.Plain) (hs : putdevtabrec (.data d) = some s) :
    parseDevData s = some d.stripped := by
  obtain ⟨name, hname, hvalid⟩ := h.aliasName
  have hfield : DevField d.aliasName := by
    intro x hx
    rw [hname] at hx
    cases hx
    constructor
    · rintro rfl
      cases hvalid
    · exact validalias_nulFree hvalid
  have hnametext : strcatesc name = fieldText d.aliasName := by
    rw [hname]
    rfl
  have hc : ∀ c ∈ [':'], c ∈ dtabEscs := by decide
  have hcn : ∀ c ∈ [':', '\n'], c ∈ dtabEscs := by decide
  rw [putdevtabrec, hname] at hs
  cases hs
  rw [parseDevData, splitField_strcatesc (by decide) hc (by decide)]
  simp only [fieldText]
  have hcolon : ':' ∈ [':'] := by decide
  have hcolon' : ':' ∈ [':', '\n'] := by decide
  simp only [splitField_strcatesc hcolon hc (by decide),
    splitField_strcatesc hcolon' hcn (by decide)]
  have hlen : d.attrlist.length < (attrsText d.attrlist ++ ['\n']).length + 1 := by
    have := attrsText_length d.attrlist
    rw [List.length_append]
    omega
  have hnil : ∀ c ∈ ([] : Str), isspace c = true := by simp
  have hattrs := getattrvals_attrsText h.attrlist hnil hlen
  rw [List.nil_append] at hattrs
  rw [hattrs]
  change some (DevData.mk (devField (strcatesc name)) (devField (fieldText d.cdevice))
    (devField (fieldText d.bdevice)) (devField (fieldText d.pathname))
    (d.attrlist.map AttrVal.stripped)) = some d.stripped
  rw [hnametext, devField_fieldText hfield, devField_fieldText h.cdevice,
    devField_fieldText h.bdevice, devField_fieldText h.pathname]
  rfl

theorem fieldText_nulFree (h : DevField f) : NulFree (fieldText f) := by
  cases f with
  | none => exact List.not_mem_nil
  | some x => exact nulFree_escape (h x rfl).2

theorem pairText_nlEscaped (a : AttrVal) : NlEscaped (pairText a) := by
  refine NlEscaped.append (NlEscaped.append (strcatesc_nlEscaped _) ?_)
    (nlEscaped_of_not_mem (by decide))
  exact NlEscaped.append (s := ['=', '"']) (nlEscaped_of_not_mem (by decide))
    (strcatesc_nlEscaped _)

theorem pairText_nulFree (h : a.Plain) : NulFree (pairText a) := by
  intro hm
  simp only [pairText, List.mem_append, List.mem_cons, List.not_mem_nil, or_false] at hm
  rcases hm with (hm | hm | hm | hm) | hm
  · exact nulFree_escape h.attr_nul hm
  · exact absurd hm (by decide)
  · exact absurd hm (by decide)
  · exact nulFree_escape h.val_nul hm
  · exact absurd hm (by decide)

theorem attrsText_nlEscaped (as : List AttrVal) : NlEscaped (attrsText as) := by
  induction as with
  | nil => exact nlEscaped_of_not_mem List.not_mem_nil
  | cons a as ih =>
    cases as with
    | nil => exact pairText_nlEscaped a
    | cons b bs =>
      refine (pairText_nlEscaped a).append ?_
      exact NlEscaped.append (s := [' ']) (nlEscaped_of_not_mem (by decide)) ih

theorem attrsText_nulFree (h : ∀ a ∈ as, a.Plain) : NulFree (attrsText as) := by
  induction as with
  | nil => exact List.not_mem_nil
  | cons a as ih =>
    have ha := pairText_nulFree (h a (List.mem_cons_self ..))
    have has := ih fun x hx => h x (List.mem_cons_of_mem _ hx)
    cases as with
    | nil => exact ha
    | cons b bs =>
      intro hm
      rcases List.mem_append.mp hm with hm | hm
      · exact ha hm
      · rcases List.mem_cons.mp hm with hm | hm
        · exact absurd hm (by decide)
        · exact has hm

theorem attrsText_last (as : List AttrVal) :
    (attrsText as).getLast? = none ∨ (attrsText as).getLast? = some '"' := by
  induction as with
  | nil => exact .inl rfl
  | cons a as ih =>
    have ha : (pairText a).getLast? = some '"' := List.getLast?_concat
    cases as with
    | nil => exact .inr ha
    | cons b bs =>
      have hne : attrsText (b :: bs) ≠ [] := by
        have hl := attrsText_length (b :: bs)
        intro he
        rw [he] at hl
        cases hl
      have hlast : (attrsText (a :: b :: bs)).getLast? = (attrsText (b :: bs)).getLast? := by
        change (pairText a ++ ' ' :: attrsText (b :: bs)).getLast? = _
        rw [List.getLast?_append_of_ne_nil _ (List.cons_ne_nil _ _),
          List.getLast?_cons_of_ne_nil hne]
      rw [hlast]
      exact ih

theorem dataText_body (h : d.Plain) (hs : putdevtabrec (.data d) = some s) :
    ∃ body, s = body ++ ['\n'] ∧ RecordBody body ∧ isDevComment s = false := by
  obtain ⟨name, hname, hvalid⟩ := h.aliasName
  rw [putdevtabrec, hname] at hs
  cases hs
  have hcolon {u : Str} (hu : NlEscaped u) : NlEscaped (':' :: u) :=
    NlEscaped.append (s := [':']) (nlEscaped_of_not_mem (by decide)) hu
  refine ⟨strcatesc name ++ ':' :: (fieldText d.cdevice ++ ':' :: (fieldText d.bdevice ++
    ':' :: (fieldText d.pathname ++ ':' :: attrsText d.attrlist))), by simp, ⟨?_, ?_, ?_⟩, ?_⟩
  · refine (strcatesc_nlEscaped _).append (hcolon ?_)
    refine (strcatesc_nlEscaped _).append (hcolon ?_)
    refine (strcatesc_nlEscaped _).append (hcolon ?_)
    exact (strcatesc_nlEscaped _).append (hcolon (attrsText_nlEscaped _))
  · simp only [List.getLast?_append, List.getLast?_cons]
    rcases attrsText_last d.attrlist with hl | hl
    · simp [hl]
    · simp [hl]
  · intro hm
    simp only [List.mem_append, List.mem_cons] at hm
    have hne : nul ≠ ':' := by decide
    rcases hm with hm | hm | hm | hm | hm | hm | hm | hm | hm
    · exact nulFree_escape (validalias_nulFree hvalid) hm
    · exact hne hm
    · exact fieldText_nulFree h.cdevice hm
    · exact hne hm
    · exact fieldText_nulFree h.bdevice hm
    · exact hne hm
    · exact fieldText_nulFree h.pathname hm
    · exact hne hm
    · exact attrsText_nulFree h.attrlist hm
  · exact isDevComment_alias hvalid _

/-- The comments that `_getdevtabent` returns: a line, without its escapes, that starts with `#`
or white space and does not end in a backslash. -/
structure CommentLine (u : Str) : Prop where
  ends : u.getLast? ≠ some '\\'
  nulFree : NulFree u
  starts : ∀ c, u.head? = some c → c ≠ '\n' ∧ c ≠ '\\' ∧ (c = '#' ∨ isspace c = true)

theorem parseDevRec_comment (hp : parseDevRec record = some (.comment t))
    (hc : devtabComplete record = true) (hn : NulFree record)
    (hl : record.head? = some '\n' → record = ['\n']) :
    ∃ u, t = u ++ ['\n'] ∧ CommentLine u := by
  rw [parseDevRec] at hp
  split at hp
  · rename_i hcom
    cases hp
    simp only [devtabComplete, Bool.and_eq_true, beq_iff_eq] at hc
    obtain ⟨w, rfl⟩ := List.getLast?_eq_some_iff.mp hc.1
    have hw : w.getLast? ≠ some '\\' := by
      rw [List.dropLast_concat, List.length_append, List.length_singleton] at hc
      rcases Bool.or_eq_true_iff.mp hc.2 with h | h
      · have : w = [] := by
          apply List.eq_nil_of_length_eq_zero
          have := beq_iff_eq.mp h
          omega
        rw [this]
        simp
      · exact bne_iff_ne.mp h
    obtain ⟨h₁, h₂⟩ := unescape_append hw ['\n']
    refine ⟨unescape w, h₁, ?_, ?_, ?_⟩
    · rw [h₂]
      exact hw
    · exact (hn.sublist (List.sublist_append_left w _)).sublist (unescape_sublist w)
    · intro c hcu
      cases w with
      | nil => cases hcu
      | cons x w =>
        have hx : x ≠ '\n' := by
          intro he
          have := congrArg List.length (hl (by rw [he]; rfl))
          simp at this
        have hcx : x = '#' ∨ isspace x = true := by
          simp only [isDevComment, List.cons_append, Bool.or_eq_true, beq_iff_eq, hx,
            or_false] at hcom
          exact hcom
        have hb : x ≠ '\\' := by
          rintro rfl
          rcases hcx with h | h
          · exact absurd h (by decide)
          · exact absurd h (by decide)
        rw [unescape_cons hb] at hcu
        cases hcu
        exact ⟨hx, hb, hcx⟩
  · cases hd : parseDevData record with
    | none =>
      rw [hd] at hp
      cases hp
    | some d =>
      rw [hd] at hp
      cases hp

theorem getdevtabent_comment (h : getdevtabentLoop fuel st = (some e, st'))
    (ht : e.body = .comment t) : ∃ u, t = u ++ ['\n'] ∧ CommentLine u := by
  induction fuel generalizing st with
  | zero => cases h
  | succ fuel ih =>
    rw [getdevtabentLoop] at h
    rcases hr : devtabGrowth.getRecord devtabComplete st.recbuf st.rest with ⟨o, b, rest⟩
    rw [hr] at h
    cases o with
    | none => cases h
    | some record =>
      simp only at h
      cases hp : parseDevRec record with
      | none =>
        rw [hp] at h
        exact ih h
      | some body =>
        rw [hp] at h
        cases h
        subst ht
        obtain ⟨h₁, h₂, -, h₃⟩ := Growth.getRecord_some hr
        exact parseDevRec_comment hp h₁ h₂ (h₃ (by decide))

theorem commentText (u : Str) :
    putdevtabrec (.comment (u ++ ['\n'])) = some (strcatesc u ++ ['\n']) := by
  have htext : strcatesc (u ++ ['\n']) = strcatesc u ++ ['\\', '\n'] := escape_append u ['\n']
  have hlen : (strcatesc u ++ ['\\', '\n']).length = (strcatesc u).length + 2 := List.length_append
  rw [putdevtabrec, htext]
  simp only [hlen]
  rw [if_neg (by omega), Nat.add_sub_cancel, List.take_left]

theorem commentText_body (h : CommentLine u) :
    RecordBody (strcatesc u) ∧ parseDevRec (strcatesc u ++ ['\n']) =
      some (.comment (u ++ ['\n'])) := by
  constructor
  · refine ⟨strcatesc_nlEscaped u, ?_, nulFree_escape h.nulFree⟩
    rw [strcatesc, getLast?_escape]
    exact h.ends
  · have hcom : isDevComment (strcatesc u ++ ['\n']) = true := by
      cases u with
      | nil => rfl
      | cons c s =>
        obtain ⟨h₁, h₂, h₃⟩ := h.starts c rfl
        have hc : c ∉ dtabEscs := by
          simp only [dtabEscs, List.mem_cons, List.not_mem_nil, or_false, not_or]
          refine ⟨?_, h₂, ?_, h₁⟩
          · rintro rfl
            rcases h₃ with h | h
            · exact absurd h (by decide)
            · exact absurd h (by decide)
          · rintro rfl
            rcases h₃ with h | h
            · exact absurd h (by decide)
            · exact absurd h (by decide)
        rw [strcatesc, escape_cons, if_neg hc]
        rcases h₃ with rfl | h
        · rfl
        · simp [isDevComment, h]
    rw [parseDevRec, if_pos hcom, strcatesc, unescape_escape_append backslash_mem_dtabEscs]
    rfl

theorem AttrVal.Named.stripped {a : AttrVal} (h : a.Named) : a.stripped = a := by
  obtain ⟨attr, val⟩ := a
  cases attr with
  | nil => rfl
  | cons c s =>
    have hc := h c rfl
    rw [AttrVal.stripped, List.dropWhile_cons_of_neg (by simp [hc])]

theorem DevData.Wf.stripped {d : DevData} (h : d.Wf) : d.stripped = d := by
  have hmap : d.attrlist.map AttrVal.stripped = d.attrlist := by
    have he : d.attrlist.map AttrVal.stripped = d.attrlist.map id :=
      List.map_congr_left fun a ha => (h.named a ha).stripped
    rw [he, List.map_id]
  rw [DevData.stripped, hmap]

def DevRec.stripped : DevRec → DevRec
  | .comment t => .comment t
  | .data d => .data d.stripped

/-- Records that can be written so that they are read as one line. -/
def DevRec.Plain : DevRec → Prop
  | .comment t => ∃ st e st', getdevtabent st = (some e, st') ∧ e.body = .comment t
  | .data d => d.Plain

theorem DevRec.Wf.plain {r : DevRec} (h : r.Wf) : r.Plain := by
  cases r with
  | comment t => exact h
  | data d => exact h.toPlain

theorem DevRec.Wf.stripped {r : DevRec} (h : r.Wf) : r.stripped = r := by
  cases r with
  | comment t => rfl
  | data d => exact congrArg DevRec.data (DevData.Wf.stripped h)

theorem putdevtabrec_record (h : r.Plain) :
    ∃ s, putdevtabrec r = some s ∧ IsRecord devtabComplete s ∧ parseDevRec s = some r.stripped := by
  cases r with
  | comment x =>
    obtain ⟨st, e, st', he, hx⟩ := h
    obtain ⟨u, rfl, hu⟩ := getdevtabent_comment he hx
    obtain ⟨h₁, h₂⟩ := commentText_body hu
    exact ⟨_, commentText u, h₁.isRecord, h₂⟩
  | data d =>
    obtain ⟨name, hname, -⟩ := h.aliasName
    obtain ⟨s, hs⟩ : ∃ s, putdevtabrec (.data d) = some s := by
      rw [putdevtabrec, hname]
      exact ⟨_, rfl⟩
    obtain ⟨body, rfl, hbody, hcom⟩ := dataText_body h hs
    refine ⟨_, hs, hbody.isRecord, ?_⟩
    rw [parseDevRec, hcom, parseDevData_text h hs]
    rfl

/-- One record is written and read back, whatever follows it. -/
theorem getdevtabent_put (hr : r.Plain) (hshort : r.Short) (hb : devtabGrowth.BufOk b) (t : Str)
    (n : Nat) :
    ∃ s b', putdevtabrec r = some s ∧ s ≠ [] ∧ devtabGrowth.BufOk b' ∧
      getdevtabent ⟨s ++ t, b, n⟩ = (some ⟨n, r.stripped⟩, ⟨t, b', n + 1⟩) := by
  obtain ⟨s, hs, hrec, hparse⟩ := putdevtabrec_record hr
  obtain ⟨b', hget, hb'⟩ := Growth.getRecord_record hrec (hshort s hs) hb t
  refine ⟨s, b', hs, ?_, hb', ?_⟩
  · rintro rfl
    cases hrec.ends
  · rw [getdevtabent, getdevtabentLoop]
    simp only [hget, hparse]

theorem readsDevtab_put (rs : List DevRec) (hw : ∀ r ∈ rs, r.Wf) (hs : ∀ r ∈ rs, r.Short)
    (hb : devtabGrowth.BufOk b) (n : Nat) (t : Str) :
    ∃ out b', putdevtabrecs rs = some out ∧ devtabGrowth.BufOk b' ∧
      ReadsDevtab ⟨out ++ t, b, n⟩ (numbered n rs) ⟨t, b', n + rs.length⟩ := by
  induction rs generalizing b n with
  | nil => exact ⟨[], b, rfl, hb, rfl⟩
  | cons r rs ih =>
    obtain ⟨out, b₂, hout, -, -⟩ := ih (fun x hx => hw x (List.mem_cons_of_mem _ hx))
      (fun x hx => hs x (List.mem_cons_of_mem _ hx)) hb (n + 1)
    obtain ⟨s, b₁, hput, -, hb₁, hget⟩ := getdevtabent_put (hw r (List.mem_cons_self ..)).plain
      (hs r (List.mem_cons_self ..)) hb (out ++ t) n
    rw [(hw r (List.mem_cons_self ..)).stripped] at hget
    obtain ⟨out', b', hout', hb', hreads⟩ := ih (fun x hx => hw x (List.mem_cons_of_mem _ hx))
      (fun x hx => hs x (List.mem_cons_of_mem _ hx)) hb₁ (n + 1)
    rw [hout] at hout'
    cases hout'
    refine ⟨s ++ out, b', ?_, hb', ?_⟩
    · rw [putdevtabrecs, hput, hout]
    · refine ⟨⟨out ++ t, b₁, n + 1⟩, ?_, ?_⟩
      · rw [List.append_assoc]
        exact hget
      · have hn : n + (r :: rs).length = n + 1 + rs.length := by
          rw [List.length_cons]
          omega
        rw [hn]
        exact hreads

theorem getdevtabent_end (b : RecBuf) (n : Nat) : (getdevtabent ⟨[], b, n⟩).1 = none := rfl

/-- Reading what successive `_putdevtabrec` calls wrote returns the records and then NULL. -/
theorem getdevtabent_putdevtabrecs (rs : List DevRec) (hw : ∀ r ∈ rs, r.Wf)
    (hs : ∀ r ∈ rs, r.Short) (b : RecBuf) (hb : devtabGrowth.BufOk b) :
    ∃ out st, putdevtabrecs rs = some out ∧ ReadsDevtab ⟨out, b, 0⟩ (numbered 0 rs) st ∧
      (getdevtabent st).1 = none := by
  obtain ⟨out, b', hout, -, hreads⟩ := readsDevtab_put rs hw hs hb 0 []
  rw [List.append_nil] at hreads
  exact ⟨out, _, hout, hreads, getdevtabent_end b' _⟩

def sampleDisk : DevData where
  aliasName := some "disk1".toList
  cdevice := some "/dev/rdsk/c0:1".toList
  bdevice := none
  pathname := none
  attrlist := [⟨"desc".toList, "a \"b\"\\\n:c".toList⟩, ⟨[], []⟩]

theorem sampleDisk_wf : sampleDisk.Wf where
  aliasName := ⟨"disk1".toList, rfl, by decide⟩
  cdevice := by
    rintro s ⟨⟩
    decide
  bdevice := by
    rintro s ⟨⟩
  pathname := by
    rintro s ⟨⟩
  attrlist := by
    intro a ha
    rcases List.mem_cons.mp ha with rfl | ha
    · exact ⟨by decide, by decide, by decide⟩
    · rcases List.mem_cons.mp ha with rfl | ha
      · exact ⟨by decide, by decide, by decide⟩
      · cases ha
  named := by
    intro a ha
    rcases List.mem_cons.mp ha with rfl | ha
    · rintro c ⟨⟩
      decide
    · rcases List.mem_cons.mp ha with rfl | ha
      · rintro c ⟨⟩
      · cases ha

theorem getdevtabent_putdevtabrecs_sample :
    ∃ out st, putdevtabrecs [.data sampleDisk, .comment "# x\n".toList] = some out ∧
      ReadsDevtab ⟨out, ⟨0, 0⟩, 0⟩ [⟨0, .data sampleDisk⟩, ⟨1, .comment "# x\n".toList⟩] st ∧
      (getdevtabent st).1 = none := by
  refine getdevtabent_putdevtabrecs [.data sampleDisk, .comment "# x\n".toList] ?_ ?_ ⟨0, 0⟩
    (.inl rfl)
  · intro r hr
    rcases List.mem_cons.mp hr with rfl | hr
    · exact sampleDisk_wf
    · rcases List.mem_cons.mp hr with rfl | hr
      · exact ⟨⟨"# x\n".toList, ⟨0, 0⟩, 0⟩, ⟨0, .comment "# x\n".toList⟩,
          ⟨[], ⟨512, 0⟩, 1⟩, by decide, rfl⟩
      · cases hr
  · intro r hr
    rcases List.mem_cons.mp hr with rfl | hr
    · rintro s ⟨⟩
      decide
    · rcases List.mem_cons.mp hr with rfl | hr
      · rintro s ⟨⟩
        decide
      · cases hr

end Pkgtools
