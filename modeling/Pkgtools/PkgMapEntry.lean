import Pkgtools.PkgMap

namespace Pkgtools
open CLib
set_option autoImplicit true

/-- A string that `getstr` can have read with these separators. -/
structure Token (sep : Str) (n : Nat) (s : Str) : Prop where
  chars : ∀ c ∈ s, Gpkgmap.endsStr sep c = false
  length_le : s.length ≤ n

/-- Variables are not resolved, and the default owner and group can stand on a line. Both the
initial defaults and those of `attrdefault` are such. -/
structure MapConfig.Plain (cfg : MapConfig) : Prop where
  mapmode : cfg.mapmode = mapNone
  dMode : cfg.dMode < 2 ^ 16
  dOwner : Token [] atrsiz cfg.dOwner ∧ cfg.dOwner ≠ []
  dGroup : Token [] atrsiz cfg.dGroup ∧ cfg.dGroup ≠ []

/-- What holds of an entry while `gpkgmap` fills it in. Strings that end at a NUL may be empty, so
`P` says that there is none. -/
structure MapEntry (cfg : MapConfig) (P : Prop) (e : Cfent) : Prop where
  volno : -2 ^ 15 ≤ e.volno ∧ e.volno < 2 ^ 15
  path : ∀ p, e.path = some p → Token ['='] (pathMax - 1) p
  localPath : ∀ l, e.ainfo.localPath = some l → Token [] (pathMax - 1) l ∧ (P → l ≠ [])
  pkgClass : Token [] clssiz e.pkgClass ∧ (P → e.pkgClass ≠ [])
  owner : Token [] atrsiz e.ainfo.owner ∧ (P → e.ainfo.owner ≠ [])
  group : Token [] atrsiz e.ainfo.group ∧ (P → e.ainfo.group ≠ [])
  typed : e.Typed
  unclassed : e.ftype = 'i' → e.pkgClass = badClass
  noDevice : isDevice e.ftype = false → e.ainfo.major = badMajor ∧ e.ainfo.minor = badMinor
  noAttrs : hasAttrs e.ftype = false →
    e.ainfo.mode = cfg.dMode ∧ e.ainfo.owner = cfg.dOwner ∧ e.ainfo.group = cfg.dGroup
  noContent : hasContent e.ftype = false → e.ftype ≠ 'i' → e.cinfo = ⟨badCont, badCont, badCont⟩

/-- What holds of an entry that `gpkgmap` returns. -/
structure MapEntry.Complete (P : Prop) (e : Cfent) (p : Str) : Prop where
  path : e.path = some p
  ftype : isFtype e.ftype ∨ e.ftype = 'i'
  linked : isLink e.ftype → e.ainfo.localPath ≠ none
  named : P → p = [] → e.ainfo.localPath ≠ none

section Readers
variable {s s' : Str}

theorem getnum_result (hb : -2 ^ 63 ≤ bad ∧ bad < 2 ^ 63)
    (h : Gpkgmap.getnum base bad s = ((false, v), s')) :
    (∃ x, v = some x ∧ -2 ^ 63 ≤ x ∧ x < 2 ^ 63) ∧ List.Sublist s' s := by
  have hdrop := List.dropWhile_sublist Gpkgmap.isblank (l := s)
  rw [Gpkgmap.getnum] at h
  split at h
  · cases h
  · rename_i c t heq
    rw [heq] at hdrop
    split at h
    · cases h
      exact ⟨⟨bad, rfl, hb⟩, (List.sublist_cons_self _ _).trans hdrop⟩
    · split at h
      · cases h
      · cases h
        exact ⟨⟨_, rfl, digitsValue_bounds _ _⟩, (List.dropWhile_sublist _).trans hdrop⟩

theorem getnum_failed (h : Gpkgmap.getnum base bad s = ((true, v), s')) :
    v = none ∧ List.Sublist s' s := by
  have hdrop := List.dropWhile_sublist Gpkgmap.isblank (l := s)
  rw [Gpkgmap.getnum] at h
  split at h
  · cases h
    exact ⟨rfl, List.nil_sublist _⟩
  · rename_i c t heq
    rw [heq] at hdrop
    split at h
    · cases h
    · split at h
      · cases h
        exact ⟨rfl, hdrop⟩
      · cases h

theorem getstr_result (h : Gpkgmap.getstr sep n size s = some ((0, v), s')) :
    ∃ tok, v = some tok ∧ Token sep (min n (size - 1)) tok ∧ List.Sublist s' s ∧
      (NulFree s → tok = [] → ∃ c ∈ sep, s'.head? = some c) := by
  have hdrop := List.dropWhile_sublist Gpkgmap.isblank (l := s)
  simp only [Gpkgmap.getstr] at h
  split at h
  · cases h
  · rename_i hne
    split at h
    · cases h
    · rename_i hsize
      split at h
      · cases h
      · rename_i hlen
        cases h
        refine ⟨_, rfl, ⟨?_, by omega⟩, (List.drop_sublist _ _).trans hdrop, ?_⟩
        · intro c hc
          simpa using List.mem_takeWhile_imp hc
        · intro hs htok
          rw [htok, List.length_nil, List.drop_zero]
          -- the string is empty, so a separator comes first; it is no blank, newline or NUL
          cases ht : s.dropWhile Gpkgmap.isblank with
          | nil => exact absurd (.inl ht) hne
          | cons c t =>
            have hblank := List.head_dropWhile_not Gpkgmap.isblank (l := s)
              (by rw [ht]; exact List.cons_ne_nil _ _)
            simp only [ht, List.head_cons] at hblank
            have hends : Gpkgmap.endsStr sep c = true := by
              rw [ht, List.takeWhile_cons] at htok
              by_contra hc
              simp [hc] at htok
            have hnl : c ≠ '\n' := by
              rintro rfl
              exact hne (.inr (by rw [ht]; rfl))
            have hnul : c ≠ nul := by
              rintro rfl
              exact hs (hdrop.subset (ht ▸ List.mem_cons_self))
            have hsep : c ∈ sep := by
              simpa [Gpkgmap.endsStr, hblank, hnl, hnul] using hends
            exact ⟨c, hsep, rfl⟩

theorem getstr_rest (h : Gpkgmap.getstr sep n size s = some (r, s')) : List.Sublist s' s := by
  have hdrop := List.dropWhile_sublist Gpkgmap.isblank (l := s)
  simp only [Gpkgmap.getstr] at h
  split at h
  · cases h
    exact hdrop
  · split at h
    · cases h
    · split at h
      · cases h
        exact (List.drop_sublist _ _).trans hdrop
      · cases h
        exact (List.drop_sublist _ _).trans hdrop

theorem getstr_code (h : Gpkgmap.getstr sep n size s = some ((c, v), s')) (h₁ : c ≠ 1)
    (h₂ : c ≠ -1) : c = 0 := by
  simp only [Gpkgmap.getstr] at h
  split at h
  · cases h
    exact absurd rfl h₁
  · split at h
    · cases h
    · split at h
      · cases h
        exact absurd rfl h₂
      · cases h
        rfl

end Readers

/-- A part of `gpkgmap` that filled in more of the entry and read on. -/
structure Extends (cfg : MapConfig) (P : Prop) (ept e : Cfent) (s s' : Str) : Prop where
  entry : MapEntry cfg P e
  ftype : e.ftype = ept.ftype
  path : e.path = ept.path
  localPath : e.ainfo.localPath = ept.ainfo.localPath
  rest : List.Sublist s' s

section Parts
variable {cfg : MapConfig} {P : Prop} {e ept : Cfent} {s s' : Str}

theorem Extends.refl (h : MapEntry cfg P e) (s : Str) : Extends cfg P e e s s :=
  ⟨h, rfl, rfl, rfl, List.Sublist.refl s⟩

theorem Extends.trans (h : Extends cfg P e₁ e₂ s₁ s₂) (h' : Extends cfg P e₂ e₃ s₂ s₃) :
    Extends cfg P e₁ e₃ s₁ s₃ :=
  ⟨h'.entry, h'.ftype.trans h.ftype, h'.path.trans h.path, h'.localPath.trans h.localPath,
    h'.rest.trans h.rest⟩

theorem mapNum_result (hb : -2 ^ 63 ≤ bad ∧ bad < 2 ^ 63)
    (h : mapNum Gpkgmap.readers bad store errstr ept s = some (.ok e, s')) :
    ∃ x, e = store x ept ∧ -2 ^ 63 ≤ x ∧ x < 2 ^ 63 ∧ List.Sublist s' s := by
  obtain ⟨⟨failed, v⟩, t, hread, h⟩ := Parse.bind_eq_ok h
  have hread := Option.some.inj (Parse.prim_eq_ok hread)
  cases failed with
  | true =>
    obtain ⟨_, _, _, h⟩ := Parse.bind_eq_ok h
    cases h
  | false =>
    obtain ⟨⟨x, rfl, hx⟩, hrest⟩ := getnum_result hb hread
    obtain ⟨rfl, rfl⟩ := Parse.ret_eq_ok h
    exact ⟨x, rfl, hx.1, hx.2, hrest⟩

theorem mapStr_result (h : mapStr Gpkgmap.readers sep n size store errstr ept s =
    some (.ok e, s')) :
    ∃ tok, e = store tok ept ∧ Token sep (min n (size - 1)) tok ∧ List.Sublist s' s ∧
      (NulFree s → tok = [] → ∃ c ∈ sep, s'.head? = some c) := by
  obtain ⟨⟨c, v⟩, t, hread, h⟩ := Parse.bind_eq_ok h
  have hread := Parse.prim_eq_ok hread
  by_cases hc : c = 0
  · subst hc
    obtain ⟨tok, rfl, htok⟩ := getstr_result hread
    obtain ⟨rfl, rfl⟩ := Parse.ret_eq_ok h
    exact ⟨tok, rfl, htok⟩
  · simp only [if_pos hc] at h
    obtain ⟨_, _, _, h⟩ := Parse.bind_eq_ok h
    cases h

theorem badClass_token : Token [] clssiz badClass ∧ (P → badClass ≠ []) :=
  ⟨⟨by decide, by decide⟩, fun _ => by decide⟩

theorem badMajor_bounds : -2 ^ 31 ≤ badMajor ∧ badMajor < 2 ^ 31 := by decide

theorem badCont_bounds : -2 ^ 63 ≤ badCont ∧ badCont < 2 ^ 63 := by decide

theorem storeMinor_storeMajor (x y a b : Int) (ept : Cfent) :
    storeMinor y (storeMajor x (storeMinor b (storeMajor a ept))) =
      { ept with ainfo := { ept.ainfo with major := wrap 32 x, minor := wrap 32 y } } := by
  simp only [storeMajor, storeMinor]

theorem mapDevice_extends (he : MapEntry cfg P ept) (hd : isDevice ept.ftype)
    (h : mapDevice Gpkgmap.readers ept s = some (.ok e, s')) : Extends cfg P ept e s s' := by
  obtain ⟨e₁, t, h₁, h₂⟩ := Parse.bind_eq_ok h
  obtain ⟨x, rfl, -, -, hx⟩ := mapNum_result badCont_bounds h₁
  obtain ⟨y, rfl, -, -, hy⟩ := mapNum_result badCont_bounds h₂
  have hmajor := wrap_bounds (w := 32) (by decide) x
  have hminor := wrap_bounds (w := 32) (by decide) y
  rw [storeMinor_storeMajor]
  generalize wrap 32 x = major at hmajor ⊢
  generalize wrap 32 y = minor at hminor ⊢
  refine ⟨?_, rfl, rfl, rfl, hy.trans hx⟩
  exact
    { he with
      typed := { he.typed with major := hmajor, minor := hminor }
      noDevice := fun hn => by
        rw [show isDevice ept.ftype = false from hn] at hd
        cases hd }

theorem mapContent_extends (he : MapEntry cfg P ept) (hc : hasContent ept.ftype ∨ ept.ftype = 'i')
    (h : mapContent Gpkgmap.readers ept s = some (.ok e, s')) : Extends cfg P ept e s s' := by
  have hno (hn : hasContent ept.ftype = false) (hi : ept.ftype ≠ 'i') (C : Prop) : C := by
    rcases hc with hc | hc
    · rw [hn] at hc
      cases hc
    · exact absurd hc hi
  obtain ⟨⟨failed, v⟩, t, hread, h⟩ := Parse.bind_eq_ok h
  have hread := Option.some.inj (Parse.prim_eq_ok hread)
  cases failed with
  | true =>
    obtain ⟨rfl, hrest⟩ := getnum_failed hread
    obtain ⟨rfl, rfl⟩ := Parse.ret_eq_ok h
    exact ⟨he, rfl, rfl, rfl, hrest⟩
  | false =>
    obtain ⟨⟨x, rfl, hx₁, hx₂⟩, hx⟩ := getnum_result badCont_bounds hread
    obtain ⟨e₁, u, h₁, h₂⟩ := Parse.bind_eq_ok h
    obtain ⟨y, rfl, hy₁, hy₂, hy⟩ := mapNum_result badCont_bounds h₁
    obtain ⟨z, rfl, hz₁, hz₂, hz⟩ := mapNum_result badCont_bounds h₂
    refine ⟨?_, rfl, rfl, rfl, hz.trans (hy.trans hx)⟩
    exact
      { he with
        typed := ⟨he.typed.mode, he.typed.major, he.typed.minor, ⟨hx₁, hx₂⟩, ⟨hy₁, hy₂⟩,
          ⟨hz₁, hz₂⟩⟩
        noContent := fun hn hi => hno hn hi _ }

theorem modeDigits_cases (h : modeDigits cfg tok = .ok m) : m = badMode ∨ m ≤ 0o7777 := by
  rw [modeDigits] at h
  split at h
  · cases h
    exact .inl rfl
  · split at h
    · cases h
    · split at h
      · split at h
        · cases h
          exact .inl rfl
        · cases h
      · rename_i hle
        cases h
        exact .inr (Nat.le_of_not_lt hle)

/-- The values a mode can have: those of a file mode, or one of the two sentinels. -/
theorem modeValue_cases (h : modeValue cfg size tok = some (.ok m)) :
    m = wildcard ∨ m = badMode ∨ m ≤ 0o7777 := by
  rw [modeValue] at h
  split at h
  · cases h
    exact .inl rfl
  · split at h
    · cases h
    · split at h
      · obtain ⟨⟨unset, tempmode⟩, -, h⟩ := Option.map_eq_some_iff.mp h
        simp only at h
        split at h
        · cases h
        · exact .inr (modeDigits_cases h)
      · exact .inr (modeDigits_cases (Option.some.inj h))

theorem mapMode_extends (he : MapEntry cfg P ept) (ha : hasAttrs ept.ftype)
    (h : mapMode Gpkgmap.readers cfg ept s = some (.ok (more, e), s')) :
    Extends cfg P ept e s s' := by
  obtain ⟨⟨c, v⟩, t, hread, h⟩ := Parse.bind_eq_ok h
  have hread := Parse.prim_eq_ok hread
  have hrest : List.Sublist t s := getstr_rest hread
  simp only at h
  split at h
  · obtain ⟨hr, rfl⟩ := Parse.ret_eq_ok h
    cases hr
    exact ⟨he, rfl, rfl, rfl, hrest⟩
  · split at h
    · obtain ⟨_, _, _, h⟩ := Parse.bind_eq_ok h
      cases h
    · cases hm : modeValue cfg Gpkgmap.readers.modeSize (v.getD []) with
      | none =>
        rw [hm] at h
        cases h
      | some r =>
        rw [hm] at h
        cases r with
        | error errstr =>
          obtain ⟨_, _, _, h⟩ := Parse.bind_eq_ok h
          cases h
        | ok m =>
          obtain ⟨hr, rfl⟩ := Parse.ret_eq_ok h
          cases hr
          have hmode : m < 2 ^ 16 := by
            rcases modeValue_cases hm with rfl | rfl | hle
            · decide
            · decide
            · omega
          refine ⟨?_, rfl, rfl, rfl, hrest⟩
          exact
            { he with
              typed := { he.typed with mode := hmode }
              noAttrs := fun hn => by
                rw [show hasAttrs ept.ftype = false from hn] at ha
                cases ha }

theorem mapAttr_result (h : mapAttr Gpkgmap.readers store errstr ept s = some (.ok (more, e), s')) :
    List.Sublist s' s ∧ (more = false ∧ e = ept ∨
      more = true ∧ ∃ tok, e = store tok ept ∧ Token [] atrsiz tok ∧ (NulFree s → tok ≠ [])) := by
  obtain ⟨⟨c, v⟩, t, hread, h⟩ := Parse.bind_eq_ok h
  have hread := Parse.prim_eq_ok hread
  have hrest : List.Sublist t s := getstr_rest hread
  simp only at h
  split at h
  · obtain ⟨hr, rfl⟩ := Parse.ret_eq_ok h
    cases hr
    exact ⟨hrest, .inl ⟨rfl, rfl⟩⟩
  · split at h
    · obtain ⟨_, _, _, h⟩ := Parse.bind_eq_ok h
      cases h
    · rename_i hc₁ hc₂
      have hc : c = 0 := getstr_code hread hc₁ hc₂
      subst hc
      obtain ⟨tok, rfl, htok, -, hne⟩ := getstr_result hread
      obtain ⟨hr, rfl⟩ := Parse.ret_eq_ok h
      cases hr
      refine ⟨hrest, .inr ⟨rfl, tok, rfl, htok, fun hs he => ?_⟩⟩
      obtain ⟨d, hd, -⟩ := hne hs he
      cases hd

theorem MapEntry.withOwner (h : MapEntry cfg P e) (ha : hasAttrs e.ftype)
    (ho : Token [] atrsiz tok ∧ (P → tok ≠ [])) : MapEntry cfg P (storeOwner tok e) :=
  { h with
    owner := ho
    typed := { h.typed with }
    noAttrs := fun hn => by
      rw [show hasAttrs e.ftype = false from hn] at ha
      cases ha }

theorem MapEntry.withGroup (h : MapEntry cfg P e) (ha : hasAttrs e.ftype)
    (hg : Token [] atrsiz tok ∧ (P → tok ≠ [])) : MapEntry cfg P (storeGroup tok e) :=
  { h with
    group := hg
    typed := { h.typed with }
    noAttrs := fun hn => by
      rw [show hasAttrs e.ftype = false from hn] at ha
      cases ha }

theorem mapAttrs_extends (hcfg : cfg.Plain) (he : MapEntry cfg P ept) (ha : hasAttrs ept.ftype)
    (hs : P → NulFree s) (h : mapAttrs Gpkgmap.readers cfg ept s = some (.ok (more, e), s')) :
    Extends cfg P ept e s s' := by
  obtain ⟨⟨more₁, e₁⟩, s₁, h₁, g₁⟩ := Parse.bind_eq_ok h
  have x₁ := mapMode_extends he ha h₁
  have ha₁ : hasAttrs e₁.ftype := by rw [x₁.ftype]; exact ha
  have hs₁ : P → NulFree s₁ := fun p => (hs p).sublist x₁.rest
  simp only at g₁
  split at g₁
  · obtain ⟨hr, rfl⟩ := Parse.ret_eq_ok g₁
    cases hr
    exact x₁
  · obtain ⟨⟨more₂, e₂⟩, s₂, h₂, g₂⟩ := Parse.bind_eq_ok g₁
    obtain ⟨hr₂, ⟨rfl, he₂⟩ | ⟨rfl, owner, he₂, ho, hone⟩⟩ := mapAttr_result h₂
    · obtain ⟨hr, rfl⟩ := Parse.ret_eq_ok g₂
      cases hr
      rw [he₂]
      exact ⟨x₁.entry, x₁.ftype, x₁.path, x₁.localPath, hr₂.trans x₁.rest⟩
    · have hm₂ := x₁.entry.withOwner ha₁ ⟨ho, fun p => hone (hs₁ p)⟩
      obtain ⟨⟨more₃, e₃⟩, s₃, h₃, g₃⟩ := Parse.bind_eq_ok g₂
      obtain ⟨hr₃, hcase⟩ := mapAttr_result h₃
      have hrest := hr₃.trans (hr₂.trans x₁.rest)
      rw [he₂] at hcase
      obtain ⟨rfl, he₃⟩ | ⟨rfl, group, he₃, hg, hgne⟩ := hcase
      · obtain ⟨hr, rfl⟩ := Parse.ret_eq_ok g₃
        cases hr
        rw [he₃]
        exact ⟨hm₂, x₁.ftype, x₁.path, x₁.localPath, hrest⟩
      · have hm₃ := hm₂.withGroup ha₁ ⟨hg, fun p => hgne ((hs₁ p).sublist hr₂)⟩
        obtain ⟨e₄, s₄, h₄, g₄⟩ := Parse.bind_eq_ok g₃
        rw [Parse.onlyIf_neg (not_not.mpr hcfg.mapmode)] at h₄
        obtain ⟨rfl, rfl⟩ := Parse.ret_eq_ok h₄
        obtain ⟨hr, rfl⟩ := Parse.ret_eq_ok g₄
        cases hr
        rw [he₃]
        exact ⟨hm₃, x₁.ftype, x₁.path, x₁.localPath, hrest⟩

theorem onlyIf_extends {p : Prop} [Decidable p] {m : Cfent → Parse Str Fail Cfent}
    (he : MapEntry cfg P ept)
    (hm : p → m ept s = some (.ok e, s') → Extends cfg P ept e s s')
    (h : Parse.onlyIf p m ept s = some (.ok e, s')) : Extends cfg P ept e s s' := by
  by_cases hp : p
  · rw [Parse.onlyIf_pos hp] at h
    exact hm hp h
  · rw [Parse.onlyIf_neg hp] at h
    obtain ⟨rfl, rfl⟩ := Parse.ret_eq_ok h
    exact Extends.refl he s

theorem mapEnd_result (h : mapEnd Gpkgmap.readers ept s = some (.ok (n, e), s')) :
    n = 1 ∧ e = ept := by
  obtain ⟨extra, t, -, h⟩ := Parse.bind_eq_ok h
  split at h
  · cases h
  · obtain ⟨hr, -⟩ := Parse.ret_eq_ok h
    cases hr
    exact ⟨rfl, rfl⟩

theorem mapFields_extends (hcfg : cfg.Plain) (he : MapEntry cfg P ept) (hs : P → NulFree s)
    (h : mapFields Gpkgmap.readers cfg ept s = some (.ok (n, e), s')) :
    n = 1 ∧ MapEntry cfg P e ∧ e.ftype = ept.ftype ∧ e.path = ept.path ∧
      e.ainfo.localPath = ept.ainfo.localPath ∧ (isLink e.ftype → e.ainfo.localPath ≠ none) := by
  rw [mapFields] at h
  split at h
  · obtain ⟨_, _, _, h⟩ := Parse.bind_eq_ok h
    cases h
  · rename_i hlink
    obtain ⟨e₁, s₁, h₁, h⟩ := Parse.bind_eq_ok h
    have x₁ := onlyIf_extends he (fun hp => mapDevice_extends he hp) h₁
    obtain ⟨⟨more, e₂⟩, s₂, h₂, h⟩ := Parse.bind_eq_ok h
    have x₂ : Extends cfg P e₁ e₂ s₁ s₂ := by
      rw [mapTypedAttrs] at h₂
      split at h₂
      · rename_i ha
        exact mapAttrs_extends hcfg x₁.entry ha (fun p => (hs p).sublist x₁.rest) h₂
      · obtain ⟨hr, rfl⟩ := Parse.ret_eq_ok h₂
        cases hr
        exact Extends.refl x₁.entry s₁
    obtain ⟨e₃, s₃, h₃, h⟩ := Parse.bind_eq_ok h
    have x₃ : Extends cfg P e₂ e₃ s₂ s₃ := by
      cases more with
      | true => exact onlyIf_extends x₂.entry (fun hp => mapContent_extends x₂.entry hp) h₃
      | false =>
        obtain ⟨rfl, rfl⟩ := Parse.ret_eq_ok h₃
        exact Extends.refl x₂.entry s₂
    obtain ⟨rfl, rfl⟩ := mapEnd_result h
    have x := x₁.trans (x₂.trans x₃)
    refine ⟨rfl, x.entry, x.ftype, x.path, x.localPath, fun hl hn => hlink ⟨?_, ?_⟩⟩
    · rw [← x.ftype]
      exact hl
    · rw [← x.localPath]
      exact hn

theorem MapEntry.withPath (h : MapEntry cfg P e) (hp : Token ['='] (pathMax - 1) tok) :
    MapEntry cfg P (storePath tok e) :=
  { h with
    path := fun _ he => Option.some.inj he ▸ hp
    typed := { h.typed with } }

theorem MapEntry.withLocal (h : MapEntry cfg P e)
    (hl : Token [] (pathMax - 1) tok ∧ (P → tok ≠ [])) :
    MapEntry cfg P (storeLocal tok e) :=
  { h with
    localPath := fun _ he => Option.some.inj he ▸ hl
    typed := { h.typed with } }

theorem MapEntry.withClass (h : MapEntry cfg P e) (hi : e.ftype ≠ 'i')
    (hc : Token [] clssiz tok ∧ (P → tok ≠ [])) : MapEntry cfg P (storeClass tok e) :=
  { h with
    pkgClass := hc
    unclassed := fun hn => absurd hn hi
    typed := { h.typed with } }

theorem mapStr_nonempty
    (h : mapStr Gpkgmap.readers [] n size store errstr ept s = some (.ok e, s'))
    (hs : P → NulFree s) :
    ∃ tok, e = store tok ept ∧ (Token [] (min n (size - 1)) tok ∧ (P → tok ≠ [])) ∧
      List.Sublist s' s := by
  obtain ⟨tok, he, htok, hrest, hne⟩ := mapStr_result h
  refine ⟨tok, he, ⟨htok, fun p hnil => ?_⟩, hrest⟩
  obtain ⟨c, hc, -⟩ := hne (hs p) hnil
  cases hc

/-- The path of an entry; if it is empty then a local path follows. -/
theorem mapPath_result (he : MapEntry cfg P ept)
    (hs : P → NulFree s) (h : mapPath Gpkgmap.readers ept s = some (.ok e, s')) :
    ∃ p, e = storePath p ept ∧ MapEntry cfg P e ∧ List.Sublist s' s ∧
      (P → p = [] → s'.head? = some '=') := by
  obtain ⟨tok, rfl, htok, hrest, hne⟩ := mapStr_result h
  refine ⟨tok, rfl, he.withPath htok, hrest, fun p hnil => ?_⟩
  obtain ⟨c, hc, hhead⟩ := hne (hs p) hnil
  rw [hhead, List.mem_singleton.mp hc]

/-- A local path was read behind `=`, or there is none. -/
structure LocalRead (cfg : MapConfig) (P : Prop) (ept e : Cfent) (s s' : Str) : Prop where
  entry : MapEntry cfg P e
  ftype : e.ftype = ept.ftype
  path : e.path = ept.path
  rest : List.Sublist s' s
  localPath : s.head? = some '=' → e.ainfo.localPath ≠ none

theorem localRead_of_str (he : MapEntry cfg P ept) (hs : P → NulFree s)
    (h : mapStr Gpkgmap.readers [] pathMax pathMax storeLocal errstr ept s.tail =
      some (.ok e, s')) : LocalRead cfg P ept e s s' := by
  have htail : List.Sublist s.tail s := List.tail_sublist s
  obtain ⟨tok, rfl, htok, hrest⟩ := mapStr_nonempty h fun p => (hs p).sublist htail
  exact ⟨he.withLocal htok, rfl, rfl, hrest.trans htail, fun _ hn => by cases hn⟩

theorem ungetc_head (s : Str) : Gpkgmap.ungetc s.head? s.tail = s := by
  cases s with
  | nil => rfl
  | cons c s => rfl

theorem localRead_of_none (he : MapEntry cfg P ept) (hc : ¬ s.head? = some '=')
    (h : mapNoLocal Gpkgmap.readers s.head? ept s.tail = some (.ok e, s')) :
    LocalRead cfg P ept e s s' := by
  obtain ⟨_, u, hun, h⟩ := Parse.bind_eq_ok h
  obtain ⟨-, rfl⟩ := Prod.mk.inj (Option.some.inj (Parse.prim_eq_ok hun))
  obtain ⟨rfl, rfl⟩ := Parse.ret_eq_ok h
  exact ⟨he, rfl, rfl, by rw [ungetc_head], fun hh => absurd hh hc⟩

theorem mapPathLocal_result (he : MapEntry cfg P ept) (hs : P → NulFree s)
    (h : mapPathLocal Gpkgmap.readers ept s = some (.ok e, s')) : LocalRead cfg P ept e s s' := by
  obtain ⟨c, t, hread, h⟩ := Parse.bind_eq_ok h
  obtain ⟨rfl, rfl⟩ := Prod.mk.inj (Option.some.inj (Parse.prim_eq_ok hread))
  split at h
  · exact localRead_of_str he hs h
  · rename_i hc
    exact localRead_of_none he hc h

theorem mapLocal_result (he : MapEntry cfg P ept) (hs : P → NulFree s)
    (h : mapLocal Gpkgmap.readers ept s = some (.ok e, s')) : LocalRead cfg P ept e s s' := by
  obtain ⟨c, t, hread, h⟩ := Parse.bind_eq_ok h
  obtain ⟨rfl, rfl⟩ := Prod.mk.inj (Option.some.inj (Parse.prim_eq_ok hread))
  split at h
  · exact localRead_of_str he hs h
  · rename_i hc
    split at h
    · split at h
      · obtain ⟨_, _, _, h⟩ := Parse.bind_eq_ok h
        cases h
      · cases h
    · exact localRead_of_none he hc h

structure Returned (cfg : MapConfig) (P : Prop) (n : Int) (e : Cfent) : Prop where
  ret : n = 1
  entry : MapEntry cfg P e
  complete : ∃ p, MapEntry.Complete P e p

theorem mapPathOnly_returned (he : MapEntry cfg P ept) (hs : P → NulFree s)
    (ht : ept.ftype = '?' ∨ ept.ftype = 'i')
    (h : mapPathOnly Gpkgmap.readers ept s = some (.ok (n, e), s')) : Returned cfg P n e := by
  obtain ⟨e₁, s₁, h₁, g₁⟩ := Parse.bind_eq_ok h
  obtain ⟨p, rfl, hm₁, hr₁, hhead⟩ := mapPath_result he hs h₁
  obtain ⟨e₂, s₂, h₂, g₂⟩ := Parse.bind_eq_ok g₁
  have hl := mapPathLocal_result hm₁ (fun p => (hs p).sublist hr₁) h₂
  obtain ⟨e₃, s₃, h₃, g₃⟩ := Parse.bind_eq_ok g₂
  have hx := onlyIf_extends hl.entry (fun hi => mapContent_extends hl.entry (.inr hi)) h₃
  obtain ⟨extra, s₄, -, g₄⟩ := Parse.bind_eq_ok g₃
  split at g₄
  · cases g₄
  · obtain ⟨hr, -⟩ := Parse.ret_eq_ok g₄
    cases hr
    have htype : e.ftype = ept.ftype := hx.ftype.trans hl.ftype
    refine ⟨rfl, hx.entry, p, hx.path.trans hl.path, ?_, fun hlink => ?_, fun hp hnil => ?_⟩
    · rw [htype]
      exact ht.imp (fun h => by rw [h]; rfl) id
    · rw [htype] at hlink
      rcases ht with ht | ht <;> rw [ht] at hlink <;> cases hlink
    · rw [hx.localPath]
      exact hl.localPath (hhead hp hnil)

theorem mapTyped_returned (hcfg : cfg.Plain) (he : MapEntry cfg P { ept with ftype := c })
    (hs : P → NulFree s) (hc : isFtype c) (hi : c ≠ 'i')
    (h : mapTyped Gpkgmap.readers cfg c ept s = some (.ok (n, e), s')) : Returned cfg P n e := by
  obtain ⟨e₁, s₁, h₁, g₁⟩ := Parse.bind_eq_ok h
  obtain ⟨tok, rfl, htok, hr₁⟩ := mapStr_nonempty h₁ hs
  have hs₁ : P → NulFree s₁ := fun p => (hs p).sublist hr₁
  obtain ⟨e₂, s₂, h₂, g₂⟩ := Parse.bind_eq_ok g₁
  obtain ⟨p, rfl, hm₂, hr₂, hhead⟩ := mapPath_result (he.withClass hi htok) hs₁ h₂
  have hs₂ : P → NulFree s₂ := fun p => (hs₁ p).sublist hr₂
  obtain ⟨e₃, s₃, h₃, g₃⟩ := Parse.bind_eq_ok g₂
  have hl := mapLocal_result hm₂ hs₂ h₃
  obtain ⟨rfl, hm, htype, hpath, hloc, hlink⟩ :=
    mapFields_extends hcfg hl.entry (fun p => (hs₂ p).sublist hl.rest) g₃
  refine ⟨rfl, hm, p, hpath.trans hl.path, .inl ?_, hlink, fun hp hnil => ?_⟩
  · rw [htype, hl.ftype]
    exact hc
  · rw [hloc]
    exact hl.localPath (hhead hp hnil)

/-- An entry at `readline`: only the volume number is filled in. -/
def started (cfg : MapConfig) (ept : Cfent) (volno : Int) (c : Char) : Cfent :=
  { mapInit cfg ept with volno := volno, ftype := c }

theorem started_entry (hcfg : cfg.Plain) (ept : Cfent) (c : Char)
    (hv : -2 ^ 15 ≤ volno ∧ volno < 2 ^ 15) : MapEntry cfg P (started cfg ept volno c) where
  volno := hv
  path := fun _ h => by cases h
  localPath := fun _ h => by cases h
  pkgClass := badClass_token
  owner := ⟨hcfg.dOwner.1, fun _ => hcfg.dOwner.2⟩
  group := ⟨hcfg.dGroup.1, fun _ => hcfg.dGroup.2⟩
  typed := ⟨hcfg.dMode, badMajor_bounds, badMajor_bounds, badCont_bounds, badCont_bounds,
    badCont_bounds⟩
  unclassed := fun _ => rfl
  noDevice := fun _ => ⟨rfl, rfl⟩
  noAttrs := fun _ => ⟨rfl, rfl, rfl⟩
  noContent := fun _ _ => rfl

theorem readVolno_result (f : Nat) (c : Char) (v : Int) (s : Str)
    (h : readVolno Gpkgmap.readers f c v s = some (.ok volno, s')) :
    (-2 ^ 15 ≤ volno ∧ volno < 2 ^ 15) ∧ List.Sublist s' s := by
  induction f generalizing c v s with
  | zero => cases h
  | succ f ih =>
    obtain ⟨d, t, hread, g⟩ := Parse.bind_eq_ok h
    obtain ⟨rfl, rfl⟩ := Prod.mk.inj (Option.some.inj (Parse.prim_eq_ok hread))
    have hv := wrap_bounds (w := 16) (by decide) (v * 10 + c.toNat - '0'.toNat)
    have htail : List.Sublist s.tail s := List.tail_sublist s
    cases hd : s.head? with
    | none =>
      rw [hd] at g
      obtain ⟨rfl, rfl⟩ := Parse.ret_eq_ok g
      exact ⟨hv, htail⟩
    | some d =>
      rw [hd] at g
      dsimp only at g
      split at g
      · obtain ⟨hvol, hrest⟩ := ih _ _ _ g
        exact ⟨hvol, hrest.trans htail⟩
      · obtain ⟨rfl, rfl⟩ := Parse.ret_eq_ok g
        exact ⟨hv, htail⟩

theorem mapSwitch_result (hcfg : cfg.Plain) (hv : -2 ^ 15 ≤ v ∧ v < 2 ^ 15) (hs : P → NulFree s)
    (hc : P → c ≠ nul)
    (h : mapSwitch Gpkgmap.readers cfg f c (started cfg ept v '?') s = some (.ok r, s')) :
    (∃ n e, r = .inl (n, e) ∧ Returned cfg P n e) ∨
      ∃ v', r = .inr (started cfg ept v' '?') ∧ (-2 ^ 15 ≤ v' ∧ v' < 2 ^ 15) ∧
        List.Sublist s' s := by
  have herr {errstr} (h : (mapError Gpkgmap.readers errstr (started cfg ept v '?') s :
      Option (Except Fail ((Int × Cfent) ⊕ Cfent) × Str)) = some (.ok r, s')) : False := by
    obtain ⟨_, _, _, h⟩ := Parse.bind_eq_ok h
    cases h
  have hinl {m : Parse Str Fail (Int × Cfent)} {t : Str}
      (h : (m >>= fun r => pure (.inl r)) t = some (.ok r, s'))
      (hm : ∀ n e s', m t = some (.ok (n, e), s') → Returned cfg P n e) :
      ∃ n e, r = .inl (n, e) ∧ Returned cfg P n e := by
    obtain ⟨⟨n, e⟩, t', hm', h⟩ := Parse.bind_eq_ok h
    obtain ⟨rfl, -⟩ := Parse.ret_eq_ok h
    exact ⟨n, e, rfl, hm n e t' hm'⟩
  rw [mapSwitch] at h
  split at h
  · split at h
    · exact absurd h herr
    · obtain ⟨volno, t, hread, g⟩ := Parse.bind_eq_ok h
      obtain ⟨hvol, hrest⟩ := readVolno_result _ _ _ _ hread
      obtain ⟨rfl, rfl⟩ := Parse.ret_eq_ok g
      refine .inr ⟨_, rfl, ?_, hrest⟩
      split
      · decide
      · exact hvol
  · split at h
    · obtain ⟨_, t, hread, g⟩ := Parse.bind_eq_ok h
      obtain ⟨-, rfl⟩ := Prod.mk.inj (Option.some.inj (Parse.prim_eq_ok hread))
      obtain ⟨rfl, rfl⟩ := Parse.ret_eq_ok g
      exact .inr ⟨v, rfl, hv, (List.tail_sublist _).trans (List.dropWhile_sublist _)⟩
    · split at h
      · obtain ⟨rfl, rfl⟩ := Parse.ret_eq_ok h
        exact .inr ⟨v, rfl, hv, List.Sublist.refl _⟩
      · split at h
        · rename_i hi
          obtain ⟨d, t, hread, g⟩ := Parse.bind_eq_ok h
          obtain ⟨rfl, rfl⟩ := Prod.mk.inj (Option.some.inj (Parse.prim_eq_ok hread))
          obtain ⟨_, u, hun, g⟩ := Parse.bind_eq_ok g
          obtain ⟨-, rfl⟩ := Prod.mk.inj (Option.some.inj (Parse.prim_eq_ok hun))
          have hs' : P → NulFree (Gpkgmap.ungetc (Gpkgmap.eatwhite s).1
              (Gpkgmap.eatwhite s).2) := by
            intro p
            rw [Gpkgmap.eatwhite, ungetc_head]
            exact (hs p).sublist (List.dropWhile_sublist _)
          exact .inl (hinl g fun n e s' hm =>
            mapPathOnly_returned (started_entry hcfg ept 'i' hv) hs' (.inr rfl) hm)
        · split at h
          · obtain ⟨_, u, hun, g⟩ := Parse.bind_eq_ok h
            obtain ⟨-, rfl⟩ := Prod.mk.inj (Option.some.inj (Parse.prim_eq_ok hun))
            have hs' : P → NulFree (Gpkgmap.ungetc (some c) s) := by
              intro p hm
              rcases List.mem_cons.mp hm with he | hm
              · exact hc p he.symm
              · exact hs p hm
            exact .inl (hinl g fun n e s' hm =>
              mapPathOnly_returned (started_entry hcfg ept '?' hv) hs' (.inl rfl) hm)
          · split at h
            · rename_i hi _ hf
              have hstart : MapEntry cfg P (started cfg ept v c) := started_entry hcfg ept c hv
              exact .inl (hinl h fun n e s' hm => mapTyped_returned hcfg hstart hs hf hi hm)
            · exact absurd h herr

theorem readline_result (hcfg : cfg.Plain) (fuel f : Nat) (v : Int) (s : Str)
    (hv : -2 ^ 15 ≤ v ∧ v < 2 ^ 15) (hs : P → NulFree s)
    (h : readline Gpkgmap.readers cfg fuel f (started cfg ept v '?') s = some (.ok (n, e), s')) :
    n = 0 ∨ Returned cfg P n e := by
  induction f generalizing v s with
  | zero => cases h
  | succ f ih =>
    obtain ⟨c, t, hread, g⟩ := Parse.bind_eq_ok h
    obtain ⟨rfl, rfl⟩ := Prod.mk.inj (Option.some.inj (Parse.prim_eq_ok hread))
    have hdrop := List.dropWhile_sublist Gpkgmap.isblank (l := s)
    cases hc : (s.dropWhile Gpkgmap.isblank).head? with
    | none =>
      rw [hc] at g
      obtain ⟨hr, -⟩ := Parse.ret_eq_ok g
      cases hr
      exact .inl rfl
    | some c =>
      rw [hc] at g
      have hmem : c ∈ s := hdrop.subset (List.mem_of_mem_head? hc)
      have hs' : P → NulFree (s.dropWhile Gpkgmap.isblank).tail :=
        fun p => (hs p).sublist ((List.tail_sublist _).trans hdrop)
      obtain ⟨r, t, hsw, g⟩ := Parse.bind_eq_ok g
      rcases mapSwitch_result hcfg hv hs' (fun p he => hs p (he ▸ hmem)) hsw with
        ⟨n', e', rfl, hret⟩ | ⟨v', rfl, hv', hrest⟩
      · obtain ⟨hr, -⟩ := Parse.ret_eq_ok g
        cases hr
        exact .inr hret
      · exact ih v' t hv' (fun p => (hs' p).sublist hrest) g

/-- What `gpkgmap` returns with the code 1. -/
theorem gpkgmap_entry (hcfg : cfg.Plain) (h : gpkgmap cfg ept s = some (.ok (1, e), s')) :
    MapEntry cfg (NulFree s) e ∧ ∃ p, MapEntry.Complete (NulFree s) e p := by
  rcases readline_result hcfg _ _ 0 s (by decide) (fun hs : NulFree s => hs) h with h | h
  · cases h
  · exact ⟨h.entry, h.complete⟩

end Parts

end Pkgtools
