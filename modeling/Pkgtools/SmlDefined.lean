import Pkgtools.Sml
import Mathlib.Data.List.Infix

namespace Pkgtools
open CLib
set_option autoImplicit true

/-- Every character reference of the text has a digit, or ends at once. -/
def RefsComplete (s : Str) : Prop :=
  ∀ c ∈ s, ['&', '#', c] <:+: s → c = ';' ∨ isHexDigit c = true

/-- `RefsComplete`, read from the front. -/
def refsCheck : Str → Bool
  | [] => true
  | a :: s =>
    (!(['&', '#'].isPrefixOf (a :: s)) || s.tail.head?.all fun c => c == ';' || isHexDigit c) &&
      refsCheck s

theorem refsCheck_iff : refsCheck s = true ↔ RefsComplete s := by
  induction s with
  | nil => exact iff_of_true rfl fun c hc => by cases hc
  | cons a s ih =>
    have hhead : (!(['&', '#'].isPrefixOf (a :: s)) ||
        s.tail.head?.all fun c => c == ';' || isHexDigit c) = true ↔
        ∀ c, ['&', '#', c] <+: a :: s → c = ';' ∨ isHexDigit c = true := by
      cases s with
      | nil => simp
      | cons b s =>
        cases s with
        | nil => simp
        | cons c s =>
          simp only [Bool.or_eq_true, Bool.not_eq_true', ← Bool.not_eq_true, List.isPrefixOf,
            List.tail_cons, List.head?_cons, Option.all_some, List.cons_prefix_cons, beq_iff_eq,
            Bool.and_eq_true, List.nil_prefix, and_true]
          constructor
          · rintro (hno | hc) d ⟨ha, hb, rfl⟩
            · exact absurd ⟨ha, hb⟩ hno
            · exact hc
          · intro h
            by_cases hab : '&' = a ∧ '#' = b
            · exact .inr (h c ⟨hab.1, hab.2, rfl⟩)
            · exact .inl hab
    rw [refsCheck, Bool.and_eq_true, hhead, ih]
    constructor
    · rintro ⟨h, hs⟩ c - hc
      rcases List.infix_cons_iff.mp hc with hc | hc
      · exact h c hc
      · exact hs c (hc.subset (by simp)) hc
    · intro h
      refine ⟨fun c hc => h c (hc.subset (by simp)) hc.isInfix, fun c hcs hc => ?_⟩
      exact h c (List.mem_cons_of_mem a hcs) (hc.trans (List.suffix_cons a s).isInfix)

instance : Decidable (RefsComplete s) := decidable_of_iff _ refsCheck_iff

/-- What the decoder has taken and not put out yet, unless it collects digits. -/
def Fsms.pending : Fsms → Str
  | .text => []
  | .seenAmp => ['&']
  | .seenPound => ['&', '#']
  | .collect _ => []

section Decode
variable {s rest : Str}

theorem RefsComplete.infix (h : RefsComplete s) (hu : u <:+: s) : RefsComplete u :=
  fun c hc hr => h c (hu.subset hc) (hr.trans hu)

theorem RefsComplete.suffix (h : RefsComplete s) (hu : u <:+ s) : RefsComplete u :=
  h.infix hu.isInfix

theorem collectChar_defined (h : rs = [] → c = ';' ∨ isHexDigit c = true) :
    ∃ st out, collectChar rs c = some (st, out) ∧ st ≠ .collect [] ∧
      (st = .text ∨ st.pending = []) := by
  rw [collectChar]
  split
  · exact ⟨_, _, rfl, Fsms.noConfusion, .inl rfl⟩
  · rename_i hsemi
    split
    · exact ⟨_, _, rfl, by simp, .inr rfl⟩
    · rename_i hhex
      rw [if_neg fun hrs => (h hrs).elim hsemi hhex]
      exact ⟨_, _, rfl, Fsms.noConfusion, .inl rfl⟩

/-- A step of the decoder is defined, and the references that are left are complete. -/
theorem decodeStep_defined (st : Fsms) (hst : st ≠ .collect [])
    (h : RefsComplete (st.pending ++ c :: s)) :
    ∃ st' out, decodeStep st c s = some (st', out) ∧ st' ≠ .collect [] ∧
      RefsComplete (st'.pending ++ s) := by
  have hs : RefsComplete s :=
    h.suffix ((List.suffix_cons c s).trans (List.suffix_append st.pending _))
  have hcollect : ∀ rs, (rs = [] → c = ';' ∨ isHexDigit c = true) →
      ∃ st' out, collectChar rs c = some (st', out) ∧ st' ≠ .collect [] ∧
        RefsComplete (st'.pending ++ s) := by
    intro rs hrs
    obtain ⟨st', out, hrun, hne, hpending⟩ := collectChar_defined hrs
    have hnil : st'.pending = [] := by
      rcases hpending with rfl | hnil
      · rfl
      · exact hnil
    exact ⟨st', out, hrun, hne, by rwa [hnil]⟩
  cases st with
  | text =>
    rw [decodeStep]
    split
    · rename_i hc
      rw [hc] at h
      exact ⟨_, _, rfl, Fsms.noConfusion, h⟩
    · exact ⟨_, _, rfl, Fsms.noConfusion, hs⟩
  | seenAmp =>
    rw [decodeStep]
    split
    · rename_i hc
      rw [hc] at h
      exact ⟨_, _, rfl, Fsms.noConfusion, h⟩
    · exact ⟨_, _, rfl, Fsms.noConfusion, hs⟩
  | seenPound =>
    rw [decodeStep]
    split
    · exact hcollect [] fun _ => h c (by simp [Fsms.pending]) ⟨[], s, rfl⟩
    · exact ⟨_, _, rfl, Fsms.noConfusion, hs⟩
  | collect rs =>
    exact hcollect rs fun hrs => absurd (congrArg Fsms.collect hrs) hst

theorem decodeFrom_defined (st : Fsms) (hst : st ≠ .collect [])
    (h : RefsComplete (st.pending ++ s)) : ∃ out, decodeFrom st s = some out := by
  induction s generalizing st with
  | nil => exact ⟨[], by rw [decodeFrom]⟩
  | cons c s ih =>
    obtain ⟨st', out, hstep, hne, hrefs⟩ := decodeStep_defined st hst h
    obtain ⟨out', hout⟩ := ih st' hne hrefs
    exact ⟨out ++ out', by rw [decodeFrom, hstep]; exact congrArg (Option.map _) hout⟩

theorem smlXmlDecodeString_defined (h : RefsComplete s) :
    ∃ v, smlXmlDecodeString s = some v := by
  obtain ⟨out, hout⟩ := decodeFrom_defined .text Fsms.noConfusion h
  exact ⟨cstr out, congrArg (Option.map cstr) hout⟩

end Decode

structure ProperRest (s rest : Str) : Prop where
  suffix : rest <:+ s
  shorter : rest.length < s.length

def NameEnd.Rest (s : Str) : NameEnd → Prop
  | .separator _ c rest => c :: rest <:+ s
  | .closed _ rest => ProperRest s rest
  | .bad => True

section Rests
variable {s rest : Str}

theorem ProperRest.cons (c : Char) (h : rest <:+ s) : ProperRest (c :: s) rest :=
  ⟨h.trans (List.suffix_cons c s), Nat.lt_succ_of_le h.length_le⟩

theorem ProperRest.trans (h : ProperRest s t) (ht : rest <:+ t) : ProperRest s rest :=
  ⟨ht.trans h.suffix, Nat.lt_of_le_of_lt ht.length_le h.shorter⟩

theorem ProperRest.of_suffix (h : ProperRest t rest) (ht : t <:+ s) : ProperRest s rest :=
  ⟨h.suffix.trans ht, Nat.lt_of_lt_of_le h.shorter ht.length_le⟩

theorem readLead_opened (h : readLead inside s = .opened rest) : ProperRest s rest := by
  induction s with
  | nil =>
    rw [readLead] at h
    split at h <;> cases h
  | cons c s ih =>
    have hstep (h : readLead inside s = .opened rest) : ProperRest (c :: s) rest :=
      .cons c (ih h).suffix
    rw [readLead] at h
    split at h
    · cases h
      exact .cons c List.suffix_rfl
    · split at h
      · exact hstep h
      · split at h
        · exact hstep h
        · split at h <;> cases h

theorem readLead_empty (h : readLead inside s = .empty rest) :
    rest <:+ s ∧ (rest ≠ [] → ProperRest s rest) := by
  induction s with
  | nil =>
    rw [readLead] at h
    split at h
    · cases h
    · cases h
      exact ⟨List.suffix_rfl, fun hne => absurd rfl hne⟩
  | cons c s ih =>
    have hstep (h : readLead inside s = .empty rest) :
        rest <:+ c :: s ∧ (rest ≠ [] → ProperRest (c :: s) rest) :=
      ⟨(ProperRest.cons c (ih h).1).suffix, fun _ => .cons c (ih h).1⟩
    rw [readLead] at h
    split at h
    · cases h
    · split at h
      · exact hstep h
      · split at h
        · exact hstep h
        · split at h
          · cases h
            exact ⟨List.suffix_cons c _, fun _ => .cons c List.suffix_rfl⟩
          · cases h

theorem readClose_behind (h : readClose name s = some (name', rest)) : ProperRest s rest := by
  induction s generalizing name with
  | nil => cases h
  | cons c s ih =>
    rw [readClose] at h
    split at h
    · cases h
      exact .cons c List.suffix_rfl
    · split at h
      · cases h
      · exact .cons c (ih h).suffix

theorem readName_rest (name s : Str) : (readName name s).Rest s := by
  induction s generalizing name with
  | nil => exact trivial
  | cons c s ih =>
    rw [readName]
    split
    · exact List.suffix_rfl
    · split
      · exact trivial
      · split
        · split
          · exact ProperRest.cons c (List.tail_suffix s)
          · exact trivial
        · have hrest := ih (accumulate name c)
          cases hname : readName (accumulate name c) s with
          | separator n d rest =>
            rw [hname] at hrest
            exact hrest.trans (List.suffix_cons c s)
          | closed n rest =>
            rw [hname] at hrest
            exact ProperRest.cons c (ProperRest.suffix hrest)
          | bad => exact trivial

end Rests

/-- What the reader has of a value: the beginning of what stands there, which is all of it while
there is room. -/
def ParamState.Complete : ParamState → Str → Prop
  | .value _ v, s => ∃ raw, v <+: raw ∧ RefsComplete (raw ++ s) ∧
      (v.length < MAX_SML_COMPONENT_LENGTH - 1 → v = raw)
  | _, s => RefsComplete s

def ParamEnd.Rest (s : Str) : ParamEnd → Prop
  | .opened _ rest | .closed _ rest => ProperRest s rest
  | .bad => True
  | .undecoded => False

section Read
variable {s rest : Str}

theorem ParamEnd.Rest.cons {e : ParamEnd} (c : Char) (h : e.Rest s) : e.Rest (c :: s) := by
  cases e with
  | opened params rest => exact ProperRest.cons c (ProperRest.suffix h)
  | closed params rest => exact ProperRest.cons c (ProperRest.suffix h)
  | bad => exact h
  | undecoded => exact h

/-- A character of a value is taken or, when there is no room, dropped. -/
theorem ParamState.Complete.accumulate (h : (ParamState.value n v).Complete (c :: s)) :
    (ParamState.value n (accumulate v c)).Complete s := by
  obtain ⟨raw, hprefix, hrefs, hall⟩ := h
  have hrefs' : RefsComplete ((raw ++ [c]) ++ s) := by rwa [List.append_assoc]
  rw [Pkgtools.accumulate]
  split
  · rename_i hroom
    rw [hall hroom]
    exact ⟨raw ++ [c], List.prefix_rfl, hrefs', fun _ => rfl⟩
  · rename_i hfull
    exact ⟨raw ++ [c], hprefix.trans (List.prefix_append raw [c]), hrefs',
      fun hroom => absurd hroom hfull⟩

theorem readParams_rest (st : ParamState) (params : List SmlParam) (h : st.Complete s) :
    (readParams st params s).Rest s := by
  induction s generalizing st params with
  | nil => cases st <;> exact trivial
  | cons c s ih =>
    have hs {s' : Str} (h : RefsComplete (c :: s')) : RefsComplete s' :=
      h.suffix (List.suffix_cons c s')
    cases st with
    | gap =>
      rw [readParams]
      split
      · exact (ih .gap params (hs h)).cons c
      · split
        · exact trivial
        · split
          · exact ProperRest.cons c List.suffix_rfl
          · split
            · split
              · exact ProperRest.cons c (List.tail_suffix s)
              · exact trivial
            · exact (ih (.name [c]) params (hs h)).cons c
    | name n =>
      rw [readParams]
      split
      · exact trivial
      · split
        · split
          · exact trivial
          · exact (ih (.sep n) params (hs h)).cons c
        · exact (ih (.name (accumulate n c)) params (hs h)).cons c
    | sep n =>
      rw [readParams]
      split
      · exact (ih (.value n []) params
          ⟨[], List.prefix_rfl, hs h, fun _ => rfl⟩).cons c
      · exact trivial
    | value n v =>
      rw [readParams]
      split
      · obtain ⟨raw, hprefix, hrefs, -⟩ := h
        have hv : RefsComplete v :=
          hrefs.infix ((List.IsPrefix.isInfix hprefix).trans (List.prefix_append raw _).isInfix)
        obtain ⟨w, hw⟩ := smlXmlDecodeString_defined hv
        rw [hw]
        exact (ih .gap _ (hs (hrefs.suffix (List.suffix_append raw _)))).cons c
      · split
        · exact trivial
        · exact (ih _ params h.accumulate).cons c

/-- What the reader comes to in a text: `RESULT_ERR`, or a value and the rest of the text. -/
def Goes (s : Str) (good : α → Str → Prop) : Except SmlFault (α × Str) → Prop
  | .error e => e = .resultErr
  | .ok (a, rest) => rest <:+ s ∧ good a rest

theorem Goes.map_tags (h : Goes rest (fun _ _ => True) x) (hrest : ProperRest s rest) :
    Goes s (fun r rest => r.isSome ∨ rest ≠ [] → ProperRest s rest)
      (x.map fun r => (some (SmlTag.mk name params r.1), r.2.tail)) := by
  cases x with
  | error e => exact h
  | ok r =>
    have htail := hrest.trans ((List.tail_suffix r.2).trans h.1)
    exact ⟨htail.suffix, fun _ => htail⟩

theorem readEnd_rest (c : Char) (hs : RefsComplete s) :
    (if c = '>' then ParamEnd.opened [] s else readParams .gap [] s).Rest (c :: s) := by
  split
  · exact ProperRest.cons c List.suffix_rfl
  · exact (readParams_rest .gap [] hs).cons c

theorem smlReadTag_succ_goes
    (ihTags : ∀ name s, RefsComplete s → s.length + 1 < fuel →
      Goes s (fun _ _ => True) (readTags fuel name s))
    (hs : RefsComplete s) (hfuel : s.length < fuel + 1) :
    Goes s (fun r rest => r.isSome ∨ rest ≠ [] → ProperRest s rest)
      (smlReadTag (fuel + 1) parent s) := by
  rw [smlReadTag]
  cases hlead : readLead parent.isSome s with
  | bad => exact rfl
  | empty rest =>
    obtain ⟨hsuffix, hrest⟩ := readLead_empty hlead
    exact ⟨hsuffix, fun h => hrest (h.resolve_left Bool.false_ne_true)⟩
  | opened s₁ =>
    have h₁ := readLead_opened hlead
    dsimp only
    split
    · cases hclose : readClose [] s₁.tail with
      | none => exact rfl
      | some r =>
        have hrest := h₁.trans ((readClose_behind hclose).suffix.trans (List.tail_suffix s₁))
        dsimp only
        split
        · exact ⟨hrest.suffix, fun _ => hrest⟩
        · exact rfl
    · have hname := readName_rest [] s₁
      cases hrun : readName [] s₁ with
      | bad => exact rfl
      | closed name rest =>
        rw [hrun] at hname
        have hrest := h₁.trans (ProperRest.suffix hname)
        exact ⟨hrest.suffix, fun _ => hrest⟩
      | separator name c s₂ =>
        rw [hrun] at hname
        have hname : c :: s₂ <:+ s₁ := hname
        have hs₂ := hs.suffix ((List.suffix_cons c s₂).trans (hname.trans h₁.suffix))
        have hparams := readEnd_rest c hs₂
        dsimp only
        split
        · exact rfl
        · cases hend : (if c = '>' then ParamEnd.opened [] s₂ else readParams .gap [] s₂) with
          | bad => exact rfl
          | undecoded =>
            rw [hend] at hparams
            exact hparams.elim
          | closed params rest =>
            rw [hend] at hparams
            have hrest := h₁.trans (ProperRest.of_suffix hparams hname).suffix
            exact ⟨hrest.suffix, fun _ => hrest⟩
          | opened params rest =>
            rw [hend] at hparams
            have hrest := ProperRest.of_suffix hparams hname
            have hlen₁ := h₁.shorter
            have hlen := hrest.shorter
            exact (ihTags name rest (hs.suffix (hrest.suffix.trans h₁.suffix)) (by omega)).map_tags
              (h₁.trans hrest.suffix)

theorem readTags_succ_goes
    (ihTag : ∀ parent s, RefsComplete s → s.length < fuel →
      Goes s (fun r rest => r.isSome ∨ rest ≠ [] → ProperRest s rest) (smlReadTag fuel parent s))
    (ihTags : ∀ name s, RefsComplete s → s.length + 1 < fuel →
      Goes s (fun _ _ => True) (readTags fuel name s))
    (hs : RefsComplete s) (hfuel : s.length + 1 < fuel + 1) :
    Goes s (fun _ _ => True) (readTags (fuel + 1) name s) := by
  rw [readTags]
  have htag := ihTag (some name) s hs (Nat.lt_of_succ_lt_succ hfuel)
  cases hrun : smlReadTag fuel (some name) s with
  | error e =>
    rw [hrun] at htag
    exact htag
  | ok r =>
    obtain ⟨r, rest⟩ := r
    rw [hrun] at htag
    cases r with
    | none => exact ⟨htag.1, trivial⟩
    | some tag =>
      have hrest := htag.2 (.inl rfl)
      have hlen := hrest.shorter
      have htags := ihTags name rest (hs.suffix hrest.suffix) (by omega)
      dsimp only
      cases hmore : readTags fuel name rest with
      | error e =>
        rw [hmore] at htags
        exact htags
      | ok r =>
        rw [hmore] at htags
        exact ⟨htags.1.trans hrest.suffix, trivial⟩

/-- With a tag something was read, and without one unless the text is at its end. -/
theorem smlReadTag_goes (fuel : Nat) :
    (∀ parent s, RefsComplete s → s.length < fuel →
      Goes s (fun r rest => r.isSome ∨ rest ≠ [] → ProperRest s rest) (smlReadTag fuel parent s)) ∧
    ∀ name s, RefsComplete s → s.length + 1 < fuel →
      Goes s (fun _ _ => True) (readTags fuel name s) := by
  induction fuel with
  | zero => exact ⟨fun _ _ _ h => absurd h (Nat.not_lt_zero _),
      fun _ _ _ h => absurd h (Nat.not_lt_zero _)⟩
  | succ fuel ih =>
    exact ⟨fun _ _ => smlReadTag_succ_goes ih.2, fun _ _ => readTags_succ_goes ih.1 ih.2⟩

theorem convertLoop_defined (hs : RefsComplete s) (hpasses : s.length < passes)
    (tags : List SmlTag) : convertLoop passes tags s ≠ .error .undefined := by
  induction passes generalizing s tags with
  | zero => exact absurd hpasses (Nat.not_lt_zero _)
  | succ passes ih =>
    rw [convertLoop]
    have htag := (smlReadTag_goes (s.length + 1)).1 none s hs (Nat.lt_succ_self _)
    cases hrun : smlReadTag (s.length + 1) none s with
    | error e =>
      rw [hrun] at htag
      rw [show e = .resultErr from htag]
      simp
    | ok r =>
      obtain ⟨r, rest⟩ := r
      rw [hrun] at htag
      have hnext (tags : List SmlTag) (h : ProperRest s rest) :
          convertLoop passes tags rest ≠ .error .undefined := by
        have hlen := h.shorter
        exact ih (hs.suffix h.suffix) (by omega) tags
      cases r with
      | none =>
        dsimp only
        split
        · simp
        · rename_i hne
          exact hnext tags (htag.2 (.inr hne))
      | some tag => exact hnext _ (htag.2 (.inl rfl))

theorem smlConvertStringToTag_defined (hne : s ≠ []) (hs : RefsComplete s) :
    smlConvertStringToTag s ≠ .error .undefined := by
  rw [smlConvertStringToTag, if_neg hne]
  have hloop := convertLoop_defined hs (Nat.lt_succ_self s.length) []
  cases hrun : convertLoop (s.length + 1) [] s with
  | error e =>
    rw [hrun] at hloop
    intro h
    cases h
    exact hloop rfl
  | ok tags => exact fun h => by cases h

end Read

end Pkgtools
