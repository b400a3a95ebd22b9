import Pkgtools.SmlRoundTrip

namespace Pkgtools
open CLib
set_option autoImplicit true

/-- `convert all new-line characters to space`. -/
def lineSpace (c : Char) : Char := if c = '\n' then ' ' else c

def spaced (s : Str) : Str := s.map lineSpace

def Lead.spaced : Lead → Lead
  | .opened rest => .opened (Pkgtools.spaced rest)
  | .empty rest => .empty (Pkgtools.spaced rest)
  | .bad => .bad

def NameEnd.spaced : NameEnd → NameEnd
  | .separator name c rest => .separator name (lineSpace c) (Pkgtools.spaced rest)
  | .closed name rest => .closed name (Pkgtools.spaced rest)
  | .bad => .bad

def ParamEnd.spaced : ParamEnd → ParamEnd
  | .opened params rest => .opened params (Pkgtools.spaced rest)
  | .closed params rest => .closed params (Pkgtools.spaced rest)
  | .bad => .bad
  | .undecoded => .undecoded

section Spaces

theorem spaced_cons (c : Char) (s : Str) : spaced (c :: s) = lineSpace c :: spaced s := rfl

theorem lineSpace_of_ne (h : c ≠ '\n') : lineSpace c = c := if_neg h

theorem lineSpace_newline : lineSpace '\n' = ' ' := rfl

theorem lineSpace_eq_iff (hnl : d ≠ '\n') (hsp : d ≠ ' ') : lineSpace c = d ↔ c = d := by
  by_cases h : c = '\n'
  · rw [h, lineSpace_newline]
    exact iff_of_false hsp.symm hnl.symm
  · rw [lineSpace_of_ne h]

/-- A set that has both spaces and line ends, or neither, has the same characters of both texts. -/
theorem lineSpace_mem_iff (l : Str) (h : ' ' ∈ l ↔ '\n' ∈ l) : lineSpace c ∈ l ↔ c ∈ l := by
  by_cases hc : c = '\n'
  · rw [hc, lineSpace_newline, h]
  · rw [lineSpace_of_ne hc]

theorem head?_spaced (hnl : d ≠ '\n') (hsp : d ≠ ' ') (s : Str) :
    (spaced s).head? = some d ↔ s.head? = some d := by
  cases s with
  | nil => rfl
  | cons c s =>
    rw [spaced_cons, List.head?_cons, List.head?_cons, Option.some_inj, Option.some_inj,
      lineSpace_eq_iff hnl hsp]

theorem tail_spaced (s : Str) : (spaced s).tail = spaced s.tail := by
  cases s with
  | nil => rfl
  | cons c s => rfl

theorem length_spaced (s : Str) : (spaced s).length = s.length := List.length_map _

theorem readLead_inside_spaced (s : Str) : readLead true (spaced s) = (readLead true s).spaced := by
  induction s with
  | nil => rfl
  | cons c s ih =>
    rw [spaced_cons, readLead, readLead]
    simp only [lineSpace_eq_iff (d := '<') (by decide) (by decide), if_true]
    split
    · rfl
    · exact ih

theorem readLead_inside_ne_empty (s : Str) : readLead true s ≠ .empty rest := by
  induction s with
  | nil => exact Lead.noConfusion
  | cons c s ih =>
    rw [readLead]
    split
    · exact Lead.noConfusion
    · rw [if_pos rfl]
      exact ih

theorem readLead_spaced (h : readLead inside s = .opened rest) :
    readLead inside (spaced s) = .opened (spaced rest) := by
  cases inside with
  | true => rw [readLead_inside_spaced, h, Lead.spaced]
  | false =>
    induction s with
    | nil => cases h
    | cons c s ih =>
      rw [readLead] at h
      rw [spaced_cons, readLead]
      simp only [lineSpace_eq_iff (d := '<') (by decide) (by decide)]
      split at h
      · rename_i hc
        cases h
        rw [if_pos hc]
      · rename_i hc
        rw [if_neg hc]
        by_cases hblank : c = ' ' ∨ c = '\t'
        · -- a line end in front of the tag would have been a blank line
          have hne : c ≠ '\n' := by
            rcases hblank with rfl | rfl <;> decide
          rw [if_neg Bool.false_ne_true, if_pos hblank] at h
          rw [if_neg Bool.false_ne_true, lineSpace_of_ne hne, if_pos hblank]
          exact ih h
        · rw [if_neg Bool.false_ne_true, if_neg hblank] at h
          split at h <;> cases h

theorem readClose_spaced (s : Str) (name : Str) :
    readClose name (spaced s) = (readClose name s).map fun r => (r.1, spaced r.2) := by
  induction s generalizing name with
  | nil => rfl
  | cons c s ih =>
    rw [spaced_cons, readClose, readClose]
    simp only [lineSpace_eq_iff (d := '>') (by decide) (by decide),
      lineSpace_mem_iff closeIllegal (by decide)]
    split
    · rfl
    · split
      · rfl
      · rename_i hc
        have hne : c ≠ '\n' := fun h => hc (h ▸ by decide)
        rw [lineSpace_of_ne hne]
        exact ih _

theorem readName_spaced (s : Str) (name : Str) :
    readName name (spaced s) = (readName name s).spaced := by
  induction s generalizing name with
  | nil => rfl
  | cons c s ih =>
    rw [spaced_cons, readName, readName]
    simp only [lineSpace_eq_iff (d := '/') (by decide) (by decide),
      lineSpace_mem_iff nameSeparators (by decide), lineSpace_mem_iff nameIllegal (by decide),
      head?_spaced (d := '>') (by decide) (by decide), tail_spaced]
    split
    · rfl
    · rename_i hc
      have hne : c ≠ '\n' := fun h => hc (h ▸ by decide)
      split
      · rfl
      · split
        · split
          · rfl
          · rfl
        · rw [lineSpace_of_ne hne]
          exact ih _

theorem readParams_spaced (s : Str) (st : ParamState) (params : List SmlParam)
    (h : readParams st params s ≠ .bad) :
    readParams st params (spaced s) = (readParams st params s).spaced := by
  induction s generalizing st params with
  | nil => exact absurd (by cases st <;> rfl) h
  | cons c s ih =>
    rw [spaced_cons]
    cases st with
    | gap =>
      rw [readParams] at h ⊢
      rw [readParams]
      simp only [lineSpace_eq_iff (d := '/') (by decide) (by decide),
        lineSpace_eq_iff (d := '>') (by decide) (by decide),
        lineSpace_mem_iff paramSeparators (by decide),
        lineSpace_mem_iff paramStartIllegal (by decide),
        head?_spaced (d := '>') (by decide) (by decide), tail_spaced]
      split
      · rename_i hc
        rw [if_pos hc] at h
        exact ih _ _ h
      · rename_i hc
        have hne : c ≠ '\n' := fun h => hc (h ▸ by decide)
        rw [if_neg hc] at h
        split
        · rfl
        · rename_i hill
          rw [if_neg hill] at h
          split
          · rfl
          · rename_i hgt
            rw [if_neg hgt] at h
            split
            · split
              · rfl
              · rfl
            · rename_i hslash
              rw [if_neg hslash] at h
              rw [lineSpace_of_ne hne]
              exact ih _ _ h
    | name name =>
      rw [readParams] at h ⊢
      rw [readParams]
      simp only [lineSpace_eq_iff (d := '=') (by decide) (by decide),
        lineSpace_mem_iff paramIllegal (by decide)]
      split
      · rfl
      · rename_i hc
        have hne : c ≠ '\n' := fun h => hc (h ▸ by decide)
        rw [if_neg hc] at h
        split
        · rename_i heq
          rw [if_pos heq] at h
          split
          · rfl
          · rename_i hname
            rw [if_neg hname] at h
            exact ih _ _ h
        · rename_i heq
          rw [if_neg heq] at h
          rw [lineSpace_of_ne hne]
          exact ih _ _ h
    | sep name =>
      rw [readParams] at h ⊢
      rw [readParams]
      simp only [lineSpace_eq_iff (d := '"') (by decide) (by decide)]
      split
      · rename_i heq
        rw [if_pos heq] at h
        exact ih _ _ h
      · rfl
    | value name value =>
      rw [readParams] at h ⊢
      rw [readParams]
      simp only [lineSpace_eq_iff (d := '"') (by decide) (by decide)]
      split
      · rename_i heq
        rw [if_pos heq] at h
        split
        · rfl
        · rename_i v hv
          rw [hv] at h
          exact ih _ _ h
      · rename_i heq
        rw [if_neg heq] at h
        -- a line end inside a value is refused
        by_cases hnl : c = '\n'
        · rw [if_pos hnl] at h
          exact absurd rfl h
        · rw [if_neg hnl] at h
          rw [lineSpace_of_ne hnl, if_neg hnl, if_neg hnl]
          exact ih _ _ h

theorem readEnd_spaced (c : Char) (s : Str) :
    (if c = '>' then ParamEnd.opened [] s else readParams .gap [] s) ≠ .bad →
      (if c = '>' then ParamEnd.opened [] (spaced s) else readParams .gap [] (spaced s)) =
        (if c = '>' then ParamEnd.opened [] s else readParams .gap [] s).spaced := by
  intro hgood
  split
  · rfl
  · rename_i hgt
    rw [if_neg hgt] at hgood
    exact readParams_spaced s .gap [] hgood

theorem smlReadTag_succ_spaced
    (ihTags : ∀ name s tags rest, readTags fuel name s = .ok (tags, rest) →
      readTags fuel name (spaced s) = .ok (tags, spaced rest))
    (h : smlReadTag (fuel + 1) parent s = .ok (r, rest)) (hsome : parent.isSome ∨ r.isSome) :
    smlReadTag (fuel + 1) parent (spaced s) = .ok (r, spaced rest) := by
  rw [smlReadTag] at h ⊢
  cases hlead : readLead parent.isSome s with
  | bad =>
    rw [hlead] at h
    cases h
  | empty s' =>
    rw [hlead] at h
    cases h
    -- a blank line is not read inside a tag
    rcases hsome with hsome | hsome
    · rw [hsome] at hlead
      exact absurd hlead (readLead_inside_ne_empty s)
    · cases hsome
  | opened s' =>
    rw [hlead] at h
    rw [readLead_spaced hlead]
    dsimp only at h ⊢
    simp only [head?_spaced (d := '/') (by decide) (by decide), tail_spaced, readClose_spaced,
      readName_spaced]
    split at h
    · rename_i hslash
      rw [if_pos hslash]
      cases hclose : readClose [] s'.tail with
      | none =>
        rw [hclose] at h
        cases h
      | some q =>
        obtain ⟨n, s''⟩ := q
        rw [hclose] at h
        dsimp only [Option.map_some] at h ⊢
        split at h
        · rename_i hn
          cases h
          rw [if_pos hn]
        · cases h
    · rename_i hslash
      rw [if_neg hslash]
      cases hname : readName [] s' with
      | bad =>
        rw [hname] at h
        cases h
      | closed n s'' =>
        rw [hname] at h
        cases h
        rfl
      | separator n c s'' =>
        rw [hname] at h
        dsimp only [NameEnd.spaced] at h ⊢
        simp only [lineSpace_eq_iff (d := '>') (by decide) (by decide)]
        split at h
        · cases h
        · rename_i hne
          rw [if_neg hne]
          have hparams := readEnd_spaced c s''
          cases hend : (if c = '>' then ParamEnd.opened [] s'' else readParams .gap [] s'') with
          | bad =>
            rw [hend] at h
            cases h
          | closed params s₃ =>
            rw [hend] at h hparams
            rw [hparams ParamEnd.noConfusion, ParamEnd.spaced]
            cases h
            rfl
          | undecoded =>
            rw [hend] at h
            cases h
          | opened params s₃ =>
            rw [hend] at h hparams
            rw [hparams ParamEnd.noConfusion, ParamEnd.spaced]
            dsimp only at h ⊢
            obtain ⟨⟨ts, s₄⟩, hts, heq⟩ := map_eq_ok_iff.mp h
            cases heq
            rw [ihTags n s₃ ts s₄ hts, Except.map, tail_spaced]

theorem readTags_succ_spaced
    (ihTag : ∀ parent s r rest, smlReadTag fuel parent s = .ok (r, rest) →
      parent.isSome ∨ r.isSome → smlReadTag fuel parent (spaced s) = .ok (r, spaced rest))
    (ihTags : ∀ name s tags rest, readTags fuel name s = .ok (tags, rest) →
      readTags fuel name (spaced s) = .ok (tags, spaced rest))
    (h : readTags (fuel + 1) name s = .ok (tags, rest)) :
    readTags (fuel + 1) name (spaced s) = .ok (tags, spaced rest) := by
  rw [readTags] at h ⊢
  cases htag : smlReadTag fuel (some name) s with
  | error e =>
    rw [htag] at h
    cases h
  | ok q =>
    obtain ⟨r, s'⟩ := q
    rw [htag] at h
    rw [ihTag (some name) s r s' htag (.inl rfl)]
    cases r with
    | none =>
      cases h
      rfl
    | some tag =>
      dsimp only at h ⊢
      obtain ⟨⟨ts, s''⟩, hts, heq⟩ := map_eq_ok_iff.mp h
      cases heq
      rw [ihTags name s' ts s'' hts, Except.map]

/-- Where a tag is read, or a closing tag inside another one, the same is read behind the change of
the line ends. -/
theorem smlReadTag_readTags_spaced (fuel : Nat) :
    (∀ parent s r rest, smlReadTag fuel parent s = .ok (r, rest) → parent.isSome ∨ r.isSome →
      smlReadTag fuel parent (spaced s) = .ok (r, spaced rest)) ∧
    ∀ name s tags rest, readTags fuel name s = .ok (tags, rest) →
      readTags fuel name (spaced s) = .ok (tags, spaced rest) := by
  induction fuel with
  | zero => exact ⟨fun _ _ _ _ h => (by cases h), fun _ _ _ _ h => (by cases h)⟩
  | succ fuel ih =>
    obtain ⟨ihTag, ihTags⟩ := ih
    exact ⟨fun _ _ _ _ => smlReadTag_succ_spaced ihTags,
      fun _ _ _ _ => readTags_succ_spaced ihTag ihTags⟩

/-- The string written for a tree is read back also when its line ends are spaces. -/
theorem smlConvertStringToTag_spaced (tag : SmlTag) (h : tag.Fits) :
    smlConvertStringToTag (spaced (smlWriteSimpleTag [] tag)) =
      .ok (.mk "tagfile".toList [] [tag]) := by
  have hcalls := tag.calls_lt_length
  have hread := smlReadTag_write none [] tag h ((smlWriteSimpleTag [] tag).length + 1) (by omega)
  rw [List.append_nil] at hread
  have hspaced := (smlReadTag_readTags_spaced _).1 _ _ _ _ hread (.inr rfl)
  have hne : spaced (smlWriteSimpleTag [] tag) ≠ [] := by
    rw [← List.length_pos_iff, length_spaced]
    omega
  obtain ⟨k, hk⟩ : ∃ k, (smlWriteSimpleTag [] tag).length = k + 1 :=
    ⟨_, (Nat.succ_pred_eq_of_pos (Nat.zero_lt_of_lt hcalls)).symm⟩
  have hend : convertLoop (k + 1) [tag] (spaced (tag.behind [])) = .ok [tag] := by
    cases tag with
    | mk name params tags =>
      cases tags with
      | nil =>
        -- the space behind the tag is passed over at the end
        have hblank : smlReadTag 2 none [' '] = .ok (none, []) := by
          rw [smlReadTag, show readLead (none : Option Str).isSome [' '] = .empty [] by decide]
        rw [show spaced (SmlTag.behind (.mk name params []) []) = [' '] from rfl, convertLoop,
          List.length_singleton, hblank]
        rfl
      | cons t ts =>
        have hempty : smlReadTag 1 none [] = .ok (none, []) := by
          rw [smlReadTag, show readLead (none : Option Str).isSome [] = .empty [] by decide]
        rw [show spaced (SmlTag.behind (.mk name params (t :: ts)) []) = [] from rfl, convertLoop,
          List.length_nil, hempty]
        rfl
  rw [smlConvertStringToTag, if_neg hne, length_spaced, hk, convertLoop, length_spaced, hspaced]
  dsimp only
  rw [List.nil_append, hend, Except.map]

end Spaces

end Pkgtools
