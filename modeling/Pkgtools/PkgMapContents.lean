import Pkgtools.Merge
import Pkgtools.PkgMapEntry
import Pkgtools.PlainParse
import Pkgtools.RoundTrip
import Pkgtools.SearchSorted

namespace Pkgtools
open CLib
set_option autoImplicit true

/-- The texts of an entry that was read from a contents file. -/
structure ReadTexts (e : Cfent) : Prop where
  pkgClass : Tok e.pkgClass ∧ e.pkgClass.length < clssiz
  localPath : ∀ l, e.ainfo.localPath = some l → Tok l
  owner : Tok e.ainfo.owner
  group : Tok e.ainfo.group

def KeepsTexts (m : Cfent → Parse Ptr Fail Cfent) : Prop :=
  ∀ ept p e p', NulFree p.rest → ReadTexts ept → m ept p = some (.ok e, p') →
    NulFree p'.rest ∧ ReadTexts e

section Readers
variable {p p' : Ptr} {ept e : Cfent}

theorem nulFree_add (h : NulFree p.rest) (k : Nat) : NulFree (p.add k).rest :=
  h.sublist (List.drop_sublist _ _)

theorem failAtEnd_not_ok (errstr : String) (ept : Cfent) (p : Ptr) (a : α) (p' : Ptr) :
    (failAtEnd bufferReaders errstr ept : Parse Ptr Fail α) p ≠ some (.ok a, p') := by
  intro h
  obtain ⟨_, _, _, h⟩ := Parse.bind_eq_ok h
  cases h

theorem getstr_tok (hp : NulFree p.rest) (h : getstr n isWordSep p = ((0, v), p')) :
    ∃ s, v = some s ∧ Tok s ∧ s.length < n := by
  rw [getstr] at h
  split at h
  · cases h
  · dsimp only at h
    split at h
    · cases h
    · rename_i hq
      split at h
      · rename_i hlen
        obtain ⟨h₁, -⟩ := Prod.mk.inj h
        refine ⟨_, (Prod.mk.inj h₁).2.symm, ⟨?_, ?_⟩, hlen⟩
        · have hdrop : (p.add (spaceLen p)).rest = p.rest.dropWhile isspace :=
            drop_length_takeWhile isspace p.rest
          rw [hdrop] at hq ⊢
          obtain ⟨c, t, hct⟩ := List.exists_cons_of_ne_nil hq
          have hc : isspace c = false := by
            have hhead := List.head_dropWhile_not isspace (l := p.rest) hq
            simpa only [hct, List.head_cons] using hhead
          have hnul : c ≠ nul := by
            rintro rfl
            exact hp ((List.dropWhile_sublist _).subset (hct ▸ List.mem_cons_self))
          refine ⟨c, t.takeWhile fun c => !isWordSep c, ?_, hc⟩
          rw [hct, List.takeWhile_cons, isWordSep_of_nonspace hc hnul]
          rfl
        · intro c hc
          simpa using List.mem_takeWhile_imp hc
      · cases h

theorem strField_ok (hp : NulFree p.rest)
    (h : strField bufferReaders n store errstr ept p = some (.ok e, p')) :
    NulFree p'.rest ∧ ∃ s, Tok s ∧ s.length < n ∧ e = store s ept := by
  obtain ⟨⟨c, v⟩, q, hread, h⟩ := Parse.bind_eq_ok h
  have hread := Option.some.inj (Parse.prim_eq_ok hread)
  obtain ⟨k, hk⟩ := getstr_pos n isWordSep p
  rw [hread] at hk
  dsimp only at h
  split at h
  · exact absurd h (failAtEnd_not_ok _ _ _ _ _)
  · rename_i hc
    rw [not_not.mp hc] at hread
    obtain ⟨s, rfl, hs, hlen⟩ := getstr_tok hp hread
    obtain ⟨rfl, rfl⟩ := Parse.ret_eq_ok h
    rw [show q = p.add k from hk]
    exact ⟨nulFree_add hp k, s, hs, hlen, rfl⟩

theorem numField_ok (hp : NulFree p.rest)
    (h : numField bufferReaders base bad store errstr ept p = some (.ok e, p')) :
    NulFree p'.rest ∧ (e = ept ∨ ∃ v, e = store v ept) := by
  obtain ⟨⟨failed, v⟩, q, hread, h⟩ := Parse.bind_eq_ok h
  have hread := Option.some.inj (Parse.prim_eq_ok hread)
  obtain ⟨k, hk⟩ := getnum_pos base bad p
  rw [hread] at hk
  dsimp only at h
  split at h
  · exact absurd h (failAtEnd_not_ok _ _ _ _ _)
  · obtain ⟨rfl, rfl⟩ := Parse.ret_eq_ok h
    rw [show q = p.add k from hk]
    refine ⟨nulFree_add hp k, ?_⟩
    cases v with
    | none => exact .inl rfl
    | some v => exact .inr ⟨v, rfl⟩

theorem KeepsTexts.onlyIf {m : Cfent → Parse Ptr Fail Cfent} (hm : KeepsTexts m) (c : Prop)
    [Decidable c] : KeepsTexts (Parse.onlyIf c m) := by
  intro ept p e p' hp ht h
  unfold Parse.onlyIf at h
  split at h
  · exact hm ept p e p' hp ht h
  · obtain ⟨rfl, rfl⟩ := Parse.ret_eq_ok h
    exact ⟨hp, ht⟩

theorem keepsTexts_numField {store : Int → Cfent → Cfent}
    (hs : ∀ v e, ReadTexts e → ReadTexts (store v e)) :
    KeepsTexts (numField bufferReaders base bad store errstr) := by
  intro ept p e p' hp ht h
  obtain ⟨hp', rfl | ⟨v, rfl⟩⟩ := numField_ok hp h
  · exact ⟨hp', ht⟩
  · exact ⟨hp', hs v ept ht⟩

theorem keepsTexts_readLocal : KeepsTexts (readLocal bufferReaders) := by
  intro ept p e p' hp ht h
  obtain ⟨hp', s, hs, -, rfl⟩ := strField_ok hp (Parse.mapError_eq_ok h)
  refine ⟨hp', ht.pkgClass, fun l hl => ?_, ht.owner, ht.group⟩
  rw [← Option.some.inj hl]
  exact hs

theorem keepsTexts_readType : KeepsTexts (readType bufferReaders) := by
  intro ept p e p' hp ht h
  obtain ⟨c, q, hread, h⟩ := Parse.bind_eq_ok h
  obtain ⟨-, rfl⟩ := Prod.mk.inj (Option.some.inj (Parse.prim_eq_ok hread))
  split at h
  · obtain ⟨hp', s, hs, hlen, rfl⟩ := strField_ok (nulFree_add hp _) h
    exact ⟨hp', ⟨hs, hlen⟩, ht.localPath, ht.owner, ht.group⟩
  · split at h
    · obtain ⟨_, _, _, h⟩ := Parse.bind_eq_ok h
      cases h
    · split at h
      · exact absurd h (failAtEnd_not_ok _ _ _ _ _)
      · split at h
        · exact absurd h (failAtEnd_not_ok _ _ _ _ _)
        · exact absurd h (failAtEnd_not_ok _ _ _ _ _)

theorem keepsTexts_readDevice : KeepsTexts (readDevice bufferReaders) := by
  intro ept p e p' hp ht h
  obtain ⟨e₁, p₁, h₁, h⟩ := Parse.bind_eq_ok h
  have hdevice (e : Cfent) (major minor : Int) (ht : ReadTexts e) :
      ReadTexts { e with ainfo := { e.ainfo with major := major, minor := minor } } :=
    ⟨ht.pkgClass, ht.localPath, ht.owner, ht.group⟩
  obtain ⟨hp, ht⟩ := keepsTexts_numField (fun v e => hdevice e _ _) _ _ _ _ hp
    (hdevice _ _ _ (hdevice _ _ _ ht)) h₁
  exact keepsTexts_numField (fun v e => hdevice e _ _) _ _ _ _ hp ht h

/-- The mode is stored over the owner, which is read next. -/
theorem keepsTexts_readAttrs : KeepsTexts (readAttrs bufferReaders) := by
  intro ept p e p' hp ht h
  obtain ⟨e₁, p₁, h₁, h⟩ := Parse.bind_eq_ok h
  obtain ⟨hp₁, hmode⟩ := numField_ok hp h₁
  obtain ⟨e₂, p₂, h₂, h⟩ := Parse.bind_eq_ok h
  obtain ⟨hp₂, owner, howner, -, rfl⟩ := strField_ok hp₁ h₂
  obtain ⟨hp₃, group, hgroup, -, rfl⟩ := strField_ok hp₂ h
  refine ⟨hp₃, ?_, ?_, howner, hgroup⟩
  · rcases hmode with rfl | ⟨v, rfl⟩
    · exact ht.pkgClass
    · exact ht.pkgClass
  · rcases hmode with rfl | ⟨v, rfl⟩
    · exact ht.localPath
    · exact ht.localPath

theorem keepsTexts_readContent : KeepsTexts (readContent bufferReaders) := by
  have hcinfo (e : Cfent) (c : Cinfo) (ht : ReadTexts e) : ReadTexts { e with cinfo := c } :=
    ⟨ht.pkgClass, ht.localPath, ht.owner, ht.group⟩
  intro ept p e p' hp ht h
  obtain ⟨e₁, p₁, h₁, h⟩ := Parse.bind_eq_ok h
  obtain ⟨hp, ht⟩ := keepsTexts_numField (fun v e => hcinfo e _) _ _ _ _ hp ht h₁
  obtain ⟨e₂, p₂, h₂, h⟩ := Parse.bind_eq_ok h
  obtain ⟨hp, ht⟩ := keepsTexts_numField (fun v e => hcinfo e _) _ _ _ _ hp ht h₂
  exact keepsTexts_numField (fun v e => hcinfo e _) _ _ _ _ hp ht h

theorem nulFree_readPkgSuffix (hp : NulFree p.rest)
    (h : readPkgSuffix bufferReaders pinfo classname p = some (.ok x, p')) : NulFree p'.rest := by
  have hgetc {q q' : Ptr} {c : Char} (hq : NulFree q.rest)
      (h : (Parse.prim bufferReaders.getc : Parse Ptr Fail Char) q = some (.ok c, q')) :
      NulFree q'.rest := by
    obtain ⟨-, rfl⟩ := Prod.mk.inj (Option.some.inj (Parse.prim_eq_ok h))
    exact nulFree_add hq 1
  obtain ⟨c, p₁, h₁, h⟩ := Parse.bind_eq_ok h
  have hp₁ := hgetc hp h₁
  obtain ⟨x₂, p₂, h₂, h⟩ := Parse.bind_eq_ok h
  have hp₂ : NulFree p₂.rest := by
    rw [Parse.onlyIf] at h₂
    split at h₂
    · obtain ⟨c, q, h₃, h₂⟩ := Parse.bind_eq_ok h₂
      obtain ⟨-, rfl⟩ := Parse.ret_eq_ok h₂
      exact hgetc hp₁ h₃
    · obtain ⟨-, rfl⟩ := Parse.ret_eq_ok h₂
      exact hp₁
  dsimp only at h
  rw [Parse.onlyIf] at h
  split at h
  · obtain ⟨y, q, h₃, h⟩ := Parse.bind_eq_ok h
    obtain ⟨k, hk⟩ := getstr_pos (clssiz + 1) isWordSep p₂
    rw [Option.some.inj (Parse.prim_eq_ok h₃)] at hk
    have hq : NulFree q.rest := by
      rw [show q = p₂.add k from hk]
      exact nulFree_add hp₂ k
    obtain ⟨c, q', h₄, h⟩ := Parse.bind_eq_ok h
    obtain ⟨-, rfl⟩ := Parse.ret_eq_ok h
    exact hgetc hq h₄
  · obtain ⟨-, rfl⟩ := Parse.ret_eq_ok h
    exact hp₂

theorem nulFree_getend (hp : NulFree p.rest) : NulFree (getend p).2.rest := by
  obtain ⟨k, hk⟩ := getend_pos p
  rw [hk]
  exact nulFree_add hp k

theorem keepsTexts_readPackages (f : Nat) (classname : Str) :
    KeepsTexts (readPackages bufferReaders f classname) := by
  induction f generalizing classname with
  | zero =>
    intro ept p e p' hp ht h
    cases h
  | succ f ih =>
    intro ept p e p' hp ht h
    obtain ⟨⟨c, v⟩, q, hread, h⟩ := Parse.bind_eq_ok h
    obtain ⟨k, hk⟩ := getstr_pos (pkgsiz + 1) isPkgNameSep p
    rw [Option.some.inj (Parse.prim_eq_ok hread)] at hk
    have hq : NulFree q.rest := by
      rw [show q = p.add k from hk]
      exact nulFree_add hp k
    rw [readPackage] at h
    split at h
    · exact absurd h (failAtEnd_not_ok _ _ _ _ _)
    · split at h
      · obtain ⟨extra, q', h₁, h⟩ := Parse.bind_eq_ok h
        have hend := congrArg Prod.snd (Option.some.inj (Parse.prim_eq_ok h₁))
        split at h
        · cases h
        · obtain ⟨rfl, rfl⟩ := Parse.ret_eq_ok h
          rw [← show (getend q).2 = q' from hend]
          exact ⟨nulFree_getend hq, ht⟩
      · obtain ⟨⟨c, pinfo, classname'⟩, q', h₁, h⟩ := Parse.bind_eq_ok h
        have hq' := nulFree_readPkgSuffix hq h₁
        have ht' (n : Int) (ps : List Pinfo) : ReadTexts { ept with npkgs := n, pinfo := ps } :=
          ⟨ht.pkgClass, ht.localPath, ht.owner, ht.group⟩
        dsimp only at h
        split at h
        · obtain ⟨rfl, rfl⟩ := Parse.ret_eq_ok h
          exact ⟨hq', ht' _ _⟩
        · split at h
          · exact absurd h (failAtEnd_not_ok _ _ _ _ _)
          · exact ih classname' _ _ _ _ hq' (ht' _ _) h

theorem keepsTexts_readLast (f : Nat) (classname : Str) :
    KeepsTexts (readLast bufferReaders f classname) := by
  intro ept p e p' hp ht h
  rw [readLast] at h
  split at h
  · obtain ⟨extra, q', h₁, h⟩ := Parse.bind_eq_ok h
    have hend := congrArg Prod.snd (Option.some.inj (Parse.prim_eq_ok h₁))
    split at h
    · cases h
    · obtain ⟨rfl, rfl⟩ := Parse.ret_eq_ok h
      rw [← show (getend p).2 = q' from hend]
      exact ⟨nulFree_getend hp, ht⟩
  · exact keepsTexts_readPackages f classname ept p e p' hp ht h

theorem keepsTexts_readFields (f : Nat) (classname : Str) :
    KeepsTexts (readFields bufferReaders f classname) := by
  intro ept p e p' hp ht h
  rw [readFields] at h
  split at h
  · exact absurd h (failAtEnd_not_ok _ _ _ _ _)
  · obtain ⟨e₁, p₁, h₁, h⟩ := Parse.bind_eq_ok h
    obtain ⟨hp, ht⟩ := keepsTexts_readDevice.onlyIf _ _ _ _ _ hp ht h₁
    obtain ⟨e₂, p₂, h₂, h⟩ := Parse.bind_eq_ok h
    obtain ⟨hp, ht⟩ := keepsTexts_readAttrs.onlyIf _ _ _ _ _ hp ht h₂
    obtain ⟨e₃, p₃, h₃, h⟩ := Parse.bind_eq_ok h
    obtain ⟨hp, ht⟩ := keepsTexts_readContent.onlyIf _ _ _ _ _ hp ht h₃
    exact keepsTexts_readLast f classname _ _ _ _ hp ht h

theorem keepsTexts_readEntry (f : Nat) (classname : Str) (c : Char) :
    KeepsTexts (readEntry bufferReaders f classname false c) := by
  intro ept p e p' hp ht h
  obtain ⟨e₁, p₁, h₁, h⟩ := Parse.bind_eq_ok h
  obtain ⟨hp, ht⟩ := keepsTexts_readLocal.onlyIf _ _ _ _ _ hp ht h₁
  obtain ⟨e₂, p₂, h₂, h⟩ := Parse.bind_eq_ok h
  obtain ⟨hp, ht⟩ := keepsTexts_readType.onlyIf _ _ _ _ _ hp ht h₂
  exact keepsTexts_readFields f classname _ _ _ _ hp ht h

end Readers

section Numbers
variable {e ept : Cfent} {path t : Str}

/-- A negative number is not read back, other than the sentinel. -/
theorem numField_negative (hn : n < 0) (hb : n ≠ bad) (store : Int → Cfent → Cfent)
    (errstr : String) (ept : Cfent) :
    numField lineReaders 10 bad store errstr ept (some (' ' :: (numText n bad ++ t))) =
      some (.error ⟨errstr.toList, ept⟩, none) := by
  have htext : numText n bad = '-' :: Nat.toDigits 10 n.natAbs := by
    rw [numText, if_neg hb, fmtD, if_pos hn]
  have hread : lineReaders.getnum 10 bad (some (' ' :: (numText n bad ++ t))) =
      some ((true, none), some (numText n bad ++ t)) := by
    rw [htext]
    rfl
  rw [numField, Parse.bind_ok (Parse.prim_some hread)]
  rfl

theorem negative_of_not_inRange (h : ¬ InRange w n bad) (hlt : n < 2 ^ (w - 1)) :
    n < 0 ∧ n ≠ bad :=
  ⟨Int.not_le.mp fun h₀ => h (.inl ⟨h₀, hlt⟩), fun hb => h (.inr hb)⟩

/-- A number field of a written entry: it is read back, or the entry is given up. -/
theorem numField_written (hlt : n < 2 ^ (w - 1)) (hw : InRange w n bad → InRange 64 n bad)
    (ht : Delimited t) (store : Int → Cfent → Cfent) (errstr : String) (ept : Cfent) :
    InRange w n bad ∧ numField lineReaders 10 bad store errstr ept
        (some (' ' :: (numText n bad ++ t))) = some (.ok (store n ept), some t) ∨
      ¬ InRange w n bad ∧ numField lineReaders 10 bad store errstr ept
        (some (' ' :: (numText n bad ++ t))) = some (.error ⟨errstr.toList, ept⟩, none) := by
  by_cases h : InRange w n bad
  · exact .inl ⟨h, numField_text (hw h) ht store errstr ept⟩
  · obtain ⟨hn, hb⟩ := negative_of_not_inRange h hlt
    exact .inr ⟨h, numField_negative hn hb store errstr ept⟩

theorem readDevice_unnumbered (ht : e.Typed) (hd : Delimited t)
    (hc : ¬ (InRange 32 e.ainfo.major badMajor ∧ InRange 32 e.ainfo.minor badMinor))
    (hf : isDevice e.ftype) (ept : Cfent) :
    ∃ x, readDevice lineReaders ept (some (deviceText e ++ t)) = some (.error x, none) := by
  have htext : deviceText e ++ t = ' ' :: (numText e.ainfo.major badMajor ++
      (' ' :: (numText e.ainfo.minor badMinor ++ t))) := by
    simp only [deviceText, if_pos hf, List.append_assoc, List.cons_append]
  rw [htext, readDevice]
  rcases numField_written ht.major.2 InRange.mono
    (t := ' ' :: (numText e.ainfo.minor badMinor ++ t))
    rfl storeMajor "unable to read major/minor device numbers"
    (storeMinor badMinor (storeMajor badMajor ept)) with ⟨hmajor, h₁⟩ | ⟨-, h₁⟩
  · rw [Parse.bind_ok h₁]
    rcases numField_written ht.minor.2 InRange.mono hd storeMinor
      "unable to read major/minor device numbers"
      (storeMajor e.ainfo.major (storeMinor badMinor (storeMajor badMajor ept)))
      with ⟨hminor, -⟩ | ⟨-, h₂⟩
    · exact absurd ⟨hmajor, hminor⟩ hc
    · exact ⟨_, h₂⟩
  · exact ⟨_, Parse.bind_error h₁⟩

theorem readContent_unnumbered (ht : e.Typed) (hd : Delimited t)
    (hc : ¬ (InRange 64 e.cinfo.size badCont ∧ InRange 64 e.cinfo.cksum badCont ∧
      InRange 64 e.cinfo.modtime badCont))
    (hf : hasContent e.ftype) (ept : Cfent) :
    ∃ x, readContent lineReaders ept (some (contentText e ++ t)) = some (.error x, none) := by
  have htext : contentText e ++ t = ' ' :: (numText e.cinfo.size badCont ++
      (' ' :: (numText e.cinfo.cksum badCont ++
        (' ' :: (numText e.cinfo.modtime badCont ++ t))))) := by
    simp only [contentText, if_pos hf, List.append_assoc, List.cons_append]
  rw [htext, readContent]
  rcases numField_written ht.size.2 id (t := ' ' :: (numText e.cinfo.cksum badCont ++
    (' ' :: (numText e.cinfo.modtime badCont ++ t)))) rfl storeSize
      "unable to read content info" ept
    with ⟨hsize, h₁⟩ | ⟨-, h₁⟩
  · rw [Parse.bind_ok h₁]
    rcases numField_written ht.cksum.2 id (t := ' ' :: (numText e.cinfo.modtime badCont ++ t)) rfl
      storeCksum "unable to read content info" (storeSize e.cinfo.size ept)
      with ⟨hcksum, h₂⟩ | ⟨-, h₂⟩
    · rw [Parse.bind_ok h₂]
      rcases numField_written ht.modtime.2 id hd storeModtime "unable to read content info"
        (storeCksum e.cinfo.cksum (storeSize e.cinfo.size ept)) with ⟨hmodtime, -⟩ | ⟨-, h₃⟩
      · exact absurd ⟨hsize, hcksum, hmodtime⟩ hc
      · exact ⟨_, h₃⟩
    · exact ⟨_, Parse.bind_error h₂⟩
  · exact ⟨_, Parse.bind_error h₁⟩

theorem hasContent_not_device (h : hasContent c) : isDevice c = false := by
  rcases of_decide_eq_true h with rfl | rfl | rfl <;> rfl

theorem parseLine_unnumbered (hw : e.Legible path) (ht : e.Typed) (hc : ¬ e.Numbered)
    (ept : Cfent) : ∃ x, parseLine (initEntry ept) (entryText e path) = some (.error x) := by
  obtain ⟨hd₁, hd₂, hd₃⟩ := delimited_fields e
  have hlink : ¬ (isLink (e.headBack ept).ftype = true ∧
      (e.headBack ept).ainfo.localPath = none) := by
    rintro ⟨h₁, h₂⟩
    have := hw.linked h₁
    rw [show e.ainfo.localPath = none from h₂] at this
    cases this
  suffices h : ∃ x, readFields lineReaders ((entryText e path).length + 1) [] (e.headBack ept)
      (some (fieldsText e)) = some (.error x, none) by
    obtain ⟨x, hx⟩ := h
    exact ⟨x, by rw [parseLine_head hw, hx]; rfl⟩
  rw [readFields, if_neg hlink, fieldsText]
  by_cases hdev : isDevice e.ftype
  · by_cases hr : InRange 32 e.ainfo.major badMajor ∧ InRange 32 e.ainfo.minor badMinor
    · refine absurd ⟨fun _ => hr, fun hcont => ?_⟩ hc
      rw [hasContent_not_device hcont] at hdev
      cases hdev
    · obtain ⟨x, hx⟩ := readDevice_unnumbered ht hd₂ hr hdev (e.headBack ept)
      rw [Parse.onlyIf_pos (show isDevice (e.headBack ept).ftype from hdev)]
      exact ⟨x, Parse.bind_error hx⟩
  · have hcont : hasContent e.ftype ∧ ¬ (InRange 64 e.cinfo.size badCont ∧
        InRange 64 e.cinfo.cksum badCont ∧ InRange 64 e.cinfo.modtime badCont) := by
      by_contra hno
      refine hc ⟨fun h => absurd h hdev, fun h => ?_⟩
      by_contra hr
      exact hno ⟨h, hr⟩
    have hnodev : Parse.onlyIf (isDevice (e.headBack ept).ftype) (readDevice lineReaders)
        (e.headBack ept) (some (deviceText e ++ (attrText e ++ (contentText e ++
          e.pinfo.flatMap pinfoText)))) = some (.ok (e.headBack ept), some (attrText e ++
          (contentText e ++ e.pinfo.flatMap pinfoText))) := by
      rw [Parse.onlyIf_neg (show ¬ isDevice (e.headBack ept).ftype from hdev), deviceText,
        if_neg hdev]
      rfl
    have hattrs := readAttrs_text hw (rfl : (e.headBack ept).ftype = e.ftype) hd₃
    obtain ⟨x, hx⟩ := readContent_unnumbered ht (delimited_flatMap e.pinfo) hcont.2 hcont.1
      (fillAttrs e (e.headBack ept))
    have hftype : hasContent (fillAttrs e (e.headBack ept)).ftype := by
      rw [(fill_frame e _).2.1]
      exact hcont.1
    rw [Parse.bind_ok hnodev, Parse.bind_ok hattrs, Parse.onlyIf_pos (.inl hftype)]
    exact ⟨x, Parse.bind_error hx⟩

end Numbers

section Calls
variable {L : Str} {cf : Vfp}

theorem Search.finish_ok (s : Search) (h : (s.finish r).ret = 1) :
    ∃ e p, r = some (.ok e, p) ∧ (s.finish r).ept = e := by
  match r with
  | some (.ok e, p) => exact ⟨e, p, rfl, rfl⟩
  | some (.error x, p) => exact absurd h (by decide : (-1 : Int) ≠ 1)
  | none => exact absurd h (by decide : (-1 : Int) ≠ 1)

theorem initEntry_texts (ept : Cfent) : ReadTexts (initEntry ept) := by
  have hclass : Tok badClass := ⟨⟨'n', "one".toList, rfl, rfl⟩, by decide⟩
  have hname : Tok "?".toList := ⟨⟨'?', [], rfl, rfl⟩, by decide⟩
  exact ⟨⟨hclass, (by decide : badClass.length < clssiz)⟩, nofun, hname, hname⟩

theorem srchcfile_relative (h : cf.Reads [] (L ++ ['\n'])) (hL : OneLine L) (h₂ : 2 ≤ L.length)
    (hp : L.head? ≠ some '/') (stack : Str) (ept : Cfent) (tmp : Option Vfp) :
    (srchcfile stack ept (some ['*']) cf tmp).ret ≠ 1 := by
  have hread : cf.Reads [] (unlines [] ++ (L ++ '\n' :: [])) := h
  by_cases hs : isSkipped L
  · have hone : ∀ l ∈ [L], OneLine l ∧ isSkipped l := by simp [hL, hs]
    have hlines : cf.Reads [] (unlines [L] ++ []) := by
      rw [unlines_cons, unlines_nil, List.append_nil]
      exact h
    have hlen : cf.mem.length = L.length + 1 := by
      rw [h.mem, List.nil_append, List.length_append, List.length_singleton]
    have hne : L ≠ [] := List.length_pos_iff.mp (by omega)
    have hrem : ¬ vfpGetBytesRemaining cf ≤ 1 := by
      rw [h.remaining, List.length_append, List.length_singleton]
      omega
    have hfuel : cf.mem.length + 2 = [L].length + (L.length + 1 + 1) := by
      rw [hlen, List.length_singleton]
      omega
    have hend : Vfp.Reads (cf.moveTo (([] : Str).length + (unlines [L]).length))
        ([] ++ unlines [L]) [] := hlines.moveTo
    have hstar : ('*' : Char) ≠ '/' := by decide
    rw [srchcfile, if_neg hrem]
    simp only [if_neg hstar, if_true, searchFrom]
    rw [hfuel, Search.run_skipped [L] hone (s := ⟨cf, tmp, initEntry ept, cf.curr, 0, false⟩) hlines
      (.inr (by simp [hne])), Search.run, Search.step_end hend.remaining]
    exact (by decide : (0 : Int) ≠ 1)
  · have hs' : isSkipped L = false := by simpa using hs
    have hline : (cf.moveTo (([] : Str).length + (unlines []).length)).Reads ([] ++ unlines [])
        (L ++ '\n' :: []) := hread.moveTo
    have hstep := Search.step_oldStyle (s := ⟨_, tmp, initEntry ept, cf.curr, 0, false⟩) hline
      hL hs'
      hp stack none
    rw [srchcfile_any hread (by simp) h₂ stack ept tmp hstep]
    intro hret
    obtain ⟨e, p, hok, -⟩ := Search.finish_ok _ hret
    obtain ⟨e₁, p₁, -, hfail⟩ := Parse.bind_eq_ok hok
    exact failAtEnd_not_ok _ _ _ _ _ hfail

theorem srchcfile_texts (h : cf.Reads [] (L ++ ['\n'])) (h₂ : 2 ≤ L.length)
    (hp : L.head? = some '/') (stack : Str) (ept : Cfent) (tmp : Option Vfp)
    (hret : (srchcfile stack ept (some ['*']) cf tmp).ret = 1) :
    ReadTexts (srchcfile stack ept (some ['*']) cf tmp).ept := by
  have hread : cf.Reads [] (unlines [] ++ (L ++ '\n' :: [])) := h
  obtain ⟨c, T, hT⟩ : ∃ c T, L.drop (linePath L).length ++ ['\n'] = c :: T :=
    List.exists_cons_of_ne_nil (by simp)
  have hfree : NulFree T := by
    have hsub : List.Sublist (L.drop (linePath L).length ++ ['\n']) (L ++ ['\n']) :=
      (List.drop_sublist _ _).append_right _
    rw [hT] at hsub
    have hmem : NulFree (L ++ ['\n']) := by
      have := h.nulFree
      rwa [h.mem] at this
    exact (hmem.sublist hsub).sublist (List.sublist_cons_self _ _)
  have hline : (cf.moveTo (([] : Str).length + (unlines []).length)).Reads ([] ++ unlines [])
      (L ++ '\n' :: []) := hread.moveTo
  have hstep := Search.step_newStyle (s := ⟨_, tmp, initEntry ept, cf.curr, 0, false⟩) hline hp
    (rfl : compareEntry none _ _ _ = 0) hT stack
  have hfound := srchcfile_any hread (by simp) h₂ stack ept tmp hstep
  rw [hfound] at hret ⊢
  obtain ⟨e, p, hok, he⟩ := Search.finish_ok _ hret
  rw [he]
  have hinit := initEntry_texts ept
  have hpath : ReadTexts (withPath (initEntry ept) L) :=
    ⟨hinit.pkgClass, hinit.localPath, hinit.owner, hinit.group⟩
  exact (keepsTexts_readEntry _ _ _ _ _ _ _ hfree hpath hok).2

end Calls

/-- The entry that `pkgdbmerg` writes for a new entry of one package. -/
def newEntry (e : Cfent) (p : Pinfo) : Cfent := outputEntry { e with npkgs := 1, pinfo := [p] } 0

/-- The call read an entry with the texts of `e`. -/
def ReadsTexts (e : Cfent) (found : Found) : Prop :=
  found.ret = 1 ∧ found.ept.pkgClass = e.pkgClass ∧ found.ept.path = e.path ∧
    found.ept.ainfo.localPath = e.ainfo.localPath ∧ found.ept.ainfo.owner = e.ainfo.owner ∧
    found.ept.ainfo.group = e.ainfo.group

/-- A text that is not empty and does not start with white space. -/
def Led (s : Str) : Prop := ∃ c t, s = c :: t ∧ isspace c = false

/-- The entries of package maps that the contents file can hold. -/
structure Cfent.Recordable (e : Cfent) : Prop where
  absolute : (e.path.getD []).head? = some '/'
  classLength : e.pkgClass.length < clssiz
  pkgClass : Led e.pkgClass
  target : ∀ l, isLink e.ftype → e.ainfo.localPath = some l → Led l
  owner : Led e.ainfo.owner
  group : Led e.ainfo.group
  device : isDevice e.ftype → -1 ≤ e.ainfo.major ∧ -1 ≤ e.ainfo.minor
  content : hasContent e.ftype → -1 ≤ e.cinfo.size ∧ -1 ≤ e.cinfo.cksum ∧ -1 ≤ e.cinfo.modtime

section Agreement
variable {e : Cfent} {p : Pinfo} {path : Str}

theorem MapConfig.initial_plain (getenv : Str → Option Str) : (MapConfig.initial getenv).Plain := by
  have hname : Token [] atrsiz "?".toList ∧ "?".toList ≠ [] := ⟨⟨by decide, by decide⟩, by decide⟩
  exact ⟨rfl, (by decide : badMode < 2 ^ 16), hname, hname⟩

theorem isWordSep_of_endsStr (h : Gpkgmap.endsStr sep c = false) : isWordSep c = false := by
  simp only [Gpkgmap.endsStr, Gpkgmap.isblank, Bool.or_eq_false_iff, decide_eq_false_iff_not] at h
  simp_all [isWordSep]

theorem Token.notSep (h : Token sep n s) : ∀ c ∈ s, isWordSep c = false :=
  fun c hc => isWordSep_of_endsStr (h.chars c hc)

theorem Token.tok (h : Token sep n s) (hl : Led s) : Tok s := ⟨hl, h.notSep⟩

theorem Token.oneLine (h : Token sep n s) : OneLine s :=
  oneLine_of_forall h.notSep (by decide) (by decide)

theorem Token.pathChars (h : Token ['='] n s) : ∀ c ∈ s, isPkgPathSep c = false := by
  intro c hc
  have hends := h.chars c hc
  have hsep := isWordSep_of_endsStr hends
  simp_all [Gpkgmap.endsStr, isWordSep, isPkgPathSep]

theorem newEntry_localPath (e : Cfent) (p : Pinfo) :
    (newEntry e p).ainfo.localPath = if isLink e.ftype then e.ainfo.localPath else none := rfl

theorem newEntry_pinfo (hp : p.Writable) : ∀ q ∈ (newEntry e p).pinfo, q.Writable := by
  intro q hq
  rw [List.mem_singleton.mp (show q ∈ [{ p with editflag := 0 }] from hq)]
  exact ⟨hp.status, hp.pkg, hp.named, hp.fits, hp.aclass⟩

theorem pred_pathMax_lt : pathMax - 1 < pathMax := Nat.sub_lt (by decide) Nat.one_pos

/-- What `gpkgmap` returns is written as an entry that `srchcfile` can read back, if its texts can
be read back. -/
theorem MapEntry.legible (hm : MapEntry cfg P e) (hc : MapEntry.Complete P e path)
    (hf : isFtype e.ftype) (hp : p.Writable) (habs : path.head? = some '/')
    (hclass : Led e.pkgClass ∧ e.pkgClass.length < clssiz)
    (hlocal : ∀ l, isLink e.ftype → e.ainfo.localPath = some l → Led l)
    (howner : Led e.ainfo.owner) (hgroup : Led e.ainfo.group) : (newEntry e p).Legible path where
  ftype := hf
  named := hc.path
  absolute := habs
  pathChars := (hm.path path hc.path).pathChars
  pathLength := Nat.lt_of_le_of_lt (hm.path path hc.path).length_le pred_pathMax_lt
  linked := by
    intro (hlink : isLink e.ftype)
    rw [newEntry_localPath, if_pos hlink, Option.isSome_iff_ne_none]
    exact hc.linked hlink
  localPath := by
    intro l hl
    rw [newEntry_localPath] at hl
    split at hl
    · rename_i hlink
      have htok := (hm.localPath l hl).1
      exact ⟨htok.tok (hlocal l hlink hl), Nat.lt_of_le_of_lt htok.length_le pred_pathMax_lt⟩
    · cases hl
  pkgClass := ⟨hm.pkgClass.1.tok hclass.1, hclass.2⟩
  mode := hm.typed.mode
  owner := fun _ => ⟨hm.owner.1.tok howner, hm.owner.1.length_le⟩
  group := fun _ => ⟨hm.group.1.tok hgroup, hm.group.1.length_le⟩
  packaged := List.cons_ne_nil _ _
  pinfo := newEntry_pinfo hp
  npkgs := (by decide : (1 : Int) = wrap 16 (1 : Nat))

theorem inRange_iff (hlt : n < 2 ^ (w - 1)) : InRange w n (-1) ↔ -1 ≤ n := by
  constructor
  · rintro (⟨h₀, -⟩ | rfl)
    · omega
    · exact le_refl _
  · intro h
    rcases Int.lt_or_le n 0 with h₀ | h₀
    · exact .inr (by omega)
    · exact .inl ⟨h₀, hlt⟩

theorem newEntry_numbered (ht : e.Typed) (p : Pinfo) : (newEntry e p).Numbered ↔
    (isDevice e.ftype → -1 ≤ e.ainfo.major ∧ -1 ≤ e.ainfo.minor) ∧
    (hasContent e.ftype → -1 ≤ e.cinfo.size ∧ -1 ≤ e.cinfo.cksum ∧ -1 ≤ e.cinfo.modtime) := by
  have hmajor := inRange_iff (w := 32) ht.major.2
  have hminor := inRange_iff (w := 32) ht.minor.2
  have hsize := inRange_iff (w := 64) ht.size.2
  have hcksum := inRange_iff (w := 64) ht.cksum.2
  have hmodtime := inRange_iff (w := 64) ht.modtime.2
  rw [← hmajor, ← hminor, ← hsize, ← hcksum, ← hmodtime]
  exact ⟨fun h => ⟨h.device, h.content⟩, fun h => ⟨h.1, h.2⟩⟩

theorem oneLine_newLocal (hm : MapEntry cfg P e) (l : Str)
    (hl : (newEntry e p).ainfo.localPath = some l) : OneLine l := by
  rw [newEntry_localPath] at hl
  split at hl
  · exact (hm.localPath l hl).1.oneLine
  · cases hl

theorem oneLine_newEntry (hm : MapEntry cfg P e) (hf : isFtype e.ftype) (hpath : e.path = some path)
    (hp : p.Writable) : OneLine (entryText (newEntry e p) path) := by
  exact oneLine_entryText (hm.path path hpath).oneLine hf (oneLine_newLocal hm)
    hm.pkgClass.1.oneLine
    (fun _ => ⟨hm.owner.1.oneLine, hm.group.1.oneLine⟩) (newEntry_pinfo hp)

theorem entryText_head (e : Cfent) (path : Str) :
    (entryText e path).head? = some '/' ↔ path.head? = some '/' := by
  rw [entryText_eq, List.head?_append]
  cases path with
  | cons c path => rfl
  | nil =>
    cases e.ainfo.localPath with
    | none => exact ⟨fun h => absurd (Option.some.inj h) (by decide), nofun⟩
    | some l => exact ⟨fun h => absurd (Option.some.inj h) (by decide), nofun⟩

theorem two_le_entryText (e : Cfent) (path : Str) : 2 ≤ (entryText e path).length := by
  rw [entryText_eq, List.length_append]
  cases e.ainfo.localPath with
  | none => simp [typeText]; omega
  | some l => simp [typeText]; omega

theorem putcvfpfile_newEntry (hm : MapEntry cfg P e) (hf : isFtype e.ftype)
    (hpath : e.path = some path) (hp : p.Writable) (hv : v.Wf) (hempty : v.text = [])
    (hroom : (putcvfpfile (newEntry e p) v).2.HasRoom) :
    (vfpOpen (putcvfpfile (newEntry e p) v).2.text).Reads []
      (entryText (newEntry e p) path ++ ['\n']) := by
  have htyped : (newEntry e p).Typed :=
    ⟨hm.typed.mode, hm.typed.major, hm.typed.minor, hm.typed.size, hm.typed.cksum, hm.typed.modtime⟩
  have happ := putcvfpfile_appends v htyped (isFtype_nonspace hf).2 rfl hpath
  rw [happ.text hv hroom, hempty, List.nil_append]
  have hline := oneLine_newEntry hm hf hpath hp
  refine vfpOpen_reads fun hmem => ?_
  rcases List.mem_append.mp hmem with hmem | hmem
  · exact hline.2 hmem
  · exact absurd (List.mem_singleton.mp hmem) (by decide)

theorem Pinfo.Writable.plain (hp : p.Writable) : p.Plain := by
  refine ⟨?_, oneLine_of_forall (fun c hc => (hp.pkg c hc).2) (by decide) (by decide), ?_⟩
  · rcases hp.status with hs | hs
    · rw [hs]
      decide
    · rintro he
      rw [he] at hs
      cases hs
  · rcases hp.aclass with ha | ha
    · rw [ha]
      exact oneLine_nil
    · exact ha.1.tok.oneLine

theorem putcvfpfile_newEntry_ret (hm : MapEntry cfg P e) (hf : isFtype e.ftype)
    (hpath : e.path = some path) (hp : p.Writable) (v : Vfp) :
    (putcvfpfile (newEntry e p) v).1 = 0 := by
  have hplain : (newEntry e p).Plain := ⟨oneLine_of_isFtype hf, hm.pkgClass.1.oneLine,
    ⟨oneLine_newLocal hm, hm.owner.1.oneLine, hm.group.1.oneLine⟩,
    fun q hq => (newEntry_pinfo hp q hq).plain⟩
  exact (putcvfpfile_line hplain (isFtype_nonspace hf).2 hpath v).1

/-- A line of a package map is recorded in the contents file and read back with its class, path,
link target, owner and group exactly when the reader of the contents file can hold them. -/
theorem pkgmap_recorded_iff (h : gpkgmap (MapConfig.initial getenv) ept₀ s = some (.ok (1, e), s'))
    (hi : e.ftype ≠ 'i') (hp : p.Writable) (hv : v.Wf) (hempty : v.text = [])
    (hroom : (putcvfpfile (newEntry e p) v).2.HasRoom) (stack : Str) (ept : Cfent) :
    (putcvfpfile (newEntry e p) v).1 = 0 ∧
    (ReadsTexts (newEntry e p) (srchcfile stack ept (some ['*'])
      (vfpOpen (putcvfpfile (newEntry e p) v).2.text) none) ↔ e.Recordable) := by
  obtain ⟨hm, path, hc⟩ := gpkgmap_entry (MapConfig.initial_plain getenv) h
  have hf : isFtype e.ftype := hc.ftype.resolve_right hi
  have hread := putcvfpfile_newEntry hm hf hc.path hp hv hempty hroom
  have hline := oneLine_newEntry hm hf hc.path hp
  have hlen := two_le_entryText (newEntry e p) path
  have hnum := newEntry_numbered hm.typed p
  refine ⟨putcvfpfile_newEntry_ret hm hf hc.path hp v, ?_⟩
  constructor
  · rintro ⟨hret, hclass, hpath, hlocal, howner, hgroup⟩
    have habs : path.head? = some '/' := by
      by_contra hno
      exact srchcfile_relative hread hline hlen (fun h => hno ((entryText_head _ _).mp h)) stack ept
        none hret
    have htexts := srchcfile_texts hread hlen ((entryText_head _ _).mpr habs) stack ept none hret
    have hclass' : Led e.pkgClass ∧ e.pkgClass.length < clssiz := by
      have := htexts.pkgClass
      rw [hclass] at this
      exact ⟨this.1.lead, this.2⟩
    have howner' : Led e.ainfo.owner := by
      have := htexts.owner
      rw [howner] at this
      exact this.lead
    have hgroup' : Led e.ainfo.group := by
      have := htexts.group
      rw [hgroup] at this
      exact this.lead
    have htarget : ∀ l, isLink e.ftype → e.ainfo.localPath = some l → Led l := by
      intro l hlink hl
      rw [newEntry_localPath, if_pos hlink, hl] at hlocal
      exact (htexts.localPath l hlocal).lead
    have hw : (newEntry e p).Legible path :=
      hm.legible hc hf hp habs hclass' htarget howner' hgroup'
    have hn : (newEntry e p).Numbered := by
      by_contra hno
      obtain ⟨x, hx⟩ := parseLine_unnumbered hw ⟨hm.typed.mode, hm.typed.major, hm.typed.minor,
        hm.typed.size, hm.typed.cksum, hm.typed.modtime⟩ hno ept
      have hread' : Vfp.Reads _ [] (unlines [] ++ (entryText (newEntry e p) path ++ '\n' :: [])) :=
        hread
      rw [srchcfile_of_parseLine hread' (by simp) hline hw.found.1 hlen hx] at hret
      exact absurd hret (by decide : (-1 : Int) ≠ 1)
    obtain ⟨hdevice, hcontent⟩ := hnum.mp hn
    exact ⟨by rw [hc.path]; exact habs, hclass'.2, hclass'.1, htarget, howner', hgroup', hdevice,
      hcontent⟩
  · intro hr
    have habs : path.head? = some '/' := by
      have := hr.absolute
      rwa [hc.path] at this
    have hw : (newEntry e p).Legible path :=
      hm.legible hc hf hp habs ⟨hr.pkgClass, hr.classLength⟩ hr.target hr.owner hr.group
    have hn := hnum.mpr ⟨hr.device, hr.content⟩
    rw [srchcfile_entry hw hn hread stack ept none]
    have hback := readBack_agrees (newEntry e p) ept
    refine ⟨rfl, hback.pkgClass, hback.path, hback.localPath, ?_⟩
    by_cases hattrs : hasAttrs e.ftype
    · exact (hback.attrs hattrs).2
    · -- a link has no owner and no group, and `gpkgmap` leaves the defaults there
      have hattrs' : hasAttrs e.ftype = false := by simpa using hattrs
      obtain ⟨-, howner, hgroup⟩ := hback.noAttrs hattrs'
      obtain ⟨-, howner', hgroup'⟩ := hm.noAttrs hattrs'
      exact ⟨howner.trans howner'.symm, hgroup.trans hgroup'.symm⟩

end Agreement

def sampleDirLine (pkgClass : Str) : Str :=
  "1 d ".toList ++ pkgClass ++ " /opt 0755 root sys\n".toList

def samplePinfo : Pinfo := ⟨nul, "SUNWcsr".toList, 0, []⟩

theorem samplePinfo_writable : samplePinfo.Writable :=
  ⟨.inl rfl, by decide, fun _ => ⟨'S', "UNWcsr".toList, rfl, rfl⟩, by decide, .inl rfl⟩

def sampleOpt (pkgClass : Str) : Cfent :=
  ⟨1, 'd', pkgClass, -1, some "/opt".toList,
    ⟨none, 0o755, "root".toList, "sys".toList, badMajor, badMinor⟩, ⟨badCont, badCont, badCont⟩,
      0, []⟩

theorem pkgmap_recorded_none :
    ReadsTexts (newEntry (sampleOpt "none".toList) samplePinfo) (srchcfile [] zeroEntry (some ['*'])
      (vfpOpen (putcvfpfile (newEntry (sampleOpt "none".toList) samplePinfo)
        (vfpAnonymous 160 0 fun _ => nul)).2.text) none) := by
  have hread : gpkgmap (MapConfig.initial fun _ => none) zeroEntry (sampleDirLine "none".toList) =
      some (.ok (1, sampleOpt "none".toList), []) := by decide +kernel
  refine (pkgmap_recorded_iff hread (by decide) samplePinfo_writable
    (vfpAnonymous_wf 160 0 _ (by decide)) rfl (by decide +kernel) [] zeroEntry).2.mpr ?_
  exact ⟨rfl, by decide, ⟨'n', "one".toList, rfl, rfl⟩, nofun, ⟨'r', "oot".toList, rfl, rfl⟩,
    ⟨'s', "ys".toList, rfl, rfl⟩, nofun, nofun⟩

/-- A class of 64 characters is accepted in the package map and makes the contents
file unreadable. -/
theorem pkgmap_recorded_long_class :
    gpkgmap (MapConfig.initial fun _ => none) zeroEntry (sampleDirLine (List.replicate 64 'c')) =
      some (.ok (1, sampleOpt (List.replicate 64 'c')), []) ∧
    (putcvfpfile (newEntry (sampleOpt (List.replicate 64 'c')) samplePinfo)
      (vfpAnonymous 160 0 fun _ => nul)).2.HasRoom ∧
    ¬ ReadsTexts (newEntry (sampleOpt (List.replicate 64 'c')) samplePinfo)
      (srchcfile [] zeroEntry (some ['*'])
        (vfpOpen (putcvfpfile (newEntry (sampleOpt (List.replicate 64 'c')) samplePinfo)
          (vfpAnonymous 160 0 fun _ => nul)).2.text) none) := by
  refine ⟨by decide +kernel, by decide +kernel, fun h => ?_⟩
  exact absurd h.1 (by decide +kernel)

end Pkgtools
