import Pkgtools.PlainEntry
import Pkgtools.ScanContents

namespace Pkgtools
open CLib
set_option autoImplicit true

/-- A word of a line: not empty, with no white space and no NUL. -/
structure Word (s : Str) : Prop where
  nonempty : s ≠ []
  nonspace : ∀ c ∈ s, isspace c = false
  nulFree : NulFree s

/-- A string that is read back as it was written: it does not start with white space and has no
separator of words. -/
structure Tok (s : Str) : Prop where
  lead : ∃ c t, s = c :: t ∧ isspace c = false
  chars : ∀ c ∈ s, isWordSep c = false

def Delimited : Str → Prop
  | [] => True
  | c :: _ => c = ' '

section Readers

theorem takeWhile_delimited {p : Char → Bool} (hs : ∀ c ∈ s, p c) (hp : p ' ' = false)
    (ht : Delimited t) : (s ++ t).takeWhile p = s := by
  cases t with
  | nil => rw [List.append_nil, List.takeWhile_eq_self_iff.mpr hs]
  | cons d t =>
    obtain rfl : d = ' ' := ht
    exact takeWhile_append_cons hs hp t

theorem dropWhile_isspace (hw : ∀ c ∈ w, isspace c) (hs : ∃ c u, s = c :: u ∧ isspace c = false)
    (t : Str) : (w ++ (s ++ t)).dropWhile isspace = s ++ t := by
  obtain ⟨c, u, rfl, hc⟩ := hs
  exact dropWhile_append_cons hw hc (u ++ t)

theorem exists_lead (hs : s ≠ []) (hn : ∀ c ∈ s, isspace c = false) :
    ∃ c u, s = c :: u ∧ isspace c = false := by
  obtain ⟨c, u, rfl⟩ := List.exists_cons_of_ne_nil hs
  exact ⟨c, u, rfl, hn c List.mem_cons_self⟩

theorem isWordSep_of_nonspace (h : isspace c = false) (hn : c ≠ nul) : isWordSep c = false := by
  simp only [isspace, Bool.or_eq_false_iff] at h
  simp only [isWordSep, Bool.or_eq_false_iff, beq_eq_false_iff_ne]
  exact ⟨⟨⟨by simpa using h.1.1.1.1.1, by simpa using h.1.1.1.1.2⟩, by simpa using h.1.1.1.2⟩, hn⟩

theorem Word.tok (h : Word s) : Tok s :=
  ⟨exists_lead h.nonempty h.nonspace,
    fun c hc => isWordSep_of_nonspace (h.nonspace c hc) fun he => h.nulFree (he ▸ hc)⟩

theorem Tok.not_sep (h : Tok s) : ∀ c ∈ s, (!isWordSep c) = true := by
  intro c hc
  rw [h.chars c hc]
  rfl

theorem getstr_token (hw : ∀ c ∈ w, isspace c) (hs : ∃ c u, s = c :: u ∧ isspace c = false)
    (hsep : (s ++ t).takeWhile (fun c => !sep c) = s) (hlen : s.length < n) :
    lineReaders.getstr n sep (some (w ++ (s ++ t))) = some ((0, some s), some t) := by
  simp only [lineReaders, Option.bind_some, dropWhile_isspace hw hs]
  obtain ⟨c, u, hcu, -⟩ := hs
  cases hst : s ++ t with
  | nil =>
    rw [hcu] at hst
    cases hst
  | cons c M =>
    simp only [← hst, hsep, if_pos hlen, List.drop_left]

theorem getstr_word (h : Tok s) (hlen : s.length < n) (ht : Delimited t)
    (hw : ∀ c ∈ w, isspace c) :
    lineReaders.getstr n isWordSep (some (w ++ (s ++ t))) = some ((0, some s), some t) :=
  getstr_token hw h.lead (takeWhile_delimited h.not_sep rfl ht) hlen

theorem blank_isspace : ∀ c ∈ [' '], isspace c := by decide

theorem strField_word (h : Tok s) (hlen : s.length < n) (ht : Delimited t)
    (store : Str → Cfent → Cfent) (errstr : String) (ept : Cfent) :
    strField lineReaders n store errstr ept (some (' ' :: (s ++ t))) =
      some (.ok (store s ept), some t) := by
  have hread : lineReaders.getstr n isWordSep (some (' ' :: (s ++ t))) =
      some ((0, some s), some t) :=
    getstr_word h hlen ht blank_isspace
  rw [strField, Parse.bind_ok (Parse.prim_some hread)]
  rfl

theorem getnum_digits (hd : ∀ c ∈ s, c.isDigit) (hs : s ≠ []) (ht : Delimited t) (base bad : Int) :
    lineReaders.getnum base bad (some (' ' :: (s ++ t))) =
      some ((false, some (digitsValue base s)), some t) := by
  have hdrop := dropWhile_isspace blank_isspace
    (exists_lead hs fun c hc => isspace_of_isDigit (hd c hc)) t
  simp only [List.singleton_append] at hdrop
  have htake := takeWhile_delimited hd (by decide) ht
  simp only [lineReaders, Option.bind_some, hdrop]
  cases s with
  | nil => exact absurd rfl hs
  | cons c s =>
    have hc := hd c List.mem_cons_self
    have hq : c ≠ '?' := by
      rintro rfl
      exact absurd hc (by decide)
    rw [List.cons_append] at htake ⊢
    simp only [if_neg hq, hc, Bool.true_eq_false, if_false, htake]
    rw [← List.cons_append, List.drop_left]

/-- A number in range, or the sentinel that stands for none. -/
def InRange (w : Nat) (n bad : Int) : Prop := 0 ≤ n ∧ n < 2 ^ (w - 1) ∨ n = bad

theorem numField_text (h : InRange 64 n bad) (ht : Delimited t) (store : Int → Cfent → Cfent)
    (errstr : String) (ept : Cfent) :
    numField lineReaders 10 bad store errstr ept (some (' ' :: (numText n bad ++ t))) =
      some (.ok (store n ept), some t) := by
  have hread : lineReaders.getnum 10 bad (some (' ' :: (numText n bad ++ t))) =
      some ((false, some n), some t) := by
    rw [numText]
    split
    · rename_i he
      rw [he]
      rfl
    · rename_i he
      obtain ⟨h₀, h₁⟩ := h.resolve_right he
      rw [getnum_digits (fmtD_isDigit h₀) (fmtD_ne_nil n) ht, digitsValue_fmtD h₀ h₁]
  rw [numField, Parse.bind_ok (Parse.prim_some hread)]
  rfl

theorem modeField_text (h : mode < 2 ^ 16) (ht : Delimited t) (errstr : String) (ept : Cfent) :
    numField lineReaders 8 badMode storeMode errstr ept (some (' ' :: (modeText mode ++ t))) =
      some (.ok (storeMode mode ept), some t) := by
  have hread : lineReaders.getnum 8 badMode (some (' ' :: (modeText mode ++ t))) =
      some ((false, some (mode : Int)), some t) := by
    rw [modeText]
    split
    · rename_i he
      rw [he]
      rfl
    · rw [getnum_digits (fmtO4_isDigit mode) (fmtO4_ne_nil mode) ht,
        digitsValue_fmtO4 (Nat.lt_trans h (by decide))]
  rw [numField, Parse.bind_ok (Parse.prim_some hread)]
  rfl

end Readers

/-- A package that can be written to a line and read back: its status and name make a word, and
without a status the name does not start with the character of one. -/
structure Pinfo.Writable (p : Pinfo) : Prop where
  status : p.status = nul ∨ isStatus p.status
  pkg : ∀ c ∈ p.pkg, isspace c = false ∧ isPkgNameSep c = false
  named : p.status = nul → ∃ c name, p.pkg = c :: name ∧ isStatus c = false
  fits : (if p.status ≠ nul then [p.status] else []).length + p.pkg.length ≤ pkgsiz
  aclass : p.aclass = [] ∨ Word p.aclass ∧ p.aclass.length ≤ clssiz

structure Cfent.Writable (e : Cfent) (path : Str) : Prop where
  volno : e.volno = 0
  ftype : isFtype e.ftype
  named : e.path = some path
  absolute : path.head? = some '/'
  pathChars : ∀ c ∈ path, isPkgPathSep c = false
  pathLength : path.length < pathMax
  linked : isLink e.ftype ↔ e.ainfo.localPath.isSome
  localPath : ∀ l, e.ainfo.localPath = some l → Word l ∧ l.length < pathMax
  pkgClass : Word e.pkgClass ∧ e.pkgClass.length < clssiz
  mode : e.ainfo.mode < 2 ^ 16
  owner : Word e.ainfo.owner ∧ e.ainfo.owner.length ≤ atrsiz
  group : Word e.ainfo.group ∧ e.ainfo.group.length ≤ atrsiz
  major : InRange 32 e.ainfo.major badMajor
  minor : InRange 32 e.ainfo.minor badMinor
  size : InRange 64 e.cinfo.size badCont
  cksum : InRange 64 e.cinfo.cksum badCont
  modtime : InRange 64 e.cinfo.modtime badCont
  packaged : e.pinfo ≠ []
  pinfo : ∀ p ∈ e.pinfo, p.Writable
  npkgs : e.npkgs = wrap 16 e.pinfo.length

/-- The strings of an entry are read back from its line, and a link has its target. -/
structure Cfent.Legible (e : Cfent) (path : Str) : Prop where
  ftype : isFtype e.ftype
  named : e.path = some path
  absolute : path.head? = some '/'
  pathChars : ∀ c ∈ path, isPkgPathSep c = false
  pathLength : path.length < pathMax
  linked : isLink e.ftype → e.ainfo.localPath.isSome
  localPath : ∀ l, e.ainfo.localPath = some l → Tok l ∧ l.length < pathMax
  pkgClass : Tok e.pkgClass ∧ e.pkgClass.length < clssiz
  mode : e.ainfo.mode < 2 ^ 16
  owner : hasAttrs e.ftype → Tok e.ainfo.owner ∧ e.ainfo.owner.length ≤ atrsiz
  group : hasAttrs e.ftype → Tok e.ainfo.group ∧ e.ainfo.group.length ≤ atrsiz
  packaged : e.pinfo ≠ []
  pinfo : ∀ p ∈ e.pinfo, p.Writable
  npkgs : e.npkgs = wrap 16 e.pinfo.length

structure Cfent.Numbered (e : Cfent) : Prop where
  device : isDevice e.ftype →
    InRange 32 e.ainfo.major badMajor ∧ InRange 32 e.ainfo.minor badMinor
  content : hasContent e.ftype → InRange 64 e.cinfo.size badCont ∧
    InRange 64 e.cinfo.cksum badCont ∧ InRange 64 e.cinfo.modtime badCont

theorem Cfent.Writable.legible {e : Cfent} {path : Str} (hw : e.Writable path) :
    e.Legible path where
  ftype := hw.ftype
  named := hw.named
  absolute := hw.absolute
  pathChars := hw.pathChars
  pathLength := hw.pathLength
  linked := hw.linked.mp
  localPath := fun l hl => ⟨(hw.localPath l hl).1.tok, (hw.localPath l hl).2⟩
  pkgClass := ⟨hw.pkgClass.1.tok, hw.pkgClass.2⟩
  mode := hw.mode
  owner := fun _ => ⟨hw.owner.1.tok, hw.owner.2⟩
  group := fun _ => ⟨hw.group.1.tok, hw.group.2⟩
  packaged := hw.packaged
  pinfo := hw.pinfo
  npkgs := hw.npkgs

theorem Cfent.Writable.numbered {e : Cfent} {path : Str} (hw : e.Writable path) : e.Numbered :=
  ⟨fun _ => ⟨hw.major, hw.minor⟩, fun _ => ⟨hw.size, hw.cksum, hw.modtime⟩⟩

/-- The fields of `e` that its line holds, filled into an entry. -/
def fillDevices (e ept : Cfent) : Cfent :=
  if isDevice e.ftype then
    { ept with ainfo := { ept.ainfo with major := e.ainfo.major, minor := e.ainfo.minor } }
  else ept

def fillAttrs (e ept : Cfent) : Cfent :=
  if hasAttrs e.ftype then
    { ept with ainfo := { ept.ainfo with
        mode := e.ainfo.mode, owner := e.ainfo.owner, group := e.ainfo.group } }
  else ept

def fillContent (e ept : Cfent) : Cfent :=
  if hasContent e.ftype then { ept with cinfo := e.cinfo } else ept

/-- A package as it is read: any edit flag is read as 1. -/
def Pinfo.readBack (p : Pinfo) : Pinfo := { p with editflag := if p.editflag ≠ 0 then 1 else 0 }

/-- The entry that is read from the line of `e` into a structure that held `ept`. -/
def Cfent.readBack (e ept : Cfent) : Cfent :=
  let ept := { initEntry ept with
    ftype := e.ftype
    pkgClass := e.pkgClass
    path := e.path
    ainfo := { (initEntry ept).ainfo with localPath := e.ainfo.localPath } }
  { fillContent e (fillAttrs e (fillDevices e ept)) with
    npkgs := e.npkgs
    pinfo := e.pinfo.map Pinfo.readBack }

section Fields
variable {e ept : Cfent} {p : Pinfo} {path t : Str}

theorem InRange.wrap32 (h : InRange 32 n (-1)) : wrap 32 n = n := by
  rcases h with ⟨h₀, h₁⟩ | rfl
  · exact wrap_of_range (by decide) h₀ h₁
  · rfl

theorem InRange.mono (h : InRange 32 n bad) : InRange 64 n bad := by
  rcases h with ⟨h₀, h₁⟩ | h
  · exact .inl ⟨h₀, Int.lt_trans h₁ (by decide)⟩
  · exact .inr h

theorem delimited_ite {p : Prop} [Decidable p] (s : Str) (ht : Delimited t) :
    Delimited ((if p then ' ' :: s else []) ++ t) := by
  split
  · rfl
  · exact ht

theorem readDevice_text (hw : e.Numbered) (he : ept.ftype = e.ftype) (ht : Delimited t) :
    Parse.onlyIf (isDevice ept.ftype) (readDevice lineReaders) ept (some (deviceText e ++ t)) =
      some (.ok (fillDevices e ept), some t) := by
  rw [Parse.onlyIf, deviceText, fillDevices, ← he]
  split
  · rename_i hd
    obtain ⟨hmajor, hminor⟩ := hw.device (he ▸ hd)
    have h₁ := numField_text hmajor.mono (t := ' ' :: (numText e.ainfo.minor badMinor ++ t)) rfl
      storeMajor "unable to read major/minor device numbers"
      (storeMinor badMinor (storeMajor badMajor ept))
    have h₂ := numField_text hminor.mono ht storeMinor "unable to read major/minor device numbers"
      (storeMajor e.ainfo.major (storeMinor badMinor (storeMajor badMajor ept)))
    simp only [List.append_assoc, List.cons_append]
    rw [readDevice, Parse.bind_ok h₁, h₂]
    simp only [storeMajor, storeMinor, hmajor.wrap32, hminor.wrap32]
  · rfl

theorem readAttrs_text (hw : e.Legible path) (he : ept.ftype = e.ftype) (ht : Delimited t) :
    Parse.onlyIf (hasAttrs ept.ftype) (readAttrs lineReaders) ept (some (attrText e ++ t)) =
      some (.ok (fillAttrs e ept), some t) := by
  rw [Parse.onlyIf, attrText, fillAttrs, ← he]
  split
  · rename_i ha
    have howner := hw.owner (he ▸ ha)
    have hgroup := hw.group (he ▸ ha)
    have h₁ := modeField_text hw.mode
      (t := ' ' :: (e.ainfo.owner ++ ' ' :: (e.ainfo.group ++ t))) rfl
      "unable to read mode/owner/group" ept
    have h₂ := fun ept => strField_word howner.1 (Nat.lt_succ_of_le howner.2)
      (t := ' ' :: (e.ainfo.group ++ t)) rfl storeOwner "unable to read mode/owner/group" ept
    have h₃ := fun ept => strField_word hgroup.1 (Nat.lt_succ_of_le hgroup.2) ht storeGroup
      "unable to read mode/owner/group" ept
    simp only [List.append_assoc, List.cons_append]
    rw [readAttrs, Parse.bind_ok h₁, Parse.bind_ok (h₂ _), h₃]
    have hm : ((e.ainfo.mode : Int) % 2 ^ 16).toNat = e.ainfo.mode := by
      have := hw.mode
      omega
    simp only [storeMode, storeOwner, storeGroup, hm]
  · rfl

theorem readContent_text (hw : e.Numbered) (hf : isFtype e.ftype) (he : ept.ftype = e.ftype)
    (ht : Delimited t) :
    Parse.onlyIf (hasContent ept.ftype ∨ ept.ftype = 'i') (readContent lineReaders) ept
      (some (contentText e ++ t)) = some (.ok (fillContent e ept), some t) := by
  have hi : ept.ftype ≠ 'i' := by
    intro h
    rw [← he, h] at hf
    exact absurd hf (by decide)
  simp only [Parse.onlyIf, contentText, fillContent, ← he, hi, or_false]
  split
  · rename_i hc
    obtain ⟨hsize, hcksum, hmodtime⟩ := hw.content (he ▸ hc)
    have h₁ := numField_text hsize
      (t := ' ' :: (numText e.cinfo.cksum badCont ++ ' ' :: (numText e.cinfo.modtime badCont ++ t)))
      rfl storeSize "unable to read content info" ept
    have h₂ := fun ept => numField_text hcksum
      (t := ' ' :: (numText e.cinfo.modtime badCont ++ t)) rfl storeCksum
      "unable to read content info" ept
    have h₃ := fun ept => numField_text hmodtime ht storeModtime "unable to read content info" ept
    simp only [List.append_assoc, List.cons_append]
    rw [readContent, Parse.bind_ok h₁, Parse.bind_ok (h₂ _), h₃]
    rfl
  · rfl

def Pinfo.word (p : Pinfo) : Str := (if p.status ≠ nul then [p.status] else []) ++ p.pkg

def Pinfo.flagText (p : Pinfo) : Str := if p.editflag ≠ 0 then ['\\'] else []

def Pinfo.classText (p : Pinfo) : Str := if p.aclass ≠ [] then ':' :: p.aclass else []

theorem pinfoText_eq (p : Pinfo) :
    pinfoText p = ' ' :: (p.word ++ (p.flagText ++ p.classText)) := by
  simp only [pinfoText, Pinfo.word, Pinfo.flagText, Pinfo.classText, List.append_assoc]

theorem isStatus_nonsep (h : isStatus c) : isspace c = false ∧ isPkgNameSep c = false := by
  have hall : ∀ c ∈ "-+*~!%".toList, isspace c = false ∧ isPkgNameSep c = false := by decide
  exact hall c (of_decide_eq_true h)

theorem Pinfo.Writable.word_chars (h : p.Writable) :
    ∀ c ∈ p.word, isspace c = false ∧ isPkgNameSep c = false := by
  intro c hc
  rcases List.mem_append.mp hc with hc | hc
  · split at hc
    · rename_i hs
      rw [List.mem_singleton.mp hc]
      exact isStatus_nonsep (h.status.resolve_left hs)
    · cases hc
  · exact h.pkg c hc

theorem Pinfo.Writable.word_ne_nil (h : p.Writable) : p.word ≠ [] := by
  rw [Pinfo.word]
  split
  · exact List.cons_ne_nil _ _
  · rename_i hs
    obtain ⟨c, name, hn, -⟩ := h.named (not_not.mp hs)
    rw [hn]
    exact List.cons_ne_nil _ _

/-- The status is told from the name by its character. -/
theorem Pinfo.Writable.newPinfo_word (h : p.Writable) :
    newPinfo p.word = ⟨p.status, p.pkg, 0, []⟩ := by
  rw [Pinfo.word]
  by_cases hs : p.status = nul
  · obtain ⟨c, name, hn, hc⟩ := h.named hs
    simp only [hs, ne_eq, not_true_eq_false, if_false, List.nil_append, hn, newPinfo, hc]
    rfl
  · have hst := h.status.resolve_left hs
    simp only [ne_eq, hs, not_false_eq_true, if_true, List.singleton_append, newPinfo, hst]

/-- The next package, or the end of the line, is behind a blank or a newline. -/
def endOf : Str → Char × Option Str
  | [] => ('\n', none)
  | c :: t => (c, some t)

theorem getc_endOf (t : Str) : lineReaders.getc (some t) = some ((endOf t).1, (endOf t).2) := by
  cases t with
  | nil => rfl
  | cons c t => rfl

theorem endOf_ne (ht : Delimited t) (hc : c ≠ ' ' ∧ c ≠ '\n') : (endOf t).1 ≠ c := by
  cases t with
  | nil => exact hc.2.symm
  | cons d t =>
    obtain rfl : d = ' ' := ht
    exact hc.1.symm

theorem readEditflag_text (p : Pinfo) (hs : (endOf s).1 ≠ '\\') (status : Char) (pkg : Str) :
    Parse.onlyIf ((endOf (p.flagText ++ s)).1 = '\\') (readEditflag lineReaders)
      ((endOf (p.flagText ++ s)).1, ⟨status, pkg, 0, []⟩) (endOf (p.flagText ++ s)).2 =
      some (.ok ((endOf s).1, ⟨status, pkg, p.readBack.editflag, []⟩), (endOf s).2) := by
  by_cases he : p.editflag = 0
  · have hf : p.flagText = [] := if_neg (not_not.mpr he)
    have hr : p.readBack.editflag = 0 := if_neg (not_not.mpr he)
    rw [hf, hr, List.nil_append, Parse.onlyIf_neg hs]
    rfl
  · have hf : p.flagText = ['\\'] := if_pos he
    have hr : p.readBack.editflag = 1 := if_pos he
    rw [hf, hr, Parse.onlyIf_pos (p := (endOf (['\\'] ++ s)).1 = '\\') rfl, readEditflag]
    exact Parse.bind_ok (Parse.prim_some (getc_endOf s))

theorem readAclass_text (ha : p.aclass = [] ∨ Word p.aclass ∧ p.aclass.length ≤ clssiz)
    (ht : Delimited t) (pinfo : Pinfo) (hp : pinfo.aclass = []) (classname : Str) :
    ∃ classname', Parse.onlyIf ((endOf (p.classText ++ t)).1 = ':') (readAclass lineReaders)
      ((endOf (p.classText ++ t)).1, pinfo, classname) (endOf (p.classText ++ t)).2 =
      some (.ok ((endOf t).1, { pinfo with aclass := p.aclass }, classname'), (endOf t).2) := by
  by_cases hnil : p.aclass = []
  · have hc : p.classText = [] := if_neg (not_not.mpr hnil)
    refine ⟨classname, ?_⟩
    rw [hc, List.nil_append, Parse.onlyIf_neg (endOf_ne ht (by decide)), hnil, ← hp]
    rfl
  · obtain ⟨hw, hlen⟩ := ha.resolve_left hnil
    have hc : p.classText = ':' :: p.aclass := if_pos hnil
    have hread : lineReaders.getstr (clssiz + 1) isWordSep (some (p.aclass ++ t)) =
        some ((0, some p.aclass), some t) :=
      getstr_word (w := []) hw.tok (Nat.lt_succ_of_le hlen) ht (by simp)
    have hcopy : strlcpy (atrsiz + 1) p.aclass = p.aclass := List.take_of_length_le hlen
    refine ⟨p.aclass, ?_⟩
    rw [hc, Parse.onlyIf_pos (p := (endOf (':' :: p.aclass ++ t)).1 = ':') rfl, readAclass]
    refine (Parse.bind_ok (Parse.prim_some hread)).trans ?_
    simp only [Option.getD_some, hcopy]
    exact Parse.bind_ok (Parse.prim_some (getc_endOf t))

theorem readPkgSuffix_text (h : p.Writable) (ht : Delimited t) (classname : Str) : ∃ classname',
    readPkgSuffix lineReaders ⟨p.status, p.pkg, 0, []⟩ classname
      (some (p.flagText ++ (p.classText ++ t))) =
      some (.ok ((endOf t).1, p.readBack, classname'), (endOf t).2) := by
  have hne : (endOf (p.classText ++ t)).1 ≠ '\\' := by
    rw [Pinfo.classText]
    split
    · exact (by decide : ':' ≠ '\\')
    · exact endOf_ne ht (by decide)
  obtain ⟨classname', hclass⟩ := readAclass_text h.aclass ht
    ⟨p.status, p.pkg, p.readBack.editflag, []⟩ rfl classname
  refine ⟨classname', ?_⟩
  rw [readPkgSuffix, Parse.bind_ok (Parse.prim_some (getc_endOf _)),
    Parse.bind_ok (readEditflag_text p hne p.status p.pkg)]
  exact hclass

theorem delimited_flatMap (ps : List Pinfo) : Delimited (ps.flatMap pinfoText) := by
  cases ps with
  | nil => trivial
  | cons p ps =>
    rw [List.flatMap_cons, pinfoText_eq]
    exact rfl

def pkgsText (p : Pinfo) (ps : List Pinfo) : Str :=
  p.word ++ (p.flagText ++ (p.classText ++ ps.flatMap pinfoText))

theorem flatMap_pinfoText (p : Pinfo) (ps : List Pinfo) :
    (p :: ps).flatMap pinfoText = ' ' :: pkgsText p ps := by
  simp only [List.flatMap_cons, pinfoText_eq, pkgsText, List.cons_append, List.append_assoc]

theorem takeWhile_word (h : p.Writable) (ht : Delimited t) :
    (p.word ++ (p.flagText ++ (p.classText ++ t))).takeWhile (fun c => !isPkgNameSep c) =
      p.word := by
  have hword : ∀ c ∈ p.word, (!isPkgNameSep c) = true := by
    intro c hc
    rw [(h.word_chars c hc).2]
    rfl
  rw [Pinfo.flagText, Pinfo.classText]
  split
  · exact takeWhile_append_cons hword (by decide) _
  · split
    · exact takeWhile_append_cons hword (by decide) _
    · exact takeWhile_delimited hword (by decide) ht

def addPackage (p : Pinfo) (ept : Cfent) : Cfent :=
  { ept with npkgs := wrap 16 (ept.npkgs + 1), pinfo := ept.pinfo ++ [p.readBack] }

theorem readPackages_step (h : p.Writable) (hw : ∀ c ∈ w, isspace c) (ps : List Pinfo) (f : Nat)
    (classname : Str) (ept : Cfent) : ∃ classname',
    readPackages lineReaders (f + 1) classname ept (some (w ++ pkgsText p ps)) =
      match ps with
      | [] => some (.ok (addPackage p ept), none)
      | p' :: ps =>
        readPackages lineReaders f classname' (addPackage p ept) (some (pkgsText p' ps)) := by
  have ht := delimited_flatMap ps
  have hfits : p.word.length < pkgsiz + 1 := by
    rw [Pinfo.word, List.length_append]
    exact Nat.lt_succ_of_le h.fits
  have hread : lineReaders.getstr (pkgsiz + 1) isPkgNameSep (some (w ++ pkgsText p ps)) =
      some ((0, some p.word), some (p.flagText ++ (p.classText ++ ps.flatMap pinfoText))) :=
    getstr_token hw (exists_lead h.word_ne_nil fun c hc => (h.word_chars c hc).1)
      (takeWhile_word h ht) hfits
  obtain ⟨classname', hsuffix⟩ := readPkgSuffix_text h ht classname
  refine ⟨classname', ?_⟩
  have h₀ : ¬ ((0 : Int) < 0) := by decide
  rw [readPackages, Parse.bind_ok (Parse.prim_some hread), readPackage, if_neg h₀, if_neg h₀,
    Option.getD_some, h.newPinfo_word, Parse.bind_ok hsuffix]
  cases ps with
  | nil => rfl
  | cons p' ps =>
    rw [flatMap_pinfoText]
    rfl

theorem readPackages_text (ps : List Pinfo) (p : Pinfo) (hps : ∀ x ∈ p :: ps, x.Writable)
    (hw : ∀ c ∈ w, isspace c) (hf : ps.length < f) (classname : Str) (ept : Cfent)
    (k : Int) (hk : ept.npkgs = wrap 16 k) :
    readPackages lineReaders f classname ept (some (w ++ pkgsText p ps)) =
      some (.ok { ept with
        npkgs := wrap 16 (k + (ps.length + 1 : Nat))
        pinfo := ept.pinfo ++ (p :: ps).map Pinfo.readBack }, none) := by
  induction ps generalizing p w f classname ept k with
  | nil =>
    obtain ⟨f, rfl⟩ : ∃ g, f = g + 1 := ⟨f - 1, by omega⟩
    obtain ⟨classname', hstep⟩ := readPackages_step (hps p List.mem_cons_self) hw [] f classname ept
    rw [hstep, addPackage, hk, wrap_wrap_add]
    rfl
  | cons p' ps ih =>
    obtain ⟨f, rfl⟩ : ∃ g, f = g + 1 := ⟨f - 1, by omega⟩
    obtain ⟨classname', hstep⟩ :=
      readPackages_step (hps p List.mem_cons_self) hw (p' :: ps) f classname ept
    have hnext : (addPackage p ept).npkgs = wrap 16 (k + 1) := by
      rw [addPackage, hk, wrap_wrap_add]
    have hlen : ps.length < f := by
      rw [List.length_cons] at hf
      omega
    have htail := ih p' (fun x hx => hps x (List.mem_cons_of_mem _ hx)) (w := []) (by simp) hlen
      classname' (addPackage p ept) (k + 1) hnext
    have hsum : k + 1 + (ps.length + 1 : Nat) = k + ((p' :: ps).length + 1 : Nat) := by
      rw [List.length_cons]
      omega
    rw [List.nil_append] at htail
    refine hstep.trans (htail.trans ?_)
    simp only [hsum, addPackage, List.map_cons, List.append_assoc, List.singleton_append]

theorem length_le_flatMap (ps : List Pinfo) : ps.length ≤ (ps.flatMap pinfoText).length := by
  induction ps with
  | nil => exact Nat.le_refl _
  | cons p ps ih =>
    rw [List.flatMap_cons, pinfoText_eq, List.length_append, List.length_cons, List.length_cons]
    omega

end Fields

section Entry
variable {e ept : Cfent} {path : Str}

def fieldsText (e : Cfent) : Str :=
  deviceText e ++ (attrText e ++ (contentText e ++ e.pinfo.flatMap pinfoText))

def typeText (e : Cfent) : Str := e.ftype :: ' ' :: (e.pkgClass ++ fieldsText e)

theorem delimited_fields (e : Cfent) : Delimited (fieldsText e) ∧
    Delimited (attrText e ++ (contentText e ++ e.pinfo.flatMap pinfoText)) ∧
    Delimited (contentText e ++ e.pinfo.flatMap pinfoText) := by
  have h₁ : Delimited (contentText e ++ e.pinfo.flatMap pinfoText) :=
    delimited_ite _ (delimited_flatMap _)
  have h₂ : Delimited (attrText e ++ (contentText e ++ e.pinfo.flatMap pinfoText)) :=
    delimited_ite _ h₁
  exact ⟨delimited_ite _ h₂, h₂, h₁⟩

theorem entryText_eq (e : Cfent) (path : Str) : entryText e path =
    path ++ (match e.ainfo.localPath with
      | some l => '=' :: (l ++ ' ' :: typeText e)
      | none => ' ' :: typeText e) := by
  cases h : e.ainfo.localPath with
  | none =>
    simp only [entryText, h, typeText, fieldsText, List.append_assoc, List.cons_append,
      List.append_nil]
  | some l =>
    simp only [entryText, h, typeText, fieldsText, List.append_assoc, List.cons_append]

theorem isFtype_nonspace (h : isFtype c) : isspace c = false ∧ c ≠ 'i' := by
  have hall : ∀ c ∈ "?fvelspcbdx".toList, isspace c = false ∧ c ≠ 'i' := by decide
  exact hall c (of_decide_eq_true h)

theorem readType_text (hw : e.Legible path) (hs : ∀ c ∈ w, isspace c) (ept : Cfent) :
    readType lineReaders ept (some (w ++ typeText e)) =
      some (.ok { ept with ftype := e.ftype, pkgClass := e.pkgClass }, some (fieldsText e)) := by
  have hdrop : (w ++ typeText e).dropWhile isspace = typeText e :=
    dropWhile_append_cons hs (isFtype_nonspace hw.ftype).1 _
  have hread : lineReaders.getcNonspace (some (w ++ typeText e)) =
      some (e.ftype, some (' ' :: (e.pkgClass ++ fieldsText e))) := by
    simp only [lineReaders, Option.bind_some, hdrop]
    rfl
  rw [readType, Parse.bind_ok (Parse.prim_some hread), if_pos hw.ftype,
    strField_word hw.pkgClass.1 hw.pkgClass.2 (delimited_fields e).1]

theorem fill_frame (e ept : Cfent) :
    (fillDevices e ept).ftype = ept.ftype ∧ (fillAttrs e ept).ftype = ept.ftype ∧
    (fillContent e ept).ftype = ept.ftype ∧
    (fillContent e (fillAttrs e (fillDevices e ept))).npkgs = ept.npkgs ∧
    (fillContent e (fillAttrs e (fillDevices e ept))).pinfo = ept.pinfo := by
  simp only [fillContent, fillAttrs, fillDevices]
  split <;> split <;> split <;> simp

/-- The device numbers, attributes, contents and packages of an entry are read back. -/
theorem readFields_text (hw : e.Legible path) (hc : e.Numbered) (hf : e.pinfo.length ≤ f)
    (classname : Str)
    (ht : ept.ftype = e.ftype) (hl : ept.ainfo.localPath = e.ainfo.localPath)
    (hn : ept.npkgs = 0) (hp : ept.pinfo = []) :
    readFields lineReaders f classname ept (some (fieldsText e)) =
      some (.ok { fillContent e (fillAttrs e (fillDevices e ept)) with
        npkgs := e.npkgs
        pinfo := e.pinfo.map Pinfo.readBack }, none) := by
  have hlink : ¬ (isLink ept.ftype = true ∧ ept.ainfo.localPath = none) := by
    rintro ⟨h₁, h₂⟩
    have := hw.linked (ht ▸ h₁)
    rw [← hl, h₂] at this
    cases this
  obtain ⟨hd₁, hd₂, hd₃⟩ := delimited_fields e
  have ht₁ : (fillDevices e ept).ftype = e.ftype := (fill_frame e ept).1.trans ht
  have ht₂ : (fillAttrs e (fillDevices e ept)).ftype = e.ftype := (fill_frame e _).2.1.trans ht₁
  have ht₃ : (fillContent e (fillAttrs e (fillDevices e ept))).ftype = e.ftype :=
    (fill_frame e _).2.2.1.trans ht₂
  obtain ⟨-, -, -, hn', hp'⟩ := fill_frame e ept
  have hi : (fillContent e (fillAttrs e (fillDevices e ept))).ftype ≠ 'i' := by
    rw [ht₃]
    exact (isFtype_nonspace hw.ftype).2
  rw [readFields, if_neg hlink, fieldsText, Parse.bind_ok (readDevice_text hc ht hd₂),
    Parse.bind_ok (readAttrs_text hw ht₁ hd₃),
    Parse.bind_ok (readContent_text hc hw.ftype ht₂ (delimited_flatMap _)), readLast, if_neg hi]
  cases hps : e.pinfo with
  | nil => exact absurd hps hw.packaged
  | cons p ps =>
    have hlen : ps.length < f := by
      rw [hps, List.length_cons] at hf
      exact hf
    have hread := readPackages_text ps p (by rw [← hps]; exact hw.pinfo) blank_isspace hlen
      classname
      (fillContent e (fillAttrs e (fillDevices e ept))) 0 (by rw [hn', hn]; rfl)
    rw [hp', hp, List.nil_append, Int.zero_add] at hread
    rw [flatMap_pinfoText, hw.npkgs, hps]
    exact hread

theorem linePath_text (h : ∀ c ∈ path, isPkgPathSep c = false) (e : Cfent) :
    linePath (entryText e path) = path := by
  have hpath : ∀ c ∈ path, (!isPkgPathSep c) = true := by
    intro c hc
    rw [h c hc]
    rfl
  rw [entryText_eq, linePath]
  cases e.ainfo.localPath with
  | none => exact takeWhile_append_cons hpath (by decide) _
  | some l => exact takeWhile_append_cons hpath (by decide) _

theorem linePath_entryText (hw : e.Legible path) : linePath (entryText e path) = path :=
  linePath_text hw.pathChars e

theorem readLocal_text (hl : Tok l ∧ l.length < pathMax) (ht : Delimited t) (ept : Cfent) :
    readLocal lineReaders ept (some (l ++ t)) =
      some (.ok { ept with ainfo := { ept.ainfo with localPath := some l } }, some t) := by
  have hread : lineReaders.getstr pathMax isWordSep (some (l ++ t)) = some ((0, some l), some t) :=
    getstr_word (w := []) hl.1 hl.2 ht (by simp)
  rw [readLocal]
  refine Parse.mapError_some (r := .ok _) ?_
  rw [strField, Parse.bind_ok (Parse.prim_some hread)]
  rfl

theorem copyPath_of_short (h : path.length < pathMax) : copyPath path = path :=
  if_neg (Nat.not_lt.mpr (Nat.le_of_lt h))

theorem withPath_entryText (hw : e.Legible path) (ept : Cfent) :
    withPath ept (entryText e path) = { ept with path := e.path } := by
  rw [withPath, linePath_entryText hw, copyPath_of_short hw.pathLength, hw.named]

def Cfent.headBack (e ept : Cfent) : Cfent :=
  { initEntry ept with
    ftype := e.ftype
    pkgClass := e.pkgClass
    path := e.path
    ainfo := { (initEntry ept).ainfo with localPath := e.ainfo.localPath } }

/-- The path, the type and the class of an entry are read back, and the fields behind them are read
next. -/
theorem parseLine_head (hw : e.Legible path) (ept : Cfent) :
    parseLine (initEntry ept) (entryText e path) =
      (readFields lineReaders ((entryText e path).length + 1) [] (e.headBack ept)
        (some (fieldsText e))).map Prod.fst := by
  have hhead : (entryText e path).head? = some '/' := by
    rw [entryText_eq, List.head?_append, hw.absolute]
    rfl
  rw [parseLine, if_pos hhead, linePath_entryText hw, withPath_entryText hw]
  cases hl : e.ainfo.localPath with
  | none =>
    have hdrop : (entryText e path).drop path.length = ' ' :: typeText e := by
      rw [entryText_eq, hl, List.drop_left]
    have htype := readType_text hw (w := []) (by simp) { initEntry ept with path := e.path }
    rw [hdrop, Cfent.headBack, hl]
    exact congrArg (Option.map Prod.fst) (Parse.bind_ok htype)
  | some l =>
    have hdrop : (entryText e path).drop path.length = '=' :: (l ++ ' ' :: typeText e) := by
      rw [entryText_eq, hl, List.drop_left]
    have hlocal := readLocal_text (hw.localPath l hl) (t := ' ' :: typeText e) rfl
      { initEntry ept with path := e.path }
    have htype := readType_text hw blank_isspace { initEntry ept with
      path := e.path, ainfo := { (initEntry ept).ainfo with localPath := some l } }
    rw [hdrop, Cfent.headBack, hl]
    refine congrArg (Option.map Prod.fst) (Eq.trans ?_ (Parse.bind_ok htype))
    exact Parse.bind_ok (f := fun ept => Parse.onlyIf (false = false) (readType lineReaders) ept >>=
      fun ept => readFields lineReaders _ [] ept) hlocal

theorem parseLine_entryText (hw : e.Legible path) (hc : e.Numbered) (ept : Cfent) :
    parseLine (initEntry ept) (entryText e path) = some (.ok (e.readBack ept)) := by
  have hlen : e.pinfo.length ≤ (entryText e path).length + 1 := by
    have := length_le_flatMap e.pinfo
    rw [entryText, List.length_append]
    omega
  have hfields : readFields lineReaders ((entryText e path).length + 1) [] (e.headBack ept)
      (some (fieldsText e)) = some (.ok (e.readBack ept), none) :=
    readFields_text hw hc hlen [] rfl rfl rfl rfl
  rw [parseLine_head hw, hfields]
  rfl

theorem Tok.oneLine (h : Tok s) : OneLine s :=
  oneLine_of_forall h.chars (by decide) (by decide)

theorem oneLine_numText (n bad : Int) : OneLine (numText n bad) := by
  rw [numText]
  split
  · decide
  · exact oneLine_fmtD n

theorem oneLine_modeText (mode : Nat) : OneLine (modeText mode) := by
  rw [modeText]
  split
  · decide
  · exact oneLine_of_isDigit (fmtO4_isDigit mode)

theorem Pinfo.Writable.oneLine (h : p.Writable) : OneLine (pinfoText p) := by
  have hword : OneLine p.word := oneLine_of_forall h.word_chars (by decide) (by decide)
  have hclass : OneLine p.classText := by
    rw [Pinfo.classText]
    split
    · rename_i hne
      exact OneLine.cons (by decide) (h.aclass.resolve_left hne).1.tok.oneLine
    · decide
  rw [pinfoText_eq]
  exact oneLine_field (hword.append (OneLine.append (OneLine.ite (by decide)) hclass))

theorem oneLine_flatMap (ps : List Pinfo) (h : ∀ p ∈ ps, p.Writable) :
    OneLine (ps.flatMap pinfoText) := by
  induction ps with
  | nil => decide
  | cons p ps ih =>
    rw [List.flatMap_cons]
    exact (h p List.mem_cons_self).oneLine.append (ih fun x hx => h x (List.mem_cons_of_mem _ hx))

theorem oneLine_entryText (hpath : OneLine path) (hf : isFtype e.ftype)
    (hlocal : ∀ l, e.ainfo.localPath = some l → OneLine l) (hclass : OneLine e.pkgClass)
    (hnames : hasAttrs e.ftype → OneLine e.ainfo.owner ∧ OneLine e.ainfo.group)
    (hps : ∀ p ∈ e.pinfo, p.Writable) : OneLine (entryText e path) := by
  have hdevices : OneLine (deviceText e) :=
    OneLine.ite ((oneLine_field (oneLine_numText _ _)).append (oneLine_field (oneLine_numText _ _)))
  have hattrs : OneLine (attrText e) := by
    rw [attrText]
    split
    · rename_i ha
      exact ((oneLine_field (oneLine_modeText _)).append
        (oneLine_field (hnames ha).1)).append (oneLine_field (hnames ha).2)
    · exact oneLine_nil
  have hcontent : OneLine (contentText e) :=
    OneLine.ite (((oneLine_field (oneLine_numText _ _)).append
      (oneLine_field (oneLine_numText _ _))).append (oneLine_field (oneLine_numText _ _)))
  have hfields : OneLine (fieldsText e) :=
    hdevices.append (hattrs.append (hcontent.append (oneLine_flatMap _ hps)))
  have htype : OneLine (' ' :: typeText e) := by
    have hc : OneLine [e.ftype] :=
      oneLine_of_forall (p := fun c => isFtype c) (by simpa using hf) (by decide) (by decide)
    exact oneLine_field (hc.append (oneLine_field (hclass.append hfields)))
  rw [entryText_eq]
  cases hl : e.ainfo.localPath with
  | none => exact hpath.append htype
  | some l => exact hpath.append (OneLine.cons (by decide) ((hlocal l hl).append htype))

theorem Cfent.Legible.oneLine (hw : e.Legible path) : OneLine (entryText e path) :=
  oneLine_entryText (oneLine_of_forall hw.pathChars (by decide) (by decide)) hw.ftype
    (fun l hl => (hw.localPath l hl).1.oneLine) hw.pkgClass.1.oneLine
    (fun ha => ⟨(hw.owner ha).1.oneLine, (hw.group ha).1.oneLine⟩) hw.pinfo

theorem Cfent.Legible.found (hw : e.Legible path) :
    isSkipped (entryText e path) = false ∧ 2 ≤ (entryText e path).length := by
  obtain ⟨s, hs⟩ : ∃ s, entryText e path = '/' :: s := by
    have ha := hw.absolute
    cases path with
    | nil => cases ha
    | cons c path =>
      rw [List.head?_cons, Option.some.injEq] at ha
      exact ⟨_, by rw [entryText_eq, ha, List.cons_append]⟩
  refine ⟨by rw [hs]; rfl, ?_⟩
  have hpos : 0 < path.length := by
    have ha := hw.absolute
    cases path with
    | nil => cases ha
    | cons c path => exact Nat.succ_pos _
  rw [entryText_eq, List.length_append]
  cases e.ainfo.localPath with
  | none =>
    simp only [List.length_cons]
    omega
  | some l =>
    simp only [List.length_cons]
    omega

end Entry

/-- A symbolic link whose structure carries a mode. -/
def sampleLink : Cfent :=
  ⟨0, 's', "none".toList, 0, some "/usr/adm".toList,
    ⟨some "../var/adm".toList, 0o644, "root".toList, "sys".toList, 0, 0⟩, ⟨-1, -1, -1⟩, 1,
    [⟨'+', "SUNWcsr".toList, 0, "none".toList⟩]⟩

theorem sampleLink_writable : sampleLink.Writable "/usr/adm".toList where
  volno := rfl
  ftype := rfl
  named := rfl
  absolute := rfl
  pathChars := by decide +kernel
  pathLength := by decide +kernel
  linked := by decide +kernel
  localPath := by
    intro l hl
    rw [← Option.some.inj hl]
    exact ⟨⟨by decide +kernel, by decide +kernel, by decide +kernel⟩, by decide +kernel⟩
  pkgClass := ⟨⟨by decide +kernel, by decide +kernel, by decide +kernel⟩, by decide +kernel⟩
  mode := by decide +kernel
  owner := ⟨⟨by decide +kernel, by decide +kernel, by decide +kernel⟩, by decide +kernel⟩
  group := ⟨⟨by decide +kernel, by decide +kernel, by decide +kernel⟩, by decide +kernel⟩
  major := .inl (by decide +kernel)
  minor := .inl (by decide +kernel)
  size := .inr rfl
  cksum := .inr rfl
  modtime := .inr rfl
  packaged := by decide +kernel
  pinfo := by
    intro p hp
    rw [List.mem_singleton.mp hp]
    exact ⟨.inr rfl, by decide +kernel, fun h => absurd h (by decide), by decide +kernel,
      .inr ⟨⟨by decide +kernel, by decide +kernel, by decide +kernel⟩, by decide +kernel⟩⟩
  npkgs := by decide +kernel

/-- An object that is no link, with the attributes of `sampleLink`. -/
def plainObject (ftype : Char) (path : Str) (cinfo : Cinfo) (pinfo : List Pinfo) : Cfent :=
  { sampleLink with
    ftype := ftype
    path := some path
    ainfo := { sampleLink.ainfo with localPath := none }
    cinfo := cinfo
    npkgs := wrap 16 pinfo.length
    pinfo := pinfo }

theorem plainObject_writable {path : Str} {cinfo : Cinfo} {pinfo : List Pinfo}
    (hftype : isFtype c) (hlink : isLink c = false) (habsolute : path.head? = some '/')
    (hchars : ∀ c ∈ path, isPkgPathSep c = false) (hlen : path.length < pathMax)
    (hcinfo : InRange 64 cinfo.size badCont ∧ InRange 64 cinfo.cksum badCont ∧
      InRange 64 cinfo.modtime badCont) (hne : pinfo ≠ []) (hpinfo : ∀ p ∈ pinfo, p.Writable) :
    (plainObject c path cinfo pinfo).Writable path where
  volno := rfl
  ftype := hftype
  named := rfl
  absolute := habsolute
  pathChars := hchars
  pathLength := hlen
  linked := by simp [plainObject, hlink]
  localPath := nofun
  pkgClass := sampleLink_writable.pkgClass
  mode := sampleLink_writable.mode
  owner := sampleLink_writable.owner
  group := sampleLink_writable.group
  major := sampleLink_writable.major
  minor := sampleLink_writable.minor
  size := hcinfo.1
  cksum := hcinfo.2.1
  modtime := hcinfo.2.2
  packaged := hne
  pinfo := hpinfo
  npkgs := by simp only [plainObject]

/-- A directory of two packages. -/
def sharedDir : Cfent :=
  plainObject 'd' "/usr/lib".toList ⟨-1, -1, -1⟩
    [⟨nul, "SUNWcsr".toList, 0, []⟩, ⟨nul, "SUNWcsu".toList, 0, "none".toList⟩]

def ownedFile : Cfent :=
  plainObject 'f' "/usr/lib/magic".toList ⟨120, 6500, 1000000000⟩ [⟨'*', "SUNWcsu".toList, 0, []⟩]

theorem sharedDir_writable : sharedDir.Writable "/usr/lib".toList := by
  refine plainObject_writable rfl rfl rfl (by decide +kernel) (by decide +kernel)
    ⟨.inr rfl, .inr rfl, .inr rfl⟩ (List.cons_ne_nil _ _) ?_
  have hnamed (c : Char) (name : Str) (hc : isStatus c = false) (pkg : Str) (hpkg : pkg = c ::
    name) :
      nul = nul → ∃ c name, pkg = c :: name ∧ isStatus c = false := fun _ => ⟨c, name, hpkg, hc⟩
  refine List.forall_mem_cons.mpr ⟨?_, List.forall_mem_singleton.mpr ?_⟩
  · exact ⟨.inl rfl, by decide +kernel, hnamed 'S' _ rfl _ rfl, by decide +kernel, .inl rfl⟩
  · exact ⟨.inl rfl, by decide +kernel, hnamed 'S' _ rfl _ rfl, by decide +kernel,
      .inr ⟨⟨by decide +kernel, by decide +kernel, by decide +kernel⟩, by decide +kernel⟩⟩

theorem ownedFile_writable : ownedFile.Writable "/usr/lib/magic".toList := by
  refine plainObject_writable rfl rfl rfl (by decide +kernel) (by decide +kernel)
    ⟨.inl (by decide), .inl (by decide), .inl (by decide)⟩ (List.cons_ne_nil _ _) ?_
  exact List.forall_mem_singleton.mpr ⟨.inr rfl, by decide +kernel, fun h => absurd h (by decide),
    by decide +kernel, .inl rfl⟩

end Pkgtools
