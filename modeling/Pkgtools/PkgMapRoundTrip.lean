import Pkgtools.EntryText
import Pkgtools.PkgMapEntry

namespace Pkgtools
open CLib
set_option autoImplicit true

def infoText (e : Cfent) : Str :=
  if hasContent e.ftype ∨ e.ftype = 'i' then
    ' ' :: numText e.cinfo.size badCont ++ ' ' :: numText e.cinfo.cksum badCont ++
      ' ' :: numText e.cinfo.modtime badCont
  else []

/-- The local path, or once more a path that ends in its only `=`. -/
def localText (e : Cfent) (path : Str) : Str :=
  match e.ainfo.localPath with
  | some l => '=' :: l
  | none => if path.dropWhile (· != '=') = ['='] then path else []

/-- `ppkgmap`: the line it writes. It returns -1 at once if there is no path. -/
def ppkgmap (holdcinfo : Bool) (e : Cfent) : Option Str :=
  e.path.map fun path =>
    (if e.volno ≠ 0 then fmtD e.volno ++ [' '] else []) ++
      ((if e.ftype = 'i' then e.ftype :: ' ' :: path
        else e.ftype :: ' ' :: (e.pkgClass ++ ' ' :: path)) ++ (localText e path ++ (deviceText e ++
          (attrText e ++ ((if holdcinfo then [] else infoText e) ++ ['\n'])))))

/-- The fields of two entries that a line of a package map can hold agree. -/
structure SameFields (e e' : Cfent) : Prop where
  volno : e'.volno = e.volno
  ftype : e'.ftype = e.ftype
  pkgClass : e'.pkgClass = e.pkgClass
  path : e'.path = e.path
  ainfo : e'.ainfo = e.ainfo
  cinfo : e'.cinfo = e.cinfo

/-- An entry whose line is read back: its numbers are printed without a minus sign, its mode is that
of a file, and no string was cut off by a NUL at its start. -/
structure Cfent.Rereads (e : Cfent) : Prop where
  volno : 0 ≤ e.volno
  device : isDevice e.ftype → -1 ≤ e.ainfo.major ∧ -1 ≤ e.ainfo.minor
  mode : hasAttrs e.ftype → e.ainfo.mode ≤ 0o7777
  content : hasContent e.ftype ∨ e.ftype = 'i' →
    -1 ≤ e.cinfo.size ∧ -1 ≤ e.cinfo.cksum ∧ -1 ≤ e.cinfo.modtime
  pkgClass : e.pkgClass ≠ []
  path : e.path = some [] → e.ainfo.localPath ≠ none
  localPath : e.ainfo.localPath ≠ some []
  owner : e.ainfo.owner ≠ []
  group : e.ainfo.group ≠ []

section Readers

def EndsField (t : Str) : Prop := ∃ d u, t = d :: u ∧ (d = ' ' ∨ d = '\n')

theorem EndsField.blank (t : Str) : EndsField (' ' :: t) := ⟨' ', t, rfl, .inl rfl⟩

theorem EndsField.newline (t : Str) : EndsField ('\n' :: t) := ⟨'\n', t, rfl, .inr rfl⟩

theorem not_blank_of_token (h : Gpkgmap.endsStr sep c = false) :
    Gpkgmap.isblank c = false ∧ c ≠ '\n' ∧ c ≠ nul := by
  simp only [Gpkgmap.endsStr, Bool.or_eq_false_iff, beq_eq_false_iff_ne] at h
  exact ⟨h.1.1.1, h.1.1.2, h.1.2⟩

theorem getstr_field (hw : ∀ c ∈ w, Gpkgmap.isblank c) (htok : Token sep n s)
    (hsize : s.length < size)
    (hd : Gpkgmap.endsStr sep d) (hs : s ≠ [] ∨ Gpkgmap.isblank d = false ∧ d ≠ '\n') (u : Str) :
    Gpkgmap.getstr sep n size (w ++ (s ++ d :: u)) = some ((0, some s), d :: u) := by
  obtain ⟨c, v, hcv, hblank, hnl⟩ : ∃ c v, s ++ d :: u = c :: v ∧ Gpkgmap.isblank c = false ∧
      c ≠ '\n' := by
    cases s with
    | nil =>
      obtain ⟨h₁, h₂⟩ := hs.resolve_left (fun h => h rfl)
      exact ⟨d, u, rfl, h₁, h₂⟩
    | cons c s =>
      obtain ⟨h₁, h₂, -⟩ := not_blank_of_token (htok.chars c List.mem_cons_self)
      exact ⟨c, s ++ d :: u, rfl, h₁, h₂⟩
  have hdrop : (w ++ (s ++ d :: u)).dropWhile Gpkgmap.isblank = s ++ d :: u := by
    rw [hcv]
    exact dropWhile_append_cons hw hblank v
  have htake : (s ++ d :: u).takeWhile (fun c => !Gpkgmap.endsStr sep c) = s :=
    takeWhile_append_cons (fun c hc => by rw [htok.chars c hc]; rfl) (by rw [hd]; rfl) u
  have hhead : ¬ (s ++ d :: u = [] ∨ (s ++ d :: u).head? = some '\n') := by
    rw [hcv]
    rintro (h | h)
    · cases h
    · exact hnl (Option.some.inj h)
  have hlen := htok.length_le
  simp only [Gpkgmap.getstr, hdrop, if_neg hhead, htake]
  rw [if_neg (by omega), if_neg (by omega), List.drop_left]

theorem isblank_blank : ∀ c ∈ [' '], Gpkgmap.isblank c := by decide

theorem endsStr_of_field (h : d = ' ' ∨ d = '\n') (sep : Str) : Gpkgmap.endsStr sep d := by
  rcases h with rfl | rfl
  · rfl
  · rfl

theorem isblank_of_isDigit {c : Char} (h : c.isDigit) : Gpkgmap.isblank c = false := by
  have hspace := isspace_of_isDigit h
  simp only [isspace, Bool.or_eq_false_iff] at hspace
  simp only [Gpkgmap.isblank, Bool.or_eq_false_iff]
  exact ⟨hspace.1.1.1.1.1, hspace.1.1.1.1.2⟩

/-- A number that is printed without a minus sign, or as `?`, is read back. -/
theorem getnum_field (h : -1 ≤ n) (hn : n < 2 ^ 63) (ht : EndsField t) :
    Gpkgmap.getnum 10 (-1) (' ' :: (numText n (-1) ++ t)) = ((false, some n), t) := by
  obtain ⟨d, u, rfl, hd⟩ := ht
  rw [numText]
  split
  · rename_i he
    rw [he]
    rfl
  · have h₀ : 0 ≤ n := by omega
    have hdig := fmtD_isDigit h₀
    have hd' : d.isDigit = false := by
      rcases hd with rfl | rfl
      · rfl
      · rfl
    obtain ⟨c, s, hcs⟩ := List.exists_cons_of_ne_nil (fmtD_ne_nil n)
    have hc := hdig c (hcs ▸ List.mem_cons_self)
    have hblank := isblank_of_isDigit hc
    have hq : c ≠ '?' := by
      rintro rfl
      cases hc
    have hdrop : (' ' :: (c :: s ++ d :: u)).dropWhile Gpkgmap.isblank = c :: (s ++ d :: u) := by
      rw [List.dropWhile_cons_of_pos rfl, List.cons_append,
        List.dropWhile_cons_of_neg (by simp [hblank])]
    have htake : (c :: (s ++ d :: u)).takeWhile Char.isDigit = fmtD n := by
      rw [← List.cons_append, ← hcs]
      exact takeWhile_append_cons hdig hd' u
    have hrest : (c :: (s ++ d :: u)).dropWhile Char.isDigit = d :: u := by
      rw [← List.cons_append, ← hcs]
      exact dropWhile_append_cons hdig hd' u
    rw [hcs, Gpkgmap.getnum]
    simp only [hdrop, if_neg hq, hc, Bool.true_eq_false, if_false, htake, hrest,
      digitsValue_fmtD h₀ hn]

theorem getnum_minus (h : n < -1) (t : Str) :
    ∃ u, Gpkgmap.getnum 10 (-1) (' ' :: (numText n (-1) ++ t)) = ((true, none), '-' :: u) := by
  have hne : ¬ n = -1 := by omega
  have hneg : n < 0 := by omega
  rw [numText, if_neg hne, fmtD, if_pos hneg]
  exact ⟨_, rfl⟩

theorem skipSpace_digits (hs : ∀ c ∈ s, c.isDigit) : skipSpace s = s := by
  cases s with
  | nil => rfl
  | cons c s => exact skipSpace_cons_of_not (isspace_of_isDigit (hs c List.mem_cons_self)) s

theorem fmtO4_octal (m : Nat) : ∀ c ∈ fmtO4 m, c.isDigit ∧ c.toNat < 56 := by
  intro c hc
  refine ⟨fmtO4_isDigit m c hc, ?_⟩
  rcases List.mem_append.mp hc with h | h
  · rw [List.eq_of_mem_replicate h]
    decide
  · exact toNat_of_mem_toDigits (by decide) (by decide) m c h

theorem checkDigits_octal (hs : ∀ c ∈ s, c.isDigit ∧ c.toNat < 56) : checkDigits s = none := by
  induction s with
  | nil => rfl
  | cons c s ih =>
    obtain ⟨hd, hlt⟩ := hs c List.mem_cons_self
    have hlow : ∀ d ∈ "89abcdefABCDEF".toList, ¬ d.toNat < 56 := by decide
    rw [checkDigits, if_neg (by rw [isspace_of_isDigit hd]; decide), if_neg (by rw [hd]; decide),
      if_neg fun hm => hlow c hm hlt, ih fun d hm => hs d (List.mem_cons_of_mem _ hm)]

theorem strtolMode_fmtO4 (h : m < 2 ^ 16) : strtolMode (fmtO4 m) = m := by
  obtain ⟨c, s, hcs⟩ := List.exists_cons_of_ne_nil (fmtO4_ne_nil m)
  have hsign : scanSign (skipSpace (fmtO4 m)) = (1, fmtO4 m) := by
    rw [skipSpace_digits (fmtO4_isDigit m), hcs]
    exact scanSign_digit (fmtO4_isDigit m c (hcs ▸ List.mem_cons_self)) s
  have htake : (fmtO4 m).takeWhile (fun c => c.isDigit && decide (c.toNat < 56)) = fmtO4 m := by
    apply List.takeWhile_eq_self_iff.mpr
    intro c hc
    obtain ⟨h₁, h₂⟩ := fmtO4_octal m c hc
    simp [h₁, h₂]
  have hval : Nat.ofDigitChars 8 (fmtO4 m) 0 = m := by
    rw [fmtO4, Nat.ofDigitChars_append, Nat.ofDigitChars_replicate_zero, Nat.mul_zero,
      Nat.ofDigitChars_toDigits (by decide) (by decide)]
  simp only [strtolMode, hsign, htake, hval]
  omega

/-- The mode that is read back: both sentinels change. -/
def rereadMode (m : Nat) : Nat :=
  if m = badMode then wildcard else if m ≤ 0o7777 then m else badMode

theorem rereadMode_eq_iff (m : Nat) : rereadMode m = m ↔ m ≤ 0o7777 := by
  rw [rereadMode]
  have hw : wildcard = 32767 := rfl
  have hb : badMode = 65535 := rfl
  split
  · omega
  · split <;> omega

theorem modeValue_modeText (hcfg : cfg.mapmode = mapNone) (h : m < 2 ^ 16) (size : Nat) :
    modeValue cfg size (modeText m) = some (.ok (rereadMode m)) := by
  rw [modeText, rereadMode]
  split
  · rfl
  · obtain ⟨c, s, hcs⟩ := List.exists_cons_of_ne_nil (fmtO4_ne_nil m)
    have hc := fmtO4_isDigit m c (hcs ▸ List.mem_cons_self)
    have hhead (d : Char) (hd : d.isDigit = false) : ¬ (fmtO4 m).head? = some d := by
      rw [hcs]
      rintro h
      rw [Option.some.inj h, hd] at hc
      cases hc
    have hbuild : cfg.mapmode ≠ mapBuild := by
      rw [hcfg]
      decide
    rw [modeValue, if_neg (hhead '?' rfl), if_neg fun h => hhead '$' rfl h.1,
      if_neg (not_not.mpr hcfg), modeDigits, if_neg (hhead '$' rfl),
      checkDigits_octal (fmtO4_octal m)]
    simp only [strtolMode_fmtO4 h, if_pos hbuild]
    split <;> rename_i hle
    · rw [if_neg (by omega)]
    · rw [if_pos (by omega)]

end Readers

section Fields
variable {cfg : MapConfig} {e ept : Cfent} {t : Str}

theorem mapNum_field (hb : bad = -1) (h : -1 ≤ n) (hn : n < 2 ^ 63) (ht : EndsField t)
    (store : Int → Cfent → Cfent) (errstr : String) (ept : Cfent) :
    mapNum Gpkgmap.readers bad store errstr ept (' ' :: (numText n bad ++ t)) =
      some (.ok (store n ept), t) := by
  subst hb
  have hread : Gpkgmap.readers.getnum 10 (-1) (' ' :: (numText n (-1) ++ t)) =
      some ((false, some n), t) := congrArg some (getnum_field h hn ht)
  rw [mapNum, Parse.bind_ok (Parse.prim_some hread)]
  rfl

theorem mapNum_field_inv (hb : bad = -1) (hn : n < 2 ^ 63) (ht : EndsField t)
    (h : mapNum Gpkgmap.readers bad store errstr ept (' ' :: (numText n bad ++ t)) =
      some (.ok e, s)) : -1 ≤ n ∧ e = store n ept ∧ s = t := by
  subst hb
  by_cases hle : -1 ≤ n
  · rw [mapNum_field rfl hle hn ht] at h
    cases h
    exact ⟨hle, rfl, rfl⟩
  · obtain ⟨u, hminus⟩ := getnum_minus (show n < -1 by omega) t
    have hread : Gpkgmap.readers.getnum 10 (-1) (' ' :: (numText n (-1) ++ t)) =
        some ((true, none), '-' :: u) := congrArg some hminus
    rw [mapNum, Parse.bind_ok (Parse.prim_some hread)] at h
    obtain ⟨_, _, _, h⟩ := Parse.bind_eq_ok h
    cases h

theorem getstr_word_field (htok : Token [] n s) (hs : s ≠ []) (hsize : s.length < size)
    (ht : EndsField t) :
    Gpkgmap.getstr [] n size (' ' :: (s ++ t)) = some ((0, some s), t) := by
  obtain ⟨d, u, rfl, hd⟩ := ht
  exact getstr_field isblank_blank htok hsize (endsStr_of_field hd []) (.inl hs) u

theorem mapStr_field (htok : Token [] n s) (hs : s ≠ []) (hsize : s.length < size)
    (ht : EndsField t) (store : Str → Cfent → Cfent) (errstr : String) (ept : Cfent) :
    mapStr Gpkgmap.readers [] n size store errstr ept (' ' :: (s ++ t)) =
      some (.ok (store s ept), t) := by
  have hread : Gpkgmap.readers.getstr [] n size (' ' :: (s ++ t)) = some ((0, some s), t) :=
    getstr_word_field htok hs hsize ht
  rw [mapStr, Parse.bind_ok (Parse.prim_some hread)]
  rfl

theorem modeText_token (h : m < 2 ^ 16) : Token [] atrsiz (modeText m) ∧ modeText m ≠ [] ∧
    (modeText m).length < 20 := by
  have hlen : (modeText m).length ≤ 6 := by
    rw [modeText]
    split
    · decide
    · exact fmtO4_length h
  refine ⟨⟨?_, Nat.le_trans hlen (by decide)⟩, ?_, by omega⟩
  · rw [modeText]
    split
    · decide
    · intro c hc
      have hr := isDigit_range (fmtO4_isDigit m c hc)
      have hne (d : Char) (hd : d.toNat < 48) : c ≠ d := by
        rintro rfl
        omega
      simp [Gpkgmap.endsStr, Gpkgmap.isblank, hne ' ' (by decide), hne '\t' (by decide),
        hne '\n' (by decide), hne nul (by decide)]
  · rw [modeText]
    split
    · decide
    · exact fmtO4_ne_nil m

theorem mapMode_field (hcfg : cfg.Plain) (h : m < 2 ^ 16) (ht : EndsField t) (ept : Cfent) :
    mapMode Gpkgmap.readers cfg ept (' ' :: (modeText m ++ t)) =
      some (.ok (true, storeModeT (rereadMode m) ept), t) := by
  obtain ⟨htok, hne, hlen⟩ := modeText_token h
  have hread : Gpkgmap.readers.getstr [] Gpkgmap.readers.modeLimit Gpkgmap.readers.modeSize
      (' ' :: (modeText m ++ t)) = some ((0, some (modeText m)), t) :=
    getstr_word_field htok hne hlen ht
  rw [mapMode, Parse.bind_ok (Parse.prim_some hread)]
  simp only [Option.getD_some, modeValue_modeText hcfg.mapmode h]
  rfl

theorem mapAttr_field (htok : Token [] atrsiz s) (hs : s ≠ []) (ht : EndsField t)
    (store : Str → Cfent → Cfent) (errstr : String) (ept : Cfent) :
    mapAttr Gpkgmap.readers store errstr ept (' ' :: (s ++ t)) =
      some (.ok (true, store s ept), t) := by
  have hread : Gpkgmap.readers.getstr [] atrsiz (atrsiz + 1) (' ' :: (s ++ t)) =
      some ((0, some s), t) := getstr_word_field htok hs (Nat.lt_succ_of_le htok.length_le) ht
  rw [mapAttr, Parse.bind_ok (Parse.prim_some hread)]
  rfl

def refillAttrs (e ept : Cfent) : Cfent :=
  if hasAttrs e.ftype then
    { ept with ainfo := { ept.ainfo with
        mode := rereadMode e.ainfo.mode, owner := e.ainfo.owner, group := e.ainfo.group } }
  else ept

theorem mapTypedAttrs_text (hcfg : cfg.Plain) (he : MapEntry cfg P e) (ho : e.ainfo.owner ≠ [])
    (hg : e.ainfo.group ≠ []) (hept : ept.ftype = e.ftype) (ht : EndsField t) :
    mapTypedAttrs Gpkgmap.readers cfg ept (attrText e ++ t) =
      some (.ok (true, refillAttrs e ept), t) := by
  rw [mapTypedAttrs, attrText, refillAttrs, ← hept]
  split
  · have h₁ := mapMode_field hcfg he.typed.mode
      (EndsField.blank (e.ainfo.owner ++ ' ' :: (e.ainfo.group ++ t))) ept
    have h₂ := fun ept => mapAttr_field he.owner.1 ho (EndsField.blank (e.ainfo.group ++ t))
      storeOwner "owner string is too long." ept
    have h₃ := fun ept => mapAttr_field he.group.1 hg ht storeGroup "group string is too long." ept
    simp only [List.append_assoc, List.cons_append]
    rw [mapAttrs, Parse.bind_ok h₁]
    simp only [Bool.true_eq_false, if_false]
    rw [Parse.bind_ok (h₂ _)]
    simp only [Bool.true_eq_false, if_false]
    rw [Parse.bind_ok (h₃ _)]
    simp only [Bool.true_eq_false, if_false, Parse.onlyIf_neg (not_not.mpr hcfg.mapmode)]
    rfl
  · rfl

theorem wrap32_of_typed (h : -2 ^ 31 ≤ n ∧ n < 2 ^ 31) : wrap 32 n = n :=
  wrap_of_signed (by decide) h.1 h.2

theorem mapDevice_text (he : e.Typed)
    (hc : isDevice e.ftype → -1 ≤ e.ainfo.major ∧ -1 ≤ e.ainfo.minor)
    (hept : ept.ftype = e.ftype) (ht : EndsField t) :
    Parse.onlyIf (isDevice ept.ftype) (mapDevice Gpkgmap.readers) ept (deviceText e ++ t) =
      some (.ok (fillDevices e ept), t) := by
  rw [Parse.onlyIf, deviceText, fillDevices, ← hept]
  split
  · rename_i hd
    rw [hept] at hd
    have hmajor := he.major
    have hminor := he.minor
    have h₁ := mapNum_field (show badMajor = -1 from rfl) (hc hd).1 (by omega)
      (EndsField.blank (numText e.ainfo.minor badMinor ++ t)) storeMajor
      "unable to read major/minor device numbers" (storeMinor badMinor (storeMajor badMajor ept))
    have h₂ := fun ept => mapNum_field (show badMinor = -1 from rfl) (hc hd).2 (by omega) ht
      storeMinor "unable to read major/minor device numbers" ept
    simp only [List.append_assoc, List.cons_append]
    rw [mapDevice, Parse.bind_ok h₁, h₂, storeMinor_storeMajor, wrap32_of_typed hmajor,
      wrap32_of_typed hminor]
  · rfl

theorem mapDevice_text_inv (he : e.Typed) (hept : ept.ftype = e.ftype) (ht : EndsField t)
    (h : Parse.onlyIf (isDevice ept.ftype) (mapDevice Gpkgmap.readers) ept (deviceText e ++ t) =
      some (.ok e', s)) : isDevice e.ftype → -1 ≤ e.ainfo.major ∧ -1 ≤ e.ainfo.minor := by
  intro hd
  have hmajor := he.major
  have hminor := he.minor
  rw [hept, Parse.onlyIf_pos hd, deviceText, if_pos hd] at h
  simp only [List.append_assoc, List.cons_append] at h
  obtain ⟨e₁, s₁, h₁, h₂⟩ := Parse.bind_eq_ok h
  obtain ⟨hge₁, -, rfl⟩ := mapNum_field_inv rfl (by omega) (EndsField.blank _) h₁
  obtain ⟨hge₂, -, -⟩ := mapNum_field_inv rfl (by omega) ht h₂
  exact ⟨hge₁, hge₂⟩

def refillInfo (e ept : Cfent) : Cfent :=
  if hasContent e.ftype ∨ e.ftype = 'i' then { ept with cinfo := e.cinfo } else ept

theorem mapContent_text (he : e.Typed) (hc : hasContent e.ftype ∨ e.ftype = 'i' →
    -1 ≤ e.cinfo.size ∧ -1 ≤ e.cinfo.cksum ∧ -1 ≤ e.cinfo.modtime)
    (hept : ept.ftype = e.ftype) (ht : EndsField t) :
    Parse.onlyIf (hasContent ept.ftype ∨ ept.ftype = 'i') (mapContent Gpkgmap.readers) ept
      (infoText e ++ t) = some (.ok (refillInfo e ept), t) := by
  rw [Parse.onlyIf, infoText, refillInfo, ← hept]
  split
  · rename_i hi
    rw [hept] at hi
    obtain ⟨hsize, hcksum, hmodtime⟩ := hc hi
    have h₁ : Gpkgmap.readers.getnum 10 badCont (' ' :: (numText e.cinfo.size badCont ++
        ' ' :: (numText e.cinfo.cksum badCont ++ ' ' :: (numText e.cinfo.modtime badCont ++ t)))) =
        some ((false, some e.cinfo.size), ' ' :: (numText e.cinfo.cksum badCont ++
          ' ' :: (numText e.cinfo.modtime badCont ++ t))) :=
      congrArg some (getnum_field hsize he.size.2 (EndsField.blank _))
    have h₂ := fun ept => mapNum_field (show badCont = -1 from rfl) hcksum he.cksum.2
      (EndsField.blank (numText e.cinfo.modtime badCont ++ t)) storeCksum
      "unable to read content info" ept
    have h₃ := fun ept => mapNum_field (show badCont = -1 from rfl) hmodtime he.modtime.2 ht
      storeModtime "unable to read content info" ept
    simp only [List.append_assoc, List.cons_append]
    rw [mapContent, Parse.bind_ok (Parse.prim_some h₁)]
    simp only [Option.elim_some, Bool.false_eq_true, if_false]
    rw [Parse.bind_ok (h₂ _), h₃]
    rfl
  · rfl

theorem mapContent_text_inv (he : e.Typed) (hept : ept.ftype = e.ftype) (ht : EndsField t)
    (hbad : ept.cinfo.size = badCont)
    (h : Parse.onlyIf (hasContent ept.ftype ∨ ept.ftype = 'i') (mapContent Gpkgmap.readers) ept
      (infoText e ++ t) = some (.ok e', s)) (hsame : e'.cinfo = e.cinfo) :
    hasContent e.ftype ∨ e.ftype = 'i' →
      -1 ≤ e.cinfo.size ∧ -1 ≤ e.cinfo.cksum ∧ -1 ≤ e.cinfo.modtime := by
  intro hi
  rw [hept, Parse.onlyIf_pos hi, infoText, if_pos hi] at h
  simp only [List.append_assoc, List.cons_append] at h
  obtain ⟨⟨failed, v⟩, s₁, hread, g⟩ := Parse.bind_eq_ok h
  have hread := Option.some.inj (Parse.prim_eq_ok hread)
  by_cases hsize : -1 ≤ e.cinfo.size
  · have hnum := getnum_field hsize he.size.2 (EndsField.blank
      (numText e.cinfo.cksum badCont ++ ' ' :: (numText e.cinfo.modtime badCont ++ t)))
    obtain ⟨hr, rfl⟩ := Prod.mk.inj (hread.symm.trans hnum)
    obtain ⟨rfl, rfl⟩ := Prod.mk.inj hr
    obtain ⟨e₁, s₁, h₁, h₂⟩ := Parse.bind_eq_ok g
    obtain ⟨hcksum, -, rfl⟩ := mapNum_field_inv rfl he.cksum.2 (EndsField.blank _) h₁
    obtain ⟨hmodtime, -, -⟩ := mapNum_field_inv rfl he.modtime.2 ht h₂
    exact ⟨hsize, hcksum, hmodtime⟩
  · -- a negative size is taken for an entry without content info
    obtain ⟨u, hminus⟩ := getnum_minus (show e.cinfo.size < -1 by omega)
      (' ' :: (numText e.cinfo.cksum badCont ++ ' ' :: (numText e.cinfo.modtime badCont ++ t)))
    obtain ⟨hr, rfl⟩ := Prod.mk.inj (hread.symm.trans hminus)
    obtain ⟨rfl, rfl⟩ := Prod.mk.inj hr
    obtain ⟨rfl, -⟩ := Parse.ret_eq_ok g
    have hs : ept.cinfo.size = e.cinfo.size := congrArg Cinfo.size hsame
    rw [hbad] at hs
    exact absurd (show -1 ≤ e.cinfo.size by rw [← hs]; decide) hsize

end Fields

section Line
variable {cfg : MapConfig} {e ept : Cfent} {path t : Str}

def tailText (e : Cfent) : Str := deviceText e ++ (attrText e ++ (infoText e ++ ['\n']))

theorem tailText_bare (hd : isDevice e.ftype = false) (ha : hasAttrs e.ftype = false) :
    tailText e = infoText e ++ ['\n'] := by
  rw [tailText, deviceText, attrText, hd, ha]
  rfl

theorem EndsField.ite {p : Prop} [Decidable p] (s : Str) (ht : EndsField t) :
    EndsField ((if p then ' ' :: s else []) ++ t) := by
  split
  · exact EndsField.blank _
  · exact ht

theorem endsField_tail (e : Cfent) : EndsField (tailText e) ∧
    EndsField (attrText e ++ (infoText e ++ ['\n'])) ∧ EndsField (infoText e ++ ['\n']) := by
  have h₁ : EndsField (infoText e ++ ['\n']) := EndsField.ite _ (EndsField.newline [])
  have h₂ : EndsField (attrText e ++ (infoText e ++ ['\n'])) := EndsField.ite _ h₁
  exact ⟨EndsField.ite _ h₂, h₂, h₁⟩

theorem localText_none (hp : Token ['='] n path) (hl : e.ainfo.localPath = none) :
    localText e path = [] := by
  have hdrop : path.dropWhile (· != '=') = [] := by
    apply List.dropWhile_eq_nil_iff.mpr
    intro c hc
    have h := hp.chars c hc
    simp only [Gpkgmap.endsStr, Bool.or_eq_false_iff] at h
    simpa using h.2
  rw [localText, hl, hdrop]
  rfl

theorem mapPath_text (hw : ∀ c ∈ w, Gpkgmap.isblank c) (hp : Token ['='] (pathMax - 1) path)
    (hne : path = [] → e.ainfo.localPath ≠ none) (ht : EndsField t) (ept : Cfent) :
    mapPath Gpkgmap.readers ept (w ++ (path ++ (localText e path ++ t))) =
      some (.ok (storePath path ept), localText e path ++ t) := by
  have hlen : path.length < pathMax := Nat.lt_of_le_of_lt hp.length_le (by decide)
  have htok : Token ['='] pathMax path := ⟨hp.chars, Nat.le_of_lt hlen⟩
  have hread : Gpkgmap.readers.getstr ['='] pathMax pathMax
    (w ++ (path ++ (localText e path ++ t))) =
      some ((0, some path), localText e path ++ t) := by
    cases hl : e.ainfo.localPath with
    | none =>
      obtain ⟨d, u, rfl, hd⟩ := ht
      rw [localText_none hp hl]
      exact getstr_field hw htok hlen (endsStr_of_field hd _) (.inl fun h => hne h hl) u
    | some l =>
      rw [localText, hl]
      exact getstr_field hw htok hlen (by decide) (.inr (by decide)) (l ++ t)
  rw [mapPath, mapStr, Parse.bind_ok (Parse.prim_some hread)]
  rfl

theorem mapLocalStr_text (hl : Token [] (pathMax - 1) l) (hne : l ≠ []) (ht : EndsField t)
    (errstr : String) (ept : Cfent) :
    mapStr Gpkgmap.readers [] pathMax pathMax storeLocal errstr ept (l ++ t) =
      some (.ok (storeLocal l ept), t) := by
  have hlen : l.length < pathMax := Nat.lt_of_le_of_lt hl.length_le (by decide)
  have hread : Gpkgmap.readers.getstr [] pathMax pathMax (l ++ t) = some ((0, some l), t) := by
    obtain ⟨d, u, rfl, hd⟩ := ht
    exact getstr_field (w := []) (by simp) ⟨hl.chars, Nat.le_of_lt hlen⟩ hlen
      (endsStr_of_field hd _) (.inl hne) u
  rw [mapStr, Parse.bind_ok (Parse.prim_some hread)]
  rfl

/-- An entry with the local path of `e`. -/
def withLocalOf (e ept : Cfent) : Cfent :=
  match e.ainfo.localPath with
  | some l => storeLocal l ept
  | none => ept

theorem mapNoLocal_text (ht : EndsField t) (ept : Cfent) :
    ∃ c, Gpkgmap.readers.getc t = some (some c, t.tail) ∧ c ≠ '=' ∧
      mapNoLocal Gpkgmap.readers (some c) ept t.tail = some (.ok ept, t) := by
  obtain ⟨d, u, rfl, hd⟩ := ht
  refine ⟨d, rfl, ?_, rfl⟩
  rcases hd with rfl | rfl
  · decide
  · decide

theorem mapPathLocal_text (hp : Token ['='] n path)
    (hl : ∀ l, e.ainfo.localPath = some l → Token [] (pathMax - 1) l ∧ l ≠ []) (ht : EndsField t)
    (ept : Cfent) :
    mapPathLocal Gpkgmap.readers ept (localText e path ++ t) =
      some (.ok (withLocalOf e ept), t) := by
  cases hloc : e.ainfo.localPath with
  | none =>
    obtain ⟨c, hget, hc, hno⟩ := mapNoLocal_text ht ept
    rw [localText_none hp hloc, List.nil_append, mapPathLocal, Parse.bind_ok (Parse.prim_some hget),
      if_neg (fun h => hc (Option.some.inj h)), hno, withLocalOf, hloc]
  | some l =>
    rw [localText, hloc, withLocalOf, hloc]
    exact mapLocalStr_text (hl l hloc).1 (hl l hloc).2 ht _ ept

theorem mapLocal_text (hp : Token ['='] n path)
    (hl : ∀ l, e.ainfo.localPath = some l → Token [] (pathMax - 1) l ∧ l ≠ [])
    (hlink : isLink ept.ftype → e.ainfo.localPath ≠ none) (ht : EndsField t) :
    mapLocal Gpkgmap.readers ept (localText e path ++ t) = some (.ok (withLocalOf e ept), t) := by
  cases hloc : e.ainfo.localPath with
  | none =>
    obtain ⟨c, hget, hc, hno⟩ := mapNoLocal_text ht ept
    rw [localText_none hp hloc, List.nil_append, mapLocal, Parse.bind_ok (Parse.prim_some hget),
      if_neg (fun h => hc (Option.some.inj h)), if_neg (fun h => hlink h hloc), hno, withLocalOf,
      hloc]
  | some l =>
    rw [localText, hloc, withLocalOf, hloc]
    exact mapLocalStr_text (hl l hloc).1 (hl l hloc).2 ht _ ept

theorem volno_digit {c : Char} (hc : c.isDigit) (v : Int) :
    v * 10 + c.toNat - '0'.toNat = v * 10 + (c.toNat % 16 : Nat) := by
  have hr := isDigit_range hc
  have hz : '0'.toNat = 48 := rfl
  rw [digit_low_bits hc, hz]
  omega

theorem readVolno_digits (ds : Str) (c : Char) (v : Int) (k : Nat) (hc : c.isDigit)
    (hds : ∀ d ∈ ds, d.isDigit) (s : Str) :
    readVolno Gpkgmap.readers (ds.length + 1 + k) c v (ds ++ ' ' :: s) =
      some (.ok ((c :: ds).foldl (fun d c => wrap 16 (d * 10 + (c.toNat % 16 : Nat))) v), s) := by
  induction ds generalizing c v with
  | nil =>
    rw [List.length_nil, Nat.zero_add, Nat.add_comm 1 k, readVolno, volno_digit hc]
    rfl
  | cons d ds ih =>
    have hd := hds d List.mem_cons_self
    have hread : Gpkgmap.readers.getc (d :: ds ++ ' ' :: s) = some (some d, ds ++ ' ' :: s) := rfl
    rw [List.length_cons, show ds.length + 1 + 1 + k = ds.length + 1 + k + 1 by omega, readVolno,
      volno_digit hc, Parse.bind_ok (Parse.prim_some hread)]
    simp only [hd, if_true]
    exact ih d _ hd fun x hx => hds x (List.mem_cons_of_mem _ hx)

theorem readline_volno (hv : 0 < v) (hv' : v < 2 ^ 15) (hfuel : (fmtD v).length ≤ fuel) (f : Nat)
    (s : Str) :
    readline Gpkgmap.readers cfg fuel (f + 1) (started cfg ept 0 '?') (fmtD v ++ ' ' :: s) =
      readline Gpkgmap.readers cfg fuel f (started cfg ept v '?') s := by
  have hdig := fmtD_isDigit (Int.le_of_lt hv)
  have hfold := foldl_wrap_digits 16 10 (fmtD v) hdig 0
  obtain ⟨c, ds, hcs⟩ := List.exists_cons_of_ne_nil (fmtD_ne_nil v)
  have hc := hdig c (hcs ▸ List.mem_cons_self)
  have hds : ∀ d ∈ ds, d.isDigit := fun d hd => hdig d (hcs ▸ List.mem_cons_of_mem _ hd)
  have hblank := isblank_of_isDigit hc
  have hfirst : Gpkgmap.readers.first (c :: ds ++ ' ' :: s) = some (some c, ds ++ ' ' :: s) := by
    have hdrop : (c :: (ds ++ ' ' :: s)).dropWhile Gpkgmap.isblank = c :: (ds ++ ' ' :: s) :=
      List.dropWhile_cons_of_neg (by simp [hblank])
    simp only [Gpkgmap.readers, Gpkgmap.eatwhite, List.cons_append, hdrop]
    rfl
  have hvalue : (c :: ds).foldl (fun d c => wrap 16 (d * 10 + (c.toNat % 16 : Nat))) 0 = v := by
    rw [← hcs]
    refine hfold.trans ?_
    rw [fmtD_of_nonneg (Int.le_of_lt hv), Nat.ofDigitChars_toDigits (by decide) (by decide),
      Int.toNat_of_nonneg (Int.le_of_lt hv)]
    exact wrap_of_range (by decide) (Int.le_of_lt hv) hv'
  have hlen : fuel = ds.length + 1 + (fuel - (ds.length + 1)) := by
    rw [hcs, List.length_cons] at hfuel
    omega
  have hvolno := readVolno_digits ds c 0 (fuel - (ds.length + 1)) hc hds s
  rw [← hlen, hvalue] at hvolno
  have hswitch : mapSwitch Gpkgmap.readers cfg fuel c (started cfg ept 0 '?') (ds ++ ' ' :: s) =
      some (.ok (.inr (started cfg ept v '?')), s) := by
    have hzero : (started cfg ept 0 '?').volno = 0 := rfl
    rw [mapSwitch, if_pos hc, if_neg (not_not.mpr hzero), hzero, Parse.bind_ok hvolno,
      if_neg (by omega)]
    rfl
  rw [hcs, readline, Parse.bind_ok (Parse.prim_some hfirst)]
  exact Parse.bind_ok hswitch

/-- The entry when the path and the local path of `e` were read. -/
def headed (cfg : MapConfig) (ept e : Cfent) (path : Str) : Cfent :=
  withLocalOf e (storePath path (storeClass e.pkgClass (started cfg ept e.volno e.ftype)))

def headText (e : Cfent) (path : Str) : Str :=
  (if e.ftype = 'i' then e.ftype :: ' ' :: path
    else e.ftype :: ' ' :: (e.pkgClass ++ ' ' :: path)) ++ localText e path

/-- The strings of an entry are as `gpkgmap` reads them, and none that has to be there is empty. -/
structure Spelled (e : Cfent) (path : Str) : Prop where
  chars : Token ['='] (pathMax - 1) path
  named : path = [] → e.ainfo.localPath ≠ none
  localPath : ∀ l, e.ainfo.localPath = some l → Token [] (pathMax - 1) l ∧ l ≠ []
  pkgClass : Token [] clssiz e.pkgClass ∧ e.pkgClass ≠ []
  linked : isLink e.ftype → e.ainfo.localPath ≠ none

theorem isFtype_switch (h : isFtype c) : c.isDigit = false ∧ ¬ (c = ':' ∨ c = '#') ∧ c ≠ '\n' ∧
    c ≠ 'i' ∧ ¬ (c = '.' ∨ c = '/') ∧ Gpkgmap.isblank c = false := by
  have hall : ∀ c ∈ "?fvelspcbdx".toList, c.isDigit = false ∧ ¬ (c = ':' ∨ c = '#') ∧ c ≠ '\n' ∧
    c ≠ 'i' ∧ ¬ (c = '.' ∨ c = '/') ∧ Gpkgmap.isblank c = false := by decide
  exact hall c (of_decide_eq_true h)

theorem first_cons (h : Gpkgmap.isblank c = false) (s : Str) :
    Gpkgmap.readers.first (c :: s) = some (some c, s) := by
  have hdrop : (c :: s).dropWhile Gpkgmap.isblank = c :: s :=
    List.dropWhile_cons_of_neg (by simp [h])
  simp only [Gpkgmap.readers, Gpkgmap.eatwhite, hdrop]
  rfl

theorem readline_inl {m : Parse Str Fail (Int × Cfent)}
    (hfirst : Gpkgmap.readers.first s = some (some c, t))
    (hswitch : mapSwitch Gpkgmap.readers cfg fuel c ept t = (m >>= fun r => pure (.inl r)) u)
    (f : Nat) : readline Gpkgmap.readers cfg fuel (f + 1) ept s = m u := by
  rw [readline, Parse.bind_ok (Parse.prim_some hfirst)]
  exact (Parse.bind_congr_left hswitch _).trans (Parse.bind_unwrap (f := Sum.inl) (fun _ => rfl) u)

/-- An entry with a type is read up to the fields behind its path. -/
theorem readline_typed (hs : Spelled e path) (hc : isFtype e.ftype) (fuel f : Nat)
    (ht : EndsField t) :
    readline Gpkgmap.readers cfg fuel (f + 1) (started cfg ept e.volno '?')
      (headText e path ++ t) = mapFields Gpkgmap.readers cfg (headed cfg ept e path) t := by
  obtain ⟨h₁, h₂, h₃, h₄, h₅, hblank⟩ := isFtype_switch hc
  have hclass := mapStr_field hs.pkgClass.1 hs.pkgClass.2
    (Nat.lt_succ_of_le hs.pkgClass.1.length_le)
    (EndsField.blank (path ++ (localText e path ++ t))) storeClass "unable to read class token"
    (started cfg ept e.volno e.ftype)
  have hpath := fun ept => mapPath_text isblank_blank hs.chars hs.named ht ept
  have hlinked : isLink (storePath path (storeClass e.pkgClass
      (started cfg ept e.volno e.ftype))).ftype → e.ainfo.localPath ≠ none := hs.linked
  have hlocal := mapLocal_text hs.chars hs.localPath hlinked ht
  have htext : headText e path ++ t =
      e.ftype :: ' ' :: (e.pkgClass ++ ' ' :: (path ++ (localText e path ++ t))) := by
    simp only [headText, if_neg h₄, List.cons_append, List.append_assoc]
  have htyped : mapTyped Gpkgmap.readers cfg e.ftype (started cfg ept e.volno '?')
      (' ' :: (e.pkgClass ++ ' ' :: (path ++ (localText e path ++ t)))) =
      mapFields Gpkgmap.readers cfg (headed cfg ept e path) t := by
    rw [mapTyped]
    refine (Parse.bind_ok hclass).trans ((Parse.bind_ok (hpath _)).trans ?_)
    exact Parse.bind_ok hlocal
  rw [htext, ← htyped]
  apply readline_inl (first_cons hblank _)
  rw [mapSwitch, if_neg (by rw [h₁]; decide), if_neg h₂, if_neg h₃, if_neg h₄, if_neg h₅, if_pos hc]

theorem readline_info (hs : Spelled e path) (hi : e.ftype = 'i') (hc : e.pkgClass = badClass)
    (fuel f : Nat) (ht : EndsField t) :
    readline Gpkgmap.readers cfg fuel (f + 1) (started cfg ept e.volno '?')
      (headText e path ++ t) = mapPathEnd Gpkgmap.readers (headed cfg ept e path) t := by
  have hstart : storeClass e.pkgClass (started cfg ept e.volno e.ftype) =
      { started cfg ept e.volno '?' with ftype := 'i' } := by
    rw [hc, hi]
    rfl
  have htext : headText e path ++ t = 'i' :: ' ' :: (path ++ (localText e path ++ t)) := by
    rw [headText, if_pos hi, hi]
    simp only [List.cons_append, List.append_assoc]
  have hdrop : (path ++ (localText e path ++ t)).dropWhile Gpkgmap.isblank =
      path ++ (localText e path ++ t) := by
    cases path with
    | nil =>
      obtain ⟨l, hl⟩ := Option.ne_none_iff_exists'.mp (hs.named rfl)
      rw [localText, hl]
      rfl
    | cons c path =>
      have hc := not_blank_of_token (hs.chars.chars c List.mem_cons_self)
      exact List.dropWhile_cons_of_neg (by simp [hc.1])
  have hstate : Gpkgmap.ungetc (Gpkgmap.eatwhite (' ' :: (path ++ (localText e path ++ t)))).1
      (Gpkgmap.eatwhite (' ' :: (path ++ (localText e path ++ t)))).2 =
      path ++ (localText e path ++ t) := by
    rw [Gpkgmap.eatwhite, ungetc_head, List.dropWhile_cons_of_pos rfl, hdrop]
  have hpath := mapPath_text (w := []) (by simp) hs.chars hs.named ht
    { started cfg ept e.volno '?' with ftype := 'i' }
  have hlocal := mapPathLocal_text hs.chars hs.localPath ht
    (storePath path { started cfg ept e.volno '?' with ftype := 'i' })
  have honly : mapPathOnly Gpkgmap.readers { started cfg ept e.volno '?' with ftype := 'i' }
      (path ++ (localText e path ++ t)) = mapPathEnd Gpkgmap.readers (headed cfg ept e path) t := by
    rw [mapPathOnly, headed, hstart]
    exact (Parse.bind_ok hpath).trans (Parse.bind_ok hlocal)
  rw [htext, ← honly]
  apply readline_inl (first_cons rfl _)
  exact congrArg (mapPathOnly Gpkgmap.readers _ >>= fun r => pure (Sum.inl r)) hstate

theorem headed_eq (cfg : MapConfig) (ept e : Cfent) (path : Str) : headed cfg ept e path =
    { mapInit cfg ept with
      volno := e.volno
      ftype := e.ftype
      pkgClass := e.pkgClass
      path := some path
      ainfo := { (mapInit cfg ept).ainfo with localPath := e.ainfo.localPath } } := by
  rw [headed, withLocalOf]
  cases e.ainfo.localPath with
  | none => rfl
  | some l => rfl

theorem ppkgmap_text (hp : e.path = some path) : ppkgmap false e =
    some ((if e.volno ≠ 0 then fmtD e.volno ++ [' '] else []) ++
      (headText e path ++ tailText e)) := by
  rw [ppkgmap, hp]
  simp only [Option.map_some, headText, tailText, List.append_assoc, Bool.false_eq_true, if_false]

/-- The rest of `gpkgmap` when the path and the local path were read. -/
def mapRest (cfg : MapConfig) (ept : Cfent) : Parse Str Fail (Int × Cfent) :=
  if ept.ftype = 'i' then mapPathEnd Gpkgmap.readers ept else mapFields Gpkgmap.readers cfg ept

theorem readline_head (hs : Spelled e path) (hc : isFtype e.ftype ∨ e.ftype = 'i')
    (hi : e.ftype = 'i' → e.pkgClass = badClass) (fuel f : Nat) :
    readline Gpkgmap.readers cfg fuel (f + 1) (started cfg ept e.volno '?')
      (headText e path ++ tailText e) = mapRest cfg (headed cfg ept e path) (tailText e) := by
  have hf : (headed cfg ept e path).ftype = e.ftype := by rw [headed_eq]
  rw [mapRest, hf]
  by_cases h : e.ftype = 'i'
  · rw [if_pos h]
    exact readline_info hs h (hi h) fuel f (endsField_tail e).1
  · rw [if_neg h]
    exact readline_typed hs (hc.resolve_right h) fuel f (endsField_tail e).1

/-- A line with a volume number that is not negative is read up to the fields behind the path. -/
theorem gpkgmap_line (hs : Spelled e path) (hc : isFtype e.ftype ∨ e.ftype = 'i')
    (hi : e.ftype = 'i' → e.pkgClass = badClass) (hv : 0 ≤ e.volno) (hv' : e.volno < 2 ^ 15) :
    gpkgmap cfg ept ((if e.volno ≠ 0 then fmtD e.volno ++ [' '] else []) ++
      (headText e path ++ tailText e)) = mapRest cfg (headed cfg ept e path) (tailText e) := by
  by_cases h : e.volno = 0
  · rw [if_neg (not_not.mpr h), List.nil_append, gpkgmap, ← readline_head hs hc hi, h]
    rfl
  · rw [if_pos h, List.append_assoc, List.singleton_append, gpkgmap]
    have hlen : (fmtD e.volno ++ ' ' :: (headText e path ++ tailText e)).length =
        (headText e path ++ tailText e).length + (fmtD e.volno).length + 1 := by
      simp only [List.length_append, List.length_cons]
      omega
    rw [hlen]
    refine (readline_volno (by omega) hv' (by omega) _ _).trans ?_
    exact readline_head hs hc hi _ _

/-- The fields of `e` as they are read back. -/
def reread (cfg : MapConfig) (ept e : Cfent) (path : Str) : Cfent :=
  refillInfo e (refillAttrs e (fillDevices e (headed cfg ept e path)))

theorem refill_frame (e ept : Cfent) :
    (refillAttrs e (fillDevices e ept)).ftype = ept.ftype ∧
    (refillAttrs e (fillDevices e ept)).cinfo = ept.cinfo := by
  simp only [refillAttrs, fillDevices]
  split <;> split <;> exact ⟨rfl, rfl⟩

theorem getend_newline : Gpkgmap.readers.getend ['\n'] = some (false, []) := rfl

theorem mapRest_text (hcfg : cfg.Plain) (he : MapEntry cfg P e)
    (hc : MapEntry.Complete P e path) (hr : e.Rereads) (ept : Cfent) :
    mapRest cfg (headed cfg ept e path) (tailText e) =
      some (.ok (1, reread cfg ept e path), []) := by
  have hf : (headed cfg ept e path).ftype = e.ftype := by rw [headed_eq]
  have hl : (headed cfg ept e path).ainfo.localPath = e.ainfo.localPath := by rw [headed_eq]
  obtain ⟨-, ht₂, ht₃⟩ := endsField_tail e
  have hinfo : (refillAttrs e (fillDevices e (headed cfg ept e path))).ftype = e.ftype :=
    (refill_frame e _).1.trans hf
  have hcontent := mapContent_text he.typed hr.content hinfo (EndsField.newline [])
  rw [mapRest, hf]
  split
  · rename_i hi
    have hd : isDevice e.ftype = false := by rw [hi]; rfl
    have ha : hasAttrs e.ftype = false := by rw [hi]; rfl
    have htext := tailText_bare hd ha
    have hfill : refillAttrs e (fillDevices e (headed cfg ept e path)) = headed cfg ept e path := by
      rw [refillAttrs, fillDevices, hd, ha]
      rfl
    rw [reread, hfill]
    rw [hfill, Parse.onlyIf_pos (.inr (hf.trans hi))] at hcontent
    rw [mapPathEnd, htext, Parse.onlyIf_pos (hf.trans hi), Parse.bind_ok hcontent,
      Parse.bind_ok (Parse.prim_some getend_newline)]
    rfl
  · have hlink : ¬ (isLink (headed cfg ept e path).ftype = true ∧
        (headed cfg ept e path).ainfo.localPath = none) := by
      rw [hf, hl]
      exact fun h => hc.linked h.1 h.2
    have hdevice := mapDevice_text he.typed hr.device hf ht₂
    have hf' : (fillDevices e (headed cfg ept e path)).ftype = e.ftype :=
      (fill_frame e _).1.trans hf
    have hattrs := mapTypedAttrs_text hcfg he hr.owner hr.group hf' ht₃
    rw [mapFields, if_neg hlink, tailText, Parse.bind_ok hdevice, Parse.bind_ok hattrs]
    refine (Parse.bind_ok hcontent).trans ?_
    rw [mapEnd, Parse.bind_ok (Parse.prim_some getend_newline)]
    rfl

theorem mapContent_ainfo (h : mapContent Gpkgmap.readers ept s = some (.ok e, s')) :
    e.ainfo = ept.ainfo := by
  obtain ⟨⟨failed, v⟩, t, hread, g⟩ := Parse.bind_eq_ok h
  have hread := Option.some.inj (Parse.prim_eq_ok hread)
  cases failed with
  | true =>
    obtain ⟨rfl, -⟩ := getnum_failed hread
    obtain ⟨rfl, -⟩ := Parse.ret_eq_ok g
    rfl
  | false =>
    obtain ⟨⟨x, rfl, -⟩, -⟩ := getnum_result badCont_bounds hread
    obtain ⟨e₁, u, h₁, h₂⟩ := Parse.bind_eq_ok g
    obtain ⟨y, rfl, -⟩ := mapNum_result badCont_bounds h₁
    obtain ⟨z, rfl, -⟩ := mapNum_result badCont_bounds h₂
    rfl

/-- What the fields of an entry satisfy if they are read back. -/
theorem mapRest_text_inv (hcfg : cfg.Plain) (he : MapEntry cfg P e) (ho : e.ainfo.owner ≠ [])
    (hg : e.ainfo.group ≠ [])
    (h : mapRest cfg (headed cfg ept e path) (tailText e) = some (.ok (n, e'), s))
    (hsame : SameFields e e') :
    (isDevice e.ftype → -1 ≤ e.ainfo.major ∧ -1 ≤ e.ainfo.minor) ∧
    (hasAttrs e.ftype → e.ainfo.mode ≤ 0o7777) ∧
    (hasContent e.ftype ∨ e.ftype = 'i' →
      -1 ≤ e.cinfo.size ∧ -1 ≤ e.cinfo.cksum ∧ -1 ≤ e.cinfo.modtime) := by
  have hf : (headed cfg ept e path).ftype = e.ftype := by rw [headed_eq]
  have hbad : (headed cfg ept e path).cinfo.size = badCont := by rw [headed_eq]; rfl
  obtain ⟨-, ht₂, ht₃⟩ := endsField_tail e
  rw [mapRest, hf] at h
  split at h
  · rename_i hi
    have hd : isDevice e.ftype = false := by rw [hi]; rfl
    have ha : hasAttrs e.ftype = false := by rw [hi]; rfl
    have htext := tailText_bare hd ha
    obtain ⟨e₁, s₁, h₁, g₁⟩ := Parse.bind_eq_ok h
    obtain ⟨extra, s₂, -, g₂⟩ := Parse.bind_eq_ok g₁
    have he₁ : e₁ = e' := by
      split at g₂
      · cases g₂
      · obtain ⟨hr, -⟩ := Parse.ret_eq_ok g₂
        exact (Prod.mk.inj hr).2
    have hinfo : hasContent (headed cfg ept e path).ftype ∨ (headed cfg ept e path).ftype = 'i' :=
      .inr (hf.trans hi)
    rw [htext, Parse.onlyIf_pos (hf.trans hi)] at h₁
    have h₂ := (congrFun (Parse.onlyIf_pos hinfo _ _) _).trans h₁
    refine ⟨fun h => ?_, fun h => ?_, mapContent_text_inv he.typed hf (EndsField.newline []) hbad h₂
      (by rw [he₁]; exact hsame.cinfo)⟩
    · rw [hd] at h
      cases h
    · rw [ha] at h
      cases h
  · rw [mapFields] at h
    split at h
    · obtain ⟨_, _, _, h⟩ := Parse.bind_eq_ok h
      cases h
    · obtain ⟨e₁, s₁, h₁, g₁⟩ := Parse.bind_eq_ok h
      rw [tailText] at h₁
      have hdevice := mapDevice_text_inv he.typed hf ht₂ h₁
      have hd := mapDevice_text he.typed hdevice hf ht₂
      obtain ⟨hr₁, rfl⟩ := Prod.mk.inj (Option.some.inj (h₁.symm.trans hd))
      cases hr₁
      have hf' : (fillDevices e (headed cfg ept e path)).ftype = e.ftype :=
        (fill_frame e _).1.trans hf
      have ha := mapTypedAttrs_text hcfg he ho hg hf' ht₃
      obtain ⟨⟨more, e₂⟩, s₂, h₂, g₂⟩ := Parse.bind_eq_ok g₁
      obtain ⟨hr₂, rfl⟩ := Prod.mk.inj (Option.some.inj (h₂.symm.trans ha))
      cases hr₂
      obtain ⟨e₃, s₃, h₃, g₃⟩ := Parse.bind_eq_ok g₂
      obtain ⟨-, rfl⟩ := mapEnd_result g₃
      have hinfo : (refillAttrs e (fillDevices e (headed cfg ept e path))).ftype = e.ftype :=
        (refill_frame e _).1.trans hf
      have hkeep : e'.ainfo = (refillAttrs e (fillDevices e (headed cfg ept e path))).ainfo := by
        by_cases hc : hasContent (refillAttrs e (fillDevices e (headed cfg ept e path))).ftype ∨
            (refillAttrs e (fillDevices e (headed cfg ept e path))).ftype = 'i'
        · exact mapContent_ainfo ((congrFun (Parse.onlyIf_pos hc _ _) _).symm.trans h₃)
        · obtain ⟨rfl, -⟩ :=
            Parse.ret_eq_ok ((congrFun (Parse.onlyIf_neg hc _ _) _).symm.trans h₃)
          rfl
      refine ⟨hdevice, fun hattr => ?_, mapContent_text_inv he.typed hinfo (EndsField.newline [])
        (by rw [(refill_frame e _).2]; exact hbad) h₃ hsame.cinfo⟩
      have hmode : rereadMode e.ainfo.mode = e.ainfo.mode := by
        have hm := congrArg Ainfo.mode (hkeep.symm.trans hsame.ainfo)
        rw [refillAttrs, if_pos hattr] at hm
        exact hm
      exact (rereadMode_eq_iff _).mp hmode

theorem gpkgmap_minus (s : Str) : ∀ r, gpkgmap cfg ept ('-' :: s) ≠ some (.ok r, s') := by
  intro r h
  obtain ⟨c, t, hread, g⟩ := Parse.bind_eq_ok h
  obtain ⟨rfl, rfl⟩ := Prod.mk.inj (Option.some.inj (Parse.prim_eq_ok hread))
  obtain ⟨x, u, hsw, -⟩ := Parse.bind_eq_ok g
  obtain ⟨_, _, _, h⟩ := Parse.bind_eq_ok hsw
  cases h

theorem nulFree_append (hs : NulFree s) (ht : NulFree t) : NulFree (s ++ t) :=
  fun hm => (List.mem_append.mp hm).elim hs ht

theorem nulFree_field (hs : NulFree s) : NulFree (' ' :: s) :=
  nulFree_append (s := [' ']) (by decide) hs

theorem Token.nulFree (h : Token sep n s) : NulFree s :=
  fun hm => (not_blank_of_token (h.chars nul hm)).2.2 rfl

theorem nulFree_numText (n bad : Int) : NulFree (numText n bad) := by
  rw [numText]
  split
  · decide
  · exact (oneLine_fmtD n).2

theorem nulFree_ite {p : Prop} [Decidable p] (hs : NulFree s) : NulFree (if p then s else []) := by
  split
  · exact hs
  · exact List.not_mem_nil

theorem nulFree_line (he : MapEntry cfg P e) (hc : MapEntry.Complete P e path) :
    NulFree ((if e.volno ≠ 0 then fmtD e.volno ++ [' '] else []) ++
      (headText e path ++ tailText e)) := by
  have hpath := (he.path path hc.path).nulFree
  have htype : NulFree [e.ftype] := by
    rcases hc.ftype with hf | hf
    · intro hm
      rw [← List.mem_singleton.mp hm] at hf
      cases hf
    · rw [hf]
      decide
  have hlocal : NulFree (localText e path) := by
    cases hl : e.ainfo.localPath with
    | none =>
      rw [localText_none (he.path path hc.path) hl]
      exact List.not_mem_nil
    | some l =>
      rw [localText, hl]
      exact nulFree_append (s := ['=']) (by decide) (he.localPath l hl).1.nulFree
  have hhead : NulFree (headText e path) := by
    refine nulFree_append ?_ hlocal
    split
    · exact nulFree_append htype (nulFree_field hpath)
    · exact nulFree_append htype
        (nulFree_field (nulFree_append he.pkgClass.1.nulFree (nulFree_field hpath)))
  have hdevice : NulFree (deviceText e) := nulFree_ite
    (nulFree_append (nulFree_field (nulFree_numText _ _)) (nulFree_field (nulFree_numText _ _)))
  have hmode : NulFree (modeText e.ainfo.mode) := (modeText_token he.typed.mode).1.nulFree
  have hattrs : NulFree (attrText e) := nulFree_ite
    (nulFree_append (nulFree_append (nulFree_field hmode) (nulFree_field he.owner.1.nulFree))
      (nulFree_field he.group.1.nulFree))
  have hinfo : NulFree (infoText e) := nulFree_ite
    (nulFree_append (nulFree_append (nulFree_field (nulFree_numText _ _))
      (nulFree_field (nulFree_numText _ _))) (nulFree_field (nulFree_numText _ _)))
  have hvolno : NulFree (if e.volno ≠ 0 then fmtD e.volno ++ [' '] else []) :=
    nulFree_ite (nulFree_append (oneLine_fmtD _).2 (by decide))
  exact nulFree_append hvolno (nulFree_append hhead (nulFree_append hdevice (nulFree_append hattrs
    (nulFree_append hinfo (by decide)))))

theorem refillAttrs_ainfo (he : MapEntry cfg P e)
    (hmode : hasAttrs e.ftype → rereadMode e.ainfo.mode = e.ainfo.mode) (ept : Cfent) (path : Str) :
    (refillAttrs e (fillDevices e (headed cfg ept e path))).ainfo = e.ainfo := by
  have hd := he.noDevice
  have ha := he.noAttrs
  rw [headed_eq, refillAttrs, fillDevices]
  clear he
  obtain ⟨_, ftype, _, _, _, ⟨loc, mode, owner, group, major, minor⟩, _, _, _⟩ := e
  dsimp only at hd ha hmode ⊢
  cases hdev : isDevice ftype with
  | true =>
    cases hattr : hasAttrs ftype with
    | true => simp [hmode hattr]
    | false =>
      obtain ⟨rfl, rfl, rfl⟩ := ha hattr
      rfl
  | false =>
    obtain ⟨rfl, rfl⟩ := hd hdev
    cases hattr : hasAttrs ftype with
    | true => simp [hmode hattr, mapInit]
    | false =>
      obtain ⟨rfl, rfl, rfl⟩ := ha hattr
      rfl

theorem sameFields_reread (he : MapEntry cfg P e) (hc : e.path = some path) (hr : e.Rereads)
    (ept : Cfent) : SameFields e (reread cfg ept e path) := by
  have hainfo := refillAttrs_ainfo he
    (fun ha => (rereadMode_eq_iff _).mpr (hr.mode ha)) ept path
  have hcinfo : (refillAttrs e (fillDevices e (headed cfg ept e path))).cinfo =
      ⟨badCont, badCont, badCont⟩ := by
    rw [(refill_frame e _).2, headed_eq]
    rfl
  rw [reread, refillInfo]
  have hframe : (refillAttrs e (fillDevices e (headed cfg ept e path))).volno = e.volno ∧
      (refillAttrs e (fillDevices e (headed cfg ept e path))).ftype = e.ftype ∧
      (refillAttrs e (fillDevices e (headed cfg ept e path))).pkgClass = e.pkgClass ∧
      (refillAttrs e (fillDevices e (headed cfg ept e path))).path = e.path := by
    rw [headed_eq, refillAttrs, fillDevices, hc]
    split <;> split <;> exact ⟨rfl, rfl, rfl, rfl⟩
  obtain ⟨hv, hf, hcl, hp⟩ := hframe
  split
  · exact ⟨hv, hf, hcl, hp, hainfo, rfl⟩
  · rename_i hno
    refine ⟨hv, hf, hcl, hp, hainfo, ?_⟩
    rw [hcinfo, he.noContent (by simpa using fun h => hno (.inl h)) fun h => hno (.inr h)]

/-- An entry of a package map is written by `ppkgmap` and read back by `gpkgmap` just if its numbers
are not negative and its mode is that of a file. -/
theorem gpkgmap_ppkgmap_iff (hcfg : cfg.Plain) (h : gpkgmap cfg ept s = some (.ok (1, e), s'))
    (ept' : Cfent) :
    (∃ line e' rest, ppkgmap false e = some line ∧
      gpkgmap cfg ept' line = some (.ok (1, e'), rest) ∧ SameFields e e') ↔ e.Rereads := by
  obtain ⟨he, path, hc⟩ := gpkgmap_entry hcfg h
  have htext := ppkgmap_text hc.path
  constructor
  · rintro ⟨line, e', rest, hline, hread, hsame⟩
    obtain rfl := Option.some.inj (htext.symm.trans hline)
    obtain ⟨he', p', hc'⟩ := gpkgmap_entry hcfg hread
    have hnul := nulFree_line he hc
    have hlocal : e'.ainfo.localPath = e.ainfo.localPath := by rw [hsame.ainfo]
    have hpath : p' = path := Option.some.inj (hc'.path.symm.trans (hsame.path.trans hc.path))
    have hclass : e.pkgClass ≠ [] := hsame.pkgClass ▸ he'.pkgClass.2 hnul
    have howner : e.ainfo.owner ≠ [] := hsame.ainfo ▸ he'.owner.2 hnul
    have hgroup : e.ainfo.group ≠ [] := hsame.ainfo ▸ he'.group.2 hnul
    have hnamed : path = [] → e.ainfo.localPath ≠ none :=
      fun hp => hlocal ▸ hc'.named hnul (hpath.trans hp)
    have hloc : ∀ l, e.ainfo.localPath = some l → Token [] (pathMax - 1) l ∧ l ≠ [] :=
      fun l hl => ⟨(he.localPath l hl).1, (he'.localPath l (hlocal.trans hl)).2 hnul⟩
    have hs : Spelled e path :=
      ⟨he.path path hc.path, hnamed, hloc, ⟨he.pkgClass.1, hclass⟩, hc.linked⟩
    have hvolno : 0 ≤ e.volno := by
      by_contra hneg
      have hne : e.volno ≠ 0 := by omega
      rw [if_pos hne, fmtD, if_pos (by omega)] at hread
      exact gpkgmap_minus _ _ hread
    rw [gpkgmap_line hs hc.ftype he.unclassed hvolno he.volno.2] at hread
    obtain ⟨hdev, hmode, hinfo⟩ := mapRest_text_inv hcfg he howner hgroup hread hsame
    exact ⟨hvolno, hdev, hmode, hinfo, hclass,
      fun hp => hnamed (Option.some.inj (hc.path.symm.trans hp)), fun hl => (hloc [] hl).2 rfl,
      howner, hgroup⟩
  · intro hr
    have hs : Spelled e path :=
      ⟨he.path path hc.path, fun hp => hr.path (hp ▸ hc.path),
        fun l hl => ⟨(he.localPath l hl).1, fun hnil => hr.localPath (hnil ▸ hl)⟩,
        ⟨he.pkgClass.1, hr.pkgClass⟩, hc.linked⟩
    refine ⟨_, reread cfg ept' e path, [], htext, ?_, sameFields_reread he hc.path hr ept'⟩
    rw [gpkgmap_line hs hc.ftype he.unclassed hr.volno he.volno.2]
    exact mapRest_text hcfg he hc hr ept'

end Line

def sampleConfig : MapConfig := MapConfig.initial fun _ => none

theorem sampleConfig_plain : sampleConfig.Plain where
  mapmode := rfl
  dMode := by decide
  dOwner := ⟨⟨by decide, by decide⟩, by decide⟩
  dGroup := ⟨⟨by decide, by decide⟩, by decide⟩

def sampleFile (mode : Nat) : Cfent :=
  ⟨1, 'f', "none".toList, -1, some "/etc/motd".toList,
    ⟨none, mode, "root".toList, "sys".toList, -1, -1⟩, ⟨34, 12, 56⟩, 0, []⟩

theorem gpkgmap_ppkgmap_file :
    gpkgmap sampleConfig zeroEntry "1 f none /etc/motd 0644 root sys 12 34 56\n".toList =
      some (.ok (1, sampleFile 0o644), []) ∧
    ∃ line e' rest, ppkgmap false (sampleFile 0o644) = some line ∧
      gpkgmap sampleConfig zeroEntry line = some (.ok (1, e'), rest) ∧
      SameFields (sampleFile 0o644) e' := by
  have hread : gpkgmap sampleConfig zeroEntry
      "1 f none /etc/motd 0644 root sys 12 34 56\n".toList =
      some (.ok (1, sampleFile 0o644), []) := by decide +kernel
  refine ⟨hread, (gpkgmap_ppkgmap_iff sampleConfig_plain hread zeroEntry).mpr ?_⟩
  exact ⟨by decide, by decide, by decide, by decide, by decide, by decide, by decide, by decide,
    by decide⟩

/-- The mode `?` is written as a number that is read back as another sentinel. -/
theorem gpkgmap_changes_wildcard :
    gpkgmap sampleConfig zeroEntry "1 f none /etc/motd ? root sys 12 34 56\n".toList =
      some (.ok (1, sampleFile wildcard), []) ∧
    ¬ ∃ line e' rest, ppkgmap false (sampleFile wildcard) = some line ∧
      gpkgmap sampleConfig zeroEntry line = some (.ok (1, e'), rest) ∧
      SameFields (sampleFile wildcard) e' := by
  refine ⟨by decide +kernel, ?_⟩
  rintro ⟨line, e', rest, hline, hread, hsame⟩
  have htext : ppkgmap false (sampleFile wildcard) =
      some "1 f none /etc/motd 77777 root sys 12 34 56\n".toList := by decide +kernel
  have hback : gpkgmap sampleConfig zeroEntry
    "1 f none /etc/motd 77777 root sys 12 34 56\n".toList =
      some (.ok (1, sampleFile badMode), []) := by decide +kernel
  rw [htext] at hline
  rw [← Option.some.inj hline, hback] at hread
  cases hread
  exact absurd (congrArg Ainfo.mode hsame.ainfo) (by decide)

end Pkgtools
