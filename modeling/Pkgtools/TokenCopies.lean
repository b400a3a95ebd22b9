import Pkgtools.CLib.Logged
import Pkgtools.PkgMap

namespace Pkgtools
open CLib
set_option autoImplicit true

/-- The loop of `getstr` in `gpkgmap.c` from the character `c` on: its return code, the bytes that
are stored from the start of the buffer on, and the rest of the file. `n` characters are left. -/
def fillLoop (sep : Str) : (n : Nat) → Char → Str → Str → (Int × Str) × Str
  | 0, c, fp, str =>
    if Gpkgmap.endsStr sep c then ((0, str ++ [nul]), c :: fp) else ((-1, str ++ [nul]), fp)
  | n + 1, c, fp, str =>
    if Gpkgmap.endsStr sep c then ((0, str ++ [nul]), c :: fp)
    else match fp with
      | [] => ((0, str ++ [c] ++ [nul]), [])
      | d :: fp =>
        if d = '\n' then ((0, str ++ [c] ++ [nul]), d :: fp)
        else fillLoop sep n d fp (str ++ [c])

/-- `getstr` into memory without an end. -/
def fillStr (sep : Str) (n : Nat) (fp : Str) : (Int × Option Str) × Str :=
  match fp.dropWhile Gpkgmap.isblank with
  | [] => ((1, none), [])
  | c :: fp =>
    if c = '\n' then ((1, none), c :: fp)
    else
      let ((code, stored), fp) := fillLoop sep n c fp []
      ((code, some stored), fp)

/-- The array that a token is copied to, with the limit and the separators of the call. -/
structure TokenSite where
  sep : Str
  limit : Nat
  size : Nat
  deriving DecidableEq, Repr

/-- The path, the local path, the class, the mode, and the owner or group. -/
def pathSite : TokenSite := ⟨['='], pathMax, pathMax⟩
def localSite : TokenSite := ⟨[], pathMax, pathMax⟩
def classSite : TokenSite := ⟨[], clssiz, clssiz + 1⟩
def modeSite : TokenSite := ⟨[], atrsiz, 20⟩
def ownerSite : TokenSite := ⟨[], atrsiz, atrsiz + 1⟩

/-- The calls of `getstr` in `gpkgmap.c`. -/
def mapSites : List TokenSite := [pathSite, localSite, classSite, modeSite, ownerSite]

/-- A token that was copied: where to, the token in the text, and the bytes that were stored. -/
structure TokenCopy where
  site : TokenSite
  token : Str
  stored : Str
  deriving DecidableEq, Repr

def TokenCopy.Fits (t : TokenCopy) : Prop := t.stored.length ≤ t.site.size

instance TokenCopy.decidableFits (t : TokenCopy) : Decidable t.Fits :=
  inferInstanceAs (Decidable (_ ≤ _))

/-- The token at the start of a text, behind the blanks. -/
def tokenOf (sep : Str) (fp : Str) : Str :=
  (fp.dropWhile Gpkgmap.isblank).takeWhile fun c => !Gpkgmap.endsStr sep c

/-- `getstr` with a record of what it copies. -/
def recordStr (site : TokenSite) (s : Str × List TokenCopy) :
    (Int × Option Str) × (Str × List TokenCopy) :=
  match fillStr site.sep site.limit s.1 with
  | ((code, none), fp) => ((code, none), (fp, s.2))
  | ((code, some stored), fp) =>
    ((code, some stored.dropLast), (fp, s.2 ++ [⟨site, tokenOf site.sep s.1, stored⟩]))

/-- The readers of `gpkgmap`, where `getstr` keeps a record and writes into memory without
an end. -/
def recordReaders : MapReaders (Str × List TokenCopy) where
  first := Parse.beside Gpkgmap.readers.first
  getc := Parse.beside Gpkgmap.readers.getc
  eatwhite := Parse.beside Gpkgmap.readers.eatwhite
  ungetc c := Parse.beside (Gpkgmap.readers.ungetc c)
  getnum base bad := Parse.beside (Gpkgmap.readers.getnum base bad)
  getstr sep n size s := some (recordStr ⟨sep, n, size⟩ s)
  getend := Parse.beside Gpkgmap.readers.getend
  findend := Parse.beside Gpkgmap.readers.findend
  modeLimit := Gpkgmap.readers.modeLimit
  modeSize := Gpkgmap.readers.modeSize

/-- `gpkgmap` on memory without an end, and the tokens that it copies. -/
def gpkgmapCopies (cfg : MapConfig) (ept : Cfent) (fp : Str) :
    Option (Except Fail (Int × Cfent) × (Str × List TokenCopy)) :=
  readline recordReaders cfg (fp.length + 1) (fp.length + 1) (mapInit cfg ept) (fp, [])

theorem fillLoop_eq (sep : Str) (n : Nat) (c : Char) (fp str : Str) : fillLoop sep n c fp str =
    if n < ((c :: fp).takeWhile fun c => !Gpkgmap.endsStr sep c).length then
      ((-1, str ++ ((c :: fp).takeWhile fun c => !Gpkgmap.endsStr sep c).take n ++ [nul]),
        (c :: fp).drop (n + 1))
    else ((0, str ++ ((c :: fp).takeWhile fun c => !Gpkgmap.endsStr sep c) ++ [nul]),
      (c :: fp).drop ((c :: fp).takeWhile fun c => !Gpkgmap.endsStr sep c).length) := by
  induction n generalizing c fp str with
  | zero =>
    rw [fillLoop.eq_def]
    by_cases hc : Gpkgmap.endsStr sep c = true <;> simp [hc]
  | succ n ih =>
    rw [fillLoop.eq_def]
    dsimp only
    by_cases hc : Gpkgmap.endsStr sep c = true
    · simp [hc]
    · rw [if_neg hc, List.takeWhile_cons_of_pos (by simpa using hc)]
      cases fp with
      | nil => simp
      | cons d fp =>
        by_cases hd : d = '\n'
        · simp [hd, Gpkgmap.endsStr]
        · dsimp only
          rw [if_neg hd, ih]
          simp

/-- What `getstr` stores is the token with its NUL, and it fits just if the call is defined. -/
theorem getstr_eq_record (site : TokenSite) (fp : Str) (tr : List TokenCopy) :
    ∃ r fp' new, recordStr site (fp, tr) = (r, (fp', tr ++ new)) ∧
      (∀ t ∈ new, t.site = site ∧ t.stored.length = min t.token.length site.limit + 1) ∧
      Gpkgmap.getstr site.sep site.limit site.size fp =
        if ∀ t ∈ new, t.Fits then some (r, fp') else none := by
  rw [recordStr, fillStr, Gpkgmap.getstr, tokenOf]
  dsimp only
  cases hs : fp.dropWhile Gpkgmap.isblank with
  | nil => exact ⟨(1, none), [], [], by simp⟩
  | cons c s =>
    by_cases hc : c = '\n'
    · refine ⟨(1, none), c :: s, [], ?_⟩
      simp [hc]
    · have hne : ¬ (c :: s = [] ∨ (c :: s).head? = some '\n') := by simpa using hc
      dsimp only
      rw [if_neg hc, if_neg hne, fillLoop_eq]
      generalize ((c :: s).takeWhile fun c => !Gpkgmap.endsStr site.sep c) = tok
      by_cases hlen : site.limit < tok.length
      · rw [if_pos hlen, if_pos hlen]
        refine ⟨_, _, [⟨site, tok, tok.take site.limit ++ [nul]⟩], rfl, ?_, ?_⟩
        · simp [Nat.min_comm]
        · simp only [List.mem_singleton, forall_eq, TokenCopy.Fits, List.length_append,
            List.length_take, List.length_singleton, List.nil_append, List.dropLast_concat]
          by_cases hfit : site.size ≤ min tok.length site.limit
          · rw [if_pos hfit, if_neg (by omega)]
          · rw [if_neg hfit, if_pos (by omega)]
      · rw [if_neg hlen, if_neg hlen]
        refine ⟨_, _, [⟨site, tok, tok ++ [nul]⟩], rfl, ?_, ?_⟩
        · simp
          omega
        · simp only [List.mem_singleton, forall_eq, TokenCopy.Fits, List.length_append,
            List.length_singleton, List.nil_append, List.dropLast_concat]
          by_cases hfit : site.size ≤ min tok.length site.limit
          · rw [if_pos hfit, if_neg (by omega)]
          · rw [if_neg hfit, if_pos (by omega)]

/-- What was copied, in a run of `gpkgmap`: a token goes to the array of its call, as far as the
limit allows, with a NUL. -/
def TokenCopy.Stores (t : TokenCopy) : Prop :=
  t.site ∈ mapSites ∧ t.stored.length = min t.token.length t.site.limit + 1

/-- A reader on a file does what the recording one does, if all that this one copies fits. -/
abbrev Mirrors (m : Parse Str Fail α) (l : Parse (Str × List TokenCopy) Fail α) : Prop :=
  Parse.Logged TokenCopy.Fits TokenCopy.Stores m l

namespace Mirrors
open Parse.Logged

theorem getstr (site : TokenSite) (hsite : site ∈ mapSites) :
    Mirrors (Parse.prim (Gpkgmap.readers.getstr site.sep site.limit site.size))
      (Parse.prim (recordReaders.getstr site.sep site.limit site.size)) := by
  refine Parse.Logged.prim fun fp tr => ?_
  obtain ⟨a, fp', new, hrec, hnew, hget⟩ := getstr_eq_record site fp tr
  refine ⟨a, fp', new, congrArg some hrec, fun t ht => ?_, hget⟩
  obtain ⟨rfl, hstored⟩ := hnew t ht
  exact ⟨hsite, hstored⟩

section Entry
variable (cfg : MapConfig) (ept : Cfent)

theorem mapError (errstr : Str) : Mirrors (α := α) (Pkgtools.mapError Gpkgmap.readers errstr ept)
    (Pkgtools.mapError recordReaders errstr ept) :=
  bind (beside _) fun _ => raise _

theorem mapNum (bad : Int) (store : Int → Cfent → Cfent) (errstr : String) :
    Mirrors (Pkgtools.mapNum Gpkgmap.readers bad store errstr ept)
      (Pkgtools.mapNum recordReaders bad store errstr ept) :=
  bind (beside _) fun _ => ite (mapError _ _) (ret _)

theorem mapStr (site : TokenSite) (hsite : site ∈ mapSites) (store : Str → Cfent → Cfent)
    (errstr : String) :
    Mirrors (Pkgtools.mapStr Gpkgmap.readers site.sep site.limit site.size store errstr ept)
      (Pkgtools.mapStr recordReaders site.sep site.limit site.size store errstr ept) :=
  bind (getstr site hsite) fun _ => ite (mapError _ _) (ret _)

theorem mapPath : Mirrors (Pkgtools.mapPath Gpkgmap.readers ept)
    (Pkgtools.mapPath recordReaders ept) :=
  mapStr ept pathSite (by decide) storePath _

theorem mapContent : Mirrors (Pkgtools.mapContent Gpkgmap.readers ept)
    (Pkgtools.mapContent recordReaders ept) :=
  bind (beside _) fun _ => ite (ret _) (bind (mapNum _ _ _ _) fun _ => mapNum _ _ _ _)

theorem mapNoLocal (c : Option Char) : Mirrors (Pkgtools.mapNoLocal Gpkgmap.readers c ept)
    (Pkgtools.mapNoLocal recordReaders c ept) :=
  bind (beside _) fun _ => ret _

theorem mapPathLocal : Mirrors (Pkgtools.mapPathLocal Gpkgmap.readers ept)
    (Pkgtools.mapPathLocal recordReaders ept) :=
  bind (beside _) fun _ => ite (mapStr ept localSite (by decide) storeLocal _) (mapNoLocal _ _)

theorem mapPathEnd : Mirrors (Pkgtools.mapPathEnd Gpkgmap.readers ept)
    (Pkgtools.mapPathEnd recordReaders ept) :=
  bind (onlyIf (mapContent _)) fun _ => bind (beside _) fun _ => ite (raise _) (ret _)

theorem mapPathOnly : Mirrors (Pkgtools.mapPathOnly Gpkgmap.readers ept)
    (Pkgtools.mapPathOnly recordReaders ept) :=
  bind (mapPath _) fun _ => bind (mapPathLocal _) fun _ => mapPathEnd _

theorem mapLocal : Mirrors (Pkgtools.mapLocal Gpkgmap.readers ept)
    (Pkgtools.mapLocal recordReaders ept) := by
  refine bind (beside _) fun c => ite (mapStr ept localSite (by decide) storeLocal _) (ite ?_ ?_)
  · exact ite (bind (beside _) fun _ => raise _) (raise _)
  · exact mapNoLocal _ _

theorem mapDevice : Mirrors (Pkgtools.mapDevice Gpkgmap.readers ept)
    (Pkgtools.mapDevice recordReaders ept) :=
  bind (mapNum _ _ _ _) fun _ => mapNum _ _ _ _

theorem mapName (name : Str) (store : Str → Cfent → Cfent) :
    Mirrors (Pkgtools.mapName Gpkgmap.readers cfg name store ept)
      (Pkgtools.mapName recordReaders cfg name store ept) := by
  unfold Pkgtools.mapName
  split
  · exact undefined
  · exact ite (mapError _ _) (ret _)

theorem mapNames : Mirrors (Pkgtools.mapNames Gpkgmap.readers cfg ept)
    (Pkgtools.mapNames recordReaders cfg ept) :=
  bind (mapName _ _ _ _) fun _ => mapName _ _ _ _

theorem mapMode : Mirrors (Pkgtools.mapMode Gpkgmap.readers cfg ept)
    (Pkgtools.mapMode recordReaders cfg ept) := by
  refine bind (getstr modeSite (by decide)) fun (retval, v) =>
    ite (ret _) (ite (mapError _ _) ?_)
  have hsize : recordReaders.modeSize = Gpkgmap.readers.modeSize := rfl
  rw [hsize]
  split
  · exact undefined
  · exact mapError _ _
  · exact ret _

theorem mapAttr (store : Str → Cfent → Cfent) (errstr : String) :
    Mirrors (Pkgtools.mapAttr Gpkgmap.readers store errstr ept)
      (Pkgtools.mapAttr recordReaders store errstr ept) :=
  bind (getstr ownerSite (by decide)) fun _ => ite (ret _) (ite (mapError _ _) (ret _))

theorem mapAttrs : Mirrors (Pkgtools.mapAttrs Gpkgmap.readers cfg ept)
    (Pkgtools.mapAttrs recordReaders cfg ept) :=
  bind (mapMode _ _) fun _ => ite (ret _) <| bind (mapAttr _ _ _) fun _ => ite (ret _) <|
    bind (mapAttr _ _ _) fun _ => ite (ret _) <| bind (onlyIf (mapNames _ _)) fun _ => ret _

theorem mapFields : Mirrors (Pkgtools.mapFields Gpkgmap.readers cfg ept)
    (Pkgtools.mapFields recordReaders cfg ept) := by
  refine ite (mapError _ _) (bind (onlyIf (mapDevice _)) fun ept => bind ?_ fun _ => bind ?_ ?_)
  · exact ite (mapAttrs _ _) (ret _)
  · exact ite (onlyIf (mapContent _)) (ret _)
  · exact fun _ => bind (beside _) fun _ => ite (raise _) (ret _)

theorem mapTyped (c : Char) : Mirrors (Pkgtools.mapTyped Gpkgmap.readers cfg c ept)
    (Pkgtools.mapTyped recordReaders cfg c ept) :=
  bind (mapStr _ classSite (by decide) storeClass _) fun _ => bind (mapPath _) fun _ =>
    bind (mapLocal _) fun _ => mapFields _ _

theorem readVolno (f : Nat) (c : Char) (volno : Int) :
    Mirrors (Pkgtools.readVolno Gpkgmap.readers f c volno)
      (Pkgtools.readVolno recordReaders f c volno) := by
  induction f generalizing c volno with
  | zero => exact undefined
  | succ f ih =>
    refine bind (beside _) fun d => ?_
    cases d with
    | none => exact ret _
    | some d => exact ite (ih _ _) (ret _)

theorem mapSwitch (fuel : Nat) (c : Char) :
    Mirrors (Pkgtools.mapSwitch Gpkgmap.readers cfg fuel c ept)
      (Pkgtools.mapSwitch recordReaders cfg fuel c ept) := by
  refine ite ?volume (ite ?comment (ite (ret _) (ite ?install (ite ?path (ite ?typed ?unknown)))))
  case volume => exact ite (mapError _ _) (bind (readVolno _ _ _) fun _ => ret _)
  case comment => exact bind (beside _) fun _ => ret _
  case install =>
    exact bind (beside _) fun _ => bind (beside _) fun _ => bind (mapPathOnly _) fun _ => ret _
  case path => exact bind (beside _) fun _ => bind (mapPathOnly _) fun _ => ret _
  case typed => exact bind (mapTyped _ _ _) fun _ => ret _
  case unknown => exact mapError _ _

theorem readline (fuel f : Nat) : Mirrors (Pkgtools.readline Gpkgmap.readers cfg fuel f ept)
    (Pkgtools.readline recordReaders cfg fuel f ept) := by
  induction f generalizing ept with
  | zero => exact undefined
  | succ f ih =>
    refine bind (beside _) fun c => ?_
    cases c with
    | none => exact ret _
    | some c =>
      refine bind (mapSwitch _ _ _ _) fun r => ?_
      cases r with
      | inl r => exact ret _
      | inr ept => exact ih ept

end Entry

end Mirrors

/-- A token whose copy fits: paths and modes have a longest one, and the rest is cut off in time. -/
def TokenCopy.Short (t : TokenCopy) : Prop :=
  (t.site = pathSite ∨ t.site = localSite → t.token.length < pathMax) ∧
    (t.site = modeSite → t.token.length < 20)

theorem TokenCopy.Stores.fits_iff {t : TokenCopy} (h : t.Stores) : t.Fits ↔ t.Short := by
  obtain ⟨site, token, stored⟩ := t
  obtain ⟨hsite, hlen⟩ := h
  simp only [TokenCopy.Fits, TokenCopy.Short] at hsite hlen ⊢
  rw [hlen]
  have hcases : site = pathSite ∨ site = localSite ∨ site = classSite ∨ site = modeSite ∨
      site = ownerSite := by simpa [mapSites] using hsite
  have hpath : pathSite ≠ modeSite ∧ localSite ≠ modeSite := by decide
  have hclass : classSite ≠ pathSite ∧ classSite ≠ localSite ∧ classSite ≠ modeSite := by decide
  have hmode : modeSite ≠ pathSite ∧ modeSite ≠ localSite := by decide
  have howner : ownerSite ≠ pathSite ∧ ownerSite ≠ localSite ∧ ownerSite ≠ modeSite := by decide
  rcases hcases with rfl | rfl | rfl | rfl | rfl
  · simp only [true_or, true_implies, hpath.1, false_implies, and_true]
    simp only [pathSite, pathMax]
    omega
  · simp only [or_true, true_implies, hpath.2, false_implies, and_true]
    simp only [localSite, pathMax]
    omega
  · simp only [hclass, or_self, false_implies, and_self, iff_true]
    exact Nat.succ_le_succ (Nat.min_le_right _ _)
  · simp only [hmode, or_self, false_implies, true_implies, true_and]
    simp only [modeSite, atrsiz]
    omega
  · simp only [howner, or_self, false_implies, and_self, iff_true]
    exact Nat.succ_le_succ (Nat.min_le_right _ _)

/-- What `COPYPATH` makes of the length of a path. -/
def copiedLength (len : Nat) : Nat := if len > pathMax then pathMax - 1 else len

theorem copyPath_length (s : Str) : (copyPath s).length = copiedLength s.length := by
  rw [copyPath, copiedLength]
  split
  · rw [List.length_take]
    omega
  · rfl

/-- All that `COPYPATH` writes is inside `lpath`: the path, and its NUL behind it. -/
def CopyPathFits (s : Str) : Prop := (copyPath s ++ [nul]).length ≤ pathMax

theorem copyPathFits_iff (s : Str) : CopyPathFits s ↔ s.length ≠ pathMax := by
  rw [CopyPathFits, List.length_append, copyPath_length, copiedLength, List.length_singleton]
  have hpos : 0 < pathMax := by decide
  split <;> omega

/-- The path of the entry at which one round of the main loop of `srchcfile` gets behind
the path. -/
def Search.entryPath (s : Search) : Option Str :=
  let c := if vfpGetBytesRemaining s.cf = 0 then nul else s.cf.ptr.deref
  if c = '/' then
    let cpath := s.cf.ptr.rest.takeWhile fun c => !isPkgPathSep c
    if (vfpIncCurrPtrBy s.cf cpath.length).ptr.deref = nul then none else some cpath
  else if c = nul ∨ isspace c ∨ c = '#' ∨ c = ':' then none
  else match readType bufferReaders s.ept s.cf.ptr with
    | some (.ok _, p) =>
      let cpath := p.rest.takeWhile fun c => !isPkgPathSep c
      if cpath = [] then none else some cpath
    | _ => none

/-- The path that `COPYPATH` stores before the main loop of `srchcfile` returns: the one of its last
round, which may have none. -/
def Search.copied (stack : Str) (target : Option Str) : Nat → Search → Option Str
  | 0, _ => none
  | f + 1, s =>
    match s.step stack target with
    | .inl _ => s.entryPath
    | .inr s => s.copied stack target f

theorem Search.step_eq_atPath {s : Search} (h : s.entryPath = some cpath) (stack : Str)
    (target : Option Str) : ∃ s' : Search, ∃ rdpath pos start,
      s.step stack target = s'.atPath stack target rdpath pos start cpath := by
  rw [Search.entryPath] at h
  rw [Search.step]
  dsimp only at h ⊢
  generalize (if vfpGetBytesRemaining s.cf = 0 then nul else s.cf.ptr.deref) = c at h ⊢
  by_cases hslash : c = '/'
  · rw [if_pos hslash] at h ⊢
    split at h
    · cases h
    · obtain rfl := Option.some_inj.mp h
      rename_i hend
      rw [if_neg hend]
      exact ⟨_, _, _, _, rfl⟩
  · rw [if_neg hslash] at h ⊢
    by_cases hskip : c = nul ∨ isspace c ∨ c = '#' ∨ c = ':'
    · rw [if_pos hskip] at h
      cases h
    · rw [if_neg hskip] at h
      rw [if_neg fun hc => hskip (.inl hc), if_neg fun hc => hskip (.inr hc)]
      cases htype : readType bufferReaders s.ept s.cf.ptr with
      | none =>
        rw [htype] at h
        cases h
      | some x =>
        obtain ⟨r, p⟩ := x
        rw [htype] at h
        cases r with
        | error e => cases h
        | ok ept =>
          dsimp only at h ⊢
          split at h
          · cases h
          · obtain rfl := Option.some_inj.mp h
            rename_i hne
            rw [if_neg hne]
            exact ⟨_, _, _, _, rfl⟩

/-- A run of `srchcfile` stores inside `lpath` unless the path of its last entry fills it. -/
theorem Search.copied_fits (stack : Str) (target : Option Str) (f : Nat) (s : Search) :
    (∀ p ∈ s.copied stack target f, CopyPathFits p) ↔
      ∀ p ∈ s.copied stack target f, p.length ≠ pathMax :=
  forall₂_congr fun p _ => copyPathFits_iff p

theorem recordStr_fits {site : TokenSite} (hsite : site ∈ mapSites) (fp : Str) :
    (∀ t ∈ (recordStr site (fp, [])).2.2, t.Fits) ↔
      ∀ t ∈ (recordStr site (fp, [])).2.2, t.Short := by
  obtain ⟨r, fp', new, hrec, hnew, -⟩ := getstr_eq_record site fp []
  rw [hrec]
  refine forall₂_congr fun t ht => TokenCopy.Stores.fits_iff ?_
  obtain ⟨rfl, hstored⟩ := hnew t ht
  exact ⟨hsite, hstored⟩

/-- A run of `gpkgmap` is defined just if all its copies fit. -/
theorem gpkgmapCopies_spec {cfg : MapConfig} {ept : Cfent} {fp fp' : Str}
    {r : Except Fail (Int × Cfent)} {copies : List TokenCopy}
    (h : gpkgmapCopies cfg ept fp = some (r, (fp', copies))) : (∀ t ∈ copies, t.Stores) ∧
      gpkgmap cfg ept fp = if ∀ t ∈ copies, t.Fits then some (r, fp') else none := by
  obtain ⟨new, hcopies, hnew, hrun⟩ := (Mirrors.readline cfg (mapInit cfg ept) (fp.length + 1)
    (fp.length + 1) fp []).2 r fp' copies h
  obtain rfl : copies = new := hcopies
  exact ⟨hnew, hrun⟩

/-- Where `gpkgmap`, each call of its `getstr`, and `COPYPATH` write inside the arrays they are
given. -/
theorem tokens_fit_iff (cfg : MapConfig) (ept : Cfent) (fp stack : Str) (target : Option Str)
    (f : Nat) (s : Search) :
    (match gpkgmapCopies cfg ept fp with
      | none => gpkgmap cfg ept fp = none
      | some (r, (fp', copies)) => (∀ t ∈ copies, t.site ∈ mapSites) ∧
        ((∀ t ∈ copies, t.Fits) ↔ ∀ t ∈ copies, t.Short) ∧
        gpkgmap cfg ept fp = if ∀ t ∈ copies, t.Fits then some (r, fp') else none) ∧
    (∀ site ∈ mapSites, (∀ t ∈ (recordStr site (fp, [])).2.2, t.Fits) ↔
      ∀ t ∈ (recordStr site (fp, [])).2.2, t.Short) ∧
    ((∀ p ∈ s.copied stack target f, CopyPathFits p) ↔
      ∀ p ∈ s.copied stack target f, p.length ≠ pathMax) := by
  refine ⟨?_, fun site hsite => recordStr_fits hsite fp, Search.copied_fits stack target f s⟩
  cases h : gpkgmapCopies cfg ept fp with
  | none => exact (Mirrors.readline cfg (mapInit cfg ept) _ _ fp []).1 h
  | some x =>
    obtain ⟨r, fp', copies⟩ := x
    obtain ⟨hstores, hrun⟩ := gpkgmapCopies_spec h
    exact ⟨fun t ht => (hstores t ht).1, forall₂_congr fun t ht => (hstores t ht).fits_iff, hrun⟩

/-- A mode of twenty digits: the size of the array of each token, and the bytes stored in it. A
path of 1024 bytes is not cut off. -/
theorem tokens_overrun :
    (gpkgmapCopies (MapConfig.initial fun _ => none) zeroEntry
      "f none x 00000000000000000755 root sys 1 2 3\n".toList).map (fun x => x.2.2.map fun t =>
        (t.site.size, t.stored.length)) = some [(65, 5), (1024, 2), (20, 21), (65, 5), (65, 4)] ∧
      ¬ CopyPathFits (List.replicate 1024 '/') := by
  refine ⟨by decide +kernel, ?_⟩
  rw [copyPathFits_iff, List.length_replicate]
  exact fun h => h rfl

end Pkgtools
