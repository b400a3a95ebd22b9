import Pkgtools.SmlEdit
import Pkgtools.SmlDecode

namespace Pkgtools
open CLib
set_option autoImplicit true

def fileStatInfoTag : Str := "File-Stat-Info".toList

/-- The fields of `struct stat` that are recorded, each converted to `unsigned long long`. -/
structure FileStat where
  st_ino : BitVec 64
  st_mode : BitVec 64
  st_mtime : BitVec 64
  st_ctime : BitVec 64
  st_size : BitVec 64
  deriving DecidableEq, Repr

/-- A number printed with `0x%llx`. -/
def hexText (n : BitVec 64) : Str := '0' :: 'x' :: Nat.toDigits 16 n.toNat

/-- The names and the values of the fields, in the order of the source. -/
def FileStat.fields (st : FileStat) : List (Str × Str) :=
  [("st_ino".toList, hexText st.st_ino), ("st_mode".toList, hexText st.st_mode),
    ("st_mtime".toList, hexText st.st_mtime), ("st_ctime".toList, hexText st.st_ctime),
    ("st_size".toList, hexText st.st_size)]

section Code

/-- The calls of `smlSetParamF`, one for each field. -/
def setFields : SmlTag → List (Str × Str) → Option SmlTag
  | rtag, [] => some rtag
  | rtag, f :: fs => (smlSetParam rtag f.1 f.2).bind (setFields · fs)

def storeTag (tag : SmlTag) (p : TagPtr) (t : SmlTag) : SmlTag :=
  match p.place with
  | none => t
  | some k => .mk tag.name tag.params (tag.tags.set k t)

/-- `smlSetFileStatInfo`. It fails if what it deleted is still there. -/
def smlSetFileStatInfo (tag : SmlTag) (statbuf : FileStat) (path : Option Str) : Option SmlTag := do
  let deleted ← smlFindAndDelTag tag fileStatInfoTag
  if (smlGetTagByName deleted.2 0 fileStatInfoTag).isSome then none
  else
    let rtag ← smlNewTag fileStatInfoTag
    let added ← smlAddTag deleted.2 0 rtag
    let p ← smlGetTagByName added.2 0 fileStatInfoTag
    let rtag ← setFields p.target ((path.map ("st_path".toList, ·)).toList ++ statbuf.fields)
    some (storeTag added.2 p rtag)

/-- The comparisons of `smlFstatCompareEq`, up to the first that fails. -/
def fieldsEq (tag : SmlTag) : List (Str × Str) → Option Bool
  | [] => some true
  | f :: fs => (smlParamEq tag fileStatInfoTag f.1 f.2).bind fun eq =>
    if eq then fieldsEq tag fs else some false

/-- `smlFstatCompareEq`. -/
def smlFstatCompareEq (statbuf : Option FileStat) (tag : Option SmlTag) (path : Option Str) :
    Option Bool :=
  match tag, statbuf with
  | none, _ => some false
  | some _, none => some false
  | some tag, some statbuf =>
    fieldsEq tag ((path.map ("st_path".toList, ·)).toList ++ statbuf.fields)

def recordStats : SmlTag → List (FileStat × Option Str) → Option SmlTag
  | tag, [] => some tag
  | tag, r :: rs => (smlSetFileStatInfo tag r.1 r.2).bind (recordStats · rs)

end Code

def infoTag (st : FileStat) (path : Option Str) : SmlTag :=
  .mk fileStatInfoTag (((path.map ("st_path".toList, ·)).toList ++ st.fields).map
    fun f => ⟨f.1, f.2⟩) []

def otherTags (name : Str) (tags : List SmlTag) : List SmlTag := tags.filter (·.name ≠ name)

section Hex

def hexDigits : Str := "0123456789abcdef".toList

theorem digitChar_hex : ∀ d < 16, hexDigitValue d.digitChar = d ∧ d.digitChar ∈ hexDigits := by
  decide

theorem hexNumber_concat (ds : Str) (c : Char) :
    hexNumber (ds ++ [c]) = hexNumber ds * 16 + hexDigitValue c := by
  rw [hexNumber, List.foldl_append, List.foldl_cons, List.foldl_nil, ← hexNumber]

theorem toDigits_hex (n : Nat) :
    hexNumber (Nat.toDigits 16 n) = n ∧ ∀ c ∈ Nat.toDigits 16 n, c ∈ hexDigits := by
  induction n using Nat.strongRecOn with
  | ind n ih =>
    rw [Nat.toDigits_eq_if (by decide)]
    split
    · rename_i hlt
      obtain ⟨hvalue, hmem⟩ := digitChar_hex n hlt
      refine ⟨?_, fun c hc => ?_⟩
      · rw [← List.nil_append [n.digitChar], hexNumber_concat, hvalue]
        exact Nat.zero_add n
      · rw [List.mem_singleton.mp hc]
        exact hmem
    · rename_i hge
      obtain ⟨hvalue, hmem⟩ := digitChar_hex (n % 16) (Nat.mod_lt n (by decide))
      obtain ⟨ihvalue, ihmem⟩ := ih (n / 16) (by omega)
      refine ⟨?_, fun c hc => ?_⟩
      · rw [hexNumber_concat, ihvalue, hvalue]
        omega
      · rcases List.mem_append.mp hc with hc | hc
        · exact ihmem c hc
        · rw [List.mem_singleton.mp hc]
          exact hmem

theorem hexDigits_plain : ∀ c ∈ hexDigits, c.toLower = c ∧ c ≠ nul := by decide

theorem hexText_chars (n : BitVec 64) : ∀ c ∈ hexText n, c.toLower = c ∧ c ≠ nul := by
  intro c hc
  rcases List.mem_cons.mp hc with rfl | hc
  · decide
  · rcases List.mem_cons.mp hc with rfl | hc
    · decide
    · exact hexDigits_plain c ((toDigits_hex n.toNat).2 c hc)

theorem hexText_inj {m n : BitVec 64} (h : hexText m = hexText n) : m = n := by
  have hdigits : Nat.toDigits 16 m.toNat = Nat.toDigits 16 n.toNat :=
    (List.cons.inj (List.cons.inj h).2).2
  have hvalue := congrArg hexNumber hdigits
  rw [(toDigits_hex _).1, (toDigits_hex _).1] at hvalue
  exact BitVec.eq_of_toNat_eq hvalue

theorem toLower_ne_nul {c : Char} (h : c ≠ nul) : c.toLower ≠ nul := by
  intro hl
  delta Char.toLower at hl
  split at hl
  · rename_i hrange
    have hval : (c.val + ('a'.val - 'A'.val)).toNat = 0 := congrArg (fun d => d.val.toNat) hl
    have hle : c.val.toNat ≤ 90 := UInt32.le_iff_toNat_le.mp hrange.2
    rw [UInt32.toNat_add, show ('a'.val - 'A'.val).toNat = 32 from rfl] at hval
    omega
  · exact h hl

theorem nulFree_toLower (hs : NulFree s) : NulFree (s.map Char.toLower) := by
  intro hmem
  obtain ⟨c, hc, hnul⟩ := List.mem_map.mp hmem
  exact toLower_ne_nul (fun h => hs (h ▸ hc)) hnul

theorem strcasecmp_eq_zero (hs : NulFree s) (ht : NulFree t) :
    strcasecmp s t = 0 ↔ s.map Char.toLower = t.map Char.toLower :=
  strcmp_eq_zero (nulFree_toLower hs) (nulFree_toLower ht)

/-- Numbers are printed with small letters, so a comparison without regard to case tells them
apart. -/
theorem strcasecmp_hexText (m n : BitVec 64) : strcasecmp (hexText m) (hexText n) = 0 ↔ m = n := by
  have hlower (k : BitVec 64) : (hexText k).map Char.toLower = hexText k :=
    (List.map_congr_left fun c hc => (hexText_chars k c hc).1).trans (List.map_id _)
  have hnul (k : BitVec 64) : NulFree (hexText k) := fun h => (hexText_chars k nul h).2 rfl
  rw [strcasecmp_eq_zero (hnul m) (hnul n), hlower, hlower]
  exact ⟨hexText_inj, congrArg hexText⟩

end Hex

section Record
variable {tag : SmlTag} {name : Str} {st : FileStat} {path : Option Str}

theorem otherTags_eq_self (h : namedTags name tags = []) : otherTags name tags = tags := by
  rw [otherTags, List.filter_eq_self]
  intro t ht
  rw [namedTags, List.filter_eq_nil_iff] at h
  exact decide_eq_true fun hname => h t ht (decide_eq_true hname)

theorem namedTags_otherTags (name : Str) (tags : List SmlTag) :
    namedTags name (otherTags name tags) = [] := by
  rw [namedTags, List.filter_eq_nil_iff]
  intro t ht hname
  exact of_decide_eq_true (List.mem_filter.mp ht).2 (of_decide_eq_true hname)

theorem otherTags_idem (name : Str) (tags : List SmlTag) :
    otherTags name (otherTags name tags) = otherTags name tags :=
  otherTags_eq_self (namedTags_otherTags name tags)

theorem eraseIdx_named (h : (namedTags name tags).length ≤ 1)
    (hp : tagByNameLoop name 0 k tags = some p) :
    ∃ i, p.place = some (k + i) ∧ tags.eraseIdx i = otherTags name tags := by
  induction tags generalizing k with
  | nil => cases hp
  | cons t ts ih =>
    rw [tagByNameLoop] at hp
    rw [namedTags, List.filter_cons] at h
    by_cases hname : t.name = name
    · rw [if_pos hname, if_pos rfl] at hp
      rw [if_pos (decide_eq_true hname), List.length_cons, ← namedTags] at h
      cases hp
      refine ⟨0, rfl, ?_⟩
      have hrest : namedTags name ts = [] := List.eq_nil_of_length_eq_zero (by omega)
      rw [List.eraseIdx_cons_zero, otherTags, List.filter_cons_of_neg (by simp [hname]),
        ← otherTags, otherTags_eq_self hrest]
    · rw [if_neg hname] at hp
      rw [if_neg (by simp [hname]), ← namedTags] at h
      obtain ⟨i, hplace, herase⟩ := ih h hp
      refine ⟨i + 1, by rw [hplace, Nat.add_assoc, Nat.add_comm 1], ?_⟩
      rw [List.eraseIdx_cons_succ, herase, otherTags, otherTags,
        List.filter_cons_of_pos (by simp [hname])]

theorem smlGetTagByName_eq_none (hname : tag.name ≠ name) (h : namedTags name tag.tags = []) :
    smlGetTagByName tag 0 name = none := by
  have htarget := smlGetTagByName_target tag 0 name
  rw [if_neg fun h => hname h.1, h, List.getElem?_nil] at htarget
  exact Option.map_eq_none_iff.mp htarget

theorem smlGetTagByName_head (hname : name ≠ findTag) (ht : t.name = findTag) :
    smlGetTagByName (.mk name params (t :: ts)) 0 findTag = some ⟨some 0, t⟩ := by
  rw [smlGetTagByName, SmlTag.name, if_neg fun h => hname h.1, SmlTag.tags,
    if_neg (List.cons_ne_nil _ _), List.length_cons, if_neg (by omega), tagByNameLoop, if_pos ht,
    if_pos rfl]

theorem smlFindAndDelTag_eq (hne : name ≠ []) (hname : tag.name ≠ name)
    (h : (namedTags name tag.tags).length ≤ 1) : ∃ deleted, smlFindAndDelTag tag name =
      some (deleted, .mk tag.name tag.params (otherTags name tag.tags)) := by
  rw [smlFindAndDelTag, if_neg hne]
  cases hget : smlGetTagByName tag 0 name with
  | none =>
    have htarget := smlGetTagByName_target tag 0 name
    rw [if_neg fun h => hname h.1, Nat.cast_zero, hget, Option.map_none] at htarget
    have hnil : namedTags name tag.tags = [] := by
      cases hnamed : namedTags name tag.tags with
      | nil => rfl
      | cons t ts =>
        rw [hnamed] at htarget
        cases htarget
    refine ⟨false, ?_⟩
    rw [otherTags_eq_self hnil]
    cases tag
    rfl
  | some p =>
    refine ⟨true, ?_⟩
    rw [smlGetTagByName, if_neg fun h => hname h.1] at hget
    split at hget
    · cases hget
    · split at hget
      · cases hget
      · obtain ⟨i, hplace, herase⟩ := eraseIdx_named h hget
        rw [Nat.zero_add] at hplace
        dsimp only
        rw [smlDelTag, hplace]
        dsimp only
        rw [herase]

theorem setFields_eq (fs : List (Str × Str)) (rtag : SmlTag) (hne : ∀ f ∈ fs, f.1 ≠ [])
    (hnodup : (rtag.params.map SmlParam.name ++ fs.map Prod.fst).Nodup) :
    setFields rtag fs =
      some (.mk rtag.name (rtag.params ++ fs.map fun f => ⟨f.1, f.2⟩) rtag.tags) := by
  induction fs generalizing rtag with
  | nil =>
    rw [setFields, List.map_nil, List.append_nil]
    cases rtag
    rfl
  | cons f fs ih =>
    have hnew : f.1 ∉ rtag.params.map SmlParam.name := fun hmem =>
      (List.disjoint_of_nodup_append hnodup) hmem List.mem_cons_self
    rw [setFields, smlSetParam_new (hne f List.mem_cons_self) hnew, Option.bind_some, ih]
    · rw [SmlTag.params, List.append_assoc]
      rfl
    · exact fun g hg => hne g (List.mem_cons_of_mem _ hg)
    · rw [SmlTag.params, List.map_append, List.append_assoc]
      exact hnodup

theorem fields_names (st : FileStat) (path : Option Str) :
    ((((path.map ("st_path".toList, ·)).toList ++ st.fields).map Prod.fst).Nodup) ∧
      ∀ f ∈ (path.map ("st_path".toList, ·)).toList ++ st.fields, f.1 ≠ [] := by
  have hnames : ((path.map ("st_path".toList, ·)).toList ++ st.fields).map Prod.fst =
      (if path.isSome then ["st_path".toList] else []) ++ ["st_ino".toList, "st_mode".toList,
        "st_mtime".toList, "st_ctime".toList, "st_size".toList] := by
    cases path with
    | none => rfl
    | some q => rfl
  refine ⟨?_, fun f hf hnil => ?_⟩
  · rw [hnames]
    cases path.isSome <;> decide
  · have hmem : [] ∈ ((path.map ("st_path".toList, ·)).toList ++ st.fields).map Prod.fst :=
      List.mem_map.mpr ⟨f, hf, hnil⟩
    rw [hnames] at hmem
    revert hmem
    cases path.isSome <;> decide

/-- One recording: the element of an earlier one is gone, and the new one is in front of the
others. -/
theorem smlSetFileStatInfo_eq (hname : tag.name ≠ fileStatInfoTag)
    (h : (namedTags fileStatInfoTag tag.tags).length ≤ 1) (st : FileStat) (path : Option Str) :
    smlSetFileStatInfo tag st path =
      some (.mk tag.name tag.params (infoTag st path :: otherTags fileStatInfoTag tag.tags)) := by
  obtain ⟨deleted, hdel⟩ := smlFindAndDelTag_eq (by decide) hname h
  have hgone : smlGetTagByName (.mk tag.name tag.params (otherTags fileStatInfoTag tag.tags)) 0
      fileStatInfoTag = none := smlGetTagByName_eq_none hname (namedTags_otherTags _ _)
  have hadd : smlAddTag (.mk tag.name tag.params (otherTags fileStatInfoTag tag.tags)) 0
      (.mk fileStatInfoTag [] []) = some (⟨some 0, .mk fileStatInfoTag [] []⟩,
        .mk tag.name tag.params
          (.mk fileStatInfoTag [] [] :: otherTags fileStatInfoTag tag.tags)) := by
    have hindex : ¬ ((0 : Int) > (otherTags fileStatInfoTag tag.tags).length ∨ (0 : Int) = -1) := by
      omega
    rw [smlAddTag, SmlTag.tags, if_neg hindex]
    rfl
  have hfound : smlGetTagByName (.mk tag.name tag.params
      (.mk fileStatInfoTag [] [] :: otherTags fileStatInfoTag tag.tags)) 0 fileStatInfoTag =
        some ⟨some 0, .mk fileStatInfoTag [] []⟩ :=
    smlGetTagByName_head hname rfl
  have hset := setFields_eq _ (.mk fileStatInfoTag [] []) (fields_names st path).2
    (fields_names st path).1
  rw [smlSetFileStatInfo, hdel, Option.bind_eq_bind, Option.bind_some]
  dsimp only
  rw [hgone, Option.isSome_none, if_neg Bool.false_ne_true, smlNewTag, if_neg (by decide),
    Option.bind_eq_bind, Option.bind_some]
  simp only [hadd, hfound, hset, Option.bind_eq_bind, Option.bind_some]
  rfl

theorem infoTag_name (st : FileStat) (path : Option Str) :
    (infoTag st path).name = fileStatInfoTag := rfl

theorem recordStats_eq (rs : List (FileStat × Option Str)) (r : FileStat × Option Str)
    (hname : tag.name ≠ fileStatInfoTag)
    (h : (namedTags fileStatInfoTag tag.tags).length ≤ 1) :
    recordStats tag (rs ++ [r]) =
      some (.mk tag.name tag.params (infoTag r.1 r.2 :: otherTags fileStatInfoTag tag.tags)) := by
  induction rs generalizing tag with
  | nil =>
    rw [List.nil_append, recordStats, smlSetFileStatInfo_eq hname h, Option.bind_some, recordStats]
  | cons q rs ih =>
    have hone : (namedTags fileStatInfoTag
        (infoTag q.1 q.2 :: otherTags fileStatInfoTag tag.tags)).length ≤ 1 := by
      rw [namedTags, List.filter_cons_of_pos (by rw [infoTag_name]; decide), ← namedTags,
        namedTags_otherTags, List.length_singleton]
    have hothers : otherTags fileStatInfoTag
        (infoTag q.1 q.2 :: otherTags fileStatInfoTag tag.tags) =
          otherTags fileStatInfoTag tag.tags := by
      rw [otherTags, List.filter_cons_of_neg (by rw [infoTag_name]; decide), ← otherTags,
        otherTags_idem]
    rw [List.cons_append, recordStats, smlSetFileStatInfo_eq hname h, Option.bind_some]
    -- the next recording takes the element of this one out
    have hrest : recordStats (.mk tag.name tag.params
        (infoTag q.1 q.2 :: otherTags fileStatInfoTag tag.tags)) (rs ++ [r]) = _ := ih hname hone
    rw [hrest, SmlTag.tags, hothers]
    rfl

theorem smlParamEq_infoTag (hname : name ≠ fileStatInfoTag) (hparam : param ≠ [])
    (others : List SmlTag) (str : Str) :
    smlParamEq (.mk name params (infoTag st path :: others)) fileStatInfoTag param str =
      some ((tagParamLoop param (infoTag st path).params).any fun value =>
        strcasecmp str value = 0) := by
  have hfound : smlGetTagByName (.mk name params (infoTag st path :: others)) 0 fileStatInfoTag =
      some ⟨some 0, infoTag st path⟩ := smlGetTagByName_head hname (infoTag_name st path)
  rw [smlParamEq, hfound]
  dsimp only
  rw [smlGetParam, if_neg hparam]
  cases tagParamLoop param (infoTag st path).params with
  | none => rfl
  | some value => rfl

theorem tagParamLoop_infoTag (st : FileStat) (path : Option Str) :
    tagParamLoop "st_path".toList (infoTag st path).params = path ∧
    tagParamLoop "st_ino".toList (infoTag st path).params = some (hexText st.st_ino) ∧
    tagParamLoop "st_mode".toList (infoTag st path).params = some (hexText st.st_mode) ∧
    tagParamLoop "st_mtime".toList (infoTag st path).params = some (hexText st.st_mtime) ∧
    tagParamLoop "st_ctime".toList (infoTag st path).params = some (hexText st.st_ctime) ∧
    tagParamLoop "st_size".toList (infoTag st path).params = some (hexText st.st_size) := by
  cases path with
  | none => exact ⟨rfl, rfl, rfl, rfl, rfl, rfl⟩
  | some q => exact ⟨rfl, rfl, rfl, rfl, rfl, rfl⟩

def FieldMatches (params : List SmlParam) (f : Str × Str) : Prop :=
  ∃ v, tagParamLoop f.1 params = some v ∧ strcasecmp f.2 v = 0

theorem fieldsEq_infoTag (hname : name ≠ fileStatInfoTag) (params : List SmlParam)
    (st : FileStat) (path : Option Str) (others : List SmlTag) (fs : List (Str × Str))
    (hne : ∀ f ∈ fs, f.1 ≠ []) :
    ∃ b, fieldsEq (.mk name params (infoTag st path :: others)) fs = some b ∧
      (b = true ↔ ∀ f ∈ fs, FieldMatches (infoTag st path).params f) := by
  induction fs with
  | nil => exact ⟨true, rfl, iff_of_true rfl (List.forall_mem_nil _)⟩
  | cons f fs ih =>
    obtain ⟨b, hb, hiff⟩ := ih fun g hg => hne g (List.mem_cons_of_mem _ hg)
    rw [fieldsEq, smlParamEq_infoTag hname (hne f List.mem_cons_self), Option.bind_some]
    cases hv : tagParamLoop f.1 (infoTag st path).params with
    | none =>
      refine ⟨false, rfl, iff_of_false Bool.false_ne_true fun hall => ?_⟩
      obtain ⟨v, hv', -⟩ := hall f List.mem_cons_self
      rw [hv] at hv'
      cases hv'
    | some v =>
      rw [Option.any_some]
      by_cases heq : strcasecmp f.2 v = 0
      · refine ⟨b, (if_pos (decide_eq_true heq)).trans hb, ?_⟩
        rw [hiff, List.forall_mem_cons]
        exact (and_iff_right ⟨v, hv, heq⟩).symm
      · refine ⟨false, if_neg fun h => heq (of_decide_eq_true h),
          iff_of_false Bool.false_ne_true fun hall => ?_⟩
        obtain ⟨v', hv', heq'⟩ := hall f List.mem_cons_self
        rw [hv] at hv'
        cases hv'
        exact heq heq'

theorem fieldMatches_hex {params : List SmlParam} {n m : BitVec 64}
    (h : tagParamLoop field params = some (hexText n)) :
    FieldMatches params (field, hexText m) ↔ m = n := by
  rw [← strcasecmp_hexText]
  constructor
  · rintro ⟨v, hv, heq⟩
    rw [h] at hv
    cases hv
    exact heq
  · exact fun heq => ⟨_, h, heq⟩

theorem fields_match_iff (st st' : FileStat) (path : Option Str) :
    (∀ f ∈ st'.fields, FieldMatches (infoTag st path).params f) ↔ st' = st := by
  obtain ⟨-, hino, hmode, hmtime, hctime, hsize⟩ := tagParamLoop_infoTag st path
  rw [FileStat.fields, List.forall_mem_cons, List.forall_mem_cons, List.forall_mem_cons,
    List.forall_mem_cons, List.forall_mem_cons, fieldMatches_hex hino, fieldMatches_hex hmode,
    fieldMatches_hex hmtime, fieldMatches_hex hctime, fieldMatches_hex hsize]
  constructor
  · rintro ⟨h₁, h₂, h₃, h₄, h₅, -⟩
    cases st
    cases st'
    cases h₁
    cases h₂
    cases h₃
    cases h₄
    cases h₅
    rfl
  · rintro rfl
    exact ⟨rfl, rfl, rfl, rfl, rfl, List.forall_mem_nil _⟩

/-- The path is the one that was recorded, up to the case of its letters; no path is like any. -/
def SamePath (path path' : Option Str) : Prop :=
  ∀ q ∈ path', ∃ p ∈ path, q.map Char.toLower = p.map Char.toLower

theorem path_matches_iff (st : FileStat) (hpath : ∀ p ∈ path, NulFree p)
    (hpath' : ∀ q ∈ path', NulFree q) :
    (∀ f ∈ (path'.map ("st_path".toList, ·)).toList, FieldMatches (infoTag st path).params f) ↔
      SamePath path path' := by
  obtain ⟨hrecorded, -⟩ := tagParamLoop_infoTag st path
  cases path' with
  | none => exact iff_of_true (List.forall_mem_nil _) fun q hq => by cases hq
  | some q =>
    rw [Option.map_some, Option.toList_some, List.forall_mem_singleton, FieldMatches, hrecorded]
    constructor
    · rintro ⟨p, hp, heq⟩ q' hq'
      cases hq'
      exact ⟨p, hp, (strcasecmp_eq_zero (hpath' q rfl) (hpath p hp)).mp heq⟩
    · intro hsame
      obtain ⟨p, hp, heq⟩ := hsame q rfl
      exact ⟨p, hp, (strcasecmp_eq_zero (hpath' q rfl) (hpath p hp)).mpr heq⟩

/-- After any run of recordings the tag has one such element, in front of all others, which keep
their order; and the comparison succeeds for the file that was recorded last and for no other. -/
theorem recordStats_spec (tag : SmlTag) (hname : tag.name ≠ fileStatInfoTag)
    (h : (namedTags fileStatInfoTag tag.tags).length ≤ 1) (rs : List (FileStat × Option Str))
    (st : FileStat) (path : Option Str) (hpath : ∀ p ∈ path, NulFree p) :
    ∃ tag', recordStats tag (rs ++ [(st, path)]) = some tag' ∧ tag'.name = tag.name ∧
      tag'.params = tag.params ∧
      tag'.tags = infoTag st path :: otherTags fileStatInfoTag tag.tags ∧
      ∀ st' path', (∀ q ∈ path', NulFree q) →
        ∃ b, smlFstatCompareEq (some st') (some tag') path' = some b ∧
          (b = true ↔ st' = st ∧ SamePath path path') := by
  refine ⟨_, recordStats_eq rs (st, path) hname h, rfl, rfl, rfl, fun st' path' hpath' => ?_⟩
  obtain ⟨b, hb, hiff⟩ := fieldsEq_infoTag hname tag.params st path
    (otherTags fileStatInfoTag tag.tags) _ (fields_names st' path').2
  refine ⟨b, hb, hiff.trans ?_⟩
  rw [List.forall_mem_append, path_matches_iff st hpath hpath', fields_match_iff, and_comm]

def sampleFileStat : FileStat := ⟨17, 0o100644, 1000, 1000, 12⟩

theorem recordStats_spec_sample : ∃ tag',
    recordStats (.mk "pkg".toList [] [infoTag sampleFileStat none, .mk "file".toList [] []])
      ([(sampleFileStat, none)] ++ [(sampleFileStat, some "/etc/motd".toList)]) = some tag' ∧
      tag'.name = "pkg".toList ∧ tag'.params = [] ∧
      tag'.tags = infoTag sampleFileStat (some "/etc/motd".toList) :: otherTags fileStatInfoTag
        [infoTag sampleFileStat none, .mk "file".toList [] []] ∧
      ∀ st' path', (∀ q ∈ path', NulFree q) →
        ∃ b, smlFstatCompareEq (some st') (some tag') path' = some b ∧
          (b = true ↔ st' = sampleFileStat ∧ SamePath (some "/etc/motd".toList) path') :=
  recordStats_spec (.mk "pkg".toList [] [infoTag sampleFileStat none, .mk "file".toList [] []])
    (by rw [SmlTag.name]; decide) (by decide) [(sampleFileStat, none)] sampleFileStat
    (some "/etc/motd".toList) (by intro p hp; cases hp; decide)

end Record

end Pkgtools
