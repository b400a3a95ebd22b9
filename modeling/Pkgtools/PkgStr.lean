import Pkgtools.CLib.Numeral
import Pkgtools.CLib.Tokens

namespace Pkgtools
open CLib
set_option autoImplicit true

/-- The longest line, `LINE_MAX` of the system's limits. -/
def LINE_MAX : Nat := 2048

def isSep (a_separators : Str) (c : Char) : Bool := a_separators.contains c

/-- The loop of `pkgstrGetToken` over the tokens, with the separator that each one stores. -/
def getTokenLoop (x : Char) : List Str → Nat → Char → Option Str × Char
  | [], _, r_sep => (none, r_sep)
  | q :: _, 0, _ => (some q, x)
  | _ :: qs, a_index + 1, _ => getTokenLoop x qs a_index x

/-- `pkgstrGetToken`: the token with this index and the separator, which is always the first one of
the whole string. -/
def PkgStr.pkgstrGetToken (a_string : Str) (a_index : Nat) (a_separators : Str) :
    Option Str × Char :=
  getTokenLoop ((a_string.find? (isSep a_separators)).getD nul)
    (words (isSep a_separators) a_string) a_index nul

/-- `pkgstrContainsToken` -/
def pkgstrContainsToken (a_string : Option Str) (a_token a_separators : Str) : Bool :=
  match a_string with
  | none => false
  | some a_string =>
    if a_string = [] then false else (words (isSep a_separators) a_string).contains a_token

/-- `strcat` to a buffer of so many bytes, as far as it is defined. -/
def strcat (copyLength : Int) (copyString p : Str) : Option Str :=
  if ((copyString ++ p).length : Int) + 1 ≤ copyLength then some (copyString ++ p) else none

/-- The loop of `pkgstrRemoveToken` that copies the tokens. -/
def removeTokenLoop (a_string a_token a_separators : Str) (copyLength : Int) :
    Nat → Nat → Int → Str → Option Str
  | 0, _, _, _ => none
  | fuel + 1, i, a_index, copyString =>
    match PkgStr.pkgstrGetToken a_string i a_separators with
    | (none, _) => some copyString
    | (some p, sep) =>
      if p = a_token ∧ a_index = 0 then
        removeTokenLoop a_string a_token a_separators copyLength fuel (i + 1) (a_index - 1)
          copyString
      else
        (if copyString = [] then some copyString
          else if sep = nul then none else strcat copyLength copyString [sep]).bind
            fun copyString =>
        (strcat copyLength copyString p).bind
        (removeTokenLoop a_string a_token a_separators copyLength fuel (i + 1)
          (if p = a_token then a_index - 1 else a_index))

/-- `pkgstrRemoveToken`: the new value of the handle. Nothing is returned where an assertion fails
or a byte is written behind the copy. -/
def pkgstrRemoveToken (r_string a_token a_separators : Str) (a_index : Int) :
    Option (Option Str) :=
  if a_token = [] ∨ a_separators = [] then none
  else if r_string = [] then some (some r_string)
  else if r_string = a_token then some none
  else if ! pkgstrContainsToken (some r_string) a_token a_separators then some (some r_string)
  else
    let copyLength := wrap 32 ((r_string.length : Int) - a_token.length + 2)
    -- a negative length is too large for `calloc`
    if copyLength < 0 then none
    else
      (removeTokenLoop r_string a_token a_separators copyLength (r_string.length + 1) 0 a_index
        []).bind fun copyString => if copyString = [] then none else some (some copyString)

/-- `pkgstrPrintf`, given the text that the conversion makes. -/
def pkgstrPrintf (text : Str) : Option Str :=
  if 0 < text.length ∧ text.length < LINE_MAX then some text else none

/-- `pkgstrAddToken`: the new value of the handle, nothing where an assertion fails. -/
def pkgstrAddToken (a_old : Option Str) (a_new : Str) (a_separator : Char) :
    Option (Option Str) :=
  if a_separator = nul then none
  else if a_new = [] then some a_old
  else if a_new.contains a_separator then none
  else match if a_old = some [] then none else a_old with
    | some old => (pkgstrPrintf (old ++ a_separator :: a_new)).map some
    | none => some (some a_new)

/-- The loop of `pkgstrExpandTokens`. -/
def expandTokensLoop (a_string : Str) (a_separator : Char) (a_separators : Str) :
    Nat → Nat → Option Str → Option (Option Str)
  | 0, _, _ => none
  | fuel + 1, i, a_old =>
    match PkgStr.pkgstrGetToken a_string i a_separators with
    | (none, _) => some a_old
    | (some p, _) =>
      (if pkgstrContainsToken a_old p [a_separator] then some a_old
        else pkgstrAddToken a_old p a_separator).bind
      (expandTokensLoop a_string a_separator a_separators fuel (i + 1))

/-- `pkgstrExpandTokens`: the new value of the handle. -/
def pkgstrExpandTokens (a_old : Option Str) (a_string : Str) (a_separator : Char)
    (a_separators : Str) : Option (Option Str) :=
  if a_separators = [] then none
  else expandTokensLoop a_string a_separator a_separators (a_string.length + 1) 0 a_old

theorem isSep_iff : isSep a_separators c ↔ c ∈ a_separators := by
  rw [isSep, List.contains_iff_mem]

theorem getTokenLoop_fst (x : Char) (qs : List Str) (i : Nat) (r : Char) :
    (getTokenLoop x qs i r).1 = qs[i]? := by
  induction qs generalizing i r with
  | nil => rfl
  | cons q qs ih =>
    cases i with
    | zero => rfl
    | succ i => exact ih i x

theorem getTokenLoop_of_getElem? (h : qs[i]? = some w) (x r : Char) :
    getTokenLoop x qs i r = (some w, x) := by
  induction qs generalizing i r with
  | nil => simp at h
  | cons q qs ih =>
    cases i with
    | zero =>
      rw [List.getElem?_cons_zero] at h
      rw [getTokenLoop, h]
    | succ i => exact ih h x

theorem pkgstrGetToken_of_drop (h : (words (isSep seps) s).drop i = w :: ws) :
    PkgStr.pkgstrGetToken s i seps = (some w, (s.find? (isSep seps)).getD nul) :=
  getTokenLoop_of_getElem? (by rw [← List.head?_drop, h, List.head?_cons]) _ _

theorem pkgstrGetToken_of_drop_nil (h : (words (isSep seps) s).drop i = []) :
    ∃ r, PkgStr.pkgstrGetToken s i seps = (none, r) := by
  refine ⟨(PkgStr.pkgstrGetToken s i seps).2, Prod.ext ?_ rfl⟩
  rw [PkgStr.pkgstrGetToken, getTokenLoop_fst, ← List.head?_drop, h, List.head?_nil]

theorem drop_succ_of_drop {l : List Str} (h : l.drop i = w :: ws) : l.drop (i + 1) = ws := by
  rw [← List.drop_drop, h, List.drop_succ_cons, List.drop_zero]

theorem pkgstrContainsToken_eq (s : Option Str) (w seps : Str) :
    pkgstrContainsToken s w seps = (words (isSep seps) (s.getD [])).contains w := by
  cases s with
  | none => rfl
  | some s =>
    rw [pkgstrContainsToken]
    split
    · rename_i h
      rw [h]
      rfl
    · rfl

section Remove
variable {s token seps : Str} {c : Char} {cap : Int} {kept : List Str}

/-- The tokens that the loop copies. -/
def copiedTokens (token : Str) : Int → List Str → List Str
  | _, [] => []
  | i, p :: ts =>
    if p = token ∧ i = 0 then copiedTokens token (i - 1) ts
    else p :: copiedTokens token (if p = token then i - 1 else i) ts

theorem copiedTokens_neg {i : Int} (h : i < 0) (ts : List Str) : copiedTokens token i ts = ts := by
  induction ts generalizing i with
  | nil => rfl
  | cons p ts ih =>
    rw [copiedTokens, if_neg (by omega), ih (by split <;> omega)]

theorem copiedTokens_eq (i : Nat) (ts : List Str) :
    copiedTokens token i ts = eraseOccurrence token i ts := by
  induction ts generalizing i with
  | nil => cases i <;> rfl
  | cons p ts ih =>
    by_cases hp : p = token
    · subst hp
      cases i with
      | zero => rw [copiedTokens, if_pos ⟨rfl, rfl⟩, copiedTokens_neg (by decide),
          eraseOccurrence, if_pos (beq_self_eq_true p)]
      | succ i => rw [copiedTokens, if_neg (by omega), if_pos rfl, eraseOccurrence,
          if_pos (beq_self_eq_true p), ← ih, Nat.cast_succ, Int.add_sub_cancel]
    · have hne : ¬ (p == token) = true := by simpa using hp
      rw [copiedTokens, if_neg (fun h => hp h.1), if_neg hp, ih]
      cases i with
      | zero => rw [eraseOccurrence, if_neg hne]
      | succ i => rw [eraseOccurrence, if_neg hne]

def CopyFits (cap : Int) (c : Char) (ts : List Str) : Prop :=
  ts = [] ∨ (([c].intercalate ts).length : Int) + 1 ≤ cap

instance : Decidable (CopyFits cap c kept) := inferInstanceAs (Decidable (_ ∨ _))

theorem CopyFits.of_append (h : CopyFits cap c (kept ++ ts)) : CopyFits cap c kept := by
  by_cases hk : kept = []
  · exact .inl hk
  · obtain h | h := h
    · exact absurd (List.append_eq_nil_iff.mp h).1 hk
    · have h₁ := length_intercalate hk c
      have h₂ := length_intercalate (show kept ++ ts ≠ [] by simp [hk]) c
      rw [List.map_append, List.sum_append] at h₂
      exact .inr (by omega)

theorem intercalate_eq_nil (hk : ∀ w ∈ kept, w ≠ []) : [c].intercalate kept = [] ↔ kept = [] := by
  refine ⟨fun h => ?_, fun h => by rw [h]; rfl⟩
  by_contra hne
  have hlen := length_intercalate hne c
  cases kept with
  | nil => exact hne rfl
  | cons w kept =>
    have hw := List.length_pos_iff.mpr (hk w List.mem_cons_self)
    rw [h, List.map_cons, List.sum_cons] at hlen
    simp only [List.length_nil] at hlen
    omega

/-- One token is appended, behind a separator unless it is the first one. -/
theorem strcat_token (hk : ∀ w ∈ kept, w ≠ []) (hc : kept ≠ [] → x = c ∧ c ≠ nul) (p : Str) :
    ((if [c].intercalate kept = [] then some ([c].intercalate kept)
      else if x = nul then none else strcat cap ([c].intercalate kept) [x]).bind fun t =>
        strcat cap t p) =
      if CopyFits cap c (kept ++ [p]) then some ([c].intercalate (kept ++ [p])) else none := by
  by_cases hne : kept = []
  · subst hne
    rw [if_pos (List.intercalate_nil), List.intercalate_nil, Option.bind_some, strcat,
      List.nil_append, List.nil_append, List.intercalate_singleton]
    simp [CopyFits]
  · obtain ⟨rfl, hnul⟩ := hc hne
    rw [if_neg (mt (intercalate_eq_nil hk).mp hne), if_neg hnul, intercalate_concat hne]
    by_cases hfit : CopyFits cap x (kept ++ [p])
    · obtain h | h := id hfit
      · simp at h
      · rw [intercalate_concat hne, List.length_append, List.length_cons] at h
        rw [if_pos hfit, strcat, if_pos, Option.bind_some, strcat, if_pos, List.append_assoc,
          List.singleton_append]
        · simp only [List.length_append, List.length_cons, List.length_nil]
          omega
        · simp only [List.length_append, List.length_cons, List.length_nil]
          omega
    · rw [if_neg hfit]
      refine Option.bind_eq_none_iff.mpr fun t ht => ?_
      rw [strcat] at ht ⊢
      split at ht
      · obtain rfl := Option.some.inj ht
        refine if_neg fun h => hfit (.inr ?_)
        rw [intercalate_concat hne]
        simpa using h
      · cases ht

theorem removeTokenLoop_eq {i : Nat} {idx : Int} (hc : c ≠ nul)
    (hfirst : s.find? (isSep seps) = some c) (hrest : (words (isSep seps) s).drop i = rest)
    (hfuel : rest.length < fuel) (hkept : ∀ w ∈ kept, w ≠ []) (hfit : CopyFits cap c kept) :
    removeTokenLoop s token seps cap fuel i idx ([c].intercalate kept) =
      if CopyFits cap c (kept ++ copiedTokens token idx rest) then
        some ([c].intercalate (kept ++ copiedTokens token idx rest)) else none := by
  induction rest generalizing fuel i idx kept with
  | nil =>
    obtain ⟨r, hr⟩ := pkgstrGetToken_of_drop_nil hrest
    obtain ⟨fuel, rfl⟩ : ∃ n, fuel = n + 1 := ⟨fuel - 1, by omega⟩
    rw [removeTokenLoop, hr, copiedTokens, List.append_nil, if_pos hfit]
  | cons p rest ih =>
    obtain ⟨fuel, rfl⟩ : ∃ n, fuel = n + 1 := ⟨fuel - 1, by omega⟩
    have hp : p ≠ [] := (isWord_of_mem_words
      (List.mem_of_mem_drop (hrest ▸ List.mem_cons_self : p ∈ (words (isSep seps) s).drop i))).1
    have hnext := drop_succ_of_drop hrest
    rw [List.length_cons, Nat.add_lt_add_iff_right] at hfuel
    rw [removeTokenLoop, pkgstrGetToken_of_drop hrest, hfirst, Option.getD_some, copiedTokens]
    by_cases hdrop : p = token ∧ idx = 0
    · rw [if_pos hdrop]
      simp only [if_pos hdrop]
      exact ih hnext hfuel hkept hfit
    · rw [if_neg hdrop]
      simp only [if_neg hdrop]
      rw [← Option.bind_assoc, strcat_token hkept fun _ => ⟨rfl, hc⟩]
      split
      · rename_i hone
        rw [Option.bind_some, ih hnext hfuel ?_ hone, List.append_assoc, List.singleton_append]
        intro w hw
        obtain hw | hw := List.mem_append.mp hw
        · exact hkept w hw
        · exact List.mem_singleton.mp hw ▸ hp
      · rename_i hone
        refine (if_neg fun h => hone ?_).symm
        rw [← List.singleton_append, ← List.append_assoc] at h
        exact h.of_append

/-- The size of the copy is an `int`. -/
def Copyable (s token : Str) : Prop := s.length + 2 < 2 ^ 31 + token.length

instance (s token : Str) : Decidable (Copyable s token) := inferInstanceAs (Decidable (_ < _))

theorem wrap_large {x : Int} (h : 2 ^ 31 ≤ x) : wrap 32 x ≤ x - 2 ^ 32 := by
  have hlt := (wrap_bounds (w := 32) (by decide) x).2
  have hdiv := Int.bmod_add_bdiv x (2 ^ 32)
  rw [wrap] at hlt ⊢
  omega

theorem length_joined_eraseOccurrence (h : i < ts.count token)
    (hkept : eraseOccurrence token i ts ≠ []) (c : Char) :
    ([c].intercalate (eraseOccurrence token i ts)).length + token.length + 1 =
      ([c].intercalate ts).length := by
  have hne : ts ≠ [] := by
    rintro rfl
    simp at h
  have h₁ := length_intercalate hkept c
  have h₂ := length_intercalate hne c
  have h₃ := sum_eraseOccurrence (List.length · + 1) h
  omega

/-- The tokens that are kept fit if the removal has shortened them, or the token is one byte. -/
theorem fits_eraseOccurrence (hne : ts ≠ []) (hw : token ≠ []) (hmem : token ∈ ts)
    (hkept : eraseOccurrence token i ts ≠ []) :
    CopyFits (wrap 32 ((([c].intercalate ts).length : Int) - token.length + 2)) c
        (eraseOccurrence token i ts) ↔
      Copyable ([c].intercalate ts) token ∧ (i < ts.count token ∨ token.length = 1) := by
  have hpos := List.length_pos_iff.mpr hw
  have hlong : token.length ≤ ([c].intercalate ts).length := by
    have h₁ := length_intercalate hne c
    have h₂ := sum_eraseOccurrence (List.length · + 1) (List.count_pos_iff.mpr hmem)
    omega
  rw [CopyFits, or_iff_right hkept, Copyable]
  by_cases hsmall : ([c].intercalate ts).length + 2 < 2 ^ 31 + token.length
  · rw [wrap_of_range (by decide) (by omega) (by push_cast; omega)]
    by_cases hi : i < ts.count token
    · have hl := length_joined_eraseOccurrence hi hkept c
      exact iff_of_true (by omega) ⟨hsmall, .inl hi⟩
    · rw [eraseOccurrence_of_le (by omega)]
      simp only [hsmall, hi, true_and, false_or]
      omega
  · have hlarge := wrap_large (x := (([c].intercalate ts).length : Int) - token.length + 2)
      (by omega)
    refine iff_of_false ?_ fun h => hsmall h.1
    by_cases hi : i < ts.count token
    · have hl := length_joined_eraseOccurrence hi hkept c
      omega
    · rw [eraseOccurrence_of_le (by omega)]
      omega

theorem mem_singleton_of_joined (hw : IsWord sep token) (hd : sep c)
    (ht : ∀ t ∈ ts, IsWord sep t) (h : [c].intercalate ts = token) : ts = [token] := by
  rw [← words_intercalate hd ht, h, hw.words_eq]

theorem pkgstrRemoveToken_copied (hd : c ∈ seps) (hnul : NulFree seps)
    (ht : ∀ t ∈ ts, IsWord (isSep seps) t) (hw : IsWord (isSep seps) token) (hmem : token ∈ ts)
    (hlen : 2 ≤ ts.length) (i : Nat) :
    pkgstrRemoveToken ([c].intercalate ts) token seps i =
      if Copyable ([c].intercalate ts) token ∧ (i < ts.count token ∨ token.length = 1) then
        some (some ([c].intercalate (eraseOccurrence token i ts)))
      else none := by
  have hsep : isSep seps c := isSep_iff.mpr hd
  have hne : ts ≠ [] := List.ne_nil_of_mem hmem
  have htne : ∀ t ∈ ts, t ≠ [] := fun t h => (ht t h).1
  have hs : [c].intercalate ts ≠ [] := mt (intercalate_eq_nil htne).mp hne
  have hwords := words_intercalate hsep ht
  have hdiff : [c].intercalate ts ≠ token := fun h => by
    rw [mem_singleton_of_joined hw hsep ht h, List.length_singleton] at hlen
    exact absurd hlen (by decide)
  have hcontains : pkgstrContainsToken (some ([c].intercalate ts)) token seps = true := by
    rw [pkgstrContainsToken_eq, Option.getD_some, hwords]
    exact List.contains_iff_mem.mpr hmem
  have hfirst : ([c].intercalate ts).find? (isSep seps) = some c := by
    obtain ⟨u, v, ts, rfl⟩ : ∃ u v l, ts = u :: v :: l := by
      match ts, hlen with
      | u :: v :: l, _ => exact ⟨u, v, l, rfl⟩
    exact find?_intercalate hsep (ht u List.mem_cons_self) v ts
  have hloop := @removeTokenLoop_eq ([c].intercalate ts) token seps c
    (wrap 32 ((([c].intercalate ts).length : Int) - token.length + 2)) [] _
    (([c].intercalate ts).length + 1) 0 i (fun h => hnul (h ▸ hd)) hfirst rfl
    (by rw [List.drop_zero]; exact Nat.lt_succ_of_le (length_words_le _ _)) nofun (.inl rfl)
  rw [List.drop_zero, hwords, List.nil_append, copiedTokens_eq, List.intercalate_nil] at hloop
  have hkept : eraseOccurrence token i ts ≠ [] := by
    by_cases hi : i < ts.count token
    · have hl := length_eraseOccurrence hi
      intro h
      rw [h, List.length_nil] at hl
      omega
    · rwa [eraseOccurrence_of_le (by omega)]
  have hkeptne : [c].intercalate (eraseOccurrence token i ts) ≠ [] :=
    mt (intercalate_eq_nil fun w h => htne w ((eraseOccurrence_sublist _ _ _).subset h)).mp hkept
  have hfits := fits_eraseOccurrence (c := c) (i := i) hne hw.1 hmem hkept
  rw [pkgstrRemoveToken, if_neg, if_neg hs, if_neg hdiff, if_neg (by simp [hcontains])]
  · simp only [hloop]
    by_cases hfit : CopyFits (wrap 32 ((([c].intercalate ts).length : Int) - token.length + 2)) c
        (eraseOccurrence token i ts)
    · rw [if_pos hfit, if_pos (hfits.mp hfit), if_neg, Option.bind_some, if_neg hkeptne]
      obtain h | h := hfit
      · exact absurd h hkept
      · omega
    · rw [if_neg hfit, if_neg (mt hfits.mpr hfit), Option.bind_none, ite_self]
  · rintro (h | h)
    · exact hw.1 h
    · exact List.ne_nil_of_mem hd h

/-- Removing a token leaves the sequence without its occurrence with this index exactly if there is
such an occurrence or the token is not there at all; a token that occurs too seldom is left alone if
it has one character and is not the whole string. The copy is made in less than `2 ^ 31` bytes. -/
theorem pkgstrRemoveToken_exact_iff (hd : c ∈ seps) (hnul : NulFree seps) (hne : ts ≠ [])
    (ht : ∀ t ∈ ts, IsWord (isSep seps) t) (hw : IsWord (isSep seps) token) (i : Nat) :
    (∃ r, pkgstrRemoveToken ([c].intercalate ts) token seps i = some r ∧
        r.getD [] = [c].intercalate (eraseOccurrence token i ts)) ↔
      token ∉ ts ∨ i < ts.count token ∧ ts.length = 1 ∨
        2 ≤ ts.length ∧ (i < ts.count token ∨ token.length = 1) ∧
          Copyable ([c].intercalate ts) token := by
  have hsep : isSep seps c := isSep_iff.mpr hd
  have hs : [c].intercalate ts ≠ [] := mt (intercalate_eq_nil fun t h => (ht t h).1).mp hne
  have hassert : ¬ (token = [] ∨ seps = []) := by
    rintro (h | h)
    · exact hw.1 h
    · exact List.ne_nil_of_mem hd h
  by_cases hmem : token ∈ ts
  · by_cases hlen : 2 ≤ ts.length
    · rw [pkgstrRemoveToken_copied hd hnul ht hw hmem hlen]
      have hone : ts.length ≠ 1 := by omega
      simp only [hmem, not_true_eq_false, hone, and_false, hlen, true_and, false_or]
      split
      · rename_i h
        exact iff_of_true ⟨_, rfl, rfl⟩ h.symm
      · rename_i h
        refine iff_of_false ?_ fun hc => h hc.symm
        rintro ⟨r, hr, -⟩
        cases hr
    · have hts : ts = [token] := by
        obtain ⟨t, rfl⟩ := List.length_eq_one_iff.mp
          (show ts.length = 1 by have := List.length_pos_iff.mpr hne; omega)
        rw [List.mem_singleton.mp hmem]
      subst hts
      rw [pkgstrRemoveToken, if_neg hassert, if_neg hs, if_pos List.intercalate_singleton]
      cases i with
      | zero =>
        refine iff_of_true ⟨none, rfl, ?_⟩ (.inr (.inl ⟨by simp, rfl⟩))
        rw [eraseOccurrence, if_pos (beq_self_eq_true token)]
        rfl
      | succ i =>
        refine iff_of_false ?_ ?_
        · rintro ⟨r, hr, hval⟩
          obtain rfl := Option.some.inj hr
          rw [eraseOccurrence_of_le (by simp)] at hval
          exact hs hval.symm
        · simp
  · rw [pkgstrRemoveToken, if_neg hassert, if_neg hs, if_neg, if_pos]
    · refine iff_of_true ⟨_, rfl, ?_⟩ (.inl hmem)
      rw [eraseOccurrence_of_le ((List.count_eq_zero_of_not_mem hmem).trans_le (Nat.zero_le i))]
      rfl
    · rw [pkgstrContainsToken_eq, Option.getD_some, words_intercalate hsep ht]
      simpa using hmem
    · intro h
      rw [mem_singleton_of_joined hw hsep ht h] at hmem
      exact hmem (List.mem_singleton_self _)

/-- The second `ab` is removed; without the third one the shortcut for a whole string is taken. -/
theorem pkgstrRemoveToken_exact_iff_second :
    (∃ r, pkgstrRemoveToken "ab,c,ab".toList "ab".toList ",".toList 1 = some r ∧
      r.getD [] = "ab,c".toList) :=
  (@pkgstrRemoveToken_exact_iff "ab".toList ",".toList ',' ["ab".toList, "c".toList, "ab".toList]
    (by decide) (by decide) (by decide) (by decide) (by decide) 1).mpr (.inr
      (.inr ⟨by decide, .inl (by decide), by decide⟩))

/-- A token that is not removed does not fit into the copy, and one that is the whole string is
removed with any index. -/
theorem pkgstrRemoveToken_missing_index :
    ¬ ∀ (seps token : Str) (c : Char) (ts : List Str) (i : Nat), c ∈ seps → NulFree seps →
      ts ≠ [] → (∀ t ∈ ts, IsWord (isSep seps) t) → IsWord (isSep seps) token →
        ∃ r, pkgstrRemoveToken ([c].intercalate ts) token seps i = some r ∧
          r.getD [] = [c].intercalate (eraseOccurrence token i ts) := by
  intro h
  obtain ⟨r, hr, -⟩ := h ",".toList "ab".toList ',' ["ab".toList, "c".toList] 1 (by decide)
    (by decide) (by decide) (by decide) (by decide)
  exact absurd hr (by decide +revert)

end Remove

section Expand
variable {c : Char} {seps src : Str} {old : Option Str}

def appendToken (c : Char) (old : Option Str) (w : Str) : Option Str :=
  if old.getD [] = [] then some w else some (old.getD [] ++ c :: w)

/-- The tokens of the target, which only the single separator divides. -/
def targetTokens (c : Char) (old : Option Str) : List Str := words (isSep [c]) (old.getD [])

def expanded (c : Char) (old : Option Str) (ts : List Str) : Option Str :=
  (newMembers (targetTokens c old) ts).foldl (appendToken c) old

theorem isWord_single (h : c ∈ seps) (hw : IsWord (isSep seps) w) : IsWord (isSep [c]) w :=
  ⟨hw.1, fun d hd => by
    refine Bool.eq_false_iff.mpr fun he => Bool.eq_false_iff.mp (hw.2 d hd) ?_
    rw [isSep_iff] at he ⊢
    exact List.mem_singleton.mp he ▸ h⟩

theorem targetTokens_appendToken (hw : IsWord (isSep [c]) w) (old : Option Str) :
    targetTokens c (appendToken c old w) = targetTokens c old ++ [w] := by
  rw [targetTokens, targetTokens, appendToken]
  split
  · rename_i h
    rw [h, Option.getD_some, hw.words_eq]
    rfl
  · rw [Option.getD_some, words_append (isSep_iff.mpr (List.mem_singleton_self c)), hw.words_eq]

theorem targetTokens_foldl (h : ∀ w ∈ ts, IsWord (isSep [c]) w) (old : Option Str) :
    targetTokens c (ts.foldl (appendToken c) old) = targetTokens c old ++ ts := by
  induction ts generalizing old with
  | nil => rw [List.foldl_nil, List.append_nil]
  | cons w ts ih =>
    rw [List.foldl_cons, ih (fun v hv => h v (List.mem_cons_of_mem _ hv)),
      targetTokens_appendToken (h w List.mem_cons_self), List.append_assoc, List.singleton_append]

theorem length_le_appendToken (c : Char) (old : Option Str) (w : Str) :
    (old.getD []).length ≤ ((appendToken c old w).getD []).length := by
  rw [appendToken]
  split
  · rename_i h
    rw [h]
    exact Nat.zero_le _
  · rw [Option.getD_some, List.length_append]
    exact Nat.le_add_right _ _

theorem length_le_foldl (c : Char) (ts : List Str) (old : Option Str) :
    (old.getD []).length ≤ ((ts.foldl (appendToken c) old).getD []).length := by
  induction ts generalizing old with
  | nil => exact le_rfl
  | cons w ts ih => exact (length_le_appendToken c old w).trans (ih _)

theorem pkgstrAddToken_eq (hc : c ≠ nul) (hw : IsWord (isSep [c]) w)
    (hlen : ((appendToken c old w).getD []).length < LINE_MAX) :
    pkgstrAddToken old w c = some (appendToken c old w) := by
  have hcontains : ¬ w.contains c = true := fun h =>
    Bool.eq_false_iff.mp (hw.2 c (List.contains_iff_mem.mp h))
      (isSep_iff.mpr (List.mem_singleton_self c))
  rw [pkgstrAddToken, if_neg hc, if_neg hw.1, if_neg hcontains]
  rw [appendToken] at hlen ⊢
  by_cases hold : old.getD [] = []
  · rw [if_pos hold]
    have hnone : (if old = some [] then none else old) = none := by
      cases old with
      | none => rfl
      | some o => exact if_pos (congrArg some hold)
    simp only [hnone]
  · rw [if_neg hold, Option.getD_some] at hlen
    have hsome : (if old = some [] then none else old) = some (old.getD []) := by
      cases old with
      | none => exact absurd rfl hold
      | some o => exact if_neg fun h => hold (Option.some.inj h)
    have hpos : 0 < (old.getD [] ++ c :: w).length :=
      List.length_pos_iff.mpr (by simp)
    simp only [hsome, if_neg hold, pkgstrPrintf]
    rw [if_pos ⟨hpos, hlen⟩, Option.map_some]

/-- The loop adds the new ones among the tokens that are left. -/
theorem expandTokensLoop_eq {i : Nat} (hc : c ∈ seps) (hnul : c ≠ nul)
    (hrest : (words (isSep seps) src).drop i = rest) (hfuel : rest.length < fuel)
    (hlen : ((expanded c old rest).getD []).length < LINE_MAX) :
    expandTokensLoop src c seps fuel i old = some (expanded c old rest) := by
  induction rest generalizing fuel i old with
  | nil =>
    obtain ⟨r, hr⟩ := pkgstrGetToken_of_drop_nil hrest
    obtain ⟨fuel, rfl⟩ : ∃ n, fuel = n + 1 := ⟨fuel - 1, by omega⟩
    rw [expandTokensLoop, hr]
    rfl
  | cons w rest ih =>
    obtain ⟨fuel, rfl⟩ : ∃ n, fuel = n + 1 := ⟨fuel - 1, by omega⟩
    have hw : IsWord (isSep [c]) w := isWord_single hc (isWord_of_mem_words
      (List.mem_of_mem_drop (hrest ▸ List.mem_cons_self : w ∈ (words (isSep seps) src).drop i)))
    have hnext := drop_succ_of_drop hrest
    rw [List.length_cons, Nat.add_lt_add_iff_right] at hfuel
    rw [expandTokensLoop, pkgstrGetToken_of_drop hrest]
    have hcontains : pkgstrContainsToken old w [c] = true ↔ w ∈ targetTokens c old := by
      rw [pkgstrContainsToken_eq, List.contains_iff_mem, targetTokens]
    simp only [hcontains]
    by_cases hmem : w ∈ targetTokens c old
    · have hsame : expanded c old (w :: rest) = expanded c old rest := by
        rw [expanded, newMembers_cons_of_mem hmem, expanded]
      rw [hsame] at hlen ⊢
      rw [if_pos hmem, Option.bind_some, ih hnext hfuel hlen]
    · have hstep : expanded c old (w :: rest) = expanded c (appendToken c old w) rest := by
        rw [expanded, newMembers_cons_of_not_mem hmem, List.foldl_cons, expanded,
          targetTokens_appendToken hw]
      rw [hstep] at hlen ⊢
      rw [if_neg hmem, pkgstrAddToken_eq hnul hw ((length_le_foldl c _ _).trans_lt hlen),
        Option.bind_some, ih hnext hfuel hlen]

theorem pkgstrExpandTokens_eq (hc : c ∈ seps) (hnul : NulFree seps)
    (hlen : ((expanded c old (words (isSep seps) src)).getD []).length < LINE_MAX) :
    pkgstrExpandTokens old src c seps = some (expanded c old (words (isSep seps) src)) := by
  rw [pkgstrExpandTokens, if_neg (List.ne_nil_of_mem hc),
    expandTokensLoop_eq hc (fun h => hnul (h ▸ hc)) (List.drop_zero)
      (Nat.lt_succ_of_le (length_words_le _ _)) hlen]

theorem targetTokens_expanded (h : ∀ w ∈ ts, IsWord (isSep [c]) w) (old : Option Str) :
    targetTokens c (expanded c old ts) = targetTokens c old ++ newMembers (targetTokens c old) ts :=
  targetTokens_foldl (fun w hw => h w (mem_newMembers.mp hw).1) old

theorem expanded_of_mem (h : ∀ w ∈ ts, w ∈ targetTokens c old) : expanded c old ts = old := by
  rw [expanded, newMembers_eq_nil h, List.foldl_nil]

theorem expanded_append (ha : ∀ w ∈ a, IsWord (isSep [c]) w) (b : List Str) :
    expanded c old (a ++ b) = expanded c (expanded c old a) b := by
  rw [expanded, newMembers_append, List.foldl_append, ← targetTokens_expanded ha, ← expanded,
    ← expanded]

/-- The length of the target with a separator behind it. -/
def paddedLength (old : Option Str) : Nat :=
  if old.getD [] = [] then 0 else (old.getD []).length + 1

theorem paddedLength_sub_one (old : Option Str) : paddedLength old - 1 = (old.getD []).length := by
  rw [paddedLength]
  split
  · rename_i h
    rw [h]
    rfl
  · rfl

theorem paddedLength_appendToken (hw : w ≠ []) (old : Option Str) :
    paddedLength (appendToken c old w) = paddedLength old + (w.length + 1) := by
  rw [paddedLength, appendToken, paddedLength]
  split
  · rw [Option.getD_some, if_neg hw, Nat.zero_add]
  · rw [Option.getD_some, if_neg (by simp), List.length_append, List.length_cons]
    omega

theorem paddedLength_foldl {ts : List Str} (h : ∀ w ∈ ts, w ≠ []) (old : Option Str) :
    paddedLength (ts.foldl (appendToken c) old) =
      paddedLength old + (ts.map (·.length + 1)).sum := by
  induction ts generalizing old with
  | nil => rfl
  | cons w ts ih =>
    rw [List.foldl_cons, ih (fun v hv => h v (List.mem_cons_of_mem _ hv)),
      paddedLength_appendToken (h w List.mem_cons_self), List.map_cons, List.sum_cons,
      Nat.add_assoc]

theorem length_expanded_comm {a b : List Str} (ha : ∀ w ∈ a, w ≠ []) (hb : ∀ w ∈ b, w ≠ []) :
    ((expanded c old (a ++ b)).getD []).length = ((expanded c old (b ++ a)).getD []).length := by
  have hne : ∀ w ∈ newMembers (targetTokens c old) (a ++ b), w ≠ [] := fun w hw =>
    (List.mem_append.mp (mem_newMembers.mp hw).1).elim (ha w) (hb w)
  have hne' : ∀ w ∈ newMembers (targetTokens c old) (b ++ a), w ≠ [] := fun w hw =>
    (List.mem_append.mp (mem_newMembers.mp hw).1).elim (hb w) (ha w)
  rw [← paddedLength_sub_one, ← paddedLength_sub_one, expanded, expanded, paddedLength_foldl hne,
    paddedLength_foldl hne', ((newMembers_perm _ a b).map _).sum_nat]

theorem isWord_of_source (hc : c ∈ seps) : ∀ w ∈ words (isSep seps) src, IsWord (isSep [c]) w :=
  fun _ hw => isWord_single hc (isWord_of_mem_words hw)

theorem pkgstrExpandTokens_bind (hc : c ∈ seps) (hnul : NulFree seps) {a b : Str}
    (hlen : ((expanded c old (words (isSep seps) a ++ words (isSep seps) b)).getD []).length <
      LINE_MAX) :
    (pkgstrExpandTokens old a c seps).bind (pkgstrExpandTokens · b c seps) =
      some (expanded c old (words (isSep seps) a ++ words (isSep seps) b)) := by
  rw [expanded_append (isWord_of_source hc)] at hlen ⊢
  rw [pkgstrExpandTokens_eq hc hnul ((length_le_foldl c _ _).trans_lt hlen), Option.bind_some,
    pkgstrExpandTokens_eq hc hnul hlen]

/-- Expansion is an ordered union: the tokens of the source that the target lacks come behind its
own, each once; a second run changes nothing, and the order of two sources does not matter for the
set of tokens. -/
theorem pkgstrExpandTokens_union (hc : c ∈ seps) (hnul : NulFree seps) :
    (∀ (old : Option Str) (src : Str),
      ((expanded c old (words (isSep seps) src)).getD []).length < LINE_MAX →
        ∃ r, pkgstrExpandTokens old src c seps = some r ∧
          targetTokens c r =
            targetTokens c old ++ newMembers (targetTokens c old) (words (isSep seps) src) ∧
          pkgstrExpandTokens r src c seps = some r) ∧
    ∀ (old : Option Str) (a b : Str),
      ((expanded c old (words (isSep seps) a ++ words (isSep seps) b)).getD []).length <
          LINE_MAX →
        ∃ r s, (pkgstrExpandTokens old a c seps).bind (pkgstrExpandTokens · b c seps) = some r ∧
          (pkgstrExpandTokens old b c seps).bind (pkgstrExpandTokens · a c seps) = some s ∧
          ∀ t, t ∈ targetTokens c r ↔ t ∈ targetTokens c s := by
  constructor
  · intro old src hlen
    have hsrc : ∀ w ∈ words (isSep seps) src, IsWord (isSep [c]) w := isWord_of_source hc
    have htokens := targetTokens_expanded hsrc old
    have hagain : expanded c (expanded c old (words (isSep seps) src)) (words (isSep seps) src) =
        expanded c old (words (isSep seps) src) := by
      refine expanded_of_mem fun w hw => ?_
      rw [htokens, List.mem_append, mem_newMembers]
      by_cases hold : w ∈ targetTokens c old
      · exact .inl hold
      · exact .inr ⟨hw, hold⟩
    refine ⟨_, pkgstrExpandTokens_eq hc hnul hlen, htokens, ?_⟩
    rw [pkgstrExpandTokens_eq hc hnul (by rwa [hagain]), hagain]
  · intro old a b hlen
    have ha : ∀ w ∈ words (isSep seps) a, IsWord (isSep [c]) w := isWord_of_source hc
    have hb : ∀ w ∈ words (isSep seps) b, IsWord (isSep [c]) w := isWord_of_source hc
    have hlen' := hlen
    rw [length_expanded_comm (fun w hw => (ha w hw).1) fun w hw => (hb w hw).1] at hlen'
    refine ⟨_, _, pkgstrExpandTokens_bind hc hnul hlen, pkgstrExpandTokens_bind hc hnul hlen',
      fun t => ?_⟩
    have hab : ∀ w ∈ words (isSep seps) a ++ words (isSep seps) b, IsWord (isSep [c]) w :=
      fun w hw => (List.mem_append.mp hw).elim (ha w) (hb w)
    have hba : ∀ w ∈ words (isSep seps) b ++ words (isSep seps) a, IsWord (isSep [c]) w :=
      fun w hw => (List.mem_append.mp hw).elim (hb w) (ha w)
    rw [targetTokens_expanded hab, targetTokens_expanded hba, List.mem_append, List.mem_append,
      (newMembers_perm _ _ _).mem_iff]

theorem pkgstrExpandTokens_union_comma :
    ∃ r, pkgstrExpandTokens (some "b,a".toList) "c a c".toList ',' ", ".toList = some r ∧
      targetTokens ',' r = ["b".toList, "a".toList, "c".toList] := by
  obtain ⟨r, hr, htokens, -⟩ := (@pkgstrExpandTokens_union ',' ", ".toList (by decide)
    (by decide)).1 (some "b,a".toList) "c a c".toList (by decide)
  exact ⟨r, hr, htokens.trans (by decide)⟩

end Expand

end Pkgtools
