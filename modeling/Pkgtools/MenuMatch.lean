import Mathlib.Data.List.Induction
import Pkgtools.CkItem

namespace Pkgtools
open CLib
set_option autoImplicit true

def CkMenu.all (menu : CkMenu) : List Str := menu.tokens ++ menu.invis

/-- The choice that a word stands for: the one equal to it, or else the only one that it begins. -/
def intended (menu : CkMenu) (w : Str) : Option Str :=
  if w ∈ menu.all then some w
  else match menu.all.filter fun t => w.isPrefixOf t with
    | [t] => some t
    | _ => none

def extensions (w : Str) (l : List Str) : Nat := l.countP fun t => w.isPrefixOf t

/-- At most one choice that a word begins is looked at in front of the one equal to it, and none
behind the visible choices. -/
def CleanWord (menu : CkMenu) (w : Str) : Prop :=
  (w ∈ menu.tokens → extensions w (menu.tokens.takeWhile (· ≠ w)) ≤ 1 ∧
    extensions w menu.invis = 0) ∧
    (w ∈ menu.invis → extensions w (menu.tokens ++ menu.invis.takeWhile (· ≠ w)) ≤ 1)

instance (menu : CkMenu) (w : Str) : Decidable (CleanWord menu w) :=
  inferInstanceAs (Decidable (_ ∧ _))

section Words
variable {menu : CkMenu} {w t : Str} {A B l : List Str}

def onlyOne : List Str → Option (Option Str)
  | [] => some none
  | [t] => some (some t)
  | _ => none

theorem headD_drop_eq_nul_iff (ht : NulFree t) (h : w <+: t) :
    (t.drop w.length).headD nul = nul ↔ t = w := by
  obtain ⟨u, rfl⟩ := h
  rw [List.drop_left]
  cases u with
  | nil => simp
  | cons c u =>
    have hc : c ≠ nul := by
      rintro rfl
      exact ht (by simp)
    exact iff_of_false hc (by simp)

theorem scanChoices_cons (hw : NulFree w) (ht : NulFree t) (l : List Str) (found : Option Str) :
    scanChoices w (t :: l) found =
      if w <+: t then if t = w then some (some t) else if found.isSome then none
        else scanChoices w l (some t)
      else scanChoices w l found := by
  have hcmp : strncmp t w w.length = 0 ↔ w <+: t := by
    have h := strncmp_eq_zero_iff ht hw []
    rwa [List.append_nil] at h
  rw [scanChoices]
  by_cases h : w <+: t
  · rw [if_pos (hcmp.mpr h), if_pos h]
    simp only [headD_drop_eq_nul_iff ht h]
  · rw [if_neg (mt hcmp.mp h), if_neg h]

theorem scanChoices_absent (hw : NulFree w) (hl : ∀ t ∈ l, NulFree t) (hno : w ∉ l)
    (found : Option Str) :
    scanChoices w l found = onlyOne (found.toList ++ l.filter fun t => w.isPrefixOf t) := by
  induction l generalizing found with
  | nil => cases found <;> rfl
  | cons t l ih =>
    have htw : ¬ t = w := fun h => hno (h ▸ List.mem_cons_self)
    have hrest := ih (fun u hu => hl u (List.mem_cons_of_mem _ hu))
      fun h => hno (List.mem_cons_of_mem _ h)
    rw [scanChoices_cons hw (hl t List.mem_cons_self)]
    by_cases h : w <+: t
    · rw [if_pos h, if_neg htw, List.filter_cons_of_pos (List.isPrefixOf_iff_prefix.mpr h)]
      cases found with
      | none => exact hrest (some t)
      | some u => rfl
    · rw [if_neg h, List.filter_cons_of_neg (mt List.isPrefixOf_iff_prefix.mp h)]
      exact hrest found

/-- With a choice equal to the word, what comes behind it is not looked at. -/
theorem scanChoices_exact (hw : NulFree w) (hA : ∀ t ∈ A, NulFree t) (hno : w ∉ A)
    (found : Option Str) :
    scanChoices w (A ++ w :: B) found =
      if found.toList.length + extensions w A ≤ 1 then some (some w) else none := by
  induction A generalizing found with
  | nil =>
    have hle : found.toList.length + extensions w [] ≤ 1 := by
      cases found <;> simp [extensions]
    rw [List.nil_append, scanChoices_cons hw hw, if_pos (List.prefix_refl w), if_pos rfl,
      if_pos hle]
  | cons t A ih =>
    have htw : ¬ t = w := fun h => hno (h ▸ List.mem_cons_self)
    have hrest := ih (fun u hu => hA u (List.mem_cons_of_mem _ hu))
      fun h => hno (List.mem_cons_of_mem _ h)
    rw [List.cons_append, scanChoices_cons hw (hA t List.mem_cons_self)]
    by_cases h : w <+: t
    · have hcount : extensions w (t :: A) = extensions w A + 1 :=
        List.countP_cons_of_pos (List.isPrefixOf_iff_prefix.mpr h)
      rw [if_pos h, if_neg htw, hcount]
      cases found with
      | none =>
        rw [Option.isSome_none, if_neg Bool.false_ne_true, hrest]
        simp [Nat.add_comm]
      | some u =>
        rw [Option.isSome_some, if_pos rfl, if_neg]
        simp
    · have hcount : extensions w (t :: A) = extensions w A :=
        List.countP_cons_of_neg (mt List.isPrefixOf_iff_prefix.mp h)
      rw [if_neg h, hcount, hrest]

theorem onlyOne_eq_none_iff : onlyOne l = none ↔ 2 ≤ l.length := by
  match l with
  | [] => simp [onlyOne]
  | [t] => simp [onlyOne]
  | t :: u :: l => simp [onlyOne]

theorem toList_of_onlyOne (h : onlyOne l = some found) : found.toList = l := by
  match l with
  | [] =>
    obtain rfl := Option.some_inj.mp h
    rfl
  | [t] =>
    obtain rfl := Option.some_inj.mp h
    rfl
  | t :: u :: l => cases h

theorem takeWhile_split (hA : w ∉ A) : (A ++ w :: B).takeWhile (· ≠ w) = A := by
  rw [List.takeWhile_append_of_pos, List.takeWhile_cons_of_neg (by simp), List.append_nil]
  intro t ht
  simpa using fun h : t = w => hA (h ▸ ht)

theorem exists_choice_split (hn : l.Nodup) (hw : w ∈ l) : ∃ A B, l = A ++ w :: B ∧ w ∉ A := by
  obtain ⟨A, B, rfl⟩ := List.append_of_mem hw
  exact ⟨A, B, rfl, fun h => (List.nodup_append.mp hn).2.2 w h w List.mem_cons_self rfl⟩

theorem matchWord_visible (htokens : ∀ t ∈ menu.tokens, NulFree t)
    (hinvis : ∀ t ∈ menu.invis, NulFree t) (hn : menu.tokens.Nodup) (hw : NulFree w)
    (hvis : w ∈ menu.tokens) (hno : w ∉ menu.invis) :
    (matchWord menu w).toOption = if CleanWord menu w then some w else none := by
  obtain ⟨A, B, hsplit, hA⟩ := exists_choice_split hn hvis
  have hclean : CleanWord menu w ↔ extensions w A ≤ 1 ∧ extensions w menu.invis = 0 := by
    rw [CleanWord]
    simp only [hvis, hno, forall_const, false_implies, and_true]
    rw [hsplit, takeWhile_split hA]
  rw [matchWord, hsplit, scanChoices_exact hw (fun t h => htokens t (by simp [hsplit, h])) hA]
  simp only [hclean, Option.toList_none, List.length_nil, Nat.zero_add]
  by_cases hle : extensions w A ≤ 1
  · rw [if_pos hle, Option.bind_some, scanChoices_absent hw hinvis hno]
    have hcount : extensions w menu.invis = (menu.invis.filter fun t => w.isPrefixOf t).length :=
      List.countP_eq_length_filter
    rw [hcount]
    cases menu.invis.filter fun t => w.isPrefixOf t with
    | nil =>
      rw [if_pos ⟨hle, rfl⟩]
      rfl
    | cons u l =>
      rw [if_neg fun h => Nat.succ_ne_zero _ h.2]
      rfl
  · rw [if_neg hle, Option.bind_none]
    simp [hle, Except.toOption]

theorem matchWord_invisible (htokens : ∀ t ∈ menu.tokens, NulFree t)
    (hinvis : ∀ t ∈ menu.invis, NulFree t) (hn : menu.invis.Nodup) (hw : NulFree w)
    (hvis : w ∉ menu.tokens) (hinv : w ∈ menu.invis) :
    (matchWord menu w).toOption = if CleanWord menu w then some w else none := by
  obtain ⟨A, B, hsplit, hA⟩ := exists_choice_split hn hinv
  have hclean : CleanWord menu w ↔ extensions w (menu.tokens ++ A) ≤ 1 := by
    rw [CleanWord]
    simp only [hvis, hinv, forall_const, false_implies, true_and]
    rw [hsplit, takeWhile_split hA]
  have hsum : extensions w (menu.tokens ++ A) =
      (menu.tokens.filter fun t => w.isPrefixOf t).length + extensions w A := by
    rw [extensions, List.countP_append, List.countP_eq_length_filter, extensions]
  rw [matchWord, scanChoices_absent hw htokens hvis, Option.toList_none, List.nil_append]
  simp only [hclean, hsum]
  cases hfound : onlyOne (menu.tokens.filter fun t => w.isPrefixOf t) with
  | none =>
    have hlen := onlyOne_eq_none_iff.mp hfound
    rw [Option.bind_none, if_neg fun h => absurd (hlen.trans ((Nat.le_add_right _ _).trans h))
      (by decide)]
    rfl
  | some found =>
    rw [Option.bind_some, hsplit,
      scanChoices_exact hw (fun t h => hinvis t (by simp [hsplit, h])) hA, toList_of_onlyOne hfound]
    by_cases hle : (menu.tokens.filter fun t => w.isPrefixOf t).length + extensions w A ≤ 1
    · rw [if_pos hle, if_pos hle]
      rfl
    · rw [if_neg hle, if_neg hle]
      rfl

theorem matchWord_other (htokens : ∀ t ∈ menu.tokens, NulFree t)
    (hinvis : ∀ t ∈ menu.invis, NulFree t) (hw : NulFree w) (hvis : w ∉ menu.tokens)
    (hinv : w ∉ menu.invis) : (matchWord menu w).toOption = intended menu w := by
  have hno : w ∉ menu.all := by
    rw [CkMenu.all, List.mem_append]
    exact not_or.mpr ⟨hvis, hinv⟩
  have hscan : (scanChoices w menu.tokens none).bind (scanChoices w menu.invis) =
      onlyOne (menu.all.filter fun t => w.isPrefixOf t) := by
    rw [scanChoices_absent hw htokens hvis, Option.toList_none, List.nil_append, CkMenu.all,
      List.filter_append]
    cases hfound : onlyOne (menu.tokens.filter fun t => w.isPrefixOf t) with
    | none =>
      have hlen := onlyOne_eq_none_iff.mp hfound
      rw [Option.bind_none, eq_comm, onlyOne_eq_none_iff, List.length_append]
      omega
    | some found =>
      rw [Option.bind_some, scanChoices_absent hw hinvis hinv, toList_of_onlyOne hfound]
  rw [matchWord, hscan, intended, if_neg hno]
  match menu.all.filter fun t => w.isPrefixOf t with
  | [] => rfl
  | [u] => rfl
  | u :: v :: l => rfl

/-- A word finds the choice that it stands for if it is clean, and else none. -/
theorem matchWord_toOption (hall : ∀ t ∈ menu.all, NulFree t) (hnodup : menu.all.Nodup)
    (hw : NulFree w) :
    (matchWord menu w).toOption = if CleanWord menu w then intended menu w else none := by
  have htokens : ∀ t ∈ menu.tokens, NulFree t := fun t h => hall t (List.mem_append_left _ h)
  have hinvis : ∀ t ∈ menu.invis, NulFree t := fun t h => hall t (List.mem_append_right _ h)
  obtain ⟨hn, hn', hdisj⟩ := List.nodup_append.mp hnodup
  by_cases hvis : w ∈ menu.tokens
  · have hmem : w ∈ menu.all := List.mem_append_left _ hvis
    rw [intended, if_pos hmem]
    exact matchWord_visible htokens hinvis hn hw hvis fun h => hdisj w hvis w h rfl
  · by_cases hinv : w ∈ menu.invis
    · have hmem : w ∈ menu.all := List.mem_append_right _ hinv
      rw [intended, if_pos hmem]
      exact matchWord_invisible htokens hinvis hn' hw hvis hinv
    · have hclean : CleanWord menu w := ⟨fun h => absurd h hvis, fun h => absurd h hinv⟩
      rw [if_pos hclean, matchWord_other htokens hinvis hw hvis hinv]

end Words

/-- A word of an answer that is not a number. -/
structure AnswerWord (menu : CkMenu) (w : Str) : Prop where
  ne_nil : w ≠ []
  plain : ∀ c ∈ w, isAnswerSep c = false ∧ c ≠ nul
  number : menu.unnum = false → (w.headD nul).isDigit = false

def Separators (t : Str) : Prop := ∀ c ∈ t, isAnswerSep c = true

instance (t : Str) : Decidable (Separators t) := inferInstanceAs (Decidable (∀ c ∈ t, _))

/-- Words with the separators behind them, which only the last word may lack. -/
def IsAnswer (menu : CkMenu) : List (Str × Str) → Prop
  | [] => False
  | [(w, t)] => AnswerWord menu w ∧ Separators t
  | (w, t) :: ws => AnswerWord menu w ∧ Separators t ∧ t ≠ [] ∧ IsAnswer menu ws

def answerText (ws : List (Str × Str)) : Str := ws.flatMap fun w => w.1 ++ w.2

/-- What the loop of `match` does with the words of an answer. -/
def runWords (menu : CkMenu) : List (Str × Str) → List Str → Option (Except MatchErr (List Str))
  | [], choice => some (.ok choice)
  | [(w, t)], choice =>
    if t = [] then some ((matchWord menu w).map fun found => choice ++ [found]) else none
  | (w, _) :: ws, choice =>
    match matchWord menu w with
    | .error e => some (.error e)
    | .ok found => runWords menu ws (choice ++ [found])

section Buffer
variable {menu : CkMenu} {w t front rest : Str} {c d : Char} {max : Nat}

theorem AnswerWord.nulFree (h : AnswerWord menu w) : NulFree w := fun hm => (h.plain _ hm).2 rfl

theorem AnswerWord.addChoices (h : AnswerWord menu w) (max : Nat) (choice : List Str) :
    addChoices menu max w choice = (matchWord menu w).map fun found => choice ++ [found] := by
  have hno : ¬ (menu.unnum = false ∧ (w.headD nul).isDigit = true) := by
    rintro ⟨hnum, hdigit⟩
    rw [h.number hnum] at hdigit
    cases hdigit
  rw [Pkgtools.addChoices, if_neg hno]
  cases matchWord menu w <;> rfl

theorem set_append_cons (front : Str) (c d : Char) (rest : Str) :
    (front ++ c :: rest).set front.length d = front ++ d :: rest := by
  rw [List.set_append_right _ _ (Nat.le_refl _), Nat.sub_self, List.set_cons_zero]

theorem getElem?_behind (front : Str) (c : Char) (rest : Str) :
    (front ++ c :: rest)[front.length + 1]? = rest.head? := by
  have hone : front.length + 1 - front.length = 0 + 1 := by omega
  rw [List.getElem?_append_right (Nat.le_succ _), hone, List.getElem?_cons_succ,
    List.head?_eq_getElem?]

/-- The separators in front of the next word become NULs. -/
theorem skipSeps_word (ht : Separators t) (hd : isAnswerSep d = false ∧ d ≠ nul)
    (hf : t.length < fuel) :
    skipSeps fuel (front ++ c :: (t ++ d :: rest)) front.length =
      some (front ++ List.replicate (t.length + 1) nul ++ d :: rest,
        front.length + t.length + 1) := by
  induction t generalizing front c fuel with
  | nil =>
    obtain ⟨fuel, rfl⟩ := Nat.exists_eq_add_of_lt hf
    have hstop : ¬ (isAnswerSep d || d == nul) = true := by simp [hd.1, hd.2]
    rw [skipSeps, set_append_cons, getElem?_behind]
    dsimp only [List.nil_append, List.head?_cons]
    rw [if_neg hstop]
    simp
  | cons e t ih =>
    cases fuel with
    | zero => exact absurd hf (Nat.not_lt_zero _)
    | succ fuel =>
      have hsep : (isAnswerSep e || e == nul) = true := by simp [ht e List.mem_cons_self]
      have hnext := @ih (front ++ [nul]) e fuel (fun x hx => ht x (List.mem_cons_of_mem _ hx))
        (Nat.lt_of_succ_lt_succ hf)
      rw [skipSeps, set_append_cons, getElem?_behind]
      dsimp only [List.cons_append, List.head?_cons]
      rw [if_pos hsep]
      rw [List.append_assoc, List.singleton_append, List.length_append, List.length_singleton]
        at hnext
      have hlen : front.length + 1 + t.length + 1 = front.length + (t.length + 1) + 1 := by omega
      rw [hnext, hlen, List.length_cons]
      simp [List.replicate_succ]

theorem skipSeps_end (ht : Separators t) (fuel : Nat) :
    skipSeps fuel (front ++ c :: (t ++ [nul])) front.length = none := by
  induction t generalizing front c fuel with
  | nil =>
    cases fuel with
    | zero => rfl
    | succ fuel =>
      rw [skipSeps, set_append_cons, getElem?_behind]
      dsimp only [List.nil_append, List.head?_cons]
      rw [if_pos (by decide)]
      cases fuel with
      | zero => rfl
      | succ fuel =>
        have hsplit : front ++ nul :: [nul] = (front ++ [nul]) ++ nul :: [] := by simp
        have hlen : front.length + 1 = (front ++ [nul]).length := by simp
        rw [skipSeps, hsplit, hlen, set_append_cons, getElem?_behind]
        rfl
  | cons e t ih =>
    cases fuel with
    | zero => rfl
    | succ fuel =>
      have hsep : (isAnswerSep e || e == nul) = true := by simp [ht e List.mem_cons_self]
      have hsplit : front ++ nul :: (e :: (t ++ [nul])) = (front ++ [nul]) ++ e ::
          (t ++ [nul]) := by
        simp
      have hlen : front.length + 1 = (front ++ [nul]).length := by simp
      rw [skipSeps, set_append_cons, getElem?_behind]
      dsimp only [List.cons_append, List.head?_cons]
      rw [if_pos hsep, hsplit, hlen]
      exact ih (fun x hx => ht x (List.mem_cons_of_mem _ hx)) fuel

theorem takeWhile_answer (hw : ∀ c ∈ w, isAnswerSep c = false ∧ c ≠ nul)
    (hd : (isAnswerSep d || d == nul) = true) (rest : Str) :
    (w ++ d :: rest).takeWhile (fun c => !(isAnswerSep c || c == nul)) = w := by
  rw [List.takeWhile_append_of_pos, List.takeWhile_cons_of_neg (by simp [hd]), List.append_nil]
  intro c hc
  simp [hw c hc]

theorem takeWhile_nul (hw : ∀ c ∈ w, isAnswerSep c = false ∧ c ≠ nul) (rest : Str) :
    (w ++ nul :: rest).takeWhile (· ≠ nul) = w := by
  rw [List.takeWhile_append_of_pos, List.takeWhile_cons_of_neg (by simp), List.append_nil]
  intro c hc
  simpa using (hw c hc).2

theorem splitWord_last (hw : ∀ c ∈ w, isAnswerSep c = false ∧ c ≠ nul) :
    splitWord (front ++ (w ++ [nul])) front.length = some (front ++ (w ++ [nul]), none) := by
  rw [splitWord, List.drop_left, takeWhile_answer hw (by decide)]
  simp

theorem splitWord_end (hw : ∀ c ∈ w, isAnswerSep c = false ∧ c ≠ nul)
    (ht : Separators (d :: t)) :
    splitWord (front ++ (w ++ d :: (t ++ [nul]))) front.length = none := by
  have hd : isAnswerSep d = true := ht d List.mem_cons_self
  have hnul : d ≠ nul := by
    rintro rfl
    cases hd
  rw [splitWord, List.drop_left, takeWhile_answer hw (by simp [hd])]
  dsimp only
  rw [← List.length_append, ← List.append_assoc, List.getElem?_append_right (Nat.le_refl _),
    Nat.sub_self, List.getElem?_cons_zero, Option.bind_some, if_neg hnul,
    skipSeps_end fun x hx => ht x (List.mem_cons_of_mem _ hx)]
  rfl

theorem splitWord_next (hw : ∀ c ∈ w, isAnswerSep c = false ∧ c ≠ nul)
    (ht : Separators (d :: t)) (he : isAnswerSep e = false ∧ e ≠ nul) :
    splitWord (front ++ (w ++ d :: (t ++ e :: rest))) front.length =
      some (front ++ w ++ List.replicate (t.length + 1) nul ++ e :: rest,
        some (front ++ w ++ List.replicate (t.length + 1) nul).length) := by
  have hd : isAnswerSep d = true := ht d List.mem_cons_self
  have hnul : d ≠ nul := by
    rintro rfl
    cases hd
  have hfuel : t.length < (front ++ w ++ d :: (t ++ e :: rest)).length - (front ++ w).length := by
    simp only [List.length_append, List.length_cons]
    omega
  rw [splitWord, List.drop_left, takeWhile_answer hw (by simp [hd])]
  dsimp only
  rw [← List.length_append, ← List.append_assoc, List.getElem?_append_right (Nat.le_refl _),
    Nat.sub_self, List.getElem?_cons_zero, Option.bind_some, if_neg hnul,
    skipSeps_word (fun x hx => ht x (List.mem_cons_of_mem _ hx)) he hfuel, Option.map_some,
    @List.length_append _ (front ++ w), List.length_replicate, Nat.add_assoc]

theorem IsAnswer.head (h : IsAnswer menu ws) : ∃ e rest, answerText ws = e :: rest ∧
    isAnswerSep e = false ∧ e ≠ nul := by
  have hfirst (w t : Str) (ws : List (Str × Str)) (hw : AnswerWord menu w) :
      ∃ e rest, answerText ((w, t) :: ws) = e :: rest ∧ isAnswerSep e = false ∧ e ≠ nul := by
    cases w with
    | nil => exact absurd rfl hw.ne_nil
    | cons e w => exact ⟨e, _, rfl, hw.plain e List.mem_cons_self⟩
  match ws with
  | [] => cases h
  | [(w, t)] => exact hfirst w t [] h.1
  | (w, t) :: x :: ws => exact hfirst w t (x :: ws) h.1

theorem matchLoop_eq (ws : List (Str × Str)) (h : IsAnswer menu ws) (choice : List Str)
    (hmax : choice.length + ws.length ≤ max) (hf : ws.length ≤ fuel) :
    matchLoop menu max fuel (front ++ (answerText ws ++ [nul])) front.length choice =
      runWords menu ws choice := by
  induction ws generalizing front choice fuel with
  | nil => cases h
  | cons x ws ih =>
    obtain ⟨w, t⟩ := x
    have hroom : ¬ max ≤ choice.length := by
      rw [List.length_cons] at hmax
      omega
    cases fuel with
    | zero => exact absurd hf (Nat.not_succ_le_zero _)
    | succ fuel =>
      cases ws with
      | nil =>
        obtain ⟨hw, ht⟩ := h
        have htext : answerText [(w, t)] = w ++ t := by simp [answerText]
        rw [htext, matchLoop, runWords]
        cases t with
        | nil =>
          rw [List.append_nil, splitWord_last hw.plain, Option.bind_some]
          dsimp only
          rw [if_neg hroom, List.drop_left, takeWhile_nul hw.plain, hw.addChoices, if_pos rfl]
          cases matchWord menu w <;> rfl
        | cons d t =>
          rw [List.append_assoc, List.cons_append, splitWord_end hw.plain ht,
            if_neg (List.cons_ne_nil _ _)]
          rfl
      | cons y ws =>
        obtain ⟨hw, ht, hne, hrest⟩ := h
        obtain ⟨e, rest, htext, he⟩ := hrest.head
        cases t with
        | nil => exact absurd rfl hne
        | cons d t =>
          have hbuf : answerText ((w, d :: t) :: y :: ws) ++ [nul] =
              w ++ d :: (t ++ e :: (rest ++ [nul])) := by
            rw [answerText, List.flatMap_cons, ← answerText, htext]
            simp
          have hdrop : (front ++ w ++ List.replicate (t.length + 1) nul ++ e ::
            (rest ++ [nul])).drop
              front.length = w ++ nul :: (List.replicate t.length nul ++ e :: (rest ++ [nul])) := by
            rw [List.append_assoc, List.append_assoc, List.drop_left, List.replicate_succ,
              List.cons_append]
          rw [hbuf, matchLoop, splitWord_next hw.plain ht he, Option.bind_some, runWords]
          · dsimp only
            rw [if_neg hroom, hdrop, takeWhile_nul hw.plain, hw.addChoices]
            cases matchWord menu w with
            | error e => rfl
            | ok found =>
              have hnext := @ih (front ++ w ++ List.replicate (t.length + 1) nul) fuel hrest
                (choice ++ [found]) (by simp at hmax ⊢; omega) (Nat.le_of_succ_le_succ hf)
              rw [htext, List.cons_append] at hnext
              dsimp only [Except.map]
              rw [List.getElem?_append_right (Nat.le_refl _), Nat.sub_self,
                List.getElem?_cons_zero, Option.bind_some, if_neg he.2, hnext]
          · intro h
            cases h

theorem length_le_answerText (ws : List (Str × Str)) (h : IsAnswer menu ws) :
    ws.length ≤ (answerText ws).length := by
  have hone (w : Str) (hw : AnswerWord menu w) : 0 < w.length := List.length_pos_of_ne_nil hw.ne_nil
  induction ws with
  | nil => exact Nat.zero_le _
  | cons x ws ih =>
    obtain ⟨w, t⟩ := x
    rw [answerText, List.flatMap_cons, List.length_append, List.length_append, ← answerText,
      List.length_cons]
    dsimp only
    cases ws with
    | nil =>
      have := hone w h.1
      simp only [List.length_nil]
      omega
    | cons y ws =>
      have := hone w h.1
      have := ih h.2.2.2
      omega

theorem matchMenu_eq (ws : List (Str × Str)) (h : IsAnswer menu ws) (hmax : ws.length ≤ max) :
    matchMenu menu (answerText ws) max = runWords menu ws [] := by
  have hlen := length_le_answerText ws h
  have hrun := @matchLoop_eq menu [] max ((answerText ws).length + 1) ws h []
    (by simpa using hmax) (by omega)
  rwa [List.nil_append, List.length_nil] at hrun

end Buffer

def TrailingSep : List (Str × Str) → Prop
  | [] => False
  | [(_, t)] => t ≠ []
  | _ :: ws => TrailingSep ws

/-- A word for which `match` finds no choice. -/
def Fails (menu : CkMenu) (w : Str) : Prop := intended menu w = none ∨ ¬ CleanWord menu w

/-- Where `match` does what it should: all words are clean or one stands for no choice, and there is
no separator at the end, or a word in front of the last one finds no choice. -/
def AnswerFits (menu : CkMenu) (ws : List (Str × Str)) : Prop :=
  ((∃ x ∈ ws, intended menu x.1 = none) ∨ ∀ x ∈ ws, CleanWord menu x.1) ∧
    (¬ TrailingSep ws ∨ ∃ x ∈ ws.dropLast, Fails menu x.1)

section Outcome
variable {menu : CkMenu} {w t : Str} {ws : List (Str × Str)}

/-- The choices for all words, if each one stands for a choice. -/
def intendedAll (menu : CkMenu) (ws : List (Str × Str)) : Option (List Str) :=
  ws.mapM fun x => intended menu x.1

theorem intendedAll_cons (x : Str × Str) (ws : List (Str × Str)) : intendedAll menu (x :: ws) =
    (intended menu x.1).bind fun found => (intendedAll menu ws).map (found :: ·) := by
  rw [intendedAll, List.mapM_cons]
  cases intended menu x.1 with
  | none => rfl
  | some found => cases h : intendedAll menu ws <;> simp_all [intendedAll]

theorem intendedAll_eq_none_iff :
    intendedAll menu ws = none ↔ ∃ x ∈ ws, intended menu x.1 = none := by
  induction ws with
  | nil => exact iff_of_false (by simp [intendedAll]) (by simp)
  | cons x ws ih =>
    rw [intendedAll_cons, List.exists_mem_cons_iff, ← ih]
    cases intended menu x.1 <;> simp

theorem runWords_fails (hw : (matchWord menu w).toOption = none) (hws : ws ≠ [])
    (choice : List Str) :
    ∃ r, runWords menu ((w, t) :: ws) choice = some r ∧ r.toOption = none := by
  cases ws with
  | nil => exact absurd rfl hws
  | cons y ws =>
    rw [runWords]
    · cases hm : matchWord menu w with
      | error e => exact ⟨.error e, rfl, rfl⟩
      | ok found =>
        rw [hm] at hw
        cases hw
    · intro h
      cases h

theorem runWords_found (hw : (matchWord menu w).toOption = some found) (hws : ws ≠ [])
    (choice : List Str) :
    runWords menu ((w, t) :: ws) choice = runWords menu ws (choice ++ [found]) := by
  cases ws with
  | nil => exact absurd rfl hws
  | cons y ws =>
    rw [runWords]
    · cases hm : matchWord menu w with
      | error e =>
        rw [hm] at hw
        cases hw
      | ok found' =>
        rw [hm] at hw
        obtain rfl := Option.some_inj.mp hw
        rfl
    · intro h
      cases h

theorem single_iff
    (hw : (matchWord menu w).toOption = if CleanWord menu w then intended menu w else none)
    (choice : List Str) :
    ((matchWord menu w).map fun found => choice ++ [found]).toOption =
        ((intended menu w).map fun found => [found]).map (choice ++ ·) ↔
      intended menu w = none ∨ CleanWord menu w := by
  have hmap : ((matchWord menu w).map fun found => choice ++ [found]).toOption =
      (matchWord menu w).toOption.map fun found => choice ++ [found] := by
    cases matchWord menu w <;> rfl
  rw [hmap, hw]
  by_cases hclean : CleanWord menu w
  · rw [if_pos hclean, Option.map_map]
    exact iff_of_true rfl (.inr hclean)
  · rw [if_neg hclean]
    cases intended menu w <;> simp [hclean]

/-- What the words give in the order of the answer. -/
theorem runWords_iff (hall : ∀ t ∈ menu.all, NulFree t) (hnodup : menu.all.Nodup)
    (h : IsAnswer menu ws) (choice : List Str) :
    (∃ r, runWords menu ws choice = some r ∧
      r.toOption = (intendedAll menu ws).map (choice ++ ·)) ↔ AnswerFits menu ws := by
  induction ws generalizing choice with
  | nil => cases h
  | cons x ws ih =>
    obtain ⟨w, t⟩ := x
    have hword (hw : AnswerWord menu w) := matchWord_toOption hall hnodup hw.nulFree
    cases ws with
    | nil =>
      have hone : intendedAll menu [(w, t)] = (intended menu w).map fun found => [found] := by
        rw [intendedAll_cons]
        cases intended menu w <;> rfl
      have hend := single_iff (hword h.1) choice
      rw [runWords, hone, AnswerFits]
      simp only [TrailingSep, List.mem_singleton, exists_eq_left, forall_eq,
        List.dropLast_singleton, List.not_mem_nil, false_and, exists_false, or_false, not_not]
      by_cases ht : t = []
      · rw [if_pos ht, ← hend]
        simp only [ht, and_true, Option.some_inj, exists_eq_left']
      · simp [ht]
    | cons y ws =>
      obtain ⟨haw, ht, hne, hrest⟩ := h
      have hw := hword haw
      have htrail : TrailingSep ((w, t) :: y :: ws) ↔ TrailingSep (y :: ws) := Iff.rfl
      have hdrop : ((w, t) :: y :: ws).dropLast = (w, t) :: (y :: ws).dropLast := rfl
      by_cases hfail : Fails menu w
      · have hnone : (matchWord menu w).toOption = none := by
          rw [hw]
          rcases hfail with hfail | hfail
          · rw [hfail, ite_self]
          · rw [if_neg hfail]
        obtain ⟨r, hr, hrnone⟩ := runWords_fails (t := t) hnone (List.cons_ne_nil y ws) choice
        rw [hr]
        simp only [Option.some_inj, exists_eq_left', hrnone]
        rw [eq_comm, Option.map_eq_none_iff, intendedAll_eq_none_iff, AnswerFits, hdrop]
        constructor
        · exact fun h => ⟨.inl h, .inr ⟨(w, t), List.mem_cons_self, hfail⟩⟩
        · rintro ⟨h | h, -⟩
          · exact h
          · exact ⟨(w, t), List.mem_cons_self,
              hfail.resolve_right fun hno => hno (h (w, t) List.mem_cons_self)⟩
      · rw [Fails, not_or, not_not] at hfail
        obtain ⟨hsome, hclean⟩ := hfail
        obtain ⟨found, hfound⟩ := Option.ne_none_iff_exists'.mp hsome
        rw [if_pos hclean, hfound] at hw
        have hfits : AnswerFits menu ((w, t) :: y :: ws) ↔ AnswerFits menu (y :: ws) := by
          rw [AnswerFits, AnswerFits, htrail, hdrop]
          generalize (y :: ws).dropLast = front
          simp only [List.exists_mem_cons_iff, List.forall_mem_cons, Fails, hfound, hclean,
            reduceCtorEq, false_or, true_and, not_true_eq_false]
        rw [runWords_found hw (List.cons_ne_nil y ws), intendedAll_cons, hfound, Option.bind_some,
          hfits, ← ih hrest (choice ++ [found])]
        simp [Function.comp_def, Option.map_map]

end Outcome

/-- `match` gives the choices that the words stand for, reading no byte behind the answer, in these
cases only. -/
theorem matchMenu_exact_iff (menu : CkMenu) (ws : List (Str × Str)) (max : Nat)
    (hall : ∀ t ∈ menu.all, NulFree t) (hnodup : menu.all.Nodup) (h : IsAnswer menu ws)
    (hmax : ws.length ≤ max) :
    (∃ r, matchMenu menu (answerText ws) max = some r ∧ r.toOption = intendedAll menu ws) ↔
      AnswerFits menu ws := by
  have hid : (intendedAll menu ws).map ([] ++ ·) = intendedAll menu ws := by simp
  rw [matchMenu_eq ws h hmax, ← runWords_iff hall hnodup h [], hid]

def yesNoMenu : CkMenu :=
  buildMenu false false [.item "yes Do it".toList, .item "no".toList, .invisible "yesterday".toList]

/-- Two words for the same choice. -/
theorem matchMenu_exact_iff_two :
    ∃ r, matchMenu yesNoMenu (answerText [("n".toList, " ,".toList), ("no".toList, [])]) 2 =
      some r ∧ r.toOption = intendedAll yesNoMenu [("n".toList, " ,".toList), ("no".toList, [])] :=
  (matchMenu_exact_iff yesNoMenu [("n".toList, " ,".toList), ("no".toList, [])] 2 (by decide)
    (by decide) ⟨⟨by decide, by decide, by decide⟩, by decide, by decide,
      ⟨by decide, by decide, by decide⟩, by decide⟩ (by decide)).mpr
    ⟨.inr (by decide), .inl fun h => h rfl⟩

/-- An invisible choice begins with a visible one, which is then not taken; and a blank behind the
answer is followed by its NUL. -/
theorem matchMenu_misses_visible :
    matchMenu yesNoMenu (answerText [("yes".toList, [])]) 1 = some (.error .notUniq) ∧
      intendedAll yesNoMenu [("yes".toList, [])] = some ["yes".toList] ∧
      matchMenu yesNoMenu (answerText [("no".toList, " ".toList)]) 1 = none := by
  refine ⟨?_, ?_, ?_⟩ <;> decide

section Build
variable {chp : Choice} {l l' : List Choice}

theorem insertChoice_perm (h : insertChoice chp alpha l = some l') :
    (l'.map Choice.token).Perm (chp.token :: l.map Choice.token) := by
  induction l generalizing l' with
  | nil =>
    obtain rfl := Option.some_inj.mp h
    exact .refl _
  | cons base rest ih =>
    rw [insertChoice] at h
    split at h
    · cases h
    · split at h
      · obtain rfl := Option.some_inj.mp h
        exact .refl _
      · obtain ⟨rest', hrest, rfl⟩ := Option.map_eq_some_iff.mp h
        rw [List.map_cons, List.map_cons]
        exact ((ih hrest).cons _).trans (.swap _ _ _)

/-- The tokens of a menu differ, and are in order if the menu is kept in order. -/
def Distinct (alpha : Bool) (tokens : List Str) : Prop :=
  tokens.Nodup ∧ (alpha = true → tokens.Pairwise (· < ·))

theorem insertChoice_notMem (hd : Distinct alpha (l.map Choice.token))
    (h : insertChoice chp alpha l = some l') : chp.token ∉ l.map Choice.token := by
  induction l generalizing l' with
  | nil => exact List.not_mem_nil
  | cons base rest ih =>
    rw [insertChoice] at h
    split at h
    · cases h
    · rename_i hne
      rw [List.map_cons, List.mem_cons, not_or]
      refine ⟨fun heq => hne heq.symm, ?_⟩
      split at h
      · rename_i hbefore
        obtain ⟨halpha, hlt⟩ := hbefore
        have hsorted := hd.2 halpha
        rw [List.map_cons, List.pairwise_cons] at hsorted
        exact fun hmem => lt_asymm hlt (hsorted.1 _ hmem)
      · obtain ⟨rest', hrest, -⟩ := Option.map_eq_some_iff.mp h
        refine ih ⟨(List.nodup_cons.mp hd.1).2, fun halpha => ?_⟩ hrest
        have hsorted := hd.2 halpha
        rw [List.map_cons, List.pairwise_cons] at hsorted
        exact hsorted.2

theorem insertChoice_sorted (hd : l.Pairwise fun a b => a.token < b.token)
    (h : insertChoice chp true l = some l') : l'.Pairwise fun a b => a.token < b.token := by
  induction l generalizing l' with
  | nil =>
    obtain rfl := Option.some_inj.mp h
    exact List.pairwise_singleton _ _
  | cons base rest ih =>
    obtain ⟨hbase, hrest⟩ := List.pairwise_cons.mp hd
    rw [insertChoice] at h
    split at h
    · cases h
    · rename_i hne
      split at h
      · rename_i hbefore
        obtain rfl := Option.some_inj.mp h
        refine List.pairwise_cons.mpr ⟨fun b hb => ?_, hd⟩
        rcases List.mem_cons.mp hb with rfl | hb
        · exact hbefore.2
        · exact lt_trans hbefore.2 (hbase b hb)
      · rename_i hbehind
        obtain ⟨rest', hins, rfl⟩ := Option.map_eq_some_iff.mp h
        refine List.pairwise_cons.mpr ⟨fun b hb => ?_, ih hrest hins⟩
        have hmem := (insertChoice_perm hins).subset (List.mem_map_of_mem hb)
        have hlt : base.token < chp.token :=
          lt_of_le_of_ne (not_lt.mp fun h => hbehind ⟨rfl, h⟩) hne
        rcases List.mem_cons.mp hmem with hb | hb
        · rwa [hb]
        · obtain ⟨c, hc, hbc⟩ := List.mem_map.mp hb
          rw [← hbc]
          exact hbase c hc

def MenuCall.choice : MenuCall → Str
  | .item choice => choice
  | .invisible choice => choice

/-- What a sequence of calls keeps: the visible choices differ, and no choice has a NUL. -/
structure MenuInv (alpha : Bool) (menu : CkMenu) : Prop where
  alpha_eq : menu.alpha = alpha
  distinct : Distinct alpha menu.tokens
  nulFree : ∀ t ∈ menu.all, NulFree t

theorem MenuInv.longest (h : MenuInv alpha menu) (n : Int) :
    MenuInv alpha { menu with longest := n } := ⟨h.alpha_eq, h.distinct, h.nulFree⟩

theorem setitem_inv (h : MenuInv alpha menu) (hc : NulFree choice) :
    MenuInv alpha (setitem menu choice).1 := by
  rw [setitem]
  split
  · exact h
  · dsimp only
    have hkeep : MenuInv alpha (if menu.longest < ((choice.takeWhile fun c => !isTokenSep c).length
        : Int) then { menu with
          longest := wrap 16 (choice.takeWhile fun c => !isTokenSep c).length } else menu) := by
      split
      · exact h.longest _
      · exact h
    generalize (if menu.longest < ((choice.takeWhile fun c => !isTokenSep c).length : Int) then
      { menu with longest := wrap 16 (choice.takeWhile fun c => !isTokenSep c).length }
        else menu) = m at hkeep ⊢
    split
    · rename_i list hins
      have hperm := insertChoice_perm hins
      rw [hkeep.alpha_eq] at hins
      have hnot := insertChoice_notMem hkeep.distinct hins
      refine ⟨hkeep.alpha_eq, ⟨?_, fun halpha => ?_⟩, fun t ht => ?_⟩
      · exact hperm.symm.nodup (List.nodup_cons.mpr ⟨hnot, hkeep.distinct.1⟩)
      · rw [halpha] at hins
        exact List.pairwise_map.mpr
          (insertChoice_sorted (List.pairwise_map.mp (hkeep.distinct.2 halpha)) hins)
      · rcases List.mem_append.mp ht with ht | ht
        · rcases List.mem_cons.mp (hperm.subset ht) with rfl | ht
          · exact hc.sublist (List.takeWhile_sublist _)
          · exact hkeep.nulFree t (List.mem_append_left _ ht)
        · exact hkeep.nulFree t (List.mem_append_right _ ht)
    · exact hkeep

/-- In a menu that was built by calls only the invisible choices can be equal to others. -/
theorem buildMenu_inv (unnum alpha : Bool) (calls : List MenuCall)
    (h : ∀ call ∈ calls, NulFree call.choice) : MenuInv alpha (buildMenu unnum alpha calls) := by
  induction calls using List.reverseRecOn with
  | nil => exact ⟨rfl, ⟨List.nodup_nil, fun _ => .nil⟩, fun t ht => absurd ht List.not_mem_nil⟩
  | append_singleton calls call ih =>
    have hrest := ih fun c hc => h c (List.mem_append_left _ hc)
    have hcall := h call (by simp)
    rw [buildMenu, List.foldl_append, List.foldl_cons, List.foldl_nil, ← buildMenu]
    cases call with
    | item choice => exact setitem_inv hrest hcall
    | invisible choice =>
      refine ⟨hrest.alpha_eq, hrest.distinct, fun t ht => ?_⟩
      rcases List.mem_append.mp ht with ht | ht
      · exact hrest.nulFree t (List.mem_append_left _ ht)
      · rcases List.mem_append.mp ht with ht | ht
        · exact hrest.nulFree t (List.mem_append_right _ ht)
        · obtain rfl := List.mem_singleton.mp ht
          exact hcall

end Build

end Pkgtools
