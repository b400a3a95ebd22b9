import Pkgtools.DevTab
import Mathlib.Algebra.GroupWithZero.Nat

namespace Pkgtools
open CLib
set_option autoImplicit true

structure BufStore where
  off : Int
  byte : Char
  deriving DecidableEq, Repr

/-- `*p++ = c` for each byte of a text. -/
def storesFrom (p : Int) : Str → List BufStore
  | [] => []
  | c :: s => ⟨p, c⟩ :: storesFrom (p + 1) s

def fieldSize : Option Str → Nat
  | none => 0
  | some s => s.length * 2 + 1

def attrsSize : List AttrVal → Nat
  | [] => 1
  | attrlist => (attrlist.map fun a => a.attr.length * 2 + (a.val.length * 2 + 4)).sum

/-- The number of bytes that `_putdevtabrec` allocates. -/
def putSize : DevRec → Nat
  | .comment attrstr => attrstr.length * 2 + 1 + 1
  | .data d =>
    fieldSize d.cdevice + fieldSize d.bdevice + fieldSize d.pathname + attrsSize d.attrlist + 1

/-- What `_putdevtabrec` stores into the buffer, in order. -/
def putStores : DevRec → Option (List BufStore)
  | .comment attrstr =>
    let q := strcatesc attrstr
    some (storesFrom 0 q ++ [⟨q.length - 2, '\n'⟩, ⟨q.length - 1, nul⟩])
  | .data d => (putdevtabrec (.data d)).map fun text => storesFrom 0 (text ++ [nul])

def StoresInside (size : Nat) (stores : List BufStore) : Prop :=
  ∀ st ∈ stores, 0 ≤ st.off ∧ st.off < size

/-- The number of characters that need no escape. -/
def plainChars (s : Str) : Nat := s.countP (· ∉ dtabEscs)

def DevData.fields (d : DevData) : List (Option Str) := [d.cdevice, d.bdevice, d.pathname]

def DevData.present (d : DevData) : Nat := d.fields.countP Option.isSome

def DevData.plain (d : DevData) : Nat :=
  (d.fields.map fun f => plainChars (f.getD [])).sum +
    (d.attrlist.map fun a => plainChars a.attr + plainChars a.val).sum

section Sizes
variable {p : Int} {s t : Str} {st : BufStore}

theorem length_storesFrom (p : Int) (s : Str) : (storesFrom p s).length = s.length := by
  induction s generalizing p with
  | nil => rfl
  | cons c s ih => rw [storesFrom, List.length_cons, ih, List.length_cons]

theorem off_of_mem_storesFrom (h : st ∈ storesFrom p s) : p ≤ st.off ∧ st.off < p + s.length := by
  induction s generalizing p with
  | nil => exact absurd h List.not_mem_nil
  | cons c s ih =>
    rw [List.length_cons]
    rcases List.mem_cons.mp h with rfl | h
    · dsimp only
      omega
    · have := ih h
      omega

theorem mem_storesFrom_append (p : Int) (s : Str) (c : Char) :
    ⟨p + s.length, c⟩ ∈ storesFrom p (s ++ [c]) := by
  induction s generalizing p with
  | nil => simp [storesFrom]
  | cons d s ih =>
    have hoff : p + ((d :: s).length : Int) = p + 1 + s.length := by
      rw [List.length_cons]
      omega
    rw [List.cons_append, storesFrom, hoff]
    exact List.mem_cons_of_mem _ (ih (p + 1))

theorem inside_storesFrom_iff (size : Nat) (text : Str) (c : Char) :
    StoresInside size (storesFrom 0 (text ++ [c])) ↔ text.length < size := by
  constructor
  · intro h
    have := (h _ (mem_storesFrom_append 0 text c)).2
    dsimp only at this
    omega
  · intro h st hst
    have := off_of_mem_storesFrom hst
    rw [List.length_append, List.length_singleton] at this
    omega

theorem length_strcatesc (s : Str) : (strcatesc s).length + plainChars s = s.length * 2 := by
  induction s with
  | nil => rfl
  | cons c s ih =>
    rw [strcatesc, escape] at ih
    rw [strcatesc, escape, plainChars, List.flatMap_cons, List.length_append, List.countP_cons,
      ← plainChars, List.length_cons]
    by_cases hc : c ∈ dtabEscs
    · simp only [hc, if_true, not_true_eq_false, decide_false, Bool.false_eq_true, if_false,
        List.length_cons, List.length_nil]
      omega
    · simp only [hc, if_false, not_false_eq_true, decide_true, if_true, List.length_cons,
        List.length_nil]
      omega

theorem length_fieldText (f : Option Str) :
    (fieldText f).length + (f.isSome.toNat + plainChars (f.getD [])) = fieldSize f := by
  have hlen := length_strcatesc (f.getD [])
  cases f with
  | none => rfl
  | some s =>
    rw [fieldText, fieldSize, Option.isSome_some, Bool.toNat_true]
    rw [Option.getD_some] at *
    omega

theorem length_pairText (a : AttrVal) :
    (pairText a).length + 1 + (plainChars a.attr + plainChars a.val) =
      a.attr.length * 2 + (a.val.length * 2 + 4) := by
  have hattr := length_strcatesc a.attr
  have hval := length_strcatesc a.val
  simp only [pairText, List.length_append, List.length_cons, List.length_nil]
  omega

theorem length_attrsText (attrlist : List AttrVal) :
    (attrsText attrlist).length + 1 +
      (attrlist.map fun a => plainChars a.attr + plainChars a.val).sum = attrsSize attrlist := by
  fun_induction attrsText attrlist with
  | case1 => rfl
  | case2 a =>
    have ha := length_pairText a
    simp only [attrsSize, List.map_cons, List.map_nil, List.sum_cons, List.sum_nil]
    omega
  | case3 a as hne ih =>
    have ha := length_pairText a
    have hsize : attrsSize (a :: as) = a.attr.length * 2 + (a.val.length * 2 + 4) +
        attrsSize as := by
      cases as with
      | nil => exact absurd rfl hne
      | cons b as => rfl
    rw [hsize, List.length_append, List.length_cons, List.map_cons, List.sum_cons]
    omega

theorem length_putdevtabrec (hname : d.aliasName = some name) :
    ∃ text, putdevtabrec (.data d) = some text ∧
      text.length + 1 + (d.present + d.plain) =
        putSize (.data d) + ((strcatesc name).length + 4) := by
  refine ⟨_, by rw [putdevtabrec, hname, Option.map_some], ?_⟩
  have hc := length_fieldText d.cdevice
  have hb := length_fieldText d.bdevice
  have hp := length_fieldText d.pathname
  have ha := length_attrsText d.attrlist
  have hpresent : d.present = d.cdevice.isSome.toNat + (d.bdevice.isSome.toNat +
      d.pathname.isSome.toNat) := by
    rw [DevData.present, DevData.fields]
    cases d.cdevice <;> cases d.bdevice <;> cases d.pathname <;> rfl
  simp only [hpresent, putSize, DevData.plain, DevData.fields, List.map_cons, List.map_nil,
    List.sum_cons, List.sum_nil, List.length_append, List.length_cons, List.length_nil]
  omega

end Sizes

/-- The buffer of `_putdevtabrec` is large enough for a data record if its alias is not longer than
what the other parts leave of their room, and for a comment always; but where the last two bytes of
a comment are replaced, one without a second byte has none in front of it. -/
theorem putStores_fits_iff (r : DevRec) (hr : ∀ d, r = .data d → d.aliasName.isSome)
    (hne : r ≠ .comment []) : ∃ stores, putStores r = some stores ∧
      match r with
      | .data d =>
        (stores.length ≤ putSize r ↔
          (strcatesc (d.aliasName.getD [])).length + 4 ≤ d.present + d.plain) ∧
        (StoresInside (putSize r) stores ↔ stores.length ≤ putSize r)
      | .comment t => stores.length ≤ putSize r ∧
        (StoresInside (putSize r) stores ↔ ¬ ∃ c, t = [c] ∧ c ∉ dtabEscs) := by
  cases r with
  | data d =>
    obtain ⟨name, hname⟩ := Option.isSome_iff_exists.mp (hr d rfl)
    obtain ⟨text, htext, hlen⟩ := length_putdevtabrec hname
    refine ⟨storesFrom 0 (text ++ [nul]), by rw [putStores, htext, Option.map_some], ?_, ?_⟩
    · rw [length_storesFrom, hname, Option.getD_some, List.length_append, List.length_singleton]
      omega
    · rw [inside_storesFrom_iff, length_storesFrom, List.length_append, List.length_singleton,
        Nat.succ_le_iff]
  | comment t =>
    have hlen := length_strcatesc t
    refine ⟨_, rfl, ?_, ?_⟩
    · simp only [List.length_append, length_storesFrom, List.length_cons, List.length_nil, putSize]
      omega
    · have hone : (∃ c, t = [c] ∧ c ∉ dtabEscs) ↔ (strcatesc t).length = 1 := by
        cases t with
        | nil => exact absurd rfl hne
        | cons c t =>
          cases t with
          | nil =>
            rw [strcatesc, escape, List.flatMap_singleton]
            by_cases hc : c ∈ dtabEscs <;> simp [hc]
          | cons d t =>
            have hplain : plainChars (c :: d :: t) ≤ (c :: d :: t).length := List.countP_le_length
            simp only [List.length_cons] at hlen hplain
            simp
            omega
      have hpos : 0 < (strcatesc t).length := by
        have hplain : plainChars t ≤ t.length := List.countP_le_length
        have ht : 0 < t.length := List.length_pos_of_ne_nil fun h => hne (h ▸ rfl)
        omega
      rw [hone]
      constructor
      · intro h heq
        have := (h ⟨(strcatesc t).length - 2, '\n'⟩ (by simp)).1
        dsimp only at this
        omega
      · intro h st hst
        rw [putSize]
        rcases List.mem_append.mp hst with hst | hst
        · have := off_of_mem_storesFrom hst
          omega
        · rcases List.mem_cons.mp hst with rfl | hst
          · dsimp only
            omega
          · obtain rfl := List.mem_singleton.mp hst
            dsimp only
            omega

/-- A record with a short alias and two devices. -/
theorem putStores_fits_iff_disk :
    ∃ stores, putStores (.data ⟨some "d".toList, some "/dev/rd".toList, none, none, []⟩) =
      some stores ∧
        (stores.length ≤ putSize (.data ⟨some "d".toList, some "/dev/rd".toList, none, none, []⟩) ↔
          (strcatesc "d".toList).length + 4 ≤ 8) := by
  obtain ⟨stores, h, hfits, -⟩ := putStores_fits_iff
    (.data ⟨some "d".toList, some "/dev/rd".toList, none, none, []⟩)
    (by rintro d ⟨⟩; rfl) (by decide)
  exact ⟨stores, h, hfits⟩

/-- An alias with one short attribute. -/
theorem putStores_overruns :
    ∃ stores, putStores (.data ⟨some "disk".toList, none, none, none,
        [⟨"a".toList, "b".toList⟩]⟩) = some stores ∧
      putSize (.data ⟨some "disk".toList, none, none, none, [⟨"a".toList, "b".toList⟩]⟩) = 9 ∧
      stores.length = 15 ∧ ¬ StoresInside 9 stores := by
  refine ⟨_, rfl, by decide, by decide, ?_⟩
  intro h
  exact absurd (h ⟨14, nul⟩ (by decide)).2 (by decide)

end Pkgtools
