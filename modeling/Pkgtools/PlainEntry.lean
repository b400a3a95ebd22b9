import Pkgtools.CLib.Lines
import Pkgtools.Entry

namespace Pkgtools
open CLib
set_option autoImplicit true

structure Pinfo.Plain (p : Pinfo) : Prop where
  status : p.status ≠ '\n'
  pkg : OneLine p.pkg
  aclass : OneLine p.aclass

structure Ainfo.Plain (a : Ainfo) : Prop where
  localPath : ∀ l, a.localPath = some l → OneLine l
  owner : OneLine a.owner
  group : OneLine a.group

/-- An entry whose texts can stand on a line. -/
structure Cfent.Plain (e : Cfent) : Prop where
  ftype : OneLine [e.ftype]
  pkgClass : OneLine e.pkgClass
  ainfo : e.ainfo.Plain
  pinfo : ∀ p ∈ e.pinfo, p.Plain

/-- Writing took `v` to `w` and added text without a newline. -/
def AppendsText (v w : Vfp) : Prop := ∃ s, OneLine s ∧ Appends v w s

/-- The same, where the text starts with a character that ends a path. -/
def AppendsField (v w : Vfp) : Prop :=
  ∃ c s, (c = '=' ∨ c = ' ') ∧ OneLine s ∧ Appends v w (c :: s)

section Append
variable {u v w : Vfp}

theorem AppendsText.refl (v : Vfp) : AppendsText v v := ⟨[], by decide, Appends.refl v⟩

theorem AppendsText.trans (h : AppendsText u v) (h' : AppendsText v w) : AppendsText u w := by
  obtain ⟨s, hs, h⟩ := h
  obtain ⟨t, ht, h'⟩ := h'
  exact ⟨s ++ t, hs.append ht, h.trans h'⟩

theorem AppendsText.ite {p : Prop} [Decidable p] (h : AppendsText v w) :
    AppendsText v (if p then w else v) := by
  split
  · exact h
  · exact AppendsText.refl v

theorem AppendsField.text (h : AppendsField v w) : AppendsText v w := by
  obtain ⟨c, s, hc, hs, h⟩ := h
  refine ⟨c :: s, OneLine.cons ?_ hs, h⟩
  rcases hc with rfl | rfl
  · decide
  · decide

theorem AppendsField.trans (h : AppendsField u v) (h' : AppendsText v w) : AppendsField u w := by
  obtain ⟨c, s, hc, hs, h⟩ := h
  obtain ⟨t, ht, h'⟩ := h'
  exact ⟨c, s ++ t, hc, hs.append ht, h.trans h'⟩

theorem AppendsField.after (h : u = v ∨ AppendsField u v) (h' : AppendsField v w) :
    AppendsField u w := by
  rcases h with rfl | h
  · exact h'
  · exact h.trans h'.text

theorem vfpPutc_text (h : OneLine [c]) (v : Vfp) : AppendsText v (vfpPutc v c) :=
  ⟨[c], h, vfpPutc_appends v c⟩

theorem vfpPuts_text (h : OneLine s) (v : Vfp) : AppendsText v (vfpPuts v s) :=
  ⟨s, h, vfpPuts_appends v s⟩

theorem vfpPutFormat_text (h : OneLine s) (v : Vfp) : AppendsText v (vfpPutFormat v s) :=
  vfpPuts_text (h.sublist (List.take_sublist _ _)) v

theorem putField (hc : c = '=' ∨ c = ' ') (h : AppendsText (vfpPutc v c) w) : AppendsField v w := by
  obtain ⟨s, hs, h⟩ := h
  exact ⟨c, s, hc, hs, (vfpPutc_appends v c).trans h⟩

end Append

section Put
variable {e : Cfent}

theorem putDevice_text (v : Vfp) (n bad : Int) : AppendsText v (putDevice v n bad) := by
  have hblank := vfpPutc_text (c := ' ') (by decide) v
  rw [putDevice]
  split
  · exact hblank.trans (vfpPutc_text (by decide) _)
  · exact hblank.trans (vfpPutFormat_text (oneLine_fmtD n) _)

theorem putMode_text (v : Vfp) (mode : Nat) : AppendsText v (putMode v mode) := by
  apply vfpPutFormat_text
  split
  · decide
  · exact oneLine_field (oneLine_of_isDigit (fmtO4_isDigit mode))

theorem putContent_text (v : Vfp) (n : Int) : AppendsText v (putContent v n) := by
  apply vfpPutFormat_text
  split
  · decide
  · exact oneLine_field (oneLine_fmtD n)

theorem putWord_text (h : OneLine s) (v : Vfp) : AppendsText v (vfpPuts (vfpPutc v ' ') s) :=
  (vfpPutc_text (by decide) v).trans (vfpPuts_text h _)

theorem putPinfo_text (h : p.Plain) (v : Vfp) : AppendsText v (putPinfo v p) := by
  have h₁ := vfpPutc_text (c := ' ') (by decide) v
  have h₂ : AppendsText v (if p.status ≠ nul then vfpPutc (vfpPutc v ' ') p.status
      else vfpPutc v ' ') := by
    split
    · rename_i hne
      refine h₁.trans (vfpPutc_text ⟨?_, ?_⟩ _)
      · rw [List.mem_singleton]
        exact fun he => h.status he.symm
      · rw [List.mem_singleton]
        exact fun he => hne he.symm
    · exact h₁
  have h₃ := h₂.trans (vfpPuts_text h.pkg _)
  have h₄ := h₃.trans (AppendsText.ite (p := p.editflag ≠ 0)
    (vfpPutc_text (c := '\\') (by decide) _))
  exact h₄.trans (AppendsText.ite (p := p.aclass ≠ [])
    ((vfpPutc_text (c := ':') (by decide) _).trans (vfpPuts_text h.aclass _)))

theorem putPinfos_text (ps : List Pinfo) (h : ∀ p ∈ ps, p.Plain) (v : Vfp) :
    AppendsText v (ps.foldl putPinfo v) := by
  induction ps generalizing v with
  | nil => exact AppendsText.refl v
  | cons p ps ih =>
    exact (putPinfo_text (h p List.mem_cons_self) v).trans
      (ih (fun q hq => h q (List.mem_cons_of_mem _ hq)) _)

theorem putDevices_text (v : Vfp) (e : Cfent) : AppendsText v (putDevices v e) :=
  AppendsText.ite ((putDevice_text v _ _).trans (putDevice_text _ _ _))

theorem putAttrs_text (h : e.ainfo.Plain) (v : Vfp) : AppendsText v (putAttrs v e) :=
  AppendsText.ite (((putMode_text v _).trans (putWord_text h.owner _)).trans
    (putWord_text h.group _))

theorem putContents_text (v : Vfp) (e : Cfent) : AppendsText v (putContents v e) :=
  AppendsText.ite (((putContent_text v _).trans (putContent_text _ _)).trans (putContent_text _ _))

/-- An entry is written as one line, which starts with the path and a character that ends it. -/
theorem putcvfpfile_line (h : e.Plain) (hi : e.ftype ≠ 'i') (hp : e.path = some path) (v : Vfp) :
    (putcvfpfile e v).1 = 0 ∧ ∃ c s, (c = '=' ∨ c = ' ') ∧ OneLine s ∧
      Appends v (putcvfpfile e v).2 (path ++ c :: s ++ ['\n']) := by
  have hpath : Appends v (vfpPuts (vfpSetModified v) path) path :=
    (vfpSetModified_appends v).trans (vfpPuts_appends _ path)
  have hvolno (w : Vfp) : w = (if e.volno ≠ 0 then vfpPutInteger (vfpPutc w ' ') e.volno else w) ∨
      AppendsField w (if e.volno ≠ 0 then vfpPutInteger (vfpPutc w ' ') e.volno else w) := by
    split
    · exact .inr (putField (.inr rfl) (vfpPutFormat_text (oneLine_fmtD _) _))
    · exact .inl rfl
  have hrest (w : Vfp) : AppendsField w (e.pinfo.foldl putPinfo (putContents (putAttrs (putDevices
      (vfpPuts (vfpPutc (vfpPutc (vfpPutc w ' ') e.ftype) ' ') e.pkgClass) e) e) e)) := by
    apply putField (.inr rfl)
    exact ((((vfpPutc_text h.ftype _).trans (putWord_text h.pkgClass _)).trans
      (putDevices_text _ e)).trans (putAttrs_text h.ainfo _)).trans
      ((putContents_text _ e).trans (putPinfos_text e.pinfo h.pinfo _))
  simp only [putcvfpfile, if_neg hi, hp]
  refine ⟨trivial, ?_⟩
  cases hl : e.ainfo.localPath with
  | none =>
    obtain ⟨c, s, hc, hs, happ⟩ := AppendsField.after (hvolno _) (hrest _)
    exact ⟨c, s, hc, hs, (hpath.trans happ).trans (vfpPutc_appends _ '\n')⟩
  | some l =>
    obtain ⟨c, s, hc, hs, happ⟩ :=
      AppendsField.after (.inr (putField (.inl rfl) (vfpPuts_text (h.ainfo.localPath l hl) _)))
        (AppendsField.after (hvolno _) (hrest _))
    exact ⟨c, s, hc, hs, (hpath.trans happ).trans (vfpPutc_appends _ '\n')⟩

end Put

end Pkgtools
