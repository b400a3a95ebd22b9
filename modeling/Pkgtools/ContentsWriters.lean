import Pkgtools.VfpAppend
import Pkgtools.Entry

namespace Pkgtools
open CLib
set_option autoImplicit true

/-- A stdio stream: what was written to it, and which of its write calls fail. -/
structure Stream where
  text : Str
  calls : Nat
  fails : Nat → Bool

/-- `fputs`, and `fprintf` of the text it produces. -/
def Stream.fputs (f : Stream) (s : Str) : Option Stream :=
  if f.fails f.calls then none else some { f with text := f.text ++ s, calls := f.calls + 1 }

def Stream.putc (f : Stream) (c : Char) : Option Stream := f.fputs [c]

/-- `' ' ?` for the sentinel, in two calls, else the number in one. -/
def fileDevice (f : Stream) (n bad : Int) : Option Stream :=
  if n = bad then do
    let f ← f.putc ' '
    f.putc '?'
  else f.fputs (' ' :: fmtD n)

def fileDevices (e : Cfent) (f : Stream) : Option Stream :=
  if isDevice e.ftype then do
    let f ← fileDevice f e.ainfo.major badMajor
    fileDevice f e.ainfo.minor badMinor
  else some f

def fileAttrs (e : Cfent) (f : Stream) : Option Stream :=
  if hasAttrs e.ftype then do
    let f ← f.fputs (if e.ainfo.mode = badMode then " ?".toList else ' ' :: fmtO4 e.ainfo.mode)
    let f ← f.putc ' '
    let f ← f.fputs e.ainfo.owner
    let f ← f.putc ' '
    f.fputs e.ainfo.group
  else some f

def fileContent (f : Stream) (n : Int) : Option Stream :=
  f.fputs (if n = badCont then " ?".toList else ' ' :: fmtD n)

def fileContents (e : Cfent) (f : Stream) : Option Stream :=
  if hasContent e.ftype then do
    let f ← fileContent f e.cinfo.size
    let f ← fileContent f e.cinfo.cksum
    fileContent f e.cinfo.modtime
  else some f

def filePinfo (f : Stream) (p : Pinfo) : Option Stream := do
  let f ← f.putc ' '
  let f ← (if p.status ≠ nul then f.putc p.status else some f)
  let f ← f.fputs p.pkg
  let f ← (if p.editflag ≠ 0 then f.putc '\\' else some f)
  if p.aclass ≠ [] then do
    let f ← f.putc ':'
    f.fputs p.aclass
  else some f

def fileLocal (e : Cfent) (f : Stream) : Option Stream :=
  match e.ainfo.localPath with
  | some l => do
    let f ← f.putc '='
    f.fputs l
  | none => some f

/-- The calls that `putcfile` makes for an entry with a path; the first that fails is the last. -/
def fileEntry (e : Cfent) (path : Str) (f : Stream) : Option Stream := do
  let f ← f.fputs path
  let f ← fileLocal e f
  let f ← (if e.volno ≠ 0 then f.fputs (' ' :: fmtD e.volno) else some f)
  let f ← f.putc ' '
  let f ← f.putc e.ftype
  let f ← f.putc ' '
  let f ← f.fputs e.pkgClass
  let f ← fileDevices e f
  let f ← fileAttrs e f
  let f ← fileContents e f
  let f ← e.pinfo.foldlM filePinfo f
  f.putc '\n'

/-- `putcfile`: its return code and the stream, which is not determined after a failed write. -/
def putcfile (e : Cfent) (f : Stream) : Int × Option Stream :=
  if e.ftype = 'i' then (0, some f)
  else match e.path with
    | none => (-1, some f)
    | some path => match fileEntry e path f with
      | some f => (0, some f)
      | none => (-1, none)

/-- The calls of the VFP macros that `putcvfpfile` makes. -/
def devicePuts (n bad : Int) : List Put :=
  .char ' ' :: if n = bad then [.char '?'] else [.format (fmtD n)]

def contentPut (n : Int) : Put := .format (if n = badCont then " ?".toList else ' ' :: fmtD n)

def localPuts (e : Cfent) : List Put :=
  match e.ainfo.localPath with
  | some l => [.char '=', .string l]
  | none => []

def pinfoPuts (p : Pinfo) : List Put :=
  Put.char ' ' :: (if p.status ≠ nul then [Put.char p.status] else []) ++ Put.string p.pkg ::
    (if p.editflag ≠ 0 then [Put.char '\\'] else []) ++
    if p.aclass ≠ [] then [Put.char ':', Put.string p.aclass] else []

def devicesPuts (e : Cfent) : List Put :=
  if isDevice e.ftype then
    devicePuts e.ainfo.major badMajor ++ devicePuts e.ainfo.minor badMinor
  else []

def attrsPuts (e : Cfent) : List Put :=
  if hasAttrs e.ftype then
    [.format (if e.ainfo.mode = badMode then " ?".toList else ' ' :: fmtO4 e.ainfo.mode),
      .char ' ', .string e.ainfo.owner, .char ' ', .string e.ainfo.group]
  else []

def contentsPuts (e : Cfent) : List Put :=
  if hasContent e.ftype then
    [contentPut e.cinfo.size, contentPut e.cinfo.cksum, contentPut e.cinfo.modtime]
  else []

def entryPuts (e : Cfent) (path : Str) : List Put :=
  Put.string path :: localPuts e ++
    (if e.volno ≠ 0 then [Put.char ' ', Put.format (fmtD e.volno)] else []) ++
    [Put.char ' ', Put.char e.ftype, Put.char ' ', Put.string e.pkgClass] ++ devicesPuts e ++
    attrsPuts e ++ contentsPuts e ++ e.pinfo.flatMap pinfoPuts ++ [Put.char '\n']

/-- The bytes of the line of an entry; nothing is written for an installation file or without a
path. -/
def entryBytes (e : Cfent) : Str :=
  if e.ftype = 'i' then [] else e.path.elim [] fun path => putText (entryPuts e path)

section Puts
variable {e : Cfent}

theorem runPuts_cons (v : Vfp) (p : Put) (ps : List Put) :
    runPuts v (p :: ps) = runPuts (p.exec v) ps := rfl

theorem runPuts_ite (c : Prop) [Decidable c] (v : Vfp) (ps qs : List Put) :
    runPuts v (if c then ps else qs) = if c then runPuts v ps else runPuts v qs := by
  split <;> rfl

theorem putPinfo_runPuts (v : Vfp) (p : Pinfo) : putPinfo v p = runPuts v (pinfoPuts p) := by
  rw [pinfoPuts, List.cons_append, List.cons_append, runPuts_cons, runPuts_append, runPuts_append,
    runPuts_cons, runPuts_ite, runPuts_ite, runPuts_ite]
  rfl

theorem putPinfos_runPuts (v : Vfp) (ps : List Pinfo) :
    ps.foldl putPinfo v = runPuts v (ps.flatMap pinfoPuts) := by
  induction ps generalizing v with
  | nil => rfl
  | cons p ps ih =>
    rw [List.foldl_cons, ih, putPinfo_runPuts, List.flatMap_cons, runPuts_append]

theorem putDevice_runPuts (v : Vfp) (n bad : Int) :
    putDevice v n bad = runPuts v (devicePuts n bad) := by
  rw [devicePuts, runPuts_cons, runPuts_ite]
  rfl

theorem putDevices_runPuts (v : Vfp) (e : Cfent) : putDevices v e = runPuts v (devicesPuts e) := by
  rw [devicesPuts, runPuts_ite, runPuts_append, ← putDevice_runPuts, ← putDevice_runPuts]
  rfl

theorem putAttrs_runPuts (v : Vfp) (e : Cfent) : putAttrs v e = runPuts v (attrsPuts e) := by
  rw [attrsPuts, runPuts_ite]
  rfl

theorem putContents_runPuts (v : Vfp) (e : Cfent) :
    putContents v e = runPuts v (contentsPuts e) := by
  rw [contentsPuts, runPuts_ite]
  rfl

theorem putcvfpfile_runPuts (v : Vfp) (hi : e.ftype ≠ 'i') (hp : e.path = some path) :
    putcvfpfile e v = (0, runPuts (vfpSetModified v) (entryPuts e path)) := by
  have hlocal (v : Vfp) : runPuts v (localPuts e) = match e.ainfo.localPath with
      | some l => vfpPuts (vfpPutc v '=') l
      | none => v := by
    rw [localPuts]
    cases e.ainfo.localPath <;> rfl
  simp only [putcvfpfile, if_neg hi, hp, entryPuts, runPuts_append, runPuts_cons, runPuts_ite,
    hlocal, putContents_runPuts, putAttrs_runPuts, putDevices_runPuts, putPinfos_runPuts]
  rfl

theorem contentPut_fits (h : -2 ^ 63 ≤ n ∧ n < 2 ^ 63) : (contentPut n).Fits := by
  have hl := fmtD_length h.1 h.2
  rw [contentPut, Put.Fits]
  split
  · decide
  · rw [List.length_cons]
    omega

theorem devicePuts_fits (h : -2 ^ 31 ≤ n ∧ n < 2 ^ 31) (bad : Int) :
    ∀ p ∈ devicePuts n bad, p.Fits := by
  have hl := fmtD_length (x := n) (by omega) (by omega)
  intro p hp
  rw [devicePuts] at hp
  split at hp <;> simp only [List.mem_cons, List.not_mem_nil, or_false] at hp <;>
    rcases hp with rfl | rfl
  · trivial
  · trivial
  · trivial
  · rw [Put.Fits]
    omega

theorem attrsPuts_fits (h : e.ainfo.mode < 2 ^ 16) : ∀ p ∈ attrsPuts e, p.Fits := by
  have hl := fmtO4_length h
  intro p hp
  rw [attrsPuts] at hp
  split at hp
  · simp only [List.mem_cons, List.not_mem_nil, or_false] at hp
    rcases hp with rfl | rfl | rfl | rfl | rfl
    · rw [Put.Fits]
      split
      · decide
      · rw [List.length_cons]
        omega
    all_goals trivial
  · cases hp

theorem pinfoPuts_fits (ps : List Pinfo) : ∀ p ∈ ps.flatMap pinfoPuts, p.Fits := by
  intro p hp
  obtain ⟨q, -, hq⟩ := List.mem_flatMap.mp hp
  simp only [pinfoPuts, List.mem_append, List.mem_cons, List.mem_ite_nil_right, List.not_mem_nil,
    or_false] at hq
  rcases hq with ((rfl | ⟨-, rfl⟩) | rfl | ⟨-, rfl⟩) | ⟨-, rfl | rfl⟩ <;> trivial

theorem entryPuts_fits (ht : e.Typed) (hvol : -2 ^ 15 ≤ e.volno ∧ e.volno < 2 ^ 15) (path : Str) :
    ∀ p ∈ entryPuts e path, p.Fits := by
  have hl := fmtD_length (x := e.volno) (by omega) (by omega)
  have hlocal : ∀ p ∈ localPuts e, p.Fits := by
    rw [localPuts]
    split <;> simp [Put.Fits]
  have hvolno : ∀ p ∈ (if e.volno ≠ 0 then [.char ' ', .format (fmtD e.volno)] else [] : List Put),
      p.Fits := by
    have hfits : (fmtD e.volno).length ≤ 255 := by omega
    split <;> simp [Put.Fits, hfits]
  have hdevices : ∀ p ∈ devicesPuts e, p.Fits := by
    rw [devicesPuts]
    split
    · exact List.forall_mem_append.mpr
        ⟨devicePuts_fits ht.major badMajor, devicePuts_fits ht.minor badMinor⟩
    · simp
  have hcontents : ∀ p ∈ contentsPuts e, p.Fits := by
    rw [contentsPuts]
    split
    · simp [contentPut_fits ht.size, contentPut_fits ht.cksum, contentPut_fits ht.modtime]
    · simp
  simp only [entryPuts, List.forall_mem_append, List.forall_mem_cons]
  exact ⟨⟨⟨⟨⟨⟨⟨⟨trivial, hlocal⟩, hvolno⟩, trivial, trivial, trivial, trivial, by simp⟩, hdevices⟩,
    attrsPuts_fits ht.mode⟩, hcontents⟩, pinfoPuts_fits _⟩, trivial, by simp⟩

end Puts

theorem putText_nil : putText [] = [] := rfl

theorem putText_cons (p : Put) (ps : List Put) : putText (p :: ps) = p.item ++ putText ps := rfl

theorem putText_ite (c : Prop) [Decidable c] (ps qs : List Put) :
    putText (if c then ps else qs) = if c then putText ps else putText qs :=
      apply_ite putText c ps qs

section Writes
variable {f : Stream} {e : Cfent}

def Stream.Sound (f : Stream) : Prop := ∀ n, f.fails n = false

/-- All calls succeed, and they append `s`. -/
def Writes (f : Stream) (r : Option Stream) (s : Str) : Prop :=
  ∃ f', r = some f' ∧ f'.Sound ∧ f'.text = f.text ++ s

theorem Writes.none (hf : f.Sound) : Writes f (some f) [] := ⟨f, rfl, hf, (List.append_nil _).symm⟩

theorem Writes.bind {k : Stream → Option Stream} (h : Writes f r s)
    (hk : ∀ f, f.Sound → Writes f (k f) t) : Writes f (r >>= k) (s ++ t) := by
  obtain ⟨f', rfl, hf', htext⟩ := h
  obtain ⟨g, hg, hgs, hgt⟩ := hk f' hf'
  exact ⟨g, hg, hgs, by rw [hgt, htext, List.append_assoc]⟩

theorem Writes.ite {p : Prop} [Decidable p] (h : Writes f r s) (hf : f.Sound) :
    Writes f (if p then r else some f) (if p then s else []) := by
  split
  · exact h
  · exact Writes.none hf

theorem Stream.fputs_writes (hf : f.Sound) (s : Str) : Writes f (f.fputs s) s :=
  ⟨{ f with text := f.text ++ s, calls := f.calls + 1 },
    by rw [Stream.fputs, hf, if_neg (by decide)], hf, rfl⟩

theorem Stream.putc_writes (hf : f.Sound) (c : Char) : Writes f (f.putc c) [c] :=
  Stream.fputs_writes hf [c]

theorem Writes.of_eq (h : Writes f r s) (he : s = t) : Writes f r t := he ▸ h

theorem fileDevice_writes (hf : f.Sound) (n bad : Int) :
    Writes f (fileDevice f n bad) (putText (devicePuts n bad)) := by
  rw [fileDevice, devicePuts]
  split
  · exact (Stream.putc_writes hf ' ').bind fun f hf => Stream.putc_writes hf '?'
  · exact (Stream.fputs_writes hf _).of_eq (by simp [putText, Put.item])

theorem fileDevices_writes (hf : f.Sound) :
    Writes f (fileDevices e f) (putText (devicesPuts e)) := by
  rw [fileDevices, devicesPuts, putText_ite, putText_append]
  exact ((fileDevice_writes hf _ _).bind fun f hf => fileDevice_writes hf _ _).ite hf

theorem fileAttrs_writes (hf : f.Sound) : Writes f (fileAttrs e f) (putText (attrsPuts e)) := by
  rw [fileAttrs, attrsPuts, putText_ite]
  refine Writes.ite ?_ hf
  refine (Stream.fputs_writes hf _).bind fun f hf => ?_
  refine (Stream.putc_writes hf ' ').bind fun f hf => ?_
  refine (Stream.fputs_writes hf e.ainfo.owner).bind fun f hf => ?_
  refine (Stream.putc_writes hf ' ').bind fun f hf => ?_
  exact (Stream.fputs_writes hf e.ainfo.group).of_eq (List.append_nil _).symm

theorem fileContents_writes (hf : f.Sound) :
    Writes f (fileContents e f) (putText (contentsPuts e)) := by
  rw [fileContents, contentsPuts, putText_ite]
  refine Writes.ite ?_ hf
  refine (Stream.fputs_writes hf _).bind fun f hf => ?_
  refine (Stream.fputs_writes hf _).bind fun f hf => ?_
  exact (Stream.fputs_writes hf _).of_eq (List.append_nil _).symm

theorem filePinfo_writes (hf : f.Sound) (p : Pinfo) :
    Writes f (filePinfo f p) (putText (pinfoPuts p)) := by
  have hwrites := (Stream.putc_writes hf ' ').bind fun f hf =>
    ((Stream.putc_writes hf p.status).ite (p := p.status ≠ nul) hf).bind fun f hf =>
    (Stream.fputs_writes hf p.pkg).bind fun f hf =>
    ((Stream.putc_writes hf '\\').ite (p := p.editflag ≠ 0) hf).bind fun f hf =>
    (((Stream.putc_writes hf ':').bind fun f hf => Stream.fputs_writes hf p.aclass).ite
      (p := p.aclass ≠ []) hf)
  refine hwrites.of_eq ?_
  simp only [pinfoPuts, putText_append, putText_cons, putText_ite, putText_nil, Put.item,
    List.append_assoc, List.append_nil]

theorem filePinfos_writes (ps : List Pinfo) (hf : f.Sound) :
    Writes f (ps.foldlM filePinfo f) (putText (ps.flatMap pinfoPuts)) := by
  induction ps generalizing f with
  | nil => exact Writes.none hf
  | cons p ps ih =>
    rw [List.foldlM_cons, List.flatMap_cons, putText_append]
    exact (filePinfo_writes hf p).bind fun f hf => ih hf

theorem fileLocal_writes (hf : f.Sound) : Writes f (fileLocal e f) (putText (localPuts e)) := by
  rw [fileLocal, localPuts]
  cases e.ainfo.localPath with
  | none => exact Writes.none hf
  | some l =>
    exact ((Stream.putc_writes hf '=').bind fun f hf => Stream.fputs_writes hf l).of_eq
      (by simp [putText, Put.item])

theorem fileEntry_writes (hf : f.Sound) (path : Str) :
    Writes f (fileEntry e path f) (putText (entryPuts e path)) := by
  have hwrites := (Stream.fputs_writes hf path).bind fun f hf =>
    (fileLocal_writes (e := e) hf).bind fun f hf =>
    ((Stream.fputs_writes hf (' ' :: fmtD e.volno)).ite (p := e.volno ≠ 0) hf).bind fun f hf =>
    (Stream.putc_writes hf ' ').bind fun f hf => (Stream.putc_writes hf e.ftype).bind fun f hf =>
    (Stream.putc_writes hf ' ').bind fun f hf => (Stream.fputs_writes hf e.pkgClass).bind
      fun f hf =>
    (fileDevices_writes (e := e) hf).bind fun f hf =>
      (fileAttrs_writes (e := e) hf).bind fun f hf =>
    (fileContents_writes (e := e) hf).bind fun f hf =>
    (filePinfos_writes e.pinfo hf).bind fun f hf => Stream.putc_writes hf '\n'
  refine hwrites.of_eq ?_
  simp only [entryPuts, putText_append, putText_cons, putText_ite, putText_nil, Put.item,
    List.append_assoc, List.append_nil, List.nil_append, List.cons_append]

theorem putcvfpfile_text (ht : e.Typed) (hvol : -2 ^ 15 ≤ e.volno ∧ e.volno < 2 ^ 15)
    (hi : e.ftype ≠ 'i') (hp : e.path = some path) (hv : v.Wf)
    (hroom : (v.curr : Int) + (putText (entryPuts e path)).length < v.last) :
    (putcvfpfile e v).2.text = v.text ++ putText (entryPuts e path) := by
  have hfits := entryPuts_fits ht hvol path
  have hmod : (vfpSetModified v).Wf := (vfpSetModified_appends v).wf hv
  have happ := runPuts_appends (vfpSetModified v) (entryPuts e path) hfits
  have hadv := runPuts_advances (vfpSetModified v) (entryPuts e path) hfits hroom hmod
  rw [putcvfpfile_runPuts v hi hp]
  refine happ.text hmod ?_
  rw [Vfp.HasRoom, hadv.curr, happ.last]
  exact_mod_cast hroom

/-- The two writers of the contents file write the same bytes and return the same code. -/
theorem putcfile_putcvfpfile (ht : e.Typed) (hvol : -2 ^ 15 ≤ e.volno ∧ e.volno < 2 ^ 15)
    (hf : f.Sound) (hv : v.Wf) (hroom : (v.curr : Int) + (entryBytes e).length < v.last) :
    ∃ f', putcfile e f = ((putcvfpfile e v).1, some f') ∧ f'.text = f.text ++ entryBytes e ∧
      (putcvfpfile e v).2.text = v.text ++ entryBytes e := by
  by_cases hi : e.ftype = 'i'
  · have hbytes : entryBytes e = [] := if_pos hi
    refine ⟨f, ?_, by rw [hbytes, List.append_nil], ?_⟩
    · rw [putcfile, putcvfpfile, if_pos hi, if_pos hi]
    · rw [hbytes, List.append_nil, putcvfpfile, if_pos hi]
  · cases hp : e.path with
    | none =>
      have hbytes : entryBytes e = [] := by rw [entryBytes, if_neg hi, hp, Option.elim_none]
      have hput : putcvfpfile e v = (-1, v) := by
        rw [putcvfpfile, if_neg hi]
        simp only [hp]
      refine ⟨f, ?_, by rw [hbytes, List.append_nil], by rw [hbytes, List.append_nil, hput]⟩
      rw [putcfile, if_neg hi, hput]
      simp only [hp]
    | some path =>
      have hbytes : entryBytes e = putText (entryPuts e path) := by
        rw [entryBytes, if_neg hi, hp, Option.elim_some]
      obtain ⟨f', hw, -, htext⟩ := fileEntry_writes (e := e) hf path
      rw [hbytes] at hroom ⊢
      refine ⟨f', ?_, htext, putcvfpfile_text ht hvol hi hp hv hroom⟩
      rw [putcfile, if_neg hi, putcvfpfile_runPuts v hi hp]
      simp only [hp, hw]

end Writes

def sampleDevice : Cfent :=
  ⟨1, 'c', "none".toList, 0, some "/dev/tty".toList,
    ⟨none, 0o666, "root".toList, "sys".toList, 5, -1⟩,
    ⟨-1, -1, -1⟩, 1, [⟨'+', "SUNWcsr".toList, 1, "app".toList⟩]⟩

theorem putcfile_putcvfpfile_device :
    entryBytes sampleDevice = "/dev/tty 1 c none 5 ? 0666 root sys +SUNWcsr\\:app\n".toList ∧
    ∃ f', putcfile sampleDevice ⟨[], 0, fun _ => false⟩ =
        ((putcvfpfile sampleDevice (vfpAnonymous 64 0 fun _ => nul)).1, some f') ∧
      f'.text = [] ++ entryBytes sampleDevice ∧
      (putcvfpfile sampleDevice (vfpAnonymous 64 0 fun _ => nul)).2.text =
        [] ++ entryBytes sampleDevice := by
  refine ⟨by decide +kernel, ?_⟩
  have ht : sampleDevice.Typed := ⟨by decide, by decide, by decide, by decide, by decide, by decide⟩
  have hf : (⟨[], 0, fun _ => false⟩ : Stream).Sound := fun _ => rfl
  exact putcfile_putcvfpfile ht (by decide) hf (vfpAnonymous_wf 64 0 _ (by decide))
    (by decide +kernel)

end Pkgtools
