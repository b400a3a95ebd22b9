import Mathlib.Data.List.Basic

namespace CLib
set_option autoImplicit true

/-- One pass over the first `k` slots from `p` on that moves the entries in use to the front of the
array: `avail` is the first slot that may be overwritten, `n` counts the entries in use. -/
def squeeze (free : α → Bool) : (k : Nat) → List α → (p : Nat) → (avail : Option Nat) → (n : Nat) →
    List α × Nat
  | 0, l, _, _, n => (l, n)
  | k + 1, l, p, avail, n =>
    match l[p]? with
    | none => (l, n)
    | some e =>
      if free e then squeeze free k l (p + 1) (avail.or (some p)) (n - 1)
      else match avail with
        | none => squeeze free k l (p + 1) none n
        | some a => squeeze free k (l.set a e) (p + 1) (some (a + 1)) n

/-- The slot that is overwritten next when `junk` slots lie behind the entries kept so far. -/
def squeezeAvail (kept junk : List α) : Option Nat := if junk = [] then none else some kept.length

/-- The invariant of the pass: kept entries, slots that were free or have been moved, and the
slots not visited yet. -/
theorem squeeze_from (free : α → Bool) (rest kept junk : List α) (n : Nat) :
    ∃ tail, squeeze free rest.length (kept ++ junk ++ rest) (kept ++ junk).length
      (squeezeAvail kept junk) n =
        (kept ++ rest.filter (fun e => !free e) ++ tail, n - rest.countP free) := by
  induction rest generalizing kept junk n with
  | nil => exact ⟨junk, by simp [squeeze]⟩
  | cons e rest ih =>
    have hget : (kept ++ junk ++ e :: rest)[(kept ++ junk).length]? = some e := by simp
    by_cases he : free e = true
    · -- a free slot joins the junk
      obtain ⟨tail, ht⟩ := ih kept (junk ++ [e]) (n - 1)
      have havail : squeezeAvail kept (junk ++ [e]) =
          (squeezeAvail kept junk).or (some (kept ++ junk).length) := by
        cases junk with
        | nil => simp [squeezeAvail]
        | cons j js => simp [squeezeAvail]
      refine ⟨tail, ?_⟩
      rw [List.length_cons, squeeze, hget]
      simp only [he, if_true]
      rw [← havail]
      have hl : kept ++ junk ++ e :: rest = kept ++ (junk ++ [e]) ++ rest := by simp
      have hp : (kept ++ junk).length + 1 = (kept ++ (junk ++ [e])).length := by
        simp only [List.length_append, List.length_singleton]
        omega
      rw [hl, hp, ht]
      simp [he, Nat.sub_sub, Nat.add_comm]
    · rw [Bool.not_eq_true] at he
      cases junk with
      | nil =>
        obtain ⟨tail, ht⟩ := ih (kept ++ [e]) [] n
        refine ⟨tail, ?_⟩
        rw [List.length_cons, squeeze, hget]
        simp only [he, Bool.false_eq_true, if_false, squeezeAvail, if_true]
        have hl : kept ++ [] ++ e :: rest = kept ++ [e] ++ [] ++ rest := by simp
        have hp : (kept ++ ([] : List α)).length + 1 = (kept ++ [e] ++ []).length := by simp
        have havail : (none : Option Nat) = squeezeAvail (kept ++ [e]) [] := rfl
        rw [hl, hp, havail, ht]
        simp [he]
      | cons j js =>
        -- the entry moves over the first junk slot and leaves its own slot behind
        obtain ⟨tail, ht⟩ := ih (kept ++ [e]) (js ++ [e]) n
        refine ⟨tail, ?_⟩
        rw [List.length_cons, squeeze, hget]
        simp only [he, Bool.false_eq_true, if_false, squeezeAvail, reduceCtorEq]
        have hset : (kept ++ j :: js ++ e :: rest).set kept.length e =
            kept ++ [e] ++ (js ++ [e]) ++ rest := by
          simp [List.append_assoc]
        have hp : (kept ++ j :: js).length + 1 = (kept ++ [e] ++ (js ++ [e])).length := by
          simp only [List.length_append, List.length_cons, List.length_nil]
          omega
        have havail : some (kept.length + 1) = squeezeAvail (kept ++ [e]) (js ++ [e]) := by
          simp [squeezeAvail]
        rw [hset, hp, havail, ht]
        simp [he]

theorem squeeze_spec (free : α → Bool) (l : List α) :
    (squeeze free l.length l 0 none l.length).2 = (l.filter fun e => !free e).length ∧
      (squeeze free l.length l 0 none l.length).1.take (l.filter fun e => !free e).length =
        l.filter fun e => !free e := by
  obtain ⟨tail, ht⟩ := squeeze_from free l [] [] l.length
  have ht' : squeeze free l.length l 0 none l.length =
      (l.filter (fun e => !free e) ++ tail, l.length - l.countP free) := ht
  rw [ht']
  refine ⟨?_, List.take_left⟩
  rw [← List.countP_eq_length_filter]
  have hsum := List.length_eq_countP_add_countP free (l := l)
  have hneg : l.countP (fun e => !free e) = l.countP (fun e => decide ¬ free e = true) := by
    congr 1
    funext e
    cases free e <;> rfl
  rw [hneg]
  omega

end CLib
