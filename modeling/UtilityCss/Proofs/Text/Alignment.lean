import Mathlib.Data.List.Infix
import Mathlib.Order.Bounds.Basic
import UtilityCss.Text.EditDistance

/-!
# Alignments of two texts

To align two texts is to turn the first into the second by edits, reading both once from left to
right. The rows of the edit distance hold the values of a recursion over the two texts, and the
recursion finds the least number of edits of an alignment. From this follow the laws of the distance:
alignments can be read backwards, the other way round, and one behind another.
-/

namespace UtilityCss.Text

/-- With `n` edits, no character being part of two of them, the first text becomes the second. -/
inductive Edits : Nat → Text → Text → Prop where
  | done : Edits 0 [] []
  | keep {n : Nat} {s t : Text} (c : Char) (h : Edits n s t) : Edits n (c :: s) (c :: t)
  | delete {n : Nat} {s t : Text} (c : Char) (h : Edits n s t) : Edits (n + 1) (c :: s) t
  | insert {n : Nat} {s t : Text} (d : Char) (h : Edits n s t) : Edits (n + 1) s (d :: t)
  | replace {n : Nat} {s t : Text} (c d : Char) (h : Edits n s t) :
      Edits (n + 1) (c :: s) (d :: t)
  | swap {n : Nat} {s t : Text} (c d : Char) (h : Edits n s t) :
      Edits (n + 1) (c :: d :: s) (d :: c :: t)

/-- The optimal string alignment distance by recursion: the first character is deleted, inserted,
kept or replaced, or the first two are swapped. -/
def alignmentDistance : Text → Text → Nat
  | [], t => t.length
  | c :: s, [] => (c :: s).length
  | c :: s, d :: t =>
      let deleted := alignmentDistance s (d :: t) + 1
      let inserted := alignmentDistance (c :: s) t + 1
      let replaced := alignmentDistance s t + if c = d then 0 else 1
      let least := min (min deleted inserted) replaced
      if swapsHead (c :: s) (d :: t) then min least (alignmentDistance s.tail t.tail + 1) else least
termination_by s t => s.length + t.length

variable {m n : Nat} {s t s' t' : Text}

@[simp] theorem alignmentDistance_nil_left (t : Text) : alignmentDistance [] t = t.length := by
  rw [alignmentDistance]

@[simp] theorem alignmentDistance_nil_right (s : Text) : alignmentDistance s [] = s.length := by
  cases s <;> rw [alignmentDistance]

theorem headD_map_tails (f : Text → Nat) (t : Text) : (t.tails.map f).headD 0 = f t := by
  cases t <;> rfl

theorem emptyRow_eq (t : Text) : emptyRow t = t.tails.map (alignmentDistance []) := by
  induction t with
  | nil => simp [emptyRow]
  | cons d t ih => simp [emptyRow, ih]

theorem rowAbove_eq (c : Char) (s t : Text) {twoBelow : List Nat}
    (htwo : ∀ x tail, s = x :: tail → twoBelow = t.tails.map (alignmentDistance tail)) :
    rowAbove c s t (t.tails.map (alignmentDistance s)) twoBelow =
      t.tails.map (alignmentDistance (c :: s)) := by
  induction t generalizing twoBelow with
  | nil => simp [rowAbove]
  | cons d t ih =>
      have hright : rowAbove c s t (t.tails.map (alignmentDistance s)) twoBelow.tail =
          t.tails.map (alignmentDistance (c :: s)) :=
        ih fun x tail hs => by rw [htwo x tail hs]; rfl
      have hswap (hhead : swapsHead (c :: s) (d :: t) = true) :
          twoBelow.tail.tail.headD 0 = alignmentDistance s.tail t.tail := by
        cases s with
        | nil => simp [swapsHead] at hhead
        | cons x tail =>
            cases t with
            | nil => simp [swapsHead] at hhead
            | cons y t => rw [htwo x tail rfl]; exact headD_map_tails _ t
      rw [List.tails_cons, List.map_cons, List.map_cons, rowAbove, List.tail_cons, hright,
        headD_map_tails, headD_map_tails, List.headD_cons, alignmentDistance]
      split
      next hhead => rw [hswap hhead]
      next => rfl

theorem distanceRows_eq (t s : Text) :
    (distanceRows t s).1 = t.tails.map (alignmentDistance s) ∧
      ∀ x tail, s = x :: tail → (distanceRows t s).2 = t.tails.map (alignmentDistance tail) := by
  induction s with
  | nil => exact ⟨emptyRow_eq t, fun x tail hs => absurd hs (List.cons_ne_nil x tail).symm⟩
  | cons c s ih =>
      obtain ⟨hbelow, htwo⟩ := ih
      refine ⟨?_, ?_⟩
      · simp only [distanceRows]
        rw [hbelow, rowAbove_eq c s t htwo]
      · rintro x tail ⟨⟩
        exact hbelow

theorem editDistance_eq_alignmentDistance (s t : Text) :
    editDistance s t = alignmentDistance s t := by
  rw [editDistance, (distanceRows_eq t s).1, headD_map_tails]

/-! ## The recursion finds the least number of edits -/

theorem edits_nil_left (t : Text) : Edits t.length [] t := by
  induction t with
  | nil => exact .done
  | cons d t ih => exact .insert d ih

theorem edits_nil_right (s : Text) : Edits s.length s [] := by
  induction s with
  | nil => exact .done
  | cons c s ih => exact .delete c ih

theorem Edits.least {a b k : Nat} {c d : Char} (hdelete : Edits a s (d :: t))
    (hinsert : Edits b (c :: s) t) (hreplace : Edits k s t) :
    Edits (min (min (a + 1) (b + 1)) (k + if c = d then 0 else 1)) (c :: s) (d :: t) := by
  have hfirst : Edits (k + if c = d then 0 else 1) (c :: s) (d :: t) := by
    split
    next heq => exact heq ▸ .keep c hreplace
    next => exact .replace c d hreplace
  exact min_rec' (Edits · (c :: s) (d :: t))
    (min_rec' (Edits · (c :: s) (d :: t)) (.delete c hdelete) (.insert d hinsert)) hfirst

theorem Edits.swapHead {c d : Char} (hhead : swapsHead (c :: s) (d :: t) = true)
    (h : Edits n s.tail t.tail) : Edits (n + 1) (c :: s) (d :: t) := by
  match s, t with
  | c' :: s, d' :: t =>
      simp only [swapsHead, Bool.and_eq_true, beq_iff_eq] at hhead
      obtain ⟨rfl, rfl⟩ := hhead
      exact .swap c c' h
  | [], _ | _ :: _, [] => simp [swapsHead] at hhead

theorem edits_alignmentDistance (s t : Text) : Edits (alignmentDistance s t) s t := by
  fun_induction alignmentDistance s t with
  | case1 t => exact edits_nil_left t
  | case2 c s => exact edits_nil_right (c :: s)
  | case3 c s d t deleted inserted replaced least hhead ihdelete ihinsert ihreplace ihswap =>
      exact min_rec' (Edits · (c :: s) (d :: t)) (ihdelete.least ihinsert ihreplace)
        (ihswap.swapHead hhead)
  | case4 c s d t deleted inserted replaced least hhead ihdelete ihinsert ihreplace =>
      exact ihdelete.least ihinsert ihreplace

theorem alignmentDistance_cons_cons_le (c : Char) (s : Text) (d : Char) (t : Text) :
    alignmentDistance (c :: s) (d :: t) ≤
      min (min (alignmentDistance s (d :: t) + 1) (alignmentDistance (c :: s) t + 1))
        (alignmentDistance s t + if c = d then 0 else 1) := by
  rw [alignmentDistance]
  split
  next => exact min_le_left _ _
  next => exact Nat.le_refl _

theorem Edits.alignmentDistance_le (h : Edits n s t) : alignmentDistance s t ≤ n := by
  induction h with
  | done => simp
  | @keep n s t c h ih =>
      have hle := alignmentDistance_cons_cons_le c s c t
      rw [if_pos rfl] at hle
      omega
  | @delete n s t c h ih =>
      cases t with
      | nil => simpa using ih
      | cons d t =>
          have hle := alignmentDistance_cons_cons_le c s d t
          omega
  | @insert n s t d h ih =>
      cases s with
      | nil => simpa using ih
      | cons c s =>
          have hle := alignmentDistance_cons_cons_le c s d t
          omega
  | @replace n s t c d h ih =>
      have hle := alignmentDistance_cons_cons_le c s d t
      split at hle <;> omega
  | @swap n s t c d h ih =>
      have hhead : swapsHead (c :: d :: s) (d :: c :: t) = true := by simp [swapsHead]
      rw [alignmentDistance, if_pos hhead, List.tail_cons, List.tail_cons]
      omega

theorem isLeast_alignmentDistance (s t : Text) :
    IsLeast {n | Edits n s t} (alignmentDistance s t) :=
  ⟨edits_alignmentDistance s t, fun _ h => h.alignmentDistance_le⟩

namespace Edits

theorem symm (h : Edits n s t) : Edits n t s := by
  induction h with
  | done => exact .done
  | keep c h ih => exact .keep c ih
  | delete c h ih => exact .insert c ih
  | insert d h ih => exact .delete d ih
  | replace c d h ih => exact .replace d c ih
  | swap c d h ih => exact .swap d c ih

theorem append (h : Edits m s t) (h' : Edits n s' t') : Edits (m + n) (s ++ s') (t ++ t') := by
  induction h with
  | done => rwa [Nat.zero_add]
  | keep c h ih => exact .keep c ih
  | delete c h ih => exact Nat.add_right_comm _ n 1 ▸ .delete c ih
  | insert d h ih => exact Nat.add_right_comm _ n 1 ▸ .insert d ih
  | replace c d h ih => exact Nat.add_right_comm _ n 1 ▸ .replace c d ih
  | swap c d h ih => exact Nat.add_right_comm _ n 1 ▸ .swap c d ih

theorem reverse (h : Edits n s t) : Edits n s.reverse t.reverse := by
  induction h with
  | done => exact .done
  | keep c h ih => simpa using ih.append (.keep c .done)
  | delete c h ih => simpa using ih.append (.delete c .done)
  | insert d h ih => simpa using ih.append (.insert d .done)
  | replace c d h ih => simpa using ih.append (.replace c d .done)
  | swap c d h ih => simpa using ih.append (.swap d c .done)

theorem refl (s : Text) : Edits 0 s s := by
  induction s with
  | nil => exact .done
  | cons c s ih => exact .keep c ih

theorem eq_of_zero (h : Edits 0 s t) : s = t := by
  generalize hzero : 0 = k at h
  induction h with
  | done => rfl
  | keep c h ih => rw [ih hzero]
  | delete | insert | replace | swap => omega

theorem length_le (h : Edits n s t) : s.length ≤ t.length + n := by
  induction h with
  | done => exact Nat.le_refl 0
  | keep | delete | insert | replace | swap => simp only [List.length_cons] at *; omega

theorem exists_le_max (s t : Text) : ∃ n ≤ max s.length t.length, Edits n s t := by
  induction s generalizing t with
  | nil => exact ⟨t.length, by simp, edits_nil_left t⟩
  | cons c s ih =>
      cases t with
      | nil => exact ⟨(c :: s).length, by simp, edits_nil_right (c :: s)⟩
      | cons d t =>
          obtain ⟨n, hn, h⟩ := ih t
          refine ⟨n + 1, ?_, .replace c d h⟩
          simp only [List.length_cons]
          omega

end Edits

theorem alignmentDistance_comm (s t : Text) : alignmentDistance s t = alignmentDistance t s :=
  Nat.le_antisymm (edits_alignmentDistance t s).symm.alignmentDistance_le
    (edits_alignmentDistance s t).symm.alignmentDistance_le

theorem alignmentDistance_reverse (s t : Text) :
    alignmentDistance s.reverse t.reverse = alignmentDistance s t := by
  refine Nat.le_antisymm (edits_alignmentDistance s t).reverse.alignmentDistance_le ?_
  have h := (edits_alignmentDistance s.reverse t.reverse).reverse
  rw [List.reverse_reverse, List.reverse_reverse] at h
  exact h.alignmentDistance_le

end UtilityCss.Text
