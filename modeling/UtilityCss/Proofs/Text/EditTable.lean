import UtilityCss.Proofs.Text.Alignment
import UtilityCss.Text.EditTable

/-!
# The edit distance is the least number of edits

The flat table is filled row by row, and whatever has been written into it is the distance between two
beginnings: a cell is written from cells that are there, and each has an index of its own. So no look-up
fails, and the last cell is the edit distance of the two texts.
-/

namespace UtilityCss.Text

namespace EditTable

variable {s t : Text} {table : Array Nat} {k l : Nat}

theorem index_lt {height width i j : Nat} (hi : i < height) (hj : j < width) :
    i * width + j < height * width :=
  calc i * width + j < i * width + width := Nat.add_lt_add_left hj _
    _ = (i + 1) * width := (Nat.succ_mul i width).symm
    _ ≤ height * width := Nat.mul_le_mul_right width hi

theorem index_injective {width i i' j j' : Nat} (hj : j < width) (hj' : j' < width)
    (h : i * width + j = i' * width + j') : i = i' ∧ j = j' := by
  have hrow : i = i' := by
    have hquot := congrArg (· / width) h
    simp only [Nat.mul_add_div (Nat.zero_lt_of_lt hj), Nat.mul_comm _ width,
      Nat.div_eq_of_lt hj, Nat.div_eq_of_lt hj', Nat.add_zero] at hquot
    exact hquot
  subst hrow
  exact ⟨rfl, Nat.add_left_cancel h⟩

theorem exists_put? {index : Nat} (h : index < table.size) (value : Nat) :
    ∃ table', put? table index value = some table' ∧ table'.size = table.size ∧
      ∀ x, table'[x]? = if index = x then some value else table[x]? := by
  refine ⟨table.set index value h, dif_pos h, Array.size_set h, fun x => ?_⟩
  rw [Array.getElem?_set]

/-- A loop whose steps go through and keep an invariant goes through and keeps it. -/
theorem exists_foldlM_range {α : Type} {f : α → Nat → Option α} {P : Nat → α → Prop} {n : Nat}
    (hstep : ∀ k a, k < n → P k a → ∃ b, f a k = some b ∧ P (k + 1) b) {a : α} (h : P 0 a) :
    ∃ b, (List.range n).foldlM f a = some b ∧ P n b := by
  induction n with
  | zero => exact ⟨a, rfl, h⟩
  | succ n ih =>
      obtain ⟨b, hb, hinv⟩ := ih fun k a hk => hstep k a (Nat.lt_succ_of_lt hk)
      obtain ⟨c, hc, hnext⟩ := hstep n b (Nat.lt_succ_self n) hinv
      refine ⟨c, ?_, hnext⟩
      rw [List.range_succ, List.foldlM_append, hb]
      simpa using hc

/-- The distance between two beginnings. They are read from their ends, where rows and columns grow. -/
def frontDistance (s t : Text) (i j : Nat) : Nat :=
  alignmentDistance (s.take i).reverse (t.take j).reverse

/-- In all places that are done the table holds distances between beginnings. -/
structure Holds (s t : Text) (table : Array Nat) (done : Nat → Nat → Prop) : Prop where
  size_eq : table.size = (s.length + 1) * (t.length + 1)
  cell_eq : ∀ i j, i ≤ s.length → j ≤ t.length → done i j →
    table[i * (t.length + 1) + j]? = some (frontDistance s t i j)

theorem Holds.mono {done done' : Nat → Nat → Prop} (h : Holds s t table done)
    (hdone : ∀ i j, done' i j → done i j) : Holds s t table done' :=
  ⟨h.size_eq, fun i j hi hj hij => h.cell_eq i j hi hj (hdone i j hij)⟩

theorem Holds.exists_put? {done : Nat → Nat → Prop} (h : Holds s t table done) {i j : Nat}
    (hi : i ≤ s.length) (hj : j ≤ t.length) :
    ∃ table', put? table (i * (t.length + 1) + j) (frontDistance s t i j) = some table' ∧
      Holds s t table' fun i' j' => done i' j' ∨ i' = i ∧ j' = j := by
  have hindex : i * (t.length + 1) + j < table.size :=
    h.size_eq ▸ index_lt (Nat.lt_succ_of_le hi) (Nat.lt_succ_of_le hj)
  obtain ⟨table', hput, hsize, hget⟩ := EditTable.exists_put? hindex (frontDistance s t i j)
  refine ⟨table', hput, hsize.trans h.size_eq, fun i' j' hi' hj' hdone => ?_⟩
  rw [hget]
  split
  next heq =>
    obtain ⟨rfl, rfl⟩ := index_injective (Nat.lt_succ_of_le hj) (Nat.lt_succ_of_le hj') heq
    rfl
  next hne =>
    refine h.cell_eq i' j' hi' hj' (hdone.resolve_right ?_)
    rintro ⟨rfl, rfl⟩
    exact hne rfl

theorem frontDistance_zero_left (s : Text) {j : Nat} (hj : j ≤ t.length) :
    frontDistance s t 0 j = j := by
  simp [frontDistance, hj]

theorem frontDistance_zero_right (t : Text) {i : Nat} (hi : i ≤ s.length) :
    frontDistance s t i 0 = i := by
  simp [frontDistance, hi]

theorem reverse_take_succ {c : Char} (h : s[k]? = some c) :
    (s.take (k + 1)).reverse = c :: (s.take k).reverse := by
  rw [List.take_add_one, h, Option.toList_some, List.reverse_append, List.reverse_singleton,
    List.singleton_append]

theorem frontDistance_succ_succ {c d : Char} (hc : s[k]? = some c) (hd : t[l]? = some d) :
    frontDistance s t (k + 1) (l + 1) =
      let least := min (min (frontDistance s t k (l + 1) + 1) (frontDistance s t (k + 1) l + 1))
        (frontDistance s t k l + if c = d then 0 else 1)
      if swapsHead (c :: (s.take k).reverse) (d :: (t.take l).reverse) then
        min least (alignmentDistance (s.take k).reverse.tail (t.take l).reverse.tail + 1)
      else least := by
  simp only [frontDistance]
  rw [reverse_take_succ hc, reverse_take_succ hd, alignmentDistance]

/-! ## Filling the table -/

theorem exists_bordered (s t : Text) :
    ∃ table, bordered? (s.length + 1) (t.length + 1) = some table ∧
      Holds s t table fun i j => i = 0 ∨ j = 0 := by
  obtain ⟨column, hcolumn, hfirst⟩ := exists_foldlM_range (n := s.length + 1)
    (f := fun table i => put? table (i * (t.length + 1)) i)
    (P := fun n table => Holds s t table fun i j => i < n ∧ j = 0)
    (a := Array.replicate ((s.length + 1) * (t.length + 1)) 0)
    (fun n table hn h => by
      obtain ⟨table', hput, hnext⟩ := h.exists_put? (Nat.le_of_lt_succ hn) (Nat.zero_le _)
      rw [frontDistance_zero_right t (Nat.le_of_lt_succ hn)] at hput
      exact ⟨table', hput, hnext.mono fun i j => by omega⟩)
    ⟨by simp, fun i j _ _ hdone => absurd hdone.1 (Nat.not_lt_zero i)⟩
  obtain ⟨table, hrow, h⟩ := exists_foldlM_range (n := t.length + 1)
    (f := fun table j => put? table j j)
    (P := fun n table => Holds s t table fun i j => i = 0 ∧ j < n ∨ i ≤ s.length ∧ j = 0)
    (a := column)
    (fun n table hn h => by
      obtain ⟨table', hput, hnext⟩ := h.exists_put? (Nat.zero_le _) (Nat.le_of_lt_succ hn)
      rw [frontDistance_zero_left s (Nat.le_of_lt_succ hn), Nat.zero_mul, Nat.zero_add] at hput
      exact ⟨table', hput, hnext.mono fun i j => by omega⟩)
    (hfirst.mono fun i j => by omega)
  refine ⟨table, ?_, h.size_eq, fun i j hi hj hdone => h.cell_eq i j hi hj (by omega)⟩
  rw [bordered?, hcolumn]
  exact hrow

def Before (k l i j : Nat) : Prop :=
  i ≤ k ∨ j = 0 ∨ i = k + 1 ∧ j ≤ l

theorem cell?_eq (h : Holds s t table (Before k l)) (hk : k < s.length) (hl : l < t.length) :
    cell? s t table (k + 1) (l + 1) = some (frontDistance s t (k + 1) (l + 1)) := by
  have hc : s[k]? = some s[k] := List.getElem?_eq_getElem hk
  have hd : t[l]? = some t[l] := List.getElem?_eq_getElem hl
  have hdeleted := h.cell_eq k (l + 1) (by omega) (by omega) (Or.inl (Nat.le_refl k))
  have hinserted := h.cell_eq (k + 1) l (by omega) (by omega) (Or.inr (Or.inr ⟨rfl, Nat.le_refl l⟩))
  have hreplaced := h.cell_eq k l (by omega) (by omega) (Or.inl (Nat.le_refl k))
  rw [frontDistance_succ_succ hc hd]
  simp only [cell?, Nat.add_sub_cancel, Nat.add_succ_sub_one, hc, hd, hdeleted, hinserted, hreplaced,
    Option.bind_eq_bind, Option.bind_some]
  match k, l with
  | 0, _ => simp [swapsHead]
  | _ + 1, 0 => simp [swapsHead]
  | k + 1, l + 1 =>
      have hc' : s[k]? = some s[k] := List.getElem?_eq_getElem (by omega)
      have hd' : t[l]? = some t[l] := List.getElem?_eq_getElem (by omega)
      have hswapped := h.cell_eq k l (by omega) (by omega) (Or.inl (by omega))
      have htwoBack (n : Nat) : n + 1 + 1 - 2 = n := rfl
      have hindex : k * (t.length + 1) + (l + 1 + 1) - 2 = k * (t.length + 1) + l := rfl
      rw [if_pos ⟨by omega, by omega⟩, reverse_take_succ hc', reverse_take_succ hd']
      simp only [htwoBack, hindex, hc', hd', hswapped, Option.bind_some, swapsHead, List.tail_cons,
        Bool.and_eq_true, beq_iff_eq]
      exact (apply_ite some _ _ _).symm

theorem exists_fillRow (h : Holds s t table (Before k 0)) (hk : k < s.length) :
    ∃ table', fillRow? s t table (k + 1) = some table' ∧ Holds s t table' (Before (k + 1) 0) := by
  obtain ⟨table', hfold, hrow⟩ := exists_foldlM_range (n := t.length) (a := table)
    (f := fun table j => do
      let distance ← cell? s t table (k + 1) (j + 1)
      put? table ((k + 1) * (t.length + 1) + (j + 1)) distance)
    (P := fun l table => Holds s t table (Before k l))
    (fun l table hl h => by
      obtain ⟨table', hput, hnext⟩ := h.exists_put? (i := k + 1) (j := l + 1) hk hl
      refine ⟨table', ?_, hnext.mono fun i j => ?_⟩
      · rw [cell?_eq h hk hl]
        exact hput
      · simp only [Before]
        omega) h
  refine ⟨table', hfold, hrow.size_eq, fun i j hi hj hdone => hrow.cell_eq i j hi hj ?_⟩
  simp only [Before] at *
  omega

theorem exists_filled (s t : Text) :
    ∃ table, filled? s t = some table ∧ Holds s t table (Before s.length 0) := by
  obtain ⟨start, hstart, hborder⟩ := exists_bordered s t
  obtain ⟨table, hfold, h⟩ := exists_foldlM_range (n := s.length) (a := start)
    (P := fun k table => Holds s t table (Before k 0))
    (fun k table hk h => exists_fillRow h hk)
    (hborder.mono fun i j => by simp only [Before]; omega)
  refine ⟨table, ?_, h⟩
  rw [filled?, hstart]
  exact hfold

theorem distance?_eq (s t : Text) : distance? s t = some (editDistance s t) := by
  rw [editDistance_eq_alignmentDistance]
  unfold distance?
  split
  next hs => rw [List.isEmpty_iff.mp hs, alignmentDistance_nil_left]
  next hs =>
    split
    next ht => rw [List.isEmpty_iff.mp ht, alignmentDistance_nil_right]
    next ht =>
      obtain ⟨table, hfilled, h⟩ := exists_filled s t
      have hlast := h.cell_eq s.length t.length (Nat.le_refl _) (Nat.le_refl _)
        (Or.inl (Nat.le_refl _))
      rw [frontDistance, List.take_length, List.take_length, alignmentDistance_reverse] at hlast
      rw [hfilled]
      exact hlast

end EditTable

/-- The edit distance, which the flat table yields without a look-up that fails, is the value of the
recursion and the least number of edits that turn the first text into the second. So it is the same in
both directions, zero only between equal texts, and lies between the difference of the two lengths and
the greater of them. -/
theorem editDistance_isLeast (s t : Text) :
    EditTable.distance? s t = some (editDistance s t) ∧
      editDistance s t = alignmentDistance s t ∧
      IsLeast {n | Edits n s t} (editDistance s t) ∧
      editDistance t s = editDistance s t ∧
      (editDistance s t = 0 ↔ s = t) ∧
      s.length - t.length ≤ editDistance s t ∧ t.length - s.length ≤ editDistance s t ∧
      editDistance s t ≤ max s.length t.length := by
  have hvalue := editDistance_eq_alignmentDistance s t
  have hleast : IsLeast {n | Edits n s t} (editDistance s t) := hvalue ▸ isLeast_alignmentDistance s t
  have hedits : Edits (editDistance s t) s t := hleast.1
  have hsymm : editDistance t s = editDistance s t := by
    rw [editDistance_eq_alignmentDistance, alignmentDistance_comm, hvalue]
  have hzero : editDistance s t = 0 ↔ s = t := by
    constructor
    · exact fun h => (h ▸ hedits).eq_of_zero
    · rintro rfl
      exact Nat.le_zero.mp (hleast.2 (Edits.refl s))
  obtain ⟨n, hn, h⟩ := Edits.exists_le_max s t
  exact ⟨EditTable.distance?_eq s t, hvalue, hleast, hsymm, hzero,
    Nat.sub_le_iff_le_add'.mpr hedits.length_le,
    Nat.sub_le_iff_le_add'.mpr hedits.symm.length_le, (hleast.2 h).trans hn⟩

end UtilityCss.Text
