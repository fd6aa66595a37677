import UtilityCss.Proofs.Text.Trim
import UtilityCss.Text.Bytes

/-!
# Cuts at byte positions

Behind a stretch of text, positions count from its end, those between two characters among them.
-/

namespace UtilityCss

namespace Text

variable {s t : Text} {n : Nat}

theorem dropBytes_size_add (s t : Text) (n : Nat) :
    dropBytes (size s + n) (s ++ t) = dropBytes n t := by
  induction s with
  | nil => rw [size_nil, Nat.zero_add, List.nil_append]
  | cons c s ih =>
      have hpos := c.utf8Size_pos
      have hsize : size (c :: s) + n = (c.utf8Size + size s + n - 1) + 1 := by
        rw [size_cons]
        omega
      have hrest : c.utf8Size + size s + n - 1 + 1 - c.utf8Size = size s + n := by omega
      rw [hsize, List.cons_append, dropBytes, hrest, ih]

theorem takeBytes_size_add (s t : Text) (n : Nat) :
    takeBytes (size s + n) (s ++ t) = s ++ takeBytes n t := by
  have h := takeBytes_append_dropBytes (size s + n) (s ++ t)
  rw [dropBytes_size_add] at h
  have hparts : takeBytes (size s + n) (s ++ t) ++ dropBytes n t =
      (s ++ takeBytes n t) ++ dropBytes n t := by
    rw [h, List.append_assoc, takeBytes_append_dropBytes]
  exact List.append_cancel_right hparts

theorem replaceRange_append (s old t new : Text) :
    replaceRange (size s) (size s + size old) new (s ++ old ++ t) = s ++ new ++ t := by
  have hstart : takeBytes (size s) (s ++ old ++ t) = s := by
    rw [List.append_assoc, takeBytes_size]
  have hstop : dropBytes (size s + size old) (s ++ old ++ t) = t := by
    rw [← size_append, dropBytes_size]
  rw [replaceRange, hstart, hstop]

theorem eq_of_append_of_size {s s' t t' : Text} (h : s ++ t = s' ++ t') (hsize : size s = size s') :
    s = s' ∧ t = t' := by
  have hs : s = s' := by
    rw [← takeBytes_size s t, ← takeBytes_size s' t', h, hsize]
  subst hs
  exact ⟨rfl, List.append_cancel_left h⟩

/-- What stands in front of the first `x` is behind a stretch without one. -/
theorem exists_append_of_not_mem {u v w z : Text} {x : Char} (h : u ++ x :: v = w ++ z)
    (hx : x ∉ w) : ∃ u', u = w ++ u' ∧ u' ++ x :: v = z := by
  rcases List.append_eq_append_iff.mp h with ⟨w', rfl, hw'⟩ | ⟨u', rfl, hu'⟩
  · cases w' with
    | nil => exact ⟨[], by simp, hw'⟩
    | cons y w' =>
        obtain ⟨rfl, -⟩ := List.cons.inj hw'
        exact absurd (List.mem_append_right _ List.mem_cons_self) hx
  · exact ⟨u', rfl, hu'.symm⟩

theorem isBoundary_size (s t : Text) : IsBoundary (size s) (s ++ t) :=
  ⟨s, List.prefix_append s t, rfl⟩

theorem isBoundary_size_add : IsBoundary (size s + n) (s ++ t) ↔ IsBoundary n t := by
  constructor
  · intro h
    obtain ⟨front, hfront, hsize⟩ := h
    rcases List.prefix_or_prefix_of_prefix hfront (List.prefix_append s t) with hshort | hlong
    · obtain ⟨rest, hrest⟩ := hshort
      have hs : size s = size front + size rest := by rw [← size_append, hrest]
      have hn : n = 0 := by omega
      exact ⟨[], List.nil_prefix, by rw [hn]; rfl⟩
    · obtain ⟨rest, hrest⟩ := hlong
      rw [← hrest] at hfront hsize
      rw [size_append] at hsize
      exact ⟨rest, (List.prefix_append_right_inj s).mp hfront, by omega⟩
  · intro h
    obtain ⟨front, hfront, hsize⟩ := h
    refine ⟨s ++ front, (List.prefix_append_right_inj s).mpr hfront, ?_⟩
    rw [size_append, hsize]

/-! ## Characters that are no blanks -/

def inked (t : Text) : Nat :=
  t.countP fun c => !isBlank c

theorem inked_append (s t : Text) : inked (s ++ t) = inked s + inked t :=
  List.countP_append

theorem inked_blanks (h : ∀ c ∈ s, isBlank c = true) : inked s = 0 := by
  refine List.countP_eq_zero.mpr ?_
  intro c hc
  simp [h c hc]

theorem inked_trimEnd (t : Text) : inked (trimEnd t) = inked t := by
  obtain ⟨blanks, heq, hblank⟩ := exists_trimEnd_append t
  have hcount := congrArg inked heq
  rw [inked_append, inked_blanks hblank, Nat.add_zero] at hcount
  exact hcount.symm

theorem inked_dropBytes_le (n : Nat) (t : Text) : inked (dropBytes n t) ≤ inked t := by
  have h := congrArg inked (takeBytes_append_dropBytes n t)
  rw [inked_append] at h
  omega

/-- To cut a trimmed text anywhere but in front takes more than blanks. -/
theorem inked_dropBytes_lt (htrim : trimStart t = t) (hn : n ≠ 0) (h : IsBoundary n t) :
    inked (dropBytes n t) < inked t := by
  obtain ⟨front, ⟨rest, heq⟩, hsize⟩ := h
  have hcut : dropBytes n t = rest := by rw [← heq, ← hsize, dropBytes_size]
  have hne : front ≠ [] := by
    intro hnil
    rw [hnil] at hsize
    exact hn hsize.symm
  rcases trimStart_eq_nil_or t with hnil | hsolid
  · rw [htrim, ← heq] at hnil
    exact absurd (List.append_eq_nil_iff.mp hnil).1 hne
  · obtain ⟨c, behind, hbehind, hc⟩ := hsolid
    rw [htrim, ← heq] at hbehind
    cases front with
    | nil => exact absurd rfl hne
    | cons first front =>
        rw [List.cons_append, List.cons.injEq] at hbehind
        rw [← hbehind.1] at hc
        have hfront : inked (first :: front) = inked front + 1 := by simp [inked, hc]
        rw [hcut, ← heq, inked_append, hfront]
        omega

end Text

end UtilityCss
