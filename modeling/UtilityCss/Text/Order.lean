import UtilityCss.Text.Basic

/-!
# The order of texts

Lexicographic by code point, a proper beginning coming first. It is the order of the UTF-8
encodings as well. `Precedes` is a strict total order; the three lemmas at the end say so.
-/

namespace UtilityCss.Text

/-- Compares two texts by code point. -/
def order : Text → Text → Ordering
  | [], [] => .eq
  | [], _ :: _ => .lt
  | _ :: _, [] => .gt
  | a :: s, b :: t =>
      if a.toNat < b.toNat then .lt else if b.toNat < a.toNat then .gt else order s t

def Precedes (s t : Text) : Prop :=
  order s t = .lt

instance (s t : Text) : Decidable (Precedes s t) :=
  inferInstanceAs (Decidable (order s t = .lt))

def notAfter (s t : Text) : Bool :=
  order s t != .gt

theorem toNat_injective {a b : Char} (h : a.toNat = b.toNat) : a = b :=
  Char.ext (UInt32.toNat_inj.mp h)

theorem order_eq_iff {s t : Text} : order s t = .eq ↔ s = t := by
  induction s generalizing t with
  | nil => cases t <;> simp [order]
  | cons a s ih =>
      cases t with
      | nil => simp [order]
      | cons b t =>
          simp only [order]
          split
          next h =>
            have hab : a ≠ b := fun e => by subst e; omega
            simp [hab]
          next h =>
            split
            next h' =>
              have hab : a ≠ b := fun e => by subst e; omega
              simp [hab]
            next h' =>
              have hab : a = b := toNat_injective (by omega)
              simp [hab, ih]

theorem order_swap (s t : Text) : order t s = (order s t).swap := by
  induction s generalizing t with
  | nil => cases t <;> rfl
  | cons a s ih =>
      cases t with
      | nil => rfl
      | cons b t =>
          simp only [order]
          by_cases h : a.toNat < b.toNat
          · simp [h, Nat.not_lt.mpr (Nat.le_of_lt h)]
          · by_cases h' : b.toNat < a.toNat <;> simp [h, h', ih]

theorem not_precedes_self (t : Text) : ¬ Precedes t t := by
  simp [Precedes, order_eq_iff.mpr rfl]

theorem Precedes.trans {s t u : Text} (hst : Precedes s t) (htu : Precedes t u) :
    Precedes s u := by
  unfold Precedes at *
  induction s generalizing t u with
  | nil =>
      cases t with
      | nil => exact htu
      | cons b t => cases u <;> simp_all [order]
  | cons a s ih =>
      cases t with
      | nil => simp [order] at hst
      | cons b t =>
          cases u with
          | nil => simp [order] at htu
          | cons c u =>
              simp only [order] at *
              by_cases hab : a.toNat < b.toNat
              · by_cases hbc : b.toNat < c.toNat
                · simp [Nat.lt_trans hab hbc]
                · by_cases hcb : c.toNat < b.toNat
                  · simp [hbc, hcb] at htu
                  · have : a.toNat < c.toNat := by omega
                    simp [this]
              · by_cases hba : b.toNat < a.toNat
                · simp [hab, hba] at hst
                · by_cases hbc : b.toNat < c.toNat
                  · have : a.toNat < c.toNat := by omega
                    simp [this]
                  · by_cases hcb : c.toNat < b.toNat
                    · simp [hbc, hcb] at htu
                    · simp only [hab, hba, if_false] at hst
                      simp only [hbc, hcb, if_false] at htu
                      have hac : ¬ a.toNat < c.toNat := by omega
                      have hca : ¬ c.toNat < a.toNat := by omega
                      simp only [hac, hca, if_false]
                      exact ih hst htu

theorem precedes_of_not_precedes {s t : Text} (h : ¬ Precedes s t) (hne : s ≠ t) :
    Precedes t s := by
  unfold Precedes at *
  rw [order_swap s t]
  cases hst : order s t with
  | lt => exact absurd hst h
  | eq => exact absurd (order_eq_iff.mp hst) hne
  | gt => rfl

end UtilityCss.Text
