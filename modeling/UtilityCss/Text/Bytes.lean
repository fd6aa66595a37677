import UtilityCss.Text.Basic

/-!
# Positions in bytes

Positions and ranges are counted in bytes of the UTF-8 encoding. A position inside a character
belongs to no text; the cuts below then fall behind that character.
-/

namespace UtilityCss.Text

/-- The length of the UTF-8 encoding. -/
def size : Text → Nat
  | [] => 0
  | c :: t => c.utf8Size + size t

@[simp] theorem size_nil : size [] = 0 := rfl

@[simp] theorem size_cons (c : Char) (t : Text) : size (c :: t) = c.utf8Size + size t := rfl

@[simp] theorem size_append (s t : Text) : size (s ++ t) = size s + size t := by
  induction s with
  | nil => simp
  | cons c s ih => simp [ih, Nat.add_assoc]

/-- What is left after the first `n` bytes. -/
def dropBytes : Nat → Text → Text
  | 0, t => t
  | _ + 1, [] => []
  | n + 1, c :: t => dropBytes (n + 1 - c.utf8Size) t

def takeBytes : Nat → Text → Text
  | 0, _ => []
  | _ + 1, [] => []
  | n + 1, c :: t => c :: takeBytes (n + 1 - c.utf8Size) t

theorem takeBytes_append_dropBytes (n : Nat) (t : Text) : takeBytes n t ++ dropBytes n t = t := by
  induction t generalizing n with
  | nil => cases n <;> rfl
  | cons c t ih => cases n <;> simp [takeBytes, dropBytes, ih]

theorem takeBytes_size (s t : Text) : takeBytes (size s) (s ++ t) = s := by
  induction s with
  | nil => simp [takeBytes]
  | cons c s ih =>
      have hpos := c.utf8Size_pos
      obtain ⟨n, hn⟩ : ∃ n, c.utf8Size + size s = n + 1 := ⟨c.utf8Size + size s - 1, by omega⟩
      have hrest : n + 1 - c.utf8Size = size s := by omega
      simp [hn, takeBytes, hrest, ih]

theorem dropBytes_size (s t : Text) : dropBytes (size s) (s ++ t) = t := by
  have h := takeBytes_append_dropBytes (size s) (s ++ t)
  rw [takeBytes_size] at h
  exact List.append_cancel_left h

/-- A position between two characters of the text, or at one of its ends. -/
def IsBoundary (n : Nat) (t : Text) : Prop :=
  ∃ s, s <+: t ∧ size s = n

theorem isBoundary_iff {n : Nat} {t : Text} : IsBoundary n t ↔ size (takeBytes n t) = n := by
  constructor
  · rintro ⟨s, ⟨rest, rfl⟩, rfl⟩
    rw [takeBytes_size]
  · exact fun h => ⟨takeBytes n t, ⟨dropBytes n t, takeBytes_append_dropBytes n t⟩, h⟩

instance (n : Nat) (t : Text) : Decidable (IsBoundary n t) :=
  decidable_of_iff _ isBoundary_iff.symm

def replaceRange (start stop : Nat) (new t : Text) : Text :=
  takeBytes start t ++ new ++ dropBytes stop t

def slice (start stop : Nat) (t : Text) : Text :=
  takeBytes (stop - start) (dropBytes start t)

def bytes (t : Text) : List UInt8 :=
  t.flatMap String.utf8EncodeChar

@[simp] theorem bytes_append (s t : Text) : bytes (s ++ t) = bytes s ++ bytes t :=
  List.flatMap_append

theorem bytes_injective {s t : Text} (h : bytes s = bytes t) : s = t := by
  have hencode : s.utf8Encode = t.utf8Encode := congrArg List.toByteArray h
  rw [← String.toByteArray_ofList, ← String.toByteArray_ofList, String.toByteArray_inj] at hencode
  exact String.ofList_injective hencode

end UtilityCss.Text
