import UtilityCss.Proofs.Selector.Cursor
import UtilityCss.Proofs.Text.Bytes
import UtilityCss.Ruleset.Scan

/-!
# Texts between positions

Where a reading by positions stands in front of a character, it finds there what a reading of the
text finds. It can also come to stand inside a character, behind an escape; the bytes up to the next
character are wide and mean nothing to it, so that it goes on as from there.
-/

namespace UtilityCss.Ruleset

open Text Css Selector

variable {source s t : Text} {start stop i n : Nat} {c quote : Char}

def Holds (source : Text) (start : Nat) (t : Text) (stop : Nat) : Prop :=
  ∃ front behind, source = front ++ (t ++ behind) ∧ start = size front ∧ stop = start + size t

theorem holds_self (css : Text) : Holds css 0 css (size css) :=
  ⟨[], [], by rw [List.nil_append, List.append_nil], rfl, (Nat.zero_add _).symm⟩

theorem size_of_not_isWide (h : ¬ IsWide c) : c.utf8Size = 1 := by
  have hlength := length_byteText [c]
  rw [byteText_ascii h, byteText_nil, size_cons, size_nil] at hlength
  exact hlength.symm

namespace Holds

theorem stop_eq (h : Holds source start t stop) : stop = start + size t := by
  obtain ⟨_, _, -, -, hstop⟩ := h
  exact hstop

theorem front (h : Holds source start (s ++ t) stop) : Holds source start s (start + size s) := by
  obtain ⟨front, behind, hsource, hstart, -⟩ := h
  exact ⟨front, t ++ behind, by rw [hsource, List.append_assoc], hstart, rfl⟩

theorem behind (h : Holds source start (s ++ t) stop) : Holds source (start + size s) t stop := by
  obtain ⟨front, behind, hsource, hstart, hstop⟩ := h
  refine ⟨front ++ s, behind, by rw [hsource, List.append_assoc, List.append_assoc], ?_, ?_⟩
  · rw [size_append, hstart]
  · rw [hstop, size_append, Nat.add_assoc]

theorem nil (h : Holds source start t stop) : Holds source stop [] stop := by
  rw [← List.append_nil t] at h
  have hstop : stop = start + size t := h.behind.stop_eq
  rw [hstop]
  rw [hstop] at h
  exact h.behind

theorem tail (h : Holds source start (c :: t) stop) : Holds source (start + c.utf8Size) t stop :=
  h.behind (s := [c])

theorem tail_ascii (h : Holds source start (c :: t) stop) (hc : ¬ IsWide c) :
    Holds source (start + 1) t stop := by
  have htail := h.tail
  rwa [size_of_not_isWide hc] at htail

theorem lt (h : Holds source start (c :: t) stop) : start < stop := by
  have hpos := c.utf8Size_pos
  rw [h.stop_eq, size_cons]
  omega

/-- The position of a rest. -/
theorem sub_size (h : Holds source start (s ++ t) stop) : stop - size t = start + size s := by
  rw [h.stop_eq, size_append, ← Nat.add_assoc, Nat.add_sub_cancel]

theorem exists_byteText (h : Holds source start t stop) :
    ∃ front behind, byteText source = front ++ (byteText t ++ behind) ∧ front.length = start ∧
      stop = start + (byteText t).length := by
  obtain ⟨front, behind, hsource, hstart, hstop⟩ := h
  refine ⟨byteText front, byteText behind, ?_, ?_, ?_⟩
  · rw [hsource, byteText_append, byteText_append]
  · rw [length_byteText, hstart]
  · rw [length_byteText, hstop]

theorem byteAt?_eq (h : Holds source start t stop) (hn : n < size t) :
    byteAt? source (start + n) = (byteText t)[n]? := by
  obtain ⟨front, behind, hbytes, hstart, -⟩ := h.exists_byteText
  rw [← length_byteText] at hn
  rw [byteAt?, hbytes, List.getElem?_append_right (by omega),
    List.getElem?_append_left (by omega), hstart, Nat.add_sub_cancel_left]

theorem byteAt?_ascii (h : Holds source start (c :: t) stop) (hc : ¬ IsWide c) :
    byteAt? source start = some c := by
  have hpos := c.utf8Size_pos
  have hbyte := h.byteAt?_eq (n := 0) (by rw [size_cons]; omega)
  rw [Nat.add_zero, byteText_ascii hc, List.getElem?_cons_zero] at hbyte
  exact hbyte

theorem bytesBetween?_eq (h : Holds source start t stop) :
    bytesBetween? source start stop = some (byteText t) := by
  obtain ⟨front, behind, hbytes, hstart, hstop⟩ := h.exists_byteText
  have hlength : (byteText source).length = start + ((byteText t).length + behind.length) := by
    rw [hbytes, List.length_append, List.length_append, hstart]
  have htake : (byteText source).take stop = front ++ byteText t := by
    rw [hbytes, ← List.append_assoc, hstop, ← hstart, ← List.length_append, List.take_left]
  rw [bytesBetween?, if_pos ⟨by omega, by omega⟩, htake, ← hstart, List.drop_left]

theorem slice?_eq (h : Holds source start t stop) : slice? source start stop = some t := by
  obtain ⟨front, behind, hsource, hstart, hstop⟩ := h
  have hassoc : source = (front ++ t) ++ behind := by rw [hsource, List.append_assoc]
  have hsize : stop = size (front ++ t) := by rw [hstop, hstart, size_append]
  have hfront : takeBytes start source = front := by rw [hsource, hstart, takeBytes_size]
  have hboth : takeBytes stop source = front ++ t := by rw [hassoc, hsize, takeBytes_size]
  have hslice : slice start stop source = t := by
    rw [slice, hstop, Nat.add_sub_cancel_left, hsource, hstart, dropBytes_size, takeBytes_size]
  rw [slice?, if_pos ⟨by omega, by rw [hfront, hstart], by rw [hboth, hsize]⟩, hslice]

end Holds

/-- There are slices only between positions that lie between characters of the source. -/
theorem slice?_eq_some_iff : slice? source start stop = some t ↔ Holds source start t stop := by
  refine ⟨fun h => ?_, Holds.slice?_eq⟩
  unfold slice? at h
  split at h
  next hbounds =>
    obtain ⟨hle, hstart, hstop⟩ := hbounds
    obtain ⟨n, rfl⟩ := Nat.exists_eq_add_of_le hle
    rw [slice, Nat.add_sub_cancel_left, Option.some.injEq] at h
    have hsource := takeBytes_append_dropBytes start source
    have hrest := takeBytes_append_dropBytes n (dropBytes start source)
    have htake := takeBytes_size_add (takeBytes start source) (dropBytes start source) n
    rw [hsource, hstart] at htake
    rw [htake, size_append, hstart, h, Nat.add_left_cancel_iff] at hstop
    refine ⟨takeBytes start source, dropBytes n (dropBytes start source), ?_, hstart.symm, ?_⟩
    · rw [← h, hrest, hsource]
    · rw [hstop]
  next => cases h

/-! ## Inside a character -/

/-- Where the byte at a position is wide, the reading goes on as from the next position. -/
def PassesWideAt (source : Text) (stop : Nat) {α : Type} (read : Nat → α) : Prop :=
  ∀ i b, i < stop → byteAt? source i = some b → IsWide b → read i = read (i + 1)

theorem Holds.exists_wide (h : Holds source start (c :: t) stop) (hc : IsWide c)
    (hn : n < c.utf8Size) : ∃ b, byteAt? source (start + n) = some b ∧ IsWide b := by
  obtain ⟨b, bs, hbytes, hwide⟩ := byteText_wide hc t
  have hone := length_byteText (c :: t)
  rw [hbytes, size_cons, ← List.cons_append, List.length_append, length_byteText] at hone
  have hlength : n < (b :: bs).length := by omega
  have hbyte := h.byteAt?_eq (n := n) (by rw [size_cons]; omega)
  rw [hbytes, ← List.cons_append, List.getElem?_append_left hlength,
    List.getElem?_eq_getElem hlength] at hbyte
  exact ⟨_, hbyte, hwide _ (List.getElem_mem hlength)⟩

/-- The first byte of a character is the character itself, or both are wide. -/
theorem Holds.exists_byte (h : Holds source start (c :: t) stop) :
    ∃ b, byteAt? source start = some b ∧ (b = c ∨ IsWide b ∧ IsWide c) := by
  by_cases hc : IsWide c
  · obtain ⟨b, hbyte, hb⟩ := h.exists_wide hc c.utf8Size_pos
    exact ⟨b, hbyte, Or.inr ⟨hb, hc⟩⟩
  · exact ⟨c, h.byteAt?_ascii hc, Or.inl rfl⟩

namespace PassesWideAt

variable {α : Type} {read : Nat → α}

theorem within (hread : PassesWideAt source stop read) (h : Holds source start (c :: t) stop)
    (hc : IsWide c) (hn : n ≤ c.utf8Size) : read start = read (start + n) := by
  induction n with
  | zero => rfl
  | succ n ih =>
      obtain ⟨b, hbyte, hwide⟩ := h.exists_wide hc hn
      have hlt : start + n < stop := by
        rw [h.stop_eq, size_cons]
        omega
      rw [ih (Nat.le_of_succ_le hn), hread _ b hlt hbyte hwide, Nat.add_assoc]

theorem char (hread : PassesWideAt source stop read) (h : Holds source start (c :: t) stop)
    (hc : IsWide c) : read start = read (start + c.utf8Size) :=
  hread.within h hc (Nat.le_refl _)

/-- Behind the first byte of a character, the reading goes on as behind the character. -/
theorem escaped (hread : PassesWideAt source stop read) (h : Holds source start (c :: t) stop) :
    read (start + 1) = read (start + c.utf8Size) := by
  by_cases hc : IsWide c
  · rw [← hread.within h hc c.utf8Size_pos, hread.char h hc]
  · rw [size_of_not_isWide hc]

end PassesWideAt

/-! ## Strings -/

theorem passesWideAt_stringEndFrom? (hquote : isQuote quote = true) :
    PassesWideAt source stop fun i => stringEndFrom? source quote i stop := by
  intro i b hi hbyte hwide
  have hne : b ≠ quote := by
    rintro rfl
    exact not_isWide_of_isQuote hquote hwide
  change stringEndFrom? source quote i stop = stringEndFrom? source quote (i + 1) stop
  rw [stringEndFrom?, if_pos hi]
  simp only [hbyte, if_neg (hwide.ne (show '\x5c'.toNat < 0x80 by decide)), if_neg hne]

theorem stringEndFrom?_step {b : Char} (hi : i < stop) (hbyte : byteAt? source i = some b) :
    stringEndFrom? source quote i stop =
      if b = '\x5c' then stringEndFrom? source quote (i + 2) stop
      else if b = quote then some (i + 1)
      else stringEndFrom? source quote (i + 1) stop := by
  rw [stringEndFrom?, if_pos hi]
  simp only [hbyte]

theorem stringEndFrom?_end (hi : stop ≤ i) : stringEndFrom? source quote i stop = some stop := by
  rw [stringEndFrom?, if_neg (Nat.not_lt_of_le hi)]

theorem stringEndFrom?_eq (hquote : isQuote quote = true) (h : Holds source i t stop) :
    stringEndFrom? source quote i stop = some (stop - size (afterString quote t)) := by
  have hpasses : PassesWideAt source stop fun i => stringEndFrom? source quote i stop :=
    passesWideAt_stringEndFrom? hquote
  have hascii : ¬ IsWide '\x5c' := by decide
  fun_induction afterString quote t generalizing i with
  | case1 =>
      have hstop : stop = i := h.stop_eq
      rw [stringEndFrom?_end (Nat.le_of_eq hstop)]
      rfl
  | case2 =>
      have hstop := h.stop_eq
      rw [stringEndFrom?_step h.lt (h.byteAt?_ascii hascii), if_pos rfl, stringEndFrom?_end]
      · rfl
      · rw [size_cons, size_of_not_isWide hascii, size_nil] at hstop
        omega
  | case3 c rest ih =>
      have hescaped := h.tail_ascii hascii
      rw [stringEndFrom?_step h.lt (h.byteAt?_ascii hascii), if_pos rfl, ← ih hescaped.tail]
      exact hpasses.escaped hescaped
  | case4 rest hlone hescape =>
      have hwide := not_isWide_of_isQuote hquote
      have hne := ne_backslash_of_isQuote hquote
      rw [stringEndFrom?_step h.lt (h.byteAt?_ascii hwide), if_neg hne, if_pos rfl,
        (h.tail_ascii hwide).stop_eq, Nat.add_sub_cancel]
  | case5 c rest hlone hescape hc ih =>
      by_cases hwide : IsWide c
      · rw [← ih h.tail]
        exact hpasses.char h hwide
      · have hne := ne_backslash_of_cases hlone hescape
        rw [stringEndFrom?_step h.lt (h.byteAt?_ascii hwide), if_neg hne, if_neg hc,
          ih (h.tail_ascii hwide)]

/-- A comment and what is left behind it. -/
theorem comment_append (t : Text) :
    ('/' :: '*' :: upTo t (afterComment t)) ++ afterComment t = '/' :: '*' :: t :=
  congrArg (fun x => '/' :: '*' :: x) (upTo_append (afterComment_suffix t))

theorem after?_byteText (t : Text) :
    (after? ['/', '*'] (byteText t)).isSome = true ↔ ∃ rest, t = '/' :: '*' :: rest := by
  constructor
  · intro h
    obtain ⟨rest, hrest⟩ := Option.isSome_iff_exists.mp h
    have hbytes := eq_append_of_after? hrest
    have hhead : (byteText t).head? = some '/' := by rw [hbytes]; rfl
    obtain ⟨tail, rfl⟩ := List.head?_eq_some_iff.mp ((head?_byteText (by decide)).mp hhead)
    rw [byteText_ascii (by decide), List.cons_append, List.cons.injEq] at hbytes
    have hnext : (byteText tail).head? = some '*' := by rw [hbytes.2]; rfl
    obtain ⟨rest, rfl⟩ := List.head?_eq_some_iff.mp ((head?_byteText (by decide)).mp hnext)
    exact ⟨rest, rfl⟩
  · rintro ⟨rest, rfl⟩
    rw [byteText_ascii (by decide), byteText_ascii (by decide)]
    rfl

theorem commentEnd?_comment (h : Holds source start ('/' :: '*' :: t) stop) :
    commentEnd? source start stop = some (some (stop - size (afterComment t))) := by
  have hinside : Holds source (start + 2) t stop :=
    (h.tail_ascii (by decide)).tail_ascii (by decide)
  have hsize := congrArg size (upTo_append (afterComment_suffix t))
  rw [size_append] at hsize
  have hstop := hinside.stop_eq
  have hend : start + 2 + (size t - size (afterComment t)) = stop - size (afterComment t) := by
    omega
  rw [commentEnd?, h.bytesBetween?_eq, Option.bind_eq_bind, Option.bind_some,
    if_pos ((after?_byteText _).mpr ⟨t, rfl⟩), hinside.slice?_eq]
  simp only [Option.bind_some, Option.pure_def, hend]

theorem commentEnd?_other (h : Holds source start t stop) (ht : ∀ rest, t ≠ '/' :: '*' :: rest) :
    commentEnd? source start stop = some none := by
  have hnone : ¬ (after? ['/', '*'] (byteText t)).isSome = true := fun hsome => by
    obtain ⟨rest, hrest⟩ := (after?_byteText t).mp hsome
    exact ht rest hrest
  rw [commentEnd?, h.bytesBetween?_eq, Option.bind_eq_bind, Option.bind_some, if_neg hnone]
  rfl

/-! ## Constructs -/

theorem constructEnd?_eq {b : Char} (hbyte : byteAt? source start = some b) :
    constructEnd? source start stop =
      if b = '\x5c' then some (some (start + 2))
      else if isQuote b then (stringEndFrom? source b (start + 1) stop).map some
      else if b = '/' then commentEnd? source start stop
      else some none := by
  rw [constructEnd?, hbyte, Option.bind_eq_bind, Option.bind_some]
  simp only [Option.bind_eq_bind, Option.pure_def, Option.map_eq_bind, Function.comp_def]

theorem constructEnd?_wide {b : Char} (hbyte : byteAt? source start = some b) (hb : IsWide b) :
    constructEnd? source start stop = some none := by
  rw [constructEnd?_eq hbyte, if_neg (hb.ne (by decide)), if_neg (by rw [hb.isQuote_eq]; decide),
    if_neg (hb.ne (by decide))]

theorem constructEnd?_escape (h : Holds source start ('\x5c' :: t) stop) :
    constructEnd? source start stop = some (some (start + 2)) := by
  rw [constructEnd?_eq (h.byteAt?_ascii (by decide)), if_pos rfl]

theorem constructEnd?_string (hquote : isQuote quote = true)
    (h : Holds source start (quote :: t) stop) :
    constructEnd? source start stop = some (some (stop - size (afterString quote t))) := by
  have hascii := not_isWide_of_isQuote hquote
  have hne := ne_backslash_of_isQuote hquote
  rw [constructEnd?_eq (h.byteAt?_ascii hascii), if_neg hne, if_pos hquote,
    stringEndFrom?_eq hquote (h.tail_ascii hascii), Option.map_some]

theorem constructEnd?_comment (h : Holds source start ('/' :: '*' :: t) stop) :
    constructEnd? source start stop = some (some (stop - size (afterComment t))) := by
  rw [constructEnd?_eq (h.byteAt?_ascii (by decide)), if_neg (by decide), if_neg (by decide),
    if_pos rfl, commentEnd?_comment h]

theorem constructEnd?_symbol (h : Holds source start (c :: t) stop) (hescape : c ≠ '\x5c')
    (hquote : isQuote c = false) (hopen : ∀ rest, c :: t ≠ '/' :: '*' :: rest)
    (hc : ¬ IsWide c) : constructEnd? source start stop = some none := by
  rw [constructEnd?_eq (h.byteAt?_ascii hc), if_neg hescape,
    if_neg (by rw [hquote]; exact Bool.false_ne_true), commentEnd?_other h hopen, ite_self]

end UtilityCss.Ruleset
