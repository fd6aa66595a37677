import Mathlib.Data.List.Induction
import UtilityCss.Proofs.Name.Map
import UtilityCss.Proofs.Theme.Dependency

/-!
# What the content hash tells of a theme

A row of the hashed stream ends at a line feed, and its fields stand behind zero bytes. Names hold
neither of the two. As long as values hold no zero bytes, the rows can be read back from the end of
the stream, and the stream of a table is that of another one exactly if they have the same rows. It
does not tell an absent value from an empty one.
-/

namespace UtilityCss.Theme

open Text

structure Row where
  name : Text
  light : Text
  dark : Text
  deriving DecidableEq

namespace Row

/-- The row of a variable; an absent value counts as an empty one. -/
def ofVariable (v : Variable) : Row :=
  { name := v.name, light := v.light.getD [], dark := v.dark.getD [] }

def ofNode (n : Node) : Row :=
  { name := n.name, light := n.light.getD [], dark := n.dark.getD [] }

def text (r : Row) : Text :=
  r.name ++ '\x00' :: r.light ++ '\x00' :: r.dark ++ ['\n']

structure IsReadable (r : Row) : Prop where
  name_oneLine : '\n' ∉ r.name
  light_nulFree : '\x00' ∉ r.light
  dark_nulFree : '\x00' ∉ r.dark

end Row

def Variable.IsNulFree (v : Variable) : Prop :=
  ∀ value, v.light = some value ∨ v.dark = some value → '\x00' ∉ value

def Variable.values (v : Variable) : Text × Option Text × Option Text :=
  (v.name, v.light, v.dark)

/-- A text is cut in one way only behind the last `x` that stands in it. -/
theorem eq_of_append_of_not_mem {front front' back back' : Text} {x : Char}
    (h : front ++ back = front' ++ back') (hback : x ∉ back) (hback' : x ∉ back')
    (hfront : ∀ c ∈ front.getLast?, c = x) (hfront' : ∀ c ∈ front'.getLast?, c = x) :
    front = front' ∧ back = back' := by
  have hlast {lead behind : Text} (hend : ∀ c ∈ (lead ++ behind).getLast?, c = x)
      (hnot : x ∉ behind) : behind = [] := by
    rcases List.eq_nil_or_concat' behind with hnil | ⟨init, c, hconcat⟩
    · exact hnil
    · rw [hconcat, ← List.append_assoc, List.getLast?_concat] at hend
      obtain rfl := hend c rfl
      exact absurd (hconcat ▸ List.mem_append_right init List.mem_cons_self) hnot
  rcases List.append_eq_append_iff.mp h with ⟨behind, hfront_eq, hback_eq⟩ | ⟨behind, hfront_eq, hback_eq⟩
  · have hnil : behind = [] := hlast (hfront_eq ▸ hfront') fun hmem =>
      hback (hback_eq ▸ List.mem_append_left _ hmem)
    subst hnil
    exact ⟨by rw [hfront_eq, List.append_nil], by rw [hback_eq, List.nil_append]⟩
  · have hnil : behind = [] := hlast (hfront_eq ▸ hfront) fun hmem =>
      hback' (hback_eq ▸ List.mem_append_left _ hmem)
    subst hnil
    exact ⟨by rw [hfront_eq, List.append_nil], by rw [hback_eq, List.nil_append]⟩

theorem eq_of_append_cons_of_not_mem {front front' back back' : Text} {x : Char}
    (h : front ++ x :: back = front' ++ x :: back') (hback : x ∉ back) (hback' : x ∉ back') :
    front = front' ∧ back = back' := by
  have hcut : (front ++ [x]) ++ back = (front' ++ [x]) ++ back' := by
    rwa [List.append_cons, List.append_cons front'] at h
  have hend (lead : Text) : ∀ c ∈ (lead ++ [x]).getLast?, c = x := by
    intro c hc
    rw [List.getLast?_concat] at hc
    exact (Option.some.inj hc).symm
  obtain ⟨hfronts, hbacks⟩ := eq_of_append_of_not_mem hcut hback hback' (hend front) (hend front')
  exact ⟨List.append_cancel_right hfronts, hbacks⟩

namespace Row

/-- Rows end in a line feed. -/
theorem getLast?_texts (rows : List Row) : ∀ c ∈ (rows.flatMap text).getLast?, c = '\n' := by
  rcases List.eq_nil_or_concat' rows with rfl | ⟨init, r, rfl⟩
  · simp
  · intro c hc
    rw [List.flatMap_append, List.flatMap_singleton, text, ← List.append_assoc,
      List.getLast?_concat] at hc
    exact (Option.some.inj hc).symm

theorem texts_concat (rows : List Row) (r : Row) : (rows ++ [r]).flatMap text =
    (((rows.flatMap text ++ r.name) ++ '\x00' :: r.light) ++ '\x00' :: r.dark) ++ ['\n'] := by
  simp only [List.flatMap_append, List.flatMap_singleton, text, List.append_assoc]

theorem texts_injective {rows rows' : List Row} (hrows : ∀ r ∈ rows, r.IsReadable)
    (hrows' : ∀ r ∈ rows', r.IsReadable) (h : rows.flatMap text = rows'.flatMap text) :
    rows = rows' := by
  have hne (rows : List Row) (r : Row) : (rows ++ [r]).flatMap text ≠ [] := by
    rw [texts_concat]
    exact List.concat_ne_nil _ _
  induction rows using List.reverseRecOn generalizing rows' with
  | nil =>
      rcases List.eq_nil_or_concat' rows' with rfl | ⟨init, r, rfl⟩
      · rfl
      · exact absurd h.symm (hne init r)
  | append_singleton rows r ih =>
      rcases List.eq_nil_or_concat' rows' with rfl | ⟨init, r', rfl⟩
      · exact absurd h (hne rows r)
      · have hr := hrows r (List.mem_append_right rows List.mem_cons_self)
        have hr' := hrows' r' (List.mem_append_right init List.mem_cons_self)
        -- Field by field, from the line feed at the end on.
        rw [texts_concat, texts_concat] at h
        obtain ⟨hlight, hdark⟩ := eq_of_append_cons_of_not_mem (List.append_cancel_right h)
          hr.dark_nulFree hr'.dark_nulFree
        obtain ⟨hname, hlight⟩ := eq_of_append_cons_of_not_mem hlight
          hr.light_nulFree hr'.light_nulFree
        obtain ⟨hfront, hname⟩ := eq_of_append_of_not_mem hname hr.name_oneLine hr'.name_oneLine
          (getLast?_texts rows) (getLast?_texts init)
        have hsame : r = r' := by
          cases r
          cases r'
          simp_all
        rw [hsame, ih (fun r hr => hrows r (List.mem_append_left _ hr))
          (fun r hr => hrows' r (List.mem_append_left _ hr)) hfront]

/-- With NUL characters in its values one row can be mistaken for two. -/
example :
    [(⟨['a'], ['1'], ['2', '\n', 'b', '\x00', '3', '\x00', '4']⟩ : Row)].flatMap text =
      [(⟨['a'], ['1'], ['2']⟩ : Row), ⟨['b'], ['3'], ['4']⟩].flatMap text := by
  decide

end Row

namespace Graph

def rows (g : Graph) : List Row :=
  g.nodes.values.map Row.ofNode

theorem rowBytes_eq (n : Node) : rowBytes n = bytes (Row.ofNode n).text := by
  have hfield (t : Text) : bytes ('\x00' :: t) = 0 :: bytes t := rfl
  have hend : bytes ['\n'] = [10] := rfl
  simp only [rowBytes, Row.text, Row.ofNode, bytes_append, hfield, hend]

theorem contentBytes_eq (g : Graph) : g.contentBytes = bytes (g.rows.flatMap Row.text) := by
  rw [contentBytes, rows, bytes, List.flatMap_map, List.flatMap_assoc]
  exact List.flatMap_congr fun n _ => rowBytes_eq n

variable {table : List Variable} {g : Graph}
  (hnodes : ∀ x n, g.get? x = some n ↔ ∃ v ∈ table, v.name = x ∧ Node.ofVariable v = n)

include hnodes

theorem mem_entries_iff {e : Text × Node} :
    e ∈ g.nodes.entries ↔ ∃ v ∈ table, (v.name, Node.ofVariable v) = e := by
  obtain ⟨x, n⟩ := e
  rw [← NameMap.get?_eq_some_iff]
  exact (hnodes x n).trans (by simp only [Prod.mk.injEq])

theorem mem_rows_iff {row : Row} : row ∈ g.rows ↔ row ∈ table.map Row.ofVariable := by
  simp only [rows, NameMap.values, List.mem_map, mem_entries_iff hnodes]
  constructor
  · rintro ⟨-, ⟨-, ⟨v, hv, rfl⟩, rfl⟩, rfl⟩
    exact ⟨v, hv, rfl⟩
  · rintro ⟨v, hv, rfl⟩
    exact ⟨_, ⟨_, ⟨v, hv, rfl⟩, rfl⟩, rfl⟩

theorem ascending_rows : g.rows.Pairwise fun a b => Precedes a.name b.name := by
  rw [rows, NameMap.values, List.map_map, List.pairwise_map]
  refine g.nodes.ascending.imp_of_mem ?_
  intro e e' he he' hprecedes
  obtain ⟨v, -, rfl⟩ := (mem_entries_iff hnodes).mp he
  obtain ⟨w, -, rfl⟩ := (mem_entries_iff hnodes).mp he'
  exact hprecedes

theorem isReadable_of_mem_rows (hvalid : Variable.tableProblem? table = none)
    (hnul : ∀ v ∈ table, v.IsNulFree) : ∀ r ∈ g.rows, r.IsReadable := by
  intro r hr
  obtain ⟨v, hv, rfl⟩ := List.mem_map.mp ((mem_rows_iff hnodes).mp hr)
  have hvalue {value : Option Text} (h : ∀ t, value = some t → '\x00' ∉ t) :
      '\x00' ∉ value.getD [] := by
    cases value with
    | none => exact List.not_mem_nil
    | some t => exact h t rfl
  refine ⟨?_, hvalue fun t ht => hnul v hv t (Or.inl ht),
    hvalue fun t ht => hnul v hv t (Or.inr ht)⟩
  have hname := (sound_of_mem hvalid hv).1
  simp only [Variable.isValidName, Bool.and_eq_true, List.all_eq_true] at hname
  exact fun hmem => absurd (hname.1.2 _ hmem) (by decide)

end Graph

/-! ## Tables by their streams -/

variable {table table' : List Variable}

theorem contentBytes_eq_iff_rows {g g' : Graph}
    (hnodes : ∀ x n, g.get? x = some n ↔ ∃ v ∈ table, v.name = x ∧ Node.ofVariable v = n)
    (hnodes' : ∀ x n, g'.get? x = some n ↔ ∃ v ∈ table', v.name = x ∧ Node.ofVariable v = n)
    (hread : ∀ r ∈ g.rows, r.IsReadable) (hread' : ∀ r ∈ g'.rows, r.IsReadable) :
    g.contentBytes = g'.contentBytes ↔
      ∀ row, row ∈ table.map Row.ofVariable ↔ row ∈ table'.map Row.ofVariable := by
  rw [g.contentBytes_eq, g'.contentBytes_eq]
  constructor
  · intro h row
    have hrows := Row.texts_injective hread hread' (bytes_injective h)
    rw [← Graph.mem_rows_iff hnodes, ← Graph.mem_rows_iff hnodes', hrows]
  · intro h
    have hrows : g.rows = g'.rows := by
      refine eq_of_mem_iff_of_ascending (Graph.ascending_rows hnodes)
        (Graph.ascending_rows hnodes') fun row => ?_
      rw [Graph.mem_rows_iff hnodes, Graph.mem_rows_iff hnodes', h]
    rw [hrows]

/-- Variables of one name have values in the same modes. -/
def SamePresence (table table' : List Variable) : Prop :=
  ∀ v ∈ table, ∀ v' ∈ table', v.name = v'.name →
    v.light.isSome = v'.light.isSome ∧ v.dark.isSome = v'.dark.isSome

theorem SamePresence.symm (h : SamePresence table table') : SamePresence table' table := by
  intro v' hv' v hv hname
  have hsome := h v hv v' hv' hname.symm
  exact ⟨hsome.1.symm, hsome.2.symm⟩

theorem eq_of_getD_of_isSome {a b : Option Text} (hvalue : a.getD [] = b.getD [])
    (hsome : a.isSome = b.isSome) : a = b := by
  cases a <;> cases b <;> simp_all

theorem mem_values_of_rows
    (hrows : ∀ row, row ∈ table.map Row.ofVariable → row ∈ table'.map Row.ofVariable)
    (hsome : SamePresence table table') {x : Text × Option Text × Option Text}
    (hx : x ∈ table.map Variable.values) : x ∈ table'.map Variable.values := by
  obtain ⟨v, hv, rfl⟩ := List.mem_map.mp hx
  obtain ⟨v', hv', hrow⟩ := List.mem_map.mp (hrows _ (List.mem_map_of_mem hv))
  rw [Row.ofVariable, Row.ofVariable, Row.mk.injEq] at hrow
  obtain ⟨hname, hlight, hdark⟩ := hrow
  have hvalues := hsome v hv v' hv' hname.symm
  refine List.mem_map.mpr ⟨v', hv', ?_⟩
  rw [Variable.values, Variable.values, hname, eq_of_getD_of_isSome hlight hvalues.1.symm,
    eq_of_getD_of_isSome hdark hvalues.2.symm]

/-- The values of a table are its rows and which values are there. -/
theorem values_iff_rows (table : List Variable) (hnodup : (table'.map (·.name)).Nodup) :
    (∀ x, x ∈ table.map Variable.values ↔ x ∈ table'.map Variable.values) ↔
      (∀ row, row ∈ table.map Row.ofVariable ↔ row ∈ table'.map Row.ofVariable) ∧
        SamePresence table table' := by
  constructor
  · intro h
    constructor
    · have hrow : Row.ofVariable =
          (fun x => ⟨x.1, x.2.1.getD [], x.2.2.getD []⟩) ∘ Variable.values := rfl
      intro row
      rw [hrow, ← List.map_map, ← List.map_map, List.mem_map, List.mem_map]
      simp only [h]
    · intro v hv v' hv' hname
      obtain ⟨w, hw, hvalues⟩ := List.mem_map.mp ((h v.values).mp (List.mem_map_of_mem hv))
      rw [Variable.values, Variable.values, Prod.mk.injEq, Prod.mk.injEq] at hvalues
      obtain rfl := List.inj_on_of_nodup_map hnodup hw hv' (hvalues.1.trans hname)
      rw [hvalues.2.1, hvalues.2.2]
      exact ⟨rfl, rfl⟩
  · rintro ⟨hrows, hsome⟩ x
    exact ⟨mem_values_of_rows (fun row => (hrows row).mp) hsome,
      mem_values_of_rows (fun row => (hrows row).mpr) hsome.symm⟩

/-- Two tables without faults and without NUL characters in their values have the same stream exactly
if they have the same rows. They have the same variables with the same values exactly if besides they
have values in the same modes, be these empty or not. -/
theorem contentBytes_eq_iff (hvalid : Variable.tableProblem? table = none)
    (hvalid' : Variable.tableProblem? table' = none) (hnul : ∀ v ∈ table ++ table', v.IsNulFree) :
    ∃ g g', Graph.ofTable table = .ok g ∧ Graph.ofTable table' = .ok g' ∧
      (g.contentBytes = g'.contentBytes ↔
        ∀ row, row ∈ table.map Row.ofVariable ↔ row ∈ table'.map Row.ofVariable) ∧
      ((∀ x, x ∈ table.map Variable.values ↔ x ∈ table'.map Variable.values) ↔
        g.contentBytes = g'.contentBytes ∧ SamePresence table table') := by
  obtain ⟨g, hg, hnodes⟩ := Graph.ofTable_of_tableProblem? hvalid
  obtain ⟨g', hg', hnodes'⟩ := Graph.ofTable_of_tableProblem? hvalid'
  have hstream := contentBytes_eq_iff_rows hnodes hnodes'
    (Graph.isReadable_of_mem_rows hnodes hvalid fun v hv => hnul v (List.mem_append_left _ hv))
    (Graph.isReadable_of_mem_rows hnodes' hvalid' fun v hv => hnul v (List.mem_append_right _ hv))
  have hvalues := values_iff_rows table (tableProblem?_eq_none_iff.mp hvalid').2
  exact ⟨g, g', hg, hg', hstream, hvalues.trans (and_congr_left fun _ => hstream.symm)⟩

/-- A value with a line feed in it, behind which a name seems to begin. -/
theorem contentBytes_eq_iff_brokenLine :
    let table : List Variable :=
      [{ name := ['a'], light := some ['1'], dark := some ['2', '\n', 'b'] },
        { name := ['c'], light := some ['3'] }]
    let table' : List Variable :=
      [{ name := ['a'], light := some ['1'], dark := some ['2'] },
        { name := ['b', 'c'], light := some ['3'] }]
    Variable.tableProblem? table = none ∧ Variable.tableProblem? table' = none ∧
      (∀ v ∈ table ++ table', v.IsNulFree) ∧
      ∃ g g', Graph.ofTable table = .ok g ∧ Graph.ofTable table' = .ok g' ∧
        g.contentBytes ≠ g'.contentBytes := by
  intro table table'
  have hvalid : Variable.tableProblem? table = none := by decide
  have hvalid' : Variable.tableProblem? table' = none := by decide
  have hnul : ∀ v ∈ table ++ table', v.IsNulFree := by
    have hvalues : ∀ v ∈ table ++ table', ∀ value ∈ v.light.toList ++ v.dark.toList,
        '\x00' ∉ value := by decide
    exact fun v hv value hvalue => hvalues v hv value (by simpa using hvalue)
  obtain ⟨g, g', hg, hg', hstream, -⟩ := contentBytes_eq_iff hvalid hvalid' hnul
  refine ⟨hvalid, hvalid', hnul, g, g', hg, hg', fun heq => ?_⟩
  exact absurd ((hstream.mp heq (Row.ofVariable { name := ['c'], light := some ['3'] })).mp
    (by decide)) (by decide)

/-- An absent value and an empty one leave the same stream. -/
theorem contentBytes_emptyDark :
    let table : List Variable := [{ name := ['a'], light := some ['x'] }]
    let table' : List Variable := [{ name := ['a'], light := some ['x'], dark := some [] }]
    Variable.tableProblem? table = none ∧ Variable.tableProblem? table' = none ∧
      (¬ ∀ x, x ∈ table.map Variable.values ↔ x ∈ table'.map Variable.values) ∧
      ∃ g g', Graph.ofTable table = .ok g ∧ Graph.ofTable table' = .ok g' ∧
        g.contentBytes = g'.contentBytes := by
  intro table table'
  refine ⟨by decide, by decide, fun h => ?_, _, _, rfl, rfl, by decide⟩
  exact absurd ((h (['a'], some ['x'], none)).mp (by decide)) (by decide)

end UtilityCss.Theme
