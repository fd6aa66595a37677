import Mathlib.Data.List.Chain
import Mathlib.Data.List.Nodup
import Mathlib.Logic.Relation
import UtilityCss.Name.Path

/-!
# Cycles that a path closes

A path goes along a relation and meets no name twice. To come from its end to a name that is on it
closes a cycle; the last step of that cycle is the step from the end of the path.
-/

namespace UtilityCss.Path

open Text Relation

variable {R : Text → Text → Prop} {path cycle : List Text} {name : Text}

/-- A way along the relation that ends where it started, no other name on it twice. -/
structure IsCycle (R : Text → Text → Prop) (cycle : List Text) : Prop where
  length : 2 ≤ cycle.length
  closed : cycle.getLast? = cycle.head?
  distinct : cycle.dropLast.Nodup
  chain : cycle.IsChain R

theorem cycleAt_append (before behind : List Text) (h : name ∉ before) :
    cycleAt (before ++ name :: behind) name = name :: behind ++ [name] := by
  unfold cycleAt
  rw [List.dropWhile_append_of_pos]
  · simp
  · intro x hx
    rw [bne_iff_ne]
    rintro rfl
    exact h hx

theorem isCycle_cycleAt (hchain : path.IsChain R) (hdistinct : path.Nodup) (hmem : name ∈ path)
    (hstep : ∀ last ∈ path.getLast?, R last name) : IsCycle R (cycleAt path name) := by
  obtain ⟨before, behind, rfl, hbefore⟩ := List.eq_append_cons_of_mem hmem
  rw [cycleAt_append before behind hbefore]
  refine ⟨by simp, by rw [List.getLast?_concat]; rfl, ?_, ?_⟩
  · rw [List.dropLast_concat]
    exact (List.nodup_append.mp hdistinct).2.1
  · refine (List.IsChain.right_of_append hchain).append (List.IsChain.singleton name) ?_
    intro last hlast child hchild
    rw [List.head?_singleton, Option.mem_some_iff] at hchild
    rw [← hchild]
    refine hstep last ?_
    rw [List.getLast?_append, Option.mem_def.mp hlast, Option.some_or]
    rfl

theorem mem_of_mem_cycleAt {x : Text} (hmem : name ∈ path) (h : x ∈ cycleAt path name) :
    x ∈ path := by
  unfold cycleAt at h
  rcases List.mem_append.mp h with hx | hx
  · exact (List.dropWhile_suffix _).mem hx
  · rwa [List.mem_singleton.mp hx]

/-- The last step of the cycle starts at the end of the path. -/
theorem closing_cycleAt {last : Text} (hmem : name ∈ path) (hlast : last ∈ path.getLast?) :
    [last, name] <:+ cycleAt path name := by
  obtain ⟨before, behind, rfl, hbefore⟩ := List.eq_append_cons_of_mem hmem
  have hbehind : (name :: behind).getLast? = some last := by
    rw [List.getLast?_append_of_ne_nil _ (List.cons_ne_nil name behind)] at hlast
    exact hlast
  obtain ⟨front, hfront⟩ := List.getLast?_eq_some_iff.mp hbehind
  rw [cycleAt_append before behind hbefore, hfront, List.append_assoc]
  exact List.suffix_append front [last, name]

theorem transGen_of_isChain {first last : Text} (hchain : (first :: path).IsChain R)
    (hlast : path.getLast? = some last) : TransGen R first last := by
  induction path generalizing first with
  | nil => cases hlast
  | cons second rest ih =>
      rw [List.isChain_cons_cons] at hchain
      obtain ⟨hstep, hrest⟩ := hchain
      cases rest with
      | nil =>
          rw [List.getLast?_singleton, Option.some.injEq] at hlast
          exact hlast ▸ TransGen.single hstep
      | cons third rest =>
          rw [List.getLast?_cons_cons] at hlast
          exact TransGen.head hstep (ih hrest hlast)

namespace IsCycle

/-- A cycle leads from its first name back to it. -/
theorem exists_transGen (h : IsCycle R cycle) : ∃ first ∈ cycle, TransGen R first first := by
  obtain ⟨hlength, hclosed, -, hchain⟩ := h
  cases cycle with
  | nil => simp at hlength
  | cons first rest =>
      cases rest with
      | nil => simp at hlength
      | cons second rest =>
          rw [List.getLast?_cons_cons, List.head?_cons] at hclosed
          exact ⟨first, List.mem_cons_self, transGen_of_isChain hchain hclosed⟩

/-- Any name of a cycle leads to any other. -/
theorem reaches (h : IsCycle R cycle) {x y : Text} (hx : x ∈ cycle) (hy : y ∈ cycle) :
    ReflTransGen R x y := by
  have hways : cycle.Pairwise (ReflTransGen R) :=
    (h.chain.imp fun _ _ => ReflTransGen.single).pairwise
  obtain ⟨-, hclosed, -, -⟩ := h
  obtain ⟨first, rest, rfl⟩ := List.exists_cons_of_ne_nil (List.ne_nil_of_mem hx)
  have hfrom : ReflTransGen R first y := by
    rcases List.mem_cons.mp hy with rfl | hy
    · exact .refl
    · exact List.rel_of_pairwise_cons hways hy
  obtain ⟨front, hfront⟩ := List.getLast?_eq_some_iff.mp hclosed
  rw [hfront] at hways hx
  have hto : ReflTransGen R x first := by
    rcases List.mem_append.mp hx with hx | hx
    · exact (List.pairwise_append.mp hways).2.2 x hx first List.mem_cons_self
    · rw [List.mem_singleton.mp hx]
  exact hto.trans hfrom

/-- From every name of a cycle a step leads on. -/
theorem exists_step (h : IsCycle R cycle) {x : Text} (hx : x ∈ cycle) : ∃ y, R x y := by
  obtain ⟨hlength, hclosed, -, hchain⟩ := h
  obtain ⟨front, behind, hsplit⟩ := List.append_of_mem hx
  rw [hsplit] at hlength hclosed hchain
  cases behind with
  | cons y behind => exact ⟨y, (List.isChain_append_cons_cons.mp hchain).2.1⟩
  | nil =>
      -- The last name is the first one as well.
      rw [List.getLast?_concat] at hclosed
      match front, hlength with
      | first :: second :: front, _ =>
          rw [List.cons_append, List.head?_cons, Option.some.injEq] at hclosed
          rw [List.cons_append, List.cons_append, List.isChain_cons_cons] at hchain
          exact ⟨second, hclosed ▸ hchain.1⟩
      | [first], _ =>
          rw [List.cons_append, List.head?_cons, Option.some.injEq] at hclosed
          rw [List.cons_append, List.nil_append, List.isChain_pair] at hchain
          exact ⟨x, hclosed ▸ hchain⟩

/-- A cycle of steps in one relation that has no step in another is one of the steps between. -/
theorem of_avoids {S : Text → Text → Prop} (h : IsCycle R cycle)
    (havoid : ∀ x y, [x, y] <:+: cycle → ¬ S x y) :
    IsCycle (fun x y => R x y ∧ ¬ S x y) cycle := by
  refine ⟨h.length, h.closed, h.distinct, ?_⟩
  rw [List.isChain_iff_forall_rel_of_append_cons_cons]
  intro x y front behind hsplit
  refine ⟨List.isChain_iff_forall_rel_of_append_cons_cons.mp h.chain hsplit, havoid x y ?_⟩
  exact ⟨front, behind, by rw [hsplit]; simp⟩

end IsCycle

/-- Where no way along the relation goes on for ever, none leads back. -/
theorem not_transGen_of_acc {x : Text} (h : Acc (fun y x => R x y) x) : ¬ TransGen R x x := by
  induction h with
  | intro x _ ih =>
      intro hloop
      obtain ⟨y, hstep, hback⟩ := TransGen.head'_iff.mp hloop
      exact ih y hstep (TransGen.tail' hback hstep)

/-! ## Names in a row -/

theorem render_cons_cons (first second : Text) (rest : List Text) :
    render (first :: second :: rest) = first ++ ' ' :: '→' :: ' ' :: render (second :: rest) := by
  have hjoin : render (first :: second :: rest) =
      first ++ [' ', '→', ' '] ++ render (second :: rest) := rfl
  rw [hjoin, List.append_assoc]
  rfl

theorem takeWhile_space {first : Text} (h : ' ' ∉ first) (t : Text) :
    (first ++ ' ' :: t).takeWhile (· != ' ') = first := by
  refine Text.takeWhile_append_exact (fun c hc => ?_) fun c hc => ?_
  · rw [bne_iff_ne]
    rintro rfl
    exact h hc
  · obtain rfl := Option.some.inj hc
    rfl

/-- Names without spaces can be told apart in the row that shows them. -/
theorem render_injective {names names' : List Text} (hne : names ≠ []) (hne' : names' ≠ [])
    (h : ∀ x ∈ names, ' ' ∉ x) (h' : ∀ x ∈ names', ' ' ∉ x) (heq : render names = render names') :
    names = names' := by
  have hsingle : ∀ first : Text, render [first] = first := fun _ => rfl
  have hspace : ∀ first second rest, ' ' ∈ render (first :: second :: rest) := by
    intro first second rest
    rw [render_cons_cons]
    exact List.mem_append_right first List.mem_cons_self
  induction names generalizing names' with
  | nil => exact absurd rfl hne
  | cons first rest ih =>
      obtain ⟨first', rest', rfl⟩ := List.exists_cons_of_ne_nil hne'
      have hfirst := h first List.mem_cons_self
      have hfirst' := h' first' List.mem_cons_self
      cases rest with
      | nil =>
          cases rest' with
          | nil => exact congrArg ([·]) heq
          | cons second' rest' =>
              rw [hsingle] at heq
              exact absurd (heq ▸ hspace first' second' rest') hfirst
      | cons second rest =>
          cases rest' with
          | nil =>
              rw [hsingle] at heq
              exact absurd (heq ▸ hspace first second rest) hfirst'
          | cons second' rest' =>
              rw [render_cons_cons, render_cons_cons] at heq
              have hhead := congrArg (List.takeWhile (· != ' ')) heq
              rw [takeWhile_space hfirst, takeWhile_space hfirst'] at hhead
              subst hhead
              rw [List.append_right_inj] at heq
              have htail := ih (List.cons_ne_nil _ _) (List.cons_ne_nil _ _)
                (fun x hx => h x (List.mem_cons_of_mem first hx))
                (fun x hx => h' x (List.mem_cons_of_mem first hx))
                (List.cons.inj (List.cons.inj (List.cons.inj heq).2).2).2
              rw [htail]

end UtilityCss.Path
