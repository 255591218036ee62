import Olap.Proofs.Calc.Dependence
import Olap.Proofs.Calc.Styles
import Olap.Proofs.Evaluation.Styles

/-!
# Styled trees

A node is styled (`Calc.Styled`) if its style is that of its operation, or one that covers the styles
of the children whose results it hands on, and if the children that it wants as lists hold sets in
full. The evaluation of a tree of such nodes gives results in the style of its root
(`Calc.renders`).

An operand that is not a set, and compiles to styled trees for single values only, is honest
(`Operand.Honest`). Whatever an honest operand is compiled to by its callers is styled: a single value
where they want one, and a set in full where they want a list.
-/

set_option autoImplicit false

namespace Olap

/-- Whatever calculations of the one style give, those of the other may give. -/
def ResultStyle.Refines (style other : ResultStyle) : Prop := ∀ v, style.Admits v → other.Admits v

namespace Operation

/-- The places of the children whose results may be those of the operation. -/
def handedOn : Operation → List Nat
  | choice => [1, 2]
  | cache _ => [0]
  | _ => []

theorem wantsList_of_single {op : Operation} {style : ResultStyle} (hstyle : op.style? = some style)
    (h : style = .value ∨ style = .valueNotNull) (k : Nat) : op.wantsList k = false := by
  cases op with
  | adapt a => cases a <;> first | rfl | (cases hstyle; rcases h with h | h <;> cases h)
  | head | order | drilldownMember | nonEmpty => cases hstyle; rcases h with h | h <;> cases h
  | _ => rfl

end Operation

namespace Calc

/-- What holds of the nodes of a styled tree (module doc). -/
structure Styled (c : Calc) : Prop where
  own : ∀ style, c.operation.style? = some style → c.style = style
  handed : c.operation.style? = none → c.operation.handedOn ≠ [] ∧
    ∀ k ∈ c.operation.handedOn, ∀ d, c.children[k]? = some d → d.style.Refines c.style
  lists : ∀ k d, c.children[k]? = some d → c.operation.wantsList k = true → d.IsHeld

theorem IsHeld.exists_list {c : Calc} (hc : c.IsHeld) {v : Value} (hv : c.style.Admits v) :
    ∃ l, v = .list l := by
  rcases hc with h | h
  all_goals
    rw [h] at hv
    exact hv

/-! ## Evaluating styled trees -/

/-- What may be kept for the calculations of a tree at an address is what their styles admit. -/
def Kept (c : Calc) (a : Address) (k : CacheKey) (v : Value) : Prop :=
  ∀ (level : Nat) (d : Calc), c.At a k.1 level d → d.style.Admits v

theorem kept_iff {c d : Calc} {a b : Address} {level : Nat} (h : c.At a b level d) (flag : Bool)
    (names : List String) (v : Value) : c.Kept a (b, flag, names) v ↔ d.style.Admits v := by
  refine ⟨fun hkept => hkept level d h, fun hv level' d' h' => ?_⟩
  obtain ⟨-, rfl⟩ := h.unique h'
  exact hv

open EvalM in
/-- Every node of a styled tree gives its results in its style, as long as what is kept for the tree
are such results. -/
theorem renders {root c : Calc} {start a : Address} {level : Nat} (hc : c.Every Styled)
    (hat : root.At start a level c) : Renders (root.Kept start) (c.evaluate a) c.style.Admits := by
  induction hc generalizing a level with
  | @node info op cs hnode hcs ih =>
    have hchild (k : Nat) (d : Calc) (hd : cs[k]? = some d) :
        Renders (root.Kept start) (d.evaluate (k :: a)) d.style.Admits :=
      ih d (List.mem_of_getElem? hd) (.child hat hd)
    have hxs (k : Nat) (x : EvalM Value) (hx : (evaluations a 0 cs)[k]? = some x) :
        ∃ d, cs[k]? = some d ∧ x = d.evaluate (k :: a) := by
      rw [getElem?_evaluations, Nat.zero_add] at hx
      obtain ⟨d, hd, rfl⟩ := Option.map_eq_some_iff.1 hx
      exact ⟨d, hd, rfl⟩
    have hany : ∀ x ∈ evaluations a 0 cs, Renders (root.Kept start) x fun _ => True := by
      intro x hx
      obtain ⟨k, hk⟩ := List.getElem?_of_mem hx
      obtain ⟨d, hd, rfl⟩ := hxs k x hk
      exact (hchild k d hd).trivially
    rw [evaluate]
    refine .calculation a ?_
    show Renders _ _ info.style.Admits
    rcases hstyle : op.style? with _ | style
    · -- the operation hands on what children give
      obtain ⟨hnonempty, hrefines⟩ := hnode.handed hstyle
      have hhanded : ∀ k ∈ op.handedOn, ∀ x, (evaluations a 0 cs)[k]? = some x →
          Renders (root.Kept start) x info.style.Admits := by
        intro k hk x hx
        obtain ⟨d, hd, rfl⟩ := hxs k x hx
        exact (hchild k d hd).mono (hrefines k hk d hd)
      cases op with
      | choice => exact .run_choice hany hhanded
      | cache os => exact .run_cache (kept_iff hat) hhanded
      | _ => exact absurd rfl hnonempty
    · obtain rfl : info.style = style := hnode.own style hstyle
      refine op.run_renders hstyle hany (fun k x hx hwants => ?_) a
      obtain ⟨d, hd, rfl⟩ := hxs k x hx
      exact (hchild k d hd).mono fun v => (hnode.lists k d hd hwants).exists_list

/-! ## Styled nodes -/

/-- The tree is styled and gives single values. -/
structure Single (c : Calc) : Prop where
  tree : c.Every Styled
  single : c.IsSingle

/-- The tree is styled and gives a set in full. -/
structure Held (c : Calc) : Prop where
  tree : c.Every Styled
  held : c.IsHeld

/-- The tree is styled, and gives single values unless the type is that of a set. -/
structure Fits (t : ExprType) (c : Calc) : Prop where
  tree : c.Every Styled
  single : t.isSet = false → c.IsSingle

variable {c d : Calc} {t u : ExprType} {info : CalcInfo} {op : Operation} {cs : List Calc}

theorem Fits.congr (h : c.Fits t) (htu : u.isSet = t.isSet) : c.Fits u :=
  ⟨h.tree, fun hu => h.single (htu.symm.trans hu)⟩

theorem Single.fits (h : c.Single) (t : ExprType) : c.Fits t := ⟨h.tree, fun _ => h.single⟩

theorem fits_of_isSet (h : c.Every Styled) (ht : t.isSet = true) : c.Fits t :=
  ⟨h, fun hfalse => Bool.noConfusion (ht.symm.trans hfalse)⟩

theorem Single.refines_value (h : c.Single) : c.style.Refines .value := by
  intro v hv
  rcases h.single with hs | hs
  all_goals rw [hs] at hv
  · exact hv
  · exact hv.1

theorem Held.refines_list (h : c.Held) : c.style.Refines .list := fun _ => h.held.exists_list

theorem styled_node (hstyle : op.style? = some info.style)
    (hlists : ∀ k d, cs[k]? = some d → op.wantsList k = true → d.IsHeld)
    (hcs : ∀ c ∈ cs, c.Every Styled) : (node info op cs).Every Styled := by
  refine .node ⟨fun style h => ?_, fun hnone => ?_, hlists⟩ hcs
  · exact Option.some.inj (hstyle.symm.trans h)
  · cases hstyle.symm.trans hnone

/-- A node for a single value wants no lists. -/
theorem single_node (hstyle : op.style? = some info.style)
    (h : info.style = .value ∨ info.style = .valueNotNull) (hcs : ∀ c ∈ cs, c.Every Styled) :
    (node info op cs).Single := by
  refine ⟨styled_node hstyle (fun k d _ hwants => ?_) hcs, h⟩
  rw [op.wantsList_of_single hstyle h] at hwants
  cases hwants

theorem defaultStyle_of_isSet (ht : t.isSet = true) : defaultStyle t = .list := if_pos ht

theorem defaultStyle_of_not_isSet (ht : t.isSet = false) : defaultStyle t = .value :=
  if_neg (ht ▸ Bool.false_ne_true)

theorem single_constant {v : Value} (hv : constantStyle v = .value ∨ constantStyle v = .valueNotNull)
    (type : ExprType) : (constant v type).Single :=
  single_node rfl hv (List.forall_mem_nil _)

theorem single_currentMember (hc : c.Every Styled) : (currentMember c).Single :=
  single_node rfl (.inr rfl) hc.one

theorem single_memberValue (hc : c.Every Styled) : (memberValue [c]).Single :=
  single_node rfl (.inl rfl) hc.one

/-- A conversion between single values. -/
theorem single_adapted {a : Adapter} (ha : a.style = .value) (hc : c.Every Styled)
    (type : ExprType) : (adapted a c type).Single :=
  single_node rfl (.inl ha) hc.one

/-- A conversion to a set in full. -/
theorem held_adapted {a : Adapter} (ha : a.style = .list ∨ a.style = .mutableList)
    (hcopy : a ≠ .mutableCopy) (hc : c.Every Styled) (type : ExprType) : (adapted a c type).Held := by
  refine ⟨styled_node rfl (fun k d _ hwants => ?_) hc.one, ha⟩
  cases a with
  | mutableCopy => exact absurd rfl hcopy
  | _ => cases hwants

theorem held_mutableCopy (hc : c.Held) (type : ExprType) :
    (adapted .mutableCopy c type).Held := by
  refine ⟨styled_node rfl (fun k d hd hwants => ?_) hc.tree.one, .inr rfl⟩
  obtain rfl : k = 0 := eq_of_beq hwants
  cases hd
  exact hc.held

theorem restyle_styled (hc : c.Every Styled) (accepted : List ResultStyle) :
    Produces (Every Styled) (c.restyle accepted) := by
  have hmaterialized := held_adapted (a := .materialize) (.inl rfl) nofun hc c.type
  unfold restyle
  dsimp only
  split
  · exact .ok hc
  · split
    · split
      · exact .ok hmaterialized.tree
      · split
        · exact .ok (held_mutableCopy hmaterialized _).tree
        · exact .error
    · rename_i hstyle
      split
      · exact .ok (held_mutableCopy ⟨hc, .inl hstyle⟩ _).tree
      · split
        · exact .ok hc
        · exact .error
    · split
      · exact .ok hc
      · exact .error
    · split
      · exact .ok hc
      · exact .error
    · exact .error

/-- Where a single value is wanted, there is one. -/
theorem restyle_toSingle (hc : c.Every Styled) :
    Produces Single (c.restyle [.value, .valueNotNull]) := by
  intro d hd
  refine ⟨restyle_styled hc _ d hd, ?_⟩
  unfold restyle at hd
  rcases hs : c.style <;> rw [hs] at hd <;> cases hd
  · exact .inl hs
  · exact .inr hs

end Calc

/-! ## Operands -/

/-- The operand compiles to styled trees, and unless it is a set, these give single values. -/
def Operand.Honest (o : Operand) : Prop := ∀ styles, Produces (Calc.Fits o.type) (o.compile styles)

namespace Operand.Honest

open Calc

variable {o : Operand} (ho : o.Honest) (styles : List ResultStyle)
include ho

/-- An operand that is not a set compiles to a single value. -/
theorem compile (ht : o.type.isSet = false) : Produces Single (o.compile styles) :=
  (ho styles).mono fun _ h => ⟨h.tree, h.single ht⟩

theorem compileAs (accepted : List ResultStyle) :
    Produces (Every Styled) (o.compileAs accepted) :=
  (ho accepted).bind fun _ h => restyle_styled h.tree accepted

theorem hierarchy : Produces Single (o.hierarchy styles) := by
  unfold Operand.hierarchy
  split
  · rename_i heq
    exact ho.compile styles (by rw [heq]; rfl)
  · exact (ho styles).bind fun c h => .ok (single_adapted rfl h.tree _)
  · exact (ho styles).bind fun c h => .ok (single_adapted rfl h.tree _)
  · exact (ho styles).bind fun c h => .ok (single_node rfl (.inl rfl) h.tree.one)
  · exact .error

theorem member : Produces Single (o.member styles) := by
  unfold Operand.member
  split
  · rename_i heq
    exact ho.compile styles (by rw [heq]; rfl)
  · rename_i heq
    exact ho.compile styles (by rw [heq]; rfl)
  · exact (ho.hierarchy styles).bind fun c h => .ok (single_currentMember h.tree)
  · exact (ho.hierarchy styles).bind fun c h => .ok (single_currentMember h.tree)
  · exact .error

theorem level : Produces Single (o.level styles) := by
  unfold Operand.level
  split
  · rename_i heq
    exact ho.compile styles (by rw [heq]; rfl)
  · exact .error

theorem tuple : Produces Single (o.tuple styles) := by
  unfold Operand.tuple
  split
  · rename_i heq
    exact ho.compile styles (by rw [heq]; rfl)
  · exact (ho styles).bind fun c h => .ok (single_adapted rfl h.tree _)
  · exact (ho.member styles).bind fun c h => .ok (single_adapted rfl h.tree _)
  · exact (ho.member styles).bind fun c h => .ok (single_adapted rfl h.tree _)
  · exact .error

theorem scalar : Produces Single (o.scalar styles) := by
  unfold Operand.scalar
  split
  · exact (ho styles).bind fun c h => .ok (single_memberValue h.tree)
  · exact (ho styles).bind fun c h => .ok (single_node rfl (.inl rfl) h.tree.one)
  · exact (ho.member styles).bind fun c h => .ok (single_memberValue h.tree)
  · exact (ho.member styles).bind fun c h => .ok (single_memberValue h.tree)
  · split
    · exact (ho _).bind fun c h => restyle_toSingle h.tree
    · exact .error

theorem double : Produces Single (o.double styles) := by
  refine (ho.scalar styles).bind fun c h => .ok ?_
  split
  · exact single_adapted rfl h.tree _
  · exact h

theorem list (owned : Bool := false) : Produces Held (o.list styles owned) := by
  have htree : Produces (Every Styled) (o.list styles owned) := by
    unfold Operand.list
    split
    · exact ho.compileAs _
    · exact (ho styles).bind fun c h => .ok (held_adapted (.inr rfl) (by decide) h.tree _).tree
    · exact (ho styles).bind fun c h => .ok (held_adapted (.inr rfl) (by decide) h.tree _).tree
    · exact (ho.member styles).bind fun c h => .ok (held_adapted (.inr rfl) (by decide) h.tree _).tree
    · exact (ho.member styles).bind fun c h => .ok (held_adapted (.inr rfl) (by decide) h.tree _).tree
    · exact .error
  exact fun c hc => ⟨htree c hc, o.list_isHeld styles owned c hc⟩

theorem iterable : Produces (Every Styled) (o.iterable styles) := by
  unfold Operand.iterable
  split
  · exact ho.compileAs _
  · exact (ho.list styles).mono fun c h => h.tree

end Operand.Honest

end Olap
