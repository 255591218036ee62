import Olap.Proofs.Calc.WellFormed

/-!
# Compiling gives well-formed trees

Each function compiles its calls to well-formed trees, given operands that do so, and so does every
expression that refers to members and hierarchies of the domain only (`Expr.compile_formed`). The values
that the nodes of these trees hold are values in the expression (`Expr.compile_compiled`).
-/

set_option autoImplicit false

namespace Olap

namespace BoundCall

open Calc Operand.Formed

variable {cube : Cube} {H : Demand} {typed : Prop} {c : BoundCall} {styles : List ResultStyle}

theorem operand_produces {P : Operand → Prop} (hc : ∀ o ∈ c.operands, P o) (k : Nat) :
    Produces P (c.operand k) := by
  unfold operand
  split
  · exact .ok (hc _ (List.mem_of_getElem? (by assumption)))
  · exact .error

/-! ## Calls with flags

Descendants and sorts read a word before they compile the rest. Each part is named here, and compiling the
call is putting the parts together. -/

/-- What tells how far the descendants that a call asks for reach. -/
def descendantsTarget (c : BoundCall) : DescendantsTarget :=
  if c.takes 1 .level then .level else if c.takes 1 .integer then .distance else .unbounded

/-- Which descendants a call asks for: those that its flag names. Without one it is the members at the
target, or the whole subtree if there is no target. -/
def descendantsFlag (c : BoundCall) : Except CalcError DescendantsFlag := do
  match ← c.word? 2 with
  | some word =>
    match DescendantsFlag.ofWord? word with
    | some flag => return flag
    | none => throw (.invalidArgument "Descendants" s!"unknown flag {word}")
  | none => return if c.descendantsTarget = .unbounded then .selfBeforeAfter else .self

/-- Compiles the operand that tells how far descendants reach, if there is one. -/
def descendantsLimit (c : BoundCall) (styles : List ResultStyle) : Except CalcError (List Calc) :=
  match c.descendantsTarget with
  | .level => do return [← (← c.operand 1).level styles]
  | .distance => do return [← (← c.operand 1).scalar styles]
  | .unbounded => return []

theorem descendants_eq (c : BoundCall) (styles : List ResultStyle) :
    c.descendants styles = (do
      let m ← (← c.operand 0).member styles
      let flag ← c.descendantsFlag
      let rest ← c.descendantsLimit styles
      return .plain "Descendants" c.type (.descendants c.descendantsTarget flag) (m :: rest)) := by
  unfold descendants descendantsFlag descendantsLimit descendantsTarget
  generalize (if c.takes 1 .level then DescendantsTarget.level
    else if c.takes 1 .integer then .distance else .unbounded) = target
  refine bind_congr fun o => bind_congr fun m => ?_
  dsimp only
  rw [bind_assoc]
  refine bind_congr fun word => ?_
  rcases word with _ | word
  · cases target <;> simp
  · dsimp only
    rcases DescendantsFlag.ofWord? word with _ | flag
    · rfl
    · cases target <;> simp

theorem descendantsLimit_produces {P : Calc → Prop}
    (hlevel : ∀ o ∈ c.operands, Produces P (o.level styles))
    (hscalar : ∀ o ∈ c.operands, Produces P (o.scalar styles)) :
    Produces (fun rest => rest = [] ∨ ∃ k, P k ∧ rest = [k]) (c.descendantsLimit styles) := by
  unfold descendantsLimit
  cases c.descendantsTarget with
  | level =>
    exact (operand_produces hlevel 1).bind fun o ho => ho.bind fun k hk => .ok (.inr ⟨k, hk, rfl⟩)
  | distance =>
    exact (operand_produces hscalar 1).bind fun o ho => ho.bind fun k hk => .ok (.inr ⟨k, hk, rfl⟩)
  | unbounded => exact .ok (.inl rfl)


/-- The mode in which a call of `Order` sorts: the one that its flag names, or else the ascending
one along the hierarchy. -/
def sortMode (c : BoundCall) : Except CalcError SortMode := do
  match ← c.word? 2 with
  | none => return ⟨false, false⟩
  | some word =>
    match SortMode.ofWord? word with
    | some mode => return mode
    | none => throw (.invalidArgument "Order" s!"unknown flag {word}")

/-- Compiles a sort in a given mode. -/
def sorted (c : BoundCall) (styles : List ResultStyle) (mode : SortMode) :
    Except CalcError Calc := do
  let set ← (← c.operand 0).list styles
  let byText := c.takes 1 .string
  let o ← c.operand 1
  let key ← if byText then o.scalar styles else o.double styles
  return ((Calc.plain "Order" c.type (.order mode byText) [set, key]).withStyle
    .mutableList).withRule .allButFirst

/-- The flag of a sort is read first, and the rest is compiled for the mode that it names. -/
theorem order_eq (c : BoundCall) (styles : List ResultStyle) :
    c.order styles = c.sortMode >>= c.sorted styles := by
  unfold order sortMode
  rw [bind_assoc]
  refine bind_congr fun word => ?_
  rcases word with _ | word
  · rfl
  · dsimp only
    rcases SortMode.ofWord? word with _ | mode <;> rfl

section
variable (hc : ∀ o ∈ c.operands, o.Formed cube H typed)
include hc

/-! ## Operators -/

theorem arithmetic_formed (op : ArithmeticOp) :
    Produces (Calc.Compiled cube H typed) (c.arithmetic op styles) := by
  refine (operand_produces hc 0).bind fun l hl => (operand_produces hc 1).bind fun r hr => ?_
  split
  · exact (hl.scalar styles).bind fun x hx => (hr.scalar styles).bind fun y hy =>
      .ok (.node rfl trivial rfl (hx.two hy))
  · exact (hl.double styles).bind fun x hx => (hr.double styles).bind fun y hy =>
      .ok (.node rfl trivial rfl (hx.two hy))

theorem negate_formed : Produces (Calc.Compiled cube H typed) (c.negate styles) := by
  refine (operand_produces hc 0).bind fun o ho => ?_
  split
  · exact (ho.scalar styles).bind fun x hx => .ok (.node rfl trivial rfl hx.one)
  · exact (ho.double styles).bind fun x hx => .ok (.node rfl trivial rfl hx.one)

theorem compare_formed (op : Comparison) :
    Produces (Calc.Compiled cube H typed) (c.compare op styles) := by
  refine (operand_produces hc 0).bind fun l hl => (operand_produces hc 1).bind fun r hr => ?_
  split
  · exact (hl.scalar styles).bind fun x hx => (hr.scalar styles).bind fun y hy =>
      .ok (.node rfl trivial rfl (hx.two hy))
  · exact (hl.double styles).bind fun x hx => (hr.double styles).bind fun y hy =>
      .ok (.node rfl trivial rfl (hx.two hy))

theorem logical_formed {op : Operation} (name : String) (hrule : op.rule = .anyChild)
    (hw : op.Holds H) (hp : op.isParticular = false) :
    Produces (Calc.Compiled cube H typed) (c.logical name op styles) := by
  refine (operand_produces hc 0).bind fun l hl => (hl.scalar styles).bind fun x hx => ?_
  refine (operand_produces hc 1).bind fun r hr => (hr.scalar styles).bind fun y hy => ?_
  exact .ok (.node hrule.symm hw hp (hx.two hy))

theorem choice_formed : Produces (Calc.Compiled cube H typed) (c.choice styles) := by
  refine (operand_produces hc 0).bind fun o ho => (ho.scalar styles).bind fun x hx => ?_
  refine (operand_produces hc 1).bind fun o ho =>
    Produces.bind (P := Calc.Compiled cube H typed) ?_ fun y hy => ?_
  · split
    · exact ho.member styles
    · exact ho.list styles false
    · exact ho.scalar styles
  refine (operand_produces hc 2).bind fun o ho =>
    Produces.bind (P := Calc.Compiled cube H typed) ?_ fun z hz => ?_
  · split
    · exact ho.member styles
    · exact ho.list styles false
    · exact ho.scalar styles
  exact .ok (.node rfl trivial rfl (hx.three hy hz))

/-! ## Navigation -/

theorem members_formed : Produces (Calc.Compiled cube H typed) (c.members styles) := by
  refine (operand_produces hc 0).bind fun o ho => ?_
  split
  · exact (ho.level styles).bind fun x hx => .ok (.node rfl trivial rfl hx.one)
  · exact (ho.hierarchyTree styles).bind fun x hx => .ok (.node rfl trivial rfl hx.one)

theorem descendants_formed : Produces (Calc.Compiled cube H typed) (c.descendants styles) := by
  rw [descendants_eq]
  refine (operand_produces hc 0).bind fun o ho => (ho.member styles).bind fun m hm => ?_
  refine Produces.anything.bind fun flag _ => ?_
  refine (descendantsLimit_produces (fun o ho => (hc o ho).level styles) fun o ho =>
    (hc o ho).scalar styles).bind fun rest hrest => ?_
  rcases hrest with rfl | ⟨k, hk, rfl⟩
  · exact .ok (.node rfl trivial rfl hm.one)
  · exact .ok (.node rfl trivial rfl (hm.two hk))

theorem drilldownMember_formed :
    Produces (Calc.Compiled cube H typed) (c.drilldownMember styles) := by
  refine (operand_produces hc 0).bind fun o ho => (ho.list styles false).bind fun x hx => ?_
  refine (operand_produces hc 1).bind fun o ho => (ho.list styles false).bind fun y hy => ?_
  exact Produces.anything.bind fun word _ => .ok (.node rfl trivial rfl (hx.two hy))

/-! ## Sets -/

theorem crossJoin_formed : Produces (Calc.Compiled cube H typed) (c.crossJoin styles) := by
  refine (operand_produces hc 0).bind fun o ho => (ho.iterable styles).bind fun x hx => ?_
  refine (operand_produces hc 1).bind fun o ho => (ho.iterable styles).bind fun y hy => ?_
  exact .ok (.node rfl trivial rfl (hx.two hy))

theorem filter_formed : Produces (Calc.Compiled cube H typed) (c.filter styles) := by
  refine (operand_produces hc 0).bind fun o ho => (ho.iterable styles).bind fun x hx => ?_
  refine (operand_produces hc 1).bind fun o ho => (ho.scalar styles).bind fun y hy => ?_
  exact .ok (.node rfl trivial rfl (hx.two hy))

theorem nonEmpty_formed : Produces (Calc.Compiled cube H typed) (c.nonEmpty styles) := by
  refine (operand_produces hc 0).bind fun o ho => (ho.iterable styles).bind fun x hx => ?_
  split
  · exact (operand_produces hc 1).bind fun o ho => (ho.list styles false).bind fun y hy =>
      .ok (.node rfl trivial rfl (hx.two hy))
  · exact .ok (.node rfl trivial rfl hx.one)

theorem head_formed : Produces (Calc.Compiled cube H typed) (c.head styles) := by
  refine (operand_produces hc 0).bind fun o ho => (ho.list styles false).bind fun x hx => ?_
  split
  · exact (operand_produces hc 1).bind fun o ho => (ho.scalar styles).bind fun y hy =>
      .ok (.node rfl trivial rfl (hx.two hy))
  · exact .ok (.node rfl trivial rfl hx.one)

theorem count_formed : Produces (Calc.Compiled cube H typed) (c.count styles) := by
  refine Produces.anything.bind fun word _ => ?_
  refine (operand_produces hc 0).bind fun o ho => (ho.iterable styles).bind fun x hx => ?_
  exact .ok (.node rfl trivial rfl hx.one)

theorem order_formed : Produces (Calc.Compiled cube H typed) (c.order styles) := by
  rw [order_eq]
  refine Produces.anything.bind fun mode _ => ?_
  refine (operand_produces hc 0).bind fun o ho => (ho.list styles false).bind fun x hx => ?_
  refine (operand_produces hc 1).bind fun o ho => ?_
  split
  · exact (ho.scalar styles).bind fun y hy => .ok (.node rfl trivial rfl (hx.two hy))
  · exact (ho.double styles).bind fun y hy => .ok (.node rfl trivial rfl (hx.two hy))

theorem set_formed : Produces (Calc.Compiled cube H typed) (c.set styles) :=
  (Produces.mapM fun o ho => (hc o ho).element styles).bind fun _ h =>
    .ok (.node rfl trivial rfl h)

theorem tuple_formed : Produces (Calc.Compiled cube H typed) (c.tuple styles) := by
  unfold tuple
  split
  · rename_i o heq
    exact (hc o (heq ▸ List.mem_cons_self)).tree styles
  · exact (Produces.mapM fun o ho => (hc o ho).member styles).bind fun _ h =>
      .ok (.node rfl trivial rfl h)

/-! ## Others -/

theorem aggregate_formed (a : Aggregate) :
    Produces (Calc.Compiled cube H typed) (c.aggregate a styles) := by
  refine (operand_produces hc 0).bind fun o ho => (ho.iterable styles).bind fun x hx => ?_
  split
  · rename_i o heq
    exact ((hc o (List.mem_of_getElem? heq)).double styles).bind fun y hy =>
      .ok (.node rfl trivial rfl (hx.two hy))
  · exact .ok (.node rfl trivial rfl (hx.two compiled_currentValue))

theorem cache_formed : Produces (Calc.Compiled cube H typed) (c.cache cube styles) := by
  refine (operand_produces hc 0).bind fun o ho => ?_
  split
  · exact (ho.list styles false).bind fun x hx => .ok (compiled_cached hx)
  · exact (ho.scalar styles).bind fun x hx => .ok (compiled_cached hx)

theorem compile_formed : Produces (Calc.Compiled cube H typed) (c.compile cube styles) := by
  unfold BoundCall.compile
  split
  · exact arithmetic_formed hc _
  · exact negate_formed hc
  · exact compare_formed hc _
  · exact logical_formed hc _ rfl trivial rfl
  · exact logical_formed hc _ rfl trivial rfl
  · exact (operand_produces hc 0).bind fun o ho => (ho.scalar styles).bind fun x hx =>
      .ok (.node rfl trivial rfl hx.one)
  · exact choice_formed hc
  · exact (operand_produces hc 0).bind fun o ho => (ho.hierarchy styles).bind fun x hx =>
      .ok (compiled_currentMember hx.1 hx.2)
  · exact members_formed hc
  · exact (operand_produces hc 0).bind fun o ho => (ho.member styles).bind fun x hx =>
      .ok (.node rfl trivial rfl hx.one)
  · exact (operand_produces hc 0).bind fun o ho => (ho.member styles).bind fun x hx =>
      .ok (.node rfl trivial rfl hx.one)
  · exact descendants_formed hc
  · exact drilldownMember_formed hc
  · exact crossJoin_formed hc
  · exact filter_formed hc
  · exact nonEmpty_formed hc
  · exact head_formed hc
  · exact count_formed hc
  · exact order_formed hc
  · exact set_formed hc
  · exact tuple_formed hc
  · exact aggregate_formed hc _
  · exact cache_formed hc
  · exact (operand_produces hc 0).bind fun o ho => ho.scalar styles
  · exact .error

end

end BoundCall

/-! ## Expressions -/

namespace Expr

mutual

/-- The members, hierarchies and dimensions in an expression are within the domain. -/
def Within (D : Domain) : Expr → Prop
  | member m => D.member m
  | hierarchy h => D.hierarchy h
  | dimension d => d.Within D
  | call _ _ args => AllWithin D args
  | bound _ _ args => AllWithin D args
  | convert e _ _ => e.Within D
  | _ => True

def AllWithin (D : Domain) : List Expr → Prop
  | [] => True
  | e :: es => e.Within D ∧ AllWithin D es

end

mutual

/-- The values in an expression are as demanded. -/
def Holds (H : Demand) : Expr → Prop
  | literal l => H.constant l.value
  | member m => H.constant (.member m)
  | level l => H.constant (.level l)
  | hierarchy h => H.constant (.hierarchy h)
  | dimension d => H.constant (.dimension d)
  | parameter p => H.parameter p.name p.default.value
  | call _ _ args => AllHold H args
  | bound _ _ args => AllHold H args
  | convert e _ _ => e.Holds H

def AllHold (H : Demand) : List Expr → Prop
  | [] => True
  | e :: es => e.Holds H ∧ AllHold H es

end

theorem within_literal {D : Domain} (l : Literal) : l.value.Within D := by
  cases l <;> trivial

mutual

theorem holds_of_within {D : Domain} : ∀ e : Expr, e.Within D → e.Holds D.demand
  | literal l, _ => within_literal l
  | member _, h => h
  | level _, _ => trivial
  | hierarchy _, h => h
  | dimension _, h => h
  | parameter p, _ => within_literal p.default
  | call _ _ args, h => allHold_of_allWithin args h
  | bound _ _ args, h => allHold_of_allWithin args h
  | convert e _ _, h => holds_of_within e h

theorem allHold_of_allWithin {D : Domain} :
    ∀ es : List Expr, AllWithin D es → AllHold D.demand es
  | [], _ => trivial
  | e :: es, h => ⟨holds_of_within e h.1, allHold_of_allWithin es h.2⟩

end

mutual

/-- Only groups have the type of a hierarchy among the bound calls, that of their element, and only
conversions to hierarchies among the conversions. -/
def WellTyped : Expr → Prop
  | bound d type args =>
    (type.isHierarchy = true → d.body = .tuple ∧ ∃ e, args = [e] ∧ e.type = type) ∧
      AllWellTyped args
  | convert e target kind =>
    (target.isHierarchy = true → kind = .dimensionToHierarchy ∨ kind = .levelToHierarchy) ∧
      e.WellTyped
  | _ => True

def AllWellTyped : List Expr → Prop
  | [] => True
  | e :: es => e.WellTyped ∧ AllWellTyped es

end

variable {cube : Cube} {H : Demand} {typed : Prop}

theorem formed_leaf {e : Expr} {c : Calc} (htree : c.Compiled cube H typed)
    (htype : e.type.isHierarchy = true → c.type.isHierarchy = true) :
    (Operand.mk e fun _ => .ok c).Formed cube H typed :=
  ⟨fun _ => .ok htree, fun _ h _ => .ok (htype h)⟩

mutual

theorem formed : ∀ e : Expr, e.Holds H → (typed → e.WellTyped) →
    (e.toOperand cube).Formed cube H typed
  | literal l, hv, _ => formed_leaf (Calc.compiled_constant hv _) (by cases l <;> rintro ⟨⟩)
  | member m, hv, _ => formed_leaf (Calc.compiled_constant hv _) (by rintro ⟨⟩)
  | level l, hv, _ => formed_leaf (Calc.compiled_constant hv _) (by rintro ⟨⟩)
  | hierarchy h, hv, _ => formed_leaf (Calc.compiled_constant hv _) fun _ => rfl
  | dimension d, hv, _ => formed_leaf (Calc.compiled_constant hv _) (by rintro ⟨⟩)
  | parameter p, hv, _ =>
    formed_leaf (Calc.Compiled.node rfl hv rfl (List.forall_mem_nil _)) fun h => h
  | call name form args, _, _ => ⟨fun _ => .error, fun _ _ _ => .error⟩
  | bound d type args, hw, ht => by
    have hargs := allFormed args hw fun h => (ht h).2
    refine ⟨fun styles => BoundCall.compile_formed hargs, fun htyped h styles => ?_⟩
    obtain ⟨hbody, e, rfl, htype⟩ := (ht htyped).1 h
    show Produces _ (BoundCall.compile ⟨d, type, operands cube [e]⟩ cube styles)
    rw [BoundCall.compile, hbody]
    rw [← htype] at h
    exact (hargs _ List.mem_cons_self).type htyped h styles
  | convert e target kind, hw, ht => by
    have he := formed e hw fun h => (ht h).2
    refine ⟨fun styles => he.converted styles target kind, fun htyped h styles => ?_⟩
    show Produces _ (Operand.converted _ target kind styles)
    rcases (ht htyped).1 h with rfl | rfl
    · exact fun c hc => (he.hierarchy styles c hc).2 htyped
    · exact fun c hc => (he.hierarchy styles c hc).2 htyped

theorem allFormed : ∀ es : List Expr, AllHold H es → (typed → AllWellTyped es) →
    ∀ o ∈ operands cube es, o.Formed cube H typed
  | [], _, _ => List.forall_mem_nil _
  | e :: es, hw, ht =>
    List.forall_mem_cons.2 ⟨formed e hw.1 fun h => (ht h).1, allFormed es hw.2 fun h => (ht h).2⟩

end

/-- What holds of the values in an expression holds of those in its trees. -/
theorem compile_compiled {e : Expr} (hv : e.Holds H) (ht : typed → e.WellTyped)
    {styles : List ResultStyle} {c : Calc} (hc : e.compile cube styles = .ok c) :
    c.Compiled cube H typed :=
  (formed e hv ht).tree styles c hc

/-- An expression over the domain compiles to well-formed trees. -/
theorem compile_formed {D : Domain} {e : Expr} (hw : e.Within D) (ht : typed → e.WellTyped)
    {styles : List ResultStyle} {c : Calc} (hc : e.compile cube styles = .ok c) :
    c.Formed cube D typed :=
  (compile_compiled (holds_of_within e hw) ht hc).mono fun _ h => h.wellFormed

end Expr

end Olap
