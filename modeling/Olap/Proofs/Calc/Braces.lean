import Olap.Proofs.Calc.Total
import Olap.Proofs.Function.Braces

/-!
# Trees for sets of one element

A set of one element is compiled from a conversion (`Calc.taken`) or from braces (`Calc.braced`), in both
cases from the tree of the element. Calls that differ in such an operand compile alike: either they fail
with the same error, or their trees differ in one child, at the place of the operand
(`BoundCall.Twins.compile`).
-/

set_option autoImplicit false

namespace Olap

/-! ## Outcomes in pairs -/

/-- Both fail with the same error, or both succeed with results that are related. -/
inductive Paired {ε α β : Type} (R : α → β → Prop) : Except ε α → Except ε β → Prop
  | ok {a : α} {b : β} (h : R a b) : Paired R (.ok a) (.ok b)
  | error (e : ε) : Paired R (.error e) (.error e)

namespace Paired

variable {ε α β γ δ : Type} {R : α → β → Prop} {S : γ → δ → Prop}

theorem bind {x : Except ε α} {y : Except ε β} {f : α → Except ε γ} {g : β → Except ε δ}
    (h : Paired R x y) (hfg : ∀ a b, R a b → Paired S (f a) (g b)) :
    Paired S (x >>= f) (y >>= g) := by
  cases h with
  | ok h => exact hfg _ _ h
  | error e => exact .error e

/-- After the same outcome. -/
theorem after {x : Except ε α} {f : α → Except ε γ} {g : α → Except ε δ}
    (hfg : ∀ a, Paired S (f a) (g a)) : Paired S (x >>= f) (x >>= g) := by
  cases x with
  | ok a => exact hfg a
  | error e => exact .error e

theorem mono {R' : α → β → Prop} {x : Except ε α} {y : Except ε β} (h : Paired R x y)
    (hR : ∀ a b, R a b → R' a b) : Paired R' x y := by
  cases h with
  | ok h => exact .ok (hR _ _ h)
  | error e => exact .error e

theorem exists_ok {x : Except ε α} {y : Except ε β} {a : α} (h : Paired R x y) (hx : x = .ok a) :
    ∃ b, y = .ok b ∧ R a b := by
  cases h with
  | ok h =>
    cases hx
    exact ⟨_, rfl, h⟩
  | error e => cases hx

end Paired

/-! ## Sets of one element -/

/-- The conversion that takes an element for a set. -/
def Adapter.ofElement : ExprType → Adapter
  | .tuple _ => .tupleToSet
  | _ => .memberToSet

namespace Calc

/-- The element, taken for a set. -/
def taken (t : ExprType) (element : Calc) : Calc := adapted (.ofElement t) element (.set t)

/-- The set that is made of the element. -/
def braced (t : ExprType) (element : Calc) : Calc :=
  (plain "\x7b\x7d" (.set t) (.set (max t.arity 1)) [element]).withStyle .mutableList

/-- The trees of a set of one element, by a conversion and by braces. -/
inductive OneElement (cube : Cube) (e : Expr) : Calc → Calc → Prop
  | of {styles : List ResultStyle} {element : Calc} (h : e.compile cube styles = .ok element) :
      OneElement cube e (taken e.type element) (braced e.type element)

/-- Both trees give lists that belong to the caller, and they depend on the same hierarchies. -/
theorem OneElement.alike {cube : Cube} {e : Expr} {x y : Calc} (h : OneElement cube e x y) :
    y.type = x.type ∧ x.style = .mutableList ∧ y.style = .mutableList ∧
      y.dependentHierarchies cube = x.dependentHierarchies cube := by
  cases h with
  | of h =>
    refine ⟨rfl, ?_, rfl, rfl⟩
    unfold taken Adapter.ofElement
    cases e.type <;> rfl

end Calc

section
variable {cube : Cube} {e : Expr} (he : e.type.IsElement) (styles : List ResultStyle)
include he

theorem Expr.compile_taken : (Expr.convert e (.set e.type) .toSet).compile cube styles =
    (do return .taken e.type (← e.compile cube styles)) := by
  have htype (t : ExprType) (h : e.type = t) : (Operand.mk e (e.compile cube)).type = t := h
  rw [Expr.compile, Operand.converted, Operand.list]
  obtain ⟨s, h⟩ | ⟨ss, h⟩ := he.eq <;> rw [htype _ h, h] <;> rfl

theorem Expr.compile_braced : e.braced.compile cube styles =
    (do return .braced e.type (← e.compile cube styles)) := by
  have helement : BoundCall.element styles ⟨e, e.compile cube⟩ = e.compile cube styles := by
    have htype (t : ExprType) (h : e.type = t) : (Operand.mk e (e.compile cube)).type = t := h
    rw [BoundCall.element]
    obtain ⟨s, h⟩ | ⟨ss, h⟩ := he.eq
    · rw [htype _ h, Operand.member, htype _ h]
    · rw [htype _ h, Operand.tuple, htype _ h]
  rw [Expr.braced, Expr.compile]
  show BoundCall.set ⟨.ofBraces [e.type.category], .set e.type, [⟨e, e.compile cube⟩]⟩ styles = _
  rw [BoundCall.set, List.mapM_cons, List.mapM_nil, helement]
  cases e.compile cube styles <;> rfl

end

/-! ## Operands that are twins -/

/-- The operands are sets, and compile alike to trees that are related. -/
structure Operand.Twins (R : Calc → Calc → Prop) (o o' : Operand) : Prop where
  isSet : o.type.isSet = true ∧ o'.type.isSet = true
  list : ∀ styles, Paired R (o.list styles) (o'.list styles)
  iterable : ∀ styles, Paired R (o.iterable styles) (o'.iterable styles)

/-- The conversion and the braces of an element are twins. -/
theorem Expr.taken_twins {cube : Cube} {e : Expr} (he : e.type.IsElement) :
    Operand.Twins (Calc.OneElement cube e)
      ((Expr.convert e (.set e.type) .toSet).toOperand cube) (e.braced.toOperand cube) := by
  -- both give a list that belongs to the caller, which every caller of a set accepts
  have hcompile (accepted : List ResultStyle) (hlists : accepted.contains .mutableList = true) :
      Paired (Calc.OneElement cube e)
        (((Expr.convert e (.set e.type) .toSet).toOperand cube).compileAs accepted)
        ((e.braced.toOperand cube).compileAs accepted) := by
    have hstyle {x y : Calc} (h : Calc.OneElement cube e x y) :
        x.restyle accepted = .ok x ∧ y.restyle accepted = .ok y := by
      obtain ⟨-, hx, hy, -⟩ := h.alike
      rw [Calc.restyle, Calc.restyle, hx, hy, hlists]
      exact ⟨rfl, rfl⟩
    have htrees : Paired (Calc.OneElement cube e)
        ((Expr.convert e (.set e.type) .toSet).compile cube accepted)
        (e.braced.compile cube accepted) := by
      rw [compile_taken he, compile_braced he]
      rcases hinner : e.compile cube accepted with err | element
      · exact .error err
      · exact .ok (.of hinner)
    refine htrees.bind fun x y hxy => ?_
    obtain ⟨hx, hy⟩ := hstyle hxy
    rw [hx, hy]
    exact .ok hxy
  exact ⟨⟨rfl, rfl⟩, fun _ => hcompile _ rfl, fun _ => hcompile _ rfl⟩

/-! ## Calls that are twins -/

/-- The places of operands that are sets: an operation evaluates the operand between the given ones
first, or after the first one, or not at all. -/
inductive Operation.SetPlace : Operation → List Calc → List Calc → Prop
  | yes (condition no : Calc) : SetPlace .choice [condition] [no]
  | no (condition yes : Calc) : SetPlace .choice [condition, yes] []
  | drilled (recursive : Bool) (targets : Calc) : SetPlace (.drilldownMember recursive) [] [targets]
  | targets (recursive : Bool) (set : Calc) : SetPlace (.drilldownMember recursive) [set] []
  | left (onDemand : Bool) (right : Calc) : SetPlace (.crossJoin onDemand) [] [right]
  | right (onDemand : Bool) (left : Calc) : SetPlace (.crossJoin onDemand) [left] []
  | filtered (condition : Calc) : SetPlace .filter [] [condition]
  | emptied (others : List Calc) : SetPlace .nonEmpty [] others
  | criterion (set : Calc) : SetPlace .nonEmpty [set] []
  | head (argument : List Calc) : SetPlace .head [] argument
  | counted (excludeEmpty : Bool) : SetPlace (.count excludeEmpty) [] []
  | ordered (mode : SortMode) (byText : Bool) (key : Calc) : SetPlace (.order mode byText) [] [key]
  | aggregated (a : Aggregate) (value : Calc) : SetPlace (.aggregate a) [] [value]
  | kept (ordinals : List Nat) : SetPlace (.cache ordinals) [] []

/-- The trees differ in one child, the operand at place `k`, which is a set. -/
inductive Calc.DifferAt (R : Calc → Calc → Prop) (k : Nat) : Calc → Calc → Prop
  | node {info : CalcInfo} {op : Operation} {before after : List Calc} {x y : Calc} (h : R x y)
      (hplace : op.SetPlace before after) (hk : before.length = k) :
      DifferAt R k (node info op (before ++ x :: after)) (node info op (before ++ y :: after))

namespace BoundCall

/-- The calls differ in the operands at place `k`, which are twins. -/
structure Twins (R : Calc → Calc → Prop) (k : Nat) (c c' : BoundCall) : Prop where
  definition : c'.definition = c.definition
  type : c'.type = c.type
  length : c'.operands.length = c.operands.length
  one : ∃ o o', c.operands[k]? = some o ∧ c'.operands[k]? = some o' ∧ o.Twins R o'
  others : ∀ j, j ≠ k → c'.operands[j]? = c.operands[j]?

namespace Twins

variable {R : Calc → Calc → Prop} {k : Nat} {c c' : BoundCall} {cube : Cube}

theorem operand (h : Twins R k c c') : Paired (Operand.Twins R) (c.operand k) (c'.operand k) := by
  obtain ⟨o, o', ho, ho', htwins⟩ := h.one
  rw [BoundCall.operand, BoundCall.operand, ho, ho']
  exact .ok htwins

theorem operand_ne (h : Twins R k c c') {j : Nat} (hj : j ≠ k) : c'.operand j = c.operand j := by
  rw [BoundCall.operand, BoundCall.operand, h.others j hj, name, name, h.definition]

theorem word?_ne (h : Twins R k c c') {j : Nat} (hj : j ≠ k) : c'.word? j = c.word? j := by
  rw [word?, word?, h.others j hj, name, name, h.definition]

theorem takes (h : Twins R k c c') (j : Nat) (p : Category) : c'.takes j p = c.takes j p := by
  rw [BoundCall.takes, BoundCall.takes, h.definition]

variable (styles : List ResultStyle)

theorem filter (h : Twins R 0 c c') :
    Paired (Calc.DifferAt R 0) (c.filter styles) (c'.filter styles) := by
  unfold BoundCall.filter
  rw [h.operand_ne (j := 1) (by decide), h.type]
  refine h.operand.bind fun o o' ho => (ho.iterable styles).bind fun x y hxy => ?_
  exact .after fun o => .after fun condition => .ok (.node hxy (.filtered condition) rfl)

theorem yes (h : Twins R 1 c c') (hset : c.definition.signature.result = .set) :
    Paired (Calc.DifferAt R 1) (c.choice styles) (c'.choice styles) := by
  unfold choice
  rw [h.operand_ne (j := 0) (by decide), h.operand_ne (j := 2) (by decide), h.type, h.definition, hset]
  refine .after fun o => .after fun condition => ?_
  refine h.operand.bind fun o o' ho => (ho.list styles).bind fun x y hxy => ?_
  exact .after fun o => .after fun no => .ok (.node hxy (.yes condition no) rfl)

theorem no (h : Twins R 2 c c') (hset : c.definition.signature.result = .set) :
    Paired (Calc.DifferAt R 2) (c.choice styles) (c'.choice styles) := by
  unfold choice
  rw [h.operand_ne (j := 0) (by decide), h.operand_ne (j := 1) (by decide), h.type, h.definition, hset]
  refine .after fun o => .after fun condition => .after fun o => .after fun yes => ?_
  refine h.operand.bind fun o o' ho => (ho.list styles).bind fun x y hxy => ?_
  exact .ok (.node hxy (.no condition yes) rfl)

theorem drilled (h : Twins R 0 c c') :
    Paired (Calc.DifferAt R 0) (c.drilldownMember styles) (c'.drilldownMember styles) := by
  unfold drilldownMember
  rw [h.operand_ne (j := 1) (by decide), h.word?_ne (j := 2) (by decide), h.type]
  refine h.operand.bind fun o o' ho => (ho.list styles).bind fun x y hxy => ?_
  refine .after fun o => .after fun targets => .after fun word => ?_
  exact .ok (.node hxy (.drilled _ targets) rfl)

theorem targets (h : Twins R 1 c c') :
    Paired (Calc.DifferAt R 1) (c.drilldownMember styles) (c'.drilldownMember styles) := by
  unfold drilldownMember
  rw [h.operand_ne (j := 0) (by decide), h.word?_ne (j := 2) (by decide), h.type]
  refine .after fun o => .after fun set => ?_
  refine h.operand.bind fun o o' ho => (ho.list styles).bind fun x y hxy => ?_
  exact .after fun word => .ok (.node hxy (.targets _ set) rfl)

theorem left (h : Twins R 0 c c') :
    Paired (Calc.DifferAt R 0) (c.crossJoin styles) (c'.crossJoin styles) := by
  unfold crossJoin
  rw [h.operand_ne (j := 1) (by decide), h.type]
  refine h.operand.bind fun o o' ho => (ho.iterable styles).bind fun x y hxy => ?_
  exact .after fun o => .after fun right => .ok (.node hxy (.left _ right) rfl)

theorem right (h : Twins R 1 c c') :
    Paired (Calc.DifferAt R 1) (c.crossJoin styles) (c'.crossJoin styles) := by
  unfold crossJoin
  rw [h.operand_ne (j := 0) (by decide), h.type]
  refine .after fun o => .after fun left => ?_
  refine h.operand.bind fun o o' ho => (ho.iterable styles).bind fun x y hxy => ?_
  exact .ok (.node hxy (.right _ left) rfl)

theorem emptied (h : Twins R 0 c c') :
    Paired (Calc.DifferAt R 0) (c.nonEmpty styles) (c'.nonEmpty styles) := by
  unfold nonEmpty
  rw [h.operand_ne (j := 1) (by decide), h.type, h.length]
  refine h.operand.bind fun o o' ho => (ho.iterable styles).bind fun x y hxy => ?_
  split
  · exact .after fun o => .after fun others => .ok (.node hxy (.emptied [others]) rfl)
  · exact .ok (.node hxy (.emptied []) rfl)

theorem criterion (h : Twins R 1 c c') :
    Paired (Calc.DifferAt R 1) (c.nonEmpty styles) (c'.nonEmpty styles) := by
  have hmore : 1 < c.operands.length := by
    obtain ⟨o, -, ho, -⟩ := h.one
    exact (List.getElem?_eq_some_iff.1 ho).1
  unfold nonEmpty
  rw [h.operand_ne (j := 0) (by decide), h.type, h.length]
  refine .after fun o => .after fun set => ?_
  rw [if_pos hmore, if_pos hmore]
  refine h.operand.bind fun o o' ho => (ho.list styles).bind fun x y hxy => ?_
  exact .ok (.node hxy (.criterion set) rfl)

theorem head (h : Twins R 0 c c') : Paired (Calc.DifferAt R 0) (c.head styles) (c'.head styles) := by
  unfold BoundCall.head
  rw [h.operand_ne (j := 1) (by decide), h.type, h.length]
  refine h.operand.bind fun o o' ho => (ho.list styles).bind fun x y hxy => ?_
  split
  · exact .after fun o => .after fun argument => .ok (.node hxy (.head [argument]) rfl)
  · exact .ok (.node hxy (.head []) rfl)

theorem counted (h : Twins R 0 c c') :
    Paired (Calc.DifferAt R 0) (c.count styles) (c'.count styles) := by
  unfold count
  rw [h.word?_ne (j := 1) (by decide)]
  refine .after fun word => h.operand.bind fun o o' ho => (ho.iterable styles).bind fun x y hxy => ?_
  exact .ok (.node hxy (.counted _) rfl)

theorem sortMode (h : Twins R 0 c c') : c'.sortMode = c.sortMode := by
  unfold BoundCall.sortMode
  rw [h.word?_ne (j := 2) (by decide)]

theorem ordered (h : Twins R 0 c c') :
    Paired (Calc.DifferAt R 0) (c.order styles) (c'.order styles) := by
  rw [order_eq, order_eq, h.sortMode]
  refine .after fun mode => ?_
  unfold sorted
  rw [h.operand_ne (j := 1) (by decide), h.takes, h.type]
  refine h.operand.bind fun o o' ho => (ho.list styles).bind fun x y hxy => .after fun o => ?_
  split <;> exact .after fun key => .ok (.node hxy (.ordered mode _ key) rfl)

theorem aggregated (h : Twins R 0 c c') (a : Aggregate) :
    Paired (Calc.DifferAt R 0) (c.aggregate a styles) (c'.aggregate a styles) := by
  unfold aggregate
  rw [h.others 1 (by decide), h.type, name, name, h.definition]
  refine h.operand.bind fun o o' ho => (ho.iterable styles).bind fun x y hxy => ?_
  split
  · exact .after fun value => .ok (.node hxy (.aggregated a value) rfl)
  · exact .ok (.node hxy (.aggregated a .currentValue) rfl)

/-- What is kept for two sets of one element is kept under the same hierarchies. -/
theorem kept {e : Expr} (h : Twins (Calc.OneElement cube e) 0 c c') :
    Paired (Calc.DifferAt (Calc.OneElement cube e) 0) (c.cache cube styles) (c'.cache cube styles) := by
  unfold cache
  refine h.operand.bind fun o o' ho => ?_
  rw [ho.isSet.1, ho.isSet.2]
  refine (ho.list styles).bind fun x y hxy => ?_
  obtain ⟨htype, hx, hy, hhierarchies⟩ := hxy.alike
  have hnode : y.cached cube = .node (x.cached cube).info (x.cached cube).operation [y] := by
    unfold Calc.cached
    rw [htype, hx, hy, hhierarchies]
    rfl
  show Paired _ (Except.ok (x.cached cube)) (Except.ok (y.cached cube))
  rw [hnode]
  exact .ok (.node hxy (.kept _) rfl)

/-- Only the first parameter is a set. -/
theorem place_eq_zero {p : Category} {ps : List Category} (hps : Category.set ∉ ps)
    (hset : (p :: ps)[k]? = some .set) : k = 0 := by
  cases k with
  | zero => rfl
  | succ k =>
    rw [List.getElem?_cons_succ] at hset
    exact absurd (List.mem_of_getElem? hset) hps

/-- Calls that differ in a set of one element compile alike. -/
theorem compile {e : Expr} (h : Twins (Calc.OneElement cube e) k c c') (hd : c.definition.Standard)
    (hbody : c.definition.body ≠ .set ∧ c.definition.body ≠ .tuple)
    (hset : c.definition.signature.parameters[k]? = some .set) :
    Paired (Calc.DifferAt (Calc.OneElement cube e) k) (c.compile cube styles)
      (c'.compile cube styles) := by
  have hmem := List.mem_of_getElem? hset
  unfold BoundCall.compile
  rw [h.definition]
  unfold Definition.Standard at hd
  generalize c.definition.body = body, c.definition.signature.parameters = ps,
    c.definition.resultRule = rule, c.definition.reserved = reserved at hd hbody hset hmem
  generalize hresult : c.definition.signature.result = result at hd
  cases hd with
  | choice hc =>
    rcases k with _ | _ | _ | k
    · cases hset
    · cases hset
      exact h.yes styles hresult
    · cases hset
      exact h.no styles hresult
    · cases hset
  | drilldownMember hps =>
    rcases k with _ | k
    · exact h.drilled styles
    · rw [List.getElem?_cons_succ] at hset
      obtain rfl := place_eq_zero
        ((by decide : ∀ ps ∈ [[], [Category.symbol]], Category.set ∉ ps) _ hps) hset
      exact h.targets styles
  | crossJoin =>
    rcases k with _ | k
    · exact h.left styles
    · rw [List.getElem?_cons_succ] at hset
      obtain rfl := place_eq_zero (by decide) hset
      exact h.right styles
  | filter =>
    obtain rfl := place_eq_zero (by decide) hset
    exact h.filter styles
  | nonEmpty hps =>
    rcases k with _ | k
    · exact h.emptied styles
    · rw [List.getElem?_cons_succ] at hset
      rcases List.mem_cons.1 hps with rfl | hps
      · cases hset
      · obtain rfl := List.mem_singleton.1 hps
        obtain rfl := place_eq_zero (by decide) hset
        exact h.criterion styles
  | head hps =>
    obtain rfl := place_eq_zero
      ((by decide : ∀ ps ∈ [[], [Category.integer]], Category.set ∉ ps) _ hps) hset
    exact h.head styles
  | count hps =>
    obtain rfl := place_eq_zero
      ((by decide : ∀ ps ∈ [[], [Category.symbol]], Category.set ∉ ps) _ hps) hset
    exact h.counted styles
  | @order p ps hp hps =>
    have hrest : Category.set ∉ p :: ps := by
      rcases hp with rfl | rfl
      · exact (by decide : ∀ ps ∈ [[], [Category.symbol]], Category.set ∉ .numeric :: ps) _ hps
      · exact (by decide : ∀ ps ∈ [[], [Category.symbol]], Category.set ∉ .string :: ps) _ hps
    obtain rfl := place_eq_zero hrest hset
    exact h.ordered styles
  | aggregate a hps =>
    obtain rfl := place_eq_zero
      ((by decide : ∀ ps ∈ [[], [Category.numeric]], Category.set ∉ ps) _ hps) hset
    exact h.aggregated styles a
  | cache hc =>
    obtain rfl := place_eq_zero (by decide) hset
    exact h.kept styles
  | set => exact absurd rfl hbody.1
  | group => exact absurd rfl hbody.2
  | tuple => exact absurd rfl hbody.2
  -- no other overload takes a set
  | descendants hps =>
    exact absurd hmem ((by decide : ∀ ps ∈ [[], [.level], [.level, .symbol], [.integer],
      [Category.integer, .symbol]], Category.set ∉ .member :: ps) _ hps)
  | arithmetic op hc => rcases hc with rfl | rfl <;> simp at hmem
  | negate hc => rcases hc with rfl | rfl <;> simp at hmem
  | compare op hc => rcases hc with rfl | rfl <;> simp at hmem
  | members hc => rcases hc with rfl | rfl <;> simp at hmem
  | value hc => rcases hc with rfl | rfl <;> simp at hmem
  | conjunction | disjunction | negation | currentMember | children | parent => simp at hmem

end Twins

end BoundCall

/-- Bound calls that take an element for a set, by a conversion and by braces, compile alike. -/
theorem Expr.compile_braces {cube : Cube} {e : Expr} {d : Definition} {bs as : List Expr}
    (he : e.type.IsElement) (hd : d.Standard) (hbody : d.body ≠ .set ∧ d.body ≠ .tuple)
    (hset : d.signature.parameters[bs.length]? = some .set) (type : ExprType)
    (styles : List ResultStyle) :
    Paired (Calc.DifferAt (Calc.OneElement cube e) bs.length)
      ((bound d type (bs ++ .convert e (.set e.type) .toSet :: as)).compile cube styles)
      ((bound d type (bs ++ e.braced :: as)).compile cube styles) := by
  have htwins : BoundCall.Twins (Calc.OneElement cube e) bs.length
      ⟨d, type, operands cube (bs ++ .convert e (.set e.type) .toSet :: as)⟩
      ⟨d, type, operands cube (bs ++ e.braced :: as)⟩ := by
    refine ⟨rfl, rfl, by simp [operands_eq_map], ?_, fun j hj => ?_⟩
    · refine ⟨_, _, ?_, ?_, taken_twins he⟩ <;> simp [operands_eq_map]
    · simp only [operands_eq_map, List.getElem?_map]
      rw [List.getElem?_append, List.getElem?_append]
      split
      · rfl
      · obtain ⟨i, hi⟩ : ∃ i, j - bs.length = i + 1 := ⟨j - bs.length - 1, by omega⟩
        rw [hi]
        rfl
  exact htwins.compile styles hd hbody hset

end Olap
