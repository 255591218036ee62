import Olap.Proofs.Calc.Dependence
import Olap.Proofs.Calc.Total
import Olap.Proofs.Evaluation.Fulfilment

/-!
# Compiled trees keep to contracts

`Calc.Delivers T c Q`: wherever the tree `c` stands, its evaluation keeps to the contract `T` and gives
values that satisfy `Q`, provided that what is kept for its calculations is what their types allow
(`Calc.Guarded`). A tree serves a type (`Calc.Serves`) if it delivers values of the type; a tree for a
set that is not produced on demand delivers lists. Each function compiles its calls to trees that serve
their types, if its operands do, and if the rule for its type is not at a loss
(`ResultRule.Agrees`).
-/

set_option autoImplicit false

namespace Olap

namespace Calc

variable {T : Contract} {t : ExprType} {e : ExprType} {c : Calc} {P Q : Value → Prop}

/-! ## What trees deliver -/

/-- What may be kept for the calculation: for a set a value of its type, and a list unless it is
produced on demand. -/
def Keepable (T : Contract) (c : Calc) (v : Value) : Prop :=
  c.type.isSet = true → T.Holds c.type v ∧ (c.style ≠ .iterable → ∃ l, v = .list l)

/-- What may be kept for the calculations of the tree at an address is what their types allow. -/
def Guarded (T : Contract) (c : Calc) (a : Address) : Prop :=
  ∀ (b : Address) (level : Nat) (info : CalcInfo) (os : List Nat) (inner : Calc),
    c.At a b level (.node info (.cache os) [inner]) → ∀ flag names v,
      T.kept (b, flag, names) v ↔ (Calc.node info (.cache os) [inner]).Keepable T v

/-- The evaluation of the tree gives values that satisfy `Q` (module doc). -/
def Delivers (T : Contract) (c : Calc) (Q : Value → Prop) : Prop :=
  ∀ a, c.Guarded T a → T.Ensures (c.evaluate a) Q

theorem Delivers.mono (hc : c.Delivers T P) (h : ∀ v, P v → Q v) : c.Delivers T Q :=
  fun a ha => (hc a ha).mono h

theorem Delivers.and (hP : c.Delivers T P) (hQ : c.Delivers T Q) :
    c.Delivers T fun v => P v ∧ Q v :=
  fun a ha => (hP a ha).and (hQ a ha)

theorem At.above {info : CalcInfo} {op : Operation} {cs : List Calc} {k level : Nat} {a b : Address}
    {d : Calc} (hc : cs[k]? = some c) (h : c.At (k :: a) b level d) :
    (Calc.node info op cs).At a b (level + 1) d := by
  induction h with
  | root => exact .child .root hc
  | child _ hd ih => exact .child ih hd

theorem Guarded.child {info : CalcInfo} {op : Operation} {cs : List Calc} {a : Address} {k : Nat}
    (h : (Calc.node info op cs).Guarded T a) (hc : cs[k]? = some c) : c.Guarded T (k :: a) :=
  fun b level info os inner hat => h b (level + 1) info os inner (hat.above hc)

/-- A node delivers what its operation ensures, given what the children deliver. -/
theorem delivers_node {info : CalcInfo} {op : Operation} {cs : List Calc} {Ps : List (Value → Prop)}
    (hcs : List.Forall₂ (fun c P => c.Delivers T P) cs Ps)
    (hrun : ∀ a xs, List.Forall₂ (fun x P => T.Ensures x P) xs Ps → T.Ensures (op.run a xs) Q) :
    (Calc.node info op cs).Delivers T Q := by
  intro a ha
  rw [evaluate]
  refine .calculation a (hrun a _ ?_)
  have hguard : ∀ (j : Nat) (c : Calc), cs[j]? = some c → c.Guarded T ((0 + j) :: a) := by
    intro j c hc
    rw [Nat.zero_add]
    exact ha.child hc
  clear ha hrun
  generalize 0 = k at hguard
  induction hcs generalizing k with
  | nil => exact .nil
  | cons hc _ ih =>
    refine .cons (hc _ (hguard 0 _ rfl)) (ih (k + 1) fun j c hj => ?_)
    rw [show k + 1 + j = k + (j + 1) by omega]
    exact hguard (j + 1) c hj

section
variable {info : CalcInfo} {op : Operation} {d : Calc} {R : Value → Prop}

theorem Delivers.none (hrun : ∀ a, T.Ensures (op.run a []) Q) : (Calc.node info op []).Delivers T Q :=
  delivers_node .nil fun a xs hxs => by
    cases hxs
    exact hrun a

theorem Delivers.one (hc : c.Delivers T P)
    (hrun : ∀ a x, T.Ensures x P → T.Ensures (op.run a [x]) Q) :
    (Calc.node info op [c]).Delivers T Q :=
  delivers_node (.cons hc .nil) fun a xs hxs => by
    obtain ⟨x, _, hx, hnil, rfl⟩ := List.forall₂_cons_right_iff.1 hxs
    cases hnil
    exact hrun a x hx

theorem Delivers.two (hc : c.Delivers T P) (hd : d.Delivers T R)
    (hrun : ∀ a x y, T.Ensures x P → T.Ensures y R → T.Ensures (op.run a [x, y]) Q) :
    (Calc.node info op [c, d]).Delivers T Q :=
  delivers_node (.cons hc (.cons hd .nil)) fun a xs hxs => by
    obtain ⟨x, _, hx, hrest, rfl⟩ := List.forall₂_cons_right_iff.1 hxs
    obtain ⟨y, _, hy, hnil, rfl⟩ := List.forall₂_cons_right_iff.1 hrest
    cases hnil
    exact hrun a x y hx hy

theorem Delivers.three {f : Calc} {S : Value → Prop} (hc : c.Delivers T P) (hd : d.Delivers T R)
    (hf : f.Delivers T S) (hrun : ∀ a x y z, T.Ensures x P → T.Ensures y R → T.Ensures z S →
      T.Ensures (op.run a [x, y, z]) Q) :
    (Calc.node info op [c, d, f]).Delivers T Q :=
  delivers_node (.cons hc (.cons hd (.cons hf .nil))) fun a xs hxs => by
    obtain ⟨x, _, hx, hrest, rfl⟩ := List.forall₂_cons_right_iff.1 hxs
    obtain ⟨y, _, hy, hlast, rfl⟩ := List.forall₂_cons_right_iff.1 hrest
    obtain ⟨z, _, hz, hnil, rfl⟩ := List.forall₂_cons_right_iff.1 hlast
    cases hnil
    exact hrun a x y z hx hy hz

end

/-- Whatever may be kept for a calculation is delivered when its results are kept. -/
theorem Delivers.cached {cube : Cube} (hc : c.Delivers T (c.Keepable T)) :
    (c.cached cube).Delivers T (c.Keepable T) := by
  intro a ha
  refine .calculation a (.cached (fun flag names v => ha a 0 _ _ c .root flag names v) ?_)
  exact hc _ (ha.child rfl)

/-! ## Types -/

/-- The tree delivers lists of tuples whose scopes are those of the type. -/
structure Lists (T : Contract) (e : ExprType) (c : Calc) : Prop where
  type : c.type = .set e
  style : c.style ≠ .iterable
  delivers : c.Delivers T (T.IsList e.scopes)

/-- The tree delivers scalars. -/
structure Scalar (T : Contract) (c : Calc) : Prop where
  type : c.type.isSet = false
  delivers : c.Delivers T fun _ => True

/-- The tree delivers values of the type (module doc). -/
structure Serves (T : Contract) (t : ExprType) (c : Calc) : Prop where
  delivers : c.Delivers T (T.Holds t)
  type : c.type = t ∨ c.type.isSet = false ∧ t.isSet = false
  lists : t.isSet = true → c.style ≠ .iterable → c.Delivers T fun v => ∃ l, v = .list l

/-! ### Trees for scalars -/

theorem isSet_of_isScalar (ht : t.isScalar = true) : t.isSet = false := by
  cases t <;> first | rfl | cases ht

theorem holds_of_isScalar {v : Value} (ht : t.isScalar = true) : T.Holds t v := by
  cases t <;> first | exact fun _ => trivial | cases ht

theorem Scalar.serves (hc : c.Scalar T) (ht : t.isScalar = true) : c.Serves T t where
  delivers := hc.delivers.mono fun _ _ => holds_of_isScalar ht
  type := .inr ⟨hc.type, isSet_of_isScalar ht⟩
  lists hset := by
    rw [isSet_of_isScalar ht] at hset
    cases hset

theorem Serves.of_single (hd : c.Delivers T (T.Holds t)) (hc : c.type.isSet = false)
    (ht : t.isSet = false) : c.Serves T t :=
  ⟨hd, .inr ⟨hc, ht⟩, fun hset => by rw [ht] at hset; cases hset⟩

theorem Serves.scalar (hc : c.Serves T t) (ht : t.isSet = false) : c.Scalar T where
  type := by
    rcases hc.type with h | h
    · rw [h, ht]
    · exact h.1
  delivers := hc.delivers.mono fun _ _ => trivial

/-! ### Trees for sets -/

theorem Lists.serves (hc : c.Lists T e) : c.Serves T (.set e) where
  delivers := hc.delivers.mono fun _ hv => hv.holds
  type := .inl hc.type
  lists _ _ := hc.delivers.mono fun _ ⟨l, hl, _⟩ => ⟨l, hl⟩

theorem Serves.toLists (hc : c.Serves T (.set e)) (hs : c.style ≠ .iterable) : c.Lists T e where
  type := hc.type.resolve_right nofun
  style := hs
  delivers := by
    refine (hc.delivers.and (hc.lists rfl hs)).mono ?_
    rintro _ ⟨⟨p, hp, hsource⟩, l, rfl⟩
    cases hp
    exact ⟨l, rfl, hsource.solid, hsource.arity, hsource.rows⟩

/-- A set is held in full where a list is wanted. -/
theorem Serves.restyle_list (hc : c.Serves T (.set e)) (owned : Bool) :
    Produces (Lists T e) (c.restyle (if owned then [.mutableList] else [.list, .mutableList])) := by
  have htype : c.type = .set e := hc.type.resolve_right nofun
  have hcopy {d : Calc} (hd : d.Lists T e) : (adapted .mutableCopy d (.set e)).Lists T e :=
    ⟨rfl, nofun, hd.serves.delivers.one fun _ _ hx => hx.run_mutableCopy⟩
  have hheld : (adapted .materialize c (.set e)).Lists T e :=
    ⟨rfl, nofun, hc.delivers.one fun _ _ hx => hx.run_materialize⟩
  unfold restyle
  rw [htype]
  rcases hs : c.style with _ | _ | _ | _ | _ | _
  · cases owned <;> exact .error
  · cases owned <;> exact .error
  · have hlists := hc.toLists (by rw [hs]; nofun)
    cases owned
    · exact .ok hlists
    · exact .ok (hcopy hlists)
  · have hlists := hc.toLists (by rw [hs]; nofun)
    cases owned <;> exact .ok hlists
  · cases owned
    · exact .ok hheld
    · exact .ok (hcopy hheld)
  · cases owned <;> exact .error

theorem Serves.restyle_iterable (hc : c.Serves T t) :
    Produces (Serves T t) (c.restyle [.iterable, .list, .mutableList]) := by
  unfold restyle
  rcases hs : c.style with _ | _ | _ | _ | _ | _
  · exact .error
  · exact .error
  · exact .ok hc
  · exact .ok hc
  · exact .ok hc
  · exact .error

/-- What is kept of a tree that serves a type serves it, too. -/
theorem Serves.keepable (hc : c.Serves T t) : c.Delivers T (c.Keepable T) := by
  rcases hc.type with htype | ⟨htype, -⟩
  · by_cases hset : t.isSet = true
    · by_cases hs : c.style = .iterable
      · exact hc.delivers.mono fun v hv _ => ⟨by rw [htype]; exact hv, fun h => absurd hs h⟩
      · exact (hc.delivers.and (hc.lists hset hs)).mono fun v hv _ =>
          ⟨by rw [htype]; exact hv.1, fun _ => hv.2⟩
    · exact hc.delivers.mono fun v _ h => absurd (htype ▸ h) hset
  · refine hc.delivers.mono fun v _ h => ?_
    rw [htype] at h
    cases h

theorem Serves.cached {cube : Cube} (hc : c.Serves T t)
    (ht : t.isSet = true ∨ t.isScalar = true) : (c.cached cube).Serves T t := by
  have hkept : (c.cached cube).Delivers T (c.Keepable T) := hc.keepable.cached
  rcases ht with ht | ht
  · have htype : c.type = t := hc.type.resolve_right fun h => by rw [ht] at h; cases h.2
    refine ⟨hkept.mono fun v hv => ?_, .inl htype, fun _ hs => hkept.mono fun v hv => ?_⟩
    · exact htype ▸ (hv (by rw [htype, ht])).1
    · exact (hv (by rw [htype, ht])).2 hs
  · refine Scalar.serves ⟨?_, hkept.mono fun _ _ => trivial⟩ ht
    exact (hc.scalar (isSet_of_isScalar ht)).type

end Calc

/-! ## Operands -/

theorem Succeeds.produces {ε α : Type} {P : α → Prop} {x : Except ε α} (hx : Succeeds P x) :
    Produces P x := by
  obtain ⟨a, rfl, ha⟩ := hx
  exact .ok ha

theorem Produces.mapM_forall₂ {ε α β : Type} {R : α → β → Prop} {f : α → Except ε β} {l : List α}
    (hf : ∀ a ∈ l, Produces (R a) (f a)) : Produces (List.Forall₂ R l) (l.mapM f) := by
  induction l with
  | nil => exact .ok .nil
  | cons a l ih =>
    obtain ⟨ha, hl⟩ := List.forall_mem_cons.1 hf
    rw [List.mapM_cons]
    exact ha.bind fun b hb => (ih hl).bind fun bs hbs => .ok (.cons hb hbs)

namespace ExprType

/-- Tuples and sets of the type have at least one column. -/
def HasColumns : ExprType → Prop
  | tuple ss => 0 < ss.length
  | set t => 0 < t.scopes.length
  | _ => True

theorem hasColumns_iff {t : ExprType} :
    t.HasColumns ↔ (t.category = .tuple ∨ t.category = .set → 0 < t.scopes.length) := by
  cases t <;> simp [HasColumns, category, scopes]

theorem HasColumns.pos {t : ExprType} (ht : t.HasColumns)
    (hcat : t.category = .member ∨ t.category = .tuple ∨ t.category = .set) :
    0 < t.scopes.length := by
  cases t <;> first | exact ht | exact Nat.one_pos | simp [category] at hcat

theorem HasColumns.common? {t u : ExprType} (ht : t.HasColumns)
    (hcat : t.category = u.category) : ((t.common? u).getD t).HasColumns := by
  rcases hw : t.common? u with _ | w
  · exact ht
  have hlen := (length_scopes_common? hw).1
  have hwcat := common?_category hw hcat
  rw [Option.getD_some]
  rw [hasColumns_iff] at ht ⊢
  rwa [hwcat, hlen]

end ExprType

/-- The operand compiles to trees that serve its type, and to single values unless it is a set. -/
structure Operand.Faithful (T : Contract) (o : Operand) : Prop where
  compiles : o.Compiles
  serves : ∀ styles, Produces (Calc.Serves T o.type) (o.compile styles)
  columns : o.type.HasColumns

theorem Calc.serves_currentMember {T : Contract} {s : Scope} {c : Calc}
    (hc : c.Serves T (.hierarchy s)) : (Calc.currentMember c).Serves T (.member s) := by
  have hset : (Calc.currentMember c).type.isSet = false := by
    unfold Calc.currentMember
    dsimp only [plain, withStyle, withRule]
    split <;> rfl
  exact .of_single (hc.delivers.one fun _ _ hx => hx.run_currentMember) hset rfl

namespace Operand.Faithful

open Calc Contract.Ensures

variable {T : Contract} {o : Operand} (ho : o.Faithful T) (styles : List ResultStyle)
include ho

/-! ### Catalog objects -/

theorem hierarchy : Produces (Serves T (.hierarchy o.type.scope)) (o.hierarchy styles) := by
  have hserves := ho.serves styles
  have hsingle {op : Operation} {name : String} {s : Scope} {c : Calc}
      (hd : (plain name (.hierarchy s) op [c]).Delivers T (T.Holds (.hierarchy s))) :
      (plain name (.hierarchy s) op [c]).Serves T (.hierarchy s) := .of_single hd rfl rfl
  unfold Operand.hierarchy
  cases ht : o.type <;> rw [ht] at hserves
  case hierarchy s => exact hserves
  case dimension s =>
    exact hserves.bind fun _ hc =>
      .ok (hsingle (hc.delivers.one fun _ _ hx => run_dimensionToHierarchy hx))
  case level s =>
    exact hserves.bind fun _ hc =>
      .ok (hsingle (hc.delivers.one fun _ _ hx => run_levelToHierarchy hx))
  case member s =>
    exact hserves.bind fun _ hc => .ok (hsingle (hc.delivers.one fun _ _ hx => run_hierarchyOf hx))
  all_goals exact .error

/-- An operand that is no tuple compiles to a member of its scope. -/
theorem member (ht : o.type.category ≠ .tuple) :
    Produces (Serves T (.member o.type.scope)) (o.member styles) := by
  have hserves := ho.serves styles
  have hhierarchy := ho.hierarchy styles
  unfold Operand.member
  cases htype : o.type <;> rw [htype] at hserves ht hhierarchy
  case member s => exact hserves
  case tuple ss => exact absurd rfl ht
  case hierarchy s => exact hhierarchy.bind fun _ hc => .ok (serves_currentMember hc)
  case dimension s => exact hhierarchy.bind fun _ hc => .ok (serves_currentMember hc)
  all_goals exact .error

theorem level : Produces (Serves T (.level o.type.scope)) (o.level styles) := by
  have hserves := ho.serves styles
  unfold Operand.level
  cases ht : o.type <;> rw [ht] at hserves
  case level s => exact hserves
  all_goals exact .error

/-- A tuple, or a member as a tuple of one column. -/
theorem tuple (ht : o.type.category ∈ [Category.tuple, .member]) :
    Produces (Serves T (.tuple o.type.scopes)) (o.tuple styles) := by
  have hserves := ho.serves styles
  unfold Operand.tuple
  cases htype : o.type <;> rw [htype] at hserves ht
  case tuple ss => exact hserves
  case member s =>
    exact hserves.bind fun _ hc =>
      .ok (.of_single (hc.delivers.one fun _ _ hx => run_memberToTuple hx) rfl rfl)
  all_goals simp [ExprType.category] at ht

/-! ### Scalars -/

theorem scalar : Produces (Scalar T) (o.scalar styles) := by
  have hserves := ho.serves styles
  have has (hcat : o.type.category ≠ .set) :
      Produces (Scalar T) (o.compileAs [.value, .valueNotNull]) := by
    have hsingle := (ho.compiles.single [.value, .valueNotNull] hcat).produces
    refine (hsingle.and (ho.serves _)).bind fun c ⟨hc, hs⟩ => ?_
    rw [restyle_of_single hc]
    exact .ok (hs.scalar (by rw [ExprType.isSet_eq]; simpa using hcat))
  have hmember := ho.member styles
  unfold Operand.scalar
  cases ht : o.type <;> rw [ht] at hserves has hmember
  case member s =>
    exact hserves.bind fun _ hc => .ok ⟨rfl, hc.delivers.one fun _ _ hx => run_memberValue hx⟩
  case tuple ss =>
    exact hserves.bind fun _ hc => .ok ⟨rfl, hc.delivers.one fun _ _ hx => run_tupleValue hx⟩
  case hierarchy s =>
    exact (hmember nofun).bind fun _ hc =>
      .ok ⟨rfl, hc.delivers.one fun _ _ hx => run_memberValue hx⟩
  case dimension s =>
    exact (hmember nofun).bind fun _ hc =>
      .ok ⟨rfl, hc.delivers.one fun _ _ hx => run_memberValue hx⟩
  all_goals first | exact has nofun | exact .error

theorem double : Produces (Scalar T) (o.double styles) := by
  refine (ho.scalar styles).bind fun c hc => .ok ?_
  split
  · exact ⟨rfl, hc.delivers.one fun _ _ hx => run_integerToDouble hx⟩
  · exact hc

/-! ### Sets -/

theorem list {e : ExprType} (ht : o.type = .set e) (owned : Bool := false) :
    Produces (Lists T e) (o.list styles owned) := by
  unfold Operand.list
  rw [ht]
  refine Produces.bind (P := Serves T (.set e)) (fun c hc => ?_) fun c hc => hc.restyle_list owned
  exact ht ▸ ho.serves _ c hc

/-- A member or a tuple as a set of one element. -/
theorem toSet (ht : o.type.category = .member ∨ o.type.category = .tuple) :
    Produces (Serves T (o.type.convertedTo .set)) (o.list styles) := by
  have hserves := ho.serves styles
  have hpos := ho.columns
  unfold Operand.list
  cases htype : o.type <;> rw [htype] at hserves ht hpos
  case member s =>
    refine hserves.bind fun _ hc => .ok (Lists.serves ⟨rfl, nofun, ?_⟩)
    exact hc.delivers.one fun _ _ hx => run_memberToSet hx
  case tuple ss =>
    refine hserves.bind fun _ hc => .ok (Lists.serves ⟨rfl, nofun, ?_⟩)
    exact hc.delivers.one fun _ _ hx => run_tupleToSet (fun _ => hpos) hx
  all_goals simp [ExprType.category] at ht

theorem iterable {e : ExprType} (ht : o.type = .set e) :
    Produces (Serves T (.set e)) (o.iterable styles) := by
  unfold Operand.iterable
  rw [ht]
  refine Produces.bind (P := Serves T (.set e)) (fun c hc => ?_) fun c hc => hc.restyle_iterable
  exact ht ▸ ho.serves _ c hc

/-- A converted operand serves the type that it is converted to. -/
theorem converted {p : Category} {kind : ConversionKind} (h : Converts o.type.category p kind) :
    Produces (Serves T (o.type.convertedTo p)) (o.converted (o.type.convertedTo p) kind styles) := by
  have htarget : (o.type.convertedTo p).isScalar = p.isScalar :=
    congrArg Category.isScalar (Expr.convertedTo_category o.type p)
  have hserves := ho.serves styles
  have hnode {op : Operation} {c : Calc} {name : String} {t : ExprType} (hp : p.isScalar = true)
      (ht : t.isSet = false) (hd : (plain name t op [c]).Delivers T fun _ => True) :
      (plain name t op [c]).Serves T (o.type.convertedTo p) :=
    Scalar.serves ⟨ht, hd⟩ (htarget.trans hp)
  have hcell (hp : p.isScalar = true) :
      Produces (Serves T (o.type.convertedTo p)) (o.scalar styles) :=
    (ho.scalar styles).mono fun _ hc => hc.serves (htarget.trans hp)
  unfold Operand.converted
  generalize hsource : o.type.category = source at h
  cases h with
  | numericPromotion =>
    exact hserves.bind fun _ hc => .ok (hnode rfl rfl (hc.delivers.one fun _ _ hx =>
      run_integerToDouble hx))
  | toNumber | toLogical =>
    refine (ho.scalar styles).bind fun _ hc => .ok ?_
    split
    · exact hnode rfl rfl (hc.delivers.one fun _ _ hx => run_toBoolean hx)
    · exact hnode rfl rfl (hc.delivers.one fun _ _ hx => run_toNumber hx)
  | nullToScalar hp =>
    refine .ok (Scalar.serves ⟨isSet_of_isScalar (htarget.trans hp), ?_⟩ (htarget.trans hp))
    exact .none fun _ => run_constant trivial []
  | scalarToValue hc =>
    refine hserves.mono fun c hs => Scalar.serves (hs.scalar (isSet_of_isScalar ?_)) htarget
    exact (congrArg Category.isScalar hsource).trans hc
  | valueToScalar hp =>
    have hp : p.isScalar = true := by
      cases p <;> first | rfl | exact absurd hp (by decide)
    refine (ho.scalar styles).bind fun _ hc => .ok ?_
    split
    · exact hnode hp rfl (hc.delivers.one fun _ _ hx => run_toBoolean hx)
    · exact hnode hp rfl (hc.delivers.one fun _ _ hx => run_toInteger hx)
    · exact hnode hp rfl (hc.delivers.one fun _ _ hx => run_toText hx)
    · exact hnode hp rfl (hc.delivers.one fun _ _ hx => run_toNumber hx)
  | cellValue hc hp =>
    exact hcell (by cases p <;> first | rfl | exact absurd hp (by decide))
  | memberToTuple =>
    have htuple := ho.tuple styles (by rw [hsource]; decide)
    cases ht : o.type <;> rw [ht] at hsource htuple <;> cases hsource
    exact htuple
  | toSet hc => exact ho.toSet styles (by rw [hsource]; exact hc)
  | currentMember hc =>
    exact ho.member styles (by rw [hsource]; rcases hc with rfl | rfl <;> decide)
  | dimensionToHierarchy | levelToHierarchy => exact ho.hierarchy styles

end Operand.Faithful

end Olap
