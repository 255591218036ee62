import Olap.Proofs.Binding
import Olap.Proofs.Catalog.Regular

/-!
# Bound expressions compile

A bound expression compiles whatever styles its caller accepts, a set to a set and anything else to a
single value (`Expr.Bound.compiles`). So every function finds among its operands what it reads, each
of a type that can be compiled to what is wanted. It follows that an expression that is closed can be
compiled once it has been validated (`Expr.validate_compiles`).
-/

set_option autoImplicit false

namespace Olap

/-! ## Outcomes -/

/-- The computation succeeds, with a result that satisfies `P`. -/
def Succeeds {ε α : Type} (P : α → Prop) (x : Except ε α) : Prop := ∃ a, x = .ok a ∧ P a

namespace Succeeds

variable {ε α β : Type} {P P' : α → Prop} {Q : β → Prop}

theorem ok {a : α} (h : P a) : Succeeds P (.ok a : Except ε α) := ⟨a, rfl, h⟩

theorem bind {x : Except ε α} {f : α → Except ε β} (hx : Succeeds P x)
    (hf : ∀ a, P a → Succeeds Q (f a)) : Succeeds Q (x >>= f) := by
  obtain ⟨a, rfl, ha⟩ := hx
  exact hf a ha

theorem mono {x : Except ε α} (hx : Succeeds P x) (h : ∀ a, P a → P' a) : Succeeds P' x := by
  obtain ⟨a, rfl, ha⟩ := hx
  exact ⟨a, rfl, h a ha⟩

theorem mapM {f : α → Except ε β} {l : List α} (hf : ∀ a ∈ l, Succeeds Q (f a)) :
    Succeeds (fun bs => ∀ b ∈ bs, Q b) (l.mapM f) := by
  induction l with
  | nil => exact ok (List.forall_mem_nil _)
  | cons a l ih =>
    obtain ⟨ha, hl⟩ := List.forall_mem_cons.1 hf
    rw [List.mapM_cons]
    exact ha.bind fun b hb => (ih hl).bind fun bs hbs => ok (List.forall_mem_cons.2 ⟨hb, hbs⟩)

end Succeeds

/-! ## Styles -/

theorem ExprType.isSet_eq (t : ExprType) : t.isSet = (t.category == .set) := by
  cases t <;> rfl

theorem ExprType.eq_set_of_isSet {t : ExprType} (h : t.isSet = true) : ∃ e, t = .set e := by
  cases t <;> first | exact ⟨_, rfl⟩ | cases h

theorem ExprType.eq_set_of_category {t : ExprType} (h : t.category = .set) : ∃ e, t = .set e := by
  cases t <;> first | exact ⟨_, rfl⟩ | cases h

namespace Calc

/-- The result is a single value. -/
def IsSingle (c : Calc) : Prop := c.style = .value ∨ c.style = .valueNotNull

/-- The result is a set. -/
def IsSet (c : Calc) : Prop := c.style.isSet = true

/-- The result is a set or a single value, as the category says. -/
def Suits (p : Category) (c : Calc) : Prop := if p = .set then c.IsSet else c.IsSingle

variable {c : Calc} {p : Category}

theorem suits_of_ne (h : p ≠ .set) : c.Suits p ↔ c.IsSingle := by
  rw [Suits, if_neg h]

theorem suits_default {t : ExprType} (h : c.style = defaultStyle t) : c.Suits t.category := by
  cases t with
  | set t => exact congrArg ResultStyle.isSet h
  | _ => exact .inl h

/-- A calculation of a single value suits a caller who wants one. -/
theorem restyle_of_single (h : c.IsSingle) : c.restyle [.value, .valueNotNull] = .ok c := by
  rcases h with h | h <;> rw [restyle, h] <;> rfl

theorem restyle_single (h : c.IsSingle) : Succeeds IsSingle (c.restyle [.value, .valueNotNull]) :=
  ⟨c, restyle_of_single h, h⟩

theorem restyle_list (h : c.IsSet) (owned : Bool) :
    Succeeds IsSet (c.restyle (if owned then [.mutableList] else [.list, .mutableList])) := by
  unfold restyle
  rcases hs : c.style with _ | _ | _ | _ | _ | _
  · rw [IsSet, hs] at h
    cases h
  · rw [IsSet, hs] at h
    cases h
  · cases owned
    · exact ⟨c, rfl, h⟩
    · exact ⟨_, rfl, rfl⟩
  · cases owned <;> exact ⟨c, rfl, h⟩
  · cases owned <;> exact ⟨_, rfl, rfl⟩
  · rw [IsSet, hs] at h
    cases h

theorem restyle_iterable (h : c.IsSet) :
    Succeeds IsSet (c.restyle [.iterable, .list, .mutableList]) := by
  refine ⟨c, ?_, h⟩
  unfold restyle
  rcases hs : c.style with _ | _ | _ | _ | _ | _ <;> first
    | rfl
    | (rw [IsSet, hs] at h; cases h)

end Calc

/-! ## Operands -/

/-- The operand compiles whatever styles its caller accepts. -/
def Operand.Compiles (o : Operand) : Prop :=
  ∀ styles, Succeeds (Calc.Suits o.type.category) (o.compile styles)

namespace Operand.Compiles

open Calc

variable {o : Operand} (ho : o.Compiles) (styles : List ResultStyle)
include ho

theorem single (h : o.type.category ≠ .set) : Succeeds IsSingle (o.compile styles) :=
  (ho styles).mono fun _ hc => (suits_of_ne h).1 hc

theorem set (h : o.type.category = .set) : Succeeds IsSet (o.compile styles) := by
  have := ho styles
  rwa [h] at this

/-! ### Catalog objects -/

theorem hierarchy (h : o.type.category ∈ [Category.hierarchy, .dimension, .level, .member]) :
    Succeeds IsSingle (o.hierarchy styles) := by
  have hsingle := ho.single styles fun heq => by rw [heq] at h; exact absurd h (by decide)
  unfold Operand.hierarchy
  cases ht : o.type with
  | hierarchy s => exact hsingle
  | dimension s => exact hsingle.bind fun _ _ => .ok (.inl rfl)
  | level s => exact hsingle.bind fun _ _ => .ok (.inl rfl)
  | member s => exact hsingle.bind fun _ _ => .ok (.inl rfl)
  | _ => simp [ht, ExprType.category] at h

theorem member (h : o.type.category ∈ [Category.member, .hierarchy, .dimension]) :
    Succeeds IsSingle (o.member styles) := by
  have hsingle := ho.single styles fun heq => by rw [heq] at h; exact absurd h (by decide)
  unfold Operand.member
  cases ht : o.type with
  | member s => exact hsingle
  | hierarchy s =>
    exact (ho.hierarchy styles (by simp [ht, ExprType.category])).bind fun _ _ => .ok (.inr rfl)
  | dimension s =>
    exact (ho.hierarchy styles (by simp [ht, ExprType.category])).bind fun _ _ => .ok (.inr rfl)
  | _ => simp [ht, ExprType.category] at h

theorem level (h : o.type.category = .level) : Succeeds IsSingle (o.level styles) := by
  have hsingle := ho.single styles fun heq => by rw [heq] at h; cases h
  unfold Operand.level
  cases ht : o.type with
  | level s => exact hsingle
  | _ => simp [ht, ExprType.category] at h

theorem tuple (h : o.type.category ∈ [Category.tuple, .member]) :
    Succeeds IsSingle (o.tuple styles) := by
  have hsingle := ho.single styles fun heq => by rw [heq] at h; exact absurd h (by decide)
  unfold Operand.tuple
  cases ht : o.type with
  | tuple ss => exact hsingle
  | member s => exact hsingle.bind fun _ _ => .ok (.inl rfl)
  | _ => simp [ht, ExprType.category] at h

/-! ### Scalars -/

theorem scalar (h : o.type.category.isScalar = true ∨ o.type.category ∈ [Category.member, .tuple]) :
    Succeeds IsSingle (o.scalar styles) := by
  have hsingle (styles : List ResultStyle) : Succeeds IsSingle (o.compile styles) :=
    ho.single styles fun heq => by rw [heq] at h; exact absurd h (by decide)
  have has : Succeeds IsSingle (o.compileAs [.value, .valueNotNull]) :=
    (hsingle _).bind fun _ => restyle_single
  unfold Operand.scalar
  cases ht : o.type with
  | member s => exact (hsingle styles).bind fun _ _ => .ok (.inl rfl)
  | tuple ss => exact (hsingle styles).bind fun _ _ => .ok (.inl rfl)
  | scalar | boolean | numeric | integer | string | null => exact has
  | _ => simp [ht, ExprType.category, Category.isScalar] at h

theorem double (h : o.type.category.isScalar = true) : Succeeds IsSingle (o.double styles) := by
  refine (ho.scalar styles (.inl h)).bind fun c hc => .ok ?_
  split
  · exact .inl rfl
  · exact hc

/-! ### Sets -/

theorem list (h : o.type.category ∈ [Category.set, .member, .tuple]) (owned : Bool := false) :
    Succeeds IsSet (o.list styles owned) := by
  unfold Operand.list
  cases ht : o.type with
  | set t => exact (ho.set _ (by rw [ht]; rfl)).bind fun _ hc => restyle_list hc owned
  | member s =>
    exact (ho.single styles (by simp [ht, ExprType.category])).bind fun _ _ => .ok rfl
  | tuple ss =>
    exact (ho.single styles (by simp [ht, ExprType.category])).bind fun _ _ => .ok rfl
  | _ => simp [ht, ExprType.category] at h

theorem iterable (h : o.type.category = .set) : Succeeds IsSet (o.iterable styles) := by
  unfold Operand.iterable
  cases ht : o.type with
  | set t => exact (ho.set _ h).bind fun _ => restyle_iterable
  | _ => simp [ht, ExprType.category] at h

/-- An operand can be converted wherever its category can. -/
theorem converted {t : ExprType} {kind : ConversionKind}
    (h : Converts o.type.category t.category kind) :
    Succeeds (Suits t.category) (o.converted t kind styles) := by
  generalize hsource : o.type.category = c, htarget : t.category = p at h
  unfold Operand.converted
  cases h with
  | numericPromotion =>
    exact (ho.single styles (by rw [hsource]; decide)).bind fun _ _ => .ok (.inl rfl)
  | toNumber =>
    refine (ho.scalar styles (by rw [hsource]; decide)).bind fun _ _ => .ok ?_
    rw [htarget]
    exact .inl rfl
  | toLogical hc =>
    have hscalar : c.isScalar = true := by cases c <;> first | rfl | cases hc
    refine (ho.scalar styles (.inl (hsource ▸ hscalar))).bind fun _ _ => .ok ?_
    rw [htarget]
    exact .inl rfl
  | nullToScalar hp =>
    refine .ok ((suits_of_ne ?_).2 (.inl rfl))
    rintro rfl
    cases hp
  | scalarToValue hc =>
    refine (ho.single styles ?_).mono fun _ hc => hc
    rintro heq
    rw [← hsource, heq] at hc
    cases hc
  | valueToScalar hp =>
    refine (ho.scalar styles (by rw [hsource]; decide)).bind fun _ _ => .ok ?_
    rw [htarget]
    cases p <;> first | exact .inl rfl | exact absurd hp (by decide)
  | cellValue hc hp =>
    refine (ho.scalar styles ?_).mono fun _ hc => (suits_of_ne ?_).2 hc
    · rw [hsource]
      exact .inr (by simpa using hc)
    · rintro rfl
      exact absurd hp (by decide)
  | memberToTuple => exact ho.tuple styles (by rw [hsource]; decide)
  | toSet hc => exact ho.list styles (by rw [hsource]; rcases hc with rfl | rfl <;> decide)
  | currentMember hc =>
    exact ho.member styles (by rw [hsource]; rcases hc with rfl | rfl <;> decide)
  | dimensionToHierarchy => exact ho.hierarchy styles (by rw [hsource]; decide)
  | levelToHierarchy => exact ho.hierarchy styles (by rw [hsource]; decide)

end Operand.Compiles

/-! ## Calls -/

namespace BoundCall

open Calc

/-- The operands compile and have the categories of the parameters, and where a word stands it is one
of those that the overload knows. -/
structure Ready (c : BoundCall) : Prop where
  operands : List.Forall₂ (fun p o => Operand.Compiles o ∧ o.type.category = p)
    c.definition.signature.parameters c.operands
  words : ∀ o ∈ c.operands, o.type.category = .symbol →
    ∃ word, o.expr.symbol? = some word ∧
      ∃ r ∈ c.definition.reserved, r.toUpper = word.toUpper

variable {c : BoundCall} (h : c.Ready) {styles : List ResultStyle}
include h

theorem Ready.operands_length : c.operands.length = c.definition.signature.parameters.length :=
  h.operands.length_eq.symm

theorem Ready.of_mem {o : Operand} (ho : o ∈ c.operands) :
    o.Compiles ∧ o.type.category ∈ c.definition.signature.parameters := by
  obtain ⟨k, hk, rfl⟩ := List.getElem_of_mem ho
  obtain ⟨hcompiles, hcat⟩ := h.operands.get (h.operands_length ▸ hk) hk
  exact ⟨hcompiles, hcat ▸ List.get_mem _ _⟩

theorem Ready.exists_operand {ps : List Category} (hps : c.definition.signature.parameters = ps)
    {k : Nat} {p : Category} (hk : ps[k]? = some p) :
    ∃ o, c.operands[k]? = some o ∧ o.Compiles ∧ o.type.category = p := by
  obtain ⟨hlen, hp⟩ := List.getElem?_eq_some_iff.1 hk
  subst hps
  have hlen' : k < c.operands.length := h.operands.length_eq ▸ hlen
  have ho := h.operands.get hlen hlen'
  simp only [List.get_eq_getElem, hp] at ho
  exact ⟨c.operands[k], List.getElem?_eq_getElem hlen', ho⟩

theorem Ready.operand {ps : List Category} (hps : c.definition.signature.parameters = ps) {k : Nat}
    {p : Category} (hk : ps[k]? = some p) :
    Succeeds (fun o => o.Compiles ∧ o.type.category = p) (c.operand k) := by
  obtain ⟨o, ho, hcompiles⟩ := h.exists_operand hps hk
  exact ⟨o, by rw [BoundCall.operand, ho], hcompiles⟩

/-- A second operand that is there fills the second parameter, which can be left out. -/
theorem Ready.second {ps : List Category} {p q : Category} (hq : ps ∈ [[], [q]])
    (hps : c.definition.signature.parameters = p :: ps) (hlen : 1 < c.operands.length) :
    (p :: ps)[1]? = some q := by
  rw [h.operands_length, hps] at hlen
  simp only [List.mem_cons, List.not_mem_nil, or_false] at hq
  rcases hq with rfl | rfl
  · exact absurd hlen (Nat.lt_irrefl 1)
  · rfl

omit h in
theorem symbol_of_optional {ps : List Category} (before : List Category)
    (hps : ps ∈ [[], [Category.symbol]]) :
    ∀ p, (before ++ ps)[before.length]? = some p → p = .symbol := by
  intro p hp
  rw [List.getElem?_append_right (Nat.le_refl _), Nat.sub_self] at hp
  simp only [List.mem_cons, List.not_mem_nil, or_false] at hps
  rcases hps with rfl | rfl <;> cases hp
  rfl

/-- Where only a word can stand, a word that the overload knows is found, or nothing. -/
theorem Ready.word {ps : List Category} (hps : c.definition.signature.parameters = ps) {k : Nat}
    (hk : ∀ p, ps[k]? = some p → p = .symbol) :
    Succeeds (fun w => ∀ word, w = some word → ∃ r ∈ c.definition.reserved, r.toUpper = word)
      (c.word? k) := by
  unfold word?
  rcases ho : c.operands[k]? with _ | o
  · exact .ok nofun
  · obtain ⟨hlen', rfl⟩ := List.getElem?_eq_some_iff.1 ho
    have hlen : k < c.definition.signature.parameters.length := h.operands_length ▸ hlen'
    have hcat := (h.operands.get hlen hlen').2
    subst hps
    simp only [List.get_eq_getElem, hk _ (List.getElem?_eq_getElem hlen)] at hcat
    obtain ⟨word, hword, hr⟩ := h.words _ (List.getElem_mem hlen') hcat
    dsimp only
    rw [hword]
    refine .ok ?_
    rintro _ ⟨⟩
    exact hr

/-! ### Operators -/

section
variable {p : Category} (hp : p.isScalar = true)
include hp

theorem arithmetic_compiles (hps : c.definition.signature.parameters = [p, p]) (op : ArithmeticOp) :
    Succeeds IsSingle (c.arithmetic op styles) := by
  refine (h.operand hps rfl).bind fun l ⟨hl, hlp⟩ => ?_
  refine (h.operand hps rfl).bind fun r ⟨hr, hrp⟩ => ?_
  subst hlp
  split
  · exact (hl.scalar styles (.inl hp)).bind fun _ _ =>
      (hr.scalar styles (.inl (hrp ▸ hp))).bind fun _ _ => .ok (.inl rfl)
  · exact (hl.double styles hp).bind fun _ _ =>
      (hr.double styles (hrp ▸ hp)).bind fun _ _ => .ok (.inl rfl)

theorem negate_compiles (hps : c.definition.signature.parameters = [p]) :
    Succeeds IsSingle (c.negate styles) := by
  refine (h.operand hps rfl).bind fun o ⟨ho, hop⟩ => ?_
  subst hop
  split
  · exact (ho.scalar styles (.inl hp)).bind fun _ _ => .ok (.inl rfl)
  · exact (ho.double styles hp).bind fun _ _ => .ok (.inl rfl)

theorem compare_compiles (hps : c.definition.signature.parameters = [p, p]) (op : Comparison) :
    Succeeds IsSingle (c.compare op styles) := by
  refine (h.operand hps rfl).bind fun l ⟨hl, hlp⟩ => ?_
  refine (h.operand hps rfl).bind fun r ⟨hr, hrp⟩ => ?_
  subst hlp
  split
  · exact (hl.scalar styles (.inl hp)).bind fun _ _ =>
      (hr.scalar styles (.inl (hrp ▸ hp))).bind fun _ _ => .ok (.inl rfl)
  · exact (hl.double styles hp).bind fun _ _ =>
      (hr.double styles (hrp ▸ hp)).bind fun _ _ => .ok (.inl rfl)

end

theorem logical_compiles (hps : c.definition.signature.parameters = [.logical, .logical])
    (name : String) (op : Operation) : Succeeds IsSingle (c.logical name op styles) := by
  refine (h.operand hps rfl).bind fun l ⟨hl, hlp⟩ => ?_
  refine (hl.scalar styles (.inl (hlp ▸ rfl))).bind fun _ _ => ?_
  refine (h.operand hps rfl).bind fun r ⟨hr, hrp⟩ => ?_
  exact (hr.scalar styles (.inl (hrp ▸ rfl))).bind fun _ _ => .ok (.inl rfl)

omit h in
theorem branch_compiles {o : Operand} {p : Category} (ho : o.Compiles ∧ o.type.category = p)
    (hp : p ∈ [Category.numeric, .string, .logical, .member, .set])
    (hres : c.definition.signature.result = p) :
    Succeeds (fun _ => True) (match c.definition.signature.result with
      | .member => o.member styles
      | .set => o.list styles
      | _ => o.scalar styles) := by
  obtain ⟨ho, hop⟩ := ho
  rw [hres]
  split
  · exact (ho.member styles (by rw [hop]; decide)).mono fun _ _ => trivial
  · exact (ho.list styles (by rw [hop]; decide)).mono fun _ _ => trivial
  · rename_i hmember hset
    refine (ho.scalar styles (.inl ?_)).mono fun _ _ => trivial
    rw [hop]
    simp only [List.mem_cons, List.not_mem_nil, or_false] at hp
    rcases hp with rfl | rfl | rfl | rfl | rfl
    · rfl
    · rfl
    · rfl
    · exact absurd rfl hmember
    · exact absurd rfl hset

theorem choice_compiles {p : Category} (hp : p ∈ [Category.numeric, .string, .logical, .member, .set])
    (hps : c.definition.signature.parameters = [.logical, p, p])
    (hres : c.definition.signature.result = p) :
    Succeeds (Suits c.type.category) (c.choice styles) := by
  refine (h.operand hps rfl).bind fun o ⟨ho, hop⟩ => ?_
  refine (ho.scalar styles (.inl (hop ▸ rfl))).bind fun _ _ => ?_
  refine (h.operand hps rfl).bind fun o ho => (branch_compiles ho hp hres).bind fun _ _ => ?_
  refine (h.operand hps rfl).bind fun o ho => (branch_compiles ho hp hres).bind fun _ _ => ?_
  exact .ok (suits_default rfl)

/-! ### Navigation -/

theorem members_compiles {p : Category} (hp : p = .hierarchy ∨ p = .level)
    (hps : c.definition.signature.parameters = [p]) :
    Succeeds (Suits c.type.category) (c.members styles) := by
  refine (h.operand hps rfl).bind fun o ⟨ho, hop⟩ => ?_
  have htakes : c.takes 0 .level = (p == .level) := by
    rw [takes, hps]
    rfl
  rcases hp with rfl | rfl
  · split
    · rename_i hlevel
      rw [htakes] at hlevel
      exact absurd hlevel (by decide)
    · exact (ho.hierarchy styles (by rw [hop]; decide)).bind fun _ _ => .ok (suits_default rfl)
  · split
    · exact (ho.level styles hop).bind fun _ _ => .ok (suits_default rfl)
    · rename_i hlevel
      exact absurd htakes hlevel

theorem descendantsFlag_compiles {ps : List Category}
    (hparams : c.definition.signature.parameters = ps) (hword : ∀ p, ps[2]? = some p → p = .symbol)
    (hreserved : c.definition.reserved = DescendantsFlag.all.map DescendantsFlag.word) :
    Succeeds (fun _ => True) c.descendantsFlag := by
  refine (h.word hparams hword).bind fun word hknown => ?_
  rcases word with _ | w
  · exact .ok trivial
  · obtain ⟨r, hr, rfl⟩ := hknown w rfl
    rw [hreserved] at hr
    obtain ⟨flag, -, rfl⟩ := List.mem_map.1 hr
    have hofWord : DescendantsFlag.ofWord? flag.word.toUpper = some flag := by
      cases flag <;> decide +kernel
    simp only [hofWord]
    exact .ok trivial

theorem descendantsLimit_compiles {ps : List Category}
    (hps : ps ∈ [[], [.level], [.level, .symbol], [.integer], [Category.integer, .symbol]])
    (hparams : c.definition.signature.parameters = .member :: ps) :
    Succeeds (fun _ => True) (c.descendantsLimit styles) := by
  have htarget : ps[0]? = some .level ∧ c.descendantsTarget = .level ∨
      ps[0]? = some .integer ∧ c.descendantsTarget = .distance ∨
      c.descendantsTarget = .unbounded := by
    simp only [descendantsTarget, takes, hparams]
    simp only [List.mem_cons, List.not_mem_nil, or_false] at hps
    rcases hps with rfl | rfl | rfl | rfl | rfl <;> decide
  unfold descendantsLimit
  rcases htarget with ⟨hl, ht⟩ | ⟨hi, ht⟩ | ht
  · rw [ht]
    exact (h.operand hparams hl).bind fun o ⟨ho, hop⟩ =>
      (ho.level styles hop).bind fun _ _ => .ok trivial
  · rw [ht]
    exact (h.operand hparams hi).bind fun o ⟨ho, hop⟩ =>
      (ho.scalar styles (.inl (hop ▸ rfl))).bind fun _ _ => .ok trivial
  · rw [ht]
    exact .ok trivial

/-- The parameters of a call for descendants after the first tell what is wanted and where. -/
theorem descendants_compiles {ps : List Category}
    (hps : ps ∈ [[], [.level], [.level, .symbol], [.integer], [Category.integer, .symbol]])
    (hparams : c.definition.signature.parameters = .member :: ps)
    (hreserved : c.definition.reserved = DescendantsFlag.all.map DescendantsFlag.word) :
    Succeeds (Suits c.type.category) (c.descendants styles) := by
  have hword : ∀ p, (Category.member :: ps)[2]? = some p → p = .symbol := by
    simp only [List.mem_cons, List.not_mem_nil, or_false] at hps
    rcases hps with rfl | rfl | rfl | rfl | rfl <;> simp
  rw [descendants_eq]
  refine (h.operand hparams rfl).bind fun o ⟨ho, hop⟩ => ?_
  refine (ho.member styles (by rw [hop]; decide)).bind fun m _ => ?_
  refine (descendantsFlag_compiles h hparams hword hreserved).bind fun flag _ => ?_
  exact (descendantsLimit_compiles h hps hparams).bind fun rest _ => .ok (suits_default rfl)

theorem drilldownMember_compiles {ps : List Category} (hps : ps ∈ [[], [Category.symbol]])
    (hparams : c.definition.signature.parameters = .set :: .set :: ps) :
    Succeeds (Suits c.type.category) (c.drilldownMember styles) := by
  have hword := symbol_of_optional [.set, .set] hps
  refine (h.operand hparams rfl).bind fun o ⟨ho, hop⟩ => ?_
  refine (ho.list styles (by rw [hop]; decide)).bind fun _ _ => ?_
  refine (h.operand hparams rfl).bind fun o ⟨ho, hop⟩ => ?_
  refine (ho.list styles (by rw [hop]; decide)).bind fun _ _ => ?_
  exact (h.word hparams hword).bind fun _ _ => .ok (suits_default rfl)

/-! ### Sets -/

theorem crossJoin_compiles (hps : c.definition.signature.parameters = [.set, .set]) :
    Succeeds IsSet (c.crossJoin styles) := by
  refine (h.operand hps rfl).bind fun o ⟨ho, hop⟩ => (ho.iterable styles hop).bind fun _ _ => ?_
  refine (h.operand hps rfl).bind fun o ⟨ho, hop⟩ => (ho.iterable styles hop).bind fun _ _ => ?_
  refine .ok ?_
  cases styles.contains .iterable || styles.contains .any <;> rfl

theorem filter_compiles (hps : c.definition.signature.parameters = [.set, .logical]) :
    Succeeds (Suits c.type.category) (c.filter styles) := by
  refine (h.operand hps rfl).bind fun o ⟨ho, hop⟩ => (ho.iterable styles hop).bind fun _ _ => ?_
  refine (h.operand hps rfl).bind fun o ⟨ho, hop⟩ => ?_
  exact (ho.scalar styles (.inl (hop ▸ rfl))).bind fun _ _ => .ok (suits_default rfl)

theorem nonEmpty_compiles {ps : List Category} (hps : ps ∈ [[], [Category.set]])
    (hparams : c.definition.signature.parameters = .set :: ps) :
    Succeeds (Suits c.type.category) (c.nonEmpty styles) := by
  refine (h.operand hparams rfl).bind fun o ⟨ho, hop⟩ => (ho.iterable styles hop).bind fun _ _ => ?_
  split
  · rename_i hlen
    refine (h.operand hparams (h.second hps hparams hlen)).bind fun o ⟨ho, hop⟩ => ?_
    exact (ho.list styles (by rw [hop]; decide)).bind fun _ _ => .ok (suits_default rfl)
  · exact .ok (suits_default rfl)

theorem head_compiles {ps : List Category} (hps : ps ∈ [[], [Category.integer]])
    (hparams : c.definition.signature.parameters = .set :: ps) :
    Succeeds (Suits c.type.category) (c.head styles) := by
  refine (h.operand hparams rfl).bind fun o ⟨ho, hop⟩ => ?_
  refine (ho.list styles (by rw [hop]; decide)).bind fun _ _ => ?_
  split
  · rename_i hlen
    refine (h.operand hparams (h.second hps hparams hlen)).bind fun o ⟨ho, hop⟩ => ?_
    exact (ho.scalar styles (.inl (hop ▸ rfl))).bind fun _ _ => .ok (suits_default rfl)
  · exact .ok (suits_default rfl)

theorem count_compiles {ps : List Category} (hps : ps ∈ [[], [Category.symbol]])
    (hparams : c.definition.signature.parameters = .set :: ps) :
    Succeeds IsSingle (c.count styles) := by
  refine (h.word hparams (symbol_of_optional [.set] hps)).bind fun _ _ => ?_
  refine (h.operand hparams rfl).bind fun o ⟨ho, hop⟩ => (ho.iterable styles hop).bind fun _ _ => ?_
  exact .ok (.inr rfl)

theorem sortMode_compiles {ps : List Category} (hparams : c.definition.signature.parameters = ps)
    (hword : ∀ p, ps[2]? = some p → p = .symbol)
    (hreserved : c.definition.reserved = SortMode.words.map Prod.fst) :
    Succeeds (fun _ => True) c.sortMode := by
  refine (h.word hparams hword).bind fun word hknown => ?_
  rcases word with _ | w
  · exact .ok trivial
  · obtain ⟨r, hr, rfl⟩ := hknown w rfl
    rw [hreserved] at hr
    obtain ⟨m, hm, rfl⟩ := List.mem_map.1 hr
    have hofWord : ∀ m ∈ SortMode.words, SortMode.ofWord? m.1.toUpper = some m.2 := by
      decide +kernel
    simp only [hofWord m hm]
    exact .ok trivial

theorem order_compiles {p : Category} {ps : List Category} (hp : p = .numeric ∨ p = .string)
    (hps : ps ∈ [[], [Category.symbol]])
    (hparams : c.definition.signature.parameters = .set :: p :: ps)
    (hreserved : c.definition.reserved = SortMode.words.map Prod.fst) :
    Succeeds IsSet (c.order styles) := by
  have hscalar : p.isScalar = true := by rcases hp with rfl | rfl <;> rfl
  rw [order_eq]
  refine (sortMode_compiles h hparams (symbol_of_optional [.set, p] hps) hreserved).bind
    fun mode _ => ?_
  refine (h.operand hparams rfl).bind fun o ⟨ho, hop⟩ => ?_
  refine (ho.list styles (by rw [hop]; decide)).bind fun _ _ => ?_
  refine (h.operand hparams rfl).bind fun o ⟨ho, hop⟩ => ?_
  split
  · exact (ho.scalar styles (.inl (hop ▸ hscalar))).bind fun _ _ => .ok rfl
  · exact (ho.double styles (hop ▸ hscalar)).bind fun _ _ => .ok rfl

omit h in
theorem element_compiles {o : Operand} (ho : o.Compiles)
    (hp : o.type.category ∈ [Category.member, .tuple, .set]) :
    Succeeds (fun _ => True) (element styles o) := by
  unfold element
  cases ht : o.type with
  | set t => exact (ho.list styles (by simp [ht, ExprType.category])).mono fun _ _ => trivial
  | tuple ss => exact (ho.tuple styles (by simp [ht, ExprType.category])).mono fun _ _ => trivial
  | member s => exact (ho.member styles (by simp [ht, ExprType.category])).mono fun _ _ => trivial
  | _ => simp [ht, ExprType.category] at hp

theorem set_compiles (hps : ∀ p ∈ c.definition.signature.parameters,
      p = .member ∨ p = .tuple ∨ p = .set) :
    Succeeds IsSet (c.set styles) := by
  have helements : ∀ o ∈ c.operands, Succeeds (fun _ => True) (element styles o) := by
    intro o ho
    obtain ⟨hcompiles, hmem⟩ := h.of_mem ho
    exact element_compiles hcompiles (by simpa using hps _ hmem)
  exact (Succeeds.mapM helements).bind fun _ _ => .ok rfl

theorem tuple_compiles {p q : Category} {ps : List Category} (hps : ∀ r ∈ p :: q :: ps, r = .member)
    (hparams : c.definition.signature.parameters = p :: q :: ps) :
    Succeeds IsSingle (c.tuple styles) := by
  have hmembers : ∀ o ∈ c.operands, Succeeds IsSingle (o.member styles) := by
    intro o ho
    obtain ⟨hcompiles, hmem⟩ := h.of_mem ho
    rw [hparams] at hmem
    exact hcompiles.member styles (by simp [hps _ hmem])
  have hlen := h.operands_length
  rw [hparams] at hlen
  unfold tuple
  split
  · rename_i heq
    rw [heq] at hlen
    simp at hlen
  · exact (Succeeds.mapM hmembers).bind fun _ _ => .ok (.inr rfl)

/-! ### Others -/

theorem aggregate_compiles {ps : List Category} (hps : ps ∈ [[], [Category.numeric]])
    (hparams : c.definition.signature.parameters = .set :: ps) (a : Aggregate) :
    Succeeds (Suits c.type.category) (c.aggregate a styles) := by
  refine (h.operand hparams rfl).bind fun o ⟨ho, hop⟩ => (ho.iterable styles hop).bind fun _ _ => ?_
  split
  · rename_i o heq
    have hlen := (List.getElem?_eq_some_iff.1 heq).1
    obtain ⟨o', ho', hcompiles, hop⟩ := h.exists_operand hparams (h.second hps hparams hlen)
    cases heq.symm.trans ho'
    exact (hcompiles.double styles (hop ▸ rfl)).bind fun _ _ => .ok (suits_default rfl)
  · exact .ok (suits_default rfl)

theorem cache_compiles {p : Category} {cube : Cube} (hp : p = .value ∨ p = .set)
    (hps : c.definition.signature.parameters = [p]) : Succeeds (Suits p) (c.cache cube styles) := by
  refine (h.operand hps rfl).bind fun o ⟨ho, hop⟩ => ?_
  rcases hp with rfl | rfl
  · rw [ExprType.isSet_eq, hop, if_neg (by decide)]
    exact (ho.scalar styles (.inl (hop ▸ rfl))).bind fun _ hx => .ok ((suits_of_ne (by decide)).2 hx)
  · rw [ExprType.isSet_eq, hop, if_pos (by decide)]
    exact (ho.list styles (by rw [hop]; decide)).bind fun _ hx => .ok hx

/-- A call of a built-in function compiles if its operands do. -/
theorem Ready.compiles {cube : Cube} (hd : c.definition.Standard)
    (hgroup : c.definition.IsGroup → ∀ o ∈ c.operands, o.type = c.type)
    (hother : ¬ c.definition.IsGroup → c.type.category = c.definition.signature.result) :
    Succeeds (Suits c.type.category) (c.compile cube styles) := by
  obtain ⟨⟨⟨name, form, result, parameters⟩, description, reserved, rule, body⟩, t, os⟩ := c
  change Shape body parameters result rule reserved at hd
  change body = .tuple ∧ parameters.length = 1 → ∀ o ∈ os, o.type = t at hgroup
  change ¬ (body = .tuple ∧ parameters.length = 1) → t.category = result at hother
  have hsingle {x : Except CalcError Calc} (hnot : ¬ (body = .tuple ∧ parameters.length = 1))
      (hres : result ≠ .set) (hx : Succeeds IsSingle x) : Succeeds (Suits t.category) x :=
    hx.mono fun _ => (suits_of_ne (hother hnot ▸ hres)).2
  have hset {x : Except CalcError Calc} (hnot : ¬ (body = .tuple ∧ parameters.length = 1))
      (hres : result = .set) (hx : Succeeds IsSet x) : Succeeds (Suits t.category) x := by
    rwa [hother hnot, hres]
  cases hd with
  | arithmetic op hc =>
    rcases hc with rfl | rfl
    · exact hsingle nofun nofun (arithmetic_compiles h rfl rfl op)
    · exact hsingle nofun nofun (arithmetic_compiles h rfl rfl op)
  | negate hc =>
    rcases hc with rfl | rfl
    · exact hsingle nofun nofun (negate_compiles h rfl rfl)
    · exact hsingle nofun nofun (negate_compiles h rfl rfl)
  | compare op hc =>
    rcases hc with rfl | rfl
    · exact hsingle nofun nofun (compare_compiles h rfl rfl op)
    · exact hsingle nofun nofun (compare_compiles h rfl rfl op)
  | conjunction => exact hsingle nofun nofun (logical_compiles h rfl _ _)
  | disjunction => exact hsingle nofun nofun (logical_compiles h rfl _ _)
  | negation =>
    refine hsingle nofun nofun ((h.operand rfl rfl).bind fun o ⟨ho, hop⟩ => ?_)
    exact (ho.scalar styles (.inl (hop ▸ rfl))).bind fun _ _ => .ok (.inl rfl)
  | choice hc => exact choice_compiles h hc rfl rfl
  | currentMember =>
    refine hsingle nofun nofun ((h.operand rfl rfl).bind fun o ⟨ho, hop⟩ => ?_)
    exact (ho.hierarchy styles (by rw [hop]; decide)).bind fun _ _ => .ok (.inr rfl)
  | members hc => exact members_compiles h hc rfl
  | children =>
    refine (h.operand rfl rfl).bind fun o ⟨ho, hop⟩ => ?_
    exact (ho.member styles (by rw [hop]; decide)).bind fun _ _ => .ok (suits_default rfl)
  | parent =>
    refine (h.operand rfl rfl).bind fun o ⟨ho, hop⟩ => ?_
    exact (ho.member styles (by rw [hop]; decide)).bind fun _ _ => .ok (suits_default rfl)
  | descendants hps => exact descendants_compiles h hps rfl rfl
  | drilldownMember hps => exact drilldownMember_compiles h hps rfl
  | crossJoin => exact hset nofun rfl (crossJoin_compiles h rfl)
  | filter => exact filter_compiles h rfl
  | nonEmpty hps => exact nonEmpty_compiles h hps rfl
  | head hps => exact head_compiles h hps rfl
  | count hps => exact hsingle nofun nofun (count_compiles h hps rfl)
  | order hc hps => exact hset nofun rfl (order_compiles h hc hps rfl rfl)
  | set hps => exact hset nofun rfl (set_compiles h hps)
  | group p =>
    obtain ⟨o, _, ⟨ho, -⟩, hnil, rfl⟩ := List.forall₂_cons_left_iff.1 h.operands
    cases hnil
    have ht := hgroup ⟨rfl, rfl⟩ o List.mem_cons_self
    exact ht ▸ ho styles
  | tuple hps =>
    exact hsingle (fun hg => absurd hg.2 (by simp)) nofun (tuple_compiles h hps rfl)
  | aggregate a hps => exact aggregate_compiles h hps rfl a
  | cache hc =>
    rw [hother nofun]
    exact cache_compiles h hc rfl
  | value hc =>
    refine hsingle nofun nofun ((h.operand rfl rfl).bind fun o ⟨ho, hop⟩ => ?_)
    exact ho.scalar styles (by rw [hop]; rcases hc with rfl | rfl <;> decide)

end BoundCall

/-! ## Expressions -/

namespace Expr

open Calc

variable {cube : Cube}

theorem operands_eq_map (es : List Expr) : operands cube es = es.map (toOperand cube) := by
  induction es with
  | nil => rfl
  | cons e es ih => rw [operands, ih, List.map_cons, toOperand]

theorem compiles_leaf {e : Expr} {c : Calc} (he : ∀ styles, e.compile cube styles = .ok c)
    (hne : e.type.category ≠ .set) (h : c.IsSingle) : (e.toOperand cube).Compiles :=
  fun styles => ⟨c, he styles, (suits_of_ne hne).2 h⟩

/-- A bound expression compiles, whatever styles are accepted. -/
theorem Bound.compiles {e : Expr} (he : e.Bound) : (e.toOperand cube).Compiles := by
  induction he with
  | literal l =>
    refine compiles_leaf (fun _ => rfl) (by cases l <;> exact nofun) ?_
    cases l with
    | null => exact .inl rfl
    | _ => exact .inr rfl
  | member m => exact compiles_leaf (fun _ => rfl) nofun (.inr rfl)
  | level l => exact compiles_leaf (fun _ => rfl) nofun (.inr rfl)
  | hierarchy h => exact compiles_leaf (fun _ => rfl) nofun (.inr rfl)
  | dimension d => exact compiles_leaf (fun _ => rfl) nofun (.inr rfl)
  | call hd hcat hsym hargs ih =>
    rename_i d args
    intro styles
    have hready : BoundCall.Ready ⟨d, d.resultType (args.map Expr.type), operands cube args⟩ := by
      rw [operands_eq_map]
      constructor
      · rw [List.forall₂_map_right_iff, ← hcat, List.forall₂_map_left_iff]
        exact List.forall₂_same.2 fun e he => ⟨ih e he, rfl⟩
      · intro o ho hsymbol
        obtain ⟨e, he, rfl⟩ := List.mem_map.1 ho
        obtain ⟨word, rfl⟩ := (hargs e he).eq_symbol hsymbol
        exact ⟨word, rfl, known_of_checkSymbols hsym _ he word rfl⟩
    refine hready.compiles hd (fun hgroup o ho => ?_) fun hgroup => hd.category_resultType hgroup hcat
    obtain ⟨-, e, rfl, htype⟩ := hd.resultType_group hgroup hcat
    rcases List.mem_singleton.1 ho with rfl
    exact htype.symm
  | convert he hne hcost hr ih =>
    rename_i e p
    refine fun styles => ih.converted styles ?_
    change Converts e.type.category (e.type.convertedTo p).category _
    rw [convertedTo_category]
    exact Category.converts hne hcost

section
variable {e : Expr} (he : e.Bound) (hset : e.type.isSet = true) (cube : Cube)
  (styles : List ResultStyle)
include he hset

theorem Bound.list_compiles (owned : Bool) : ∃ c, (e.toOperand cube).list styles owned = .ok c := by
  rw [ExprType.isSet_eq, beq_iff_eq] at hset
  have hin : (e.toOperand cube).type.category ∈ [Category.set, .member, .tuple] :=
    List.mem_cons.2 (.inl hset)
  obtain ⟨c, hc, -⟩ := he.compiles.list styles hin owned
  exact ⟨c, hc⟩

theorem Bound.iterable_compiles : ∃ c, (e.toOperand cube).iterable styles = .ok c := by
  rw [ExprType.isSet_eq, beq_iff_eq] at hset
  obtain ⟨c, hc, -⟩ := he.compiles.iterable styles hset
  exact ⟨c, hc⟩

end

/-- A closed expression compiles once it has been validated, and a set also compiles to a list, of
either kind, and to a set that is produced on demand where that is possible. -/
theorem validate_compiles {e e' : Expr} {registry : ParameterRegistry} (hclosed : e.isClosed = true)
    (h : ((e.validate .builtin).run registry).1 = .ok e') (cube : Cube) (styles : List ResultStyle) :
    (∃ c, e'.compile cube styles = .ok c) ∧
      (e'.type.isSet = true →
        (∀ owned, ∃ c, (e'.toOperand cube).list styles owned = .ok c) ∧
          ∃ c, (e'.toOperand cube).iterable styles = .ok c) := by
  have he : e'.Bound := validate_bound hclosed h
  refine ⟨?_, fun hset => ⟨he.list_compiles hset cube styles, he.iterable_compiles hset cube styles⟩⟩
  have hcompiles : (e'.toOperand cube).Compiles := he.compiles
  obtain ⟨c, hc, -⟩ := hcompiles styles
  exact ⟨c, hc⟩

end Expr

namespace Sample

/-- The first element of the amount, which has to be taken as a set. -/
def firstMeasure : Expr := .call "Head" .function [.member amount, .literal (.integer 1)]

def firstBound : Expr :=
  match ((firstMeasure.validate .builtin).run []).1 with
  | .ok e => e
  | .error _ => .literal .null

-- facts about one expression are evaluated together, since each resolves its calls in the whole table
theorem firstMeasure_checks : ((firstMeasure.validate .builtin).run []).1.toOption.isSome = true ∧
    firstBound.type.isSet = true := by
  decide +kernel

theorem validate_firstMeasure : ((firstMeasure.validate .builtin).run []).1 = .ok firstBound := by
  obtain ⟨e, he⟩ := exists_ok_of_isSome firstMeasure_checks.1
  rw [firstBound, he]

theorem validate_compiles_firstMeasure : firstMeasure.isClosed = true ∧
    ((firstMeasure.validate .builtin).run []).1 = .ok firstBound ∧
      firstBound.type.isSet = true ∧ (∃ c, firstBound.compile cube Expr.anyStyles = .ok c) ∧
      (∃ c, (firstBound.toOperand cube).list Expr.anyStyles true = .ok c) ∧
      ∃ c, (firstBound.toOperand cube).iterable Expr.anyStyles = .ok c := by
  have hset := firstMeasure_checks.2
  obtain ⟨hany, hsets⟩ := Expr.validate_compiles rfl validate_firstMeasure cube Expr.anyStyles
  exact ⟨rfl, validate_firstMeasure, hset, hany, (hsets hset).1 true, (hsets hset).2⟩

end Sample

end Olap
