import Mathlib
import Olap.Proofs.Calc.TruthfulTrees
import Olap.Proofs.Catalog.Lookup
import Olap.Proofs.Revalidation

/-!
# Members that occur in an expression

`Expr.members` lists the members of an expression, each once; below a navigation function a member is
replaced by the default member of its hierarchy. What is listed is read off the names of the calls and
the order of the arguments alone (`Expr.memberLeaves_bare`), which validation keeps, so that an expression
has the same members before and after validation. Which members these are is said by the places where
members stand (`Expr.MemberAt`): a place is a member together with the names of the calls around it
(`Expr.members_validated`).
-/

set_option autoImplicit false

namespace Olap

/-! ## Names and conversions -/

namespace Expr

theorem mapsToAllMember_toUpper (name : String) :
    mapsToAllMember name.toUpper = mapsToAllMember name := by
  have hupper : name.toUpper.toUpper = name.toUpper := by
    rw [String.toUpper, String.toUpper, String.map_map]
    exact congrArg (String.map · name) (funext Char.toUpper_toUpper_eq_toUpper)
  rw [mapsToAllMember, mapsToAllMember, hupper]

variable {cube : Cube}

mutual

/-- The members that occur do not depend on which calls are bound, on the case of their names, or on
conversions. -/
theorem memberLeaves_bare (widened : Bool) :
    ∀ e : Expr, e.bare.memberLeaves cube widened = e.memberLeaves cube widened
  | call name _ args => by
    rw [bare, memberLeaves, memberLeaves, mapsToAllMember_toUpper, memberLeavesIn_bareAll _ args]
  | bound d _ args => by
    rw [bare, memberLeaves, memberLeaves, mapsToAllMember_toUpper, memberLeavesIn_bareAll _ args]
  | convert e _ _ => by rw [bare, memberLeaves, memberLeaves_bare widened e]
  | literal _ | member _ | level _ | hierarchy _ | dimension _ | parameter _ => rfl

theorem memberLeavesIn_bareAll (widened : Bool) :
    ∀ es : List Expr, memberLeavesIn cube widened (bareAll es) = memberLeavesIn cube widened es
  | [] => rfl
  | e :: es => by
    rw [bareAll, memberLeavesIn, memberLeavesIn, memberLeaves_bare widened e,
      memberLeavesIn_bareAll widened es]

end

/-- Expressions with the same calls have the same members. -/
theorem members_of_bare_eq {e r : Expr} (h : r.bare = e.bare) (cube : Cube) :
    r.members cube = e.members cube := by
  rw [members, members, ← memberLeaves_bare false r, h, memberLeaves_bare]

/-! ## Each member once -/

/-- Appends a member unless it is listed already. -/
def insertNew (ms : List Member) (m : Member) : List Member :=
  if ms.any (· == m) then ms else ms ++ [m]

theorem members_eq (e : Expr) (cube : Cube) :
    e.members cube = (e.memberLeaves cube false).foldl insertNew [] := rfl

theorem pairwise_insertNew {ms : List Member} (h : ms.Pairwise fun m n => ¬ (m == n) = true)
    (m : Member) : (insertNew ms m).Pairwise fun m n => ¬ (m == n) = true := by
  unfold insertNew
  split
  · exact h
  · rename_i hnew
    rw [List.any_eq_true] at hnew
    refine List.pairwise_append.2 ⟨h, List.pairwise_singleton _ _, fun n hn k hk heq => hnew ?_⟩
    rw [List.mem_singleton.1 hk] at heq
    exact ⟨n, hn, heq⟩

theorem any_insertNew (ms : List Member) (m x : Member) :
    (insertNew ms m).any (· == x) = (ms.any (· == x) || m == x) := by
  unfold insertNew
  split
  · rename_i hold
    cases hm : m == x with
    | false => rw [Bool.or_false]
    | true =>
      obtain ⟨n, hn, heq⟩ := List.any_eq_true.1 hold
      have hnx : (n == x) = true := by
        rw [Member.beq_def, beq_iff_eq] at heq hm ⊢
        exact heq.trans hm
      rw [Bool.or_true]
      exact List.any_eq_true.2 ⟨n, hn, hnx⟩
  · rw [List.any_append, List.any_cons, List.any_nil, Bool.or_false]

theorem pairwise_foldl_insertNew {ms leaves : List Member}
    (h : ms.Pairwise fun m n => ¬ (m == n) = true) :
    (leaves.foldl insertNew ms).Pairwise fun m n => ¬ (m == n) = true := by
  induction leaves generalizing ms with
  | nil => exact h
  | cons m leaves ih => exact ih (pairwise_insertNew h m)

theorem any_foldl_insertNew (ms leaves : List Member) (x : Member) :
    (leaves.foldl insertNew ms).any (· == x) = (ms.any (· == x) || leaves.any (· == x)) := by
  induction leaves generalizing ms with
  | nil => rw [List.foldl_nil, List.any_nil, Bool.or_false]
  | cons m leaves ih => rw [List.foldl_cons, ih, any_insertNew, List.any_cons, Bool.or_assoc]

/-! ## The places of members -/

/-- The member stands somewhere in the expression, inside calls of these names, the outermost first. -/
inductive MemberAt : Expr → List String → Member → Prop
  | member (m : Member) : MemberAt (member m) [] m
  | call {name : String} {form : CallForm} {args : List Expr} {e : Expr} {names : List String}
      {m : Member} (he : e ∈ args) (h : MemberAt e names m) :
      MemberAt (call name form args) (name :: names) m
  | bound {d : Definition} {type : ExprType} {args : List Expr} {e : Expr} {names : List String}
      {m : Member} (he : e ∈ args) (h : MemberAt e names m) :
      MemberAt (bound d type args) (d.name :: names) m
  | convert {e : Expr} {target : ExprType} {kind : ConversionKind} {names : List String} {m : Member}
      (h : MemberAt e names m) : MemberAt (convert e target kind) names m

variable {x : Member} {widened : Bool}

theorem MemberAt.mem_memberLeaves {e : Expr} {names : List String} {m : Member}
    (h : MemberAt e names m) (widened : Bool) :
    widenMember cube (widened || names.any mapsToAllMember) m ∈ e.memberLeaves cube widened := by
  have hin {es : List Expr} {e : Expr} (he : e ∈ es) {widened : Bool} {m : Member}
      (hm : m ∈ e.memberLeaves cube widened) : m ∈ memberLeavesIn cube widened es := by
    induction es with
    | nil => cases he
    | cons e' es ih =>
      rcases List.mem_cons.1 he with rfl | he
      · exact List.mem_append_left _ hm
      · exact List.mem_append_right _ (ih he)
  induction h generalizing widened with
  | member m => simp [memberLeaves]
  | @call name _ _ _ _ _ he _ ih =>
    have hm := hin he (ih (widened || mapsToAllMember name))
    rwa [Bool.or_assoc] at hm
  | @bound d _ _ _ _ _ he _ ih =>
    have hm := hin he (ih (widened || mapsToAllMember d.name))
    rwa [Bool.or_assoc] at hm
  | convert _ ih => exact ih widened

mutual

theorem exists_memberAt : ∀ {e : Expr} {widened : Bool}, x ∈ e.memberLeaves cube widened →
    ∃ names m, MemberAt e names m ∧ x = widenMember cube (widened || names.any mapsToAllMember) m
  | member m, widened, hx => ⟨[], m, .member m, by simpa [memberLeaves] using hx⟩
  | call name _ args, widened, hx => by
    obtain ⟨e, he, names, m, hm, rfl⟩ := exists_memberAt_in hx
    exact ⟨name :: names, m, .call he hm, by rw [List.any_cons, Bool.or_assoc]⟩
  | bound d _ args, widened, hx => by
    obtain ⟨e, he, names, m, hm, rfl⟩ := exists_memberAt_in hx
    exact ⟨d.name :: names, m, .bound he hm, by rw [List.any_cons, Bool.or_assoc]⟩
  | convert e _ _, widened, hx => by
    obtain ⟨names, m, hm, rfl⟩ := exists_memberAt (e := e) hx
    exact ⟨names, m, .convert hm, rfl⟩
  | literal _, _, hx | level _, _, hx | hierarchy _, _, hx | dimension _, _, hx
  | parameter _, _, hx => by cases hx

theorem exists_memberAt_in : ∀ {es : List Expr} {widened : Bool},
    x ∈ memberLeavesIn cube widened es → ∃ e ∈ es, ∃ names m, MemberAt e names m ∧
      x = widenMember cube (widened || names.any mapsToAllMember) m
  | e :: es, widened, hx => by
    rcases List.mem_append.1 hx with hx | hx
    · obtain ⟨names, m, hm, rfl⟩ := exists_memberAt hx
      exact ⟨e, List.mem_cons_self, names, m, hm, rfl⟩
    · obtain ⟨e', he', names, m, hm, rfl⟩ := exists_memberAt_in hx
      exact ⟨e', List.mem_cons_of_mem _ he', names, m, hm, rfl⟩

end

/-- Among the names is one of a navigation function; the case of ASCII letters does not matter. -/
def Navigates (names : List String) : Prop :=
  ∃ name ∈ names, ∃ f ∈ navigationFunctions, name.toUpper = f

theorem navigates_iff {names : List String} :
    Navigates names ↔ names.any mapsToAllMember = true := by
  simp [Navigates, mapsToAllMember]

/-- Every member below a navigation function has its hierarchy in the cube. -/
def NavigatesIn (cube : Cube) (e : Expr) : Prop :=
  ∀ names m, MemberAt e names m → Navigates names → (cube.hierarchyOf? m).isSome = true

/-- The members that occur, by the places of members. -/
theorem any_members_iff {e : Expr} (he : e.NavigatesIn cube) (x : Member) :
    (e.members cube).any (· == x) = true ↔
      (∃ names m, MemberAt e names m ∧ ¬ Navigates names ∧ (m == x) = true) ∨
      ∃ names m h, MemberAt e names m ∧ Navigates names ∧ cube.hierarchyOf? m = some h ∧
        (h.defaultMember == x) = true := by
  rw [members_eq, any_foldl_insertNew, List.any_nil, Bool.false_or, List.any_eq_true]
  constructor
  · rintro ⟨y, hy, hyx⟩
    obtain ⟨names, m, hm, rfl⟩ := exists_memberAt hy
    rw [Bool.false_or] at hyx
    by_cases hnav : Navigates names
    · obtain ⟨h, hh⟩ := Option.isSome_iff_exists.1 (he names m hm hnav)
      rw [navigates_iff.1 hnav, widenMember, if_pos rfl, hh] at hyx
      exact .inr ⟨names, m, h, hm, hnav, hh, hyx⟩
    · rw [Bool.eq_false_iff.2 (mt navigates_iff.2 hnav), widenMember,
        if_neg Bool.false_ne_true] at hyx
      exact .inl ⟨names, m, hm, hnav, hyx⟩
  · rintro (⟨names, m, hm, hnav, hmx⟩ | ⟨names, m, h, hm, hnav, hh, hhx⟩)
    · refine ⟨_, hm.mem_memberLeaves false, ?_⟩
      rw [Bool.false_or, Bool.eq_false_iff.2 (mt navigates_iff.2 hnav), widenMember,
        if_neg Bool.false_ne_true]
      exact hmx
    · refine ⟨_, hm.mem_memberLeaves false, ?_⟩
      rw [Bool.false_or, navigates_iff.1 hnav, widenMember, if_pos rfl, hh]
      exact hhx

theorem MemberAt.mem_of_over {e : Expr} {names : List String} {m : Member} (h : MemberAt e names m)
    (he : e.Over cube) : ∃ h ∈ cube.hierarchies, m ∈ h.members := by
  induction h with
  | member m => exact he
  | call hmem _ ih => exact ih (allOver_iff.1 he _ hmem)
  | bound hmem _ ih => exact ih (allOver_iff.1 he _ hmem)
  | convert _ ih => exact ih he

/-- The members of a cube that has been built have their hierarchies in it. -/
theorem navigatesIn_of_over (hc : cube.Built) {e : Expr} (he : e.Over cube) :
    e.NavigatesIn cube := by
  intro names m hm _
  obtain ⟨h, hh, hmem⟩ := hm.mem_of_over he
  rw [hc.regular.hierarchyOf?_eq hh hmem]
  rfl

/-- Validation changes nothing about the members that occur. No member is listed twice, and those
listed, of an expression and of what it validates to, are the members that stand in it outside of all
navigation functions, and the default members of the hierarchies of those that stand inside of one. -/
theorem members_validated (cube : Cube) {t : FunctionTable} (ht : t.Uniform) {e r : Expr}
    {registry registry' : ParameterRegistry}
    (h : (e.validate t).run registry = (.ok r, registry')) :
    r.members cube = e.members cube ∧
      (e.members cube).Pairwise (fun m n => ¬ (m == n) = true) ∧
      ∀ tree : Expr, tree = e ∨ tree = r → tree.NavigatesIn cube → ∀ x : Member,
        (tree.members cube).any (· == x) = true ↔
          (∃ names m, MemberAt tree names m ∧ ¬ Navigates names ∧ (m == x) = true) ∨
          ∃ names m h, MemberAt tree names m ∧ Navigates names ∧ cube.hierarchyOf? m = some h ∧
            (h.defaultMember == x) = true := by
  obtain ⟨-, hbare, -⟩ := validate_settles ht h
  refine ⟨members_of_bare_eq hbare cube, pairwise_foldl_insertNew .nil, ?_⟩
  intro tree _ htree x
  exact any_members_iff htree x

end Expr

namespace Sample

/-- The set of the member and its children; the name of the function is in small letters. -/
def withChildren (m : Member) : Expr :=
  .call "\x7b\x7d" .braces [.member m, .call "children" .property [.member m]]

theorem withChildren_checks : ∀ h ∈ calendarCube.hierarchies, ∀ m ∈ h.members,
    (((withChildren m).validate .builtin).run []).1.toOption.isSome = true := by
  decide +kernel

/-- A member and its children say as much about their hierarchy as about the member. -/
theorem members_validated_children : FunctionTable.builtin.Uniform ∧
    ∀ h ∈ calendarCube.hierarchies, ∀ m ∈ h.members, ∃ r registry,
      ((withChildren m).validate .builtin).run [] = (.ok r, registry) ∧
        (withChildren m).NavigatesIn calendarCube ∧
        r.members calendarCube = (withChildren m).members calendarCube ∧
        (r.members calendarCube).any (· == m) = true ∧
        (r.members calendarCube).any (· == h.defaultMember) = true := by
  refine ⟨FunctionTable.uniform_builtin, fun h hh m hm => ?_⟩
  obtain ⟨r, hr⟩ := exists_ok_of_isSome (withChildren_checks h hh m hm)
  rcases hrun : ((withChildren m).validate .builtin).run [] with ⟨x, registry⟩
  rw [hrun] at hr
  obtain rfl : x = .ok r := hr
  have hin : ∃ h ∈ calendarCube.hierarchies, m ∈ h.members := ⟨h, hh, hm⟩
  have hnav := Expr.navigatesIn_of_over calendarCube_built
    (e := withChildren m) ⟨hin, ⟨hin, trivial⟩, trivial⟩
  obtain ⟨hsame, -, hiff⟩ := Expr.members_validated calendarCube FunctionTable.uniform_builtin hrun
  have hself (n : Member) : (n == n) = true := beq_self_eq_true n.uniqueName
  have hname : "children".toUpper = "CHILDREN" := by decide +kernel
  refine ⟨r, registry, rfl, hnav, hsame, ?_, ?_⟩
  · have hout : ¬ Expr.Navigates ["\x7b\x7d"] := by
      rw [Expr.navigates_iff]
      decide +kernel
    rw [hsame]
    exact (hiff _ (.inl rfl) hnav m).2
      (.inl ⟨["\x7b\x7d"], m, .call List.mem_cons_self (.member m), hout, hself m⟩)
  · have hplace : Expr.MemberAt (withChildren m) ["\x7b\x7d", "children"] m :=
      .call (List.mem_cons_of_mem _ List.mem_cons_self) (.call List.mem_cons_self (.member m))
    have hbelow : Expr.Navigates ["\x7b\x7d", "children"] :=
      ⟨"children", by decide, "CHILDREN", by decide, hname⟩
    rw [hsame]
    exact (hiff _ (.inl rfl) hnav h.defaultMember).2 (.inr ⟨_, m, h, hplace, hbelow,
      calendarCube_built.regular.hierarchyOf?_eq hh hm, hself _⟩)

end Sample

end Olap
