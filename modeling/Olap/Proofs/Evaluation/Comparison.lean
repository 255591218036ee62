import Olap.Proofs.Catalog.Positions
import Olap.Proofs.Evaluation.Independence
import Olap.Proofs.Evaluation.Results
import Olap.Proofs.Function.Sorting
import Olap.Proofs.Tuple.Legal

/-!
# What a sort along hierarchies compares

A sort needs a comparison that is a total preorder on what it sorts (`SortPath.Consistent`). On sort
paths it is one as long as the paths are steady, and not in general. The keys of ancestors are evaluated
with the other columns of a tuple in the context, so one ancestor may have different keys on the paths
of different tuples. Where the tuples lead with members of one hierarchy and differ in nothing else that
the sort expression reads, it has one key, and the sort compares consistently
(`Scene.Apt.sort_consistent`).
-/

set_option autoImplicit false

namespace Olap

open Std (TransCmp OrientedCmp)

/-! ## Total preorders of paths -/

namespace SortPath

variable {mode : SortMode} {ps : List SortPath} {p q r : SortPath}

/-- A sort compares the paths by a total preorder. -/
def Consistent (mode : SortMode) (ps : List SortPath) : Prop :=
  TransCmp fun p q : {p // p ∈ ps} => EvalM.orderPaths mode p q

theorem orderPaths_eq (hmode : mode.breaksHierarchy = false) :
    EvalM.orderPaths mode = order mode := by
  funext p q
  unfold EvalM.orderPaths
  rw [hmode]
  rfl

theorem orderPaths_swap (hmode : mode.breaksHierarchy = false) (p q : SortPath) :
    EvalM.orderPaths mode q p = (EvalM.orderPaths mode p q).swap := by
  rw [orderPaths_eq hmode]
  exact order_swap mode p q

theorem consistent_of_steady (hmode : mode.breaksHierarchy = false)
    (h : ∀ p ∈ ps, ∀ q ∈ ps, Steady mode p q) : Consistent mode ps where
  eq_swap {p q} := orderPaths_swap hmode q p
  isLE_trans {p q r} hpq hqr := by
    rw [orderPaths_eq hmode] at hpq hqr ⊢
    exact order_trans (h p p.2 q q.2) (h q q.2 r r.2) (h p p.2 r r.2) hpq hqr

theorem not_consistent_of_lt (hp : p ∈ ps) (hq : q ∈ ps) (hr : r ∈ ps)
    (hpr : EvalM.orderPaths mode p r = .lt) (hrq : EvalM.orderPaths mode r q = .lt)
    (hpq : EvalM.orderPaths mode p q ≠ .lt) : ¬ Consistent mode ps := by
  intro h
  exact hpq (h.lt_trans (a := ⟨p, hp⟩) (b := ⟨r, hr⟩) (c := ⟨q, hq⟩) hpr hrq)

/-- Between two paths that are not steady some path spoils the comparison. -/
theorem exists_not_consistent (hmode : mode.breaksHierarchy = false) (h : ¬ Steady mode p q) :
    ∃ r, ¬ Consistent mode [p, q, r] := by
  obtain ⟨r, hr⟩ := exists_between h
  rw [← orderPaths_eq hmode] at hr
  refine ⟨r, ?_⟩
  rcases hr with ⟨hpr, hrq, hpq⟩ | ⟨hqr, hrp, hqp⟩
  · exact not_consistent_of_lt (by simp) (by simp) (by simp) hpr hrq hpq
  · exact not_consistent_of_lt (by simp) (by simp) (by simp) hqr hrp hqp

end SortPath

/-! ## Tuples along one hierarchy -/

/-- The tuples lead with members of one hierarchy, which no other column is of; their other columns hold
the same of every hierarchy that is read. -/
def Cube.AlongOne (c : Cube) (reads : Nat → Prop) (rows : List Row) : Prop :=
  ∃ h ∈ c.hierarchies,
    (∀ r ∈ rows, ∃ m ∈ h.members, ∃ rest : Row, r = m :: rest ∧
      ∀ n ∈ rest, n.hierarchyOrdinal ≠ h.ordinal) ∧
    ∀ r ∈ rows, ∀ q ∈ rows, ∀ o, reads o →
      r.tail.filter (·.hierarchyOrdinal == o) = q.tail.filter (·.hierarchyOrdinal == o)

/-- A tuple that is made current leaves at each place the last of its members of that hierarchy. -/
theorem Row.getElem?_placedIn (r : Row) (κ : List Member) (o : Nat) :
    (r.placedIn κ)[o]? =
      κ[o]?.map fun m => (r.filter (·.hierarchyOrdinal == o)).getLast?.getD m := by
  induction r generalizing κ with
  | nil => exact (Option.map_id' (x := κ[o]?)).symm
  | cons n r ih =>
    show (Row.placedIn r (κ.set n.hierarchyOrdinal n))[o]? = _
    rw [ih, List.getElem?_set, List.filter_cons]
    by_cases heq : n.hierarchyOrdinal = o
    · rw [if_pos heq, if_pos (beq_iff_eq.2 heq), List.getLast?_cons, heq]
      rcases Nat.lt_or_ge o κ.length with hlt | hge
      · rw [if_pos hlt, List.getElem?_eq_getElem hlt]
        rfl
      · rw [if_neg (Nat.not_lt.2 hge), List.getElem?_eq_none hge]
        rfl
    · rw [if_neg heq, if_neg (by simpa using heq)]

theorem Row.placedIn_set {r : Row} {m : Member}
    (h : ∀ n ∈ r, n.hierarchyOrdinal ≠ m.hierarchyOrdinal) (κ : List Member) :
    (r.placedIn κ).set m.hierarchyOrdinal m = r.placedIn (κ.set m.hierarchyOrdinal m) := by
  induction r generalizing κ with
  | nil => rfl
  | cons n r ih =>
    obtain ⟨hn, hr⟩ := List.forall_mem_cons.1 h
    show (Row.placedIn r (κ.set n.hierarchyOrdinal n)).set _ m = _
    rw [ih hr, List.set_comm _ _ hn]
    rfl

/-- Moving to another member of the hierarchy of the leading member leads to the tuple with the other
member in its place. -/
theorem Row.placedIn_cons {r : Row} {m n : Member} (hsame : n.hierarchyOrdinal = m.hierarchyOrdinal)
    (h : ∀ k ∈ r, k.hierarchyOrdinal ≠ m.hierarchyOrdinal) (κ : List Member) :
    Row.placedIn [n] (Row.placedIn (m :: r) κ) = Row.placedIn (n :: r) κ := by
  show (Row.placedIn r (κ.set m.hierarchyOrdinal m)).set n.hierarchyOrdinal n = _
  rw [Row.placedIn_set (by rwa [hsame]), ← hsame, List.set_set]
  rfl

namespace Scene

variable {S : Scene} {d : Nat} {A : Nat → Prop} {key : EvalM SortKey} {mode : SortMode}

/-- On the sort path of a tuple along one hierarchy, each step has the key of the tuple with the member
of the step in its place. -/
theorem Sound.sortPath_keys (hc : S.env.cube.Regular) (hk : S.Sound d A key fun _ => True)
    (hmode : mode.breaksHierarchy = false) {h : Hierarchy} (hh : h ∈ S.env.cube.hierarchies)
    {rest : Row} (hrest : ∀ n ∈ rest, n.hierarchyOrdinal ≠ h.ordinal) {m : Member} (hm : m ∈ h.members)
    (hr : RowWithin S.domain (m :: rest)) {κ : List Member} (hκ : S.env.cube.Coordinate κ) :
    Produces (fun p : SortPath => ∀ e ∈ p, ∃ n ∈ h.members, e.1 = n.ordinal ∧
        S.resultAt d key (Row.placedIn (n :: rest) κ) = .ok e.2)
      (S.resultAt d (EvalM.sortPath mode key (m :: rest)) (Row.placedIn (m :: rest) κ)) := by
  have hregular := hc.hierarchy h hh
  have hordinal : m.hierarchyOrdinal = h.ordinal := hregular.ordinal m hm
  rw [hk.resultAt_sortPath hc hmode hr (hκ.placed hc hr)]
  have habove : Produces (fun above : SortPath => ∀ e ∈ above, ∃ n ∈ h.members, e.1 = n.ordinal ∧
        S.resultAt d key (Row.placedIn (n :: rest) κ) = .ok e.2)
      (m.ancestors.reverse.mapM fun a => do
        return (a.ordinal, ← S.resultAt d key (Row.placedIn [a] (Row.placedIn (m :: rest) κ)))) := by
    refine Produces.mapM fun a ha => ?_
    have ha := hregular.ancestors m hm a (List.mem_reverse.1 ha)
    have hsame : a.hierarchyOrdinal = m.hierarchyOrdinal :=
      (hregular.ordinal a ha).trans hordinal.symm
    rw [Row.placedIn_cons hsame (by rwa [hordinal])]
    rcases hkey : S.resultAt d key (Row.placedIn (a :: rest) κ) with e | k
    · exact .error
    · exact .ok ⟨a, ha, rfl, hkey⟩
  rcases hown : S.resultAt d key (Row.placedIn (m :: rest) κ) with e | own
  · exact .error
  · refine habove.bind fun above habove => .ok fun e he => ?_
    rcases List.mem_append.1 he with he | he
    · exact habove e he
    · obtain rfl := List.mem_singleton.1 he
      exact ⟨m, hm, rfl, hown⟩

/-- A member at the head of tuples that hold the same of what is read leads to contexts that agree. -/
theorem agreeOn_placedIn {rest rest' : Row} (n : Member) (κ : List Member)
    (h : ∀ o, A o → rest.filter (·.hierarchyOrdinal == o) = rest'.filter (·.hierarchyOrdinal == o)) :
    AgreeOn A (Row.placedIn (n :: rest) κ) (Row.placedIn (n :: rest') κ) := by
  intro o ho
  rw [Row.getElem?_placedIn, Row.getElem?_placedIn, List.filter_cons, List.filter_cons, h o ho]

/-- The paths of tuples along one hierarchy agree on the keys of what they share. -/
theorem Sound.consistent_paths (hcube : S.env.cube.Built) (hk : S.Sound d A key fun _ => True)
    (hmode : mode.breaksHierarchy = false) {l : TupleList} (hl : l.Within S.domain)
    (hone : S.env.cube.AlongOne A l.rows) {s : EvalState} (hs : S.Calm d s) {paths : List SortPath}
    (hpaths : ((EvalM.forEachRow (.list l) (EvalM.sortPath mode key)).exec S.env s).1 = .ok paths) :
    SortPath.Consistent mode paths := by
  obtain ⟨h, hh, hrows, hsame⟩ := hone
  have hc := hcube.regular
  have hwithin : (TupleSource.list l).Within S.domain := fun r hr => hl.rows hr
  have hpath (r : Row) (hr : r ∈ l.rows) : S.Sound d A (EvalM.sortPath mode key r) fun _ => True :=
    Sound.sortPath hc mode hk (hwithin r hr)
  have hsound := Sound.forEachRow hc hwithin fun r hr => (hpath r hr).weaken fun _ => .inl
  rw [hsound.fst_exec hs, Sound.resultAt_forEachRow hc hwithin
    (fun r hr => (hpath r hr).weaken fun _ => .inl) hs.coordinate] at hpaths
  have hkeys : ∀ p ∈ paths, ∃ r ∈ l.rows, ∀ e ∈ p, ∃ n ∈ h.members, e.1 = n.ordinal ∧
      S.resultAt d key (Row.placedIn (n :: r.tail) s.context) = .ok e.2 := by
    refine Produces.mapM (fun r hr => ?_) paths hpaths
    obtain ⟨m, hm, rest, rfl, hrest⟩ := hrows r hr
    intro p hp
    exact ⟨_, hr, hk.sortPath_keys hc hmode hh hrest hm (hwithin _ hr) hs.coordinate p hp⟩
  have hplaced (r : Row) (hr : r ∈ l.rows) {n : Member} (hn : n ∈ h.members) :
      S.env.cube.Coordinate (Row.placedIn (n :: r.tail) s.context) := by
    refine hs.coordinate.placed hc (RowWithin.cons ⟨h, hh, hn⟩ ?_)
    exact fun k hk => hwithin r hr k (List.mem_of_mem_tail hk)
  refine SortPath.consistent_of_steady hmode fun p hp q hq => SortPath.steadyTo_of_agree ?_
  intro a ha b hb hab
  obtain ⟨r, hr, hsteps⟩ := hkeys p hp
  obtain ⟨r', hr', hsteps'⟩ := hkeys q hq
  obtain ⟨m, hm, hordinal, hkey⟩ := hsteps a ha
  obtain ⟨n, hn, hordinal', hkey'⟩ := hsteps' b hb
  have hmn : m = n := hcube.eq_of_ordinal hh hm hn (by rw [← hordinal, ← hordinal', hab])
  subst hmn
  have hagree := agreeOn_placedIn m s.context (hsame r hr r' hr')
  rw [hk.resultAt_congr (hplaced r hr hm) (hplaced r' hr' hm) hagree, hkey'] at hkey
  exact (Except.ok.inj hkey).symm

/-! ## Sorting by a calculation -/

/-- The comparison that a sort along hierarchies makes is a total preorder on steady paths, and on no
less. Where a calculation anywhere in a tree is the sort expression, the paths of tuples along one
hierarchy, which differ in nothing else that it reads, are compared consistently. -/
theorem Apt.sort_consistent (H : S.Apt) (hcube : S.env.cube.Built) {c : Calc} {a : Address}
    {level : Nat} (hat : S.root.At S.address a level c) (byText : Bool)
    (hmode : mode.breaksHierarchy = false) {l : TupleList} (hl : l.Within S.domain) {s : EvalState}
    (hs : S.Calm (S.depth + level) s) {paths : List SortPath}
    (hpaths : ((EvalM.forEachRow (.list l)
      (EvalM.sortPath mode (EvalM.sortKey byText (c.evaluate a)))).exec S.env s).1 = .ok paths) :
    (∀ p q, EvalM.orderPaths mode q p = (EvalM.orderPaths mode p q).swap) ∧
      ((∀ p ∈ paths, ∀ q ∈ paths, SortPath.Steady mode p q) → SortPath.Consistent mode paths) ∧
      (∀ p q, ¬ SortPath.Steady mode p q → ∃ r, ¬ SortPath.Consistent mode [p, q, r]) ∧
      (S.env.cube.AlongOne (S.Reads c) l.rows → SortPath.Consistent mode paths) := by
  have hkey := Sound.sortKey H.regular (H.sound (hat.every H.formed) hat) byText
  exact ⟨SortPath.orderPaths_swap hmode, SortPath.consistent_of_steady hmode,
    fun p q => SortPath.exists_not_consistent hmode,
    fun hone => hkey.consistent_paths hcube hmode hl hone hs hpaths⟩

end Scene

namespace Sample

/-- The cell of the amount over one fact. -/
def amounts : Scene := ⟨environment, [⟨[amount], 5⟩], false, amountTree, [0], 0⟩

theorem amounts_apt : amounts.Apt where
  regular := cube_built.regular
  distinct := cube_distinct
  within := environment_within
  formed := amountTree_formed
  truthful := amountTree_truthful _ _
  covered := Scene.covered_of_not_nonEmpty cube_built.regular amountTree_formed rfl

def bothMeasuresList : TupleList := ⟨1, 0, #[amount, cost, amount], Nat.one_pos⟩

theorem alongOne_bothMeasuresList (reads : Nat → Prop) :
    amounts.env.cube.AlongOne reads bothMeasuresList.rows ∧
    bothMeasuresList.Within amounts.domain := by
  obtain ⟨h, hhierarchies⟩ : ∃ h, cube.hierarchies = [h] :=
    List.length_eq_one_iff.1 length_hierarchies
  have hh : h ∈ cube.hierarchies := by rw [hhierarchies]; exact List.mem_singleton_self h
  have hmeasure {k : Nat} (hk : k < 2) : measure k ∈ h.members := by
    obtain ⟨h', hh', hm⟩ := measure_mem hk
    rw [hhierarchies, List.mem_singleton] at hh'
    rwa [hh'] at hm
  have hamount : amount ∈ h.members := hmeasure (by decide)
  have hcost : cost ∈ h.members := hmeasure (by decide)
  have hmembers : ∀ m ∈ bothMeasuresList.members.toList, m ∈ h.members :=
    List.forall_mem_cons.2 ⟨hamount, List.forall_mem_cons.2
      ⟨hcost, List.forall_mem_singleton.2 hamount⟩⟩
  have hrows : ∀ r ∈ bothMeasuresList.rows, ∃ m ∈ h.members, r = [m] := by
    intro r hr
    rw [TupleList.rows_of_arity_one rfl] at hr
    obtain ⟨m, hm, rfl⟩ := List.mem_map.1 hr
    exact ⟨m, hmembers m hm, rfl⟩
  refine ⟨⟨h, hh, fun r hr => ?_, fun r hr q hq o _ => ?_⟩, fun m hm =>
    ⟨h, hh, hmembers m (Array.mem_toList_iff.2 hm)⟩⟩
  · obtain ⟨m, hm, rfl⟩ := hrows r hr
    exact ⟨m, hm, [], rfl, List.forall_mem_nil _⟩
  · obtain ⟨m, -, rfl⟩ := hrows r hr
    obtain ⟨n, -, rfl⟩ := hrows q hq
    rfl

theorem sort_consistent_cells : amounts.Apt ∧ amounts.env.cube.Built ∧
    amounts.root.At amounts.address [0] 0 amountTree ∧ bothMeasuresList.Within amounts.domain ∧
    amounts.env.cube.AlongOne (amounts.Reads amountTree) bothMeasuresList.rows ∧
    ∃ s, amounts.Calm 0 s ∧ ∃ paths, ((EvalM.forEachRow (.list bothMeasuresList)
        (EvalM.sortPath ⟨true, false⟩ (EvalM.sortKey false (amountTree.evaluate [0])))).exec
          amounts.env s).1 = .ok paths ∧
      SortPath.Consistent ⟨true, false⟩ paths := by
  obtain ⟨hone, hwithin⟩ := alongOne_bothMeasuresList (amounts.Reads amountTree)
  have hcalm := amounts.calm_fresh (d := 0) (Cube.coordinate_defaultMembers cube)
  have hok : ((EvalM.forEachRow (.list bothMeasuresList)
      (EvalM.sortPath ⟨true, false⟩ (EvalM.sortKey false (amountTree.evaluate [0])))).exec
        amounts.env (amounts.fresh cube.defaultMembers 0)).1.toOption.isSome = true := by
    decide +kernel
  obtain ⟨paths, hpaths⟩ := exists_ok_of_isSome hok
  obtain ⟨-, -, -, hconsistent⟩ :=
    Scene.Apt.sort_consistent amounts_apt cube_built .root false rfl hwithin hcalm hpaths
  exact ⟨amounts_apt, cube_built, .root, hwithin, hone, _, hcalm, paths, hpaths, hconsistent hone⟩

/-- Three paths in a circle. The first and the second go along the same member, whose key is 3 on the one
and 1 on the other; the third goes along a member whose key lies in between. -/
example :
    let p : SortPath := [(0, .number (some ⟨3⟩))]
    let q : SortPath := [(0, .number (some ⟨1⟩)), (1, .number (some ⟨1⟩))]
    let r : SortPath := [(2, .number (some ⟨2⟩))]
    SortPath.order ⟨false, false⟩ p q = .lt ∧ SortPath.order ⟨false, false⟩ q r = .lt ∧
      SortPath.order ⟨false, false⟩ r p = .lt := by
  decide

end Sample

end Olap
