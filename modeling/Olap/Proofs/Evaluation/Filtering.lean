import Olap.Proofs.Evaluation.Joins
import Olap.Proofs.Evaluation.Rounds
import Olap.Proofs.Evaluation.Session
import Olap.Proofs.Function.Arity

/-!
# `Filter`

As long as the keys of kept results determine them (`Scene.Keyed`), `Filter` gives the tuples of its set
for which the condition is true when it is evaluated with the tuple placed in the context, and fails as
the first of these evaluations does (`Scene.Keyed.valueAt_filter`). So a filter of a filter gives what
one filter by both conditions does, unless the second condition, which stands deeper there, stands too
deep (`Scene.Keyed.filters_fuse`). Calls of `Filter` and of `AND` compile to such trees, of the same
parts (`Expr.filter_exact_and_fused`).
-/

set_option autoImplicit false

namespace Olap

/-! ## What a filter has to give -/

theorem TupleList.empty_arity_empty (arity limit : Nat) :
    empty (empty arity limit).arity limit = empty arity limit := by
  have harity : max (max arity 1) 1 = max arity 1 := Nat.max_eq_left (Nat.le_max_right arity 1)
  simp only [empty, harity]

/-- Without a limit, some tuples of an even source can be added to a list. -/
theorem TupleSource.Even.exists_selected {p : TupleSource} (hp : p.Even) {limit : Nat}
    (hlimit : limit = 0) (k : Row → Bool) :
    ∃ l, (p.rows.filter k).foldlM TupleList.add (.empty p.arity limit) = .ok l ∧
      l.rows = p.rows.filter k := by
  obtain ⟨l, hl⟩ : ∃ l, (p.rows.filter k).foldlM TupleList.add (.empty p.arity limit) = .ok l := by
    refine TupleList.exists_foldlM_add_empty_iff.2 ⟨fun r hr => ?_, by omega⟩
    rw [hp.rows r (List.mem_of_mem_filter hr)]
    exact (Nat.max_eq_left hp.columns).symm
  obtain ⟨-, -, hrows⟩ := TupleList.foldlM_add_empty hl
  exact ⟨l, hl, hrows⟩

namespace Calc

/-- A filter of a filter. -/
def nestedFilter (i j : CalcInfo) (set first second : Calc) : Calc :=
  .node i .filter [.node j .filter [set, first], second]

/-- A filter by two conditions. -/
def jointFilter (i j : CalcInfo) (set first second : Calc) : Calc :=
  .node i .filter [set, .node j .conjunction [first, second]]

/-- The set that the tree gives. -/
def sourceAt (c : Calc) (env : Environment) (a : Address) (s : EvalState) :
    Except CalcError TupleSource :=
  c.valueAt env a s >>= Value.toSource

/-- The truth of the tree with a tuple placed in the context; null counts as false. -/
def truthAt (c : Calc) (env : Environment) (a : Address) (s : EvalState) (r : Row) :
    Except CalcError Bool :=
  c.valueAt env a (s.setRow r) >>= Value.toBool

/-- The tuples of a set for which a condition is true with the tuple placed in the context; the first
evaluation of the condition that fails is the failure. -/
def filteredAt (set condition : Calc) (env : Environment) (a : Address) (s : EvalState) :
    Except CalcError TupleList := do
  let p ← set.sourceAt env (0 :: a) s
  let kept ← p.rows.filterM (condition.truthAt env (1 :: a) s)
  kept.foldlM TupleList.add (.empty p.arity env.config.resultLimit)

theorem filteredAt_of_source {set condition : Calc} {env : Environment} {a : Address} {s : EvalState}
    {p : TupleSource} (hset : set.sourceAt env (0 :: a) s = .ok p) :
    set.filteredAt condition env a s = p.rows.filterM (condition.truthAt env (1 :: a) s) >>=
      List.foldlM TupleList.add (.empty p.arity env.config.resultLimit) := by
  rw [filteredAt, hset]
  rfl

/-- If the condition does not fail, these are the tuples for which it is true. -/
theorem filteredAt_of_ok {set condition : Calc} {env : Environment} {a : Address} {s : EvalState}
    {p : TupleSource} {k : Row → Bool} (hlimit : env.config.resultLimit = 0) (hp : p.Even)
    (hset : set.sourceAt env (0 :: a) s = .ok p)
    (htruth : ∀ r ∈ p.rows, condition.truthAt env (1 :: a) s r = .ok (k r)) :
    ∃ l, set.filteredAt condition env a s = .ok l ∧ l.rows = p.rows.filter k := by
  rw [filteredAt_of_source hset, Row.filterM_of_ok htruth]
  exact hp.exists_selected hlimit k

/-- Where a calculation gives a value, the nesting is not too deep. -/
theorem depth_of_valueAt {c : Calc} {env : Environment} {a : Address} {s : EvalState} {v : Value}
    (h : c.valueAt env a s = .ok v) : s.depth < env.config.maxEvalDepth := by
  by_contra hdeep
  rw [valueAt, c.exec_evaluate_limited a (Nat.not_lt.1 hdeep)] at h
  cases h

end Calc

/-! ## Filters in keyed scenes -/

namespace Scene

variable {S : Scene} {a b : Address} {level d : Nat} {s u : EvalState} {info : CalcInfo}
  {c set condition : Calc}

/-- A calculation of a keyed scene gives what it gives anywhere from a fresh start. -/
theorem Keyed.valueAt_fresh (H : S.Keyed) (hat : S.root.At S.address a level c)
    (hs : S.Calm (S.depth + level) s) :
    c.valueAt S.env a s = c.valueAt S.env [] (S.fresh s.context (S.depth + level)) := by
  have hsound := H.sound (hat.every H.formed) hat
  exact (hsound.agrees s _ hs (calm_fresh hs.coordinate) (.refl _ _)).trans
    (c.evaluate_cleared a [] S.env (S.fresh s.context (S.depth + level)))

/-- The sets that calculations give hold members of the cube. -/
theorem Keyed.source_within (H : S.Keyed) (hat : S.root.At S.address a level c)
    (hs : S.Calm (S.depth + level) s) {p : TupleSource} (hp : c.sourceAt S.env a s = .ok p) :
    p.Within S.domain := by
  obtain ⟨v, hv, hpv⟩ := exists_of_bind_ok hp
  have hends := (H.sound (hat.every H.formed) hat).ends s hs
  exact (Value.toSource_yields (hends.result v hv)).of_ok hpv

/-- A loop that evaluates a calculation with each tuple of a set placed in the context. -/
theorem Keyed.exec_truths (H : S.Keyed) (hat : S.root.At S.address a level c) {p : TupleSource}
    (hp : p.Within S.domain) (hs : S.Calm (S.depth + level) s)
    (hu : S.Calm (S.depth + level) u) (hcontext : u.context = s.context) :
    ((EvalM.forEachRow p fun _ => EvalM.asBool (c.evaluate a)).exec S.env u).1 =
      p.rows.mapM (c.truthAt S.env a s) := by
  have hsound := H.sound (hat.every H.formed) hat
  have htruth : S.Sound (S.depth + level) (fun _ => True) (EvalM.asBool (c.evaluate a))
      fun _ => True := hsound.bind fun _ _ => .lift fun _ _ => trivial
  let P (v : EvalState) : Prop := S.Calm (S.depth + level) v ∧ v.context = s.context
  have hstep {α : Type} {x : EvalM α} (hx : S.Sound (S.depth + level) (fun _ => True) x fun _ => True)
      {v : EvalState} (hv : P v) : P (x.exec S.env v).2 :=
    ⟨hx.calm hv.1, (hx.ends v hv.1).frame.context.trans hv.2⟩
  have hpoll (round : Nat) (v : EvalState) (hv : P v) :
      ∃ w, (EvalM.poll round).exec S.env v = (.ok (), w) ∧ P w := by
    refine ⟨_, ?_, hstep (.poll round) hv⟩
    rw [EvalM.exec_poll, Execution.checkRound_of_running hv.1.running]
  have hround (r : Row) (hr : r ∈ p.rows) (v : EvalState) (hv : P v) :
      ∃ w, (EvalM.withRow r (EvalM.asBool (c.evaluate a))).exec S.env v =
        (c.truthAt S.env a s r, w) ∧ P w := by
    have hplaced : S.Sound (S.depth + level) (fun _ => True)
        (EvalM.withRow r (EvalM.asBool (c.evaluate a))) fun _ => True :=
      .withRow H.regular (hp r hr) (htruth.weaken fun _ _ => .inl trivial)
    have hsame : AgreeOn (fun _ => True) (v.setRow r).context (s.setRow r).context := by
      rw [EvalState.context_setRow, EvalState.context_setRow, hv.2]
      exact .refl _ _
    refine ⟨_, Prod.ext ?_ rfl, hstep hplaced hv⟩
    rw [EvalM.exec_withRow, EvalM.asBool, EvalM.exec_bind_lift]
    have hvalue := hsound.agrees _ _ (hv.1.setRow H.regular (hp r hr)) (hs.setRow H.regular (hp r hr))
      hsame
    exact congrArg (· >>= Value.toBool) hvalue
  obtain ⟨t, ht, -⟩ := EvalM.exec_forEachRow hpoll hround ⟨hu, hcontext⟩
  rw [ht]

theorem Keyed.valueAt_filter (H : S.Keyed)
    (hat : S.root.At S.address a level (.node info .filter [set, condition]))
    (hs : S.Calm (S.depth + level) s) (hdepth : s.depth < S.env.config.maxEvalDepth) :
    (Calc.node info .filter [set, condition]).valueAt S.env a s =
      Value.list <$> set.filteredAt condition S.env a (EvalM.entered s) := by
  have hentered : S.Calm (S.depth + (level + 1)) (EvalM.entered s) := hs.entered
  have hset := H.sound ((hat.every H.formed).child set List.mem_cons_self) (.child (k := 0) hat rfl)
  have hcondition : S.root.At S.address (1 :: a) (level + 1) condition := .child hat rfl
  have hsource : (EvalM.asSource (set.evaluate (0 :: a))).exec S.env (EvalM.entered s) =
      (set.sourceAt S.env (0 :: a) (EvalM.entered s), _) := EvalM.exec_bind_lift _ _
  let body : EvalM Value := EvalM.asSource (set.evaluate (0 :: a)) >>= fun p =>
    EvalM.forEachRow p (fun _ => EvalM.asBool (condition.evaluate (1 :: a))) >>= fun keep =>
      EvalM.select p keep >>= fun l => pure (.list l)
  have hbody : ((Calc.node info .filter [set, condition]).evaluate a) =
    EvalM.calculation a body := rfl
  rw [Calc.valueAt, hbody, EvalM.exec_calculation a _ hdepth]
  rcases hp : set.sourceAt S.env (0 :: a) (EvalM.entered s) with e | p
  · rw [hp] at hsource
    rw [Calc.filteredAt, hp]
    exact congrArg Prod.fst (EvalM.exec_bind_error hsource)
  · rw [hp] at hsource
    rw [Calc.filteredAt_of_source hp]
    have hwithin := H.source_within (.child (k := 0) hat rfl) hentered hp
    have hloop := H.exec_truths hcondition hwithin hentered (hset.calm hentered)
      (hset.ends _ hentered).frame.context
    have hafter : (body.exec S.env (EvalM.entered s)).1 = _ :=
      congrArg Prod.fst (EvalM.exec_bind_ok hsource)
    rw [hafter, Row.filterM_eq, ← hloop]
    rcases hrounds : (EvalM.forEachRow p fun _ => EvalM.asBool (condition.evaluate (1 :: a))).exec
      S.env _ with ⟨e | keep, t⟩
    · rw [EvalM.exec_bind_error hrounds]
      rfl
    · rw [EvalM.exec_bind_ok hrounds, EvalM.exec_bind_pure, EvalM.exec_select]
      rfl

/-- What a filter that gives a value has done. -/
theorem Keyed.filter_eq_ok (H : S.Keyed)
    (hat : S.root.At S.address a level (.node info .filter [set, condition]))
    (hs : S.Calm (S.depth + level) s) {v : Value}
    (hv : (Calc.node info .filter [set, condition]).valueAt S.env a s = .ok v) :
    s.depth < S.env.config.maxEvalDepth ∧ ∃ p l, v = .list l ∧
      set.sourceAt S.env (0 :: a) (EvalM.entered s) = .ok p ∧
      p.rows.filterM (condition.truthAt S.env (1 :: a) (EvalM.entered s)) = .ok l.rows ∧
      l.rows.foldlM TupleList.add (.empty p.arity S.env.config.resultLimit) = .ok l := by
  have hdepth := Calc.depth_of_valueAt hv
  refine ⟨hdepth, ?_⟩
  rw [H.valueAt_filter hat hs hdepth] at hv
  obtain ⟨l, hfiltered, rfl⟩ := map_eq_ok.1 hv
  obtain ⟨p, hp, hfiltered⟩ := bind_eq_ok.1 hfiltered
  obtain ⟨kept, hkept, hl⟩ := bind_eq_ok.1 hfiltered
  obtain ⟨-, -, rfl⟩ := TupleList.foldlM_add_empty hl
  exact ⟨p, l, rfl, hp, hkept, hl⟩

/-- The second of two conditions is evaluated only if the first one is true. -/
theorem Keyed.valueAt_conjunction (H : S.Keyed) {l r : Calc}
    (hat : S.root.At S.address a level (.node info .conjunction [l, r]))
    (hs : S.Calm (S.depth + level) s) (hdepth : s.depth < S.env.config.maxEvalDepth) :
    (Calc.node info .conjunction [l, r]).valueAt S.env a s >>= Value.toBool = do
      if ← l.valueAt S.env (0 :: a) (EvalM.entered s) >>= Value.toBool then
        r.valueAt S.env (1 :: a) (EvalM.entered s) >>= Value.toBool
      else return false := by
  have hentered : S.Calm (S.depth + (level + 1)) (EvalM.entered s) := hs.entered
  have hformed := hat.every H.formed
  have hl := H.sound (hformed.child l List.mem_cons_self) (.child (k := 0) hat rfl)
  have hr := H.sound (hformed.child r (List.mem_cons_of_mem _ List.mem_cons_self))
    (.child (k := 1) hat rfl)
  let body : EvalM Value := EvalM.asBool (l.evaluate (0 :: a)) >>= fun first =>
    if first then EvalM.asBool (r.evaluate (1 :: a)) >>= fun second => pure (.bool second)
    else pure (.bool false)
  have hbody : (Calc.node info .conjunction [l, r]).evaluate a = EvalM.calculation a body := rfl
  have hfirst : (EvalM.asBool (l.evaluate (0 :: a))).exec S.env (EvalM.entered s) =
      (l.valueAt S.env (0 :: a) (EvalM.entered s) >>= Value.toBool, _) := EvalM.exec_bind_lift _ _
  rw [Calc.valueAt, hbody, EvalM.exec_calculation a _ hdepth]
  rcases hvalue : l.valueAt S.env (0 :: a) (EvalM.entered s) >>= Value.toBool with e | first
  all_goals rw [hvalue] at hfirst
  · have hafter : (body.exec S.env (EvalM.entered s)).1 = .error e :=
      congrArg Prod.fst (EvalM.exec_bind_error hfirst)
    rw [hafter]
    rfl
  · have hafter : (body.exec S.env (EvalM.entered s)).1 = _ :=
      congrArg Prod.fst (EvalM.exec_bind_ok hfirst)
    rw [hafter]
    cases first with
    | false => rfl
    | true =>
      -- the first condition leaves the context as it was
      have hsame : AgreeOn (fun _ => True)
          ((l.evaluate (0 :: a)).exec S.env (EvalM.entered s)).2.context
          (EvalM.entered s).context := by
        rw [(hl.ends _ hentered).frame.context]
        exact .refl _ _
      have hsecond := hr.agrees _ _ (hl.calm hentered) hentered hsame
      rw [if_pos rfl, EvalM.exec_bind_pure, EvalM.asBool, EvalM.exec_bind_lift, hsecond]
      show (Value.bool <$> (r.valueAt S.env (1 :: a) (EvalM.entered s) >>= Value.toBool)) >>= _ = _
      rcases r.valueAt S.env (1 :: a) (EvalM.entered s) >>= Value.toBool with e | second <;> rfl

/-! ## A filter of a filter -/

section
variable (HS : S.Keyed) {root : Calc} {start : Address}
  (HT : Keyed { S with root, address := start }) {level' : Nat} {t : EvalState}
  (hat : S.root.At S.address a level c) (hat' : root.At start b level' c)
  (hs : S.Calm (S.depth + level) s) (ht : Calm { S with root, address := start } (S.depth + level') t)
  (hcontext : t.context = s.context)
include HS HT hat hat' hs ht hcontext

/-- A calculation gives the same in two trees, if it stands as deep in both. -/
theorem Keyed.valueAt_moved (hlevel : level' = level) : c.valueAt S.env b t = c.valueAt S.env a s := by
  subst hlevel
  have hfresh := HT.valueAt_fresh hat' ht
  rw [hcontext] at hfresh
  exact hfresh.trans (HS.valueAt_fresh hat hs).symm

/-- If it stands one level deeper, the nesting may be too deep. -/
theorem Keyed.valueAt_moved_deeper (hlevel : level' = level + 1) :
    c.valueAt S.env b t = .error (.recursionLimit S.env.config.maxEvalDepth) ∨
      c.valueAt S.env b t = c.valueAt S.env a s := by
  subst hlevel
  have hfresh := HT.valueAt_fresh hat' ht
  rw [hcontext] at hfresh
  rw [HS.valueAt_fresh hat hs]
  exact (c.evaluate_deeper [] S.env (S.fresh s.context (S.depth + level))).imp hfresh.trans
    hfresh.trans

end

section
variable {env : Environment} {facts : List Fact} {flag : Bool} {A B : Address}
  {i j k m : CalcInfo} {first second : Calc}
  (HN : Keyed ⟨env, facts, flag, .nestedFilter i j set first second, A, d⟩)
  (HM : Keyed ⟨env, facts, flag, .jointFilter k m set first second, B, d⟩)
include HN HM

/-- A tuple satisfies both conditions at once if it satisfies the second one after the first one, unless
the second condition is nested too deep. -/
theorem Keyed.truthAt_joint
    (hs : Calm ⟨env, facts, flag, .nestedFilter i j set first second, A, d⟩ (d + 1) s)
    (ht : Calm ⟨env, facts, flag, .jointFilter k m set first second, B, d⟩ (d + 1) s)
    (hdepth : s.depth < env.config.maxEvalDepth) {r : Row}
    (hr : RowWithin (Domain.ofCube env.cube) r) :
    (Calc.node m .conjunction [first, second]).truthAt env (1 :: B) s r =
        .error (.recursionLimit env.config.maxEvalDepth) ∨
      (Calc.node m .conjunction [first, second]).truthAt env (1 :: B) s r = do
        if ← first.truthAt env (1 :: 0 :: A) (EvalM.entered s) r then second.truthAt env (1 :: A) s r
        else return false := by
  have hatJoint : (Calc.jointFilter k m set first second).At B (1 :: B) 1 _ := .child (k := 1) .root rfl
  have hatNested : (Calc.nestedFilter i j set first second).At A (0 :: A) 1 _ :=
    .child (k := 0) .root rfl
  have hnested := hs.setRow HN.regular hr
  have hjoint := ht.setRow HM.regular hr
  have hfirst : first.valueAt env (0 :: 1 :: B) (EvalM.entered (s.setRow r)) =
      first.valueAt env (1 :: 0 :: A) (EvalM.entered (s.setRow r)) :=
    HN.valueAt_moved HM (.child (k := 1) hatNested rfl) (.child (k := 0) hatJoint rfl)
      hnested.entered hjoint.entered rfl rfl
  have hsecond : second.valueAt env (1 :: 1 :: B) (EvalM.entered (s.setRow r)) = .error _ ∨
      second.valueAt env (1 :: 1 :: B) (EvalM.entered (s.setRow r)) =
        second.valueAt env (1 :: A) (s.setRow r) :=
    HN.valueAt_moved_deeper HM (.child (k := 1) .root rfl) (.child (k := 1) hatJoint rfl) hnested
      hjoint.entered rfl rfl
  rw [Calc.truthAt, Calc.truthAt, Calc.truthAt,
    HM.valueAt_conjunction hatJoint hjoint (by rwa [EvalState.depth_setRow]), EvalM.entered_setRow]
  change (do
    if ← first.valueAt env (0 :: 1 :: B) (EvalM.entered (s.setRow r)) >>= Value.toBool then
      second.valueAt env (1 :: 1 :: B) (EvalM.entered (s.setRow r)) >>= Value.toBool
    else return false) = _ ∨ _
  rw [hfirst]
  rcases first.valueAt env (1 :: 0 :: A) (EvalM.entered (s.setRow r)) >>= Value.toBool with e | holds
  · exact .inr rfl
  · cases holds with
    | false => exact .inr rfl
    | true =>
      refine hsecond.imp (fun hlimit => ?_) fun hsame => ?_
      · rw [hlimit]
        rfl
      · rw [hsame]

/-- Filtering by one condition and then by another one gives what filtering by both conditions gives,
unless the second condition is nested too deep there. -/
theorem Keyed.filters_fuse
    (hs : Calm ⟨env, facts, flag, .nestedFilter i j set first second, A, d⟩ d s)
    (ht : Calm ⟨env, facts, flag, .jointFilter k m set first second, B, d⟩ d s) {v : Value}
    (hv : (Calc.nestedFilter i j set first second).valueAt env A s = .ok v) :
    (Calc.jointFilter k m set first second).valueAt env B s =
        .error (.recursionLimit env.config.maxEvalDepth) ∨
      (Calc.jointFilter k m set first second).valueAt env B s = .ok v := by
  obtain ⟨hdepth, p, l, rfl, hp, hkept, hl⟩ := HN.filter_eq_ok .root hs hv
  obtain ⟨w, hw, hwp⟩ := exists_of_bind_ok hp
  obtain ⟨hdepth', q, l', rfl, hq, hkept', hl'⟩ :=
    HN.filter_eq_ok (.child (k := 0) .root rfl) hs.entered hw
  cases hwp
  have hatSet : (Calc.jointFilter k m set first second).At B (0 :: B) 1 set :=
    .child (k := 0) .root rfl
  have hatNested : (Calc.nestedFilter i j set first second).At A (0 :: A) 1 _ :=
    .child (k := 0) .root rfl
  -- the set gives the same on both sides
  have hsource : set.sourceAt env (0 :: B) (EvalM.entered s) = .ok q := by
    obtain ⟨x, hx, -⟩ := exists_of_bind_ok hq
    rcases HM.valueAt_moved_deeper HN hatSet (.child (k := 0) hatNested rfl) ht.entered
      hs.entered.entered rfl rfl with hlimit | hsame
    · cases hx.symm.trans hlimit
    · rw [Calc.sourceAt, ← hsame]
      exact hq
  have hwithin : q.Within (Domain.ofCube env.cube) := HM.source_within hatSet ht.entered hsource
  rw [Calc.jointFilter, HM.valueAt_filter .root ht hdepth, Calc.filteredAt_of_source hsource]
  have hboth (r : Row) (hr : r ∈ q.rows) :=
    HN.truthAt_joint HM hs.entered ht.entered hdepth' (hwithin r hr)
  rcases Row.filterM_both hboth hkept' hkept with h | h
  all_goals rw [h]
  · exact .inl rfl
  · obtain ⟨-, harity, -⟩ := (TupleList.legal_empty q.arity env.config.resultLimit).foldlM_add hl'
    change l.rows.foldlM TupleList.add (.empty l'.arity env.config.resultLimit) = _ at hl
    rw [harity, TupleList.empty_arity_empty] at hl
    exact .inr (congrArg (Value.list <$> ·) hl)

end

end Scene

/-! ## Trees that filter -/

namespace Calc

/-- The tree is a filter. In every state of a scene in which the keys of kept results determine them, it
gives the tuples that it has to give: those for which the condition is true, if it never fails. -/
def FiltersExactly (env : Environment) (tree : Calc) : Prop :=
  ∃ info set condition, tree = .node info .filter [set, condition] ∧
    ∀ (facts : List Fact) (flag : Bool) (a : Address) (d : Nat) (s : EvalState),
      Scene.Determined ⟨env, facts, flag, tree, a, d⟩ →
        Scene.Calm ⟨env, facts, flag, tree, a, d⟩ d s → s.depth < env.config.maxEvalDepth →
          tree.valueAt env a s = Value.list <$> set.filteredAt condition env a (EvalM.entered s) ∧
            ∀ (p : TupleSource) (k : Row → Bool), env.config.resultLimit = 0 → p.Even →
              set.sourceAt env (0 :: a) (EvalM.entered s) = .ok p →
                (∀ r ∈ p.rows, condition.truthAt env (1 :: a) (EvalM.entered s) r = .ok (k r)) →
                  ∃ l, tree.valueAt env a s = .ok (.list l) ∧ l.rows = p.rows.filter k

/-- In every state of a scene in which the keys of kept results determine them, the other tree gives
what the tree gives, unless it is nested too deep. -/
def FusesTo (env : Environment) (tree joint : Calc) : Prop :=
  ∀ (facts : List Fact) (flag : Bool) (a b : Address) (d : Nat) (s : EvalState) (v : Value),
    Scene.Determined ⟨env, facts, flag, tree, a, d⟩ →
      Scene.Determined ⟨env, facts, flag, joint, b, d⟩ →
        Scene.Calm ⟨env, facts, flag, tree, a, d⟩ d s →
          Scene.Calm ⟨env, facts, flag, joint, b, d⟩ d s → tree.valueAt env a s = .ok v →
            joint.valueAt env b s = .error (.recursionLimit env.config.maxEvalDepth) ∨
              joint.valueAt env b s = .ok v

section
variable {env : Environment} (hregular : env.cube.Regular)
  (henv : env.Within (Domain.ofCube env.cube)) {i j k m : CalcInfo} {set first second : Calc}
include hregular henv

theorem Formed.filtersExactly
    (h : (node i .filter [set, first]).Formed env.cube (Domain.ofCube env.cube) True) :
    (node i .filter [set, first]).FiltersExactly env := by
  refine ⟨i, set, first, rfl, fun facts flag a d s hdetermined hs hdepth => ?_⟩
  have H : Scene.Keyed ⟨env, facts, flag, _, a, d⟩ := ⟨hregular, henv, h, hdetermined⟩
  have hvalue := H.valueAt_filter .root hs hdepth
  refine ⟨hvalue, fun p k hlimit hp hsource htruth => ?_⟩
  obtain ⟨l, hl, hrows⟩ := filteredAt_of_ok hlimit hp hsource htruth
  refine ⟨l, ?_, hrows⟩
  rw [hl] at hvalue
  exact hvalue

theorem Formed.fusesTo
    (h : (nestedFilter i j set first second).Formed env.cube (Domain.ofCube env.cube) True)
    (h' : (jointFilter k m set first second).Formed env.cube (Domain.ofCube env.cube) True) :
    (nestedFilter i j set first second).FusesTo env (jointFilter k m set first second) := by
  intro facts flag a b d s v hnested hjoint hs ht hv
  exact Scene.Keyed.filters_fuse ⟨hregular, henv, h, hnested⟩ ⟨hregular, henv, h', hjoint⟩ hs ht hv

end

end Calc

/-! ## Calls of `Filter` and `AND` -/

namespace Calc

/-- The tree of a call of `Filter`. -/
def filtering (type : ExprType) (set condition : Calc) : Calc :=
  (plain "Filter" type .filter [set, condition]).withRule .allButFirst

/-- The tree of a call of `AND`. -/
def conjoining (first second : Calc) : Calc := plain "AND" .boolean .conjunction [first, second]

end Calc

namespace Expr

open FunctionTable (Sole)

/-- `Filter(set, condition)` -/
def filtered (set condition : Expr) : Expr := .call "Filter" .function [set, condition]

/-- `first AND second` -/
def conjoined (first second : Expr) : Expr := .call "AND" .infixOp [first, second]

/-- The overload of `Filter`. -/
def filterOverload : Definition :=
  ⟨⟨"Filter", .function, .set, [.set, .logical]⟩, "", [], .declared, .filter⟩

/-- The overload of `AND`. -/
def conjunctionOverload : Definition :=
  ⟨⟨"AND", .infixOp, .logical, [.logical, .logical]⟩, "", [], .declared, .conjunction⟩

-- they are looked up together, since each is compared with the whole table
theorem sole_conditions : FunctionTable.builtin.Sole "Filter" .function filterOverload ∧
    FunctionTable.builtin.Sole "AND" .infixOp conjunctionOverload := by
  decide +kernel

section
variable {cube : Cube} {d : Definition} {type : ExprType} {l r : Expr} {c : Calc}
  (hl : (l.toOperand cube).Settled) (hr : (r.toOperand cube).Settled)
include hl hr

/-- A call of `Filter` compiles to one tree, of the trees of its arguments. -/
theorem compile_filter_iff (hd : d.body = .filter) (styles : List ResultStyle) :
    (Expr.bound d type [l, r]).compile cube styles = .ok c ↔ ∃ set condition,
      (l.toOperand cube).iterable [] = .ok set ∧ (r.toOperand cube).scalar [] = .ok condition ∧
        c = .filtering type set condition := by
  have hcompile : (Expr.bound d type [l, r]).compile cube styles = do
      let set ← (l.toOperand cube).iterable styles
      let condition ← (r.toOperand cube).scalar styles
      return .filtering type set condition := by
    show BoundCall.compile _ cube styles = _
    rw [BoundCall.compile, hd]
    rfl
  rw [hcompile, hl.iterable styles [], hr.scalar styles []]
  exact bind_pair_ok_iff

/-- The same tree gives the set to who walks through it. -/
theorem iterable_filter_iff (hd : d.body = .filter) (htype : type.isSet = true)
    (styles : List ResultStyle) :
    ((Expr.bound d type [l, r]).toOperand cube).iterable styles = .ok c ↔ ∃ set condition,
      (l.toOperand cube).iterable [] = .ok set ∧ (r.toOperand cube).scalar [] = .ok condition ∧
        c = .filtering type set condition := by
  obtain ⟨t, rfl⟩ := ExprType.eq_set_of_isSet htype
  rw [← compile_filter_iff hl hr hd [.iterable, .list, .mutableList]]
  show ((Expr.bound d (.set t) [l, r]).compile cube _ >>= fun c => c.restyle _) = _ ↔ _
  rcases hcompile : (Expr.bound d (.set t) [l, r]).compile cube [.iterable, .list, .mutableList]
    with e | c'
  · exact ⟨nofun, nofun⟩
  · obtain ⟨set, condition, -, -, rfl⟩ := (compile_filter_iff hl hr hd _).1 hcompile
    rfl

/-- A call of `AND` compiles to one tree, of the trees of its arguments. -/
theorem scalar_conjunction_iff (hd : d.body = .conjunction) (styles : List ResultStyle) :
    ((Expr.bound d .boolean [l, r]).toOperand cube).scalar styles = .ok c ↔ ∃ first second,
      (l.toOperand cube).scalar [] = .ok first ∧ (r.toOperand cube).scalar [] = .ok second ∧
        c = .conjoining first second := by
  have hcompile : (Expr.bound d .boolean [l, r]).compile cube [.value, .valueNotNull] = do
      let first ← (l.toOperand cube).scalar [.value, .valueNotNull]
      let second ← (r.toOperand cube).scalar [.value, .valueNotNull]
      return .conjoining first second := by
    show BoundCall.compile _ cube _ = _
    rw [BoundCall.compile, hd]
    rfl
  show ((Expr.bound d .boolean [l, r]).compile cube _ >>= fun c => c.restyle _) = _ ↔ _
  rw [hcompile, hl.scalar _ [], hr.scalar _ [], bind_assoc]
  refine Iff.trans ?_ bind_pair_ok_iff
  rcases (l.toOperand cube).scalar [] with e | first
  · exact Iff.rfl
  · rcases (r.toOperand cube).scalar [] with e | second <;> exact Iff.rfl

end

variable {cube : Cube} {set first second bound : Expr} {registry registry' : ParameterRegistry}
  {styles : List ResultStyle} {tree : Calc}

/-- An argument that has been validated and is passed to a parameter compiles to one tree. -/
theorem settled_passed (cube : Cube) {source e : Expr} {p : Category} (hu : source.isUnbound = true)
    (hvalid : (source.validate .builtin).run registry = (.ok e, registry')) (hp : e.Passes p) :
    ((e.passedTo p).toOperand cube).Settled :=
  settled ((validate_fixedOrJoins hu (congrArg Prod.fst hvalid)).passedTo hp)

/-- A call of `Filter` compiles to a filter. -/
theorem compile_filtered (hset : set.isUnbound = true) (hfirst : first.isUnbound = true)
    (hvalid : ((set.filtered first).validate .builtin).run registry = (.ok bound, registry'))
    (hcompile : bound.compile cube styles = .ok tree) :
    ∃ info source condition, tree = .node info .filter [source, condition] := by
  obtain ⟨description, hfilter⟩ := exists_validate_pair_iff sole_conditions.1 rfl (by decide)
  obtain ⟨x, y, between, hx, hy, hpx, hpy, rfl⟩ := hfilter.1 hvalid
  obtain ⟨source, condition, -, -, rfl⟩ :=
    (compile_filter_iff (settled_passed cube hset hx hpx) (settled_passed cube hfirst hy hpy) rfl
      styles).1 hcompile
  exact ⟨_, source, condition, rfl⟩

/-- Where a filter of a filter compiles, a filter by both conditions does, to a tree of the same
parts. -/
theorem compile_fused (hset : set.isUnbound = true) (hfirst : first.isUnbound = true)
    (hsecond : second.isUnbound = true)
    (hvalid : (((set.filtered first).filtered second).validate .builtin).run registry =
      (.ok bound, registry'))
    (hcompile : bound.compile cube styles = .ok tree) :
    ∃ i j k m source condition condition' fused,
      tree = .nestedFilter i j source condition condition' ∧
      ((set.filtered (first.conjoined second)).validate .builtin).run registry =
        (.ok fused, registry') ∧
      ∀ styles, fused.compile cube styles = .ok (.jointFilter k m source condition condition') := by
  obtain ⟨description, hfilter⟩ := exists_validate_pair_iff sole_conditions.1 rfl (by decide)
  obtain ⟨description', hboth⟩ := exists_validate_pair_iff sole_conditions.2 rfl (by decide)
  obtain ⟨inner, z, between, hinner, hz, hpinner, hpz, rfl⟩ := hfilter.1 hvalid
  obtain ⟨x, y, between', hx, hy, hpx, hpy, heq⟩ := hfilter.1 hinner
  -- the inner call is a set, and the conjunction is a truth value
  have htype : inner.type.category = .set := by
    rw [heq]
    exact Definition.category_resultType rfl _
  let both : Expr :=
    boundPair { conjunctionOverload with description := description' } .logical .logical y z
  have htypeBoth : both.type.category = .logical := Definition.category_resultType rfl _
  have hvalidBoth : ((first.conjoined second).validate .builtin).run between' = (.ok both, registry') :=
    hboth.2 ⟨y, z, between, hy, hz, hpy, hpz, rfl⟩
  obtain ⟨hpboth, hselfBoth⟩ := passes_self htypeBoth
  have hinnerUnbound : (set.filtered first).isUnbound = true := allUnbound_pair hset hfirst
  have hbothUnbound : (first.conjoined second).isUnbound = true := allUnbound_pair hfirst hsecond
  have hsx := settled_passed cube hset hx hpx
  have hsy := settled_passed cube hfirst hy hpy
  have hsz := settled_passed cube hsecond hz hpz
  have hsinner := settled_passed cube hinnerUnbound hinner hpinner
  have hsboth := settled_passed cube hbothUnbound hvalidBoth hpboth
  obtain ⟨nested, condition', hnested, hcondition', rfl⟩ :=
    (compile_filter_iff hsinner hsz rfl styles).1 hcompile
  have hisSet : inner.type.isSet = true := by
    rw [ExprType.isSet_eq, htype]
    rfl
  rw [(passes_self htype).2, heq] at hnested
  rw [heq] at hisSet
  obtain ⟨source, condition, hsource, hcondition, rfl⟩ :=
    (iterable_filter_iff hsx hsy rfl hisSet []).1 hnested
  have hjoint : (both.toOperand cube).scalar [] = .ok (.conjoining condition condition') :=
    (scalar_conjunction_iff hsy hsz rfl []).2 ⟨condition, condition', hcondition, hcondition', rfl⟩
  rw [← hselfBoth] at hjoint
  exact ⟨_, _, _, _, source, condition, condition', _, rfl,
    hfilter.2 ⟨x, both, between', hx, hvalidBoth, hpx, hpboth, rfl⟩,
    fun styles => (compile_filter_iff hsx hsboth rfl styles).2 ⟨source, _, hsource, hjoint, rfl⟩⟩

/-- Wherever the keys of kept results determine them, `Filter` gives exactly the tuples of its set, in
their order and with their repetitions, for which its condition is true with the tuple placed in the
context. If a filter of a filter gives a set there, so does the filter by both conditions, unless it is
nested too deep, and it is the same set. -/
theorem filter_exact_and_fused {env : Environment} (hcube : env.cube.Built)
    (henv : env.Within (Domain.ofCube env.cube)) (hset : set.isUnbound = true)
    (hfirst : first.isUnbound = true) (hsecond : second.isUnbound = true)
    (hsetIn : set.Within (Domain.ofCube env.cube)) (hfirstIn : first.Within (Domain.ofCube env.cube))
    (hsecondIn : second.Within (Domain.ofCube env.cube)) :
    (((set.filtered first).validate .builtin).run registry = (.ok bound, registry') →
      bound.compile env.cube styles = .ok tree → tree.FiltersExactly env) ∧
      ((((set.filtered first).filtered second).validate .builtin).run registry =
          (.ok bound, registry') →
        bound.compile env.cube styles = .ok tree →
          ∃ fused joint,
            ((set.filtered (first.conjoined second)).validate .builtin).run registry =
                (.ok fused, registry') ∧
              (∀ styles, fused.compile env.cube styles = .ok joint) ∧ tree.FusesTo env joint) := by
  have hinner : (set.filtered first).isUnbound = true := allUnbound_pair hset hfirst
  have hboth : (first.conjoined second).isUnbound = true := allUnbound_pair hfirst hsecond
  have hinnerIn : (set.filtered first).Within (Domain.ofCube env.cube) := ⟨hsetIn, hfirstIn, trivial⟩
  have hbothIn : (first.conjoined second).Within (Domain.ofCube env.cube) :=
    ⟨hfirstIn, hsecondIn, trivial⟩
  constructor
  · intro hvalid hcompile
    have hformed := compile_formed_of_unbound hinner hinnerIn (congrArg Prod.fst hvalid) hcompile
    obtain ⟨info, source, condition, rfl⟩ := compile_filtered hset hfirst hvalid hcompile
    exact hformed.filtersExactly hcube.regular henv
  · intro hvalid hcompile
    have hnested : ((set.filtered first).filtered second).isUnbound = true :=
      allUnbound_pair hinner hsecond
    have hjoined : (set.filtered (first.conjoined second)).isUnbound = true :=
      allUnbound_pair hset hboth
    have hformed := compile_formed_of_unbound hnested ⟨hinnerIn, hsecondIn, trivial⟩
      (congrArg Prod.fst hvalid) hcompile
    obtain ⟨i, j, k, m, source, condition, condition', fused, rfl, hfused, hjoint⟩ :=
      compile_fused hset hfirst hsecond hvalid hcompile
    have hformed' := compile_formed_of_unbound hjoined ⟨hsetIn, hbothIn, trivial⟩
      (congrArg Prod.fst hfused) (hjoint [])
    exact ⟨fused, _, hfused, hjoint, hformed.fusesTo hcube.regular henv hformed'⟩

end Expr

/-! ## Trees that keep nothing -/

namespace Calc

mutual

/-- Whether no calculation of the tree keeps its results. -/
def isCacheFree : Calc → Bool
  | node _ op cs => !op.isCache && allCacheFree cs

def allCacheFree : List Calc → Bool
  | [] => true
  | c :: cs => c.isCacheFree && allCacheFree cs

end

mutual

theorem keepsNothing_of_isCacheFree : ∀ c : Calc, c.isCacheFree = true → c.KeepsNothing
  | node _ op cs, h => by
    rw [isCacheFree, Bool.and_eq_true, Bool.not_eq_true'] at h
    exact .node h.1 (keepsNothing_of_allCacheFree cs h.2)

theorem keepsNothing_of_allCacheFree :
    ∀ cs : List Calc, allCacheFree cs = true → ∀ c ∈ cs, c.KeepsNothing
  | [], _ => List.forall_mem_nil _
  | c :: cs, h => by
    rw [allCacheFree, Bool.and_eq_true] at h
    exact List.forall_mem_cons.2
      ⟨keepsNothing_of_isCacheFree c h.1, keepsNothing_of_allCacheFree cs h.2⟩

end

end Calc

/-- Where nothing is kept, there are no keys to determine anything. -/
theorem Scene.determined_of_keepsNothing {S : Scene} (h : S.root.KeepsNothing) : S.Determined := by
  intro a level info os inner hat
  have hkeeps := (hat.every h).self
  cases hkeeps

namespace Sample

/-- `[Measures].CurrentMember` -/
def currentMeasure : Expr := .call "CurrentMember" .property [.hierarchy measures]

/-- `[Measures].CurrentMember > 0` -/
def positive : Expr := .call ">" .infixOp [currentMeasure, .literal (.integer 0)]

/-- `[Measures].CurrentMember < 10` -/
def belowTen : Expr := .call "<" .infixOp [currentMeasure, .literal (.integer 10)]

/-- The names of the tuples that a set gives over one fact, if it keeps nothing. -/
def tupleNames? (e : Expr) (a : Address) : Option (List (List String)) :=
  match (bindings e).compile cube [] with
  | .ok c =>
    if c.isCacheFree then
      (listOf? (c.valueAt environment a fresh)).map fun l => l.rows.map (List.map (·.uniqueName))
    else none
  | .error _ => none

theorem exists_of_tupleNames? {e : Expr} {a : Address} {names : List (List String)}
    (h : tupleNames? e a = some names) :
    ∃ c l, (bindings e).compile cube [] = .ok c ∧ c.KeepsNothing ∧
      c.valueAt environment a fresh = .ok (.list l) ∧
        l.rows.map (List.map (·.uniqueName)) = names := by
  unfold tupleNames? at h
  split at h
  · rename_i c hc
    split at h
    · rename_i hkeeps
      obtain ⟨l, hl, hnames⟩ := Option.map_eq_some_iff.1 h
      exact ⟨c, l, hc, Calc.keepsNothing_of_isCacheFree c hkeeps, eq_list_of_listOf? hl, hnames⟩
    · cases h
  · cases h

theorem run_bindings {e : Expr} (h : isValidSet e = true) :
    ∃ registry, ((e.validate .builtin).run []) = (.ok (bindings e), registry) :=
  ⟨_, Prod.ext (validate_bindings h).1 rfl⟩

theorem calm_fresh (c : Calc) (a : Address) :
    Scene.Calm ⟨environment, [⟨[amount], 5⟩], false, c, a, 0⟩ 0 fresh :=
  (Scene.steady_start ⟨environment, [⟨[amount], 5⟩], false, c, a, 0⟩ rfl ∅).calm rfl

/-- Of both measures the amount is kept, whether it is positive and below ten at once or in turn. -/
theorem filter_fused_measures : environment.cube.Built ∧
    environment.Within (Domain.ofCube environment.cube) ∧ bothMeasures.isUnbound = true ∧
      positive.isUnbound = true ∧ belowTen.isUnbound = true ∧
      bothMeasures.Within (Domain.ofCube environment.cube) ∧
      positive.Within (Domain.ofCube environment.cube) ∧
      belowTen.Within (Domain.ofCube environment.cube) ∧
      ∃ (filter nested joint : Calc) (l : TupleList),
        (bindings (bothMeasures.filtered positive)).compile cube [] = .ok filter ∧
          (bindings ((bothMeasures.filtered positive).filtered belowTen)).compile cube [] =
            .ok nested ∧
          (bindings (bothMeasures.filtered (positive.conjoined belowTen))).compile cube [] =
            .ok joint ∧
          filter.FiltersExactly environment ∧
          nested.valueAt environment [0] fresh = .ok (.list l) ∧
          joint.valueAt environment [1] fresh = .ok (.list l) ∧
          l.rows.map (List.map (·.uniqueName)) = [["[Measures].[Amount]"]] := by
  have hsetIn : bothMeasures.Within (Domain.ofCube environment.cube) :=
    ⟨measure_mem (by decide), measure_mem (by decide), trivial⟩
  have hfirstIn : positive.Within (Domain.ofCube environment.cube) :=
    ⟨⟨measures_mem, trivial⟩, trivial, trivial⟩
  have hsecondIn : belowTen.Within (Domain.ofCube environment.cube) :=
    ⟨⟨measures_mem, trivial⟩, trivial, trivial⟩
  have hset : bothMeasures.isUnbound = true := rfl
  have hfirst : positive.isUnbound = true := rfl
  have hsecond : belowTen.isUnbound = true := rfl
  refine ⟨cube_built, environment_within, hset, hfirst, hsecond, hsetIn, hfirstIn, hsecondIn, ?_⟩
  have hchecks : isValidSet (bothMeasures.filtered positive) = true ∧
      isValidSet ((bothMeasures.filtered positive).filtered belowTen) = true ∧
      (tupleNames? (bothMeasures.filtered positive) [0]).isSome = true ∧
      tupleNames? ((bothMeasures.filtered positive).filtered belowTen) [0] =
        some [["[Measures].[Amount]"]] ∧
      (tupleNames? (bothMeasures.filtered (positive.conjoined belowTen)) [1]).isSome = true := by
    decide +kernel
  obtain ⟨hvalid, hvalid', hfilter, hnested, hjoint⟩ := hchecks
  obtain ⟨names, hfilter⟩ := Option.isSome_iff_exists.1 hfilter
  obtain ⟨names', hjoint⟩ := Option.isSome_iff_exists.1 hjoint
  obtain ⟨filter, -, hcompile, -⟩ := exists_of_tupleNames? hfilter
  obtain ⟨nested, l, hcompile', hkeeps, hl, hnames⟩ := exists_of_tupleNames? hnested
  obtain ⟨joint, l', hcompileJoint, hkeepsJoint, hl', -⟩ := exists_of_tupleNames? hjoint
  obtain ⟨registry, hrun⟩ := run_bindings hvalid
  obtain ⟨registry', hrun'⟩ := run_bindings hvalid'
  obtain ⟨hexact, -⟩ := Expr.filter_exact_and_fused cube_built environment_within hset hfirst hsecond
    hsetIn hfirstIn hsecondIn
  obtain ⟨-, hfuses⟩ := Expr.filter_exact_and_fused cube_built environment_within hset hfirst hsecond
    hsetIn hfirstIn hsecondIn
  obtain ⟨fused, joint', hrunJoint, hjoint', hfusesTo⟩ := hfuses hrun' hcompile'
  have hbindings : bindings (bothMeasures.filtered (positive.conjoined belowTen)) = fused := by
    rw [bindings, hrunJoint]
  obtain rfl : joint = joint' := Except.ok.inj (hcompileJoint.symm.trans (hbindings ▸ hjoint' []))
  refine ⟨filter, nested, joint, l, hcompile, hcompile', hcompileJoint, hexact hrun hcompile, hl, ?_,
    hnames⟩
  rcases hfusesTo [⟨[amount], 5⟩] false [0] [1] 0 fresh (.list l)
    (Scene.determined_of_keepsNothing hkeeps) (Scene.determined_of_keepsNothing hkeepsJoint)
    (calm_fresh nested [0]) (calm_fresh joint [1]) hl with hlimit | hsame
  · cases hl'.symm.trans hlimit
  · exact hsame

end Sample

end Olap
