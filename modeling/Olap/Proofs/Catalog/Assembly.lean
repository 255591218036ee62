import Olap.Proofs.Catalog.Preorder

/-!
# Steps done in place

A step done in place changes a builder piece by piece, and may break off on the way. It never does so with
something changed: it makes another builder of the one that it is done to, or answers with an error and
leaves it as it is (`BuildStep.perform_inPlace`). This is plain for most steps, which look at everything
before they change anything. Only the first measure declares a dimension and a hierarchy before it is
added itself; and it cannot fail then, as no other hierarchy has the name of that of the measures. So
steps that fail can be left out (`BuildStep.performAll_without`), and the cubes that come of steps done in
place are those that have been built (`Cube.built_iff_performAll`).
-/

set_option autoImplicit false

namespace Olap

namespace InPlace

variable {σ : Type} {s : σ}

/-- The end of what is done to `s` as a whole or not at all. -/
def ending (s : σ) : Except CatalogError σ → Except CatalogError Unit × σ
  | .ok t => (.ok (), t)
  | .error e => (.error e, s)

/-! ## One thing after the other -/

theorem perform_get (f : σ → InPlace σ Unit) : perform (get >>= f) s = (f s).perform s := rfl

theorem perform_modify (f : σ → σ) : perform (modify f) s = (.ok (), f s) := rfl

/-- A check that fails leaves everything as it is. -/
theorem perform_check {c : Prop} [Decidable c] {e : CatalogError} {x : InPlace σ Unit} :
    perform (do
      if c then throw e
      x) s = if c then (.error e, s) else x.perform s := by
  split
  · rfl
  · rfl

theorem ending_check {c : Prop} [Decidable c] {e : CatalogError} {r : Except CatalogError σ} :
    ending s (if c then .error e else r) = if c then (.error e, s) else ending s r := by
  split
  · rfl
  · rfl

theorem perform_seq (x y : InPlace σ Unit) : perform (do x; y) s =
    match x.perform s with
    | (.ok (), t) => y.perform t
    | (.error e, t) => (.error e, t) := by
  show (match x.perform s with | (a, t) => (ExceptT.bindCont (fun _ => y) a : StateM σ _) t) = _
  rcases x.perform s with ⟨_ | ⟨⟩, t⟩
  · rfl
  · rfl

theorem perform_ofExcept {α : Type} (r : Except CatalogError α) (f : α → InPlace σ Unit) :
    perform (ofExcept r >>= f) s = match r with
      | .ok a => (f a).perform s
      | .error e => (.error e, s) := by
  cases r <;> rfl

/-! ## Hierarchies -/

/-- A member is added after all that is to be checked has been. -/
theorem perform_addMember (parent : Option MemberDraft) (name : String) (kind : MemberKind)
    (h : HierarchyDraft) :
    (addMember parent name kind).perform h = ending h (h.addMember parent name kind) := by
  rw [addMember, perform_get, HierarchyDraft.addMember]
  dsimp only
  rw [perform_check, perform_check, ending_check, ending_check, perform_modify]
  rfl

variable {name : String} {x : InPlace HierarchyDraft Unit}
  {f : HierarchyDraft → Except CatalogError HierarchyDraft}

/-- What is done to a hierarchy as a whole or not at all, is done so to the list that it stands in. -/
theorem toFirst_eq (hx : ∀ h, x.perform h = ending h (f h)) (hs : List HierarchyDraft) :
    toFirst name x hs =
      match CubeBuilder.updateFirst name f hs with
      | .ok found => found.map fun hs => (.ok (), hs)
      | .error e => some (.error e, hs) := by
  induction hs with
  | nil => rfl
  | cons h hs ih =>
    rw [toFirst, CubeBuilder.updateFirst]
    split
    · rw [hx]
      cases f h with
      | ok h' => rfl
      | error e => rfl
    · rw [ih]
      rcases CubeBuilder.updateFirst name f hs with e | _ | hs'
      · rfl
      · rfl
      · rfl

theorem toFirstIn_eq (hx : ∀ h, x.perform h = ending h (f h)) (ds : List DimensionDraft) :
    toFirstIn name x ds = ending ds (CubeBuilder.updateFirstIn name f ds) := by
  induction ds with
  | nil => rfl
  | cons d ds ih =>
    rw [toFirstIn, CubeBuilder.updateFirstIn, toFirst_eq hx]
    rcases CubeBuilder.updateFirst name f d.hierarchies with e | _ | hs
    · rfl
    · show (_ : Except CatalogError Unit × List DimensionDraft) = ending _ (_ >>= _)
      simp only [Option.map, ih]
      rcases CubeBuilder.updateFirstIn name f ds with e | ds'
      · rfl
      · rfl
    · rfl

theorem perform_toHierarchy (hx : ∀ h, x.perform h = ending h (f h)) (b : CubeBuilder) :
    (toHierarchy name x).perform b = ending b (b.updateHierarchy name f) := by
  rw [toHierarchy, perform_get, toFirstIn_eq hx, CubeBuilder.updateHierarchy]
  rcases CubeBuilder.updateFirstIn name f b.dimensions with e | ds
  · rfl
  · rfl

/-! ## Builders -/

theorem perform_dimension (name : String) (kind : DimensionKind) (b : CubeBuilder) :
    (dimension name kind).perform b = (.ok (), b.dimension name kind) := by
  rw [dimension, perform_get, CubeBuilder.dimension]
  cases b.dimensions.any (·.name == name) <;> rfl

theorem perform_hierarchy (of : String) (name : Option String) (hasAll : Bool)
    (levels : List String) (b : CubeBuilder) :
    (hierarchy of name hasAll levels).perform b = ending b (b.hierarchy of name hasAll levels) := by
  rw [hierarchy, perform_get, CubeBuilder.hierarchy]
  cases b.dimensions.find? (·.name == of) with
  | none => rfl
  | some d =>
    dsimp only
    rw [perform_check, perform_ofExcept, ending_check]
    split
    · rfl
    · cases HierarchyDraft.start _ _ hasAll levels <;> rfl

theorem perform_member (of : String) (parent : Option String) (name : String) (b : CubeBuilder) :
    (member of parent name).perform b = ending b (b.member of parent name) := by
  refine perform_toHierarchy (fun h => ?_) b
  rw [perform_get, perform_ofExcept]
  cases h.parentFor parent with
  | ok p => exact perform_addMember p name .regular h
  | error e => rfl

end InPlace

/-! ## Measures -/

/-- Only the dimension of measures has a hierarchy that is named like the one of the measures. -/
theorem HierarchyDraft.Proper.uniqueName_ne {h : HierarchyDraft} {dimension : String}
    (hp : h.Proper dimension) (hne : dimension ≠ "Measures") : h.uniqueName ≠ "[Measures]" := by
  intro hname
  rcases hp.uniqueName with heq | heq
  · exact hne (bracketed_inj (heq.symm.trans hname))
  · -- the name of a hierarchy that has a name of its own has a dot in it
    have hchars := congrArg String.toList (heq.symm.trans hname)
    have hdot : '.' ∈ ("[Measures]" : String).toList := by
      rw [← hchars]
      simp [toString]
    revert hdot
    decide

namespace CubeBuilder

variable {b : CubeBuilder} {name : String} {f : HierarchyDraft → Except CatalogError HierarchyDraft}

theorem updateFirst_of_ne {hs : List HierarchyDraft} (h : ∀ k ∈ hs, k.uniqueName ≠ name) :
    updateFirst name f hs = .ok none := by
  induction hs with
  | nil => rfl
  | cons k hs ih =>
    obtain ⟨hk, hhs⟩ := List.forall_mem_cons.1 h
    rw [updateFirst, if_neg (fun heq => hk (eq_of_beq heq)), ih hhs]
    rfl

/-- Dimensions that have no hierarchy of the name are passed over. -/
theorem updateFirstIn_append {ds es es' : List DimensionDraft}
    (h : ∀ d ∈ ds, ∀ k ∈ d.hierarchies, k.uniqueName ≠ name) (hes : updateFirstIn name f es = .ok es') :
    updateFirstIn name f (ds ++ es) = .ok (ds ++ es') := by
  induction ds with
  | nil => exact hes
  | cons d ds ih =>
    obtain ⟨hd, hds⟩ := List.forall_mem_cons.1 h
    rw [List.cons_append, updateFirstIn, updateFirst_of_ne hd]
    show (updateFirstIn name f (ds ++ es) >>= fun ds => Except.ok (d :: ds)) = _
    rw [ih hds]
    rfl

/-- The first hierarchy of a dimension that has just been declared. -/
theorem hierarchy_of_fresh {ds : List DimensionDraft} {of : String}
    (hfresh : ∀ d ∈ ds, d.name ≠ of) (kind : DimensionKind) (levels : List String) :
    hierarchy ⟨name, ds ++ [⟨of, kind, []⟩]⟩ of none false levels =
      .ok ⟨name, ds ++ [⟨of, kind, [⟨of, s!"[{of}]", false, levels, []⟩]⟩]⟩ := by
  let declared : DimensionDraft := ⟨of, kind, []⟩
  have hdeclared : (declared.name == of) = true := beq_self_eq_true of
  have hother : ∀ d ∈ ds, ¬ (d.name == of) = true := fun d hd heq => hfresh d hd (eq_of_beq heq)
  have hfound : (ds ++ [declared]).find? (·.name == of) = some declared := by
    rw [List.find?_append, List.find?_eq_none.2 hother, List.find?_singleton, hdeclared]
    rfl
  have hkept (h : HierarchyDraft) : ds.map (fun e => if e.name == of then
      { e with hierarchies := e.hierarchies ++ [h] } else e) = ds :=
    (List.map_congr_left fun e he => if_neg (hother e he)).trans (List.map_id _)
  rw [hierarchy, hfound]
  show Except.ok (CubeBuilder.mk name ((ds ++ [declared]).map _)) = _
  rw [List.map_append, hkept, List.map_singleton, if_pos hdeclared]
  rfl

/-- The first measure is never refused. -/
theorem Proper.exists_measure (hb : b.Proper)
    (hfirst : b.dimensions.any (·.name == "Measures") = false) (name : String) :
    ∃ c c', (b.dimension "Measures" .measures).hierarchy "Measures" none false ["MeasuresLevel"] =
      .ok c ∧ c.updateHierarchy "[Measures]" (·.addMember none name .measure) = .ok c' := by
  have hother : ∀ d ∈ b.dimensions, d.name ≠ "Measures" := fun d hd heq =>
    List.any_eq_false.1 hfirst d hd (beq_iff_eq.2 heq)
  have hdeclared : b.dimension "Measures" .measures =
      ⟨b.name, b.dimensions ++ [⟨"Measures", .measures, []⟩]⟩ := by
    rw [CubeBuilder.dimension, hfirst]
    rfl
  have hnone : ∀ d ∈ b.dimensions, ∀ h ∈ d.hierarchies, h.uniqueName ≠ "[Measures]" := fun d hd h hh =>
    ((hb.dimensions d hd).hierarchies h hh).uniqueName_ne (hother d hd)
  let draft : HierarchyDraft := ⟨"Measures", "[Measures]", false, ["MeasuresLevel"], []⟩
  obtain ⟨h, hadded⟩ : ∃ h, draft.addMember none name .measure = .ok h := ⟨_, rfl⟩
  have hupdated : updateFirstIn "[Measures]" (·.addMember none name .measure)
      [⟨"Measures", .measures, [draft]⟩] = .ok [⟨"Measures", .measures, [h]⟩] := by
    rw [updateFirstIn, updateFirst, if_pos (beq_self_eq_true draft.uniqueName), hadded]
    rfl
  let c : CubeBuilder := ⟨b.name, b.dimensions ++ [⟨"Measures", .measures, [draft]⟩]⟩
  have hc : (b.dimension "Measures" .measures).hierarchy "Measures" none false ["MeasuresLevel"] =
      .ok c := by
    rw [hdeclared]
    exact hierarchy_of_fresh hother .measures ["MeasuresLevel"]
  have hc' : c.updateHierarchy "[Measures]" (·.addMember none name .measure) =
      .ok ⟨b.name, b.dimensions ++ [⟨"Measures", .measures, [h]⟩]⟩ := by
    rw [CubeBuilder.updateHierarchy, updateFirstIn_append hnone hupdated]
    rfl
  exact ⟨c, _, hc, hc'⟩

/-- What a step makes of a builder, or why it is refused. -/
def outcome (b : CubeBuilder) : BuildStep → Except CatalogError CubeBuilder
  | .dimension name kind => .ok (b.dimension name kind)
  | .hierarchy of name hasAll levels => b.hierarchy of name hasAll levels
  | .member of parent name => b.member of parent name
  | .measure name => b.measure name

theorem take_eq (b : CubeBuilder) (step : BuildStep) :
    b.take step = (InPlace.ending b (b.outcome step)).2 := by
  unfold take outcome
  cases step with
  | dimension name kind => rfl
  | hierarchy of name hasAll levels =>
    dsimp only
    cases b.hierarchy of name hasAll levels <;> rfl
  | member of parent name =>
    dsimp only
    cases b.member of parent name <;> rfl
  | measure name =>
    dsimp only
    cases b.measure name <;> rfl

end CubeBuilder

namespace InPlace

variable {b : CubeBuilder}

theorem perform_declareMeasures (b : CubeBuilder) : declareMeasures.perform b =
    if b.dimensions.any (·.name == "Measures") then (.ok (), b)
    else ending (b.dimension "Measures" .measures) ((b.dimension "Measures" .measures).hierarchy
      "Measures" none false ["MeasuresLevel"]) := by
  rw [declareMeasures, perform_get]
  split
  · rfl
  · show perform (do
      dimension "Measures" .measures
      hierarchy "Measures" none false ["MeasuresLevel"]) b = _
    rw [perform_seq, perform_dimension]
    exact perform_hierarchy "Measures" none false ["MeasuresLevel"] _

/-- The dimension and the hierarchy that the first measure brings do not stay without it. -/
theorem perform_measure (hb : b.Proper) (name : String) :
    (measure name).perform b = ending b (b.measure name) := by
  rw [measure, perform_seq, perform_declareMeasures, CubeBuilder.measure]
  cases hfirst : b.dimensions.any (·.name == "Measures") with
  | true => exact perform_toHierarchy (perform_addMember none name .measure) b
  | false =>
    obtain ⟨c, c', hc, hc'⟩ := hb.exists_measure hfirst name
    simp only [Bool.false_eq_true, if_false]
    rw [hc]
    show (toHierarchy "[Measures]" (addMember none name .measure)).perform c =
      ending b (c.updateHierarchy "[Measures]" (·.addMember none name .measure))
    rw [perform_toHierarchy (perform_addMember none name .measure) c, hc']
    rfl

end InPlace

/-! ## Steps -/

namespace BuildStep

variable {b : CubeBuilder}

/-- A step done in place is done as a whole or not at all. -/
theorem perform_inPlace (hb : b.Proper) (step : BuildStep) :
    step.inPlace.perform b = InPlace.ending b (b.outcome step) := by
  cases step with
  | dimension name kind => exact InPlace.perform_dimension name kind b
  | hierarchy of name hasAll levels => exact InPlace.perform_hierarchy of name hasAll levels b
  | member of parent name => exact InPlace.perform_member of parent name b
  | measure name => exact InPlace.perform_measure hb name

theorem perform_inPlace_snd (hb : b.Proper) (step : BuildStep) :
    (step.inPlace.perform b).2 = b.take step := by
  rw [perform_inPlace hb, CubeBuilder.take_eq]

theorem proper_perform (hb : b.Proper) (step : BuildStep) : (step.inPlace.perform b).2.Proper := by
  rw [perform_inPlace_snd hb]
  exact hb.take step

/-- A step that fails changes nothing. -/
theorem perform_inPlace_error (hb : b.Proper) {step : BuildStep} {e : CatalogError}
    (h : (step.inPlace.perform b).1 = .error e) : (step.inPlace.perform b).2 = b := by
  rw [perform_inPlace hb] at h ⊢
  rcases ho : b.outcome step with e' | b'
  · rfl
  · rw [ho] at h
    cases h

/-- Whether a step with its answer has been done. -/
def isDone (entry : BuildStep × Except CatalogError Unit) : Bool := entry.2.isOk

theorem performAll_snd (hb : b.Proper) (steps : List BuildStep) :
    (performAll b steps).2 = steps.foldl CubeBuilder.take b := by
  induction steps generalizing b with
  | nil => rfl
  | cons step steps ih =>
    rw [List.foldl_cons, ← perform_inPlace_snd hb]
    exact ih (proper_perform hb step)

theorem map_fst_performAll (b : CubeBuilder) (steps : List BuildStep) :
    (performAll b steps).1.map Prod.fst = steps := by
  induction steps generalizing b with
  | nil => rfl
  | cons step steps ih => exact congrArg (step :: ·) (ih _)

/-- Without some of the steps that failed, the other ones have the same answers and end with the same
builder. -/
theorem performAll_of_sublist (hb : b.Proper) {steps : List BuildStep}
    {kept : List (BuildStep × Except CatalogError Unit)} (hkept : kept.Sublist (performAll b steps).1)
    (hdone : kept.filter isDone = (performAll b steps).1.filter isDone) :
    performAll b (kept.map Prod.fst) = (kept, (performAll b steps).2) := by
  induction steps generalizing b kept with
  | nil =>
    rw [performAll] at hkept
    rw [List.sublist_nil.1 hkept]
    rfl
  | cons step steps ih =>
    let answer : Except CatalogError Unit := (step.inPlace.perform b).1
    let next : CubeBuilder := (step.inPlace.perform b).2
    have hnext : next.Proper := proper_perform hb step
    have hrecord : (performAll b (step :: steps)).1 = (step, answer) :: (performAll next steps).1 := rfl
    rw [hrecord] at hkept hdone
    show performAll b (kept.map Prod.fst) = (kept, (performAll next steps).2)
    cases hkept with
    | @cons _ _ _ hrest =>
      -- the step is left out, so it has failed
      rcases hanswer : answer with e | ⟨⟩
      · have hfailed : isDone (step, answer) = false := by
          rw [hanswer]
          rfl
        have hsame : next = b := perform_inPlace_error hb hanswer
        rw [List.filter_cons_of_neg (by rw [hfailed]; exact Bool.false_ne_true)] at hdone
        rw [hsame] at hrest hdone ⊢
        exact ih hb hrest hdone
      · have hdoneStep : isDone (step, answer) = true := by
          rw [hanswer]
          rfl
        rw [List.filter_cons_of_pos hdoneStep] at hdone
        have hlength := (hrest.filter isDone).length_le
        rw [hdone, List.length_cons] at hlength
        exact absurd hlength (Nat.not_succ_le_self _)
    | @cons_cons rest _ _ hrest =>
      have hdone : rest.filter isDone = (performAll next steps).1.filter isDone := by
        rw [List.filter_cons, List.filter_cons] at hdone
        split at hdone
        · exact (List.cons.inj hdone).2
        · exact hdone
      have hrun : performAll b (((step, answer) :: rest).map Prod.fst) =
          ((step, answer) :: (performAll next (rest.map Prod.fst)).1,
            (performAll next (rest.map Prod.fst)).2) := rfl
      rw [hrun, ih hnext hrest hdone]

/-- A step that fails after other ones changes nothing. So some or all of the steps that failed can be left
out of an assembly: each of the other ones has the answer that it had, and the cube that is built in the
end, or the error, is the same. -/
theorem performAll_without {name : String} {steps : List BuildStep}
    {record : List (BuildStep × Except CatalogError Unit)} {b : CubeBuilder}
    (hrun : performAll (.empty name) steps = (record, b)) :
    record.map Prod.fst = steps ∧
      (∀ (step : BuildStep) (e : CatalogError),
        (step.inPlace.perform b).1 = .error e → (step.inPlace.perform b).2 = b) ∧
      ∀ kept, kept.Sublist record → kept.filter isDone = record.filter isDone →
        ∃ again, performAll (.empty name) (kept.map Prod.fst) = (kept, again) ∧
          again = b ∧ again.build = b.build := by
  have hstart : (CubeBuilder.empty name).Proper := CubeBuilder.proper_empty name
  obtain rfl : (performAll (.empty name) steps).1 = record := congrArg Prod.fst hrun
  obtain rfl : (performAll (.empty name) steps).2 = b := congrArg Prod.snd hrun
  refine ⟨map_fst_performAll _ steps, fun step e he => perform_inPlace_error ?_ he, ?_⟩
  · rw [performAll_snd hstart]
    exact CubeBuilder.proper_foldl hstart steps
  · intro kept hkept hdone
    exact ⟨_, performAll_of_sublist hstart hkept hdone, rfl, rfl⟩

end BuildStep

/-- The cubes that have been built are those that are assembled in place. -/
theorem Cube.built_iff_performAll {c : Cube} : c.Built ↔ ∃ (name : String) (steps : List BuildStep),
    (BuildStep.performAll (.empty name) steps).2.build = .ok c := by
  refine exists_congr fun name => exists_congr fun steps => ?_
  rw [BuildStep.performAll_snd (CubeBuilder.proper_empty name)]

namespace Sample

/-- A measure and a member are added again, and a hierarchy is declared for a dimension that is not
there. -/
def faultySteps : List BuildStep :=
  [.measure "Amount", .measure "Amount", .hierarchy "Store" none true ["City"],
    .dimension "Time" .time, .hierarchy "Time" none true ["Year"], .member "[Time]" none "1997",
    .member "[Time]" none "1997", .member "[Time]" (some "[Time].[1997]") "Q1"]

/-- What has been done, and the hierarchies that have been declared. -/
def keptSteps (entry : BuildStep × Except CatalogError Unit) : Bool :=
  BuildStep.isDone entry || entry.1 matches .hierarchy ..

/-- Of the four steps that fail, one is kept. -/
theorem performAll_without_faulty :
    ∃ record b kept, BuildStep.performAll (.empty "Sales") faultySteps = (record, b) ∧
      record.map BuildStep.isDone = [true, false, false, true, true, true, false, false] ∧
      kept.Sublist record ∧ kept.filter BuildStep.isDone = record.filter BuildStep.isDone ∧
      kept.map BuildStep.isDone = [true, false, true, true, true] ∧
      ∃ again, BuildStep.performAll (.empty "Sales") (kept.map Prod.fst) = (kept, again) ∧
        again.build = b.build ∧ b.build.isOk = true := by
  let run := BuildStep.performAll (.empty "Sales") faultySteps
  have hanswers : run.1.map BuildStep.isDone = [true, false, false, true, true, true, false, false] ∧
      (run.1.filter keptSteps).map BuildStep.isDone = [true, false, true, true, true] ∧
      run.2.build.isOk = true := by
    decide +kernel
  obtain ⟨hall, hsome, hbuilds⟩ := hanswers
  have hdone : (run.1.filter keptSteps).filter BuildStep.isDone = run.1.filter BuildStep.isDone := by
    rw [List.filter_filter]
    refine List.filter_congr fun entry _ => ?_
    rw [keptSteps]
    cases BuildStep.isDone entry <;> rfl
  have hrun : BuildStep.performAll (.empty "Sales") faultySteps = (run.1, run.2) := rfl
  obtain ⟨-, -, hkept⟩ := BuildStep.performAll_without hrun
  obtain ⟨again, hagain, -, hbuild⟩ := hkept _ List.filter_sublist hdone
  exact ⟨run.1, run.2, _, hrun, hall, List.filter_sublist, hdone, hsome, again, hagain, hbuild,
    hbuilds⟩

end Sample

end Olap
