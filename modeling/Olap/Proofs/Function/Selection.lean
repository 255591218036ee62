import Olap.Proofs.Function.Resolution
import Olap.Proofs.Outcomes

/-!
# Calls are bound to the cheapest overload of all

`FunctionTable.fits` collects the overloads of all resolvers for a name and form that fit the
arguments, each with the sum of its conversion costs. Resolution ranks twice, within each resolver and
then across them; all the same a call is bound to the cheapest of this one list
(`FunctionTable.resolveCall_flat_minimum`): a tie within a resolver counts only if it is at the lowest
cost of all. So the order of registration does not matter to what is bound.
-/

set_option autoImplicit false

namespace Olap

/-! ## The overloads that fit -/

/-- The overloads that a resolver has for the arguments. -/
def Resolver.overloads (r : Resolver) (args : List Expr) : List Definition :=
  match r with
  | fixed o => o.definitions
  | variadic v => ((v.parameters? args).map v.definition).toList

/-- The sum of the costs of the conversions that pass arguments to parameters, if there are as many of
each and every argument can be converted. -/
def passingCost? : List Category → List ExprType → Option Nat
  | [], [] => some 0
  | p :: ps, t :: ts => do return (← t.category.conversionCost? p) + (← passingCost? ps ts)
  | _, _ => none

/-- The overloads for a name and form that fit the arguments, with their costs. -/
def FunctionTable.fits (t : FunctionTable) (name : String) (form : CallForm) (args : List Expr) :
    List (Definition × Nat) :=
  ((t.lookup name form).flatMap (·.overloads args)).filterMap fun d =>
    (passingCost? d.signature.parameters (args.map Expr.type)).map (d, ·)

/-- The overloads that cost no more than any other. -/
def cheapest (fits : List (Definition × Nat)) : List Definition :=
  (fits.filter fun f => fits.all fun g => f.2 ≤ g.2).map Prod.fst

/-- The type of an argument that has been converted to a category. -/
def ExprType.convertedTo (t : ExprType) (p : Category) : ExprType :=
  Conversion.targetType ⟨0, t, p, 0, .identity⟩

/-- An argument as it is passed to a parameter. -/
def Expr.passedTo (e : Expr) (p : Category) : Expr :=
  if e.type.category = p then e
  else .convert e (e.type.convertedTo p) (e.type.category.conversionTo p)

/-- The argument is a dimension with several hierarchies, of which the parameter wants one. -/
def Expr.Refuses (e : Expr) (p : Category) : Prop :=
  ∃ d, e.type = .dimension ⟨d, none⟩ ∧ (p = .hierarchy ∨ p = .member)

def Expr.checkPassing (e : Expr) (p : Category) : Except ResolutionError Unit :=
  Conversion.checkValid ⟨0, e.type, p, 0, .identity⟩

/-- What comes of a call that is bound to an overload. -/
def Definition.accept (d : Definition) (args : List Expr) :
    Except ResolutionError (Definition × List Expr) := do
  (args.zip d.signature.parameters).forM fun a => a.1.checkPassing a.2
  return (d, List.zipWith Expr.passedTo args d.signature.parameters)

theorem conversionCost?_self (c : Category) : c.conversionCost? c = some 0 := by
  cases c <;> rfl

theorem matchFrom_map_fst (n : Nat) (ps : List Category) (ts : List ExprType) :
    (matchFrom n ps ts).map Prod.fst = passingCost? ps ts := by
  induction ps generalizing n ts with
  | nil => cases ts <;> rfl
  | cons p ps ih =>
    rcases ts with _ | ⟨t, ts⟩
    · rfl
    · rw [matchFrom, passingCost?, ← ih (n + 1) ts]
      by_cases hp : t.category = p
      · rw [if_pos hp, hp, conversionCost?_self]
        cases matchFrom (n + 1) ps ts with
        | none => rfl
        | some m => simp
      · rw [if_neg hp]
        cases t.category.conversionCost? p with
        | none => rfl
        | some k => cases matchFrom (n + 1) ps ts <;> rfl

def Candidate.fit (c : Candidate) : Definition × Nat := (c.definition, c.cost)

theorem map_fit (d : Definition) (m : Option (Nat × List Conversion)) :
    (m.map fun (cost, conversions) => (⟨d, cost, conversions⟩ : Candidate)).map Candidate.fit =
      (m.map Prod.fst).map (d, ·) := by
  cases m <;> rfl

theorem Variadic.candidate?_eq {v : Variadic} {args : List Expr} {ps : List Category}
    (hp : v.parameters? args = some ps) :
    v.candidate? args = (matchParameters ps (args.map Expr.type)).map
      fun (cost, conversions) => ⟨v.definition ps, cost, conversions⟩ := by
  rw [Variadic.candidate?, hp, Option.map_eq_bind]
  rfl

theorem Resolver.candidates_fit (r : Resolver) (args : List Expr) :
    (r.candidates args).map Candidate.fit =
      (r.overloads args).filterMap fun d =>
        (passingCost? d.signature.parameters (args.map Expr.type)).map (d, ·) := by
  cases r with
  | fixed o =>
    rw [candidates, overloads, Overloads.candidates, List.map_filterMap]
    congr 1
    funext d
    rw [map_fit, matchParameters, matchFrom_map_fst]
  | variadic v =>
    rw [candidates, overloads]
    rcases hp : v.parameters? args with _ | ps
    · have hnone : v.candidate? args = none := by
        rw [Variadic.candidate?, hp]
        rfl
      rw [hnone]
      rfl
    · have hcost : (matchParameters ps (args.map Expr.type)).map Prod.fst =
          passingCost? ps (args.map Expr.type) := matchFrom_map_fst 0 ps (args.map Expr.type)
      have hdef : (v.definition ps).signature.parameters = ps := rfl
      rw [Variadic.candidate?_eq hp, Option.map_some, Option.toList_some, List.filterMap_cons,
        List.filterMap_nil, hdef, ← hcost]
      cases matchParameters ps (args.map Expr.type) <;> rfl

/-! ## The cheapest of several lists -/

/-- The candidates at a cost. -/
def candidatesAt (best : Nat) (cs : List Candidate) : List Candidate :=
  cs.filter (·.cost == best)

theorem Outcome.cost?_ofCandidates (cs : List Candidate) :
    (ofCandidates cs).cost? = (cs.map (·.cost)).min? := by
  unfold ofCandidates
  split
  · rename_i h
    rw [h]
    rfl
  · rename_i best h
    rw [h]
    split
    · rename_i winner hfilter
      have hmem : winner ∈ cs.filter (·.cost == best) := hfilter ▸ List.mem_singleton_self winner
      have hcost := (List.mem_filter.1 hmem).2
      exact congrArg some (eq_of_beq hcost)
    · rfl

/-- The lowest cost over the outcomes of several lists is that over all candidates. -/
theorem min?_costs {best : Nat} (ls : List (List Candidate)) :
    ((ls.map Outcome.ofCandidates).filterMap Outcome.cost?).min? = some best ↔
      (ls.flatten.map (·.cost)).min? = some best := by
  have hmem (b : Nat) : b ∈ (ls.map Outcome.ofCandidates).filterMap Outcome.cost? ↔
      ∃ cs ∈ ls, (cs.map (·.cost)).min? = some b := by
    simp only [List.mem_filterMap, List.mem_map, exists_exists_and_eq_and, Outcome.cost?_ofCandidates]
  simp only [List.min?_eq_some_iff, hmem]
  constructor
  · rintro ⟨⟨cs, hcs, hbest, hleast⟩, hall⟩
    refine ⟨?_, fun b hb => ?_⟩
    · obtain ⟨c, hc, rfl⟩ := List.mem_map.1 hbest
      exact List.mem_map_of_mem (List.mem_flatten_of_mem hcs hc)
    · obtain ⟨c, hc, rfl⟩ := List.mem_map.1 hb
      obtain ⟨cs', hcs', hc⟩ := List.mem_flatten.1 hc
      obtain ⟨b', hb'⟩ := Option.isSome_iff_exists.1
        (List.isSome_min?_of_mem (List.mem_map_of_mem (f := (·.cost)) hc))
      obtain ⟨hmem', hle⟩ := List.min?_eq_some_iff.1 hb'
      exact Nat.le_trans (hall b' ⟨cs', hcs', hmem', hle⟩) (hle _ (List.mem_map_of_mem hc))
  · rintro ⟨hbest, hleast⟩
    obtain ⟨c, hc, rfl⟩ := List.mem_map.1 hbest
    obtain ⟨cs, hcs, hc⟩ := List.mem_flatten.1 hc
    refine ⟨⟨cs, hcs, List.mem_map_of_mem hc, fun b hb => ?_⟩, ?_⟩
    · obtain ⟨c', hc', rfl⟩ := List.mem_map.1 hb
      exact hleast _ (List.mem_map_of_mem (List.mem_flatten_of_mem hcs hc'))
    · rintro b ⟨cs', hcs', hb, -⟩
      obtain ⟨c', hc', rfl⟩ := List.mem_map.1 hb
      exact hleast _ (List.mem_map_of_mem (List.mem_flatten_of_mem hcs' hc'))

theorem winnersAt_cons {best : Nat} {cs : List Candidate} (hle : ∀ c ∈ cs, best ≤ c.cost)
    (os : List Outcome) :
    FunctionTable.winnersAt best (.ofCandidates cs :: os) =
      ((candidatesAt best cs).map (·.definition.signature.text) ++
          (FunctionTable.winnersAt best os).1,
        (FunctionTable.winnersAt best os).2.or
          (match candidatesAt best cs with | [c] => some c | _ => none)) := by
  rw [FunctionTable.winnersAt]
  rcases hmin : (cs.map (·.cost)).min? with _ | least
  · have hnil : cs = [] := by simpa using hmin
    subst hnil
    simp [Outcome.ofCandidates, candidatesAt]
  · obtain ⟨hmem, hleast⟩ := List.min?_eq_some_iff.1 hmin
    obtain ⟨w, hw, hwc⟩ := List.mem_map.1 hmem
    by_cases hbest : least = best
    · subst hbest
      have hwin : w ∈ candidatesAt least cs := List.mem_filter.2 ⟨hw, by simpa using hwc⟩
      have hout : Outcome.ofCandidates cs = match candidatesAt least cs with
          | [winner] => .resolved winner
          | winners => .ambiguous (winners.map (·.definition.signature.text)) least := by
        rw [Outcome.ofCandidates, hmin]
        rfl
      rw [hout]
      rcases hat : candidatesAt least cs with _ | ⟨c, _ | ⟨c', rest⟩⟩
      · rw [hat] at hwin
        cases hwin
      · have hc : c.cost = least :=
          eq_of_beq (List.mem_filter.1 (hat ▸ List.mem_singleton_self c : c ∈ cs.filter _)).2
        simp [hc]
      · simp
    · have hlt : best < least := Nat.lt_of_le_of_ne (hwc ▸ hle w hw) (Ne.symm hbest)
      have hnone : candidatesAt best cs = [] := by
        refine List.filter_eq_nil_iff.2 fun c hc h => ?_
        have := hleast _ (List.mem_map_of_mem (f := (·.cost)) hc)
        have hcost : c.cost = best := eq_of_beq h
        omega
      have hcost : (Outcome.ofCandidates cs).cost? = some least :=
        (Outcome.cost?_ofCandidates cs).trans hmin
      rw [hnone]
      cases hout : Outcome.ofCandidates cs with
      | resolved winner =>
        rw [hout] at hcost
        have : winner.cost ≠ best := by
          rw [Option.some.inj hcost]
          exact hbest
        simp [this]
      | ambiguous tied cost =>
        rw [hout] at hcost
        have : cost ≠ best := by
          rw [Option.some.inj hcost]
          exact hbest
        simp [this]
      | noMatch => simp

/-- The winners across the outcomes of several lists are the cheapest of all candidates. -/
theorem winnersAt_ofCandidates {best : Nat} {ls : List (List Candidate)}
    (hle : ∀ c ∈ ls.flatten, best ≤ c.cost) :
    (FunctionTable.winnersAt best (ls.map Outcome.ofCandidates)).1 =
        (candidatesAt best ls.flatten).map (·.definition.signature.text) ∧
      (candidatesAt best ls.flatten = [] →
        (FunctionTable.winnersAt best (ls.map Outcome.ofCandidates)).2 = none) ∧
      ∀ c, candidatesAt best ls.flatten = [c] →
        (FunctionTable.winnersAt best (ls.map Outcome.ofCandidates)).2 = some c := by
  induction ls with
  | nil => exact ⟨rfl, fun _ => rfl, fun c h => nomatch h⟩
  | cons cs ls ih =>
    rw [List.flatten_cons] at hle ⊢
    obtain ⟨hshapes, hnone, hsome⟩ := ih fun c hc => hle c (List.mem_append_right cs hc)
    have hat : candidatesAt best (cs ++ ls.flatten) =
        candidatesAt best cs ++ candidatesAt best ls.flatten := List.filter_append _ _
    rw [List.map_cons, winnersAt_cons (fun c hc => hle c (List.mem_append_left _ hc)), hat]
    refine ⟨by rw [hshapes, List.map_append], fun h => ?_, fun c h => ?_⟩
    · obtain ⟨hcs, hls⟩ := List.append_eq_nil_iff.1 h
      rw [hnone hls, hcs]
      rfl
    · rcases List.append_eq_singleton_iff.1 h with ⟨hcs, hls⟩ | ⟨hcs, hls⟩
      · rw [hsome c hls, hcs]
        rfl
      · rw [hnone hls, hcs]
        rfl

/-! ## Selection -/

namespace FunctionTable

variable (t : FunctionTable) (name : String) (form : CallForm)

/-- All candidates of the resolvers for a name and form. -/
def candidates (args : List Expr) : List Candidate :=
  (t.lookup name form).flatMap (·.candidates args)

theorem candidates_fit (args : List Expr) :
    (t.candidates name form args).map Candidate.fit = t.fits name form args := by
  rw [candidates, fits, List.map_flatMap, List.filterMap_flatMap]
  congr 1
  funext r
  exact r.candidates_fit args

theorem cheapest_fits {args : List Expr} {best : Nat}
    (hbest : ((t.candidates name form args).map (·.cost)).min? = some best) :
    cheapest (t.fits name form args) =
      (candidatesAt best (t.candidates name form args)).map (·.definition) := by
  obtain ⟨hmem, hle⟩ := List.min?_eq_some_iff.1 hbest
  obtain ⟨w, hw, hwc⟩ := List.mem_map.1 hmem
  rw [cheapest, ← candidates_fit, List.filter_map, List.map_map, candidatesAt]
  congr 1
  refine List.filter_congr fun c hc => ?_
  rw [Function.comp_apply, List.all_map, Bool.eq_iff_iff, List.all_eq_true, beq_iff_eq]
  constructor
  · intro hall
    have h1 : c.cost ≤ w.cost := of_decide_eq_true (hall w hw)
    have h2 := hle _ (List.mem_map_of_mem (f := (·.cost)) hc)
    omega
  · intro hcost d hd
    have := hle _ (List.mem_map_of_mem (f := (·.cost)) hd)
    exact decide_eq_true (show c.cost ≤ d.cost by omega)

/-- What is selected is the cheapest of all candidates. -/
theorem select_eq (args : List Expr) (hlookup : t.lookup name form ≠ []) :
    t.select name form args =
      match ((t.candidates name form args).map (·.cost)).min? with
      | none => .error (.noMatchingOverload name
          (form.signature name (args.map (·.type.category))))
      | some best =>
        match candidatesAt best (t.candidates name form args) with
        | [winner] => .ok winner
        | winners => .error (.ambiguousOverload name
            (form.signature name (args.map (·.type.category)))
            (winners.map (·.definition.signature.text))) := by
  have hempty : (t.lookup name form).isEmpty = false := by simpa using hlookup
  have houtcomes : (t.lookup name form).map (·.resolve args) =
      ((t.lookup name form).map (·.candidates args)).map Outcome.ofCandidates := by
    rw [List.map_map]
    rfl
  have hflat : ((t.lookup name form).map (·.candidates args)).flatten =
      t.candidates name form args := List.flatMap_def.symm
  unfold select
  simp only [hempty, Bool.false_eq_true, if_false, houtcomes]
  have hmin := fun best => @min?_costs best ((t.lookup name form).map (·.candidates args))
  rw [hflat] at hmin
  rcases hbest : ((t.candidates name form args).map (·.cost)).min? with _ | best
  · have hnone : ((((t.lookup name form).map (·.candidates args)).map
        Outcome.ofCandidates).filterMap Outcome.cost?).min? = none := by
      refine Option.eq_none_iff_forall_ne_some.2 fun b hb => ?_
      rw [(hmin b).1 hb] at hbest
      cases hbest
    rw [hnone, hbest]
  · obtain ⟨hmem, hle⟩ := List.min?_eq_some_iff.1 hbest
    obtain ⟨w, hw, hwc⟩ := List.mem_map.1 hmem
    have hwin : w ∈ candidatesAt best (t.candidates name form args) :=
      List.mem_filter.2 ⟨hw, by simpa using hwc⟩
    rw [(hmin best).2 hbest, hbest]
    obtain ⟨hshapes, -, hsome⟩ := @winnersAt_ofCandidates best
      ((t.lookup name form).map (·.candidates args)) (by
        rw [hflat]
        exact fun c hc => hle _ (List.mem_map_of_mem hc))
    rw [hflat] at hshapes hsome
    dsimp only
    rcases hwinners : winnersAt best (((t.lookup name form).map (·.candidates args)).map
      Outcome.ofCandidates) with ⟨shapes, winner⟩
    rw [hwinners] at hshapes hsome
    rw [hwinners]
    dsimp only at hshapes hsome
    subst hshapes
    rcases hat : candidatesAt best (t.candidates name form args) with _ | ⟨c, _ | ⟨c', rest⟩⟩
    · rw [hat] at hwin
      cases hwin
    · rw [hsome c hat]
      rfl
    · rfl

variable {t name form} {args : List Expr} {w : Candidate}

/-- What is selected costs as little as any candidate. -/
theorem select_ok (h : t.select name form args = .ok w) :
    w ∈ t.candidates name form args ∧
      ((t.candidates name form args).map (·.cost)).min? = some w.cost := by
  by_cases hlookup : t.lookup name form = []
  · rw [select, hlookup] at h
    cases h
  rw [select_eq _ _ _ _ hlookup] at h
  rcases hbest : ((t.candidates name form args).map (·.cost)).min? with _ | best
  all_goals
    rw [hbest] at h
    dsimp only at h
  · cases h
  split at h
  · rename_i hat
    cases h
    obtain ⟨hw, hcost⟩ := List.mem_filter.1
      (hat ▸ List.mem_singleton_self w : w ∈ candidatesAt best (t.candidates name form args))
    exact ⟨hw, hbest.trans (congrArg some (eq_of_beq hcost).symm)⟩
  · cases h

/-- The overload that is selected is declared by a resolver for the name and takes the arguments. -/
theorem select_sound (h : t.select name form args = .ok w) :
    ∃ r ∈ t.lookup name form, r.Declares w.definition ∧
      matchParameters w.definition.signature.parameters (args.map Expr.type) =
        some (w.cost, w.conversions) := by
  obtain ⟨r, hr, hw⟩ := List.mem_flatMap.1 (select_ok h).1
  exact ⟨r, hr, Resolver.candidates_sound hw⟩

/-- The winner costs no more than any other overload that fits. -/
theorem select_cost (h : t.select name form args = .ok w) :
    ((t.fits name form args).map Prod.snd).min? = some w.cost := by
  rw [← candidates_fit, List.map_map]
  exact (select_ok h).2

end FunctionTable

/-! ## Conversions -/

theorem Expr.checkPassing_of_category {e : Expr} {p : Category} (h : e.type.category = p) :
    e.checkPassing p = .ok () := by
  unfold checkPassing Conversion.checkValid
  split
  · rename_i s hs
    change e.type = .dimension s at hs
    rw [hs] at h
    subst h
    rfl
  · rfl

theorem Expr.checkPassing_error {e : Expr} {p : Category} {err : ResolutionError}
    (h : e.checkPassing p = .error err) :
    e.Refuses p ∧ ∃ reason, err = .invalidConversion .dimension p reason := by
  unfold checkPassing Conversion.checkValid at h
  split at h
  · rename_i s hs
    obtain ⟨d, k⟩ := s
    split at h
    · rename_i hc
      obtain ⟨hp, hk⟩ := hc
      cases hk
      cases h
      exact ⟨⟨d, hs, hp⟩, _, rfl⟩
    · cases h
  · cases h

namespace Expr

theorem convertedTo_category (t : ExprType) (p : Category) : (t.convertedTo p).category = p :=
  Conversion.category_targetType _

theorem passedTo_category (e : Expr) (p : Category) : (e.passedTo p).type.category = p := by
  unfold passedTo
  split
  · assumption
  · exact convertedTo_category _ p

variable {args : List Expr} {ps : List Category}

theorem passed_categories {R : Expr → Category → Prop} (h : List.Forall₂ R args ps) :
    (List.zipWith Expr.passedTo args ps).map (fun e => e.type.category) = ps := by
  induction h with
  | nil => rfl
  | cons _ _ ih => rw [List.zipWith_cons_cons, List.map_cons, passedTo_category, ih]

/-- An argument is passed as it is, or by the conversion to the category of the parameter. -/
theorem converted_passed
    (h : List.Forall₂ (fun e p => (e.type.category.conversionCost? p).isSome = true) args ps) :
    List.Forall₂ Converted args (List.zipWith Expr.passedTo args ps) := by
  induction h with
  | nil => exact .nil
  | @cons e p _ _ hcost _ ih =>
    refine .cons ?_ ih
    unfold passedTo
    split
    · exact .same
    · rename_i hne
      exact .convert ⟨0, e.type, p, 0, e.type.category.conversionTo p⟩ ⟨rfl, hne, hcost⟩ rfl

end Expr

theorem convertible_of_passingCost? {ps : List Category} {ts : List ExprType}
    (h : (passingCost? ps ts).isSome) :
    List.Forall₂ (fun p (t : ExprType) => (t.category.conversionCost? p).isSome) ps ts := by
  induction ps generalizing ts with
  | nil =>
    cases ts with
    | nil => exact .nil
    | cons t ts => cases h
  | cons p ps ih =>
    cases ts with
    | nil => cases h
    | cons t ts =>
      obtain ⟨total, htotal⟩ := Option.isSome_iff_exists.1 h
      rw [passingCost?] at htotal
      obtain ⟨cost, hcost, htotal⟩ := Option.bind_eq_some_iff.1 htotal
      obtain ⟨rest, hrest, -⟩ := Option.bind_eq_some_iff.1 htotal
      exact .cons (Option.isSome_of_eq_some hcost) (ih (Option.isSome_of_eq_some hrest))

/-- The conversions of a candidate wrap each argument that has not the category of its parameter, and
checking them is checking whether the arguments can be passed. -/
theorem matchFrom_passed {n : Nat} {ps : List Category} {ts : List ExprType} {cost : Nat}
    {convs : List Conversion} (h : matchFrom n ps ts = some (cost, convs)) :
    ∀ before rest : List Expr, before.length = n → rest.map Expr.type = ts →
      convs.foldlM (fun args c => c.applyTo args) (before ++ rest) =
          .ok (before ++ List.zipWith Expr.passedTo rest ps) ∧
        convs.forM Conversion.checkValid = (rest.zip ps).forM fun a => a.1.checkPassing a.2 := by
  induction ps generalizing n ts cost convs with
  | nil =>
    intro before rest hn hts
    obtain ⟨rfl, -, rfl⟩ := matchFrom_nil h
    obtain rfl := List.map_eq_nil_iff.1 hts
    exact ⟨rfl, rfl⟩
  | cons p ps ih =>
    intro before rest hn hts
    obtain ⟨t, ts', rfl, hstep⟩ := matchFrom_cons h
    obtain ⟨e, es, rfl, rfl, rfl⟩ := List.map_eq_cons_iff.1 hts
    have hcheck : ((e :: es).zip (p :: ps)).forM (fun a => a.1.checkPassing a.2) =
        (do e.checkPassing p; (es.zip ps).forM fun a => a.1.checkPassing a.2) := rfl
    rw [hcheck, List.zipWith_cons_cons]
    rcases hstep with ⟨hp, hrest⟩ | ⟨hp, k, total, convs', -, hrest, -, rfl⟩
    · obtain ⟨hfold, hvalid⟩ := ih hrest (before ++ [e]) es (by simp [hn]) rfl
      rw [Expr.passedTo, if_pos hp, e.checkPassing_of_category hp, hvalid]
      exact ⟨by simpa using hfold, rfl⟩
    · obtain ⟨hfold, hvalid⟩ := ih hrest (before ++ [e.passedTo p]) es (by simp [hn]) rfl
      rw [List.append_assoc, List.append_assoc] at hfold
      rw [Expr.passedTo, if_neg hp] at hfold ⊢
      rw [List.foldlM_cons, Conversion.applyTo_append _ hn, ← hvalid]
      exact ⟨hfold, rfl⟩

/-- A call that is bound to an overload takes its arguments as they are passed to its parameters,
unless one of them is refused. -/
theorem Definition.accept_cases (d : Definition) (args : List Expr) :
    d.accept args = .ok (d, List.zipWith Expr.passedTo args d.signature.parameters) ∨
      ∃ a ∈ args.zip d.signature.parameters, a.1.Refuses a.2 ∧
        ∃ reason, d.accept args = .error (.invalidConversion .dimension a.2 reason) := by
  unfold accept
  rcases hcheck : (args.zip d.signature.parameters).forM (fun a => a.1.checkPassing a.2) with e | _
  · obtain ⟨a, ha, he⟩ := exists_of_forM_error hcheck
    obtain ⟨hrefuses, reason, rfl⟩ := Expr.checkPassing_error he
    exact .inr ⟨a, ha, hrefuses, reason, rfl⟩
  · exact .inl rfl

/-! ## Binding -/

namespace FunctionTable

variable {t : FunctionTable} {name : String} {form : CallForm} {args : List Expr}

theorem resolveCall_of_select_error {e : ResolutionError}
    (h : t.select name form args = .error e) :
    t.resolveCall name form args = .error e := by
  rw [resolveCall, h]
  rfl

theorem resolveCall_of_select {w : Candidate}
    (h : t.select name form args = .ok w)
    (hw : matchParameters w.definition.signature.parameters (args.map Expr.type) =
      some (w.cost, w.conversions)) :
    t.resolveCall name form args = w.definition.accept args := by
  obtain ⟨hfold, hvalid⟩ := matchFrom_passed hw [] args rfl rfl
  rw [List.nil_append, List.nil_append] at hfold
  rw [resolveCall, Definition.accept, h, ← hvalid]
  rcases hforM : w.conversions.forM Conversion.checkValid with e | _
  · simp only [hforM, bind, Except.bind]
  · simp only [hforM, bind, Except.bind, hfold]

/-- What binding selects, once it has succeeded. -/
theorem exists_winner {d : Definition} {args' : List Expr}
    (h : t.resolveCall name form args = .ok (d, args')) :
    ∃ w, t.select name form args = .ok w ∧ w.definition = d ∧
      matchParameters d.signature.parameters (args.map Expr.type) = some (w.cost, w.conversions) ∧
      args' = List.zipWith Expr.passedTo args d.signature.parameters := by
  obtain ⟨w, hselect, h⟩ := bind_eq_ok.1 h
  obtain ⟨⟨⟩, -, h⟩ := bind_eq_ok.1 h
  obtain ⟨passed, hfold, h⟩ := bind_eq_ok.1 h
  cases h
  obtain ⟨-, -, -, hmatch⟩ := select_sound hselect
  obtain ⟨hpassed, -⟩ := matchFrom_passed hmatch [] args rfl rfl
  rw [List.nil_append, List.nil_append, hfold] at hpassed
  cases hpassed
  exact ⟨w, hselect, rfl, hmatch, rfl⟩

/-- A call is bound to a declared overload whose parameters have the categories of the converted
arguments. -/
theorem resolveCall_sound {args' : List Expr} {d : Definition}
    (h : t.resolveCall name form args = .ok (d, args')) :
    (∃ r ∈ t.lookup name form, r.Declares d) ∧
      args'.map (fun e => e.type.category) = d.signature.parameters ∧
        List.Forall₂ Converted args args' := by
  obtain ⟨w, hselect, rfl, hmatch, rfl⟩ := exists_winner h
  obtain ⟨r, hr, hdeclares, -⟩ := select_sound hselect
  have hcost : (passingCost? w.definition.signature.parameters (args.map Expr.type)).isSome := by
    rw [← matchFrom_map_fst 0, ← matchParameters, hmatch]
    rfl
  have hconvertible :=
    (List.forall₂_map_right_iff.1 (convertible_of_passingCost? hcost)).flip
  exact ⟨⟨r, hr, hdeclares⟩, Expr.passed_categories hconvertible,
    Expr.converted_passed hconvertible⟩

/-- The outcomes of binding, by the number of the cheapest overloads. -/
theorem resolveCall_cases (t : FunctionTable) (name : String) (form : CallForm) (args : List Expr) :
    let shape := form.signature name (args.map (·.type.category))
    let fits := t.fits name form args
    (t.lookup name form = [] ∧ fits = [] ∧
      t.resolveCall name form args = .error (.unknownFunction name form)) ∨
    (t.lookup name form ≠ [] ∧ fits = [] ∧
      t.resolveCall name form args = .error (.noMatchingOverload name shape)) ∨
    (t.lookup name form ≠ [] ∧ fits ≠ [] ∧ 2 ≤ (cheapest fits).length ∧ t.resolveCall name form args =
      .error (.ambiguousOverload name shape ((cheapest fits).map (·.signature.text)))) ∨
    ∃ d, t.lookup name form ≠ [] ∧ fits ≠ [] ∧ cheapest fits = [d] ∧
      t.resolveCall name form args = d.accept args := by
  intro shape fits
  by_cases hlookup : t.lookup name form = []
  · refine .inl ⟨hlookup, ?_, resolveCall_of_select_error ?_⟩
    · rw [show fits = t.fits name form _ from rfl, FunctionTable.fits, hlookup]
      rfl
    · rw [select, hlookup]
      rfl
  have hne {ds : List Definition} (h : cheapest fits = ds) (hds : ds ≠ []) : fits ≠ [] := by
    intro hnil
    rw [hnil] at h
    exact hds h.symm
  refine .inr ?_
  have hselect := t.select_eq name form args hlookup
  have hfits := t.candidates_fit name form args
  rcases hbest : ((t.candidates name form args).map (·.cost)).min? with _ | best
  · rw [hbest] at hselect
    have hnil : t.candidates name form args = [] := by simpa using hbest
    exact .inl ⟨hlookup, hfits.symm.trans (by rw [hnil]; rfl), resolveCall_of_select_error hselect⟩
  refine .inr ?_
  have hcheapest : cheapest fits = _ := t.cheapest_fits name form hbest
  rw [hbest] at hselect
  dsimp only at hselect
  rcases hat : candidatesAt best (t.candidates name form args)
    with _ | ⟨c, _ | ⟨c', rest⟩⟩
  · obtain ⟨hmem, -⟩ := List.min?_eq_some_iff.1 hbest
    obtain ⟨w, hw, hwc⟩ := List.mem_map.1 hmem
    have hwin : w ∈ candidatesAt best (t.candidates name form args) :=
      List.mem_filter.2 ⟨hw, by simpa using hwc⟩
    rw [hat] at hwin
    cases hwin
  · rw [hat] at hselect hcheapest
    have hc := (List.mem_filter.1 (hat ▸ List.mem_singleton_self c :
      c ∈ candidatesAt best (t.candidates name form args))).1
    obtain ⟨r, -, hr⟩ := List.mem_flatMap.1 hc
    exact .inr ⟨c.definition, hlookup, hne hcheapest (List.cons_ne_nil _ _), hcheapest,
      resolveCall_of_select hselect (Resolver.candidates_sound hr).2⟩
  · rw [hat] at hselect hcheapest
    refine .inl ⟨hlookup, hne hcheapest (List.cons_ne_nil _ _), ?_, resolveCall_of_select_error ?_⟩
    · rw [hcheapest]
      simp
    · rw [hselect, hcheapest]
      simp only [shape, List.map_map]
      rfl

/-! ## The order of registration -/

theorem cheapest_perm {fits fits' : List (Definition × Nat)} (h : fits'.Perm fits) :
    (cheapest fits').Perm (cheapest fits) := by
  have hall (f : Definition × Nat) : fits'.all (fun g => decide (f.2 ≤ g.2)) =
      fits.all fun g => decide (f.2 ≤ g.2) := by
    rw [Bool.eq_iff_iff, List.all_eq_true, List.all_eq_true]
    exact ⟨fun hf g hg => hf g (h.mem_iff.2 hg), fun hf g hg => hf g (h.mem_iff.1 hg)⟩
  unfold cheapest
  simp only [hall]
  exact (h.filter _).map _

theorem fits_perm {t' : FunctionTable} (h : t'.resolvers.Perm t.resolvers) (name : String)
    (form : CallForm) (args : List Expr) :
    (t'.fits name form args).Perm (t.fits name form args) :=
  ((h.filter _).flatMap_right _).filterMap _

section
variable {d : Definition} {args' : List Expr} {shapes : List String}

theorem unknown_iff : t.resolveCall name form args = .error (.unknownFunction name form) ↔
    t.lookup name form = [] := by
  rcases t.resolveCall_cases name form args with ⟨hl, -, he⟩ | ⟨hl, -, he⟩ | ⟨hl, -, -, he⟩ |
    ⟨d, hl, -, -, he⟩
  · simp [hl, he]
  · simp [hl, he]
  · simp [hl, he]
  · rcases d.accept_cases args with ha | ⟨_, -, -, _, ha⟩ <;> simp [hl, he, ha]

theorem noMatching_iff : t.resolveCall name form args = .error (.noMatchingOverload name
      (form.signature name (args.map (·.type.category)))) ↔
    t.lookup name form ≠ [] ∧ t.fits name form args = [] := by
  rcases t.resolveCall_cases name form args with ⟨hl, -, he⟩ | ⟨hl, hf, he⟩ | ⟨hl, hf, -, he⟩ |
    ⟨d, hl, hf, -, he⟩
  · simp [hl, he]
  · simp [hl, hf, he]
  · simp [hf, he]
  · rcases d.accept_cases args with ha | ⟨_, -, -, _, ha⟩ <;> simp [hf, he, ha]

theorem ambiguous_iff : t.resolveCall name form args = .error (.ambiguousOverload name
      (form.signature name (args.map (·.type.category))) shapes) ↔
    2 ≤ (cheapest (t.fits name form args)).length ∧
      shapes = (cheapest (t.fits name form args)).map (·.signature.text) := by
  rcases t.resolveCall_cases name form args with ⟨-, hf, he⟩ | ⟨-, hf, he⟩ | ⟨-, -, hd, he⟩ |
    ⟨d, -, -, hd, he⟩
  · simp [he, hf, cheapest]
  · simp [he, hf, cheapest]
  · simp [he, hd, eq_comm]
  · rcases d.accept_cases args with ha | ⟨_, -, -, _, ha⟩ <;> simp [hd, he, ha]

/-- The only overload at the lowest cost is the one that counts. -/
theorem resolveCall_of_cheapest (hd : cheapest (t.fits name form args) = [d]) :
    t.resolveCall name form args = d.accept args := by
  rcases t.resolveCall_cases name form args with ⟨-, hf, -⟩ | ⟨-, hf, -⟩ | ⟨-, -, hd', -⟩ |
    ⟨d', -, -, hd', he⟩
  · rw [hf] at hd
    cases hd
  · rw [hf] at hd
    cases hd
  · rw [hd] at hd'
    simp at hd'
  · rw [hd] at hd'
    cases hd'
    exact he

/-- A call is bound to an overload if it is the only one at the lowest cost and accepts the
arguments. -/
theorem bound_iff : t.resolveCall name form args = .ok (d, args') ↔
    cheapest (t.fits name form args) = [d] ∧ d.accept args = .ok (d, args') := by
  refine ⟨fun h => ?_, fun ⟨hd, ha⟩ => (resolveCall_of_cheapest hd).trans ha⟩
  rcases t.resolveCall_cases name form args with ⟨-, -, he⟩ | ⟨-, -, he⟩ | ⟨-, -, -, he⟩ |
    ⟨d', -, -, hd, he⟩
  · cases h.symm.trans he
  · cases h.symm.trans he
  · cases h.symm.trans he
  · rcases d'.accept_cases args with ha | ⟨_, -, -, _, ha⟩
    · cases h.symm.trans (he.trans ha)
      exact ⟨hd, ha⟩
    · cases h.symm.trans (he.trans ha)

end

/-- Resolution picks the minimum of one flat list: the overloads of all resolvers that fit. -/
theorem resolveCall_flat_minimum (t : FunctionTable) (name : String) (form : CallForm)
    (args : List Expr) :
    let shape := form.signature name (args.map (·.type.category))
    let fits := t.fits name form args
    (t.resolveCall name form args = .error (.unknownFunction name form) ↔
      t.lookup name form = []) ∧
    (t.resolveCall name form args = .error (.noMatchingOverload name shape) ↔
      t.lookup name form ≠ [] ∧ fits = []) ∧
    (∀ shapes, t.resolveCall name form args = .error (.ambiguousOverload name shape shapes) ↔
      2 ≤ (cheapest fits).length ∧ shapes = (cheapest fits).map (·.signature.text)) ∧
    (∀ d, cheapest fits = [d] →
      t.resolveCall name form args =
          .ok (d, List.zipWith Expr.passedTo args d.signature.parameters) ∨
        ∃ a ∈ args.zip d.signature.parameters, a.1.Refuses a.2 ∧
          ∃ reason, t.resolveCall name form args =
            .error (.invalidConversion .dimension a.2 reason)) ∧
    (∀ d args', t.resolveCall name form args = .ok (d, args') → cheapest fits = [d]) ∧
    ∀ t' : FunctionTable, t'.resolvers.Perm t.resolvers →
      (∀ d args', t'.resolveCall name form args = .ok (d, args') ↔
        t.resolveCall name form args = .ok (d, args')) ∧
      ((∃ shapes, t'.resolveCall name form args = .error (.ambiguousOverload name shape shapes)) ↔
        ∃ shapes, t.resolveCall name form args = .error (.ambiguousOverload name shape shapes)) := by
  intro shape fits
  refine ⟨unknown_iff, noMatching_iff, fun shapes => ambiguous_iff, fun d hd => ?_,
    fun d args' h => (bound_iff.1 h).1, fun t' hperm => ?_⟩
  · rw [resolveCall_of_cheapest hd]
    exact d.accept_cases args
  · have hfits := cheapest_perm (fits_perm hperm name form args)
    refine ⟨fun d args' => ?_, ?_⟩
    · rw [bound_iff, bound_iff, List.perm_singleton.symm, List.perm_singleton.symm]
      exact and_congr_left fun _ => ⟨hfits.symm.trans, hfits.trans⟩
    · simp only [ambiguous_iff, exists_and_left, exists_eq, and_true, hfits.length_eq, shape]

end FunctionTable

/-! ## A tie that a cheaper overload overrides -/

namespace Sample

/-- Takes a number or a value; a whole number costs the same as either. -/
def looseResolver : Resolver :=
  .fixed ⟨"F", "", .function, [⟨"F", .function, .numeric, [.numeric]⟩,
    ⟨"F", .function, .numeric, [.value]⟩], [], .declared, .value⟩

def exactResolver : Resolver :=
  .fixed ⟨"F", "", .function, [⟨"F", .function, .integer, [.integer]⟩], [], .declared, .value⟩

/-- The tie within the first resolver counts only as long as there is no cheaper overload. -/
theorem resolveCall_tie_overridden :
    (cheapest ((⟨[looseResolver, exactResolver]⟩ : FunctionTable).fits "F" .function
        [.literal (.integer 1)])).map (·.signature.text) = ["F(<Integer>)"] ∧
      (∃ d args', (⟨[looseResolver, exactResolver]⟩ : FunctionTable).resolveCall "F" .function
          [.literal (.integer 1)] = .ok (d, args') ∧
        (⟨[exactResolver, looseResolver]⟩ : FunctionTable).resolveCall "F" .function
          [.literal (.integer 1)] = .ok (d, args')) ∧
      (⟨[looseResolver]⟩ : FunctionTable).resolveCall "F" .function [.literal (.integer 1)] =
        .error (.ambiguousOverload "F" "F(<Integer>)" ["F(<Numeric>)", "F(<Value>)"]) := by
  obtain ⟨-, -, -, hunique, -, horder⟩ := FunctionTable.resolveCall_flat_minimum
    ⟨[looseResolver, exactResolver]⟩ "F" .function [.literal (.integer 1)]
  obtain ⟨-, -, hambiguous, -, -, -⟩ := FunctionTable.resolveCall_flat_minimum
    ⟨[looseResolver]⟩ "F" .function [.literal (.integer 1)]
  refine ⟨by decide +kernel, ?_, ?_⟩
  · rcases hunique ⟨⟨"F", .function, .integer, [.integer]⟩, "", [], .declared, .value⟩
      (by decide +kernel) with h | ⟨a, ha, ⟨d, htype, -⟩, -⟩
    · exact ⟨_, _, h, ((horder ⟨[exactResolver, looseResolver]⟩ (List.Perm.swap _ _ _)).1 _ _).2 h⟩
    · rcases List.mem_singleton.1 ha with rfl
      cases htype
  · exact (hambiguous _).2 (by decide +kernel)

end Sample

end Olap
