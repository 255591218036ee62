import Olap.Proofs.Evaluation.Coordinates
import Olap.Proofs.Tuple.Legal
import Olap.Proofs.Typing.Truth

/-!
# What evaluations rely on and see to

A `Contract` says what an evaluation finds and leaves among the results that are kept, and whether it
is strict: then the cube is named, contexts are coordinates, and no tuple meets a list of another
number of columns. `Contract.Ensures` says of an action that it keeps to the contract and that its
results satisfy a condition; there is one rule for each way to build an action.
-/

set_option autoImplicit false

namespace Olap

/-- What evaluations may rely on, and have to see to (module doc). -/
structure Contract where
  env : Environment
  /-- What may be kept under a key. -/
  kept : CacheKey → Value → Prop
  strict : Prop
  named : strict → env.cube.Named

namespace Contract

variable {T : Contract} {α β : Type}

/-- A result satisfies `Q`, or is an error that the contract does not rule out. -/
def Allows (T : Contract) (Q : α → Prop) : Except CalcError α → Prop
  | .ok a => Q a
  | .error e => T.strict → e.isMismatch = false

/-- A state that evaluations may start in. -/
structure Upheld (T : Contract) (s : EvalState) : Prop where
  coordinate : T.strict → T.env.cube.Coordinate s.context
  kept : ∀ (k : CacheKey) (v : Value), s.cache[k]? = some v → T.kept k v

/-- How an action has to end that starts in `s`. -/
structure Ends (T : Contract) (Q : α → Prop) (s : EvalState)
    (outcome : Except CalcError α × EvalState) : Prop where
  frame : s.Frame outcome.2
  kept : ∀ (k : CacheKey) (v : Value), outcome.2.cache[k]? = some v → T.kept k v
  allowed : T.Allows Q outcome.1

/-- The action keeps to the contract, and its results satisfy `Q`. -/
def Ensures (T : Contract) (x : EvalM α) (Q : α → Prop) : Prop :=
  ∀ s, T.Upheld s → T.Ends Q s (x.exec T.env s)

theorem Ends.upheld {Q : α → Prop} {s : EvalState} {outcome : Except CalcError α × EvalState}
    (h : T.Ends Q s outcome) (hs : T.Upheld s) : T.Upheld outcome.2 :=
  ⟨fun hstrict => h.frame.context ▸ hs.coordinate hstrict, h.kept⟩

theorem Allows.mono {P Q : α → Prop} {r : Except CalcError α} (hr : T.Allows P r)
    (h : ∀ a, P a → Q a) : T.Allows Q r := by
  cases r with
  | ok a => exact h a hr
  | error e => exact hr

theorem Allows.intro {Q : α → Prop} {r : Except CalcError α} (hok : ∀ a, r = .ok a → Q a)
    (herror : T.strict → ∀ e, r = .error e → e.isMismatch = false) : T.Allows Q r := by
  cases r with
  | ok a => exact hok a rfl
  | error e => exact fun hstrict => herror hstrict e rfl

namespace Ensures

open EvalM

/-! ## Actions -/

theorem of_same {x : EvalM α} {r : Except CalcError α} {Q : α → Prop}
    (hx : ∀ s, x.exec T.env s = (r, s)) (hr : T.Allows Q r) : T.Ensures x Q := by
  intro s hs
  rw [hx]
  exact ⟨.refl s, hs.kept, hr⟩

theorem pure {a : α} {Q : α → Prop} (h : Q a) : T.Ensures (pure a) Q :=
  of_same (r := .ok a) (fun _ => rfl) h

theorem throw {e : CalcError} {Q : α → Prop} (h : e.isMismatch = false) :
    T.Ensures (throw e : EvalM α) Q :=
  of_same (r := .error e) (fun _ => rfl) fun _ => h

theorem lift {r : Except CalcError α} {Q : α → Prop} (h : T.Allows Q r) :
    T.Ensures (EvalM.lift r) Q :=
  of_same (fun _ => exec_lift r) h

theorem liftCatalog {r : Except CatalogError α} {Q : α → Prop} (h : ∀ a, r = .ok a → Q a) :
    T.Ensures (EvalM.liftCatalog r) Q := by
  cases r with
  | ok a => exact pure (h a rfl)
  | error e => exact throw (by cases e <;> rfl)

theorem mono {x : EvalM α} {P Q : α → Prop} (hx : T.Ensures x P) (h : ∀ a, P a → Q a) :
    T.Ensures x Q := by
  intro s hs
  obtain ⟨hframe, hkept, hallowed⟩ := hx s hs
  exact ⟨hframe, hkept, hallowed.mono h⟩

theorem and {x : EvalM α} {P Q : α → Prop} (hP : T.Ensures x P) (hQ : T.Ensures x Q) :
    T.Ensures x fun a => P a ∧ Q a := by
  intro s hs
  obtain ⟨hframe, hkept, hallowed⟩ := hP s hs
  refine ⟨hframe, hkept, ?_⟩
  have hallowed' := (hQ s hs).allowed
  generalize (x.exec T.env s).1 = r at hallowed hallowed' ⊢
  cases r with
  | ok a => exact ⟨hallowed, hallowed'⟩
  | error e => exact hallowed

theorem bind {x : EvalM α} {f : α → EvalM β} {P : α → Prop} {Q : β → Prop}
    (hx : T.Ensures x P) (hf : ∀ a, P a → T.Ensures (f a) Q) : T.Ensures (x >>= f) Q := by
  intro s hs
  have hends := hx s hs
  rcases h : x.exec T.env s with ⟨e | a, t⟩
  · rw [h] at hends
    rw [exec_bind_error h]
    exact ⟨hends.frame, hends.kept, hends.allowed⟩
  · rw [h] at hends
    rw [exec_bind_ok h]
    obtain ⟨hframe, hkept, hallowed⟩ := hf a hends.allowed t (hends.upheld hs)
    exact ⟨hends.frame.trans hframe, hkept, hallowed⟩

theorem ite {p : Prop} [Decidable p] {x y : EvalM α} {Q : α → Prop} (hx : p → T.Ensures x Q)
    (hy : ¬ p → T.Ensures y Q) : T.Ensures (if p then x else y) Q := by
  by_cases h : p
  · rw [if_pos h]
    exact hx h
  · rw [if_neg h]
    exact hy h

/-- A fold keeps an invariant that speaks of what has been visited so far. -/
theorem foldlM {P : List β → α → Prop} {f : α → β → EvalM α} {l : List β}
    (hf : ∀ visited b, b ∈ l → ∀ a, P visited a → T.Ensures (f a b) (P (visited ++ [b]))) {a : α}
    (ha : P [] a) : T.Ensures (l.foldlM f a) (P l) := by
  suffices h : ∀ visited rest, (∀ b ∈ rest, b ∈ l) → ∀ a, P visited a →
      T.Ensures (rest.foldlM f a) (P (visited ++ rest)) from h [] l (fun _ h => h) a ha
  intro visited rest
  induction rest generalizing visited with
  | nil =>
    intro _ a ha
    rw [List.append_nil]
    exact pure ha
  | cons b rest ih =>
    intro hrest a ha
    obtain ⟨hb, hrest⟩ := List.forall_mem_cons.1 hrest
    rw [List.foldlM_cons]
    refine (hf visited b hb a ha).bind fun a' ha' => ?_
    have happend := ih (visited ++ [b]) hrest a' ha'
    rwa [List.append_assoc, List.singleton_append] at happend

/-! ## The environment and the state -/

theorem read : T.Ensures read (· = T.env) := of_same (r := .ok T.env) (fun _ => rfl) rfl

theorem resultLimit : T.Ensures EvalM.resultLimit (· = T.env.config.resultLimit) :=
  read.bind fun _ h => pure (by rw [h])

theorem nonEmpty {f : Bool → EvalM α} {Q : α → Prop} (hf : ∀ b, T.Ensures (f b) Q) :
    T.Ensures (get >>= fun s => f s.nonEmpty) Q := by
  intro s hs
  rw [exec_bind_ok exec_get]
  exact hf s.nonEmpty s hs

theorem poll (round : Nat) : T.Ensures (EvalM.poll round) fun _ => True := by
  intro s hs
  have hframe : s.Frame ((EvalM.poll round).exec T.env s).2 :=
    (Keeps.poll round s s.within_everything).frame
  rw [exec_poll] at hframe ⊢
  refine ⟨hframe, hs.kept, .intro (fun _ _ => trivial) fun _ e he => ?_⟩
  unfold Execution.checkRound Execution.check at he
  dsimp only at he
  split at he
  · split at he <;> cases he
    rename_i hstop
    unfold Execution.stopped? at hstop
    split at hstop
    · cases hstop
      rfl
    · split at hstop
      · split at hstop <;> cases hstop
        rfl
      · cases hstop
  · cases he

theorem currentCell : T.Ensures EvalM.currentCell fun _ => True := by
  intro s hs
  have hframe : s.Frame (EvalM.currentCell.exec T.env s).2 :=
    (Keeps.currentCell s s.within_everything).frame
  rcases hr : s.reader.get s.context with ⟨v | _, reader⟩
  · rw [exec_currentCell_ready hr] at hframe ⊢
    exact ⟨hframe, hs.kept, trivial⟩
  · rw [exec_currentCell_pending hr] at hframe ⊢
    refine ⟨hframe, hs.kept, .intro (fun _ _ => trivial) fun _ e he => ?_⟩
    split at he <;> cases he
    rfl

theorem isEmptyCell : T.Ensures EvalM.isEmptyCell fun _ => True :=
  currentCell.bind fun _ _ => pure trivial

/-- Under a strict contract the current member of a hierarchy is a member of it. -/
theorem currentMember {h : Hierarchy} (hh : T.strict → h ∈ T.env.cube.hierarchies) :
    T.Ensures (EvalM.currentMember h) fun m => T.strict → m ∈ h.members := by
  intro s hs
  rw [EvalM.currentMember, exec_bind_ok exec_get]
  split
  · rename_i m hm
    refine ⟨.refl s, hs.kept, fun hstrict => ?_⟩
    obtain ⟨i, hi⟩ := List.getElem?_of_mem (hh hstrict)
    rw [(T.named hstrict).ordinal i h hi] at hm
    exact (hs.coordinate hstrict).member i h hi m hm
  · exact ⟨.refl s, hs.kept, fun _ => rfl⟩

/-! ## Contexts, nesting and kept results -/

theorem withRow {r : Row} (hr : T.strict → RowWithin (Domain.ofCube T.env.cube) r) {x : EvalM α}
    {Q : α → Prop} (hx : T.Ensures x Q) : T.Ensures (EvalM.withRow r x) Q := by
  intro s hs
  have hentered : T.Upheld (s.setRow r) := by
    refine ⟨fun hstrict => ?_, fun k v hv => hs.kept k v (by simpa using hv)⟩
    exact EvalState.coordinate_setRow (T.named hstrict).toRegular (hs.coordinate hstrict) (hr hstrict)
  obtain ⟨hframe, hkept, hallowed⟩ := hx _ hentered
  rw [exec_withRow]
  exact ⟨hframe.restore, fun k v hv => hkept k v (by simpa using hv), hallowed⟩

theorem calculation (a : Address) {x : EvalM α} {Q : α → Prop} (hx : T.Ensures x Q) :
    T.Ensures (EvalM.calculation a x) Q := by
  intro s hs
  obtain ⟨hf, hkept, hallowed⟩ := hx (entered s) ⟨hs.coordinate, hs.kept⟩
  rcases Nat.lt_or_ge s.depth T.env.config.maxEvalDepth with h | h
  · rw [exec_calculation a x h]
    refine ⟨⟨hf.context, hf.nonEmpty, hf.undo, ?_, hf.execution, hf.reader, hf.cache⟩, hkept,
      hallowed⟩
    show (x.exec T.env (entered s)).2.depth - 1 = s.depth
    rw [hf.depth]
    rfl
  · rw [exec_calculation_limited a x h]
    exact ⟨.refl s, hs.kept, fun _ => rfl⟩

/-- What may be kept for a calculation is what its evaluation gives. -/
theorem cached {a : Address} {os : List Nat} {x : EvalM Value} {Q : Value → Prop}
    (hkept : ∀ b names v, T.kept (a, b, names) v ↔ Q v) (hx : T.Ensures x Q) :
    T.Ensures (EvalM.cached a os x) Q := by
  intro s hs
  rcases hk : s.cache[cacheKey a os s]? with _ | v
  · have hends := hx s hs
    rcases h : x.exec T.env s with ⟨e | v, t⟩
    · rw [h] at hends
      rw [exec_cached_error hk h]
      exact ⟨hends.frame, hends.kept, hends.allowed⟩
    · rw [h] at hends
      obtain ⟨hf, hcache, hv⟩ := hends
      rw [exec_cached_ok hk h]
      refine ⟨⟨hf.context, hf.nonEmpty, hf.undo, hf.depth, hf.execution, hf.reader,
        fun k hflag => ?_⟩, fun k w hw => ?_, hv⟩
      · have hne : cacheKey a os s ≠ k := fun heq => hflag (heq ▸ rfl)
        rw [getElem?_keeping, if_neg hne]
        exact hf.cache k hflag
      · rw [getElem?_keeping] at hw
        split at hw
        · rename_i heq
          cases hw
          rw [← heq]
          exact (hkept _ _ _).2 hv
        · exact hcache k w hw
  · rw [exec_cached_hit hk]
    exact ⟨.refl s, hs.kept, (hkept _ _ _).1 (hs.kept _ v hk)⟩

end Ensures

end Contract

end Olap
