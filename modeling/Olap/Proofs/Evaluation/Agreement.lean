import Olap.Proofs.Calc.Dependence
import Olap.Proofs.Evaluation.Coordinates

/-!
# Evaluations that agree

A `Scene` is what stays the same in several evaluations of one tree: the environment, the facts that
cells are read from, the flag, and where the tree stands. A state of such an evaluation is calm
(`Scene.Calm`) if what it keeps is right: a result that is kept for a calculation is the one that the
calculation has from a fresh start, wherever the current members that matter have the names of the key
(`Scene.Coherent`).

`Scene.Sound d A x Q` says of an action at depth `d` that it leaves calm states calm, that its results
satisfy `Q`, and that it has the same result from any two calm states whose contexts agree on `A`, the
places of the hierarchies that it reads. What is composed of sound actions is sound.
-/

set_option autoImplicit false

namespace Olap

/-! ## Contexts that agree -/

/-- The contexts hold the same members at some places. -/
def AgreeOn (A : Nat → Prop) (κ μ : List Member) : Prop := ∀ o, A o → κ[o]? = μ[o]?

/-- The places that a tuple fixes. -/
def Pinned (r : Row) (o : Nat) : Prop := ∃ m ∈ r, m.hierarchyOrdinal = o

/-- All places of the hierarchies of a cube are among the given ones. -/
def Cube.Covers (c : Cube) (A : Nat → Prop) : Prop :=
  ∀ (o : Nat) (h : Hierarchy), c.hierarchies[o]? = some h → A o

namespace AgreeOn

variable {c : Cube} {A B : Nat → Prop} {κ μ : List Member}

theorem refl (A : Nat → Prop) (κ : List Member) : AgreeOn A κ κ := fun _ _ => rfl

theorem mono (h : AgreeOn B κ μ) (hAB : ∀ o, A o → B o) : AgreeOn A κ μ := fun o ho => h o (hAB o ho)

theorem set (h : AgreeOn A κ μ) (hlen : κ.length = μ.length) (m : Member) :
    AgreeOn (fun o => A o ∨ m.hierarchyOrdinal = o) (κ.set m.hierarchyOrdinal m)
      (μ.set m.hierarchyOrdinal m) := by
  intro o ho
  rw [List.getElem?_set, List.getElem?_set, hlen]
  by_cases heq : m.hierarchyOrdinal = o
  · rw [if_pos heq, if_pos heq]
  · rw [if_neg heq, if_neg heq]
    exact h o (ho.resolve_right heq)

/-- Contexts in which a tuple is made current agree on what the tuple fixes, too. -/
theorem setRow {s t : EvalState} (h : AgreeOn A s.context t.context)
    (hlen : s.context.length = t.context.length) (r : Row) :
    AgreeOn (fun o => A o ∨ Pinned r o) (s.setRow r).context (t.setRow r).context := by
  induction r generalizing A s t with
  | nil =>
    refine h.mono fun o ho => ?_
    rcases ho with ho | ⟨m, hm, -⟩
    · exact ho
    · cases hm
  | cons m r ih =>
    have hset := h.set hlen m
    rw [← EvalState.context_setMember, ← EvalState.context_setMember] at hset
    have hlen' : (s.setMember m).context.length = (t.setMember m).context.length := by
      rw [EvalState.context_setMember, EvalState.context_setMember, List.length_set, List.length_set,
        hlen]
    refine (ih hset hlen').mono fun o ho => ?_
    rcases ho with ho | ⟨n, hn, hno⟩
    · exact .inl (.inl ho)
    · rcases List.mem_cons.1 hn with rfl | hn
      · exact .inl (.inr hno)
      · exact .inr ⟨n, hn, hno⟩

theorem eq (h : AgreeOn A κ μ) (hA : c.Covers A) (hκ : c.Coordinate κ) (hμ : c.Coordinate μ) :
    κ = μ := by
  refine List.ext_getElem? fun o => ?_
  rcases ho : c.hierarchies[o]? with _ | k
  · have hlen := List.getElem?_eq_none_iff.1 ho
    rw [List.getElem?_eq_none (hκ.length ▸ hlen), List.getElem?_eq_none (hμ.length ▸ hlen)]
  · exact h o (hA o k ho)

end AgreeOn

namespace EvalState

variable {c : Cube} {s : EvalState} {κ : List Member}

theorem context_setRow_of_current {r : Row}
    (h : ∀ m ∈ r, s.context[m.hierarchyOrdinal]? = some m) : (s.setRow r).context = s.context := by
  induction r generalizing s with
  | nil => rfl
  | cons m r ih =>
    obtain ⟨hm, hr⟩ := List.forall_mem_cons.1 h
    have hset : (s.setMember m).context = s.context := by
      obtain ⟨hlt, heq⟩ := List.getElem?_eq_some_iff.1 hm
      rw [context_setMember]
      nth_rewrite 2 [← heq]
      exact List.set_getElem_self hlt
    show ((s.setMember m).setRow r).context = s.context
    rw [ih (by rwa [hset]), hset]

theorem context_setRow_coordinate (hc : c.Regular) (hs : c.Coordinate s.context)
    (hκ : c.Coordinate κ) : (s.setRow κ).context = κ := by
  let t : EvalState := { s with context := κ }
  have hcurrent : ∀ m ∈ κ, t.context[m.hierarchyOrdinal]? = some m := by
    intro m hm
    obtain ⟨i, hi⟩ := List.getElem?_of_mem hm
    obtain ⟨k, hk, hmk⟩ := hκ.hierarchy_of_getElem? hi
    rw [hc.ordinal_of_mem hk hmk]
    exact hi
  have hpinned : c.Covers fun o => False ∨ Pinned κ o := by
    intro o k hk
    have hlt : o < κ.length := by
      rw [hκ.length]
      exact (List.getElem?_eq_some_iff.1 hk).1
    have hmk := hκ.member o k hk κ[o] (List.getElem?_eq_getElem hlt)
    exact .inr ⟨κ[o], List.getElem_mem hlt, hc.ordinal_of_mem hk hmk⟩
  have hlen : s.context.length = t.context.length := hs.length.trans hκ.length.symm
  have hagree := AgreeOn.setRow (A := fun _ => False) (s := s) (t := t) (fun _ h => h.elim) hlen κ
  have htarget : (t.setRow κ).context = κ := context_setRow_of_current hcurrent
  rw [htarget] at hagree
  exact hagree.eq hpinned (coordinate_setRow hc hs hκ.within) hκ

end EvalState

/-! ## Scenes -/

/-- What stays the same in several evaluations of a tree. -/
structure Scene where
  env : Environment
  facts : List Fact
  /-- The flag for cells that are not empty. -/
  nonEmpty : Bool
  root : Calc
  address : Address
  depth : Nat

namespace Scene

variable {S : Scene} {α β : Type} {d : Nat} {s t : EvalState} {κ : List Member}

def domain (S : Scene) : Domain := .ofCube S.env.cube

def fresh (S : Scene) (κ : List Member) (d : Nat) : EvalState :=
  ⟨κ, S.nonEmpty, [], d, .memory S.facts, {}, ∅, ∅⟩

/-- The unique names of the current members of the hierarchies with the given ordinals. -/
def names (os : List Nat) (κ : List Member) : List String :=
  os.filterMap fun o => κ[o]?.map (·.uniqueName)

/-- Results that are kept for the calculations of the tree are those that these have from a fresh
start (module doc). -/
def Coherent (S : Scene) (cache : Std.HashMap CacheKey Value) : Prop :=
  ∀ (a : Address) (level : Nat) (info : CalcInfo) (os : List Nat) (inner : Calc),
    S.root.At S.address a level (.node info (.cache os) [inner]) →
    ∀ (key : List String) (v : Value), cache[((a, S.nonEmpty, key) : CacheKey)]? = some v →
      ∀ κ, S.env.cube.Coordinate κ → names os κ = key →
        ((inner.evaluate (0 :: a)).exec S.env (S.fresh κ (S.depth + level + 1))).1 = .ok v

/-- What calm states have in common with states under the other flag: they read the facts, and what is
kept under the flag of the scene is right. -/
structure Grounded (S : Scene) (d : Nat) (s : EvalState) : Prop where
  within : s.Within S.domain
  coordinate : S.env.cube.Coordinate s.context
  depth : s.depth = d
  reader : s.reader = .memory S.facts
  running : s.execution.stopped? = none
  coherent : S.Coherent s.cache

/-- A state at some depth in which what is kept is right (module doc). -/
structure Calm (S : Scene) (d : Nat) (s : EvalState) : Prop extends S.Grounded d s where
  nonEmpty : s.nonEmpty = S.nonEmpty

namespace Grounded

theorem of_empty (hκ : S.env.cube.Coordinate s.context) (hdepth : s.depth = d)
    (hreader : s.reader = .memory S.facts) (hrunning : s.execution.stopped? = none)
    (hcache : s.cache = ∅) : S.Grounded d s where
  within := ⟨hκ.within, fun k v hv => by simp [hcache] at hv⟩
  coordinate := hκ
  depth := hdepth
  reader := hreader
  running := hrunning
  coherent := by
    intro a level info os inner hat key v hv
    simp [hcache] at hv

theorem frame (h : S.Grounded d s) (hf : s.Frame t) (hw : t.Within S.domain)
    (hco : S.Coherent t.cache) : S.Grounded d t where
  within := hw
  coordinate := hf.context ▸ h.coordinate
  depth := hf.depth.trans h.depth
  reader := hf.reader_memory h.reader
  running := hf.stopped?.trans h.running
  coherent := hco

end Grounded

theorem calm_fresh (hκ : S.env.cube.Coordinate κ) : S.Calm d (S.fresh κ d) :=
  ⟨.of_empty hκ rfl rfl rfl rfl, rfl⟩

namespace Calm

theorem frame (h : S.Calm d s) (hf : s.Frame t) (hw : t.Within S.domain)
    (hco : S.Coherent t.cache) : S.Calm d t :=
  ⟨h.toGrounded.frame hf hw hco, hf.nonEmpty.trans h.nonEmpty⟩

theorem setRow (hc : S.env.cube.Regular) (h : S.Calm d s) {r : Row} (hr : RowWithin S.domain r) :
    S.Calm d (s.setRow r) where
  within := h.within.setRow hr
  coordinate := EvalState.coordinate_setRow hc h.coordinate hr
  nonEmpty := (s.nonEmpty_setRow r).trans h.nonEmpty
  depth := (s.depth_setRow r).trans h.depth
  reader := (s.reader_setRow r).trans h.reader
  running := by rw [EvalState.execution_setRow]; exact h.running
  coherent := by rw [EvalState.cache_setRow]; exact h.coherent

theorem entered (h : S.Calm d s) : S.Calm (d + 1) (EvalM.entered s) where
  within := ⟨h.within.context, h.within.cache⟩
  coordinate := h.coordinate
  nonEmpty := h.nonEmpty
  depth := congrArg (· + 1) h.depth
  reader := h.reader
  running := h.running
  coherent := h.coherent

theorem length_eq (hs : S.Calm d s) (ht : S.Calm d t) : s.context.length = t.context.length :=
  hs.coordinate.length.trans ht.coordinate.length.symm

end Calm

/-- A sound action (module doc). -/
structure Sound (S : Scene) (d : Nat) (A : Nat → Prop) (x : EvalM α) (Q : α → Prop) : Prop where
  ends : ∀ s, S.Calm d s → s.Ends S.domain Q (x.exec S.env s)
  coherent : ∀ s, S.Calm d s → S.Coherent (x.exec S.env s).2.cache
  agrees : ∀ s t, S.Calm d s → S.Calm d t → AgreeOn A s.context t.context →
    (x.exec S.env s).1 = (x.exec S.env t).1

namespace Sound

variable {A B : Nat → Prop}

theorem calm {x : EvalM α} {Q : α → Prop} (hx : S.Sound d A x Q) (hs : S.Calm d s) :
    S.Calm d (x.exec S.env s).2 := by
  obtain ⟨hframe, hw, -⟩ := hx.ends s hs
  exact hs.frame hframe hw (hx.coherent s hs)

theorem mono {x : EvalM α} {P Q : α → Prop} (hx : S.Sound d A x P) (h : ∀ a, P a → Q a) :
    S.Sound d A x Q := by
  refine ⟨fun s hs => ?_, hx.coherent, hx.agrees⟩
  obtain ⟨hframe, hw, hres⟩ := hx.ends s hs
  exact ⟨hframe, hw, fun a ha => h a (hres a ha)⟩

theorem weaken {x : EvalM α} {Q : α → Prop} (hx : S.Sound d A x Q) (hAB : ∀ o, A o → B o) :
    S.Sound d B x Q :=
  ⟨hx.ends, hx.coherent, fun s t hs ht h => hx.agrees s t hs ht (h.mono hAB)⟩

/-- What all results of an action satisfy, its sound results satisfy, too. -/
theorem also {x : EvalM α} {P Q : α → Prop} (hx : S.Sound d A x Q)
    (h : ∀ s a, S.Calm d s → (x.exec S.env s).1 = .ok a → P a) :
    S.Sound d A x fun a => Q a ∧ P a := by
  refine ⟨fun s hs => ?_, hx.coherent, hx.agrees⟩
  obtain ⟨hframe, hw, hres⟩ := hx.ends s hs
  exact ⟨hframe, hw, fun a ha => ⟨hres a ha, h s a hs ha⟩⟩

theorem bind {x : EvalM α} {f : α → EvalM β} {P : α → Prop} {Q : β → Prop} (hx : S.Sound d A x P)
    (hf : ∀ a, P a → S.Sound d A (f a) Q) : S.Sound d A (x >>= f) Q := by
  refine ⟨fun s hs => ?_, fun s hs => ?_, fun s t hs ht h => ?_⟩
  · refine EvalM.ends_bind (hx.ends s hs) fun a s' hexec => ?_
    have hcalm := hx.calm hs
    have hres := (hx.ends s hs).result
    rw [hexec] at hcalm hres
    exact (hf a (hres a rfl)).ends s' hcalm
  · have hcalm := hx.calm hs
    have hres := (hx.ends s hs).result
    rcases hexec : x.exec S.env s with ⟨_ | a, s'⟩
    · rw [hexec] at hcalm
      rw [EvalM.exec_bind_error hexec]
      exact hcalm.coherent
    · rw [hexec] at hcalm hres
      rw [EvalM.exec_bind_ok hexec]
      exact (hf a (hres a rfl)).coherent s' hcalm
  · have heq := hx.agrees s t hs ht h
    have hcalm := hx.calm hs
    have hcalm' := hx.calm ht
    obtain ⟨hframe, -, hres⟩ := hx.ends s hs
    obtain ⟨hframe', -, -⟩ := hx.ends t ht
    rcases hexec : x.exec S.env s with ⟨e | a, s'⟩
    all_goals rcases hexec' : x.exec S.env t with ⟨e' | a', t'⟩
    all_goals rw [hexec, hexec'] at heq
    · rw [EvalM.exec_bind_error hexec, EvalM.exec_bind_error hexec']
      cases heq
      rfl
    · cases heq
    · cases heq
    · cases heq
      rw [hexec] at hcalm hframe hres
      rw [hexec'] at hcalm' hframe'
      rw [EvalM.exec_bind_ok hexec, EvalM.exec_bind_ok hexec']
      refine (hf a (hres a rfl)).agrees s' t' hcalm hcalm' ?_
      rw [hframe.context, hframe'.context]
      exact h

/-- An action that does not touch the state, and does not look at it either. -/
theorem of_const {x : EvalM α} {Q : α → Prop} {r : Except CalcError α}
    (hx : ∀ s, x.exec S.env s = (r, s)) (hQ : ∀ a, r = .ok a → Q a) : S.Sound d A x Q := by
  refine ⟨fun s hs => ?_, fun s hs => ?_, fun s t hs ht h => ?_⟩
  · rw [hx]
    exact .of_same hs.within hQ
  · rw [hx]
    exact hs.coherent
  · rw [hx, hx]

theorem pure {a : α} {Q : α → Prop} (h : Q a) : S.Sound d A (Pure.pure a) Q :=
  of_const (fun _ => EvalM.exec_pure a) (by rintro _ ⟨⟩; exact h)

theorem throw {e : CalcError} {Q : α → Prop} : S.Sound d A (MonadExcept.throw e : EvalM α) Q :=
  of_const (fun _ => EvalM.exec_throw e) (by rintro _ ⟨⟩)

theorem read : S.Sound d A MonadReader.read (· = S.env) :=
  of_const (fun _ => EvalM.exec_read) (by rintro _ ⟨⟩; rfl)

theorem ite {p : Prop} [Decidable p] {x y : EvalM α} {Q : α → Prop} (hx : p → S.Sound d A x Q)
    (hy : ¬ p → S.Sound d A y Q) : S.Sound d A (if p then x else y) Q := by
  by_cases h : p
  · rw [if_pos h]
    exact hx h
  · rw [if_neg h]
    exact hy h

theorem poll (round : Nat) : S.Sound d A (EvalM.poll round) fun _ => True := by
  refine ⟨fun s hs => EvalM.Keeps.poll round s hs.within, fun s hs => ?_, fun s t hs ht h => ?_⟩
  · rw [EvalM.exec_poll]
    exact hs.coherent
  · rw [EvalM.exec_poll, EvalM.exec_poll, Execution.checkRound_of_running hs.running,
      Execution.checkRound_of_running ht.running]

theorem flag {f : Bool → EvalM α} {Q : α → Prop} (hf : S.Sound d A (f S.nonEmpty) Q) :
    S.Sound d A (get >>= fun s => f s.nonEmpty) Q := by
  have hexec {s : EvalState} (hs : S.Calm d s) :
      (get >>= fun s => f s.nonEmpty : EvalM α).exec S.env s = (f S.nonEmpty).exec S.env s := by
    rw [EvalM.exec_bind_ok EvalM.exec_get, hs.nonEmpty]
  refine ⟨fun s hs => ?_, fun s hs => ?_, fun s t hs ht h => ?_⟩
  · rw [hexec hs]
    exact hf.ends s hs
  · rw [hexec hs]
    exact hf.coherent s hs
  · rw [hexec hs, hexec ht]
    exact hf.agrees s t hs ht h

/-- The cell at the context is the same where all current members are. -/
theorem currentCell (hA : S.env.cube.Covers A) :
    S.Sound d A EvalM.currentCell (Value.Within S.domain) := by
  have hexec {s : EvalState} (hs : S.Calm d s) : EvalM.currentCell.exec S.env s =
      (.ok (.ofCell (totalAt S.facts s.context)), { s with reader := .memory S.facts }) :=
    EvalM.exec_currentCell_ready (by rw [hs.reader]; rfl)
  refine ⟨fun s hs => EvalM.Keeps.currentCell s hs.within, fun s hs => ?_, fun s t hs ht h => ?_⟩
  · rw [hexec hs]
    exact hs.coherent
  · rw [hexec hs, hexec ht, h.eq hA hs.coordinate ht.coordinate]

/-- The current member of a hierarchy is the same where its place is agreed on. -/
theorem currentMember {h : Hierarchy} (hA : A h.ordinal) :
    S.Sound d A (EvalM.currentMember h) S.domain.member := by
  refine ⟨fun s hs => EvalM.Keeps.currentMember h s hs.within, fun s hs => ?_,
    fun s t hs ht hst => ?_⟩
  · rw [EvalM.currentMember, EvalM.exec_bind_ok EvalM.exec_get]
    split <;> exact hs.coherent
  · rw [EvalM.currentMember, EvalM.exec_bind_ok EvalM.exec_get, EvalM.exec_bind_ok EvalM.exec_get,
      hst _ hA]
    split <;> rfl

/-- With a tuple in the context an action does not read what the tuple fixes. -/
theorem withRow (hc : S.env.cube.Regular) {r : Row} (hr : RowWithin S.domain r) {x : EvalM α}
    {Q : α → Prop} (hx : S.Sound d (fun o => A o ∨ Pinned r o) x Q) :
    S.Sound d A (EvalM.withRow r x) Q := by
  refine ⟨fun s hs => ?_, fun s hs => ?_, fun s t hs ht h => ?_⟩
  · exact EvalM.ends_withRow hs.within (hx.ends _ (hs.setRow hc hr))
  · rw [EvalM.exec_withRow, EvalState.cache_restore]
    exact hx.coherent _ (hs.setRow hc hr)
  · rw [EvalM.exec_withRow, EvalM.exec_withRow]
    exact hx.agrees _ _ (hs.setRow hc hr) (ht.setRow hc hr) (h.setRow (hs.length_eq ht) r)

theorem calculation (a : Address) {x : EvalM α} {Q : α → Prop} (hx : S.Sound (d + 1) A x Q) :
    S.Sound d A (EvalM.calculation a x) Q := by
  refine ⟨fun s hs => EvalM.ends_calculation a hs.within (hx.ends _ hs.entered), fun s hs => ?_,
    fun s t hs ht h => ?_⟩
  · rcases Nat.lt_or_ge s.depth S.env.config.maxEvalDepth with hd | hd
    · rw [EvalM.exec_calculation a x hd]
      exact hx.coherent _ hs.entered
    · rw [EvalM.exec_calculation_limited a x hd]
      exact hs.coherent
  · have hdepth := hs.depth.trans ht.depth.symm
    rcases Nat.lt_or_ge s.depth S.env.config.maxEvalDepth with hd | hd
    · rw [EvalM.exec_calculation a x hd, EvalM.exec_calculation a x (hdepth ▸ hd)]
      exact hx.agrees _ _ hs.entered ht.entered h
    · rw [EvalM.exec_calculation_limited a x hd, EvalM.exec_calculation_limited a x (hdepth ▸ hd)]

/-! ## Compositions -/

theorem of_composed (hc : S.env.cube.Regular) {contextual : Prop} {given : EvalM Value → Prop}
    (hA : contextual → S.env.cube.Covers A)
    (hgiven : ∀ y, given y → S.Sound d A y (Value.Within S.domain)) {x : EvalM α} {Q : α → Prop}
    (hx : EvalM.Composed S.env S.domain contextual given x Q) : S.Sound d A x Q := by
  induction hx with
  | given h => exact hgiven _ h
  | pure h => exact pure h
  | throw _ => exact throw
  | bind _ _ ihx ihf => exact ihx.bind ihf
  | mono _ h ih => exact ih.mono h
  | read => exact read
  | poll round => exact poll round
  | nonEmpty _ _ ih => exact flag (ih S.nonEmpty)
  | @currentMember h hcontext hh =>
    obtain ⟨i, hi⟩ := List.getElem?_of_mem hh
    refine currentMember (hA hcontext h.ordinal h ?_)
    rwa [hc.ordinal i h hi]
  | currentCell hcontext => exact currentCell (hA hcontext)
  | withRow _ hr _ ih => exact withRow hc hr (ih.weaken fun _ => .inl)

/-- An action that is composed of others without looking at the context reads what they read. -/
theorem of_plain (hc : S.env.cube.Regular) {given : EvalM Value → Prop}
    (hgiven : ∀ y, given y → S.Sound d A y (Value.Within S.domain)) {x : EvalM α} {Q : α → Prop}
    (hx : EvalM.Composed S.env S.domain False given x Q) : S.Sound d A x Q :=
  of_composed hc (fun h => h.elim) hgiven hx

/-- An action that is composed of no others and does not look at the context reads nothing. -/
theorem of_constant (hc : S.env.cube.Regular) {x : EvalM α} {Q : α → Prop}
    (hx : EvalM.Composed S.env S.domain False (fun _ => False) x Q) : S.Sound d A x Q :=
  of_plain hc (fun _ h => h.elim) hx

theorem foldlM {P : α → Prop} {f : α → β → EvalM α} {l : List β}
    (hf : ∀ a, P a → ∀ b ∈ l, S.Sound d A (f a b) P) {a : α} (ha : P a) :
    S.Sound d A (l.foldlM f a) P := by
  induction l generalizing a with
  | nil => exact pure ha
  | cons b l ih =>
    rw [List.foldlM_cons]
    refine (hf a ha b List.mem_cons_self).bind fun a' ha' => ih (fun a'' h b' hb => ?_) ha'
    exact hf a'' h b' (List.mem_cons_of_mem b hb)

theorem forEachRow (hc : S.env.cube.Regular) {src : TupleSource} {f : Row → EvalM α} {Q : α → Prop}
    (hs : src.Within S.domain)
    (hf : ∀ r ∈ src.rows, S.Sound d (fun o => A o ∨ Pinned r o) (f r) Q) :
    S.Sound d A (EvalM.forEachRow src f) fun as => ∀ a ∈ as, Q a := by
  rw [EvalM.forEachRow, TupleSource.foldM_eq_foldlM_rows]
  refine bind (foldlM (P := fun p => ∀ a ∈ p.2, Q a) (fun p hp r hr => ?_) (by simp)) ?_
  · refine (poll _).bind fun _ _ => (withRow hc (hs r hr) (hf r hr)).bind fun a ha => pure ?_
    exact List.forall_mem_cons.2 ⟨ha, hp⟩
  · exact fun p hp => pure fun a ha => hp a (List.mem_reverse.1 ha)

end Sound

/-! ## Kept results -/

/-- Coordinates whose members have the same names at some places have the same members there. -/
theorem agreeOn_of_names {c : Cube} (hc : c.Regular) {κ μ : List Member} (hκ : c.Coordinate κ)
    (hμ : c.Coordinate μ) {os : List Nat} (hos : ∀ o ∈ os, o < c.hierarchies.length)
    (h : names os κ = names os μ) : AgreeOn (· ∈ os) κ μ := by
  induction os with
  | nil => rintro o ⟨⟩
  | cons o os ih =>
    have hlt := hos o List.mem_cons_self
    have hκo := List.getElem?_eq_getElem (hκ.length.symm ▸ hlt : o < κ.length)
    have hμo := List.getElem?_eq_getElem (hμ.length.symm ▸ hlt : o < μ.length)
    have hcons (ν : List Member) (m : Member) (hm : ν[o]? = some m) :
        names (o :: os) ν = m.uniqueName :: names os ν :=
      List.filterMap_cons_some (by rw [hm]; rfl)
    rw [hcons κ _ hκo, hcons μ _ hμo] at h
    obtain ⟨hname, hrest⟩ := List.cons.inj h
    intro i hi
    rcases List.mem_cons.1 hi with rfl | hi
    · refine hc.getElem?_eq hκ hμ ?_
      rw [hκo, hμo, Option.map_some, Option.map_some, hname]
    · exact ih (fun i hi => hos i (List.mem_cons_of_mem o hi)) hrest i hi

section
variable {a : Address} {level : Nat} {info : CalcInfo} {os : List Nat} {inner : Calc}
variable {A : Nat → Prop}

/-- A kept result, or a new one, is the one from a fresh start. -/
theorem exec_cached (hat : S.root.At S.address a level (.node info (.cache os) [inner]))
    (hx : S.Sound (S.depth + level + 1) A (inner.evaluate (0 :: a)) (Value.Within S.domain))
    (hs : S.Calm (S.depth + level + 1) s) :
    ((EvalM.cached a os (inner.evaluate (0 :: a))).exec S.env s).1 =
      ((inner.evaluate (0 :: a)).exec S.env (S.fresh s.context (S.depth + level + 1))).1 := by
  have hfresh := hx.agrees s _ hs (calm_fresh hs.coordinate) (.refl A _)
  rcases hk : s.cache[EvalM.cacheKey a os s]? with _ | v
  · rcases hexec : (inner.evaluate (0 :: a)).exec S.env s with ⟨_ | v, t⟩
    · rw [hexec] at hfresh
      rw [EvalM.exec_cached_error hk hexec]
      exact hfresh
    · rw [hexec] at hfresh
      rw [EvalM.exec_cached_ok hk hexec]
      exact hfresh
  · rw [EvalM.exec_cached_hit hk]
    rw [EvalM.cacheKey, hs.nonEmpty] at hk
    exact (hs.coherent a level info os inner hat _ v hk s.context hs.coordinate rfl).symm

/-- The names of the current members of some hierarchies determine the result of the calculation from
a fresh start. -/
def Determines (S : Scene) (os : List Nat) (inner : Calc) (a : Address) (level : Nat) : Prop :=
  ∀ κ μ, S.env.cube.Coordinate κ → S.env.cube.Coordinate μ → names os κ = names os μ → ∀ v,
    ((inner.evaluate (0 :: a)).exec S.env (S.fresh κ (S.depth + level + 1))).1 = .ok v →
      ((inner.evaluate (0 :: a)).exec S.env (S.fresh μ (S.depth + level + 1))).1 = .ok v

theorem determines_of_reads (hc : S.env.cube.Regular)
    (hos : ∀ o ∈ os, o < S.env.cube.hierarchies.length) (hA : ∀ o, A o → o ∈ os)
    (hx : S.Sound (S.depth + level + 1) A (inner.evaluate (0 :: a)) (Value.Within S.domain)) :
    S.Determines os inner a level := by
  intro κ μ hκ hμ hnames v hv
  have hagree : AgreeOn A κ μ := (agreeOn_of_names hc hκ hμ hos hnames).mono hA
  rw [← hx.agrees _ _ (calm_fresh hκ) (calm_fresh hμ) hagree]
  exact hv

theorem sound_cached (hat : S.root.At S.address a level (.node info (.cache os) [inner]))
    (hkey : S.Determines os inner a level)
    (hx : S.Sound (S.depth + level + 1) A (inner.evaluate (0 :: a)) (Value.Within S.domain)) :
    S.Sound (S.depth + level + 1) A (EvalM.cached a os (inner.evaluate (0 :: a)))
      (Value.Within S.domain) := by
  refine ⟨fun s hs => ?_, fun s hs => ?_, fun s t hs ht h => ?_⟩
  · exact EvalM.ends_cached a os hs.within (hx.ends s hs)
  · have hcalm := hx.calm hs
    have hfresh := hx.agrees s _ hs (calm_fresh hs.coordinate) (.refl A _)
    rcases hk : s.cache[EvalM.cacheKey a os s]? with _ | v
    · rcases hexec : (inner.evaluate (0 :: a)).exec S.env s with ⟨_ | v, t⟩
      · rw [hexec] at hcalm
        rw [EvalM.exec_cached_error hk hexec]
        exact hcalm.coherent
      · rw [hexec] at hcalm hfresh
        rw [EvalM.exec_cached_ok hk hexec]
        intro a' level' info' os' inner' hat' key w hw κ hκ hnames
        rw [EvalM.getElem?_keeping] at hw
        split at hw
        · -- the new result: whatever has the same key has the same result
          rename_i heq
          cases hw
          rw [EvalM.cacheKey, Prod.mk.injEq, Prod.mk.injEq] at heq
          obtain ⟨rfl, -, hsame⟩ := heq
          obtain ⟨rfl, hnode⟩ := hat.unique hat'
          cases hnode
          exact hkey _ κ hs.coordinate hκ (hsame.trans hnames.symm) v hfresh.symm
        · exact hcalm.coherent a' level' info' os' inner' hat' key w hw κ hκ hnames
    · rw [EvalM.exec_cached_hit hk]
      exact hs.coherent
  · rw [exec_cached hat hx hs, exec_cached hat hx ht]
    exact hx.agrees _ _ (calm_fresh hs.coordinate) (calm_fresh ht.coordinate) h

end

end Scene

end Olap
