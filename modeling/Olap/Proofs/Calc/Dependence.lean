import Olap.Proofs.Calc.WellFormed
import Olap.Proofs.Typing.Fits

/-!
# Dependence under either flag

Dependency analysis takes a join to depend on what the joined sets depend on. With the flag for cells
that are not empty a join also reads the cells at its tuples, and depends on all hierarchies that
these do not fix. `Calc.dependsIn` is the analysis with that corrected: without the flag it is
`Calc.dependsOn` (`Calc.dependsIn_false`). `Calc.Reads` is the same as a property of ordinals.

`Calc.At root start a level c` says that the calculation `c` stands at the address `a`, some levels
below the root of a tree. There is one calculation at most at each address (`Calc.At.unique`).
-/

set_option autoImplicit false

namespace Olap

/-- The rule of an operation, corrected for the flag (module doc). -/
def Operation.ruleIn (nonEmpty : Bool) (op : Operation) (rule : DependencyRule) : DependencyRule :=
  match op with
  | crossJoin _ => if nonEmpty then .butDepends else rule
  | _ => rule

namespace Calc

mutual

/-- Whether the result may change with the current member of `h`, under a flag. -/
def dependsIn (nonEmpty : Bool) (h : Hierarchy) : Calc → Bool
  | node info op children =>
    (op.ruleIn nonEmpty info.rule).depends h (dependenciesIn nonEmpty h children)

/-- What is known about the dependence of several calculations, under a flag. -/
def dependenciesIn (nonEmpty : Bool) (h : Hierarchy) : List Calc → List ChildDependency
  | [] => []
  | c :: cs => ⟨c.dependsIn nonEmpty h, c.type⟩ :: dependenciesIn nonEmpty h cs

end

mutual

/-- Without the flag the correction changes nothing. -/
theorem dependsIn_false (h : Hierarchy) : ∀ c : Calc, c.dependsIn false h = c.dependsOn h
  | node info op children => by
    have hrule : op.ruleIn false info.rule = info.rule := by
      cases op <;> rfl
    rw [dependsIn, dependsOn, hrule, dependenciesIn_false h children]

theorem dependenciesIn_false (h : Hierarchy) :
    ∀ cs : List Calc, dependenciesIn false h cs = dependencies h cs
  | [] => rfl
  | c :: cs => by
    rw [dependenciesIn, dependencies, dependsIn_false h c, dependenciesIn_false h cs]

end

theorem dependenciesIn_eq_map (b : Bool) (h : Hierarchy) (cs : List Calc) :
    dependenciesIn b h cs = cs.map fun c => ⟨c.dependsIn b h, c.type⟩ := by
  induction cs with
  | nil => rfl
  | cons c cs ih => rw [dependenciesIn, ih, List.map_cons]

/-- The result may change with the current member of the hierarchy at a place of the cube. -/
def Reads (cube : Cube) (nonEmpty : Bool) (c : Calc) (o : Nat) : Prop :=
  ∃ h, cube.hierarchies[o]? = some h ∧ c.dependsIn nonEmpty h = true

/-! ## What the rules say -/

section
variable {cube : Cube} {b : Bool} {info : CalcInfo} {op : Operation} {cs : List Calc} {o : Nat}

/-- A calculation depends on what its children depend on, by most of the rules. -/
theorem Reads.of_child (hrule : op.ruleIn b info.rule = .anyChild ∨ op.ruleIn b info.rule = .butDepends)
    {c : Calc} (hc : c ∈ cs) (h : c.Reads cube b o) : (node info op cs).Reads cube b o := by
  obtain ⟨k, hk, hd⟩ := h
  have hany : (cs.map fun c => (⟨c.dependsIn b k, c.type⟩ : ChildDependency)).any (·.depends) = true :=
    List.any_eq_true.2 ⟨_, List.mem_map.2 ⟨c, hc, rfl⟩, hd⟩
  refine ⟨k, hk, ?_⟩
  rw [dependsIn, dependenciesIn_eq_map]
  rcases hrule with hrule | hrule
  · rw [hrule, DependencyRule.depends, hany]
  · rw [hrule, DependencyRule.depends, hany, Bool.true_or]

theorem Reads.of_always (hrule : op.ruleIn b info.rule = .always) {k : Hierarchy}
    (hk : cube.hierarchies[o]? = some k) : (node info op cs).Reads cube b o :=
  ⟨k, hk, by rw [dependsIn, hrule, DependencyRule.depends]⟩

/-- A calculation depends on all hierarchies that no child fixes. -/
theorem Reads.or_uses (hrule : op.ruleIn b info.rule = .butDepends) {k : Hierarchy}
    (hk : cube.hierarchies[o]? = some k) :
    (node info op cs).Reads cube b o ∨ ∃ c ∈ cs, c.type.uses k true = true := by
  rcases hfixed : cs.any (·.type.uses k true) with _ | _
  · refine .inl ⟨k, hk, ?_⟩
    have hnone : (cs.map fun c => (⟨c.dependsIn b k, c.type⟩ : ChildDependency)).any
        (·.type.uses k true) = false := by
      rw [List.any_map]
      exact hfixed
    rw [dependsIn, dependenciesIn_eq_map, hrule, DependencyRule.depends, hnone, Bool.not_false,
      Bool.or_true]
  · exact .inr (List.any_eq_true.1 hfixed)

theorem Reads.of_first (hrule : op.ruleIn b info.rule = .allButFirst) {c : Calc}
    (h : c.Reads cube b o) : (node info op (c :: cs)).Reads cube b o := by
  obtain ⟨k, hk, hd⟩ := h
  refine ⟨k, hk, ?_⟩
  rw [dependsIn, hrule, dependenciesIn, DependencyRule.depends, hd, Bool.true_or]

/-- The tuples of the first child are the context of the others. -/
theorem Reads.of_rest (hrule : op.ruleIn b info.rule = .allButFirst) {c c' : Calc} (hc : c' ∈ cs)
    {k : Hierarchy} (hk : cube.hierarchies[o]? = some k) (h : c'.Reads cube b o) :
    (node info op (c :: cs)).Reads cube b o ∨ c.type.uses k true = true := by
  obtain ⟨k', hk', hd⟩ := h
  cases hk.symm.trans hk'
  rcases hfixed : c.type.uses k true with _ | _
  · refine .inl ⟨k, hk, ?_⟩
    have hany : (cs.map fun c => (⟨c.dependsIn b k, c.type⟩ : ChildDependency)).any (·.depends) =
        true := List.any_eq_true.2 ⟨_, List.mem_map.2 ⟨c', hc, rfl⟩, hd⟩
    rw [dependsIn, hrule, dependenciesIn, dependenciesIn_eq_map, DependencyRule.depends, hany, hfixed]
    simp
  · exact .inr rfl

theorem Reads.of_operand (hrule : op.ruleIn b info.rule = .currentOf) {c : Calc}
    (h : c.Reads cube b o) : (node info op (c :: cs)).Reads cube b o := by
  obtain ⟨k, hk, hd⟩ := h
  refine ⟨k, hk, ?_⟩
  rw [dependsIn, hrule, dependenciesIn, DependencyRule.depends]
  simp [hd]

/-- A current member is one of a hierarchy that the type of the operand does not exclude. -/
theorem Reads.of_uses (hrule : op.ruleIn b info.rule = .currentOf) {c : Calc} {k : Hierarchy}
    (hk : cube.hierarchies[o]? = some k) (hu : c.type.uses k false = true) :
    (node info op (c :: cs)).Reads cube b o := by
  refine ⟨k, hk, ?_⟩
  rw [dependsIn, hrule, dependenciesIn, DependencyRule.depends]
  simp [hu]

end

/-! ## Places in a tree -/

/-- The calculation at an address, some levels below the root (module doc). -/
inductive At (root : Calc) (start : Address) : Address → Nat → Calc → Prop
  | root : At root start start 0 root
  | child {a : Address} {level k : Nat} {info : CalcInfo} {op : Operation} {cs : List Calc} {c : Calc}
      (h : At root start a level (.node info op cs)) (hc : cs[k]? = some c) :
      At root start (k :: a) (level + 1) c

namespace At

variable {root c c' : Calc} {start a : Address} {level level' : Nat}

theorem length (h : At root start a level c) : a.length = start.length + level := by
  induction h with
  | root => rfl
  | child _ _ ih => rw [List.length_cons, ih, Nat.add_assoc]

theorem unique (h : At root start a level c) (h' : At root start a level' c') :
    level = level' ∧ c = c' := by
  have hlevel : level = level' := by
    have := h.length
    have := h'.length
    omega
  subst hlevel
  refine ⟨rfl, ?_⟩
  induction level generalizing a c c' with
  | zero =>
    cases h
    cases h'
    rfl
  | succ level ih =>
    cases h with
    | child h hc =>
      cases h' with
      | child h' hc' =>
        cases ih h h'
        exact Option.some.inj (hc.symm.trans hc')

/-- Below a root with one child stands what stands in the child. -/
theorem root_or_child {info : CalcInfo} {op : Operation} {child : Calc}
    (h : At (.node info op [child]) start a level c) :
    a = start ∧ level = 0 ∧ c = .node info op [child] ∨
      ∃ below, level = below + 1 ∧ At child (0 :: start) a below c := by
  induction h with
  | root => exact .inl ⟨rfl, rfl, rfl⟩
  | @child _ _ k _ _ _ _ _ hc ih =>
    rcases ih with ⟨rfl, rfl, hnode⟩ | ⟨below, rfl, hat⟩
    · cases hnode
      rcases k with _ | k
      · cases hc
        exact .inr ⟨0, rfl, .root⟩
      · cases hc
    · exact .inr ⟨below + 1, rfl, .child hat hc⟩

/-- What holds of every node of a tree holds of the subtree at each address. -/
theorem every {P : Calc → Prop} (h : At root start a level c) (hroot : root.Every P) : c.Every P := by
  induction h with
  | root => exact hroot
  | child _ hc ih => exact ih.child _ (List.mem_of_getElem? hc)

end At

end Calc

end Olap
