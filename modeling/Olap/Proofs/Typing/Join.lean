import Mathlib.Data.List.Zip
import Olap.Proofs.Function.Resolution
import Olap.Proofs.Typing.Truth
import Olap.Function.Builtins

/-!
# Common types as joins

Two types have something in common if and only if they have the same shape (`ExprType.isSome_common?`),
which is what is left of a type without its scopes and without the distinctions between scalars. Within
one shape a common type is a join: columns keep what all scopes say, and scalars form a semilattice.
From this follow the laws of a join on all types, where "nothing in common" absorbs, and what dependency
analysis rests on: what a common type says of a hierarchy holds of both types
(`ExprType.common_join`).
-/

set_option autoImplicit false

namespace Olap

namespace Scope

@[simp]
theorem common_self (s : Scope) : s.common s = s := by
  simp [common]

theorem common_assoc (s t u : Scope) : (s.common t).common u = s.common (t.common u) := by
  simp only [common]
  congr 1 <;> grind

end Scope

namespace ExprType

/-! ## Shapes -/

/-- What is left of a type without its scopes and without the distinctions between scalars. -/
def shape : ExprType → ExprType
  | scalar | boolean | numeric | integer | string | null => scalar
  | member _ => anyMember
  | tuple ss => tuple (List.replicate ss.length .unknown)
  | set t => set t.shape
  | t => t

theorem shape_of_isScalar {t : ExprType} (h : t.isScalar = true) : t.shape = scalar := by
  cases t <;> first | rfl | cases h

theorem isScalar_of_shape {t : ExprType} (h : t.shape = scalar) : t.isScalar = true := by
  cases t <;> first | rfl | cases h

theorem eq_member_of_shape {t : ExprType} (h : t.shape = anyMember) : ∃ s, t = member s := by
  cases t <;> first | exact ⟨_, rfl⟩ | cases h

theorem eq_tuple_of_shape {t : ExprType} {ss : List Scope}
    (h : t.shape = (tuple ss).shape) : ∃ ts, t = tuple ts ∧ ts.length = ss.length := by
  cases t with
  | tuple ts =>
    have hlen := congrArg List.length (ExprType.tuple.inj h)
    rw [List.length_replicate, List.length_replicate] at hlen
    exact ⟨ts, rfl, hlen⟩
  | _ => cases h

theorem eq_set_of_shape {t u : ExprType} (h : t.shape = set u) :
    ∃ a, t = set a ∧ a.shape = u := by
  cases t with
  | set a => exact ⟨a, rfl, ExprType.set.inj h⟩
  | _ => cases h

/-- Types with something in common have one shape, which is also that of what they have in common. -/
theorem shape_common? {t u v : ExprType} (h : t.common? u = some v) :
    t.shape = u.shape ∧ v.shape = u.shape := by
  fun_induction common? t u generalizing v with
  | case1 u =>
    cases h
    exact ⟨rfl, rfl⟩
  | case2 t u _ hnull =>
    cases h
    rw [hnull.1, shape_of_isScalar hnull.2]
    exact ⟨rfl, rfl⟩
  | case3 t u _ _ hnull =>
    cases h
    rw [hnull.1, shape_of_isScalar hnull.2]
    exact ⟨rfl, rfl⟩
  | case4 | case5 | case6 =>
    cases h
    exact ⟨rfl, rfl⟩
  | case7 ss ts hlen =>
    cases h
    simp [shape, hlen]
  | case8 => cases h
  | case9 a b _ _ _ ih =>
    obtain ⟨w, hw, rfl⟩ := Option.map_eq_some_iff.1 h
    obtain ⟨hab, hwb⟩ := ih hw
    exact ⟨congrArg set hab, congrArg set hwb⟩
  | case10 t u _ _ _ _ _ hscalar =>
    cases h
    rw [shape_of_isScalar hscalar.1, shape_of_isScalar hscalar.2]
    exact ⟨rfl, rfl⟩
  | case11 => cases h

/-! ## What types of one shape have in common -/

@[simp]
theorem common?_self (t : ExprType) : t.common? t = some t := by
  rw [common?.eq_def]
  exact if_pos rfl

theorem common?_member (s s' : Scope) :
    (member s).common? (member s') = some (member (s.common s')) := by
  by_cases h : s = s'
  · rw [h, common?_self, Scope.common_self]
  · simp [common?, h]

theorem common?_tuple {ss ts : List Scope} (h : ss.length = ts.length) :
    (tuple ss).common? (tuple ts) = some (tuple (List.zipWith Scope.common ss ts)) := by
  by_cases heq : ss = ts
  · rw [heq, common?_self, List.zipWith_self]
    simp
  · simp [common?, heq, h]

theorem common?_set (t u : ExprType) : (set t).common? (set u) = (t.common? u).map set := by
  by_cases h : t = u
  · rw [h, common?_self, common?_self]
    rfl
  · rw [common?, if_neg (by simpa using h), if_neg (by simp), if_neg (by simp)]

/-- The scalars. -/
def scalars : List ExprType := [scalar, boolean, numeric, integer, string, null]

theorem mem_scalars {t : ExprType} (h : t.shape = scalar) : t ∈ scalars := by
  cases t <;> first | decide | cases h

theorem scalars_isSome : ∀ t ∈ scalars, ∀ u ∈ scalars, (t.common? u).isSome = true := by decide

theorem scalars_comm : ∀ t ∈ scalars, ∀ u ∈ scalars, t.common? u = u.common? t := by decide

theorem scalars_assoc : ∀ t ∈ scalars, ∀ u ∈ scalars, ∀ v ∈ scalars,
    (t.common? u).bind (·.common? v) = (u.common? v).bind t.common? := by decide

/-- Types have something in common if they have one shape. -/
theorem exists_common? {t u : ExprType} (h : t.shape = u.shape) : ∃ v, t.common? u = some v := by
  induction t generalizing u with
  | scalar | boolean | numeric | integer | string | null =>
    exact Option.isSome_iff_exists.1 (scalars_isSome _ (by decide) u (mem_scalars h.symm))
  | member s =>
    obtain ⟨s', rfl⟩ := eq_member_of_shape h.symm
    exact ⟨_, common?_member s s'⟩
  | tuple ss =>
    obtain ⟨ts, rfl, hlen⟩ := eq_tuple_of_shape h.symm
    exact ⟨_, common?_tuple hlen.symm⟩
  | set t ih =>
    obtain ⟨a, rfl, ha⟩ := eq_set_of_shape h.symm
    obtain ⟨v, hv⟩ := ih ha.symm
    exact ⟨set v, by rw [common?_set, hv]; rfl⟩
  | symbol | level s | hierarchy s | dimension s | empty =>
    cases u <;> cases h
    exact ⟨_, common?_self _⟩

theorem isSome_common? (t u : ExprType) : (t.common? u).isSome = true ↔ t.shape = u.shape := by
  rw [Option.isSome_iff_exists]
  exact ⟨fun ⟨_, hv⟩ => (shape_common? hv).1, exists_common?⟩

/-! ## The laws of a join -/

theorem zipWith_common_assoc (ss ts us : List Scope) :
    List.zipWith Scope.common (List.zipWith Scope.common ss ts) us =
      List.zipWith Scope.common ss (List.zipWith Scope.common ts us) := by
  rw [List.zipWith_zipWith_left, List.zipWith_zipWith_right]
  congr 1
  funext s t u
  exact s.common_assoc t u

theorem common?_comm (t u : ExprType) : t.common? u = u.common? t := by
  by_cases h : t.shape = u.shape
  · induction t generalizing u with
    | scalar | boolean | numeric | integer | string | null =>
      exact scalars_comm _ (by decide) u (mem_scalars h.symm)
    | member s =>
      obtain ⟨s', rfl⟩ := eq_member_of_shape h.symm
      rw [common?_member, common?_member, Scope.common_comm]
    | tuple ss =>
      obtain ⟨ts, rfl, hlen⟩ := eq_tuple_of_shape h.symm
      rw [common?_tuple hlen, common?_tuple hlen.symm, zipWith_common_comm]
    | set t ih =>
      obtain ⟨a, rfl, ha⟩ := eq_set_of_shape h.symm
      rw [common?_set, common?_set, ih a ha.symm]
    | symbol | level s | hierarchy s | dimension s | empty =>
      cases u <;> cases h
      rfl
  · have hleft : ¬ (t.common? u).isSome = true := mt (isSome_common? t u).1 h
    have hright : ¬ (u.common? t).isSome = true := mt (isSome_common? u t).1 fun h' => h h'.symm
    rw [Option.not_isSome_iff_eq_none.1 hleft, Option.not_isSome_iff_eq_none.1 hright]

/-- Types of one shape have the same in common in whatever order they are joined. -/
theorem common?_assoc_of_shape {t u v : ExprType} (h : t.shape = u.shape) (h' : u.shape = v.shape) :
    (t.common? u).bind (·.common? v) = (u.common? v).bind t.common? := by
  induction t generalizing u v with
  | scalar | boolean | numeric | integer | string | null =>
    exact scalars_assoc _ (by decide) u (mem_scalars h.symm) v (mem_scalars (h.trans h').symm)
  | member s =>
    obtain ⟨s', rfl⟩ := eq_member_of_shape h.symm
    obtain ⟨s'', rfl⟩ := eq_member_of_shape h'.symm
    simp only [common?_member, Option.bind_some, Scope.common_assoc]
  | tuple ss =>
    obtain ⟨ts, rfl, hts⟩ := eq_tuple_of_shape h.symm
    obtain ⟨us, rfl, hus⟩ := eq_tuple_of_shape h'.symm
    have hleft : (List.zipWith Scope.common ss ts).length = us.length := by simp; omega
    have hright : ss.length = (List.zipWith Scope.common ts us).length := by simp; omega
    rw [common?_tuple hts.symm, common?_tuple hus.symm, Option.bind_some, Option.bind_some,
      common?_tuple hleft, common?_tuple hright, zipWith_common_assoc]
  | set t ih =>
    obtain ⟨a, rfl, ha⟩ := eq_set_of_shape h.symm
    obtain ⟨b, rfl, hb⟩ := eq_set_of_shape h'.symm
    have hset := congrArg (Option.map set) (ih ha.symm hb.symm)
    simpa [common?_set, Option.map_bind, Option.bind_map, Function.comp_def] using hset
  | symbol | level s | hierarchy s | dimension s | empty =>
    cases u <;> cases h
    cases v <;> cases h'
    simp only [common?_self, Option.bind_some]

theorem common?_assoc (t u v : ExprType) :
    (t.common? u).bind (·.common? v) = (u.common? v).bind t.common? := by
  by_cases h : t.shape = u.shape ∧ u.shape = v.shape
  · exact common?_assoc_of_shape h.1 h.2
  · have hleft : (t.common? u).bind (·.common? v) = none := by
      refine Option.eq_none_iff_forall_not_mem.2 fun w hw => h ?_
      obtain ⟨x, hx, hw⟩ := Option.bind_eq_some_iff.1 hw
      exact ⟨(shape_common? hx).1, (shape_common? hx).2 ▸ (shape_common? hw).1⟩
    have hright : (u.common? v).bind t.common? = none := by
      refine Option.eq_none_iff_forall_not_mem.2 fun w hw => h ?_
      obtain ⟨x, hx, hw⟩ := Option.bind_eq_some_iff.1 hw
      obtain ⟨huv, hxv⟩ := shape_common? hx
      exact ⟨(shape_common? hw).1.trans (hxv.trans huv.symm), huv⟩
    rw [hleft, hright]

/-- What two types have in common, where having nothing in common absorbs. -/
def commonOf (x y : Option ExprType) : Option ExprType := x.bind fun t => y.bind t.common?

theorem commonOf_self (x : Option ExprType) : commonOf x x = x := by
  cases x with
  | none => rfl
  | some t => exact common?_self t

theorem commonOf_comm (x y : Option ExprType) : commonOf x y = commonOf y x := by
  cases x with
  | none => cases y <;> rfl
  | some t =>
    cases y with
    | none => rfl
    | some u => exact common?_comm t u

theorem commonOf_assoc (x y z : Option ExprType) :
    commonOf (commonOf x y) z = commonOf x (commonOf y z) := by
  cases x with
  | none => rfl
  | some t =>
    cases y with
    | none => rfl
    | some u =>
      cases z with
      | none => exact Option.bind_fun_none _
      | some v => exact common?_assoc t u v

theorem foldlM_common?_perm {ts us : List ExprType} (h : ts.Perm us) (t : ExprType) :
    ts.foldlM common? t = us.foldlM common? t := by
  induction h generalizing t with
  | nil => rfl
  | cons x _ ih =>
    rw [List.foldlM_cons, List.foldlM_cons]
    exact Option.bind_congr fun y _ => ih y
  | swap x y l =>
    simp only [List.foldlM_cons]
    show (t.common? y).bind (fun a => (a.common? x).bind _) =
      (t.common? x).bind (fun a => (a.common? y).bind _)
    rw [← Option.bind_assoc, ← Option.bind_assoc, common?_assoc, common?_assoc, common?_comm y x]
  | trans _ _ ih ih' => exact (ih t).trans (ih' t)

end ExprType

/-- The common type of several types does not depend on their order. -/
theorem ResultRule.commonElement_perm {ts us : List ExprType} (h : ts.Perm us) :
    commonElement ts = commonElement us := by
  have hcons (t u : ExprType) (l : List ExprType) :
      commonElement (t :: u :: l) = ((t.common? u).bind (l.foldlM ExprType.common?)).getD .anyMember := rfl
  induction h with
  | nil => rfl
  | cons t h _ => exact congrArg (Option.getD · .anyMember) (ExprType.foldlM_common?_perm h t)
  | swap t u l => rw [hcons, hcons, ExprType.common?_comm]
  | trans _ _ ih ih' => exact ih.trans ih'

/-! ## Where the values of a common type are -/

variable {c : Cube}

namespace Scope

/-- If the scope names a hierarchy of the cube, then it names the dimension of this hierarchy as
well. -/
def WellFormed (c : Cube) (s : Scope) : Prop :=
  ∀ h ∈ c.hierarchies, s.hierarchy = some h.uniqueName → s.dimension = some h.dimension

variable {s : Scope} {h : Hierarchy}

theorem uses_definitely : s.uses h true = true ↔ s.hierarchy = some h.uniqueName := by
  unfold uses
  split <;> simp_all

theorem uses_possibly : s.uses h false = true ↔ s.hierarchy = some h.uniqueName ∨
    s.hierarchy = none ∧ (s.dimension = some h.dimension ∨ s.dimension = none) := by
  unfold uses
  split <;> simp_all

/-- What a scope does not exclude, no scope excludes that says less. -/
theorem uses_common (hs : s.WellFormed c) (hh : h ∈ c.hierarchies) (huse : s.uses h false = true)
    (t : Scope) : (s.common t).uses h false = true := by
  have hnamed := hs h hh
  rw [uses_possibly] at huse ⊢
  simp only [common]
  grind

theorem uses_of_common {t : Scope} (huse : (s.common t).uses h true = true) :
    s.uses h true = true := by
  rw [uses_definitely] at huse ⊢
  simp only [common] at huse
  grind

end Scope

namespace ExprType

/-- The scopes of the type are well-formed for the cube. -/
def WellScoped (c : Cube) : ExprType → Prop
  | member s | level s | hierarchy s | dimension s => s.WellFormed c
  | tuple ss => ∀ s ∈ ss, s.WellFormed c
  | set t => t.WellScoped c
  | _ => True

variable {t u v : ExprType} {h : Hierarchy}

theorem uses_of_isScalar (ht : t.isScalar = true) (definitely : Bool) :
    t.uses h definitely = false := by
  cases t <;> first | rfl | cases ht

/-- A tuple lies on a hierarchy if one of its columns does, or if its columns are unknown. -/
theorem uses_tuple {ss : List Scope} {definitely : Bool} : (tuple ss).uses h definitely = true ↔
    ss = [] ∧ definitely = false ∨ ∃ s ∈ ss, s.uses h definitely = true := by
  cases ss with
  | nil => simp [uses]
  | cons s ss => simp [uses]

/-- What lies on a hierarchy, possibly, does so as a value of any type in common with others. -/
theorem uses_common? (hv : t.common? u = some v) (ht : t.WellScoped c) (hh : h ∈ c.hierarchies)
    (huse : t.uses h false = true) : v.uses h false = true := by
  induction t generalizing u v with
  | scalar | boolean | numeric | integer | string | null | symbol | empty => cases huse
  | level s | hierarchy s | dimension s =>
    obtain ⟨hshape, -⟩ := shape_common? hv
    cases u <;> cases hshape
    rw [common?_self] at hv
    cases hv
    exact huse
  | member s =>
    obtain ⟨s', rfl⟩ := eq_member_of_shape (shape_common? hv).1.symm
    rw [common?_member] at hv
    cases hv
    exact Scope.uses_common ht hh huse s'
  | tuple ss =>
    obtain ⟨ts, rfl, hlen⟩ := eq_tuple_of_shape (shape_common? hv).1.symm
    rw [common?_tuple hlen.symm] at hv
    cases hv
    rw [uses_tuple] at huse ⊢
    rcases huse with ⟨rfl, -⟩ | ⟨s, hs, huse⟩
    · exact .inl ⟨rfl, rfl⟩
    · obtain ⟨i, hi, rfl⟩ := List.mem_iff_getElem.1 hs
      have hget : (List.zipWith Scope.common ss ts)[i]? = some (ss[i].common ts[i]) := by
        simp [hi, hlen]
      exact .inr ⟨_, List.mem_of_getElem? hget, Scope.uses_common (ht _ hs) hh huse _⟩
  | set t ih =>
    obtain ⟨a, rfl, -⟩ := eq_set_of_shape (shape_common? hv).1.symm
    rw [common?_set] at hv
    obtain ⟨w, hw, rfl⟩ := Option.map_eq_some_iff.1 hv
    exact ih (v := w) hw ht huse

/-- What a type in common with others says definitely, the type says as well. -/
theorem uses_of_common? (hv : t.common? u = some v) (huse : v.uses h true = true) :
    t.uses h true = true := by
  induction t generalizing u v with
  | scalar | boolean | numeric | integer | string | null =>
    obtain ⟨hshape, hshape'⟩ := shape_common? hv
    rw [uses_of_isScalar (isScalar_of_shape (hshape'.trans hshape.symm))] at huse
    cases huse
  | symbol | empty | level s | hierarchy s | dimension s =>
    obtain ⟨hshape, -⟩ := shape_common? hv
    cases u <;> cases hshape
    rw [common?_self] at hv
    cases hv
    exact huse
  | member s =>
    obtain ⟨s', rfl⟩ := eq_member_of_shape (shape_common? hv).1.symm
    rw [common?_member] at hv
    cases hv
    exact Scope.uses_of_common huse
  | tuple ss =>
    obtain ⟨ts, rfl, hlen⟩ := eq_tuple_of_shape (shape_common? hv).1.symm
    rw [common?_tuple hlen.symm] at hv
    cases hv
    rw [uses_tuple] at huse ⊢
    rcases huse with ⟨-, hno⟩ | ⟨w, hw, huse⟩
    · cases hno
    · obtain ⟨i, hi, rfl⟩ := List.mem_iff_getElem.1 hw
      rw [List.getElem_zipWith] at huse
      exact .inr ⟨_, List.getElem_mem _, Scope.uses_of_common huse⟩
  | set t ih =>
    obtain ⟨a, rfl, -⟩ := eq_set_of_shape (shape_common? hv).1.symm
    rw [common?_set] at hv
    obtain ⟨w, hw, rfl⟩ := Option.map_eq_some_iff.1 hv
    exact ih (v := w) hw huse

end ExprType

end Olap
