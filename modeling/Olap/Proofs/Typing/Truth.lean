import Olap.Proofs.Catalog.Named
import Olap.Value

/-!
# Types that tell the truth

`Value.Belongs c t v`: the value `v` is of the kind that the type `t` names, and its members belong,
column by column, to the hierarchies and dimensions that the scopes of the type name. What belongs to
a type belongs to every type that it has in common with others
(`ExprType.holds_common?_left`, `ExprType.holds_common?_right`).
-/

set_option autoImplicit false

namespace Olap

variable {c : Cube}

namespace Scope

/-- The scope names nothing but this dimension and this hierarchy. -/
structure Tells (s : Scope) (dimension hierarchy : String) : Prop where
  dimension : ∀ n, s.dimension = some n → n = dimension
  hierarchy : ∀ n, s.hierarchy = some n → n = hierarchy

/-- The member is one of the hierarchy, and so of the dimension, that the scope names. -/
def Holds (c : Cube) (s : Scope) (m : Member) : Prop :=
  ∃ h ∈ c.hierarchies, m ∈ h.members ∧ s.Tells h.dimension h.uniqueName

variable {s t : Scope} {d h : String}

theorem tells_ofHierarchy (k : Hierarchy) : (ofHierarchy k).Tells k.dimension k.uniqueName := by
  constructor <;> rintro _ ⟨⟩ <;> rfl

theorem tells_ofLevel (l : Level) : (ofLevel l).Tells (dimensionName l.hierarchy) l.hierarchy := by
  constructor <;> rintro _ ⟨⟩ <;> rfl

/-- A dimension of a named cube says of its only hierarchy what that says of itself. -/
theorem tells_ofDimension (hc : c.Named) {e : Dimension} (he : e ∈ c.dimensions) {k : Hierarchy}
    (hk : e.singleHierarchy? = some k) : (ofDimension e).Tells k.dimension k.uniqueName := by
  constructor
  · rintro _ ⟨⟩
    exact (hc.dimension_name e he k (Dimension.mem_of_singleHierarchy? hk)).symm
  · intro n hn
    rw [ofDimension, hk] at hn
    cases hn
    rfl

theorem Tells.common_left (hs : s.Tells d h) (t : Scope) : (s.common t).Tells d h := by
  constructor <;> intro n hn <;> unfold Scope.common at hn <;> dsimp only at hn <;> split at hn
  · exact hs.dimension n hn
  · cases hn
  · exact hs.hierarchy n hn
  · cases hn

theorem common_comm (s t : Scope) : s.common t = t.common s := by
  unfold Scope.common
  congr 1 <;> split <;> split <;> simp_all

variable {m : Member}

theorem Holds.mono (hm : s.Holds c m) (h : ∀ d h, s.Tells d h → t.Tells d h) : t.Holds c m := by
  obtain ⟨k, hk, hmem, htells⟩ := hm
  exact ⟨k, hk, hmem, h _ _ htells⟩

theorem Holds.mem (hm : s.Holds c m) : ∃ h ∈ c.hierarchies, m ∈ h.members := by
  obtain ⟨h, hh, hmem, -⟩ := hm
  exact ⟨h, hh, hmem⟩

/-- A member of a named cube is of the scope that is read off its level. -/
theorem holds_ofMember (hc : c.Named) {k : Hierarchy} (hk : k ∈ c.hierarchies) (hm : m ∈ k.members) :
    (ofMember m).Holds c m := by
  refine ⟨k, hk, hm, ?_⟩
  have hname : m.level.hierarchy = k.uniqueName := hc.hierarchy_name k hk m hm
  have htells := tells_ofLevel m.level
  rwa [hname, hc.readable k hk] at htells

end Scope

/-- Each member of the tuple is of the scope of its column. -/
def Row.Holds (c : Cube) (ss : List Scope) (r : Row) : Prop := List.Forall₂ (Scope.Holds c) ss r

namespace ExprType

theorem length_scopes (t : ExprType) : t.scopes.length = t.arity := by
  induction t with
  | set t ih => exact ih
  | _ => rfl

/-! ## Common types -/

theorem holds_zipWith_left {ss ts : List Scope} {r : Row} (hlen : ss.length = ts.length)
    (hr : Row.Holds c ss r) : Row.Holds c (List.zipWith Scope.common ss ts) r := by
  induction hr generalizing ts with
  | nil => exact .nil
  | cons hm _ ih =>
    cases ts with
    | nil => cases hlen
    | cons t ts =>
      exact .cons (hm.mono fun _ _ h => h.common_left t) (ih (Nat.succ.inj hlen))

theorem zipWith_common_comm (ss ts : List Scope) :
    List.zipWith Scope.common ss ts = List.zipWith Scope.common ts ss := by
  rw [List.zipWith_comm]
  congr 1
  funext s t
  exact Scope.common_comm t s

theorem scopes_of_isScalar {t : ExprType} (h : t.isScalar = true) : t.scopes = [] := by
  cases t <;> first | rfl | cases h

/-- What two types have in common says of each column what both types say. -/
theorem scopes_common? {t u v : ExprType} (h : t.common? u = some v) :
    v.scopes = List.zipWith Scope.common t.scopes u.scopes ∧ t.scopes.length = u.scopes.length := by
  fun_induction common? t u generalizing v with
  | case1 u =>
    cases h
    refine ⟨?_, rfl⟩
    rw [List.zipWith_self]
    exact (List.map_id'' (fun s => by simp [Scope.common]) _).symm
  | case2 t u _ hnull =>
    cases h
    rw [hnull.1, scopes_of_isScalar hnull.2]
    exact ⟨rfl, rfl⟩
  | case3 t u _ _ hnull =>
    cases h
    rw [hnull.1, scopes_of_isScalar hnull.2]
    exact ⟨rfl, rfl⟩
  | case4 | case5 | case6 =>
    cases h
    exact ⟨rfl, rfl⟩
  | case7 ss ts hlen =>
    cases h
    exact ⟨rfl, hlen⟩
  | case8 => cases h
  | case9 a b _ _ _ ih =>
    obtain ⟨w, hw, rfl⟩ := Option.map_eq_some_iff.1 h
    exact ih (v := w) hw
  | case10 t u _ _ _ _ _ hscalar =>
    cases h
    rw [scopes_of_isScalar hscalar.1, scopes_of_isScalar hscalar.2]
    exact ⟨rfl, rfl⟩
  | case11 => cases h

section
variable {t u v : ExprType} (h : t.common? u = some v) {r : Row}
include h

theorem holds_common?_left (hr : Row.Holds c t.scopes r) : Row.Holds c v.scopes r := by
  obtain ⟨hscopes, hlen⟩ := scopes_common? h
  rw [hscopes]
  exact holds_zipWith_left hlen hr

theorem holds_common?_right (hr : Row.Holds c u.scopes r) : Row.Holds c v.scopes r := by
  obtain ⟨hscopes, hlen⟩ := scopes_common? h
  rw [hscopes, zipWith_common_comm]
  exact holds_zipWith_left hlen.symm hr

theorem length_scopes_common? :
    v.scopes.length = t.scopes.length ∧ v.scopes.length = u.scopes.length := by
  obtain ⟨hscopes, hlen⟩ := scopes_common? h
  rw [hscopes, List.length_zipWith, hlen, Nat.min_self]
  exact ⟨rfl, rfl⟩

end

end ExprType

namespace Value

/-- The value is of the kind that the type names, and its members are where the type says (module
doc). -/
def Belongs (c : Cube) : ExprType → Value → Prop
  | .member s, v => v = null ∨ ∃ m, v = member m ∧ s.Holds c m
  | .tuple ss, v => ∃ r, v = tuple r ∧ Row.Holds c ss r
  | .set t, v => ∃ source, v.toSource = .ok source ∧ source.arity = t.arity ∧
      ∀ r ∈ source.rows, Row.Holds c t.scopes r
  | .level s, v => ∃ l, v = level l ∧ s.Tells (Scope.dimensionName l.hierarchy) l.hierarchy
  | .hierarchy s, v => ∃ h ∈ c.hierarchies, v = hierarchy h ∧ s.Tells h.dimension h.uniqueName
  | .dimension s, v => ∃ d ∈ c.dimensions, v = dimension d ∧
      ∀ h, d.singleHierarchy? = some h → s.Tells h.dimension h.uniqueName
  | _, _ => True

end Value

end Olap
