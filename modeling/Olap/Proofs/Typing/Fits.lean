import Olap.Proofs.Catalog.Regular
import Olap.Typing.Types
import Olap.Value

/-!
# Values that belong to their types

`Value.Fits c t v`: the members of the value `v` belong to what the type `t` says about their origin,
column by column. A type that definitely lies on a hierarchy is then told the truth about: every tuple
of the value has a member of that hierarchy (`ExprType.Admits.exists_mem`), provided that the
hierarchies of the cube can be told apart by their names.
-/

set_option autoImplicit false

namespace Olap

/-- The unique names of the hierarchies are pairwise distinct. -/
def Cube.HierarchiesDistinct (c : Cube) : Prop := (c.hierarchies.map (·.uniqueName)).Nodup

/-- The member belongs to a hierarchy that the scope does not exclude. -/
def Scope.Admits (c : Cube) (s : Scope) (m : Member) : Prop :=
  ∃ h ∈ c.hierarchies, m ∈ h.members ∧ s.uses h false = true

namespace ExprType

/-- The scopes that a type names, one for each column. -/
def named : ExprType → List Scope
  | member s | level s | hierarchy s | dimension s => [s]
  | tuple scopes => scopes
  | set t => t.named
  | _ => []

/-- A type lies definitely on a hierarchy if a scope that it names does. -/
theorem uses_eq_any_named (t : ExprType) (h : Hierarchy) :
    t.uses h true = t.named.any (·.uses h true) := by
  induction t with
  | tuple scopes => cases scopes <;> simp [uses, named]
  | set t ih => rw [uses, named, ih]
  | _ => simp [uses, named]

/-- The members of a tuple belong to the scopes that the type names; a type that names none admits
every tuple. -/
def Admits (c : Cube) (t : ExprType) (r : Row) : Prop :=
  t.named = [] ∨ List.Forall₂ (Scope.Admits c) t.named r

end ExprType

namespace Value

def rows : Value → List Row
  | member m => [[m]]
  | tuple r => [r]
  | list l => l.rows
  | iterable s => s.rows
  | _ => []

/-- The members of the value belong to what the type says (module doc). -/
def Fits (c : Cube) (t : ExprType) (v : Value) : Prop := ∀ r ∈ v.rows, t.Admits c r

/-! ## Conversions -/

variable {v : Value}

theorem rows_toMember {m : Member} (h : v.toMember = .ok m) : v.rows = [[m]] := by
  cases v with
  | member n =>
    cases h
    rfl
  | tuple r =>
    rcases r with _ | ⟨n, _ | ⟨k, r⟩⟩
    · cases h
    · cases h
      rfl
    · cases h
  | _ => cases h

theorem rows_toTuple {r : Row} (h : v.toTuple = .ok r) : v.rows = [r] := by
  cases v with
  | member n =>
    cases h
    rfl
  | tuple q =>
    cases h
    rfl
  | _ => cases h

theorem rows_toList {l : TupleList} (h : v.toList = .ok l) : v.rows = l.rows := by
  cases v with
  | list k =>
    cases h
    rfl
  | _ => cases h

theorem rows_toSource {s : TupleSource} (h : v.toSource = .ok s) : v.rows = s.rows := by
  cases v with
  | list k =>
    cases h
    rfl
  | iterable k =>
    cases h
    rfl
  | _ => cases h

end Value

variable {c : Cube}

theorem Cube.HierarchiesDistinct.eq (hd : c.HierarchiesDistinct) {h k : Hierarchy}
    (hh : h ∈ c.hierarchies) (hk : k ∈ c.hierarchies) (heq : h.uniqueName = k.uniqueName) : h = k :=
  List.inj_on_of_nodup_map hd hh hk heq

/-- A member belongs to the hierarchy that its scope definitely lies on. -/
theorem Scope.Admits.mem (hd : c.HierarchiesDistinct) {s : Scope} {m : Member}
    (hm : s.Admits c m) {h : Hierarchy} (hh : h ∈ c.hierarchies) (hs : s.uses h true = true) :
    m ∈ h.members := by
  obtain ⟨k, hk, hmk, hsk⟩ := hm
  obtain ⟨dimension, _ | name⟩ := s
  · cases dimension <;> cases hs
  · have hname : name = h.uniqueName := eq_of_beq hs
    have hname' : name = k.uniqueName := eq_of_beq hsk
    rwa [hd.eq hh hk (hname.symm.trans hname')]

/-- A tuple has a member of every hierarchy that its type definitely lies on. -/
theorem ExprType.Admits.exists_mem (hd : c.HierarchiesDistinct) {t : ExprType} {r : Row}
    (hr : t.Admits c r) {h : Hierarchy} (hh : h ∈ c.hierarchies) (ht : t.uses h true = true) :
    ∃ m ∈ r, m ∈ h.members := by
  rw [uses_eq_any_named, List.any_eq_true] at ht
  obtain ⟨s, hs, hsh⟩ := ht
  rcases hr with hnone | hall
  · rw [hnone] at hs
    cases hs
  · obtain ⟨i, hi, rfl⟩ := List.getElem_of_mem hs
    have hlen : i < r.length := hall.length_eq ▸ hi
    exact ⟨r[i], List.getElem_mem hlen, (hall.get hi hlen).mem hd hh hsh⟩

end Olap
