import Olap.Proofs.Tuple.Legal
import Olap.Proofs.Tuple.Rows

/-!
# Holding a source in full

`TupleSource.collect` adds the tuples of a source to a list, one after the other. That succeeds if and
only if the limit allows all of them and each has the columns of the source
(`TupleSource.exists_collect_iff`), and then the list holds the tuples of the source. A legal list is
collected to itself (`TupleSource.collect_list`), and if a join of sets can be held, so can its right
side, unless the left side is empty (`TupleSource.Solid.holdable_right`).
-/

set_option autoImplicit false

namespace Olap

namespace TupleList

variable {limit : Nat} {l l' m : TupleList} {rs : List Row}

/-! ## Lists from their tuples -/

/-- A legal list is determined by its tuples. -/
theorem Legal.eq (hl : l.Legal limit) (hm : m.Legal limit) (harity : l.arity = m.arity)
    (hrows : l.rows = m.rows) : l = m := by
  have hmembers : l.members = m.members := by
    apply Array.ext'
    rw [← flatten_rows hl.whole, ← flatten_rows hm.whole, hrows]
  have hlimit : l.limit = m.limit := hl.limit_eq.trans hm.limit_eq.symm
  cases l
  cases m
  cases harity
  cases hmembers
  cases hlimit
  rfl

/-! ## Adding tuples one after the other -/

theorem Legal.foldlM_add (hl : l.Legal limit) (h : rs.foldlM TupleList.add l = .ok l') :
    l'.Legal limit ∧ l'.arity = l.arity ∧ l'.rows = l.rows ++ rs := by
  induction rs generalizing l with
  | nil =>
    cases h
    exact ⟨hl, rfl, (List.append_nil _).symm⟩
  | cons r rs ih =>
    rw [List.foldlM_cons] at h
    obtain ⟨k, hadd, h⟩ := bind_eq_ok.1 h
    obtain ⟨hk, harity, hrows⟩ := hl.add hadd
    obtain ⟨hl', harity', hrows'⟩ := ih hk h
    refine ⟨hl', harity'.trans harity, ?_⟩
    rw [hrows', hrows, List.append_assoc, List.singleton_append]

/-- Tuples can be added if they have the columns of the list and the limit allows so many more. -/
theorem exists_foldlM_add_iff (hl : l.Legal limit) : (∃ l', rs.foldlM TupleList.add l = .ok l') ↔
    (∀ r ∈ rs, r.length = l.arity) ∧ (0 < limit → l.size + rs.length ≤ limit) := by
  induction rs generalizing l with
  | nil => exact ⟨fun _ => ⟨List.forall_mem_nil _, hl.size_le⟩, fun _ => ⟨l, rfl⟩⟩
  | cons r rs ih =>
    rw [List.foldlM_cons, List.forall_mem_cons, List.length_cons]
    have hone := exists_add_iff (l := l) (r := r)
    rw [hl.limit_eq] at hone
    rcases hadd : l.add r with e | k
    · -- already the first tuple is refused
      refine ⟨nofun, fun ⟨⟨hr, _⟩, hsize⟩ => ?_⟩
      have hroom (hpos : 0 < limit) : l.size < limit := by
        have := hsize hpos
        omega
      obtain ⟨k, hk⟩ := hone.2 ⟨hr, hroom⟩
      rw [hadd] at hk
      cases hk
    · obtain ⟨hk, harity, hrows⟩ := hl.add hadd
      obtain ⟨hr, -⟩ := hone.1 ⟨k, hadd⟩
      have hcount : k.size = l.size + 1 := by
        rw [← length_rows, hrows, List.length_append, length_rows, List.length_singleton]
      have hrest := ih hk
      rw [harity, hcount] at hrest
      refine hrest.trans ⟨fun ⟨hrs, hsize⟩ => ⟨⟨hr, hrs⟩, fun hpos => ?_⟩,
        fun ⟨⟨_, hrs⟩, hsize⟩ => ⟨hrs, fun hpos => ?_⟩⟩
      · have := hsize hpos
        omega
      · have := hsize hpos
        omega

/-- A list that started out empty holds the tuples that have been added. -/
theorem foldlM_add_empty {arity : Nat} (h : rs.foldlM TupleList.add (.empty arity limit) = .ok l) :
    l.Legal limit ∧ l.arity = max arity 1 ∧ l.rows = rs := by
  obtain ⟨hl, harity, hrows⟩ := (legal_empty arity limit).foldlM_add h
  rw [rows_empty, List.nil_append] at hrows
  exact ⟨hl, harity, hrows⟩

theorem exists_foldlM_add_empty_iff {arity : Nat} :
    (∃ l, rs.foldlM TupleList.add (.empty arity limit) = .ok l) ↔
      (∀ r ∈ rs, r.length = max arity 1) ∧ (0 < limit → rs.length ≤ limit) := by
  refine (exists_foldlM_add_iff (legal_empty arity limit)).trans ?_
  rw [size_empty, Nat.zero_add]
  rfl

/-! ## Counting the rounds -/

/-- Adds a tuple to a list and counts the round. -/
def addCounting : Nat × TupleList → Row → Except CalcError (Nat × TupleList)
  | (round, l), r => do return (round + 1, ← l.add r)

theorem foldlM_addCounting (rs : List Row) (round : Nat) (l : TupleList) :
    Prod.snd <$> rs.foldlM addCounting (round, l) = rs.foldlM TupleList.add l := by
  induction rs generalizing round l with
  | nil => rfl
  | cons r rs ih =>
    rw [List.foldlM_cons, List.foldlM_cons]
    rcases hadd : l.add r with e | l'
    · have hcounting : addCounting (round, l) r = .error e := by
        rw [addCounting, hadd]
        rfl
      rw [hcounting]
      rfl
    · have hcounting : addCounting (round, l) r = .ok (round + 1, l') := by
        rw [addCounting, hadd]
        rfl
      rw [hcounting]
      exact ih (round + 1) l'

theorem foldlM_addCounting_flatMap {α : Type} (f : α → List Row) (l : List α)
    (joined : Nat × TupleList) :
    (l.flatMap f).foldlM addCounting joined =
      l.foldlM (fun joined a => (f a).foldlM addCounting joined) joined := by
  induction l generalizing joined with
  | nil => rfl
  | cons a l ih =>
    rw [List.flatMap_cons, List.foldlM_append, List.foldlM_cons]
    exact bind_congr ih

end TupleList

namespace TupleSource

variable {limit : Nat} {s t : TupleSource} {l : TupleList}

/-- Adds all tuples of a source to an empty list. -/
def collect (limit : Nat) (s : TupleSource) : Except CalcError TupleList :=
  s.rows.foldlM TupleList.add (.empty s.arity limit)

/-- The source can be held in full: the limit allows all its tuples, and they have its columns. -/
def Holdable (limit : Nat) (s : TupleSource) : Prop :=
  (∀ r ∈ s.rows, r.length = max s.arity 1) ∧ (0 < limit → s.size ≤ limit)

theorem collect_ok (h : s.collect limit = .ok l) :
    l.Legal limit ∧ l.arity = max s.arity 1 ∧ l.rows = s.rows := TupleList.foldlM_add_empty h

theorem exists_collect_iff : (∃ l, s.collect limit = .ok l) ↔ s.Holdable limit := by
  refine TupleList.exists_foldlM_add_empty_iff.trans ?_
  rw [length_rows]
  rfl

/-- A legal list is collected to itself. -/
theorem collect_list (hl : l.Legal limit) : (list l).collect limit = .ok l := by
  have hholdable : (list l).Holdable limit := by
    refine ⟨fun r hr => ?_, fun hpos => ?_⟩
    · rw [TupleList.length_of_mem_rows hr]
      exact (Nat.max_eq_left l.arity_pos).symm
    · exact hl.size_le hpos
  obtain ⟨m, hm⟩ := exists_collect_iff.2 hholdable
  obtain ⟨hlegal, harity, hrows⟩ := collect_ok hm
  rw [hm, hl.eq hlegal ?_ hrows.symm]
  rw [harity]
  exact (Nat.max_eq_left l.arity_pos).symm

/-! ## Joins -/

/-- The tuples of a solid source have its columns, as long as these can be counted. -/
theorem Solid.length_eq (hs : s.Solid limit) {r : Row} (hr : r ∈ s.rows)
    (hlen : r.length < UInt64.size) : r.length = s.arity ∧ 0 < s.arity := by
  induction s generalizing r with
  | list l => exact ⟨TupleList.length_of_mem_rows hr, l.arity_pos⟩
  | cross s t ihs iht =>
    obtain ⟨p, hp, hr⟩ := List.mem_flatMap.1 hr
    obtain ⟨q, hq, rfl⟩ := List.mem_map.1 hr
    rw [List.length_append] at hlen ⊢
    obtain ⟨hleft, hpos⟩ := ihs hs.1 hp (by omega)
    obtain ⟨hright, -⟩ := iht hs.2 hq (by omega)
    have harity : (cross s t).arity = s.arity + t.arity :=
      TupleList.joinedArity_eq_add (by omega)
    omega
  | slice s c => exact hs.elim

/-- The tuples of both sides, side by side, have as many columns as can be counted, and so does the
right side alone; and the limit that allows all pairs allows the tuples of the right side. -/
theorem Solid.holdable_right (ht : t.Solid limit) (h : (cross s t).Holdable limit)
    (hne : s.rows ≠ []) : t.Holdable limit := by
  obtain ⟨p, hp⟩ := List.exists_mem_of_ne_nil _ hne
  obtain ⟨hcolumns, hsize⟩ := h
  refine ⟨fun q hq => ?_, fun hpos => ?_⟩
  · have hpair : p ++ q ∈ (cross s t).rows :=
      List.mem_flatMap.2 ⟨p, hp, List.mem_map.2 ⟨q, hq, rfl⟩⟩
    have hlen := hcolumns _ hpair
    have harity : (cross s t).arity < UInt64.size := Nat.mod_lt _ (by decide)
    have hword : 1 < UInt64.size := by decide
    rw [List.length_append] at hlen
    obtain ⟨hq, hpos⟩ := ht.length_eq hq (by omega)
    omega
  · have hcount : 1 ≤ s.size := by
      rw [← length_rows]
      exact List.length_pos_iff.2 hne
    calc t.size = 1 * t.size := (Nat.one_mul _).symm
      _ ≤ s.size * t.size := Nat.mul_le_mul_right _ hcount
      _ ≤ limit := hsize hpos

theorem holdable_of_nil (h : s.rows = []) : s.Holdable limit := by
  have hsize : s.size = 0 := by rw [← length_rows, h, List.length_nil]
  rw [Holdable, h, hsize]
  exact ⟨List.forall_mem_nil _, fun _ => Nat.zero_le limit⟩

/-- Holds the right side in full, and then all pairs. -/
def collectPairs (limit : Nat) (s t : TupleSource) : Except CalcError TupleList := do
  let _ ← t.collect limit
  (cross s t).collect limit

/-- Holding the right side as well makes a difference only if nothing on the left asks for it. -/
theorem collectPairs_iff (ht : t.Solid limit) :
    s.collectPairs limit t = .ok l ↔
      (cross s t).collect limit = .ok l ∧ ¬ (s.rows = [] ∧ ¬ t.Holdable limit) := by
  rw [collectPairs]
  rcases hright : t.collect limit with e | m
  · have hheld : ¬ t.Holdable limit := by
      rw [← exists_collect_iff, hright]
      rintro ⟨_, h⟩
      cases h
    refine ⟨nofun, fun ⟨hl, hnot⟩ => ?_⟩
    by_cases hempty : s.rows = []
    · exact absurd ⟨hempty, hheld⟩ hnot
    · exact absurd (ht.holdable_right (exists_collect_iff.1 ⟨l, hl⟩) hempty) hheld
  · have hheld : t.Holdable limit := exists_collect_iff.1 ⟨m, hright⟩
    exact ⟨fun hl => ⟨hl, fun h => h.2 hheld⟩, fun h => h.1⟩

end TupleSource

end Olap
