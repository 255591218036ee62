import Olap.Proofs.Tuple.Buffer
import Olap.Tuple.Source

/-!
# Lists within a limit

The lists of tuples that evaluations make are legal (`TupleList.Legal`): they hold whole tuples, they
carry the limit that is configured, and they keep to it. The operations on lists lead from legal lists
to legal lists, and say which tuples these hold. None of them complains about the number of columns if
every tuple that is added has that of the list. Legal lists and their joins are the solid sources
(`TupleSource.Solid`).
-/

set_option autoImplicit false

namespace Olap

/-- Whether the error says that a tuple has not the number of columns of the list that it is added
to. -/
def CalcError.isMismatch : CalcError → Bool
  | arityMismatch .. => true
  | _ => false

namespace TupleList

variable {limit : Nat} {l l' m : TupleList} {r : Row} {e : CalcError}

/-- The list holds whole tuples, no more than the limit allows (module doc). -/
structure Legal (limit : Nat) (l : TupleList) : Prop where
  whole : l.Whole
  limit_eq : l.limit = limit
  size_le : 0 < limit → l.size ≤ limit

@[simp] theorem size_empty (arity limit : Nat) : (empty arity limit).size = 0 := by
  simp [size, empty]

theorem legal_empty (arity limit : Nat) : (empty arity limit).Legal limit :=
  ⟨whole_empty arity limit, rfl, fun _ => by rw [size_empty]; exact Nat.zero_le limit⟩

theorem end_le_size_members {i : Nat} (hi : i < l.size) :
    i * l.arity + l.arity ≤ l.members.size := by
  rw [← Nat.add_one_mul]
  exact Nat.le_trans (Nat.mul_le_mul_right _ hi) (Nat.div_mul_le_self _ _)

theorem length_row {i : Nat} (hi : i < l.size) : (l.row i).length = l.arity := by
  have hend := end_le_size_members hi
  rw [row_eq, List.length_take, List.length_drop, Array.length_toList]
  omega

theorem length_of_mem_rows (hr : r ∈ l.rows) : r.length = l.arity := by
  obtain ⟨i, hi, rfl⟩ := List.mem_map.1 hr
  exact length_row (List.mem_range.1 hi)

theorem row_mem_rows {i : Nat} (hi : i < l.size) : l.row i ∈ l.rows :=
  List.mem_map.2 ⟨i, List.mem_range.2 hi, rfl⟩

/-- The members of a list of one column are its tuples. -/
theorem rows_of_arity_one (h : l.arity = 1) : l.rows = l.members.toList.map fun m => [m] := by
  have hsize : l.size = l.members.toList.length := by
    rw [size, h, Nat.div_one, Array.length_toList]
  refine List.ext_getElem (by simp [hsize]) fun i hi hi' => ?_
  rw [List.length_map] at hi'
  simp only [rows, List.getElem_map, List.getElem_range, row_eq, h, Nat.mul_one]
  rw [List.drop_eq_getElem_cons hi', List.take_succ_cons, List.take_zero]

/-! ## Limits -/

theorem checkLimit_error {attempted limit : Nat} (h : checkLimit attempted limit = .error e) :
    e.isMismatch = false := by
  unfold checkLimit at h
  split at h <;> cases h
  rfl

theorem checkLimit_ok {attempted limit : Nat} :
    checkLimit attempted limit = .ok () ↔ (0 < limit → attempted ≤ limit) := by
  unfold checkLimit
  split
  · rename_i h
    exact ⟨nofun, fun hle => absurd (hle h.1) (Nat.not_le.2 h.2)⟩
  · rename_i h
    exact ⟨fun _ hpos => Nat.not_lt.1 fun hlt => h ⟨hpos, hlt⟩, fun _ => rfl⟩

/-! ## One tuple more -/

/-- A tuple is added if it has the columns of the list and the limit allows one tuple more. -/
theorem exists_add_iff : (∃ l', l.add r = .ok l') ↔
    r.length = l.arity ∧ (0 < l.limit → l.size < l.limit) := by
  unfold add
  split
  · rename_i hne
    exact iff_of_false (by rintro ⟨l', ⟨⟩⟩) fun h => absurd h.1 hne
  · rename_i hlen
    rcases hcheck : checkLimit (l.size + 1) l.limit with err | _
    · refine iff_of_false (by rintro ⟨l', ⟨⟩⟩) fun h => ?_
      rw [checkLimit_ok.2 h.2] at hcheck
      cases hcheck
    · exact ⟨fun _ => ⟨Decidable.not_not.1 hlen, checkLimit_ok.1 hcheck⟩, fun _ => ⟨_, rfl⟩⟩

theorem add_eq_error (hr : r.length = l.arity) (hpos : 0 < l.limit)
    (hsize : l.limit ≤ l.size) :
    l.add r = .error (.resourceLimitExceeded (l.size + 1) l.limit) := by
  unfold add
  rw [if_neg (Decidable.not_not.2 hr), checkLimit, if_pos ⟨hpos, Nat.lt_succ_of_le hsize⟩]
  rfl

theorem add_eq_mismatch (hr : r.length ≠ l.arity) :
    l.add r = .error (.arityMismatch l.arity r.length) := by
  unfold add
  rw [if_pos hr]
  rfl

theorem Legal.add (hl : l.Legal limit) (h : l.add r = .ok l') :
    l'.Legal limit ∧ l'.arity = l.arity ∧ l'.rows = l.rows ++ [r] := by
  obtain ⟨-, hsize⟩ := exists_add_iff.1 ⟨l', h⟩
  obtain ⟨hwhole, hrows⟩ := rows_add hl.whole h
  obtain ⟨-, rfl⟩ := add_eq_ok h
  refine ⟨⟨hwhole, hl.limit_eq, fun hpos => ?_⟩, rfl, hrows⟩
  rw [← length_rows, hrows, List.length_append, length_rows, List.length_singleton]
  have := hl.limit_eq
  exact this ▸ hsize (this.symm ▸ hpos)

theorem add_error (h : l.add r = .error e) (hr : r.length = l.arity) : e.isMismatch = false := by
  unfold TupleList.add at h
  rw [if_neg (Decidable.not_not.2 hr)] at h
  rcases bind_eq_error.1 h with hcheck | ⟨⟨⟩, -, h⟩
  · exact checkLimit_error hcheck
  · cases h

/-! ## Many tuples more -/

theorem Legal.addAll (hl : l.Legal limit) (rs : List Row) :
    (l.addAll rs).1.Legal limit ∧ (l.addAll rs).1.arity = l.arity ∧
      ((l.addAll rs).2 = none → (l.addAll rs).1.rows = l.rows ++ rs) := by
  induction rs generalizing l with
  | nil => exact ⟨hl, rfl, fun _ => (List.append_nil _).symm⟩
  | cons r rs ih =>
    rw [TupleList.addAll]
    rcases hadd : l.add r with err | l'
    · exact ⟨hl, rfl, nofun⟩
    · obtain ⟨hl', harity, hrows⟩ := hl.add hadd
      obtain ⟨hall, harity', hrows'⟩ := ih hl'
      refine ⟨hall, harity'.trans harity, fun hnone => ?_⟩
      rw [hrows' hnone, hrows, List.append_assoc, List.singleton_append]

theorem addAll_error {rs : List Row} (h : (l.addAll rs).2 = some e)
    (hrs : ∀ r ∈ rs, r.length = l.arity) : e.isMismatch = false := by
  induction rs generalizing l with
  | nil => cases h
  | cons r rs ih =>
    obtain ⟨hr, hrs⟩ := List.forall_mem_cons.1 hrs
    rw [addAll] at h
    rcases hadd : l.add r with err | l'
    · rw [hadd] at h
      cases h
      exact add_error hadd hr
    · rw [hadd] at h
      obtain ⟨-, rfl⟩ := add_eq_ok hadd
      exact ih h hrs

theorem Legal.append (hl : l.Legal limit) (h : l.append m = .ok l') :
    l'.Legal limit ∧ l'.arity = l.arity ∧ l'.rows = l.rows ++ m.rows := by
  obtain ⟨hall, harity, hrows⟩ := hl.addAll m.rows
  unfold TupleList.append at h
  split at h
  · rename_i hadd
    cases h
    rw [hadd] at hall harity hrows
    exact ⟨hall, harity, hrows rfl⟩
  · cases h

theorem append_error (h : l.append m = .error e) (hm : m.arity = l.arity) : e.isMismatch = false := by
  unfold append at h
  split at h
  · cases h
  · rename_i hadd
    cases h
    have hsnd : (l.addAll m.rows).2 = some e := by rw [hadd]
    exact addAll_error hsnd fun r hr => (length_of_mem_rows hr).trans hm

/-! ## Lists of members -/

theorem ofMembers_eq_ok {ms : List Member} (h : 0 < limit → ms.length ≤ limit) :
    ofMembers ms limit = .ok ⟨1, limit, ms.toArray, by decide⟩ := by
  rw [ofMembers, checkLimit_ok.2 h]
  rfl

theorem ofMembers_eq_error {ms : List Member} (hpos : 0 < limit) (hlt : limit < ms.length) :
    ofMembers ms limit = .error (.resourceLimitExceeded ms.length limit) := by
  rw [ofMembers, checkLimit, if_pos ⟨hpos, hlt⟩]
  rfl

theorem ofMembers_ok {ms : List Member} (h : ofMembers ms limit = .ok l) :
    l.Legal limit ∧ l.arity = 1 ∧ l.rows = ms.map fun m => [m] := by
  obtain ⟨⟨⟩, hcheck, h⟩ := bind_eq_ok.1 h
  cases h
  refine ⟨⟨?_, rfl, fun hpos => ?_⟩, rfl, ?_⟩
  · simp [Whole, size]
  · simpa [size] using checkLimit_ok.1 hcheck hpos
  · exact rows_of_arity_one rfl

theorem ofMembers_error {ms : List Member} (h : ofMembers ms limit = .error e) :
    e.isMismatch = false := by
  rcases bind_eq_error.1 h with hcheck | ⟨⟨⟩, -, h⟩
  · exact checkLimit_error hcheck
  · cases h

/-! ## Parts of a list -/

/-- A legal list stays legal when its buffer is cut to fewer of its tuples. -/
theorem Legal.of_flatten (hl : l.Legal limit) (l' : TupleList) (harity : l'.arity = l.arity)
    (hlimit : l'.limit = l.limit) {rs : List Row} (hrs : rs.Sublist l.rows)
    (h : l'.members.toList = rs.flatten) : l'.Legal limit ∧ l'.rows = rs := by
  have hlength : ∀ r ∈ rs, r.length = l'.arity := fun r hr =>
    (length_of_mem_rows (hrs.subset hr)).trans harity.symm
  obtain ⟨hwhole, hrows⟩ := whole_of_flatten hlength h
  refine ⟨⟨hwhole, hlimit.trans hl.limit_eq, fun hpos => ?_⟩, hrows⟩
  have hle := hrs.length_le
  rw [← hrows, length_rows, length_rows] at hle
  exact Nat.le_trans hle (hl.size_le hpos)

/-- The tuples of a list from one place up to another, in order. -/
theorem Legal.subList (hl : l.Legal limit) (start stop : Nat) :
    (l.subList start stop).Legal limit ∧
      (l.subList start stop).rows = (l.rows.take stop).drop start := by
  refine hl.of_flatten (l.subList start stop) rfl rfl ((List.drop_sublist _ _).trans (List.take_sublist _ _)) ?_
  have hlength : ∀ r ∈ l.rows, r.length = l.arity := fun _ => length_of_mem_rows
  have hlength' : ∀ r ∈ l.rows.take (min stop l.size), r.length = l.arity := fun r hr =>
    hlength r (List.mem_of_mem_take hr)
  have hstop : l.rows.take stop = l.rows.take (min stop l.size) := by
    rw [List.take_eq_take_iff, length_rows]
    omega
  have hstart : (l.rows.take (min stop l.size)).drop start =
      (l.rows.take (min stop l.size)).drop (min start (min stop l.size)) := by
    rw [List.drop_eq_drop_iff, List.length_take, length_rows]
    omega
  rw [hstop, hstart, ← drop_flatten hlength', ← take_flatten hlength, flatten_rows hl.whole]
  simp only [TupleList.subList, Array.toList_extract, List.extract_eq_take_drop]
  rw [List.drop_take]

/-- Cutting the list to `count` tuples does not go wrong: the length that the buffer is cut to fits a
machine word, or is none that would cut it. -/
def CutFits (l : TupleList) (count : Nat) : Prop :=
  count * l.arity < UInt64.size ∨ l.members.size ≤ count * l.arity % UInt64.size

instance (l : TupleList) (count : Nat) : Decidable (l.CutFits count) :=
  inferInstanceAs (Decidable (_ ∨ _))

theorem Legal.truncate (hl : l.Legal limit) {count : Nat} (h : l.CutFits count) :
    (l.truncate count).Legal limit ∧ (l.truncate count).rows = l.rows.take count := by
  refine hl.of_flatten (l.truncate count) rfl rfl (List.take_sublist _ _) ?_
  rw [← take_flatten fun _ => length_of_mem_rows, flatten_rows hl.whole]
  simp only [TupleList.truncate, Array.take_eq_extract, Array.toList_extract,
    List.extract_eq_take_drop, Nat.sub_zero, List.drop_zero]
  rw [List.take_eq_take_iff, Array.length_toList]
  rcases h with h | h
  · rw [Nat.mod_eq_of_lt h]
  · have := Nat.mod_le (count * l.arity) UInt64.size
    omega

/-- Where the length that the buffer is cut to does not fit, too many tuples are lost. -/
theorem Legal.truncate_iff (hl : l.Legal limit) {count : Nat} :
    (l.truncate count).rows = l.rows.take count ↔ l.CutFits count := by
  refine ⟨fun h => Decidable.byContradiction fun hfits => ?_, fun h => (hl.truncate h).2⟩
  obtain ⟨hword, hcut⟩ := not_or.1 hfits
  have hsize := congrArg List.length h
  have hmembers : (l.truncate count).members.size = count * l.arity % UInt64.size := by
    simp only [TupleList.truncate, Array.take_eq_extract, Array.size_extract]
    omega
  rw [List.length_take, length_rows, length_rows] at hsize
  have hless : (l.truncate count).size < l.size := by
    have hlt : (l.truncate count).members.size < l.size * l.arity := by
      have hwhole : l.members.size = l.size * l.arity := hl.whole
      omega
    exact Nat.div_lt_of_lt_mul (Nat.mul_comm l.arity _ ▸ hlt)
  have hfewer : (l.truncate count).size < count := by
    have hlt : (l.truncate count).members.size < count * l.arity := by
      have := Nat.mod_lt (count * l.arity) (show 0 < UInt64.size by decide)
      omega
    exact Nat.div_lt_of_lt_mul (Nat.mul_comm l.arity _ ▸ hlt)
  omega

theorem mem_rows_of_row? {i : Nat} (h : l.row? i = some r) : r ∈ l.rows := by
  unfold row? at h
  split at h
  · rename_i hend
    cases h
    rw [← Nat.add_one_mul] at hend
    exact row_mem_rows ((Nat.le_div_iff_mul_le l.arity_pos).2 hend)
  · cases h

/-- The tuples of a list at given places are tuples of the list. -/
theorem permute_ok {places : List Nat} (h : l.permute places = .ok l') :
    l'.Legal l.limit ∧ l'.arity = l.arity ∧ l'.rows ⊆ l.rows := by
  have hstart : (empty l.arity l.limit).Legal l.limit ∧ (empty l.arity l.limit).arity = l.arity ∧
      (empty l.arity l.limit).rows ⊆ l.rows :=
    ⟨legal_empty _ _, Nat.max_eq_left l.arity_pos, by rw [rows_empty]; exact List.nil_subset _⟩
  unfold permute at h
  generalize empty l.arity l.limit = out at h hstart
  induction places generalizing out with
  | nil =>
    cases h
    exact hstart
  | cons i places ih =>
    rw [List.foldlM_cons] at h
    obtain ⟨out', hadd, h⟩ := bind_eq_ok.1 h
    split at hadd
    · rename_i r hrow
      obtain ⟨hlegal, harity, hsub⟩ := hstart
      obtain ⟨hlegal', harity', hrows'⟩ := hlegal.add hadd
      refine ih out' h ⟨hlegal', harity'.trans harity, ?_⟩
      rw [hrows']
      exact List.append_subset.2 ⟨hsub, List.cons_subset.2 ⟨mem_rows_of_row? hrow, List.nil_subset _⟩⟩
    · cases hadd

theorem permute_error {places : List Nat} (h : l.permute places = .error e) :
    e.isMismatch = false := by
  have hstart : (empty l.arity l.limit).arity = l.arity := Nat.max_eq_left l.arity_pos
  unfold permute at h
  generalize empty l.arity l.limit = out at h hstart
  induction places generalizing out with
  | nil => cases h
  | cons i places ih =>
    rw [List.foldlM_cons] at h
    rcases bind_eq_error.1 h with hadd | ⟨out', hadd, h⟩
    · split at hadd
      · rename_i r hrow
        refine add_error hadd ?_
        rw [length_of_mem_rows (mem_rows_of_row? hrow), hstart]
      · cases hadd
        rfl
    · split at hadd
      · obtain ⟨-, rfl⟩ := add_eq_ok hadd
        exact ih _ h hstart
      · cases hadd

end TupleList

/-- The set is a legal list, or a join of such. -/
def TupleSource.Solid (limit : Nat) : TupleSource → Prop
  | list l => l.Legal limit
  | cross s t => s.Solid limit ∧ t.Solid limit
  | slice .. => False

end Olap
