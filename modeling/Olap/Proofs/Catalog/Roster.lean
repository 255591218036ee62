import Olap.Catalog.Roster
import Olap.Proofs.Catalog.Ledger

/-!
# Rosters and forests

A roster and the draft of a hierarchy that are made by the same additions belong together
(`Roster.Lists`): the nodes of the forest are the entries of the roster, and just below a node stand the
entries with its place as their parent. Both refuse the same additions for the same reasons, and belong
together again after any other (`Roster.agree_start`, `Roster.Lists.add`).
-/

set_option autoImplicit false

namespace Olap

namespace Roster

/-! ## Places -/

section
variable (ms : List RosterEntry) (parent : Option Nat)

/-- The drafts of the members just below a place, or of those at the top. -/
def below : List MemberDraft := (ms.filter (·.parent == parent)).map (·.toMemberDraft)

/-- The places of the entries with a given parent. -/
def placesIn (entries : List (RosterEntry × Nat)) : List Nat :=
  (entries.filter (·.1.parent == parent)).map (·.2)

/-- A place and the draft of the entry that stands there. -/
def StandsAt (i : Nat) (d : MemberDraft) : Prop :=
  ∃ e, ms[i]? = some e ∧ e.toMemberDraft = d ∧ e.parent = parent

theorem below_append (e : RosterEntry) : below (ms ++ [e]) parent =
    below ms parent ++ if e.parent = parent then [e.toMemberDraft] else [] := by
  rw [below, below, List.filter_append, List.map_append]
  congr 1
  by_cases h : e.parent = parent <;> simp [h]

variable {ms parent} in
theorem getElem?_of_mem_placesIn {i : Nat} (hi : i ∈ placesIn parent ms.zipIdx) :
    ∃ e, ms[i]? = some e ∧ e.parent = parent := by
  obtain ⟨x, hx, rfl⟩ := List.mem_map.1 hi
  obtain ⟨hmem, hparent⟩ := List.mem_filter.1 hx
  exact ⟨x.1, List.mem_zipIdx_iff_getElem?.1 hmem, eq_of_beq hparent⟩

theorem standsAt_placesIn :
    List.Forall₂ (StandsAt ms parent) (placesIn parent ms.zipIdx) (below ms parent) := by
  have hbelow : below ms parent =
      (ms.zipIdx.filter (·.1.parent == parent)).map (·.1.toMemberDraft) := by
    have hms : ms = ms.zipIdx.map Prod.fst := by simp
    conv_lhs => rw [below, hms, List.filter_map, List.map_map]
    rfl
  rw [hbelow, placesIn, List.forall₂_map_left_iff, List.forall₂_map_right_iff, List.forall₂_same]
  intro x hx
  obtain ⟨hmem, hparent⟩ := List.mem_filter.1 hx
  exact ⟨x.1, List.mem_zipIdx_iff_getElem?.1 hmem, rfl, eq_of_beq hparent⟩

end

theorem getElem?_concat {α : Type} {l : List α} {a b : α} {i : Nat} :
    (l ++ [a])[i]? = some b ↔ l[i]? = some b ∨ l.length = i ∧ a = b := by
  rcases Nat.lt_trichotomy i l.length with hi | rfl | hi
  · rw [List.getElem?_append_left hi]
    simp [Nat.ne_of_gt hi]
  · simp
  · rw [List.getElem?_eq_none (by simpa using Nat.succ_le_of_lt hi),
      List.getElem?_eq_none (Nat.le_of_lt hi)]
    simp [Nat.ne_of_lt hi]

/-- An entry stands at one place. -/
theorem place_unique {ms : List RosterEntry} (hdistinct : (ms.map (·.uniqueName)).Nodup) {i j : Nat}
    {e f : RosterEntry} (hi : ms[i]? = some e) (hj : ms[j]? = some f)
    (heq : e.uniqueName = f.uniqueName) : i = j := by
  refine (List.getElem?_inj (l := ms.map (·.uniqueName)) ?_ hdistinct).1 ?_
  · rw [List.length_map]
    exact (List.getElem?_eq_some_iff.1 hi).1
  · rw [List.getElem?_map, List.getElem?_map, hi, hj]
    exact congrArg some heq

/-- What the pass over the entries notes: each place with the parent of its entry. -/
theorem foldlM_note (entries : List (RosterEntry × Nat)) :
    ∀ (found : List (List Nat)) (tops : List Nat),
      (∀ x ∈ entries, ∀ p, x.1.parent = some p → p < found.length) →
      ∃ children, entries.foldlM note (found, tops) =
          some (children, tops ++ placesIn none entries) ∧
        ∀ p : Nat, children[p]? = found[p]?.map (· ++ placesIn (some p) entries) := by
  induction entries with
  | nil => exact fun found tops _ => ⟨found, by simp [placesIn], fun p => by simp [placesIn]⟩
  | cons x entries ih =>
    intro found tops hin
    obtain ⟨hx, hin⟩ := List.forall_mem_cons.1 hin
    rcases hparent : x.1.parent with _ | q
    · obtain ⟨children, hrun, hchildren⟩ := ih found (tops ++ [x.2]) hin
      refine ⟨children, ?_, fun p => ?_⟩
      · rw [List.foldlM_cons, note, hparent]
        simpa [placesIn, hparent] using hrun
      · rw [hchildren]
        simp [placesIn, hparent]
    · obtain ⟨children, hrun, hchildren⟩ := ih (found.modify q (· ++ [x.2])) tops fun y hy p hp => by
        rw [List.length_modify]
        exact hin y hy p hp
      refine ⟨children, ?_, fun p => ?_⟩
      · rw [List.foldlM_cons, note, hparent]
        simpa [placesIn, hparent, hx q hparent] using hrun
      · rw [hchildren, List.getElem?_modify]
        by_cases hp : q = p
        · subst hp
          simp [placesIn, hparent, Function.comp_def]
        · simp [placesIn, hparent, hp]

/-! ## Rosters and drafts -/

/-- A node is an entry, at a depth for which there is a level, and just below it are the entries with
its place as their parent. -/
def Held (ms : List RosterEntry) (levels : Nat) (above : List MemberDraft) (d : MemberDraft)
    (under : List MemberDraft) : Prop :=
  d.depth = above.length ∧ d.depth < levels ∧
    ∃ i e, ms[i]? = some e ∧ e.toMemberDraft = d ∧ under = below ms (some i)

/-- A roster and a draft that belong together (module doc). -/
structure Lists (r : Roster) (h : HierarchyDraft) : Prop where
  name : h.name = r.name
  uniqueName : h.uniqueName = r.uniqueName
  hasAll : h.hasAll = r.hasAll
  levels : h.levels = r.levels
  members : h.members.Perm (r.members.map (·.toMemberDraft))
  distinct : h.NamesDistinct
  index : ∀ name i, r.index.lookup name = some i ↔
    ∃ e, r.members[i]? = some e ∧ e.uniqueName = name
  earlier : ∀ (i : Nat) (e : RosterEntry) (p : Nat),
    r.members[i]? = some e → e.parent = some p → p < i
  tops : h.forest.map (·.value) = below r.members none
  nodes : Tree.EachIn (Held r.members r.levels.length) [] h.forest

/-- If there is an "all" level, there is a member. -/
def Opened (r : Roster) : Prop := r.hasAll = true → r.members ≠ []

variable {r : Roster} {h : HierarchyDraft} {place : Option Nat} {above : Option RosterEntry}

namespace Lists

variable (hl : r.Lists h)
include hl

theorem nodup : (r.members.map (·.uniqueName)).Nodup := by
  have hperm := hl.members.map (·.uniqueName)
  rw [List.map_map] at hperm
  exact hperm.nodup_iff.1 hl.distinct

theorem mem_of_getElem? {i : Nat} {e : RosterEntry} (hi : r.members[i]? = some e) :
    e.toMemberDraft ∈ h.members :=
  hl.members.mem_iff.2 (List.mem_map_of_mem (List.mem_of_getElem? hi))

theorem mem_of_entryAt (ha : r.entryAt place = some above) :
    ∀ p, above.map (·.toMemberDraft) = some p → p ∈ h.members := by
  rintro p hp
  obtain ⟨e, rfl, rfl⟩ := Option.map_eq_some_iff.1 hp
  cases place with
  | none => cases ha
  | some i =>
    obtain ⟨e', he, heq⟩ := Option.map_eq_some_iff.1 ha
    cases heq
    exact hl.mem_of_getElem? he

/-- The index leads to the member of a name. -/
theorem member?_of_lookup {name : String} {i : Nat} (hi : r.index.lookup name = some i) :
    ∃ e, r.members[i]? = some e ∧ h.member? name = some e.toMemberDraft := by
  obtain ⟨e, he, rfl⟩ := (hl.index name i).1 hi
  refine ⟨e, he, ?_⟩
  have hmem := hl.mem_of_getElem? he
  obtain ⟨d, hd⟩ := Option.isSome_iff_exists.1 (List.find?_isSome.2
    ⟨e.toMemberDraft, hmem, beq_self_eq_true e.uniqueName⟩ : (h.member? e.uniqueName).isSome = true)
  have hname : d.uniqueName = e.uniqueName := eq_of_beq (List.find?_some
    (p := fun d : MemberDraft => d.uniqueName == e.uniqueName) hd)
  rw [HierarchyDraft.member?, hd,
    List.inj_on_of_nodup_map hl.distinct (List.mem_of_find?_eq_some hd) hmem hname]

theorem member?_of_lookup_none {name : String} (hn : r.index.lookup name = none) :
    h.member? name = none := by
  refine List.find?_eq_none.2 fun d hd hname => ?_
  obtain ⟨e, he, rfl⟩ := List.mem_map.1 (hl.members.mem_iff.1 hd)
  obtain ⟨i, hi⟩ := List.getElem?_of_mem he
  have hfound := (hl.index name i).2 ⟨e, hi, eq_of_beq hname⟩
  rw [hn] at hfound
  cases hfound

theorem isSome_lookup (name : String) :
    (r.index.lookup name).isSome = (h.member? name).isSome := by
  rcases hi : r.index.lookup name with _ | i
  · rw [hl.member?_of_lookup_none hi]
    rfl
  · obtain ⟨e, -, he⟩ := hl.member?_of_lookup hi
    rw [he]
    rfl

/-- The first entry is the first top of the forest. -/
theorem head?_members : h.members.head? = r.members[0]?.map (·.toMemberDraft) := by
  have htops := hl.tops
  rcases hms : r.members with _ | ⟨e, ms⟩
  · have hmembers := hl.members
    rw [hms] at hmembers
    rw [hmembers.eq_nil]
    rfl
  · have hparent : e.parent = none := by
      rcases hp : e.parent with _ | p
      · rfl
      · have := hl.earlier 0 e p (by rw [hms]; rfl) hp
        omega
    rw [hms, below, List.filter_cons_of_pos (by simp [hparent]), List.map_cons] at htops
    obtain ⟨t, ts, hforest, htop, -⟩ := List.map_eq_cons_iff.1 htops
    obtain ⟨d, us⟩ := t
    rw [HierarchyDraft.members, hforest, Tree.preorderAll, Tree.preorder]
    exact congrArg some htop

end Lists

/-! ### Growth -/

section
variable (hl : r.Lists h) (ha : r.entryAt place = some above) {d : MemberDraft}
include hl ha

/-- The last place has no entries below it. -/
theorem Lists.below_last :
    below (r.members ++ [⟨d, place⟩]) (some r.members.length) = [] := by
  rw [below, List.map_eq_nil_iff, List.filter_eq_nil_iff]
  intro e he hparent
  have hparent : e.parent = some r.members.length := eq_of_beq hparent
  rcases List.mem_append.1 he with he | he
  · obtain ⟨i, hi⟩ := List.getElem?_of_mem he
    have := hl.earlier i e _ hi hparent
    have := (List.getElem?_eq_some_iff.1 hi).1
    omega
  · rw [List.mem_singleton.1 he] at hparent
    obtain rfl : place = some r.members.length := hparent
    rw [entryAt, List.getElem?_eq_none (Nat.le_refl _)] at ha
    cases ha

theorem Lists.nodes_grown (hdepth : d.depth = above.elim 0 (·.depth + 1))
    (hfits : d.depth < r.levels.length) :
    Tree.EachIn (Held (r.members ++ [⟨d, place⟩]) r.levels.length) []
      (h.grown d (above.map (·.toMemberDraft))) := by
  let ms := r.members ++ [⟨d, place⟩]
  have hlast : ms[r.members.length]? = some ⟨d, place⟩ := by simp [ms]
  have hkept {upper : List MemberDraft} {v : MemberDraft} {under : List MemberDraft}
      (hv : Held r.members r.levels.length upper v under)
      (hother : ∀ i e, r.members[i]? = some e → e.toMemberDraft = v → place ≠ some i) :
      Held ms r.levels.length upper v under := by
    obtain ⟨hupper, hlevel, i, e, hi, rfl, rfl⟩ := hv
    refine ⟨hupper, hlevel, i, e, ?_, rfl, ?_⟩
    · rw [List.getElem?_append_left (List.getElem?_eq_some_iff.1 hi).1, hi]
    · rw [below_append, if_neg (hother i e hi rfl), List.append_nil]
  have hleaf {upper : List MemberDraft} (hupper : d.depth = upper.length) :
      Held ms r.levels.length upper d [] :=
    ⟨hupper, hfits, _, _, hlast, rfl, (hl.below_last ha).symm⟩
  cases place with
  | none =>
    cases ha
    refine Tree.EachIn.append (hl.nodes.imp fun _ _ _ _ hv => hkept hv nofun) ⟨⟨?_, trivial⟩, trivial⟩
    exact hleaf hdepth
  | some p =>
    obtain ⟨e, he, heq⟩ := Option.map_eq_some_iff.1 ha
    cases heq
    refine hl.nodes.insertUnderAll ?_ ?_ (HierarchyDraft.countP_name_le_one hl.distinct e.uniqueName)
    · rintro upper v under hv hother
      refine hkept hv fun i f hi hf hp => ?_
      cases hp
      rw [he] at hi
      cases hi
      rw [← hf, beq_self_eq_true] at hother
      cases hother
    · rintro upper v under ⟨hupper, hlevel, i, f, hi, rfl, rfl⟩ hat
      obtain rfl : i = p := place_unique hl.nodup hi he (eq_of_beq hat)
      rw [he] at hi
      cases hi
      refine ⟨⟨hupper, hlevel, i, e, ?_, rfl, ?_⟩, hleaf ?_⟩
      · rw [List.getElem?_append_left (List.getElem?_eq_some_iff.1 he).1, he]
      · rw [below_append, if_pos rfl]
      · rw [hdepth, List.length_cons, ← hupper]
        rfl

theorem Lists.tops_grown : (h.grown d (above.map (·.toMemberDraft))).map (·.value) =
    below (r.members ++ [⟨d, place⟩]) none := by
  rw [below_append, ← hl.tops]
  cases place with
  | none =>
    cases ha
    rw [Option.map_none, HierarchyDraft.grown, List.map_append]
    rfl
  | some p =>
    obtain ⟨e, -, heq⟩ := Option.map_eq_some_iff.1 ha
    cases heq
    rw [if_neg (Option.some_ne_none p), List.append_nil]
    exact Tree.map_value_insertUnderAll _ d h.forest

omit ha in
/-- The last place is that of the new member. -/
theorem Lists.index_grown (hfresh : r.index.lookup d.uniqueName = none) (name : String) (i : Nat) :
    ((d.uniqueName, r.members.length) :: r.index).lookup name = some i ↔
      ∃ e, (r.members ++ [⟨d, place⟩])[i]? = some e ∧ e.uniqueName = name := by
  have hplaces : (∃ e, (r.members ++ [⟨d, place⟩])[i]? = some e ∧ e.uniqueName = name) ↔
      r.index.lookup name = some i ∨ r.members.length = i ∧ d.uniqueName = name := by
    rw [hl.index name i]
    simp only [getElem?_concat, or_and_right, exists_or]
    refine or_congr_right ⟨?_, ?_⟩
    · rintro ⟨_, ⟨hi, rfl⟩, hname⟩
      exact ⟨hi, hname⟩
    · rintro ⟨hi, hname⟩
      exact ⟨_, ⟨hi, rfl⟩, hname⟩
  rw [hplaces, List.lookup_cons]
  by_cases hname : name = d.uniqueName
  · subst hname
    simp [hfresh]
  · have hother : (name == d.uniqueName) = false := by simpa using hname
    rw [hother]
    simp [Ne.symm hname]

/-- A member that is put at the end of the roster is put into the forest below its parent. -/
theorem Lists.grown (hdepth : d.depth = above.elim 0 (·.depth + 1))
    (hfits : d.depth < r.levels.length) (hfresh : r.index.lookup d.uniqueName = none) :
    Lists { r with
        members := r.members ++ [⟨d, place⟩]
        index := (d.uniqueName, r.members.length) :: r.index }
      { h with forest := h.grown d (above.map (·.toMemberDraft)) } := by
  have hperm := HierarchyDraft.grown_perm hl.distinct (hl.mem_of_entryAt ha) d
  refine ⟨hl.name, hl.uniqueName, hl.hasAll, hl.levels, ?_, ?_, hl.index_grown hfresh, ?_,
    hl.tops_grown ha, hl.nodes_grown ha hdepth hfits⟩
  · rw [List.map_append]
    exact hperm.trans ((hl.members.cons d).trans (List.perm_append_singleton d _).symm)
  · refine (hperm.map _).nodup_iff.2 (List.nodup_cons.2 ⟨?_, hl.distinct⟩)
    refine HierarchyDraft.not_mem_names_of_member? ?_
    rw [hl.member?_of_lookup_none hfresh]
    simp
  · intro i e p hi hp
    rcases getElem?_concat.1 hi with hi | ⟨rfl, rfl⟩
    · exact hl.earlier i e p hi hp
    · obtain rfl : place = some p := hp
      obtain ⟨f, hf, -⟩ := Option.map_eq_some_iff.1 ha
      exact (List.getElem?_eq_some_iff.1 hf).1

end

/-! ## Adding members -/

/-- Two ways to make a hierarchy come to the same: to the same error, or to a roster and a draft that
belong together. -/
def Agree : Option (Except CatalogError Roster) → Except CatalogError HierarchyDraft → Prop
  | some (.ok r), .ok h => r.Lists h ∧ r.Opened
  | some (.error e), .error e' => e = e'
  | _, _ => False

theorem Agree.of_ok {x : Option (Except CatalogError Roster)} {h : HierarchyDraft}
    (hx : Agree x (.ok h)) : ∃ r, x = some (.ok r) ∧ r.Lists h ∧ r.Opened := by
  rcases x with _ | e | r
  · exact hx.elim
  · exact hx.elim
  · exact ⟨r, rfl, hx⟩

theorem Lists.addMember (hl : r.Lists h) (ha : r.entryAt place = some above) (name : String)
    (kind : MemberKind) :
    Agree (r.addMember place name kind) (h.addMember (above.map (·.toMemberDraft)) name kind) := by
  have hdepth : (above.map (·.toMemberDraft)).elim 0 (·.depth + 1) = above.elim 0 (·.depth + 1) := by
    cases above <;> rfl
  have hpath : h.namePath (above.map (·.toMemberDraft)) = r.namePath above := by
    cases above with
    | none => exact hl.uniqueName
    | some e =>
      show (if _ then _ else _) = if _ then _ else _
      rw [hl.uniqueName]
  rw [Roster.addMember, ha, HierarchyDraft.addMember]
  dsimp only [Option.map_some]
  rw [hdepth, hpath, hl.levels, hl.uniqueName, ← hl.isSome_lookup]
  split
  · rfl
  · rename_i hfits
    split
    · rfl
    · rename_i hfresh
      have hgrown := hl.grown ha (d := ⟨name, s!"{r.namePath above}.[{name}]", kind, _⟩) rfl
        (Nat.lt_of_not_le hfits) (Option.not_isSome_iff_eq_none.1 hfresh)
      rw [hl.levels, hl.uniqueName] at hgrown
      have hopened (ms : List RosterEntry) (e : RosterEntry) (b : Bool) :
          b = true → ms ++ [e] ≠ [] := fun _ => by simp
      cases above <;> exact ⟨hgrown, hopened _ _ _⟩

theorem lists_empty (display uniqueName : String) (hasAll : Bool) (levels : List String) :
    Lists ⟨display, uniqueName, hasAll, levels, [], []⟩
      ⟨display, uniqueName, hasAll, levels, []⟩ where
  name := rfl
  uniqueName := rfl
  hasAll := rfl
  levels := rfl
  members := .refl []
  distinct := List.nodup_nil
  index := by simp
  earlier := by simp
  tops := rfl
  nodes := trivial

theorem agree_start (display uniqueName : String) (hasAll : Bool) (levels : List String) :
    Agree (start display uniqueName hasAll levels)
      (HierarchyDraft.start display uniqueName hasAll levels) := by
  cases hasAll with
  | true =>
    have hl := lists_empty display uniqueName true ("(All)" :: levels)
    exact hl.addMember (show entryAt _ none = some none from rfl) _ .all
  | false => exact ⟨lists_empty display uniqueName false levels, nofun⟩

/-- The parent that is found in the one is found in the other. -/
theorem Lists.parentFor (hl : r.Lists h) (hopened : r.Opened) (parent : Option String) :
    (∃ place above, r.parentFor parent = .ok place ∧ r.entryAt place = some above ∧
      h.parentFor parent = .ok (above.map (·.toMemberDraft))) ∨
      ∃ e, r.parentFor parent = .error e ∧ h.parentFor parent = .error e := by
  cases parent with
  | some name =>
    rw [Roster.parentFor, HierarchyDraft.parentFor]
    rcases hi : r.index.lookup name with _ | i
    · rw [hl.member?_of_lookup_none hi]
      exact .inr ⟨_, rfl, rfl⟩
    · obtain ⟨e, he, hmember⟩ := hl.member?_of_lookup hi
      rw [hmember]
      exact .inl ⟨some i, some e, rfl, by rw [entryAt, he]; rfl, rfl⟩
  | none =>
    rw [Roster.parentFor, HierarchyDraft.parentFor, hl.hasAll]
    by_cases hall : r.hasAll = true
    · rw [if_pos hall, if_pos hall, hl.head?_members]
      obtain ⟨e, he⟩ := Option.isSome_iff_exists.1
        (by simpa [List.length_pos_iff] using hopened hall : r.members[0]?.isSome = true)
      exact .inl ⟨some 0, some e, rfl, by rw [entryAt, he]; rfl, by rw [he]⟩
    · rw [if_neg hall, if_neg hall]
      exact .inl ⟨none, none, rfl, rfl, rfl⟩

/-- What is added to the one is added to the other, or refused for the same reason. -/
theorem Lists.add (hl : r.Lists h) (hopened : r.Opened) (a : Addition) : Agree (r.add a) (h.add a) := by
  cases a with
  | member parent name =>
    rw [Roster.add, HierarchyDraft.add]
    rcases hl.parentFor hopened parent with ⟨place, above, hr, ha, hh⟩ | ⟨e, hr, hh⟩
    · rw [hr, hh]
      exact hl.addMember ha name .regular
    · rw [hr, hh]
      rfl
  | measure name => exact hl.addMember (show r.entryAt none = some none from rfl) name .measure

end Roster

end Olap
