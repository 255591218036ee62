import Olap.Proofs.Catalog.Built
import Olap.Proofs.Catalog.Navigation

/-!
# What holds at every node of a tree

`Tree.Each P` says that `P` holds at every node of a tree: of the values above the node, of its own, and
of those just below. Where the values know what stands above them, the nodes at or below a given one are
one block of the pre-order (`Tree.find?_block`).
-/

set_option autoImplicit false

namespace Olap

namespace Tree

variable {α : Type}

mutual

/-- `P` holds at every node, of the values above it from the parent on, its own value, and the values
just below. -/
def Each (P : List α → α → List α → Prop) (above : List α) : Tree α → Prop
  | node v ts => P above v (ts.map value) ∧ EachIn P (v :: above) ts

/-- `Each` for every tree of a forest. -/
def EachIn (P : List α → α → List α → Prop) (above : List α) : List (Tree α) → Prop
  | [] => True
  | t :: ts => t.Each P above ∧ EachIn P above ts

end

variable {P Q : List α → α → List α → Prop} {above : List α}

theorem EachIn.append {ts us : List (Tree α)} (ht : EachIn P above ts) (hu : EachIn P above us) :
    EachIn P above (ts ++ us) := by
  induction ts with
  | nil => exact hu
  | cons t ts ih => exact ⟨ht.1, ih ht.2⟩

mutual

theorem Each.imp : ∀ {above : List α} {t : Tree α}, t.Each P above →
    (∀ above, ∀ v ∈ t.preorder, ∀ below, P above v below → Q above v below) → t.Each Q above
  | _, node v ts, h, hPQ => by
    rw [preorder] at hPQ
    exact ⟨hPQ _ v List.mem_cons_self _ h.1,
      h.2.imp fun above u hu => hPQ above u (List.mem_cons_of_mem v hu)⟩

theorem EachIn.imp : ∀ {above : List α} {ts : List (Tree α)}, EachIn P above ts →
    (∀ above, ∀ v ∈ preorderAll ts, ∀ below, P above v below → Q above v below) →
    EachIn Q above ts
  | _, [], _, _ => trivial
  | _, t :: ts, h, hPQ => by
    rw [preorderAll] at hPQ
    exact ⟨h.1.imp fun above u hu => hPQ above u (List.mem_append_left _ hu),
      h.2.imp fun above u hu => hPQ above u (List.mem_append_right _ hu)⟩

end

mutual

theorem Each.exists_of_mem : ∀ {above : List α} {t : Tree α}, t.Each P above →
    ∀ v ∈ t.preorder, ∃ above below, P above v below
  | _, node v ts, h => by
    intro u hu
    rw [preorder] at hu
    rcases List.mem_cons.1 hu with rfl | hu
    · exact ⟨_, _, h.1⟩
    · exact h.2.exists_of_mem u hu

theorem EachIn.exists_of_mem : ∀ {above : List α} {ts : List (Tree α)}, EachIn P above ts →
    ∀ v ∈ preorderAll ts, ∃ above below, P above v below
  | _, [], _ => List.forall_mem_nil _
  | _, t :: ts, h => by
    rw [preorderAll]
    exact List.forall_mem_append.2 ⟨h.1.exists_of_mem, h.2.exists_of_mem⟩

end

/-! ## Growth -/

theorem map_value_insertUnderAll (p : α → Bool) (x : α) (ts : List (Tree α)) :
    (insertUnderAll p x ts).map value = ts.map value := by
  induction ts with
  | nil => rfl
  | cons t ts ih =>
    obtain ⟨w, us⟩ := t
    rw [insertUnderAll, List.map_cons, ih, insertUnder]
    split <;> rfl

mutual

/-- What becomes of a fact about nodes when a leaf is added below the only node that satisfies `p`. -/
theorem Each.insertUnder {p : α → Bool} {x : α}
    (hother : ∀ above v below, P above v below → p v = false → Q above v below)
    (hat : ∀ above v below, P above v below → p v = true →
      Q above v (below ++ [x]) ∧ Q (v :: above) x []) :
    ∀ {above : List α} {t : Tree α}, t.Each P above → t.preorder.countP p ≤ 1 →
      (t.insertUnder p x).Each Q above
  | above, node w ts, h, hcount => by
    rw [preorder, List.countP_cons] at hcount
    rw [Tree.insertUnder]
    by_cases hp : p w = true
    · rw [if_pos hp] at hcount ⊢
      obtain ⟨hw, hx⟩ := hat above w _ h.1 hp
      have hts : EachIn Q (w :: above) ts := by
        refine h.2.imp fun above' v hv below hP => hother above' v below hP ?_
        have hnone : (preorderAll ts).countP p = 0 := by omega
        simpa using List.countP_eq_zero.1 hnone v hv
      refine ⟨?_, hts.append ⟨⟨hx, trivial⟩, trivial⟩⟩
      rw [List.map_append]
      exact hw
    · rw [if_neg hp] at hcount ⊢
      refine ⟨?_, h.2.insertUnderAll hother hat hcount⟩
      rw [map_value_insertUnderAll]
      exact hother above w _ h.1 (by simpa using hp)

theorem EachIn.insertUnderAll {p : α → Bool} {x : α}
    (hother : ∀ above v below, P above v below → p v = false → Q above v below)
    (hat : ∀ above v below, P above v below → p v = true →
      Q above v (below ++ [x]) ∧ Q (v :: above) x []) :
    ∀ {above : List α} {ts : List (Tree α)}, EachIn P above ts → (preorderAll ts).countP p ≤ 1 →
      EachIn Q above (insertUnderAll p x ts)
  | _, [], _, _ => trivial
  | _, t :: ts, h, hcount => by
    rw [preorderAll, List.countP_append] at hcount
    exact ⟨h.1.insertUnder hother hat (by omega), h.2.insertUnderAll hother hat (by omega)⟩

end

/-! ## Subtrees -/

section
variable (p : α → Bool)

mutual

theorem find?_of_mem : ∀ {t : Tree α} {v : α}, v ∈ t.preorder → p v = true →
    (t.find? p).isSome = true
  | node w ts, v, hv, hp => by
    rw [find?]
    split
    · rfl
    · rename_i hw
      rw [preorder] at hv
      rcases List.mem_cons.1 hv with rfl | hv
      · exact absurd hp hw
      · exact findIn?_of_mem hv hp

/-- A subtree is found where there is one to find. -/
theorem findIn?_of_mem : ∀ {ts : List (Tree α)} {v : α}, v ∈ preorderAll ts → p v = true →
    (findIn? p ts).isSome = true
  | [], v, hv, _ => by simp [preorderAll] at hv
  | t :: ts, v, hv, hp => by
    rw [preorderAll] at hv
    rw [findIn?, Option.isSome_or, Bool.or_eq_true]
    rcases List.mem_append.1 hv with hv | hv
    · exact .inl (find?_of_mem hv hp)
    · exact .inr (findIn?_of_mem hv hp)

end

mutual

theorem find?_spec : ∀ {u t : Tree α} {above : List α}, u.Each P above → u.find? p = some t →
    p t.value = true ∧ (∃ above, t.Each P above) ∧
      ∃ before after, u.preorder = before ++ t.preorder ++ after
  | node w ts, t, above, h, hfound => by
    rw [find?] at hfound
    split at hfound
    · rename_i hw
      cases hfound
      exact ⟨hw, ⟨above, h⟩, [], [], by simp⟩
    · obtain ⟨hp, heach, before, after, hsplit⟩ := findIn?_spec h.2 hfound
      refine ⟨hp, heach, w :: before, after, ?_⟩
      rw [preorder, hsplit]
      rfl

/-- A subtree that is found is one block of the pre-order, and what holds at every node of the forest
holds at every node of the subtree. -/
theorem findIn?_spec : ∀ {us : List (Tree α)} {t : Tree α} {above : List α}, EachIn P above us →
    findIn? p us = some t → p t.value = true ∧ (∃ above, t.Each P above) ∧
      ∃ before after, preorderAll us = before ++ t.preorder ++ after
  | [], t, above, _, hfound => by simp [findIn?] at hfound
  | u :: us, t, above, h, hfound => by
    rw [findIn?, Option.or_eq_some_iff] at hfound
    rw [preorderAll]
    rcases hfound with hfound | ⟨-, hfound⟩
    · obtain ⟨hp, heach, before, after, hsplit⟩ := find?_spec h.1 hfound
      exact ⟨hp, heach, before, after ++ preorderAll us, by simp [hsplit]⟩
    · obtain ⟨hp, heach, before, after, hsplit⟩ := findIn?_spec h.2 hfound
      exact ⟨hp, heach, u.preorder ++ before, after, by simp [hsplit]⟩

end

end

/-! ## Lineages -/

/-- The value knows what stands above it. -/
def Traces (lineage : α → List α) (above : List α) (v : α) (_ : List α) : Prop := lineage v = above

variable {lineage : α → List α}

mutual

theorem Each.lineage_eq : ∀ {above : List α} {t : Tree α}, t.Each (Traces lineage) above →
    ∀ v ∈ t.preorder, ∃ path, lineage v = path ++ above ∧ path ⊆ t.preorder
  | above, node w ts, h => by
    intro v hv
    rw [preorder] at hv ⊢
    rcases List.mem_cons.1 hv with rfl | hv
    · exact ⟨[], h.1, List.nil_subset _⟩
    · obtain ⟨path, hpath, hsub⟩ := h.2.lineage_eq v hv
      refine ⟨path ++ [w], by simpa using hpath, ?_⟩
      refine List.append_subset.2 ⟨List.subset_cons_of_subset w hsub, ?_⟩
      exact List.cons_subset.2 ⟨List.mem_cons_self, List.nil_subset _⟩

/-- The lineage of a value leads through values of the forest to what stands above the forest. -/
theorem EachIn.lineage_eq : ∀ {above : List α} {ts : List (Tree α)},
    EachIn (Traces lineage) above ts → ∀ v ∈ preorderAll ts,
      ∃ path, lineage v = path ++ above ∧ path ⊆ preorderAll ts
  | _, [], _ => List.forall_mem_nil _
  | above, t :: ts, h => by
    intro v hv
    rw [preorderAll] at hv ⊢
    rcases List.mem_append.1 hv with hv | hv
    · obtain ⟨path, hpath, hsub⟩ := h.1.lineage_eq v hv
      exact ⟨path, hpath, List.subset_append_of_subset_left _ hsub⟩
    · obtain ⟨path, hpath, hsub⟩ := h.2.lineage_eq v hv
      exact ⟨path, hpath, List.subset_append_of_subset_right _ hsub⟩

end

/-- The tops of a forest are the values with nothing of the forest above them. -/
theorem EachIn.mem_tops_iff {ts : List (Tree α)} (h : EachIn (Traces lineage) above ts) {v : α}
    (hv : v ∈ preorderAll ts) : v ∈ ts.map value ↔ lineage v = above := by
  induction ts with
  | nil => simp [preorderAll] at hv
  | cons t ts ih =>
    obtain ⟨w, us⟩ := t
    obtain ⟨⟨hw, hus⟩, hts⟩ := h
    rw [List.map_cons, List.mem_cons, value_node]
    constructor
    · rintro (rfl | htop)
      · exact hw
      · exact (ih hts (map_value_subset ts htop)).1 htop
    · intro hlineage
      rw [preorderAll, preorder, List.cons_append, List.mem_cons, List.mem_append] at hv
      rcases hv with rfl | hv | hv
      · exact .inl rfl
      · obtain ⟨path, hpath, -⟩ := hus.lineage_eq v hv
        -- what stands below a top has the top in its lineage
        have hlength := congrArg List.length (hlineage.symm.trans hpath)
        simp at hlength
        omega
      · exact .inr ((ih hts hv).2 hlineage)

/-- The tops of a forest, in their order, are the values with nothing of the forest above them. -/
theorem EachIn.filter_tops {q : α → Bool} {ts : List (Tree α)}
    (h : EachIn (Traces lineage) above ts)
    (hq : ∀ v ∈ preorderAll ts, (q v = true ↔ lineage v = above)) :
    (preorderAll ts).filter q = ts.map value := by
  induction ts with
  | nil => rfl
  | cons t ts ih =>
    obtain ⟨w, us⟩ := t
    obtain ⟨⟨hw, hus⟩, hts⟩ := h
    rw [preorderAll, preorder, List.cons_append, List.forall_mem_cons, List.forall_mem_append] at hq
    obtain ⟨hqw, hqus, hqts⟩ := hq
    have hbelow : (preorderAll us).filter q = [] := by
      rw [List.filter_eq_nil_iff]
      intro v hv hqv
      obtain ⟨path, hpath, -⟩ := hus.lineage_eq v hv
      have hlength := congrArg List.length (((hqus v hv).1 hqv).symm.trans hpath)
      simp at hlength
      omega
    rw [preorderAll, preorder, List.cons_append, List.filter_cons_of_pos (hqw.2 hw),
      List.filter_append, hbelow, ih hts hqts]
    rfl

section
variable {p : α → Bool}

theorem value_mem_of_findIn? {us : List (Tree α)} {t : Tree α} (hfound : findIn? p us = some t) :
    t.value ∈ preorderAll us :=
  preorder_subset_of_findIn? p hfound t.value_mem_preorder

mutual

theorem mem_of_find? : ∀ {above : List α} {u t : Tree α}, u.Each (Traces lineage) above →
    (above ++ u.preorder).Nodup → u.find? p = some t → ∀ v ∈ u.preorder,
      v = t.value ∨ t.value ∈ lineage v → v ∈ t.preorder
  | above, node w ts, t, h, hnodup, hfound => by
    intro v hv hwithin
    rw [find?] at hfound
    split at hfound
    · cases hfound
      exact hv
    · rw [preorder] at hv hnodup
      have hbelow : ((w :: above) ++ preorderAll ts).Nodup :=
        (List.perm_middle.nodup_iff).1 hnodup
      rcases List.mem_cons.1 hv with rfl | hv
      · -- neither the top nor what stands above it is below the top
        have htop : t.value ∈ preorderAll ts := value_mem_of_findIn? hfound
        have hnone : t.value ∉ v :: above := fun hmem =>
          (List.disjoint_of_nodup_append hbelow) hmem htop
        rcases hwithin with rfl | hmem
        · exact absurd List.mem_cons_self hnone
        · rw [show lineage v = above from h.1] at hmem
          exact absurd (List.mem_cons_of_mem v hmem) hnone
      · exact mem_of_findIn? h.2 hbelow hfound v hv hwithin

/-- A value whose lineage leads to the top of a subtree that was found is in the subtree. -/
theorem mem_of_findIn? : ∀ {above : List α} {us : List (Tree α)} {t : Tree α},
    EachIn (Traces lineage) above us → (above ++ preorderAll us).Nodup → findIn? p us = some t →
      ∀ v ∈ preorderAll us, v = t.value ∨ t.value ∈ lineage v → v ∈ t.preorder
  | above, [], t, _, _, hfound => by simp [findIn?] at hfound
  | above, u :: us, t, h, hnodup, hfound => by
    intro v hv hwithin
    rw [preorderAll] at hv hnodup
    have hu : (above ++ u.preorder).Nodup := by
      rw [← List.append_assoc] at hnodup
      exact hnodup.of_append_left
    have hus : (above ++ preorderAll us).Nodup := by
      refine hnodup.sublist (List.Sublist.append_left ?_ above)
      exact List.sublist_append_right _ _
    -- the lineage of a value leads through its own part of the forest
    have hpart {part : List α} (hmem : t.value ∉ above) (hself : v ∈ part)
        (hlineage : ∃ path, lineage v = path ++ above ∧ path ⊆ part) : t.value ∈ part := by
      obtain ⟨path, hpath, hsub⟩ := hlineage
      rcases hwithin with rfl | hin
      · exact hself
      · rw [hpath] at hin
        exact hsub ((List.mem_append.1 hin).resolve_right hmem)
    have habove : t.value ∉ above := fun hmem =>
      List.disjoint_of_nodup_append hnodup hmem (by simpa [preorderAll] using value_mem_of_findIn? hfound)
    have hparts := List.disjoint_of_nodup_append hnodup.of_append_right
    rw [findIn?, Option.or_eq_some_iff] at hfound
    rcases hfound with hfound | ⟨-, hfound⟩
    · have htop : t.value ∈ u.preorder := preorder_subset_of_find? p hfound t.value_mem_preorder
      rcases List.mem_append.1 hv with hv | hv
      · exact mem_of_find? h.1 hu hfound v hv hwithin
      · exact absurd (hpart habove hv (h.2.lineage_eq v hv)) (hparts htop)
    · have htop : t.value ∈ preorderAll us := value_mem_of_findIn? hfound
      rcases List.mem_append.1 hv with hv | hv
      · exact absurd htop (hparts (hpart habove hv (h.1.lineage_eq v hv)))
      · exact mem_of_findIn? h.2 hus hfound v hv hwithin

end

/-- The values of a subtree are those whose lineage leads to its top. -/
theorem mem_preorder_iff {us : List (Tree α)} (h : EachIn (Traces lineage) above us)
    (hnodup : (above ++ preorderAll us).Nodup) {t : Tree α} (hfound : findIn? p us = some t) {v : α}
    (hv : v ∈ preorderAll us) : v ∈ t.preorder ↔ v = t.value ∨ t.value ∈ lineage v := by
  refine ⟨fun hmem => ?_, mem_of_findIn? h hnodup hfound v hv⟩
  obtain ⟨-, ⟨above', heach⟩, -⟩ := findIn?_spec p h hfound
  obtain ⟨w, ts⟩ := t
  rw [preorder] at hmem
  rcases List.mem_cons.1 hmem with rfl | hmem
  · exact .inl rfl
  · obtain ⟨path, hpath, -⟩ := heach.2.lineage_eq v hmem
    rw [hpath]
    exact .inr (List.mem_append_right _ List.mem_cons_self)

end

end Tree

end Olap
