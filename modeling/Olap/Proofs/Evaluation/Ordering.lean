import Olap.Proofs.Catalog.Lookup
import Olap.Proofs.Evaluation.Laziness
import Olap.Proofs.Evaluation.Replay
import Olap.Proofs.Function.TreeOrder
import Olap.Proofs.Tuple.Plain

/-!
# `Order` along a hierarchy

To sort a set of members, `Order` evaluates the sort expression many times: with each member current,
and with each of its ancestors, again for every member below (`EvalM.KeyRuns`). As evaluations give again
what they have given, each member has one key (`EvalM.KeyRuns.functional`), and the set is sorted by
these keys (`Expr.order_arranged`).
-/

set_option autoImplicit false

namespace Olap

/-! ## Lists of one column in another order -/

/-- The members of a list, with their places, in another order are the list in that order. -/
theorem TupleList.permute_zipIdx {l : TupleList} (hl : l.Legal l.limit) (harity : l.arity = 1)
    {sorted : List (Member × Nat)} (hperm : sorted.Perm l.members.toList.zipIdx) :
    ∃ out : TupleList, l.permute (sorted.map Prod.snd) = .ok out ∧ out.arity = 1 ∧
      out.members.toList = sorted.map Prod.fst := by
  have hrow {e : Member × Nat} (he : e ∈ sorted) : l.rows[e.2]? = some [e.1] := by
    have hmember := List.mem_zipIdx_iff_getElem?.1 (hperm.mem_iff.1 he)
    rw [rows_of_arity_one harity, List.getElem?_map, hmember]
    rfl
  have hrange : ∀ i ∈ sorted.map Prod.snd, i < l.size := by
    intro i hi
    obtain ⟨e, he, rfl⟩ := List.mem_map.1 hi
    rw [← length_rows]
    exact (List.getElem?_eq_some_iff.1 (hrow he)).1
  have hrows : ((sorted.map Prod.snd).filterMap fun i => l.rows[i]?) =
      sorted.map fun e => [e.1] := by
    rw [List.filterMap_map, ← List.filterMap_eq_map]
    exact List.filterMap_congr fun e he => hrow he
  have hcolumns : max l.arity 1 = 1 := (Nat.max_eq_left l.arity_pos).trans harity
  have hsize : sorted.length = l.size := by
    rw [hperm.length_eq, List.length_zipIdx, ← length_rows, rows_of_arity_one harity,
      List.length_map]
  have hfits : (∀ r ∈ sorted.map fun e => [e.1], r.length = max l.arity 1) ∧
      (0 < l.limit → (sorted.map fun e => [e.1]).length ≤ l.limit) := by
    refine ⟨fun r hr => ?_, fun hpos => ?_⟩
    · obtain ⟨e, -, rfl⟩ := List.mem_map.1 hr
      exact hcolumns.symm
    · rw [List.length_map, hsize]
      exact hl.size_le hpos
  obtain ⟨out, hout⟩ := exists_foldlM_add_empty_iff.2 hfits
  obtain ⟨-, harity', hrows'⟩ := foldlM_add_empty hout
  have hone : out.arity = 1 := harity'.trans hcolumns
  refine ⟨out, by rw [permute_eq hrange, hrows, hout], hone, ?_⟩
  rw [rows_of_arity_one hone] at hrows'
  refine List.map_injective_iff.2 (fun m n hmn => (List.cons.inj hmn).1) (hrows'.trans ?_)
  rw [List.map_map]
  rfl

namespace EvalM

variable {env : Environment} {key : EvalM SortKey} {mode : SortMode} {κ : List Member}
  {s t u : EvalState} {m : Member} {α β : Type}

/-! ## The evaluations of keys -/

theorem exec_bind_eq_ok {x : EvalM α} {f : α → EvalM β} {b : β}
    (h : (x >>= f).exec env s = (.ok b, t)) :
    ∃ a u, x.exec env s = (.ok a, u) ∧ (f a).exec env u = (.ok b, t) := by
  rcases hx : x.exec env s with ⟨e | a, u⟩
  · rw [exec_bind_error hx] at h
    cases h
  · rw [exec_bind_ok hx] at h
    exact ⟨a, u, rfl, h⟩

/-- Evaluations of the key one after the other, from `s` to `t`: each with another member made current
in the context, and with the key that it gave. -/
inductive KeyRuns (env : Environment) (key : EvalM SortKey) (κ : List Member) :
    EvalState → EvalState → List (Member × SortKey) → Prop
  | done {s t : EvalState} (h : s.Leads t) : KeyRuns env key κ s t []
  | next {s u v t : EvalState} {m : Member} {k : SortKey} {ks : List (Member × SortKey)}
      (hleads : s.Leads u) (hcontext : u.context = κ.set m.hierarchyOrdinal m)
      (hexec : key.exec env u = (.ok k, v)) (hrest : KeyRuns env key κ v t ks) :
      KeyRuns env key κ s t ((m, k) :: ks)

namespace KeyRuns

variable {ks ls : List (Member × SortKey)} {k k' : SortKey}

theorem after (h : KeyRuns env key κ t u ks) (hs : s.Leads t) : KeyRuns env key κ s u ks := by
  cases h with
  | done h => exact .done (hs.trans h)
  | next hleads hcontext hexec hrest => exact .next (hs.trans hleads) hcontext hexec hrest

theorem append (h : KeyRuns env key κ s t ks) (h' : KeyRuns env key κ t u ls) :
    KeyRuns env key κ s u (ks ++ ls) := by
  induction h with
  | done h => exact h'.after h
  | next hleads hcontext hexec _ ih => exact .next hleads hcontext hexec (ih h')

variable (hk : Replays env key)
include hk

theorem leads (h : KeyRuns env key κ s t ks) : s.Leads t := by
  induction h with
  | done h => exact h
  | next hleads _ hexec _ ih => exact (hleads.trans (hk.leads_of_exec hexec)).trans ih

/-- What one of the runs gave is the key of its member from then on. -/
theorem settles (h : KeyRuns env key κ s t ks) (hm : (m, k) ∈ ks) :
    Settles env key (κ.set m.hierarchyOrdinal m) s t k := by
  induction h with
  | done _ => cases hm
  | next hleads hcontext hexec hrest ih =>
    rcases List.mem_cons.1 hm with heq | hm
    · cases heq
      exact hk.settles hleads hcontext hexec (hrest.leads hk)
    · obtain ⟨⟨u, v, hu, hcontext', hexec', hv⟩, hagain⟩ := ih hm
      exact ⟨⟨u, v, (hleads.trans (hk.leads_of_exec hexec)).trans hu, hcontext', hexec', hv⟩, hagain⟩

/-- All runs with one member give the same. -/
theorem functional (h : KeyRuns env key κ s t ks) (hm : (m, k) ∈ ks) (hm' : (m, k') ∈ ks) :
    k = k' := by
  -- a later run stands in the same context as an earlier one
  have hlater {u v t : EvalState} {ks : List (Member × SortKey)} {n : Member} {k k' : SortKey}
      (hcontext : u.context = κ.set n.hierarchyOrdinal n) (hexec : key.exec env u = (.ok k, v))
      (hrest : KeyRuns env key κ v t ks) (hn : (n, k') ∈ ks) : k = k' := by
    obtain ⟨⟨w, x, hw, hcontext', hexec', -⟩, -⟩ := hrest.settles hk hn
    rcases hk.again hexec hw (hcontext'.trans hcontext.symm) with hok | ⟨herror, -⟩
    · rw [hexec'] at hok
      exact (Except.ok.inj hok).symm
    · rw [hexec'] at herror
      cases herror
  induction h with
  | done _ => cases hm
  | next _ hcontext hexec hrest ih =>
    rcases List.mem_cons.1 hm with hfirst | hlast
    · cases hfirst
      rcases List.mem_cons.1 hm' with hfirst | hlast
      · exact (congrArg Prod.snd hfirst).symm
      · exact hlater hcontext hexec hrest hlast
    · rcases List.mem_cons.1 hm' with hfirst | hlast'
      · cases hfirst
        exact (hlater hcontext hexec hrest hlast).symm
      · exact ih hlast hlast'

end KeyRuns

/-! ## The paths of a set -/

/-- A sort path holds the ordinals of members and keys that runs gave for them. -/
def Holds (ks : List (Member × SortKey)) (ms : List Member) (p : SortPath) : Prop :=
  List.Forall₂ (fun a e => e.1 = a.ordinal ∧ (a, e.2) ∈ ks) ms p

theorem Holds.mono {ks ls : List (Member × SortKey)} {ms : List Member} {p : SortPath}
    (h : Holds ks ms p) (hsub : ks ⊆ ls) : Holds ls ms p :=
  h.imp fun _ _ he => ⟨he.1, hsub he.2⟩

/-- What an action with a tuple in the context has done, it has done in the context with the tuple. -/
theorem Replays.withRow_eq_ok {x : EvalM α} (hx : Replays env x) {r : Row} {a : α}
    (h : (EvalM.withRow r x).exec env s = (.ok a, t)) :
    t.context = s.context ∧ ∃ v, x.exec env (s.setRow r) = (.ok a, v) ∧ v.Leads t := by
  have hcontext := (hx.withRow r).context_of_exec h
  have hframe := hx.frame (s.setRow r)
  rw [exec_withRow] at h
  rcases hexec : x.exec env (s.setRow r) with ⟨_, v⟩
  rw [hexec] at h hframe
  cases h
  exact ⟨hcontext, v, rfl, .restore s hframe⟩

section
variable (hk : Replays env key)
include hk

theorem replays_ancestorKeys (ms : List Member) : Replays env (ancestorKeys key ms) := by
  induction ms with
  | nil => exact .of_const fun _ => rfl
  | cons m ms ih =>
    rw [ancestorKeys, restoring_setMember]
    exact (hk.withRow [m]).bind fun _ _ _ => ih.bind fun _ _ _ => .of_const fun _ => rfl

theorem replays_sortPath (mode : SortMode) (r : Row) : Replays env (sortPath mode key r) := by
  refine hk.bind fun _ own _ => ?_
  rcases r with _ | ⟨m, r⟩
  · exact .of_const fun _ => rfl
  · dsimp only
    split
    · exact .of_const fun _ => rfl
    · exact (replays_ancestorKeys hk _).bind fun _ _ _ => .of_const fun _ => rfl

/-- Members whose hierarchy another member of the context has made current already. -/
theorem ancestorKeys_runs {ms : List Member} {p : SortPath}
    (hms : ∀ n ∈ ms, s.context.set n.hierarchyOrdinal n = κ.set n.hierarchyOrdinal n)
    (hexec : (ancestorKeys key ms).exec env s = (.ok p, t)) :
    ∃ ks, KeyRuns env key κ s t ks ∧ Holds ks ms p := by
  induction ms generalizing s p with
  | nil =>
    cases hexec
    exact ⟨[], .done (.refl _), .nil⟩
  | cons m ms ih =>
    obtain ⟨hm, hms⟩ := List.forall_mem_cons.1 hms
    rw [ancestorKeys, restoring_setMember] at hexec
    obtain ⟨k, u, hfirst, hexec⟩ := exec_bind_eq_ok hexec
    obtain ⟨path, v, hrest, hexec⟩ := exec_bind_eq_ok hexec
    cases hexec
    obtain ⟨hcontext, w, hkey, hw⟩ := hk.withRow_eq_ok hfirst
    obtain ⟨ks, hruns, hholds⟩ := ih (by rwa [hcontext]) hrest
    have hplace : (s.setRow [m]).context = κ.set m.hierarchyOrdinal m :=
      (EvalState.context_setRow s [m]).trans hm
    exact ⟨(m, k) :: ks, .next (.setRow s [m]) hplace hkey (hruns.after hw),
      .cons ⟨rfl, List.mem_cons_self⟩ (hholds.mono (List.subset_cons_self _ _))⟩

/-- The sort path of a member holds the keys of the members on the way down to it. -/
theorem sortPath_runs {p : SortPath}
    (habove : ∀ a ∈ m.ancestors, a.hierarchyOrdinal = m.hierarchyOrdinal)
    (hs : s.context = κ.set m.hierarchyOrdinal m)
    (hexec : (sortPath mode key [m]).exec env s = (.ok p, t)) :
    ∃ ks, KeyRuns env key κ s t ks ∧ Holds ks (mode.way m) p := by
  obtain ⟨own, u, hown, hexec⟩ := exec_bind_eq_ok hexec
  dsimp only at hexec
  have hcontext := hk.context_of_exec hown
  unfold SortMode.way
  split at hexec
  · rename_i hmode
    cases hexec
    rw [if_pos hmode]
    exact ⟨[(m, own)], .next (.refl s) hs hown (.done (.refl _)),
      .cons ⟨rfl, List.mem_singleton_self _⟩ .nil⟩
  · rename_i hmode
    obtain ⟨above, v, hancestors, hexec⟩ := exec_bind_eq_ok hexec
    cases hexec
    have hms : ∀ a ∈ m.ancestors.reverse,
        u.context.set a.hierarchyOrdinal a = κ.set a.hierarchyOrdinal a := by
      intro a ha
      rw [hcontext, hs, habove a (List.mem_reverse.1 ha), List.set_set]
    obtain ⟨ks, hruns, hholds⟩ := ancestorKeys_runs hk hms hancestors
    rw [if_neg hmode]
    refine ⟨(m, own) :: ks, .next (.refl s) hs hown hruns, List.rel_append ?_ ?_⟩
    · exact hholds.mono (List.subset_cons_self _ _)
    · exact .cons ⟨rfl, List.mem_cons_self⟩ .nil

/-- The rounds over the members of a set, one after the other. -/
theorem rounds_runs {ms : List Member}
    (habove : ∀ m ∈ ms, ∀ a ∈ m.ancestors, a.hierarchyOrdinal = m.hierarchyOrdinal)
    {round : Nat} {paths : List SortPath} {out : Nat × List SortPath}
    (hexec : ((ms.map fun m => [m]).foldlM (fun (p : Nat × List SortPath) r => do
        poll p.1
        let path ← withRow r (sortPath mode key r)
        return (p.1 + 1, path :: p.2)) (round, paths)).exec env s = (.ok out, t)) :
    ∃ ks more, KeyRuns env key s.context s t ks ∧ out.2 = more.reverse ++ paths ∧
      List.Forall₂ (fun m p => Holds ks (mode.way m) p) ms more := by
  induction ms generalizing s round paths with
  | nil =>
    cases hexec
    exact ⟨[], [], .done (.refl _), rfl, .nil⟩
  | cons m ms ih =>
    obtain ⟨hm, hms⟩ := List.forall_mem_cons.1 habove
    rw [List.map_cons, List.foldlM_cons] at hexec
    obtain ⟨next, v, hround, hexec⟩ := exec_bind_eq_ok hexec
    obtain ⟨⟨⟩, u, hpoll, hround⟩ := exec_bind_eq_ok hround
    obtain ⟨path, w, hpath, hround⟩ := exec_bind_eq_ok hround
    cases hround
    -- a round leaves the context as it was, so all rounds start in the same one
    obtain ⟨hcontext, x, hpath, hx⟩ := (replays_sortPath hk mode [m]).withRow_eq_ok hpath
    have hpolled := (Replays.poll round).context_of_exec hpoll
    have hplace : (u.setRow [m]).context = s.context.set m.hierarchyOrdinal m := by
      rw [EvalState.context_setRow, hpolled]
      rfl
    obtain ⟨ks, hruns, hholds⟩ := sortPath_runs hk hm hplace hpath
    obtain ⟨ls, more, hrest, hout, hmore⟩ := ih hms hexec
    rw [hcontext, hpolled] at hrest
    have hstart : s.Leads (u.setRow [m]) :=
      ((Replays.poll round).leads_of_exec hpoll).trans (.setRow u [m])
    refine ⟨ks ++ ls, path :: more, (hruns.after hstart).append (hrest.after hx), ?_, ?_⟩
    · rw [hout, List.reverse_cons, List.append_assoc, List.singleton_append]
    · exact .cons (hholds.mono (List.subset_append_left _ _))
        (hmore.imp fun _ _ h => h.mono (List.subset_append_right _ _))

/-- A loop over a set of members that collects sort paths gives each member on the ways down to them one
key. -/
theorem forEachRow_sortPath {l : TupleList} (harity : l.arity = 1)
    (habove : ∀ m ∈ l.members, ∀ a ∈ m.ancestors, a.hierarchyOrdinal = m.hierarchyOrdinal)
    {paths : List SortPath}
    (hexec : (forEachRow (.list l) (sortPath mode key)).exec env s = (.ok paths, t)) :
    ∃ k : Member → SortKey, paths = l.members.toList.map (SortPath.ofKeys mode k) ∧
      ∀ m ∈ l.members, ∀ a ∈ mode.way m,
        Settles env key (s.setMember a).context s t (k a) := by
  rw [forEachRow, TupleSource.foldM_eq_foldlM_rows] at hexec
  obtain ⟨out, u, hrounds, hexec⟩ := exec_bind_eq_ok hexec
  cases hexec
  have hrows : (TupleSource.list l).rows = l.members.toList.map fun m => [m] :=
    TupleList.rows_of_arity_one harity
  rw [hrows] at hrounds
  obtain ⟨ks, more, hruns, hout, hmore⟩ := rounds_runs hk
    (fun m hm => habove m (Array.mem_toList_iff.1 hm)) hrounds
  -- a member has one key, whichever of its runs gave it
  classical
  let k (a : Member) : SortKey := if h : ∃ x, (a, x) ∈ ks then h.choose else .number none
  have hkey {a : Member} {x : SortKey} (ha : (a, x) ∈ ks) : k a = x := by
    have hexists : ∃ x, (a, x) ∈ ks := ⟨x, ha⟩
    show dite _ _ _ = x
    rw [dif_pos hexists]
    exact hruns.functional hk hexists.choose_spec ha
  have hpath {ms : List Member} {p : SortPath} (h : Holds ks ms p) :
      p = ms.map (fun a => (a.ordinal, k a)) ∧ ∀ a ∈ ms, (a, k a) ∈ ks := by
    induction h with
    | nil => exact ⟨rfl, List.forall_mem_nil _⟩
    | @cons a e ms p he _ ih =>
      obtain ⟨hordinal, hmem⟩ := he
      refine ⟨?_, List.forall_mem_cons.2 ⟨by rwa [hkey hmem], ih.2⟩⟩
      rw [List.map_cons, ← ih.1, hkey hmem, ← hordinal]
  refine ⟨k, ?_, fun m hm a ha => ?_⟩
  · have hpaths : more.map id = l.members.toList.map (SortPath.ofKeys mode k) :=
      map_eq_of_forall₂ hmore fun _ _ _ h => (hpath h).1
    rw [hout, List.append_nil, List.reverse_reverse, ← hpaths, List.map_id]
  · obtain ⟨p, -, hp⟩ := exists_mem_of_forall₂ hmore.flip m (Array.mem_toList_iff.2 hm)
    rw [EvalState.context_setMember]
    exact hruns.settles hk ((hpath hp).2 a ha)

end

end EvalM

/-! ## What a sort is asked for -/

/-- The modes for the words that `Order` knows. Without a word it sorts as for the first of them. -/
inductive SortMode.For : Option String → SortMode → Prop
  | unsaid : For none ⟨false, false⟩
  | asc : For (some "ASC") ⟨false, false⟩
  | desc : For (some "DESC") ⟨true, false⟩
  | basc : For (some "BASC") ⟨false, true⟩
  | bdesc : For (some "BDESC") ⟨true, true⟩

/-- The list holds the members of `l` in the order that a word asks for, if the members have the keys
`k`: along the hierarchy, with the lower or the higher keys first, or by the members' own keys alone. -/
structure TupleList.SortedAs (word : Option String) (k : Member → SortKey) (l out : TupleList) :
    Prop where
  arity : out.arity = 1
  members : out.members.toList.Perm l.members.toList
  asc : word = none ∨ word = some "ASC" →
    out.members.toList.Pairwise (Member.Precedes SortKey.Lower k)
  desc : word = some "DESC" → out.members.toList.Pairwise (Member.Precedes SortKey.Higher k)
  basc : word = some "BASC" →
    out.members.toList = Member.sortByKeys SortKey.Lower k l.members.toList
  bdesc : word = some "BDESC" →
    out.members.toList = Member.sortByKeys SortKey.Higher k l.members.toList

/-- The key of a value: the text or the number that it stands for, which is missing if the value is
null, and only then. -/
def Value.HasKey (v : Value) (byText : Bool) (k : SortKey) : Prop :=
  match byText with
  | true => ∃ s, k = .text s ∧ v.toText = .ok s ∧ (s = none ↔ v = .null)
  | false => ∃ x, k = .number x ∧ v.toDouble = .ok x ∧ (x = none ↔ v = .null)

/-- Whether the sort expression of an overload is a text. -/
def Definition.sortsTexts (d : Definition) : Bool := d.signature.parameters[1]? == some .string

/-- The parts of a call of `Order`: the set compiles to a list and the sort expression to a text or to a
number, and after them stands no word or one for the mode. The case of the word does not matter. -/
structure Expr.SortCall (cube : Cube) (d : Definition) (args : List Expr) (styles : List ResultStyle)
    (word : Option String) (mode : SortMode) (set key : Calc) : Prop where
  first : ∃ e, args[0]? = some e ∧ (e.toOperand cube).list styles = .ok set
  second : ∃ e, args[1]? = some e ∧ (if d.sortsTexts then (e.toOperand cube).scalar styles
    else (e.toOperand cube).double styles) = .ok key
  third : ∃ w : Option String, args[2]? = w.map (fun w => .literal (.symbol w)) ∧
    word = w.map String.toUpper
  asks : mode.For word

theorem SortMode.mem_way {mode : SortMode} {m b : Member} :
    b ∈ mode.way m ↔ b = m ∨ mode.breaksHierarchy = false ∧ b ∈ m.ancestors := by
  unfold way
  cases mode.breaksHierarchy <;> simp [Member.mem_wayDown, or_comm]

theorem SortMode.ofWord?_eq_some {w : String} {mode : SortMode} :
    ofWord? w = some mode ↔ mode.For (some w) := by
  constructor
  · intro h
    obtain ⟨before, after, hwords, -⟩ := List.lookup_eq_some_iff.1 h
    have hmem : (w, mode) ∈ words := by simp [hwords]
    simp only [words, List.mem_cons, Prod.mk.injEq, List.not_mem_nil, or_false] at hmem
    rcases hmem with ⟨rfl, rfl⟩ | ⟨rfl, rfl⟩ | ⟨rfl, rfl⟩ | ⟨rfl, rfl⟩ <;> constructor
  · rintro (_ | _ | _ | _) <;> decide

theorem SortMode.For.unique {word : Option String} {mode mode' : SortMode} (h : mode.For word)
    (h' : mode'.For word) : mode = mode' := by
  rcases word with _ | w
  · cases h
    cases h'
    rfl
  · exact Option.some.inj ((ofWord?_eq_some.2 h).symm.trans (ofWord?_eq_some.2 h'))

theorem Member.sortByKeys_congr {ahead ahead' : SortKey → SortKey → Prop} [DecidableRel ahead]
    [DecidableRel ahead'] (h : ahead = ahead') (k : Member → SortKey) (ms : List Member) :
    sortByKeys ahead k ms = sortByKeys ahead' k ms := by
  subst h
  congr

/-- A list that is sorted in a mode is sorted as its word asks for. -/
theorem TupleList.SortedAs.of_mode {word : Option String} {mode : SortMode} {k : Member → SortKey}
    {l out : TupleList} (hword : mode.For word) (harity : out.arity = 1)
    (hmembers : out.members.toList.Perm l.members.toList)
    (halong : mode.breaksHierarchy = false →
      out.members.toList.Pairwise (Member.Precedes mode.Ahead k))
    (halone : mode.breaksHierarchy = true →
      out.members.toList = Member.sortByKeys mode.Ahead k l.members.toList) :
    SortedAs word k l out := by
  refine ⟨harity, hmembers, ?_, ?_, ?_, ?_⟩
  · rintro (rfl | rfl)
    · obtain rfl := hword.unique .unsaid
      rw [← SortMode.ahead_ascending ⟨false, false⟩ rfl]
      exact halong rfl
    · obtain rfl := hword.unique .asc
      rw [← SortMode.ahead_ascending ⟨false, false⟩ rfl]
      exact halong rfl
  · rintro rfl
    obtain rfl := hword.unique .desc
    rw [← SortMode.ahead_descending ⟨true, false⟩ rfl]
    exact halong rfl
  · rintro rfl
    obtain rfl := hword.unique .basc
    rw [← Member.sortByKeys_congr (SortMode.ahead_ascending ⟨false, true⟩ rfl)]
    exact halone rfl
  · rintro rfl
    obtain rfl := hword.unique .bdesc
    rw [← Member.sortByKeys_congr (SortMode.ahead_descending ⟨true, true⟩ rfl)]
    exact halone rfl

section
variable {env : Environment} (hcube : env.cube.Built) {h : Hierarchy} (hh : h ∈ env.cube.hierarchies)
  {word : Option String} {mode : SortMode} (hword : mode.For word) {l : TupleList}
  (hlegal : l.Legal l.limit) (harity : l.arity = 1) (hmembers : ∀ m ∈ l.members, m ∈ h.members)
include hcube hh hword hlegal harity hmembers

theorem EvalM.exec_sort {key : EvalM SortKey} (hk : EvalM.Replays env key) {s t : EvalState}
    {paths : List SortPath}
    (hkeys : (EvalM.forEachRow (.list l) (EvalM.sortPath mode key)).exec env s = (.ok paths, t)) :
    ∃ (out : TupleList) (k : Member → SortKey), (EvalM.sort mode l key).exec env s = (.ok out, t) ∧
      TupleList.SortedAs word k l out ∧ ∀ m ∈ l.members, ∀ b ∈ mode.way m,
        EvalM.Settles env key (s.setMember b).context s t (k b) := by
  have hregular := hcube.regular.hierarchy h hh
  have habove : ∀ m ∈ l.members, ∀ b ∈ m.ancestors, b.hierarchyOrdinal = m.hierarchyOrdinal := by
    intro m hm b hb
    have hm := hmembers m hm
    rw [hregular.ordinal m hm, hregular.ordinal b (hregular.ancestors m hm b hb)]
  obtain ⟨k, rfl, hsettles⟩ := EvalM.forEachRow_sortPath hk harity habove hkeys
  obtain ⟨sorted, hperm, hsort, halong, halone⟩ : ∃ sorted : List (Member × Nat), _ ∧ _ ∧ _ ∧ _ :=
    SortPath.sorted_members hcube hh fun m hm => hmembers m (Array.mem_toList_iff.1 hm)
  obtain ⟨out, hpermute, hone, hout⟩ := TupleList.permute_zipIdx hlegal harity hperm
  have hsame : out.members.toList.Perm l.members.toList := by
    have hmap := hperm.map Prod.fst
    rwa [List.zipIdx_map_fst, ← hout] at hmap
  rw [← hout] at halong halone
  refine ⟨out, k, ?_, .of_mode hword hone hsame halong halone, hsettles⟩
  rw [EvalM.sort, EvalM.exec_bind_ok hkeys, EvalM.exec_lift, List.length_map, hsort, List.map_map]
  exact Prod.ext hpermute rfl

end

/-! ## Keys of values -/

theorem Value.toDouble_eq_none {v : Value} : v.toDouble = .ok none ↔ v = .null := by
  cases v <;> simp [toDouble, mismatch]

theorem Value.toText_eq_none {v : Value} : v.toText = .ok none ↔ v = .null := by
  cases v <;> simp [toText, mismatch]

namespace EvalM

variable {env : Environment} {x : EvalM Value} {byText : Bool} {k : SortKey} {s t : EvalState}

theorem replays_sortKey (hx : Replays env x) (byText : Bool) : Replays env (sortKey byText x) := by
  unfold sortKey
  split
  all_goals
    refine Replays.bind (hx.bind fun _ _ _ => ?_) fun _ _ _ => .of_const fun _ => rfl
    exact .of_const fun _ => exec_lift _

/-- What is read off a result of a calculation is read off a value that it has. -/
theorem exec_bind_lift_ok {α : Type} {read : Value → Except CalcError α} {a : α}
    (h : (x >>= fun v => lift (read v)).exec env s = (.ok a, t)) :
    ∃ v, x.exec env s = (.ok v, t) ∧ read v = .ok a := by
  obtain ⟨v, u, hx, hlift⟩ := exec_bind_eq_ok h
  rw [exec_lift] at hlift
  obtain ⟨hread, rfl⟩ := Prod.mk.inj hlift
  exact ⟨v, hx, hread⟩

/-- A key is that of a value of the sort expression. -/
theorem exec_sortKey_ok (h : (sortKey byText x).exec env s = (.ok k, t)) :
    ∃ v, x.exec env s = (.ok v, t) ∧ v.HasKey byText k := by
  cases byText with
  | true =>
    obtain ⟨o, u, hread, h⟩ := exec_bind_eq_ok h
    cases h
    obtain ⟨v, hx, htext⟩ := exec_bind_lift_ok hread
    refine ⟨v, hx, o, rfl, htext, ?_⟩
    rw [← Value.toText_eq_none, htext, Except.ok.injEq]
  | false =>
    obtain ⟨o, u, hread, h⟩ := exec_bind_eq_ok h
    cases h
    obtain ⟨v, hx, hdouble⟩ := exec_bind_lift_ok hread
    refine ⟨v, hx, o, rfl, hdouble, ?_⟩
    rw [← Value.toDouble_eq_none, hdouble, Except.ok.injEq]

/-- A key that is settled is that of a settled value. -/
theorem Settles.of_sortKey {κ : List Member} (hx : Replays env x)
    (h : Settles env (sortKey byText x) κ s t k) :
    ∃ v, Settles env x κ s t v ∧ v.HasKey byText k := by
  obtain ⟨⟨u, w, hu, hcontext, hexec, hw⟩, -⟩ := h
  obtain ⟨v, hv, hkey⟩ := exec_sortKey_ok hexec
  exact ⟨v, hx.settles hu hcontext hv hw, hkey⟩

end EvalM

/-! ## Calls of `Order` -/

theorem Expr.eq_of_symbol? {e : Expr} {w : String} (h : e.symbol? = some w) :
    e = .literal (.symbol w) := by
  unfold symbol? at h
  split at h <;> cases h
  rfl

namespace BoundCall

variable {cube : Cube} {d : Definition} {type : ExprType} {args : List Expr} {k : Nat}
  {styles : List ResultStyle}

theorem operand_eq_ok {o : Operand} :
    operand ⟨d, type, Expr.operands cube args⟩ k = .ok o ↔
      ∃ e, args[k]? = some e ∧ e.toOperand cube = o := by
  rw [operand, Expr.operands_eq_map, List.getElem?_map]
  cases args[k]? <;> simp

/-- What stands for a word is a symbol, or nothing. -/
theorem word?_eq_ok {word : Option String} :
    word? ⟨d, type, Expr.operands cube args⟩ k = .ok word ↔ ∃ w : Option String,
      args[k]? = w.map (fun w => .literal (.symbol w)) ∧ word = w.map String.toUpper := by
  rw [word?, Expr.operands_eq_map, List.getElem?_map]
  rcases args[k]? with _ | e
  · simp [eq_comm]
  · cases hsymbol : e.symbol? with
    | none =>
      have hno (w : String) : .literal (.symbol w) ≠ e := by
        rintro rfl
        cases hsymbol
      simp [Expr.toOperand, hsymbol, hno]
    | some w =>
      obtain rfl := Expr.eq_of_symbol? hsymbol
      simp [Expr.toOperand, hsymbol, eq_comm]

theorem sortMode_eq_ok {c : BoundCall} {mode : SortMode} :
    c.sortMode = .ok mode ↔ ∃ word, c.word? 2 = .ok word ∧ mode.For word := by
  rw [sortMode, bind_eq_ok]
  refine exists_congr fun word => and_congr_right fun _ => ?_
  rcases word with _ | word
  · constructor
    · rintro ⟨⟩
      exact .unsaid
    · rintro ⟨⟩
      rfl
  · rw [← SortMode.ofWord?_eq_some]
    dsimp only
    cases SortMode.ofWord? word with
    | none => simp [throw, throwThe, MonadExceptOf.throw]
    | some _ => simp [pure, Except.pure]

theorem sorted_eq_ok {mode : SortMode} {c : Calc} :
    sorted ⟨d, type, Expr.operands cube args⟩ styles mode = .ok c ↔ ∃ set key,
      (∃ e, args[0]? = some e ∧ (e.toOperand cube).list styles = .ok set) ∧
      (∃ e, args[1]? = some e ∧ (if d.sortsTexts then (e.toOperand cube).scalar styles
        else (e.toOperand cube).double styles) = .ok key) ∧
      c = ((Calc.plain "Order" type (.order mode d.sortsTexts) [set, key]).withStyle
        .mutableList).withRule .allButFirst := by
  constructor
  · intro h
    obtain ⟨o, ho, h⟩ := bind_eq_ok.1 h
    obtain ⟨set, hset, h⟩ := bind_eq_ok.1 h
    obtain ⟨o', ho', h⟩ := bind_eq_ok.1 h
    obtain ⟨e, he, rfl⟩ := operand_eq_ok.1 ho
    obtain ⟨e', he', rfl⟩ := operand_eq_ok.1 ho'
    dsimp only at h
    split at h
    · rename_i htext
      obtain ⟨key, hkey, h⟩ := bind_eq_ok.1 h
      cases h
      exact ⟨set, key, ⟨e, he, hset⟩, ⟨e', he', (if_pos htext).trans hkey⟩, rfl⟩
    · rename_i hnumber
      obtain ⟨key, hkey, h⟩ := bind_eq_ok.1 h
      cases h
      exact ⟨set, key, ⟨e, he, hset⟩, ⟨e', he', (if_neg hnumber).trans hkey⟩, rfl⟩
  · rintro ⟨set, key, ⟨e, he, hset⟩, ⟨e', he', hkey⟩, rfl⟩
    refine bind_eq_ok.2 ⟨_, operand_eq_ok.2 ⟨e, he, rfl⟩, bind_eq_ok.2 ⟨set, hset, ?_⟩⟩
    refine bind_eq_ok.2 ⟨_, operand_eq_ok.2 ⟨e', he', rfl⟩, ?_⟩
    split at hkey
    · rename_i htext
      exact (if_pos htext).trans (bind_eq_ok.2 ⟨key, hkey, rfl⟩)
    · rename_i hnumber
      exact (if_neg hnumber).trans (bind_eq_ok.2 ⟨key, hkey, rfl⟩)

end BoundCall

namespace Expr

variable {cube : Cube} {d : Definition} {type : ExprType} {args : List Expr}
  {styles : List ResultStyle}

/-- A call of `Order` compiles if it has all its parts, and to a sort in the mode that its word asks
for. -/
theorem compile_order (hbody : d.body = .order) {c : Calc} :
    (Expr.bound d type args).compile cube styles = .ok c ↔
      ∃ word mode set key, SortCall cube d args styles word mode set key ∧
        c = ((Calc.plain "Order" type (.order mode d.sortsTexts) [set, key]).withStyle
          .mutableList).withRule .allButFirst := by
  have hcompile : (Expr.bound d type args).compile cube styles =
      BoundCall.order ⟨d, type, operands cube args⟩ styles := by
    rw [compile, BoundCall.compile, hbody]
  rw [hcompile, BoundCall.order_eq, bind_eq_ok]
  simp only [BoundCall.sortMode_eq_ok, BoundCall.word?_eq_ok, BoundCall.sorted_eq_ok]
  constructor
  · rintro ⟨mode, ⟨word, hword, hmode⟩, set, key, hset, hkey, rfl⟩
    exact ⟨word, mode, set, key, ⟨hset, hkey, hword, hmode⟩, rfl⟩
  · rintro ⟨word, mode, set, key, ⟨hset, hkey, hword, hmode⟩, rfl⟩
    exact ⟨mode, ⟨word, hword, hmode⟩, set, key, hset, hkey, rfl⟩

/-- A call has these parts only. -/
theorem SortCall.unique {word word' : Option String} {mode mode' : SortMode} {set set' key key' : Calc}
    (h : SortCall cube d args styles word mode set key)
    (h' : SortCall cube d args styles word' mode' set' key') :
    word = word' ∧ mode = mode' ∧ set = set' ∧ key = key' := by
  obtain ⟨⟨e, he, hset⟩, ⟨f, hf, hkey⟩, ⟨w, hw, rfl⟩, hmode⟩ := h
  obtain ⟨⟨e', he', hset'⟩, ⟨f', hf', hkey'⟩, ⟨w', hw', rfl⟩, hmode'⟩ := h'
  obtain rfl : e = e' := Option.some.inj (he.symm.trans he')
  obtain rfl : f = f' := Option.some.inj (hf.symm.trans hf')
  have hsymbol : Function.Injective fun w => Expr.literal (.symbol w) := by
    rintro w w' ⟨⟩
    rfl
  obtain rfl : w = w' := Option.map_injective hsymbol (hw.symm.trans hw')
  exact ⟨rfl, hmode.unique hmode', Except.ok.inj (hset.symm.trans hset'),
    Except.ok.inj (hkey.symm.trans hkey')⟩

/-- A call of `Order` compiles if and only if its set and its sort expression do and no other word than
those for the modes stands after them. If the set then gives a list of members of one hierarchy, any
number of times each, and the sort expression can be evaluated with each of them current, and with their
ancestors if the sort is along the hierarchy, then the call gives the members in the order that the word
asks for. The key of a member is that of the value which the sort expression has with the member
current. -/
theorem order_arranged {env : Environment} (hcube : env.cube.Built) (hbody : d.body = .order) :
    ((∃ c, (Expr.bound d type args).compile env.cube styles = .ok c) ↔
      ∃ word mode set key, SortCall env.cube d args styles word mode set key) ∧
    ∀ (c : Calc) (word : Option String) (mode : SortMode) (set key : Calc),
      (Expr.bound d type args).compile env.cube styles = .ok c →
      SortCall env.cube d args styles word mode set key →
      ∀ (a : Address) (s t u : EvalState) (l : TupleList) (h : Hierarchy) (paths : List SortPath),
        let sortKey := EvalM.sortKey d.sortsTexts (key.evaluate (1 :: a))
        (EvalM.asList (set.evaluate (0 :: a))).exec env (EvalM.entered s) = (.ok l, t) →
          l.Legal l.limit → l.arity = 1 → h ∈ env.cube.hierarchies →
          (∀ m ∈ l.members, m ∈ h.members) →
          (EvalM.forEachRow (.list l) (EvalM.sortPath mode sortKey)).exec env t = (.ok paths, u) →
            ∃ (out : TupleList) (k : Member → SortKey),
              ((c.evaluate a).exec env s).1 = .ok (.list out) ∧ TupleList.SortedAs word k l out ∧
              ∀ m ∈ l.members, ∀ b, b = m ∨ mode.breaksHierarchy = false ∧ b ∈ m.ancestors →
                ∃ v, EvalM.Settles env (key.evaluate (1 :: a)) (t.setMember b).context t u v ∧
                  v.HasKey d.sortsTexts (k b) := by
  constructor
  · constructor
    · rintro ⟨c, hc⟩
      obtain ⟨word, mode, set, key, hparts, -⟩ := (compile_order hbody).1 hc
      exact ⟨word, mode, set, key, hparts⟩
    · rintro ⟨word, mode, set, key, hparts⟩
      exact ⟨_, (compile_order hbody).2 ⟨word, mode, set, key, hparts, rfl⟩⟩
  intro c word mode set key hc hparts a s t u l h paths sortKey hset hlegal harity hh hmembers hkeys
  obtain ⟨word', mode', set', key', hparts', rfl⟩ := (compile_order hbody).1 hc
  obtain ⟨rfl, rfl, rfl, rfl⟩ := hparts.unique hparts'
  have hdepth : s.depth < env.config.maxEvalDepth := by
    by_contra hdeep
    have hlevel : env.config.maxEvalDepth ≤ (EvalM.entered s).depth :=
      Nat.le_succ_of_le (Nat.not_lt.1 hdeep)
    rw [EvalM.asList, EvalM.exec_bind_error (set.exec_evaluate_limited (0 :: a) hlevel)] at hset
    cases hset
  have hvalues := key.evaluate_replays env (1 :: a)
  obtain ⟨out, k, hsort, hsorted, hsettles⟩ := EvalM.exec_sort hcube hh hparts.asks hlegal harity
    hmembers (EvalM.replays_sortKey hvalues d.sortsTexts) hkeys
  refine ⟨out, k, ?_, hsorted, fun m hm b hb => ?_⟩
  · have hrun : (Operation.run a (.order mode d.sortsTexts) (Calc.evaluations a 0 [set, key])).exec
        env (EvalM.entered s) = (.ok (.list out), u) := by
      rw [Calc.evaluations, Calc.evaluations, Calc.evaluations, Operation.run_order,
        EvalM.exec_bind_ok hset, EvalM.exec_bind_ok hsort]
      rfl
    show ((Calc.evaluate a (.node _ (.order mode d.sortsTexts) [set, key])).exec env s).1 = _
    rw [Calc.evaluate, EvalM.exec_calculation a _ hdepth, hrun]
  · exact (hsettles m hm b (mode.mem_way.2 hb)).of_sortKey hvalues

end Expr

theorem Calc.asList_keeps {env : Environment} {D : Domain} {c : Calc} (hD : D.Closed env.cube)
    (henv : env.Within D) (hc : c.Within D) (a : Address) :
    EvalM.Keeps env D (EvalM.asList (c.evaluate a)) (TupleList.Within D) := by
  have hlist : EvalM.Matched env D True (fun x _ => x = c.evaluate a) (EvalM.asList (c.evaluate a))
      (EvalM.asList (c.evaluate a)) (TupleList.Within D) := .asList (.given rfl)
  have hgiven (x y : EvalM Value) (hx : x = c.evaluate a) : EvalM.Keeps env D x (Value.Within D) := by
    rw [hx]
    exact evaluate_keeps hD henv hc a
  exact .of_composed (fun _ h => h) (hlist.composed hgiven)

/-- An evaluation starts with the default members, which are members of the cube. -/
theorem EvalState.within_start (c : Cube) (reader : CellReader) (execution : Execution) :
    (EvalM.entered (.start c reader execution)).Within (Domain.ofCube c) := by
  refine ⟨(Cube.coordinate_defaultMembers c).within, fun k v h => ?_⟩
  simp [EvalM.entered, EvalState.start] at h

namespace Sample

/-- The years and quarters of two calendars, with the amount behind them. -/
def date (k : Nat) : Member := (calendarCube.hierarchies.flatMap Hierarchy.members)[k]?.getD amount

def datesEnvironment : Environment := ⟨calendarCube, {}, []⟩

theorem cube_datesEnvironment : datesEnvironment.cube = calendarCube := by
  rw [datesEnvironment]

theorem datesEnvironment_built : datesEnvironment.cube.Built := by
  rw [cube_datesEnvironment]
  exact calendarCube_built

def datesStart : EvalState := .start calendarCube (.memory [⟨[date 2, date 5], 5⟩]) {}

/-- `Order({[Time].[1997].[Q1], [Time].[1997], [Time].[1997].[Q1]}, [Measures].[Amount], DESC)` -/
def sortedDates : Expr := .call "Order" .function
  [.call "\x7b\x7d" .braces [.member (date 2), .member (date 1), .member (date 2)], .member (date 5),
    .literal (.symbol "DESC")]

def isDescendingOrder : Expr → Bool
  | .bound d _ args => d.body == .order && args[2]?.bind Expr.symbol? == some "DESC"
  | _ => false

/-- The set has given a list of members of the first calendar, which all have keys. -/
def allKeyed (mode : SortMode) (key : EvalM SortKey) : Except CalcError TupleList × EvalState → Bool
  | (.ok l, t) =>
    l.arity == 1 && l.limit == 0 && l.members.size == l.size * l.arity && l.size == 3 &&
      l.members.toList.all (·.hierarchyOrdinal == 0) &&
      ((EvalM.forEachRow (.list l) (EvalM.sortPath mode key)).exec
        datesEnvironment t).1.toOption.isSome
  | (.error _, _) => false

def sortsDates : Calc → Bool
  | .node _ (.order mode byText) [set, key] =>
    allKeyed mode (EvalM.sortKey byText (key.evaluate [1, 0]))
      ((EvalM.asList (set.evaluate [0, 0])).exec datesEnvironment (EvalM.entered datesStart))
  | _ => false

def namesOf : Except CalcError Value → List String
  | .ok (.list l) => l.members.toList.map (·.name)
  | _ => []

theorem sortedDates_checks :
    isValidSet sortedDates = true ∧ isDescendingOrder (bindings sortedDates) = true ∧
    ((bindings sortedDates).compile calendarCube [.list]).toOption.map (fun c => (sortsDates c,
      namesOf ((c.evaluate [0]).exec datesEnvironment datesStart).1)) =
        some (true, ["1997", "Q1", "Q1"]) ∧
      (calendarCube.hierarchies.flatMap Hierarchy.members).length = 6 ∧
        calendarCube.hierarchies[0]?.isSome = true := by
  decide +kernel

theorem date_within {k : Nat} (hk : k < 6) : (Domain.ofCube calendarCube).member (date k) := by
  have hget : date k ∈ calendarCube.hierarchies.flatMap Hierarchy.members := by
    rw [date, List.getElem?_eq_getElem (sortedDates_checks.2.2.2.1 ▸ hk)]
    exact List.getElem_mem _
  exact List.mem_flatMap.1 hget

theorem sortedDates_within : sortedDates.Within (Domain.ofCube calendarCube) :=
  ⟨⟨date_within (by decide), date_within (by decide), date_within (by decide), trivial⟩,
    date_within (by decide), trivial, trivial⟩

theorem datesEnvironment_within : datesEnvironment.Within (Domain.ofCube calendarCube) := by
  rintro p ⟨⟩

theorem list_within {set : Calc} (hset : set.Within (Domain.ofCube calendarCube)) {a : Address}
    {l : TupleList} {t : EvalState}
    (hlist : (EvalM.asList (set.evaluate a)).exec datesEnvironment (EvalM.entered datesStart) =
      (.ok l, t)) : l.Within (Domain.ofCube calendarCube) := by
  have hclosed : (Domain.ofCube calendarCube).Closed datesEnvironment.cube := by
    rw [cube_datesEnvironment]
    exact calendarCube_built.regular.closed
  have hends := set.asList_keeps hclosed datesEnvironment_within hset a (EvalM.entered datesStart)
    (EvalState.within_start calendarCube _ _)
  rw [hlist] at hends
  exact hends.result l rfl

/-- A list of members of the cube, of which all have the first hierarchy, holds members of that. -/
theorem mem_members_of_ordinal {l : TupleList} (hl : l.Within (Domain.ofCube calendarCube))
    (hfirst : l.members.toList.all (·.hierarchyOrdinal == 0) = true) {h : Hierarchy}
    (hh : calendarCube.hierarchies[0]? = some h) : ∀ m ∈ l.members, m ∈ h.members := by
  intro m hm
  obtain ⟨h', hh', hm'⟩ := hl m hm
  have hordinal := eq_of_beq (List.all_eq_true.1 hfirst m (Array.mem_toList_iff.2 hm))
  have hget := calendarCube_built.regular.getElem?_hierarchyOrdinal hh' hm'
  rw [hordinal, hh] at hget
  cases hget
  exact hm'

/-- A quarter, its year, and the quarter again are sorted along the calendar, downwards. -/
theorem order_arranged_dates : datesEnvironment.cube.Built ∧
    ∃ (d : Definition) (type : ExprType) (args : List Expr) (c : Calc) (l out : TupleList)
      (k : Member → SortKey),
      bindings sortedDates = .bound d type args ∧ d.body = .order ∧
        (Expr.bound d type args).compile datesEnvironment.cube [.list] = .ok c ∧
        ((c.evaluate [0]).exec datesEnvironment datesStart).1 = .ok (.list out) ∧ l.size = 3 ∧
        TupleList.SortedAs (some "DESC") k l out ∧
        out.members.toList.map (·.name) = ["1997", "Q1", "Q1"] := by
  obtain ⟨hvalidSet, hcall, hcompiles, -, hhierarchy⟩ := sortedDates_checks
  obtain ⟨c, hc, hboth⟩ := exists_ok_of_map hcompiles
  obtain ⟨hsorts, hnames⟩ := Prod.mk.inj hboth
  have hvalid := (validate_bindings hvalidSet).1
  have hformed := Expr.compile_formed_of_unbound rfl sortedDates_within hvalid hc
  unfold isDescendingOrder at hcall
  split at hcall
  · rename_i d type args hbound
    rw [Bool.and_eq_true, beq_iff_eq, beq_iff_eq] at hcall
    obtain ⟨hbody, hsymbol⟩ := hcall
    rw [hbound, ← cube_datesEnvironment] at hc
    obtain ⟨-, hrun⟩ := Expr.order_arranged datesEnvironment_built hbody
    obtain ⟨word, mode, set, key, hparts, rfl⟩ := (Expr.compile_order hbody).1 hc
    obtain rfl : word = some "DESC" := by
      obtain ⟨w, hargs, rfl⟩ := hparts.third
      rw [hargs] at hsymbol
      have hw : w = some "DESC" := by
        rcases w with _ | w
        · cases hsymbol
        · exact hsymbol
      rw [hw]
      decide +kernel
    have hset : set.Within (Domain.ofCube calendarCube) :=
      (hformed.child set List.mem_cons_self).mono fun _ h => h.within
    rcases hlist : (EvalM.asList (set.evaluate [0, 0])).exec datesEnvironment
      (EvalM.entered datesStart) with ⟨e | l, t⟩
    · change allKeyed _ _ ((EvalM.asList (set.evaluate [0, 0])).exec _ _) = true at hsorts
      rw [hlist] at hsorts
      cases hsorts
    change allKeyed _ _ ((EvalM.asList (set.evaluate [0, 0])).exec _ _) = true at hsorts
    rw [hlist, allKeyed] at hsorts
    simp only [Bool.and_eq_true, beq_iff_eq] at hsorts
    obtain ⟨⟨⟨⟨⟨harity, hlimit⟩, hwhole⟩, hsize⟩, hfirst⟩, hsome⟩ := hsorts
    rcases hpaths : (EvalM.forEachRow (.list l) (EvalM.sortPath mode (EvalM.sortKey d.sortsTexts
      (key.evaluate [1, 0])))).exec datesEnvironment t with ⟨e | paths, u⟩
    · rw [hpaths] at hsome
      cases hsome
    have hlegal : l.Legal l.limit := ⟨hwhole, rfl, fun hpos => absurd hlimit (Nat.ne_of_gt hpos)⟩
    have hwithin : l.Within (Domain.ofCube calendarCube) := list_within hset hlist
    obtain ⟨h, hh⟩ := Option.isSome_iff_exists.1 hhierarchy
    have hmem : h ∈ datesEnvironment.cube.hierarchies := by
      rw [cube_datesEnvironment]
      exact List.mem_of_getElem? hh
    obtain ⟨out, k, hout, hsorted, -⟩ := hrun _ _ mode set key hc hparts [0] datesStart t u l h paths
      hlist hlegal harity hmem (mem_members_of_ordinal hwithin hfirst hh) hpaths
    rw [hout] at hnames
    exact ⟨datesEnvironment_built, d, type, args, _, l, out, k, hbound, hbody, hc, hout, hsize,
      hsorted, hnames⟩
  · cases hcall

end Sample

end Olap
