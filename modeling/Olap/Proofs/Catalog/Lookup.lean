import Olap.Proofs.Catalog.Names
import Olap.Proofs.Catalog.Positions

/-!
# Finding members by their unique names

Within a hierarchy every member is found by its unique name. In a cube the member of the last hierarchy
that has the name is found, so one member can stand before another: all are found if and only if no two
of them share a unique name (`Cube.Built.member_lookup`). Unique names are paths of names in brackets,
which can be read back as long as no name holds a closing bracket (`pathText_inj`). Then members share a
unique name only where one of them stands below a member that is named like a hierarchy.
-/

set_option autoImplicit false

namespace Olap

/-! ## Reading paths of names back -/

/-- A path of names as a text: each in brackets, after a dot. -/
def pathText (path : List String) : List Char := path.flatMap fun n => '.' :: '[' :: n.toList ++ [']']

/-- A name that holds no closing bracket. -/
def PlainName (name : String) : Prop := ']' ∉ name.toList

instance (name : String) : Decidable (PlainName name) := inferInstanceAs (Decidable (_ ∉ _))

theorem append_closing_inj {n n' r r' : List Char} (hn : ']' ∉ n) (hn' : ']' ∉ n')
    (h : n ++ ']' :: r = n' ++ ']' :: r') : n = n' ∧ r = r' := by
  induction n generalizing n' with
  | nil =>
    rcases n' with _ | ⟨c, n'⟩
    · exact ⟨rfl, List.tail_eq_of_cons_eq h⟩
    · exact absurd (List.head_eq_of_cons_eq h) fun hc => hn' (hc ▸ List.mem_cons_self)
  | cons c n ih =>
    rcases n' with _ | ⟨c', n'⟩
    · exact absurd (List.head_eq_of_cons_eq h) fun hc => hn (hc ▸ List.mem_cons_self)
    · obtain ⟨rfl, hrest⟩ := List.cons_eq_cons.1 h
      obtain ⟨rfl, rfl⟩ := ih (fun hm => hn (List.mem_cons_of_mem _ hm))
        (fun hm => hn' (List.mem_cons_of_mem _ hm)) hrest
      exact ⟨rfl, rfl⟩

/-- Plain names can be read back from the text of their path. -/
theorem pathText_inj {p q : List String} (hp : ∀ n ∈ p, PlainName n) (hq : ∀ n ∈ q, PlainName n)
    (h : pathText p = pathText q) : p = q := by
  induction p generalizing q with
  | nil =>
    cases q with
    | nil => rfl
    | cons n q => cases h
  | cons n p ih =>
    cases q with
    | nil => cases h
    | cons n' q =>
      obtain ⟨hn, hp⟩ := List.forall_mem_cons.1 hp
      obtain ⟨hn', hq⟩ := List.forall_mem_cons.1 hq
      have htexts : n.toList ++ ']' :: pathText p = n'.toList ++ ']' :: pathText q := by
        simpa [pathText] using h
      obtain ⟨hname, hrest⟩ := append_closing_inj hn hn' htexts
      rw [String.toList_inj.1 hname, ih hp hq hrest]

theorem pathText_append (p q : List String) : pathText (p ++ q) = pathText p ++ pathText q :=
  List.flatMap_append

theorem toList_bracketed (top name : String) :
    s!"{top}.[{name}]".toList = top.toList ++ pathText [name] := by
  simp [toString, pathText]

/-! ## The paths of members -/

namespace Cube

variable {c : Cube} {h : Hierarchy} {m : Member}

/-- The unique name of a member goes on from that of its hierarchy by the names on its path. -/
theorem WellNamed.exists_path (hn : c.WellNamed) (hc : c.Regular) (hh : h ∈ c.hierarchies)
    (hm : m ∈ h.members) : ∃ n rest, (∀ k ∈ n :: rest, ∃ a ∈ h.members, k = a.name) ∧
      m.uniqueName.toList = h.uniqueName.toList ++ pathText (n :: rest) ∧
      (rest ≠ [] → ∃ a ∈ h.members, a.uniqueName.toList = h.uniqueName.toList ++ pathText [n]) := by
  -- by induction on the ancestors: the path of the parent is that of the member without its end
  generalize hlineage : m.lineage = lineage
  induction lineage generalizing m with
  | nil =>
    have hname := hn.member h hh m hm
    rw [hlineage] at hname
    refine ⟨m.name, [], List.forall_mem_singleton.2 ⟨m, hm, rfl⟩, ?_, fun hne => absurd rfl hne⟩
    rw [hname, toList_bracketed]
    rfl
  | cons p above ih =>
    have hname := hn.member h hh m hm
    rw [hlineage, nameAbove] at hname
    have hp : (⟨p, above⟩ : Member) ∈ h.members := by
      refine (hc.hierarchy h hh).ancestors m hm _ ?_
      rw [Member.ancestors, hlineage, Member.ofLineage]
      exact List.mem_cons_self
    split at hname
    · refine ⟨m.name, [], List.forall_mem_singleton.2 ⟨m, hm, rfl⟩, ?_, fun hne => absurd rfl hne⟩
      rw [hname, toList_bracketed]
    · obtain ⟨n, rest, hnames, hpath, hfirst⟩ := ih hp rfl
      refine ⟨n, rest ++ [m.name], ?_, ?_, fun _ => ?_⟩
      · rw [← List.cons_append]
        exact List.forall_mem_append.2 ⟨hnames, List.forall_mem_singleton.2 ⟨m, hm, rfl⟩⟩
      · rw [hname, toList_bracketed, hpath, List.append_assoc, ← pathText_append]
        rfl
      · rcases rest with _ | ⟨k, rest⟩
        · exact ⟨_, hp, hpath⟩
        · exact hfirst (List.cons_ne_nil k rest)

/-- All names in a cube are plain. -/
structure PlainNames (c : Cube) : Prop where
  dimension : ∀ d ∈ c.dimensions, PlainName d.name
  hierarchy : ∀ h ∈ c.hierarchies, PlainName h.name
  member : ∀ h ∈ c.hierarchies, ∀ m ∈ h.members, PlainName m.name

/-- No two members share a unique name. -/
def MembersDistinct (c : Cube) : Prop :=
  ∀ h ∈ c.hierarchies, ∀ m ∈ h.members, ∀ k ∈ c.hierarchies, ∀ n ∈ k.members,
    m.uniqueName = n.uniqueName → m = n

/-- No member has the unique name of a hierarchy. -/
def MembersApart (c : Cube) : Prop :=
  ∀ h ∈ c.hierarchies, ∀ m ∈ h.members, ∀ k ∈ c.hierarchies, m.uniqueName ≠ k.uniqueName

theorem WellNamed.hierarchy_path (hn : c.WellNamed) {d : Dimension} (hd : d ∈ c.dimensions)
    (hh : h ∈ d.hierarchies) : ∃ p, (p = [] ∨ p = [h.name]) ∧
      '.' :: h.uniqueName.toList = pathText (d.name :: p) := by
  rcases hn.hierarchy d hd h hh with hname | hname
  · exact ⟨[], .inl rfl, by simp [hname, toString, pathText]⟩
  · exact ⟨[h.name], .inr rfl, by simp [hname, toString, pathText]⟩

/-- Where the hierarchy `k` is named like a member of `h` would be, no path in `h` goes on from there. -/
theorem MembersApart.path_eq_nil (hapart : c.MembersApart) {k : Hierarchy}
    (hh : h ∈ c.hierarchies) (hk : k ∈ c.hierarchies) {top n : String} {rest : List String}
    (hhp : '.' :: h.uniqueName.toList = pathText [top])
    (hkp : '.' :: k.uniqueName.toList = pathText [top, n])
    (hfirst : rest ≠ [] → ∃ a ∈ h.members, a.uniqueName.toList = h.uniqueName.toList ++ pathText [n]) :
    rest = [] := by
  by_contra hne
  obtain ⟨a, ha, hname⟩ := hfirst hne
  refine hapart h hh a ha k hk (String.toList_inj.1 ?_)
  have htexts : '.' :: a.uniqueName.toList = '.' :: k.uniqueName.toList := by
    rw [hname, ← List.cons_append, hhp, hkp, ← pathText_append]
    rfl
  exact List.tail_eq_of_cons_eq htexts

/-- Where names are plain, a member is reached by a path of plain names from its dimension: `p` leads to
its hierarchy and `n :: rest` on to the member. -/
theorem PlainNames.exists_path (hplain : c.PlainNames) (hn : c.WellNamed) (hc : c.Regular)
    {d : Dimension} (hd : d ∈ c.dimensions) (hh : h ∈ d.hierarchies) (hm : m ∈ h.members) :
    ∃ p n rest, (∀ l ∈ d.name :: (p ++ n :: rest), PlainName l) ∧
      (p = [] ∨ p = [h.name]) ∧ '.' :: h.uniqueName.toList = pathText (d.name :: p) ∧
      '.' :: m.uniqueName.toList = pathText (d.name :: (p ++ n :: rest)) ∧
      (rest ≠ [] → ∃ a ∈ h.members, a.uniqueName.toList = h.uniqueName.toList ++ pathText [n]) := by
  have hhc : h ∈ c.hierarchies := List.mem_flatMap.2 ⟨d, hd, hh⟩
  obtain ⟨p, hp, hhp⟩ := hn.hierarchy_path hd hh
  obtain ⟨n, rest, hnames, hpath, hfirst⟩ := hn.exists_path hc hhc hm
  refine ⟨p, n, rest, ?_, hp, hhp, ?_, hfirst⟩
  · refine List.forall_mem_cons.2 ⟨hplain.dimension d hd, List.forall_mem_append.2 ⟨?_, ?_⟩⟩
    · rcases hp with rfl | rfl
      · exact List.forall_mem_nil _
      · exact List.forall_mem_singleton.2 (hplain.hierarchy h hhc)
    · intro l hl
      obtain ⟨a, ha, rfl⟩ := hnames l hl
      exact hplain.member h hhc a ha
  · rw [hpath, ← List.cons_append, hhp, ← pathText_append]
    rfl

/-- Plain names tell members apart, as long as none of them is named like a hierarchy. -/
theorem WellNamed.membersDistinct (hn : c.WellNamed) (hc : c.Regular) (hplain : c.PlainNames)
    (hapart : c.MembersApart) : c.MembersDistinct := by
  intro h hh m hm k hk m' hm' heq
  suffices hhk : h = k by
    subst hhk
    exact hc.member_eq hh hm hm' heq
  obtain ⟨d, hd, hhd⟩ := List.mem_flatMap.1 hh
  obtain ⟨e, he, hke⟩ := List.mem_flatMap.1 hk
  obtain ⟨p, n, rest, hnames, hp, hhp, hpath, hfirst⟩ := hplain.exists_path hn hc hd hhd hm
  obtain ⟨q, n', rest', hnames', hq, hkp, hpath', hfirst'⟩ := hplain.exists_path hn hc he hke hm'
  rw [heq, hpath'] at hpath
  obtain ⟨hdims, hpaths⟩ := List.cons_eq_cons.1 (pathText_inj hnames' hnames hpath)
  have hde : d = e := List.inj_on_of_nodup_map hn.dimensions hd he hdims.symm
  subst hde
  -- hierarchies of one dimension are the same if their paths are
  have hsame (hpq : p = q) : h = k := by
    subst hpq
    refine List.inj_on_of_nodup_map (hn.hierarchies d hd) hhd hke (String.toList_inj.1 ?_)
    exact List.tail_eq_of_cons_eq (hhp.trans hkp.symm)
  rcases hp with rfl | rfl <;> rcases hq with rfl | rfl
  · exact hsame rfl
  · obtain ⟨rfl, rfl⟩ := List.cons_eq_cons.1 hpaths
    exact absurd (hapart.path_eq_nil hh hk hhp hkp hfirst) (List.cons_ne_nil n' rest')
  · obtain ⟨rfl, rfl⟩ := List.cons_eq_cons.1 hpaths
    exact absurd (hapart.path_eq_nil hk hh hkp hhp hfirst') (List.cons_ne_nil n rest)
  · exact hsame (by rw [(List.cons_eq_cons.1 hpaths).1])

end Cube

/-! ## Finding members -/

theorem Hierarchy.Regular.member?_uniqueName {h : Hierarchy} (hr : h.Regular) {m : Member}
    (hm : m ∈ h.members) : h.member? m.uniqueName = some m := by
  rcases hfound : h.member? m.uniqueName with _ | n
  · exact absurd (beq_self_eq_true m.uniqueName) (List.find?_eq_none.1 hfound m hm)
  · have hname : (n.uniqueName == m.uniqueName) = true :=
      List.find?_some (p := fun k : Member => k.uniqueName == m.uniqueName) hfound
    rw [List.inj_on_of_nodup_map hr.names (List.mem_of_find?_eq_some hfound) hm (eq_of_beq hname)]

theorem Hierarchy.member?_eq_some {h : Hierarchy} {name : String} {m : Member}
    (hm : h.member? name = some m) : m ∈ h.members ∧ m.uniqueName = name := by
  have hname : (m.uniqueName == name) = true :=
    List.find?_some (p := fun k : Member => k.uniqueName == name) hm
  exact ⟨List.mem_of_find?_eq_some hm, eq_of_beq hname⟩

theorem Hierarchy.member?_eq_none {h : Hierarchy} {name : String} :
    h.member? name = none ↔ ∀ m ∈ h.members, m.uniqueName ≠ name := by
  simp [member?]

namespace Cube

variable {c : Cube} {name : String} {m : Member}

/-- The member of the last hierarchy that has the name is found. -/
theorem member_eq_ok : c.member name = .ok m ↔ ∃ before h after,
    c.hierarchies = before ++ h :: after ∧ h.member? name = some m ∧
      ∀ k ∈ after, k.member? name = none := by
  have hfound : c.member name = .ok m ↔
      c.hierarchies.reverse.findSome? (·.member? name) = some m := by
    unfold member
    split
    · rename_i n hn
      rw [hn, Except.ok.injEq, Option.some.injEq]
    · rename_i hnone
      rw [hnone]
      exact ⟨nofun, nofun⟩
  rw [hfound, List.findSome?_eq_some_iff]
  constructor
  · rintro ⟨after, h, before, hsplit, hm, hafter⟩
    refine ⟨before.reverse, h, after.reverse, ?_, hm, fun k hk => hafter k (List.mem_reverse.1 hk)⟩
    rw [← List.reverse_reverse c.hierarchies, hsplit]
    simp
  · rintro ⟨before, h, after, hsplit, hm, hafter⟩
    refine ⟨after.reverse, h, before.reverse, ?_, hm, fun k hk => hafter k (List.mem_reverse.1 hk)⟩
    rw [hsplit]
    simp

/-- The hierarchies after one are those of higher ordinals. -/
theorem Regular.mem_after (hc : c.Regular) {before after : List Hierarchy} {h : Hierarchy}
    (hsplit : c.hierarchies = before ++ h :: after) {k : Hierarchy} :
    k ∈ after ↔ k ∈ c.hierarchies ∧ h.ordinal < k.ordinal := by
  have hordinal : h.ordinal = before.length := by
    refine hc.ordinal before.length h ?_
    rw [hsplit, List.getElem?_append_right (Nat.le_refl _), Nat.sub_self]
    rfl
  have hat (i : Nat) : c.hierarchies[before.length + (i + 1)]? = after[i]? := by
    rw [hsplit, List.getElem?_append_right (Nat.le_add_right _ _), Nat.add_sub_cancel_left]
    rfl
  constructor
  · intro hk
    obtain ⟨i, hi⟩ := List.getElem?_of_mem hk
    rw [← hat] at hi
    have hk := hc.ordinal _ k hi
    exact ⟨List.mem_of_getElem? hi, by omega⟩
  · rintro ⟨hk, hlt⟩
    obtain ⟨j, hj⟩ := List.getElem?_of_mem hk
    have hk := hc.ordinal j k hj
    obtain ⟨i, rfl⟩ : ∃ i, j = before.length + (i + 1) := ⟨j - before.length - 1, by omega⟩
    rw [hat] at hj
    exact List.mem_of_getElem? hj

theorem Regular.member_eq_ok (hc : c.Regular) : c.member name = .ok m ↔
    ∃ h ∈ c.hierarchies, h.member? name = some m ∧
      ∀ k ∈ c.hierarchies, h.ordinal < k.ordinal → ∀ n ∈ k.members, n.uniqueName ≠ name := by
  rw [Cube.member_eq_ok]
  constructor
  · rintro ⟨before, h, after, hsplit, hm, hafter⟩
    refine ⟨h, by rw [hsplit]; simp, hm, fun k hk hlt => ?_⟩
    exact Hierarchy.member?_eq_none.1 (hafter k ((hc.mem_after hsplit).2 ⟨hk, hlt⟩))
  · rintro ⟨h, hh, hm, hlater⟩
    obtain ⟨before, after, hsplit⟩ := List.append_of_mem hh
    refine ⟨before, h, after, hsplit, hm, fun k hk => ?_⟩
    obtain ⟨hk, hlt⟩ := (hc.mem_after hsplit).1 hk
    exact Hierarchy.member?_eq_none.2 (hlater k hk hlt)

/-- The cube finds a member by any name that one of its hierarchies has, there or in a later one. -/
theorem Regular.exists_member (hc : c.Regular) {h : Hierarchy} (hh : h ∈ c.hierarchies)
    (hm : m ∈ h.members) : ∃ k ∈ c.hierarchies, ∃ n ∈ k.members, h.ordinal ≤ k.ordinal ∧
      n.uniqueName = m.uniqueName ∧ c.member m.uniqueName = .ok n := by
  rcases hfound : c.member m.uniqueName with e | n
  · have hnone : c.hierarchies.reverse.findSome? (·.member? m.uniqueName) = none := by
      unfold member at hfound
      split at hfound
      · cases hfound
      · assumption
    have hm' := List.findSome?_eq_none_iff.1 hnone h (List.mem_reverse.2 hh)
    rw [(hc.hierarchy h hh).member?_uniqueName hm] at hm'
    cases hm'
  · obtain ⟨k, hk, hn, hlater⟩ := hc.member_eq_ok.1 hfound
    obtain ⟨hn, hname⟩ := Hierarchy.member?_eq_some hn
    refine ⟨k, hk, n, hn, Nat.le_of_not_lt fun hlt => ?_, hname, rfl⟩
    exact hlater h hh hlt m hm rfl

theorem Regular.member_eq_ok_iff (hc : c.Regular) {h : Hierarchy} (hh : h ∈ c.hierarchies)
    (hm : m ∈ h.members) : c.member m.uniqueName = .ok m ↔
      ∀ k ∈ c.hierarchies, h.ordinal < k.ordinal → ∀ n ∈ k.members, n.uniqueName ≠ m.uniqueName := by
  rw [hc.member_eq_ok]
  constructor
  · rintro ⟨k, hk, hmk, hlater⟩
    have hmk := (Hierarchy.member?_eq_some hmk).1
    rwa [← (hc.hierarchy h hh).ordinal m hm, (hc.hierarchy k hk).ordinal m hmk]
  · exact fun hlater => ⟨h, hh, (hc.hierarchy h hh).member?_uniqueName hm, hlater⟩

theorem Regular.membersDistinct_iff (hc : c.Regular) :
    (∀ h ∈ c.hierarchies, ∀ m ∈ h.members, c.member m.uniqueName = .ok m) ↔ c.MembersDistinct := by
  constructor
  · intro hall h hh m hm k hk n hn heq
    have hfound := hall h hh m hm
    rw [heq, hall k hk n hn] at hfound
    exact (Except.ok.inj hfound).symm
  · intro hdistinct h hh m hm
    obtain ⟨k, hk, n, hn, -, hname, hfound⟩ := hc.exists_member hh hm
    rwa [hdistinct k hk n hn h hh m hm hname] at hfound

/-- A member of a cube that has been built stands where it says, and its hierarchy finds it by its
unique name. The cube finds it unless a later hierarchy has the name too; it finds all members if and
only if no two of them share a unique name, and so if all names are plain and no member is named
like a hierarchy. -/
theorem Built.member_lookup (hc : c.Built) :
    (∀ h ∈ c.hierarchies, ∀ m ∈ h.members,
      c.hierarchies[m.hierarchyOrdinal]? = some h ∧ h.members[m.ordinal]? = some m ∧
        h.member? m.uniqueName = some m ∧
        (c.member m.uniqueName = .ok m ↔ ∀ k ∈ c.hierarchies, h.ordinal < k.ordinal →
          ∀ n ∈ k.members, n.uniqueName ≠ m.uniqueName) ∧
        ∃ k ∈ c.hierarchies, ∃ n ∈ k.members, h.ordinal ≤ k.ordinal ∧
          n.uniqueName = m.uniqueName ∧ c.member m.uniqueName = .ok n) ∧
      ((∀ h ∈ c.hierarchies, ∀ m ∈ h.members, c.member m.uniqueName = .ok m) ↔
        c.MembersDistinct) ∧
      (c.PlainNames → c.MembersApart →
        ∀ h ∈ c.hierarchies, ∀ m ∈ h.members, c.member m.uniqueName = .ok m) := by
  have hreg := hc.regular
  refine ⟨fun h hh m hm => ?_, hreg.membersDistinct_iff, fun hplain hapart => ?_⟩
  · exact ⟨hreg.getElem?_hierarchyOrdinal hh hm, hc.getElem?_ordinal hh hm,
      (hreg.hierarchy h hh).member?_uniqueName hm, hreg.member_eq_ok_iff hh hm,
      hreg.exists_member hh hm⟩
  · exact hreg.membersDistinct_iff.2 (hc.wellNamed.membersDistinct hreg hplain hapart)

end Cube

namespace Sample

/-- Years of two calendars, which have the same name. -/
def calendars : CubeBuilder :=
  [BuildStep.dimension "Time" .time, .hierarchy "Time" none true ["Year", "Quarter"],
    .member "[Time]" none "1997", .member "[Time]" (some "[Time].[1997]") "Q1",
    .hierarchy "Time" (some "Fiscal") true ["Year"], .member "[Time].[Fiscal]" none "1997",
    .measure "Amount"].foldl .take (.empty "Sales")

def calendarCube : Cube :=
  match calendars.build with
  | .ok c => c
  | .error _ => ⟨"", []⟩

theorem calendarCube_built : calendarCube.Built := by
  have hsome : calendars.build.toOption.isSome = true := by decide +kernel
  obtain ⟨c, hc⟩ := exists_ok_of_isSome hsome
  have hcube : calendarCube = c := by rw [calendarCube, hc]
  rw [hcube]
  exact ⟨"Sales", _, hc⟩

/-- All members of both calendars are found. -/
theorem member_lookup_calendars : calendarCube.Built ∧ calendarCube.PlainNames ∧
    calendarCube.MembersApart ∧
    ∀ h ∈ calendarCube.hierarchies, ∀ m ∈ h.members, calendarCube.member m.uniqueName = .ok m := by
  have hplain : calendarCube.PlainNames := ⟨by decide +kernel, by decide +kernel, by decide +kernel⟩
  have hapart : calendarCube.MembersApart := by
    unfold Cube.MembersApart
    decide +kernel
  obtain ⟨-, -, hall⟩ := Cube.Built.member_lookup calendarCube_built
  exact ⟨calendarCube_built, hplain, hapart, hall hplain hapart⟩

/-- The hierarchy `[A].[X]` is named like a member of `[A]`, and the member below that one is named like
the member of the hierarchy. -/
def twins : CubeBuilder :=
  [BuildStep.dimension "A" .standard, .hierarchy "A" none false ["L", "M"],
    .member "[A]" none "X", .member "[A]" (some "[A].[X]") "m",
    .hierarchy "A" (some "X") false ["L"], .member "[A].[X]" none "m"].foldl .take (.empty "C")

example : (twins.build.toOption.map fun c =>
      (c.hierarchies.map fun h => h.members.map (·.uniqueName),
        (c.member "[A].[X].[m]").toOption.map (·.hierarchyOrdinal))) =
    some ([["[A].[X]", "[A].[X].[m]"], ["[A].[X].[m]"]], some 1) := by
  decide +kernel

end Sample

end Olap
