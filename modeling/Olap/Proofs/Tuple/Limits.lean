import Olap.Proofs.Tuple.Legal
import Olap.Proofs.Tuple.Rows
import Olap.Value

/-!
# Sets with and without a limit

A `Cap` is a limit on the tuples of lists. `Cap.Results K R r q` compares the result `r` that is found
under the limit with the result `q` that is found without one: either the limit refuses some number of
tuples, or both are the same error, or both are values related by `R`. `Cap.Lists`, `Cap.Sources` and
`Cap.Values` relate sets that differ at most in the limit that they carry. The operations on lists lead
from related lists to related results.

A cap may be strict; then related lists are also legal under the limit.
-/

set_option autoImplicit false

namespace Olap

/-- Whether a value is a set. -/
def Value.isSet : Value → Bool
  | list _ | iterable _ => true
  | _ => false

/-- A list has no more tuples than the limit allows. -/
def Value.Bounded (limit : Nat) : Value → Prop
  | list l => l.Legal limit
  | _ => True

namespace TupleList

/-- Appending a list is adding its tuples one after the other. -/
theorem addAll_eq_foldlM (rs : List Row) (l : TupleList) :
    (match l.addAll rs with
      | (l, none) => .ok l
      | (_, some e) => .error e) = rs.foldlM add l := by
  induction rs generalizing l with
  | nil => rfl
  | cons r rs ih =>
    rw [addAll, List.foldlM_cons]
    rcases l.add r with e | l'
    · rfl
    · exact ih l'

theorem append_eq_foldlM (l m : TupleList) : l.append m = m.rows.foldlM add l :=
  addAll_eq_foldlM m.rows l

end TupleList

/-- A limit on the tuples of lists (module doc). -/
structure Cap where
  limit : Nat
  pos : 0 < limit
  strict : Prop

namespace Cap

variable {K : Cap} {α β γ δ : Type}

/-! ## Results -/

/-- How a result under the limit compares with the result without it (module doc). -/
inductive Results (K : Cap) (R : α → β → Prop) : Except CalcError α → Except CalcError β → Prop
  | refused {n : Nat} {q : Except CalcError β} (h : K.limit < n) :
      Results K R (.error (.resourceLimitExceeded n K.limit)) q
  | error (e : CalcError) : Results K R (.error e) (.error e)
  | ok {a : α} {b : β} (h : R a b) : Results K R (.ok a) (.ok b)

namespace Results

variable {R : α → β → Prop} {Q : γ → δ → Prop} {r : Except CalcError α} {q : Except CalcError β}

theorem of_same {R : α → α → Prop} (h : ∀ a, r = .ok a → R a a) : K.Results R r r := by
  cases r with
  | ok a => exact .ok (h a rfl)
  | error e => exact .error e

theorem bind {f : α → Except CalcError γ} {g : β → Except CalcError δ} (h : K.Results R r q)
    (hf : ∀ a b, R a b → K.Results Q (f a) (g b)) : K.Results Q (r >>= f) (q >>= g) := by
  cases h with
  | refused h => exact .refused h
  | error e => exact .error e
  | ok h => exact hf _ _ h

theorem foldlM {f : α → γ → Except CalcError α} {g : β → γ → Except CalcError β} {l : List γ}
    (hf : ∀ a b, R a b → ∀ c ∈ l, K.Results R (f a c) (g b c)) {a : α} {b : β} (h : R a b) :
    K.Results R (l.foldlM f a) (l.foldlM g b) := by
  induction l generalizing a b with
  | nil => exact .ok h
  | cons c l ih =>
    rw [List.foldlM_cons, List.foldlM_cons]
    refine (hf a b h c List.mem_cons_self).bind fun a' b' h' => ih (fun a b h d hd => ?_) h'
    exact hf a b h d (List.mem_cons_of_mem c hd)

end Results

/-! ## Lists -/

/-- The lists hold the same tuples, and if they carry different limits, the first one carries that of
the cap and the second one none. -/
def Freed (K : Cap) (l m : TupleList) : Prop :=
  m = l ∨ l.limit = K.limit ∧ m = { l with limit := 0 }

/-- The lists differ at most in the limit that they carry (module doc). -/
structure Lists (K : Cap) (l m : TupleList) : Prop where
  freed : K.Freed l m
  legal : K.strict → l.Legal K.limit

section
variable {l m : TupleList}

theorem Freed.arity (h : K.Freed l m) : m.arity = l.arity := by
  rcases h with rfl | ⟨-, rfl⟩ <;> rfl

theorem Freed.members (h : K.Freed l m) : m.members = l.members := by
  rcases h with rfl | ⟨-, rfl⟩ <;> rfl

theorem Freed.size (h : K.Freed l m) : m.size = l.size := by
  rw [TupleList.size, TupleList.size, h.arity, h.members]

theorem Freed.rows (h : K.Freed l m) : m.rows = l.rows := by
  rcases h with rfl | ⟨-, rfl⟩ <;> rfl

theorem lists_empty (arity : Nat) : K.Lists (.empty arity K.limit) (.empty arity 0) :=
  ⟨.inr ⟨rfl, rfl⟩, fun _ => TupleList.legal_empty _ _⟩

theorem Lists.add (h : K.Lists l m) (r : Row) : K.Results K.Lists (l.add r) (m.add r) := by
  rcases h.freed with rfl | ⟨hlimit, rfl⟩
  · exact .of_same fun l' hl' => ⟨.inl rfl, fun hstrict => ((h.legal hstrict).add hl').1⟩
  let free : TupleList := { l with limit := 0 }
  by_cases hr : r.length = l.arity
  · obtain ⟨m', hm'⟩ : ∃ m', free.add r = .ok m' :=
      TupleList.exists_add_iff.2 ⟨hr, fun hpos => absurd hpos (Nat.lt_irrefl 0)⟩
    by_cases hroom : l.size < K.limit
    · obtain ⟨l', hl'⟩ : ∃ l', l.add r = .ok l' :=
        TupleList.exists_add_iff.2 ⟨hr, fun _ => hlimit ▸ hroom⟩
      obtain ⟨-, hm⟩ := TupleList.add_eq_ok hm'
      obtain ⟨-, hl⟩ := TupleList.add_eq_ok hl'
      rw [hl', hm']
      refine .ok ⟨.inr ⟨?_, ?_⟩, fun hstrict => ((h.legal hstrict).add hl').1⟩
      · rw [hl]
        exact hlimit
      · rw [hm, hl]
    · have hrefused := TupleList.add_eq_error hr (hlimit ▸ K.pos) (hlimit ▸ Nat.not_lt.1 hroom)
      rw [hrefused, hlimit]
      exact .refused (Nat.lt_succ_of_le (Nat.not_lt.1 hroom))
  · have hfree : free.add r = .error (.arityMismatch l.arity r.length) :=
      TupleList.add_eq_mismatch hr
    rw [TupleList.add_eq_mismatch hr, hfree]
    exact .error _

theorem Lists.append (h : K.Lists l m) {k k' : TupleList} (hrows : k'.rows = k.rows) :
    K.Results K.Lists (l.append k) (m.append k') := by
  rw [TupleList.append_eq_foldlM, TupleList.append_eq_foldlM, hrows]
  exact .foldlM (fun _ _ h r _ => h.add r) h

theorem results_ofMembers (ms : List Member) :
    K.Results K.Lists (TupleList.ofMembers ms K.limit) (TupleList.ofMembers ms 0) := by
  by_cases hroom : K.limit < ms.length
  · rw [TupleList.ofMembers_eq_error K.pos hroom]
    exact .refused hroom
  · have hlist : TupleList.ofMembers ms K.limit = .ok ⟨1, K.limit, ms.toArray, by decide⟩ :=
      TupleList.ofMembers_eq_ok fun _ => Nat.not_lt.1 hroom
    rw [hlist, TupleList.ofMembers_eq_ok fun h => absurd h (Nat.lt_irrefl 0)]
    exact .ok ⟨.inr ⟨rfl, rfl⟩, fun _ => (TupleList.ofMembers_ok hlist).1⟩

theorem Lists.subList (h : K.Lists l m) (count : Nat) :
    K.Lists (l.subList 0 count) (m.subList 0 count) := by
  refine ⟨?_, fun hstrict => ((h.legal hstrict).subList 0 count).1⟩
  rcases h.freed with rfl | ⟨hlimit, rfl⟩
  · exact .inl rfl
  · exact .inr ⟨hlimit, rfl⟩

theorem Lists.permute (h : K.Lists l m) (places : List Nat) :
    K.Results K.Lists (l.permute places) (m.permute places) := by
  rcases h.freed with rfl | ⟨hlimit, rfl⟩
  · refine .of_same fun l' hl' => ⟨.inl rfl, fun hstrict => ?_⟩
    have hlegal := (TupleList.permute_ok hl').1
    rwa [(h.legal hstrict).limit_eq] at hlegal
  · unfold TupleList.permute
    rw [hlimit]
    refine .foldlM (fun out out' hout i _ => ?_) (lists_empty l.arity)
    have hrow : TupleList.row? { l with limit := 0 } i = l.row? i := rfl
    rw [hrow]
    cases l.row? i with
    | some r => exact hout.add r
    | none => exact .error _

end

/-! ## Sources -/

/-- The sources differ at most in the limits that their lists carry. -/
inductive Sources (K : Cap) : TupleSource → TupleSource → Prop
  | list {l m : TupleList} (h : K.Freed l m) : Sources K (.list l) (.list m)
  | cross {s s' t t' : TupleSource} (hs : Sources K s s') (ht : Sources K t t') :
      Sources K (.cross s t) (.cross s' t')
  | slice {s s' : TupleSource} {c : Nat} (hs : Sources K s s') :
      Sources K (.slice s c) (.slice s' c)

namespace Sources

variable {s t : TupleSource}

theorem refl (K : Cap) (s : TupleSource) : K.Sources s s := by
  induction s with
  | list l => exact .list (.inl rfl)
  | cross s t hs ht => exact .cross hs ht
  | slice s c hs => exact .slice hs

theorem arity (h : K.Sources s t) : t.arity = s.arity := by
  induction h with
  | list h => exact h.arity
  | cross _ _ ihs iht => rw [TupleSource.arity, TupleSource.arity, ihs, iht]
  | slice => rfl

theorem rows (h : K.Sources s t) : t.rows = s.rows := by
  induction h with
  | list h => exact h.rows
  | cross _ _ ihs iht => rw [TupleSource.rows, TupleSource.rows, ihs, iht]
  | slice _ ih => rw [TupleSource.rows, TupleSource.rows, ih]

theorem size (h : K.Sources s t) : t.size = s.size := by
  rw [← t.length_rows, h.rows, s.length_rows]

end Sources

/-! ## Values -/

/-- The values are the same, or sets that differ at most in the limits that they carry. -/
inductive Values (K : Cap) : Value → Value → Prop
  | single {v : Value} (h : v.isSet = false) : Values K v v
  | list {l m : TupleList} (h : K.Lists l m) : Values K (.list l) (.list m)
  | iterable {s t : TupleSource} (h : K.Sources s t) : Values K (.iterable s) (.iterable t)

namespace Values

variable {v w : Value}

theorem elim {α : Type} (o : Option α) {f : α → Value} (hf : ∀ a, (f a).isSet = false) :
    K.Values (o.elim .null f) (o.elim .null f) := by
  cases o with
  | none => exact .single rfl
  | some a => exact .single (hf a)

theorem refl (h : K.strict → v.Bounded K.limit) : K.Values v v := by
  cases v with
  | list l => exact .list ⟨.inl rfl, h⟩
  | iterable s => exact .iterable (.refl K s)
  | _ => exact .single rfl

theorem bounded (h : K.Values v w) (hstrict : K.strict) : v.Bounded K.limit := by
  cases h with
  | single h => cases v <;> trivial
  | list h => exact h.legal hstrict
  | iterable _ => trivial

/-- A conversion that does not look into sets gives the same. -/
theorem convert {f : Value → α} (h : K.Values v w) (hlist : ∀ l m, f (.list l) = f (.list m))
    (hiterable : ∀ s t, f (.iterable s) = f (.iterable t)) : f v = f w := by
  cases h with
  | single _ => rfl
  | list _ => exact hlist _ _
  | iterable _ => exact hiterable _ _

theorem toList (h : K.Values v w) : K.Results K.Lists v.toList w.toList := by
  cases h with
  | single h => cases v <;> first | exact .error _ | cases h
  | list h => exact .ok h
  | iterable _ => exact .error _

theorem toSource (h : K.Values v w) : K.Results K.Sources v.toSource w.toSource := by
  cases h with
  | single h => cases v <;> first | exact .error _ | cases h
  | list h => exact .ok (.list h.freed)
  | iterable h => exact .ok h

end Values

end Cap

/-! ## Forgetting limits -/

/-- The source, with lists that carry no limits. -/
def TupleSource.unlimited : TupleSource → TupleSource
  | list l => list { l with limit := 0 }
  | cross s t => cross s.unlimited t.unlimited
  | slice s c => slice s.unlimited c

/-- The value, with lists that carry no limits. -/
def Value.unlimited : Value → Value
  | list l => list { l with limit := 0 }
  | iterable s => iterable s.unlimited
  | v => v

theorem Cap.Freed.unlimited {K : Cap} {l m : TupleList} (h : K.Freed l m) :
    ({ l with limit := 0 } : TupleList) = { m with limit := 0 } := by
  rcases h with rfl | ⟨-, rfl⟩ <;> rfl

theorem Cap.Sources.unlimited {K : Cap} {s t : TupleSource} (h : K.Sources s t) :
    s.unlimited = t.unlimited := by
  induction h with
  | list h => exact congrArg TupleSource.list h.unlimited
  | cross _ _ ihs iht => rw [TupleSource.unlimited, TupleSource.unlimited, ihs, iht]
  | slice _ ih => rw [TupleSource.unlimited, TupleSource.unlimited, ih]

theorem Cap.Values.unlimited {K : Cap} {v w : Value} (h : K.Values v w) :
    v.unlimited = w.unlimited := by
  cases h with
  | single _ => rfl
  | list h => exact congrArg Value.list h.freed.unlimited
  | iterable h => exact congrArg Value.iterable h.unlimited

end Olap
