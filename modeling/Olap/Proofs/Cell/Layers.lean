import Olap.Proofs.Cell.Faithful

/-!
# Requests through several layers

A reader is used by calls, each of which requests a cell or loads what is queued. Whatever the calls,
and however many layers lie above the facts, what a reader answers is the true cell
(`CellReader.Truthful.get`). A layer keeps in mind what it has answered with `pending`
(`CellReader.Awaits`), and one layer above the facts answers it from the next load on. Two layers never
answer anything: what the lower one has only queued the upper one drops from its queue, and no load
reaches the lower one (`CellReader.Idle`).
-/

set_option autoImplicit false

namespace Olap

/-- A call of a reader. -/
inductive ReaderCall where
  | get (coordinate : List Member)
  | load

/-- The call requests no cells but those in question. -/
def ReaderCall.Over (C : List Member → Prop) : ReaderCall → Prop
  | get κ => C κ
  | load => True

namespace CellReader

variable {c : Cube} {facts : List Fact} {r inner : CellReader} {κ μ : List Member}

/-- The reader after one call. -/
def visit (r : CellReader) : ReaderCall → CellReader
  | .get κ => (r.get κ).2
  | .load => r.load.2

/-- The reader after some calls. -/
def after (r : CellReader) (calls : List ReaderCall) : CellReader := calls.foldl visit r

theorem after_append (r : CellReader) (calls more : List ReaderCall) :
    r.after (calls ++ more) = (r.after calls).after more := List.foldl_append

theorem after_inv {P : CellReader → Prop} {Q : ReaderCall → Prop}
    (h : ∀ r call, P r → Q call → P (r.visit call)) (hr : P r) {calls : List ReaderCall}
    (hcalls : ∀ call ∈ calls, Q call) : P (r.after calls) := by
  induction calls generalizing r with
  | nil => exact hr
  | cons call calls ih =>
    obtain ⟨hcall, hcalls⟩ := List.forall_mem_cons.1 hcalls
    exact ih (h r call hr hcall) hcalls

/-! ## True answers -/

/-- The facts, or any number of layers above them that hold true cells. -/
inductive Truthful (c : Cube) (facts : List Fact) : CellReader → Prop
  | memory : Truthful c facts (memory facts)
  | batching {inner : CellReader} {loaded : List (List String × Option Double)}
      {queue : List (List Member)} {batches : Nat} (hi : Truthful c facts inner)
      (hl : TrueCells c facts loaded) (hq : ∀ κ ∈ queue, c.Coordinate κ) :
      Truthful c facts (batching inner loaded queue batches)

namespace Truthful

theorem layered (c : Cube) (facts : List Fact) (n : Nat) :
    ((CellReader.memory facts).layered n).Truthful c facts := by
  induction n with
  | zero => exact .memory
  | succ n ih => exact .batching ih (by rintro key v ⟨⟩) (List.forall_mem_nil _)

/-- What is answered is the true cell. -/
theorem get (h : r.Truthful c facts) (hκ : c.Coordinate κ) :
    (r.get κ).2.Truthful c facts ∧ ∀ v, (r.get κ).1 = .ready v → v = totalAt facts κ := by
  cases h with
  | memory =>
    refine And.intro .memory fun v hv => ?_
    injection hv with hv
    exact hv.symm
  | batching hi hl hq =>
    rename_i inner loaded queue batches
    rw [CellReader.get]
    rcases hlook : loaded.lookup (cellKey κ) with _ | w
    · refine ⟨.batching hi hl ?_, by rintro v ⟨⟩⟩
      split
      · exact hq
      · exact List.forall_mem_append.2 ⟨hq, List.forall_mem_singleton.2 hκ⟩
    · refine ⟨.batching hi hl hq, ?_⟩
      rintro _ ⟨⟩
      exact hl _ w hlook κ hκ rfl

theorem fetch (hc : c.Regular) (hi : inner.Truthful c facts)
    {loaded : List (List String × Option Double)} (hl : TrueCells c facts loaded)
    {queue : List (List Member)} (hq : ∀ κ ∈ queue, c.Coordinate κ) :
    (CellReader.fetch inner loaded queue).1.Truthful c facts ∧
      TrueCells c facts (CellReader.fetch inner loaded queue).2 := by
  induction queue generalizing inner loaded with
  | nil => exact ⟨hi, hl⟩
  | cons κ queue ih =>
    obtain ⟨hκ, hq⟩ := List.forall_mem_cons.1 hq
    obtain ⟨hinner, hvalue⟩ := hi.get hκ
    rw [CellReader.fetch]
    rcases hget : inner.get κ with ⟨v | _, inner'⟩
    · rw [hget] at hinner hvalue
      rw [hvalue v rfl]
      exact ih hinner (hl.cons hc hκ) hq
    · rw [hget] at hinner
      exact ih hinner hl hq

theorem load (hc : c.Regular) (h : r.Truthful c facts) : r.load.2.Truthful c facts := by
  cases h with
  | memory => exact .memory
  | batching hi hl hq =>
    rename_i inner loaded queue batches
    rcases queue with _ | ⟨κ, queue⟩
    · exact .batching hi hl hq
    · obtain ⟨hinner, hloaded⟩ := hi.fetch hc hl hq
      rw [CellReader.load]
      · exact .batching hinner hloaded (List.forall_mem_nil _)
      · rintro ⟨⟩

theorem visit (hc : c.Regular) (r : CellReader) (call : ReaderCall) (h : r.Truthful c facts)
    (hcall : call.Over c.Coordinate) : (r.visit call).Truthful c facts := by
  cases call with
  | get κ => exact (h.get hcall).1
  | load => exact h.load hc

end Truthful

/-! ## Requests that are kept in mind -/

/-- The reader answers a request for the cell at once. -/
def Knows (r : CellReader) (κ : List Member) : Prop := ∃ v, (r.get κ).1 = .ready v

/-- The cell is queued. -/
def Awaits : CellReader → List Member → Prop
  | memory _, _ => False
  | batching _ _ queue _, κ => ∃ μ ∈ queue, cellKey μ = cellKey κ

section
variable {loaded : List (List String × Option Double)} {queue : List (List Member)} {batches : Nat}

theorem knows_batching_iff :
    (batching inner loaded queue batches).Knows κ ↔ (loaded.lookup (cellKey κ)).isSome = true := by
  rw [Knows, get]
  rcases loaded.lookup (cellKey κ) with _ | v
  · exact iff_of_false (by rintro ⟨v, ⟨⟩⟩) (by rintro ⟨⟩)
  · exact ⟨fun _ => rfl, fun _ => ⟨v, rfl⟩⟩

theorem any_key_iff : queue.any (cellKey · == cellKey κ) = true ↔
    (batching inner loaded queue batches).Awaits κ := by
  simp only [List.any_eq_true, beq_iff_eq]
  exact Iff.rfl

/-- What is loaded stays so. -/
theorem lookup_fetch (key : List String) (h : (loaded.lookup key).isSome = true) :
    ((fetch inner loaded queue).2.lookup key).isSome = true := by
  induction queue generalizing inner loaded with
  | nil => exact h
  | cons κ queue ih =>
    rw [fetch]
    rcases inner.get κ with ⟨v | _, inner'⟩
    · refine ih ?_
      rw [List.lookup_cons]
      split
      · rfl
      · exact h
    · exact ih h

end

theorem knows_or_pending (r : CellReader) (κ : List Member) :
    r.Knows κ ∨ (r.get κ).1 = .pending := by
  unfold Knows
  rcases (r.get κ).1 with v | _
  · exact .inl ⟨v, rfl⟩
  · exact .inr rfl

theorem awaits_of_pending (h : (r.get κ).1 = .pending) : (r.get κ).2.Awaits κ := by
  cases r with
  | memory facts => cases h
  | batching inner loaded queue batches =>
    rcases hlook : loaded.lookup (cellKey κ) with _ | v
    · simp only [get, hlook]
      split
      · exact any_key_iff.1 (by assumption)
      · exact ⟨κ, List.mem_append_right _ (List.mem_singleton_self κ), rfl⟩
    · simp only [get, hlook] at h
      cases h

theorem Awaits.get (h : r.Awaits κ) (μ : List Member) : (r.get μ).2.Awaits κ := by
  cases r with
  | memory facts => exact h
  | batching inner loaded queue batches =>
    obtain ⟨ν, hν, hkey⟩ := h
    rw [CellReader.get]
    split
    · exact ⟨ν, hν, hkey⟩
    · dsimp only
      split
      · exact ⟨ν, hν, hkey⟩
      · exact ⟨ν, List.mem_append_left _ hν, hkey⟩

theorem Knows.get (h : r.Knows κ) (μ : List Member) : (r.get μ).2.Knows κ := by
  cases r with
  | memory facts => exact h
  | batching inner loaded queue batches =>
    rw [knows_batching_iff] at h
    rw [CellReader.get]
    split <;> exact knows_batching_iff.2 h

theorem Knows.load (h : r.Knows κ) : r.load.2.Knows κ := by
  cases r with
  | memory facts => exact h
  | batching inner loaded queue batches =>
    rcases queue with _ | ⟨μ, queue⟩
    · exact h
    · rw [knows_batching_iff] at h
      rw [CellReader.load]
      · exact knows_batching_iff.2 (lookup_fetch _ h)
      · rintro ⟨⟩

theorem Knows.visit (h : r.Knows κ) (call : ReaderCall) : (r.visit call).Knows κ := by
  cases call with
  | get μ => exact h.get μ
  | load => exact h.load

/-! ## One layer -/

/-- The facts answer all that is queued. -/
theorem lookup_fetch_memory {loaded : List (List String × Option Double)}
    {queue : List (List Member)} (hμ : μ ∈ queue) :
    ((fetch (memory facts) loaded queue).2.lookup (cellKey μ)).isSome = true := by
  induction queue generalizing loaded with
  | nil => cases hμ
  | cons κ queue ih =>
    rcases List.mem_cons.1 hμ with rfl | hμ
    · rw [fetch, get]
      refine lookup_fetch _ ?_
      rw [List.lookup_cons_self]
      rfl
    · exact ih hμ

/-- One layer above the facts answers from the next load on what it has queued. -/
theorem Faithful.knows_load (h : r.Faithful c facts) (hκ : r.Awaits κ) : r.load.2.Knows κ := by
  cases h with
  | memory => exact hκ.elim
  | batching hl hq =>
    rename_i loaded queue batches
    obtain ⟨μ, hμ, hkey⟩ := hκ
    rcases queue with _ | ⟨ν, queue⟩
    · cases hμ
    · rw [CellReader.load]
      · exact knows_batching_iff.2 (hkey ▸ lookup_fetch_memory hμ)
      · rintro ⟨⟩

theorem Faithful.visit (hc : c.Regular) (r : CellReader) (call : ReaderCall) (h : r.Faithful c facts)
    (hcall : call.Over c.Coordinate) : (r.visit call).Faithful c facts := by
  cases call with
  | load => exact h.load hc
  | get κ =>
    rcases h.get hcall with hget | ⟨r', hget, hr', -⟩
    · rw [CellReader.visit, hget]
      exact h
    · rw [CellReader.visit, hget]
      exact hr'

theorem faithful_layered (c : Cube) (facts : List Fact) {n : Nat} (hn : n ≤ 1) :
    ((memory facts).layered n).Faithful c facts := by
  rcases n with _ | _ | n
  · exact .memory
  · exact faithful_batched c facts
  · omega

/-- What a layer above the facts knows or has queued it knows after a load. -/
theorem Faithful.knows_after (hc : c.Regular) (h : r.Faithful c facts)
    (hκ : r.Knows κ ∨ r.Awaits κ) {calls : List ReaderCall}
    (hcalls : ∀ call ∈ calls, call.Over c.Coordinate) :
    let s := r.after calls
    (s.Knows κ ∨ s.Awaits κ) ∧ s.load.2.Knows κ := by
  intro s
  have hstep (r : CellReader) (call : ReaderCall)
      (hr : r.Faithful c facts ∧ (r.Knows κ ∨ r.Awaits κ)) (hcall : call.Over c.Coordinate) :
      (r.visit call).Faithful c facts ∧ ((r.visit call).Knows κ ∨ (r.visit call).Awaits κ) := by
    obtain ⟨hr, hκ⟩ := hr
    refine ⟨hr.visit hc r call hcall, ?_⟩
    rcases hκ with hκ | hκ
    · exact .inl (hκ.visit call)
    · cases call with
      | get μ => exact .inr (hκ.get μ)
      | load => exact .inl (hr.knows_load hκ)
  obtain ⟨hs, hκ⟩ := after_inv hstep ⟨h, hκ⟩ hcalls
  refine ⟨hκ, ?_⟩
  rcases hκ with hκ | hκ
  · exact hκ.load
  · exact hs.knows_load hκ

/-! ## Two layers -/

/-- Nothing is loaded in the two layers at the top. -/
def Idle (r : CellReader) : Prop :=
  ∃ inner queue batches upper count, r = batching (batching inner [] queue batches) [] upper count

theorem idle_layered (facts : List Fact) (n : Nat) : ((memory facts).layered (n + 2)).Idle :=
  ⟨_, _, _, _, _, rfl⟩

theorem Idle.get (h : r.Idle) (κ : List Member) : (r.get κ).1 = .pending ∧ (r.get κ).2.Idle := by
  obtain ⟨inner, queue, batches, upper, count, rfl⟩ := h
  exact ⟨rfl, _, _, _, _, _, rfl⟩

/-- The lower layer queues whatever the upper one fetches. -/
theorem fetch_batched (inner : CellReader) (lower queue : List (List Member)) (batches : Nat) :
    ∃ lower', fetch (batching inner [] lower batches) [] queue =
      (batching inner [] lower' batches, []) := by
  induction queue generalizing lower with
  | nil => exact ⟨lower, rfl⟩
  | cons κ queue ih => exact ih _

theorem Idle.load (h : r.Idle) : r.load.2.Idle := by
  obtain ⟨inner, queue, batches, upper, count, rfl⟩ := h
  rcases upper with _ | ⟨κ, upper⟩
  · exact ⟨_, _, _, _, _, rfl⟩
  · obtain ⟨queue', hfetch⟩ := fetch_batched inner queue (κ :: upper) batches
    rw [CellReader.load, hfetch]
    · exact ⟨_, _, _, _, _, rfl⟩
    · rintro ⟨⟩

theorem Idle.after (h : r.Idle) (calls : List ReaderCall) : (r.after calls).Idle := by
  refine after_inv (Q := fun _ => True) (fun r call hr _ => ?_) h fun _ _ => trivial
  cases call with
  | get κ => exact (hr.get κ).2
  | load => exact hr.load

/-! ## Any number of layers -/

/-- Whatever has been answered with `pending` is known from the next load on. -/
def KeepsRequests (c : Cube) (r : CellReader) : Prop :=
  ∀ calls further more : List ReaderCall,
    (∀ call ∈ calls ++ further ++ more, call.Over c.Coordinate) →
      ∀ κ, c.Coordinate κ → ((r.after calls).get κ).1 = .pending →
        (r.after (calls ++ .get κ :: (further ++ .load :: more))).Knows κ

theorem Faithful.keepsRequests (hc : c.Regular) (h : r.Faithful c facts) : r.KeepsRequests c := by
  intro calls further more hcalls κ hκ hpending
  simp only [List.forall_mem_append] at hcalls
  obtain ⟨⟨hcalls, hfurther⟩, hmore⟩ := hcalls
  have hcalled : (r.after calls).Faithful c facts := after_inv (Faithful.visit hc) h hcalls
  have hasked : ((r.after calls).get κ).2.Faithful c facts := hcalled.visit hc _ (.get κ) hκ
  obtain ⟨-, hknown⟩ := hasked.knows_after hc (.inr (awaits_of_pending hpending)) hfurther
  have hsplit : r.after (calls ++ .get κ :: (further ++ .load :: more)) =
      ((((r.after calls).get κ).2.after further).load.2).after more := by
    rw [after_append]
    exact after_append _ further (.load :: more)
  rw [hsplit]
  exact after_inv (P := fun s => s.Knows κ) (fun s call hs _ => hs.visit call) hknown hmore

/-- However many layers lie above the facts, what is answered is the true cell. No request is lost if
and only if there is at most one layer: two or more never answer. -/
theorem layered_answers (hc : c.Built) (facts : List Fact) (n : Nat) :
    let r := (memory facts).layered n
    (∀ calls : List ReaderCall, (∀ call ∈ calls, call.Over c.Coordinate) →
        ∀ κ v, c.Coordinate κ → ((r.after calls).get κ).1 = .ready v → v = totalAt facts κ) ∧
      (r.KeepsRequests c ↔ n ≤ 1) ∧
      (2 ≤ n → ∀ (calls : List ReaderCall) (κ : List Member), ((r.after calls).get κ).1 = .pending) := by
  intro r
  have hregular := hc.regular
  have hidle (hn : 2 ≤ n) : r.Idle := by
    obtain ⟨k, rfl⟩ := Nat.exists_eq_add_of_le' hn
    exact idle_layered facts k
  have hsilent (hn : 2 ≤ n) (calls : List ReaderCall) (κ : List Member) :
      ((r.after calls).get κ).1 = .pending := (((hidle hn).after calls).get κ).1
  refine ⟨fun calls hcalls κ v hκ hv => ?_, ⟨fun hkeeps => ?_, fun hn => ?_⟩, hsilent⟩
  · have htruthful : (r.after calls).Truthful c facts :=
      after_inv (Truthful.visit hregular) (.layered c facts n) hcalls
    exact (htruthful.get hκ).2 v hv
  · by_contra hn
    have hn : 2 ≤ n := by omega
    have hκ := Cube.coordinate_defaultMembers c
    obtain ⟨v, hv⟩ := hkeeps [] [] [] (List.forall_mem_nil _) _ hκ (hsilent hn [] _)
    rw [hsilent hn] at hv
    cases hv
  · exact (faithful_layered c facts hn).keepsRequests hregular

end CellReader

/-- Two layers above one fact never answer a request for the cell of the fact. -/
theorem Sample.layered_answers_amount :
    cube.Built ∧ ¬ ((CellReader.memory [⟨[amount], 5⟩]).layered 2).KeepsRequests cube := by
  obtain ⟨-, hkeeps, -⟩ := CellReader.layered_answers cube_built [⟨[amount], 5⟩] 2
  exact ⟨cube_built, fun h => absurd (hkeeps.1 h) (by decide)⟩

end Olap
