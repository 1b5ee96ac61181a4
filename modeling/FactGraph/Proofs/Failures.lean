import FactGraph.Proofs.Sessions
import FactGraph.Proofs.Stores

/-!
# What a failure leaves behind

`Session.Computes` says what a session does when it answers.  Here is what it leaves when it does
not.  A call that fails does nothing, but what was written before it stays written, so a session
that stops with an error may have done any first part of its work.

`Session.Withstands m σ R P` is the statement about both ways out, whatever storage lets fail.  It
keeps count of the writes of the ledger that storage has taken, for these are what tells finished
work from unfinished work.

* If `m` answers, the answer and the count satisfy `R`.
* If `m` stops with an error, storage brought it about, by itself or for nodes of the store that is
  left, and the count and the core that is left satisfy `P`.

Most of a commit and of a run only reads, and what only reads leaves everything as it is
(`Session.ReadOnly`).  The rules are those of `Computes`, one for each way of building a session; the
rule for one session after another asks for the meaning of the first, since the second starts from
what it leaves.
-/

namespace FactGraph

namespace Session

variable {μ α β : Type}

/-! ## 1. Errors -/

/-- Run from `σ`, the session stops with the error `e` and leaves `σ'`. -/
def Fails (m : Session μ α) (σ : State μ) (e : Error) (σ' : State μ) : Prop :=
  m.run σ = (.error e, σ')

/-- Whether a session stops with an error and leaves a state that passes a test. -/
def stops (m : Session μ α) (σ : State μ) (test : State μ → Bool) : Bool :=
  match (m.run σ).1 with
  | .ok _ => false
  | .error _ => test (m.run σ).2

theorem exists_fails {m : Session μ α} {σ : State μ} {test : State μ → Bool}
    (h : stops m σ test = true) : ∃ e σ', Fails m σ e σ' ∧ test σ' = true := by
  rw [stops] at h
  cases hm : (m.run σ).1 with
  | ok a => rw [hm] at h; cases h
  | error e =>
    rw [hm] at h
    exact ⟨e, _, Prod.ext hm rfl, h⟩

theorem returns_or_fails (m : Session μ α) (σ : State μ) :
    (∃ a σ', Returns m σ a σ') ∨ ∃ e σ', Fails m σ e σ' := by
  rcases hm : m.run σ with ⟨_ | a, σ'⟩
  · exact .inr ⟨_, σ', hm⟩
  · exact .inl ⟨a, σ', hm⟩

theorem fails_bind {m : Session μ α} {f : α → Session μ β} {σ σ'' : State μ} {e : Error} :
    Fails (m >>= f) σ e σ'' ↔
      Fails m σ e σ'' ∨ ∃ a σ', Returns m σ a σ' ∧ Fails (f a) σ' e σ'' := by
  rw [Fails, run_bind]
  constructor
  · intro h
    rcases hm : m.run σ with ⟨r, σ'⟩
    rw [hm] at h
    cases r with
    | error e' =>
      cases h
      exact .inl hm
    | ok a => exact .inr ⟨a, σ', hm, h⟩
  · rintro (hm | ⟨a, σ', hm, hf⟩)
    · rw [show m.run σ = _ from hm]
    · rw [show m.run σ = _ from hm]
      exact hf

/-! ## 2. Counting -/

theorem lookup_filter_ne {c c' : Call} (h : c' ≠ c) (counts : List (Call × Nat)) :
    (counts.filter (·.1 ≠ c)).lookup c' = counts.lookup c' := by
  induction counts with
  | nil => rfl
  | cons entry rest ih =>
    obtain ⟨c₀, n⟩ := entry
    by_cases hc : c₀ = c
    · have hne : (c' == c₀) = false := beq_false_of_ne fun he => h (he.trans hc)
      rw [List.filter_cons_of_neg (by simpa using hc), List.lookup_cons, hne, ih]
    · rw [List.filter_cons_of_pos (by simpa using hc), List.lookup_cons, List.lookup_cons, ih]

theorem countOf_bump (counts : List (Call × Nat)) (c c' : Call) :
    countOf (bump counts c) c' = if c' = c then countOf counts c + 1 else countOf counts c' := by
  rw [countOf, bump, List.lookup_cons]
  by_cases h : c' = c
  · simp [h]
  · rw [beq_false_of_ne h, if_neg h, lookup_filter_ne h]
    rfl

namespace State

/-- Storage brings an error about, by itself or for nodes of the store. -/
def Injects (σ : State μ) (e : Error) : Prop :=
  ∃ c n nodes, (∀ x ∈ nodes, x ∈ σ.store.allNodes) ∧ σ.faults c n nodes = some e

/-- How many of the calls of a kind storage has let through.  The calls that are counted read no
nodes. -/
def accepted (σ : State μ) (c : Call) : Nat :=
  ((List.range (countOf σ.counts c)).filter fun i => (σ.faults c (i + 1) []).isNone).length

/-- One more call was made. -/
def called (σ : State μ) (c : Call) : State μ := { σ with counts := bump σ.counts c }

theorem accepted_called (σ : State μ) (c c' : Call) :
    (σ.called c).accepted c' = σ.accepted c' +
      if c' = c ∧ σ.faults c (countOf σ.counts c + 1) [] = none then 1 else 0 := by
  rw [accepted, accepted]
  simp only [called, countOf_bump]
  by_cases hc : c' = c
  · subst hc
    rw [if_pos rfl, List.range_succ, List.filter_append, List.length_append]
    cases h : σ.faults c' (countOf σ.counts c' + 1) [] <;> simp [h]
  · simp [hc]

/-- Between two states storage has stayed what it is and has taken `k` writes of the ledger. -/
structure Reaches (σ : State μ) (k : Nat) (σ' : State μ) : Prop where
  faults : σ'.faults = σ.faults
  accepted : σ'.accepted .recordRuns = σ.accepted .recordRuns + k

theorem Reaches.refl (σ : State μ) : σ.Reaches 0 σ := ⟨rfl, rfl⟩

theorem Reaches.trans {σ σ' σ'' : State μ} {j k : Nat} (h : σ.Reaches k σ')
    (h' : σ'.Reaches j σ'') : σ.Reaches (j + k) σ'' :=
  ⟨h'.faults.trans h.faults, by rw [h'.accepted, h.accepted]; omega⟩

end State

/-! ## 3. Sessions that only read -/

/-- A session only reads: whether it answers or not, it leaves the core as it is and makes no write
of the ledger, and it stops only with errors of storage. -/
structure ReadOnly (m : Session μ α) : Prop where
  core : ∀ σ, (m.run σ).2.core = σ.core
  reaches : ∀ σ : State μ, σ.Reaches 0 (m.run σ).2
  injects : ∀ {σ : State μ} {e σ'}, Fails m σ e σ' → σ'.Injects e

namespace ReadOnly

theorem pure (a : α) : ReadOnly (Pure.pure a : Session μ α) where
  core _ := rfl
  reaches := State.Reaches.refl
  injects h := by cases h

theorem bind {m : Session μ α} {f : α → Session μ β} (hm : ReadOnly m) (hf : ∀ a, ReadOnly (f a)) :
    ReadOnly (m >>= f) where
  core σ := by
    have hcore := hm.core σ
    rw [run_bind]
    rcases hrun : m.run σ with ⟨_ | a, σ'⟩ <;> rw [hrun] at hcore
    · exact hcore
    · exact ((hf a).core σ').trans hcore
  reaches σ := by
    have hreaches := hm.reaches σ
    rw [run_bind]
    rcases hrun : m.run σ with ⟨_ | a, σ'⟩ <;> rw [hrun] at hreaches
    · exact hreaches
    · exact hreaches.trans ((hf a).reaches σ')
  injects {σ e σ'} h := by
    rcases fails_bind.mp h with h | ⟨a, σ₁, hret, h⟩
    · exact hm.injects h
    · exact (hf a).injects h

theorem foldlM {f : β → α → Session μ β} (hf : ∀ b a, ReadOnly (f b a)) (xs : List α) (b : β) :
    ReadOnly (xs.foldlM f b) := by
  induction xs generalizing b with
  | nil => exact pure b
  | cons a rest ih =>
    rw [List.foldlM_cons]
    exact (hf b a).bind ih

theorem mapM {f : α → Session μ β} (hf : ∀ a, ReadOnly (f a)) (xs : List α) :
    ReadOnly (xs.mapM f) := by
  induction xs with
  | nil =>
    rw [List.mapM_nil]
    exact pure []
  | cons a rest ih =>
    rw [List.mapM_cons]
    exact (hf a).bind fun b => ih.bind fun bs => pure (b :: bs)

theorem filterM {f : α → Session μ Bool} (hf : ∀ a, ReadOnly (f a)) (xs : List α) :
    ReadOnly (xs.filterM f) := by
  have haux : ∀ kept, ReadOnly (xs.filterAuxM f kept) := by
    induction xs with
    | nil => exact pure
    | cons a rest ih =>
      intro kept
      rw [List.filterAuxM]
      exact (hf a).bind fun keep => ih (cond keep (a :: kept) kept)
  exact (haux []).bind fun kept => pure kept.reverse

theorem read {c : Call} (hc : c ≠ .recordRuns) {reads : Store μ → List (Node μ)}
    (hreads : ∀ s, ∀ x ∈ reads s, x ∈ s.allNodes) (query : Store μ → α) :
    ReadOnly (Session.read c reads query) := by
  have hrun : ∀ σ : State μ,
      (Session.read c reads query).run σ = (Except.ok (query σ.store), σ.called c) ∨
      ∃ e, σ.faults c (countOf σ.counts c + 1) (reads σ.store) = some e ∧
        (Session.read c reads query).run σ = (Except.error e, σ.called c) := by
    intro σ
    rw [Session.read, run_call]
    cases σ.faults c (countOf σ.counts c + 1) (reads σ.store) with
    | none => exact .inl rfl
    | some e => exact .inr ⟨e, rfl, rfl⟩
  have hcalled : ∀ σ : State μ, ((Session.read c reads query).run σ).2 = σ.called c := by
    intro σ
    rcases hrun σ with h | ⟨e, -, h⟩ <;> rw [h]
  refine ⟨fun σ => ?_, fun σ => ?_, fun {σ e σ'} h => ?_⟩
  · rw [hcalled]
    rfl
  · rw [hcalled]
    refine ⟨rfl, ?_⟩
    rw [State.accepted_called, if_neg fun h => hc h.1.symm]
  · rcases hrun σ with hok | ⟨e', he', herror⟩
    · rw [Fails, hok] at h
      cases h
    · rw [Fails, herror] at h
      cases h
      exact ⟨c, _, _, hreads σ.store, he'⟩

theorem completedRuns : ReadOnly (Session.completedRuns : Session μ (KeySet Pair)) :=
  read (by decide) (fun _ _ h => absurd h List.not_mem_nil) _

theorem allNodes : ReadOnly (Session.allNodes : Session μ (List (Node μ))) :=
  read (by decide) (fun _ _ h => h) _

theorem factCount : ReadOnly (Session.factCount : Session μ Nat) :=
  read (by decide) (fun _ _ h => h) _

theorem findNode (id : String) : ReadOnly (Session.findNode id : Session μ (Option (Node μ))) :=
  read (by decide) (fun _ _ h => Store.mem_allNodes_of_node? (Option.mem_toList.mp h)) _

theorem containsNode (id : String) : ReadOnly (Session.containsNode id : Session μ Bool) :=
  read (by decide) (fun _ _ h => absurd h List.not_mem_nil) _

theorem findByTag (tag : String) : ReadOnly (Session.findByTag tag : Session μ (List (Node μ))) :=
  read (by decide) (fun _ _ h => Store.mem_allNodes_of_mem_nodesWithTag h) _

theorem isCancelled : ReadOnly (Session.isCancelled : Session μ Bool) where
  core _ := rfl
  reaches := State.Reaches.refl
  injects h := by cases h

end ReadOnly

/-! ## 4. Both ways out -/

/-- **What a session does from a state, whatever fails**: see above. -/
structure Withstands (m : Session μ α) (σ : State μ) (R : α → Nat → Prop)
    (P : Nat → Core μ → Prop) : Prop where
  answers : ∀ {a σ'}, Returns m σ a σ' → ∃ k, σ.Reaches k σ' ∧ R a k
  fails : ∀ {e σ'}, Fails m σ e σ' → σ'.Injects e ∧ ∃ k, σ.Reaches k σ' ∧ P k σ'.core

theorem ReadOnly.withstands {m : Session μ α} (h : ReadOnly m) {σ : State μ}
    {P : Nat → Core μ → Prop} (hP : P 0 σ.core) : Withstands m σ (fun _ k => k = 0) P where
  answers {a σ'} hret := by
    have hreaches := h.reaches σ
    rw [show m.run σ = _ from hret] at hreaches
    exact ⟨0, hreaches, rfl⟩
  fails {e σ'} hfail := by
    have hreaches := h.reaches σ
    have hcore := h.core σ
    rw [show m.run σ = _ from hfail] at hreaches hcore
    refine ⟨h.injects hfail, 0, hreaches, ?_⟩
    rw [show σ'.core = σ.core from hcore]
    exact hP

namespace Withstands

variable {m : Session μ α} {σ : State μ} {P : Nat → Core μ → Prop}

theorem pure {a : α} {R : α → Nat → Prop} (hR : R a 0) : Withstands (Pure.pure a) σ R P where
  answers h := by
    obtain ⟨rfl, rfl⟩ := returns_pure.mp h
    exact ⟨0, State.Reaches.refl _, hR⟩
  fails h := by cases h

/-- One session after another.  The first one takes `k` writes of the ledger if it answers, and what
it answers and leaves is its meaning. -/
theorem bind {f : α → Session μ β} {R : β → Nat → Prop} {k : Nat} {a : α} {κ' : Core μ}
    (hm : Withstands m σ (fun _ j => j = k) P) (hc : Computes m σ.core (.ok a) κ')
    (hf : ∀ σ', σ'.core = κ' →
      Withstands (f a) σ' (fun b j => R b (j + k)) (fun j κ => P (j + k) κ)) :
    Withstands (m >>= f) σ R P where
  answers {b σ''} h := by
    obtain ⟨a', σ', h₁, h₂⟩ := returns_bind.mp h
    obtain ⟨ha, hcore⟩ := hc.of_returns rfl h₁
    cases ha
    obtain ⟨_, hreaches, hk⟩ := hm.answers h₁
    rw [hk] at hreaches
    obtain ⟨j, hreaches', hR⟩ := (hf σ' hcore).answers h₂
    exact ⟨j + k, hreaches.trans hreaches', hR⟩
  fails {e σ''} h := by
    rcases fails_bind.mp h with h | ⟨a', σ', h₁, h₂⟩
    · exact hm.fails h
    · obtain ⟨ha, hcore⟩ := hc.of_returns rfl h₁
      cases ha
      obtain ⟨_, hreaches, hk⟩ := hm.answers h₁
      rw [hk] at hreaches
      obtain ⟨hinjects, j, hreaches', hP⟩ := (hf σ' hcore).fails h₂
      exact ⟨hinjects, j + k, hreaches.trans hreaches', hP⟩

theorem mono {R R' : α → Nat → Prop} {P' : Nat → Core μ → Prop} (h : Withstands m σ R P)
    (hR : ∀ a k, R a k → R' a k) (hP : ∀ k κ, P k κ → P' k κ) : Withstands m σ R' P' where
  answers hret := by
    obtain ⟨k, hreaches, h'⟩ := h.answers hret
    exact ⟨k, hreaches, hR _ _ h'⟩
  fails hfail := by
    obtain ⟨hinjects, k, hreaches, h'⟩ := h.fails hfail
    exact ⟨hinjects, k, hreaches, hP _ _ h'⟩

/-- A session, and then something that only reads. -/
theorem bind_readOnly {f : α → Session μ β} {R : α → Nat → Prop} (hm : Withstands m σ R P)
    (hf : ∀ a, ReadOnly (f a)) (hP : ∀ a σ' k, Returns m σ a σ' → R a k → P k σ'.core) :
    Withstands (m >>= f) σ (fun _ _ => True) P where
  answers {b σ''} h := by
    obtain ⟨a, σ', h₁, h₂⟩ := returns_bind.mp h
    obtain ⟨k, hreaches, -⟩ := hm.answers h₁
    have hread := (hf a).reaches σ'
    rw [show (f a).run σ' = _ from h₂] at hread
    exact ⟨0 + k, hreaches.trans hread, trivial⟩
  fails {e σ''} h := by
    rcases fails_bind.mp h with h | ⟨a, σ', h₁, h₂⟩
    · exact hm.fails h
    · obtain ⟨k, hreaches, hR⟩ := hm.answers h₁
      obtain ⟨hinjects, j, hread, hj, hcore⟩ :=
        ((hf a).withstands (P := fun k κ => k = 0 ∧ κ = σ'.core) ⟨rfl, rfl⟩).fails h₂
      subst hj
      refine ⟨hinjects, 0 + k, hreaches.trans hread, ?_⟩
      rw [hcore, Nat.zero_add]
      exact hP a σ' k h₁ hR

/-- A write whose work is not refused fails only as a whole. -/
theorem write {c : Call} {work : Store μ → Result (Store μ × α)} {store : Store μ} {a : α}
    (h : work σ.store = .ok (store, a)) (hP : P 0 σ.core) :
    Withstands (Session.write c work) σ (fun _ k => k = if c = .recordRuns then 1 else 0) P := by
  have hrun := run_write c work σ
  rw [h] at hrun
  have hcount := σ.accepted_called c .recordRuns
  cases hfault : σ.faults c (countOf σ.counts c + 1) [] with
  | none =>
    rw [hfault] at hrun hcount
    refine ⟨fun {a' σ'} hret => ⟨_, ⟨?_, ?_⟩, rfl⟩, fun {e σ'} hfail => ?_⟩
    · rw [Returns, hrun] at hret
      cases hret
      rfl
    · rw [Returns, hrun] at hret
      cases hret
      exact hcount.trans (by simp [eq_comm])
    · rw [Fails, hrun] at hfail
      cases hfail
  | some e₀ =>
    rw [hfault] at hrun hcount
    refine ⟨fun {a' σ'} hret => ?_, fun {e σ'} hfail => ?_⟩
    · rw [Returns, hrun] at hret
      cases hret
    · rw [Fails, hrun] at hfail
      cases hfail
      exact ⟨⟨c, _, [], by simp, hfault⟩, 0, ⟨rfl, hcount.trans (by simp)⟩, hP⟩

/-- Ask a run to stop under a condition, and go on. -/
theorem cancelIf {R : α → Nat → Prop} {c : Bool}
    (hm : ∀ σ' : State μ, σ'.core = ⟨σ.store, σ.cancelled || c⟩ → Withstands m σ' R P) :
    Withstands (if c then Session.cancel >>= fun _ => m else m) σ R P := by
  cases c with
  | false => exact hm σ (by rw [Bool.or_false]; rfl)
  | true =>
    have hstep := hm { σ with cancelled := true } (by rw [Bool.or_true]; rfl)
    refine ⟨fun {a σ'} hret => ?_, fun {e σ'} hfail => ?_⟩
    · obtain ⟨k, hreaches, hR⟩ := hstep.answers hret
      exact ⟨k, ⟨hreaches.faults, hreaches.accepted⟩, hR⟩
    · obtain ⟨hinjects, k, hreaches, hP⟩ := hstep.fails hfail
      exact ⟨hinjects, k, ⟨hreaches.faults, hreaches.accepted⟩, hP⟩

end Withstands

end Session

end FactGraph
