import FactGraph.Session

/-!
# What a session computes

A session counts its calls, and any call may fail, by itself or for the nodes it reads.  Neither shows
in what a session that ANSWERS has answered: the counts are only read to look a failure up, and a
failure ends the session.  So each
computation over storage has one meaning, which takes the core of a state (the store, and whether
the run is asked to stop) to a result and a new core.

`Session.Computes m κ r κ'` says both halves of that, from every state with core `κ`:

* if `m` answers, whatever may fail on the way, then its answer is `r` and it leaves the core `κ'`
  (`Computes.of_returns`);
* if nothing fails, `m` does end with `r` and `κ'` (`Computes.run_eq`).

There is one rule for each way of building a session (`Computes.bind`, `Computes.foldlM_read`) and
one for each kind of call, and none of them mentions counts or failures.
-/

namespace FactGraph

namespace Session

variable {μ α β : Type}

/-! ## 1. Answers -/

/-- Run from `σ`, the session answers `a` and leaves `σ'`. -/
def Returns (m : Session μ α) (σ : State μ) (a : α) (σ' : State μ) : Prop :=
  m.run σ = (.ok a, σ')

/-- Whether a session answers with something that passes a test. -/
def answers (m : Session μ α) (σ : State μ) (test : α → Bool) : Bool :=
  match (m.run σ).1 with
  | .ok a => test a
  | .error _ => false

theorem exists_returns {m : Session μ α} {σ : State μ} {test : α → Bool}
    (h : answers m σ test = true) : ∃ a, Returns m σ a (m.run σ).2 ∧ test a = true := by
  rw [answers] at h
  cases hm : (m.run σ).1 with
  | error e => rw [hm] at h; cases h
  | ok a =>
    rw [hm] at h
    exact ⟨a, Prod.ext hm rfl, h⟩

theorem returns_pure {a b : α} {σ σ' : State μ} :
    Returns (pure a) σ b σ' ↔ b = a ∧ σ' = σ := by
  show ((Except.ok a, σ) : Result α × State μ) = (.ok b, σ') ↔ _
  rw [Prod.mk.injEq, Except.ok.injEq]
  exact and_congr eq_comm eq_comm

theorem run_bind (m : Session μ α) (f : α → Session μ β) (σ : State μ) :
    (m >>= f).run σ = match m.run σ with
      | (.ok a, σ') => (f a).run σ'
      | (.error e, σ') => (.error e, σ') := by
  rw [ExceptT.run_bind]
  show (m.run >>= _ : StateM _ _).run σ = _
  rw [StateT.run_bind]
  have h : (m.run : StateM _ _).run σ = m.run σ := rfl
  rw [h]
  rcases m.run σ with ⟨_ | _, σ'⟩ <;> rfl

theorem returns_bind {m : Session μ α} {f : α → Session μ β} {σ σ'' : State μ} {b : β} :
    Returns (m >>= f) σ b σ'' ↔ ∃ a σ', Returns m σ a σ' ∧ Returns (f a) σ' b σ'' := by
  rw [Returns, run_bind]
  constructor
  · intro h
    rcases hm : m.run σ with ⟨r, σ'⟩
    rw [hm] at h
    cases r with
    | error e => cases h
    | ok a => exact ⟨a, σ', hm, h⟩
  · rintro ⟨a, σ', hm, hf⟩
    rw [hm]
    exact hf

/-! ## 2. The meaning of a session -/

/-- What of a session's state is more than bookkeeping. -/
structure Core (μ : Type) where
  store : Store μ
  cancelled : Bool

/-- The state without its bookkeeping. -/
def State.core (σ : State μ) : Core μ := ⟨σ.store, σ.cancelled⟩

/-- No call will fail. -/
def State.Reliable (σ : State μ) : Prop := ∀ call n nodes, σ.faults call n nodes = none

/-- **The meaning of a session**: from core `κ` it comes to the result `r` and the core `κ'`, unless
a call fails. -/
structure Computes (m : Session μ α) (κ : Core μ) (r : Result α) (κ' : Core μ) : Prop where
  of_returns : ∀ {σ : State μ} {a : α} {σ' : State μ},
    σ.core = κ → Returns m σ a σ' → r = .ok a ∧ σ'.core = κ'
  run_eq : ∀ {σ : State μ}, σ.core = κ → σ.Reliable →
    ∃ σ', m.run σ = (r, σ') ∧ σ'.core = κ' ∧ σ'.Reliable

namespace Computes

theorem pure (a : α) (κ : Core μ) : Computes (pure a) κ (.ok a) κ where
  of_returns hσ h := by
    obtain ⟨rfl, rfl⟩ := returns_pure.mp h
    exact ⟨rfl, hσ⟩
  run_eq {σ} hσ hrel := ⟨σ, rfl, hσ, hrel⟩

/-- One session after another. -/
theorem bind {m : Session μ α} {f : α → Session μ β} {κ κ' κ'' : Core μ} {a : α} {r : Result β}
    (hm : Computes m κ (.ok a) κ') (hf : Computes (f a) κ' r κ'') :
    Computes (m >>= f) κ r κ'' where
  of_returns hσ h := by
    obtain ⟨a', σ', h₁, h₂⟩ := returns_bind.mp h
    obtain ⟨ha, hσ'⟩ := hm.of_returns hσ h₁
    cases ha
    exact hf.of_returns hσ' h₂
  run_eq hσ hrel := by
    obtain ⟨σ', hrun, hσ', hrel'⟩ := hm.run_eq hσ hrel
    obtain ⟨σ'', hrun', hσ'', hrel''⟩ := hf.run_eq hσ' hrel'
    refine ⟨σ'', ?_, hσ'', hrel''⟩
    rw [run_bind, hrun]
    exact hrun'

/-- A session that stops with an error stops everything after it. -/
theorem bind_error {m : Session μ α} {f : α → Session μ β} {κ κ' : Core μ} {e : Error}
    (hm : Computes m κ (.error e) κ') : Computes (m >>= f) κ (.error e) κ' where
  of_returns hσ h := by
    obtain ⟨a', σ', h₁, -⟩ := returns_bind.mp h
    cases (hm.of_returns hσ h₁).1
  run_eq hσ hrel := by
    obtain ⟨σ', hrun, hσ', hrel'⟩ := hm.run_eq hσ hrel
    refine ⟨σ', ?_, hσ', hrel'⟩
    rw [run_bind, hrun]

/-- A loop that only reads. -/
theorem foldlM_read {f : β → α → Session μ β} {κ : Core μ} (step : β → α → β)
    (hf : ∀ b a, Computes (f b a) κ (.ok (step b a)) κ) (xs : List α) (b : β) :
    Computes (xs.foldlM f b) κ (.ok (xs.foldl step b)) κ := by
  induction xs generalizing b with
  | nil => exact Computes.pure b κ
  | cons a rest ih =>
    rw [List.foldlM_cons, List.foldl_cons]
    exact (hf b a).bind (ih (step b a))

theorem mapM_read {f : α → Session μ β} {κ : Core μ} (g : α → β)
    (hf : ∀ a, Computes (f a) κ (.ok (g a)) κ) (xs : List α) :
    Computes (xs.mapM f) κ (.ok (xs.map g)) κ := by
  induction xs with
  | nil =>
    rw [List.mapM_nil]
    exact Computes.pure [] κ
  | cons a rest ih =>
    rw [List.mapM_cons]
    exact (hf a).bind (ih.bind (Computes.pure _ κ))

theorem filterM_read {f : α → Session μ Bool} {κ : Core μ} (test : α → Bool)
    (hf : ∀ a, Computes (f a) κ (.ok (test a)) κ) (xs : List α) :
    Computes (xs.filterM f) κ (.ok (xs.filter test)) κ := by
  have haux : ∀ kept,
      Computes (xs.filterAuxM f kept) κ (.ok ((xs.filter test).reverse ++ kept)) κ := by
    induction xs with
    | nil => exact fun kept => Computes.pure kept κ
    | cons a rest ih =>
      intro kept
      rw [List.filterAuxM]
      refine (hf a).bind ?_
      cases h : test a with
      | true =>
        rw [List.filter_cons_of_pos h, List.reverse_cons, List.append_assoc]
        exact ih (a :: kept)
      | false =>
        rw [List.filter_cons_of_neg (Bool.eq_false_iff.mp h)]
        exact ih kept
  have hpure := Computes.pure ((xs.filter test).reverse ++ []).reverse κ
  rw [List.append_nil, List.reverse_reverse] at hpure
  exact (haux []).bind (by simpa using hpure)

end Computes

/-! ## 3. Calls -/

theorem run_call (c : Call) (reads : Store μ → List (Node μ))
    (work : Store μ → Result (Store μ × α)) (σ : State μ) :
    (call c reads work).run σ =
      match σ.faults c (countOf σ.counts c + 1) (reads σ.store) with
      | some e => (.error e, { σ with counts := bump σ.counts c })
      | none =>
        match work σ.store with
        | .ok (store, a) => (.ok a, { σ with counts := bump σ.counts c, store })
        | .error e => (.error e, { σ with counts := bump σ.counts c }) := by
  unfold call
  rw [run_bind]
  show (match ((Except.ok σ, σ) : Result (State μ) × State μ) with
    | (Except.ok a, σ') => _
    | (Except.error e, σ') => (Except.error e, σ')) = _
  simp only []
  rw [run_bind]
  cases σ.faults c (countOf σ.counts c + 1) (reads σ.store) with
  | some e => rfl
  | none =>
    cases work σ.store with
    | error e => rfl
    | ok r => rfl

theorem run_write (c : Call) (work : Store μ → Result (Store μ × α)) (σ : State μ) :
    (write c work).run σ =
      match σ.faults c (countOf σ.counts c + 1) [] with
      | some e => (.error e, { σ with counts := bump σ.counts c })
      | none =>
        match work σ.store with
        | .ok (store, a) => (.ok a, { σ with counts := bump σ.counts c, store })
        | .error e => (.error e, { σ with counts := bump σ.counts c }) :=
  run_call c _ work σ

namespace Computes

/-- A call does its work on the store. -/
theorem call {c : Call} {reads : Store μ → List (Node μ)} {work : Store μ → Result (Store μ × α)}
    {κ : Core μ} {store : Store μ} {a : α} (h : work κ.store = .ok (store, a)) :
    Computes (call c reads work) κ (.ok a) ⟨store, κ.cancelled⟩ where
  of_returns {σ _ _} hσ hret := by
    subst hσ
    rw [Returns, run_call, show work σ.store = _ from h] at hret
    cases hf : σ.faults c (countOf σ.counts c + 1) (reads σ.store) with
    | some e => rw [hf] at hret; cases hret
    | none =>
      rw [hf] at hret
      cases hret
      exact ⟨rfl, rfl⟩
  run_eq {σ} hσ hrel := by
    subst hσ
    rw [run_call, show work σ.store = _ from h, hrel]
    exact ⟨_, rfl, rfl, hrel⟩

/-- A call whose work is refused changes nothing. -/
theorem call_error {c : Call} {reads : Store μ → List (Node μ)}
    {work : Store μ → Result (Store μ × α)} {κ : Core μ} {e : Error}
    (h : work κ.store = .error e) : Computes (Session.call c reads work) κ (.error e) κ where
  of_returns {σ _ _} hσ hret := by
    subst hσ
    rw [Returns, run_call, show work σ.store = _ from h] at hret
    cases hf : σ.faults c (countOf σ.counts c + 1) (reads σ.store) with
    | some e => rw [hf] at hret; cases hret
    | none => rw [hf] at hret; cases hret
  run_eq {σ} hσ hrel := by
    subst hσ
    rw [run_call, show work σ.store = _ from h, hrel]
    exact ⟨_, rfl, rfl, hrel⟩

theorem write {c : Call} {work : Store μ → Result (Store μ × α)} {κ : Core μ} {store : Store μ}
    {a : α} (h : work κ.store = .ok (store, a)) :
    Computes (Session.write c work) κ (.ok a) ⟨store, κ.cancelled⟩ :=
  call h

theorem write_error {c : Call} {work : Store μ → Result (Store μ × α)} {κ : Core μ} {e : Error}
    (h : work κ.store = .error e) : Computes (Session.write c work) κ (.error e) κ :=
  call_error h

theorem read (c : Call) (reads : Store μ → List (Node μ)) (query : Store μ → α) (κ : Core μ) :
    Computes (Session.read c reads query) κ (.ok (query κ.store)) κ :=
  call rfl

theorem completedRuns (κ : Core μ) :
    Computes Session.completedRuns κ (.ok (κ.store.ledger.mapValues fun _ _ => ())) κ :=
  read _ _ _ κ

theorem allNodes (κ : Core μ) : Computes Session.allNodes κ (.ok κ.store.allNodes) κ := read _ _ _ κ

theorem factCount (κ : Core μ) : Computes Session.factCount κ (.ok κ.store.factCount) κ :=
  read _ _ _ κ

theorem findNode (id : String) (κ : Core μ) :
    Computes (Session.findNode id) κ (.ok (κ.store.node? id)) κ :=
  read _ _ _ κ

theorem containsNode (id : String) (κ : Core μ) :
    Computes (Session.containsNode id) κ (.ok (κ.store.contains id)) κ :=
  read _ _ _ κ

theorem findByTag (tag : String) (κ : Core μ) :
    Computes (Session.findByTag tag) κ (.ok (κ.store.nodesWithTag tag)) κ :=
  read _ _ _ κ

theorem cancel (κ : Core μ) : Computes Session.cancel κ (.ok ()) ⟨κ.store, true⟩ where
  of_returns hσ h := by
    subst hσ
    cases h
    exact ⟨rfl, rfl⟩
  run_eq hσ hrel := by
    subst hσ
    exact ⟨_, rfl, rfl, hrel⟩

/-- Ask a run to stop under a condition, and go on. -/
theorem cancelIf {m : Session μ α} {c b : Bool} {store : Store μ} {r : Result α} {κ : Core μ}
    (hm : Computes m ⟨store, b || c⟩ r κ) :
    Computes (if c then Session.cancel >>= fun _ => m else m) ⟨store, b⟩ r κ := by
  cases c with
  | true =>
    rw [Bool.or_true] at hm
    exact (cancel ⟨store, b⟩).bind hm
  | false =>
    rw [Bool.or_false] at hm
    exact hm

theorem isCancelled (κ : Core μ) : Computes Session.isCancelled κ (.ok κ.cancelled) κ where
  of_returns hσ h := by
    subst hσ
    cases h
    exact ⟨rfl, rfl⟩
  run_eq hσ hrel := by
    subst hσ
    exact ⟨_, rfl, rfl, hrel⟩

end Computes

end Session

end FactGraph
