import FactGraph.Proofs.ResourceStores
import FactGraph.Proofs.Runs
import FactGraph.Proofs.Sums

/-!
# Line totals

The line counter writes to two nodes: the file gets its number of lines, and the container gets it added
to a sum, with a counter beside it.  The two writes go together, and a file is counted once, for then
its pair stands in the ledger.  So at every moment the sum of a container is the sum over the measured
files in it, and the counter is their number (`line_totals_conserved`).
-/

namespace FactGraph

open FileSystem (Item)
open Builtin

variable {μ : Type}

/-! ## 1. Trees that can be counted -/

/-- A tree has no more than a number of lines in its files, and fewer files than a machine word can
count. -/
def FitsIn (fs : FileSystem) (excludes : String → Bool) (root : Location) (tree : Item)
    (bound : Nat) : Prop :=
  ∀ files : List (Location × Bytes), (files.map Prod.fst).Nodup →
    (∀ f ∈ files, ∃ modified, Reachable fs excludes root tree f.1 (.file f.2 modified)) →
    files.length < Nat.pow 2 64 ∧ (files.map fun f => countLines f.2).sum ≤ bound

/-- A tree that can be read and whose lines can be counted. -/
structure Surveyable (μ : Type) [Measure μ] (fs : FileSystem) (excludes : String → Bool)
    (root : Location) (tree : Item) (bound : Nat) : Prop where
  readable : Readable fs excludes root tree
  counts : Measure.CountsTo μ bound
  fits : FitsIn fs excludes root tree bound

/-- It is enough to list the files of a tree. -/
theorem FitsIn.of_files {excludes : String → Bool} {root : Location} {tree : Item} {bound : Nat}
    {files : List (Location × Bytes)} (hall : ∀ l content modified,
      Reachable fs excludes root tree l (.file content modified) → (l, content) ∈ files)
    (hlength : files.length < Nat.pow 2 64)
    (hlines : (files.map fun f => countLines f.2).sum ≤ bound) : FitsIn fs excludes root tree bound := by
  intro some hnodup hsome
  have hsub : some.Subperm files := by
    refine (List.Nodup.of_map _ hnodup).subperm fun f hf => ?_
    obtain ⟨modified, hl⟩ := hsome f hf
    exact hall f.1 f.2 modified hl
  refine ⟨hsub.length_le.trans_lt hlength, le_trans ?_ hlines⟩
  obtain ⟨sub, hperm, hsublist⟩ := hsub
  rw [← (hperm.map _).sum_eq]
  exact (hsublist.map _).sum_le_sum fun _ _ => Nat.zero_le _

namespace Surveyable

variable [Measure μ] {fs : FileSystem} {excludes : String → Bool} {root : Location}
  {tree : Item} {bound : Nat}

/-- The ids of files: there are not too many, and neither have they too many lines. -/
theorem fits_ids (h : Surveyable μ fs excludes root tree bound) {ids : List String}
    (hnodup : ids.Nodup)
    (hids : ∀ id ∈ ids, ∃ l item, Reachable fs excludes root tree l item ∧ id = l.uri ∧
      resourceKind l item = fileKind) :
    ids.length < Nat.pow 2 64 ∧ (ids.map (linesAt fs)).sum ≤ bound := by
  have hfiles : ∃ files : List (Location × Bytes), files.map (·.1.uri) = ids ∧
      files.map (fun f => countLines f.2) = ids.map (linesAt fs) ∧
      ∀ f ∈ files, ∃ modified, Reachable fs excludes root tree f.1 (.file f.2 modified) := by
    clear hnodup
    induction ids with
    | nil => exact ⟨[], rfl, rfl, by simp⟩
    | cons id rest ih =>
      obtain ⟨files, huris, hlines, hreachable⟩ := ih fun x hx => hids x (List.mem_cons_of_mem _ hx)
      obtain ⟨l, item, hl, rfl, hkind⟩ := hids id List.mem_cons_self
      obtain ⟨content, modified, rfl⟩ := h.readable.exists_file hl hkind
      refine ⟨(l, content) :: files, by simp [huris], ?_, ?_⟩
      · simp [hlines, h.readable.linesAt_of_file hl]
      · simpa using ⟨⟨modified, hl⟩, fun a b hab => hreachable (a, b) hab⟩
  obtain ⟨files, rfl, hlines, hreachable⟩ := hfiles
  have hplaces : (files.map Prod.fst).Nodup := by
    refine List.Nodup.of_map Location.uri ?_
    rwa [List.map_map]
  rw [List.length_map, ← hlines]
  exact h.fits files hplaces hreachable

theorem linesAt_le (h : Surveyable μ fs excludes root tree bound) {l : Location} {item : Item}
    (hl : Reachable fs excludes root tree l item) (hkind : resourceKind l item = fileKind) :
    linesAt fs l.uri ≤ bound := by
  have hids : ∀ id ∈ [l.uri], ∃ l item, Reachable fs excludes root tree l item ∧ id = l.uri ∧
      resourceKind l item = fileKind := by
    intro id hid
    rw [List.mem_singleton.1 hid]
    exact ⟨l, item, hl, rfl, hkind⟩
  simpa using (h.fits_ids (List.nodup_singleton l.uri) hids).2

theorem isFinite_linesAt (h : Surveyable μ fs excludes root tree bound) {id : String}
    {n : Node μ} (hn : Placed fs excludes root tree id n) (hkind : n.kind = fileKind) :
    linesAt fs id ≤ bound ∧ Measure.isFinite (Measure.ofNat (linesAt fs id) : μ) = true := by
  obtain ⟨l, item, hl, rfl, hkind', -⟩ := hn
  have hle := h.linesAt_le hl (hkind'.symm.trans hkind)
  exact ⟨hle, h.counts.finite _ hle⟩

/-- A count can be represented, and goes to the file and to its container. -/
theorem get?_patches (h : Surveyable μ fs excludes root tree bound) {s : Store μ}
    (hs : Charted fs excludes root tree s) {c : Completion μ} {n : Node μ} (hn : CountsLines fs s c n)
    (id : String) : c.findings.patches.get? id =
      if parentOf? n = some id then some (sharing (linesAt fs n.id))
      else if id = n.id then some (measuring (linesAt fs n.id)) else none := by
  have hfinite := (h.isFinite_linesAt (hs.placed n.id n hn.stored) hn.kind).2
  simp only [hn.get?_patches h.readable hs, hfinite, and_true]

end Surveyable

/-! ## 2. The total of a node -/

/-- The lines that a node has gathered: how many contributions, and their sum. -/
def Node.tally (n : Node μ) : Nat × Option μ := (n.counted linesKey, n.metrics.get? linesKey)

/-- The lines that have been gathered under an id. -/
def tallyOf (o : Option (Node μ)) : Nat × Option μ := o.elim (0, none) Node.tally

/-- The files with measured lines in a container, by id. -/
def Store.measuredIn (s : Store μ) (container : String) : List String :=
  (s.allNodes.filter fun n => n.hasTag measuredTag && parentOf? n = some container).map Node.id

theorem Store.mem_measuredIn {s : Store μ} (hs : s.Keyed) {container id : String} :
    id ∈ s.measuredIn container ↔ ∃ n, s.node? id = some n ∧ n.hasTag measuredTag = true ∧
      parentOf? n = some container := by
  rw [Store.measuredIn, List.mem_map]
  constructor
  · rintro ⟨n, hn, rfl⟩
    obtain ⟨hmem, htest⟩ := List.mem_filter.1 hn
    rw [Bool.and_eq_true, decide_eq_true_iff] at htest
    exact ⟨n, hs.mem_allNodes.1 hmem, htest⟩
  · rintro ⟨n, hn, htag, hparent⟩
    have hid := hs.own id n hn
    refine ⟨n, List.mem_filter.2 ⟨hs.mem_allNodes.2 (hid ▸ hn), ?_⟩, hid⟩
    rw [Bool.and_eq_true, decide_eq_true_iff]
    exact ⟨htag, hparent⟩

theorem Store.nodup_measuredIn {s : Store μ} (hs : s.Keyed) (container : String) :
    (s.measuredIn container).Nodup :=
  hs.nodup_ids.sublist (List.filter_sublist.map Node.id)

namespace Builtin

variable {n o : Node μ} {p : Patch μ}

theorem Fresh.tally_eq (h : Fresh o) : o.tally = (0, none) := by
  rw [Node.tally, Node.counted, Patch.counted, h.uncounted, h.metrics]
  rfl

theorem Fresh.tally_absorb (h : Fresh o) : (n.absorb o).tally = n.tally := by
  rw [Node.tally, Node.tally, Node.counted, Node.counted, Patch.counted, Patch.counted, Node.absorb,
    Table.get?_overlay, Table.get?_overlay, h.uncounted, h.metrics, Option.none_or]
  rfl

variable [Measure μ]

theorem Notes.tally_apply (h : Notes p) : (p.apply n).tally = n.tally := by
  have happly : p.apply n = { n with
      tags := n.tags.union p.tags
      properties := n.properties.overlay p.properties
      metrics := n.metrics } := by
    rw [Patch.apply, h.sums, h.metrics]
    rfl
  rw [happly, Node.tally, Node.tally, Node.counted, Node.counted, Patch.counted, Patch.counted,
    Table.get?_overlay, h.uncounted, Option.none_or]

/-- One contribution more. -/
def increased (lines : Nat) (t : Nat × Option μ) : Nat × Option μ :=
  ((t.1 + 1) % Nat.pow 2 64,
    some (Measure.add (t.2.getD Measure.zero) (Measure.add Measure.zero (Measure.ofNat lines))))

theorem tally_sharing (lines : Nat) :
    ((sharing lines : Patch μ).apply n).tally = increased lines n.tally := by
  have happly : (sharing lines : Patch μ).apply n =
      Patch.addSum n linesKey (Tally.none.add (Measure.ofNat lines)) := rfl
  rw [happly, Node.tally, Patch.counted_addSum, if_pos rfl, Patch.get?_metrics_addSum, if_pos rfl]
  rfl

end Builtin

/-! ## 3. One result -/

/-- A result gives lines to a container. -/
def Completion.addsTo (c : Completion μ) (container : String) : Bool :=
  (c.findings.patches.get? container).any (·.sums.contains linesKey)

section Results

variable [Measure μ] {fs : FileSystem} {settings : Settings} {excludes : String → Bool}
  {root : Location} {tree : Item} {s : Store μ} {bound : Nat} {c : Completion μ}
  {results : List (Completion μ)}

/-- Everything that was observed is fresh. -/
theorem tallyOf_observed {seen : List (Node μ)} (h : ∀ o ∈ seen, Fresh o) (id : String)
    (o : Option (Node μ)) : tallyOf ((seen.map Write.observe).foldl (Write.onto id) o) = tallyOf o := by
  induction seen generalizing o with
  | nil => rfl
  | cons first rest ih =>
    rw [List.map_cons, List.foldl_cons, ih fun x hx => h x (List.mem_cons_of_mem _ hx), Write.onto]
    have hfresh := h first List.mem_cons_self
    split
    · cases o with
      | none => exact hfresh.tally_eq
      | some n => exact hfresh.tally_absorb
    · rfl

/-- A result that gives lines to a container is the count of a file in it. -/
theorem addsTo_iff (h : Surveyable μ fs excludes root tree bound) (hs : Charted fs excludes root tree s)
    (hc : Reports fs settings excludes root tree s c) {container : String} :
    c.addsTo container = true ↔ ∃ n, CountsLines fs s c n ∧ parentOf? n = some container := by
  constructor
  · intro hadds
    obtain ⟨p, hp, hsums⟩ := (Option.any_eq_true _ _).1 hadds
    cases hc with
    | seeded _ _ hfinds =>
      rw [hfinds] at hp
      cases hp
    | unfolded _ hl _ hfinds =>
      obtain ⟨item, hl⟩ := hl
      rw [(hfinds item hl).patches] at hp
      cases hp
    | noted _ _ hnotes _ =>
      rw [(hnotes container p hp).sums] at hsums
      cases hsums
    | @counted n hn =>
      refine ⟨n, hn, ?_⟩
      rw [h.get?_patches hs hn] at hp
      split at hp
      · assumption
      · split at hp
        · cases hp
          cases hsums
        · cases hp
  · rintro ⟨n, hn, hparent⟩
    rw [Completion.addsTo, h.get?_patches hs hn, if_pos hparent]
    rfl

/-- **What a result does to the total of a container**: nothing, or it adds the lines of a file. -/
theorem tallyOf_writes (h : Surveyable μ fs excludes root tree bound)
    (hs : Charted fs excludes root tree s) (hc : Reports fs settings excludes root tree s c)
    {id : String} (hid : ∀ n, s.node? id = some n → n.kind ≠ fileKind) (o : Option (Node μ)) :
    tallyOf (c.writes.foldl (Write.onto id) o) =
      if c.addsTo id then o.elim (0, none) fun n => increased (linesAt fs c.pair.node) n.tally
      else tallyOf o := by
  rw [Completion.writes, List.foldl_append, Write.foldl_onto_patches]
  cases hc with
  | @seeded d _ _ hfinds =>
    have hfresh : ∀ o ∈ c.findings.observed, Fresh o := by
      intro o ho
      rw [hfinds] at ho
      cases List.mem_singleton.1 ho
      exact fresh_resourceNode root d
    rw [← tallyOf_observed hfresh id o, Completion.addsTo, hfinds]
    rfl
  | unfolded _ hl _ hfinds =>
    obtain ⟨item, hl⟩ := hl
    replace hfinds := hfinds item hl
    have hfresh : ∀ o ∈ c.findings.observed, Fresh o := by
      intro o ho
      obtain ⟨_, _, _, _, _, _, _, _, hfresh⟩ := hfinds.observed o ho
      exact hfresh
    rw [← tallyOf_observed hfresh id o, Completion.addsTo, hfinds.patches]
    rfl
  | noted hobserved _ hnotes _ =>
    rw [hobserved, Completion.addsTo]
    cases hp : c.findings.patches.get? id with
    | none => rfl
    | some p =>
      rw [Option.any_some, (hnotes id p hp).sums]
      cases o with
      | none => rfl
      | some n => exact (hnotes id p hp).tally_apply
  | @counted n hn =>
    have hne : id ≠ n.id := fun heq => hid n (heq ▸ hn.stored) hn.kind
    have hobserved : c.findings.observed = [] := by
      rw [hn.findings]
      exact (quiet_lineFindings n _).1
    rw [Completion.addsTo, hobserved, h.get?_patches hs hn, hn.pair, if_neg hne]
    split
    · -- the container gets the lines
      rw [if_pos (by rfl)]
      cases o with
      | none => rfl
      | some m => exact tally_sharing _
    · rfl

/-! ## 4. All results of a commit -/

/-- What has been gathered stands for a number of contributions with a number of lines. -/
structure Amounts (t : Nat × Option μ) (count lines : Nat) : Prop where
  count : t.1 = count % Nat.pow 2 64
  lines : t.2.getD Measure.zero = Measure.ofNat lines

theorem Amounts.add (h : Measure.CountsTo μ bound) {t : Nat × Option μ} {count lines more : Nat}
    (ht : Amounts t count lines) (hbound : lines + more ≤ bound) :
    Amounts (increased more t) (count + 1) (lines + more) where
  count := by rw [increased, ht.count, Nat.mod_add_mod]
  lines := by
    have hmore : (Measure.add Measure.zero (Measure.ofNat more) : μ) = Measure.ofNat more := by
      rw [← h.zero, ← h.add 0 more (by omega), Nat.zero_add]
    rw [increased, Option.getD_some, hmore, ht.lines, h.add lines more hbound]

/-- Storing a node keeps what it has gathered. -/
theorem Amounts.stored (h : Measure.CountsTo μ bound) {o : Option (Node μ)} {count lines : Nat}
    (ho : Amounts (tallyOf o) count lines) (hbound : lines ≤ bound) :
    Amounts (tallyOf (o.map Node.stored)) count lines := by
  cases o with
  | none => exact ho
  | some n =>
    refine ⟨(n.counted_stored linesKey).trans ho.count, ?_⟩
    exact Node.getD_metrics_stored ho.lines (h.finite lines hbound) (h.stored lines hbound)

/-- The files whose lines some results give to a container. -/
def Commit.newIn (results : List (Completion μ)) (container : String) : List String :=
  (results.filter (·.addsTo container)).map (·.pair.node)

/-- Results that are written one after the other: `o` is what the earlier ones have left. -/
theorem amounts_foldl (h : Surveyable μ fs excludes root tree bound)
    (hs : Charted fs excludes root tree s)
    (hreports : ∀ c ∈ results, Reports fs settings excludes root tree s c)
    {id : String} (hid : ∀ n, s.node? id = some n → n.kind ≠ fileKind) {o : Option (Node μ)}
    (ho : s.contains id = true → o.isSome = true) {count lines : Nat}
    (hbefore : Amounts (tallyOf o) count lines)
    (hbound : lines + ((Commit.newIn results id).map (linesAt fs)).sum ≤ bound) :
    Amounts (tallyOf (results.foldl (fun o c => c.writes.foldl (Write.onto id) o) o))
      (count + (Commit.newIn results id).length)
      (lines + ((Commit.newIn results id).map (linesAt fs)).sum) := by
  induction results generalizing o count lines with
  | nil => exact hbefore
  | cons c rest ih =>
    obtain ⟨hc, hrest⟩ := List.forall_mem_cons.1 hreports
    have hnext := tallyOf_writes h hs hc hid o
    have hstill : s.contains id = true → (c.writes.foldl (Write.onto id) o).isSome = true :=
      fun hcontains => Write.isSome_foldl_onto (ho hcontains)
    rw [List.foldl_cons]
    cases hadds : c.addsTo id with
    | false =>
      have hnew : Commit.newIn (c :: rest) id = Commit.newIn rest id := by
        simp [Commit.newIn, hadds]
      rw [hnew] at hbound ⊢
      rw [hadds] at hnext
      exact ih hrest hstill (hnext ▸ hbefore) hbound
    | true =>
      have hnew : Commit.newIn (c :: rest) id = c.pair.node :: Commit.newIn rest id := by
        simp [Commit.newIn, hadds]
      -- a container that gets lines is there from the beginning
      obtain ⟨n, hn, hparent⟩ := (addsTo_iff h hs hc).1 hadds
      obtain ⟨m, rfl⟩ := Option.isSome_iff_exists.1 (ho (hs.parents n.id n id hn.stored hparent))
      rw [hnew, List.map_cons, List.sum_cons] at hbound ⊢
      have hone : lines + linesAt fs c.pair.node ≤ bound := by omega
      rw [hadds, if_pos rfl] at hnext
      have hadd : Amounts (tallyOf (c.writes.foldl (Write.onto id) (some m))) (count + 1)
          (lines + linesAt fs c.pair.node) := by
        rw [hnext]
        exact hbefore.add h.counts hone
      have hmore := ih hrest hstill hadd (Nat.add_assoc lines _ _ ▸ hbound)
      rwa [List.length_cons, Nat.add_comm _ 1, ← Nat.add_assoc, ← Nat.add_assoc]

/-- **What the results of a commit do to the total of a container**: they add the lines of the files that
they count. -/
theorem amounts_viewed (h : Surveyable μ fs excludes root tree bound)
    (hs : Charted fs excludes root tree s)
    (hreports : ∀ c ∈ results, Reports fs settings excludes root tree s c)
    {id : String} (hid : ∀ n, s.node? id = some n → n.kind ≠ fileKind) {count lines : Nat}
    (hbefore : Amounts (tallyOf (s.node? id)) count lines)
    (hbound : lines + ((Commit.newIn results id).map (linesAt fs)).sum ≤ bound) :
    Amounts (tallyOf (Commit.viewed s results id)) (count + (Commit.newIn results id).length)
      (lines + ((Commit.newIn results id).map (linesAt fs)).sum) := by
  have hperm : (Commit.newIn (results.mergeSort Commit.before) id).Perm (Commit.newIn results id) :=
    ((List.mergeSort_perm results Commit.before).filter _).map _
  rw [← hperm.length_eq, ← (hperm.map (linesAt fs)).sum_eq] at *
  rw [Commit.viewed, Commit.writes, List.foldl_flatMap]
  exact amounts_foldl h hs (fun c hc => hreports c (List.mem_mergeSort.1 hc)) hid
    (fun hcontains => s.contains_eq_isSome id ▸ hcontains) hbefore hbound

/-! ## 5. Measured files -/

/-- What the metrics of a node say: there is only one, and on a file it is the number of lines.  What is
measured is a file, and has it. -/
structure Gauged (fs : FileSystem) (id : String) (n : Node μ) : Prop where
  metrics : ∀ key x, n.metrics.get? key = some x →
    key = linesKey ∧ (n.kind = fileKind → x = Measure.ofNat (linesAt fs id))
  measured : n.hasTag measuredTag = true →
    n.kind = fileKind ∧ n.metrics.get? linesKey = some (Measure.ofNat (linesAt fs id))

/-- A node that changes nothing of this is gauged like the one before. -/
theorem Gauged.of_same {id : String} {m n : Node μ} (h : Gauged fs id n) (hkind : m.kind = n.kind)
    (htag : m.hasTag measuredTag = true → n.hasTag measuredTag = true)
    (hmetrics : m.metrics = n.metrics) : Gauged fs id m := by
  refine ⟨fun key x hx => ?_, fun hm => ?_⟩
  · rw [hkind]
    exact h.metrics key x (hmetrics ▸ hx)
  · rw [hkind, hmetrics]
    exact h.measured (htag hm)

theorem Gauged.stored (h : Surveyable μ fs excludes root tree bound) {id : String} {n : Node μ}
    (hn : Placed fs excludes root tree id n) (hg : Gauged fs id n) : Gauged fs id n.stored := by
  refine ⟨fun key x hx => ?_, fun hm => ?_⟩
  · rw [Node.get?_metrics_stored] at hx
    obtain ⟨y, hy, rfl⟩ := Option.map_eq_some_iff.1 hx
    obtain ⟨hkey, hvalue⟩ := hg.metrics key y (Option.filter_eq_some_iff.1 hy).1
    refine ⟨hkey, fun hkind => ?_⟩
    rw [hvalue hkind, h.counts.stored _ (h.isFinite_linesAt hn hkind).1]
  · obtain ⟨hkind, hlines⟩ := hg.measured hm
    obtain ⟨hle, hfinite⟩ := h.isFinite_linesAt hn hkind
    refine ⟨hkind, ?_⟩
    rw [Node.get?_metrics_stored, hlines, Option.filter_some_pos hfinite, Option.map_some,
      h.counts.stored _ hle]

/-- One write: metrics stay as they should be, and what becomes measured has been counted now. -/
theorem Asks.gauged_onto (h : Surveyable μ fs excludes root tree bound)
    (hs : Charted fs excludes root tree s) {w : Write μ} (hw : Asks fs excludes root tree s results w)
    {id : String} {n m : Node μ} (hn : Placed fs excludes root tree id n) (hg : Gauged fs id n)
    (hm : w.onto id (some n) = some m) :
    Gauged fs id m ∧ (m.hasTag measuredTag = true → n.hasTag measuredTag = true ∨
      ∃ c ∈ results, ∃ file, CountsLines fs s c file ∧ file.id = id) := by
  rcases hw.onto_cases h.readable hs hn hm with
    ⟨hkind, hmetrics, htag⟩ | ⟨c, hc, file, hfile, hid, hkind, rfl⟩ | ⟨c, -, file, -, -, -, hkind, rfl⟩
  · exact ⟨hg.of_same hkind htag hmetrics, fun hm => .inl (htag hm)⟩
  · have hfinite := (h.isFinite_linesAt hn hkind).2
    refine ⟨⟨fun key x hx => ?_, fun _ => ⟨hkind, ?_⟩⟩, fun _ => .inr ⟨c, hc, file, hfile, hid⟩⟩
    · rw [get?_metrics_measuring] at hx
      split at hx
      · next hkey =>
        cases hx
        exact ⟨hkey.1, fun _ => rfl⟩
      · next hother => exact absurd ⟨(hg.metrics key x hx).1, hfinite⟩ hother
    · rw [get?_metrics_measuring, if_pos ⟨rfl, hfinite⟩]
  · -- a container is no file, so it has not been measured
    refine ⟨⟨fun key x hx => ⟨?_, fun hfile => absurd hfile hkind⟩,
      fun hm => absurd (hg.measured hm).1 hkind⟩, .inl⟩
    by_contra hkey
    rw [get?_metrics_sharing _ hkey] at hx
    exact hkey (hg.metrics key x hx).1

theorem Builtin.Fresh.gauged {o : Node μ} (h : Fresh o) (id : String) : Gauged fs id o := by
  refine ⟨fun key x hx => ?_, fun hm => ?_⟩
  · rw [h.metrics] at hx
    cases hx
  · rw [h.unmeasured] at hm
    cases hm

/-- What is known of a node while the results of a commit are written. -/
structure Tended (fs : FileSystem) (excludes : String → Bool) (root : Location) (tree : Item)
    (s : Store μ) (results : List (Completion μ)) (id : String) (m : Node μ) : Prop where
  placed : Placed fs excludes root tree id m ∧ ∀ p, parentOf? m = some p → s.contains p = true
  gauged : Gauged fs id m
  /-- It was measured before, or is counted now. -/
  measured : m.hasTag measuredTag = true → (∃ n, s.node? id = some n ∧ n.hasTag measuredTag = true) ∨
    ∃ c ∈ results, ∃ file, CountsLines fs s c file ∧ file.id = id

theorem Asks.tended_onto (h : Surveyable μ fs excludes root tree bound)
    (hs : Charted fs excludes root tree s) {w : Write μ} (hw : Asks fs excludes root tree s results w)
    {id : String} {o : Option (Node μ)}
    (ho : ∀ n, o = some n → Tended fs excludes root tree s results id n) {m : Node μ}
    (hm : w.onto id o = some m) : Tended fs excludes root tree s results id m := by
  have hplaced := hw.placed_onto h.readable (fun n hn => (ho n hn).placed) m hm
  cases o with
  | some n =>
    have hn := ho n rfl
    obtain ⟨hgauged, hnow⟩ := hw.gauged_onto h hs hn.placed.1 hn.gauged hm
    exact ⟨hplaced, hgauged, fun htag => (hnow htag).elim hn.measured .inr⟩
  | none =>
    have hfresh := hw.fresh_of_onto_none hm
    refine ⟨hplaced, hfresh.gauged id, fun htag => ?_⟩
    rw [hfresh.unmeasured] at htag
    cases htag

/-- **Measured files in a commit.**  Metrics are as they should be, and what is measured has been
measured before or is counted now. -/
theorem tended_viewed (h : Surveyable μ fs excludes root tree bound)
    (hs : Charted fs excludes root tree s) (hgauged : ∀ id n, s.node? id = some n → Gauged fs id n)
    (hexcludes : ∀ name, settings.excludes name = false → excludes name = false)
    (hreports : ∀ c ∈ results, Reports fs settings excludes root tree s c) {id : String} {m : Node μ}
    (hm : Commit.viewed s results id = some m) : Tended fs excludes root tree s results id m := by
  refine Commit.viewed_induction (fun o : Option (Node μ) => ∀ m, o = some m →
    Tended fs excludes root tree s results id m) ?_ ?_ m hm
  · exact fun n hn => ⟨⟨hs.placed id n hn, fun p => hs.parents id n p hn⟩, hgauged id n hn,
      fun htag => .inl ⟨n, hn, htag⟩⟩
  · intro w hw o ho m hm
    exact (asks_of_mem_writes h.readable hs hexcludes hreports hw).tended_onto h hs ho hm

theorem tended_written (h : Surveyable μ fs excludes root tree bound)
    (hs : Charted fs excludes root tree s) (hgauged : ∀ id n, s.node? id = some n → Gauged fs id n)
    (hexcludes : ∀ name, settings.excludes name = false → excludes name = false)
    (hreports : ∀ c ∈ results, Reports fs settings excludes root tree s c) {id : String} {m : Node μ}
    (hm : (Commit.written s results).node? id = some m) :
    Tended fs excludes root tree s results id m := by
  rcases Commit.node?_written_cases hs.keyed results id with hw | hw
  · exact tended_viewed h hs hgauged hexcludes hreports (hw.symm.trans hm)
  · rw [hw] at hm
    obtain ⟨n, hn, rfl⟩ := Option.map_eq_some_iff.1 hm
    have hn := tended_viewed h hs hgauged hexcludes hreports hn
    obtain ⟨⟨l, item, hl, hid, hkind, hparent⟩, hstored⟩ := hn.placed
    refine ⟨⟨⟨l, item, hl, hid, hkind, (parentOf?_stored n).trans hparent⟩, ?_⟩,
      hn.gauged.stored h hn.placed.1, hn.measured⟩
    rwa [parentOf?_stored]

/-! ## 6. Tallied stores -/

/-- **A store in which lines are conserved**: every measured file has been counted, and what a container
has gathered are the lines of the measured files in it. -/
structure Tallied (fs : FileSystem) (excludes : String → Bool) (root : Location) (tree : Item)
    (s : Store μ) : Prop extends Charted fs excludes root tree s where
  gauged : ∀ id n, s.node? id = some n → Gauged fs id n
  recorded : ∀ id n, s.node? id = some n → n.hasTag measuredTag = true →
    s.ledger.contains ⟨(lineCounter (μ := μ)).name, id⟩ = true
  totals : ∀ id, (∀ n, s.node? id = some n → n.kind ≠ fileKind) →
    Amounts (tallyOf (s.node? id)) (s.measuredIn id).length ((s.measuredIn id).map (linesAt fs)).sum

/-- The measured files in a container are not too many, and neither are their lines. -/
theorem fits_measuredIn (h : Surveyable μ fs excludes root tree bound)
    (hs : Charted fs excludes root tree s) (hgauged : ∀ id n, s.node? id = some n → Gauged fs id n)
    (container : String) :
    (s.measuredIn container).length < Nat.pow 2 64 ∧
      ((s.measuredIn container).map (linesAt fs)).sum ≤ bound := by
  refine h.fits_ids (Store.nodup_measuredIn hs.keyed container) fun id hid => ?_
  obtain ⟨n, hn, htag, -⟩ := (Store.mem_measuredIn hs.keyed).1 hid
  obtain ⟨l, item, hl, huri, hkind, -⟩ := hs.placed id n hn
  exact ⟨l, item, hl, huri, hkind.symm.trans ((hgauged id n hn).measured htag).1⟩

/-- What a commit counts becomes measured. -/
theorem CountsLines.hasTag_written (h : Surveyable μ fs excludes root tree bound)
    (hs : Charted fs excludes root tree s) {n m : Node μ} (hn : CountsLines fs s c n) (hc : c ∈ results)
    (hm : (Commit.written s results).node? n.id = some m) : m.hasTag measuredTag = true := by
  have hgives : c.findings.Gives n.id measuredTag := by
    refine ⟨measuring (linesAt fs n.id), ?_, rfl⟩
    rw [h.get?_patches hs hn, if_neg ((hs.placed n.id n hn.stored).parentOf?_ne h.readable), if_pos rfl]
  obtain ⟨w, hw, hmarks⟩ := Completion.exists_marks.2 (.inr hgives)
  rw [← Commit.node?_committed s results 0] at hm
  exact (Commit.hasTag_committed hs.keyed hn.stored hm measuredTag).2 (.inr ⟨c, hc, w, hw, hmarks⟩)

theorem mem_newIn (h : Surveyable μ fs excludes root tree bound) (hs : Charted fs excludes root tree s)
    (hreports : ∀ c ∈ results, Reports fs settings excludes root tree s c) {container id : String} :
    id ∈ Commit.newIn results container ↔
      ∃ c ∈ results, ∃ n, CountsLines fs s c n ∧ parentOf? n = some container ∧ n.id = id := by
  rw [Commit.newIn, List.mem_map]
  constructor
  · rintro ⟨c, hc, rfl⟩
    obtain ⟨hmem, hadds⟩ := List.mem_filter.1 hc
    obtain ⟨n, hn, hparent⟩ := (addsTo_iff h hs (hreports c hmem)).1 hadds
    exact ⟨c, hmem, n, hn, hparent, by rw [hn.pair]⟩
  · rintro ⟨c, hc, n, hn, hparent, rfl⟩
    refine ⟨c, List.mem_filter.2 ⟨hc, ?_⟩, by rw [hn.pair]⟩
    exact (addsTo_iff h hs (hreports c hc)).2 ⟨n, hn, hparent⟩

/-- No file is counted twice in a commit. -/
theorem nodup_newIn (h : Surveyable μ fs excludes root tree bound) (hs : Charted fs excludes root tree s)
    (hreports : ∀ c ∈ results, Reports fs settings excludes root tree s c)
    (hpairs : (results.map Completion.pair).Nodup) (container : String) :
    (Commit.newIn results container).Nodup := by
  have hsame : (Commit.newIn results container).map (fun id => ⟨(lineCounter (μ := μ)).name, id⟩) =
      (results.filter (·.addsTo container)).map Completion.pair := by
    rw [Commit.newIn, List.map_map]
    refine List.map_congr_left fun c hc => ?_
    obtain ⟨hmem, hadds⟩ := List.mem_filter.1 hc
    obtain ⟨n, hn, -⟩ := (addsTo_iff h hs (hreports c hmem)).1 hadds
    rw [Function.comp_apply, hn.pair]
  refine List.Nodup.of_map (fun id => (⟨(lineCounter (μ := μ)).name, id⟩ : Pair)) ?_
  rw [hsame]
  exact hpairs.sublist (List.filter_sublist.map _)

/-- **Which files of a container are measured after a commit**: those that were, and those whose lines
the results give to the container. -/
theorem measuredIn_perm (h : Surveyable μ fs excludes root tree bound)
    (hs : Tallied fs excludes root tree s)
    (hexcludes : ∀ name, settings.excludes name = false → excludes name = false)
    (hreports : ∀ c ∈ results, Reports fs settings excludes root tree s c)
    (hpairs : (results.map Completion.pair).Nodup) (container : String) :
    ((Commit.written s results).measuredIn container).Perm
      (s.measuredIn container ++ Commit.newIn results container) := by
  have hafter := hs.toCharted.written h.readable hexcludes hreports
  -- a file that is counted now has not been counted, and so it has not been measured
  have hdisjoint : (s.measuredIn container ++ Commit.newIn results container).Nodup := by
    refine List.nodup_append.2 ⟨Store.nodup_measuredIn hs.keyed container,
      nodup_newIn h hs.toCharted hreports hpairs container, fun id hold id' hnew heq => ?_⟩
    subst heq
    obtain ⟨m, hm, htag, -⟩ := (Store.mem_measuredIn hs.keyed).1 hold
    obtain ⟨c, -, n, hn, -, rfl⟩ := (mem_newIn h hs.toCharted hreports).1 hnew
    have hrecorded := hs.recorded n.id m hm htag
    rw [← hn.pair, hn.unrecorded] at hrecorded
    cases hrecorded
  refine (List.perm_ext_iff_of_nodup (Store.nodup_measuredIn hafter.keyed container) hdisjoint).2 ?_
  intro id
  rw [List.mem_append, Store.mem_measuredIn hafter.keyed, Store.mem_measuredIn hs.keyed,
    mem_newIn h hs.toCharted hreports]
  constructor
  · rintro ⟨m, hm, htag, hparent⟩
    have hplaced := hafter.placed id m hm
    rcases (tended_written h hs.toCharted hs.gauged hexcludes hreports hm).measured htag with
      ⟨n, hn, hbefore⟩ | ⟨c, hc, n, hn, rfl⟩
    · refine .inl ⟨n, hn, hbefore, ?_⟩
      rw [← hparent]
      exact ((hs.placed id n hn).congr h.readable hplaced).2
    · refine .inr ⟨c, hc, n, hn, ?_, rfl⟩
      rw [← hparent]
      exact ((hs.placed n.id n hn.stored).congr h.readable hplaced).2
  · rintro (⟨n, hn, htag, hparent⟩ | ⟨c, hc, n, hn, hparent, rfl⟩)
    · obtain ⟨m, hm, hkept⟩ := Commit.keptIn_written hs.keyed results hn
      refine ⟨m, hm, hkept.tags measuredTag htag, ?_⟩
      rw [← hparent]
      exact ((hafter.placed id m hm).congr h.readable (hs.placed id n hn)).2
    · obtain ⟨m, hm, -⟩ := Commit.keptIn_written hs.keyed results hn.stored
      refine ⟨m, hm, hn.hasTag_written h hs.toCharted hc hm, ?_⟩
      rw [← hparent]
      exact ((hafter.placed n.id m hm).congr h.readable (hs.placed n.id n hn.stored)).2

/-- What a container has gathered once the results of a commit are seen, before anything is stored. -/
theorem Tallied.amounts_viewed (h : Surveyable μ fs excludes root tree bound)
    (hs : Tallied fs excludes root tree s)
    (hexcludes : ∀ name, settings.excludes name = false → excludes name = false)
    (hreports : ∀ c ∈ results, Reports fs settings excludes root tree s c)
    (hpairs : (results.map Completion.pair).Nodup) {id : String}
    (hid : ∀ n, s.node? id = some n → n.kind ≠ fileKind) :
    Amounts (tallyOf (Commit.viewed s results id))
        ((Commit.written s results).measuredIn id).length
        (((Commit.written s results).measuredIn id).map (linesAt fs)).sum ∧
      (((Commit.written s results).measuredIn id).map (linesAt fs)).sum ≤ bound := by
  have hperm := measuredIn_perm h hs hexcludes hreports hpairs id
  have hbound := (fits_measuredIn h (hs.toCharted.written h.readable hexcludes hreports) (fun id n hn =>
    (tended_written h hs.toCharted hs.gauged hexcludes hreports hn).gauged) id).2
  refine ⟨?_, hbound⟩
  rw [(hperm.map (linesAt fs)).sum_eq, List.map_append, List.sum_append] at *
  rw [hperm.length_eq, List.length_append]
  exact FactGraph.amounts_viewed h hs.toCharted hreports hid (hs.totals id hid) hbound

/-- **One step: writing conserves lines**, if the pairs that count are recorded. -/
theorem Tallied.step (h : Surveyable μ fs excludes root tree bound)
    (hs : Tallied fs excludes root tree s)
    (hexcludes : ∀ name, settings.excludes name = false → excludes name = false)
    (hreports : ∀ c ∈ results, Reports fs settings excludes root tree s c)
    (hpairs : (results.map Completion.pair).Nodup) {s' : Store μ}
    (hkeyed : s'.Keyed) (hnodes : ∀ id, s'.node? id = (Commit.written s results).node? id)
    (hkept : ∀ pair, s.ledger.contains pair = true → s'.ledger.contains pair = true)
    (hdone : ∀ c ∈ results, ∀ n, CountsLines fs s c n → s'.ledger.contains c.pair = true) :
    Tallied fs excludes root tree s' := by
  have hmeasured : ∀ id, s'.measuredIn id = (Commit.written s results).measuredIn id := by
    intro id
    have hall : s'.nodes = (Commit.written s results).nodes := Table.ext_get? fun id => by
      rw [Store.get?_nodes, Store.get?_nodes, hnodes]
    rw [Store.measuredIn, Store.measuredIn, Store.allNodes, Store.allNodes, hall]
  have hafter := hs.toCharted.written h.readable hexcludes hreports
  have htended := @tended_written μ _ fs settings excludes root tree s bound results h hs.toCharted
    hs.gauged hexcludes hreports
  refine ⟨hafter.of_nodes hkeyed hnodes, fun id n hn => (htended (hnodes id ▸ hn)).gauged,
    fun id n hn htag => ?_, fun id hid => ?_⟩
  · rcases (htended (hnodes id ▸ hn)).measured htag with ⟨m, hm, hbefore⟩ | ⟨c, hc, file, hfile, rfl⟩
    · exact hkept _ (hs.recorded id m hm hbefore)
    · rw [← hfile.pair]
      exact hdone c hc file hfile
  · have hbefore : ∀ n, s.node? id = some n → n.kind ≠ fileKind := by
      intro n hn
      obtain ⟨m, hm, -⟩ := Commit.keptIn_written hs.keyed results hn
      rw [((hs.placed id n hn).congr h.readable (hafter.placed id m hm)).1]
      exact hid m ((hnodes id).trans hm)
    obtain ⟨hviewed, hbound⟩ := hs.amounts_viewed h hexcludes hreports hpairs hbefore
    rw [hnodes, hmeasured]
    rcases Commit.node?_written_cases hs.keyed results id with hw | hw
    · rw [hw]
      exact hviewed
    · rw [hw]
      exact hviewed.stored h.counts hbound

theorem tallied_empty (h : Surveyable μ fs excludes root tree bound) :
    Tallied fs excludes root tree (Store.empty : Store μ) where
  toCharted := charted_empty
  gauged := by
    rintro id n ⟨⟩
  recorded := by
    rintro id n ⟨⟩
  totals id _ := ⟨rfl, h.counts.zero.symm⟩

/-- A pass conserves lines. -/
theorem Tallied.advance (h : Surveyable μ fs excludes root tree bound)
    (hs : Tallied fs excludes root tree s)
    (hexcludes : ∀ name, settings.excludes name = false → excludes name = false)
    {active : List (Run.Active Context μ)} (hactive : ∀ x ∈ active, x.analyzer ∈ roster.analyzers)
    (hnames : (active.map (·.analyzer.name)).Nodup) (number : Nat) :
    Tallied fs excludes root tree (Run.advance active { settings, files := fs } number s) := by
  refine hs.step h hexcludes
    (fun c hc => hs.toCharted.reports_of_finishing h.readable hexcludes hactive hc)
    (Run.nodup_finishing hs.keyed hnames) (Commit.keyed_committed hs.keyed _ number)
    (Commit.node?_committed s _ number) ?_ ?_
  · exact fun pair hpair => (Run.contains_ledger_advance number pair).2 (.inr hpair)
  · exact fun c hc _ _ => (Run.contains_ledger_advance number _).2 (.inl (List.mem_map_of_mem hc))

/-- Seeding conserves lines. -/
theorem Tallied.seed (h : Surveyable μ fs excludes root tree bound)
    (hs : Tallied fs excludes root tree s)
    (hexcludes : ∀ name, settings.excludes name = false → excludes name = false) {d : Description}
    (hkind : kindOf root d = resourceKind root tree) :
    Tallied fs excludes root tree (Commit.written s [seeding root d]) := by
  have hledger : (Commit.written s [seeding root d]).ledger = s.ledger := Store.ledger_mergeNodes s _
  refine hs.step h hexcludes (reports_seeding hkind) (by simp) (hs.keyed.mergeNodes _) (fun _ => rfl)
    ?_ ?_
  · intro pair hpair
    rw [hledger]
    exact hpair
  · intro c hc n hn
    cases List.mem_singleton.1 hc
    exact absurd hn not_countsLines_seeding

theorem Tallied.after (h : Surveyable μ fs excludes root tree bound)
    (hs : Tallied fs excludes root tree s)
    (hexcludes : ∀ name, settings.excludes name = false → excludes name = false)
    {active : List (Run.Active Context μ)} (hactive : ∀ x ∈ active, x.analyzer ∈ roster.analyzers)
    (hnames : (active.map (·.analyzer.name)).Nodup) (k : Nat) :
    Tallied fs excludes root tree (Run.after active { settings, files := fs } s k) := by
  induction k with
  | zero => exact hs
  | succ k ih => exact ih.advance h hexcludes hactive hnames (k + 1)

end Results

/-! ## 7. Analyses -/

section Analyses

variable [Measure μ] {fs : FileSystem} {settings : Settings} {excludes : String → Bool}
  {tree : Item} {s : Store μ} {bound : Nat} {w : Workspace μ} {target : Option String}

/-- How a target is analyzed: under which settings, whether the run is cancelled before it starts, and
before which passes it is asked to stop. -/
structure Analysis where
  settings : Settings
  cancelled : Bool := false
  stop : Nat → Bool := fun _ => false

/-- The store that analyses of a target leave, one after the other, beginning with nothing. -/
def Workspace.storeAfter (w : Workspace μ) (fs : FileSystem) (target : Option String)
    (history : List Analysis) : Store μ :=
  history.foldl (fun s a => (w.analyzeWith fs s target a.settings a.cancelled a.stop).2) Store.empty

/-- **An analysis of a tree** seeds the store and runs, and the store is tallied at every moment between
two passes. -/
theorem Tallied.analyze (hw : w.roster = roster)
    (h : Surveyable μ fs excludes (w.targetLocation target) tree bound)
    (hs : Tallied fs excludes (w.targetLocation target) tree s) (hlegible : s.Legible) {a : Analysis}
    (hvalid : a.settings.validate = .ok a.settings)
    (hexcludes : ∀ name, a.settings.excludes name = false → excludes name = false) :
    ∃ seeded report trace final,
      Workspace.seed { settings := a.settings, files := fs } s (w.targetLocation target) =
        .ok seeded ∧
      (runTraced w.roster { settings := a.settings, files := fs } a.settings.limits a.stop).run
        { store := seeded.2, faults := Session.Faults.readBack, cancelled := a.cancelled } =
          (.ok (report, trace), final) ∧
      w.analyzeWith fs s target a.settings a.cancelled a.stop = (.ok report, trace.store) ∧
      ∀ t ∈ trace.passes.map PassLog.store ++ [trace.store],
        Tallied fs excludes (w.targetLocation target) tree t := by
  obtain ⟨n, d, report, final, hkind, hseed, hrun, hanalyze⟩ :=
    h.readable.exists_analyzeWith hw hs.keyed hlegible hvalid a.cancelled a.stop
  have htallied := hs.seed h hexcludes hkind
  rw [hw] at hrun ⊢
  obtain ⟨trace, htraced⟩ := returns_run_iff.1 hrun
  obtain ⟨rfl, hstore, -⟩ := returns_runTraced htallied.keyed htraced
  have hafter := htallied.after h hexcludes (fun x hx => Run.analyzer_mem hx)
    (nodup_names_active { settings := a.settings, files := fs } a.settings.limits)
  refine ⟨_, report, _, final, hseed, htraced, hanalyze.trans (congrArg (Prod.mk _) hstore),
    fun t ht => ?_⟩
  rw [Run.traceOf, List.map_map, List.mem_append, List.mem_map, List.mem_singleton] at ht
  rcases ht with ⟨k, -, rfl⟩ | rfl
  · exact hafter k
  · exact hafter report.passes.length

/-- **Lines are conserved**: what a container has gathered is, in number and in sum, what the measured
files in it have, and each of these has the lines of the file that it stands for. -/
structure LinesConserved (fs : FileSystem) (root : Location) (tree : Item) (s : Store μ) : Prop where
  count : ∀ id n, s.node? id = some n → n.kind ≠ fileKind →
    n.counted linesKey = (s.measuredIn id).length
  sum : ∀ id n, s.node? id = some n → n.kind ≠ fileKind →
    (n.metrics.get? linesKey).getD Measure.zero =
      Measure.ofNat ((s.measuredIn id).map (linesAt fs)).sum
  files : ∀ id n, s.node? id = some n → n.hasTag measuredTag = true →
    ∃ l content modified, Reachable fs (fun _ => false) root tree l (.file content modified) ∧
      id = l.uri ∧ linesAt fs id = countLines content ∧
      n.metrics.get? linesKey = some (Measure.ofNat (countLines content))

theorem Tallied.conserved {root : Location}
    (h : Surveyable μ fs (fun _ => false) root tree bound)
    (hs : Tallied fs (fun _ => false) root tree s) : LinesConserved fs root tree s := by
  have htotals : ∀ id n, s.node? id = some n → n.kind ≠ fileKind → Amounts n.tally
      (s.measuredIn id).length ((s.measuredIn id).map (linesAt fs)).sum := by
    intro id n hn hkind
    have htotal := hs.totals id (fun m hm => by
      cases hn.symm.trans hm
      exact hkind)
    rwa [hn] at htotal
  refine ⟨fun id n hn hkind => ?_, fun id n hn hkind => (htotals id n hn hkind).lines,
    fun id n hn htag => ?_⟩
  · have hfits := (fits_measuredIn h hs.toCharted hs.gauged id).1
    exact (htotals id n hn hkind).count.trans (Nat.mod_eq_of_lt hfits)
  · obtain ⟨hkind, hlines⟩ := (hs.gauged id n hn).measured htag
    obtain ⟨l, content, modified, hl, huri, hcount⟩ := (hs.placed id n hn).exists_file h.readable hkind
    exact ⟨l, content, modified, hl, huri, hcount, hcount ▸ hlines⟩

/-- Analyses leave a legible store. -/
theorem legible_storeAfter (hw : w.roster = roster) (fs : FileSystem) (target : Option String)
    (history : List Analysis) :
    (w.storeAfter fs target history).Keyed ∧ (w.storeAfter fs target history).Legible := by
  induction history using List.reverseRecOn with
  | nil => exact ⟨Store.keyed_empty, Store.legible_empty⟩
  | append_singleton history a ih =>
    rw [Workspace.storeAfter, List.foldl_concat]
    exact Workspace.legible_analyzeWith hw ih.1 ih.2 fs target a.settings a.cancelled a.stop

/-- Analyses leave a tallied store. -/
theorem tallied_storeAfter (hw : w.roster = roster)
    (h : Surveyable μ fs (fun _ => false) (w.targetLocation target) tree bound)
    (history : List Analysis) :
    Tallied fs (fun _ => false) (w.targetLocation target) tree (w.storeAfter fs target history) := by
  induction history using List.reverseRecOn with
  | nil => exact tallied_empty h
  | append_singleton history a ih =>
    rw [Workspace.storeAfter, List.foldl_concat]
    refine (?_ : Tallied fs _ _ tree
      (w.analyzeWith fs (w.storeAfter fs target history) target a.settings a.cancelled a.stop).2)
    cases hvalid : a.settings.validate with
    | error e =>
      simp only [Workspace.analyzeWith, hvalid]
      exact ih
    | ok checked =>
      cases Settings.eq_of_validate hvalid
      obtain ⟨_, report, trace, _, _, _, hanalyze, hall⟩ := ih.analyze hw h
        (legible_storeAfter hw fs target history).2 hvalid fun _ _ => rfl
      rw [hanalyze]
      exact hall trace.store (by simp)

/-- **Line totals are conserved.**  A tree is analyzed, from an empty store and as often as one likes,
each time under any settings and with any interruption.  Then the next analysis succeeds, and when it
begins and after each of its passes all totals are right: the counter of every container is the number
of measured files in it, its sum is the sum of their lines, and they have the lines of the files that
they stand for. -/
theorem line_totals_conserved (hw : w.roster = roster)
    (h : Surveyable μ fs (fun _ => false) (w.targetLocation target) tree bound)
    (history : List Analysis) (next : Analysis) (hvalid : next.settings.validate = .ok next.settings) :
    ∃ seeded report trace final,
      Workspace.seed { settings := next.settings, files := fs } (w.storeAfter fs target history)
        (w.targetLocation target) = .ok seeded ∧
      (runTraced w.roster { settings := next.settings, files := fs } next.settings.limits
        next.stop).run
        { store := seeded.2, faults := Session.Faults.readBack, cancelled := next.cancelled } =
          (.ok (report, trace), final) ∧
      w.analyzeWith fs (w.storeAfter fs target history) target next.settings next.cancelled
        next.stop = (.ok report, trace.store) ∧
      ∀ s ∈ trace.passes.map PassLog.store ++ [trace.store],
        LinesConserved fs (w.targetLocation target) tree s := by
  obtain ⟨seeded, report, trace, final, hseed, hrun, hanalyze, hall⟩ :=
    (tallied_storeAfter hw h history).analyze hw h (legible_storeAfter hw fs target history).2 hvalid
      fun _ _ => rfl
  exact ⟨seeded, report, trace, final, hseed, hrun, hanalyze, fun s hs => (hall s hs).conserved h⟩

end Analyses

theorem surveyable_shelf :
    Surveyable Float mixedShelf (fun _ => false) (mixedWorkspace.targetLocation none)
      mixedShelf.root 4 where
  readable := readable_shelf
  counts := countsTo_four
  fits := FitsIn.of_files (fun l content modified hl => (OnShelf.of_reachable hl).mem_files)
    (by decide) (by decide +kernel)

/-- The shelf is analyzed once up to the second pass, and then again. -/
theorem line_totals_conserved_shelf :
    Surveyable Float mixedShelf (fun _ => false) (mixedWorkspace.targetLocation none)
        mixedShelf.root 4 ∧
      ∃ seeded report trace final,
        Workspace.seed { settings := {}, files := mixedShelf }
          (mixedWorkspace.storeAfter mixedShelf none [⟨{}, false, (· = 1)⟩])
          (mixedWorkspace.targetLocation none) = .ok seeded ∧
        (runTraced mixedWorkspace.roster { settings := {}, files := mixedShelf }
          ({} : Settings).limits fun _ => false).run
          { store := seeded.2, faults := Session.Faults.readBack } = (.ok (report, trace), final) ∧
        ∀ s ∈ trace.passes.map PassLog.store ++ [trace.store],
          LinesConserved mixedShelf (mixedWorkspace.targetLocation none) mixedShelf.root s := by
  refine ⟨surveyable_shelf, ?_⟩
  obtain ⟨seeded, report, trace, final, hseed, hrun, -, hall⟩ := line_totals_conserved rfl
    surveyable_shelf [⟨{}, false, (· = 1)⟩] ⟨{}, false, fun _ => false⟩ rfl
  exact ⟨seeded, report, trace, final, hseed, hrun, hall⟩

end FactGraph
