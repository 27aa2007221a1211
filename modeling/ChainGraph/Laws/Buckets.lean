import ChainGraph.Laws.Batch
import ChainGraph.Laws.Growth

/-!
# The buckets of the simplified layer

The rows of the simplified layer are spread over buckets by the hash of their address, and every
bucket is written by a task of its own. No row is lost, doubled or moved before another of its
bucket. Both kinds of rows use the same hash, so an address is in one bucket, and what two tasks
merge at the same time are never the same address nodes.
-/

namespace ChainGraph

open Foundation Foundation.Store

namespace IngestionOrchestrator

/-! ## A bucket -/

section Buckets

variable {α : Type} {hash : String → UInt64} {addressOf : α → Address} {n : ℕ}

/-- Changing one place of a list that is given by its places. -/
theorem modify_map_range {β : Type} (f : ℕ → β) (g : β → β) (k : ℕ) :
    ((List.range n).map f).modify k g =
      (List.range n).map fun i => if i = k then g (f i) else f i := by
  apply List.ext_getElem
  · simp
  · intro i left right
    rw [List.getElem_modify]
    by_cases same : k = i
    · simp [same]
    · simp [same, Ne.symm same]

/-- Bucket `i` holds the items whose address has the index `i`, in their order. -/
theorem partitionByAddress_eq (items : List α) :
    partitionByAddress hash addressOf items n =
      (List.range n).map fun i => items.filter fun x => bucketIndex hash n (addressOf x) = i := by
  induction items using List.reverseRecOn with
  | nil =>
    unfold partitionByAddress
    simp
  | append_singleton items x ih =>
    have step : partitionByAddress hash addressOf (items ++ [x]) n =
        (partitionByAddress hash addressOf items n).modify (bucketIndex hash n (addressOf x))
          (· ++ [x]) := by
      unfold partitionByAddress
      rw [List.foldl_append]
      rfl
    rw [step, ih, modify_map_range]
    apply List.map_congr_left
    intro i _
    rw [List.filter_append]
    by_cases same : i = bucketIndex hash n (addressOf x)
    · simp [same]
    · simp [same, Ne.symm same]

theorem getElem?_partitionByAddress {items : List α} {i : ℕ} {bucket : List α}
    (placed : (partitionByAddress hash addressOf items n)[i]? = some bucket) :
    bucket = items.filter fun x => bucketIndex hash n (addressOf x) = i := by
  rw [partitionByAddress_eq, List.getElem?_map, Option.map_eq_some_iff] at placed
  obtain ⟨j, place, rfl⟩ := placed
  obtain ⟨inside, same⟩ := List.getElem?_eq_some_iff.mp place
  rw [List.getElem_range] at same
  rw [same]

/-- The index of a bucket is that of its addresses. -/
theorem bucketIndex_of_mem {items : List α} {i : ℕ} {bucket : List α}
    (placed : (partitionByAddress hash addressOf items n)[i]? = some bucket) {x : α}
    (among : x ∈ bucket) : bucketIndex hash n (addressOf x) = i := by
  rw [getElem?_partitionByAddress placed] at among
  exact of_decide_eq_true (List.mem_filter.mp among).2

/-- Lists that are put together from the items of a list, each of them once and in order. -/
structure Regroups (n : ℕ) (buckets : List (List α)) (items : List α) : Prop where
  length : buckets.length = n
  perm : buckets.flatten.Perm items
  sublist : ∀ bucket ∈ buckets, bucket.Sublist items

theorem regroups_partitionByAddress (pos : 0 < n) (items : List α) :
    Regroups n (partitionByAddress hash addressOf items n) items := by
  refine ⟨length_partitionByAddress items, partitionByAddress_perm pos items, ?_⟩
  intro bucket among
  rw [partitionByAddress_eq] at among
  obtain ⟨i, _, rfl⟩ := List.mem_map.mp among
  exact List.filter_sublist

end Buckets

/-! ## The address nodes of a task -/

/-- The statement writes the simplified layer, and merges address nodes only where `L` holds. -/
def LocksOnly (L : Address → Prop) : Query → Prop
  | .createPerformsBulk performs => ∀ p ∈ performs, L p.fromAddress
  | .createBenefitsToBulk benefitsTo => ∀ b ∈ benefitsTo, L b.toAddress
  | _ => False

/-- Two graphs say the same of an address: whether it has a node, and which rows it has in the
simplified layer. -/
structure SameAt (a : Address) (g g' : Graph) : Prop where
  node : a ∈ g'.addresses ↔ a ∈ g.addresses
  performs : ∀ p, p.fromAddress = a → (p ∈ g'.performs ↔ p ∈ g.performs)
  benefits : ∀ b, b.toAddress = a → (b ∈ g'.benefitsTo ↔ b ∈ g.benefitsTo)

theorem SameAt.refl (a : Address) (g : Graph) : SameAt a g g :=
  ⟨Iff.rfl, fun _ _ => Iff.rfl, fun _ _ => Iff.rfl⟩

theorem SameAt.trans {a : Address} {g g' g'' : Graph} (first : SameAt a g g')
    (second : SameAt a g' g'') : SameAt a g g'' :=
  ⟨second.node.trans first.node, fun p at_ => (second.performs p at_).trans (first.performs p at_),
    fun b at_ => (second.benefits b at_).trans (first.benefits b at_)⟩

theorem sameAt_mergePerforms {a : Address} {p : PerformsData} (g : Graph)
    (other : p.fromAddress ≠ a) : SameAt a g (g.mergePerforms p) := by
  unfold Graph.mergePerforms
  refine ⟨?_, ?_, fun _ _ => Iff.rfl⟩
  · simp [Ne.symm other]
  · intro q at_
    dsimp only
    split
    · apply Table.mem_upsert_of_ne
      intro same
      exact other ((congrArg Prod.fst same).symm.trans at_)
    · exact Iff.rfl

theorem sameAt_mergeBenefitsTo {a : Address} {b : BenefitsToData} (g : Graph)
    (other : b.toAddress ≠ a) : SameAt a g (g.mergeBenefitsTo b) := by
  unfold Graph.mergeBenefitsTo
  split
  · refine ⟨?_, fun _ _ => Iff.rfl, ?_⟩
    · simp [Ne.symm other]
    · intro c at_
      apply Table.mem_upsert_of_ne
      intro same
      exact other ((congrArg Prod.snd same).symm.trans at_)
  · exact .refl a g

theorem sameAt_foldl {α : Type} {f : Graph → α → Graph} {a : Address} {rows : List α}
    (each : ∀ x ∈ rows, ∀ g, SameAt a g (f g x)) (g : Graph) : SameAt a g (rows.foldl f g) := by
  induction rows generalizing g with
  | nil => exact .refl a g
  | cons x rows ih =>
    apply (each x List.mem_cons_self g).trans
    exact ih (fun y among => each y (List.mem_cons_of_mem x among)) (f g x)

/-- What such a statement does elsewhere: nothing. -/
theorem LocksOnly.sameAt {L : Address → Prop} {q : Query} {g g' : Graph} (locks : LocksOnly L q)
    (ok : q.exec g = .ok g') {a : Address} (other : ¬ L a) : SameAt a g g' := by
  cases q with
  | createPerformsBulk performs =>
    cases ok
    apply sameAt_foldl
    intro p among g
    exact sameAt_mergePerforms g fun same => other (same ▸ locks p among)
  | createBenefitsToBulk benefitsTo =>
    cases ok
    apply sameAt_foldl
    intro b among g
    exact sameAt_mergeBenefitsTo g fun same => other (same ▸ locks b among)
  | _ => exact locks.elim

variable (o : IngestionOrchestrator)

theorem sends_bucketTask {performs : List PerformsData} {benefits : List BenefitsToData}
    {L : Address → Prop} (from_ : ∀ p ∈ performs, L p.fromAddress)
    (to_ : ∀ b ∈ benefits, L b.toAddress) :
    Neo4jWriter.OnlySends (LocksOnly L) (o.bucketTask performs benefits) := by
  have first : Neo4jWriter.OnlySends (LocksOnly L) (o.writePerformsIfAny performs) := by
    unfold writePerformsIfAny
    split
    · trivial
    · apply Neo4jWriter.sends_executeBatched
      intro c part p among
      exact from_ p (mem_of_mem_chunks o.writer.batchSize_pos part among)
  have second : Neo4jWriter.OnlySends (LocksOnly L) (o.writeBenefitsToIfAny benefits) := by
    unfold writeBenefitsToIfAny
    split
    · trivial
    · apply Neo4jWriter.sends_executeBatched
      intro c part b among
      exact to_ b (mem_of_mem_chunks o.writer.batchSize_pos part among)
  exact first.bind fun _ => second

/-- Task `i` merges only address nodes with the index `i`. -/
theorem sends_bucketTasks {performs : List PerformsData} {benefits : List BenefitsToData} {i : ℕ}
    {task : Io Unit} (placed : (o.bucketTasks performs benefits)[i]? = some task) :
    Neo4jWriter.OnlySends (LocksOnly fun a => bucketIndex o.stringHash numBuckets a = i) task := by
  unfold bucketTasks at placed
  rw [List.getElem?_zipWith_eq_some] at placed
  obtain ⟨ps, bs, performsAt, benefitsAt, rfl⟩ := placed
  apply sends_bucketTask
  · intro p among
    exact bucketIndex_of_mem performsAt among
  · intro b among
    exact bucketIndex_of_mem benefitsAt among

/-- The addresses of the rows in the buckets with an index, of both kinds. -/
def bucketAddresses (performs : List PerformsData) (benefits : List BenefitsToData) (n i : ℕ) :
    List Address :=
  ((partitionPerformsByAddress o.stringHash performs n)[i]?.getD []).map (·.fromAddress) ++
    ((partitionBenefitsByAddress o.stringHash benefits n)[i]?.getD []).map (·.toAddress)

theorem bucketIndex_of_mem_bucketAddresses {performs : List PerformsData}
    {benefits : List BenefitsToData} {n i : ℕ} {a : Address}
    (among : a ∈ o.bucketAddresses performs benefits n i) : bucketIndex o.stringHash n a = i := by
  unfold bucketAddresses at among
  rcases List.mem_append.mp among with from_ | to_
  · obtain ⟨p, inside, rfl⟩ := List.mem_map.mp from_
    cases placed : (partitionPerformsByAddress o.stringHash performs n)[i]? with
    | none =>
      rw [placed] at inside
      cases inside
    | some bucket =>
      rw [placed] at inside
      exact bucketIndex_of_mem placed inside
  · obtain ⟨b, inside, rfl⟩ := List.mem_map.mp to_
    cases placed : (partitionBenefitsByAddress o.stringHash benefits n)[i]? with
    | none =>
      rw [placed] at inside
      cases inside
    | some bucket =>
      rw [placed] at inside
      exact bucketIndex_of_mem placed inside

/-- **Buckets.** Both lists are regrouped, no address is in two buckets, and two tasks never merge
the same address node, whatever they are answered. -/
theorem buckets_conflict_free (performs : List PerformsData) (benefits : List BenefitsToData)
    (n : ℕ) (pos : 0 < n) :
    Regroups n (partitionPerformsByAddress o.stringHash performs n) performs ∧
    Regroups n (partitionBenefitsByAddress o.stringHash benefits n) benefits ∧
    (∀ i j, i ≠ j → List.Disjoint (o.bucketAddresses performs benefits n i)
      (o.bucketAddresses performs benefits n j)) ∧
    ∀ (i j : ℕ) (first second : Io Unit), i ≠ j →
      (o.bucketTasks performs benefits)[i]? = some first →
      (o.bucketTasks performs benefits)[j]? = some second →
      ∃ L M : Address → Prop, (∀ a, ¬ (L a ∧ M a)) ∧
        Neo4jWriter.OnlySends (LocksOnly L) first ∧ Neo4jWriter.OnlySends (LocksOnly M) second := by
  refine ⟨regroups_partitionByAddress pos performs, regroups_partitionByAddress pos benefits,
    ?_, ?_⟩
  · intro i j apart a left right
    exact apart ((o.bucketIndex_of_mem_bucketAddresses left).symm.trans
      (o.bucketIndex_of_mem_bucketAddresses right))
  · intro i j first second apart firstAt secondAt
    refine ⟨_, _, ?_, o.sends_bucketTasks firstAt, o.sends_bucketTasks secondAt⟩
    rintro a ⟨left, right⟩
    exact apart (left.symm.trans right)

end IngestionOrchestrator

namespace Sample

def performs : List PerformsData :=
  [⟨"1111111111111111111114oLvT2", 3, 1, 50⟩, ⟨"1BitcoinEaterAddressDontSendf59kuE", 4, 1, 40⟩]

def benefits : List BenefitsToData := [⟨3, "1BitcoinEaterAddressDontSendf59kuE", 1, 40⟩]

end Sample

/-- Two addresses in two buckets. -/
theorem buckets_conflict_free_sample :
    IngestionOrchestrator.Regroups 2
      (partitionPerformsByAddress (Sample.orchestrator 0).stringHash Sample.performs 2)
      Sample.performs ∧
    List.Disjoint ((Sample.orchestrator 0).bucketAddresses Sample.performs Sample.benefits 2 0)
      ((Sample.orchestrator 0).bucketAddresses Sample.performs Sample.benefits 2 1) := by
  obtain ⟨regroups, _, disjoint, _⟩ := (Sample.orchestrator 0).buckets_conflict_free
    Sample.performs Sample.benefits 2 (by decide)
  exact ⟨regroups, disjoint 0 1 (by decide)⟩

end ChainGraph
