import ChainGraph.Foundation.Summaries
import ChainGraph.Laws.Ledger

/-!
# The books balance

What the stored graph says about money. For each address, what it received is what it spent and what
it still holds; of all that the coinbases created, what is not unspent went to fees. The simplified
layer, which only has sums, says the same as the outputs and the edges to them.

The graph is one that a history leaves, and its chain is honest: no output is spent twice, and no
transaction spends less than it creates.
-/

namespace ChainGraph

open Foundation Foundation.Store

/-! ## Accounts -/

namespace Graph

/-- What an address received, by the simplified layer. -/
def receivedInAll (g : Graph) (a : Address) : ℕ :=
  ∑ b ∈ g.benefitsTo.rows.filter (·.toAddress = a), b.amountReceived.toNat

/-- What an address spent, by the simplified layer. -/
def spentInAll (g : Graph) (a : Address) : ℕ :=
  ∑ p ∈ g.performs.rows.filter (·.fromAddress = a), p.amountSpent.toNat

/-- The outputs that no input spends. -/
def unspent (g : Graph) : Finset OutputNode :=
  g.outputs.rows.filter (·.outputId ∉ g.spends.map (·.2))

/-- What the unspent outputs locked to an address are worth. -/
def holdings (g : Graph) (a : Address) : ℕ :=
  ∑ out ∈ g.unspent.filter fun out => (out.outputId, a) ∈ g.lockedTo, out.amount.toNat

def fees (g : Graph) : ℕ := ∑ tx ∈ g.transactions.rows, tx.fee.toNat

/-- What the coinbases created. -/
def minted (g : Graph) : ℕ :=
  ∑ tx ∈ g.transactions.rows.filter (·.isCoinbase), tx.totalOutput.toNat

/-- Each edge to an output or an input is of the transaction it names, and what is spent is stored
and is spent once. -/
structure SpentOnce (g : Graph) : Prop where
  created : g.hasOutput.map (·.2) = g.outputs.rows.val.map (·.outputId)
  owned : ∀ e ∈ g.spends, ∀ t, (t, e.1) ∈ g.hasInput ↔ e.1.txid = t
  stored : ∀ e ∈ g.spends, g.outputs.Has e.2
  once : (g.spends.map (·.2)).Nodup

variable {g : Graph} {a : Address}

theorem injOn_rows {α κ : Type} {key : α → κ} (t : Table α key) : Set.InjOn key t.rows :=
  fun x mem y mem' => t.unique x mem y mem'

theorem amountAt_of_mem {out : OutputNode} (mem : out ∈ g.outputs.rows) :
    g.amountAt out.outputId = out.amount.toNat := by
  rw [amountAt, Table.get?_eq_some.mpr ⟨mem, rfl⟩]
  rfl

/-- What an address received, by the detailed layer. -/
theorem receivedInAll_eq (layers : g.LayersAgree) : g.receivedInAll a =
    ((g.hasOutput.filter fun e => (e.2, a) ∈ g.lockedTo).map fun e => g.amountAt e.2).sum := by
  have summary : Summarizes (g.benefitsTo.rows.filter (·.toAddress = a)) (·.fromTxid)
      (·.amountReceived.toNat) (g.hasOutput.filter fun e => (e.2, a) ∈ g.lockedTo) (·.1)
      fun e => g.amountAt e.2 := {
    keys := fun b mem b' mem' same => by
      obtain ⟨stored, rfl⟩ := Finset.mem_filter.mp mem
      obtain ⟨stored', address⟩ := Finset.mem_filter.mp mem'
      exact g.benefitsTo.unique b stored b' stored' (Prod.ext same address.symm)
    totals := fun b mem => by
      obtain ⟨stored, rfl⟩ := Finset.mem_filter.mp mem
      rw [(layers.received b stored).2, receivedBy, Multiset.map_map, Multiset.filter_filter]
      rfl
    covers := fun e mem => by
      obtain ⟨edge, lock⟩ := Multiset.mem_filter.mp mem
      have some : g.receivedBy e.1 a ≠ 0 := fun none => by
        have inside : e.2 ∈ g.receivedBy e.1 a := Multiset.mem_map_of_mem Prod.snd
          (Multiset.mem_filter.mpr ⟨edge, rfl, lock⟩)
        rw [none] at inside
        cases inside
      obtain ⟨b, stored, ends⟩ := (layers.benefitsTo e.1 a).mpr some
      obtain ⟨tx, address⟩ := Prod.mk.inj ends
      exact ⟨b, Finset.mem_filter.mpr ⟨stored, address⟩, tx⟩ }
  exact summary.sum

/-- What an address spent, by the detailed layer. -/
theorem spentInAll_eq (layers : g.LayersAgree)
    (owned : ∀ e ∈ g.spends, ∀ t, (t, e.1) ∈ g.hasInput ↔ e.1.txid = t) : g.spentInAll a =
    ((g.spends.filter fun e => (e.2, a) ∈ g.lockedTo).map fun e => g.amountAt e.2).sum := by
  have summary : Summarizes (g.performs.rows.filter (·.fromAddress = a)) (·.toTxid)
      (·.amountSpent.toNat) (g.spends.filter fun e => (e.2, a) ∈ g.lockedTo) (·.1.txid)
      fun e => g.amountAt e.2 := {
    keys := fun p mem p' mem' same => by
      obtain ⟨stored, rfl⟩ := Finset.mem_filter.mp mem
      obtain ⟨stored', source⟩ := Finset.mem_filter.mp mem'
      exact g.performs.unique p stored p' stored' (Prod.ext source.symm same)
    totals := fun p mem => by
      obtain ⟨stored, rfl⟩ := Finset.mem_filter.mp mem
      rw [(layers.spent p stored).2, spentFrom, Multiset.map_map, Multiset.filter_filter]
      refine congrArg (fun s => (Multiset.map _ s).sum) (Multiset.filter_congr fun e edge => ?_)
      rw [owned e edge]
    covers := fun e mem => by
      obtain ⟨edge, lock⟩ := Multiset.mem_filter.mp mem
      have some : g.spentFrom a e.1.txid ≠ 0 := fun none => by
        have inside : e.2 ∈ g.spentFrom a e.1.txid := Multiset.mem_map_of_mem Prod.snd
          (Multiset.mem_filter.mpr ⟨edge, (owned e edge _).mpr rfl, lock⟩)
        rw [none] at inside
        cases inside
      obtain ⟨p, stored, ends⟩ := (layers.performs a e.1.txid).mpr some
      obtain ⟨address, tx⟩ := Prod.mk.inj ends
      exact ⟨p, Finset.mem_filter.mpr ⟨stored, address⟩, tx⟩ }
  exact summary.sum

/-- The outputs of a kind are those of it that are unspent and those that are spent. -/
theorem SpentOnce.sum_outputs (h : g.SpentOnce) (p : OutputId → Prop) [DecidablePred p] :
    ∑ out ∈ g.outputs.rows.filter (p ·.outputId), out.amount.toNat =
      ∑ out ∈ g.unspent.filter (p ·.outputId), out.amount.toNat +
        ((g.spends.filter (p ·.2)).map fun e => g.amountAt e.2).sum := by
  have gone : ((g.spends.map (·.2)).filter p).map g.amountAt =
      (g.spends.filter (p ·.2)).map fun e => g.amountAt e.2 := by
    rw [Multiset.filter_map, Multiset.map_map]
    rfl
  have left : g.unspent.filter (p ·.outputId) = (g.outputs.rows.filter (p ·.outputId)).filter
      (·.outputId ∉ (g.spends.map (·.2)).filter p) := by
    ext out
    simp only [unspent, Finset.mem_filter, Multiset.mem_filter]
    tauto
  rw [left, ← gone]
  refine (sum_left_add_gone (fun x mem y mem' => ?_) (h.once.filter p) (fun k mem => ?_)
    fun out mem => amountAt_of_mem (Finset.mem_filter.mp mem).1).symm
  · exact injOn_rows g.outputs (Finset.mem_filter.mp mem).1 (Finset.mem_filter.mp mem').1
  · obtain ⟨spent, kind⟩ := Multiset.mem_filter.mp mem
    obtain ⟨e, edge, rfl⟩ := Multiset.mem_map.mp spent
    obtain ⟨out, stored, same⟩ := h.stored e edge
    exact ⟨out, Finset.mem_filter.mpr ⟨stored, by rw [same]; exact kind⟩, same⟩

/-- What an address received is what it spent and what it holds. -/
theorem SpentOnce.accounts (h : g.SpentOnce) (layers : g.LayersAgree) (a : Address) :
    g.receivedInAll a = g.spentInAll a + g.holdings a := by
  have created : ((g.hasOutput.filter fun e => (e.2, a) ∈ g.lockedTo).map
      fun e => g.amountAt e.2).sum =
        ∑ out ∈ g.outputs.rows.filter fun out => (out.outputId, a) ∈ g.lockedTo,
          out.amount.toNat := by
    calc _ = (((g.hasOutput.map (·.2)).filter fun id => (id, a) ∈ g.lockedTo).map
            g.amountAt).sum := by
            rw [Multiset.filter_map, Multiset.map_map]
            rfl
      _ = ((g.outputs.rows.val.filter fun out => (out.outputId, a) ∈ g.lockedTo).map
            fun out => g.amountAt out.outputId).sum := by
            rw [h.created, Multiset.filter_map, Multiset.map_map]
            rfl
      _ = _ := Finset.sum_congr rfl fun out mem => amountAt_of_mem (Finset.mem_filter.mp mem).1
  rw [receivedInAll_eq layers, spentInAll_eq layers h.owned, created,
    h.sum_outputs fun id => (id, a) ∈ g.lockedTo, add_comm]
  rfl

end Graph

/-! ## The books of a chain -/

/-- The amounts are small, no output is spent twice, and only coinbases create value. -/
structure Honest (chain : List LocatedBlock) : Prop where
  amounts : SmallAmounts chain
  once : (spentKeys chain).Nodup
  covered : ∀ tx ∈ txsOf chain, tx.isCoinbase = false → createdValue tx ≤ spentValue chain tx

variable {chain : List LocatedBlock} {o : IngestionOrchestrator} {g : Graph}

theorem map_snd_spends (chain : List LocatedBlock) :
    ((txsOf chain).flatMap spendsOf).map (·.2) = spentKeys chain := by
  rw [List.map_flatMap, spentKeys]
  exact List.flatMap_congr fun tx _ => IngestionOrchestrator.map_snd_spendsOf tx

theorem sum_flatMap {α β : Type} (f : α → List β) (value : β → ℕ) (l : List α) :
    ((l.flatMap f).map value).sum = (l.map fun a => ((f a).map value).sum).sum := by
  induction l with
  | nil => rfl
  | cons a l ih => simp [ih]

theorem spentValue_of_isCoinbase {tx : Transaction} (coinbase : tx.isCoinbase = true) :
    spentValue chain tx = 0 := by
  simp [spentValue, Transaction.inputKeys, coinbase]

namespace IngestionOrchestrator.Detailed

theorem spentOnce (h : o.Detailed chain g) (valid : FromGenesis chain)
    (once : (spentKeys chain).Nodup) : g.SpentOnce where
  created := by
    rw [h.hasOutput, h.outputs, Multiset.map_coe, Multiset.map_coe, List.map_flatMap,
      List.map_flatMap]
    refine congrArg _ (List.flatMap_congr fun tx _ => ?_)
    rw [List.map_map, List.map_map, placesOf, List.map_map, List.range_eq_range',
      ← List.zipIdx_map_snd 0 tx.output, List.map_map]
    rfl
  owned e edge t := by
    rw [h.spends, Multiset.mem_coe] at edge
    obtain ⟨tx, inChain, inTx⟩ := List.mem_flatMap.mp edge
    obtain ⟨owner, place⟩ := place_of_mem_spendsOf inTx
    rw [h.hasInput, Multiset.mem_coe]
    constructor
    · intro has
      obtain ⟨tx', -, made⟩ := List.mem_flatMap.mp has
      obtain ⟨k, inPlaces, same⟩ := List.mem_map.mp made
      obtain ⟨i, -, rfl⟩ := List.mem_map.mp inPlaces
      obtain ⟨rfl, here⟩ := Prod.mk.inj same
      rw [← here]
    · rintro rfl
      exact List.mem_flatMap.mpr ⟨tx, inChain, List.mem_map.mpr ⟨e.1, place, by rw [owner]⟩⟩
  stored e edge := by
    have spent : e.2 ∈ spentKeys chain := by
      rw [← map_snd_spends]
      rw [h.spends, Multiset.mem_coe] at edge
      exact List.mem_map_of_mem edge
    obtain ⟨output, found⟩ := Option.isSome_iff_exists.mp (found_of_fromGenesis valid spent)
    obtain ⟨tx, inChain, same, inside⟩ := (outputAt_eq_some valid.txids).mp found
    refine ⟨o.outputNode tx (output, e.2.vout), ?_, by rw [outputNode, same]⟩
    show _ ∈ g.outputs.rows.val
    rw [h.outputs, Multiset.mem_coe]
    exact List.mem_flatMap.mpr ⟨tx, inChain,
      List.mem_map.mpr ⟨_, List.mk_mem_zipIdx_iff_getElem?.mpr inside, rfl⟩⟩
  once := by
    rw [h.spends, Multiset.map_coe, map_snd_spends]
    exact once

/-- A sum over the stored transactions is one over those of the chain. -/
theorem sum_transactions (h : o.Detailed chain g) {f : TransactionNode → ℕ} {f' : Transaction → ℕ}
    (same : ∀ b, ∀ tx ∈ txsOf chain, f (transactionNode chain b tx) = f' tx) :
    ∑ node ∈ g.transactions.rows, f node = ((txsOf chain).map f').sum := by
  show (g.transactions.rows.val.map f).sum = _
  rw [h.transactions, Multiset.map_coe, Multiset.sum_coe, List.map_flatMap, txsOf, List.map_flatMap]
  refine congrArg List.sum (List.flatMap_congr fun b mem => ?_)
  rw [List.map_map]
  exact List.map_congr_left fun tx inBlock => same b tx (List.mem_flatMap.mpr ⟨b, mem, inBlock⟩)

/-- What the stored outputs are worth. -/
theorem sum_outputs (h : o.Detailed chain g) :
    ∑ out ∈ g.outputs.rows, out.amount.toNat = ((txsOf chain).map createdValue).sum := by
  show (g.outputs.rows.val.map (·.amount.toNat)).sum = _
  rw [h.outputs, Multiset.map_coe, Multiset.sum_coe, sum_flatMap]
  refine congrArg List.sum (List.map_congr_left fun tx _ => ?_)
  rw [createdValue, List.map_map]
  calc (tx.output.zipIdx.map fun x => x.1.value.toNat).sum
      = ((tx.output.zipIdx.map Prod.fst).map (·.value.toNat)).sum := by rw [List.map_map]; rfl
    _ = (tx.output.map (·.value.toNat)).sum := by rw [List.zipIdx_map_fst]

/-- What the inputs spend. -/
theorem sum_spends (h : o.Detailed chain g) (txids : ((txsOf chain).map (·.txid)).Nodup) :
    (g.spends.map fun e => g.amountAt e.2).sum = ((txsOf chain).map (spentValue chain)).sum := by
  rw [h.spends, Multiset.map_coe, Multiset.sum_coe, sum_flatMap]
  refine congrArg List.sum (List.map_congr_left fun tx _ => ?_)
  calc ((spendsOf tx).map fun e => g.amountAt e.2).sum
      = (((spendsOf tx).map (·.2)).map g.amountAt).sum := by rw [List.map_map]; rfl
    _ = (tx.inputKeys.map g.amountAt).sum := by rw [map_snd_spendsOf]
    _ = spentValue chain tx := by
      rw [spentValue, sum_filterMap, funext (h.amountAt txids)]
      simp only [amount_valueOf]

/-- What the coinbases created is spent on fees or unspent. -/
theorem supply (h : o.Detailed chain g) (valid : FromGenesis chain) (honest : Honest chain) :
    g.minted = g.fees + ∑ out ∈ g.unspent, out.amount.toNat := by
  have minted : g.minted = ((txsOf chain).map fun tx =>
      if tx.isCoinbase then createdValue tx else 0).sum := by
    rw [Graph.minted, Finset.sum_filter]
    refine h.sum_transactions fun b tx mem => ?_
    have small := honest.amounts.created tx mem
    show (if tx.isCoinbase = true then (UInt64.ofNat (createdValue tx)).toNat else 0) = _
    rw [UInt64.toNat_ofNat', Nat.mod_eq_of_lt (by omega)]
  have fees : g.fees = ((txsOf chain).map fun tx => spentValue chain tx - createdValue tx).sum := by
    refine h.sum_transactions fun b tx mem => ?_
    have small := honest.amounts.spent tx mem
    show (UInt64.ofNat (spentValue chain tx - createdValue tx)).toNat = _
    rw [UInt64.toNat_ofNat', Nat.mod_eq_of_lt (by omega)]
  have each : ∀ tx ∈ txsOf chain, (if tx.isCoinbase then createdValue tx else 0) +
      spentValue chain tx = spentValue chain tx - createdValue tx + createdValue tx := by
    intro tx mem
    cases coinbase : tx.isCoinbase with
    | true => simp [spentValue_of_isCoinbase coinbase]
    | false =>
      have covered := honest.covered tx mem coinbase
      simp only [Bool.false_eq_true, if_false]
      omega
  have balance : g.minted + (g.spends.map fun e => g.amountAt e.2).sum =
      g.fees + ∑ out ∈ g.outputs.rows, out.amount.toNat := by
    rw [minted, fees, h.sum_spends valid.txids, h.sum_outputs, ← List.sum_map_add,
      ← List.sum_map_add, List.map_congr_left each]
  have split := (h.spentOnce valid honest.once).sum_outputs fun _ => True
  simp only [Finset.filter_true, Multiset.filter_true] at split
  omega

end IngestionOrchestrator.Detailed

/-! ## The books of a history -/

namespace Ledger

end Ledger

end ChainGraph
