import CAdvanced.ChainedBuckets
import CAdvanced.HashProgram

/-!
# Chains in the heap

Each slot points to a null-terminated chain of nodes, and every node lies in
the slot that `_hash` computes for its key.  The engine owns the slot array and
three blocks for each node.
-/

namespace CAdvanced

open Fallible
open KeyValue
open HashTable

/-! ## The slot of a key -/

/-- The slot that `_hash` selects; there is none when the sum leaves `int` or
the remainder is negative. -/
def hashSlot (ch : PlainChar) (key : CString) : Option HashSlot :=
  match sumChars ch key.bytes 0 0 with
  | some sum =>
      if h : 0 ≤ sum.tmod maxTableSize ∧ sum.tmod maxTableSize < maxTableSize
      then some ⟨(sum.tmod maxTableSize).toNat, toNat_lt_maxTableSize h⟩
      else none
  | none => none

theorem returns_hash {σ : Type} {ch : PlainChar} {key : CString}
    {i : HashSlot} (hslot : hashSlot ch key = some i) (s : σ)
    (Q : ℤ → σ → Prop) :
    Returns (hash ch key maxTableSize) s Q ↔ Q i.val s := by
  unfold hashSlot at hslot
  cases hsum : sumChars ch key.bytes 0 0 with
  | none => simp [hsum] at hslot
  | some sum =>
      simp only [hsum] at hslot
      split at hslot
      next hrange =>
        have hval : (i.val : ℤ) = sum.tmod maxTableSize := by
          rw [← Option.some.inj hslot]
          exact Int.toNat_of_nonneg hrange.1
        rw [hval]
        simp [hash, hsum]
      next hrange => cases hslot

/-! ## Nodes and chains -/

structure HashNode where
  addr : Addr
  key : CharBlock
  value : CharBlock

namespace HashNode

def text (x : HashNode) : CString := x.key.str

def content (x : HashNode) : Option CString := some x.value.str

def blocks (x : HashNode) : List Addr := [x.addr, x.key.addr, x.value.addr]

end HashNode

def headAddr : List HashNode → Addr
  | [] => NULL
  | x :: _ => x.addr

structure NodeAt (s : HashTable) (x : HashNode) (next : Addr) : Prop where
  key : s.key x.addr = some (some x.key)
  value : s.value x.addr = some (some x.value)
  next : s.next x.addr = some next

def Linked (s : HashTable) : List HashNode → Prop
  | [] => True
  | x :: xs => NodeAt s x (headAddr xs) ∧ Linked s xs

/-- Two states agree on the fields of the node at `a`. -/
structure SameFields (s s' : HashTable) (a : Addr) : Prop where
  key : s'.key a = s.key a
  value : s'.value a = s.value a
  next : s'.next a = s.next a

theorem SameFields.trans {s s' s'' : HashTable} {a : Addr}
    (h : SameFields s s' a) (h' : SameFields s' s'' a) :
    SameFields s s'' a where
  key := h'.key.trans h.key
  value := h'.value.trans h.value
  next := h'.next.trans h.next

theorem NodeAt.frame {s s' : HashTable} {x : HashNode} {next : Addr}
    (h : NodeAt s x next) (hsame : SameFields s s' x.addr) :
    NodeAt s' x next where
  key := hsame.key.trans h.key
  value := hsame.value.trans h.value
  next := hsame.next.trans h.next

theorem Linked.frame {s s' : HashTable} {xs : List HashNode}
    (h : Linked s xs) (hsame : ∀ x ∈ xs, SameFields s s' x.addr) :
    Linked s' xs := by
  induction xs with
  | nil => trivial
  | cons x xs ih =>
      refine ⟨h.1.frame (hsame x (by simp)), ih h.2 ?_⟩
      intro y hy
      exact hsame y (List.mem_cons_of_mem x hy)

theorem Linked.suffix {s : HashTable} {xs ys : List HashNode}
    (h : Linked s (xs ++ ys)) : Linked s ys := by
  induction xs with
  | nil => exact h
  | cons x xs ih => exact ih h.2

theorem Linked.node {s : HashTable} {xs ys : List HashNode} {x : HashNode}
    (h : Linked s (xs ++ x :: ys)) : NodeAt s x (headAddr ys) :=
  h.suffix.1

theorem Linked.behind {s : HashTable} {xs ys : List HashNode} {x : HashNode}
    (h : Linked s (xs ++ x :: ys)) : Linked s ys :=
  h.suffix.2

theorem heads_update {s s' : HashTable} {chains : HashSlot → List HashNode}
    {i : HashSlot} {chain : List HashNode}
    (h : ∀ j, s.slots j = headAddr (chains j))
    (hslots : s'.slots = Function.update s.slots i (headAddr chain)) :
    ∀ j, s'.slots j = headAddr (Function.update chains i chain j) := by
  intro j
  rw [hslots]
  by_cases hj : j = i
  · subst hj
    simp
  · simp [hj, h j]

theorem linked_update {s s' : HashTable} {chains : HashSlot → List HashNode}
    {i : HashSlot} {chain : List HashNode} (h : ∀ j, Linked s (chains j))
    (hothers : ∀ j, j ≠ i → ∀ y ∈ chains j, SameFields s s' y.addr)
    (hlinked : Linked s' chain) :
    ∀ j, Linked s' (Function.update chains i chain j) := by
  intro j
  by_cases hj : j = i
  · subst hj
    rwa [Function.update_self]
  · rw [Function.update_of_ne hj]
    exact (h j).frame (hothers j hj)

/-! ## Whole tables -/

structure HashRep (ch : PlainChar) (s : HashTable)
    (chains : HashSlot → List HashNode) (rest : List Addr) : Prop where
  heads : ∀ i, s.slots i = headAddr (chains i)
  linked : ∀ i, Linked s (chains i)
  placed : Placed (hashSlot ch) HashNode.text chains
  maxSlots : s.maxSlots = maxTableSize
  count : s.count = (gather chains).length
  owns : s.arena.Owns
    (s.nodes :: (gather chains).flatMap HashNode.blocks) rest

theorem addrs_sublist_blocks (xs : List HashNode) :
    (xs.map HashNode.addr).Sublist (xs.flatMap HashNode.blocks) := by
  induction xs with
  | nil => simp
  | cons x xs ih =>
      rw [List.map_cons, List.flatMap_cons, HashNode.blocks, List.cons_append]
      exact (ih.trans (List.sublist_append_right _ _)).cons_cons x.addr

namespace HashRep

variable {ch : PlainChar} {s s' : HashTable}
  {chains : HashSlot → List HashNode} {rest : List Addr} {i j : HashSlot}
  {x y : HashNode}

theorem nodesLive (h : HashRep ch s chains rest) :
    s.nodes ∈ s.arena.live :=
  h.owns.live (by simp)

theorem mem_blocks (hx : x ∈ chains i) {a : Addr} (ha : a ∈ x.blocks) :
    a ∈ s.nodes :: (gather chains).flatMap HashNode.blocks := by
  apply List.mem_cons_of_mem
  exact List.mem_flatMap.mpr ⟨x, mem_gather.mpr ⟨i, hx⟩, ha⟩

theorem block_live (h : HashRep ch s chains rest) (hx : x ∈ chains i)
    {a : Addr} (ha : a ∈ x.blocks) : a ∈ s.arena.live :=
  h.owns.live (mem_blocks hx ha)

theorem addr_live (h : HashRep ch s chains rest) (hx : x ∈ chains i) :
    x.addr ∈ s.arena.live :=
  h.block_live hx (by simp [HashNode.blocks])

theorem addr_ne_null (h : HashRep ch s chains rest) (hx : x ∈ chains i) :
    x.addr ≠ NULL :=
  h.owns.ne_null (mem_blocks hx (by simp [HashNode.blocks]))

theorem addrs_nodup (h : HashRep ch s chains rest) (i : HashSlot) :
    ((chains i ++ gatherOthers chains i).map HashNode.addr).Nodup := by
  have hblocks := (List.nodup_cons.mp h.owns.nodup).2
  have haddrs := hblocks.sublist (addrs_sublist_blocks _)
  exact (((gather_perm chains i).map HashNode.addr).nodup_iff).mp haddrs

/-- Nodes of different chains lie at different addresses. -/
theorem addr_ne (h : HashRep ch s chains rest) (hx : x ∈ chains i)
    (hy : y ∈ chains j) (hij : j ≠ i) : y.addr ≠ x.addr := by
  have hnodup := h.addrs_nodup i
  rw [List.map_append, List.nodup_append] at hnodup
  intro heq
  apply hnodup.2.2 x.addr (List.mem_map_of_mem hx) y.addr _ heq.symm
  exact List.mem_map_of_mem (mem_gatherOthers.mpr ⟨j, hij, hy⟩)

theorem chain_nodup (h : HashRep ch s chains rest) (i : HashSlot) :
    ((chains i).map HashNode.addr).Nodup := by
  have hnodup := h.addrs_nodup i
  rw [List.map_append] at hnodup
  exact (List.nodup_append.mp hnodup).1

theorem chain_addr_ne (h : HashRep ch s chains rest)
    {B C : List HashNode} (hsplit : chains i = B ++ x :: C) :
    ∀ y ∈ B ++ C, y.addr ≠ x.addr := by
  have hnodup := h.chain_nodup i
  rw [hsplit, List.map_append, List.map_cons, List.nodup_middle,
    List.nodup_cons, ← List.map_append] at hnodup
  intro y hy heq
  apply hnodup.1
  rw [← heq]
  exact List.mem_map_of_mem hy

theorem update (h : HashRep ch s chains rest) {chain : List HashNode}
    (hslots : s'.slots = Function.update s.slots i (headAddr chain))
    (hothers : ∀ j, j ≠ i → ∀ y ∈ chains j, SameFields s s' y.addr)
    (hlinked : Linked s' chain)
    (hplaced : ∀ x ∈ chain, hashSlot ch x.text = some i)
    (hmax : s'.maxSlots = s.maxSlots)
    (hcount : s'.count = chain.length + (gatherOthers chains i).length)
    (howns : s'.arena.Owns (s'.nodes ::
      (chain ++ gatherOthers chains i).flatMap HashNode.blocks) rest) :
    HashRep ch s' (Function.update chains i chain) rest := by
  have hperm := gather_update_perm chains i chain
  refine ⟨heads_update h.heads hslots, linked_update h.linked hothers hlinked,
    h.placed.update hplaced, hmax.trans h.maxSlots, ?_, ?_⟩
  · rw [hcount, hperm.length_eq, List.length_append]
    push_cast
    ring
  · exact howns.perm ((hperm.symm.flatMap_right _).cons _)

end HashRep

end CAdvanced
