import CAdvanced.HashRep

/-!
# The hash engine refines a finite map

Every call recomputes the slot of its key and works on one chain.  The calls
are described for the keys that have a slot.
-/

namespace CAdvanced

open Fallible
open KeyValue
open HashTable

section Access

variable {ch : PlainChar} {s : HashTable} {chains : HashSlot → List HashNode}
  {rest : List Addr} {i : HashSlot} {k : CString} {x : HashNode}
  {B C : List HashNode}

theorem returns_slotOf (hlive : s.nodes ∈ s.arena.live) (i : HashSlot)
    (Q : HashSlot → HashTable → Prop) :
    Returns (slotOf i.val) s Q ↔ Q i s := by
  have hrange : 0 ≤ (i.val : ℤ) ∧ (i.val : ℤ) < maxTableSize := by omega
  simp [slotOf, hlive, hrange]

theorem HashRep.returns_headOf (h : HashRep ch s chains rest)
    (i : HashSlot) (Q : Addr → HashTable → Prop) :
    Returns (headOf i.val) s Q ↔ Q (headAddr (chains i)) s := by
  simp only [headOf, returns_bind, returns_slotOf h.nodesLive, returns_get,
    returns_pure, h.heads i]

theorem returns_setHead (hlive : s.nodes ∈ s.arena.live) (i : HashSlot)
    (p : Addr) (Q : Unit → HashTable → Prop) :
    Returns (setHead i.val p) s Q ↔
      Q () (withSlots (Function.update s.slots i p) s) := by
  simp only [setHead, returns_bind, returns_slotOf hlive, returns_modify]

theorem NodeAt.returns_keyOf {next : Addr} (h : NodeAt s x next)
    (Q : CString → HashTable → Prop) :
    Returns (HashTable.keyOf x.addr) s Q ↔ Q x.text s := by
  simp [HashTable.keyOf, HashTable.keyPtrOf, h.key, HashNode.text]

theorem HashRep.chain_length (h : HashRep ch s chains rest) (i : HashSlot) :
    (chains i).length ≤ s.arena.live.length := by
  rw [← List.length_map (f := HashNode.addr)]
  apply List.Subperm.length_le
  apply List.subperm_of_subset (h.chain_nodup i)
  intro a ha
  obtain ⟨x, hx, rfl⟩ := List.mem_map.mp ha
  exact h.addr_live hx

theorem HashRep.returnsIf_searchFrom {c : Prop} (h : HashRep ch s chains rest)
    {ρ : Type} {hit : Addr → Exec HashTable ρ} {missing : ρ}
    {Q : ρ → HashTable → Prop}
    (hhit : ∀ B x C, chains i = B ++ x :: C → x.text = k →
      ReturnsIf c (hit x.addr) s Q)
    (hmissing : (∀ x ∈ chains i, x.text ≠ k) → Q missing s) {fuel : ℕ}
    (hsplit : chains i = B ++ C) (hB : ∀ x ∈ B, x.text ≠ k)
    (hfuel : C.length < fuel) :
    ReturnsIf c (iterate (chainStep k hit missing) fuel (headAddr C)) s Q := by
  induction C generalizing B fuel with
  | nil =>
      obtain ⟨fuel, rfl⟩ := Nat.exists_eq_add_of_lt hfuel
      have hdone : Q missing s := by
        apply hmissing
        rw [hsplit]
        simpa using hB
      exact Or.inl (by simpa [iterate, chainStep, headAddr] using hdone)
  | cons x C ih =>
      obtain ⟨fuel, rfl⟩ := Nat.exists_eq_add_of_lt hfuel
      have hx : x ∈ chains i := by simp [hsplit]
      have hlinked := h.linked i
      rw [hsplit] at hlinked
      have hnode := hlinked.node
      have hiff := strcmp_eq_zero_iff x.text k
      rw [iterate, chainStep, headAddr, if_pos (h.addr_ne_null hx)]
      apply returnsIf_bind
      apply returnsIf_bind
      refine Or.inl ((hnode.returns_keyOf _).mpr ?_)
      by_cases hkey : strcmp x.text k = 0
      · rw [if_pos hkey]
        apply returnsIf_bind
        apply (hhit B x C hsplit (hiff.mp hkey)).mono
        intro answer s' hanswer
        exact returnsIf_pure (returnsIf_pure hanswer)
      · rw [if_neg hkey]
        have hnext : Returns (nextOf x.addr) s
            (fun next s' => next = headAddr C ∧ s' = s) := by
          simp [nextOf, hnode.next]
        apply returnsIf_bind
        refine Or.inl (hnext.mono ?_)
        intro next s' hs'
        obtain ⟨rfl, rfl⟩ := hs'
        apply returnsIf_pure
        apply ih (B := B ++ [x]) (by simp [hsplit])
        · intro y hy
          rcases List.mem_append.mp hy with hy | hy
          · exact hB y hy
          · rw [List.mem_singleton.mp hy]
            exact fun heq => hkey (hiff.mpr heq)
        · simp only [List.length_cons] at hfuel ⊢
          omega

theorem HashRep.returnsIf_searchChain {c : Prop}
    (h : HashRep ch s chains rest) (i : HashSlot) (k : CString) {ρ : Type}
    {hit : Addr → Exec HashTable ρ} {missing : ρ} {Q : ρ → HashTable → Prop}
    (hhit : ∀ B x C, chains i = B ++ x :: C → x.text = k →
      ReturnsIf c (hit x.addr) s Q)
    (hmissing : (∀ x ∈ chains i, x.text ≠ k) → Q missing s) :
    ReturnsIf c (searchChain k hit missing i.val) s Q := by
  unfold searchChain loopFuel
  apply returnsIf_bind
  refine Or.inl ((returns_bind _ _ _ _).mpr ((Fallible.returns_get _ _).mpr
    ((returns_pure _ _ _).mpr ?_)))
  apply returnsIf_bind
  refine Or.inl ((h.returns_headOf i _).mpr ?_)
  exact h.returnsIf_searchFrom (B := []) hhit hmissing rfl (by simp)
    (Nat.lt_succ_of_le (h.chain_length i))

theorem HashRep.returns_searchChain (h : HashRep ch s chains rest)
    (i : HashSlot) (k : CString) {ρ : Type} {hit : Addr → Exec HashTable ρ}
    {missing : ρ} {Q : ρ → HashTable → Prop}
    (hhit : ∀ B x C, chains i = B ++ x :: C → x.text = k →
      Returns (hit x.addr) s Q)
    (hmissing : (∀ x ∈ chains i, x.text ≠ k) → Q missing s) :
    Returns (searchChain k hit missing i.val) s Q :=
  (h.returnsIf_searchChain i k (fun B x C hsplit hkey =>
    Or.inl (hhit B x C hsplit hkey)) hmissing).returns trivial

end Access

/-! ## Blocks of one node -/

/-- Header and slots are as before, and so are all nodes but the one at
`p`. -/
structure OtherNodes (s s' : HashTable) (p : Addr) : Prop where
  nodes : s'.nodes = s.nodes
  slots : s'.slots = s.slots
  maxSlots : s'.maxSlots = s.maxSlots
  fields : ∀ a, a ≠ p → SameFields s s' a

section OtherNodes

variable {s s' s'' : HashTable} {p : Addr}

theorem OtherNodes.trans (h : OtherNodes s s' p) (h' : OtherNodes s' s'' p) :
    OtherNodes s s'' p where
  nodes := h'.nodes.trans h.nodes
  slots := h'.slots.trans h.slots
  maxSlots := h'.maxSlots.trans h.maxSlots
  fields := fun a ha => (h.fields a ha).trans (h'.fields a ha)

theorem otherNodes_withKey (k : CharPtr) (s : HashTable) :
    OtherNodes s (HashTable.withKey p k s) p := by
  refine ⟨rfl, rfl, rfl, ?_⟩
  intro a ha
  constructor <;> simp [HashTable.withKey, ha]

theorem otherNodes_withValue (v : CharPtr) (s : HashTable) :
    OtherNodes s (HashTable.withValue p v s) p := by
  refine ⟨rfl, rfl, rfl, ?_⟩
  intro a ha
  constructor <;> simp [HashTable.withValue, ha]

theorem otherNodes_withNext (q : Addr) (s : HashTable) :
    OtherNodes s (HashTable.withNext p q s) p := by
  refine ⟨rfl, rfl, rfl, ?_⟩
  intro a ha
  constructor <;> simp [HashTable.withNext, ha]

end OtherNodes

theorem blocks_perm (p : Addr) (B C D : List HashNode) (x : HashNode) :
    (p :: ((B ++ x :: C) ++ D).flatMap HashNode.blocks).Perm
      (x.value.addr :: x.key.addr :: x.addr :: p ::
        ((B ++ C) ++ D).flatMap HashNode.blocks) := by
  rw [List.perm_iff_count]
  intro a
  simp only [List.flatMap_append, List.flatMap_cons, HashNode.blocks,
    List.count_cons, List.count_append, List.count_nil]
  ring

section Node

variable {ch : PlainChar} {A : Allocator} {s : HashTable}
  {chains : HashSlot → List HashNode} {blocks rest : List Addr}
  {i : HashSlot} {x : HashNode} {B C : List HashNode} {next : Addr}

theorem HashRep.owns_node (h : HashRep ch s chains rest)
    (hsplit : chains i = B ++ x :: C) :
    s.arena.Owns (x.value.addr :: x.key.addr :: x.addr :: s.nodes ::
      ((B ++ C) ++ gatherOthers chains i).flatMap HashNode.blocks) rest := by
  have hperm := gather_perm chains i
  rw [hsplit] at hperm
  apply h.owns.perm
  exact ((hperm.flatMap_right _).cons _).trans (blocks_perm _ _ _ _ _)

theorem returns_freeText_hash {block : CharBlock}
    (howns : s.arena.Owns (block.addr :: blocks) rest) {p : Addr} :
    Returns (freeText (some block)) s (fun _ s' => OtherNodes s s' p ∧
      SameFields s s' p ∧ s'.count = s.count ∧
        s'.arena.Owns blocks rest ∧
          s.arena.Turnover [] [block.addr] s'.arena ∧
          s'.arena = s.arena.release block.addr) := by
  have hlive : block.addr ∈ s.arena.live := howns.live (by simp)
  apply returns_free
  · exact howns.ne_null (by simp)
  · exact hlive
  · exact ⟨⟨rfl, rfl, rfl, fun _ _ => ⟨rfl, rfl, rfl⟩⟩, ⟨rfl, rfl, rfl⟩, rfl,
      howns.release, Arena.turnover_release hlive, rfl⟩

theorem returns_dropNode (hnode : NodeAt s x next)
    (howns : s.arena.Owns (x.value.addr :: x.key.addr :: x.addr :: blocks)
      rest) :
    Returns (dropNode x.addr) s (fun _ s' => OtherNodes s s' x.addr ∧
      s'.count = s.count - 1 ∧ s'.arena.Owns blocks rest ∧
        s.arena.Turnover [] [x.key.addr, x.value.addr, x.addr] s'.arena) := by
  have howns₀ := howns.perm (List.Perm.swap x.key.addr x.value.addr _)
  have hkey := hnode.key
  simp only [dropNode, returns_bind, keyPtrOf, returns_load, hkey,
    Option.some.injEq, exists_eq_left']
  apply (returns_freeText_hash howns₀ (p := x.addr)).mono
  intro _ s₁ hs₁
  rcases hs₁ with ⟨hother₁, hsame₁, hcount₁, howns₁, hturn₁, -⟩
  have hvalue : s₁.value x.addr = some (some x.value) :=
    hsame₁.value.trans hnode.value
  simp only [HashTable.valuePtrOf, returns_load, hvalue,
    Option.some.injEq, exists_eq_left']
  apply (returns_freeText_hash howns₁ (p := x.addr)).mono
  intro _ s₂ hs₂
  rcases hs₂ with ⟨hother₂, hsame₂, hcount₂, howns₂, hturn₂, -⟩
  have hlive : x.addr ∈ s₂.arena.live := howns₂.live (by simp)
  simp only [freeNode, returns_bind]
  apply returns_free
  · exact howns₂.ne_null (by simp)
  · exact hlive
  · simp only [returns_modify]
    refine ⟨⟨?_, ?_, ?_, ?_⟩, ?_, howns₂.release,
      (hturn₁.trans hturn₂).trans (Arena.turnover_release hlive)⟩
    · exact hother₂.nodes.trans hother₁.nodes
    · exact hother₂.slots.trans hother₁.slots
    · exact hother₂.maxSlots.trans hother₁.maxSlots
    · intro a ha
      apply ((hother₁.fields a ha).trans (hother₂.fields a ha)).trans
      constructor <;> simp [forget, HasArena.withArena, ha]
    · change s₂.count - 1 = s.count - 1
      rw [hcount₂, hcount₁]

theorem returns_copyText_hash (A : Allocator)
    (howns : s.arena.Owns blocks rest) (str : CString) {p : Addr} :
    Returns (copyText A str) s (fun c s' => OtherNodes s s' p ∧
      SameFields s s' p ∧ s'.count = s.count ∧
        ((c = none ∧ ¬ A.Grants 1 s.arena ∧ s'.arena.Owns blocks rest) ∨
          ∃ a, c = some ⟨a, str⟩ ∧
            (∀ n, A.Grants (n + 1) s.arena ↔ A.Grants n s'.arena) ∧
            s'.arena.Owns (a :: blocks) rest ∧
            s.arena.Turnover [a] [] s'.arena)) := by
  apply returns_copyText_or
  · intro hplace
    exact ⟨⟨rfl, rfl, rfl, fun _ _ => ⟨rfl, rfl, rfl⟩⟩, ⟨rfl, rfl, rfl⟩, rfl,
      Or.inl ⟨rfl, not_grants_succ hplace, howns⟩⟩
  · intro a hplace
    have ha := A.place_fresh hplace
    exact ⟨⟨rfl, rfl, rfl, fun _ _ => ⟨rfl, rfl, rfl⟩⟩, ⟨rfl, rfl, rfl⟩, rfl,
      Or.inr ⟨a, rfl, fun n => grants_succ hplace, howns.grant ha,
        Arena.turnover_grant ha⟩⟩

theorem returns_freeNode {p : Addr} {ρ : Type} (answer : ρ)
    (howns : s.arena.Owns (p :: blocks) rest) :
    Returns (do freeNode p; return answer) s (fun a _ => a = answer) := by
  simp only [freeNode, returns_bind]
  apply returns_free
  · exact howns.ne_null (by simp)
  · exact howns.live (by simp)
  · simp

/-- A fresh node that is not linked yet, or a null pointer. -/
theorem returns_createNode (A : Allocator)
    (howns : s.arena.Owns blocks rest) (key value : CString) :
    Returns (createNode A key value) s (fun p s' =>
      (p = NULL ∧ ¬ A.Grants 3 s.arena) ∨ ∃ x : HashNode,
      p = x.addr ∧ A.Grants 3 s.arena ∧ x.key.str = key ∧
        x.value.str = value ∧
        x.addr ∉ s.arena.live ∧ NodeAt s' x NULL ∧ OtherNodes s s' x.addr ∧
        s'.count = s.count ∧
        s'.arena.Owns (x.value.addr :: x.key.addr :: x.addr :: blocks)
          rest ∧
        s.arena.Turnover [x.value.addr, x.key.addr, x.addr] []
          s'.arena) := by
  simp only [createNode, returns_bind]
  apply returns_malloc_or
  · intro hplace
    simp only [reduceIte, returns_pure]
    exact Or.inl ⟨trivial, not_grants_succ hplace⟩
  intro p hplace
  have hp := A.place_fresh hplace
  have hnull : p ≠ NULL := hp.1
  have hgrants := fun n => grants_succ (n := n) hplace
  have hfresh : OtherNodes s
      (HashTable.forget p (HasArena.withArena (s.arena.grant p hp) s)) p := by
    refine ⟨rfl, rfl, rfl, ?_⟩
    intro a ha
    constructor <;> simp [HashTable.forget, HasArena.withArena, ha]
  simp only [hnull, reduceIte, returns_bind, returns_modify]
  apply (returns_copyText_hash A (howns.grant hp) key (p := p)).mono
  intro c s₁ hs₁
  obtain ⟨hother₁, hsame₁, hcount₁, hcopy₁⟩ := hs₁
  have hlive₁ : p ∈ s₁.arena.live := by
    rcases hcopy₁ with ⟨-, -, howns₁⟩ | ⟨kp, -, -, howns₁, -⟩
    · exact howns₁.live (by simp)
    · exact howns₁.live (by simp)
  simp only [HashTable.setKey, returns_store, HashTable.isLive, hlive₁,
    decide_true, true_and]
  rcases hcopy₁ with ⟨rfl, hrefused, howns₁⟩ |
    ⟨kp, rfl, hgrants₁, howns₁, hturn₁⟩
  · simp only [reduceIte]
    apply (returns_freeNode NULL (by exact howns₁)).mono
    intro a _ ha
    exact Or.inl ⟨ha, fun hall => hrefused ((hgrants 1).mp hall.of_succ)⟩
  simp only [reduceCtorEq, reduceIte, returns_bind]
  have hownsKey : (HashTable.withKey p (some ⟨kp, key⟩) s₁).arena.Owns
      (kp :: p :: blocks) rest := howns₁
  apply (returns_copyText_hash A hownsKey value (p := p)).mono
  intro c s₂ hs₂
  obtain ⟨hother₂, hsame₂, hcount₂, hcopy₂⟩ := hs₂
  have hlive₂ : p ∈ s₂.arena.live := by
    rcases hcopy₂ with ⟨-, -, howns₂⟩ | ⟨vp, -, -, howns₂, -⟩
    · exact howns₂.live (by simp)
    · exact howns₂.live (by simp)
  simp only [HashTable.setValue, returns_store, HashTable.isLive, hlive₂,
    decide_true, true_and]
  rcases hcopy₂ with ⟨rfl, hrefused, howns₂⟩ |
    ⟨vp, rfl, hgrants₂, howns₂, hturn₂⟩
  · simp only [reduceIte]
    rw [returns_bind]
    apply returns_free
    · exact howns₂.ne_null (by simp)
    · exact howns₂.live (by simp)
    · apply (returns_freeNode NULL (by exact howns₂.release)).mono
      intro a _ ha
      exact Or.inl ⟨ha, fun hall =>
        hrefused ((hgrants₁ 1).mp ((hgrants 2).mp hall))⟩
  simp only [HashTable.setNext, returns_store, HashTable.isLive,
    withValue_arena, hlive₂, decide_true, true_and, reduceCtorEq, reduceIte,
    returns_bind, returns_pure]
  have hkey : s₂.key p = some (some ⟨kp, key⟩) := by
    rw [hsame₂.key]
    simp
  have hall : A.Grants 3 s.arena :=
    (hgrants 2).mpr ((hgrants₁ 1).mpr ((hgrants₂ 0).mpr trivial))
  refine Or.inr ⟨⟨p, ⟨kp, key⟩, ⟨vp, value⟩⟩, rfl, hall, rfl, rfl, hp.2, ?_,
    ?_, ?_, ?_, ((Arena.turnover_grant hp).trans hturn₁).trans hturn₂⟩
  · constructor <;> simp [hkey]
  · exact (((((hfresh.trans hother₁).trans (otherNodes_withKey _ s₁)).trans
      hother₂).trans (otherNodes_withValue _ s₂)).trans
        (otherNodes_withNext _ _))
  · rw [withNext_count, withValue_count, hcount₂, withKey_count, hcount₁]
    rfl
  · exact howns₂

/-- The node `x` changes, and the chain behind it may be another one; the
head of the chain stays where it is. -/
theorem HashRep.afterNode {s' : HashTable} {x' : HashNode}
    {D : List HashNode} (h : HashRep ch s chains rest)
    (hsplit : chains i = B ++ x :: C) (hslots : s'.slots = s.slots)
    (hmax : s'.maxSlots = s.maxSlots)
    (hothers : ∀ j, j ≠ i → ∀ y ∈ chains j, SameFields s s' y.addr)
    (hbefore : ∀ y ∈ B, SameFields s s' y.addr)
    (haddr : x'.addr = x.addr) (htext : x'.text = x.text)
    (hnode : NodeAt s' x' (headAddr D)) (hlinked : Linked s' D)
    (hD : ∀ y ∈ D, y ∈ C)
    (hcount : s'.count =
      (B ++ x' :: D).length + (gatherOthers chains i).length)
    (howns : s'.arena.Owns (s'.nodes ::
      ((B ++ x' :: D) ++ gatherOthers chains i).flatMap HashNode.blocks)
      rest) :
    HashRep ch s' (Function.update chains i (B ++ x' :: D)) rest := by
  have hhead : ∀ B : List HashNode,
      headAddr (B ++ x' :: D) = headAddr (B ++ x :: C) := by
    intro B
    cases B with
    | nil => exact haddr
    | cons b B => rfl
  apply h.update
  · rw [hslots, hhead, ← hsplit, ← h.heads i, Function.update_eq_self]
  · exact hothers
  · have hold := h.linked i
    rw [hsplit] at hold
    clear howns hcount hsplit
    induction B with
    | nil => exact ⟨hnode, hlinked⟩
    | cons b B ih =>
        have hb : NodeAt s' b (headAddr (B ++ x :: C)) :=
          hold.1.frame (hbefore b (by simp))
        rw [← hhead] at hb
        exact ⟨hb, ih (fun y hy => hbefore y (List.mem_cons_of_mem b hy))
          hold.2⟩
  · intro y hy
    have hold := h.placed i
    rcases List.mem_append.mp hy with hy | hy
    · exact hold y (by simp [hsplit, hy])
    · rcases List.mem_cons.mp hy with rfl | hy
      · rw [htext]
        exact hold x (by simp [hsplit])
      · exact hold y (by simp [hsplit, hD y hy])
  · exact hmax
  · exact hcount
  · exact howns

/-- A change of the node `x` leaves all other nodes of the table alone. -/
theorem HashRep.others_same {s' : HashTable}
    (h : HashRep ch s chains rest) (hsplit : chains i = B ++ x :: C)
    (hfields : ∀ a, a ≠ x.addr → SameFields s s' a) :
    (∀ j, j ≠ i → ∀ y ∈ chains j, SameFields s s' y.addr) ∧
      ∀ y ∈ B ++ C, SameFields s s' y.addr := by
  have hx : x ∈ chains i := by simp [hsplit]
  constructor
  · intro j hj y hy
    exact hfields _ (h.addr_ne hx hy hj)
  · intro y hy
    exact hfields _ (h.chain_addr_ne hsplit y hy)

theorem HashRep.chain_count (h : HashRep ch s chains rest)
    (hsplit : chains i = B ++ x :: C) :
    s.count = (B ++ C).length + 1 + (gatherOthers chains i).length := by
  rw [h.count, (gather_perm chains i).length_eq, hsplit]
  simp only [List.length_append, List.length_cons]
  push_cast
  ring

inductive HashStored (ch : PlainChar) (s : HashTable)
    (chains : HashSlot → List HashNode) (rest : List Addr)
    (key value : CString) : ℤ → HashTable → Prop
  | replaced {s' : HashTable} {i : HashSlot} {B C : List HashNode}
      {x : HashNode} {vp : Addr} (hsplit : chains i = B ++ x :: C)
      (hkey : x.text = key)
      (hrep : HashRep ch s' (Function.update chains i
        (B ++ { x with value := ⟨vp, value⟩ } :: C)) rest)
      (hturn : s.arena.Turnover [vp] [x.value.addr] s'.arena) :
      HashStored ch s chains rest key value 0 s'
  | pushed {s' : HashTable} {i : HashSlot} {x : HashNode}
      (habsent : ∀ y ∈ gather chains, y.text ≠ key) (hkey : x.text = key)
      (hvalue : x.value.str = value)
      (hrep : HashRep ch s' (Function.update chains i (x :: chains i)) rest)
      (hturn : s.arena.Turnover [x.value.addr, x.key.addr, x.addr] []
        s'.arena) :
      HashStored ch s chains rest key value 0 s'

/-- A new value for a linked node; a refused request is a fault. -/
theorem HashRep.returnsIf_replaceValue (h : HashRep ch s chains rest)
    (hsplit : chains i = B ++ x :: C) (A : Allocator) (value : CString) :
    ReturnsIf (A.Grants 1 (s.arena.release x.value.addr))
      (replaceValue A value x.addr) s (fun ret s' =>
        HashStored ch s chains rest x.text value ret s' ∧
          A.Grants 1 (s.arena.release x.value.addr)) := by
  have hlinked := h.linked i
  rw [hsplit] at hlinked
  have hnode := hlinked.node
  have hvalue := hnode.value
  unfold replaceValue
  apply returnsIf_bind
  left
  simp only [HashTable.valuePtrOf, returns_load, hvalue, Option.some.injEq,
    exists_eq_left']
  apply returnsIf_bind
  left
  apply (returns_freeText_hash (h.owns_node hsplit) (p := x.addr)).mono
  intro _ s₁ hs₁
  rcases hs₁ with ⟨hother₁, hsame₁, hcount₁, howns₁, hturn₁, harena₁⟩
  rw [← harena₁]
  apply returnsIf_bind
  left
  apply (returns_copyText_hash A howns₁ value (p := x.addr)).mono
  intro c s₂ hs₂
  obtain ⟨hother₂, hsame₂, hcount₂, hcopy⟩ := hs₂
  rcases hcopy with ⟨rfl, hrefused, -⟩ | ⟨vp, rfl, hgrants, howns₂, hturn₂⟩
  · right
    refine ⟨hrefused, fun P hP => ?_⟩
    simp only [reduceIte, returns_bind, returns_throw] at hP
    obtain ⟨_, _, _, hfalse⟩ := hP
    exact hfalse
  left
  have hlive : x.addr ∈ s₂.arena.live := howns₂.live (by simp)
  simp only [HashTable.setValue, returns_bind, returns_store,
    HashTable.isLive, hlive, decide_true, true_and, reduceCtorEq, reduceIte,
    returns_pure]
  refine ⟨.replaced hsplit rfl ?_ (hturn₁.trans hturn₂),
    (hgrants 0).mpr trivial⟩
  have hother : OtherNodes s
      (HashTable.withValue x.addr (some ⟨vp, value⟩) s₂) x.addr :=
    (hother₁.trans hother₂).trans (otherNodes_withValue _ s₂)
  have hsame := h.others_same hsplit hother.fields
  apply h.afterNode hsplit hother.slots hother.maxSlots hsame.1
  · exact fun y hy => hsame.2 y (List.mem_append_left C hy)
  · rfl
  · rfl
  · constructor
    · simp [hsame₂.key, hsame₁.key, hnode.key]
    · simp
    · simp [hsame₂.next, hsame₁.next, hnode.next]
  · exact hlinked.behind.frame
      (fun y hy => hsame.2 y (List.mem_append_right B hy))
  · exact fun y hy => hy
  · rw [withValue_count, hcount₂, hcount₁, h.chain_count hsplit]
    simp only [List.length_append, List.length_cons]
    push_cast
    ring
  · rw [hother.nodes]
    exact howns₂.perm
      (blocks_perm s.nodes B C _ { x with value := ⟨vp, value⟩ }).symm

/-- A new node at the head of its chain; a refused request is a fault. -/
theorem HashRep.returnsIf_pushNode {key : CString}
    (h : HashRep ch s chains rest) (hslot : hashSlot ch key = some i)
    (habsent : ∀ y ∈ gather chains, y.text ≠ key) (A : Allocator)
    (value : CString) :
    ReturnsIf (A.Grants 3 s.arena) (pushNode A key value i.val) s
      (fun ret s' => HashStored ch s chains rest key value ret s' ∧
        A.Grants 3 s.arena) := by
  unfold pushNode
  apply returnsIf_bind
  left
  apply (returns_createNode A h.owns key value).mono
  intro p s₁ hs₁
  rcases hs₁ with ⟨rfl, hrefused⟩ | ⟨x, rfl, hgrants, hkey, hvalue, hfresh,
    hnode, hother, hcount, howns, hturn⟩
  · right
    refine ⟨hrefused, fun P hP => ?_⟩
    simp only [returns_bind, HashTable.setNext, returns_store,
      HashTable.isLive, decide_eq_true_eq] at hP
    obtain ⟨_, s₂, _, hlive, -⟩ := hP
    exact s₂.arena.null_notMem hlive
  left
  have hlive : x.addr ∈ s₁.arena.live := howns.live (by simp)
  have hnodes : s₁.nodes ∈ s₁.arena.live := by
    rw [hother.nodes]
    exact howns.live (by simp)
  simp only [headOf, setHead, HashTable.setNext, returns_bind,
    returns_slotOf hnodes, Fallible.returns_get, returns_pure, returns_store,
    HashTable.isLive, hlive, decide_true, true_and]
  rw [returns_slotOf (by exact hnodes)]
  simp only [returns_modify]
  refine ⟨.pushed (i := i) habsent hkey hvalue ?_ hturn, hgrants⟩
  have hne : ∀ j, ∀ y ∈ chains j, y.addr ≠ x.addr := by
    intro j y hy heq
    exact hfresh (heq ▸ h.addr_live hy)
  have hsame : ∀ n f j, ∀ y ∈ chains j, SameFields s (HashTable.withCount n
      (withSlots f (HashTable.withNext x.addr (s₁.slots i) s₁))) y.addr := by
    intro n f j y hy
    have hnext := otherNodes_withNext (p := x.addr) (s₁.slots i) s₁
    have hy' := (hother.trans hnext).fields _ (hne j y hy)
    exact ⟨hy'.key, hy'.value, hy'.next⟩
  apply h.update
  · change Function.update s₁.slots i x.addr = _
    rw [hother.slots]
    rfl
  · exact fun j _ y hy => hsame _ _ j y hy
  · refine ⟨?_, (h.linked i).frame (hsame _ _ i)⟩
    constructor
    · simpa using hnode.key
    · simpa using hnode.value
    · simp [hother.slots, h.heads i]
  · intro y hy
    rcases List.mem_cons.mp hy with rfl | hy
    · rwa [HashNode.text, hkey]
    · exact h.placed i y hy
  · exact hother.maxSlots
  · rw [withCount_count, withSlots_count, withNext_count, hcount, h.count,
      (gather_perm chains i).length_eq]
    simp only [List.length_append, List.length_cons]
    push_cast
    ring
  · have hperm := (gather_perm chains i).flatMap_right HashNode.blocks
    apply howns.perm
    rw [List.perm_iff_count] at hperm ⊢
    intro a
    have ha := hperm a
    simp only [withCount_nodes, withSlots_nodes, withNext_nodes,
      hother.nodes, List.cons_append, List.flatMap_append,
      List.flatMap_cons, HashNode.blocks, List.count_cons, List.count_append,
      List.count_nil] at ha ⊢
    rw [ha]
    ring

theorem HashRep.returns_unlinkHead (h : HashRep ch s chains rest)
    (hsplit : chains i = x :: C) :
    Returns (unlinkHead i.val x.addr) s (fun _ s' =>
      HashRep ch s' (Function.update chains i C) rest ∧
        s.arena.Turnover [] [x.key.addr, x.value.addr, x.addr] s'.arena) := by
  have hlinked := h.linked i
  rw [hsplit] at hlinked
  have hnode := hlinked.1
  have hsplit' : chains i = [] ++ x :: C := hsplit
  have hnext := hnode.next
  simp only [unlinkHead, returns_bind, nextOf, returns_load, hnext,
    Option.some.injEq, exists_eq_left', returns_setHead h.nodesLive]
  have hnode' : NodeAt
      (withSlots (Function.update s.slots i (headAddr C)) s) x (headAddr C) :=
    hnode.frame ⟨rfl, rfl, rfl⟩
  have howns : (withSlots (Function.update s.slots i (headAddr C))
      s).arena.Owns _ rest := h.owns_node hsplit'
  apply (returns_dropNode hnode' howns).mono
  intro _ s₁ hs₁
  rcases hs₁ with ⟨hother, hcount, howns₁, hturn⟩
  refine ⟨?_, hturn⟩
  have hfields : ∀ a, a ≠ x.addr → SameFields s s₁ a := by
    intro a ha
    have := hother.fields a ha
    exact ⟨this.key, this.value, this.next⟩
  have hsame := h.others_same hsplit' hfields
  apply h.update
  · exact hother.slots
  · exact hsame.1
  · exact hlinked.2.frame (fun y hy => hsame.2 y hy)
  · intro y hy
    exact h.placed i y (by simp [hsplit, hy])
  · exact hother.maxSlots
  · rw [hcount, withSlots_count, h.chain_count hsplit', List.nil_append]
    ring
  · rw [hother.nodes]
    exact howns₁

theorem HashRep.returns_unlinkNext {y : HashNode}
    (h : HashRep ch s chains rest) (hsplit : chains i = B ++ y :: x :: C) :
    Returns (unlinkNext y.addr x.addr) s (fun _ s' =>
      HashRep ch s' (Function.update chains i (B ++ y :: C)) rest ∧
        s.arena.Turnover [] [x.key.addr, x.value.addr, x.addr] s'.arena) := by
  have hsplit' : chains i = (B ++ [y]) ++ x :: C := by simp [hsplit]
  have hlinked := h.linked i
  rw [hsplit] at hlinked
  have hynode := hlinked.node
  have hxnode := hlinked.behind.1
  have hnext := hxnode.next
  have hne := h.chain_addr_ne hsplit'
  have hney := h.chain_addr_ne hsplit
  have hyx : y.addr ≠ x.addr := hne y (by simp)
  have hy : y ∈ chains i := by simp [hsplit]
  have hylive := h.addr_live hy
  simp only [unlinkNext, returns_bind, nextOf, returns_load, hnext,
    Option.some.injEq, exists_eq_left', HashTable.setNext, returns_store, HashTable.isLive,
    hylive, decide_true, true_and]
  have hxnode' : NodeAt (HashTable.withNext y.addr (headAddr C) s) x
      (headAddr C) :=
    hxnode.frame ((otherNodes_withNext _ s).fields _ hyx.symm)
  have howns : (HashTable.withNext y.addr (headAddr C) s).arena.Owns _ rest :=
    h.owns_node hsplit'
  apply (returns_dropNode hxnode' howns).mono
  intro _ s₁ hs₁
  rcases hs₁ with ⟨hother, hcount, howns₁, hturn⟩
  refine ⟨?_, hturn⟩
  have hfields : ∀ a, a ≠ y.addr → a ≠ x.addr → SameFields s s₁ a := by
    intro a hay hax
    exact ((otherNodes_withNext _ s).fields a hay).trans (hother.fields a hax)
  have hthere := hother.fields y.addr hyx
  apply h.afterNode hsplit hother.slots hother.maxSlots
  · intro j hj z hz
    have hx : x ∈ chains i := by simp [hsplit]
    exact hfields _ (h.addr_ne hy hz hj) (h.addr_ne hx hz hj)
  · intro z hz
    exact hfields _ (hney z (by simp [hz])) (hne z (by simp [hz]))
  · rfl
  · rfl
  · constructor
    · rw [hthere.key]
      exact hynode.key
    · rw [hthere.value]
      exact hynode.value
    · rw [hthere.next]
      simp
  · apply hlinked.behind.2.frame
    intro z hz
    exact hfields _ (hney z (by simp [hz])) (hne z (by simp [hz]))
  · intro z hz
    exact List.mem_cons_of_mem x hz
  · rw [hcount, withNext_count, h.chain_count hsplit']
    simp only [List.length_append, List.length_cons, List.length_nil]
    push_cast
    ring
  · rw [hother.nodes, withNext_nodes]
    simpa using howns₁

end Node

/-! ## Storing a binding -/

section Store

variable {ch : PlainChar} {s : HashTable} {chains : HashSlot → List HashNode}
  {rest : List Addr} {i : HashSlot} {k : CString}

inductive HashFound (chains : HashSlot → List HashNode) (i : HashSlot)
    (k : CString) : CharPtr → Prop
  | found {B C : List HashNode} {x : HashNode}
      (hsplit : chains i = B ++ x :: C) (hkey : x.text = k) :
      HashFound chains i k (some x.value)
  | absent (habsent : ∀ x ∈ gather chains, x.text ≠ k) :
      HashFound chains i k none

theorem HashRep.returns_get (h : HashRep ch s chains rest)
    (hslot : hashSlot ch k = some i) :
    Returns (getKvHashtable ch (some k)) s (fun p s' =>
      s' = s ∧ HashFound chains i k p) := by
  simp only [getKvHashtable, returns_bind, returns_hash hslot]
  apply h.returns_searchChain i k
  · intro B x C hsplit hkey
    have hlinked := h.linked i
    rw [hsplit] at hlinked
    simp only [HashTable.valuePtrOf, returns_load, hlinked.node.value,
      Option.some.injEq, exists_eq_left', true_and]
    exact .found hsplit hkey
  · intro habsent
    exact ⟨rfl, .absent (h.placed.absent hslot habsent)⟩

theorem HashRep.returns_exist (h : HashRep ch s chains rest)
    (hslot : hashSlot ch k = some i) :
    Returns (kvExist ch (some k)) s (fun ret s' => s' = s ∧
      ((ret = 0 ∧ ∃ B x C, chains i = B ++ x :: C ∧ x.text = k) ∨
        (ret = -1 ∧ ∀ x ∈ gather chains, x.text ≠ k))) := by
  simp only [kvExist, returns_bind]
  apply (h.returns_get hslot).mono
  intro p s₁ hs₁
  obtain ⟨rfl, hfound⟩ := hs₁
  cases hfound with
  | found hsplit hkey =>
      rw [returns_pure]
      exact ⟨rfl, Or.inl ⟨rfl, _, _, _, hsplit, hkey⟩⟩
  | absent habsent =>
      rw [returns_pure]
      exact ⟨rfl, Or.inr ⟨rfl, habsent⟩⟩

/-- The requests that `put_kv_hashtable` makes are granted. -/
def PutGranted (A : Allocator) (s : HashTable)
    (chains : HashSlot → List HashNode) (k : CString) : Prop :=
  (∃ x ∈ gather chains, x.text = k ∧
    A.Grants 1 (s.arena.release x.value.addr)) ∨
  ((∀ x ∈ gather chains, x.text ≠ k) ∧ A.Grants 3 s.arena)

theorem HashRep.returnsIf_update (h : HashRep ch s chains rest)
    (hslot : hashSlot ch k = some i) (A : Allocator) (v : CString) :
    ReturnsIf ((∀ x ∈ gather chains, x.text = k →
          A.Grants 1 (s.arena.release x.value.addr)) ∧
        ((∀ x ∈ gather chains, x.text ≠ k) → A.Grants 3 s.arena))
      (putKvHashtable ch A (some k) (some v)) s (fun ret s' =>
        HashStored ch s chains rest k v ret s' ∧
          PutGranted A s chains k) := by
  unfold putKvHashtable
  apply returnsIf_bind
  left
  rw [returns_hash hslot]
  apply returnsIf_bind
  left
  apply (h.returns_exist hslot).mono
  intro ret s₁ hs₁
  rcases hs₁ with ⟨rfl, ⟨rfl, hstored⟩ | ⟨rfl, habsent⟩⟩
  · rw [if_pos (by decide)]
    apply returnsIf_bind
    unfold modKvHashtable
    apply returnsIf_bind
    left
    rw [returns_hash hslot]
    apply h.returnsIf_searchChain i k
    · intro B x C hsplit hkey
      subst hkey
      have hx : x ∈ gather chains := mem_gather.mpr ⟨i, by simp [hsplit]⟩
      refine ReturnsIf.mono (ReturnsIf.of_imp
        (h.returnsIf_replaceValue hsplit A v)
        (fun hgrants => hgrants.1 x hx rfl)) ?_
      intro ret s' hs'
      obtain ⟨hs', hgrants⟩ := hs'
      have hret : ret = 0 := by cases hs' <;> rfl
      rw [hret, if_pos rfl]
      exact returnsIf_pure ⟨hret ▸ hs', Or.inl ⟨x, hx, rfl, hgrants⟩⟩
    · intro habsent
      obtain ⟨B, x, C, hsplit, hkey⟩ := hstored
      exact absurd hkey (habsent x (by simp [hsplit]))
  · rw [if_neg (by decide)]
    refine ReturnsIf.mono (ReturnsIf.of_imp
      (h.returnsIf_pushNode hslot habsent A v)
      (fun hgrants => hgrants.2 habsent)) ?_
    intro ret s' hs'
    exact ⟨hs'.1, Or.inr ⟨habsent, hs'.2⟩⟩

theorem HashRep.returnsIf_put (h : HashRep ch s chains rest)
    (hslot : hashSlot ch k = some i) (A : Allocator) (v : CString) :
    ReturnsIf A.Succeeds (putKvHashtable ch A (some k) (some v)) s
      (HashStored ch s chains rest k v) := by
  refine ReturnsIf.mono (ReturnsIf.of_imp (h.returnsIf_update hslot A v) ?_)
    (fun _ _ hs' => hs'.1)
  intro hA
  exact ⟨fun _ _ _ => hA.grants 1 _, fun _ => hA.grants 3 _⟩

end Store

/-! ## Deletion -/

def ChainErased (ch : PlainChar) (chains : HashSlot → List HashNode)
    (rest : List Addr) (i : HashSlot) (k : CString) (s : HashTable) (ret : ℤ)
    (s' : HashTable) : Prop :=
  (ret = -1 ∧ s' = s ∧ ∀ x ∈ chains i, x.text ≠ k) ∨
  (ret = 0 ∧ ∃ B x C, chains i = B ++ x :: C ∧ x.text = k ∧
    HashRep ch s' (Function.update chains i (B ++ C)) rest ∧
    s.arena.Turnover [] [x.key.addr, x.value.addr, x.addr] s'.arena)

section Delete

variable {ch : PlainChar} {s : HashTable} {chains : HashSlot → List HashNode}
  {rest : List Addr} {i : HashSlot} {k : CString} {x y : HashNode}
  {B C : List HashNode}

theorem HashRep.returns_deleteStep (h : HashRep ch s chains rest)
    (hsplit : chains i = B ++ y :: C) :
    Returns (deleteStep k y.addr) s (fun r s' => s' = s ∧
      match r with
      | .inl next => ∃ x D, C = x :: D ∧ x.text ≠ k ∧ next = x.addr
      | .inr cur => cur = y.addr ∧
          (C = [] ∨ ∃ x D, C = x :: D ∧ x.text = k)) := by
  have hlinked := h.linked i
  rw [hsplit] at hlinked
  have hnext := hlinked.node.next
  cases C with
  | nil =>
      simp only [deleteStep, returns_bind, nextOf, returns_load, hnext,
        headAddr, Option.some.injEq, exists_eq_left', ne_eq,
        not_true_eq_false, reduceIte, returns_pure]
      exact ⟨trivial, trivial, Or.inl trivial⟩
  | cons x D =>
      have hx : x ∈ chains i := by simp [hsplit]
      have hnode := hlinked.behind.1
      have hiff := strcmp_eq_zero_iff x.text k
      simp only [deleteStep, returns_bind, nextOf, returns_load, hnext,
        headAddr, Option.some.injEq, exists_eq_left', ne_eq,
        h.addr_ne_null hx, not_false_eq_true, reduceIte, hnode.returns_keyOf]
      by_cases hkey : strcmp x.text k = 0
      · simp only [hkey, reduceIte, returns_pure, true_and]
        exact Or.inr ⟨x, D, rfl, hiff.mp hkey⟩
      · simp only [hkey, reduceIte, returns_bind, returns_load, hnext,
          Option.some.injEq, exists_eq_left', returns_pure, true_and]
        exact ⟨x, D, rfl, fun heq => hkey (hiff.mpr heq), rfl⟩

theorem HashRep.returns_deleteBehind (h : HashRep ch s chains rest)
    (hsplit : chains i = x :: C) (hx : x.text ≠ k) :
    Returns (deleteBehind k x.addr) s
      (ChainErased ch chains rest i k s) := by
  simp only [deleteBehind, loopFuel, returns_bind, Fallible.returns_get,
    returns_pure]
  have hfuel := h.chain_length i
  rw [hsplit, List.length_cons] at hfuel
  apply (iterate_returns
    (fun n cur s₁ => s₁ = s ∧ ∃ B y C, chains i = B ++ y :: C ∧
      (∀ z ∈ B ++ [y], z.text ≠ k) ∧ cur = y.addr ∧ C.length ≤ n)
    (Q := fun cur s₁ => s₁ = s ∧ ∃ B y C, chains i = B ++ y :: C ∧
      (∀ z ∈ B ++ [y], z.text ≠ k) ∧ cur = y.addr ∧
        (C = [] ∨ ∃ x D, C = x :: D ∧ x.text = k))
    ?_ (k := C.length)
    ⟨rfl, [], x, C, hsplit, by simpa using hx, rfl, le_refl _⟩
    (by omega)).mono
  · intro cur s₁ hend
    rcases hend with ⟨rfl, B, y, D, hsplit', hbefore, rfl, hD⟩
    have hlinked := h.linked i
    rw [hsplit'] at hlinked
    have hnext := hlinked.node.next
    simp only [nextOf, returns_load, hnext, Option.some.injEq,
      exists_eq_left']
    rcases hD with rfl | ⟨z, E, rfl, hz⟩
    · simp only [headAddr, reduceIte, returns_pure]
      refine Or.inl ⟨rfl, rfl, ?_⟩
      rwa [hsplit']
    · have hzmem : z ∈ chains i := by simp [hsplit']
      simp only [headAddr, h.addr_ne_null hzmem, reduceIte, returns_bind]
      apply (h.returns_unlinkNext hsplit').mono
      intro _ s₂ hs₂
      rw [returns_pure]
      exact Or.inr ⟨rfl, B ++ [y], z, E, by simp [hsplit'], hz,
        by simpa using hs₂.1, hs₂.2⟩
  · intro n cur s₁ hinv
    rcases hinv with ⟨rfl, B, y, D, hsplit', hbefore, rfl, hn⟩
    apply (h.returns_deleteStep hsplit').mono
    intro r s₂ hr
    rcases hr with ⟨rfl, hr⟩
    cases r with
    | inl next =>
        obtain ⟨z, E, rfl, hz, rfl⟩ := hr
        simp only [List.length_cons] at hn
        refine ⟨n - 1, by omega, rfl, B ++ [y], z, E, by simp [hsplit'], ?_,
          rfl, by omega⟩
        intro w hw
        rcases List.mem_append.mp hw with hw | hw
        · exact hbefore w hw
        · rw [List.mem_singleton.mp hw]
          exact hz
    | inr cur =>
        obtain ⟨rfl, hD⟩ := hr
        exact ⟨rfl, B, y, D, hsplit', hbefore, rfl, hD⟩

theorem HashRep.returns_delete (h : HashRep ch s chains rest)
    (hslot : hashSlot ch k = some i) :
    Returns (deleteKvHashtable ch (some k)) s
      (ChainErased ch chains rest i k s) := by
  simp only [deleteKvHashtable, returns_bind, returns_hash hslot,
    h.returns_headOf]
  cases hchain : chains i with
  | nil =>
      simp only [headAddr, reduceIte, returns_pure]
      refine Or.inl ⟨rfl, rfl, ?_⟩
      simp [hchain]
  | cons x C =>
      have hlinked := h.linked i
      rw [hchain] at hlinked
      have hx : x ∈ chains i := by simp [hchain]
      have hiff := strcmp_eq_zero_iff x.text k
      simp only [headAddr, h.addr_ne_null hx, reduceIte, returns_bind,
        hlinked.1.returns_keyOf]
      by_cases hkey : strcmp x.text k = 0
      · simp only [hkey, reduceIte, returns_bind]
        apply (h.returns_unlinkHead hchain).mono
        intro _ s₁ hs₁
        rw [returns_pure]
        exact Or.inr ⟨rfl, [], x, C, hchain, hiff.mp hkey, hs₁⟩
      · simp only [hkey, reduceIte]
        exact h.returns_deleteBehind hchain
          (fun heq => hkey (hiff.mpr heq))

end Delete

/-! ## The state between two calls -/

structure HashHolds (ch : PlainChar) (rest : List Addr) (s : HashTable)
    (m : StringMap) : Prop where
  table : ∃ chains, HashRep ch s chains rest ∧
    Abstracts HashNode.text HashNode.content (gather chains) m

section Lookup

variable {ch : PlainChar} {s : HashTable} {rest : List Addr} {i : HashSlot}
  {k : CString} {m : StringMap}

theorem HashHolds.returns_get (h : HashHolds ch rest s m)
    (hslot : hashSlot ch k = some i) :
    Returns (getKvHashtable ch (some k)) s (fun p s' =>
      s' = s ∧ p.map CharBlock.str = m.lookup k) := by
  obtain ⟨chains, hrep, habs⟩ := h.table
  apply (hrep.returns_get hslot).mono
  intro p s' hs'
  obtain ⟨rfl, hfound⟩ := hs'
  cases hfound with
  | @found B C x hsplit hkey =>
      have hmem : x ∈ gather chains := mem_gather.mpr ⟨i, by simp [hsplit]⟩
      subst hkey
      exact ⟨rfl, (habs.lookup x hmem).symm⟩
  | absent habsent => exact ⟨rfl, (habs.lookup_eq_none habsent).symm⟩

theorem HashHolds.returns_exist (h : HashHolds ch rest s m)
    (hslot : hashSlot ch k = some i) :
    Returns (kvExist ch (some k)) s (fun ret s' =>
      s' = s ∧ ret = if k ∈ m then 0 else -1) := by
  simp only [kvExist, returns_bind]
  apply (h.returns_get hslot).mono
  intro p s' hp
  rcases hp with ⟨rfl, hp⟩
  cases p with
  | none =>
      have hk : k ∉ m := Finmap.lookup_eq_none.mp hp.symm
      simp [hk]
  | some block =>
      have hk : k ∈ m := Finmap.mem_of_lookup_eq_some hp.symm
      simp [hk]

theorem HashHolds.count_eq (h : HashHolds ch rest s m) :
    s.count = m.keys.card := by
  obtain ⟨chains, hrep, habs⟩ := h.table
  rw [hrep.count, habs.card]

end Lookup

/-! ## Calls -/

section Calls

variable {ch : PlainChar} {A : Allocator} {s : HashTable} {rest : List Addr}
  {i : HashSlot} {k : CString} {m : StringMap}

theorem HashHolds.returns_put (h : HashHolds ch rest s m) (hA : A.Succeeds)
    (hslot : hashSlot ch k = some i) (v : CString) :
    Returns (putKvHashtable ch A (some k) (some v)) s (fun ret s' =>
      ret = 0 ∧ HashHolds ch rest s' (m.insert k v)) := by
  obtain ⟨chains, hrep, habs⟩ := h.table
  apply ((hrep.returnsIf_put hslot A v).returns hA).mono
  intro ret s' hstored
  cases hstored with
  | replaced hsplit hkey hrep' _ =>
      subst hkey
      exact ⟨rfl, _, hrep', habs.replace_bucket hsplit rfl rfl⟩
  | pushed habsent hkey hvalue hrep' _ =>
      subst hkey
      exact ⟨rfl, _, hrep', habs.insert_bucket habsent (congrArg some hvalue)⟩

theorem HashHolds.returns_delete (h : HashHolds ch rest s m)
    (hslot : hashSlot ch k = some i) :
    Returns (deleteKvHashtable ch (some k)) s (fun ret s' =>
      if k ∈ m then ret = 0 ∧ HashHolds ch rest s' (m.erase k)
      else ret = -1 ∧ s' = s) := by
  obtain ⟨chains, hrep, habs⟩ := h.table
  apply (hrep.returns_delete hslot).mono
  intro ret s' hs'
  rcases hs' with ⟨rfl, rfl, habsent⟩ |
    ⟨rfl, B, x, C, hsplit, rfl, hrep', -⟩
  · have hk : k ∉ m := habs.notMem (hrep.placed.absent hslot habsent)
    simp [hk]
  · have hx : x ∈ gather chains := mem_gather.mpr ⟨i, by simp [hsplit]⟩
    have hk : x.text ∈ m := habs.mem_of_mem hx
    simp only [hk, reduceIte, true_and]
    exact ⟨_, hrep', habs.erase_bucket hsplit⟩

end Calls

end CAdvanced
