import CAdvanced.StaleSlots
import CAdvanced.HashRefinement

/-!
# The blocks of the array and of the hash engine

Both engines own one block for the table and a fixed number for each entry.  A
call brings in the blocks of what it stores and releases those of what it
replaces or unlinks; the release of a block that is not live would be a fault.
-/

namespace CAdvanced

open Fallible
open KeyValue

/-- The owned blocks are live and pairwise distinct, and together with the
foreign ones they are all live blocks. -/
structure OwnsOnce (r : Arena) (blocks rest : List Addr) (number : ℤ) :
    Prop where
  distinct : blocks.Nodup
  live : ∀ a ∈ blocks, a ∈ r.live
  partition : r.live.Perm (blocks ++ rest)
  number : (blocks.length : ℤ) = number

theorem Arena.Owns.once {r : Arena} {blocks rest : List Addr} {n : ℤ}
    (h : r.Owns blocks rest) (hn : (blocks.length : ℤ) = n) :
    OwnsOnce r blocks rest n where
  distinct := h.nodup
  live := fun _ ha => h.live ha
  partition := h
  number := hn

/-! ## The array -/

def arrayBlocks (s : KvsArray) (L : List Binding) : List Addr :=
  s.arrayTable :: L.flatMap Binding.blocks

structure ArrayOwns (s : KvsArray) (L : List Binding) (rest : List Addr) :
    Prop where
  index : s.arrayIndex = L.length
  occupied : L.map Binding.item <+: s.slots
  size : s.slots.length = kvsArraySize
  once : OwnsOnce s.arena (arrayBlocks s L) rest (1 + 2 * s.arrayIndex)

theorem arrayBlocks_length (s : KvsArray) (L : List Binding) :
    (arrayBlocks s L).length = 1 + 2 * L.length := by
  unfold arrayBlocks
  induction L with
  | nil => rfl
  | cons b L ih =>
      simp only [List.flatMap_cons, Binding.blocks, List.length_cons,
        List.length_append, List.length_nil] at ih ⊢
      omega

theorem arrayOwns_iff {s : KvsArray} {L : List Binding} {rest : List Addr} :
    ArrayOwns s L rest ↔ ArrayRep s L rest := by
  constructor
  · intro h
    exact ⟨h.size, h.index, h.occupied, h.once.partition⟩
  · intro h
    refine ⟨h.index, h.occupied, h.length, Arena.Owns.once h.owns ?_⟩
    have hlength := arrayBlocks_length s L
    rw [h.index]
    exact_mod_cast hlength

/-- What a call does to the entries, the blocks it asks for and those it
releases. -/
inductive ArrayMoves (L : List Binding) :
    Call → List Binding → List Addr → List Addr → Prop
  | get (key : CString) : ArrayMoves L (.get key) L [] []
  | exist (key : CString) : ArrayMoves L (.exist key) L [] []
  | count : ArrayMoves L .count L [] []
  | full {key value : CString} (hfull : L.length = kvsArraySize) :
      ArrayMoves L (.set key value) L [] []
  | absent {key : CString} (habsent : ∀ b ∈ L, b.text ≠ key) :
      ArrayMoves L (.del key) L [] []
  | replaced {value : CString} {B C : List Binding} {b : Binding} {vp : Addr}
      (hL : L = B ++ b :: C) :
      ArrayMoves L (.set b.text value)
        (B ++ { b with value := ⟨vp, value⟩ } :: C) [vp] [b.value.addr]
  | appended {key value : CString} {kp vp : Addr}
      (habsent : ∀ b ∈ L, b.text ≠ key) :
      ArrayMoves L (.set key value) (L ++ [⟨⟨kp, key⟩, ⟨vp, value⟩⟩])
        [vp, kp] []
  | removed {B C : List Binding} {b : Binding} (hL : L = B ++ b :: C) :
      ArrayMoves L (.del b.text) (B ++ C) [] b.blocks

section Array

variable {A : Allocator} {s : KvsArray} {L : List Binding}
  {rest : List Addr}

theorem ArrayRep.returns_call (hA : A.Succeeds) (h : ArrayRep s L rest)
    (call : Call) :
    Returns (arrayCall A call) s (fun _ s' => ∃ L' granted released,
      ArrayMoves L call L' granted released ∧ ArrayRep s' L' rest ∧
        s.arena.Turnover granted released s'.arena) := by
  have hsame := Arena.turnover_refl s.arena
  cases call with
  | set key value =>
      simp only [arrayCall, returns_bind, returns_pure]
      apply (h.returns_set A key value).mono
      intro ret s' hstored
      cases hstored with
      | full hfull => exact ⟨L, [], [], .full hfull, h, hsame⟩
      | replaced hL hkey hrep hturn _ =>
          subst hkey
          exact ⟨_, _, _, .replaced hL, hrep, hturn⟩
      | appended habsent hrep hturn _ =>
          exact ⟨_, _, _, .appended habsent, hrep, hturn⟩
      | refused hnot _ => exact absurd hA hnot
  | get key =>
      simp only [arrayCall, returns_bind, returns_pure]
      apply (h.returns_get key).mono
      intro p s₁ hs₁
      obtain ⟨rfl, -⟩ := hs₁
      exact ⟨L, [], [], .get key, h, hsame⟩
  | del key =>
      simp only [arrayCall, returns_bind, returns_pure]
      apply (h.returns_del key).mono
      intro ret s' hdel
      rcases hdel with ⟨-, rfl, habsent⟩ |
        ⟨-, B, b, C, hL, rfl, hrep, hturn⟩
      · exact ⟨L, [], [], .absent habsent, h, hsame⟩
      · exact ⟨_, _, _, .removed hL, hrep, hturn⟩
  | exist key =>
      simp only [arrayCall, returns_bind, returns_pure]
      apply (h.returns_exist key).mono
      intro i s₁ hs₁
      obtain ⟨rfl, -⟩ := hs₁
      exact ⟨L, [], [], .exist key, h, hsame⟩
  | count =>
      simp only [arrayCall, arrayCount, KvsArray.indexOf, returns_bind,
        Fallible.returns_get, returns_pure]
      exact ⟨L, [], [], .count, h, hsame⟩

end Array

/-! ## The hash table -/

def hashBlocks (s : HashTable) (chains : HashSlot → List HashNode) :
    List Addr :=
  s.nodes :: (gather chains).flatMap HashNode.blocks

structure HashOwns (ch : PlainChar) (s : HashTable)
    (chains : HashSlot → List HashNode) (rest : List Addr) : Prop where
  rep : HashRep ch s chains rest
  once : OwnsOnce s.arena (hashBlocks s chains) rest (1 + 3 * s.count)

theorem hashBlocks_length (s : HashTable)
    (chains : HashSlot → List HashNode) :
    (hashBlocks s chains).length = 1 + 3 * (gather chains).length := by
  unfold hashBlocks
  generalize gather chains = nodes
  induction nodes with
  | nil => rfl
  | cons x nodes ih =>
      simp only [List.flatMap_cons, HashNode.blocks, List.length_cons,
        List.length_append, List.length_nil] at ih ⊢
      omega

theorem HashRep.hashOwns {ch : PlainChar} {s : HashTable}
    {chains : HashSlot → List HashNode} {rest : List Addr}
    (h : HashRep ch s chains rest) : HashOwns ch s chains rest := by
  refine ⟨h, Arena.Owns.once h.owns ?_⟩
  have hlength := hashBlocks_length s chains
  rw [h.count]
  exact_mod_cast hlength

/-- What a call does to the chains, the blocks it asks for and those it
releases. -/
inductive HashMoves (chains : HashSlot → List HashNode) :
    Call → (HashSlot → List HashNode) → List Addr → List Addr → Prop
  | get (key : CString) : HashMoves chains (.get key) chains [] []
  | exist (key : CString) : HashMoves chains (.exist key) chains [] []
  | count : HashMoves chains .count chains [] []
  | absent {key : CString} (habsent : ∀ x ∈ gather chains, x.text ≠ key) :
      HashMoves chains (.del key) chains [] []
  | replaced {value : CString} {i : HashSlot} {B C : List HashNode}
      {x : HashNode} {vp : Addr} (hsplit : chains i = B ++ x :: C) :
      HashMoves chains (.set x.text value)
        (Function.update chains i (B ++ { x with value := ⟨vp, value⟩ } :: C))
        [vp] [x.value.addr]
  | pushed {i : HashSlot} {x : HashNode}
      (habsent : ∀ y ∈ gather chains, y.text ≠ x.text) :
      HashMoves chains (.set x.text x.value.str)
        (Function.update chains i (x :: chains i))
        [x.value.addr, x.key.addr, x.addr] []
  | removed {i : HashSlot} {B C : List HashNode} {x : HashNode}
      (hsplit : chains i = B ++ x :: C) :
      HashMoves chains (.del x.text) (Function.update chains i (B ++ C))
        [] [x.key.addr, x.value.addr, x.addr]

section Hash

variable {ch : PlainChar} {A : Allocator} {s : HashTable}
  {chains : HashSlot → List HashNode} {rest : List Addr}

theorem HashRep.returns_call (hA : A.Succeeds)
    (h : HashRep ch s chains rest) (call : Call)
    (hcall : OnKey (HasSlot ch) call) :
    Returns (hashCall ch A call) s (fun _ s' => ∃ chains' granted released,
      HashMoves chains call chains' granted released ∧
        HashRep ch s' chains' rest ∧
          s.arena.Turnover granted released s'.arena) := by
  have hsame := Arena.turnover_refl s.arena
  cases call with
  | set key value =>
      obtain ⟨i, hi⟩ := Option.isSome_iff_exists.mp hcall
      simp only [hashCall, returns_bind, returns_pure]
      apply ((h.returnsIf_put hi A value).returns hA).mono
      intro ret s' hstored
      cases hstored with
      | replaced hsplit hkey hrep hturn =>
          subst hkey
          exact ⟨_, _, _, .replaced hsplit, hrep, hturn⟩
      | pushed habsent hkey hvalue hrep hturn =>
          subst hkey hvalue
          exact ⟨_, _, _, .pushed habsent, hrep, hturn⟩
  | get key =>
      obtain ⟨i, hi⟩ := Option.isSome_iff_exists.mp hcall
      simp only [hashCall, returns_bind, returns_pure]
      apply (h.returns_get hi).mono
      intro p s' hs'
      obtain ⟨rfl, -⟩ := hs'
      exact ⟨chains, [], [], .get key, h, hsame⟩
  | del key =>
      obtain ⟨i, hi⟩ := Option.isSome_iff_exists.mp hcall
      simp only [hashCall, returns_bind, returns_pure]
      apply (h.returns_delete hi).mono
      intro ret s' hdel
      rcases hdel with ⟨-, rfl, habsent⟩ |
        ⟨-, B, x, C, hsplit, rfl, hrep, hturn⟩
      · exact ⟨chains, [], [], .absent (h.placed.absent hi habsent), h, hsame⟩
      · exact ⟨_, _, _, .removed hsplit, hrep, hturn⟩
  | exist key =>
      obtain ⟨i, hi⟩ := Option.isSome_iff_exists.mp hcall
      simp only [hashCall, returns_bind, returns_pure]
      apply (h.returns_exist hi).mono
      intro ret s' hs'
      obtain ⟨rfl, -⟩ := hs'
      exact ⟨chains, [], [], .exist key, h, hsame⟩
  | count =>
      simp only [hashCall, countHashtable, returns_bind,
        Fallible.returns_get, returns_pure]
      exact ⟨chains, [], [], .count, h, hsame⟩

end Hash

/-! ## Runs -/

/-- After every run the blocks of the entries are live, pairwise distinct and
as many as the entries call for.  A call releases exactly what it replaces or
unlinks, and no call sees a stale slot of the array. -/
theorem engines_ownOnce (ch : PlainChar) (A : Allocator) (hA : A.Succeeds) :
    (∀ s calls, Returns (arrayRun A calls) s (fun _ s' =>
      ∃ L, ArrayOwns s' L s.arena.live)) ∧
    (∀ s L rest call, ArrayOwns s L rest →
      Returns (arrayCall A call) s (fun _ s' => ∃ L' granted released,
        ArrayMoves L call L' granted released ∧ ArrayOwns s' L' rest ∧
          s.arena.Turnover granted released s'.arena)) ∧
    (∀ s t calls, SameButStale s t →
      SameOutcome SameButStale ((runAll (arrayCall A) calls).run s)
        ((runAll (arrayCall A) calls).run t)) ∧
    (∀ s calls, (∀ call ∈ calls, OnKey SummableKey call) →
      Returns (hashRun ch A (fun _ => NULL) calls) s (fun _ s' =>
        ∃ chains, HashOwns ch s' chains s.arena.live)) ∧
    (∀ s chains rest call, HashOwns ch s chains rest →
      OnKey SummableKey call →
      Returns (hashCall ch A call) s (fun _ s' => ∃ chains' granted released,
        HashMoves chains call chains' granted released ∧
          HashOwns ch s' chains' rest ∧
            s.arena.Turnover granted released s'.arena)) := by
  refine ⟨?_, ?_, ?_, ?_, ?_⟩
  · intro s calls
    apply (returns_arrayRun hA s calls).mono
    intro replies s' hs'
    obtain ⟨L, hrep, -⟩ := hs'.2.table
    exact ⟨L, arrayOwns_iff.mpr hrep⟩
  · intro s L rest call howns
    apply ((arrayOwns_iff.mp howns).returns_call hA call).mono
    intro reply s' hs'
    obtain ⟨L', granted, released, hmoves, hrep, hturn⟩ := hs'
    exact ⟨L', granted, released, hmoves, arrayOwns_iff.mpr hrep, hturn⟩
  · intro s t calls hsame
    exact hsame.calls A calls
  · intro s calls hcalls
    apply (returns_hashRun hA s ?_).mono
    · intro replies s' hs'
      obtain ⟨chains, hrep, -⟩ := hs'.2.table
      exact ⟨chains, hrep.hashOwns⟩
    · intro call hcall
      exact (hcalls call hcall).mono (fun _ hkey => hkey.hasSlot ch)
  · intro s chains rest call howns hcall
    apply (howns.rep.returns_call hA call
      (hcall.mono (fun _ hkey => hkey.hasSlot ch))).mono
    intro reply s' hs'
    obtain ⟨chains', granted, released, hmoves, hrep, hturn⟩ := hs'
    exact ⟨chains', granted, released, hmoves, hrep.hashOwns, hturn⟩

theorem engines_ownOnce_sample :
    Returns (arrayRun .above sampleCalls) blankArray (fun _ s' =>
        ∃ L, ArrayOwns s' L blankArray.arena.live) ∧
      Returns (hashRun .signed .above (fun _ => NULL) sampleCalls) blankHash
        (fun _ s' => ∃ chains,
          HashOwns .signed s' chains blankHash.arena.live) := by
  have howns := engines_ownOnce .signed .above Allocator.above_succeeds
  constructor
  · exact howns.1 blankArray sampleCalls
  · exact howns.2.2.2.1 blankHash sampleCalls (by decide)

/-- A plain key whose sum leaves `int` ends the run of the hash engine. -/
theorem engines_ownOnce_overflow :
    PlainKey (longKey 16909321) ∧
      ¬ Returns (hashRun .signed .above (fun _ => NULL)
        [.set (longKey 16909321) ⟨[49], by decide⟩]) blankHash
        (fun _ s' => ∃ chains,
          HashOwns .signed s' chains blankHash.arena.live) :=
  ⟨plainKey_longKey _, not_returns_hashRun_longKey _⟩

end CAdvanced
