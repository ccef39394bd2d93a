import CAdvanced.EngineInterchange
import CAdvanced.TokenSafety

/-!
# A request touches one binding of one engine

The entries of an engine are the keys it owns with their value pointers.  A
call keeps the entries of all keys but its own, and a call that reads, or that
deletes a key which is not there, leaves the state as it is.  The heap may
refuse any request.
-/

namespace CAdvanced

open Fallible
open KeyValue
open RedBlack
open Server

/-! ## Entries -/

/-- The entries of the other keys are the same, up to order. -/
def SameElsewhere (key : CString) (L L' : List Entry) : Prop :=
  (L.filter (fun x => entryText x ≠ key)).Perm
    (L'.filter (fun x => entryText x ≠ key))

/-- At most the binding of the key differs. -/
structure Rebinds (key : CString) (L L' : List Entry) : Prop where
  elsewhere : SameElsewhere key L L'
  distinct : (L.map entryText).Nodup → (L'.map entryText).Nodup

section Entries

variable {key : CString} {L L' B C : List Entry} {x y : Entry}

theorem rebinds_refl (key : CString) (L : List Entry) : Rebinds key L L where
  elsewhere := List.Perm.refl _
  distinct := id

theorem Rebinds.perm {M M' : List Entry} (h : Rebinds key M M')
    (hL : L.Perm M) (hL' : L'.Perm M') : Rebinds key L L' where
  elsewhere := by
    have hfront := hL.filter (fun x => entryText x ≠ key)
    have hback := hL'.filter (fun x => entryText x ≠ key)
    exact (hfront.trans h.elsewhere).trans hback.symm
  distinct := by
    intro hnodup
    rw [(hL'.map entryText).nodup_iff]
    exact h.distinct (((hL.map entryText).nodup_iff).mp hnodup)

theorem rebinds_replaced (hx : entryText x = key) (hy : entryText y = key) :
    Rebinds key (B ++ x :: C) (B ++ y :: C) where
  elsewhere := by
    unfold SameElsewhere
    simp [List.filter_append, hx, hy]
  distinct := by
    intro hnodup
    simpa [hx, hy] using hnodup

theorem rebinds_inserted (hx : entryText x = key)
    (habsent : ∀ z ∈ B ++ C, entryText z ≠ key) :
    Rebinds key (B ++ C) (B ++ x :: C) where
  elsewhere := by
    unfold SameElsewhere
    simp [List.filter_append, hx]
  distinct := by
    intro hnodup
    rw [List.map_append] at hnodup
    rw [List.map_append, List.map_cons, List.nodup_middle, List.nodup_cons]
    refine ⟨?_, hnodup⟩
    rw [← List.map_append, List.mem_map]
    intro hz
    obtain ⟨z, hz, htext⟩ := hz
    exact habsent z hz (htext.trans hx)

theorem rebinds_removed (hx : entryText x = key) :
    Rebinds key (B ++ x :: C) (B ++ C) where
  elsewhere := by
    unfold SameElsewhere
    simp [List.filter_append, hx]
  distinct := by
    intro hnodup
    rw [List.map_append, List.map_cons, List.nodup_middle,
      List.nodup_cons] at hnodup
    rw [List.map_append]
    exact hnodup.2

end Entries

/-! ## The entries of an engine -/

def Binding.entry (b : Binding) : Entry := (b.key, some b.value)

def HashNode.entry (x : HashNode) : Entry := (x.key, some x.value)

def EngineRep (P : Platform) :
    (e : EngineName) → EngineState e → List Entry → Prop
  | .array => fun t L => ∃ M rest, ArrayRep t M rest ∧ L = M.map Binding.entry
  | .rbtree => fun t L => ∃ T, SearchTree t T ∧ L = bindings T
  | .hash => fun t L => ∃ chains rest, HashRep P.char t chains rest ∧
      L = (gather chains).map HashNode.entry

structure EngineEntries (P : Platform) (e : EngineName) (t : EngineState e)
    (L : List Entry) : Prop where
  rep : EngineRep P e t L
  distinct : (L.map entryText).Nodup

/-- Only `kvstore_hash_set` uses a block that it did not get. -/
def Granted (P : Platform) : EngineName → Call → Prop
  | .hash, .set _ _ => P.hashHeap.Succeeds
  | _, _ => True

/-- What the operations of an engine do to its entries. -/
structure Isolates (P : Platform) (e : EngineName) : Prop where
  set : ∀ t L key value, EngineEntries P e t L → EngineKey P e key →
    ReturnsIf (Granted P e (.set key value)) ((engineOps P e).set key value) t
      (fun _ t' => ∃ L', EngineEntries P e t' L' ∧ Rebinds key L L')
  get : ∀ t L key, EngineEntries P e t L → EngineKey P e key →
    Returns ((engineOps P e).get key) t (fun _ t' => t' = t)
  del : ∀ t L key, EngineEntries P e t L → EngineKey P e key →
    Returns ((engineOps P e).del key) t (fun _ t' =>
      ((∀ x ∈ L, entryText x ≠ key) → t' = t) ∧
        ∃ L', EngineEntries P e t' L' ∧ Rebinds key L L')
  exist : ∀ t L key, EngineEntries P e t L → EngineKey P e key →
    Returns ((engineOps P e).exist key) t (fun _ t' => t' = t)
  count : ∀ t, Returns (engineOps P e).count t (fun _ t' => t' = t)

section Engines

variable {P : Platform}

theorem EngineEntries.rebound {e : EngineName} {t t' : EngineState e}
    {L L' : List Entry} {key : CString} (h : EngineEntries P e t L)
    (hrep : EngineRep P e t' L') (hL : Rebinds key L L') :
    ∃ L', EngineEntries P e t' L' ∧ Rebinds key L L' :=
  ⟨L', ⟨hrep, hL.distinct h.distinct⟩, hL⟩

theorem rebinds_newValue {B C : List Binding} {b : Binding} (v : CharBlock) :
    Rebinds b.text ((B ++ b :: C).map Binding.entry)
      ((B ++ { b with value := v } :: C).map Binding.entry) := by
  rw [List.map_append, List.map_append, List.map_cons, List.map_cons]
  exact rebinds_replaced rfl rfl

theorem rebinds_newBinding {M : List Binding} {b : Binding}
    (habsent : ∀ x ∈ M, x.text ≠ b.text) :
    Rebinds b.text (M.map Binding.entry)
      ((M ++ [b]).map Binding.entry) := by
  have hinsert := @rebinds_inserted b.text (M.map Binding.entry) [] b.entry
    rfl (by
      intro z hz
      rw [List.append_nil, List.mem_map] at hz
      obtain ⟨x, hx, rfl⟩ := hz
      exact habsent x hx)
  rw [List.append_nil] at hinsert
  rw [List.map_append]
  exact hinsert

theorem isolates_array : Isolates P .array where
  set := by
    intro t L key value h _
    obtain ⟨M, rest, hrep, rfl⟩ := h.rep
    left
    apply (hrep.returns_set P.arrayHeap key value).mono
    intro ret t' hstored
    cases hstored with
    | full hfull => exact h.rebound h.rep (rebinds_refl key _)
    | @replaced _ B C b vp hM hkey hrep' _ _ =>
        subst hM hkey
        exact h.rebound ⟨_, _, hrep', rfl⟩ (rebinds_newValue ⟨vp, value⟩)
    | @appended _ kp vp habsent hrep' _ _ =>
        apply h.rebound ⟨_, _, hrep', rfl⟩
        exact rebinds_newBinding (b := ⟨⟨kp, key⟩, ⟨vp, value⟩⟩) habsent
    | refused _ hrep' =>
        exact h.rebound ⟨_, _, hrep', rfl⟩ (rebinds_refl key _)
  get := by
    intro t L key h _
    obtain ⟨M, rest, hrep, rfl⟩ := h.rep
    exact (hrep.returns_get key).mono (fun _ _ hget => hget.1)
  del := by
    intro t L key h _
    obtain ⟨M, rest, hrep, rfl⟩ := h.rep
    apply (hrep.returns_del key).mono
    intro ret t' hdel
    rcases hdel with ⟨-, rfl, -⟩ | ⟨-, B, b, C, rfl, hkey, hrep', -⟩
    · exact ⟨fun _ => rfl, h.rebound h.rep (rebinds_refl key _)⟩
    · constructor
      · intro habsent
        exact absurd hkey (habsent b.entry (by simp))
      · apply h.rebound ⟨_, _, hrep', rfl⟩
        rw [List.map_append, List.map_append, List.map_cons]
        exact rebinds_removed hkey
  exist := by
    intro t L key h _
    obtain ⟨M, rest, hrep, rfl⟩ := h.rep
    exact (hrep.returns_exist key).mono (fun _ _ hexist => hexist.1)
  count := by
    intro t
    change Returns arrayCount t _
    simp only [arrayCount, KvsArray.indexOf, returns_bind, Fallible.returns_get,
      returns_pure]

theorem bindings_distinct {t : Rbtree} {T : Shape Node} (h : SearchTree t T) :
    ((bindings T).map entryText).Nodup := by
  rw [bindings, List.map_map]
  exact (List.pairwise_map.mpr h.sorted).imp (fun hlt => ne_of_lt hlt)

theorem engineEntries_rbtree {t : Rbtree} {T : Shape Node}
    (h : SearchTree t T) : EngineEntries P .rbtree t (bindings T) where
  rep := ⟨T, h, rfl⟩
  distinct := bindings_distinct h

theorem SetOutcome.rebinds {A : Allocator} {t t' : Rbtree} {T : Shape Node}
    {key value : CString} {ret : ℤ}
    (h : SetOutcome A key value t t' T ret) (htree : SearchTree t T) :
    ∃ T', SearchTree t' T' ∧ Rebinds key (bindings T) (bindings T') ∧
      (ret = 0 → ∃ x ∈ T'.inorder, x.text = key ∧
        x.value.map CharBlock.str = some value) := by
  cases h with
  | @inserted _ T' B C p kp vp habsent htree' hold hnew _ _ _ =>
      refine ⟨T', htree', ?_, fun _ =>
        ⟨⟨p, ⟨kp, key⟩, some ⟨vp, value⟩⟩, by simp [hnew], rfl, rfl⟩⟩
      rw [bindings, bindings, hold, hnew, List.map_append, List.map_append,
        List.map_cons]
      refine rebinds_inserted (x := Node.payload _) rfl ?_
      intro z hz
      rw [← List.map_append, ← hold, List.mem_map] at hz
      obtain ⟨x, hx, rfl⟩ := hz
      exact habsent x hx
  | @replaced path c l r x b hkey htree' _ _ _ =>
      refine ⟨_, htree', ?_, fun _ => ⟨{ x with value := some ⟨b, value⟩ }, ?_,
        hkey, rfl⟩⟩
      · rw [bindings_fill, bindings_fill]
        exact rebinds_replaced hkey hkey
      · rw [inorder_fill]
        simp [Shape.inorder]
  | emptied _ hkey htree' _ _ _ =>
      refine ⟨_, htree', ?_, fun hret => absurd hret (by decide)⟩
      rw [bindings_fill, bindings_fill]
      exact rebinds_replaced hkey hkey
  | refused _ _ htree' _ _ _ =>
      exact ⟨T, htree', rebinds_refl key _,
        fun hret => absurd hret (by decide)⟩

theorem isolates_rbtree : Isolates P .rbtree where
  set := by
    intro t L key value h _
    obtain ⟨T, htree, rfl⟩ := h.rep
    left
    apply (htree.returns_set P.rbtreeHeap key value).mono
    intro ret t' hset
    obtain ⟨T', htree', hT', -⟩ := hset.rebinds htree
    exact ⟨bindings T', engineEntries_rbtree htree', hT'⟩
  get := by
    intro t L key h _
    obtain ⟨T, htree, rfl⟩ := h.rep
    exact (htree.returns_get key).mono (fun _ _ hget => hget.1)
  del := by
    intro t L key h _
    obtain ⟨T, htree, rfl⟩ := h.rep
    apply (htree.returns_del key).mono
    intro ret t' hdel
    cases hdel with
    | absent _ heq =>
        subst heq
        exact ⟨fun _ => rfl, h.rebound h.rep (rebinds_refl key _)⟩
    | @removed T' z p B C hkey htree' hold hnew _ _ _ _ =>
        constructor
        · intro habsent
          exact absurd hkey (habsent z.payload (by simp [bindings, hold]))
        · refine ⟨bindings T', engineEntries_rbtree htree', ?_⟩
          rw [bindings, bindings, hold, hnew]
          exact rebinds_removed hkey
  exist := by
    intro t L key h _
    obtain ⟨T, htree, rfl⟩ := h.rep
    exact (htree.returns_exist key).mono (fun _ _ hexist => hexist.1)
  count := by
    intro t
    change Returns rbtreeCount t _
    simp only [rbtreeCount, returns_bind, Fallible.returns_get, returns_pure]

/-- One chain changes at one key. -/
theorem rebinds_chain {chains : HashSlot → List HashNode} {i : HashSlot}
    {chain : List HashNode} {key : CString}
    (h : Rebinds key
      ((chains i ++ gatherOthers chains i).map HashNode.entry)
      ((chain ++ gatherOthers chains i).map HashNode.entry)) :
    Rebinds key ((gather chains).map HashNode.entry)
      ((gather (Function.update chains i chain)).map HashNode.entry) :=
  h.perm ((gather_perm chains i).map HashNode.entry)
    ((gather_update_perm chains i chain).map HashNode.entry)

theorem HashStored.rebinds {ch : PlainChar} {t t' : HashTable}
    {chains : HashSlot → List HashNode} {rest : List Addr}
    {key value : CString} {ret : ℤ}
    (h : HashStored ch t chains rest key value ret t') :
    ∃ chains', HashRep ch t' chains' rest ∧
      Rebinds key ((gather chains).map HashNode.entry)
        ((gather chains').map HashNode.entry) ∧
      ∃ x ∈ gather chains', x.text = key ∧ x.value.str = value := by
  cases h with
  | @replaced _ i B C x vp hsplit hkey hrep _ =>
      refine ⟨_, hrep, rebinds_chain ?_, { x with value := ⟨vp, value⟩ },
        mem_gather.mpr ⟨i, ?_⟩, hkey, rfl⟩
      · rw [hsplit]
        simp only [List.append_assoc, List.cons_append, List.map_append,
          List.map_cons]
        exact rebinds_replaced hkey hkey
      · simp
  | @pushed _ i x habsent hkey hvalue hrep _ =>
      refine ⟨_, hrep, rebinds_chain ?_, x, mem_gather.mpr ⟨i, ?_⟩, hkey,
        hvalue⟩
      · rw [List.cons_append, List.map_cons]
        refine @rebinds_inserted key [] _ x.entry hkey ?_
        intro z hz
        rw [List.nil_append, List.mem_map] at hz
        obtain ⟨y, hy, rfl⟩ := hz
        exact habsent y ((gather_perm chains i).mem_iff.mpr hy)
      · simp

theorem isolates_hash : Isolates P .hash where
  set := by
    intro t L key value h hkey
    obtain ⟨chains, rest, hrep, hL⟩ := h.rep
    obtain ⟨i, hi⟩ := Option.isSome_iff_exists.mp hkey
    apply (hrep.returnsIf_put hi P.hashHeap value).mono
    intro ret t' hstored
    obtain ⟨chains', hrep', hrebinds, -⟩ := hstored.rebinds
    apply h.rebound ⟨chains', rest, hrep', rfl⟩
    rw [hL]
    exact hrebinds
  get := by
    intro t L key h hkey
    obtain ⟨chains, rest, hrep, hL⟩ := h.rep
    obtain ⟨i, hi⟩ := Option.isSome_iff_exists.mp hkey
    exact (hrep.returns_get hi).mono (fun _ _ hget => hget.1)
  del := by
    intro t L key h hkey
    obtain ⟨chains, rest, hrep, hL⟩ := h.rep
    obtain ⟨i, hi⟩ := Option.isSome_iff_exists.mp hkey
    apply (hrep.returns_delete hi).mono
    intro ret t' hdel
    rcases hdel with ⟨-, rfl, -⟩ | ⟨-, B, x, C, hsplit, hkey, hrep', -⟩
    · exact ⟨fun _ => rfl, h.rebound h.rep (rebinds_refl key _)⟩
    · constructor
      · intro habsent
        have hx : x ∈ gather chains := mem_gather.mpr ⟨i, by simp [hsplit]⟩
        rw [hL] at habsent
        exact absurd hkey (habsent x.entry (List.mem_map_of_mem hx))
      · apply h.rebound ⟨_, _, hrep', rfl⟩
        rw [hL]
        apply rebinds_chain
        rw [hsplit]
        simp only [List.append_assoc, List.cons_append, List.map_append,
          List.map_cons]
        exact rebinds_removed hkey
  exist := by
    intro t L key h hkey
    obtain ⟨chains, rest, hrep, hL⟩ := h.rep
    obtain ⟨i, hi⟩ := Option.isSome_iff_exists.mp hkey
    exact (hrep.returns_exist hi).mono (fun _ _ hexist => hexist.1)
  count := by
    intro t
    change Returns countHashtable t _
    simp only [countHashtable, returns_bind, Fallible.returns_get,
      returns_pure]

theorem isolates (P : Platform) (e : EngineName) : Isolates P e := by
  cases e with
  | array => exact isolates_array
  | rbtree => exact isolates_rbtree
  | hash => exact isolates_hash

end Engines

/-! ## Calls -/

/-- A call that reads, or the deletion of a key that is not there. -/
def Harmless (L : List Entry) : Call → Prop
  | .set _ _ => False
  | .del key => ∀ x ∈ L, entryText x ≠ key
  | _ => True

/-- What a call leaves of an engine with the entries `L`. -/
structure CallKeeps (P : Platform) (e : EngineName) (call : Call)
    (L : List Entry) (t t' : EngineState e) : Prop where
  harmless : Harmless L call → t' = t
  others : ∃ L', EngineEntries P e t' L' ∧
    OnKey (fun key => SameElsewhere key L L') call

section Calls

variable {P : Platform} {e : EngineName} {t : EngineState e} {L : List Entry}

theorem callKeeps_refl (h : EngineEntries P e t L) (call : Call) :
    CallKeeps P e call L t t where
  harmless := fun _ => rfl
  others := by
    refine ⟨L, h, ?_⟩
    cases call with
    | count => trivial
    | set key value => exact (rebinds_refl key L).elsewhere
    | get key => exact (rebinds_refl key L).elsewhere
    | del key => exact (rebinds_refl key L).elsewhere
    | exist key => exact (rebinds_refl key L).elsewhere

theorem returnsIf_answerCall (h : EngineEntries P e t L) (call : Call)
    (hkey : OnKey (EngineKey P e) call) :
    ReturnsIf (Granted P e call) (answerCall (engineOps P e) call) t
      (fun _ t' => CallKeeps P e call L t t') := by
  have hops := isolates P e
  have hkept := callKeeps_refl h call
  cases call with
  | set key value =>
      unfold answerCall
      apply returnsIf_bind
      apply (hops.set t L key value h hkey).mono
      intro ret t' hset
      obtain ⟨L', hL', hrebinds⟩ := hset
      have hkeeps : CallKeeps P e (.set key value) L t t' :=
        ⟨False.elim, L', hL', hrebinds.elsewhere⟩
      split_ifs
      · exact returnsIf_pure hkeeps
      · exact returnsIf_pure hkeeps
  | get key =>
      left
      simp only [answerCall, returns_bind]
      apply (hops.exist t L key h hkey).mono
      intro ret t₁ ht₁
      subst ht₁
      split_ifs
      · rw [returns_bind]
        apply (hops.get t₁ L key h hkey).mono
        intro p t₂ ht₂
        subst ht₂
        cases p with
        | none => exact (returns_pure _ _ _).mpr hkept
        | some value => exact (returns_pure _ _ _).mpr hkept
      · exact (returns_pure _ _ _).mpr hkept
  | del key =>
      left
      simp only [answerCall, returns_bind]
      apply (hops.exist t L key h hkey).mono
      intro ret t₁ ht₁
      subst ht₁
      split_ifs
      · rw [returns_bind]
        apply (hops.del t₁ L key h hkey).mono
        intro ret' t₂ hdel
        obtain ⟨habsent, L', hL', hrebinds⟩ := hdel
        have hkeeps : CallKeeps P e (.del key) L t₁ t₂ :=
          ⟨habsent, L', hL', hrebinds.elsewhere⟩
        split_ifs
        · exact (returns_pure _ _ _).mpr hkeeps
        · exact (returns_pure _ _ _).mpr hkeeps
      · exact (returns_pure _ _ _).mpr hkept
  | exist key =>
      left
      simp only [answerCall, returns_bind]
      apply (hops.exist t L key h hkey).mono
      intro ret t₁ ht₁
      subst ht₁
      split_ifs
      · exact (returns_pure _ _ _).mpr hkept
      · exact (returns_pure _ _ _).mpr hkept
  | count =>
      left
      simp only [answerCall, returns_bind]
      apply (hops.count t).mono
      intro ret t₁ ht₁
      subst ht₁
      split_ifs
      · exact (returns_pure _ _ _).mpr hkept
      · exact (returns_pure _ _ _).mpr hkept

end Calls

/-! ## Requests -/

/-- Keys for the hash engine consist of bytes below 128. -/
def PlainHashKey : EngineName → Call → Prop
  | .hash, call => OnKey PlainKey call
  | _, _ => True

structure ShortMessage (text : CString) : Prop where
  short : text.bytes.length < bufferLength
  plain : ∀ e call, parseRequest (words text) = some (e, call) →
    PlainHashKey e call

/-- A message with at most `KVSTORE_MAX_TOKENS` words that carries the words
its command needs. -/
structure FitMessage (text : CString) : Prop extends ShortMessage text where
  count : (words text).length ≤ kvstoreMaxTokens
  carries : CarriesItsWords text

def GrantedMessage (P : Platform) (text : CString) : Prop :=
  ∀ e call, parseRequest (words text) = some (e, call) → Granted P e call

/-- Only the engine that the message names may change, and there only the
binding of the key. -/
def RequestKeeps (P : Platform) (text : CString)
    (entries : EngineName → List Entry) (s s' : Server) : Prop :=
  match parseRequest (words text) with
  | some (e, call) =>
      (∀ e', e' ≠ e → (enginePart e').read s' = (enginePart e').read s) ∧
        CallKeeps P e call (entries e) ((enginePart e).read s)
          ((enginePart e).read s')
  | none => EnginesKept s s'

/-- The states of the server: it is created with empty hash slots, messages
come in on any connection, and requests are answered. -/
inductive EnginesReach (P : Platform) : Server → Prop
  | created {s₀ s : Server}
      (h : (initKvengine P (fun _ => NULL)).run s₀ = .ok (0, s)) :
      EnginesReach P s
  | arrived {s : Server} (item : Connection) (h : EnginesReach P s) :
      EnginesReach P (withItem item s)
  | answered {s s' : Server} {text : CString} {ret : ℤ}
      (h : EnginesReach P s) (htext : textAt s.item.rbuffer 0 = some text)
      (hshort : ShortMessage text)
      (hrun : (kvstoreRequest P).run s = .ok (ret, s')) : EnginesReach P s'

section Requests

variable {P : Platform} {s : Server} {text : CString}

theorem enginePart_read_write_of_ne {e e' : EngineName} (hne : e' ≠ e)
    (t : EngineState e) (s : Server) :
    (enginePart e').read ((enginePart e).write t s)
      = (enginePart e').read s := by
  cases e <;> cases e' <;> first | rfl | exact absurd rfl hne

theorem ShortMessage.onKey (h : ShortMessage text) {e : EngineName}
    {call : Call} (hparse : parseRequest (words text) = some (e, call)) :
    OnKey (EngineKey P e) call := by
  rw [← hashableCall_iff h.short hparse]
  intro c hc
  rw [hparse, Option.mem_some_iff] at hc
  subst hc
  cases e with
  | array => trivial
  | rbtree => trivial
  | hash =>
      have hplain : OnKey PlainKey call := h.plain .hash call hparse
      exact hplain.mono (fun _ hkey => nonnegRemainder_of_plain hkey)

/-- A message of blanks is not parsed. -/
theorem returns_kvstoreRequest_empty {post : List UInt8}
    (hbuf : s.item.rbuffer = text.bytes ++ 0 :: post)
    (hwords : words text = []) :
    Returns (kvstoreRequest P) s (fun _ s' =>
      ∃ buf, s' = withRbuffer buf s) := by
  have hcount : (words text).length ≤ kvstoreMaxTokens := by simp [hwords]
  simp only [kvstoreRequest, returns_bind]
  apply (returns_kvstoreSplitToken hbuf hcount).mono
  intro r s₁ hr
  obtain ⟨buf, rfl, hcnt, -, -⟩ := hr
  obtain ⟨count, tokens⟩ := r
  simp only [hwords, List.length_nil] at hcnt
  subst hcnt
  simp only [kvstoreParserProtocol, reduceIte, returns_pure]
  exact ⟨buf, rfl⟩

/-- Whatever the engines hold, a request keeps what it does not name. -/
theorem returnsIf_kvstoreRequest {entries : EngineName → List Entry}
    (hentries : ∀ e, EngineEntries P e ((enginePart e).read s) (entries e))
    (htext : textAt s.item.rbuffer 0 = some text) (hfit : FitMessage text) :
    ReturnsIf (GrantedMessage P text) (kvstoreRequest P) s
      (fun _ s' => RequestKeeps P text entries s s') := by
  obtain ⟨front, post, hbuf, hfront⟩ := textAt_eq_some htext
  rw [List.eq_nil_of_length_eq_zero hfront, List.nil_append] at hbuf
  unfold RequestKeeps GrantedMessage
  cases hparse : parseRequest (words text) with
  | none =>
      left
      cases hwords : words text with
      | nil =>
          apply (returns_kvstoreRequest_empty hbuf hwords).mono
          intro ret s' hs'
          obtain ⟨buf, rfl⟩ := hs'
          exact ⟨rfl, rfl, rfl⟩
      | cons w ws =>
          have hunknown : commandOf w = none := by
            rw [hwords] at hparse
            apply (hfit.carries.parses hwords).resolve_right
            rw [hparse]
            simp
          obtain ⟨buf, reads, -, hiff⟩ := returns_kvstoreRequest_unknown
            (P := P) hbuf hfit.count hwords hunknown
          rw [hiff]
          exact ⟨rfl, rfl, rfl⟩
  | some c =>
      obtain ⟨e, call⟩ := c
      obtain ⟨buf, reads, -, hiff⟩ :=
        returns_kvstoreRequest (P := P) hbuf hfit.count hparse
      have hanswer := returnsIf_answerCall (hentries e) call
        (hfit.onKey hparse)
      have hgranted : Granted P e call ↔ ∀ e' call',
          some (e, call) = some (e', call') → Granted P e' call' := by
        constructor
        · intro h e' call' heq
          cases heq
          exact h
        · intro h
          exact h e call rfl
      rw [← hgranted]
      apply returnsIf_of_iff hiff
      apply hanswer.mono
      intro reply t hkeeps
      constructor
      · intro e' hne
        rw [enginePart_read_front, enginePart_read_write_of_ne hne]
      · rw [enginePart_read_front, (enginePart e).read_write]
        exact hkeeps

theorem EnginesKept.read {s' : Server} (h : EnginesKept s s')
    (e : EngineName) : (enginePart e).read s' = (enginePart e).read s := by
  cases e with
  | array => exact h.array
  | rbtree => exact h.tree
  | hash => exact h.hash

theorem RequestKeeps.entries {s' : Server}
    {entries : EngineName → List Entry}
    (h : RequestKeeps P text entries s s')
    (hentries : ∀ e, EngineEntries P e ((enginePart e).read s) (entries e))
    (e : EngineName) : ∃ L, EngineEntries P e ((enginePart e).read s') L := by
  unfold RequestKeeps at h
  split at h
  next e' call _ =>
    obtain ⟨hothers, hkeeps⟩ := h
    by_cases he : e = e'
    · subst he
      obtain ⟨L, hL, -⟩ := hkeeps.others
      exact ⟨L, hL⟩
    · rw [hothers e he]
      exact ⟨entries e, hentries e⟩
  next =>
    rw [h.read e]
    exact ⟨entries e, hentries e⟩

theorem engineEntries_array {t : KvsArray} {rest : List Addr}
    (h : ArrayRep t [] rest) : EngineEntries P .array t [] where
  rep := ⟨[], rest, h, rfl⟩
  distinct := List.nodup_nil

theorem engineEntries_hash {t : HashTable} {rest : List Addr}
    (h : HashHolds P.char rest t ∅) : ∃ L, EngineEntries P .hash t L := by
  obtain ⟨chains, hrep, habs⟩ := h.table
  refine ⟨_, ⟨chains, rest, hrep, rfl⟩, ?_⟩
  rw [List.map_map]
  exact habs.nodup

/-- A failing allocator keeps the server from being created. -/
theorem yields_initKvengine (s : Server) :
    Yields (initKvengine P (fun _ => NULL)) s (fun ret s' =>
      ret = 0 → ∀ e, ∃ L, EngineEntries P e ((enginePart e).read s') L) := by
  unfold initKvengine
  apply yields_bind
  apply yields_within
  refine (returns_arrayCreate_or P.arrayHeap _).yields.mono ?_
  intro ret a ha
  rcases ha with ⟨rfl, -⟩ | ⟨rfl, ha⟩
  · rw [if_pos (by decide)]
    exact yields_pure (fun hret => absurd hret (by decide))
  rw [if_neg (by decide)]
  apply yields_bind
  apply yields_within
  refine (yields_rbtreeCreate P.rbtreeHeap _).mono ?_
  intro ret t ht
  obtain ⟨rfl, ht⟩ := ht
  rw [if_neg (by decide)]
  apply yields_bind
  apply yields_within
  refine (returns_createHashtable P.hashHeap _ _).yields.mono ?_
  intro ret h hh
  rcases hh with ⟨rfl, -⟩ | ⟨rfl, -, hslots, hmax, hcount, howns⟩
  · rw [if_pos (by decide)]
    exact yields_pure (fun hret => absurd hret (by decide))
  rw [if_neg (by decide)]
  apply yields_pure
  intro _ e
  cases e with
  | array => exact ⟨[], engineEntries_array ha⟩
  | rbtree => exact ⟨_, engineEntries_rbtree ht.tree⟩
  | hash =>
      exact engineEntries_hash
        (hashHolds_empty (fun i => congrFun hslots i) hmax hcount howns)

theorem EnginesReach.entries (h : EnginesReach P s) (e : EngineName) :
    ∃ L, EngineEntries P e ((enginePart e).read s) L := by
  induction h generalizing e with
  | created hrun => exact yields_initKvengine _ _ _ hrun rfl e
  | arrived item _ ih => cases e <;> exact ih _
  | @answered s s' text ret _ htext hshort hrun ih =>
      choose entries hentries using ih
      obtain ⟨front, post, hbuf, hfront⟩ := textAt_eq_some htext
      rw [List.eq_nil_of_length_eq_zero hfront, List.nil_append] at hbuf
      have hcount : (words text).length ≤ kvstoreMaxTokens := by
        by_contra hmany
        have hnot := not_returns_kvstoreSplitToken hbuf (not_le.mp hmany)
        have hreturns : Returns (kvstoreRequest P) s (fun _ _ => True) :=
          ⟨ret, s', hrun, trivial⟩
        rw [kvstoreRequest, returns_bind] at hreturns
        exact hnot _ hreturns
      have hcarries : CarriesItsWords text := by
        by_contra hlacks
        exact not_returns_kvstoreRequest hbuf hlacks (fun _ _ => True)
          ⟨ret, s', hrun, trivial⟩
      have hkeeps := (returnsIf_kvstoreRequest hentries htext
        ⟨hshort, hcount, hcarries⟩).yields ret s' hrun
      exact hkeeps.entries hentries e

/-- A request changes only the engine that its command names, and there only
the binding of its key; one that reads, that deletes a key which is not there
or whose command is unknown leaves all engines as they are. -/
theorem request_isolated (P : Platform) {s : Server} (h : EnginesReach P s)
    {text : CString} (htext : textAt s.item.rbuffer 0 = some text)
    (hfit : FitMessage text) :
    ∃ entries : EngineName → List Entry,
      (∀ e, EngineEntries P e ((enginePart e).read s) (entries e)) ∧
        ReturnsIf (GrantedMessage P text) (kvstoreRequest P) s
          (fun _ s' => RequestKeeps P text entries s s') := by
  choose entries hentries using h.entries
  exact ⟨entries, hentries, returnsIf_kvstoreRequest hentries htext hfit⟩

end Requests

def sampleHset : CString := requestText .hash (.set firstKey sampleValue)

theorem fitMessage_sampleHset : FitMessage sampleHset := by
  have hwire : WireCall (.set firstKey sampleValue) := wireCall_numberedKey _
  refine ⟨⟨hwire.short .hash, ?_⟩, (hwire.wellFormed .hash).count, by decide⟩
  intro e call hparse
  rw [sampleHset, hwire.parse .hash] at hparse
  cases hparse
  exact hwire.plain

theorem request_isolated_sample :
    ∃ s entries, EnginesReach samplePlatform s ∧
      (∀ e, EngineEntries samplePlatform e ((enginePart e).read s)
        (entries e)) ∧
      ReturnsIf (GrantedMessage samplePlatform sampleHset)
        (kvstoreRequest samplePlatform) s
        (fun _ s' => RequestKeeps samplePlatform sampleHset entries s s') := by
  obtain ⟨ret, s, hrun, rfl, -⟩ :=
    returns_initKvengine samplePlatform_succeeds blankServer
  have hreach := EnginesReach.arrived
    (Connection.fresh.receive sampleHset.bytes) (.created hrun)
  have htext := textAt_append [] sampleHset
    (List.replicate (bufferLength - sampleHset.bytes.length - 1) 0)
  rw [List.nil_append,
    ← receive_fresh fitMessage_sampleHset.toShortMessage.short] at htext
  obtain ⟨entries, hentries, hkeeps⟩ :=
    request_isolated samplePlatform hreach htext fitMessage_sampleHset
  exact ⟨_, entries, hreach, hentries, hkeeps⟩

end CAdvanced
