import CAdvanced.CString
import CAdvanced.FiniteMapSpec

/-!
# Calls of a storage engine

The three engines offer the same five calls on strings.  Tree and hash table
keep an owned key and a value pointer for each binding.
-/

namespace CAdvanced

open Fallible
open KeyValue

abbrev Call := Request CString CString

/-- The strings that a store binds to strings. -/
abbrev StringMap := Dict CString CString

abbrev Entry := CharBlock × CharPtr

def entryText (e : Entry) : CString := e.1.str

def entryValue (e : Entry) : Option CString := e.2.map CharBlock.str

/-- The states of the runs of an engine.  The heap may grant and refuse
requests as it likes, at every call anew. -/
inductive CallsReach {σ : Type} (create : Allocator → Exec σ ℤ)
    (call : Allocator → Call → Exec σ (Reply CString)) : σ → Prop
  | created {A : Allocator} {s s' : σ}
      (hrun : (create A).run s = .ok (0, s')) : CallsReach create call s'
  | called {A : Allocator} {c : Call} {reply : Reply CString} {s s' : σ}
      (h : CallsReach create call s)
      (hrun : (call A c).run s = .ok (reply, s')) : CallsReach create call s'

theorem CallsReach.invariant {σ : Type} {create : Allocator → Exec σ ℤ}
    {call : Allocator → Call → Exec σ (Reply CString)} {s : σ}
    (h : CallsReach create call s) {Inv : σ → Prop}
    (hcreate : ∀ A s, Yields (create A) s (fun ret s' => ret = 0 → Inv s'))
    (hcall : ∀ A c s, Inv s → Yields (call A c) s (fun _ s' => Inv s')) :
    Inv s := by
  induction h with
  | created hrun => exact hcreate _ _ _ _ hrun rfl
  | called _ hrun ih => exact hcall _ _ _ ih _ _ hrun

/-- Three keys go in, and the middle one goes out again. -/
def sampleCalls : List Call :=
  [.set ⟨[109], by decide⟩ ⟨[49], by decide⟩,
    .set ⟨[107], by decide⟩ ⟨[50], by decide⟩,
    .set ⟨[112], by decide⟩ ⟨[51], by decide⟩,
    .del ⟨[109], by decide⟩,
    .get ⟨[112], by decide⟩,
    .count]

/-- Two keys go in, and a third is deleted in vain. -/
def freshCalls : List Call :=
  [.set ⟨[109], by decide⟩ ⟨[49], by decide⟩,
    .set ⟨[107], by decide⟩ ⟨[50], by decide⟩, .del ⟨[112], by decide⟩]

/-- One key goes in and out again. -/
def emptiedCalls : List Call :=
  [.set ⟨[109], by decide⟩ ⟨[49], by decide⟩, .del ⟨[109], by decide⟩]

end CAdvanced
