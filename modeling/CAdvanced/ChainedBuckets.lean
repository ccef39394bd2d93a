import CAdvanced.FiniteMapSpec
import Mathlib.Data.List.FinRange

/-!
# Separate chaining

A finite family of buckets holds the entries of a store, each in the bucket
that its key selects.  All entries together are the buckets one after another;
changing one bucket changes them, up to order, in that bucket only.
-/

namespace KeyValue

variable {n : ℕ} {ν κ β : Type}

def gather (buckets : Fin n → List ν) : List ν :=
  (List.finRange n).flatMap buckets

/-- The entries of all buckets but one. -/
def gatherOthers (buckets : Fin n → List ν) (i : Fin n) : List ν :=
  ((List.finRange n).erase i).flatMap buckets

section Gather

variable {buckets : Fin n → List ν} {i : Fin n} {x : ν}

theorem mem_gather : x ∈ gather buckets ↔ ∃ i, x ∈ buckets i := by
  simp [gather]

theorem mem_gatherOthers :
    x ∈ gatherOthers buckets i ↔ ∃ j, j ≠ i ∧ x ∈ buckets j := by
  simp [gatherOthers, (List.nodup_finRange n).mem_erase_iff]

theorem gather_perm (buckets : Fin n → List ν) (i : Fin n) :
    (gather buckets).Perm (buckets i ++ gatherOthers buckets i) := by
  have hmem : i ∈ List.finRange n := List.mem_finRange i
  exact (List.perm_cons_erase hmem).flatMap_right buckets

theorem gatherOthers_update (buckets : Fin n → List ν) (i : Fin n)
    (bucket : List ν) :
    gatherOthers (Function.update buckets i bucket) i =
      gatherOthers buckets i := by
  unfold gatherOthers
  apply List.flatMap_congr
  intro j hj
  have hne : j ≠ i := by
    intro heq
    rw [heq, (List.nodup_finRange n).mem_erase_iff] at hj
    exact hj.1 rfl
  exact Function.update_of_ne hne bucket buckets

theorem gather_update_perm (buckets : Fin n → List ν) (i : Fin n)
    (bucket : List ν) :
    (gather (Function.update buckets i bucket)).Perm
      (bucket ++ gatherOthers buckets i) := by
  have hperm := gather_perm (Function.update buckets i bucket) i
  rwa [gatherOthers_update, Function.update_self] at hperm

end Gather

/-- Every entry lies in the bucket that its key selects. -/
def Placed (slot : κ → Option (Fin n)) (key : ν → κ)
    (buckets : Fin n → List ν) : Prop :=
  ∀ i, ∀ x ∈ buckets i, slot (key x) = some i

section Placed

variable {slot : κ → Option (Fin n)} {key : ν → κ} {val : ν → Option β}
  {buckets : Fin n → List ν} {i : Fin n} {k : κ}

theorem placed_nil : Placed slot key (fun _ : Fin n => []) := by
  intro i x hx
  cases hx

theorem Placed.update (h : Placed slot key buckets) {bucket : List ν}
    (hbucket : ∀ x ∈ bucket, slot (key x) = some i) :
    Placed slot key (Function.update buckets i bucket) := by
  intro j x hx
  by_cases hj : j = i
  · subst hj
    rw [Function.update_self] at hx
    exact hbucket x hx
  · rw [Function.update_of_ne hj] at hx
    exact h j x hx

theorem Placed.absent (h : Placed slot key buckets)
    (hslot : slot k = some i) (habsent : ∀ x ∈ buckets i, key x ≠ k) :
    ∀ x ∈ gather buckets, key x ≠ k := by
  intro x hx heq
  obtain ⟨j, hj⟩ := mem_gather.mp hx
  have hplace := h j x hj
  rw [heq, hslot, Option.some.injEq] at hplace
  subst hplace
  exact habsent x hj heq

variable [DecidableEq κ] {m : Dict κ β} {A B : List ν} {x : ν} {b : β}

theorem Abstracts.insert_bucket
    (h : Abstracts key val (gather buckets) m)
    (habsent : ∀ y ∈ gather buckets, key y ≠ key x) (hval : val x = some b) :
    Abstracts key val
      (gather (Function.update buckets i (x :: buckets i)))
      (m.insert (key x) b) := by
  apply (h.insert habsent hval).perm
  exact ((gather_perm buckets i).cons x).trans
    (gather_update_perm buckets i (x :: buckets i)).symm

theorem Abstracts.replace_bucket {x' : ν}
    (h : Abstracts key val (gather buckets) m)
    (hbucket : buckets i = A ++ x :: B) (hkey : key x' = key x)
    (hval : val x' = some b) :
    Abstracts key val
      (gather (Function.update buckets i (A ++ x' :: B)))
      (m.insert (key x) b) := by
  have hperm := gather_perm buckets i
  rw [hbucket, List.append_assoc, List.cons_append] at hperm
  apply ((h.perm hperm).replace hkey hval).perm
  have hupdate := gather_update_perm buckets i (A ++ x' :: B)
  rw [List.append_assoc, List.cons_append] at hupdate
  exact hupdate.symm

theorem Abstracts.erase_bucket
    (h : Abstracts key val (gather buckets) m)
    (hbucket : buckets i = A ++ x :: B) :
    Abstracts key val (gather (Function.update buckets i (A ++ B)))
      (m.erase (key x)) := by
  have hperm := gather_perm buckets i
  rw [hbucket, List.append_assoc, List.cons_append] at hperm
  apply (h.perm hperm).erase.perm
  have hupdate := gather_update_perm buckets i (A ++ B)
  rw [List.append_assoc] at hupdate
  exact hupdate.symm

end Placed

end KeyValue
