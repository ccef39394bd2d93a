import Mathlib.Tactic

/-!
# Chains of links

A chain starts in a link, a memory cell that points at a node, and every node
holds the link to the next one.  The last link holds the null value; a node is
appended by a write to it, wherever it is.
-/

namespace LinkChain

variable {ℓ ν : Type}

/-- The nodes of the chain that starts in the link. -/
def Chained (cell : ℓ → ν) (out : ν → ℓ) (null : ν) : ℓ → List ν → Prop
  | l, [] => cell l = null
  | l, x :: rest => cell l = x ∧ x ≠ null ∧ Chained cell out null (out x) rest

def lastLink (out : ν → ℓ) : ℓ → List ν → ℓ
  | l, [] => l
  | _, x :: rest => lastLink out (out x) rest

variable {cell cell' : ℓ → ν} {out : ν → ℓ} {null x : ν} {l : ℓ}
  {nodes : List ν}

theorem lastLink_append (out : ν → ℓ) (l : ℓ) (nodes : List ν) (x : ν) :
    lastLink out l (nodes ++ [x]) = out x := by
  induction nodes generalizing l with
  | nil => rfl
  | cons y rest ih => exact ih (out y)

theorem lastLink_mem (out : ν → ℓ) (l : ℓ) (nodes : List ν) :
    lastLink out l nodes ∈ l :: nodes.map out := by
  induction nodes generalizing l with
  | nil => exact List.mem_singleton.mpr rfl
  | cons y rest ih => exact List.mem_cons_of_mem l (ih (out y))

theorem Chained.congr (h : Chained cell out null l nodes)
    (hcell : ∀ k ∈ l :: nodes.map out, cell' k = cell k) :
    Chained cell' out null l nodes := by
  induction nodes generalizing l with
  | nil =>
      unfold Chained
      rw [hcell l List.mem_cons_self]
      exact h
  | cons y rest ih =>
      have hfirst := hcell l List.mem_cons_self
      refine ⟨hfirst.trans h.1, h.2.1, ih h.2.2 ?_⟩
      intro k hk
      exact hcell k (List.mem_cons_of_mem l hk)

variable [DecidableEq ℓ]

/-- A write to the last link appends a node whose own link is null. -/
theorem Chained.append (h : Chained cell out null l nodes) (hx : x ≠ null)
    (hnodup : (l :: (nodes ++ [x]).map out).Nodup)
    (hend : cell (out x) = null) :
    Chained (Function.update cell (lastLink out l nodes) x) out null l
      (nodes ++ [x]) := by
  induction nodes generalizing l with
  | nil =>
      have hne : out x ≠ l := by
        intro heq
        simp [heq] at hnodup
      refine ⟨?_, hx, ?_⟩
      · exact Function.update_self l x cell
      · unfold Chained lastLink
        rw [Function.update_of_ne hne]
        exact hend
  | cons y rest ih =>
      have htail := (List.nodup_cons.mp hnodup).2
      have hlast : lastLink out (out y) rest ≠ l := by
        intro heq
        apply (List.nodup_cons.mp hnodup).1
        rw [← heq, List.map_append]
        exact List.mem_append_left _ (lastLink_mem out (out y) rest)
      refine ⟨?_, h.2.1, ih h.2.2 htail⟩
      rw [lastLink, Function.update_of_ne hlast.symm]
      exact h.1

/-- The first link takes over what the first node points at. -/
theorem Chained.skip (h : Chained cell out null l (x :: nodes))
    (hl : l ∉ nodes.map out) :
    Chained (Function.update cell l (cell (out x))) out null l nodes := by
  cases nodes with
  | nil =>
      unfold Chained
      rw [Function.update_self]
      exact h.2.2
  | cons y rest =>
      obtain ⟨-, -, hnext, hy, hrest⟩ := h
      refine ⟨?_, hy, hrest.congr ?_⟩
      · rw [Function.update_self]
        exact hnext
      · intro k hk
        have hne : k ≠ l := by
          intro heq
          subst heq
          exact hl hk
        exact Function.update_of_ne hne _ cell

end LinkChain
