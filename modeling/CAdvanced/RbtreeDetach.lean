import CAdvanced.RbtreeAttach
import CAdvanced.RbtreeDeletion

/-!
# Deleting a node

`rbtree_delete` splices a node with at most one child out of the tree.  When
the given node has two children that is its successor, whose key and value
then move to the given node.
-/

namespace CAdvanced

open Fallible
open RedBlack
open Rbtree

def Node.payload (x : Node) : CharBlock × CharPtr := (x.key, x.value)

/-- The state after the only child `x` took its parent's place below the
path. -/
def spliced (path : Path Node) (x : Addr) (s : Rbtree) : Rbtree :=
  hang path x (withParent x (holder s.nil path) s)

/-- The state after two nodes exchanged key and value. -/
def swapped (z y : Node) (s : Rbtree) : Rbtree :=
  withValue y.addr z.value
    (withValue z.addr y.value
      (withKey y.addr (some z.key) (withKey z.addr (some y.key) s)))

@[simp] theorem spliced_nil (path : Path Node) (x : Addr) (s : Rbtree) :
    (spliced path x s).nil = s.nil := by
  simp [spliced]

@[simp] theorem swapped_nil (z y : Node) (s : Rbtree) :
    (swapped z y s).nil = s.nil := by
  simp only [swapped, withValue_nil, withKey_nil]

@[simp] theorem swapped_root (z y : Node) (s : Rbtree) :
    (swapped z y s).root = s.root := by
  simp only [swapped, withValue_root, withKey_root]

@[simp] theorem swapped_arena (z y : Node) (s : Rbtree) :
    (swapped z y s).arena = s.arena := by
  simp only [swapped, withValue_arena, withKey_arena]

@[simp] theorem swapped_color (z y : Node) (s : Rbtree) (a : Addr) :
    (swapped z y s).color a = s.color a := by
  simp only [swapped, withValue_color, withKey_color]

@[simp] theorem swapped_child (z y : Node) (s : Rbtree) (d : Dir)
    (a : Addr) : (swapped z y s).child d a = s.child d a := by
  simp only [swapped, withValue_child, withKey_child]

@[simp] theorem swapped_parent (z y : Node) (s : Rbtree) (a : Addr) :
    (swapped z y s).parent a = s.parent a := by
  simp only [swapped, withValue_parent, withKey_parent]

def Node.taking (z y : Node) : Node := { y with addr := z.addr }

section Splice

variable {s : Rbtree} {path : Path Node} {c : Color} {l r t : Shape Node}
  {y : Node}

theorem Repr.returns_onlyChild (h : Repr s (fill path (.node c l y r)))
    (ht : l = .leaf ∧ t = r ∨ r = .leaf ∧ t = l)
    (Q : Addr → Rbtree → Prop) :
    Returns (onlyChild y.addr) s Q ↔ Q (ptr s.nil t) s := by
  have hcell := h.focusRep.1
  have hleft := hcell.near
  have hright := hcell.far
  simp only [Dir.flip] at hright
  have hl : Repr s (fill (⟨.left, c, y, r⟩ :: path) l) := h
  have hr : Repr s (fill (⟨.right, c, y, l⟩ :: path) r) := h
  have hptrLeft : l ≠ .leaf → ptr s.nil l ≠ s.nil :=
    fun hne => hl.focus_ne_nil _ (ptr_mem_addrs hne)
  have hptrRight : r ≠ .leaf → ptr s.nil r ≠ s.nil :=
    fun hne => hr.focus_ne_nil _ (ptr_mem_addrs hne)
  rcases ht with ⟨rfl, rfl⟩ | ⟨rfl, rfl⟩
  · by_cases hleaf : t = .leaf
    · subst hleaf
      simp [onlyChild, childOf, nilOf, hleft, hright]
    · simp [onlyChild, childOf, nilOf, hleft, hright, hptrRight hleaf]
  · by_cases hleaf : t = .leaf
    · subst hleaf
      simp [onlyChild, childOf, nilOf, hleft, hright]
    · simp [onlyChild, childOf, nilOf, hleft, hptrLeft hleaf]

/-- The addresses that a splice must keep apart. -/
theorem Repr.splice_apart (h : Repr s (fill path (.node c l y r)))
    (ht : l = .leaf ∧ t = r ∨ r = .leaf ∧ t = l) :
    (y.addr :: (addrs t ++ pathAddrs path)).Nodup := by
  have hperm := addrs_branch_perm .left c l r y
  have hnodup := ((hperm.append_right (pathAddrs path)).nodup_iff).mp
    h.nodup_focus
  rcases ht with ⟨rfl, rfl⟩ | ⟨rfl, rfl⟩
  · simpa using hnodup
  · simpa using hnodup

theorem Repr.only_child_rep (h : Repr s (fill path (.node c l y r)))
    (ht : l = .leaf ∧ t = r ∨ r = .leaf ∧ t = l) : Rep s y.addr t := by
  rcases ht with ⟨_, rfl⟩ | ⟨_, rfl⟩
  · exact h.focusRep.2.2
  · exact h.focusRep.2.1

theorem Repr.only_child_live (h : Repr s (fill path (.node c l y r)))
    (ht : l = .leaf ∧ t = r ∨ r = .leaf ∧ t = l) :
    ptr s.nil t ∈ s.arena.live := by
  by_cases hleaf : t = .leaf
  · rw [hleaf]
    exact h.nilLive
  · exact (h.only_child_rep ht).live _ (ptr_mem_addrs hleaf)

/-- The pointer to the only child names neither the node nor the path. -/
theorem Repr.only_child_ne (h : Repr s (fill path (.node c l y r)))
    (ht : l = .leaf ∧ t = r ∨ r = .leaf ∧ t = l) :
    y.addr ≠ ptr s.nil t ∧ ∀ a ∈ pathAddrs path, a ≠ ptr s.nil t := by
  have hapart := h.splice_apart ht
  simp only [List.nodup_cons, List.mem_append, not_or,
    List.nodup_append] at hapart
  by_cases hleaf : t = .leaf
  · rw [hleaf]
    exact ⟨h.focusRep.1.ne_nil, h.path_ne_nil⟩
  · have hmem : ptr s.nil t ∈ addrs t := ptr_mem_addrs hleaf
    refine ⟨?_, ?_⟩
    · intro heq
      exact hapart.1.1 (heq ▸ hmem)
    · intro a ha heq
      exact hapart.2.2.2 _ hmem a ha heq.symm

theorem Repr.afterSplice (h : Repr s (fill path (.node c l y r)))
    (ht : l = .leaf ∧ t = r ∨ r = .leaf ∧ t = l) :
    Repr (spliced path (ptr s.nil t) s) (fill path t) := by
  have hapart := h.splice_apart ht
  obtain ⟨-, hpathNe⟩ := h.only_child_ne ht
  simp only [List.nodup_cons, List.mem_append, not_or,
    List.nodup_append] at hapart
  apply Repr.of_focus
  · have hlinked : RepPath (withParent (ptr s.nil t) (holder s.nil path) s)
        path y.addr :=
      h.focusPath.frame rfl rfl
        (fun a ha => sameCell_withParent _ s (hpathNe a ha))
    simpa [spliced] using hlinked.afterHang hapart.2.2.1 (ptr s.nil t)
  · simp only [spliced, hang_nil, withParent_nil]
    refine (h.only_child_rep ht).reparent ?_ hapart.2.1 ?_ ?_
    · simp
    · intro _
      simp
    · intro a ha
      have hpath : a ∉ pathAddrs path :=
        fun hmem => hapart.2.2.2 a ha a hmem rfl
      refine ⟨⟨?_, ?_, ?_, ?_, ?_, ?_⟩, ?_⟩
      · simp
      · simp
      · exact fun d => hang_child_of_notMem _ _ _ hpath d
      · rfl
      · simp
      · simp
      · intro hroot
        simp [hroot]
  · simpa [List.nodup_append] using hapart.2
  · simpa [spliced] using h.nilBlack
  · simpa [spliced] using h.nilLive

theorem Repr.returns_spliceOut (h : Repr s (fill path (.node c l y r)))
    (ht : l = .leaf ∧ t = r ∨ r = .leaf ∧ t = l)
    (Q : Addr → Rbtree → Prop) :
    Returns (spliceOut y.addr) s Q ↔
      Q (ptr s.nil t) (spliced path (ptr s.nil t) s) := by
  obtain ⟨hne, hpathNe⟩ := h.only_child_ne ht
  have hapart := h.splice_apart ht
  simp only [List.nodup_cons, List.mem_append, not_or] at hapart
  have hparent := h.focusRep.1.parent
  have hlinked : RepPath (withParent (ptr s.nil t) (holder s.nil path) s)
      path y.addr :=
    h.focusPath.frame rfl rfl
      (fun a ha => sameCell_withParent _ s (hpathNe a ha))
  have hreplace := returns_replaceInParent hlinked (by simpa [hne] using hparent)
    h.focusRep.1.ne_nil hapart.1.2 .left (ptr s.nil t)
  simp only [spliceOut, returns_bind, h.returns_onlyChild ht, parentOf,
    returns_load, hparent, Option.some.injEq, exists_eq_left', setParent,
    returns_store, isLive, h.only_child_live ht, decide_true, true_and,
    hreplace, returns_pure]
  rfl

theorem Repr.keepsHeader_spliced (h : Repr s (fill path (.node c l y r)))
    (x : Addr) : KeepsHeader s (spliced path x s) where
  arena := by simp [spliced]
  nil := by simp [spliced]
  count := by simp [spliced]
  child := by
    intro d
    have hnil : s.nil ∉ pathAddrs path :=
      fun hmem => h.path_ne_nil _ hmem rfl
    exact hang_child_of_notMem _ _ _ hnil d
  key := by simp [spliced]
  value := by simp [spliced]

end Splice

section Swap

variable {s : Rbtree} {path : Path Node} {c : Color} {l r : Shape Node}
  {z y : Node}

@[simp] theorem addr_taking (z y : Node) : (z.taking y).addr = z.addr := rfl

theorem sameCell_swapped {a : Addr} (s : Rbtree) (hz : a ≠ z.addr)
    (hy : a ≠ y.addr) : SameCell s (swapped z y s) a := by
  constructor <;> simp [swapped, hz, hy]

/-- The exchange with a node outside the tree relabels the focused node. -/
theorem Repr.afterSwap (h : Repr s (fill path (.node c l z r)))
    (hy : y.addr ∉ addrs (fill path (.node c l z r)))
    (hynil : y.addr ≠ s.nil) :
    Repr (swapped z y s) (fill path (.node c l (z.taking y) r)) := by
  have hz : z.addr ∈ addrs (fill path (.node c l z r)) := by
    rw [(addrs_fill_perm path _).mem_iff]
    simp [addrs, Shape.inorder]
  have hne : z.addr ≠ y.addr := by
    rintro heq
    exact hy (heq ▸ hz)
  refine h.relabel (addr_taking z y) (swapped_nil z y s)
    (swapped_root z y s) ?_ ?_ ?_ ?_
  · constructor <;> simp
  · simp [swapped, hne, Node.taking]
  · simp [swapped, hne, Node.taking]
  · intro a ha hmem
    apply sameCell_swapped s ha
    rintro rfl
    rcases hmem with hnil | hmem
    · exact hynil hnil
    · exact hy hmem

theorem returns_swapPayload
    (hzlive : z.addr ∈ s.arena.live) (hylive : y.addr ∈ s.arena.live)
    (hzkey : s.key z.addr = some (some z.key))
    (hykey : s.key y.addr = some (some y.key))
    (hzvalue : s.value z.addr = some z.value)
    (hyvalue : s.value y.addr = some y.value) (Q : Unit → Rbtree → Prop) :
    Returns (swapPayload z.addr y.addr) s Q ↔ Q () (swapped z y s) := by
  simp [swapPayload, keyPtrOf, valuePtrOf, setKey, setValue, isLive, hzlive,
    hylive, hzkey, hykey, hzvalue, hyvalue, swapped]

theorem keepsHeader_swapped (s : Rbtree) (hz : s.nil ≠ z.addr)
    (hy : s.nil ≠ y.addr) : KeepsHeader s (swapped z y s) := by
  constructor <;> simp [swapped, hz, hy]

end Swap

/-! ## After the splice -/

/-- The victim `y` has left the tree and its only child `t` hangs in its
place. -/
structure SpliceFocus (labels : List Node) (s₀ s : Rbtree) (y : Addr)
    (path : Path Node) (t : Shape Node) : Prop where
  repr : Repr s (fill path t)
  parent : s.parent (ptr s.nil t) = some (holder s.nil path)
  inorder : (fill path t).inorder = labels
  keeps : KeepsHeader s₀ s
  victimLive : y ∈ s.arena.live
  colors : ∃ c n, s.color y = some c ∧ t.Balanced n ∧
    Path.Fits path (c.over n) ∧
      (c = .red → t.rootColor = .black ∧ Path.TopBlack path)

section Finish

variable {labels : List Node} {s₀ : Rbtree} {c : Metered} {path : Path Node}
  {t : Shape Node} {y : Addr}

/-- The tail of `rbtree_delete`: a black victim calls for a repair. -/
theorem SpliceFocus.returns_finish
    (h : SpliceFocus labels s₀ c.tree y path t) :
    Returns (Metered.repairBehind y (ptr c.tree.nil t)) c (fun _ c' =>
      (KeepsHeader s₀ c'.tree ∧ ∃ T, Repr c'.tree T ∧ T.rootColor = .black ∧
        (∃ m, T.Balanced m) ∧ T.inorder = labels) ∧
      c.Within path.length 3 c') := by
  obtain ⟨cy, n, hcolor, hbal, hfits, hred⟩ := h.colors
  simp only [Metered.repairBehind, colorOf, returns_bind, Metered.returns_run,
    Metered.withTree_self, returns_load, hcolor, Option.some.injEq,
    exists_eq_left']
  cases cy with
  | red =>
      obtain ⟨htblack, htop⟩ := hred rfl
      simp only [reduceCtorEq, reduceIte, returns_pure]
      refine ⟨⟨h.keeps, fill path t, h.repr, ?_, ?_, h.inorder⟩,
        c.within_withTree c.tree _ _⟩
      · apply fill_rootColor hfits
        rintro rfl
        exact htop
      · apply fill_balanced hfits hbal
        intro hcontra
        rw [htblack] at hcontra
        cases hcontra
  | black =>
      have hfocus :
          DeleteFocus labels c.tree (ptr c.tree.nil t) c.tree path t n :=
        ⟨h.repr, rfl, hbal.short, hfits, fun _ => h.parent, h.inorder,
          KeepsSentinel.refl c.tree⟩
      simp only [reduceIte]
      apply (hfocus.returns_deleteFixup h.repr.pathLength_le).mono
      rintro _ c' ⟨⟨T, hT⟩, hwithin⟩
      exact ⟨⟨h.keeps.trans hT.keeps.toKeepsHeader, T, hT.repr, hT.rootBlack,
        hT.balanced, hT.inorder⟩, hwithin⟩

end Finish

section Delete

variable {s : Rbtree} {path : Path Node} {c : Color} {l r t : Shape Node}
  {y z : Node}

theorem SearchTree.spliceFocus
    (h : SearchTree s (fill path (.node c l y r)))
    (ht : l = .leaf ∧ t = r ∨ r = .leaf ∧ t = l) :
    SpliceFocus (fill path t).inorder s (spliced path (ptr s.nil t) s) y.addr
      path t := by
  obtain ⟨m, hbal⟩ := h.balanced
  obtain ⟨n, hchild, hfits, hred⟩ := delete_splice hbal h.rootBlack ht
  have hcell := h.repr.focusRep.1
  exact
    { repr := h.repr.afterSplice ht
      parent := by simp [spliced]
      inorder := rfl
      keeps := h.repr.keepsHeader_spliced _
      victimLive := by simpa [spliced] using hcell.live
      colors := ⟨c, n, by simpa [spliced] using hcell.color, hchild, hfits,
        hred⟩ }

/-- The exchange of key and value with the victim relabels one frame. -/
theorem SpliceFocus.afterSwap {labels : List Node} {s₀ : Rbtree}
    {fs : Path Node}
    (h : SpliceFocus labels s₀ s y.addr (fs ++ ⟨.right, c, z, l⟩ :: path) t)
    (hy : y.addr ∉ addrs (fill (fs ++ ⟨.right, c, z, l⟩ :: path) t))
    (hynil : y.addr ≠ s₀.nil) :
    SpliceFocus (fill (fs ++ ⟨.right, c, z.taking y, l⟩ :: path) t).inorder s₀
      (swapped z y s) y.addr (fs ++ ⟨.right, c, z.taking y, l⟩ :: path) t := by
  have hrepr := h.repr
  rw [fill_append, fill_cons] at hrepr hy
  obtain ⟨cy, n, hcolor, hbal, hfits, hred⟩ := h.colors
  have hholder : holder s.nil (fs ++ ⟨.right, c, z.taking y, l⟩ :: path) =
      holder s.nil (fs ++ ⟨.right, c, z, l⟩ :: path) := by
    cases fs <;> rfl
  have hznil : s.nil ≠ z.addr := by
    have hcell := hrepr.focusRep.1
    exact hcell.ne_nil.symm
  exact
    { repr := by
        rw [fill_append, fill_cons]
        exact hrepr.afterSwap hy (by rwa [h.keeps.nil])
      parent := by
        rw [swapped_parent, swapped_nil, h.parent, hholder]
      inorder := rfl
      keeps := by
        apply h.keeps.trans
        apply keepsHeader_swapped s hznil
        rw [h.keeps.nil]
        exact hynil.symm
      victimLive := h.victimLive
      colors := by
        rw [swapped_color]
        refine ⟨cy, n, hcolor, hbal, fits_relabel (z.taking y) hfits, ?_⟩
        intro hcy
        refine ⟨(hred hcy).1, ?_⟩
        have htop := (hred hcy).2
        cases fs <;> exact htop }

theorem Repr.returns_deleteVictim_self
    (h : Repr s (fill path (.node c l z r))) (hone : l = .leaf ∨ r = .leaf)
    (Q : Addr → Rbtree → Prop) :
    Returns (deleteVictim z.addr) s Q ↔ Q z.addr s := by
  have hcell := h.focusRep.1
  have hleft := hcell.near
  have hright := hcell.far
  simp only [Dir.flip] at hright
  rcases hone with rfl | rfl
  · simp [deleteVictim, childOf, nilOf, hleft]
  · by_cases hnil : ptr s.nil l = s.nil
    · simp [deleteVictim, childOf, nilOf, hleft, hnil]
    · simp [deleteVictim, childOf, nilOf, hleft, hright, hnil]

theorem Repr.returns_deleteVictim_successor
    (h : Repr s (fill path (.node c l z r))) (hl : l ≠ .leaf)
    (hr : r ≠ .leaf) :
    Returns (deleteVictim z.addr) s (fun p s' => s' = s ∧
      ∃ fs c' y b, r = fill fs (.node c' .leaf y b) ∧ AllLeft fs ∧
        p = y.addr) := by
  have hcell := h.focusRep.1
  have hleft := hcell.near
  have hright := hcell.far
  simp only [Dir.flip] at hright
  have hlfocus : Repr s (fill (⟨.left, c, z, r⟩ :: path) l) := h
  have hrfocus : Repr s (fill (⟨.right, c, z, l⟩ :: path) r) := h
  have hlnil : ptr s.nil l ≠ s.nil :=
    hlfocus.focus_ne_nil _ (ptr_mem_addrs hl)
  have hrnil : ptr s.nil r ≠ s.nil :=
    hrfocus.focus_ne_nil _ (ptr_mem_addrs hr)
  simp only [deleteVictim, childOf, nilOf, returns_bind, returns_load,
    returns_get, returns_pure, hleft, hright, Option.some.injEq,
    exists_eq_left', hlnil, hrnil, reduceIte]
  exact h.returns_successor hr

theorem before_of_allLeft {fs : Path Node} (hfs : AllLeft fs) :
    Path.before fs = [] := by
  induction fs with
  | nil => rfl
  | cons f fs ih =>
      have hdir := hfs f (by simp)
      simp only [Path.before, hdir]
      exact ih (fun g hg => hfs g (List.mem_cons_of_mem f hg))

theorem sortedBy_iff_payload (labels : List Node) :
    SortedBy Node.text labels ↔
      (labels.map Node.payload).Pairwise (fun a b => a.1.str < b.1.str) := by
  rw [List.pairwise_map]
  rfl

/-- What a deletion of `z` leaves: the payloads of the other nodes, in
order, at all addresses but `p`. -/
structure Removed (T : Shape Node) (z : Node) (p : Addr) (s s' : Rbtree) :
    Prop where
  keeps : KeepsHeader s s'
  tree : ∃ T' A B, SearchTree s' T' ∧
    T.inorder.map Node.payload = A ++ z.payload :: B ∧
    T'.inorder.map Node.payload = A ++ B ∧
    (addrs T).Perm (p :: addrs T')

theorem SpliceFocus.returns_removed {m : Metered} {T : Shape Node}
    {labels : List Node} {s₀ : Rbtree} {A B : List (CharBlock × CharPtr)}
    {p : Addr} (h : SpliceFocus labels s₀ m.tree p path t)
    (hsorted : SortedBy Node.text T.inorder)
    (hbefore : T.inorder.map Node.payload = A ++ z.payload :: B)
    (hafter : labels.map Node.payload = A ++ B)
    (haddrs : (addrs T).Perm (p :: labels.map Node.addr)) :
    Returns (Metered.repairBehind p (ptr m.tree.nil t)) m (fun _ m' =>
      Removed T z p s₀ m'.tree ∧ m.Within path.length 3 m') := by
  apply h.returns_finish.mono
  rintro _ m' ⟨⟨hkeeps, T', hrepr, hblack, hbal, hlabels⟩, hwithin⟩
  refine ⟨⟨hkeeps, T', A, B, ⟨hrepr, hblack, hbal, ?_⟩, hbefore, ?_, ?_⟩,
    hwithin⟩
  · rw [hlabels, sortedBy_iff_payload, hafter]
    rw [sortedBy_iff_payload, hbefore] at hsorted
    exact hsorted.sublist (List.Sublist.append_left
      (List.sublist_cons_self _ _) _)
  · rw [hlabels, hafter]
  · rw [addrs, addrs, hlabels]
    exact haddrs

/-- A node of the tree has fewer nodes above it than the tree is high. -/
theorem pathLength_lt_height (path : Path Node) (c : Color)
    (l r : Shape Node) (z : Node) :
    path.length < (fill path (.node c l z r)).height := by
  have hheight := length_add_height_le path (.node c l z r)
  simp only [Shape.height] at hheight
  omega

/-- The rest of a deletion whose victim is the successor `y` of `z`. -/
theorem SearchTree.returns_deleteSuccessor {m : Metered} {fs : Path Node}
    {cy : Color} {b : Shape Node}
    (h : SearchTree m.tree
      (fill path (.node c l z (fill fs (.node cy .leaf y b)))))
    (hleft : AllLeft fs) :
    Returns (spliceOut y.addr) m.tree (fun x s₁ =>
      Returns (movePayload z.addr y.addr) s₁ (fun _ s₂ =>
        Returns (Metered.repairBehind y.addr x) (m.withTree s₂) (fun _ m' =>
          y.addr ∈ m.tree.arena.live ∧
            Removed (fill path (.node c l z (fill fs (.node cy .leaf y b))))
              z y.addr m.tree m'.tree ∧
            m.Within (fill path (.node c l z
              (fill fs (.node cy .leaf y b)))).height 3 m'))) := by
  have hy : SearchTree m.tree
      (fill (fs ++ ⟨.right, c, z, l⟩ :: path) (.node cy .leaf y b)) := by
    rw [fill_append, fill_cons]
    exact h
  have hlength : (fs ++ ⟨.right, c, z, l⟩ :: path).length < (fill path
      (.node c l z (fill fs (.node cy .leaf y b)))).height := by
    have hheight := pathLength_lt_height (fs ++ ⟨.right, c, z, l⟩ :: path) cy
      .leaf b y
    rw [fill_append, fill_cons] at hheight
    exact hheight
  have ht : (Shape.leaf : Shape Node) = .leaf ∧ b = b ∨ b = .leaf ∧ b = .leaf :=
    Or.inl ⟨rfl, rfl⟩
  have hycell := hy.repr.focusRep.1
  have hzcell := h.repr.focusRep.1
  have hfocus := hy.spliceFocus ht
  have hyout : y.addr ∉
      addrs (fill (fs ++ ⟨.right, c, z, l⟩ :: path) b) := by
    rw [(addrs_fill_perm _ _).mem_iff]
    exact (List.nodup_cons.mp (hy.repr.splice_apart ht)).1
  have hzin : z.addr ∈
      addrs (fill (fs ++ ⟨.right, c, z, l⟩ :: path) b) := by
    rw [fill_append, fill_cons, (addrs_fill_perm _ _).mem_iff]
    simp [Frame.plug]
  have hne : y.addr ≠ z.addr := by
    intro heq
    rw [heq] at hyout
    exact hyout hzin
  have hswapped := hfocus.afterSwap hyout hycell.ne_nil
  have hfinish := SpliceFocus.returns_removed
    (m := m.withTree (swapped z y (spliced (fs ++ ⟨.right, c, z, l⟩ :: path)
      (ptr m.tree.nil b) m.tree)))
    (z := z) hswapped h.sorted
    (A := (Path.before path ++ l.inorder).map Node.payload)
    (B := (y :: b.inorder ++ Path.after fs ++ Path.after path).map
      Node.payload)
    (by simp [inorder_fill, Shape.inorder, before_of_allLeft hleft])
    (by
      rw [fill_append, fill_cons]
      simp [inorder_fill, Frame.plug, Shape.branch, Shape.inorder,
        before_of_allLeft hleft, Node.payload, Node.taking])
    (by
      rw [fill_append, fill_cons]
      simp only [addrs, inorder_fill, Frame.plug, Shape.branch, Shape.inorder,
        before_of_allLeft hleft, List.map_append, List.map_cons,
        List.nil_append, List.append_assoc, List.cons_append, addr_taking]
      exact (((List.Perm.swap y.addr z.addr _).append_left _).append_left
        _).trans ((List.perm_middle.append_left _).trans List.perm_middle))
  rw [Metered.withTree_tree, swapped_nil, spliced_nil] at hfinish
  rw [hy.repr.returns_spliceOut ht]
  simp only [movePayload, ne_eq, hne, not_false_eq_true, reduceIte]
  rw [returns_swapPayload]
  · apply hfinish.mono
    rintro _ m' ⟨hremoved, hwithin⟩
    refine ⟨hycell.live, hremoved, hwithin.turns.trans ?_, hwithin.rotations⟩
    rw [List.length_append, List.length_cons] at hlength
    rw [Metered.withTree_turns, List.length_append, List.length_cons]
    omega
  · simpa [spliced] using hzcell.live
  · simpa [spliced] using hycell.live
  · simpa [spliced] using hzcell.key
  · simpa [spliced] using hycell.key
  · simpa [spliced] using hzcell.value
  · simpa [spliced] using hycell.value

theorem SearchTree.returns_meteredDelete {m : Metered}
    (h : SearchTree m.tree (fill path (.node c l z r))) :
    Returns (Metered.rbtreeDelete z.addr) m (fun y m' =>
      y ∈ m.tree.arena.live ∧
        Removed (fill path (.node c l z r)) z y m.tree m'.tree ∧
        m.Within (fill path (.node c l z r)).height 3 m') := by
  by_cases hone : l = .leaf ∨ r = .leaf
  · have ht : ∃ t, l = .leaf ∧ t = r ∨ r = .leaf ∧ t = l := by
      rcases hone with hl | hr
      · exact ⟨r, Or.inl ⟨hl, rfl⟩⟩
      · exact ⟨l, Or.inr ⟨hr, rfl⟩⟩
    obtain ⟨t, ht⟩ := ht
    have hfocus := h.spliceFocus ht
    have hinorder : (fill path t).inorder =
        (Path.before path ++ l.inorder) ++ (r.inorder ++ Path.after path) := by
      rw [inorder_fill]
      rcases ht with ⟨rfl, rfl⟩ | ⟨rfl, rfl⟩
      · simp
      · simp
    have hfinish := SpliceFocus.returns_removed
      (m := m.withTree (spliced path (ptr m.tree.nil t) m.tree))
      (z := z) hfocus h.sorted
      (A := (Path.before path ++ l.inorder).map Node.payload)
      (B := (r.inorder ++ Path.after path).map Node.payload)
      (by simp [inorder_fill, Shape.inorder])
      (by rw [hinorder, List.map_append])
      (by
        rw [addrs, hinorder]
        simp only [inorder_fill, Shape.inorder, List.map_append,
          List.map_cons, List.append_assoc, List.cons_append]
        exact (List.perm_middle.append_left _).trans List.perm_middle)
    rw [Metered.withTree_tree, spliced_nil] at hfinish
    have hlength := pathLength_lt_height path c l r z
    simp only [Metered.rbtreeDelete, returns_bind, Metered.returns_run,
      Metered.withTree_tree, Metered.withTree_withTree,
      h.repr.returns_deleteVictim_self hone, h.repr.returns_spliceOut ht,
      movePayload, ne_eq, not_true_eq_false, reduceIte, returns_pure]
    apply hfinish.mono
    rintro _ m' ⟨hremoved, hwithin⟩
    refine ⟨h.repr.focusRep.1.live, hremoved, hwithin.turns.trans ?_,
      hwithin.rotations⟩
    rw [Metered.withTree_turns]
    omega
  · have hl : l ≠ .leaf := fun heq => hone (Or.inl heq)
    have hr : r ≠ .leaf := fun heq => hone (Or.inr heq)
    simp only [Metered.rbtreeDelete, returns_bind, Metered.returns_run]
    apply (h.repr.returns_deleteVictim_successor hl hr).mono
    rintro p s₁ ⟨rfl, fs, cy, y, b, hfill, hleft, rfl⟩
    subst hfill
    simp only [Metered.withTree_self, Metered.withTree_tree,
      Metered.withTree_withTree, returns_pure]
    exact h.returns_deleteSuccessor hleft

theorem SearchTree.returns_delete
    (h : SearchTree s (fill path (.node c l z r))) :
    Returns (rbtreeDelete z.addr) s (fun y s' => y ∈ s.arena.live ∧
      Removed (fill path (.node c l z r)) z y s s') := by
  have hstart : SearchTree (Metered.start s).tree
      (fill path (.node c l z r)) := h
  exact (rbtreeDelete_mirrors z.addr).returns hstart.returns_meteredDelete
    (fun _ _ hdelete => ⟨hdelete.1, hdelete.2.1⟩)

end Delete

end CAdvanced
