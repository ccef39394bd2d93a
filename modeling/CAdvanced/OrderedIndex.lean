import CAdvanced.RedBlackShape

/-!
# Indexes ordered by a key

An index keeps elements in the ascending order of a key that each of them
carries, at most one element for a key.  This is what a balanced search tree
offers whose nodes are the elements themselves.
-/

namespace OrderedIndex

open RedBlack

variable {α κ : Type} [LinearOrder κ]

/-- The element with a key. -/
def find (key : α → κ) (k : κ) (l : List α) : Option α :=
  l.find? (fun x => key x = k)

/-- An element that has the key already keeps it, and is answered. -/
def insert (key : α → κ) (x : α) (l : List α) : Option α × List α :=
  match find key (key x) l with
  | some y => (some y, l)
  | none => (none, l.orderedInsert (fun a b => key a ≤ key b) x)

/-- The first element from a key on. -/
def findFrom (key : α → κ) (k : κ) (l : List α) : Option α :=
  l.find? (fun x => k ≤ key x)

/-- The element behind another one, and the one before it. -/
def next (key : α → κ) (x : α) (l : List α) : Option α :=
  l.find? (fun y => key x < key y)

def prev (key : α → κ) (x : α) (l : List α) : Option α :=
  l.reverse.find? (fun y => key y < key x)

section Find

variable {key : α → κ} {k : κ} {x y : α} {l : List α}

theorem mem_of_find (h : find key k l = some x) : x ∈ l ∧ key x = k :=
  ⟨List.mem_of_find?_eq_some h, by simpa using List.find?_some h⟩

theorem find_eq_none : find key k l = none ↔ ∀ x ∈ l, key x ≠ k := by
  simp [find]

theorem key_injOn (hsorted : SortedBy key l) (hx : x ∈ l) (hy : y ∈ l)
    (hkey : key x = key y) : x = y := by
  induction l with
  | nil => exact absurd hx List.not_mem_nil
  | cons z l ih =>
      obtain ⟨hz, hl⟩ := List.pairwise_cons.mp hsorted
      rcases List.mem_cons.mp hx with hxz | hx
      · rcases List.mem_cons.mp hy with hyz | hy
        · rw [hxz, hyz]
        · rw [hxz] at hkey
          exact absurd hkey (hz y hy).ne
      · rcases List.mem_cons.mp hy with hyz | hy
        · rw [hyz] at hkey
          exact absurd hkey (hz x hx).ne'
        · exact ih hl hx hy

theorem find_eq_some (hsorted : SortedBy key l) :
    find key k l = some x ↔ x ∈ l ∧ key x = k := by
  constructor
  · exact mem_of_find
  · rintro ⟨hx, rfl⟩
    cases hfind : find key (key x) l with
    | none => exact absurd rfl (find_eq_none.mp hfind x hx)
    | some y =>
        obtain ⟨hy, hkey⟩ := mem_of_find hfind
        rw [key_injOn hsorted hy hx hkey]

theorem findFrom_append {front rest : List α} (hfront : ∀ y ∈ front, key y < k)
    (hrest : ∀ y ∈ rest.head?, k ≤ key y) :
    findFrom key k (front ++ rest) = rest.head? := by
  have hnone : front.find? (fun y => k ≤ key y) = none := by
    rw [List.find?_eq_none]
    intro y hy
    simpa using hfront y hy
  rw [findFrom, List.find?_append, hnone, Option.none_or]
  cases rest with
  | nil => rfl
  | cons y rest =>
      have hle : k ≤ key y := hrest y rfl
      rw [List.find?_cons_of_pos (by simpa using hle), List.head?_cons]

theorem next_append {front rest : List α}
    (hsorted : SortedBy key (front ++ x :: rest)) :
    next key x (front ++ x :: rest) = rest.head? := by
  obtain ⟨-, hrest, hout⟩ := List.pairwise_append.mp hsorted
  have hfront : front.find? (fun y => key x < key y) = none := by
    rw [List.find?_eq_none]
    intro y hy
    simpa using (hout y hy x List.mem_cons_self).le
  rw [next, List.find?_append, hfront, Option.none_or,
    List.find?_cons_of_neg (by simp)]
  cases rest with
  | nil => rfl
  | cons y rest =>
      have hlt := (List.pairwise_cons.mp hrest).1 y List.mem_cons_self
      rw [List.find?_cons_of_pos (by simpa using hlt), List.head?_cons]

theorem prev_append {front rest : List α}
    (hsorted : SortedBy key (front ++ x :: rest)) :
    prev key x (front ++ x :: rest) = front.getLast? := by
  obtain ⟨-, hrest, hout⟩ := List.pairwise_append.mp hsorted
  have hbehind : (x :: rest).reverse.find? (fun y => key y < key x) = none := by
    rw [List.find?_eq_none]
    intro y hy
    rcases List.mem_cons.mp (List.mem_reverse.mp hy) with rfl | hy
    · simp
    · simpa using ((List.pairwise_cons.mp hrest).1 y hy).le
  rw [prev, List.reverse_append, List.find?_append, hbehind, Option.none_or,
    ← List.head?_reverse]
  cases hlast : front.reverse with
  | nil => rfl
  | cons y others =>
      have hy : y ∈ front := by
        rw [← List.mem_reverse, hlast]
        exact List.mem_cons_self
      have hlt := hout y hy x List.mem_cons_self
      rw [List.find?_cons_of_pos (by simpa using hlt), List.head?_cons]

end Find

/-! ## Updates -/

section Updates

variable {key key' : α → κ} {x y : α} {l : List α}

theorem sortedBy_of_keys (h : ∀ x ∈ l, key' x = key x)
    (hsorted : SortedBy key l) : SortedBy key' l := by
  apply List.Pairwise.imp_of_mem ?_ hsorted
  intro a b ha hb hlt
  rw [h a ha, h b hb]
  exact hlt

theorem nodup_of_sortedBy (hsorted : SortedBy key l) : l.Nodup :=
  hsorted.imp (fun hlt heq => by rw [heq] at hlt; exact lt_irrefl _ hlt)

theorem insert_of_free (h : ∀ y ∈ l, key y ≠ key x) :
    insert key x l =
      (none, l.orderedInsert (fun a b => key a ≤ key b) x) := by
  simp only [insert, find_eq_none.mpr h]

theorem insert_of_taken (hsorted : SortedBy key l) (hy : y ∈ l)
    (hkey : key y = key x) : insert key x l = (some y, l) := by
  simp only [insert, (find_eq_some hsorted).mpr ⟨hy, hkey⟩]

/-- The place of an element whose key is free. -/
theorem orderedInsert_append {l' : List α} (hl : ∀ y ∈ l, key y < key x)
    (hl' : ∀ y ∈ l', key x < key y) :
    (l ++ l').orderedInsert (fun a b => key a ≤ key b) x = l ++ x :: l' := by
  induction l with
  | nil =>
      cases l' with
      | nil => rfl
      | cons y l' =>
          have hle : key x ≤ key y := (hl' y List.mem_cons_self).le
          simp [hle]
  | cons y l ih =>
      have hnot : ¬ key x ≤ key y := not_le.mpr (hl y List.mem_cons_self)
      rw [List.cons_append, List.orderedInsert_cons, if_neg hnot,
        ih (fun z hz => hl z (List.mem_cons_of_mem y hz)), List.cons_append]

theorem sortedBy_orderedInsert (hsorted : SortedBy key l)
    (h : ∀ y ∈ l, key y ≠ key x) :
    SortedBy key (l.orderedInsert (fun a b => key a ≤ key b) x) := by
  induction l with
  | nil => exact List.pairwise_singleton _ x
  | cons y l ih =>
      have hne : key x ≠ key y := (h y List.mem_cons_self).symm
      obtain ⟨hy, hl⟩ := List.pairwise_cons.mp hsorted
      rw [List.orderedInsert_cons]
      split_ifs with hle
      · have hlt : key x < key y := lt_of_le_of_ne hle hne
        refine List.pairwise_cons.mpr ⟨?_, hsorted⟩
        intro z hz
        rcases List.mem_cons.mp hz with rfl | hz
        · exact hlt
        · exact hlt.trans (hy z hz)
      · refine List.pairwise_cons.mpr
          ⟨?_, ih hl (fun z hz => h z (List.mem_cons_of_mem y hz))⟩
        intro z hz
        rcases (List.mem_orderedInsert _).mp hz with rfl | hz
        · exact not_le.mp hle
        · exact hy z hz

theorem sortedBy_insert (hsorted : SortedBy key l) :
    SortedBy key (insert key x l).2 := by
  unfold insert
  split
  next => exact hsorted
  next hnone =>
    exact sortedBy_orderedInsert hsorted (find_eq_none.mp hnone)

theorem sortedBy_erase [DecidableEq α] (hsorted : SortedBy key l) :
    SortedBy key (l.erase x) :=
  List.Pairwise.sublist List.erase_sublist hsorted

/-- The first element has the least key. -/
theorem key_head_le (hsorted : SortedBy key (x :: l)) :
    ∀ y ∈ x :: l, key x ≤ key y := by
  intro y hy
  rcases List.mem_cons.mp hy with rfl | hy
  · exact le_rfl
  · exact ((List.pairwise_cons.mp hsorted).1 y hy).le

end Updates

/-- Above a key that is taken there are fewer elements than from it on. -/
theorem countP_above_lt (key : α → ℕ) {x : α} {l : List α} (hx : x ∈ l) :
    l.countP (fun y => key x + 1 ≤ key y) <
      l.countP (fun y => key x ≤ key y) := by
  have hmono : ∀ l' : List α, l'.countP (fun y => key x + 1 ≤ key y) ≤
      l'.countP (fun y => key x ≤ key y) := by
    intro l'
    apply List.countP_mono_left
    intro y _ hy
    simp only [decide_eq_true_eq] at hy ⊢
    omega
  obtain ⟨front, rest, rfl⟩ := List.append_of_mem hx
  have hfront := hmono front
  have hrest := hmono rest
  simp only [List.countP_append, List.countP_cons, decide_eq_true_eq, le_refl,
    reduceIte]
  have hnot : ¬ key x + 1 ≤ key x := by omega
  rw [if_neg hnot]
  omega

end OrderedIndex
