import CAdvanced.BlockArena
import Mathlib.Data.List.Lex
import Mathlib.Order.Lattice

/-!
# NUL-terminated strings

A string is the list of bytes in front of its terminator.  `strcmp` compares
as unsigned bytes, with the terminator below every byte of a string; on
strings it decides the lexicographic order.
-/

namespace Fallible

structure CString where
  bytes : List UInt8
  noNul : 0 ∉ bytes

@[ext] theorem CString.ext {s t : CString} (h : s.bytes = t.bytes) : s = t := by
  cases s
  cases t
  simpa using h

instance : Inhabited CString := ⟨⟨[], by simp⟩⟩

def CString.code (s : CString) : List ℕ := s.bytes.map UInt8.toNat

theorem CString.code_injective : Function.Injective CString.code := by
  intro s t h
  apply CString.ext
  exact List.map_injective_iff.mpr (fun _ _ => UInt8.toNat_inj.mp) h

instance : LinearOrder CString :=
  LinearOrder.lift' CString.code CString.code_injective

/-- A `char *` that owns its text: the block's address and the string that was
copied into it. -/
structure CharBlock where
  addr : Addr
  str : CString
  deriving DecidableEq

/-- A `char *` field; `none` is the null pointer. -/
abbrev CharPtr := Option CharBlock

section Text

variable {σ : Type} [HasArena σ]

/-- A fresh copy of a string, or a null pointer. -/
def copyText (A : Allocator) (str : CString) : Exec σ CharPtr := do
  let p ← malloc A
  if p = NULL then pure none
  else pure (some ⟨p, str⟩)

def freeText (p : CharPtr) : Exec σ Unit :=
  match p with
  | none => pure ()
  | some block => free block.addr

theorem returns_copyText_or {A : Allocator} {s : σ} {str : CString}
    {Q : CharPtr → σ → Prop}
    (hrefused : A.place (HasArena.arena s).requests (HasArena.arena s).live
      = none → Q none (HasArena.withArena (HasArena.arena s).refuse s))
    (hgranted : ∀ a (hplace : A.place (HasArena.arena s).requests
      (HasArena.arena s).live = some a), Q (some ⟨a, str⟩)
        (HasArena.withArena
          ((HasArena.arena s).grant a (A.place_fresh hplace)) s)) :
    Returns (copyText A str) s Q := by
  simp only [copyText, returns_bind]
  apply returns_malloc_or
  · intro hplace
    simpa using hrefused hplace
  · intro a hplace
    simpa [(A.place_fresh hplace).1] using hgranted a hplace

variable {τ : Type} [HasArena τ] {R : σ → τ → Prop} {s : σ} {t : τ}

theorem SharesArena.copyText (h : SharesArena R) (A : Allocator)
    (str : CString) (hR : R s t) :
    SameOutcome R ((copyText A str).run s) ((copyText A str).run t) := by
  apply (h.malloc A hR).bind
  intro p s' t' _ hR'
  split_ifs
  · exact sameOutcome_pure none hR'
  · exact sameOutcome_pure _ hR'

theorem SharesArena.freeText (h : SharesArena R) (p : CharPtr) (hR : R s t) :
    SameOutcome R ((freeText p).run s) ((freeText p).run t) := by
  cases p with
  | none => exact sameOutcome_pure () hR
  | some block => exact h.free block.addr hR

end Text

/-- Comparison of two byte lists up to their terminators. -/
def strcmpBytes : List UInt8 → List UInt8 → ℤ
  | [], [] => 0
  | [], b :: _ => -(b.toNat : ℤ)
  | a :: _, [] => a.toNat
  | a :: as, b :: bs =>
      if a = b then strcmpBytes as bs else (a.toNat : ℤ) - b.toNat

def strcmp (s t : CString) : ℤ := strcmpBytes s.bytes t.bytes

private theorem toNat_pos_of_ne {b : UInt8} (hb : b ≠ 0) : 0 < b.toNat := by
  rcases Nat.eq_zero_or_pos b.toNat with hzero | hpos
  · exact absurd (UInt8.toNat_inj.mp (by simpa using hzero)) hb
  · exact hpos

theorem strcmpBytes_eq_zero_iff {as bs : List UInt8}
    (has : 0 ∉ as) (hbs : 0 ∉ bs) :
    strcmpBytes as bs = 0 ↔ as = bs := by
  induction as generalizing bs with
  | nil =>
      cases bs with
      | nil => simp [strcmpBytes]
      | cons b bs =>
          have hb : b ≠ 0 := by
            rintro rfl
            simp at hbs
          have hpos := toNat_pos_of_ne hb
          simp only [strcmpBytes, reduceCtorEq, iff_false]
          omega
  | cons a as ih =>
      have ha : a ≠ 0 := by
        rintro rfl
        simp at has
      cases bs with
      | nil =>
          have hpos := toNat_pos_of_ne ha
          simp only [strcmpBytes, reduceCtorEq, iff_false]
          omega
      | cons b bs =>
          simp only [List.mem_cons, not_or] at has hbs
          unfold strcmpBytes
          split
          next heq =>
            subst b
            simpa using ih has.2 hbs.2
          next hne =>
            have hnat : a.toNat ≠ b.toNat := by
              intro h
              exact hne (UInt8.toNat_inj.mp h)
            simp only [List.cons.injEq, hne, false_and, iff_false]
            omega

theorem strcmpBytes_neg_iff {as bs : List UInt8}
    (has : 0 ∉ as) (hbs : 0 ∉ bs) :
    strcmpBytes as bs < 0 ↔
      as.map UInt8.toNat < bs.map UInt8.toNat := by
  induction as generalizing bs with
  | nil =>
      cases bs with
      | nil => simp [strcmpBytes]
      | cons b bs =>
          have hb : b ≠ 0 := by
            rintro rfl
            simp at hbs
          have hpos := toNat_pos_of_ne hb
          simp only [strcmpBytes, List.map_nil, List.map_cons,
            List.nil_lt_cons, iff_true]
          omega
  | cons a as ih =>
      cases bs with
      | nil =>
          simp only [strcmpBytes, List.map_nil, List.map_cons,
            List.not_lt_nil, iff_false]
          omega
      | cons b bs =>
          simp only [List.mem_cons, not_or] at has hbs
          rw [List.map_cons, List.map_cons, List.cons_lt_cons_iff]
          unfold strcmpBytes
          split
          next heq =>
            subst b
            simpa using ih has.2 hbs.2
          next hne =>
            have hnat : a.toNat ≠ b.toNat := by
              intro h
              exact hne (UInt8.toNat_inj.mp h)
            simp only [hnat, false_and, or_false]
            omega

theorem strcmpBytes_swap (as bs : List UInt8) :
    strcmpBytes as bs = -strcmpBytes bs as := by
  induction as generalizing bs with
  | nil =>
      cases bs with
      | nil => simp [strcmpBytes]
      | cons b bs => simp [strcmpBytes]
  | cons a as ih =>
      cases bs with
      | nil => simp [strcmpBytes]
      | cons b bs =>
          unfold strcmpBytes
          by_cases hab : a = b
          · subst b
            simpa using ih bs
          · simp [hab, Ne.symm hab]

theorem strcmp_eq_zero_iff (s t : CString) : strcmp s t = 0 ↔ s = t := by
  rw [CString.ext_iff]
  exact strcmpBytes_eq_zero_iff s.noNul t.noNul

theorem strcmp_neg_iff (s t : CString) : strcmp s t < 0 ↔ s < t :=
  strcmpBytes_neg_iff s.noNul t.noNul

theorem strcmp_pos_iff (s t : CString) : 0 < strcmp s t ↔ t < s := by
  rw [← strcmp_neg_iff]
  unfold strcmp
  rw [strcmpBytes_swap s.bytes t.bytes]
  omega

end Fallible
