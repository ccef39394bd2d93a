import CAdvanced.CString

/-!
# Strings in byte buffers

A buffer holds a string where a terminator follows inside the buffer.
`strtok` cuts one after the other the words of such a string out of the buffer
itself: it puts a terminator behind each word and remembers where to go on.
-/

namespace Fallible

/-- The bytes up to the first terminator. -/
def cstr (bytes : List UInt8) : CString where
  bytes := bytes.takeWhile (· ≠ 0)
  noNul := by
    intro hmem
    have hall := List.all_takeWhile (p := (· ≠ 0)) (l := bytes)
    simpa using List.all_eq_true.mp hall 0 hmem

theorem CString.ne_nul (w : CString) {b : UInt8} (hb : b ∈ w.bytes) :
    b ≠ 0 := by
  intro hzero
  exact w.noNul (hzero ▸ hb)

theorem CString.takeWhile_append (w : CString) (rest : List UInt8) :
    (w.bytes ++ rest).takeWhile (· ≠ 0)
      = w.bytes ++ rest.takeWhile (· ≠ 0) := by
  apply List.takeWhile_append_of_pos
  intro b hb
  simpa using w.ne_nul hb

theorem cstr_bytes (w : CString) : cstr w.bytes = w := by
  apply CString.ext
  simpa [cstr] using w.takeWhile_append []

theorem cstr_append (w : CString) (rest : List UInt8) :
    cstr (w.bytes ++ 0 :: rest) = w := by
  apply CString.ext
  simpa [cstr] using w.takeWhile_append (0 :: rest)

/-- The string at a position of a buffer. -/
def textAt (buf : List UInt8) (pos : ℕ) : Option CString :=
  if 0 ∈ buf.drop pos then some (cstr (buf.drop pos)) else none

theorem textAt_append (front : List UInt8) (w : CString)
    (rest : List UInt8) :
    textAt (front ++ (w.bytes ++ 0 :: rest)) front.length = some w := by
  simp [textAt, cstr_append]

theorem textAt_eq_some {buf : List UInt8} {pos : ℕ} {w : CString}
    (h : textAt buf pos = some w) :
    ∃ front rest, buf = front ++ (w.bytes ++ 0 :: rest) ∧
      front.length = pos := by
  unfold textAt at h
  split at h
  next hmem =>
    have hpos : pos ≤ buf.length := by
      by_contra hlt
      rw [List.drop_eq_nil_of_le (by omega)] at hmem
      cases hmem
    obtain ⟨text, rest, hsplit, htext⟩ := List.eq_append_cons_of_mem hmem
    have hw : w = ⟨text, htext⟩ := by
      rw [hsplit] at h
      rw [← Option.some.inj h]
      exact cstr_append ⟨text, htext⟩ rest
    refine ⟨buf.take pos, rest, ?_, List.length_take_of_le hpos⟩
    rw [hw, ← hsplit, List.take_append_drop]
  next => cases h

theorem textAt_set {buf : List UInt8} {pos p : ℕ} {w : CString} {b : UInt8}
    (h : textAt buf pos = some w) (hp : pos + w.bytes.length < p) :
    textAt (buf.set p b) pos = some w := by
  obtain ⟨front, rest, rfl, rfl⟩ := textAt_eq_some h
  rw [List.set_append_right _ _ (by omega),
    List.set_append_right _ _ (by omega),
    show p - front.length - w.bytes.length
      = p - front.length - w.bytes.length - 1 + 1 by omega, List.set_cons_succ]
  exact textAt_append front w _

/-! ## Words -/

abbrev space : UInt8 := 32

/-- The maximal runs without a blank. -/
def byteWords (bytes : List UInt8) : List (List UInt8) :=
  (bytes.splitOn space).filter (fun w => !w.isEmpty)

def words (text : CString) : List CString := (byteWords text.bytes).map cstr

theorem byteWords_append_space (front rest : List UInt8) :
    byteWords (front ++ space :: rest) = byteWords front ++ byteWords rest := by
  rw [byteWords, List.splitOn_append_cons_self, List.filter_append]
  rfl

theorem byteWords_nil : byteWords [] = [] := rfl

theorem byteWords_single {w : List UInt8} (hw : w ≠ [])
    (hspace : space ∉ w) : byteWords w = [w] := by
  rw [byteWords, List.splitOn_eq_singleton hspace]
  simp [hw]

theorem byteWords_spaces (n : ℕ) (rest : List UInt8) :
    byteWords (List.replicate n space ++ rest) = byteWords rest := by
  induction n with
  | zero => rfl
  | succ n ih =>
      rw [List.replicate_succ, List.cons_append]
      exact (byteWords_append_space [] _).trans ih

/-- The shape of a text up to the end of its first word. -/
inductive FirstWord : List UInt8 → Prop
  | none (n : ℕ) : FirstWord (List.replicate n space)
  | last (n : ℕ) (w : List UInt8) (hw : w ≠ []) (hspace : space ∉ w) :
      FirstWord (List.replicate n space ++ w)
  | more (n : ℕ) (w rest : List UInt8) (hw : w ≠ []) (hspace : space ∉ w) :
      FirstWord (List.replicate n space ++ (w ++ space :: rest))

theorem firstWord (bytes : List UInt8) : FirstWord bytes := by
  induction bytes with
  | nil => exact .none 0
  | cons b bytes ih =>
      by_cases hb : b = space
      · subst hb
        cases ih with
        | none n => exact .none (n + 1)
        | last n w hw hspace => exact .last (n + 1) w hw hspace
        | more n w rest hw hspace => exact .more (n + 1) w rest hw hspace
      · by_cases hmem : space ∈ bytes
        · obtain ⟨w, rest, rfl, hspace⟩ := List.eq_append_cons_of_mem hmem
          apply FirstWord.more 0 (b :: w) rest (by simp)
          simp [Ne.symm hb, hspace]
        · apply FirstWord.last 0 (b :: bytes) (by simp)
          simp [Ne.symm hb, hmem]

theorem byteWords_length {bytes w : List UInt8} (h : w ∈ byteWords bytes) :
    w.length ≤ bytes.length := by
  induction hn : bytes.length using Nat.strong_induction_on
    generalizing bytes with
  | _ n ih =>
      subst hn
      cases firstWord bytes with
      | none k =>
          rw [← List.append_nil (List.replicate k space), byteWords_spaces,
            byteWords_nil] at h
          cases h
      | last k v hv hspace =>
          rw [byteWords_spaces, byteWords_single hv hspace,
            List.mem_singleton] at h
          subst h
          simp
      | more k v rest hv hspace =>
          rw [byteWords_spaces, byteWords_append_space,
            byteWords_single hv hspace, List.singleton_append,
            List.mem_cons] at h
          simp only [List.length_append, List.length_cons]
          rcases h with rfl | h
          · omega
          · have hrest := ih rest.length (by simp; omega) h rfl
            omega

theorem cstr_length (bytes : List UInt8) :
    (cstr bytes).bytes.length ≤ bytes.length :=
  (List.takeWhile_sublist _).length_le

theorem words_length {text w : CString} (h : w ∈ words text) :
    w.bytes.length ≤ text.bytes.length := by
  obtain ⟨v, hv, rfl⟩ := List.mem_map.mp h
  exact (cstr_length v).trans (byteWords_length hv)

/-! ## `strtok` -/

/-- How far the bytes behind a position satisfy `p`. -/
def spanFrom (p : UInt8 → Bool) (buf : List UInt8) (pos : ℕ) : ℕ :=
  ((buf.drop pos).takeWhile p).length

/-- The next word from a position on, and where to go on behind it.  A search
that leaves the buffer is a fault. -/
def strtok (pos : ℕ) : Exec (List UInt8) (Option ℕ × ℕ) := do
  let buf ← get
  let start := pos + spanFrom (· = space) buf pos
  match buf[start]? with
  | none => throw .outOfBounds
  | some first =>
      if first = 0 then return (none, start)
      else
        let stop := start + spanFrom (fun b => b ≠ space ∧ b ≠ 0) buf start
        match buf[stop]? with
        | none => throw .outOfBounds
        | some last =>
            if last = 0 then return (some start, stop)
            else do
              set (buf.set stop 0)
              return (some start, stop + 1)

theorem spanFrom_append {p : UInt8 → Bool} (front run : List UInt8)
    {b : UInt8} (rest : List UInt8) (hrun : ∀ c ∈ run, p c)
    (hb : ¬ p b) :
    spanFrom p (front ++ (run ++ b :: rest)) front.length = run.length := by
  rw [spanFrom, List.drop_left, List.takeWhile_append_of_pos hrun,
    List.takeWhile_cons_of_neg hb, List.append_nil]

/-- What one call of `strtok` does to the buffer: a word is cut out, and the
words in front of the old position stay as they are. -/
structure Cut (buf buf' : List UInt8) (start token : ℕ) (w : CString)
    (stop : ℕ) : Prop where
  text : textAt buf' token = some w
  bound : token + w.bytes.length ≤ stop
  kept : ∀ pos v, textAt buf pos = some v →
    pos + v.bytes.length ≤ start → textAt buf' pos = some v

/-- The text that is still to be cut, and what lies behind its terminator. -/
structure Remaining (buf : List UInt8) (pos : ℕ) (text : CString)
    (post : List UInt8) : Prop where
  split : ∃ front, buf = front ++ (text.bytes ++ 0 :: post) ∧
    front.length = pos

theorem cstr_noNul {bytes : List UInt8} (h : 0 ∉ bytes) :
    (cstr bytes).bytes = bytes :=
  congrArg CString.bytes (cstr_bytes ⟨bytes, h⟩)

theorem mem_spaces {n : ℕ} {b : UInt8} (hb : b ∈ List.replicate n space) :
    decide (b = space) = true := by
  simpa using (List.mem_replicate.mp hb).2

theorem getElem?_behind (front w rest : List UInt8) (n : ℕ) (b : UInt8) :
    (front ++ (List.replicate n space ++ (w ++ b :: rest)))[
      front.length + n + w.length]? = some b := by
  have hflat : front ++ (List.replicate n space ++ (w ++ b :: rest))
      = (front ++ (List.replicate n space ++ w)) ++ b :: rest := by
    simp
  have hindex : front.length + n + w.length
      = (front ++ (List.replicate n space ++ w)).length := by
    simp only [List.length_append, List.length_replicate]
    ring
  rw [hflat, hindex, List.getElem?_append_right (le_refl _)]
  simp

theorem set_behind (front w rest : List UInt8) (n : ℕ) (b : UInt8) :
    (front ++ (List.replicate n space ++ (w ++ b :: rest))).set
        (front.length + n + w.length) 0
      = front ++ (List.replicate n space ++ (w ++ 0 :: rest)) := by
  rw [List.set_append_right _ _ (by omega),
    List.set_append_right _ _ (by simp; omega),
    List.set_append_right _ _ (by simp; omega),
    show front.length + n + w.length - front.length
      - (List.replicate n space).length - w.length = 0 by simp; omega]
  rfl

section Strtok

variable {front w rest post : List UInt8} {n : ℕ} {b : UInt8}

theorem returns_strtok_word (hw : w ≠ []) (hspace : space ∉ w)
    (hnul : 0 ∉ w) (hb : b = space ∨ b = 0)
    (Q : Option ℕ × ℕ → List UInt8 → Prop) :
    Returns (strtok front.length)
        (front ++ (List.replicate n space ++ (w ++ b :: rest))) Q ↔
      Q (some (front.length + n),
          front.length + n + w.length + if b = 0 then 0 else 1)
        (front ++ (List.replicate n space ++ (w ++ 0 :: rest))) := by
  obtain ⟨c, w', rfl⟩ := List.exists_cons_of_ne_nil hw
  have hc : ¬ decide (c = space) = true := by
    simp only [decide_eq_true_eq]
    intro heq
    exact hspace (heq ▸ List.mem_cons_self)
  have hzero : c ≠ 0 := by
    intro heq
    exact hnul (heq ▸ List.mem_cons_self)
  have hrun : ∀ d ∈ c :: w', decide (d ≠ space ∧ d ≠ 0) = true := by
    intro d hd
    simp only [decide_eq_true_eq]
    constructor
    · intro heq
      exact hspace (heq ▸ hd)
    · intro heq
      exact hnul (heq ▸ hd)
  have hend : ¬ decide (b ≠ space ∧ b ≠ 0) = true := by
    simp only [decide_eq_true_eq]
    tauto
  have hstart : spanFrom (· = space)
      (front ++ (List.replicate n space ++ (c :: w' ++ b :: rest)))
      front.length = n := by
    have hspan := spanFrom_append (p := (· = space)) front _
      (w' ++ b :: rest) (fun _ hd => mem_spaces (n := n) hd) hc
    simpa using hspan
  have hfirst : (front ++ (List.replicate n space ++ (c :: w' ++ b :: rest)))[
      front.length + n]? = some c := by
    simp
  have hstop : spanFrom (fun d => d ≠ space ∧ d ≠ 0)
      (front ++ (List.replicate n space ++ (c :: w' ++ b :: rest)))
      (front.length + n) = (c :: w').length := by
    have hspan := spanFrom_append
      (front ++ List.replicate n space) (c :: w') rest hrun hend
    simpa only [List.append_assoc, List.length_append,
      List.length_replicate] using hspan
  have hlast := getElem?_behind front (c :: w') rest n b
  have hset := set_behind front (c :: w') rest n b
  simp only [strtok, returns_bind, returns_get, hstart, hfirst, hzero,
    reduceIte, hstop, hlast]
  by_cases hbz : b = 0
  · subst hbz
    simp only [reduceIte, returns_pure, Nat.add_zero]
  · simp only [hbz, reduceIte, returns_bind, returns_set, returns_pure, hset]

theorem returns_strtok_spaces (Q : Option ℕ × ℕ → List UInt8 → Prop) :
    Returns (strtok front.length)
        (front ++ (List.replicate n space ++ 0 :: post)) Q ↔
      Q (none, front.length + n)
        (front ++ (List.replicate n space ++ 0 :: post)) := by
  have hspan := spanFrom_append (p := (· = space)) front _ post
    (fun _ hd => mem_spaces (n := n) hd) (b := 0) (by decide)
  have hget : (front ++ (List.replicate n space ++ 0 :: post))[
      front.length + n]? = some 0 := by
    simp
  rw [List.length_replicate] at hspan
  simp only [strtok, returns_bind, returns_get, hspan, hget, reduceIte,
    returns_pure]

theorem cut_word (hw : w ≠ []) (hnul : 0 ∉ w) {stop : ℕ}
    (hstop : front.length + n + w.length ≤ stop) :
    Cut (front ++ (List.replicate n space ++ (w ++ b :: rest)))
      (front ++ (List.replicate n space ++ (w ++ 0 :: rest)))
      front.length (front.length + n) (cstr w) stop where
  text := by
    have htext := textAt_append (front ++ List.replicate n space) ⟨w, hnul⟩ rest
    rw [← cstr_bytes ⟨w, hnul⟩] at htext
    simpa only [List.append_assoc, List.length_append,
      List.length_replicate, cstr_noNul hnul] using htext
  bound := by
    rw [cstr_noNul hnul]
    exact hstop
  kept := by
    intro pos v hv hpos
    have hlong := List.length_pos_iff.mpr hw
    rw [← set_behind front w rest n b]
    exact textAt_set hv (by omega)

end Strtok

theorem returns_strtok {buf : List UInt8} {pos : ℕ} {text : CString}
    {post : List UInt8} (h : Remaining buf pos text post) :
    Returns (strtok pos) buf (fun r buf' =>
      (r.1 = none ∧ buf' = buf ∧ words text = []) ∨
      (∃ token w stop text', r = (some token, stop) ∧
        words text = w :: words text' ∧
        text'.bytes.length < text.bytes.length ∧
        stop + text'.bytes.length = pos + text.bytes.length ∧
        Remaining buf' stop text' post ∧
        Cut buf buf' pos token w stop)) := by
  obtain ⟨front, rfl, rfl⟩ := h.split
  obtain ⟨bytes, hnul⟩ := text
  have hshape := firstWord bytes
  cases hshape with
  | none n =>
      rw [returns_strtok_spaces]
      have hwords : byteWords (List.replicate n space) = [] := by
        rw [← List.append_nil (List.replicate n space), byteWords_spaces,
          byteWords_nil]
      exact Or.inl ⟨rfl, rfl, by simp [words, hwords]⟩
  | last n w hw hspace =>
      simp only [List.mem_append, not_or] at hnul
      have hwords : byteWords (List.replicate n space ++ w) = [w] := by
        rw [byteWords_spaces, byteWords_single hw hspace]
      simp only [List.append_assoc]
      rw [returns_strtok_word hw hspace hnul.2 (Or.inr rfl)]
      refine Or.inr ⟨_, cstr w, _, ⟨[], by simp⟩, rfl, ?_, ?_, ?_, ?_, ?_⟩
      · simp [words, hwords, byteWords_nil]
      · simp [List.length_pos_iff.mpr hw]
      · simp
        ring
      · exact ⟨front ++ (List.replicate n space ++ w), by simp, by simp; ring⟩
      · exact cut_word hw hnul.2 (le_refl _)
  | more n w rest hw hspace =>
      simp only [List.mem_append, List.mem_cons, not_or] at hnul
      have hwords : byteWords (List.replicate n space ++ (w ++ space :: rest))
          = w :: byteWords rest := by
        rw [byteWords_spaces, byteWords_append_space,
          byteWords_single hw hspace]
        rfl
      simp only [List.append_assoc, List.cons_append]
      rw [returns_strtok_word hw hspace hnul.2.1 (Or.inl rfl),
        if_neg (by decide)]
      refine Or.inr ⟨_, cstr w, _, ⟨rest, hnul.2.2.2⟩, rfl, ?_, ?_, ?_, ?_, ?_⟩
      · simp [words, hwords]
      · simp
        omega
      · simp
        ring
      · exact ⟨front ++ (List.replicate n space ++ (w ++ [0])), by simp,
          by simp; ring⟩
      · exact cut_word hw hnul.2.1 (Nat.le_succ _)

/-- In a buffer without a terminator every call of `strtok` cuts a word or
leaves the buffer. -/
theorem strtok_unterminated {buf : List UInt8} {pos : ℕ}
    (hbuf : 0 ∉ buf.drop pos) {Q : Option ℕ × ℕ → List UInt8 → Prop}
    (h : Returns (strtok pos) buf Q) :
    ∃ token next buf', 0 ∉ buf'.drop next ∧ Q (some token, next) buf' := by
  have hbyte : ∀ (n : ℕ) b, buf[pos + n]? = some b → b ≠ 0 := by
    intro n b hb hzero
    rw [← List.getElem?_drop, hzero] at hb
    exact hbuf (List.mem_of_getElem? hb)
  simp only [strtok, returns_bind, returns_get] at h
  split at h
  next => simp at h
  next first hfirst =>
    simp only [hbyte _ first hfirst, reduceIte] at h
    split at h
    next => simp at h
    next last hlast =>
      rw [Nat.add_assoc] at hlast
      simp only [hbyte _ last hlast, reduceIte, returns_bind, returns_set,
        returns_pure] at h
      refine ⟨_, _, _, ?_, h⟩
      rw [List.drop_set_of_lt (Nat.lt_succ_self _)]
      intro hmem
      exact hbuf (List.drop_subset_drop_left buf (by omega) hmem)

end Fallible
