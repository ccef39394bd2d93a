import CAdvanced.ProtocolProgram

/-!
# The tokens of a request

A receive buffer that holds a text of at most `KVSTORE_MAX_TOKENS` words is
split into exactly these words, and nothing behind the text is touched.
-/

namespace CAdvanced

open Fallible
open Server

/-- The entry `tokens[i]` points to the string `w`. -/
def TokenAt (buf : List UInt8) (tokens : Tokens) (i : ℕ) (w : CString) :
    Prop :=
  ∃ pos, tokens[i]? = some (some pos) ∧ textAt buf pos = some w

/-- The words are stored in the first entries, and in no others. -/
structure Tokenised (buf : List UInt8) (tokens : Tokens)
    (ws : List CString) : Prop where
  size : tokens.length = kvstoreMaxTokens
  stored : ∀ (i : ℕ) w, ws[i]? = some w → TokenAt buf tokens i w
  unset : ∀ i, ws.length ≤ i → i < kvstoreMaxTokens →
    tokens[i]? = some none

theorem Tokenised.length_le {buf : List UInt8} {tokens : Tokens}
    {ws : List CString} (h : Tokenised buf tokens ws) :
    ws.length ≤ kvstoreMaxTokens := by
  by_contra hlt
  have hlast : kvstoreMaxTokens < ws.length := not_le.mp hlt
  obtain ⟨pos, hpos, -⟩ := h.stored kvstoreMaxTokens ws[kvstoreMaxTokens]
    (List.getElem?_eq_getElem hlast)
  rw [List.getElem?_eq_none h.size.le] at hpos
  cases hpos

/-- The words cut so far lie in front of `limit`. -/
structure Splitting (buf : List UInt8) (tokens : Tokens)
    (done : List CString) (limit : ℕ) : Prop where
  tokenised : Tokenised buf tokens done
  before : ∀ (i : ℕ) w, done[i]? = some w → ∃ pos,
    tokens[i]? = some (some pos) ∧ textAt buf pos = some w ∧
      pos + w.bytes.length ≤ limit

/-- The word that was cut last, if any, and the words behind it.  The text
ends at `stop`, and less than `n` bytes of it are left. -/
inductive Pending (buf : List UInt8) (stop : ℕ) (post : List UInt8) :
    ℕ → Option ℕ → ℕ → List CString → Prop
  | ended (n pos : ℕ) (hend : Remaining buf stop default post) :
      Pending buf stop post n none pos []
  | word (n pos token : ℕ) (w text : CString)
      (htext : textAt buf token = some w)
      (hbound : token + w.bytes.length ≤ pos)
      (hrest : Remaining buf pos text post)
      (hstop : pos + text.bytes.length = stop)
      (hshort : text.bytes.length < n) :
      Pending buf stop post n (some token) pos (w :: words text)

section Split

variable {buf buf' : List UInt8} {tokens : Tokens} {done : List CString}
  {limit stop pos token n : ℕ} {w text : CString} {post : List UInt8}
  {s : Server}

theorem Splitting.store (h : Splitting buf tokens done limit)
    (hroom : done.length < kvstoreMaxTokens)
    (htext : textAt buf token = some w)
    (hbound : token + w.bytes.length ≤ limit) :
    Splitting buf (tokens.set done.length (some token)) (done ++ [w])
      limit := by
  have hsize := h.tokenised.size
  have hbefore : ∀ (i : ℕ) v, (done ++ [w])[i]? = some v → ∃ pos,
      (tokens.set done.length (some token))[i]? = some (some pos) ∧
        textAt buf pos = some v ∧ pos + v.bytes.length ≤ limit := by
    intro i v hv
    rcases Nat.lt_trichotomy i done.length with hi | hi | hi
    · rw [List.getElem?_append_left hi] at hv
      rw [List.getElem?_set_ne (by omega)]
      exact h.before i v hv
    · subst hi
      rw [List.getElem?_append_right (le_refl _)] at hv
      have hwv : w = v := by simpa using hv
      subst hwv
      refine ⟨token, ?_, htext, hbound⟩
      rw [List.getElem?_set_self (by omega)]
    · rw [List.getElem?_eq_none (by simp; omega)] at hv
      cases hv
  refine ⟨⟨by rw [List.length_set, hsize], ?_, ?_⟩, hbefore⟩
  · intro i v hv
    obtain ⟨p, hp, hv, -⟩ := hbefore i v hv
    exact ⟨p, hp, hv⟩
  · intro i hi hlt
    rw [List.length_append, List.length_singleton] at hi
    rw [List.getElem?_set_ne (by omega)]
    exact h.tokenised.unset i (by omega) hlt

theorem Splitting.keep (h : Splitting buf tokens done limit)
    (hle : limit ≤ stop)
    (hkept : ∀ p v, textAt buf p = some v → p + v.bytes.length ≤ limit →
      textAt buf' p = some v) :
    Splitting buf' tokens done stop := by
  have hbefore : ∀ (i : ℕ) v, done[i]? = some v → ∃ pos,
      tokens[i]? = some (some pos) ∧ textAt buf' pos = some v ∧
        pos + v.bytes.length ≤ stop := by
    intro i v hv
    obtain ⟨p, hp, htext, hbound⟩ := h.before i v hv
    exact ⟨p, hp, hkept p v htext hbound, hbound.trans hle⟩
  refine ⟨⟨h.tokenised.size, ?_, h.tokenised.unset⟩, hbefore⟩
  intro i v hv
  obtain ⟨p, hp, htext, -⟩ := hbefore i v hv
  exact ⟨p, hp, htext⟩

theorem remaining_ended (h : Remaining buf pos text post) :
    Remaining buf (pos + text.bytes.length) default post := by
  obtain ⟨front, rfl, rfl⟩ := h.split
  refine ⟨front ++ text.bytes, ?_, List.length_append⟩
  change _ = front ++ text.bytes ++ ([] ++ 0 :: post)
  simp

/-- One more word is cut, and the words cut before are kept. -/
theorem returns_strtokRbuffer (h : Remaining buf pos text post)
    (hsplit : Splitting buf tokens done pos) :
    Returns (strtokRbuffer pos) (withRbuffer buf s) (fun r s' =>
      ∃ buf' limit, s' = withRbuffer buf' s ∧
        Splitting buf' tokens done limit ∧
        (r.1.isSome → limit = r.2) ∧
        Pending buf' (pos + text.bytes.length) post text.bytes.length r.1 r.2
          (words text)) := by
  rw [strtokRbuffer, returns_within]
  apply (returns_strtok h).mono
  intro r buf' hr
  rcases hr with ⟨hnone, rfl, hwords⟩ |
    ⟨token, w, next, text', rfl, hwords, hshort, hstop, hrest, hcut⟩
  · rw [hwords, hnone]
    exact ⟨buf', pos, rfl, hsplit, by simp, .ended _ _ (remaining_ended h)⟩
  · rw [hwords]
    refine ⟨buf', next, rfl, hsplit.keep (by omega) hcut.kept, fun _ => rfl,
      ?_⟩
    exact .word _ _ _ w text' hcut.text hcut.bound hrest hstop hshort

/-- The words cut so far, and the words that are still to come. -/
structure SplitLoop (s : Server) (text : CString) (post : List UInt8) (n : ℕ)
    (x : SplitState) (s' : Server) : Prop where
  cut : ∃ buf done rest limit, s' = withRbuffer buf s ∧
    Splitting buf x.tokens done limit ∧ x.index = done.length ∧
    words text = done ++ rest ∧ (x.token.isSome → limit = x.pos) ∧
    Pending buf text.bytes.length post n x.token x.pos rest

theorem splitting_empty :
    Splitting buf (List.replicate kvstoreMaxTokens none) [] 0 := by
  refine ⟨⟨by simp, by simp, ?_⟩, by simp⟩
  intro i _ hi
  simp [hi]

theorem returns_splitFirst (hbuf : s.item.rbuffer = text.bytes ++ 0 :: post) :
    Returns (strtokRbuffer 0) s (fun r s' =>
      SplitLoop s text post text.bytes.length
        ⟨r.1, r.2, 0, List.replicate kvstoreMaxTokens none⟩ s') := by
  have hstart : Remaining s.item.rbuffer 0 text post :=
    ⟨[], by simpa using hbuf, rfl⟩
  apply (returns_strtokRbuffer (s := s) hstart splitting_empty).mono
  intro r s' hr
  obtain ⟨buf, limit, rfl, hsplit, hlimit, hpending⟩ := hr
  rw [Nat.zero_add] at hpending
  exact ⟨buf, [], words text, limit, rfl, hsplit, rfl, rfl, hlimit, hpending⟩

theorem SplitLoop.returns_splitStep {x : SplitState} {s' : Server}
    (h : SplitLoop s text post n x s')
    (hroom : x.token.isSome → x.index < kvstoreMaxTokens) :
    Returns (splitStep x) s' (fun r s'' =>
      match r with
      | .inl next => ∃ n' < n, SplitLoop s text post n' next s''
      | .inr answer => ∃ buf, s'' = withRbuffer buf s ∧
          answer.1 = (words text).length ∧
          Tokenised buf answer.2 (words text) ∧
          Remaining buf text.bytes.length default post) := by
  obtain ⟨token, pos, index, tokens⟩ := x
  obtain ⟨buf, done, rest, limit, rfl, hsplit, hindex, hwords, hlimit,
    hpending⟩ := h.cut
  simp only at hindex hsplit hlimit hpending hroom
  subst hindex
  cases hpending with
  | ended _ hend =>
      simp only [splitStep, returns_pure]
      rw [List.append_nil] at hwords
      rw [hwords]
      exact ⟨buf, rfl, rfl, hsplit.tokenised, hend⟩
  | word _ token w text' htext hbound hrest hstop hshort =>
      have hlimit : limit = pos := hlimit rfl
      subst hlimit
      have hspace : done.length < kvstoreMaxTokens := hroom rfl
      have hinside : done.length < tokens.length := by
        rw [hsplit.tokenised.size]
        exact hspace
      simp only [splitStep, storeToken, hinside, reduceIte, returns_bind,
        returns_pure]
      apply (returns_strtokRbuffer (s := s) hrest
        (hsplit.store hspace htext hbound)).mono
      intro r s₃ hr
      obtain ⟨buf₃, limit₃, rfl, hsplit₃, hlimit₃, hpending₃⟩ := hr
      rw [hstop] at hpending₃
      exact ⟨text'.bytes.length, hshort, buf₃, done ++ [w], words text',
        limit₃, rfl, hsplit₃, by simp, by simp [hwords], hlimit₃, hpending₃⟩

theorem SplitLoop.index_eq {x : SplitState} {s' : Server}
    (h : SplitLoop s text post n x s') (htoken : x.token = none) :
    x.index = (words text).length := by
  obtain ⟨buf, done, rest, limit, -, -, hindex, hwords, -, hpending⟩ := h.cut
  rw [htoken] at hpending
  cases hpending
  rw [hwords, List.append_nil, hindex]

theorem SplitLoop.index_lt {x : SplitState} {s' : Server}
    (h : SplitLoop s text post n x s') (htoken : x.token.isSome) :
    x.index < (words text).length := by
  obtain ⟨token, pos, index, tokens⟩ := x
  obtain ⟨buf, done, rest, limit, -, -, hindex, hwords, -, hpending⟩ := h.cut
  simp only at hindex hpending htoken ⊢
  cases hpending with
  | ended => cases htoken
  | word =>
      rw [hwords, List.length_append, List.length_cons, hindex]
      omega

theorem SplitLoop.size {x : SplitState} {s' : Server}
    (h : SplitLoop s text post n x s') : x.tokens.length = kvstoreMaxTokens := by
  obtain ⟨buf, done, rest, limit, -, hsplit, -⟩ := h.cut
  exact hsplit.tokenised.size

theorem SplitLoop.index_le {x : SplitState} {s' : Server}
    (h : SplitLoop s text post n x s') : x.index ≤ kvstoreMaxTokens := by
  obtain ⟨buf, done, rest, limit, -, hsplit, hindex, -⟩ := h.cut
  rw [hindex]
  exact hsplit.tokenised.length_le

theorem returns_kvstoreSplitToken
    (hbuf : s.item.rbuffer = text.bytes ++ 0 :: post)
    (hcount : (words text).length ≤ kvstoreMaxTokens) :
    Returns (kvstoreSplitToken (List.replicate kvstoreMaxTokens none)) s
      (fun r s' => ∃ buf', s' = withRbuffer buf' s ∧
        r.1 = (words text).length ∧ Tokenised buf' r.2 (words text) ∧
        Remaining buf' text.bytes.length default post) := by
  have hlength : text.bytes.length ≤ s.item.rbuffer.length := by
    rw [hbuf, List.length_append]
    omega
  simp only [kvstoreSplitToken, returns_bind, returns_get]
  apply (returns_splitFirst hbuf).mono
  intro r s₁ hr
  refine iterate_returns (fun n x s₂ => SplitLoop s text post n x s₂) ?_ hr
    (Nat.lt_succ_of_le hlength)
  intro n x s₂ hinv
  have hroom : x.token.isSome → x.index < kvstoreMaxTokens :=
    fun htoken => (hinv.index_lt htoken).trans_le hcount
  apply (hinv.returns_splitStep hroom).mono
  intro r s₃ hr
  cases r with
  | inl next => exact hr
  | inr answer => exact hr

/-- The array is too short for more words. -/
theorem not_returns_kvstoreSplitToken
    (hbuf : s.item.rbuffer = text.bytes ++ 0 :: post)
    (hcount : kvstoreMaxTokens < (words text).length)
    (Q : ℕ × Tokens → Server → Prop) :
    ¬ Returns (kvstoreSplitToken (List.replicate kvstoreMaxTokens none))
      s Q := by
  simp only [kvstoreSplitToken, returns_bind, returns_get]
  intro h
  obtain ⟨r, s₁, hrun, hr⟩ := returns_splitFirst (s := s) hbuf
  have hloop := h.of_run hrun
  refine not_returns_iterate (fun x s₂ => ∃ n, SplitLoop s text post n x s₂)
    ?_ ⟨_, hr⟩ Q hloop
  intro x s₂ hinv Q hbody
  obtain ⟨n, hinv⟩ := hinv
  have hsize := hinv.size
  cases htoken : x.token with
  | none =>
      have hend := hinv.index_eq htoken
      have hfits := hinv.index_le
      omega
  | some token =>
      by_cases hroom : x.index < kvstoreMaxTokens
      · obtain ⟨r, s₃, -, hnext, hQ⟩ :=
          (hinv.returns_splitStep (fun _ => hroom)).and hbody
        cases r with
        | inl next =>
            obtain ⟨n', -, hnext⟩ := hnext
            exact ⟨next, s₃, ⟨n', hnext⟩, hQ⟩
        | inr answer =>
            obtain ⟨buf, -, -, htokens, -⟩ := hnext
            exact absurd htokens.length_le (by omega)
      · have hfull : ¬ x.index < x.tokens.length := by omega
        simp only [splitStep, htoken, storeToken, hfull, reduceIte,
          returns_bind, returns_throw] at hbody

end Split

end CAdvanced
