import Mathlib
import ACENetwork.Proofs.Irc.Messages
import ACENetwork.Spec.Irc.ModuleParser

/-! Frames that come in several blocks. What is behind the cut is lost without crunching, and the
record keeps all of the frame exactly if the first block reaches to the end of its last word. -/

namespace ACENetwork.Irc

open Flex Bison Parser ModuleParser

variable {c c' : Start} {b b' w rest : List UInt8} {n m : ℕ} {record record' : Record}
  {stack : List (ℕ × Value)} {look : Look Token Value} {k : Token} {v : Value} {ps : List (List UInt8)}
  {command : Command} {p : Prefix}

theorem behindWords_nil (calls : ℕ) (c : Start) (n : ℕ) : behindWords calls c [] n = n := by
  cases calls with
  | zero => rfl
  | succ calls => simp [behindWords, scan]

theorem behindWords_select {calls : ℕ} {name : RuleName} (hb : b ≠ [])
    (hs : select rules c b = some (name, m)) : behindWords (calls + 1) c b n =
      match name.token with
      | none => behindWords calls (name.next c) (b.drop m) n
      | some k =>
        if k = .end_ then n
        else behindWords calls (name.next c) (b.drop m) (if isWord k then (b.drop m).length else n) := by
  rw [behindWords, scan_select hb hs]
  cases hk : name.token with
  | none =>
    obtain ⟨n', hact⟩ := act_none hk (b.take m) 0
    rw [hact]
  | some k => rw [act_some hk (take_ne_nil hb hs)]

theorem behindWords_calls {calls calls' : ℕ} (h : b.length ≤ calls) (h' : b.length ≤ calls') :
    behindWords calls c b n = behindWords calls' c b n := by
  induction calls generalizing calls' c b n with
  | zero =>
    obtain rfl : b = [] := List.length_eq_zero_iff.1 (Nat.le_zero.1 h)
    rw [behindWords_nil, behindWords_nil]
  | succ calls ih =>
    by_cases hb : b = []
    · subst hb
      rw [behindWords_nil, behindWords_nil]
    · obtain ⟨name, m, hs, hpos, hm⟩ := select_pos c hb
      obtain ⟨calls', rfl⟩ : ∃ i, calls' = i + 1 := by
        have hlen := List.length_pos_iff.2 hb
        exact ⟨calls' - 1, by omega⟩
      have hdrop : (b.drop m).length ≤ calls := by rw [List.length_drop]; omega
      have hdrop' : (b.drop m).length ≤ calls' := by rw [List.length_drop]; omega
      have hsame (n : ℕ) : behindWords calls (name.next c) (b.drop m) n =
          behindWords calls' (name.next c) (b.drop m) n := ih hdrop hdrop'
      rw [behindWords_select hb hs, behindWords_select hb hs]
      simp only [hsame]

/-- How many octets stand behind the last word, `n` if there is none. -/
def behind (c : Start) (b : List UInt8) (n : ℕ) : ℕ := behindWords b.length c b n

theorem behind_select {name : RuleName} (hb : b ≠ []) (hs : select rules c b = some (name, m)) :
    behind c b n = match name.token with
      | none => behind (name.next c) (b.drop m) n
      | some k =>
        if k = .end_ then n
        else behind (name.next c) (b.drop m) (if isWord k then (b.drop m).length else n) := by
  obtain ⟨hpos, hm⟩ := select_bounds hb hs
  have hcalls : b.length = (b.length - 1) + 1 := by omega
  have hlen : (b.drop m).length ≤ b.length - 1 := by
    rw [List.length_drop]
    omega
  have hsame (n : ℕ) : behindWords (b.length - 1) (name.next c) (b.drop m) n =
      behind (name.next c) (b.drop m) n := behindWords_calls hlen le_rfl
  rw [behind, hcalls, behindWords_select hb hs]
  simp only [hsame]

theorem Call.behind (h : Call c b k v c' b') : behind c b n =
    if k = .end_ then n else behind c' b' (if isWord k then b'.length else n) := by
  induction h generalizing n with
  | nil => exact behindWords_nil _ _ _
  | token hb hs hk => rw [behind_select hb hs, hk]
  | more hb hs hk _ ih =>
    rw [behind_select hb hs, hk]
    exact ih

theorem behind_le (c : Start) (b : List UInt8) (n : ℕ) : behind c b n = n ∨ behind c b n < b.length := by
  induction hlen : b.length using Nat.strong_induction_on generalizing c b n with
  | _ len ih =>
    obtain ⟨k, v, c', b', h⟩ := Call.exists c b
    rw [h.behind]
    by_cases hk : k = .end_
    · exact Or.inl (if_pos hk)
    · rw [if_neg hk]
      have hlt := h.length_lt hk
      rcases ih _ (hlen ▸ hlt) c' b' (if isWord k then b'.length else n) rfl with heq | hbehind
      · rw [heq]
        split_ifs with hword
        · exact Or.inr (hlen ▸ hlt)
        · exact Or.inl rfl
      · exact Or.inr (by omega)

theorem Call.behind_of_end (h : Call c b .end_ v c' b') : Irc.behind c b n = n := by
  rw [h.behind, if_pos rfl]

theorem Call.behind_of_word (h : Call c b k v c' b') (hk : isWord k = true) :
    Irc.behind c b n = Irc.behind c' b' b'.length := by
  have hend : k ≠ .end_ := by
    rintro rfl
    cases hk
  rw [h.behind, if_neg hend, if_pos hk]

theorem Call.behind_of_mark (h : Call c b k v c' b') (hend : k ≠ .end_) (hk : isWord k = false) :
    Irc.behind c b n = Irc.behind c' b' n := by
  rw [h.behind, if_neg hend, if_neg (by simp [hk])]

theorem Call.behind_lt (h : Call c b k v c' b') (hk : isWord k = true) (hlen : b'.length < rest.length) :
    Irc.behind c b n < rest.length := by
  rw [h.behind_of_word hk]
  rcases behind_le c' b' b'.length with heq | hlt
  · omega
  · omega

theorem Ended.behind (h : Ended c b) : Irc.behind c b n = n := by
  obtain ⟨c₁, b₁, c₂, b₂, h₁, -⟩ := h
  exact h₁.behind_of_end

theorem Ended.params (h : Ended c b) : Params c b [] := by
  obtain ⟨c₁, b₁, c₂, b₂, h₁, h₂⟩ := h
  exact ⟨_, _, _, .stop (by simp) h₁, rfl, c₂, b₂, h₂⟩

theorem Ended.cut (h : Ended c (b ++ rest)) (hrest : rest ≠ []) : Ended c b := by
  obtain ⟨c₁, b₁, c₂, b₂, h₁, h₂⟩ := h
  cases h₁.cut hrest with
  | ended _ h => exact h
  | spaces _ hk => cases hk
  | text _ htext => simp [texts] at htext
  | @within b' hleft h =>
    subst hleft
    cases h₂.cut hrest with
    | within _ h' => exact ⟨_, _, _, _, h, h'⟩
    | ended _ h' =>
      obtain ⟨c₃, b₃, -, -, h₃, -⟩ := h'
      exact ⟨_, _, _, _, h, h₃⟩
    | spaces _ hk => cases hk
    | text _ htext => simp [texts] at htext

theorem params_space (h : Call c b .space v c' b') : Params c b ps ↔ Params c' b' ps := by
  have hmp {ps : List (List UInt8)} (hps : Params c' b' ps) : Params c b ps := by
    obtain ⟨look, c₁, b₁, ht, hend⟩ := hps
    exact ⟨look, c₁, b₁, .space h ht, hend⟩
  refine ⟨fun hps => ?_, hmp⟩
  obtain ⟨look, c₁, b₁, ht, hend⟩ := hps
  cases ht with
  | stop hk h' =>
    obtain ⟨rfl, -⟩ := h.unique h'
    simp at hk
  | space h' ht =>
    obtain ⟨-, -, rfl, rfl⟩ := h.unique h'
    exact ⟨_, _, _, ht, hend⟩
  | param h' => cases (h.unique h').1
  | colon h' => cases (h.unique h').1
  | trailing h' => cases (h.unique h').1

theorem params_param (h : Call c b .param (.sval w) c' b') : Params c b (w :: ps) ↔ Params c' b' ps := by
  constructor
  · intro hps
    obtain ⟨look, c₁, b₁, ht, hend⟩ := hps
    cases ht with
    | space h' => cases (h.unique h').1
    | param h' ht =>
      obtain ⟨-, -, rfl, rfl⟩ := h.unique h'
      exact ⟨_, _, _, ht, hend⟩
    | trailing h' => cases (h.unique h').1
  · intro hps
    obtain ⟨look, c₁, b₁, ht, hend⟩ := hps
    exact ⟨look, c₁, b₁, .param h ht, hend⟩

theorem params_trailing (h : Call c b .colon v c' b') {c₁ : Start} {b₁ : List UInt8}
    (h₁ : Call c' b' .param (.sval w) c₁ b₁) (hend : Ended c₁ b₁) : Params c b [w] :=
  ⟨_, _, _, .trailing h h₁, hend⟩

theorem Tail.behind (ht : Tail c b ps look c' b') (hend : Finished look c' b') :
    if ps = [] then Irc.behind c b n = n else Irc.behind c b n < b.length := by
  induction ht generalizing n with
  | stop hk h =>
    obtain ⟨rfl, -⟩ := hend
    exact h.behind_of_end
  | @space c c₁ c' b b₁ b' v ps look h _ ih =>
    have hlt := h.length_lt (by simp)
    have hrest := ih hend (n := n)
    rw [h.behind_of_mark (by simp) rfl]
    split_ifs at hrest ⊢ with hps
    · exact hrest
    · omega
  | param h => exact h.behind_lt rfl (h.length_lt (by simp))
  | colon h hk h₁ =>
    obtain ⟨rfl, -⟩ := hend
    rw [if_pos rfl, h.behind_of_mark (by simp) rfl]
    exact h₁.behind_of_end
  | @trailing c c₁ c' b b₁ b' w v h h₁ =>
    have hlt := h.length_lt (by simp)
    rw [if_neg (by simp), h.behind_of_mark (by simp) rfl]
    exact (h₁.behind_lt rfl (h₁.length_lt (by simp))).trans hlt

/-- A text that ends where the cut is has no parameters. The whole of it has some if it has a word
behind the cut. -/
theorem Tail.behind_iff (ht : Tail c b ps look c' b') (hend : Finished look c' b')
    (hlen : b.length < rest.length) (hn : rest.length ≤ n) : ps = [] ↔ rest.length ≤ Irc.behind c b n := by
  have hbehind := ht.behind hend (n := n)
  split_ifs at hbehind with hps
  · simp only [hps, hbehind, hn]
  · refine iff_of_false hps ?_
    omega

theorem Params.eq_nil_iff (h : Params c b []) : Params c b ps ↔ ps = [] := by
  constructor
  · intro h'
    exact h'.unique h
  · intro hps
    rwa [hps]

/-- Without parameters in front of the cut there are none in the whole that is read, if nothing but
the end is. -/
theorem cut_stop {v : Value} (h : Call c (b ++ rest) k v c' b') (hend : Finished (.token k v) c' b')
    (hrest : rest ≠ []) (hn : rest.length ≤ n) :
    Params c b [] ↔ rest.length ≤ Irc.behind c (b ++ rest) n := by
  obtain ⟨rfl, c₂, b₂, h₂⟩ := hend
  obtain rfl : v = .none := h.typed
  have hended : Ended c (b ++ rest) := ⟨_, _, _, _, h, h₂⟩
  rw [hended.behind]
  exact iff_of_true (hended.cut hrest).params hn

theorem cut_space {c₁ : Start} {b₁ : List UInt8} {v : Value} (h : Call c (b ++ rest) .space v c₁ b₁)
    (ht : Tail c₁ b₁ ps look c' b') (hend : Finished look c' b') (hrest : rest ≠ []) (hn : rest.length ≤ n)
    (ih : ∀ x, b₁ = x ++ rest → (Params c₁ x ps ↔ rest.length ≤ Irc.behind c₁ b₁ n)) :
    Params c b ps ↔ rest.length ≤ Irc.behind c (b ++ rest) n := by
  rw [h.behind_of_mark (by simp) rfl]
  cases h.cut hrest with
  | within hleft h' => exact (params_space h').trans (ih _ hleft)
  | ended hlen hended => exact hended.params.eq_nil_iff.trans (ht.behind_iff hend hlen hn)
  | spaces hlen _ h' =>
    rw [params_space h', (ended_nil _).params.eq_nil_iff]
    exact ht.behind_iff hend hlen hn
  | text _ htext => simp [texts] at htext

/-- A parameter that goes on behind the cut is another one in front of it. -/
theorem cut_param {c₁ : Start} {b₁ : List UInt8} (h : Call c (b ++ rest) .param (.sval w) c₁ b₁)
    (hrest : rest ≠ [])
    (ih : ∀ x, b₁ = x ++ rest → (Params c₁ x ps ↔ rest.length ≤ Irc.behind c₁ b₁ b₁.length)) :
    Params c b (w :: ps) ↔ rest.length ≤ Irc.behind c (b ++ rest) n := by
  cases h.cut hrest with
  | within hleft h' =>
    rw [h.behind_of_word rfl]
    exact (params_param h').trans (ih _ hleft)
  | ended hlen hended =>
    refine iff_of_false (fun hps => ?_) (not_le.2 (h.behind_lt rfl hlen))
    cases hps.unique hended.params
  | spaces _ hk => cases hk
  | text hlen _ hv hne h' =>
    refine iff_of_false (fun hps => ?_) (not_le.2 (h.behind_lt rfl hlen))
    obtain rfl := Value.sval.inj hv
    have heq := hps.unique ((params_param h').2 (ended_nil _).params)
    exact hne (List.cons.inj heq).1.symm

theorem cut_colon {c₁ : Start} {b₁ : List UInt8} {v v₁ : Value} (h : Call c (b ++ rest) .colon v c₁ b₁)
    (h₁ : Call c₁ b₁ k v₁ c' b') (hend : Finished (.token k v₁) c' b') (hrest : rest ≠ [])
    (hn : rest.length ≤ n) : Params c b [] ↔ rest.length ≤ Irc.behind c (b ++ rest) n := by
  obtain ⟨rfl, c₂, b₂, h₂⟩ := hend
  obtain rfl : v₁ = .none := h₁.typed
  have hended : Ended c₁ b₁ := ⟨_, _, _, _, h₁, h₂⟩
  rw [h.behind_of_mark (by simp) rfl, hended.behind]
  refine iff_of_true ?_ hn
  cases h.cut hrest with
  | within hleft h' =>
    subst hleft
    obtain ⟨c₃, b₃, c₄, b₄, h₃, h₄⟩ := hended.cut hrest
    exact ⟨_, _, _, .colon h' (by simp) h₃, rfl, c₄, b₄, h₄⟩
  | ended _ hended => exact hended.params
  | spaces _ hk => cases hk
  | text _ htext => simp [texts] at htext

theorem cut_trailing_within {c₁ : Start} {b₁ : List UInt8} {v : Value} (h : Call c b .colon v c₁ b₁)
    (h₁ : Call c₁ (b₁ ++ rest) .param (.sval w) c' b') (hend : Ended c' b') (hrest : rest ≠ []) :
    Params c b [w] ↔ rest.length ≤ Irc.behind c₁ (b₁ ++ rest) n := by
  cases h₁.cut hrest with
  | @within y hleft h₁' =>
    subst hleft
    rw [h₁.behind_of_word rfl, hend.behind]
    exact iff_of_true (params_trailing h h₁' (hend.cut hrest)) (by simp)
  | ended hlen hended =>
    refine iff_of_false (fun hps => ?_) (not_le.2 (h₁.behind_lt rfl hlen))
    obtain ⟨c₂, b₂, c₃, b₃, h₂, h₃⟩ := hended
    have hnone : Params c b [] := ⟨_, _, _, .colon h (by simp) h₂, rfl, c₃, b₃, h₃⟩
    cases hps.unique hnone
  | spaces _ hk => cases hk
  | text hlen _ hv hne h₁' =>
    refine iff_of_false (fun hps => ?_) (not_le.2 (h₁.behind_lt rfl hlen))
    obtain rfl := Value.sval.inj hv
    have heq := hps.unique (params_trailing h h₁' (ended_nil _))
    exact hne (List.singleton_inj.1 heq).symm

theorem cut_trailing {c₁ : Start} {b₁ : List UInt8} {v : Value} (h : Call c (b ++ rest) .colon v c₁ b₁)
    (h₁ : Call c₁ b₁ .param (.sval w) c' b') (hend : Ended c' b') (hrest : rest ≠ []) :
    Params c b [w] ↔ rest.length ≤ Irc.behind c (b ++ rest) n := by
  rw [h.behind_of_mark (by simp) rfl]
  cases h.cut hrest with
  | within hleft h' =>
    subst hleft
    exact cut_trailing_within h' h₁ hend hrest
  | ended hlen hended =>
    have hlen₁ := h₁.length_le
    refine iff_of_false (fun hps => ?_) (not_le.2 (h₁.behind_lt rfl (by omega)))
    cases hps.unique hended.params
  | spaces _ hk => cases hk
  | text _ htext => simp [texts] at htext

/-- The parameters survive exactly if no word goes on or stands behind the cut. The induction is on
how the whole of the text is read; each of its tokens is in front of the cut, or ends the part in
front of it. -/
theorem Tail.cut (ht : Tail c (b ++ rest) ps look c' b') (hend : Finished look c' b') (hrest : rest ≠ [])
    (hn : rest.length ≤ n) : Params c b ps ↔ rest.length ≤ Irc.behind c (b ++ rest) n := by
  generalize htext : b ++ rest = text at ht
  induction ht generalizing b n with
  | stop hk h =>
    subst htext
    exact cut_stop h hend hrest hn
  | space h ht ih =>
    subst htext
    exact cut_space h ht hend hrest hn fun x hx => ih hend hn hx.symm
  | param h ht ih =>
    subst htext
    refine cut_param h hrest fun x hx => ih hend ?_ hx.symm
    rw [hx, List.length_append]
    exact Nat.le_add_left _ _
  | colon h hk h₁ =>
    subst htext
    exact cut_colon h h₁ hend hrest hn
  | trailing h h₁ =>
    subst htext
    exact cut_trailing h h₁ hend hrest

theorem CommandCall.call (h : CommandCall c b command c' b') : ∃ k v, Call c b k v c' b' ∧ isWord k = true := by
  cases h with
  | string h => exact ⟨_, _, h, rfl⟩
  | numeric h => exact ⟨_, _, h, rfl⟩

theorem CommandCall.cut (h : CommandCall c (b ++ rest) command c' b') (hrest : rest ≠ []) :
    (∃ x, b' = x ++ rest ∧ CommandCall c b command c' x) ∨
      b'.length < rest.length ∧
        (Ended c b ∨ ∃ command', command' ≠ command ∧ CommandCall c b command' c' []) := by
  cases h with
  | string h =>
    cases h.cut hrest with
    | within hleft h' => exact Or.inl ⟨_, hleft, .string h'⟩
    | ended hlen hended => exact Or.inr ⟨hlen, Or.inl hended⟩
    | spaces _ hk => cases hk
    | text hlen _ hv hne h' =>
      obtain rfl := Value.sval.inj hv
      exact Or.inr ⟨hlen, Or.inr ⟨_, fun heq => hne (Command.string.inj heq), .string h'⟩⟩
  | numeric h =>
    cases h.cut hrest with
    | within hleft h' => exact Or.inl ⟨_, hleft, .numeric h'⟩
    | ended hlen hended => exact Or.inr ⟨hlen, Or.inl hended⟩
    | spaces _ hk => cases hk
    | text _ htext => simp [texts] at htext

theorem not_accepts_ended (hst : stack = [] ∨ stack = [(6, .none)]) (h : Ended c b)
    (hne : record'.command ≠ record.command) : ¬ Accepts ⟨stack, .empty, ⟨c, b, n, record'⟩⟩ record := by
  obtain ⟨c₁, b₁, -, -, h₁, -⟩ := h
  intro haccepts
  rcases hst with rfl | rfl
  · exact hne (congrArg Record.command ((accepts_empty h₁).1 haccepts).1)
  · have hreads := reads_command (Or.inr rfl)
    obtain ⟨n', hhalts⟩ := halts_call hreads h₁ n
    exact not_accepts_error hreads rfl ((accepts_congr (hhalts record') record).1 haccepts)

theorem Body.cut (h : Body c (b ++ rest) command ps) (hrest : rest ≠ [])
    (hst : stack = [] ∨ stack = [(6, .none)]) (hr : record'.command = .invalid) (hps : record'.parameters = []) :
    Accepts ⟨stack, .empty, ⟨c, b, n, record'⟩⟩ { record' with command := command, parameters := ps } ↔
      rest.length ≤ Irc.behind c (b ++ rest) m := by
  obtain ⟨c₁, b₁, hcommand, hparams⟩ := h
  obtain ⟨k, v, hcall, hk⟩ := hcommand.call
  rcases hcommand.cut hrest with ⟨x, rfl, h'⟩ | ⟨hlen, hcut⟩
  · obtain ⟨look, c', b', ht, hend⟩ := hparams
    rw [hcall.behind_of_word hk, ← ht.cut hend hrest (by simp), h'.accepts hst hr]
    constructor
    · intro haccepts
      obtain ⟨ps', hps', hrecord⟩ := haccepts
      obtain rfl : ps = ps' := by simpa [hps] using congrArg Record.parameters hrecord
      exact hps'
    · intro hps'
      exact ⟨ps, hps', by simp [hps]⟩
  · refine iff_of_false (fun haccepts => ?_) (not_le.2 (hcall.behind_lt hk hlen))
    rcases hcut with hended | ⟨command', hne, h'⟩
    · exact not_accepts_ended hst hended (hr ▸ hcommand.ne_invalid.symm) haccepts
    · obtain ⟨ps', -, hrecord⟩ := (h'.accepts hst hr).1 haccepts
      exact hne (congrArg Record.command hrecord).symm

theorem Body.behind_lt (h : Body c b command ps) : Irc.behind c b n < b.length := by
  obtain ⟨c', b', hcommand, -⟩ := h
  obtain ⟨k, v, hcall, hk⟩ := hcommand.call
  refine hcall.behind_lt hk (hcall.length_lt ?_)
  rintro rfl
  cases hk

theorem ExtPrefix.behind (hp : ExtPrefix c b p c' b') (n : ℕ) :
    ∃ n', Irc.behind c b n = Irc.behind c' b' n' := by
  induction hp generalizing n with
  | space h => exact ⟨n, h.behind_of_mark (by simp) rfl⟩
  | @part c c₁ c₂ c' b b₁ b₂ b' w v p x h h₁ _ ih =>
    obtain ⟨n', hrest⟩ := ih b₂.length
    refine ⟨n', ?_⟩
    rw [h.behind_of_mark (by cases x <;> simp [Part.mark]) (by cases x <;> rfl),
      h₁.behind_of_word (by cases x <;> rfl), hrest]

theorem ExtPrefix.length_le (hp : ExtPrefix c b p c' b') : b'.length ≤ b.length := by
  induction hp with
  | space h => exact h.length_le
  | part x h h₁ _ ih => exact ih.trans (h₁.length_le.trans h.length_le)

/-- What follows the origin is the same, or it ends in a SPACE, or it is none. -/
theorem ExtPrefix.cut (hp : ExtPrefix c (b ++ rest) p c' b') (hrest : rest ≠ []) :
    (∃ x, b' = x ++ rest ∧ ExtPrefix c b p c' x) ∨
      b'.length < rest.length ∧ ((∃ p', ExtPrefix c b p' c' []) ∨ Stops c b) := by
  generalize htext : b ++ rest = text at hp
  induction hp generalizing b with
  | space h =>
    subst htext
    cases h.cut hrest with
    | within hleft h' => exact Or.inl ⟨_, hleft, .space h'⟩
    | ended hlen hended =>
      obtain ⟨c₁, b₁, -, -, h₁, -⟩ := hended
      exact Or.inr ⟨hlen, Or.inr (.of_call h₁ (by simp))⟩
    | spaces hlen _ h' => exact Or.inr ⟨hlen, Or.inl ⟨_, .space h'⟩⟩
    | text _ htext => simp [texts] at htext
  | @part c c₁ c₂ c' text b₁ b₂ b' w v p x h h₁ hp ih =>
    subst htext
    have hmark : x.mark ∉ texts := by cases x <;> decide
    have hspace : x.mark ≠ .space := by cases x <;> simp [Part.mark]
    have hlen₂ := hp.length_le
    have hlen₁ := h₁.length_le
    cases h.cut hrest with
    | within hleft h' =>
      subst hleft
      cases h₁.cut hrest with
      | within hleft h₁' =>
        subst hleft
        rcases ih rfl with ⟨y, hy, hp'⟩ | ⟨hlen, ⟨p', hp'⟩ | hstops⟩
        · exact Or.inl ⟨y, hy, .part x h' h₁' hp'⟩
        · exact Or.inr ⟨hlen, Or.inl ⟨_, .part x h' h₁' hp'⟩⟩
        · exact Or.inr ⟨hlen, Or.inr (.part x h' h₁' hstops)⟩
      | ended hlen hended =>
        obtain ⟨c₃, b₃, -, -, h₃, -⟩ := hended
        exact Or.inr ⟨by omega, Or.inr (.of_mark x h' h₃ (by cases x <;> simp [Part.word]))⟩
      | spaces _ hk => cases x <;> cases hk
      | text hlen _ _ _ h₁' =>
        exact Or.inr ⟨by omega, Or.inr (.part x h' h₁' (.of_call (.nil _) (by simp)))⟩
    | ended hlen hended =>
      obtain ⟨c₃, b₃, -, -, h₃, -⟩ := hended
      exact Or.inr ⟨by omega, Or.inr (.of_call h₃ (by simp))⟩
    | spaces _ hk => exact absurd hk hspace
    | text _ htext => exact absurd htext hmark

theorem Prefixed.behind_lt (h : Prefixed c b record) : Irc.behind c b n < b.length := by
  obtain ⟨w, c₁, b₁, p, c₂, b₂, command, ps, horigin, hp, hbody, -⟩ := h
  obtain ⟨n', hbehind⟩ := hp.behind b₁.length
  have hlt := hbody.behind_lt (n := n')
  have hlen := hp.length_le
  have hlen₁ := horigin.length_le
  rw [horigin.behind_of_word rfl, hbehind]
  omega

theorem Prefixed.ne_invalid (h : Prefixed c b record) : record.command ≠ .invalid := by
  obtain ⟨w, c₁, b₁, p, c₂, b₂, command, ps, -, -, ⟨c', b', hcommand, -⟩, rfl⟩ := h
  exact hcommand.ne_invalid

theorem Prefixed.cut (h : Prefixed c (b ++ rest) record) (hrest : rest ≠ []) :
    Prefixed c b record ↔ rest.length ≤ Irc.behind c (b ++ rest) n := by
  have hne := h.ne_invalid
  obtain ⟨w, c₁, b₁, p, c₂, b₂, command, ps, horigin, hp, hbody, rfl⟩ := h
  obtain ⟨n', hbehind⟩ := hp.behind b₁.length
  rw [horigin.behind_of_word rfl, hbehind, ← accepts_prefixed (n := 0) (v := .none)]
  have hlost (hlen : b₂.length < rest.length) : ¬ rest.length ≤ Irc.behind c₂ b₂ n' := by
    have hlt := hbody.behind_lt (n := n')
    omega
  have hlen₂ := hp.length_le
  have hreads : Reads (top [(4, Value.none)]) := ⟨by decide, rfl⟩
  cases horigin.cut hrest with
  | @within x hleft horigin' =>
    subst hleft
    obtain ⟨n₁, hhalts⟩ := halts_call_shift hreads horigin' rfl 0
    rw [accepts_congr (hhalts {})]
    rcases hp.cut hrest with ⟨y, rfl, hp'⟩ | ⟨hlen, ⟨p', hp'⟩ | hstops⟩
    · obtain ⟨n₂, haccepts⟩ := hp'.accepts n₁
      exact (haccepts _).trans (hbody.cut hrest (Or.inr rfl) rfl rfl)
    · obtain ⟨n₂, haccepts⟩ := hp'.accepts n₁
      refine iff_of_false (fun h => ?_) (hlost hlen)
      exact not_accepts_ended (Or.inr rfl) (ended_nil _) hne.symm ((haccepts _).1 h)
    · exact iff_of_false (hstops _ n₁ {} _ (Or.inl rfl)) (hlost hlen)
  | ended hlen hended =>
    obtain ⟨c₃, b₃, -, -, h₃, -⟩ := hended
    obtain ⟨n₁, hhalts⟩ := halts_call hreads h₃ 0
    rw [accepts_congr (hhalts {})]
    exact iff_of_false (not_accepts_error hreads rfl) (hlost (by omega))
  | spaces _ hk => cases hk
  | text hlen _ _ _ horigin' =>
    obtain ⟨n₁, hhalts⟩ := halts_call_shift hreads horigin' rfl 0
    rw [accepts_congr (hhalts {})]
    have hstops : Stops c₁ [] := .of_call (.nil _) (by simp)
    exact iff_of_false (hstops _ n₁ {} _ (Or.inl rfl)) (hlost (by omega))

theorem Message.cut (h : Message (b ++ rest) record) (hrest : rest ≠ []) : Message b record ↔
    rest.length ≤ behindWords (b ++ rest).length .initial (b ++ rest) (b ++ rest).length := by
  change _ ↔ rest.length ≤ behind .initial (b ++ rest) (b ++ rest).length
  cases h with
  | empty h =>
    rw [h.behind]
    exact iff_of_true (.empty (h.cut hrest)) (by simp)
  | body h =>
    rw [← accepts_iff_message (n := 0)]
    exact h.cut hrest (Or.inl rfl) rfl rfl
  | @prefixed c b' v record h hp =>
    rw [h.behind_of_mark (by simp) rfl]
    cases h.cut hrest with
    | within hleft h' =>
      subst hleft
      rw [← accepts_iff_message (n := 0), accepts_colon h']
      exact hp.cut hrest
    | ended hlen hended =>
      have hlt := hp.behind_lt (n := (b ++ rest).length)
      rw [← accepts_iff_message (n := 0)]
      refine iff_of_false (not_accepts_ended (Or.inl rfl) hended hp.ne_invalid.symm) ?_
      omega
    | spaces _ hk => cases hk
    | text _ htext => simp [texts] at htext

namespace ModuleParser

variable {capacity : ℕ} {crunchMessages_ : Bool} {block : List UInt8} {cont : List (List UInt8)}

theorem parses_block (h : Parses (block ++ cont.flatten) (.returned true record)) :
    Parses block (.returned true record) ↔ HasWords block cont := by
  by_cases hrest : cont.flatten = []
  · have hwords : HasWords block cont := by simp [HasWords, hrest]
    rw [hrest, List.append_nil] at h
    exact iff_of_true h hwords
  · rw [parses_iff_message] at h ⊢
    exact h.cut hrest

theorem copyBlocks_ok {blocks : List (List UInt8)} {message_p : MessageBlock}
    (h : message_p.content.length + blocks.flatten.length ≤ message_p.capacity) :
    ∃ m, copyBlocks blocks message_p = .ok m ∧ m.capacity = message_p.capacity ∧
      m.content = message_p.content ++ blocks.flatten := by
  induction blocks generalizing message_p with
  | nil => exact ⟨message_p, rfl, rfl, by simp⟩
  | cons block cont ih =>
    rw [List.flatten_cons, List.length_append] at h
    obtain ⟨m₁, hcopy, hcap₁, hcontent₁⟩ := message_p.copy_eq_some block (by unfold MessageBlock.space; omega)
    have hroom : m₁.content.length + cont.flatten.length ≤ m₁.capacity := by
      rw [hcap₁, hcontent₁, List.length_append]
      omega
    obtain ⟨m, hm, hcap, hcontent⟩ := ih hroom
    refine ⟨m, ?_, hcap.trans hcap₁, ?_⟩
    · rw [copyBlocks, hcopy]
      exact hm
    · rw [hcontent, hcontent₁, List.flatten_cons, List.append_assoc]

theorem copyBlocks_error {blocks : List (List UInt8)} {message_p : MessageBlock}
    (h : message_p.capacity < message_p.content.length + blocks.flatten.length) :
    copyBlocks blocks message_p = .error .space := by
  induction blocks generalizing message_p with
  | nil =>
    have hfits := message_p.fits
    simp at h
    omega
  | cons block cont ih =>
    rw [List.flatten_cons, List.length_append] at h
    by_cases hroom : block.length ≤ message_p.space
    · obtain ⟨m₁, hcopy, hcap₁, hcontent₁⟩ := message_p.copy_eq_some block hroom
      rw [copyBlocks, hcopy]
      apply ih
      rw [hcap₁, hcontent₁, List.length_append]
      omega
    · rw [copyBlocks, MessageBlock.copy, dif_neg hroom]

/-- The scanner is given the frame, or an assertion of the module fails. -/
theorem scanned_crunch (capacity : ℕ) (block : List UInt8) (cont : List (List UInt8)) :
    if (block ++ cont.flatten).length + flexBufferBoundarySize ≤ capacity then
      scanned capacity true block cont = .ok (block ++ cont.flatten)
    else ∃ f, scanned capacity true block cont = .error f := by
  have hflatten : (block :: cont).flatten = block ++ cont.flatten := List.flatten_cons
  by_cases hroom : (block ++ cont.flatten).length ≤ capacity
  · have hempty : (MessageBlock.allocate capacity).content.length + (block :: cont).flatten.length ≤
        (MessageBlock.allocate capacity).capacity := by
      rw [hflatten]
      simpa [MessageBlock.allocate] using hroom
    obtain ⟨m, hm, hcap, hcontent⟩ := copyBlocks_ok hempty
    have hcontent' : m.content = block ++ cont.flatten := hcontent
    have hcap' : m.capacity = capacity := hcap
    have hscanned : scanned capacity true block cont =
        if capacity - (block ++ cont.flatten).length < flexBufferBoundarySize then .error .boundary
        else .ok (block ++ cont.flatten) := by
      simp only [scanned, if_true, hm, MessageBlock.length, hcontent', hcap']
    rw [hscanned]
    unfold flexBufferBoundarySize
    split_ifs with hfits hboundary
    · omega
    · rfl
    · exact ⟨_, rfl⟩
    · omega
  · have hfull : (MessageBlock.allocate capacity).capacity <
        (MessageBlock.allocate capacity).content.length + (block :: cont).flatten.length := by
      rw [hflatten]
      simpa [MessageBlock.allocate] using hroom
    rw [if_neg (by unfold flexBufferBoundarySize; omega)]
    refine ⟨.space, ?_⟩
    simp only [scanned, if_true, copyBlocks_error hfull]

theorem parses_unique {fragment : List UInt8} {x y : Parsed} (h : Parses fragment x)
    (h' : Parses fragment y) : x = y := by
  obtain ⟨r, hr, rfl⟩ := h
  obtain ⟨r', hr', rfl⟩ := h'
  rw [hr.unique hr']

theorem handled_eq_passed {x : Parsed} (h : handled x = .passed [record]) : x = .returned true record := by
  cases x with
  | returned result record' =>
    cases result with
    | true =>
      obtain rfl := List.singleton_inj.1 (Handled.passed.inj h)
      rfl
    | false => cases Handled.passed.inj h
  | fault f => cases h

theorem passesOnce_ok {fragment : List UInt8} (h : scanned capacity crunchMessages_ block cont = .ok fragment) :
    PassesOnce capacity crunchMessages_ block cont record ↔ Parses fragment (.returned true record) := by
  have hhandles (x : Handled) : Handles capacity crunchMessages_ block cont x ↔
      ∃ y, Parses fragment y ∧ x = handled y := by rw [Handles, h]
  constructor
  · intro hpasses
    obtain ⟨y, hy, hrecord⟩ := (hhandles _).1 ((hpasses _).2 rfl)
    rwa [handled_eq_passed hrecord.symm] at hy
  · intro hparses x
    rw [hhandles]
    constructor
    · intro hx
      obtain ⟨y, hy, rfl⟩ := hx
      rw [parses_unique hy hparses]
      rfl
    · intro hx
      exact ⟨_, hparses, hx⟩

theorem not_passesOnce_error {f : ModuleParser.Fault}
    (h : scanned capacity crunchMessages_ block cont = .error f) :
    ¬ PassesOnce capacity crunchMessages_ block cont record := by
  intro hpasses
  have hhandles : Handles capacity crunchMessages_ block cont (.passed [record]) := (hpasses _).2 rfl
  rw [Handles, h] at hhandles
  cases hhandles

/-- A frame that comes in several blocks is passed on as one that comes in one, exactly when it
fits the buffer with the boundary, or when the first block has all of its words. -/
theorem passesOnce_iff (capacity : ℕ) (crunchMessages_ : Bool) (block : List UInt8)
    (cont : List (List UInt8)) (record : Record)
    (h : Parses (block ++ cont.flatten) (.returned true record)) :
    PassesOnce capacity crunchMessages_ block cont record ↔ Arrives capacity crunchMessages_ block cont := by
  cases crunchMessages_ with
  | false => exact (passesOnce_ok rfl).trans (parses_block h)
  | true =>
    have hscanned := scanned_crunch capacity block cont
    rw [Arrives, if_pos rfl]
    split_ifs at hscanned with hfits
    · exact iff_of_true ((passesOnce_ok hscanned).2 h) hfits
    · obtain ⟨f, hscanned⟩ := hscanned
      exact iff_of_false (not_passesOnce_error hscanned) hfits

theorem parses_join : Parses ([74, 79, 73, 78, 32, 35, 97, 98] ++ [[13], [10]].flatten)
    (.returned true ⟨{}, .string [74, 79, 73, 78], [[35, 97, 98]], []⟩) := by
  have hcommand : (Command.string [74, 79, 73, 78]).Valid := ⟨by decide, List.all_eq_true.1 (by decide)⟩
  have hparam : [35, 97, 98] ∈ param.lang := mem_param.2 ⟨by decide, List.all_eq_true.1 (by decide), by decide⟩
  have htext : FrameText [74, 79, 73, 78, 32, 35, 97, 98, 13, 10]
      ⟨{}, .string [74, 79, 73, 78], [[35, 97, 98]], []⟩ :=
    .mk 0 (Or.inl rfl) hcommand (.middle 0 hparam .none)
  exact (ends_frameText htext).2 rfl

/-- The cut is in front of the end of the line. -/
theorem join_passesOnce : PassesOnce 512 false [74, 79, 73, 78, 32, 35, 97, 98] [[13], [10]]
    ⟨{}, .string [74, 79, 73, 78], [[35, 97, 98]], []⟩ :=
  (passesOnce_iff 512 false _ _ _ parses_join).2 (by decide)

/-- In one block the frame is accepted; cut inside of its parameter it is not passed on as it is. -/
theorem join_not_passesOnce : Parses [74, 79, 73, 78, 32, 35, 97, 98, 13, 10]
      (.returned true ⟨{}, .string [74, 79, 73, 78], [[35, 97, 98]], []⟩) ∧
    ¬ PassesOnce 512 false [74, 79, 73, 78, 32, 35, 97] [[98, 13, 10]]
      ⟨{}, .string [74, 79, 73, 78], [[35, 97, 98]], []⟩ := by
  have hwhole : Parses ([74, 79, 73, 78, 32, 35, 97] ++ [[98, 13, 10]].flatten)
      (.returned true ⟨{}, .string [74, 79, 73, 78], [[35, 97, 98]], []⟩) := parses_join
  refine ⟨parses_join, fun hpasses => ?_⟩
  have hwords := (parses_block hwhole).1 ((passesOnce_ok rfl).1 hpasses)
  exact absurd hwords (by decide)

end ModuleParser

end ACENetwork.Irc
