import Mathlib
import ACENetwork.Spec.BitTorrent.Piece

/-! When the data of a piece is cut out of the fragments where it ends. -/

namespace ACENetwork.BitTorrent.Piece

theorem actPiece_eq {yytext : List UInt8} {s : Peer.State} {r : Peer.Record} (hr : s.yylval = .record r)
    (hyytext : yytext ≠ []) (hlen : (yytext ++ s.buffer).length < 2 ^ 32) :
    Peer.actPiece yytext s =
      (statePiece ⟨false, true⟩ r.length ⟨yytext ++ s.buffer, 0, []⟩).scan r s := by
  have hdata : yytext ++ s.buffer ≠ [] := by simp [hyytext]
  simp only [Peer.actPiece, Peer.onRecord, hr]
  generalize yytext ++ s.buffer = data at hlen hdata ⊢
  have hrest : Input.rest ⟨data, 0, []⟩ = data := List.drop_zero
  have hmatch : matchOctet ⟨false, true⟩ ⟨data, 0, []⟩ = some ⟨[], data, []⟩ := by
    simp [matchOctet, hrest, hdata]
  simp only [statePiece, hmatch, hrest]
  generalize r.length - 9 = b
  have hlength : (UInt32.ofNat data.length).toNat = data.length := by
    rw [UInt32.toNat_ofNat', Nat.mod_eq_of_lt hlen]
  by_cases hb : b.toNat ≤ data.length
  · have hle : b ≤ UInt32.ofNat data.length := UInt32.le_iff_toNat_le.2 (by rwa [hlength])
    rw [if_pos hb, if_pos hle, frame, if_neg (not_not.2 (List.length_take_of_le hb)), hlength]
    by_cases hdrop : (data.drop b.toNat).length = data.length
    · rw [if_neg (not_not.2 hdrop), if_neg (not_not.2 hdrop)]
      simp [leave, Chain.split, Outcome.scan, Peer.finish]
    · rw [if_pos hdrop, if_pos hdrop]
      rfl
  · have hle : ¬ b ≤ UInt32.ofNat data.length := by rwa [UInt32.le_iff_toNat_le, hlength]
    rw [if_neg hb, if_neg hle, frameTrailing, skip,
      if_pos (UInt32.le_iff_toNat_le.2 (Nat.zero_le _)), Outcome.scan, hr]

theorem wrap_none {cont : List (List UInt8)} (h : cont.dropWhile (· = []) = []) (passed : List (List UInt8)) :
    wrap passed [] cont = none := by
  induction cont generalizing passed with
  | nil => rfl
  | cons f fs ih =>
    rw [wrap, if_pos rfl]
    by_cases hf : f = []
    · subst hf
      exact ih h _
    · simp [hf] at h

theorem wrap_some {cont fs : List (List UInt8)} {f : List UInt8} (h : cont.dropWhile (· = []) = f :: fs)
    (passed : List (List UInt8)) :
    ∃ empties, wrap passed [] cont = some ⟨empties, f, fs⟩ ∧ empties ≠ [] ∧
      empties.flatten = passed.flatten := by
  induction cont generalizing passed with
  | nil => cases h
  | cons g gs ih =>
    rw [wrap, if_pos rfl]
    by_cases hg : g = []
    · subst hg
      obtain ⟨empties, hwrap, hne, hflatten⟩ := ih h (passed ++ [[]])
      exact ⟨empties, hwrap, hne, by simpa using hflatten⟩
    · rw [List.dropWhile_cons_of_neg (by simpa using hg)] at h
      obtain ⟨rfl, rfl⟩ := List.cons.inj h
      refine ⟨passed ++ [[]], ?_, by simp, by simp⟩
      cases gs <;> simp [wrap, hg]

theorem flatten_dropWhile (cont : List (List UInt8)) :
    (cont.dropWhile (· = [])).flatten = cont.flatten := by
  induction cont with
  | nil => rfl
  | cons f fs ih =>
    by_cases hf : f = []
    · subst hf
      exact ih
    · rw [List.dropWhile_cons_of_neg (by simpa using hf)]

theorem toNat_add_ofNat (s : UInt32) (n : ℕ) : (s + UInt32.ofNat n).toNat = (s.toNat + n) % 2 ^ 32 := by
  rw [UInt32.toNat_add, UInt32.toNat_ofNat', Nat.add_mod_mod]

theorem skip_some {b s t : UInt32} {p cont : List (List UInt8)} {c : List UInt8} {chain : Chain}
    (hs : s ≤ b) (h : skip b s p c cont = some (t, chain)) :
    ∃ before last after, cont = before ++ last :: after ∧ chain = ⟨p ++ c :: before, last, after⟩ ∧
      b < t ∧ t.toNat = (s.toNat + (before.flatten.length + last.length)) % 2 ^ 32 := by
  induction cont generalizing s p c with
  | nil =>
    rw [skip, if_pos hs] at h
    cases h
  | cons f fs ih =>
    rw [skip, if_pos hs] at h
    by_cases hnext : s + UInt32.ofNat f.length ≤ b
    · obtain ⟨before, last, after, rfl, rfl, hbt, ht⟩ := ih hnext h
      refine ⟨f :: before, last, after, rfl, by simp, hbt, ?_⟩
      rw [ht, toNat_add_ofNat, Nat.mod_add_mod, List.flatten_cons, List.length_append]
      congr 1
      omega
    · have hstop : skip b (s + UInt32.ofNat f.length) (p ++ [c]) f fs =
          some (s + UInt32.ofNat f.length, ⟨p ++ [c], f, fs⟩) := by
        cases fs <;> rw [skip, if_neg hnext]
      rw [hstop] at h
      cases h
      refine ⟨[], f, fs, rfl, rfl, UInt32.not_le.1 hnext, ?_⟩
      rw [toNat_add_ofNat]
      simp

theorem skip_append {b s : UInt32} {p before : List (List UInt8)} {c last : List UInt8}
    (after : List (List UInt8)) (hs : s.toNat + before.flatten.length ≤ b.toNat)
    (hb : b.toNat < (s.toNat + (before.flatten.length + last.length)) % 2 ^ 32) :
    ∃ t, skip b s p c (before ++ last :: after) = some (t, ⟨p ++ c :: before, last, after⟩) ∧
      t.toNat = (s.toNat + (before.flatten.length + last.length)) % 2 ^ 32 := by
  induction before generalizing s p c with
  | nil =>
    have hle : s ≤ b := UInt32.le_iff_toNat_le.2 (by simpa using hs)
    have hstop : ¬ s + UInt32.ofNat last.length ≤ b := by
      rw [UInt32.le_iff_toNat_le, toNat_add_ofNat]
      simpa using hb
    refine ⟨s + UInt32.ofNat last.length, ?_, by rw [toNat_add_ofNat]; simp⟩
    rw [List.nil_append, skip, if_pos hle]
    cases after <;> rw [skip, if_neg hstop]
  | cons f before ih =>
    rw [List.flatten_cons, List.length_append] at hs hb
    have hsum : s.toNat + f.length < 2 ^ 32 := by
      have := b.toNat_lt
      omega
    have hnext : (s + UInt32.ofNat f.length).toNat = s.toNat + f.length := by
      rw [toNat_add_ofNat, Nat.mod_eq_of_lt hsum]
    have hle : s ≤ b := UInt32.le_iff_toNat_le.2 (by omega)
    obtain ⟨t, hskip, ht⟩ := ih (s := s + UInt32.ofNat f.length) (p := p ++ [c]) (c := f)
      (by rw [hnext]; omega) (by rw [hnext]; convert hb using 2; omega)
    refine ⟨t, ?_, ?_⟩
    · rw [List.cons_append, skip, if_pos hle, hskip]
      simp
    · rw [ht, hnext, List.flatten_cons, List.length_append]
      congr 1
      omega

theorem gobble_eq_self {d : Driver} {bytes : List UInt8} :
    gobble d bytes.length bytes = bytes ↔ (d.useYYScanBuffer = true → ∀ a ∈ bytes, a = 0) := by
  unfold gobble
  by_cases hd : d.useYYScanBuffer = true
  · simp [hd, eq_comm, List.eq_replicate_iff]
  · simp [hd]

theorem length_gobble (d : Driver) (bytes : List UInt8) : (gobble d bytes.length bytes).length = bytes.length := by
  unfold gobble
  by_cases hd : d.useYYScanBuffer = true <;> simp [hd]

theorem frames_cut_iff {d : Driver} {front last after : List UInt8} {n b : ℕ} (hn : n ≤ last.length)
    (hb : b ≤ (front ++ (last ++ after)).length) :
    (front ++ gobble d n (last.take n) = (front ++ (last ++ after)).take b ∧
      last.drop n ++ after = (front ++ (last ++ after)).drop b) ↔
      front.length + n = b ∧ (d.useYYScanBuffer = true → ∀ a ∈ last.take n, a = 0) := by
  have hlen : (last.take n).length = n := List.length_take_of_le hn
  have hgobble := length_gobble d (last.take n)
  rw [hlen] at hgobble
  have htake : (front ++ (last ++ after)).take (front.length + n) = front ++ last.take n := by
    rw [List.take_length_add_append, List.take_append_of_le_length hn]
  have hdrop : (front ++ (last ++ after)).drop (front.length + n) = last.drop n ++ after := by
    rw [List.drop_length_add_append, List.drop_append_of_le_length hn]
  have hself : gobble d (last.take n).length (last.take n) = last.take n ↔ _ := gobble_eq_self
  rw [hlen] at hself
  refine ⟨fun h => ?_, fun h => ?_⟩
  · have hcount := congrArg List.length h.1
    rw [List.length_append, hgobble, List.length_take_of_le hb] at hcount
    refine ⟨hcount, hself.1 ?_⟩
    rw [← hcount, htake] at h
    exact List.append_cancel_left h.1
  · obtain ⟨rfl, hnuls⟩ := h
    rw [htake, hdrop, hself.2 hnuls]
    exact ⟨rfl, rfl⟩

theorem frames_leave_iff {d : Driver} {n b : ℕ} {p after : List (List UInt8)} {last stream : List UInt8}
    (hn : n ≤ last.length) (hstream : stream = p.flatten ++ (last ++ after.flatten)) (hb : b ≤ stream.length) :
    (leave d n (Chain.cut n ⟨p, last, after⟩)).Frames stream b ↔
      p.flatten.length + n = b ∧ (d.useYYScanBuffer = true → ∀ a ∈ last.take n, a = 0) := by
  subst hstream
  rw [← frames_cut_iff hn hb]
  constructor
  · rintro ⟨framed, rest, hpiece, hframed, hrest⟩
    obtain ⟨rfl, rfl⟩ := Outcome.piece.inj hpiece
    exact ⟨by simpa [Chain.cut] using hframed, by simpa using hrest⟩
  · rintro ⟨hframed, hrest⟩
    exact ⟨_, _, rfl, by simpa [Chain.cut] using hframed, by simpa using hrest⟩

theorem toNat_sub_of_lt {b t : UInt32} (h : b < t) : (t - b).toNat = t.toNat - b.toNat :=
  UInt32.toNat_sub_of_le t b (UInt32.le_of_lt h)

theorem frameTrailing_piece {d : Driver} {b : UInt32} {chain : Chain} {framed rest : List (List UInt8)}
    (h : frameTrailing d b chain = .piece framed rest) :
    ∃ before last after n, chain.cont = before ++ last :: after ∧
      b.toNat < (before.flatten.length + last.length) % 2 ^ 32 ∧
      n = (before.flatten.length + last.length) % 2 ^ 32 - b.toNat ∧ n ≤ last.length ∧
      leave d n (Chain.cut n ⟨chain.passed ++ chain.fragment :: before, last, after⟩) = .piece framed rest := by
  unfold frameTrailing at h
  cases hskip : skip b 0 chain.passed chain.fragment chain.cont with
  | none =>
    rw [hskip] at h
    cases h
  | some skipped =>
    obtain ⟨t, behind⟩ := skipped
    have hzero : (0 : UInt32) ≤ b := UInt32.le_iff_toNat_le.2 (Nat.zero_le _)
    obtain ⟨before, last, after, hcont, rfl, hbt, ht⟩ := skip_some hzero hskip
    have hlt := UInt32.lt_iff_toNat_lt.1 hbt
    rw [UInt32.toNat_zero, Nat.zero_add] at ht
    simp only [hskip] at h
    by_cases hlen : (last.take (t - b).toNat).length = (t - b).toNat
    · rw [if_neg (not_not.2 hlen)] at h
      refine ⟨before, last, after, (t - b).toNat, hcont, by rwa [← ht], ?_, ?_, h⟩
      · rw [toNat_sub_of_lt hbt, ht]
      · rw [List.length_take] at hlen
        omega
    · rw [if_pos hlen] at h
      cases h

theorem frameTrailing_append {d : Driver} {b : UInt32} {chain : Chain} {before after : List (List UInt8)}
    {last : List UInt8} {n : ℕ} (hcont : chain.cont = before ++ last :: after)
    (hbefore : before.flatten.length ≤ b.toNat)
    (hb : b.toNat < (before.flatten.length + last.length) % 2 ^ 32)
    (hn : n = (before.flatten.length + last.length) % 2 ^ 32 - b.toNat) :
    n ≤ last.length ∧ frameTrailing d b chain =
      leave d n (Chain.cut n ⟨chain.passed ++ chain.fragment :: before, last, after⟩) := by
  have hle : n ≤ last.length := by
    have := Nat.mod_le (before.flatten.length + last.length) (2 ^ 32)
    omega
  have hstart : (0 : UInt32).toNat + before.flatten.length ≤ b.toNat := by
    rwa [UInt32.toNat_zero, Nat.zero_add]
  have hstop : b.toNat < ((0 : UInt32).toNat + (before.flatten.length + last.length)) % 2 ^ 32 := by
    rwa [UInt32.toNat_zero, Nat.zero_add]
  obtain ⟨t, hskip, ht⟩ := skip_append (p := chain.passed) (c := chain.fragment) after hstart hstop
  rw [UInt32.toNat_zero, Nat.zero_add] at ht
  have hcut : (t - b).toNat = n := by
    rw [toNat_sub_of_lt (UInt32.lt_iff_toNat_lt.2 (by rwa [ht])), ht, hn]
  rw [← hcont] at hskip
  refine ⟨hle, ?_⟩
  simp only [frameTrailing, hskip, hcut]
  rw [if_neg (not_not.2 (List.length_take_of_le hle))]

theorem frames_frameTrailing_iff {d : Driver} {b : UInt32} {chain : Chain} {stream : List UInt8}
    (hpassed : chain.passed.flatten = []) (hstream : stream = chain.fragment ++ chain.cont.flatten)
    (hdata : b.toNat ≤ stream.length) :
    (frameTrailing d b chain).Frames stream b.toNat ↔
      Trails d b.toNat chain.fragment.length chain.cont := by
  have hfront (before : List (List UInt8)) :
      (chain.passed ++ chain.fragment :: before).flatten = chain.fragment ++ before.flatten := by
    rw [List.flatten_append, hpassed, List.flatten_cons, List.nil_append]
  constructor
  · rintro ⟨framed, rest, hpiece, hframed, hrest⟩
    obtain ⟨before, last, after, n, hcont, hskipped, hn, hle, hleave⟩ := frameTrailing_piece hpiece
    have hsplit : stream = (chain.passed ++ chain.fragment :: before).flatten ++ (last ++ after.flatten) := by
      rw [hstream, hcont, hfront, List.flatten_append, List.flatten_cons, List.append_assoc]
    obtain ⟨hbalanced, hnuls⟩ :=
      (frames_leave_iff hle hsplit hdata).1 ⟨framed, rest, hleave, hframed, hrest⟩
    rw [hfront, List.length_append] at hbalanced
    refine ⟨before, last, after, hcont, hskipped, by rwa [← hn], ?_⟩
    rwa [show b.toNat - (chain.fragment.length + before.flatten.length) = n by omega]
  · rintro ⟨before, last, after, hcont, hskipped, hbalanced, hnuls⟩
    obtain ⟨hle, htrailing⟩ := frameTrailing_append (d := d) hcont (by omega) hskipped rfl
    have hsplit : stream = (chain.passed ++ chain.fragment :: before).flatten ++ (last ++ after.flatten) := by
      rw [hstream, hcont, hfront, List.flatten_append, List.flatten_cons, List.append_assoc]
    rw [htrailing, frames_leave_iff hle hsplit hdata, hfront, List.length_append]
    refine ⟨hbalanced, ?_⟩
    rwa [show (before.flatten.length + last.length) % 2 ^ 32 - b.toNat =
      b.toNat - (chain.fragment.length + before.flatten.length) by omega]

theorem Trails.lt {d : Driver} {n first : ℕ} {cont : List (List UInt8)} (h : Trails d n first cont) :
    first < n := by
  obtain ⟨before, last, after, -, hskipped, hbalanced, -⟩ := h
  omega

theorem gobble_zero (d : Driver) (block : List UInt8) : gobble d 0 block = block := by
  unfold gobble
  by_cases hd : d.useYYScanBuffer = true <;> simp [hd]

/-- Without data the first fragment is cut at its start. With data, the length of the duplicate is not
the one that is asserted. -/
theorem frames_frame_iff {d : Driver} {b : UInt32} {rest : List UInt8} {cont : List (List UInt8)}
    (hb : b ≤ UInt32.ofNat rest.length) :
    (frame d b (UInt32.ofNat rest.length) rest ⟨[], rest, cont⟩).Frames (rest ++ cont.flatten) b.toNat ↔
      b.toNat = 0 ∧ rest.length < 2 ^ 32 := by
  have hle := UInt32.le_iff_toNat_le.1 hb
  have hmod := Nat.mod_le rest.length (2 ^ 32)
  rw [UInt32.toNat_ofNat'] at hle
  have htake : (rest.take b.toNat).length = b.toNat := List.length_take_of_le (by omega)
  unfold frame
  rw [if_neg (not_not.2 htake), UInt32.toNat_ofNat', List.length_drop]
  by_cases hzero : b.toNat = 0 ∧ rest.length < 2 ^ 32
  · rw [if_neg (by omega), hzero.1]
    refine iff_of_true ⟨_, _, rfl, ?_, ?_⟩ ⟨rfl, hzero.2⟩
    · simp [Chain.split, gobble_zero]
    · simp
  · rw [if_pos (by omega)]
    refine iff_of_false ?_ hzero
    rintro ⟨framed, rest', hpiece, -, -⟩
    cases hpiece

theorem not_frames_frame {d : Driver} {p : List (List UInt8)} {f : List UInt8}
    {cont : List (List UInt8)} {stream : List UInt8} (hp : p ≠ []) (hf : f ≠ []) :
    ¬ (frame d 0 0 [] ⟨p, f, cont⟩).Frames stream 0 := by
  rintro ⟨framed, rest, hpiece, hframed, -⟩
  rw [List.take_zero, List.flatten_eq_nil_iff] at hframed
  cases p with
  | nil => exact hp rfl
  | cons block p =>
    cases cont with
    | nil => cases hpiece
    | cons g gs =>
      obtain ⟨rfl, -⟩ := Outcome.piece.inj hpiece
      refine hf (hframed f ?_)
      simp [Chain.split, gobble_zero]

theorem not_frames_end {stream : List UInt8} {n : ℕ} : ¬ Outcome.end_.Frames stream n := by
  rintro ⟨framed, rest, hpiece, -, -⟩
  cases hpiece

/-- The rule matches an octet of the next fragment that has any, but the action still looks at the
block with the header. -/
theorem frames_wrapped_iff {d : Driver} {length : UInt32} {x : Input}
    (hend : x.rest = [] ∧ d.useYYScanBuffer = true) (hdata : (length - 9).toNat ≤ x.stream.length) :
    (statePiece d length x).Frames x.stream (length - 9).toNat ↔
      d.isBlocking = true ∧ ∃ block cont, x.cont.dropWhile (· = []) = block :: cont ∧
        Trails d (length - 9).toNat block.length cont := by
  unfold statePiece matchOctet
  generalize length - 9 = b at hdata ⊢
  rw [if_pos hend]
  have hstream : x.stream = (x.cont.dropWhile (· = [])).flatten := by
    rw [Input.stream, hend.1, List.nil_append, flatten_dropWhile]
  by_cases hblock : d.isBlocking = true
  · rw [if_pos hblock, hend.1]
    cases hcont : x.cont.dropWhile (· = []) with
    | nil =>
      rw [wrap_none hcont]
      refine iff_of_false not_frames_end ?_
      rintro ⟨-, block, cont, hnil, -⟩
      cases hnil
    | cons f fs =>
      obtain ⟨empties, hwrap, hne, hflatten⟩ := wrap_some hcont []
      have hf : f ≠ [] := by
        have hne : x.cont.dropWhile (fun f => decide (f = [])) ≠ [] := by simp [hcont]
        have := List.head_dropWhile_not _ hne
        simpa [hcont] using this
      have hchoice : (∃ block cont, f :: fs = block :: cont ∧ Trails d b.toNat block.length cont) ↔
          Trails d b.toNat f.length fs :=
        ⟨fun ⟨block, cont, heq, h⟩ => by cases heq; exact h, fun h => ⟨f, fs, rfl, h⟩⟩
      rw [hcont, List.flatten_cons] at hstream
      simp only [hwrap, hblock, true_and, hchoice, List.length_nil]
      by_cases hzero : b ≤ UInt32.ofNat 0
      · have hb : b = 0 := UInt32.le_zero_iff.1 hzero
        subst hb
        rw [if_pos hzero]
        refine iff_of_false (not_frames_frame hne hf) fun h => ?_
        exact absurd h.lt (Nat.not_lt_zero _)
      · rw [if_neg hzero]
        exact frames_frameTrailing_iff hflatten hstream hdata
  · rw [if_neg hblock]
    exact iff_of_false not_frames_end fun h => hblock h.1

theorem frames_matched_iff {d : Driver} {length : UInt32} {x : Input}
    (hend : ¬ (x.rest = [] ∧ d.useYYScanBuffer = true)) (hdata : (length - 9).toNat ≤ x.stream.length) :
    (statePiece d length x).Frames x.stream (length - 9).toNat ↔
      (length - 9).toNat = 0 ∧ x.rest.length < 2 ^ 32 ∨ Trails d (length - 9).toNat x.rest.length x.cont := by
  unfold statePiece matchOctet
  generalize length - 9 = b at hdata ⊢
  rw [if_neg hend]
  by_cases hb : b ≤ UInt32.ofNat x.rest.length
  · simp only [if_pos hb]
    have hle := UInt32.le_iff_toNat_le.1 hb
    have hmod := Nat.mod_le x.rest.length (2 ^ 32)
    rw [UInt32.toNat_ofNat'] at hle
    have htrails : ¬ Trails d b.toNat x.rest.length x.cont := fun h => by
      have := h.lt
      omega
    rw [or_iff_left htrails]
    exact frames_frame_iff hb
  · simp only [if_neg hb]
    have hpos : ¬ (b.toNat = 0 ∧ x.rest.length < 2 ^ 32) := by
      rintro ⟨hzero, -⟩
      exact hb (UInt32.le_iff_toNat_le.2 (by omega))
    rw [or_iff_right hpos]
    exact frames_frameTrailing_iff rfl rfl hdata

/-- The data of a piece is framed exactly when there is none, or when it ends in another fragment at
the place where the action cuts it. -/
theorem statePiece_frames_iff {d : Driver} {length : UInt32} {x : Input}
    (hdata : (length - 9).toNat ≤ x.stream.length) :
    (statePiece d length x).Frames x.stream (length - 9).toNat ↔ Manageable d (length - 9).toNat x := by
  unfold Manageable
  by_cases hend : x.rest = [] ∧ d.useYYScanBuffer = true
  · rw [if_pos hend]
    exact frames_wrapped_iff hend hdata
  · rw [if_neg hend]
    exact frames_matched_iff hend hdata

/-- A header and an octet of the data in the first fragment, and three more octets. -/
def spread : Input := ⟨[0, 0, 0, 11, 7, 0, 0, 0, 1, 0, 0, 0, 0, 65], 13, [[66, 0, 0]]⟩

theorem spread_frames :
    (statePiece ⟨false, false⟩ 11 spread).Frames spread.stream (11 - 9 : UInt32).toNat := by
  refine (statePiece_frames_iff (by decide)).2 ?_
  rw [Manageable, if_neg (by decide)]
  exact Or.inr ⟨[], [66, 0, 0], [], rfl, by decide, by decide, fun hscan => by cases hscan⟩

def single : Input := ⟨[0, 0, 0, 10, 7, 0, 0, 0, 1, 0, 0, 0, 0, 65], 13, []⟩

/-- The duplicate behind the data is empty, which is not what is asserted. -/
theorem single_assertion :
    ¬ ∀ (d : Driver) (length : UInt32) (x : Input), 9 ≤ length → (length - 9).toNat ≤ x.stream.length →
      (statePiece d length x).Frames x.stream (length - 9).toNat := by
  intro h
  obtain ⟨framed, rest, hpiece, -, -⟩ := h ⟨true, true⟩ 10 single (by decide) (by decide)
  have hfails : statePiece ⟨true, true⟩ 10 single = .assertion := by decide
  rw [hfails] at hpiece
  cases hpiece

end ACENetwork.BitTorrent.Piece
