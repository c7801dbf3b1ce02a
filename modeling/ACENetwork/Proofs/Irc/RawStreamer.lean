import Mathlib
import ACENetwork.Spec.Irc.RawStreamer
import ACENetwork.Proofs.Irc.Grammar

/-! The writes of the streamer stay inside the block: it behaves as if each of them was refused when
it does not fit. -/

namespace ACENetwork.Irc

namespace RawStreamer

theorem mapError_bind {E F A B : Type} (f : E → F) (x : Except E A) (g : A → Except E B) :
    (x >>= g).mapError f = x.mapError f >>= fun a => (g a).mapError f := by
  cases x <;> rfl

theorem put_eq {bytes : List UInt8} {m : MessageBlock} (h : bytes.length ≤ m.space) :
    put bytes m = (Streamer.copy m bytes).mapError outcome := by
  obtain ⟨m', hcopy, -⟩ := m.copy_eq_some bytes h
  simp only [put, Streamer.copy, hcopy, Except.mapError]

theorem copy_eq (m : MessageBlock) (bytes : List UInt8) :
    copy m bytes = (Streamer.copy m bytes).mapError outcome := by
  unfold copy Streamer.copy
  cases m.copy bytes <;> rfl

theorem copy_none {m : MessageBlock} {bytes : List UInt8} (h : m.space < bytes.length) :
    Streamer.copy m bytes = .error .noSpace := by
  rw [Streamer.copy, MessageBlock.copy, dif_neg (Nat.not_le.2 h)]

theorem checked_eq (bytes : List UInt8) (m : MessageBlock) :
    (check bytes.length m >>= fun _ => put bytes m) = (Streamer.copy m bytes).mapError outcome := by
  unfold check
  by_cases h : m.space < bytes.length
  · rw [if_pos h, copy_none h]
    rfl
  · rw [if_neg h]
    exact put_eq (Nat.not_lt.1 h)

theorem putChecked_eq (a : UInt8) (m : MessageBlock) :
    putChecked a m = (Streamer.copy m [a]).mapError outcome := checked_eq [a] m

theorem copyOptional_eq (mark : UInt8) (part : List UInt8) (m : MessageBlock) :
    copyOptional mark part m = (Streamer.copyOptional mark part m).mapError outcome := by
  unfold copyOptional Streamer.copyOptional
  by_cases hpart : part = []
  · rw [if_pos hpart, if_pos hpart]
    rfl
  · rw [if_neg hpart, if_neg hpart, mapError_bind]
    simp only [putChecked_eq, copy_eq]

/-- The first octet of the message needs no check in a block that is large enough. -/
theorem copyPrefix_eq (p : Prefix) {m : MessageBlock} (h : 1 ≤ m.space) :
    copyPrefix p m = (Streamer.copyPrefix p m).mapError outcome := by
  unfold copyPrefix Streamer.copyPrefix
  by_cases hp : p.origin = []
  · rw [if_pos hp, if_pos hp]
    rfl
  · rw [if_neg hp, if_neg hp, put_eq (show [colon].length ≤ m.space from h)]
    simp only [mapError_bind, copyOptional_eq, copy_eq, putChecked_eq]

theorem three_le_length_decimal (n : ℕ) : 3 ≤ (Streamer.decimal n).length := by
  simp only [Streamer.decimal, List.length_reverse, List.length_map, List.length_append,
    List.length_replicate]
  omega

theorem copyCommand_eq (c : Command) (m : MessageBlock) :
    copyCommand c m = (Streamer.copyCommand c m).mapError outcome := by
  cases c with
  | numeric n =>
    have hdigits := three_le_length_decimal n.toNat
    simp only [copyCommand, Streamer.copyCommand, check]
    by_cases hspace : m.space < 4
    · rw [if_pos hspace, if_pos hspace]
      rfl
    · have htext : ((Streamer.decimal n.toNat).take 3 ++ [0]).length ≤ m.space := by
        simp only [List.length_append, List.length_take, List.length_singleton]
        omega
      obtain ⟨m', hput, -⟩ := m.copy_eq_some _ htext
      rw [if_neg hspace, if_neg hspace]
      by_cases hlen : (Streamer.decimal n.toNat).length = 3
      · have hroom : (Streamer.decimal n.toNat).length ≤ m.space := by omega
        have hwrite := put_eq hroom
        simpa [put, hput, hlen, Bind.bind, Except.bind] using hwrite
      · simp [put, hput, hlen, Bind.bind, Except.bind, Except.mapError, outcome]
  | string s => exact copy_eq m s
  | invalid => rfl

theorem copyParameters_eq (ps : List (List UInt8)) (ranges : List (ℕ × ℕ)) (forward : ℕ)
    (m : MessageBlock) :
    copyParameters ranges forward ps m = (Streamer.copyParameters ranges forward ps m).mapError outcome := by
  induction ps generalizing ranges forward m with
  | nil => rfl
  | cons p ps ih =>
    cases ps with
    | nil =>
      unfold copyParameters Streamer.copyParameters
      by_cases hs : space ∈ p
      · rw [if_pos hs, if_pos hs]
        by_cases hlist : Streamer.separator forward (Streamer.advance forward ranges) = space
        · simp [hlist, mapError_bind, putChecked_eq, copy_eq]
        · simp [hlist, Except.mapError, outcome, throw, throwThe, MonadExceptOf.throw,
            Bind.bind, Except.bind]
      · rw [if_neg hs, if_neg hs]
        exact copy_eq m p
    | cons q ps =>
      unfold copyParameters Streamer.copyParameters
      simp only [mapError_bind, copy_eq, putChecked_eq, ih]

theorem copySeparator_eq (ps : List (List UInt8)) (m : MessageBlock) :
    copySeparator ps m = (Streamer.copySeparator ps m).mapError outcome := by
  unfold copySeparator Streamer.copySeparator
  by_cases hps : ps = []
  · rw [if_pos hps, if_pos hps]
    rfl
  · rw [if_neg hps, if_neg hps]
    exact putChecked_eq space m

theorem streamer_assertion {r : Record} {m : MessageBlock}
    (h : ¬ (m.length = 0 ∧ maximumFrameSize ≤ m.space)) :
    Streamer.handleDataMessage r m = .error .assertion := by
  unfold Streamer.handleDataMessage
  by_cases hlength : m.length = 0
  · have hspace : m.space < maximumFrameSize := Nat.not_le.1 fun hspace => h ⟨hlength, hspace⟩
    rw [if_neg (not_not.2 hlength), if_pos hspace]
    rfl
  · rw [if_pos hlength]
    rfl

theorem handleDataMessage_assertion {r : Record} {m : MessageBlock}
    (h : ¬ (m.length = 0 ∧ maximumFrameSize ≤ m.space)) : handleDataMessage r m = .error .assertion := by
  unfold handleDataMessage
  by_cases hlength : m.length = 0
  · have hspace : m.space < maximumFrameSize := Nat.not_le.1 fun hspace => h ⟨hlength, hspace⟩
    rw [if_neg (not_not.2 hlength), if_pos hspace]
    rfl
  · rw [if_pos hlength]
    rfl

theorem handleDataMessage_eq (r : Record) (m : MessageBlock) :
    handleDataMessage r m = (Streamer.handleDataMessage r m).mapError outcome := by
  by_cases h : m.length = 0 ∧ maximumFrameSize ≤ m.space
  · have hroom : 1 ≤ m.space := le_trans (by decide) h.2
    have hboundary := checked_eq frameBoundary
    simp only [frameBoundary, List.length_cons, List.length_nil] at hboundary
    simp [handleDataMessage, Streamer.handleDataMessage, h.1, Nat.not_lt.2 h.2, mapError_bind,
      copyPrefix_eq _ hroom, copyCommand_eq, copySeparator_eq, copyParameters_eq, hboundary, frameBoundary]
  · rw [handleDataMessage_assertion h, streamer_assertion h]
    rfl

end RawStreamer

/-- The ranges that the iterator has not left behind when it comes to a parameter. -/
structure Ahead (i : ℕ) (ranges : List (ℕ × ℕ)) : Prop where
  ordered : ∀ range ∈ ranges, range.1 ≤ range.2
  ascending : ranges.Pairwise fun a b => a.2 < b.1
  near : ∀ range ∈ ranges, i ≤ range.2 + 1

theorem ValidRanges.ahead {n : ℕ} {ranges : List (ℕ × ℕ)} (h : ValidRanges n ranges) : Ahead 0 ranges :=
  ⟨fun range hrange => (h.inside range hrange).1, h.ascending, fun _ _ => Nat.zero_le _⟩

def listMark (ranges : List (ℕ × ℕ)) (i : ℕ) : UInt8 := if InRange ranges i then comma else space

theorem inRange_cons {range : ℕ × ℕ} {ranges : List (ℕ × ℕ)} {i : ℕ} :
    InRange (range :: ranges) i ↔ range.1 ≤ i ∧ i ≤ range.2 ∨ InRange ranges i := by
  simp [InRange]

theorem inRange_advance {i j : ℕ} (hij : i ≤ j) (ranges : List (ℕ × ℕ)) :
    InRange (Streamer.advance i ranges) j ↔ InRange ranges j := by
  cases ranges with
  | nil => rfl
  | cons range ranges =>
    rw [Streamer.advance]
    by_cases hbehind : range.2 < i
    · rw [if_pos hbehind, inRange_cons]
      exact ⟨Or.inr, fun h => h.resolve_left fun hin => by omega⟩
    · rw [if_neg hbehind]

/-- One step of the iterator is enough, since each range ends behind the one before. -/
theorem Ahead.advance {i : ℕ} {ranges : List (ℕ × ℕ)} (h : Ahead i ranges) :
    Ahead (i + 1) (Streamer.advance i ranges) ∧ ∀ range ∈ Streamer.advance i ranges, i ≤ range.2 := by
  cases ranges with
  | nil => exact ⟨⟨by simp [Streamer.advance], List.Pairwise.nil, by simp [Streamer.advance]⟩,
      by simp [Streamer.advance]⟩
  | cons range ranges =>
    obtain ⟨hordered, hascending, hnear⟩ := h
    obtain ⟨hfirst, hrest⟩ := List.pairwise_cons.1 hascending
    have hlast := hnear range List.mem_cons_self
    have hrange := hordered range List.mem_cons_self
    rw [Streamer.advance]
    by_cases hbehind : range.2 < i
    · rw [if_pos hbehind]
      have hnext : ∀ next ∈ ranges, i ≤ next.2 := by
        intro next hnext
        have := hfirst next hnext
        have := hordered next (List.mem_cons_of_mem _ hnext)
        omega
      exact ⟨⟨fun next hin => hordered next (List.mem_cons_of_mem _ hin), hrest,
        fun next hin => Nat.succ_le_succ (hnext next hin)⟩, hnext⟩
    · rw [if_neg hbehind]
      have hnext : ∀ next ∈ range :: ranges, i ≤ next.2 := by
        intro next hnext
        rcases List.mem_cons.1 hnext with rfl | hin
        · omega
        · have := hfirst next hin
          have := hordered next hnext
          omega
      exact ⟨⟨hordered, hascending, fun next hin => Nat.succ_le_succ (hnext next hin)⟩, hnext⟩

theorem separator_first {i : ℕ} {ranges : List (ℕ × ℕ)} (hordered : ∀ range ∈ ranges, range.1 ≤ range.2)
    (hascending : ranges.Pairwise fun a b => a.2 < b.1) (hnear : ∀ range ∈ ranges, i ≤ range.2) :
    Streamer.separator i ranges = listMark ranges i := by
  cases ranges with
  | nil => simp [Streamer.separator, listMark, InRange]
  | cons range ranges =>
    rw [Streamer.separator, listMark]
    refine if_congr ?_ rfl rfl
    rw [inRange_cons]
    refine ⟨Or.inl, fun h => h.resolve_right ?_⟩
    rintro ⟨next, hnext, hin, -⟩
    have := (List.pairwise_cons.1 hascending).1 next hnext
    have := hnear range List.mem_cons_self
    omega

theorem separator_advance {i : ℕ} {ranges : List (ℕ × ℕ)} (h : Ahead i ranges) :
    Streamer.separator i (Streamer.advance i ranges) = listMark ranges i := by
  obtain ⟨hahead, hnear⟩ := h.advance
  rw [separator_first hahead.ordered hahead.ascending hnear]
  exact if_congr (inRange_advance le_rfl ranges) rfl rfl

/-- Octets are appended, or the message is given up for another reason than an assertion. -/
def Appends (f : MessageBlock → Except Streamer.Failure MessageBlock) (bytes : List UInt8) : Prop :=
  ∀ m, (∃ e, e ≠ .assertion ∧ f m = .error e) ∨ ∃ m', f m = .ok m' ∧ m'.content = m.content ++ bytes

namespace Appends

theorem pure {f : MessageBlock → Except Streamer.Failure MessageBlock} (hf : ∀ m, f m = .ok m) :
    Appends f [] := fun m => Or.inr ⟨m, hf m, (List.append_nil _).symm⟩

theorem bind {f g : MessageBlock → Except Streamer.Failure MessageBlock} {a b : List UInt8}
    (hf : Appends f a) (hg : Appends g b) : Appends (fun m => f m >>= g) (a ++ b) := by
  intro m
  rcases hf m with ⟨e, he, herror⟩ | ⟨m₁, hm₁, hcontent₁⟩
  · refine Or.inl ⟨e, he, ?_⟩
    simp only [herror, Bind.bind, Except.bind]
  · simp only [hm₁, Bind.bind, Except.bind]
    rcases hg m₁ with herror | ⟨m₂, hm₂, hcontent₂⟩
    · exact Or.inl herror
    · refine Or.inr ⟨m₂, hm₂, ?_⟩
      rw [hcontent₂, hcontent₁, List.append_assoc]

theorem copy (bytes : List UInt8) : Appends (Streamer.copy · bytes) bytes := by
  intro m
  by_cases h : bytes.length ≤ m.space
  · obtain ⟨m', hcopy, -, hcontent⟩ := m.copy_eq_some bytes h
    refine Or.inr ⟨m', ?_, hcontent⟩
    simp only [Streamer.copy, hcopy]
  · exact Or.inl ⟨.noSpace, by decide, RawStreamer.copy_none (Nat.not_le.1 h)⟩

theorem optional (mark : UInt8) (part : List UInt8) :
    Appends (Streamer.copyOptional mark part) (Irc.optional mark part) := by
  unfold Streamer.copyOptional Irc.optional
  by_cases hpart : part = []
  · simp only [if_pos hpart]
    exact pure fun m => rfl
  · simp only [if_neg hpart]
    exact (copy [mark]).bind (copy part)

theorem prefixFrame (p : Prefix) : Appends (Streamer.copyPrefix p) (Irc.prefixFrame p) := by
  unfold Streamer.copyPrefix Irc.prefixFrame
  by_cases hp : p.origin = []
  · simp only [if_pos hp]
    exact pure fun m => rfl
  · simp only [if_neg hp]
    exact (copy [colon]).bind ((copy p.origin).bind ((optional bang p.user).bind
      ((optional commercialAt p.host).bind (copy [space]))))

theorem command (c : Command) : Appends (Streamer.copyCommand c) (commandFrame c) := by
  intro m
  cases c with
  | numeric n =>
    unfold Streamer.copyCommand
    by_cases hspace : m.space < 4
    · exact Or.inl ⟨.noSpace, by decide, if_pos hspace⟩
    · by_cases hlen : (Streamer.decimal n.toNat).length ≠ 3
      · exact Or.inl ⟨.digits, by decide, by simp only [if_neg hspace, if_pos hlen]⟩
      · simp only [if_neg hspace, if_neg hlen]
        exact copy _ m
  | string s => exact copy s m
  | invalid => exact Or.inl ⟨.invalidCommand, by decide, rfl⟩

theorem parameters {ps : List (List UInt8)} {ranges : List (ℕ × ℕ)} {forward : ℕ}
    (hahead : Ahead forward ranges)
    (hlast : ∀ p ∈ ps.getLast?, space ∈ p → ¬ InRange ranges (forward + (ps.length - 1))) :
    Appends (Streamer.copyParameters ranges forward ps) (writtenParameters ranges forward ps) := by
  induction ps generalizing ranges forward with
  | nil => exact pure fun m => rfl
  | cons p ps ih =>
    cases ps with
    | nil =>
      intro m
      rw [Streamer.copyParameters, writtenParameters, lastFrame]
      by_cases hs : space ∈ p
      · have hmark : Streamer.separator forward (Streamer.advance forward ranges) = space := by
          rw [separator_advance hahead]
          exact if_neg (hlast p rfl hs)
        simp only [if_pos hs, hmark, ne_eq, not_true_eq_false, if_false]
        exact (copy [colon]).bind (copy p) m
      · simp only [if_neg hs]
        exact copy p m
    | cons q ps =>
      refine (copy p).bind ((copy [_]).bind (ih hahead.advance.1 fun last hlast' hs => ?_))
      have hnot := hlast last hlast' hs
      rw [inRange_advance (by omega)]
      simp only [List.length_cons] at hnot ⊢
      rwa [show forward + 1 + (ps.length + 1 - 1) = forward + (ps.length + 1 + 1 - 1) by omega]

theorem separated {ps : List (List UInt8)} {ranges : List (ℕ × ℕ)} (hvalid : ValidRanges ps.length ranges)
    (hlast : ∀ p ∈ ps.getLast?, space ∈ p → ¬ InRange ranges (ps.length - 1)) :
    Appends (fun m => Streamer.copySeparator ps m >>= Streamer.copyParameters ranges 0 ps)
      (if ps = [] then [] else space :: writtenParameters ranges 0 ps) := by
  have hparameters := parameters hvalid.ahead (by simpa using hlast)
  unfold Streamer.copySeparator
  by_cases hps : ps = []
  · subst hps
    exact pure fun m => rfl
  · simp only [if_neg hps]
    exact (copy [space]).bind hparameters

theorem handleDataMessage {r : Record} (hvalid : ValidRanges r.parameters.length r.parameterRanges)
    (hlast : PlainListEnd r) {m : MessageBlock} (hempty : m.content = [])
    (hspace : maximumFrameSize ≤ m.space) :
    (∃ e, e ≠ .assertion ∧ Streamer.handleDataMessage r m = .error e) ∨
      ∃ m', Streamer.handleDataMessage r m = .ok m' ∧ m'.content = writtenFrame r := by
  have hwrites := (prefixFrame r.prefix_).bind ((command r.command).bind
    ((separated hvalid hlast).bind (copy frameBoundary)))
  have hlength : m.length = 0 := by rw [MessageBlock.length, hempty, List.length_nil]
  have heq : Streamer.handleDataMessage r m = (Streamer.copyPrefix r.prefix_ m >>= fun m =>
      Streamer.copyCommand r.command m >>= fun m => (Streamer.copySeparator r.parameters m >>=
        Streamer.copyParameters r.parameterRanges 0 r.parameters) >>= (Streamer.copy · frameBoundary)) := by
    simp [Streamer.handleDataMessage, hlength, Nat.not_lt.2 hspace]
  rw [heq]
  simpa [hempty, writtenFrame] using hwrites m

end Appends

theorem mapError_outcome {x : Except Streamer.Failure MessageBlock} :
    x.mapError RawStreamer.outcome ≠ .error .overrun := by
  cases x with
  | ok m => exact fun h => nomatch h
  | error e => cases e <;> exact fun h => nomatch h

/-- The function writes nothing outside the block, and either leaves a whole frame or releases the
message, unless the last parameter is an item of a list and contains a SPACE. -/
theorem handleDataMessage_all_or_nothing {r : Record} {m : MessageBlock}
    (hvalid : ValidRanges r.parameters.length r.parameterRanges) (hempty : m.content = [])
    (hspace : maximumFrameSize ≤ m.space) :
    RawStreamer.handleDataMessage r m ≠ .error .overrun ∧
      (PlainListEnd r → RawStreamer.handleDataMessage r m = .error .released ∨
        ∃ m', RawStreamer.handleDataMessage r m = .ok m' ∧ m'.content = writtenFrame r) := by
  rw [RawStreamer.handleDataMessage_eq]
  refine ⟨mapError_outcome, fun hlast => ?_⟩
  rcases Appends.handleDataMessage hvalid hlast hempty hspace with ⟨e, he, herror⟩ | ⟨m', hm', hcontent⟩
  · rw [herror]
    cases e with
    | assertion => exact absurd rfl he
    | noSpace => exact Or.inl rfl
    | digits => exact Or.inl rfl
    | invalidCommand => exact Or.inl rfl
  · exact Or.inr ⟨m', by rw [hm']; rfl, hcontent⟩

/-- `NOTICE a,b :c d`. -/
def notice : Record :=
  { command := .string [78, 79, 84, 73, 67, 69]
    parameters := [[97], [98], [99, 32, 100]]
    parameterRanges := [(0, 1)] }

theorem notice_all_or_nothing :
    RawStreamer.handleDataMessage notice (MessageBlock.allocate 512) ≠ .error .overrun ∧
      (PlainListEnd notice →
        RawStreamer.handleDataMessage notice (MessageBlock.allocate 512) = .error .released ∨
        ∃ m', RawStreamer.handleDataMessage notice (MessageBlock.allocate 512) = .ok m' ∧
          m'.content = writtenFrame notice) :=
  handleDataMessage_all_or_nothing (by decide) rfl (by decide)

/-- `NOTICE` with one list, whose last item contains a SPACE. -/
def noticeList : Record :=
  { command := .string [78, 79, 84, 73, 67, 69]
    parameters := [[97], [98, 32, 99]]
    parameterRanges := [(0, 1)] }

/-- A last parameter with a SPACE that is an item of a list. -/
theorem listEnd_assertion :
    ¬ ∀ (r : Record) (m : MessageBlock), ValidRanges r.parameters.length r.parameterRanges →
      m.content = [] → maximumFrameSize ≤ m.space →
      RawStreamer.handleDataMessage r m = .error .released ∨
        ∃ m', RawStreamer.handleDataMessage r m = .ok m' ∧ frameBoundary <:+ m'.content := by
  intro h
  have hfails : RawStreamer.handleDataMessage noticeList (MessageBlock.allocate 512) = .error .assertion :=
    rfl
  rcases h noticeList (MessageBlock.allocate 512) (by decide) rfl
    (by decide) with hreleased | ⟨m', hm', -⟩
  · rw [hfails] at hreleased
    cases hreleased
  · rw [hfails] at hm'
    cases hm'

theorem joined_eq_iff {f g : ℕ → UInt8} {i : ℕ} {ps : List (List UInt8)} :
    joined f i ps = joined g i ps ↔ ∀ j, j + 1 < ps.length → f (i + j) = g (i + j) := by
  induction ps generalizing i with
  | nil => simp [joined]
  | cons p ps ih =>
    cases ps with
    | nil => simp [joined]
    | cons q ps =>
      rw [joined, joined, List.append_cancel_left_eq, List.cons.injEq, ih]
      refine ⟨fun h j hj => ?_, fun h => ⟨h 0 (by simp), fun j hj => ?_⟩⟩
      · cases j with
        | zero => exact h.1
        | succ j =>
          have := h.2 j (by simpa using hj)
          rwa [Nat.add_assoc, Nat.add_comm 1 j] at this
      · have := h (j + 1) (by simpa using hj)
        rwa [Nat.add_assoc, Nat.add_comm 1 j]

/-- Without SPACEs in the parameters, the marks between them are all that is added. -/
theorem writtenParameters_eq {ps : List (List UInt8)} {ranges : List (ℕ × ℕ)} {i : ℕ}
    (hahead : Ahead i ranges) (hps : ∀ p ∈ ps, space ∉ p) :
    writtenParameters ranges i ps = joined (listMark ranges) i ps := by
  induction ps generalizing ranges i with
  | nil => rfl
  | cons p ps ih =>
    cases ps with
    | nil => exact if_neg (hps p List.mem_cons_self)
    | cons q ps =>
      have hrest : joined (listMark (Streamer.advance i ranges)) (i + 1) (q :: ps) =
          joined (listMark ranges) (i + 1) (q :: ps) := by
        rw [joined_eq_iff]
        exact fun j _ => if_congr (inRange_advance (by omega) ranges) rfl rfl
      rw [writtenParameters, joined, separator_advance hahead,
        ih hahead.advance.1 fun r hr => hps r (List.mem_cons_of_mem _ hr), hrest]

theorem listMark_eq_listSeparator {ranges : List (ℕ × ℕ)} {i : ℕ} :
    listMark ranges i = listSeparator ranges i ↔ (InRange ranges i → SameRange ranges i) := by
  have hsub : SameRange ranges i → InRange ranges i := by
    rintro ⟨range, hrange, hfirst, hlast⟩
    exact ⟨range, hrange, hfirst, by omega⟩
  unfold listMark listSeparator
  by_cases hin : InRange ranges i <;> by_cases hsame : SameRange ranges i
  · simp [hin, hsame]
  · simpa [hin, hsame] using (by decide : comma ≠ space)
  · exact absurd (hsub hsame) hin
  · simp [hin, hsame]

theorem ValidRanges.eq_of_inRange {n i : ℕ} {ranges : List (ℕ × ℕ)} (h : ValidRanges n ranges)
    {a b : ℕ × ℕ} (ha : a ∈ ranges) (hb : b ∈ ranges) (hia : a.1 ≤ i ∧ i ≤ a.2) (hib : b.1 ≤ i ∧ i ≤ b.2) :
    a = b := by
  by_contra hne
  have hsymm : Std.Symm fun a b : ℕ × ℕ => a.2 < b.1 ∨ b.2 < a.1 := ⟨fun _ _ hab => hab.symm⟩
  have hapart : ranges.Pairwise fun a b => a.2 < b.1 ∨ b.2 < a.1 := h.ascending.imp Or.inl
  rcases hapart.forall ha hb hne with hab | hba <;> omega

theorem listMarks_iff {n : ℕ} {ranges : List (ℕ × ℕ)} (h : ValidRanges n ranges) :
    (∀ i, i + 1 < n → listMark ranges i = listSeparator ranges i) ↔
      ∀ range ∈ ranges, range.2 + 1 = n := by
  simp only [listMark_eq_listSeparator]
  refine ⟨fun hmarks range hrange => ?_, fun hends i hi hin => ?_⟩
  · obtain ⟨hordered, hinside⟩ := h.inside range hrange
    by_contra hne
    obtain ⟨other, hother, hfirst, hlast⟩ := hmarks range.2 (by omega) ⟨range, hrange, hordered, le_rfl⟩
    have := h.eq_of_inRange hrange hother ⟨hordered, le_rfl⟩ ⟨hfirst, by omega⟩
    subst this
    omega
  · obtain ⟨range, hrange, hfirst, hlast⟩ := hin
    have := hends range hrange
    exact ⟨range, hrange, hfirst, by omega⟩

theorem handleDataMessage_content {r : Record} (hvalid : ValidRanges r.parameters.length r.parameterRanges)
    (hlast : PlainListEnd r) {m m' : MessageBlock} (h : RawStreamer.handleDataMessage r m = .ok m') :
    m'.content = writtenFrame r := by
  by_cases hstart : m.length = 0 ∧ maximumFrameSize ≤ m.space
  · rw [RawStreamer.handleDataMessage_eq] at h
    rcases Appends.handleDataMessage hvalid hlast (List.eq_nil_of_length_eq_zero hstart.1) hstart.2 with
      ⟨e, -, herror⟩ | ⟨m₁, hm₁, hcontent⟩
    · rw [herror] at h
      cases h
    · rw [hm₁] at h
      rw [← Except.ok.inj h, hcontent]
  · rw [RawStreamer.handleDataMessage_assertion hstart] at h
    cases h

/-- The parameters are separated as their ranges say exactly when no range ends in front of another
parameter: the octet behind the last item of a list is a comma too. -/
theorem separatesLists_iff {r : Record} {m m' : MessageBlock}
    (hvalid : ValidRanges r.parameters.length r.parameterRanges) (hitems : ∀ p ∈ r.parameters, IsItem p)
    (h : RawStreamer.handleDataMessage r m = .ok m') :
    m'.content = listFrame r ↔ ∀ range ∈ r.parameterRanges, range.2 + 1 = r.parameters.length := by
  have hplain : ∀ p ∈ r.parameters, space ∉ p := fun p hp hs => (hitems p hp).octets space hs (by simp)
  have hlast : PlainListEnd r := fun p hp hs => absurd hs (hplain p (List.mem_of_mem_getLast? hp))
  rw [handleDataMessage_content hvalid hlast h, writtenFrame, listFrame, List.append_cancel_left_eq,
    List.append_cancel_left_eq, List.append_cancel_right_eq, writtenParameters_eq hvalid.ahead hplain,
    ← listMarks_iff hvalid]
  by_cases hps : r.parameters = []
  · simp [hps]
  · rw [if_neg hps, if_neg hps, List.cons.injEq, joined_eq_iff]
    simp

/-- `JOIN` with two channels and a key. -/
def joinKey : Record :=
  { command := .string [74, 79, 73, 78]
    parameters := [[35, 97], [35, 98], [107]]
    parameterRanges := [(0, 1)] }

/-- `JOIN` with two channels. -/
def joinBoth : Record :=
  { command := .string [74, 79, 73, 78]
    parameters := [[35, 97], [35, 98]]
    parameterRanges := [(0, 1)] }

theorem exists_ok {x : Except RawStreamer.Failure MessageBlock} (h : x.toOption.isSome = true) :
    ∃ m, x = .ok m := by
  cases x with
  | ok m => exact ⟨m, rfl⟩
  | error e => cases h

theorem separatesLists_joinBoth : ∃ m, RawStreamer.handleDataMessage joinBoth (MessageBlock.allocate 512) =
    .ok m ∧ m.content = listFrame joinBoth := by
  have hok : (RawStreamer.handleDataMessage joinBoth (MessageBlock.allocate 512)).toOption.isSome = true := by
    decide +kernel
  obtain ⟨m, hm⟩ := exists_ok hok
  exact ⟨m, hm, (separatesLists_iff (by decide) (by decide +kernel) hm).2 (by decide)⟩

/-- The key is sent as one more channel. -/
theorem joinKey_not_separated :
    ¬ ∀ (r : Record) (m m' : MessageBlock), ValidRanges r.parameters.length r.parameterRanges →
      (∀ p ∈ r.parameters, IsItem p) → RawStreamer.handleDataMessage r m = .ok m' →
      m'.content = listFrame r := by
  intro h
  have hvalid : ValidRanges joinKey.parameters.length joinKey.parameterRanges := by decide
  have hlast : PlainListEnd joinKey := fun p hp hs => absurd hs (by
    rw [← Option.some.inj hp]
    decide)
  have hok : (RawStreamer.handleDataMessage joinKey (MessageBlock.allocate 512)).toOption.isSome = true := by
    decide +kernel
  obtain ⟨m, hm⟩ := exists_ok hok
  have hframe := h joinKey _ m hvalid (by decide +kernel) hm
  rw [handleDataMessage_content hvalid hlast hm] at hframe
  exact absurd hframe (by decide)

end ACENetwork.Irc
