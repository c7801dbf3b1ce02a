import Mathlib
import ACENetwork.Spec.Irc.Bisector

/-! The module refines the framing of its input as long as it can count the bytes of the frames in
it. The induction over a fragment carries what the counters of the loop have to do with the bytes
that are scanned: nothing, once a stray CR or LF stands behind the last frame. -/

namespace ACENetwork.Irc.Bisector

open Flex Pattern

variable {c : Start} {a : UInt8} {b w : List UInt8} {n : ℕ}

theorem lex_rule {name : RuleName} {scanner : Scanner} (hw : w ≠ [])
    (hb : scanner.buffer = w ++ b) (h : select rules scanner.start (w ++ b) = some (name, w.length)) :
    lex scanner = act name (scanner.more + w.length) ⟨scanner.start, b, 0⟩ := by
  unfold lex
  rw [hb, if_neg (by simp [hw]), h]
  simp

theorem lex_word (r last : Rule Start UInt8 RuleName) (hw : w ≠ [])
    (hc : ∀ a ∈ w.head?, candidates rules c a = [r, last]) (hon : r.on c = true)
    (hlast : last.pattern = any) (hr : r.pattern.longest (w ++ b) = some w.length) :
    lex ⟨c, w ++ b, n⟩ = act r.name (n + w.length) ⟨c, b, 0⟩ :=
  lex_rule hw rfl (select_word hc hw hon hlast hr)

theorem lex_any (last : Rule Start UInt8 RuleName) (hc : candidates rules c a = [last])
    (hon : last.on c = true) (hlast : last.pattern = any) :
    lex ⟨c, a :: b, n⟩ = act last.name (n + 1) ⟨c, b, 0⟩ := by
  refine lex_rule (w := [a]) (by simp) rfl ?_
  rw [List.singleton_append, select_candidates, hc]
  simp [select, hon, hlast, longest_any]

variable {scanner : Scanner}

theorem lex_carriageReturn (hs : scanner.start = .initial) (hb : scanner.buffer = 13 :: b) :
    lex scanner = .next ⟨.endOfFrame, b, 0⟩ := by
  obtain ⟨c, buffer, n⟩ := scanner
  obtain rfl := hs
  obtain rfl := hb
  exact lex_word (w := [13]) ⟨on .initial, literal [13], .carriageReturn⟩
    ⟨on .initial, any, .char⟩ (by simp) (by simp [candidates, rules, on, isMessage]) rfl rfl
    (longest_literal [13] b)

theorem lex_char (hs : scanner.start = .initial) (hb : scanner.buffer = 10 :: b) :
    lex scanner = .chunk (.bytes (scanner.more + 1)) ⟨.initial, b, scanner.more + 1⟩ := by
  obtain ⟨c, buffer, n⟩ := scanner
  obtain rfl := hs
  obtain rfl := hb
  exact lex_any ⟨on .initial, any, .char⟩ (by simp [candidates, rules, on, isMessage]) rfl rfl

theorem lex_message (hs : scanner.start = .initial) (hne : w ≠ []) (hw : Clean w)
    (hhead : ∀ a ∈ b.head?, isMessage a = false) (hb : scanner.buffer = w ++ b) :
    lex scanner = .chunk (.bytes (scanner.more + w.length)) ⟨.initial, b, 0⟩ := by
  obtain ⟨c, buffer, n⟩ := scanner
  obtain rfl := hs
  obtain rfl := hb
  refine lex_word ⟨on .initial, plus isMessage, .message⟩ ⟨on .initial, any, .char⟩
    hne (fun a ha => ?_) rfl rfl (longest_plus hne hw hhead)
  have hm := hw a (List.mem_of_mem_head? ha)
  have h13 : a ≠ 13 := by rintro rfl; exact absurd hm (by decide)
  simp [candidates, rules, on, hm, h13]

theorem lex_frameEnd (hs : scanner.start = .endOfFrame) (hb : scanner.buffer = 10 :: b) :
    lex scanner = .chunk .frameEnd ⟨.initial, b, 0⟩ := by
  obtain ⟨c, buffer, n⟩ := scanner
  obtain rfl := hs
  obtain rfl := hb
  exact lex_word (w := [10]) ⟨on .endOfFrame, literal [10], .frameEnd⟩
    ⟨on .endOfFrame, any, .endOfFrameChar⟩ (by simp) (by simp [candidates, rules, on]) rfl rfl
    (longest_literal [10] b)

theorem lex_endOfFrameChar (hs : scanner.start = .endOfFrame) (ha : a ≠ 10)
    (hb : scanner.buffer = a :: b) :
    lex scanner = .chunk (.bytes (scanner.more + 1)) ⟨.initial, b, scanner.more + 1⟩ := by
  obtain ⟨c, buffer, n⟩ := scanner
  obtain rfl := hs
  obtain rfl := hb
  exact lex_any ⟨on .endOfFrame, any, .endOfFrameChar⟩ (by simp [candidates, rules, on, ha])
    rfl rfl

namespace Framing

variable {x : Framing}

theorem foldl_clean (hx : x.start = .initial) (hw : Clean w) :
    w.foldl byte x = { x with pending := x.pending ++ w } := by
  induction w generalizing x with
  | nil => simp
  | cons a w ih =>
    have ha : a ≠ 13 := by
      rintro rfl
      exact absurd (hw 13 List.mem_cons_self) (by decide)
    have hbyte : x.byte a = { x with pending := x.pending ++ [a] } := by
      rw [byte, hx]
      simp [ha]
    rw [List.foldl_cons, hbyte]
    refine (ih (x := { x with pending := x.pending ++ [a] }) hx fun b hb => hw b (List.mem_cons_of_mem a hb)).trans ?_
    simp

theorem frames_byte : x.frames <+: (x.byte a).frames := by
  unfold byte
  split
  · exact List.prefix_rfl
  · split_ifs
    · exact List.prefix_append _ _
    · exact List.prefix_rfl

theorem frames_foldl : x.frames <+: (b.foldl byte x).frames := by
  induction b generalizing x with
  | nil => exact List.prefix_rfl
  | cons a b ih => exact frames_byte.trans ih

/-- What is behind the last frame is the beginning of a line. -/
def Line (x : Framing) : Prop :=
  match x.start with
  | .initial => Clean x.pending
  | .endOfFrame => ∃ w, Clean w ∧ x.pending = w ++ [13]

def unscanned (x : Framing) : ℕ := if x.alone then 1 else 0

/-- The CR that the counter leaves out until the LF is there. -/
def waiting (x : Framing) : ℕ := if x.start = .endOfFrame then 1 else 0

end Framing

open Framing (byte unscanned waiting)

variable {s : Scan} {x : Framing} {m : Module} {scanned : List UInt8} {f : Fragment}

/-- The module and the framing agree between two calls. -/
structure Agrees (m : Module) (x : Framing) : Prop where
  start : m.start = x.start
  buffer : m.buffer.flatten = x.pending
  pushed : m.pushed.map List.flatten = x.frames.map Frame.bytes
  boundary : x.start = .endOfFrame → ∃ w, x.pending = w ++ [13]
  alone : x.alone = true → x.pending ≠ []
  counted : x.Line →
    m.messageLength.toNat + x.unscanned + x.waiting ≡ x.pending.length [MOD 2 ^ 32]

/-- They agree within the loop, where a part of the block is scanned. -/
structure Follows (s : Scan) (x : Framing) (scanned : List UInt8) : Prop where
  start : s.scanner.start = x.start
  block : s.block = scanned ++ s.scanner.buffer
  fits : s.block.length < 2 ^ 31
  pending : x.pending = s.earlier.flatten ++ scanned
  pushed : s.pushed.map List.flatten = x.frames.map Frame.bytes
  boundary : x.start = .endOfFrame → ∃ w, x.pending = w ++ [13]
  alone : x.alone = true → x.pending ≠ []
  more : x.Line → s.scanner.more = 0
  scannedBytes : x.Line →
    s.scannedBytes.toNat + (if scanned = [] then 0 else x.waiting) = scanned.length
  counted : x.Line → s.messageLength.toNat + x.unscanned + (if scanned = [] then x.waiting else 0) ≡
    s.earlier.flatten.length [MOD 2 ^ 32]

theorem Follows.endOfBuffer (h : Follows s x scanned) (hb : s.scanner.buffer = []) :
    ∃ m, s.body = .done (.returned m) ∧ Agrees m x := by
  have hlex : lex s.scanner = .chunk .endOfBuffer { s.scanner with more := 0 } := by
    rw [lex, if_pos hb]
  refine ⟨_, by rw [Scan.body, hlex], ⟨h.start, ?_, h.pushed, h.boundary, h.alone, fun hline => ?_⟩⟩
  · rw [List.flatten_append, h.pending, h.block, hb]
    simp
  · have h1 := h.scannedBytes hline
    have h2 := h.counted hline
    rw [h.pending, List.length_append]
    simp only [UInt32.toNat_add, Nat.ModEq] at h2 ⊢
    split_ifs at h1 h2 <;> omega

theorem Follows.carriageReturn (h : Follows s x scanned) (hx : x.start = .initial)
    (hb : s.scanner.buffer = 13 :: b) :
    ∃ s', s.body = .again s' ∧ Follows s' (x.byte 13) (scanned ++ [13]) ∧ s'.scanner.buffer = b := by
  have hlex := lex_carriageReturn (h.start.trans hx) hb
  have hbyte : x.byte 13 = { x with start := .endOfFrame, pending := x.pending ++ [13] } := by
    rw [byte, hx]
    rfl
  have hline : (x.byte 13).Line → x.Line := by
    rw [hbyte]
    rintro ⟨w, hw, hp⟩
    rw [Framing.Line, hx]
    exact List.append_cancel_right hp ▸ hw
  refine ⟨_, by rw [Scan.body, hlex], ?_, rfl⟩
  rw [hbyte] at hline ⊢
  refine ⟨rfl, by simp [h.block, hb], h.fits, by simp [h.pending], h.pushed, fun _ => ⟨_, rfl⟩,
    fun _ => by simp, fun _ => rfl, fun hl => ?_, fun hl => ?_⟩
  · have := h.scannedBytes (hline hl)
    simp [waiting, hx] at this ⊢
    exact this
  · have := h.counted (hline hl)
    simpa [waiting, unscanned, hx] using this

theorem Follows.char (h : Follows s x scanned) (hx : x.start = .initial)
    (hb : s.scanner.buffer = 10 :: b) :
    ∃ s', s.body = .again s' ∧ Follows s' (x.byte 10) (scanned ++ [10]) ∧ s'.scanner.buffer = b := by
  have hlex := lex_char (h.start.trans hx) hb
  have hbyte : x.byte 10 = { x with pending := x.pending ++ [10] } := by
    rw [byte, hx]
    simp
  have hline : ¬ (x.byte 10).Line := by
    rw [hbyte, Framing.Line, hx]
    intro hw
    exact absurd (hw 10 (by simp)) (by decide)
  refine ⟨_, by rw [Scan.body, hlex], ?_, rfl⟩
  rw [hbyte] at hline ⊢
  refine ⟨hx.symm, by simp [h.block, hb], h.fits, by simp [h.pending], h.pushed,
    fun h0 => ?_, fun _ => by simp, fun hl => absurd hl hline, fun hl => absurd hl hline,
    fun hl => absurd hl hline⟩
  exact absurd (hx.symm.trans h0) (by decide)

theorem Follows.message (h : Follows s x scanned) (hx : x.start = .initial) (hne : w ≠ [])
    (hw : Clean w) (hhead : ∀ a ∈ b.head?, isMessage a = false) (hb : s.scanner.buffer = w ++ b) :
    ∃ s', s.body = .again s' ∧ Follows s' (w.foldl byte x) (scanned ++ w) ∧ s'.scanner.buffer = b := by
  have hlex := lex_message (h.start.trans hx) hne hw hhead hb
  have hline : ({ x with pending := x.pending ++ w } : Framing).Line → x.Line := by
    rw [Framing.Line, Framing.Line, hx]
    exact fun hl a ha => hl a (List.mem_append_left _ ha)
  refine ⟨_, by rw [Scan.body, hlex], ?_, rfl⟩
  rw [Framing.foldl_clean hx hw]
  refine ⟨hx.symm, by simp [h.block, hb], h.fits, by simp [h.pending], h.pushed,
    fun h0 => absurd (hx.symm.trans h0) (by decide), fun _ => by simp [hne], fun _ => rfl,
    fun hl => ?_, fun hl => ?_⟩
  · have h1 := h.scannedBytes (hline hl)
    have h2 := h.more (hline hl)
    have hfits := h.fits
    rw [h.block, hb] at hfits
    simp only [waiting, hx, List.length_append] at h1 hfits ⊢
    simp [h2, UInt32.toNat_add, UInt32.toNat_ofNat'] at h1 ⊢
    omega
  · have := h.counted (hline hl)
    simpa [waiting, unscanned, hx] using this

theorem Follows.endOfFrameChar (h : Follows s x scanned) (hx : x.start = .endOfFrame) (ha : a ≠ 10)
    (hb : s.scanner.buffer = a :: b) :
    ∃ s', s.body = .again s' ∧ Follows s' (x.byte a) (scanned ++ [a]) ∧ s'.scanner.buffer = b := by
  have hlex := lex_endOfFrameChar (h.start.trans hx) ha hb
  have hbyte : x.byte a = { x with start := .initial, pending := x.pending ++ [a] } := by
    rw [byte, hx]
    simp [ha]
  have hline : ¬ (x.byte a).Line := by
    obtain ⟨w, hp⟩ := h.boundary hx
    rw [hbyte, Framing.Line, hp]
    intro hw
    exact absurd (hw 13 (by simp)) (by decide)
  refine ⟨_, by rw [Scan.body, hlex], ?_, rfl⟩
  rw [hbyte] at hline ⊢
  exact ⟨rfl, by simp [h.block, hb], h.fits, by simp [h.pending], h.pushed, nofun, fun _ => by simp,
    fun hl => absurd hl hline, fun hl => absurd hl hline, fun hl => absurd hl hline⟩

theorem Follows.frameEnd (h : Follows s x scanned) (hx : x.start = .endOfFrame) (hline : x.Line)
    (hb : s.scanner.buffer = 10 :: b) :
    ∃ sb ml, s.body = s.cut sb ml ⟨.initial, b, 0⟩ ∧ sb.toNat = scanned.length + 1 ∧
      ml.toNat + x.unscanned ≡ x.pending.length + 1 [MOD 2 ^ 32] := by
  have hlex := lex_frameEnd (h.start.trans hx) hb
  have hscanned := h.scannedBytes hline
  have hcounted := h.counted hline
  have hfits := h.fits
  rw [h.block, hb, List.length_append, List.length_cons] at hfits
  have hpending := congrArg List.length h.pending
  rw [List.length_append] at hpending
  simp only [waiting, hx, if_true, Nat.ModEq] at hscanned hcounted ⊢
  by_cases hne : scanned = []
  · -- the CR came in an earlier fragment
    have hzero : s.scannedBytes = 0 := UInt32.toNat_inj.1 (by simpa [hne] using hscanned)
    have hhead : s.block.head? = some 10 := by simp [h.block, hne, hb]
    refine ⟨_, _, by simp only [Scan.body, hlex]; exact if_pos ⟨hzero, hhead⟩, by simp [hne], ?_⟩
    simp only [hne, if_true, List.length_nil] at hcounted hpending
    simp only [UInt32.toNat_add, UInt32.reduceToNat]
    omega
  · have hlast : ¬ (s.scannedBytes = 0 ∧ s.block.head? = some 10) := by
      rintro ⟨hzero, hhead⟩
      have hone : scanned.length = 1 := by simpa [hzero, hne] using hscanned.symm
      obtain ⟨a, rfl⟩ := List.length_eq_one_iff.1 hone
      obtain ⟨w, hw⟩ := h.boundary hx
      obtain rfl : a = 13 := by
        rw [h.pending] at hw
        exact List.singleton_inj.1 (List.append_inj' hw rfl).2
      simp [h.block] at hhead
    refine ⟨_, _, by simp only [Scan.body, hlex]; exact if_neg hlast, ?_, ?_⟩
    · simp only [hne, if_false] at hscanned
      simp only [UInt32.toNat_add, UInt32.reduceToNat]
      omega
    · simp only [hne, if_false] at hscanned hcounted
      simp only [UInt32.toNat_add, UInt32.reduceToNat]
      omega

theorem totalLength_append (c c' : Chain) :
    totalLength (c ++ c') = totalLength c + totalLength c' := by
  simp [totalLength]

theorem Follows.totalLength_eq (h : Follows s x scanned) (hb : s.scanner.buffer = 10 :: b) :
    totalLength s.earlier + scanned.length = x.pending.length ∧
      totalLength (s.earlier ++ [s.block]) = x.pending.length + 1 + b.length := by
  have hpending := congrArg List.length h.pending
  rw [List.length_append] at hpending
  refine ⟨hpending.symm, ?_⟩
  rw [totalLength_append, totalLength, totalLength, h.block, hb, hpending]
  simp
  omega

theorem Follows.cut (h : Follows s x scanned) (hx : x.start = .endOfFrame)
    (hb : s.scanner.buffer = 10 :: b) {sb ml : UInt32} (hsb : sb.toNat = scanned.length + 1)
    (hml : ml.toNat = x.pending.length + 1) :
    (b = [] ∧ ∃ m, s.cut sb ml ⟨.initial, b, 0⟩ = .done (.returned m) ∧ Agrees m (x.byte 10)) ∨
      ∃ s', s.cut sb ml ⟨.initial, b, 0⟩ = .again s' ∧ Follows s' (x.byte 10) [] ∧
        s'.scanner.buffer = b := by
  obtain ⟨hearlier, htotal⟩ := h.totalLength_eq hb
  have hbyte : x.byte 10 = { frames := x.frames ++ [⟨x.alone, x.pending ++ [10]⟩] } := by
    rw [byte, hx]
    rfl
  have hblock : s.block = (scanned ++ [10]) ++ b := by simp [h.block, hb]
  have hsplit : sb.toNat = (scanned ++ [10]).length := by simp [hsb]
  rw [hbyte, Scan.cut, htotal, hml]
  by_cases hnil : b = []
  · subst hnil
    refine Or.inl ⟨rfl, ?_⟩
    rw [if_neg (by simp), if_pos (by simp)]
    refine ⟨_, rfl, rfl, rfl, ?_, nofun, nofun, fun _ => rfl⟩
    simp [h.pushed, h.pending, hblock]
  · refine Or.inr ?_
    have hlen := List.length_pos_iff.2 hnil
    rw [if_pos (by omega), if_pos (by omega)]
    refine ⟨_, rfl, ⟨rfl, ?_, ?_, rfl, ?_, nofun, nofun, fun _ => rfl, fun _ => rfl, fun _ => rfl⟩, rfl⟩
    · rw [hsplit, hblock, List.drop_left]
      rfl
    · have hfits := h.fits
      rw [List.length_drop]
      omega
    · rw [hsplit, hblock, List.take_left]
      simp [h.pushed, h.pending]

theorem exists_message (ha : isMessage a = true) (b : List UInt8) :
    ∃ w b', a :: b = w ++ b' ∧ w ≠ [] ∧ Clean w ∧ ∀ a ∈ b'.head?, isMessage a = false := by
  refine ⟨(a :: b).takeWhile isMessage, (a :: b).dropWhile isMessage,
    List.takeWhile_append_dropWhile.symm, ?_, fun c hc => List.mem_takeWhile_imp hc, fun c hc => ?_⟩
  · rw [List.takeWhile_cons_of_pos ha]
    simp
  · have := List.head?_dropWhile_not isMessage (a :: b)
    rw [hc] at this
    simpa using this

theorem Follows.again (h : Follows s x scanned) (hne : s.scanner.buffer ≠ [])
    (hend : ¬ (x.start = .endOfFrame ∧ s.scanner.buffer.head? = some 10)) :
    ∃ s' w scanned', s.body = .again s' ∧ s.scanner.buffer = w ++ s'.scanner.buffer ∧ w ≠ [] ∧
      Follows s' (w.foldl byte x) scanned' ∧ (w.foldl byte x).frames = x.frames ∧
      ((∃ a, w = [a]) ∨ Clean w) := by
  obtain ⟨a, b, hb⟩ := List.exists_cons_of_ne_nil hne
  cases hx : x.start with
  | initial =>
    by_cases ha : isMessage a = true
    · obtain ⟨w, b', hw', hw, hclean, hhead⟩ := exists_message ha b
      obtain ⟨s', hbody, hs', hb'⟩ := h.message hx hw hclean hhead (hb.trans hw')
      exact ⟨s', w, _, hbody, by rw [hb, hw', hb'], hw, hs', by rw [Framing.foldl_clean hx hclean],
        Or.inr hclean⟩
    · by_cases h13 : a = 13
      · subst h13
        obtain ⟨s', hbody, hs', hb'⟩ := h.carriageReturn hx hb
        exact ⟨s', [13], _, hbody, by rw [hb, hb']; rfl, by simp, hs', by simp [byte, hx],
          Or.inl ⟨_, rfl⟩⟩
      · obtain rfl : a = 10 := by
          simp only [isMessage, decide_eq_true_eq] at ha
          tauto
        obtain ⟨s', hbody, hs', hb'⟩ := h.char hx hb
        exact ⟨s', [10], _, hbody, by rw [hb, hb']; rfl, by simp, hs', by simp [byte, hx],
          Or.inl ⟨_, rfl⟩⟩
  | endOfFrame =>
    have ha : a ≠ 10 := by
      rintro rfl
      exact hend ⟨hx, by rw [hb]; rfl⟩
    obtain ⟨s', hbody, hs', hb'⟩ := h.endOfFrameChar hx ha hb
    exact ⟨s', [a], _, hbody, by rw [hb, hb']; rfl, by simp, hs', by simp [byte, hx, ha],
      Or.inl ⟨_, rfl⟩⟩

theorem line_of_regular (hx : x.start = .endOfFrame)
    (hreg : Frame.Regular ⟨x.alone, x.pending ++ [10]⟩) :
    x.Line ∧ x.unscanned = 0 ∧ x.pending.length + 1 < 2 ^ 32 := by
  obtain ⟨halone, hlen, w, hw, hp⟩ := hreg
  refine ⟨?_, by rw [unscanned, if_neg (by simpa using halone)], by simpa using hlen⟩
  have hpending : x.pending = w ++ [13] := by
    have : x.pending ++ [10] = (w ++ [13]) ++ [10] := by simpa [frameBoundary] using hp
    exact List.append_cancel_right this
  rw [Framing.Line, hx]
  exact ⟨w, hw, hpending⟩

theorem Follows.returns (h : Follows s x scanned)
    (hreg : ∀ y ∈ (s.scanner.buffer.foldl byte x).frames, y.Regular) :
    ∃ m, Loop.Returns Scan.body s (.returned m) ∧ Agrees m (s.scanner.buffer.foldl byte x) := by
  induction hn : s.scanner.buffer.length using Nat.strong_induction_on generalizing s x scanned with
  | _ n ih =>
    by_cases hnil : s.scanner.buffer = []
    · obtain ⟨m, hbody, hm⟩ := h.endOfBuffer hnil
      exact ⟨m, (Loop.returns_done hbody).2 rfl, by rwa [hnil]⟩
    by_cases hend : x.start = .endOfFrame ∧ s.scanner.buffer.head? = some 10
    · obtain ⟨hx, hhead⟩ := hend
      obtain ⟨b, hb⟩ : ∃ b, s.scanner.buffer = 10 :: b := List.head?_eq_some_iff.1 hhead
      have hframe : (⟨x.alone, x.pending ++ [10]⟩ : Frame) ∈ (s.scanner.buffer.foldl byte x).frames := by
        rw [hb, List.foldl_cons]
        refine Framing.frames_foldl.subset ?_
        simp [byte, hx]
      obtain ⟨hline, hscanned, hlen⟩ := line_of_regular hx (hreg _ hframe)
      obtain ⟨sb, ml, hbody, hsb, hml⟩ := h.frameEnd hx hline hb
      have hml' : ml.toNat = x.pending.length + 1 := by
        have := ml.toNat_lt
        rw [hscanned, Nat.ModEq] at hml
        omega
      rcases h.cut hx hb hsb hml' with ⟨rfl, m, hcut, hm⟩ | ⟨s', hcut, hs', hb'⟩
      · exact ⟨m, (Loop.returns_done (hbody.trans hcut)).2 rfl, by rwa [hb]⟩
      · have hfoldl : s.scanner.buffer.foldl byte x = s'.scanner.buffer.foldl byte (x.byte 10) := by
          rw [hb, hb', List.foldl_cons]
        rw [hfoldl] at hreg ⊢
        obtain ⟨m, hm, hagrees⟩ := ih _ (by rw [← hn, hb, hb']; simp) hs' hreg rfl
        exact ⟨m, (Loop.returns_again (hbody.trans hcut)).2 hm, hagrees⟩
    · obtain ⟨s', w, scanned', hbody, hb, hw, hs', -, -⟩ := h.again hnil hend
      have hfoldl : s.scanner.buffer.foldl byte x = s'.scanner.buffer.foldl byte (w.foldl byte x) := by
        rw [hb, List.foldl_append]
      rw [hfoldl] at hreg ⊢
      have hlen : s'.scanner.buffer.length < n := by
        have := List.length_pos_iff.2 hw
        rw [← hn, hb, List.length_append]
        omega
      obtain ⟨m, hm, hagrees⟩ := ih _ hlen hs' hreg rfl
      exact ⟨m, (Loop.returns_again hbody).2 hm, hagrees⟩

theorem lex_shortens {k : Chunk} (hb : scanner.buffer ≠ []) {next : Scanner}
    (h : lex scanner = .next next ∨ lex scanner = .chunk k next) :
    next.buffer.length < scanner.buffer.length := by
  obtain ⟨a, b, ha⟩ := List.exists_cons_of_ne_nil hb
  obtain ⟨name, n, hsel, hn⟩ : ∃ name n, select rules scanner.start scanner.buffer = some (name, n) ∧
      1 ≤ n := by
    have hany : (any : Pattern UInt8).longest scanner.buffer = some 1 := by
      rw [longest_any, if_neg hb]
    cases hs : scanner.start with
    | initial => exact le_select (r := ⟨on .initial, any, .char⟩) (by simp [rules]) rfl hany
    | endOfFrame =>
      exact le_select (r := ⟨on .endOfFrame, any, .endOfFrameChar⟩) (by simp [rules]) rfl hany
  have hnext : next.buffer = scanner.buffer.drop n := by
    rw [lex, if_neg hb, hsel] at h
    cases name <;> simp only [act] at h <;> rcases h with h | h <;> cases h <;> rfl
  rw [hnext, List.length_drop, ha]
  simp
  omega

theorem cut_again {sb ml : UInt32} {s' : Scan} (h : s.cut sb ml scanner = .again s') :
    s'.scanner = scanner := by
  unfold Scan.cut at h
  split_ifs at h
  cases h
  rfl

theorem body_shortens {s' : Scan} (h : s.body = .again s') :
    s'.scanner.buffer.length < s.scanner.buffer.length := by
  have hb : s.scanner.buffer ≠ [] := by
    intro hnil
    have hlex : lex s.scanner = .chunk .endOfBuffer { s.scanner with more := 0 } := by
      rw [lex, if_pos hnil]
    rw [Scan.body, hlex] at h
    cases h
  unfold Scan.body at h
  split at h
  · rename_i next hlex
    cases h
    exact lex_shortens (k := .endOfBuffer) hb (Or.inl hlex)
  · cases h
  · cases h
  · rename_i next hlex
    split_ifs at h
    · rw [cut_again h]
      exact lex_shortens hb (Or.inr hlex)
    · rw [cut_again h]
      exact lex_shortens hb (Or.inr hlex)
  · rename_i n next hlex
    cases h
    exact lex_shortens hb (Or.inr hlex)

def Module.scan (m : Module) (f : Fragment) : Scan where
  earlier := m.buffer
  block := f.bytes
  messageLength := m.messageLength
  scanner := { start := m.start, buffer := f.bytes }
  pushed := m.pushed

theorem handleDataMessage_isSome (m : Module) (f : Fragment) : (m.handleDataMessage f).isSome := by
  rw [Module.handleDataMessage]
  split_ifs
  · rfl
  · exact Option.isSome_iff_exists.2 (Loop.exists_run_eq_some (fun s => s.scanner.buffer.length)
      (fun s s' => body_shortens) (Nat.lt_succ_self _))

theorem handleDataMessage_eq {o : Outcome} (hlen : ¬ totalLength (m.buffer ++ [f.bytes]) < 2) :
    m.handleDataMessage f = some o ↔ Loop.Returns Scan.body (m.scan f) o := by
  rw [Module.handleDataMessage, if_neg hlen]
  exact Loop.run_eq_some_iff (fun s => s.scanner.buffer.length) (fun s s' => body_shortens)
    (Nat.lt_succ_self _)

theorem Agrees.follows (h : Agrees m x) (f : Fragment) : Follows (m.scan f) x [] where
  start := h.start
  block := rfl
  fits := f.fits
  pending := by simp [Module.scan, h.buffer]
  pushed := h.pushed
  boundary := h.boundary
  alone := h.alone
  more _ := rfl
  scannedBytes _ := rfl
  counted hline := by
    simp only [if_true, Module.scan, h.buffer]
    exact h.counted hline

theorem Agrees.totalLength_eq (h : Agrees m x) (f : Fragment) :
    totalLength (m.buffer ++ [f.bytes]) = (x.pending ++ f.bytes).length := by
  simp [totalLength, ← h.buffer]

theorem Agrees.step_alone (h : Agrees m x) (hlen : (x.pending ++ f.bytes).length < 2) :
    ∃ m', m.step f = some m' ∧ Agrees m' (x.fragment f) := by
  have hpos := List.length_pos_iff.2 f.nonempty
  rw [List.length_append] at hlen
  have hpending : x.pending = [] := List.length_eq_zero_iff.1 (by omega)
  have hstart : x.start = .initial := by
    cases hx : x.start with
    | initial => rfl
    | endOfFrame =>
      obtain ⟨w, hw⟩ := h.boundary hx
      simp [hpending] at hw
  have halone : x.alone = false := by
    by_contra ha
    exact h.alone (by simpa using ha) hpending
  have hcounted := h.counted (by rw [Framing.Line, hstart, hpending]; nofun)
  have hlt := m.messageLength.toNat_lt
  have hzero : m.messageLength.toNat = 0 := by
    simp only [unscanned, halone, waiting, hstart, hpending, Nat.ModEq] at hcounted
    simp at hcounted
    omega
  have hframing : x.fragment f = { x with pending := x.pending ++ f.bytes, alone := true } := by
    rw [Framing.fragment, if_pos (by rw [List.length_append]; omega)]
  refine ⟨{ m with buffer := m.buffer ++ [f.bytes] }, ?_, ?_⟩
  · rw [Module.step, Module.handleDataMessage, h.totalLength_eq, if_pos (by rw [List.length_append]; omega)]
  · rw [hframing]
    refine ⟨h.start, by simp [h.buffer], h.pushed, fun h0 => ?_, fun _ => by simp [f.nonempty],
      fun _ => ?_⟩
    · exact absurd (hstart.symm.trans h0) (by decide)
    · have hone : f.bytes.length = 1 := by omega
      simp [unscanned, waiting, hstart, hzero, hpending, hone, Nat.ModEq]

theorem Agrees.step (h : Agrees m x) (hreg : ∀ y ∈ (x.fragment f).frames, y.Regular) :
    ∃ m', m.step f = some m' ∧ Agrees m' (x.fragment f) := by
  by_cases hlen : (x.pending ++ f.bytes).length < 2
  · exact h.step_alone hlen
  · rw [Framing.fragment, if_neg hlen] at hreg ⊢
    obtain ⟨m', hm', hagrees⟩ := (h.follows f).returns hreg
    refine ⟨m', ?_, hagrees⟩
    rw [Module.step, (handleDataMessage_eq (by rwa [h.totalLength_eq])).2 hm']

namespace Framing

def read (x : Framing) : List UInt8 := (x.frames.map Frame.bytes).flatten ++ x.pending

theorem read_byte : (x.byte a).read = x.read ++ [a] := by
  unfold byte
  split
  · simp [read]
  · split_ifs <;> simp [read]

theorem read_foldl : (b.foldl byte x).read = x.read ++ b := by
  induction b generalizing x with
  | nil => simp
  | cons a b ih => rw [List.foldl_cons, ih, read_byte, List.append_assoc, List.singleton_append]

theorem read_fragment : (x.fragment f).read = x.read ++ f.bytes := by
  unfold fragment
  split_ifs
  · simp [read]
  · exact read_foldl

theorem frames_fragment : x.frames <+: (x.fragment f).frames := by
  unfold fragment
  split_ifs
  · exact List.prefix_rfl
  · exact frames_foldl

end Framing

variable {fs gs : List Fragment}

@[simp] theorem framing_append (gs hs : List Fragment) :
    framing (gs ++ hs) = hs.foldl Framing.fragment (framing gs) := List.foldl_append ..

theorem framing_concat (gs : List Fragment) (f : Fragment) :
    framing (gs ++ [f]) = (framing gs).fragment f := framing_append gs [f]

theorem bytes_concat (gs : List Fragment) (f : Fragment) : bytes (gs ++ [f]) = bytes gs ++ f.bytes := by
  simp [bytes]

theorem read_framing (gs : List Fragment) : (framing gs).read = bytes gs := by
  induction gs using List.reverseRecOn with
  | nil => rfl
  | append_singleton gs f ih => rw [framing_concat, Framing.read_fragment, ih, bytes_concat]

theorem frames_framing (h : gs <+: fs) : (framing gs).frames <+: (framing fs).frames := by
  obtain ⟨hs, rfl⟩ := h
  induction hs using List.reverseRecOn with
  | nil => simp
  | append_singleton hs f ih =>
    rw [← List.append_assoc, framing_concat]
    exact ih.trans Framing.frames_fragment

theorem agrees_initial : Agrees {} {} where
  start := rfl
  buffer := rfl
  pushed := rfl
  boundary := nofun
  alone := nofun
  counted _ := rfl

theorem exec_concat (gs : List Fragment) (f : Fragment) :
    Transition.exec Module.step {} (gs ++ [f]) =
      (Transition.exec Module.step {} gs).bind fun m => m.step f := by
  simp [Transition.exec, List.foldlM_append]

/-- The module follows the framing of its input as long as the frames are regular. -/
theorem exec_agrees (gs : List Fragment) (hreg : ∀ y ∈ (framing gs).frames, y.Regular) :
    ∃ m, Transition.exec Module.step {} gs = some m ∧ Agrees m (framing gs) := by
  induction gs using List.reverseRecOn with
  | nil => exact ⟨{}, rfl, agrees_initial⟩
  | append_singleton gs f ih =>
    obtain ⟨m, hm, hagrees⟩ := ih fun y hy =>
      hreg y ((frames_framing (List.prefix_append gs [f])).subset hy)
    rw [framing_concat] at hreg ⊢
    obtain ⟨m', hm', hagrees'⟩ := hagrees.step hreg
    exact ⟨m', by rw [exec_concat, hm, Option.bind_some, hm'], hagrees'⟩

/-- In every run in which each frame that is found is regular, no assertion fails and the bytes are
conserved. -/
theorem conserves_of_regular (h : ∀ y ∈ (framing fs).frames, y.Regular) : Conserves fs := by
  intro gs hgs
  obtain ⟨m, hm, hagrees⟩ := exec_agrees gs fun y hy => h y ((frames_framing hgs).subset hy)
  refine ⟨m, hm, ?_⟩
  rw [← read_framing, Framing.read, ← hagrees.pushed, hagrees.buffer, List.flatten_flatten]

def ofBytes (b : List UInt8) (h : b ≠ [] ∧ b.length < 2 ^ 31) : Fragment := ⟨b, h.1, h.2⟩

/-- A line in two fragments, and a line that does not end behind a stray CR. -/
theorem conserves_stray : Conserves
    [ofBytes [97, 98] (by decide), ofBytes [13, 10, 13, 99] (by decide), ofBytes [10, 13] (by decide)] := by
  refine conserves_of_regular fun y hy => ?_
  obtain rfl : y = ⟨false, [97, 98, 13, 10]⟩ := List.mem_singleton.1 hy
  exact ⟨rfl, by decide, [97, 98], List.all_eq_true.1 (by decide), rfl⟩

/-- A LF in front of a line, which `yymore` counts twice. -/
theorem not_conserves_lineFeed : ¬ ∀ fs : List Fragment, Conserves fs := by
  intro h
  obtain ⟨m, hm, -⟩ := h [ofBytes [10, 97, 98, 99, 13, 10] (by decide)] _ List.prefix_rfl
  have hnone : Transition.exec Module.step {} [ofBytes [10, 97, 98, 99, 13, 10] (by decide)] = none := rfl
  rw [hnone] at hm
  cases hm

variable {lines : List (List UInt8)} {rest t : List UInt8}

theorem clean_append_inj {u v s t : List UInt8} {a b : UInt8} (hu : Clean u) (hv : Clean v)
    (ha : isMessage a = false) (hb : isMessage b = false) (h : u ++ a :: s = v ++ b :: t) :
    u = v ∧ a = b ∧ s = t := by
  induction u generalizing v with
  | nil =>
    cases v with
    | nil => simpa using h
    | cons c v =>
      obtain ⟨rfl, -⟩ : a = c ∧ s = v ++ b :: t := by simpa using h
      rw [hv a List.mem_cons_self] at ha
      exact Bool.noConfusion ha
  | cons c u ih =>
    cases v with
    | nil =>
      obtain ⟨rfl, -⟩ : c = b ∧ u ++ a :: s = t := by simpa using h
      rw [hu c List.mem_cons_self] at hb
      exact Bool.noConfusion hb
    | cons d v =>
      obtain ⟨rfl, htail⟩ : c = d ∧ u ++ a :: s = v ++ b :: t := by simpa using h
      obtain ⟨rfl, hst⟩ := ih (fun x hx => hu x (List.mem_cons_of_mem c hx))
        (fun x hx => hv x (List.mem_cons_of_mem c hx)) htail
      exact ⟨rfl, hst⟩

theorem joined_cons (l : List UInt8) (ls : List (List UInt8)) :
    joined (l :: ls) ++ rest = l ++ 13 :: 10 :: (joined ls ++ rest) := by
  simp [joined, frameBoundary]

theorem clean_append_lines (hw : Clean w) (ha : isMessage a = false) (hlines : ∀ l ∈ lines, Clean l)
    (hrest : Partial rest) (h : w ++ a :: t = joined lines ++ rest) :
    a = 13 ∧ (lines = [] ∧ t = [] ∨ ∃ ls, lines = w :: ls ∧ t = 10 :: (joined ls ++ rest)) := by
  cases lines with
  | nil =>
    obtain ⟨v, hv, hrest⟩ := hrest
    have hcr : isMessage 13 = false := rfl
    rcases hrest with rfl | rfl
    · have hmem := hv a (by
        rw [joined, List.map_nil, List.flatten_nil, List.nil_append] at h
        simp [← h])
      rw [ha] at hmem
      exact Bool.noConfusion hmem
    · obtain ⟨rfl, rfl, rfl⟩ := clean_append_inj hw hv ha hcr h
      exact ⟨rfl, Or.inl ⟨rfl, rfl⟩⟩
  | cons l ls =>
    rw [joined_cons] at h
    obtain ⟨rfl, rfl, rfl⟩ := clean_append_inj hw (hlines l List.mem_cons_self) ha rfl h
    exact ⟨rfl, Or.inr ⟨ls, rfl, rfl⟩⟩

/-- The frame of a line whose first byte did not come alone. -/
def lineFrame (w : List UInt8) : Frame := ⟨false, w ++ frameBoundary⟩

theorem foldl_lines {lines : List (List UInt8)} (hx : x.Line) (hlines : ∀ l ∈ lines, Clean l)
    (hrest : Partial rest) (halone : x.alone = true → lines = [])
    (h : x.pending ++ (b ++ t) = joined lines ++ rest) :
    ∃ j ≤ lines.length, (b.foldl byte x).frames = x.frames ++ (lines.take j).map lineFrame ∧
      (b.foldl byte x).Line ∧ (b.foldl byte x).pending ++ t = joined (lines.drop j) ++ rest ∧
      ((b.foldl byte x).alone = true → lines.drop j = []) := by
  induction b generalizing x lines with
  | nil => exact ⟨0, Nat.zero_le _, by simp, hx, h, halone⟩
  | cons a b ih =>
    have hstay : ∀ x' : Framing, x.byte a = x' → x'.frames = x.frames → x'.alone = x.alone →
        x'.pending = x.pending ++ [a] → x'.Line → _ := fun x' hbyte hframes halone' hpending hline => by
      have := ih (x := x') hline hlines (by rwa [halone'])
        (by rw [hpending, ← h]; simp)
      rwa [hframes, ← hbyte] at this
    cases hstart : x.start with
    | initial =>
      rw [Framing.Line, hstart] at hx
      by_cases ha : isMessage a = true
      · have h13 : a ≠ 13 := by rintro rfl; exact absurd ha (by decide)
        refine hstay { x with pending := x.pending ++ [a] } (by simp [byte, hstart, h13]) rfl rfl rfl ?_
        rw [Framing.Line, hstart]
        intro c hc
        rcases List.mem_append.1 hc with hc | hc
        · exact hx c hc
        · rwa [List.mem_singleton.1 hc]
      · obtain ⟨rfl, -⟩ := clean_append_lines hx (by simpa using ha) hlines hrest h
        exact hstay { x with start := .endOfFrame, pending := x.pending ++ [13] }
          (by simp [byte, hstart]) rfl rfl rfl ⟨x.pending, hx, rfl⟩
    | endOfFrame =>
      rw [Framing.Line, hstart] at hx
      obtain ⟨w, hw, hpending⟩ := hx
      rw [hpending, List.append_assoc] at h
      obtain ⟨-, ⟨-, hnil⟩ | ⟨ls, rfl, hls⟩⟩ := clean_append_lines hw (a := 13) rfl hlines hrest h
      · simp at hnil
      · obtain ⟨rfl, htail⟩ : a = 10 ∧ b ++ t = joined ls ++ rest := by simpa using hls
        have hfalse : x.alone = false := by
          by_contra ha
          simp at halone
          exact ha halone
        have hbyte : x.byte 10 = { frames := x.frames ++ [lineFrame w] } := by
          simp [byte, hstart, hpending, hfalse, lineFrame, frameBoundary]
        obtain ⟨j, hj, hframes, hline, hpending', halone'⟩ :=
          ih (x := { frames := x.frames ++ [lineFrame w] })
            (fun c hc => absurd hc (by simp)) (fun l hl => hlines l (List.mem_cons_of_mem w hl)) nofun htail
        refine ⟨j + 1, by simpa using hj, ?_⟩
        rw [List.foldl_cons, hbyte]
        exact ⟨by rw [hframes]; simp, hline, hpending', halone'⟩

theorem joined_append (ls ls' : List (List UInt8)) : joined (ls ++ ls') = joined ls ++ joined ls' := by
  simp [joined]

theorem joined_take_drop (k : ℕ) (lines : List (List UInt8)) :
    joined (lines.take k) ++ joined (lines.drop k) = joined lines := by
  rw [← joined_append, List.take_append_drop]

theorem bytes_frames (ls : List (List UInt8)) :
    ((ls.map lineFrame).map Frame.bytes).flatten = joined ls := by
  simp [joined, lineFrame, Function.comp_def]

theorem Framing.Line.partial_ (hx : x.Line) : Partial x.pending := by
  cases hstart : x.start with
  | initial =>
    rw [Framing.Line, hstart] at hx
    exact ⟨_, hx, Or.inl rfl⟩
  | endOfFrame =>
    rw [Framing.Line, hstart] at hx
    obtain ⟨w, hw, hpending⟩ := hx
    exact ⟨w, hw, Or.inr hpending⟩

/-- The framing of a part of the fragments of some lines. -/
structure Framed (lines : List (List UInt8)) (x : Framing) (hs : List Fragment) (k : ℕ) : Prop where
  le : k ≤ lines.length
  frames : x.frames = (lines.take k).map lineFrame
  alone : x.alone = true → k = lines.length
  partial_ : Partial x.pending
  line : x.Line ∨ hs = []

theorem Framed.bytes_eq {k : ℕ} {hs : List Fragment} (h : Framed lines (framing gs) hs k) :
    bytes gs = joined (lines.take k) ++ (framing gs).pending := by
  rw [← read_framing, Framing.read, h.frames, bytes_frames]

/-- A first byte that comes alone begins the partial line, as it begins no other one. -/
theorem Framed.fragment_alone {k : ℕ} {hs : List Fragment} (h : Framed lines (framing gs) (f :: hs) k)
    (hrest : Partial rest) (hcond : ¬ (k < lines.length ∧ BegunAlone (gs ++ f :: hs) lines k))
    (htail : (framing gs).pending ++ (f.bytes ++ bytes hs) = joined (lines.drop k) ++ rest)
    (hlen : ((framing gs).pending ++ f.bytes).length < 2) :
    Framed lines ((framing gs).fragment f) hs k := by
  have hpos := List.length_pos_iff.2 f.nonempty
  rw [List.length_append] at hlen
  have hpending : (framing gs).pending = [] := List.length_eq_zero_iff.1 (by omega)
  have hk : k = lines.length := by
    by_contra hne
    refine hcond ⟨lt_of_le_of_ne h.le hne, gs, f, hs, rfl, ?_, by omega⟩
    rw [h.bytes_eq, hpending, List.append_nil]
  obtain ⟨a, ha⟩ : ∃ a, f.bytes = [a] := List.length_eq_one_iff.1 (by omega)
  have hstart : (framing gs).start = .initial := by
    rcases h.line with hline | hnil
    · cases hx : (framing gs).start with
      | initial => rfl
      | endOfFrame =>
        rw [Framing.Line, hx, hpending] at hline
        obtain ⟨w, -, hw⟩ := hline
        simp at hw
    · cases hnil
  have hrest' : a :: bytes hs = rest := by
    simpa [hpending, ha, hk, joined] using htail
  have hframing : (framing gs).fragment f =
      { framing gs with pending := [a], alone := true } := by
    rw [Framing.fragment, if_pos (by rw [List.length_append]; omega), hpending, ha]
    rfl
  rw [hframing]
  obtain ⟨v, hv, hcr⟩ := hrest
  have hclean : Clean [] := nofun
  have hnone : ∀ l ∈ ([] : List (List UInt8)), Clean l := nofun
  have hempty : [] ++ (a :: bytes hs) = joined [] ++ rest := by simpa [joined] using hrest'
  refine ⟨h.le, h.frames, fun _ => hk, ?_, ?_⟩
  · by_cases hm : isMessage a = true
    · exact ⟨[a], by simpa [Clean] using hm, Or.inl rfl⟩
    · obtain ⟨rfl, -⟩ := clean_append_lines hclean (by simpa using hm) hnone ⟨v, hv, hcr⟩ hempty
      exact ⟨[], nofun, Or.inr rfl⟩
  · by_cases hm : isMessage a = true
    · left
      rw [Framing.Line]
      simp only [hstart]
      simpa [Clean] using hm
    · obtain ⟨-, ⟨-, hnil⟩ | ⟨ls, hls, -⟩⟩ :=
        clean_append_lines hclean (by simpa using hm) hnone ⟨v, hv, hcr⟩ hempty
      · right
        cases hs with
        | nil => rfl
        | cons g hs =>
          have : g.bytes = [] := by
            rw [bytes, List.map_cons, List.flatten_cons] at hnil
            exact (List.append_eq_nil_iff.1 hnil).1
          exact absurd this g.nonempty
      · cases hls

theorem framed_of_lines (hlines : ∀ l ∈ lines, Clean l) (hrest : Partial rest)
    (hfs : bytes fs = joined lines ++ rest) (hcond : ∀ i < lines.length, ¬ BegunAlone fs lines i)
    {hs : List Fragment} (hgs : fs = gs ++ hs) : ∃ k, Framed lines (framing gs) hs k := by
  induction gs using List.reverseRecOn generalizing hs with
  | nil =>
    exact ⟨0, Nat.zero_le _, rfl, nofun, ⟨[], nofun, Or.inl rfl⟩, Or.inl nofun⟩
  | append_singleton gs f ih =>
    have hfs' : fs = gs ++ f :: hs := by rw [hgs, List.append_assoc, List.singleton_append]
    obtain ⟨k, hk⟩ := ih hfs'
    have htail : (framing gs).pending ++ (f.bytes ++ bytes hs) = joined (lines.drop k) ++ rest := by
      have hbytes : bytes fs = bytes gs ++ (f.bytes ++ bytes hs) := by simp [hfs', bytes]
      rw [hfs, hk.bytes_eq, ← joined_take_drop k lines, List.append_assoc, List.append_assoc] at hbytes
      exact (List.append_cancel_left hbytes).symm
    rw [framing_concat]
    by_cases hlen : ((framing gs).pending ++ f.bytes).length < 2
    · exact ⟨k, hk.fragment_alone hrest (fun h => hcond k h.1 (hfs' ▸ h.2)) htail hlen⟩
    · have hline : (framing gs).Line := hk.line.resolve_right (by simp)
      obtain ⟨j, hj, hframes, hline', hpending', halone'⟩ := foldl_lines hline
        (fun l hl => hlines l (List.mem_of_mem_drop hl)) hrest
        (fun ha => List.drop_eq_nil_of_le (hk.alone ha).ge) htail
      rw [List.length_drop] at hj
      rw [Framing.fragment, if_neg hlen]
      refine ⟨k + j, by have := hk.le; omega, ?_, fun ha => ?_, hline'.partial_, Or.inl hline'⟩
      · rw [hframes, hk.frames, ← List.map_append, ← List.take_add]
      · have := halone' ha
        rw [List.drop_drop, List.drop_eq_nil_iff] at this
        have := hk.le
        omega

/-- In every run over some lines and the beginning of another one, the lines are put to the next
module as they are complete, if none of them begins with a fragment of one byte or is too long for
the counter. -/
theorem splits_of_lines (hlines : ∀ l ∈ lines, Clean l) (hrest : Partial rest)
    (hfs : bytes fs = joined lines ++ rest)
    (hcond : ∀ i < lines.length, ¬ BegunAlone fs lines i)
    (hlength : ∀ l ∈ lines, (l ++ frameBoundary).length < 2 ^ 32) : Splits fs := by
  intro gs hgs
  obtain ⟨hs, rfl⟩ := hgs
  obtain ⟨k, hk⟩ := framed_of_lines hlines hrest hfs hcond rfl
  have hreg : ∀ y ∈ (framing gs).frames, y.Regular := by
    intro y hy
    rw [hk.frames] at hy
    obtain ⟨l, hl, rfl⟩ := List.mem_map.1 hy
    have hmem := List.mem_of_mem_take hl
    exact ⟨rfl, hlength l hmem, l, hlines l hmem, rfl⟩
  obtain ⟨m, hm, hagrees⟩ := exec_agrees gs hreg
  refine ⟨m, lines.take k, (framing gs).pending, hm, fun l hl => hlines l (List.mem_of_mem_take hl),
    hk.partial_, hk.bytes_eq, ?_, hagrees.buffer⟩
  rw [hagrees.pushed, hk.frames, List.map_map]
  rfl

/-- Two lines, the second of them cut between its CR and its LF. -/
theorem splits_cut : Splits
    [ofBytes [97, 13, 10, 98] (by decide), ofBytes [13] (by decide), ofBytes [10, 99] (by decide)] := by
  have hlines : ∀ l ∈ [[97], [98]], Clean l := by
    intro l hl
    rcases List.mem_pair.1 hl with rfl | rfl <;> exact List.all_eq_true.1 (by decide)
  have hrest : Partial [99] := ⟨[99], List.all_eq_true.1 (by decide), Or.inl rfl⟩
  refine splits_of_lines hlines hrest rfl ?_ ?_
  · rintro i hi ⟨gs, f, hs, hfs, hbytes, hone⟩
    match gs with
    | [] =>
      obtain ⟨rfl, -⟩ := List.cons_eq_cons.1 hfs
      simp [ofBytes] at hone
    | [g] =>
      -- the fragment of one byte ends a line
      obtain ⟨rfl, -⟩ := List.cons_eq_cons.1 hfs
      have : i < 2 := hi
      interval_cases i <;> simp [bytes, joined, ofBytes, frameBoundary] at hbytes
    | [_, _] =>
      obtain ⟨-, htail⟩ := List.cons_eq_cons.1 hfs
      obtain ⟨-, htail⟩ := List.cons_eq_cons.1 htail
      obtain ⟨rfl, -⟩ := List.cons_eq_cons.1 htail
      simp [ofBytes] at hone
    | _ :: _ :: _ :: gs => simp at hfs
  · intro l hl
    rcases List.mem_pair.1 hl with rfl | rfl <;> decide

/-- A line whose first byte comes alone, and is not scanned. -/
theorem not_splits_alone : ¬ ∀ (fs : List Fragment) (lines : List (List UInt8)) (rest : List UInt8),
    (∀ l ∈ lines, Clean l) → Partial rest → bytes fs = joined lines ++ rest → Splits fs := by
  intro h
  have hlines : ∀ l ∈ [[97, 98]], Clean l := by
    intro l hl
    rw [List.mem_singleton.1 hl]
    exact List.all_eq_true.1 (by decide)
  obtain ⟨m, -, -, hm, -⟩ := h [ofBytes [97] (by decide), ofBytes [98, 13, 10] (by decide)] [[97, 98]] []
    hlines ⟨[], nofun, Or.inl rfl⟩ rfl _ List.prefix_rfl
  have hnone : Transition.exec Module.step {}
      [ofBytes [97] (by decide), ofBytes [98, 13, 10] (by decide)] = none := rfl
  rw [hnone] at hm
  cases hm

end ACENetwork.Irc.Bisector
