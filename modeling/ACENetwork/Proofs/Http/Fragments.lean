import Mathlib
import ACENetwork.Spec.Http.Message

/-! Chains of fragments: those that a message comes in, and the one that the driver switches to. -/

namespace ACENetwork.Http

variable {heap : Heap} {place : ℕ} {b : Block} {bs bs' : List Block} {s : State} {data : List UInt8}
  {buffers : List (List UInt8)}

namespace Heap

theorem Chain.unique (h : Chain heap place bs) (h' : Chain heap place bs') : bs = bs' := by
  induction h generalizing bs' with
  | last hb hcont =>
    cases h' with
    | last hb' _ => rw [Option.some.inj (hb.symm.trans hb')]
    | cont hb' hcont' _ =>
      obtain rfl := Option.some.inj (hb.symm.trans hb')
      rw [hcont] at hcont'
      exact absurd hcont' (by simp)
  | cont hb hcont _ ih =>
    cases h' with
    | last hb' hcont' =>
      obtain rfl := Option.some.inj (hb.symm.trans hb')
      rw [hcont] at hcont'
      exact absurd hcont' (by simp)
    | cont hb' hcont' h' =>
      obtain rfl := Option.some.inj (hb.symm.trans hb')
      obtain rfl := Option.some.inj (hcont.symm.trans hcont')
      rw [ih h']

theorem Chain.ne_nil (h : Chain heap place bs) : bs ≠ [] := by
  cases h <;> simp

theorem chain_link (pre : Heap) (b : Block) (bs : List Block) :
    Chain (pre ++ link (List.length pre) (b :: bs)) (List.length pre)
      (link (List.length pre) (b :: bs)) := by
  induction bs generalizing pre b with
  | nil => exact .last (by simp [link]) rfl
  | cons c bs ih =>
    have hrest := ih (pre ++ [{ b with cont := some (List.length pre + 1) }]) c
    rw [List.length_append, List.length_singleton, List.append_assoc] at hrest
    exact .cont (by simp [link]) rfl hrest

theorem map_content_link (n : ℕ) (bs : List Block) :
    (link n bs).map Block.content = bs.map Block.content := by
  induction bs generalizing n with
  | nil => rfl
  | cons b bs ih =>
    cases bs with
    | nil => rfl
    | cons c bs =>
      rw [link, List.map_cons, List.map_cons, ih]
      rfl

variable {f : Block → Block}

/-- A block that a chain does not come to does not matter. A chain that came to it would be one
of those from there on. -/
theorem Chain.modify {place' : ℕ} (h : Chain heap place' bs)
    (hlt : ∀ bs', Chain heap place bs' → bs.length < bs'.length) :
    Chain (heap.modify place f) place' bs := by
  have hne {i : ℕ} {cs : List Block} (h : Chain heap i cs)
      (hlt : ∀ bs', Chain heap place bs' → cs.length < bs'.length) :
      (heap.modify place f)[i]? = heap[i]? := by
    have hi : place ≠ i := by
      rintro rfl
      exact lt_irrefl _ (hlt _ h)
    exact List.getElem?_modify_ne f heap hi
  induction h with
  | last hb hcont => exact .last ((hne (.last hb hcont) hlt).trans hb) hcont
  | cont hb hcont h ih =>
    refine .cont ((hne (.cont hb hcont h) hlt).trans hb) hcont (ih fun bs' hbs' => ?_)
    have := hlt bs' hbs'
    rw [List.length_cons] at this
    omega

/-- The first block of a chain may change, when it keeps its continuation. -/
theorem Chain.modify_head (hf : ∀ b, (f b).cont = b.cont) (h : Chain heap place (b :: bs)) :
    Chain (heap.modify place f) place (f b :: bs) := by
  have hhead : ∀ {b}, heap[place]? = some b → (heap.modify place f)[place]? = some (f b) := by
    intro b hb
    rw [List.getElem?_modify_eq, hb]
    rfl
  cases h with
  | last hb hcont => exact .last (hhead hb) ((hf b).trans hcont)
  | cont hb hcont h =>
    refine .cont (hhead hb) ((hf b).trans hcont) (h.modify fun bs' hbs' => ?_)
    rw [← (Chain.cont hb hcont h).unique hbs']
    exact Nat.lt_succ_self _

end Heap

theorem content_received (data : List UInt8) : (Block.received data).content = data := by
  simp [Block.received, Block.content]

theorem upcoming_begin (d : Driver) (first : List UInt8) (conts queue : List (List UInt8)) :
    (d.begin first conts queue).Upcoming (conts ++ queue) := by
  have hchain := Heap.chain_link [] (Block.received first) (conts.map Block.received)
  have hcontent : (conts.map Block.received).map Block.content = conts := by
    rw [List.map_map]
    exact (List.map_congr_left fun data _ => content_received data).trans (List.map_id _)
  have hlink := Heap.map_content_link 0 ((first :: conts).map Block.received)
  rw [List.map_cons, List.map_cons, hcontent] at hlink
  obtain ⟨b, blocks, hblocks⟩ := List.exists_cons_of_ne_nil hchain.ne_nil
  rw [List.length_nil] at hblocks
  rw [hblocks, List.map_cons] at hlink
  refine ⟨b, blocks, ?_, ?_⟩
  · rw [← hblocks]
    exact hchain
  · rw [(List.cons.inj hlink).2]
    rfl

/-- The fragment may be read, and what comes after it does not change. -/
theorem State.Upcoming.advance (h : s.Upcoming buffers) (hheld : s.held = s.fragment) (n : ℕ) :
    (s.advance n).Upcoming buffers := by
  obtain ⟨b, blocks, hchain, hbuffers⟩ := h
  refine ⟨b.advance n, blocks, ?_, hbuffers⟩
  rw [State.advance, Heap.advance, hheld]
  exact hchain.modify_head fun _ => rfl

theorem switchBuffer_eq {s' : State} (h : s.switchBuffer = some s') :
    s' = { s with heap := s'.heap, fragment := s'.fragment, buffer := s'.buffer, queue := s'.queue } := by
  have hwait : s.waitBuffer = { s with heap := s.waitBuffer.heap, queue := s.waitBuffer.queue } := by
    rw [State.waitBuffer]
    split <;> rfl
  rw [State.switchBuffer] at h
  split at h
  · rw [← Option.some.inj h]
    rfl
  · split_ifs at h
    obtain ⟨place, -, hplace⟩ := Option.map_eq_some_iff.1 h
    rw [← hplace, hwait]
    rfl

/-- Nothing is delivered on the way from one state to another, and the record stays as it is. -/
structure Silent (s s' : State) : Prop where
  record : s'.record = s.record
  records : s'.records = s.records
  finished : s'.finished = s.finished
  blocking : s'.blocking = s.blocking

theorem Silent.refl (s : State) : Silent s s := ⟨rfl, rfl, rfl, rfl⟩

theorem Silent.trans {s₁ s₂ : State} (h : Silent s s₁) (h' : Silent s₁ s₂) : Silent s s₂ :=
  ⟨h'.record.trans h.record, h'.records.trans h.records, h'.finished.trans h.finished,
    h'.blocking.trans h.blocking⟩

theorem silent_switchBuffer {s' : State} (h : s.switchBuffer = some s') : Silent s s' := by
  have hframe := switchBuffer_eq h
  exact ⟨by rw [hframe], by rw [hframe], by rw [hframe], by rw [hframe]⟩

theorem switchBuffer_cons (hblocking : s.blocking = true) (h : s.Upcoming (data :: buffers)) :
    ∃ s', s.switchBuffer = some s' ∧ s'.buffer = data ∧ s'.Upcoming buffers := by
  obtain ⟨b, blocks, hchain, hbuffers⟩ := h
  cases hchain with
  | last hb hcont =>
    have hqueue : s.queue = data :: buffers := by simpa using hbuffers.symm
    have hplace : s.fragment < s.heap.length := (List.getElem?_eq_some_iff.1 hb).1
    have hnew : (s.waitBuffer.heap)[s.heap.length]? = some (Block.received data) := by
      rw [State.waitBuffer, hqueue]
      dsimp only
      simp [Heap.continue_, hplace.ne]
    have hnext : s.waitBuffer.cont = some s.heap.length := by
      rw [State.cont, State.waitBuffer, hqueue]
      dsimp only
      rw [Heap.continue_, List.getElem?_modify_eq, List.getElem?_append_left hplace, hb]
      rfl
    refine ⟨s.waitBuffer.begin s.heap.length, ?_, ?_, ?_⟩
    · rw [State.switchBuffer, State.cont, hb]
      simp [hcont, hblocking, hnext]
    · rw [State.begin, hnew]
      exact content_received data
    · refine ⟨Block.received data, [], .last hnew rfl, ?_⟩
      simp [State.begin, State.waitBuffer, hqueue]
  | cont hb hcont hnext =>
    obtain ⟨b', blocks, rfl⟩ := List.exists_cons_of_ne_nil hnext.ne_nil
    rename_i next
    obtain ⟨hdata, hbuffers⟩ : data = b'.content ∧ buffers = blocks.map Block.content ++ s.queue := by
      simpa using hbuffers
    have hblock : s.heap[next]? = some b' := by cases hnext <;> assumption
    refine ⟨s.begin next, ?_, ?_, ⟨b', blocks, hnext, hbuffers⟩⟩
    · rw [State.switchBuffer, State.cont, hb]
      simp [hcont]
    · simp [State.begin, hblock, hdata]

theorem switchBuffer_nil (h : s.Upcoming []) : s.switchBuffer = none := by
  obtain ⟨b, blocks, hchain, hbuffers⟩ := h
  obtain ⟨rfl, hqueue⟩ : blocks = [] ∧ s.queue = [] := by simpa using hbuffers.symm
  have hb : s.heap[s.fragment]? = some b ∧ b.cont = none := by
    cases hchain with
    | last hb hcont => exact ⟨hb, hcont⟩
    | cont _ _ h => exact absurd rfl h.ne_nil
  simp [State.switchBuffer, State.cont, State.waitBuffer, hqueue, hb.1, hb.2]

theorem State.Upcoming.unique {buffers' : List (List UInt8)} (h : s.Upcoming buffers)
    (h' : s.Upcoming buffers') : buffers = buffers' := by
  obtain ⟨b, blocks, hchain, rfl⟩ := h
  obtain ⟨b', blocks', hchain', rfl⟩ := h'
  rw [(List.cons.inj (hchain.unique hchain')).2]

theorem State.Remains.unique {bytes bytes' : List UInt8} (h : s.Remains bytes) (h' : s.Remains bytes') :
    bytes = bytes' := by
  obtain ⟨buffers, hbuffers, rfl⟩ := h
  obtain ⟨buffers', hbuffers', rfl⟩ := h'
  rw [hbuffers.unique hbuffers']

end ACENetwork.Http
