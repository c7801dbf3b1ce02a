import Mathlib
import ACENetwork.Spec.BitTorrent.PeerRecord

/-! `record` of the module for peers: its loop starts behind the new head fragment, and not behind the
block that it passes on. -/

namespace ACENetwork.BitTorrent.PeerRecord.Module

open Transition

variable {ρ : Type} {m m' : Module ρ} {place container n : ℕ} {places message rest : List ℕ} {r : ρ}

theorem data_of_block {b : Block} (hb : m.blocks[place]? = some b) : m.data place = some b.data := by
  rw [Module.data, hb]
  rfl

theorem cont_of_block {b : Block} (hb : m.blocks[place]? = some b) : m.cont place = b.cont := by
  rw [Module.cont, hb]
  rfl

theorem Chain.ne_nil (h : m.Chain place places) : places ≠ [] := by
  cases h <;> simp

theorem Chain.head (h : m.Chain place places) : places.head? = some place := by
  cases h <;> rfl

theorem Chain.block (h : m.Chain place places) {p : ℕ} (hp : p ∈ places) : ∃ b, m.blocks[p]? = some b := by
  induction h with
  | last hb hcont =>
    obtain rfl := List.mem_singleton.1 hp
    exact ⟨_, hb⟩
  | cont hb hcont _ ih =>
    rcases List.mem_cons.1 hp with rfl | hp
    · exact ⟨_, hb⟩
    · exact ih hp

/-- A chain that does not come back to itself has no more places than there are blocks. -/
theorem Chain.length_le (h : m.Chain place places) (hnodup : places.Nodup) :
    places.length ≤ m.blocks.length := by
  have hsubset : places ⊆ List.range m.blocks.length := by
    intro p hp
    obtain ⟨b, hb⟩ := h.block hp
    exact List.mem_range.2 (List.getElem?_eq_some_iff.1 hb).1
  have hle := (hnodup.subperm hsubset).length_le
  rwa [List.length_range] at hle

theorem Chain.last_eq (h : m.Chain place places) (hn : places.length ≤ n) :
    places.getLast? = some (m.last n place) := by
  induction h generalizing n with
  | @last place b hb hcont =>
    have hnone : m.cont place = none := (cont_of_block hb).trans hcont
    cases n with
    | zero => rfl
    | succ n => simp [Module.last, hnone]
  | @cont place next b places hb hcont h ih =>
    have hsome : m.cont place = some next := (cont_of_block hb).trans hcont
    cases n with
    | zero => simp at hn
    | succ n =>
      rw [List.length_cons] at hn
      rw [List.getLast?_cons, Module.last, hsome]
      have hlast := ih (n := n) (by omega)
      simp [hlast]

theorem Chain.modify {f : Block → Block} {q : ℕ} (hf : ∀ b, (f b).cont = b.cont)
    (hblocks : m'.blocks = m.blocks.modify q f) (h : m.Chain place places) : m'.Chain place places := by
  have hblock : ∀ {p : ℕ} {b : Block}, m.blocks[p]? = some b →
      ∃ b', m'.blocks[p]? = some b' ∧ b'.cont = b.cont := by
    intro p b hb
    rw [hblocks, List.getElem?_modify, hb]
    by_cases hq : q = p
    · exact ⟨f b, by simp [hq], hf b⟩
    · exact ⟨b, by simp [hq], rfl⟩
  induction h with
  | last hb hcont =>
    obtain ⟨b', hb', hcont'⟩ := hblock hb
    exact .last hb' (hcont'.trans hcont)
  | cont hb hcont _ ih =>
    obtain ⟨b', hb', hcont'⟩ := hblock hb
    exact .cont hb' (hcont'.trans hcont) ih

/-- What a block shares and what it leaves alone. -/
structure Shares (container : ℕ) (places : List ℕ) (m m' : Module ρ) : Prop where
  data : ∀ p, m'.data p = if p ∈ places then some container else m.data p
  chain : ∀ {p ps}, m.Chain p ps → m'.Chain p ps
  peerRecord : m'.peerRecord container = m.peerRecord container
  references : (∀ p ∈ places, m.data p ≠ some container) →
    m'.references container = (m.references container).map (· + places.length)
  headFragment : m'.headFragment = m.headFragment
  passed : m'.passed = m.passed
  fault : m'.fault = m.fault

theorem Shares.refl (container : ℕ) (m : Module ρ) : Shares container [] m m :=
  ⟨fun p => by simp, id, rfl, fun _ => by simp, rfl, rfl, rfl⟩

theorem shares_share {b : Block} (hb : m.blocks[place]? = some b) :
    Shares container [place] m (m.share container place) := by
  have hdata := data_of_block hb
  have hshare : m.share container place = { m with
      containers := (m.containers.modify container fun c => { c with references := c.references + 1 }).modify
        b.data fun c => { c with references := c.references - 1 }
      blocks := m.blocks.modify place fun b => { b with data := container } } := by
    rw [share, hdata]
  rw [hshare]
  refine ⟨fun p => ?_, fun h => ?_, ?_, fun hother => ?_, rfl, rfl, rfl⟩
  · by_cases hp : p = place
    · subst hp
      simp [Module.data, hb]
    · have hne : place ≠ p := fun h => hp h.symm
      simp [Module.data, hp, hne]
  · refine Chain.modify (m := m) (q := place) ?_ rfl h
    exact fun _ => rfl
  · simp only [Module.peerRecord, List.getElem?_modify]
    cases m.containers[container]? with
    | none => simp
    | some c => by_cases hc : b.data = container <;> simp [hc]
  · have hne : b.data ≠ container := by
      intro heq
      exact hother place List.mem_cons_self (by rw [hdata, heq])
    simp only [references, List.getElem?_modify]
    cases m.containers[container]? with
    | none => simp
    | some c => simp [hne]

theorem shareFrom_none (m : Module ρ) (container n : ℕ) : m.shareFrom container n none = m := by
  cases n <;> rfl

theorem shares_shareFrom (h : m.Chain place places) (hnodup : places.Nodup) (hn : places.length ≤ n) :
    Shares container places m (m.shareFrom container n (some place)) := by
  induction n generalizing m place places with
  | zero =>
    exact absurd (List.length_eq_zero_iff.1 (Nat.le_zero.1 hn)) h.ne_nil
  | succ n ih =>
    cases h with
    | @last _ b hb hcont =>
      have hnone : m.cont place = none := (cont_of_block hb).trans hcont
      rw [shareFrom, hnone, shareFrom_none]
      exact shares_share hb
    | @cont _ next b places hb hcont h =>
      have hsome : m.cont place = some next := (cont_of_block hb).trans hcont
      obtain ⟨hnotMem, hnodup⟩ := List.nodup_cons.1 hnodup
      rw [List.length_cons] at hn
      have hfirst : Shares container [place] m (m.share container place) := shares_share hb
      have hrest := ih (hfirst.chain h) hnodup (by omega)
      rw [shareFrom, hsome]
      refine ⟨fun p => ?_, fun hc => hrest.chain (hfirst.chain hc), hrest.peerRecord.trans hfirst.peerRecord,
        fun hother => ?_, hrest.headFragment.trans hfirst.headFragment,
        hrest.passed.trans hfirst.passed, hrest.fault.trans hfirst.fault⟩
      · rw [hrest.data, hfirst.data]
        by_cases hp : p ∈ places <;> by_cases hplace : p = place <;> simp [hp, hplace]
      · have hothers : ∀ p ∈ places, (m.share container place).data p ≠ some container := by
          intro p hp
          have hne : p ∉ [place] := fun hmem => hnotMem (List.mem_singleton.1 hmem ▸ hp)
          rw [hfirst.data, if_neg hne]
          exact hother p (List.mem_cons_of_mem _ hp)
        rw [hrest.references hothers, hfirst.references fun p hp => ?_]
        · cases m.references container with
          | none => rfl
          | some k => simp [Nat.add_assoc, Nat.add_comm 1]
        · rw [List.mem_singleton.1 hp]
          exact hother place List.mem_cons_self

theorem shares_behind (h : m.Chain place places) (hnodup : places.Nodup) (hn : places.length ≤ n) :
    Shares container places.tail m (m.shareFrom container n (m.cont place)) := by
  cases h with
  | @last _ b hb hcont =>
    have hnone : m.cont place = none := (cont_of_block hb).trans hcont
    rw [hnone, shareFrom_none]
    exact Shares.refl container m
  | @cont _ next b places hb hcont h =>
    have hsome : m.cont place = some next := (cont_of_block hb).trans hcont
    rw [List.length_cons] at hn
    have hle : places.length ≤ n := by omega
    rw [hsome]
    exact shares_shareFrom h (List.nodup_cons.1 hnodup).2 hle

theorem Chain.congr (hblocks : m'.blocks = m.blocks) (h : m.Chain place places) : m'.Chain place places := by
  induction h with
  | last hb hcont => exact .last (hblocks ▸ hb) hcont
  | cont hb hcont _ ih => exact .cont (hblocks ▸ hb) hcont ih

theorem handOff_last {start : ℕ → Option ℕ → Option ℕ} {head : ℕ} (h : m.Chain head message)
    (hn : message.length ≤ m.blocks.length) (hfragment : m.fragment = message.getLast?) :
    m.handOff start head container = match start head none with
      | none => { m with headFragment := none, fault := some .null }
      | some place =>
        let m' := { m with headFragment := none }
        let m' := m'.shareFrom container m.blocks.length (m.cont place)
        { m' with passed := m'.passed ++ [head] } := by
  have hlast : some (m.last m.blocks.length head) = m.fragment := by rw [hfragment, h.last_eq hn]
  rw [handOff, if_neg (fun hne => hne.1 hlast), if_neg (not_not_intro hlast)]
  rfl

theorem handOff_next {start : ℕ → Option ℕ → Option ℕ} {head next : ℕ} (h : m.Chain head message)
    (hn : message.length ≤ m.blocks.length) (hfragment : m.fragment = some next) (hnext : next ∉ message) :
    m.handOff start head container = match start head (some next) with
      | none => { m with headFragment := some next, fault := some .null }
      | some place =>
        let m' := { m with headFragment := some next }
        let m' := m'.shareFrom container m.blocks.length (m.cont place)
        { m' with passed := m'.passed ++ [head] } := by
  have hlast : some (m.last m.blocks.length head) ≠ m.fragment := by
    rw [hfragment, ← h.last_eq hn]
    exact fun heq => hnext (List.mem_of_getLast? heq)
  have hsome : m.fragment ≠ none := by simp [hfragment]
  rw [handOff, if_neg (fun hne => hsome hne.2), if_pos hlast, hfragment]
  rfl

namespace Found

theorem bound (h : m.Found message rest) {head : ℕ} (hchain : m.Chain head message) :
    message.length ≤ m.blocks.length :=
  hchain.length_le (List.nodup_append.1 h.nodup).1

theorem first (h : m.Found message rest) : ∃ head container c, m.headFragment = some head ∧
    m.Chain head message ∧ m.data head = some container ∧ m.containers[container]? = some c ∧
    c.references = m.holders container := by
  obtain ⟨head, hhead, hchain⟩ := h.head
  have hmem : head ∈ message ++ rest := List.mem_append_left _ (List.mem_of_mem_head? hchain.head)
  obtain ⟨container, c, hdata, hcontainer, hcounted⟩ := h.counted head hmem
  exact ⟨head, container, c, hhead, hchain, hdata, hcontainer, hcounted⟩

end Found

theorem holders_eq (hnodup : places.Nodup) (h : ∀ p, m.data p = some container ↔ p ∈ places) :
    m.holders container = places.length := by
  have hrange : ∀ p, m.data p = some container → p < m.blocks.length := by
    intro p hp
    by_contra hge
    have hnone : m.blocks[p]? = none := List.getElem?_eq_none (Nat.not_lt.1 hge)
    simp [data, hnone] at hp
  have hnodup' := List.nodup_range (n := m.blocks.length).filter fun p => m.data p = some container
  refine ((List.perm_ext_iff_of_nodup hnodup' hnodup).2 fun p => ?_).length_eq
  rw [List.mem_filter, List.mem_range, decide_eq_true_iff, h p]
  exact ⟨fun hp => hp.2, fun hp => ⟨hrange p ((h p).2 hp), hp⟩⟩

theorem recordPeer_eq {head : ℕ} (hhead : m.headFragment = some head) (hdata : m.data head = some container) :
    m.recordPeer r = if (m.peerRecord container).isSome then m.fail .assertion else
      (m.attach container r).handOff (fun _ headFragment => headFragment) head container := by
  rw [recordPeer, hhead]
  simp only [hdata]

theorem recordPeer_last (h : m.Found message []) (hfragment : m.fragment = message.getLast?) :
    (m.recordPeer r).fault ≠ none := by
  obtain ⟨head, container, c, hhead, hchain, hdata, hcontainer, hcounted⟩ := h.first
  rw [recordPeer_eq hhead hdata]
  split
  · exact Option.some_ne_none _
  · have hchain' : (m.attach container r).Chain head message := Chain.congr (m := m) rfl hchain
    rw [handOff_last hchain' (h.bound hchain) hfragment]
    exact Option.some_ne_none _

theorem recordPeer_next (h : m.Found message rest) {head next : ℕ} (hhead : m.headFragment = some head)
    (hchain : m.Chain head message) (hdata : m.data head = some container)
    (hunused : m.peerRecord container = none) (hfragment : m.fragment = some next)
    (hnext : m.Chain next rest) :
    ∃ m', Shares container rest.tail { m.attach container r with headFragment := some next } m' ∧
      m.recordPeer r = { m' with passed := m'.passed ++ [head] } := by
  obtain ⟨-, hrest, hdisjoint⟩ := List.nodup_append.1 h.nodup
  have hnotMem : next ∉ message := fun hmem =>
    hdisjoint next hmem next (List.mem_of_mem_head? hnext.head) rfl
  have hchain' : (m.attach container r).Chain head message := Chain.congr (m := m) rfl hchain
  have hsome : ¬ (m.peerRecord container).isSome := by simp [hunused]
  rw [recordPeer_eq hhead hdata, if_neg hsome,
    handOff_next hchain' (h.bound hchain) hfragment hnotMem]
  have hnext' : Chain { m.attach container r with headFragment := some next } next rest :=
    Chain.congr (m := m) rfl hnext
  exact ⟨_, shares_behind hnext' hrest (hnext.length_le hrest), rfl⟩

theorem separate_of_delivered (h : m.Found message rest)
    (hdelivered : Delivered r m (m.recordPeer r) message rest) : m.Separate message rest := by
  obtain ⟨head, container, c, hhead, hchain, hdata, hcontainer, hcounted⟩ := h.first
  have hbind : m.headFragment.bind m.data = some container := by rw [hhead, Option.bind_some, hdata]
  -- a record that is in the container already fails the assertion
  have hunused : m.peerRecord container = none := by
    by_contra hsome
    have hfault := hdelivered.fault
    rw [recordPeer_eq hhead hdata, if_pos (Option.isSome_iff_ne_none.2 hsome)] at hfault
    exact Option.some_ne_none _ hfault
  rcases h.fragment with ⟨rfl, hfragment⟩ | ⟨next, hfragment, hnext⟩
  · exact absurd hdelivered.fault (recordPeer_last h hfragment)
  · obtain ⟨m', hshares, heq⟩ := recordPeer_next (r := r) h hhead hchain hdata hunused hfragment hnext
    have hdata' : ∀ p, (m.recordPeer r).data p = if p ∈ rest.tail then some container else m.data p := by
      intro p
      rw [heq]
      exact hshares.data p
    -- a second block of the rest would get the container of the message
    have htail : rest.tail = [] := by
      refine List.eq_nil_iff_forall_not_mem.2 fun p hp => ?_
      have hmem : p ∈ message := (hdelivered.shared p).1 (by rw [hdata', if_pos hp, hbind])
      exact (List.nodup_append.1 h.nodup).2.2 p hmem p (List.mem_of_mem_tail hp) rfl
    refine ⟨?_, fun p => ?_, fun q hq => ?_⟩
    · have hpos : 0 < rest.length := List.length_pos_iff.2 hnext.ne_nil
      have hlength : rest.length - 1 = 0 := by rw [← List.length_tail, htail, List.length_nil]
      omega
    · rw [← hdelivered.shared p, hdata', htail, if_neg List.not_mem_nil]
    · obtain rfl := Option.some.inj (hbind.symm.trans hq)
      exact hunused

theorem delivered_of_separate (h : m.Found message rest) (hseparate : m.Separate message rest) :
    Delivered r m (m.recordPeer r) message rest := by
  obtain ⟨head, container, c, hhead, hchain, hdata, hcontainer, hcounted⟩ := h.first
  have hbind : m.headFragment.bind m.data = some container := by rw [hhead, Option.bind_some, hdata]
  have hunused := hseparate.unused container hbind
  rcases h.fragment with ⟨rfl, hfragment⟩ | ⟨next, hfragment, hnext⟩
  · exact absurd hseparate.rest Nat.zero_ne_one
  · obtain ⟨m', hshares, heq⟩ := recordPeer_next (r := r) h hhead hchain hdata hunused hfragment hnext
    have htail : rest.tail = [] := List.length_eq_zero_iff.1 (by rw [List.length_tail, hseparate.rest])
    rw [htail] at hshares
    have hreferences : m.holders container = message.length :=
      holders_eq (List.nodup_append.1 h.nodup).1 fun p => by rw [← hseparate.shared p, hbind]
    rw [heq]
    refine ⟨⟨?_, fun p => ?_, fun q hq => ?_, ⟨head, hhead, ?_, ?_⟩, ?_⟩, fun q hq => ?_⟩
    · exact hshares.fault.trans h.fault
    · rw [← hseparate.shared p]
      exact iff_of_eq (congrArg (· = _) ((hshares.data p).trans (if_neg List.not_mem_nil)))
    · obtain rfl := Option.some.inj (hbind.symm.trans hq)
      refine (hshares.references (by simp)).trans ?_
      simp [references, attach, hcontainer, hcounted, hreferences]
    · exact congrArg (· ++ [head]) hshares.passed
    · exact Chain.congr (m := m') rfl (hshares.chain (Chain.congr (m := m) rfl hchain))
    · exact hshares.headFragment.trans hnext.head.symm
    · obtain rfl := Option.some.inj (hbind.symm.trans hq)
      refine hshares.peerRecord.trans ?_
      simp [peerRecord, attach, hcontainer]

theorem delivered_recordPeer_iff (h : m.Found message rest) :
    Delivered r m (m.recordPeer r) message rest ↔ m.Separate message rest :=
  ⟨separate_of_delivered h, delivered_of_separate h⟩

/-- In every run the calls of `record` deliver what the parser has found just if no message that it has
found needs the loop. -/
theorem always_delivers_iff (m : Module ρ) (es : List (Event ρ)) :
    Always step Delivers m es ↔ Always step Separates m es := by
  -- nothing is known of the module before a call but what `Found` says
  have hiff : ∀ (m : Module ρ) e m', True → m.step e = some m' → (m.Delivers e m' ↔ m.Separates e m') := by
    intro m e m' _ hstep
    cases e with
    | record r =>
      obtain rfl : m.recordPeer r = m' := Option.some.inj hstep
      constructor
      · intro hdelivers r' message rest he hfound
        obtain rfl : r = r' := Event.record.inj he
        exact (delivered_recordPeer_iff hfound).1 (hdelivers r message rest rfl hfound)
      · intro hseparates r' message rest he hfound
        obtain rfl : r = r' := Event.record.inj he
        exact (delivered_recordPeer_iff hfound).2 (hseparates r message rest rfl hfound)
    | between m'' =>
      exact iff_of_true (fun _ _ _ he _ => nomatch he) fun _ _ _ he _ => nomatch he
  exact always_iff_of_step hiff (fun _ _ _ _ _ _ => trivial) es trivial

/-- A message in one block, with another block behind it. -/
example : recordPeer 7 { blocks := [{ data := 0 }, { data := 1 }], containers := [{}, {}],
                         headFragment := some 0, fragment := some 1 } =
    { blocks := [{ data := 0 }, { data := 1 }], containers := [{ peerRecord := some 7 }, {}],
      headFragment := some 1, fragment := some 1, passed := [0] } := by decide

/-- A message that ends where the received data end, in one block. -/
def received : Module ℕ where
  blocks := [{ data := 0 }]
  containers := [{}]
  headFragment := some 0
  fragment := some 0

theorem found_received : received.Found [0] [] where
  fault := rfl
  head := ⟨0, rfl, .last rfl rfl⟩
  fragment := .inl ⟨rfl, rfl⟩
  nodup := by decide
  counted := by
    intro p hp
    obtain rfl : p = 0 := by simpa using hp
    exact ⟨0, {}, rfl, rfl, rfl⟩

/-- There is no new head fragment, and the loop starts behind it. -/
theorem not_delivers_received : ¬ Always step Delivers received [.record 7] := by
  intro h
  have hdelivered := (h _ rfl).1 7 [0] [] rfl found_received
  exact absurd hdelivered.fault (by decide)

/-- The message is handed off where no other block has the container of its first one. -/
theorem handedOff_recordTracker (h : m.Found message rest)
    (hown : ∀ p, m.data p = m.headFragment.bind m.data → some p = m.headFragment) :
    HandedOff m m.recordTracker message rest := by
  obtain ⟨head, container, c, hhead, hchain, hdata, hcontainer, hcounted⟩ := h.first
  have hbind : m.headFragment.bind m.data = some container := by rw [hhead, Option.bind_some, hdata]
  obtain ⟨hmessage, hrest, hdisjoint⟩ := List.nodup_append.1 h.nodup
  have hbound := h.bound hchain
  obtain ⟨behind, rfl⟩ : ∃ behind, message = head :: behind := List.head?_eq_some_iff.1 hchain.head
  have hholders : m.holders container = 1 := by
    refine holders_eq (List.nodup_singleton head) fun p => ?_
    rw [List.mem_singleton]
    constructor
    · intro hp
      exact Option.some.inj ((hown p (hp.trans hbind.symm)).trans hhead)
    · rintro rfl
      exact hdata
  -- the new head fragment is the first of the rest, or none
  have hhandOff : ∃ m', Shares container behind { m with headFragment := rest.head? } m' ∧
      m.recordTracker = { m' with passed := m'.passed ++ [head] } := by
    have hchain' : Chain { m with headFragment := rest.head? } head (head :: behind) :=
      Chain.congr (m := m) rfl hchain
    refine ⟨_, shares_behind hchain' hmessage hbound, ?_⟩
    rw [recordTracker, hhead]
    simp only [hdata]
    rcases h.fragment with ⟨rfl, hfragment⟩ | ⟨next, hfragment, hnext⟩
    · rw [handOff_last hchain hbound hfragment]
      rfl
    · have hnotMem : next ∉ head :: behind := fun hmem =>
        hdisjoint next hmem next (List.mem_of_mem_head? hnext.head) rfl
      rw [handOff_next hchain hbound hfragment hnotMem, hnext.head]
      rfl
  obtain ⟨m', hshares, heq⟩ := hhandOff
  rw [heq]
  refine ⟨hshares.fault.trans h.fault, fun p => ?_, fun q hq => ?_, ⟨head, hhead, ?_, ?_⟩, hshares.headFragment⟩
  · have hp : m'.data p = if p ∈ behind then some container else m.data p := hshares.data p
    change m'.data p = _ ↔ _
    rw [hp, hbind, List.mem_cons]
    by_cases hmem : p ∈ behind
    · simp [hmem]
    · rw [if_neg hmem]
      constructor
      · intro hp
        exact .inl (Option.some.inj ((hown p (hp.trans hbind.symm)).trans hhead))
      · rintro (rfl | hp)
        · exact hdata
        · exact absurd hp hmem
  · obtain rfl := Option.some.inj (hbind.symm.trans hq)
    refine (hshares.references fun p hp heq => ?_).trans ?_
    · obtain rfl := Option.some.inj ((hown p (Eq.trans heq hbind.symm)).trans hhead)
      exact (List.nodup_cons.1 hmessage).1 hp
    · simp [references, hcontainer, hcounted, hholders, Nat.add_comm]
  · exact congrArg (· ++ [head]) hshares.passed
  · exact Chain.congr (m := m') rfl (hshares.chain (Chain.congr (m := m) rfl hchain))

end ACENetwork.BitTorrent.PeerRecord.Module
