import Mathlib
import ACENetwork.Spec.BitTorrent.PeerSetup

/-! Peer setup: every block is freed once where no thread takes its address before `notify` has seen
all names, and every address is connected to once where no call fails. -/

namespace ACENetwork.BitTorrent.PeerSetup

open Transition

def Slot.block : Slot → Option Block
  | .name i => some (.name i)
  | .garbage | .null => none

def built (n i : ℕ) : List Slot := (List.range i).map .name ++ (System.newSlots n).drop i

theorem length_newSlots : (System.newSlots n).length = n := by
  cases n <;> simp [System.newSlots]

theorem length_built {n i : ℕ} (h : i ≤ n) : (built n i).length = n := by
  simp [built, length_newSlots, h]

theorem set_built {n i : ℕ} (h : i < n) : (built n i).set i (.name i) = built n (i + 1) := by
  have hlt : i < (System.newSlots n).length := by rwa [length_newSlots]
  have hdrop : (System.newSlots n).drop i = (System.newSlots n)[i] :: (System.newSlots n).drop (i + 1) :=
    List.drop_eq_getElem_cons hlt
  rw [built, hdrop, List.set_append_right _ _ (by simp), List.length_map, List.length_range,
    Nat.sub_self, List.set_cons_zero, built, List.range_succ, List.map_append, List.append_assoc]
  rfl

theorem built_self (n : ℕ) : built n n = (List.range n).map .name := by
  simp [built, length_newSlots]

/-- The array that the code cleans up: that of all names, or that of the one name that could not be
allocated. -/
def Tidy (slots : List Slot) : Prop := slots = (List.range slots.length).map .name ∨ slots = [.null]

def blocks (slots : List Slot) : List Block := slots.filterMap Slot.block

theorem blocks_names (n : ℕ) : blocks ((List.range n).map .name) = (List.range n).map .name := by
  rw [blocks, List.filterMap_map, ← List.filterMap_eq_map]
  rfl

theorem blocks_newSlots (n i : ℕ) : blocks ((System.newSlots n).drop i) = [] := by
  refine List.filterMap_eq_nil_iff.2 fun slot hslot => ?_
  have hmem : slot ∈ System.newSlots n := List.mem_of_mem_drop hslot
  cases n with
  | zero => exact absurd hmem List.not_mem_nil
  | succ n =>
    rcases List.mem_cons.1 hmem with rfl | hmem
    · rfl
    · rw [List.eq_of_mem_replicate hmem]
      rfl

theorem blocks_built (n i : ℕ) : blocks (built n i) = (List.range i).map .name := by
  rw [built, blocks, List.filterMap_append]
  have hnew := blocks_newSlots n i
  rw [blocks] at hnew
  rw [hnew, List.append_nil]
  exact blocks_names i

theorem mem_blocks {slots : List Slot} {b : Block} (h : b ∈ blocks slots) : ∃ i, b = .name i := by
  obtain ⟨slot, -, hslot⟩ := List.mem_filterMap.1 h
  cases slot with
  | name i => exact ⟨i, (Option.some.inj hslot).symm⟩
  | garbage => exact absurd hslot (by simp [Slot.block])
  | null => exact absurd hslot (by simp [Slot.block])

namespace Tidy

variable {slots : List Slot} {i : ℕ}

theorem nodup (h : Tidy slots) : (blocks slots).Nodup := by
  rcases h with h | rfl
  · rw [h, blocks_names]
    exact List.nodup_range.map fun _ _ => Block.name.inj
  · exact List.nodup_nil

theorem slot (h : Tidy slots) (hi : i < slots.length) :
    slots[i]? = some .null ∨ slots[i]? = some (.name i) := by
  rcases h with h | rfl
  · refine Or.inr ?_
    rw [h, List.getElem?_map, List.getElem?_range hi]
    rfl
  · obtain rfl : i = 0 := by simpa using hi
    exact Or.inl rfl

end Tidy

theorem blocks_take_succ {slots : List Slot} {slot : Slot} {i : ℕ} (h : slots[i]? = some slot) :
    blocks (slots.take (i + 1)) = blocks (slots.take i) ++ slot.block.toList := by
  rw [blocks, List.take_add_one, h, List.filterMap_append]
  cases hblock : slot.block <;> simp [blocks, hblock]

namespace System

variable {α : Type} {s s' : System α} {addresses : List α} {n : ℕ} {early : Prop}

/-- Every address is in the vector, or it was taken by a thread of its own, which connects to it. -/
structure Shared (addresses : List α) (s : System α) : Prop where
  own : addresses = s.addresses ++ s.taken.map Prod.snd
  entered : s.entered.Nodup
  threads : (s.taken.map Prod.fst).Nodup
  took : ∀ t ∈ s.taken.map Prod.fst, t ∈ s.entered
  once : (s.connected.map Prod.fst).Nodup
  connected : s.connected ⊆ s.taken

theorem shared_enter {t : ℕ} (h : s.Shared addresses) (hstep : s.enter t = some s') : s'.Shared addresses := by
  rw [enter] at hstep
  split_ifs at hstep with hthread hreturned
  · obtain rfl := Option.some.inj hstep
    exact ⟨h.own, h.entered, h.threads, h.took, h.once, h.connected⟩
  · obtain rfl := Option.some.inj hstep
    exact ⟨h.own, List.nodup_cons.2 ⟨hthread.2, h.entered⟩, h.threads,
      fun t ht => List.mem_cons_of_mem _ (h.took t ht), h.once, h.connected⟩

theorem shared_take {t : ℕ} (h : s.Shared addresses) (hstep : s.take t = some s') : s'.Shared addresses := by
  rw [take] at hstep
  split_ifs at hstep with hthread hreturned
  · obtain rfl := Option.some.inj hstep
    exact ⟨h.own, h.entered, h.threads, h.took, h.once, h.connected⟩
  by_cases hne : s.addresses = []
  · rw [hne, List.getLast?_nil] at hstep
    obtain rfl := Option.some.inj hstep
    exact ⟨h.own, h.entered, h.threads, h.took, h.once, h.connected⟩
  · rw [List.getLast?_eq_some_getLast hne] at hstep
    obtain rfl := Option.some.inj hstep
    refine ⟨?_, h.entered, List.nodup_cons.2 ⟨hthread.2, h.threads⟩, List.forall_mem_cons.2 ⟨hthread.1, h.took⟩,
      h.once, fun p hp => List.mem_cons_of_mem _ (h.connected hp)⟩
    rw [List.map_cons, List.append_cons, List.dropLast_concat_getLast hne]
    exact h.own

theorem connect_cases {t : ℕ} (hstep : s.connect t = some s') :
    (∃ a, (t, a) ∈ s.taken) ∧ t ∉ s.connected.map Prod.fst ∧
      (s.pc = .returned ∧ s' = s.fail .dangling ∨
        s.pc ≠ .returned ∧ ∃ a, (t, a) ∈ s.taken ∧ s' = { s with connected := (t, a) :: s.connected }) := by
  rw [connect] at hstep
  cases hlookup : s.taken.lookup t with
  | none =>
    rw [hlookup] at hstep
    cases hstep
  | some a =>
    rw [hlookup] at hstep
    dsimp only at hstep
    obtain ⟨l₁, l₂, hsplit, -⟩ := List.lookup_eq_some_iff.1 hlookup
    have hmem : (t, a) ∈ s.taken := by simp [hsplit]
    split_ifs at hstep with hnew hreturned
    · exact ⟨⟨a, hmem⟩, hnew, Or.inl ⟨hreturned, (Option.some.inj hstep).symm⟩⟩
    · exact ⟨⟨a, hmem⟩, hnew, Or.inr ⟨hreturned, a, hmem, (Option.some.inj hstep).symm⟩⟩

theorem shared_connect {t : ℕ} (h : s.Shared addresses) (hstep : s.connect t = some s') :
    s'.Shared addresses := by
  obtain ⟨-, hnew, ⟨-, rfl⟩ | ⟨-, a, hmem, rfl⟩⟩ := connect_cases hstep
  · exact ⟨h.own, h.entered, h.threads, h.took, h.once, h.connected⟩
  · exact ⟨h.own, h.entered, h.threads, h.took, List.nodup_cons.2 ⟨hnew, h.once⟩,
      List.cons_subset.2 ⟨hmem, h.connected⟩⟩

/-- Nothing that the threads have done is undone. -/
structure Frame (s s' : System α) : Prop where
  addresses : s'.addresses = s.addresses
  entered : s'.entered = s.entered
  taken : s'.taken = s.taken
  connected : s'.connected = s.connected

theorem Frame.shared (hframe : Frame s s') (h : s.Shared addresses) : s'.Shared addresses := by
  obtain ⟨haddresses, hentered, htaken, hconnected⟩ := hframe
  exact ⟨haddresses ▸ htaken ▸ h.own, hentered ▸ h.entered, htaken ▸ h.threads,
    htaken ▸ hentered ▸ h.took, hconnected ▸ h.once, htaken ▸ hconnected ▸ h.connected⟩

theorem delete_frame (p : Option Block) (pc : Pc) (s : System α) : Frame s (s.delete p pc) := by
  cases p with
  | none => exact ⟨rfl, rfl, rfl, rfl⟩
  | some b =>
    rw [delete]
    split_ifs <;> exact ⟨rfl, rfl, rfl, rfl⟩

theorem deleteName_frame (i : ℕ) (pc : Pc) (s : System α) : Frame s (s.deleteName i pc) := by
  rw [deleteName]
  split
  · exact ⟨rfl, rfl, rfl, rfl⟩
  split_ifs
  · exact ⟨rfl, rfl, rfl, rfl⟩
  split
  · exact delete_frame _ _ _
  · exact delete_frame _ _ _
  · exact ⟨rfl, rfl, rfl, rfl⟩
  · exact ⟨rfl, rfl, rfl, rfl⟩

theorem clean_frame (exit : Exit) (stage : Stage) (s : System α) : Frame s (s.clean exit stage) := by
  cases stage with
  | check i =>
    rw [clean]
    split_ifs <;> exact ⟨rfl, rfl, rfl, rfl⟩
  | name i => exact deleteName_frame _ _ _
  | _ => exact delete_frame _ _ _

theorem notify_frame {o : Outcome} (h : s.notify o = some s') : Frame s s' := by
  unfold notify at h
  cases hpc : s.pc with
  | clean exit stage =>
    rw [hpc] at h
    obtain rfl := Option.some.inj h
    exact clean_frame exit stage s
  | returned =>
    rw [hpc] at h
    exact absurd h (by simp)
  | allocateName i =>
    rw [hpc] at h
    dsimp only at h
    split_ifs at h
    · cases o <;> obtain rfl := Option.some.inj h <;> exact ⟨rfl, rfl, rfl, rfl⟩
    · obtain rfl := Option.some.inj h
      exact ⟨rfl, rfl, rfl, rfl⟩
  | _ =>
    rw [hpc] at h
    cases o <;> dsimp only at h <;> (try split_ifs at h) <;> obtain rfl := Option.some.inj h <;>
      exact ⟨rfl, rfl, rfl, rfl⟩

theorem step_next {event : Event} (hstep : s.step event = some s') : s.next event = some s' := by
  rw [step] at hstep
  split_ifs at hstep
  exact hstep

theorem shared_step {event : Event} (h : s.Shared addresses) (hstep : s.step event = some s') :
    s'.Shared addresses := by
  have hnext := step_next hstep
  cases event with
  | notify o => exact (notify_frame hnext).shared h
  | enter t => exact shared_enter h hnext
  | take t => exact shared_take h hnext
  | connect t => exact shared_connect h hnext

theorem shared_exec (events : List Event) (h : s.Shared addresses) (hexec : exec step s events = some s') :
    s'.Shared addresses := by
  induction events generalizing s with
  | nil =>
    obtain rfl : s = s' := by simpa using hexec
    exact h
  | cons event events ih =>
    obtain ⟨s₁, hs₁, hexec⟩ := exec_cons_eq_some.1 hexec
    exact ih (shared_step h hs₁) hexec

theorem shared_begin (addresses : List α) : (begin addresses).Shared addresses :=
  ⟨(List.append_nil addresses).symm, List.nodup_nil, List.nodup_nil, fun _ ht => absurd ht List.not_mem_nil,
    List.nodup_nil, List.Subset.refl _⟩

/-- The blocks that the variables of `notify` point to. -/
def owned (s : System α) : List Block :=
  s.ids.toList ++ s.handles.toList ++ s.names.toList ++ blocks s.slots

/-- What the code that cleans up has freed in front of a statement, when its loop over the names has
ended behind `seen` of them. -/
def cleaned (s : System α) (seen : ℕ) : Stage → List Block
  | .ids => []
  | .handles => s.ids.toList
  | .check i | .name i => s.ids.toList ++ s.handles.toList ++ blocks (s.slots.take i)
  | .names => s.ids.toList ++ s.handles.toList ++ blocks (s.slots.take seen)

/-- The variables that are set point to blocks of their own. -/
structure Pointers (s : System α) : Prop where
  ids : s.ids = none ∨ s.ids = some .ids
  handles : s.handles = none ∨ s.handles = some .handles
  names : s.names = none ∧ s.slots = [] ∨ s.names = some .names
  tidy : Tidy s.slots

def Within (n : ℕ) : Stage → Prop
  | .check i => i ≤ n
  | .name i => i < n
  | .ids | .handles | .names => True

/-- No thread is started yet, and nothing is freed. -/
structure Building (s : System α) (ids handles names : Option Block) (slots : List Slot) : Prop where
  started : s.started = 0
  freed : s.freed = []
  ids : s.ids = ids
  handles : s.handles = handles
  names : s.names = names
  slots : s.slots = slots

/-- What is true of the variables at a statement, with threads that may be too early or not. -/
def At (early : Prop) (n : ℕ) (s : System α) : Pc → Prop
  | .allocateIds => s.Building none none none []
  | .allocateHandles => s.Building (some .ids) none none []
  | .allocateNames => s.Building (some .ids) (some .handles) none []
  | .allocateName i => s.Building (some .ids) (some .handles) (some .names) (built n i) ∧ i ≤ n
  | .spawn => s.Building (some .ids) (some .handles) (some .names) (built n n)
  | .clean _ stage =>
    s.Pointers ∧ s.slots.length = n ∧ (∃ seen, (early ∨ seen = n) ∧ s.freed = s.cleaned seen stage) ∧
      Within n stage ∧ (early ∨ Stage.Past n stage ∨ s.taken = [])
  | .wait | .returned =>
    s.Pointers ∧ s.slots.length = n ∧
      ∃ seen, (early ∨ seen = n) ∧ s.freed = s.cleaned seen .names ++ s.names.toList

structure Inv (early : Prop) (addresses : List α) (s : System α) : Prop extends Shared addresses s where
  fault : s.fault = none
  bound : ∀ t ∈ s.entered, t < s.started
  started : s.started ≤ addresses.length
  allocated : s.allocated = s.owned
  at_ : s.At early addresses.length s.pc

theorem Pointers.nodup (h : s.Pointers) : s.owned.Nodup := by
  have harrays : (s.ids.toList ++ s.handles.toList ++ s.names.toList).Nodup ∧
      ∀ i, Block.name i ∉ s.ids.toList ++ s.handles.toList ++ s.names.toList := by
    rcases h.ids with hids | hids <;> rcases h.handles with hhandles | hhandles <;>
      rcases h.names with ⟨hnames, -⟩ | hnames <;> rw [hids, hhandles, hnames] <;> simp
  refine List.nodup_append.2 ⟨harrays.1, h.tidy.nodup, fun b hb b' hb' => ?_⟩
  rintro rfl
  obtain ⟨i, rfl⟩ := mem_blocks hb'
  exact harrays.2 i hb

theorem perm_owned (s : System α) : (s.cleaned s.slots.length .names ++ s.names.toList).Perm s.owned := by
  rw [cleaned, List.take_length, owned, List.append_assoc, List.append_assoc (s.ids.toList ++ s.handles.toList)]
  exact List.Perm.append_left _ List.perm_append_comm

theorem length_threads {threads : List ℕ} {k : ℕ} (hnodup : threads.Nodup) (hbound : ∀ t ∈ threads, t < k) :
    threads.length ≤ k := by
  have hsubset : threads ⊆ List.range k := fun t ht => List.mem_range.2 (hbound t ht)
  have hle := (hnodup.subperm hsubset).length_le
  rwa [List.length_range] at hle

theorem Inv.shared_of (h : s.Inv early addresses) (hframe : Frame s s') : s'.Shared addresses :=
  hframe.shared h.toShared

theorem Inv.length_eq (h : s.Inv early addresses) : addresses.length = s.addresses.length + s.taken.length := by
  have hlength := congrArg List.length h.own
  rwa [List.length_append, List.length_map] at hlength

theorem Inv.sound (h : s.Inv False addresses) : s.Sound addresses := by
  refine ⟨h.fault, h.own, h.threads, fun hstarted hdone => ?_, fun hreturned => ?_⟩
  · have hlength := h.length_eq
    exact List.length_eq_zero_iff.1 (by omega)
  · have hat := h.at_
    rw [hreturned] at hat
    obtain ⟨hpointers, hlength, seen, hseen, hfreed⟩ := hat
    obtain rfl : seen = s.slots.length := (hseen.resolve_left not_false).trans hlength.symm
    rw [h.allocated, hfreed]
    exact ⟨hpointers.nodup, s.perm_owned⟩

theorem inv_begin (early : Prop) (addresses : List α) : (begin addresses).Inv early addresses :=
  ⟨shared_begin addresses, rfl, fun _ ht => absurd ht List.not_mem_nil, Nat.zero_le _, rfl, rfl, rfl, rfl,
    rfl, rfl, rfl⟩

theorem Inv.addresses_ne {t : ℕ} (h : s.Inv early addresses) (ht : t ∈ s.entered)
    (hnew : t ∉ s.taken.map Prod.fst) : s.addresses ≠ [] := by
  intro hnil
  have hbound : ∀ t' ∈ s.taken.map Prod.fst, t' < s.started := fun t' ht' => h.bound t' (h.took t' ht')
  have hthreads : (t :: s.taken.map Prod.fst).length ≤ s.started :=
    length_threads (List.nodup_cons.2 ⟨hnew, h.threads⟩) (List.forall_mem_cons.2 ⟨h.bound t ht, hbound⟩)
  have hlength := h.length_eq
  have hstarted := h.started
  rw [hnil, List.length_nil] at hlength
  rw [List.length_cons, List.length_map] at hthreads
  omega

theorem at_of_threads {pc : Pc} (hat : s.At early n pc) (hids : s'.ids = s.ids) (hhandles : s'.handles = s.handles)
    (hnames : s'.names = s.names) (hslots : s'.slots = s.slots) (hfreed : s'.freed = s.freed)
    (hstarted : s'.started = s.started)
    (htaken : ∀ exit stage, pc = .clean exit stage → early ∨ Stage.Past n stage ∨ s'.taken = []) :
    s'.At early n pc := by
  have hbuilding : ∀ {ids handles names : Option Block} {slots : List Slot},
      s.Building ids handles names slots → s'.Building ids handles names slots := fun hb =>
    ⟨hstarted.trans hb.started, hfreed.trans hb.freed, hids.trans hb.ids, hhandles.trans hb.handles,
      hnames.trans hb.names, hslots.trans hb.slots⟩
  have hpointers : s.Pointers → s'.Pointers := fun hp =>
    ⟨hids ▸ hp.ids, hhandles ▸ hp.handles, hnames ▸ hslots ▸ hp.names, hslots ▸ hp.tidy⟩
  have hcleaned : ∀ seen stage, s'.cleaned seen stage = s.cleaned seen stage := fun seen stage => by
    cases stage <;> simp only [cleaned, hids, hhandles, hslots]
  cases pc with
  | allocateIds | allocateHandles | allocateNames | spawn => exact hbuilding hat
  | allocateName i => exact ⟨hbuilding hat.1, hat.2⟩
  | clean exit stage =>
    obtain ⟨hp, hlength, hseen, hwithin, -⟩ := hat
    simp only [At, hcleaned, hfreed, hslots]
    exact ⟨hpointers hp, hlength, hseen, hwithin, htaken exit stage rfl⟩
  | wait | returned =>
    obtain ⟨hp, hlength, hseen⟩ := hat
    simp only [At, hcleaned, hfreed, hslots, hnames]
    exact ⟨hpointers hp, hlength, hseen⟩

theorem inv_enter {t : ℕ} (h : s.Inv early addresses) (hreturned : s.pc ≠ .returned)
    (hstep : s.enter t = some s') : s'.Inv early addresses := by
  have hshared : s'.Shared addresses := shared_enter h.toShared hstep
  rw [enter] at hstep
  split_ifs at hstep with hthread
  obtain rfl := Option.some.inj hstep
  refine ⟨hshared, h.fault, List.forall_mem_cons.2 ⟨hthread.1, h.bound⟩, h.started, h.allocated,
    at_of_threads h.at_ rfl rfl rfl rfl rfl rfl fun exit stage hpc => ?_⟩
  have hat := h.at_
  rw [hpc] at hat
  exact hat.2.2.2.2

theorem inv_take {t : ℕ} (h : s.Inv early addresses) (hreturned : s.pc ≠ .returned)
    (hpast : early ∨ s.pc.MayTake s.slots.length) (hstep : s.take t = some s') : s'.Inv early addresses := by
  have hshared : s'.Shared addresses := shared_take h.toShared hstep
  rw [take] at hstep
  split_ifs at hstep with hthread
  have hne : s.addresses ≠ [] := h.addresses_ne hthread.1 hthread.2
  rw [List.getLast?_eq_some_getLast hne] at hstep
  obtain rfl := Option.some.inj hstep
  refine ⟨hshared, h.fault, h.bound, h.started, h.allocated,
    at_of_threads h.at_ rfl rfl rfl rfl rfl rfl fun exit stage hpc => ?_⟩
  have hat := h.at_
  rw [hpc] at hat hpast
  rw [hat.2.1] at hpast
  exact hpast.imp_right Or.inl

theorem inv_connect {t : ℕ} (h : s.Inv early addresses) (hreturned : s.pc ≠ .returned)
    (hstep : s.connect t = some s') : s'.Inv early addresses := by
  have hshared : s'.Shared addresses := shared_connect h.toShared hstep
  obtain ⟨-, -, ⟨hpc, -⟩ | ⟨-, a, -, rfl⟩⟩ := connect_cases hstep
  · exact absurd hpc hreturned
  · refine ⟨hshared, h.fault, h.bound, h.started, h.allocated,
      at_of_threads h.at_ rfl rfl rfl rfl rfl rfl fun exit stage hpc => ?_⟩
    have hat := h.at_
    rw [hpc] at hat
    exact hat.2.2.2.2

theorem inv_goto {pc : Pc} (h : s.Inv early addresses) (hat : (s.goto pc).At early addresses.length pc) :
    (s.goto pc).Inv early addresses :=
  ⟨h.shared_of ⟨rfl, rfl, rfl, rfl⟩, h.fault, h.bound, h.started, h.allocated, hat⟩

/-- `delete []` of NULL, or of a block that is allocated and not freed yet. -/
theorem inv_delete {p : Option Block} {pc : Pc} (h : s.Inv early addresses)
    (hp : ∀ b ∈ p, b ∈ s.owned ∧ b ∉ s.freed)
    (hat : ({ s with freed := s.freed ++ p.toList, pc := pc } : System α).At early addresses.length pc) :
    (s.delete p pc).Inv early addresses := by
  cases p with
  | none =>
    rw [Option.toList_none, List.append_nil] at hat
    exact inv_goto h hat
  | some b =>
    have hb : b ∈ s.allocated ∧ b ∉ s.freed := h.allocated ▸ hp b rfl
    rw [delete, if_pos hb]
    exact ⟨h.shared_of ⟨rfl, rfl, rfl, rfl⟩, h.fault, h.bound, h.started, h.allocated, hat⟩

theorem Pointers.mem_owned (h : s.Pointers) :
    (∀ b ∈ s.ids, b = .ids ∧ b ∈ s.owned) ∧ (∀ b ∈ s.handles, b = .handles ∧ b ∈ s.owned) ∧
      ∀ b ∈ s.names, b = .names ∧ b ∈ s.owned := by
  refine ⟨fun b hb => ⟨?_, ?_⟩, fun b hb => ⟨?_, ?_⟩, fun b hb => ⟨?_, ?_⟩⟩
  · rcases h.ids with hids | hids <;> rw [hids] at hb <;> simp_all
  · simp [owned, Option.mem_toList.2 hb]
  · rcases h.handles with hhandles | hhandles <;> rw [hhandles] at hb <;> simp_all
  · simp [owned, Option.mem_toList.2 hb]
  · rcases h.names with ⟨hnames, -⟩ | hnames <;> rw [hnames] at hb <;> simp_all
  · simp [owned, Option.mem_toList.2 hb]

theorem Pointers.notMem_cleaned (h : s.Pointers) (seen : ℕ) :
    Block.handles ∉ s.cleaned seen .handles ∧ (∀ i, Block.names ∉ s.cleaned seen (.name i)) ∧
      Block.names ∉ s.cleaned seen .names := by
  have hblocks : ∀ slots, Block.names ∉ blocks slots := by
    intro slots hmem
    obtain ⟨i, hi⟩ := mem_blocks hmem
    exact absurd hi (by simp)
  rcases h.ids with hids | hids <;> rcases h.handles with hhandles | hhandles <;>
    simp [cleaned, hids, hhandles, hblocks]

theorem Pointers.name_notMem (h : s.Pointers) {i : ℕ} (hi : s.slots[i]? = some (.name i)) (seen : ℕ) :
    .name i ∈ s.owned ∧ .name i ∉ s.cleaned seen (.name i) := by
  have hsplit : blocks s.slots = blocks (s.slots.take i) ++ [.name i] ++ blocks (s.slots.drop (i + 1)) := by
    have htake := blocks_take_succ hi
    rw [Slot.block, Option.toList_some] at htake
    rw [← htake, blocks, blocks, blocks, ← List.filterMap_append, List.take_append_drop]
  have hnodup := h.tidy.nodup
  rw [hsplit] at hnodup
  have hnew : Block.name i ∉ blocks (s.slots.take i) := fun hmem =>
    (List.nodup_append.1 (List.nodup_append.1 hnodup).1).2.2 _ hmem _ List.mem_cons_self rfl
  refine ⟨?_, ?_⟩
  · rw [owned, hsplit]
    simp
  · rcases h.ids with hids | hids <;> rcases h.handles with hhandles | hhandles <;>
      simp [cleaned, hids, hhandles, hnew]

/-- What `delete []` frees of a name is what the loop is to have freed behind it. -/
theorem inv_cleanName {exit : Exit} {i : ℕ} (h : s.Inv early addresses) (hpc : s.pc = .clean exit (.name i)) :
    (s.deleteName i (.clean exit (.check (i + 1)))).Inv early addresses := by
  have hat := h.at_
  rw [hpc] at hat
  obtain ⟨hpointers, hlength, ⟨seen, hseen, hfreed⟩, hwithin, hpast⟩ := hat
  have hi : i < s.slots.length := hlength ▸ hwithin
  have hnext : ∀ {slot : Slot}, s.slots[i]? = some slot →
      ({ s with freed := s.freed ++ slot.block.toList, pc := .clean exit (.check (i + 1)) } : System α).At
        early addresses.length (.clean exit (.check (i + 1))) := by
    intro slot hslot
    refine ⟨⟨hpointers.ids, hpointers.handles, hpointers.names, hpointers.tidy⟩, hlength,
      ⟨seen, hseen, ?_⟩, hwithin, hpast⟩
    change s.freed ++ _ = _
    rw [hfreed, cleaned, cleaned, blocks_take_succ hslot, ← List.append_assoc]
  rcases hpointers.names with ⟨-, hnil⟩ | hsome
  · rw [hnil] at hi
    exact absurd hi (Nat.not_lt_zero i)
  have hlive : Block.names ∉ s.freed := hfreed ▸ (hpointers.notMem_cleaned seen).2.1 i
  rw [deleteName, hsome]
  dsimp only
  rw [if_neg hlive]
  rcases hpointers.tidy.slot hi with hslot | hslot
  · rw [hslot]
    exact inv_delete h (fun b hb => absurd hb (by simp)) (hnext hslot)
  · rw [hslot]
    refine inv_delete h (fun b hb => ?_) (hnext hslot)
    obtain rfl := Option.some.inj hb
    exact hfreed ▸ hpointers.name_notMem hslot seen

theorem inv_clean {exit : Exit} {stage : Stage} (h : s.Inv early addresses) (hpc : s.pc = .clean exit stage) :
    (s.clean exit stage).Inv early addresses := by
  have hat := h.at_
  rw [hpc] at hat
  obtain ⟨hpointers, hlength, ⟨seen, hseen, hfreed⟩, hwithin, hpast⟩ := hat
  obtain ⟨hids, hhandles, hnames⟩ := hpointers.mem_owned
  have hpointers' : ∀ {freed : List Block} {pc : Pc},
      ({ s with freed := freed, pc := pc } : System α).Pointers := fun {_ _} =>
    ⟨hpointers.ids, hpointers.handles, hpointers.names, hpointers.tidy⟩
  have hearly : ∀ {stage' : Stage}, ¬ Stage.Past addresses.length stage →
      early ∨ Stage.Past addresses.length stage' ∨ s.taken = [] := fun {_} hnot =>
    hpast.imp_right fun h => Or.inr (h.resolve_left hnot)
  cases stage with
  | ids =>
    refine inv_delete h (fun b hb => ⟨(hids b hb).2, ?_⟩)
      ⟨hpointers', hlength, ⟨seen, hseen, ?_⟩, trivial, hearly not_false⟩
    · rw [hfreed]
      exact List.not_mem_nil
    · rw [hfreed]
      rfl
  | handles =>
    refine inv_delete h (fun b hb => ⟨(hhandles b hb).2, ?_⟩)
      ⟨hpointers', hlength, ⟨seen, hseen, ?_⟩, Nat.zero_le _, hearly not_false⟩
    · rw [hfreed, (hhandles b hb).1]
      exact (hpointers.notMem_cleaned seen).1
    · rw [hfreed]
      exact (List.append_nil _).symm
  | check i =>
    have hlen := h.length_eq
    rw [clean]
    split_ifs with hi
    · have hi' : i < addresses.length := by omega
      exact inv_goto h ⟨hpointers', hlength, ⟨seen, hseen, hfreed⟩, hi', hearly hi'.ne⟩
    · -- the loop has ended in front of the name `i`
      have heq : early ∨ i = addresses.length := by
        refine hpast.imp_right fun h => h.elim id fun htaken => ?_
        rw [htaken, List.length_nil] at hlen
        have hle : i ≤ addresses.length := hwithin
        omega
      exact inv_goto h ⟨hpointers', hlength, ⟨i, heq, hfreed⟩, trivial, Or.inr (Or.inl trivial)⟩
  | name i => exact inv_cleanName h hpc
  | names =>
    refine inv_delete h (fun b hb => ⟨(hnames b hb).2, ?_⟩) ?_
    · rw [hfreed, (hnames b hb).1]
      exact (hpointers.notMem_cleaned seen).2.2
    · have hlast : ∃ seen, (early ∨ seen = addresses.length) ∧
          s.freed ++ s.names.toList = s.cleaned seen .names ++ s.names.toList :=
        ⟨seen, hseen, by rw [hfreed]⟩
      cases exit with
      | regular => exact ⟨hpointers', hlength, hlast⟩
      | error => exact ⟨hpointers', hlength, hlast⟩

variable {ids handles names : Option Block} {slots : List Slot}

theorem Building.taken (hb : s.Building ids handles names slots) (h : s.Inv early addresses) : s.taken = [] := by
  refine List.eq_nil_iff_forall_not_mem.2 fun t ht => ?_
  have hbound := h.bound t.1 (h.took t.1 (List.mem_map_of_mem ht))
  rw [hb.started] at hbound
  exact absurd hbound (Nat.not_lt_zero _)

theorem Building.length (hb : s.Building ids handles names slots) (h : s.Inv early addresses) :
    s.addresses.length = addresses.length := by
  have hlength := h.length_eq
  rw [hb.taken h, List.length_nil] at hlength
  exact hlength.symm

theorem Building.at_clean {exit : Exit} (hb : s.Building ids handles names slots) (h : s.Inv early addresses)
    (hpointers : s.Pointers) (hlength : s.slots.length = addresses.length) (started : ℕ) :
    ({ s with started := started, pc := .clean exit .ids } : System α).At early addresses.length
      (.clean exit .ids) :=
  ⟨⟨hpointers.ids, hpointers.handles, hpointers.names, hpointers.tidy⟩, hlength,
    ⟨addresses.length, Or.inr rfl, hb.freed⟩, trivial, Or.inr (Or.inr (hb.taken h))⟩

theorem tidy_built (n : ℕ) : Tidy (built n n) := by
  refine Or.inl ?_
  rw [length_built le_rfl, built_self]

theorem Building.inv_fail (hb : s.Building ids handles none []) (h : s.Inv early addresses)
    (hids : ids = none ∨ ids = some .ids) (hhandles : handles = none ∨ handles = some .handles)
    (hnil : s.addresses.length = 0) : (s.goto (.clean .error .ids)).Inv early addresses := by
  have hpointers : s.Pointers := by
    refine ⟨hb.ids ▸ hids, hb.handles ▸ hhandles, Or.inl ⟨hb.names, hb.slots⟩, Or.inl ?_⟩
    rw [hb.slots]
    rfl
  refine inv_goto h (hb.at_clean h hpointers ?_ s.started)
  rw [← hb.length h, hnil, hb.slots]
  rfl

theorem inv_allocateName {o : Outcome} {i : ℕ} (h : s.Inv early addresses) (hpc : s.pc = .allocateName i)
    (hsafe : s.Safe (.notify o)) (hstep : s.notify o = some s') : s'.Inv early addresses := by
  have hat := h.at_
  rw [hpc] at hat
  obtain ⟨hb, hi⟩ := hat
  unfold notify at hstep
  rw [hpc] at hstep
  dsimp only at hstep
  rw [hb.length h] at hstep
  split_ifs at hstep with hlt
  · cases o with
    | succeeds =>
      obtain rfl := Option.some.inj hstep
      have hslots : s.slots.set i (.name i) = built addresses.length (i + 1) := by
        rw [hb.slots, set_built hlt]
      refine ⟨h.shared_of ⟨rfl, rfl, rfl, rfl⟩, h.fault, h.bound, h.started, ?_, ?_⟩
      · rw [h.allocated, owned, owned]
        dsimp only
        rw [hslots, hb.slots, blocks_built, blocks_built, List.range_succ, List.map_append,
          List.append_assoc]
        rfl
      · exact ⟨⟨hb.started, hb.freed, hb.ids, hb.handles, hb.names, hslots⟩, hlt⟩
    | fails k =>
      -- the one name that `memset` has set to NULL
      rw [Safe, hpc] at hsafe
      obtain rfl := Option.some.inj hstep
      have hone : addresses.length = 1 := by
        rw [← hb.length h]
        exact hsafe (by rw [hb.length h]; exact hlt)
      obtain rfl : i = 0 := by omega
      have hslots : s.slots = [.null] := by
        rw [hb.slots, hone]
        rfl
      have hpointers : s.Pointers :=
        ⟨Or.inr hb.ids, Or.inr hb.handles, Or.inr hb.names, Or.inr hslots⟩
      refine inv_goto h (hb.at_clean h hpointers ?_ s.started)
      rw [hslots, hone]
      rfl
  · obtain rfl := Option.some.inj hstep
    obtain rfl : i = addresses.length := by omega
    exact inv_goto h ⟨hb.started, hb.freed, hb.ids, hb.handles, hb.names, hb.slots⟩

theorem inv_spawn {o : Outcome} (h : s.Inv early addresses) (hpc : s.pc = .spawn)
    (hstep : s.notify o = some s') : s'.Inv early addresses := by
  have hb := h.at_
  rw [hpc] at hb
  have hpointers : s.Pointers :=
    ⟨Or.inr hb.ids, Or.inr hb.handles, Or.inr hb.names, hb.slots ▸ tidy_built addresses.length⟩
  have hlength : s.slots.length = addresses.length := by rw [hb.slots, length_built le_rfl]
  have hbound : ∀ k, ∀ t ∈ s.entered, t < k := by
    intro k t ht
    have hnone := h.bound t ht
    rw [hb.started] at hnone
    exact absurd hnone (Nat.not_lt_zero t)
  unfold notify at hstep
  rw [hpc] at hstep
  cases o with
  | succeeds =>
    obtain rfl := Option.some.inj hstep
    exact ⟨h.shared_of ⟨rfl, rfl, rfl, rfl⟩, h.fault, hbound _, (hb.length h).le, h.allocated,
      hb.at_clean h hpointers hlength _⟩
  | fails k =>
    dsimp only at hstep
    split_ifs at hstep with hk
    obtain rfl := Option.some.inj hstep
    exact ⟨h.shared_of ⟨rfl, rfl, rfl, rfl⟩, h.fault, hbound _, (hb.length h) ▸ hk, h.allocated,
      hb.at_clean h hpointers hlength _⟩

theorem inv_allocateIds {o : Outcome} (h : s.Inv early addresses) (hpc : s.pc = .allocateIds)
    (hsafe : s.Safe (.notify o)) (hstep : s.notify o = some s') : s'.Inv early addresses := by
  have hat := h.at_
  unfold notify at hstep
  rw [hpc] at hat hstep
  cases o with
  | succeeds =>
    obtain rfl := Option.some.inj hstep
    refine ⟨h.shared_of ⟨rfl, rfl, rfl, rfl⟩, h.fault, h.bound, h.started, ?_, ?_⟩
    · rw [h.allocated, owned, owned, hat.ids, hat.handles, hat.names, hat.slots]
      rfl
    · exact ⟨hat.started, hat.freed, rfl, hat.handles, hat.names, hat.slots⟩
  | fails k =>
    rw [Safe, hpc] at hsafe
    obtain rfl := Option.some.inj hstep
    exact hat.inv_fail h (Or.inl rfl) (Or.inl rfl) hsafe

theorem inv_allocateHandles {o : Outcome} (h : s.Inv early addresses) (hpc : s.pc = .allocateHandles)
    (hsafe : s.Safe (.notify o)) (hstep : s.notify o = some s') : s'.Inv early addresses := by
  have hat := h.at_
  unfold notify at hstep
  rw [hpc] at hat hstep
  cases o with
  | succeeds =>
    obtain rfl := Option.some.inj hstep
    refine ⟨h.shared_of ⟨rfl, rfl, rfl, rfl⟩, h.fault, h.bound, h.started, ?_, ?_⟩
    · rw [h.allocated, owned, owned, hat.ids, hat.handles, hat.names, hat.slots]
      rfl
    · exact ⟨hat.started, hat.freed, hat.ids, rfl, hat.names, hat.slots⟩
  | fails k =>
    rw [Safe, hpc] at hsafe
    obtain rfl := Option.some.inj hstep
    exact hat.inv_fail h (Or.inr rfl) (Or.inl rfl) hsafe

theorem inv_allocateNames {o : Outcome} (h : s.Inv early addresses) (hpc : s.pc = .allocateNames)
    (hsafe : s.Safe (.notify o)) (hstep : s.notify o = some s') : s'.Inv early addresses := by
  have hat := h.at_
  unfold notify at hstep
  rw [hpc] at hat hstep
  cases o with
  | succeeds =>
    obtain rfl := Option.some.inj hstep
    have hslots : newSlots s.addresses.length = built addresses.length 0 := by
      rw [hat.length h]
      rfl
    refine ⟨h.shared_of ⟨rfl, rfl, rfl, rfl⟩, h.fault, h.bound, h.started, ?_, ?_⟩
    · rw [h.allocated, owned, owned]
      dsimp only
      rw [hslots, blocks_built, hat.ids, hat.handles, hat.names, hat.slots]
      rfl
    · exact ⟨⟨hat.started, hat.freed, hat.ids, hat.handles, rfl, hslots⟩, Nat.zero_le _⟩
  | fails k =>
    rw [Safe, hpc] at hsafe
    obtain rfl := Option.some.inj hstep
    exact hat.inv_fail h (Or.inr rfl) (Or.inr rfl) hsafe

theorem inv_wait {o : Outcome} (h : s.Inv early addresses) (hpc : s.pc = .wait)
    (hsafe : s.Safe (.notify o)) (hstep : s.notify o = some s') : s'.Inv early addresses := by
  have hat := h.at_
  unfold notify at hstep
  rw [hpc] at hat hstep
  cases o with
  | succeeds =>
    dsimp only at hstep
    split_ifs at hstep
    obtain rfl := Option.some.inj hstep
    obtain ⟨hpointers, hlength, hfreed⟩ := hat
    exact inv_goto h ⟨⟨hpointers.ids, hpointers.handles, hpointers.names, hpointers.tidy⟩, hlength, hfreed⟩
  | fails k =>
    rw [Safe, hpc] at hsafe
    exact hsafe.elim

theorem inv_notify {o : Outcome} (h : s.Inv early addresses) (hsafe : s.Safe (.notify o))
    (hstep : s.notify o = some s') : s'.Inv early addresses := by
  cases hpc : s.pc with
  | allocateIds => exact inv_allocateIds h hpc hsafe hstep
  | allocateHandles => exact inv_allocateHandles h hpc hsafe hstep
  | allocateNames => exact inv_allocateNames h hpc hsafe hstep
  | allocateName i => exact inv_allocateName h hpc hsafe hstep
  | spawn => exact inv_spawn h hpc hstep
  | clean exit stage =>
    unfold notify at hstep
    rw [hpc] at hstep
    obtain rfl := Option.some.inj hstep
    exact inv_clean h hpc
  | wait => exact inv_wait h hpc hsafe hstep
  | returned =>
    unfold notify at hstep
    rw [hpc] at hstep
    exact absurd hstep (by simp)

/-- The steps of a run in which threads may be too early or not. -/
def Allowed (early : Prop) (s : System α) : Event → Prop
  | .notify o => s.Safe (.notify o)
  | .take _ => s.pc ≠ .returned ∧ (early ∨ s.pc.MayTake s.slots.length)
  | .enter _ | .connect _ => s.pc ≠ .returned

theorem inv_step {e : Event} (h : s.Inv early addresses) (hallowed : s.Allowed early e)
    (hstep : s.step e = some s') : s'.Inv early addresses := by
  have hnext := step_next hstep
  cases e with
  | notify o => exact inv_notify h hallowed hnext
  | enter t => exact inv_enter h hallowed hnext
  | take t => exact inv_take h hallowed.1 hallowed.2 hnext
  | connect t => exact inv_connect h hallowed hnext

theorem allowed_of_safe {e : Event} (hsafe : s.Safe e) : s.Allowed False e := by
  cases e with
  | take t =>
    refine ⟨fun hpc => ?_, Or.inr hsafe⟩
    rw [Safe, hpc] at hsafe
    exact hsafe
  | _ => exact hsafe

/-- In every run of safe steps every state is as it should be. -/
theorem sound_of_safe (addresses : List α) (events : List Event)
    (hsafe : Always step (fun s e _ => s.Safe e) (begin addresses) events) :
    Always step (fun _ _ s' => s'.Sound addresses) (begin addresses) events := by
  have hstep : ∀ (s : System α) e s', s.Inv False addresses → s.step e = some s' → s.Safe e →
      s'.Inv False addresses ∧ s'.Sound addresses := by
    intro s e s' h hstep hsafe
    have h' := inv_step h (allowed_of_safe hsafe) hstep
    exact ⟨h', h'.sound⟩
  exact always_of_step hstep events (inv_begin False addresses) hsafe

/-- Two addresses, and nothing fails: the names are freed, and then the threads take their turn. -/
def orderlyRun : List Event :=
  List.replicate 8 (.notify .succeeds) ++ [.enter 1] ++ List.replicate 5 (.notify .succeeds) ++
    [.take 1, .enter 0] ++ List.replicate 2 (.notify .succeeds) ++
    [.take 0, .connect 1, .connect 0, .notify .succeeds]

theorem sound_orderlyRun :
    Always step (fun _ _ s' => s'.Sound ["10.0.0.1", "10.0.0.2"]) (begin ["10.0.0.1", "10.0.0.2"])
        orderlyRun ∧
      (exec step (begin ["10.0.0.1", "10.0.0.2"]) orderlyRun).map (·.pc) = some .returned :=
  ⟨sound_of_safe ["10.0.0.1", "10.0.0.2"] orderlyRun (by decide), by decide⟩

/-- The first allocation fails, and the names are looked up in an array that is not there. -/
def missingRun : List Event := .notify (.fails 0) :: List.replicate 4 (.notify .succeeds)

/-- A thread takes its address before `notify` frees the names, of which one is left then. -/
def earlyRun : List Event :=
  List.replicate 7 (.notify .succeeds) ++ [.enter 0, .take 0, .connect 0] ++
    List.replicate 6 (.notify .succeeds) ++ [.enter 1, .take 1, .connect 1, .notify .succeeds]

theorem not_sound_runs :
    ((exec step (begin ["10.0.0.1"]) missingRun).map (·.fault) = some (some .null) ∧
      ¬ Always step (fun _ _ s' => s'.Sound ["10.0.0.1"]) (begin ["10.0.0.1"]) missingRun) ∧
    (exec step (begin ["10.0.0.1", "10.0.0.2"]) earlyRun).map (fun s => (s.pc, s.allocated, s.freed)) =
        some (.returned, [.ids, .handles, .names, .name 0, .name 1], [.ids, .handles, .name 0, .names]) ∧
      ¬ Always step (fun _ _ s' => s'.Sound ["10.0.0.1", "10.0.0.2"])
        (begin ["10.0.0.1", "10.0.0.2"]) earlyRun := by
  have hmissing : (exec step (begin ["10.0.0.1"]) missingRun).map (·.fault) = some (some .null) := by decide
  have hearly : (exec step (begin ["10.0.0.1", "10.0.0.2"]) earlyRun).map
      (fun s => (s.pc, s.allocated, s.freed)) =
        some (.returned, [.ids, .handles, .names, .name 0, .name 1], [.ids, .handles, .name 0, .names]) := by
    decide
  refine ⟨⟨hmissing, fun hsound => ?_⟩, hearly, fun hsound => ?_⟩
  · obtain ⟨s', hexec, hfault⟩ := Option.map_eq_some_iff.1 hmissing
    have hlast := exec_of_always missingRun (inv_begin False _).sound hsound hexec
    rw [hlast.fault] at hfault
    exact absurd hfault (by simp)
  · obtain ⟨s', hexec, hfields⟩ := Option.map_eq_some_iff.1 hearly
    have hlast := exec_of_always earlyRun (inv_begin False _).sound hsound hexec
    obtain ⟨hpc, hallocated, hfreed⟩ : s'.pc = .returned ∧
        s'.allocated = [.ids, .handles, .names, .name 0, .name 1] ∧
        s'.freed = [.ids, .handles, .name 0, .names] := by simpa using hfields
    have hperm := (hlast.freed hpc).2
    rw [hallocated, hfreed] at hperm
    exact absurd hperm (by decide)

end System

end ACENetwork.BitTorrent.PeerSetup
