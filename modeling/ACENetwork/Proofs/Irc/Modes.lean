import Mathlib
import ACENetwork.Spec.Irc.Modes

/-! When a mode string of several groups is merged as it is meant, and which sets of modes are read
back from their text. -/

namespace ACENetwork.Irc

variable {M : Type} {toMode : UInt8 → Option M}

namespace ModeGroup

theorem assignments_cons (g : ModeGroup) (gs : List ModeGroup) :
    assignments toMode (g :: gs) =
      (g.letters.filterMap fun c => (toMode c).map fun mode => (mode, g.assign)) ++
        assignments toMode gs := rfl

end ModeGroup

namespace Tools

open ModeGroup

theorem filterMap_letters (cs : List UInt8) (assign : Bool) :
    (cs.filterMap fun c => (toMode c).map fun mode => (mode, assign)).map Prod.fst =
      cs.filterMap toMode := by
  rw [List.map_filterMap]
  refine List.filterMap_congr fun c _ => ?_
  cases toMode c <;> rfl

theorem filterMap_join (hplus : toMode plus = none) (hminus : toMode minus = none)
    (gs : List ModeGroup) :
    (join gs).filterMap toMode = (assignments toMode gs).map Prod.fst := by
  induction gs with
  | nil => rfl
  | cons g gs ih =>
    have hsign : toMode (if g.assign then plus else minus) = none := by
      split_ifs
      · exact hplus
      · exact hminus
    rw [assignments_cons, List.map_append, filterMap_letters, ← ih, join, List.flatMap_cons, text,
      List.cons_append, List.filterMap_cons_none hsign, List.filterMap_append]
    rfl

variable [DecidableEq M]

/-- The loop puts the modes of the letters to one value, and skips what is no letter of a mode. -/
theorem foldl_mergeChar_eq (assign : Bool) (cs : List UInt8) (acc : ℕ × Finset M) :
    cs.foldl (mergeChar toMode assign) acc =
      ((cs.filterMap toMode).map fun mode => (mode, assign)).foldl Switches.put acc := by
  induction cs generalizing acc with
  | nil => rfl
  | cons c cs ih =>
    rw [List.foldl_cons, ih]
    cases h : toMode c with
    | none => rw [mergeChar, h, List.filterMap_cons_none h]
    | some mode =>
      rw [mergeChar, h, List.filterMap_cons_some h]
      rfl

theorem merge_cons (c : UInt8) (cs : List UInt8) (modes : Finset M) :
    merge toMode (c :: cs) modes =
      .ok (Switches.run ((cs.filterMap toMode).map fun mode => (mode, decide (c = plus))) modes) :=
  congrArg Except.ok (foldl_mergeChar_eq (decide (c = plus)) cs (0, modes))

theorem merge_join (hplus : toMode plus = none) (hminus : toMode minus = none) (g : ModeGroup)
    (gs : List ModeGroup) (modes : Finset M) :
    merge toMode (join (g :: gs)) modes =
      .ok (Switches.run ((assignments toMode (g :: gs)).map fun a => (a.1, g.assign)) modes) := by
  have hsign : decide ((if g.assign then plus else minus) = plus) = g.assign := by
    cases g.assign <;> decide
  have hskip : ((if g.assign then plus else minus) :: (g.letters ++ join gs)).filterMap toMode =
      (g.letters ++ join gs).filterMap toMode := by
    refine List.filterMap_cons_none ?_
    split_ifs
    · exact hplus
    · exact hminus
  have hjoin : join (g :: gs) = (if g.assign then plus else minus) :: (g.letters ++ join gs) := rfl
  rw [hjoin, merge_cons, hsign, ← hskip, ← hjoin, filterMap_join hplus hminus, List.map_map]
  rfl

theorem merge_join_iff (hplus : toMode plus = none) (hminus : toMode minus = none) (g : ModeGroup)
    (gs : List ModeGroup) (modes : Finset M) :
    merge toMode (join (g :: gs)) modes = .ok (meant toMode (g :: gs) modes) ↔
      KeepsSign toMode g gs modes := by
  rw [merge_join hplus hminus, Except.ok.injEq]
  exact Switches.run_map_const_iff g.assign (assignments toMode (g :: gs)) modes

/-- The modes that have a letter that is read as the mode again come back from a text. -/
theorem merge_dump {all : List M} {toChar : M → UInt8} (hall : all.Nodup) (good : M → Bool)
    (hgood : ∀ mode, toMode (toChar mode) = if good mode then some mode else none)
    (modes : Finset M) :
    merge toMode (dump all toChar modes) ∅ =
      .ok ((all.filter fun mode => decide (mode ∈ modes) && good mode).length,
        (all.filter fun mode => decide (mode ∈ modes) && good mode).toFinset) := by
  have hread : ∀ xs : List M, (xs.map toChar).filterMap toMode = xs.filter good := by
    intro xs
    induction xs with
    | nil => rfl
    | cons x xs ih =>
      rw [List.map_cons]
      by_cases hx : good x = true
      · rw [List.filterMap_cons_some ((hgood x).trans (if_pos hx)), ih, List.filter_cons_of_pos hx]
      · rw [List.filterMap_cons_none ((hgood x).trans (if_neg hx)), ih, List.filter_cons_of_neg hx]
  have hsame : ((all.filter fun mode => decide (mode ∈ modes)).filter good) =
      all.filter fun mode => decide (mode ∈ modes) && good mode := by
    rw [List.filter_filter]
    exact List.filter_congr fun x _ => Bool.and_comm _ _
  rw [dump, merge_cons, hread, hsame, decide_eq_true rfl,
    Switches.run_on (hall.filter _) ∅ fun x _ => Finset.notMem_empty x, Finset.empty_union]

end Tools

namespace UserMode

theorem mem_all (mode : UserMode) : mode ∈ all := by cases mode <;> decide

theorem nodup_all : all.Nodup := by decide

end UserMode

namespace ChannelMode

theorem mem_all (mode : ChannelMode) : mode ∈ all := by cases mode <;> decide

theorem nodup_all : all.Nodup := by decide

def hasChar (mode : ChannelMode) : Bool :=
  decide (mode ≠ .anonymous ∧ mode ≠ .quiet ∧ mode ≠ .reop)

end ChannelMode

namespace Tools

theorem charToUserMode_userModeToChar (mode : UserMode) :
    charToUserMode (userModeToChar mode) = some mode := by
  cases mode <;> decide

theorem charToChannelMode_channelModeToChar (mode : ChannelMode) :
    charToChannelMode (channelModeToChar mode) = if mode.hasChar then some mode else none := by
  cases mode <;> decide

theorem mergeUser_dumpUser (modes : Finset UserMode) :
    mergeUser (dumpUser modes) ∅ = .ok (modes.card, modes) := by
  have hall : (UserMode.all.filter fun mode => decide (mode ∈ modes) && true).toFinset = modes := by
    ext mode
    simp [UserMode.mem_all]
  have hcard := congrArg Finset.card hall
  rw [List.toFinset_card_of_nodup (UserMode.nodup_all.filter _)] at hcard
  rw [mergeUser, dumpUser, merge_dump UserMode.nodup_all (fun _ => true)
    (fun mode => charToUserMode_userModeToChar mode), hall, hcard]

theorem mergeChannel_dumpChannel (modes : Finset ChannelMode) :
    mergeChannel (dumpChannel modes) ∅ = .ok ((modes.filter fun mode => mode.hasChar).card,
      modes.filter fun mode => mode.hasChar) := by
  have hall : (ChannelMode.all.filter fun mode => decide (mode ∈ modes) && mode.hasChar).toFinset =
      modes.filter fun mode => mode.hasChar := by
    ext mode
    simp [ChannelMode.mem_all]
  have hcard := congrArg Finset.card hall
  rw [List.toFinset_card_of_nodup (ChannelMode.nodup_all.filter _)] at hcard
  rw [mergeChannel, dumpChannel, merge_dump ChannelMode.nodup_all ChannelMode.hasChar
    charToChannelMode_channelModeToChar, hall, hcard]

/-- A mode string is merged as it is meant, and the text of a set of modes is merged into that set. -/
theorem merge_dump_iff (g : ModeGroup) (gs : List ModeGroup) (users : Finset UserMode)
    (modes : Finset ChannelMode) :
    (mergeUser (ModeGroup.join (g :: gs)) users =
        .ok (ModeGroup.meant charToUserMode (g :: gs) users) ↔
      ModeGroup.KeepsSign charToUserMode g gs users) ∧
    (mergeChannel (ModeGroup.join (g :: gs)) modes =
        .ok (ModeGroup.meant charToChannelMode (g :: gs) modes) ↔
      ModeGroup.KeepsSign charToChannelMode g gs modes) ∧
    mergeUser (dumpUser users) ∅ = .ok (users.card, users) ∧
    ((∃ n, mergeChannel (dumpChannel modes) ∅ = .ok (n, modes)) ↔
      ChannelMode.anonymous ∉ modes ∧ ChannelMode.quiet ∉ modes ∧ ChannelMode.reop ∉ modes) := by
  refine ⟨merge_join_iff (by decide) (by decide) g gs users,
    merge_join_iff (by decide) (by decide) g gs modes, mergeUser_dumpUser users, ?_⟩
  rw [mergeChannel_dumpChannel]
  constructor
  · rintro ⟨n, h⟩
    have hsame : (modes.filter fun mode => mode.hasChar) = modes := (Prod.mk.inj (Except.ok.inj h)).2
    have hhas : ∀ mode ∈ modes, mode.hasChar = true := Finset.filter_eq_self.1 hsame
    exact ⟨fun hm => absurd (hhas _ hm) (by decide), fun hm => absurd (hhas _ hm) (by decide),
      fun hm => absurd (hhas _ hm) (by decide)⟩
  · rintro ⟨ha, hq, hr⟩
    have hsame : (modes.filter fun mode => mode.hasChar) = modes := by
      refine Finset.filter_eq_self.2 fun mode hm => decide_eq_true ⟨?_, ?_, ?_⟩
      · rintro rfl
        exact ha hm
      · rintro rfl
        exact hq hm
      · rintro rfl
        exact hr hm
    exact ⟨_, congrArg (fun s => Except.ok (_, s)) hsame⟩

def letterO (assign : Bool) : ModeGroup :=
  ⟨assign, [111], fun c hc => by
    obtain rfl := List.mem_singleton.1 hc
    exact ⟨by decide, by decide⟩⟩

/-- `+o-o`: the second sign is taken for a letter that is not known. `QUIET` has no letter to be
written with. -/
theorem merge_dump_ne :
    mergeUser (ModeGroup.join [letterO true, letterO false]) ∅ ≠
        .ok (ModeGroup.meant charToUserMode [letterO true, letterO false] ∅) ∧
      ∀ n, mergeChannel (dumpChannel {.quiet}) ∅ ≠ .ok (n, {.quiet}) := by
  refine ⟨by decide, fun n h => ?_⟩
  have hmodes : (∅ : Finset ChannelMode) = {.quiet} := by
    rw [mergeChannel_dumpChannel] at h
    exact (Prod.mk.inj (Except.ok.inj h)).2
  exact absurd hmodes (by decide)

end Tools

end ACENetwork.Irc
