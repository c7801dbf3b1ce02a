import Mathlib
import ACENetwork.Library.Transition
import ACENetwork.Spec.BitTorrent.Control

/-! Which requests keep the session table consistent. A request that fails after its
session was registered drops the table entry of that file, whoever put it there, unless the
tracker connection was already found: then it drops nothing, although the session goes. -/

namespace ACENetwork.BitTorrent

open Std Transition

def Control.AllLive (c : Control) : Prop :=
  ∀ (file : String) (i : SessionId), c.sessions[file]? = some i → i ∉ c.deleted

/-- Session objects are numbered in the order of their creation. -/
structure Control.Numbered (c : Control) : Prop where
  sessions : ∀ (file : String) (i : SessionId), c.sessions[file]? = some i → i < c.next
  deleted : ∀ i ∈ c.deleted, i < c.next

def Outcomes.connects (o : Outcomes) : Bool :=
  o.data && o.parseURL && o.set && o.dataContainer && o.message && o.connection

/-- The invariant of a run: no entry dangles, and object numbers are below the next one. -/
structure Control.Inv (c : Control) : Prop where
  live : c.AllLive
  numbered : c.Numbered

theorem Control.Numbered.succ {c : Control} (h : c.Numbered) :
    (⟨c.sessions, c.deleted, c.next + 1⟩ : Control).Numbered :=
  ⟨fun file i hi => Nat.lt_succ_of_lt (h.sessions file i hi),
    fun i hi => Nat.lt_succ_of_lt (h.deleted i hi)⟩

theorem Control.Numbered.erase {c : Control} (h : c.Numbered) (file : String) :
    (⟨c.sessions.erase file, c.deleted, c.next⟩ : Control).Numbered := by
  refine ⟨fun f i hi => ?_, h.deleted⟩
  rw [ExtTreeMap.getElem?_erase] at hi
  split_ifs at hi
  exact h.sessions f i hi

theorem Control.AllLive.erase {c : Control} (h : c.AllLive) (file : String) (n : SessionId) :
    (⟨c.sessions.erase file, c.deleted, n⟩ : Control).AllLive := by
  intro f i hi
  rw [ExtTreeMap.getElem?_erase] at hi
  split_ifs at hi
  exact h f i hi

end ACENetwork.BitTorrent
