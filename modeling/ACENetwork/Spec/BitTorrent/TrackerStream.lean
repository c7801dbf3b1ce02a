import Mathlib
import ACENetwork.Spec.Http.ModuleParser
import ACENetwork.Spec.BitTorrent.BencodingParser
import ACENetwork.Spec.BitTorrent.TrackerResponse

/-! The stream of a connection to a tracker. `HTTP_Module_Parser_T` leaves the entity of a response
to the modules behind it, and `BitTorrent_TrackerStreamHandler_T::notify` has a new parser for it,
whose dictionary the session gets. -/

namespace ACENetwork.BitTorrent.TrackerStream

open Bison ByteOrder PeerSetup TrackerResponse

/-- How `notify` ends: it returns without a dictionary, or the session has been notified of one, or
the program has ended. -/
inductive Handled where
  | returned
  | notified (record : List (List UInt8 × Bencoding)) (responses : Responses)
    (outcome : TrackerResponse.Outcome)
  | fault (f : MetaInfo.Fault)

section

variable (debug : Bool) (e : Endian) (set : SetAddress)

def parser (message : List UInt8) : Bison.Config MetaInfo.Token MetaInfo.Value MetaInfo.Driver :=
  Parser.start { scanner := { buffer := message } }

/-- `BitTorrent_TrackerStreamHandler_T::notify`. The place of the dictionary is the one where the
parser has it. -/
inductive Handles (responses : Responses) (message : List UInt8) : Handled → Prop where
  | rejected {code : Code} {d : MetaInfo.Driver}
    (h : (MetaInfo.parser debug).Halts (parser message) (.returned code d)) (hcode : code ≠ .accepted) :
    Handles responses message .returned
  | fault {f : MetaInfo.Fault} (h : (MetaInfo.parser debug).Halts (parser message) (.fault f)) :
    Handles responses message (.fault f)
  | unset {d : MetaInfo.Driver}
    (h : (MetaInfo.parser debug).Halts (parser message) (.returned .accepted d))
    -- ACE_ASSERT (parser.bencoding_)
    (hnone : d.bencoding = none) : Handles responses message (.fault .assertion)
  | notified {d : MetaInfo.Driver} {place : ℕ} {record : List (List UInt8 × Bencoding)}
    (h : (MetaInfo.parser debug).Halts (parser message) (.returned .accepted d))
    (hplace : d.bencoding = some place)
    (hreads : d.heap.Reads (.dictionary place) (.dictionary record)) :
    Handles responses message (.notified record (notify e set responses record place).1
      (notify e set responses record place).2)

/-- The response, in one fragment, goes on as one message, the session is notified of its
dictionary and of nothing else, and each address of the compact string is connected to. -/
def Serves (tools : Http.StringTools) (h : Http.Head) (record : List (List UInt8 × Bencoding))
    (s : List UInt8) : Prop :=
  ∃ m chain head addresses,
    Http.ModuleParser.Handles tools { driver := { blocking := false } }
      (h.text ++ (Bencoding.dictionary record).encode) m ∧
    m.pushed = [(chain, [head])] ∧ Compact e s addresses ∧
    (∀ responses handled,
      Handles debug e set responses (chain.flatMap Http.Block.content) handled ↔
        handled = .notified record (responses.setRequest 0) (.connects (System.begin addresses))) ∧
    Connects addresses

end

end ACENetwork.BitTorrent.TrackerStream
