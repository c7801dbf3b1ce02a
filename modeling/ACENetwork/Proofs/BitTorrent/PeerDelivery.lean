import Mathlib
import ACENetwork.Proofs.BitTorrent.PeerScanner

/-! When the parser reports what it reads. A record is reported as soon as its token has been
shifted, the handshake in the reduction of the whole session, which needs the token at the end of
the input; the token for the end of a fragment accepts before that. -/

namespace ACENetwork.BitTorrent.Peer

open ByteOrder Bison Parser

variable {S : Type} {sc : Scanner S} {s s' : S} {k : Token} {v : Value} {h : HandShake}
  {calls : List Call} {x : Result Fault (Driver S)} {ms : List (Token × Record)}

/-- A call of the scanner leaves the calls of the parser alone. -/
theorem lexes_driver (hlex : Lexes sc.scan s k v s') (calls : List Call) :
    Lexes sc.scanDriver ⟨s, calls⟩ k v ⟨s', calls⟩ := by
  induction hlex with
  | token hs => exact .token (by simp only [Scanner.scanDriver, hs])
  | more hs _ ih => exact .more (by simp only [Scanner.scanDriver, hs]) ih

theorem lexes_with_calls (hlex : Lexes sc.scan (sc.enter s) k v s') (calls : List Call) :
    Lexes sc.parser.scan (sc.parser.enter ⟨s, calls⟩) k v ⟨s', calls⟩ := lexes_driver hlex calls

theorem halts_default (args rest : List (ℕ × Value)) {rule : GrammarRule} {look : Look Token Value}
    {d d' : Driver S} (hc : consistent (top (args ++ rest)) = some rule) (ha : args.length = arity rule)
    (hv : semantics rule (args.map Prod.snd).reverse d = .value v d') :
    sc.parser.Halts ⟨args ++ rest, look, d⟩ x ↔
      sc.parser.Halts ⟨(goto (top rest) rule, v) :: rest, look, d'⟩ x := by
  refine halts_reduce args rest (fun hf => ?_) (Or.inl hc) ha hv rfl
  rw [hf] at hc
  simp [Scanner.parser, consistent] at hc

def session (h : HandShake) (n : UInt32) : List (ℕ × Value) := [(3, .size n), (1, .handshake h)]

theorem halts_handshake (hlex : Lexes sc.scan (sc.enter s) .handshake (.handshake h) s') :
    sc.parser.Halts (Parser.start ⟨s, calls⟩) x ↔
      sc.parser.Halts ⟨session h 0, .empty, ⟨s', calls⟩⟩ x := by
  unfold Parser.start
  refine (halts_lex_shift (p := sc.parser) (q := 1) (by simp [top, Scanner.parser]) rfl
    (lexes_with_calls hlex calls) rfl rfl).trans ?_
  exact halts_default [] [(1, .handshake h)] rfl rfl rfl

theorem session_reads (n : UInt32) :
    top (session h n) ≠ sc.parser.final ∧ sc.parser.consistent (top (session h n)) = none :=
  ⟨by simp [session, top, Scanner.parser], rfl⟩

theorem message_tables (hk : k.isMessage = true) : ∃ q rule, action 3 k = .shift q ∧
    consistent q = some rule ∧ arity rule = 1 ∧ goto 3 rule = 17 ∧
    ∀ args (d : Driver S), semantics rule args d = messageSemantics args d := by
  cases k
  case handshake | endOfFragment | end_ => exact absurd hk (by decide)
  all_goals exact ⟨_, _, rfl, rfl, rfl, rfl, fun _ _ => rfl⟩

theorem halts_message {r : Record} {n : UInt32} (hk : k.isMessage = true)
    (hlex : Lexes sc.scan (sc.enter s) k (.record r) s') :
    sc.parser.Halts ⟨session h n, .empty, ⟨s, calls⟩⟩ x ↔
      sc.parser.Halts ⟨session h (n + (r.length + 4)), .empty, ⟨s', calls ++ [.record r]⟩⟩ x := by
  obtain ⟨q, rule, haction, hconsistent, harity, hgoto, hsemantics⟩ := message_tables (S := S) hk
  refine (halts_lex_shift (p := sc.parser) (q := q) (session_reads n).1 (session_reads n).2
    (lexes_with_calls hlex calls) haction rfl).trans ?_
  refine (halts_default [(q, .record r)] (session h n) hconsistent harity.symm (hsemantics _ _)).trans ?_
  rw [show goto (top (session h n)) rule = 17 from hgoto]
  exact halts_default [(17, .size (r.length + 4)), (3, .size n)] [(1, .handshake h)] rfl rfl rfl

theorem halts_messages (calls : List Call) (hms : ∀ m ∈ ms, m.1.isMessage = true) {last : Token × Value} (n : UInt32)
    (hy : Yields sc.enter sc.scan s (ms.map (fun m => (m.1, .record m.2)) ++ [last]) s') :
    ∃ n' s₁, Lexes sc.scan (sc.enter s₁) last.1 last.2 s' ∧
      (sc.parser.Halts ⟨session h n, .empty, ⟨s, calls⟩⟩ x ↔
        sc.parser.Halts ⟨session h n', .empty, ⟨s₁, calls ++ ms.map fun m => .record m.2⟩⟩ x) := by
  induction ms generalizing s n calls with
  | nil =>
    cases hy with
    | cons hlex hrest =>
      cases hrest
      exact ⟨n, s, hlex, by simp⟩
  | cons m ms ih =>
    cases hy with
    | cons hlex hrest =>
      obtain ⟨n', s₁, hlast, hiff⟩ := ih _ (fun m' hm' => hms m' (List.mem_cons_of_mem m hm')) _ hrest
      refine ⟨n', s₁, hlast, (halts_message (hms m List.mem_cons_self) hlex).trans ?_⟩
      rw [hiff, List.map_cons, List.append_assoc]
      rfl

theorem halts_end {n : UInt32} (hlex : Lexes sc.scan (sc.enter s) .end_ v s') :
    sc.parser.Halts ⟨session h n, .empty, ⟨s, calls⟩⟩ x ↔
      x = .returned .accepted ⟨s', calls ++ [.handshake h]⟩ := by
  refine (halts_lex (p := sc.parser) (session_reads n).1 (session_reads n).2
    (lexes_with_calls hlex calls)).trans ?_
  refine (halts_reduce (session h n) [] (session_reads n).1
    (Or.inr ⟨rfl, _, _, rfl, rfl⟩) rfl rfl rfl).trans ?_
  exact (halts_shift (q := 4) (by simp [top, Scanner.parser, goto]) rfl rfl rfl).trans (halts_final rfl)

theorem halts_endOfFragment {n : UInt32} (hlex : Lexes sc.scan (sc.enter s) .endOfFragment v s') :
    sc.parser.Halts ⟨session h n, .empty, ⟨s, calls⟩⟩ x ↔ x = .returned .accepted ⟨s', calls⟩ := by
  refine (halts_lex_shift (p := sc.parser) (q := 16) (session_reads n).1 (session_reads n).2
    (lexes_with_calls hlex calls) rfl rfl).trans ?_
  exact halts_reduce_accept [(16, v)] (session h n) (by simp [top, Scanner.parser]) (Or.inl rfl) rfl rfl

/-- The calls that a token stream leads to. -/
def streamCalls (h : HandShake) (ms : List (Token × Record)) (last : Token) : List Call :=
  ms.map (fun m => .record m.2) ++ (if last = .end_ then [.handshake h] else [])

theorem halts_stream (hms : ∀ m ∈ ms, m.1.isMessage = true) {last : Token × Value}
    (hlast : last.1 = .end_ ∨ last.1 = .endOfFragment)
    (hy : Yields sc.enter sc.scan s (stream h ms last) s') :
    sc.parser.Halts (Parser.start ⟨s, []⟩) x ↔
      x = .returned .accepted ⟨s', streamCalls h ms last.1⟩ := by
  unfold stream at hy
  cases hy with
  | cons hlex hrest =>
    obtain ⟨n', s₁, hend, hiff⟩ := halts_messages (h := h) (x := x) [] hms 0 hrest
    refine (halts_handshake hlex).trans (hiff.trans ?_)
    obtain ⟨k, v⟩ := last
    unfold streamCalls
    rcases hlast with rfl | rfl
    · exact halts_end hend
    · rw [if_neg (by simp), List.append_nil]
      exact halts_endOfFragment hend

theorem parses_stream (hms : ∀ m ∈ ms, m.1.isMessage = true) {last : Token × Value}
    (hlast : last.1 = .end_ ∨ last.1 = .endOfFragment)
    (hy : Yields sc.enter sc.scan s (stream h ms last) s') (code : Code) (d : Driver S) :
    sc.Parses s code d ↔ code = .accepted ∧ d = ⟨s', streamCalls h ms last.1⟩ := by
  unfold Scanner.Parses
  rw [halts_stream hms hlast hy]
  refine ⟨fun h => ?_, fun h => ?_⟩
  · exact Result.returned.inj h
  · rw [h.1, h.2]

theorem delivers_iff_calls (hms : ∀ m ∈ ms, m.1.isMessage = true) {last : Token × Value}
    (hlast : last.1 = .end_ ∨ last.1 = .endOfFragment)
    (hy : Yields sc.enter sc.scan s (stream h ms last) s') :
    sc.Delivers s h ms ↔
      streamCalls h ms last.1 = Call.handshake h :: ms.map fun m => Call.record m.2 := by
  refine ⟨fun hd => ?_, fun hcalls => ?_⟩
  · obtain ⟨code, d, hparse, hcalls⟩ := hd
    obtain ⟨-, rfl⟩ := (parses_stream hms hlast hy code d).1 hparse
    exact hcalls
  · exact ⟨_, _, (parses_stream hms hlast hy _ _).2 ⟨rfl, rfl⟩, hcalls⟩

/-- The handshake is reported first exactly when no message follows it and the input ends with
the token for that. -/
theorem delivers_iff_no_message (hms : ∀ m ∈ ms, m.1.isMessage = true) {last : Token × Value}
    (hlast : last.1 = .end_ ∨ last.1 = .endOfFragment)
    (hy : Yields sc.enter sc.scan s (stream h ms last) s') :
    sc.Delivers s h ms ↔ ms = [] ∧ last.1 = .end_ := by
  rw [delivers_iff_calls hms hlast hy]
  unfold streamCalls
  cases ms with
  | nil =>
    rcases hlast with hend | hend <;> simp [hend]
  | cons m ms => simp

def zeroHandshake : HandShake :=
  { infoHash := List.replicate 20 0, peerId := List.replicate 20 0 }

theorem zeroHandshake_valid : zeroHandshake.Valid := ⟨rfl, rfl, rfl⟩

theorem handshake_alone_delivered : (fragmentScanner .little).Delivers
    { buffer := handshakeFrame zeroHandshake } zeroHandshake.doubled [] := by
  obtain ⟨last, s, hy, hlast⟩ := yields_fragment (e := .little) zeroHandshake_valid [] (by simp)
  rw [List.flatMap_nil, List.append_nil] at hy
  have hend := (hlast.keepAlive (by simp)).1
  exact (delivers_iff_no_message (isMessage_reached []) (Or.inl hend) hy).2 ⟨rfl, hend⟩

/-- With a single keep-alive behind it, the handshake is reported last. -/
theorem keepAlive_delivered_first :
    ¬ ∀ (e : Endian) (b : List UInt8) (s' : State) (h : HandShake) (ms : List (Token × Record))
      (last : Token × Value), (∀ m ∈ ms, m.1.isMessage = true) →
      (last.1 = .end_ ∨ last.1 = .endOfFragment) →
      Yields (fragmentScanner e).enter (fragmentScanner e).scan { buffer := b } (stream h ms last) s' →
      (fragmentScanner e).Delivers { buffer := b } h ms := by
  intro hall
  obtain ⟨last, s, hy, hlast⟩ := yields_fragment (e := .little) zeroHandshake_valid [.keepAlive]
    (by simp [Message.Valid, Message.body])
  have hend := (hlast.keepAlive (by simp)).1
  have hd := hall _ _ _ _ _ _ (isMessage_reached _) (Or.inl hend) hy
  rw [delivers_iff_calls (isMessage_reached _) (Or.inl hend) hy, hend] at hd
  exact absurd hd (by decide)

end ACENetwork.BitTorrent.Peer
