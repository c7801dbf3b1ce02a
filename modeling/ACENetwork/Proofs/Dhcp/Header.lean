import Mathlib
import ACENetwork.Proofs.Dhcp.Options

/-! The parser over the fixed fields, up to the magic cookie. A field is either read and
shifted, or the datagram ends in front of it and is refused, or the program ends: in the
middle of the field, or because it is zero and must not be. -/

namespace ACENetwork.Dhcp

open Std ByteOrder Flex Bison Parser

def Start.token : Start → Token
  | .op => .op | .htype => .htype | .hlen => .hlen | .hops => .hops | .xid => .xid | .secs => .secs
  | .flags => .flags | .ciaddr => .ciaddr | .yiaddr => .yiaddr | .siaddr => .siaddr
  | .giaddr => .giaddr | .chaddr => .chaddr | .sname => .sname | .file => .file
  | .cookie => .cookie | _ => .end_

def Start.required : Start → Bool
  | .op | .htype | .hlen | .xid | .cookie => true
  | _ => false

def Start.next : Start → Start
  | .op => .htype | .htype => .hlen | .hlen => .hops | .hops => .xid | .xid => .secs
  | .secs => .flags | .flags => .ciaddr | .ciaddr => .yiaddr | .yiaddr => .siaddr
  | .siaddr => .giaddr | .giaddr => .chaddr | .chaddr => .sname | .sname => .file
  | .file => .cookie | .cookie => .optionTag | c => c

def Start.state : Start → ℕ
  | .op => 0 | .htype => 1 | .hlen => 4 | .hops => 7 | .xid => 11 | .secs => 14 | .flags => 15
  | .ciaddr => 16 | .yiaddr => 17 | .siaddr => 18 | .giaddr => 19 | .chaddr => 20 | .sname => 21
  | .file => 22 | .cookie => 3 | _ => 5

/-- The state of the parser that has read the field. -/
def Start.target : Start → ℕ
  | .op => 1 | .htype => 4 | .hlen => 7 | .hops => 11 | .xid => 14 | .secs => 15 | .flags => 16
  | .ciaddr => 17 | .yiaddr => 18 | .siaddr => 19 | .giaddr => 20 | .chaddr => 21 | .sname => 22
  | .file => 23 | .cookie => 6 | _ => 5

def headerStarts : List Start :=
  [.op, .htype, .hlen, .hops, .xid, .secs, .flags, .ciaddr, .yiaddr, .siaddr, .giaddr, .chaddr,
    .sname, .file]

def Start.value (e : Endian) (c : Start) (b : List UInt8) : Value :=
  match c with
  | .chaddr => .aval (toOctets chaddrSize b)
  | .sname | .file => .sval (cString b)
  | _ => .ival (field e b)

def Start.isField (c : Start) : Prop := c ∈ headerStarts ∨ c = .cookie

instance (c : Start) : Decidable c.isField := inferInstanceAs (Decidable (_ ∨ _))

theorem Start.isField_tables {c : Start} (h : c.isField) :
    c.state ≠ 5 ∧ consistent c.state = none ∧ action c.state c.token = .shift c.target ∧
      action c.state .end_ = .error := by
  cases c <;> first | exact absurd h (by decide) | simp [Start.state, Start.token, Start.target, consistent, action]

variable {e : Endian} {x : Parsed} {record : Record} {b : List UInt8}

def Start.Missing (e : Endian) (c : Start) (b : List UInt8) : Prop :=
  c.required = true ∧ field e b = 0

instance (c : Start) : Decidable (c.Missing e b) := inferInstanceAs (Decidable (_ ∧ _))

theorem act_field {c : Start} (h : c.isField) (hb : b.length = c.octets) (s : State) :
    act e c b s = if c.Missing e b then .fault (.zero c.token)
      else .token c.token (c.value e b) { s with start := c.next, fragment := s.fragment.drop b.length } := by
  cases c <;> first
    | exact absurd h (by decide)
    | simp_all [act, number, text, Start.Missing, Start.required, Start.value, Start.next, Start.token,
        Start.octets, field, toOctets_eq, chaddrSize, snameSize, fileSize]

theorem missing_iff {c : Start} (hlen : b.length ≤ 4) :
    c.Missing e b ↔ ¬ (c.required = true → ∃ a ∈ b, a ≠ 0) := by
  have hfield : field e b = 0 ↔ ∀ a ∈ b, a = 0 := by
    have hlt : load e b < 2 ^ 32 :=
      calc load e b < 256 ^ b.length := load_lt e b
        _ ≤ 256 ^ 4 := Nat.pow_le_pow_right (by norm_num) hlen
        _ = 2 ^ 32 := by norm_num
    rw [← load_eq_zero e, field, ← UInt32.toNat_inj, UInt32.toNat_ofNat', Nat.mod_eq_of_lt hlt]
    rfl
  rw [Start.Missing, hfield]
  push Not
  rfl

theorem Start.required_short {c : Start} (h : c.required = true) : c.octets ≤ 4 := by
  cases c <;> revert h <;> decide

/-- One field: refused in front of it, a failure in the middle of it or because it is zero,
and shifted otherwise. -/
theorem ends_field {c : Start} (record : Record) (h : c.isField) {stack : List (ℕ × Value)} (htop : top stack = c.state)
    (hroom : stack.length + 2 < maxDepth) :
    Ends e ⟨stack, .empty, ⟨c, b, b, record⟩⟩ x ↔
      if b = [] then x = .returned false record
      else if b.length < c.octets then x = .fault .invalidCharacter
      else if c.Missing e (b.take c.octets) then x = .fault (.zero c.token)
      else Ends e ⟨(c.target, c.value e (b.take c.octets)) :: stack, .empty,
        ⟨c.next, b.drop c.octets, b.drop c.octets, record⟩⟩ x := by
  obtain ⟨hf, hc, hshift, herror⟩ := Start.isField_tables h
  rw [← htop] at hf hc hshift herror
  by_cases hb : b = []
  · rw [if_pos hb]
    refine (ends_read hf hc (scan_nil hb)).trans ?_
    exact ends_stop fun _ => halts_error hf hc herror
  rw [if_neg hb]
  by_cases hlen : b.length < c.octets
  · rw [if_pos hlen]
    exact ends_read_fault hf hc (scan_short hb hlen)
  rw [if_neg hlen]
  have htake : (b.take c.octets).length = c.octets := by
    rw [List.length_take]
    omega
  have hscan := scan_match (e := e) (s := ⟨c, b, b, record⟩) (by simpa using hlen)
  rw [act_field h htake] at hscan
  by_cases hm : c.Missing e (b.take c.octets)
  · rw [if_pos hm] at hscan ⊢
    exact ends_read_fault hf hc hscan
  · rw [if_neg hm] at hscan ⊢
    rw [htake] at hscan
    refine (ends_read hf hc hscan).trans ?_
    exact ends_congr fun _ => halts_shift hf hc hshift (full_false (by simpa using hroom))

/-- The fields are those that the scanner and the parser expect one after the other. -/
def Linked : Start → ℕ → List Start → Prop
  | _, _, [] => True
  | c, q, c' :: cs => c' = c ∧ c.isField ∧ q = c.state ∧ Linked c.next c.target cs

def finish : Start → List Start → Start
  | c, [] => c
  | c, _ :: cs => finish c.next cs

def pushed (e : Endian) : List Start → List (List UInt8) → List (ℕ × Value) → List (ℕ × Value)
  | c :: cs, f :: fs, stack => pushed e cs fs ((c.target, c.value e f) :: stack)
  | _, _, stack => stack

def Start.spec (c : Start) : ℕ × Bool := (c.octets, c.required)

/-- A run of fields is shifted if they are all there, refused if the datagram ends between
two of them, and fails otherwise, but not on the magic cookie. -/
theorem ends_fields (cs : List Start) {c : Start} (stack : List (ℕ × Value)) (record : Record)
    (b : List UInt8) (h : Linked c (top stack) cs) (hroom : stack.length + cs.length + 1 < maxDepth) :
    (FieldsPresent (cs.map Start.spec) b ∧ ∀ x,
      Ends e ⟨stack, .empty, ⟨c, b, b, record⟩⟩ x ↔
      Ends e ⟨pushed e cs (split (cs.map Start.octets) b) stack, .empty,
        ⟨finish c cs, b.drop (cs.map Start.octets).sum, b.drop (cs.map Start.octets).sum, record⟩⟩ x) ∨
    (¬ FieldsPresent (cs.map Start.spec) b ∧ FieldsSafe (fun _ => False) (cs.map Start.spec) b ∧ ∀ x,
      Ends e ⟨stack, .empty, ⟨c, b, b, record⟩⟩ x ↔ x = .returned false record) ∨
    (¬ FieldsPresent (cs.map Start.spec) b ∧ ¬ FieldsSafe (fun _ => False) (cs.map Start.spec) b ∧
      ∃ f, f ≠ .magicCookie ∧ ∀ x,
      Ends e ⟨stack, .empty, ⟨c, b, b, record⟩⟩ x ↔ x = .fault f) := by
  induction cs generalizing c stack b with
  | nil => exact Or.inl ⟨trivial, fun x => by simp [pushed, finish]⟩
  | cons c' cs ih =>
    obtain ⟨rfl, hfield, htop, hnext⟩ := h
    rw [List.length_cons] at hroom
    have hone := fun x => ends_field (e := e) (x := x) (b := b) record hfield htop (by omega)
    simp only [List.map_cons, Start.spec, FieldsPresent, FieldsSafe]
    by_cases hb : b = []
    · have hpos := c'.octets_pos
      refine Or.inr (Or.inl ⟨?_, Or.inl hb, fun x => ?_⟩)
      · rintro ⟨hlen, -⟩
        rw [hb, List.length_nil] at hlen
        omega
      · rw [hone, if_pos hb]
    by_cases hlen : b.length < c'.octets
    · refine Or.inr (Or.inr ⟨fun hp => by omega, ?_, .invalidCharacter, by simp, fun x => ?_⟩)
      · rintro (hb' | ⟨hle, -⟩)
        · exact hb hb'
        · omega
      · rw [hone, if_neg hb, if_pos hlen]
    have hmissing : c'.Missing e (b.take c'.octets) ↔
        ¬ (c'.required = true → ∃ a ∈ b.take c'.octets, a ≠ 0) := by
      by_cases hr : c'.required = true
      · refine missing_iff ?_
        rw [List.length_take]
        have := Start.required_short hr
        omega
      · simp [Start.Missing, hr]
    by_cases hm : c'.Missing e (b.take c'.octets)
    · have hreq := hmissing.1 hm
      refine Or.inr (Or.inr ⟨fun hp => hreq hp.2.1, ?_, .zero c'.token, by simp, fun x => ?_⟩)
      · rintro (hb' | ⟨-, hr, -⟩)
        · exact hb hb'
        · exact hreq hr
      · rw [hone, if_neg hb, if_neg hlen, if_pos hm]
    · have hreq := not_not.1 (mt hmissing.2 hm)
      have hle : c'.octets ≤ b.length := by omega
      have hgo : ∀ x, Ends e ⟨stack, .empty, ⟨c', b, b, record⟩⟩ x ↔
          Ends e ⟨(c'.target, c'.value e (b.take c'.octets)) :: stack, .empty,
            ⟨c'.next, b.drop c'.octets, b.drop c'.octets, record⟩⟩ x := by
        intro x
        rw [hone, if_neg hb, if_neg hlen, if_neg hm]
      obtain ⟨hp, hx⟩ | ⟨hp, hs, hx⟩ | ⟨hp, hs, f, hf, hx⟩ :=
        ih ((c'.target, c'.value e (b.take c'.octets)) :: stack) (b.drop c'.octets) hnext
          (by rw [List.length_cons]; omega)
      · refine Or.inl ⟨⟨hle, hreq, hp⟩, fun x => ?_⟩
        rw [hgo, hx, List.drop_drop]
        simp only [List.sum_cons, split, pushed, finish]
      · exact Or.inr (Or.inl ⟨fun h => hp h.2.2, Or.inr ⟨hle, hreq, hs⟩, fun x => by rw [hgo, hx]⟩)
      · refine Or.inr (Or.inr ⟨fun h => hp h.2.2, ?_, f, hf, fun x => by rw [hgo, hx]⟩)
        rintro (hb' | ⟨-, -, hs'⟩)
        · exact hb hb'
        · exact hs hs'

theorem ends_start : Ends e (Parser.start ⟨.initial, b, b, record⟩) x ↔
    Ends e ⟨[], .empty, ⟨.op, b, b, record⟩⟩ x := by
  cases b with
  | nil =>
    have hinit : ∀ start : Start, Ends e ⟨[], .empty, ⟨start, [], [], record⟩⟩ x ↔
        x = .returned false record := fun start =>
      (ends_read (by simp [top]) rfl (scan_nil rfl)).trans
        (ends_stop fun _ => halts_error (by simp [top, parser]) rfl rfl)
    exact (hinit .initial).trans (hinit .op).symm
  | cons a b =>
    have hf : top ([] : List (ℕ × Value)) ≠ 5 := by simp [top]
    refine (ends_enter hf rfl).trans ((ends_more hf rfl scan_initial).trans ?_)
    exact (ends_more hf rfl scan_header).trans (ends_enter hf rfl).symm

theorem linked_headerStarts : Linked .op 0 headerStarts := by
  simp [Linked, headerStarts, Start.isField, Start.next, Start.target, Start.state]

theorem layout_eq : layout = headerStarts.map Start.spec ++ [(4, true)] := rfl

/-- The fourteen fields in front of the cookie are reduced to the header, and stored. -/
theorem ends_header (b : List UInt8) {s : State} : ∃ v : UInt32,
    ∀ x, Ends e ⟨pushed e headerStarts (split headerWidths b) [], .empty, s⟩ x ↔
      Ends e ⟨[(3, .ival v)], .empty,
        { s with record := headerRecord e s.record (split headerWidths b) }⟩ x := by
  have hv : ∃ v : UInt32, (parser e).semantics .header
      ((pushed e headerStarts (split headerWidths b) []).map Prod.snd).reverse s =
        .value (.ival v) { s with record := headerRecord e s.record (split headerWidths b) } :=
    ⟨_, rfl⟩
  obtain ⟨v, hv⟩ := hv
  refine ⟨v, fun x => ends_congr fun r => ?_⟩
  have htop : top (pushed e headerStarts (split headerWidths b) [] ++ []) = 23 := rfl
  rw [← List.append_nil (pushed e headerStarts (split headerWidths b) [])]
  refine halts_reduce _ _ ?_ (Or.inl ?_) rfl hv (full_false (by simp [maxDepth]))
  · rw [htop]
    simp [parser]
  · rw [htop]
    rfl

end ACENetwork.Dhcp
