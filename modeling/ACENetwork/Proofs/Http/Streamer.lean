import Mathlib
import ACENetwork.Spec.Http.Streamer

/-! The streamer writes what it should unless a method is `HEAD`, a header has a name of the other
kind of message, a form that should be posted is empty, or the reason is not the one of the
status. A message without enough space does not go on at all. -/

namespace ACENetwork.Http.Streamer

open Std

def headerType (name : List UInt8) : HeaderType :=
  if isNamed name .general then .general
  else if isNamed name .request then .request
  else if isNamed name .response then .response
  else .entity

theorem headerNames_disjoint {s t : HeaderType} (h : s ≠ t) :
    ∀ name ∈ headerNames s, name ∉ headerNames t := by
  cases s <;> cases t <;> first | exact absurd rfl h | decide

theorem isNamed_of_mem {s : HeaderType} {name : List UInt8} (h : name ∈ headerNames s)
    (t : HeaderType) : isNamed name t = decide (s = t) := by
  by_cases ht : s = t
  · subst ht
    simpa [isNamed] using h
  · simpa [isNamed, ht] using headerNames_disjoint ht name h

theorem headerType_of_mem {t : HeaderType} {name : List UInt8} (h : name ∈ headerNames t) :
    headerType name = t := by
  simp only [headerType, isNamed_of_mem h]
  cases t <;> rfl

theorem mem_headerNames {t : HeaderType} (ht : t ≠ .entity) {name : List UInt8} :
    name ∈ headerNames t ↔ headerType name = t := by
  refine ⟨headerType_of_mem, fun h => ?_⟩
  unfold headerType at h
  split_ifs at h with h₁ h₂ h₃
  · exact h ▸ of_decide_eq_true h₁
  · exact h ▸ of_decide_eq_true h₂
  · exact h ▸ of_decide_eq_true h₃
  · exact absurd h.symm ht

theorem isHeaderType_eq (name : List UInt8) (t : HeaderType) :
    isHeaderType name t = decide (headerType name = t) := by
  by_cases hknown : ∃ s, name ∈ headerNames s
  · obtain ⟨s, hs⟩ := hknown
    rw [headerType_of_mem hs]
    cases t with
    | entity =>
      simp only [isHeaderType, isNamed_of_mem hs]
      cases s <;> rfl
    | _ => exact isNamed_of_mem hs _
  · have hnamed : ∀ u, isNamed name u = false := by
      intro u
      apply decide_eq_false
      exact fun hu => hknown ⟨u, hu⟩
    have hentity : headerType name = .entity := by
      simp only [headerType, hnamed, Bool.false_eq_true, if_false]
    rw [hentity]
    cases t <;> simp [isHeaderType, hnamed]

/-- The kind of header that no pass of a message writes. -/
def otherType (r : FormRecord) : HeaderType := if isRequest r then .response else .request

def ownType (r : FormRecord) : HeaderType := if isRequest r then .request else .response

theorem types (r : FormRecord) :
    ownType r = .request ∧ otherType r = .response ∨ ownType r = .response ∧ otherType r = .request := by
  unfold ownType otherType
  cases isRequest r with
  | true => exact .inl ⟨rfl, rfl⟩
  | false => exact .inr ⟨rfl, rfl⟩

/-- The lines of the headers that are written, in their order. -/
def passes (r : FormRecord) (headers : Headers) : List UInt8 :=
  headerLines headers .general ++ headerLines headers (ownType r) ++ headerLines headers .entity

theorem filter_append_filter_perm {α : Type*} (l : List α) {p q : α → Bool}
    (h : ∀ a, p a = true → q a = false) :
    (l.filter p ++ l.filter q).Perm (l.filter fun a => p a || q a) := by
  induction l with
  | nil => exact List.Perm.refl _
  | cons a l ih =>
    cases hp : p a with
    | true => simpa [List.filter_cons, hp, h a hp] using ih
    | false =>
      cases hq : q a with
      | true => simpa [List.filter_cons, hp, hq] using List.perm_middle.trans (ih.cons a)
      | false => simpa [List.filter_cons, hp, hq] using ih

def sent (r : FormRecord) (headers : Headers) : List (List UInt8 × List UInt8) :=
  headers.toList.filter fun entry => !isNamed entry.1 (otherType r)

/-- Together, the passes write every header that is not of the other kind, and no header twice. -/
theorem passes_eq (r : FormRecord) (headers : Headers) :
    ∃ entries : List (List UInt8 × List UInt8), entries.Perm (sent r headers) ∧
      passes r headers = entries.flatMap headerLine := by
  have hkind : ∀ s t : HeaderType, s ≠ t → ∀ entry : List UInt8 × List UInt8,
      isHeaderType entry.1 s = true → isHeaderType entry.1 t = false := by
    intro s t hst entry hs
    rw [isHeaderType_eq] at hs ⊢
    exact decide_eq_false fun ht => hst ((of_decide_eq_true hs).symm.trans ht)
  have hown : HeaderType.general ≠ ownType r ∧ ownType r ≠ .entity := by
    rcases types r with ⟨hown, -⟩ | ⟨hown, -⟩ <;> rw [hown] <;> decide
  refine ⟨_, ?_, by rw [passes, headerLines, headerLines, headerLines, ← List.flatMap_append,
    ← List.flatMap_append]⟩
  refine ((filter_append_filter_perm _ (hkind _ _ hown.1)).append_right _).trans ?_
  refine (filter_append_filter_perm _ ?_).trans ?_
  · intro entry h
    rw [Bool.or_eq_true] at h
    rcases h with h | h
    · exact hkind _ _ (by decide) entry h
    · exact hkind _ _ hown.2 entry h
  · apply List.Perm.of_eq
    apply List.filter_congr
    intro entry _
    have hnot : otherType r ≠ .entity := by
      rcases types r with ⟨-, hother⟩ | ⟨-, hother⟩ <;> rw [hother] <;> decide
    simp only [isHeaderType_eq, isNamed, mem_headerNames hnot]
    rcases types r with ⟨hown, hother⟩ | ⟨hown, hother⟩ <;> rw [hown, hother] <;>
      cases headerType entry.1 <;> rfl

theorem headerLine_length_pos (entry : List UInt8 × List UInt8) : 0 < (headerLine entry).length := by
  simp only [headerLine, crlf, List.length_append, List.length_cons]
  omega

/-- The lines are fewer octets when a header is missing among them. -/
theorem filter_flatMap_length (l : List (List UInt8 × List UInt8)) (p : List UInt8 × List UInt8 → Bool) :
    ((l.filter p).flatMap headerLine).length ≤ (l.flatMap headerLine).length ∧
      (((l.filter p).flatMap headerLine).length = (l.flatMap headerLine).length →
        ∀ entry ∈ l, p entry = true) := by
  induction l with
  | nil => exact ⟨Nat.le_refl _, fun _ entry h => absurd h List.not_mem_nil⟩
  | cons a l ih =>
    obtain ⟨hle, hall⟩ := ih
    have hpos := headerLine_length_pos a
    cases hp : p a with
    | true =>
      simp only [List.filter_cons, hp, if_true, List.flatMap_cons, List.length_append]
      refine ⟨by omega, fun heq => ?_⟩
      intro entry hentry
      rcases List.mem_cons.1 hentry with rfl | hentry
      · exact hp
      · exact hall (by omega) entry hentry
    | false =>
      simp only [List.filter_cons, hp, Bool.false_eq_true, if_false, List.flatMap_cons,
        List.length_append]
      exact ⟨by omega, fun heq => by omega⟩

/-- Without the last mark, the marks stand between the entries. -/
theorem dropLast_flatMap_pair (a : List UInt8 × List UInt8) (l : List (List UInt8 × List UInt8)) :
    ((a :: l).flatMap fun entry => pair entry ++ ascii "&").dropLast =
      List.intercalate (ascii "&") ((a :: l).map pair) := by
  induction l generalizing a with
  | nil =>
    rw [List.flatMap_cons, List.flatMap_nil, List.append_nil, List.map_cons, List.map_nil,
      List.intercalate_singleton]
    exact List.dropLast_concat
  | cons b l ih =>
    have hne : ((b :: l).flatMap fun entry => pair entry ++ ascii "&") ≠ [] := by
      simp [List.flatMap_cons, ascii]
    rw [List.flatMap_cons, List.dropLast_append_of_ne_nil hne, ih b]
    exact List.intercalate_cons_cons.symm

theorem pairs_of_isEmpty {form : Form} (h : form.isEmpty = true) : pairs form = [] := by
  have hl : form.toList = [] := by
    rw [← List.isEmpty_iff, TreeMap.isEmpty_toList, h]
  rw [pairs, hl, List.flatMap_nil]

theorem pairs_of_not_isEmpty {form : Form} (h : form.isEmpty = false) :
    pairs form ≠ [] ∧ (pairs form).dropLast = formText form := by
  rw [← TreeMap.isEmpty_toList] at h
  rw [pairs, formText]
  cases hl : form.toList with
  | nil =>
    rw [hl] at h
    exact absurd h (by decide)
  | cons a l =>
    refine ⟨?_, dropLast_flatMap_pair a l⟩
    simp [List.flatMap_cons, ascii]

theorem compare_key (headers : Headers) (name : List UInt8) :
    compareNames ((headers.getKey? name).getD name) name = .eq := by
  have hself := TreeMap.compare_getKey?_self (t := headers) (k := name)
  cases h : headers.getKey? name with
  | none => exact ReflCmp.compare_self
  | some key =>
    rw [h] at hself
    exact of_decide_eq_true hself

theorem compare_key_eq (headers : Headers) (name other : List UInt8) :
    compareNames ((headers.getKey? name).getD name) other = compareNames name other :=
  TransCmp.congr_left (compare_key headers name)

theorem getElem?_putHeader (headers : Headers) (name value other : List UInt8) :
    (putHeader headers name value)[other]? =
      if compareNames name other = .eq then some value else headers[other]? := by
  rw [putHeader, TreeMap.getElem?_insert, compare_key_eq]

theorem mem_putHeader {headers : Headers} {name value : List UInt8} {entry : List UInt8 × List UInt8}
    (h : compareNames name entry.1 ≠ .eq) :
    entry ∈ (putHeader headers name value).toList ↔ entry ∈ headers.toList := by
  obtain ⟨other, v⟩ := entry
  rw [TreeMap.mem_toList_iff_getKey?_eq_some_and_getElem?_eq_some,
    TreeMap.mem_toList_iff_getKey?_eq_some_and_getElem?_eq_some, getElem?_putHeader, if_neg h,
    putHeader, TreeMap.getKey?_insert, compare_key_eq, if_neg h]

theorem forall_putHeader {headers : Headers} {name value : List UInt8} {names : List (List UInt8)}
    (h : ∀ other ∈ names, compareNames name other ≠ .eq) :
    (∀ entry ∈ (putHeader headers name value).toList, entry.1 ∉ names) ↔
      ∀ entry ∈ headers.toList, entry.1 ∉ names := by
  constructor
  · intro hall entry hentry hname
    exact hall entry ((mem_putHeader (h _ hname)).2 hentry) hname
  · intro hall entry hentry hname
    exact hall entry ((mem_putHeader (h _ hname)).1 hentry) hname

/-- The first line as it is: the version is missing for `HEAD`, and the status gives the reason. -/
def line (r : FormRecord) : List UInt8 :=
  match r.method with
  | .head => methodToString .head ++ ascii " " ++ r.uri
  | .invalid =>
    List.intercalate (ascii " ") [versionText r.version, decimal r.status, statusToReason r.status]
  | _ => List.intercalate (ascii " ") [methodToString r.method, target r, versionText r.version]

def headersOf (r : FormRecord) : Headers :=
  if r.method = .post then
    putHeader (putHeader r.headers headerContentLength (decimal (body r).length)) headerContentType
      mimeTypeWwwUrlEncoding
  else r.headers

def text (r : FormRecord) : List UInt8 :=
  line r ++ crlf ++ passes r (headersOf r) ++ crlf ++ body r

def size (r : FormRecord) : ℕ :=
  (line r).length + ((sent r (headersOf r)).map fun entry => entry.1.length + entry.2.length + 4).sum +
    (body r).length + 4

theorem length_text (r : FormRecord) : (text r).length = size r := by
  obtain ⟨entries, hperm, hpasses⟩ := passes_eq r (headersOf r)
  have hline : ∀ entry : List UInt8 × List UInt8,
      (headerLine entry).length = entry.1.length + entry.2.length + 4 := by
    intro entry
    simp only [headerLine, crlf, ascii, List.length_append, List.length_map]
    change entry.1.length + 2 + entry.2.length + 2 = _
    omega
  have hlength : (passes r (headersOf r)).length =
      ((sent r (headersOf r)).map fun entry => entry.1.length + entry.2.length + 4).sum := by
    rw [hpasses, List.length_flatMap, ← (hperm.map _).sum_eq]
    simp only [hline]
  simp only [text, size, List.length_append, hlength, crlf, List.length_cons, List.length_nil]
  omega

theorem startLine_eq {r : FormRecord} (h : r.method = .post → r.form.isEmpty = false) :
    startLine r = some (line r, headersOf r, body r) := by
  cases hm : r.method with
  | get =>
    cases hform : r.form.isEmpty with
    | true =>
      simp [startLine, line, headersOf, body, target, hm, hform, pairs_of_isEmpty hform,
        List.intercalate_cons_cons]
    | false =>
      obtain ⟨hne, hlast⟩ := pairs_of_not_isEmpty hform
      simp [startLine, line, headersOf, body, target, hm, hform, eraseLast, hne, ← hlast,
        List.dropLast_append_of_ne_nil hne, List.intercalate_cons_cons]
  | post =>
    obtain ⟨hne, hlast⟩ := pairs_of_not_isEmpty (h hm)
    simp [startLine, line, headersOf, body, target, hm, eraseLast, hne, hlast,
      List.intercalate_cons_cons]
  | head => simp [startLine, line, headersOf, body, hm]
  | invalid => simp [startLine, line, headersOf, body, hm, List.intercalate_cons_cons]

theorem startLine_empty {r : FormRecord} (hm : r.method = .post) (h : r.form.isEmpty = true) :
    startLine r = none := by
  simp [startLine, hm, eraseLast, pairs_of_isEmpty h]

theorem write_of_lt {m : MessageBlock} {bytes : List UInt8} (h : m.space < bytes.length) :
    write m bytes = none := if_pos h

theorem write_of_le {m : MessageBlock} {bytes : List UInt8} (h : bytes.length ≤ m.space) :
    ∃ m', write m bytes = some m' ∧ m'.space = m.space - bytes.length ∧
      m'.content = m.content ++ bytes := by
  obtain ⟨m', hcopy, hcapacity, hcontent⟩ := MessageBlock.copy_eq_some m bytes h
  refine ⟨m', ?_, ?_, hcontent⟩
  · rw [write, if_neg (by omega), hcopy]
  · rw [MessageBlock.space, MessageBlock.space, hcapacity, hcontent, List.length_append]
    omega

theorem insert_eq {m : MessageBlock} (record : FormRecord) (buffer content : List UInt8) :
    (m.space < buffer.length + content.length → insert record m buffer content = .released) ∧
      (buffer.length + content.length ≤ m.space → ∃ m', insert record m buffer content =
        .passed record m' ∧ m'.content = m.content ++ (buffer ++ content)) := by
  by_cases hroom : m.space < buffer.length
  · rw [insert, write_of_lt hroom]
    exact ⟨fun _ => rfl, fun hle => by omega⟩
  obtain ⟨m₁, hm₁, hspace, hcontent₁⟩ := write_of_le (Nat.not_lt.1 hroom)
  rw [insert, hm₁]
  by_cases hnil : content = []
  · simp only [hnil, if_true, List.length_nil, Nat.add_zero, List.append_nil]
    exact ⟨fun hlt => absurd hlt hroom, fun _ => ⟨m₁, rfl, hcontent₁⟩⟩
  simp only [if_neg hnil]
  by_cases hroom₁ : m₁.space < content.length
  · rw [write_of_lt hroom₁]
    exact ⟨fun _ => rfl, fun hle => by omega⟩
  · obtain ⟨m₂, hm₂, -, hcontent₂⟩ := write_of_le (Nat.not_lt.1 hroom₁)
    rw [hm₂]
    refine ⟨fun hlt => by omega, fun _ => ⟨m₂, rfl, ?_⟩⟩
    rw [hcontent₂, hcontent₁, List.append_assoc]

theorem handleDataMessage_eq {r : FormRecord} {m : MessageBlock} (hm : m.length = 0)
    (h : r.method = .post → r.form.isEmpty = false) :
    (m.space < size r → handleDataMessage r m = .released) ∧
      (size r ≤ m.space → ∃ m', handleDataMessage r m = .passed { r with headers := headersOf r } m' ∧
        m'.content = text r) := by
  have hcontent : m.content = [] := List.length_eq_zero_iff.1 hm
  have hrun : handleDataMessage r m = insert { r with headers := headersOf r } m
      (line r ++ crlf ++ passes r (headersOf r) ++ crlf) (body r) := by
    rw [handleDataMessage, if_neg (not_not.2 hm), startLine_eq h, passes]
    simp only [List.append_assoc]
    rfl
  have hinsert := insert_eq (m := m) { r with headers := headersOf r }
    (line r ++ crlf ++ passes r (headersOf r) ++ crlf) (body r)
  rwa [← hrun, ← List.length_append, ← text, length_text, hcontent, List.nil_append] at hinsert

structure Complete (r : FormRecord) : Prop where
  headers : ∀ entry ∈ r.headers.toList, entry.1 ∉ headerNames (otherType r)
  method : r.method ≠ .head
  form : r.method = .post → r.form.isEmpty = false
  reason : r.method = .invalid → statusToReason r.status = r.reason

theorem forall_headersOf (r : FormRecord) :
    (∀ entry ∈ (headersOf r).toList, entry.1 ∉ headerNames (otherType r)) ↔
      ∀ entry ∈ r.headers.toList, entry.1 ∉ headerNames (otherType r) := by
  unfold headersOf
  split_ifs with hm
  · have hother : otherType r = .response := by simp [otherType, isRequest, hm]
    rw [hother, forall_putHeader (by decide), forall_putHeader (by decide)]
  · exact Iff.rfl

theorem line_eq {r : FormRecord} (hm : r.method ≠ .head)
    (hreason : r.method = .invalid → statusToReason r.status = r.reason) :
    line r = List.intercalate (ascii " ") (fields r) := by
  cases h : r.method with
  | get => simp [line, fields, isRequest, h]
  | post => simp [line, fields, isRequest, h]
  | head => exact absurd h hm
  | invalid => simp [line, fields, isRequest, h, hreason h]

theorem cr_notMem_statusToReason (status : ℕ) : 13 ∉ statusToReason status := by
  unfold statusToReason
  split <;> decide

/-- A text without CR in front of a line end is the one that is read there, unless more is behind
it than there should be. -/
theorem eq_of_append_crlf {p q a b : List UInt8} (hp : 13 ∉ p) (hlength : a.length ≤ b.length)
    (h : p ++ (crlf ++ a) = q ++ (crlf ++ b)) : p = q := by
  rcases List.append_eq_append_iff.1 h with ⟨c, hc, hrest⟩ | ⟨c, hc, hrest⟩
  · have hlen := congrArg List.length hrest
    simp only [List.length_append] at hlen
    have hnil : c = [] := List.length_eq_zero_iff.1 (by omega)
    rw [hc, hnil, List.append_nil]
  · cases c with
    | nil => rw [hc, List.append_nil]
    | cons x c =>
      have hx : 13 = x := (List.cons.inj hrest).1
      rw [hc, ← hx] at hp
      exact absurd (List.mem_append_right _ List.mem_cons_self) hp

theorem written_of_complete {r : FormRecord} (h : Complete r) :
    Written r { r with headers := headersOf r } (text r) where
  text := by
    obtain ⟨entries, hperm, hpasses⟩ := passes_eq r (headersOf r)
    refine ⟨entries, hperm.trans (List.Perm.of_eq ?_), ?_⟩
    · apply List.filter_eq_self.2
      intro entry hentry
      rw [isNamed, decide_eq_false ((forall_headersOf r).2 h.headers entry hentry), Bool.not_false]
    · rw [text, line_eq h.method h.reason, hpasses]
  record := rfl
  unchanged := fun hm => if_neg hm
  others := by
    intro entry hlength htype
    change entry ∈ (headersOf r).toList ↔ _
    unfold headersOf
    split_ifs
    · rw [mem_putHeader htype, mem_putHeader hlength]
    · exact Iff.rfl
  contentLength := by
    intro hm
    change (headersOf r)[headerContentLength]? = _
    rw [headersOf, if_pos hm, getElem?_putHeader, if_neg (by decide), getElem?_putHeader,
      if_pos (by decide)]

theorem complete_of_written {r : FormRecord} (hform : r.method = .post → r.form.isEmpty = false)
    (h : Written r { r with headers := headersOf r } (text r)) : Complete r := by
  obtain ⟨entries, hperm, htext⟩ := h.text
  obtain ⟨written, hwritten, hpasses⟩ := passes_eq r (headersOf r)
  obtain ⟨hle, hall⟩ := filter_flatMap_length (headersOf r).toList
    fun entry => !isNamed entry.1 (otherType r)
  have hlines : (passes r (headersOf r)).length =
      ((sent r (headersOf r)).flatMap headerLine).length := by
    rw [hpasses, (hwritten.flatMap_right _).length_eq]
  have hentries : (entries.flatMap headerLine).length =
      ((headersOf r).toList.flatMap headerLine).length := (hperm.flatMap_right _).length_eq
  rw [← sent, ← hlines, ← hentries] at hle
  have hlength := congrArg List.length htext
  simp only [text, List.length_append] at hlength
  have hmethod : r.method ≠ .head := by
    intro hm
    -- The version is missing, and the headers don't make up for it.
    have hfields : (List.intercalate (ascii " ") (fields r)).length =
        (line r).length + 1 + (versionText r.version).length := by
      simp [line, fields, isRequest, target, hm, List.intercalate_cons_cons, ascii]
      omega
    omega
  have hreason : r.method = .invalid → statusToReason r.status = r.reason := by
    intro hm
    apply eq_of_append_crlf (cr_notMem_statusToReason _)
      (a := passes r (headersOf r) ++ (crlf ++ body r))
      (b := entries.flatMap headerLine ++ (crlf ++ body r))
    · simp only [List.length_append]
      omega
    · simpa [text, line, fields, isRequest, hm, List.intercalate_cons_cons] using htext
  refine ⟨(forall_headersOf r).1 fun entry hentry => ?_, hmethod, hform, hreason⟩
  rw [line_eq hmethod hreason] at hlength
  have hnot := hall (by rw [← sent, ← hlines, ← hentries]; omega) entry hentry
  exact of_decide_eq_false ((Bool.not_eq_true' _).mp hnot)

/-- A posted form must not be empty even where there is no space. -/
theorem serializes_iff (r : FormRecord) (m : MessageBlock) (h : m.length = 0) :
    Serializes r m ↔
      Complete r ∨ (r.method = .post → r.form.isEmpty = false) ∧ m.space < size r := by
  by_cases hform : r.method = .post → r.form.isEmpty = false
  · obtain ⟨hreleased, hpassed⟩ := handleDataMessage_eq h hform
    by_cases hroom : m.space < size r
    · rw [Serializes, hreleased hroom]
      exact ⟨fun _ => .inr ⟨hform, hroom⟩, fun _ => trivial⟩
    · obtain ⟨m', hm', hcontent⟩ := hpassed (Nat.not_lt.1 hroom)
      rw [Serializes, hm']
      simp only [hcontent]
      constructor
      · exact fun hwritten => .inl (complete_of_written hform hwritten)
      · rintro (hcomplete | ⟨-, hlt⟩)
        · exact written_of_complete hcomplete
        · exact absurd hlt hroom
  · obtain ⟨hm, hempty⟩ := Classical.not_imp.1 hform
    have hundefined : handleDataMessage r m = .undefined := by
      rw [handleDataMessage, if_neg (not_not.2 h), startLine_empty hm (by simpa using hempty)]
    rw [Serializes, hundefined]
    constructor
    · exact False.elim
    · rintro (hcomplete | ⟨hform', -⟩)
      · exact hform hcomplete.form
      · exact hform hform'

def getHost : FormRecord where
  method := .get
  uri := ascii "/"
  version := .v1_1
  headers := (∅ : Headers).insert (ascii "Host") (ascii "a")

theorem getHost_serializes : Serializes getHost (MessageBlock.allocate 64) := by
  apply (serializes_iff getHost (MessageBlock.allocate 64) rfl).2
  exact .inl ⟨by decide, by decide, by decide, by decide⟩

def headRoot : FormRecord where
  method := .head
  uri := ascii "/"
  version := .v1_1

/-- `HEAD /`, without a version. -/
theorem headRoot_not_serializes : ¬ Serializes headRoot (MessageBlock.allocate 64) := by
  have hform : headRoot.method = .post → headRoot.form.isEmpty = false := by decide
  have hroom : size headRoot ≤ (MessageBlock.allocate 64).space := by decide
  obtain ⟨m', hm', hcontent⟩ := (handleDataMessage_eq rfl hform).2 hroom
  rw [Serializes, hm']
  simp only [hcontent]
  exact fun hwritten => (complete_of_written hform hwritten).method rfl

end ACENetwork.Http.Streamer
