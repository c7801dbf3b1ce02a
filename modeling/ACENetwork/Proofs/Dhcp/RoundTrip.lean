import Mathlib
import ACENetwork.Proofs.Dhcp.Datagram

/-! A record that is written to the wire and read back. The streamer exchanges the octets of
every number on a little-endian host, and the parser those of the transaction identifier only,
so a record comes back as it was when its other numbers read the same both ways. -/

namespace ACENetwork.Dhcp

open Std ByteOrder

def encodeOption (o : UInt8 × List UInt8) : List UInt8 := o.1 :: UInt8.ofNat o.2.length :: o.2

def encodeOptions (options : List (UInt8 × List UInt8)) : List UInt8 :=
  (options.map encodeOption).flatten

theorem encodeOptions_cons (o : UInt8 × List UInt8) (options : List (UInt8 × List UInt8)) :
    encodeOptions (o :: options) = encodeOption o ++ encodeOptions options := by
  simp [encodeOptions]

theorem length_encodeOptions (options : List (UInt8 × List UInt8)) :
    (encodeOptions options).length = (options.map fun o => 2 + o.2.length).sum := by
  simp only [encodeOptions, List.length_flatten, List.map_map]
  congr 2
  funext o
  simp only [Function.comp_apply, encodeOption, List.length_cons]
  omega

/-- The records that fit the message, and whose mandatory fields are set. -/
structure Representable (r : Record) : Prop where
  op : r.op ≠ 0
  htype : r.htype ≠ 0
  hlen : r.hlen ≠ 0
  xid : r.xid ≠ 0
  sname : r.sname.length ≤ snameSize ∧ 0 ∉ r.sname
  file : r.file.length ≤ fileSize ∧ 0 ∉ r.file
  codes : ∀ o ∈ r.options.toList, o.1 ≠ optionTagPad ∧ o.1 ≠ optionTagEnd
  sizes : ∀ o ∈ r.options.toList, o.2.length ≤ 255
  area : 4 + (r.options.toList.map fun o => 2 + o.2.length).sum + 1 ≤ optionsSize

namespace Streamer

def padded (n : ℕ) (b : List UInt8) : List UInt8 := b ++ List.replicate (n - b.length) 0

theorem length_padded {n : ℕ} {b : List UInt8} (h : b.length ≤ n) : (padded n b).length = n := by
  rw [padded, List.length_append, List.length_replicate]
  omega

theorem copyTo_padded (n : ℕ) (pre src : List UInt8) (h : pre.length + src.length ≤ n) :
    copyTo (padded n pre) pre.length src = .ok (padded n (pre ++ src)) := by
  rw [copyTo, padded, memcpy_append h, padded]

theorem copyOptions_padded {n : ℕ} (options : List (UInt8 × List UInt8)) (pre : List UInt8)
    (hsize : ∀ o ∈ options, o.2.length ≤ 255)
    (h : pre.length + (encodeOptions options).length ≤ n) :
    copyOptions options (padded n pre) pre.length =
      .ok (padded n (pre ++ encodeOptions options), (pre ++ encodeOptions options).length) := by
  induction options generalizing pre with
  | nil => simp [copyOptions, encodeOptions]
  | cons o options ih =>
    obtain ⟨tag, value⟩ := o
    have hv : ¬ 255 < value.length := by
      have : value.length ≤ 255 := hsize _ List.mem_cons_self
      omega
    rw [encodeOptions_cons, List.length_append] at h
    have hlen : (encodeOption (tag, value)).length = value.length + 2 := by simp [encodeOption]
    have h1 := copyTo_padded n pre [tag]
      (by simp only [List.length_singleton]; omega)
    have h2 := copyTo_padded n (pre ++ [tag]) [UInt8.ofNat value.length]
      (by simp only [List.length_append, List.length_singleton]; omega)
    have h3 := copyTo_padded n (pre ++ [tag] ++ [UInt8.ofNat value.length]) value
      (by simp only [List.length_append, List.length_singleton]; omega)
    have h4 := ih (pre ++ encodeOption (tag, value)) (fun o ho => hsize o (List.mem_cons_of_mem _ ho))
      (by rw [List.length_append]; omega)
    have hpre : pre ++ [tag] ++ [UInt8.ofNat value.length] ++ value = pre ++ encodeOption (tag, value) := by
      simp [encodeOption]
    simp only [List.length_append, List.length_singleton] at h2 h3
    rw [hpre] at h3
    rw [List.length_append, hlen] at h4
    rw [encodeOptions_cons, ← List.append_assoc]
    simp only [copyOptions, h1, h2, h3, if_neg hv, bind, Except.bind]
    rw [show pre.length + 1 + 1 + value.length = pre.length + (value.length + 2) by omega]
    simpa using h4

/-- The octets of the option area, the zeros behind the END tag included. -/
def area (r : Record) : List UInt8 :=
  padded optionsSize (store32 .big magicCookie ++ encodeOptions r.options.toList ++ [optionTagEnd])

theorem optionArea_eq (e : Endian) {r : Record} (h : Representable r) : optionArea e r = .ok (area r) := by
  have hsize := h.area
  rw [← length_encodeOptions] at hsize
  have h1 := copyTo_padded optionsSize [] (store32 .big magicCookie)
    (by simp [optionsSize])
  have h2 := copyOptions_padded (n := optionsSize) r.options.toList (store32 .big magicCookie) h.sizes
    (by simp; omega)
  have h3 := copyTo_padded optionsSize
    (store32 .big magicCookie ++ encodeOptions r.options.toList) [optionTagEnd]
    (by simp; omega)
  have hzero : List.replicate optionsSize (0 : UInt8) = padded optionsSize [] := by simp [padded]
  rw [store32_length] at h2
  rw [optionArea, store32_swapLong, hzero]
  simp only [List.nil_append, List.length_nil] at h1
  simp only [bind, Except.bind, h1, h2, h3, area]

theorem length_area {r : Record} (h : Representable r) : (area r).length = optionsSize := by
  have hsize := h.area
  rw [← length_encodeOptions] at hsize
  refine length_padded ?_
  simp only [List.length_append, store32_length, List.length_singleton]
  omega

/-- The fields of a message, as they stand on the wire. -/
def header (r : Record) : List (List UInt8) :=
  [[r.op], [r.htype], [r.hlen], [r.hops], store32 .big r.xid, store16 .big r.secs,
    store16 .big r.flags, store32 .big r.ciaddr, store32 .big r.yiaddr, store32 .big r.siaddr,
    store32 .big r.giaddr, r.chaddr.1, padded snameSize r.sname, padded fileSize r.file]

theorem fields_eq (e : Endian) {r : Record} (h : Representable r) :
    fields e r = (header r ++ [area r]).map Except.ok := by
  have hs := copyTo_padded snameSize [] r.sname (by simpa using h.sname.1)
  have hf := copyTo_padded fileSize [] r.file (by simpa using h.file.1)
  simp only [List.length_nil, List.nil_append] at hs hf
  simp only [padded, List.nil_append, List.length_nil, Nat.sub_zero] at hs hf
  simp [fields, header, store32_swapLong, store16_swapWord, optionArea_eq e h, hs, hf, padded]

theorem header_lengths {r : Record} (h : Representable r) : (header r).map List.length = headerWidths := by
  have hs : (padded snameSize r.sname).length = 64 := length_padded h.sname.1
  have hf : (padded fileSize r.file).length = 128 := length_padded h.file.1
  simp [header, headerWidths, hs, hf, r.chaddr.2, chaddrSize]

theorem copyFields_ok (fs : List (List UInt8)) (m : MessageBlock)
    (h : m.content.length + fs.flatten.length ≤ m.capacity) :
    ∃ m', copyFields (fs.map Except.ok) m = .ok m' ∧ m'.content = m.content ++ fs.flatten := by
  induction fs generalizing m with
  | nil => exact ⟨m, rfl, by simp⟩
  | cons f fs ih =>
    rw [List.flatten_cons, List.length_append] at h
    obtain ⟨m₁, hcopy, hcap, hcontent⟩ := MessageBlock.copy_eq_some m f (by
      rw [MessageBlock.space]
      omega)
    obtain ⟨m', hm', hc'⟩ := ih m₁ (by
      rw [hcap, hcontent, List.length_append]
      omega)
    refine ⟨m', ?_, ?_⟩
    · rw [List.map_cons, copyFields, hcopy]
      exact hm'
    · rw [hc', hcontent, List.flatten_cons, List.append_assoc]

def wire (r : Record) : List UInt8 := (header r).flatten ++ area r

theorem length_wire {r : Record} (h : Representable r) : (wire r).length = 548 := by
  rw [wire, List.length_append, List.length_flatten, header_lengths h, length_area h]
  rfl

theorem handleDataMessage_eq (e : Endian) {r : Record} (h : Representable r) {m : MessageBlock}
    (hm : m.length = 0) (hcap : messageSize ≤ m.capacity) :
    ∃ m', handleDataMessage e r m = .ok m' ∧ m'.content = wire r := by
  have hempty : m.content = [] := List.length_eq_zero_iff.1 hm
  have hflat : (header r ++ [area r]).flatten = wire r := by simp [wire]
  obtain ⟨m', hm', hc⟩ := copyFields_ok (header r ++ [area r]) m (by
    rw [hflat, length_wire h, hempty, List.length_nil]
    have : 548 ≤ messageSize := by decide
    omega)
  refine ⟨m', ?_, by rw [hc, hflat, hempty, List.nil_append]⟩
  rw [handleDataMessage, if_neg (by omega), if_neg (by omega), fields_eq e h]
  exact hm'

end Streamer

open Streamer

theorem fieldsPresent_flatten {specs : List (ℕ × Bool)} {fs : List (List UInt8)} (b : List UInt8)
    (h : List.Forall₂ (fun spec f => f.length = spec.1 ∧ (spec.2 = true → ∃ a ∈ f, a ≠ 0)) specs fs) :
    FieldsPresent specs (fs.flatten ++ b) := by
  induction h with
  | nil => trivial
  | @cons spec f specs fs hf _ ih =>
    obtain ⟨hlen, hne⟩ := hf
    refine ⟨?_, ?_, ?_⟩
    · rw [List.flatten_cons, List.append_assoc, List.length_append]
      omega
    · rw [List.flatten_cons, List.append_assoc, ← hlen, List.take_left]
      exact hne
    · rw [List.flatten_cons, List.append_assoc, ← hlen, List.drop_left]
      exact ih

theorem store32_ne_zero {x : UInt32} (h : x ≠ 0) : ∃ a ∈ store32 .big x, a ≠ 0 := by
  by_contra hz
  push Not at hz
  apply h
  rw [← load32_store32 .big x, load32, (load_eq_zero _ _).2 hz]
  rfl

theorem wire_eq (r : Record) :
    wire r = (header r ++ [store32 .big magicCookie]).flatten ++
      (area r).drop 4 := by
  have : area r = store32 .big magicCookie ++ (area r).drop 4 := by
    simp [area, padded]
  rw [wire, List.flatten_append, List.flatten_singleton, List.append_assoc, ← this]

theorem wire_present {r : Record} (h : Representable r) : FieldsPresent layout (wire r) := by
  have hs : (padded snameSize r.sname).length = 64 := length_padded h.sname.1
  have hf : (padded fileSize r.file).length = 128 := length_padded h.file.1
  rw [wire_eq]
  refine fieldsPresent_flatten _ ?_
  simp only [layout, header, List.cons_append, List.nil_append, List.forall₂_cons, hs, hf]
  simp [h.op, h.htype, h.hlen, r.chaddr.2, chaddrSize, store32_ne_zero h.xid,
    store32_ne_zero (x := magicCookie) (by decide)]

theorem wire_split {r : Record} (h : Representable r) : split headerWidths (wire r) = header r := by
  rw [← header_lengths h]
  exact split_flatten _ _

theorem drop_wire {r : Record} (h : Representable r) : (wire r).drop 236 = area r := by
  have hlen : (header r).flatten.length = 236 := by
    rw [List.length_flatten, header_lengths h]
    rfl
  rw [wire, ← hlen, List.drop_left]

theorem walk_encodeOptions (options : List (UInt8 × List UInt8)) (b : List UInt8) (k : ℕ)
    (hcodes : ∀ o ∈ options, o.1 ≠ optionTagPad ∧ o.1 ≠ optionTagEnd)
    (hsizes : ∀ o ∈ options, o.2.length ≤ 255) (hroom : k + options.length + 4 < maxDepth) :
    walk k (encodeOptions options ++ optionTagEnd :: b) = (.endTag, options) := by
  induction options generalizing k with
  | nil => exact walk_endTag (by simp at hroom; omega)
  | cons o options ih =>
    obtain ⟨tag, value⟩ := o
    rw [List.length_cons] at hroom
    obtain ⟨hpad, hend⟩ := hcodes _ List.mem_cons_self
    have hv : value.length ≤ 255 := hsizes _ List.mem_cons_self
    have hsize : (UInt8.ofNat value.length).toNat = value.length := by
      rw [UInt8.toNat_ofNat', Nat.mod_eq_of_lt (by omega)]
    have hrest := ih (k + 1) (fun o ho => hcodes o (List.mem_cons_of_mem _ ho))
      (fun o ho => hsizes o (List.mem_cons_of_mem _ ho)) (by omega)
    have heq : encodeOptions ((tag, value) :: options) ++ optionTagEnd :: b =
        tag :: UInt8.ofNat value.length :: (value ++ (encodeOptions options ++ optionTagEnd :: b)) := by
      simp [encodeOptions_cons, encodeOption]
    have hfits : ¬ (value ++ (encodeOptions options ++ optionTagEnd :: b)).length <
        (UInt8.ofNat value.length).toNat := by
      rw [hsize, List.length_append]
      omega
    rw [heq, walk_value (by omega) hend hpad, if_neg hfits, if_neg (by omega), hsize, List.take_left,
      List.drop_left, hrest]

theorem storeOptions_toList (m : ExtTreeMap UInt8 (List UInt8)) : storeOptions ∅ m.toList = m := by
  apply ExtTreeMap.ext_getElem?
  intro k
  rw [storeOptions_getElem?]
  simp only [ExtTreeMap.getElem?_empty, Option.none_or]
  cases hf : m.toList.find? (fun v => compare v.1 k == .eq) with
  | none =>
    rw [ExtTreeMap.find?_toList_eq_none_iff_not_mem] at hf
    simp [hf]
  | some v =>
    have := ExtTreeMap.find?_toList_eq_some_iff_getKey?_eq_some_and_getElem?_eq_some.1 hf
    rw [this.2]
    rfl

/-- The record that the parser makes of the message of `r`. -/
def received (r : Record) : Record :=
  { r with
    secs := swap16 r.secs
    flags := swap16 r.flags
    ciaddr := swap32 r.ciaddr
    yiaddr := swap32 r.yiaddr
    siaddr := swap32 r.siaddr
    giaddr := swap32 r.giaddr
    cookie := 0 }

theorem field_store32 (x : UInt32) : field .little (store32 .big x) = swap32 x := by
  rw [← store32_swap32]
  exact load32_store32 .little (swap32 x)

theorem field_toUInt16 (e : Endian) (b : List UInt8) : (field e b).toUInt16 = load16 e b := by
  apply UInt16.toNat_inj.1
  rw [field, load16, UInt32.toNat_toUInt16, UInt32.toNat_ofNat', UInt16.toNat_ofNat']
  omega

theorem field_store16 (x : UInt16) : (field .little (store16 .big x)).toUInt16 = swap16 x := by
  rw [field_toUInt16, ← store16_swap16, load16_store16]

theorem field_singleton (e : Endian) (a : UInt8) : (field e [a]).toUInt8 = a := by
  rw [field, load_singleton]
  simp

theorem headerRecord_header {r : Record} (h : Representable r) :
    { headerRecord .little {} (header r) with options := r.options } = received r := by
  have hs : cString (padded snameSize r.sname) = r.sname := cString_padded h.sname.2 _
  have hf : cString (padded fileSize r.file) = r.file := cString_padded h.file.2 _
  simp [headerRecord, header, received, field_singleton, field_store32, field_store16, swapLong, hs, hf,
    toOctets_eq r.chaddr.2]

theorem length_le_area (options : List (UInt8 × List UInt8)) :
    options.length ≤ (options.map fun o => 2 + o.2.length).sum := by
  induction options with
  | nil => simp
  | cons o options ih =>
    simp only [List.length_cons, List.map_cons, List.sum_cons]
    omega

theorem optionOctets_wire {r : Record} (h : Representable r) : optionOctets (wire r) =
    encodeOptions r.options.toList ++ optionTagEnd ::
      List.replicate (optionsSize - (4 + (encodeOptions r.options.toList).length + 1)) 0 := by
  have hdrop : (area r).drop 4 = encodeOptions r.options.toList ++ optionTagEnd ::
      List.replicate (optionsSize - (4 + (encodeOptions r.options.toList).length + 1)) 0 := by
    rw [area, padded, List.append_assoc, List.append_assoc, List.drop_left' (by simp)]
    simp [Nat.add_assoc]
  rw [← hdrop, ← drop_wire h, List.drop_drop]
  rfl

theorem parses_wire {r : Record} (h : Representable r) (x : Parsed) :
    Parses .little (wire r) x ↔ x = .returned true (received r) := by
  have hroom : 0 + r.options.toList.length + 4 < maxDepth := by
    have h1 := h.area
    have h2 := length_le_area r.options.toList
    simp only [optionsSize, maxDepth] at *
    omega
  have hwalk := walk_encodeOptions r.options.toList
    (List.replicate (optionsSize - (4 + (encodeOptions r.options.toList).length + 1)) 0) 0
    h.codes h.sizes hroom
  have hoptions : (headerRecord .little {} (header r)).options = ∅ := rfl
  rw [parses_present (wire_present h), presentParsed, optionOctets_wire h, hwalk, wire_split h,
    optionsParsed, hoptions, storeOptions_toList, headerRecord_header h]
  rfl

/-- The records agree, but for the magic cookie, which the streamer does not take from the record. -/
def Agrees (a r : Record) : Prop := { a with cookie := r.cookie } = r

/-- Writing the record and parsing what was written gives the record back. -/
def RoundTrips (r : Record) (m : MessageBlock) : Prop :=
  ∃ m' record, handleDataMessage .little r m = .ok m' ∧ m'.length = 548 ∧
    Parses .little m'.content (.returned true record) ∧ Agrees record r

/-- The numbers that only one side exchanges read the same in both orders. -/
def Symmetric (r : Record) : Prop :=
  swap16 r.secs = r.secs ∧ swap16 r.flags = r.flags ∧ swap32 r.ciaddr = r.ciaddr ∧
    swap32 r.yiaddr = r.yiaddr ∧ swap32 r.siaddr = r.siaddr ∧ swap32 r.giaddr = r.giaddr

instance (r : Record) : Decidable (Symmetric r) := inferInstanceAs (Decidable (_ ∧ _))

theorem agrees_received (r : Record) : Agrees (received r) r ↔ Symmetric r := by
  cases r
  simp [Agrees, received, Symmetric]

theorem roundTrips_received {r : Record} (h : Representable r) {m : MessageBlock}
    (hm : m.length = 0) (hcap : messageSize ≤ m.capacity) :
    RoundTrips r m ↔ Agrees (received r) r := by
  obtain ⟨m', hm', hcontent⟩ := handleDataMessage_eq .little h hm hcap
  have hlen : m'.length = 548 := by rw [MessageBlock.length, hcontent, length_wire h]
  refine ⟨fun hw => ?_, fun ha => ?_⟩
  · obtain ⟨m₁, record, hm₁, -, hp, ha⟩ := hw
    obtain rfl : m' = m₁ := Except.ok.inj (hm'.symm.trans hm₁)
    rw [hcontent, parses_wire h] at hp
    obtain ⟨-, rfl⟩ := Parsed.returned.inj hp
    exact ha
  · refine ⟨m', received r, hm', hlen, ?_, ha⟩
    rw [hcontent, parses_wire h]

/-- A record survives the wire exactly when the numbers that the parser leaves as they are
read the same in both orders. -/
theorem roundTrips_iff_symmetric (r : Record) (m : MessageBlock) (h : Representable r)
    (hm : m.length = 0) (hcap : messageSize ≤ m.capacity) : RoundTrips r m ↔ Symmetric r :=
  (roundTrips_received h hm hcap).trans (agrees_received r)

/-- A request for an address that was just begun. -/
def requestRecord : Record :=
  { op := 1, htype := 1, hlen := 6, xid := 0x3903f326, flags := 0x8080
    options := (∅ : ExtTreeMap UInt8 (List UInt8)).insertIfNew 53 [1] }

theorem requestRecord_representable : Representable requestRecord where
  op := by decide
  htype := by decide
  hlen := by decide
  xid := by decide
  sname := by decide
  file := by decide
  codes := by decide
  sizes := by decide
  area := by decide

theorem requestRecord_roundTrips : RoundTrips requestRecord (MessageBlock.allocate 576) :=
  (roundTrips_iff_symmetric requestRecord (MessageBlock.allocate 576)
    requestRecord_representable rfl (by decide)).2 (by decide)

theorem Representable.with_secs {r : Record} (h : Representable r) (secs : UInt16) :
    Representable { r with secs := secs } :=
  ⟨h.op, h.htype, h.hlen, h.xid, h.sname, h.file, h.codes, h.sizes, h.area⟩

/-- The first second of a request is read back as second 256. -/
theorem secs_not_roundTrips : ¬ ∀ (r : Record) (m : MessageBlock), Representable r → m.length = 0 →
    messageSize ≤ m.capacity → RoundTrips r m := by
  intro hall
  have h := requestRecord_representable.with_secs 1
  have hr := hall { requestRecord with secs := 1 } (MessageBlock.allocate 576) h rfl (by decide)
  rw [roundTrips_received h rfl (by decide), agrees_received] at hr
  exact absurd hr.1 (by decide)

end ACENetwork.Dhcp
