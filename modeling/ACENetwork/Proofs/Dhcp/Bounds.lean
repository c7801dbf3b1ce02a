import Mathlib
import ACENetwork.Proofs.Dhcp.RoundTrip

/-! The three buffers in which the streamer puts the strings and the options together. It checks
the length of every option and the message block that it writes to, and no offset into the
buffers. -/

namespace ACENetwork.Dhcp.Streamer

open Std ByteOrder

def optionOctetCount (r : Record) : ℕ := (r.options.toList.map fun o => 2 + o.2.length).sum

/-- No copy of the function goes beyond the end of its buffer: the server name stays within 64
octets, the file name within 128, and every octet of the options and the END tag within 312. -/
def WritesInside (e : Endian) (r : Record) (m : MessageBlock) : Prop :=
  handleDataMessage e r m ≠ .error .overflow

def FitsBuffers (r : Record) : Prop :=
  r.sname.length ≤ snameSize ∧ r.file.length ≤ fileSize ∧ 4 + optionOctetCount r + 1 ≤ optionsSize

instance (r : Record) : Decidable (FitsBuffers r) := inferInstanceAs (Decidable (_ ∧ _))

theorem copyTo_ok {buffer src b : List UInt8} {offset : ℕ} (h : copyTo buffer offset src = .ok b) :
    offset + src.length ≤ buffer.length ∧ b.length = buffer.length := by
  unfold copyTo memcpy at h
  by_cases hfit : offset + src.length ≤ buffer.length
  · rw [if_pos hfit] at h
    obtain rfl := Except.ok.inj h
    refine ⟨hfit, ?_⟩
    simp only [List.length_append, List.length_take, List.length_drop]
    omega
  · rw [if_neg hfit] at h
    cases h

theorem copyTo_overflow (buffer : List UInt8) (offset : ℕ) (src : List UInt8)
    (h : buffer.length < offset + src.length) : copyTo buffer offset src = .error .overflow := by
  rw [copyTo, memcpy, if_neg (by omega)]

theorem copyTo_fits (buffer : List UInt8) (offset : ℕ) (src : List UInt8)
    (h : offset + src.length ≤ buffer.length) : ∃ b, copyTo buffer offset src = .ok b := by
  rw [copyTo, memcpy, if_pos h]
  exact ⟨_, rfl⟩

theorem copyTo_error {buffer src : List UInt8} {offset : ℕ} {f : Fault} :
    copyTo buffer offset src = .error f ↔ f = .overflow ∧ buffer.length < offset + src.length := by
  by_cases h : offset + src.length ≤ buffer.length
  · obtain ⟨b, hb⟩ := copyTo_fits buffer offset src h
    rw [hb]
    simp [h]
  · rw [copyTo_overflow buffer offset src (by omega)]
    constructor
    · intro hf
      cases hf
      exact ⟨rfl, by omega⟩
    · intro hf
      rw [hf.1]

theorem copyOptions_fits (options : List (UInt8 × List UInt8)) (buffer : List UInt8) (offset : ℕ)
    (hsizes : ∀ o ∈ options, o.2.length ≤ 255)
    (h : offset + (options.map fun o => 2 + o.2.length).sum ≤ buffer.length) :
    ∃ b, copyOptions options buffer offset =
      .ok (b, offset + (options.map fun o => 2 + o.2.length).sum) ∧ b.length = buffer.length := by
  induction options generalizing buffer offset with
  | nil => exact ⟨buffer, rfl, rfl⟩
  | cons o options ih =>
    obtain ⟨tag, value⟩ := o
    simp only [List.map_cons, List.sum_cons] at h
    have hv : ¬ 255 < value.length := by
      have : value.length ≤ 255 := hsizes _ List.mem_cons_self
      omega
    obtain ⟨b₁, h₁⟩ := copyTo_fits buffer offset [tag]
      (by simp only [List.length_singleton]; omega)
    have hb₁ := (copyTo_ok h₁).2
    obtain ⟨b₂, h₂⟩ := copyTo_fits b₁ (offset + 1) [UInt8.ofNat value.length]
      (by simp only [List.length_singleton]; omega)
    have hb₂ := (copyTo_ok h₂).2
    obtain ⟨b₃, h₃⟩ := copyTo_fits b₂ (offset + 1 + 1) value (by omega)
    have hb₃ := (copyTo_ok h₃).2
    obtain ⟨b, hb, hlen⟩ := ih b₃ (offset + 1 + 1 + value.length)
      (fun o ho => hsizes o (List.mem_cons_of_mem _ ho)) (by omega)
    refine ⟨b, ?_, by rw [hlen, hb₃, hb₂, hb₁]⟩
    simp only [copyOptions, h₁, h₂, h₃, if_neg hv, bind, Except.bind]
    rw [hb, List.map_cons, List.sum_cons]
    congr 2
    simp only
    omega

theorem copyOptions_overflow (options : List (UInt8 × List UInt8)) (buffer : List UInt8) (offset : ℕ)
    (hsizes : ∀ o ∈ options, o.2.length ≤ 255) (hoffset : offset ≤ buffer.length)
    (h : buffer.length < offset + (options.map fun o => 2 + o.2.length).sum) :
    copyOptions options buffer offset = .error .overflow := by
  induction options generalizing buffer offset with
  | nil =>
    simp only [List.map_nil, List.sum_nil] at h
    omega
  | cons o options ih =>
    obtain ⟨tag, value⟩ := o
    simp only [List.map_cons, List.sum_cons] at h
    have hv : ¬ 255 < value.length := by
      have : value.length ≤ 255 := hsizes _ List.mem_cons_self
      omega
    rw [copyOptions]
    cases h₁ : copyTo buffer offset [tag] with
    | error f => simp [(copyTo_error.1 h₁).1, bind, Except.bind]
    | ok b₁ =>
      have hb₁ := (copyTo_ok h₁).2
      cases h₂ : copyTo b₁ (offset + 1) [UInt8.ofNat value.length] with
      | error f => simp [(copyTo_error.1 h₂).1, h₂, if_neg hv, bind, Except.bind]
      | ok b₂ =>
        have hb₂ := (copyTo_ok h₂).2
        cases h₃ : copyTo b₂ (offset + 1 + 1) value with
        | error f =>
          simp [(copyTo_error.1 h₃).1, h₂, h₃, if_neg hv, bind, Except.bind]
        | ok b₃ =>
          have hb₃ := copyTo_ok h₃
          -- what was written so far fits, so the options behind it do not
          have hrest := ih b₃ (offset + 1 + 1 + value.length)
            (fun o ho => hsizes o (List.mem_cons_of_mem _ ho)) (by omega) (by omega)
          simp [h₂, h₃, if_neg hv, hrest, bind, Except.bind]

theorem optionArea_fits (e : Endian) {r : Record} (hsizes : ∀ o ∈ r.options.toList, o.2.length ≤ 255)
    (h : 4 + optionOctetCount r + 1 ≤ optionsSize) :
    ∃ b, optionArea e r = .ok b ∧ b.length = optionsSize := by
  obtain ⟨b₁, h₁⟩ := copyTo_fits (List.replicate optionsSize 0) 0 (store32 e (swapLong e magicCookie))
    (by rw [store32_length, List.length_replicate]; decide)
  have hb₁ := (copyTo_ok h₁).2
  rw [List.length_replicate] at hb₁
  obtain ⟨b₂, h₂, hb₂⟩ := copyOptions_fits r.options.toList b₁ 4 hsizes (by
    rw [optionOctetCount] at h
    omega)
  obtain ⟨b, hb⟩ := copyTo_fits b₂ (4 + optionOctetCount r) [optionTagEnd]
    (by simp only [List.length_singleton]; omega)
  refine ⟨b, ?_, by rw [(copyTo_ok hb).2]; omega⟩
  rw [optionOctetCount] at hb
  simp only [optionArea, h₁, h₂, bind, Except.bind]
  exact hb

theorem optionArea_overflow (e : Endian) {r : Record} (hsizes : ∀ o ∈ r.options.toList, o.2.length ≤ 255)
    (h : optionsSize < 4 + optionOctetCount r + 1) : optionArea e r = .error .overflow := by
  obtain ⟨b₁, h₁⟩ := copyTo_fits (List.replicate optionsSize 0) 0 (store32 e (swapLong e magicCookie))
    (by rw [store32_length, List.length_replicate]; decide)
  have hb₁ := (copyTo_ok h₁).2
  rw [List.length_replicate] at hb₁
  by_cases hall : 4 + optionOctetCount r ≤ optionsSize
  · -- the options fill the buffer, and the END tag is what does not fit
    obtain ⟨b₂, h₂, hb₂⟩ := copyOptions_fits r.options.toList b₁ 4 hsizes (by
      rw [optionOctetCount] at hall
      omega)
    have h₃ := copyTo_overflow b₂ (4 + optionOctetCount r) [optionTagEnd]
      (by simp only [List.length_singleton]; omega)
    rw [optionOctetCount] at h₃
    simp only [optionArea, h₁, h₂, bind, Except.bind]
    exact h₃
  · have h₂ := copyOptions_overflow r.options.toList b₁ 4 hsizes
      (by rw [hb₁]; decide) (by rw [optionOctetCount] at hall; omega)
    simp only [optionArea, h₁, h₂, bind, Except.bind]

/-- The copies into the message succeed as long as every field has its width, so the function
ends with an overflow exactly when a field does. -/
theorem copyFields_overflow {fs : List (Except Fault (List UInt8))} {widths : List ℕ}
    {m : MessageBlock}
    (h : List.Forall₂ (fun f width => f = .error .overflow ∨ ∃ b, f = .ok b ∧ b.length = width) fs widths)
    (hroom : m.content.length + widths.sum ≤ m.capacity) :
    copyFields fs m = .error .overflow ↔ ∃ f ∈ fs, f = .error .overflow := by
  induction h generalizing m with
  | nil => simp [copyFields]
  | @cons f width fs widths hf _ ih =>
    rw [List.sum_cons] at hroom
    obtain rfl | ⟨b, rfl, hb⟩ := hf
    · exact ⟨fun _ => ⟨_, List.mem_cons_self, rfl⟩, fun _ => rfl⟩
    · obtain ⟨m', hcopy, hcap, hcontent⟩ := MessageBlock.copy_eq_some m b (by
        rw [MessageBlock.space]
        omega)
      have hrest := @ih m' (by
        rw [hcap, hcontent, List.length_append]
        omega)
      simp only [copyFields, hcopy, hrest, List.mem_cons, exists_eq_or_imp, reduceCtorEq, false_or]

def widths : List ℕ := headerWidths ++ [optionsSize]

theorem copyTo_zeros (n : ℕ) (s : List UInt8) :
    copyTo (List.replicate n 0) 0 s = .error .overflow ∨
      ∃ b, copyTo (List.replicate n 0) 0 s = .ok b ∧ b.length = n := by
  cases h : copyTo (List.replicate n 0) 0 s with
  | error f => exact .inl (by rw [(copyTo_error.1 h).1])
  | ok b => exact .inr ⟨b, rfl, by simpa using (copyTo_ok h).2⟩

theorem optionArea_cases (e : Endian) {r : Record} (hsizes : ∀ o ∈ r.options.toList, o.2.length ≤ 255) :
    optionArea e r = .error .overflow ∨ ∃ b, optionArea e r = .ok b ∧ b.length = optionsSize := by
  by_cases h : 4 + optionOctetCount r + 1 ≤ optionsSize
  · exact .inr (optionArea_fits e hsizes h)
  · exact .inl (optionArea_overflow e hsizes (by omega))

theorem fields_widths (e : Endian) {r : Record} (hsizes : ∀ o ∈ r.options.toList, o.2.length ≤ 255) :
    List.Forall₂ (fun f width => f = .error .overflow ∨ ∃ b, f = .ok b ∧ b.length = width)
      (fields e r) widths := by
  have hsname := copyTo_zeros snameSize r.sname
  have hfile := copyTo_zeros fileSize r.file
  have harea := optionArea_cases e hsizes
  unfold fields
  generalize copyTo (List.replicate snameSize 0) 0 r.sname = sname at hsname ⊢
  generalize copyTo (List.replicate fileSize 0) 0 r.file = file at hfile ⊢
  have hchaddr : r.chaddr.1.length = 16 := r.chaddr.2
  simp only [snameSize, fileSize] at hsname hfile
  simp [widths, headerWidths, hsname, hfile, harea, hchaddr]

theorem overflow_mem_fields (e : Endian) {r : Record}
    (hsizes : ∀ o ∈ r.options.toList, o.2.length ≤ 255) :
    (∃ f ∈ fields e r, f = .error .overflow) ↔ ¬ FitsBuffers r := by
  have harea : optionArea e r = .error .overflow ↔ ¬ 4 + optionOctetCount r + 1 ≤ optionsSize := by
    constructor
    · intro h hfits
      obtain ⟨b, hb, -⟩ := optionArea_fits e hsizes hfits
      rw [hb] at h
      cases h
    · intro h
      exact optionArea_overflow e hsizes (by omega)
  have hcopy (n : ℕ) (s : List UInt8) :
      copyTo (List.replicate n 0) 0 s = .error .overflow ↔ ¬ s.length ≤ n := by
    simp [copyTo_error]
  simp only [fields, List.mem_cons, List.not_mem_nil, or_false, exists_eq_or_imp, exists_eq_left,
    reduceCtorEq, false_or, hcopy, harea, FitsBuffers]
  tauto

theorem handleDataMessage_overflow (e : Endian) {r : Record} {m : MessageBlock} (hm : m.length = 0)
    (hcap : messageSize ≤ m.capacity) (hsizes : ∀ o ∈ r.options.toList, o.2.length ≤ 255) :
    handleDataMessage e r m = .error .overflow ↔ ¬ FitsBuffers r := by
  have hempty : m.content.length = 0 := hm
  have hroom : m.content.length + widths.sum ≤ m.capacity := by
    have : widths.sum ≤ messageSize := by decide
    omega
  rw [handleDataMessage, if_neg (by omega), if_neg (by omega),
    copyFields_overflow (fields_widths e hsizes) hroom, overflow_mem_fields e hsizes]

/-- The function stays inside its buffers exactly when the strings and the options of the record
fit them. -/
theorem writesInside_iff_fits (e : Endian) (r : Record) (m : MessageBlock) (hm : m.length = 0)
    (hcap : messageSize ≤ m.capacity) (hsizes : ∀ o ∈ r.options.toList, o.2.length ≤ 255) :
    WritesInside e r m ↔ FitsBuffers r := by
  rw [WritesInside, Ne, handleDataMessage_overflow e hm hcap hsizes, not_not]

theorem requestRecord_writesInside : WritesInside .little requestRecord (MessageBlock.allocate 576) :=
  (writesInside_iff_fits .little requestRecord (MessageBlock.allocate 576) rfl (by decide)
    (by decide)).2 (by decide)

/-- Options of 312 octets, and no room for the cookie in front of them. -/
def crowdedRecord : Record :=
  { requestRecord with
    options := ((∅ : ExtTreeMap UInt8 (List UInt8)).insertIfNew 43 (List.replicate 255 0)).insertIfNew 60
      (List.replicate 53 0) }

theorem crowdedRecord_options : crowdedRecord.options.toList =
    [(43, List.replicate 255 0), (60, List.replicate 53 0)] := rfl

/-- The options of a record may take 312 octets, and the buffer for them holds the cookie and the
END tag as well. -/
theorem crowdedRecord_not_writesInside : ¬ ∀ (e : Endian) (r : Record) (m : MessageBlock), m.length = 0 →
    messageSize ≤ m.capacity → (∀ o ∈ r.options.toList, o.2.length ≤ 255) → WritesInside e r m := by
  intro hall
  have hsizes : ∀ o ∈ crowdedRecord.options.toList, o.2.length ≤ 255 := by
    rw [crowdedRecord_options, List.forall_mem_cons, List.forall_mem_singleton,
      List.length_replicate, List.length_replicate]
    decide
  refine hall .little crowdedRecord (MessageBlock.allocate 576) rfl (by decide) hsizes ?_
  rw [handleDataMessage_overflow .little rfl (by decide) hsizes, FitsBuffers, optionOctetCount,
    crowdedRecord_options]
  simp only [List.map_cons, List.length_replicate]
  decide

end ACENetwork.Dhcp.Streamer
