import Mathlib.Data.String.Basic

/-!
The bytes of characters. A character of ASCII is one byte, and every byte of another one is beyond ASCII.
A test that does not tell characters beyond ASCII apart therefore holds of a byte, shown as a character,
if it holds of the character that the byte belongs to. What such a test cuts off bytes are the bytes of
what it cuts off characters.
-/

namespace LoxLang.Bytewise

variable {α : Type}

/-- The bytes of characters. -/
def octets (cs : List Char) : List UInt8 :=
  cs.flatMap String.utf8EncodeChar

/-- What does not tell characters beyond ASCII apart. -/
def Plain (f : Char → α) : Prop :=
  ∀ c d : Char, 128 ≤ c.toNat → 128 ≤ d.toNat → f c = f d

theorem octets_append (cs ds : List Char) : octets (cs ++ ds) = octets cs ++ octets ds :=
  List.flatMap_append

theorem octets_cons (c : Char) (cs : List Char) :
    octets (c :: cs) = String.utf8EncodeChar c ++ octets cs :=
  List.flatMap_cons

theorem length_octets (cs : List Char) : (octets cs).length = String.utf8Len cs := by
  induction cs with
  | nil => rfl
  | cons c cs ih =>
      rw [octets_cons, List.length_append, ih, String.length_utf8EncodeChar, String.utf8Len_cons,
        Nat.add_comm]

theorem length_le_utf8Len (cs : List Char) : cs.length ≤ String.utf8Len cs := by
  induction cs with
  | nil => exact Nat.zero_le _
  | cons c cs ih => exact Nat.add_le_add ih c.utf8Size_pos

theorem isEmpty_octets (cs : List Char) : (octets cs).isEmpty = cs.isEmpty := by
  cases cs with
  | nil => rfl
  | cons c cs =>
      have hbytes : octets (c :: cs) ≠ [] := by
        rw [octets_cons]
        exact List.append_ne_nil_of_left_ne_nil String.utf8EncodeChar_ne_nil _
      simpa using hbytes

theorem bytes_ofList (cs : List Char) : (String.ofList cs).toByteArray.data.toList = octets cs := by
  rw [String.toByteArray_ofList, List.utf8Encode, List.data_toByteArray]
  rfl

/-- A character of ASCII is the byte of its value. -/
theorem encode_ascii {c : Char} (hc : c.toNat < 128) :
    ∃ b, String.utf8EncodeChar c = [b] ∧ Char.ofUInt8 b = c := by
  have hbyte : (UInt8.ofNat c.toNat).toNat = c.toNat :=
    UInt8.toNat_ofNat_of_lt' (Nat.lt_trans hc (by decide))
  refine ⟨UInt8.ofNat c.toNat, if_pos (Nat.le_of_lt_succ hc), ?_⟩
  exact Char.toNat_inj.mp hbyte

theorem utf8Size_ascii {c : Char} (hc : c.toNat < 128) : c.utf8Size = 1 := by
  obtain ⟨b, hencode, -⟩ := encode_ascii hc
  rw [← String.length_utf8EncodeChar, hencode, List.length_singleton]

/-- The bytes of a character beyond ASCII are beyond ASCII. -/
theorem encode_beyond {c : Char} (hc : 128 ≤ c.toNat) {b : UInt8}
    (hb : b ∈ String.utf8EncodeChar c) : 128 ≤ (Char.ofUInt8 b).toNat := by
  change 128 ≤ b.toNat
  have hbyte : ∀ n, 128 ≤ n → n < 256 → b = UInt8.ofNat n → 128 ≤ b.toNat := by
    rintro n hlow hhigh rfl
    rwa [UInt8.toNat_ofNat_of_lt' hhigh]
  have hcode : c.val.toNat = c.toNat := rfl
  have hascii : ¬c.toNat ≤ 127 := by omega
  simp only [String.utf8EncodeChar, hcode, if_neg hascii] at hb
  split at hb
  · rcases List.mem_pair.mp hb with h | h <;> exact hbyte _ (by omega) (by omega) h
  split at hb
  · simp only [List.mem_cons, List.not_mem_nil, or_false] at hb
    rcases hb with h | h | h <;> exact hbyte _ (by omega) (by omega) h
  · simp only [List.mem_cons, List.not_mem_nil, or_false] at hb
    rcases hb with h | h | h | h <;> exact hbyte _ (by omega) (by omega) h

namespace Plain

variable {f : Char → α}

theorem byte (h : Plain f) {c : Char} {b : UInt8} (hb : b ∈ String.utf8EncodeChar c) :
    f (Char.ofUInt8 b) = f c := by
  by_cases hc : c.toNat < 128
  · obtain ⟨b', hencode, hshown⟩ := encode_ascii hc
    rw [hencode, List.mem_singleton] at hb
    rw [hb, hshown]
  · rw [not_lt] at hc
    exact h _ _ (encode_beyond hc hb) hc

theorem head?_octets (h : Plain f) (cs : List Char) :
    (octets cs).head?.map (f ∘ Char.ofUInt8) = cs.head?.map f := by
  cases cs with
  | nil => rfl
  | cons c cs =>
      obtain ⟨b, bs, hencode⟩ := List.exists_cons_of_ne_nil (String.utf8EncodeChar_ne_nil (c := c))
      have hb := h.byte (hencode ▸ List.mem_cons_self : b ∈ String.utf8EncodeChar c)
      simp [octets_cons, hencode, hb]

/-- A test cuts off bytes where it cuts off characters. -/
theorem span_octets {p : Char → Bool} (h : Plain p) (cs : List Char) :
    (octets cs).takeWhile (p ∘ Char.ofUInt8) = octets (cs.takeWhile p) ∧
      (octets cs).dropWhile (p ∘ Char.ofUInt8) = octets (cs.dropWhile p) := by
  induction cs with
  | nil => exact ⟨rfl, rfl⟩
  | cons c cs ih =>
      by_cases hc : p c
      · have hbytes : ∀ b ∈ String.utf8EncodeChar c, (p ∘ Char.ofUInt8) b :=
          fun b hb => (h.byte hb).trans hc
        simp [octets_cons, hc, List.takeWhile_append_of_pos hbytes,
          List.dropWhile_append_of_pos hbytes, ih]
      · obtain ⟨b, bs, hencode⟩ :=
          List.exists_cons_of_ne_nil (String.utf8EncodeChar_ne_nil (c := c))
        have hb : ¬(p ∘ Char.ofUInt8) b := fun hp =>
          hc ((h.byte (hencode ▸ List.mem_cons_self)).symm.trans hp)
        simp only [List.takeWhile_cons_of_neg hc, List.dropWhile_cons_of_neg hc]
        rw [octets_cons, hencode, List.cons_append, List.takeWhile_cons_of_neg hb,
          List.dropWhile_cons_of_neg hb]
        exact ⟨rfl, rfl⟩

/-- What is counted among bytes that are never beyond ASCII is counted among characters. -/
theorem countP_octets {p : Char → Bool} (h : Plain p) (hascii : ∀ c, 128 ≤ c.toNat → p c = false)
    (cs : List Char) : (octets cs).countP (p ∘ Char.ofUInt8) = cs.countP p := by
  induction cs with
  | nil => rfl
  | cons c cs ih =>
      rw [octets_cons, List.countP_append, ih, List.countP_cons, Nat.add_comm]
      congr 1
      by_cases hc : c.toNat < 128
      · obtain ⟨b, hencode, hshown⟩ := encode_ascii hc
        simp [hencode, hshown, List.countP_singleton]
      · have hnone : p c = false := hascii c (by omega)
        have hbytes : ∀ b ∈ String.utf8EncodeChar c, ¬(p ∘ Char.ofUInt8) b := by
          intro b hb
          simp [h.byte hb, hnone]
        rw [List.countP_eq_zero.mpr hbytes, hnone]
        rfl

end Plain

end LoxLang.Bytewise
