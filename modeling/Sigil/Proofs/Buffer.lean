import Sigil.Proofs.Bits

namespace Sigil.Buffer

def bits (data : Buffer) : Bits := Bits.ofBytes data.toList

@[simp] theorem length_bits (data : Buffer) : data.bits.length = data.bitSize := by
  simp [bits, Bits.length_ofBytes, bitSize]

theorem bit?_eq_getElem? (data : Buffer) (pos : Nat) : data.bit? pos = data.bits[pos]? := by
  simp [bit?, bits, Bits.getElem?_ofBytes]

theorem drop_eq_cons {data : Buffer} {pos : Nat} {b : Bool} (h : data.bit? pos = some b) :
    data.bits.drop pos = b :: data.bits.drop (pos + 1) := by
  rw [bit?_eq_getElem?] at h
  obtain ⟨hlt, hb⟩ := List.getElem?_eq_some_iff.1 h
  rw [List.drop_eq_getElem_cons hlt, hb]

theorem holdsBits_iff (data : Buffer) (w : Bits) (pos : Nat) :
    data.holdsBits w pos = true ↔ w <+: data.bits.drop pos := by
  induction w generalizing pos with
  | nil => simp [holdsBits]
  | cons b w ih =>
    rw [holdsBits, Bool.and_eq_true, ih, beq_iff_eq]
    constructor
    · rintro ⟨hb, hw⟩
      rw [drop_eq_cons hb]
      exact List.prefix_cons_iff.2 (Or.inr ⟨w, rfl, hw⟩)
    · intro h
      have hb : data.bit? pos = some b := by
        obtain ⟨rest, hrest⟩ := h
        rw [bit?_eq_getElem?, ← Nat.add_zero pos, ← List.getElem?_drop, ← hrest]
        rfl
      rw [drop_eq_cons hb] at h
      exact ⟨hb, (List.cons_prefix_cons.1 h).2⟩

theorem holdsBits_append (data : Buffer) (x y : Bits) (pos : Nat) :
    data.holdsBits (x ++ y) pos = true ↔
      data.holdsBits x pos = true ∧ data.holdsBits y (pos + x.length) = true := by
  induction x generalizing pos with
  | nil => simp [holdsBits]
  | cons b x ih =>
    rw [List.cons_append, holdsBits, holdsBits, Bool.and_eq_true, Bool.and_eq_true, ih, and_assoc,
      List.length_cons, Nat.add_comm x.length, Nat.add_assoc]

theorem le_bitSize_of_holdsBits {data : Buffer} {w : Bits} {pos : Nat} (hw : w ≠ [])
    (h : data.holdsBits w pos = true) : pos + w.length ≤ data.bitSize := by
  have hlen := ((holdsBits_iff data w pos).1 h).length_le
  have hpos := List.length_pos_iff.2 hw
  rw [List.length_drop, length_bits] at hlen
  omega

/-- What the buffer holds within bits that it holds is told from those bits. -/
theorem holdsBits_within {data : Buffer} {bits w : Bits} {base : Nat}
    (h : data.holdsBits bits base = true) {pos : Nat} (hfits : pos + w.length ≤ bits.length) :
    data.holdsBits w (base + pos) = true ↔ w <+: bits.drop pos := by
  obtain ⟨rest, hrest⟩ := (holdsBits_iff data bits base).1 h
  rw [holdsBits_iff, ← List.drop_drop, ← hrest, List.drop_append_of_le_length (by omega)]
  refine ⟨fun hw => List.prefix_of_prefix_length_le hw (List.prefix_append ..) ?_, fun hw =>
    hw.trans (List.prefix_append ..)⟩
  rw [List.length_drop]
  omega

/-! ## Bytes at any offset -/

theorem getElem?_bits (data : Buffer) (i : Nat) :
    data.bits[i]? = data[i / 8]?.map fun b => b.toNat.testBit (7 - i % 8) := by
  simp [bits, Bits.getElem?_ofBytes]

theorem getD_eq {data : Buffer} {i : Nat} (h : i < data.size) :
    data[i]? = some (data.getD i 0) := by
  simp [Array.getD_eq_getD_getElem?, Array.getElem?_eq_getElem h]

theorem exists_byteAt? {data : Buffer} {pos : Nat} (h : pos + 8 ≤ data.bitSize) :
    ∃ b, data.byteAt? pos = some b := by
  unfold byteAt?
  rw [if_pos h]
  exact ⟨_, rfl⟩

/-- Eight bits read across two bytes are bits of the one or of the other. -/
theorem testBit_straddle (h l : UInt8) {r j : Nat} (hr : r < 8) (hj : j < 8) :
    (UInt8.ofNat ((256 * h.toNat + l.toNat) >>> (8 - r))).toNat.testBit j =
      if 8 - r + j < 8 then l.toNat.testBit (8 - r + j) else h.toNat.testBit (j - r) := by
  have hl : l.toNat < 2 ^ 8 := l.toNat_lt
  rw [UInt8.toNat_ofNat', Nat.testBit_mod_two_pow, Nat.testBit_shiftRight,
    show 256 * h.toNat = 2 ^ 8 * h.toNat by norm_num, Nat.testBit_two_pow_mul_add _ hl]
  simp only [hj, decide_true, Bool.true_and]
  split
  · rfl
  · congr 1
    omega

theorem take_drop_eq_ofByte {data : Buffer} {pos : Nat} {b : UInt8}
    (h : data.byteAt? pos = some b) : (data.bits.drop pos).take 8 = Bits.ofByte b := by
  unfold byteAt? at h
  split at h
  case isFalse => simp at h
  case isTrue hpos =>
    simp only [Option.some.injEq] at h
    unfold bitSize at hpos
    apply List.ext_getElem?
    intro i
    rw [Bits.getElem?_ofByte, List.getElem?_take]
    split
    case isFalse => rfl
    case isTrue hi =>
      have hr : pos % 8 < 8 := Nat.mod_lt _ (by omega)
      rw [List.getElem?_drop, getElem?_bits, ← h, testBit_straddle _ _ hr (by omega)]
      -- the bit lies in the byte where the offset does, or in the one after it
      by_cases hlow : pos % 8 + i < 8
      · have hdiv : (pos + i) / 8 = pos / 8 := by omega
        have hmod : 7 - (pos + i) % 8 = 7 - i - pos % 8 := by omega
        rw [if_neg (by omega), hdiv, hmod, getD_eq (by omega)]
        rfl
      · have hdiv : (pos + i) / 8 = pos / 8 + 1 := by omega
        have hmod : 7 - (pos + i) % 8 = 8 - pos % 8 + (7 - i) := by omega
        rw [if_pos (by omega), hdiv, hmod, getD_eq (by omega)]
        rfl

theorem byteAt?_eq_some_iff (data : Buffer) (pos : Nat) (b : UInt8) :
    data.byteAt? pos = some b ↔ data.holdsBits (Bits.ofByte b) pos = true := by
  rw [holdsBits_iff]
  constructor
  · intro h
    rw [← take_drop_eq_ofByte h]
    exact List.take_prefix 8 _
  · intro h
    have hlen := h.length_le
    rw [Bits.length_ofByte, List.length_drop, length_bits] at hlen
    have hfits : pos + 8 ≤ data.bitSize := by omega
    obtain ⟨c, hc⟩ := exists_byteAt? hfits
    have hb := List.prefix_iff_eq_take.1 h
    rw [Bits.length_ofByte, take_drop_eq_ofByte hc] at hb
    rw [hc, Bits.ofByte_injective hb]

theorem facesBytes_iff (data : Buffer) (related : UInt8 → UInt8 → Bool) (expected : List UInt8)
    (pos : Nat) :
    data.facesBytes related expected pos = true ↔
      ∃ bytes, List.Forall₂ (fun e a => related e a = true) expected bytes ∧
        data.holdsBits (Bits.ofBytes bytes) pos = true := by
  induction expected generalizing pos with
  | nil => simp [facesBytes, holdsBits]
  | cons e es ih =>
    rw [facesBytes, Bool.and_eq_true, ih, Option.any_eq_true]
    constructor
    · rintro ⟨⟨b, hb, hrel⟩, bytes, hall, hpre⟩
      refine ⟨b :: bytes, List.Forall₂.cons hrel hall, ?_⟩
      rw [Bits.ofBytes_cons, holdsBits_append, Bits.length_ofByte]
      exact ⟨(byteAt?_eq_some_iff data pos b).1 hb, hpre⟩
    · rintro ⟨bytes, hall, hpre⟩
      obtain _ | ⟨hrel, hall⟩ := hall
      rw [Bits.ofBytes_cons, holdsBits_append, Bits.length_ofByte] at hpre
      exact ⟨⟨_, (byteAt?_eq_some_iff data pos _).2 hpre.1, hrel⟩, _, hall, hpre.2⟩

theorem facesBytes_append (data : Buffer) (related : UInt8 → UInt8 → Bool) (xs ys : List UInt8)
    (pos : Nat) :
    data.facesBytes related (xs ++ ys) pos =
      (data.facesBytes related xs pos && data.facesBytes related ys (pos + 8 * xs.length)) := by
  induction xs generalizing pos with
  | nil => rfl
  | cons x xs ih =>
    have hpos : pos + 8 + 8 * xs.length = pos + 8 * (x :: xs).length := by
      rw [List.length_cons]
      omega
    rw [List.cons_append, facesBytes, facesBytes, ih, hpos, Bool.and_assoc]

/-! ## Bits in a buffer of their own -/

theorem holdsBits_toBytes (bits : Bits) : Buffer.holdsBits bits.toBytes.toArray bits 0 = true := by
  obtain ⟨count, -, hbits⟩ := Bits.exists_padding bits
  rw [holdsBits_iff, Buffer.bits, hbits]
  exact List.prefix_append ..

theorem bitSize_toBytes (bits : Bits) :
    bits.length ≤ Buffer.bitSize bits.toBytes.toArray ∧
      Buffer.bitSize bits.toBytes.toArray < bits.length + 8 := by
  obtain ⟨count, hcount, hbits⟩ := Bits.exists_padding bits
  have hlength := congrArg List.length hbits
  rw [Bits.length_ofBytes, List.length_append, List.length_replicate] at hlength
  rw [bitSize, List.size_toArray]
  omega

/-! ## Parts of a buffer -/

theorem bits_extract (data : Buffer) (start stop : Nat) :
    bits (data.extract start stop) = (data.bits.drop (8 * start)).take (8 * (stop - start)) := by
  rw [bits, bits, ← Bits.ofBytes_drop, ← Bits.ofBytes_take, Array.toList_extract,
    List.extract_eq_take_drop]

/-- A part of a buffer holds what the buffer holds there, as far as the part reaches. -/
theorem holdsBits_extract {data : Buffer} {start stop : Nat} {w : Bits} {pos : Nat}
    (hstop : 8 * start + pos + w.length ≤ 8 * stop) :
    Buffer.holdsBits (data.extract start stop) w pos = data.holdsBits w (8 * start + pos) := by
  rw [Bool.eq_iff_iff, holdsBits_iff, holdsBits_iff, bits_extract, List.drop_take, List.drop_drop,
    List.prefix_take_iff]
  exact and_iff_left (by omega)

end Sigil.Buffer
