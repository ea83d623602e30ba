import Mathlib.Data.Nat.Bitwise
import Mathlib.Data.List.Forall2
import Mathlib.Tactic.Ring
import Sigil.Buffer

namespace Sigil.Bits

theorem getElem?_ofNat (width n i : Nat) :
    (ofNat width n)[i]? = if i < width then some (n.testBit (width - 1 - i)) else none := by
  induction width generalizing i with
  | zero => rfl
  | succ width ih =>
    cases i with
    | zero => simp [ofNat]
    | succ i =>
      have hi : width + 1 - 1 - (i + 1) = width - 1 - i := by omega
      simp only [ofNat, List.getElem?_cons_succ, ih, hi, Nat.add_lt_add_iff_right]

theorem getElem?_ofByte (b : UInt8) (i : Nat) :
    (ofByte b)[i]? = if i < 8 then some (b.toNat.testBit (7 - i)) else none :=
  getElem?_ofNat 8 b.toNat i

theorem ofByte_injective : Function.Injective ofByte := by
  intro a b h
  apply UInt8.toNat_inj.1
  apply Nat.eq_of_testBit_eq
  intro j
  by_cases hj : j < 8
  · have hb := congrArg (fun w : Bits => w[7 - j]?) h
    have hlt : 7 - j < 8 := by omega
    have hsub : 7 - (7 - j) = j := by omega
    simpa only [getElem?_ofByte, if_pos hlt, hsub, Option.some.injEq] using hb
  · have hpow : 2 ^ 8 ≤ 2 ^ j := Nat.pow_le_pow_right (by omega) (by omega)
    rw [Nat.testBit_lt_two_pow (lt_of_lt_of_le a.toNat_lt hpow),
      Nat.testBit_lt_two_pow (lt_of_lt_of_le b.toNat_lt hpow)]

@[simp] theorem ofBytes_nil : ofBytes [] = [] := rfl

@[simp] theorem ofBytes_cons (b : UInt8) (bs : List UInt8) :
    ofBytes (b :: bs) = ofByte b ++ ofBytes bs := rfl

@[simp] theorem ofBytes_append (bs cs : List UInt8) :
    ofBytes (bs ++ cs) = ofBytes bs ++ ofBytes cs := by
  simp [ofBytes]

theorem getElem?_ofBytes (bytes : List UInt8) (i : Nat) :
    (ofBytes bytes)[i]? = bytes[i / 8]?.map fun b => b.toNat.testBit (7 - i % 8) := by
  induction bytes generalizing i with
  | nil => simp
  | cons b bs ih =>
    rw [ofBytes_cons]
    by_cases hi : i < 8
    · have hdiv : i / 8 = 0 := by omega
      have hmod : i % 8 = i := by omega
      rw [List.getElem?_append_left (by simpa using hi), getElem?_ofByte, if_pos hi, hdiv, hmod]
      simp
    · have hdiv : i / 8 = (i - 8) / 8 + 1 := by omega
      have hmod : i % 8 = (i - 8) % 8 := by omega
      rw [List.getElem?_append_right (by simpa using hi), length_ofByte, ih, hdiv, hmod,
        List.getElem?_cons_succ]

theorem ofBytes_take (bytes : List UInt8) (n : Nat) :
    ofBytes (bytes.take n) = (ofBytes bytes).take (8 * n) := by
  induction n generalizing bytes with
  | zero => simp
  | succ n ih =>
    cases bytes with
    | nil => simp
    | cons b bs =>
      have hlen : 8 * (n + 1) = (ofByte b).length + 8 * n := by rw [length_ofByte]; omega
      rw [List.take_succ_cons, ofBytes_cons, ofBytes_cons, ih, hlen, List.take_length_add_append]

theorem ofBytes_drop (bytes : List UInt8) (n : Nat) :
    ofBytes (bytes.drop n) = (ofBytes bytes).drop (8 * n) := by
  induction n generalizing bytes with
  | zero => simp
  | succ n ih =>
    cases bytes with
    | nil => simp
    | cons b bs =>
      have hlen : 8 * (n + 1) = (ofByte b).length + 8 * n := by rw [length_ofByte]; omega
      rw [List.drop_succ_cons, ih, ofBytes_cons, hlen, List.drop_length_add_append]

/-! ## The number that bits spell -/

theorem foldl_toNat (bits : Bits) (start : Nat) :
    bits.foldl (fun n b => 2 * n + b.toNat) start = start * 2 ^ bits.length + toNat bits := by
  induction bits generalizing start with
  | nil => simp [toNat]
  | cons b bits ih =>
    have hcons : toNat (b :: bits) = b.toNat * 2 ^ bits.length + toNat bits := by
      simp only [toNat, List.foldl_cons] at ih ⊢
      rw [ih]
      simp
    rw [List.foldl_cons, ih, hcons, List.length_cons, Nat.pow_succ]
    ring

theorem toNat_append (x y : Bits) : toNat (x ++ y) = toNat x * 2 ^ y.length + toNat y := by
  rw [toNat, List.foldl_append, foldl_toNat]
  rfl

theorem toNat_cons (b : Bool) (bits : Bits) :
    toNat (b :: bits) = b.toNat * 2 ^ bits.length + toNat bits := by
  rw [← List.singleton_append, toNat_append]
  simp [toNat]

theorem toNat_lt (bits : Bits) : toNat bits < 2 ^ bits.length := by
  induction bits with
  | nil => simp [toNat]
  | cons b bits ih =>
    have hb : b.toNat ≤ 1 := Bool.toNat_le b
    have hmul := Nat.mul_le_mul_right (2 ^ bits.length) hb
    rw [toNat_cons, List.length_cons, Nat.pow_succ]
    omega

theorem toNat_ofNat (width n : Nat) : toNat (ofNat width n) = n % 2 ^ width := by
  induction width with
  | zero => simp [ofNat, toNat, Nat.mod_one]
  | succ width ih =>
    rw [ofNat, toNat_cons, ih, length_ofNat, Nat.testBit_eq_decide_div_mod_eq, Nat.pow_succ,
      Nat.mod_mul]
    rcases Nat.mod_two_eq_zero_or_one (n / 2 ^ width) with h | h <;> simp [h, Nat.add_comm]

@[simp] theorem toNat_ofByte (b : UInt8) : toNat (ofByte b) = b.toNat := by
  rw [ofByte, toNat_ofNat]
  exact Nat.mod_eq_of_lt b.toNat_lt

theorem eq_of_toNat_eq {x y : Bits} (hlen : x.length = y.length) (h : toNat x = toNat y) :
    x = y := by
  induction x generalizing y with
  | nil => exact (List.length_eq_zero_iff.1 hlen.symm).symm
  | cons b x ih =>
    obtain _ | ⟨c, y⟩ := y
    · simp at hlen
    · simp only [List.length_cons, Nat.add_right_cancel_iff] at hlen
      have hx := toNat_lt x
      have hy := toNat_lt y
      rw [toNat_cons, toNat_cons, hlen] at h
      rw [hlen] at hx
      cases b <;> cases c <;> simp only [Bool.toNat_false, Bool.toNat_true] at h
      · rw [ih hlen (by omega)]
      · omega
      · omega
      · rw [ih hlen (by omega)]

theorem toNat_leadingByte {bits : Bits} (h : bits.length ≤ 8) :
    (leadingByte bits).toNat = toNat bits * 2 ^ (8 - bits.length) := by
  have hlt : toNat bits * 2 ^ (8 - bits.length) < 2 ^ 8 := by
    have hpow : 2 ^ bits.length * 2 ^ (8 - bits.length) = 2 ^ 8 := by
      rw [← Nat.pow_add, Nat.add_sub_cancel' h]
    rw [← hpow]
    exact Nat.mul_lt_mul_of_pos_right (toNat_lt bits) (Nat.two_pow_pos _)
  rw [leadingByte, Nat.shiftLeft_eq, UInt8.toNat_ofNat']
  exact Nat.mod_eq_of_lt hlt

theorem toNat_replicate_false (n : Nat) : toNat (List.replicate n false) = 0 := by
  induction n with
  | zero => rfl
  | succ n ih => rw [List.replicate_succ, toNat_cons, ih, Bool.toNat_false, Nat.zero_mul]

theorem ofByte_leadingByte_of_le {bits : Bits} (h : bits.length ≤ 8) :
    ofByte (leadingByte bits) = bits ++ List.replicate (8 - bits.length) false := by
  apply eq_of_toNat_eq
  · rw [length_ofByte, List.length_append, List.length_replicate]
    omega
  · rw [toNat_ofByte, toNat_leadingByte h, toNat_append, toNat_replicate_false,
      List.length_replicate, Nat.add_zero]

theorem ofByte_leadingByte {bits : Bits} (h : bits.length = 8) :
    ofByte (leadingByte bits) = bits := by
  rw [ofByte_leadingByte_of_le h.le, h, Nat.sub_self, List.replicate_zero, List.append_nil]

/-! ## Bytes of a bit string -/

@[simp] theorem leadingByte_ofByte (b : UInt8) : leadingByte (ofByte b) = b :=
  ofByte_injective (ofByte_leadingByte (length_ofByte b))

theorem toBytes_ofByte_append (b : UInt8) (y : Bits) :
    toBytes (ofByte b ++ y) = b :: toBytes y := by
  show leadingByte (ofByte b) :: toBytes y = _
  rw [leadingByte_ofByte]

theorem toBytes_ofBytes_append (bytes : List UInt8) (y : Bits) :
    toBytes (ofBytes bytes ++ y) = bytes ++ toBytes y := by
  induction bytes with
  | nil => rfl
  | cons b bs ih =>
    rw [ofBytes_cons, List.append_assoc, toBytes_ofByte_append, ih, List.cons_append]

@[simp] theorem toBytes_ofBytes (bytes : List UInt8) : toBytes (ofBytes bytes) = bytes := by
  simpa [toBytes] using toBytes_ofBytes_append bytes []

/-- A string of whole bytes is empty or begins with a byte. -/
theorem WholeBytes.cases {bits : Bits} (h : bits.WholeBytes) :
    bits = [] ∨ ∃ b rest, bits = ofByte b ++ rest ∧ WholeBytes rest := by
  by_cases hnil : bits = []
  · exact Or.inl hnil
  · have hpos := List.length_pos_iff.2 hnil
    unfold WholeBytes at h
    have hlen : (bits.take 8).length = 8 := by
      rw [List.length_take]
      omega
    refine Or.inr ⟨leadingByte (bits.take 8), bits.drop 8, ?_, ?_⟩
    · rw [ofByte_leadingByte hlen, List.take_append_drop]
    · unfold WholeBytes
      rw [List.length_drop]
      omega

theorem WholeBytes.exists_ofBytes {bits : Bits} (h : bits.WholeBytes) :
    ∃ bytes, bits = ofBytes bytes := by
  induction hn : bits.length using Nat.strong_induction_on generalizing bits with
  | _ n ih =>
    rcases h.cases with rfl | ⟨b, rest, rfl, hrest⟩
    · exact ⟨[], rfl⟩
    · obtain ⟨bytes, hbytes⟩ := ih rest.length (by simp at hn; omega) hrest rfl
      exact ⟨b :: bytes, by rw [ofBytes_cons, hbytes]⟩

theorem ofBytes_toBytes {bits : Bits} (h : bits.WholeBytes) : ofBytes (toBytes bits) = bits := by
  obtain ⟨bytes, rfl⟩ := h.exists_ofBytes
  rw [toBytes_ofBytes]

theorem length_toBytes {bits : Bits} (h : bits.WholeBytes) :
    8 * (toBytes bits).length = bits.length := by
  rw [← length_ofBytes, ofBytes_toBytes h]

theorem toBytes_append {x : Bits} (h : x.WholeBytes) (y : Bits) :
    toBytes (x ++ y) = toBytes x ++ toBytes y := by
  obtain ⟨bytes, rfl⟩ := h.exists_ofBytes
  rw [toBytes_ofBytes_append, toBytes_ofBytes]

theorem toBytes_of_lt {bits : Bits} (hne : bits ≠ []) (h : bits.length < 8) :
    toBytes bits = [leadingByte bits] := by
  match bits, hne, h with
  | [_], _, _ | [_, _], _, _ | [_, _, _], _, _ | [_, _, _, _], _, _ | [_, _, _, _, _], _, _
  | [_, _, _, _, _, _], _, _ | [_, _, _, _, _, _, _], _, _ => rfl

/-- The bytes of a string hold the string and less than a byte of zeros after it. -/
theorem exists_padding (bits : Bits) :
    ∃ count < 8, ofBytes (toBytes bits) = bits ++ List.replicate count false := by
  have hwhole : WholeBytes (bits.take (8 * (bits.length / 8))) := by
    unfold WholeBytes
    rw [List.length_take]
    omega
  have hbytes := toBytes_append hwhole (bits.drop (8 * (bits.length / 8)))
  rw [List.take_append_drop] at hbytes
  have hlength : (bits.drop (8 * (bits.length / 8))).length < 8 := by
    rw [List.length_drop]
    omega
  rw [hbytes, ofBytes_append, ofBytes_toBytes hwhole]
  by_cases hrest : bits.drop (8 * (bits.length / 8)) = []
  · refine ⟨0, by omega, ?_⟩
    have htake := List.take_append_drop (8 * (bits.length / 8)) bits
    rw [hrest, List.append_nil] at htake
    rw [hrest, htake]
    rfl
  · refine ⟨8 - (bits.drop (8 * (bits.length / 8))).length, ?_, ?_⟩
    · have hpos := List.length_pos_iff.2 hrest
      omega
    · rw [toBytes_of_lt hrest hlength, ofBytes_cons, ofBytes_nil, List.append_nil,
        ofByte_leadingByte_of_le hlength.le, ← List.append_assoc, List.take_append_drop]

end Sigil.Bits
