import Mathlib.Computability.Language
import Sigil.Proofs.Buffer
import Sigil.Proofs.Fold

namespace Sigil

namespace Literal

theorem not_isEmpty_ofBytes {bytes : List UInt8} (h : bytes ≠ []) : ¬ (ofBytes bytes).IsEmpty := by
  intro hempty
  have hlength : 8 * bytes.length = 0 :=
    (Bits.length_ofBytes bytes).symm.trans (List.length_eq_zero_iff.2 hempty)
  exact h (List.length_eq_zero_iff.1 (by omega))

/-- The bit string is the literal, up to its flags. -/
def Spells (l : Literal) (w : Bits) : Prop :=
  if l.IsPlain then w = l.bits
  else ∃ bytes, List.Forall₂ (fun e a => l.accepts e a = true) l.bits.toBytes bytes ∧
    w = Bits.ofBytes bytes

theorem Spells.eq_bits {l : Literal} {w : Bits} (h : l.Spells w) (hl : l.IsPlain) : w = l.bits := by
  rwa [Spells, if_pos hl] at h

theorem Spells.exists_bytes {l : Literal} {w : Bits} (h : l.Spells w) (hl : ¬ l.IsPlain) :
    ∃ bytes, List.Forall₂ (fun e a => l.accepts e a = true) l.bits.toBytes bytes ∧
      w = Bits.ofBytes bytes := by
  rwa [Spells, if_neg hl] at h

theorem spells_ofBytes {l : Literal} (hl : ¬ l.IsPlain) {bytes : List UInt8}
    (h : List.Forall₂ (fun e a => l.accepts e a = true) l.bits.toBytes bytes) :
    l.Spells (Bits.ofBytes bytes) := by
  rw [Spells, if_neg hl]
  exact ⟨bytes, h, rfl⟩

theorem length_of_spells {l : Literal} (hl : l.IsPlain ∨ l.bits.WholeBytes) {w : Bits}
    (h : l.Spells w) : w.length = l.length := by
  by_cases hplain : l.IsPlain
  · rw [h.eq_bits hplain, length]
  · obtain ⟨bytes, hall, rfl⟩ := h.exists_bytes hplain
    rw [length, ← Bits.ofBytes_toBytes (hl.resolve_left hplain), Bits.length_ofBytes,
      Bits.length_ofBytes, hall.length_eq]

/-- Bits that begin the bytes that hold them are those of the bytes. -/
theorem stored_zero (l : Literal) : l.stored 0 = l.bits.toBytes := rfl

theorem faced_zero {l : Literal} (h : l.bits.WholeBytes) :
    (l.stored 0).take (l.length / 8) = l.bits.toBytes := by
  have hlength := Bits.length_toBytes h
  rw [stored_zero, length]
  exact List.take_of_length_le (by omega)

theorem accepts_self (l : Literal) (b : UInt8) : l.accepts b b = true := by
  simp [accepts]

theorem spells_bits {l : Literal} (hl : l.IsPlain ∨ l.bits.WholeBytes) : l.Spells l.bits := by
  by_cases hplain : l.IsPlain
  · rw [Spells, if_pos hplain]
  · have hself := spells_ofBytes hplain (List.forall₂_same.2 fun b _ => l.accepts_self b)
    rwa [Bits.ofBytes_toBytes (hl.resolve_left hplain)] at hself

/-- A literal occurs where the buffer holds one of the strings that it stands for. -/
theorem occursAt_iff {l : Literal} (hl : l.IsPlain ∨ l.bits.WholeBytes) (hne : ¬ l.IsEmpty)
    (data : Buffer) (pos limit : Nat) :
    l.occursAt 0 data pos limit = true ↔
      pos + l.length ≤ limit ∧ ∃ w, l.Spells w ∧ data.holdsBits w pos = true := by
  have hsize : ∀ w, l.Spells w → data.holdsBits w pos = true → pos + l.length ≤ data.bitSize := by
    intro w hw hold
    have hlen := length_of_spells hl hw
    have hpos := List.length_pos_iff.2 hne
    rw [← hlen]
    apply Buffer.le_bitSize_of_holdsBits _ hold
    rintro rfl
    rw [length] at hlen
    simp only [List.length_nil] at hlen
    omega
  rw [occursAt, Bool.and_eq_true, decide_eq_true_iff]
  by_cases hflags : l.IsPlain
  · rw [if_pos hflags]
    constructor
    · rintro ⟨⟨hlimit, -⟩, hold⟩
      exact ⟨hlimit, l.bits, spells_bits hl, hold⟩
    · rintro ⟨hlimit, w, hw, hold⟩
      exact ⟨⟨hlimit, hsize w hw hold⟩, hw.eq_bits hflags ▸ hold⟩
  · rw [if_neg hflags, faced_zero (hl.resolve_left hflags), Buffer.facesBytes_iff]
    constructor
    · rintro ⟨⟨hlimit, -⟩, bytes, hall, hold⟩
      exact ⟨hlimit, _, spells_ofBytes hflags hall, hold⟩
    · rintro ⟨hlimit, w, hw, hold⟩
      obtain ⟨bytes, hall, hwbytes⟩ := hw.exists_bytes hflags
      exact ⟨⟨hlimit, hsize w hw hold⟩, bytes, hall, hwbytes ▸ hold⟩

/-! ## Joining literals -/

variable {l m : Literal}

theorem length_append (l m : Literal) : (l.append m).length = l.length + m.length :=
  List.length_append

theorem Fuses.isPlain_iff (h : l.Fuses m) : m.IsPlain ↔ l.IsPlain := by
  unfold IsPlain
  rw [h.1, h.2.1]

theorem Fuses.accepts_eq (h : l.Fuses m) : m.accepts = l.accepts := by
  funext e a
  unfold accepts
  rw [h.1, h.2.1]

theorem Fuses.wholeBytes (h : l.Fuses m) (hl : ¬ l.IsPlain) :
    l.bits.WholeBytes ∧ m.bits.WholeBytes :=
  h.2.2.resolve_left hl

theorem Fuses.wholeBytes_append (h : l.Fuses m) (hl : ¬ l.IsPlain) :
    (l.append m).bits.WholeBytes := by
  obtain ⟨hfirst, hsecond⟩ := h.wholeBytes hl
  unfold Bits.WholeBytes at hfirst hsecond ⊢
  rw [append, List.length_append]
  omega

/-- A joined literal stands for the strings of the first followed by those of the second. -/
theorem spells_append (h : l.Fuses m) (w : Bits) :
    (l.append m).Spells w ↔ ∃ x y, l.Spells x ∧ m.Spells y ∧ w = x ++ y := by
  by_cases hl : l.IsPlain
  · have hm := h.isPlain_iff.2 hl
    have happend : (l.append m).IsPlain := hl
    rw [Spells, if_pos happend]
    constructor
    · intro hw
      refine ⟨l.bits, m.bits, ?_, ?_, hw⟩
      · rw [Spells, if_pos hl]
      · rw [Spells, if_pos hm]
    · rintro ⟨x, y, hx, hy, rfl⟩
      rw [hx.eq_bits hl, hy.eq_bits hm]
      rfl
  · have hm : ¬ m.IsPlain := fun hm => hl (h.isPlain_iff.1 hm)
    have happend : ¬ (l.append m).IsPlain := hl
    have hbytes : (l.append m).bits.toBytes = l.bits.toBytes ++ m.bits.toBytes :=
      Bits.toBytes_append (h.wholeBytes hl).1 m.bits
    constructor
    · intro hw
      obtain ⟨bytes, hall, rfl⟩ := hw.exists_bytes happend
      rw [hbytes] at hall
      -- the bytes are cut where the first literal ends
      have hfirst := (List.forall₂_take_append _ _ _ hall.flip).flip
      have hsecond : List.Forall₂ (fun e a => m.accepts e a = true) m.bits.toBytes
          (bytes.drop l.bits.toBytes.length) := by
        rw [h.accepts_eq]
        exact (List.forall₂_drop_append _ _ _ hall.flip).flip
      refine ⟨_, _, spells_ofBytes hl hfirst, spells_ofBytes hm hsecond, ?_⟩
      rw [← Bits.ofBytes_append, List.take_append_drop]
    · rintro ⟨x, y, hx, hy, rfl⟩
      obtain ⟨xs, hxs, rfl⟩ := hx.exists_bytes hl
      obtain ⟨ys, hys, rfl⟩ := hy.exists_bytes hm
      rw [← Bits.ofBytes_append]
      apply spells_ofBytes happend
      rw [hbytes]
      rw [h.accepts_eq] at hys
      exact List.rel_append hxs hys

theorem occursAt_append (h : l.Fuses m) (data : Buffer) (pos limit : Nat) :
    (l.append m).occursAt 0 data pos limit =
      (l.occursAt 0 data pos limit && m.occursAt 0 data (pos + l.length) limit) := by
  have hroom : pos + (l.append m).length ≤ limit ∧ pos + (l.append m).length ≤ data.bitSize ↔
      (pos + l.length ≤ limit ∧ pos + l.length ≤ data.bitSize) ∧
        pos + l.length + m.length ≤ limit ∧ pos + l.length + m.length ≤ data.bitSize := by
    rw [length_append]
    omega
  rw [Bool.eq_iff_iff]
  by_cases hl : l.IsPlain
  · have hm := h.isPlain_iff.2 hl
    have happend : (l.append m).IsPlain := hl
    simp only [occursAt, if_pos hl, if_pos hm, if_pos happend, Bool.and_eq_true,
      decide_eq_true_iff, hroom]
    rw [append, Buffer.holdsBits_append]
    tauto
  · have hm : ¬ m.IsPlain := fun hm => hl (h.isPlain_iff.1 hm)
    have happend : ¬ (l.append m).IsPlain := hl
    have hbytes : (l.append m).bits.toBytes = l.bits.toBytes ++ m.bits.toBytes :=
      Bits.toBytes_append (h.wholeBytes hl).1 m.bits
    have haccepts : (l.append m).accepts = l.accepts := rfl
    simp only [occursAt, if_neg hl, if_neg hm, if_neg happend, Bool.and_eq_true,
      decide_eq_true_iff, hroom]
    rw [faced_zero (h.wholeBytes_append hl), faced_zero (h.wholeBytes hl).1,
      faced_zero (h.wholeBytes hl).2,
      hbytes, haccepts, Buffer.facesBytes_append, Bits.length_toBytes (h.wholeBytes hl).1,
        h.accepts_eq, Bool.and_eq_true]
    -- the second literal starts where the first one stops, counted in bits
    show _ ∧ _ ∧ data.facesBytes _ _ (pos + l.length) = true ↔ _
    tauto

end Literal

namespace Kind

def language : Kind (Language Bool) → Language Bool
  | lit l => {w | l.Spells w}
  | any bits => {w | w.length = bits}
  | range lo hi => {w | ∃ b, lo ≤ b ∧ b ≤ hi ∧ w = Bits.ofByte b}
  | anchor _ => 1
  | alt subs => subs.sum
  | seq subs => subs.prod
  | rep sub r => {w | ∃ n, r.Allows n ∧ w ∈ sub ^ n}
  | ctx _ sub => sub

end Kind

theorem replicate_mem_pow {L : Language Bool} {w : Bits} (hw : w ∈ L) (n : Nat) :
    (List.replicate n w).flatten ∈ L ^ n := by
  rw [Language.mem_pow]
  refine ⟨List.replicate n w, rfl, List.length_replicate, ?_⟩
  intro y hy
  rwa [List.eq_of_mem_replicate hy]

theorem nil_mem_of_nil_mem_pow {L : Language Bool} {n : Nat} (hn : n ≠ 0) (h : [] ∈ L ^ n) :
    [] ∈ L := by
  obtain ⟨n, rfl⟩ := Nat.exists_eq_succ_of_ne_zero hn
  rw [Nat.succ_eq_add_one, pow_succ', Language.mem_mul] at h
  obtain ⟨x, hx, y, -, hxy⟩ := h
  rwa [(List.append_eq_nil_iff.1 hxy).1] at hx

def Tree.language {ν : Type} (t : Tree ν) : Language Bool := t.fold Kind.language

theorem Tree.language_node {ν : Type} (n : ν) (k : Kind (Tree ν)) :
    (Tree.node n k).language = (k.map Tree.language).language := Tree.fold_node ..

end Sigil
