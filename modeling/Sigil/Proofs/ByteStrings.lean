import Sigil.Proofs.Builtins

namespace Sigil

theorem Bits.ofBytes_prefix_iff {x y : List UInt8} : ofBytes x <+: ofBytes y ↔ x <+: y := by
  have hinj : Function.Injective ofBytes := Function.LeftInverse.injective toBytes_ofBytes
  rw [List.prefix_iff_eq_take, List.prefix_iff_eq_take, length_ofBytes, ← ofBytes_take, hinj.eq_iff]

namespace Buffer

variable {data : Buffer} {limit i : Nat}

def before (data : Buffer) (limit : Nat) : List UInt8 := data.toList.take (Offset.toByte limit)

theorem before_bitSize (data : Buffer) : data.before data.bitSize = data.toList := by
  have hbytes : Offset.toByte data.bitSize = data.toList.length :=
    Nat.mul_div_cancel_left data.size (by decide)
  rw [before, hbytes, List.take_length]

theorem length_drop_before (hlimit : limit ≤ data.bitSize) (i : Nat) :
    ((data.before limit).drop i).length = Offset.toByte limit - i := by
  rw [List.length_drop, before, List.length_take, Array.length_toList,
    Nat.min_eq_left (toByte_le_size hlimit)]

theorem getElem?_take (data : Buffer) (limit i : Nat) :
    (data.take (Offset.toByte limit))[i]? = ((data.before limit).drop i).head? := by
  rw [List.head?_drop, before]
  unfold take
  split
  case isTrue hle =>
    have hall : data.toList.length ≤ Offset.toByte limit := hle
    rw [List.take_of_length_le hall, Array.getElem?_toList]
  case isFalse =>
    rw [← Array.getElem?_toList, Array.toList_extract, List.extract_eq_take_drop, List.drop_zero,
      Nat.sub_zero]

/-- At a byte boundary, the bits of a byte string are held where its bytes are. -/
theorem holdsBits_ofBytes (data : Buffer) (bytes : List UInt8) (i : Nat) :
    data.holdsBits (Bits.ofBytes bytes) (8 * i) = true ↔ bytes <+: data.toList.drop i := by
  rw [holdsBits_iff, bits, ← Bits.ofBytes_drop, Bits.ofBytes_prefix_iff]

end Buffer

/-! ## Taking bytes from the front -/

abbrev Taker := List UInt8 → Option Nat

namespace Taker

def exactly (expected : List UInt8) : Taker :=
  fun bytes => if expected <+: bytes then some expected.length else none

def count (n : Nat) : Taker := fun bytes => if n ≤ bytes.length then some n else none

def one (cls : UInt8 → Bool) : Taker := fun bytes => if bytes.head?.any cls then some 1 else none

def first (takers : List Taker) : Taker := fun bytes => takers.findSome? fun take => take bytes

def inTurn : List Taker → Taker
  | [], _ => some 0
  | take :: rest, bytes => (take bytes).bind fun n => (inTurn rest (bytes.drop n)).map (n + ·)

@[simp] theorem inTurn_singleton (take : Taker) : inTurn [take] = take := by
  funext bytes
  show ((take bytes).bind fun n => some (n + 0)) = take bytes
  cases take bytes <;> rfl

end Taker

namespace Tree

variable {ν : Type} {n m : ν} {t : Tree ν} {ts : List (Tree ν)} {take : Taker} {takers : List Taker}
  {data : Buffer} {limit : Nat}

/-- At every byte boundary, the tree takes from the whole bytes that are left before the limit. -/
def Takes (t : Tree ν) (take : Taker) : Prop :=
  ∀ (data : Buffer) (limit i : Nat), limit ≤ data.bitSize →
    t.plainAt data limit (8 * i) = (take ((data.before limit).drop i)).map fun n => 8 * (i + n)

theorem takes_lit (n : ν) {bytes : List UInt8} (hne : bytes ≠ []) :
    (node n (.lit (.ofBytes bytes))).Takes (.exactly bytes) := by
  intro data limit i _
  have hplain : (Literal.ofBytes bytes).IsPlain := ⟨rfl, rfl⟩
  have hlength : (Literal.ofBytes bytes).length = 8 * bytes.length := Bits.length_ofBytes bytes
  have hpos : 0 < bytes.length := List.length_pos_iff.2 hne
  have hoccurs : (Literal.ofBytes bytes).occursAt 0 data (8 * i) limit = true ↔
      bytes <+: (data.before limit).drop i := by
    rw [Literal.occursAt_iff (Or.inl hplain) (Literal.not_isEmpty_ofBytes hne), hlength]
    simp only [Literal.Spells, if_pos hplain, exists_eq_left]
    rw [show (Literal.ofBytes bytes).bits = Bits.ofBytes bytes from rfl, Buffer.holdsBits_ofBytes,
      Buffer.before, List.drop_take, List.prefix_take_iff, and_comm]
    refine and_congr_right fun _ => ?_
    unfold Offset.toByte
    omega
  rw [plainAt_node]
  show (if (Literal.ofBytes bytes).occursAt 0 data (8 * i) limit = true then _ else _) = _
  rw [hlength, Taker.exactly]
  by_cases h : bytes <+: (data.before limit).drop i
  · rw [if_pos (hoccurs.2 h), if_pos h, Option.map_some, Nat.mul_add]
  · rw [if_neg (mt hoccurs.1 h), if_neg h, Option.map_none]

theorem takes_any (n : ν) {count : Nat} (hpos : 0 < count) :
    (node n (.any (8 * count))).Takes (.count count) := by
  intro data limit i hlimit
  have hfits : 8 * i + 8 * count ≤ limit ↔ count ≤ ((data.before limit).drop i).length := by
    rw [Buffer.length_drop_before hlimit]
    unfold Offset.toByte
    omega
  rw [plainAt_node]
  show (if 8 * i + 8 * count ≤ limit then some (8 * i + 8 * count) else none) = _
  rw [Taker.count, ← Nat.mul_add]
  rw [← Nat.mul_add] at hfits
  by_cases h : 8 * (i + count) ≤ limit
  · rw [if_pos h, if_pos (hfits.1 h), Option.map_some]
  · rw [if_neg h, if_neg (mt hfits.2 h), Option.map_none]

theorem ReadsByte.takes {cls : UInt8 → Bool} (h : t.ReadsByte cls) : t.Takes (.one cls) := by
  intro data limit i hlimit
  rw [h.plainAt_mul hlimit, Buffer.getElem?_take, Taker.one]
  split <;> rfl

theorem findSome?_takes (h : List.Forall₂ Takes ts takers) (hlimit : limit ≤ data.bitSize)
    (i : Nat) :
    (ts.findSome? fun t => t.plainAt data limit (8 * i)) =
      (Taker.first takers ((data.before limit).drop i)).map fun n => 8 * (i + n) := by
  induction h with
  | nil => rfl
  | @cons t take ts takers ht _ ih =>
    rw [Taker.first, List.findSome?_cons, List.findSome?_cons, ht data limit i hlimit]
    cases take ((data.before limit).drop i) with
    | none => exact ih
    | some n => rfl

theorem takes_alt (n : ν) (h : List.Forall₂ Takes ts takers) :
    (node n (.alt ts)).Takes (.first takers) := by
  intro data limit i hlimit
  rw [plainAt_node]
  show ((ts.map (plainAt data limit)).findSome? fun step => step (8 * i)) = _
  rw [List.findSome?_map]
  exact findSome?_takes h hlimit i

/-- A sequence matches as its elements do, each where the one before it stops. -/
theorem plainAt_seq (n : ν) (ts : List (Tree ν)) (data : Buffer) (limit pos : Nat) :
    (node n (.seq ts)).plainAt data limit pos =
      ts.foldlM (fun pos t => t.plainAt data limit pos) pos := by
  rw [plainAt_node]
  exact List.foldlM_map ..

theorem takes_seq (n : ν) (h : List.Forall₂ Takes ts takers) :
    (node n (.seq ts)).Takes (.inTurn takers) := by
  intro data limit i hlimit
  rw [plainAt_seq]
  induction h generalizing i with
  | nil => rfl
  | @cons t take ts takers ht _ ih =>
    rw [List.foldlM_cons, ht data limit i hlimit, Taker.inTurn]
    cases take ((data.before limit).drop i) with
    | none => rfl
    | some n =>
      rw [Option.bind_some, Option.map_some, Option.bind_eq_bind, Option.bind_some, ih,
        List.drop_drop, Option.map_map]
      simp only [Function.comp_def, Nat.add_assoc]

/-! ## Anchored sequences -/

theorem plainAt_seq_start (n m : ν) (ts : List (Tree ν)) (data : Buffer) (limit pos : Nat) :
    (node n (.seq (node m (.anchor .bufferStart) :: ts))).plainAt data limit pos =
      if pos = 0 then (node n (.seq ts)).plainAt data limit 0 else none := by
  have hanchor : (node m (.anchor .bufferStart)).plainAt data limit pos =
      if pos = 0 then some pos else none := by
    rw [plainAt_node]
    exact if_congr beq_iff_eq rfl rfl
  rw [plainAt_seq, plainAt_seq, List.foldlM_cons, hanchor]
  split
  case isTrue hstart =>
    subst hstart
    rfl
  case isFalse => rfl

theorem plainAt_seq_end (n m : ν) (ts : List (Tree ν)) (data : Buffer) (limit pos : Nat) :
    (node n (.seq (ts ++ [node m (.anchor .bufferEnd)]))).plainAt data limit pos =
      ((node n (.seq ts)).plainAt data limit pos).filter (· == data.bitSize) := by
  rw [plainAt_seq, plainAt_seq, List.foldlM_append]
  cases ts.foldlM (fun pos t => t.plainAt data limit pos) pos with
  | none => rfl
  | some stop =>
    rw [Option.filter_some]
    show ([node m (.anchor .bufferEnd)] : List (Tree ν)).foldlM (fun pos t =>
      t.plainAt data limit pos) stop = _
    rw [List.foldlM_cons, plainAt_node]
    show ((if (stop == data.bitSize) = true then some stop else none).bind some) = _
    exact Option.bind_fun_some _

theorem plainIn_full_search (t : Tree ν) (data : Buffer) :
    t.plainIn data .full .search =
      (List.range' 0 (min inf data.bitSize / 8 + 1) 8).findSome?
        (t.plainHit data (min inf data.bitSize)) := by
  have hregion : ¬ (¬ BitRange.full.Defined ∨ data.bitSize < BitRange.full.low) := by
    rintro (hundefined | hpast)
    · exact hundefined (Nat.zero_le inf)
    · exact Nat.not_lt_zero _ hpast
  rw [plainIn, if_neg hregion]
  rfl

/-- A search over the whole buffer finds what matches at its start, if nothing matches elsewhere. -/
theorem plainIn_full_of_start
    (h : ∀ pos, pos ≠ 0 → t.plainAt data (min inf data.bitSize) pos = none) :
    t.plainIn data .full .search = t.plainHit data (min inf data.bitSize) 0 := by
  rw [plainIn_full_search, List.range'_succ, List.findSome?_cons]
  cases t.plainHit data (min inf data.bitSize) 0 with
  | some hit => rfl
  | none =>
    rw [List.findSome?_eq_none_iff]
    intro pos hpos
    obtain ⟨k, -, rfl⟩ := List.mem_range'.1 hpos
    rw [plainHit, h _ (by omega), Option.map_none]

/-- The tree matches nowhere but at the start of the buffer, where it takes from the whole bytes
before the limit. -/
def Heads (t : Tree ν) (take : Taker) : Prop :=
  ∀ (data : Buffer) (limit pos : Nat), limit ≤ data.bitSize →
    t.plainAt data limit pos = if pos = 0 then (take (data.before limit)).map (8 * ·) else none

theorem heads_seq (n m : ν) (h : List.Forall₂ Takes ts takers) :
    (node n (.seq (node m (.anchor .bufferStart) :: ts))).Heads (.inTurn takers) := by
  intro data limit pos hlimit
  have htakes := takes_seq n h data limit 0 hlimit
  rw [Nat.mul_zero, List.drop_zero] at htakes
  rw [plainAt_seq_start, htakes]
  simp only [Nat.zero_add]

theorem heads_alt (n : ν) (h : List.Forall₂ Heads ts takers) :
    (node n (.alt ts)).Heads (.first takers) := by
  intro data limit pos hlimit
  rw [plainAt_node]
  show ((ts.map (plainAt data limit)).findSome? fun step => step pos) = _
  rw [List.findSome?_map]
  induction h with
  | nil => simp [Taker.first]
  | @cons t take ts takers ht _ ih =>
    rw [List.findSome?_cons, Function.comp_apply, ht data limit pos hlimit, Taker.first,
      List.findSome?_cons]
    by_cases hpos : pos = 0
    · rw [if_pos hpos] at ih ⊢
      rw [if_pos hpos]
      cases take (data.before limit) with
      | none => exact ih
      | some n => rfl
    · rw [if_neg hpos] at ih ⊢
      rw [if_neg hpos]
      exact ih

/-- A search over the whole buffer finds what is taken from its front, unless a limit at `inf` cuts
it off. -/
theorem Heads.plainIn_full (h : t.Heads take)
    (hlimit : t.plainAt data (min inf data.bitSize) 0 = t.plainAt data data.bitSize 0) :
    t.plainIn data .full .search = (take data.toList).map fun n => ⟨0, 8 * n⟩ := by
  have hstart := h data data.bitSize 0 le_rfl
  rw [if_pos rfl, Buffer.before_bitSize] at hstart
  have helsewhere : ∀ pos, pos ≠ 0 → t.plainAt data (min inf data.bitSize) pos = none :=
    fun pos hpos => by rw [h data _ pos (Nat.min_le_right ..), if_neg hpos]
  rw [plainIn_full_of_start helsewhere, plainHit, hlimit, hstart, Option.map_map]
  rfl

end Tree

end Sigil
