import Sigil.Proofs.ByteMatchers
import Sigil.Proofs.Meaning

namespace Sigil

namespace Matcher

inductive IsBuiltin : Matcher → Prop where
  | digit : IsBuiltin digit
  | hexDigit : IsBuiltin hexDigit
  | lowercase : IsBuiltin lowercase
  | uppercase : IsBuiltin uppercase
  | letter : IsBuiltin letter
  | mask (bits : UInt8) : IsBuiltin (mask bits)
  | identifier : IsBuiltin identifier

variable {m : Matcher} {data : Buffer} {pos : Nat} {hit : Hit}

/-! ## Searching -/

theorem findSome?_range'_eq_some {α : Type} {f : Nat → Option α} {a : α} (pos count : Nat) :
    (List.range' pos count 8).findSome? f = some a ↔
      ∃ k < count, f (pos + 8 * k) = some a ∧ ∀ j < k, f (pos + 8 * j) = none := by
  induction count generalizing pos with
  | zero => simp
  | succ count ih =>
    rw [List.range'_succ, List.findSome?_cons]
    have hnext : ∀ k, pos + 8 + 8 * k = pos + 8 * (k + 1) := fun k => by omega
    cases hfirst : f pos with
    | some b =>
      dsimp only
      constructor
      · intro hb
        exact ⟨0, Nat.succ_pos count, hfirst.trans hb, fun j hj => absurd hj (Nat.not_lt_zero j)⟩
      · rintro ⟨k, -, hk, hbefore⟩
        obtain _ | k := k
        · exact hfirst.symm.trans hk
        · cases hfirst.symm.trans (hbefore 0 (Nat.succ_pos k))
    | none =>
      dsimp only
      rw [ih]
      simp only [hnext]
      constructor
      · rintro ⟨k, hk, hfound, hbefore⟩
        refine ⟨k + 1, Nat.succ_lt_succ hk, hfound, fun j hj => ?_⟩
        obtain _ | j := j
        · exact hfirst
        · exact hbefore j (Nat.lt_of_succ_lt_succ hj)
      · rintro ⟨k, hk, hfound, hbefore⟩
        obtain _ | k := k
        · cases hfirst.symm.trans hfound
        · exact ⟨k, Nat.lt_of_succ_lt_succ hk, hfound, fun j hj =>
            hbefore (j + 1) (Nat.succ_lt_succ hj)⟩

/-- A search finds the first of the offsets up to the end of the buffer at which the matcher
answers. -/
theorem Scans.eq_some_iff (h : m.Scans) :
    m data pos .search = some hit ↔
      ∃ k, pos + 8 * k ≤ data.bitSize ∧ m data (pos + 8 * k) .anchored = some hit ∧
        ∀ j < k, m data (pos + 8 * j) .anchored = none := by
  rw [h data pos ((data.bitSize + 8 - pos) / 8) (by omega), findSome?_range'_eq_some]
  have hcount : ∀ k, k < (data.bitSize + 8 - pos) / 8 ↔ pos + 8 * k ≤ data.bitSize :=
    fun k => by omega
  simp only [hcount]

theorem identifier_of_not_aligned (h : ¬ Offset.Aligned pos) (mode : MatchMode) :
    identifier data pos mode = none :=
  if_pos h

def identifierFrom (data : Buffer) (start : Nat) : Hit :=
  ⟨8 * start, 8 * (1 + ((data.toList.drop (start + 1)).takeWhile Ascii.isWord).length)⟩

theorem identifier_of_ne_search (data : Buffer) (i : Nat) {mode : MatchMode}
    (hmode : mode ≠ .search) :
    identifier data (8 * i) mode =
      if data[i]?.any Ascii.isIdentifierStart then some (identifierFrom data i) else none := by
  have haligned : Offset.Aligned (8 * i) := Nat.mul_mod_right 8 i
  have hbyte : Offset.toByte (8 * i) = i := Nat.mul_div_cancel_left i (by decide)
  rw [identifier, if_neg (not_not.2 haligned), hbyte, if_pos (show mode.IsAnchored from hmode)]
  split <;> rfl

theorem identifier_search (data : Buffer) (i : Nat) :
    identifier data (8 * i) .search =
      (position Ascii.isIdentifierStart data i).map (identifierFrom data) := by
  have haligned : Offset.Aligned (8 * i) := Nat.mul_mod_right 8 i
  have hbyte : Offset.toByte (8 * i) = i := Nat.mul_div_cancel_left i (by decide)
  rw [identifier, if_neg (not_not.2 haligned), hbyte, if_neg fun h => h rfl]
  cases position Ascii.isIdentifierStart data i <;> rfl

theorem scans_identifier : identifier.Scans := by
  have hanchored : MatchMode.anchored ≠ .search := MatchMode.noConfusion
  refine Scans.of_step (fun data pos hpast => ?_) fun data pos => ?_
  · by_cases haligned : Offset.Aligned pos
    · obtain ⟨i, rfl⟩ := Nat.dvd_of_mod_eq_zero haligned
      unfold Buffer.bitSize at hpast
      rw [identifier_search, position_eq_none (by omega), Option.map_none]
    · exact identifier_of_not_aligned haligned _
  · by_cases haligned : Offset.Aligned pos
    · obtain ⟨i, rfl⟩ := Nat.dvd_of_mod_eq_zero haligned
      have hnext : 8 * i + 8 = 8 * (i + 1) := rfl
      rw [hnext, identifier_search, identifier_search, identifier_of_ne_search data i hanchored,
        position_step]
      split <;> rfl
    · have hnext : ¬ Offset.Aligned (pos + 8) := by
        unfold Offset.Aligned at *
        omega
      rw [identifier_of_not_aligned haligned, identifier_of_not_aligned haligned,
        identifier_of_not_aligned hnext]
      rfl

theorem IsBuiltin.scans (h : m.IsBuiltin) : m.Scans := by
  cases h with
  | identifier => exact scans_identifier
  | _ => exact scans_byteClass _

end Matcher

/-! ## Trees of one byte -/

namespace Tree

open Matcher
open Offset (Aligned Shown)

variable {ν : Type} {data : Buffer} {limit : Nat} {cls : UInt8 → Bool}

@[simp] theorem plainAt_shape (t : Tree ν) (data : Buffer) (limit : Nat) :
    t.shape.plainAt data limit = t.plainAt data limit := fold_shape ..

@[simp] theorem plainHit_shape (t : Tree ν) (data : Buffer) (limit pos : Nat) :
    t.shape.plainHit data limit pos = t.plainHit data limit pos := by
  rw [plainHit, plainHit, plainAt_shape]

@[simp] theorem plainIn_shape (t : Tree ν) (data : Buffer) (region : BitRange) (mode : MatchMode) :
    t.shape.plainIn data region mode = t.plainIn data region mode :=
  plainIn_congr (meaning_shape t) data region mode

@[simp] theorem readsByte_shape (t : Tree ν) : t.shape.ReadsByte cls ↔ t.ReadsByte cls := by
  simp only [ReadsByte, plainAt_shape]

theorem ReadsByte.congr {cls' : UInt8 → Bool} {t : Tree ν} (h : t.ReadsByte cls)
    (hcls : ∀ b, cls b = cls' b) : t.ReadsByte cls' := by
  rwa [← funext hcls]

/-- What the layers of a shape tell of the layers of a tree holds of all of them. -/
theorem each_of_shape {t : Tree ν} {P : Kind Shape → Prop} {Q : Tree ν → Prop}
    (hlayer : ∀ n k, P (k.map shape) → Q (node n k)) (h : t.shape.Each fun s => P s.kind) :
    t.Each Q := by
  induction t using induct_subs with
  | node n k ih =>
    rw [shape_node] at h
    refine Each.node (hlayer n k h.root) fun s hs => ih s hs (h.sub ?_)
    rw [kind, Kind.subs_map]
    exact List.mem_map_of_mem hs

theorem representable_of_shape {t : Tree ν} (h : t.shape.Each fun s => s.kind.Representable) :
    t.Each fun s => s.kind.Representable :=
  each_of_shape (fun _ k hk => by cases k <;> exact hk) h

theorem flush_of_shape {t : Tree Note} (h : t.shape.Each fun s => ∀ lead, s.kind.Flush lead) :
    t.Flush :=
  each_of_shape (P := fun k => ∀ lead, k.Flush lead) (fun n k hk =>
    (Kind.flush_map shape k).1 (hk n.lead)) h

theorem readsByte_lit (n : ν) (b : UInt8) : (node n (.lit (.ofBytes [b]))).ReadsByte (· == b) := by
  intro data limit pos _
  have hplain : (Literal.ofBytes [b]).IsPlain := ⟨rfl, rfl⟩
  have hbits : (Literal.ofBytes [b]).bits = Bits.ofByte b := List.append_nil _
  have hlength : (Literal.ofBytes [b]).length = 8 := by
    rw [Literal.length, hbits, Bits.length_ofByte]
  have hne : ¬ (Literal.ofBytes [b]).IsEmpty := Literal.not_isEmpty_ofBytes (List.cons_ne_nil b [])
  have hoccurs : (Literal.ofBytes [b]).occursAt 0 data pos limit = true ↔
      pos + 8 ≤ limit ∧ (data.byteAt? pos).any (· == b) = true := by
    rw [Literal.occursAt_iff (Or.inl hplain) hne, hlength, Option.any_eq_true]
    refine and_congr_right fun _ => ?_
    simp only [Literal.Spells, if_pos hplain, hbits, exists_eq_left, beq_iff_eq, exists_eq_right]
    exact (Buffer.byteAt?_eq_some_iff data pos b).symm
  rw [plainAt_node]
  show (if (Literal.ofBytes [b]).occursAt 0 data pos limit = true then _ else _) = _
  rw [hlength]
  exact if_congr hoccurs rfl rfl

/-- An alternation of classes is the class of the bytes that are in one of them. -/
theorem readsByte_alt (n : ν) {ts : List (Tree ν)} {classes : List (UInt8 → Bool)}
    (h : List.Forall₂ ReadsByte ts classes) :
    (node n (.alt ts)).ReadsByte fun b => classes.any fun cls => cls b := by
  intro data limit pos hlimit
  rw [plainAt_node]
  show ((ts.map (plainAt data limit)).findSome? fun step => step pos) = _
  rw [List.findSome?_map]
  induction h with
  | nil => simp
  | @cons t cls ts classes ht _ ih =>
    rw [List.findSome?_cons, Function.comp_apply, ht data limit pos hlimit]
    by_cases hfits : pos + 8 ≤ limit
    · obtain ⟨b, hb⟩ := Buffer.exists_byteAt? (hfits.trans hlimit)
      simp only [hb, hfits, true_and, Option.any_some, List.any_cons] at ih ⊢
      cases cls b with
      | true => rfl
      | false => simpa using ih
    · simp only [hfits, false_and, if_false] at ih ⊢
      exact ih

/-! ## Identifiers -/

/-- At a byte boundary, a class of bytes is matched in the whole bytes before the limit. -/
theorem ReadsByte.plainAt_mul {t : Tree ν} (h : t.ReadsByte cls) (hlimit : limit ≤ data.bitSize)
    (i : Nat) :
    t.plainAt data limit (8 * i) =
      if (data.take (Offset.toByte limit))[i]?.any cls then some (8 * (i + 1)) else none := by
  have haligned : Shown limit (8 * i) := Or.inl (Nat.mul_mod_right 8 i)
  rw [h data limit _ hlimit, ← Buffer.byteAt?_mul, Buffer.byteAt?_take hlimit haligned]
  by_cases hfits : 8 * i + 8 ≤ limit
  · simp only [hfits, true_and, if_true]
    rfl
  · simp [hfits]

/-- A class of bytes that is repeated without a bound takes the whole run of them. -/
theorem ReadsByte.greedy_mul {t : Tree ν} (h : t.ReadsByte cls) (hlimit : limit ≤ data.bitSize)
    {fuel i : Nat} (count : Nat) (hfuel : limit - 8 * i < fuel) :
    (greedy (t.plainAt data limit) (.atLeast 0) fuel (8 * i) count).1 =
      8 * (i + (((data.take (Offset.toByte limit)).toList.drop i).takeWhile cls).length) := by
  have hsize : (data.take (Offset.toByte limit)).size = limit / 8 := by
    rw [Buffer.size_take]
    exact Nat.min_eq_left (Buffer.toByte_le_size hlimit)
  have hstep := h.plainAt_mul hlimit
  generalize data.take (Offset.toByte limit) = whole at hsize hstep ⊢
  induction fuel generalizing i count with
  | zero => exact absurd hfuel (Nat.not_lt_zero _)
  | succ fuel ih =>
    have hunbounded : ¬ (Repeat.atLeast 0).max.any (· ≤ count) = true := Bool.false_ne_true
    unfold greedy
    rw [if_neg hunbounded, hstep]
    by_cases hi : i < whole.size
    · rw [List.drop_eq_getElem_cons (i := i) hi, List.takeWhile_cons, Array.getElem?_eq_getElem hi,
        Option.any_some, Array.getElem_toList]
      cases cls whole[i] with
      | true =>
        simp only [if_true]
        rw [if_neg (by omega), ih (count + 1) (by omega), List.length_cons]
        omega
      | false => rfl
    · rw [List.drop_eq_nil_of_le (Nat.not_lt.1 hi), Array.getElem?_eq_none (Nat.not_lt.1 hi)]
      rfl

theorem plainRepeat_atLeast_zero (step : Nat → Option Nat) (limit pos : Nat) :
    plainRepeat step (.atLeast 0) limit pos =
      some (greedy step (.atLeast 0) (limit - pos + 1) pos 0).1 := by
  have hmin : (Repeat.atLeast 0).min ≤ (greedy step (.atLeast 0) (limit - pos + 1) pos 0).2 :=
    Nat.zero_le _
  unfold plainRepeat
  dsimp only
  rw [if_pos hmin]

theorem identifier_eq_plainHit {n n' : ν} {start rest : Tree ν}
    (hstart : start.ReadsByte Ascii.isIdentifierStart) (hrest : rest.ReadsByte Ascii.isWord)
    (hlimit : limit ≤ data.bitSize) (i : Nat) {mode : MatchMode} (hmode : mode ≠ .search) :
    identifier (data.take (Offset.toByte limit)) (8 * i) mode =
      (node n (.seq [start, node n' (.rep rest (.atLeast 0))])).plainHit data limit (8 * i) := by
  have htail : (node n' (.rep rest (.atLeast 0))).plainAt data limit (8 * (i + 1)) =
      some (8 * (i + 1 +
        (((data.take (Offset.toByte limit)).toList.drop (i + 1)).takeWhile
          Ascii.isWord).length)) := by
    rw [plainAt_node]
    rw [← hrest.greedy_mul hlimit 0 (Nat.lt_succ_self _)]
    exact plainRepeat_atLeast_zero ..
  rw [identifier_of_ne_search _ i hmode, plainHit, plainAt_node]
  show _ = (([start, node n' (.rep rest (.atLeast 0))].map (plainAt data limit)).foldlM
    (fun (pos : Nat) (step : Nat → Option Nat) => step pos) (8 * i)).map (Hit.between (8 * i))
  rw [List.map_cons, List.foldlM_cons, hstart.plainAt_mul hlimit]
  split
  case isTrue =>
    rw [Option.bind_eq_bind, Option.bind_some, List.map_singleton, List.foldlM_cons, htail]
    show _ = some (Hit.between _ _)
    rw [identifierFrom, Hit.between, Option.some.injEq, Hit.mk.injEq]
    exact ⟨rfl, by omega⟩
  case isFalse => rfl

end Tree

end Sigil
