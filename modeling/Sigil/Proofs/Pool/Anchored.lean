import Sigil.Proofs.ByteStrings
import Sigil.Proofs.Pool.Making

namespace Sigil

namespace Shape

def starting (b : List UInt8) : Shape := .node () (.seq [anchor .bufferStart, bytes b])

def ending (b : List UInt8) : Shape := .node () (.seq [bytes b, anchor .bufferEnd])

def whole (b : List UInt8) : Shape :=
  .node () (.seq [anchor .bufferStart, bytes b, anchor .bufferEnd])

variable {b : List UInt8} {data : Buffer}

theorem plainIn_starting (hne : b ≠ []) (hinf : data.bitSize ≤ inf) :
    (starting b).plainIn data .full .search =
      if b <+: data.toList then some ⟨0, 8 * b.length⟩ else none := by
  have hheads : (starting b).Heads (.inTurn [.exactly b]) :=
    Tree.heads_seq () () (.cons (Tree.takes_lit () hne) .nil)
  rw [hheads.plainIn_full (by rw [Nat.min_eq_right hinf]), Taker.inTurn_singleton, Taker.exactly]
  split <;> rfl

/-- At a byte boundary, the bytes reach to the end where they are all that is left. -/
theorem plainAt_ending (hne : b ≠ []) (data : Buffer) (i : Nat) :
    (ending b).plainAt data data.bitSize (8 * i) =
      if b = data.toList.drop i then some data.bitSize else none := by
  have htakes := Tree.takes_seq () (.cons (Tree.takes_lit () hne) .nil) data data.bitSize i le_rfl
  rw [Taker.inTurn_singleton, Buffer.before_bitSize, Taker.exactly] at htakes
  have hend := Tree.plainAt_seq_end () () [bytes b] data data.bitSize (8 * i)
  rw [bytes, htakes] at hend
  have hsize : data.bitSize = 8 * data.toList.length := rfl
  have hpos : 0 < b.length := List.length_pos_iff.2 hne
  have hlength : (data.toList.drop i).length = data.toList.length - i := List.length_drop
  refine hend.trans ?_
  by_cases heq : b = data.toList.drop i
  · have hbegins : b <+: data.toList.drop i := heq ▸ List.prefix_rfl
    have hstop : 8 * (i + b.length) = data.bitSize := by
      rw [← heq] at hlength
      omega
    rw [if_pos heq, if_pos hbegins, Option.map_some, Option.filter_some, hstop,
      if_pos (beq_self_eq_true _)]
  · rw [if_neg heq]
    split
    case isTrue hbegins =>
      rw [Option.map_some, Option.filter_some, if_neg]
      intro hstop
      rw [beq_iff_eq] at hstop
      exact heq (hbegins.eq_of_length (by omega))
    case isFalse => rfl

theorem plainIn_ending (hne : b ≠ []) (hinf : data.bitSize ≤ inf) :
    (ending b).plainIn data .full .search =
      if b <:+ data.toList then some ⟨8 * (data.size - b.length), 8 * b.length⟩ else none := by
  have hsize : data.bitSize = 8 * data.size := rfl
  have hlength : data.toList.length = data.size := Array.length_toList
  have hpos : 0 < b.length := List.length_pos_iff.2 hne
  have hhit : ∀ i, (ending b).plainHit data data.bitSize (0 + 8 * i) =
      if b = data.toList.drop i then some (.between (8 * i) data.bitSize) else none := by
    intro i
    rw [Nat.zero_add, Tree.plainHit, plainAt_ending hne]
    split <;> rfl
  -- the bytes that are left tell the place by their number
  have hplace : ∀ i, b = data.toList.drop i → i + b.length = data.size := by
    intro i hi
    have hdrop := congrArg List.length hi
    rw [List.length_drop, hlength] at hdrop
    omega
  rw [Tree.plainIn_full_search, Nat.min_eq_right hinf]
  split
  case isTrue hsuffix =>
    have hlast := List.suffix_iff_eq_drop.1 hsuffix
    rw [hlength] at hlast
    have hle : b.length ≤ data.size := hlength ▸ hsuffix.length_le
    rw [Matcher.findSome?_range'_eq_some]
    refine ⟨data.size - b.length, by omega, ?_, fun j hj => ?_⟩
    · rw [hhit, if_pos hlast, Hit.between, Option.some.injEq, Hit.mk.injEq]
      exact ⟨rfl, by omega⟩
    · rw [hhit, if_neg]
      intro hj'
      have := hplace j hj'
      omega
  case isFalse hno =>
    rw [List.findSome?_eq_none_iff]
    intro pos hpos'
    obtain ⟨k, -, rfl⟩ := List.mem_range'.1 hpos'
    rw [hhit, if_neg]
    intro hk
    exact hno (hk ▸ List.drop_suffix k _)

theorem plainIn_whole (hne : b ≠ []) (hinf : data.bitSize ≤ inf) :
    (whole b).plainIn data .full .search =
      if b = data.toList then some ⟨0, 8 * b.length⟩ else none := by
  have hstart := Tree.plainAt_seq_start () () [bytes b, anchor .bufferEnd] data data.bitSize
  have hend := plainAt_ending hne data 0
  rw [Nat.mul_zero, List.drop_zero] at hend
  rw [Tree.plainIn_full_of_start, Nat.min_eq_right hinf, Tree.plainHit]
  · rw [whole, anchor, hstart, if_pos rfl]
    show Option.map _ ((ending b).plainAt data data.bitSize 0) = _
    rw [hend]
    split
    case isTrue heq =>
      have hsize : data.bitSize = 8 * b.length := by rw [heq, Buffer.bitSize, Array.length_toList]
      rw [Option.map_some, Hit.between, hsize, Nat.sub_zero]
    case isFalse => rfl
  · intro pos hpos
    rw [Nat.min_eq_right hinf, whole, anchor, hstart, if_neg hpos]

end Shape

namespace Edit

variable {b : List UInt8}

theorem makes_startingWith (hne : b ≠ []) : (startingWith b).Makes (Shape.starting b) := fun p hp =>
  succeeds_bind (makes_anchor .bufferStart p hp) fun _ q hq hstart =>
    succeeds_bind (makes_lit hne q hq.wellFormed) fun _ _ hr hbody =>
      succeeds_seq hr.wellFormed (.cons (hr.denotes hstart) (.cons hbody .nil))

theorem makes_endingWith (hne : b ≠ []) : (endingWith b).Makes (Shape.ending b) := fun p hp =>
  succeeds_bind (makes_lit hne p hp) fun _ q hq hbody =>
    succeeds_bind (makes_anchor .bufferEnd q hq.wellFormed) fun _ _ hr hend =>
      succeeds_seq hr.wellFormed (.cons (hr.denotes hbody) (.cons hend .nil))

theorem makes_equalTo (hne : b ≠ []) : (equalTo b).Makes (Shape.whole b) := fun p hp =>
  succeeds_bind (makes_anchor .bufferStart p hp) fun _ q hq hstart =>
    succeeds_bind (makes_lit hne q hq.wellFormed) fun _ r hr hbody =>
      succeeds_bind (makes_anchor .bufferEnd r hr.wellFormed) fun _ _ hs hend =>
        succeeds_seq hs.wellFormed
          (.cons (hs.denotes (hr.denotes hstart)) (.cons (hs.denotes hbody) (.cons hend .nil)))

end Edit

namespace Pool

variable {p : Pool} {shape : Shape}

/-- What has just been made finds what its shape finds. -/
theorem WellFormed.exists_makes (hp : p.WellFormed) {e : Edit PatternId} (he : e.Makes shape)
    {found : Buffer → Option Hit}
    (hfound : ∀ data : Buffer, data.bitSize ≤ inf → shape.plainIn data .full .search = found data) :
    ∃ id q, e p = .ok id q ∧
      ∀ data : Buffer, data.size < 2 ^ 58 → q.matchIn id data .full .search = found data := by
  obtain ⟨id, q, hrun, hq, hid⟩ := he p hp
  refine ⟨id, q, hrun, fun data hsize => ?_⟩
  have hinf := Buffer.bitSize_lt_inf hsize
  rw [hid.matchIn hq.wellFormed hinf, hfound data hinf.le]

/-- In every pool with a history, the patterns of bytes at the start of the buffer, at its end, and
from the start to the end can be made, and a search over the whole buffer finds the bytes just
there: where the buffer begins with them, where it ends with them, be they at other places too or
overlap themselves, and where it is them. -/
theorem run_anchored_bytes (cs : List Command) (b : List UInt8) (hne : b ≠ []) :
    (∃ id q, Edit.startingWith b (run cs) = .ok id q ∧ ∀ data : Buffer, data.size < 2 ^ 58 →
      q.matchIn id data .full .search =
        if b <+: data.toList then some ⟨0, 8 * b.length⟩ else none) ∧
    (∃ id q, Edit.endingWith b (run cs) = .ok id q ∧ ∀ data : Buffer, data.size < 2 ^ 58 →
      q.matchIn id data .full .search =
        if b <:+ data.toList then some ⟨8 * (data.size - b.length), 8 * b.length⟩ else none) ∧
    ∃ id q, Edit.equalTo b (run cs) = .ok id q ∧ ∀ data : Buffer, data.size < 2 ^ 58 →
      q.matchIn id data .full .search =
        if b = data.toList then some ⟨0, 8 * b.length⟩ else none := by
  have hp := wellFormed_run cs
  exact ⟨hp.exists_makes (Edit.makes_startingWith hne) fun _ => Shape.plainIn_starting hne,
    hp.exists_makes (Edit.makes_endingWith hne) fun _ => Shape.plainIn_ending hne,
    hp.exists_makes (Edit.makes_equalTo hne) fun _ => Shape.plainIn_whole hne⟩

/-- The last `aa` of `aaa`, and no `aa` at the end of `aab`. -/
theorem run_anchored_bytes_overlap :
    ∃ q, Edit.endingWith [97, 97] (run [.lit [98]]) = .ok ⟨3⟩ q ∧
      q.matchIn ⟨3⟩ #[97, 97, 97] .full .search = some ⟨8, 16⟩ ∧
        q.matchIn ⟨3⟩ #[97, 97, 98] .full .search = none := by
  obtain ⟨id, q, hrun, hmatch⟩ := (run_anchored_bytes [.lit [98]] [97, 97] (by decide)).2.1
  have hid : (Edit.endingWith [97, 97]).run' (run [.lit [98]]) = some ⟨3⟩ := by decide
  delta EStateM.run' EStateM.run at hid
  rw [hrun] at hid
  obtain rfl := Option.some.inj hid
  refine ⟨q, hrun, ?_, ?_⟩
  · rw [hmatch _ (by decide)]
    decide
  · rw [hmatch _ (by decide)]
    decide

end Pool

end Sigil
