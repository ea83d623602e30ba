import Sigil.Proofs.Plain

namespace Sigil

/-- The bytes from `start` to `stop` frame the bits from `low` to `limit`, which are counted from
`start`. -/
structure Buffer.Frames (data : Buffer) (start stop low limit : Nat) : Prop where
  before : start = 0 ∨ 8 ≤ low
  limit_le : 8 * start + limit ≤ 8 * stop
  after : stop = data.size ∨ 8 * start + limit + 8 ≤ 8 * stop
  stop_le : stop ≤ data.size

def Buffer.Copies (part data : Buffer) (base limit : Nat) : Prop :=
  ∀ (w : Bits) (pos : Nat), pos + w.length ≤ limit → part.holdsBits w pos =
    data.holdsBits w (base + pos)

def Mirrors (base low limit : Nat) (part whole : Nat → Option Nat) : Prop :=
  ∀ pos, low ≤ pos → pos ≤ limit → whole (base + pos) = (part pos).map (base + ·)

section

variable {data copy : Buffer} {start stop base low limit pos : Nat}

/-! ## Bytes and anchors -/

theorem Buffer.bitSize_extract (hstop : stop ≤ data.size) :
    Buffer.bitSize (data.extract start stop) = 8 * (stop - start) := by
  rw [bitSize, Array.size_extract, Nat.min_eq_left hstop]

theorem Buffer.getElem?_part {i : Nat} (hi : start + i < stop ∨ stop = data.size) :
    (data.extract start stop)[i]? = data[start + i]? := by
  rw [Array.getElem?_extract]
  split
  case isTrue => rfl
  case isFalse hout =>
    symm
    rw [Array.getElem?_eq_none_iff]
    omega

theorem Buffer.copies_extract (hlimit : 8 * start + limit ≤ 8 * stop) :
    Copies (data.extract start stop) data (8 * start) limit :=
  fun _ _ hfits => holdsBits_extract (by omega)

/-- Bits in a buffer of their own are copied from wherever they stand. -/
theorem Buffer.copies_toBytes {bits : Bits} (h : data.holdsBits bits base = true) :
    Copies bits.toBytes.toArray data base bits.length := by
  intro w pos hfits
  have hhere := holdsBits_within (holdsBits_toBytes bits) hfits
  rw [Nat.zero_add] at hhere
  rw [Bool.eq_iff_iff, hhere, holdsBits_within h hfits]

theorem Buffer.Copies.byteAt? (h : copy.Copies data base limit) (hpos : pos + 8 ≤ limit) :
    copy.byteAt? pos = data.byteAt? (base + pos) := by
  apply Option.ext
  intro b
  rw [byteAt?_eq_some_iff, byteAt?_eq_some_iff, h _ _ (by rwa [Bits.length_ofByte])]

theorem Anchor.holds_part (h : data.Frames start stop low limit) (hlow : low ≤ pos)
    (hpos : pos ≤ limit) (a : Anchor) :
    a.holds (data.extract start stop) pos = a.holds data (8 * start + pos) := by
  obtain ⟨hbefore, hlimit, hafter, hstop⟩ := h
  have hsize : Buffer.bitSize (data.extract start stop) = 8 * (stop - start) :=
    Buffer.bitSize_extract hstop
  have hzero : (8 * start + pos == 0) = (pos == 0) := by
    rw [Bool.eq_iff_iff, beq_iff_eq, beq_iff_eq]
    omega
  have hend : (8 * start + pos == data.bitSize) = (pos == 8 * (stop - start)) := by
    unfold Buffer.bitSize
    rw [Bool.eq_iff_iff, beq_iff_eq, beq_iff_eq]
    omega
  have hmod : (8 * start + pos) % 8 = pos % 8 := by omega
  have hinside : (8 * start + pos ≤ data.bitSize) = (pos ≤ 8 * (stop - start)) := by
    unfold Buffer.bitSize
    apply propext
    omega
  have hprev : before? data (8 * start + pos) = before? (data.extract start stop) pos := by
    unfold before?
    by_cases hfirst : pos / 8 = 0
    · -- the part begins with the buffer, since it would keep a byte before `low` otherwise
      rw [if_pos hfirst, if_pos (by omega)]
    · rw [if_neg hfirst, if_neg (by omega), Buffer.getElem?_part (by omega)]
      congr 1
      omega
  have hnext : after? data (8 * start + pos) = after? (data.extract start stop) pos := by
    unfold after?
    rw [Buffer.getElem?_part (by omega)]
    congr 1
    omega
  cases a <;> simp only [holds, hsize, hzero, hend, hmod, hinside, hprev, hnext]

/-! ## Layers -/

theorem greedy_mirrors {part whole : Nat → Option Nat} (h : Mirrors base low limit part whole)
    (hpart : Forward limit part) (r : Repeat) (fuel count : Nat) (hlow : low ≤ pos)
    (hpos : pos ≤ limit) :
    greedy whole r fuel (base + pos) count =
      (base + (greedy part r fuel pos count).1, (greedy part r fuel pos count).2) := by
  induction fuel generalizing pos count with
  | zero => rfl
  | succ fuel ih =>
    unfold greedy
    split
    case isTrue => rfl
    case isFalse =>
      rw [h pos hlow hpos]
      cases hstop : part pos with
      | none => rfl
      | some stop =>
        obtain ⟨hle, hlimit⟩ := hpart pos stop hpos hstop
        simp only [Option.map_some, Nat.add_left_cancel_iff]
        split
        case isTrue => rfl
        case isFalse => exact ih (count + 1) (hlow.trans hle) hlimit

theorem foldlM_mirrors {α : Type} {part whole : α → Nat → Option Nat} {subs : List α}
    (h : ∀ s ∈ subs, Mirrors base low limit (part s) (whole s))
    (hpart : ∀ s ∈ subs, Forward limit (part s)) :
    Mirrors base low limit (fun pos => subs.foldlM (fun pos s => part s pos) pos)
      (fun pos => subs.foldlM (fun pos s => whole s pos) pos) := by
  induction subs with
  | nil => exact fun pos _ _ => rfl
  | cons s subs ih =>
    intro pos hlow hpos
    simp only [List.foldlM_cons]
    rw [h s List.mem_cons_self pos hlow hpos]
    cases hmid : part s pos with
    | none => rfl
    | some mid =>
      obtain ⟨hle, hlimit⟩ := hpart s List.mem_cons_self pos mid hpos hmid
      exact ih (fun t ht => h t (List.mem_cons_of_mem s ht)) (fun t ht =>
        hpart t (List.mem_cons_of_mem s ht))
        mid (hlow.trans hle) hlimit

theorem Literal.occursAt_copy {l : Literal} (hl : l.IsPlain ∨ l.bits.WholeBytes) (hne : ¬ l.IsEmpty)
    (h : copy.Copies data base limit) :
    l.occursAt 0 data (base + pos) (base + limit) = l.occursAt 0 copy pos limit := by
  rw [Bool.eq_iff_iff, occursAt_iff hl hne, occursAt_iff hl hne, Nat.add_assoc,
    Nat.add_le_add_iff_left]
  apply and_congr_right
  intro hfits
  apply exists_congr
  intro w
  apply and_congr_right
  intro hw
  have hlength := length_of_spells hl hw
  rw [h w pos (by omega)]

/-- A layer reads bits, or asks an anchor, or does what its sub-patterns do. -/
theorem Kind.stopAt_mirrors {α : Type} {part whole : α → Nat → Option Nat} {k : Kind α}
    (hk : k.Valid) (h : copy.Copies data base limit)
    (hanchor : ∀ a, k = .anchor a → ∀ pos, low ≤ pos → pos ≤ limit →
      a.holds copy pos = a.holds data (base + pos))
    (hsubs : ∀ s ∈ k.subs, Mirrors base low limit (part s) (whole s))
    (hpart : ∀ s ∈ k.subs, Forward limit (part s)) :
    Mirrors base low limit ((k.map part).stopAt copy limit)
      ((k.map whole).stopAt data (base + limit)) := by
  intro pos hlow hpos
  cases k with
  | lit l =>
    simp only [map, stopAt, Literal.occursAt_copy hk.2 hk.1 h, Nat.add_assoc]
    split <;> rfl
  | any bits =>
    simp only [map, stopAt, Nat.add_assoc, Nat.add_le_add_iff_left]
    split <;> rfl
  | range lo hi =>
    simp only [map, stopAt, Nat.add_assoc, Nat.add_le_add_iff_left]
    by_cases hfits : pos + 8 ≤ limit
    · rw [h.byteAt? hfits]
      split <;> rfl
    · -- past the limit neither side looks at its byte
      rw [if_neg fun hboth => hfits hboth.1, if_neg fun hboth => hfits hboth.1]
      rfl
  | anchor a =>
    simp only [map, stopAt, hanchor a rfl pos hlow hpos]
    split <;> rfl
  | alt subs =>
    simp only [map, stopAt, List.findSome?_map, List.map_findSome?]
    exact findSome?_congr fun s hs => hsubs s hs pos hlow hpos
  | seq subs =>
    simp only [map, stopAt, List.foldlM_map]
    exact foldlM_mirrors hsubs hpart pos hlow hpos
  | rep s r =>
    have hs : s ∈ (Kind.rep s r).subs := List.mem_singleton_self s
    have hfuel : base + limit - (base + pos) = limit - pos := by omega
    simp only [map, stopAt, plainRepeat, hfuel,
      greedy_mirrors (hsubs s hs) (hpart s hs) r (limit - pos + 1) 0 hlow hpos]
    split <;> rfl
  | ctx d s => exact hsubs s (List.mem_singleton_self s) pos hlow hpos

/-! ## Trees -/

namespace Tree

variable {ν : Type} {t : Tree ν}

theorem plainAt_part (ht : t.Valid) (h : data.Frames start stop low limit) :
    Mirrors (8 * start) low limit (t.plainAt (data.extract start stop) limit)
      (t.plainAt data (8 * start + limit)) := by
  induction t using induct_subs with
  | node n k ih =>
    have hlimit : limit ≤ Buffer.bitSize (data.extract start stop) := by
      have hle := h.limit_le
      rw [Buffer.bitSize_extract h.stop_le]
      omega
    intro pos hlow hpos
    rw [plainAt_node, plainAt_node]
    exact Kind.stopAt_mirrors ht.root (Buffer.copies_extract h.limit_le)
      (fun a _ pos hlow hpos => Anchor.holds_part h hlow hpos a) (fun s hs => ih s hs (ht.sub hs))
      (fun s hs => (reads_plainAt (ht.sub hs) hlimit).forward) pos hlow hpos

theorem hasAnchors_node {n : ν} {k : Kind (Tree ν)} (h : (node n k).hasAnchors = false) :
    (∀ a, k ≠ .anchor a) ∧ ∀ s ∈ k.subs, s.hasAnchors = false := by
  have hany : ∀ ts : List (Tree ν), anyAnchors ts = ts.any hasAnchors := by
    intro ts
    induction ts with
    | nil => rfl
    | cons t ts ih => rw [anyAnchors, ih, List.any_cons]
  cases k with
  | anchor a => exact absurd h (by simp [hasAnchors])
  | alt ts | seq ts =>
    rw [hasAnchors, hany, List.any_eq_false] at h
    exact ⟨fun a => by simp, fun s hs => Bool.eq_false_of_not_eq_true (h s hs)⟩
  | rep t r | ctx d t => exact ⟨fun a => by simp, fun s hs => List.mem_singleton.1 hs ▸ h⟩
  | _ => exact ⟨fun a => by simp, fun s hs => absurd hs List.not_mem_nil⟩

/-- Without anchors, nothing but the bits matters. -/
theorem plainAt_copy (ht : t.Valid) (hanchors : t.hasAnchors = false)
    (hlimit : limit ≤ copy.bitSize) (h : copy.Copies data base limit) :
    Mirrors base 0 limit (t.plainAt copy limit) (t.plainAt data (base + limit)) := by
  induction t using induct_subs with
  | node n k ih =>
    obtain ⟨hroot, hsubs⟩ := hasAnchors_node hanchors
    intro pos hlow hpos
    rw [plainAt_node, plainAt_node]
    exact Kind.stopAt_mirrors ht.root h (fun a ha => absurd ha (hroot a))
      (fun s hs => ih s hs (ht.sub hs) (hsubs s hs))
      (fun s hs => (reads_plainAt (ht.sub hs) hlimit).forward) pos hlow hpos

end Tree

end

end Sigil
