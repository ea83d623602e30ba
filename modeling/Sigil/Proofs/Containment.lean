import Sigil.Proofs.Matching

namespace Sigil

inductive Fault where
  /-- An offset past the limit is subtracted from it. -/
  | pastLimit
  /-- A part of the buffer is taken that is not there. -/
  | outside
  /-- A count goes up that is the largest already. -/
  | overflow
  /-- A loop takes more steps than are left. -/
  | endless
deriving DecidableEq

abbrev Guarded := Except Fault

def demand (fault : Fault) (c : Prop) [Decidable c] : Guarded Unit :=
  if c then .ok () else .error fault

theorem demand_bind {α : Type} {c : Prop} [Decidable c] (h : c) (fault : Fault)
    (next : Unit → Guarded α) : demand fault c >>= next = next () := by
  rw [demand, if_pos h]
  rfl

/-! ## Matching with guards -/

def guardedGreedy (step : Nat → Guarded (Option Hit)) (r : Repeat) : (fuel : Nat) → Hit → Nat →
    Guarded (Hit × Nat)
  | 0, _, _ => .error .endless
  | fuel + 1, hit, count =>
    if r.max.any (· ≤ count) then .ok (hit, count)
    else do
      match ← step hit.stop with
      | none => return (hit, count)
      | some next =>
        demand .overflow (count < inf)
        if next.IsEmpty then return (hit.cover next, max (count + 1) r.min)
        else guardedGreedy step r fuel (hit.cover next) (count + 1)

def guardedRepeat (step : Nat → Guarded (Option Hit)) (r : Repeat) (pos limit : Nat) :
    Guarded (Option Hit) := do
  let (hit, count) ← guardedGreedy step r (limit - pos + 1) (.emptyAt pos) 0
  return if r.min ≤ count then some hit else none

namespace Tree

mutual

/-- Matches at `pos`. A matcher is given the whole bytes before the limit; the room before the limit
is told by a subtraction. -/
def guardedAt (data : Buffer) (limit : Nat) : Tree Note → Nat → Guarded (Option Hit)
  | .node note kind, pos =>
    match note.matcher with
    | some matcher => do
      demand .outside (Offset.toByte limit ≤ data.size)
      return (matcher (data.take (Offset.toByte limit)) pos .anchored).filter fun hit =>
        hit.offset == pos && decide (hit.stop ≤ limit)
    | none =>
      if note.sample.Defined then do
        demand .pastLimit (pos ≤ limit)
        if note.sample.low ≤ limit - pos then guardedKind data limit note.lead kind pos
        else return none
      else .ok none

/-- Matches one layer. A literal checks for itself that it fits, a range of bytes does not. -/
def guardedKind (data : Buffer) (limit : Nat) (lead : Fin 8) : Kind (Tree Note) → Nat →
    Guarded (Option Hit)
  | .lit l, pos =>
    if pos + l.length ≤ limit ∧ pos + l.length ≤ data.bitSize then do
      demand .outside (pos + l.length ≤ data.bitSize)
      return if l.occursAt lead data pos limit then some ⟨pos, l.length⟩ else none
    else .ok none
  | .any bits, pos => .ok (some ⟨pos, bits⟩)
  | .range lo hi, pos => do
    demand .outside (pos + 8 ≤ data.bitSize)
    return if (data.byteAt? pos).any fun b => decide (lo ≤ b ∧ b ≤ hi) then some ⟨pos, 8⟩ else none
  | .anchor a, pos => .ok (if a.holds data pos then some (.emptyAt pos) else none)
  | .alt subs, pos => guardedFirst data limit subs pos
  | .seq subs, pos => guardedInOrder data limit subs (.emptyAt pos)
  | .rep sub r, pos => guardedRepeat (guardedAt data limit sub) r pos limit
  | .ctx _ sub, pos => guardedAt data limit sub pos

def guardedFirst (data : Buffer) (limit : Nat) : List (Tree Note) → Nat → Guarded (Option Hit)
  | [], _ => .ok none
  | t :: ts, pos => do
    match ← guardedAt data limit t pos with
    | some hit => return some hit
    | none => guardedFirst data limit ts pos

def guardedInOrder (data : Buffer) (limit : Nat) : List (Tree Note) → Hit → Guarded (Option Hit)
  | [], hit => .ok (some hit)
  | t :: ts, hit => do
    match ← guardedAt data limit t hit.stop with
    | some next => guardedInOrder data limit ts (hit.cover next)
    | none => return none

end

def guardedSearchFrom (t : Tree Note) (data : Buffer) (limit : Nat) : (fuel pos : Nat) →
    Guarded (Option Hit)
  | 0, _ => .error .endless
  | fuel + 1, pos => do
    demand .outside (Offset.Aligned pos ∧ ¬ t.skips.IsTrivial → Offset.toByte limit ≤ data.size)
    let tried := t.nextOffset data (Offset.toByte limit) pos
    match ← t.guardedAt data limit tried with
    | some hit => return some hit
    | none =>
      if limit < tried + 8 then return none else guardedSearchFrom t data limit fuel (tried + 8)

def guardedIn (t : Tree Note) (data : Buffer) (region : BitRange) (mode : MatchMode) :
    Guarded (Option Hit) :=
  if ¬ region.Defined ∨ data.bitSize < region.low then .ok none
  else
    let region := region.clip data.bitSize
    match t.note.matcher, mode with
    | some matcher, _ => do
      demand .outside (Offset.toByte region.high ≤ data.size)
      return (matcher (data.take (Offset.toByte region.high)) region.low mode).filter fun hit =>
        decide (Fits hit region mode)
    | none, .anchored => t.guardedAt data region.high region.low
    | none, .full => do
      return (← t.guardedAt data region.high region.low).filter fun hit => hit.stop == region.high
    | none, .search => t.guardedSearchFrom data region.high (region.size / 8 + 1) region.low

end Tree

/-! ## Hits before a limit -/

def Hit.Within (hit : Hit) (pos limit : Nat) : Prop := hit.offset = pos ∧ pos + hit.length ≤ limit

namespace Hit

variable {hit next : Hit} {pos limit : Nat}

/-- Sums that stop at `inf` hide nothing below it. -/
theorem stop_eq_of_le (hinf : limit < inf) (hstop : hit.stop ≤ limit) :
    hit.stop = hit.offset + hit.length := by
  unfold stop satAdd at *
  omega

theorem within_emptyAt (hpos : pos ≤ limit) : (emptyAt pos).Within pos limit := ⟨rfl, hpos⟩

namespace Within

theorem stop_eq (h : hit.Within pos limit) (hinf : limit < inf) : hit.stop = pos + hit.length := by
  obtain ⟨hpos, hle⟩ := h
  rw [stop, hpos, satAdd_eq (hle.trans hinf.le)]

theorem stop_le (h : hit.Within pos limit) (hinf : limit < inf) : hit.stop ≤ limit := by
  rw [h.stop_eq hinf]
  exact h.2

/-- A hit and one that follows it are covered by a hit with the bits of both. -/
theorem cover (h : hit.Within pos limit) (hnext : next.Within hit.stop limit) (hinf : limit < inf) :
    (hit.cover next).Within pos limit ∧ (hit.cover next).stop = hit.stop + next.length := by
  have hstop := h.stop_eq hinf
  have hnext' := hnext.stop_eq hinf
  obtain ⟨hpos, -⟩ := h
  obtain ⟨hoffset, hle⟩ := hnext
  have hcover : hit.cover next = ⟨pos, hit.length + next.length⟩ := by
    unfold Hit.cover
    rw [hpos, hoffset, hnext', hstop]
    simp only [mk.injEq]
    omega
  have hwithin : (hit.cover next).Within pos limit := by
    rw [hcover]
    exact ⟨rfl, by dsimp only; omega⟩
  refine ⟨hwithin, ?_⟩
  rw [hwithin.stop_eq hinf, hcover, hstop]
  dsimp only
  omega

end Within

end Hit

/-! ## No guard fails -/

/-- No guard failed and the answer is the same. A hit lies between the offset and the limit. -/
structure Agrees (limit pos : Nat) (guarded : Guarded (Option Hit)) (answer : Option Hit) :
    Prop where
  eq_ok : guarded = .ok answer
  within : ∀ hit, answer = some hit → hit.Within pos limit

def Safe (limit : Nat) (guarded? : Nat → Guarded (Option Hit)) (match? : Nat → Option Hit) : Prop :=
  ∀ pos ≤ limit, Agrees limit pos (guarded? pos) (match? pos)

namespace Agrees

variable {limit pos : Nat} {hit : Hit}

theorem none : Agrees limit pos (.ok none) none := ⟨rfl, fun _ hhit => absurd hhit (by simp)⟩

theorem some (h : hit.Within pos limit) : Agrees limit pos (.ok (some hit)) (some hit) :=
  ⟨rfl, fun _ hhit => Option.some.inj hhit ▸ h⟩

theorem ite {c : Prop} [Decidable c] (h : hit.Within pos limit) :
    Agrees limit pos (.ok (if c then Option.some hit else Option.none))
      (if c then Option.some hit else Option.none) := by
  split
  case isTrue => exact some h
  case isFalse => exact none

end Agrees

section

variable {limit : Nat} {guarded? : Nat → Guarded (Option Hit)} {match? : Nat → Option Hit}

/-- Each application but the last moves towards the limit, and counts are no larger than the bits
that were passed. -/
theorem guardedGreedy_eq (hinf : limit < inf) (hstep : Safe limit guarded? match?) (r : Repeat)
    (fuel : Nat) {pos : Nat} {hit : Hit} (count : Nat) (hhit : hit.Within pos limit)
    (hfuel : limit - hit.stop < fuel) (hcount : count ≤ hit.stop) :
    guardedGreedy guarded? r fuel hit count = .ok (repeatGreedy match? r fuel hit count) ∧
      (repeatGreedy match? r fuel hit count).1.Within pos limit := by
  induction fuel generalizing hit count with
  | zero => omega
  | succ fuel ih =>
    unfold guardedGreedy repeatGreedy
    split
    case isTrue => exact ⟨rfl, hhit⟩
    case isFalse =>
      have hstop := hhit.stop_le hinf
      have hagrees := hstep hit.stop hstop
      rw [hagrees.eq_ok]
      cases hnext : match? hit.stop with
      | none => exact ⟨rfl, hhit⟩
      | some next =>
        obtain ⟨hcover, hcoverStop⟩ := hhit.cover (hagrees.within next hnext) hinf
        change (demand .overflow (count < inf) >>= _) = _ ∧ _
        rw [demand_bind (by omega)]
        dsimp only
        split
        case isTrue => exact ⟨rfl, hcover⟩
        case isFalse hmoved =>
          have hpositive : 0 < next.length := Nat.pos_of_ne_zero hmoved
          have hcoverLe := hcover.stop_le hinf
          exact ih (count + 1) hcover (by omega) (by omega)

theorem safe_matchRepeat (hinf : limit < inf) (hstep : Safe limit guarded? match?) (r : Repeat) :
    Safe limit (guardedRepeat guarded? r · limit) (matchRepeat match? r · limit) := by
  intro pos hpos
  have hstop : (Hit.emptyAt pos).stop = pos := (Hit.within_emptyAt hpos).stop_eq hinf
  obtain ⟨hguarded, hwithin⟩ :=
    guardedGreedy_eq hinf hstep r (limit - pos + 1) 0 (Hit.within_emptyAt hpos) (by omega)
      (Nat.zero_le _)
  dsimp only [guardedRepeat, matchRepeat]
  rw [hguarded]
  exact Agrees.ite hwithin

end

theorem Buffer.toByte_le_size {data : Buffer} {limit : Nat} (hlimit : limit ≤ data.bitSize) :
    Offset.toByte limit ≤ data.size := by
  unfold Offset.toByte
  unfold bitSize at hlimit
  omega

namespace Tree

variable {data : Buffer} {limit : Nat}

theorem safe_matchFirst {ts : List (Tree Note)}
    (h : ∀ t ∈ ts, Safe limit (guardedAt data limit t) (matchAt data limit t)) :
    Safe limit (guardedFirst data limit ts) (matchFirst data limit ts) := by
  intro pos hpos
  induction ts with
  | nil => exact Agrees.none
  | cons t ts ih =>
    have hagrees := h t List.mem_cons_self pos hpos
    unfold guardedFirst matchFirst
    rw [hagrees.eq_ok]
    cases hhit : matchAt data limit t pos with
    | some hit => exact Agrees.some (hagrees.within hit hhit)
    | none => exact ih fun s hs => h s (List.mem_cons_of_mem t hs)

theorem agrees_matchInOrder (hinf : limit < inf) {ts : List (Tree Note)}
    (h : ∀ t ∈ ts, Safe limit (guardedAt data limit t) (matchAt data limit t)) {pos : Nat}
    {hit : Hit} (hhit : hit.Within pos limit) :
    Agrees limit pos (guardedInOrder data limit ts hit) (matchInOrder data limit ts hit) := by
  induction ts generalizing hit with
  | nil => exact Agrees.some hhit
  | cons t ts ih =>
    have hagrees := h t List.mem_cons_self hit.stop (hhit.stop_le hinf)
    unfold guardedInOrder matchInOrder
    rw [hagrees.eq_ok]
    cases hnext : matchAt data limit t hit.stop with
    | none => exact Agrees.none
    | some next =>
      exact ih (fun s hs => h s (List.mem_cons_of_mem t hs))
        (hhit.cover (hagrees.within next hnext) hinf).1

/-- Where the shortest instance fits, so do the bits and bytes that the layer takes without
looking. -/
theorem agrees_matchKind {k : Kind (Tree Note)} (hlimit : limit ≤ data.bitSize) (hinf : limit < inf)
    (hsubs : ∀ s ∈ k.subs, Safe limit (guardedAt data limit s) (matchAt data limit s)) {pos : Nat}
    (hpos : pos ≤ limit) (hlow : (k.map fun t => t.deduced.sample).sample.low ≤ limit - pos)
    (lead : Fin 8) :
    Agrees limit pos (guardedKind data limit lead k pos) (matchKind data limit lead k pos) := by
  unfold guardedKind matchKind
  cases k with
  | lit l =>
    dsimp only
    by_cases hfits : pos + l.length ≤ limit ∧ pos + l.length ≤ data.bitSize
    · rw [if_pos hfits, demand_bind hfits.2]
      exact Agrees.ite ⟨rfl, hfits.1⟩
    · have hnot : l.occursAt lead data pos limit = false := by
        rw [Literal.occursAt, decide_eq_false hfits, Bool.false_and]
      rw [if_neg hfits, hnot]
      exact Agrees.none
  | any bits =>
    have hfits : pos + bits ≤ limit := by
      simp only [Kind.map, Kind.sample, BitRange.fixed] at hlow
      omega
    exact Agrees.some ⟨rfl, hfits⟩
  | range lo hi =>
    have hfits : pos + 8 ≤ limit := by
      simp only [Kind.map, Kind.sample, BitRange.fixed] at hlow
      omega
    dsimp only
    rw [demand_bind (hfits.trans hlimit)]
    exact Agrees.ite ⟨rfl, hfits⟩
  | anchor a => exact Agrees.ite (Hit.within_emptyAt hpos)
  | alt subs => exact safe_matchFirst hsubs pos hpos
  | seq subs => exact agrees_matchInOrder hinf hsubs (Hit.within_emptyAt hpos)
  | rep s r => exact safe_matchRepeat hinf (hsubs s (List.mem_singleton_self s)) r pos hpos
  | ctx d s => exact hsubs s (List.mem_singleton_self s) pos hpos

/-- Matchers are not believed, and everything else is within the lengths that the summaries tell. -/
theorem safe_matchAt {t : Tree Note} (hfaithful : t.Faithful) (hlimit : limit ≤ data.bitSize)
    (hinf : limit < inf) : Safe limit (guardedAt data limit t) (matchAt data limit t) := by
  induction t using induct_subs with
  | node note k ih =>
    intro pos hpos
    unfold guardedAt matchAt
    cases note.matcher with
    | some matcher =>
      dsimp only
      rw [demand_bind (Buffer.toByte_le_size hlimit)]
      refine ⟨rfl, fun hit hhit => ?_⟩
      have hfilter := (Option.filter_eq_some_iff.1 hhit).2
      rw [Bool.and_eq_true, beq_iff_eq, decide_eq_true_iff] at hfilter
      obtain ⟨hoffset, hstop⟩ := hfilter
      rw [Hit.stop_eq_of_le hinf hstop, hoffset] at hstop
      exact ⟨hoffset, hstop⟩
    | none =>
      have hsample : note.sample = (k.map fun t => t.deduced.sample).sample := by
        rw [← deduced_sample note k, ← hfaithful.root]
        rfl
      dsimp only
      by_cases hdefined : note.sample.Defined
      · rw [if_pos hdefined, demand_bind hpos]
        by_cases hlow : note.sample.low ≤ limit - pos
        · rw [if_pos hlow, if_pos ⟨hdefined, hlow⟩]
          exact agrees_matchKind hlimit hinf (fun s hs => ih s hs (hfaithful.sub hs)) hpos
            (hsample ▸ hlow) note.lead
        · rw [if_neg hlow, if_neg fun h => hlow h.2]
          exact Agrees.none
      · rw [if_neg hdefined, if_neg fun h => hdefined h.1]
        exact Agrees.none

/-- A search stays before the limit as well: each offset that it tries does, and the next one is
eight bits further. -/
theorem guardedSearchFrom_eq {t : Tree Note} (hfaithful : t.Faithful)
    (hlimit : limit ≤ data.bitSize) (hinf : limit < inf) (fuel : Nat) {pos : Nat}
    (hpos : pos ≤ limit) (hfuel : (limit - pos) / 8 < fuel) :
    t.guardedSearchFrom data limit fuel pos = .ok (t.searchFrom data limit fuel pos) ∧
      ∀ hit, t.searchFrom data limit fuel pos = some hit → pos ≤ hit.offset ∧
        hit.offset + hit.length ≤ limit := by
  induction fuel generalizing pos with
  | zero => omega
  | succ fuel ih =>
    obtain ⟨passed, htried, hle, -⟩ := t.nextOffset_spec data hpos
    have hagrees := safe_matchAt hfaithful hlimit hinf (pos + 8 * passed) hle
    unfold guardedSearchFrom searchFrom
    rw [demand_bind fun _ => Buffer.toByte_le_size hlimit, htried]
    dsimp only
    rw [hagrees.eq_ok]
    cases hhit : matchAt data limit t (pos + 8 * passed) with
    | some hit =>
      obtain ⟨hoffset, hstop⟩ := hagrees.within hit hhit
      refine ⟨rfl, fun hit' hhit' => ?_⟩
      rw [← Option.some.inj hhit', hoffset]
      exact ⟨Nat.le_add_right .., hstop⟩
    | none =>
      dsimp only
      split
      case isTrue => exact ⟨rfl, fun hit' hhit' => absurd hhit' (by simp)⟩
      case isFalse hend =>
        have hnext : pos + 8 * passed + 8 ≤ limit := Nat.not_lt.1 hend
        obtain ⟨hrest, hinside⟩ := ih hnext (by omega)
        refine ⟨hrest, fun hit' hhit' => ?_⟩
        obtain ⟨hoffset, hstop⟩ := hinside hit' hhit'
        exact ⟨by omega, hstop⟩

/-- No guard fails in a region of a buffer, and hits lie in the region as the mode asks for. -/
theorem guardedIn_eq {t : Tree Note} (hfaithful : t.Faithful) (hinf : data.bitSize < inf)
    (region : BitRange) (mode : MatchMode) :
    t.guardedIn data region mode = .ok (t.matchIn data region mode) ∧
      ∀ hit, t.matchIn data region mode = some hit →
        region.low ≤ hit.offset ∧ hit.offset + hit.length ≤ min region.high data.bitSize ∧
          (mode ≠ .search → hit.offset = region.low) ∧
          (mode = .full → hit.offset + hit.length = min region.high data.bitSize) := by
  unfold guardedIn matchIn
  split
  case isTrue => exact ⟨rfl, fun hit hhit => absurd hhit (by simp)⟩
  case isFalse hregion =>
    rw [not_or, not_not, Nat.not_lt] at hregion
    obtain ⟨hdefined, hlow⟩ := hregion
    rw [BitRange.clip_eq hdefined hlow]
    have hpos : region.low ≤ min region.high data.bitSize := Nat.le_min.2 ⟨hdefined, hlow⟩
    have hlimit : min region.high data.bitSize ≤ data.bitSize := Nat.min_le_right ..
    have hlimitInf : min region.high data.bitSize < inf := hlimit.trans_lt hinf
    generalize min region.high data.bitSize = limit at *
    have hagrees := safe_matchAt hfaithful hlimit hlimitInf region.low hpos
    dsimp only
    cases t.note.matcher with
    | some matcher =>
      dsimp only
      rw [demand_bind (Buffer.toByte_le_size hlimit)]
      refine ⟨rfl, fun hit hhit => ?_⟩
      have hfits : Fits hit ⟨region.low, limit⟩ mode :=
        of_decide_eq_true (Option.filter_eq_some_iff.1 hhit).2
      obtain ⟨hoffset, hstop, hanchored, hfull⟩ := hfits
      have hsum := Hit.stop_eq_of_le hlimitInf hstop
      exact ⟨hoffset, hsum ▸ hstop, hanchored, fun hmode => hsum ▸ hfull hmode⟩
    | none =>
      cases mode with
      | anchored =>
        refine ⟨hagrees.eq_ok, fun hit hhit => ?_⟩
        obtain ⟨hoffset, hstop⟩ := hagrees.within hit hhit
        exact ⟨hoffset.ge, hoffset ▸ hstop, fun _ => hoffset, fun hmode => absurd hmode (by decide)⟩
      | full =>
        dsimp only
        rw [hagrees.eq_ok]
        refine ⟨rfl, fun hit hhit => ?_⟩
        obtain ⟨hmatch, hend⟩ := Option.filter_eq_some_iff.1 hhit
        obtain ⟨hoffset, hstop⟩ := hagrees.within hit hmatch
        have hsum := (hagrees.within hit hmatch).stop_eq hlimitInf
        rw [beq_iff_eq, hsum] at hend
        exact ⟨hoffset.ge, hoffset ▸ hstop, fun _ => hoffset, fun _ => hoffset ▸ hend⟩
      | search =>
        obtain ⟨hsearch, hinside⟩ :=
          guardedSearchFrom_eq hfaithful hlimit hlimitInf ((limit - region.low) / 8 + 1) hpos
            (Nat.lt_succ_self _)
        refine ⟨hsearch, fun hit hhit => ?_⟩
        obtain ⟨hoffset, hstop⟩ := hinside hit hhit
        exact ⟨hoffset, hstop, fun hmode => absurd rfl hmode, fun hmode => absurd hmode (by decide)⟩

end Tree

end Sigil
