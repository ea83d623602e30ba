import Sigil.Proofs.Pool.Interning
import Sigil.Proofs.Rules

namespace Sigil.Pool

variable {p q r : Pool} {id m n : PatternId} {k : Kind PatternId}

/-- What a node becomes is canonical, or a valid layer over canonical patterns, and means `m` if no
literal is stored out of line: single bytes are read off the storage of their literals. -/
def Means (p : Pool) (m : Meaning) : Simplified → Prop
  | .existing id => p.isCanonical id = true ∧ (p.Aligned → p.meaning id = m)
  | .kind k =>
    k.Valid ∧ (∀ s ∈ k.subs, p.isCanonical s = true) ∧ (p.Aligned → (k.map p.meaning).meaning = m)

theorem means_terminal {k' : Kind PatternId} {m : Meaning} (hk : k'.Valid) (hsubs : k'.subs = [])
    (hmeaning : p.Aligned → (k'.map p.meaning).meaning = m) : p.Means m (.kind k') :=
  ⟨hk, by simp [hsubs], hmeaning⟩

/-! ## Alternations -/

theorem ofBytes_of_addBytes? (h : p.WellFormed) (haligned : p.Aligned) {start bytes : ByteSet}
    (hbytes : p.addBytes? start id = some bytes) :
    Meaning.ofBytes bytes = Meaning.ofBytes start + p.meaning id := by
  obtain ⟨kind, hkind, hadded⟩ := Option.bind_eq_some_iff.1 hbytes
  rw [h.meaning_eq hkind]
  split at hadded
  case h_1 l =>
    split at hadded
    case isTrue hl =>
      have hbyte : l.bits = Bits.ofByte l.bits.leadingByte := (Bits.ofByte_leadingByte hl.2).symm
      have hfirst : l.bits.toBytes.headD 0 = l.bits.leadingByte := by
        rw [hbyte, Bits.leadingByte_ofByte, ← List.append_nil (Bits.ofByte _),
          Bits.toBytes_ofByte_append]
        rfl
      rw [← Option.some.inj hadded, haligned, Literal.stored_zero, hfirst]
      change _ = _ + (Kind.lit l).meaning
      rw [Meaning.lit_eq_ofBytes hl.1 hl.2, ← Meaning.ofBytes_union]
      apply Meaning.ofBytes_congr
      intro b
      rw [ByteSet.contains_union, ByteSet.contains_insert, ByteSet.contains_insert,
        ByteSet.contains_empty, Bool.false_or]
    case isFalse => exact absurd hadded (by simp)
  case h_2 lo hi =>
    rw [← Option.some.inj hadded]
    change _ = _ + (Kind.range lo hi).meaning
    rw [Meaning.range_eq_ofBytes, ← Meaning.ofBytes_union]
  case h_3 => exact absurd hadded (by simp)

theorem ofBytes_of_foldlM (h : p.WellFormed) (haligned : p.Aligned) {ids : List PatternId}
    {start bytes : ByteSet} (hbytes : ids.foldlM p.addBytes? start = some bytes) :
    Meaning.ofBytes bytes = Meaning.ofBytes start + (ids.map p.meaning).sum := by
  induction ids generalizing start with
  | nil => rw [List.map_nil, List.sum_nil, add_zero, Option.some.inj hbytes]
  | cons id ids ih =>
    rw [List.foldlM_cons, Option.bind_eq_bind, Option.bind_eq_some_iff] at hbytes
    obtain ⟨next, hnext, hrest⟩ := hbytes
    rw [ih hrest, ofBytes_of_addBytes? h haligned hnext, List.map_cons, List.sum_cons, add_assoc]

theorem ofBytes_of_singleBytes? (h : p.WellFormed) (haligned : p.Aligned) {ids : List PatternId}
    {bytes : ByteSet} (hbytes : p.singleBytes? ids = some bytes) :
    Meaning.ofBytes bytes = (ids.map p.meaning).sum := by
  rw [ofBytes_of_foldlM h haligned hbytes, Meaning.ofBytes_empty, zero_add]

/-- A set without gaps is a range, or any byte. -/
theorem means_ofRun? {bytes : ByteSet} {m : Meaning} (h : ofRun? bytes = some k)
    (hbytes : p.Aligned → Meaning.ofBytes bytes = m) : p.Means m (.kind k) := by
  unfold ofRun? at h
  split at h
  case h_2 => exact absurd h (by simp)
  case h_1 lo hi hruns =>
    obtain ⟨hle, hcontains⟩ := ByteSet.eq_range_of_runs hruns
    rw [← Option.some.inj h]
    split
    case isTrue hfull =>
      have hvalid : (Kind.any 8 : Kind PatternId).Valid := (by decide : 0 < 8)
      refine means_terminal hvalid rfl fun haligned => ?_
      show (Kind.any 8).meaning = _
      rw [← hbytes haligned, Meaning.any_eq_ofBytes, show bytes = .all from hfull]
    case isFalse =>
      have hvalid : (Kind.range lo hi : Kind PatternId).Valid := hle
      refine means_terminal hvalid rfl fun haligned => ?_
      show (Kind.range lo hi).meaning = _
      rw [← hbytes haligned, Meaning.range_eq_ofBytes]
      apply Meaning.ofBytes_congr
      intro b
      rw [Bool.eq_iff_iff, ByteSet.contains_ofRange, decide_eq_true_iff, hcontains]

theorem mem_distinct {ids : List PatternId} : n ∈ distinct ids ↔ n ∈ ids := by
  -- with what was seen before
  have hfold : ∀ seen : List PatternId,
      n ∈ ids.foldl (fun seen id => if id ∈ seen then seen else id :: seen) seen ↔ n ∈ seen ∨
        n ∈ ids := by
    induction ids with
    | nil => simp
    | cons id ids ih =>
      intro seen
      rw [List.foldl_cons, ih, List.mem_cons]
      split
      case isTrue hid =>
        constructor
        · exact fun h => h.imp_right Or.inr
        · rintro (h | rfl | h)
          · exact Or.inl h
          · exact Or.inl hid
          · exact Or.inr h
      case isFalse => rw [List.mem_cons, or_assoc, or_left_comm]
  rw [distinct, List.mem_reverse, hfold]
  simp

theorem sum_alternatives (h : p.WellFormed) (id : PatternId) :
    ((p.alternatives id).map p.meaning).sum = p.meaning id := by
  unfold alternatives
  split
  case h_1 inner hkind =>
    rw [h.meaning_eq hkind]
    exact (Kind.meaning_alt _).symm
  case h_2 => rw [List.map_singleton, List.sum_singleton]

theorem isCanonical_alternatives (h : p.WellFormed) (hid : p.isCanonical id = true) :
    ∀ s ∈ p.alternatives id, p.isCanonical s = true := by
  unfold alternatives
  split
  case h_1 inner hkind => exact fun s hs => h.canonical_sub id s ⟨_, hkind, hs⟩ hid
  case h_2 =>
    intro s hs
    rwa [List.mem_singleton.1 hs]

theorem means_simplifyAlt (h : p.WellFormed) {subs : List PatternId}
    (hsubs : ∀ s ∈ subs, p.isCanonical s = true) :
    p.Means ((Kind.alt subs).map p.meaning).meaning (p.simplifyAlt subs) := by
  have hflat : ∀ s ∈ distinct (subs.flatMap p.alternatives), p.isCanonical s = true := by
    intro s hs
    rw [mem_distinct, List.mem_flatMap] at hs
    obtain ⟨sub, hsub, hs⟩ := hs
    exact isCanonical_alternatives h (hsubs sub hsub) s hs
  have hsum : ((distinct (subs.flatMap p.alternatives)).map p.meaning).sum =
      (subs.map p.meaning).sum := by
    rw [distinct, Meaning.sum_distinct, List.reverse_nil, List.map_nil, List.sum_nil, zero_add,
      Meaning.sum_flatMap (sum_alternatives h)]
  rw [show ((Kind.alt subs).map p.meaning).meaning =
    (subs.map p.meaning).sum from Kind.meaning_alt _, ← hsum]
  unfold simplifyAlt
  generalize distinct (subs.flatMap p.alternatives) = flat at hflat
  split
  case h_1 only =>
    exact ⟨hflat only (List.mem_singleton_self only),
      fun _ => by rw [List.map_singleton, List.sum_singleton]⟩
  case h_2 =>
    -- several alternatives, which may all be single bytes in a row
    cases hrun : (p.singleBytes? flat).bind ofRun? with
    | none => exact ⟨trivial, hflat, fun _ => Kind.meaning_alt _⟩
    | some k =>
      obtain ⟨bytes, hbytes, hk⟩ := Option.bind_eq_some_iff.1 hrun
      exact means_ofRun? hk fun haligned => ofBytes_of_singleBytes? h haligned hbytes

/-! ## Sequences -/

def pushAll (state : List PatternId × Pool) (ids : List PatternId) : List PatternId × Pool :=
  ids.foldl (fun (reversed, q) element => q.pushFused reversed element) state

def pushSubs (state : List PatternId × Pool) (subs : List PatternId) : List PatternId × Pool :=
  subs.foldl (fun (reversed, q) sub => pushAll (reversed, q) (q.elements sub)) state

def joined : List PatternId → Simplified
  | [only] => .existing only
  | flat => .kind (.seq flat)

theorem pushAll_cons (state : List PatternId × Pool) (id : PatternId) (ids : List PatternId) :
    pushAll state (id :: ids) = pushAll (state.2.pushFused state.1 id) ids := rfl

theorem pushAll_append (state : List PatternId × Pool) (ids ids' : List PatternId) :
    pushAll state (ids ++ ids') = pushAll (pushAll state ids) ids' := List.foldl_append

theorem pushSubs_cons (state : List PatternId × Pool) (sub : PatternId) (subs : List PatternId) :
    pushSubs state (sub :: subs) = pushSubs (pushAll state (state.2.elements sub)) subs := rfl

theorem simplifySeq_eq (p : Pool) (subs : List PatternId) :
    p.simplifySeq subs = (joined (pushSubs ([], p) subs).1.reverse, (pushSubs ([], p) subs).2) := by
  rw [simplifySeq]
  change (match pushSubs ([], p) subs with
    | (reversed, q) => match reversed.reverse with
      | [only] => (Simplified.existing only, q)
      | flat => (.kind (.seq flat), q)) = _
  obtain ⟨reversed, q⟩ := pushSubs ([], p) subs
  dsimp only
  unfold joined
  split <;> rfl

/-- The state of a sequence that is being joined: a pool that grew out of `p`, and canonical
patterns that mean `m` in turn, the last one first. -/
structure Joins (p : Pool) (m : Meaning) (state : List PatternId × Pool) : Prop where
  refines : Refines (fun _ => False) p state.2
  canonical : ∀ s ∈ state.1, state.2.isCanonical s = true
  meaning : (state.1.reverse.map state.2.meaning).prod = m

theorem fuse?_eq_some {first second : PatternId} {l : Literal} (h : p.fuse? first second = some l) :
    ∃ a b, p.kind? first = some (.lit a) ∧ p.kind? second = some (.lit b) ∧ a.Fuses b ∧
      l = a.append b := by
  obtain ⟨kind, hfirst, hrest⟩ := Option.bind_eq_some_iff.1 h
  obtain ⟨kind', hsecond, hfused⟩ := Option.bind_eq_some_iff.1 hrest
  clear h hrest
  split at hfused
  case h_1 a b =>
    split at hfused
    case isTrue hfuses => exact ⟨a, b, hfirst, hsecond, hfuses, (Option.some.inj hfused).symm⟩
    case isFalse => exact absurd hfused (by simp)
  case h_2 => exact absurd hfused (by simp)

theorem valid_append {a b : Literal} (ha : (Kind.lit a : Kind PatternId).Valid) (h : a.Fuses b) :
    (Kind.lit (a.append b) : Kind PatternId).Valid := by
  constructor
  · intro hempty
    exact ha.1 (List.append_eq_nil_iff.1 hempty).1
  by_cases hplain : a.IsPlain
  · exact Or.inl hplain
  · obtain ⟨hwhole, hwhole'⟩ := h.wholeBytes hplain
    right
    unfold Bits.WholeBytes at hwhole hwhole' ⊢
    rw [Literal.append]
    dsimp only
    rw [List.length_append]
    omega

theorem Joins.pushFused {m : Meaning} {reversed : List PatternId} (h : Joins p m (reversed, q))
    (hid : p.isCanonical id = true) : Joins p (m * p.meaning id) (q.pushFused reversed id) := by
  have hq : q.isCanonical id = true := h.refines.isCanonical id hid
  have hmeaning : q.meaning id = p.meaning id := h.refines.meaning (contains_of_isCanonical hid)
  have hpush : Joins p (m * p.meaning id) (id :: reversed, q) := by
    refine ⟨h.refines, List.forall_mem_cons.2 ⟨hq, h.canonical⟩, ?_⟩
    rw [List.reverse_cons, List.map_append, List.prod_append, h.meaning, List.map_singleton,
      List.prod_singleton, hmeaning]
  cases reversed with
  | nil => exact hpush
  | cons last before =>
    rw [Pool.pushFused]
    cases hfuse : q.fuse? last id with
    | none => exact hpush
    | some l =>
      obtain ⟨a, b, ha, hb, hfuses, rfl⟩ := fuse?_eq_some hfuse
      have hwf : q.WellFormed := h.refines.wellFormed
      obtain ⟨hrefines, hkind, hcanonical⟩ :=
        hwf.intern (valid_append (hwf.valid last _ ha) hfuses) (by simp [Kind.subs])
          (fun haligned => haligned last) none
      have hbefore : ∀ s ∈ before, q.isCanonical s = true := fun s hs =>
        h.canonical s (List.mem_cons_of_mem last hs)
      have hsame : before.reverse.map (q.intern (.lit (a.append b)) (q.lead last) none).2.meaning =
          before.reverse.map q.meaning := by
        apply List.map_congr_left
        intro s hs
        exact hrefines.meaning (contains_of_isCanonical (hbefore s (List.mem_reverse.1 hs)))
      -- the joined literal means the last pattern followed by the new one
      have hjoined : (q.intern (.lit (a.append b)) (q.lead last) none).2.meaning
          (q.intern (.lit (a.append b)) (q.lead last) none).1 = q.meaning last * q.meaning id := by
        rw [hrefines.wellFormed.meaning_eq hkind, hwf.meaning_eq ha, hwf.meaning_eq hb]
        exact Meaning.lit_append hfuses
      have hm : (before.reverse.map q.meaning).prod * q.meaning last = m := by
        rw [← h.meaning, List.reverse_cons, List.map_append, List.prod_append, List.map_singleton,
          List.prod_singleton]
      refine ⟨h.refines.trans (hrefines.mono ?_), List.forall_mem_cons.2 ⟨hcanonical, ?_⟩, ?_⟩
      · exact fun n hn => absurd hn.1 (by simp)
      · exact fun s hs => hrefines.isCanonical s (hbefore s hs)
      · dsimp only
        rw [List.reverse_cons, List.map_append, List.prod_append, List.map_singleton,
          List.prod_singleton, hjoined, hsame, ← mul_assoc, hm, hmeaning]

theorem Joins.pushAll {m : Meaning} {state : List PatternId × Pool} (h : Joins p m state)
    {ids : List PatternId} (hids : ∀ id ∈ ids, p.isCanonical id = true) :
    Joins p (m * (ids.map p.meaning).prod) (Pool.pushAll state ids) := by
  induction ids generalizing m state with
  | nil => rwa [List.map_nil, List.prod_nil, mul_one]
  | cons id ids ih =>
    rw [List.map_cons, List.prod_cons, ← mul_assoc]
    exact ih (h.pushFused (hids id List.mem_cons_self)) fun s hs =>
      hids s (List.mem_cons_of_mem id hs)

theorem elements_congr (h : q.kind? id = p.kind? id) : q.elements id = p.elements id := by
  rw [elements, h, elements]

theorem prod_elements (h : p.WellFormed) (id : PatternId) :
    ((p.elements id).map p.meaning).prod = p.meaning id := by
  unfold elements
  split
  case h_1 inner hkind =>
    rw [h.meaning_eq hkind]
    exact (Kind.meaning_seq _).symm
  case h_2 => rw [List.map_singleton, List.prod_singleton]

theorem prod_flatMap_elements (h : p.WellFormed) (subs : List PatternId) :
    ((subs.flatMap p.elements).map p.meaning).prod = (subs.map p.meaning).prod := by
  induction subs with
  | nil => rfl
  | cons sub subs ih =>
    rw [List.flatMap_cons, List.map_append, List.prod_append, prod_elements h, ih, List.map_cons,
      List.prod_cons]

theorem isCanonical_elements (h : p.WellFormed) (hid : p.isCanonical id = true) :
    ∀ s ∈ p.elements id, p.isCanonical s = true := by
  unfold elements
  split
  case h_1 inner hkind => exact fun s hs => h.canonical_sub id s ⟨_, hkind, hs⟩ hid
  case h_2 =>
    intro s hs
    rwa [List.mem_singleton.1 hs]

theorem isCanonical_flatMap_elements (h : p.WellFormed) {subs : List PatternId}
    (hsubs : ∀ s ∈ subs, p.isCanonical s = true) :
    ∀ s ∈ subs.flatMap p.elements, p.isCanonical s = true := by
  intro s hs
  obtain ⟨sub, hsub, hs⟩ := List.mem_flatMap.1 hs
  exact isCanonical_elements h (hsubs sub hsub) s hs

/-- The elements can be told before anything is joined: the pool grows, but this does not change
what canonical patterns are. -/
theorem Joins.pushSubs_eq (hp : p.WellFormed) {m : Meaning} {state : List PatternId × Pool}
    (h : Joins p m state) {subs : List PatternId} (hsubs : ∀ s ∈ subs, p.isCanonical s = true) :
    pushSubs state subs = Pool.pushAll state (subs.flatMap p.elements) := by
  induction subs generalizing m state with
  | nil => rfl
  | cons sub subs ih =>
    have hsub := hsubs sub List.mem_cons_self
    have helements : state.2.elements sub = p.elements sub :=
      elements_congr (h.refines.kind? sub (contains_of_isCanonical hsub))
    rw [pushSubs_cons, helements, List.flatMap_cons, pushAll_append]
    exact ih (h.pushAll (isCanonical_elements hp hsub)) fun s hs =>
      hsubs s (List.mem_cons_of_mem sub hs)

theorem WellFormed.joins_start (h : p.WellFormed) : Joins p 1 (([] : List PatternId), p) :=
  ⟨Refines.refl h, List.forall_mem_nil _, rfl⟩

theorem WellFormed.joins_pushSubs (h : p.WellFormed) {subs : List PatternId}
    (hsubs : ∀ s ∈ subs, p.isCanonical s = true) :
    Joins p (subs.map p.meaning).prod (pushSubs ([], p) subs) := by
  have hjoins := h.joins_start.pushAll (isCanonical_flatMap_elements h hsubs)
  rwa [← h.joins_start.pushSubs_eq h hsubs, one_mul, prod_flatMap_elements h] at hjoins

/-- All that joining does to the pool is to make literals out of others. -/
theorem pushAll_rel {R : Pool → Pool → Prop} (refl : ∀ p, R p p)
    (trans : ∀ p q r, R p q → R q r → R p r)
    (fuse : ∀ p l last, R p (p.intern (.lit l) (p.lead last) none).2) (ids : List PatternId)
    (state : List PatternId × Pool) : R state.2 (pushAll state ids).2 := by
  have hfused : ∀ (q : Pool) (reversed : List PatternId) (id : PatternId),
      R q (q.pushFused reversed id).2 := by
    intro q reversed id
    cases reversed with
    | nil => exact refl q
    | cons last before =>
      rw [pushFused]
      split
      case h_1 l _ => exact fuse q l last
      case h_2 => exact refl q
  induction ids generalizing state with
  | nil => exact refl state.2
  | cons id ids ih => exact trans _ _ _ (hfused state.2 state.1 id) (ih _)

def Answers (p : Pool) (m : Meaning) (answer : Simplified × Pool) : Prop :=
  Refines (fun _ => False) p answer.2 ∧ answer.2.Means m answer.1

theorem answers_simplifySeq (h : p.WellFormed) {subs : List PatternId}
    (hsubs : ∀ s ∈ subs, p.isCanonical s = true) :
    p.Answers ((Kind.seq subs).map p.meaning).meaning (p.simplifySeq subs) := by
  have hjoins := h.joins_pushSubs hsubs
  rw [simplifySeq_eq, show ((Kind.seq subs).map p.meaning).meaning =
    (subs.map p.meaning).prod from Kind.meaning_seq _]
  generalize pushSubs ([], p) subs = state at hjoins ⊢
  obtain ⟨reversed, q⟩ := state
  have hcanonical : ∀ s ∈ reversed.reverse, q.isCanonical s = true := fun s hs =>
    hjoins.canonical s (List.mem_reverse.1 hs)
  have hmeaning := hjoins.meaning
  dsimp only at hmeaning ⊢
  rw [← hmeaning]
  generalize reversed.reverse = flat at hcanonical
  unfold joined
  split
  case h_1 only =>
    refine ⟨hjoins.refines, hcanonical only (List.mem_singleton_self only), fun _ => ?_⟩
    rw [List.map_singleton, List.prod_singleton]
  case h_2 => exact ⟨hjoins.refines, trivial, hcanonical, fun _ => Kind.meaning_seq _⟩

/-! ## Repetitions -/

theorem means_simplifyRep (h : p.WellFormed) {sub : PatternId} (hsub : p.isCanonical sub = true)
    {r : Repeat} (hr : r.AtMost r.min) :
    p.Means ((Kind.rep sub r).map p.meaning).meaning (p.simplifyRep sub r) := by
  have hkeep : p.Means ((Kind.rep sub r).map p.meaning).meaning (.kind (.rep sub r)) :=
    ⟨hr, by simpa [Kind.subs] using hsub, fun _ => rfl⟩
  unfold simplifyRep
  split
  case isTrue hone =>
    rw [hone]
    exact ⟨hsub, fun _ => (Meaning.rep_exactly_one _).symm⟩
  case isFalse =>
    split
    case isTrue hzero =>
      have hr' : r = ⟨0, some 0⟩ := by
        obtain ⟨min, max⟩ := r
        have hmin : min ≤ 0 := hr 0 hzero
        rw [Nat.le_zero.1 hmin, show max = some 0 from hzero]
      rw [hr']
      exact means_terminal trivial rfl fun _ => (Meaning.rep_max_zero (p.meaning sub)).symm
    case isFalse hzero =>
      split
      case h_2 => exact hkeep
      case h_1 bits hkind hfixed =>
        split
        case isFalse => exact hkeep
        case isTrue =>
          have hmax : r.max = some r.min := of_decide_eq_true hfixed
          -- a fixed count of zero was dealt with above
          have hmin : r.min ≠ 0 := by
            intro hmin
            rw [hmin] at hmax
            exact hzero hmax
          have hbits : 0 < bits := h.valid sub _ hkind
          have hr' : r = .exactly r.min := by
            obtain ⟨min, max⟩ := r
            rw [show max = some min from hmax]
            rfl
          have hvalid : (Kind.any (bits * r.min) : Kind PatternId).Valid :=
            Nat.mul_pos hbits (Nat.pos_of_ne_zero hmin)
          refine means_terminal hvalid rfl fun _ => ?_
          have hrule := Meaning.rep_any hbits hmin
          rw [← hr'] at hrule
          show (Kind.any (bits * r.min)).meaning = (Kind.rep (p.meaning sub) r).meaning
          rw [← hrule, h.meaning_eq hkind]
          rfl

/-! ## All rules -/

/-- Every rule keeps the meaning. -/
theorem answers_simplify (h : p.WellFormed) (hk : k.Valid)
    (hsubs : ∀ s ∈ k.subs, p.isCanonical s = true) :
    p.Answers (k.map p.meaning).meaning (p.simplify k) := by
  have hkeep : p.Means (k.map p.meaning).meaning (.kind k) := ⟨hk, hsubs, fun _ => rfl⟩
  cases k with
  | lit l => exact ⟨Refines.refl h, hkeep⟩
  | any bits => exact ⟨Refines.refl h, hkeep⟩
  | anchor a => exact ⟨Refines.refl h, hkeep⟩
  | alt subs => exact ⟨Refines.refl h, means_simplifyAlt h hsubs⟩
  | seq subs => exact answers_simplifySeq h hsubs
  | rep sub r =>
    exact ⟨Refines.refl h, means_simplifyRep h (hsubs sub (List.mem_singleton_self sub)) hk⟩
  | range lo hi =>
    refine ⟨Refines.refl h, ?_⟩
    rw [simplify]
    dsimp only
    split
    case isTrue hfull =>
      obtain ⟨rfl, rfl⟩ := hfull
      exact means_terminal (by decide : (0 : Nat) < 8) rfl fun _ => Meaning.fullRange_eq_any.symm
    case isFalse => exact hkeep
  | ctx d sub =>
    have hsub := hsubs sub (List.mem_singleton_self sub)
    refine ⟨Refines.refl h, ?_⟩
    rw [simplify]
    dsimp only
    split
    case h_1 =>
      split
      case isTrue => exact ⟨hsub, fun _ => rfl⟩
      case isFalse => exact hkeep
    case h_2 => exact hkeep

/-- All that a rule does to the pool is to make literals out of others. -/
theorem simplify_rel {R : Pool → Pool → Prop} (refl : ∀ p, R p p)
    (trans : ∀ p q r, R p q → R q r → R p r)
    (fuse : ∀ p l last, R p (p.intern (.lit l) (p.lead last) none).2) (p : Pool)
    (k : Kind PatternId) : R p (p.simplify k).2 := by
  have hall : ∀ (ids : List PatternId) (state : List PatternId × Pool),
      R state.2 (pushAll state ids).2 :=
    pushAll_rel refl trans fuse
  have hsubs : ∀ (subs : List PatternId) (state : List PatternId × Pool),
      R state.2 (pushSubs state subs).2 := by
    intro subs
    induction subs with
    | nil => exact fun state => refl state.2
    | cons sub subs ih => exact fun state => trans _ _ _ (hall (state.2.elements sub) state) (ih _)
  cases k with
  | seq subs =>
    rw [simplify, simplifySeq_eq]
    exact hsubs subs ([], p)
  | _ => exact refl p

theorem extends_pushAll (state : List PatternId × Pool) (ids : List PatternId) :
    state.2.Extends (pushAll state ids).2 :=
  pushAll_rel Extends.refl (fun _ _ _ => Extends.trans) (fun p _ last =>
    extends_intern p _ (fun haligned => haligned last) none) ids state

theorem extends_simplify (p : Pool) (k : Kind PatternId) : p.Extends (p.simplify k).2 :=
  simplify_rel Extends.refl (fun _ _ _ => Extends.trans) (fun p _ last =>
    extends_intern p _ (fun haligned => haligned last) none) p k

end Sigil.Pool
