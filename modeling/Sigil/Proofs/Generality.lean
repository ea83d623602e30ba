import Sigil.Proofs.Constant
import Sigil.Proofs.Excerpt
import Sigil.Proofs.GeneralityRules
import Sigil.Proofs.Limit
import Sigil.Proofs.Steady

namespace Sigil

namespace Tree

structure Sound (t : Tree Note) : Prop where
  valid : t.Valid
  faithful : t.Faithful
  bare : t.Bare
  flush : t.Flush

namespace Sound

variable {t s : Tree Note}

theorem sub (h : t.Sound) (hs : s ∈ t.kind.subs) : s.Sound :=
  ⟨h.valid.sub hs, h.faithful.sub hs, h.bare.sub hs, h.flush.sub hs⟩

theorem bounds (h : t.Sound) : t.sample.Bounds t.language := h.faithful.bounds h.valid

theorem reads (h : t.Sound) {data : Buffer} {limit : Nat} (hlimit : limit ≤ data.bitSize) :
    Reads data limit (t.plainAt data limit) t.language := reads_plainAt h.valid hlimit

end Sound

def Follows {ν : Type} (data : Buffer) (a b : Tree ν) : Prop :=
  ∀ pos ≤ data.bitSize, (b.plainAt data data.bitSize pos).isSome = true →
    (a.plainAt data data.bitSize pos).isSome = true

/-- Where the rule for constants applies, the constant is shorter than `inf`, and what comes after
it in a buffer does not matter: nothing in `a` takes more than it should, or no instance of `a` is
longer than the constant. -/
def ConstantSafe (a b : Tree Note) : Prop :=
  ∀ bits, a.hasAnchors = false → b.constant? = some bits →
    a.accepts bits.toBytes.toArray bits.length = true →
    b.sample.high < inf ∧ (a.Steady ∨ a.sample.high ≤ b.sample.low)

structure Comparable (a b : Tree Note) : Prop where
  left : a.Sound
  right : b.Sound
  safe : a.Each fun s => b.Each fun t => s.ConstantSafe t

namespace Comparable

variable {a b s : Tree Note}

theorem left_sub (h : a.Comparable b) (hs : s ∈ a.kind.subs) : s.Comparable b :=
  ⟨h.left.sub hs, h.right, h.safe.sub hs⟩

theorem right_sub (h : a.Comparable b) (hs : s ∈ b.kind.subs) : a.Comparable s :=
  ⟨h.left, h.right.sub hs, h.safe.mono fun _ ht => ht.sub hs⟩

end Comparable

variable {data : Buffer} {a b : Tree Note} {pos stop : Nat}

/-! ## Constants -/

/-- A tree that accepts bits on their own matches all of them. -/
theorem plainAt_of_accepts (ha : a.Sound) {bits : Bits} (hinf : bits.length < inf)
    (h : a.accepts bits.toBytes.toArray bits.length = true) :
    a.plainAt bits.toBytes.toArray bits.length 0 = some bits.length := by
  have hsize := (Buffer.bitSize_toBytes bits).1
  have hlimit := Nat.min_eq_left hsize
  rw [accepts, matchIn_eq_of_limit ha.valid ha.faithful ha.bare ha.flush (hlimit.trans_le hinf.le)
    (Or.inl (hlimit.trans_lt hinf)), plainIn] at h
  dsimp only at h
  rw [hlimit] at h
  split at h
  case isTrue => exact absurd h (by simp)
  case isFalse =>
    obtain ⟨hit, hhit⟩ := Option.isSome_iff_exists.1 h
    obtain ⟨hplain, hend⟩ := Option.filter_eq_some_iff.1 hhit
    obtain ⟨stop, hstop, rfl⟩ := Option.map_eq_some_iff.1 hplain
    simp only [Hit.between, Nat.zero_add, Nat.sub_zero, beq_iff_eq] at hend
    rw [hstop, hend]

/-- A tree accepts instances of its own only. -/
theorem mem_language_of_plainAt (ha : a.Sound) {bits : Bits}
    (h : a.plainAt bits.toBytes.toArray bits.length 0 = some bits.length) : bits ∈ a.language := by
  have hsize := (Buffer.bitSize_toBytes bits).1
  obtain ⟨-, v, hv, hlength, hold⟩ := ha.reads hsize 0 bits.length (Nat.zero_le _) h
  have hfits : 0 + v.length ≤ bits.length := by omega
  have hprefix := (Buffer.holdsBits_within (Buffer.holdsBits_toBytes bits) hfits).1 hold
  have heq : v = bits := hprefix.eq_of_length (by rw [List.drop_zero]; omega)
  rwa [← heq]

theorem follows_constant (hinf : data.bitSize < inf) (ha : a.Sound) (hb : b.Sound)
    (hanchors : a.hasAnchors = false) {bits : Bits} (hconstant : b.constant? = some bits)
    (haccepts : a.accepts bits.toBytes.toArray bits.length = true) (hsafe : a.ConstantSafe b) :
    Follows data a b := by
  obtain ⟨hhigh, hcases⟩ := hsafe bits hanchors hconstant haccepts
  intro pos hpos hmatch
  obtain ⟨stop, hstop⟩ := Option.isSome_iff_exists.1 hmatch
  obtain ⟨hle, w, hw, rfl, hold⟩ := hb.reads le_rfl pos stop hpos hstop
  obtain rfl : bits = w := (eq_of_constant? hb.valid hb.faithful hb.flush hhigh hconstant hw).symm
  have hsize := (Buffer.bitSize_toBytes bits).1
  have halone : a.plainAt bits.toBytes.toArray bits.length 0 = some bits.length :=
    plainAt_of_accepts ha (by omega) haccepts
  rcases hcases with hsteady | hshort
  · -- the constant is an instance, and one of them is enough
    exact answers_plainAt ha.valid ha.faithful hsteady le_rfl hinf.le pos bits
      (mem_language_of_plainAt ha halone) hle hold
  · -- where the constant ends there is room for all instances, so what follows does not matter
    have hmoved := plainAt_copy ha.valid hanchors hsize (Buffer.copies_toBytes hold) 0 le_rfl
      (Nat.zero_le _)
    rw [halone, Option.map_some, Nat.add_zero] at hmoved
    have hroom : Room a.language pos (pos + bits.length) := by
      intro v hv
      have hvlength := ha.bounds.extent_le_high hv
      have hwlength := hb.bounds.low_le_extent hw
      unfold Bits.extent at hvlength hwlength
      omega
    rw [plainAt_limit ha.valid hle le_rfl (Nat.le_add_right ..) hroom, hmoved, Option.isSome_some]

/-! ## Rules -/

theorem follows_of_same (h : a.same b = true) : Follows data a b := by
  intro pos _ hmatch
  have hsame : a.plainAt data data.bitSize = b.plainAt data data.bitSize := by
    rw [plainAt, plainAt, ← fold_shape, (same_iff a b).1 h, fold_shape]
  rwa [hsame]

theorem follows_of_not_defined (hb : b.Sound) (h : ¬ b.sample.Defined) : Follows data a b := by
  intro pos hpos hmatch
  obtain ⟨stop, hstop⟩ := Option.isSome_iff_exists.1 hmatch
  obtain ⟨-, w, hw, -⟩ := hb.reads le_rfl pos stop hpos hstop
  exact absurd (hb.bounds.defined hw) h

/-- A context matches as the pattern in it does. -/
theorem follows_ctx_left {n : Note} {d : Domain} {s : Tree Note} (h : Follows data s b) :
    Follows data (.node n (.ctx d s)) b := by
  unfold Follows
  rw [plainAt_node]
  exact h

theorem follows_ctx_right {n : Note} {d : Domain} {t : Tree Note} (h : Follows data a t) :
    Follows data a (.node n (.ctx d t)) := by
  unfold Follows
  rw [plainAt_node]
  exact h

theorem follows_alt_left {n : Note} {ts : List (Tree Note)} {s : Tree Note} (hs : s ∈ ts)
    (h : Follows data s b) : Follows data (.node n (.alt ts)) b := by
  intro pos hpos hmatch
  rw [plainAt_node]
  simp only [Kind.map, Kind.stopAt, List.findSome?_map, List.findSome?_isSome_iff]
  exact ⟨s, hs, h pos hpos hmatch⟩

theorem follows_alt_right {n : Note} {ts : List (Tree Note)} (h : ∀ s ∈ ts, Follows data a s) :
    Follows data a (.node n (.alt ts)) := by
  intro pos hpos hmatch
  rw [plainAt_node] at hmatch
  simp only [Kind.map, Kind.stopAt, List.findSome?_map, List.findSome?_isSome_iff] at hmatch
  obtain ⟨s, hs, hmatch⟩ := hmatch
  exact h s hs pos hpos hmatch

theorem follows_any {n : Note} {bits : Nat} (hinf : data.bitSize < inf) (hb : b.Sound)
    (h : b.sample = .fixed bits) : Follows data (.node n (.any bits)) b := by
  intro pos hpos hmatch
  obtain ⟨stop, hstop⟩ := Option.isSome_iff_exists.1 hmatch
  have hbounds := hb.bounds
  rw [h] at hbounds
  have heq : stop = pos + bits := (hb.reads le_rfl).stop_eq hinf.le hbounds rfl hpos hstop
  have hle := ((hb.reads le_rfl).forward pos stop hpos hstop).2
  rw [heq] at hle
  rw [plainAt_node]
  simp only [Kind.map, Kind.stopAt, if_pos hle, Option.isSome_some]

theorem follows_range {n m : Note} {lo hi lo' hi' : UInt8} (hlo : lo ≤ lo') (hhi : hi' ≤ hi) :
    Follows data (.node n (.range lo hi)) (.node m (.range lo' hi')) := by
  intro pos hpos hmatch
  rw [plainAt_node] at hmatch ⊢
  simp only [Kind.map, Kind.stopAt, Option.isSome_ite, Option.any_eq_true,
    decide_eq_true_iff] at hmatch ⊢
  obtain ⟨hfits, byte, hbyte, hlow, hhigh⟩ := hmatch
  exact ⟨hfits, byte, hbyte, UInt8.le_trans hlo hlow, UInt8.le_trans hhigh hhi⟩

/-- Matches of trees of one width stop at one place. -/
theorem stop_eq_of_sameWidth (hinf : data.bitSize < inf) (ha : a.Sound) (hb : b.Sound)
    (h : a.sameWidth b = true) {stop' : Nat} (hpos : pos ≤ data.bitSize)
    (hstop : a.plainAt data data.bitSize pos = some stop)
    (hstop' : b.plainAt data data.bitSize pos = some stop') : stop = stop' := by
  simp only [sameWidth, Bool.and_eq_true, decide_eq_true_iff, beq_iff_eq] at h
  obtain ⟨⟨-, hone⟩, heq⟩ := h
  rw [(ha.reads le_rfl).stop_eq hinf.le ha.bounds hone hpos hstop,
    (hb.reads le_rfl).stop_eq hinf.le hb.bounds (heq ▸ hone) hpos hstop', heq]

variable {related : Tree Note → Tree Note → Bool}

theorem follows_inStep (hinf : data.bitSize < inf) {as bs : List (Tree Note)}
    (has : ∀ a ∈ as, a.Sound) (hbs : ∀ b ∈ bs, b.Sound)
    (hrelated : ∀ a ∈ as, ∀ b ∈ bs, related a b = true → Follows data a b)
    (h : inStep related as bs = true) (hpos : pos ≤ data.bitSize)
    (hmatch : (bs.foldlM (fun pos b => plainAt data data.bitSize b pos) pos).isSome = true) :
    (as.foldlM (fun pos a => plainAt data data.bitSize a pos) pos).isSome = true := by
  induction as, bs using inStep.induct generalizing pos with
  | case1 => rfl
  | case2 a b =>
    have hfollows := hrelated a List.mem_cons_self b List.mem_cons_self h pos hpos
    simpa using hfollows (by simpa using hmatch)
  | case3 a as b bs hmore ih =>
    rw [inStep.eq_3 related a as b bs hmore, Bool.and_eq_true, Bool.and_eq_true] at h
    obtain ⟨⟨hwidth, hab⟩, hrest⟩ := h
    rw [List.foldlM_cons] at hmatch ⊢
    obtain ⟨stop, hstop⟩ : ∃ stop, plainAt data data.bitSize b pos = some stop := by
      cases hstop : plainAt data data.bitSize b pos with
      | none => exact absurd hmatch (by simp [hstop])
      | some stop => exact ⟨stop, rfl⟩
    obtain ⟨stop', hstop'⟩ := Option.isSome_iff_exists.1
      (hrelated a List.mem_cons_self b List.mem_cons_self hab pos hpos
        (by rw [hstop, Option.isSome_some]))
    have ha := has a List.mem_cons_self
    have hb := hbs b List.mem_cons_self
    obtain rfl := stop_eq_of_sameWidth hinf ha hb hwidth hpos hstop' hstop
    rw [hstop, Option.bind_eq_bind, Option.bind_some] at hmatch
    rw [hstop', Option.bind_eq_bind, Option.bind_some]
    exact ih (fun s hs => has s (List.mem_cons_of_mem a hs)) (fun t ht =>
      hbs t (List.mem_cons_of_mem b ht))
      (fun s hs t ht => hrelated s (List.mem_cons_of_mem a hs) t (List.mem_cons_of_mem b ht)) hrest
      ((hb.reads le_rfl).forward pos _ hpos hstop).2 hmatch
  | case4 as bs hnil hone hcons =>
    rw [inStep.eq_4 related as bs hnil hone hcons] at h
    exact absurd h Bool.false_ne_true

theorem follows_seq (hinf : data.bitSize < inf) {n m : Note} {as bs : List (Tree Note)}
    (ha : (node n (.seq as)).Sound) (hb : (node m (.seq bs)).Sound)
    (hrelated : ∀ a ∈ as, ∀ b ∈ bs, related a b = true → Follows data a b)
    (h : inStep related as bs = true) : Follows data (.node n (.seq as)) (.node m (.seq bs)) := by
  intro pos hpos hmatch
  rw [plainAt_node] at hmatch ⊢
  simp only [Kind.map, Kind.stopAt, List.foldlM_map] at hmatch ⊢
  exact follows_inStep hinf (fun s hs => ha.sub hs) (fun t ht => hb.sub ht) hrelated h hpos hmatch

/-- Where each application of `wide` is one of `near`, the latter is repeated as often as it has to
be. -/
theorem min_le_greedy_of_follows {near wide : Nat → Option Nat} {limit : Nat} {r q : Repeat}
    (hmin : r.min ≤ q.min) (hr : r.AtMost r.min) (hwide : Forward limit wide)
    (hsame : ∀ pos ≤ limit, ∀ stop, wide pos = some stop → near pos = some stop) (fuel : Nat)
    {count : Nat} (hpos : pos ≤ limit) (h : q.min ≤ (greedy wide q fuel pos count).2) :
    r.min ≤ (greedy near r fuel pos count).2 := by
  induction fuel generalizing pos count with
  | zero => exact hmin.trans h
  | succ fuel ih =>
    have hgrows := le_greedy near r (fuel + 1) pos count
    unfold greedy at h hgrows ⊢
    by_cases hmax : r.max.any (· ≤ count) = true
    · obtain ⟨max, hmem, hle⟩ := (Option.any_eq_true ..).1 hmax
      rw [if_pos hmax]
      exact (hr max hmem).trans (of_decide_eq_true hle)
    · rw [if_neg hmax] at hgrows ⊢
      split at h
      case isTrue => exact hmin.trans (h.trans hgrows)
      case isFalse =>
        cases hstop : wide pos with
        | none =>
          rw [hstop] at h
          exact hmin.trans (h.trans hgrows)
        | some stop =>
          rw [hstop] at h
          rw [hsame pos hpos stop hstop]
          dsimp only at h ⊢
          split
          case isTrue => exact Nat.le_max_right ..
          case isFalse hmoved =>
            rw [if_neg hmoved] at h
            exact ih (hwide pos stop hpos hstop).2 h

theorem follows_rep {n m : Note} {s t : Tree Note} {r q : Repeat} (hinf : data.bitSize < inf)
    (hs : s.Sound) (ht : t.Sound) (hr : r.AtMost r.min) (hcovers : r.covers q = true)
    (hwidth : s.sameWidth t = true) (h : Follows data s t) :
    Follows data (.node n (.rep s r)) (.node m (.rep t q)) := by
  intro pos hpos hmatch
  rw [plainAt_node] at hmatch ⊢
  simp only [Kind.map, Kind.stopAt, plainRepeat, Option.isSome_ite] at hmatch ⊢
  have hmin : r.min ≤ q.min := by
    simp only [Repeat.covers, Bool.and_eq_true, decide_eq_true_iff] at hcovers
    exact hcovers.1
  refine min_le_greedy_of_follows hmin hr (ht.reads le_rfl).forward ?_ _ hpos hmatch
  intro pos hpos stop hstop
  obtain ⟨stop', hstop'⟩ :=
    Option.isSome_iff_exists.1 (h pos hpos (by rw [hstop, Option.isSome_some]))
  rw [hstop', stop_eq_of_sameWidth hinf hs ht hwidth hpos hstop' hstop]

theorem follows_rep_left {n : Note} {s : Tree Note} {r : Repeat} (hr : r.Allows 1)
    (h : Follows data s b) : Follows data (.node n (.rep s r)) b := by
  intro pos hpos hmatch
  obtain ⟨stop, hstop⟩ := Option.isSome_iff_exists.1 (h pos hpos hmatch)
  rw [plainAt_node]
  simp only [Kind.map, Kind.stopAt, plainRepeat, Option.isSome_ite]
  have hallowed : ¬ r.max.any (· ≤ 0) = true := by
    rw [Option.any_eq_true]
    rintro ⟨max, hmem, hle⟩
    have hle := of_decide_eq_true hle
    have hone := hr.2 max hmem
    omega
  unfold greedy
  rw [if_neg hallowed, hstop]
  dsimp only
  split
  case isTrue => exact Nat.le_max_right ..
  case isFalse => exact hr.1.trans (le_greedy ..)

theorem rules_follows (hinf : data.bitSize < inf) : Rules Comparable (Follows data) where
  good_left h hs := h.left_sub hs
  good_right h ht := h.right_sub ht
  same := follows_of_same
  empty h := follows_of_not_defined h.right
  constant h _ hanchors hconstant haccepts :=
    follows_constant hinf h.left h.right hanchors hconstant haccepts h.safe.root.root
  ctx_left := follows_ctx_left
  ctx_right := follows_ctx_right
  alt_left := follows_alt_left
  alt_right := follows_alt_right
  any h := follows_any hinf h.right
  range := follows_range
  seq h := follows_seq hinf h.left h.right
  rep h hcovers hwidth :=
    follows_rep hinf (h.left.sub (List.mem_singleton_self _))
      (h.right.sub (List.mem_singleton_self _))
      h.left.valid.root hcovers hwidth
  rep_left := follows_rep_left

/-- Up to the rule for constants, generality follows matching. -/
theorem follows_of_generalizesWithin (hinf : data.bitSize < inf) (fuel : Nat) (h : a.Comparable b)
    (hgeneral : generalizesWithin fuel a b = true) : Follows data a b :=
  (rules_follows hinf).of_generalizesWithin fuel h hgeneral

end Tree

end Sigil
