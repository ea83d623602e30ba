import Mathlib.Data.List.Chain
import Sigil.Proofs.Pool.Steps

namespace Sigil

theorem ByteSet.isFull_of_contains {s : ByteSet} (h : ∀ b, s.contains b = true) : s.IsFull := by
  refine congrArg ByteSet.mk (BitVec.eq_of_getLsbD_eq fun i hi => ?_)
  have hb := (h (UInt8.ofNat i)).trans (contains_all (UInt8.ofNat i)).symm
  rwa [contains, contains, UInt8.toNat_ofNat_of_lt' hi] at hb

/-- A literal joins with no more literals when it has taken up another one. -/
theorem Literal.Fuses.of_append {l m n : Literal} (hmn : m.Fuses n) (h : l.Fuses (m.append n)) :
    l.Fuses m := by
  obtain ⟨hnocase, hdash, hwhole⟩ := h
  refine ⟨hnocase, hdash, ?_⟩
  by_cases hl : l.IsPlain
  · exact Or.inl hl
  · -- the flags are those of the first literal, so both of its parts are whole bytes
    have hm : ¬ m.IsPlain := fun hm => hl ⟨hnocase.trans hm.1, hdash.trans hm.2⟩
    exact Or.inr ⟨(hwhole.resolve_left hl).1, (hmn.wholeBytes hm).1⟩

namespace Pool

variable {p q r : Pool} {id m n : PatternId} {k : Kind PatternId} {subs : List PatternId}

def Irreducible (p : Pool) : Kind PatternId → Prop
  | .lit _ | .any _ | .anchor _ => True
  | .range lo hi => ¬ (lo = 0 ∧ hi = 255)
  | .alt subs => subs.length ≠ 1 ∧ subs.Nodup ∧ (∀ s ∈ subs, p.alternatives s = [s]) ∧
      (p.singleBytes? subs).bind ofRun? = none
  | .seq subs =>
    subs.length ≠ 1 ∧ (∀ s ∈ subs, p.elements s = [s]) ∧ subs.IsChain fun s t => p.fuse? s t = none
  | .rep sub r => r ≠ .exactly 1 ∧ r.max ≠ some 0 ∧
      ∀ bits, p.kind? sub = some (.any bits) → r.IsFixed → inf < bits * r.min
  | .ctx d sub => p.domain? sub ≠ some d

def Normal (p : Pool) : Prop := ∀ n k, p.isCanonical n = true → p.kind? n = some k → p.Irreducible k

/-! ## What a rule looks at -/

theorem alternatives_congr (h : q.kind? id = p.kind? id) :
    q.alternatives id = p.alternatives id := by
  rw [alternatives, h, alternatives]

theorem fuse?_congr (hm : q.kind? m = p.kind? m) (hn : q.kind? n = p.kind? n) :
    q.fuse? m n = p.fuse? m n := by
  rw [fuse?, hm, hn, fuse?]

theorem singleBytes?_congr (h : ∀ s ∈ subs, q.kind? s = p.kind? s)
    (hlead : ∀ s ∈ subs, q.lead s = p.lead s) : q.singleBytes? subs = p.singleBytes? subs := by
  have hfold : ∀ bytes, subs.foldlM q.addBytes? bytes = subs.foldlM p.addBytes? bytes := by
    induction subs with
    | nil => exact fun _ => rfl
    | cons s subs ih =>
      intro bytes
      have hs : q.addBytes? bytes s = p.addBytes? bytes s := by
        rw [addBytes?, h s List.mem_cons_self, hlead s List.mem_cons_self, addBytes?]
      rw [List.foldlM_cons, List.foldlM_cons, hs]
      exact congrArg _ (funext (ih (fun t ht => h t (List.mem_cons_of_mem s ht)) fun t ht =>
        hlead t (List.mem_cons_of_mem s ht)))
  exact hfold .empty

theorem Irreducible.congr (h : p.Irreducible k) (hkind : ∀ s ∈ k.subs, q.kind? s = p.kind? s)
    (hlead : ∀ s ∈ k.subs, q.lead s = p.lead s) : q.Irreducible k := by
  cases k with
  | lit l => trivial
  | any bits => trivial
  | anchor a => trivial
  | range lo hi => exact h
  | alt subs =>
    have hsubs : ∀ s ∈ subs, q.kind? s = p.kind? s := hkind
    obtain ⟨hlength, hnodup, hflat, hrun⟩ := h
    refine ⟨hlength, hnodup, fun s hs => (alternatives_congr (hsubs s hs)).trans (hflat s hs), ?_⟩
    rwa [singleBytes?_congr hsubs hlead]
  | seq subs =>
    obtain ⟨hlength, hflat, hchain⟩ := h
    refine ⟨hlength, fun s hs => (elements_congr (hkind s hs)).trans (hflat s hs), ?_⟩
    exact hchain.imp_of_mem_imp fun s t hs ht hst =>
      (fuse?_congr (hkind s hs) (hkind t ht)).trans hst
  | rep sub r =>
    obtain ⟨hone, hzero, hany⟩ := h
    refine ⟨hone, hzero, fun bits hbits => hany bits ?_⟩
    rwa [← hkind sub (List.mem_singleton_self sub)]
  | ctx d sub =>
    intro hd
    rw [domain?, hkind sub (List.mem_singleton_self sub)] at hd
    exact h hd

/-! ## Rules change nothing -/

theorem distinct_eq_self (h : subs.Nodup) : distinct subs = subs := by
  have hfold : ∀ (ids seen : List PatternId), (seen.reverse ++ ids).Nodup →
      ids.foldl (fun seen id => if id ∈ seen then seen else id :: seen) seen =
        ids.reverse ++ seen := by
    intro ids
    induction ids with
    | nil => exact fun _ _ => rfl
    | cons id ids ih =>
      intro seen hnodup
      have hnew : id ∉ seen := by
        rw [List.nodup_append'] at hnodup
        exact fun hmem => hnodup.2.2 (List.mem_reverse.2 hmem) List.mem_cons_self
      rw [List.foldl_cons, if_neg hnew, ih (id :: seen) (by simpa using hnodup)]
      simp
  rw [distinct, hfold subs [] (by simpa using h), List.append_nil, List.reverse_reverse]

theorem flatMap_eq_self {parts : PatternId → List PatternId} (h : ∀ s ∈ subs, parts s = [s]) :
    subs.flatMap parts = subs := by
  rw [List.flatMap_congr h, List.flatMap_singleton']

theorem simplifyAlt_of_irreducible (h : p.Irreducible (.alt subs)) :
    p.simplifyAlt subs = .kind (.alt subs) := by
  obtain ⟨hlength, hnodup, hflat, hrun⟩ := h
  rw [simplifyAlt, flatMap_eq_self hflat, distinct_eq_self hnodup]
  split
  case h_1 only => exact absurd rfl hlength
  case h_2 => rw [hrun, Option.getD_none]

theorem pushFused_of_fuse?_eq_none {reversed : List PatternId}
    (h : ∀ last ∈ reversed.head?, p.fuse? last id = none) :
    p.pushFused reversed id = (id :: reversed, p) := by
  cases reversed with
  | nil => rfl
  | cons last before => rw [pushFused, h last rfl]

/-- Elements that cannot be joined are put one after the other. -/
theorem pushSubs_of_isChain {reversed : List PatternId} (hflat : ∀ s ∈ subs, p.elements s = [s])
    (hchain : (reversed.reverse ++ subs).IsChain fun s t => p.fuse? s t = none) :
    pushSubs (reversed, p) subs = (subs.reverse ++ reversed, p) := by
  induction subs generalizing reversed with
  | nil => rfl
  | cons id subs ih =>
    obtain ⟨-, -, hmeet⟩ := List.isChain_append.1 hchain
    have hnone : ∀ last ∈ reversed.head?, p.fuse? last id = none := fun last hlast =>
      hmeet last (by rwa [List.getLast?_reverse]) id rfl
    have hpush : pushAll (reversed, p) [id] = (id :: reversed, p) :=
      pushFused_of_fuse?_eq_none hnone
    rw [pushSubs_cons, hflat id List.mem_cons_self, hpush,
      ih (fun s hs => hflat s (List.mem_cons_of_mem id hs)) (by simpa using hchain)]
    simp

theorem joined_of_length_ne (h : subs.length ≠ 1) : joined subs = .kind (.seq subs) := by
  unfold joined
  split
  case h_1 only => exact absurd rfl h
  case h_2 => rfl

theorem simplifySeq_of_irreducible (h : p.Irreducible (.seq subs)) :
    p.simplifySeq subs = (.kind (.seq subs), p) := by
  obtain ⟨hlength, hflat, hchain⟩ := h
  have hpush : pushSubs ([], p) subs = (subs.reverse ++ [], p) := pushSubs_of_isChain hflat hchain
  rw [simplifySeq_eq, hpush, List.append_nil, List.reverse_reverse, joined_of_length_ne hlength]

theorem simplify_of_irreducible (h : p.Irreducible k) : p.simplify k = (.kind k, p) := by
  cases k with
  | lit l => rfl
  | any bits => rfl
  | anchor a => rfl
  | range lo hi =>
    rw [simplify, if_neg h]
  | alt subs => rw [simplify, simplifyAlt_of_irreducible h]
  | seq subs => exact simplifySeq_of_irreducible h
  | rep sub r =>
    obtain ⟨hone, hzero, hany⟩ := h
    rw [simplify, simplifyRep, if_neg hone, if_neg hzero]
    split
    case h_2 => rfl
    case h_1 bits hkind hfixed =>
      rw [if_neg (Nat.not_le.2 (hany bits hkind (of_decide_eq_true hfixed)))]
  | ctx d sub =>
    rw [simplify]
    split
    case h_2 => rfl
    case h_1 e t hkind =>
      rw [if_neg]
      rintro rfl
      exact h (domain?_eq_some.2 ⟨t, hkind⟩)

/-! ## Answers of rules -/

theorem irreducible_ofRun? {bytes : ByteSet} (h : ofRun? bytes = some k) : p.Irreducible k := by
  unfold ofRun? at h
  split at h
  case h_2 => exact absurd h (by simp)
  case h_1 lo hi hruns =>
    obtain ⟨-, hcontains⟩ := ByteSet.eq_range_of_runs hruns
    rw [← Option.some.inj h]
    split
    case isTrue => trivial
    case isFalse hfull =>
      rintro ⟨rfl, rfl⟩
      have hlast : ∀ b : UInt8, b ≤ 255 :=
        fun b => UInt8.le_iff_toNat_le.2 (Nat.le_of_lt_succ b.toNat_lt)
      exact hfull (ByteSet.isFull_of_contains fun b => (hcontains b).2 ⟨UInt8.zero_le, hlast b⟩)

theorem nodup_distinct (ids : List PatternId) : (distinct ids).Nodup := by
  have hfold : ∀ seen : List PatternId, seen.Nodup →
      (ids.foldl (fun seen id => if id ∈ seen then seen else id :: seen) seen).Nodup := by
    induction ids with
    | nil => exact fun _ h => h
    | cons id ids ih =>
      intro seen h
      rw [List.foldl_cons]
      split
      case isTrue => exact ih seen h
      case isFalse hnew => exact ih (id :: seen) (List.nodup_cons.2 ⟨hnew, h⟩)
  exact List.nodup_reverse.2 (hfold [] List.nodup_nil)

theorem Normal.alternatives_flat (h : p.Normal) (hid : p.isCanonical id = true) :
    ∀ s ∈ p.alternatives id, p.alternatives s = [s] := by
  intro s hs
  unfold alternatives at hs
  split at hs
  case h_1 inner hkind => exact (h id _ hid hkind).2.2.1 s hs
  case h_2 hnot =>
    rw [List.mem_singleton.1 hs, alternatives]
    split
    case h_1 inner hkind => exact absurd hkind (hnot inner)
    case h_2 => rfl

theorem irreducible_simplifyAlt (h : p.Normal) (hsubs : ∀ s ∈ subs, p.isCanonical s = true)
    (hkind : p.simplifyAlt subs = .kind k) : p.Irreducible k := by
  have hflat : ∀ s ∈ distinct (subs.flatMap p.alternatives), p.alternatives s = [s] := by
    intro s hs
    rw [mem_distinct, List.mem_flatMap] at hs
    obtain ⟨sub, hsub, hs⟩ := hs
    exact h.alternatives_flat (hsubs sub hsub) s hs
  have hnodup := nodup_distinct (subs.flatMap p.alternatives)
  unfold simplifyAlt at hkind
  generalize distinct (subs.flatMap p.alternatives) = flat at hflat hnodup hkind
  split at hkind
  case h_1 => exact absurd hkind (by simp)
  case h_2 hlength =>
    rw [Simplified.kind.injEq] at hkind
    rw [← hkind]
    cases hrun : (p.singleBytes? flat).bind ofRun? with
    | none =>
      refine ⟨fun hone => ?_, hnodup, hflat, hrun⟩
      obtain ⟨only, rfl⟩ := List.length_eq_one_iff.1 hone
      exact hlength only rfl
    | some k' =>
      obtain ⟨bytes, -, hk'⟩ := Option.bind_eq_some_iff.1 hrun
      exact irreducible_ofRun? hk'

/-- Nothing but the answer becomes canonical. -/
theorem isCanonical_intern (p : Pool) (k : Kind PatternId) (lead : Fin 8)
    (origin : Option PatternId) (n : PatternId) :
    (p.intern k lead origin).2.isCanonical n = true →
      p.isCanonical n = true ∨ n = (p.intern k lead origin).1 := by
  have happoint : ∀ {q : Pool} {id : PatternId}, q.isCanonical n = p.isCanonical n →
      (q.appoint id).isCanonical n = true → p.isCanonical n = true ∨ n = id := by
    intro q id hq hn
    rw [isCanonical_appoint] at hn
    split at hn
    case isTrue hid => exact Or.inr hid
    case isFalse => exact Or.inl (hq.symm.trans hn)
  unfold Pool.intern
  dsimp only
  generalize origin >>= p.get? = source
  split
  case h_1 id _ =>
    intro hn
    rw [isCanonical_modify (by exact fun _ => rfl)] at hn
    exact Or.inl hn
  case h_2 =>
    split
    case h_1 id _ => exact happoint rfl
    case h_2 =>
      refine happoint ?_
      rw [isCanonical_modify (by exact fun _ => rfl), isCanonical_add]

/-- A layer to which no rule applies may get a representative. -/
theorem Normal.intern (h : p.Normal) (hp : p.WellFormed) (hvalid : k.Valid)
    (hsubs : ∀ s ∈ k.subs, p.isCanonical s = true) (hk : p.Irreducible k) {lead : Fin 8}
    (hlead : p.Aligned → lead = 0) (origin : Option PatternId) :
    (p.intern k lead origin).2.Normal := by
  obtain ⟨hrefines, hkind, -⟩ := hp.intern hvalid hsubs hlead origin
  have hcongr : ∀ {k' : Kind PatternId}, p.Irreducible k' →
      (∀ s ∈ k'.subs, p.isCanonical s = true) →
        (p.intern k lead origin).2.Irreducible k' := fun hk' hsubs' =>
    hk'.congr (fun s hs => hrefines.kind? s (contains_of_isCanonical (hsubs' s hs))) fun s hs =>
      hrefines.lead s (contains_of_isCanonical (hsubs' s hs))
  intro n k' hn hk'
  rcases isCanonical_intern p k lead origin n hn with hold | rfl
  · rw [hrefines.kind? n (contains_of_isCanonical hold)] at hk'
    exact hcongr (h n k' hold hk') fun s hs => hp.canonical_sub n s ⟨k', hk', hs⟩ hold
  · rw [hkind, Option.some.injEq] at hk'
    exact hk' ▸ hcongr hk hsubs

theorem Normal.elements_flat (h : p.Normal) (hid : p.isCanonical id = true) :
    ∀ s ∈ p.elements id, p.elements s = [s] := by
  intro s hs
  unfold elements at hs
  split at hs
  case h_1 inner hkind => exact (h id _ hid hkind).2.1 s hs
  case h_2 hnot =>
    rw [List.mem_singleton.1 hs, elements]
    split
    case h_1 inner hkind => exact absurd hkind (hnot inner)
    case h_2 => rfl

theorem fuse?_of_fuses {a b : Literal} (hm : p.kind? m = some (.lit a))
    (hn : p.kind? n = some (.lit b)) (h : a.Fuses b) : p.fuse? m n = some (a.append b) := by
  rw [fuse?, hm, hn]
  exact if_pos h

/-- The elements of a sequence that is being joined, the last one first: they are flat, and no two
neighbours can be joined. -/
structure Fused (p : Pool) (state : List PatternId × Pool) : Prop where
  joins : ∃ m, Joins p m state
  normal : state.2.Normal
  flat : ∀ s ∈ state.1, state.2.elements s = [s]
  chain : state.1.IsChain fun t s => state.2.fuse? s t = none

namespace Fused

theorem refines {state : List PatternId × Pool} (h : Fused p state) :
    Refines (fun _ => False) p state.2 := by
  obtain ⟨m, hjoins⟩ := h.joins
  exact hjoins.refines

theorem pushFused {reversed : List PatternId} (h : Fused p (reversed, q))
    (hid : p.isCanonical id = true) (hflat : p.elements id = [id]) :
    Fused p (q.pushFused reversed id) := by
  obtain ⟨m, hjoins⟩ := h.joins
  have hkind : q.kind? id = p.kind? id := h.refines.kind? id (contains_of_isCanonical hid)
  have hpushed : ∃ m, Joins p m (q.pushFused reversed id) := ⟨_, hjoins.pushFused hid⟩
  have hmore : ∀ s ∈ id :: reversed, q.elements s = [s] :=
    List.forall_mem_cons.2 ⟨(elements_congr hkind).trans hflat, h.flat⟩
  cases reversed with
  | nil => exact ⟨hpushed, h.normal, hmore, List.isChain_singleton id⟩
  | cons last before =>
    rw [Pool.pushFused] at hpushed ⊢
    cases hfuse : q.fuse? last id with
    | none =>
      rw [hfuse] at hpushed
      exact ⟨hpushed, h.normal, hmore, h.chain.cons_cons hfuse⟩
    | some l =>
      rw [hfuse] at hpushed
      obtain ⟨a, b, ha, hb, hfuses, rfl⟩ := fuse?_eq_some hfuse
      have hwf : q.WellFormed := h.refines.wellFormed
      have hvalid := valid_append (hwf.valid last _ ha) hfuses
      have hnone : ∀ s ∈ (Kind.lit (a.append b) : Kind PatternId).subs, q.isCanonical s = true := by
        simp [Kind.subs]
      obtain ⟨hrefines, hc, -⟩ := hwf.intern hvalid hnone (fun haligned => haligned last) none
      have hlater : ∀ s ∈ before, (q.intern (.lit (a.append b)) (q.lead last) none).2.kind? s =
          q.kind? s := fun s hs =>
        hrefines.kind? s
          (contains_of_isCanonical (hjoins.canonical s (List.mem_cons_of_mem last hs)))
      obtain ⟨hmeet, hbefore⟩ := List.isChain_cons.1 h.chain
      refine ⟨hpushed, h.normal.intern hwf hvalid hnone trivial (fun haligned =>
        haligned last) none,
        List.forall_mem_cons.2 ⟨by rw [elements, hc], fun s hs => ?_⟩,
          List.IsChain.cons ?_ fun s hs => ?_⟩
      · exact (elements_congr (hlater s hs)).trans (h.flat s (List.mem_cons_of_mem last hs))
      · exact hbefore.imp_of_mem_imp fun t s ht hs hts =>
          (fuse?_congr (hlater s hs) (hlater t ht)).trans hts
      · -- what could be joined with the new literal could have been joined with its first part
        rw [Option.eq_none_iff_forall_ne_some]
        intro l hl
        obtain ⟨d, e, hd, he, hjoin, -⟩ := fuse?_eq_some hl
        rw [hc, Option.some.injEq, Kind.lit.injEq] at he
        rw [hlater s (List.mem_of_mem_head? hs)] at hd
        rw [← he] at hjoin
        have hsome := hmeet s hs
        rw [fuse?_of_fuses hd ha (hfuses.of_append hjoin)] at hsome
        exact Option.some_ne_none _ hsome

theorem pushAll {state : List PatternId × Pool} (h : Fused p state) {ids : List PatternId}
    (hids : ∀ id ∈ ids, p.isCanonical id = true ∧ p.elements id = [id]) :
    Fused p (Pool.pushAll state ids) := by
  induction ids generalizing state with
  | nil => exact h
  | cons id ids ih =>
    obtain ⟨hid, hflat⟩ := hids id List.mem_cons_self
    exact ih (h.pushFused hid hflat) fun s hs => hids s (List.mem_cons_of_mem id hs)

end Fused

theorem WellFormed.fused_pushSubs (hp : p.WellFormed) (h : p.Normal)
    (hsubs : ∀ s ∈ subs, p.isCanonical s = true) : Fused p (pushSubs ([], p) subs) := by
  have hstart : Fused p ([], p) := ⟨⟨1, hp.joins_start⟩, h, List.forall_mem_nil _, List.isChain_nil⟩
  rw [hp.joins_start.pushSubs_eq hp hsubs]
  refine hstart.pushAll fun s hs => ⟨isCanonical_flatMap_elements hp hsubs s hs, ?_⟩
  obtain ⟨sub, hsub, hs⟩ := List.mem_flatMap.1 hs
  exact h.elements_flat (hsubs sub hsub) s hs

theorem irreducible_joined {reversed : List PatternId} (h : Fused p (reversed, q))
    (hkind : joined reversed.reverse = .kind k) : q.Irreducible k := by
  unfold joined at hkind
  split at hkind
  case h_1 => exact absurd hkind (by simp)
  case h_2 flat hlength =>
    rw [Simplified.kind.injEq] at hkind
    rw [← hkind]
    refine ⟨fun hone => ?_, fun s hs => h.flat s (List.mem_reverse.1 hs),
      List.isChain_reverse.2 h.chain⟩
    obtain ⟨only, honly⟩ := List.length_eq_one_iff.1 hone
    exact hlength only honly

theorem irreducible_simplifyRep {sub : PatternId} {r : Repeat}
    (hkind : p.simplifyRep sub r = .kind k) : p.Irreducible k := by
  unfold simplifyRep at hkind
  split at hkind
  case isTrue => exact absurd hkind (by simp)
  case isFalse hone =>
    split at hkind
    case isTrue =>
      rw [← Simplified.kind.inj hkind]
      exact ⟨Nat.zero_ne_one, List.forall_mem_nil _, List.isChain_nil⟩
    case isFalse hzero =>
      split at hkind
      case h_1 bits hsub hfixed =>
        split at hkind
        case isTrue =>
          rw [← Simplified.kind.inj hkind]
          trivial
        case isFalse hlarge =>
          rw [← Simplified.kind.inj hkind]
          refine ⟨hone, hzero, fun bits' hbits' _ => ?_⟩
          rw [hsub, Option.some.injEq, Kind.any.injEq] at hbits'
          exact hbits' ▸ Nat.not_le.1 hlarge
      case h_2 hnot =>
        rw [← Simplified.kind.inj hkind]
        exact ⟨hone, hzero, fun bits hsub hfixed => (hnot bits hsub (decide_eq_true hfixed)).elim⟩

/-- One application of the rules is enough: none applies to the answer. -/
theorem Normal.simplify (h : p.Normal) (hp : p.WellFormed)
    (hsubs : ∀ s ∈ k.subs, p.isCanonical s = true) :
    (p.simplify k).2.Normal ∧ ∀ k', (p.simplify k).1 = .kind k' →
      (p.simplify k).2.Irreducible k' := by
  cases k with
  | lit l | any bits | anchor a =>
    refine ⟨h, fun k' hk' => ?_⟩
    rw [← Simplified.kind.inj hk']
    trivial
  | range lo hi =>
    refine ⟨h, fun k' hk' => ?_⟩
    rw [← Simplified.kind.inj hk']
    split
    case isTrue => trivial
    case isFalse hpart => exact hpart
  | alt subs => exact ⟨h, fun k' hk' => irreducible_simplifyAlt h hsubs hk'⟩
  | seq subs =>
    have hfused := hp.fused_pushSubs h hsubs
    rw [Pool.simplify, simplifySeq_eq]
    exact ⟨hfused.normal, fun k' hk' => irreducible_joined hfused hk'⟩
  | rep sub r => exact ⟨h, fun k' hk' => irreducible_simplifyRep hk'⟩
  | ctx d sub =>
    refine ⟨h, fun k' hk' => (?_ : p.Irreducible k')⟩
    rw [Pool.simplify] at hk'
    dsimp only at hk'
    split at hk'
    case h_1 e t hsub =>
      split at hk'
      case isTrue => exact absurd hk' (by simp)
      case isFalse hne =>
        rw [← Simplified.kind.inj hk']
        intro hd
        obtain ⟨u, hu⟩ := domain?_eq_some.1 hd
        rw [hsub, Option.some.injEq, Kind.ctx.injEq] at hu
        exact hne hu.1
    case h_2 hnot =>
      rw [← Simplified.kind.inj hk']
      intro hd
      obtain ⟨u, hu⟩ := domain?_eq_some.1 hd
      exact hnot d u hu

theorem Normal.represent (h : p.Normal) (hp : p.WellFormed) (hvalid : k.Valid)
    (hsubs : ∀ s ∈ k.subs, p.isCanonical s = true) (origin : PatternId) :
    (p.represent k origin).2.Normal := by
  obtain ⟨hnormal, hirreducible⟩ := h.simplify hp hsubs
  obtain ⟨hrefines, hmeans⟩ := answers_simplify hp hvalid hsubs
  unfold Pool.represent
  split
  case h_1 c q hanswer =>
    rw [hanswer] at hnormal
    exact hnormal
  case h_2 k' q hanswer =>
    rw [hanswer] at hnormal hirreducible hrefines hmeans
    obtain ⟨hvalid', hcanonical, -⟩ := hmeans
    exact hnormal.intern hrefines.wellFormed hvalid' hcanonical (hirreducible k' rfl)
      (fun haligned => haligned origin) (some origin)

/-- What stays canonical stays what it is. -/
theorem Normal.inherits (h : p.Normal) (hq : q.WellFormed) (hpq : p.Inherits q) : q.Normal := by
  intro n k hn hk
  obtain ⟨hold, hkind, -⟩ := hpq n hn
  have hsubs : ∀ s ∈ k.subs, q.kind? s = p.kind? s ∧ q.lead s = p.lead s := fun s hs =>
    (hpq s (hq.canonical_sub n s ⟨k, hk, hs⟩ hn)).2
  exact (h n k hold (hkind.symm.trans hk)).congr (fun s hs => (hsubs s hs).1) fun s hs =>
    (hsubs s hs).2

end Pool

end Sigil
