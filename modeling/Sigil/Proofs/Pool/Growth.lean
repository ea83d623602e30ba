import Sigil.Proofs.Pool.WellFormed

namespace Sigil.Pool

variable {p q r : Pool} {id m n : PatternId} {k : Kind PatternId}

/-- Identifiers are given out once: those of patterns that are gone in `p` name nothing in `q`. -/
structure Ages (p q : Pool) : Prop where
  size_le : p.nodes.size ≤ q.nodes.size
  contains : ∀ n, n.index < p.nodes.size → q.contains n = true → p.contains n = true

namespace Ages

theorem trans (h : p.Ages q) (h' : q.Ages r) : p.Ages r where
  size_le := h.size_le.trans h'.size_le
  contains n hn hr := h.contains n hn (h'.contains n (hn.trans_le h.size_le) hr)

/-- No identifier is given out. -/
theorem of_contains (hsize : p.nodes.size ≤ q.nodes.size)
    (h : ∀ n, q.contains n = true → p.contains n = true) : p.Ages q :=
  ⟨hsize, fun n _ => h n⟩

end Ages

/-- All patterns of `p` are in `q` as they were, and those that were canonical still are. -/
structure Extends (p q : Pool) : Prop where
  ages : p.Ages q
  kind? : ∀ id, p.contains id = true → q.kind? id = p.kind? id
  summary : ∀ id, p.contains id = true → q.summary id = p.summary id
  isCanonical : ∀ id, p.isCanonical id = true → q.isCanonical id = true
  roots : ∀ id, q.roots id = p.roots id
  matcher? : (∀ id, p.matcher? id = none) → ∀ id, q.matcher? id = none
  lead : ∀ id, p.contains id = true → q.lead id = p.lead id
  aligned : p.Aligned → q.Aligned

namespace Extends

theorem refl (p : Pool) : p.Extends p where
  ages := Ages.of_contains le_rfl fun _ hn => hn
  kind? _ _ := rfl
  summary _ _ := rfl
  isCanonical _ hn := hn
  roots _ := rfl
  matcher? hp := hp
  lead _ _ := rfl
  aligned hp := hp

theorem contains (h : p.Extends q) (hid : p.contains id = true) : q.contains id = true := by
  rwa [contains_eq, h.kind? id hid, ← contains_eq]

theorem trans (h : p.Extends q) (h' : q.Extends r) : p.Extends r where
  ages := h.ages.trans h'.ages
  kind? id hid := (h'.kind? id (h.contains hid)).trans (h.kind? id hid)
  summary id hid := (h'.summary id (h.contains hid)).trans (h.summary id hid)
  isCanonical id hid := h'.isCanonical id (h.isCanonical id hid)
  roots id := (h'.roots id).trans (h.roots id)
  matcher? hp := h'.matcher? (h.matcher? hp)
  lead id hid := (h'.lead id (h.contains hid)).trans (h.lead id hid)
  aligned hp := h'.aligned (h.aligned hp)

theorem embeds_iff (h : p.Extends q) (hm : p.contains m = true) : q.Embeds m n ↔ p.Embeds m n := by
  unfold Embeds
  rw [h.kind? m hm]

theorem embeds (h : p.Extends q) (hmn : p.Embeds m n) : q.Embeds m n :=
  (h.embeds_iff hmn.contains).2 hmn

theorem kind?_eq_some (h : p.Extends q) (hk : p.kind? id = some k) : q.kind? id = some k :=
  (h.kind? id (kind?_isSome_iff.1 ⟨k, hk⟩)).trans hk

theorem domain_eq (h : p.Extends q) (hid : p.contains id = true) : q.domain? id = p.domain? id := by
  rw [Pool.domain?, h.kind? id hid, Pool.domain?]

theorem domain? (h : p.Extends q) {d : Domain} (hd : p.domain? id = some d) :
    q.domain? id = some d :=
  (h.domain_eq (contains_of_domain? hd)).trans hd

theorem summarize (h : p.Extends q) (hsubs : ∀ s ∈ k.subs, p.contains s = true) :
    q.summarize k = p.summarize k := summarize_congr fun s hs => h.summary s (hsubs s hs)

end Extends

/-! ## New nodes -/

variable {lead : Fin 8}

theorem contains_add (n : PatternId) :
    (p.add k lead).2.contains n = true ↔ n = p.fresh ∨ p.contains n = true := by
  rw [contains_eq, kind?_add, contains_eq]
  split <;> simp_all

theorem embeds_add : (p.add k lead).2.Embeds m n ↔ p.Embeds m n ∨ m = p.fresh ∧ n ∈ k.subs := by
  by_cases hm : m = p.fresh
  · have hnot : ¬ p.Embeds m n := fun h => ne_fresh_of_contains h.contains hm
    have hk : (p.add k lead).2.kind? m = some k := by rw [kind?_add, if_pos hm]
    rw [Pool.embeds_iff hk, or_iff_right hnot, and_iff_right hm]
  · unfold Embeds
    simp [kind?_add, hm]

theorem ids_add : (p.add k lead).2.ids = p.ids ++ [p.fresh] := by
  rw [ids, (fields_add p k).1, List.range_succ, List.map_append, List.filter_append]
  congr 1
  · apply List.filter_congr
    intro n hn
    obtain ⟨i, hi, rfl⟩ := List.mem_map.1 hn
    have hne : (⟨i⟩ : PatternId) ≠ p.fresh :=
      fun e => (List.mem_range.1 hi).ne (congrArg PatternId.index e)
    rw [contains_eq, contains_eq, kind?_add, if_neg hne]
  · apply List.filter_eq_self.2
    intro n hn
    exact contains_add n |>.2 (Or.inl (List.mem_singleton.1 hn))

theorem ages_add (p : Pool) (k : Kind PatternId) (lead : Fin 8) : p.Ages (p.add k lead).2 := by
  refine ⟨by rw [(fields_add p k).1]; exact Nat.le_succ _, fun n hn hlive => ?_⟩
  rcases (contains_add n).1 hlive with rfl | hold
  · exact absurd hn (lt_irrefl _)
  · exact hold

theorem extends_add (p : Pool) (k : Kind PatternId) (hlead : p.Aligned → lead = 0) :
    p.Extends (p.add k lead).2 where
  ages := ages_add p k lead
  kind? id hid := by rw [kind?_add, if_neg (ne_fresh_of_contains hid)]
  summary id hid := by rw [summary_add, if_neg (ne_fresh_of_contains hid)]
  isCanonical id hid := by rwa [isCanonical_add]
  roots := roots_add p k
  matcher? hp id := (matcher?_add p k id).trans (hp id)
  lead id hid := by rw [lead_add, if_neg (ne_fresh_of_contains hid)]
  aligned hp id := by
    rw [lead_add]
    split
    case isTrue => exact hlead hp
    case isFalse => exact hp id

theorem summarize_add {k' : Kind PatternId} (hsubs : ∀ s ∈ k'.subs, p.contains s = true) :
    (p.add k lead).2.summarize k' = p.summarize k' := by
  apply summarize_congr
  intro s hs
  rw [summary_add, if_neg (ne_fresh_of_contains (hsubs s hs))]

theorem WellFormed.add (h : p.WellFormed) (hk : k.Valid)
    (hsubs : ∀ s ∈ k.subs, p.contains s = true) : (p.add k lead).2.WellFormed where
  mem_supers m n := by
    rw [embeds_add, supers_add _ hsubs, ← h.mem_supers]
    by_cases hn : n ∈ k.subs
    · rw [if_pos hn, List.mem_insert_iff]
      simp [hn, or_comm]
    · simp [hn]
  nodup_supers n := by
    rw [supers_add _ hsubs]
    split
    · exact (h.nodup_supers n).insert
    · exact h.nodup_supers n
  acyclic := by
    -- nothing embeds the new node yet
    apply h.acyclic.of_new_source (s := p.fresh) (fun m n hmn =>
      (embeds_add.1 hmn).imp_right And.left)
    intro m hm
    rcases embeds_add.1 hm with hold | ⟨-, hsub⟩
    · exact ne_fresh_of_contains (h.contains_sub hold) rfl
    · exact ne_fresh_of_contains (hsubs _ hsub) rfl
  live_eq := by
    rw [(fields_add p k).2.1, ids_add, List.length_append, h.live_eq, List.length_singleton]
  valid id k' hk' := by
    rw [kind?_add] at hk'
    split at hk'
    · exact Option.some.inj hk' ▸ hk
    · exact h.valid id k' hk'
  settled id k' hk' := by
    rw [kind?_add] at hk'
    rw [summary_add]
    split at hk'
    case isTrue hid =>
      rw [if_pos hid, ← Option.some.inj hk', summarize_add hsubs]
    case isFalse hid =>
      rw [if_neg hid, h.settled id k' hk', summarize_add (h.contains_subs hk')]
  canonical_sub m n hmn hm := by
    rw [isCanonical_add] at hm ⊢
    rcases embeds_add.1 hmn with hold | ⟨hfresh, -⟩
    · exact h.canonical_sub m n hold hm
    · exact absurd hfresh (ne_fresh_of_contains (contains_of_isCanonical hm))
  registered shape id := by
    rw [(fields_add p k).2.2, isCanonical_add, h.registered, summary_add]
    apply and_congr_right
    intro hid
    rw [if_neg (ne_fresh_of_contains (contains_of_isCanonical hid))]
  distinct := by
    rw [(fields_add p k).2.2]
    exact h.distinct
  discerning := (sameDigest_add p k).trans h.discerning

/-! ## New representatives -/

theorem get?_appoint (p : Pool) (id n : PatternId) :
    (p.appoint id).get? n = (p.modify id ({ · with canonical := true })).get? n := rfl

theorem kind?_appoint (p : Pool) (id : PatternId) : (p.appoint id).kind? = p.kind? := by
  funext n
  rw [kind?, get?_appoint]
  exact view_modify (Option.map Node.kind) fun _ => rfl

theorem supers_appoint (p : Pool) (id : PatternId) : (p.appoint id).supers = p.supers := by
  funext n
  rw [supers, get?_appoint]
  exact view_modify (fun o => (o.map Node.supers).getD []) fun _ => rfl

theorem summary_appoint (p : Pool) (id : PatternId) : (p.appoint id).summary = p.summary := by
  funext n
  rw [summary, get?_appoint]
  exact view_modify (fun o => (o.map Node.summary).getD .absent) fun _ => rfl

theorem isCanonical_appoint (p : Pool) (id n : PatternId) :
    (p.appoint id).isCanonical n = if n = id then p.contains n else p.isCanonical n := by
  rw [isCanonical, get?_appoint, get?_modify]
  split
  · rw [contains]
    cases p.get? n <;> rfl
  · rfl

theorem lead_appoint (p : Pool) (id : PatternId) : (p.appoint id).lead = p.lead := by
  funext n
  rw [lead, get?_appoint]
  exact view_modify (fun o => (o.map Node.lead).getD 0) fun _ => rfl

theorem extends_appoint (p : Pool) (id : PatternId) : p.Extends (p.appoint id) where
  ages := Ages.of_contains (size_modify ..).ge fun n hn => by
    rwa [contains_congr (kind?_appoint p id)] at hn
  kind? n _ := congrFun (kind?_appoint p id) n
  summary n _ := congrFun (summary_appoint p id) n
  isCanonical n hn := by
    rw [isCanonical_appoint]
    split
    · exact contains_of_isCanonical hn
    · exact hn
  roots n := by
    rw [roots, get?_appoint]
    exact view_modify (fun o => (o.map Node.roots).getD 0) fun _ => rfl
  matcher? hp n := by
    rw [← hp n, matcher?, get?_appoint]
    exact view_modify (fun o => o.bind (·.matcher)) fun _ => rfl
  lead n _ := congrFun (lead_appoint p id) n
  aligned hp := hp.congr (lead_appoint p id)

theorem representatives_appoint (p : Pool) (id : PatternId) :
    (p.appoint id).representatives = p.representatives ++ [((p.summary id).shape, id)] := by
  rw [← summary_appoint p id]
  rfl

theorem WellFormed.appoint (h : p.WellFormed) (hid : p.contains id = true)
    (hsubs : ∀ s, p.Embeds id s → p.isCanonical s = true)
    (hnew : (p.summary id).shape ∉ p.representatives.map (·.1)) : (p.appoint id).WellFormed where
  toLinked := h.toLinked.congr (kind?_appoint p id) (supers_appoint p id) rfl (size_modify ..)
  valid := by rw [kind?_appoint]; exact h.valid
  settled := by
    unfold summarize
    rw [kind?_appoint, summary_appoint]
    exact h.settled
  canonical_sub m n hmn hm := by
    rw [embeds_congr (kind?_appoint p id)] at hmn
    apply (extends_appoint p id).isCanonical
    rw [isCanonical_appoint] at hm
    split at hm
    case isTrue heq => exact hsubs n (heq ▸ hmn)
    case isFalse => exact h.canonical_sub m n hmn hm
  registered shape n := by
    rw [representatives_appoint, List.mem_append, h.registered, List.mem_singleton, Prod.mk.injEq,
      isCanonical_appoint, summary_appoint]
    by_cases hn : n = id
    · simp only [hn, if_true, hid, and_true, true_and]
      exact or_iff_right_of_imp And.right
    · simp [hn]
  distinct := by
    rw [representatives_appoint, List.map_append, List.map_singleton, ← List.concat_eq_append]
    exact h.distinct.concat hnew
  discerning := h.discerning

end Sigil.Pool
