import Sigil.Proofs.Pool.WellFormed

namespace Sigil.Pool

open Relation (ReflTransGen)

variable {p q r : Pool} {id m n : PatternId} {k : Kind PatternId}

def Stale (p : Pool) (id : PatternId) : Prop :=
  ∃ k, p.kind? id = some k ∧ p.summary id ≠ p.summarize k

theorem get?_revise (p : Pool) (id : PatternId) (node : Node) (summary : Summary) (n : PatternId) :
    (p.revise id node summary).get? n =
      (p.modify id ({ · with summary := summary, canonical := false })).get? n := by
  unfold revise
  split <;> rfl

/-! ## What a refresh leaves alone -/

/-- `q` is `p` with new summaries for some of the `touched` patterns, which are canonical no
longer. -/
structure Refreshed (touched : PatternId → Prop) (p q : Pool) : Prop where
  kind? : q.kind? = p.kind?
  supers : q.supers = p.supers
  roots : q.roots = p.roots
  lead : q.lead = p.lead
  live : q.live = p.live
  size : q.nodes.size = p.nodes.size
  summary_or : ∀ n, q.summary n = p.summary n ∧ q.isCanonical n = p.isCanonical n ∨
    touched n ∧ q.isCanonical n = false
  registered : p.Registered → q.Registered
  representatives_sublist : q.representatives.Sublist p.representatives
  sameDigest : q.sameDigest = p.sameDigest

namespace Refreshed

variable {touched more : PatternId → Prop}

theorem refl (touched : PatternId → Prop) (p : Pool) : Refreshed touched p p where
  kind? := rfl
  supers := rfl
  roots := rfl
  lead := rfl
  live := rfl
  size := rfl
  summary_or _ := Or.inl ⟨rfl, rfl⟩
  registered h := h
  representatives_sublist := List.Sublist.refl _
  sameDigest := rfl

theorem trans (h : Refreshed touched p q) (h' : Refreshed touched q r) : Refreshed touched p r where
  kind? := h'.kind?.trans h.kind?
  supers := h'.supers.trans h.supers
  roots := h'.roots.trans h.roots
  lead := h'.lead.trans h.lead
  live := h'.live.trans h.live
  size := h'.size.trans h.size
  summary_or n := by
    rcases h'.summary_or n with ⟨hsummary, hcanonical⟩ | htouched
    · rw [hsummary, hcanonical]
      exact h.summary_or n
    · exact Or.inr htouched
  registered hp := h'.registered (h.registered hp)
  representatives_sublist := h'.representatives_sublist.trans h.representatives_sublist
  sameDigest := h'.sameDigest.trans h.sameDigest

theorem mono (h : Refreshed touched p q) (hsub : ∀ n, touched n → more n) : Refreshed more p q :=
  { h with summary_or := fun n => (h.summary_or n).imp_right (And.imp_left (hsub n)) }

end Refreshed

section Revise

variable {node : Node} {summary : Summary}

theorem summary_revise (hnode : p.get? id = some node) (n : PatternId) :
    (p.revise id node summary).summary n = if n = id then summary else p.summary n := by
  rw [Pool.summary, get?_revise, get?_modify]
  split
  case isTrue h =>
    rw [h, hnode]
    rfl
  case isFalse => rfl

theorem isCanonical_revise (p : Pool) (id : PatternId) (node : Node) (summary : Summary)
    (n : PatternId) :
    (p.revise id node summary).isCanonical n = if n = id then false else p.isCanonical n := by
  rw [isCanonical, get?_revise, get?_modify]
  split
  · cases p.get? n <;> rfl
  · rfl

theorem mem_representatives_revise (entry : Shape × PatternId) :
    entry ∈ (p.revise id node summary).representatives ↔
      entry ∈ p.representatives ∧ (node.canonical = true → entry.2 ≠ id) := by
  unfold revise
  dsimp only
  rw [mem_representatives_forget, representatives_modify]

theorem registered_revise (hnode : p.get? id = some node) (h : p.Registered) :
    (p.revise id node summary).Registered := by
  apply h.of_forgotten hnode mem_representatives_revise (isCanonical_revise p id node summary)
  intro n hn
  rw [summary_revise hnode, if_neg hn]

theorem refreshed_revise {touched : PatternId → Prop} (hnode : p.get? id = some node)
    (hid : touched id) : Refreshed touched p (p.revise id node summary) where
  kind? := by
    funext n
    rw [Pool.kind?, get?_revise]
    exact view_modify (Option.map Node.kind) fun _ => rfl
  supers := by
    funext n
    rw [Pool.supers, get?_revise]
    exact view_modify (fun o => (o.map Node.supers).getD []) fun _ => rfl
  roots := by
    funext n
    rw [Pool.roots, get?_revise]
    exact view_modify (fun o => (o.map Node.roots).getD 0) fun _ => rfl
  lead := by
    funext n
    rw [Pool.lead, get?_revise]
    exact view_modify (fun o => (o.map Node.lead).getD 0) fun _ => rfl
  live := by
    unfold revise
    split <;> rfl
  size := by
    unfold revise
    split <;> exact size_modify ..
  summary_or n := by
    rw [summary_revise hnode, isCanonical_revise]
    by_cases hn : n = id
    · exact Or.inr ⟨hn ▸ hid, if_pos hn⟩
    · exact Or.inl ⟨if_neg hn, if_neg hn⟩
  registered := registered_revise hnode
  representatives_sublist := representatives_sublist_forget ..
  sameDigest := by
    unfold revise
    dsimp only
    split <;> rfl

/-- A node that gets its summary is stale no longer; only the nodes above it may become so. -/
theorem stale_revise (hacyclic : ¬ p.Embeds id id) (hnode : p.get? id = some node)
    (hstale : (p.revise id node (p.summarize node.kind)).Stale n) :
    p.Embeds n id ∨ p.Stale n ∧ n ≠ id := by
  obtain ⟨k, hk, hsummary⟩ := hstale
  have hrevised : Refreshed (fun _ => True) p (p.revise id node (p.summarize node.kind)) :=
    refreshed_revise hnode trivial
  rw [hrevised.kind?] at hk
  by_cases hid : id ∈ k.subs
  · exact Or.inl ⟨k, hk, hid⟩
  · have hsame : (p.revise id node (p.summarize node.kind)).summarize k = p.summarize k := by
      apply summarize_congr
      intro s hs
      have hne : s ≠ id := fun e => hid (e ▸ hs)
      rw [summary_revise hnode, if_neg hne]
    rw [summary_revise hnode, hsame] at hsummary
    refine Or.inr ⟨⟨k, hk, ?_⟩, ?_⟩
    · by_cases hn : n = id
      · rw [if_pos hn] at hsummary
        rw [Pool.kind?, hn, hnode, Option.map_some, Option.some.injEq] at hk
        exact absurd (by rw [hk]) hsummary
      · rwa [if_neg hn] at hsummary
    · rintro rfl
      rw [Pool.kind?, hnode, Option.map_some, Option.some.injEq] at hk
      rw [if_pos rfl] at hsummary
      exact hsummary (by rw [hk])

end Revise

/-! ## Refreshing upwards -/

/-- A refresh of `touched` patterns that makes none stale and leaves none of the `mended` ones
so. -/
structure Mends (touched mended : PatternId → Prop) (p q : Pool) :
    Prop extends Refreshed touched p q where
  stale : ∀ n, q.Stale n → p.Stale n ∧ ¬ mended n

theorem Mends.trans {touched mended more : PatternId → Prop} (h : Mends touched mended p q)
    (h' : Mends touched more q r) : Mends touched (fun n => mended n ∨ more n) p r where
  toRefreshed := h.toRefreshed.trans h'.toRefreshed
  stale n hn := by
    obtain ⟨hstale, hmore⟩ := h'.stale n hn
    obtain ⟨hstale', hmended⟩ := h.stale n hstale
    exact ⟨hstale', not_or.2 ⟨hmended, hmore⟩⟩

theorem mends_foldl {refresh : Pool → PatternId → Pool} {ids : List PatternId}
    {touched : PatternId → Prop}
    (hrefresh : ∀ id ∈ ids, ∀ q, q.kind? = p.kind? → q.supers = p.supers → q.Discerning →
      Mends touched (· = id) q (refresh q id)) :
    ∀ q, q.kind? = p.kind? → q.supers = p.supers → q.Discerning →
      Mends touched (· ∈ ids) q (ids.foldl refresh q) := by
  induction ids with
  | nil =>
    intro q _ _ _
    exact { Refreshed.refl touched q with stale := fun n hn => ⟨hn, List.not_mem_nil⟩ }
  | cons id ids ih =>
    intro q hkind hsupers hdiscerning
    have hfirst := hrefresh id List.mem_cons_self q hkind hsupers hdiscerning
    have hrest := ih (fun i hi => hrefresh i (List.mem_cons_of_mem id hi)) _
      (hfirst.kind?.trans hkind) (hfirst.supers.trans hsupers) (hfirst.sameDigest.trans hdiscerning)
    have hboth := hfirst.trans hrest
    exact { hboth with stale := fun n hn => by simpa only [List.mem_cons] using hboth.stale n hn }

theorem Linked.mends_refreshUp (h : p.Linked) (hid : p.contains id = true) :
    ∀ q, q.kind? = p.kind? → q.supers = p.supers → q.Discerning →
      Mends (ReflTransGen p.Embeds · id) (· = id) q (refreshUp p.nodes.size q id) := by
  refine h.fuel_induction_up (P := fun fuel id => ∀ q, q.kind? = p.kind? → q.supers = p.supers →
    q.Discerning →
    Mends (ReflTransGen p.Embeds · id) (· = id) q (refreshUp fuel q id)) ?_ hid
  intro fuel n ih q hkind hsupers hdiscerning
  rw [refreshUp]
  cases hnode : q.get? n with
  | none =>
    -- a dead pattern is never stale
    refine { Refreshed.refl _ q with stale := fun m hm => ⟨hm, ?_⟩ }
    rintro rfl
    obtain ⟨k, hk, -⟩ := hm
    rw [Pool.kind?, hnode] at hk
    exact absurd hk (by simp)
  | some node =>
    have hkn : q.kind? n = some node.kind := kind?_of_get? hnode
    dsimp only
    split
    case isTrue hsame =>
      -- the summary is up to date, so the refresh stops here
      refine { Refreshed.refl _ q with stale := fun m hm => ⟨hm, ?_⟩ }
      rintro rfl
      obtain ⟨k, hk, hsummary⟩ := hm
      rw [hkn, Option.some.injEq] at hk
      rw [Pool.summary, hnode, ← hk, hdiscerning.sameSummary_iff.1 hsame] at hsummary
      exact hsummary rfl
    case isFalse =>
      have hnodesupers : node.supers = p.supers n := by
        rw [← hsupers, Pool.supers, hnode]
        rfl
      have hembeds : q.Embeds = p.Embeds := embeds_congr hkind
      have hrevised : Refreshed (ReflTransGen p.Embeds · n) q
          (q.revise n node (q.summarize node.kind)) :=
        refreshed_revise hnode ReflTransGen.refl
      have habove : ∀ m ∈ node.supers, ∀ q, q.kind? = p.kind? → q.supers = p.supers → q.Discerning →
          Mends (ReflTransGen p.Embeds · n) (· = m) q (refreshUp fuel q m) := by
        intro m hm q hkind hsupers hdiscerning
        have hmn : p.Embeds m n := (h.mem_supers m n).1 (hnodesupers ▸ hm)
        have hmends := ih m hmn q hkind hsupers hdiscerning
        exact { hmends with toRefreshed := hmends.mono fun x hx => hx.tail hmn }
      have hfold :=
        mends_foldl habove _ (hrevised.kind?.trans hkind) (hrevised.supers.trans hsupers)
        (hrevised.sameDigest.trans hdiscerning)
      -- every pattern above the one that was revised is refreshed, so none of them stays stale
      refine { hrevised.trans hfold.toRefreshed with stale := fun m hm => ?_ }
      obtain ⟨hstale, hnot⟩ := hfold.stale m hm
      rcases stale_revise (hembeds ▸ h.acyclic.not_self n) hnode hstale with hmn | hold
      · rw [hembeds, ← h.mem_supers, ← hnodesupers] at hmn
        exact absurd hmn hnot
      · exact hold

theorem Linked.mends_refresh (h : p.Linked) (hdiscerning : p.Discerning)
    (hid : p.contains id = true) : Mends (ReflTransGen p.Embeds · id) (· = id) p (p.refresh id) :=
  h.mends_refreshUp hid p rfl rfl hdiscerning

end Sigil.Pool
