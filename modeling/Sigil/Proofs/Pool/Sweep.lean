import Sigil.Proofs.Pool.Matching

namespace Sigil.Pool

open Relation (ReflTransGen)

variable {p q r : Pool} {id m n : PatternId} {node : Node}

/-! ## No new orphans -/

/-- Without a node, only its sub-patterns can have become orphans. -/
theorem WellFormed.isOrphan_drop (h : p.WellFormed) (hnode : p.get? id = some node)
    (hn : (p.drop id node).isOrphan n = true) :
    n ∈ node.kind.subs ∨ p.isOrphan n = true ∧ n ≠ id := by
  have hid : p.contains id = true := contains_of_get? hnode
  obtain ⟨hlive, hroots, hsupers⟩ := isOrphan_iff.1 hn
  obtain ⟨hne, hold⟩ := (contains_drop hid node n).1 hlive
  have hsame : (p.drop id node).roots n = if n = id then 0 else p.roots n :=
    view_drop (fun o => (o.map Node.roots).getD 0) (fun _ _ => rfl) hid node n
  rw [hsame, if_neg hne] at hroots
  rw [supers_drop h.toLinked hid, if_neg hne] at hsupers
  by_cases hsub : n ∈ node.kind.subs
  · exact Or.inl hsub
  · rw [if_neg hsub] at hsupers
    exact Or.inr ⟨isOrphan_iff.2 ⟨hold, hroots, hsupers⟩, hne⟩

/-- Steps that make no orphans, each of which leaves one pattern that is none. -/
theorem isOrphan_foldl {step : Pool → PatternId → Pool} {ids : List PatternId}
    (hstep : ∀ q, p.Shrinks q → ∀ id ∈ ids, p.Shrinks (step q id) ∧
      ∀ n, (step q id).isOrphan n = true → q.isOrphan n = true ∧ n ≠ id)
    (hq : p.Shrinks q) (hn : (ids.foldl step q).isOrphan n = true) :
    q.isOrphan n = true ∧ n ∉ ids := by
  induction ids generalizing q with
  | nil => exact ⟨hn, List.not_mem_nil⟩
  | cons id ids ih =>
    obtain ⟨hshrinks, hold⟩ := hstep q hq id List.mem_cons_self
    obtain ⟨horphan, hnot⟩ := ih (fun r hr i hi => hstep r hr i (List.mem_cons_of_mem id hi))
      hshrinks hn
    obtain ⟨horphan, hne⟩ := hold n horphan
    exact ⟨horphan, List.not_mem_cons_of_ne_of_not_mem hne hnot⟩

/-- A pattern is destroyed with all that it orphans. -/
theorem WellFormed.isOrphan_destroyDown (h : p.WellFormed) (hid : p.contains id = true) :
    ∀ q, p.Shrinks q → (q.contains id = true → q.roots id = 0 ∧ q.supers id = []) →
      ∀ n, (destroyDown p.nodes.size q id).isOrphan n = true → q.isOrphan n = true ∧ n ≠ id := by
  -- on the way down the pool shrinks, so that its paths stay paths of the pool that the fuel is for
  refine h.fuel_induction (P := fun fuel id => ∀ q, p.Shrinks q →
    (q.contains id = true → q.roots id = 0 ∧ q.supers id = []) →
      ∀ n, (destroyDown fuel q id).isOrphan n = true → q.isOrphan n = true ∧ n ≠ id) ?_ hid
  intro fuel m ih q hq horphan n hn
  rw [destroyDown] at hn
  cases hnode : q.get? m with
  | none =>
    rw [hnode] at hn
    refine ⟨hn, ?_⟩
    rintro rfl
    have hlive := (isOrphan_iff.1 hn).1
    rw [contains, hnode] at hlive
    exact Bool.false_ne_true hlive
  | some node =>
    rw [hnode] at hn
    obtain ⟨hroots, hsupers⟩ := horphan (contains_of_get? hnode)
    have hdropped : p.Shrinks (q.drop m node) :=
      hq.trans (hq.wellFormed.shrinks_drop hnode hroots hsupers)
    have hstep : ∀ r, p.Shrinks r → ∀ s ∈ node.kind.subs,
        p.Shrinks (if r.isOrphan s then destroyDown fuel r s else r) ∧
          ∀ n, (if r.isOrphan s then destroyDown fuel r s else r).isOrphan n = true →
            r.isOrphan n = true ∧ n ≠ s := by
      intro r hr s hs
      have hms : p.Embeds m s := hq.embeds ⟨_, kind?_of_get? hnode, hs⟩
      refine ⟨hr.trans (hr.wellFormed.shrinks_destroyDown_of_orphan fuel s), fun n hn => ?_⟩
      split at hn
      case isTrue hsub => exact ih s hms r hr (fun _ => (isOrphan_iff.1 hsub).2) n hn
      case isFalse hsub =>
        refine ⟨hn, ?_⟩
        rintro rfl
        exact hsub hn
    obtain ⟨hleft, hnot⟩ := isOrphan_foldl hstep hdropped hn
    exact (hq.wellFormed.isOrphan_drop hnode hleft).resolve_left hnot

theorem WellFormed.isOrphan_destroy (h : p.WellFormed)
    (hid : p.contains id = true → p.roots id = 0 ∧ p.supers id = [])
    (hn : (p.destroy id).isOrphan n = true) : p.isOrphan n = true ∧ n ≠ id := by
  cases hlive : p.contains id with
  | true => exact h.isOrphan_destroyDown hlive p (Shrinks.refl h) hid n hn
  | false =>
    have hsame : p.destroy id = p := by
      rw [contains, Option.isSome_eq_false_iff, Option.isNone_iff_eq_none] at hlive
      unfold destroy
      cases p.nodes.size with
      | zero => rfl
      | succ fuel => rw [destroyDown, hlive]
    rw [hsame] at hn
    refine ⟨hn, ?_⟩
    rintro rfl
    rw [(isOrphan_iff.1 hn).1] at hlive
    exact Bool.noConfusion hlive

/-! ## What is held -/

/-- Where there are no orphans, every pattern is at or under one that is held. -/
theorem Linked.exists_held (h : p.Linked) (hnone : ∀ n, p.isOrphan n = false)
    (hn : p.contains n = true) : ∃ r, 0 < p.roots r ∧ ReflTransGen p.Embeds r n := by
  refine h.fuel_induction_up (P := fun _ n => p.contains n = true → ∃ r, 0 < p.roots r ∧
    ReflTransGen p.Embeds r n)
    ?_ hn hn
  intro _ n ih hn
  rcases Nat.eq_zero_or_pos (p.roots n) with hroots | hroots
  · cases hsupers : p.supers n with
    | nil =>
      have horphan := isOrphan_iff.2 ⟨hn, hroots, hsupers⟩
      rw [hnone n] at horphan
      exact absurd horphan Bool.false_ne_true
    | cons m _ =>
      have hmn : p.Embeds m n := (h.mem_supers m n).1 (hsupers ▸ List.mem_cons_self)
      obtain ⟨r, hr, hrm⟩ := ih m hmn hmn.contains
      exact ⟨r, hr, hrm.tail hmn⟩
  · exact ⟨n, hroots, ReflTransGen.refl⟩

namespace Shrinks

/-- What is at or under a held pattern stays. -/
theorem contains_of_held (h : p.Shrinks q) (hm : 0 < p.roots m) (hmn : ReflTransGen p.Embeds m n) :
    q.contains n = true := by
  induction hmn with
  | refl => exact h.held m hm
  | tail _ hlast ih => exact h.wellFormed.contains_sub ((h.embeds_iff ih).2 hlast)

theorem mem_supers_iff (h : p.Shrinks q) (hp : p.WellFormed) :
    m ∈ q.supers n ↔ m ∈ p.supers n ∧ q.contains m = true := by
  rw [h.wellFormed.mem_supers, hp.mem_supers]
  constructor
  · exact fun hmn => ⟨h.embeds hmn, hmn.contains⟩
  · exact fun ⟨hmn, hm⟩ => (h.embeds_iff hm).2 hmn

theorem get?_eq (h : p.Shrinks q) (hn : q.contains n = true) :
    q.get? n = (p.get? n).map fun node => { node with supers := q.supers n } := by
  have hsame := h.view (fun o => o.map fun node => { node with supers := q.supers n }) (fun _ _ =>
    rfl) n hn
  rw [← hsame, supers]
  cases q.get? n <;> rfl

/-- A pattern that is left has the tree that it had. -/
theorem tree?_eq (h : p.Shrinks q) (hp : p.WellFormed) (hn : q.contains n = true) :
    q.tree? n = p.tree? n := by
  refine h.wellFormed.induction (P := fun n => q.contains n = true → q.tree? n = p.tree? n) ?_ hn hn
  intro m ih hm
  obtain ⟨node, hnode⟩ := Option.isSome_iff_exists.1 (h.contains hm)
  have hleft : q.get? m = some { node with supers := q.supers m } := by
    rw [h.get?_eq hm, hnode, Option.map_some]
  rw [h.wellFormed.tree?_eq hleft, hp.tree?_eq hnode]
  refine congrArg (Option.map (Tree.node node.note)) (Kind.traverse_congr fun s hs => ?_)
  have hms : q.Embeds m s := ⟨_, kind?_of_get? hleft, hs⟩
  exact ih s hms (h.wellFormed.contains_sub hms)

/-- What is missing are the patterns that have gone. -/
theorem live_add_length (h : p.Shrinks q) (hp : p.WellFormed) :
    q.live + (p.ids.filter fun n => !q.contains n).length = p.live := by
  have hleft : q.ids.Perm (p.ids.filter q.contains) := by
    rw [List.perm_ext_iff_of_nodup (nodup_ids q) ((nodup_ids p).filter _)]
    intro n
    rw [mem_ids, List.mem_filter, mem_ids]
    exact ⟨fun hn => ⟨h.contains hn, hn⟩, And.right⟩
  rw [hp.live_eq, h.wellFormed.live_eq, hleft.length_eq]
  exact (List.length_eq_length_filter_add q.contains).symm

theorem live_sub_live (h : p.Shrinks q) (hp : p.WellFormed) :
    p.live - q.live = (p.ids.filter fun n => !q.contains n).length :=
  Nat.sub_eq_of_eq_add' (h.live_add_length hp).symm

end Shrinks

/-! ## The sweep -/

def swept (p : Pool) : Pool := (p.ids.filter p.isOrphan).foldl destroy p

theorem sweep_eq (p : Pool) : Edit.sweep p = .ok (p.live - p.swept.live) p.swept := rfl

theorem WellFormed.shrinks_swept (h : p.WellFormed) : p.Shrinks p.swept :=
  h.shrinks_foldl_destroy (fun _ hid => (List.mem_filter.1 hid).2) (Shrinks.refl h)

theorem WellFormed.isOrphan_swept (h : p.WellFormed) (n : PatternId) :
    p.swept.isOrphan n = false := by
  have hstep : ∀ q, p.Shrinks q → ∀ id ∈ p.ids.filter p.isOrphan, p.Shrinks (q.destroy id) ∧
      ∀ n, (q.destroy id).isOrphan n = true → q.isOrphan n = true ∧ n ≠ id := by
    intro q hq id hid
    obtain ⟨-, hroots, hsupers⟩ := isOrphan_iff.1 (List.mem_filter.1 hid).2
    have hfree : q.contains id = true → q.roots id = 0 ∧ q.supers id = [] := fun _ =>
      ⟨(congrFun hq.roots id).trans hroots, hq.supers_eq_nil h hsupers⟩
    exact ⟨hq.trans (hq.wellFormed.shrinks_destroy hfree), fun n hn =>
      hq.wellFormed.isOrphan_destroy hfree hn⟩
  by_contra horphan
  rw [Bool.not_eq_false] at horphan
  obtain ⟨hold, hnot⟩ := isOrphan_foldl hstep (Shrinks.refl h) horphan
  -- every orphan that there was has been destroyed
  exact hnot (List.mem_filter.2 ⟨mem_ids.2 (isOrphan_iff.1 hold).1, hold⟩)

theorem swept_eq_self (hnone : ∀ n, p.isOrphan n = false) : p.swept = p := by
  rw [swept, List.filter_eq_nil_iff.2 fun n _ => by rw [hnone n]; exact Bool.false_ne_true]
  rfl

/-- A sweep leaves exactly what is at or under a held pattern, and counts what it takes. What is
left loses nothing but back edges to what has gone, so it matches as it did, and there is nothing
for a second sweep to do. -/
theorem run_sweep_exact (cs : List Command) :
    let p := run cs
    ∃ count q, Edit.sweep p = .ok count q ∧
      (∀ n, q.contains n = true ↔ ∃ r, 0 < p.roots r ∧ ReflTransGen p.Embeds r n) ∧
      count = (p.ids.filter fun n => !q.contains n).length ∧
      (∀ n, q.contains n = true →
        q.get? n = (p.get? n).map (fun node => { node with supers := q.supers n }) ∧
          (∀ m, m ∈ q.supers n ↔ m ∈ p.supers n ∧ q.contains m = true) ∧
          ∀ data region mode, q.matchIn n data region mode = p.matchIn n data region mode) ∧
      Edit.sweep q = .ok 0 q := by
  intro p
  have hp : p.WellFormed := wellFormed_run cs
  have hshrinks := hp.shrinks_swept
  have hnone := hp.isOrphan_swept
  refine ⟨_, _, sweep_eq p, fun n => ⟨fun hn => ?_, ?_⟩, hshrinks.live_sub_live hp, fun n hn =>
    ?_, ?_⟩
  · obtain ⟨r, hr, hrn⟩ := hshrinks.wellFormed.exists_held hnone hn
    rw [hshrinks.roots] at hr
    exact ⟨r, hr, ReflTransGen.mono (fun _ _ h => hshrinks.embeds h) _ _ hrn⟩
  · rintro ⟨r, hr, hrn⟩
    exact hshrinks.contains_of_held hr hrn
  · refine ⟨hshrinks.get?_eq hn, fun m => hshrinks.mem_supers_iff hp, fun data region mode => ?_⟩
    rw [matchIn, matchIn, hshrinks.tree?_eq hp hn]
  · rw [sweep_eq, swept_eq_self hnone, Nat.sub_self]

end Sigil.Pool
