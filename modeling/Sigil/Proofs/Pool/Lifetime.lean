import Sigil.Pool.Lifetime
import Sigil.Proofs.Pool.WellFormed

namespace Sigil.Pool

open Relation (ReflTransGen)

variable {p q r : Pool} {id m n : PatternId} {node : Node}

theorem isOrphan_iff :
    p.isOrphan id = true ↔ p.contains id = true ∧ p.roots id = 0 ∧ p.supers id = [] := by
  rw [isOrphan, contains, roots, supers]
  cases p.get? id <;> simp

/-- `q` is `p` without some patterns that nobody holds. Of the patterns that are left, nothing but
the back edges may differ. -/
structure Shrinks (p q : Pool) : Prop where
  wellFormed : q.WellFormed
  view : ∀ {τ : Type} (view : Option Node → τ),
    (∀ (node : Node) supers, view (some { node with supers := supers }) = view (some node)) →
      ∀ n, q.contains n = true → view (q.get? n) = view (p.get? n)
  held : ∀ n, 0 < p.roots n → q.contains n = true
  size : q.nodes.size = p.nodes.size

namespace Shrinks

theorem refl (h : p.WellFormed) : p.Shrinks p where
  wellFormed := h
  view _ _ _ _ := rfl
  held _ hn := contains_of_roots_pos hn
  size := rfl

theorem kind? (h : p.Shrinks q) (hn : q.contains n = true) : q.kind? n = p.kind? n :=
  h.view (Option.map (·.kind)) (fun _ _ => rfl) n hn

/-- What is gone had no holders, so that the holders are the same everywhere. -/
theorem roots (h : p.Shrinks q) : q.roots = p.roots := by
  funext n
  cases hn : q.contains n with
  | true => exact h.view (fun o => (o.map Node.roots).getD 0) (fun _ _ => rfl) n hn
  | false =>
    by_contra hne
    rw [roots_eq_zero hn] at hne
    rw [h.held n (Nat.pos_of_ne_zero (Ne.symm hne))] at hn
    exact Bool.noConfusion hn

theorem matcher? (h : p.Shrinks q) (hn : q.contains n = true) : q.matcher? n = p.matcher? n :=
  h.view (fun o => o.bind (·.matcher)) (fun _ _ => rfl) n hn

theorem lead (h : p.Shrinks q) (hn : q.contains n = true) : q.lead n = p.lead n :=
  h.view (fun o => (o.map Node.lead).getD 0) (fun _ _ => rfl) n hn

theorem aligned (h : p.Shrinks q) (hp : p.Aligned) : q.Aligned := by
  intro n
  cases hn : q.contains n with
  | true => exact (h.lead hn).trans (hp n)
  | false =>
    rw [Pool.contains, Option.isSome_eq_false_iff, Option.isNone_iff_eq_none] at hn
    rw [Pool.lead, hn, Option.map_none, Option.getD_none]

theorem contains (h : p.Shrinks q) (hn : q.contains n = true) : p.contains n = true := by
  rwa [contains_eq, ← h.kind? hn, ← contains_eq]

theorem domain? (h : p.Shrinks q) (hn : q.contains n = true) : q.domain? n = p.domain? n := by
  rw [Pool.domain?, h.kind? hn, Pool.domain?]

theorem trans (h : p.Shrinks q) (h' : q.Shrinks r) : p.Shrinks r where
  wellFormed := h'.wellFormed
  view f hf n hn := (h'.view f hf n hn).trans (h.view f hf n (h'.contains hn))
  held n hn := h'.held n (by rwa [h.roots])
  size := h'.size.trans h.size

theorem embeds_iff (h : p.Shrinks q) (hm : q.contains m = true) : q.Embeds m n ↔ p.Embeds m n := by
  unfold Embeds
  rw [h.kind? hm]

theorem embeds (h : p.Shrinks q) (hmn : q.Embeds m n) : p.Embeds m n :=
  (h.embeds_iff hmn.contains).1 hmn

theorem supers_eq_nil (h : p.Shrinks q) (hp : p.WellFormed) (hn : p.supers n = []) :
    q.supers n = [] := by
  apply List.eq_nil_iff_forall_not_mem.2
  intro m hm
  have hmn := (h.wellFormed.mem_supers m n).1 hm
  have hold := (hp.mem_supers m n).2 (h.embeds hmn)
  rw [hn] at hold
  exact absurd hold List.not_mem_nil

end Shrinks

/-! ## Dropping a node -/

/-- The pool with a hole in the place of a node, before back edges are removed. -/
theorem get?_hole (p : Pool) (id n : PatternId) (live : Nat) (hid : p.contains id = true) :
    Pool.get? { p with nodes := p.nodes.setIfInBounds id.index none, live := live } n =
      if n = id then none else p.get? n := by
  rw [get?, Array.getElem?_setIfInBounds]
  by_cases hn : n = id
  · rw [if_pos hn, if_pos (congrArg PatternId.index hn).symm, if_pos (index_lt_of_contains hid)]
    rfl
  · have hindex : id.index ≠ n.index := fun e => hn (congrArg PatternId.mk e).symm
    rw [if_neg hn, if_neg hindex, get?]

section Drop

def dropped (p : Pool) (id : PatternId) (node : Node) : Pool :=
  let holed : Pool := { p with nodes := p.nodes.setIfInBounds id.index none, live := p.live - 1 }
  if node.canonical then holed.forget id else holed

theorem drop_eq (p : Pool) (id : PatternId) (node : Node) :
    p.drop id node = node.kind.subs.foldl (fun q sub => q.unlink sub id) (p.dropped id node) := rfl

theorem get?_dropped (hid : p.contains id = true) (node : Node) (n : PatternId) :
    (p.dropped id node).get? n = if n = id then none else p.get? n := by
  unfold dropped
  dsimp only
  split
  · exact get?_hole p id n (p.live - 1) hid
  · exact get?_hole p id n (p.live - 1) hid

/-- A view that does not look at back edges sees the node vanish and nothing else change. -/
theorem view_drop {τ : Type} (view : Option Node → τ)
    (hview : ∀ (node : Node) supers, view (some { node with supers := supers }) = view (some node))
    (hid : p.contains id = true) (node : Node) (n : PatternId) :
    view ((p.drop id node).get? n) = if n = id then view none else view (p.get? n) := by
  rw [drop_eq]
  apply (view_foldl_modify view (fun node => hview node _) node.kind.subs _).trans
  rw [get?_dropped hid, apply_ite view]

theorem kind?_drop (hid : p.contains id = true) (node : Node) (n : PatternId) :
    (p.drop id node).kind? n = if n = id then none else p.kind? n :=
  view_drop (Option.map (·.kind)) (fun _ _ => rfl) hid node n

theorem summary_drop (hid : p.contains id = true) (node : Node) (n : PatternId) :
    (p.drop id node).summary n = if n = id then .absent else p.summary n :=
  view_drop (fun o => (o.map Node.summary).getD .absent) (fun _ _ => rfl) hid node n

theorem isCanonical_drop (hid : p.contains id = true) (node : Node) (n : PatternId) :
    (p.drop id node).isCanonical n = if n = id then false else p.isCanonical n :=
  view_drop (Option.any (·.canonical)) (fun _ _ => rfl) hid node n

theorem contains_drop (hid : p.contains id = true) (node : Node) (n : PatternId) :
    (p.drop id node).contains n = true ↔ n ≠ id ∧ p.contains n = true := by
  rw [contains_eq, kind?_drop hid, contains_eq]
  split <;> simp_all

theorem supers_drop (h : p.Linked) (hid : p.contains id = true) (node : Node) (n : PatternId) :
    (p.drop id node).supers n = if n = id then [] else
      if n ∈ node.kind.subs then (p.supers n).erase id else p.supers n := by
  by_cases hn : n = id
  · rw [if_pos hn, List.eq_nil_iff_forall_not_mem]
    intro m hm
    exact ((contains_drop hid node n).1 (contains_of_mem_supers hm)).1 hn
  · have hdropped : (p.dropped id node).supers n = p.supers n := by
      rw [supers, get?_dropped hid, if_neg hn, supers]
    rw [if_neg hn, drop_eq, supers_foldl_unlink _ _ (by rw [hdropped]; exact h.nodup_supers n),
      hdropped]

theorem representatives_drop (p : Pool) (id : PatternId) (node : Node) :
    (p.drop id node).representatives =
      (if node.canonical then p.forget id else p).representatives := by
  obtain ⟨-, -, hreps⟩ :=
    fields_foldl_modify (fun n => { n with supers := n.supers.erase id }) node.kind.subs
      (p.dropped id node)
  rw [drop_eq]
  apply Eq.trans hreps
  unfold dropped
  dsimp only
  split <;> rfl

theorem fields_drop (p : Pool) (id : PatternId) (node : Node) :
    (p.drop id node).nodes.size = p.nodes.size ∧ (p.drop id node).live = p.live - 1 ∧
      ∀ entry, entry ∈ (p.drop id node).representatives ↔
        entry ∈ p.representatives ∧ (node.canonical = true → entry.2 ≠ id) := by
  obtain ⟨hsize, hlive, -⟩ :=
    fields_foldl_modify (fun n => { n with supers := n.supers.erase id }) node.kind.subs
      (p.dropped id node)
  refine ⟨hsize.trans ?_, hlive.trans ?_, ?_⟩
  · unfold dropped
    dsimp only
    split <;> exact Array.size_setIfInBounds
  · unfold dropped
    dsimp only
    split <;> rfl
  · intro entry
    rw [representatives_drop, mem_representatives_forget]

theorem sameDigest_drop (p : Pool) (id : PatternId) (node : Node) :
    (p.drop id node).sameDigest = p.sameDigest := by
  rw [drop_eq]
  apply (foldl_modify_eq (·.sameDigest) (fun _ _ => rfl) node.kind.subs _).trans
  unfold dropped
  dsimp only
  split <;> rfl

theorem ids_drop (hid : p.contains id = true) (node : Node) :
    (p.drop id node).ids = p.ids.erase id := by
  rw [(nodup_ids p).erase_eq_filter, ids, ids, (fields_drop p id node).1, List.filter_filter]
  apply List.filter_congr
  intro n _
  rw [Bool.eq_iff_iff, contains_drop hid, Bool.and_eq_true, bne_iff_ne]

end Drop

theorem kind?_drop_eq_some (hid : p.contains id = true) {k : Kind PatternId} :
    (p.drop id node).kind? n = some k ↔ n ≠ id ∧ p.kind? n = some k := by
  rw [kind?_drop hid]
  split
  case isTrue hn => simp [hn]
  case isFalse hn => simp [hn]

theorem embeds_drop (hid : p.contains id = true) :
    (p.drop id node).Embeds m n ↔ m ≠ id ∧ p.Embeds m n := by
  unfold Embeds
  simp only [kind?_drop_eq_some hid, and_assoc, exists_and_left]

/-- Without a node that nothing embeds, the graph is still linked. -/
theorem Linked.drop (h : p.Linked) (hnode : p.get? id = some node) (hnone : ∀ m, ¬ p.Embeds m id) :
    (p.drop id node).Linked := by
  have hid : p.contains id = true := contains_of_get? hnode
  have hkind : p.kind? id = some node.kind := kind?_of_get? hnode
  obtain ⟨hsize, hlive, -⟩ := fields_drop p id node
  exact {
    mem_supers := by
      intro m n
      rw [embeds_drop hid, supers_drop h hid]
      by_cases hn : n = id
      · simp [hn, hnone]
      · rw [if_neg hn, ← h.mem_supers]
        split
        case isTrue => exact (h.nodup_supers n).mem_erase_iff
        case isFalse hnot =>
          -- the node that goes did not embed `n`, so it is not in its back edges
          rw [iff_and_self, h.mem_supers]
          rintro hmn rfl
          exact hnot ((embeds_iff hkind).1 hmn)
    nodup_supers := by
      intro n
      rw [supers_drop h hid]
      split
      · exact List.nodup_nil
      · split
        · exact (h.nodup_supers n).erase id
        · exact h.nodup_supers n
    acyclic := h.acyclic.mono fun m n hmn => ((embeds_drop hid).1 hmn).2
    live_eq := by
      rw [hlive, ids_drop hid, List.length_erase_of_mem (mem_ids.2 hid), h.live_eq] }

theorem registered_drop (h : p.Registered) (hnode : p.get? id = some node) :
    (p.drop id node).Registered := by
  have hid : p.contains id = true := contains_of_get? hnode
  obtain ⟨-, -, hreps⟩ := fields_drop p id node
  apply h.of_forgotten hnode hreps (isCanonical_drop hid node)
  intro n hn
  rw [summary_drop hid, if_neg hn]

theorem WellFormed.drop (h : p.WellFormed) (hnode : p.get? id = some node)
    (hsupers : p.supers id = []) : (p.drop id node).WellFormed := by
  have hid : p.contains id = true := contains_of_get? hnode
  have hnone : ∀ m, ¬ p.Embeds m id := by
    intro m hm
    have hmem := (h.mem_supers m id).2 hm
    rw [hsupers] at hmem
    exact absurd hmem List.not_mem_nil
  have hne : ∀ m n, p.Embeds m n → n ≠ id := by
    rintro m n hmn rfl
    exact hnone m hmn
  exact {
    toLinked := h.toLinked.drop hnode hnone
    valid := fun n k hk => h.valid n k ((kind?_drop_eq_some hid).1 hk).2
    settled := by
      intro n k hdrop
      obtain ⟨hn, hk⟩ := (kind?_drop_eq_some hid).1 hdrop
      have hsame : (p.drop id node).summarize k = p.summarize k := by
        apply summarize_congr
        intro s hs
        rw [summary_drop hid, if_neg (hne n s ⟨k, hk, hs⟩)]
      rw [summary_drop hid, if_neg hn, hsame]
      exact h.settled n k hk
    canonical_sub := by
      intro m n hdrop hm
      obtain ⟨hmid, hmn⟩ := (embeds_drop hid).1 hdrop
      rw [isCanonical_drop hid, if_neg hmid] at hm
      rw [isCanonical_drop hid, if_neg (hne m n hmn)]
      exact h.canonical_sub m n hmn hm
    registered := registered_drop h.registered hnode
    distinct := by
      rw [representatives_drop]
      exact h.distinct.sublist ((representatives_sublist_forget ..).map _)
    discerning := (sameDigest_drop p id node).trans h.discerning }

/-! ## Destroying downwards -/

theorem WellFormed.shrinks_drop (h : p.WellFormed) (hnode : p.get? id = some node)
    (hroots : p.roots id = 0) (hsupers : p.supers id = []) : p.Shrinks (p.drop id node) := by
  have hid : p.contains id = true := contains_of_get? hnode
  exact {
    wellFormed := h.drop hnode hsupers
    view := by
      intro τ view hview n hn
      rw [view_drop view hview hid, if_neg ((contains_drop hid node n).1 hn).1]
    held := by
      intro n hn
      rw [contains_drop hid]
      refine ⟨?_, (Shrinks.refl h).held n hn⟩
      rintro rfl
      omega
    size := (fields_drop p id node).1 }

theorem shrinks_foldl {step : Pool → PatternId → Pool}
    (hstep : ∀ q : Pool, q.WellFormed → ∀ id, q.Shrinks (step q id)) (ids : List PatternId)
    {q : Pool} (hq : p.Shrinks q) : p.Shrinks (ids.foldl step q) := by
  induction ids generalizing q with
  | nil => exact hq
  | cons id ids ih => exact ih (hq.trans (hstep q hq.wellFormed id))

/-- A pattern is destroyed with what is orphaned under it, and all else stays. -/
theorem WellFormed.shrinks_destroyDown (fuel : Nat) (h : p.WellFormed)
    (horphan : p.contains id = true → p.roots id = 0 ∧ p.supers id = []) :
    p.Shrinks (destroyDown fuel p id) := by
  induction fuel generalizing p id with
  | zero => exact Shrinks.refl h
  | succ fuel ih =>
    rw [destroyDown]
    cases hnode : p.get? id with
    | none => exact Shrinks.refl h
    | some node =>
      have hid : p.contains id = true := contains_of_get? hnode
      obtain ⟨hroots, hsupers⟩ := horphan hid
      have hstep : ∀ q : Pool, q.WellFormed → ∀ sub,
          q.Shrinks (if q.isOrphan sub then destroyDown fuel q sub else q) := by
        intro q hq sub
        split
        case isTrue hsub => exact ih hq fun _ => (isOrphan_iff.1 hsub).2
        case isFalse => exact Shrinks.refl hq
      exact shrinks_foldl hstep node.kind.subs (h.shrinks_drop hnode hroots hsupers)

/-- What is done with a sub-pattern of a pattern that goes. -/
theorem WellFormed.shrinks_destroyDown_of_orphan (h : p.WellFormed) (fuel : Nat) (sub : PatternId) :
    p.Shrinks (if p.isOrphan sub then destroyDown fuel p sub else p) := by
  split
  case isTrue hsub => exact h.shrinks_destroyDown fuel fun _ => (isOrphan_iff.1 hsub).2
  case isFalse => exact Shrinks.refl h

theorem WellFormed.shrinks_destroy (h : p.WellFormed)
    (horphan : p.contains id = true → p.roots id = 0 ∧ p.supers id = []) :
    p.Shrinks (p.destroy id) :=
  h.shrinks_destroyDown _ horphan

/-- Orphans can be destroyed one after the other, since an orphan stays one until it is
destroyed. -/
theorem WellFormed.shrinks_foldl_destroy (h : p.WellFormed) {ids : List PatternId}
    (hids : ∀ id ∈ ids, p.isOrphan id = true) {q : Pool} (hq : p.Shrinks q) :
    p.Shrinks (ids.foldl destroy q) := by
  induction ids generalizing q with
  | nil => exact hq
  | cons id ids ih =>
    obtain ⟨-, hroots, hsupers⟩ := isOrphan_iff.1 (hids id List.mem_cons_self)
    refine ih (fun i hi => hids i (List.mem_cons_of_mem id hi))
      (hq.trans (hq.wellFormed.shrinks_destroy ?_))
    intro hid
    exact ⟨(congrFun hq.roots id).trans hroots, hq.supers_eq_nil h hsupers⟩

end Sigil.Pool
