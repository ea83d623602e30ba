import Sigil.Proofs.Pool.Migration

namespace Sigil

namespace Edit

open Pool

variable {α β : Type} {p q : Pool}

theorem bind_eq_ok {e : Edit α} {f : α → Edit β} {b : β} (h : (e >>= f) p = .ok b q) :
    ∃ a r, e p = .ok a r ∧ f a r = .ok b q := by
  change EStateM.bind e f p = _ at h
  unfold EStateM.bind at h
  cases he : e p with
  | ok a r =>
    rw [he] at h
    exact ⟨a, r, rfl, h⟩
  | error error r =>
    rw [he] at h
    exact nomatch h

theorem node_eq_ok {id : PatternId} {node : Node} (h : Edit.node id p = .ok node q) :
    p.get? id = some node ∧ q = p := by
  unfold Edit.node at h
  cases hid : p.get? id with
  | none =>
    rw [hid] at h
    exact nomatch h
  | some node' =>
    rw [hid] at h
    obtain ⟨rfl, rfl⟩ := by simpa only [EStateM.Result.ok.injEq] using h
    exact ⟨rfl, rfl⟩

/-- A sub-pattern is appended to a live alternation or sequence that is not under it. -/
theorem pushSub_eq_ok {multi sub : PatternId} {u : Unit} (h : pushSub multi sub p = .ok u q) :
    ∃ k, p.kind? multi = some k ∧ k.isMulti = true ∧ p.contains sub = true ∧
      p.reaches sub multi = false ∧
      q = (p.appended multi sub).refresh multi := by
  obtain ⟨_, _, hnode, hrest⟩ := bind_eq_ok h
  obtain ⟨hsub, rfl⟩ := node_eq_ok hnode
  obtain ⟨node, r, hnode', hrest'⟩ := bind_eq_ok hrest
  obtain ⟨hmulti, rfl⟩ := node_eq_ok hnode'
  by_cases hkind : node.kind.isMulti = true
  case neg =>
    rw [if_neg hkind] at hrest'
    exact nomatch hrest'
  case pos =>
    rw [if_pos hkind] at hrest'
    cases hreach : r.reaches sub multi with
    | true =>
      change (if r.reaches sub multi = true then _ else _ : Edit Unit) r = _ at hrest'
      rw [if_pos hreach] at hrest'
      exact nomatch hrest'
    | false =>
      change (if r.reaches sub multi = true then _ else _ : Edit Unit) r = _ at hrest'
      rw [if_neg (by rw [hreach]; decide)] at hrest'
      refine ⟨node.kind, kind?_of_get? hmulti, hkind, contains_of_get? hsub, rfl, ?_⟩
      injection hrest' with _ hpool
      exact hpool.symm

/-- A live pattern gives way to its canonical one. -/
theorem mutatingCanonicalize_eq_ok {id c : PatternId} (h : mutatingCanonicalize id p = .ok c q) :
    ∃ shared, canonicalize id p = .ok c shared ∧ (c = id → q = shared) ∧
      (c ≠ id → shared.contains id = true ∧
        q = if shared.roots id = 0 ∧ shared.supers id ≠ [] then
          (shared.migrateSupers id c).destroy id else shared.migrateSupers id c) := by
  obtain ⟨c', shared, hcanonicalize, hrest⟩ := bind_eq_ok h
  by_cases hc : c' = id
  case pos =>
    rw [if_pos hc] at hrest
    injection hrest with hid hpool
    refine ⟨shared, by rw [hcanonicalize, hc, hid], fun _ => hpool.symm, fun hne =>
      absurd hid.symm hne⟩
  case neg =>
    rw [if_neg hc] at hrest
    obtain ⟨node, r, hnode, hrest'⟩ := bind_eq_ok hrest
    obtain ⟨hid, rfl⟩ := node_eq_ok hnode
    injection hrest' with heq hpool
    refine ⟨r, by rw [hcanonicalize, heq], fun h => absurd (heq.trans h) hc, fun _ =>
      ⟨contains_of_get? hid, ?_⟩⟩
    have hroots : r.roots id = node.roots := by rw [roots, hid, Option.map_some, Option.getD_some]
    rw [hroots, supers_of_get? hid, ← heq]
    exact hpool.symm

/-- What canonicalization in place starts from. -/
theorem canonicalize_of_ok (hp : p.WellFormed) {id c : PatternId} (h : canonicalize id p = .ok c q)
    (hne : c ≠ id) : q.WellFormed ∧ q.isCanonical id = false ∧ q.isCanonical c = true := by
  cases hid : p.contains id with
  | false =>
    rw [canonicalize_eq_error hid] at h
    exact nomatch h
  | true =>
    obtain ⟨c', q', hrun, hrefines, hcanonical, -, hself⟩ := canonicalize_spec hp hid
    rw [hrun] at h
    injection h with hc hq
    subst hc hq
    exact ⟨hrefines.wellFormed, hself hne, hcanonical⟩

end Edit

namespace Pool

open Relation (ReflTransGen)

variable {p : Pool}

/-- A summary is what is deduced from the tree. -/
theorem WellFormed.exists_deduced (h : p.WellFormed) {id : PatternId} (hid : p.contains id = true) :
    ∃ t, p.tree? id = some t ∧ p.summary id = t.deduced := by
  obtain ⟨t, ht, hunfolds⟩ := h.exists_tree hid
  exact ⟨t, ht, hunfolds.summary.symm.trans hunfolds.faithful.root⟩

/-- In every pool with a history, summaries are what is deduced from the trees, and every run of the
worklist ends. After a sub-pattern is appended all runs lead to the same pool. Where a pattern gives
way to its canonical one, this is so up to the order of back edges, in whatever order its supers are
redirected. -/
theorem run_summaries_coherent (cs : List Command) :
    let p := run cs
    (∀ id, p.contains id = true → ∃ t, p.tree? id = some t ∧ p.summary id = t.deduced) ∧
      (∀ pending, Acc (fun b a => Turn a b) (p, pending)) ∧
      (∀ multi sub q, Edit.pushSub multi sub p = .ok () q →
        (∀ pending, Acc (fun b a => Turn a b) (p.appended multi sub, pending)) ∧
          ∀ r, (p.appended multi sub).Settles multi r ↔ r = q) ∧
      ∀ id c q, Edit.mutatingCanonicalize id p = .ok c q →
        ∃ shared, Edit.canonicalize id p = .ok c shared ∧ (c = id → q = shared) ∧
          (c ≠ id → ∀ order, (shared.supers id).Perm order →
            Acc (fun b a => Migration id c a b) (shared, [], order) ∧
              (∃ r, ReflTransGen (Migration id c) (shared, [], order) (r, [], [])) ∧
              ∀ r, ReflTransGen (Migration id c) (shared, [], order) (r, [], []) →
                (if shared.roots id = 0 ∧ shared.supers id ≠ [] then r.destroy id
                  else r).Alike q) := by
  intro p
  have hp : p.WellFormed := wellFormed_run cs
  refine ⟨fun id hid => hp.exists_deduced hid, fun pending =>
    hp.acc_turn pending p ⟨rfl, rfl⟩, ?_, ?_⟩
  · intro multi sub q hpush
    obtain ⟨k, hk, hmulti, hsub, hno, rfl⟩ := Edit.pushSub_eq_ok hpush
    have hlive : p.contains multi = true := kind?_isSome_iff.1 ⟨k, hk⟩
    have hrewired := hp.rewired_appended hk hmulti hsub (hp.not_reaches hsub hno)
    exact ⟨fun pending => (hrewired.linked hp hlive).acc_turn pending _ ⟨rfl, rfl⟩,
      fun r => hrewired.settles_iff hp hlive⟩
  · intro id c q hmutating
    obtain ⟨shared, hcanonicalize, hsame, hother⟩ := Edit.mutatingCanonicalize_eq_ok hmutating
    refine ⟨shared, hcanonicalize, hsame, fun hne order horder => ?_⟩
    obtain ⟨hshared, hold, hnew⟩ := Edit.canonicalize_of_ok hp hcanonicalize hne
    obtain ⟨-, rfl⟩ := hother hne
    obtain ⟨hacc, hruns⟩ := hshared.migration hne.symm hold hnew horder
    refine ⟨hacc, ⟨_, (hruns _).2 rfl⟩, fun r hr => ?_⟩
    have halike : r.Alike (shared.migrateSupers id c) := by
      rw [(hruns r).1 hr]
      exact hshared.alike_foldl hne.symm hold hnew horder (List.Perm.refl _)
    split
    · exact halike.destroy id
    · exact halike

/-- An alternation grows under two patterns that share a third one above them, and a sequence of one
literal gives way to the literal in two patterns, the earlier one first. -/
theorem run_summaries_coherent_shared :
    (∃ q, Edit.pushSub ⟨1⟩ ⟨5⟩
      (run [.lit [97], .alt [⟨0⟩], .seq [⟨1⟩], .rep ⟨1⟩ (.atLeast 1), .seq [⟨2⟩, ⟨3⟩],
        .any 8]) = .ok () q ∧
      ∀ r, ((run [.lit [97], .alt [⟨0⟩], .seq [⟨1⟩], .rep ⟨1⟩ (.atLeast 1), .seq [⟨2⟩, ⟨3⟩],
        .any 8]).appended ⟨1⟩
        ⟨5⟩).Settles ⟨1⟩ r ↔ r = q) ∧
      ∃ c q shared, Edit.mutatingCanonicalize ⟨1⟩
          (run [.lit [97], .seq [⟨0⟩], .rep ⟨1⟩ (.atLeast 1), .seq [⟨1⟩, ⟨2⟩]]) = .ok c q ∧
        c ≠ ⟨1⟩ ∧ shared.supers ⟨1⟩ = [⟨3⟩, ⟨2⟩] ∧
        ∀ r, ReflTransGen (Migration ⟨1⟩ c) (shared, [], [⟨2⟩, ⟨3⟩]) (r, [], []) →
          (r.destroy ⟨1⟩).Alike q := by
  constructor
  · have hok : (match Edit.pushSub ⟨1⟩ ⟨5⟩ (run [.lit [97], .alt [⟨0⟩], .seq [⟨1⟩],
        .rep ⟨1⟩ (.atLeast 1), .seq [⟨2⟩, ⟨3⟩], .any 8]) with
      | .ok _ _ => true
      | .error _ _ => false) = true := by decide +kernel
    cases hpush : Edit.pushSub ⟨1⟩ ⟨5⟩ (run [.lit [97], .alt [⟨0⟩], .seq [⟨1⟩],
        .rep ⟨1⟩ (.atLeast 1), .seq [⟨2⟩, ⟨3⟩], .any 8]) with
    | error e q =>
      rw [hpush] at hok
      exact absurd hok Bool.false_ne_true
    | ok u q => exact ⟨q, rfl, ((run_summaries_coherent _).2.2.1 ⟨1⟩ ⟨5⟩ q hpush).2⟩
  · have hok : (match Edit.mutatingCanonicalize ⟨1⟩
        (run [.lit [97], .seq [⟨0⟩], .rep ⟨1⟩ (.atLeast 1), .seq [⟨1⟩, ⟨2⟩]]) with
      | .ok c _ => decide (c ≠ ⟨1⟩)
      | .error _ _ => false) = true := by decide +kernel
    have hshared : (match Edit.canonicalize ⟨1⟩
        (run [.lit [97], .seq [⟨0⟩], .rep ⟨1⟩ (.atLeast 1), .seq [⟨1⟩, ⟨2⟩]]) with
      | .ok _ shared => decide (shared.supers ⟨1⟩ = [⟨3⟩, ⟨2⟩] ∧ shared.roots ⟨1⟩ = 0)
      | .error _ _ => false) = true := by decide +kernel
    cases hmutating : Edit.mutatingCanonicalize ⟨1⟩
        (run [.lit [97], .seq [⟨0⟩], .rep ⟨1⟩ (.atLeast 1), .seq [⟨1⟩, ⟨2⟩]]) with
    | error e q =>
      rw [hmutating] at hok
      exact absurd hok Bool.false_ne_true
    | ok c q =>
      rw [hmutating] at hok
      have hne : c ≠ ⟨1⟩ := of_decide_eq_true hok
      obtain ⟨shared, hcanonicalize, -, hruns⟩ := (run_summaries_coherent _).2.2.2 ⟨1⟩ c q hmutating
      rw [hcanonicalize] at hshared
      obtain ⟨hsupers, hroots⟩ := of_decide_eq_true hshared
      have horder : (shared.supers ⟨1⟩).Perm [⟨2⟩, ⟨3⟩] := by
        rw [hsupers]
        exact List.Perm.swap ..
      refine ⟨c, q, shared, rfl, hne, hsupers, fun r hr => ?_⟩
      have halike := (hruns hne _ horder).2.2 r hr
      rwa [if_pos ⟨hroots, by rw [hsupers]; exact List.cons_ne_nil _ _⟩] at halike

end Pool

end Sigil
