import Sigil.Proofs.Pool.Alike
import Sigil.Proofs.Pool.Rewiring

namespace Sigil.Pool

open Relation (ReflTransGen)

variable {p q r : Pool} {id s m n : PatternId} {k : Kind PatternId} {a b : Pool × List PatternId}

/-- One turn of the worklist. The patterns above a node are a set, of which `order` is one
enumeration. -/
inductive Turn : Pool × List PatternId → Pool × List PatternId → Prop where
  | skip {p : Pool} {id : PatternId} {rest : List PatternId}
      (hsettled : ∀ node, p.get? id = some node → p.summarize node.kind = node.summary) :
      Turn (p, id :: rest) (p, rest)
  | mend {p : Pool} {id : PatternId} {rest order : List PatternId} {node : Node}
    (hnode : p.get? id = some node)
      (hstale : p.summarize node.kind ≠ node.summary) (horder : order.Perm node.supers) :
      Turn (p, id :: rest) (p.revise id node (p.summarize node.kind), order ++ rest)

def Settles (p : Pool) (id : PatternId) (q : Pool) : Prop := ReflTransGen Turn (p, [id]) (q, [])

theorem label_revise (p : Pool) (id : PatternId) (node : Node) (summary : Summary) :
    (p.revise id node summary).label = p.label := by
  have hmodify : (p.modify id ({ · with summary := summary, canonical := false })).label =
    p.label :=
    label_modify fun _ => ⟨rfl, rfl, rfl, rfl⟩
  funext n
  rw [label, get?_revise, ← hmodify, label]

theorem growthBits_revise (p : Pool) (id : PatternId) (node : Node) (summary : Summary) :
    (p.revise id node summary).growthBits = p.growthBits := by
  unfold revise
  split <;> rfl

/-- What is left of the representatives is what is left of the canonical patterns. -/
theorem representatives_revise {node : Node} (hnode : p.get? id = some node) (summary : Summary)
    {entries : List (Shape × PatternId)}
    (h : p.representatives = entries.filter (p.isCanonical ·.2)) :
    (p.revise id node summary).representatives =
      entries.filter ((p.revise id node summary).isCanonical ·.2) := by
  have hcanonical : p.isCanonical id = node.canonical := by rw [isCanonical, hnode, Option.any_some]
  simp only [isCanonical_revise]
  unfold revise
  split
  case isTrue =>
    rw [forget]
    dsimp only
    rw [representatives_modify, h, List.filter_filter]
    apply List.filter_congr
    intro entry _
    by_cases hid : entry.2 = id
    · simp [hid]
    · simp [hid]
  case isFalse hnot =>
    rw [representatives_modify, h]
    apply List.filter_congr
    intro entry _
    split
    case isTrue hid =>
      rw [hid, hcanonical]
      exact Bool.not_eq_true _ ▸ hnot
    case isFalse => rfl

theorem stale_iff {node : Node} (hnode : p.get? id = some node) :
    p.Stale id ↔ p.summarize node.kind ≠ node.summary := by
  have hsummary : p.summary id = node.summary := by
    rw [Pool.summary, hnode, Option.map_some, Option.getD_some]
  constructor
  · rintro ⟨k, hk, hne⟩
    rw [kind?_of_get? hnode, Option.some.injEq] at hk
    rw [← hsummary, hk]
    exact hne.symm
  · intro hne
    exact ⟨node.kind, kind?_of_get? hnode, by rw [hsummary]; exact hne.symm⟩

/-! ## Every run of turns ends -/

theorem Turn.graph (h : Turn a b) :
    b.1.kind? = a.1.kind? ∧ b.1.supers = a.1.supers ∧ b.1.sameDigest = a.1.sameDigest := by
  cases h with
  | skip => exact ⟨rfl, rfl, rfl⟩
  | @mend p id rest order node hnode =>
    have hrevised : Refreshed (fun _ => True) p (p.revise id node (p.summarize node.kind)) :=
      refreshed_revise hnode trivial
    exact ⟨hrevised.kind?, hrevised.supers, hrevised.sameDigest⟩

theorem graph_of_turns (h : ReflTransGen Turn a b) :
    b.1.kind? = a.1.kind? ∧ b.1.supers = a.1.supers ∧ b.1.sameDigest = a.1.sameDigest := by
  induction h with
  | refl => exact ⟨rfl, rfl, rfl⟩
  | tail _ hlast ih =>
    obtain ⟨hkind, hsupers, hdigest⟩ := hlast.graph
    exact ⟨hkind.trans ih.1, hsupers.trans ih.2.1, hdigest.trans ih.2.2⟩

theorem acc_turn_append {P : Pool → Prop} {ids rest : List PatternId}
    (hids : ∀ id ∈ ids, ∀ rest, (∀ q, P q → Acc (fun b a => Turn a b) (q, rest)) →
      ∀ q, P q → Acc (fun b a => Turn a b) (q, id :: rest))
    (hrest : ∀ q, P q → Acc (fun b a => Turn a b) (q, rest)) :
    ∀ q, P q → Acc (fun b a => Turn a b) (q, ids ++ rest) := by
  induction ids with
  | nil => exact hrest
  | cons id ids ih =>
    exact hids id List.mem_cons_self _ (ih fun i hi => hids i (List.mem_cons_of_mem id hi))

/-- A pending pattern gives way to patterns above it, of which there are no infinite chains. -/
theorem Linked.acc_turn (h : p.Linked) (pending : List PatternId) :
    ∀ q, q.kind? = p.kind? ∧ q.supers = p.supers → Acc (fun b a => Turn a b) (q, pending) := by
  have hdrop : ∀ id, p.contains id = true → ∀ rest,
      (∀ q, q.kind? = p.kind? ∧ q.supers = p.supers → Acc (fun b a => Turn a b) (q, rest)) →
      ∀ q, q.kind? = p.kind? ∧ q.supers = p.supers → Acc (fun b a => Turn a b) (q, id :: rest) := by
    intro id hid
    refine h.fuel_induction_up (P := fun _ id => ∀ rest,
      (∀ q, q.kind? = p.kind? ∧ q.supers = p.supers → Acc (fun b a => Turn a b) (q, rest)) →
      ∀ q, q.kind? = p.kind? ∧ q.supers = p.supers → Acc (fun b a => Turn a b) (q, id :: rest)) ?_
        hid
    intro _ n ih rest hrest q hq
    refine Acc.intro _ fun b hturn => ?_
    have hgraph := hturn.graph
    cases hturn with
    | skip => exact hrest q hq
    | mend hnode _ horder =>
      refine acc_turn_append (fun m hm => ih m ?_) hrest _ ⟨hgraph.1.trans hq.1,
        hgraph.2.1.trans hq.2⟩
      rw [← h.mem_supers, ← hq.2, supers_of_get? hnode]
      exact horder.subset hm
  refine List.append_nil pending ▸ acc_turn_append (fun id _ rest hrest q hq => ?_) fun q _ => ?_
  · cases hid : p.contains id with
    | true => exact hdrop id hid rest hrest q hq
    | false =>
      -- a dead pattern can only be skipped
      refine Acc.intro _ fun b hturn => ?_
      cases hturn with
      | skip => exact hrest q hq
      | mend hnode =>
        have hlive := contains_of_get? hnode
        rw [contains_congr hq.1, hid] at hlive
        exact absurd hlive Bool.false_ne_true
  · exact Acc.intro _ fun b hturn => nomatch hturn

/-! ## A refresh is a run of turns -/

theorem turns_foldl {refresh : Pool → PatternId → Pool} {ids : List PatternId} {P : Pool → Prop}
    (hP : ∀ q r, P q → r.kind? = q.kind? ∧ r.supers = q.supers ∧ r.sameDigest = q.sameDigest → P r)
    (h : ∀ id ∈ ids, ∀ q, P q → ∀ rest, ReflTransGen Turn (q, id :: rest) (refresh q id, rest)) :
    ∀ q, P q → ∀ rest, ReflTransGen Turn (q, ids ++ rest) (ids.foldl refresh q, rest) := by
  induction ids with
  | nil => exact fun q _ rest => ReflTransGen.refl
  | cons id ids ih =>
    intro q hq rest
    have hfirst := h id List.mem_cons_self q hq (ids ++ rest)
    exact hfirst.trans (ih (fun i hi => h i (List.mem_cons_of_mem id hi)) _ (hP q _ hq
      (graph_of_turns hfirst)) rest)

theorem Linked.turns_refreshUp (h : p.Linked) (hdiscerning : p.Discerning)
    (hid : p.contains id = true) :
    ∀ q, q.kind? = p.kind? ∧ q.supers = p.supers ∧ q.sameDigest = p.sameDigest → ∀ rest,
      ReflTransGen Turn (q, id :: rest) (refreshUp p.nodes.size q id, rest) := by
  refine h.fuel_induction_up (P := fun fuel id =>
    ∀ q, q.kind? = p.kind? ∧ q.supers = p.supers ∧ q.sameDigest = p.sameDigest → ∀ rest,
      ReflTransGen Turn (q, id :: rest) (refreshUp fuel q id, rest)) ?_ hid
  intro fuel n ih q hq rest
  rw [refreshUp]
  cases hnode : q.get? n with
  | none => exact ReflTransGen.single (.skip fun node h => absurd (hnode.symm.trans h) (by simp))
  | some node =>
    have hq' : q.Discerning := hq.2.2.trans hdiscerning
    dsimp only
    split
    case isTrue hsame =>
      refine ReflTransGen.single (.skip fun node' h => ?_)
      rw [hnode, Option.some.injEq] at h
      rw [← h, hq'.sameSummary_iff.1 hsame]
    case isFalse hdiffer =>
      have hstale : q.summarize node.kind ≠ node.summary := mt hq'.sameSummary_iff.2 hdiffer
      have hturn : Turn (q, n :: rest) (q.revise n node (q.summarize node.kind),
          node.supers ++ rest) :=
        .mend hnode hstale (List.Perm.refl _)
      have hgraph := hturn.graph
      refine (turns_foldl
        (fun q r hq hr => ⟨hr.1.trans hq.1, hr.2.1.trans hq.2.1, hr.2.2.trans hq.2.2⟩)
        (fun m hm => ih m ?_) _
        ⟨hgraph.1.trans hq.1, hgraph.2.1.trans hq.2.1, hgraph.2.2.trans hq.2.2⟩ rest).head hturn
      rw [← h.mem_supers, ← hq.2.1, supers_of_get? hnode]
      exact hm

theorem Linked.settles_refresh (h : p.Linked) (hdiscerning : p.Discerning)
    (hid : p.contains id = true) : p.Settles id (p.refresh id) :=
  h.turns_refreshUp hdiscerning hid p ⟨rfl, rfl, rfl⟩ []

/-! ## What every run keeps -/

structure Worked (s : PatternId) (p : Pool) (a : Pool × List PatternId) : Prop
    extends Refreshed (ReflTransGen p.Embeds · s) p a.1 where
  label : a.1.label = p.label
  growthBits : a.1.growthBits = p.growthBits
  representatives : a.1.representatives = p.representatives.filter (a.1.isCanonical ·.2)
  above : ∀ n ∈ a.2, ReflTransGen p.Embeds n s
  stale : ∀ n, a.1.Stale n → n ∈ a.2

theorem Worked.start (hregistered : p.Registered) (hstale : ∀ n, p.Stale n → n = s) :
    Worked s p (p, [s]) where
  toRefreshed := Refreshed.refl _ p
  label := rfl
  growthBits := rfl
  representatives :=
    (List.filter_eq_self.2 fun entry hentry => ((hregistered entry.1 entry.2).1 hentry).1).symm
  above n hn := by rw [List.mem_singleton.1 hn]
  stale n hn := List.mem_singleton.2 (hstale n hn)

theorem Worked.turn (h : Worked s p a) (hp : p.Linked) (hturn : Turn a b) : Worked s p b := by
  cases hturn with
  | @skip q id rest hsettled =>
    refine { h with above := fun n hn => h.above n (List.mem_cons_of_mem id hn), stale :=
      fun n hn => ?_ }
    refine (List.mem_cons.1 (h.stale n hn)).resolve_left ?_
    rintro rfl
    have ⟨k, hk, _⟩ := hn
    obtain ⟨node, hnode, -⟩ := Option.map_eq_some_iff.1 hk
    exact (stale_iff hnode).1 hn (hsettled node hnode)
  | @mend q id rest order node hnode _ horder =>
    have habove : ReflTransGen p.Embeds id s := h.above id List.mem_cons_self
    have hembeds : q.Embeds = p.Embeds := embeds_congr h.kind?
    have hmem : ∀ m, m ∈ order ↔ p.Embeds m id := by
      intro m
      rw [horder.mem_iff, ← supers_of_get? hnode, h.supers, hp.mem_supers]
    exact {
      toRefreshed := h.toRefreshed.trans (refreshed_revise hnode habove)
      label := (label_revise ..).trans h.label
      growthBits := (growthBits_revise ..).trans h.growthBits
      representatives := representatives_revise hnode _ h.representatives
      above := by
        intro n hn
        rcases List.mem_append.1 hn with hn | hn
        · exact habove.head ((hmem n).1 hn)
        · exact h.above n (List.mem_cons_of_mem id hn)
      stale := by
        intro n hn
        rcases stale_revise (hembeds ▸ hp.acyclic.not_self id) hnode hn with hembedded | ⟨hold, hne⟩
        · exact List.mem_append_left _ ((hmem n).2 (hembeds ▸ hembedded))
        · exact List.mem_append_right _ ((List.mem_cons.1 (h.stale n hold)).resolve_left hne) }

theorem Worked.turns (h : Worked s p a) (hp : p.Linked) (hturns : ReflTransGen Turn a b) :
    Worked s p b := by
  induction hturns with
  | refl => exact h
  | tail _ hlast ih => exact ih.turn hp hlast

/-! ## All runs end with the same pool -/

/-- Where no node is stale, the sub-patterns decide all summaries. -/
theorem Linked.summary_eq_of_settled (h : p.Linked) (hq : q.kind? = p.kind?)
    (hr : r.kind? = p.kind?) (hqs : ∀ n, ¬ q.Stale n) (hrs : ∀ n, ¬ r.Stale n) :
    r.summary = q.summary := by
  funext n
  cases hn : p.contains n with
  | false =>
    have hqn : q.contains n = false := by rw [contains_congr hq, hn]
    have hrn : r.contains n = false := by rw [contains_congr hr, hn]
    rw [contains, Option.isSome_eq_false_iff, Option.isNone_iff_eq_none] at hqn hrn
    rw [Pool.summary, Pool.summary, hqn, hrn]
  | true =>
    refine h.induction (P := fun n => p.contains n = true → r.summary n = q.summary n) ?_ hn hn
    intro m ih hm
    obtain ⟨k, hk⟩ := kind?_isSome_iff.2 hm
    have hqm : q.summary m = q.summarize k := by
      by_contra hne
      exact hqs m ⟨k, by rw [hq, hk], hne⟩
    have hrm : r.summary m = r.summarize k := by
      by_contra hne
      exact hrs m ⟨k, by rw [hr, hk], hne⟩
    rw [hqm, hrm]
    exact summarize_congr fun s hs => ih s ⟨k, hk, hs⟩ (h.contains_sub ⟨k, hk, hs⟩)

theorem eq_of_turns_nil (h : ReflTransGen Turn (p, []) a) : a = (p, []) := by
  rcases h.cases_head with heq | ⟨_, hturn, _⟩
  · exact heq.symm
  · exact nomatch hturn

/-- Nothing comes of a node that is not stale. -/
theorem Settles.eq_of_not_stale (h : p.Settles s q) (hs : ¬ p.Stale s) : q = p := by
  rcases h.cases_head with heq | ⟨_, hturn, hrest⟩
  · simp at heq
  · cases hturn with
    | skip => exact congrArg Prod.fst (eq_of_turns_nil hrest)
    | mend hnode hstale => exact absurd ((stale_iff hnode).2 hstale) hs

namespace Rewired

theorem worked (h : Rewired p r s k) (hp : p.WellFormed) (hs : p.contains s = true)
    (hq : r.Settles s q) : Worked s r (q, []) :=
  (Worked.start (h.registered hp) fun _ hn => h.eq_of_stale hp hn).turns (h.linked hp hs) hq

/-- All above the rewired node that was stale loses its place, and nothing else does. -/
theorem isCanonical_of_settles (h : Rewired p r s k) (hp : p.WellFormed) (hs : p.contains s = true)
    (hstale : r.Stale s) (hq : r.Settles s q) (n : PatternId)
    [Decidable (ReflTransGen r.Embeds n s)] :
    q.isCanonical n = if ReflTransGen r.Embeds n s then false else r.isCanonical n := by
  have hworked := h.worked hp hs hq
  have hsettled : ∀ n, ¬ q.Stale n := fun n hn => List.not_mem_nil (hworked.stale n hn)
  rcases hworked.summary_or n with ⟨hsummary, hcanonical⟩ | ⟨habove, hcanonical⟩
  · rw [if_neg fun habove => ?_]
    · exact hcanonical
    · exact h.shape_ne_of_stale hp hs hstale hworked.toRefreshed hsettled habove
        (congrArg Summary.shape hsummary)
  · rw [if_pos habove]
    exact hcanonical

/-- In whatever order the patterns above are enumerated, working off the rewired node leads to its
refresh. -/
theorem settles_iff (h : Rewired p r s k) (hp : p.WellFormed) (hs : p.contains s = true) :
    r.Settles s q ↔ q = r.refresh s := by
  have hlive : r.contains s = true := by rw [h.contains hs, hs]
  have hrefresh : r.Settles s (r.refresh s) :=
    (h.linked hp hs).settles_refresh (h.sameDigest.trans hp.discerning) hlive
  constructor
  · intro hq
    by_cases hstale : r.Stale s
    case neg => rw [hq.eq_of_not_stale hstale, hrefresh.eq_of_not_stale hstale]
    case pos =>
      classical
      have hworked := h.worked hp hs hq
      have hworked' := h.worked hp hs hrefresh
      have hcanonical : q.isCanonical = (r.refresh s).isCanonical := by
        funext n
        rw [h.isCanonical_of_settles hp hs hstale hq,
          h.isCanonical_of_settles hp hs hstale hrefresh]
      have hsummary : q.summary = (r.refresh s).summary :=
        (h.linked hp hs).summary_eq_of_settled hworked'.kind? hworked.kind?
          (fun n hn => List.not_mem_nil (hworked'.stale n hn)) fun n hn =>
            List.not_mem_nil (hworked.stale n hn)
      have hsupers : q.supers = (r.refresh s).supers := hworked.supers.trans hworked'.supers.symm
      refine (Alike.of_views (hworked.kind?.trans hworked'.kind?.symm)
        (hworked.label.trans hworked'.label.symm)
        hsummary hcanonical (fun n => by rw [hsupers]) (hworked.size.trans hworked'.size.symm)
        (hworked.live.trans hworked'.live.symm) ?_
        (hworked.growthBits.trans hworked'.growthBits.symm)
        (hworked.sameDigest.trans hworked'.sameDigest.symm)).eq hsupers
      rw [hworked.representatives, hworked'.representatives, hcanonical]
  · rintro rfl
    exact hrefresh

end Rewired

end Sigil.Pool
