import Mathlib.Data.Set.Card
import Sigil.Proofs.Pool.Alike
import Sigil.Proofs.Pool.Sweep

namespace Sigil.Pool

open Relation (ReflTransGen)

variable {p q r : Pool} {id m n : PatternId} {node : Node} {a b : Pool × List PatternId}

/-- The set holds `id`, and with a pattern each sub-pattern that nobody holds and nothing outside of
the set embeds. -/
structure Closed (p : Pool) (id : PatternId) (S : Set PatternId) : Prop where
  self : id ∈ S
  sub : ∀ m ∈ S, ∀ n, p.contains n = true → p.roots n = 0 → p.Embeds m n →
    (∀ s ∈ p.supers n, s ∈ S) → n ∈ S

/-- One step of destruction: any of the pending patterns is taken. If it is still there it is
dropped, and the sub-patterns that are orphans now become pending. -/
inductive Discard : Pool × List PatternId → Pool × List PatternId → Prop where
  | skip {p : Pool} {id : PatternId} {pending rest : List PatternId}
    (hperm : pending.Perm (id :: rest))
      (hgone : p.get? id = none) : Discard (p, pending) (p, rest)
  | drop {p : Pool} {id : PatternId} {pending rest : List PatternId} {node : Node}
    (hperm : pending.Perm (id :: rest))
      (hnode : p.get? id = some node) :
      Discard (p, pending) (p.drop id node, node.kind.subs.filter (p.drop id node).isOrphan ++ rest)

/-- Each step takes a pattern out of the pool, or else one off the list. -/
theorem wellFounded_discard : WellFounded fun b a => Discard a b := by
  refine Subrelation.wf (fun {b a} hstep => ?_) (InvImage.wf (fun a : Pool × List PatternId =>
    (a.1.ids.length, a.2.length)) (WellFounded.prod_lex Nat.lt_wfRel.wf Nat.lt_wfRel.wf))
  cases hstep with
  | skip hperm => exact Prod.Lex.right _ (by rw [hperm.length_eq]; exact Nat.lt_succ_self _)
  | drop _ hnode =>
    have hid := contains_of_get? hnode
    apply Prod.Lex.left
    dsimp only
    rw [ids_drop hid, List.length_erase_of_mem (mem_ids.2 hid)]
    exact Nat.sub_lt (List.length_pos_of_mem (mem_ids.2 hid)) Nat.one_pos

/-! ## What one drop takes away -/

theorem growthBits_drop (p : Pool) (id : PatternId) (node : Node) :
    (p.drop id node).growthBits = p.growthBits := by
  rw [drop_eq]
  apply (foldl_modify_eq (·.growthBits) (fun _ _ => rfl) node.kind.subs _).trans
  unfold dropped
  dsimp only
  split <;> rfl

theorem supers_drop_eq_filter (h : p.Linked) (hnode : p.get? id = some node)
    (hn : (p.drop id node).contains n = true) :
    (p.drop id node).supers n = (p.supers n).filter (p.drop id node).contains := by
  have hid : p.contains id = true := contains_of_get? hnode
  have hsame : (p.supers n).filter (p.drop id node).contains = (p.supers n).erase id := by
    rw [(h.nodup_supers n).erase_eq_filter]
    apply List.filter_congr
    intro m hm
    rw [Bool.eq_iff_iff, contains_drop hid, bne_iff_ne,
      and_iff_left ((h.mem_supers m n).1 hm).contains]
  rw [hsame, supers_drop h hid, if_neg ((contains_drop hid node n).1 hn).1]
  split
  case isTrue => rfl
  case isFalse hnot =>
    refine (List.erase_of_not_mem fun hmem => hnot ?_).symm
    exact (embeds_iff (kind?_of_get? hnode)).1 ((h.mem_supers id n).1 hmem)

theorem WellFormed.representatives_drop_eq_filter (h : p.WellFormed)
    (hnode : p.get? id = some node) :
    (p.drop id node).representatives =
      p.representatives.filter ((p.drop id node).contains ·.2) := by
  have hid : p.contains id = true := contains_of_get? hnode
  have hlive : ∀ entry ∈ p.representatives, (p.drop id node).contains entry.2 =
      decide (entry.2 ≠ id) := by
    intro entry hentry
    have hcanonical := ((h.registered entry.1 entry.2).1 hentry).1
    rw [Bool.eq_iff_iff, contains_drop hid, decide_eq_true_iff,
      and_iff_left (contains_of_isCanonical hcanonical)]
  rw [representatives_drop, List.filter_congr hlive]
  split
  case isTrue => rfl
  case isFalse hnot =>
    rw [eq_comm, List.filter_eq_self]
    rintro ⟨shape, n⟩ hentry
    rw [decide_eq_true_iff]
    rintro rfl
    have hcanonical := ((h.registered shape n).1 hentry).1
    rw [isCanonical, hnode, Option.any_some] at hcanonical
    exact hnot hcanonical

/-! ## What a run has done so far -/

/-- Between two steps: the pool that was `p` has lost nothing but what every closed set holds, the
rest is as it was up to what has gone, and what must still go is pending. -/
structure Cleared (p : Pool) (id : PatternId) (a : Pool × List PatternId) : Prop where
  shrinks : p.Shrinks a.1
  supers : ∀ n, a.1.contains n = true → a.1.supers n = (p.supers n).filter a.1.contains
  representatives : a.1.representatives = p.representatives.filter (a.1.contains ·.2)
  growthBits : a.1.growthBits = p.growthBits
  sameDigest : a.1.sameDigest = p.sameDigest
  free : ∀ n ∈ a.2, a.1.contains n = true → a.1.roots n = 0 ∧ a.1.supers n = []
  orphans : ∀ n, a.1.isOrphan n = true → n ∈ a.2 ∨ p.isOrphan n = true ∧ n ≠ id
  pending : ∀ S, p.Closed id S → ∀ n ∈ a.2, n ∈ S
  gone : ∀ S, p.Closed id S → ∀ n, p.contains n = true → a.1.contains n = false → n ∈ S

theorem Cleared.start (h : p.WellFormed)
    (hfree : p.contains id = true → p.roots id = 0 ∧ p.supers id = []) :
    Cleared p id (p, [id]) where
  shrinks := Shrinks.refl h
  supers n _ := (List.filter_eq_self.2 fun m hm => ((h.mem_supers m n).1 hm).contains).symm
  representatives := by
    rw [eq_comm, List.filter_eq_self]
    exact fun entry hentry => contains_of_isCanonical ((h.registered entry.1 entry.2).1 hentry).1
  growthBits := rfl
  sameDigest := rfl
  free n hn := by
    rw [List.mem_singleton.1 hn]
    exact hfree
  orphans n hn := by
    rw [List.mem_singleton]
    exact or_iff_not_imp_left.2 fun hne => ⟨hn, hne⟩
  pending S hS n hn := by
    rw [List.mem_singleton.1 hn]
    exact hS.self
  gone S _ n hn hnot := by
    rw [hn] at hnot
    exact Bool.noConfusion hnot

variable {pending rest : List PatternId}

/-- Nothing comes of a pending pattern that has gone already. -/
theorem Cleared.skip (h : Cleared p id (q, pending)) (hperm : pending.Perm (n :: rest))
    (hgone : q.get? n = none) : Cleared p id (q, rest) := by
  have hrest : ∀ m ∈ rest, m ∈ pending := fun m hm => hperm.mem_iff.2 (List.mem_cons_of_mem n hm)
  exact { h with
    free := fun m hm => h.free m (hrest m hm)
    orphans := by
      intro m hm
      refine (h.orphans m hm).imp_left fun hmem => ?_
      -- what is taken off the list is no orphan, as it has gone
      refine (List.mem_cons.1 (hperm.mem_iff.1 hmem)).resolve_left ?_
      rintro rfl
      have hlive := (isOrphan_iff.1 hm).1
      rw [contains, hgone] at hlive
      exact Bool.false_ne_true hlive
    pending := fun S hS m hm => h.pending S hS m (hrest m hm) }

/-- Two filters in a row are the last one. -/
theorem Shrinks.filter_contains {α : Type} (h : q.Shrinks r) (key : α → PatternId) (l : List α) :
    (l.filter fun a => q.contains (key a)).filter (fun a => r.contains (key a)) =
      l.filter fun a => r.contains (key a) := by
  rw [List.filter_filter]
  refine List.filter_congr fun a _ => ?_
  rw [Bool.and_eq_left_iff_imp]
  exact h.contains

theorem Cleared.gone_drop (h : Cleared p id (q, pending)) (hnode : q.get? m = some node)
    (hm : m ∈ pending) {S : Set PatternId} (hS : p.Closed id S) (hn : p.contains n = true)
    (hgone : (q.drop m node).contains n = false) : n ∈ S := by
  by_cases hnm : n = m
  · exact hnm ▸ h.pending S hS m hm
  · refine h.gone S hS n hn (Bool.eq_false_iff.2 fun hlive => ?_)
    rw [(contains_drop (contains_of_get? hnode) node n).2 ⟨hnm, hlive⟩] at hgone
    exact Bool.noConfusion hgone

/-- A pending pattern is dropped. What it leaves without holders and supers is in every closed set,
as what embedded it has gone, and is pending from then on. -/
theorem Cleared.drop (hp : p.WellFormed) (h : Cleared p id (q, pending))
    (hperm : pending.Perm (m :: rest)) (hnode : q.get? m = some node) :
    Cleared p id (q.drop m node, node.kind.subs.filter (q.drop m node).isOrphan ++ rest) := by
  have hmem : m ∈ pending := hperm.mem_iff.2 List.mem_cons_self
  have hrest : ∀ n ∈ rest, n ∈ pending := fun n hn => hperm.mem_iff.2 (List.mem_cons_of_mem m hn)
  have hq : q.WellFormed := h.shrinks.wellFormed
  obtain ⟨hroots, hsupers⟩ := h.free m hmem (contains_of_get? hnode)
  have hdropped : q.Shrinks (q.drop m node) := hq.shrinks_drop hnode hroots hsupers
  have hshrinks := h.shrinks.trans hdropped
  have hnewSupers : ∀ n, (q.drop m node).contains n = true →
      (q.drop m node).supers n = (p.supers n).filter (q.drop m node).contains := by
    intro n hn
    rw [supers_drop_eq_filter hq.toLinked hnode hn, h.supers n (hdropped.contains hn)]
    exact hdropped.filter_contains (fun s => s) _
  exact {
    shrinks := hshrinks
    supers := hnewSupers
    representatives := by
      dsimp only
      rw [hq.representatives_drop_eq_filter hnode, h.representatives]
      exact hdropped.filter_contains Prod.snd _
    growthBits := (growthBits_drop q m node).trans h.growthBits
    sameDigest := (sameDigest_drop q m node).trans h.sameDigest
    free := by
      intro n hn hlive
      rcases List.mem_append.1 hn with hnew | hold
      · exact (isOrphan_iff.1 (List.mem_filter.1 hnew).2).2
      · obtain ⟨hroots, hsupers⟩ := h.free n (hrest n hold) (hdropped.contains hlive)
        exact ⟨(congrFun hdropped.roots n).trans hroots, hdropped.supers_eq_nil hq hsupers⟩
    orphans := by
      intro n hn
      rcases hq.isOrphan_drop hnode hn with hsub | ⟨hold, hne⟩
      · exact Or.inl (List.mem_append_left rest (List.mem_filter.2 ⟨hsub, hn⟩))
      · refine (h.orphans n hold).imp_left fun hpending => List.mem_append_right _ ?_
        exact (List.mem_cons.1 (hperm.mem_iff.1 hpending)).resolve_left hne
    pending := by
      intro S hS n hn
      rcases List.mem_append.1 hn with hnew | hold
      · obtain ⟨hsub, horphan⟩ := List.mem_filter.1 hnew
        obtain ⟨hlive, hroots, hsupers⟩ := isOrphan_iff.1 horphan
        have hmn : p.Embeds m n := h.shrinks.embeds ⟨_, kind?_of_get? hnode, hsub⟩
        refine hS.sub m (h.pending S hS m hmem) n (hshrinks.contains hlive) ?_ hmn fun s hs => ?_
        · rw [← hroots, hshrinks.roots]
        · -- the last that embedded it was dropped with this step
          rw [hnewSupers n hlive, List.filter_eq_nil_iff] at hsupers
          have hlast := ((hp.mem_supers s n).1 hs).contains
          exact h.gone_drop hnode hmem hS hlast (Bool.not_eq_true _ ▸ hsupers s hs)
      · exact h.pending S hS n (hrest n hold)
    gone := fun S hS n hn hgone => h.gone_drop hnode hmem hS hn hgone }

theorem Cleared.step (hp : p.WellFormed) (h : Cleared p id a) (hstep : Discard a b) :
    Cleared p id b := by
  cases hstep with
  | skip hperm hgone => exact h.skip hperm hgone
  | drop hperm hnode => exact h.drop hp hperm hnode

theorem Cleared.run (hp : p.WellFormed) (h : Cleared p id a) (hrun : ReflTransGen Discard a b) :
    Cleared p id b := by
  induction hrun with
  | refl => exact h
  | tail _ hlast ih => exact ih.step hp hlast

/-! ## The end of a run -/

def lost (p q : Pool) : Finset PatternId := (p.ids.filter fun n => !q.contains n).toFinset

theorem mem_lost : n ∈ p.lost q ↔ p.contains n = true ∧ q.contains n = false := by
  rw [lost, List.mem_toFinset, List.mem_filter, mem_ids, Bool.not_eq_true']

theorem decide_notMem_lost (hn : p.contains n = true) : decide (n ∉ p.lost q) = q.contains n := by
  rw [Bool.eq_iff_iff, decide_eq_true_iff, mem_lost, not_and, Bool.not_eq_false]
  exact ⟨fun h => h hn, fun h _ => h⟩

theorem Shrinks.live_add_card_lost (h : p.Shrinks q) (hp : p.WellFormed) :
    q.live + (p.lost q).card = p.live := by
  rw [lost, List.toFinset_card_of_nodup ((nodup_ids p).filter _)]
  exact h.live_add_length hp

namespace Cleared

theorem not_contains_self (h : Cleared p id (q, [])) (hp : p.WellFormed)
    (hfree : p.contains id = true → p.roots id = 0 ∧ p.supers id = []) : q.contains id = false := by
  by_contra hlive
  rw [Bool.not_eq_false] at hlive
  obtain ⟨hroots, hsupers⟩ := hfree (h.shrinks.contains hlive)
  have horphan : q.isOrphan id = true :=
    isOrphan_iff.2 ⟨hlive, (congrFun h.shrinks.roots id).trans hroots,
      h.shrinks.supers_eq_nil hp hsupers⟩
  rcases h.orphans id horphan with hmem | ⟨-, hne⟩
  · exact List.not_mem_nil hmem
  · exact hne rfl

/-- Nothing is pending that would have to go, so what is lost is closed. -/
theorem isLeast (h : Cleared p id (q, [])) (hp : p.WellFormed) (horphan : p.isOrphan id = true) :
    IsLeast {S | p.Closed id S} ↑(p.lost q) := by
  obtain ⟨hid, hfree⟩ := isOrphan_iff.1 horphan
  refine ⟨⟨mem_lost.2 ⟨hid, h.not_contains_self hp fun _ => hfree⟩, ?_⟩, fun S hS n hn => ?_⟩
  · intro m hm n hn hroots hmn hall
    refine mem_lost.2 ⟨hn, Bool.eq_false_iff.2 fun hlive => ?_⟩
    have hsupers : q.supers n = [] := by
      rw [h.supers n hlive, List.filter_eq_nil_iff]
      exact fun s hs => Bool.eq_false_iff.1 (mem_lost.1 (hall s hs)).2
    rcases h.orphans n (isOrphan_iff.2 ⟨hlive, (congrFun h.shrinks.roots n).trans hroots,
      hsupers⟩) with hmem | ⟨hold, -⟩
    · exact List.not_mem_nil hmem
    · have hmem := (hp.mem_supers m n).2 hmn
      rw [(isOrphan_iff.1 hold).2.2] at hmem
      exact List.not_mem_nil hmem
  · obtain ⟨hlive, hgone⟩ := mem_lost.1 hn
    exact h.gone S hS n hlive hgone

theorem get?_eq (h : Cleared p id (q, [])) (hp : p.WellFormed) (hn : n ∉ p.lost q) :
    q.get? n = (p.get? n).map fun node =>
      { node with supers := node.supers.filter (· ∉ p.lost q) } := by
  cases hlive : q.contains n with
  | true =>
    obtain ⟨node, hnode⟩ := Option.isSome_iff_exists.1 (h.shrinks.contains hlive)
    have hsupers : q.supers n = node.supers.filter (· ∉ p.lost q) := by
      rw [h.supers n hlive, supers_of_get? hnode]
      apply List.filter_congr
      intro s hs
      rw [← supers_of_get? hnode] at hs
      exact (decide_notMem_lost ((hp.mem_supers s n).1 hs).contains).symm
    rw [h.shrinks.get?_eq hlive, hnode, Option.map_some, Option.map_some, hsupers]
  | false =>
    have hold : p.contains n = false := by
      rw [mem_lost, not_and, hlive] at hn
      exact Bool.eq_false_iff.2 fun hold => hn hold rfl
    rw [contains, Option.isSome_eq_false_iff, Option.isNone_iff_eq_none] at hlive hold
    rw [hlive, hold, Option.map_none]

theorem representatives_eq (h : Cleared p id (q, [])) (hp : p.WellFormed) :
    q.representatives = p.representatives.filter (·.2 ∉ p.lost q) := by
  rw [h.representatives]
  apply List.filter_congr
  intro entry hentry
  exact (decide_notMem_lost
    (contains_of_isCanonical ((hp.registered entry.1 entry.2).1 hentry).1)).symm

/-- All runs end with the same pool. -/
theorem unique (h : Cleared p id (q, [])) (h' : Cleared p id (r, [])) (hp : p.WellFormed)
    (horphan : p.isOrphan id = true) : q = r := by
  have hlost : p.lost q = p.lost r :=
    Finset.coe_injective ((h.isLeast hp horphan).unique (h'.isLeast hp horphan))
  have hget : ∀ n, q.get? n = r.get? n := by
    intro n
    by_cases hn : n ∈ p.lost q
    · have hq := (mem_lost.1 hn).2
      rw [hlost] at hn
      have hr := (mem_lost.1 hn).2
      rw [contains, Option.isSome_eq_false_iff, Option.isNone_iff_eq_none] at hq hr
      rw [hq, hr]
    · rw [h.get?_eq hp hn, h'.get?_eq hp (hlost ▸ hn), hlost]
  have hlive : q.live = r.live := by
    refine Nat.add_right_cancel (m := (p.lost r).card)
      (Eq.trans ?_ (h'.shrinks.live_add_card_lost hp).symm)
    exact hlost ▸ h.shrinks.live_add_card_lost hp
  refine eq_of_get? hget (h.shrinks.size.trans h'.shrinks.size.symm) hlive ?_
    (h.growthBits.trans h'.growthBits.symm)
    (h.sameDigest.trans h'.sameDigest.symm)
  rw [h.representatives_eq hp, h'.representatives_eq hp, hlost]

end Cleared

/-! ## Destruction is a run -/

/-- Sub-patterns are destroyed one by one where they are orphans. Those that were when their pattern
was dropped are pending; the others have not become any since. -/
theorem runs_foldl {destroy : Pool → PatternId → Pool} {subs : List PatternId} (hp : p.WellFormed)
    (hdestroy : ∀ q, p.Shrinks q → ∀ s ∈ subs, q.isOrphan s = true → q.Shrinks (destroy q s) ∧
      ∀ rest, ReflTransGen Discard (q, s :: rest) (destroy q s, rest))
    (hq : p.Shrinks q) (hold : ∀ n, q.isOrphan n = true → p.isOrphan n = true)
    (rest : List PatternId) : ReflTransGen Discard (q, subs.filter p.isOrphan ++ rest)
      (subs.foldl (fun q s => if q.isOrphan s then destroy q s else q) q, rest) := by
  induction subs generalizing q with
  | nil => exact ReflTransGen.refl
  | cons s subs ih =>
    have hsubs := ih (q := q) fun q hq t ht => hdestroy q hq t (List.mem_cons_of_mem s ht)
    rw [List.foldl_cons, List.filter_cons]
    cases hs : q.isOrphan s with
    | true =>
      obtain ⟨hshrinks, hrun⟩ := hdestroy q hq s List.mem_cons_self hs
      rw [if_pos (hold s hs), if_pos rfl, List.cons_append]
      refine (hrun _).trans (ih (fun q hq t ht => hdestroy q hq t (List.mem_cons_of_mem s ht))
        (hq.trans hshrinks) fun n hn => hold n ?_)
      have hcleared := (Cleared.start hq.wellFormed fun _ => (isOrphan_iff.1 hs).2).run
        hq.wellFormed (hrun [])
      exact ((hcleared.orphans n hn).resolve_left List.not_mem_nil).1
    | false =>
      rw [if_neg Bool.false_ne_true]
      split
      case isTrue hbefore =>
        -- it has gone together with one of the sub-patterns before it
        obtain ⟨-, hroots, hsupers⟩ := isOrphan_iff.1 hbefore
        have hgone : q.get? s = none := by
          rw [← Option.isNone_iff_eq_none, ← Option.isSome_eq_false_iff]
          refine Bool.eq_false_iff.2 fun hlive => ?_
          rw [isOrphan_iff.2 ⟨hlive, (congrFun hq.roots s).trans hroots,
            hq.supers_eq_nil hp hsupers⟩] at hs
          exact Bool.noConfusion hs
        exact (hsubs hq hold).head (.skip (List.Perm.refl _) hgone)
      case isFalse => exact hsubs hq hold

theorem WellFormed.runs_destroy (h : p.WellFormed) (hid : p.contains id = true)
    (hroots : p.roots id = 0) (hsupers : p.supers id = []) :
    ReflTransGen Discard (p, [id]) (p.destroy id, []) := by
  refine h.fuel_induction (P := fun fuel m => ∀ q, p.Shrinks q → q.roots m = 0 → q.supers m = [] →
    ∀ rest, ReflTransGen Discard (q, m :: rest) (destroyDown fuel q m, rest)) ?_ hid
      p (Shrinks.refl h) hroots hsupers []
  intro fuel m ih q hq hroots hsupers rest
  rw [destroyDown]
  cases hnode : q.get? m with
  | none => exact ReflTransGen.single (.skip (List.Perm.refl _) hnode)
  | some node =>
    have hdropped : q.Shrinks (q.drop m node) := hq.wellFormed.shrinks_drop hnode hroots hsupers
    refine ReflTransGen.head (.drop (List.Perm.refl _) hnode) ?_
    refine runs_foldl hdropped.wellFormed (fun r hr s hs horphan => ?_)
      (Shrinks.refl hdropped.wellFormed)
      (fun _ hn => hn) rest
    have hms : p.Embeds m s := hq.embeds ⟨_, kind?_of_get? hnode, hs⟩
    obtain ⟨-, hfree⟩ := isOrphan_iff.1 horphan
    exact ⟨hr.wellFormed.shrinks_destroyDown fuel fun _ => hfree,
      ih s hms r ((hq.trans hdropped).trans hr) hfree.1 hfree.2⟩

/-! ## Releasing -/

theorem Closed.congr {S : Set PatternId} (h : p.Closed id S) (hkind : q.kind? = p.kind?)
    (hsupers : q.supers = p.supers) (hroots : ∀ n, n ≠ id → q.roots n = p.roots n) :
    q.Closed id S where
  self := h.self
  sub := by
    intro m hm n hlive hfree hmn hall
    by_cases hn : n = id
    · exact hn ▸ h.self
    · rw [contains_congr hkind] at hlive
      rw [embeds_congr hkind] at hmn
      rw [hsupers] at hall
      exact h.sub m hm n hlive ((hroots n hn).symm.trans hfree) hmn hall

def released (p : Pool) (id : PatternId) : Pool :=
  p.modify id fun n => { n with roots := n.roots - 1 }

theorem WellFormed.released (h : p.WellFormed) (id : PatternId) : (p.released id).WellFormed := by
  have hplace : KeepsPlace fun n => { n with roots := n.roots - 1 } :=
    ⟨fun _ => rfl, fun _ => rfl, fun _ => rfl, fun _ => rfl, fun _ => rfl⟩
  exact h.modify hplace id

@[simp] theorem kind?_released (p : Pool) (id : PatternId) : (p.released id).kind? = p.kind? :=
  kind?_modify fun _ => rfl

@[simp] theorem supers_released (p : Pool) (id : PatternId) : (p.released id).supers = p.supers :=
  supers_modify fun _ => rfl

theorem roots_released (hn : p.contains n = true) :
    (p.released id).roots n = if n = id then p.roots n - 1 else p.roots n :=
  Edit.roots_modify_of (g := (· - 1)) (fun _ => rfl) id hn

theorem isOrphan_released (hheld : 0 < p.roots id) :
    (p.released id).isOrphan id = true ↔ p.roots id = 1 ∧ p.supers id = [] := by
  have hid := contains_of_roots_pos hheld
  rw [isOrphan_iff, contains_congr (kind?_released p id), supers_released, roots_released hid,
    if_pos rfl]
  simp only [hid, true_and, and_congr_left_iff]
  omega

theorem release_eq (hheld : 0 < p.roots id) :
    Edit.release id p =
      .ok ()
        (if (p.released id).isOrphan id then (p.released id).destroy id else p.released id) := by
  obtain ⟨node, hnode⟩ := Option.isSome_iff_exists.1 (contains_of_roots_pos hheld)
  have hroots : node.roots ≠ 0 := by
    rw [roots, hnode] at hheld
    exact Nat.pos_iff_ne_zero.1 hheld
  unfold Edit.release
  rw [Edit.node_bind_eq hnode, if_neg hroots]
  rfl

theorem closed_released {S : Set PatternId} : (p.released id).Closed id S ↔ p.Closed id S := by
  have hroots : ∀ n, n ≠ id → (p.released id).roots n = p.roots n := fun n hn => by
    rw [roots, released, get?_modify, if_neg hn, roots]
  exact ⟨fun h => h.congr (kind?_released p id).symm (supers_released p id).symm fun n hn =>
    (hroots n hn).symm, fun h => h.congr (kind?_released p id) (supers_released p id) hroots⟩

theorem lost_released (p : Pool) (id : PatternId) (q : Pool) :
    (p.released id).lost q = p.lost q := by
  rw [lost, ids_congr (kind?_released p id) (size_modify ..), lost]

/-- A release leaves a pattern that is still held or embedded, and destroys nothing. Otherwise what
goes is the least closed set, whichever pending pattern is taken next; what stays loses its back
edges to what has gone, and the table of representatives its entries. -/
theorem run_release_exact (cs : List Command) (id : PatternId) (hheld : 0 < (run cs).roots id) :
    let p := run cs
    ∃ q, Edit.release id p = .ok () q ∧
      (1 < p.roots id ∨ p.supers id ≠ [] → q = p.released id) ∧
      (p.roots id = 1 ∧ p.supers id = [] → ∃ gone : Finset PatternId,
        IsLeast {S | p.Closed id S} ↑gone ∧
          (∀ n, n ∈ gone ↔ p.contains n = true ∧ q.contains n = false) ∧
          q.live + gone.card = p.live ∧
          (∀ n, n ∉ gone → q.get? n = (p.get? n).map fun node =>
            { node with supers := node.supers.filter (· ∉ gone) }) ∧
          q.representatives = p.representatives.filter (·.2 ∉ gone) ∧
          Acc (fun b a => Discard a b) (p.released id, [id]) ∧
          ∀ r, ReflTransGen Discard (p.released id, [id]) (r, []) ↔ r = q) := by
  intro p
  have hp : p.WellFormed := wellFormed_run cs
  have hreleased : (p.released id).WellFormed := hp.released id
  refine ⟨_, release_eq hheld, fun hstays => if_neg fun horphan => ?_, fun hlast => ?_⟩
  · obtain ⟨hroots, hsupers⟩ := (isOrphan_released hheld).1 horphan
    exact hstays.elim (fun h => absurd hroots (Nat.ne_of_gt h)) fun h => h hsupers
  · have horphan : (p.released id).isOrphan id = true := (isOrphan_released hheld).2 hlast
    obtain ⟨hid, hroots, hsupers⟩ := isOrphan_iff.1 horphan
    have hstart := Cleared.start hreleased fun _ => ⟨hroots, hsupers⟩
    have hrun := hreleased.runs_destroy hid hroots hsupers
    rw [if_pos horphan]
    have hend := hstart.run hreleased hrun
    have hleast := hend.isLeast hreleased horphan
    simp only [closed_released, lost_released] at hleast
    refine ⟨p.lost ((p.released id).destroy id), hleast, fun n => mem_lost, ?_, fun n hn => ?_, ?_,
      wellFounded_discard.apply _, fun r => ⟨fun hr => ?_, ?_⟩⟩
    · exact lost_released p id _ ▸ hend.shrinks.live_add_card_lost hreleased
    · have hne : n ≠ id := by
        rintro rfl
        exact hn hleast.1.self
      have hget := hend.get?_eq hreleased (lost_released p id _ ▸ hn)
      rwa [lost_released, released, get?_modify, if_neg hne] at hget
    · exact lost_released p id _ ▸ hend.representatives_eq hreleased
    · exact (hstart.run hreleased hr).unique hend hreleased horphan
    · rintro rfl
      exact hrun

/-- A sequence repeats one of its two literals, and a repetition of the sequence is under an
alternation with that literal again. When the alternation goes, so do the repetition, the sequence
and the repeated literal, which was pending more than once; the other literal is held. -/
theorem run_release_exact_repeated :
    let p :=
      run [.lit [97], .lit [98], .seq [⟨0⟩, ⟨1⟩, ⟨0⟩], .rep ⟨2⟩ (.atLeast 1), .alt [⟨0⟩, ⟨3⟩],
        .retain ⟨1⟩, .retain ⟨4⟩]
    0 < p.roots ⟨4⟩ ∧ p.live = 5 ∧ ∃ q, Edit.release ⟨4⟩ p = .ok () q ∧ q.ids = [⟨1⟩] ∧
      IsLeast {S | p.Closed ⟨4⟩ S} {⟨0⟩, ⟨2⟩, ⟨3⟩, ⟨4⟩} ∧
      ∀ r, ReflTransGen Discard (p.released ⟨4⟩, [⟨4⟩]) (r, []) ↔ r = q := by
  intro p
  have hheld : 0 < p.roots ⟨4⟩ := by decide +kernel
  have hids : (match Edit.release ⟨4⟩ p with
      | .ok _ q => q.ids
      | .error _ q => q.ids) = [⟨1⟩] := by decide +kernel
  obtain ⟨q, hrun, -, hlast⟩ := run_release_exact [.lit [97], .lit [98], .seq [⟨0⟩, ⟨1⟩, ⟨0⟩],
    .rep ⟨2⟩ (.atLeast 1), .alt [⟨0⟩, ⟨3⟩], .retain ⟨1⟩, .retain ⟨4⟩] ⟨4⟩ hheld
  obtain ⟨gone, hleast, hgone, -, -, -, -, hruns⟩ := hlast (by decide +kernel)
  rw [hrun] at hids
  dsimp only at hids
  refine ⟨hheld, by decide +kernel, q, hrun, hids, ?_, hruns⟩
  have hall : (p.ids.filter (· ∉ q.ids)).toFinset = {⟨0⟩, ⟨2⟩, ⟨3⟩, ⟨4⟩} := by
    rw [hids]
    decide +kernel
  have hsame : gone = {⟨0⟩, ⟨2⟩, ⟨3⟩, ⟨4⟩} := by
    rw [← hall]
    ext n
    rw [hgone, List.mem_toFinset, List.mem_filter, decide_eq_true_iff, mem_ids, mem_ids,
      Bool.not_eq_true]
  rw [hsame] at hleast
  simpa only [Finset.coe_insert, Finset.coe_singleton] using hleast

end Sigil.Pool
