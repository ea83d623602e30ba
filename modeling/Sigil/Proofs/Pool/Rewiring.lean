import Sigil.Proofs.Pool.Refresh

namespace Sigil

namespace Pool

open Relation (ReflTransGen TransGen)

variable {p q r : Pool} {s m n : PatternId} {k : Kind PatternId}

theorem embeds_of_kind? (h : ∀ n, r.kind? n = if n = s then some k else p.kind? n) :
    r.Embeds m n ↔ if m = s then n ∈ k.subs else p.Embeds m n := by
  unfold Embeds
  rw [h]
  split
  case isTrue => simp
  case isFalse => rfl

structure Rewired (p r : Pool) (s : PatternId) (k : Kind PatternId) : Prop where
  kind? : ∀ n, r.kind? n = if n = s then some k else p.kind? n
  mem_supers : ∀ m n, m ∈ r.supers n ↔ r.Embeds m n
  nodup_supers : ∀ n, (r.supers n).Nodup
  acyclic : Acyclic r.Embeds
  summary : r.summary = p.summary
  isCanonical : r.isCanonical = p.isCanonical
  roots : r.roots = p.roots
  lead : r.lead = p.lead
  representatives : r.representatives = p.representatives
  live : r.live = p.live
  size : r.nodes.size = p.nodes.size
  sameDigest : r.sameDigest = p.sameDigest

namespace Rewired

theorem contains (h : Rewired p r s k) (hs : p.contains s = true) : r.contains = p.contains := by
  funext n
  rw [contains_eq, contains_eq, h.kind?]
  split
  case isTrue hn => rw [hn, ← contains_eq, hs, Option.isSome_some]
  case isFalse => rfl

theorem linked (h : Rewired p r s k) (hp : p.WellFormed) (hs : p.contains s = true) : r.Linked where
  mem_supers := h.mem_supers
  nodup_supers := h.nodup_supers
  acyclic := h.acyclic
  live_eq := by
    have hids : r.ids = p.ids := by rw [ids, ids, h.contains hs, h.size]
    rw [h.live, hids, hp.live_eq]

theorem embeds_of_ne (h : Rewired p r s k) (hm : m ≠ s) : r.Embeds m n ↔ p.Embeds m n := by
  rw [embeds_of_kind? h.kind?, if_neg hm]

/-- Only the rewired node can be stale. -/
theorem eq_of_stale (h : Rewired p r s k) (hp : p.WellFormed) (hn : r.Stale n) : n = s := by
  by_contra hne
  obtain ⟨k', hk', hsummary⟩ := hn
  rw [h.kind?, if_neg hne] at hk'
  unfold summarize at hsummary
  rw [h.summary] at hsummary
  exact hsummary (hp.settled n k' hk')

theorem registered (h : Rewired p r s k) (hp : p.WellFormed) : r.Registered := by
  unfold Registered
  rw [h.representatives, h.isCanonical, h.summary]
  exact hp.registered

theorem mends (h : Rewired p r s k) (hp : p.WellFormed) (hs : p.contains s = true) :
    Mends (ReflTransGen r.Embeds · s) (· = s) r (r.refresh s) :=
  (h.linked hp hs).mends_refresh (h.sameDigest.trans hp.discerning) (by rwa [h.contains hs])

/-- The refresh leaves no node stale. -/
theorem not_stale_refresh (h : Rewired p r s k) (hp : p.WellFormed) (hs : p.contains s = true)
    (n : PatternId) : ¬ (r.refresh s).Stale n := by
  intro hstale
  obtain ⟨hold, hne⟩ := (h.mends hp hs).stale n hstale
  exact hne (h.eq_of_stale hp hold)

theorem wellFormed_refresh (h : Rewired p r s k) (hp : p.WellFormed) (hs : p.contains s = true)
    (hk : k.Valid) (hcanonical : ∀ m n, r.Embeds m n → (r.refresh s).isCanonical m = true →
      (r.refresh s).isCanonical n = true) : (r.refresh s).WellFormed := by
  have hmends := h.mends hp hs
  exact {
    toLinked := (h.linked hp hs).congr hmends.kind? hmends.supers hmends.live hmends.size
    valid := by
      intro n k' hk'
      rw [hmends.kind?, h.kind?] at hk'
      split at hk'
      · exact Option.some.inj hk' ▸ hk
      · exact hp.valid n k' hk'
    settled := by
      intro n k' hk'
      by_contra hne
      exact h.not_stale_refresh hp hs n ⟨k', hk', hne⟩
    canonical_sub := by
      rw [embeds_congr hmends.kind?]
      exact hcanonical
    registered := hmends.registered (h.registered hp)
    distinct := by
      have hreps := hmends.representatives_sublist
      rw [h.representatives] at hreps
      exact hp.distinct.sublist (hreps.map _)
    discerning := hmends.sameDigest.trans (h.sameDigest.trans hp.discerning) }

/-- If the rewired node is stale, all that is above it has another shape in the end. Its own
sub-patterns are not above it, so that it is mended for good. -/
theorem shape_ne_of_stale (h : Rewired p r s k) (hp : p.WellFormed) (hs : p.contains s = true)
    (hstale : r.Stale s) (hq : Refreshed (ReflTransGen r.Embeds · s) r q)
    (hsettled : ∀ n, ¬ q.Stale n) (hms : ReflTransGen r.Embeds m s) :
    (q.summary m).shape ≠ (r.summary m).shape := by
  have hsummary : ∀ {n k}, r.kind? n = some k → q.summary n = q.summarize k := by
    intro n k hk
    by_contra hne
    exact hsettled n ⟨k, by rw [hq.kind?, hk], hne⟩
  induction hms using ReflTransGen.head_induction_on with
  | refl =>
    have hk : r.kind? s = some k := by rw [h.kind?, if_pos rfl]
    have hsubs : ∀ n ∈ k.subs, p.contains n = true := by
      intro n hn
      rw [← h.contains hs]
      exact (h.linked hp hs).contains_sub ⟨k, hk, hn⟩
    have hsame : q.summarize k = p.summarize k := by
      apply summarize_congr
      intro n hn
      rw [← h.summary]
      refine ((hq.summary_or n).resolve_right fun htouched => ?_).1
      exact h.acyclic s (TransGen.head' ⟨k, hk, hn⟩ htouched.1)
    rw [hsummary hk, hsame, h.summary]
    intro hshape
    obtain ⟨k', hk', hne⟩ := hstale
    rw [hk, Option.some.injEq] at hk'
    apply hne
    -- both summaries are what one shape says
    rw [← hk', summarize, h.summary, hp.summary_eq_deduced hs, ← hshape]
    exact (hp.summarize_eq_deduced hsubs).symm
  | head hmn hns ih =>
    rename_i m n
    intro hshape
    have hne : m ≠ s := by
      rintro rfl
      exact h.acyclic m (TransGen.head' hmn hns)
    obtain ⟨k', hk', hn⟩ := hmn
    have hold : r.summary m = r.summarize k' := by
      by_contra hstale
      exact hne (h.eq_of_stale hp ⟨k', hk', hstale⟩)
    rw [hsummary hk', hold] at hshape
    have hmap := (Tree.node.inj hshape).2
    rw [Kind.map_map, Kind.map_map] at hmap
    exact ih (Kind.eq_of_map_eq hmap hn)

/-- A pattern that is canonical after the refresh was so before, and kept its summary. -/
theorem of_isCanonical (h : Rewired p r s k) (hp : p.WellFormed) (hs : p.contains s = true)
    (hm : (r.refresh s).isCanonical m = true) :
    p.isCanonical m = true ∧ (r.refresh s).summary m = p.summary m := by
  rcases (h.mends hp hs).summary_or m with ⟨hsummary, hcanonical⟩ | ⟨-, hcanonical⟩
  · rw [hm, h.isCanonical] at hcanonical
    rw [hsummary, h.summary]
    exact ⟨hcanonical.symm, rfl⟩
  · rw [hm] at hcanonical
    exact absurd hcanonical Bool.noConfusion

/-- A pattern that is not above the rewired node stays canonical if it was. -/
theorem isCanonical_of_not_above (h : Rewired p r s k) (hp : p.WellFormed)
    (hs : p.contains s = true) (hn : ¬ ReflTransGen r.Embeds n s) :
    (r.refresh s).isCanonical n = p.isCanonical n := by
  rcases (h.mends hp hs).summary_or n with ⟨-, hcanonical⟩ | ⟨habove, -⟩
  · rw [hcanonical, h.isCanonical]
  · exact absurd habove hn

end Rewired

end Pool

/-! ## Appending a sub-pattern -/

theorem Kind.mem_subs_push {α : Type} {k : Kind α} (h : k.isMulti = true) (s t : α) :
    t ∈ (k.push s).subs ↔ t ∈ k.subs ∨ t = s := by
  cases k <;> simp_all [isMulti, push, subs]

theorem Kind.valid_push {α : Type} {k : Kind α} (h : k.Valid) (s : α) : (k.push s).Valid := by
  cases k <;> exact h

theorem Kind.map_push_ne {α β : Type} {k : Kind α} (h : k.isMulti = true) (s : α) (f g : α → β) :
    (k.push s).map f ≠ k.map g := by
  intro heq
  have hlength := congrArg (fun k => k.subs.length) heq
  rw [subs_map, subs_map, List.length_map, List.length_map] at hlength
  cases k <;> simp [isMulti, push, subs] at h hlength

namespace Pool

open Relation (ReflTransGen TransGen)

variable {p q r : Pool} {s m n old new : PatternId} {k : Kind PatternId}

/-- The pool with `sub` as one more sub-pattern of `s`, before summaries are refreshed. -/
def appended (p : Pool) (s sub : PatternId) : Pool :=
  (p.mapKind s (·.push sub)).link sub s

section Append

variable {sub : PatternId}

theorem kind?_appended (hk : p.kind? s = some k) (n : PatternId) :
    (p.appended s sub).kind? n = if n = s then some (k.push sub) else p.kind? n := by
  rw [appended, kind?_link, kind?_mapKind]
  split
  case isTrue hn => rw [hn, hk, Option.map_some]
  case isFalse => rfl

theorem supers_appended (hsub : p.contains sub = true) (n : PatternId) :
    (p.appended s sub).supers n = if n = sub then (p.supers n).insert s else p.supers n := by
  rw [appended, supers_link (by rwa [contains_mapKind]), supers_mapKind]

theorem embeds_appended (hk : p.kind? s = some k) (hmulti : k.isMulti = true) :
    (p.appended s sub).Embeds m n ↔ p.Embeds m n ∨ m = s ∧ n = sub := by
  rw [embeds_of_kind? (kind?_appended hk)]
  split
  case isTrue hm => rw [Kind.mem_subs_push hmulti, hm, embeds_iff hk, and_iff_right rfl]
  case isFalse hm => rw [or_iff_left fun hboth => hm hboth.1]

theorem WellFormed.rewired_appended (h : p.WellFormed) (hk : p.kind? s = some k)
    (hmulti : k.isMulti = true) (hsub : p.contains sub = true)
    (hno : ¬ ReflTransGen p.Embeds sub s) :
    Rewired p (p.appended s sub) s (k.push sub) where
  kind? := kind?_appended hk
  mem_supers m n := by
    rw [embeds_appended hk hmulti, supers_appended hsub, ← h.mem_supers]
    by_cases hn : n = sub
    · rw [if_pos hn, List.mem_insert_iff, or_comm, and_iff_left hn]
    · rw [if_neg hn, or_iff_left fun hboth => hn hboth.2]
  nodup_supers n := by
    rw [supers_appended hsub]
    split
    · exact (h.nodup_supers n).insert
    · exact h.nodup_supers n
  acyclic := h.acyclic.of_new_edge (fun m n => (embeds_appended hk hmulti).1) hno
  summary := by rw [appended, summary_link, summary_mapKind]
  isCanonical := by rw [appended, isCanonical_link, isCanonical_mapKind]
  roots := by rw [appended, roots_link, roots_mapKind]
  lead := by rw [appended, lead_link, lead_mapKind]
  representatives := rfl
  live := rfl
  size := (size_modify ..).trans (size_modify ..)
  sameDigest := rfl

/-- The node that grew has another number of sub-patterns than its summary says. -/
theorem stale_appended (h : Rewired p r s (k.push sub)) (hp : p.WellFormed)
    (hk : p.kind? s = some k) (hmulti : k.isMulti = true) : r.Stale s := by
  refine ⟨k.push sub, by rw [h.kind?, if_pos rfl], ?_⟩
  rw [summarize, h.summary, hp.settled s k hk]
  intro hsame
  have hmap := (Tree.node.inj (congrArg Summary.shape hsame)).2
  rw [Kind.map_map, Kind.map_map] at hmap
  exact Kind.map_push_ne hmulti sub _ _ hmap.symm

/-- A pattern that is canonical after the change was canonical before it, and is not above the node
that grew. -/
theorem WellFormed.isCanonical_of_append (h : p.WellFormed) (hk : p.kind? s = some k)
    (hmulti : k.isMulti = true) (hsub : p.contains sub = true) (hno : ¬ ReflTransGen p.Embeds sub s)
    (hm : ((p.appended s sub).refresh s).isCanonical m = true) :
    p.isCanonical m = true ∧ ¬ ReflTransGen (p.appended s sub).Embeds m s := by
  have hs : p.contains s = true := kind?_isSome_iff.1 ⟨k, hk⟩
  have hrewired := h.rewired_appended hk hmulti hsub hno
  obtain ⟨hcanonical, hsummary⟩ := hrewired.of_isCanonical h hs hm
  refine ⟨hcanonical, fun hms => ?_⟩
  -- the shape of `m` is unchanged
  apply hrewired.shape_ne_of_stale h hs (stale_appended hrewired h hk hmulti)
    (hrewired.mends h hs).toRefreshed
    (hrewired.not_stale_refresh h hs) hms
  rw [hsummary, hrewired.summary]

theorem WellFormed.append (h : p.WellFormed) (hk : p.kind? s = some k) (hmulti : k.isMulti = true)
    (hsub : p.contains sub = true) (hno : ¬ ReflTransGen p.Embeds sub s) :
    ((p.appended s sub).refresh s).WellFormed := by
  have hs : p.contains s = true := kind?_isSome_iff.1 ⟨k, hk⟩
  have hrewired := h.rewired_appended hk hmulti hsub hno
  apply hrewired.wellFormed_refresh h hs (Kind.valid_push (h.valid s k hk) sub)
  intro m n hmn hm
  obtain ⟨hcanonical, hnot⟩ := h.isCanonical_of_append hk hmulti hsub hno hm
  have hne : m ≠ s := by
    rintro rfl
    exact hnot ReflTransGen.refl
  -- `n` is not above the node that grew either
  have hn : ¬ ReflTransGen (p.appended s sub).Embeds n s :=
    fun hns => hnot (ReflTransGen.head hmn hns)
  rw [hrewired.isCanonical_of_not_above h hs hn]
  exact h.canonical_sub m n ((hrewired.embeds_of_ne hne).1 hmn) hcanonical

end Append

/-! ## Replacing a pattern by a canonical one -/

def substitute (old new sub : PatternId) : PatternId := if sub = old then new else sub

/-- The pool where `s` embeds `new` in the place of `old`, before summaries are refreshed. -/
def redirected (p : Pool) (old new s : PatternId) : Pool :=
  ((p.mapKind s (·.map (substitute old new))).unlink old s).link new s

theorem redirect_eq (p : Pool) (old new s : PatternId) :
    redirect old new p s = (p.redirected old new s).refresh s := rfl

theorem mem_subs_replace {old new : PatternId} (hne : old ≠ new) (hold : old ∈ k.subs)
    (n : PatternId) : n ∈ (k.map (substitute old new)).subs ↔ n ∈ k.subs ∧ n ≠ old ∨ n = new := by
  rw [Kind.subs_map, List.mem_map]
  constructor
  · rintro ⟨sub, hsub, rfl⟩
    unfold substitute
    split
    case isTrue => exact Or.inr rfl
    case isFalse h => exact Or.inl ⟨hsub, h⟩
  · rintro (⟨hn, hnot⟩ | rfl)
    · exact ⟨n, hn, if_neg hnot⟩
    · exact ⟨old, hold, if_pos rfl⟩

/-- A canonical pattern reaches canonical patterns only. -/
theorem WellFormed.isCanonical_of_reaches (h : p.WellFormed) (hm : p.isCanonical m = true)
    (hmn : ReflTransGen p.Embeds m n) : p.isCanonical n = true := by
  induction hmn with
  | refl => exact hm
  | tail _ hedge ih => exact h.canonical_sub _ _ hedge ih

section Redirect

variable {old new : PatternId}

theorem kind?_redirected (hk : p.kind? s = some k) (n : PatternId) :
    (p.redirected old new s).kind? n =
      if n = s then some (k.map (substitute old new)) else p.kind? n := by
  rw [redirected, kind?_link, kind?_unlink, kind?_mapKind]
  split
  case isTrue hn => rw [hn, hk, Option.map_some]
  case isFalse => rfl

theorem supers_redirected (hne : old ≠ new) (hnew : p.contains new = true) (n : PatternId) :
    (p.redirected old new s).supers n =
      if n = new then (p.supers n).insert s
      else if n = old then (p.supers n).erase s else p.supers n := by
  have hlive : ((p.mapKind s (·.map (substitute old new))).unlink old s).contains new = true := by
    rwa [contains_congr (kind?_unlink ..), contains_mapKind]
  rw [redirected, supers_link hlive, supers_unlink, supers_mapKind]
  by_cases hn : n = new
  · rw [if_pos hn, if_pos hn, if_neg fun e => hne (e.symm.trans hn)]
  · rw [if_neg hn, if_neg hn]

theorem embeds_redirected (hne : old ≠ new) (hk : p.kind? s = some k) (hs : old ∈ k.subs) :
    (p.redirected old new s).Embeds m n ↔ p.Embeds m n ∧ ¬ (m = s ∧ n = old) ∨ m = s ∧ n = new := by
  rw [embeds_of_kind? (kind?_redirected hk)]
  split
  case isTrue hm =>
    rw [mem_subs_replace hne hs, hm, embeds_iff hk]
    simp
  case isFalse hm => simp [hm]

theorem WellFormed.rewired_redirected (h : p.WellFormed) (hne : old ≠ new)
    (hold : p.isCanonical old = false) (hnew : p.isCanonical new = true) (hk : p.kind? s = some k)
    (hs : old ∈ k.subs) : Rewired p (p.redirected old new s) s (k.map (substitute old new)) where
  kind? := kind?_redirected hk
  mem_supers m n := by
    rw [embeds_redirected hne hk hs, supers_redirected hne (contains_of_isCanonical hnew),
      ← h.mem_supers]
    by_cases hn : n = new
    · have hnot : n ≠ old := fun e => hne (e.symm.trans hn)
      rw [if_pos hn, List.mem_insert_iff, or_comm]
      simp [hn, hne.symm]
    · by_cases hn' : n = old
      · rw [if_neg hn, if_pos hn', (h.nodup_supers n).mem_erase_iff, and_comm]
        simp [hn', hne]
      · simp [hn, hn']
  nodup_supers n := by
    rw [supers_redirected hne (contains_of_isCanonical hnew)]
    split
    · exact (h.nodup_supers n).insert
    · split
      · exact (h.nodup_supers n).erase s
      · exact h.nodup_supers n
  acyclic := by
    apply h.acyclic.of_new_edge fun m n hmn =>
      ((embeds_redirected hne hk hs).1 hmn).imp_left And.left
    -- otherwise the canonical pattern would reach `s`, which embeds one that is not canonical
    intro hreach
    have hcanonical := h.canonical_sub s old ⟨k, hk, hs⟩ (h.isCanonical_of_reaches hnew hreach)
    rw [hold] at hcanonical
    exact Bool.false_ne_true hcanonical
  summary := by rw [redirected, summary_link, summary_unlink, summary_mapKind]
  isCanonical := by rw [redirected, isCanonical_link, isCanonical_unlink, isCanonical_mapKind]
  roots := by rw [redirected, roots_link, roots_unlink, roots_mapKind]
  lead := by rw [redirected, lead_link, lead_unlink, lead_mapKind]
  representatives := rfl
  live := rfl
  size := (size_modify ..).trans ((size_modify ..).trans (size_modify ..))
  sameDigest := rfl

theorem WellFormed.not_isCanonical_of_embeds (h : p.WellFormed) (hmn : p.Embeds m n)
    (hn : p.isCanonical n = false) : p.isCanonical m = false := by
  by_contra hcanonical
  rw [Bool.not_eq_false] at hcanonical
  have hsub := h.canonical_sub m n hmn hcanonical
  rw [hn] at hsub
  exact Bool.false_ne_true hsub

/-- What is above a pattern that is not canonical is not canonical either, also after the change. -/
theorem not_isCanonical_of_above (h : Rewired p r s k) (hp : p.WellFormed)
    (hs : p.isCanonical s = false) (hms : ReflTransGen r.Embeds m s) : p.isCanonical m = false := by
  induction hms using ReflTransGen.head_induction_on with
  | refl => exact hs
  | head hmn hns ih =>
    rename_i m n
    by_cases hm : m = s
    · rw [hm, hs]
    · exact hp.not_isCanonical_of_embeds ((h.embeds_of_ne hm).1 hmn) ih

structure Redirects (old new : PatternId) (p q : Pool) : Prop where
  wellFormed : q.WellFormed
  old_isCanonical : q.isCanonical old = false
  new_isCanonical : q.isCanonical new = true
  contains : q.contains = p.contains
  roots : q.roots = p.roots
  domain? : q.domain? = p.domain?
  embeds : ∀ m n, p.Embeds m n → n ≠ old → q.Embeds m n
  size : q.nodes.size = p.nodes.size

theorem Redirects.trans (h : Redirects old new p q) (h' : Redirects old new q r) :
    Redirects old new p r :=
  { h' with
    contains := h'.contains.trans h.contains
    roots := h'.roots.trans h.roots
    domain? := h'.domain?.trans h.domain?
    embeds := fun m n hmn hn => h'.embeds m n (h.embeds m n hmn hn) hn
    size := h'.size.trans h.size }

/-- The refresh after the change makes no pattern lose its place as a representative. -/
theorem WellFormed.isCanonical_redirect (h : p.WellFormed) (hlive : p.contains s = true)
    (hs : p.isCanonical s = false) (hrewired : Rewired p (p.redirected old new s) s k)
    (n : PatternId) : (Pool.redirect old new p s).isCanonical n = p.isCanonical n := by
  rw [redirect_eq]
  by_cases habove : ReflTransGen (p.redirected old new s).Embeds n s
  · have hcanonical := not_isCanonical_of_above hrewired h hs habove
    rcases (hrewired.mends h hlive).summary_or n with ⟨-, hsame⟩ | ⟨-, hfalse⟩
    · rw [hsame, hrewired.isCanonical]
    · rw [hfalse, hcanonical]
  · exact hrewired.isCanonical_of_not_above h hlive habove

theorem WellFormed.redirect (h : p.WellFormed) (hne : old ≠ new) (hold : p.isCanonical old = false)
    (hnew : p.isCanonical new = true) (hs : p.Embeds s old) :
    Redirects old new p (redirect old new p s) ∧
      (redirect old new p s).supers old = (p.supers old).erase s := by
  have hscanonical := h.not_isCanonical_of_embeds hs hold
  have hlive : p.contains s = true := hs.contains
  obtain ⟨k, hk, hmem⟩ := hs
  have hrewired := h.rewired_redirected hne hold hnew hk hmem
  have hmends := hrewired.mends h hlive
  have hkept := h.isCanonical_redirect hlive hscanonical hrewired
  rw [redirect_eq] at hkept ⊢
  constructor
  · exact {
      wellFormed := by
        apply hrewired.wellFormed_refresh h hlive ((Kind.valid_map _ k).2 (h.valid s k hk))
        intro m n hmn hm
        rw [hkept] at hm ⊢
        have hms : m ≠ s := by
          rintro rfl
          rw [hscanonical] at hm
          exact Bool.false_ne_true hm
        exact h.canonical_sub m n ((hrewired.embeds_of_ne hms).1 hmn) hm
      old_isCanonical := (hkept old).trans hold
      new_isCanonical := (hkept new).trans hnew
      contains := (contains_congr hmends.kind?).trans (hrewired.contains hlive)
      roots := hmends.roots.trans hrewired.roots
      domain? := by
        rw [domain?_congr hmends.kind?]
        funext n
        rw [domain?, domain?, hrewired.kind?]
        split
        case isTrue hn =>
          rw [hn, hk, Option.bind_some, Option.bind_some, Kind.domain?_map]
        case isFalse => rfl
      embeds := by
        intro m n hmn hn
        rw [embeds_congr hmends.kind?]
        exact (embeds_redirected hne hk hmem).2 (Or.inl ⟨hmn, fun hboth => hn hboth.2⟩)
      size := hmends.size.trans hrewired.size }
  · rw [hmends.supers, supers_redirected hne (contains_of_isCanonical hnew), if_neg hne, if_pos rfl]

/-- In whatever order the patterns are redirected, each of them is redirected once. -/
theorem WellFormed.foldl_redirect (hne : old ≠ new) {ids : List PatternId} (h : p.WellFormed)
    (hold : p.isCanonical old = false) (hnew : p.isCanonical new = true)
    (hids : (p.supers old).Perm ids) :
    Redirects old new p (ids.foldl (Pool.redirect old new) p) ∧
      (ids.foldl (Pool.redirect old new) p).supers old = [] := by
  induction ids generalizing p with
  | nil =>
    exact ⟨⟨h, hold, hnew, rfl, rfl, rfl, fun _ _ hmn _ => hmn, rfl⟩, List.perm_nil.1 hids⟩
  | cons s ids ih =>
    have hs : p.Embeds s old := (h.mem_supers s old).1 (hids.mem_iff.2 List.mem_cons_self)
    obtain ⟨hredirects, hsupers⟩ := h.redirect hne hold hnew hs
    have hrest : ((Pool.redirect old new p s).supers old).Perm ids := by
      rw [hsupers, ← List.erase_cons_head s ids]
      exact hids.erase s
    obtain ⟨hredirects', hempty⟩ :=
      ih hredirects.wellFormed hredirects.old_isCanonical hredirects.new_isCanonical
      hrest
    exact ⟨hredirects.trans hredirects', hempty⟩

/-- After a migration nothing embeds the old pattern. -/
theorem WellFormed.migrateSupers (h : p.WellFormed) (hne : old ≠ new)
    (hold : p.isCanonical old = false) (hnew : p.isCanonical new = true) :
    Redirects old new p (p.migrateSupers old new) ∧ (p.migrateSupers old new).supers old = [] :=
  h.foldl_redirect hne hold hnew (List.Perm.refl _)

end Redirect

end Pool

end Sigil
