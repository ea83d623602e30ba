import Sigil.Proofs.Pool.Command
import Sigil.Proofs.Pool.Worklist

namespace Sigil.Pool

open Relation (ReflTransGen)

variable {p q r : Pool} {old new s n : PatternId} {k : Kind PatternId}
  {ids pending : List PatternId}

/-- A step of a migration: a turn of the refresh under way, or else the next pattern is redirected,
and its refresh begins. -/
inductive Migration (old new : PatternId) :
    Pool × List PatternId × List PatternId → Pool × List PatternId × List PatternId → Prop where
  | turn {p q : Pool} {pending pending' ids : List PatternId}
      (hturn : Turn (p, pending) (q, pending')) :
      Migration old new (p, pending, ids) (q, pending', ids)
  | next {p : Pool} {s : PatternId} {ids : List PatternId} :
      Migration old new (p, [], s :: ids) (p.redirected old new s, [s], ids)

/-! ## One redirection -/

/-- `q` is `p`, where the patterns of a list embed `new` in the place of `old` and summaries may
differ. -/
structure Migrated (old new : PatternId) (ids : List PatternId) (p q : Pool) : Prop where
  kind? : ∀ n, q.kind? n = if n ∈ ids then (p.kind? n).map (·.map (substitute old new))
    else p.kind? n
  label : q.label = p.label
  isCanonical : q.isCanonical = p.isCanonical
  representatives : q.representatives = p.representatives
  live : q.live = p.live
  size : q.nodes.size = p.nodes.size
  growthBits : q.growthBits = p.growthBits
  sameDigest : q.sameDigest = p.sameDigest

theorem label_redirected (p : Pool) (old new s : PatternId) :
    (p.redirected old new s).label = p.label := by
  rw [redirected, label_link, label_unlink, label_mapKind]

theorem WellFormed.rewired_of_embeds (h : p.WellFormed) (hne : old ≠ new)
    (hold : p.isCanonical old = false) (hnew : p.isCanonical new = true) (hs : p.Embeds s old) :
    ∃ k, p.kind? s = some k ∧
      Rewired p (p.redirected old new s) s (k.map (substitute old new)) := by
  obtain ⟨k, hk, hmem⟩ := hs
  exact ⟨k, hk, h.rewired_redirected hne hold hnew hk hmem⟩

theorem WellFormed.migrated_redirect (h : p.WellFormed) (hne : old ≠ new)
    (hold : p.isCanonical old = false) (hnew : p.isCanonical new = true) (hs : p.Embeds s old) :
    Migrated old new [s] p (Pool.redirect old new p s) := by
  have hlive : p.contains s = true := hs.contains
  obtain ⟨k, hk, hrewired⟩ := h.rewired_of_embeds hne hold hnew hs
  have hcanonical : (Pool.redirect old new p s).isCanonical = p.isCanonical :=
    funext (h.isCanonical_redirect hlive (h.not_isCanonical_of_embeds hs hold) hrewired)
  have hworked := hrewired.worked h hlive ((hrewired.settles_iff h hlive).2 rfl)
  rw [redirect_eq] at hcanonical ⊢
  exact {
    kind? := by
      intro n
      rw [hworked.kind?, hrewired.kind?]
      simp only [List.mem_singleton]
      split
      case isTrue hn => rw [hn, hk, Option.map_some]
      case isFalse => rfl
    label := hworked.label.trans (label_redirected ..)
    isCanonical := hcanonical
    representatives := by
      -- no representative was forgotten
      rw [hworked.representatives, hrewired.representatives, List.filter_eq_self]
      intro entry hentry
      dsimp only
      rw [hcanonical]
      exact ((h.registered entry.1 entry.2).1 hentry).1
    live := hworked.live.trans hrewired.live
    size := hworked.size.trans hrewired.size
    growthBits := hworked.growthBits
    sameDigest := hworked.sameDigest.trans hrewired.sameDigest }

/-! ## All redirections -/

theorem WellFormed.migrated_foldl (hne : old ≠ new) (h : p.WellFormed)
    (hold : p.isCanonical old = false) (hnew : p.isCanonical new = true)
    (hids : (p.supers old).Perm ids) :
    Migrated old new ids p (ids.foldl (Pool.redirect old new) p) := by
  induction ids generalizing p with
  | nil => exact ⟨fun n => by simp, rfl, rfl, rfl, rfl, rfl, rfl, rfl⟩
  | cons s ids ih =>
    have hs : p.Embeds s old := (h.mem_supers s old).1 (hids.mem_iff.2 List.mem_cons_self)
    obtain ⟨hredirects, hsupers⟩ := h.redirect hne hold hnew hs
    have hperm : ((Pool.redirect old new p s).supers old).Perm ids := by
      rw [hsupers, ← List.erase_cons_head s ids]
      exact hids.erase s
    have hfirst := h.migrated_redirect hne hold hnew hs
    have hrest :=
      ih hredirects.wellFormed hredirects.old_isCanonical hredirects.new_isCanonical hperm
    have hfresh : s ∉ ids := (List.nodup_cons.1 (hids.nodup_iff.1 (h.nodup_supers old))).1
    exact {
      kind? := by
        intro n
        rw [List.foldl_cons, hrest.kind?, hfirst.kind?]
        by_cases hn : n = s
        · simp [hn, hfresh]
        · simp [hn]
      label := hrest.label.trans hfirst.label
      isCanonical := hrest.isCanonical.trans hfirst.isCanonical
      representatives := hrest.representatives.trans hfirst.representatives
      live := hrest.live.trans hfirst.live
      size := hrest.size.trans hfirst.size
      growthBits := hrest.growthBits.trans hfirst.growthBits
      sameDigest := hrest.sameDigest.trans hfirst.sameDigest }

/-- The order of the redirections shows in the order of back edges alone. -/
theorem WellFormed.alike_foldl (hne : old ≠ new) (h : p.WellFormed)
    (hold : p.isCanonical old = false) (hnew : p.isCanonical new = true) {ids' : List PatternId}
    (hids : (p.supers old).Perm ids) (hids' : (p.supers old).Perm ids') :
    (ids.foldl (Pool.redirect old new) p).Alike (ids'.foldl (Pool.redirect old new) p) := by
  have hmigrated := h.migrated_foldl hne hold hnew hids
  have hmigrated' := h.migrated_foldl hne hold hnew hids'
  have hq := (h.foldl_redirect hne hold hnew hids).1.wellFormed
  have hr := (h.foldl_redirect hne hold hnew hids').1.wellFormed
  have hkind : (ids'.foldl (Pool.redirect old new) p).kind? =
      (ids.foldl (Pool.redirect old new) p).kind? := by
    funext n
    rw [hmigrated.kind?, hmigrated'.kind?]
    simp only [← hids.mem_iff, ← hids'.mem_iff]
  have hsettled : ∀ {q : Pool}, q.WellFormed → ∀ n, ¬ q.Stale n := by
    rintro q hq n ⟨k, hk, hne⟩
    exact hne (hq.settled n k hk)
  refine Alike.of_views hkind.symm (hmigrated.label.trans hmigrated'.label.symm)
    (hr.summary_eq_of_settled rfl hkind.symm (hsettled hr) (hsettled hq))
    (hmigrated.isCanonical.trans hmigrated'.isCanonical.symm) (fun n => ?_)
    (hmigrated.size.trans hmigrated'.size.symm) (hmigrated.live.trans hmigrated'.live.symm)
    (hmigrated.representatives.trans hmigrated'.representatives.symm)
    (hmigrated.growthBits.trans hmigrated'.growthBits.symm)
      (hmigrated.sameDigest.trans hmigrated'.sameDigest.symm)
  -- both lists enumerate the patterns that embed `n`
  rw [List.perm_ext_iff_of_nodup (hq.nodup_supers n) (hr.nodup_supers n)]
  intro m
  rw [hq.mem_supers, hr.mem_supers, embeds_congr hkind]

/-! ## Runs of a migration -/

theorem migration_of_turns (old new : PatternId) {a b : Pool × List PatternId}
    (h : ReflTransGen Turn a b) (ids : List PatternId) :
    ReflTransGen (Migration old new) (a.1, a.2, ids) (b.1, b.2, ids) := by
  induction h with
  | refl => exact ReflTransGen.refl
  | tail _ hlast ih => exact ih.tail (.turn hlast)

/-- A migration ends no sooner than the refresh under way. -/
theorem turns_of_migration (h : ReflTransGen (Migration old new) (p, pending, ids) (r, [], [])) :
    ∃ q, ReflTransGen Turn (p, pending) (q, []) ∧
      ReflTransGen (Migration old new) (q, [], ids) (r, [], []) := by
  generalize hstart : (p, pending, ids) = a at h
  induction h using ReflTransGen.head_induction_on generalizing p pending ids with
  | refl =>
    obtain ⟨rfl, rfl, rfl⟩ := by simpa only [Prod.mk.injEq] using hstart
    exact ⟨p, ReflTransGen.refl, ReflTransGen.refl⟩
  | head hstep hrest ih =>
    cases hstep with
    | turn hturn =>
      obtain ⟨rfl, rfl, rfl⟩ := by simpa only [Prod.mk.injEq] using hstart
      obtain ⟨q, hturns, hmigration⟩ := ih rfl
      exact ⟨q, hturns.head hturn, hmigration⟩
    | next =>
      obtain ⟨rfl, rfl, rfl⟩ := by simpa only [Prod.mk.injEq] using hstart
      exact ⟨p, ReflTransGen.refl, hrest.head .next⟩

/-- A migration ends if the refresh under way does, and what comes after it. -/
theorem acc_migration {a : Pool × List PatternId} (h : Acc (fun b a => Turn a b) a)
    (hrest : ∀ q, ReflTransGen Turn a (q, []) →
      Acc (fun b a => Migration old new a b) (q, [], ids)) :
    Acc (fun b a => Migration old new a b) (a.1, a.2, ids) := by
  induction h with
  | intro a _ ih =>
    obtain ⟨p, pending⟩ := a
    refine Acc.intro _ fun b hstep => ?_
    cases hstep with
    | turn hturn => exact ih _ hturn fun q hq => hrest q (hq.head hturn)
    | next => exact (hrest p ReflTransGen.refl).inv .next

theorem WellFormed.settles_redirected_iff (h : p.WellFormed) (hne : old ≠ new)
    (hold : p.isCanonical old = false) (hnew : p.isCanonical new = true) (hs : p.Embeds s old) :
    (p.redirected old new s).Settles s q ↔ q = Pool.redirect old new p s := by
  obtain ⟨k, -, hrewired⟩ := h.rewired_of_embeds hne hold hnew hs
  exact hrewired.settles_iff h hs.contains

/-- Every migration ends, and with the patterns redirected in their order. -/
theorem WellFormed.migration (hne : old ≠ new) (h : p.WellFormed) (hold : p.isCanonical old = false)
    (hnew : p.isCanonical new = true) (hids : (p.supers old).Perm ids) :
    Acc (fun b a => Migration old new a b) (p, [], ids) ∧
      ∀ r, ReflTransGen (Migration old new) (p, [], ids) (r, [], []) ↔
        r = ids.foldl (Pool.redirect old new) p := by
  induction ids generalizing p with
  | nil =>
    have hnone : ∀ b, ¬ Migration old new (p, [], []) b := by
      intro b hstep
      cases hstep with
      | turn hturn => exact nomatch hturn
    refine ⟨Acc.intro _ fun b hstep => absurd hstep (hnone b), fun r => ⟨fun hrun => ?_, ?_⟩⟩
    · rcases hrun.cases_head with heq | ⟨b, hstep, -⟩
      · exact (congrArg Prod.fst heq).symm
      · exact absurd hstep (hnone b)
    · rintro rfl
      exact ReflTransGen.refl
  | cons s ids ih =>
    have hs : p.Embeds s old := (h.mem_supers s old).1 (hids.mem_iff.2 List.mem_cons_self)
    obtain ⟨k, -, hrewired⟩ := h.rewired_of_embeds hne hold hnew hs
    obtain ⟨hredirects, hsupers⟩ := h.redirect hne hold hnew hs
    have hperm : ((Pool.redirect old new p s).supers old).Perm ids := by
      rw [hsupers, ← List.erase_cons_head s ids]
      exact hids.erase s
    obtain ⟨hacc, hruns⟩ :=
      ih hredirects.wellFormed hredirects.old_isCanonical hredirects.new_isCanonical hperm
    have hsettles : ∀ {q}, (p.redirected old new s).Settles s q ↔ q = Pool.redirect old new p s :=
      h.settles_redirected_iff hne hold hnew hs
    refine ⟨Acc.intro _ fun b hstep => ?_, fun r => ⟨fun hrun => ?_, ?_⟩⟩
    · cases hstep with
      | turn hturn => exact nomatch hturn
      | next =>
        refine acc_migration (a := (p.redirected old new s, [s]))
          ((hrewired.linked h hs.contains).acc_turn [s] _ ⟨rfl, rfl⟩) fun q hq => ?_
        rw [hsettles.1 hq]
        exact hacc
    · rcases hrun.cases_head with heq | ⟨b, hstep, hrest⟩
      · simp at heq
      · cases hstep with
        | turn hturn => exact nomatch hturn
        | next =>
          obtain ⟨q, hturns, hmigration⟩ := turns_of_migration hrest
          rw [hsettles.1 hturns] at hmigration
          exact (hruns r).1 hmigration
    · intro hr
      have hrefresh := migration_of_turns old new (hsettles.2 rfl) ids
      exact (hrefresh.trans ((hruns r).2 hr)).head .next

end Sigil.Pool
