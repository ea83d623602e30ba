import Sigil.Digest
import Sigil.Proofs.Pool.HashConsing
import Sigil.Proofs.Pool.Steps

namespace Sigil

namespace Pool

open Relation (ReflTransGen)

variable {p q r : Pool} {d : Domain} {s m n c : PatternId} {x : Command} {cs ds : List Command}

/-- No two patterns are contexts of `s` in the domain. -/
def OneContext (p : Pool) (d : Domain) (s : PatternId) : Prop :=
  ∀ m n, p.kind? m = some (.ctx d s) → p.kind? n = some (.ctx d s) → m = n

def runBy {δ : Type} [DecidableEq δ] (digest : Shape → δ) (cs : List Command) : Pool :=
  cs.foldl (fun p c => c.apply p) (ofDigest digest)

theorem OneContext.of_kind? (h : p.OneContext d s)
    (hkind : ∀ m, q.kind? m = some (.ctx d s) → p.kind? m = some (.ctx d s)) : q.OneContext d s :=
  fun m n hm hn => h m n (hkind m hm) (hkind n hn)

theorem OneContext.grows {pushed : Option PatternId} (h : p.OneContext d s) (hp : p.WellFormed)
    (hgrows : Grows pushed p q) : q.OneContext d s := by
  cases hgrows with
  | @add k hk hsubs hnew =>
    intro m n hm hn
    rw [kind?_add] at hm hn
    split at hm
    case isTrue hm' =>
      split at hn
      case isTrue hn' => exact hm'.trans hn'.symm
      case isFalse => exact absurd hn (hnew d s (Option.some.inj hm) n)
    case isFalse =>
      split at hn
      case isTrue => exact absurd hm (hnew d s (Option.some.inj hn) m)
      case isFalse => exact h m n hm hn
  | modify hf _ id => exact h.of_kind? fun m hm => by rwa [kind?_modify hf.kind] at hm
  | @append t n k _ hk hmulti hn hno =>
    have hrewired := hp.rewired_appended hk hmulti hn (hp.not_reaches hn hno)
    refine h.of_kind? fun m hm => ?_
    rw [(hrewired.mends hp (kind?_isSome_iff.1 ⟨k, hk⟩)).kind?, hrewired.kind?] at hm
    split at hm
    case isFalse => exact hm
    case isTrue =>
      -- the pattern that grew is an alternation or a sequence
      rw [Option.some.injEq] at hm
      cases k with
      | alt subs | seq subs => exact nomatch hm
      | _ => exact nomatch hmulti

theorem OneContext.step (h : p.OneContext d s) (hp : p.WellFormed) (hstep : Step p q) :
    q.OneContext d s := by
  cases hstep with
  | grow hgrows => exact h.grows hp hgrows
  | modify hf id => exact h.of_kind? fun m hm => by rwa [kind?_modify hf.kind] at hm
  | shrink hshrinks =>
    exact h.of_kind? fun m hm => by rwa [hshrinks.kind? (kind?_isSome_iff.1 ⟨_, hm⟩)] at hm
  | tune bits => exact h

/-- What embeds a pattern that is not canonical is an older pattern. -/
theorem Refines.kind?_of_sub {appointed : PatternId → Prop} (h : Refines appointed p q)
    {k : Kind PatternId} (hm : q.kind? m = some k) (hs : s ∈ k.subs)
    (hold : q.isCanonical s = false) : p.kind? m = some k := by
  rcases h.grown m (kind?_isSome_iff.1 ⟨k, hm⟩) with hlive | hcanonical
  · rwa [h.kind? m hlive] at hm
  · rw [h.wellFormed.not_isCanonical_of_embeds ⟨k, hm, hs⟩ hold] at hcanonical
    exact absurd hcanonical Bool.false_ne_true

/-- Canonicalization brings no context of a pattern about that is not canonical after it. -/
theorem WellFormed.kind?_of_canonicalizes (h : p.WellFormed) (hx : x.canonicalizes = true)
    (hs : (x.apply p).isCanonical s = false) (hm : (x.apply p).kind? m = some (.ctx d s)) :
    p.kind? m = some (.ctx d s) := by
  have hsub : s ∈ (Kind.ctx d s).subs := List.mem_singleton_self s
  cases x with
  | canonicalize id => exact (Edit.refines_canonicalize h id).kind?_of_sub hm hsub hs
  | mutatingCanonicalize id =>
    change ((Edit.mutatingCanonicalize id).after p).isCanonical s = false at hs
    change ((Edit.mutatingCanonicalize id).after p).kind? m = some (.ctx d s) at hm
    rcases Edit.mutatingCanonicalize_cases h id with hsame | ⟨new, q, hrun, hne, hshrinks⟩
    · rw [hsame] at hs hm
      exact (Edit.refines_canonicalize h id).kind?_of_sub hm hsub hs
    · obtain ⟨hrefines, hnew, hold⟩ := Edit.canonicalize_ne h hrun hne
      have hmigrated : Migrated id new (q.supers id) q (q.migrateSupers id new) :=
        hrefines.wellFormed.migrated_foldl (Ne.symm hne) hold hnew (List.Perm.refl _)
      have hlive := hshrinks.wellFormed.contains_sub ⟨_, hm, hsub⟩
      rw [hshrinks.isCanonical hlive, hmigrated.isCanonical] at hs
      rw [hshrinks.kind? (kind?_isSome_iff.1 ⟨_, hm⟩), hmigrated.kind?] at hm
      split at hm
      case isFalse => exact hrefines.kind?_of_sub hm hsub hs
      case isTrue =>
        obtain ⟨k, hk, hmap⟩ := Option.map_eq_some_iff.1 hm
        cases k with
        | ctx e t =>
          obtain ⟨rfl, hsubst⟩ := Kind.ctx.inj hmap
          unfold substitute at hsubst
          split at hsubst
          case isTrue =>
            -- the pattern that takes the place is canonical
            rw [← hsubst, hnew] at hs
            exact absurd hs.symm Bool.false_ne_true
          case isFalse =>
            rw [hsubst] at hk
            exact hrefines.kind?_of_sub hk hsub hs
        | _ => exact nomatch hmap
  | _ => exact nomatch hx

theorem OneContext.apply (h : p.OneContext d s) (hp : p.WellFormed) (x : Command)
    (hx : x.canonicalizes = true → (x.apply p).isCanonical s = false) :
    (x.apply p).OneContext d s := by
  cases hcanonicalizes : x.canonicalizes with
  | true => exact h.of_kind? fun m => hp.kind?_of_canonicalizes hcanonicalizes (hx hcanonicalizes)
  | false =>
    exact (hp.invariant_of_steps (I := fun q => q.OneContext d s) (fun _ _ hq hstep hI =>
      hI.step hq hstep)
      (hp.steps_apply hcanonicalizes) h).2

theorem run_concat (cs : List Command) (x : Command) : run (cs ++ [x]) = x.apply (run cs) := by
  rw [run, List.foldl_append]
  rfl

/-- The only context is the answer. -/
theorem OneContext.ctx_eq (h : p.OneContext d s) (hp : p.WellFormed)
    (hdomain : p.domain? s ≠ some d) (hc : p.kind? c = some (.ctx d s)) :
    Edit.ctx d s p = .ok c p := by
  have hs : p.contains s = true := hp.contains_sub ⟨_, hc, List.mem_singleton_self s⟩
  obtain ⟨hself, -⟩ | ⟨-, ⟨c', hc', hrun⟩ | ⟨hnone, -⟩⟩ := Edit.ctx_cases s hp hs d
  · exact absurd hself hdomain
  · rwa [h c c' hc hc']
  · exact absurd hc (hnone c)

/-- An alternation counts as canonical over a pattern that is not, since its digest of 64 bits has
stayed the same. So that pattern is given a second context, and is not canonical after that
either. -/
theorem contexts_of_colliding_digests :
    let p := runBy Tree.digest [.alt [], .canonicalize ⟨0⟩, .alt [], .any 18028395298648256560,
      .seq [⟨2⟩], .seq [⟨1⟩, ⟨3⟩], .ctx .fileContents ⟨4⟩, .ctx .fileName ⟨5⟩, .pushSub ⟨0⟩ ⟨5⟩,
      .alt [⟨0⟩], .ctx .fileName ⟨7⟩, .canonicalize ⟨8⟩]
    p.isCanonical ⟨5⟩ = false ∧ p.kind? ⟨6⟩ = some (.ctx .fileName ⟨5⟩) ∧
      p.kind? ⟨9⟩ = some (.ctx .fileName ⟨5⟩) := by
  decide +kernel

end Pool

end Sigil
