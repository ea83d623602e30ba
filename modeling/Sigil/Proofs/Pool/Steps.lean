import Sigil.Proofs.Pool.Splice

namespace Sigil

namespace Pool

open Relation (ReflTransGen)

variable {p q r : Pool} {old new m n : PatternId} {c : Command}

inductive Step : Pool → Pool → Prop where
  | grow {p q : Pool} {pushed : Option PatternId} (h : Grows pushed p q) : Step p q
  | modify {p : Pool} {f : Node → Node} (hf : KeepsPlace f) (id : PatternId) :
    Step p (p.modify id f)
  | shrink {p q : Pool} (h : p.Shrinks q) : Step p q
  | tune (p : Pool) (bits : Nat) : Step p { p with growthBits := bits }

theorem Step.wellFormed (h : Step p q) (hp : p.WellFormed) : q.WellFormed := by
  cases h with
  | grow h => exact (h.keeps hp).wellFormed
  | modify hf id => exact hp.modify hf id
  | shrink h => exact h.wellFormed
  | tune bits => exact (Edit.keeps_setGrowthBits hp bits).wellFormed

/-- What well-formed pools keep at each step they keep through all of them. -/
theorem WellFormed.invariant_of_steps {I : Pool → Prop}
    (step : ∀ p q, p.WellFormed → Step p q → I p → I q) (hp : p.WellFormed)
    (hsteps : ReflTransGen Step p q) (hI : I p) : q.WellFormed ∧ I q := by
  induction hsteps with
  | refl => exact ⟨hp, hI⟩
  | tail _ hlast ih => exact ⟨hlast.wellFormed ih.1, step _ _ ih.1 hlast ih.2⟩

theorem WellFormed.steps_apply (h : p.WellFormed) (hc : c.canonicalizes = false) :
    ReflTransGen Step p (c.apply p) := by
  cases hbuilds : c.builds with
  | true => exact ReflTransGen.mono (fun _ _ => Step.grow) _ _ (h.grows_apply hbuilds)
  | false =>
    cases c with
    | setGrowthBits bits => exact ReflTransGen.single (.tune p bits)
    | retain id =>
      have hplace : KeepsPlace fun n => { n with roots := n.roots + 1 } :=
        ⟨fun _ => rfl, fun _ => rfl, fun _ => rfl, fun _ => rfl, fun _ => rfl⟩
      show ReflTransGen Step p ((Edit.retain id).after p)
      rw [Edit.after_retain]
      exact ReflTransGen.single (.modify hplace id)
    | release id =>
      have hplace : KeepsPlace fun n => { n with roots := n.roots - 1 } :=
        ⟨fun _ => rfl, fun _ => rfl, fun _ => rfl, fun _ => rfl, fun _ => rfl⟩
      show ReflTransGen Step p ((Edit.release id).after p)
      rcases Edit.release_cases h id with ⟨-, hsame⟩ | hshrinks
      · rw [hsame]
      · exact (ReflTransGen.single (.shrink hshrinks)).head (.modify hplace id)
    | sweep => exact ReflTransGen.single (.shrink (Edit.shrinks_sweep h))
    | canonicalize id | mutatingCanonicalize id => exact nomatch hc
    | _ => exact nomatch hbuilds

/-! ## Canonical patterns -/

/-- The canonical patterns of `q` are canonical in `p` already, of the same kinds and stored the
same. -/
def Inherits (p q : Pool) : Prop := ∀ n, q.isCanonical n = true →
  p.isCanonical n = true ∧ q.kind? n = p.kind? n ∧ q.lead n = p.lead n

namespace Inherits

theorem refl (p : Pool) : p.Inherits p := fun _ hn => ⟨hn, rfl, rfl⟩

theorem trans (h : p.Inherits q) (h' : q.Inherits r) : p.Inherits r := by
  intro n hn
  obtain ⟨hq, hkind, hlead⟩ := h' n hn
  obtain ⟨hp, hkind', hlead'⟩ := h n hq
  exact ⟨hp, hkind.trans hkind', hlead.trans hlead'⟩

end Inherits

theorem Shrinks.isCanonical (h : p.Shrinks q) (hn : q.contains n = true) :
    q.isCanonical n = p.isCanonical n :=
  h.view (Option.any (·.canonical)) (fun _ _ => rfl) n hn

theorem Shrinks.inherits (h : p.Shrinks q) : p.Inherits q := by
  intro n hn
  have hlive := contains_of_isCanonical hn
  exact ⟨(h.isCanonical hlive).symm.trans hn, h.kind? hlive, h.lead hlive⟩

theorem inherits_modify {f : Node → Node} (hf : KeepsPlace f) (id : PatternId) :
    p.Inherits (p.modify id f) := by
  intro n hn
  rw [isCanonical_modify hf.canonical] at hn
  exact ⟨hn, by rw [kind?_modify hf.kind], by rw [lead_modify hf.lead]⟩

theorem Grows.inherits {pushed : Option PatternId} (h : Grows pushed p q) (hp : p.WellFormed) :
    p.Inherits q := by
  cases h with
  | add hk hsubs hnew =>
    intro n hn
    rw [isCanonical_add] at hn
    have hold := ne_fresh_of_contains (contains_of_isCanonical hn)
    exact ⟨hn, by rw [kind?_add, if_neg hold], by rw [lead_add, if_neg hold]⟩
  | modify hf _ id => exact inherits_modify hf id
  | append _ hk hmulti hn hno =>
    intro m hm
    have hacyclic := hp.not_reaches hn hno
    have hrewired := hp.rewired_appended hk hmulti hn hacyclic
    obtain ⟨hcanonical, hnot⟩ := hp.isCanonical_of_append hk hmulti hn hacyclic hm
    have hmends := hrewired.mends hp (kind?_isSome_iff.1 ⟨_, hk⟩)
    refine ⟨hcanonical, ?_, congrFun (hmends.lead.trans hrewired.lead) m⟩
    rw [hmends.kind?, hrewired.kind?, if_neg]
    rintro rfl
    exact hnot ReflTransGen.refl

theorem Step.inherits (h : Step p q) (hp : p.WellFormed) : p.Inherits q := by
  cases h with
  | grow h => exact h.inherits hp
  | modify hf id => exact inherits_modify hf id
  | shrink h => exact h.inherits
  | tune bits => exact fun n hn => ⟨hn, rfl, rfl⟩

/-- Canonical patterns do not embed the old pattern, so they are not redirected. -/
theorem Migrated.inherits (h : Migrated old new (p.supers old) p q) (hp : p.WellFormed)
    (hold : p.isCanonical old = false) : p.Inherits q := by
  intro n hn
  rw [h.isCanonical] at hn
  refine ⟨hn, ?_, congrFun (lead_congr h.label) n⟩
  rw [h.kind?, if_neg]
  intro hsuper
  rw [hp.not_isCanonical_of_embeds ((hp.mem_supers n old).1 hsuper) hold] at hn
  exact Bool.false_ne_true hn

/-- All that a command does besides canonicalization leaves the canonical patterns as they are, but
that some of them may be canonical no longer. -/
theorem WellFormed.inherits_apply (h : p.WellFormed) (c : Command) :
    ∃ q, (q = p ∨ ∃ id, q = (Edit.canonicalize id).after p) ∧ q.Inherits (c.apply p) := by
  cases hc : c.canonicalizes with
  | false =>
    refine ⟨p, Or.inl rfl, ?_⟩
    exact (h.invariant_of_steps (I := p.Inherits) (fun q r hq hstep hpq =>
      hpq.trans (hstep.inherits hq))
      (h.steps_apply hc) (Inherits.refl p)).2
  | true =>
    cases c with
    | canonicalize id => exact ⟨_, Or.inr ⟨id, rfl⟩, Inherits.refl _⟩
    | mutatingCanonicalize id =>
      refine ⟨_, Or.inr ⟨id, rfl⟩, ?_⟩
      show ((Edit.canonicalize id).after p).Inherits ((Edit.mutatingCanonicalize id).after p)
      rcases Edit.mutatingCanonicalize_cases h id with hsame | ⟨new, q, hrun, hne, hshrinks⟩
      · rw [hsame]
        exact Inherits.refl _
      · obtain ⟨hrefines, hnew, hold⟩ := Edit.canonicalize_ne h hrun hne
        rw [Edit.after, hrun]
        have hmigrated : Migrated id new (q.supers id) q (q.migrateSupers id new) :=
          hrefines.wellFormed.migrated_foldl (Ne.symm hne) hold hnew (List.Perm.refl _)
        exact (hmigrated.inherits hrefines.wellFormed hold).trans hshrinks.inherits
    | _ => exact absurd hc.symm Bool.noConfusion

/-! ## Patterns made afresh -/

/-- The commands make patterns or say something about them, and append to no pattern of `p`. -/
def Afresh (p : Pool) (cs : List Command) : Prop :=
  ∀ c ∈ cs, c.builds = true ∧ ∀ n, c.pushed? = some n → p.contains n = false

/-- The patterns of `p` are of the same kinds in `q`, and those that were canonical still are. -/
def Upholds (p q : Pool) : Prop :=
  ∀ n, p.contains n = true → q.kind? n = p.kind? n ∧
    (p.isCanonical n = true → q.isCanonical n = true)

theorem Upholds.refl (p : Pool) : p.Upholds p := fun _ _ => ⟨rfl, fun hn => hn⟩

theorem Upholds.contains (h : p.Upholds q) (hn : p.contains n = true) : q.contains n = true := by
  rwa [contains_eq, (h n hn).1, ← contains_eq]

theorem Upholds.grows {pushed : Option PatternId} (h : p.Upholds q) (hp : p.WellFormed)
    (hq : q.WellFormed) (hgrows : Grows pushed q r)
    (hpushed : ∀ n, pushed = some n → p.contains n = false) : p.Upholds r := by
  cases hgrows with
  | add hk hsubs _ =>
    intro n hn
    obtain ⟨hkind, hcanonical⟩ := h n hn
    rw [kind?_add, if_neg (ne_fresh_of_contains (h.contains hn)), isCanonical_add]
    exact ⟨hkind, hcanonical⟩
  | modify hf _ id =>
    intro n hn
    rw [kind?_modify hf.kind, isCanonical_modify hf.canonical]
    exact h n hn
  | @append s t k hs hk hmulti ht hno =>
    have hnew : p.contains s = false := hpushed s hs
    have hlive : q.contains s = true := kind?_isSome_iff.1 ⟨k, hk⟩
    have hrewired := hq.rewired_appended hk hmulti ht (hq.not_reaches ht hno)
    have hne : ∀ m, p.contains m = true → m ≠ s := by
      rintro m hm rfl
      rw [hnew] at hm
      exact Bool.false_ne_true hm
    -- no pattern of `p` is above the one that is appended to
    have hnot : ∀ m, p.contains m = true → ¬ ReflTransGen (q.appended s t).Embeds m s := by
      intro m hm hms
      induction hms using ReflTransGen.head_induction_on with
      | refl => exact hne s hm rfl
      | head hmn _ ih =>
        obtain ⟨k', hk', hsub⟩ := (hrewired.embeds_of_ne (hne _ hm)).1 hmn
        exact ih (hp.contains_sub ⟨k', (h _ hm).1.symm.trans hk', hsub⟩)
    intro n hn
    obtain ⟨hkind, hcanonical⟩ := h n hn
    rw [(hrewired.mends hq hlive).kind?, hrewired.kind?, if_neg (hne n hn),
      hrewired.isCanonical_of_not_above hq hlive (hnot n hn)]
    exact ⟨hkind, hcanonical⟩

theorem Upholds.of_grows {pushed : Option PatternId} (h : p.Upholds q) (hp : p.WellFormed)
    (hq : q.WellFormed) (hgrows : ReflTransGen (Grows pushed) q r)
    (hpushed : ∀ n, pushed = some n → p.contains n = false) : p.Upholds r := by
  induction hgrows with
  | refl => exact h
  | tail hbefore hlast ih => exact ih.grows hp (keeps_of_grows hbefore hq).wellFormed hlast hpushed

/-- What is made afresh leaves the canonical patterns canonical. -/
theorem Upholds.foldl (h : p.Upholds q) (hp : p.WellFormed) (hq : q.WellFormed) {cs : List Command}
    (hcs : p.Afresh cs) : p.Upholds (cs.foldl (fun q c => c.apply q) q) := by
  induction cs generalizing q with
  | nil => exact h
  | cons c cs ih =>
    obtain ⟨hbuilds, hpushed⟩ := hcs c List.mem_cons_self
    exact ih (h.of_grows hp hq (hq.grows_apply hbuilds) hpushed) (hq.obeys c).wellFormed fun x hx =>
      hcs x (List.mem_cons_of_mem c hx)

end Pool

end Sigil
