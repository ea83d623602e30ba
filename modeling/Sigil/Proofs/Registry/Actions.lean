import Sigil.Digest
import Sigil.Proofs.Registry.Recognition

namespace Sigil

def Registering.after {α : Type} (x : Registering α) (r : Registry) : Registry :=
  match x r with
  | .ok _ s => s
  | .error _ s => s

namespace Registry

/-- A public operation on a registry. -/
inductive Action where
  | edit (c : Command)
  | register (t : FileType)
  | unregister (id : FileTypeId)
  | canonicalizeAll

namespace Action

def apply : Action → Registry → Registry
  | edit c, r => { r with pool := c.apply r.pool }
  | register t, r => Registering.after (Registry.register t) r
  | unregister id, r => Registering.after (Registry.unregister id) r
  | canonicalizeAll, r => Registering.after Registry.canonicalizeAll r

/-- Clients let go of what they hold alone. -/
def Fair (held : PatternId → Nat) : Action → Prop
  | edit c => c.Fair held
  | _ => True

def heldAfter (r : Registry) (held : PatternId → Nat) : Action → PatternId → Nat
  | edit c => c.heldAfter r.pool held
  | _ => held

end Action

/-- The registries that actions of fair clients make of an empty one, and what clients hold then. -/
inductive ReachedFrom (empty : Registry) : Registry → (PatternId → Nat) → Prop
  | start : ReachedFrom empty empty fun _ => 0
  | step {r : Registry} {held : PatternId → Nat} (h : ReachedFrom empty r held) (a : Action)
    (ha : a.Fair held) : ReachedFrom empty (a.apply r) (a.heldAfter r held)

/-- The registries with a history of actions of fair clients, and what clients hold then. -/
abbrev Reached (config : Config) : Registry → (PatternId → Nat) → Prop :=
  ReachedFrom (ofConfig config)

variable {config : Config} {empty r s : Registry} {held : PatternId → Nat}

/-- More actions, none of which lets go of anything. -/
theorem ReachedFrom.foldl (h : ReachedFrom empty r held) {as : List Action}
    (has : ∀ a ∈ as, ∀ held, a.Fair held) :
    ∃ held', ReachedFrom empty (as.foldl (fun r a => a.apply r) r) held' := by
  induction as generalizing r held with
  | nil => exact ⟨held, h⟩
  | cons a as ih =>
    rw [List.forall_mem_cons] at has
    exact ih (h.step a (has.1 held)) has.2

theorem sound_after {α : Type} {x : Registering α} (h : Succeeds x r fun _ s => s.Sound held) :
    (Registering.after x r).Sound held := by
  obtain ⟨a, s, hrun, hs⟩ := h
  rwa [Registering.after, hrun]

theorem sound_ofConfig (config : Config) : (ofConfig config).Sound fun _ => 0 where
  holds :=
    { wellFormed :=
      (Edit.keeps_setGrowthBits Pool.wellFormed_empty config.selfCheck.growthBits).wellFormed
      roots := fun _ => Pool.roots_eq_zero rfl
      tagged := fun _ href => absurd href List.not_mem_nil }
  nodup := List.nodup_nil
  given _ hid := absurd hid List.not_mem_nil

/-- An action of a fair client leaves a sound registry sound, also where it fails. -/
theorem Sound.apply (h : r.Sound held) {a : Action} (ha : a.Fair held) :
    (a.apply r).Sound (a.heldAfter r held) := by
  cases a with
  | edit c => exact ⟨h.holds.command ha, h.nodup, h.given⟩
  | register t =>
    by_cases hlive : ∀ n ∈ t.patterns, r.pool.contains n = true
    · exact sound_after (h.succeeds_register hlive)
    · push Not at hlive
      obtain ⟨e, hrun⟩ := fails_register (r := r) (t := t) (by simpa using hlive)
      show Sound (Registering.after (Registry.register t) r) held
      rwa [Registering.after, hrun]
  | unregister id => exact sound_after (h.succeeds_unregister id)
  | canonicalizeAll =>
    exact sound_after (h.succeeds_canonicalizeAll.mono fun _ _ hs => hs.advances.sound)

/-- Every registry with a history is sound. -/
theorem Reached.sound (h : Reached config r held) : r.Sound held := by
  induction h with
  | start => exact sound_ofConfig config
  | step _ a ha ih => exact ih.apply ha

/-- A digest that tells all structures apart is as good as the structures. -/
theorem ofDigest_eq {δ : Type} [DecidableEq δ] {digest : Shape → δ}
    (hdigest : Function.Injective digest) (config : Config) :
    ofDigest digest config = ofConfig config := by
  rw [ofDigest, Pool.ofDigest_eq hdigest, ofConfig]

/-- Canonicalizing all patterns keeps what is recognized, and leaves nothing to be canonicalized. A
name pattern stays a context of its domain. Structures have to have digests of their own: a pattern
stays canonical while its digest is the same, whatever becomes of its structure. And literals have
to begin with the first bit of their storage. -/
theorem canonicalizeAll_keeps_recognition {δ : Type} [DecidableEq δ] {digest : Shape → δ}
    (hdigest : Function.Injective digest) (h : ReachedFrom (ofDigest digest config) r held)
    (hbare : ∀ n, r.pool.matcher? n = none) (haligned : r.pool.Aligned) :
    ∃ changed s, canonicalizeAll r = .ok changed s ∧
      (∀ subject : Subject, subject.Addressable → ∀ region policy,
        (∀ id, s.isOf id subject region policy = r.isOf id subject region policy) ∧
          s.typeOf subject region policy = r.typeOf subject region policy) ∧
      canonicalizeAll s = .ok 0 s ∧
      ∀ id t n, r.get? id = some t → t.namePattern = some n →
        ∃ u c d, s.get? id = some u ∧ u.namePattern = some c ∧ d.IsName ∧
          r.pool.domain? n = some d ∧ s.pool.domain? c = some d := by
  rw [ofDigest_eq hdigest] at h
  have hsound : r.Sound held := Reached.sound h
  obtain ⟨changed, s, hrun, hs⟩ := hsound.succeeds_canonicalizeAll
  refine ⟨changed, s, hrun, fun subject hsubject region policy =>
    hs.advances.agrees.recognizes hsound hs.advances.sound hbare haligned hsubject region policy,
    ?_, ?_⟩
  · -- all slots are settled now, and so the second pass has nothing to change
    obtain ⟨changed', u, hrun', hu⟩ := hs.advances.sound.succeeds_canonicalizeAll
    obtain ⟨rfl, rfl⟩ := hu.unchanged fun id slot => hs.settled id slot not_false
    exact hrun'
  · intro id t n hget hname
    have hmem : (id, t) ∈ r.types := (get?_eq_some_iff hsound.nodup).1 hget
    obtain ⟨d, hd, hadmits⟩ := hsound.holds.tagged (Slot.name, n)
      (List.mem_flatMap.2 ⟨_, hmem, FileType.mem_references.2 hname⟩)
    have hrel := hs.advances.agrees.rel_get? id
    rw [hget] at hrel
    generalize s.get? id = o at hrel
    cases hrel with
    | @some _ u htu =>
      have hslot := htu.slots .name
      rw [show t.pattern? .name = some n from hname] at hslot
      change Option.Rel _ _ u.namePattern at hslot
      generalize hname' : u.namePattern = o at hslot
      cases hslot with
      | @some _ c hagree => exact ⟨u, c, d, rfl, hname', hadmits, hd, hagree.domain?.trans hd⟩

/-- A type that goes by the name and one that goes by the contents share a choice within a choice.
Both slots pass to the flat choice. -/
theorem canonicalizeAll_shared_choice :
    let r := ([
      .edit (.lit [97]), .edit (.lit [98]), .edit (.alt [⟨0⟩, ⟨1⟩]), .edit (.lit [99]),
      .edit (.alt [⟨2⟩, ⟨3⟩]),
      .register { name := "x", policy := .name, namePattern := some ⟨4⟩ },
      .register { name := "y", policy := .contents, contentPattern := some ⟨4⟩ }] :
      List Action).foldl (fun r a => a.apply r) (ofConfig {})
    ∃ s, canonicalizeAll r = .ok 2 s ∧ canonicalizeAll s = .ok 0 s ∧
      s.typeOf ⟨some [98], .bytes #[122]⟩ .full none = .ok (some ⟨0⟩) ∧
      s.typeOf ⟨some [122], .bytes #[122, 99]⟩ .full none = .ok (some ⟨1⟩) ∧
      s.isOf ⟨1⟩ ⟨some [98], .bytes #[122]⟩ .full (some .either) = .ok false := by
  intro r
  obtain ⟨held, hreached⟩ : ∃ held, ReachedFrom (ofDigest (id : Shape → Shape) {}) r held :=
    ReachedFrom.start.foldl (by simp [Action.Fair, Command.Fair])
  have htwo : canonicalizeAll.run' r = some 2 := by decide +kernel
  obtain ⟨changed, s, hrun, hsame, hagain, -⟩ :=
    canonicalizeAll_keeps_recognition Function.injective_id hreached
      (fun n => Pool.matcher?_eq_none_of_all (by decide +kernel) n)
      (Pool.aligned_of_all (by decide +kernel))
  delta EStateM.run' EStateM.run at htwo
  rw [hrun] at htwo
  obtain rfl := Option.some.inj htwo
  have haddressable : ∀ name bytes : List UInt8, name.length ≤ 2 → bytes.length ≤ 2 →
      Subject.Addressable ⟨some name, .bytes bytes.toArray⟩ := by
    intro name bytes hname hbytes
    have hbits : ∀ l : List UInt8, l.length ≤ 2 → Buffer.bitSize l.toArray < inf := by
      intro l hl
      rw [Buffer.bitSize, List.size_toArray, inf]
      omega
    constructor
    · rintro _ ⟨rfl⟩
      exact hbits name hname
    · rintro _ ⟨rfl⟩
      exact hbits bytes hbytes
    · exact fun _ _ hfile => Contents.noConfusion hfile
  refine ⟨s, hrun, hagain, ?_, ?_, ?_⟩
  · rw [(hsame _ (haddressable [98] [122] (by decide) (by decide)) .full none).2]
    decide +kernel
  · rw [(hsame _ (haddressable [122] [122, 99] (by decide) (by decide)) .full none).2]
    decide +kernel
  · rw [(hsame _ (haddressable [98] [122] (by decide) (by decide)) .full (some .either)).1]
    decide +kernel

/-- A canonical alternation without alternatives is given one that leaves its digest of 64 bits
alone, and so it counts as canonical with a pattern under it that is not. The type passes to that
pattern, and then to the canonical one. -/
theorem canonicalizeAll_colliding_digests :
    let empty := ofDigest Tree.digest {}
    let r := ([
      .edit (.alt []), .edit (.canonicalize ⟨0⟩), .edit (.alt []),
      .edit (.any 18028395298648256560), .edit (.seq [⟨2⟩]), .edit (.seq [⟨1⟩, ⟨3⟩]),
      .edit (.ctx .fileContents ⟨4⟩), .edit (.pushSub ⟨0⟩ ⟨5⟩), .edit (.alt [⟨0⟩]),
      .register { name := "t", policy := .contents, contentPattern := some ⟨6⟩ }] :
      List Action).foldl (fun r a => a.apply r) empty
    (∃ held, ReachedFrom empty r held) ∧ (∀ n, r.pool.matcher? n = none) ∧ r.pool.Aligned ∧
      canonicalizeAll.run' r = some 1 ∧
      canonicalizeAll.run' (Registering.after canonicalizeAll r) = some 1 := by
  intro empty r
  refine ⟨ReachedFrom.start.foldl (by simp [Action.Fair, Command.Fair]), ?_, ?_, ?_, ?_⟩
  · exact fun n => Pool.matcher?_eq_none_of_all (by decide +kernel) n
  · exact Pool.aligned_of_all (by decide +kernel)
  · decide +kernel
  · decide +kernel

end Registry

end Sigil
